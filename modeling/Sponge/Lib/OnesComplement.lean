import Mathlib.Data.Nat.Bits
import Mathlib.Tactic.Ring
import Sponge.Lib.BigEndian

/-!
# Ones'-complement sums

Folding the carry of a sum back in keeps the sum modulo `m`, where `m + 1` is the base, and keeps a
positive sum positive: what is left in the end is its `residue`. The complement of the residue is what
has to be added to make the residue `m`; apart from the two zeros `0` and `m` it is the only such number.
-/

namespace OnesComplement

/-- The representative of `n` modulo `m` among `1, …, m`, and `0` for `0`. -/
def residue (m n : ℕ) : ℕ := if n = 0 then 0 else (n - 1) % m + 1

def complement (m n : ℕ) : ℕ := m - residue m n

section
variable {m n x : ℕ}

theorem residue_eq_zero_iff : residue m n = 0 ↔ n = 0 := by
  unfold residue; split <;> simp_all

theorem residue_of_le (h : n ≤ m) : residue m n = n := by
  unfold residue
  split
  · omega
  · rw [Nat.mod_eq_of_lt (by omega)]; omega

theorem exists_eq_mul_add_residue (hn : n ≠ 0) : ∃ q, n = m * q + residue m n := by
  refine ⟨(n - 1) / m, ?_⟩
  have := Nat.div_add_mod (n - 1) m
  rw [residue, if_neg hn]
  omega

theorem residue_le (hm : 0 < m) : residue m n ≤ m := by
  unfold residue
  split
  · omega
  · exact Nat.mod_lt _ hm

theorem residue_mul_add (q : ℕ) (hx : 0 < x) (hxm : x ≤ m) : residue m (m * q + x) = x := by
  rw [residue, if_neg (by omega), show m * q + x - 1 = (x - 1) + m * q by omega, Nat.add_mul_mod_self_left,
    Nat.mod_eq_of_lt (by omega)]
  omega

/-- Folding the carry back in does not change the residue. -/
theorem residue_fold (m n : ℕ) : residue m (n / (m + 1) + n % (m + 1)) = residue m n := by
  have hn := Nat.div_add_mod n (m + 1)
  generalize n / (m + 1) = q at hn ⊢
  generalize n % (m + 1) = r at hn ⊢
  have hmul : (m + 1) * q = m * q + q := by ring
  by_cases h0 : n = 0
  · have : q + r = 0 := by omega
    rw [this, h0]
  · have hqr : q + r ≠ 0 := by
      intro h
      obtain ⟨rfl, rfl⟩ : q = 0 ∧ r = 0 := by omega
      exact h0 (by simpa using hn.symm)
    have hpred : n - 1 = (q + r - 1) + m * q := by omega
    rw [residue, residue, if_neg hqr, if_neg h0, hpred, Nat.add_mul_mod_self_left]

theorem residue_eq_modulus_iff (hm : 0 < m) : residue m n = m ↔ 0 < n ∧ m ∣ n := by
  constructor
  · intro h
    have hn : n ≠ 0 := fun h0 => by rw [residue_eq_zero_iff.2 h0] at h; omega
    obtain ⟨q, hq⟩ := exists_eq_mul_add_residue (m := m) hn
    rw [h] at hq
    exact ⟨Nat.pos_of_ne_zero hn, q + 1, by rw [hq]; ring⟩
  · rintro ⟨hn, q, rfl⟩
    obtain ⟨k, rfl⟩ : ∃ k, q = k + 1 := ⟨q - 1, by have := Nat.pos_of_mul_pos_left hn; omega⟩
    exact residue_mul_add k hm le_rfl

theorem add_complement (hm : 0 < m) (n : ℕ) :
    ∃ q, n + complement m n = m * (q + 1) ∧ (n = 0 ∨ m * q < n) := by
  have hle := residue_le (n := n) hm
  by_cases hn : n = 0
  · exact ⟨0, by simp [complement, hn, residue], Or.inl hn⟩
  · obtain ⟨q, hq⟩ := exists_eq_mul_add_residue (m := m) hn
    have hpos : residue m n ≠ 0 := fun h => hn (residue_eq_zero_iff.1 h)
    refine ⟨q, ?_, Or.inr (by omega)⟩
    rw [complement, Nat.mul_succ]; omega

theorem residue_add_complement (hm : 0 < m) (n : ℕ) : residue m (n + complement m n) = m := by
  obtain ⟨q, hq, -⟩ := add_complement hm n
  rw [hq, Nat.mul_succ]
  exact residue_mul_add q hm le_rfl

theorem add_complement_le (hm : 0 < m) {k : ℕ} (hk : 0 < k) (hn : n ≤ m * k) :
    n + complement m n ≤ m * k := by
  obtain ⟨q, hq, h | h⟩ := add_complement hm n
  · rw [h, Nat.zero_add, complement]
    exact Nat.le_trans (Nat.sub_le ..) (Nat.le_mul_of_pos_right m hk)
  · have : q < k := Nat.lt_of_mul_lt_mul_left (Nat.lt_of_lt_of_le h hn)
    rw [hq]
    exact Nat.mul_le_mul_left m this

/-- A number that makes the residue `m` is the complement, or the two are the two zeros. -/
theorem complement_eq_or (hm : 0 < m) (hx : x ≤ m) (h : residue m (n + x) = m) :
    complement m n = x ∨ x = m ∧ complement m n = 0 := by
  obtain ⟨hpos, c, hc⟩ := (residue_eq_modulus_iff hm).1 h
  obtain ⟨q, hq, h0⟩ := add_complement hm n
  have hle : complement m n ≤ m := Nat.sub_le ..
  have hmul : m * (q + 1) = m * q + m := Nat.mul_succ ..
  rcases Nat.lt_trichotomy c (q + 1) with hlt | heq | hgt
  · -- then `x` is a whole modulus below the complement, so `n` itself is `0`
    have : m * c ≤ m * q := Nat.mul_le_mul_left m (Nat.lt_succ_iff.1 hlt)
    omega
  · left; rw [heq] at hc; omega
  · right
    have : m * (q + 2) ≤ m * c := Nat.mul_le_mul_left m hgt
    have : m * (q + 2) = m * q + m + m := by ring
    omega

theorem residue_residue_add (m n x : ℕ) : residue m (residue m n + x) = residue m (n + x) := by
  by_cases hn : n = 0
  · rw [hn, residue_eq_zero_iff.2 rfl]
  · obtain ⟨q, hq⟩ := exists_eq_mul_add_residue (m := m) hn
    have hpos : residue m n ≠ 0 := fun h => hn (residue_eq_zero_iff.1 h)
    have hpred : n + x - 1 = (residue m n + x - 1) + m * q := by omega
    rw [residue, residue.eq_def m (n + x), if_neg (by omega), if_neg (by omega), hpred,
      Nat.add_mul_mod_self_left]

/-- The residue of a positive number is the only one congruent to it among `1, …, m`. -/
theorem residue_unique (hm : 0 < m) (hn : n ≠ 0) :
    (0 < x ∧ x ≤ m ∧ x ≡ n [MOD m]) ↔ x = residue m n := by
  obtain ⟨q, hq⟩ := exists_eq_mul_add_residue (m := m) hn
  constructor
  · rintro ⟨hpos, hle, hmod⟩
    have hn1 : 1 ≤ n := Nat.pos_of_ne_zero hn
    rw [← Nat.sub_add_cancel (show 1 ≤ x from hpos), ← Nat.sub_add_cancel hn1] at hmod
    have := Nat.ModEq.add_right_cancel' 1 hmod
    rw [Nat.ModEq, Nat.mod_eq_of_lt (by omega)] at this
    rw [residue, if_neg hn]
    omega
  · rintro rfl
    refine ⟨Nat.pos_of_ne_zero fun h => hn (residue_eq_zero_iff.1 h), residue_le hm, ?_⟩
    rw [Nat.ModEq]
    conv_rhs => rw [hq, Nat.mul_add_mod]

/-- Addition with the carry out of the top added back in at the bottom. -/
def endAroundAdd (m x y : ℕ) : ℕ := if x + y ≤ m then x + y else x + y - m

theorem endAroundAdd_eq_residue {y : ℕ} (hx : x ≤ m) (hy : y ≤ m) :
    endAroundAdd m x y = residue m (x + y) := by
  unfold endAroundAdd
  split
  · exact (residue_of_le ‹_›).symm
  · have hsum : x + y = m * 1 + (x + y - m) := by omega
    rw [hsum, residue_mul_add 1 (by omega) (by omega)]
    omega

theorem foldl_endAroundAdd (hm : 0 < m) {ws : List ℕ} (hws : ∀ w ∈ ws, w ≤ m) :
    ws.foldl (endAroundAdd m) (residue m n) = residue m (n + ws.sum) := by
  induction ws generalizing n with
  | nil => rfl
  | cons w ws ih =>
    rw [List.foldl_cons, endAroundAdd_eq_residue (residue_le hm) (hws w (by simp)), residue_residue_add,
      ih fun v hv => hws v (by simp [hv]), List.sum_cons, Nat.add_assoc]

end

/-- The big-endian 16-bit words of the bytes, the last one padded with a zero byte. -/
def words : List UInt8 → List ℕ
  | [] => []
  | [a] => [a.toNat * 256]
  | a :: b :: l => (a.toNat * 256 + b.toNat) :: words l

theorem words_le (l : List UInt8) : ∀ w ∈ words l, w ≤ 65535 := by
  induction l using words.induct with
  | case1 => simp [words]
  | case2 a =>
    have := a.toNat_lt
    simp only [words, List.mem_singleton, forall_eq]
    omega
  | case3 a b l ih =>
    have := a.toNat_lt
    have := b.toNat_lt
    simp only [words, List.mem_cons, forall_eq_or_imp]
    exact ⟨by omega, ih⟩

theorem sum_words_le (b : List UInt8) : (words b).sum ≤ 65535 * ((b.length + 1) / 2) := by
  induction b using words.induct with
  | case1 => simp [words]
  | case2 a =>
    have := a.toNat_lt
    simp only [words, List.sum_singleton, List.length_singleton]
    omega
  | case3 a b l ih =>
    have := a.toNat_lt
    have := b.toNat_lt
    simp only [words, List.sum_cons, List.length_cons]
    omega

theorem sum_words_pos {b : List UInt8} {x : UInt8} (hx : x ∈ b) (hne : x ≠ 0) : 0 < (words b).sum := by
  have hpos : 0 < x.toNat := Nat.pos_of_ne_zero fun h => hne (UInt8.toNat_inj.1 h)
  induction b using words.induct with
  | case1 => cases hx
  | case2 a =>
    obtain rfl := List.mem_singleton.1 hx
    simp only [words, List.sum_singleton]
    omega
  | case3 a b l ih =>
    simp only [words, List.sum_cons]
    rcases List.mem_cons.1 hx with rfl | hx
    · omega
    rcases List.mem_cons.1 hx with rfl | hx
    · omega
    · have := ih hx
      omega

theorem getD_words_le (l : List UInt8) (i : ℕ) : (words l).getD i 0 ≤ 65535 := by
  rw [List.getD_eq_getElem?_getD]
  cases h : (words l)[i]? with
  | none => exact Nat.zero_le _
  | some w => exact words_le l w (List.mem_of_getElem? h)

section
variable {l l' : List UInt8} {i : ℕ}

theorem eq_of_forall_ne_zero {a b a' b' : UInt8}
    (h : ∀ j, j / 2 ≠ 0 → (a :: b :: l)[j]? = (a' :: b' :: l')[j]?) : l = l' := by
  refine List.ext_getElem? fun j => ?_
  have := h (j + 2) (by omega)
  rwa [List.getElem?_cons_succ, List.getElem?_cons_succ, List.getElem?_cons_succ,
    List.getElem?_cons_succ] at this

/-- Two byte strings of one length that agree outside their word `i`: that word is all they differ in. -/
theorem sum_words_congr (hlen : l.length = l'.length) (h : ∀ j, j / 2 ≠ i → l[j]? = l'[j]?) :
    (words l).sum + (words l').getD i 0 = (words l').sum + (words l).getD i 0 ∧
      ((words l).getD i 0 = (words l').getD i 0 → l = l') := by
  induction l using words.induct generalizing l' i with
  | case1 => simp [List.length_eq_zero_iff.1 hlen.symm]
  | case2 a =>
    obtain ⟨a', rfl⟩ := List.length_eq_one_iff.1 hlen.symm
    cases i with
    | zero => simp [words, ← UInt8.toNat_inj, Nat.add_comm]
    | succ i =>
      have ha : a = a' := by simpa using h 0 (by omega)
      simp [ha]
  | case3 a b l ih =>
    match l', hlen with
    | a' :: b' :: l', hlen =>
      simp only [words, List.sum_cons]
      cases i with
      | zero =>
        have := a.toNat_lt
        have := b.toNat_lt
        have := a'.toNat_lt
        have := b'.toNat_lt
        have hl : l = l' := eq_of_forall_ne_zero h
        simp only [List.getD_cons_zero, hl, List.cons.injEq, ← UInt8.toNat_inj, and_true]
        omega
      | succ i =>
        have ha : a = a' := by simpa using h 0 (by omega)
        have hb : b = b' := by simpa using h 1 (by omega)
        have hlen' : l.length = l'.length := by simpa using hlen
        obtain ⟨hsum, heq⟩ := ih (i := i) hlen' fun j hj => by
          simpa using h (j + 2) (by omega)
        simp only [List.getD_cons_succ, ha, hb, List.cons.injEq, true_and]
        exact ⟨by omega, heq⟩

end

/-- The sum of the 16-bit words of the bytes; with `odd` the first byte is the low half of a word. -/
def wordSum : Bool → List UInt8 → ℕ
  | _, [] => 0
  | odd, b :: l => (if odd then b.toNat else b.toNat * 256) + wordSum (!odd) l

theorem wordSum_append (odd : Bool) (l m : List UInt8) :
    wordSum odd (l ++ m) = wordSum odd l + wordSum (odd ^^ l.length.bodd) m := by
  induction l generalizing odd with
  | nil => simp [wordSum]
  | cons b l ih =>
    have hodd : (odd ^^ (b :: l).length.bodd) = (!odd ^^ l.length.bodd) := by
      rw [List.length_cons, Nat.bodd_succ]; cases odd <;> simp
    rw [List.cons_append, wordSum, wordSum, ih, hodd, Nat.add_assoc]

theorem wordSum_two {l : List UInt8} (h : l.length = 2) : wordSum false l = BigEndian.value l := by
  obtain ⟨a, b, rfl⟩ := List.length_eq_two.1 h
  simp [wordSum, BigEndian.value]

theorem wordSum_eq_sum_words (l : List UInt8) : wordSum false l = (words l).sum := by
  induction l using words.induct with
  | case1 => rfl
  | case2 a => simp [wordSum, words]
  | case3 a b l ih => simp [wordSum, words, ih, Nat.add_assoc]

end OnesComplement

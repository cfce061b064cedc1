import Mathlib.Data.List.GetD
import Sponge.Lib.OnesComplement

/-!
# Sixteen consecutive bits of a byte string

`bit l j` counts the bits of a string from the first byte on, each byte from its most significant bit. The
sixteen bits from `p` on lie in two neighbouring 16-bit words: `window l p` is the number that they make up
when each bit keeps its weight in its word. Strings that agree outside these bits have sums of words that
differ as their windows do (`sum_words_window`).
-/

namespace OnesComplement

def bit (l : List UInt8) (j : ℕ) : Bool := (l.getD (j / 8) 0).toNat.testBit (7 - j % 8)

variable {l l' : List UInt8} {p : ℕ}

theorem eq_of_bit_eq (hlen : l.length = l'.length) (h : ∀ j, bit l j = bit l' j) : l = l' := by
  refine List.ext_getElem hlen fun m hm hm' => ?_
  have hbits : ∀ k < 8, (l[m]).toNat.testBit (7 - k) = (l'[m]).toNat.testBit (7 - k) := by
    intro k hk
    have := h (8 * m + k)
    rw [bit, bit, show (8 * m + k) / 8 = m by omega, show (8 * m + k) % 8 = k by omega,
      List.getD_eq_getElem _ _ hm, List.getD_eq_getElem _ _ hm'] at this
    exact this
  rw [← UInt8.toNat_inj]
  refine Nat.eq_of_testBit_eq fun k => ?_
  by_cases hk : k < 8
  · have := hbits (7 - k) (by omega)
    rwa [show 7 - (7 - k) = k by omega] at this
  · have hpow : 2 ^ 8 ≤ 2 ^ k := Nat.pow_le_pow_right (by decide) (by omega)
    rw [Nat.testBit_lt_two_pow (Nat.lt_of_lt_of_le (l[m]).toNat_lt hpow),
      Nat.testBit_lt_two_pow (Nat.lt_of_lt_of_le (l'[m]).toNat_lt hpow)]

theorem bit_cons_cons (a b : UInt8) (l : List UInt8) (j : ℕ) : bit (a :: b :: l) (j + 16) = bit l j := by
  rw [bit, bit, show (j + 16) / 8 = j / 8 + 1 + 1 by omega, show (j + 16) % 8 = j % 8 by omega,
    List.getD_cons_succ, List.getD_cons_succ]

theorem testBit_word (a b : UInt8) {k : ℕ} (hk : k < 16) (l : List UInt8) :
    (a.toNat * 256 + b.toNat).testBit (15 - k) = bit (a :: b :: l) k := by
  rw [Nat.mul_comm, show 256 = 2 ^ 8 from rfl, Nat.testBit_two_pow_mul_add a.toNat b.toNat_lt, bit]
  by_cases hhigh : k < 8
  · rw [if_neg (by omega), show k / 8 = 0 by omega, show 15 - k - 8 = 7 - k % 8 by omega]; rfl
  · rw [if_pos (by omega), show k / 8 = 1 by omega, show 15 - k = 7 - k % 8 by omega]; rfl

/-- The bits of a word are the bits of its bytes. -/
theorem testBit_words (l : List UInt8) (i : ℕ) {k : ℕ} (hk : k < 16) :
    ((words l).getD i 0).testBit (15 - k) = bit l (16 * i + k) := by
  induction l using words.induct generalizing i with
  | case1 => simp [words, bit]
  | case2 a =>
    cases i with
    | zero =>
      have hbit : bit [a] k = bit [a, 0] k := by
        rcases (show k / 8 = 0 ∨ k / 8 = 1 by omega) with h | h <;> rw [bit, bit, h] <;> rfl
      rw [Nat.mul_zero, Nat.zero_add, hbit, ← testBit_word a 0 hk []]
      simp [words]
    | succ i =>
      have hpast : [a].getD ((16 * (i + 1) + k) / 8) 0 = 0 :=
        List.getD_eq_default _ _ (by rw [List.length_singleton]; omega)
      rw [bit, hpast]
      simp [words]
  | case3 a b l ih =>
    cases i with
    | zero =>
      rw [Nat.mul_zero, Nat.zero_add, ← testBit_word a b hk l]
      simp [words]
    | succ i =>
      rw [show 16 * (i + 1) + k = 16 * i + k + 16 by omega, bit_cons_cons, ← ih i]
      simp [words]

/-- The low bits of the word that holds bit `p`, below the high bits of the next one. -/
def window (l : List UInt8) (p : ℕ) : ℕ :=
  2 ^ (16 - p % 16) * ((words l).getD (p / 16 + 1) 0 / 2 ^ (16 - p % 16)) +
    (words l).getD (p / 16) 0 % 2 ^ (16 - p % 16)

theorem testBit_window (l : List UInt8) (p : ℕ) {k : ℕ} (hk : k < 16) : (window l p).testBit k =
    bit l (16 * (p / 16) + if k < 16 - p % 16 then 15 - k else 31 - k) := by
  rw [window, Nat.testBit_two_pow_mul_add _ (Nat.mod_lt _ (Nat.two_pow_pos _))]
  by_cases hlow : k < 16 - p % 16
  · rw [if_pos hlow, if_pos hlow, Nat.testBit_mod_two_pow, decide_eq_true hlow, Bool.true_and,
      ← testBit_words l _ (by omega : 15 - k < 16), show 15 - (15 - k) = k by omega]
  · have hword := testBit_words l (p / 16 + 1) (by omega : 15 - k < 16)
    rw [show 15 - (15 - k) = k by omega, show 16 * (p / 16 + 1) + (15 - k) = 16 * (p / 16) + (31 - k) by omega]
      at hword
    rw [if_neg hlow, if_neg hlow, Nat.testBit_div_two_pow,
      show k - (16 - p % 16) + (16 - p % 16) = k by omega, hword]

theorem word_lt (l : List UInt8) (i : ℕ) : (words l).getD i 0 < 2 ^ 16 :=
  Nat.lt_succ_of_le (getD_words_le l i)

theorem window_le (l : List UInt8) (p : ℕ) : window l p ≤ 65535 := by
  have hr : p % 16 < 16 := Nat.mod_lt _ (by decide)
  have hlow := Nat.mod_lt ((words l).getD (p / 16) 0) (Nat.two_pow_pos (16 - p % 16))
  have hhigh : (words l).getD (p / 16 + 1) 0 / 2 ^ (16 - p % 16) < 2 ^ (p % 16) := by
    rw [Nat.div_lt_iff_lt_mul (Nat.two_pow_pos _), ← Nat.pow_add, show p % 16 + (16 - p % 16) = 16 by omega]
    exact word_lt ..
  refine Nat.le_of_lt_succ ?_
  calc window l p
      < 2 ^ (16 - p % 16) * ((words l).getD (p / 16 + 1) 0 / 2 ^ (16 - p % 16)) + 2 ^ (16 - p % 16) := by
        rw [window]; omega
    _ = 2 ^ (16 - p % 16) * ((words l).getD (p / 16 + 1) 0 / 2 ^ (16 - p % 16) + 1) := by ring
    _ ≤ 2 ^ (16 - p % 16) * 2 ^ (p % 16) := Nat.mul_le_mul_left _ hhigh
    _ = 2 ^ 16 := by rw [← Nat.pow_add, show 16 - p % 16 + p % 16 = 16 by omega]

/-- Every bit in the window is a bit of its number. -/
theorem bit_eq_testBit_window {j : ℕ} (hp : p ≤ j) (hj : j < p + 16) :
    ∃ k < 16, ∀ l, bit l j = (window l p).testBit k := by
  by_cases hword : j / 16 = p / 16
  · refine ⟨15 - j % 16, by omega, fun l => ?_⟩
    rw [testBit_window l p (by omega), if_pos (by omega)]
    congr 1; omega
  · refine ⟨15 - j % 16, by omega, fun l => ?_⟩
    rw [testBit_window l p (by omega), if_neg (by omega)]
    congr 1; omega

theorem window_eq_of_testBit {n : ℕ} (hn : n < 2 ^ 16)
    (h : ∀ j, p ≤ j → j < p + 16 → ∀ k < 16, bit l j = n.testBit k) : window l p = n := by
  refine Nat.eq_of_testBit_eq fun k => ?_
  by_cases hk : k < 16
  · rw [testBit_window l p hk]
    refine h _ ?_ ?_ k hk
    · split <;> omega
    · split <;> omega
  · have hpow : 2 ^ 16 ≤ 2 ^ k := Nat.pow_le_pow_right (by decide) (by omega)
    rw [Nat.testBit_lt_two_pow (Nat.lt_of_lt_of_le (Nat.lt_succ_of_le (window_le l p)) hpow),
      Nat.testBit_lt_two_pow (Nat.lt_of_lt_of_le hn hpow)]

theorem window_eq_zero_iff : window l p = 0 ↔ ∀ j, p ≤ j → j < p + 16 → bit l j = false := by
  constructor
  · intro h j hp hj
    obtain ⟨k, -, hk⟩ := bit_eq_testBit_window hp hj
    rw [hk, h, Nat.zero_testBit]
  · intro h
    refine window_eq_of_testBit (by decide) fun j hp hj k _ => ?_
    rw [h j hp hj, Nat.zero_testBit]

theorem window_eq_ones_iff : window l p = 65535 ↔ ∀ j, p ≤ j → j < p + 16 → bit l j = true := by
  have hones : ∀ k < 16, (65535).testBit k = true := by
    intro k hk
    rw [show 65535 = 2 ^ 16 - 1 from rfl, Nat.testBit_two_pow_sub_one, decide_eq_true hk]
  constructor
  · intro h j hp hj
    obtain ⟨k, hlt, hk⟩ := bit_eq_testBit_window hp hj
    rw [hk, h, hones k hlt]
  · intro h
    refine window_eq_of_testBit (by decide) fun j hp hj k hk => ?_
    rw [h j hp hj, hones k hk]

theorem length_words (l : List UInt8) : (words l).length = (l.length + 1) / 2 := by
  induction l using words.induct with
  | case1 => rfl
  | case2 a => simp [words]
  | case3 a b l ih =>
    rw [words, List.length_cons, ih, List.length_cons, List.length_cons]; omega

theorem sum_congr_off {ws ws' : List ℕ} {i : ℕ} (hlen : ws.length = ws'.length)
    (h : ∀ m, m ≠ i → ws.getD m 0 = ws'.getD m 0) : ws.sum + ws'.getD i 0 = ws'.sum + ws.getD i 0 := by
  induction ws generalizing ws' i with
  | nil => simp [List.length_eq_zero_iff.1 hlen.symm]
  | cons w ws ih =>
    match ws', hlen with
    | w' :: ws', hlen =>
      have hlen' : ws.length = ws'.length := by simpa using hlen
      cases i with
      | zero =>
        have htail : ws = ws' := by
          refine List.ext_getElem hlen' fun m hm hm' => ?_
          have := h (m + 1) (by omega)
          rwa [List.getD_cons_succ, List.getD_cons_succ, List.getD_eq_getElem _ _ hm,
            List.getD_eq_getElem _ _ hm'] at this
        simp only [htail, List.sum_cons, List.getD_cons_zero]; omega
      | succ i =>
        have hhead : w = w' := h 0 (by omega)
        have := ih (i := i) hlen' fun m hm => h (m + 1) (by omega)
        simp only [hhead, List.sum_cons, List.getD_cons_succ]; omega

theorem sum_congr_off_two {ws ws' : List ℕ} {i : ℕ} (hlen : ws.length = ws'.length)
    (h : ∀ m, m ≠ i → m ≠ i + 1 → ws.getD m 0 = ws'.getD m 0) :
    ws.sum + (ws'.getD i 0 + ws'.getD (i + 1) 0) = ws'.sum + (ws.getD i 0 + ws.getD (i + 1) 0) := by
  -- through the list that has the first of the two words exchanged
  have hlen' : (ws.set i (ws'.getD i 0)).length = ws.length := List.length_set
  have hset : ∀ m, (ws.set i (ws'.getD i 0)).getD m 0 = if m = i then ws'.getD i 0 else ws.getD m 0 := by
    intro m
    rw [List.getD_eq_getElem?_getD, List.getElem?_set]
    by_cases hm : i = m
    · subst hm
      by_cases hlt : i < ws.length
      · simp [hlt]
      · rw [if_pos rfl, if_neg hlt, if_pos rfl, List.getD_eq_default _ _ (by omega)]; rfl
    · rw [if_neg hm, if_neg fun h => hm h.symm, List.getD_eq_getElem?_getD]
  have hfirst := sum_congr_off (i := i) hlen'.symm fun m hm => by rw [hset, if_neg hm]
  have hsecond := sum_congr_off (i := i + 1) (hlen'.trans hlen) fun m hm => by
    rw [hset]
    split
    · rename_i heq
      rw [heq]
    · rename_i hne
      exact h m hne hm
  rw [hset, if_pos rfl] at hfirst
  rw [hset, if_neg (by omega)] at hsecond
  omega

section
variable (h : ∀ j, ¬ (p ≤ j ∧ j < p + 16) → bit l j = bit l' j)
include h

theorem word_eq_of_bit_eq {m : ℕ} (hm : m ≠ p / 16) (hm' : m ≠ p / 16 + 1) :
    (words l).getD m 0 = (words l').getD m 0 := by
  refine Nat.eq_of_testBit_eq fun k => ?_
  by_cases hk : k < 16
  · have hbit := h (16 * m + (15 - k)) (by omega)
    rwa [← testBit_words l m (by omega), ← testBit_words l' m (by omega), show 15 - (15 - k) = k by omega] at hbit
  · have hpow : 2 ^ 16 ≤ 2 ^ k := Nat.pow_le_pow_right (by decide) (by omega)
    rw [Nat.testBit_lt_two_pow (Nat.lt_of_lt_of_le (word_lt l m) hpow),
      Nat.testBit_lt_two_pow (Nat.lt_of_lt_of_le (word_lt l' m) hpow)]

theorem high_eq_of_bit_eq : (words l).getD (p / 16) 0 / 2 ^ (16 - p % 16) =
    (words l').getD (p / 16) 0 / 2 ^ (16 - p % 16) := by
  refine Nat.eq_of_testBit_eq fun k => ?_
  rw [Nat.testBit_div_two_pow, Nat.testBit_div_two_pow]
  by_cases hk : k + (16 - p % 16) < 16
  · have hbit := h (16 * (p / 16) + (15 - (k + (16 - p % 16)))) (by omega)
    rwa [← testBit_words l _ (by omega), ← testBit_words l' _ (by omega),
      show 15 - (15 - (k + (16 - p % 16))) = k + (16 - p % 16) by omega] at hbit
  · have hpow : 2 ^ 16 ≤ 2 ^ (k + (16 - p % 16)) := Nat.pow_le_pow_right (by decide) (by omega)
    rw [Nat.testBit_lt_two_pow (Nat.lt_of_lt_of_le (word_lt l _) hpow),
      Nat.testBit_lt_two_pow (Nat.lt_of_lt_of_le (word_lt l' _) hpow)]

theorem low_eq_of_bit_eq : (words l).getD (p / 16 + 1) 0 % 2 ^ (16 - p % 16) =
    (words l').getD (p / 16 + 1) 0 % 2 ^ (16 - p % 16) := by
  refine Nat.eq_of_testBit_eq fun k => ?_
  rw [Nat.testBit_mod_two_pow, Nat.testBit_mod_two_pow]
  by_cases hk : k < 16 - p % 16
  · have hbit := h (16 * (p / 16 + 1) + (15 - k)) (by omega)
    rw [← testBit_words l _ (by omega), ← testBit_words l' _ (by omega), show 15 - (15 - k) = k by omega] at hbit
    rw [hbit]
  · rw [decide_eq_false hk, Bool.false_and, Bool.false_and]

theorem sum_words_window (hlen : l.length = l'.length) :
    (words l).sum + window l' p = (words l').sum + window l p := by
  have hwords : (words l).length = (words l').length := by rw [length_words, length_words, hlen]
  have hsum := sum_congr_off_two hwords fun m hm hm' => word_eq_of_bit_eq h hm hm'
  have hhigh := high_eq_of_bit_eq h
  have hlow := low_eq_of_bit_eq h
  have h1 := Nat.div_add_mod ((words l).getD (p / 16) 0) (2 ^ (16 - p % 16))
  have h2 := Nat.div_add_mod ((words l').getD (p / 16) 0) (2 ^ (16 - p % 16))
  have h3 := Nat.div_add_mod ((words l).getD (p / 16 + 1) 0) (2 ^ (16 - p % 16))
  have h4 := Nat.div_add_mod ((words l').getD (p / 16 + 1) 0) (2 ^ (16 - p % 16))
  rw [window, window]
  rw [hhigh] at h1
  rw [hlow] at h3
  omega

theorem eq_of_window_eq (hlen : l.length = l'.length) (hw : window l p = window l' p) : l = l' := by
  refine eq_of_bit_eq hlen fun j => ?_
  by_cases hj : p ≤ j ∧ j < p + 16
  · obtain ⟨k, -, hk⟩ := bit_eq_testBit_window hj.1 hj.2
    rw [hk, hk, hw]
  · exact h j hj

end

end OnesComplement

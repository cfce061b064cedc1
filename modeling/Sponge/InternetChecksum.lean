import Sponge.Lib.OnesComplement

/-!
# The Internet checksum (`libsponge/util/util.cc`)

The 32-bit sum wraps modulo `2^32`, which is no problem for a ones'-complement sum of 16-bit words only
because a segment's own checksum never makes it wrap: `2^32 - 1` is a multiple of `2^16 - 1`
(`add_complement_le`), so the sum with the checksum inserted stops at that multiple at the latest.
-/

namespace Sponge

open OnesComplement

structure InternetChecksum where
  sum : UInt32
  parity : Bool
deriving DecidableEq, Repr

namespace InternetChecksum

def init (initialSum : UInt32) : InternetChecksum := ⟨initialSum, false⟩

def addByte (c : InternetChecksum) (byte : UInt8) : InternetChecksum :=
  let val : UInt16 := byte.toUInt16
  let val := if !c.parity then val <<< 8 else val
  ⟨c.sum + val.toUInt32, !c.parity⟩

def add (c : InternetChecksum) (data : List UInt8) : InternetChecksum := data.foldl addByte c

theorem toNat_fold (ret : UInt32) :
    ((ret >>> 16) + (ret &&& 0xffff)).toNat = ret.toNat / 65536 + ret.toNat % 65536 := by
  have hret := ret.toNat_lt
  have hhigh : (ret >>> 16).toNat = ret.toNat / 65536 := by
    rw [UInt32.toNat_shiftRight]; exact Nat.shiftRight_eq_div_pow _ 16
  have hlow : (ret &&& 0xffff).toNat = ret.toNat % 65536 := by
    rw [UInt32.toNat_and]; exact Nat.and_two_pow_sub_one_eq_mod _ 16
  rw [UInt32.toNat_add, hhigh, hlow]
  exact Nat.mod_eq_of_lt (by omega)

/-- The loop of `value`. -/
def fold (ret : UInt32) : UInt32 :=
  if ret > 0xffff then fold ((ret >>> 16) + (ret &&& 0xffff)) else ret
termination_by ret.toNat
decreasing_by
  rename_i h
  have : 65535 < ret.toNat := UInt32.lt_iff_toNat_lt.1 h
  rw [toNat_fold]
  omega

def value (c : InternetChecksum) : UInt16 := (~~~ fold c.sum).toUInt16

theorem toNat_fold_eq_residue (ret : UInt32) : (fold ret).toNat = residue 65535 ret.toNat := by
  induction ret using fold.induct with
  | case1 ret hgt ih => rw [fold, if_pos hgt, ih, toNat_fold, residue_fold]
  | case2 ret hle =>
    have : ret.toNat ≤ 65535 := Nat.not_lt.1 fun h => hle (UInt32.lt_iff_toNat_lt.2 h)
    rw [fold, if_neg hle, residue_of_le this]

theorem toNat_value (c : InternetChecksum) : c.value.toNat = complement 65535 c.sum.toNat := by
  have hle : (fold c.sum).toNat ≤ 65535 := by rw [toNat_fold_eq_residue]; exact residue_le (by decide)
  rw [complement, ← toNat_fold_eq_residue, value, UInt32.toNat_toUInt16, UInt32.toNat_not]
  simp only [UInt32.size]
  omega

theorem value_eq_zero_iff (c : InternetChecksum) : c.value = 0 ↔ residue 65535 c.sum.toNat = 65535 := by
  have hle : residue 65535 c.sum.toNat ≤ 65535 := residue_le (by decide)
  rw [← UInt16.toNat_inj, toNat_value, complement, UInt16.toNat_zero]
  omega

theorem add_append (c : InternetChecksum) (l m : List UInt8) : c.add (l ++ m) = (c.add l).add m :=
  List.foldl_append

theorem toNat_sum_add (c : InternetChecksum) (data : List UInt8) :
    (c.add data).sum.toNat = (c.sum.toNat + wordSum c.parity data) % 2 ^ 32 := by
  induction data generalizing c with
  | nil => exact (Nat.mod_eq_of_lt c.sum.toNat_lt).symm
  | cons b data ih =>
    have hb := b.toNat_lt
    have hbyte : (c.addByte b).sum.toNat =
        (c.sum.toNat + if c.parity then b.toNat else b.toNat * 256) % 2 ^ 32 := by
      cases hp : c.parity <;> simp [addByte, hp, Nat.shiftLeft_eq]
      rw [Nat.mod_eq_of_lt (by omega : b.toNat * 256 < 65536)]
    show ((c.addByte b).add data).sum.toNat = _
    rw [ih, hbyte, Nat.mod_add_mod, Nat.add_assoc]
    rfl

section Reference

/-! The checksum against its definition in RFC 1071, over all the data at once. -/

theorem foldl_add (c : InternetChecksum) (chunks : List (List UInt8)) :
    chunks.foldl add c = c.add chunks.flatten := by
  induction chunks generalizing c with
  | nil => rfl
  | cons data chunks ih => rw [List.foldl_cons, ih, List.flatten_cons, add_append]

theorem toNat_sum_add_words (initialSum : UInt32) (data : List UInt8) :
    ((init initialSum).add data).sum.toNat = (initialSum.toNat + (words data).sum) % 2 ^ 32 := by
  rw [toNat_sum_add, ← wordSum_eq_sum_words]
  rfl

/-- One pass of the loop of `value`. -/
def foldStep (ret : UInt32) : UInt32 := (ret >>> 16) + (ret &&& 0xffff)

theorem fold_eq_iterate (ret : UInt32) :
    ∃ k, fold ret = foldStep^[k] ret ∧ foldStep^[k] ret ≤ 0xffff ∧ ∀ j < k, foldStep^[j] ret > 0xffff := by
  induction ret using fold.induct with
  | case1 ret hgt ih =>
    obtain ⟨k, hfold, hle, hlt⟩ := ih
    refine ⟨k + 1, by rw [fold, if_pos hgt, hfold]; rfl, hle, fun j hj => ?_⟩
    cases j with
    | zero => exact hgt
    | succ j => exact hlt j (Nat.lt_of_succ_lt_succ hj)
  | case2 ret hle => exact ⟨0, by rw [fold, if_neg hle]; rfl, UInt32.not_lt.1 hle, fun j hj => absurd hj j.not_lt_zero⟩

/-- The complement of the ones'-complement sum of 16-bit words. -/
def rfc1071 (ws : List ℕ) : ℕ := 0xffff - ws.foldl (endAroundAdd 0xffff) 0

theorem rfc1071_eq_complement {ws : List ℕ} (hws : ∀ w ∈ ws, w ≤ 0xffff) :
    rfc1071 ws = complement 65535 ws.sum := by
  rw [rfc1071, complement, ← Nat.zero_add ws.sum, ← foldl_endAroundAdd (by decide) hws]
  rfl

/-- The sum of all 16-bit words, without a bound. -/
def total (initialSum : UInt32) (data : List UInt8) : ℕ := initialSum.toNat + (words data).sum

/-- Whatever the chunks, `value` is the complement of the residue of the 32-bit sum; while the sum does
not wrap, that is the checksum of RFC 1071, where `initialSum` stands for any words with that sum. -/
theorem value_eq_reference (initialSum : UInt32) (chunks : List (List UInt8)) :
    (chunks.foldl add (init initialSum)).value = ((init initialSum).add chunks.flatten).value ∧
    (∃ f, (chunks.foldl add (init initialSum)).value.toNat = 0xffff - f ∧
      (total initialSum chunks.flatten % 2 ^ 32 = 0 → f = 0) ∧
      (total initialSum chunks.flatten % 2 ^ 32 ≠ 0 →
        ∀ g, (0 < g ∧ g ≤ 65535 ∧ g ≡ total initialSum chunks.flatten % 2 ^ 32 [MOD 65535]) ↔ g = f)) ∧
    (total initialSum chunks.flatten < 2 ^ 32 →
      ∀ ws : List ℕ, (∀ w ∈ ws, w ≤ 0xffff) → ws.sum = initialSum.toNat →
        (chunks.foldl add (init initialSum)).value.toNat = rfc1071 (ws ++ words chunks.flatten)) ∧
    ∀ ret : UInt32, ∃ k, fold ret = foldStep^[k] ret ∧ foldStep^[k] ret ≤ 0xffff ∧
      ∀ j < k, foldStep^[j] ret > 0xffff := by
  have hv : (chunks.foldl add (init initialSum)).value = ((init initialSum).add chunks.flatten).value :=
    congrArg value (foldl_add ..)
  have hvalue : (chunks.foldl add (init initialSum)).value.toNat =
      complement 65535 (total initialSum chunks.flatten % 2 ^ 32) := by
    rw [hv, toNat_value, toNat_sum_add_words, total]
  refine ⟨hv, ⟨_, hvalue, residue_eq_zero_iff.2, fun hS g => ?_⟩, ?_, fold_eq_iterate⟩
  · exact residue_unique (by decide) hS
  · intro hT ws hws hsum
    rw [rfc1071_eq_complement (List.forall_mem_append.2 ⟨hws, words_le _⟩), List.sum_append, hsum, hvalue]
    exact congrArg _ (Nat.mod_eq_of_lt hT)

end Reference

/-- A change of one word, other than between the two zeros, changes a checksum that is `0`. The sum
with the checksum right is a positive multiple of `65535`, so it stays above the word taken out of it;
and if it wraps with the new word, it is too small to be one again. -/
theorem value_ne_zero_of_word_changed {ck : UInt32} {b b' : List UInt8} {i : ℕ}
    (hvalue : ((init ck).add b).value = 0) (hlen : b'.length = b.length) (hne : b' ≠ b)
    (hword : ∀ j, j / 2 ≠ i → b'[j]? = b[j]?)
    (hzero : ¬ ((words b).getD i 0 = 0 ∧ (words b').getD i 0 = 0xffff))
    (hzero' : ¬ ((words b).getD i 0 = 0xffff ∧ (words b').getD i 0 = 0)) :
    ((init ck).add b').value ≠ 0 := by
  obtain ⟨hsum, heq⟩ := sum_words_congr hlen hword
  have hw : (words b').getD i 0 ≠ (words b).getD i 0 := fun h => hne (heq h)
  have hle := getD_words_le b i
  have hle' := getD_words_le b' i
  rw [value_eq_zero_iff, residue_eq_modulus_iff (by decide), toNat_sum_add_words] at hvalue
  rw [Ne, value_eq_zero_iff, residue_eq_modulus_iff (by decide), toNat_sum_add_words]
  generalize (words b).getD i 0 = w at *
  generalize (words b').getD i 0 = w' at *
  obtain ⟨hpos, q, hq⟩ := hvalue
  rintro ⟨hpos', q', hq'⟩
  have hshift : (ck.toNat + (words b').sum) % 2 ^ 32 = (65535 * q - w + w') % 2 ^ 32 := by omega
  rw [hshift] at hpos' hq'
  by_cases hwrap : 65535 * q - w + w' < 2 ^ 32
  · rw [Nat.mod_eq_of_lt hwrap] at hq'
    omega
  · have hlt : 65535 * q < 2 ^ 32 := by rw [← hq]; exact Nat.mod_lt _ (by decide)
    rw [Nat.mod_eq_sub_mod (Nat.le_of_not_lt hwrap), Nat.mod_eq_of_lt (by omega)] at hq' hpos'
    omega

section Insert

/-! A checksum field among other data: `pre` comes before it and has even length, `suf` after it. -/

variable {pre suf : List UInt8} (hpre : pre.length.bodd = false) (ck : UInt32)
include hpre

theorem toNat_sum_insert (x : UInt16) :
    ((init ck).add (pre ++ BigEndian.bytes 2 x.toNat ++ suf)).sum.toNat =
      (((init ck).add (pre ++ BigEndian.bytes 2 0 ++ suf)).sum.toNat + x.toNat) % 2 ^ 32 := by
  have hwords (y : ℕ) : wordSum false (pre ++ BigEndian.bytes 2 y ++ suf) =
      wordSum false pre + y % 2 ^ 16 + wordSum false suf := by
    have hbodd : (pre ++ BigEndian.bytes 2 y).length.bodd = false := by simp [hpre]
    rw [wordSum_append, hbodd, wordSum_append, hpre, Bool.xor_false,
      wordSum_two (BigEndian.length_bytes 2 y), BigEndian.value_bytes]
    rfl
  have hx := x.toNat_lt
  rw [toNat_sum_add, toNat_sum_add]
  simp only [init, hwords]
  omega

/-- The checksum of the data with an empty field, inserted, makes the checksum of the data `0`. -/
theorem value_insert_eq_zero {x : UInt16}
    (hx : x = ((init ck).add (pre ++ BigEndian.bytes 2 0 ++ suf)).value) :
    ((init ck).add (pre ++ BigEndian.bytes 2 x.toNat ++ suf)).value = 0 := by
  rw [value_eq_zero_iff, toNat_sum_insert hpre, hx, toNat_value]
  generalize ((init ck).add (pre ++ BigEndian.bytes 2 0 ++ suf)).sum = s
  have hs := s.toNat_lt
  -- the sum is not above the multiple `2^32 - 1` of `65535`, and so stays there with the complement added
  have hle : s.toNat + complement 65535 s.toNat ≤ 65535 * 65537 :=
    add_complement_le (by decide) (by decide) (by omega)
  rw [Nat.mod_eq_of_lt (by omega)]
  exact residue_add_complement (by decide) _

/-- A field that makes the checksum of the data `0` is the checksum of the data without it, but for
the two zeros. -/
theorem value_eq_or_of_insert_eq_zero {x : UInt16}
    (hx : ((init ck).add (pre ++ BigEndian.bytes 2 x.toNat ++ suf)).value = 0) :
    ((init ck).add (pre ++ BigEndian.bytes 2 0 ++ suf)).value = x ∨
      x = 0xffff ∧ ((init ck).add (pre ++ BigEndian.bytes 2 0 ++ suf)).value = 0 := by
  rw [value_eq_zero_iff, toNat_sum_insert hpre] at hx
  rw [← UInt16.toNat_inj, ← UInt16.toNat_inj, ← UInt16.toNat_inj, toNat_value]
  generalize ((init ck).add (pre ++ BigEndian.bytes 2 0 ++ suf)).sum = s at hx ⊢
  have hs := s.toNat_lt
  have hlt := x.toNat_lt
  by_cases hwrap : s.toNat + x.toNat < 2 ^ 32
  · rw [Nat.mod_eq_of_lt hwrap] at hx
    exact complement_eq_or (by decide) (by omega) hx
  · -- a sum that wraps is below `x`, and then too small for the residue `65535`
    rw [residue_of_le (by omega)] at hx
    omega

end Insert

end InternetChecksum
end Sponge

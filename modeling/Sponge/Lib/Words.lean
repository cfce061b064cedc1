import Mathlib.Data.UInt

/-!
# Machine words

What the comparisons, `min`, `max` and increments of 64-bit words mean on `toNat`, in the form `omega`
uses. A fact about single bytes is checked byte by byte (`forall_byte`).
-/

namespace Words

variable {a b : UInt64}

theorem toNat_add_one_of_lt (h : a < b) : (a + 1).toNat = a.toNat + 1 := by
  have hb := b.toNat_lt
  have hab := UInt64.lt_iff_toNat_lt.1 h
  rw [UInt64.toNat_add]
  exact Nat.mod_eq_of_lt (by simp only [UInt64.reduceToNat]; omega)

theorem le_add_one_of_lt (h : a < b) : a ≤ a + 1 := by
  rw [UInt64.le_iff_toNat_le, toNat_add_one_of_lt h]
  exact Nat.le_succ _

theorem toNat_max (a b : UInt64) : (max a b).toNat = max a.toNat b.toNat := by
  show (if a ≤ b then b else a).toNat = _
  split <;> rename_i h <;> rw [UInt64.le_iff_toNat_le] at h <;> omega

theorem toNat_min (a b : UInt64) : (min a b).toNat = min a.toNat b.toNat := by
  show (if a ≤ b then a else b).toNat = _
  split <;> rename_i h <;> rw [UInt64.le_iff_toNat_le] at h <;> omega

theorem toNat_ofNat_of_lt {n : ℕ} (h : n < 2 ^ 64) : (UInt64.ofNat n).toNat = n :=
  UInt64.toNat_ofNat_of_lt' h

theorem forall_byte {P : UInt8 → Prop} (hP : ∀ n < 256, P (UInt8.ofNat n)) (b : UInt8) : P b := by
  have := hP b.toNat b.toNat_lt
  rwa [UInt8.ofNat_toNat] at this

end Words

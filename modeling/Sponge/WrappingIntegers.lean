import Mathlib.Algebra.Order.Ring.Int
import Sponge.Lib.Words

/-!
# Wrapping sequence numbers (`libsponge/wrapping_integers.cc`)

`wrap` keeps the low 32 bits of an absolute sequence number relative to the initial one; `unwrap` puts
back the high ones, trying the block of the checkpoint and its two neighbours. The candidates lie less
than `2^33` from the checkpoint, so the 64-bit differences and the signed `abs` never distort a
comparison (`toInt_distance`), and `unwrap` is a plain case split on where the first candidate lies
relative to the checkpoint (`toNat_unwrap`). Only the sum `candidate + 2^32` can wrap.
-/

namespace Sponge

structure WrappingInt32 where
  rawValue : UInt32
deriving DecidableEq, Repr

namespace WrappingInt32

def sub (a b : WrappingInt32) : Int32 := (a.rawValue - b.rawValue).toInt32

def add (a : WrappingInt32) (b : UInt32) : WrappingInt32 := ⟨a.rawValue + b⟩

end WrappingInt32

def wrap (n : UInt64) (isn : WrappingInt32) : WrappingInt32 := isn.add n.toUInt32

/-- `abs(static_cast<int64_t>(a - b))`. -/
def distance (a b : UInt64) : Int64 := (a - b).toInt64.abs

def blockSize : UInt64 := (1 : UInt64) <<< (32 : UInt64)

/-- The candidate closest to the checkpoint among `candidate` and, a block away, `cand2` and `cand3`. -/
def nearest (candidate checkpoint : UInt64) : UInt64 :=
  let best :=
    if candidate ≥ blockSize then
      let cand2 := candidate - blockSize
      if distance cand2 checkpoint < distance candidate checkpoint then cand2 else candidate
    else candidate
  let cand3 := candidate + blockSize
  if distance cand3 checkpoint < distance best checkpoint then cand3 else best

def unwrap (n isn : WrappingInt32) (checkpoint : UInt64) : UInt64 :=
  let offset : UInt32 := (n.sub isn).toUInt32
  let base := checkpoint &&& 0xFFFFFFFF00000000
  nearest (base + offset.toUInt64) checkpoint

def WrappingInt32.offset (n isn : WrappingInt32) : ℕ := (n.rawValue - isn.rawValue).toNat

theorem WrappingInt32.offset_lt (n isn : WrappingInt32) : n.offset isn < 2 ^ 32 := UInt32.toNat_lt _

theorem wrap_eq_iff {r : UInt64} {n isn : WrappingInt32} :
    wrap r isn = n ↔ r.toNat % 2 ^ 32 = n.offset isn := by
  obtain ⟨n⟩ := n
  obtain ⟨isn⟩ := isn
  have hn := n.toNat_lt
  have hisn := isn.toNat_lt
  simp only [wrap, WrappingInt32.add, WrappingInt32.mk.injEq, WrappingInt32.offset, ← UInt32.toNat_inj,
    UInt32.toNat_add, UInt32.toNat_sub, UInt64.toNat_toUInt32]
  omega

theorem toInt_distance {a b : UInt64} {d : ℤ} (h : ((a.toNat : ℤ) - b.toNat - d) % 2 ^ 64 = 0)
    (hd : d.natAbs < 2 ^ 63) : (distance a b).toInt = d.natAbs := by
  have hsub : (a - b).toBitVec.toInt = d := by
    have ha := a.toNat_lt
    have hb := b.toNat_lt
    rw [BitVec.toInt_eq_toNat_bmod]
    show Int.bmod ((a - b).toNat : ℤ) (2 ^ 64) = d
    rw [UInt64.toNat_sub, Int.bmod_def]
    split <;> omega
  have hne : (a - b).toBitVec ≠ BitVec.intMin 64 := by
    intro hmin
    have hint : (BitVec.intMin 64).toInt = -2 ^ 63 := by decide
    rw [hmin, hint] at hsub
    omega
  show (a - b).toBitVec.abs.toInt = d.natAbs
  rw [BitVec.toInt_abs_eq_natAbs_of_ne_intMin hne, hsub]

theorem toNat_and_high (x : UInt64) : (x &&& 0xFFFFFFFF00000000).toNat = x.toNat / 2 ^ 32 * 2 ^ 32 := by
  have hx := x.toNat_lt
  have hmask : (0xFFFFFFFF00000000 : UInt64).toNat = (2 ^ 32 - 1) <<< 32 := by decide
  rw [UInt64.toNat_and, hmask, ← Nat.shiftLeft_eq, ← Nat.shiftRight_eq_div_pow]
  refine Nat.eq_of_testBit_eq fun i => ?_
  simp only [Nat.testBit_and, Nat.testBit_shiftLeft, Nat.testBit_shiftRight, Nat.testBit_two_pow_sub_one]
  by_cases hi : 32 ≤ i
  · by_cases hi' : i < 64
    · simp [hi, show i - 32 < 32 by omega]
    · have : x.toNat.testBit i = false :=
        Nat.testBit_lt_two_pow (Nat.lt_of_lt_of_le hx (Nat.pow_le_pow_right (by decide) (by omega)))
      simp [hi, this]
  · simp [hi]

theorem toNat_blockSize : blockSize.toNat = 2 ^ 32 := by decide

/-- The choice between the three candidates on natural numbers: the first one is taken if it is at most
`2^31` from the checkpoint, else the one a block lower or higher; below the first block there is none. -/
theorem toNat_nearest {cand checkpoint : UInt64} (hblock : cand.toNat / 2 ^ 32 = checkpoint.toNat / 2 ^ 32) :
    (nearest cand checkpoint).toNat =
      if 2 ^ 32 ≤ cand.toNat ∧ checkpoint.toNat + 2 ^ 31 < cand.toNat then cand.toNat - 2 ^ 32
      else if cand.toNat + 2 ^ 31 < checkpoint.toNat then (cand.toNat + 2 ^ 32) % 2 ^ 64
      else cand.toNat := by
  have hge : cand ≥ blockSize ↔ 2 ^ 32 ≤ cand.toNat := by
    rw [ge_iff_le, UInt64.le_iff_toNat_le, toNat_blockSize]
  have hlow (h : 2 ^ 32 ≤ cand.toNat) : (cand - blockSize).toNat = cand.toNat - 2 ^ 32 := by
    have := cand.toNat_lt
    rw [UInt64.toNat_sub, toNat_blockSize]; omega
  have hhigh : (cand + blockSize).toNat = (cand.toNat + 2 ^ 32) % 2 ^ 64 := by
    rw [UInt64.toNat_add, toNat_blockSize]
  have hd : (distance cand checkpoint).toInt = ((cand.toNat : ℤ) - checkpoint.toNat).natAbs :=
    toInt_distance (by omega) (by omega)
  have hd2 (h : 2 ^ 32 ≤ cand.toNat) : (distance (cand - blockSize) checkpoint).toInt =
      ((cand.toNat : ℤ) - 2 ^ 32 - checkpoint.toNat).natAbs :=
    toInt_distance (by rw [hlow h]; omega) (by omega)
  have hd3 : (distance (cand + blockSize) checkpoint).toInt =
      ((cand.toNat : ℤ) + 2 ^ 32 - checkpoint.toNat).natAbs :=
    toInt_distance (by rw [hhigh]; omega) (by omega)
  unfold nearest
  by_cases hfar : 2 ^ 32 ≤ cand.toNat ∧ checkpoint.toNat + 2 ^ 31 < cand.toNat
  · have h2 : distance (cand - blockSize) checkpoint < distance cand checkpoint := by
      rw [Int64.lt_iff_toInt_lt, hd2 hfar.1, hd]; omega
    have h3 : ¬ distance (cand + blockSize) checkpoint < distance (cand - blockSize) checkpoint := by
      rw [Int64.lt_iff_toInt_lt, hd2 hfar.1, hd3]; omega
    simp only [if_pos (hge.2 hfar.1), if_pos h2, if_neg h3]
    rw [if_pos hfar, hlow hfar.1]
  · have h2 (h : 2 ^ 32 ≤ cand.toNat) :
        ¬ distance (cand - blockSize) checkpoint < distance cand checkpoint := by
      rw [Int64.lt_iff_toInt_lt, hd2 h, hd]; omega
    have hbest : (if cand ≥ blockSize then
        if distance (cand - blockSize) checkpoint < distance cand checkpoint then cand - blockSize else cand
        else cand) = cand :=
      ite_eq_right_iff.2 fun h => if_neg (h2 (hge.1 h))
    have h3 : distance (cand + blockSize) checkpoint < distance cand checkpoint ↔
        cand.toNat + 2 ^ 31 < checkpoint.toNat := by
      rw [Int64.lt_iff_toInt_lt, hd3, hd]; omega
    simp only [hbest]
    rw [if_neg hfar]
    by_cases hfar' : cand.toNat + 2 ^ 31 < checkpoint.toNat
    · rw [if_pos (h3.2 hfar'), if_pos hfar', hhigh]
    · rw [if_neg fun h => hfar' (h3.1 h), if_neg hfar']

theorem toNat_unwrap (n isn : WrappingInt32) (checkpoint : UInt64) :
    let cand := checkpoint.toNat / 2 ^ 32 * 2 ^ 32 + n.offset isn
    (unwrap n isn checkpoint).toNat =
      if 2 ^ 32 ≤ cand ∧ checkpoint.toNat + 2 ^ 31 < cand then cand - 2 ^ 32
      else if cand + 2 ^ 31 < checkpoint.toNat then (cand + 2 ^ 32) % 2 ^ 64
      else cand := by
  intro cand
  have hcp := checkpoint.toNat_lt
  have hoff := n.offset_lt isn
  have hcand : ((checkpoint &&& 0xFFFFFFFF00000000) + ((n.sub isn).toUInt32).toUInt64).toNat = cand := by
    rw [UInt64.toNat_add, toNat_and_high, UInt32.toNat_toUInt64, WrappingInt32.sub, UInt32.toUInt32_toInt32]
    exact Nat.mod_eq_of_lt (by simp only [WrappingInt32.offset] at hoff; omega)
  rw [unwrap, toNat_nearest (by rw [hcand]; omega), hcand]

/-- Round trip within half a block, over all of `uint64_t`. -/
theorem unwrap_wrap (n checkpoint : UInt64) (isn : WrappingInt32)
    (h : |(n.toNat : ℤ) - checkpoint.toNat| < 2 ^ 31) : unwrap (wrap n isn) isn checkpoint = n := by
  have hn := n.toNat_lt
  have hcp := checkpoint.toNat_lt
  have hoff : (wrap n isn).offset isn = n.toNat % 2 ^ 32 := (wrap_eq_iff.1 rfl).symm
  rw [Int.abs_eq_natAbs] at h
  rw [← UInt64.toNat_inj, toNat_unwrap, hoff]
  split
  · omega
  · split <;> omega

theorem unwrap_wrap_max :
    unwrap (wrap 18446744073709551610 ⟨7⟩) ⟨7⟩ 18446744073709551615 = 18446744073709551610 :=
  unwrap_wrap _ _ _ (by decide)

theorem wrap_unwrap (n isn : WrappingInt32) (checkpoint : UInt64) : wrap (unwrap n isn checkpoint) isn = n := by
  have hoff := n.offset_lt isn
  rw [wrap_eq_iff, toNat_unwrap]
  split
  · omega
  · split <;> omega

/-- No preimage is closer than the result, unless the candidate a block higher is taken and has wrapped. -/
theorem not_closer_of_no_wrap {n isn : WrappingInt32} {checkpoint : UInt64}
    (hno : checkpoint.toNat / 2 ^ 32 * 2 ^ 32 + n.offset isn + 2 ^ 31 < checkpoint.toNat →
      checkpoint.toNat < 2 ^ 64 - 2 ^ 32)
    {r : UInt64} (hr : wrap r isn = n) :
    ¬ |(r.toNat : ℤ) - checkpoint.toNat| < |((unwrap n isn checkpoint).toNat : ℤ) - checkpoint.toNat| := by
  have hlt := r.toNat_lt
  have hoff := n.offset_lt isn
  rw [wrap_eq_iff] at hr
  rw [Int.abs_eq_natAbs, Int.abs_eq_natAbs, toNat_unwrap]
  split
  · omega
  · split <;> omega

/-- Below the last block the result is a preimage of `n`, and none is closer to the checkpoint. -/
theorem unwrap_closest (n isn : WrappingInt32) (checkpoint : UInt64) (h : checkpoint.toNat < 2 ^ 64 - 2 ^ 32) :
    wrap (unwrap n isn checkpoint) isn = n ∧
    ∀ r : UInt64, wrap r isn = n →
      ¬ |(r.toNat : ℤ) - checkpoint.toNat| < |((unwrap n isn checkpoint).toNat : ℤ) - checkpoint.toNat| :=
  ⟨wrap_unwrap n isn checkpoint, fun _ hr => not_closer_of_no_wrap (fun _ => h) hr⟩

theorem unwrap_closest_near_zero :
    wrap (unwrap ⟨4294967295⟩ ⟨0⟩ 5) ⟨0⟩ = ⟨4294967295⟩ ∧
    ¬ |((8589934591 : UInt64).toNat : ℤ) - (5 : UInt64).toNat| <
      |((unwrap ⟨4294967295⟩ ⟨0⟩ 5).toNat : ℤ) - (5 : UInt64).toNat| :=
  ⟨(unwrap_closest _ _ _ (by decide)).1, (unwrap_closest _ _ _ (by decide)).2 8589934591 (by decide)⟩

/-- In the last block the sum `candidate + 2^32` wraps to a number below `2^32`, whose modular difference to
the checkpoint is as small as that of the sum. It is taken exactly when the offset lies more than half a
block below the checkpoint. -/
theorem unwrap_closest_at_top_iff (n isn : WrappingInt32) (checkpoint : UInt64)
    (h : 2 ^ 64 - 2 ^ 32 ≤ checkpoint.toNat) :
    (wrap (unwrap n isn checkpoint) isn = n ∧
      (∀ r : UInt64, wrap r isn = n →
        ¬ |(r.toNat : ℤ) - checkpoint.toNat| < |((unwrap n isn checkpoint).toNat : ℤ) - checkpoint.toNat|) ∧
      checkpoint.toNat ≤ (unwrap n isn checkpoint).toNat + 2 ^ 32) ↔
    checkpoint.toNat % 2 ^ 32 ≤ n.offset isn + 2 ^ 31 := by
  have hcp := checkpoint.toNat_lt
  have hoff := n.offset_lt isn
  have hun := toNat_unwrap n isn checkpoint
  constructor
  · rintro ⟨-, -, hbelow⟩
    rw [hun] at hbelow
    split at hbelow
    · omega
    · split at hbelow <;> omega
  · intro hcond
    refine ⟨wrap_unwrap n isn checkpoint, fun r hr => not_closer_of_no_wrap (fun hfar => ?_) hr, ?_⟩
    · omega
    · rw [hun]
      split
      · omega
      · split <;> omega

theorem unwrap_closest_at_top_max :
    wrap (unwrap ⟨5⟩ ⟨7⟩ 18446744073709551615) ⟨7⟩ = ⟨5⟩ ∧
    (18446744073709551615 : UInt64).toNat ≤ (unwrap ⟨5⟩ ⟨7⟩ 18446744073709551615).toNat + 2 ^ 32 := by
  obtain ⟨hwrap, -, hbelow⟩ := (unwrap_closest_at_top_iff ⟨5⟩ ⟨7⟩ 18446744073709551615 (by decide)).2 (by decide)
  exact ⟨hwrap, hbelow⟩

/-- The number `2^64 - 2^32` wraps to `n` and lies within a block of the checkpoint, but `0` is returned. -/
theorem unwrap_wraps_past_top :
    unwrap ⟨0⟩ ⟨0⟩ 18446744073709551615 = 0 ∧
    ¬ (wrap (unwrap ⟨0⟩ ⟨0⟩ 18446744073709551615) ⟨0⟩ = ⟨0⟩ ∧
      (∀ r : UInt64, wrap r ⟨0⟩ = ⟨0⟩ →
        ¬ |(r.toNat : ℤ) - (18446744073709551615 : UInt64).toNat| <
          |((unwrap ⟨0⟩ ⟨0⟩ 18446744073709551615).toNat : ℤ) - (18446744073709551615 : UInt64).toNat|) ∧
      (18446744073709551615 : UInt64).toNat ≤ (unwrap ⟨0⟩ ⟨0⟩ 18446744073709551615).toNat + 2 ^ 32) := by
  refine ⟨by decide, ?_⟩
  rintro ⟨-, hclosest, -⟩
  exact hclosest 18446744069414584320 (by decide) (by decide)

end Sponge

import Mathlib.Data.Set.Card
import Mathlib.Order.CompletePartialOrder
import Mathlib.Order.Interval.Set.Nat

/-!
# A set of natural numbers split at its first gap

`SplitAt A w K`: the set `A` is everything below `w` and, strictly above `w`, the set `K`. So `w` is
the least number missing from `A`, and what `A` has above it is counted by `K`.
-/

structure SplitAt (A : Set ℕ) (w : ℕ) (K : Set ℕ) : Prop where
  eq_union : A = Set.Iio w ∪ K
  above : ∀ k ∈ K, w < k

namespace SplitAt

variable {A K : Set ℕ} {w : ℕ}

theorem isLeast (h : SplitAt A w K) : IsLeast Aᶜ w := by
  rw [h.eq_union]
  constructor
  · rintro (hw | hw)
    · exact Nat.lt_irrefl w hw
    · exact Nat.lt_irrefl w (h.above w hw)
  · exact fun i hi => Nat.le_of_not_lt fun hlt => hi (.inl hlt)

theorem inter_Ioi (h : SplitAt A w K) : A ∩ Set.Ioi w = K := by
  rw [h.eq_union]
  ext i
  constructor
  · rintro ⟨hi | hi, hw⟩
    · exact absurd hw (Nat.lt_asymm hi)
    · exact hi
  · exact fun hi => ⟨.inr hi, h.above i hi⟩

/-- The set determines where it splits and what lies after the gap. -/
theorem unique {w' : ℕ} {K' : Set ℕ} (h : SplitAt A w K) (h' : SplitAt A w' K') : w = w' ∧ K = K' := by
  obtain rfl := h.isLeast.unique h'.isLeast
  exact ⟨rfl, h.inter_Ioi.symm.trans h'.inter_Ioi⟩

/-- The gap moves up as the set grows, and moves when it is filled. -/
theorem le_of_subset {A' K' : Set ℕ} {w' : ℕ} (h : SplitAt A w K) (h' : SplitAt A' w' K') (hsub : A ⊆ A') :
    w ≤ w' :=
  h.isLeast.2 fun hw' => h'.isLeast.1 (hsub hw')

theorem lt_of_mem {A' K' : Set ℕ} {w' : ℕ} (h : SplitAt A w K) (h' : SplitAt A' w' K') (hsub : A ⊆ A')
    (hw : w ∈ A') : w < w' := by
  refine Nat.lt_of_le_of_ne (h.le_of_subset h' hsub) fun heq => h'.isLeast.1 ?_
  rwa [← heq]

theorem disjoint (h : SplitAt A w K) : Disjoint (Set.Iio w) K :=
  Set.disjoint_left.2 fun i hi hK => Nat.lt_asymm hi (h.above i hK)

theorem ncard_eq (h : SplitAt A w K) (hK : K.Finite) : A.ncard = w + K.ncard := by
  rw [h.eq_union, Set.ncard_union_eq h.disjoint (Set.finite_Iio w) hK, Set.ncard_Iio_nat]

theorem eq_Iio_iff (h : SplitAt A w K) : A = Set.Iio w ↔ K = ∅ := by
  rw [h.eq_union, Set.union_eq_left]
  refine ⟨fun hK => Set.eq_empty_of_forall_notMem fun k hk => ?_, fun hK => by simp [hK]⟩
  exact Nat.lt_asymm (hK hk) (h.above k hk)

end SplitAt

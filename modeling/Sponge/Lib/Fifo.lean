import Mathlib.Data.List.Basic

/-!
# A bounded queue that remembers its history

`Fifo α` keeps everything it ever accepted and how much of that has been taken out; what is left in
the queue is the rest. The two fields that bound `taken` say that nothing is taken before it was
accepted and that the queue never holds more than its capacity. `put` accepts as much of its argument
as fits, and nothing once the queue is closed.
-/

universe u

structure Fifo (α : Type u) where
  capacity : ℕ
  /-- Everything accepted so far. -/
  accepted : List α
  /-- How much of `accepted` has been taken out. -/
  taken : ℕ
  closed : Bool
  taken_le : taken ≤ accepted.length
  bounded : accepted.length ≤ taken + capacity

namespace Fifo

variable {α : Type u} (q : Fifo α)

def empty (capacity : ℕ) : Fifo α := ⟨capacity, [], 0, false, Nat.le_refl 0, Nat.zero_le _⟩

def contents : List α := q.accepted.drop q.taken

def removed : List α := q.accepted.take q.taken

/-- How many elements of `data` the queue accepts. -/
def fits (data : List α) : ℕ :=
  if q.closed then 0 else min data.length (q.capacity - q.contents.length)

theorem removed_append_contents : q.removed ++ q.contents = q.accepted := List.take_append_drop ..

theorem length_contents : q.contents.length = q.accepted.length - q.taken := List.length_drop

theorem length_contents_le : q.contents.length ≤ q.capacity := by
  have := q.bounded
  rw [length_contents]; omega

theorem fits_le (data : List α) : q.fits data ≤ q.capacity - q.contents.length := by
  unfold fits; split <;> omega

def put (data : List α) : Fifo α where
  capacity := q.capacity
  accepted := q.accepted ++ data.take (q.fits data)
  taken := q.taken
  closed := q.closed
  taken_le := by
    have := q.taken_le
    rw [List.length_append]; omega
  bounded := by
    have h1 := q.bounded
    have h2 := q.taken_le
    have h3 := q.fits_le data
    rw [length_contents] at h3
    rw [List.length_append, List.length_take]; omega

def take (n : ℕ) : Fifo α where
  capacity := q.capacity
  accepted := q.accepted
  taken := q.taken + min n q.contents.length
  closed := q.closed
  taken_le := by
    have := q.taken_le
    rw [length_contents]; omega
  bounded := by
    have := q.bounded
    omega

def close : Fifo α := { q with closed := true }

theorem contents_put (data : List α) :
    (q.put data).contents = q.contents ++ data.take (q.fits data) :=
  List.drop_append_of_le_length q.taken_le

theorem contents_take (n : ℕ) : (q.take n).contents = q.contents.drop n := by
  show q.accepted.drop (q.taken + min n q.contents.length) = q.contents.drop n
  rw [← List.drop_drop]
  rcases Nat.le_total n q.contents.length with h | h
  · rw [Nat.min_eq_left h]; rfl
  · rw [Nat.min_eq_right h, List.drop_eq_nil_of_le h]
    exact List.drop_eq_nil_of_le (Nat.le_refl q.contents.length)

theorem removed_take (n : ℕ) : (q.take n).removed = q.removed ++ q.contents.take n := by
  show q.accepted.take (q.taken + min n q.contents.length) = q.removed ++ q.contents.take n
  rw [List.take_add, List.take_eq_take_min (i := n)]
  rfl

end Fifo

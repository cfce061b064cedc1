import Mathlib.Algebra.BigOperators.Group.List.Basic
import Mathlib.Algebra.Order.Ring.Nat
import Mathlib.Data.List.Basic

/-!
# A string in chunks

A queue of chunks stands for the concatenation of what its chunks show. `dropFront` is the loop that
discards a number of elements at the front: it pops chunks that are used up and cuts the last one. On the
string it is `List.drop`, wherever the chunks begin and end and however many of them are empty, and it fails
exactly when the string is too short.
-/

universe u v w

namespace Chunks

variable {α : Type u} {β : Type v} {ε : Type w}

/-- `while (n > 0)`: fail on an empty queue, cut a front chunk that is longer than `n`, pop any other. The
queue is returned as the loop leaves it, also when it fails. -/
def dropFront (size : α → ℕ) (cut : α → ℕ → Except ε α) (err : ε) : List α → ℕ → Except ε Unit × List α
  | cs, 0 => (.ok (), cs)
  | [], _ + 1 => (.error err, [])
  | c :: cs, n + 1 =>
    if n + 1 < size c then
      match cut c (n + 1) with
      | .ok c' => (.ok (), c' :: cs)
      | .error e => (.error e, c :: cs)
    else dropFront size cut err cs (n + 1 - size c)

section
variable {str : α → List β} {size : α → ℕ} {cut : α → ℕ → Except ε α} {err : ε}
variable (hsize : ∀ c, size c = (str c).length)
variable (hcut : ∀ c n, n < size c → ∃ c', cut c n = .ok c' ∧ str c' = (str c).drop n)
include hsize

/-- The sizes added up one by one are the length of the string. -/
theorem foldl_size (cs : List α) : cs.foldl (fun ret c => ret + size c) 0 = (cs.flatMap str).length := by
  suffices h : ∀ n, cs.foldl (fun ret c => ret + size c) n = n + (cs.flatMap str).length from
    (h 0).trans (Nat.zero_add _)
  induction cs with
  | nil => simp
  | cons c cs ih =>
    intro n
    rw [List.foldl_cons, ih, List.flatMap_cons, List.length_append, hsize, Nat.add_assoc]

include hcut

theorem flatMap_dropFront (cs : List α) (n : ℕ) :
    (dropFront size cut err cs n).2.flatMap str = (cs.flatMap str).drop n := by
  induction cs generalizing n with
  | nil => cases n <;> simp [dropFront]
  | cons c cs ih =>
    cases n with
    | zero => rfl
    | succ n =>
      rw [dropFront, List.flatMap_cons, List.drop_append, ← hsize]
      split
      · rename_i hlt
        obtain ⟨c', hc', hstr⟩ := hcut c (n + 1) hlt
        rw [hc', Nat.sub_eq_zero_of_le (Nat.le_of_lt hlt), ← hstr]
        rfl
      · rename_i hge
        have hused : (str c).drop (n + 1) = [] := by
          rw [List.drop_eq_nil_iff, ← hsize]; omega
        rw [ih, hused, List.nil_append]

theorem dropFront_fst (cs : List α) (n : ℕ) : (dropFront size cut err cs n).1 =
    if n > (cs.flatMap str).length then .error err else .ok () := by
  induction cs generalizing n with
  | nil => cases n <;> simp [dropFront]
  | cons c cs ih =>
    cases n with
    | zero => rfl
    | succ n =>
      rw [dropFront, List.flatMap_cons, List.length_append, ← hsize]
      split
      · rename_i hlt
        obtain ⟨c', hc', -⟩ := hcut c (n + 1) hlt
        rw [hc', if_neg (by omega)]
      · rename_i hge
        rw [ih]
        refine if_congr ?_ rfl rfl
        omega

end

/-- Steps that each discard a prefix discard the sum together. -/
theorem foldl_drop {str : α → List β} {step : α → ℕ → α} (h : ∀ a n, str (step a n) = (str a).drop n)
    (ns : List ℕ) (a : α) : str (ns.foldl step a) = (str a).drop ns.sum := by
  induction ns generalizing a with
  | nil => rfl
  | cons n ns ih => rw [List.foldl_cons, ih, h, List.drop_drop, List.sum_cons]

end Chunks

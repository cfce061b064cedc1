import Mathlib.Data.List.GetD
import Mathlib.Order.Monotone.Basic

/-!
# Numbered items that come and go

Items are numbered in the order in which they are registered. A log has entries that belong to items, and
some of them end the life of their item. `Registry live n log` says that of the `n` items registered so
far `live` are those whose life has not ended, in order, and that nothing is logged for an item after its
end. What happens to one item keeps this (`stay`, `retire`), and so does registering more (`register`).

A part of a history may number the items for itself: those alive when it starts by their position, and
those it registers after them. `Registry.join` puts such a part behind what came before it.
-/

structure Registry {ε : Type} (number : ε → ℕ) (ends : ε → Prop) (live : List ℕ) (n : ℕ) (log : List ε) : Prop where
  sorted : live.Pairwise (· < ·)
  live_iff : ∀ i, i ∈ live ↔ i < n ∧ ∀ ev ∈ log, number ev = i → ¬ ends ev
  lt : ∀ ev ∈ log, number ev < n
  last : log.Pairwise fun ev ev' => ends ev → number ev' ≠ number ev

namespace Registry

variable {ε ε' : Type} {number : ε → ℕ} {ends : ε → Prop} {live pre post : List ℕ} {n k i : ℕ} {log more : List ε}

theorem nil (number : ε → ℕ) (ends : ε → Prop) : Registry number ends [] 0 [] where
  sorted := .nil
  live_iff i := by simp
  lt ev hev := by cases hev
  last := .nil

theorem congr {ends' : ε → Prop} (h : Registry number ends live n log) (hends : ∀ ev ∈ log, ends' ev ↔ ends ev) :
    Registry number ends' live n log where
  sorted := h.sorted
  live_iff i := by
    rw [h.live_iff]
    refine and_congr_right fun _ => forall₂_congr fun ev hev => ?_
    rw [hends ev hev]
  lt := h.lt
  last := h.last.imp_of_mem fun hev _ hlast hend => hlast ((hends _ hev).1 hend)

theorem live_lt (h : Registry number ends live n log) (hi : i ∈ live) : i < n := ((h.live_iff i).1 hi).1

theorem ne_of_ends (h : Registry number ends live n log) (hi : i ∈ live) {ev : ε} (hev : ev ∈ log)
    (hend : ends ev) : i ≠ number ev := fun heq => ((h.live_iff i).1 hi).2 ev hev heq.symm hend

theorem register (h : Registry number ends live n log) (k : ℕ) :
    Registry number ends (live ++ List.range' n k) (n + k) log where
  sorted := by
    refine List.pairwise_append.2 ⟨h.sorted, List.pairwise_lt_range', fun i hi j hj => ?_⟩
    exact Nat.lt_of_lt_of_le (h.live_lt hi) (List.mem_range'_1.1 hj).1
  live_iff i := by
    rw [List.mem_append, h.live_iff, List.mem_range'_1]
    constructor
    · rintro (⟨hlt, hlive⟩ | ⟨hge, hlt⟩)
      · exact ⟨by omega, hlive⟩
      · refine ⟨hlt, fun ev hev heq _ => ?_⟩
        have := h.lt ev hev
        omega
    · rintro ⟨hlt, hlive⟩
      by_cases hold : i < n
      · exact .inl ⟨hold, hlive⟩
      · exact .inr ⟨by omega, hlt⟩
  lt ev hev := by
    have := h.lt ev hev
    omega
  last := h.last

/-- Something happens to an item that is alive, and it stays alive. -/
theorem stay (h : Registry number ends live n log) (hi : i ∈ live) (hmore : ∀ ev ∈ more, number ev = i)
    (hquiet : ∀ ev ∈ more, ¬ ends ev) : Registry number ends live n (log ++ more) where
  sorted := h.sorted
  live_iff j := by
    rw [h.live_iff, List.forall_mem_append]
    exact and_congr_right fun _ => (and_iff_left fun ev hev _ => hquiet ev hev).symm
  lt := List.forall_mem_append.2 ⟨h.lt, fun ev hev => by rw [hmore ev hev]; exact h.live_lt hi⟩
  last := by
    refine List.pairwise_append.2 ⟨h.last, ?_, fun ev hev ev' hev' hend => ?_⟩
    · exact List.pairwise_of_forall_mem_list fun ev hev _ _ hend => absurd hend (hquiet ev hev)
    · rw [hmore ev' hev']
      exact h.ne_of_ends hi hev hend

/-- The last that happens to an item ends its life. -/
theorem retire (h : Registry number ends (pre ++ i :: post) n log) {ev : ε}
    (hmore : ∀ ev ∈ more, number ev = i) (hquiet : ∀ ev ∈ more, ¬ ends ev) (hev : number ev = i) (hend : ends ev) :
    Registry number ends (pre ++ post) n (log ++ (more ++ [ev])) := by
  have hi : i ∈ pre ++ i :: post := by simp
  have hstay := h.stay hi hmore hquiet
  have hnd : (pre ++ i :: post).Nodup := h.sorted.imp Nat.ne_of_lt
  rw [← List.append_assoc]
  refine ⟨?_, fun j => ?_, ?_, ?_⟩
  · exact h.sorted.sublist (List.Sublist.append_left (List.sublist_cons_self i post) pre)
  · have hmem : j ∈ pre ++ post ↔ j ∈ pre ++ i :: post ∧ j ≠ i := by
      rw [List.nodup_append] at hnd
      obtain ⟨-, hcons, hdisj⟩ := hnd
      rw [List.nodup_cons] at hcons
      simp only [List.mem_append, List.mem_cons]
      constructor
      · rintro (hj | hj)
        · exact ⟨.inl hj, hdisj j hj i (by simp)⟩
        · exact ⟨.inr (.inr hj), fun heq => hcons.1 (heq ▸ hj)⟩
      · rintro ⟨hj | rfl | hj, hne⟩
        · exact .inl hj
        · exact absurd rfl hne
        · exact .inr hj
    have hlast : (∀ c ∈ log ++ more ++ [ev], number c = j → ¬ ends c) ↔
        (∀ c ∈ log ++ more, number c = j → ¬ ends c) ∧ j ≠ i := by
      rw [List.forall_mem_append, List.forall_mem_singleton, hev]
      refine and_congr_right fun _ => ?_
      exact ⟨fun hne heq => hne heq.symm hend, fun hne heq => absurd heq.symm hne⟩
    rw [hmem, hstay.live_iff, hlast, and_assoc]
  · refine List.forall_mem_append.2 ⟨hstay.lt, List.forall_mem_singleton.2 ?_⟩
    rw [hev]
    exact h.live_lt hi
  · refine List.pairwise_append.2 ⟨hstay.last, List.pairwise_singleton .., fun ev' hev' c hc hend' => ?_⟩
    rw [List.mem_singleton.1 hc, hev]
    exact hstay.ne_of_ends hi hev' hend'

theorem countP_le_one {q : ε → Bool} (h : log.Pairwise fun ev ev' => q ev = true → ¬ q ev' = true) :
    log.countP q ≤ 1 := by
  induction log with
  | nil => exact Nat.zero_le 1
  | cons ev log ih =>
    obtain ⟨hhead, htail⟩ := List.pairwise_cons.1 h
    rw [List.countP_cons]
    split
    · rename_i hq
      rw [List.countP_eq_zero.2 fun ev' hev' => hhead ev' hev' hq]
    · exact ih htail

/-- The life of an item ends once, if it does. -/
theorem countP_ends (h : Registry number ends live n log) {q : ε → Bool}
    (hq : ∀ ev ∈ log, q ev = true ↔ ends ev ∧ number ev = i) :
    log.countP q = if i < n ∧ i ∉ live then 1 else 0 := by
  split
  · rename_i hgone
    refine Nat.le_antisymm (countP_le_one (h.last.imp_of_mem fun hev hev' hlast hqev hqev' => ?_)) ?_
    · rw [hq _ hev] at hqev
      rw [hq _ hev'] at hqev'
      exact hlast hqev.1 (hqev'.2.trans hqev.2.symm)
    · refine List.countP_pos_iff.2 ?_
      by_contra hnone
      refine hgone.2 ((h.live_iff i).2 ⟨hgone.1, fun ev hev heq hend => hnone ⟨ev, hev, ?_⟩⟩)
      exact (hq ev hev).2 ⟨hend, heq⟩
  · rename_i hstay
    refine List.countP_eq_zero.2 fun ev hev hqev => ?_
    obtain ⟨hend, heq⟩ := (hq ev hev).1 hqev
    refine hstay ⟨heq ▸ h.lt ev hev, fun hlive => ?_⟩
    exact h.ne_of_ends hlive hev hend heq.symm

/-- The number that a part of a history starting with the items `live` of `n` stands for with its `i`. -/
def global (live : List ℕ) (n i : ℕ) : ℕ := live.getD i (n + (i - live.length))

theorem global_of_lt (h : i < live.length) : global live n i = live[i] := List.getD_eq_getElem _ _ h

theorem global_of_ge (h : live.length ≤ i) : global live n i = n + (i - live.length) := List.getD_eq_default _ _ h

theorem global_mem (hi : i < live.length) : global live n i ∈ live := by
  rw [global_of_lt hi]; exact List.getElem_mem hi

section
variable (h : Registry number ends live n log)
include h

theorem strictMono_global : StrictMono (global live n) := by
  intro i j hij
  by_cases hi : i < live.length
  · by_cases hj : j < live.length
    · rw [global_of_lt hi, global_of_lt hj]
      exact List.pairwise_iff_getElem.1 h.sorted i j hi hj hij
    · have := h.live_lt (global_mem (n := n) hi)
      rw [global_of_ge (Nat.le_of_not_lt hj)]
      omega
  · rw [global_of_ge (Nat.le_of_not_lt hi), global_of_ge (by omega)]; omega

theorem global_lt {m : ℕ} (hm : live.length ≤ m) (hi : i < m) : global live n i < n + (m - live.length) := by
  by_cases hlt : i < live.length
  · have := h.live_lt (global_mem (n := n) hlt)
    omega
  · rw [global_of_ge (by omega)]; omega

/-- No entry of the past ends the life of an item of the part that follows. -/
theorem global_ne_of_ends {ev : ε} (hev : ev ∈ log) (hend : ends ev) : global live n i ≠ number ev := by
  by_cases hi : i < live.length
  · exact h.ne_of_ends (global_mem hi) hev hend
  · rw [global_of_ge (by omega)]
    have := h.lt ev hev
    omega

theorem exists_global {m j : ℕ} (hj : j < n + (m - live.length)) (hlive : ∀ ev ∈ log, number ev = j → ¬ ends ev)
    (hm : live.length ≤ m) : ∃ i < m, global live n i = j := by
  by_cases hold : j < n
  · obtain ⟨i, hi, rfl⟩ := List.mem_iff_getElem.1 ((h.live_iff j).2 ⟨hold, hlive⟩)
    exact ⟨i, by omega, global_of_lt hi⟩
  · exact ⟨live.length + (j - n), by omega, by rw [global_of_ge (by omega)]; omega⟩

/-- A part of a history with numbers of its own, behind the rest. -/
theorem join {number' : ε' → ℕ} {ends' : ε' → Prop} {live' : List ℕ} {m : ℕ} {log' : List ε'}
    (h' : Registry number' ends' live' m log') (hm : live.length ≤ m) {relabel : ε' → ε}
    (hnumber : ∀ ev, number (relabel ev) = global live n (number' ev))
    (hends : ∀ ev ∈ log', ends (relabel ev) ↔ ends' ev) :
    Registry number ends (live'.map (global live n)) (n + (m - live.length)) (log ++ log'.map relabel) := by
  have hmono := h.strictMono_global
  refine ⟨?_, fun j => ?_, ?_, ?_⟩
  · exact List.pairwise_map.2 (h'.sorted.imp fun hlt => hmono hlt)
  · rw [List.mem_map, List.forall_mem_append, List.forall_mem_map]
    constructor
    · rintro ⟨i, hi, rfl⟩
      refine ⟨h.global_lt hm (h'.live_lt hi), fun ev hev heq hend => ?_, fun ev hev heq hend => ?_⟩
      · exact h.global_ne_of_ends hev hend heq.symm
      · rw [hnumber] at heq
        exact ((h'.live_iff i).1 hi).2 ev hev (hmono.injective heq) ((hends ev hev).1 hend)
    · rintro ⟨hlt, hpast, hnow⟩
      obtain ⟨i, hi, rfl⟩ := h.exists_global hlt hpast hm
      refine ⟨i, (h'.live_iff i).2 ⟨hi, fun ev hev heq hend => ?_⟩, rfl⟩
      exact hnow ev hev (by rw [hnumber, heq]) ((hends ev hev).2 hend)
  · refine List.forall_mem_append.2 ⟨fun ev hev => ?_, List.forall_mem_map.2 fun ev hev => ?_⟩
    · exact Nat.lt_of_lt_of_le (h.lt ev hev) (Nat.le_add_right ..)
    · rw [hnumber]
      exact h.global_lt hm (h'.lt ev hev)
  · refine List.pairwise_append.2 ⟨h.last, ?_, fun ev hev c hc hend => ?_⟩
    · refine List.pairwise_map.2 (h'.last.imp_of_mem fun hev _ hlast hend heq => ?_)
      rw [hnumber, hnumber] at heq
      exact hlast ((hends _ hev).1 hend) (hmono.injective heq)
    · obtain ⟨ev', -, rfl⟩ := List.mem_map.1 hc
      rw [hnumber]
      exact h.global_ne_of_ends hev hend

end

end Registry

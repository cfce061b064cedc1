import Mathlib.Data.List.Induction
import Mathlib.Data.List.Infix

/-!
# Runs of a deterministic machine

A `Machine` is an initial state and a step function; `run` feeds it a list of inputs. Every prefix of
a run is a run, so a statement about `M.run ops` for all `ops` is a statement about every state
reached. Three notions look at the history of a run: `Along C ops` (every step met `C` in the state
it was taken in), `Once E ops` (some step met `E`), and `output f ops` (what the steps emitted, in
order). Each of them has a lemma for one more step, and `run_inv` is the induction over them. `count E ops`
is the number of steps that met `E`; `count_le` bounds it by a measure that those steps raise.
-/

universe u v w

structure Machine (σ : Type u) (ι : Type v) where
  init : σ
  step : σ → ι → σ

namespace Machine

variable {σ : Type u} {ι : Type v} {β : Type w} (M : Machine σ ι)

def run (ops : List ι) : σ := ops.foldl M.step M.init

/-- Every step of the run met `C` in the state before it. -/
def Along (C : σ → ι → Prop) (ops : List ι) : Prop :=
  ∀ pre op, pre ++ [op] <+: ops → C (M.run pre) op

/-- Some step of the run met `E` in the state before it. -/
def Once (E : σ → ι → Prop) (ops : List ι) : Prop :=
  ∃ pre op, pre ++ [op] <+: ops ∧ E (M.run pre) op

def outputFrom (f : σ → ι → List β) : σ → List ι → List β
  | _, [] => []
  | s, op :: ops => f s op ++ outputFrom f (M.step s op) ops

/-- What a run emits, concatenated. -/
def output (f : σ → ι → List β) (ops : List ι) : List β := M.outputFrom f M.init ops

@[simp] theorem run_nil : M.run [] = M.init := rfl

@[simp] theorem run_concat (ops : List ι) (op : ι) : M.run (ops ++ [op]) = M.step (M.run ops) op := by
  simp [run]

theorem concat_prefix_concat {pre ops : List ι} {x op : ι} :
    pre ++ [x] <+: ops ++ [op] ↔ (pre = ops ∧ x = op) ∨ pre ++ [x] <+: ops := by
  rw [List.prefix_concat_iff]
  simp only [← List.concat_eq_append, List.concat_inj]

theorem along_nil {C : σ → ι → Prop} : M.Along C [] := by
  intro pre op h
  simp at h

theorem along_concat {C : σ → ι → Prop} {ops : List ι} {op : ι} :
    M.Along C (ops ++ [op]) ↔ M.Along C ops ∧ C (M.run ops) op := by
  simp only [Along, concat_prefix_concat]
  constructor
  · exact fun h => ⟨fun pre x hx => h pre x (.inr hx), h ops op (.inl ⟨rfl, rfl⟩)⟩
  · rintro ⟨hops, hop⟩ pre x (⟨rfl, rfl⟩ | hx)
    · exact hop
    · exact hops pre x hx

theorem along_of_forall_mem {Q : ι → Prop} {ops : List ι} (h : ∀ op ∈ ops, Q op) :
    M.Along (fun _ op => Q op) ops :=
  fun _ op hpre => h op (hpre.subset (by simp))

variable {M} in
theorem Along.forall_mem {Q : ι → Prop} {ops : List ι} (h : M.Along (fun _ op => Q op) ops) :
    ∀ op ∈ ops, Q op := by
  intro op hop
  obtain ⟨pre, post, rfl⟩ := List.append_of_mem hop
  exact h pre op ⟨post, by simp⟩

theorem not_once_nil {E : σ → ι → Prop} : ¬ M.Once E [] := by
  rintro ⟨pre, op, h, -⟩
  simp at h

theorem once_concat {E : σ → ι → Prop} {ops : List ι} {op : ι} :
    M.Once E (ops ++ [op]) ↔ M.Once E ops ∨ E (M.run ops) op := by
  simp only [Once, concat_prefix_concat]
  constructor
  · rintro ⟨pre, x, ⟨rfl, rfl⟩ | hx, hE⟩
    · exact .inr hE
    · exact .inl ⟨pre, x, hx, hE⟩
  · rintro (⟨pre, x, hx, hE⟩ | hE)
    · exact ⟨pre, x, .inr hx, hE⟩
    · exact ⟨ops, op, .inl ⟨rfl, rfl⟩, hE⟩

variable {M} in
theorem Once.append {E : σ → ι → Prop} {ops : List ι} (h : M.Once E ops) (more : List ι) :
    M.Once E (ops ++ more) := by
  obtain ⟨pre, op, hpre, hE⟩ := h
  exact ⟨pre, op, hpre.trans (List.prefix_append ops more), hE⟩

@[simp] theorem output_nil {f : σ → ι → List β} : M.output f [] = [] := rfl

theorem outputFrom_append (f : σ → ι → List β) (s : σ) (pre post : List ι) :
    M.outputFrom f s (pre ++ post) =
      M.outputFrom f s pre ++ M.outputFrom f (pre.foldl M.step s) post := by
  induction pre generalizing s with
  | nil => rfl
  | cons op pre ih => simp [outputFrom, ih]

theorem output_concat (f : σ → ι → List β) (ops : List ι) (op : ι) :
    M.output f (ops ++ [op]) = M.output f ops ++ f (M.run ops) op := by
  rw [output, outputFrom_append]
  simp [outputFrom, output, run]

/-- How many steps of the run met `E` in the state before them. -/
def count (E : σ → ι → Prop) [∀ s op, Decidable (E s op)] (ops : List ι) : ℕ :=
  (M.output (fun s op => if E s op then [op] else []) ops).length

section
variable {E : σ → ι → Prop} [∀ s op, Decidable (E s op)]

theorem count_concat (ops : List ι) (op : ι) :
    M.count E (ops ++ [op]) = M.count E ops + if E (M.run ops) op then 1 else 0 := by
  rw [count, output_concat, List.length_append, count]
  split <;> rfl

/-- A measure that no step lowers and every step with `E` raises bounds the number of those steps. -/
theorem count_le {C : σ → ι → Prop} {μ : σ → ℕ}
    (hle : ∀ ops op, M.Along C (ops ++ [op]) → μ (M.run ops) ≤ μ (M.step (M.run ops) op))
    (hlt : ∀ ops op, M.Along C (ops ++ [op]) → E (M.run ops) op → μ (M.run ops) < μ (M.step (M.run ops) op))
    {ops : List ι} (h : M.Along C ops) : M.count E ops ≤ μ (M.run ops) := by
  induction ops using List.reverseRecOn with
  | nil => exact Nat.zero_le _
  | append_singleton ops op ih =>
    have hops := ih (M.along_concat.1 h).1
    rw [count_concat, run_concat]
    split
    · rename_i hE
      exact Nat.lt_of_le_of_lt hops (hlt ops op h hE)
    · exact hops.trans (hle ops op h)

end

/-- The invariant rule: `P` holds of the empty history and every step that meets `C` keeps it. -/
theorem run_inv {C : σ → ι → Prop} {P : List ι → σ → Prop} (h0 : P [] M.init)
    (hstep : ∀ ops op, C (M.run ops) op → P ops (M.run ops) →
      P (ops ++ [op]) (M.step (M.run ops) op))
    {ops : List ι} (h : M.Along C ops) : P ops (M.run ops) := by
  induction ops using List.reverseRecOn with
  | nil => exact h0
  | append_singleton ops op ih =>
    obtain ⟨hops, hop⟩ := M.along_concat.1 h
    rw [run_concat]
    exact hstep ops op hop (ih hops)

theorem run_stable {P : σ → Prop} (hstep : ∀ s op, P s → P (M.step s op)) {ops : List ι}
    (h : P (M.run ops)) (more : List ι) : P (M.run (ops ++ more)) := by
  induction more using List.reverseRecOn with
  | nil => rwa [List.append_nil]
  | append_singleton more op ih =>
    rw [← List.append_assoc, run_concat]
    exact hstep _ op ih

end Machine

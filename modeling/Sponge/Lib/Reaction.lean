import Mathlib.Data.List.Basic

/-!
# Code that acts on a world, keeps a log and may throw

A `Reaction` is what such code comes to when it is run in some world: what it returned or threw, the world
it left, and the log of what it did; an exception undoes nothing. `pass` runs a step for every item of a
list until one throws. A property of logs that holds of no action and of actions one after the other
(`Law`) holds of a pass if it holds of every step. In a pass that does not throw, every item has a step of
its own somewhere in the middle (`pass_split`), and whatever only its step can log, the pass logs as often
as that step (`pass_of_mem`). In any pass, what is in the log was logged by a step that the pass has come to
(`mem_log_pass`).
-/

structure Reaction (ω ε X α : Type) where
  result : Except X α
  world : ω
  log : List ε

namespace Reaction

variable {ω ε X α β : Type}

protected def pure (a : α) (w : ω) : Reaction ω ε X α := ⟨.ok a, w, []⟩

protected def throw (e : X) (w : ω) : Reaction ω ε X α := ⟨.error e, w, []⟩

protected def bind (x : Reaction ω ε X α) (f : α → ω → Reaction ω ε X β) : Reaction ω ε X β :=
  match x.result with
  | .error e => ⟨.error e, x.world, x.log⟩
  | .ok a => ⟨(f a x.world).result, (f a x.world).world, x.log ++ (f a x.world).log⟩

def pass (step : α → ω → Reaction ω ε X β) : List α → ω → Reaction ω ε X (List β)
  | [], w => .pure [] w
  | a :: as, w => (step a w).bind fun b w => (pass step as w).bind fun bs w => .pure (b :: bs) w

section
variable {x : Reaction ω ε X α} {f : α → ω → Reaction ω ε X β} {a : α} {b : β} {e : X} {w : ω}

theorem bind_of_error (h : x.result = .error e) : x.bind f = ⟨.error e, x.world, x.log⟩ := by
  rw [Reaction.bind, h]

theorem bind_of_ok (h : x.result = .ok a) :
    x.bind f = ⟨(f a x.world).result, (f a x.world).world, x.log ++ (f a x.world).log⟩ := by
  rw [Reaction.bind, h]

theorem map_eq_ok {r : Except X α} {g : α → β} (h : r.map g = .ok b) : ∃ a, r = .ok a ∧ g a = b := by
  cases r with
  | error e => cases h
  | ok a => exact ⟨a, rfl, Except.ok.inj h⟩

theorem map_eq_error {r : Except X α} {g : α → β} (h : r.map g = .error e) : r = .error e := by
  cases r with
  | error e' => exact congrArg _ (Except.error.inj h)
  | ok a => cases h

theorem bind_pure (x : Reaction ω ε X α) (g : α → ω → β) :
    (x.bind fun a w => .pure (g a w) w) = ⟨x.result.map fun a => g a x.world, x.world, x.log⟩ := by
  cases h : x.result with
  | error e => rw [bind_of_error h]; rfl
  | ok a => rw [bind_of_ok h]; simp [Reaction.pure, Except.map]

theorem log_bind_of_silent (hf : ∀ a w, (f a w).log = []) : (x.bind f).log = x.log := by
  cases h : x.result with
  | error e => rw [bind_of_error h]
  | ok a => rw [bind_of_ok h, hf, List.append_nil]

end

/-- `R w log w'` may hold of what happens between the worlds `w` and `w'`. -/
structure Law (R : ω → List ε → ω → Prop) : Prop where
  refl : ∀ w, R w [] w
  trans : ∀ {w l w' l' w''}, R w l w' → R w' l' w'' → R w (l ++ l') w''

section Law
variable {R : ω → List ε → ω → Prop} {x : Reaction ω ε X α} {f : α → ω → Reaction ω ε X β} {w : ω}

theorem Law.bind (hR : Law R) (hx : R w x.log x.world)
    (hf : ∀ a, x.result = .ok a → R x.world (f a x.world).log (f a x.world).world) :
    R w (x.bind f).log (x.bind f).world := by
  cases h : x.result with
  | error e => rw [bind_of_error h]; exact hx
  | ok a => rw [bind_of_ok h]; exact hR.trans hx (hf a h)

theorem Law.pass (hR : Law R) {step : α → ω → Reaction ω ε X β} {as : List α}
    (hstep : ∀ a ∈ as, ∀ w, R w (step a w).log (step a w).world) (w : ω) :
    R w (pass step as w).log (pass step as w).world := by
  induction as generalizing w with
  | nil => exact hR.refl w
  | cons a as ih =>
    refine hR.bind (hstep a (by simp) w) fun b _ => ?_
    exact hR.bind (ih (fun a ha => hstep a (by simp [ha])) _) fun bs _ => hR.refl _

theorem law_forall (P : ε → Prop) : Law fun (_ : ω) (l : List ε) (_ : ω) => ∀ ev ∈ l, P ev :=
  ⟨fun _ => by simp, fun h h' => List.forall_mem_append.2 ⟨h, h'⟩⟩

end Law

section Pass
variable {step : α → ω → Reaction ω ε X β} {a : α} {as pre post : List α} {b : β} {bs : List β} {e : X} {w : ω}

@[simp] theorem pass_nil : pass step [] w = ⟨.ok [], w, []⟩ := rfl

theorem pass_cons_error (h : (step a w).result = .error e) :
    pass step (a :: as) w = ⟨.error e, (step a w).world, (step a w).log⟩ := bind_of_error h

theorem pass_cons_ok (h : (step a w).result = .ok b) :
    pass step (a :: as) w =
      ⟨(pass step as (step a w).world).result.map (b :: ·), (pass step as (step a w).world).world,
        (step a w).log ++ (pass step as (step a w).world).log⟩ := by
  rw [pass, bind_of_ok h]
  simp only [bind_pure]

theorem pass_cons_result (h : (pass step (a :: as) w).result = .ok bs) :
    ∃ b bs', (step a w).result = .ok b ∧ (pass step as (step a w).world).result = .ok bs' ∧ bs = b :: bs' := by
  cases hstep : (step a w).result with
  | error e => rw [pass_cons_error hstep] at h; cases h
  | ok b =>
    rw [pass_cons_ok hstep] at h
    obtain ⟨bs', hrest, rfl⟩ := map_eq_ok h
    exact ⟨b, bs', rfl, hrest, rfl⟩

theorem pass_append_result (h : (pass step (pre ++ as) w).result = .ok bs) :
    ∃ bs₁ bs₂, bs = bs₁ ++ bs₂ ∧ bs₁.length = pre.length ∧ (pass step pre w).result = .ok bs₁ ∧
      (pass step as (pass step pre w).world).result = .ok bs₂ := by
  induction pre generalizing w bs with
  | nil => exact ⟨[], bs, rfl, rfl, rfl, h⟩
  | cons c pre ih =>
    obtain ⟨b, bs', hb, hrest, rfl⟩ := pass_cons_result h
    obtain ⟨bs₁, bs₂, rfl, hlen, hpre, has⟩ := ih hrest
    refine ⟨b :: bs₁, bs₂, rfl, by simp [hlen], ?_, ?_⟩
    · rw [pass_cons_ok hb, hpre]
      rfl
    · rwa [pass_cons_ok hb]

theorem log_pass_append (h : (pass step pre w).result = .ok bs) :
    (pass step (pre ++ as) w).log = (pass step pre w).log ++ (pass step as (pass step pre w).world).log := by
  induction pre generalizing w bs with
  | nil => rfl
  | cons c pre ih =>
    obtain ⟨b, bs', hb, hrest, -⟩ := pass_cons_result h
    rw [List.cons_append, pass_cons_ok hb, pass_cons_ok hb]
    simp only [ih hrest, List.append_assoc]

/-- A pass that does not throw, taken apart at one of its items. -/
theorem pass_split (h : (pass step (pre ++ a :: post) w).result = .ok bs) :
    ∃ bs₁ b bs₂, bs = bs₁ ++ b :: bs₂ ∧ bs₁.length = pre.length ∧
      (step a (pass step pre w).world).result = .ok b ∧
      (pass step (pre ++ a :: post) w).log = (pass step pre w).log ++
        (step a (pass step pre w).world).log ++ (pass step post (step a (pass step pre w).world).world).log := by
  obtain ⟨bs₁, bs', rfl, hlen, hpre, hrest⟩ := pass_append_result h
  obtain ⟨b, bs₂, hb, -, rfl⟩ := pass_cons_result hrest
  refine ⟨bs₁, b, bs₂, rfl, hlen, hb, ?_⟩
  rw [log_pass_append hpre, pass_cons_ok hb, List.append_assoc]

/-- What a step logs is logged by the pass that comes to it. -/
theorem mem_log_pass_of_step {ev : ε} (h : (pass step pre w).result = .ok bs)
    (hev : ev ∈ (step a (pass step pre w).world).log) : ev ∈ (pass step (pre ++ a :: post) w).log := by
  rw [log_pass_append h]
  refine List.mem_append_right _ ?_
  cases ha : (step a (pass step pre w).world).result with
  | error e => rwa [pass_cons_error ha]
  | ok b =>
    rw [pass_cons_ok ha]
    exact List.mem_append_left _ hev

/-- What a pass has logged was logged by one of its steps, and none before that threw. -/
theorem mem_log_pass {ev : ε} (h : ev ∈ (pass step as w).log) :
    ∃ pre a post bs, as = pre ++ a :: post ∧ (pass step pre w).result = .ok bs ∧
      ev ∈ (step a (pass step pre w).world).log := by
  induction as generalizing w with
  | nil => cases h
  | cons a as ih =>
    cases ha : (step a w).result with
    | error e =>
      rw [pass_cons_error ha] at h
      exact ⟨[], a, as, [], rfl, rfl, h⟩
    | ok b =>
      rw [pass_cons_ok ha] at h
      rcases List.mem_append.1 h with h | h
      · exact ⟨[], a, as, [], rfl, rfl, h⟩
      · obtain ⟨pre, c, post, bs, rfl, hres, hev⟩ := ih h
        refine ⟨a :: pre, c, post, b :: bs, rfl, ?_, ?_⟩
        · rw [pass_cons_ok ha, hres]
          rfl
        · rwa [pass_cons_ok ha]

theorem forall_mem_of_pass {P : β → Prop} (hstep : ∀ a w b, (step a w).result = .ok b → P b)
    (h : (pass step as w).result = .ok bs) : ∀ b ∈ bs, P b := by
  induction as generalizing w bs with
  | nil => cases h; simp
  | cons a as ih =>
    obtain ⟨b, bs', hb, hrest, rfl⟩ := pass_cons_result h
    exact List.forall_mem_cons.2 ⟨hstep a w b hb, ih hrest⟩

theorem exists_step_of_mem (h : (pass step as w).result = .ok bs) (ha : a ∈ as) :
    ∃ w' b, (step a w').result = .ok b := by
  obtain ⟨pre, post, rfl⟩ := List.append_of_mem ha
  obtain ⟨_, b, _, -, -, hb, -⟩ := pass_split h
  exact ⟨_, b, hb⟩

/-- What is logged by the steps with certain results only is logged if there is such a result. -/
theorem exists_mem_log_pass_iff {P : ε → Prop} {Q : β → Prop}
    (hstep : ∀ a w b, (step a w).result = .ok b → ((∃ ev ∈ (step a w).log, P ev) ↔ Q b))
    (h : (pass step as w).result = .ok bs) : (∃ ev ∈ (pass step as w).log, P ev) ↔ ∃ b ∈ bs, Q b := by
  induction as generalizing w bs with
  | nil => cases h; simp
  | cons a as ih =>
    obtain ⟨b, bs', hb, hrest, rfl⟩ := pass_cons_result h
    rw [pass_cons_ok hb, List.exists_mem_cons_iff, ← hstep a w b hb, ← ih hrest]
    simp only [List.mem_append, or_and_right, exists_or]

section Tags
variable {τ : Type} {tag : ε → τ} {tagOf : α → τ} (hstep : ∀ a w, ∀ ev ∈ (step a w).log, tag ev = tagOf a)
include hstep

theorem tag_of_mem_pass {ev : ε} (hev : ev ∈ (pass step as w).log) : ∃ a ∈ as, tag ev = tagOf a :=
  (law_forall (ω := ω) fun ev => ∃ c ∈ as, tag ev = tagOf c).pass
    (fun c hc w ev hev => ⟨c, hc, hstep c w ev hev⟩) w ev hev

theorem countP_pass_eq_zero {q : ε → Bool} (hq : ∀ a ∈ as, ∀ ev, q ev = true → tag ev ≠ tagOf a) :
    (pass step as w).log.countP q = 0 := by
  refine List.countP_eq_zero.2 fun ev hev hqev => ?_
  obtain ⟨a, ha, htag⟩ := tag_of_mem_pass hstep hev
  exact hq a ha ev hqev htag

/-- An item with a tag of its own has one step in the pass, which logs all that the pass logs with that
tag. -/
theorem pass_of_mem (hnd : (as.map tagOf).Nodup) (ha : a ∈ as) (h : (pass step as w).result = .ok bs) :
    ∃ (k : ℕ) (w' : ω) (b : β), as[k]? = some a ∧ bs[k]? = some b ∧ (step a w').result = .ok b ∧
      (∀ ev ∈ (step a w').log, ev ∈ (pass step as w).log) ∧
      ∀ q : ε → Bool, (∀ ev, q ev = true → tag ev = tagOf a) →
        (pass step as w).log.countP q = (step a w').log.countP q := by
  obtain ⟨pre, post, rfl⟩ := List.append_of_mem ha
  obtain ⟨bs₁, b, bs₂, rfl, hlen, hb, hlog⟩ := pass_split h
  refine ⟨pre.length, _, b, by simp, by simp [← hlen], hb, fun ev hev => ?_, fun q hq => ?_⟩
  · rw [hlog]
    exact List.mem_append_left _ (List.mem_append_right _ hev)
  · have hpre : ∀ c ∈ pre, ∀ ev, q ev = true → tag ev ≠ tagOf c := by
      intro c hc ev hev heq
      rw [List.map_append, List.nodup_append] at hnd
      exact hnd.2.2 _ (List.mem_map_of_mem hc) (tagOf a) (by simp) (heq ▸ hq ev hev)
    have hpost : ∀ c ∈ post, ∀ ev, q ev = true → tag ev ≠ tagOf c := by
      intro c hc ev hev heq
      rw [List.map_append, List.nodup_append, List.map_cons, List.nodup_cons] at hnd
      exact hnd.2.1.1 (List.mem_map.2 ⟨c, hc, by rw [← heq, hq ev hev]⟩)
    rw [hlog, List.countP_append, List.countP_append, countP_pass_eq_zero hstep hpre,
      countP_pass_eq_zero hstep hpost, Nat.zero_add, Nat.add_zero]

end Tags

end Pass

end Reaction

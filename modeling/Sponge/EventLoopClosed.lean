import Sponge.EventLoopRules

/-!
# Callbacks on closed descriptors

A rule whose descriptor is closed is cancelled in the setup loop. The dispatch loop does not look again: a
descriptor may be closed by a function that runs after its rule was scanned, in the setup loop or for a rule
that is served earlier, and if the rule is ready its callback runs all the same. As a closed descriptor stays
closed, there is no other way (`callbacksOpen_iff`).
-/

namespace Sponge.EventLoop

variable {κ υ : Type} {B : Behaviour κ υ} {x : Slot κ} {p : PollFd} {w : World υ}

/-- Every callback ran while the descriptor of its rule was open. -/
def CallbacksOpen (l : EventLoop κ) (log : List (Event κ υ)) : Prop :=
  ∀ cb ∈ log, cb.kind = .callback →
    ∃ r, l.rules[cb.index]? = some r ∧ (cb.before.descriptors r.fd).closed = false

/-- A descriptor is closed when the rules `front` are to be served, or one of them closes it. -/
def ClosedBy (B : Behaviour κ υ) (front : List (Slot κ × PollFd)) (w : World υ) (d : ℕ) : Prop :=
  (w.descriptors d).closed = true ∨
    ∃ pre y post, front = pre ++ y :: post ∧ ((serveAll B pre w).world.descriptors d).closed = false ∧
      ((serve B y.1 y.2 (serveAll B pre w).world).world.descriptors d).closed = true

/-- The rules `front` are served before the rule `x` and do not throw; `x` is ready, and has lost its descriptor. -/
structure Overtaken (B : Behaviour κ υ) (s : State κ υ) (front : List (Slot κ × PollFd)) (x : Slot κ) (p : PollFd) :
    Prop where
  turn : ∃ rest, s.todo.zip s.pollfds = front ++ (x, p) :: rest
  reached : ∃ kept, (serveAll B front s.world).result = .ok kept
  clean : p.error = false
  ready : p.ready = true
  closed : ClosedBy B front s.world x.1.fd

/-- The dispatch loop is started in a state in which it will come to such a rule. -/
def ComesToClosed (B : Behaviour κ υ) (poll : List PollFd → ℤ → PollReturn) (timeoutMs : ℤ) (l : EventLoop κ)
    (w : World υ) : Prop :=
  ∃ ps, Dispatches B poll timeoutMs l w ps ∧
    ∃ front x p, Overtaken B (polledState B poll timeoutMs l w ps) front x p

/-! ### Descriptors that are closed on the way -/

theorem observes_closed (B : Behaviour κ υ) (x : Slot κ) (d : ℕ) :
    Observes B x fun w _ w' => (w.descriptors d).closed = true → (w'.descriptors d).closed = true where
  refl _ := id
  trans h h' := h' ∘ h
  scan _ := id
  callback w := B.closed_callback _ w d
  interest w := B.closed_interest _ w d
  cancel w := B.closed_cancel _ w d

theorem closedBy_cons {front : List (Slot κ × PollFd)} {b : Bool} {d : ℕ} (hb : (serve B x p w).result = .ok b) :
    ClosedBy B ((x, p) :: front) w d ↔ ClosedBy B front (serve B x p w).world d := by
  have hworld : ∀ pre, (serveAll B ((x, p) :: pre) w).world = (serveAll B pre (serve B x p w).world).world := by
    intro pre
    rw [serveAll_cons_ok hb]
  constructor
  · rintro (hclosed | ⟨pre, z, post, hsplit, hopen, hclosed⟩)
    · exact .inl ((observes_closed B x d).of_serve p w hclosed)
    · rcases pre with _ | ⟨c, pre⟩
      · obtain ⟨rfl, -⟩ := List.cons.inj hsplit
        exact .inl hclosed
      · obtain ⟨rfl, rfl⟩ := List.cons.inj hsplit
        rw [hworld] at hopen hclosed
        exact .inr ⟨pre, z, post, rfl, hopen, hclosed⟩
  · rintro (hclosed | ⟨pre, z, post, rfl, hopen, hclosed⟩)
    · by_cases hw : (w.descriptors d).closed = true
      · exact .inl hw
      · exact .inr ⟨[], (x, p), front, rfl, Bool.eq_false_iff.2 hw, hclosed⟩
    · exact .inr ⟨(x, p) :: pre, z, post, rfl, by rwa [hworld], by rwa [hworld]⟩

/-- What was closed on the way is closed when the rules have been served, and nothing else. -/
theorem closed_serveAll_iff {front : List (Slot κ × PollFd)} {kept : List Bool} {d : ℕ}
    (h : (serveAll B front w).result = .ok kept) :
    ((serveAll B front w).world.descriptors d).closed = true ↔ ClosedBy B front w d := by
  induction front generalizing w kept with
  | nil =>
    refine ⟨.inl, ?_⟩
    rintro (hclosed | ⟨pre, y, post, hsplit, -⟩)
    · exact hclosed
    · simp at hsplit
  | cons y front ih =>
    obtain ⟨x, p⟩ := y
    obtain ⟨b, kept, hb, hrest, -⟩ := Reaction.pass_cons_result h
    rw [closedBy_cons hb, ← ih hrest, serveAll_cons_ok hb]

/-! ### The callbacks in a log -/

theorem kind_scan (x : Slot κ) (w : World υ) : ∀ ev ∈ (scan B x w).log, ev.kind ≠ .callback := by
  by_cases hover : Over x w
  · rw [scan_of_over hover]
    simp [scanEvent, Behaviour.runCancel, invoke]
  · rw [scan_of_live hover]
    simp [scanEvent, Behaviour.runInterest, invoke]

/-- A callback runs for a ready rule, in the world in which the loop comes to it. -/
theorem callback_serve {cb : Event κ υ} (h : cb ∈ (serve B x p w).log) (hkind : cb.kind = .callback) :
    p.error = false ∧ p.ready = true ∧ cb.index = x.2 ∧ cb.before = w := by
  have hindex : cb.index = x.2 := index_serve (x, p) w cb h
  by_cases herr : p.error = true
  · rw [serve_of_error herr] at h
    cases h
  have herr' : p.error = false := Bool.eq_false_iff.2 herr
  by_cases hready : p.ready = true
  · refine ⟨herr', hready, hindex, ?_⟩
    rcases (serve_of_ready (B := B) (x := x) (w := w) herr' hready).1 with hlog | hlog
    · rw [hlog] at h
      rw [List.mem_singleton.1 h]
    · rw [hlog] at h
      rcases List.mem_append.1 h with h | h
      · rw [List.mem_singleton.1 h]
      · rw [List.mem_singleton.1 h] at hkind
        cases hkind
  · by_cases hdef : p.defunct = true
    · rw [serve_of_defunct herr' hdef] at h
      rw [List.mem_singleton.1 h] at hkind
      cases hkind
    · rw [serve_of_idle herr' (Bool.eq_false_iff.2 hdef) (Bool.eq_false_iff.2 hready)] at h
      cases h

theorem exists_callback_serve (herr : p.error = false) (hready : p.ready = true) :
    ∃ cb ∈ (serve B x p w).log, cb.kind = .callback ∧ cb.index = x.2 ∧ cb.before = w := by
  refine ⟨⟨.callback, x.2, w, (B.callback x.1.fns w).world, (B.callback x.1.fns w).added⟩, ?_, rfl, rfl, rfl⟩
  rcases (serve_of_ready (B := B) (x := x) (w := w) herr hready).1 with hlog | hlog <;> rw [hlog]
  · exact List.mem_singleton_self _
  · exact List.mem_append_left _ (List.mem_singleton_self _)

section
variable {poll : List PollFd → ℤ → PollReturn} {timeoutMs : ℤ} {l : EventLoop κ} {ps : List (Option (PollFd × Bool))}

theorem rule_of_todo (h : x ∈ (polledState B poll timeoutMs l w ps).todo) : l.rules[x.2]? = some x.1 := by
  rw [polledState_todo] at h
  exact List.mk_mem_zipIdx_iff_getElem?.1 ((keepers_sublist ..).subset h)

/-- Callbacks run on open descriptors only, exactly if the dispatch loop comes to no ready rule that has lost its
descriptor. -/
theorem callbacksOpen_serveRun_iff :
    CallbacksOpen l (serveRun B poll timeoutMs l w ps).log ↔
      ∀ front x p, ¬ Overtaken B (polledState B poll timeoutMs l w ps) front x p := by
  constructor
  · rintro h front x p ⟨⟨rest, hturn⟩, ⟨kept, hkept⟩, herr, hready, hclosed⟩
    obtain ⟨cb, hcb, hkind, hindex, hbefore⟩ := exists_callback_serve (B := B) (x := x)
      (w := (serveAll B front (polledState B poll timeoutMs l w ps).world).world) herr hready
    have hmem : cb ∈ (serveRun B poll timeoutMs l w ps).log := by
      rw [serveRun, hturn]
      exact Reaction.mem_log_pass_of_step hkept hcb
    obtain ⟨r, hr, hopen⟩ := h cb hmem hkind
    have hx : x ∈ (polledState B poll timeoutMs l w ps).todo :=
      (List.of_mem_zip (b := p) (by rw [hturn]; simp)).1
    rw [hindex, rule_of_todo hx] at hr
    obtain rfl := Option.some.inj hr
    rw [hbefore, (closed_serveAll_iff hkept).2 hclosed] at hopen
    cases hopen
  · intro h cb hcb hkind
    obtain ⟨front, ⟨x, p⟩, rest, kept, hturn, hkept, hcb⟩ := Reaction.mem_log_pass hcb
    obtain ⟨herr, hready, hindex, hbefore⟩ := callback_serve hcb hkind
    have hx : x ∈ (polledState B poll timeoutMs l w ps).todo :=
      (List.of_mem_zip (b := p) (by rw [hturn]; simp)).1
    refine ⟨x.1, by rw [hindex, rule_of_todo hx], Bool.eq_false_iff.2 fun hclosed => ?_⟩
    rw [hbefore] at hclosed
    exact h front x p ⟨⟨rest, hturn⟩, ⟨kept, hkept⟩, herr, hready, (closed_serveAll_iff hkept).1 hclosed⟩

end

/-- Callbacks run on open descriptors only, exactly if the dispatch loop comes to no ready rule that has lost its
descriptor since it was scanned. -/
theorem callbacksOpen_iff (B : Behaviour κ υ) (poll : List PollFd → ℤ → PollReturn) (timeoutMs : ℤ) (fuel : ℕ)
    (l : EventLoop κ) (w : World υ) (hB : B.AddsNothing) (hfuel : l.rules.length ≤ fuel) :
    CallbacksOpen l (finalState (waitNextEvent B poll timeoutMs fuel l w)).log ↔
      ¬ ComesToClosed B poll timeoutMs l w := by
  have hnone : ∀ ev ∈ (scanRun B l w).log, ev.kind ≠ .callback :=
    (Reaction.law_forall fun ev : Event κ υ => ev.kind ≠ .callback).pass (fun x _ w => kind_scan x w) w
  rcases (outcome_wait B poll timeoutMs fuel l w hB hfuel).log_cases with ⟨hlog, hno⟩ | ⟨ps, hd, hlog⟩
  · rw [hlog]
    refine iff_of_true (fun cb hcb hkind => absurd hkind (hnone cb hcb)) ?_
    rintro ⟨ps, hd, -⟩
    exact hno ps hd
  · have hserve : CallbacksOpen l (finalState (waitNextEvent B poll timeoutMs fuel l w)).log ↔
        CallbacksOpen l (serveRun B poll timeoutMs l w ps).log := by
      rw [hlog]
      refine ⟨fun h cb hcb => h cb (List.mem_append_right _ hcb), fun h cb hcb hkind => ?_⟩
      exact h cb ((List.mem_append.1 hcb).resolve_left fun hscan => hnone cb hscan hkind) hkind
    rw [hserve, callbacksOpen_serveRun_iff]
    constructor
    · rintro h ⟨ps', hd', front, x, p, hover⟩
      obtain rfl := hd.unique hd'
      exact h front x p hover
    · intro h front x p hover
      exact h ⟨ps, hd, front, x, p, hover⟩

instance (l : EventLoop κ) (log : List (Event κ υ)) : Decidable (CallbacksOpen l log) :=
  decidable_of_iff (∀ cb ∈ log, cb.kind = .callback →
    (l.rules[cb.index]?.any fun r => !(cb.before.descriptors r.fd).closed) = true)
    (by simp [CallbacksOpen, Option.any_eq_true])

/-- Every rule reads from its own descriptor and closes it. -/
def readAndClose : Behaviour ℕ Unit := scripted (fun _ => true) fun k => [.read k, .close k]

theorem addsNothing_readAndClose : readAndClose.AddsNothing := addsNothing_scripted (by simp [Deed.rule])

theorem callbacksOpen_iff_readAndClose :
    readAndClose.AddsNothing ∧
    CallbacksOpen ⟨[⟨0, .In, 0⟩, ⟨1, .In, 1⟩]⟩ (finalState (waitNextEvent readAndClose (reports [pollIn, pollIn]) 0 2
      ⟨[⟨0, .In, 0⟩, ⟨1, .In, 1⟩]⟩ openWorld)).log ∧
    ¬ ComesToClosed readAndClose (reports [pollIn, pollIn]) 0 ⟨[⟨0, .In, 0⟩, ⟨1, .In, 1⟩]⟩ openWorld := by
  have hopen : CallbacksOpen ⟨[⟨0, .In, 0⟩, ⟨1, .In, 1⟩]⟩ (finalState (waitNextEvent readAndClose
      (reports [pollIn, pollIn]) 0 2 ⟨[⟨0, .In, 0⟩, ⟨1, .In, 1⟩]⟩ openWorld)).log := by decide +kernel
  exact ⟨addsNothing_readAndClose, hopen,
    (callbacksOpen_iff _ _ _ _ _ _ addsNothing_readAndClose (by simp)).1 hopen⟩

/-- Two rules share the descriptor that the first of them reads from and closes, and both are ready. -/
theorem not_callbacksOpen_of_shared :
    readAndClose.AddsNothing ∧
    ¬ CallbacksOpen ⟨[⟨0, .In, 0⟩, ⟨0, .In, 1⟩]⟩ (finalState (waitNextEvent readAndClose (reports [pollIn, pollIn]) 0 2
      ⟨[⟨0, .In, 0⟩, ⟨0, .In, 1⟩]⟩ openWorld)).log :=
  ⟨addsNothing_readAndClose, by decide +kernel⟩

end Sponge.EventLoop

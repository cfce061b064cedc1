import Sponge.EventLoopRules

/-!
# What `Success` means

`Result::Success` is documented as "at least one Rule was triggered", and an error during polling as an
exception. But an error of `poll` other than `EINTR` is caught and dropped, and the dispatch loop then finds
no events at all; and the placeholder entry of a rule that is not interested can report a hangup, which
nobody acts on. `Spurious` describes these calls, by what `poll` is given and returns, and `honest_iff` says
that there are no others.
-/

namespace Sponge.EventLoop

variable {κ υ : Type} {B : Behaviour κ υ} {x : Slot κ} {p : PollFd} {w : World υ}

/-! ### What `poll` may return -/

/-- The contract of `poll(2)`: it counts the entries with an event, and reports what was asked for, errors
and hangups. -/
structure PollReturn.Allowed (out : PollReturn) (built : List PollFd) : Prop where
  count : 0 ≤ out.value → out.value = ((List.range built.length).countP fun i => out.revents i ≠ 0 : ℕ)
  drawn : 0 ≤ out.value → ∀ i q, built[i]? = some q →
    out.revents i &&& ~~~(q.events ||| (pollErr ||| pollHup ||| pollNval)) = 0

def PollReturn.Failed (out : PollReturn) : Prop := out.value < 0 ∧ out.errno ≠ eintr

/-- The dispatch loop is entered after a failure as well. -/
theorem pollResult_none_iff {out : PollReturn} : pollResult out = .ok none ↔ out.Failed ∨ 0 < out.value := by
  by_cases hneg : out.value < 0
  · rw [pollResult_of_neg hneg, PollReturn.Failed]
    by_cases herrno : out.errno = eintr
    · simp [herrno]; omega
    · simp [herrno, hneg]
  · rw [pollResult_of_nonneg (by omega), PollReturn.Failed]
    by_cases hzero : out.value = 0
    · simp [hzero]
    · simp [hzero]; omega

theorem ne_success_of_pollResult {out : PollReturn} {r : Result} (h : pollResult out = .ok (some r)) :
    r ≠ .success := by
  rintro rfl
  by_cases hneg : out.value < 0
  · rw [pollResult_of_neg hneg] at h
    split at h <;> cases h
  · rw [pollResult_of_nonneg (by omega)] at h
    split at h <;> cases h

theorem getLsbD_pollHup {i : ℕ} (hi : i < 16) : pollHup.toBitVec.getLsbD i = decide (i = 4) := by
  have hall : ∀ i : Fin 16, pollHup.toBitVec.getLsbD i = decide (i.1 = 4) := by decide
  exact hall ⟨i, hi⟩

/-- What is neither an error nor was asked for is a hangup. -/
theorem eq_pollHup {r events : UInt16} (hdrawn : r &&& ~~~(events ||| (pollErr ||| pollHup ||| pollNval)) = 0)
    (herr : r &&& (pollErr ||| pollNval) = 0) (hready : r &&& events = 0) (hne : r ≠ 0) : r = pollHup := by
  have hbits : ∀ i < 16, r.toBitVec.getLsbD i = true → i = 4 := by
    intro i hi
    have h1 := congrArg (·.toBitVec.getLsbD i) hdrawn
    have h2 := congrArg (·.toBitVec.getLsbD i) herr
    have h3 := congrArg (·.toBitVec.getLsbD i) hready
    simp only [UInt16.toBitVec_and, UInt16.toBitVec_or, UInt16.toBitVec_not, BitVec.getLsbD_and,
      BitVec.getLsbD_or, BitVec.getLsbD_not, getLsbD_pollHup hi, hi] at h1 h2 h3
    simp only [UInt16.toBitVec_zero, BitVec.getLsbD_zero] at h1 h2 h3
    grind
  have h4 : r.toBitVec.getLsbD 4 = true := by
    by_contra h4
    refine hne (UInt16.toBitVec_inj.1 (BitVec.eq_of_getLsbD_eq fun i hi => ?_))
    rw [UInt16.toBitVec_zero, BitVec.getLsbD_zero]
    exact Bool.eq_false_iff.2 fun hri => h4 (hbits i hi hri ▸ hri)
  refine UInt16.toBitVec_inj.1 (BitVec.eq_of_getLsbD_eq fun i hi => ?_)
  rw [getLsbD_pollHup hi]
  by_cases h : i = 4
  · simp [h, h4]
  · simp only [h, decide_false]
    exact Bool.eq_false_iff.2 fun hri => h (hbits i hi hri)

/-- An entry that reports something is an error, ready or defunct, unless it is the placeholder of a rule
that was not interested and reports a hangup. -/
theorem PollFd.report_cases
    (hdrawn : p.revents &&& ~~~(p.events ||| (pollErr ||| pollHup ||| pollNval)) = 0) (herr : p.error = false)
    (hready : p.ready = false) (hdefunct : p.defunct = false) :
    p.revents = 0 ∨ p.events = 0 ∧ p.revents = pollHup := by
  by_cases hne : p.revents = 0
  · exact .inl hne
  have hhup : p.revents = pollHup := eq_pollHup hdrawn (by simpa [PollFd.error] using herr)
    (by simpa [PollFd.ready] using hready) hne
  refine .inr ⟨?_, hhup⟩
  by_contra hevents
  have : p.defunct = true := by simp [PollFd.defunct, PollFd.hup, hready, hevents, hhup, pollHup]
  rw [this] at hdefunct
  cases hdefunct

/-! ### Calls in which nothing happens -/

/-- Some rule was triggered: its callback ran, or it was cancelled. -/
def Acted (log : List (Event κ υ)) : Prop := ∃ ev ∈ log, ev.kind = .cancel ∨ ev.kind = .callback

theorem acted_append {log log' : List (Event κ υ)} : Acted (log ++ log') ↔ Acted log ∨ Acted log' := by
  simp only [Acted, List.mem_append, or_and_right, exists_or]

theorem acted_of_runs {kind : Kind} {i : ℕ} {log : List (Event κ υ)} (hkind : kind = .cancel ∨ kind = .callback)
    (h : runs kind i log = 1) : Acted log := by
  obtain ⟨ev, hev, hk⟩ := List.countP_pos_iff.1 (h ▸ Nat.one_pos : 0 < runs kind i log)
  simp only [decide_eq_true_eq] at hk
  exact ⟨ev, hev, by rw [hk.1]; exact hkind⟩

theorem acted_scan_iff (x : Slot κ) (w : World υ) (r : Option (PollFd × Bool)) (h : (scan B x w).result = .ok r) :
    Acted (scan B x w).log ↔ r.isSome = false := by
  by_cases hover : Over x w
  · rw [scan_of_over hover] at h ⊢
    obtain ⟨u, -, rfl⟩ := Reaction.map_eq_ok h
    simp [Acted, scanEvent, Behaviour.runCancel, invoke]
  · rw [scan_of_live hover] at h ⊢
    obtain ⟨b, -, rfl⟩ := Reaction.map_eq_ok h
    simp [Acted, scanEvent, Behaviour.runInterest, invoke]

/-- The setup loop has acted if it has dropped a rule. -/
theorem acted_scanRun_iff {l : EventLoop κ} {ps : List (Option (PollFd × Bool))}
    (hps : (scanRun B l w).result = .ok ps) :
    Acted (scanRun B l w).log ↔ ∃ r ∈ ps, r.isSome = false :=
  Reaction.exists_mem_log_pass_iff acted_scan_iff hps

def PollFd.Idle (p : PollFd) : Prop := p.error = false ∧ p.defunct = false ∧ p.ready = false

theorem serveAll_of_idle {items : List (Slot κ × PollFd)} (h : ∀ y ∈ items, y.2.Idle) (w : World υ) :
    serveAll B items w = ⟨.ok (items.map fun _ => true), w, []⟩ := by
  induction items with
  | nil => rfl
  | cons y items ih =>
    obtain ⟨herr, hdefunct, hready⟩ := h y (by simp)
    have hy : serve B y.1 y.2 w = ⟨.ok true, w, []⟩ := serve_of_idle herr hdefunct hready
    rw [serveAll_cons_ok (by rw [hy]), hy, ih fun z hz => h z (by simp [hz])]
    rfl

theorem PollFd.idle_of_revents_zero (h : p.revents = 0) : p.Idle := by
  simp [PollFd.Idle, PollFd.error, PollFd.defunct, PollFd.hup, PollFd.ready, h]

theorem PollFd.idle_of_placeholder (hevents : p.events = 0) (h : p.revents = pollHup) : p.Idle := by
  refine ⟨?_, ?_, ?_⟩
  · rw [PollFd.error, h]; decide
  · simp [PollFd.defunct, hevents]
  · simp [PollFd.ready, hevents]

section
variable (B : Behaviour κ υ) (poll : List PollFd → ℤ → PollReturn) (timeoutMs : ℤ) (l : EventLoop κ) (w : World υ)

/-- With the rules scanned as `ps`, `poll` fails; or it succeeds, but no rule was cancelled so far and all it
reports are hangups of rules that are not interested. -/
def SpuriousAt (ps : List (Option (PollFd × Bool))) : Prop :=
  (scannedState B l w ps).somethingToPoll = true ∧
    ((poll (scannedState B l w ps).pollfds timeoutMs).Failed ∨
      0 < (poll (scannedState B l w ps).pollfds timeoutMs).value ∧ (∀ r ∈ ps, r.isSome = true) ∧
        ∀ i q, (scannedState B l w ps).pollfds[i]? = some q →
          (poll (scannedState B l w ps).pollfds timeoutMs).revents i = 0 ∨
          q.events = 0 ∧ (poll (scannedState B l w ps).pollfds timeoutMs).revents i = pollHup)

def Spurious : Prop := ∃ ps, (scanRun B l w).result = .ok ps ∧ SpuriousAt B poll timeoutMs l w ps

end

section
variable {poll : List PollFd → ℤ → PollReturn} {timeoutMs : ℤ} {l : EventLoop κ}
  {ps : List (Option (PollFd × Bool))}

theorem spurious_iff (hps : (scanRun B l w).result = .ok ps) :
    Spurious B poll timeoutMs l w ↔ SpuriousAt B poll timeoutMs l w ps := by
  constructor
  · rintro ⟨ps', hps', h⟩
    obtain rfl : ps = ps' := Except.ok.inj (hps.symm.trans hps')
    exact h
  · exact fun h => ⟨ps, hps, h⟩

theorem SpuriousAt.pollResult_eq (h : SpuriousAt B poll timeoutMs l w ps) :
    pollResult (poll (scannedState B l w ps).pollfds timeoutMs) = .ok none :=
  pollResult_none_iff.2 (h.2.imp_right And.left)

theorem SpuriousAt.idle (hps : (scanRun B l w).result = .ok ps) (h : SpuriousAt B poll timeoutMs l w ps) :
    ∀ p ∈ (polledState B poll timeoutMs l w ps).pollfds, p.Idle := by
  intro p hp
  rcases h.2 with ⟨hneg, -⟩ | ⟨hpos, -, hreport⟩
  · have hsame : (polledState B poll timeoutMs l w ps).pollfds = (scannedState B l w ps).pollfds :=
      if_neg (by omega)
    rw [hsame] at hp
    exact PollFd.idle_of_revents_zero (scannedState_revents hps p hp)
  · rw [polledState_pollfds (Int.le_of_lt hpos), List.mem_mapIdx] at hp
    obtain ⟨i, hi, rfl⟩ := hp
    rcases hreport i _ (List.getElem?_eq_getElem hi) with hzero | ⟨hevents, hhup⟩
    · exact PollFd.idle_of_revents_zero hzero
    · exact PollFd.idle_of_placeholder hevents hhup

/-- In a spurious call the dispatch loop does nothing. -/
theorem SpuriousAt.serveRun_eq (hps : (scanRun B l w).result = .ok ps)
    (h : SpuriousAt B poll timeoutMs l w ps) :
    (∃ kept, (serveRun B poll timeoutMs l w ps).result = .ok kept) ∧ (serveRun B poll timeoutMs l w ps).log = [] := by
  rw [serveRun, serveAll_of_idle fun y hy => h.idle hps y.2 (List.of_mem_zip hy).2]
  exact ⟨⟨_, rfl⟩, rfl⟩

/-- If the dispatch loop neither throws nor triggers a rule, it has found no entry to act on. -/
theorem idle_of_not_acted {kept : List Bool} (hps : (scanRun B l w).result = .ok ps)
    (hkept : (serveRun B poll timeoutMs l w ps).result = .ok kept)
    (hno : ¬ Acted (serveRun B poll timeoutMs l w ps).log)
    (hp : p ∈ (polledState B poll timeoutMs l w ps).pollfds) : p.Idle := by
  obtain ⟨x, hxp⟩ : ∃ x, (x, p) ∈ (polledState B poll timeoutMs l w ps).todo.zip
      (polledState B poll timeoutMs l w ps).pollfds := by
    obtain ⟨i, hi⟩ := List.mem_iff_getElem?.1 hp
    have hlt := (List.getElem?_eq_some_iff.1 hi).1
    rw [polledState_length poll timeoutMs hps] at hlt
    exact ⟨_, List.mem_of_getElem? (List.getElem?_zip_eq_some.2 ⟨List.getElem?_eq_getElem hlt, hi⟩)⟩
  have herr : p.error = false := by
    obtain ⟨w', b, hb⟩ := Reaction.exists_step_of_mem hkept hxp
    refine Bool.eq_false_iff.2 fun herr => ?_
    rw [serve_of_error herr] at hb
    cases hb
  obtain ⟨-, hcallback, hcancel, -⟩ := serveRun_rule hps hkept herr hxp
  refine ⟨herr, Bool.eq_false_iff.2 fun h => hno ?_, Bool.eq_false_iff.2 fun h => hno ?_⟩
  · exact acted_of_runs (.inl rfl) (by rw [hcancel, if_pos h])
  · exact acted_of_runs (.inr rfl) (by rw [hcallback, if_pos h])

theorem spuriousAt_of_not_acted {kept : List Bool} (hps : (scanRun B l w).result = .ok ps)
    (hsome : (scannedState B l w ps).somethingToPoll = true)
    (hallowed : (poll (scannedState B l w ps).pollfds timeoutMs).Allowed (scannedState B l w ps).pollfds)
    (hpos : 0 < (poll (scannedState B l w ps).pollfds timeoutMs).value)
    (hkept : (serveRun B poll timeoutMs l w ps).result = .ok kept)
    (hno : ¬ Acted ((scanRun B l w).log ++ (serveRun B poll timeoutMs l w ps).log)) :
    SpuriousAt B poll timeoutMs l w ps := by
  rw [acted_append, not_or, acted_scanRun_iff hps] at hno
  refine ⟨hsome, .inr ⟨hpos, fun r hr => ?_, fun i q hq => ?_⟩⟩
  · exact Bool.not_eq_false _ ▸ fun h => hno.1 ⟨r, hr, h⟩
  · obtain ⟨herr, hdefunct, hready⟩ := idle_of_not_acted (p := { q with
        revents := (poll (scannedState B l w ps).pollfds timeoutMs).revents i }) hps hkept hno.2 (by
      rw [polledState_pollfds (Int.le_of_lt hpos)]
      exact List.mem_of_getElem? (i := i) (by rw [List.getElem?_mapIdx, hq]; rfl))
    exact PollFd.report_cases (hallowed.drawn (Int.le_of_lt hpos) i q hq) herr hready hdefunct

end

/-! ### The result of a call -/

/-- The entry as it was handed to `poll`. -/
def PollFd.asked (p : PollFd) : PollFd := { p with revents := 0 }

/-- `Success` is returned only if a rule was triggered, and if `poll` was called and failed, there is an
exception. -/
def Honest (poll : List PollFd → ℤ → PollReturn) (timeoutMs : ℤ) :
    Except (Stop × State κ υ) (Result × State κ υ) → Prop
  | .error (stop, _) => ∃ e, stop = .threw e
  | .ok (result, s) => (result = .success → Acted s.log) ∧
      (s.somethingToPoll = true → ¬ (poll (s.pollfds.map PollFd.asked) timeoutMs).Failed)

instance (log : List (Event κ υ)) : Decidable (Acted log) := inferInstanceAs (Decidable (∃ ev ∈ log, _))

instance (out : PollReturn) : Decidable out.Failed := inferInstanceAs (Decidable (_ ∧ _))

instance (poll : List PollFd → ℤ → PollReturn) (timeoutMs : ℤ) :
    (out : Except (Stop × State κ υ) (Result × State κ υ)) → Decidable (Honest poll timeoutMs out)
  | .error (.threw e, _) => isTrue ⟨e, rfl⟩
  | .error (.outOfBounds, _) => isFalse nofun
  | .error (.outOfFuel, _) => isFalse nofun
  | .ok (_, _) => inferInstanceAs (Decidable (_ ∧ _))

section
variable (B : Behaviour κ υ) (poll : List PollFd → ℤ → PollReturn) (timeoutMs : ℤ) (fuel : ℕ)
  (l : EventLoop κ) (w : World υ)

theorem asked_polledState {ps : List (Option (PollFd × Bool))} (hps : (scanRun B l w).result = .ok ps) :
    (polledState B poll timeoutMs l w ps).pollfds.map PollFd.asked = (scannedState B l w ps).pollfds := by
  have hasked : (scannedState B l w ps).pollfds.map PollFd.asked = (scannedState B l w ps).pollfds := by
    refine (List.map_congr_left fun q hq => ?_).trans (List.map_id _)
    rw [PollFd.asked, ← scannedState_revents hps q hq]
    rfl
  rw [polledState, State.polled]
  split
  · refine Eq.trans (List.ext_getElem? fun k => ?_) hasked
    rw [List.getElem?_map, List.getElem?_mapIdx, List.getElem?_map, Option.map_map]
    rfl
  · exact hasked

theorem honest_servedState_iff {ps : List (Option (PollFd × Bool))} {kept : List Bool}
    (hps : (scanRun B l w).result = .ok ps) (hsome : (scannedState B l w ps).somethingToPoll = true)
    (hr : pollResult (poll (scannedState B l w ps).pollfds timeoutMs) = .ok none)
    (hkept : (serveRun B poll timeoutMs l w ps).result = .ok kept)
    (hallowed : (poll (scannedState B l w ps).pollfds timeoutMs).Allowed (scannedState B l w ps).pollfds) :
    Honest poll timeoutMs (.ok (.success, servedState B poll timeoutMs l w ps kept)) ↔
      ¬ SpuriousAt B poll timeoutMs l w ps := by
  have hsome' : (servedState B poll timeoutMs l w ps kept).somethingToPoll = true := hsome
  have hasked : (servedState B poll timeoutMs l w ps kept).pollfds.map PollFd.asked =
      (scannedState B l w ps).pollfds := asked_polledState B poll timeoutMs l w hps
  rw [Honest, servedState_log, hasked]
  constructor
  · rintro ⟨hacted, hnot⟩ h
    rcases h.2 with hfailed | ⟨-, hkeep, -⟩
    · exact hnot hsome' hfailed
    · have hacted := hacted rfl
      rw [(h.serveRun_eq hps).2, List.append_nil, acted_scanRun_iff hps] at hacted
      obtain ⟨r, hr, hnone⟩ := hacted
      rw [hkeep r hr] at hnone
      cases hnone
  · intro h
    have hnot : ¬ (poll (scannedState B l w ps).pollfds timeoutMs).Failed := fun hfailed =>
      h ⟨hsome, .inl hfailed⟩
    have hpos := (pollResult_none_iff.1 hr).resolve_left hnot
    refine ⟨fun _ => ?_, fun _ => hnot⟩
    by_contra hno
    exact h (spuriousAt_of_not_acted hps hsome hallowed hpos hkept hno)

/-- A call is honest exactly if it is not spurious. -/
theorem honest_iff (hB : B.AddsNothing) (hfuel : l.rules.length ≤ fuel)
    (hpoll : ∀ built, (poll built timeoutMs).Allowed built) :
    Honest poll timeoutMs (waitNextEvent B poll timeoutMs fuel l w) ↔ ¬ Spurious B poll timeoutMs l w := by
  have hout := outcome_wait B poll timeoutMs fuel l w hB hfuel
  generalize waitNextEvent B poll timeoutMs fuel l w = out at hout
  cases hout with
  | scanThrew hps =>
    refine iff_of_true ⟨_, rfl⟩ ?_
    rintro ⟨ps, hps', -⟩
    rw [hps] at hps'
    cases hps'
  | exit hps hnothing =>
    rw [spurious_iff hps]
    refine iff_of_true ⟨nofun, fun h => ?_⟩ fun h => ?_
    · rw [hnothing] at h; cases h
    · exact Bool.false_ne_true (hnothing.symm.trans h.1)
  | polled hps hsome hr =>
    rw [spurious_iff hps]
    refine iff_of_true ⟨fun h => absurd h (ne_success_of_pollResult hr), fun _ hfailed => ?_⟩ fun h => ?_
    · rw [asked_polledState B poll timeoutMs l w hps] at hfailed
      rw [pollResult_none_iff.2 (.inl hfailed)] at hr
      cases hr
    · rw [h.pollResult_eq] at hr
      cases hr
  | serveThrew hps hsome hr hthrew =>
    rw [spurious_iff hps]
    refine iff_of_true ⟨_, rfl⟩ fun h => ?_
    obtain ⟨⟨kept, hkept⟩, -⟩ := h.serveRun_eq hps
    rw [hthrew] at hkept
    cases hkept
  | success hps hsome hr hkept =>
    rw [spurious_iff hps]
    exact honest_servedState_iff B poll timeoutMs l w hps hsome hr hkept (hpoll _)

end

/-- A kernel that reports `f` of every entry keeps to the contract if `f` does. -/
theorem allowed_reports {f : PollFd → UInt16}
    (hf : ∀ q, f q &&& ~~~(q.events ||| (pollErr ||| pollHup ||| pollNval)) = 0) (built : List PollFd)
    (timeoutMs : ℤ) : (reports (built.map f) built timeoutMs).Allowed built where
  count _ := by
    have hrange : built.map f = (List.range built.length).map fun i => (built.map f).getD i 0 := by
      refine List.ext_getElem (by simp) fun i h1 h2 => ?_
      simp only [List.getElem_map, List.getElem_range]
      rw [List.getD_eq_getElem _ _ h1, List.getElem_map]
    show (((built.map f).countP (· ≠ 0) : ℕ) : ℤ) = _
    rw [hrange, List.countP_map, ← hrange]
    rfl
  drawn _ i q hq := by
    show (built.map f).getD i 0 &&& _ = 0
    rw [List.getD_eq_getElem?_getD, List.getElem?_map, hq]
    exact hf q

/-- Whoever waits to read can read. -/
def allReadable : List PollFd → ℤ → PollReturn := fun built =>
  reports (built.map fun q => if q.events = pollIn then pollIn else 0) built

/-- Nothing asked for is ready, and where nothing is asked for, the other side has hung up. -/
def placeholdersHungUp : List PollFd → ℤ → PollReturn := fun built =>
  reports (built.map fun q => if q.events = 0 then pollHup else 0) built

theorem honest_iff_allReadable :
    (∀ built, (allReadable built 0).Allowed built) ∧
    Honest allReadable 0 (waitNextEvent (scripted (fun _ => true) fun k => [.read k]) allReadable 0 1
      ⟨[⟨0, .In, 0⟩]⟩ openWorld) ∧
    ¬ Spurious (scripted (fun _ => true) fun k => [.read k]) allReadable 0 ⟨[⟨0, .In, 0⟩]⟩ openWorld := by
  have hallowed : ∀ built, (allReadable built 0).Allowed built := by
    refine fun built => allowed_reports (fun q => ?_) built 0
    split
    · rename_i hevents
      rw [hevents]; decide
    · simp
  have hhonest : Honest allReadable 0 (waitNextEvent (scripted (fun _ => true) fun k => [.read k]) allReadable 0 1
      ⟨[⟨0, .In, 0⟩]⟩ openWorld) := by decide +kernel
  exact ⟨hallowed, hhonest,
    (honest_iff _ _ _ 1 _ _ (addsNothing_scripted (by simp [Deed.rule])) (by simp) hallowed).1 hhonest⟩

/-- `EINVAL`. -/
def pollFails : List PollFd → ℤ → PollReturn := fun _ _ => ⟨⟨-1, 22, by decide, by decide⟩, fun _ => 0⟩

/-- Two rules, one of which is not interested: it is hung up, or `poll` fails. -/
theorem not_honest_of_idle :
    (∀ built, (placeholdersHungUp built 0).Allowed built) ∧
    ¬ Honest placeholdersHungUp 0 (waitNextEvent (scripted (· = 0) fun k => [.read k]) placeholdersHungUp 0 2
      ⟨[⟨0, .In, 0⟩, ⟨1, .In, 1⟩]⟩ openWorld) ∧
    (∀ built, (pollFails built 0).Allowed built) ∧
    ¬ Honest pollFails 0 (waitNextEvent (scripted (· = 0) fun k => [.read k]) pollFails 0 2
      ⟨[⟨0, .In, 0⟩, ⟨1, .In, 1⟩]⟩ openWorld) := by
  refine ⟨fun built => allowed_reports (fun q => ?_) built 0, by decide +kernel, fun built => ?_, by decide +kernel⟩
  · split
    · rename_i hevents
      rw [hevents]; decide
    · simp
  · have hneg : ¬ 0 ≤ (pollFails built 0).value := by show ¬ (0 : ℤ) ≤ -1; decide
    exact ⟨fun h => absurd h hneg, fun h => absurd h hneg⟩

end Sponge.EventLoop

import Sponge.EventLoopRules

/-!
# Rules added while the loop runs

`add_rule` may be called at any time. In the setup loop this does no harm: a rule that is added is scanned
like any other and gets its entry (`SetupInv`). The dispatch loop too runs up to the live end of the list,
but the vector does not grow with it: once the rules it started with are served, the first rule that was
added is looked up past the end of the vector. So the rules and the vector stay in step exactly if the
rules served add none, or one of them throws (`inStep_iff`).
-/

namespace Sponge.EventLoop

variable {κ υ : Type} {B : Behaviour κ υ} {x : Slot κ} {s : State κ υ}

/-- The log has the rule with that number scanned. -/
def Scanned (log : List (Event κ υ)) (i : ℕ) : Prop := ∃ ev ∈ log, ev.kind = .scan ∧ ev.index = i

theorem Scanned.append_right {log : List (Event κ υ)} {i : ℕ} (h : Scanned log i) (log' : List (Event κ υ)) :
    Scanned (log ++ log') i := by
  obtain ⟨ev, hev, hkind, hi⟩ := h
  exact ⟨ev, List.mem_append_left _ hev, hkind, hi⟩

theorem Scanned.append_left {log : List (Event κ υ)} {i : ℕ} (h : Scanned log i) (log' : List (Event κ υ)) :
    Scanned (log' ++ log) i := by
  obtain ⟨ev, hev, hkind, hi⟩ := h
  exact ⟨ev, List.mem_append_right _ hev, hkind, hi⟩

theorem scanned_scan (B : Behaviour κ υ) (x : Slot κ) (w : World υ) : Scanned (scan B x w).log x.2 := by
  refine ⟨scanEvent x w, ?_, rfl, rfl⟩
  by_cases hover : Over x w
  · rw [scan_of_over hover]; exact List.mem_cons_self ..
  · rw [scan_of_live hover]; exact List.mem_cons_self ..

/-- Nothing has run for a rule that was not scanned. -/
def LogScanned (log : List (Event κ υ)) : Prop := ∀ ev ∈ log, Scanned log ev.index

theorem LogScanned.append {log log' : List (Event κ υ)} (h : LogScanned log)
    (h' : ∀ ev ∈ log', Scanned log ev.index ∨ Scanned log' ev.index) : LogScanned (log ++ log') := by
  intro ev hev
  rcases List.mem_append.1 hev with hev | hev
  · exact (h ev hev).append_right log'
  · rcases h' ev hev with hs | hs
    · exact hs.append_right log'
    · exact hs.append_left log

/-! ### The setup loop -/

/-- The rules that the setup loop has passed and the vector are in step. -/
structure SetupInv (s : State κ υ) : Prop where
  owners : s.done.map Prod.snd = s.pollfds.map PollFd.owner
  done : ∀ x ∈ s.done, Scanned s.log x.2
  log : LogScanned s.log
  accesses : s.accesses = []

theorem SetupInv.init (l : EventLoop κ) (w : World υ) : SetupInv (State.init l w) where
  owners := rfl
  done _ hx := by cases hx
  log _ hev := by cases hev
  accesses := rfl

theorem SetupInv.logScanned_after (h : SetupInv s) (x : Slot κ) :
    LogScanned (s.log ++ (scan B x s.world).log) := by
  refine h.log.append fun ev hev => .inr ?_
  rw [index_scan x s.world ev hev]
  exact scanned_scan B x s.world

theorem SetupInv.scannedOne {rest : List (Slot κ)} {r : Option (PollFd × Bool)} (h : SetupInv s)
    (htodo : s.todo = x :: rest) (hr : (scan B x s.world).result = .ok r) :
    SetupInv (s.scannedOne (scan B x s.world) r) := by
  have hlog := h.logScanned_after (B := B) x
  have hdone : ∀ y ∈ s.done, Scanned (s.log ++ (scan B x s.world).log) y.2 := fun y hy =>
    (h.done y hy).append_right _
  rcases r with _ | ⟨p, interested⟩
  · exact ⟨h.owners, hdone, hlog, h.accesses⟩
  · have hdone' : (s.scannedOne (scan B x s.world) (some (p, interested))).done = s.done ++ [x] := by
      simp [State.scannedOne, State.advance, State.pushPollfd, State.after, htodo]
    have howner : p.owner = x.2 := owner_of_scan hr
    refine ⟨?_, ?_, hlog, h.accesses⟩
    · rw [hdone', List.map_append, h.owners]
      show _ = (s.pollfds ++ [p]).map PollFd.owner
      simp [howner]
    · rw [hdone']
      intro y hy
      rcases List.mem_append.1 hy with hy | hy
      · exact hdone y hy
      · rw [List.mem_singleton.1 hy]
        exact (scanned_scan B x s.world).append_left _

/-- What holds when the setup loop stops, whether it is through or not. -/
theorem SetupInv.setup (h : SetupInv s) (B : Behaviour κ υ) (fuel : ℕ) :
    match setup B fuel s with
    | .ok s' => SetupInv s' ∧ s'.todo = []
    | .error (_, s') => LogScanned s'.log ∧ s'.accesses = [] := by
  induction fuel generalizing s with
  | zero =>
    cases htodo : s.todo with
    | nil => rw [setup_of_nil B 0 htodo]; exact ⟨h, htodo⟩
    | cons x rest => simpa [EventLoop.setup, htodo] using ⟨h.log, h.accesses⟩
  | succ fuel ih =>
    cases htodo : s.todo with
    | nil => rw [setup_of_nil B _ htodo]; exact ⟨h, htodo⟩
    | cons x rest =>
      cases hr : (scan B x s.world).result with
      | error e => rw [setup_of_error htodo hr]; exact ⟨h.logScanned_after x, h.accesses⟩
      | ok r => rw [setup_of_ok htodo hr]; exact ih (h.scannedOne htodo hr)

/-! ### The dispatch loop -/

/-- Every read of the vector was of the entry that was built for the rule at hand, and all the rules that
were looked at, or for which something ran, are rules that the setup loop had scanned. -/
structure InStep (s : State κ υ) : Prop where
  own : ∀ a ∈ s.accesses, s.pollfds[a.2]?.map PollFd.owner = some a.1
  dispatched : ∀ a ∈ s.accesses, Scanned s.log a.1
  log : LogScanned s.log

theorem InStep.of_accesses_nil (hlog : LogScanned s.log) (h : s.accesses = []) : InStep s where
  own a ha := by rw [h] at ha; cases ha
  dispatched a ha := by rw [h] at ha; cases ha
  log := hlog

section Dispatch
variable {out : PollReturn}

theorem SetupInv.polled_owners (h : SetupInv s) (htodo : s.todo = []) (out : PollReturn) :
    (s.polled out).todo.map Prod.snd = (s.polled out).pollfds.map PollFd.owner := by
  have hdone : (s.polled out).todo = s.done := by simp [State.polled, htodo]
  rw [hdone, h.owners, State.polled_owners]

theorem SetupInv.polled_scanned (h : SetupInv s) (htodo : s.todo = []) (out : PollReturn) :
    ∀ x ∈ (s.polled out).todo, Scanned s.log x.2 := by
  intro x hx
  refine h.done x ?_
  simpa [State.polled, htodo] using hx

/-- A state in which all reads were of the rules there were, each with its own entry, is in step. -/
theorem InStep.of_pass {w : World υ} {s' : State κ υ} {xs : List (Slot κ)} {items : List (Slot κ × PollFd)} {n : ℕ}
    (howners : xs.map Prod.snd = s'.pollfds.map PollFd.owner) (hscanned : ∀ x ∈ xs, Scanned s.log x.2)
    (hlog : LogScanned s.log) (hitems : ∀ y ∈ items, y.1 ∈ xs)
    (hlog' : s'.log = s.log ++ (serveAll B items w).log)
    (haccesses : s'.accesses = ((xs.map Prod.snd).zipIdx 0).take n) : InStep s' := by
  have hmem : ∀ a ∈ s'.accesses, (xs.map Prod.snd)[a.2]? = some a.1 := by
    intro a ha
    rw [haccesses] at ha
    exact List.mk_mem_zipIdx_iff_getElem?.1 (List.mem_of_mem_take ha)
  refine ⟨fun a ha => ?_, fun a ha => ?_, ?_⟩
  · rw [← List.getElem?_map, ← howners]
    exact hmem a ha
  · obtain ⟨x, hx, hxa⟩ := List.mem_map.1 (List.mem_of_getElem? (hmem a ha))
    rw [hlog', ← hxa]
    exact (hscanned x hx).append_right _
  · rw [hlog']
    refine hlog.append fun ev hev => .inl ?_
    obtain ⟨y, hy, hyev⟩ := Reaction.tag_of_mem_pass index_serve hev
    rw [hyev]
    exact hscanned y.1 (hitems y hy)

/-- With rules left but no entry, the loop reads past the end of the vector. -/
theorem not_inStep_of_none {idx : ℕ} {rest : List (Slot κ)} (B : Behaviour κ υ) (htodo : s.todo = x :: rest)
    (hnone : s.pollfds[idx]? = none) :
    ¬ InStep (finalState ((dispatch B idx s).map fun s => (Result.success, s))) := by
  rw [dispatch_of_none B htodo hnone]
  intro hin
  have hown := hin.own (x.2, idx) (List.mem_append_right _ (List.mem_singleton_self _))
  change s.pollfds[idx]?.map PollFd.owner = _ at hown
  rw [hnone] at hown
  cases hown

/-- The rules that the dispatch loop starts with, each served with its entry. -/
def dispatchRun (B : Behaviour κ υ) (s : State κ υ) (out : PollReturn) : Run κ υ (List Bool) :=
  serveAll B ((s.polled out).todo.zip (s.polled out).pollfds) s.world

theorem SetupInv.inStep_dispatch_iff (h : SetupInv s) (htodo : s.todo = []) (out : PollReturn) :
    InStep (finalState ((dispatch B 0 (s.polled out)).map fun s => (.success, s))) ↔
      ¬ ((∃ kept, (dispatchRun B s out).result = .ok kept) ∧ added (dispatchRun B s out).log ≠ []) := by
  have howners := h.polled_owners htodo out
  have hscanned := h.polled_scanned htodo out
  have hlen : (s.polled out).pollfds.length = 0 + (s.polled out).todo.length := by
    rw [Nat.zero_add, ← List.length_map (f := PollFd.owner), ← howners, List.length_map]
  have hitems : ∀ y ∈ (s.polled out).todo.zip (s.polled out).pollfds, y.1 ∈ (s.polled out).todo :=
    fun y hy => (List.of_mem_zip hy).1
  have haccesses : (s.polled out).accesses = [] := h.accesses
  cases hres : (dispatchRun B s out).result with
  | error e =>
    obtain ⟨s', n, hs', hpollfds, hlog, hacc⟩ := dispatch_pass_error (s.polled out) 0 (s.polled out).todo []
      (List.append_nil _).symm hlen hres
    rw [hs']
    refine iff_of_true ?_ (by simp)
    rw [haccesses, List.nil_append] at hacc
    exact .of_pass (hpollfds ▸ howners) hscanned h.log hitems hlog hacc
  | ok kept =>
    have hpass : dispatch B 0 (s.polled out) = dispatch B (0 + (s.polled out).todo.length)
        (((s.polled out).passed (keepers (s.polled out).todo kept) [] (dispatchRun B s out)).accessed
          (s.polled out).todo 0) :=
      dispatch_pass_ok (s.polled out) 0 (s.polled out).todo [] (List.append_nil _).symm hlen hres
    rw [hpass]
    generalize hs' : ((s.polled out).passed (keepers (s.polled out).todo kept) [] (dispatchRun B s out)).accessed
      (s.polled out).todo 0 = s'
    have htodo' : s'.todo = (added (dispatchRun B s out).log).zipIdx (s.polled out).nextIndex := by rw [← hs']; rfl
    have hpollfds : s'.pollfds = (s.polled out).pollfds := by rw [← hs']; rfl
    cases hadd : added (dispatchRun B s out).log with
    | nil =>
      rw [dispatch_of_nil B (by rw [htodo', hadd]; rfl)]
      refine iff_of_true ?_ (by simp)
      refine .of_pass (n := (s.polled out).todo.length) (hpollfds ▸ howners) hscanned h.log hitems
        (by rw [← hs']; rfl) ?_
      rw [← hs', List.take_of_length_le (by simp), State.accessed]
      show (s.polled out).accesses ++ _ = _
      rw [haccesses, List.nil_append]
    | cons r rs =>
      -- the first rule that was added has no entry
      have hnone : s'.pollfds[0 + (s.polled out).todo.length]? = none := by
        rw [hpollfds]; exact List.getElem?_eq_none (by omega)
      rw [hadd, List.zipIdx_cons] at htodo'
      exact iff_of_false (not_inStep_of_none B htodo' hnone) (by simp)

end Dispatch

section
variable (B) (poll : List PollFd → ℤ → PollReturn) (timeoutMs : ℤ) (fuel : ℕ) (l : EventLoop κ) (w : World υ)

/-- The dispatch loop is reached, and the rules it starts with are all served and add a rule. -/
def GrowsInDispatch : Prop :=
  ∃ s, setup B fuel (.init l w) = .ok s ∧ s.somethingToPoll = true ∧
    pollResult (poll s.pollfds timeoutMs) = .ok none ∧
    (∃ kept, (dispatchRun B s (poll s.pollfds timeoutMs)).result = .ok kept) ∧
    added (dispatchRun B s (poll s.pollfds timeoutMs)).log ≠ []

theorem growsInDispatch_iff {s : State κ υ} (hs : setup B fuel (.init l w) = .ok s) :
    GrowsInDispatch B poll timeoutMs fuel l w ↔ s.somethingToPoll = true ∧
      pollResult (poll s.pollfds timeoutMs) = .ok none ∧
      (∃ kept, (dispatchRun B s (poll s.pollfds timeoutMs)).result = .ok kept) ∧
      added (dispatchRun B s (poll s.pollfds timeoutMs)).log ≠ [] := by
  constructor
  · rintro ⟨s', hs', h⟩
    obtain rfl : s = s' := Except.ok.inj (hs.symm.trans hs')
    exact h
  · exact fun h => ⟨s, hs, h⟩

/-- The rules and the vector stay in step exactly if the list does not grow while it is dispatched. -/
theorem inStep_iff : InStep (finalState (waitNextEvent B poll timeoutMs fuel l w)) ↔
    ¬ GrowsInDispatch B poll timeoutMs fuel l w := by
  have hsetup := (SetupInv.init l w).setup B fuel
  cases hs : setup B fuel (.init l w) with
  | error stop =>
    rw [hs] at hsetup
    rw [wait_of_setup_error B poll timeoutMs fuel l w hs]
    refine iff_of_true (.of_accesses_nil hsetup.1 hsetup.2) ?_
    rintro ⟨s, hs', -⟩
    rw [hs] at hs'
    cases hs'
  | ok s =>
    rw [hs] at hsetup
    obtain ⟨hinv, htodo⟩ := hsetup
    rw [wait_of_setup B poll timeoutMs fuel l w hs, growsInDispatch_iff B poll timeoutMs fuel l w hs]
    cases hsome : s.somethingToPoll with
    | false =>
      exact iff_of_true (.of_accesses_nil hinv.log hinv.accesses) (by simp)
    | true =>
      obtain ⟨r, hr⟩ := pollResult_ok (poll s.pollfds timeoutMs)
      rw [if_pos rfl, hr]
      cases r with
      | some r => exact iff_of_true (.of_accesses_nil hinv.log hinv.accesses) (by simp)
      | none => simpa using hinv.inStep_dispatch_iff (B := B) htodo (poll s.pollfds timeoutMs)

end

/-- The callback of the only rule reads and registers a new connection: the loop goes on to `pollfds[1]`, of
a vector with one entry. -/
theorem not_inStep_of_accept : ¬ InStep (finalState (waitNextEvent
    (scripted (fun _ => true) fun _ => [.read 0, .add ⟨1, .In, 1⟩]) (reports [pollIn]) 0 1
    ⟨[⟨0, .In, 0⟩]⟩ openWorld)) := by
  intro h
  have hown := h.own (1, 1) (by decide +kernel)
  revert hown
  decide +kernel

end Sponge.EventLoop

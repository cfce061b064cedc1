import Sponge.EventLoopRules
import Sponge.Lib.Registry
import Sponge.Lib.Runs

/-!
# The life of a rule

A program adds rules and calls `wait_next_event` again and again, and may go on when a call has thrown. All
along, the loop holds the rules that were added and whose cancel function has not returned, in the order in
which they were added, and once it has returned nothing of the rule runs again, nor is the rule looked at.
This does not depend on what the functions do: they may add rules and throw.

Within one call the rules have the numbers of that call (`Tracks`). A `Session` numbers them over all calls,
in the order in which they were added (`Registry.join`). A cancel function that throws leaves its rule in the
loop, and it is run again.
-/

namespace Sponge.EventLoop

variable {κ υ α : Type} {B : Behaviour κ υ} {reg : List (Rule κ)} {l : EventLoop κ} {s : State κ υ} {x : Slot κ}
  {w : World υ}

/-- The entry is a run of a cancel function that returned; the rules `reg` are there under their numbers. -/
def Ended (B : Behaviour κ υ) (reg : List (Rule κ)) (ev : Event κ υ) : Prop :=
  ev.kind = .cancel ∧ ∃ r, reg[ev.index]? = some r ∧ (B.cancel r.fns ev.before).result = .ok ()

theorem ended_append {ev : Event κ υ} (h : ev.index < reg.length) (more : List (Rule κ)) :
    Ended B (reg ++ more) ev ↔ Ended B reg ev := by
  rw [Ended, Ended, List.getElem?_append_left h]

/-! ### Invariants of a call -/

/-- What the proof of an invariant of `wait_next_event` takes: `I` is to hold whenever a loop looks at its next
rule and when the call returns, and `E` when it stops in the middle. -/
structure Invariant (B : Behaviour κ υ) (I : State κ υ → Prop) (E : Stop → State κ υ → Prop) : Prop where
  scan_ok : ∀ {s x rest r}, I s → s.todo = x :: rest → (scan B x s.world).result = .ok r →
    I (s.scannedOne (scan B x s.world) r)
  scan_error : ∀ {s x rest e}, I s → s.todo = x :: rest → (scan B x s.world).result = .error e →
    E (.threw e) (s.after (scan B x s.world))
  outOfFuel : ∀ {s}, I s → E .outOfFuel s
  polled : ∀ {s}, I s → ∀ out, I (s.polled out)
  serve_ok : ∀ {s x rest idx p kept}, I s → s.todo = x :: rest → s.pollfds[idx]? = some p →
    (serve B x p s.world).result = .ok kept → I (s.served x idx (serve B x p s.world) kept)
  serve_error : ∀ {s x rest idx p e}, I s → s.todo = x :: rest → s.pollfds[idx]? = some p →
    (serve B x p s.world).result = .error e → E (.threw e) ((s.access x idx).after (serve B x p s.world))
  outOfBounds : ∀ {s x rest idx}, I s → s.todo = x :: rest → s.pollfds[idx]? = none →
    E .outOfBounds (s.access x idx)

namespace Invariant
variable {I : State κ υ → Prop} {E : Stop → State κ υ → Prop}

theorem setup (h : Invariant B I E) (hs : I s) (fuel : ℕ) :
    match setup B fuel s with
    | .ok s' => I s'
    | .error (stop, s') => E stop s' := by
  induction fuel generalizing s with
  | zero =>
    cases htodo : s.todo with
    | nil => rw [setup_of_nil B 0 htodo]; exact hs
    | cons x rest => simpa [EventLoop.setup, htodo] using h.outOfFuel hs
  | succ fuel ih =>
    cases htodo : s.todo with
    | nil => rw [setup_of_nil B _ htodo]; exact hs
    | cons x rest =>
      cases hr : (EventLoop.scan B x s.world).result with
      | error e => rw [setup_of_error htodo hr]; exact h.scan_error hs htodo hr
      | ok r => rw [setup_of_ok htodo hr]; exact ih (h.scan_ok hs htodo hr)

theorem dispatch (h : Invariant B I E) (hs : I s) (idx : ℕ) :
    match dispatch B idx s with
    | .ok s' => I s'
    | .error (stop, s') => E stop s' := by
  induction hn : s.pollfds.length - idx generalizing s idx with
  | zero =>
    cases htodo : s.todo with
    | nil => rw [dispatch_of_nil B htodo]; exact hs
    | cons x rest =>
      have hp : s.pollfds[idx]? = none := List.getElem?_eq_none (by omega)
      rw [dispatch_of_none B htodo hp]
      exact h.outOfBounds hs htodo hp
  | succ n ih =>
    cases htodo : s.todo with
    | nil => rw [dispatch_of_nil B htodo]; exact hs
    | cons x rest =>
      obtain ⟨p, hp⟩ : ∃ p, s.pollfds[idx]? = some p := ⟨_, List.getElem?_eq_getElem (by omega)⟩
      cases hb : (serve B x p s.world).result with
      | error e => rw [dispatch_of_some htodo hp, hb]; exact h.serve_error hs htodo hp hb
      | ok b =>
        rw [dispatch_of_ok htodo hp hb]
        exact ih (h.serve_ok hs htodo hp hb) (idx + 1) (by rw [State.served_pollfds]; omega)

theorem wait (h : Invariant B I E) (hinit : I (State.init l w)) (poll : List PollFd → ℤ → PollReturn)
    (timeoutMs : ℤ) (fuel : ℕ) :
    match waitNextEvent B poll timeoutMs fuel l w with
    | .ok (_, s) => I s
    | .error (stop, s) => E stop s := by
  have hsetup := h.setup hinit fuel
  cases hs : EventLoop.setup B fuel (.init l w) with
  | error stop =>
    rw [hs] at hsetup
    rw [wait_of_setup_error B poll timeoutMs fuel l w hs]
    exact hsetup
  | ok s =>
    rw [hs] at hsetup
    rw [wait_of_setup B poll timeoutMs fuel l w hs]
    have hpolled := h.polled hsetup (poll s.pollfds timeoutMs)
    cases s.somethingToPoll with
    | false => exact hsetup
    | true =>
      obtain ⟨r, hr⟩ := pollResult_ok (poll s.pollfds timeoutMs)
      rw [if_pos rfl, hr]
      cases r with
      | some r => exact hpolled
      | none =>
        have hdispatch := h.dispatch hpolled 0
        cases hd : EventLoop.dispatch B 0 (s.polled (poll s.pollfds timeoutMs)) with
        | error stop => rw [hd] at hdispatch; exact hdispatch
        | ok s' => rw [hd] at hdispatch; exact hdispatch

section
variable {poll : List PollFd → ℤ → PollReturn} {timeoutMs : ℤ} {fuel : ℕ}

theorem of_ok (h : Invariant B I E) (hinit : I (State.init l w)) {r : Result × State κ υ}
    (hout : waitNextEvent B poll timeoutMs fuel l w = .ok r) : I r.2 := by
  have hwait := h.wait hinit poll timeoutMs fuel
  rw [hout] at hwait
  exact hwait

theorem of_error (h : Invariant B I E) (hinit : I (State.init l w)) {stop : Stop × State κ υ}
    (hout : waitNextEvent B poll timeoutMs fuel l w = .error stop) : E stop.1 stop.2 := by
  have hwait := h.wait hinit poll timeoutMs fuel
  rw [hout] at hwait
  exact hwait

end

end Invariant

/-! ### One call -/

/-- All rules that a call has seen: those there were and those that were added. -/
def registered (l : EventLoop κ) (s : State κ υ) : List (Rule κ) := l.rules ++ added s.log

structure Tracks (B : Behaviour κ υ) (l : EventLoop κ) (s : State κ υ) : Prop where
  next : s.nextIndex = (registered l s).length
  rule : ∀ x ∈ s.done ++ s.todo, (registered l s)[x.2]? = some x.1
  life : Registry Event.index (Ended B (registered l s)) ((s.done ++ s.todo).map Prod.snd) s.nextIndex s.log

theorem Tracks.init (B : Behaviour κ υ) (l : EventLoop κ) (w : World υ) : Tracks B l (State.init l w) where
  next := by simp [registered, State.init, added]
  rule x hx := by
    have hx' : (x.1, x.2) ∈ l.rules.zipIdx := hx
    simpa [registered, State.init, added] using List.mk_mem_zipIdx_iff_getElem?.1 hx'
  life := by
    have h := (Registry.nil Event.index (Ended B (registered l (State.init l w)))).register l.rules.length
    simpa [State.init, List.zipIdx_map_snd] using h

theorem Tracks.of_eq {s' : State κ υ} (h : Tracks B l s) (hrules : s'.done ++ s'.todo = s.done ++ s.todo)
    (hnext : s'.nextIndex = s.nextIndex) (hlog : s'.log = s.log) : Tracks B l s' := by
  have hreg : registered l s' = registered l s := by rw [registered, registered, hlog]
  exact ⟨by rw [hnext, hreg, h.next], by rw [hrules, hreg]; exact h.rule, by
    rw [hrules, hreg, hnext, hlog]; exact h.life⟩

/-- What is logged for the rule `x` in one pass of a loop: with `false` its last entry is a cancel function
that returned, with `true` there is none. -/
inductive Meets (B : Behaviour κ υ) (reg : List (Rule κ)) (x : Slot κ) : Bool → List (Event κ υ) → Prop
  | stays {log} : (∀ ev ∈ log, ev.index = x.2) → (∀ ev ∈ log, ¬ Ended B reg ev) → Meets B reg x true log
  | ends {log ev} : (∀ ev ∈ log, ev.index = x.2) → (∀ ev ∈ log, ¬ Ended B reg ev) → ev.index = x.2 →
    Ended B reg ev → Meets B reg x false (log ++ [ev])

def cancelEvent (B : Behaviour κ υ) (x : Slot κ) (w : World υ) : Event κ υ :=
  ⟨.cancel, x.2, w, (B.cancel x.1.fns w).world, (B.cancel x.1.fns w).added⟩

theorem log_runCancel (B : Behaviour κ υ) (x : Slot κ) (w : World υ) : (B.runCancel x w).log = [cancelEvent B x w] :=
  rfl

theorem ended_cancelEvent_iff (hreg : reg[x.2]? = some x.1) :
    Ended B reg (cancelEvent B x w) ↔ (B.cancel x.1.fns w).result = .ok () := by
  constructor
  · rintro ⟨-, r, hr, hres⟩
    obtain rfl : x.1 = r := Option.some.inj (hreg.symm.trans hr)
    exact hres
  · exact fun hres => ⟨rfl, x.1, hreg, hres⟩

theorem not_ended_scanEvent (B : Behaviour κ υ) (reg : List (Rule κ)) (x : Slot κ) (w : World υ) :
    ∀ ev ∈ [scanEvent x w], ¬ Ended B reg ev := by
  rintro ev hev ⟨hkind, -⟩
  rw [List.mem_singleton.1 hev] at hkind
  cases hkind

theorem not_ended_runInterest (B : Behaviour κ υ) (reg : List (Rule κ)) (x : Slot κ) (w : World υ) :
    ∀ ev ∈ (B.runInterest x w).log, ¬ Ended B reg ev := by
  rintro ev hev ⟨hkind, -⟩
  rw [List.mem_singleton.1 hev] at hkind
  cases hkind

theorem not_ended_runCallback (B : Behaviour κ υ) (reg : List (Rule κ)) (x : Slot κ) (w : World υ) :
    ∀ ev ∈ (B.runCallback x w).log, ¬ Ended B reg ev := by
  rintro ev hev ⟨hkind, -⟩
  rw [List.mem_singleton.1 hev] at hkind
  cases hkind

/-- A pass that ends with the cancel function: it returned, or it threw. -/
theorem meets_cancel (log : List (Event κ υ)) (hreg : reg[x.2]? = some x.1)
    (hlog : ∀ ev ∈ log, ev.index = x.2) (hquiet : ∀ ev ∈ log, ¬ Ended B reg ev) {kept : Bool}
    (hkept : kept = true ↔ (B.cancel x.1.fns w).result ≠ .ok ()) :
    Meets B reg x kept (log ++ (B.runCancel x w).log) := by
  have hended := ended_cancelEvent_iff (B := B) (w := w) hreg
  rw [log_runCancel]
  cases kept with
  | false => exact .ends hlog hquiet rfl (hended.2 (by simpa using hkept))
  | true =>
    refine .stays (List.forall_mem_append.2 ⟨hlog, List.forall_mem_singleton.2 rfl⟩)
      (List.forall_mem_append.2 ⟨hquiet, List.forall_mem_singleton.2 ?_⟩)
    rw [hended]
    exact hkept.1 rfl

theorem map_ne_ok_iff {β : Type} {r : Except Exception Unit} {b : β} :
    r.map (fun _ => b) ≠ .ok b ↔ r ≠ .ok () := by
  cases r with
  | error e => simp [Except.map]
  | ok u => simp [Except.map]

theorem meets_scan (hreg : reg[x.2]? = some x.1) {kept : Bool}
    (hkept : kept = true ↔ (scan B x w).result ≠ .ok none) : Meets B reg x kept (scan B x w).log := by
  by_cases hover : Over x w
  · rw [scan_of_over hover] at hkept ⊢
    exact meets_cancel [scanEvent x w] hreg (List.forall_mem_singleton.2 rfl)
      (not_ended_scanEvent B reg x w) (hkept.trans map_ne_ok_iff)
  · have hne : (scan B x w).result ≠ .ok none := by
      rw [scan_of_live hover]
      intro h
      obtain ⟨b, -, hb⟩ := Reaction.map_eq_ok h
      cases hb
    rw [hkept.2 hne]
    refine .stays (index_scan x w) ?_
    rw [scan_of_live hover]
    exact List.forall_mem_append.2 ⟨not_ended_scanEvent B reg x w, not_ended_runInterest B reg x w⟩

theorem meets_serve {p : PollFd} (hreg : reg[x.2]? = some x.1) {kept : Bool}
    (hkept : kept = true ↔ (serve B x p w).result ≠ .ok false) : Meets B reg x kept (serve B x p w).log := by
  cases herr : p.error with
  | true =>
    rw [serve_of_error herr] at hkept ⊢
    rw [hkept.2 (by simp)]
    exact .stays (by simp) (by simp)
  | false =>
    cases hdef : p.defunct with
    | true =>
      rw [serve_of_defunct herr hdef] at hkept ⊢
      exact meets_cancel [] hreg (by simp) (by simp) (hkept.trans map_ne_ok_iff)
    | false =>
      cases hready : p.ready with
      | false =>
        rw [serve_of_idle herr hdef hready] at hkept ⊢
        rw [hkept.2 (by simp)]
        exact .stays (by simp) (by simp)
      | true =>
        obtain ⟨hlog, hres⟩ := serve_of_ready (B := B) (x := x) (w := w) herr hready
        rw [hkept.2 fun h => by cases hres false h]
        refine .stays (index_serve (x, p) w) ?_
        rcases hlog with hlog | hlog
        · rw [hlog]
          exact not_ended_runCallback B reg x w
        · rw [hlog]
          exact List.forall_mem_append.2 ⟨not_ended_runCallback B reg x w, not_ended_runInterest B reg x _⟩

section
variable (run : Run κ υ α)

theorem registered_after (l : EventLoop κ) (s : State κ υ) :
    registered l (s.after run) = registered l s ++ added run.log := by
  simp [registered, State.after, added_append]

/-- The rules of the call under the numbers they keep when user code has run. -/
theorem Tracks.rule_after (h : Tracks B l s) (hx : x ∈ s.done ++ s.todo) :
    (registered l (s.after run))[x.2]? = some x.1 := by
  rw [registered_after, List.getElem?_append_left (List.getElem?_eq_some_iff.1 (h.rule x hx)).1]
  exact h.rule x hx

theorem Tracks.rule_added (h : Tracks B l s) (hx : x ∈ (added run.log).zipIdx s.nextIndex) :
    (registered l (s.after run))[x.2]? = some x.1 := by
  have hx' : (x.1, x.2) ∈ (added run.log).zipIdx s.nextIndex := hx
  obtain ⟨hle, hget⟩ := List.mk_mem_zipIdx_iff_le_and_getElem?_sub.1 hx'
  rw [h.next] at hle hget
  rw [registered_after, List.getElem?_append_right hle, hget]

theorem Tracks.life_after (h : Tracks B l s) : Registry Event.index (Ended B (registered l (s.after run)))
    ((s.done ++ s.todo).map Prod.snd) s.nextIndex s.log := by
  refine h.life.congr fun ev hev => ?_
  rw [registered_after]
  exact ended_append (by rw [← h.next]; exact h.life.lt ev hev) _

variable {run} in
theorem Tracks.after (h : Tracks B l s) (hx : x ∈ s.done ++ s.todo)
    (hmeets : Meets B (registered l (s.after run)) x true run.log) : Tracks B l (s.after run) := by
  cases hmeets with
  | stays hindex hquiet =>
    refine ⟨?_, ?_, ?_⟩
    · rw [registered_after, List.length_append, ← h.next]; rfl
    · show ∀ y ∈ s.done ++ (s.todo ++ _), _
      rw [← List.append_assoc]
      exact List.forall_mem_append.2 ⟨fun y hy => h.rule_after run hy, fun y hy => h.rule_added run hy⟩
    · have hlife := ((h.life_after run).stay (List.mem_map_of_mem hx) hindex hquiet).register (added run.log).length
      rw [← List.zipIdx_map_snd s.nextIndex (added run.log), ← List.map_append, List.append_assoc] at hlife
      exact hlife

variable {run} in
theorem Tracks.after_erase (h : Tracks B l s) {rest : List (Slot κ)} (htodo : s.todo = x :: rest)
    (hmeets : Meets B (registered l (s.after run)) x false run.log) : Tracks B l (s.after run).erase := by
  have hrules : (s.after run).erase.done ++ (s.after run).erase.todo =
      s.done ++ rest ++ (added run.log).zipIdx s.nextIndex := by
    simp [State.erase, State.after, htodo]
  generalize hlog : run.log = log at hmeets
  cases hmeets with
  | ends hindex hquiet hev hend =>
    rename_i front ev
    refine ⟨?_, ?_, ?_⟩
    · show s.nextIndex + _ = (registered l (s.after run)).length
      rw [registered_after, List.length_append, ← h.next]
    · rw [hrules]
      refine List.forall_mem_append.2 ⟨fun y hy => h.rule_after run ?_, fun y hy => h.rule_added run hy⟩
      rw [htodo]
      exact (List.Sublist.append_left (List.sublist_cons_self x rest) s.done).subset hy
    · have hlife := h.life_after run
      rw [htodo, List.map_append, List.map_cons] at hlife
      have hlife := (hlife.retire hindex hquiet hev hend).register (added run.log).length
      rw [← List.zipIdx_map_snd s.nextIndex (added run.log), ← List.map_append, ← List.map_append, ← hrules,
        ← hlog] at hlife
      exact hlife

end

theorem Tracks.scannedOne (h : Tracks B l s) {rest : List (Slot κ)} {r : Option (PollFd × Bool)}
    (htodo : s.todo = x :: rest) (hr : (scan B x s.world).result = .ok r) :
    Tracks B l (s.scannedOne (scan B x s.world) r) := by
  have hx : x ∈ s.done ++ s.todo := by simp [htodo]
  have hreg := h.rule_after (scan B x s.world) hx
  rcases r with _ | ⟨p, interested⟩
  · exact h.after_erase htodo (meets_scan hreg (by simp [hr]))
  · refine (h.after hx (meets_scan hreg (by simp [hr]))).of_eq ?_ rfl rfl
    simp [State.scannedOne, State.advance, State.pushPollfd, State.after, htodo]

theorem Tracks.access (h : Tracks B l s) (x : Slot κ) (idx : ℕ) : Tracks B l (s.access x idx) :=
  h.of_eq rfl rfl rfl

theorem Tracks.served (h : Tracks B l s) {rest : List (Slot κ)} {idx : ℕ} {p : PollFd} {kept : Bool}
    (htodo : s.todo = x :: rest) (hb : (serve B x p s.world).result = .ok kept) :
    Tracks B l (s.served x idx (serve B x p s.world) kept) := by
  have hx : x ∈ (s.access x idx).done ++ (s.access x idx).todo := by simp [State.access, htodo]
  have hreg := (h.access x idx).rule_after (serve B x p s.world) hx
  cases kept with
  | false => exact (h.access x idx).after_erase htodo (meets_serve hreg (by simp [hb]))
  | true =>
    refine ((h.access x idx).after hx (meets_serve hreg (by simp [hb]))).of_eq ?_ rfl rfl
    simp [State.served, State.advance, State.access, State.after, htodo]

theorem invariant_tracks (B : Behaviour κ υ) (l : EventLoop κ) :
    Invariant B (Tracks B l) fun _ s => Tracks B l s where
  scan_ok h htodo hr := h.scannedOne htodo hr
  scan_error {s x _ _} h htodo he := by
    have hx : x ∈ s.done ++ s.todo := by simp [htodo]
    exact h.after hx (meets_scan (h.rule_after _ hx) (by simp [he]))
  outOfFuel h := h
  polled h _ := h.of_eq rfl rfl rfl
  serve_ok h htodo _ hb := h.served htodo hb
  serve_error {s x _ idx _ _} h htodo _ he := by
    have hx : x ∈ (s.access x idx).done ++ (s.access x idx).todo := by simp [State.access, htodo]
    exact (h.access x idx).after hx (meets_serve ((h.access x idx).rule_after _ hx) (by simp [he]))
  outOfBounds h _ _ := h.access _ _

theorem tracks_wait (B : Behaviour κ υ) (poll : List PollFd → ℤ → PollReturn) (timeoutMs : ℤ) (fuel : ℕ)
    (l : EventLoop κ) (w : World υ) : Tracks B l (finalState (waitNextEvent B poll timeoutMs fuel l w)) := by
  cases hout : waitNextEvent B poll timeoutMs fuel l w with
  | error stop => exact (invariant_tracks B l).of_error (Tracks.init B l w) hout
  | ok r => exact (invariant_tracks B l).of_ok (Tracks.init B l w) hout

/-! ### A whole session -/

/-- A loop and the program around it. The last four fields are what an observer notes: every rule that was
added, the numbers of those in the loop, and all that has run, under these numbers. -/
structure Session (κ υ : Type) where
  loop : EventLoop κ
  world : World υ
  /-- The call read outside its vector, or did not come to an end: there is no going on. -/
  stopped : Bool
  registered : List (Rule κ)
  live : List ℕ
  log : List (Event κ υ)

inductive Call (κ υ : Type)
  | addRule (r : Rule κ)
  | waitNextEvent (poll : List PollFd → ℤ → PollReturn) (timeoutMs : ℤ) (fuel : ℕ)
  | other (f : World υ → World υ)

/-- The call returned or threw. -/
def goesOn : Except (Stop × State κ υ) (Result × State κ υ) → Bool
  | .error (.outOfBounds, _) => false
  | .error (.outOfFuel, _) => false
  | _ => true

namespace Session

def init (w : World υ) : Session κ υ := ⟨⟨[]⟩, w, false, [], [], []⟩

variable (s : Session κ υ)

/-- The number in the session of the rule that a call now knows as `i`. -/
def number (i : ℕ) : ℕ := Registry.global s.live s.registered.length i

def relabel (ev : Event κ υ) : Event κ υ := { ev with index := s.number ev.index }

/-- The session after a call of `wait_next_event` that ended in the state `st`. -/
def waited (goesOn : Bool) (st : State κ υ) : Session κ υ where
  loop := st.loop
  world := st.world
  stopped := !goesOn
  registered := s.registered ++ added st.log
  live := ((st.done ++ st.todo).map Prod.snd).map s.number
  log := s.log ++ st.log.map s.relabel

def step (B : Behaviour κ υ) (call : Call κ υ) : Session κ υ :=
  if s.stopped then s
  else
    match call with
    | .addRule r =>
      { s with
        loop := s.loop.addRule r
        registered := s.registered ++ [r]
        live := s.live ++ [s.registered.length] }
    | .waitNextEvent poll timeoutMs fuel =>
      let out := waitNextEvent B poll timeoutMs fuel s.loop s.world
      s.waited (goesOn out) (finalState out)
    | .other f => { s with world := f s.world }

def machine (B : Behaviour κ υ) (w : World υ) : Machine (Session κ υ) (Call κ υ) := ⟨init w, fun s => s.step B⟩

structure Inv (B : Behaviour κ υ) (s : Session κ υ) : Prop where
  rules : s.loop.rules.map some = s.live.map (s.registered[·]?)
  life : Registry Event.index (Ended B s.registered) s.live s.registered.length s.log

namespace Inv
variable {s} {st : State κ υ}

theorem init (B : Behaviour κ υ) (w : World υ) : Inv B (init w) :=
  ⟨rfl, Registry.nil ..⟩

theorem life_append (h : Inv B s) (more : List (Rule κ)) :
    Registry Event.index (Ended B (s.registered ++ more)) s.live s.registered.length s.log :=
  h.life.congr fun _ hev => ended_append (h.life.lt _ hev) more

theorem length_live (h : Inv B s) : s.live.length = s.loop.rules.length := by
  simpa using (congrArg List.length h.rules).symm

theorem addRule (h : Inv B s) (r : Rule κ) : Inv B { s with
    loop := s.loop.addRule r
    registered := s.registered ++ [r]
    live := s.live ++ [s.registered.length] } := by
  refine ⟨?_, ?_⟩
  · show (s.loop.rules ++ [r]).map some = (s.live ++ [s.registered.length]).map ((s.registered ++ [r])[·]?)
    have hold : s.live.map ((s.registered ++ [r])[·]?) = s.live.map (s.registered[·]?) :=
      List.map_congr_left fun i hi => List.getElem?_append_left (h.life.live_lt hi)
    rw [List.map_append, List.map_append, hold, h.rules]
    simp
  · have hlife := (h.life_append [r]).register 1
    simpa [List.range'_succ] using hlife

/-- A rule has the same place in the session as the call has it. -/
theorem getElem?_number (h : Inv B s) (more : List (Rule κ)) (i : ℕ) :
    (s.registered ++ more)[s.number i]? = (s.loop.rules ++ more)[i]? := by
  have hlen := h.length_live
  by_cases hi : i < s.live.length
  · have hi' : i < s.loop.rules.length := by omega
    have hget : (s.loop.rules.map some)[i]? = (s.live.map (s.registered[·]?))[i]? := by rw [h.rules]
    rw [List.getElem?_map, List.getElem?_map, List.getElem?_eq_getElem hi, List.getElem?_eq_getElem hi'] at hget
    rw [number, List.getElem?_append_left (h.life.live_lt (Registry.global_mem hi)),
      List.getElem?_append_left hi', Registry.global_of_lt hi, List.getElem?_eq_getElem hi']
    exact (Option.some.inj hget).symm
  · rw [number, Registry.global_of_ge (Nat.le_of_not_lt hi), List.getElem?_append_right (by omega),
      List.getElem?_append_right (by omega)]
    congr 1
    omega

theorem waited (h : Inv B s) (hst : Tracks B s.loop st) (b : Bool) : Inv B (s.waited b st) := by
  have hlen := h.length_live
  have hnext : st.nextIndex = s.live.length + (added st.log).length := by
    rw [hst.next, EventLoop.registered, List.length_append, hlen]
  refine ⟨?_, ?_⟩
  · show ((st.done ++ st.todo).map Prod.fst).map some =
      (((st.done ++ st.todo).map Prod.snd).map s.number).map ((s.registered ++ added st.log)[·]?)
    rw [List.map_map, List.map_map, List.map_map]
    refine List.map_congr_left fun x hx => ?_
    exact ((h.getElem?_number (added st.log) x.2).trans (hst.rule x hx)).symm
  · have hends : ∀ ev ∈ st.log, Ended B (s.registered ++ added st.log) (s.relabel ev) ↔
        Ended B (EventLoop.registered s.loop st) ev := by
      intro ev _
      rw [Ended, Ended, relabel, h.getElem?_number]
      rfl
    have hjoin := (h.life_append (added st.log)).join hst.life (by omega) (fun _ => rfl) hends
    have hcount : s.registered.length + (st.nextIndex - s.live.length) = (s.registered ++ added st.log).length := by
      rw [hnext, List.length_append]
      omega
    rw [hcount] at hjoin
    exact hjoin

theorem step (h : Inv B s) (call : Call κ υ) : Inv B (s.step B call) := by
  unfold Session.step
  split
  · exact h
  · cases call with
    | addRule r => exact h.addRule r
    | waitNextEvent poll timeoutMs fuel => exact h.waited (tracks_wait B poll timeoutMs fuel s.loop s.world) _
    | other f => exact ⟨h.rules, h.life⟩

end Inv

theorem inv_run (B : Behaviour κ υ) (w : World υ) (calls : List (Call κ υ)) : Inv B ((machine B w).run calls) := by
  induction calls using List.reverseRecOn with
  | nil => exact .init B w
  | append_singleton calls call ih =>
    rw [Machine.run_concat]
    exact ih.step call

/-- While no cancel function throws, the cancel function of a rule runs once if the rule is gone, and has not
run if it is there. -/
theorem Inv.runs_cancel {s : Session κ υ} (h : Inv B s) (hcancel : ∀ k w, (B.cancel k w).result = .ok ()) (i : ℕ) :
    runs .cancel i s.log = if i < s.registered.length ∧ i ∉ s.live then 1 else 0 := by
  refine h.life.countP_ends fun ev hev => ?_
  have hended : Ended B s.registered ev ↔ ev.kind = .cancel := by
    exact and_iff_left ⟨_, List.getElem?_eq_getElem (h.life.lt ev hev), hcancel _ _⟩
  rw [hended, decide_eq_true_eq]

/-- In every session, with any functions and any results of `poll`: the loop holds the rules whose cancel
function has not returned, in the order in which they were added; once it has returned, nothing of the rule
runs again; and it runs exactly once if no cancel function throws. -/
theorem rules_live_until_cancelled (B : Behaviour κ υ) (w : World υ) (calls : List (Call κ υ)) :
    let s := (machine B w).run calls
    s.live.Pairwise (· < ·) ∧ s.loop.rules.map some = s.live.map (s.registered[·]?) ∧
    (∀ i, i ∈ s.live ↔ i < s.registered.length ∧ ∀ ev ∈ s.log, ev.index = i → ¬ Ended B s.registered ev) ∧
    (s.log.Pairwise fun ev ev' => Ended B s.registered ev → ev'.index ≠ ev.index) ∧
    ((∀ k w, (B.cancel k w).result = .ok ()) → ∀ i,
      runs .cancel i s.log = if i < s.registered.length ∧ i ∉ s.live then 1 else 0) := by
  intro s
  have h : Inv B s := inv_run B w calls
  exact ⟨h.life.sorted, h.rules, h.life.live_iff, h.life.last, h.runs_cancel⟩

end Session
end Sponge.EventLoop

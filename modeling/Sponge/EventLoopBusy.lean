import Sponge.EventLoopClosed
import Sponge.EventLoopLife

/-!
# Busy waiting

`poll` is level triggered: if a callback neither reads nor writes its descriptor and the rule stays
interested, the next `poll` returns at once, and so on forever. `wait_next_event` is to throw then, and only
then. `Turn` says all that a callback can come to, `Followed` what comes after it in the log of a call, and
`Cause` where an exception that leaves the call comes from. User code can throw whatever it likes, so an
exception with the text of the loop's own may be one of theirs.

The counters are 32 bits wide: a callback that reads 2^32 times has not read.
-/

namespace Sponge.EventLoop

variable {κ υ α : Type} {B : Behaviour κ υ} {reg : List (Rule κ)} {l : EventLoop κ} {s : State κ υ} {x : Slot κ}
  {p : PollFd} {w : World υ} {r : Rule κ} {cb : Event κ υ} {log log' post : List (Event κ υ)} {stop : Option Stop}
  {e : Exception}

def busyWait : Exception :=
  .runtimeError "EventLoop: busy wait detected: callback did not read/write fd and is still interested"

def polledError : Exception := .runtimeError "EventLoop: error on polled file descriptor"

/-- The entry is a run of an interest function. -/
def Event.Asks (ev : Event κ υ) : Prop := ∃ answer, ev.kind = .interest answer

/-- Between the worlds of the entry the descriptor of the rule was read or written, as its direction has it. -/
def Serviced (r : Rule κ) (ev : Event κ υ) : Prop := r.serviceCount ev.before ≠ r.serviceCount ev.after

def interestEvent (B : Behaviour κ υ) (r : Rule κ) (index : ℕ) (w : World υ) : Event κ υ :=
  ⟨.interest (B.interest r.fns w).result, index, w, (B.interest r.fns w).world, (B.interest r.fns w).added⟩

/-- All that can come of a ready rule: what is logged after its callback, and the result. -/
inductive Turn (B : Behaviour κ υ) (r : Rule κ) (cb : Event κ υ) : List (Event κ υ) → Except Exception Bool → Prop
  | threw {e : Exception} : (B.callback r.fns cb.before).result = .error e → Turn B r cb [] (.error e)
  | serviced : (B.callback r.fns cb.before).result = .ok () → Serviced r cb → Turn B r cb [] (.ok true)
  | interestThrew {e : Exception} : (B.callback r.fns cb.before).result = .ok () → ¬ Serviced r cb →
    (B.interest r.fns cb.after).result = .error e →
    Turn B r cb [interestEvent B r cb.index cb.after] (.error e)
  | busy : (B.callback r.fns cb.before).result = .ok () → ¬ Serviced r cb →
    (B.interest r.fns cb.after).result = .ok true →
    Turn B r cb [interestEvent B r cb.index cb.after] (.error busyWait)
  | resting : (B.callback r.fns cb.before).result = .ok () → ¬ Serviced r cb →
    (B.interest r.fns cb.after).result = .ok false →
    Turn B r cb [interestEvent B r cb.index cb.after] (.ok true)

theorem Turn.no_callback {result : Except Exception Bool} (h : Turn B r cb post result) :
    ∀ ev ∈ post, ev.kind ≠ .callback := by
  cases h with
  | threw => simp
  | serviced => simp
  | interestThrew | busy | resting => simp [interestEvent]

/-- What is logged after the run `cb` of the callback of `r` begins with its turn. If that threw, the call has
stopped there; if not, the call may go on, but not with an interest function. -/
def Followed (B : Behaviour κ υ) (r : Rule κ) (cb : Event κ υ) (post : List (Event κ υ)) (stop : Option Stop) :
    Prop :=
  ∃ turn rest result, post = turn ++ rest ∧ Turn B r cb turn result ∧
    match result with
    | .ok _ => ∀ ev ∈ rest.head?, ¬ ev.Asks
    | .error e => rest = [] ∧ stop = some (.threw e)

theorem Followed.append (h : Followed B r cb post none) (hhead : ∀ ev ∈ log'.head?, ¬ ev.Asks) :
    Followed B r cb (post ++ log') stop := by
  obtain ⟨turn, rest, result, rfl, hturn, hrest⟩ := h
  refine ⟨turn, rest ++ log', result, List.append_assoc .., hturn, ?_⟩
  cases result with
  | error e => cases hrest.2
  | ok b =>
    cases rest with
    | nil => exact hhead
    | cons ev rest => exact hrest

def Answered (B : Behaviour κ υ) (reg : List (Rule κ)) (log : List (Event κ υ)) (stop : Option Stop) : Prop :=
  ∀ front cb post, log = front ++ cb :: post → cb.kind = .callback →
    ∃ r, reg[cb.index]? = some r ∧ cb.after = (B.callback r.fns cb.before).world ∧ Followed B r cb post stop

theorem answered_of_no_callback (h : ∀ ev ∈ log, ev.kind ≠ .callback) : Answered B reg log stop := by
  rintro front cb post rfl hcb
  exact absurd hcb (h cb (by simp))

theorem Answered.append (h : Answered B reg log none) (h' : Answered B reg log' stop)
    (hhead : ∀ ev ∈ log'.head?, ¬ ev.Asks) : Answered B reg (log ++ log') stop := by
  intro front cb post heq hcb
  rcases List.append_eq_append_iff.1 heq with ⟨mid, -, hlog'⟩ | ⟨mid, hlog, hmid⟩
  · exact h' mid cb post hlog' hcb
  · cases mid with
    | nil => exact h' [] cb post hmid.symm hcb
    | cons ev mid =>
      obtain ⟨rfl, rfl⟩ := List.cons.inj hmid
      obtain ⟨r, hr, hafter, hfollowed⟩ := h front cb mid hlog hcb
      exact ⟨r, hr, hafter, hfollowed.append hhead⟩

theorem Answered.stopped (h : Answered B reg log none) : Answered B reg log stop := by
  have hstop : Answered B reg (log ++ []) stop := h.append (answered_of_no_callback (by simp)) (by simp)
  rwa [List.append_nil] at hstop

theorem Answered.registered (h : Answered B reg log stop) (more : List (Rule κ)) :
    Answered B (reg ++ more) log stop := by
  intro front cb post heq hcb
  obtain ⟨r, hr, hafter, hfollowed⟩ := h front cb post heq hcb
  refine ⟨r, ?_, hafter, hfollowed⟩
  rw [List.getElem?_append_left (List.getElem?_eq_some_iff.1 hr).1, hr]

/-! ### One pass of a loop -/

/-- The function that the entry records threw. -/
def Threw (B : Behaviour κ υ) (r : Rule κ) (ev : Event κ υ) (e : Exception) : Prop :=
  match ev.kind with
  | .scan => False
  | .interest _ => (B.interest r.fns ev.before).result = .error e
  | .cancel => (B.cancel r.fns ev.before).result = .error e
  | .callback => (B.callback r.fns ev.before).result = .error e

/-- The log ends with a function of the rule `r`, of number `i`, that threw, or with its callback and the answer
that makes the loop throw. -/
inductive Breaks (B : Behaviour κ υ) (r : Rule κ) (i : ℕ) : List (Event κ υ) → Exception → Prop
  | user (front : List (Event κ υ)) {ev : Event κ υ} {e : Exception} : ev.index = i → Threw B r ev e →
    Breaks B r i (front ++ [ev]) e
  | busy (front : List (Event κ υ)) {cb : Event κ υ} : cb.kind = .callback → cb.index = i → ¬ Serviced r cb →
    (B.interest r.fns cb.after).result = .ok true →
    Breaks B r i (front ++ [cb, interestEvent B r i cb.after]) busyWait

theorem Breaks.append {i : ℕ} (h : Breaks B r i log e) (front : List (Event κ υ)) :
    Breaks B r i (front ++ log) e := by
  cases h with
  | user _ hi hthrew => rw [← List.append_assoc]; exact .user _ hi hthrew
  | busy _ hkind hi hserv hans => rw [← List.append_assoc]; exact .busy _ hkind hi hserv hans

def stopOf : Except Exception α → Option Stop
  | .ok _ => none
  | .error e => some (.threw e)

theorem breaks_scan (he : (scan B x w).result = .error e) : Breaks B x.1 x.2 (scan B x w).log e := by
  by_cases hover : Over x w
  · rw [scan_of_over hover] at he ⊢
    exact .user [scanEvent x w] rfl (Reaction.map_eq_error he)
  · rw [scan_of_live hover] at he ⊢
    exact .user [scanEvent x w] rfl (Reaction.map_eq_error he)

theorem not_asks_head_scan (B : Behaviour κ υ) (x : Slot κ) (w : World υ) :
    ∀ ev ∈ (scan B x w).log.head?, ¬ ev.Asks := by
  have hhead : (scan B x w).log.head? = some (scanEvent x w) := by
    by_cases hover : Over x w
    · rw [scan_of_over hover]; rfl
    · rw [scan_of_live hover]; rfl
  rintro ev hev ⟨answer, hkind⟩
  rw [hhead] at hev
  obtain rfl := Option.some.inj hev
  cases hkind

def callbackEvent (B : Behaviour κ υ) (x : Slot κ) (w : World υ) : Event κ υ :=
  ⟨.callback, x.2, w, (B.callback x.1.fns w).world, (B.callback x.1.fns w).added⟩

theorem Turn.followed {result : Except Exception Bool} (h : Turn B r cb post result) :
    Followed B r cb post (stopOf result) := by
  refine ⟨post, [], result, (List.append_nil post).symm, h, ?_⟩
  cases result with
  | error e => exact ⟨rfl, rfl⟩
  | ok b => simp

theorem serve_turn (herr : p.error = false) (hready : p.ready = true) :
    ∃ post, (serve B x p w).log = callbackEvent B x w :: post ∧
      Turn B x.1 (callbackEvent B x w) post (serve B x p w).result := by
  rw [serve, if_neg (by simp [herr]), if_neg (by simp [PollFd.not_defunct_of_ready hready]), if_pos hready]
  simp only [Reaction.bind_pure]
  cases hcb : (B.callback x.1.fns w).result with
  | error e =>
    rw [Reaction.bind_of_error (x := B.runCallback x w) hcb]
    exact ⟨[], rfl, .threw hcb⟩
  | ok u =>
    rw [Reaction.bind_of_ok (x := B.runCallback x w) hcb]
    show ∃ post, (B.runCallback x w).log ++ (checkBusyWait B x _ (B.callback x.1.fns w).world).log = _ ∧
      Turn B x.1 _ post ((checkBusyWait B x _ (B.callback x.1.fns w).world).result.map fun _ => true)
    unfold checkBusyWait
    split
    · rename_i hcount
      have hserv : ¬ Serviced x.1 (callbackEvent B x w) := fun h => h hcount
      cases hans : (B.interest x.1.fns (B.callback x.1.fns w).world).result with
      | error e =>
        rw [Reaction.bind_of_error (x := B.runInterest x _) hans]
        exact ⟨_, rfl, .interestThrew hcb hserv hans⟩
      | ok b =>
        rw [Reaction.bind_of_ok (x := B.runInterest x _) hans]
        cases b with
        | true => exact ⟨_, rfl, .busy hcb hserv hans⟩
        | false => exact ⟨_, rfl, .resting hcb hserv hans⟩
    · rename_i hcount
      exact ⟨[], rfl, .serviced hcb hcount⟩

theorem serve_answered (p : PollFd) (w : World υ) (hreg : reg[x.2]? = some x.1) :
    Answered B reg (serve B x p w).log (stopOf (serve B x p w).result) := by
  cases herr : p.error with
  | true => rw [serve_of_error herr]; exact answered_of_no_callback (by simp)
  | false =>
    cases hdef : p.defunct with
    | true =>
      rw [serve_of_defunct herr hdef, log_runCancel]
      exact answered_of_no_callback (List.forall_mem_singleton.2 (by simp [cancelEvent]))
    | false =>
      cases hready : p.ready with
      | false => rw [serve_of_idle herr hdef hready]; exact answered_of_no_callback (by simp)
      | true =>
        obtain ⟨rest, hlog, hturn⟩ := serve_turn (B := B) (x := x) (w := w) herr hready
        intro front cb post heq hcb
        rw [hlog] at heq
        cases front with
        | nil =>
          obtain ⟨rfl, rfl⟩ := List.cons.inj heq
          exact ⟨x.1, hreg, rfl, hturn.followed⟩
        | cons ev front =>
          rw [List.cons_append] at heq
          obtain ⟨-, rfl⟩ := List.cons.inj heq
          exact absurd hcb (hturn.no_callback cb (by simp))

theorem not_asks_head_serve (B : Behaviour κ υ) (x : Slot κ) (p : PollFd) (w : World υ) :
    ∀ ev ∈ (serve B x p w).log.head?, ¬ ev.Asks := by
  cases herr : p.error with
  | true => rw [serve_of_error herr]; simp
  | false =>
    cases hdef : p.defunct with
    | true => rw [serve_of_defunct herr hdef, log_runCancel]; simp [cancelEvent, Event.Asks]
    | false =>
      cases hready : p.ready with
      | false => rw [serve_of_idle herr hdef hready]; simp
      | true =>
        obtain ⟨post, hlog, -⟩ := serve_turn (B := B) (x := x) (w := w) herr hready
        rw [hlog]
        simp [callbackEvent, Event.Asks]

theorem breaks_serve (he : (serve B x p w).result = .error e) :
    Breaks B x.1 x.2 (serve B x p w).log e ∨ e = polledError ∧ p.error = true := by
  cases herr : p.error with
  | true =>
    rw [serve_of_error herr] at he
    exact .inr ⟨(Except.error.inj he).symm, rfl⟩
  | false =>
    left
    cases hdef : p.defunct with
    | true =>
      rw [serve_of_defunct herr hdef] at he ⊢
      exact .user [] rfl (Reaction.map_eq_error he)
    | false =>
      cases hready : p.ready with
      | false => rw [serve_of_idle herr hdef hready] at he; cases he
      | true =>
        obtain ⟨post, hlog, hturn⟩ := serve_turn (B := B) (x := x) (w := w) herr hready
        rw [hlog]
        rw [he] at hturn
        cases hturn with
        | threw hcb => exact .user [] rfl hcb
        | interestThrew _ _ hans => exact .user [callbackEvent B x w] rfl hans
        | busy _ hserv hans => exact .busy [] rfl rfl hserv hans

/-! ### A whole call -/

/-- Where an exception that has left the call comes from. -/
inductive Cause (B : Behaviour κ υ) (l : EventLoop κ) (s : State κ υ) : Exception → Prop
  | log {r : Rule κ} {i : ℕ} {e : Exception} : (registered l s)[i]? = some r → Breaks B r i s.log e →
    Cause B l s e
  | polled {p : PollFd} : p ∈ s.pollfds → p.error = true → Cause B l s polledError

theorem answered_after {run : Run κ υ α} (h : Answered B (registered l s) s.log none)
    (hrun : Answered B (registered l (s.after run)) run.log stop) (hhead : ∀ ev ∈ run.log.head?, ¬ ev.Asks) :
    Answered B (registered l (s.after run)) (s.log ++ run.log) stop := by
  rw [registered_after] at hrun ⊢
  exact (h.registered _).append hrun hhead

/-- Between two passes all callbacks so far have been followed up. -/
structure Vigilant (B : Behaviour κ υ) (l : EventLoop κ) (s : State κ υ) : Prop where
  tracks : Tracks B l s
  answered : Answered B (registered l s) s.log none

theorem Vigilant.scan (h : Vigilant B l s) (x : Slot κ) (stop : Option Stop) :
    Answered B (registered l (s.after (scan B x s.world))) (s.log ++ (scan B x s.world).log) stop :=
  answered_after h.answered (answered_of_no_callback (kind_scan x s.world)) (not_asks_head_scan B x s.world)

theorem Vigilant.serve (h : Vigilant B l s) {rest : List (Slot κ)} (htodo : s.todo = x :: rest) (idx : ℕ)
    (p : PollFd) : Answered B (registered l ((s.access x idx).after (serve B x p s.world)))
      (s.log ++ (serve B x p s.world).log) (stopOf (serve B x p s.world).result) := by
  have hx : x ∈ (s.access x idx).done ++ (s.access x idx).todo := by simp [State.access, htodo]
  have hreg := (h.tracks.access x idx).rule_after (EventLoop.serve B x p s.world) hx
  exact answered_after (s := s.access x idx) h.answered (serve_answered p s.world hreg)
    (not_asks_head_serve B x p s.world)

theorem invariant_vigilant (B : Behaviour κ υ) (l : EventLoop κ) : Invariant B (Vigilant B l) fun stop s =>
    Answered B (registered l s) s.log (some stop) ∧ ∀ e, stop = .threw e → Cause B l s e where
  scan_ok {s x _ r} h htodo hr := by
    refine ⟨h.tracks.scannedOne htodo hr, ?_⟩
    cases r with
    | none => exact h.scan x none
    | some _ => exact h.scan x none
  scan_error {s x _ e} h htodo he := by
    have hx : x ∈ s.done ++ s.todo := by simp [htodo]
    refine ⟨h.scan x _, ?_⟩
    rintro _ ⟨⟩
    exact .log (h.tracks.rule_after _ hx) ((breaks_scan he).append s.log)
  outOfFuel h := ⟨h.answered.stopped, by rintro _ ⟨⟩⟩
  polled h out := ⟨h.tracks.of_eq rfl rfl rfl, h.answered⟩
  serve_ok {s x _ idx p kept} h htodo _ hb := by
    refine ⟨h.tracks.served htodo hb, ?_⟩
    have hserve := h.serve htodo idx p
    rw [hb] at hserve
    rw [State.served_log]
    cases kept with
    | false => exact hserve
    | true => exact hserve
  serve_error {s x _ idx p e} h htodo hp he := by
    have hx : x ∈ (s.access x idx).done ++ (s.access x idx).todo := by simp [State.access, htodo]
    have hserve := h.serve htodo idx p
    rw [he] at hserve
    refine ⟨hserve, ?_⟩
    rintro _ ⟨⟩
    rcases breaks_serve he with hbreaks | ⟨rfl, herr⟩
    · exact .log ((h.tracks.access x idx).rule_after _ hx) (hbreaks.append s.log)
    · exact .polled (List.mem_of_getElem? hp) herr
  outOfBounds h _ _ := ⟨h.answered.stopped, by rintro _ ⟨⟩⟩

def ending : Except (Stop × State κ υ) (Result × State κ υ) → Option Stop
  | .ok _ => none
  | .error (stop, _) => some stop

/-- Every run of a callback is followed up in the same way, and nothing else makes the call throw but user code
and `poll`. -/
theorem wait_detects_busy_wait (B : Behaviour κ υ) (poll : List PollFd → ℤ → PollReturn) (timeoutMs : ℤ)
    (fuel : ℕ) (l : EventLoop κ) (w : World υ) :
    let out := waitNextEvent B poll timeoutMs fuel l w
    (∀ front cb post, (finalState out).log = front ++ cb :: post → cb.kind = .callback →
      ∃ r, (registered l (finalState out))[cb.index]? = some r ∧
        cb.after = (B.callback r.fns cb.before).world ∧ Followed B r cb post (ending out)) ∧
    ∀ e, ending out = some (.threw e) → Cause B l (finalState out) e := by
  have hinit : Vigilant B l (State.init l w) := ⟨.init B l w, answered_of_no_callback (by simp [State.init])⟩
  intro out
  cases hout : out with
  | ok r => exact ⟨((invariant_vigilant B l).of_ok hinit hout).answered, by rintro e ⟨⟩⟩
  | error stop =>
    have h := (invariant_vigilant B l).of_error hinit hout
    exact ⟨h.1, fun e he => h.2 e (Option.some.inj he)⟩

end Sponge.EventLoop

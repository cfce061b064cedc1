import Sponge.FileDescriptor
import Sponge.Lib.Reaction

/-!
# The event loop (`libsponge/util/eventloop.cc`)

A rule names the `FDWrapper` it shares with all duplicates of its descriptor, and its three functions.
What these do is a parameter (`Behaviour`): each may change the world, throw, and add rules to the loop.
The one thing user code cannot do to a descriptor is to open it again once it is closed.

`waitNextEvent` keeps the list of rules split at the iterator: `erase` drops the rule under it, `advance`
steps over it, and added rules go to the end of the list, which both loops run up to. A rule is known
through the whole call by its number, those added in the call being numbered from the length of the list
on; the entry of the vector `pollfds` remembers the number of the rule it was built for. The log records
which user function ran in which world. Reading the vector past its end is `Stop.outOfBounds`.

In the setup loop a cancel function may add a rule that is cancelled at once, and so on without end; the
model of that loop has fuel. The dispatch loop moves on in the vector with every pass.
-/

namespace Sponge

namespace EventLoop

inductive Direction
  | In
  | Out
deriving DecidableEq, Repr

def pollIn : UInt16 := 0x001
def pollOut : UInt16 := 0x004
def pollErr : UInt16 := 0x008
def pollHup : UInt16 := 0x010
def pollNval : UInt16 := 0x020

def eintr : ℤ := 4

def Direction.events : Direction → UInt16
  | .In => pollIn
  | .Out => pollOut

/-- The descriptors, by the identity of their shared wrapper, and everything else user code acts on. -/
structure World (υ : Type) where
  descriptors : ℕ → FDWrapper
  user : υ

structure Rule (κ : Type) where
  fd : ℕ
  direction : Direction
  fns : κ
deriving DecidableEq, Repr

variable {κ υ α : Type}

def Rule.serviceCount (r : Rule κ) (w : World υ) : UInt32 :=
  match r.direction with
  | .In => (w.descriptors r.fd).readCount
  | .Out => (w.descriptors r.fd).writeCount

/-- What a call of a user function comes to, with the rules it added. -/
structure Effect (κ υ α : Type) where
  result : Except Exception α
  world : World υ
  added : List (Rule κ)

def ClosedStays (f : World υ → Effect κ υ α) : Prop :=
  ∀ w d, (w.descriptors d).closed = true → ((f w).world.descriptors d).closed = true

structure Behaviour (κ υ : Type) where
  callback : κ → World υ → Effect κ υ Unit
  interest : κ → World υ → Effect κ υ Bool
  cancel : κ → World υ → Effect κ υ Unit
  closed_callback : ∀ k, ClosedStays (callback k)
  closed_interest : ∀ k, ClosedStays (interest k)
  closed_cancel : ∀ k, ClosedStays (cancel k)

/-- The functions leave the list of rules alone. -/
structure Behaviour.AddsNothing (B : Behaviour κ υ) : Prop where
  callback : ∀ k w, (B.callback k w).added = []
  interest : ∀ k w, (B.interest k w).added = []
  cancel : ∀ k w, (B.cancel k w).added = []

inductive Kind
  | scan
  | interest (answer : Except Exception Bool)
  | cancel
  | callback
deriving DecidableEq

/-- The setup loop comes to the rule `index`, or a function of that rule runs. -/
structure Event (κ υ : Type) where
  kind : Kind
  index : ℕ
  before : World υ
  after : World υ
  added : List (Rule κ)

abbrev Run (κ υ α : Type) := Reaction (World υ) (Event κ υ) Exception α

/-- A rule and its number. -/
abbrev Slot (κ : Type) := Rule κ × ℕ

structure PollFd where
  owner : ℕ
  fd : ℤ
  events : UInt16
  revents : UInt16
deriving DecidableEq

def invoke (kind : Except Exception α → Kind) (index : ℕ) (f : World υ → Effect κ υ α) (w : World υ) :
    Run κ υ α :=
  ⟨(f w).result, (f w).world, [⟨kind (f w).result, index, w, (f w).world, (f w).added⟩]⟩

namespace Behaviour

variable (B : Behaviour κ υ) (x : Slot κ)

def runCallback : World υ → Run κ υ Unit := invoke (fun _ => .callback) x.2 (B.callback x.1.fns)

def runInterest : World υ → Run κ υ Bool := invoke .interest x.2 (B.interest x.1.fns)

def runCancel : World υ → Run κ υ Unit := invoke (fun _ => .cancel) x.2 (B.cancel x.1.fns)

end Behaviour

/-- The body of the setup loop; `none` stands for a rule that is cancelled and erased, and the second
component for the assignment to `something_to_poll`. -/
def scan (B : Behaviour κ υ) (x : Slot κ) (w : World υ) : Run κ υ (Option (PollFd × Bool)) :=
  Reaction.bind ⟨.ok (), w, [⟨.scan, x.2, w, w, []⟩]⟩ fun _ w =>
    if x.1.direction = .In ∧ (w.descriptors x.1.fd).eof = true then
      (B.runCancel x w).bind fun _ w => .pure none w
    else if (w.descriptors x.1.fd).closed = true then
      (B.runCancel x w).bind fun _ w => .pure none w
    else
      (B.runInterest x w).bind fun interested w =>
        if interested then .pure (some (⟨x.2, (w.descriptors x.1.fd).fd, x.1.direction.events, 0⟩, true)) w
        else .pure (some (⟨x.2, (w.descriptors x.1.fd).fd, 0, 0⟩, false)) w

def PollFd.error (p : PollFd) : Bool := p.revents &&& (pollErr ||| pollNval) != 0

def PollFd.ready (p : PollFd) : Bool := p.revents &&& p.events != 0

def PollFd.hup (p : PollFd) : Bool := p.revents &&& pollHup != 0

/-- We asked for the status and the only condition was a hangup. -/
def PollFd.defunct (p : PollFd) : Bool := p.hup && p.events != 0 && !p.ready

/-- Only check for busy wait if we're not canceling or exiting. -/
def checkBusyWait (B : Behaviour κ υ) (x : Slot κ) (countBefore : UInt32) (w : World υ) : Run κ υ Unit :=
  if countBefore = x.1.serviceCount w then
    (B.runInterest x w).bind fun interested w =>
      if interested then
        .throw (.runtimeError
          "EventLoop: busy wait detected: callback did not read/write fd and is still interested") w
      else .pure () w
  else .pure () w

/-- The body of the dispatch loop: is the rule kept? -/
def serve (B : Behaviour κ υ) (x : Slot κ) (p : PollFd) (w : World υ) : Run κ υ Bool :=
  if p.error then .throw (.runtimeError "EventLoop: error on polled file descriptor") w
  else if p.defunct then (B.runCancel x w).bind fun _ w => .pure false w
  else if p.ready then
    (B.runCallback x w).bind fun _ w' =>
      (checkBusyWait B x (x.1.serviceCount w) w').bind fun _ w'' => .pure true w''
  else .pure true w

/-! ### The loops -/

inductive Stop
  | threw (e : Exception)
  | outOfBounds
  | outOfFuel
deriving DecidableEq, Repr

structure State (κ υ : Type) where
  done : List (Slot κ)
  todo : List (Slot κ)
  nextIndex : ℕ
  pollfds : List PollFd
  somethingToPoll : Bool
  world : World υ
  log : List (Event κ υ)
  /-- The reads `pollfds[idx]` of the dispatch loop, each with the number of the rule it was made for. -/
  accesses : List (ℕ × ℕ)

def added (log : List (Event κ υ)) : List (Rule κ) := log.flatMap Event.added

end EventLoop

structure EventLoop (κ : Type) where
  rules : List (EventLoop.Rule κ)

namespace EventLoop

variable {κ υ : Type}

def addRule (l : EventLoop κ) (r : Rule κ) : EventLoop κ := ⟨l.rules ++ [r]⟩

namespace State

def init (l : EventLoop κ) (w : World υ) : State κ υ :=
  ⟨[], l.rules.zipIdx, l.rules.length, [], false, w, [], []⟩

variable (s : State κ υ)

/-- The loop object in this state. -/
def loop : EventLoop κ := ⟨(s.done ++ s.todo).map Prod.fst⟩

/-- User code has run: the rules it added are at the end of the list. -/
def after {α : Type} (x : Run κ υ α) : State κ υ :=
  { s with
    todo := s.todo ++ (added x.log).zipIdx s.nextIndex
    nextIndex := s.nextIndex + (added x.log).length
    world := x.world
    log := s.log ++ x.log }

def erase : State κ υ := { s with todo := s.todo.tail }

def advance : State κ υ := { s with done := s.done ++ s.todo.take 1, todo := s.todo.tail }

def pushPollfd (p : PollFd) (interested : Bool) : State κ υ :=
  { s with pollfds := s.pollfds ++ [p], somethingToPoll := s.somethingToPoll || interested }

def access (x : Slot κ) (idx : ℕ) : State κ υ := { s with accesses := s.accesses ++ [(x.2, idx)] }

end State

theorem foldl_addRule (l : EventLoop κ) (rs : List (Rule κ)) : rs.foldl addRule l = ⟨l.rules ++ rs⟩ := by
  induction rs generalizing l with
  | nil => rw [List.append_nil]; rfl
  | cons r rs ih => rw [List.foldl_cons, ih, addRule, List.append_assoc, List.singleton_append]

/-- User code changes the loop by `add_rule` only. -/
theorem State.loop_after {α : Type} (s : State κ υ) (x : Run κ υ α) :
    (s.after x).loop = (added x.log).foldl addRule s.loop := by
  simp [foldl_addRule, State.loop, State.after]

def setup (B : Behaviour κ υ) : ℕ → State κ υ → Except (Stop × State κ υ) (State κ υ)
  | 0, s => if s.todo.isEmpty then .ok s else .error (.outOfFuel, s)
  | fuel + 1, s =>
    match s.todo with
    | [] => .ok s
    | x :: _ =>
      let run := scan B x s.world
      match run.result with
      | .error e => .error (.threw e, s.after run)
      | .ok none => setup B fuel (s.after run).erase
      | .ok (some (p, interested)) => setup B fuel ((s.after run).pushPollfd p interested).advance

def dispatch (B : Behaviour κ υ) (idx : ℕ) (s : State κ υ) : Except (Stop × State κ υ) (State κ υ) :=
  match s.todo with
  | [] => .ok s
  | x :: _ =>
    match _hp : s.pollfds[idx]? with
    | none => .error (.outOfBounds, s.access x idx)
    | some p =>
      let run := serve B x p s.world
      match run.result with
      | .error e => .error (.threw e, (s.access x idx).after run)
      | .ok true => dispatch B (idx + 1) ((s.access x idx).after run).advance
      | .ok false => dispatch B (idx + 1) ((s.access x idx).after run).erase
termination_by s.pollfds.length - idx
decreasing_by
  all_goals
    have hlt := (List.getElem?_eq_some_iff.1 _hp).1
    show s.pollfds.length - (idx + 1) < s.pollfds.length - idx
    omega

inductive Result
  | success
  | timeout
  | exit
deriving DecidableEq, Repr

/-- What `poll` returned, and the events it reported for each entry of the vector. -/
structure PollReturn extends SyscallReturn where
  revents : ℕ → UInt16

/-- The vector after `poll`, which writes to it only if it succeeds, and the iterator at the start. -/
def State.polled (s : State κ υ) (out : PollReturn) : State κ υ :=
  { s with
    done := []
    todo := s.done ++ s.todo
    pollfds :=
      if 0 ≤ out.value then s.pollfds.mapIdx fun i p => { p with revents := out.revents i } else s.pollfds }

/-- The `try` block: a result to return, or `none` to go on to the dispatch loop. -/
def pollResult (out : PollReturn) : Except Exception (Option Result) :=
  match systemCall "poll" out.value out.errno 0 with
  | .ok n => .ok (if n = 0 then some .timeout else none)
  | .error (.unixError _ error) => .ok (if error = eintr then some .exit else none)
  | .error e => .error e

def waitNextEvent (B : Behaviour κ υ) (poll : List PollFd → ℤ → PollReturn) (timeoutMs : ℤ) (fuel : ℕ)
    (l : EventLoop κ) (w : World υ) : Except (Stop × State κ υ) (Result × State κ υ) := do
  let s ← setup B fuel (.init l w)
  if !s.somethingToPoll then return (.exit, s)
  let out := poll s.pollfds timeoutMs
  match pollResult out with
  | .error e => .error (.threw e, s.polled out)
  | .ok (some r) => return (r, s.polled out)
  | .ok none =>
    let s ← dispatch B 0 (s.polled out)
    return (.success, s)

/-! ### Scripted user functions -/

/-- What the callback of a script can do: read from or close a descriptor, or add a rule. -/
inductive Deed
  | read (d : ℕ)
  | close (d : ℕ)
  | add (r : Rule ℕ)

def Deed.run (f : ℕ → FDWrapper) : Deed → ℕ → FDWrapper
  | .read d => fun d' => if d' = d then (f d).registerRead else f d'
  | .close d => fun d' => if d' = d then { f d with eof := true, closed := true } else f d'
  | .add _ => f

def Deed.rule : Deed → Option (Rule ℕ)
  | .add r => some r
  | _ => none

theorem Deed.closed_run {f : ℕ → FDWrapper} {d : ℕ} (h : (f d).closed = true) (a : Deed) :
    (a.run f d).closed = true := by
  cases a with
  | read d' =>
    by_cases hd : d = d'
    · subst hd; simpa [Deed.run, FDWrapper.registerRead] using h
    · simpa [Deed.run, hd] using h
  | close d' =>
    by_cases hd : d = d'
    · simp [Deed.run, hd]
    · simpa [Deed.run, hd] using h
  | add r => exact h

def script (deeds : List Deed) (w : World Unit) : Effect ℕ Unit Unit :=
  ⟨.ok (), ⟨deeds.foldl Deed.run w.descriptors, ()⟩, deeds.filterMap Deed.rule⟩

theorem closedStays_script (deeds : List Deed) : ClosedStays (script deeds) := by
  intro w d h
  show (deeds.foldl Deed.run w.descriptors d).closed = true
  induction deeds generalizing w with
  | nil => exact h
  | cons a deeds ih => exact ih ⟨a.run w.descriptors, ()⟩ (Deed.closed_run h a)

/-- Rules whose functions are scripts; their cancel functions do nothing. -/
def scripted (interested : ℕ → Bool) (deeds : ℕ → List Deed) : Behaviour ℕ Unit where
  callback k := script (deeds k)
  interest k w := ⟨.ok (interested k), w, []⟩
  cancel _ w := ⟨.ok (), w, []⟩
  closed_callback k := closedStays_script (deeds k)
  closed_interest _ _ _ h := h
  closed_cancel _ _ _ h := h

theorem addsNothing_scripted {interested : ℕ → Bool} {deeds : ℕ → List Deed}
    (h : ∀ k, ∀ a ∈ deeds k, a.rule = none) : (scripted interested deeds).AddsNothing where
  callback k _ := List.filterMap_eq_nil_iff.2 (h k)
  interest _ _ := rfl
  cancel _ _ := rfl

/-- All descriptors are open. -/
def openWorld : World Unit := ⟨fun d => ⟨d, false, false, 0, 0, Int.natCast_nonneg d⟩, ()⟩

/-- A kernel that reports these events, whatever it is asked for. -/
def reports (revents : List UInt16) : List PollFd → ℤ → PollReturn := fun _ _ =>
  ⟨⟨(revents.countP (· ≠ 0) : ℕ), 0, by omega, by omega⟩, fun i => revents.getD i 0⟩

end EventLoop
end Sponge

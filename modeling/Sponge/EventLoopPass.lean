import Sponge.EventLoop

/-!
# The two loops as passes over the rules

What `wait_next_event` is for: `scanAll` scans every rule once, and `serveAll` serves every rule once with
the entry of the vector that was built for it. The loops of the source erase rules as they go, walk the
vector by an index of their own and run up to an end that may move. `setup_pass_ok` and `dispatch_pass_ok`
say how far they are these passes: the first as long as nobody adds a rule, the second always, but then
the loop goes on with the rules added meanwhile. `outcome_wait` puts the two together.

What a rule can do in either pass is run its own functions (`Observes`), and every law of logs comes down
to these.
-/

namespace Sponge.EventLoop

variable {κ υ α : Type} {B : Behaviour κ υ} {x : Slot κ} {p : PollFd} {w : World υ}

/-- When it is scanned, the rule is to be cancelled: no more reading, or the descriptor is closed. -/
def Over (x : Slot κ) (w : World υ) : Prop :=
  x.1.direction = .In ∧ (w.descriptors x.1.fd).eof = true ∨ (w.descriptors x.1.fd).closed = true

instance (x : Slot κ) (w : World υ) : Decidable (Over x w) := inferInstanceAs (Decidable (_ ∨ _))

def scanEvent (x : Slot κ) (w : World υ) : Event κ υ := ⟨.scan, x.2, w, w, []⟩

theorem scan_of_over (h : Over x w) : scan B x w =
    ⟨(B.cancel x.1.fns w).result.map fun _ => none, (B.cancel x.1.fns w).world,
      scanEvent x w :: (B.runCancel x w).log⟩ := by
  have hcancel : ((B.runCancel x w).bind fun _ w => .pure none w : Run κ υ (Option (PollFd × Bool))) =
      ⟨(B.cancel x.1.fns w).result.map fun _ => none, (B.cancel x.1.fns w).world, (B.runCancel x w).log⟩ :=
    Reaction.bind_pure ..
  rw [scan, Reaction.bind_of_ok rfl]
  by_cases heof : x.1.direction = .In ∧ (w.descriptors x.1.fd).eof = true
  · simp only [if_pos heof, hcancel]; rfl
  · simp only [if_neg heof, if_pos (h.resolve_left heof), hcancel]; rfl

/-- The entry of the vector for the rule, given what its interest function answered. -/
def entry (x : Slot κ) (w : World υ) (interested : Bool) : PollFd :=
  ⟨x.2, (w.descriptors x.1.fd).fd, if interested then x.1.direction.events else 0, 0⟩

theorem scan_of_live (h : ¬ Over x w) : scan B x w =
    ⟨(B.interest x.1.fns w).result.map fun b => some (entry x (B.interest x.1.fns w).world b, b),
      (B.interest x.1.fns w).world, scanEvent x w :: (B.runInterest x w).log⟩ := by
  have hentry : (fun (b : Bool) (w : World υ) =>
      if b then .pure (some (⟨x.2, (w.descriptors x.1.fd).fd, x.1.direction.events, 0⟩, true)) w
      else .pure (some (⟨x.2, (w.descriptors x.1.fd).fd, 0, 0⟩, false)) w) =
      fun b w => (.pure (some (entry x w b, b)) w : Run κ υ (Option (PollFd × Bool))) := by
    funext b w
    cases b <;> rfl
  rw [scan, Reaction.bind_of_ok rfl]
  simp only [if_neg fun heof => h (.inl heof), if_neg fun hclosed => h (.inr hclosed), hentry,
    Reaction.bind_pure]
  rfl

theorem serve_of_error (h : p.error = true) : serve B x p w =
    ⟨.error (.runtimeError "EventLoop: error on polled file descriptor"), w, []⟩ := by
  rw [serve, if_pos h]; rfl

theorem serve_of_defunct (herr : p.error = false) (h : p.defunct = true) : serve B x p w =
    ⟨(B.cancel x.1.fns w).result.map fun _ => false, (B.cancel x.1.fns w).world, (B.runCancel x w).log⟩ := by
  rw [serve, if_neg (by simp [herr]), if_pos h]
  exact Reaction.bind_pure ..

theorem serve_of_idle (herr : p.error = false) (hdef : p.defunct = false) (h : p.ready = false) :
    serve B x p w = ⟨.ok true, w, []⟩ := by
  rw [serve, if_neg (by simp [herr]), if_neg (by simp [hdef]), if_neg (by simp [h])]; rfl

theorem PollFd.not_defunct_of_ready (h : p.ready = true) : p.defunct = false := by
  simp [PollFd.defunct, h]

theorem log_checkBusyWait (B : Behaviour κ υ) (x : Slot κ) (n : UInt32) (w : World υ) :
    (checkBusyWait B x n w).log = [] ∨ (checkBusyWait B x n w).log = (B.runInterest x w).log := by
  unfold checkBusyWait
  split
  · refine .inr (Reaction.log_bind_of_silent fun b w => ?_)
    cases b <;> rfl
  · exact .inl rfl

/-- A ready rule runs its callback and then, if that neither read nor wrote, its interest function. -/
theorem serve_of_ready (herr : p.error = false) (h : p.ready = true) :
    ((serve B x p w).log = (B.runCallback x w).log ∨
      (serve B x p w).log =
        (B.runCallback x w).log ++ (B.runInterest x (B.callback x.1.fns w).world).log) ∧
    ∀ kept, (serve B x p w).result = .ok kept → kept = true := by
  rw [serve, if_neg (by simp [herr]), if_neg (by simp [PollFd.not_defunct_of_ready h]), if_pos h]
  simp only [Reaction.bind_pure]
  cases hcb : (B.callback x.1.fns w).result with
  | error e =>
    rw [Reaction.bind_of_error (x := B.runCallback x w) hcb]
    exact ⟨.inl rfl, fun kept hk => by cases hk⟩
  | ok u =>
    rw [Reaction.bind_of_ok (x := B.runCallback x w) hcb]
    refine ⟨?_, fun kept hk => ?_⟩
    · rcases log_checkBusyWait B x (x.1.serviceCount w) (B.callback x.1.fns w).world with hlog | hlog
      · left
        show (B.runCallback x w).log ++ (checkBusyWait B x _ (B.callback x.1.fns w).world).log = _
        rw [hlog, List.append_nil]
      · right
        show (B.runCallback x w).log ++ (checkBusyWait B x _ (B.callback x.1.fns w).world).log = _
        rw [hlog]
    · obtain ⟨u, -, rfl⟩ := Reaction.map_eq_ok hk
      rfl

/-- `R` is a law of logs and holds of all that can be logged for the rule `x`. -/
structure Observes (B : Behaviour κ υ) (x : Slot κ) (R : World υ → List (Event κ υ) → World υ → Prop) : Prop
    extends Reaction.Law R where
  scan : ∀ w, R w [scanEvent x w] w
  callback : ∀ w, R w (B.runCallback x w).log (B.runCallback x w).world
  interest : ∀ w, R w (B.runInterest x w).log (B.runInterest x w).world
  cancel : ∀ w, R w (B.runCancel x w).log (B.runCancel x w).world

section
variable {R : World υ → List (Event κ υ) → World υ → Prop}

theorem Observes.of_scan (h : Observes B x R) (w : World υ) :
    R w (EventLoop.scan B x w).log (EventLoop.scan B x w).world := by
  by_cases hover : Over x w
  · rw [scan_of_over hover]; exact h.trans (h.scan w) (h.cancel w)
  · rw [scan_of_live hover]; exact h.trans (h.scan w) (h.interest w)

theorem Observes.of_serve (h : Observes B x R) (p : PollFd) (w : World υ) :
    R w (serve B x p w).log (serve B x p w).world := by
  unfold serve
  split
  · exact h.refl w
  split
  · exact h.toLaw.bind (h.cancel w) fun _ _ => h.refl _
  split
  · refine h.toLaw.bind (h.callback w) fun _ _ => h.toLaw.bind ?_ fun _ _ => h.refl _
    unfold checkBusyWait
    split
    · refine h.toLaw.bind (h.interest _) fun b _ => ?_
      cases b <;> exact h.refl _
    · exact h.refl _
  · exact h.refl w

end

def scanAll (B : Behaviour κ υ) : List (Slot κ) → World υ → Run κ υ (List (Option (PollFd × Bool))) :=
  Reaction.pass (scan B)

def serveAll (B : Behaviour κ υ) : List (Slot κ × PollFd) → World υ → Run κ υ (List Bool) :=
  Reaction.pass fun y => serve B y.1 y.2

theorem serveAll_cons_ok {items : List (Slot κ × PollFd)} {b : Bool} (h : (serve B x p w).result = .ok b) :
    serveAll B ((x, p) :: items) w =
      ⟨(serveAll B items (serve B x p w).world).result.map (b :: ·), (serveAll B items (serve B x p w).world).world,
        (serve B x p w).log ++ (serveAll B items (serve B x p w).world).log⟩ :=
  Reaction.pass_cons_ok (a := (x, p)) h

theorem serveAll_cons_error {items : List (Slot κ × PollFd)} {e : Exception}
    (h : (serve B x p w).result = .error e) :
    serveAll B ((x, p) :: items) w = ⟨.error e, (serve B x p w).world, (serve B x p w).log⟩ :=
  Reaction.pass_cons_error (a := (x, p)) h

/-- The rules that a pass keeps. -/
def keepers : List (Slot κ) → List Bool → List (Slot κ)
  | x :: xs, true :: kept => x :: keepers xs kept
  | _ :: xs, false :: kept => keepers xs kept
  | _, _ => []

/-- The state when a pass with the outcome `run` has moved the iterator over some rules, of which it
kept `kept`, up to `rest`. -/
def State.passed (s : State κ υ) (kept rest : List (Slot κ)) (run : Run κ υ α) : State κ υ :=
  { s with
    done := s.done ++ kept
    todo := rest ++ (added run.log).zipIdx s.nextIndex
    nextIndex := s.nextIndex + (added run.log).length
    world := run.world
    log := s.log ++ run.log }

def State.accessed (s : State κ υ) (xs : List (Slot κ)) (idx : ℕ) : State κ υ :=
  { s with accesses := s.accesses ++ (xs.map Prod.snd).zipIdx idx }

section Dispatch
variable {s : State κ υ} {idx : ℕ} {old new : List (Slot κ)}

theorem dispatch_of_nil (B : Behaviour κ υ) (h : s.todo = []) : dispatch B idx s = .ok s := by
  rw [dispatch]; simp [h]

theorem dispatch_of_none (B : Behaviour κ υ) (h : s.todo = x :: new) (hp : s.pollfds[idx]? = none) :
    dispatch B idx s = .error (.outOfBounds, s.access x idx) := by
  rw [dispatch]
  split
  · simp_all
  · rename_i hx
    rw [h] at hx
    cases hx
    split <;> simp_all

theorem dispatch_of_some (h : s.todo = x :: new) (hp : s.pollfds[idx]? = some p) : dispatch B idx s =
    match (serve B x p s.world).result with
    | .error e => .error (.threw e, (s.access x idx).after (serve B x p s.world))
    | .ok true => dispatch B (idx + 1) ((s.access x idx).after (serve B x p s.world)).advance
    | .ok false => dispatch B (idx + 1) ((s.access x idx).after (serve B x p s.world)).erase := by
  rw [dispatch]
  split
  · simp_all
  · rename_i hx
    rw [h] at hx
    cases hx
    split
    · simp_all
    · rename_i hp'
      rw [hp] at hp'
      cases hp'
      rfl

theorem added_append (l l' : List (Event κ υ)) : added (l ++ l') = added l ++ added l' := List.flatMap_append

theorem zip_drop_cons {xs : List (Slot κ)} {ps : List PollFd} (hp : ps[idx]? = some p) :
    (x :: xs).zip (ps.drop idx) = (x, p) :: xs.zip (ps.drop (idx + 1)) := by
  obtain ⟨hlt, rfl⟩ := List.getElem?_eq_some_iff.1 hp
  rw [List.drop_eq_getElem_cons hlt, List.zip_cons_cons]

/-- The state after one pass of the dispatch loop. -/
def State.served (s : State κ υ) (x : Slot κ) (idx : ℕ) (run : Run κ υ α) (kept : Bool) : State κ υ :=
  if kept then ((s.access x idx).after run).advance else ((s.access x idx).after run).erase

section
variable (s : State κ υ) (x : Slot κ) (idx : ℕ) (run : Run κ υ α) (kept : Bool)

@[simp] theorem State.served_pollfds : (s.served x idx run kept).pollfds = s.pollfds := by cases kept <;> rfl

@[simp] theorem State.served_world : (s.served x idx run kept).world = run.world := by cases kept <;> rfl

@[simp] theorem State.served_log : (s.served x idx run kept).log = s.log ++ run.log := by cases kept <;> rfl

@[simp] theorem State.served_accesses : (s.served x idx run kept).accesses = s.accesses ++ [(x.2, idx)] := by
  cases kept <;> rfl

end

theorem dispatch_of_ok {b : Bool} (h : s.todo = x :: new) (hp : s.pollfds[idx]? = some p)
    (hb : (serve B x p s.world).result = .ok b) :
    dispatch B idx s = dispatch B (idx + 1) (s.served x idx (serve B x p s.world) b) := by
  rw [dispatch_of_some h hp, hb]
  cases b <;> rfl

theorem State.served_todo {run : Run κ υ α} {b : Bool} (h : s.todo = x :: new) :
    (s.served x idx run b).todo = new ++ (added run.log).zipIdx s.nextIndex := by
  cases b <;> simp [State.served, State.advance, State.erase, State.after, State.access, h]

/-- The dispatch loop serves the rules it finds with the entries from `idx` on, and then goes on with
the rules that were added meanwhile. -/
theorem dispatch_pass_ok (s : State κ υ) (idx : ℕ) (old new : List (Slot κ)) {kept : List Bool}
    (htodo : s.todo = old ++ new) (hlen : s.pollfds.length = idx + old.length)
    (hres : (serveAll B (old.zip (s.pollfds.drop idx)) s.world).result = .ok kept) :
    dispatch B idx s = dispatch B (idx + old.length)
      ((s.passed (keepers old kept) new (serveAll B (old.zip (s.pollfds.drop idx)) s.world)).accessed old idx) := by
  induction old generalizing s idx new kept with
  | nil =>
    obtain rfl : [] = kept := Except.ok.inj hres
    obtain rfl : s.todo = new := by simpa using htodo
    congr 1
    simp [State.passed, State.accessed, serveAll, added, keepers]
  | cons x old ih =>
    rw [List.length_cons] at hlen
    rw [List.cons_append] at htodo
    obtain ⟨p, hp⟩ : ∃ p, s.pollfds[idx]? = some p := ⟨_, List.getElem?_eq_getElem (by omega)⟩
    rw [zip_drop_cons hp] at hres ⊢
    obtain ⟨b, kept, hb, hrest, rfl⟩ := Reaction.pass_cons_result hres
    have hnext := ih (s.served x idx (serve B x p s.world) b) (idx + 1)
      (new ++ (added (serve B x p s.world).log).zipIdx s.nextIndex)
      (by rw [State.served_todo htodo, List.append_assoc]) (by rw [State.served_pollfds]; omega)
      (by rw [State.served_pollfds, State.served_world]; exact hrest)
    rw [dispatch_of_ok htodo hp hb, serveAll_cons_ok hb, hnext, State.served_pollfds, State.served_world]
    congr 1
    · rw [List.length_cons]; omega
    · cases b <;> simp [State.served, State.passed, State.accessed, State.advance, State.erase, State.after,
        State.access, keepers, added_append, List.zipIdx_append, htodo, Nat.add_assoc, List.zipIdx_cons]

/-- If a rule throws, so does the loop, with the same log; all it has read are entries from `idx` on. -/
theorem dispatch_pass_error (s : State κ υ) (idx : ℕ) (old new : List (Slot κ)) {e : Exception}
    (htodo : s.todo = old ++ new) (hlen : s.pollfds.length = idx + old.length)
    (hres : (serveAll B (old.zip (s.pollfds.drop idx)) s.world).result = .error e) :
    ∃ s' n, dispatch B idx s = .error (.threw e, s') ∧ s'.pollfds = s.pollfds ∧
      s'.log = s.log ++ (serveAll B (old.zip (s.pollfds.drop idx)) s.world).log ∧
      s'.accesses = s.accesses ++ ((old.map Prod.snd).zipIdx idx).take n := by
  induction old generalizing s idx new with
  | nil => cases hres
  | cons x old ih =>
    rw [List.length_cons] at hlen
    rw [List.cons_append] at htodo
    obtain ⟨p, hp⟩ : ∃ p, s.pollfds[idx]? = some p := ⟨_, List.getElem?_eq_getElem (by omega)⟩
    rw [zip_drop_cons hp] at hres ⊢
    cases hb : (serve B x p s.world).result with
    | error e' =>
      rw [serveAll_cons_error hb] at hres ⊢
      obtain rfl : e' = e := Except.error.inj hres
      exact ⟨(s.access x idx).after (serve B x p s.world), 1, by rw [dispatch_of_some htodo hp, hb],
        rfl, rfl, rfl⟩
    | ok b =>
      rw [serveAll_cons_ok hb] at hres ⊢
      obtain ⟨s', n, hs', hpollfds, hlog, haccesses⟩ := ih (s.served x idx (serve B x p s.world) b) (idx + 1)
        (new ++ (added (serve B x p s.world).log).zipIdx s.nextIndex)
        (by rw [State.served_todo htodo, List.append_assoc]) (by rw [State.served_pollfds]; omega)
        (by rw [State.served_pollfds, State.served_world]; exact Reaction.map_eq_error hres)
      rw [State.served_pollfds] at hpollfds
      rw [State.served_log, State.served_pollfds, State.served_world, List.append_assoc] at hlog
      rw [State.served_accesses, List.append_assoc] at haccesses
      exact ⟨s', n + 1, by rw [dispatch_of_ok htodo hp hb, hs'], hpollfds, hlog, haccesses⟩

end Dispatch

section Setup
variable {s : State κ υ} {fuel : ℕ} {rest : List (Slot κ)}

theorem law_added : Reaction.Law fun (_ : World υ) (l : List (Event κ υ)) (_ : World υ) => added l = [] :=
  ⟨fun _ => rfl, fun h h' => by rw [added_append, h, h', List.append_nil]⟩

theorem observes_added (hB : B.AddsNothing) (x : Slot κ) : Observes B x fun _ l _ => added l = [] where
  toLaw := law_added
  scan _ := rfl
  callback w := by simp [added, Behaviour.runCallback, invoke, hB.callback]
  interest w := by simp [added, Behaviour.runInterest, invoke, hB.interest]
  cancel w := by simp [added, Behaviour.runCancel, invoke, hB.cancel]

/-- The state after one pass of the setup loop. -/
def State.scannedOne (s : State κ υ) (run : Run κ υ α) : Option (PollFd × Bool) → State κ υ
  | none => (s.after run).erase
  | some (p, interested) => ((s.after run).pushPollfd p interested).advance

theorem setup_of_nil (B : Behaviour κ υ) (fuel : ℕ) (h : s.todo = []) : setup B fuel s = .ok s := by
  cases fuel <;> simp [setup, h]

theorem setup_of_error {e : Exception} (h : s.todo = x :: rest) (he : (scan B x s.world).result = .error e) :
    setup B (fuel + 1) s = .error (.threw e, s.after (scan B x s.world)) := by
  rw [setup, h]
  simp only [he]

theorem setup_of_ok {r : Option (PollFd × Bool)} (h : s.todo = x :: rest)
    (hr : (scan B x s.world).result = .ok r) :
    setup B (fuel + 1) s = setup B fuel (s.scannedOne (scan B x s.world) r) := by
  rw [setup, h]
  simp only [hr]
  cases r <;> rfl

/-- The state when all rules have been scanned and nobody has added one. -/
def State.scanned (s : State κ υ) (ps : List (Option (PollFd × Bool))) (run : Run κ υ α) : State κ υ :=
  { s with
    done := s.done ++ keepers s.todo (ps.map Option.isSome)
    todo := []
    pollfds := s.pollfds ++ ps.filterMap (Option.map Prod.fst)
    somethingToPoll := s.somethingToPoll || ps.any fun p => p.any Prod.snd
    world := run.world
    log := s.log ++ run.log }

theorem scannedOne_todo (hB : B.AddsNothing) (h : s.todo = x :: rest) (r : Option (PollFd × Bool)) :
    (s.scannedOne (scan B x s.world) r).todo = rest := by
  have hadd := (observes_added hB x).of_scan s.world
  cases r <;> simp [State.scannedOne, State.erase, State.advance, State.pushPollfd, State.after, h, hadd]

@[simp] theorem scannedOne_world (s : State κ υ) (run : Run κ υ α) (r : Option (PollFd × Bool)) :
    (s.scannedOne run r).world = run.world := by cases r <;> rfl

theorem setup_pass_ok (hB : B.AddsNothing) (fuel : ℕ) (s : State κ υ) (hfuel : s.todo.length ≤ fuel)
    {ps : List (Option (PollFd × Bool))} (hres : (scanAll B s.todo s.world).result = .ok ps) :
    setup B fuel s = .ok (s.scanned ps (scanAll B s.todo s.world)) := by
  induction htodo : s.todo generalizing fuel s ps with
  | nil =>
    rw [htodo] at hres
    obtain rfl : [] = ps := Except.ok.inj hres
    rw [setup_of_nil B fuel htodo]
    obtain ⟨done, todo, n, pollfds, b, w, log, accesses⟩ := s
    obtain rfl : todo = [] := htodo
    simp [State.scanned, scanAll, keepers]
  | cons x rest ih =>
    rw [htodo] at hfuel hres
    obtain ⟨r, ps, hr, hrest, rfl⟩ := Reaction.pass_cons_result hres
    have hadd := (observes_added hB x).of_scan s.world
    have htodo' := scannedOne_todo hB htodo r
    obtain ⟨fuel, rfl⟩ : ∃ n, fuel = n + 1 := ⟨fuel - 1, by rw [List.length_cons] at hfuel; omega⟩
    rw [setup_of_ok htodo hr, ih fuel _ (by rw [htodo']; simpa using hfuel)
      (by rw [htodo', scannedOne_world]; exact hrest) htodo', scanAll, Reaction.pass_cons_ok hr,
      scannedOne_world]
    congr 1
    cases r <;> simp [State.scannedOne, State.scanned, State.advance, State.erase, State.after, State.pushPollfd,
      keepers, htodo, hadd, Bool.or_assoc]

theorem setup_pass_error (hB : B.AddsNothing) (fuel : ℕ) (s : State κ υ) (hfuel : s.todo.length ≤ fuel)
    {e : Exception} (hres : (scanAll B s.todo s.world).result = .error e) :
    ∃ s', setup B fuel s = .error (.threw e, s') ∧ s'.log = s.log ++ (scanAll B s.todo s.world).log := by
  induction htodo : s.todo generalizing fuel s with
  | nil => rw [htodo] at hres; cases hres
  | cons x rest ih =>
    rw [htodo] at hfuel hres
    obtain ⟨fuel, rfl⟩ : ∃ n, fuel = n + 1 := ⟨fuel - 1, by rw [List.length_cons] at hfuel; omega⟩
    cases hr : (scan B x s.world).result with
    | error e' =>
      rw [scanAll, Reaction.pass_cons_error hr] at hres ⊢
      obtain rfl : e' = e := Except.error.inj hres
      exact ⟨_, setup_of_error htodo hr, rfl⟩
    | ok r =>
      have htodo' := scannedOne_todo hB htodo r
      rw [scanAll, Reaction.pass_cons_ok hr] at hres
      obtain ⟨s', hs', hlog⟩ := ih fuel _ (by rw [htodo']; simpa using hfuel)
        (by rw [htodo', scannedOne_world]; exact Reaction.map_eq_error hres) htodo'
      refine ⟨s', by rw [setup_of_ok htodo hr, hs'], ?_⟩
      rw [hlog, scanAll, Reaction.pass_cons_ok hr, scannedOne_world, ← List.append_assoc]
      cases r <;> rfl

end Setup

theorem added_serveAll (hB : B.AddsNothing) (items : List (Slot κ × PollFd)) (w : World υ) :
    added (serveAll B items w).log = [] :=
  law_added.pass (fun y _ w => (observes_added hB y.1).of_serve y.2 w) w

theorem owner_of_scan {r : PollFd × Bool} (h : (scan B x w).result = .ok (some r)) : r.1.owner = x.2 := by
  by_cases hover : Over x w
  · rw [scan_of_over hover] at h
    obtain ⟨u, -, hu⟩ := Reaction.map_eq_ok h
    cases hu
  · rw [scan_of_live hover] at h
    obtain ⟨b, -, hb⟩ := Reaction.map_eq_ok h
    obtain rfl := Option.some.inj hb
    rfl

/-- The vector has one entry for each rule that is kept, in the order of the rules. -/
theorem owners_scanAll {xs : List (Slot κ)} {ps : List (Option (PollFd × Bool))}
    (h : (scanAll B xs w).result = .ok ps) :
    (keepers xs (ps.map Option.isSome)).map Prod.snd = (ps.filterMap (Option.map Prod.fst)).map PollFd.owner := by
  induction xs generalizing w ps with
  | nil =>
    obtain rfl : [] = ps := Except.ok.inj h
    rfl
  | cons x xs ih =>
    obtain ⟨r, ps, hr, hrest, rfl⟩ := Reaction.pass_cons_result h
    cases r with
    | none => exact ih hrest
    | some r =>
      rw [List.map_cons, Option.isSome_some, keepers, List.map_cons, ih hrest, ← owner_of_scan hr]
      rfl

section Wait

theorem pollResult_of_neg {out : PollReturn} (h : out.value < 0) :
    pollResult out = .ok (if out.errno = eintr then some .exit else none) := by
  have hcall : systemCall "poll" out.value out.errno 0 = .error (.unixError "poll" out.errno) :=
    if_neg (not_or.2 ⟨by omega, out.errno_ne_zero h⟩)
  rw [pollResult, hcall]

theorem pollResult_of_nonneg {out : PollReturn} (h : 0 ≤ out.value) :
    pollResult out = .ok (if out.value = 0 then some .timeout else none) := by
  have hcall : systemCall "poll" out.value out.errno 0 = .ok out.value := if_pos (.inl h)
  rw [pollResult, hcall]

theorem pollResult_ok (out : PollReturn) : ∃ r, pollResult out = .ok r := by
  by_cases h : out.value < 0
  · exact ⟨_, pollResult_of_neg h⟩
  · exact ⟨_, pollResult_of_nonneg (by omega)⟩

theorem State.polled_owners (s : State κ υ) (out : PollReturn) :
    (s.polled out).pollfds.map PollFd.owner = s.pollfds.map PollFd.owner := by
  simp only [State.polled]
  split
  · refine List.ext_getElem? fun k => ?_
    simp [Function.comp_def]
  · rfl

variable (B) (poll : List PollFd → ℤ → PollReturn) (timeoutMs : ℤ) (fuel : ℕ) (l : EventLoop κ) (w : World υ)

/-- The scan of all rules of the loop. -/
def scanRun : Run κ υ (List (Option (PollFd × Bool))) := scanAll B l.rules.zipIdx w

/-- The state after the setup loop, when nobody has added a rule. -/
def scannedState (ps : List (Option (PollFd × Bool))) : State κ υ := (State.init l w).scanned ps (scanRun B l w)

/-- The state in which the dispatch loop starts. -/
def polledState (ps : List (Option (PollFd × Bool))) : State κ υ :=
  (scannedState B l w ps).polled (poll (scannedState B l w ps).pollfds timeoutMs)

/-- Every rule that was kept, served with its own entry. -/
def serveRun (ps : List (Option (PollFd × Bool))) : Run κ υ (List Bool) :=
  serveAll B ((polledState B poll timeoutMs l w ps).todo.zip (polledState B poll timeoutMs l w ps).pollfds)
    (polledState B poll timeoutMs l w ps).world

/-- The state when the dispatch loop is through, when nobody has added a rule. -/
def servedState (ps : List (Option (PollFd × Bool))) (kept : List Bool) : State κ υ :=
  let s := polledState B poll timeoutMs l w ps
  (s.passed (keepers s.todo kept) [] (serveRun B poll timeoutMs l w ps)).accessed s.todo 0

/-- The state that a call has left. -/
def finalState : Except (Stop × State κ υ) (Result × State κ υ) → State κ υ
  | .ok (_, s) => s
  | .error (_, s) => s

/-- All that a call can come to while nobody adds a rule. -/
inductive Outcome : Except (Stop × State κ υ) (Result × State κ υ) → Prop
  | scanThrew {e s} : (scanRun B l w).result = .error e → s.log = (scanRun B l w).log →
    Outcome (.error (.threw e, s))
  | exit {ps} : (scanRun B l w).result = .ok ps → (scannedState B l w ps).somethingToPoll = false →
    Outcome (.ok (.exit, scannedState B l w ps))
  | polled {ps r} : (scanRun B l w).result = .ok ps → (scannedState B l w ps).somethingToPoll = true →
    pollResult (poll (scannedState B l w ps).pollfds timeoutMs) = .ok (some r) →
    Outcome (.ok (r, polledState B poll timeoutMs l w ps))
  | serveThrew {ps e s} : (scanRun B l w).result = .ok ps → (scannedState B l w ps).somethingToPoll = true →
    pollResult (poll (scannedState B l w ps).pollfds timeoutMs) = .ok none →
    (serveRun B poll timeoutMs l w ps).result = .error e →
    s.log = (scanRun B l w).log ++ (serveRun B poll timeoutMs l w ps).log →
    Outcome (.error (.threw e, s))
  | success {ps kept} : (scanRun B l w).result = .ok ps → (scannedState B l w ps).somethingToPoll = true →
    pollResult (poll (scannedState B l w ps).pollfds timeoutMs) = .ok none →
    (serveRun B poll timeoutMs l w ps).result = .ok kept →
    Outcome (.ok (.success, servedState B poll timeoutMs l w ps kept))

/-- The call gets to the dispatch loop: the scan of the rules gave these entries, and `poll` neither timed out nor
was interrupted. -/
structure Dispatches (ps : List (Option (PollFd × Bool))) : Prop where
  scanned : (scanRun B l w).result = .ok ps
  something : (scannedState B l w ps).somethingToPoll = true
  polled : pollResult (poll (scannedState B l w ps).pollfds timeoutMs) = .ok none

/-- The log of a call is that of the scan, or, if it gets to the dispatch loop, that of both passes. -/
theorem Outcome.log_cases {B poll timeoutMs l w} {out : Except (Stop × State κ υ) (Result × State κ υ)}
    (h : Outcome B poll timeoutMs l w out) :
    (finalState out).log = (scanRun B l w).log ∧ (∀ ps, ¬ Dispatches B poll timeoutMs l w ps) ∨
      ∃ ps, Dispatches B poll timeoutMs l w ps ∧
        (finalState out).log = (scanRun B l w).log ++ (serveRun B poll timeoutMs l w ps).log := by
  cases h with
  | scanThrew hres hlog =>
    refine .inl ⟨hlog, fun ps hd => ?_⟩
    cases hres.symm.trans hd.scanned
  | exit hps hnothing =>
    refine .inl ⟨rfl, fun ps hd => ?_⟩
    cases hps.symm.trans hd.scanned
    cases hnothing.symm.trans hd.something
  | polled hps hsome hr =>
    refine .inl ⟨rfl, fun ps hd => ?_⟩
    cases hps.symm.trans hd.scanned
    cases hr.symm.trans hd.polled
  | serveThrew hps hsome hr _ hlog => exact .inr ⟨_, ⟨hps, hsome, hr⟩, hlog⟩
  | success hps hsome hr => exact .inr ⟨_, ⟨hps, hsome, hr⟩, rfl⟩

theorem Dispatches.unique {B : Behaviour κ υ} {poll timeoutMs} {l : EventLoop κ} {w : World υ}
    {ps ps' : List (Option (PollFd × Bool))}
    (h : Dispatches B poll timeoutMs l w ps) (h' : Dispatches B poll timeoutMs l w ps') : ps = ps' :=
  Except.ok.inj (h.scanned.symm.trans h'.scanned)

section
variable {B} {l} {w} {ps : List (Option (PollFd × Bool))} (hps : (scanRun B l w).result = .ok ps)

theorem polledState_todo : (polledState B poll timeoutMs l w ps).todo =
    keepers l.rules.zipIdx (ps.map Option.isSome) := by
  simp [polledState, scannedState, State.polled, State.scanned, State.init]

include hps

theorem polledState_owners : (polledState B poll timeoutMs l w ps).todo.map Prod.snd =
    (polledState B poll timeoutMs l w ps).pollfds.map PollFd.owner := by
  rw [polledState_todo, owners_scanAll hps, polledState, State.polled_owners]
  simp [scannedState, State.scanned, State.init]

theorem polledState_length : (polledState B poll timeoutMs l w ps).pollfds.length =
    (polledState B poll timeoutMs l w ps).todo.length := by
  rw [← List.length_map (f := PollFd.owner), ← polledState_owners poll timeoutMs hps, List.length_map]

end

/-- The call from the end of the setup loop on. -/
theorem wait_of_setup {s : State κ υ} (h : setup B fuel (.init l w) = .ok s) :
    waitNextEvent B poll timeoutMs fuel l w =
      if s.somethingToPoll then
        match pollResult (poll s.pollfds timeoutMs) with
        | .error e => .error (.threw e, s.polled (poll s.pollfds timeoutMs))
        | .ok (some r) => .ok (r, s.polled (poll s.pollfds timeoutMs))
        | .ok none => (dispatch B 0 (s.polled (poll s.pollfds timeoutMs))).map fun s => (.success, s)
      else .ok (.exit, s) := by
  rw [waitNextEvent, h]
  show (if !s.somethingToPoll then _ else _) = _
  cases s.somethingToPoll with
  | false => rfl
  | true =>
    simp only [Bool.not_true, Bool.false_eq_true, if_false, if_true]
    cases pollResult (poll s.pollfds timeoutMs) with
    | error e => rfl
    | ok r =>
      cases r with
      | some r => rfl
      | none => cases dispatch B 0 (s.polled (poll s.pollfds timeoutMs)) <;> rfl

theorem wait_of_setup_error {stop : Stop × State κ υ} (h : setup B fuel (.init l w) = .error stop) :
    waitNextEvent B poll timeoutMs fuel l w = .error stop := by
  rw [waitNextEvent, h]
  rfl

/-- While nobody adds a rule, the call is the two passes. -/
theorem outcome_wait (hB : B.AddsNothing) (hfuel : l.rules.length ≤ fuel) :
    Outcome B poll timeoutMs l w (waitNextEvent B poll timeoutMs fuel l w) := by
  have hlen : (State.init l w).todo.length ≤ fuel := by rwa [State.init, List.length_zipIdx]
  cases hps : (scanRun B l w).result with
  | error e =>
    obtain ⟨s, hs, hlog⟩ := setup_pass_error hB fuel (State.init l w) hlen hps
    rw [wait_of_setup_error B poll timeoutMs fuel l w hs]
    exact .scanThrew hps hlog
  | ok ps =>
    have hsetup : setup B fuel (State.init l w) = .ok (scannedState B l w ps) :=
      setup_pass_ok hB fuel (State.init l w) hlen hps
    rw [wait_of_setup B poll timeoutMs fuel l w hsetup]
    split
    · rename_i hsome
      obtain ⟨r, hr⟩ := pollResult_ok (poll (scannedState B l w ps).pollfds timeoutMs)
      rw [hr]
      cases r with
      | some r => exact .polled hps hsome hr
      | none =>
        have hlen' := polledState_length poll timeoutMs hps
        cases hkept : (serveRun B poll timeoutMs l w ps).result with
        | error e =>
          obtain ⟨s, n, hs, -, hlog, -⟩ := dispatch_pass_error (polledState B poll timeoutMs l w ps) 0
            (polledState B poll timeoutMs l w ps).todo [] (List.append_nil _).symm (by omega) hkept
          show Outcome B poll timeoutMs l w ((dispatch B 0 (polledState B poll timeoutMs l w ps)).map _)
          rw [hs]
          exact .serveThrew hps hsome hr hkept hlog
        | ok kept =>
          have hdispatch := dispatch_pass_ok (polledState B poll timeoutMs l w ps) 0
            (polledState B poll timeoutMs l w ps).todo [] (List.append_nil _).symm (by omega) hkept
          show Outcome B poll timeoutMs l w ((dispatch B 0 (polledState B poll timeoutMs l w ps)).map _)
          rw [hdispatch, dispatch_of_nil B]
          · exact .success hps hsome hr hkept
          · simp [State.accessed, State.passed, added_serveAll hB]
    · rename_i hsome
      exact .exit hps (by simpa using hsome)

end Wait

end Sponge.EventLoop

import Sponge.EventLoopPass
import Mathlib.Data.List.GetD
import Mathlib.Data.List.Sigma

/-!
# What one call does to each rule

A rule meets the setup loop once, in some world: there it is cancelled, or it gets an entry in the vector.
With that entry it meets the dispatch loop. As every event carries the number of its rule and no two rules
have the same, what the log of a call holds for a rule is what these two meetings logged.
-/

namespace Sponge.EventLoop

variable {κ υ : Type} {B : Behaviour κ υ} {x : Slot κ} {p : PollFd} {w : World υ}

/-- How often the log has that kind of event for the rule with that number. -/
def runs (kind : Kind) (index : ℕ) (log : List (Event κ υ)) : ℕ :=
  log.countP fun ev => ev.kind = kind ∧ ev.index = index

@[simp] theorem runs_nil (kind : Kind) (i : ℕ) : runs kind i ([] : List (Event κ υ)) = 0 := rfl

theorem runs_append (kind : Kind) (i : ℕ) (l l' : List (Event κ υ)) :
    runs kind i (l ++ l') = runs kind i l + runs kind i l' := List.countP_append

theorem runs_cons (kind : Kind) (i : ℕ) (ev : Event κ υ) (l : List (Event κ υ)) :
    runs kind i (ev :: l) = runs kind i l + if ev.kind = kind ∧ ev.index = i then 1 else 0 := by
  simp [runs, List.countP_cons]

theorem observes_index (B : Behaviour κ υ) (x : Slot κ) :
    Observes B x fun _ l _ => ∀ ev ∈ l, ev.index = x.2 where
  toLaw := Reaction.law_forall fun ev : Event κ υ => ev.index = x.2
  scan _ := by simp [scanEvent]
  callback _ := by simp [Behaviour.runCallback, invoke]
  interest _ := by simp [Behaviour.runInterest, invoke]
  cancel _ := by simp [Behaviour.runCancel, invoke]

theorem index_scan (x : Slot κ) (w : World υ) : ∀ ev ∈ (scan B x w).log, ev.index = x.2 :=
  (observes_index B x).of_scan w

theorem index_serve (y : Slot κ × PollFd) (w : World υ) : ∀ ev ∈ (serve B y.1 y.2 w).log, ev.index = y.1.2 :=
  (observes_index B y.1).of_serve y.2 w

/-- A rule with a number of its own has one step in a pass, and that logs all there is for it. -/
theorem runs_of_mem_pass {α β : Type} {step : α → World υ → Run κ υ β} {number : α → ℕ}
    (hstep : ∀ a w, ∀ ev ∈ (step a w).log, ev.index = number a) {as : List α} {a : α} {bs : List β}
    (hnd : (as.map number).Nodup) (ha : a ∈ as) (h : (Reaction.pass step as w).result = .ok bs) :
    ∃ (k : ℕ) (w' : World υ) (b : β), as[k]? = some a ∧ bs[k]? = some b ∧ (step a w').result = .ok b ∧
      (∀ ev ∈ (step a w').log, ev ∈ (Reaction.pass step as w).log) ∧
      ∀ kind, runs kind (number a) (Reaction.pass step as w).log = runs kind (number a) (step a w').log := by
  obtain ⟨k, w', b, hk, hb, hres, hlog, hcount⟩ := Reaction.pass_of_mem hstep hnd ha h
  refine ⟨k, w', b, hk, hb, hres, hlog, fun kind => hcount _ fun ev hev => ?_⟩
  simp only [decide_eq_true_eq] at hev
  exact hev.2

/-! ### One meeting with a loop -/

/-- Scanned, the rule is cancelled and has no entry, or it is asked for its interest and has one. -/
theorem scan_spec {r : Option (PollFd × Bool)} (h : (scan B x w).result = .ok r) :
    scanEvent x w ∈ (scan B x w).log ∧ runs .scan x.2 (scan B x w).log = 1 ∧
      runs .callback x.2 (scan B x w).log = 0 ∧
      (Over x w ∧ r = none ∧ runs .cancel x.2 (scan B x w).log = 1 ∨
        ¬ Over x w ∧ runs .cancel x.2 (scan B x w).log = 0 ∧
          ∃ b, (B.interest x.1.fns w).result = .ok b ∧
            r = some (entry x (B.interest x.1.fns w).world b, b)) := by
  by_cases hover : Over x w
  · rw [scan_of_over hover] at h ⊢
    obtain ⟨u, -, rfl⟩ := Reaction.map_eq_ok h
    simp [runs_cons, scanEvent, Behaviour.runCancel, invoke, hover]
  · rw [scan_of_live hover] at h ⊢
    obtain ⟨b, hb, rfl⟩ := Reaction.map_eq_ok h
    simp [runs_cons, scanEvent, Behaviour.runInterest, invoke, hover, hb]

/-- Served with an entry that is no error, the rule runs its callback if the entry is ready, and is
cancelled and dropped if it is defunct. -/
theorem serve_spec {kept : Bool} (herr : p.error = false) (h : (serve B x p w).result = .ok kept) :
    kept = !p.defunct ∧ runs .callback x.2 (serve B x p w).log = (if p.ready then 1 else 0) ∧
      runs .cancel x.2 (serve B x p w).log = (if p.defunct then 1 else 0) ∧
      runs .scan x.2 (serve B x p w).log = 0 := by
  cases hdef : p.defunct with
  | true =>
    have hready : p.ready = false := by
      cases hready : p.ready with
      | false => rfl
      | true => rw [PollFd.not_defunct_of_ready hready] at hdef; cases hdef
    rw [serve_of_defunct herr hdef] at h ⊢
    obtain ⟨u, -, rfl⟩ := Reaction.map_eq_ok h
    simp [runs_cons, Behaviour.runCancel, invoke, hready]
  | false =>
    cases hready : p.ready with
    | false =>
      rw [serve_of_idle herr hdef hready] at h ⊢
      cases h
      simp
    | true =>
      obtain ⟨hlog, hkept⟩ := serve_of_ready (B := B) (x := x) (w := w) herr hready
      refine ⟨hkept kept h, ?_, ?_, ?_⟩ <;> rcases hlog with hlog | hlog <;> rw [hlog] <;>
        simp [runs_cons, Behaviour.runCallback, Behaviour.runInterest, invoke]

theorem Direction.events_ne_zero (d : Direction) : d.events ≠ 0 := by cases d <;> decide

/-! ### Rules that are kept -/

theorem keepers_sublist (xs : List (Slot κ)) (kept : List Bool) : (keepers xs kept).Sublist xs := by
  induction xs generalizing kept with
  | nil => simp [keepers]
  | cons x xs ih =>
    rcases kept with _ | ⟨b, kept⟩
    · simp [keepers]
    · cases b with
      | false => exact (ih kept).cons x
      | true => exact (ih kept).cons_cons x

theorem mem_keepers_iff {xs : List (Slot κ)} {kept : List Bool} {k : ℕ} {b : Bool} (hnd : xs.Nodup)
    (hx : xs[k]? = some x) (hb : kept[k]? = some b) : x ∈ keepers xs kept ↔ b = true := by
  induction xs generalizing kept k with
  | nil => simp at hx
  | cons y xs ih =>
    rw [List.nodup_cons] at hnd
    rcases kept with _ | ⟨c, kept⟩
    · simp at hb
    · cases k with
      | zero =>
        obtain rfl : y = x := by simpa using hx
        obtain rfl : c = b := by simpa using hb
        cases c with
        | false => simpa [keepers] using fun h => hnd.1 ((keepers_sublist xs kept).subset h)
        | true => simp [keepers]
      | succ k =>
        rw [List.getElem?_cons_succ] at hx hb
        have hne : x ≠ y := by
          rintro rfl
          exact hnd.1 (List.mem_of_getElem? hx)
        cases c with
        | false => exact ih hnd.2 hx hb
        | true => rw [keepers, List.mem_cons, or_iff_right hne, ih hnd.2 hx hb]

section Call
variable {poll : List PollFd → ℤ → PollReturn} {timeoutMs : ℤ} {l : EventLoop κ}
  {ps : List (Option (PollFd × Bool))} {kept : List Bool}

theorem nodup_numbers (l : EventLoop κ) : (l.rules.zipIdx.map Prod.snd).Nodup := List.nodup_zipIdx_map_snd _

/-- What the scan of all rules does to one of them. -/
theorem scanRun_rule (hps : (scanRun B l w).result = .ok ps) (hx : x ∈ l.rules.zipIdx) :
    ∃ w', scanEvent x w' ∈ (scanRun B l w).log ∧ runs .scan x.2 (scanRun B l w).log = 1 ∧
      runs .callback x.2 (scanRun B l w).log = 0 ∧
      (Over x w' ∧ x ∉ keepers l.rules.zipIdx (ps.map Option.isSome) ∧
          runs .cancel x.2 (scanRun B l w).log = 1 ∨
        ¬ Over x w' ∧ x ∈ keepers l.rules.zipIdx (ps.map Option.isSome) ∧
          runs .cancel x.2 (scanRun B l w).log = 0 ∧
          ∃ b, (B.interest x.1.fns w').result = .ok b ∧
            entry x (B.interest x.1.fns w').world b ∈ ps.filterMap (Option.map Prod.fst)) := by
  have hnd := nodup_numbers l
  obtain ⟨k, w', r, hk, hr, hres, hlog, hruns⟩ := runs_of_mem_pass index_scan hnd hx hps
  have hkept : x ∈ keepers l.rules.zipIdx (ps.map Option.isSome) ↔ r.isSome = true :=
    mem_keepers_iff (.of_map _ hnd) hk (by rw [List.getElem?_map, hr]; rfl)
  obtain ⟨hev, hscan, hcallback, hcase⟩ := scan_spec hres
  refine ⟨w', hlog _ hev, (hruns _).trans hscan, (hruns _).trans hcallback, ?_⟩
  rcases hcase with ⟨hover, rfl, hcancel⟩ | ⟨hlive, hcancel, b, hb, rfl⟩
  · exact .inl ⟨hover, by simp [hkept], (hruns _).trans hcancel⟩
  · refine .inr ⟨hlive, hkept.2 rfl, (hruns _).trans hcancel, b, hb, ?_⟩
    exact List.mem_filterMap.2 ⟨_, List.mem_of_getElem? hr, rfl⟩

theorem mem_zip_of_keys {α β γ : Type} {f : α → γ} {g : β → γ} {as : List α} {bs : List β} {a : α}
    (h : as.map f = bs.map g) (ha : a ∈ as) : ∃ b, (a, b) ∈ as.zip bs ∧ f a = g b := by
  induction as generalizing bs with
  | nil => cases ha
  | cons c as ih =>
    rcases bs with _ | ⟨d, bs⟩
    · cases h
    · obtain ⟨hcd, htail⟩ := List.cons.inj h
      rcases List.mem_cons.1 ha with rfl | ha
      · exact ⟨d, by simp, hcd⟩
      · obtain ⟨b, hb, hab⟩ := ih htail ha
        exact ⟨b, by simp [hb], hab⟩

theorem nodup_todo (B : Behaviour κ υ) (poll : List PollFd → ℤ → PollReturn) (timeoutMs : ℤ) (l : EventLoop κ)
    (w : World υ) (ps : List (Option (PollFd × Bool))) :
    ((polledState B poll timeoutMs l w ps).todo.map Prod.snd).Nodup := by
  rw [polledState_todo]
  exact (nodup_numbers l).sublist ((keepers_sublist ..).map _)

/-- What the dispatch loop does to a rule that it finds with the entry `p`. -/
theorem serveRun_rule (hps : (scanRun B l w).result = .ok ps)
    (hkept : (serveRun B poll timeoutMs l w ps).result = .ok kept) (herr : p.error = false)
    (hxp : (x, p) ∈ (polledState B poll timeoutMs l w ps).todo.zip (polledState B poll timeoutMs l w ps).pollfds) :
    (x ∈ keepers (polledState B poll timeoutMs l w ps).todo kept ↔ p.defunct = false) ∧
      runs .callback x.2 (serveRun B poll timeoutMs l w ps).log = (if p.ready then 1 else 0) ∧
      runs .cancel x.2 (serveRun B poll timeoutMs l w ps).log = (if p.defunct then 1 else 0) ∧
      runs .scan x.2 (serveRun B poll timeoutMs l w ps).log = 0 := by
  have hnd := nodup_todo B poll timeoutMs l w ps
  have hnd' : (((polledState B poll timeoutMs l w ps).todo.zip
      (polledState B poll timeoutMs l w ps).pollfds).map (Prod.snd ∘ Prod.fst)).Nodup := by
    rw [← List.map_map, List.map_fst_zip (Nat.le_of_eq (polledState_length poll timeoutMs hps).symm)]
    exact hnd
  obtain ⟨k, w', b, hk, hb, hres, -, hruns⟩ := runs_of_mem_pass index_serve hnd' hxp hkept
  obtain ⟨rfl, hcallback, hcancel, hscan⟩ := serve_spec herr hres
  refine ⟨?_, (hruns _).trans hcallback, (hruns _).trans hcancel, (hruns _).trans hscan⟩
  rw [mem_keepers_iff (.of_map _ hnd) (List.getElem?_zip_eq_some.1 hk).1 hb]
  simp

/-- A rule that was dropped before is none of the dispatch loop's business. -/
theorem serveRun_of_not_mem (hx : x ∈ l.rules.zipIdx) (hnot : x ∉ (polledState B poll timeoutMs l w ps).todo)
    (kind : Kind) : runs kind x.2 (serveRun B poll timeoutMs l w ps).log = 0 := by
  refine Reaction.countP_pass_eq_zero index_serve fun y hy ev hev htag => hnot ?_
  simp only [decide_eq_true_eq] at hev
  have hy : y.1 ∈ (polledState B poll timeoutMs l w ps).todo := (List.of_mem_zip hy).1
  have hyx : y.1 ∈ l.rules.zipIdx := by
    rw [polledState_todo] at hy
    exact (keepers_sublist ..).subset hy
  rwa [List.inj_on_of_nodup_map (nodup_numbers l) hx hyx (by rw [← hev.2, htag])]

end Call

/-! ### The call -/

/-- The rule was over: its cancel function ran, it is gone, and it has no entry in the vector. -/
structure Dropped (s : State κ υ) (x : Slot κ) : Prop where
  cancel : runs .cancel x.2 s.log = 1
  callback : runs .callback x.2 s.log = 0
  removed : x ∉ s.done ++ s.todo
  unpolled : ∀ p ∈ s.pollfds, p.owner ≠ x.2

/-- A hangup is all there is, and the rule was interested. -/
def HungUp (p : PollFd) (interested : Bool) : Prop :=
  p.hup = true ∧ interested = true ∧ p.ready = false

instance (p : PollFd) (interested : Bool) : Decidable (HungUp p interested) := inferInstanceAs (Decidable (_ ∧ _))

/-- The rule has the entry `p`, which was built as `built`, and no other. -/
structure Polled (s : State κ υ) (x : Slot κ) (built p : PollFd) (interested : Bool) : Prop where
  mem : p ∈ s.pollfds
  own : { p with revents := 0 } = built
  unique : ∀ q ∈ s.pollfds, q.owner = x.2 → q = p
  callback : runs .callback x.2 s.log = if p.ready then 1 else 0
  cancel : runs .cancel x.2 s.log = if HungUp p interested then 1 else 0
  kept : x ∈ s.done ++ s.todo ↔ ¬ HungUp p interested

/-- What becomes of a rule in a call that ends in the state `s`. -/
def Treated (B : Behaviour κ υ) (s : State κ υ) (x : Slot κ) : Prop :=
  ∃ w, scanEvent x w ∈ s.log ∧ runs .scan x.2 s.log = 1 ∧
    (Over x w ∧ Dropped s x ∨
      ¬ Over x w ∧ ∃ interested p, (B.interest x.1.fns w).result = .ok interested ∧
        Polled s x (entry x (B.interest x.1.fns w).world interested) p interested)

theorem hungUp_iff {b : Bool} (h : { p with revents := 0 } = entry x w b) : HungUp p b ↔ p.defunct = true := by
  have hevents : p.events = if b then x.1.direction.events else 0 := congrArg PollFd.events h
  cases b <;> simp [HungUp, PollFd.defunct, hevents, Direction.events_ne_zero]

section Final
variable {poll : List PollFd → ℤ → PollReturn} {timeoutMs : ℤ} {l : EventLoop κ}
  {ps : List (Option (PollFd × Bool))} {kept : List Bool}

theorem scannedState_rules : (scannedState B l w ps).done ++ (scannedState B l w ps).todo =
    keepers l.rules.zipIdx (ps.map Option.isSome) := by
  simp [scannedState, State.scanned, State.init]

theorem servedState_log : (servedState B poll timeoutMs l w ps kept).log =
    (scanRun B l w).log ++ (serveRun B poll timeoutMs l w ps).log := rfl

theorem servedState_rules (hB : B.AddsNothing) :
    (servedState B poll timeoutMs l w ps kept).done ++ (servedState B poll timeoutMs l w ps kept).todo =
      keepers (polledState B poll timeoutMs l w ps).todo kept := by
  have hadd : added (serveRun B poll timeoutMs l w ps).log = [] := added_serveAll hB ..
  simp [servedState, State.passed, State.accessed, hadd, polledState, State.polled]

/-- The vector has no entry for a rule that was dropped. -/
theorem owner_ne_of_not_mem {xs : List (Slot κ)} {qs : List PollFd} (hsub : xs.Sublist l.rules.zipIdx)
    (howners : xs.map Prod.snd = qs.map PollFd.owner) (hx : x ∈ l.rules.zipIdx) (hnot : x ∉ xs) :
    ∀ q ∈ qs, q.owner ≠ x.2 := by
  intro q hq howner
  have hq' : q.owner ∈ xs.map Prod.snd := howners ▸ List.mem_map_of_mem hq
  obtain ⟨y, hy, hyq⟩ := List.mem_map.1 hq'
  obtain rfl := List.inj_on_of_nodup_map (nodup_numbers l) (hsub.subset hy) hx (hyq.trans howner)
  exact hnot hy

theorem nodup_owners (hps : (scanRun B l w).result = .ok ps) :
    ((ps.filterMap (Option.map Prod.fst)).map PollFd.owner).Nodup := by
  rw [← owners_scanAll hps]
  exact (nodup_numbers l).sublist ((keepers_sublist ..).map _)

/-- Without `poll` every rule is scanned, and then kept unless it was over. -/
theorem treated_scannedState (hps : (scanRun B l w).result = .ok ps) (hx : x ∈ l.rules.zipIdx) :
    Treated B (scannedState B l w ps) x := by
  obtain ⟨w', hev, hscan, hcallback, hcase⟩ := scanRun_rule hps hx
  refine ⟨w', hev, hscan, ?_⟩
  rcases hcase with ⟨hover, hnot, hcancel⟩ | ⟨hlive, hmem, hcancel, b, hb, hentry⟩
  · exact .inl ⟨hover, hcancel, hcallback, by rwa [scannedState_rules],
      owner_ne_of_not_mem (keepers_sublist ..) (owners_scanAll hps) hx hnot⟩
  · have hhup : ¬ HungUp (entry x (B.interest x.1.fns w').world b) b := by
      simp [HungUp, entry, PollFd.hup]
    have hready : (entry x (B.interest x.1.fns w').world b).ready = false := by simp [entry, PollFd.ready]
    refine .inr ⟨hlive, b, _, hb, hentry, rfl, fun q hq howner => ?_, ?_, ?_, ?_⟩
    · exact List.inj_on_of_nodup_map (nodup_owners hps) hq hentry howner
    · rw [hready]; exact hcallback
    · rw [if_neg hhup]; exact hcancel
    · rw [scannedState_rules]; exact iff_of_true hmem hhup

/-- A positive count, and no error on any of the `n` entries. -/
def PollReturn.Clean (out : PollReturn) (n : ℕ) : Prop :=
  0 < out.value ∧ ∀ i < n, out.revents i &&& (pollErr ||| pollNval) = 0

theorem polledState_pollfds (h : 0 ≤ (poll (scannedState B l w ps).pollfds timeoutMs).value) :
    (polledState B poll timeoutMs l w ps).pollfds = (scannedState B l w ps).pollfds.mapIdx fun i p =>
      { p with revents := (poll (scannedState B l w ps).pollfds timeoutMs).revents i } := if_pos h

/-- The entry of a rule after `poll` is the one that was built for it, with its own events reported. -/
theorem built_of_owner (hps : (scanRun B l w).result = .ok ps) {e : PollFd}
    (hclean : (poll (scannedState B l w ps).pollfds timeoutMs).Clean (scannedState B l w ps).pollfds.length)
    (he : e ∈ ps.filterMap (Option.map Prod.fst)) (hp : p ∈ (polledState B poll timeoutMs l w ps).pollfds)
    (howner : p.owner = e.owner) : p.error = false ∧ { p with revents := 0 } = { e with revents := 0 } := by
  rw [polledState_pollfds (Int.le_of_lt hclean.1), List.mem_mapIdx] at hp
  obtain ⟨i, hi, rfl⟩ := hp
  have hq : (scannedState B l w ps).pollfds[i] = e :=
    List.inj_on_of_nodup_map (nodup_owners hps) (List.getElem_mem hi) he howner
  exact ⟨by simp [PollFd.error, hclean.2 i hi], by rw [hq]⟩

theorem treated_servedState (hB : B.AddsNothing) (hps : (scanRun B l w).result = .ok ps)
    (hclean : (poll (scannedState B l w ps).pollfds timeoutMs).Clean (scannedState B l w ps).pollfds.length)
    (hkept : (serveRun B poll timeoutMs l w ps).result = .ok kept) (hx : x ∈ l.rules.zipIdx) :
    Treated B (servedState B poll timeoutMs l w ps kept) x := by
  have htodo : (polledState B poll timeoutMs l w ps).todo = keepers l.rules.zipIdx (ps.map Option.isSome) :=
    polledState_todo poll timeoutMs
  have howners := polledState_owners poll timeoutMs hps
  have hnd : ((polledState B poll timeoutMs l w ps).pollfds.map PollFd.owner).Nodup :=
    howners ▸ nodup_todo B poll timeoutMs l w ps
  obtain ⟨w', hev, hscan, hcallback, hcase⟩ := scanRun_rule hps hx
  rcases hcase with ⟨hover, hnot, hcancel⟩ | ⟨hlive, hmem, hcancel, b, hb, hentry⟩
  · -- dropped in the setup loop, the rule leaves no trace in the dispatch loop
    have hserve := serveRun_of_not_mem hx (htodo ▸ hnot)
    refine ⟨w', List.mem_append_left _ hev, by rw [servedState_log, runs_append, hscan, hserve], .inl ⟨hover, ?_⟩⟩
    refine ⟨?_, ?_, ?_, owner_ne_of_not_mem (htodo ▸ keepers_sublist ..) howners hx (htodo ▸ hnot)⟩
    · rw [servedState_log, runs_append, hcancel, hserve]
    · rw [servedState_log, runs_append, hcallback, hserve]
    · rw [servedState_rules hB, htodo]
      exact fun h => hnot ((keepers_sublist ..).subset h)
  · obtain ⟨p, hxp, howner⟩ := mem_zip_of_keys howners (htodo ▸ hmem)
    have hp := (List.of_mem_zip hxp).2
    obtain ⟨herr, hown⟩ := built_of_owner hps hclean hentry hp howner.symm
    obtain ⟨hkeep, hcallback', hcancel', hscan'⟩ := serveRun_rule hps hkept herr hxp
    have hhup := hungUp_iff hown
    refine ⟨w', List.mem_append_left _ hev, by rw [servedState_log, runs_append, hscan, hscan'],
      .inr ⟨hlive, b, p, hb, hp, hown, fun q hq hq' => ?_, ?_, ?_, ?_⟩⟩
    · exact List.inj_on_of_nodup_map hnd hq hp (hq'.trans howner)
    · rw [servedState_log, runs_append, hcallback, hcallback', Nat.zero_add]
    · rw [servedState_log, runs_append, hcancel, hcancel', Nat.zero_add]
      simp only [hhup]
    · rw [servedState_rules hB, hkeep, hhup, Bool.not_eq_true]

theorem scannedState_revents (hps : (scanRun B l w).result = .ok ps) :
    ∀ q ∈ (scannedState B l w ps).pollfds, q.revents = 0 := by
  have hall : ∀ r ∈ ps, ∀ q ∈ r.map Prod.fst, q.revents = 0 := by
    refine Reaction.forall_mem_of_pass (fun x w r hr => ?_) hps
    obtain ⟨-, -, -, ⟨-, rfl, -⟩ | ⟨-, -, b, -, rfl⟩⟩ := scan_spec hr <;> simp [entry]
  intro q hq
  obtain ⟨r, hr, hrq⟩ := List.mem_filterMap.1 hq
  exact hall r hr q hrq

/-- What a call comes to: an exception, or every rule of `l` is treated as it should be and those that are
left stand in their old order. What was polled is the vector as it was built, with the events that `poll`
reported, unless there was nothing to poll. -/
def Pairs (B : Behaviour κ υ) (poll : List PollFd → ℤ → PollReturn) (timeoutMs : ℤ) (l : EventLoop κ) :
    Except (Stop × State κ υ) (Result × State κ υ) → Prop
  | .error (stop, _) => ∃ e, stop = .threw e
  | .ok (result, s) =>
    (∀ i r, l.rules[i]? = some r → Treated B s (r, i)) ∧ (s.done ++ s.todo).Sublist l.rules.zipIdx ∧
      (result = .exit ∧ (∀ p ∈ s.pollfds, p.revents = 0) ∨
        result = .success ∧ ∃ built : List PollFd, (∀ p ∈ built, p.revents = 0) ∧
          s.pollfds = built.mapIdx fun i p => { p with revents := (poll built timeoutMs).revents i })

/-- If nobody adds rules and `poll` reports something and no error, every rule is paired with its own
result. -/
theorem wait_pairs (B : Behaviour κ υ) (poll : List PollFd → ℤ → PollReturn) (timeoutMs : ℤ)
    (fuel : ℕ) (l : EventLoop κ) (w : World υ) (hB : B.AddsNothing) (hfuel : l.rules.length ≤ fuel)
    (hpoll : ∀ ps, (poll ps timeoutMs).Clean ps.length) :
    Pairs B poll timeoutMs l (waitNextEvent B poll timeoutMs fuel l w) := by
  have hslot : ∀ i r, l.rules[i]? = some r → (r, i) ∈ l.rules.zipIdx := fun i r h =>
    List.mk_mem_zipIdx_iff_getElem?.2 h
  have hout := outcome_wait B poll timeoutMs fuel l w hB hfuel
  generalize waitNextEvent B poll timeoutMs fuel l w = out at hout
  cases hout with
  | scanThrew => exact ⟨_, rfl⟩
  | serveThrew => exact ⟨_, rfl⟩
  | exit hps hnothing =>
    refine ⟨fun i r h => treated_scannedState hps (hslot i r h), ?_, .inl ⟨rfl, scannedState_revents hps⟩⟩
    rw [scannedState_rules]
    exact keepers_sublist ..
  | @polled ps r hps hsome hr =>
    have hpos := (hpoll (scannedState B l w ps).pollfds).1
    rw [pollResult_of_nonneg (by omega), if_neg (by omega)] at hr
    cases hr
  | success hps hsome hr hkept =>
    refine ⟨fun i r h => treated_servedState hB hps (hpoll _) hkept (hslot i r h), ?_,
      .inr ⟨rfl, _, scannedState_revents hps, polledState_pollfds (Int.le_of_lt (hpoll _).1)⟩⟩
    rw [servedState_rules hB, polledState_todo]
    exact (keepers_sublist ..).trans (keepers_sublist ..)

theorem clean_reports {revents : List UInt16} (hsome : ∃ r ∈ revents, r ≠ 0)
    (hclean : ∀ r ∈ revents, r &&& (pollErr ||| pollNval) = 0) (qs : List PollFd) (n : ℕ) :
    (reports revents qs timeoutMs).Clean n := by
  refine ⟨Int.natCast_pos.2 (List.countP_pos_iff.2 (by simpa using hsome)), fun i _ => ?_⟩
  show revents.getD i 0 &&& (pollErr ||| pollNval) = 0
  by_cases hi : i < revents.length
  · rw [List.getD_eq_getElem _ _ hi]
    exact hclean _ (List.getElem_mem hi)
  · rw [List.getD_eq_default _ _ (by omega), UInt16.zero_and]

/-- A rule whose descriptor may be closed, one that reads when it is ready, one to be hung up and one that
is not interested. -/
def fourRules : EventLoop ℕ := ⟨[⟨0, .Out, 0⟩, ⟨1, .In, 1⟩, ⟨2, .Out, 2⟩, ⟨3, .In, 3⟩]⟩

theorem wait_pairs_fourRules :
    (waitNextEvent (scripted (· ≠ 3) fun k => [.read k]) (reports [pollIn, pollHup, pollHup]) 0 4 fourRules
      (script [.close 0] openWorld).world).toOption.map (fun out => (out.1, out.2.loop.rules.map Rule.fd)) =
        some (.success, [1, 3]) ∧
    Pairs (scripted (· ≠ 3) fun k => [.read k]) (reports [pollIn, pollHup, pollHup]) 0 fourRules
      (waitNextEvent (scripted (· ≠ 3) fun k => [.read k]) (reports [pollIn, pollHup, pollHup]) 0 4 fourRules
        (script [.close 0] openWorld).world) := by
  have hclean : ∀ r ∈ [pollIn, pollHup, pollHup], r &&& (pollErr ||| pollNval) = 0 := by
    simp only [List.forall_mem_cons]
    exact ⟨by decide, by decide, by decide, nofun⟩
  refine ⟨by decide +kernel, wait_pairs _ _ _ _ _ _ (addsNothing_scripted (by simp [Deed.rule]))
    (by simp [fourRules]) fun qs => ?_⟩
  exact clean_reports ⟨pollIn, by simp, by decide⟩ hclean qs qs.length

end Final

end Sponge.EventLoop

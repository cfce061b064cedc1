import Sponge.FileDescriptor
import Sponge.Lib.Runs

/-!
# Handles to descriptors (`libsponge/util/file_descriptor.hh`)

A `FileDescriptor` is a `shared_ptr` to an `FDWrapper`. It is made from a number, duplicated or moved, and the
wrapper is destructed with the last handle that points to it. The destructor calls `close(2)` unless a
call before has succeeded, and swallows the exception if it fails. `FileDescriptor::close` asks nothing: it
calls `close(2)` each time.

`closes` records the calls of `close(2)`. The destructor makes one, when the last handle is gone, exactly if no
explicit close has succeeded (`descriptor_closed_once`): without an explicit close every descriptor is closed
once, and not while there is a handle to it; but one closed twice by hand, or one whose `close(2)` failed by
hand, is closed more than once.
-/

namespace Sponge

theorem systemCall_of_neg {r : SyscallReturn} (attempt : String) (h : r.value < 0) :
    systemCall attempt (toInt r.value) r.errno 0 = .error (.unixError attempt r.errno) := by
  have hle := r.neg_one_le
  rw [systemCall, toInt_of_lt hle (by omega), if_neg]
  exact not_or.2 ⟨by omega, r.errno_ne_zero h⟩

theorem systemCall_of_nonneg {r : SyscallReturn} (attempt : String) (h : 0 ≤ r.value) (hr : r.value < 2 ^ 31) :
    systemCall attempt (toInt r.value) r.errno 0 = .ok r.value := by
  rw [systemCall, toInt_of_lt r.neg_one_le hr, if_pos (.inl h)]

namespace FDWrapper
variable (w : FDWrapper) {limit : ℕ} {str : List UInt8} {r : SyscallReturn}

theorem read_of_neg (h : r.value < 0) : w.read limit str r = (.error (.unixError "read" r.errno), w) := by
  rw [read, systemCall_of_neg "read" h]

theorem read_of_nonneg (h : 0 ≤ r.value) (hle : r.value ≤ (min bufferSize limit : ℕ)) :
    w.read limit str r = (.ok (str.take r.value.toNat),
      (if 0 < limit ∧ r.value = 0 then { w with eof := true } else w).registerRead) := by
  have hlt : r.value < 2 ^ 31 := by
    have := Nat.min_le_left bufferSize limit
    simp only [bufferSize] at this hle
    omega
  rw [read, systemCall_of_nonneg "read" h hlt]
  dsimp only
  rw [if_neg (by omega), toSizeT_of_nonneg h hlt, if_neg (by simp only [maxSize]; omega)]

theorem read_of_zero (h : r.value = 0) (hlimit : 0 < limit) :
    w.read limit str r = (.ok [], { w with eof := true }.registerRead) := by
  rw [w.read_of_nonneg (by omega) (by omega), if_pos ⟨hlimit, h⟩, h]
  rfl

theorem read_of_pos (h : 0 < r.value) (hle : r.value ≤ (min bufferSize limit : ℕ)) :
    w.read limit str r = (.ok (str.take r.value.toNat), w.registerRead) := by
  rw [w.read_of_nonneg (by omega) hle, if_neg (by omega)]

theorem close_of_neg (h : r.value < 0) : w.close r = .error (.unixError "close" r.errno) := by
  rw [close, systemCall_of_neg "close" h]; rfl

theorem close_of_nonneg (h : 0 ≤ r.value) (hr : r.value < 2 ^ 31) :
    w.close r = .ok { w with eof := true, closed := true } := by
  rw [close, systemCall_of_nonneg "close" h hr]; rfl

theorem closed_read (limit : ℕ) (str : List UInt8) (r : SyscallReturn) : (w.read limit str r).2.closed = w.closed := by
  unfold read
  dsimp only
  split
  · rfl
  split
  · split <;> rfl
  split
  · split <;> rfl
  · split <;> rfl

theorem writeOnce_snd (buffer : BufferViewList) (r : SyscallReturn) :
    (w.writeOnce buffer r).2 = w ∨ (w.writeOnce buffer r).2 = w.registerWrite := by
  unfold writeOnce
  split
  · exact .inl rfl
  split
  · exact .inl rfl
  split
  · exact .inl rfl
  split <;> exact .inr rfl

theorem descriptor_writeLoop (os : ℕ → SyscallReturn) (writeAll : Bool) (buffer : BufferViewList) (total k : ℕ) :
    ∃ n, (writeLoop os writeAll w buffer total k).descriptor = { w with writeCount := n } := by
  induction hn : buffer.size using Nat.strongRecOn generalizing w buffer total k with
  | ind n ih =>
    have hsnd := w.writeOnce_snd buffer (os k)
    rcases hw : w.writeOnce buffer (os k) with ⟨e | ⟨n, rest⟩, w'⟩
    · rw [writeLoop_of_error hw]
      rw [hw] at hsnd
      rcases hsnd with rfl | rfl
      · exact ⟨_, rfl⟩
      · exact ⟨_, rfl⟩
    · obtain ⟨m, hm⟩ : ∃ m, w' = { w with writeCount := m } := by
        rw [hw] at hsnd
        rcases hsnd with rfl | rfl
        · exact ⟨_, rfl⟩
        · exact ⟨_, rfl⟩
      rw [writeLoop_of_ok hw]
      split
      · rename_i hcont
        obtain ⟨m', hm'⟩ := ih _ (hn ▸ writeOnce_size_lt hw hcont.2) w' rest (total + toSizeT n) (k + 1) rfl
        exact ⟨m', by rw [hm', hm]⟩
      · exact ⟨m, hm⟩

theorem closed_write (os : ℕ → SyscallReturn) (buffer : BufferViewList) (writeAll : Bool) :
    (w.write os buffer writeAll).descriptor.closed = w.closed := by
  obtain ⟨n, hn⟩ := w.descriptor_writeLoop os writeAll buffer 0 0
  rw [write, hn]

end FDWrapper

/-- A call of `close(2)` for a wrapper, by hand or from the destructor. -/
structure CloseCall where
  wrapper : ℕ
  explicit : Bool
  result : SyscallReturn

/-- The wrapper takes the call as done. -/
def CloseCall.succeeded (c : CloseCall) : Bool := (systemCall "close" (toInt c.result.value) c.result.errno 0).isOk

/-- The wrappers and handles of a program, both in the order in which they were made. A handle that has been
moved from or destructed points nowhere. -/
structure Handles where
  wrappers : List FDWrapper
  handles : List (Option ℕ)
  closes : List CloseCall

namespace Handles

def init : Handles := ⟨[], [], []⟩

variable (s : Handles)

/-- The wrapper that a handle points to. -/
def pointer (h : ℕ) : Option ℕ := s.handles[h]?.join

/-- `FDWrapper::close`. If it throws, the wrapper is as before. -/
def closeWrapper (explicit : Bool) (i : ℕ) (w : FDWrapper) (r : SyscallReturn) : Handles :=
  { s with
    wrappers := match w.close r with
      | .ok w => s.wrappers.set i w
      | .error _ => s.wrappers
    closes := s.closes ++ [⟨i, explicit, r⟩] }

/-- A `shared_ptr` to the wrapper `i` is gone: if it was the last one, `FDWrapper::~FDWrapper` runs. -/
def release (i : ℕ) (r : SyscallReturn) : Handles :=
  if some i ∈ s.handles then s
  else
    match s.wrappers[i]? with
    | none => s
    | some w => if w.closed then s else s.closeWrapper false i w r

/-- The handles become `handles`, and one that pointed to `p` no longer does. -/
def letGo (p : Option ℕ) (handles : List (Option ℕ)) (r : SyscallReturn) : Handles :=
  match p with
  | none => { s with handles }
  | some i => release { s with handles } i r

def update (h : ℕ) (f : FDWrapper → FDWrapper) : Handles :=
  match s.pointer h with
  | none => s
  | some i => { s with wrappers := s.wrappers.modify i f }

/-- What a program does with its descriptors. Where a wrapper may be destructed, `r` is what `close(2)` would
return. -/
inductive Op
  | construct (fd : ℤ)
  | duplicate (h : ℕ)
  | moveConstruct (h : ℕ)
  | moveAssign (h other : ℕ) (r : SyscallReturn)
  | destruct (h : ℕ) (r : SyscallReturn)
  | close (h : ℕ) (r : SyscallReturn)
  | read (h limit : ℕ) (str : List UInt8) (r : SyscallReturn)
  | write (h : ℕ) (buffer : BufferViewList) (writeAll : Bool) (os : ℕ → SyscallReturn)

def Op.apply : Op → Handles
  | .construct fd =>
    match FDWrapper.init fd with
    | .ok w => { s with wrappers := s.wrappers ++ [w], handles := s.handles ++ [some s.wrappers.length] }
    | .error _ => s
  | .duplicate h =>
    match s.handles[h]? with
    | some p => { s with handles := s.handles ++ [p] }
    | none => s
  | .moveConstruct h =>
    match s.handles[h]? with
    | some p => { s with handles := s.handles.set h none ++ [p] }
    | none => s
  | .moveAssign h other r =>
    match s.handles[h]?, s.handles[other]? with
    | some p, some q => s.letGo p ((s.handles.set other none).set h q) r
    | _, _ => s
  | .destruct h r =>
    match s.handles[h]? with
    | some p => s.letGo p (s.handles.set h none) r
    | none => s
  | .close h r =>
    match s.pointer h with
    | none => s
    | some i =>
      match s.wrappers[i]? with
      | none => s
      | some w => s.closeWrapper true i w r
  | .read h limit str r => s.update h fun w => (w.read limit str r).2
  | .write h buffer writeAll os => s.update h fun w => (w.write os buffer writeAll).descriptor

def machine : Machine Handles Op := ⟨init, Op.apply⟩

/-! ### What is known of one wrapper -/

/-- What the calls of `close(2)` have to do with the wrapper `i`, which is now `w`, and the handles to it. -/
structure Account (handles : List (Option ℕ)) (closes : List CloseCall) (i : ℕ) (w : FDWrapper) : Prop where
  closed : w.closed = true ↔ ∃ c ∈ closes, c.wrapper = i ∧ c.succeeded = true
  live : some i ∈ handles → ∀ c ∈ closes, c.wrapper = i → c.explicit = true
  dead : some i ∉ handles → closes.countP (fun c => c.wrapper = i ∧ c.explicit = false) =
    if ∃ c ∈ closes, c.wrapper = i ∧ c.explicit = true ∧ c.succeeded = true then 0 else 1

structure Inv (s : Handles) : Prop where
  handles : ∀ i, some i ∈ s.handles → i < s.wrappers.length
  closes : ∀ c ∈ s.closes, c.wrapper < s.wrappers.length
  account : ∀ i w, s.wrappers[i]? = some w → Account s.handles s.closes i w

theorem mem_handles_of_pointer {s : Handles} {h i : ℕ} (hp : s.pointer h = some i) : some i ∈ s.handles := by
  rw [pointer, Option.join_eq_some_iff] at hp
  exact List.mem_of_getElem? hp

/-- The wrapper after a call of `close(2)`. -/
def afterClose (w : FDWrapper) (c : CloseCall) : FDWrapper :=
  if c.succeeded then { w with eof := true, closed := true } else w

theorem wrappers_closeWrapper {s : Handles} {i : ℕ} {w : FDWrapper} (hw : s.wrappers[i]? = some w) (explicit : Bool)
    (r : SyscallReturn) :
    (s.closeWrapper explicit i w r).wrappers = s.wrappers.set i (afterClose w ⟨i, explicit, r⟩) := by
  have hclose : w.close r = (systemCall "close" (toInt r.value) r.errno 0).map fun _ =>
      { w with eof := true, closed := true } := by
    rw [FDWrapper.close]
    cases systemCall "close" (toInt r.value) r.errno 0 <;> rfl
  rw [closeWrapper, afterClose, CloseCall.succeeded, hclose]
  cases systemCall "close" (toInt r.value) r.errno 0 with
  | ok n => rfl
  | error e =>
    obtain ⟨hlt, rfl⟩ := List.getElem?_eq_some_iff.1 hw
    exact (List.set_getElem_self hlt).symm

theorem exists_mem_concat {α : Type} {P : α → Prop} {l : List α} {a : α} :
    (∃ x ∈ l ++ [a], P x) ↔ (∃ x ∈ l, P x) ∨ P a := by
  simp only [List.mem_append, List.mem_singleton, or_and_right, exists_or, exists_eq_left]

namespace Account
variable {handles handles' : List (Option ℕ)} {closes : List CloseCall} {i : ℕ} {w : FDWrapper} {c : CloseCall}

theorem of_handles (h : Account handles closes i w) (hsame : some i ∈ handles' ↔ some i ∈ handles) :
    Account handles' closes i w :=
  ⟨h.closed, fun hi => h.live (hsame.1 hi), fun hi => h.dead fun hi' => hi (hsame.2 hi')⟩

theorem of_closed {w' : FDWrapper} (h : Account handles closes i w) (hw : w'.closed = w.closed) :
    Account handles closes i w' := ⟨by rw [hw]; exact h.closed, h.live, h.dead⟩

/-- A wrapper that has just been made. -/
theorem fresh (hw : w.closed = false) (hnone : ∀ c ∈ closes, c.wrapper ≠ i) (hi : some i ∈ handles) :
    Account handles closes i w where
  closed := by
    rw [hw]
    refine iff_of_false (by decide) ?_
    rintro ⟨c, hc, hci, -⟩
    exact hnone c hc hci
  live _ c hc hci := absurd hci (hnone c hc)
  dead hdead := absurd hi hdead

theorem closed_append (h : Account handles closes i w) (hc : c.wrapper = i) :
    (afterClose w c).closed = true ↔ ∃ c' ∈ closes ++ [c], c'.wrapper = i ∧ c'.succeeded = true := by
  rw [exists_mem_concat, ← h.closed, afterClose]
  split
  · rename_i hok
    exact iff_of_true rfl (.inr ⟨hc, hok⟩)
  · rename_i hfail
    exact (or_iff_left fun hok => hfail hok.2).symm

/-- A call for another wrapper. -/
theorem append_of_ne (h : Account handles closes i w) (hc : c.wrapper ≠ i) : Account handles (closes ++ [c]) i w where
  closed := by
    rw [exists_mem_concat, h.closed]
    exact (or_iff_left fun hci => hc hci.1).symm
  live hi := List.forall_mem_append.2 ⟨h.live hi, List.forall_mem_singleton.2 fun hci => absurd hci hc⟩
  dead hi := by
    simp only [List.countP_append, List.countP_singleton, exists_mem_concat, hc, false_and, or_false, decide_false,
      Bool.false_eq_true, if_false, Nat.add_zero]
    exact h.dead hi

/-- `FileDescriptor::close`, through a handle. -/
theorem append_explicit (h : Account handles closes i w) (hi : some i ∈ handles) (hc : c.wrapper = i)
    (hexp : c.explicit = true) : Account handles (closes ++ [c]) i (afterClose w c) where
  closed := h.closed_append hc
  live _ := List.forall_mem_append.2 ⟨h.live hi, List.forall_mem_singleton.2 fun _ => hexp⟩
  dead hdead := absurd hi hdead

/-- No destructor has run for a wrapper with a handle. -/
theorem countP_of_live (h : Account handles closes i w) (hi : some i ∈ handles) :
    closes.countP (fun c => c.wrapper = i ∧ c.explicit = false) = 0 := by
  refine List.countP_eq_zero.2 fun c hc hbad => ?_
  obtain ⟨hci, hexp⟩ := of_decide_eq_true hbad
  rw [h.live hi c hc hci] at hexp
  cases hexp

/-- The last handle is gone, and some call has succeeded: an explicit one. -/
theorem last_of_closed (h : Account handles closes i w) (hi : some i ∈ handles) (hdead : some i ∉ handles')
    (hw : w.closed = true) : Account handles' closes i w where
  closed := h.closed
  live hi' := absurd hi' hdead
  dead _ := by
    obtain ⟨c, hc, hci, hok⟩ := h.closed.1 hw
    rw [h.countP_of_live hi, if_pos ⟨c, hc, hci, h.live hi c hc hci, hok⟩]

/-- The last handle is gone and no call has succeeded: the destructor makes one. -/
theorem last_of_open (h : Account handles closes i w) (hi : some i ∈ handles) (hdead : some i ∉ handles')
    (hw : ¬ w.closed = true) (hc : c.wrapper = i) (hexp : c.explicit = false) :
    Account handles' (closes ++ [c]) i (afterClose w c) where
  closed := h.closed_append hc
  live hi' := absurd hi' hdead
  dead _ := by
    have hnone : ¬ ∃ c' ∈ closes ++ [c], c'.wrapper = i ∧ c'.explicit = true ∧ c'.succeeded = true := by
      rintro ⟨c', hc', hci, hexp', hok⟩
      rcases List.mem_append.1 hc' with hc' | hc'
      · exact hw (h.closed.2 ⟨c', hc', hci, hok⟩)
      · rw [List.mem_singleton.1 hc', hexp] at hexp'
        cases hexp'
    rw [if_neg hnone, List.countP_append, h.countP_of_live hi, List.countP_singleton]
    simp [hc, hexp]

end Account

namespace Inv
variable {s} {i h : ℕ} {w : FDWrapper} {r : SyscallReturn}

theorem init : Inv Handles.init where
  handles i hi := by cases hi
  closes c hc := by cases hc
  account i w hw := by cases hw

/-- New handles that point where the old ones did. -/
theorem of_handles (hs : Inv s) {handles : List (Option ℕ)} (hsame : ∀ i, some i ∈ handles ↔ some i ∈ s.handles) :
    Inv { s with handles } where
  handles i hi := hs.handles i ((hsame i).1 hi)
  closes := hs.closes
  account i w hw := (hs.account i w hw).of_handles (hsame i)

theorem update (hs : Inv s) (h : ℕ) {f : FDWrapper → FDWrapper} (hf : ∀ w, (f w).closed = w.closed) :
    Inv (s.update h f) := by
  unfold Handles.update
  split
  · exact hs
  · rename_i i _
    refine ⟨fun j hj => ?_, fun c hc => ?_, fun j w hw => ?_⟩
    · rw [List.length_modify]; exact hs.handles j hj
    · rw [List.length_modify]; exact hs.closes c hc
    · rw [List.getElem?_modify] at hw
      obtain ⟨w', hw', rfl⟩ := Option.map_eq_some_iff.1 hw
      have hacc := hs.account j w' hw'
      split
      · exact hacc.of_closed (hf w')
      · exact hacc

/-- A call of `close(2)` for the wrapper `i`, when the handles have become `handles`: what is known of the other
wrappers stays. -/
theorem closeWrapper {handles : List (Option ℕ)} (hs : Inv s) (hw : s.wrappers[i]? = some w) (explicit : Bool)
    (r : SyscallReturn) (hsub : ∀ j, some j ∈ handles → some j ∈ s.handles)
    (hother : ∀ j, j ≠ i → (some j ∈ handles ↔ some j ∈ s.handles))
    (hacc : Account handles (s.closes ++ [⟨i, explicit, r⟩]) i (afterClose w ⟨i, explicit, r⟩)) :
    Inv (Handles.closeWrapper { s with handles } explicit i w r) := by
  have hlt := (List.getElem?_eq_some_iff.1 hw).1
  have hwrappers := wrappers_closeWrapper (s := { s with handles }) hw explicit r
  refine ⟨fun j hj => ?_, ?_, fun j w' hw' => ?_⟩
  · rw [hwrappers, List.length_set]
    exact hs.handles j (hsub j hj)
  · rw [hwrappers, List.length_set]
    exact List.forall_mem_append.2 ⟨hs.closes, List.forall_mem_singleton.2 hlt⟩
  · rw [hwrappers, List.getElem?_set] at hw'
    by_cases hj : i = j
    · subst hj
      rw [if_pos rfl, if_pos hlt] at hw'
      obtain rfl := Option.some.inj hw'
      exact hacc
    · rw [if_neg hj] at hw'
      exact ((hs.account j w' hw').of_handles (hother j fun heq => hj heq.symm)).append_of_ne hj

theorem release (hs : Inv s) (hi : some i ∈ s.handles) {handles : List (Option ℕ)}
    (hsub : ∀ j, some j ∈ handles → some j ∈ s.handles)
    (hother : ∀ j, j ≠ i → (some j ∈ handles ↔ some j ∈ s.handles)) (r : SyscallReturn) :
    Inv (Handles.release { s with handles } i r) := by
  obtain ⟨w, hw⟩ : ∃ w, s.wrappers[i]? = some w := ⟨_, List.getElem?_eq_getElem (hs.handles i hi)⟩
  have hacc := hs.account i w hw
  unfold Handles.release
  by_cases hlast : some i ∈ handles
  · rw [if_pos hlast]
    refine hs.of_handles fun j => ?_
    by_cases hj : j = i
    · rw [hj]; exact iff_of_true hlast hi
    · exact hother j hj
  · rw [if_neg hlast]
    simp only [hw]
    split
    · rename_i hclosed
      refine ⟨fun j hj => hs.handles j (hsub j hj), hs.closes, fun j w' hw' => ?_⟩
      by_cases hj : j = i
      · subst hj
        obtain rfl := Option.some.inj (hw.symm.trans hw')
        exact hacc.last_of_closed hi hlast hclosed
      · exact (hs.account j w' hw').of_handles (hother j hj)
    · rename_i hopen
      exact hs.closeWrapper hw false r hsub hother (hacc.last_of_open hi hlast hopen rfl rfl)

theorem letGo (hs : Inv s) {p : Option ℕ} {handles : List (Option ℕ)} (hp : p ∈ s.handles)
    (hsub : ∀ j, some j ∈ handles → some j ∈ s.handles)
    (hother : ∀ j, some j ≠ p → some j ∈ s.handles → some j ∈ handles) (r : SyscallReturn) :
    Inv (s.letGo p handles r) := by
  cases p with
  | none => exact hs.of_handles fun j => ⟨hsub j, hother j (by simp)⟩
  | some i => exact hs.release hp hsub (fun j hj => ⟨hsub j, hother j (by simpa using hj)⟩) r

theorem construct (hs : Inv s) (hw : w.closed = false) :
    Inv { s with wrappers := s.wrappers ++ [w], handles := s.handles ++ [some s.wrappers.length] } where
  handles i hi := by
    rw [List.length_append]
    rcases List.mem_append.1 hi with hi | hi
    · exact Nat.lt_add_right _ (hs.handles i hi)
    · rw [Option.some.inj (List.mem_singleton.1 hi)]
      exact Nat.lt_add_one _
  closes c hc := by
    rw [List.length_append]
    exact Nat.lt_add_right _ (hs.closes c hc)
  account i w' hw' := by
    rw [List.getElem?_append] at hw'
    split at hw'
    · rename_i hlt
      refine (hs.account i w' hw').of_handles ?_
      rw [List.mem_append, List.mem_singleton, or_iff_left]
      intro heq
      have := Option.some.inj heq
      omega
    · rename_i hge
      obtain ⟨hi, rfl⟩ : i = s.wrappers.length ∧ w = w' := by
        have hlt := (List.getElem?_eq_some_iff.1 hw').1
        rw [List.length_singleton] at hlt
        have hi : i = s.wrappers.length := by omega
        rw [hi, Nat.sub_self] at hw'
        exact ⟨hi, Option.some.inj hw'⟩
      refine .fresh hw (fun c hc => ?_) (by simp [hi])
      have := hs.closes c hc
      omega

theorem destruct (hs : Inv s) {p : Option ℕ} (hp : s.handles[h]? = some p) (r : SyscallReturn) :
    Inv (s.letGo p (s.handles.set h none) r) := by
  refine hs.letGo (List.mem_of_getElem? hp) (fun j hj => ?_) (fun j hj hmem => ?_) r
  · rcases List.mem_or_eq_of_mem_set hj with hj | hj
    · exact hj
    · cases hj
  · obtain ⟨k, hk⟩ := List.mem_iff_getElem?.1 hmem
    refine List.mem_iff_getElem?.2 ⟨k, ?_⟩
    rw [List.getElem?_set_ne, hk]
    rintro rfl
    exact hj (Option.some.inj (hk.symm.trans hp))

theorem moveConstruct (hs : Inv s) {p : Option ℕ} (hp : s.handles[h]? = some p) :
    Inv { s with handles := s.handles.set h none ++ [p] } := by
  refine hs.of_handles fun j => ?_
  rw [List.mem_append, List.mem_singleton]
  constructor
  · rintro (hj | rfl)
    · rcases List.mem_or_eq_of_mem_set hj with hj | hj
      · exact hj
      · cases hj
    · exact List.mem_of_getElem? hp
  · intro hmem
    obtain ⟨k, hk⟩ := List.mem_iff_getElem?.1 hmem
    by_cases hkh : h = k
    · subst hkh
      exact .inr (Option.some.inj (hk.symm.trans hp))
    · exact .inl (List.mem_iff_getElem?.2 ⟨k, by rw [List.getElem?_set_ne hkh, hk]⟩)

theorem moveAssign (hs : Inv s) {other : ℕ} {p q : Option ℕ} (hp : s.handles[h]? = some p)
    (hq : s.handles[other]? = some q) (r : SyscallReturn) :
    Inv (s.letGo p ((s.handles.set other none).set h q) r) := by
  refine hs.letGo (List.mem_of_getElem? hp) (fun j hj => ?_) (fun j hj hmem => ?_) r
  · rcases List.mem_or_eq_of_mem_set hj with hj | rfl
    · rcases List.mem_or_eq_of_mem_set hj with hj | hj
      · exact hj
      · cases hj
    · exact List.mem_of_getElem? hq
  · obtain ⟨k, hk⟩ := List.mem_iff_getElem?.1 hmem
    have hkh : h ≠ k := by
      rintro rfl
      exact hj (Option.some.inj (hk.symm.trans hp))
    by_cases hko : other = k
    · -- what the other handle pointed to, `h` points to now
      subst hko
      refine List.mem_iff_getElem?.2 ⟨h, ?_⟩
      have hlt := (List.getElem?_eq_some_iff.1 hp).1
      rw [List.getElem?_set_self (by rwa [List.length_set]), ← hq, hk]
    · exact List.mem_iff_getElem?.2 ⟨k, by rw [List.getElem?_set_ne hkh, List.getElem?_set_ne hko, hk]⟩

theorem step (hs : Inv s) (op : Op) : Inv (op.apply s) := by
  cases op with
  | construct fd =>
    rcases hinit : FDWrapper.init fd with e | w
    · simp only [Op.apply, hinit]
      exact hs
    · simp only [Op.apply, hinit]
      refine hs.construct ?_
      unfold FDWrapper.init at hinit
      split at hinit
      · cases hinit
      · cases hinit
        rfl
  | duplicate h =>
    rcases hp : s.handles[h]? with _ | p
    · simp only [Op.apply, hp]
      exact hs
    · simp only [Op.apply, hp]
      refine hs.of_handles fun j => ?_
      rw [List.mem_append, List.mem_singleton, or_iff_left_of_imp]
      rintro rfl
      exact List.mem_of_getElem? hp
  | moveConstruct h =>
    rcases hp : s.handles[h]? with _ | p
    · simp only [Op.apply, hp]
      exact hs
    · simp only [Op.apply, hp]
      exact hs.moveConstruct hp
  | moveAssign h other r =>
    rcases hp : s.handles[h]? with _ | p
    · simp only [Op.apply, hp]
      exact hs
    · rcases hq : s.handles[other]? with _ | q
      · simp only [Op.apply, hp, hq]
        exact hs
      · simp only [Op.apply, hp, hq]
        exact hs.moveAssign hp hq r
  | destruct h r =>
    rcases hp : s.handles[h]? with _ | p
    · simp only [Op.apply, hp]
      exact hs
    · simp only [Op.apply, hp]
      exact hs.destruct hp r
  | close h r =>
    rcases hp : s.pointer h with _ | i
    · simp only [Op.apply, hp]
      exact hs
    · have hi := mem_handles_of_pointer hp
      obtain ⟨w, hw⟩ : ∃ w, s.wrappers[i]? = some w := ⟨_, List.getElem?_eq_getElem (hs.handles i hi)⟩
      simp only [Op.apply, hp, hw]
      exact hs.closeWrapper hw true r (fun _ hj => hj) (fun _ _ => Iff.rfl)
        ((hs.account i w hw).append_explicit hi rfl rfl)
  | read h limit str r => exact hs.update h fun w => w.closed_read limit str r
  | write h buffer writeAll os => exact hs.update h fun w => w.closed_write os buffer writeAll

end Inv

theorem inv_run (ops : List Op) : Inv (machine.run ops) := by
  induction ops using List.reverseRecOn with
  | nil => exact .init
  | append_singleton ops op ih =>
    rw [Machine.run_concat]
    exact ih.step op

/-- Over every run: a wrapper is marked closed exactly if some `close(2)` for it has succeeded; its destructor
makes one call, when the last handle is gone, exactly if no explicit close has succeeded; and without an
explicit close there is no call while there is a handle, and one afterwards. -/
theorem descriptor_closed_once (ops : List Op) :
    let s := machine.run ops
    ∀ (i : ℕ) (w : FDWrapper), s.wrappers[i]? = some w →
      (w.closed = true ↔ ∃ c ∈ s.closes, c.wrapper = i ∧ c.succeeded = true) ∧
      s.closes.countP (fun c => c.wrapper = i ∧ c.explicit = false) =
        (if some i ∉ s.handles ∧ ∀ c ∈ s.closes, c.wrapper = i → c.explicit = true → c.succeeded = false
          then 1 else 0) ∧
      ((∀ c ∈ s.closes, c.wrapper = i → c.explicit = false) →
        s.closes.countP (fun c => c.wrapper = i) = if some i ∈ s.handles then 0 else 1) := by
  intro s i w hw
  have hacc := (inv_run ops).account i w hw
  have hcount : s.closes.countP (fun c => c.wrapper = i ∧ c.explicit = false) =
      if some i ∉ s.handles ∧ ∀ c ∈ s.closes, c.wrapper = i → c.explicit = true → c.succeeded = false
        then 1 else 0 := by
    by_cases hi : some i ∈ s.handles
    · rw [if_neg fun h => h.1 hi, hacc.countP_of_live hi]
    · rw [hacc.dead hi]
      by_cases hex : ∃ c ∈ s.closes, c.wrapper = i ∧ c.explicit = true ∧ c.succeeded = true
      · rw [if_pos hex, if_neg]
        rintro ⟨-, hnone⟩
        obtain ⟨c, hc, hci, hexp, hok⟩ := hex
        rw [hnone c hc hci hexp] at hok
        cases hok
      · rw [if_neg hex, if_pos]
        refine ⟨hi, fun c hc hci hexp => ?_⟩
        by_contra hok
        exact hex ⟨c, hc, hci, hexp, by simpa using hok⟩
  refine ⟨hacc.closed, hcount, fun hnone => ?_⟩
  have hsame : s.closes.countP (fun c => c.wrapper = i) =
      s.closes.countP (fun c => c.wrapper = i ∧ c.explicit = false) :=
    List.countP_congr fun c hc => by simpa using hnone c hc
  rw [hsame, hcount]
  by_cases hi : some i ∈ s.handles
  · rw [if_neg fun h => h.1 hi, if_pos hi]
  · rw [if_pos, if_neg hi]
    refine ⟨hi, fun c hc hci hexp => ?_⟩
    rw [hnone c hc hci] at hexp
    cases hexp

/-- An explicit close that fails is made up for by the destructor of the last handle. -/
example : (machine.run [.construct 3, .duplicate 0, .close 1 ⟨-1, 5, by decide, by decide⟩,
    .destruct 0 ⟨0, 0, by decide, by decide⟩, .destruct 1 ⟨0, 0, by decide, by decide⟩]).closes.map
      (fun c => (c.wrapper, c.explicit, c.succeeded)) = [(0, true, false), (0, false, true)] := by
  decide

end Handles
end Sponge

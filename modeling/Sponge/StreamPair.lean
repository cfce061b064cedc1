import Mathlib.Logic.Function.Basic
import Sponge.FileDescriptorHandles

/-!
# Two connected stream sockets (`libsponge/util/socket.cc`, `doctests/socket_example_3.cc`)

Both ends of a connection read, write, shut down and close in any order. The connection itself is the kernel's:
it takes the first bytes of what a `writev` is given, as many as it says, and gives them out in the same order,
in pieces of any size (`Documented`). A read returns `0` at the end of the stream only, or because nothing was
asked for.

So a byte that `write` says it has sent is read once, in its place, or is still on the way, and a descriptor
with its end-of-file flag up has read all that there will ever be (`pair_carries`), unless the flag came up
because its own side was closed or shut down for reading. A read with limit `0` does not raise it.
-/

namespace Sponge

def shutRd : ℤ := 0
def shutWr : ℤ := 1
def shutRdwr : ℤ := 2

/-- `Socket::shutdown`. -/
def FDWrapper.shutdown (w : FDWrapper) (how : ℤ) (r : SyscallReturn) : Except Exception Unit × FDWrapper :=
  match systemCall "shutdown" (toInt r.value) r.errno 0 with
  | .error e => (.error e, w)
  | .ok _ =>
    if how = shutRd then (.ok (), w.registerRead)
    else if how = shutWr then (.ok (), w.registerWrite)
    else if how = shutRdwr then (.ok (), w.registerRead.registerWrite)
    else (.error (.runtimeError "Socket::shutdown() called with invalid `how`"), w)

theorem FDWrapper.flags_shutdown (w : FDWrapper) (how : ℤ) (r : SyscallReturn) :
    (w.shutdown how r).2.eof = w.eof ∧ (w.shutdown how r).2.closed = w.closed := by
  unfold shutdown
  split
  · exact ⟨rfl, rfl⟩
  split
  · exact ⟨rfl, rfl⟩
  split
  · exact ⟨rfl, rfl⟩
  split <;> exact ⟨rfl, rfl⟩

/-- The two ends, and the connection: what is on the way to an end, whether the end can send no more, and whether
it was shut down for reading. -/
structure Pair where
  ends : Bool → FDWrapper
  wire : Bool → List UInt8
  finished : Bool → Bool
  deaf : Bool → Bool

namespace Pair

/-- The ends made from two descriptor numbers. -/
def init (fds : Bool → ℕ) : Pair :=
  ⟨fun e => ⟨fds e, false, false, 0, 0, Int.natCast_nonneg _⟩, fun _ => [], fun _ => false, fun _ => false⟩

inductive Op
  | write (e : Bool) (buffer : BufferViewList) (writeAll : Bool) (os : ℕ → SyscallReturn)
  | read (e : Bool) (limit : ℕ) (r : SyscallReturn)
  | shutdown (e : Bool) (how : ℤ) (r : SyscallReturn)
  | close (e : Bool) (r : SyscallReturn)

variable (s : Pair)

def Op.apply : Op → Pair
  | .write e buffer writeAll os =>
    let run := (s.ends e).write os buffer writeAll
    { s with
      ends := Function.update s.ends e run.descriptor
      wire := Function.update s.wire (!e) (s.wire (!e) ++ transmitted run.calls) }
  | .read e limit r =>
    { s with
      ends := Function.update s.ends e ((s.ends e).read limit (s.wire e) r).2
      wire := Function.update s.wire e ((s.wire e).drop r.value.toNat) }
  | .shutdown e how r =>
    { s with
      ends := Function.update s.ends e ((s.ends e).shutdown how r).2
      finished := Function.update s.finished e (s.finished e || (0 ≤ r.value ∧ (how = shutWr ∨ how = shutRdwr)))
      deaf := Function.update s.deaf e (s.deaf e || (0 ≤ r.value ∧ (how = shutRd ∨ how = shutRdwr))) }
  | .close e r =>
    match (s.ends e).close r with
    | .ok w => { s with ends := Function.update s.ends e w, finished := Function.update s.finished e true }
    | .error _ => s

def machine (fds : Bool → ℕ) : Machine Pair Op := ⟨init fds, Op.apply⟩

/-- What the kernel may answer, as the manual pages have it, while the connection is not reset. -/
def Documented : Op → Prop
  | .write e buffer writeAll os =>
    (∀ k, (os k).value < 2 ^ 31) ∧ (s.finished e = true → ∀ k, (os k).value ≤ 0) ∧
      ∀ c ∈ ((s.ends e).write os buffer writeAll).calls, c.result.value ≤ c.bytes.length
  | .read e limit r =>
    r.value ≤ (min FDWrapper.bufferSize limit : ℕ) ∧ r.value ≤ (s.wire e).length ∧
      (r.value = 0 → limit = 0 ∨ s.wire e = [] ∧ (s.finished (!e) = true ∨ s.deaf e = true))
  | .shutdown _ how r => r.value ≤ 0 ∧ (r.value = 0 → how = shutRd ∨ how = shutWr ∨ how = shutRdwr)
  | .close _ r => r.value ≤ 0

/-- What a write has sent, by what it returned: all of its buffer if it was to write all. If it threw, some of
the first bytes were sent. -/
def sentBy (e : Bool) : Op → List UInt8
  | .write a buffer writeAll os =>
    if a = e then
      let run := (s.ends a).write os buffer writeAll
      match run.result with
      | .ok n => if writeAll then buffer.str else buffer.str.take n
      | .error _ => buffer.str.take (transmitted run.calls).length
    else []
  | _ => []

/-- What a read has returned. -/
def readBy (e : Bool) : Op → List UInt8
  | .read a limit r =>
    if a = e then
      match ((s.ends a).read limit (s.wire a) r).1 with
      | .ok str => str
      | .error _ => []
    else []
  | _ => []

/-! ### One step -/

section
variable {os : ℕ → SyscallReturn} {writeAll : Bool} {bytes : List UInt8} {run : WriteRun}

theorem transmitted_prefix (h : Delivery os writeAll bytes 0 0 run)
    (hdoc : ∀ c ∈ run.calls, c.result.value ≤ c.bytes.length) : transmitted run.calls <+: bytes := by
  cases hres : run.result with
  | ok n =>
    obtain ⟨hacc, -, hall⟩ := h.ok n hres
    cases hw : writeAll with
    | true => rw [hall hw]
    | false =>
      obtain ⟨c, hc⟩ := List.length_eq_one_iff.1 (h.once hw)
      have hbytes : c.bytes = bytes := by simpa [hc, transmitted] using (h.call 0 c (by simp [hc])).2
      rw [hc, transmitted_singleton, (hacc c (by simp [hc])).transmitted_eq, hbytes]
      exact List.take_prefix ..
  | error e =>
    obtain ⟨hpre, c, hlast, href⟩ := h.error e hres
    have hnone : c.transmitted = [] := by
      unfold WritevCall.transmitted
      cases href with
      | failed hneg => rw [if_neg (by omega)]
      | zero hzero _ => rw [if_pos (by omega), hzero]; rfl
      | tooMany hlt =>
        have := hdoc c (List.mem_of_getLast? hlast)
        omega
    obtain ⟨front, hcalls⟩ := List.getLast?_eq_some_iff.1 hlast
    rw [hcalls, List.dropLast_concat] at hpre
    rwa [hcalls, transmitted, List.flatMap_append, List.flatMap_singleton, hnone, List.append_nil]

theorem transmitted_eq_nil (h : Delivery os writeAll bytes 0 0 run) (hos : ∀ k, (os k).value ≤ 0) :
    transmitted run.calls = [] := by
  refine List.flatMap_eq_nil_iff.2 fun c hc => ?_
  obtain ⟨j, hj⟩ := List.mem_iff_getElem?.1 hc
  have hle : c.result.value ≤ 0 := by rw [(h.call j c hj).1]; exact hos _
  unfold WritevCall.transmitted
  rw [show c.result.value.toNat = 0 by omega, List.take_zero, ite_self]

end

variable {s}

theorem sentBy_write {e : Bool} {buffer : BufferViewList} {writeAll : Bool} {os : ℕ → SyscallReturn}
    (h : s.Documented (.write e buffer writeAll os)) :
    s.sentBy e (.write e buffer writeAll os) = transmitted ((s.ends e).write os buffer writeAll).calls := by
  have hdel : Delivery os writeAll buffer.str 0 0 ((s.ends e).write os buffer writeAll) :=
    FDWrapper.delivery_writeLoop h.1 writeAll (s.ends e) buffer 0 0
  have hpre := transmitted_prefix hdel h.2.2
  rw [sentBy, if_pos rfl]
  generalize (s.ends e).write os buffer writeAll = run at hdel hpre ⊢
  dsimp only
  cases hres : run.result with
  | error e => exact (List.prefix_iff_eq_take.1 hpre).symm
  | ok n =>
    obtain ⟨-, rfl, hall⟩ := hdel.ok n hres
    cases hw : writeAll with
    | true => exact (hall hw).symm
    | false =>
      rw [Nat.zero_add]
      exact (List.prefix_iff_eq_take.1 hpre).symm

theorem readBy_read {e : Bool} {limit : ℕ} {r : SyscallReturn} (h : s.Documented (.read e limit r)) :
    s.readBy e (.read e limit r) = (s.wire e).take r.value.toNat := by
  rw [readBy, if_pos rfl]
  by_cases hneg : r.value < 0
  · rw [FDWrapper.read_of_neg _ hneg, show r.value.toNat = 0 by omega]
    rfl
  · rw [FDWrapper.read_of_nonneg _ (by omega) h.1]

theorem sentBy_of_ne {a e : Bool} (h : a ≠ e) (buffer : BufferViewList) (writeAll : Bool) (os : ℕ → SyscallReturn) :
    s.sentBy e (.write a buffer writeAll os) = [] := if_neg h

theorem readBy_of_ne {a e : Bool} (h : a ≠ e) (limit : ℕ) (r : SyscallReturn) : s.readBy e (.read a limit r) = [] :=
  if_neg h

theorem eq_or_eq_not (a e : Bool) : a = e ∨ a = !e := by cases a <;> cases e <;> simp

/-- A flag that is up stays up when one is set to what it was or more. -/
theorem update_of_true {f : Bool → Bool} {a d b : Bool} (h : f d = true) (hb : f a = true → b = true) :
    Function.update f a b d = true := by
  rw [Function.update_apply]
  split
  · rename_i heq
    exact hb (heq ▸ h)
  · exact h

/-- A close that succeeded, or did nothing. -/
theorem apply_close (s : Pair) (e : Bool) (r : SyscallReturn) :
    (∃ w, w.closed = true ∧ Op.apply s (.close e r) =
      { s with ends := Function.update s.ends e w, finished := Function.update s.finished e true }) ∨
    Op.apply s (.close e r) = s := by
  simp only [Op.apply, FDWrapper.close]
  cases systemCall "close" (toInt r.value) r.errno 0 with
  | error _ => exact .inr rfl
  | ok _ => exact .inl ⟨{ s.ends e with eof := true, closed := true }, rfl, rfl⟩

/-! ### Whole runs -/

section
variable (fds : Bool → ℕ) (ops : List Op) (op : Op)

/-- All that the end `e` has sent, and all that it has read. -/
def sent (e : Bool) : List UInt8 := (machine fds).output (fun s op => s.sentBy e op) ops

def got (e : Bool) : List UInt8 := (machine fds).output (fun s op => s.readBy e op) ops

theorem sent_concat (e : Bool) : sent fds (ops ++ [op]) e = sent fds ops e ++ ((machine fds).run ops).sentBy e op :=
  Machine.output_concat ..

theorem got_concat (e : Bool) : got fds (ops ++ [op]) e = got fds ops e ++ ((machine fds).run ops).readBy e op :=
  Machine.output_concat ..

end

/-- What the state says about the bytes that were sent to an end, given those it has read. -/
structure Carries (s : Pair) (e : Bool) (sent got : List UInt8) : Prop where
  all : got ++ s.wire e = sent
  eof : (s.ends e).eof = true → (s.ends e).closed = true ∨ s.deaf e = true ∨ s.finished (!e) = true ∧ s.wire e = []

theorem carries_init (fds : Bool → ℕ) (e : Bool) : Carries (init fds) e [] [] :=
  ⟨rfl, nofun⟩

namespace Carries
variable {e : Bool} {sent got : List UInt8}

/-- The end itself has done something that leaves the connection and its flags alone. -/
theorem of_flags (h : Carries s e sent got) {s' : Pair} (hwire : s'.wire e = s.wire e)
    (heof : (s'.ends e).eof = (s.ends e).eof) (hclosed : (s'.ends e).closed = (s.ends e).closed)
    (hfin : ∀ a, s.finished a = true → s'.finished a = true) (hdeaf : s.deaf e = true → s'.deaf e = true) :
    Carries s' e sent got where
  all := by rw [hwire]; exact h.all
  eof he := by
    rw [hwire, hclosed]
    rcases h.eof (heof ▸ he) with hc | hd | ⟨hf, hw⟩
    · exact .inl hc
    · exact .inr (.inl (hdeaf hd))
    · exact .inr (.inr ⟨hfin _ hf, hw⟩)

theorem write (h : Carries s e sent got) {a : Bool} {buffer : BufferViewList} {writeAll : Bool}
    {os : ℕ → SyscallReturn} (hop : s.Documented (.write a buffer writeAll os)) :
    Carries (Op.apply s (.write a buffer writeAll os)) e (sent ++ s.sentBy (!e) (.write a buffer writeAll os)) got := by
  rcases eq_or_eq_not a e with rfl | rfl
  · obtain ⟨n, hn⟩ := (s.ends a).descriptor_writeLoop os writeAll buffer 0 0
    rw [sentBy_of_ne (Bool.self_ne_not a), List.append_nil]
    refine h.of_flags ?_ ?_ ?_ (fun _ hf => hf) (fun hd => hd)
    · exact Function.update_of_ne (Bool.self_ne_not a) ..
    · simp only [Op.apply, Function.update_self, FDWrapper.write, hn]
    · simp only [Op.apply, Function.update_self, FDWrapper.write, hn]
  · have hdel : Delivery os writeAll buffer.str 0 0 ((s.ends (!e)).write os buffer writeAll) :=
      FDWrapper.delivery_writeLoop hop.1 writeAll (s.ends (!e)) buffer 0 0
    have hends : (Op.apply s (.write (!e) buffer writeAll os)).ends e = s.ends e :=
      Function.update_of_ne (Bool.self_ne_not e) ..
    have hwire : (Op.apply s (.write (!e) buffer writeAll os)).wire e =
        s.wire e ++ transmitted ((s.ends (!e)).write os buffer writeAll).calls := by
      simp only [Op.apply, Bool.not_not, Function.update_self]
    refine ⟨?_, ?_⟩
    · rw [hwire, sentBy_write hop, ← List.append_assoc, h.all]
    · rw [hends, hwire]
      intro heof
      rcases h.eof heof with hc | hd | ⟨hf, hw⟩
      · exact .inl hc
      · exact .inr (.inl hd)
      · exact .inr (.inr ⟨hf, by rw [hw, transmitted_eq_nil hdel (hop.2.1 hf), List.append_nil]⟩)

theorem read (h : Carries s e sent got) {a : Bool} {limit : ℕ} {r : SyscallReturn}
    (hop : s.Documented (.read a limit r)) :
    Carries (Op.apply s (.read a limit r)) e sent (got ++ s.readBy e (.read a limit r)) := by
  rcases eq_or_eq_not a e with rfl | rfl
  · have hends : (Op.apply s (.read a limit r)).ends a = ((s.ends a).read limit (s.wire a) r).2 :=
      Function.update_self ..
    have hwire : (Op.apply s (.read a limit r)).wire a = (s.wire a).drop r.value.toNat := Function.update_self ..
    have hclosed : ((Op.apply s (.read a limit r)).ends a).closed = (s.ends a).closed := by
      rw [hends, FDWrapper.closed_read]
    refine ⟨?_, ?_⟩
    · rw [hwire, readBy_read hop, List.append_assoc, List.take_append_drop, h.all]
    · rw [hclosed, hwire]
      intro heof
      by_cases hold : (s.ends a).eof = true
      · rcases h.eof hold with hc | hd | ⟨hf, hw⟩
        · exact .inl hc
        · exact .inr (.inl hd)
        · exact .inr (.inr ⟨hf, by rw [hw, List.drop_nil]⟩)
      · -- the flag came up now
        have hzero : 0 < limit ∧ r.value = 0 := by
          by_contra hno
          rw [hends] at heof
          by_cases hneg : r.value < 0
          · rw [FDWrapper.read_of_neg _ hneg] at heof
            exact hold heof
          · rw [FDWrapper.read_of_nonneg _ (by omega) hop.1, if_neg hno] at heof
            exact hold heof
        rcases hop.2.2 hzero.2 with hlimit | ⟨hw, hf | hd⟩
        · omega
        · exact .inr (.inr ⟨hf, by rw [hw, List.drop_nil]⟩)
        · exact .inr (.inl hd)
  · rw [readBy_of_ne (Bool.not_ne_self e), List.append_nil]
    have hends : (Op.apply s (.read (!e) limit r)).ends e = s.ends e :=
      Function.update_of_ne (Bool.self_ne_not e) ..
    exact h.of_flags (Function.update_of_ne (Bool.self_ne_not e) ..) (by rw [hends]) (by rw [hends])
      (fun _ hf => hf) (fun hd => hd)

theorem shutdown (h : Carries s e sent got) (a : Bool) (how : ℤ) (r : SyscallReturn) :
    Carries (Op.apply s (.shutdown a how r)) e sent got := by
  have hends : ((Op.apply s (.shutdown a how r)).ends e).eof = (s.ends e).eof ∧
      ((Op.apply s (.shutdown a how r)).ends e).closed = (s.ends e).closed := by
    rcases eq_or_eq_not a e with rfl | rfl
    · simp only [Op.apply, Function.update_self]
      exact (s.ends a).flags_shutdown how r
    · simp only [Op.apply, Function.update_of_ne (Bool.self_ne_not e), and_self]
  refine h.of_flags rfl hends.1 hends.2 (fun d hd => update_of_true hd ?_) (fun hd => update_of_true hd ?_)
  · intro hold
    rw [hold, Bool.true_or]
  · intro hold
    rw [hold, Bool.true_or]

theorem close (h : Carries s e sent got) (a : Bool) (r : SyscallReturn) :
    Carries (Op.apply s (.close a r)) e sent got := by
  rcases apply_close s a r with ⟨w, hw, heq⟩ | heq
  · rw [heq]
    rcases eq_or_eq_not a e with rfl | rfl
    · refine ⟨h.all, fun _ => .inl ?_⟩
      show (Function.update s.ends a w a).closed = true
      rw [Function.update_self, hw]
    · have hends : Function.update s.ends (!e) w e = s.ends e := Function.update_of_ne (Bool.self_ne_not e) ..
      exact h.of_flags rfl (congrArg _ hends) (congrArg _ hends)
        (fun _ hd => update_of_true hd fun _ => rfl) (fun hd => hd)
  · rw [heq]; exact h

theorem step (h : Carries s e sent got) {op : Op} (hop : s.Documented op) :
    Carries (op.apply s) e (sent ++ s.sentBy (!e) op) (got ++ s.readBy e op) := by
  cases op with
  | write a buffer writeAll os =>
    have hstep := h.write hop
    rwa [← List.append_nil got] at hstep
  | read a limit r =>
    have hstep := h.read hop
    rwa [← List.append_nil sent] at hstep
  | shutdown a how r => simpa [sentBy, readBy] using h.shutdown a how r
  | close a r => simpa [sentBy, readBy] using h.close a r

end Carries

theorem carries_run {fds : Bool → ℕ} {ops : List Op} (h : (machine fds).Along Documented ops) (e : Bool) :
    Carries ((machine fds).run ops) e (sent fds ops (!e)) (got fds ops e) :=
  Machine.run_inv (P := fun ops s => Carries s e (sent fds ops (!e)) (got fds ops e)) _ (carries_init fds e)
    (fun ops op hop hops => by
      rw [sent_concat, got_concat]
      exact hops.step hop) h

theorem finished_step {e : Bool} (h : s.finished e = true) (op : Op) : (op.apply s).finished e = true := by
  cases op with
  | write a buffer writeAll os => exact h
  | read a limit r => exact h
  | shutdown a how r => exact update_of_true h fun hold => by rw [hold, Bool.true_or]
  | close a r =>
    rcases apply_close s a r with ⟨w, -, heq⟩ | heq
    · rw [heq]; exact update_of_true h fun _ => rfl
    · rw [heq]; exact h

theorem sentBy_of_finished {e : Bool} (h : s.finished e = true) {op : Op} (hop : s.Documented op) :
    s.sentBy e op = [] := by
  cases op with
  | write a buffer writeAll os =>
    rcases eq_or_eq_not a e with rfl | rfl
    · rw [sentBy_write hop]
      exact transmitted_eq_nil (FDWrapper.delivery_writeLoop hop.1 writeAll (s.ends a) buffer 0 0) (hop.2.1 h)
    · exact sentBy_of_ne (Bool.not_ne_self e) ..
  | read a limit r => rfl
  | shutdown a how r => rfl
  | close a r => rfl

/-- An end that can send no more sends no more. -/
theorem sent_of_finished {fds : Bool → ℕ} {ops : List Op} {e : Bool}
    (hfin : ((machine fds).run ops).finished e = true) {more : List Op}
    (h : (machine fds).Along Documented (ops ++ more)) : sent fds (ops ++ more) e = sent fds ops e := by
  induction more using List.reverseRecOn with
  | nil => rw [List.append_nil]
  | append_singleton more op ih =>
    rw [← List.append_assoc] at h ⊢
    obtain ⟨hmore, hop⟩ := (machine fds).along_concat.1 h
    have hfin' := (machine fds).run_stable (P := fun s => s.finished e = true)
      (fun _ op hs => finished_step hs op) hfin more
    rw [sent_concat, ih hmore, sentBy_of_finished hfin' hop, List.append_nil]

/-- In every run: all that an end was sent is what it has read and what is on the way; and if its end-of-file flag
is up, and not because the end itself was closed or shut down, it has read all that is ever sent to it. -/
theorem pair_carries {fds : Bool → ℕ} {ops : List Op} (h : (machine fds).Along Documented ops) (e : Bool) :
    got fds ops e ++ ((machine fds).run ops).wire e = sent fds ops (!e) ∧
    ((((machine fds).run ops).ends e).eof = true → (((machine fds).run ops).ends e).closed = false →
      ((machine fds).run ops).deaf e = false →
      ∀ more, (machine fds).Along Documented (ops ++ more) → got fds ops e = sent fds (ops ++ more) (!e)) := by
  have hc := carries_run h e
  refine ⟨hc.all, fun heof hopen hhears more hmore => ?_⟩
  rcases hc.eof heof with hclosed | hdeaf | ⟨hfin, hwire⟩
  · rw [hopen] at hclosed; cases hclosed
  · rw [hhears] at hdeaf; cases hdeaf
  · rw [sent_of_finished hfin hmore, ← hc.all, hwire, List.append_nil]

/-- A call that returned `n`. -/
def returned (n : ℕ) : SyscallReturn := ⟨n, 0, by omega, by omega⟩

/-- One end sends eight bytes in two pieces and closes; the other reads them at once, and then the end. -/
def hiThere : List Op :=
  [.write true ⟨[[104, 105, 32], [116, 104, 101, 114, 101]]⟩ true fun _ => returned 4,
    .read false (2 ^ 64 - 1) (returned 8), .close true (returned 0), .read false (2 ^ 64 - 1) (returned 0)]

theorem along_hiThere : (machine fun _ => 3).Along Documented hiThere := by
  rw [show hiThere = [] ++ [hiThere[0]] ++ [hiThere[1]] ++ [hiThere[2]] ++ [hiThere[3]] from rfl]
  simp only [Machine.along_concat]
  refine ⟨⟨⟨⟨Machine.along_nil _, ?_⟩, ?_⟩, ?_⟩, ?_⟩
  · refine ⟨fun _ => ?_, ?_, by decide +kernel⟩
    · show (4 : ℤ) < 2 ^ 31
      decide
    · rintro ⟨⟩
  · exact ⟨by decide +kernel, by decide +kernel, by decide +kernel⟩
  · exact Int.le_refl 0
  · exact ⟨by decide +kernel, by decide +kernel, by decide +kernel⟩

theorem pair_carries_hiThere : got (fun _ => 3) hiThere false = sent (fun _ => 3) (hiThere ++ []) true ∧
    sent (fun _ => 3) hiThere true = [104, 105, 32, 116, 104, 101, 114, 101] :=
  ⟨(pair_carries along_hiThere false).2 (by decide +kernel) (by decide +kernel) (by decide +kernel) []
    (by rw [List.append_nil]; exact along_hiThere), by decide +kernel⟩

end Pair
end Sponge

import Sponge.Buffer
import Mathlib.Algebra.Order.Ring.Int

/-!
# File descriptors (`libsponge/util/file_descriptor.cc`)

All handles to a descriptor share one `FDWrapper`. A system call is the kernel's: it is given by what it
returned and the `errno` it left, and follows its manual page in that a failure is `-1` with an `errno`
other than `0` (`SyscallReturn`). The wrapper `SystemCall` takes an `int`, so a longer result is cut to
32 bits first.

`write` keeps a record of its `writev` calls. What a call has transmitted is the first bytes of its
views, as many as it returned; `Delivery` is what the loop makes of that, whatever the sequence of results.
-/

namespace Sponge

structure SyscallReturn where
  value : ℤ
  errno : ℤ
  neg_one_le : -1 ≤ value
  errno_ne_zero : value < 0 → errno ≠ 0

/-- The conversion of a wider integer to `int`. -/
def toInt (n : ℤ) : ℤ := n.bmod (2 ^ 32)

/-- The conversion of a signed integer to `size_t`. -/
def toSizeT (n : ℤ) : ℕ := (n % 2 ^ 64).toNat

def systemCall (attempt : String) (returnValue errno errnoMask : ℤ) : Except Exception ℤ :=
  if returnValue ≥ 0 ∨ errno = errnoMask then .ok returnValue
  else .error (.unixError attempt errno)

structure FDWrapper where
  fd : ℤ
  eof : Bool
  closed : Bool
  readCount : UInt32
  writeCount : UInt32
  fd_nonneg : 0 ≤ fd
deriving DecidableEq

namespace FDWrapper

def init (fd : ℤ) : Except Exception FDWrapper :=
  if h : fd < 0 then .error (.runtimeError ("invalid fd number:" ++ toString fd))
  else .ok ⟨fd, false, false, 0, 0, Int.not_lt.1 h⟩

variable (w : FDWrapper)

def close (r : SyscallReturn) : Except Exception FDWrapper := do
  let _ ← systemCall "close" (toInt r.value) r.errno 0
  return { w with eof := true, closed := true }

def registerRead : FDWrapper := { w with readCount := w.readCount + 1 }

def registerWrite : FDWrapper := { w with writeCount := w.writeCount + 1 }

/-- The maximum size of a read. -/
def bufferSize : ℕ := 1024 * 1024

/-- No `std::string` is longer. -/
def maxSize : ℕ := 2 ^ 63 - 1

/-- `FileDescriptor::read`; `str` is what the kernel has put into the buffer. -/
def read (limit : ℕ) (str : List UInt8) (r : SyscallReturn) : Except Exception (List UInt8) × FDWrapper :=
  let sizeToRead := min bufferSize limit
  match systemCall "read" (toInt r.value) r.errno 0 with
  | .error e => (.error e, w)
  | .ok bytesRead =>
    let w := if limit > 0 ∧ bytesRead = 0 then { w with eof := true } else w
    if bytesRead > sizeToRead then (.error (.runtimeError "read() read more than requested"), w)
    -- a count that has become negative as an `int` is too much for `resize`
    else if toSizeT bytesRead > maxSize then (.error (.lengthError "basic_string::_M_replace_aux"), w)
    else (.ok (str.take (toSizeT bytesRead)), w.registerRead)

/-- One pass of the loop of `write`: the bytes written and what is left of the buffer. -/
def writeOnce (buffer : BufferViewList) (r : SyscallReturn) :
    Except Exception (ℤ × BufferViewList) × FDWrapper :=
  match systemCall "writev" (toInt r.value) r.errno 0 with
  | .error e => (.error e, w)
  | .ok bytesWritten =>
    if bytesWritten = 0 ∧ buffer.size ≠ 0 then
      (.error (.runtimeError "write returned 0 given non-empty input buffer"), w)
    else if bytesWritten > buffer.size then
      (.error (.runtimeError "write wrote more than length of input buffer"), w)
    else
      let w := w.registerWrite
      match buffer.removePrefix (toSizeT bytesWritten) with
      | .error e => (.error e, w)
      | .ok rest => (.ok (bytesWritten, rest), w)

end FDWrapper

theorem toInt_of_lt {n : ℤ} (h1 : -1 ≤ n) (h2 : n < 2 ^ 31) : toInt n = n := by
  unfold toInt
  rw [Int.bmod_eq_of_le (by omega) (by omega)]

theorem toSizeT_of_nonneg {n : ℤ} (h : 0 ≤ n) (hlt : n < 2 ^ 31) : toSizeT n = n.toNat := by
  unfold toSizeT
  rw [Int.emod_eq_of_lt h (by omega)]

theorem toSizeT_toInt_eq_zero_iff (n : ℤ) : toSizeT (toInt n) = 0 ↔ toInt n = 0 := by
  have h1 := Int.le_bmod (x := n) (m := 2 ^ 32) (by decide)
  have h2 := Int.bmod_lt (x := n) (m := 2 ^ 32) (by decide)
  unfold toSizeT toInt
  omega

/-- A call of `writev`: the views it was given and what it returned. -/
structure WritevCall where
  iovecs : List (List UInt8)
  result : SyscallReturn

namespace WritevCall

variable (c : WritevCall)

/-- The bytes of the views together. -/
def bytes : List UInt8 := c.iovecs.flatten

def transmitted : List UInt8 := if 0 ≤ c.result.value then c.bytes.take c.result.value.toNat else []

/-- A count that is not more than there was, and `0` only if there was nothing. -/
structure Accepted : Prop where
  nonneg : 0 ≤ c.result.value
  le : c.result.value ≤ c.bytes.length
  pos : c.result.value = 0 → c.bytes = []

/-- The call makes `write` throw `e`. -/
inductive Refused : Exception → Prop
  | failed : c.result.value < 0 → Refused (.unixError "writev" c.result.errno)
  | zero : c.result.value = 0 → c.bytes ≠ [] →
    Refused (.runtimeError "write returned 0 given non-empty input buffer")
  | tooMany : c.bytes.length < c.result.value →
    Refused (.runtimeError "write wrote more than length of input buffer")

end WritevCall

def transmitted (calls : List WritevCall) : List UInt8 := calls.flatMap WritevCall.transmitted

/-- What a call of `write` comes to: the value returned or thrown, the descriptor and the calls made. -/
structure WriteRun where
  result : Except Exception ℕ
  descriptor : FDWrapper
  calls : List WritevCall

namespace FDWrapper

variable {w w' : FDWrapper} {buffer rest : BufferViewList} {r : SyscallReturn} {n : ℤ}

theorem writeOnce_size_lt (h : w.writeOnce buffer r = (.ok (n, rest), w')) (hrest : rest.size ≠ 0) :
    rest.size < buffer.size := by
  unfold writeOnce systemCall at h
  split at h
  · cases h
  rename_i m hm
  obtain rfl : toInt r.value = m := by
    split at hm
    · exact Except.ok.inj hm
    · cases hm
  split at h
  · cases h
  rename_i hzero
  split at h
  · cases h
  split at h
  · cases h
  rename_i hok
  obtain ⟨⟨rfl, rfl⟩, rfl⟩ : (toInt r.value = n ∧ _ = rest) ∧ w.registerWrite = w' := by simpa using h
  obtain ⟨hle, hstr⟩ := BufferViewList.removePrefix_ok hok
  have hpos := toSizeT_toInt_eq_zero_iff r.value
  rw [BufferViewList.size_eq, hstr, List.length_drop] at hrest ⊢
  rw [BufferViewList.size_eq] at hzero ⊢
  omega

def writeLoop (os : ℕ → SyscallReturn) (writeAll : Bool) (w : FDWrapper) (buffer : BufferViewList)
    (totalBytesWritten k : ℕ) : WriteRun :=
  let call : WritevCall := ⟨buffer.asIovecs, os k⟩
  match _h : w.writeOnce buffer (os k) with
  | (.error e, w') => ⟨.error e, w', [call]⟩
  | (.ok (n, rest), w') =>
    if hrest : writeAll = true ∧ rest.size ≠ 0 then
      let run := writeLoop os writeAll w' rest (totalBytesWritten + toSizeT n) (k + 1)
      { run with calls := call :: run.calls }
    else ⟨.ok (totalBytesWritten + toSizeT n), w', [call]⟩
termination_by buffer.size
decreasing_by exact writeOnce_size_lt _h hrest.2

/-- `FileDescriptor::write`, where the calls of `writev` return `os 0`, `os 1`, … -/
def write (os : ℕ → SyscallReturn) (w : FDWrapper) (buffer : BufferViewList) (writeAll : Bool) : WriteRun :=
  writeLoop os writeAll w buffer 0 0

section Loop

variable {os : ℕ → SyscallReturn} {writeAll : Bool} {total k : ℕ} {e : Exception}

theorem writeLoop_of_error (h : w.writeOnce buffer (os k) = (.error e, w')) :
    writeLoop os writeAll w buffer total k = ⟨.error e, w', [⟨buffer.asIovecs, os k⟩]⟩ := by
  rw [writeLoop]
  split <;> simp_all

theorem writeLoop_of_ok (h : w.writeOnce buffer (os k) = (.ok (n, rest), w')) :
    writeLoop os writeAll w buffer total k =
      if writeAll = true ∧ rest.size ≠ 0 then
        { writeLoop os writeAll w' rest (total + toSizeT n) (k + 1) with
          calls := ⟨buffer.asIovecs, os k⟩ ::
            (writeLoop os writeAll w' rest (total + toSizeT n) (k + 1)).calls }
      else ⟨.ok (total + toSizeT n), w', [⟨buffer.asIovecs, os k⟩]⟩ := by
  rw [writeLoop]
  split
  · simp_all
  · rename_i hok
    rw [h] at hok
    obtain ⟨⟨rfl, rfl⟩, rfl⟩ : (n = _ ∧ rest = _) ∧ w' = _ := by simpa using hok
    rfl

end Loop

section Spec

theorem writeOnce_cases (w : FDWrapper) (buffer : BufferViewList) (r : SyscallReturn) (hr : r.value < 2 ^ 31) :
    (∃ e, w.writeOnce buffer r = (.error e, w) ∧ WritevCall.Refused ⟨buffer.asIovecs, r⟩ e) ∨
    (∃ rest, w.writeOnce buffer r = (.ok (r.value, rest), w.registerWrite) ∧
      WritevCall.Accepted ⟨buffer.asIovecs, r⟩ ∧ rest.str = buffer.str.drop r.value.toNat) := by
  have hbytes : WritevCall.bytes ⟨buffer.asIovecs, r⟩ = buffer.str := by
    rw [WritevCall.bytes, BufferViewList.asIovecs_eq]; rfl
  have hsize := buffer.size_eq
  by_cases hneg : r.value < 0
  · have hcall : systemCall "writev" (toInt r.value) r.errno 0 = .error (.unixError "writev" r.errno) := by
      rw [systemCall, toInt_of_lt r.neg_one_le hr, if_neg]
      exact not_or.2 ⟨by omega, r.errno_ne_zero hneg⟩
    exact .inl ⟨_, by rw [writeOnce, hcall], .failed hneg⟩
  have hcall : systemCall "writev" (toInt r.value) r.errno 0 = .ok r.value := by
    rw [systemCall, toInt_of_lt r.neg_one_le hr, if_pos (.inl (by omega))]
  simp only [writeOnce, hcall]
  by_cases hzero : r.value = 0 ∧ buffer.size ≠ 0
  · refine .inl ⟨_, if_pos hzero, .zero hzero.1 fun hnil => hzero.2 ?_⟩
    rw [hsize, ← hbytes, hnil]
    rfl
  by_cases hmany : r.value > buffer.size
  · refine .inl ⟨_, by rw [if_neg hzero, if_pos hmany], .tooMany ?_⟩
    rw [hbytes]
    show _ < r.value
    omega
  obtain ⟨rest, hrest, hstr⟩ := BufferViewList.removePrefix_of_le (l := buffer) (n := r.value.toNat) (by omega)
  refine .inr ⟨rest, ?_, ⟨by show 0 ≤ r.value; omega, ?_, fun h0 => ?_⟩, hstr⟩
  · rw [if_neg hzero, if_neg hmany, toSizeT_of_nonneg (by omega) hr, hrest]
  · rw [hbytes]; show r.value ≤ _; omega
  · rw [hbytes]
    exact List.eq_nil_of_length_eq_zero (by have : r.value = 0 := h0; omega)

end Spec

end FDWrapper

namespace WritevCall

variable {c : WritevCall}

theorem Accepted.transmitted_eq (h : c.Accepted) : c.transmitted = c.bytes.take c.result.value.toNat :=
  if_pos h.nonneg

theorem Accepted.length_transmitted (h : c.Accepted) : c.transmitted.length = c.result.value.toNat := by
  have := h.le
  rw [h.transmitted_eq, List.length_take]
  omega

theorem Refused.not_accepted {e : Exception} (h : c.Refused e) : ¬ c.Accepted := by
  intro hacc
  cases h with
  | failed hneg => exact absurd hacc.nonneg (by omega)
  | zero hzero hne => exact hne (hacc.pos hzero)
  | tooMany hlt => exact absurd hacc.le (by omega)

end WritevCall

@[simp] theorem transmitted_cons (c : WritevCall) (calls : List WritevCall) :
    transmitted (c :: calls) = c.transmitted ++ transmitted calls := List.flatMap_cons

@[simp] theorem transmitted_singleton (c : WritevCall) : transmitted [c] = c.transmitted := List.flatMap_singleton ..

/-- What the loop does from its call `k` on, with `bytes` left to write and `total` written before. -/
structure Delivery (os : ℕ → SyscallReturn) (writeAll : Bool) (bytes : List UInt8) (total k : ℕ)
    (run : WriteRun) : Prop where
  pos : 1 ≤ run.calls.length
  le : run.calls.length ≤ max 1 bytes.length
  call : ∀ j c, run.calls[j]? = some c →
    c.result = os (k + j) ∧ c.bytes = bytes.drop (transmitted (run.calls.take j)).length
  once : writeAll = false → run.calls.length = 1
  ok : ∀ n, run.result = .ok n → (∀ c ∈ run.calls, c.Accepted) ∧
    n = total + (transmitted run.calls).length ∧ (writeAll = true → transmitted run.calls = bytes)
  error : ∀ e, run.result = .error e → transmitted run.calls.dropLast <+: bytes ∧
    ∃ c, run.calls.getLast? = some c ∧ c.Refused e

namespace Delivery

variable {os : ℕ → SyscallReturn} {writeAll : Bool} {bytes : List UInt8} {total k : ℕ} {w : FDWrapper}
  {c : WritevCall}

theorem of_refused {e : Exception} (hos : c.result = os k) (hbytes : c.bytes = bytes) (h : c.Refused e) :
    Delivery os writeAll bytes total k ⟨.error e, w, [c]⟩ where
  pos := Nat.le_refl 1
  le := Nat.le_max_left ..
  call := by
    rintro (_ | j) c' hc
    · obtain rfl : c = c' := by simpa using hc
      exact ⟨hos, hbytes⟩
    · simp at hc
  once _ := rfl
  ok := by rintro n ⟨⟩
  error := by
    rintro e' ⟨⟩
    exact ⟨List.nil_prefix, c, rfl, h⟩

/-- The last pass: it was the only one, or nothing is left. -/
theorem of_accepted (hos : c.result = os k) (hbytes : c.bytes = bytes) (h : c.Accepted)
    (hend : writeAll = true → bytes.drop c.result.value.toNat = []) :
    Delivery os writeAll bytes total k ⟨.ok (total + c.result.value.toNat), w, [c]⟩ where
  pos := Nat.le_refl 1
  le := Nat.le_max_left ..
  call := by
    rintro (_ | j) c' hc
    · obtain rfl : c = c' := by simpa using hc
      exact ⟨hos, hbytes⟩
    · simp at hc
  once _ := rfl
  ok := by
    rintro n ⟨⟩
    rw [transmitted_singleton, h.length_transmitted]
    refine ⟨by simpa using h, rfl, fun hall => ?_⟩
    rw [h.transmitted_eq, hbytes]
    exact List.take_of_length_le (List.drop_eq_nil_iff.1 (hend hall))
  error := by rintro e ⟨⟩

/-- A pass before the rest of the loop. -/
theorem cons {run : WriteRun} (hos : c.result = os k) (hbytes : c.bytes = bytes) (h : c.Accepted)
    (hall : writeAll = true) (hrest : bytes.drop c.result.value.toNat ≠ [])
    (hrun : Delivery os writeAll (bytes.drop c.result.value.toNat) (total + c.result.value.toNat) (k + 1) run) :
    Delivery os writeAll bytes total k { run with calls := c :: run.calls } := by
  have hsent : c.transmitted = bytes.take c.result.value.toNat := by rw [h.transmitted_eq, hbytes]
  have hlen := h.length_transmitted
  have hpos := List.length_pos_iff.2 hrest
  have hvalue : c.result.value.toNat ≠ 0 := by
    intro h0
    have hnonneg := h.nonneg
    have hnil : bytes = [] := hbytes ▸ h.pos (by omega)
    exact hrest (by rw [hnil, List.drop_nil])
  rw [List.length_drop] at hpos
  refine ⟨by simp, ?_, ?_, by simp [hall], ?_, ?_⟩
  · have := hrun.le
    rw [List.length_drop] at this
    show run.calls.length + 1 ≤ _
    omega
  · rintro (_ | j) c' hc
    · obtain rfl : c = c' := by simpa using hc
      exact ⟨hos, hbytes⟩
    · obtain ⟨hos', hbytes'⟩ := hrun.call j c' (by simpa using hc)
      refine ⟨by rw [hos']; congr 1; omega, ?_⟩
      rw [hbytes', List.drop_drop, List.take_succ_cons, transmitted_cons, List.length_append, hlen]
  · intro n hn
    obtain ⟨hacc, hsum, heq⟩ := hrun.ok n hn
    refine ⟨List.forall_mem_cons.2 ⟨h, hacc⟩, ?_, fun _ => ?_⟩
    · rw [transmitted_cons, List.length_append, hlen, hsum, Nat.add_assoc]
    · rw [transmitted_cons, heq hall, hsent, List.take_append_drop]
  · intro e he
    obtain ⟨hpre, last, hlast, href⟩ := hrun.error e he
    have hne : run.calls ≠ [] := by
      rintro h
      rw [h] at hlast
      cases hlast
    refine ⟨?_, last, ?_, href⟩
    · rw [List.dropLast_cons_of_ne_nil hne, transmitted_cons, hsent]
      conv_rhs => rw [← List.take_append_drop c.result.value.toNat bytes]
      exact (List.prefix_append_right_inj _).2 hpre
    · rw [← hlast]
      exact List.getLast?_cons_of_ne_nil hne

end Delivery

namespace FDWrapper

variable {os : ℕ → SyscallReturn} (hos : ∀ k, (os k).value < 2 ^ 31)
include hos

theorem delivery_writeLoop (writeAll : Bool) (w : FDWrapper) (buffer : BufferViewList) (total k : ℕ) :
    Delivery os writeAll buffer.str total k (writeLoop os writeAll w buffer total k) := by
  induction hn : buffer.size using Nat.strongRecOn generalizing w buffer total k with
  | ind n ih =>
    have hbytes : WritevCall.bytes ⟨buffer.asIovecs, os k⟩ = buffer.str := by
      rw [WritevCall.bytes, BufferViewList.asIovecs_eq]; rfl
    rcases writeOnce_cases w buffer (os k) (hos k) with ⟨e, heq, href⟩ | ⟨rest, heq, hacc, hstr⟩
    · rw [writeLoop_of_error heq]
      exact .of_refused rfl hbytes href
    · rw [writeLoop_of_ok heq, toSizeT_of_nonneg hacc.nonneg (hos k)]
      split
      · rename_i hcont
        refine .cons rfl hbytes hacc hcont.1 ?_ ?_
        · rw [← hstr]
          intro hnil
          exact hcont.2 (by rw [BufferViewList.size_eq, hnil]; rfl)
        · rw [← hstr]
          exact ih _ (hn ▸ writeOnce_size_lt heq hcont.2) _ _ _ _ rfl
      · rename_i hstop
        refine .of_accepted rfl hbytes hacc fun hall => ?_
        rw [← hstr]
        have : rest.size = 0 := by
          by_contra h
          exact hstop ⟨hall, h⟩
        rwa [BufferViewList.size_eq, List.length_eq_zero_iff] at this

/-- Whatever the calls of `writev` return: `write` makes finitely many, each on what the earlier ones
have left; it returns when none of them is refused, and has then sent the buffer once and in order; and
what was sent before it throws is a prefix of the buffer. -/
theorem write_delivers (w : FDWrapper) (buffer : BufferViewList) (writeAll : Bool) :
    let run := write os w buffer writeAll
    (1 ≤ run.calls.length ∧ run.calls.length ≤ max 1 buffer.size) ∧
    (∀ k c, run.calls[k]? = some c →
      c.result = os k ∧ c.bytes = buffer.str.drop (transmitted (run.calls.take k)).length) ∧
    ((∃ n, run.result = .ok n) ↔ ∀ c ∈ run.calls, c.Accepted) ∧
    (writeAll = true → ∀ n, run.result = .ok n → n = buffer.size ∧ transmitted run.calls = buffer.str) ∧
    (writeAll = false → ∃ c, run.calls = [c] ∧ ∀ n, run.result = .ok n → n = c.result.value) ∧
    (∀ e, run.result = .error e → transmitted run.calls.dropLast <+: buffer.str ∧
      e ≠ .outOfRange "BufferListView::remove_prefix" ∧
      ∃ c, run.calls.getLast? = some c ∧ c.Refused e) := by
  intro run
  have h : Delivery os writeAll buffer.str 0 0 run := delivery_writeLoop hos writeAll w buffer 0 0
  have hsize := buffer.size_eq
  refine ⟨⟨h.pos, hsize ▸ h.le⟩, fun k c hc => ?_, ⟨?_, ?_⟩, ?_, ?_, ?_⟩
  · simpa using h.call k c hc
  · rintro ⟨n, hn⟩
    exact (h.ok n hn).1
  · intro hacc
    cases hres : run.result with
    | ok n => exact ⟨n, rfl⟩
    | error e =>
      obtain ⟨-, c, hlast, href⟩ := h.error e hres
      exact absurd (hacc c (List.mem_of_getLast? hlast)) href.not_accepted
  · intro hall n hn
    obtain ⟨-, hsum, heq⟩ := h.ok n hn
    exact ⟨by rw [hsum, heq hall, hsize, Nat.zero_add], heq hall⟩
  · intro hone
    obtain ⟨c, hc⟩ := List.length_eq_one_iff.1 (h.once hone)
    refine ⟨c, hc, fun n hn => ?_⟩
    obtain ⟨hacc, hsum, -⟩ := h.ok n hn
    have hc' := hacc c (by simp [hc])
    have hnonneg := hc'.nonneg
    rw [hsum, hc, transmitted_singleton, hc'.length_transmitted]
    omega
  · intro e he
    obtain ⟨hpre, c, hlast, href⟩ := h.error e he
    refine ⟨hpre, ?_, c, hlast, href⟩
    rintro rfl
    cases href

omit hos in
theorem write_delivers_across_views :
    (write (fun _ => ⟨2, 0, by decide, by decide⟩) ⟨3, false, false, 0, 0, by decide⟩
      ⟨[[1], [], [2, 3, 4]]⟩ true).result = .ok 4 ∧
    transmitted (write (fun _ => ⟨2, 0, by decide, by decide⟩) ⟨3, false, false, 0, 0, by decide⟩
      ⟨[[1], [], [2, 3, 4]]⟩ true).calls = [1, 2, 3, 4] := by
  have hres : (write (fun _ => ⟨2, 0, by decide, by decide⟩) ⟨3, false, false, 0, 0, by decide⟩
      ⟨[[1], [], [2, 3, 4]]⟩ true).result = .ok 4 := by decide +kernel
  exact ⟨hres, ((write_delivers (fun _ => by decide) _ _ true).2.2.2.1 rfl 4 hres).2⟩

end FDWrapper
end Sponge

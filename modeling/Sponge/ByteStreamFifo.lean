import Mathlib.Algebra.Order.Ring.Nat
import Sponge.ByteStream
import Sponge.Lib.Fifo

/-!
# The byte stream is a bounded FIFO

`Op` is one call on a `ByteStream`. `Op.onFifo` says what the call is for, on a queue that remembers
its history (`Fifo`), and `Refines` relates the two: the buffer is the queue's contents and the two
`size_t` counters count, modulo `2^64`, what the queue has accepted and given out. Every call keeps
`Refines` (`Refines.step`), so a whole run does (`run_refines`), and what the calls took in and gave
out over a run is the queue's own history.
-/

namespace Sponge.ByteStream

inductive Op
  | write (data : List UInt8)
  | endInput
  | setError
  | reader (op : ReaderOp)
deriving DecidableEq, Repr

namespace Op

def apply (s : ByteStream) : Op → ByteStream
  | .write data => (s.write data).2
  | .endInput => s.endInput
  | .setError => s.setError
  | .reader op => op.apply s

theorem capacity_apply (s : ByteStream) (op : Op) : (op.apply s).capacity = s.capacity := by
  cases op with
  | write data => simp only [apply, ByteStream.write]; split <;> rfl
  | endInput | setError => rfl
  | reader op => cases op <;> rfl

/-- The part of a write's argument that the returned count says was accepted. -/
def accepted (s : ByteStream) : Op → List UInt8
  | .write data => data.take (s.write data).1.toNat
  | _ => []

def removed (s : ByteStream) : Op → List UInt8
  | .reader op => op.removed s
  | _ => []

/-- What a call is for, on the abstract queue. -/
def onFifo (q : Fifo UInt8) : Op → Fifo UInt8
  | .write data => q.put data
  | .endInput => q.close
  | .setError => q
  | .reader (.peekOutput _) => q
  | .reader (.popOutput len) => q.take len.toNat
  | .reader (.read len) => q.take len.toNat

end Op

def machine (capacity : UInt64) : Machine ByteStream Op := ⟨init capacity, Op.apply⟩

def fifoMachine (capacity : UInt64) : Machine (Fifo UInt8) Op := ⟨.empty capacity.toNat, Op.onFifo⟩

/-- The stream `s` implements the queue `q`. -/
structure Refines (q : Fifo UInt8) (s : ByteStream) : Prop where
  capacity : s.capacity.toNat = q.capacity
  buffer : s.buffer = q.contents
  written : s.bytesWritten = UInt64.ofNat q.accepted.length
  read : s.bytesRead = UInt64.ofNat q.taken
  ended : s.inputEnded = q.closed

namespace Refines
variable {q : Fifo UInt8} {s : ByteStream}

theorem init (capacity : UInt64) : Refines (.empty capacity.toNat) (init capacity) :=
  ⟨rfl, rfl, rfl, rfl, rfl⟩

theorem bufferSize_eq (h : Refines q s) : s.bufferSize = q.contents.length := by
  rw [bufferSize, h.buffer]

theorem bufferSize_le (h : Refines q s) : s.bufferSize ≤ s.capacity.toNat := by
  rw [h.bufferSize_eq, h.capacity]; exact q.length_contents_le

theorem acceptLen_eq (h : Refines q s) (data : List UInt8) : s.acceptLen data = q.fits data := by
  rw [acceptLen, Fifo.fits, h.ended, h.capacity, h.bufferSize_eq]

theorem write_fst (h : Refines q s) (data : List UInt8) : (s.write data).1.toNat = q.fits data := by
  rw [write_eq h.bufferSize_le, ← h.acceptLen_eq]
  have h1 := s.acceptLen_le data
  have h2 := s.capacity.toNat_lt
  exact UInt64.toNat_ofNat_of_lt' (by simp only [UInt64.size]; omega)

theorem write (h : Refines q s) (data : List UInt8) : Refines (q.put data) (s.write data).2 := by
  rw [write_eq h.bufferSize_le, h.acceptLen_eq]
  refine ⟨h.capacity, ?_, ?_, h.read, h.ended⟩
  · rw [Fifo.contents_put, h.buffer]
  · have hlen : (data.take (q.fits data)).length = q.fits data := by
      rw [List.length_take]; unfold Fifo.fits; split <;> omega
    show s.bytesWritten + UInt64.ofNat (q.fits data) = UInt64.ofNat (q.accepted ++ _).length
    rw [h.written, List.length_append, hlen, UInt64.ofNat_add]

theorem popOutput (h : Refines q s) (len : UInt64) : Refines (q.take len.toNat) (s.popOutput len) := by
  refine ⟨h.capacity, ?_, h.written, ?_, h.ended⟩
  · rw [Fifo.contents_take, ← h.buffer]
    show s.buffer.drop (min len.toNat s.bufferSize) = s.buffer.drop len.toNat
    rcases Nat.le_total len.toNat s.bufferSize with hl | hl
    · rw [Nat.min_eq_left hl]
    · rw [Nat.min_eq_right hl, List.drop_eq_nil_of_le hl]
      exact List.drop_eq_nil_of_le (Nat.le_refl _)
  · show s.bytesRead + UInt64.ofNat (min len.toNat s.bufferSize) = UInt64.ofNat (q.taken + _)
    rw [h.read, h.bufferSize_eq, UInt64.ofNat_add]

theorem step (h : Refines q s) (op : Op) : Refines (op.onFifo q) (op.apply s) := by
  cases op with
  | write data => exact h.write data
  | endInput => exact ⟨h.capacity, h.buffer, h.written, h.read, rfl⟩
  | setError => exact ⟨h.capacity, h.buffer, h.written, h.read, h.ended⟩
  | reader op =>
    cases op with
    | peekOutput len => exact h
    | popOutput len => exact h.popOutput len
    | read len =>
      show Refines (q.take len.toNat) (s.read len).2
      rw [read_snd]; exact h.popOutput len

theorem accepted_step (h : Refines q s) (op : Op) :
    (op.onFifo q).accepted = q.accepted ++ op.accepted s := by
  cases op with
  | write data =>
    show q.accepted ++ data.take (q.fits data) = q.accepted ++ data.take (s.write data).1.toNat
    rw [h.write_fst]
  | endInput | setError => exact (List.append_nil _).symm
  | reader op => cases op <;> exact (List.append_nil _).symm

theorem removed_step (h : Refines q s) (op : Op) :
    (op.onFifo q).removed = q.removed ++ op.removed s := by
  have hmin (n : ℕ) : s.buffer.take (min n s.bufferSize) = q.contents.take n := by
    rw [← h.buffer, List.take_eq_take_min (i := n)]; rfl
  cases op with
  | write data =>
    show (q.accepted ++ data.take (q.fits data)).take q.taken = q.removed ++ []
    rw [List.take_append_of_le_length q.taken_le, List.append_nil]; rfl
  | endInput | setError => exact (List.append_nil _).symm
  | reader op =>
    cases op with
    | peekOutput len => exact (List.append_nil _).symm
    | popOutput len =>
      show (q.take len.toNat).removed = q.removed ++ s.buffer.take _
      rw [Fifo.removed_take, bufferSize_sub_popOutput, hmin]
    | read len =>
      show (q.take len.toNat).removed = q.removed ++ s.buffer.take (min len.toNat s.bufferSize)
      rw [Fifo.removed_take, hmin]

theorem bytesRead_eq_bytesWritten (h : Refines q s) :
    s.bytesRead = s.bytesWritten ↔ s.bufferEmpty = true := by
  have h1 := h.bufferSize_le
  have h2 := s.capacity.toNat_lt
  have h3 := h.bufferSize_eq
  rw [Fifo.length_contents] at h3
  have h4 := q.taken_le
  rw [h.read, h.written, bufferEmpty, List.isEmpty_iff_length_eq_zero]
  change _ ↔ s.bufferSize = 0
  rw [← UInt64.toNat_inj, UInt64.toNat_ofNat', UInt64.toNat_ofNat']
  omega

end Refines

section
variable (c : UInt64) (ops : List Op)

theorem run_refines : Refines ((fifoMachine c).run ops) ((machine c).run ops) := by
  induction ops using List.reverseRecOn with
  | nil => exact .init c
  | append_singleton ops op ih =>
    rw [Machine.run_concat, Machine.run_concat]
    exact ih.step op

theorem capacity_run : ((machine c).run ops).capacity = c := by
  induction ops using List.reverseRecOn with
  | nil => rfl
  | append_singleton ops op ih =>
    rw [Machine.run_concat]
    exact (op.capacity_apply _).trans ih

theorem output_accepted : (machine c).output Op.accepted ops = ((fifoMachine c).run ops).accepted := by
  induction ops using List.reverseRecOn with
  | nil => rfl
  | append_singleton ops op ih =>
    rw [Machine.output_concat, Machine.run_concat, ih]
    exact ((run_refines c ops).accepted_step op).symm

theorem output_removed : (machine c).output Op.removed ops = ((fifoMachine c).run ops).removed := by
  induction ops using List.reverseRecOn with
  | nil => rfl
  | append_singleton ops op ih =>
    rw [Machine.output_concat, Machine.run_concat, ih]
    exact ((run_refines c ops).removed_step op).symm

theorem inputEnded_run : ((machine c).run ops).inputEnded = true ↔ .endInput ∈ ops := by
  rw [(run_refines c ops).ended]
  induction ops using List.reverseRecOn with
  | nil => simp [fifoMachine, Fifo.empty]
  | append_singleton ops op ih =>
    rw [Machine.run_concat, List.mem_append, ← ih]
    cases op with
    | endInput => exact iff_of_true rfl (.inr (by simp))
    | write data => simp [fifoMachine, Op.onFifo, Fifo.put]
    | setError => simp [fifoMachine, Op.onFifo]
    | reader op => cases op <;> simp [fifoMachine, Op.onFifo, Fifo.take]

theorem eof_step (s : ByteStream) (op : Op) (h : s.eof = true) : (op.apply s).eof = true := by
  obtain ⟨hend, hempty⟩ : s.inputEnded = true ∧ s.buffer = [] := by simpa [eof, bufferEmpty] using h
  cases op with
  | write data => simpa [Op.apply, ByteStream.write, hend] using h
  | endInput | setError => simp [Op.apply, eof, endInput, setError, bufferEmpty, hend, hempty]
  | reader op =>
    obtain ⟨n, -, happly, -⟩ := op.apply_eq_advance s
    simp [Op.apply, happly, eof, advance, bufferEmpty, hend, hempty]

/-- The stream is a bounded FIFO over every run whose accepted bytes number less than `2^64`. -/
theorem byteStream_bounded_fifo (htotal : ((machine c).output Op.accepted ops).length < 2 ^ 64) :
    let s := (machine c).run ops
    Refines ((fifoMachine c).run ops) s ∧
    (machine c).output Op.removed ops ++ s.buffer = (machine c).output Op.accepted ops ∧
    (∀ data,
      let n := if .endInput ∈ ops then 0 else min data.length (c.toNat - s.bufferSize)
      (s.write data).1.toNat = n ∧ (s.write data).2.buffer = s.buffer ++ data.take n) ∧
    (∀ len, (Op.reader (.peekOutput len)).apply s = s ∧ s.peekOutput len = (s.read len).1) ∧
    s.bytesWritten.toNat = s.bytesRead.toNat + s.bufferSize ∧ s.bufferSize ≤ c.toNat ∧
    s.remainingCapacity.toNat = c.toNat - s.bufferSize ∧
    (s.eof = true ↔ .endInput ∈ ops ∧ s.bytesRead = s.bytesWritten) ∧
    (s.eof = true → ∀ more, ((machine c).run (ops ++ more)).eof = true) := by
  intro s
  have href : Refines ((fifoMachine c).run ops) s := run_refines c ops
  have hcap : s.capacity = c := capacity_run c ops
  have hsize := href.bufferSize_le
  refine ⟨href, ?_, fun data => ?_, fun len => ⟨rfl, rfl⟩, ?_, hcap ▸ hsize, ?_, ?_, ?_⟩
  · rw [output_removed, output_accepted, href.buffer, Fifo.removed_append_contents]
  · have hn : s.acceptLen data = if .endInput ∈ ops then 0 else min data.length (c.toNat - s.bufferSize) := by
      rw [acceptLen, hcap]; simp only [inputEnded_run, s]
    rw [← hn, href.write_fst, href.acceptLen_eq, write_eq hsize, href.acceptLen_eq]
    exact ⟨rfl, rfl⟩
  · rw [output_accepted] at htotal
    have h1 := href.bufferSize_eq
    have h2 := ((fifoMachine c).run ops).taken_le
    rw [Fifo.length_contents] at h1
    rw [href.written, href.read, UInt64.toNat_ofNat', UInt64.toNat_ofNat']
    omega
  · rw [toNat_remainingCapacity hsize, hcap]
  · rw [href.bytesRead_eq_bytesWritten, ← inputEnded_run c ops, eof, Bool.and_eq_true]
  · exact fun h more => (machine c).run_stable eof_step h more

end

theorem byteStream_bounded_fifo_overfull :
    (machine 2).output Op.accepted [.write [1, 2, 3], .reader (.read 1), .endInput, .write [4]] = [1, 2] ∧
    (machine 2).output Op.removed [.write [1, 2, 3], .reader (.read 1), .endInput, .write [4]] ++
      ((machine 2).run [.write [1, 2, 3], .reader (.read 1), .endInput, .write [4]]).buffer =
        (machine 2).output Op.accepted [.write [1, 2, 3], .reader (.read 1), .endInput, .write [4]] :=
  ⟨by decide, (byteStream_bounded_fifo 2 _ (by decide)).2.1⟩

end Sponge.ByteStream

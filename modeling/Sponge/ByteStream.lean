import Mathlib.Data.List.Basic
import Sponge.Lib.Runs

/-!
# The in-order byte stream (`libsponge/byte_stream.cc`)

A `size_t` counter is a `UInt64` and wraps as in the source; the size of a container is a natural
number, since no `std::string` or `std::deque` reaches `2^64` bytes. `init` is the constructor. A reader
operation only moves bytes out at the front (`ReaderOp.apply_eq_advance`), a write only appends the part
that fits (`write_eq`): the rest of the development uses these two and the field lemmas.
-/

namespace Sponge

structure ByteStream where
  capacity : UInt64
  buffer : List UInt8
  bytesWritten : UInt64
  bytesRead : UInt64
  inputEnded : Bool
  error : Bool
deriving DecidableEq, Repr

namespace ByteStream

def init (capacity : UInt64) : ByteStream := ⟨capacity, [], 0, 0, false, false⟩

variable (s : ByteStream)

def bufferSize : ℕ := s.buffer.length

def bufferEmpty : Bool := s.buffer.isEmpty

def remainingCapacity : UInt64 := s.capacity - UInt64.ofNat s.bufferSize

def write (data : List UInt8) : UInt64 × ByteStream :=
  if s.inputEnded || s.remainingCapacity == 0 then (0, s)
  else
    let writeLen := min data.length s.remainingCapacity.toNat
    (UInt64.ofNat writeLen,
      { s with
        buffer := s.buffer ++ data.take writeLen
        bytesWritten := s.bytesWritten + UInt64.ofNat writeLen })

def peekOutput (len : UInt64) : List UInt8 := s.buffer.take (min len.toNat s.bufferSize)

def popOutput (len : UInt64) : ByteStream :=
  let removeCount := min len.toNat s.bufferSize
  { s with
    buffer := s.buffer.drop removeCount
    bytesRead := s.bytesRead + UInt64.ofNat removeCount }

def read (len : UInt64) : List UInt8 × ByteStream :=
  let result := s.peekOutput len
  (result, s.popOutput (UInt64.ofNat result.length))

def endInput : ByteStream := { s with inputEnded := true }

def setError : ByteStream := { s with error := true }

def eof : Bool := s.inputEnded && s.bufferEmpty

/-- The operations of the output side. -/
inductive ReaderOp
  | peekOutput (len : UInt64)
  | popOutput (len : UInt64)
  | read (len : UInt64)
deriving DecidableEq, Repr

def ReaderOp.apply : ReaderOp → ByteStream
  | .peekOutput _ => s
  | .popOutput len => s.popOutput len
  | .read len => (s.read len).2

/-- The bytes a reader operation takes out: those the buffer loses at its front, or those `read`
returns. -/
def ReaderOp.removed : ReaderOp → List UInt8
  | .peekOutput _ => []
  | .popOutput len => s.buffer.take (s.bufferSize - (s.popOutput len).bufferSize)
  | .read len => (s.read len).1

def advance (n : ℕ) : ByteStream :=
  { s with buffer := s.buffer.drop n, bytesRead := s.bytesRead + UInt64.ofNat n }

theorem popOutput_eq_advance (len : UInt64) : s.popOutput len = s.advance (min len.toNat s.bufferSize) :=
  rfl

theorem bufferSize_advance (n : ℕ) : (s.advance n).bufferSize = s.bufferSize - n := List.length_drop

theorem bufferSize_sub_popOutput (len : UInt64) :
    s.bufferSize - (s.popOutput len).bufferSize = min len.toNat s.bufferSize := by
  rw [popOutput_eq_advance, bufferSize_advance]; omega

theorem length_peekOutput (len : UInt64) : (s.peekOutput len).length = min len.toNat s.bufferSize := by
  simp [peekOutput, bufferSize]

theorem read_snd (len : UInt64) : (s.read len).2 = s.popOutput len := by
  have hlen : (UInt64.ofNat (s.peekOutput len).length).toNat = min len.toNat s.bufferSize := by
    rw [length_peekOutput]
    exact UInt64.toNat_ofNat_of_lt' (by have := len.toNat_lt; simp only [UInt64.size]; omega)
  show s.popOutput (UInt64.ofNat (s.peekOutput len).length) = s.popOutput len
  rw [popOutput_eq_advance, popOutput_eq_advance, hlen, Nat.min_assoc, Nat.min_self]

/-- Every reader operation drops some of the buffer's first bytes and counts them as read. -/
theorem ReaderOp.apply_eq_advance (op : ReaderOp) :
    ∃ n ≤ s.bufferSize, op.apply s = s.advance n ∧ op.removed s = s.buffer.take n := by
  cases op with
  | peekOutput len => exact ⟨0, Nat.zero_le _, by simp [apply, advance], rfl⟩
  | popOutput len =>
    refine ⟨_, Nat.min_le_right .., s.popOutput_eq_advance len, ?_⟩
    rw [removed, bufferSize_sub_popOutput]
  | read len =>
    refine ⟨min len.toNat s.bufferSize, Nat.min_le_right .., ?_, rfl⟩
    rw [← s.popOutput_eq_advance]; exact s.read_snd len

def acceptLen (data : List UInt8) : ℕ :=
  if s.inputEnded then 0 else min data.length (s.capacity.toNat - s.bufferSize)

variable {s}

theorem toNat_remainingCapacity (h : s.bufferSize ≤ s.capacity.toNat) :
    s.remainingCapacity.toNat = s.capacity.toNat - s.bufferSize := by
  have hc := s.capacity.toNat_lt
  have hs : (UInt64.ofNat s.bufferSize).toNat = s.bufferSize :=
    UInt64.toNat_ofNat_of_lt' (by simp only [UInt64.size]; omega)
  rw [remainingCapacity, UInt64.toNat_sub_of_le _ _ (by rw [UInt64.le_iff_toNat_le, hs]; exact h), hs]

theorem acceptLen_le (data : List UInt8) : s.acceptLen data ≤ s.capacity.toNat - s.bufferSize := by
  unfold acceptLen; split <;> omega

/-- While the buffer is within its capacity, `write` appends what fits and counts it. -/
theorem write_eq (h : s.bufferSize ≤ s.capacity.toNat) (data : List UInt8) :
    s.write data = (UInt64.ofNat (s.acceptLen data),
      { s with
        buffer := s.buffer ++ data.take (s.acceptLen data)
        bytesWritten := s.bytesWritten + UInt64.ofNat (s.acceptLen data) }) := by
  have hr := toNat_remainingCapacity h
  by_cases hend : s.inputEnded = true
  · have h0 : s.acceptLen data = 0 := if_pos hend
    rw [h0, write, if_pos (by simp [hend])]; simp
  have hlen : s.acceptLen data = min data.length s.remainingCapacity.toNat := by
    rw [acceptLen, if_neg hend, hr]
  by_cases hrem : s.remainingCapacity = 0
  · have h0 : s.acceptLen data = 0 := by rw [hlen, hrem]; exact Nat.min_zero _
    rw [h0, write, if_pos (by simp [hrem])]; simp
  · rw [write, if_neg (by simp [hend, hrem]), hlen]

end ByteStream
end Sponge

import Sponge.Buffer
import Sponge.Lib.BigEndian

/-!
# Network-order parsing and unparsing (`libsponge/util/parser.cc`)

A `NetParser` is a buffer with a sticky error: once a token does not fit, every later one reads as `0`
and the buffer stays as it is. `init` is the constructor. `Reads m n f` says that `m` is a token of `n`
bytes with the meaning `f`; tokens in sequence are a token again (`Reads.bind`), so a header of fixed
layout is read off in one go. In particular no such parser throws.
-/

namespace Sponge

inductive ParseResult
  | noError
  | badChecksum
  | packetTooShort
  | wrongIPVersion
  | headerTooShort
  | truncatedPacket
  | unsupported
deriving DecidableEq, Repr

structure NetParser where
  buffer : Buffer
  error : ParseResult
deriving DecidableEq

/-- What a method of `NetParser` does: it changes the parser, returns a value, and may throw. -/
abbrev Parse (α : Type) := StateT NetParser (Except Exception) α

namespace Parse

variable {α β : Type} (p : NetParser)

@[simp] theorem pure_apply (a : α) : (pure a : Parse α) p = .ok (a, p) := rfl

@[simp] theorem bind_apply (m : Parse α) (k : α → Parse β) : (m >>= k) p = m p >>= fun x => k x.1 x.2 := rfl

@[simp] theorem map_apply (g : α → β) (m : Parse α) : (g <$> m) p = m p >>= fun x => .ok (g x.1, x.2) := rfl

@[simp] theorem get_apply : (get : Parse NetParser) p = .ok (p, p) := rfl

@[simp] theorem modify_apply (f : NetParser → NetParser) : (modify f : Parse Unit) p = .ok ((), f p) := rfl

@[simp] theorem lift_apply (x : Except Exception α) : (liftM x : Parse α) p = x >>= fun a => .ok (a, p) := rfl

@[simp] theorem ok_bind (a : α) (k : α → Except Exception β) : (Except.ok a >>= k) = k a := rfl

end Parse

namespace NetParser

def init (buffer : Buffer) : NetParser := ⟨buffer, .noError⟩

/-- The method `error()`. -/
def hasError (p : NetParser) : Bool := p.error != .noError

def setError (res : ParseResult) : Parse Unit := modify fun p => { p with error := res }

def checkSize (size : ℕ) : Parse Unit := do
  if size > (← get).buffer.size then setError .packetTooShort

def shiftIn (w : ℕ) (b : Buffer) (len : ℕ) : Except Exception (BitVec w) :=
  (List.range len).foldlM (fun ret i => do return (ret <<< 8) + (← b.charAt i).toBitVec.setWidth w) 0

/-- `_parse_int` at an unsigned type of `len` bytes. -/
def parseInt (len : ℕ) : Parse (BitVec (8 * len)) := do
  checkSize len
  if (← get).hasError then return 0
  let ret ← shiftIn (8 * len) (← get).buffer len
  let buffer ← (← get).buffer.removePrefix len
  modify fun p => { p with buffer }
  return ret

def u32 : Parse UInt32 := UInt32.ofBitVec <$> parseInt 4

def u16 : Parse UInt16 := UInt16.ofBitVec <$> parseInt 2

def u8 : Parse UInt8 := UInt8.ofBitVec <$> parseInt 1

def removePrefix (n : ℕ) : Parse Unit := do
  checkSize n
  if (← get).hasError then return
  let buffer ← (← get).buffer.removePrefix n
  modify fun p => { p with buffer }

end NetParser

namespace NetUnparser

def unparseInt (len : ℕ) (s : List UInt8) (val : BitVec (8 * len)) : List UInt8 :=
  (List.range len).foldl
    (fun s i => s ++ [UInt8.ofBitVec (((val >>> ((len - i - 1) * 8)) &&& 0xff).setWidth 8)]) s

def u32 (s : List UInt8) (val : UInt32) : List UInt8 := unparseInt 4 s val.toBitVec

def u16 (s : List UInt8) (val : UInt16) : List UInt8 := unparseInt 2 s val.toBitVec

def u8 (s : List UInt8) (val : UInt8) : List UInt8 := unparseInt 1 s val.toBitVec

theorem unparseInt_eq (len : ℕ) (s : List UInt8) (val : BitVec (8 * len)) :
    unparseInt len s val = s ++ BigEndian.bytes len val.toNat := by
  have hbyte : ∀ i ∈ List.range len,
      UInt8.ofBitVec (((val >>> ((len - i - 1) * 8)) &&& 0xff).setWidth 8) =
        UInt8.ofNat (val.toNat / 256 ^ (len - i - 1)) := by
    intro i hi
    have hlen : 1 ≤ len := Nat.zero_lt_of_lt (List.mem_range.1 hi)
    have hmask : (0xff : BitVec (8 * len)).toNat = 2 ^ 8 - 1 :=
      Nat.mod_eq_of_lt (Nat.lt_of_lt_of_le (by decide : 255 < 2 ^ 8)
        (Nat.pow_le_pow_right (by decide) (by omega)))
    have hpow : 2 ^ ((len - i - 1) * 8) = 256 ^ (len - i - 1) := by rw [Nat.mul_comm, Nat.pow_mul]
    rw [← UInt8.toNat_inj, UInt8.toNat_ofBitVec, BitVec.toNat_setWidth, BitVec.toNat_and, hmask,
      BitVec.toNat_ushiftRight, Nat.and_two_pow_sub_one_eq_mod, Nat.mod_mod, Nat.shiftRight_eq_div_pow, hpow]
    exact UInt8.toNat_ofNat'.symm
  rw [unparseInt, List.foldl_append_eq_append, ← List.flatMap_def, ← List.map_eq_flatMap, BigEndian.bytes,
    List.map_congr_left hbyte]

theorem u32_eq (s : List UInt8) (val : UInt32) : u32 s val = s ++ BigEndian.bytes 4 val.toNat :=
  unparseInt_eq 4 s val.toBitVec

theorem u16_eq (s : List UInt8) (val : UInt16) : u16 s val = s ++ BigEndian.bytes 2 val.toNat :=
  unparseInt_eq 2 s val.toBitVec

theorem u8_eq (s : List UInt8) (val : UInt8) : u8 s val = s ++ [val] := by
  rw [u8, unparseInt_eq 1 s val.toBitVec]
  show s ++ [UInt8.ofNat (val.toNat / 1)] = _
  rw [Nat.div_one, UInt8.ofNat_toNat]

end NetUnparser

/-- `m` is a token of `n` bytes with the meaning `f`: it consumes them when they are there, and else
leaves the error that there are not enough. -/
structure Reads {α : Type} (m : Parse α) (n : ℕ) (f : List UInt8 → α) : Prop where
  fits : ∀ p : NetParser, p.error = .noError → n ≤ p.buffer.str.length →
    ∃ b, m p = .ok (f (p.buffer.str.take n), ⟨b, .noError⟩) ∧ b.str = p.buffer.str.drop n
  short : ∀ p : NetParser, p.error = .packetTooShort ∨ p.error = .noError ∧ p.buffer.str.length < n →
    ∃ a b, m p = .ok (a, ⟨b, .packetTooShort⟩)

namespace Reads

variable {α β : Type} {m : Parse α} {n n' : ℕ} {f f' : List UInt8 → α}

protected theorem pure (a : α) : Reads (pure a) 0 fun _ => a where
  fits := by
    rintro ⟨b, e⟩ rfl -
    exact ⟨b, rfl, rfl⟩
  short := by
    rintro ⟨b, e⟩ (rfl | h)
    · exact ⟨a, b, rfl⟩
    · exact absurd h.2 (Nat.not_lt_zero _)

protected theorem bind {k : α → Parse β} {g : α → List UInt8 → β} (hm : Reads m n f)
    (hk : ∀ a, Reads (k a) n' (g a)) : Reads (m >>= k) (n + n') fun l => g (f (l.take n)) (l.drop n) where
  fits := by
    intro p he hle
    obtain ⟨b, hb, hbs⟩ := hm.fits p he (by omega)
    obtain ⟨b', hb', hbs'⟩ := (hk (f (p.buffer.str.take n))).fits ⟨b, .noError⟩ rfl (by
      show n' ≤ b.str.length
      rw [hbs, List.length_drop]; omega)
    refine ⟨b', ?_, ?_⟩
    · rw [Parse.bind_apply, hb, Parse.ok_bind, hb', hbs, List.take_take, Nat.min_eq_left (by omega),
        List.drop_take, Nat.add_sub_cancel_left]
    · rw [hbs', hbs, List.drop_drop]
  short := by
    intro p hp
    suffices h : ∃ a b, m p = .ok (a, b) ∧
        (b.error = .packetTooShort ∨ b.error = .noError ∧ b.buffer.str.length < n') by
      obtain ⟨a, q, hq, he⟩ := h
      obtain ⟨a', b', hb'⟩ := (hk a).short q he
      exact ⟨a', b', by rw [Parse.bind_apply, hq]; exact hb'⟩
    by_cases hn : p.error = .packetTooShort ∨ p.error = .noError ∧ p.buffer.str.length < n
    · obtain ⟨a, b, hb⟩ := hm.short p hn
      exact ⟨a, _, hb, Or.inl rfl⟩
    · obtain ⟨he, hlt⟩ := hp.resolve_left fun h => hn (Or.inl h)
      have hle : n ≤ p.buffer.str.length := Nat.not_lt.1 fun h => hn (Or.inr ⟨he, h⟩)
      obtain ⟨b, hb, hbs⟩ := hm.fits p he hle
      refine ⟨_, _, hb, Or.inr ⟨rfl, ?_⟩⟩
      show b.str.length < n'
      rw [hbs, List.length_drop]; omega

theorem congr (hm : Reads m n f) (h : ∀ l, f l = f' l) : Reads m n f' := (funext h : f = f') ▸ hm

theorem map (hm : Reads m n f) (g : α → β) : Reads (g <$> m) n fun l => g (f l) where
  fits := by
    intro p he hle
    obtain ⟨b, hb, hbs⟩ := hm.fits p he hle
    exact ⟨b, by rw [Parse.map_apply, hb]; rfl, hbs⟩
  short := by
    intro p hp
    obtain ⟨a, b, hb⟩ := hm.short p hp
    exact ⟨g a, b, by rw [Parse.map_apply, hb]; rfl⟩

end Reads

namespace NetParser

theorem checkSize_apply (n : ℕ) (p : NetParser) :
    checkSize n p = .ok ((), if n > p.buffer.str.length then { p with error := .packetTooShort } else p) := by
  show (if n > p.buffer.str.length then setError .packetTooShort else pure ()) p = _
  split <;> rfl

/-- A token that does not fit, or comes after one that did not, leaves the buffer as it is. -/
theorem checked_short {α : Type} {n : ℕ} {d : α} {k : Parse α} {p : NetParser}
    (hp : p.error = .packetTooShort ∨ p.error = .noError ∧ p.buffer.str.length < n) :
    (do checkSize n; if (← get).hasError then pure d else k : Parse α) p =
      .ok (d, ⟨p.buffer, .packetTooShort⟩) := by
  obtain ⟨b, e⟩ := p
  have herr : (if n > b.str.length then ⟨b, .packetTooShort⟩ else ⟨b, e⟩ : NetParser) =
      ⟨b, .packetTooShort⟩ := by
    rcases hp with rfl | ⟨-, hlt⟩
    · split <;> rfl
    · rw [if_pos hlt]
  rw [Parse.bind_apply, checkSize_apply, herr]
  rfl

/-- The common shape of the tokens: nothing happens to the buffer unless they fit. -/
theorem reads_checked {α : Type} {n : ℕ} {d : α} {f : List UInt8 → α} {k : Parse α}
    (hk : ∀ b : Buffer, n ≤ b.str.length →
      ∃ b', k ⟨b, .noError⟩ = .ok (f (b.str.take n), ⟨b', .noError⟩) ∧ b'.str = b.str.drop n) :
    Reads (do checkSize n; if (← get).hasError then pure d else k) n f where
  fits := by
    rintro ⟨b, e⟩ rfl hle
    obtain ⟨b', hb', hbs⟩ := hk b hle
    refine ⟨b', ?_, hbs⟩
    rw [Parse.bind_apply, checkSize_apply, if_neg (Nat.not_lt.2 hle)]
    exact hb'
  short := fun p hp => ⟨d, p.buffer, checked_short hp⟩

theorem reads_removePrefix (n : ℕ) : Reads (removePrefix n) n fun _ => () := by
  refine reads_checked fun b hle => ?_
  obtain ⟨b', hb', hbs⟩ := Buffer.removePrefix_of_le hle
  exact ⟨b', by simp [hb'], hbs⟩

theorem shiftIn_of_le (w : ℕ) {b : Buffer} {len : ℕ} (h : len ≤ b.str.length) :
    shiftIn w b len = .ok (BitVec.ofNat w (BigEndian.value (b.str.take len))) := by
  have hstep (v : ℕ) (c : UInt8) :
      (BitVec.ofNat w v <<< 8) + c.toBitVec.setWidth w = BitVec.ofNat w (v * 256 + c.toNat) := by
    refine BitVec.eq_of_toNat_eq ?_
    simp [Nat.shiftLeft_eq, Nat.add_mod, Nat.mul_mod]
  induction len with
  | zero => simp [shiftIn]; rfl
  | succ len ih =>
    rw [shiftIn, List.range_succ, List.foldlM_append]
    show (shiftIn w b len >>= _) = _
    rw [ih (by omega)]
    show (b.charAt len >>= fun c => _) >>= pure = _
    rw [Buffer.charAt_of_lt h, List.take_succ_eq_append_getElem h, BigEndian.value_concat, ← hstep]
    rfl

theorem reads_parseInt (len : ℕ) :
    Reads (parseInt len) len fun l => BitVec.ofNat (8 * len) (BigEndian.value l) := by
  refine reads_checked fun b hle => ?_
  obtain ⟨b', hb', hbs⟩ := Buffer.removePrefix_of_le hle
  exact ⟨b', by simp [hb', shiftIn_of_le _ hle], hbs⟩

section
variable {p : NetParser} {n : ℕ}

theorem parseInt_short (hp : p.error = .packetTooShort ∨ p.error = .noError ∧ p.buffer.str.length < n) :
    parseInt n p = .ok (0, ⟨p.buffer, .packetTooShort⟩) :=
  checked_short hp

theorem u32_short (hp : p.error = .packetTooShort ∨ p.error = .noError ∧ p.buffer.str.length < 4) :
    u32 p = .ok (0, ⟨p.buffer, .packetTooShort⟩) := by
  rw [u32, Parse.map_apply, parseInt_short hp]; rfl

theorem u16_short (hp : p.error = .packetTooShort ∨ p.error = .noError ∧ p.buffer.str.length < 2) :
    u16 p = .ok (0, ⟨p.buffer, .packetTooShort⟩) := by
  rw [u16, Parse.map_apply, parseInt_short hp]; rfl

theorem u8_short (hp : p.error = .packetTooShort ∨ p.error = .noError ∧ p.buffer.str.length < 1) :
    u8 p = .ok (0, ⟨p.buffer, .packetTooShort⟩) := by
  rw [u8, Parse.map_apply, parseInt_short hp]; rfl

theorem removePrefix_short (hp : p.error = .packetTooShort ∨ p.error = .noError ∧ p.buffer.str.length < n) :
    removePrefix n p = .ok ((), ⟨p.buffer, .packetTooShort⟩) :=
  checked_short hp

end

theorem reads_u32 : Reads u32 4 fun l => UInt32.ofNat (BigEndian.value l) := (reads_parseInt 4).map _

theorem reads_u16 : Reads u16 2 fun l => UInt16.ofNat (BigEndian.value l) := (reads_parseInt 2).map _

theorem reads_u8 : Reads u8 1 fun l => UInt8.ofNat (BigEndian.value l) := (reads_parseInt 1).map _

/-! Parsing undoes unparsing and the other way round. -/

theorem u32_bytes (val : UInt32) : UInt32.ofNat (BigEndian.value (BigEndian.bytes 4 val.toNat)) = val := by
  have hlt : val.toNat < 256 ^ 4 := val.toNat_lt
  rw [BigEndian.value_bytes, Nat.mod_eq_of_lt hlt, UInt32.ofNat_toNat]

theorem u16_bytes (val : UInt16) : UInt16.ofNat (BigEndian.value (BigEndian.bytes 2 val.toNat)) = val := by
  have hlt : val.toNat < 256 ^ 2 := val.toNat_lt
  rw [BigEndian.value_bytes, Nat.mod_eq_of_lt hlt, UInt16.ofNat_toNat]

theorem bytes_u32 {l : List UInt8} (h : l.length = 4) :
    BigEndian.bytes 4 (UInt32.ofNat (BigEndian.value l)).toNat = l := by
  have hlt := BigEndian.value_lt l
  rw [h] at hlt
  rw [UInt32.toNat_ofNat_of_lt' hlt, ← h, BigEndian.bytes_value]

theorem bytes_u16 {l : List UInt8} (h : l.length = 2) :
    BigEndian.bytes 2 (UInt16.ofNat (BigEndian.value l)).toNat = l := by
  have hlt := BigEndian.value_lt l
  rw [h] at hlt
  rw [UInt16.toNat_ofNat_of_lt' hlt, ← h, BigEndian.bytes_value]

end NetParser
end Sponge

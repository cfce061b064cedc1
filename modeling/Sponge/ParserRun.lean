import Mathlib.Algebra.BigOperators.Group.List.Basic
import Sponge.Parser

/-!
# Runs of the parser

A run is any sequence of calls on a fresh `NetParser`. `parseAll` makes the calls in order, `unparseAll` writes
fields in order, and the two are inverse. The error is sticky: a run is a part that fits and consumes exactly
its widths, and a part in which every integer reads as `0` and the buffer stays as it is, however short
the later calls are.
-/

namespace Sponge

open BigEndian

/-- An integer field with its value. -/
inductive Field
  | u8 (val : UInt8)
  | u16 (val : UInt16)
  | u32 (val : UInt32)
deriving DecidableEq, Repr

/-- A call on a `NetParser`. -/
inductive Token
  | u8
  | u16
  | u32
  | removePrefix (n : ℕ)
deriving DecidableEq, Repr

namespace Token

def width : Token → ℕ
  | u8 => 1
  | u16 => 2
  | u32 => 4
  | removePrefix n => n

/-- The call itself; `remove_prefix` returns nothing. -/
def parse : Token → Parse (Option Field)
  | u8 => (fun val => some (.u8 val)) <$> NetParser.u8
  | u16 => (fun val => some (.u16 val)) <$> NetParser.u16
  | u32 => (fun val => some (.u32 val)) <$> NetParser.u32
  | removePrefix n => (fun _ => none) <$> NetParser.removePrefix n

/-- What the call returns when it fails. -/
def zero : Token → Option Field
  | u8 => some (.u8 0)
  | u16 => some (.u16 0)
  | u32 => some (.u32 0)
  | removePrefix _ => none

def totalWidth (ts : List Token) : ℕ := (ts.map width).sum

def parseAll : List Token → Parse (List (Option Field))
  | [] => pure []
  | t :: ts => do
    let val ← t.parse
    return val :: (← parseAll ts)

theorem reads_parse (t : Token) : ∃ f, Reads t.parse t.width f := by
  cases t with
  | u8 => exact ⟨_, NetParser.reads_u8.map _⟩
  | u16 => exact ⟨_, NetParser.reads_u16.map _⟩
  | u32 => exact ⟨_, NetParser.reads_u32.map _⟩
  | removePrefix n => exact ⟨_, (NetParser.reads_removePrefix n).map _⟩

theorem parse_short (t : Token) {p : NetParser}
    (hp : p.error = .packetTooShort ∨ p.error = .noError ∧ p.buffer.str.length < t.width) :
    t.parse p = .ok (t.zero, ⟨p.buffer, .packetTooShort⟩) := by
  cases t with
  | u8 => rw [parse, Parse.map_apply, NetParser.u8_short hp]; rfl
  | u16 => rw [parse, Parse.map_apply, NetParser.u16_short hp]; rfl
  | u32 => rw [parse, Parse.map_apply, NetParser.u32_short hp]; rfl
  | removePrefix n => rw [parse, Parse.map_apply, NetParser.removePrefix_short (n := n) hp]; rfl

/-- A sequence of calls is a token as wide as all of them. -/
theorem reads_parseAll (ts : List Token) : ∃ f, Reads (parseAll ts) (totalWidth ts) f := by
  induction ts with
  | nil => exact ⟨_, .pure _⟩
  | cons t ts ih =>
    obtain ⟨f, hf⟩ := t.reads_parse
    obtain ⟨g, hg⟩ := ih
    exact ⟨_, .bind hf fun val => .bind hg fun vals => .pure (val :: vals)⟩

theorem parseAll_fits {ts : List Token} {b : Buffer} (hle : totalWidth ts ≤ b.size) :
    ∃ vals b', parseAll ts (.init b) = .ok (vals, ⟨b', .noError⟩) ∧ b'.str = b.str.drop (totalWidth ts) := by
  obtain ⟨f, hf⟩ := reads_parseAll ts
  obtain ⟨b', hb', hrest⟩ := hf.fits (.init b) rfl hle
  exact ⟨_, b', hb', hrest⟩

theorem parseAll_ok (ts : List Token) (b : Buffer) : ∃ vals p, parseAll ts (.init b) = .ok (vals, p) := by
  obtain ⟨f, hf⟩ := reads_parseAll ts
  rcases Nat.lt_or_ge b.size (totalWidth ts) with hlt | hle
  · obtain ⟨vals, b', hb'⟩ := hf.short (.init b) (.inr ⟨rfl, hlt⟩)
    exact ⟨vals, _, hb'⟩
  · obtain ⟨vals, b', hb', -⟩ := parseAll_fits hle
    exact ⟨vals, _, hb'⟩

theorem parseAll_append (pre post : List Token) :
    parseAll (pre ++ post) = do
      let vals ← parseAll pre
      return vals ++ (← parseAll post) := by
  induction pre with
  | nil => simp [parseAll]
  | cons t pre ih => simp [parseAll, ih]

/-- After the error every call fails and none of them changes anything. -/
theorem parseAll_of_error (ts : List Token) (b : Buffer) :
    parseAll ts ⟨b, .packetTooShort⟩ = .ok (ts.map zero, ⟨b, .packetTooShort⟩) := by
  induction ts with
  | nil => rfl
  | cons t ts ih =>
    rw [parseAll, Parse.bind_apply, t.parse_short (.inl rfl), Parse.ok_bind, Parse.bind_apply, ih]
    rfl

/-- The first call that does not fit, and all that come after it. -/
theorem parseAll_cons_short {t : Token} {p : NetParser} (he : p.error = .noError)
    (hlt : p.buffer.str.length < t.width) (post : List Token) :
    parseAll (t :: post) p = .ok ((t :: post).map zero, ⟨p.buffer, .packetTooShort⟩) := by
  rw [parseAll, Parse.bind_apply, t.parse_short (.inr ⟨he, hlt⟩), Parse.ok_bind, Parse.bind_apply,
    parseAll_of_error]
  rfl

end Token

namespace Field

def token : Field → Token
  | u8 _ => .u8
  | u16 _ => .u16
  | u32 _ => .u32

def unparse (s : List UInt8) : Field → List UInt8
  | u8 val => NetUnparser.u8 s val
  | u16 val => NetUnparser.u16 s val
  | u32 val => NetUnparser.u32 s val

def unparseAll (fields : List Field) : List UInt8 := fields.foldl unparse []

def bytes : Field → List UInt8
  | u8 val => [val]
  | u16 val => BigEndian.bytes 2 val.toNat
  | u32 val => BigEndian.bytes 4 val.toNat

theorem unparse_eq (s : List UInt8) (f : Field) : f.unparse s = s ++ f.bytes := by
  cases f with
  | u8 val => exact NetUnparser.u8_eq s val
  | u16 val => exact NetUnparser.u16_eq s val
  | u32 val => exact NetUnparser.u32_eq s val

theorem unparseAll_eq (fields : List Field) : unparseAll fields = fields.flatMap bytes := by
  have happend : unparse = fun s f => s ++ f.bytes := funext₂ unparse_eq
  rw [unparseAll, happend, List.foldl_append_eq_append, List.nil_append, List.flatMap_def]

/-- One field: the call of its width gives its value back and stops right behind it. -/
theorem parse_bytes (f : Field) {p : NetParser} {rest : List UInt8} (he : p.error = .noError)
    (hstr : p.buffer.str = f.bytes ++ rest) :
    ∃ b, f.token.parse p = .ok (some f, ⟨b, .noError⟩) ∧ b.str = rest := by
  cases f with
  | u8 val =>
    obtain ⟨b, hb, hrest⟩ := NetParser.reads_u8.fits p he (by simp [hstr, bytes])
    refine ⟨b, ?_, by rw [hrest, hstr]; rfl⟩
    rw [token, Token.parse, Parse.map_apply, hb, hstr]
    simp [bytes, value_singleton]
  | u16 val =>
    obtain ⟨b, hb, hrest⟩ := NetParser.reads_u16.fits p he (by simp [hstr, bytes])
    refine ⟨b, ?_, by rw [hrest, hstr, bytes, List.drop_left' (length_bytes ..)]⟩
    rw [token, Token.parse, Parse.map_apply, hb, hstr, bytes, List.take_left' (length_bytes ..), NetParser.u16_bytes]
    rfl
  | u32 val =>
    obtain ⟨b, hb, hrest⟩ := NetParser.reads_u32.fits p he (by simp [hstr, bytes])
    refine ⟨b, ?_, by rw [hrest, hstr, bytes, List.drop_left' (length_bytes ..)]⟩
    rw [token, Token.parse, Parse.map_apply, hb, hstr, bytes, List.take_left' (length_bytes ..), NetParser.u32_bytes]
    rfl

theorem parseAll_bytes (fields : List Field) {p : NetParser} {trailing : List UInt8} (he : p.error = .noError)
    (hstr : p.buffer.str = fields.flatMap bytes ++ trailing) :
    ∃ b, Token.parseAll (fields.map token) p = .ok (fields.map some, ⟨b, .noError⟩) ∧ b.str = trailing := by
  induction fields generalizing p with
  | nil =>
    obtain ⟨b, e⟩ := p
    obtain rfl : e = .noError := he
    exact ⟨b, rfl, hstr⟩
  | cons f fields ih =>
    rw [List.flatMap_cons, List.append_assoc] at hstr
    obtain ⟨b, hb, hrest⟩ := f.parse_bytes he hstr
    obtain ⟨b', hb', htrail⟩ := ih (p := ⟨b, .noError⟩) rfl hrest
    refine ⟨b', ?_, htrail⟩
    rw [List.map_cons, Token.parseAll, Parse.bind_apply, hb, Parse.ok_bind, Parse.bind_apply, hb']
    rfl

end Field

/-- Parsing undoes unparsing, no run throws, and the first call that does not fit ends all effect. -/
theorem parser_runs :
    (∀ (fields : List Field) (trailing : List UInt8) (b : Buffer),
      b.str = Field.unparseAll fields ++ trailing →
      ∃ b', Token.parseAll (fields.map Field.token) (.init b) = .ok (fields.map some, ⟨b', .noError⟩) ∧
        b'.str = trailing) ∧
    (∀ (b : Buffer) (ts : List Token), ∃ vals p, Token.parseAll ts (.init b) = .ok (vals, p)) ∧
    (∀ (b : Buffer) (ts : List Token), Token.totalWidth ts ≤ b.size →
      ∃ vals b', Token.parseAll ts (.init b) = .ok (vals, ⟨b', .noError⟩) ∧
        b'.str = b.str.drop (Token.totalWidth ts)) ∧
    ∀ (b : Buffer) (pre : List Token) (t : Token) (post : List Token),
      Token.totalWidth pre ≤ b.size → b.size < Token.totalWidth pre + t.width →
      ∃ vals b', Token.parseAll pre (.init b) = .ok (vals, ⟨b', .noError⟩) ∧
        b'.str = b.str.drop (Token.totalWidth pre) ∧
        Token.parseAll (pre ++ t :: post) (.init b) =
          .ok (vals ++ (t :: post).map Token.zero, ⟨b', .packetTooShort⟩) := by
  refine ⟨fun fields trailing b hstr => ?_, fun b ts => Token.parseAll_ok ts b,
    fun b ts hle => Token.parseAll_fits hle, fun b pre t post hle hlt => ?_⟩
  · rw [Field.unparseAll_eq] at hstr
    exact Field.parseAll_bytes fields rfl hstr
  · obtain ⟨vals, b', hpre, hrest⟩ := Token.parseAll_fits hle
    have hshort : b'.str.length < t.width := by
      rw [Buffer.size] at hle hlt
      rw [hrest, List.length_drop]; omega
    refine ⟨vals, b', hpre, hrest, ?_⟩
    rw [Token.parseAll_append, Parse.bind_apply, hpre, Parse.ok_bind, Parse.bind_apply,
      Token.parseAll_cons_short (p := ⟨b', .noError⟩) rfl hshort]
    rfl

end Sponge

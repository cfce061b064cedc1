import Sponge.Parser
import Sponge.WrappingIntegers

/-!
# The TCP header (`libsponge/tcp_helpers/tcp_header.cc`)

`ofBytes` is what the 20 bytes before the options mean and `serialize_eq` what a header looks like on
the wire. They invert each other up to what the header does not store: the reserved bits
(`ofBytes_fixedBytes`, `beforeCksum_ofBytes`) and the options, which are skipped and written as zeros.
-/

namespace Sponge

open BigEndian Words

structure TCPHeader where
  sport : UInt16
  dport : UInt16
  seqno : WrappingInt32
  ackno : WrappingInt32
  doff : UInt8
  urg : Bool
  ack : Bool
  psh : Bool
  rst : Bool
  syn : Bool
  fin : Bool
  win : UInt16
  cksum : UInt16
  uptr : UInt16
deriving DecidableEq, Repr

namespace TCPHeader

def length : ℕ := 20

def init : TCPHeader :=
  { sport := 0, dport := 0, seqno := ⟨0⟩, ackno := ⟨0⟩, doff := UInt8.ofNat (length / 4)
    urg := false, ack := false, psh := false, rst := false, syn := false, fin := false
    win := 0, cksum := 0, uptr := 0 }

/-- The fields as `parse` assigns them from what it reads; `off` and `fl` are the bytes 12 and 13. -/
def ofFields (sport dport : UInt16) (seqno ackno : UInt32) (off fl : UInt8) (win cksum uptr : UInt16) :
    TCPHeader :=
  { sport, dport, seqno := ⟨seqno⟩, ackno := ⟨ackno⟩, doff := off >>> 4
    urg := fl &&& 0b00100000 != 0
    ack := fl &&& 0b00010000 != 0
    psh := fl &&& 0b00001000 != 0
    rst := fl &&& 0b00000100 != 0
    syn := fl &&& 0b00000010 != 0
    fin := fl &&& 0b00000001 != 0
    win, cksum, uptr }

/-- The assignments at the start of `parse`. -/
def parseFields : Parse TCPHeader := do
  let sport ← NetParser.u16
  let dport ← NetParser.u16
  let seqno ← NetParser.u32
  let ackno ← NetParser.u32
  let off ← NetParser.u8
  let fl ← NetParser.u8
  let win ← NetParser.u16
  let cksum ← NetParser.u16
  let uptr ← NetParser.u16
  return ofFields sport dport seqno ackno off fl win cksum uptr

/-- The rest of `parse`: skip any options or anything extra in the header. -/
def skipOptions (h : TCPHeader) : Parse ParseResult := do
  if h.doff < 5 then return .headerTooShort
  NetParser.removePrefix (h.doff.toNat * 4 - length)
  if (← get).hasError then return (← get).error
  return .noError

def parse : Parse (ParseResult × TCPHeader) := do
  let h ← parseFields
  return (← skipOptions h, h)

variable (h : TCPHeader)

def withCksum (x : UInt16) : TCPHeader := { h with cksum := x }

def flags : UInt8 :=
  (if h.urg then 0b00100000 else 0) ||| (if h.ack then 0b00010000 else 0) |||
  (if h.psh then 0b00001000 else 0) ||| (if h.rst then 0b00000100 else 0) |||
  (if h.syn then 0b00000010 else 0) ||| (if h.fin then 0b00000001 else 0)

/-- `std::string::resize`. -/
def resize (s : List UInt8) (n : ℕ) : List UInt8 := s.take n ++ List.replicate (n - s.length) 0

def serialize : Except Exception (List UInt8) :=
  if h.doff < 5 then .error (.runtimeError "TCP header too short")
  else
    let ret := NetUnparser.u16 [] h.sport
    let ret := NetUnparser.u16 ret h.dport
    let ret := NetUnparser.u32 ret h.seqno.rawValue
    let ret := NetUnparser.u32 ret h.ackno.rawValue
    let ret := NetUnparser.u8 ret (h.doff <<< 4)
    let ret := NetUnparser.u8 ret h.flags
    let ret := NetUnparser.u16 ret h.win
    let ret := NetUnparser.u16 ret h.cksum
    let ret := NetUnparser.u16 ret h.uptr
    .ok (resize ret (4 * h.doff.toNat))

@[simp] theorem withCksum_withCksum (x y : UInt16) : (h.withCksum x).withCksum y = h.withCksum y := rfl

/-- The header that 20 bytes spell. -/
def ofBytes (l : List UInt8) : TCPHeader :=
  ofFields (UInt16.ofNat (value (l.take 2))) (UInt16.ofNat (value ((l.drop 2).take 2)))
    (UInt32.ofNat (value ((l.drop 4).take 4))) (UInt32.ofNat (value ((l.drop 8).take 4)))
    (UInt8.ofNat (value ((l.drop 12).take 1))) (UInt8.ofNat (value ((l.drop 13).take 1)))
    (UInt16.ofNat (value ((l.drop 14).take 2))) (UInt16.ofNat (value ((l.drop 16).take 2)))
    (UInt16.ofNat (value ((l.drop 18).take 2)))

theorem reads_parseFields : Reads parseFields 20 ofBytes := by
  refine Reads.congr (.bind NetParser.reads_u16 fun _ => .bind NetParser.reads_u16 fun _ =>
    .bind NetParser.reads_u32 fun _ => .bind NetParser.reads_u32 fun _ => .bind NetParser.reads_u8 fun _ =>
    .bind NetParser.reads_u8 fun _ => .bind NetParser.reads_u16 fun _ => .bind NetParser.reads_u16 fun _ =>
    .bind NetParser.reads_u16 fun _ => .pure _) fun l => ?_
  simp only [List.drop_drop]
  rfl

def beforeCksum : List UInt8 :=
  bytes 2 h.sport.toNat ++ bytes 2 h.dport.toNat ++ bytes 4 h.seqno.rawValue.toNat ++
    bytes 4 h.ackno.rawValue.toNat ++ [h.doff <<< 4, h.flags] ++ bytes 2 h.win.toNat

def fixedBytes : List UInt8 := h.beforeCksum ++ bytes 2 h.cksum.toNat ++ bytes 2 h.uptr.toNat

theorem length_beforeCksum : h.beforeCksum.length = 16 := by simp [beforeCksum]

theorem length_fixedBytes : h.fixedBytes.length = 20 := by simp [fixedBytes, length_beforeCksum]

variable {h}

theorem serialize_eq (hd : 5 ≤ h.doff.toNat) :
    h.serialize = .ok (h.fixedBytes ++ List.replicate (4 * h.doff.toNat - 20) 0) := by
  have hlt : ¬ h.doff < 5 := fun hlt => Nat.not_lt.2 hd (UInt8.lt_iff_toNat_lt.1 hlt)
  have hresize : resize h.fixedBytes (4 * h.doff.toNat) =
      h.fixedBytes ++ List.replicate (4 * h.doff.toNat - 20) 0 := by
    rw [resize, length_fixedBytes, List.take_of_length_le (by rw [length_fixedBytes]; omega)]
  rw [serialize, if_neg hlt, ← hresize]
  simp only [NetUnparser.u16_eq, NetUnparser.u32_eq, NetUnparser.u8_eq, fixedBytes, beforeCksum,
    List.nil_append, List.append_assoc, List.cons_append]

theorem flags_bits :
    (h.flags &&& 0b00100000 != 0) = h.urg ∧ (h.flags &&& 0b00010000 != 0) = h.ack ∧
    (h.flags &&& 0b00001000 != 0) = h.psh ∧ (h.flags &&& 0b00000100 != 0) = h.rst ∧
    (h.flags &&& 0b00000010 != 0) = h.syn ∧ (h.flags &&& 0b00000001 != 0) = h.fin := by
  have hbits : ∀ urg ack psh rst syn fin : Bool, ∀ fl, fl = flags { init with urg, ack, psh, rst, syn, fin } →
      (fl &&& 0b00100000 != 0) = urg ∧ (fl &&& 0b00010000 != 0) = ack ∧ (fl &&& 0b00001000 != 0) = psh ∧
      (fl &&& 0b00000100 != 0) = rst ∧ (fl &&& 0b00000010 != 0) = syn ∧ (fl &&& 0b00000001 != 0) = fin := by
    simp only [forall_eq]
    decide
  exact hbits h.urg h.ack h.psh h.rst h.syn h.fin h.flags rfl

theorem ofBytes_fixedBytes (hd : h.doff.toNat < 16) : ofBytes h.fixedBytes = h := by
  have hdoff : (h.doff <<< 4) >>> 4 = h.doff :=
    forall_byte (P := fun b => b.toNat < 16 → (b <<< 4) >>> 4 = b) (by decide +kernel) h.doff hd
  obtain ⟨hurg, hack, hpsh, hrst, hsyn, hfin⟩ := h.flags_bits
  show ofFields (UInt16.ofNat (value (bytes 2 h.sport.toNat))) (UInt16.ofNat (value (bytes 2 h.dport.toNat)))
    (UInt32.ofNat (value (bytes 4 h.seqno.rawValue.toNat))) (UInt32.ofNat (value (bytes 4 h.ackno.rawValue.toNat)))
    (UInt8.ofNat (value [h.doff <<< 4])) (UInt8.ofNat (value [h.flags]))
    (UInt16.ofNat (value (bytes 2 h.win.toNat))) (UInt16.ofNat (value (bytes 2 h.cksum.toNat)))
    (UInt16.ofNat (value (bytes 2 h.uptr.toNat))) = h
  simp only [NetParser.u16_bytes, NetParser.u32_bytes, value_singleton, UInt8.ofNat_toNat]
  simp only [ofFields, hdoff, hurg, hack, hpsh, hrst, hsyn, hfin]

section OfBytes

/-! The bytes of a header that was read: the reserved bits, in the bytes 12 and 13, are lost. -/

variable {l : List UInt8} (hl : l.length = 20)
include hl

theorem value_byte {i : ℕ} (hi : i < 20) : UInt8.ofNat (value ((l.drop i).take 1)) = l.getD i 0 := by
  rw [List.drop_eq_getElem_cons (by omega), List.take_succ_cons, List.take_zero, value_singleton,
    UInt8.ofNat_toNat, List.getD_eq_getElem?_getD, List.getElem?_eq_getElem (by omega), Option.getD_some]

theorem doff_ofBytes : (ofBytes l).doff = l.getD 12 0 >>> 4 := by
  rw [← value_byte hl (by decide)]; rfl

theorem flags_ofBytes : (ofBytes l).flags = l.getD 13 0 &&& 0x3f := by
  have hbits : ∀ fl, (ofFields 0 0 0 0 0 fl 0 0 0).flags = fl &&& 0x3f := forall_byte (by decide +kernel)
  rw [← value_byte hl (by decide)]
  exact hbits _

theorem beforeCksum_ofBytes : (ofBytes l).beforeCksum =
    l.take 12 ++ [l.getD 12 0 &&& 0xf0, l.getD 13 0 &&& 0x3f] ++ (l.drop 14).take 2 := by
  have hdoff : (ofBytes l).doff <<< 4 = l.getD 12 0 &&& 0xf0 := by
    rw [doff_ofBytes hl]
    exact forall_byte (P := fun b => (b >>> 4) <<< 4 = b &&& 0xf0) (by decide +kernel) _
  have hpart {i n : ℕ} (h : i + n ≤ 20) : ((l.drop i).take n).length = n := by
    rw [List.length_take, List.length_drop]; omega
  have hhead : l.take 2 ++ (l.drop 2).take 2 ++ (l.drop 4).take 4 ++ (l.drop 8).take 4 = l.take 12 := by
    rw [← List.take_add, ← List.take_add, ← List.take_add]
  rw [beforeCksum, hdoff, flags_ofBytes hl, ← hhead]
  simp only [ofBytes, ofFields]
  rw [NetParser.bytes_u16 (l := l.take 2) (by simp [hl]), NetParser.bytes_u16 (hpart (by decide)),
    NetParser.bytes_u32 (hpart (by decide)), NetParser.bytes_u32 (hpart (by decide)),
    NetParser.bytes_u16 (hpart (by decide))]

theorem cksum_ofBytes : bytes 2 (ofBytes l).cksum.toNat = (l.drop 16).take 2 :=
  NetParser.bytes_u16 (by simp [hl])

theorem uptr_ofBytes : bytes 2 (ofBytes l).uptr.toNat = (l.drop 18).take 2 :=
  NetParser.bytes_u16 (by simp [hl])

end OfBytes

section Parse

variable {b : Buffer}

theorem skipOptions_packetTooShort {p : NetParser} (hd : ¬ h.doff < 5)
    (hp : p.error = .packetTooShort ∨
      p.error = .noError ∧ p.buffer.str.length + 20 < 4 * h.doff.toNat) :
    ∃ b', skipOptions h p = .ok (.packetTooShort, ⟨b', .packetTooShort⟩) := by
  obtain ⟨u, b', hb'⟩ := (NetParser.reads_removePrefix (h.doff.toNat * 4 - length)).short p
    (hp.imp_right fun hp => ⟨hp.1, by simp only [length]; omega⟩)
  exact ⟨b', by rw [skipOptions, if_neg hd, Parse.bind_apply, hb']; rfl⟩

theorem skipOptions_short {p : NetParser}
    (hp : p.error = .packetTooShort ∨
      p.error = .noError ∧ ¬ h.doff < 5 ∧ p.buffer.str.length + 20 < 4 * h.doff.toNat) :
    ∃ r b', skipOptions h p = .ok (r, ⟨b', .packetTooShort⟩) := by
  by_cases hd : h.doff < 5
  · rcases hp with hp | hp
    · exact ⟨.headerTooShort, p.buffer, by rw [skipOptions, if_pos hd, ← hp]; rfl⟩
    · exact absurd hd hp.2.1
  · exact ⟨_, skipOptions_packetTooShort hd (hp.imp_right fun hp => ⟨hp.1, hp.2.2⟩)⟩

theorem parse_apply {p q q' : NetParser} {r : ParseResult} (hf : parseFields p = .ok (h, q))
    (hs : skipOptions h q = .ok (r, q')) : parse p = .ok ((r, h), q') := by
  rw [parse, Parse.bind_apply, hf, Parse.ok_bind, Parse.bind_apply, hs]
  rfl

theorem parse_short
    (hlen : b.str.length < 20 ∨ ¬ (ofBytes (b.str.take 20)).doff < 5 ∧
      b.str.length < 4 * (ofBytes (b.str.take 20)).doff.toNat) :
    ∃ r b', parse (.init b) = .ok (r, ⟨b', .packetTooShort⟩) := by
  by_cases hb : b.str.length < 20
  · obtain ⟨h, b', hf⟩ := reads_parseFields.short (.init b) (Or.inr ⟨rfl, hb⟩)
    obtain ⟨r, b'', hs⟩ := skipOptions_short (h := h) (p := ⟨b', .packetTooShort⟩) (Or.inl rfl)
    exact ⟨_, b'', parse_apply hf hs⟩
  · obtain ⟨hd, hlt⟩ := hlen.resolve_left hb
    obtain ⟨b', hf, hb'⟩ := reads_parseFields.fits (.init b) rfl (Nat.not_lt.1 hb)
    have hrest : b'.str.length = b.str.length - 20 := by rw [hb', List.length_drop]; rfl
    obtain ⟨r, b'', hs⟩ := skipOptions_short (h := ofBytes (b.str.take 20)) (p := ⟨b', .noError⟩)
      (Or.inr ⟨rfl, hd, by show b'.str.length + 20 < _; omega⟩)
    exact ⟨_, b'', parse_apply hf hs⟩

/-- A data offset below the minimum is returned as an error, but not left in the parser. -/
theorem parse_headerTooShort (hlen : 20 ≤ b.str.length) (hd : (ofBytes (b.str.take 20)).doff < 5) :
    ∃ b', parse (.init b) = .ok ((.headerTooShort, ofBytes (b.str.take 20)), ⟨b', .noError⟩) ∧
      b'.str = b.str.drop 20 := by
  obtain ⟨b', hf, hb'⟩ := reads_parseFields.fits (.init b) rfl hlen
  refine ⟨b', parse_apply hf ?_, hb'⟩
  rw [skipOptions, if_pos hd]
  rfl

theorem parse_fits (hlen : 20 ≤ b.str.length) (hd : ¬ (ofBytes (b.str.take 20)).doff < 5)
    (hfit : 4 * (ofBytes (b.str.take 20)).doff.toNat ≤ b.str.length) :
    ∃ b', parse (.init b) = .ok ((.noError, ofBytes (b.str.take 20)), ⟨b', .noError⟩) ∧
      b'.str = b.str.drop (4 * (ofBytes (b.str.take 20)).doff.toNat) := by
  obtain ⟨b', hf, hb'⟩ := reads_parseFields.fits (.init b) rfl hlen
  generalize hh : ofBytes (b.str.take 20) = h at hd hfit ⊢
  have hd' : 5 ≤ h.doff.toNat := Nat.not_lt.1 fun hlt => hd (UInt8.lt_iff_toNat_lt.2 hlt)
  have hb'' : b'.str = b.str.drop 20 := hb'
  have hrest : h.doff.toNat * 4 - length ≤ b'.str.length := by
    rw [hb'', List.length_drop, length]; omega
  obtain ⟨b₂, hs, hb₂⟩ := (NetParser.reads_removePrefix _).fits ⟨b', .noError⟩ rfl hrest
  refine ⟨b₂, parse_apply (hh ▸ hf) ?_, ?_⟩
  · rw [skipOptions, if_neg hd, Parse.bind_apply, hs]
    rfl
  · rw [hb₂, hb'', List.drop_drop, length]
    congr 1
    omega

end Parse

end TCPHeader
end Sponge

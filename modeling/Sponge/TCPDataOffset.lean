import Sponge.TCPSegmentCodec

/-!
# Where the data offset goes wrong

Two places of `tcp_header.cc` take the data offset on trust. `parse` looks at it before it asks the
parser whether there was a header at all: a field past the end of the data reads as `0`, so a header
that is cut off before byte 12, or later with a small data offset, is reported as `HeaderTooShort`
(`parse_error_exact_iff`). `serialize` pads the header to all eight bits of it and writes the lower four
(`serialize_framing_iff`).
-/

namespace Sponge

open BigEndian Words

namespace TCPHeader

open TCPSegment (dataOffset)

/-- Every field of `h` is the value at its place in `b`, and every flag its bit of byte 13. -/
structure FieldsAt (h : TCPHeader) (b : List UInt8) : Prop where
  sport : h.sport.toNat = value (b.take 2)
  dport : h.dport.toNat = value ((b.drop 2).take 2)
  seqno : h.seqno.rawValue.toNat = value ((b.drop 4).take 4)
  ackno : h.ackno.rawValue.toNat = value ((b.drop 8).take 4)
  doff : h.doff.toNat = (b.getD 12 0).toNat / 16
  urg : h.urg = (b.getD 13 0).toNat.testBit 5
  ack : h.ack = (b.getD 13 0).toNat.testBit 4
  psh : h.psh = (b.getD 13 0).toNat.testBit 3
  rst : h.rst = (b.getD 13 0).toNat.testBit 2
  syn : h.syn = (b.getD 13 0).toNat.testBit 1
  fin : h.fin = (b.getD 13 0).toNat.testBit 0
  win : h.win.toNat = value ((b.drop 14).take 2)
  cksum : h.cksum.toNat = value ((b.drop 16).take 2)
  uptr : h.uptr.toNat = value ((b.drop 18).take 2)

/-- What `parse` should make of the bytes of `b`. -/
structure Classified (b : Buffer) (r : ParseResult) (h : TCPHeader) (p : NetParser) : Prop where
  short : b.str.length < 20 → r = .packetTooShort
  headerShort : 20 ≤ b.str.length → dataOffset b.str < 5 → r = .headerTooShort
  optionsShort : 5 ≤ dataOffset b.str → b.str.length < 4 * dataOffset b.str → r = .packetTooShort
  fits : 5 ≤ dataOffset b.str → 4 * dataOffset b.str ≤ b.str.length →
    r = .noError ∧ FieldsAt h b.str ∧ p.buffer.str = b.str.drop (4 * dataOffset b.str)

theorem toNat_u16 {l : List UInt8} (h : l.length ≤ 2) : (UInt16.ofNat (value l)).toNat = value l :=
  UInt16.toNat_ofNat_of_lt' (Nat.lt_of_lt_of_le (value_lt l) (Nat.pow_le_pow_right (by decide) h))

theorem toNat_u32 {l : List UInt8} (h : l.length ≤ 4) : (UInt32.ofNat (value l)).toNat = value l :=
  UInt32.toNat_ofNat_of_lt' (Nat.lt_of_lt_of_le (value_lt l) (Nat.pow_le_pow_right (by decide) h))

theorem fieldsAt_ofBytes {b : List UInt8} (hlen : 20 ≤ b.length) : FieldsAt (ofBytes (b.take 20)) b := by
  have h20 : (b.take 20).length = 20 := by rw [List.length_take]; exact Nat.min_eq_left hlen
  have hpart {i n : ℕ} (h : i + n ≤ 20) : ((b.take 20).drop i).take n = (b.drop i).take n := by
    rw [List.drop_take, List.take_take, Nat.min_eq_left (by omega)]
  have hget {i : ℕ} (hi : i < 20) : (b.take 20).getD i 0 = b.getD i 0 := by
    rw [List.getD_eq_getElem?_getD, List.getD_eq_getElem?_getD, List.getElem?_take_of_lt hi]
  have h16 {i : ℕ} (h : i + 2 ≤ 20) :
      (UInt16.ofNat (value (((b.take 20).drop i).take 2))).toNat = value ((b.drop i).take 2) := by
    rw [hpart h, toNat_u16 (List.length_take_le ..)]
  have h32 {i : ℕ} (h : i + 4 ≤ 20) :
      (UInt32.ofNat (value (((b.take 20).drop i).take 4))).toNat = value ((b.drop i).take 4) := by
    rw [hpart h, toNat_u32 (List.length_take_le ..)]
  have hnibble : ∀ x : UInt8, (x >>> 4).toNat = x.toNat / 16 := forall_byte (by decide +kernel)
  have hbit {i : ℕ} {m : UInt8} (hm : ∀ x : UInt8, (x &&& m != 0) = x.toNat.testBit i) :
      (UInt8.ofNat (value (((b.take 20).drop 13).take 1)) &&& m != 0) = (b.getD 13 0).toNat.testBit i := by
    rw [value_byte h20 (by decide), hget (by decide), hm]
  refine ⟨h16 (i := 0) (by decide), h16 (by decide), h32 (by decide), h32 (by decide), ?_, ?_, ?_, ?_, ?_, ?_,
    ?_, h16 (by decide), h16 (by decide), h16 (by decide)⟩
  · rw [doff_ofBytes h20, hget (by decide), hnibble]
  · exact hbit (forall_byte (by decide +kernel))
  · exact hbit (forall_byte (by decide +kernel))
  · exact hbit (forall_byte (by decide +kernel))
  · exact hbit (forall_byte (by decide +kernel))
  · exact hbit (forall_byte (by decide +kernel))
  · exact hbit (forall_byte (by decide +kernel))

section Short

/-! What is left of the fields when the data ends before them. -/

variable {b : Buffer}

/-- The fields before the data offset. -/
def beforeOffset : Parse (UInt16 × UInt16 × UInt32 × UInt32) := do
  let sport ← NetParser.u16
  let dport ← NetParser.u16
  let seqno ← NetParser.u32
  let ackno ← NetParser.u32
  return (sport, dport, seqno, ackno)

/-- The fields after the data offset. -/
def afterOffset : Parse (UInt8 × UInt16 × UInt16 × UInt16) := do
  let fl ← NetParser.u8
  let win ← NetParser.u16
  let cksum ← NetParser.u16
  let uptr ← NetParser.u16
  return (fl, win, cksum, uptr)

theorem parseFields_eq : parseFields =
    beforeOffset >>= fun x => NetParser.u8 >>= fun off =>
      (fun y => ofFields x.1 x.2.1 x.2.2.1 x.2.2.2 off y.1 y.2.1 y.2.2.1 y.2.2.2) <$> afterOffset := by
  simp only [beforeOffset, afterOffset, bind_assoc, pure_bind, map_eq_pure_bind]
  rfl

theorem reads_beforeOffset : ∃ f, Reads beforeOffset 12 f :=
  ⟨_, .bind NetParser.reads_u16 fun _ => .bind NetParser.reads_u16 fun _ => .bind NetParser.reads_u32
    fun _ => .bind NetParser.reads_u32 fun _ => .pure _⟩

theorem reads_afterOffset : ∃ f, Reads afterOffset 7 f :=
  ⟨_, .bind NetParser.reads_u8 fun _ => .bind NetParser.reads_u16 fun _ => .bind NetParser.reads_u16
    fun _ => .bind NetParser.reads_u16 fun _ => .pure _⟩

/-- Reading the data offset: it is there, or it reads as `0` and all that follows fails. -/
theorem offset_cases (b : Buffer) : ∃ x p q, beforeOffset (.init b) = .ok (x, p) ∧
    NetParser.u8 p = .ok (b.str.getD 12 0, q) ∧
    (b.str.length < 20 → q.error = .packetTooShort ∨ q.error = .noError ∧ q.buffer.str.length < 7) := by
  obtain ⟨f, hf⟩ := reads_beforeOffset
  by_cases h13 : b.str.length < 13
  · have hzero : b.str.getD 12 0 = 0 := by
      rw [List.getD_eq_getElem?_getD, List.getElem?_eq_none (by omega), Option.getD_none]
    rw [hzero]
    by_cases h12 : b.str.length < 12
    · obtain ⟨x, b', hx⟩ := hf.short (.init b) (.inr ⟨rfl, h12⟩)
      exact ⟨x, _, _, hx, NetParser.u8_short (.inl rfl), fun _ => .inl rfl⟩
    · obtain ⟨b', hx, hb'⟩ := hf.fits (.init b) rfl (Nat.not_lt.1 h12)
      have hlen : b'.str.length < 1 := by
        rw [hb', List.length_drop]
        show b.str.length - 12 < 1
        omega
      exact ⟨_, _, _, hx, NetParser.u8_short (.inr ⟨rfl, hlen⟩), fun _ => .inl rfl⟩
  · obtain ⟨b', hx, hb'⟩ := hf.fits (.init b) rfl (by show 12 ≤ b.str.length; omega)
    have hb₁ : b'.str = b.str.drop 12 := hb'
    obtain ⟨b'', hoff, hb''⟩ := NetParser.reads_u8.fits ⟨b', .noError⟩ rfl (by
      show 1 ≤ b'.str.length
      rw [hb₁, List.length_drop]; omega)
    have hbyte : UInt8.ofNat (value (b'.str.take 1)) = b.str.getD 12 0 := by
      rw [hb₁, List.drop_eq_getElem_cons (by omega), List.take_succ_cons, List.take_zero, value_singleton,
        UInt8.ofNat_toNat, List.getD_eq_getElem?_getD, List.getElem?_eq_getElem (by omega), Option.getD_some]
    refine ⟨_, _, ⟨b'', .noError⟩, hx, by rw [hoff, hbyte], fun h20 => .inr ⟨rfl, ?_⟩⟩
    show b''.str.length < 7
    rw [hb'', hb₁, List.length_drop, List.length_drop]
    omega

theorem parseFields_short (hlen : b.str.length < 20) : ∃ h b', parseFields (.init b) =
    .ok (h, ⟨b', .packetTooShort⟩) ∧ h.doff.toNat = dataOffset b.str := by
  obtain ⟨x, p, q, hx, hoff, hq⟩ := offset_cases b
  obtain ⟨g, hg⟩ := reads_afterOffset
  obtain ⟨y, b', hy⟩ := hg.short q (hq hlen)
  refine ⟨ofFields x.1 x.2.1 x.2.2.1 x.2.2.2 (b.str.getD 12 0) y.1 y.2.1 y.2.2.1 y.2.2.2, b', ?_, rfl⟩
  rw [parseFields_eq, Parse.bind_apply, hx, Parse.ok_bind, Parse.bind_apply, hoff, Parse.ok_bind,
    Parse.map_apply, hy]
  rfl

/-- The check of the data offset comes before the parser's own error. -/
theorem parse_of_short (hlen : b.str.length < 20) : ∃ r h p, parse (.init b) = .ok ((r, h), p) ∧
    r = if dataOffset b.str < 5 then .headerTooShort else .packetTooShort := by
  obtain ⟨h, b', hf, hdoff⟩ := parseFields_short hlen
  by_cases hd : dataOffset b.str < 5
  · have hd' : h.doff < 5 := UInt8.lt_iff_toNat_lt.2 (hdoff ▸ hd)
    refine ⟨.headerTooShort, h, ⟨b', .packetTooShort⟩, parse_apply hf ?_, (if_pos hd).symm⟩
    rw [skipOptions, if_pos hd']
    rfl
  · have hd' : ¬ h.doff < 5 := fun hlt => hd (hdoff ▸ UInt8.lt_iff_toNat_lt.1 hlt)
    obtain ⟨b'', hs⟩ := skipOptions_packetTooShort (p := ⟨b', .packetTooShort⟩) hd' (.inl rfl)
    exact ⟨.packetTooShort, h, _, parse_apply hf hs, (if_neg hd).symm⟩

theorem parse_of_options_short (h5 : 5 ≤ dataOffset b.str) (h20 : 20 ≤ b.str.length)
    (hlen : b.str.length < 4 * dataOffset b.str) :
    ∃ h p, parse (.init b) = .ok ((.packetTooShort, h), p) := by
  obtain ⟨b', hf, hb'⟩ := reads_parseFields.fits (.init b) rfl h20
  have hd : ¬ (ofBytes (b.str.take 20)).doff < 5 := by
    rw [TCPSegment.doff_lt_iff h20]
    exact Nat.not_lt.2 h5
  obtain ⟨b'', hs⟩ := skipOptions_packetTooShort (p := ⟨b', .noError⟩) hd (.inr ⟨rfl, by
    rw [TCPSegment.toNat_doff_ofBytes h20, hb', List.length_drop]
    show b.str.length - 20 + 20 < _
    omega⟩)
  exact ⟨_, _, parse_apply hf hs⟩

end Short

/-- `parse` gives each error in its place, unless the data ends before byte 12 or before byte 20 with a
data offset below the minimum. -/
theorem parse_error_exact_iff (b : Buffer) :
    (∃ r h p, parse (.init b) = .ok ((r, h), p) ∧ Classified b r h p) ↔
      ¬ (b.str.length < 13 ∨ b.str.length < 20 ∧ dataOffset b.str < 5) := by
  have hmissing : b.str.length < 13 → dataOffset b.str < 5 := by
    intro h13
    rw [dataOffset, List.getD_eq_getElem?_getD, List.getElem?_eq_none (by omega)]
    decide
  by_cases hlen : b.str.length < 20
  · obtain ⟨r, h, p, hp, hr⟩ := parse_of_short hlen
    constructor
    · rintro ⟨r', h', p', hp', hc⟩ hbad
      obtain ⟨⟨rfl, rfl⟩, rfl⟩ : (r = r' ∧ h = h') ∧ p = p' := by simpa using hp.symm.trans hp'
      have hd : dataOffset b.str < 5 := hbad.elim hmissing And.right
      have := hc.short hlen
      rw [hr, if_pos hd] at this
      cases this
    · intro hgood
      have hd : ¬ dataOffset b.str < 5 := fun hd => hgood (.inr ⟨hlen, hd⟩)
      rw [if_neg hd] at hr
      refine ⟨r, h, p, hp, fun _ => hr, ?_, fun _ _ => hr, ?_⟩ <;> omega
  · have h20 := Nat.not_lt.1 hlen
    refine iff_of_true ?_ (by omega)
    by_cases hd : dataOffset b.str < 5
    · obtain ⟨b', hp, -⟩ := parse_headerTooShort h20 ((TCPSegment.doff_lt_iff h20).2 hd)
      refine ⟨_, _, _, hp, by omega, fun _ _ => rfl, ?_, ?_⟩ <;> omega
    · by_cases hfit : b.str.length < 4 * dataOffset b.str
      · obtain ⟨h, p, hp⟩ := parse_of_options_short (Nat.not_lt.1 hd) h20 hfit
        refine ⟨_, _, _, hp, by omega, ?_, fun _ _ => rfl, ?_⟩ <;> omega
      · have hdoff := TCPSegment.toNat_doff_ofBytes h20
        obtain ⟨b', hp, hb'⟩ := parse_fits h20 (by rwa [TCPSegment.doff_lt_iff h20])
          (by rw [hdoff]; omega)
        rw [hdoff] at hb'
        exact ⟨_, _, _, hp, by omega, by omega, by omega, fun _ _ => ⟨rfl, fieldsAt_ofBytes h20, hb'⟩⟩

/-- Five bytes are not enough for a header, whatever its data offset would have been. -/
theorem parse_error_of_five_bytes :
    ¬ ∃ r h p, parse (.init (.ofString [0, 1, 2, 3, 4])) = .ok ((r, h), p) ∧
      Classified (.ofString [0, 1, 2, 3, 4]) r h p := by
  rintro ⟨r, h, p, hp, hc⟩
  have hr : (parse (.init (.ofString [0, 1, 2, 3, 4]))).map (·.1.1) = .ok .headerTooShort := by decide +kernel
  rw [hp] at hr
  have hshort := hc.short (by decide)
  subst hshort
  cases hr

end TCPHeader

namespace TCPSegment

variable {seg target : TCPSegment} {ck : UInt32}

theorem serialize_of_doff_lt (hd : seg.header.doff.toNat < 5) :
    seg.serialize ck = .error (.runtimeError "TCP header too short") := by
  have hser : (seg.header.withCksum 0).serialize = .error (.runtimeError "TCP header too short") :=
    if_pos (UInt8.lt_iff_toNat_lt.2 hd)
  rw [serialize, hser]
  rfl

/-- The four bits of the data offset on the wire. -/
theorem dataOffset_wire (seg : TCPSegment) (x : UInt16) :
    dataOffset (seg.wire x) = seg.header.doff.toNat % 16 := by
  have hget : (seg.wire x).getD 12 0 = seg.header.doff <<< 4 := by
    rw [List.getD_eq_getElem?_getD, wire, List.append_assoc,
      List.getElem?_append_left (by rw [TCPHeader.length_beforeCksum]; decide)]
    rfl
  rw [dataOffset, hget]
  exact forall_byte (P := fun d => ((d <<< 4) >>> 4).toNat = d.toNat % 16) (by decide +kernel) _

/-- A data offset of 16 or more is written as another one, and nothing notices. -/
theorem parse_serialize_of_large (seg target : TCPSegment) (ck : UInt32) (hd : 16 ≤ seg.header.doff.toNat) :
    ∃ out seg', seg.serialize ck = .ok out ∧
      target.parse (.ofString out.concatenate) ck = .ok (.noError, seg') ∧
      seg'.header.doff.toNat = seg.header.doff.toNat % 16 := by
  obtain ⟨out, hout, hcat⟩ := serialize_eq seg ck (by omega)
  have hck := checksum_wire_cksumOut seg ck
  have hoff := dataOffset_wire seg (seg.cksumOut ck)
  have hlen : (seg.wire (seg.cksumOut ck)).length = 4 * seg.header.doff.toNat + seg.payload.str.length := by
    rw [wire_eq, List.length_append, length_headerBytes (by omega)]
  rw [← hcat] at hck hoff hlen
  have h20 : 20 ≤ (Buffer.ofString out.concatenate).str.length := by rw [Buffer.str_ofString]; omega
  have hdoff := toNat_doff_ofBytes h20
  simp only [Buffer.str_ofString] at h20 hdoff
  by_cases h5 : dataOffset out.concatenate < 5
  · obtain ⟨b', hp, -⟩ := parse_dataOffset_lt (b := .ofString out.concatenate) target hck h20 h5
    exact ⟨out, _, hout, hp, hdoff.trans hoff⟩
  · have hwf : WellFormed (Buffer.ofString out.concatenate).str ck :=
      ⟨hck, h20, Nat.not_lt.1 h5, by rw [Buffer.str_ofString, hoff, hlen]; omega⟩
    obtain ⟨b', hp, -⟩ := parse_wellFormed target hwf
    exact ⟨out, _, hout, hp, hdoff.trans hoff⟩

/-- What is serialized and parsed again keeps its data offset and its payload exactly when the data
offset fits its four bits. -/
theorem serialize_framing_iff (seg target : TCPSegment) (ck : UInt32) :
    (∀ out seg', seg.serialize ck = .ok out →
      target.parse (.ofString out.concatenate) ck = .ok (.noError, seg') →
      seg'.header.doff = seg.header.doff ∧ seg'.payload.str = seg.payload.str) ↔
    seg.header.doff.toNat ≤ 15 := by
  constructor
  · intro hframe
    by_contra hlarge
    obtain ⟨out, seg', hout, hp, hdoff⟩ := parse_serialize_of_large seg target ck (by omega)
    rw [(hframe out seg' hout hp).1] at hdoff
    omega
  · intro h15 out seg' hout hp
    by_cases h5 : 5 ≤ seg.header.doff.toNat
    · obtain ⟨out', seg'', hout', hp', hheader, hpayload⟩ := parse_serialize seg target ck h5 h15
      obtain rfl : out = out' := by simpa using hout.symm.trans hout'
      obtain rfl : seg' = seg'' := by simpa using hp.symm.trans hp'
      exact ⟨by rw [← hheader]; rfl, hpayload⟩
    · rw [serialize_of_doff_lt (by omega)] at hout
      cases hout

def doff21 : TCPSegment := ⟨{ TCPHeader.init with doff := 21 }, .ofString [7]⟩

theorem serialize_misframes_doff21 :
    (doff21.serialize 0 >>= fun out => init.parse (.ofString out.concatenate) 0).map
      (fun x => (x.1, x.2.header.doff, x.2.payload.str)) = .ok (.noError, 5, List.replicate 64 0 ++ [7]) ∧
    ¬ ∀ out seg', doff21.serialize 0 = .ok out →
      init.parse (.ofString out.concatenate) 0 = .ok (.noError, seg') →
      seg'.header.doff = doff21.header.doff ∧ seg'.payload.str = doff21.payload.str := by
  refine ⟨by decide +kernel, fun hframe => ?_⟩
  obtain ⟨out, seg', hout, hp, hdoff⟩ := parse_serialize_of_large doff21 init 0 (by decide)
  rw [(hframe out seg' hout hp).1] at hdoff
  exact absurd hdoff (by decide)

end TCPSegment
end Sponge

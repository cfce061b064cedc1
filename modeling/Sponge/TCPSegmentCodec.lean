import Sponge.TCPSegment

/-!
# Encoding and decoding TCP segments

`wire seg x` is a segment on the wire with `x` in its checksum field, and `serialize` puts there the
checksum of the segment with an empty field (`serialize_eq`). So the two round trips come down to the
header's (`TCPHeader.ofBytes_fixedBytes`, `TCPHeader.beforeCksum_ofBytes`) and to what the checksum of
data with a filled field is (`InternetChecksum.value_insert_eq_zero`, `value_eq_or_of_insert_eq_zero`).
-/

namespace Sponge

open BigEndian

namespace TCPSegment

variable (seg : TCPSegment)

def afterCksum : List UInt8 :=
  bytes 2 seg.header.uptr.toNat ++ (List.replicate (4 * seg.header.doff.toNat - 20) 0 ++ seg.payload.str)

/-- The segment with `x` as its checksum. -/
def wire (x : UInt16) : List UInt8 := seg.header.beforeCksum ++ bytes 2 x.toNat ++ seg.afterCksum

def cksumOut (ck : UInt32) : UInt16 := checksum (seg.wire 0) ck

variable {seg} {ck : UInt32}

def headerBytes (seg : TCPSegment) (x : UInt16) : List UInt8 :=
  (seg.header.withCksum x).fixedBytes ++ List.replicate (4 * seg.header.doff.toNat - 20) 0

theorem wire_eq (x : UInt16) : seg.wire x = seg.headerBytes x ++ seg.payload.str := by
  simp only [wire, afterCksum, headerBytes, TCPHeader.fixedBytes, List.append_assoc]
  rfl

theorem serialize_eq (seg : TCPSegment) (ck : UInt32) (hd : 5 ≤ seg.header.doff.toNat) :
    ∃ out, seg.serialize ck = .ok out ∧ out.concatenate = seg.wire (seg.cksumOut ck) := by
  have hser (x : UInt16) : (seg.header.withCksum x).serialize = .ok (seg.headerBytes x) :=
    TCPHeader.serialize_eq (h := seg.header.withCksum x) hd
  have hck : (((InternetChecksum.init ck).add (seg.headerBytes 0)).add seg.payload.str).value =
      seg.cksumOut ck := by
    rw [cksumOut, checksum, wire_eq, InternetChecksum.add_append]
  refine ⟨(BufferList.empty.append (.ofString (seg.headerBytes (seg.cksumOut ck)))).append
    (.ofBuffer seg.payload), ?_, ?_⟩
  · simp only [serialize, hser, Parse.ok_bind, hck, TCPHeader.withCksum_withCksum]
    rfl
  · rw [BufferList.concatenate_append, BufferList.concatenate_append, BufferList.concatenate_ofString,
      BufferList.concatenate_ofBuffer, wire_eq]
    rfl

theorem bodd_length_beforeCksum (h : TCPHeader) : h.beforeCksum.length.bodd = false := by
  rw [TCPHeader.length_beforeCksum]; rfl

theorem checksum_wire_cksumOut (seg : TCPSegment) (ck : UInt32) :
    checksum (seg.wire (seg.cksumOut ck)) ck = 0 :=
  InternetChecksum.value_insert_eq_zero (bodd_length_beforeCksum _) ck rfl

theorem length_headerBytes (hd : 5 ≤ seg.header.doff.toNat) (x : UInt16) :
    (seg.headerBytes x).length = 4 * seg.header.doff.toNat := by
  rw [headerBytes, List.length_append, TCPHeader.length_fixedBytes, List.length_replicate]; omega

/-- What is serialized is parsed again, whatever the segment that is filled. -/
theorem parse_serialize (seg target : TCPSegment) (ck : UInt32) (h5 : 5 ≤ seg.header.doff.toNat)
    (h15 : seg.header.doff.toNat ≤ 15) :
    ∃ out seg', seg.serialize ck = .ok out ∧
      target.parse (.ofString out.concatenate) ck = .ok (.noError, seg') ∧
      seg'.header.withCksum seg.header.cksum = seg.header ∧ seg'.payload.str = seg.payload.str := by
  obtain ⟨out, hout, hcat⟩ := serialize_eq seg ck h5
  generalize hv : seg.cksumOut ck = v at hcat
  have htake : (seg.wire v).take 20 = (seg.header.withCksum v).fixedBytes := by
    rw [wire_eq, headerBytes, List.append_assoc]
    exact List.take_left' (TCPHeader.length_fixedBytes _)
  have hdecode : TCPHeader.ofBytes ((seg.wire v).take 20) = seg.header.withCksum v := by
    rw [htake]; exact TCPHeader.ofBytes_fixedBytes (Nat.lt_succ_of_le h15)
  have hlen : (seg.wire v).length = 4 * seg.header.doff.toNat + seg.payload.str.length := by
    rw [wire_eq, List.length_append, length_headerBytes h5]
  have hdoff : dataOffset (seg.wire v) = seg.header.doff.toNat := by
    have := toNat_doff_ofBytes (b := .ofString (seg.wire v)) (by simp only [Buffer.str_ofString]; omega)
    rw [Buffer.str_ofString, hdecode] at this
    exact this.symm
  have hwf : WellFormed (Buffer.ofString (seg.wire v)).str ck := by
    rw [Buffer.str_ofString]
    exact ⟨hv ▸ checksum_wire_cksumOut seg ck, by omega, by omega, by omega⟩
  obtain ⟨b', hp, hb'⟩ := parse_wellFormed target hwf
  refine ⟨out, _, hout, by rw [hcat]; exact hp, ?_, ?_⟩
  · simp only [Buffer.str_ofString, hdecode]
    rfl
  · show b'.str = _
    rw [hb', Buffer.str_ofString, hdoff, wire_eq]
    exact List.drop_left' (length_headerBytes h5 v)

theorem parse_serialize_wrapping :
    ∃ out seg', serialize ⟨{ TCPHeader.init with doff := 6, syn := true, cksum := 7 },
        .ofString [1, 2, 3]⟩ 0xffffffff = .ok out ∧
      init.parse (.ofString out.concatenate) 0xffffffff = .ok (.noError, seg') ∧
      seg'.header.withCksum 7 = { TCPHeader.init with doff := 6, syn := true, cksum := 7 } ∧
      seg'.payload.str = (Buffer.ofString [1, 2, 3]).str :=
  parse_serialize ⟨{ TCPHeader.init with doff := 6, syn := true, cksum := 7 }, .ofString [1, 2, 3]⟩ init
    0xffffffff (by decide) (by decide)

/-- The byte `x` at the place `i` of a segment, with the reserved bits and the options cleared. -/
def clearedByte (doff i : ℕ) (x : UInt8) : UInt8 :=
  if i = 12 then x &&& 0xf0
  else if i = 13 then x &&& 0x3f
  else if 20 ≤ i ∧ i < 4 * doff then 0
  else x

structure Cleared (b : List UInt8) : Prop where
  low_nibble : b.getD 12 0 &&& 0x0f = 0
  high_bits : b.getD 13 0 &&& 0xc0 = 0
  options : ∀ i, 20 ≤ i → i < 4 * dataOffset b → b.getD i 0 = 0

theorem clearedByte_of_ne {d i : ℕ} (h12 : i ≠ 12) (h13 : i ≠ 13) (hopt : ¬ (20 ≤ i ∧ i < 4 * d)) :
    clearedByte d i = id := by
  funext x
  rw [clearedByte, if_neg h12, if_neg h13, if_neg hopt]
  rfl

theorem Cleared.clearedByte_eq {b : List UInt8} (hc : Cleared b) {i : ℕ} {x : UInt8} (hx : b[i]? = some x) :
    clearedByte (dataOffset b) i x = x := by
  have hget : b.getD i 0 = x := by rw [List.getD_eq_getElem?_getD, hx, Option.getD_some]
  unfold clearedByte
  split
  · subst i
    exact Words.forall_byte (P := fun x => x &&& 0x0f = 0 → x &&& 0xf0 = x) (by decide +kernel) x
      (hget ▸ hc.low_nibble)
  · split
    · subst i
      exact Words.forall_byte (P := fun x => x &&& 0xc0 = 0 → x &&& 0x3f = x) (by decide +kernel) x
        (hget ▸ hc.high_bits)
    · split
      · rename_i hopt
        rw [← hget, hc.options i hopt.1 hopt.2]
      · rfl

theorem getElem?_wire_cksum (seg : TCPSegment) (x : UInt16) {j : ℕ} (hj : j < 2) :
    (seg.wire x)[16 + j]? = (bytes 2 x.toNat)[j]? := by
  have hpre := seg.header.length_beforeCksum
  rw [wire, List.append_assoc, List.getElem?_append_right (by omega), hpre,
    List.getElem?_append_left (by simp; omega)]
  congr 1; omega

/-- `seg` is what `parse` makes of `b`. -/
structure ParsedFrom (seg : TCPSegment) (b : List UInt8) (ck : UInt32) : Prop where
  wellFormed : WellFormed b ck
  header_eq : seg.header = TCPHeader.ofBytes (b.take 20)
  payload_eq : seg.payload.str = b.drop (4 * dataOffset b)
  doff_eq : seg.header.doff.toNat = dataOffset b

namespace ParsedFrom

variable {b : List UInt8} (h : ParsedFrom seg b ck)
include h

theorem length_wire (x : UInt16) : (seg.wire x).length = b.length := by
  have hle := h.wellFormed.dataOffset_le
  have h5 : 5 ≤ seg.header.doff.toNat := by rw [h.doff_eq]; exact h.wellFormed.le_dataOffset
  rw [wire_eq, List.length_append, length_headerBytes h5, h.payload_eq, h.doff_eq, List.length_drop]
  omega

theorem length_take : (b.take 20).length = 20 := by
  rw [List.length_take]; exact Nat.min_eq_left h.wellFormed.length_le

theorem getElem?_eq_getD {i : ℕ} (hi : i < 20) : b[i]? = some (b.getD i 0) := by
  have := h.wellFormed.length_le
  rw [List.getD_eq_getElem?_getD, List.getElem?_eq_getElem (by omega), Option.getD_some]

theorem beforeCksum_eq : seg.header.beforeCksum =
    b.take 12 ++ [b.getD 12 0 &&& 0xf0, b.getD 13 0 &&& 0x3f] ++ (b.drop 14).take 2 := by
  have hget (i : ℕ) (hi : i < 20) : (b.take 20).getD i 0 = b.getD i 0 := by
    rw [List.getD_eq_getElem?_getD, List.getD_eq_getElem?_getD, List.getElem?_take_of_lt hi]
  rw [h.header_eq, TCPHeader.beforeCksum_ofBytes h.length_take, hget 12 (by decide), hget 13 (by decide),
    List.take_take, List.drop_take, List.take_take]
  rfl

theorem bytes_cksum : bytes 2 seg.header.cksum.toNat = (b.drop 16).take 2 := by
  rw [h.header_eq, TCPHeader.cksum_ofBytes h.length_take, List.drop_take, List.take_take]
  rfl

theorem afterCksum_eq : seg.afterCksum =
    (b.drop 18).take 2 ++ (List.replicate (4 * dataOffset b - 20) 0 ++ b.drop (4 * dataOffset b)) := by
  rw [afterCksum, h.payload_eq, h.doff_eq, h.header_eq, TCPHeader.uptr_ofBytes h.length_take, List.drop_take,
    List.take_take]
  rfl

theorem getElem?_beforeCksum {i : ℕ} (hi : i < 16) :
    seg.header.beforeCksum[i]? = b[i]?.map (clearedByte (dataOffset b) i) := by
  have hlen := h.wellFormed.length_le
  have h12 : (b.take 12).length = 12 := by simp; omega
  rw [h.beforeCksum_eq]
  rcases (by omega : i < 12 ∨ i = 12 ∨ i = 13 ∨ 14 ≤ i) with hi' | rfl | rfl | hi'
  · rw [List.append_assoc, List.getElem?_append_left (by omega), List.getElem?_take_of_lt hi',
      clearedByte_of_ne (by omega) (by omega) (by omega), Option.map_id, id]
  · rw [List.append_assoc, List.getElem?_append_right (by omega), h12, h.getElem?_eq_getD (by decide)]
    rfl
  · rw [List.append_assoc, List.getElem?_append_right (by omega), h12, h.getElem?_eq_getD (by decide)]
    rfl
  · have h14 : (b.take 12 ++ [b.getD 12 0 &&& 0xf0, b.getD 13 0 &&& 0x3f]).length = 14 := by simp; omega
    rw [List.getElem?_append_right (by omega), h14, List.getElem?_take_of_lt (by omega), List.getElem?_drop,
      clearedByte_of_ne (by omega) (by omega) (by omega), Option.map_id, id]
    congr 1; omega

theorem getElem?_afterCksum (i : ℕ) :
    seg.afterCksum[i]? = b[18 + i]?.map (clearedByte (dataOffset b) (18 + i)) := by
  have hlen := h.wellFormed.length_le
  have hdoff := h.wellFormed.le_dataOffset
  have hle := h.wellFormed.dataOffset_le
  have huptr : ((b.drop 18).take 2).length = 2 := by simp; omega
  rw [h.afterCksum_eq]
  generalize dataOffset b = d at *
  rcases (by omega : i < 2 ∨ 2 ≤ i ∧ 18 + i < 4 * d ∨ 4 * d ≤ 18 + i) with hi | hi | hi
  · rw [List.getElem?_append_left (by omega), List.getElem?_take_of_lt hi, List.getElem?_drop,
      clearedByte_of_ne (by omega) (by omega) (by omega), Option.map_id, id]
  · rw [List.getElem?_append_right (by omega), huptr, List.getElem?_append_left (by simp; omega),
      List.getElem?_replicate, if_pos (by omega), List.getElem?_eq_getElem (by omega), Option.map_some,
      clearedByte, if_neg (by omega), if_neg (by omega), if_pos (by omega)]
  · rw [List.getElem?_append_right (by omega), huptr, List.getElem?_append_right (by simp; omega),
      List.length_replicate, List.getElem?_drop, clearedByte_of_ne (by omega) (by omega) (by omega),
      Option.map_id, id]
    congr 1; omega

theorem getElem?_wire (x : UInt16) {i : ℕ} (h16 : i ≠ 16) (h17 : i ≠ 17) :
    (seg.wire x)[i]? = b[i]?.map (clearedByte (dataOffset b) i) := by
  have hpre := seg.header.length_beforeCksum
  have hboth : (seg.header.beforeCksum ++ bytes 2 x.toNat).length = 18 := by simp [hpre]
  by_cases hi : i < 16
  · rw [wire, List.append_assoc, List.getElem?_append_left (by omega), h.getElem?_beforeCksum hi]
  · rw [wire, List.getElem?_append_right (by omega), hboth, h.getElem?_afterCksum]
    congr <;> omega

theorem wire_cksum (hc : Cleared b) : seg.wire seg.header.cksum = b := by
  refine List.ext_getElem? fun i => ?_
  by_cases hi : i = 16 ∨ i = 17
  · obtain ⟨j, hj, rfl⟩ : ∃ j < 2, i = 16 + j := ⟨i - 16, by omega, by omega⟩
    rw [getElem?_wire_cksum seg _ hj, h.bytes_cksum, List.getElem?_take_of_lt hj, List.getElem?_drop]
  · rw [h.getElem?_wire _ (by omega) (by omega)]
    cases hx : b[i]? with
    | none => rfl
    | some x => rw [Option.map_some, hc.clearedByte_eq hx]

end ParsedFrom

theorem parsedFrom_of_parse {target : TCPSegment} {b : Buffer} (hp : target.parse b ck = .ok (.noError, seg))
    (hd : 5 ≤ seg.header.doff.toNat) : ParsedFrom seg b.str ck := by
  rcases parse_cases target b ck with ⟨b', hp', hcase⟩ | ⟨r, seg', hp', hr, -⟩
  · obtain rfl : seg = ⟨TCPHeader.ofBytes (b.str.take 20), b'⟩ := by
      simpa using hp.symm.trans hp'
    rcases hcase with ⟨hwf, hb'⟩ | ⟨-, hlen, hlt⟩
    · exact ⟨hwf, rfl, hb', toNat_doff_ofBytes hwf.length_le⟩
    · rw [toNat_doff_ofBytes hlen] at hd
      omega
  · obtain ⟨rfl, -⟩ : .noError = r ∧ seg = seg' := by
      simpa using hp.symm.trans hp'
    exact absurd rfl hr

/-- A parsed segment is written back as it was, but for the reserved bits and the options, which are
cleared, and the checksum; without such bits the checksum is that of the original too, except that
`0xffff` may become `0x0000`. -/
theorem serialize_parse (target seg : TCPSegment) (b : Buffer) (ck : UInt32)
    (hp : target.parse b ck = .ok (.noError, seg)) (hd : 5 ≤ seg.header.doff.toNat) :
    ∃ out, seg.serialize ck = .ok out ∧ out.concatenate.length = b.str.length ∧
      (∀ i, i ≠ 16 → i ≠ 17 →
        out.concatenate[i]? = b.str[i]?.map (clearedByte seg.header.doff.toNat i)) ∧
      (Cleared b.str →
        out.concatenate[16]? = b.str[16]? ∧ out.concatenate[17]? = b.str[17]? ∨
        b.str[16]? = some 0xff ∧ b.str[17]? = some 0xff ∧
          out.concatenate[16]? = some 0 ∧ out.concatenate[17]? = some 0) := by
  have h := parsedFrom_of_parse hp hd
  obtain ⟨out, hout, hcat⟩ := serialize_eq seg ck hd
  refine ⟨out, hout, ?_, ?_, ?_⟩
  · rw [hcat, h.length_wire]
  · intro i h16 h17
    rw [hcat, h.doff_eq, h.getElem?_wire _ h16 h17]
  · intro hc
    have hb := h.wire_cksum hc
    have hvalid : checksum (seg.wire seg.header.cksum) ck = 0 := by rw [hb]; exact h.wellFormed.checksum_eq
    rw [hcat]
    rcases InternetChecksum.value_eq_or_of_insert_eq_zero (bodd_length_beforeCksum _) ck hvalid with
      hck | ⟨hff, hck⟩
    · have hsame : seg.cksumOut ck = seg.header.cksum := hck
      exact Or.inl (by rw [hsame, hb]; exact ⟨rfl, rfl⟩)
    · have hzero : seg.cksumOut ck = 0 := hck
      rw [hzero, ← hb, hff]
      exact Or.inr ⟨getElem?_wire_cksum seg _ (j := 0) (by decide),
        getElem?_wire_cksum seg _ (j := 1) (by decide),
        getElem?_wire_cksum seg _ (j := 0) (by decide),
        getElem?_wire_cksum seg _ (j := 1) (by decide)⟩

theorem serialize_parse_other_zero :
    ∃ out, serialize ⟨{ TCPHeader.init with sport := 0xafff, cksum := 0xffff },
        ⟨none, 20, by simp⟩⟩ 0 = .ok out ∧
      out.concatenate.length = 20 ∧ out.concatenate[0]? = some 0xaf ∧ out.concatenate[12]? = some 0x50 :=
  (serialize_parse init ⟨{ TCPHeader.init with sport := 0xafff, cksum := 0xffff }, ⟨none, 20, by simp⟩⟩
    (.ofString [0xaf, 0xff, 0, 0, 0, 0, 0, 0, 0, 0, 0, 0, 0x50, 0, 0, 0, 0xff, 0xff, 0, 0]) 0
    (by decide +kernel) (by decide)).imp fun _ h =>
      ⟨h.1, h.2.1, h.2.2.1 0 (by decide) (by decide), h.2.2.1 12 (by decide) (by decide)⟩

end TCPSegment
end Sponge

import Sponge.Lib.BitWindow
import Sponge.TCPDataOffset

/-!
# What the checksum notices

A checksum of 16-bit words notices every burst of at most sixteen wrong bits, wherever it begins, but for
one that turns sixteen zeros into ones or back. The two words that the burst touches change the sum by the
difference of two numbers of sixteen bits, and the 32-bit sum of a segment that is accepted lies so that it
cannot wrap to another multiple of `65535`.

The sum starts from the one of the pseudo-header, so a segment that comes with another pseudo-header than it was
made for is accepted only if the two sums are congruent modulo `65535`. This is while the sum of all words does not
wrap at `2^32`, which is `1` modulo `65535`.
-/

namespace Sponge

open OnesComplement

/-- The strings differ, and only in sixteen consecutive bits from `p` on. -/
structure Burst (p : ℕ) (b b' : List UInt8) : Prop where
  length_eq : b.length = b'.length
  ne : b ≠ b'
  outside : ∀ j, ¬ (p ≤ j ∧ j < p + 16) → bit b j = bit b' j

/-- The burst turns sixteen zeros into ones and the sum has room for it, or sixteen ones into zeros and the
sum stays positive: `sum` is the 32-bit sum before. -/
def Unnoticed (p : ℕ) (b b' : List UInt8) (sum : UInt32) : Prop :=
  (∀ j, p ≤ j → j < p + 16 → bit b j = false ∧ bit b' j = true) ∧ sum.toNat + 65535 < 2 ^ 32 ∨
    (∀ j, p ≤ j → j < p + 16 → bit b j = true ∧ bit b' j = false) ∧ 65535 < sum.toNat

theorem unnoticed_iff {p : ℕ} {b b' : List UInt8} {sum : UInt32} : Unnoticed p b b' sum ↔
    (window b p = 0 ∧ window b' p = 65535) ∧ sum.toNat + 65535 < 2 ^ 32 ∨
      (window b p = 65535 ∧ window b' p = 0) ∧ 65535 < sum.toNat := by
  simp only [Unnoticed, window_eq_zero_iff, window_eq_ones_iff, forall_and]

namespace InternetChecksum
variable {p : ℕ} {b b' : List UInt8} {ck : UInt32}

theorem value_eq_zero_iff_dvd (c : InternetChecksum) : c.value = 0 ↔ 0 < c.sum.toNat ∧ 65535 ∣ c.sum.toNat := by
  rw [value_eq_zero_iff, residue_eq_modulus_iff (by decide)]

theorem value_burst_iff (h : Burst p b b') (hb : ((init ck).add b).value = 0) :
    ((init ck).add b').value = 0 ↔ Unnoticed p b b' ((init ck).add b).sum := by
  have hsum := sum_words_window h.outside h.length_eq
  have hne : window b p ≠ window b' p := fun heq => h.ne (eq_of_window_eq h.outside h.length_eq heq)
  have hle := window_le b p
  have hle' := window_le b' p
  rw [unnoticed_iff, value_eq_zero_iff_dvd]
  rw [value_eq_zero_iff_dvd] at hb
  rw [toNat_sum_add_words] at hb ⊢
  rw [toNat_sum_add_words]
  obtain ⟨hpos, q, hq⟩ := hb
  have hdiv := Nat.div_add_mod (ck.toNat + (words b).sum) (2 ^ 32)
  have hdiv' := Nat.div_add_mod (ck.toNat + (words b').sum) (2 ^ 32)
  have hlt := Nat.mod_lt (ck.toNat + (words b).sum) (show 0 < 2 ^ 32 by decide)
  have hlt' := Nat.mod_lt (ck.toNat + (words b').sum) (show 0 < 2 ^ 32 by decide)
  generalize (ck.toNat + (words b).sum) / 2 ^ 32 = d at hdiv
  generalize (ck.toNat + (words b').sum) / 2 ^ 32 = d' at hdiv'
  generalize (ck.toNat + (words b).sum) % 2 ^ 32 = s at *
  generalize (ck.toNat + (words b').sum) % 2 ^ 32 = s' at *
  -- how often the two sums have wrapped: if not equally often, one of them is left below `65535`
  rcases (show d = d' ∨ d = d' + 1 ∨ d' = d + 1 by omega) with rfl | rfl | rfl
  · omega
  · omega
  · omega

end InternetChecksum

namespace TCPSegment

theorem parse_ne_badChecksum (seg : TCPSegment) {b : Buffer} {ck : UInt32} (hck : checksum b.str ck = 0) :
    (seg.parse b ck).map Prod.fst ≠ .ok .badChecksum := by
  by_cases hshort : b.str.length < 20 ∨ 5 ≤ dataOffset b.str ∧ b.str.length < 4 * dataOffset b.str
  · obtain ⟨seg', hp⟩ := parse_packetTooShort seg hck hshort
    rw [hp]
    intro h
    cases h
  by_cases hd : dataOffset b.str < 5
  · obtain ⟨b', hp, -⟩ := parse_dataOffset_lt seg hck (by omega) hd
    rw [hp]
    intro h
    cases h
  · obtain ⟨b', hp, -⟩ := parse_wellFormed seg ⟨hck, by omega, by omega, by omega⟩
    rw [hp]
    intro h
    cases h

/-- A burst of at most sixteen wrong bits in a segment that was accepted, wherever it begins, is noticed
unless it exchanges sixteen zeros and sixteen ones within the range of the sum; when it is noticed the
segment is left as it was. -/
theorem parse_burst_iff {p : ℕ} {b b' : Buffer} {ck : UInt32} (seg : TCPSegment)
    (hok : (seg.parse b ck).map Prod.fst ≠ .ok .badChecksum) (hburst : Burst p b.str b'.str)
    (seg' : TCPSegment) :
    seg'.parse b' ck = .ok (.badChecksum, seg') ↔
      ¬ Unnoticed p b.str b'.str ((InternetChecksum.init ck).add b.str).sum := by
  have hck : checksum b.str ck = 0 := checksum_of_parse_ne hok
  have hiff : checksum b'.str ck = 0 ↔ Unnoticed p b.str b'.str ((InternetChecksum.init ck).add b.str).sum :=
    InternetChecksum.value_burst_iff hburst hck
  rw [← hiff]
  constructor
  · intro hbad hck'
    refine parse_ne_badChecksum seg' hck' ?_
    rw [hbad]
    rfl
  · exact parse_badChecksum

/-- A header without options, with these bytes at the end of its checksum and after it. -/
def boundaryBytes (x y : UInt8) : List UInt8 := List.replicate 12 0 ++ [0x50, 0, 0, 0, 0xaf, x, y, 0]

/-- A segment that is accepted, and two wrong bits in it on either side of a word boundary. -/
theorem parse_burst_iff_across_words :
    (init.parse (.ofString (boundaryBytes 0xff 0)) 0).map Prod.fst = .ok .noError ∧
    init.parse (.ofString (boundaryBytes 0xfe 0x80)) 0 = .ok (.badChecksum, init) := by
  have hburst : Burst 143 (boundaryBytes 0xff 0) (boundaryBytes 0xfe 0x80) := by
    have hbits : ∀ j < 160, ¬ (143 ≤ j ∧ j < 159) →
        bit (boundaryBytes 0xff 0) j = bit (boundaryBytes 0xfe 0x80) j := by decide +kernel
    refine ⟨rfl, by decide, fun j hj => ?_⟩
    by_cases hlt : j < 160
    · exact hbits j hlt hj
    · rw [bit, bit, List.getD_eq_default _ _ (by simp [boundaryBytes]; omega),
        List.getD_eq_default _ _ (by simp [boundaryBytes]; omega)]
  have hok : (init.parse (.ofString (boundaryBytes 0xff 0)) 0).map Prod.fst = .ok .noError := by decide +kernel
  refine ⟨hok, (parse_burst_iff (b := .ofString (boundaryBytes 0xff 0)) init (by simp [hok]) hburst init).2 ?_⟩
  rintro (⟨h, -⟩ | ⟨h, -⟩)
  · exact absurd (h 143 (by decide) (by decide)).1 (by decide)
  · exact absurd (h 144 (by decide) (by decide)).1 (by decide)

/-! ### Another pseudo-header -/

/-- While the sum does not wrap. -/
theorem checksum_eq_zero_iff {b : List UInt8} {ck : UInt32} (h : ck.toNat + (words b).sum < 2 ^ 32) :
    checksum b ck = 0 ↔ 0 < ck.toNat + (words b).sum ∧ 65535 ∣ ck.toNat + (words b).sum := by
  rw [checksum, InternetChecksum.value_eq_zero_iff_dvd, InternetChecksum.toNat_sum_add_words, Nat.mod_eq_of_lt h]

theorem ofBytes_wire {seg : TCPSegment} (x : UInt16) (h15 : seg.header.doff.toNat ≤ 15) :
    TCPHeader.ofBytes ((seg.wire x).take 20) = seg.header.withCksum x := by
  have htake : (seg.wire x).take 20 = (seg.header.withCksum x).fixedBytes := by
    rw [wire_eq, headerBytes, List.append_assoc]
    exact List.take_left' (TCPHeader.length_fixedBytes _)
  rw [htake]
  exact TCPHeader.ofBytes_fixedBytes (Nat.lt_succ_of_le h15)

section
variable {seg : TCPSegment} (h5 : 5 ≤ seg.header.doff.toNat) (x : UInt16)
include h5

theorem length_wire : (seg.wire x).length = 4 * seg.header.doff.toNat + seg.payload.str.length := by
  rw [wire_eq, List.length_append, length_headerBytes h5]

theorem drop_wire : (seg.wire x).drop (4 * seg.header.doff.toNat) = seg.payload.str := by
  rw [wire_eq]
  exact List.drop_left' (length_headerBytes h5 x)

theorem sum_words_wire_pos (h15 : seg.header.doff.toNat ≤ 15) : 0 < (words (seg.wire x)).sum := by
  have hlen := length_wire h5 x
  have hdoff := dataOffset_wire seg x
  have hget : (seg.wire x).getD 12 0 = (seg.wire x)[12] := by
    rw [List.getD_eq_getElem?_getD, List.getElem?_eq_getElem (by omega), Option.getD_some]
  refine sum_words_pos (List.getElem_mem (n := 12) (by omega)) fun hzero => ?_
  rw [dataOffset, hget, hzero] at hdoff
  have hnone : 0 = seg.header.doff.toNat % 16 := hdoff
  omega

end

/-- A segment of the size of a datagram that comes with another pseudo-header than it was made for: if the two
sums are congruent it is taken for what it is, and otherwise it is refused. -/
theorem parse_misdelivered (seg target : TCPSegment) (ck ck' : UInt32) (h5 : 5 ≤ seg.header.doff.toNat)
    (h15 : seg.header.doff.toNat ≤ 15) (hlen : 4 * seg.header.doff.toNat + seg.payload.str.length ≤ 65535)
    (hck : ck.toNat < 2 ^ 31) (hck' : ck'.toNat < 2 ^ 31) :
    ∃ out, seg.serialize ck = .ok out ∧
      if ck.toNat % 65535 = ck'.toNat % 65535 then
        ∃ seg', target.parse (.ofString out.concatenate) ck' = .ok (.noError, seg') ∧
          seg'.header.withCksum seg.header.cksum = seg.header ∧ seg'.payload.str = seg.payload.str
      else target.parse (.ofString out.concatenate) ck' = .ok (.badChecksum, target) := by
  obtain ⟨out, hout, hcat⟩ := serialize_eq seg ck h5
  have hvalid := checksum_wire_cksumOut seg ck
  refine ⟨out, hout, ?_⟩
  rw [hcat]
  generalize seg.cksumOut ck = v at hvalid
  have hwire := length_wire h5 v
  have hpos := sum_words_wire_pos h5 v h15
  have hle := sum_words_le (seg.wire v)
  rw [checksum_eq_zero_iff (by omega)] at hvalid
  have hiff : checksum (seg.wire v) ck' = 0 ↔ ck.toNat % 65535 = ck'.toNat % 65535 := by
    rw [checksum_eq_zero_iff (by omega)]
    omega
  split
  · rename_i hcongr
    have hdoff : dataOffset (seg.wire v) = seg.header.doff.toNat := by
      rw [dataOffset_wire, Nat.mod_eq_of_lt (by omega)]
    have hwf : WellFormed (Buffer.ofString (seg.wire v)).str ck' := by
      rw [Buffer.str_ofString]
      exact ⟨hiff.2 hcongr, by omega, by omega, by omega⟩
    obtain ⟨b', hp, hb'⟩ := parse_wellFormed target hwf
    refine ⟨_, hp, ?_, ?_⟩
    · simp only [Buffer.str_ofString, ofBytes_wire v h15]
      rfl
    · show b'.str = _
      rw [hb', Buffer.str_ofString, hdoff, drop_wire h5]
  · rename_i hcongr
    exact parse_badChecksum (by rw [Buffer.str_ofString, Ne, hiff]; exact hcongr)

theorem parse_misdelivered_congruent :
    ∃ out seg', serialize ⟨{ TCPHeader.init with syn := true }, .ofString [1, 2, 3]⟩ 7 = .ok out ∧
      init.parse (.ofString out.concatenate) 65542 = .ok (.noError, seg') ∧
      seg'.header.withCksum 0 = { TCPHeader.init with syn := true } ∧
      seg'.payload.str = (Buffer.ofString [1, 2, 3]).str := by
  obtain ⟨out, hout, h⟩ := parse_misdelivered ⟨{ TCPHeader.init with syn := true }, .ofString [1, 2, 3]⟩ init 7 65542
    (by decide) (by decide) (by decide) (by decide) (by decide)
  rw [if_pos (by decide)] at h
  obtain ⟨seg', hseg'⟩ := h
  exact ⟨out, seg', hout, hseg'⟩

end TCPSegment
end Sponge

import Sponge.TCPHeader
import Sponge.InternetChecksum

/-!
# TCP segments (`libsponge/tcp_helpers/tcp_segment.cc`)

`parse` reports only the parser's own error: what the header's `parse` returns is dropped, and with it
the one error that is not left in the parser, a data offset below the minimum
(`TCPHeader.parse_headerTooShort`). Everything else about the format is checked (`parse_exact_iff`).
-/

namespace Sponge

structure TCPSegment where
  header : TCPHeader
  payload : Buffer
deriving DecidableEq

namespace TCPSegment

def init : TCPSegment := ⟨.init, .empty⟩

variable (seg : TCPSegment)

/-- Fill the segment from a buffer; with a bad checksum it stays as it is. -/
def parse (buffer : Buffer) (datagramLayerChecksum : UInt32) :
    Except Exception (ParseResult × TCPSegment) := do
  let check := (InternetChecksum.init datagramLayerChecksum).add buffer.str
  if check.value != 0 then return (.badChecksum, seg)
  let ((_, header), p) ← TCPHeader.parse (.init buffer)
  return (p.error, ⟨header, p.buffer⟩)

def serialize (datagramLayerChecksum : UInt32) : Except Exception BufferList := do
  let headerOut := seg.header.withCksum 0
  -- the checksum is taken over the entire segment
  let check := InternetChecksum.init datagramLayerChecksum
  let check := check.add (← headerOut.serialize)
  let check := check.add seg.payload.str
  let headerOut := headerOut.withCksum check.value
  let ret := BufferList.empty
  let ret := ret.append (.ofString (← headerOut.serialize))
  let ret := ret.append (.ofBuffer seg.payload)
  return ret

/-! ### What is accepted -/

/-- The high nibble of byte 12. -/
def dataOffset (b : List UInt8) : ℕ := (b.getD 12 0 >>> 4).toNat

def checksum (b : List UInt8) (ck : UInt32) : UInt16 := ((InternetChecksum.init ck).add b).value

structure WellFormed (b : List UInt8) (ck : UInt32) : Prop where
  checksum_eq : checksum b ck = 0
  length_le : 20 ≤ b.length
  le_dataOffset : 5 ≤ dataOffset b
  dataOffset_le : 4 * dataOffset b ≤ b.length

section Accept

variable {seg} {b : Buffer} {ck : UInt32}

theorem toNat_doff_ofBytes (hlen : 20 ≤ b.str.length) :
    (TCPHeader.ofBytes (b.str.take 20)).doff.toNat = dataOffset b.str := by
  rw [TCPHeader.doff_ofBytes (by simp [hlen]), dataOffset, List.getD_eq_getElem?_getD,
    List.getD_eq_getElem?_getD, List.getElem?_take_of_lt (by decide)]

theorem parse_apply {r : ParseResult} {h : TCPHeader} {p : NetParser} (hck : checksum b.str ck = 0)
    (hp : TCPHeader.parse (.init b) = .ok ((r, h), p)) : seg.parse b ck = .ok (p.error, ⟨h, p.buffer⟩) := by
  have hck' : ¬ ((InternetChecksum.init ck).add b.str).value != 0 := by
    simpa [checksum] using hck
  rw [parse, if_neg hck', hp]
  rfl

theorem parse_badChecksum (hck : checksum b.str ck ≠ 0) : seg.parse b ck = .ok (.badChecksum, seg) := by
  have hck' : ((InternetChecksum.init ck).add b.str).value != 0 := by
    simpa [checksum] using hck
  rw [parse, if_pos hck']
  rfl

theorem doff_lt_iff (hlen : 20 ≤ b.str.length) :
    (TCPHeader.ofBytes (b.str.take 20)).doff < 5 ↔ dataOffset b.str < 5 := by
  rw [← toNat_doff_ofBytes hlen]; exact UInt8.lt_iff_toNat_lt

theorem parse_wellFormed (seg : TCPSegment) (h : WellFormed b.str ck) :
    ∃ b', seg.parse b ck = .ok (.noError, ⟨TCPHeader.ofBytes (b.str.take 20), b'⟩) ∧
      b'.str = b.str.drop (4 * dataOffset b.str) := by
  have hdoff := toNat_doff_ofBytes h.length_le
  obtain ⟨b', hp, hb'⟩ := TCPHeader.parse_fits h.length_le
    (fun hlt => Nat.not_lt.2 h.le_dataOffset ((doff_lt_iff h.length_le).1 hlt))
    (by rw [hdoff]; exact h.dataOffset_le)
  rw [hdoff] at hb'
  exact ⟨b', parse_apply h.checksum_eq hp, hb'⟩

/-- The segment parser takes a header that is too short for its own fields. -/
theorem parse_dataOffset_lt (seg : TCPSegment) (hck : checksum b.str ck = 0) (hlen : 20 ≤ b.str.length)
    (hd : dataOffset b.str < 5) :
    ∃ b', seg.parse b ck = .ok (.noError, ⟨TCPHeader.ofBytes (b.str.take 20), b'⟩) ∧
      b'.str = b.str.drop 20 := by
  obtain ⟨b', hp, hb'⟩ := TCPHeader.parse_headerTooShort hlen ((doff_lt_iff hlen).2 hd)
  exact ⟨b', parse_apply hck hp, hb'⟩

theorem parse_packetTooShort (seg : TCPSegment) (hck : checksum b.str ck = 0)
    (hlen : b.str.length < 20 ∨ 5 ≤ dataOffset b.str ∧ b.str.length < 4 * dataOffset b.str) :
    ∃ seg', seg.parse b ck = .ok (.packetTooShort, seg') := by
  obtain ⟨r, b', hp⟩ : ∃ r b', TCPHeader.parse (.init b) = .ok (r, ⟨b', .packetTooShort⟩) := by
    by_cases hb : b.str.length < 20
    · exact TCPHeader.parse_short (Or.inl hb)
    · obtain ⟨hd, hlt⟩ := hlen.resolve_left hb
      have h20 := Nat.not_lt.1 hb
      refine TCPHeader.parse_short (Or.inr ⟨fun h => Nat.not_lt.2 hd ((doff_lt_iff h20).1 h), ?_⟩)
      rwa [toNat_doff_ofBytes h20]
  exact ⟨_, parse_apply hck hp⟩

theorem parse_cases (seg : TCPSegment) (b : Buffer) (ck : UInt32) :
    (∃ b', seg.parse b ck = .ok (.noError, ⟨TCPHeader.ofBytes (b.str.take 20), b'⟩) ∧
      (WellFormed b.str ck ∧ b'.str = b.str.drop (4 * dataOffset b.str) ∨
        checksum b.str ck = 0 ∧ 20 ≤ b.str.length ∧ dataOffset b.str < 5)) ∨
    (∃ r seg', seg.parse b ck = .ok (r, seg') ∧ r ≠ .noError ∧ ¬ WellFormed b.str ck ∧
      ¬ (checksum b.str ck = 0 ∧ 20 ≤ b.str.length ∧ dataOffset b.str < 5)) := by
  by_cases hck : checksum b.str ck = 0
  · by_cases hslip : 20 ≤ b.str.length ∧ dataOffset b.str < 5
    · obtain ⟨b', hp, -⟩ := parse_dataOffset_lt seg hck hslip.1 hslip.2
      exact Or.inl ⟨b', hp, Or.inr ⟨hck, hslip⟩⟩
    · by_cases hwf : WellFormed b.str ck
      · obtain ⟨b', hp, hb'⟩ := parse_wellFormed seg hwf
        exact Or.inl ⟨b', hp, Or.inl ⟨hwf, hb'⟩⟩
      · have hlen : b.str.length < 20 ∨ 5 ≤ dataOffset b.str ∧ b.str.length < 4 * dataOffset b.str := by
          by_contra hcon
          exact hwf ⟨hck, by omega, by omega, by omega⟩
        obtain ⟨seg', hp⟩ := parse_packetTooShort seg hck hlen
        exact Or.inr ⟨_, seg', hp, by decide, hwf, fun h => hslip h.2⟩
  · exact Or.inr ⟨_, seg, parse_badChecksum hck, by decide, fun h => hck h.checksum_eq, fun h => hck h.1⟩

/-- `parse` accepts exactly the format, and hands out what follows the header, unless the checksum is
right and the data offset points into the fixed part of the header. -/
theorem parse_exact_iff (seg : TCPSegment) (b : Buffer) (ck : UInt32) :
    (∃ r seg', seg.parse b ck = .ok (r, seg') ∧ (r = .noError ↔ WellFormed b.str ck) ∧
      (r = .noError → seg'.payload.str = b.str.drop (4 * dataOffset b.str))) ↔
    ¬ (checksum b.str ck = 0 ∧ 20 ≤ b.str.length ∧ dataOffset b.str < 5) := by
  rcases parse_cases seg b ck with ⟨b', hp, hcase⟩ | ⟨r, seg', hp, hr, hwf, hslip⟩
  · rcases hcase with ⟨hwf, hb'⟩ | hslip
    · have := hwf.le_dataOffset
      exact ⟨fun _ h => by omega, fun _ => ⟨_, _, hp, ⟨fun _ => hwf, fun _ => rfl⟩, fun _ => hb'⟩⟩
    · refine ⟨?_, fun h => absurd hslip h⟩
      rintro ⟨r, seg', hp', hiff, -⟩ -
      obtain ⟨rfl, -⟩ : .noError = r ∧ _ = seg' := by
        simpa using hp.symm.trans hp'
      exact absurd (hiff.1 rfl).le_dataOffset (Nat.not_le.2 hslip.2.2)
  · exact ⟨fun _ => hslip, fun _ => ⟨r, seg', hp, ⟨fun h => absurd h hr, fun h => absurd h hwf⟩,
      fun h => absurd h hr⟩⟩

theorem checksum_of_parse_ne (h : (seg.parse b ck).map Prod.fst ≠ .ok .badChecksum) :
    checksum b.str ck = 0 := by
  by_contra hck
  exact h (by rw [parse_badChecksum hck]; rfl)

end Accept

/-- A change inside one aligned 16-bit word, other than between the two zeros, is always noticed, also
where the 32-bit sum wraps, and nothing of the segment is overwritten. -/
theorem parse_detects_word_change {b b' : Buffer} {ck : UInt32} {i : ℕ}
    (hok : (seg.parse b ck).map Prod.fst ≠ .ok .badChecksum) (hlen : b'.str.length = b.str.length)
    (hne : b'.str ≠ b.str) (hword : ∀ j, j / 2 ≠ i → b'.str[j]? = b.str[j]?)
    (hzero : ¬ ((OnesComplement.words b.str).getD i 0 = 0 ∧ (OnesComplement.words b'.str).getD i 0 = 0xffff))
    (hzero' : ¬ ((OnesComplement.words b.str).getD i 0 = 0xffff ∧
      (OnesComplement.words b'.str).getD i 0 = 0)) (seg' : TCPSegment) :
    seg'.parse b' ck = .ok (.badChecksum, seg') := by
  have hck : ((InternetChecksum.init ck).add b.str).value = 0 := checksum_of_parse_ne hok
  exact parse_badChecksum (InternetChecksum.value_ne_zero_of_word_changed hck hlen hne hword hzero hzero')

theorem parse_detects_word_change_wrapping :
    (init.parse (.ofString [0xff, 0xff, 0x12]) 0xfffeee00).map Prod.fst = .ok .packetTooShort ∧
    init.parse (.ofString [0xff, 0xff, 0x13]) 0xfffeee00 = .ok (.badChecksum, init) := by
  have hword : ∀ j, j / 2 ≠ 1 → ([0xff, 0xff, 0x13] : List UInt8)[j]? = [0xff, 0xff, 0x12][j]?
    | 0, _ => rfl
    | 1, _ => rfl
    | 2, h => absurd rfl h
    | _ + 3, _ => rfl
  refine ⟨by decide +kernel, ?_⟩
  apply parse_detects_word_change init (b := .ofString [0xff, 0xff, 0x12]) (i := 1)
  · decide +kernel
  · rfl
  · decide
  · exact hword
  · decide
  · decide

theorem parse_accepts_dataOffset_four :
    (init.parse (.ofString
      [0, 0, 0, 0, 0, 0, 0, 0, 0, 0, 0, 0, 0x40, 0, 0, 0, 0xbf, 0xff, 0, 0]) 0).map Prod.fst = .ok .noError ∧
    ¬ WellFormed [0, 0, 0, 0, 0, 0, 0, 0, 0, 0, 0, 0, 0x40, 0, 0, 0, 0xbf, 0xff, 0, 0] 0 :=
  ⟨by decide +kernel, fun h => absurd h.le_dataOffset (by decide)⟩

end TCPSegment
end Sponge

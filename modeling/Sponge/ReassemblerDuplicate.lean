import Sponge.ReassemblerEof

/-!
# Pushing a segment a second time

A segment that fitted the window when it was pushed has been received as a whole, and `received` only
grows. So at any later moment each of its bytes is written or a key of the map, whatever has been read
in the meantime: a second push of it finds nothing to store, nothing new to drain, and the EOF fields
as it would set them (`Sound.push_of_received`).
-/

namespace Sponge.StreamReassembler

variable {D popped data : List UInt8} {index : UInt64} {eof : Bool} {s : StreamReassembler}

theorem storeRange_of_mem {stop i : UInt64} {m : Unassembled} (h : ∀ k, i ≤ k → k < stop → k ∈ m) :
    storeRange data index stop i m = m := by
  refine Finmap.ext_lookup fun k => ?_
  rw [lookup_storeRange, if_neg]
  rintro ⟨hk, hle, hlt⟩
  exact hk (h k hle hlt)

theorem Sound.recordEof_of_flag (h : Sound D popped s) (hsub : (Op.pushSubstring data index eof).SubstringOf D)
    (hflag : eof = true → s.eofFlag = true) : s.recordEof data index eof = s := by
  cases eof with
  | false => rfl
  | true =>
    have hidx : segmentEnd data index = s.eofIndex := by
      rw [h.eof (hflag rfl), ← hsub.2.2 rfl, segmentEnd, UInt64.ofNat_add, UInt64.ofNat_toNat]
    rw [recordEof, if_pos rfl, hidx, ← hflag rfl]

theorem Inv.assemble_of_head (h : Inv s) : s.assemble = s := by
  rw [assemble, drain_of_none [] (Finmap.lookup_eq_none.2 h.head)]
  rfl

theorem Sound.checkEof_eq (h : Sound D popped s) : s.checkEof = s := by
  unfold checkEof
  split
  · have hended : s.output.inputEnded = true := h.ended.trans ‹_›
    rw [ByteStream.endInput, ← hended]
  · rfl

/-- A push whose bytes are all written or stored, and whose EOF is recorded, changes nothing. -/
theorem Sound.push_of_received (h : Sound D popped s)
    (hsub : (Op.pushSubstring data index eof).SubstringOf D)
    (hbytes : ∀ i, (Op.pushSubstring data index eof).Covers i →
      i ∈ Set.Iio s.output.bytesWritten.toNat ∪ s.keyIndices)
    (hflag : eof = true → ¬ s.Discards data index → s.eofFlag = true) :
    s.pushSubstring data index eof = s := by
  by_cases hacc : s.Discards data index
  · exact if_pos hacc
  have hstore : s.store data index = s := by
    rw [store, storeRange_of_mem]
    intro k hle hlt
    rw [UInt64.le_iff_toNat_le, Words.toNat_max] at hle
    rw [UInt64.lt_iff_toNat_lt, Words.toNat_min] at hlt
    have hend := toNat_segmentEnd_le data index
    rcases hbytes k.toNat ⟨by omega, by omega⟩ with hwritten | ⟨k', hk', heq⟩
    · exact absurd hwritten (by rw [Set.mem_Iio]; omega)
    · rwa [← UInt64.toNat_inj.1 heq]
  rw [pushSubstring, if_neg hacc, h.recordEof_of_flag hsub fun he => hflag he hacc, hstore,
    h.inv.assemble_of_head, h.checkEof_eq]

section
variable {c : UInt64} {before after : List Op}

theorem received_append (ops more : List Op) : received c ops ⊆ received c (ops ++ more) := by
  intro i hi
  rw [received, Set.mem_ofPred_eq] at hi ⊢
  exact hi.append more

/-- A segment that does not reach beyond the window is received as a whole. -/
theorem received_of_covers {ops : List Op} {op : Op} {n i : ℕ} (hop : ∀ i, op.Covers i → i < n)
    (hwin : n ≤ ((machine c).run ops).output.bytesRead.toNat + c.toNat) (hi : op.Covers i) :
    i ∈ received c (ops ++ [op]) := by
  rw [received_concat]
  exact .inr ⟨hi, Nat.lt_of_lt_of_le (hop i hi) hwin⟩

theorem eofFlag_append {ops : List Op} (h : ((machine c).run ops).eofFlag = true) (more : List Op) :
    ((machine c).run (ops ++ more)).eofFlag = true := by
  refine ((machine c).run_stable (P := fun s => Inv s ∧ s.eofFlag = true) ?_ ⟨inv_run c ops, h⟩ more).2
  rintro s op ⟨hinv, hflag⟩
  exact ⟨hinv.step op, hinv.eofFlag_step op hflag⟩

theorem bytesWritten_append (hD : D.length + c.toNat < 2 ^ 64) {ops more : List Op}
    (hops : ∀ op ∈ ops ++ more, op.SubstringOf D) :
    ((machine c).run ops).output.bytesWritten.toNat ≤
      ((machine c).run (ops ++ more)).output.bytesWritten.toNat := by
  refine Nat.le_of_not_lt fun hlt => (splitAt_run hD hops).isLeast.1 (received_append ops more ?_)
  rw [received_run hD fun op hop => hops op (List.mem_append_left _ hop)]
  exact .inl hlt

/-- Once a segment has been pushed inside the window, pushing it again changes nothing, at any later
point of the run. -/
theorem duplicate_push_invisible (hD : D.length + c.toNat < 2 ^ 64)
    (hops : ∀ op ∈ before ++ .pushSubstring data index eof :: after, op.SubstringOf D) (hdata : data ≠ [])
    (hwin : index.toNat + data.length ≤ ((machine c).run before).output.bytesRead.toNat + c.toNat) :
    let s := (machine c).run (before ++ .pushSubstring data index eof :: after)
    s.pushSubstring data index eof = s := by
  intro s
  have hlist : before ++ .pushSubstring data index eof :: after =
      (before ++ [.pushSubstring data index eof]) ++ after := by simp
  have hsub := hops (.pushSubstring data index eof) (by simp)
  have hs : Sound D _ s := sound_run hops
  refine hs.push_of_received hsub (fun i hi => ?_) fun heof hacc => ?_
  · rw [← received_run hD hops, hlist]
    exact received_append _ _ (received_of_covers (fun i hi => hi.2) hwin hi)
  · -- the first push passed the early return too: the bytes written only grow
    have hmono : ((machine c).run before).output.bytesWritten.toNat ≤ s.output.bytesWritten.toNat :=
      bytesWritten_append hD hops
    have hacc' : ¬ ((machine c).run before).Discards data index := by
      rintro (⟨hne, hend⟩ | hmax)
      · exact hacc (.inl ⟨hne, UInt64.le_iff_toNat_le.2 (Nat.le_trans (UInt64.le_iff_toNat_le.1 hend) hmono)⟩)
      · have hlen := List.length_pos_iff.2 hdata
        have hread := (inv_run c before).written
        have hle := (sound_run (D := D) (c := c) fun op hop => hops op (List.mem_append_left _ hop)).le
        rw [ge_iff_le, UInt64.le_iff_toNat_le, toNat_maxPos, capacity_run] at hmax
        omega
    have hp := (inv_run c before).pushed eof hacc'
    have hflag : ((machine c).run (before ++ [.pushSubstring data index eof])).eofFlag = true := by
      rw [Machine.run_concat]
      exact hp.eofFlag.trans (by rw [heof, Bool.or_true])
    show ((machine c).run (before ++ .pushSubstring data index eof :: after)).eofFlag = true
    rw [hlist]
    exact eofFlag_append hflag after

end

def readBetweenOps : List Op :=
  [.pushSubstring [98, 99] 1 true, .pushSubstring [97, 98] 0 false, .reader (.read 2)]

theorem duplicate_push_invisible_readBetween :
    ((machine 3).run readBetweenOps).output.bytesRead = 2 ∧
    ((machine 3).run readBetweenOps).pushSubstring [98, 99] 1 true = (machine 3).run readBetweenOps := by
  have hops : readBetweenOps = [] ++ .pushSubstring [98, 99] 1 true ::
      [.pushSubstring [97, 98] 0 false, .reader (.read 2)] := rfl
  refine ⟨by decide +kernel, ?_⟩
  rw [hops]
  exact duplicate_push_invisible (D := [97, 98, 99]) (by decide) (by decide) (by decide) (by decide)

end Sponge.StreamReassembler

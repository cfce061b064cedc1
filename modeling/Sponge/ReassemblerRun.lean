import Sponge.ReassemblerInv

/-!
# Reassembling one byte string

Runs in which every segment is a substring of one byte string `D` and carries `eof` only if it ends
where `D` does (`Op.SubstringOf`). `Sound` is the invariant of such a run: what has left the stream
followed by what it holds is a prefix of `D`, the map holds bytes of `D` at their own indices, a
recorded EOF index is the length of `D` modulo `2^64`, and the input has ended exactly when a recorded
EOF has been reached. It needs no bound on `D` or on the capacity.
-/

namespace Sponge.StreamReassembler

/-- The call, if it is a push, pushes the substring of `D` at its index, with `eof` only at the end. -/
def Op.SubstringOf (D : List UInt8) : Op → Prop
  | .pushSubstring data index eof =>
    index.toNat + data.length ≤ D.length ∧ data = (D.drop index.toNat).take data.length ∧
      (eof = true → index.toNat + data.length = D.length)
  | .reader _ => True

instance (D : List UInt8) : DecidablePred (Op.SubstringOf D)
  | .pushSubstring .. => inferInstanceAs (Decidable (_ ∧ _))
  | .reader _ => isTrue trivial

theorem getElem?_of_substring {D data : List UInt8} {index : ℕ} (h : data = (D.drop index).take data.length)
    {j : ℕ} (hj : j < data.length) : data[j]? = D[index + j]? := by
  rw [h, List.getElem?_take_of_lt hj, List.getElem?_drop]

theorem take_append_eq_take {D bs : List UInt8} {w : ℕ} (hw : w ≤ D.length)
    (h : ∀ j < bs.length, D[w + j]? = bs[j]?) :
    D.take w ++ bs = D.take (w + bs.length) ∧ w + bs.length ≤ D.length := by
  have hlen : w + bs.length ≤ D.length := by
    by_cases h0 : bs.length = 0
    · omega
    have hlast := h (bs.length - 1) (by omega)
    rw [List.getElem?_eq_getElem (l := bs) (by omega)] at hlast
    have := (List.getElem?_eq_some_iff.1 hlast).1
    omega
  refine ⟨?_, hlen⟩
  rw [List.take_add, List.append_cancel_left_eq]
  refine List.ext_getElem? fun j => ?_
  rw [List.getElem?_take]
  split
  · rw [List.getElem?_drop, h j ‹_›]
  · exact List.getElem?_eq_none (by omega)

/-- The reassembler has put out `popped` and holds only bytes of `D` at their own indices. -/
structure Sound (D popped : List UInt8) (s : StreamReassembler) : Prop where
  inv : Inv s
  out : popped ++ s.output.buffer = D.take s.output.bytesWritten.toNat
  le : s.output.bytesWritten.toNat ≤ D.length
  bytes : ∀ k v, s.unassembled.lookup k = some v → (D[k.toNat]?).map (fun b => [b]) = some v
  eof : s.eofFlag = true → s.eofIndex = UInt64.ofNat D.length
  ended : s.output.inputEnded = (s.eofFlag && s.output.bytesWritten == s.eofIndex)

namespace Sound
variable {D popped data : List UInt8} {index : UInt64} {eof : Bool} {s : StreamReassembler}

theorem init (D : List UInt8) (c : UInt64) : Sound D [] (init c) :=
  ⟨.init c, by rfl, Nat.zero_le _, fun k v h => by simp [StreamReassembler.init] at h,
    fun h => by simp [StreamReassembler.init] at h, rfl⟩

theorem reader (h : Sound D popped s) (op : ByteStream.ReaderOp) :
    Sound D (popped ++ op.removed s.output) { s with output := op.apply s.output } := by
  have hinv := h.inv.reader op
  obtain ⟨n, -, happly, hremoved⟩ := op.apply_eq_advance s.output
  rw [happly] at hinv ⊢
  refine ⟨hinv, ?_, h.le, h.bytes, h.eof, h.ended⟩
  refine Eq.trans ?_ h.out
  rw [hremoved, List.append_assoc]
  exact congrArg _ (List.take_append_drop n _)

theorem bytes_store (h : Sound D popped s) (hsub : (Op.pushSubstring data index eof).SubstringOf D)
    {k : UInt64} {v : List UInt8} (hv : (s.store data index).unassembled.lookup k = some v) :
    (D[k.toNat]?).map (fun b => [b]) = some v := by
  rw [lookup_store] at hv
  split at hv
  · have hend := toNat_segmentEnd_le data index
    have hk : k.toNat = index.toNat + (k.toNat - index.toNat) := by omega
    rw [hk, ← getElem?_of_substring hsub.2.1 (by omega)]
    exact hv
  · exact h.bytes k v hv

theorem drained_eq (h : Sound D popped s) (hsub : (Op.pushSubstring data index eof).SubstringOf D)
    {bs : List UInt8} {s' : StreamReassembler} (hp : Pushed s data index eof bs s') :
    D.take s.output.bytesWritten.toNat ++ bs = D.take (s.output.bytesWritten.toNat + bs.length) ∧
      s.output.bytesWritten.toNat + bs.length ≤ D.length := by
  refine take_append_eq_take h.le fun j hj => ?_
  have hbound := hp.bound
  have hk := Words.toNat_ofNat_of_lt (n := s.output.bytesWritten.toNat + j) (by omega)
  have hget := hp.bytes _ (by rw [hk]; omega) (by rw [hk]; omega)
  rw [hk, Nat.add_sub_cancel_left, List.getElem?_eq_getElem hj] at hget
  have := h.bytes_store hsub hget
  rw [hk] at this
  rw [List.getElem?_eq_getElem hj]
  simpa using this

theorem eofIndex_pushed (h : Sound D popped s) (hsub : (Op.pushSubstring data index eof).SubstringOf D)
    {bs : List UInt8} {s' : StreamReassembler} (hp : Pushed s data index eof bs s')
    (hflag : s'.eofFlag = true) : s'.eofIndex = UInt64.ofNat D.length := by
  rw [hp.eofIndex]
  split
  · rw [← hsub.2.2 ‹_›, segmentEnd, UInt64.ofNat_add, UInt64.ofNat_toNat]
  · rw [hp.eofFlag] at hflag
    exact h.eof (by simpa [*] using hflag)

theorem pushed (h : Sound D popped s) (hsub : (Op.pushSubstring data index eof).SubstringOf D)
    {bs : List UInt8} {s' : StreamReassembler} (hinv : Inv s') (hp : Pushed s data index eof bs s') :
    Sound D popped s' := by
  have hbytes : ∀ k v, s'.unassembled.lookup k = some v → (D[k.toNat]?).map (fun b => [b]) = some v := by
    intro k v hv
    rw [hp.lookup] at hv
    split at hv
    · exact h.bytes_store hsub hv
    · cases hv
  have heof := h.eofIndex_pushed hsub hp
  by_cases hend : s.output.inputEnded = true
  · have hout := hp.output
    rw [ByteStream.extend_of_ended hend, hend, Bool.true_or] at hout
    obtain ⟨hflag, hidx⟩ : s.eofFlag = true ∧ s.output.bytesWritten = s.eofIndex := by
      simpa [hend] using h.ended
    have hflag' : s'.eofFlag = true := by rw [hp.eofFlag, hflag, Bool.true_or]
    refine ⟨hinv, ?_, ?_, hbytes, heof, ?_⟩
    · rw [hout]; exact h.out
    · rw [hout]; exact h.le
    · simp [hout, hflag', heof hflag', hidx, h.eof hflag]
  · obtain ⟨htake, hle⟩ := h.drained_eq hsub hp
    have hwritten := ByteStream.toNat_bytesWritten_extend hend hp.bound
    refine ⟨hinv, ?_, ?_, hbytes, heof, ?_⟩
    · rw [hp.output]
      show popped ++ (s.output.extend bs).buffer = D.take (s.output.extend bs).bytesWritten.toNat
      rw [hwritten, ByteStream.buffer_extend hend, ← htake, ← h.out, List.append_assoc]
    · rw [hp.output]
      show (s.output.extend bs).bytesWritten.toNat ≤ D.length
      omega
    · simp [hp.output, hend]

theorem step (h : Sound D popped s) {op : Op} (hsub : op.SubstringOf D) :
    Sound D (popped ++ op.removed s) (op.apply s) := by
  cases op with
  | reader op => exact h.reader op
  | pushSubstring data index eof =>
    show Sound D (popped ++ []) (s.pushSubstring data index eof)
    rw [List.append_nil]
    rcases h.inv.pushSubstring_cases data index eof with ⟨-, heq⟩ | ⟨-, bs, hp⟩
    · rwa [heq]
    · exact h.pushed hsub (h.inv.pushSubstring ..) hp

end Sound

section
variable {D : List UInt8} {c : UInt64} {ops : List Op}

theorem sound_run (hops : ∀ op ∈ ops, op.SubstringOf D) :
    Sound D ((machine c).output Op.removed ops) ((machine c).run ops) := by
  refine (machine c).run_inv (C := fun _ op => op.SubstringOf D)
    (P := fun ops s => Sound D ((machine c).output Op.removed ops) s) (.init D c) ?_
    ((machine c).along_of_forall_mem hops)
  intro ops op hop h
  rw [Machine.output_concat]
  exact h.step hop

theorem eofFlag_run (h : ((machine c).run ops).eofFlag = true) :
    ∃ data index, .pushSubstring data index true ∈ ops := by
  induction ops using List.reverseRecOn with
  | nil => cases h
  | append_singleton ops op ih =>
    rw [Machine.run_concat] at h
    suffices ((machine c).run ops).eofFlag = true ∨ ∃ data index, op = .pushSubstring data index true by
      rcases this with hflag | ⟨data, index, rfl⟩
      · obtain ⟨data, index, hmem⟩ := ih hflag
        exact ⟨data, index, List.mem_append_left _ hmem⟩
      · exact ⟨data, index, by simp⟩
    cases op with
    | reader op => exact .inl h
    | pushSubstring data index eof =>
      change (((machine c).run ops).pushSubstring data index eof).eofFlag = true at h
      rcases (inv_run c ops).pushSubstring_cases data index eof with ⟨-, heq⟩ | ⟨-, bs, hp⟩
      · rw [heq] at h
        exact .inl h
      · rw [hp.eofFlag, Bool.or_eq_true] at h
        rcases h with hflag | rfl
        · exact .inl hflag
        · exact .inr ⟨data, index, rfl⟩

theorem Sound.bytesWritten_of_ended {popped : List UInt8} {s : StreamReassembler} (h : Sound D popped s)
    (hend : s.output.inputEnded = true) : s.output.bytesWritten = UInt64.ofNat D.length := by
  obtain ⟨hflag, hidx⟩ : s.eofFlag = true ∧ s.output.bytesWritten = s.eofIndex := by
    simpa [hend] using h.ended
  rw [hidx, h.eof hflag]

/-- Safety: only a prefix of `D` ever comes out, and the input ends only at the end of `D`. -/
theorem reassembly_safe (hD : D.length + c.toNat < 2 ^ 64) (hops : ∀ op ∈ ops, op.SubstringOf D) :
    let s := (machine c).run ops
    (machine c).output Op.removed ops ++ s.output.buffer = D.take s.output.bytesWritten.toNat ∧
    s.output.bytesWritten.toNat ≤ D.length ∧
    (s.output.inputEnded = true → s.output.bytesWritten.toNat = D.length ∧
      ∃ data index, .pushSubstring data index true ∈ ops) := by
  intro s
  have h : Sound D ((machine c).output Op.removed ops) s := sound_run hops
  refine ⟨h.out, h.le, fun hend => ⟨?_, eofFlag_run (c := c) ?_⟩⟩
  · rw [h.bytesWritten_of_ended hend, Words.toNat_ofNat_of_lt (by omega)]
  · have := h.ended
    rw [hend] at this
    exact (Bool.and_eq_true_iff.1 this.symm).1

end

def overlappingOps : List Op :=
  [.pushSubstring [98, 99] 1 false, .pushSubstring [97, 98] 0 false, .reader (.read 2),
    .pushSubstring [99, 100] 2 true]

theorem reassembly_safe_overlapping :
    ((machine 3).run overlappingOps).output.inputEnded = true ∧
    (machine 3).output Op.removed overlappingOps ++ ((machine 3).run overlappingOps).output.buffer =
      [97, 98, 99, 100].take ((machine 3).run overlappingOps).output.bytesWritten.toNat :=
  ⟨by decide +kernel, (reassembly_safe (by decide) (by decide)).1⟩

end Sponge.StreamReassembler

import Sponge.ReassemblerReceived

/-!
# When the end of the stream is lost

The early return of `push_substring` stands before the code that records an EOF. It also turns away
eof segments whose end lies inside the window: one whose bytes have all been assembled already, and an
empty one at the edge of a full window. `KeepsEof` says of one push that this does not happen to it, or
that it does no harm because an EOF is recorded already. While it holds along a run, the input has ended
exactly when all of `D` has been written (`eof_kept`); one step that breaks it can always be continued
to a state where all of `D` is written and the input has not ended (`eof_lost`).
-/

namespace Sponge.StreamReassembler

/-- A push with `eof` while the end of `D` lies inside the window. -/
def EofInWindow (D : List UInt8) (s : StreamReassembler) (op : Op) : Prop :=
  (∃ data index, op = .pushSubstring data index true) ∧
    D.length ≤ s.output.bytesRead.toNat + s.capacity.toNat

/-- A push with `eof` inside the window passes the early return, unless an EOF is recorded already. -/
def KeepsEof (D : List UInt8) (s : StreamReassembler) : Op → Prop
  | .pushSubstring data index true =>
    D.length ≤ s.output.bytesRead.toNat + s.capacity.toNat → s.eofFlag = true ∨ ¬ s.Discards data index
  | _ => True

variable {D popped : List UInt8} {s : StreamReassembler}

theorem Inv.eofFlag_step (h : Inv s) (op : Op) (hflag : s.eofFlag = true) : (op.apply s).eofFlag = true := by
  cases op with
  | reader op => exact hflag
  | pushSubstring data index eof =>
    show (s.pushSubstring data index eof).eofFlag = true
    rcases h.pushSubstring_cases data index eof with ⟨-, heq⟩ | ⟨-, bs, hp⟩
    · rwa [heq]
    · rw [hp.eofFlag, hflag, Bool.true_or]

theorem Inv.bytesRead_step (h : Inv s) (op : Op) :
    s.output.bytesRead.toNat ≤ (op.apply s).output.bytesRead.toNat := by
  cases op with
  | reader op =>
    obtain ⟨n, hn, happly, -⟩ := op.apply_eq_advance s.output
    show _ ≤ (op.apply s.output).bytesRead.toNat
    rw [happly, h.toNat_bytesRead_advance hn]
    exact Nat.le_add_right ..
  | pushSubstring data index eof =>
    show _ ≤ (s.pushSubstring data index eof).output.bytesRead.toNat
    rcases h.pushSubstring_cases data index eof with ⟨-, heq⟩ | ⟨-, bs, hp⟩
    · rw [heq]
    · rw [hp.output]
      show _ ≤ (s.output.extend bs).bytesRead.toNat
      rw [ByteStream.extend_bytesRead]

theorem Inv.eofFlag_of_keepsEof (h : Inv s) {op : Op} (hwin : EofInWindow D s op) (hkeep : KeepsEof D s op) :
    (op.apply s).eofFlag = true := by
  obtain ⟨⟨data, index, rfl⟩, hle⟩ := hwin
  rcases hkeep hle with hflag | hacc
  · exact h.eofFlag_step _ hflag
  · have hp := h.pushed true hacc
    show (s.pushSubstring data index true).eofFlag = true
    rw [hp.eofFlag, Bool.or_true]

/-- Once an EOF is recorded and the end of `D` is inside the window, the input ends with `D`. A length
past `2^64` is never reached, and its remainder lies before the window. -/
theorem Sound.inputEnded_iff (h : Sound D popped s) (hflag : s.eofFlag = true)
    (hwin : D.length ≤ s.output.bytesRead.toNat + s.capacity.toNat) :
    s.output.inputEnded = true ↔ s.output.bytesWritten.toNat = D.length := by
  have hw := h.inv.written
  have hw' := s.output.bytesWritten.toNat_lt
  have hcap := s.capacity.toNat_lt
  rw [h.ended, hflag, Bool.true_and, beq_iff_eq, h.eof hflag, ← UInt64.toNat_inj, UInt64.toNat_ofNat']
  omega

section
variable {c : UInt64} {ops : List Op}

/-- While every eof push inside the window is kept, the input has ended exactly at the end of `D`. -/
theorem eof_kept (hops : ∀ op ∈ ops, op.SubstringOf D) (hkeep : (machine c).Along (KeepsEof D) ops)
    (heof : (machine c).Once (EofInWindow D) ops) :
    let s := (machine c).run ops
    s.output.inputEnded = true ↔ s.output.bytesWritten.toNat = D.length := by
  have hrec : (machine c).Once (EofInWindow D) ops → ((machine c).run ops).eofFlag = true ∧
      D.length ≤ ((machine c).run ops).output.bytesRead.toNat + ((machine c).run ops).capacity.toNat := by
    refine (machine c).run_inv (P := fun ops s => (machine c).Once (EofInWindow D) ops →
      s.eofFlag = true ∧ D.length ≤ s.output.bytesRead.toNat + s.capacity.toNat) ?_ ?_ hkeep
    · exact fun h => absurd h (machine c).not_once_nil
    · intro ops op hkeep ih honce
      have hinv := inv_run c ops
      have hread := hinv.bytesRead_step op
      have hcap := capacity_step ((machine c).run ops) op
      change (op.apply _).eofFlag = true ∧
      D.length ≤ (op.apply _).output.bytesRead.toNat + (op.apply _).capacity.toNat
      rw [hcap]
      rcases (machine c).once_concat.1 honce with hbefore | hnow
      · obtain ⟨hflag, hwin⟩ := ih hbefore
        exact ⟨hinv.eofFlag_step op hflag, by omega⟩
      · exact ⟨hinv.eofFlag_of_keepsEof hnow hkeep, by have := hnow.2; omega⟩
  obtain ⟨hflag, hwin⟩ := hrec heof
  exact (sound_run hops).inputEnded_iff hflag hwin

def eofFirstOps : List Op := [.pushSubstring [98] 1 true, .pushSubstring [97] 0 false]

theorem eof_kept_eofFirst :
    ((machine 8).run eofFirstOps).output.inputEnded = true ∧
    (((machine 8).run eofFirstOps).output.inputEnded = true ↔
      ((machine 8).run eofFirstOps).output.bytesWritten.toNat = [97, 98].length) := by
  have hops : ∀ op ∈ eofFirstOps, op.SubstringOf [97, 98] := by decide
  refine ⟨by decide +kernel, eof_kept hops ?_ ?_⟩
  · rw [show eofFirstOps = ([] ++ [_]) ++ [_] from rfl, Machine.along_concat, Machine.along_concat]
    exact ⟨⟨(machine 8).along_nil, fun _ => .inr (by decide +kernel)⟩, trivial⟩
  · exact ⟨[], _, ⟨[_], rfl⟩, ⟨_, _, rfl⟩, by decide +kernel⟩

def repeatedEofOps : List Op := [.pushSubstring [97] 0 false, .pushSubstring [97] 0 true]

def emptyEofOps : List Op := [.pushSubstring [97] 0 false, .pushSubstring [] 1 true]

theorem eof_lost_on_repeat_and_at_edge :
    ((∀ op ∈ repeatedEofOps, op.SubstringOf [97]) ∧ (machine 8).Once (EofInWindow [97]) repeatedEofOps ∧
      ¬ (((machine 8).run repeatedEofOps).output.inputEnded = true ↔
        ((machine 8).run repeatedEofOps).output.bytesWritten.toNat = [97].length)) ∧
    ((∀ op ∈ emptyEofOps, op.SubstringOf [97]) ∧ (machine 1).Once (EofInWindow [97]) emptyEofOps ∧
      ¬ (((machine 1).run emptyEofOps).output.inputEnded = true ↔
        ((machine 1).run emptyEofOps).output.bytesWritten.toNat = [97].length)) := by
  refine ⟨⟨by decide, ?_, by decide +kernel⟩, ⟨by decide, ?_, by decide +kernel⟩⟩
  · exact ⟨[_], _, List.prefix_refl _, ⟨_, _, rfl⟩, by decide +kernel⟩
  · exact ⟨[_], _, List.prefix_refl _, ⟨_, _, rfl⟩, by decide +kernel⟩

theorem Inv.eofFlag_push_of_not_eof (h : Inv s) (data : List UInt8) (index : UInt64) :
    (s.pushSubstring data index false).eofFlag = s.eofFlag := by
  rcases h.pushSubstring_cases data index false with ⟨-, heq⟩ | ⟨-, bs, hp⟩
  · rw [heq]
  · rw [hp.eofFlag, Bool.or_false]

theorem bytesWritten_push_missing (hD : D.length + c.toNat < 2 ^ 64) (hops : ∀ op ∈ ops, op.SubstringOf D)
    {w : UInt64} (hw : ((machine c).run ops).output.bytesWritten = w)
    (hwin : D.length ≤ ((machine c).run ops).output.bytesRead.toNat + c.toNat) :
    (Op.pushSubstring (D.drop w.toNat) w false).SubstringOf D ∧
    ((machine c).run (ops ++ [.pushSubstring (D.drop w.toNat) w false])).output.bytesWritten.toNat =
      D.length := by
  have hle := (sound_run (c := c) hops).le
  rw [hw] at hle
  have hsub : (Op.pushSubstring (D.drop w.toNat) w false).SubstringOf D :=
    ⟨by rw [List.length_drop]; omega, by rw [List.take_length], fun h => by cases h⟩
  have hops' : ∀ op ∈ ops ++ [.pushSubstring (D.drop w.toNat) w false], op.SubstringOf D :=
    List.forall_mem_append.2 ⟨hops, List.forall_mem_singleton.2 hsub⟩
  refine ⟨hsub, Nat.le_antisymm (sound_run hops').le (Nat.le_of_not_lt fun hlt => ?_)⟩
  -- every index below the end of `D` has been received by now
  refine (splitAt_run hD hops').isLeast.1 ?_
  rw [received_concat, received_run hD hops, hw]
  by_cases hold : ((machine c).run
      (ops ++ [.pushSubstring (D.drop w.toNat) w false])).output.bytesWritten.toNat < w.toNat
  · exact .inl (.inl hold)
  · refine .inr ⟨⟨Nat.le_of_not_lt hold, ?_⟩, by omega⟩
    rw [List.length_drop]; omega

/-- A step that breaks `KeepsEof` can be continued to a state in which all of `D` is written and the
input has not ended. -/
theorem eof_lost (hD : D.length + c.toNat < 2 ^ 64) (hops : ∀ op ∈ ops, op.SubstringOf D) {op : Op}
    (hsub : op.SubstringOf D) (hwin : EofInWindow D ((machine c).run ops) op)
    (hkeep : ¬ KeepsEof D ((machine c).run ops) op) :
    ∃ more, (∀ x ∈ more, x.SubstringOf D) ∧
      ((machine c).run (ops ++ op :: more)).output.bytesWritten.toNat = D.length ∧
      ((machine c).run (ops ++ op :: more)).output.inputEnded = false := by
  obtain ⟨⟨data, index, rfl⟩, hle⟩ := hwin
  simp only [KeepsEof, Classical.not_imp, not_or, Decidable.not_not, Bool.not_eq_true] at hkeep
  obtain ⟨-, hflag, hacc⟩ := hkeep
  have hs := sound_run (c := c) hops
  have hsame : (machine c).run (ops ++ [.pushSubstring data index true]) = (machine c).run ops := by
    rw [Machine.run_concat]; exact if_pos hacc
  have hops' : ∀ x ∈ ops ++ [.pushSubstring data index true], x.SubstringOf D :=
    List.forall_mem_append.2 ⟨hops, List.forall_mem_singleton.2 hsub⟩
  rw [capacity_run c ops] at hle
  obtain ⟨hmore, hwritten⟩ := bytesWritten_push_missing hD hops' (congrArg (·.output.bytesWritten) hsame)
    (by rwa [hsame])
  refine ⟨[.pushSubstring (D.drop ((machine c).run ops).output.bytesWritten.toNat)
    ((machine c).run ops).output.bytesWritten false], by simpa using hmore, ?_⟩
  rw [← List.singleton_append, ← List.append_assoc]
  refine ⟨hwritten, ?_⟩
  rw [Machine.run_concat, hsame]
  refine (hs.step hmore).ended.trans (Bool.and_eq_false_iff.2 (.inl ?_))
  exact (hs.inv.eofFlag_push_of_not_eof ..).trans hflag

end
end Sponge.StreamReassembler

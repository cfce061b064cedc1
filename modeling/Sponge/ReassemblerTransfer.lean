import Sponge.ReassemblerEof

/-!
# Whole transfers

Runs that reassemble one byte string `D`, seen from the sender. The set of indices received so far
(`received`) determines what has been assembled and what waits, so when all of `D` fits the window the order
of the segments, how `D` was cut into them, their repetitions and the reads in between leave no trace
(`reassembly_order_independent`). A push that covers the first missing byte while the stream has room for it
makes progress, so there are at most as many of those as bytes in `D`; a sender that marks every segment at
the end of `D` with `eof` and goes on sending the first missing byte gets all of `D` across
(`transfer_completes`).
-/

namespace Sponge.StreamReassembler

variable {D popped : List UInt8} {s : StreamReassembler} {c : UInt64} {ops : List Op}

theorem Sound.lookup_eq (h : Sound D popped s) (k : UInt64) : s.unassembled.lookup k =
    if k ∈ s.unassembled then (D[k.toNat]?).map (fun b => [b]) else none := by
  split
  · rename_i hk
    obtain ⟨v, hv⟩ := Finmap.mem_iff.1 hk
    rw [hv, h.bytes k v hv]
  · rename_i hk
    exact Finmap.lookup_eq_none.2 hk

theorem mem_keyIndices_toNat {k : UInt64} : k.toNat ∈ s.keyIndices ↔ k ∈ s.unassembled := by
  constructor
  · rintro ⟨k', hk', heq⟩
    rwa [← UInt64.toNat_inj.1 heq]
  · exact fun hk => ⟨k, hk, rfl⟩

theorem Sound.unassembled_eq {popped' : List UInt8} {s' : StreamReassembler} (h : Sound D popped s)
    (h' : Sound D popped' s') (hkeys : s.keyIndices = s'.keyIndices) : s.unassembled = s'.unassembled := by
  refine Finmap.ext_lookup fun k => ?_
  rw [h.lookup_eq, h'.lookup_eq]
  refine if_congr ?_ rfl rfl
  rw [← mem_keyIndices_toNat, ← mem_keyIndices_toNat, hkeys]

/-- Some push of the list covers index `i`. -/
def Covered (ops : List Op) (i : ℕ) : Prop := ∃ op ∈ ops, op.Covers i

/-- When all of `D` fits the window, every index covered is received. -/
theorem mem_received_iff (hfit : D.length ≤ c.toNat) (hops : ∀ op ∈ ops, op.SubstringOf D) {i : ℕ} :
    i ∈ received c ops ↔ Covered ops i := by
  constructor
  · rintro ⟨pre, op, hpre, hcov, -⟩
    exact ⟨op, hpre.subset (by simp), hcov⟩
  · rintro ⟨op, hop, hcov⟩
    obtain ⟨pre, post, rfl⟩ := List.append_of_mem hop
    refine ⟨pre, op, ⟨post, by simp⟩, hcov, ?_⟩
    cases op with
    | reader op => exact absurd hcov id
    | pushSubstring data index eof =>
      have hlen := (hops _ hop).1
      have hi := hcov.2
      omega

/-- When all of `D` fits both windows, two runs that cover the same indices assemble and store the same,
whatever the order, the cut into segments, the repetitions and the reads. -/
theorem reassembly_order_independent {c' : UInt64} {ops' : List Op} (hfit : D.length ≤ c.toNat)
    (hfit' : D.length ≤ c'.toNat) (hD : D.length + c.toNat < 2 ^ 64) (hD' : D.length + c'.toNat < 2 ^ 64)
    (hops : ∀ op ∈ ops, op.SubstringOf D) (hops' : ∀ op ∈ ops', op.SubstringOf D)
    (hsame : ∀ i, Covered ops i ↔ Covered ops' i) :
    let s := (machine c).run ops
    let s' := (machine c').run ops'
    s.output.bytesWritten = s'.output.bytesWritten ∧ s.unassembled = s'.unassembled ∧
      (machine c).output Op.removed ops ++ s.output.buffer =
        (machine c').output Op.removed ops' ++ s'.output.buffer := by
  intro s s'
  have hs : Sound D ((machine c).output Op.removed ops) s := sound_run hops
  have hs' : Sound D ((machine c').output Op.removed ops') s' := sound_run hops'
  have hset : received c ops = received c' ops' := by
    ext i
    rw [mem_received_iff hfit hops, mem_received_iff hfit' hops', hsame]
  have hsplit : SplitAt (received c ops) s.output.bytesWritten.toNat s.keyIndices := splitAt_run hD hops
  rw [hset] at hsplit
  obtain ⟨hwritten, hkeys⟩ := hsplit.unique (splitAt_run hD' hops')
  refine ⟨UInt64.toNat_inj.1 hwritten, hs.unassembled_eq hs' hkeys, ?_⟩
  rw [hs.out, hs'.out, hwritten]

theorem reassembly_order_independent_swapped :
    ((machine 8).run [.pushSubstring [97, 98] 0 false, .pushSubstring [99] 2 true]).output.bytesWritten =
      ((machine 9).run [.pushSubstring [98, 99] 1 true, .pushSubstring [97] 0 false, .reader (.read 1),
        .pushSubstring [99] 2 true]).output.bytesWritten := by
  refine (reassembly_order_independent (D := [97, 98, 99]) (by decide) (by decide) (by decide) (by decide)
    (by decide) (by decide) fun i => ?_).1
  simp only [Covered, List.exists_mem_cons_iff, List.not_mem_nil, false_and, Op.Covers]
  simp
  omega

/-- The push brings the first missing byte and the stream has room for it. -/
def Useful (s : StreamReassembler) (op : Op) : Prop :=
  op.Covers s.output.bytesWritten.toNat ∧ s.output.bufferSize < s.capacity.toNat

instance (i : ℕ) : DecidablePred (Op.Covers i)
  | .pushSubstring .. => inferInstanceAs (Decidable (_ ∧ _))
  | .reader _ => isFalse id

instance (s : StreamReassembler) (op : Op) : Decidable (Useful s op) := inferInstanceAs (Decidable (_ ∧ _))

section
variable {op : Op} (hD : D.length + c.toNat < 2 ^ 64) (hops : ∀ x ∈ ops ++ [op], x.SubstringOf D)
include hD hops

theorem bytesWritten_le_step : ((machine c).run ops).output.bytesWritten.toNat ≤
    ((machine c).run (ops ++ [op])).output.bytesWritten.toNat := by
  refine (splitAt_run hD (List.forall_mem_append.1 hops).1).le_of_subset (splitAt_run hD hops) ?_
  rw [received_concat]
  exact Set.subset_union_left

theorem bytesWritten_lt_step (hop : Useful ((machine c).run ops) op) :
    ((machine c).run ops).output.bytesWritten.toNat <
      ((machine c).run (ops ++ [op])).output.bytesWritten.toNat := by
  have hw := (inv_run c ops).written
  have hroom := hop.2
  rw [capacity_run] at hroom
  refine (splitAt_run hD (List.forall_mem_append.1 hops).1).lt_of_mem (splitAt_run hD hops) ?_ ?_
  · rw [received_concat]
    exact Set.subset_union_left
  · rw [received_concat]
    exact .inr ⟨hop.1, by omega⟩

end

theorem count_useful_le (hD : D.length + c.toNat < 2 ^ 64) (hops : ∀ op ∈ ops, op.SubstringOf D) :
    (machine c).count Useful ops ≤ ((machine c).run ops).output.bytesWritten.toNat := by
  refine (machine c).count_le (C := fun _ op => op.SubstringOf D)
    (μ := fun s => s.output.bytesWritten.toNat) ?_ ?_ ((machine c).along_of_forall_mem hops)
  · intro ops op h
    rw [← Machine.run_concat]
    exact bytesWritten_le_step hD h.forall_mem
  · intro ops op h huse
    rw [← Machine.run_concat]
    exact bytesWritten_lt_step hD h.forall_mem huse

/-- The sender marks a segment that reaches the end of `D`, unless it is empty. -/
def Op.MarksEnd (D : List UInt8) : Op → Prop
  | .pushSubstring data index eof => data ≠ [] → index.toNat + data.length = D.length → eof = true
  | .reader _ => True

instance (D : List UInt8) : DecidablePred (Op.MarksEnd D)
  | .pushSubstring .. => inferInstanceAs (Decidable (_ → _ → _))
  | .reader _ => isTrue trivial

/-- Whoever received the last byte of `D` has seen its `eof` mark: a push that covers it is discarded only
when the byte has been assembled before. -/
theorem eofFlag_of_mem_received (hD : D.length + c.toNat < 2 ^ 64) (hops : ∀ op ∈ ops, op.SubstringOf D)
    (hmark : ∀ op ∈ ops, op.MarksEnd D) (hlast : D.length - 1 ∈ received c ops) (hne : D ≠ []) :
    ((machine c).run ops).eofFlag = true := by
  have hpos := List.length_pos_iff.2 hne
  induction ops using List.reverseRecOn with
  | nil => rw [received_nil] at hlast; exact hlast.elim
  | append_singleton ops op ih =>
    obtain ⟨hops', hop⟩ := List.forall_mem_append.1 hops
    obtain ⟨hmark', hopmark⟩ := List.forall_mem_append.1 hmark
    have hinv := inv_run c ops
    rw [Machine.run_concat]
    by_cases hbefore : D.length - 1 ∈ received c ops
    · exact hinv.eofFlag_step op (ih hops' hmark' hbefore)
    rw [received_concat] at hlast
    obtain ⟨hcov, hwin⟩ := hlast.resolve_left hbefore
    cases op with
    | reader op => exact absurd hcov id
    | pushSubstring data index eof =>
      have hsub := List.forall_mem_singleton.1 hop
      have hlen := hsub.1
      have hend : index.toNat + data.length = D.length := by
        have := hcov.2
        omega
      have heof : eof = true := by
        refine List.forall_mem_singleton.1 hopmark ?_ hend
        rintro rfl
        have := hcov.1
        simp at hend
        omega
      show (((machine c).run ops).pushSubstring data index eof).eofFlag = true
      rcases hinv.pushSubstring_cases data index eof with ⟨hdis, -⟩ | ⟨-, bs, hp⟩
      · -- what has been assembled was received before
        refine absurd ?_ hbefore
        rw [received_run hD hops']
        have hle := (sound_run (c := c) hops').le
        have hw := hinv.written
        have hcap := capacity_run c ops
        exact .inl (hdis.covers_lt (by rw [hcap]; omega) (by omega) hcov (by rwa [hcap]))
      · rw [hp.eofFlag, heof, Bool.or_true]

theorem inputEnded_iff_of_marksEnd (hne : D ≠ []) (hD : D.length + c.toNat < 2 ^ 64)
    (hops : ∀ op ∈ ops, op.SubstringOf D) (hmark : ∀ op ∈ ops, op.MarksEnd D) :
    ((machine c).run ops).output.inputEnded = true ↔
      ((machine c).run ops).output.bytesWritten.toNat = D.length := by
  have hs := sound_run (c := c) hops
  have hlen : (UInt64.ofNat D.length).toNat = D.length := Words.toNat_ofNat_of_lt (by omega)
  constructor
  · intro hend
    rw [hs.bytesWritten_of_ended hend, hlen]
  · intro hwritten
    have hpos := List.length_pos_iff.2 hne
    have hlast : D.length - 1 ∈ received c ops := by
      rw [received_run hD hops, hwritten]
      exact .inl (Nat.sub_lt hpos Nat.one_pos)
    have hflag := eofFlag_of_mem_received hD hops hmark hlast hne
    have hw : ((machine c).run ops).output.bytesWritten = UInt64.ofNat D.length := by
      rw [← UInt64.toNat_inj, hlen, hwritten]
    rw [hs.ended, hflag, hs.eof hflag, hw]
    simp

/-- Progress: at most `D.length` pushes bring the first missing byte while there is room for it, the input
ends exactly with the last byte of `D`, and after `D.length` such pushes all of `D` has been put out or is
ready to be read. -/
theorem transfer_completes (hne : D ≠ []) (hD : D.length + c.toNat < 2 ^ 64)
    (hops : ∀ op ∈ ops, op.SubstringOf D) (hmark : ∀ op ∈ ops, op.MarksEnd D) :
    let s := (machine c).run ops
    (machine c).count Useful ops ≤ s.output.bytesWritten.toNat ∧ s.output.bytesWritten.toNat ≤ D.length ∧
    (s.output.inputEnded = true ↔ s.output.bytesWritten.toNat = D.length) ∧
    (D.length ≤ (machine c).count Useful ops → s.output.inputEnded = true ∧ s.empty = true ∧
      (machine c).output Op.removed ops ++ s.output.buffer = D) := by
  intro s
  have hs : Sound D ((machine c).output Op.removed ops) s := sound_run hops
  have hcount : (machine c).count Useful ops ≤ s.output.bytesWritten.toNat := count_useful_le hD hops
  have hend := inputEnded_iff_of_marksEnd hne hD hops hmark
  refine ⟨hcount, hs.le, hend, fun hmany => ?_⟩
  have hall : s.output.bytesWritten.toNat = D.length := Nat.le_antisymm hs.le (hmany.trans hcount)
  refine ⟨hend.2 hall, ?_, ?_⟩
  · rw [← keyIndices_eq_empty]
    refine Set.eq_empty_of_forall_notMem ?_
    rintro i ⟨k, hk, rfl⟩
    obtain ⟨v, hv⟩ := Finmap.mem_iff.1 hk
    obtain ⟨b, hb, -⟩ := Option.map_eq_some_iff.1 (hs.bytes k v hv)
    have hlt := (List.getElem?_eq_some_iff.1 hb).1
    have := hs.inv.key_gt hk
    omega
  · rw [hs.out, hall, List.take_length]

def oneByteWindowOps : List Op :=
  [.pushSubstring [97, 98] 0 true, .pushSubstring [97] 0 false, .reader (.read 1), .pushSubstring [98] 1 true]

theorem transfer_completes_one_byte_window :
    (machine 1).output Op.removed oneByteWindowOps ++ ((machine 1).run oneByteWindowOps).output.buffer =
      [97, 98] := by
  have hops : ∀ op ∈ oneByteWindowOps, op.SubstringOf [97, 98] := by decide
  have h := transfer_completes (c := 1) (by decide) (by decide) hops (by decide)
  exact (h.2.2.2 (by decide +kernel)).2.2

end Sponge.StreamReassembler

import Sponge.Lib.FirstGap
import Sponge.ReassemblerRun

/-!
# What the reassembler keeps

`received` is the abstract state of a run: the indices that some segment covered while they were
inside the window. When no sum in the source wraps, the bytes written are the part of `received` before
its first gap and the map is the part after it (`splitAt_run`): nothing that arrived inside the window
is lost and nothing else is stored.
-/

namespace Sponge.StreamReassembler

def Op.Covers (i : ℕ) : Op → Prop
  | .pushSubstring data index _ => index.toNat ≤ i ∧ i < index.toNat + data.length
  | .reader _ => False

/-- The indices that some push of the run covered at a moment when they were inside the window. -/
def received (c : UInt64) (ops : List Op) : Set ℕ :=
  {i | (machine c).Once (fun s op => op.Covers i ∧ i < s.output.bytesRead.toNat + c.toNat) ops}

def keyIndices (s : StreamReassembler) : Set ℕ := UInt64.toNat '' {k | k ∈ s.unassembled}

theorem finite_keyIndices (s : StreamReassembler) : s.keyIndices.Finite := by
  refine Set.Finite.image _ (Set.Finite.ofFinset s.unassembled.keys fun k => ?_)
  exact Finmap.mem_keys

theorem ncard_keyIndices (s : StreamReassembler) : s.keyIndices.ncard = s.unassembledBytes := by
  rw [keyIndices, Set.ncard_image_of_injective _ fun _ _ => UInt64.toNat_inj.1, unassembledBytes,
    ← Set.ncard_coe_finset]
  congr 1

theorem keyIndices_eq_empty (s : StreamReassembler) : s.keyIndices = ∅ ↔ s.empty = true := by
  rw [← Set.ncard_eq_zero s.finite_keyIndices, ncard_keyIndices, empty, unassembledBytes, beq_iff_eq]

theorem received_nil (c : UInt64) : received c [] = ∅ := by
  ext i
  simp [received, Machine.not_once_nil]

theorem received_concat (c : UInt64) (ops : List Op) (op : Op) :
    received c (ops ++ [op]) = received c ops ∪
      {i | op.Covers i ∧ i < ((machine c).run ops).output.bytesRead.toNat + c.toNat} := by
  ext i
  simp only [received, Set.mem_union, Set.mem_ofPred_eq, Machine.once_concat]

variable {D popped data : List UInt8} {index : UInt64} {eof : Bool} {s : StreamReassembler}

theorem mem_store {k : UInt64} : k ∈ (s.store data index).unassembled ↔ k ∈ s.unassembled ∨
    (index.toNat ≤ k.toNat ∧ s.output.bytesWritten.toNat ≤ k.toNat ∧
      k.toNat < (segmentEnd data index).toNat ∧ k.toNat < s.maxPos.toNat) := by
  have hend := toNat_segmentEnd_le data index
  by_cases hk : k ∈ s.unassembled
  · rw [← Finmap.lookup_isSome, lookup_store, if_neg fun h => h.1 hk, Finmap.lookup_isSome]
    exact iff_of_true hk (.inl hk)
  · rw [← Finmap.lookup_isSome, lookup_store]
    split
    · rename_i h
      rw [List.getElem?_eq_getElem (by omega)]
      exact iff_of_true rfl (.inr h.2)
    · rename_i h
      rw [Finmap.lookup_isSome]
      exact iff_of_false hk fun h' => h'.elim hk fun h' => h ⟨hk, h'⟩

theorem mem_store_of_no_wrap (eof : Bool) (hcap : s.output.bytesRead.toNat + s.capacity.toNat < 2 ^ 64)
    (hlen : index.toNat + data.length < 2 ^ 64) {k : UInt64} :
    k ∈ (s.store data index).unassembled ↔ k ∈ s.unassembled ∨
      (s.output.bytesWritten.toNat ≤ k.toNat ∧ (Op.pushSubstring data index eof).Covers k.toNat ∧
        k.toNat < s.output.bytesRead.toNat + s.capacity.toNat) := by
  have hmax : s.maxPos.toNat = s.output.bytesRead.toNat + s.capacity.toNat := by
    rw [toNat_maxPos, Nat.mod_eq_of_lt hcap]
  have hend : (segmentEnd data index).toNat = index.toNat + data.length := by
    rw [toNat_segmentEnd, Nat.mod_eq_of_lt hlen]
  rw [mem_store, hmax, hend]
  refine or_congr_right ?_
  simp only [Op.Covers]; omega

/-- In a run that reassembles `D` nothing is left to drain once the input has ended, so the bytes
drained are always those written. -/
theorem Sound.bytesWritten_pushed (h : Sound D popped s) (hD : D.length < 2 ^ 64)
    (hsub : (Op.pushSubstring data index eof).SubstringOf D) {bs : List UInt8} {s' : StreamReassembler}
    (hp : Pushed s data index eof bs s') :
    s'.output.bytesWritten.toNat = s.output.bytesWritten.toNat + bs.length := by
  have hout : s'.output.bytesWritten = (s.output.extend bs).bytesWritten := by rw [hp.output]
  rw [hout]
  by_cases hend : s.output.inputEnded = true
  · have hle := (h.drained_eq hsub hp).2
    have hw := congrArg UInt64.toNat (h.bytesWritten_of_ended hend)
    rw [Words.toNat_ofNat_of_lt hD] at hw
    rw [ByteStream.extend_of_ended hend]; omega
  · exact ByteStream.toNat_bytesWritten_extend hend hp.bound

/-- Draining moves the bytes `[w, w + n)` from the keys to the written prefix. -/
theorem Pushed.iio_union_keyIndices {bs : List UInt8} {s' : StreamReassembler}
    (hp : Pushed s data index eof bs s') :
    Set.Iio (s.output.bytesWritten.toNat + bs.length) ∪ s'.keyIndices =
      Set.Iio s.output.bytesWritten.toNat ∪ (s.store data index).keyIndices := by
  have hmem : ∀ k : UInt64, k ∈ s'.unassembled ↔ s.output.bytesWritten.toNat + bs.length < k.toNat ∧
      k ∈ (s.store data index).unassembled := by
    intro k
    simp only [Finmap.mem_iff, hp.lookup]
    split <;> simp [*]
  have hbound := hp.bound
  ext i
  simp only [Set.mem_union, Set.mem_Iio, keyIndices, Set.mem_image, Set.mem_ofPred_eq]
  constructor
  · rintro (hi | ⟨k, hk, rfl⟩)
    · by_cases hw : i < s.output.bytesWritten.toNat
      · exact .inl hw
      -- a drained byte was in the map
      · have hk := Words.toNat_ofNat_of_lt (n := i) (by omega)
        have hget := hp.bytes (UInt64.ofNat i) (by omega) (by omega)
        rw [hk, List.getElem?_eq_getElem (by omega)] at hget
        exact .inr ⟨_, Finmap.mem_of_lookup_eq_some hget, hk⟩
    · exact .inr ⟨k, ((hmem k).1 hk).2, rfl⟩
  · rintro (hi | ⟨k, hk, rfl⟩)
    · exact .inl (by omega)
    · by_cases hlt : s.output.bytesWritten.toNat + bs.length < k.toNat
      · exact .inr ⟨k, (hmem k).2 ⟨hlt, hk⟩, rfl⟩
      by_cases hw : s.output.bytesWritten.toNat ≤ k.toNat
      · -- the key is in the drained run: at its end the map has a hole
        obtain ⟨v, hv⟩ := Finmap.mem_iff.1 hk
        rw [hp.bytes k hw (by omega)] at hv
        obtain ⟨b, hb, -⟩ := Option.map_eq_some_iff.1 hv
        have := (List.getElem?_eq_some_iff.1 hb).1
        exact .inl (by omega)
      · exact .inl (by omega)

theorem iio_union_keyIndices_store (eof : Bool) (hcap : s.output.bytesRead.toNat + s.capacity.toNat < 2 ^ 64)
    (hlen : index.toNat + data.length < 2 ^ 64) :
    Set.Iio s.output.bytesWritten.toNat ∪ (s.store data index).keyIndices =
      (Set.Iio s.output.bytesWritten.toNat ∪ s.keyIndices) ∪
        {i | (Op.pushSubstring data index eof).Covers i ∧
          i < s.output.bytesRead.toNat + s.capacity.toNat} := by
  ext i
  simp only [Set.mem_union, Set.mem_Iio, keyIndices, Set.mem_image, Set.mem_ofPred_eq,
    mem_store_of_no_wrap eof hcap hlen]
  constructor
  · rintro (hi | ⟨k, hk | ⟨-, hk⟩, rfl⟩)
    · exact .inl (.inl hi)
    · exact .inl (.inr ⟨k, hk, rfl⟩)
    · exact .inr hk
  · rintro ((hi | ⟨k, hk, rfl⟩) | ⟨hcov, hi⟩)
    · exact .inl hi
    · exact .inr ⟨k, .inl hk, rfl⟩
    · by_cases hw : i < s.output.bytesWritten.toNat
      · exact .inl hw
      · have hk := Words.toNat_ofNat_of_lt (n := i) (by omega)
        exact .inr ⟨UInt64.ofNat i, .inr (by rw [hk]; exact ⟨by omega, hcov, hi⟩), hk⟩

theorem Discards.covers_lt (hacc : s.Discards data index)
    (hcap : s.output.bytesRead.toNat + s.capacity.toNat < 2 ^ 64)
    (hlen : index.toNat + data.length < 2 ^ 64) {i : ℕ} (hcov : (Op.pushSubstring data index eof).Covers i)
    (hi : i < s.output.bytesRead.toNat + s.capacity.toNat) : i < s.output.bytesWritten.toNat := by
  simp only [Op.Covers] at hcov
  rcases hacc with ⟨-, hend⟩ | hmax
  · rw [UInt64.le_iff_toNat_le, toNat_segmentEnd, Nat.mod_eq_of_lt hlen] at hend
    omega
  · rw [ge_iff_le, UInt64.le_iff_toNat_le, toNat_maxPos, Nat.mod_eq_of_lt hcap] at hmax
    omega

section
variable {c : UInt64} {ops : List Op}

theorem received_run (hD : D.length + c.toNat < 2 ^ 64) (hops : ∀ op ∈ ops, op.SubstringOf D) :
    received c ops = Set.Iio ((machine c).run ops).output.bytesWritten.toNat ∪
      ((machine c).run ops).keyIndices := by
  induction ops using List.reverseRecOn with
  | nil =>
    rw [received_nil]
    ext i
    simp [machine, StreamReassembler.init, keyIndices, ByteStream.init, Finmap.notMem_empty]
  | append_singleton ops op ih =>
    have hops' : ∀ op ∈ ops, op.SubstringOf D := fun x hx => hops x (List.mem_append_left _ hx)
    have hsub : op.SubstringOf D := hops op (by simp)
    have hs : Sound D _ ((machine c).run ops) := sound_run hops'
    have hcapacity := capacity_run c ops
    rw [received_concat, Machine.run_concat, ih hops']
    generalize (machine c).run ops = s at hs hcapacity ⊢
    have hcap : s.output.bytesRead.toNat + s.capacity.toNat < 2 ^ 64 := by
      have := hs.inv.written
      have := hs.le
      rw [hcapacity]; omega
    rw [← hcapacity]
    change _ = Set.Iio (op.apply s).output.bytesWritten.toNat ∪ (op.apply s).keyIndices
    cases op with
    | reader op =>
      obtain ⟨n, -, happly, -⟩ := op.apply_eq_advance s.output
      have hwritten : ((Op.reader op).apply s).output.bytesWritten = s.output.bytesWritten := by
        show (op.apply s.output).bytesWritten = _
        rw [happly]; rfl
      rw [hwritten]
      simp [Op.Covers, keyIndices, Op.apply]
    | pushSubstring data index eof =>
      have hlen : index.toNat + data.length < 2 ^ 64 := by have := hsub.1; omega
      change _ = Set.Iio (s.pushSubstring data index eof).output.bytesWritten.toNat ∪
        (s.pushSubstring data index eof).keyIndices
      rcases hs.inv.pushSubstring_cases data index eof with ⟨hacc, heq⟩ | ⟨-, bs, hp⟩
      · rw [heq]
        refine Set.union_eq_left.2 fun i hi => .inl ?_
        exact hacc.covers_lt hcap hlen hi.1 hi.2
      · rw [hs.bytesWritten_pushed (by omega) hsub hp, hp.iio_union_keyIndices,
          iio_union_keyIndices_store eof hcap hlen]

/-- The bytes written and the keys are `received` split at its first gap. -/
theorem splitAt_run (hD : D.length + c.toNat < 2 ^ 64) (hops : ∀ op ∈ ops, op.SubstringOf D) :
    SplitAt (received c ops) ((machine c).run ops).output.bytesWritten.toNat
      ((machine c).run ops).keyIndices := by
  refine ⟨received_run hD hops, ?_⟩
  rintro i ⟨k, hk, rfl⟩
  exact (inv_run c ops).key_gt hk

/-- Nothing that arrived inside the window is lost and nothing else is kept. -/
theorem reassembly_exact (hD : D.length + c.toNat < 2 ^ 64) (hops : ∀ op ∈ ops, op.SubstringOf D) :
    let s := (machine c).run ops
    let A := received c ops
    IsLeast Aᶜ s.output.bytesWritten.toNat ∧
    UInt64.toNat '' {k | k ∈ s.unassembled} = {i | i ∈ A ∧ s.output.bytesWritten.toNat < i} ∧
    (∀ k ∈ s.unassembled, ∃ b, D[k.toNat]? = some b ∧ s.unassembled.lookup k = some [b]) ∧
    A.Finite ∧ A.ncard = s.output.bytesWritten.toNat + s.unassembledBytes ∧
    (s.empty = true ↔ A = Set.Iio s.output.bytesWritten.toNat) := by
  intro s A
  have hsplit : SplitAt A s.output.bytesWritten.toNat s.keyIndices := splitAt_run hD hops
  refine ⟨hsplit.isLeast, hsplit.inter_Ioi.symm, fun k hk => ?_, ?_, ?_, ?_⟩
  · obtain ⟨v, hv⟩ := Finmap.mem_iff.1 hk
    obtain ⟨b, hb, rfl⟩ := Option.map_eq_some_iff.1 ((sound_run hops).bytes k v hv)
    exact ⟨b, hb, hv⟩
  · rw [hsplit.eq_union]; exact (Set.finite_Iio _).union s.finite_keyIndices
  · rw [hsplit.ncard_eq s.finite_keyIndices, ncard_keyIndices]
  · rw [hsplit.eq_Iio_iff, keyIndices_eq_empty]

end

theorem reassembly_exact_overlapping :
    ((machine 3).run overlappingOps).output.bytesWritten.toNat = 4 ∧
    IsLeast (received 3 overlappingOps)ᶜ ((machine 3).run overlappingOps).output.bytesWritten.toNat :=
  ⟨by decide +kernel, (reassembly_exact (D := [97, 98, 99, 100]) (by decide) (by decide)).1⟩

end Sponge.StreamReassembler

import Mathlib.Order.Interval.Finset.Nat
import Sponge.StreamReassembler

/-!
# The window invariant of the reassembler

`Inv` holds in every reachable state, whatever is pushed: the stream's buffer fits its capacity, its
counters agree with it, and every key of `_unassembled` lies strictly after the first unassembled byte
and before the end of the window, where the sum `bytes_read + capacity` is taken over the integers.
`Stored` is the same without the strictness: it holds between the `for` and the `while` loop.

Nothing is stored past a wrapped window: `max_pos` is at most the unwrapped sum, and so is
`index + data.length()`, which is also why every read of `data` is in bounds. The `while` loop never
drains more than fits, so the write accepts all of it unless the input has ended (`Stored.assemble_eq`).
-/

namespace Sponge

def ByteStream.extend (o : ByteStream) (bs : List UInt8) : ByteStream :=
  if o.inputEnded then o
  else { o with buffer := o.buffer ++ bs, bytesWritten := o.bytesWritten + UInt64.ofNat bs.length }

namespace ByteStream
variable (o : ByteStream) (bs : List UInt8)

@[simp] theorem extend_capacity : (o.extend bs).capacity = o.capacity := by
  unfold extend; split <;> rfl

@[simp] theorem extend_bytesRead : (o.extend bs).bytesRead = o.bytesRead := by
  unfold extend; split <;> rfl

@[simp] theorem extend_inputEnded : (o.extend bs).inputEnded = o.inputEnded := by
  unfold extend; split <;> simp [*]

variable {o bs}

theorem extend_of_ended (h : o.inputEnded = true) : o.extend bs = o := if_pos h

theorem buffer_extend (h : ¬ o.inputEnded = true) : (o.extend bs).buffer = o.buffer ++ bs := by
  rw [extend, if_neg h]

theorem toNat_bytesWritten_extend (h : ¬ o.inputEnded = true)
    (hbound : o.bytesWritten.toNat + bs.length < 2 ^ 64) :
    (o.extend bs).bytesWritten.toNat = o.bytesWritten.toNat + bs.length := by
  rw [extend, if_neg h]
  show (o.bytesWritten + UInt64.ofNat bs.length).toNat = _
  rw [UInt64.toNat_add, Words.toNat_ofNat_of_lt (by omega)]; omega

end ByteStream

namespace StreamReassembler

/-- The state between the `for` and the `while` loop of `pushSubstring`. -/
structure Stored (s : StreamReassembler) : Prop where
  capacity_eq : s.output.capacity = s.capacity
  size_le : s.output.bufferSize ≤ s.capacity.toNat
  written : s.output.bytesWritten.toNat = s.output.bytesRead.toNat + s.output.bufferSize
  key_ge : ∀ k ∈ s.unassembled, s.output.bytesWritten.toNat ≤ k.toNat
  key_lt : ∀ k ∈ s.unassembled, k.toNat < s.output.bytesRead.toNat + s.capacity.toNat
  key_succ : ∀ k ∈ s.unassembled, k.toNat + 1 < 2 ^ 64
  one : ∀ k v, s.unassembled.lookup k = some v → v.length = 1

/-- The state between two calls: moreover the first unassembled byte is missing. -/
structure Inv (s : StreamReassembler) : Prop extends Stored s where
  head : s.output.bytesWritten ∉ s.unassembled

variable {s : StreamReassembler}

theorem Inv.init (c : UInt64) : Inv (init c) :=
  ⟨⟨rfl, Nat.zero_le _, rfl, fun _ h => absurd h Finmap.notMem_empty, fun _ h => absurd h Finmap.notMem_empty,
    fun _ h => absurd h Finmap.notMem_empty, fun k v h => by simp [StreamReassembler.init] at h⟩,
    Finmap.notMem_empty⟩

theorem Inv.key_gt (h : Inv s) {k : UInt64} (hk : k ∈ s.unassembled) :
    s.output.bytesWritten.toNat < k.toNat := by
  refine Nat.lt_of_le_of_ne (h.key_ge k hk) fun heq => h.head ?_
  rwa [UInt64.toNat_inj.1 heq]

theorem Inv.toNat_bytesRead_advance (h : Inv s) {n : ℕ} (hn : n ≤ s.output.bufferSize) :
    (s.output.advance n).bytesRead.toNat = s.output.bytesRead.toNat + n := by
  have hw := h.written
  have hlt := s.output.bytesWritten.toNat_lt
  show (s.output.bytesRead + UInt64.ofNat n).toNat = _
  rw [UInt64.toNat_add, Words.toNat_ofNat_of_lt (by omega)]; omega

theorem Inv.reader (h : Inv s) (op : ByteStream.ReaderOp) : Inv { s with output := op.apply s.output } := by
  obtain ⟨n, hn, happly, -⟩ := op.apply_eq_advance s.output
  have hread := h.toNat_bytesRead_advance hn
  have hsize := s.output.bufferSize_advance n
  have hle := h.size_le
  have hw := h.written
  rw [happly]
  refine ⟨⟨h.capacity_eq, ?_, ?_, h.key_ge, fun k hk => ?_, h.key_succ, h.one⟩, h.head⟩
  · show (s.output.advance n).bufferSize ≤ s.capacity.toNat
    omega
  · show s.output.bytesWritten.toNat = (s.output.advance n).bytesRead.toNat + (s.output.advance n).bufferSize
    omega
  · show k.toNat < (s.output.advance n).bytesRead.toNat + s.capacity.toNat
    have := h.key_lt k hk
    omega

theorem toNat_segmentEnd (data : List UInt8) (index : UInt64) :
    (segmentEnd data index).toNat = (index.toNat + data.length) % 2 ^ 64 := by
  rw [segmentEnd, UInt64.toNat_add, UInt64.toNat_ofNat']; omega

theorem toNat_segmentEnd_le (data : List UInt8) (index : UInt64) :
    (segmentEnd data index).toNat ≤ index.toNat + data.length := by
  rw [toNat_segmentEnd]; exact Nat.mod_le ..

theorem toNat_maxPos (s : StreamReassembler) :
    s.maxPos.toNat = (s.output.bytesRead.toNat + s.capacity.toNat) % 2 ^ 64 :=
  UInt64.toNat_add ..

theorem toNat_maxPos_le (s : StreamReassembler) :
    s.maxPos.toNat ≤ s.output.bytesRead.toNat + s.capacity.toNat := by
  rw [toNat_maxPos]; exact Nat.mod_le ..

theorem lookup_store (data : List UInt8) (index k : UInt64) :
    (s.store data index).unassembled.lookup k =
      if k ∉ s.unassembled ∧ index.toNat ≤ k.toNat ∧ s.output.bytesWritten.toNat ≤ k.toNat ∧
          k.toNat < (segmentEnd data index).toNat ∧ k.toNat < s.maxPos.toNat then
        (data[k.toNat - index.toNat]?).map fun b => [b]
      else s.unassembled.lookup k := by
  rw [store, lookup_storeRange]
  refine ite_congr (propext ?_) (fun hk => ?_) (fun _ => rfl)
  · refine and_congr_right fun _ => ?_
    rw [UInt64.le_iff_toNat_le, UInt64.lt_iff_toNat_lt, Words.toNat_max, Words.toNat_min]; omega
  · have hend := toNat_segmentEnd_le data index
    have hlt : k.toNat - index.toNat < data.length := by omega
    rw [UInt64.toNat_sub_of_le _ _ (UInt64.le_iff_toNat_le.2 hk.2.1), List.getElem?_eq_getElem hlt]
    rfl

theorem Inv.store (h : Inv s) (data : List UInt8) (index : UInt64) : Stored (s.store data index) := by
  have hmem : ∀ k ∈ (s.store data index).unassembled, k ∈ s.unassembled ∨
      (s.output.bytesWritten.toNat ≤ k.toNat ∧ k.toNat < s.maxPos.toNat) := by
    intro k hk
    obtain ⟨v, hv⟩ := Finmap.mem_iff.1 hk
    rw [lookup_store] at hv
    split at hv
    · exact .inr (by omega)
    · exact .inl (Finmap.mem_of_lookup_eq_some hv)
  have hmax := s.toNat_maxPos_le
  have hmax' := s.maxPos.toNat_lt
  refine ⟨h.capacity_eq, h.size_le, h.written, fun k hk => ?_, fun k hk => ?_, fun k hk => ?_, fun k v hv => ?_⟩
  · rcases hmem k hk with hk | hk
    · exact h.key_ge k hk
    · exact hk.1
  · rcases hmem k hk with hk | hk
    · exact h.key_lt k hk
    · exact Nat.lt_of_lt_of_le hk.2 hmax
  · rcases hmem k hk with hk | hk
    · exact h.key_succ k hk
    · omega
  · rw [lookup_store] at hv
    split at hv
    · obtain ⟨b, -, rfl⟩ := Option.map_eq_some_iff.1 hv; rfl
    · exact h.one k v hv

/-- The string that the `while` loop collects for the single write. -/
def curAssemble (s : StreamReassembler) : List UInt8 := (drain s.unassembled s.output.bytesWritten []).1

theorem Stored.drained (h : Stored s) : Drained s.unassembled s.output.bytesWritten
    s.curAssemble (drain s.unassembled s.output.bytesWritten []).2 := by
  obtain ⟨bs, hbs, hd⟩ := drain_drained s.unassembled s.output.bytesWritten [] h.one h.key_succ
  rwa [curAssemble, hbs]

theorem Stored.curAssemble_le (h : Stored s) : s.output.bytesWritten.toNat + s.curAssemble.length ≤
    s.output.bytesRead.toNat + s.capacity.toNat := by
  have hw := h.written
  have hsize := h.size_le
  have hd := h.drained
  have hbound := hd.bound
  by_cases hnil : s.curAssemble.length = 0
  · omega
  -- the last drained key is below the end of the window
  have hlast := Words.toNat_ofNat_of_lt (n := s.output.bytesWritten.toNat + (s.curAssemble.length - 1)) (by omega)
  have hget := hd.bytes _ (UInt64.le_iff_toNat_le.2 (by rw [hlast]; omega)) (by rw [hlast]; omega)
  rw [hlast, List.getElem?_eq_getElem (by omega)] at hget
  have := h.key_lt _ (Finmap.mem_of_lookup_eq_some hget)
  omega

theorem Stored.write_curAssemble (h : Stored s) (hend : ¬ s.output.inputEnded = true) :
    s.output.write s.curAssemble = (UInt64.ofNat s.curAssemble.length, s.output.extend s.curAssemble) := by
  have hw := h.written
  have hsize := h.size_le
  have hfit := h.curAssemble_le
  have hcap := congrArg UInt64.toNat h.capacity_eq
  rw [ByteStream.write_eq (by omega), ByteStream.extend, ByteStream.acceptLen, if_neg hend, if_neg hend,
    Nat.min_eq_left (by omega), List.take_length]

/-- The `while` loop and the write after it: a maximal run of bytes leaves the map and, unless the
input has ended, all of it enters the stream. -/
theorem Stored.assemble_eq (h : Stored s) : s.assemble = { s with
    unassembled := (drain s.unassembled s.output.bytesWritten []).2
    output := s.output.extend s.curAssemble } := by
  have hout : (if s.curAssemble.isEmpty then s.output else (s.output.write s.curAssemble).2) =
      s.output.extend s.curAssemble := by
    by_cases hend : s.output.inputEnded = true
    · simp [ByteStream.write, ByteStream.extend, hend]
    · rw [h.write_curAssemble hend]
      cases s.curAssemble <;> simp [ByteStream.extend]
  rw [← hout]
  rfl

theorem Stored.lookup_drained (h : Stored s) {bs : List UInt8} {m' : Unassembled}
    (hd : Drained s.unassembled s.output.bytesWritten bs m') (k : UInt64) :
    m'.lookup k = if s.output.bytesWritten.toNat + bs.length < k.toNat then s.unassembled.lookup k else none := by
  rw [hd.rest k]
  by_cases hk : s.output.bytesWritten.toNat + bs.length < k.toNat
  · rw [if_pos hk, if_neg]; omega
  rw [if_neg hk]
  split
  · rfl
  rename_i hrange
  rw [UInt64.le_iff_toNat_le] at hrange
  by_cases hge : s.output.bytesWritten.toNat ≤ k.toNat
  · -- the first hole
    rw [hd.bytes k (UInt64.le_iff_toNat_le.2 hge) (by omega), List.getElem?_eq_none (by omega)]; rfl
  · exact Finmap.lookup_eq_none.2 fun hmem => hge (h.key_ge k hmem)

theorem Stored.mem_drained (h : Stored s) {bs : List UInt8} {m' : Unassembled}
    (hd : Drained s.unassembled s.output.bytesWritten bs m') {k : UInt64} :
    k ∈ m' ↔ s.output.bytesWritten.toNat + bs.length < k.toNat ∧ k ∈ s.unassembled := by
  simp only [Finmap.mem_iff, h.lookup_drained hd]
  split <;> simp [*]

theorem Stored.assemble (h : Stored s) : Inv s.assemble := by
  have hd := h.drained
  have hfit := h.curAssemble_le
  have heq := h.assemble_eq
  generalize s.curAssemble = bs at hd hfit heq
  generalize (drain s.unassembled s.output.bytesWritten []).2 = m' at hd heq
  have hmem : ∀ k ∈ m', s.output.bytesWritten.toNat + bs.length < k.toNat ∧ k ∈ s.unassembled :=
    fun k => (h.mem_drained hd).1
  have hone : ∀ k v, m'.lookup k = some v → v.length = 1 := by
    intro k v hv
    rw [h.lookup_drained hd] at hv
    split at hv
    · exact h.one k v hv
    · cases hv
  have hw := h.written
  rw [heq]
  by_cases hend : s.output.inputEnded = true
  · rw [ByteStream.extend_of_ended hend]
    refine ⟨⟨h.capacity_eq, h.size_le, hw, fun k hk => ?_, fun k hk => h.key_lt k (hmem k hk).2,
      fun k hk => h.key_succ k (hmem k hk).2, hone⟩, fun hk => ?_⟩
    · exact h.key_ge k (hmem k hk).2
    · exact Nat.not_lt.2 (Nat.le_add_right ..) (hmem _ hk).1
  · have hwritten := ByteStream.toNat_bytesWritten_extend hend hd.bound
    have hsize : (s.output.extend bs).bufferSize = s.output.bufferSize + bs.length := by
      rw [ByteStream.bufferSize, ByteStream.buffer_extend hend]; exact List.length_append
    refine ⟨⟨by simpa using h.capacity_eq, ?_, ?_, fun k hk => ?_, fun k hk => ?_,
      fun k hk => h.key_succ k (hmem k hk).2, hone⟩, fun hk => ?_⟩
    · show (s.output.extend bs).bufferSize ≤ s.capacity.toNat
      omega
    · show (s.output.extend bs).bytesWritten.toNat = (s.output.extend bs).bytesRead.toNat + _
      rw [hwritten, ByteStream.extend_bytesRead, hsize]; omega
    · show (s.output.extend bs).bytesWritten.toNat ≤ k.toNat
      rw [hwritten]; exact Nat.le_of_lt (hmem k hk).1
    · show k.toNat < (s.output.extend bs).bytesRead.toNat + s.capacity.toNat
      rw [ByteStream.extend_bytesRead]; exact h.key_lt k (hmem k hk).2
    · have := (hmem _ hk).1
      rw [hwritten] at this
      omega

theorem Inv.recordEof (h : Inv s) (data : List UInt8) (index : UInt64) (eof : Bool) :
    Inv (s.recordEof data index eof) := by
  unfold StreamReassembler.recordEof
  split
  · exact ⟨⟨h.capacity_eq, h.size_le, h.written, h.key_ge, h.key_lt, h.key_succ, h.one⟩, h.head⟩
  · exact h

section
variable (s : StreamReassembler) (data : List UInt8) (index : UInt64) (eof : Bool)

theorem store_recordEof_unassembled :
    ((s.recordEof data index eof).store data index).unassembled = (s.store data index).unassembled := by
  simp [StreamReassembler.store, maxPos]

theorem curAssemble_store_recordEof :
    ((s.recordEof data index eof).store data index).curAssemble = (s.store data index).curAssemble := by
  rw [curAssemble, curAssemble, store_recordEof_unassembled]
  exact congrArg (fun o => (drain _ o.bytesWritten []).1) (recordEof_output ..)

end

/-- All that a push past the early return does: the bytes `bs` from the first unassembled one up to
the first hole leave the map and extend the stream, and the EOF fields follow the `eof` argument. -/
structure Pushed (s : StreamReassembler) (data : List UInt8) (index : UInt64) (eof : Bool)
    (bs : List UInt8) (s' : StreamReassembler) : Prop where
  bound : s.output.bytesWritten.toNat + bs.length < 2 ^ 64
  bytes : ∀ k : UInt64, s.output.bytesWritten.toNat ≤ k.toNat →
    k.toNat ≤ s.output.bytesWritten.toNat + bs.length →
    (s.store data index).unassembled.lookup k =
      (bs[k.toNat - s.output.bytesWritten.toNat]?).map fun b => [b]
  lookup : ∀ k : UInt64, s'.unassembled.lookup k =
    if s.output.bytesWritten.toNat + bs.length < k.toNat then (s.store data index).unassembled.lookup k
    else none
  eofFlag : s'.eofFlag = (s.eofFlag || eof)
  eofIndex : s'.eofIndex = if eof then segmentEnd data index else s.eofIndex
  output : s'.output = { s.output.extend bs with
    inputEnded := s.output.inputEnded || (s'.eofFlag && (s.output.extend bs).bytesWritten == s'.eofIndex) }

theorem Inv.pushed (h : Inv s) {data : List UInt8} {index : UInt64} (eof : Bool)
    (hacc : ¬ s.Discards data index) :
    Pushed s data index eof (s.store data index).curAssemble (s.pushSubstring data index eof) := by
  have hst : Stored (s.store data index) := h.store data index
  have hst' : Stored ((s.recordEof data index eof).store data index) := (h.recordEof ..).store ..
  have hout : ((s.recordEof data index eof).store data index).output = s.output := recordEof_output ..
  have hd := hst.drained
  have heq := hst'.assemble_eq
  rw [curAssemble_store_recordEof, store_recordEof_unassembled, hout] at heq
  have hpush : s.pushSubstring data index eof =
      ((s.recordEof data index eof).store data index).assemble.checkEof := if_neg hacc
  rw [hpush, heq]
  refine ⟨hd.bound, fun k h1 h2 => hd.bytes k (UInt64.le_iff_toNat_le.2 h1) h2, fun k => ?_, ?_, ?_, ?_⟩
  · rw [checkEof_unassembled]; exact hst.lookup_drained hd k
  · rw [checkEof_eofFlag]; exact recordEof_eofFlag ..
  · rw [checkEof_eofIndex]; exact recordEof_eofIndex ..
  · simp only [checkEof_output, checkEof_eofFlag, checkEof_eofIndex, ByteStream.extend_inputEnded]

theorem Inv.checkEof (h : Inv s) : Inv s.checkEof := by
  unfold StreamReassembler.checkEof
  split
  · exact ⟨⟨h.capacity_eq, h.size_le, h.written, h.key_ge, h.key_lt, h.key_succ, h.one⟩, h.head⟩
  · exact h

theorem Inv.pushSubstring (h : Inv s) (data : List UInt8) (index : UInt64) (eof : Bool) :
    Inv (s.pushSubstring data index eof) := by
  unfold StreamReassembler.pushSubstring
  split
  · exact h
  · exact (((h.recordEof data index eof).store data index).assemble).checkEof

theorem Inv.pushSubstring_cases (h : Inv s) (data : List UInt8) (index : UInt64) (eof : Bool) :
    (s.Discards data index ∧ s.pushSubstring data index eof = s) ∨
      (¬ s.Discards data index ∧ ∃ bs, Pushed s data index eof bs (s.pushSubstring data index eof)) := by
  by_cases hacc : s.Discards data index
  · exact .inl ⟨hacc, if_pos hacc⟩
  · exact .inr ⟨hacc, _, h.pushed eof hacc⟩

theorem Inv.step (h : Inv s) (op : Op) : Inv (op.apply s) := by
  cases op with
  | pushSubstring data index eof => exact h.pushSubstring data index eof
  | reader op => exact h.reader op

theorem capacity_step (s : StreamReassembler) (op : Op) : (op.apply s).capacity = s.capacity := by
  cases op with
  | pushSubstring data index eof =>
    simp only [Op.apply, pushSubstring]
    split
    · rfl
    · simp [assemble, store]
  | reader op => rfl

section
variable (c : UInt64) (ops : List Op)

/-- The invariant over any run: arbitrary, also contradictory, segments and any reads. -/
theorem inv_run : Inv ((machine c).run ops) := by
  induction ops using List.reverseRecOn with
  | nil => exact .init c
  | append_singleton ops op ih =>
    rw [Machine.run_concat]
    exact ih.step op

theorem capacity_run : ((machine c).run ops).capacity = c := by
  induction ops using List.reverseRecOn with
  | nil => rfl
  | append_singleton ops op ih =>
    rw [Machine.run_concat]
    exact (capacity_step _ op).trans ih

theorem Inv.unassembledBytes_le (h : Inv s) : s.unassembledBytes ≤
    s.output.bytesRead.toNat + s.capacity.toNat - s.output.bytesWritten.toNat - 1 := by
  have hsub : s.unassembled.keys.image UInt64.toNat ⊆
      Finset.Ioo s.output.bytesWritten.toNat (s.output.bytesRead.toNat + s.capacity.toNat) := by
    intro i hi
    obtain ⟨k, hk, rfl⟩ := Finset.mem_image.1 hi
    rw [Finmap.mem_keys] at hk
    exact Finset.mem_Ioo.2 ⟨h.key_gt hk, h.key_lt k hk⟩
  have hcard := Finset.card_le_card hsub
  rwa [Finset.card_image_of_injective _ fun _ _ => UInt64.toNat_inj.1, Nat.card_Ioo] at hcard

/-- Everything the reassembler stores stays in the window and within its capacity. -/
theorem reassembler_memory_bound (c : UInt64) (ops : List Op) :
    let s := (machine c).run ops
    (∀ k ∈ s.unassembled, s.output.bytesWritten.toNat < k.toNat ∧
      k.toNat < s.output.bytesRead.toNat + c.toNat) ∧
    s.output.bufferSize + s.unassembledBytes ≤ c.toNat := by
  intro s
  have h : Inv s := inv_run c ops
  have hcap : s.capacity = c := capacity_run c ops
  refine ⟨fun k hk => ⟨h.key_gt hk, hcap ▸ h.key_lt k hk⟩, ?_⟩
  have hkeys := h.unassembledBytes_le
  have hw := h.written
  have hsize := h.size_le
  rw [hcap] at hkeys hsize
  omega

end
end StreamReassembler
end Sponge

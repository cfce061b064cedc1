import Sponge.ReassemblerReceived

/-!
# The window of a push in 64-bit arithmetic

`push_substring` adds `bytes_read + capacity` and `index + data.length()` without a guard. A sum that wraps
only ever shrinks the window, so nothing is read outside `data` and nothing is drained that does not fit
(`pushSubstring_safe`). But the bytes that a wrapped sum cuts off are lost although there is room for
them: `window_kept_iff` says which ones are kept.
-/

namespace Sponge.StreamReassembler

variable {data : List UInt8} {index : UInt64} {eof : Bool} {s s' : StreamReassembler}

/-- Byte `i` is assembled or waits in the map. -/
def Kept (s : StreamReassembler) (i : ℕ) : Prop := i < s.output.bytesWritten.toNat ∨ i ∈ s.keyIndices

theorem kept_of_le {i : ℕ} (h : s.output.bytesWritten.toNat ≤ i) : s.Kept i ↔ i ∈ s.keyIndices :=
  or_iff_right (Nat.not_lt.2 h)

/-- Seen from inside the window, `max_pos` is its end or, once the sum has wrapped, lies before all of it. -/
theorem Inv.lt_maxPos_iff (h : Inv s) {i : ℕ} (hge : s.output.bytesWritten.toNat ≤ i)
    (hlt : i < s.output.bytesRead.toNat + s.capacity.toNat) :
    i < s.maxPos.toNat ↔ s.output.bytesRead.toNat + s.capacity.toNat < 2 ^ 64 := by
  have hw := h.written
  have hc := s.capacity.toNat_lt
  rw [toNat_maxPos]
  omega

theorem mem_keyIndices_store {i : ℕ} (hi : i < 2 ^ 64) : i ∈ (s.store data index).keyIndices ↔
    i ∈ s.keyIndices ∨ (index.toNat ≤ i ∧ s.output.bytesWritten.toNat ≤ i ∧
      i < (segmentEnd data index).toNat ∧ i < s.maxPos.toNat) := by
  constructor
  · rintro ⟨k, hk, rfl⟩
    rcases mem_store.1 hk with hk | hk
    · exact .inl ⟨k, hk, rfl⟩
    · exact .inr hk
  · rintro (⟨k, hk, rfl⟩ | hnew)
    · exact ⟨k, mem_store.2 (.inl hk), rfl⟩
    · have hk := Words.toNat_ofNat_of_lt hi
      exact ⟨UInt64.ofNat i, mem_store.2 (.inr (by rwa [hk])), hk⟩

/-- What the `for` loop has in the map is afterwards written or still there. -/
theorem Pushed.kept_iff {bs : List UInt8} (h : Pushed s data index eof bs s')
    (hend : s.output.inputEnded = false) {i : ℕ} (hge : s.output.bytesWritten.toNat ≤ i) :
    s'.Kept i ↔ i ∈ (s.store data index).keyIndices := by
  have hwritten : s'.output.bytesWritten.toNat = s.output.bytesWritten.toNat + bs.length := by
    rw [h.output]; exact ByteStream.toNat_bytesWritten_extend (by simp [hend]) h.bound
  have hunion : i ∈ Set.Iio (s.output.bytesWritten.toNat + bs.length) ∪ s'.keyIndices ↔
      i ∈ Set.Iio s.output.bytesWritten.toNat ∪ (s.store data index).keyIndices := by
    rw [h.iio_union_keyIndices]
  rw [Kept, hwritten]
  exact hunion.trans (or_iff_right (Nat.not_lt.2 hge))

theorem Inv.kept_pushSubstring_iff (h : Inv s) (hend : s.output.inputEnded = false) {i : ℕ}
    (hcov : index.toNat ≤ i) (hi : i < 2 ^ 64) (hge : s.output.bytesWritten.toNat ≤ i) :
    (s.pushSubstring data index eof).Kept i ↔
      i ∈ s.keyIndices ∨ (i < (segmentEnd data index).toNat ∧ i < s.maxPos.toNat) := by
  rcases h.pushSubstring_cases data index eof with ⟨hdis, heq⟩ | ⟨-, bs, hpush⟩
  · rw [heq, kept_of_le hge]
    refine ⟨.inl, fun hkept => hkept.resolve_right ?_⟩
    rintro ⟨hlast, hwin⟩
    rcases hdis with ⟨-, hold⟩ | hpast
    · have := UInt64.le_iff_toNat_le.1 hold
      omega
    · have := UInt64.le_iff_toNat_le.1 hpast
      omega
  · rw [hpush.kept_iff hend hge, mem_keyIndices_store hi]
    exact or_congr_right ⟨fun hnew => hnew.2.2, fun hnew => ⟨hcov, hge, hnew⟩⟩

/-- A byte inside the window that a push covers is kept exactly when it was stored before or neither of the
two sums wraps below it. -/
theorem window_kept_iff (c : UInt64) (ops : List Op) (data : List UInt8) (index : UInt64) (eof : Bool) (i : ℕ)
    (hend : ((machine c).run ops).output.inputEnded = false)
    (hcov : index.toNat ≤ i ∧ i < index.toNat + data.length)
    (hwin : ((machine c).run ops).output.bytesWritten.toNat ≤ i ∧
      i < min (((machine c).run ops).output.bytesRead.toNat + c.toNat) (2 ^ 64)) :
    (((machine c).run ops).pushSubstring data index eof).Kept i ↔
      i ∈ ((machine c).run ops).keyIndices ∨
        (((machine c).run ops).output.bytesRead.toNat + c.toNat < 2 ^ 64 ∧
          i < (index.toNat + data.length) % 2 ^ 64) := by
  have h := inv_run c ops
  have hcap := capacity_run c ops
  rw [h.kept_pushSubstring_iff hend hcov.1 (by omega) hwin.1, toNat_segmentEnd,
    h.lt_maxPos_iff hwin.1 (by rw [hcap]; omega), hcap]
  exact or_congr_right and_comm

theorem window_kept_iff_after_read :
    (((machine 2).run [.pushSubstring [97] 0 false, .reader (.read 1)]).pushSubstring [98, 99] 2 false).Kept 2 := by
  have hkeep : 2 < ((2 : UInt64).toNat + [98, 99].length) % 2 ^ 64 := by decide
  exact (window_kept_iff 2 [.pushSubstring [97] 0 false, .reader (.read 1)] [98, 99] 2 false 2 (by decide +kernel)
    (by decide) (by decide +kernel)).2 (.inr ⟨by decide +kernel, hkeep⟩)

/-- With the largest capacity `max_pos` wraps to `0` after the first read, and from then on every push of a
new byte is discarded although the stream is empty. -/
theorem not_kept_of_unlimited_capacity :
    let s := (machine 18446744073709551615).run [.pushSubstring [97] 0 false, .reader (.read 1)]
    s.output.inputEnded = false ∧
    (s.output.bytesWritten.toNat ≤ 1 ∧
      1 < min (s.output.bytesRead.toNat + (18446744073709551615 : UInt64).toNat) (2 ^ 64)) ∧
    ¬ (s.pushSubstring [98] 1 false).Kept 1 := by
  intro s
  have hwritten : (s.pushSubstring [98] 1 false).output.bytesWritten.toNat = 1 := by decide +kernel
  have hmap : (s.pushSubstring [98] 1 false).unassembled = ∅ := by decide +kernel
  refine ⟨by decide +kernel, by decide +kernel, ?_⟩
  rintro (hlt | ⟨k, hk, -⟩)
  · omega
  · rw [Set.mem_ofPred_eq, hmap] at hk
    exact Finmap.notMem_empty hk

/-! ### Reads and the write -/

/-- The `for` loop, with the offsets at which it reads `data`. -/
def storeRangeReads (data : List UInt8) (index stop i : UInt64) (m : Unassembled) : List UInt64 × Unassembled :=
  if i < stop then
    if i ∈ m then storeRangeReads data index stop (i + 1) m
    else
      let rest := storeRangeReads data index stop (i + 1) (m.insert i (data[(i - index).toNat]?).toList)
      ((i - index) :: rest.1, rest.2)
  else ([], m)
termination_by stop.toNat - i.toNat
decreasing_by
  all_goals
    have hi := Words.toNat_add_one_of_lt ‹_›
    have := UInt64.lt_iff_toNat_lt.1 ‹_›
    omega

/-- The loop as the call runs it: all its reads of `data`, and the map it leaves. -/
def storeReads (s : StreamReassembler) (data : List UInt8) (index : UInt64) : List UInt64 × Unassembled :=
  storeRangeReads data index (min (segmentEnd data index) s.maxPos) (max index s.output.bytesWritten) s.unassembled

theorem storeRangeReads_snd (data : List UInt8) (index stop i : UInt64) (m : Unassembled) :
    (storeRangeReads data index stop i m).2 = storeRange data index stop i m := by
  induction i, m using storeRangeReads.induct data index stop with
  | case1 i m hi hmem ih =>
    rw [storeRangeReads, if_pos hi, if_pos hmem, ih, storeRange.eq_def data index stop i, if_pos hi, storeByte,
      if_pos hmem]
  | case2 i m hi hmem ih =>
    rw [storeRangeReads, if_pos hi, if_neg hmem, storeRange, if_pos hi, storeByte, if_neg hmem]
    exact ih
  | case3 i m hi => rw [storeRangeReads, if_neg hi, storeRange, if_neg hi]

theorem exists_of_mem_storeRangeReads {stop i off : UInt64} {m : Unassembled}
    (hoff : off ∈ (storeRangeReads data index stop i m).1) : ∃ k, i ≤ k ∧ k < stop ∧ off = k - index := by
  induction i, m using storeRangeReads.induct data index stop with
  | case1 i m hi hmem ih =>
    rw [storeRangeReads, if_pos hi, if_pos hmem] at hoff
    obtain ⟨k, hk, hstop, heq⟩ := ih hoff
    exact ⟨k, UInt64.le_trans (Words.le_add_one_of_lt hi) hk, hstop, heq⟩
  | case2 i m hi hmem ih =>
    rw [storeRangeReads, if_pos hi, if_neg hmem] at hoff
    rcases List.mem_cons.1 hoff with rfl | hoff
    · exact ⟨i, UInt64.le_refl i, hi, rfl⟩
    · obtain ⟨k, hk, hstop, heq⟩ := ih hoff
      exact ⟨k, UInt64.le_trans (Words.le_add_one_of_lt hi) hk, hstop, heq⟩
  | case3 i m hi =>
    rw [storeRangeReads, if_neg hi] at hoff
    cases hoff

/-- In any state: `index ≤ i < end` bounds the offset, since the 64-bit `end` is at most the true one. -/
theorem storeReads_lt (s : StreamReassembler) {off : UInt64} (hoff : off ∈ (s.storeReads data index).1) :
    off.toNat < data.length := by
  obtain ⟨k, hstart, hstop, rfl⟩ := exists_of_mem_storeRangeReads hoff
  rw [UInt64.le_iff_toNat_le, Words.toNat_max] at hstart
  rw [UInt64.lt_iff_toNat_lt, Words.toNat_min] at hstop
  have hend := toNat_segmentEnd_le data index
  rw [UInt64.toNat_sub_of_le _ _ (UInt64.le_iff_toNat_le.2 (by omega))]
  omega

/-- A byte that the drain takes out of the map stands in the stream's buffer at its place. -/
theorem Pushed.erased {bs : List UInt8} (h : Pushed s data index eof bs s') (hs : Inv s)
    (hend : s.output.inputEnded = false) {k : UInt64} {v : List UInt8}
    (hv : (s.store data index).unassembled.lookup k = some v) (hout : k ∉ s'.unassembled) :
    ∃ b, v = [b] ∧ s'.output.buffer[k.toNat - s.output.bytesRead.toNat]? = some b := by
  have hge := (hs.store data index).key_ge k (Finmap.mem_of_lookup_eq_some hv)
  have hle : k.toNat ≤ s.output.bytesWritten.toNat + bs.length := by
    refine Nat.not_lt.1 fun hlt => hout (Finmap.mem_iff.2 ⟨v, ?_⟩)
    rw [h.lookup k, if_pos hlt, hv]
  have hbyte := h.bytes k hge hle
  rw [hv] at hbyte
  obtain ⟨b, hb, rfl⟩ := Option.map_eq_some_iff.1 hbyte.symm
  refine ⟨b, rfl, ?_⟩
  have hbuf : s'.output.buffer = s.output.buffer ++ bs := by
    rw [h.output]; exact ByteStream.buffer_extend (by simp [hend])
  have hw := hs.written
  rw [ByteStream.bufferSize] at hw
  change s.output.bytesWritten.toNat ≤ k.toNat at hge
  rw [hbuf, List.getElem?_append_right (by omega), ← hb]
  congr 1
  omega

/-- One push in any reachable state: every read of `data` is in bounds, and while the input has not ended the
write whose result is ignored takes all it is given, so no erased byte is lost. -/
theorem pushSubstring_safe (c : UInt64) (ops : List Op) (data : List UInt8) (index : UInt64) (eof : Bool) :
    let s := (machine c).run ops
    let stored := (s.recordEof data index eof).store data index
    let s' := s.pushSubstring data index eof
    (s.storeReads data index).2 = stored.unassembled ∧
    (∀ off ∈ (s.storeReads data index).1, off.toNat < data.length) ∧
    (s.output.inputEnded = false → ¬ s.Discards data index →
      (stored.output.write stored.curAssemble).1.toNat = stored.curAssemble.length ∧
      s'.output.buffer = s.output.buffer ++ stored.curAssemble ∧
      ∀ k v, stored.unassembled.lookup k = some v → k ∉ s'.unassembled →
        ∃ b, v = [b] ∧ s'.output.buffer[k.toNat - s.output.bytesRead.toNat]? = some b) := by
  intro s stored s'
  have h : Inv s := inv_run c ops
  refine ⟨?_, fun off hoff => storeReads_lt s hoff, fun hend hacc => ⟨?_, ?_, fun k v hv hout => ?_⟩⟩
  · rw [show stored.unassembled = _ from store_recordEof_unassembled s data index eof]
    exact storeRangeReads_snd ..
  · have hst : Stored stored := (h.recordEof data index eof).store data index
    have hend' : ¬ stored.output.inputEnded = true := by
      show ¬ (s.recordEof data index eof).output.inputEnded = true
      rw [recordEof_output, hend]; exact Bool.false_ne_true
    have hbound := hst.drained.bound
    rw [hst.write_curAssemble hend']
    exact Words.toNat_ofNat_of_lt (by omega)
  · rw [(h.pushed eof hacc).output]
    rw [show stored.curAssemble = _ from curAssemble_store_recordEof s data index eof]
    exact ByteStream.buffer_extend (by simp [hend])
  · rw [show stored.unassembled = _ from store_recordEof_unassembled s data index eof] at hv
    exact (h.pushed eof hacc).erased h hend hv hout

end Sponge.StreamReassembler

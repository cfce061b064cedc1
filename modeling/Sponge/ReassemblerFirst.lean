import Sponge.ReassemblerWindow

/-!
# Contradictory segments: the first arrival wins

Nothing here asks the segments to agree with each other. `arrivals c ops i` are the bytes that the pushes of
a run brought for index `i`, in order, each one inside the bounds that the source computed at that moment.
What the reassembler has put out and what it stores is, index by index, the head of that list
(`FirstHeld`): a later byte never replaces an earlier one, whether that one still waits in the map, sits in
the stream's buffer or has been read. Once the input has ended the stream is frozen.
-/

namespace Sponge.StreamReassembler

/-- The byte that a call brings for index `i` in the state `s`, by the bounds of the `for` loop. -/
def Op.brings (i : ℕ) (s : StreamReassembler) : Op → Option UInt8
  | .pushSubstring data index _ =>
    if index.toNat ≤ i ∧ i < (segmentEnd data index).toNat ∧ i < s.maxPos.toNat then data[i - index.toNat]?
    else none
  | .reader _ => none

/-- The bytes that a run brought for index `i`, in order of arrival. -/
def arrivals (c : UInt64) (ops : List Op) (i : ℕ) : List UInt8 :=
  (machine c).output (fun s op => (op.brings i s).toList) ops

theorem head?_arrivals_concat (c : UInt64) (ops : List Op) (op : Op) (i : ℕ) :
    (arrivals c (ops ++ [op]) i).head? =
      ((arrivals c ops i).head?).or (op.brings i ((machine c).run ops)) := by
  rw [arrivals, Machine.output_concat, List.head?_append, Option.head?_toList]; rfl

/-- Where it is not yet closed, the reassembler holds exactly the first bytes `f`. -/
structure FirstHeld (f : ℕ → Option UInt8) (popped : List UInt8) (s : StreamReassembler) : Prop where
  inv : Inv s
  length : (popped ++ s.output.buffer).length = s.output.bytesWritten.toNat
  out : ∀ i < s.output.bytesWritten.toNat, (popped ++ s.output.buffer)[i]? = f i
  lookup : s.output.inputEnded = false → ∀ k : UInt64, s.output.bytesWritten.toNat ≤ k.toNat →
    s.unassembled.lookup k = (f k.toNat).map fun b => [b]

namespace FirstHeld
variable {f : ℕ → Option UInt8} {popped data : List UInt8} {index : UInt64} {eof : Bool}
  {s s' : StreamReassembler}

theorem init (c : UInt64) : FirstHeld (fun _ => none) [] (init c) where
  inv := .init c
  length := rfl
  out := fun i hi => absurd hi (Nat.not_lt_zero i)
  lookup := fun _ _ _ => rfl

theorem isSome (h : FirstHeld f popped s) {i : ℕ} (hi : i < s.output.bytesWritten.toNat) : (f i).isSome := by
  rw [← h.out i hi, List.getElem?_eq_getElem (by rw [h.length]; exact hi)]; rfl

theorem first_gap (h : FirstHeld f popped s) (hend : s.output.inputEnded = false) :
    f s.output.bytesWritten.toNat = none := by
  have hlook := h.lookup hend s.output.bytesWritten (Nat.le_refl _)
  rw [Finmap.lookup_eq_none.2 h.inv.head] at hlook
  exact Option.map_eq_none_iff.1 hlook.symm

theorem reader (h : FirstHeld f popped s) (op : ByteStream.ReaderOp) :
    FirstHeld f (popped ++ op.removed s.output) { s with output := op.apply s.output } := by
  have hinv := h.inv.reader op
  obtain ⟨n, -, happly, hremoved⟩ := op.apply_eq_advance s.output
  rw [happly] at hinv ⊢
  have hout : popped ++ op.removed s.output ++ (s.output.advance n).buffer = popped ++ s.output.buffer := by
    rw [hremoved, List.append_assoc]
    exact congrArg _ (List.take_append_drop n _)
  exact ⟨hinv, hout ▸ h.length, fun i hi => hout ▸ h.out i hi, h.lookup⟩

/-- The `for` loop adds what the push brings, behind what was there before. -/
theorem lookup_store (h : FirstHeld f popped s) (hend : s.output.inputEnded = false) {k : UInt64}
    (hk : s.output.bytesWritten.toNat ≤ k.toNat) :
    (s.store data index).unassembled.lookup k =
      ((f k.toNat).or ((Op.pushSubstring data index eof).brings k.toNat s)).map fun b => [b] := by
  have hlook := h.lookup hend k hk
  rw [StreamReassembler.lookup_store, Op.brings]
  by_cases hmem : k ∈ s.unassembled
  · obtain ⟨v, hv⟩ := Finmap.mem_iff.1 hmem
    rw [hv] at hlook
    obtain ⟨b, hb, rfl⟩ := Option.map_eq_some_iff.1 hlook.symm
    rw [if_neg fun hnew => hnew.1 hmem, hv, hb]; rfl
  · rw [Finmap.lookup_eq_none.2 hmem] at hlook ⊢
    rw [Option.map_eq_none_iff.1 hlook.symm, Option.none_or]
    by_cases hin : index.toNat ≤ k.toNat ∧ k.toNat < (segmentEnd data index).toNat ∧ k.toNat < s.maxPos.toNat
    · rw [if_pos hin, if_pos ⟨hmem, hin.1, hk, hin.2⟩]
    · rw [if_neg hin, if_neg fun hnew => hin ⟨hnew.2.1, hnew.2.2.2⟩]; rfl

/-- A discarded push brings nothing for an index that is still missing. -/
theorem brings_of_discards (hdis : s.Discards data index) {i : ℕ} (hi : s.output.bytesWritten.toNat ≤ i) :
    (Op.pushSubstring data index eof).brings i s = none := by
  refine if_neg ?_
  rintro ⟨hge, hlast, hwin⟩
  rcases hdis with ⟨-, hold⟩ | hpast
  · have := UInt64.le_iff_toNat_le.1 hold
    omega
  · have := UInt64.le_iff_toNat_le.1 hpast
    omega

theorem ended (h : FirstHeld f popped s) (g : ℕ → Option UInt8) (hinv : Inv s')
    (hend : s.output.inputEnded = true) (hout : s'.output = s.output) :
    FirstHeld (fun i => (f i).or (g i)) popped s' := by
  refine ⟨hinv, hout ▸ h.length, fun i hi => ?_, fun hopen => ?_⟩
  · rw [hout] at hi
    rw [hout, h.out i hi, Option.or_of_isSome (h.isSome hi)]
  · rw [hout, hend] at hopen; cases hopen

theorem pushed (h : FirstHeld f popped s) (hinv : Inv s') {bs : List UInt8}
    (hend : s.output.inputEnded = false) (hp : Pushed s data index eof bs s') :
    FirstHeld (fun i => (f i).or ((Op.pushSubstring data index eof).brings i s)) popped s' := by
  have hbound := hp.bound
  have hwritten : s'.output.bytesWritten.toNat = s.output.bytesWritten.toNat + bs.length := by
    rw [hp.output]; exact ByteStream.toNat_bytesWritten_extend (by simp [hend]) hp.bound
  have hbuffer : popped ++ s'.output.buffer = popped ++ s.output.buffer ++ bs := by
    rw [hp.output, List.append_assoc]
    exact congrArg _ (ByteStream.buffer_extend (by simp [hend]))
  -- the drained string, up to the hole after it
  have hdrained : ∀ k : UInt64, s.output.bytesWritten.toNat ≤ k.toNat →
      k.toNat ≤ s.output.bytesWritten.toNat + bs.length →
      (f k.toNat).or ((Op.pushSubstring data index eof).brings k.toNat s) =
        bs[k.toNat - s.output.bytesWritten.toNat]? := by
    intro k hge hle
    have hbytes := hp.bytes k hge hle
    rw [h.lookup_store hend hge] at hbytes
    exact Option.map_injective List.singleton_injective hbytes
  refine ⟨hinv, ?_, fun i hi => ?_, fun _ k hk => ?_⟩
  · rw [hbuffer, hwritten, List.length_append, h.length]
  · rw [hbuffer]
    by_cases hold : i < s.output.bytesWritten.toNat
    · rw [List.getElem?_append_left (by rw [h.length]; exact hold), h.out i hold,
        Option.or_of_isSome (h.isSome hold)]
    · have hi' := Words.toNat_ofNat_of_lt (n := i) (by omega)
      have hbyte := hdrained (UInt64.ofNat i) (by omega) (by omega)
      rw [hi'] at hbyte
      rw [List.getElem?_append_right (by rw [h.length]; omega), h.length]
      exact hbyte.symm
  · rw [hwritten] at hk
    rw [hp.lookup]
    split
    · exact h.lookup_store hend (by omega)
    · rw [hdrained k (by omega) (by omega), List.getElem?_eq_none (by omega)]; rfl

theorem step (h : FirstHeld f popped s) (op : Op) :
    FirstHeld (fun i => (f i).or (op.brings i s)) (popped ++ op.removed s) (op.apply s) := by
  cases op with
  | reader op =>
    simp only [Op.brings, Option.or_none]
    exact h.reader op
  | pushSubstring data index eof =>
    show FirstHeld _ (popped ++ []) (s.pushSubstring data index eof)
    rw [List.append_nil]
    rcases h.inv.pushSubstring_cases data index eof with ⟨hdis, heq⟩ | ⟨-, bs, hp⟩
    · rw [heq]
      refine ⟨h.inv, h.length, fun i hi => ?_, fun hend k hk => ?_⟩
      · rw [h.out i hi, Option.or_of_isSome (h.isSome hi)]
      · rw [brings_of_discards hdis hk, Option.or_none]
        exact h.lookup hend k hk
    · by_cases hend : s.output.inputEnded = true
      · refine h.ended _ (h.inv.pushSubstring ..) hend ?_
        rw [hp.output, ByteStream.extend_of_ended hend, hend, Bool.true_or, ← hend]
      · exact h.pushed (h.inv.pushSubstring ..) (by simpa using hend) hp

end FirstHeld

section
variable (c : UInt64) (ops : List Op)

theorem firstHeld_run : FirstHeld (fun i => (arrivals c ops i).head?)
    ((machine c).output Op.removed ops) ((machine c).run ops) := by
  induction ops using List.reverseRecOn with
  | nil => exact .init c
  | append_singleton ops op ih =>
    simp only [head?_arrivals_concat, Machine.run_concat, Machine.output_concat]
    exact ih.step op

end

/-- Nothing that a step does after the end of input shows in the stream. -/
theorem Inv.step_of_ended {s : StreamReassembler} (h : Inv s) (hend : s.output.inputEnded = true) (op : Op) :
    (op.apply s).output.inputEnded = true ∧ (op.apply s).output.bytesWritten = s.output.bytesWritten ∧
      op.removed s ++ (op.apply s).output.buffer = s.output.buffer := by
  cases op with
  | reader op =>
    obtain ⟨n, -, happly, hremoved⟩ := op.apply_eq_advance s.output
    show (op.apply s.output).inputEnded = true ∧ (op.apply s.output).bytesWritten = _ ∧
      op.removed s.output ++ (op.apply s.output).buffer = _
    rw [happly, hremoved]
    exact ⟨hend, rfl, List.take_append_drop n _⟩
  | pushSubstring data index eof =>
    show (s.pushSubstring data index eof).output.inputEnded = true ∧
      (s.pushSubstring data index eof).output.bytesWritten = _ ∧
      [] ++ (s.pushSubstring data index eof).output.buffer = _
    rcases h.pushSubstring_cases data index eof with ⟨-, heq⟩ | ⟨-, bs, hp⟩
    · rw [heq]; exact ⟨hend, rfl, rfl⟩
    · rw [hp.output, ByteStream.extend_of_ended hend, hend, Bool.true_or]
      exact ⟨rfl, rfl, rfl⟩

theorem frozen_of_ended (c : UInt64) {ops : List Op} (hend : ((machine c).run ops).output.inputEnded = true)
    (more : List Op) :
    ((machine c).run (ops ++ more)).output.inputEnded = true ∧
      ((machine c).run (ops ++ more)).output.bytesWritten = ((machine c).run ops).output.bytesWritten ∧
      (machine c).output Op.removed (ops ++ more) ++ ((machine c).run (ops ++ more)).output.buffer =
        (machine c).output Op.removed ops ++ ((machine c).run ops).output.buffer := by
  induction more using List.reverseRecOn with
  | nil => rw [List.append_nil]; exact ⟨hend, rfl, rfl⟩
  | append_singleton more op ih =>
    rw [← List.append_assoc, Machine.run_concat, Machine.output_concat]
    obtain ⟨hend', hwritten, hout⟩ := (inv_run c (ops ++ more)).step_of_ended ih.1 op
    refine ⟨hend', hwritten.trans ih.2.1, ?_⟩
    rw [List.append_assoc]
    exact (congrArg _ hout).trans ih.2.2

/-- Over every run, also a contradictory one: each byte put out or stored is the first that arrived for
its index, the stream stops at the first index for which none has arrived, and it is frozen once the
input has ended. -/
theorem first_arrival_wins (c : UInt64) (ops : List Op) :
    let s := (machine c).run ops
    let out := (machine c).output Op.removed ops ++ s.output.buffer
    out.length = s.output.bytesWritten.toNat ∧
    (∀ i < s.output.bytesWritten.toNat, out[i]? = (arrivals c ops i).head?) ∧
    (s.output.inputEnded = false →
      IsLeast {i | arrivals c ops i = []} s.output.bytesWritten.toNat ∧
      ∀ k : UInt64, s.unassembled.lookup k =
        if s.output.bytesWritten < k then ((arrivals c ops k.toNat).head?).map fun b => [b] else none) ∧
    (s.output.inputEnded = true → ∀ more,
      (machine c).output Op.removed (ops ++ more) ++ ((machine c).run (ops ++ more)).output.buffer = out) := by
  intro s out
  have h : FirstHeld (fun i => (arrivals c ops i).head?) ((machine c).output Op.removed ops) s :=
    firstHeld_run c ops
  refine ⟨h.length, h.out, fun hend => ⟨⟨?_, fun i hi => ?_⟩, fun k => ?_⟩,
    fun hend more => (frozen_of_ended c hend more).2.2⟩
  · exact List.head?_eq_none_iff.1 (h.first_gap hend)
  · refine Nat.le_of_not_lt fun hlt => ?_
    have hsome := h.isSome hlt
    rw [show arrivals c ops i = [] from hi] at hsome
    cases hsome
  · split
    · rename_i hk
      exact h.lookup hend k (Nat.le_of_lt (UInt64.lt_iff_toNat_lt.1 hk))
    · rename_i hk
      exact Finmap.lookup_eq_none.2 fun hmem => hk (UInt64.lt_iff_toNat_lt.2 (h.inv.key_gt hmem))

/-- Two segments disagree about index `1`: the byte that came first is put out. -/
example : arrivals 4 [.pushSubstring [98] 1 false, .pushSubstring [97, 120] 0 false] 1 = [98, 120] ∧
    ((machine 4).run [.pushSubstring [98] 1 false, .pushSubstring [97, 120] 0 false]).output.buffer = [97, 98] := by
  decide +kernel

end Sponge.StreamReassembler

import Mathlib.Data.Finmap
import Sponge.ByteStream
import Sponge.Lib.Words

/-!
# The stream reassembler (`libsponge/stream_reassembler.cc`)

`_unassembled` is a `std::map<size_t, std::string>` whose strings hold one byte each; here it is a
finite map from `UInt64`. `pushSubstring` is split along the source: the early return (`Discards`), the
EOF fields (`recordEof`), the `for` loop (`storeRange`), the `while` loop with the single write
(`drain`, `assemble`) and the final `end_input` (`checkEof`). The private members `_next_byte_index`
and `_last_reassembler_size` are set by the constructor and never read, so they have no counterpart.

Each loop has one lemma that says all it does: `lookup_storeRange` and `drain_drained`.
-/

namespace Sponge

abbrev Unassembled := Finmap fun _ : UInt64 => List UInt8

structure StreamReassembler where
  output : ByteStream
  capacity : UInt64
  unassembled : Unassembled
  eofFlag : Bool
  eofIndex : UInt64
deriving DecidableEq

namespace StreamReassembler

def init (capacity : UInt64) : StreamReassembler := ⟨.init capacity, capacity, ∅, false, 0⟩

/-- The first string stored at an index stays. -/
def storeByte (m : Unassembled) (i : UInt64) (bytes : List UInt8) : Unassembled :=
  if i ∈ m then m else m.insert i bytes

/-- `for (i; i < stop; i++)`. No read of `data` is outside its bounds; it would store the empty string here. -/
def storeRange (data : List UInt8) (index stop i : UInt64) (m : Unassembled) : Unassembled :=
  if i < stop then
    storeRange data index stop (i + 1) (storeByte m i (data[(i - index).toNat]?).toList)
  else m
termination_by stop.toNat - i.toNat
decreasing_by
  have hi := Words.toNat_add_one_of_lt ‹_›
  have := UInt64.lt_iff_toNat_lt.1 ‹_›
  omega

/-- `while (_unassembled.count(cur))`: move the string at `cur` to the end of `curAssemble`. -/
def drain (m : Unassembled) (cur : UInt64) (curAssemble : List UInt8) : List UInt8 × Unassembled :=
  match _hcur : m.lookup cur with
  | some bytes => drain (m.erase cur) (cur + 1) (curAssemble ++ bytes)
  | none => (curAssemble, m)
termination_by m.keys.card
decreasing_by
  rw [Finmap.keys_erase]
  exact Finset.card_erase_lt_of_mem (Finmap.mem_keys.2 (Finmap.mem_of_lookup_eq_some _hcur))

variable (s : StreamReassembler)

def maxPos : UInt64 := s.output.bytesRead + s.capacity

def segmentEnd (data : List UInt8) (index : UInt64) : UInt64 := index + UInt64.ofNat data.length

/-- The early return: a non-empty segment that ends at or before the first unassembled byte, or one
that starts past the window. -/
def Discards (data : List UInt8) (index : UInt64) : Prop :=
  (data.length ≠ 0 ∧ segmentEnd data index ≤ s.output.bytesWritten) ∨ index ≥ s.maxPos

instance (data : List UInt8) (index : UInt64) : Decidable (s.Discards data index) :=
  inferInstanceAs (Decidable (_ ∨ _))

def recordEof (data : List UInt8) (index : UInt64) (eof : Bool) : StreamReassembler :=
  if eof then { s with eofIndex := segmentEnd data index, eofFlag := true } else s

def store (data : List UInt8) (index : UInt64) : StreamReassembler :=
  { s with
    unassembled :=
      storeRange data index (min (segmentEnd data index) s.maxPos)
        (max index s.output.bytesWritten) s.unassembled }

def assemble : StreamReassembler :=
  let (curAssemble, unassembled) := drain s.unassembled s.output.bytesWritten []
  { s with
    unassembled
    output := if curAssemble.isEmpty then s.output else (s.output.write curAssemble).2 }

def checkEof : StreamReassembler :=
  if s.eofFlag && s.output.bytesWritten == s.eofIndex then { s with output := s.output.endInput } else s

def pushSubstring (data : List UInt8) (index : UInt64) (eof : Bool) : StreamReassembler :=
  if s.Discards data index then s
  else (((s.recordEof data index eof).store data index).assemble).checkEof

def unassembledBytes : ℕ := s.unassembled.keys.card

def empty : Bool := s.unassembled.keys.card == 0

/-- A call on the reassembler or, through `stream_out()`, on the output side of its stream. -/
inductive Op
  | pushSubstring (data : List UInt8) (index : UInt64) (eof : Bool)
  | reader (op : ByteStream.ReaderOp)
deriving DecidableEq, Repr

def Op.apply : Op → StreamReassembler
  | .pushSubstring data index eof => s.pushSubstring data index eof
  | .reader op => { s with output := op.apply s.output }

def Op.removed : Op → List UInt8
  | .pushSubstring .. => []
  | .reader op => op.removed s.output

def machine (capacity : UInt64) : Machine StreamReassembler Op := ⟨init capacity, Op.apply⟩

/-! ### The steps of `pushSubstring` without a loop -/

section
variable (data : List UInt8) (index : UInt64) (eof : Bool)

@[simp] theorem recordEof_output : (s.recordEof data index eof).output = s.output := by
  unfold recordEof; split <;> rfl

@[simp] theorem recordEof_capacity : (s.recordEof data index eof).capacity = s.capacity := by
  unfold recordEof; split <;> rfl

@[simp] theorem recordEof_unassembled : (s.recordEof data index eof).unassembled = s.unassembled := by
  unfold recordEof; split <;> rfl

@[simp] theorem recordEof_eofFlag : (s.recordEof data index eof).eofFlag = (s.eofFlag || eof) := by
  unfold recordEof; split <;> simp [*]

theorem recordEof_eofIndex :
    (s.recordEof data index eof).eofIndex = if eof then segmentEnd data index else s.eofIndex := by
  unfold recordEof; split <;> rfl

end

@[simp] theorem checkEof_capacity : s.checkEof.capacity = s.capacity := by
  unfold checkEof; split <;> rfl

@[simp] theorem checkEof_unassembled : s.checkEof.unassembled = s.unassembled := by
  unfold checkEof; split <;> rfl

@[simp] theorem checkEof_eofFlag : s.checkEof.eofFlag = s.eofFlag := by
  unfold checkEof; split <;> rfl

@[simp] theorem checkEof_eofIndex : s.checkEof.eofIndex = s.eofIndex := by
  unfold checkEof; split <;> rfl

theorem checkEof_output : s.checkEof.output = { s.output with
    inputEnded := s.output.inputEnded || (s.eofFlag && s.output.bytesWritten == s.eofIndex) } := by
  unfold checkEof; split <;> simp [*, ByteStream.endInput]

/-! ### The two loops -/

variable {s}

theorem lookup_storeByte (m : Unassembled) (i : UInt64) (bytes : List UInt8) (k : UInt64) :
    (storeByte m i bytes).lookup k = if k ∉ m ∧ i = k then some bytes else m.lookup k := by
  unfold storeByte
  split
  · rw [if_neg]; rintro ⟨hk, rfl⟩; exact hk ‹_›
  · by_cases hk : k = i
    · subst hk; simp [*]
    · rw [Finmap.lookup_insert_of_ne _ hk, if_neg]; exact fun h => hk h.2.symm

theorem mem_storeByte (m : Unassembled) (i : UInt64) (bytes : List UInt8) (k : UInt64) :
    k ∈ storeByte m i bytes ↔ k ∈ m ∨ k = i := by
  unfold storeByte
  split
  · refine ⟨.inl, ?_⟩; rintro (h | rfl) <;> assumption
  · rw [Finmap.mem_insert]; exact or_comm

theorem lookup_storeRange (data : List UInt8) (index stop i : UInt64) (m : Unassembled) (k : UInt64) :
    (storeRange data index stop i m).lookup k =
      if k ∉ m ∧ i ≤ k ∧ k < stop then some (data[(k - index).toNat]?).toList else m.lookup k := by
  induction i, m using storeRange.induct data index stop with
  | case1 i m hi ih =>
    rw [storeRange, if_pos hi, ih]
    simp only [mem_storeByte, lookup_storeByte]
    have hsucc := Words.toNat_add_one_of_lt hi
    by_cases hk : k = i
    · subst hk
      have hlt : ¬ k + 1 ≤ k := by rw [UInt64.le_iff_toNat_le]; omega
      by_cases hm : k ∈ m <;> simp [hm, hi]
    · have hle : i + 1 ≤ k ↔ i ≤ k := by
        have : k.toNat ≠ i.toNat := fun h => hk (UInt64.toNat_inj.1 h)
        rw [UInt64.le_iff_toNat_le, UInt64.le_iff_toNat_le, hsucc]; omega
      simp [hle, hk, Ne.symm hk]
  | case2 i m hi =>
    rw [storeRange, if_neg hi, if_neg]
    rintro ⟨-, h1, h2⟩
    exact hi (UInt64.lt_of_le_of_lt h1 h2)

theorem drain_of_some {m : Unassembled} {cur : UInt64} {bytes : List UInt8} (acc : List UInt8)
    (h : m.lookup cur = some bytes) : drain m cur acc = drain (m.erase cur) (cur + 1) (acc ++ bytes) := by
  rw [drain]; split <;> simp_all

theorem drain_of_none {m : Unassembled} {cur : UInt64} (acc : List UInt8) (h : m.lookup cur = none) :
    drain m cur acc = (acc, m) := by
  rw [drain]; split <;> simp_all

/-- `bs` are the bytes of `m` from `cur` up to its first hole, and `m'` is `m` without them. -/
structure Drained (m : Unassembled) (cur : UInt64) (bs : List UInt8) (m' : Unassembled) : Prop where
  bound : cur.toNat + bs.length < 2 ^ 64
  bytes : ∀ k : UInt64, cur ≤ k → k.toNat ≤ cur.toNat + bs.length →
    m.lookup k = (bs[k.toNat - cur.toNat]?).map fun b => [b]
  rest : ∀ k : UInt64, m'.lookup k =
    if cur ≤ k ∧ k.toNat < cur.toNat + bs.length then none else m.lookup k

theorem Drained.nil {m : Unassembled} {cur : UInt64} (h : m.lookup cur = none) : Drained m cur [] m where
  bound := cur.toNat_lt
  bytes := by
    intro k h1 h2
    obtain rfl : k = cur := UInt64.le_antisymm (UInt64.le_iff_toNat_le.2 h2) h1
    simp [h]
  rest := by
    intro k
    rw [if_neg]
    rintro ⟨h1, h2⟩
    rw [UInt64.le_iff_toNat_le] at h1
    simp at h2; omega

theorem Drained.cons {m m' : Unassembled} {cur : UInt64} {b : UInt8} {bs : List UInt8}
    (hsucc : (cur + 1).toNat = cur.toNat + 1) (hcur : m.lookup cur = some [b])
    (h : Drained (m.erase cur) (cur + 1) bs m') : Drained m cur (b :: bs) m' where
  bound := by
    have := h.bound
    rw [List.length_cons]; omega
  bytes := by
    intro k h1 h2
    by_cases hk : k = cur
    · subst hk; simp [hcur]
    · have hne : k.toNat ≠ cur.toNat := fun h => hk (UInt64.toNat_inj.1 h)
      rw [UInt64.le_iff_toNat_le] at h1
      rw [List.length_cons] at h2
      have := h.bytes k (by rw [UInt64.le_iff_toNat_le]; omega) (by omega)
      rw [Finmap.lookup_erase_ne hk, hsucc] at this
      rw [this, show k.toNat - cur.toNat = k.toNat - (cur.toNat + 1) + 1 by omega, List.getElem?_cons_succ]
  rest := by
    intro k
    rw [h.rest k, List.length_cons, hsucc]
    by_cases hk : k = cur
    · subst hk; simp
    · have hne : k.toNat ≠ cur.toNat := fun h => hk (UInt64.toNat_inj.1 h)
      rw [Finmap.lookup_erase_ne hk]
      refine if_congr ?_ rfl rfl
      rw [UInt64.le_iff_toNat_le, UInt64.le_iff_toNat_le]; omega

/-- The `while` loop, on a map of one-byte strings whose keys stay below the largest `size_t`. -/
theorem drain_drained (m : Unassembled) (cur : UInt64) (acc : List UInt8)
    (hone : ∀ k v, m.lookup k = some v → v.length = 1) (hkey : ∀ k ∈ m, k.toNat + 1 < 2 ^ 64) :
    ∃ bs, (drain m cur acc).1 = acc ++ bs ∧ Drained m cur bs (drain m cur acc).2 := by
  induction m, cur, acc using drain.induct with
  | case1 m cur acc v hcur ih =>
    have hsucc : (cur + 1).toNat = cur.toNat + 1 := by
      rw [UInt64.toNat_add]; exact Nat.mod_eq_of_lt (hkey cur (Finmap.mem_of_lookup_eq_some hcur))
    obtain ⟨b, rfl⟩ := List.length_eq_one_iff.1 (hone cur v hcur)
    obtain ⟨bs, hbs, hd⟩ := ih
      (fun k v hv => by
        by_cases hk : k = cur
        · subst hk; simp at hv
        · exact hone k v (by rwa [Finmap.lookup_erase_ne hk] at hv))
      (fun k hk => hkey k (Finmap.mem_erase.1 hk).2)
    rw [drain_of_some acc hcur]
    exact ⟨b :: bs, by rw [hbs]; simp, hd.cons hsucc hcur⟩
  | case2 m cur acc hcur =>
    rw [drain_of_none acc hcur]
    exact ⟨[], by simp, .nil hcur⟩

end StreamReassembler
end Sponge

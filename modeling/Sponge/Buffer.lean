import Mathlib.Data.Int.Notation
import Mathlib.Data.List.Basic
import Sponge.Lib.Chunks

/-!
# Buffers (`libsponge/util/buffer.cc`)

A `Buffer` is a shared, read-only string seen from a starting offset on. The storage is let go when the
last byte is discarded, and the offset then stays where it was; while there is storage the offset lies
inside it, which the structure carries as a field. Everything a caller sees of a buffer is `str`.

A `BufferList` and a `BufferViewList` are strings in chunks (`Chunks`), and their `remove_prefix` is the same
loop over the two kinds of chunk. Sizes are natural numbers where the source has `size_t`. The two are the same
for contents that fit a `std::string`, and the results here are about those: as buffers share their storage, a
list could name more than `2^64` bytes in all, which no string holds.
-/

namespace Sponge

/-- The exceptions of the modelled code, with their texts. -/
inductive Exception
  | outOfRange (what : String)
  | lengthError (what : String)
  | runtimeError (what : String)
  | unixError (attempt : String) (error : ℤ)
deriving DecidableEq, Repr

structure Buffer where
  storage : Option (List UInt8)
  startingOffset : ℕ
  offset_le : ∀ s ∈ storage, startingOffset ≤ s.length
deriving DecidableEq

namespace Buffer

def empty : Buffer := ⟨none, 0, by simp⟩

def ofString (str : List UInt8) : Buffer := ⟨some str, 0, by simp⟩

variable (b : Buffer)

def str : List UInt8 :=
  match b.storage with
  | none => []
  | some s => s.drop b.startingOffset

def size : ℕ := b.str.length

/-- The method `at`. -/
def charAt (n : ℕ) : Except Exception UInt8 :=
  match b.str[n]? with
  | some c => .ok c
  | none => .error (.outOfRange "basic_string_view::at")

theorem offset_add_le {n : ℕ} (hn : ¬ n > b.size) : ∀ s ∈ b.storage, b.startingOffset + n ≤ s.length := by
  intro s hs
  have hle := b.offset_le s hs
  have hsize : b.size = s.length - b.startingOffset := by
    rw [size, str, Option.mem_def.1 hs]; exact List.length_drop
  omega

def removePrefix (n : ℕ) : Except Exception Buffer :=
  if h : n > b.size then .error (.outOfRange "Buffer::remove_prefix")
  else if b.storage.any fun s => b.startingOffset + n == s.length then
    .ok ⟨none, b.startingOffset + n, by simp⟩
  else .ok ⟨b.storage, b.startingOffset + n, b.offset_add_le h⟩

variable {b}

@[simp] theorem str_ofString (s : List UInt8) : (ofString s).str = s := List.drop_zero

theorem charAt_of_lt {n : ℕ} (h : n < b.str.length) : b.charAt n = .ok b.str[n] := by
  rw [charAt, List.getElem?_eq_getElem h]

/-- Discarding at most the whole string succeeds and leaves the rest of it. -/
theorem removePrefix_of_le {n : ℕ} (h : n ≤ b.str.length) :
    ∃ b', b.removePrefix n = .ok b' ∧ b'.str = b.str.drop n := by
  have hsize : ¬ n > b.size := Nat.not_lt.2 h
  rw [removePrefix, dif_neg hsize]
  split
  · rename_i hany
    refine ⟨_, rfl, ?_⟩
    obtain ⟨s, hs, hlen⟩ : ∃ s, b.storage = some s ∧ b.startingOffset + n = s.length := by
      simpa [Option.any_eq_true] using hany
    simp [str, hs, List.drop_drop, hlen]
  · refine ⟨_, rfl, ?_⟩
    simp only [str]
    cases b.storage with
    | none => simp
    | some s => simp [List.drop_drop]

end Buffer

structure BufferList where
  buffers : List Buffer
deriving DecidableEq

namespace BufferList

def empty : BufferList := ⟨[]⟩

def ofBuffer (buffer : Buffer) : BufferList := ⟨[buffer]⟩

variable (l : BufferList)

def append (other : BufferList) : BufferList := ⟨other.buffers.foldl (fun bs buf => bs ++ [buf]) l.buffers⟩

def ofString (str : List UInt8) : BufferList := empty.append (ofBuffer (Buffer.ofString str))

def concatenate : List UInt8 := l.buffers.foldl (fun ret buf => ret ++ buf.str) []

def size : ℕ := l.buffers.foldl (fun ret buf => ret + buf.size) 0

/-- The list is returned as the call leaves it, also when it throws. -/
def removePrefix (n : ℕ) : Except Exception Unit × BufferList :=
  let (result, buffers) :=
    Chunks.dropFront Buffer.size Buffer.removePrefix (.outOfRange "BufferList::remove_prefix") l.buffers n
  (result, ⟨buffers⟩)

theorem append_eq (other : BufferList) : l.append other = ⟨l.buffers ++ other.buffers⟩ := by
  rw [append, List.foldl_append_eq_append, ← List.flatMap_def, List.flatMap_singleton']

theorem concatenate_eq : l.concatenate = l.buffers.flatMap Buffer.str := by
  rw [concatenate, List.foldl_append_eq_append, List.nil_append, List.flatMap_def]

theorem concatenate_append (other : BufferList) :
    (l.append other).concatenate = l.concatenate ++ other.concatenate := by
  rw [append_eq, concatenate_eq, concatenate_eq, concatenate_eq, List.flatMap_append]

theorem size_eq : l.size = l.concatenate.length := by
  rw [concatenate_eq]
  exact Chunks.foldl_size (fun _ => rfl) l.buffers

theorem concatenate_removePrefix (n : ℕ) : (l.removePrefix n).2.concatenate = l.concatenate.drop n := by
  rw [concatenate_eq, concatenate_eq]
  exact Chunks.flatMap_dropFront (fun _ => rfl) (fun _ _ h => Buffer.removePrefix_of_le (Nat.le_of_lt h)) l.buffers n

theorem removePrefix_fst (n : ℕ) : (l.removePrefix n).1 =
    if n > l.size then .error (.outOfRange "BufferList::remove_prefix") else .ok () := by
  rw [size_eq, concatenate_eq]
  exact Chunks.dropFront_fst (fun _ => rfl) (fun _ _ h => Buffer.removePrefix_of_le (Nat.le_of_lt h)) l.buffers n

theorem concatenate_foldl_append (parts : List BufferList) :
    (parts.foldl append l).concatenate = l.concatenate ++ parts.flatMap concatenate := by
  induction parts generalizing l with
  | nil => simp
  | cons part parts ih => rw [List.foldl_cons, ih, concatenate_append, List.flatMap_cons, List.append_assoc]

@[simp] theorem concatenate_ofBuffer (b : Buffer) : (ofBuffer b).concatenate = b.str := by
  simp [concatenate_eq, ofBuffer]

@[simp] theorem concatenate_ofString (s : List UInt8) : (ofString s).concatenate = s := by
  rw [ofString, concatenate_append, concatenate_ofBuffer, Buffer.str_ofString]; rfl

end BufferList

/-- A list of views; each view is the bytes it shows. -/
structure BufferViewList where
  views : List (List UInt8)
deriving DecidableEq, Repr

namespace BufferViewList

def ofStringView (str : List UInt8) : BufferViewList := ⟨[str]⟩

def ofBufferList (buffers : BufferList) : BufferViewList :=
  ⟨buffers.buffers.foldl (fun views x => views ++ [x.str]) []⟩

variable (l : BufferViewList)

/-- The method `remove_prefix`. The list is returned as the call leaves it, also when it throws. -/
def discard (n : ℕ) : Except Exception Unit × BufferViewList :=
  let (result, views) :=
    Chunks.dropFront List.length (fun v n => .ok (v.drop n)) (.outOfRange "BufferListView::remove_prefix") l.views n
  (result, ⟨views⟩)

/-- `discard` for a caller that does not look at the list again if it throws. -/
def removePrefix (n : ℕ) : Except Exception BufferViewList := (l.discard n).1.map fun _ => (l.discard n).2

def size : ℕ := l.views.foldl (fun ret buf => ret + buf.length) 0

def asIovecs : List (List UInt8) := l.views.foldl (fun ret x => ret ++ [x]) []

/-- The string that the views show together. -/
def str : List UInt8 := l.views.flatten

theorem size_eq : l.size = l.str.length := by
  rw [str, ← List.flatMap_id]
  exact Chunks.foldl_size (fun _ => rfl) l.views

theorem asIovecs_eq : l.asIovecs = l.views := by
  rw [asIovecs, List.foldl_append_eq_append, List.nil_append, ← List.flatMap_def, List.flatMap_singleton']

theorem str_ofBufferList (buffers : BufferList) : (ofBufferList buffers).str = buffers.concatenate := by
  have hviews : (ofBufferList buffers).views = buffers.buffers.map Buffer.str := by
    rw [ofBufferList, List.foldl_append_eq_append, List.nil_append, ← List.flatMap_def, List.map_eq_flatMap]
  rw [str, hviews, BufferList.concatenate_eq, List.flatMap_def]

theorem str_discard (n : ℕ) : (l.discard n).2.str = l.str.drop n := by
  rw [str, str, ← List.flatMap_id, ← List.flatMap_id]
  exact Chunks.flatMap_dropFront (fun _ => rfl) (fun v n _ => ⟨v.drop n, rfl, rfl⟩) l.views n

theorem discard_fst (n : ℕ) : (l.discard n).1 =
    if n > l.size then .error (.outOfRange "BufferListView::remove_prefix") else .ok () := by
  rw [size_eq, str, ← List.flatMap_id]
  exact Chunks.dropFront_fst (fun _ => rfl) (fun v n _ => ⟨v.drop n, rfl, rfl⟩) l.views n

variable {l}

/-- Discarding at most the whole string succeeds, wherever the views are split. -/
theorem removePrefix_of_le {n : ℕ} (h : n ≤ l.str.length) :
    ∃ l', l.removePrefix n = .ok l' ∧ l'.str = l.str.drop n := by
  refine ⟨(l.discard n).2, ?_, l.str_discard n⟩
  rw [removePrefix, discard_fst, if_neg (by rw [size_eq]; omega)]
  rfl

theorem removePrefix_ok {n : ℕ} {l' : BufferViewList} (h : l.removePrefix n = .ok l') :
    n ≤ l.str.length ∧ l'.str = l.str.drop n := by
  rw [removePrefix, discard_fst, size_eq] at h
  split at h
  · cases h
  · obtain rfl : (l.discard n).2 = l' := Except.ok.inj h
    exact ⟨by omega, l.str_discard n⟩

end BufferViewList

/-! ### Discontiguous strings as one string -/

/-- The list after some calls of `remove_prefix`; a call that throws leaves its effect behind. -/
def BufferList.removePrefixes (l : BufferList) (ns : List ℕ) : BufferList :=
  ns.foldl (fun l n => (l.removePrefix n).2) l

def BufferViewList.discards (l : BufferViewList) (ns : List ℕ) : BufferViewList :=
  ns.foldl (fun l n => (l.discard n).2) l

theorem BufferList.concatenate_removePrefixes (l : BufferList) (ns : List ℕ) :
    (l.removePrefixes ns).concatenate = l.concatenate.drop ns.sum :=
  Chunks.foldl_drop concatenate_removePrefix ns l

theorem BufferViewList.str_discards (l : BufferViewList) (ns : List ℕ) :
    (l.discards ns).str = l.str.drop ns.sum :=
  Chunks.foldl_drop str_discard ns l

/-- However a list was put together from lists whose buffers may be empty or partly consumed, and whatever was
removed from it, it is the rest of one string; the views made of it at any moment stay equal to it under
the same calls. -/
theorem BufferList.acts_as_string (parts : List BufferList) (ns ms : List ℕ) (n : ℕ) :
    let l := (parts.foldl BufferList.append .empty).removePrefixes ns
    let l' := l.removePrefixes ms
    let views := (BufferViewList.ofBufferList l).discards ms
    l.concatenate = (parts.flatMap BufferList.concatenate).drop ns.sum ∧
    l.size = l.concatenate.length ∧
    (l.removePrefix n).1 =
      (if n > l.size then .error (.outOfRange "BufferList::remove_prefix") else .ok ()) ∧
    (∀ b ∈ l.buffers, ∀ s ∈ b.storage, b.startingOffset ≤ s.length) ∧
    views.str = l'.concatenate ∧ views.size = l'.size ∧
    (views.discard n).1 =
      (if n > l'.size then .error (.outOfRange "BufferListView::remove_prefix") else .ok ()) := by
  intro l l' views
  have hstr : views.str = l'.concatenate := by
    rw [BufferViewList.str_discards, BufferViewList.str_ofBufferList, ← concatenate_removePrefixes]
  have hsize : views.size = l'.size := by
    rw [BufferViewList.size_eq, hstr, size_eq]
  refine ⟨?_, l.size_eq, l.removePrefix_fst n, fun b _ => b.offset_le, hstr, hsize, ?_⟩
  · rw [concatenate_removePrefixes, concatenate_foldl_append]
    rfl
  · rw [BufferViewList.discard_fst, hsize]

end Sponge

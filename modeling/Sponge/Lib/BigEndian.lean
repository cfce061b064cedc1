import Mathlib.Data.UInt
import Mathlib.Algebra.Order.Ring.Nat

/-!
# Numbers in network byte order

`value` reads a list of bytes, most significant first; `bytes` writes the low bytes of a number. On lists
of one length they are inverse to each other.

A host keeps the bytes of a number in an order of its own (`ByteOrder`). `fromNetwork` and `toNetwork` are for
numbers whose bytes were copied from or to a message as they are.
-/

namespace BigEndian

def value (l : List UInt8) : ℕ := l.foldl (fun n b => n * 256 + b.toNat) 0

/-- The low `len` bytes of `n`. -/
def bytes (len n : ℕ) : List UInt8 := (List.range len).map fun i => UInt8.ofNat (n / 256 ^ (len - i - 1))

@[simp] theorem value_nil : value [] = 0 := rfl

theorem value_concat (l : List UInt8) (b : UInt8) : value (l ++ [b]) = value l * 256 + b.toNat := by
  rw [value, value, List.foldl_append]; rfl

theorem value_singleton (b : UInt8) : value [b] = b.toNat := by simp [value]

theorem value_lt (l : List UInt8) : value l < 256 ^ l.length := by
  induction l using List.reverseRecOn with
  | nil => simp
  | append_singleton l b ih =>
    have hb := b.toNat_lt
    rw [value_concat, List.length_append, List.length_singleton, pow_succ]
    omega

@[simp] theorem length_bytes (len n : ℕ) : (bytes len n).length = len := by simp [bytes]

@[simp] theorem bytes_zero (n : ℕ) : bytes 0 n = [] := rfl

theorem bytes_succ (len n : ℕ) : bytes (len + 1) n = bytes len (n / 256) ++ [UInt8.ofNat n] := by
  rw [bytes, List.range_succ, List.map_append, bytes]
  congr 1
  · refine List.map_congr_left fun i hi => ?_
    rw [List.mem_range] at hi
    rw [Nat.div_div_eq_div_mul, show len + 1 - i - 1 = (len - i - 1) + 1 by omega, pow_succ, Nat.mul_comm]
  · simp

theorem value_bytes (len n : ℕ) : value (bytes len n) = n % 256 ^ len := by
  induction len generalizing n with
  | zero => simp [Nat.mod_one]
  | succ len ih =>
    have hsplit : n % 256 ^ (len + 1) = n % 256 + 256 * (n / 256 % 256 ^ len) := by
      rw [pow_succ', Nat.mod_mul]
    have hlow : (UInt8.ofNat n).toNat = n % 256 := UInt8.toNat_ofNat'
    rw [bytes_succ, value_concat, ih, hlow, hsplit, Nat.mul_comm, Nat.add_comm]

theorem bytes_value (l : List UInt8) : bytes l.length (value l) = l := by
  induction l using List.reverseRecOn with
  | nil => rfl
  | append_singleton l b ih =>
    have hb := b.toNat_lt
    have hdiv : (value l * 256 + b.toNat) / 256 = value l := by omega
    have hlow : UInt8.ofNat (value l * 256 + b.toNat) = b := by
      rw [← UInt8.toNat_inj, UInt8.toNat_ofNat']; omega
    rw [List.length_append, List.length_singleton, bytes_succ, value_concat, hdiv, hlow, ih]

end BigEndian

inductive ByteOrder
  | little
  | big
deriving DecidableEq

namespace ByteOrder

open BigEndian

/-- The number kept in these bytes. -/
def load : ByteOrder → List UInt8 → ℕ
  | little, l => value l.reverse
  | big, l => value l

def store : ByteOrder → ℕ → ℕ → List UInt8
  | little, len, n => (bytes len n).reverse
  | big, len, n => bytes len n

variable (o : ByteOrder)

/-- What the bytes that keep `n` say in network byte order. -/
def fromNetwork (len n : ℕ) : ℕ := value (o.store len n)

/-- The number whose bytes are those of `n` in network byte order. -/
def toNetwork (len n : ℕ) : ℕ := o.load (bytes len n)

@[simp] theorem length_store (len n : ℕ) : (o.store len n).length = len := by cases o <;> simp [store]

theorem load_store (len n : ℕ) : o.load (o.store len n) = n % 256 ^ len := by
  cases o with
  | little => rw [store, load, List.reverse_reverse, value_bytes]
  | big => exact value_bytes len n

theorem store_load (l : List UInt8) : o.store l.length (o.load l) = l := by
  cases o with
  | little =>
    have h := bytes_value l.reverse
    rw [List.length_reverse] at h
    rw [load, store, h, List.reverse_reverse]
  | big => exact bytes_value l

theorem load_lt (l : List UInt8) : o.load l < 256 ^ l.length := by
  cases o with
  | little => simpa [load] using value_lt l.reverse
  | big => exact value_lt l

theorem load_eq_iff {l : List UInt8} {n : ℕ} (h : n < 256 ^ l.length) : o.load l = n ↔ l = o.store l.length n := by
  constructor
  · rintro rfl
    exact (o.store_load l).symm
  · intro hl
    rw [hl, load_store, Nat.mod_eq_of_lt h]

theorem fromNetwork_load (l : List UInt8) : o.fromNetwork l.length (o.load l) = value l := by
  rw [fromNetwork, store_load]

theorem store_toNetwork (len n : ℕ) : o.store len (o.toNetwork len n) = bytes len n := by
  have h := o.store_load (bytes len n)
  rwa [length_bytes] at h

end ByteOrder

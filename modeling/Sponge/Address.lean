import Sponge.Buffer
import Sponge.Lib.BigEndian
import Mathlib.Data.List.Basic

/-!
# Socket addresses (`libsponge/util/address.cc`)

An `Address` keeps the bytes of a `sockaddr` of any kind and their number. Every constructor copies into storage
that was zero, so what is behind the address is zero, and `operator==`, which compares the bytes of the address
only, is equality (`beq_iff`).

`ipv4_numeric` and `from_ipv4_numeric` go through a `sockaddr_in`. Its family is in the order of the host, the
port and the number are in network byte order; the number read is the same on every host (`ipv4_numeric_exact`).
-/

namespace Sponge

open BigEndian

/-- `sizeof(sockaddr_storage)`. -/
def ssSize : ℕ := 128

structure Address where
  size : ℕ
  storage : List UInt8
  length_storage : storage.length = ssSize
  size_le : size ≤ ssSize
  drop_size : storage.drop size = List.replicate (ssSize - size) 0
deriving DecidableEq

namespace Address

/-- Memory of `n` bytes that was zero, after the bytes `l` were copied to its beginning. -/
def memcpy (n : ℕ) (l : List UInt8) : List UInt8 := l ++ List.replicate (n - l.length) 0

theorem length_memcpy {n : ℕ} {l : List UInt8} (h : l.length ≤ n) : (memcpy n l).length = n := by
  rw [memcpy, List.length_append, List.length_replicate]; omega

theorem drop_memcpy {n k : ℕ} {l : List UInt8} (h : l.length ≤ k) :
    (memcpy n l).drop k = List.replicate (n - k) 0 := by
  rw [memcpy, List.drop_append, List.drop_of_length_le h, List.nil_append, List.drop_replicate]
  congr 1
  omega

/-- The constructor from a `sockaddr`; `addr` is the memory it points to. -/
def ofSockaddr (addr : List UInt8) (size : ℕ) : Except Exception Address :=
  if h : size > ssSize then .error (.runtimeError "invalid sockaddr size")
  else
    have hlen : (addr.take size).length ≤ size := List.length_take_le ..
    .ok ⟨size, memcpy ssSize (addr.take size), length_memcpy (hlen.trans (Nat.not_lt.1 h)), Nat.not_lt.1 h,
      drop_memcpy hlen⟩

variable (a b : Address)

/-- The address as it is given to the kernel. -/
def bytes : List UInt8 := a.storage.take a.size

/-- `operator==`. -/
def beq : Bool := if a.size ≠ b.size then false else a.storage.take a.size == b.storage.take a.size

theorem length_bytes : a.bytes.length = a.size := by
  rw [bytes, List.length_take, a.length_storage, Nat.min_eq_left a.size_le]

theorem storage_eq : a.storage = a.bytes ++ List.replicate (ssSize - a.size) 0 := by
  rw [bytes, ← a.drop_size, List.take_append_drop]

variable {a b}

theorem eq_of_bytes (h : a.bytes = b.bytes) : a = b := by
  have hsize : a.size = b.size := by rw [← length_bytes, ← length_bytes, h]
  have hstorage : a.storage = b.storage := by rw [storage_eq, storage_eq, h, hsize]
  cases a
  cases b
  simp only at hsize hstorage
  subst hsize hstorage
  rfl

theorem beq_iff : a.beq b = true ↔ a = b := by
  unfold beq
  split
  · rename_i hne
    exact ⟨nofun, fun h => absurd (h ▸ rfl) hne⟩
  · rename_i heq
    have hsize : a.size = b.size := Decidable.not_not.1 heq
    rw [beq_iff_eq]
    constructor
    · intro h
      refine eq_of_bytes ?_
      rw [bytes, bytes, ← hsize, h]
    · rintro rfl
      rfl

theorem exists_ofSockaddr {addr : List UInt8} (h : addr.length ≤ ssSize) :
    ∃ a, ofSockaddr addr addr.length = .ok a ∧ a.bytes = addr := by
  unfold ofSockaddr
  rw [dif_neg (Nat.not_lt.2 h)]
  refine ⟨_, rfl, ?_⟩
  show (memcpy ssSize (addr.take addr.length)).take addr.length = addr
  rw [List.take_length, memcpy, List.take_left]

/-- Whatever is in memory behind an address, it is read back from there. -/
theorem ofSockaddr_bytes (a : Address) (rest : List UInt8) : ofSockaddr (a.bytes ++ rest) a.size = .ok a := by
  have htake : (a.bytes ++ rest).take a.size = a.bytes := by
    rw [← a.length_bytes, List.take_left]
  unfold ofSockaddr
  rw [dif_neg (Nat.not_lt.2 a.size_le)]
  refine congrArg Except.ok (eq_of_bytes ?_)
  show (memcpy ssSize ((a.bytes ++ rest).take a.size)).take a.size = a.bytes
  rw [htake, memcpy, ← a.length_bytes, List.take_left]

/-! ### IPv4 -/

section
variable (o : ByteOrder)

def afInet : ℕ := 2

/-- `sizeof(sockaddr_in)`. -/
def sockaddrInSize : ℕ := 16

/-- The bytes of a `sockaddr_in`: the family, the port, the number of the host as it is in memory, and padding. -/
def sockaddrIn (port : List UInt8) (sAddr : ℕ) (zero : List UInt8) : List UInt8 :=
  o.store 2 afInet ++ port ++ o.store 4 sAddr ++ zero

def htobe32 (n : UInt32) : UInt32 := UInt32.ofNat (o.toNetwork 4 n.toNat)

def be32toh (n : UInt32) : UInt32 := UInt32.ofNat (o.fromNetwork 4 n.toNat)

def ipv4Numeric (a : Address) : Except Exception UInt32 :=
  if o.load (a.storage.take 2) ≠ afInet ∨ a.size ≠ sockaddrInSize then
    .error (.runtimeError "ipv4_numeric called on non-IPV4 address")
  else
    let ipv4Addr := memcpy sockaddrInSize (a.storage.take a.size)
    .ok (be32toh o (UInt32.ofNat (o.load ((ipv4Addr.drop 4).take 4))))

def fromIpv4Numeric (ipAddress : UInt32) : Except Exception Address :=
  ofSockaddr (sockaddrIn o [0, 0] (htobe32 o ipAddress).toNat (List.replicate 8 0)) sockaddrInSize

end

section
variable {o : ByteOrder}

theorem store_htobe32 (n : UInt32) : o.store 4 (htobe32 o n).toNat = BigEndian.bytes 4 n.toNat := by
  have hlt : o.toNetwork 4 n.toNat < 2 ^ 32 := by
    simpa [ByteOrder.toNetwork] using o.load_lt (BigEndian.bytes 4 n.toNat)
  rw [htobe32, UInt32.toNat_ofNat', Nat.mod_eq_of_lt hlt, o.store_toNetwork]

theorem be32toh_load {l : List UInt8} (h : l.length = 4) :
    be32toh o (UInt32.ofNat (o.load l)) = UInt32.ofNat (value l) := by
  have hlt : o.load l < 2 ^ 32 := by simpa [h] using o.load_lt l
  rw [be32toh, UInt32.toNat_ofNat', Nat.mod_eq_of_lt hlt, ← h, o.fromNetwork_load]

theorem ofNat_value_eq_iff {l : List UInt8} (h : l.length = 4) {n : UInt32} :
    UInt32.ofNat (value l) = n ↔ l = BigEndian.bytes 4 n.toNat := by
  have hlt : value l < 2 ^ 32 := by simpa [h] using value_lt l
  constructor
  · rintro rfl
    rw [UInt32.toNat_ofNat', Nat.mod_eq_of_lt hlt, ← h, bytes_value]
  · intro hl
    have hn : n.toNat < 256 ^ 4 := n.toNat_lt
    rw [hl, value_bytes, Nat.mod_eq_of_lt hn, UInt32.ofNat_toNat]

/-- The number is read from four bytes of the address, in network byte order. -/
theorem ipv4Numeric_of_size (h : a.size = sockaddrInSize) : a.ipv4Numeric o =
    if a.bytes.take 2 = o.store 2 afInet then .ok (UInt32.ofNat (value ((a.bytes.drop 4).take 4)))
    else .error (.runtimeError "ipv4_numeric called on non-IPV4 address") := by
  have hlen : a.bytes.length = 16 := a.length_bytes.trans h
  have hfamily : o.load (a.storage.take 2) = afInet ↔ a.bytes.take 2 = o.store 2 afInet := by
    have htwo : (a.bytes.take 2).length = 2 := by rw [List.length_take, hlen]; rfl
    have hstorage : a.storage.take 2 = a.bytes.take 2 := by
      rw [storage_eq, List.take_append_of_le_length (by omega)]
    rw [hstorage, o.load_eq_iff (by rw [htwo]; decide), htwo]
  have hcopy : memcpy sockaddrInSize (a.storage.take a.size) = a.bytes := by
    rw [← bytes, memcpy, hlen, show sockaddrInSize - 16 = 0 from rfl, List.replicate_zero, List.append_nil]
  unfold ipv4Numeric
  dsimp only
  rw [hcopy, be32toh_load (by rw [List.length_take, List.length_drop, hlen]; rfl)]
  by_cases hf : a.bytes.take 2 = o.store 2 afInet
  · rw [if_neg (not_or.2 ⟨not_not.2 (hfamily.2 hf), not_not.2 h⟩), if_pos hf]
  · rw [if_pos (.inl fun hl => hf (hfamily.1 hl)), if_neg hf]

theorem ipv4Numeric_eq_ok_iff {n : UInt32} : a.ipv4Numeric o = .ok n ↔
    ∃ port zero, port.length = 2 ∧ zero.length = 8 ∧
      a.bytes = o.store 2 afInet ++ port ++ BigEndian.bytes 4 n.toNat ++ zero := by
  constructor
  · intro h
    have hsize : a.size = sockaddrInSize := by
      by_contra hne
      rw [ipv4Numeric, if_pos (.inr hne)] at h
      cases h
    have hlen : a.bytes.length = 16 := a.length_bytes.trans hsize
    rw [ipv4Numeric_of_size hsize] at h
    split at h
    · rename_i hfamily
      have hnum := (ofNat_value_eq_iff (by rw [List.length_take, List.length_drop, hlen]; rfl)).1 (Except.ok.inj h)
      refine ⟨(a.bytes.drop 2).take 2, a.bytes.drop 8, ?_, ?_, ?_⟩
      · rw [List.length_take, List.length_drop, hlen]; rfl
      · rw [List.length_drop, hlen]
      · rw [← hfamily, ← hnum, ← List.take_add, ← List.take_add, List.take_append_drop]
    · cases h
  · rintro ⟨port, zero, hport, hzero, hbytes⟩
    have hsize : a.size = sockaddrInSize := by
      rw [← length_bytes, hbytes]
      simp [hport, hzero, sockaddrInSize]
    have hfamily : a.bytes.take 2 = o.store 2 afInet := by
      rw [hbytes, List.append_assoc, List.append_assoc]
      exact List.take_left' (o.length_store 2 afInet)
    have hnum : (a.bytes.drop 4).take 4 = BigEndian.bytes 4 n.toNat := by
      rw [hbytes, List.append_assoc, List.drop_left' (by simp [hport])]
      exact List.take_left' (BigEndian.length_bytes 4 n.toNat)
    rw [ipv4Numeric_of_size hsize, if_pos hfamily, hnum, (ofNat_value_eq_iff (BigEndian.length_bytes ..)).2 rfl]

end

/-- On a host of either byte order: `ipv4_numeric` gives `n` exactly for the addresses of the family that have
the bytes of `n` in network byte order, whatever their port; and the address made from `n` is the one among
them with port `0` and no padding. -/
theorem ipv4_numeric_exact (o : ByteOrder) (n : UInt32) (b : Address) :
    (b.ipv4Numeric o = .ok n ↔ ∃ port zero, port.length = 2 ∧ zero.length = 8 ∧
      b.bytes = o.store 2 afInet ++ port ++ BigEndian.bytes 4 n.toNat ++ zero) ∧
    ∃ a, fromIpv4Numeric o n = .ok a ∧ a.ipv4Numeric o = .ok n ∧
      (b.beq a = true ↔
        b.bytes = o.store 2 afInet ++ [0, 0] ++ BigEndian.bytes 4 n.toNat ++ List.replicate 8 0) := by
  have hlen : (o.store 2 afInet ++ [0, 0] ++ BigEndian.bytes 4 n.toNat ++ List.replicate 8 0).length =
      sockaddrInSize := by simp [sockaddrInSize]
  obtain ⟨a, ha, hbytes⟩ := exists_ofSockaddr (hlen.le.trans (by decide))
  rw [hlen, ← store_htobe32] at ha
  refine ⟨ipv4Numeric_eq_ok_iff, a, ha, ipv4Numeric_eq_ok_iff.2 ⟨[0, 0], _, rfl, List.length_replicate, hbytes⟩, ?_⟩
  rw [beq_iff, ← hbytes]
  exact ⟨fun h => h ▸ rfl, eq_of_bytes⟩

end Address
end Sponge

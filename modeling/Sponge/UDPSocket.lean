import Mathlib.Data.Multiset.AddSub
import Mathlib.Logic.Function.Basic
import Sponge.Address
import Sponge.StreamPair
import Sponge.TCPHeader

/-!
# Datagram sockets (`libsponge/util/socket.cc`, `doctests/socket_example_1.cc`)

Any number of sockets send and receive in any order, over a network that may lose, copy and reorder datagrams.
The kernel is what the manual pages say (`Documented`): `sendmsg` takes the first bytes of what it is given, as
many as it says, as one datagram; `recvfrom` with `MSG_TRUNC` hands out one datagram that is addressed to the
socket, cut to the buffer, and returns the length that it had. The sockets are bound to one address each.

`history` is what the program saw of that. Nothing is made up, merged or cut on the way into the program: what
entered the network is what was returned by `recv`, was refused by it or was lost, and what is on the way
(`datagrams_conserved`). A datagram that is cut short on the way out makes the send throw, and one that is too
long for the buffer makes `recv` throw; it is gone then, and the read is not counted.
-/

namespace Sponge

open TCPHeader (resize)

/-- What `recvfrom` returned, and what it has put into the buffer, the address and the length of the address. -/
structure RecvfromReturn where
  result : SyscallReturn
  data : List UInt8
  address : List UInt8
  fromlen : ℕ

structure ReceivedDatagram where
  sourceAddress : Address
  payload : List UInt8
deriving DecidableEq

/-- The part of a `msghdr` that is set. -/
structure Msghdr where
  name : Option Address
  iov : List (List UInt8)

/-- The conversion of a `size_t` to `ssize_t`. -/
def toSsizeT (n : ℕ) : ℤ := (n : ℤ).bmod (2 ^ 64)

namespace UDPSocket

variable (w : FDWrapper)

/-- `UDPSocket::recv` into a datagram of the caller's. -/
def recv (datagram : ReceivedDatagram) (mtu : ℕ) (r : RecvfromReturn) :
    Except Exception Unit × FDWrapper × ReceivedDatagram :=
  let payload := resize datagram.payload mtu
  let payload := r.data ++ payload.drop r.data.length
  match systemCall "recvfrom" (toInt r.result.value) r.result.errno 0 with
  | .error e => (.error e, w, { datagram with payload })
  | .ok recvLen =>
    if recvLen > toSsizeT mtu then
      (.error (.runtimeError "recvfrom (oversized datagram)"), w, { datagram with payload })
    else
      let w := w.registerRead
      match Address.ofSockaddr (Address.memcpy ssSize r.address) r.fromlen with
      | .error e => (.error e, w, { datagram with payload })
      | .ok sourceAddress => (.ok (), w, ⟨sourceAddress, resize payload (toSizeT recvLen)⟩)

/-- `sendmsg_helper`, with the message that the kernel was given. -/
def sendmsgHelper (destination : Option Address) (payload : BufferViewList) (r : SyscallReturn) :
    Except Exception Unit × Msghdr :=
  let message : Msghdr := ⟨destination, payload.asIovecs⟩
  match systemCall "sendmsg" (toInt r.value) r.errno 0 with
  | .error e => (.error e, message)
  | .ok bytesSent =>
    if toSizeT bytesSent ≠ payload.size then
      (.error (.runtimeError "datagram payload too big for sendmsg()"), message)
    else (.ok (), message)

def sendWith (destination : Option Address) (payload : BufferViewList) (r : SyscallReturn) :
    Except Exception Unit × FDWrapper × Msghdr :=
  match sendmsgHelper destination payload r with
  | (.error e, message) => (.error e, w, message)
  | (.ok _, message) => (.ok (), w.registerWrite, message)

def sendto (destination : Address) (payload : BufferViewList) (r : SyscallReturn) :
    Except Exception Unit × FDWrapper × Msghdr := sendWith w (some destination) payload r

def send (payload : BufferViewList) (r : SyscallReturn) : Except Exception Unit × FDWrapper × Msghdr :=
  sendWith w none payload r

end UDPSocket

structure Datagram where
  source : Address
  destination : Address
  payload : List UInt8
deriving DecidableEq

/-- The kernel has handed out the datagram `d`, to a buffer of `mtu` bytes. -/
structure RecvfromReturn.HandsOut (r : RecvfromReturn) (d : Datagram) (mtu : ℕ) : Prop where
  value : r.result.value = d.payload.length
  data : r.data = d.payload.take mtu
  address : r.address = d.source.bytes
  fromlen : r.fromlen = d.source.size

namespace UDPSocket
variable {w : FDWrapper} {destination : Option Address} {payload : BufferViewList} {r : SyscallReturn}

theorem toSsizeT_of_lt {n : ℕ} (h : n < 2 ^ 63) : toSsizeT n = n := by
  unfold toSsizeT
  rw [Int.bmod_eq_of_le (by omega) (by omega)]

theorem sendWith_of_neg (h : r.value < 0) :
    sendWith w destination payload r = (.error (.unixError "sendmsg" r.errno), w, ⟨destination, payload.views⟩) := by
  rw [sendWith, sendmsgHelper, systemCall_of_neg "sendmsg" h, payload.asIovecs_eq]

theorem sendWith_of_whole (h : r.value = payload.str.length) (hlt : r.value < 2 ^ 31) :
    sendWith w destination payload r = (.ok (), w.registerWrite, ⟨destination, payload.views⟩) := by
  have hsize : toSizeT r.value = payload.size := by
    rw [toSizeT_of_nonneg (by omega) hlt, payload.size_eq, h, Int.toNat_natCast]
  rw [sendWith, sendmsgHelper, systemCall_of_nonneg "sendmsg" (by omega) hlt, payload.asIovecs_eq]
  dsimp only
  rw [if_neg (not_not.2 hsize)]

theorem sendWith_of_short (h : 0 ≤ r.value) (hshort : r.value < payload.str.length) (hlt : r.value < 2 ^ 31) :
    sendWith w destination payload r =
      (.error (.runtimeError "datagram payload too big for sendmsg()"), w, ⟨destination, payload.views⟩) := by
  have hsize : toSizeT r.value ≠ payload.size := by
    rw [toSizeT_of_nonneg h hlt, payload.size_eq]
    omega
  rw [sendWith, sendmsgHelper, systemCall_of_nonneg "sendmsg" h hlt, payload.asIovecs_eq]
  dsimp only
  rw [if_pos hsize]

section
variable {datagram : ReceivedDatagram} {mtu : ℕ} {r : RecvfromReturn} {d : Datagram}

theorem recv_of_neg (h : r.result.value < 0) :
    ∃ got, recv w datagram mtu r = (.error (.unixError "recvfrom" r.result.errno), w, got) := by
  unfold recv
  rw [systemCall_of_neg "recvfrom" h]
  exact ⟨_, rfl⟩

variable (h : r.HandsOut d mtu) (hlen : d.payload.length < 2 ^ 31) (hmtu : mtu < 2 ^ 63)
include h hlen hmtu

/-- A datagram that fits is returned as it was sent, whatever was in the caller's datagram before. -/
theorem recv_of_fits (hle : d.payload.length ≤ mtu) :
    recv w datagram mtu r = (.ok (), w.registerRead, ⟨d.source, d.payload⟩) := by
  have hvalue := h.value
  have haddr : Address.ofSockaddr (Address.memcpy ssSize r.address) r.fromlen = .ok d.source := by
    rw [h.address, h.fromlen]
    exact d.source.ofSockaddr_bytes _
  have hpayload : ∀ rest, resize (r.data ++ rest) (toSizeT r.result.value) = d.payload := by
    intro rest
    rw [toSizeT_of_nonneg (by omega) (by omega), hvalue, Int.toNat_natCast, h.data, List.take_of_length_le hle, resize,
      List.take_left, List.length_append, Nat.sub_eq_zero_of_le (by omega), List.replicate_zero, List.append_nil]
  unfold recv
  dsimp only
  rw [systemCall_of_nonneg "recvfrom" (by omega) (by omega)]
  dsimp only
  rw [if_neg (by rw [toSsizeT_of_lt hmtu]; omega), haddr]
  dsimp only
  rw [hpayload]

theorem recv_of_oversized (hlt : mtu < d.payload.length) :
    ∃ got, recv w datagram mtu r = (.error (.runtimeError "recvfrom (oversized datagram)"), w, got) := by
  have hvalue := h.value
  unfold recv
  dsimp only
  rw [systemCall_of_nonneg "recvfrom" (by omega) (by omega)]
  dsimp only
  rw [if_pos (by rw [toSsizeT_of_lt hmtu]; omega)]
  exact ⟨_, rfl⟩

end
end UDPSocket

/-- The sockets, the addresses they are bound to, by `bind` or else by the kernel, those they are connected to,
and the datagrams on the way. -/
structure Net (ι : Type) where
  sockets : ι → FDWrapper
  addresses : ι → Address
  peers : ι → Option Address
  wire : Multiset Datagram

namespace Net

variable {ι : Type} [DecidableEq ι]

def init (fds : ι → ℕ) (addresses : ι → Address) : Net ι :=
  ⟨fun i => ⟨fds i, false, false, 0, 0, Int.natCast_nonneg _⟩, addresses, fun _ => none, 0⟩

/-- A call of one of the sockets with the answer of the kernel, or something that the network does. `recv` says
which datagram the kernel has handed out, if it has. -/
inductive Op (ι : Type)
  | bind (i : ι) (address : Address) (r : SyscallReturn)
  | connect (i : ι) (address : Address) (r : SyscallReturn)
  | sendto (i : ι) (destination : Address) (payload : BufferViewList) (r : SyscallReturn)
  | send (i : ι) (payload : BufferViewList) (r : SyscallReturn)
  | recv (i : ι) (datagram : ReceivedDatagram) (mtu : ℕ) (r : RecvfromReturn) (d : Option Datagram)
  | lose (d : Datagram)
  | copy (d : Datagram)

variable (s : Net ι)

/-- The datagram that the kernel makes of a message, if it takes it. -/
def datagramOf (i : ι) (message : Msghdr) (r : SyscallReturn) : Option Datagram :=
  if 0 ≤ r.value then
    (message.name <|> s.peers i).map fun destination =>
      ⟨s.addresses i, destination, message.iov.flatten.take r.value.toNat⟩
  else none

/-- A socket has sent, with the given outcome. -/
def transmit (i : ι) (r : SyscallReturn) (out : Except Exception Unit × FDWrapper × Msghdr) : Net ι :=
  { s with
    sockets := Function.update s.sockets i out.2.1
    wire := ↑(s.datagramOf i out.2.2 r).toList + s.wire }

def Op.apply : Op ι → Net ι
  | .bind i address r =>
    match systemCall "bind" (toInt r.value) r.errno 0 with
    | .error _ => s
    | .ok _ => { s with addresses := Function.update s.addresses i address }
  | .connect i address r =>
    match systemCall "connect" (toInt r.value) r.errno 0 with
    | .error _ => s
    | .ok _ => { s with peers := Function.update s.peers i (some address) }
  | .sendto i destination payload r => s.transmit i r (UDPSocket.sendto (s.sockets i) destination payload r)
  | .send i payload r => s.transmit i r (UDPSocket.send (s.sockets i) payload r)
  | .recv i datagram mtu r d =>
    { s with
      sockets := Function.update s.sockets i (UDPSocket.recv (s.sockets i) datagram mtu r).2.1
      wire := s.wire - ↑d.toList }
  | .lose d => { s with wire := s.wire.erase d }
  | .copy d => { s with wire := d ::ₘ s.wire }

def machine (fds : ι → ℕ) (addresses : ι → Address) : Machine (Net ι) (Op ι) := ⟨init fds addresses, Op.apply⟩

/-- What the kernel may answer. A string is shorter than `2 ^ 63`. -/
def Documented : Op ι → Prop
  | .bind _ _ r => r.value ≤ 0
  | .connect _ _ r => r.value ≤ 0
  | .sendto _ _ payload r => r.value ≤ payload.str.length ∧ r.value < 2 ^ 31
  | .send i payload r => (r.value ≤ payload.str.length ∧ r.value < 2 ^ 31) ∧ (s.peers i = none → r.value < 0)
  | .recv _ _ _ r none => r.result.value < 0
  | .recv i _ mtu r (some d) => r.HandsOut d mtu ∧ d ∈ s.wire ∧ d.destination = s.addresses i ∧ mtu < 2 ^ 63
  | .lose d => d ∈ s.wire
  | .copy d => d ∈ s.wire

/-- What happens to a datagram, as far as the program can tell: `sent` by a send that returned and `cut` by one
that threw, `returned` by `recv` and `refused` by one that threw. -/
inductive Event (ι : Type)
  | sent (i : ι) (d : Datagram)
  | cut (i : ι) (whole : List UInt8) (d : Datagram)
  | copied (d : Datagram)
  | returned (i : ι) (d : Datagram)
  | refused (i : ι) (mtu : ℕ) (d : Datagram)
  | lost (d : Datagram)
deriving DecidableEq

namespace Event

/-- The datagram that has entered the network. -/
def entered : Event ι → Option Datagram
  | .sent _ d | .cut _ _ d | .copied d => some d
  | .returned _ _ | .refused _ _ _ | .lost _ => none

/-- The datagram that has left the network. -/
def left : Event ι → Option Datagram
  | .sent _ _ | .cut _ _ _ | .copied _ => none
  | .returned _ d | .refused _ _ d | .lost d => some d

def isSent (i : ι) : Event ι → Bool
  | .sent j _ => j = i
  | _ => false

def isReturned (i : ι) : Event ι → Bool
  | .returned j _ => j = i
  | _ => false

/-- The counts of the sockets have changed by this event. -/
def Counts (x : Event ι) (before after : ι → FDWrapper) : Prop :=
  ∀ j, (after j).readCount = (before j).readCount + (if x.isReturned j then 1 else 0) ∧
    (after j).writeCount = (before j).writeCount + (if x.isSent j then 1 else 0)

/-- Why a call has thrown. -/
def Explained : Event ι → Prop
  | .cut _ whole d => d.payload <+: whole ∧ d.payload ≠ whole
  | .refused _ mtu d => mtu < d.payload.length
  | _ => True

variable {x : Event ι} {sockets : ι → FDWrapper}

theorem counts_self (h : ∀ j, x.isReturned j = false ∧ x.isSent j = false) : x.Counts sockets sockets := by
  intro j
  rw [(h j).1, (h j).2]
  exact ⟨(UInt32.add_zero _).symm, (UInt32.add_zero _).symm⟩

theorem counts_returned (i : ι) (d : Datagram) :
    (returned i d).Counts sockets (Function.update sockets i (sockets i).registerRead) := by
  intro j
  by_cases hj : j = i
  · subst hj
    simp [isReturned, isSent, FDWrapper.registerRead]
  · simp [isReturned, isSent, hj, Ne.symm hj]

theorem counts_sent (i : ι) (d : Datagram) :
    (sent i d).Counts sockets (Function.update sockets i (sockets i).registerWrite) := by
  intro j
  by_cases hj : j = i
  · subst hj
    simp [isReturned, isSent, FDWrapper.registerWrite]
  · simp [isReturned, isSent, hj, Ne.symm hj]

end Event

/-- What a send comes to. If it returned, it has sent all of its payload. -/
def sendEvents (i : ι) (payload : BufferViewList) (r : SyscallReturn)
    (out : Except Exception Unit × FDWrapper × Msghdr) : List (Event ι) :=
  match out.1 with
  | .ok _ =>
    ((out.2.2.name <|> s.peers i).map fun destination => .sent i ⟨s.addresses i, destination, payload.str⟩).toList
  | .error _ => ((s.datagramOf i out.2.2 r).map (.cut i payload.str)).toList

def events : Op ι → List (Event ι)
  | .bind _ _ _ => []
  | .connect _ _ _ => []
  | .sendto i destination payload r =>
    s.sendEvents i payload r (UDPSocket.sendto (s.sockets i) destination payload r)
  | .send i payload r => s.sendEvents i payload r (UDPSocket.send (s.sockets i) payload r)
  | .recv i datagram mtu r d =>
    match UDPSocket.recv (s.sockets i) datagram mtu r with
    | (.ok _, _, got) => [.returned i ⟨got.sourceAddress, s.addresses i, got.payload⟩]
    | (.error _, _, _) => (d.map (.refused i mtu)).toList
  | .lose d => [.lost d]
  | .copy d => [.copied d]

/-- What the state says about the events that led to it. -/
structure Balanced (events : List (Event ι)) : Prop where
  wire : (events.filterMap Event.entered : Multiset Datagram) = (events.filterMap Event.left : Multiset Datagram) + s.wire
  short : ∀ d ∈ s.wire, d.payload.length < 2 ^ 31
  explained : ∀ x ∈ events, x.Explained
  reads : ∀ i, (s.sockets i).readCount = UInt32.ofNat (events.countP (Event.isReturned i))
  writes : ∀ i, (s.sockets i).writeCount = UInt32.ofNat (events.countP (Event.isSent i))

theorem balanced_init (fds : ι → ℕ) (addresses : ι → Address) : (init fds addresses).Balanced [] where
  wire := rfl
  short d hd := absurd hd (Multiset.notMem_zero d)
  explained x hx := by cases hx
  reads _ := rfl
  writes _ := rfl

variable {s}

/-- A send whose kernel takes the first bytes: it fails and nothing is sent, or throws and a part is sent, or it
returns and all is sent. -/
theorem transmit_cases {i : ι} {destination : Option Address} {payload : BufferViewList} {r : SyscallReturn}
    (hle : r.value ≤ payload.str.length) (hlt : r.value < 2 ^ 31)
    (htarget : (destination <|> s.peers i) = none → r.value < 0) {out : Except Exception Unit × FDWrapper × Msghdr}
    (hout : UDPSocket.sendWith (s.sockets i) destination payload r = out) :
    (s.transmit i r out = s ∧ s.sendEvents i payload r out = []) ∨
    (∃ d, (d.payload <+: payload.str ∧ d.payload ≠ payload.str) ∧ d.payload.length < 2 ^ 31 ∧
      s.transmit i r out = { s with wire := d ::ₘ s.wire } ∧
      s.sendEvents i payload r out = [.cut i payload.str d]) ∨
    ∃ d, d.payload.length < 2 ^ 31 ∧ s.transmit i r out =
      { s with sockets := Function.update s.sockets i (s.sockets i).registerWrite, wire := d ::ₘ s.wire } ∧
      s.sendEvents i payload r out = [.sent i d] := by
  by_cases hneg : r.value < 0
  · have hnone : s.datagramOf i ⟨destination, payload.views⟩ r = none := if_neg (by omega)
    rw [UDPSocket.sendWith_of_neg hneg] at hout
    subst hout
    refine .inl ⟨?_, ?_⟩
    · simp [Net.transmit, hnone]
    · simp [sendEvents, hnone]
  obtain ⟨target, ht⟩ : ∃ target, (destination <|> s.peers i) = some target :=
    Option.ne_none_iff_exists'.1 fun hn => hneg (htarget hn)
  have hsome : s.datagramOf i ⟨destination, payload.views⟩ r =
      some ⟨s.addresses i, target, payload.str.take r.value.toNat⟩ := by
    rw [datagramOf, if_pos (by omega), ht]
    rfl
  have hlen : (payload.str.take r.value.toNat).length = r.value.toNat := by
    rw [List.length_take]
    omega
  rcases Int.lt_or_eq_of_le hle with hcut | hwhole
  · rw [UDPSocket.sendWith_of_short (by omega) hcut hlt] at hout
    subst hout
    refine .inr (.inl ⟨⟨s.addresses i, target, payload.str.take r.value.toNat⟩, ⟨List.take_prefix .., fun heq => ?_⟩,
      by dsimp only; omega, ?_, ?_⟩)
    · dsimp only at heq
      rw [heq] at hlen
      omega
    · simp [Net.transmit, hsome]
    · simp [sendEvents, hsome]
  · rw [UDPSocket.sendWith_of_whole hwhole hlt] at hout
    subst hout
    rw [show payload.str.take r.value.toNat = payload.str by rw [hwhole]; simp] at hsome
    refine .inr (.inr ⟨⟨s.addresses i, target, payload.str⟩, by dsimp only; omega, ?_, ?_⟩)
    · simp [Net.transmit, hsome]
    · simp [sendEvents, ht]

/-- A receive without a datagram, with one that is too long, and with one that fits. -/
theorem recv_cases (hshort : ∀ d ∈ s.wire, d.payload.length < 2 ^ 31) {i : ι} {datagram : ReceivedDatagram} {mtu : ℕ}
    {r : RecvfromReturn} {d : Option Datagram} (hop : s.Documented (.recv i datagram mtu r d)) :
    (Op.apply s (.recv i datagram mtu r d) = s ∧ s.events (.recv i datagram mtu r d) = []) ∨
    (∃ d', d' ∈ s.wire ∧ mtu < d'.payload.length ∧
      Op.apply s (.recv i datagram mtu r d) = { s with wire := s.wire.erase d' } ∧
      s.events (.recv i datagram mtu r d) = [.refused i mtu d']) ∨
    ∃ d', d' ∈ s.wire ∧ Op.apply s (.recv i datagram mtu r d) =
      { s with sockets := Function.update s.sockets i (s.sockets i).registerRead, wire := s.wire.erase d' } ∧
      s.events (.recv i datagram mtu r d) = [.returned i d'] := by
  cases d with
  | none =>
    obtain ⟨got, hout⟩ : ∃ got, UDPSocket.recv (s.sockets i) datagram mtu r = _ := UDPSocket.recv_of_neg hop
    exact .inl ⟨by simp [Op.apply, hout], by simp [events, hout]⟩
  | some d =>
    obtain ⟨hr, hd, hdest, hmtu⟩ := hop
    by_cases hle : d.payload.length ≤ mtu
    · have hout : UDPSocket.recv (s.sockets i) datagram mtu r = _ := UDPSocket.recv_of_fits hr (hshort d hd) hmtu hle
      refine .inr (.inr ⟨d, hd, by simp [Op.apply, hout], ?_⟩)
      simp only [events, hout, ← hdest]
    · obtain ⟨got, hout⟩ : ∃ got, UDPSocket.recv (s.sockets i) datagram mtu r = _ :=
        UDPSocket.recv_of_oversized hr (hshort d hd) hmtu (by omega)
      exact .inr (.inl ⟨d, hd, by omega, by simp [Op.apply, hout], by simp [events, hout]⟩)

namespace Balanced
variable {events : List (Event ι)}

/-- A step without an event. -/
theorem of_eq (h : s.Balanced events) {s' : Net ι} (hsockets : s'.sockets = s.sockets) (hwire : s'.wire = s.wire) :
    s'.Balanced (events ++ []) := by
  rw [List.append_nil]
  exact ⟨by rw [hwire]; exact h.wire, by rw [hwire]; exact h.short, h.explained, by rw [hsockets]; exact h.reads,
    by rw [hsockets]; exact h.writes⟩

theorem concat (h : s.Balanced events) {s' : Net ι} {x : Event ι}
    (hwire : (x.entered.toList : Multiset Datagram) + s.wire = (x.left.toList : Multiset Datagram) + s'.wire)
    (hshort : ∀ d ∈ s'.wire, d.payload.length < 2 ^ 31) (hexplained : x.Explained)
    (hcounts : x.Counts s.sockets s'.sockets) : s'.Balanced (events ++ [x]) where
  wire := by
    rw [List.filterMap_append, List.filterMap_append, ← Multiset.coe_add, ← Multiset.coe_add, h.wire,
      Multiset.add_assoc, Multiset.add_assoc, Multiset.add_comm s.wire]
    have hone : ∀ f : Event ι → Option Datagram, [x].filterMap f = (f x).toList := by
      intro f
      cases hf : f x <;> simp [hf]
    rw [hone, hone, hwire]
  short := hshort
  explained := List.forall_mem_append.2 ⟨h.explained, List.forall_mem_singleton.2 hexplained⟩
  reads i := by
    rw [(hcounts i).1, h.reads, List.countP_append, List.countP_singleton, UInt32.ofNat_add]
    split <;> rfl
  writes i := by
    rw [(hcounts i).2, h.writes, List.countP_append, List.countP_singleton, UInt32.ofNat_add]
    split <;> rfl

theorem enter (h : s.Balanced events) {s' : Net ι} {x : Event ι} {d : Datagram} (hwire : s'.wire = d ::ₘ s.wire)
    (hentered : x.entered = some d) (hleft : x.left = none) (hlen : d.payload.length < 2 ^ 31)
    (hexplained : x.Explained) (hcounts : x.Counts s.sockets s'.sockets) : s'.Balanced (events ++ [x]) := by
  refine h.concat ?_ ?_ hexplained hcounts
  · simp [hentered, hleft, hwire]
  · rw [hwire]
    exact Multiset.forall_mem_cons.2 ⟨hlen, h.short⟩

theorem leave (h : s.Balanced events) {s' : Net ι} {x : Event ι} {d : Datagram} (hd : d ∈ s.wire)
    (hwire : s'.wire = s.wire.erase d) (hentered : x.entered = none) (hleft : x.left = some d)
    (hexplained : x.Explained) (hcounts : x.Counts s.sockets s'.sockets) : s'.Balanced (events ++ [x]) := by
  refine h.concat ?_ ?_ hexplained hcounts
  · simp [hentered, hleft, hwire, Multiset.cons_erase hd]
  · rw [hwire]
    exact fun e he => h.short e (Multiset.mem_of_mem_erase he)

theorem transmit (h : s.Balanced events) {i : ι} {destination : Option Address} {payload : BufferViewList}
    {r : SyscallReturn} (hr : r.value ≤ payload.str.length ∧ r.value < 2 ^ 31)
    (htarget : (destination <|> s.peers i) = none → r.value < 0) :
    (s.transmit i r (UDPSocket.sendWith (s.sockets i) destination payload r)).Balanced
      (events ++ s.sendEvents i payload r (UDPSocket.sendWith (s.sockets i) destination payload r)) := by
  rcases transmit_cases hr.1 hr.2 htarget rfl with ⟨hs, hev⟩ | ⟨d, hcut, hlen, hs, hev⟩ | ⟨d, hlen, hs, hev⟩
  · rw [hs, hev]
    exact h.of_eq rfl rfl
  · rw [hs, hev]
    exact h.enter rfl rfl rfl hlen hcut (Event.counts_self fun _ => ⟨rfl, rfl⟩)
  · rw [hs, hev]
    exact h.enter rfl rfl rfl hlen trivial (Event.counts_sent i d)

theorem recv (h : s.Balanced events) {i : ι} {datagram : ReceivedDatagram} {mtu : ℕ} {r : RecvfromReturn}
    {d : Option Datagram} (hop : s.Documented (.recv i datagram mtu r d)) :
    (Op.apply s (.recv i datagram mtu r d)).Balanced (events ++ s.events (.recv i datagram mtu r d)) := by
  rcases recv_cases h.short hop with ⟨hs, hev⟩ | ⟨d, hd, hlt, hs, hev⟩ | ⟨d, hd, hs, hev⟩
  · rw [hs, hev]
    exact h.of_eq rfl rfl
  · rw [hs, hev]
    exact h.leave hd rfl rfl rfl hlt (Event.counts_self fun _ => ⟨rfl, rfl⟩)
  · rw [hs, hev]
    exact h.leave hd rfl rfl rfl trivial (Event.counts_returned i d)

theorem step (h : s.Balanced events) {op : Op ι} (hop : s.Documented op) :
    (op.apply s).Balanced (events ++ s.events op) := by
  cases op with
  | bind i address r =>
    refine h.of_eq ?_ ?_ <;> (simp only [Op.apply]; split <;> rfl)
  | connect i address r =>
    refine h.of_eq ?_ ?_ <;> (simp only [Op.apply]; split <;> rfl)
  | sendto i destination payload r => exact h.transmit hop nofun
  | send i payload r => exact h.transmit hop.1 hop.2
  | recv i datagram mtu r d => exact h.recv hop
  | lose d => exact h.leave hop rfl rfl rfl trivial (Event.counts_self fun _ => ⟨rfl, rfl⟩)
  | copy d => exact h.enter rfl rfl rfl (h.short d hop) trivial (Event.counts_self fun _ => ⟨rfl, rfl⟩)

end Balanced

/-- What became of the datagrams of a run. -/
def history (fds : ι → ℕ) (addresses : ι → Address) (ops : List (Op ι)) : List (Event ι) :=
  (machine fds addresses).output events ops

theorem balanced_run {fds : ι → ℕ} {addresses : ι → Address} {ops : List (Op ι)}
    (h : (machine fds addresses).Along Documented ops) :
    ((machine fds addresses).run ops).Balanced (history fds addresses ops) :=
  Machine.run_inv (P := fun ops s => s.Balanced (history fds addresses ops)) _ (balanced_init fds addresses)
    (fun ops op hop hops => by
      rw [history, Machine.output_concat]
      exact hops.step hop) h

/-- In every run: the datagrams that have entered the network are those that have left it and those on the way;
a send threw although something was sent only if that was a part, and `recv` threw with a datagram only if that
was too long; and the counts of a socket count the datagrams that it has sent and returned. -/
theorem datagrams_conserved {fds : ι → ℕ} {addresses : ι → Address} {ops : List (Op ι)}
    (h : (machine fds addresses).Along Documented ops) :
    ((history fds addresses ops).filterMap Event.entered : Multiset Datagram) =
      ((history fds addresses ops).filterMap Event.left : Multiset Datagram) +
        ((machine fds addresses).run ops).wire ∧
    (∀ x ∈ history fds addresses ops, x.Explained) ∧
    ∀ i, (((machine fds addresses).run ops).sockets i).readCount =
        UInt32.ofNat ((history fds addresses ops).countP (Event.isReturned i)) ∧
      (((machine fds addresses).run ops).sockets i).writeCount =
        UInt32.ofNat ((history fds addresses ops).countP (Event.isSent i)) := by
  have hb := balanced_run h
  exact ⟨hb.wire, hb.explained, fun i => ⟨hb.reads i, hb.writes i⟩⟩

/-- The host itself, at a port. -/
def loopback (port : UInt8) : Address where
  size := 16
  storage := [2, 0, 0, port, 127, 0, 0, 1] ++ List.replicate 120 0
  length_storage := rfl
  size_le := by decide
  drop_size := rfl

def hiThere : Datagram := ⟨loopback 53, loopback 80, [104, 105, 32, 116, 104, 101, 114, 101]⟩

/-- One socket sends a datagram in two views to the other, which asks for four bytes first and for enough then;
the network has copied it in between. -/
def hiTwice : List (Op Bool) :=
  [.sendto false (loopback 80) ⟨[[104, 105, 32], [116, 104, 101, 114, 101]]⟩ (Pair.returned 8), .copy hiThere,
    .recv true ⟨loopback 0, []⟩ 4 ⟨Pair.returned 8, [104, 105, 32, 116], (loopback 53).bytes, 16⟩ (some hiThere),
    .recv true ⟨loopback 0, [7]⟩ 16 ⟨Pair.returned 8, hiThere.payload, (loopback 53).bytes, 16⟩ (some hiThere)]

def hiPorts (i : Bool) : Address := loopback (if i then 80 else 53)

theorem along_hiTwice : (machine (fun _ => 3) hiPorts).Along Documented hiTwice := by
  rw [show hiTwice = [] ++ [hiTwice[0]] ++ [hiTwice[1]] ++ [hiTwice[2]] ++ [hiTwice[3]] from rfl]
  simp only [Machine.along_concat]
  refine ⟨⟨⟨⟨Machine.along_nil _, ?_⟩, ?_⟩, ?_⟩, ?_⟩
  · exact ⟨by decide +kernel, by decide +kernel⟩
  · show hiThere ∈ _
    decide +kernel
  · exact ⟨⟨rfl, rfl, rfl, rfl⟩, by decide +kernel, by decide +kernel, by decide⟩
  · exact ⟨⟨rfl, rfl, rfl, rfl⟩, by decide +kernel, by decide +kernel, by decide⟩

theorem datagrams_conserved_hiTwice :
    history (fun _ => 3) hiPorts hiTwice =
      [.sent false hiThere, .copied hiThere, .refused true 4 hiThere, .returned true hiThere] ∧
    ((history (fun _ => 3) hiPorts hiTwice).filterMap Event.entered : Multiset Datagram) =
      ((history (fun _ => 3) hiPorts hiTwice).filterMap Event.left : Multiset Datagram) +
        ((machine (fun _ => 3) hiPorts).run hiTwice).wire :=
  ⟨by decide +kernel, (datagrams_conserved along_hiTwice).1⟩

end Net
end Sponge

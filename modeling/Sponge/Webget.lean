import Sponge.Address
import Sponge.FileDescriptorHandles

/-!
# The web client (`apps/webget.cc`)

`get_URL` against an arbitrary kernel and resolver: `Kernel` has what every call returns. The read loop ends
when a read returns `0`, so the model of it has fuel; `n` reads with data and one without need `n + 1`.

`Ending` lists all ways in which a request can end. In each of them the peer got the request or a prefix of it,
what was printed is what the peer sent, in order and up to the end or the first failed read, and the socket has
been closed, unless it could not be opened or the program was killed in the middle of the request
(`webget_ends`).

Standard output is taken to accept what it is given: `printed` is what went into `cout`, and an output that fails
or has gone away is left out.
-/

namespace Sponge

namespace Webget

def ascii (s : String) : List UInt8 := s.toList.map fun c => UInt8.ofNat c.toNat

/-- What the system answers. The resolver has a return value and, if there is a result, the first address with
its length; the read `k` has put some bytes into the buffer; the socket may be closed twice. The program is
started with `SIGPIPE` ignored or not, and leaves that as it is. -/
structure Kernel where
  sigpipeIgnored : Bool
  socket : SyscallReturn
  getaddrinfo : ℤ × Option (List UInt8 × ℕ)
  connect : SyscallReturn
  writev : ℕ → SyscallReturn
  read : ℕ → List UInt8 × SyscallReturn
  close : SyscallReturn
  closeLast : SyscallReturn

inductive Failure
  | thrown (e : Exception)
  | gai (attempt : List UInt8) (code : ℤ)
deriving DecidableEq

/-- `Address::Address` of a host and a service. -/
def address (K : Kernel) (host service : List UInt8) : Except Failure Address :=
  if K.getaddrinfo.1 ≠ 0 then
    .error (.gai (ascii "getaddrinfo(" ++ host ++ ascii ", " ++ service ++ ascii ")") K.getaddrinfo.1)
  else
    match K.getaddrinfo.2 with
    | none => .error (.thrown (.runtimeError "getaddrinfo returned successfully but with no results"))
    | some (aiAddr, aiAddrlen) => (Address.ofSockaddr aiAddr aiAddrlen).mapError .thrown

def request (host path : List UInt8) : List UInt8 :=
  ascii "GET " ++ path ++ ascii " HTTP/1.1\r\n" ++ ascii "Host: " ++ host ++ ascii "\r\n" ++
    ascii "Connection: close\r\n\r\n"

inductive Outcome
  | returned
  | threw (e : Failure)
  | killed
deriving DecidableEq

def ePipe : ℤ := 32

/-- What becomes of an exception of `write`. A `writev` that fails with `EPIPE` raises `SIGPIPE` first, and the
program is gone before it could throw, unless the signal is ignored. -/
def refused (K : Kernel) (e : Exception) : Outcome :=
  if e = .unixError "writev" ePipe ∧ K.sigpipeIgnored = false then .killed else .threw (.thrown e)

structure Reading where
  result : Except Exception Unit
  descriptor : FDWrapper
  printed : List UInt8

/-- `while (!sock.eof()) cout << sock.read()`, from the read `k` on. -/
def readLoop (read : ℕ → List UInt8 × SyscallReturn) (fuel : ℕ) (w : FDWrapper) (k : ℕ) (printed : List UInt8) :
    Option Reading :=
  if w.eof then some ⟨.ok (), w, printed⟩
  else
    match fuel with
    | 0 => none
    | fuel + 1 =>
      match w.read (2 ^ 64 - 1) (read k).1 (read k).2 with
      | (.error e, w) => some ⟨.error e, w, printed⟩
      | (.ok str, w) => readLoop read fuel w (k + 1) (printed ++ str)

/-- What came of a request: the calls of `writev`, what was printed, and the calls of `close`. -/
structure Conversation where
  result : Outcome
  sent : List WritevCall
  printed : List UInt8
  closes : List SyscallReturn

/-- The body of `get_URL` once there is a socket. -/
def talk (K : Kernel) (fuel : ℕ) (host path : List UInt8) (w : FDWrapper) : Option (Conversation × FDWrapper) :=
  match address K host (ascii "http") with
  | .error e => some (⟨.threw e, [], [], []⟩, w)
  | .ok _ =>
    match systemCall "connect" (toInt K.connect.value) K.connect.errno 0 with
    | .error e => some (⟨.threw (.thrown e), [], [], []⟩, w)
    | .ok _ =>
      let run := w.write K.writev (.ofStringView (request host path)) true
      match run.result with
      | .error e => some (⟨refused K e, run.calls, [], []⟩, run.descriptor)
      | .ok _ =>
        (readLoop K.read fuel run.descriptor 0 []).map fun reading =>
          match reading.result with
          | .error e => (⟨.threw (.thrown e), run.calls, reading.printed, []⟩, reading.descriptor)
          | .ok _ =>
            match reading.descriptor.close K.close with
            | .error e => (⟨.threw (.thrown e), run.calls, reading.printed, [K.close]⟩, reading.descriptor)
            | .ok w => (⟨.returned, run.calls, reading.printed, [K.close]⟩, w)

/-- The socket goes out of scope, if the program is still there. -/
def destruct (K : Kernel) (c : Conversation) (w : FDWrapper) : Conversation :=
  if c.result = .killed ∨ w.closed then c else { c with closes := c.closes ++ [K.closeLast] }

/-- `get_URL`; `none` if it is still reading when the fuel runs out. -/
def getURL (K : Kernel) (fuel : ℕ) (host path : List UInt8) : Option Conversation :=
  match systemCall "socket" (toInt K.socket.value) K.socket.errno 0 with
  | .error e => some ⟨.threw (.thrown e), [], [], []⟩
  | .ok fd =>
    match FDWrapper.init fd with
    | .error e => some ⟨.threw (.thrown e), [], [], []⟩
    | .ok w => (talk K fuel host path w).map fun out => destruct K out.1 out.2

inductive Exit
  | success
  | failure
  | aborted
  | killed
deriving DecidableEq

/-- What the program writes to `cerr`. -/
inductive Complaint
  | usage (text : List UInt8)
  | what (e : Failure)

structure MainRun where
  exit : Exit
  conversation : Option Conversation
  complaint : Option Complaint

def usage (name : List UInt8) : List UInt8 :=
  ascii "Usage: " ++ name ++ ascii " HOST PATH\n" ++ ascii "\tExample: " ++ name ++
    ascii " stanford.edu /class/cs144\n"

def report (c : Conversation) : MainRun :=
  match c.result with
  | .returned => ⟨.success, some c, none⟩
  | .threw e => ⟨.failure, some c, some (.what e)⟩
  | .killed => ⟨.killed, some c, none⟩

def main (K : Kernel) (fuel : ℕ) : List (List UInt8) → Option MainRun
  | [] => some ⟨.aborted, none, none⟩
  | [_, host, path] => (getURL K fuel host path).map report
  | name :: _ => some ⟨.failure, none, some (.usage (usage name))⟩

/-! ### What comes of a request -/

/-- The system calls return what their manual pages say: an `int`, and a read not more than was asked for. -/
structure Kernel.Documented (K : Kernel) : Prop where
  socket : K.socket.value < 2 ^ 31
  connect : K.connect.value < 2 ^ 31
  close : K.close.value < 2 ^ 31
  writev : ∀ k, (K.writev k).value < 2 ^ 31
  read : ∀ k, (K.read k).2.value ≤ FDWrapper.bufferSize

/-- The bytes of the reads before `n`. -/
def received (read : ℕ → List UInt8 × SyscallReturn) (n : ℕ) : List UInt8 :=
  (List.range n).flatMap fun k => (read k).1.take (read k).2.value.toNat

/-- The call is answered with a `SIGPIPE` that kills the program. -/
structure Kernel.Kills (K : Kernel) (c : WritevCall) : Prop where
  failed : c.result.value < 0
  brokenPipe : c.result.errno = ePipe
  notIgnored : K.sigpipeIgnored = false

/-- All ways in which a request can end when the reads before `n` had data and the read `n` has none. -/
inductive Ending (K : Kernel) (host path : List UInt8) (n : ℕ) : Conversation → Prop
  | noSocket : K.socket.value < 0 →
    Ending K host path n ⟨.threw (.thrown (.unixError "socket" K.socket.errno)), [], [], []⟩
  | unknown {e} : address K host (ascii "http") = .error e → Ending K host path n ⟨.threw e, [], [], [K.closeLast]⟩
  | unconnected : K.connect.value < 0 →
    Ending K host path n ⟨.threw (.thrown (.unixError "connect" K.connect.errno)), [], [], [K.closeLast]⟩
  | unsent {e calls c} : transmitted calls.dropLast <+: request host path → calls.getLast? = some c → c.Refused e →
    ¬ K.Kills c → Ending K host path n ⟨.threw (.thrown e), calls, [], [K.closeLast]⟩
  | killed {calls c} : transmitted calls.dropLast <+: request host path → calls.getLast? = some c → K.Kills c →
    Ending K host path n ⟨.killed, calls, [], []⟩
  | unread {calls} : transmitted calls = request host path → (K.read n).2.value < 0 →
    Ending K host path n ⟨.threw (.thrown (.unixError "read" (K.read n).2.errno)), calls, received K.read n,
      [K.closeLast]⟩
  | unclosed {calls} : transmitted calls = request host path → (K.read n).2.value = 0 → K.close.value < 0 →
    Ending K host path n ⟨.threw (.thrown (.unixError "close" K.close.errno)), calls, received K.read n,
      [K.close, K.closeLast]⟩
  | done {calls} : transmitted calls = request host path → (K.read n).2.value = 0 → 0 ≤ K.close.value →
    Ending K host path n ⟨.returned, calls, received K.read n, [K.close]⟩

theorem kills_iff {K : Kernel} {c : WritevCall} {e : Exception} (h : c.Refused e) :
    K.Kills c ↔ e = .unixError "writev" ePipe ∧ K.sigpipeIgnored = false := by
  cases h with
  | failed hneg =>
    constructor
    · rintro ⟨_, herrno, hig⟩
      exact ⟨by rw [herrno], hig⟩
    · rintro ⟨he, hig⟩
      injection he with _ herrno
      exact ⟨hneg, herrno, hig⟩
  | zero hzero _ => exact ⟨fun hkill => absurd hkill.failed (by omega), by rintro ⟨he, _⟩; cases he⟩
  | tooMany hmany => exact ⟨fun hkill => absurd hkill.failed (by omega), by rintro ⟨he, _⟩; cases he⟩

theorem received_succ (read : ℕ → List UInt8 × SyscallReturn) (n : ℕ) :
    received read (n + 1) = received read n ++ (read n).1.take (read n).2.value.toNat := by
  rw [received, List.range_succ, List.flatMap_append, List.flatMap_singleton]; rfl

theorem readLoop_of_eof (read : ℕ → List UInt8 × SyscallReturn) (fuel : ℕ) {w : FDWrapper} (h : w.eof = true) (k : ℕ)
    (printed : List UInt8) : readLoop read fuel w k printed = some ⟨.ok (), w, printed⟩ := by
  cases fuel <;> simp [readLoop, h]

section
variable {read : ℕ → List UInt8 × SyscallReturn} {n fuel : ℕ} {w : FDWrapper}
  (hread : ∀ k, (read k).2.value ≤ FDWrapper.bufferSize) (hmore : ∀ k < n, 0 < (read k).2.value)
  (hend : (read n).2.value ≤ 0)
include hread hmore hend

/-- The loop from the read `k` on, when all before have been printed. -/
theorem readLoop_ends {k : ℕ} (hk : k ≤ n) (hfuel : n - k < fuel) (hw : w.eof = false) (hopen : w.closed = false) :
    ∃ w', w'.closed = false ∧ readLoop read fuel w k (received read k) =
      some ⟨if (read n).2.value = 0 then .ok () else .error (.unixError "read" (read n).2.errno), w',
        received read n⟩ := by
  induction fuel generalizing w k with
  | zero => omega
  | succ fuel ih =>
    rw [readLoop, if_neg (by simp [hw])]
    by_cases hlast : k = n
    · subst hlast
      by_cases hzero : (read k).2.value = 0
      · -- the read that sets the flag: the loop ends at its next test
        refine ⟨{ w with eof := true }.registerRead, hopen, ?_⟩
        rw [w.read_of_zero hzero (by decide), if_pos hzero]
        show readLoop read fuel _ (k + 1) (received read k ++ []) = _
        rw [readLoop_of_eof read fuel rfl, List.append_nil]
      · refine ⟨w, hopen, ?_⟩
        rw [w.read_of_neg (by omega), if_neg hzero]
    · have hmin : min FDWrapper.bufferSize (2 ^ 64 - 1) = FDWrapper.bufferSize := rfl
      have hle : (read k).2.value ≤ (min FDWrapper.bufferSize (2 ^ 64 - 1) : ℕ) := by
        rw [hmin]; exact hread k
      rw [w.read_of_pos (hmore k (by omega)) hle]
      show ∃ w', _ ∧ readLoop read fuel _ (k + 1) (received read k ++ _) = _
      rw [← received_succ]
      exact ih (by omega) (by omega) hw hopen

end

section
variable {K : Kernel} (hK : K.Documented) (host path : List UInt8) {n fuel : ℕ} {w : FDWrapper}
  (hmore : ∀ k < n, 0 < (K.read k).2.value) (hend : (K.read n).2.value ≤ 0) (hfuel : n < fuel)
include hK hmore hend hfuel

theorem talk_ends (hw : w.eof = false) (hopen : w.closed = false) :
    ∃ out, talk K fuel host path w = some out ∧ Ending K host path n (destruct K out.1 out.2) := by
  unfold talk
  cases haddr : address K host (ascii "http") with
  | error e => exact ⟨_, rfl, by rw [destruct, if_neg (by simp [hopen])]; exact .unknown haddr⟩
  | ok u =>
    by_cases hconn : K.connect.value < 0
    · rw [systemCall_of_neg "connect" hconn]
      exact ⟨_, rfl, by rw [destruct, if_neg (by simp [hopen])]; exact .unconnected hconn⟩
    rw [systemCall_of_nonneg "connect" (by omega) hK.connect]
    have hdel : Delivery K.writev true (request host path) 0 0
        (w.write K.writev (.ofStringView (request host path)) true) := by
      have h := FDWrapper.delivery_writeLoop hK.writev true w (.ofStringView (request host path)) 0 0
      rwa [show (BufferViewList.ofStringView (request host path)).str = request host path by
        simp [BufferViewList.ofStringView, BufferViewList.str]] at h
    obtain ⟨m, hm⟩ := w.descriptor_writeLoop K.writev true (.ofStringView (request host path)) 0 0
    change (w.write K.writev (.ofStringView (request host path)) true).descriptor = _ at hm
    generalize w.write K.writev (.ofStringView (request host path)) true = run at hdel hm ⊢
    dsimp only
    cases hres : run.result with
    | error e =>
      obtain ⟨hpre, c, hlast, href⟩ := hdel.error e hres
      refine ⟨_, rfl, ?_⟩
      by_cases hkill : K.Kills c
      · rw [refused, if_pos ((kills_iff href).1 hkill), destruct, if_pos (.inl rfl)]
        exact .killed hpre hlast hkill
      · rw [refused, if_neg (mt (kills_iff href).2 hkill), destruct, if_neg (by simp [hm, hopen])]
        exact .unsent hpre hlast href hkill
    | ok total =>
      have hsent : transmitted run.calls = request host path := (hdel.ok total hres).2.2 rfl
      have hw' : run.descriptor.eof = false := by rw [hm]; exact hw
      have hopen' : run.descriptor.closed = false := by rw [hm]; exact hopen
      obtain ⟨w', hclosed, hloop⟩ := readLoop_ends hK.read hmore hend (Nat.zero_le n) (by omega) hw' hopen'
      change readLoop K.read fuel run.descriptor 0 [] = _ at hloop
      simp only [hloop, Option.map_some]
      refine ⟨_, rfl, ?_⟩
      by_cases hzero : (K.read n).2.value = 0
      · simp only [if_pos hzero]
        by_cases hclose : K.close.value < 0
        · rw [w'.close_of_neg hclose]
          dsimp only
          rw [destruct, if_neg (by simp [hclosed])]
          exact .unclosed hsent hzero hclose
        · rw [w'.close_of_nonneg (by omega) hK.close]
          exact .done hsent hzero (by omega)
      · simp only [if_neg hzero]
        rw [destruct, if_neg (by simp [hclosed])]
        exact .unread hsent (by omega)

/-- Whatever the system answers, once a read has no data `webget` ends in one of the ways of `Ending`, and
exits with success in the last of them only. -/
theorem webget_ends (name : List UInt8) :
    ∃ c, main K fuel [name, host, path] = some (report c) ∧ Ending K host path n c := by
  suffices h : ∃ c, getURL K fuel host path = some c ∧ Ending K host path n c by
    obtain ⟨c, hc, hending⟩ := h
    exact ⟨c, by rw [main, hc]; rfl, hending⟩
  unfold getURL
  by_cases hsock : K.socket.value < 0
  · rw [systemCall_of_neg "socket" hsock]
    exact ⟨_, rfl, .noSocket hsock⟩
  · have hinit : FDWrapper.init K.socket.value = .ok ⟨K.socket.value, false, false, 0, 0, by omega⟩ := dif_neg hsock
    rw [systemCall_of_nonneg "socket" (by omega) hK.socket]
    simp only [hinit]
    obtain ⟨out, hout, hending⟩ := talk_ends hK host path hmore hend hfuel
      (w := ⟨K.socket.value, false, false, 0, 0, by omega⟩) rfl rfl
    rw [hout]
    exact ⟨_, rfl, hending⟩

end

/-- A system that sends one byte at a time and has a reply of two bytes. -/
def hiKernel : Kernel where
  sigpipeIgnored := false
  socket := ⟨3, 0, by decide, by decide⟩
  getaddrinfo := (0, some ([2, 0, 0, 80, 127, 0, 0, 1, 0, 0, 0, 0, 0, 0, 0, 0], 16))
  connect := ⟨0, 0, by decide, by decide⟩
  writev _ := ⟨1, 0, by decide, by decide⟩
  read k := if k = 0 then ([104, 105], ⟨2, 0, by decide, by decide⟩) else ([], ⟨0, 0, by decide, by decide⟩)
  close := ⟨0, 0, by decide, by decide⟩
  closeLast := ⟨0, 0, by decide, by decide⟩

theorem webget_ends_hi :
    ∃ c, main hiKernel 2 [ascii "webget", ascii "a", ascii "/"] = some (report c) ∧
      Ending hiKernel (ascii "a") (ascii "/") 1 c := by
  have hK : hiKernel.Documented := by
    refine ⟨by decide, by decide, by decide, fun _ => by simp [hiKernel], fun k => ?_⟩
    by_cases hk : k = 0 <;> simp [hiKernel, hk, FDWrapper.bufferSize]
  refine webget_ends hK _ _ (fun k hk => ?_) (by decide) (by decide) _
  obtain rfl : k = 0 := by omega
  decide

/-- Here all went well: the request is sent, and the reply printed. -/
example : (getURL hiKernel 2 (ascii "a") (ascii "/")).map
    (fun c => (c.result, transmitted c.sent, c.printed, c.closes.length)) =
      some (.returned, request (ascii "a") (ascii "/"), [104, 105], 1) := by
  decide +kernel

/-- Here the peer is gone: the socket is not closed, and nothing is printed on either output. -/
example : ((main { hiKernel with writev := fun _ => ⟨-1, ePipe, by decide, by decide⟩ } 2
    [ascii "webget", ascii "a", ascii "/"]).bind fun run =>
      run.conversation.map fun c => (run.exit, run.complaint.isSome, c.printed, c.closes.length)) =
        some (.killed, false, [], 0) := by
  decide +kernel

end Webget
end Sponge

import HobbyOS.Descriptors
import HobbyOS.Ipv4
import HobbyOS.Scheduler

/-!
# Readiness against blocking

Whether a descriptor is ready is written in `poll.c` and again in `SYS_SELECT`;
whether a call sleeps is decided by `pipe.c`, `tty.c`, `socket.c`, `tcp.c` and,
for a call that sends, by `arp_resolve`. For each kind of descriptor the states
in which the answers agree are characterised.
-/

namespace HobbyOS.Readiness
open Process Socket Tcp Descriptors

structure Tty where
  readBuf : ℕ → UInt8 := fun _ => 0
  readLen : ℕ := 0
  readPos : ℕ := 0

/-- The kernel as a call on a descriptor sees it. `fill` is the `count` of each
pipe; `fileRead` and `fileWrite` are what the file systems and the devices
return. -/
structure Kern where
  files : Files
  fill : ℕ → ℕ := fun _ => 0
  tty : Tty := {}
  cfg : Ipv4.Config
  arp : ℕ → Ipv4.ArpEntry := fun _ => {}
  fileRead : Fd → ℕ → ℤ := fun _ _ => 0
  fileWrite : Fd → ℕ → ℤ := fun _ _ => 0

def signalHasFatal (x : Proc) : Bool :=
  x.sigPending &&&
    (Scheduler.sigBit Scheduler.sigint ||| Scheduler.sigBit Scheduler.sigkill ||| Scheduler.sigBit Scheduler.sigterm)
      != 0

variable (k : Kern) (st : Stack) (x : Option Ends) (j : ℕ)

variable (data : List UInt8) (s : Sock) (count : ℕ) (p : ℕ)

def pipeReadable : Bool :=
  x.elim false fun e => decide (0 < count) || e.writers == 0

def pipeWritable : Bool :=
  x.elim false fun _ => decide (count < Scheduler.pipeBufSize)

def ttyReadable (t : Tty) : Bool := decide (0 < t.readLen) && decide (t.readPos < t.readLen)

def fdIsReadable (p i : ℕ) : Bool :=
  if processMaxFds ≤ i then false
  else
    match (fdOf k.files p i).type with
    | .pipeRead => pipeReadable (k.files.pipes (fdOf k.files p i).data) (k.fill (fdOf k.files p i).data)
    | .console => ttyReadable k.tty
    | .socket => socketReadable k.files.stack (fdOf k.files p i).data
    | .ext2 => true
    | .vfs => true
    | _ => false

def fdIsWritable (p i : ℕ) : Bool :=
  if processMaxFds ≤ i then false
  else
    match (fdOf k.files p i).type with
    | .pipeWrite => pipeWritable (k.files.pipes (fdOf k.files p i).data) (k.fill (fdOf k.files p i).data)
    | .console => true
    | .socket => socketWritable k.files.stack (fdOf k.files p i).data
    | .ext2 => true
    | .vfs => true
    | _ => false

def selectReadable (p i : ℕ) : Bool :=
  match (fdOf k.files p i).type with
  | .pipeRead => pipeReadable (k.files.pipes (fdOf k.files p i).data) (k.fill (fdOf k.files p i).data)
  | .console => ttyReadable k.tty
  | .socket => socketReadable k.files.stack (fdOf k.files p i).data
  | _ => false

def selectWritable (p i : ℕ) : Bool :=
  match (fdOf k.files p i).type with
  | .pipeWrite => pipeWritable (k.files.pipes (fdOf k.files p i).data) (k.fill (fdOf k.files p i).data)
  | .console => true
  | .socket => socketWritable k.files.stack (fdOf k.files p i).data
  | _ => false

/-- The bits that one test collects over the first `n` descriptors. -/
def collect (test : ℕ → Bool) (set : BitVec 32) (n : ℕ) : BitVec 32 :=
  (List.range n).foldl (fun r i => if set.getLsbD i && test i then r ||| 1#32 <<< i else r) 0

/-- One round of the loop of `SYS_SELECT`; `nfds` is at most 32. -/
def selectPass (p nfds : ℕ) (readfds writefds : BitVec 32) : BitVec 32 × BitVec 32 :=
  (collect (selectReadable k p) readfds nfds,collect (selectWritable k p) writefds nfds)

def pipeRead (count n : ℕ) : Answer :=
  match x with
  | none => .ret (-1)
  | some e =>
    if count = 0 then if e.writers = 0 then .ret 0 else .blocked
    else .ret (min n count : ℕ)

def pipeWrite (count n : ℕ) : Answer :=
  match x with
  | none => .ret (-1)
  | some e =>
    if e.readers = 0 then .ret (-1)
    else if count = Scheduler.pipeBufSize then .blocked
    else .ret (min n (Scheduler.pipeBufSize-count) : ℕ)

def ttyRead (t : Tty) (n : ℕ) : Answer :=
  if t.readLen = 0 ∨ t.readLen ≤ t.readPos then .blocked else .ret (min n (t.readLen-t.readPos) : ℕ)

def arpKnown (ip : ℕ) : Bool :=
  (Ipv4.arpLookup k.arp (Ipv4.nextHop k.cfg (BitVec.ofNat 32 ip))).isSome

/-- The address for which `socket_send` calls `ipv4_send`, if it does. -/
def sendTarget (i : ℕ) (data : List UInt8) : Option ℕ :=
  match socketGet st i with
  | none => none
  | some s =>
    match s.type with
    | .stream =>
      match s.tcpConnIdx with
      | none => none
      | some c =>
        if s.nonblocking = true ∧ connTest st tcpConnWritable (some c) = false then none
        else if CanSend (st.host.conns c) ∧ data ≠ [] then some (st.host.conns c).remoteIp
        else none
    | .dgram => (socketSend st i data).2.1.map Datagram.dstIp

def socketSendAnswer (i : ℕ) (data : List UInt8) : Answer :=
  if (sendTarget k.files.stack i data).elim false (fun ip => !arpKnown k ip) then .blocked
  else .ret (socketSend k.files.stack i data).2.2

def sysRead (p i n : ℕ) : Answer :=
  if processMaxFds ≤ i then .ret (-1)
  else
    match (fdOf k.files p i).type with
    | .pipeRead => pipeRead (k.files.pipes (fdOf k.files p i).data) (k.fill (fdOf k.files p i).data) n
    | .console => ttyRead k.tty n
    | .socket => (socketRecv k.files.stack (fdOf k.files p i).data n p (signalHasFatal (k.files.table p))).2.1
    | .vfs => .ret (k.fileRead (fdOf k.files p i) n)
    | .ext2 => .ret (k.fileRead (fdOf k.files p i) n)
    | .device => .ret (k.fileRead (fdOf k.files p i) n)
    | _ => .ret (-1)

def sysWrite (p i : ℕ) (data : List UInt8) : Answer :=
  if processMaxFds ≤ i then .ret (-1)
  else
    match (fdOf k.files p i).type with
    | .pipeWrite => pipeWrite (k.files.pipes (fdOf k.files p i).data) (k.fill (fdOf k.files p i).data) data.length
    | .console => .ret data.length
    | .socket => socketSendAnswer k (fdOf k.files p i).data data
    | .vfs => .ret (k.fileWrite (fdOf k.files p i) data.length)
    | .ext2 => .ret (k.fileWrite (fdOf k.files p i) data.length)
    | .device => .ret (k.fileWrite (fdOf k.files p i) data.length)
    | _ => .ret (-1)

def blockingStack : Stack := setSocket st j fun s => { s with nonblocking := false }

def blockingSocket : Kern :=
  { k with files := { k.files with stack := blockingStack k.files.stack j } }

/-- The kernel in which a call on the descriptor is a blocking call. -/
def blocking (p i : ℕ) : Kern :=
  if (fdOf k.files p i).type = .socket then blockingSocket k (fdOf k.files p i).data else k

def ReadAgrees (p i : ℕ) : Prop :=
  fdIsReadable k p i = true ↔ sysRead (blocking k p i) p i 1 ≠ .blocked

def WriteAgrees (p i : ℕ) (b : UInt8) : Prop :=
  fdIsWritable k p i = true ↔ sysWrite (blocking k p i) p i [b] ≠ .blocked

/-- Whatever the two sets are, the bits of `i` in the answer are those of `poll.c`. -/
def SelectAgrees (p i : ℕ) : Prop :=
  ∀ nfds readfds writefds, i < nfds → nfds ≤ processMaxFds →
    (readfds.getLsbD i = true → (selectPass k p nfds readfds writefds).1.getLsbD i = fdIsReadable k p i) ∧
    (writefds.getLsbD i = true → (selectPass k p nfds readfds writefds).2.getLsbD i = fdIsWritable k p i)

def RecvEagain (p j n : ℕ) : Prop :=
  (socketRecv k.files.stack j n p (signalHasFatal (k.files.table p))).2.1 = .ret (-eagain) →
    (socketRecv (blockingStack k.files.stack j) j n p (signalHasFatal (k.files.table p))).2.1 = .blocked

def SendEagain : Prop :=
  socketSendAnswer k j data = .ret (-eagain) → socketSendAnswer (blockingSocket k j) j data = .blocked

def AcceptEagain (p j : ℕ) : Prop :=
  (socketAccept k.files.stack j p (signalHasFatal (k.files.table p))).2 = .ret (-eagain) →
    (socketAccept (blockingStack k.files.stack j) j p (signalHasFatal (k.files.table p))).2 = .blocked

/-- A read on the connection sleeps: nothing there, nothing to come to an end,
no fatal signal. -/
def Waits (p c : ℕ) : Prop :=
  mustWait (k.files.stack.host.conns c) = true ∧ signalHasFatal (k.files.table p) = false

def AcceptWaits (p c : ℕ) : Prop :=
  (k.files.stack.host.conns c).state = .listen ∧ (k.files.stack.host.conns c).acceptCount = 0 ∧
    signalHasFatal (k.files.table p) = false

/-- A send on the connection sleeps: it gets as far as an unknown next hop. -/
def SendWaits (c : ℕ) : Prop :=
  CanSend (k.files.stack.host.conns c) ∧ arpKnown k (k.files.stack.host.conns c).remoteIp = false

def RecvReady (s : Sock) : Prop :=
  match s.type, s.tcpConnIdx with
  | .dgram, _ => 0 < s.udpCount ∨ signalHasFatal (k.files.table p) = false
  | .stream, none => False
  | .stream, some c =>
    if s.listening = true then
      (connTest k.files.stack tcpConnAcceptable (some c) = true ∧ ¬Waits k p c) ∨
        (connTest k.files.stack tcpConnAcceptable (some c) = false ∧ Waits k p c)
    else connTest k.files.stack tcpConnReadable (some c) = true ∨ Waits k p c

def SendReady : Prop :=
  match s.type, s.tcpConnIdx with
  | .dgram, _ => s.connected = false ∨ arpKnown k s.remoteIp = true
  | .stream, none => False
  | .stream, some c =>
    (connTest k.files.stack tcpConnWritable (some c) = true ∧ ¬SendWaits k c) ∨
      (connTest k.files.stack tcpConnWritable (some c) = false ∧ SendWaits k c)

/-- The states in which `fd_is_readable` is right about descriptor `fd`. -/
def ReadReady (fd : Fd) : Prop :=
  match fd.type with
  | .pipeRead => k.files.pipes fd.data ≠ none
  | .pipeWrite => False
  | .socket => ∃ s, socketGet k.files.stack fd.data = some s ∧ RecvReady k p s
  | _ => True

def WriteReady (fd : Fd) : Prop :=
  match fd.type with
  | .pipeWrite => ∃ e, k.files.pipes fd.data = some e ∧
      (k.fill fd.data < Scheduler.pipeBufSize ∨ (k.fill fd.data = Scheduler.pipeBufSize ∧ e.readers ≠ 0))
  | .pipeRead => False
  | .socket => ∃ s, socketGet k.files.stack fd.data = some s ∧ SendReady k s
  | _ => True

/-- The states in which `EAGAIN` from `socket_recv` is right about socket `s`. -/
def RecvEagainReady (s : Sock) : Prop :=
  s.nonblocking = false ∨
    match s.type, s.tcpConnIdx with
    | .dgram, _ => 0 < s.udpCount ∨ signalHasFatal (k.files.table p) = false
    | .stream, none => True
    | .stream, some c => connTest k.files.stack tcpConnReadable (some c) = true ∨ Waits k p c

def SendEagainReady (data : List UInt8) : Prop :=
  s.nonblocking = false ∨
    match s.type, s.tcpConnIdx with
    | .dgram, _ => True
    | .stream, none => True
    | .stream, some c => connTest k.files.stack tcpConnWritable (some c) = true ∨ (data ≠ [] ∧ SendWaits k c)

def AcceptEagainReady (s : Sock) : Prop :=
  s.nonblocking = false ∨ s.listening = false ∨
    connTest k.files.stack tcpConnAcceptable s.tcpConnIdx = true ∨ ∃ c ∈ s.tcpConnIdx, AcceptWaits k p c

/-- The descriptors of the agreement: pipes, sockets, the console and files. -/
def Covered (t : FdType) : Prop :=
  t = .pipeRead ∨ t = .pipeWrite ∨ t = .socket ∨ t = .console ∨ t = .ext2 ∨ t = .vfs

theorem blocking_get :
    socketGet (blockingStack st j) j = (socketGet st j).map fun s => { s with nonblocking := false } := by
  have hself : (blockingStack st j).sockets j = { st.sockets j with nonblocking := false } :=
    Function.update_self ..
  unfold socketGet
  rw [hself]
  split_ifs <;> rfl

def answerOf : Received → Answer
  | .blocked => .blocked
  | .killed => .ret (-1)
  | .got bytes => .ret bytes.length

theorem recv_dgram (j n p : ℕ) (fatal : Bool) {s : Sock} (hs : socketGet st j = some s)
    (ht : s.type = .dgram) :
    (socketRecv st j n p fatal).2.1 =
      if s.udpCount = 0 then
        if s.nonblocking = true then .ret (-eagain) else if fatal = true then .ret (-1) else .blocked
      else .ret ((s.udpQueue s.udpHead).data.take n).length := by
  unfold socketRecv
  simp only [hs, ht]
  by_cases hu : s.udpCount = 0
  · cases hn : s.nonblocking <;> cases fatal <;> simp [hu]
  · simp [hu]

theorem recv_stream (j n p : ℕ) (fatal : Bool) {s : Sock} (hs : socketGet st j = some s)
    (ht : s.type = .stream) :
    (socketRecv st j n p fatal).2.1 =
      s.tcpConnIdx.elim (.ret (-1)) fun c =>
        if s.nonblocking = true ∧ connTest st tcpConnReadable (some c) = false then .ret (-eagain)
        else answerOf (tcpRecv (st.host.conns c) n p fatal).2 := by
  unfold socketRecv
  simp only [hs, ht]
  cases s.tcpConnIdx with
  | none => rfl
  | some c =>
    simp only [Option.elim_some]
    split_ifs
    · rfl
    · cases (tcpRecv (st.host.conns c) n p fatal).2 <;> rfl

variable (c : Conn)

theorem tcp_recv_answer (n p : ℕ) (fatal : Bool) :
    answerOf (tcpRecv c n p fatal).2 = .blocked ↔ mustWait c = true ∧ fatal = false := by
  unfold tcpRecv
  cases mustWait c with
  | false =>
    by_cases h : c.rxCount = 0 <;> simp [h, answerOf]
  | true => cases fatal <;> simp [answerOf]

theorem tcp_recv_not_again (n p : ℕ) (fatal : Bool) : answerOf (tcpRecv c n p fatal).2 ≠ .ret (-eagain) := by
  cases h : (tcpRecv c n p fatal).2 with
  | blocked => simp [answerOf]
  | killed => simp [answerOf, eagain]
  | got bytes =>
    simp only [answerOf, eagain, ne_eq, Answer.ret.injEq]
    omega

theorem recv_blocked_iff (p j n : ℕ) {s : Sock} (hs : socketGet k.files.stack j = some s) :
    (socketRecv (blockingStack k.files.stack j) j n p (signalHasFatal (k.files.table p))).2.1 = .blocked ↔
      match s.type, s.tcpConnIdx with
      | .dgram, _ => s.udpCount = 0 ∧ signalHasFatal (k.files.table p) = false
      | .stream, none => False
      | .stream, some c => Waits k p c := by
  have hget : socketGet (blockingStack k.files.stack j) j = some { s with nonblocking := false } := by
    rw [blocking_get, hs]
    rfl
  cases ht : s.type with
  | dgram =>
    rw [recv_dgram _ j n p _ hget ht]
    cases hf : signalHasFatal (k.files.table p) <;> by_cases hu : s.udpCount = 0 <;> simp [hu]
  | stream =>
    rw [recv_stream _ j n p _ hget ht]
    cases hc : s.tcpConnIdx with
    | none => simp
    | some c =>
      exact tcp_recv_answer _ n p _

theorem recv_eagain_iff (p j n : ℕ) {s : Sock} (hs : socketGet k.files.stack j = some s) :
    (socketRecv k.files.stack j n p (signalHasFatal (k.files.table p))).2.1 = .ret (-eagain) ↔
      s.nonblocking = true ∧
        match s.type, s.tcpConnIdx with
        | .dgram, _ => s.udpCount = 0
        | .stream, none => False
        | .stream, some c => connTest k.files.stack tcpConnReadable (some c) = false := by
  cases ht : s.type with
  | dgram =>
    rw [recv_dgram _ j n p _ hs ht]
    by_cases hu : s.udpCount = 0
    · cases hn : s.nonblocking <;> cases signalHasFatal (k.files.table p) <;> simp [hu, eagain]
    · simp only [hu, if_false, Answer.ret.injEq, and_false, iff_false, eagain]
      omega
  | stream =>
    rw [recv_stream _ j n p _ hs ht]
    cases hc : s.tcpConnIdx with
    | none => simp [eagain]
    | some c =>
      simp only [Option.elim_some]
      split_ifs with h
      · exact ⟨fun _ => h,fun _ => rfl⟩
      · exact ⟨fun he => absurd he (tcp_recv_not_again _ n p _),fun hh => absurd hh h⟩

theorem recv_none (j n p : ℕ) (fatal : Bool) (hs : socketGet st j = none) :
    (socketRecv st j n p fatal).2.1 = .ret (-1) := by
  unfold socketRecv
  rw [hs]

theorem send_dgram (hs : socketGet k.files.stack j = some s)
    (ht : s.type = .dgram) :
    socketSendAnswer k j data =
      if s.connected = false then .ret (-1)
      else if 1480 < 8+data.length then .ret (-1)
      else if arpKnown k s.remoteIp = true then .ret 0 else .blocked := by
  unfold socketSendAnswer sendTarget socketSend
  simp only [hs, ht, udpSend]
  cases hc : s.connected with
  | false => simp
  | true =>
    by_cases hl : 1480 < 8+data.length
    · simp [hl]
    · cases hk : arpKnown k s.remoteIp <;> simp [hl, hk]

theorem send_stream (hs : socketGet k.files.stack j = some s)
    (ht : s.type = .stream) :
    socketSendAnswer k j data =
      s.tcpConnIdx.elim (.ret (-1)) fun c =>
        if s.nonblocking = true ∧ connTest k.files.stack tcpConnWritable (some c) = false then .ret (-eagain)
        else if CanSend (k.files.stack.host.conns c) then
          if data ≠ [] ∧ arpKnown k (k.files.stack.host.conns c).remoteIp = false then .blocked
          else .ret data.length
        else .ret (-1) := by
  unfold socketSendAnswer sendTarget socketSend
  simp only [hs, ht]
  cases s.tcpConnIdx with
  | none => rfl
  | some c =>
    simp only [Option.elim_some]
    by_cases hn : s.nonblocking = true ∧ connTest k.files.stack tcpConnWritable (some c) = false
    · simp [hn]
    · rw [if_neg hn, if_neg hn, if_neg hn]
      unfold tcpSend
      by_cases hsend : CanSend (k.files.stack.host.conns c)
      · cases hk : arpKnown k (k.files.stack.host.conns c).remoteIp <;> by_cases hd : data = [] <;>
          simp [hsend, hd, hk]
      · simp [hsend]

theorem send_blocked_iff
    (hs : socketGet k.files.stack j = some s) :
    socketSendAnswer (blockingSocket k j) j data = .blocked ↔
      match s.type, s.tcpConnIdx with
      | .dgram, _ => s.connected = true ∧ 8+data.length ≤ 1480 ∧ arpKnown k s.remoteIp = false
      | .stream, none => False
      | .stream, some c => data ≠ [] ∧ SendWaits k c := by
  have hget : socketGet (blockingSocket k j).files.stack j = some { s with nonblocking := false } :=
    (blocking_get k.files.stack j).trans (by rw [hs]; rfl)
  have harp : ∀ ip, arpKnown (blockingSocket k j) ip = arpKnown k ip := fun _ => rfl
  have hconn : (blockingSocket k j).files.stack.host = k.files.stack.host := rfl
  cases ht : s.type with
  | dgram =>
    rw [send_dgram _ j data _ hget ht]
    simp only [harp]
    cases hc : s.connected <;> by_cases hl : 1480 < 8+data.length <;> cases hk : arpKnown k s.remoteIp <;>
      simp [hl, Nat.not_lt.mp]
  | stream =>
    rw [send_stream _ j data _ hget ht]
    cases hc : s.tcpConnIdx with
    | none => simp
    | some c =>
      simp only [Option.elim_some, hconn, harp, SendWaits]
      by_cases hsend : CanSend (k.files.stack.host.conns c) <;>
        cases hk : arpKnown k (k.files.stack.host.conns c).remoteIp <;> by_cases hd : data = [] <;>
          simp [hsend]

theorem send_eagain_iff
    (hs : socketGet k.files.stack j = some s) :
    socketSendAnswer k j data = .ret (-eagain) ↔
      s.nonblocking = true ∧
        match s.type, s.tcpConnIdx with
        | .dgram, _ => False
        | .stream, none => False
        | .stream, some c => connTest k.files.stack tcpConnWritable (some c) = false := by
  cases ht : s.type with
  | dgram =>
    rw [send_dgram _ j data _ hs ht]
    split_ifs <;> simp [eagain]
  | stream =>
    rw [send_stream _ j data _ hs ht]
    cases hc : s.tcpConnIdx with
    | none => simp [eagain]
    | some c =>
      simp only [Option.elim_some]
      by_cases hn : s.nonblocking = true ∧ connTest k.files.stack tcpConnWritable (some c) = false
      · rw [if_pos hn]
        exact ⟨fun _ => hn,fun _ => rfl⟩
      · refine ⟨fun he => absurd he ?_,fun hh => absurd hh hn⟩
        unfold eagain
        split_ifs
        · simp
        · simp only [Answer.ret.injEq]
          omega
        · simp

theorem send_none (hs : socketGet k.files.stack j = none) :
    socketSendAnswer k j data = .ret (-1) := by
  unfold socketSendAnswer sendTarget socketSend
  rw [hs]
  rfl

def acceptedAnswer : Accepted → Answer
  | .blocked => .blocked
  | .failed => .ret (-1)
  | .conn c => .ret (socketAccepted st c).2

theorem accept_some (j p : ℕ) (fatal : Bool) {s : Sock} (hs : socketGet st j = some s) :
    (socketAccept st j p fatal).2 =
      if s.listening = false then .ret (-1)
      else if s.nonblocking = true ∧ connTest st tcpConnAcceptable s.tcpConnIdx = false then .ret (-eagain)
      else s.tcpConnIdx.elim (.ret (-1)) fun c =>
        acceptedAnswer { st with host := commit st.host c { conn := (tcpAccept (st.host.conns c) p fatal).1 } }
          (tcpAccept (st.host.conns c) p fatal).2 := by
  unfold socketAccept
  simp only [hs]
  split_ifs
  · rfl
  · rfl
  · cases s.tcpConnIdx with
    | none => rfl
    | some c =>
      simp only [Option.elim_some]
      cases (tcpAccept (st.host.conns c) p fatal).2 <;> rfl

theorem accepted_value (c : ℕ) : -1 ≤ (socketAccepted st c).2 := by
  unfold socketAccepted
  rcases socketCreate st .stream with ⟨st',_ | i⟩
  · exact le_refl _
  · dsimp only
    omega

theorem accepted_not_again (x : Accepted) : acceptedAnswer st x ≠ .ret (-eagain) := by
  cases x with
  | blocked => simp [acceptedAnswer]
  | failed => simp [acceptedAnswer, eagain]
  | conn c =>
    have h := accepted_value st c
    simp only [acceptedAnswer, eagain, ne_eq, Answer.ret.injEq]
    omega

theorem tcp_accept_answer (p : ℕ) (fatal : Bool) :
    acceptedAnswer st (tcpAccept c p fatal).2 = .blocked ↔
      c.state = .listen ∧ c.acceptCount = 0 ∧ fatal = false := by
  unfold tcpAccept
  by_cases hl : c.state = .listen <;> by_cases ha : c.acceptCount = 0 <;> cases fatal <;>
    simp [hl, ha, acceptedAnswer]

theorem accept_blocked_iff (p j : ℕ) {s : Sock} (hs : socketGet k.files.stack j = some s) :
    (socketAccept (blockingStack k.files.stack j) j p (signalHasFatal (k.files.table p))).2 = .blocked ↔
      s.listening = true ∧ ∃ c ∈ s.tcpConnIdx, AcceptWaits k p c := by
  have hget : socketGet (blockingStack k.files.stack j) j = some { s with nonblocking := false } := by
    rw [blocking_get, hs]
    rfl
  rw [accept_some _ j p _ hget]
  cases hl : s.listening with
  | false => simp
  | true =>
    cases hc : s.tcpConnIdx with
    | none => simp
    | some c =>
      simp only [Bool.true_eq_false, if_false, Bool.false_eq_true, false_and, Option.elim_some, true_and]
      rw [tcp_accept_answer]
      simp only [Option.mem_def, Option.some.injEq, exists_eq_left']
      rfl

theorem accept_eagain_iff (p j : ℕ) {s : Sock} (hs : socketGet k.files.stack j = some s) :
    (socketAccept k.files.stack j p (signalHasFatal (k.files.table p))).2 = .ret (-eagain) ↔
      s.listening = true ∧ s.nonblocking = true ∧ connTest k.files.stack tcpConnAcceptable s.tcpConnIdx = false := by
  rw [accept_some _ j p _ hs]
  cases hl : s.listening with
  | false => simp [eagain]
  | true =>
    by_cases hn : s.nonblocking = true ∧ connTest k.files.stack tcpConnAcceptable s.tcpConnIdx = false
    · rw [if_pos hn]
      exact ⟨fun _ => ⟨rfl,hn⟩,fun _ => rfl⟩
    · rw [if_neg hn]
      refine ⟨fun he => absurd he ?_,fun hh => absurd hh.2 hn⟩
      cases s.tcpConnIdx with
      | none => simp [eagain]
      | some c => exact accepted_not_again _ _

theorem accept_none (j p : ℕ) (fatal : Bool) (hs : socketGet st j = none) :
    (socketAccept st j p fatal).2 = .ret (-1) := by
  unfold socketAccept
  rw [hs]

theorem readable_not_waits (p c : ℕ) (h : connTest k.files.stack tcpConnReadable (some c) = true) :
    ¬Waits k p c := by
  rintro ⟨hw,-⟩
  simp only [connTest, Option.elim_some, tcpConnReadable, Bool.and_eq_true, Bool.or_eq_true, decide_eq_true_eq,
    beq_iff_eq] at h
  simp only [mustWait, Bool.and_eq_true, beq_iff_eq, bne_iff_ne] at hw
  obtain ⟨-,-,(hr | he) | hcl⟩ := h
  · omega
  · rw [he] at hw
    simp at hw
  · exact hw.1.2 hcl

theorem blocking_fd (p i q l : ℕ) : fdOf (blocking k p i).files q l = fdOf k.files q l := by
  unfold blocking
  split_ifs <;> rfl

theorem socket_read_agrees (p j : ℕ) :
    (socketReadable k.files.stack j = true ↔
      (socketRecv (blockingStack k.files.stack j) j 1 p (signalHasFatal (k.files.table p))).2.1 ≠ .blocked) ↔
      ∃ s, socketGet k.files.stack j = some s ∧ RecvReady k p s := by
  cases hs : socketGet k.files.stack j with
  | none =>
    have hget : socketGet (blockingStack k.files.stack j) j = none := by
      rw [blocking_get, hs]
      rfl
    rw [recv_none _ j 1 p _ hget]
    simp [socketReadable, hs]
  | some s =>
    rw [Ne, recv_blocked_iff k p j 1 hs]
    simp only [Option.some.injEq, exists_eq_left']
    unfold socketReadable RecvReady
    simp only [hs]
    cases ht : s.type with
    | dgram =>
      cases signalHasFatal (k.files.table p) <;> simp
      omega
    | stream =>
      cases hc : s.tcpConnIdx with
      | none => simp [connTest]
      | some c =>
        cases hl : s.listening with
        | true =>
          simp only [if_true]
          cases connTest k.files.stack tcpConnAcceptable (some c) <;> simp
        | false =>
          have hnot := readable_not_waits k p c
          cases hr : connTest k.files.stack tcpConnReadable (some c) with
          | true => simp [hnot hr, hr]
          | false => simp [hr]

theorem socket_write_agrees (b : UInt8) :
    (socketWritable k.files.stack j = true ↔ socketSendAnswer (blockingSocket k j) j [b] ≠ .blocked) ↔
      ∃ s, socketGet k.files.stack j = some s ∧ SendReady k s := by
  cases hs : socketGet k.files.stack j with
  | none =>
    have hget : socketGet (blockingSocket k j).files.stack j = none :=
      (blocking_get k.files.stack j).trans (by rw [hs]; rfl)
    rw [send_none _ j [b] hget]
    simp [socketWritable, hs]
  | some s =>
    rw [Ne, send_blocked_iff k j [b] s hs]
    simp only [Option.some.injEq, exists_eq_left']
    unfold socketWritable SendReady
    simp only [hs]
    cases ht : s.type with
    | dgram => cases s.connected <;> cases arpKnown k s.remoteIp <;> simp
    | stream =>
      cases hc : s.tcpConnIdx with
      | none => simp [connTest]
      | some c => cases hw : connTest k.files.stack tcpConnWritable (some c) <;> simp [hw]

theorem pipe_read_agrees :
    (pipeReadable x count = true ↔ pipeRead x count 1 ≠ .blocked) ↔ x ≠ none := by
  cases x with
  | none => simp [pipeReadable, pipeRead]
  | some e =>
    by_cases hc : count = 0 <;> by_cases hw : e.writers = 0 <;>
      simp [pipeReadable, pipeRead, hc, Nat.pos_iff_ne_zero]

theorem pipe_write_agrees :
    (pipeWritable x count = true ↔ pipeWrite x count 1 ≠ .blocked) ↔
      ∃ e, x = some e ∧ (count < Scheduler.pipeBufSize ∨ (count = Scheduler.pipeBufSize ∧ e.readers ≠ 0)) := by
  cases x with
  | none => simp [pipeWritable, pipeWrite]
  | some e =>
    by_cases hr : e.readers = 0 <;> by_cases hc : count = Scheduler.pipeBufSize <;>
      simp [pipeWritable, pipeWrite, hr, hc]

theorem tty_read_agrees (t : Tty) : ttyReadable t = true ↔ ttyRead t 1 ≠ .blocked := by
  unfold ttyReadable ttyRead
  rw [Bool.and_eq_true, decide_eq_true_eq, decide_eq_true_eq]
  split_ifs with h
  · simp only [ne_eq, not_true_eq_false, iff_false]
    omega
  · simp only [ne_eq, reduceCtorEq, not_false_eq_true, iff_true]
    omega

theorem read_agrees_iff {p i : ℕ} (hi : i < processMaxFds) (hc : Covered (fdOf k.files p i).type) :
    ReadAgrees k p i ↔ ReadReady k p (fdOf k.files p i) := by
  unfold ReadAgrees fdIsReadable sysRead ReadReady
  rw [if_neg (Nat.not_le.mpr hi), if_neg (Nat.not_le.mpr hi), blocking_fd]
  unfold blocking
  rcases hc with h | h | h | h | h | h <;> simp only [h]
  · exact pipe_read_agrees _ _
  · simp
  · exact socket_read_agrees k p _
  · simpa using tty_read_agrees k.tty
  · simp
  · simp

theorem write_agrees_iff {p i : ℕ} (b : UInt8) (hi : i < processMaxFds)
    (hc : Covered (fdOf k.files p i).type) : WriteAgrees k p i b ↔ WriteReady k (fdOf k.files p i) := by
  unfold WriteAgrees fdIsWritable sysWrite WriteReady
  rw [if_neg (Nat.not_le.mpr hi), if_neg (Nat.not_le.mpr hi), blocking_fd]
  unfold blocking
  rcases hc with h | h | h | h | h | h <;> simp only [h]
  · simp
  · exact pipe_write_agrees _ _
  · exact socket_write_agrees k _ b
  · simp
  · simp
  · simp

theorem collect_bit (test : ℕ → Bool) (set : BitVec 32) {n i : ℕ} (hn : n ≤ 32) (hi : i < 32) :
    (collect test set n).getLsbD i = (decide (i < n) && (set.getLsbD i && test i)) := by
  induction n with
  | zero => simp [collect]
  | succ n ih =>
    have hstep : collect test set (n+1) =
        if set.getLsbD n && test n then collect test set n ||| 1#32 <<< n else collect test set n := by
      unfold collect
      rw [List.range_succ, List.foldl_append]
      rfl
    have ih := ih (by omega)
    rw [hstep]
    by_cases hin : i = n
    · subst hin
      have hlow : (collect test set i).getLsbD i = false := by
        rw [ih]
        simp
      have hone : (1#32 <<< i).getLsbD i = true := by
        simpa using hi
      cases ht : set.getLsbD i && test i
      · rw [if_neg (by simp), hlow, Bool.and_false]
      · rw [if_pos rfl, BitVec.getLsbD_or, hone, Bool.or_true, decide_eq_true (Nat.lt_succ_self i)]
        rfl
    · have hbit : (1#32 <<< n).getLsbD i = false := by
        by_cases hlt : i < n
        · simp [hlt]
        · simp [show i-n ≠ 0 by omega]
      have hdec : decide (i < n+1) = decide (i < n) := by
        rw [decide_eq_decide]
        omega
      rw [hdec, ← ih]
      split_ifs
      · rw [BitVec.getLsbD_or, hbit, Bool.or_false]
      · rfl

theorem select_agrees_iff {p i : ℕ} (hi : i < processMaxFds) (hc : Covered (fdOf k.files p i).type) :
    SelectAgrees k p i ↔ (fdOf k.files p i).type ≠ .ext2 ∧ (fdOf k.files p i).type ≠ .vfs := by
  have hbit : SelectAgrees k p i ↔
      selectReadable k p i = fdIsReadable k p i ∧ selectWritable k p i = fdIsWritable k p i := by
    unfold SelectAgrees selectPass
    constructor
    · intro h
      obtain ⟨hr,hw⟩ := h 32 (BitVec.allOnes 32) (BitVec.allOnes 32) hi (le_refl _)
      have hone : (BitVec.allOnes 32).getLsbD i = true := by
        rw [BitVec.getLsbD_allOnes]
        exact decide_eq_true hi
      rw [collect_bit _ _ (le_refl _) hi, hone] at hr hw
      rw [decide_eq_true (show i < 32 from hi)] at hr hw
      exact ⟨by simpa using hr,by simpa using hw⟩
    · rintro ⟨hr,hw⟩ nfds readfds writefds hlt hle
      rw [collect_bit _ _ hle hi, collect_bit _ _ hle hi, decide_eq_true hlt, hr, hw]
      exact ⟨fun h => by simp [h],fun h => by simp [h]⟩
  rw [hbit]
  unfold selectReadable fdIsReadable selectWritable fdIsWritable
  rw [if_neg (Nat.not_le.mpr hi), if_neg (Nat.not_le.mpr hi)]
  rcases hc with h | h | h | h | h | h <;> simp [h]

theorem recv_eagain_ready (p j n : ℕ) {s : Sock} (hs : socketGet k.files.stack j = some s) :
    RecvEagain k p j n ↔ RecvEagainReady k p s := by
  unfold RecvEagain RecvEagainReady
  rw [recv_eagain_iff k p j n hs, recv_blocked_iff k p j n hs]
  cases hn : s.nonblocking with
  | false => simp
  | true =>
    cases ht : s.type with
    | dgram =>
      by_cases hu : s.udpCount = 0
      · simp [hu]
      · simp [hu, Nat.pos_of_ne_zero hu]
    | stream =>
      cases hc : s.tcpConnIdx with
      | none => simp
      | some c => cases hr : connTest k.files.stack tcpConnReadable (some c) <;> simp [hr]

theorem send_eagain_ready
    (hs : socketGet k.files.stack j = some s) : SendEagain k j data ↔ SendEagainReady k s data := by
  unfold SendEagain SendEagainReady
  rw [send_eagain_iff k j data s hs, send_blocked_iff k j data s hs]
  cases hn : s.nonblocking with
  | false => simp
  | true =>
    cases ht : s.type with
    | dgram => simp
    | stream =>
      cases hc : s.tcpConnIdx with
      | none => simp
      | some c => cases hw : connTest k.files.stack tcpConnWritable (some c) <;> simp [hw]

theorem accept_eagain_ready (p j : ℕ) {s : Sock} (hs : socketGet k.files.stack j = some s) :
    AcceptEagain k p j ↔ AcceptEagainReady k p s := by
  unfold AcceptEagain AcceptEagainReady
  rw [accept_eagain_iff k p j hs, accept_blocked_iff k p j hs]
  cases hn : s.nonblocking <;> cases hl : s.listening <;>
    cases connTest k.files.stack tcpConnAcceptable s.tcpConnIdx <;> simp

theorem eagain_closed {j : ℕ} (n : ℕ) (data : List UInt8) (hs : socketGet k.files.stack j = none) :
    RecvEagain k p j n ∧ SendEagain k j data ∧ AcceptEagain k p j := by
  refine ⟨fun h => ?_,fun h => ?_,fun h => ?_⟩
  · rw [recv_none _ j n p _ hs] at h
    simp [eagain] at h
  · rw [send_none k j data hs] at h
    simp [eagain] at h
  · rw [accept_none _ j p _ hs] at h
    simp [eagain] at h

/-- For every descriptor on a pipe, a socket, the console or a file: the
states in which each of the three answers is right about the blocking call. -/
theorem readiness_agrees (p i n : ℕ) (b : UInt8) (data : List UInt8) (hi : i < processMaxFds)
    (hc : Covered (fdOf k.files p i).type) :
    (ReadAgrees k p i ↔ ReadReady k p (fdOf k.files p i)) ∧
    (WriteAgrees k p i b ↔ WriteReady k (fdOf k.files p i)) ∧
    (SelectAgrees k p i ↔ (fdOf k.files p i).type ≠ .ext2 ∧ (fdOf k.files p i).type ≠ .vfs) ∧
    ((RecvEagain k p (fdOf k.files p i).data n ∧ SendEagain k (fdOf k.files p i).data data ∧
        AcceptEagain k p (fdOf k.files p i).data) ↔
      ∀ s, socketGet k.files.stack (fdOf k.files p i).data = some s →
        RecvEagainReady k p s ∧ SendEagainReady k s data ∧ AcceptEagainReady k p s) := by
  refine ⟨read_agrees_iff k hi hc,write_agrees_iff k b hi hc,select_agrees_iff k hi hc,?_⟩
  cases hs : socketGet k.files.stack (fdOf k.files p i).data with
  | none =>
    have h := eagain_closed k p n data hs
    simpa using h
  | some s =>
    rw [recv_eagain_ready k p _ n hs, send_eagain_ready k _ data s hs, accept_eagain_ready k p _ hs]
    simp

/-- The read end of a new pipe: right for reading and for `SYS_SELECT`. -/
theorem readiness_agrees_pipe :
    let k : Kern := { files := step boot (.pipe 0 true (some 1)), cfg := { mac := 0 } }
    ReadAgrees k 0 3 ∧ SelectAgrees k 0 3 ∧ ¬WriteAgrees k 0 3 7 := by
  intro k
  have htype : (fdOf k.files 0 3).type = .pipeRead := by decide
  have h := readiness_agrees k 0 3 1 7 [] (by decide) (.inl htype)
  refine ⟨h.1.mpr ?_,h.2.2.1.mpr ?_,fun hw => ?_⟩
  · unfold ReadReady
    rw [htype]
    decide
  · rw [htype]
    decide
  · have hready := h.2.1.mp hw
    unfold WriteReady at hready
    rw [htype] at hready
    exact hready

/-- `SYS_SELECT` never reports an open file; a full pipe that has lost its
readers is never writable although the write fails at once. -/
theorem readiness_differs :
    let open3 := step boot (.opens 0 { type := .ext2, data := 12 })
    let k : Kern := { files := open3, cfg := { mac := 0 } }
    let lost := step (step boot (.pipe 0 true (some 1))) (.close 0 3)
    let k' : Kern := { files := lost, fill := fun _ => 4096, cfg := { mac := 0 } }
    Reach (fun _ _ => True) open3 ∧ fdIsReadable k 0 3 = true ∧ sysRead (blocking k 0 3) 0 3 1 ≠ .blocked ∧
      (selectPass k 0 32 8 0).1 = 0 ∧ ¬SelectAgrees k 0 3 ∧
      Reach (fun _ _ => True) lost ∧ fdIsWritable k' 0 4 = false ∧ sysWrite (blocking k' 0 4) 0 4 [7] = .ret (-1) ∧
      ¬WriteAgrees k' 0 4 7 := by
  intro open3 k lost k'
  have hread : fdIsReadable k 0 3 = true := by decide
  have hsel : (selectPass k 0 32 8 0).1 = 0 := by decide
  have hwrite : fdIsWritable k' 0 4 = false := by decide
  have hret : sysWrite (blocking k' 0 4) 0 4 [7] = .ret (-1) := by decide
  refine ⟨?_,hread,by decide,hsel,fun h => ?_,?_,hwrite,hret,fun h => ?_⟩
  · exact .step boot _ .boot ⟨⟨by decide,rfl⟩,.inr (.inl rfl)⟩ trivial
  · have hbit := (h 32 8 0 (by decide) (by decide)).1 (by decide)
    rw [hsel, hread] at hbit
    exact absurd hbit (by decide)
  · refine .step _ _ (.step boot _ .boot ⟨⟨by decide,rfl⟩,?_⟩ trivial) ⟨by decide,by decide⟩ trivial
    rintro a ⟨rfl⟩
    exact ⟨by decide,rfl⟩
  · unfold WriteAgrees at h
    rw [hwrite, hret] at h
    simp at h

end HobbyOS.Readiness

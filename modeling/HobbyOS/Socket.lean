import HobbyOS.Tcp

/-!
# Sockets

The socket table of `net/socket.c` over the TCP table. A call that sleeps is
cut at its `schedule()`: `blocked` is the answer of the part before it.
-/

namespace HobbyOS.Socket
open Tcp Function

def maxSockets : ℕ := 32
def socketUdpQueueSize : ℕ := 8
def socketUdpPktSize : ℕ := 1472
def eagain : ℤ := 11

inductive SockType where
  | dgram
  | stream
  deriving DecidableEq, Repr

structure UdpPkt where
  data : List UInt8 := []
  srcIp : ℕ := 0
  srcPort : ℕ := 0
  valid : Bool := false
  deriving DecidableEq, Repr

/-- `tcp_conn_idx` is `none` when it is -1. -/
structure Sock where
  type : SockType := .dgram
  localIp : ℕ := 0
  localPort : ℕ := 0
  remoteIp : ℕ := 0
  remotePort : ℕ := 0
  bound : Bool := false
  listening : Bool := false
  connected : Bool := false
  inUse : Bool := false
  nonblocking : Bool := false
  refcount : ℤ := 0
  udpQueue : ℕ → UdpPkt := fun _ => {}
  udpHead : ℕ := 0
  udpTail : ℕ := 0
  udpCount : ℕ := 0
  tcpConnIdx : Option ℕ := none
  blockedReader : Option ℕ := none

structure Stack where
  host : Host
  sockets : ℕ → Sock := fun _ => {}
  nextEphemeralPort : ℕ := 49152

variable (st : Stack) (i : ℕ)

def setSocket (f : Sock → Sock) : Stack :=
  { st with sockets := update st.sockets i (f (st.sockets i)) }

def freeSocket : Option ℕ := (List.range maxSockets).find? fun i => !(st.sockets i).inUse

def socketCreate (type : SockType) : Stack × Option ℕ :=
  match freeSocket st with
  | some i => (setSocket st i fun _ => { type := type, inUse := true, refcount := 1 },some i)
  | none => (st,none)

def socketGet : Option Sock :=
  if i < maxSockets ∧ (st.sockets i).inUse = true then some (st.sockets i) else none

def socketBind (i ip port : ℕ) : Stack × ℤ :=
  match socketGet st i with
  | none => (st,-1)
  | some _ => (setSocket st i fun s => { s with
      localIp := if ip = 0 then st.host.ip else ip, localPort := port, bound := true },0)

def socketListen : Stack × ℤ :=
  match socketGet st i with
  | none => (st,-1)
  | some s =>
    if s.type ≠ .stream ∨ s.bound = false then (st,-1)
    else
      match tcpAllocConn st.host with
      | (_,none) => (st,-1)
      | (h,some c) =>
        let h := commit h c { conn := tcpListen (h.conns c) h.ip s.localPort }
        (setSocket { st with host := h } i fun s => { s with tcpConnIdx := some c, listening := true },0)

inductive Answer where
  | blocked
  | ret (r : ℤ)
  deriving DecidableEq, Repr

/-- `tcp_conn_acceptable` and its kin on the index of a socket. -/
def connTest (p : Conn → Bool) (idx : Option ℕ) : Bool :=
  idx.elim false fun i => decide (i < tcpMaxConns) && p (st.host.conns i)

/-- The new socket for a connection that `tcp_accept` has returned. -/
def socketAccepted (conn : ℕ) : Stack × ℤ :=
  match socketCreate st .stream with
  | (st,none) => (st,-1)
  | (st,some i) =>
    let c := st.host.conns conn
    (setSocket st i fun s => { s with
      tcpConnIdx := some conn, connected := true, bound := true
      localIp := if c.inUse then c.localIp else s.localIp
      localPort := if c.inUse then c.localPort else s.localPort
      remoteIp := if c.inUse then c.remoteIp else s.remoteIp
      remotePort := if c.inUse then c.remotePort else s.remotePort },i)

/-- `fatal` is the caller's pending fatal signal, `cur` its slot. -/
def socketAccept (i cur : ℕ) (fatal : Bool) : Stack × Answer :=
  match socketGet st i with
  | none => (st,.ret (-1))
  | some s =>
    if s.listening = false then (st,.ret (-1))
    else if s.nonblocking = true ∧ connTest st tcpConnAcceptable s.tcpConnIdx = false then
      (st,.ret (-eagain))
    else
      match s.tcpConnIdx with
      | none => (st,.ret (-1))
      | some c =>
        let r := tcpAccept (st.host.conns c) cur fatal
        let st := { st with host := commit st.host c { conn := r.1 } }
        match r.2 with
        | .blocked => (st,.blocked)
        | .failed => (st,.ret (-1))
        | .conn k => ((socketAccepted st k).1,.ret (socketAccepted st k).2)

/-- Up to the sleep in `tcp_connect` for a stream. -/
def socketConnect (i ip port now cur : ℕ) : Stack × Answer :=
  match socketGet st i with
  | none => (st,.ret (-1))
  | some s =>
    let src := if s.bound then s.localPort else st.nextEphemeralPort
    let next := if s.bound then st.nextEphemeralPort else (st.nextEphemeralPort+1) % 2^16
    match s.type with
    | .stream =>
      match tcpAllocConn st.host with
      | (_,none) => (st,.ret (-1))
      | (h,some c) =>
        let h := commit h c (tcpConnect (h.conns c) h.ip ip port src now cur)
        (setSocket { st with host := h, nextEphemeralPort := next } i fun s => { s with
          localPort := src, bound := true, tcpConnIdx := some c, remoteIp := ip, remotePort := port },.blocked)
    | .dgram =>
      (setSocket { st with nextEphemeralPort := next } i fun s => { s with
        localPort := src, bound := true, remoteIp := ip, remotePort := port, connected := true },.ret 0)

/-- What `socket_connect` does when its process runs again. -/
def socketConnectResume (i c : ℕ) : Stack × ℤ :=
  if (st.host.conns c).state = .established then
    (setSocket st i fun s => { s with connected := true },0)
  else (st,-1)

/-- A datagram as `udp_send` hands it to `ipv4_send`. -/
structure Datagram where
  dstIp : ℕ
  srcPort : ℕ
  dstPort : ℕ
  data : List UInt8
  deriving DecidableEq, Repr

def udpSend (d : Datagram) : Option Datagram := if 1480 < 8+d.data.length then none else some d

/-- The value returned when no address has to be waited for. -/
def socketSend (data : List UInt8) : Stack × Option Datagram × ℤ :=
  match socketGet st i with
  | none => (st,none,-1)
  | some s =>
    match s.type with
    | .stream =>
      match s.tcpConnIdx with
      | none => (st,none,-1)
      | some c =>
        if s.nonblocking = true ∧ connTest st tcpConnWritable (some c) = false then (st,none,-eagain)
        else
          let r := tcpSend (st.host.conns c) data
          ({ st with host := commit st.host c r.1 },none,if r.2 then data.length else -1)
    | .dgram =>
      if s.connected = false then (st,none,-1)
      else
        let d := udpSend ⟨s.remoteIp,s.localPort,s.remotePort,data⟩
        (st,d,if d.isSome then 0 else -1)

def socketRecv (i len cur : ℕ) (fatal : Bool) : Stack × Answer × List UInt8 :=
  match socketGet st i with
  | none => (st,.ret (-1),[])
  | some s =>
    match s.type with
    | .stream =>
      match s.tcpConnIdx with
      | none => (st,.ret (-1),[])
      | some c =>
        if s.nonblocking = true ∧ connTest st tcpConnReadable (some c) = false then (st,.ret (-eagain),[])
        else
          let r := tcpRecv (st.host.conns c) len cur fatal
          let st := { st with host := commit st.host c { conn := r.1 } }
          match r.2 with
          | .blocked => (st,.blocked,[])
          | .killed => (st,.ret (-1),[])
          | .got bytes => (st,.ret bytes.length,bytes)
    | .dgram =>
      if s.nonblocking = true ∧ s.udpCount = 0 then (st,.ret (-eagain),[])
      else if s.udpCount = 0 then
        if fatal then (st,.ret (-1),[])
        else (setSocket st i fun s => { s with blockedReader := some cur },.blocked,[])
      else
        let bytes := (s.udpQueue s.udpHead).data.take len
        (setSocket st i fun s => { s with
          udpQueue := update s.udpQueue s.udpHead { s.udpQueue s.udpHead with valid := false }
          udpHead := (s.udpHead+1) % socketUdpQueueSize
          udpCount := s.udpCount-1 },.ret bytes.length,bytes)

def socketClose : Stack :=
  match socketGet st i with
  | none => st
  | some s =>
    let st := setSocket st i fun s => { s with refcount := s.refcount-1 }
    if 0 < s.refcount-1 then st
    else
      let st := match s.type, s.tcpConnIdx with
        | .stream, some c => { st with host := commit st.host c (tcpClose (st.host.conns c)) }
        | _, _ => st
      setSocket st i fun s => { s with inUse := false }

def socketIncRef : Stack :=
  match socketGet st i with
  | none => st
  | some _ => setSocket st i fun s => { s with refcount := s.refcount+1 }

def socketReadable : Bool :=
  match socketGet st i with
  | none => false
  | some s =>
    match s.type with
    | .stream =>
      if s.listening then connTest st tcpConnAcceptable s.tcpConnIdx
      else connTest st tcpConnReadable s.tcpConnIdx
    | .dgram => decide (0 < s.udpCount)

def socketWritable : Bool :=
  match socketGet st i with
  | none => false
  | some s =>
    match s.type with
    | .stream => connTest st tcpConnWritable s.tcpConnIdx
    | .dgram => true

/-- The first bound datagram socket on the port takes the packet. -/
def socketUdpDeliver (dstPort srcIp srcPort : ℕ) (data : List UInt8) : Stack × Option ℕ :=
  match (List.range maxSockets).find? fun i => (st.sockets i).inUse && (st.sockets i).type == .dgram &&
      (st.sockets i).bound && (st.sockets i).localPort == dstPort with
  | none => (st,none)
  | some i =>
    if (st.sockets i).udpCount < socketUdpQueueSize then
      (setSocket st i fun s => { s with
        udpQueue := update s.udpQueue s.udpTail ⟨data.take socketUdpPktSize,srcIp,srcPort,true⟩
        udpTail := (s.udpTail+1) % socketUdpQueueSize
        udpCount := s.udpCount+1
        blockedReader := none },(st.sockets i).blockedReader)
    else (st,none)

end HobbyOS.Socket

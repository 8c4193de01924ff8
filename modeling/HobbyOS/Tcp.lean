import HobbyOS.ByteStore
import HobbyOS.BoundedLoop
import HobbyOS.RingBuffer

/-!
# The TCP table

The connections of one host as `tcp.c` keeps them, the segment handler, the
timer and the calls of the socket layer. What a function does to one
connection is an `Act`: the new record, the segments sent on the way and the
processes made ready. The table functions put acts into place. Header fields
that no receiver reads, the window and the checksum, are left out, and a
received segment has been cut into its fields.
-/

namespace HobbyOS.Tcp
open ByteStore BoundedLoop RingBuffer Function

def tcpMaxConns : ℕ := 32
def tcpRxBufSize : ℕ := 4096
def tcpAcceptQueue : ℕ := 4

inductive TcpState where
  | closed
  | listen
  | synSent
  | synReceived
  | established
  | finWait1
  | finWait2
  | closeWait
  | lastAck
  | timeWait
  deriving DecidableEq, Repr

abbrev Seq := BitVec 32
abbrev Flags := BitVec 8

def tcpFin : Flags := 0x01
def tcpSyn : Flags := 0x02
def tcpRst : Flags := 0x04
def tcpPsh : Flags := 0x08
def tcpAck : Flags := 0x10

def has (flags flag : Flags) : Bool := flags &&& flag != 0

structure Segment where
  srcPort : ℕ
  dstPort : ℕ
  seqNum : Seq
  ackNum : Seq
  flags : Flags
  data : List UInt8
  deriving DecidableEq, Repr

structure Conn where
  state : TcpState := .closed
  localIp : ℕ := 0
  localPort : ℕ := 0
  remoteIp : ℕ := 0
  remotePort : ℕ := 0
  sndNxt : Seq := 0
  sndUna : Seq := 0
  rcvNxt : Seq := 0
  rxBuf : Store := fun _ => 0
  rxReadPos : ℕ := 0
  rxWritePos : ℕ := 0
  rxCount : ℕ := 0
  blockedReader : Option ℕ := none
  blockedWriter : Option ℕ := none
  blockedAccepter : Option ℕ := none
  acceptQueue : ℕ → ℕ := fun _ => 0
  acceptHead : ℕ := 0
  acceptTail : ℕ := 0
  acceptCount : ℕ := 0
  parentIdx : Option ℕ := none
  retransmitData : Store := fun _ => 0
  retransmitLen : ℕ := 0
  retransmitSeq : Seq := 0
  retransmitTimer : ℕ := 0
  retransmitCount : ℕ := 0
  inUse : Bool := false
  eof : Bool := false

structure Act where
  conn : Conn
  out : List Segment := []
  woken : List ℕ := []

variable (c : Conn) (s : Segment) (a : Act)

def segment (flags : Flags) (data : List UInt8) : Segment where
  srcPort := c.localPort
  dstPort := c.remotePort
  seqNum := c.sndNxt
  ackNum := c.rcvNxt
  flags := flags
  data := data

/-- The packet buffer of `ipv4_send` bounds what leaves the host. -/
def ipv4Send : List Segment := if 20+(20+s.data.length) > 1500 then [] else [s]

def advance (n : Seq) (flags : Flags) (len : ℕ) : Seq :=
  n+(if has flags tcpSyn then 1 else 0)+(if has flags tcpFin then 1 else 0)+BitVec.ofNat 32 len

def tcpSendSegment (flags : Flags) (data : List UInt8) : Act :=
  if 20+data.length > 1500 then a
  else { a with
    conn := { a.conn with sndNxt := advance a.conn.sndNxt flags data.length }
    out := a.out++ipv4Send (segment a.conn flags data) }

def wakeReader : Act := { a with
  woken := a.woken++a.conn.blockedReader.toList
  conn := { a.conn with blockedReader := none } }

def wakeWriter : Act := { a with
  woken := a.woken++a.conn.blockedWriter.toList
  conn := { a.conn with blockedWriter := none } }

def takeAck : Conn :=
  if has s.flags tcpAck then { c with sndUna := s.ackNum } else c

def storeData (data : List UInt8) : Conn :=
  let copy := min data.length (tcpRxBufSize-c.rxCount)
  let r := (data.take copy).foldl (put tcpRxBufSize) (c.rxBuf,c.rxWritePos)
  { c with
    rxBuf := r.1
    rxWritePos := r.2
    rxCount := c.rxCount+copy
    rcvNxt := c.rcvNxt+BitVec.ofNat 32 copy }

def takeData (s : Segment) : Act :=
  if 0 < s.data.length ∧ s.seqNum = a.conn.rcvNxt then
    wakeReader (tcpSendSegment { a with conn := storeData a.conn s.data } tcpAck [])
  else a

def finSeen : Conn := { c with
  rcvNxt := s.seqNum+BitVec.ofNat 32 s.data.length+1
  state := .closeWait
  eof := true }

def takeFin (s : Segment) : Act :=
  if has s.flags tcpFin then
    wakeReader (tcpSendSegment { a with conn := finSeen a.conn s } tcpAck [])
  else a

def takeRst (s : Segment) : Act :=
  if has s.flags tcpRst then
    wakeWriter (wakeReader { a with conn := { a.conn with state := .closed, eof := true } })
  else a

def peerClosed : Conn := { c with
  rcvNxt := s.seqNum+1
  state := .timeWait }

/-- A FIN after the connection's own: the data of the segment is not looked at. -/
def takePeerFin (s : Segment) : Act :=
  if has s.flags tcpFin then tcpSendSegment { a with conn := peerClosed a.conn s } tcpAck [] else a

def finAcked : Conn :=
  if has s.flags tcpAck then { c with sndUna := s.ackNum, state := .finWait2 } else c

def connected : Conn := { c with
  rcvNxt := s.seqNum+1
  sndUna := s.ackNum
  state := .established }

/-- The handler of a segment for a connection that is not a listener. -/
def receiveConn : Act :=
  match c.state with
  | .synReceived =>
    if has s.flags tcpAck then { conn := { c with sndUna := s.ackNum, state := .established } }
    else { conn := c }
  | .synSent =>
    if s.flags &&& (tcpSyn ||| tcpAck) = tcpSyn ||| tcpAck then
      wakeWriter (tcpSendSegment { conn := connected c s } tcpAck [])
    else { conn := c }
  | .established => takeRst (takeFin (takeData { conn := takeAck c s } s) s) s
  | .finWait1 =>
    takePeerFin { conn := finAcked c s } s
  | .finWait2 => takePeerFin { conn := c } s
  | .lastAck =>
    if has s.flags tcpAck then { conn := { c with state := .closed, inUse := false } }
    else { conn := c }
  | _ => { conn := c }

def bytes (m : Store) (n : ℕ) : List UInt8 := (List.range n).map m

def resend : Act :=
  let a := tcpSendSegment { conn := { c with sndNxt := c.retransmitSeq } } (tcpAck ||| tcpPsh)
    (bytes c.retransmitData c.retransmitLen)
  { a with conn := { a.conn with
    sndNxt := c.sndNxt
    retransmitTimer := 50
    retransmitCount := c.retransmitCount+1 } }

def giveUp : Act :=
  let a := tcpSendSegment { conn := { c with retransmitLen := 0 } } tcpRst []
  wakeWriter (wakeReader { a with conn := { a.conn with state := .closed } })

def retransmitTick : Act :=
  if 0 < c.retransmitLen ∧ 0 < c.retransmitTimer then
    let c := { c with retransmitTimer := c.retransmitTimer-1 }
    if c.retransmitTimer = 0 then
      if c.retransmitCount < 3 then resend c else giveUp c
    else { conn := c }
  else { conn := c }

/-- The two seconds of TIME_WAIT are counted in the retransmit timer. -/
def timeWaitTick : Conn :=
  if c.state = .timeWait then
    let timer := (if c.retransmitTimer = 0 then 200 else c.retransmitTimer)-1
    if timer = 0 then { c with retransmitTimer := 0, state := .closed, inUse := false }
    else { c with retransmitTimer := timer }
  else c

def tickConn : Act :=
  if c.inUse then
    let a := retransmitTick c
    { a with conn := timeWaitTick a.conn }
  else { conn := c }

def keepChunk (chunk : List UInt8) : Conn := { c with
  retransmitSeq := c.sndNxt
  retransmitData := copy c.retransmitData chunk.length 0 (fun i => chunk.getD i 0) 0
  retransmitLen := chunk.length
  retransmitTimer := 50
  retransmitCount := 0 }

def sendChunk (chunk : List UInt8) : Act :=
  tcpSendSegment { a with conn := keepChunk a.conn chunk } (tcpAck ||| tcpPsh) chunk

def CanSend : Prop := c.state = .established ∨ c.state = .closeWait

instance (c : Conn) : Decidable (CanSend c) := inferInstanceAs (Decidable (_ ∨ _))

/-- The new connection, what was sent, and whether the data was accepted. -/
def tcpSend (data : List UInt8) : Act × Bool :=
  if CanSend c then
    (iterate (fun i a => sendChunk a ((data.drop (1460*i)).take 1460)) 0
      ((data.length+1459)/1460) { conn := c },true)
  else ({ conn := c },false)

inductive Received where
  | blocked
  | killed
  | got (data : List UInt8)
  deriving DecidableEq, Repr

def mustWait : Bool :=
  c.rxCount == 0 && !c.eof && c.state != .closed && c.state != .closeWait

def takeBytes (len : ℕ) : Conn × List UInt8 :=
  let copy := min len c.rxCount
  let r := takeOut tcpRxBufSize c.rxBuf copy c.rxReadPos
  ({ c with rxReadPos := r.2, rxCount := c.rxCount-copy },r.1)

/-- `fatal` is the reader's pending fatal signal. -/
def tcpRecv (len cur : ℕ) (fatal : Bool) : Conn × Received :=
  if mustWait c then
    if fatal then (c,.killed) else ({ c with blockedReader := some cur },.blocked)
  else if c.rxCount = 0 then (c,.got [])
  else
    let r := takeBytes c len
    (r.1,.got r.2)

def tcpClose : Act :=
  match c.state with
  | .established => tcpSendSegment { conn := { c with state := .finWait1 } } (tcpFin ||| tcpAck) []
  | .closeWait => tcpSendSegment { conn := { c with state := .lastAck } } (tcpFin ||| tcpAck) []
  | .listen => { conn := { c with state := .closed, inUse := false } }
  | .synSent => { conn := { c with state := .closed, inUse := false } }
  | _ => { conn := c }

/-- The first half of `tcp_connect`; the caller then sleeps. -/
def tcpConnect (ip dstIp dstPort srcPort now cur : ℕ) : Act :=
  let isn := BitVec.ofNat 32 (now*54321+1)
  let a := tcpSendSegment { conn := { c with
    localIp := ip, localPort := srcPort, remoteIp := dstIp, remotePort := dstPort
    sndNxt := isn, sndUna := isn, state := .synSent } } tcpSyn []
  { a with conn := { a.conn with blockedWriter := some cur } }

def tcpListen (ip port : ℕ) : Conn := { c with
  localIp := ip
  localPort := port
  state := .listen
  acceptHead := 0
  acceptTail := 0
  acceptCount := 0 }

structure Packet where
  srcIp : ℕ
  dstIp : ℕ
  seg : Segment
  deriving DecidableEq, Repr

structure Host where
  ip : ℕ
  conns : ℕ → Conn
  sent : List Packet
  woken : List ℕ

def commit (h : Host) (i : ℕ) (a : Act) : Host := { h with
  conns := update h.conns i a.conn
  sent := h.sent++a.out.map fun s => ⟨h.ip,a.conn.remoteIp,s⟩
  woken := h.woken++a.woken }

def fresh : Conn := { inUse := true }

def freeSlot (h : Host) : Option ℕ := (List.range tcpMaxConns).find? fun i => !(h.conns i).inUse

def tcpAllocConn (h : Host) : Host × Option ℕ :=
  match freeSlot h with
  | some i => (commit h i { conn := fresh },some i)
  | none => (h,none)

def Peer (srcIp srcPort dstPort : ℕ) : Prop :=
  c.inUse = true ∧ c.remoteIp = srcIp ∧ c.remotePort = srcPort ∧ c.localPort = dstPort

instance (c : Conn) (srcIp srcPort dstPort : ℕ) : Decidable (Peer c srcIp srcPort dstPort) :=
  inferInstanceAs (Decidable (_ ∧ _))

def Listens (dstPort : ℕ) : Prop :=
  c.inUse = true ∧ c.state = .listen ∧ c.localPort = dstPort

instance (c : Conn) (dstPort : ℕ) : Decidable (Listens c dstPort) :=
  inferInstanceAs (Decidable (_ ∧ _))

def findConnection (h : Host) (srcIp srcPort dstPort : ℕ) : Option ℕ :=
  ((List.range tcpMaxConns).find? fun i => Peer (h.conns i) srcIp srcPort dstPort).or
    ((List.range tcpMaxConns).find? fun i => Listens (h.conns i) dstPort)

def synReceived (ip port parent now : ℕ) (p : Packet) : Act :=
  let isn := BitVec.ofNat 32 (now*12345+1)
  tcpSendSegment { conn := { c with
    localIp := ip, localPort := port
    remoteIp := p.srcIp, remotePort := p.seg.srcPort
    rcvNxt := p.seg.seqNum+1, sndNxt := isn, sndUna := isn
    state := .synReceived, parentIdx := some parent } } (tcpSyn ||| tcpAck) []

def receiveSyn (h : Host) (parent now : ℕ) (p : Packet) : Host :=
  match tcpAllocConn h with
  | (h,none) => h
  | (h,some i) =>
    commit h i (synReceived (h.conns i) h.ip (h.conns parent).localPort parent now p)

def enqueue (idx : ℕ) : Act :=
  if c.acceptCount < tcpAcceptQueue then
    { conn := { c with
        acceptQueue := update c.acceptQueue c.acceptTail idx
        acceptTail := (c.acceptTail+1) % tcpAcceptQueue
        acceptCount := c.acceptCount+1
        blockedAccepter := none }
      woken := c.blockedAccepter.toList }
  else { conn := c }

def queueAccepted (h : Host) (idx : ℕ) : Host :=
  match (h.conns idx).parentIdx with
  | none => h
  | some parent => commit h parent (enqueue (h.conns parent) idx)

def tcpReceive (h : Host) (now : ℕ) (p : Packet) : Host :=
  match findConnection h p.srcIp p.seg.srcPort p.seg.dstPort with
  | none => h
  | some i =>
    if (h.conns i).state = .listen then
      if has p.seg.flags tcpSyn then receiveSyn h i now p else h
    else
      let h' := commit h i (receiveConn (h.conns i) p.seg)
      if (h.conns i).state = .synReceived ∧ has p.seg.flags tcpAck then queueAccepted h' i else h'

def tcpTick (h : Host) : Host :=
  iterate (fun i h => commit h i (tickConn (h.conns i))) 0 tcpMaxConns h

inductive Accepted where
  | blocked
  | failed
  | conn (i : ℕ)
  deriving DecidableEq, Repr

def tcpAccept (cur : ℕ) (fatal : Bool) : Conn × Accepted :=
  if c.state ≠ .listen then (c,.failed)
  else if c.acceptCount = 0 then
    if fatal then (c,.failed) else ({ c with blockedAccepter := some cur },.blocked)
  else
    ({ c with
      acceptHead := (c.acceptHead+1) % tcpAcceptQueue
      acceptCount := c.acceptCount-1 },.conn (c.acceptQueue c.acceptHead))

def tcpConnReadable : Bool :=
  c.inUse && (decide (0 < c.rxCount) || c.eof || c.state == .closed)

def tcpConnWritable : Bool := c.inUse && c.state == .established

def tcpConnAcceptable : Bool :=
  c.inUse && c.state == .listen && decide (0 < c.acceptCount)

/-- `socket_connect` and `socket_listen` take a fresh entry each time. -/
def openConnect (h : Host) (dstIp dstPort srcPort now cur : ℕ) : Host :=
  match tcpAllocConn h with
  | (h,none) => h
  | (h,some i) => commit h i (tcpConnect (h.conns i) h.ip dstIp dstPort srcPort now cur)

def openListen (h : Host) (port : ℕ) : Host :=
  match tcpAllocConn h with
  | (h,none) => h
  | (h,some i) => commit h i { conn := tcpListen (h.conns i) h.ip port }

end HobbyOS.Tcp

import HobbyOS.Ipv4
import HobbyOS.RxQueue
import HobbyOS.Socket

/-!
# Received frames

`ethernet_receive` hands the buffer of a frame down through ARP, IPv4, ICMP,
UDP and TCP, and the last handler releases it. A handler is what it does with
the buffer, in order, and what it does to the sockets. Nothing compares the
length of the IPv4 header with the length of the frame.
-/

namespace HobbyOS.Receive
open ByteStore Ipv4 Socket

structure Netbuf where
  data : Store
  len : ℕ
  offset : ℕ := 0

/-- Bytes of the buffer are read or written, or it is released. -/
inductive Use where
  | bytes (start n : ℕ)
  | free

def net16 (m : Store) (a : ℕ) : ℕ := (m a).toNat*256+(m (a+1)).toNat

def net32 (m : Store) (a : ℕ) : ℕ := net16 m a*2^16+net16 m (a+2)

def bytes (m : Store) (a n : ℕ) : List UInt8 := (List.range n).map fun i => m (a+i)

def sub32 (a b : ℕ) : ℕ := (a+2^32-b) % 2^32

variable (cfg : Config) (b : Netbuf) (st : Stack) (now : ℕ)

def remaining : ℕ := sub32 b.len b.offset

def arpReceive : List Use :=
  if remaining b < 28 then [.free] else [.bytes b.offset 28, .free]

def icmpReceive : List Use :=
  let n := remaining b
  if n < 8 then [.free]
  else if b.data b.offset = 8 then
    -- the checksum of the reply, then the copy in `ipv4_send`
    [.bytes b.offset 8, .bytes b.offset n]++
      (if (headerLen+n) % 2^32 ≤ 1500 then [.bytes b.offset n] else [])++[.free]
  else [.bytes b.offset 8, .free]

/-- The payload counts as read also where no socket takes it. -/
def udpReceive (b : Netbuf) (srcIp : ℕ) : List Use × Stack :=
  if remaining b < 8 then ([.free],st)
  else
    let n := min (sub32 (net16 b.data (b.offset+4)) 8) socketUdpPktSize
    ([.bytes b.offset 8, .bytes (b.offset+8) n, .free],
      (socketUdpDeliver st (net16 b.data (b.offset+2)) srcIp (net16 b.data b.offset)
        (bytes b.data (b.offset+8) n)).1)

def tcpReceive (b : Netbuf) (srcIp : ℕ) : List Use × Stack :=
  if remaining b < 20 then ([.free],st)
  else
    let o := b.offset
    let dataOff := (b.data (o+12)).toNat/16*4
    let dataLen := sub32 (remaining b) dataOff
    let seg : Tcp.Segment := ⟨net16 b.data o,net16 b.data (o+2),BitVec.ofNat 32 (net32 b.data (o+4)),
      BitVec.ofNat 32 (net32 b.data (o+8)),BitVec.ofNat 8 (b.data (o+13)).toNat,
      bytes b.data (o+dataOff) dataLen⟩
    match Tcp.findConnection st.host srcIp seg.srcPort seg.dstPort with
    | none => ([.bytes o 20, .free],st)
    | some i =>
      let c := st.host.conns i
      let copy := if c.state = .established ∧ 0 < dataLen ∧ seg.seqNum = c.rcvNxt then
        min dataLen (Tcp.tcpRxBufSize-c.rxCount) else 0
      ([.bytes o 20, .bytes (o+dataOff) copy, .free],
        { st with host := Tcp.tcpReceive st.host now ⟨srcIp,st.host.ip,seg⟩ })

def ihl : ℕ := (b.data b.offset).toNat % 16*4

def ipv4Accepts : Bool :=
  ipChecksum (bytes b.data b.offset (ihl b)) == 0 &&
    (net32 b.data (b.offset+16) == cfg.ip.toNat || net32 b.data (b.offset+16) == 2^32-1)

/-- The handlers above IPv4, which `protocol` chooses. -/
def transport (b : Netbuf) (protocol srcIp : ℕ) : List Use × Stack :=
  if protocol = 1 then (icmpReceive b,st)
  else if protocol = 17 then udpReceive st b srcIp
  else if protocol = 6 then tcpReceive st now b srcIp
  else ([.free],st)

def ipv4Receive (b : Netbuf) : List Use × Stack :=
  if remaining b < headerLen then ([.free],st)
  else
    let r := if ipv4Accepts cfg b then
        transport st now { b with offset := b.offset+ihl b } (b.data (b.offset+9)).toNat
          (net32 b.data (b.offset+12))
      else ([.free],st)
    (.bytes b.offset headerLen::.bytes b.offset (ihl b)::r.1,r.2)

def ethernetReceive (b : Netbuf) : List Use × Stack :=
  if b.len < ethHeaderLen then ([.free],st)
  else
    let c := { b with offset := ethHeaderLen }
    let r := if net16 b.data 12 = ethertypeArp then (arpReceive c,st)
      else if net16 b.data 12 = ethertypeIpv4 then ipv4Receive cfg st now c
      else ([.free],st)
    (.bytes 0 ethHeaderLen::r.1,r.2)

/-- Every access is to memory that is there, and the buffer is released once,
at the end. -/
def Released (mapped : ℕ) (us : List Use) : Prop :=
  (∀ a n, Use.bytes a n ∈ us → a+n ≤ mapped) ∧ ∃ vs, us = vs++[.free] ∧ Use.free ∉ vs

theorem released_free (mapped : ℕ) : Released mapped [.free] :=
  ⟨by simp,[],rfl,by simp⟩

theorem released_bytes (mapped a n : ℕ) (us : List Use) :
    Released mapped (.bytes a n::us) ↔ a+n ≤ mapped ∧ Released mapped us := by
  constructor
  · rintro ⟨hb,vs,he,hv⟩
    refine ⟨hb a n (by simp),fun a' n' h => hb a' n' (by simp [h]),?_⟩
    cases vs with
    | nil => simp at he
    | cons v vs =>
      rw [List.cons_append, List.cons.injEq] at he
      exact ⟨vs,he.2,fun h => hv (by simp [h])⟩
  · rintro ⟨hn,hb,vs,rfl,hv⟩
    refine ⟨fun a' n' h => ?_,.bytes a n::vs,rfl,by simp [hv]⟩
    obtain ⟨rfl,rfl⟩ | h := by simpa using h
    · exact hn
    · exact hb a' n' (by simpa using h)

/-- An accepted echo request with a header that is longer than the frame. -/
def Overrun : Prop :=
  ethHeaderLen+headerLen ≤ b.len ∧ net16 b.data 12 = ethertypeIpv4 ∧
    ipv4Accepts cfg { b with offset := ethHeaderLen } = true ∧ b.data 23 = 1 ∧
    b.data (ethHeaderLen+ihl { b with offset := ethHeaderLen }) = 8 ∧
    b.len < ethHeaderLen+ihl { b with offset := ethHeaderLen }

section released
variable (mapped : ℕ) (hlow : 4300 ≤ mapped) (hhigh : mapped < 2^32-60)
include hlow

theorem arp_released {b : Netbuf} (ho : b.offset ≤ 80) : Released mapped (arpReceive b) := by
  unfold arpReceive
  split_ifs
  · exact released_free mapped
  · simp only [released_bytes, released_free, and_true]
    omega

theorem udp_released (st : Stack) {b : Netbuf} (srcIp : ℕ) (ho : b.offset ≤ 80) :
    Released mapped (udpReceive st b srcIp).1 := by
  unfold udpReceive
  split_ifs
  · exact released_free mapped
  · simp only [released_bytes, released_free, and_true, socketUdpPktSize]
    omega

theorem tcp_released (st : Stack) (now : ℕ) {b : Netbuf} (srcIp : ℕ) (ho : b.offset ≤ 80) :
    Released mapped (tcpReceive st now b srcIp).1 := by
  unfold tcpReceive
  split_ifs
  · exact released_free mapped
  · dsimp only
    have hoff := (b.data (b.offset+12)).toNat_lt
    split
    · simp only [released_bytes, released_free, and_true]
      omega
    · simp only [released_bytes, released_free, and_true, Tcp.tcpRxBufSize]
      split_ifs <;> omega

include hhigh

theorem icmp_released_iff {b : Netbuf} (hl : b.len ≤ 2048) (ho : b.offset ≤ 74) (hd : b.offset ≤ b.len+54) :
    Released mapped (icmpReceive b) ↔ ¬(b.data b.offset = 8 ∧ b.len < b.offset) := by
  unfold icmpReceive
  have hrem : remaining b = if b.len < b.offset then 2^32-(b.offset-b.len) else b.len-b.offset := by
    unfold remaining sub32
    split_ifs <;> omega
  by_cases hlt : b.len < b.offset
  · rw [if_pos hlt] at hrem
    rw [hrem, if_neg (by omega)]
    by_cases h8 : b.data b.offset = 8
    · rw [if_pos h8]
      simp only [List.cons_append, List.nil_append, released_bytes, h8, hlt, and_self, not_true_eq_false,
        iff_false]
      omega
    · rw [if_neg h8]
      simp only [released_bytes, released_free, h8, false_and, not_false_eq_true, iff_true, and_true]
      omega
  · rw [if_neg hlt] at hrem
    simp only [hlt, and_false, not_false_eq_true, iff_true]
    split_ifs <;>
      simp only [List.cons_append, List.nil_append, released_bytes, released_free, and_true] <;> omega

theorem transport_released_iff (st : Stack) (now : ℕ) (b : Netbuf) (protocol srcIp : ℕ) (hl : b.len ≤ 2048)
    (ho : b.offset ≤ 74) (hd : b.offset ≤ b.len+54) : Released mapped (transport st now b protocol srcIp).1 ↔
      ¬(protocol = 1 ∧ b.data b.offset = 8 ∧ b.len < b.offset) := by
  unfold transport
  split_ifs with h1 h17 h6
  · simpa [h1] using icmp_released_iff mapped hlow hhigh hl ho hd
  · simpa [h1] using udp_released mapped hlow st srcIp (by omega)
  · simpa [h1] using tcp_released mapped hlow st now srcIp (by omega)
  · simpa [h1] using released_free mapped

theorem ethernet_released_iff (cfg : Config) (st : Stack) (now : ℕ) {b : Netbuf} (hl : b.len ≤ 2048) :
    Released mapped (ethernetReceive cfg st now b).1 ↔ ¬Overrun cfg b := by
  unfold ethernetReceive Overrun
  by_cases hshort : b.len < ethHeaderLen
  · simp only [if_pos hshort, released_free, true_iff]
    omega
  simp only [if_neg hshort, released_bytes]
  have h14 : 0+ethHeaderLen ≤ mapped := by unfold ethHeaderLen; omega
  simp only [h14, true_and]
  have htypes : ethertypeArp ≠ ethertypeIpv4 := by decide
  split_ifs with ha hi
  · simp only [ha, htypes, false_and, and_false, not_false_eq_true, iff_true]
    exact arp_released mapped hlow (by unfold ethHeaderLen; simp)
  · simp only [hi]
    unfold ipv4Receive
    have hihl : ihl { b with offset := ethHeaderLen } ≤ 60 := by
      unfold ihl
      omega
    have hrem : remaining { b with offset := ethHeaderLen } = b.len-ethHeaderLen := by
      unfold remaining sub32
      dsimp only
      omega
    rw [hrem]
    unfold ethHeaderLen headerLen at *
    by_cases h20 : b.len-14 < 20
    · simp only [if_pos h20, released_free, true_iff]
      omega
    · simp only [if_neg h20, released_bytes]
      have hfit : 14+20 ≤ mapped ∧ 14+ihl { b with offset := 14 } ≤ mapped := by omega
      simp only [hfit.1, hfit.2, true_and]
      cases hacc : ipv4Accepts cfg { b with offset := 14 } with
      | false => simp [released_free]
      | true =>
        have ht := transport_released_iff mapped hlow hhigh st now
          { b with offset := 14+ihl { b with offset := 14 } } (b.data 23).toNat (net32 b.data 26) hl
          (by dsimp only; omega) (by dsimp only; omega)
        refine ht.trans ?_
        have hproto : (b.data 23).toNat = 1 ↔ b.data 23 = 1 := by
          rw [← UInt8.toNat_inj]
          rfl
        simp only [hproto, true_and, not_iff_not]
        exact ⟨fun h => ⟨by omega,h⟩,fun h => h.2⟩
  · simp only [hi, false_and, and_false, not_false_eq_true, iff_true]
    exact released_free mapped

end released

/-- The interrupt queues the buffer or releases it; the handlers release it
once, unless an echo request has a header longer than its frame. -/
theorem buffer_owned_iff (mapped : ℕ) (hlow : 4300 ≤ mapped) (hhigh : mapped < 2^32-60) (cfg : Config)
    (st : Stack) (now : ℕ) (b : Netbuf) (hl : b.len ≤ 2048) :
    (Released mapped (ethernetReceive cfg st now b).1 ↔ ¬Overrun cfg b) ∧
      ∀ s : RxQueue.Rx Netbuf, s.rxHead < RxQueue.queueSize → s.rxTail < RxQueue.queueSize →
        RxQueue.netRxEnqueue s b = (s,true) ∨ (RxQueue.netRxEnqueue s b).2 = false ∧
          RxQueue.waiting (RxQueue.netRxEnqueue s b).1 = RxQueue.waiting s++[b] := by
  refine ⟨ethernet_released_iff mapped hlow hhigh cfg st now hl,fun s hh ht => ?_⟩
  by_cases hfull : (s.rxTail+1) % RxQueue.queueSize = s.rxHead
  · exact .inl (if_pos hfull)
  · exact .inr (RxQueue.waiting_enqueue s b hh ht hfull)

def quiet : Stack := { host := ⟨0x0A00020F,fun _ => {},[],[]⟩ }

theorem buffer_owned_iff_short : Released (2^20) (ethernetReceive hostConfig quiet 0 ⟨fun _ => 0,10,0⟩).1 :=
  (buffer_owned_iff (2^20) (by decide) (by decide) hostConfig quiet 0 ⟨fun _ => 0,10,0⟩ (by decide)).1.mpr
    fun h => absurd h.1 (by decide)

/-- 34 bytes with a header length of 60; the bytes behind the frame are left
over in the buffer. -/
def longHeader : Netbuf where
  data := place (fun i => if i = 74 then 8 else 0) (List.replicate 12 0++be16 ethertypeIpv4++[0x4F]++
    List.replicate 8 0++[1, 164, 239]++be32 0++be32 hostConfig.ip)
  len := 34

theorem long_header_not_released :
    Overrun hostConfig longHeader ∧ ¬Released (2^30) (ethernetReceive hostConfig quiet 0 longHeader).1 := by
  have ho : Overrun hostConfig longHeader := by
    unfold Overrun
    decide +kernel
  exact ⟨ho,(ethernet_released_iff (2^30) (by decide) (by decide) hostConfig quiet 0
    (by decide)).not.mpr (not_not.mpr ho)⟩

end HobbyOS.Receive

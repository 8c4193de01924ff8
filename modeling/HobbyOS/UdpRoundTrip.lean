import HobbyOS.Checksum
import HobbyOS.Receive

/-!
# UDP from host to host

The frame that `udp_send` puts on the wire, read by `ethernet_receive` of the
host it is addressed to.
-/

namespace HobbyOS.UdpRoundTrip
open ByteStore Ipv4 Checksum Socket Receive

section send
variable (cfg : Config) (id : ℕ) (c : Send)

theorem header_checked : ipChecksum (header cfg id c (ipChecksum (header cfg id c 0))) = 0 := by
  have hfield : ∀ x, header cfg id c x = withField
      ([0x45,0]++be16 (total c)++be16 id++be16 0x4000++[64,c.protocol]) (be32 cfg.ip++be32 c.dstIp) x := by
    simp [header, withField]
  rw [hfield, hfield]
  exact field_checked _ _ (by simp [be16]) (by simp [be16, be32])

end send

def udpBytes (srcPort dstPort : BitVec 16) (data : List UInt8) : List UInt8 :=
  be16 srcPort.toNat++be16 dstPort.toNat++be16 (8+data.length)++be16 0++data

def udpCall (dstIp : Ip) (srcPort dstPort : BitVec 16) (data : List UInt8) : Send :=
  ⟨udpBytes srcPort dstPort data,dstIp,17⟩

def udpSend (cfg : Config) (s : Net) (p : ℕ) (dstIp : Ip) (srcPort dstPort : BitVec 16)
    (data : List UInt8) (ok : Bool) : Ipv4.Answer :=
  if 1472+8 < 8+data.length then ⟨s,[],some (-1)⟩
  else ipv4Send cfg s p (udpCall dstIp srcPort dstPort data) ok

def frameBytes (f : Frame) : List UInt8 := be48 f.dst++be48 f.src++be16 f.ethertype++f.payload

def received (m : Store) (bytes : List UInt8) : Netbuf where
  data := place m bytes
  len := bytes.length

section fields
variable (m : Store) (xs ys zs : List UInt8) (n : ℕ) (hn : xs.length = n)
include hn

theorem place_middle {i : ℕ} (hi : i < ys.length) : place m (xs++(ys++zs)) (n+i) = ys[i] := by
  subst hn
  rw [place, List.getElem?_append_right (by omega), Nat.add_sub_cancel_left,
    List.getElem?_append_left hi, List.getElem?_eq_getElem hi]
  rfl

theorem bytes_middle : bytes (place m (xs++(ys++zs))) n ys.length = ys := by
  apply List.ext_getElem
  · simp [bytes]
  · intro i h1 h2
    simpa [bytes] using place_middle m xs ys zs n hn h2

end fields

theorem be16_read (x : ℕ) (hx : x < 2^16) : (UInt8.ofNat (x/256)).toNat*256+(UInt8.ofNat x).toNat = x := by
  simp only [UInt8.toNat_ofNat']
  omega

theorem be32_read (x : Ip) : ((UInt8.ofNat (x.toNat/2^24)).toNat*256+(UInt8.ofNat (x.toNat/2^16)).toNat)*2^16+
    ((UInt8.ofNat (x.toNat/2^8)).toNat*256+(UInt8.ofNat x.toNat).toNat) = x.toNat := by
  have hx := x.isLt
  simp only [UInt8.toNat_ofNat']
  omega

section trip
variable (sender receiver : Config) (srcPort dstPort : BitVec 16) (data : List UInt8)

theorem frame_split (id : ℕ) (mac : Mac) (pad : List UInt8) : ∃ pre : List UInt8, pre.length = 42 ∧
    frameBytes ⟨mac,sender.mac,ethertypeIpv4,
      packetBytes sender id (udpCall receiver.ip srcPort dstPort data)⟩++pad = pre++(data++pad) := by
  refine ⟨be48 mac++be48 sender.mac++be16 ethertypeIpv4++
    header sender id (udpCall receiver.ip srcPort dstPort data)
      (ipChecksum (header sender id (udpCall receiver.ip srcPort dstPort data) 0))++
    (be16 srcPort.toNat++be16 dstPort.toNat++be16 (8+data.length)++be16 0),rfl,?_⟩
  simp only [frameBytes, packetBytes, List.append_assoc]
  rfl

theorem udp_delivered (hd : data.length ≤ 1472) (id : ℕ) (mac : Mac) {pad : List UInt8} (m : Store)
    (st : Stack) (now : ℕ) (hpad : 42+data.length+pad.length ≤ 2048) :
    (ethernetReceive receiver st now (received m (frameBytes ⟨mac,sender.mac,ethertypeIpv4,
      packetBytes sender id (udpCall receiver.ip srcPort dstPort data)⟩++pad))).2 =
      (socketUdpDeliver st dstPort.toNat sender.ip.toNat srcPort.toNat data).1 := by
  have hchecked := header_checked sender id (udpCall receiver.ip srcPort dstPort data)
  obtain ⟨pre,hpre,hsplit⟩ := frame_split sender receiver srcPort dstPort data id mac pad
  have hdata : bytes (place m (pre++(data++pad))) 42 data.length = data :=
    bytes_middle m pre data pad 42 hpre
  rw [← hsplit] at hdata
  have hlen : (frameBytes ⟨mac,sender.mac,ethertypeIpv4,
      packetBytes sender id (udpCall receiver.ip srcPort dstPort data)⟩++pad).length =
      42+data.length+pad.length := by
    rw [hsplit]
    simp [hpre, Nat.add_assoc]
  unfold received
  rw [hlen]
  generalize hD : place m (frameBytes ⟨mac,sender.mac,ethertypeIpv4,
    packetBytes sender id (udpCall receiver.ip srcPort dstPort data)⟩++pad) = D at hdata ⊢
  -- the header fields, by computation
  have htype : net16 D 12 = ethertypeIpv4 := hD ▸ be16_read ethertypeIpv4 (by decide)
  have hsrc : net32 D 26 = sender.ip.toNat := hD ▸ be32_read sender.ip
  have hdst : net32 D 30 = receiver.ip.toNat := hD ▸ be32_read receiver.ip
  have hsp : net16 D 34 = srcPort.toNat := hD ▸ be16_read srcPort.toNat srcPort.isLt
  have hdp : net16 D 36 = dstPort.toNat := hD ▸ be16_read dstPort.toNat dstPort.isLt
  have hul : net16 D 38 = 8+data.length := hD ▸ be16_read (8+data.length) (by omega)
  have h14 : D 14 = 0x45 := hD ▸ rfl
  have h23 : D 23 = 17 := hD ▸ rfl
  have hhead : bytes D 14 20 = header sender id (udpCall receiver.ip srcPort dstPort data)
      (ipChecksum (header sender id (udpCall receiver.ip srcPort dstPort data) 0)) := hD ▸ rfl
  clear hD hsplit hlen
  obtain ⟨n,hn⟩ : ∃ n, n = 42+data.length+pad.length := ⟨_,rfl⟩
  rw [← hn]
  have hihl : ihl ⟨D,n,14⟩ = 20 := by
    unfold ihl
    dsimp only
    rw [h14]
    rfl
  have hacc : ipv4Accepts receiver ⟨D,n,14⟩ = true := by
    unfold ipv4Accepts
    simp [hihl, hhead, hchecked, hdst]
  have hrem : ∀ o ≤ 34, remaining ⟨D,n,o⟩ = n-o := by
    intro o ho
    unfold remaining sub32
    dsimp only
    omega
  have h17 : (D (14+9)).toNat = 17 := congrArg UInt8.toNat h23
  have hudp : sub32 (net16 D 38) 8 = data.length := by
    rw [hul, sub32]
    omega
  unfold ethernetReceive ethHeaderLen
  dsimp only
  rw [if_neg (by omega), if_neg (by rw [htype]; decide), if_pos htype]
  unfold ipv4Receive headerLen
  rw [hrem 14 (by omega), if_neg (by omega)]
  dsimp only
  rw [if_pos hacc, hihl, transport, h17, if_neg (by decide), if_pos rfl, udpReceive, hrem (14+20) (by omega),
    if_neg (by omega)]
  simp only [hsrc, hsp, hdp, hudp, hdata, socketUdpPktSize, Nat.reduceAdd, Nat.min_eq_left hd]

/-- The packet is put into the socket's queue and a waiting reader goes on. -/
def Queued (st : Stack) (i : ℕ) (pkt : UdpPkt) (st' : Stack) : Prop :=
  st' = setSocket st i fun s => { s with
    udpQueue := Function.update s.udpQueue s.udpTail pkt
    udpTail := (s.udpTail+1) % socketUdpQueueSize
    udpCount := s.udpCount+1
    blockedReader := none }

def Bound (s : Sock) (port : ℕ) : Prop :=
  s.inUse = true ∧ s.type = .dgram ∧ s.bound = true ∧ s.localPort = port

theorem deliver_queued {st : Stack} (i dstPort srcIp srcPort : ℕ) {data : List UInt8}
    (hd : data.length ≤ socketUdpPktSize) (hi : i < maxSockets) (hb : Bound (st.sockets i) dstPort)
    (hfirst : ∀ j < i, ¬Bound (st.sockets j) dstPort) (hroom : (st.sockets i).udpCount < socketUdpQueueSize) :
    Queued st i ⟨data,srcIp,srcPort,true⟩ (socketUdpDeliver st dstPort srcIp srcPort data).1 := by
  have hfind : ((List.range maxSockets).find? fun i => (st.sockets i).inUse && (st.sockets i).type == .dgram &&
      (st.sockets i).bound && (st.sockets i).localPort == dstPort) = some i := by
    rw [List.find?_range_eq_some]
    refine ⟨by simpa [Bound, and_assoc] using hb,List.mem_range.mpr hi,fun j hj => ?_⟩
    rw [Bool.not_eq_true', Bool.eq_false_iff]
    intro hc
    exact hfirst j hj (by simpa [Bound, and_assoc] using hc)
  unfold socketUdpDeliver Queued
  rw [hfind]
  simp only [if_pos hroom, List.take_of_length_le hd]

/-- The frame is sent at once or when the address is known, and the host it
is for queues the payload with the sender's address and port. -/
theorem udp_round_trip (s : Net) (p : ℕ) (hd : data.length ≤ 1472) :
    let c := udpCall receiver.ip srcPort dstPort data
    let hop := nextHop sender receiver.ip
    let r := udpSend sender s p receiver.ip srcPort dstPort data true
    ∃ f : Mac → Frame,
      (∀ mac, arpLookup s.arp hop = some mac → r.outs = [.ip c (f mac)]) ∧
      (arpLookup s.arp hop = none → ∀ (s' : Net) n mac, s'.blocked p = some ⟨c,n⟩ → s'.packet = r.net.packet →
        arpLookup s'.arp hop = some mac → (arpResume sender s' p true).outs = [.ip c (f mac)]) ∧
      ∀ mac pad m st now i, 42+data.length+pad.length ≤ 2048 → i < maxSockets →
        Bound (st.sockets i) dstPort.toNat → (∀ j < i, ¬Bound (st.sockets j) dstPort.toNat) →
        (st.sockets i).udpCount < socketUdpQueueSize →
        Queued st i ⟨data,sender.ip.toNat,srcPort.toNat,true⟩
          (ethernetReceive receiver st now (received m (frameBytes (f mac)++pad))).2 := by
  intro c hop r
  have htotal : total c = 28+data.length := by
    simp [c, total, headerLen, udpCall, udpBytes, be16]
    omega
  have hsent : ∀ (s' : Net) mac, s'.packet = (fill sender s c).packet →
      transmit sender s' c mac true = [.ip c ⟨mac,sender.mac,ethertypeIpv4,packetBytes sender s.ipId c⟩] := by
    intro s' mac hp
    have hlen := packet_length sender s.ipId c
    rw [transmit, hp, fill_buffer, ethernetSend, if_neg (by rw [hlen, htotal, ethHeaderLen]; omega)]
    rfl
  have hr : r = ipv4Send sender s p c true := if_neg (by omega)
  refine ⟨fun mac => ⟨mac,sender.mac,ethertypeIpv4,packetBytes sender s.ipId c⟩,?_,?_,?_⟩
  · intro mac hmac
    rw [hr, ipv4Send, if_neg (by omega)]
    have hl : arpLookup (fill sender s c).arp (nextHop sender c.dstIp) = some mac := hmac
    simp only [hl]
    exact hsent _ mac rfl
  · intro hnone s' n mac hb hp hmac
    have hl : arpLookup (fill sender s c).arp (nextHop sender c.dstIp) = none := hnone
    have hpacket : r.net.packet = (fill sender s c).packet := by
      rw [hr, ipv4Send, if_neg (by omega)]
      simp only [hl]
    have hl' : arpLookup s'.arp (nextHop sender c.dstIp) = some mac := hmac
    simp only [arpResume, hb, hl']
    exact hsent s' mac (hp.trans hpacket)
  · intro mac pad m st now i hpad hi hb hfirst hroom
    rw [udp_delivered sender receiver srcPort dstPort data hd s.ipId mac m st now hpad]
    exact deliver_queued i _ _ _ hd hi hb hfirst hroom

end trip

def peerConfig : Config := { ip := 0x0A000203, mac := 0xA }

def knowing : Net := { arp := fun i => if i = 0 then ⟨0x0A000203,0xA,true⟩ else {} }

def bound7 : Stack := { Receive.quiet with sockets := fun _ => { inUse := true, bound := true, localPort := 7 } }

theorem udp_round_trip_byte : ∃ f, (udpSend hostConfig knowing 1 peerConfig.ip 5 7 [42] true).outs =
      [.ip (udpCall peerConfig.ip 5 7 [42]) f] ∧
    Queued bound7 0 ⟨[42],0x0A00020F,5,true⟩
      (ethernetReceive peerConfig bound7 0 (received (fun _ => 0) (frameBytes f++[0]))).2 := by
  obtain ⟨f,h1,-,h3⟩ := udp_round_trip hostConfig peerConfig 5 7 [42] knowing 1 (by decide)
  exact ⟨f 0xA,h1 0xA (by decide +kernel),h3 0xA [0] _ bound7 0 0 (by decide) (by decide)
    ⟨rfl,rfl,rfl,rfl⟩ (fun j hj => absurd hj (Nat.not_lt_zero j)) (by decide)⟩

end HobbyOS.UdpRoundTrip

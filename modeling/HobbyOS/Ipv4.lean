import HobbyOS.ByteStore

/-!
# IPv4 sending and address resolution

`ipv4_send` builds every packet in one static buffer and then asks
`arp_resolve` for the next hop, which may wait for a reply. A caller that
waits finds in the buffer whatever the last caller put there. Packets are
whole as long as no call begins while another one waits.
-/

namespace HobbyOS.Ipv4
open ByteStore Function

abbrev Ip := BitVec 32
abbrev Mac := BitVec 48

structure Config where
  ip : Ip := 0x0A00020F
  netmask : Ip := 0xFFFFFF00
  gateway : Ip := 0x0A000202
  mac : Mac

def be16 (n : ℕ) : List UInt8 := [UInt8.ofNat (n/256), UInt8.ofNat n]

def be32 (x : Ip) : List UInt8 :=
  [UInt8.ofNat (x.toNat/2^24), UInt8.ofNat (x.toNat/2^16), UInt8.ofNat (x.toNat/2^8), UInt8.ofNat x.toNat]

def be48 (x : Mac) : List UInt8 := be16 (x.toNat/2^32)++be32 (BitVec.ofNat 32 x.toNat)

/-- The 32-bit field in network order at the front of the bytes. -/
def read32 : List UInt8 → Ip
  | a::b::c::d::_ => BitVec.ofNat 32 (a.toNat*2^24+b.toNat*2^16+c.toNat*2^8+d.toNat)
  | _ => 0

theorem read_be32 (x : Ip) (rest : List UInt8) : read32 (be32 x++rest) = x := by
  apply BitVec.eq_of_toNat_eq
  simp only [be32, List.cons_append, read32, UInt8.toNat_ofNat', BitVec.toNat_ofNat]
  omega

/-- The words are read in the machine's order. -/
def sum16 : List UInt8 → ℕ
  | a::b::rest => a.toNat+256*b.toNat+sum16 rest
  | [a] => a.toNat
  | [] => 0

def foldCarry : ℕ → ℕ → ℕ
  | 0, sum => sum
  | n+1, sum => if sum/2^16 = 0 then sum else foldCarry n (sum % 2^16+sum/2^16)

/-- Of a 32-bit sum; it is folded in at most three rounds. -/
def ipChecksum (bytes : List UInt8) : ℕ := 2^16-1-foldCarry 3 (sum16 bytes % 2^32) % 2^16

def place (m : Store) (bytes : List UInt8) : Store := fun i => (bytes[i]?).getD (m i)

theorem place_take (m : Store) (bytes : List UInt8) :
    (List.range bytes.length).map (place m bytes) = bytes := by
  apply List.ext_getElem
  · simp
  · intro i h1 h2
    simp [place, h2]

def ethHeaderLen : ℕ := 14
def ethertypeIpv4 : ℕ := 0x0800
def ethertypeArp : ℕ := 0x0806

structure Frame where
  dst : Mac
  src : Mac
  ethertype : ℕ
  payload : List UInt8
  deriving DecidableEq

/-- `ethernet_send` with a driver that takes the frame when `ok`. -/
def ethernetSend (cfg : Config) (payload : List UInt8) (dst : Mac) (ethertype : ℕ) (ok : Bool) :
    Option Frame :=
  if 1518 < ethHeaderLen+payload.length then none
  else if ok then some ⟨dst,cfg.mac,ethertype,payload⟩ else none

def arpTableSize : ℕ := 32

structure ArpEntry where
  ip : Ip := 0
  mac : Mac := 0
  valid : Bool := false
  deriving DecidableEq

def arpFind (t : ℕ → ArpEntry) (ip : Ip) : Option ℕ :=
  (List.range arpTableSize).find? fun i => (t i).valid && (t i).ip == ip

def arpLookup (t : ℕ → ArpEntry) (ip : Ip) : Option Mac := (arpFind t ip).map fun i => (t i).mac

def arpUpdate (t : ℕ → ArpEntry) (ip : Ip) (mac : Mac) : ℕ → ArpEntry :=
  match arpFind t ip with
  | some i => update t i { t i with mac := mac }
  | none =>
    match (List.range arpTableSize).find? fun i => !(t i).valid with
    | some i => update t i ⟨ip,mac,true⟩
    | none => update t 0 ⟨ip,mac,true⟩

def arpPacket (cfg : Config) (opcode : ℕ) (targetMac : Mac) (targetIp : Ip) : List UInt8 :=
  be16 1++be16 0x0800++[6, 4]++be16 opcode++be48 cfg.mac++be32 cfg.ip++be48 targetMac++be32 targetIp

def arpSendRequest (cfg : Config) (targetIp : Ip) (ok : Bool) : Option Frame :=
  ethernetSend cfg (arpPacket cfg 1 0 targetIp) (BitVec.allOnes 48) ethertypeArp ok

def arpSendReply (cfg : Config) (dstMac : Mac) (dstIp : Ip) (ok : Bool) : Option Frame :=
  ethernetSend cfg (arpPacket cfg 2 dstMac dstIp) dstMac ethertypeArp ok

def nextHop (cfg : Config) (ip : Ip) : Ip :=
  if ip &&& cfg.netmask ≠ cfg.ip &&& cfg.netmask then cfg.gateway else ip

structure Send where
  data : List UInt8
  dstIp : Ip
  protocol : UInt8
  deriving DecidableEq

def headerLen : ℕ := 20

def total (c : Send) : ℕ := headerLen+c.data.length

def header (cfg : Config) (id : ℕ) (c : Send) (checksum : ℕ) : List UInt8 :=
  [0x45, 0]++be16 (total c)++be16 id++be16 0x4000++[64, c.protocol]++
    [UInt8.ofNat checksum, UInt8.ofNat (checksum/256)]++be32 cfg.ip++be32 c.dstIp

def packetBytes (cfg : Config) (id : ℕ) (c : Send) : List UInt8 :=
  header cfg id c (ipChecksum (header cfg id c 0))++c.data

/-- A caller inside `arp_resolve`, with the number of waits that failed. -/
structure Blocked where
  call : Send
  attempt : ℕ
  deriving DecidableEq

structure Net where
  packet : Store := fun _ => 0
  ipId : ℕ := 1
  arp : ℕ → ArpEntry := fun _ => {}
  arpWaiter : Option ℕ := none
  arpWaiterIp : Ip := 0
  blocked : ℕ → Option Blocked := fun _ => none

/-- A frame, and for a packet the call it is sent for. -/
inductive Out where
  | arp (f : Frame)
  | ip (c : Send) (f : Frame)
  deriving DecidableEq

/-- The network after a stretch of a call, the frames sent in it and the
returned value, absent while the call waits. -/
structure Answer where
  net : Net
  outs : List Out
  ret : Option ℤ

def transmit (cfg : Config) (s : Net) (c : Send) (mac : Mac) (ok : Bool) : List Out :=
  ((ethernetSend cfg ((List.range (total c)).map s.packet) mac ethertypeIpv4 ok).map (.ip c)).toList

def fill (cfg : Config) (s : Net) (c : Send) : Net :=
  { s with packet := place s.packet (packetBytes cfg s.ipId c), ipId := (s.ipId+1) % 2^16 }

def transmitRet (cfg : Config) (s : Net) (c : Send) (mac : Mac) (ok : Bool) : ℤ :=
  if transmit cfg s c mac ok = [] then -1 else 0

/-- The call by process `p` up to its first wait. -/
def ipv4Send (cfg : Config) (s : Net) (p : ℕ) (c : Send) (ok : Bool) : Answer :=
  if 1500 < total c then ⟨s,[],some (-1)⟩
  else
    let s := fill cfg s c
    match arpLookup s.arp (nextHop cfg c.dstIp) with
    | some mac => ⟨s,transmit cfg s c mac ok,some (transmitRet cfg s c mac ok)⟩
    | none =>
      ⟨{ s with
          arpWaiter := some p, arpWaiterIp := nextHop cfg c.dstIp
          blocked := update s.blocked p (some ⟨c,0⟩) },
        ((arpSendRequest cfg (nextHop cfg c.dstIp) ok).map .arp).toList,none⟩

def arpResume (cfg : Config) (s : Net) (p : ℕ) (ok : Bool) : Answer :=
  match s.blocked p with
  | none => ⟨s,[],none⟩
  | some ⟨c,attempt⟩ =>
    match arpLookup s.arp (nextHop cfg c.dstIp) with
    | some mac =>
      ⟨{ s with arpWaiter := none, blocked := update s.blocked p none },
        transmit cfg s c mac ok,some (transmitRet cfg s c mac ok)⟩
    | none =>
      let request := ((arpSendRequest cfg (nextHop cfg c.dstIp) ok).map .arp).toList
      if attempt+1 < 3 then
        ⟨{ s with blocked := update s.blocked p (some ⟨c,attempt+1⟩) },request,none⟩
      else ⟨{ s with arpWaiter := none, blocked := update s.blocked p none },request,some (-1)⟩

structure ArpHeader where
  opcode : ℕ
  senderMac : Mac
  senderIp : Ip
  targetIp : Ip

def arpReceive (cfg : Config) (s : Net) (a : ArpHeader) (ok : Bool) : Net × List Out :=
  ({ s with
      arp := arpUpdate s.arp a.senderIp a.senderMac
      arpWaiter := if s.arpWaiterIp = a.senderIp then none else s.arpWaiter },
    if a.opcode = 1 ∧ a.targetIp = cfg.ip then
      ((arpSendReply cfg a.senderMac a.senderIp ok).map .arp).toList
    else [])

/-- The network and, for each address, the hardware address last heard for it. -/
structure Sys where
  net : Net := {}
  heard : Ip → Option Mac := fun _ => none

inductive Event where
  | send (p : ℕ) (c : Send) (ok : Bool)
  | resume (p : ℕ) (ok : Bool)
  | arpReceive (a : ArpHeader) (ok : Bool)

def step (cfg : Config) (s : Sys) : Event → Sys × List Out
  | .send p c ok => ({ s with net := (ipv4Send cfg s.net p c ok).net },(ipv4Send cfg s.net p c ok).outs)
  | .resume p ok => ({ s with net := (arpResume cfg s.net p ok).net },(arpResume cfg s.net p ok).outs)
  | .arpReceive a ok =>
    (⟨(arpReceive cfg s.net a ok).1,update s.heard a.senderIp (some a.senderMac)⟩,
      (arpReceive cfg s.net a ok).2)

def Alone (s : Sys) : Event → Prop
  | .send _ c _ => 1500 < total c ∨ ∀ q, s.net.blocked q = none
  | _ => True

inductive Reach (cfg : Config) : Sys → Prop where
  | init : Reach cfg {}
  | step (s : Sys) (e : Event) (hs : Reach cfg s) (ha : Alone s e) : Reach cfg (step cfg s e).1

/-- What a receiver reads in the frame is what the call asked for. -/
structure Carries (cfg : Config) (c : Send) (f : Frame) : Prop where
  ethertype : f.ethertype = ethertypeIpv4
  protocol : f.payload[9]? = some c.protocol
  source : read32 (f.payload.drop 12) = cfg.ip
  dest : read32 (f.payload.drop 16) = c.dstIp
  payload : f.payload.drop headerLen = c.data

variable {ip : Ip} (cfg : Config) (t : ℕ → ArpEntry)

theorem packet_length (id : ℕ) (c : Send) : (packetBytes cfg id c).length = total c := by
  simp [packetBytes, header, be16, be32, total, headerLen]
  omega

theorem packet_carries (id : ℕ) (c : Send) (dst src : Mac) :
    Carries cfg c ⟨dst,src,ethertypeIpv4,packetBytes cfg id c⟩ where
  ethertype := rfl
  protocol := rfl
  source := read_be32 cfg.ip (be32 c.dstIp++c.data)
  dest := read_be32 c.dstIp c.data
  payload := rfl

/-- The table holds what was last heard, once for each address. -/
structure Learned (t : ℕ → ArpEntry) (heard : Ip → Option Mac) : Prop where
  heard : ∀ i < arpTableSize, (t i).valid = true → heard (t i).ip = some (t i).mac
  once : ∀ i < arpTableSize, ∀ j < arpTableSize, (t i).valid = true → (t j).valid = true →
    (t i).ip = (t j).ip → i = j

theorem arp_find_some {i : ℕ} (h : arpFind t ip = some i) :
    i < arpTableSize ∧ (t i).valid = true ∧ (t i).ip = ip := by
  have hp := List.find?_some h
  simp only [Bool.and_eq_true, beq_iff_eq] at hp
  exact ⟨List.mem_range.mp (List.mem_of_find?_eq_some h),hp⟩

theorem arp_find_none {ip : Ip} (h : arpFind t ip = none) (i : ℕ) (hi : i < arpTableSize) (hv : (t i).valid = true) : (t i).ip ≠ ip := by
  have := List.find?_eq_none.mp h i (List.mem_range.mpr hi)
  simpa [hv] using this

theorem lookup_heard (heard : Ip → Option Mac) (h : Learned t heard) {mac : Mac} (hl : arpLookup t ip = some mac) : heard ip = some mac := by
  obtain ⟨i,hi,rfl⟩ := Option.map_eq_some_iff.mp hl
  obtain ⟨hlt,hv,rfl⟩ := arp_find_some t hi
  exact h.heard i hlt hv

theorem learned_set (heard : Ip → Option Mac) (h : Learned t heard) (mac : Mac) {i : ℕ}
    (hfree : ∀ j < arpTableSize, j ≠ i → (t j).valid = true → (t j).ip ≠ ip) :
    Learned (update t i ⟨ip,mac,true⟩) (update heard ip (some mac)) := by
  refine ⟨?_,?_⟩
  · intro j hj hv
    by_cases hji : j = i
    · rw [hji, update_self]
      exact update_self ..
    · rw [update_of_ne hji] at hv ⊢
      rw [update_of_ne (hfree j hj hji hv)]
      exact h.heard j hj hv
  · intro j hj k hk hvj hvk he
    by_cases hji : j = i <;> by_cases hki : k = i
    · rw [hji, hki]
    · rw [update_of_ne hki] at hvk he
      rw [hji, update_self] at he
      exact absurd he.symm (hfree k hk hki hvk)
    · rw [update_of_ne hji] at hvj he
      rw [hki, update_self] at he
      exact absurd he (hfree j hj hji hvj)
    · rw [update_of_ne hji] at hvj he
      rw [update_of_ne hki] at hvk he
      exact h.once j hj k hk hvj hvk he

theorem learned_update (heard : Ip → Option Mac) (h : Learned t heard) (ip : Ip) (mac : Mac) :
    Learned (arpUpdate t ip mac) (update heard ip (some mac)) := by
  unfold arpUpdate
  cases hf : arpFind t ip with
  | some i =>
    obtain ⟨hi,hv,rfl⟩ := arp_find_some t hf
    have he : ({ t i with mac := mac } : ArpEntry) = ⟨(t i).ip,mac,true⟩ := by rw [← hv]
    dsimp only
    rw [he]
    exact learned_set t heard h mac (fun j hj hji hvj hip => hji (h.once j hj i hi hvj hv hip))
  | none =>
    dsimp only
    have hall := arp_find_none t hf
    split
    · exact learned_set t heard h mac (fun j hj _ hv => hall j hj hv)
    · exact learned_set t heard h mac (fun j hj _ hv => hall j hj hv)

/-- While a call waits it is the only one, and the buffer holds its packet. -/
structure Inv (cfg : Config) (s : Sys) : Prop where
  learned : Learned s.net.arp s.heard
  single : ∀ p q b b', s.net.blocked p = some b → s.net.blocked q = some b' → p = q
  buffer : ∀ p b, s.net.blocked p = some b →
    ∃ id, (List.range (total b.call)).map s.net.packet = packetBytes cfg id b.call

theorem fill_buffer (s : Net) (c : Send) :
    (List.range (total c)).map (fill cfg s c).packet = packetBytes cfg s.ipId c := by
  rw [← packet_length cfg s.ipId c]
  exact place_take s.packet _

theorem transmit_carries {cfg : Config} {s : Net} {c c' : Send} {mac : Mac} {ok : Bool} {f : Frame} {id : ℕ}
    (hb : (List.range (total c)).map s.packet = packetBytes cfg id c)
    (ho : Out.ip c' f ∈ transmit cfg s c mac ok) : c' = c ∧ Carries cfg c f ∧ f.dst = mac := by
  unfold transmit ethernetSend at ho
  rw [hb] at ho
  split_ifs at ho
  · simp at ho
  · simp only [Option.map_some, Option.toList_some, List.mem_singleton, Out.ip.injEq] at ho
    obtain ⟨rfl,rfl⟩ := ho
    exact ⟨rfl,packet_carries cfg id c' mac cfg.mac,rfl⟩
  · simp at ho

theorem no_packet (o : Option Frame) (c : Send) (f : Frame) : Out.ip c f ∉ (o.map Out.arp).toList := by
  cases o <;> simp

theorem inv_block (s : Sys) (h : Inv cfg s) (p : ℕ) (b : Blocked) (hb : s.net.blocked p = some b) (o : Option Blocked)
    (ho : ∀ b' ∈ o, b'.call = b.call) (w : Option ℕ) :
    Inv cfg { s with net := { s.net with arpWaiter := w, blocked := update s.net.blocked p o } } := by
  have hold : ∀ q b', update s.net.blocked p o q = some b' →
      ∃ b'', s.net.blocked q = some b'' ∧ b'.call = b''.call := by
    intro q b' hq
    by_cases hqp : q = p
    · rw [hqp, update_self] at hq
      exact ⟨b,hqp ▸ hb,ho b' hq⟩
    · rw [update_of_ne hqp] at hq
      exact ⟨b',hq,rfl⟩
  refine ⟨h.learned,?_,?_⟩
  · intro q r b1 b2 h1 h2
    obtain ⟨b1',h1',-⟩ := hold q b1 h1
    obtain ⟨b2',h2',-⟩ := hold r b2 h2
    exact h.single q r b1' b2' h1' h2'
  · intro q b' hq
    obtain ⟨b'',hq',hc⟩ := hold q b' hq
    rw [hc]
    exact h.buffer q b'' hq'

theorem step_inv {cfg : Config} {s : Sys} {e : Event} (ha : Alone s e) (h : Inv cfg s) :
    Inv cfg (step cfg s e).1 := by
  cases e with
  | send p c ok =>
    dsimp only [step]
    unfold ipv4Send
    by_cases hlen : 1500 < total c
    · rw [if_pos hlen]
      exact h
    rw [if_neg hlen]
    have hnone := ha.resolve_left hlen
    dsimp only
    cases arpLookup (fill cfg s.net c).arp (nextHop cfg c.dstIp) with
    | some mac =>
      refine ⟨h.learned,?_,?_⟩
      · intro q r b b' hq
        cases (hnone q).symm.trans hq
      · intro q b hq
        cases (hnone q).symm.trans hq
    | none =>
      have hown : ∀ q b, update s.net.blocked p (some ⟨c,0⟩) q = some b → q = p ∧ b = ⟨c,0⟩ := by
        intro q b hq
        by_cases hqp : q = p
        · rw [hqp, update_self] at hq
          exact ⟨hqp,(Option.some.inj hq).symm⟩
        · rw [update_of_ne hqp, hnone q] at hq
          cases hq
      refine ⟨h.learned,?_,?_⟩
      · intro q r b b' hq hr
        rw [(hown q b hq).1, (hown r b' hr).1]
      · intro q b hq
        rw [(hown q b hq).2]
        exact ⟨s.net.ipId,fill_buffer cfg s.net c⟩
  | resume p ok =>
    dsimp only [step]
    unfold arpResume
    cases hb : s.net.blocked p with
    | none => exact h
    | some b =>
      dsimp only
      cases arpLookup s.net.arp (nextHop cfg b.call.dstIp) with
      | some mac => exact inv_block cfg s h p b hb none nofun none
      | none =>
        split_ifs
        · refine inv_block cfg s h p b hb (some ⟨b.call,b.attempt+1⟩) ?_ s.net.arpWaiter
          rintro b' ⟨⟩
          rfl
        · exact inv_block cfg s h p b hb none nofun none
  | arpReceive a ok =>
    exact ⟨learned_update _ _ h.learned _ _,h.single,h.buffer⟩

theorem reach_inv {cfg : Config} {s : Sys} (h : Reach cfg s) : Inv cfg s := by
  induction h with
  | init => exact ⟨⟨nofun,nofun⟩,nofun,nofun⟩
  | step s e _ ha ih => exact step_inv ha ih

/-- In a run in which no packet is built while a call waits, every packet on
the wire is the one its call asked for, sent to the hardware address last
heard for the call's next hop. -/
theorem packet_integrity (cfg : Config) (s : Sys) (hs : Reach cfg s) (e : Event) (ha : Alone s e)
    (c : Send) (f : Frame) (ho : Out.ip c f ∈ (step cfg s e).2) :
    Carries cfg c f ∧ s.heard (nextHop cfg c.dstIp) = some f.dst := by
  have h := reach_inv hs
  cases e with
  | send p c' ok =>
    dsimp only [step] at ho
    unfold ipv4Send at ho
    split_ifs at ho with hlen
    · cases ho
    · dsimp only at ho
      cases hl : arpLookup (fill cfg s.net c').arp (nextHop cfg c'.dstIp) with
      | some mac =>
        rw [hl] at ho
        obtain ⟨rfl,hc,hm⟩ := transmit_carries (fill_buffer cfg s.net c') ho
        rw [hm]
        exact ⟨hc,lookup_heard _ _ h.learned hl⟩
      | none =>
        rw [hl] at ho
        exact absurd ho (no_packet _ c f)
  | resume p ok =>
    dsimp only [step] at ho
    unfold arpResume at ho
    cases hb : s.net.blocked p with
    | none =>
      rw [hb] at ho
      cases ho
    | some b =>
      rw [hb] at ho
      dsimp only at ho
      cases hl : arpLookup s.net.arp (nextHop cfg b.call.dstIp) with
      | some mac =>
        rw [hl] at ho
        obtain ⟨id,hid⟩ := h.buffer p b hb
        obtain ⟨rfl,hc,hm⟩ := transmit_carries hid ho
        rw [hm]
        exact ⟨hc,lookup_heard _ _ h.learned hl⟩
      | none =>
        rw [hl] at ho
        split_ifs at ho <;> exact absurd ho (no_packet _ c f)
  | arpReceive a ok =>
    dsimp only [step, arpReceive] at ho
    split_ifs at ho
    · exact absurd ho (no_packet _ c f)
    · cases ho

def hostConfig : Config := { mac := 0x525400123456 }

def toNeighbour (host : Ip) (data : List UInt8) : Send := ⟨data,0x0A000200+host,17⟩

theorem packet_integrity_neighbour :
    let s := (step hostConfig (step hostConfig {} (.send 1 (toNeighbour 3 [1]) true)).1
      (.arpReceive ⟨2,0xA,0x0A000203,0x0A00020F⟩ true)).1
    ∃ f, Out.ip (toNeighbour 3 [1]) f ∈ (step hostConfig s (.resume 1 true)).2 ∧
      Carries hostConfig (toNeighbour 3 [1]) f ∧ s.heard 0x0A000203 = some f.dst := by
  have h0 : Reach hostConfig {} := .init
  have h1 := Reach.step _ (.send 1 (toNeighbour 3 [1]) true) h0 (.inr fun _ => rfl)
  have h2 := Reach.step _ (.arpReceive ⟨2,0xA,0x0A000203,0x0A00020F⟩ true) h1 trivial
  refine ⟨⟨0xA,hostConfig.mac,ethertypeIpv4,packetBytes hostConfig 1 (toNeighbour 3 [1])⟩,by decide +kernel,?_⟩
  exact packet_integrity hostConfig _ h2 (.resume 1 true) trivial _ _ (by decide +kernel)

/-- Two calls wait; the first one to go on sends the packet of the second. -/
theorem waiting_packet_replaced :
    let s := [Event.send 1 (toNeighbour 3 [1]) true, .send 2 (toNeighbour 4 [2]) true,
      .arpReceive ⟨2,0xA,0x0A000203,0x0A00020F⟩ true].foldl (fun s e => (step hostConfig s e).1) {}
    ∃ f, Out.ip (toNeighbour 3 [1]) f ∈ (step hostConfig s (.resume 1 true)).2 ∧
      f.payload.drop headerLen = [2] ∧ read32 (f.payload.drop 16) = 0x0A000204 ∧
      ¬Carries hostConfig (toNeighbour 3 [1]) f := by
  refine ⟨⟨0xA,hostConfig.mac,ethertypeIpv4,packetBytes hostConfig 2 (toNeighbour 4 [2])⟩,
    by decide +kernel,by decide +kernel,by decide +kernel,fun h => ?_⟩
  exact absurd h.payload (by decide +kernel)

end HobbyOS.Ipv4

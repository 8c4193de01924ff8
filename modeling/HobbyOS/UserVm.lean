import HobbyOS.PhysMem

/-!
# Address spaces, eviction and copy-on-write

`user_vm.c`, `swap.c` and `pmm_alloc_page`, function by function. A page
allocation may first evict pages, so the allocator stands after the swap
code. Nested page table walks keep the loop structure of the source.
-/

namespace HobbyOS.UserVm
open ByteStore BoundedLoop PageEntry PhysMem Process Function

variable (c : Ctx) (s : Mem) (addr : ℕ)

def pml4Index : ℕ := addr/2^39 % 512
def pdptIndex : ℕ := addr/2^30 % 512
def pdIndex : ℕ := addr/2^21 % 512
def ptIndex : ℕ := addr/2^12 % 512

/-- The pointer to a leaf entry is the table's frame and the index in it. -/
def userVmGetPte (r : Ram) (pml4 virt : ℕ) : Option (ℕ × ℕ) :=
  let e4 := entry r pml4 (pml4Index virt)
  if !has e4 ptePresent then none else
  let e3 := entry r (pteFrame e4) (pdptIndex virt)
  if !has e3 ptePresent then none else
  if has e3 pteHuge then none else
  let e2 := entry r (pteFrame e3) (pdIndex virt)
  if !has e2 ptePresent then none else
  if has e2 pteHuge then none else
  some (pteFrame e2,ptIndex virt)

def swapMaxPages : ℕ := 4096
def swapLowWatermark : ℕ := 32

def swapAllocSlot : Mem × Option ℕ :=
  match (List.range swapMaxPages).find? (fun i => !s.swapSlots i) with
  | some i => ({ s with
      swapSlots := update s.swapSlots i true
      swapUsed := inc64 s.swapUsed },some i)
  | none => (s,none)

def swapFreeSlot (slot : ℕ) : Mem :=
  if slot < swapMaxPages ∧ s.swapSlots slot then
    { s with
      swapSlots := update s.swapSlots slot false
      swapUsed := dec64 s.swapUsed }
  else s

def swappedEntry (slot : ℕ) : Pte := (BitVec.ofNat 64 slot <<< 12) ||| pteSwapped

/-- The page has a slot and its bytes are on disk: rewrite the entry, clear
the reverse map, release the frame. -/
def evictPage (page pml4 virt t i slot : ℕ) : Mem :=
  let r := setEntry s.ram t i (swappedEntry slot)
  let ev : Eviction := ⟨s.spaces,s.ram,r,page,slot,pml4,virt⟩
  let s := { s with
    swapArea := update s.swapArea slot (s.ram page)
    ram := r
    evictions := ev :: s.evictions }
  let s := pmmPageUnref (rmapClear s page) page
  { s with clockHand := (page+1) % s.totalPages }

def evictBody (total start j : ℕ) (s : Mem) : Flow Mem Bool :=
  let page := (start+j) % total
  if pmmPageRefcount s page ≠ 1 then .next s else
  match rmapGet s page with
  | none => .next s
  | some rm =>
    match processGetByPid c.table rm.pid with
    | none => .next s
    | some p =>
      let cr3 := (c.table p).cr3
      if cr3 = 0 then .next s else
      match userVmGetPte s.ram cr3 rm.virtAddr with
      | none => .next s
      | some (t,i) =>
        let e := entry s.ram t i
        if !has e ptePresent then .next s else
        if has e pteAccessed then .next { s with ram := setEntry s.ram t i (e &&& ~~~pteAccessed) }
        else
        match swapAllocSlot s with
        | (s,none) => .ret s false
        | (s,some slot) =>
          if !c.ataWriteOk slot then .ret (swapFreeSlot s slot) false
          else .ret (evictPage s page cr3 rm.virtAddr t i slot) true

def swapEvictOne : Mem × Bool :=
  if !s.swapReady then (s,false)
  else (forUp (evictBody c s.totalPages s.clockHand) 0 (s.totalPages*2) s).orElse
    (fun s => (s,false))

/-- The loop at the head of `pmm_alloc_page`, with its iterations left. -/
def evictWhileLow (c : Ctx) : ℕ → Mem → Mem
  | 0, s => s
  | n+1, s => if s.freePages < swapLowWatermark then evictWhileLow c n (swapEvictOne c s).1 else s

/-- The next-fit scan: the first free page from the hint on, wrapping. -/
def takePage : Mem × ℕ :=
  match (List.range s.totalPages).find?
      (fun j => !s.bitmap ((s.allocHint+j) % s.totalPages)) with
  | some j =>
    let i := (s.allocHint+j) % s.totalPages
    ({ s with
      bitmap := update s.bitmap i true
      freePages := dec64 s.freePages
      pageRefcount := update s.pageRefcount i 1
      allocHint := i+1 },i)
  | none => (s,0)

def pmmAllocPage : Mem × ℕ := takePage (evictWhileLow c 8 s)

def allocZeroedPage : Mem × ℕ :=
  match pmmAllocPage c s with
  | (s,0) => (s,0)
  | (s,p) => ({ s with ram := zeroPage s.ram p },p)

/-- Entries 256 to 511 come from the page table in use. -/
@[irreducible] def copyKernelEntries (r : Ram) (pml4 cr3 : ℕ) : Ram :=
  iterate (fun i r => setEntry r pml4 i (entry r cr3 i)) 256 256 r

def userVmCreateAddressSpace : Mem × ℕ :=
  match allocZeroedPage c s with
  | (s,0) => (s,0)
  | (s,p) => ({ s with ram := copyKernelEntries s.ram p s.cr3, spaces := p :: s.spaces },p)

/-- One level of `user_vm_map_page`: the table below entry `i` of `t`, made
when absent. The three levels of the source differ in the index only. -/
def nextTable (t i : ℕ) : Mem × Option ℕ :=
  if !has (entry s.ram t i) ptePresent then
    match allocZeroedPage c s with
    | (s,0) => (s,none)
    | (s,p) =>
      let e := BitVec.ofNat 64 (pageSize*p) ||| ptePresent ||| pteWritable ||| pteUser
      ({ s with ram := setEntry s.ram t i e },some (pteFrame e))
  else
    let e := entry s.ram t i ||| (pteUser ||| pteWritable)
    ({ s with ram := setEntry s.ram t i e },some (pteFrame e))

def kernelVma : ℕ := 0xFFFFFFFF80000000

/-- `rmap_set` in the name of whichever process is current. -/
def recordMapping (virt frame : ℕ) : Mem :=
  if virt < kernelVma then
    match c.current with
    | some p => rmapSet s frame (c.table p).pid virt
    | none => s
  else s

def leafEntry (frame : ℕ) (flags : Pte) : Pte := frameWord frame ||| flags ||| ptePresent

theorem leaf_entry_frame (f : ℕ) {flags : Pte} (hc : ∀ i, 12 ≤ i → i < 52 → bit flags i = false) :
    pteFrame (leafEntry f flags) = f % 2^40 := by
  have hw : frameWord f = frameWord (f % 2^40) := by
    apply eq_of_bits
    intro i _
    simp only [frameWord, bit_and, address_bit, Nat.testBit_mod_two_pow]
    by_cases h52 : i < 52
    · simp [show i-12 < 40 by omega]
    · simp [h52]
  unfold leafEntry
  rw [BitVec.or_assoc, hw]
  apply frame_compose _ (Nat.mod_lt _ (by decide))
  intro i h1 h2
  simp [hc i h1 h2, show i ≠ 0 by omega]

def userVmMapPage (pml4 virt frame : ℕ) (flags : Pte) : Mem × Bool :=
  match nextTable c s pml4 (pml4Index virt) with
  | (s,none) => (s,false)
  | (s,some pdpt) =>
    match nextTable c s pdpt (pdptIndex virt) with
    | (s,none) => (s,false)
    | (s,some pd) =>
      match nextTable c s pd (pdIndex virt) with
      | (s,none) => (s,false)
      | (s,some pt) =>
        let s := { s with ram := setEntry s.ram pt (ptIndex virt) (leafEntry frame flags) }
        (recordMapping c s virt frame,true)

/-- A caller fills its frame and maps it; if that fails it gives the frame
back. -/
def mapFilled (a virt f : ℕ) (content : Store) (flags : Pte) : Mem × Bool :=
  match userVmMapPage c { s with ram := update s.ram f content } a virt f flags with
  | (s,true) => (s,true)
  | (s,false) => (pmmFreePage s f,false)

def mapFresh (a virt : ℕ) (content : Store) (flags : Pte) : Mem × Bool :=
  match pmmAllocPage c s with
  | (s,0) => (s,false)
  | (s,f) => mapFilled c s a virt f content flags

/-- The address of a page from its indices, which occupy disjoint bits. -/
def virtOf (i4 i3 i2 i1 : ℕ) : ℕ := i4*2^39+i3*2^30+i2*2^21+i1*2^12

def cowFlags (flags : Pte) : Pte := (flags &&& ~~~pteWritable) ||| pteCow

/-- The fork goes on after a mapped page and gives up after a failed one. -/
def forkMapped : Mem × Bool → Flow Mem Unit
  | (s,true) => .next s
  | (s,false) => .ret s ()

/-- The body of the innermost loop of `user_vm_fork_address_space`. -/
def forkPage (child virt pt i : ℕ) (s : Mem) : Flow Mem Unit :=
  let e := entry s.ram pt i
  if !has e ptePresent then .next s else
  let frame := pteFrame e
  let flags := e &&& ~~~pteAddrMask
  let w := has flags pteWritable
  let flags := if w then cowFlags flags else flags
  let e := frameWord frame ||| flags
  let s := if w then { s with ram := setEntry s.ram pt i e } else s
  forkMapped (userVmMapPage c (pmmPageRef s frame) child virt frame flags)

def forkTable (child i4 i3 i2 pt : ℕ) (s : Mem) : Flow Mem Unit :=
  forUp (fun i1 => forkPage c child (virtOf i4 i3 i2 i1) pt i1) 0 512 s

def forkDirectory (child i4 i3 pd : ℕ) (s : Mem) : Flow Mem Unit :=
  forUp (fun i2 s =>
    let e := entry s.ram pd i2
    if !has e ptePresent then .next s else
    if has e pteHuge then .next s else
    forkTable c child i4 i3 i2 (pteFrame e) s) 0 512 s

def forkPointers (child i4 pdpt : ℕ) (s : Mem) : Flow Mem Unit :=
  forUp (fun i3 s =>
    let e := entry s.ram pdpt i3
    if !has e ptePresent then .next s else
    if has e pteHuge then .next s else
    forkDirectory c child i4 i3 (pteFrame e) s) 0 512 s

def forkSpace (parent child : ℕ) (s : Mem) : Flow Mem Unit :=
  forUp (fun i4 s =>
    let e := entry s.ram parent i4
    if !has e ptePresent then .next s else
    forkPointers c child i4 (pteFrame e) s) 0 256 s

def forkResult (child : ℕ) : Flow Mem Unit → Mem × ℕ
  | .next s => (s,child)
  | .ret s _ => (s,0)

def userVmForkAddressSpace (parent : ℕ) : Mem × ℕ :=
  match userVmCreateAddressSpace c s with
  | (s,0) => (s,0)
  | (s,child) => forkResult child (forkSpace c parent child s)

def destroyTable (pt : ℕ) (s : Mem) : Mem :=
  let s := iterate (fun i s =>
    let e := entry s.ram pt i
    if !has e ptePresent then s
    else pmmPageUnref (rmapClear s (pteFrame e)) (pteFrame e)) 0 512 s
  pmmFreePage s pt

def destroyDirectory (pd : ℕ) (s : Mem) : Mem :=
  let s := iterate (fun i s =>
    let e := entry s.ram pd i
    if !has e ptePresent then s else
    if has e pteHuge then s else destroyTable (pteFrame e) s) 0 512 s
  pmmFreePage s pd

def destroyPointers (pdpt : ℕ) (s : Mem) : Mem :=
  let s := iterate (fun i s =>
    let e := entry s.ram pdpt i
    if !has e ptePresent then s else
    if has e pteHuge then s else destroyDirectory (pteFrame e) s) 0 512 s
  pmmFreePage s pdpt

def userVmDestroyAddressSpace (pml4 : ℕ) : Mem :=
  let s := iterate (fun i s =>
    let e := entry s.ram pml4 i
    if !has e ptePresent then s else destroyPointers (pteFrame e) s) 0 256 s
  let s := pmmFreePage s pml4
  { s with spaces := s.spaces.erase pml4 }

def cowHandleFault (pml4 addr : ℕ) : Mem × Bool :=
  match userVmGetPte s.ram pml4 addr with
  | none => (s,false)
  | some (t,i) =>
    let e := entry s.ram t i
    if !has e ptePresent || !has e pteCow then (s,false) else
    let old := pteFrame e
    let flags := e &&& ~~~pteAddrMask
    let writable := (flags &&& ~~~pteCow) ||| pteWritable
    if pmmPageRefcount s old = 1 then
      ({ s with ram := setEntry s.ram t i (frameWord old ||| writable) },true)
    else
    match pmmAllocPage c s with
    | (s,0) => (s,false)
    | (s,new) =>
      let s := { s with ram := copyPage s.ram new old }
      let s := pmmPageUnref s old
      ({ s with ram := setEntry s.ram t i (frameWord new ||| writable) },true)

end HobbyOS.UserVm

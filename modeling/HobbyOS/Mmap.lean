import HobbyOS.UserVm

/-!
# Memory areas, swap-in and the page fault

`mmap.c`, the second half of `swap.c` and the order in which
`page_fault_handler` tries the handlers. A handler that records a shared
page in its memory area returns the changed process table. Physical
addresses are frame numbers here as well; `dev_phys_base` alone is an
address.
-/

namespace HobbyOS.Mmap
open ByteStore BoundedLoop PageEntry PhysMem Process UserVm Function

def protWrite : BitVec 32 := 2
def mapShared : BitVec 32 := 1

def pageBase (addr : ℕ) : ℕ := addr/pageSize*pageSize

def pageUp (n : ℕ) : ℕ := pageBase ((n+(pageSize-1)) % 2^64)

theorem page_base_spec (n : ℕ) :
    pageSize ∣ pageBase n ∧ pageBase n ≤ n ∧ n < pageBase n+pageSize := by
  refine ⟨Nat.dvd_mul_left _ _,?_,?_⟩
  · exact Nat.div_mul_le_self n pageSize
  · unfold pageBase pageSize
    omega

theorem page_up_spec (n : ℕ) (h : n+4095 < 2^64) :
    pageSize ∣ pageUp n ∧ n ≤ pageUp n ∧ pageUp n < n+pageSize := by
  have hp := page_base_spec (n+4095)
  have hu : pageUp n = pageBase (n+4095) := by
    unfold pageUp
    rw [show n+(pageSize-1) = n+4095 by rfl, Nat.mod_eq_of_lt h]
  rw [hu]
  refine ⟨hp.1,?_,?_⟩ <;> have := hp.2 <;> unfold pageSize at * <;> omega

theorem page_up_le {n m : ℕ} (h : n+4095 < 2^64) (hm : pageSize ∣ m) (hn : n ≤ m) :
    pageUp n ≤ m := by
  obtain ⟨⟨k,hk⟩,-,hlt⟩ := page_up_spec n h
  obtain ⟨j,rfl⟩ := hm
  unfold pageSize at *
  omega

def vmaFind (p : Proc) (addr : ℕ) : Option ℕ :=
  (List.range vmaMax).find? fun i =>
    (p.vmas i).inUse && decide ((p.vmas i).start ≤ addr) && decide (addr < (p.vmas i).stop)

variable (c : Ctx) (s : Mem) (t : Table) (v : Vma)

/-- The flags of a page in an area; device pages are also uncached. -/
def vmaFlags : Pte :=
  if v.prot &&& protWrite = 0 then ptePresent ||| pteUser
  else ptePresent ||| pteUser ||| pteWritable

def deviceFlags : Pte :=
  if v.prot &&& protWrite = 0 then ptePresent ||| pteUser ||| pteNocache
  else ptePresent ||| pteUser ||| pteNocache ||| pteWritable

/-- The part of an in-memory program image that falls into the page. -/
def elfPage (page : ℕ) : Store := fun o =>
  let offset := (page+(2^64-v.elfVaddr)) % 2^64
  if v.elfData ≠ 0 ∧ offset < v.elfDataFilesz ∧ o < min (v.elfDataFilesz-offset) pageSize then
    c.kernelMem (v.elfData+offset+o)
  else 0

def initialPage (page : ℕ) : Store :=
  match v.type with
  | .file => c.filePage v.fileInode (v.fileOffset+(page-v.start))
  | .elf => elfPage c v page
  | _ => fun _ => 0

def setSharedPhys (p i f : ℕ) : Table :=
  update t p { t p with
    vmas := update (t p).vmas i { (t p).vmas i with sharedPhys := f } }

/-- The shared page of a `MAP_SHARED` anonymous area, made on first use. -/
def vmaShared (p i : ℕ) : Mem × Table × ℕ :=
  if ((c.table p).vmas i).sharedPhys ≠ 0 then (s,c.table,((c.table p).vmas i).sharedPhys)
  else
    match allocZeroedPage c s with
    | (s,0) => (s,c.table,0)
    | (s,f) => (s,setSharedPhys c.table p i f,f)

/-- A private page: fresh and filled, or the device's own frame. -/
def vmaPrivate (a : ℕ) (v : Vma) (page : ℕ) : Mem × Bool :=
  match allocZeroedPage c s with
  | (s,0) => (s,false)
  | (s,f) =>
    if v.type = .device then
      userVmMapPage c (pmmPageUnref s f) a page ((v.devPhysBase+(page-v.start)) % 2^64/pageSize)
        (deviceFlags v)
    else
      userVmMapPage c { s with ram := update s.ram f (initialPage c v page) } a page f
        (vmaFlags v)

def vmaHandleFault (p addr : ℕ) (isWrite : Bool) : Mem × Table × Bool :=
  match vmaFind (c.table p) addr with
  | none => (s,c.table,false)
  | some i =>
    let v := (c.table p).vmas i
    if isWrite = true ∧ v.prot &&& protWrite = 0 then (s,c.table,false)
    else if v.flags &&& mapShared ≠ 0 ∧ v.type = .anon then
      match vmaShared c s p i with
      | (s,t,0) => (s,t,false)
      | (s,t,f) =>
        let r := userVmMapPage c s (c.table p).cr3 (pageBase addr) f (vmaFlags v)
        (r.1,t,r.2)
    else
      let r := vmaPrivate c s (c.table p).cr3 v (pageBase addr)
      (r.1,c.table,r.2)

def unmapPage (a virt : ℕ) (s : Mem) : Mem :=
  match userVmGetPte s.ram a virt with
  | none => s
  | some (t,i) =>
    let e := entry s.ram t i
    if has e ptePresent = false then s
    else { pmmPageUnref s (pteFrame e) with ram := setEntry s.ram t i 0#64 }

def unmapArea (a : ℕ) (v : Vma) (s : Mem) : Mem :=
  iterate (fun j => unmapPage a (v.start+pageSize*j)) 0 ((v.stop-v.start+(pageSize-1))/pageSize) s

/-- The areas a call with the given bounds gives up, whole. -/
def vmaOverlaps (addr stop : ℕ) : Bool :=
  v.inUse && decide (v.start < stop) && decide (addr < v.stop)

def dropVma (p i : ℕ) : Table :=
  update t p { t p with
    vmas := update (t p).vmas i { (t p).vmas i with inUse := false } }

def vmaUnmap (s : Mem) (p addr len : ℕ) : Mem × Table :=
  iterate (fun i (r : Mem × Table) =>
    let v := (r.2 p).vmas i
    if vmaOverlaps v (pageBase addr) (pageUp (addr+len)) then
      (unmapArea (r.2 p).cr3 v r.1,dropVma r.2 p i)
    else r) 0 vmaMax (s,t)

/-- The entry `vma_protect` writes: the frame under the flags of the new
protection, whatever the flags were. -/
def protectedEntry (prot : BitVec 32) (e : Pte) : Pte :=
  (e &&& pteAddrMask) ||| (if prot &&& protWrite = 0 then ptePresent ||| pteUser
    else ptePresent ||| pteUser ||| pteWritable)

def protectPage (a : ℕ) (prot : BitVec 32) (virt : ℕ) (s : Mem) : Mem :=
  match userVmGetPte s.ram a virt with
  | none => s
  | some (t,i) =>
    let e := entry s.ram t i
    if has e ptePresent = false then s
    else { s with ram := setEntry s.ram t i (protectedEntry prot e) }

def protectArea (a : ℕ) (prot : BitVec 32) (v : Vma) (s : Mem) : Mem :=
  iterate (fun j => protectPage a prot (v.start+pageSize*j)) 0
    ((v.stop-v.start+(pageSize-1))/pageSize) s

def setProt (p i : ℕ) (prot : BitVec 32) : Table :=
  update t p { t p with
    vmas := update (t p).vmas i { (t p).vmas i with prot := prot } }

def vmaProtect (s : Mem) (p addr len : ℕ) (prot : BitVec 32) : Mem × Table :=
  iterate (fun i (r : Mem × Table) =>
    let v := (r.2 p).vmas i
    if vmaOverlaps v (pageBase addr) (pageUp (addr+len)) then
      (protectArea (r.2 p).cr3 prot v r.1,setProt r.2 p i prot)
    else r) 0 vmaMax (s,t)

end HobbyOS.Mmap

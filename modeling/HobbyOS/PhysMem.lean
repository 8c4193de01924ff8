import HobbyOS.ByteStore
import HobbyOS.BoundedLoop
import HobbyOS.PageEntry
import HobbyOS.Process

/-!
# Physical memory

The state of `pmm.c`, `rmap.c` and `swap.c` with the contents of every
frame. A page table is an ordinary frame read as 512 words. The physical
address of a page is given by its frame number, so that zero is the absent
page in both. Two history variables are kept: the address spaces created
and not yet destroyed, and a record of every eviction.
-/

namespace HobbyOS.PhysMem
open ByteStore PageEntry Function

structure RmapEntry where
  pid : ℕ := 0
  virtAddr : ℕ := 0
  deriving DecidableEq, Repr

abbrev Ram := ℕ → Store

/-- What one eviction did: the spaces and the memory around it, the freed
frame and the entry that was rewritten. -/
structure Eviction where
  spaces : List ℕ
  before : Ram
  after : Ram
  frame : ℕ
  slot : ℕ
  pml4 : ℕ
  virt : ℕ

structure Mem where
  totalPages : ℕ
  bitmap : ℕ → Bool
  pageRefcount : ℕ → ℕ
  freePages : ℕ
  allocHint : ℕ
  kernelPageLimit : ℕ
  ram : Ram
  rmapTable : ℕ → RmapEntry
  swapSlots : ℕ → Bool
  swapUsed : ℕ
  swapReady : Bool
  clockHand : ℕ
  swapArea : Ram
  cr3 : ℕ
  spaces : List ℕ
  evictions : List Eviction

/-- The part of the kernel which the memory code reads and does not write:
the process table, the current process, the outcome of disk transfers, the
bytes behind file mappings and behind in-memory program images. -/
structure Ctx where
  table : Process.Table
  current : Option ℕ
  ataWriteOk : ℕ → Bool := fun _ => true
  ataReadOk : ℕ → Bool := fun _ => true
  filePage : ℕ → ℕ → Store := fun _ _ _ => 0
  kernelMem : Store := fun _ => 0

variable (s : Mem) (page : ℕ) (r : Ram)

def entry (t i : ℕ) : Pte := BitVec.ofNat 64 (load (r t) 8 (8*i))

def setEntry (t i : ℕ) (e : Pte) : Ram :=
  update r t (store (r t) 8 (8*i) e.toNat)

theorem entry_set_same (t i : ℕ) (e : Pte) : entry (setEntry r t i e) t i = e := by
  rw [entry, setEntry, update_self, load_store_of_lt _ _ _ _ (by have := e.isLt; omega)]
  simp

theorem entry_set_other (t i : ℕ) (e : Pte) (t' i' : ℕ) (h : t' ≠ t ∨ i' ≠ i) :
    entry (setEntry r t i e) t' i' = entry r t' i' := by
  rw [entry, setEntry, entry]
  by_cases ht : t' = t
  · subst ht
    rw [update_self, load_store_disjoint _ _ _ _ _ _ (by omega)]
  · rw [update_of_ne ht]

theorem set_entry_frame (t i : ℕ) (e : Pte) (t' : ℕ) (h : t' ≠ t) :
    setEntry r t i e t' = r t' := by
  rw [setEntry, update_of_ne h]

theorem entry_congr (r r' : Ram) (t i : ℕ) (h : r t = r' t) : entry r t i = entry r' t i := by
  rw [entry, entry, h]

def zeroPage (f : ℕ) : Ram := update r f (fun _ => 0)

def copyPage (dst src : ℕ) : Ram := update r dst (r src)

theorem entry_zero_page (f i : ℕ) : entry (zeroPage r f) f i = 0#64 := by
  rw [entry, zeroPage, update_self, load_zero]

def inc64 (n : ℕ) : ℕ := (n+1) % 2^64
def dec64 (n : ℕ) : ℕ := (n+(2^64-1)) % 2^64

def pmmPageRefcount : ℕ :=
  if page < s.totalPages then s.pageRefcount page else 0

def pmmPageRef : Mem :=
  if page < s.totalPages ∧ s.pageRefcount page < 255 then
    { s with pageRefcount := update s.pageRefcount page (s.pageRefcount page+1) }
  else s

/-- `bitmap_clear` and the free count, unless the page belongs to the kernel. -/
def releasePage : Mem :=
  if s.kernelPageLimit ≠ 0 ∧ page < s.kernelPageLimit then s
  else { s with bitmap := update s.bitmap page false, freePages := inc64 s.freePages }

def pmmPageUnref : Mem :=
  if page < s.totalPages ∧ s.pageRefcount page > 0 then
    let n := s.pageRefcount page-1
    let s := { s with pageRefcount := update s.pageRefcount page n }
    if n = 0 then releasePage s page else s
  else s

def pmmFreePage : Mem :=
  if page < s.totalPages ∧ s.bitmap page then
    if s.kernelPageLimit ≠ 0 ∧ page < s.kernelPageLimit then s
    else { releasePage s page with pageRefcount := update s.pageRefcount page 0 }
  else s

theorem unref_shape (f : ℕ) : ∃ b r n, pmmPageUnref s f =
    { s with bitmap := b, pageRefcount := r, freePages := n } := by
  unfold pmmPageUnref releasePage
  dsimp only
  split_ifs <;> exact ⟨_,_,_,rfl⟩

theorem free_page_shape (f : ℕ) : ∃ b r n, pmmFreePage s f =
    { s with bitmap := b, pageRefcount := r, freePages := n } := by
  unfold pmmFreePage releasePage
  split_ifs <;> exact ⟨_,_,_,rfl⟩

def rmapMaxPages : ℕ := 131072

def rmapSet (page pid virt : ℕ) : Mem :=
  if page < rmapMaxPages then
    { s with rmapTable := update s.rmapTable page ⟨pid,virt⟩ }
  else s

def rmapClear : Mem := rmapSet s page 0 0

def rmapGet : Option RmapEntry :=
  if page < rmapMaxPages ∧ (s.rmapTable page).pid ≠ 0 then some (s.rmapTable page) else none

theorem rmap_set_shape (f pid va : ℕ) : ∃ m, rmapSet s f pid va =
    { s with rmapTable := m } := by
  unfold rmapSet
  split_ifs <;> exact ⟨_,rfl⟩

section fields
variable (s : Mem) (f pid va : ℕ)

@[simp] theorem unref_ram : (pmmPageUnref s f).ram = s.ram := by
  obtain ⟨_,_,_,h⟩ := unref_shape s f
  rw [h]

@[simp] theorem unref_spaces : (pmmPageUnref s f).spaces = s.spaces := by
  obtain ⟨_,_,_,h⟩ := unref_shape s f
  rw [h]

@[simp] theorem unref_total : (pmmPageUnref s f).totalPages = s.totalPages := by
  obtain ⟨_,_,_,h⟩ := unref_shape s f
  rw [h]

@[simp] theorem unref_log : (pmmPageUnref s f).evictions = s.evictions := by
  obtain ⟨_,_,_,h⟩ := unref_shape s f
  rw [h]

@[simp] theorem rmap_set_ram : (rmapSet s f pid va).ram = s.ram := by
  obtain ⟨_,h⟩ := rmap_set_shape s f pid va
  rw [h]

@[simp] theorem rmap_set_spaces : (rmapSet s f pid va).spaces = s.spaces := by
  obtain ⟨_,h⟩ := rmap_set_shape s f pid va
  rw [h]

@[simp] theorem rmap_set_total : (rmapSet s f pid va).totalPages = s.totalPages := by
  obtain ⟨_,h⟩ := rmap_set_shape s f pid va
  rw [h]

@[simp] theorem rmap_set_log : (rmapSet s f pid va).evictions = s.evictions := by
  obtain ⟨_,h⟩ := rmap_set_shape s f pid va
  rw [h]

end fields

end HobbyOS.PhysMem

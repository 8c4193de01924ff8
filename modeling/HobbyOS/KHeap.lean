import HobbyOS.BlockList
import HobbyOS.Mmap

/-!
# The kernel heap

`kheap.c`: a first-fit allocator over one region, with a free list in address
order that is threaded through the headers. `block` gives the header at an
address; its mark is the `magic` of the source.
-/

namespace HobbyOS.KHeap
open BlockList PageEntry Mmap Function

def kheapStart : ℕ := 0xFFFFFFFF90000000
def kheapSize : ℕ := 4*1024*1024

def blockMagicAlloc : ℕ := 0xDEADBEEF
def blockMagicFree : ℕ := 0xFBEEBEEF
def blockHdrSize : ℕ := 24
def minBlockSize : ℕ := 16

def magic (free : Bool) : ℕ := if free then blockMagicFree else blockMagicAlloc

structure Heap where
  block : ℕ → Cell ℕ
  freeList : ℕ
  heapStart : ℕ
  heapEnd : ℕ

variable (block : ℕ → Cell ℕ) (pages : ℕ)

/-- The heap when the page allocator has backed the first `pages` pages. -/
def kheapInit : Heap where
  block := update block kheapStart
    ⟨min pages (kheapSize/pageSize)*pageSize-blockHdrSize,0,blockMagicFree⟩
  freeList := kheapStart
  heapStart := kheapStart
  heapEnd := kheapStart+min pages (kheapSize/pageSize)*pageSize

def rounds (h : Heap) : ℕ := (h.heapEnd-h.heapStart)/blockHdrSize+1

def setLink (h : Heap) (prev v : ℕ) : Heap :=
  { h with block := (relink h.block h.freeList prev v).1, freeList := (relink h.block h.freeList prev v).2 }

/-- The loop of both allocation functions: the first block that fits, with
the free block before it. -/
def findFit (h : Heap) (fits : ℕ → Bool) : ℕ → ℕ → ℕ → Option (ℕ × ℕ)
  | 0, _, _ => none
  | fuel+1, prev, cur =>
    if cur = 0 ∨ (h.block cur).mark ≠ blockMagicFree then none
    else if fits cur then some (prev,cur)
    else findFit h fits fuel cur (h.block cur).next

/-- Whether enough is left behind the allocation for a block of its own. -/
def splits (h : Heap) (size cur : ℕ) : Prop :=
  (size+blockHdrSize+minBlockSize) % 2^64 ≤ (h.block cur).size

instance (h : Heap) (size cur : ℕ) : Decidable (splits h size cur) := Nat.decLe _ _

def takeCells (h : Heap) (size cur : ℕ) : ℕ → Cell ℕ :=
  if splits h size cur then
    update (update h.block (cur+(blockHdrSize+size))
      ⟨(h.block cur).size-size-blockHdrSize,(h.block cur).next,blockMagicFree⟩)
      cur ⟨size,0,blockMagicAlloc⟩
  else update h.block cur ⟨(h.block cur).size,0,blockMagicAlloc⟩

def takeBlock (h : Heap) (size prev cur : ℕ) : Heap :=
  setLink { h with block := takeCells h size cur } prev
    (if splits h size cur then cur+(blockHdrSize+size) else (h.block cur).next)

def kmallocFits (h : Heap) (size cur : ℕ) : Bool := decide (size ≤ (h.block cur).size)

def kmalloc (h : Heap) (n : ℕ) : Heap × ℕ :=
  if n = 0 then (h,0)
  else
    match findFit h (kmallocFits h ((n+15) % 2^64/16*16)) (rounds h) 0 h.freeList with
    | none => (h,0)
    | some (prev,cur) => (takeBlock h ((n+15) % 2^64/16*16) prev cur,cur+blockHdrSize)

/-- The page boundary at or behind the data of a block, moved on by a page
where the gap is too small for a block of its own. -/
def alignedData (cur : ℕ) : ℕ :=
  if pageUp (cur+blockHdrSize) ≠ cur+blockHdrSize ∧
      pageUp (cur+blockHdrSize)-(cur+blockHdrSize) < blockHdrSize+minBlockSize
  then pageUp (cur+blockHdrSize)+pageSize else pageUp (cur+blockHdrSize)

def waste (cur : ℕ) : ℕ := alignedData cur-(cur+blockHdrSize)

def remaining (h : Heap) (size cur : ℕ) : ℕ :=
  ((h.block cur).size+(2^64-waste cur)+(2^64-size)) % 2^64

/-- An allocation from the middle of a free block: the gap before it stays
the free block, a large enough rest becomes another one. -/
def carveCells (h : Heap) (size cur : ℕ) : ℕ → Cell ℕ :=
  if blockHdrSize+minBlockSize ≤ remaining h size cur then
    update (update (update h.block
      (alignedData cur-blockHdrSize) ⟨size,0,blockMagicAlloc⟩)
      ((alignedData cur+size) % 2^64) ⟨remaining h size cur-blockHdrSize,(h.block cur).next,blockMagicFree⟩)
      cur ⟨waste cur-blockHdrSize,(alignedData cur+size) % 2^64,(h.block cur).mark⟩
  else
    update (update h.block
      (alignedData cur-blockHdrSize) ⟨(size+remaining h size cur) % 2^64,0,blockMagicAlloc⟩)
      cur { h.block cur with size := waste cur-blockHdrSize }

def fitsAligned (h : Heap) (size cur : ℕ) : Bool :=
  decide (waste cur = 0 ∧ size ≤ (h.block cur).size)

def fitsCarved (h : Heap) (size cur : ℕ) : Bool :=
  decide (blockHdrSize+minBlockSize ≤ waste cur ∧ (waste cur+size) % 2^64 ≤ (h.block cur).size)

def kmallocPageAligned (h : Heap) (n : ℕ) : Heap × ℕ :=
  if n = 0 then (h,0)
  else
    match findFit h (fun cur => fitsAligned h (pageUp n) cur || fitsCarved h (pageUp n) cur) (rounds h)
        0 h.freeList with
    | none => (h,0)
    | some (prev,cur) =>
      if fitsAligned h (pageUp n) cur then (takeBlock h (pageUp n) prev cur,cur+blockHdrSize)
      else ({ h with block := carveCells h (pageUp n) cur },alignedData cur)

/-- The place of a block in the address-ordered free list. -/
def insertionPoint (h : Heap) (block : ℕ) : ℕ → ℕ → ℕ → ℕ × ℕ
  | 0, prev, cur => (prev,cur)
  | fuel+1, prev, cur =>
    if cur ≠ 0 ∧ cur < block then insertionPoint h block fuel cur (h.block cur).next else (prev,cur)

def absorb (h : Heap) (p q : ℕ) : Heap :=
  { h with block := update h.block p { h.block p with
      size := (h.block p).size+(blockHdrSize+(h.block q).size), next := (h.block q).next } }

def coalesceNext (h : Heap) (block : ℕ) : Heap :=
  if (h.block block).next ≠ 0 ∧ block+(blockHdrSize+(h.block block).size) = (h.block block).next
  then absorb h block (h.block block).next else h

def coalescePrev (h : Heap) (prev block : ℕ) : Heap :=
  if prev ≠ 0 ∧ (h.block prev).mark = blockMagicFree ∧ prev+(blockHdrSize+(h.block prev).size) = block
  then absorb h prev block else h

/-- The block is free again and in the list; nothing is merged yet. -/
def insertFree (h : Heap) (block prev cur : ℕ) : Heap :=
  setLink { h with block := update h.block block ⟨(h.block block).size,cur,blockMagicFree⟩ } prev block

def kfree (h : Heap) (ptr : ℕ) : Heap :=
  if ptr = 0 ∨ (h.block (ptr-blockHdrSize)).mark ≠ blockMagicAlloc then h
  else
    match insertionPoint h (ptr-blockHdrSize) (rounds h) 0 h.freeList with
    | (prev,cur) =>
      coalescePrev (coalesceNext (insertFree h (ptr-blockHdrSize) prev cur) (ptr-blockHdrSize))
        prev (ptr-blockHdrSize)

/-- The region and where it lies; nothing here needs more than that its
addresses are far from the ends of the address space. -/
structure Tiled (h : Heap) (bs : List Block) : Prop where
  low : 0 < h.heapStart
  high : h.heapEnd+8192 ≤ 2^64
  covers : h.heapStart+span blockHdrSize bs = h.heapEnd
  chained : Chained blockHdrSize magic h.block h.freeList h.heapStart bs

variable {b : Block} (h : Heap) (a : ℕ) (xs ys bs : List Block)

theorem rounds_enough (ht : Tiled h bs) : bs.length < rounds h := by
  have hl := length_le blockHdrSize bs
  have hc := ht.covers
  unfold rounds
  have : bs.length ≤ (h.heapEnd-h.heapStart)/blockHdrSize := by
    rw [Nat.le_div_iff_mul_le (by decide)]
    rw [Nat.mul_comm]
    omega
  omega

theorem hdr_pos : 0 < blockHdrSize := by decide

theorem hdr_size : blockHdrSize = 24 ∧ minBlockSize = 16 := ⟨rfl,rfl⟩

theorem find_fit_found (fits : ℕ → Bool) (fuel prev cur prev' cur' : ℕ)
    (hf : findFit h fits fuel prev cur = some (prev',cur')) :
    (h.block cur').mark = blockMagicFree ∧ fits cur' = true := by
  induction fuel generalizing prev cur with
  | zero => cases hf
  | succ fuel ih =>
    rw [findFit] at hf
    split_ifs at hf with h1 h2
    · obtain ⟨rfl,rfl⟩ := Prod.mk.inj (Option.some.inj hf)
      push Not at h1
      exact ⟨h1.2,h2⟩
    · exact ih _ _ hf

theorem take_block_mark (size prev cur : ℕ) : ((takeBlock h size prev cur).block cur).mark = blockMagicAlloc := by
  have hcell : (takeCells h size cur cur).mark = blockMagicAlloc := by
    rw [takeCells]
    split_ifs <;> rw [update_self]
  exact (relink_mark (takeCells h size cur) h.freeList prev _ cur).trans hcell

theorem carve_size (size cur : ℕ) : (carveCells h size cur cur).size = waste cur-blockHdrSize := by
  rw [carveCells]
  split_ifs <;> rw [update_self]

theorem find_fit_spec (fits : ℕ → Bool) (a : ℕ) (ha : 0 < a) (fuel : ℕ) (xs ys : List Block)
    (hs : Seg blockHdrSize magic h.block (a+span blockHdrSize xs) ys 0) (hf : ys.length < fuel) :
    findFit h fits fuel (lastFree blockHdrSize a xs 0)
        (firstFree blockHdrSize (a+span blockHdrSize xs) ys 0) = none ∨
      ∃ us b vs, ys = us++b::vs ∧ b.free = true ∧ fits (a+span blockHdrSize (xs++us)) = true ∧
        findFit h fits fuel (lastFree blockHdrSize a xs 0)
            (firstFree blockHdrSize (a+span blockHdrSize xs) ys 0) =
          some (lastFree blockHdrSize a (xs++us) 0,a+span blockHdrSize (xs++us)) := by
  induction ys generalizing xs fuel with
  | nil =>
    left
    cases fuel <;> simp [findFit, firstFree]
  | cons b ys ih =>
    obtain ⟨h1,h2,h3,h4⟩ := hs
    have hspan : a+span blockHdrSize xs+(blockHdrSize+b.size) = a+span blockHdrSize (xs++[b]) := by
      rw [span_append, span, span]
      omega
    rw [hspan] at h3 h4
    cases hb : b.free with
    | false =>
      -- an allocated block is not in the list: the search does not move
      have hlast : lastFree blockHdrSize a (xs++[b]) 0 = lastFree blockHdrSize a xs 0 := by
        rw [last_free_append, lastFree, hb]
        rfl
      have hfirst : firstFree blockHdrSize (a+span blockHdrSize xs) (b::ys) 0 =
          firstFree blockHdrSize (a+span blockHdrSize (xs++[b])) ys 0 := by
        rw [firstFree, hb, hspan]
        rfl
      have := ih fuel (xs++[b]) h4 (by simp at hf; omega)
      rw [hlast, ← hfirst] at this
      rcases this with hn | ⟨us,f,vs,rfl,hff,hfit,he⟩
      · exact .inl hn
      · refine .inr ⟨b::us,f,vs,rfl,hff,?_,?_⟩
        · simpa using hfit
        · simpa using he
    | true =>
      obtain ⟨fuel,rfl⟩ : ∃ k, fuel = k+1 := ⟨fuel-1,by omega⟩
      have hfirst : firstFree blockHdrSize (a+span blockHdrSize xs) (b::ys) 0 = a+span blockHdrSize xs := by
        rw [firstFree, hb]
        rfl
      have hmark : (h.block (a+span blockHdrSize xs)).mark = blockMagicFree := by
        rw [h2, hb]
        rfl
      rw [hfirst, findFit, if_neg (by rw [hmark]; simp; omega)]
      cases hfit : fits (a+span blockHdrSize xs) with
      | true =>
        refine .inr ⟨[],b,ys,rfl,hb,?_,?_⟩
        · simpa using hfit
        · simp
      | false =>
        have hlast : lastFree blockHdrSize a (xs++[b]) 0 = a+span blockHdrSize xs := by
          rw [last_free_append, lastFree, hb]
          rfl
        have := ih fuel (xs++[b]) h4 (by simp at hf; omega)
        rw [hlast, ← h3 hb] at this
        rcases this with hn | ⟨us,f,vs,rfl,hff,hfit',he⟩
        · exact .inl hn
        · refine .inr ⟨b::us,f,vs,rfl,hff,?_,?_⟩
          · simpa using hfit'
          · simpa using he

theorem find_fit_some (ht : Tiled h bs) (fits : ℕ → Bool) {prev cur : ℕ}
    (hf : findFit h fits (rounds h) 0 h.freeList = some (prev,cur)) :
    ∃ xs b ys, bs = xs++([b]++ys) ∧ b.free = true ∧ fits cur = true ∧
      prev = lastFree blockHdrSize h.heapStart xs 0 ∧ cur = h.heapStart+span blockHdrSize xs := by
  have hspec := find_fit_spec h fits h.heapStart ht.low (rounds h) [] bs ht.chained.2 (rounds_enough h bs ht)
  rw [span, lastFree, Nat.add_zero, ← ht.chained.1, hf] at hspec
  rcases hspec with hn | ⟨us,b,vs,rfl,hb,hfit,he⟩
  · cases hn
  · obtain ⟨rfl,rfl⟩ := Prod.mk.inj (Option.some.inj he)
    exact ⟨us,b,vs,rfl,hb,hfit,rfl,rfl⟩

/-- The blocks an allocation of `size` bytes leaves of a free block. -/
def taken (size : ℕ) (b : Block) : List Block :=
  if size+blockHdrSize+minBlockSize ≤ b.size then [⟨size,false⟩,⟨b.size-size-blockHdrSize,true⟩]
  else [⟨b.size,false⟩]

theorem block_at (b : Block) (ht : Tiled h (xs++([b]++ys))) :
    (h.block (h.heapStart+span blockHdrSize xs)).size = b.size ∧
      (h.block (h.heapStart+span blockHdrSize xs)).mark = magic b.free ∧
      (b.free = true → (h.block (h.heapStart+span blockHdrSize xs)).next =
        firstFree blockHdrSize (h.heapStart+span blockHdrSize xs+(blockHdrSize+b.size)) ys 0) ∧
      h.heapStart+span blockHdrSize xs+(blockHdrSize+b.size)+span blockHdrSize ys = h.heapEnd := by
  have hs := ht.chained.2
  have hc := ht.covers
  rw [seg_append] at hs
  obtain ⟨-,h1,h2,h3,-⟩ := hs
  refine ⟨h1,h2,h3,?_⟩
  rw [span_append, span_append, span, span] at hc
  omega

theorem take_block_tiled {b : Block} (ht : Tiled h (xs++([b]++ys))) (hb : b.free = true) {size : ℕ}
    (hsize : size ≤ b.size) :
    Tiled (takeBlock h size (lastFree blockHdrSize h.heapStart xs 0) (h.heapStart+span blockHdrSize xs))
      (xs++(taken size b++ys)) := by
  obtain ⟨hsz,-,hnext,hend⟩ := block_at h xs ys b ht
  have hhigh := ht.high
  have hH := hdr_size
  have hspan1 : span blockHdrSize [b] = blockHdrSize+b.size := by simp [span]
  have hmod : (size+blockHdrSize+minBlockSize) % 2^64 = size+blockHdrSize+minBlockSize :=
    Nat.mod_eq_of_lt (by omega)
  have hsplit : splits h size (h.heapStart+span blockHdrSize xs) ↔ size+blockHdrSize+minBlockSize ≤ b.size := by
    rw [splits, hmod, hsz]
  have hspan : span blockHdrSize (taken size b) = span blockHdrSize [b] := by
    rw [taken]
    split_ifs
    · simp only [span]
      omega
    · simp [span]
  have hcovers : h.heapStart+span blockHdrSize (xs++(taken size b++ys)) = h.heapEnd := by
    have := ht.covers
    rw [span_append, span_append] at this ⊢
    rw [hspan, this]
  refine ⟨ht.low,ht.high,hcovers,?_⟩
  refine chained_splice blockHdrSize magic h.block hdr_pos h.freeList h.heapStart ht.low xs [b]
    (taken size b) ys (takeCells h size (h.heapStart+span blockHdrSize xs)) ht.chained hspan ?_ ?_ _ _ rfl ?_
  · rw [hspan1, ← hnext hb, takeCells, taken]
    by_cases hc : size+blockHdrSize+minBlockSize ≤ b.size
    · rw [if_pos (hsplit.mpr hc), if_pos hc]
      have hne : h.heapStart+span blockHdrSize xs+(blockHdrSize+size) ≠ h.heapStart+span blockHdrSize xs := by
        omega
      refine ⟨?_,?_,by simp,?_,?_,?_,trivial⟩
      · rw [update_self]
      · rw [update_self]
        rfl
      · rw [update_of_ne hne, update_self, hsz]
      · rw [update_of_ne hne, update_self]
        rfl
      · intro _
        rw [update_of_ne hne, update_self]
        rfl
    · rw [if_neg (fun h => hc (hsplit.mp h)), if_neg hc]
      refine ⟨?_,?_,by simp,trivial⟩
      · rw [update_self, hsz]
      · rw [update_self]
        rfl
  · intro x hx
    have hx0 : x ≠ h.heapStart+span blockHdrSize xs := by omega
    rw [takeCells]
    split_ifs with hc
    · have hc' := hsplit.mp hc
      have hx1 : x ≠ h.heapStart+span blockHdrSize xs+(blockHdrSize+size) := by omega
      rw [update_of_ne hx0, update_of_ne hx1]
    · rw [update_of_ne hx0]
  · rw [taken]
    by_cases hc : size+blockHdrSize+minBlockSize ≤ b.size
    · rw [if_pos (hsplit.mpr hc), if_pos hc]
      simp [firstFree]
    · rw [if_neg (fun h => hc (hsplit.mp h)), if_neg hc, hnext hb]
      simp [firstFree]

theorem aligned_data_spec (cur : ℕ) (h : cur+blockHdrSize+4095 < 2^64) :
    pageSize ∣ alignedData cur ∧ alignedData cur = cur+blockHdrSize+waste cur ∧ waste cur ≤ 4135 := by
  obtain ⟨hd,hle,hlt⟩ := page_up_spec (cur+blockHdrSize) h
  have hH := hdr_size
  unfold waste alignedData
  split_ifs with hc
  · refine ⟨Nat.dvd_add hd (Nat.dvd_refl _),?_,?_⟩
    · omega
    · unfold pageSize
      omega
  · refine ⟨hd,by omega,?_⟩
    unfold pageSize at hlt
    omega

/-- The blocks that an allocation at distance `w` leaves of a free block. -/
def carved (size w : ℕ) (b : Block) : List Block :=
  if blockHdrSize+minBlockSize ≤ b.size-w-size then
    [⟨w-blockHdrSize,true⟩,⟨size,false⟩,⟨b.size-w-size-blockHdrSize,true⟩]
  else [⟨w-blockHdrSize,true⟩,⟨b.size-w,false⟩]

theorem carve_tiled (b : Block) (ht : Tiled h (xs++([b]++ys))) (hb : b.free = true) (size : ℕ)
    (hw : blockHdrSize+minBlockSize ≤ waste (h.heapStart+span blockHdrSize xs))
    (hsize : waste (h.heapStart+span blockHdrSize xs)+size ≤ b.size) :
    Tiled { h with block := carveCells h size (h.heapStart+span blockHdrSize xs) }
      (xs++(carved size (waste (h.heapStart+span blockHdrSize xs)) b++ys)) := by
  obtain ⟨hsz,hmark,hnext,hend⟩ := block_at h xs ys b ht
  have hhigh := ht.high
  have hH := hdr_size
  generalize hcur : h.heapStart+span blockHdrSize xs = cur at *
  obtain ⟨-,hal,-⟩ := aligned_data_spec cur (by omega)
  have hspan1 : span blockHdrSize [b] = blockHdrSize+b.size := by simp [span]
  have hrem : remaining h size cur = b.size-waste cur-size := by
    rw [remaining]
    omega
  have htail : (alignedData cur+size) % 2^64 = alignedData cur+size := Nat.mod_eq_of_lt (by omega)
  have hspan : span blockHdrSize (carved size (waste cur) b) = span blockHdrSize [b] := by
    rw [carved]
    split_ifs <;> simp only [span] <;> omega
  have hcovers : h.heapStart+span blockHdrSize (xs++(carved size (waste cur) b++ys)) = h.heapEnd := by
    have := ht.covers
    rw [span_append, span_append] at this ⊢
    rw [hspan, this]
  have hnew : Seg blockHdrSize magic (carveCells h size cur) cur (carved size (waste cur) b) (h.block cur).next := by
    rw [carveCells, carved, hrem, htail]
    have hn1 : alignedData cur-blockHdrSize ≠ cur := by omega
    have ha1 : cur+(blockHdrSize+(waste cur-blockHdrSize)) = alignedData cur-blockHdrSize := by omega
    split_ifs with hc
    · have ha2 : alignedData cur-blockHdrSize+(blockHdrSize+size) = alignedData cur+size := by omega
      have hn2 : alignedData cur+size ≠ cur := by omega
      have hn3 : alignedData cur-blockHdrSize ≠ alignedData cur+size := by omega
      simp only [Seg, firstFree, ha1, ha2, update_self, update_of_ne hn1,
        update_of_ne hn2, update_of_ne hn3, hmark, hb]
      simp [magic]
    · simp only [Seg, firstFree, ha1, update_self, update_of_ne hn1, hmark, hb]
      refine ⟨trivial,trivial,by simp,by omega,rfl,by simp,trivial⟩
  refine ⟨ht.low,ht.high,hcovers,?_⟩
  refine chained_replace blockHdrSize magic h.block hdr_pos h.freeList h.heapStart xs [b]
    (carved size (waste cur) b) ys (carveCells h size cur) ht.chained hspan ?_ ?_ ?_
  · rw [hcur, hspan1, ← hnext hb]
    exact hnew
  · intro x hx
    have hx0 : x ≠ cur := by omega
    have hx1 : x ≠ alignedData cur-blockHdrSize := by omega
    rw [carveCells, htail]
    split_ifs with hc
    · have hx2 : x ≠ alignedData cur+size := by omega
      rw [update_of_ne hx0, update_of_ne hx2, update_of_ne hx1]
    · rw [update_of_ne hx0, update_of_ne hx1]
  · rw [carved]
    split_ifs <;> simp [firstFree, hb]

/-- The search for the place of the block at the end of `us` has passed `zs`. -/
theorem insertion_point_spec (ha : 0 < a) (fuel : ℕ) (zs us ys : List Block) (b : Block)
    (hs : Seg blockHdrSize magic h.block (a+span blockHdrSize zs) (us++b::ys) 0) (hb : b.free = false)
    (hf : us.length < fuel) :
    insertionPoint h (a+span blockHdrSize (zs++us)) fuel (lastFree blockHdrSize a zs 0)
        (firstFree blockHdrSize (a+span blockHdrSize zs) (us++b::ys) 0) =
      (lastFree blockHdrSize a (zs++us) 0,
        firstFree blockHdrSize (a+span blockHdrSize (zs++us)+(blockHdrSize+b.size)) ys 0) := by
  have hH := hdr_size
  induction us generalizing zs fuel with
  | nil =>
    obtain ⟨fuel,rfl⟩ : ∃ k, fuel = k+1 := ⟨fuel-1,by simp at hf; omega⟩
    have hfirst : firstFree blockHdrSize (a+span blockHdrSize zs) ([]++b::ys) 0 =
        firstFree blockHdrSize (a+span blockHdrSize zs+(blockHdrSize+b.size)) ys 0 := by
      rw [List.nil_append, firstFree, hb]
      rfl
    rw [hfirst, List.append_nil, insertionPoint, if_neg]
    rintro ⟨h0,hlt⟩
    rcases first_free_split blockHdrSize (a+span blockHdrSize zs+(blockHdrSize+b.size)) ys 0 with
      ⟨hz,-⟩ | ⟨vs,f,ws,-,-,-,he⟩ <;> omega
  | cons u us ih =>
    obtain ⟨h1,h2,h3,h4⟩ := hs
    have hspan : a+span blockHdrSize zs+(blockHdrSize+u.size) = a+span blockHdrSize (zs++[u]) := by
      rw [span_append, span, span]
      omega
    rw [hspan] at h3 h4
    have hcat : zs++u::us = (zs++[u])++us := by simp
    rw [hcat]
    cases hu : u.free with
    | false =>
      have hlast : lastFree blockHdrSize a (zs++[u]) 0 = lastFree blockHdrSize a zs 0 := by
        rw [last_free_append, lastFree, hu]
        rfl
      have hfirst : firstFree blockHdrSize (a+span blockHdrSize zs) (u::us++b::ys) 0 =
          firstFree blockHdrSize (a+span blockHdrSize (zs++[u])) (us++b::ys) 0 := by
        rw [List.cons_append, firstFree, hu, hspan]
        rfl
      rw [hfirst, ← hlast]
      exact ih fuel (zs++[u]) h4 (by simp at hf; omega)
    | true =>
      obtain ⟨fuel,rfl⟩ : ∃ k, fuel = k+1 := ⟨fuel-1,by omega⟩
      have hlast : lastFree blockHdrSize a (zs++[u]) 0 = a+span blockHdrSize zs := by
        rw [last_free_append, lastFree, hu]
        rfl
      have hfirst : firstFree blockHdrSize (a+span blockHdrSize zs) (u::us++b::ys) 0 =
          a+span blockHdrSize zs := by
        rw [List.cons_append, firstFree, hu]
        rfl
      have hlt : a+span blockHdrSize zs < a+span blockHdrSize (zs++[u]++us) := by
        rw [span_append, span_append, span]
        omega
      rw [hfirst, insertionPoint, if_pos ⟨by omega,hlt⟩, h3 hu, ← hlast]
      exact ih fuel (zs++[u]) h4 (by simp at hf; omega)

theorem insert_free_tiled {h : Heap} {xs ys : List Block} (ht : Tiled h (xs++([b]++ys))) :
    Tiled (insertFree h (h.heapStart+span blockHdrSize xs) (lastFree blockHdrSize h.heapStart xs 0)
        (firstFree blockHdrSize (h.heapStart+span blockHdrSize xs+(blockHdrSize+b.size)) ys 0))
      (xs++([⟨b.size,true⟩]++ys)) := by
  obtain ⟨hsz,-,-,-⟩ := block_at h xs ys b ht
  have hH := hdr_size
  have hspan1 : span blockHdrSize [b] = blockHdrSize+b.size := by simp [span]
  have hcovers : h.heapStart+span blockHdrSize (xs++([⟨b.size,true⟩]++ys)) = h.heapEnd := by
    have := ht.covers
    rw [span_append] at this ⊢
    simpa [span] using this
  refine ⟨ht.low,ht.high,hcovers,?_⟩
  refine chained_splice blockHdrSize magic h.block hdr_pos h.freeList h.heapStart ht.low xs [b]
    [⟨b.size,true⟩] ys (update h.block (h.heapStart+span blockHdrSize xs) _) ht.chained
    (by simp [span]) ?_ ?_ _ _ rfl ?_
  · refine ⟨?_,?_,?_,trivial⟩
    · rw [update_self, hsz]
    · rw [update_self]
      rfl
    · intro _
      rw [update_self]
      rfl
  · intro x hx
    exact update_of_ne (by omega) _ _
  · simp [firstFree]

theorem absorb_tiled {h : Heap} {xs ys : List Block} {c : Block} (ht : Tiled h (xs++b::c::ys)) (hb : b.free = true)
    (hc : c.free = true) :
    Tiled (absorb h (h.heapStart+span blockHdrSize xs) (h.heapStart+span blockHdrSize xs+(blockHdrSize+b.size)))
      (xs++⟨b.size+(blockHdrSize+c.size),true⟩::ys) := by
  have hs := ht.chained.2
  rw [seg_append] at hs
  obtain ⟨-,h1,-,-,h2,-⟩ := hs
  have hcovers : h.heapStart+span blockHdrSize (xs++⟨b.size+(blockHdrSize+c.size),true⟩::ys) = h.heapEnd := by
    rw [← ht.covers, span_append, span_append, span, span, span]
    dsimp only
    omega
  have hm := chained_merge blockHdrSize magic h.block hdr_pos hb hc ht.chained
    rfl
  refine ⟨ht.low,ht.high,hcovers,?_⟩
  rw [absorb, h1, h2]
  exact hm

theorem coalesce_next_tiled {h : Heap} {xs ys : List Block} (ht : Tiled h (xs++b::ys)) (hb : b.free = true)
    (hs : Spaced ys) :
    ∃ b' ys', Tiled (coalesceNext h (h.heapStart+span blockHdrSize xs)) (xs++b'::ys') ∧
      b'.free = true ∧ Spaced (b'::ys') ∧
      live blockHdrSize (h.heapStart+span blockHdrSize xs) (b'::ys') =
        live blockHdrSize (h.heapStart+span blockHdrSize xs) (b::ys) := by
  obtain ⟨hsz,-,hnext,-⟩ := block_at h xs ys b ht
  have hH := hdr_size
  generalize hcur : h.heapStart+span blockHdrSize xs = cur at *
  rw [coalesceNext, hsz, hnext hb]
  cases ys with
  | nil =>
    refine ⟨b,[],?_,hb,by simp [Spaced],rfl⟩
    exact ht
  | cons f ys =>
    cases hf : f.free with
    | true =>
      have hfirst : firstFree blockHdrSize (cur+(blockHdrSize+b.size)) (f::ys) 0 = cur+(blockHdrSize+b.size) := by
        rw [firstFree, hf]
        rfl
      rw [hfirst, if_pos ⟨by omega,rfl⟩]
      refine ⟨⟨b.size+(blockHdrSize+f.size),true⟩,ys,hcur ▸ absorb_tiled ht hb hf,rfl,?_,?_⟩
      · unfold Spaced at hs ⊢
        cases ys with
        | nil => exact List.isChain_singleton _
        | cons g ys =>
          rw [List.isChain_cons_cons] at hs ⊢
          exact ⟨fun hg => hs.1 ⟨hf,hg.2⟩,hs.2⟩
      · simp only [live, hb, hf, if_true]
        congr 1
        omega
    | false =>
      refine ⟨b,f::ys,?_,hb,?_,rfl⟩
      · rw [if_neg]
        · exact ht
        · rintro ⟨h0,heq⟩
          rw [firstFree, hf] at h0 heq
          rcases first_free_split blockHdrSize (cur+(blockHdrSize+b.size)+(blockHdrSize+f.size)) ys 0 with
            ⟨hz,-⟩ | ⟨us,g,ws,-,-,-,he⟩
          · exact h0 (by simpa using hz)
          · simp only [Bool.false_eq_true, if_false] at heq
            omega
      · unfold Spaced at hs ⊢
        rw [List.isChain_cons_cons]
        exact ⟨fun hg => by simp [hf] at hg,hs⟩

theorem coalesce_prev_tiled {h : Heap} {xs ys : List Block} (ht : Tiled h (xs++b::ys)) (hb : b.free = true)
    (hx : Spaced xs) (hs : Spaced (b::ys)) :
    ∃ bs, Tiled (coalescePrev h (lastFree blockHdrSize h.heapStart xs 0)
        (h.heapStart+span blockHdrSize xs)) bs ∧ Spaced bs ∧
      live blockHdrSize h.heapStart bs = live blockHdrSize h.heapStart (xs++b::ys) := by
  have hlow := ht.low
  have hjoin : (∀ c ∈ xs.getLast?, c.free = false) → Spaced (xs++b::ys) := by
    intro hl
    rw [spaced_append]
    refine ⟨hx,hs,?_⟩
    rintro c hc d - ⟨hcf,-⟩
    rw [hl c hc] at hcf
    cases hcf
  rw [coalescePrev]
  rcases last_free_split blockHdrSize h.heapStart xs 0 with ⟨h0,hlive⟩ | ⟨us,f,vs,rfl,hf,hvs,he⟩
  · rw [h0]
    exact ⟨_,ht,hjoin fun c hc => hlive c (List.mem_of_getLast? hc),rfl⟩
  · rw [he]
    have hat := block_at h us (vs++b::ys) f (by simpa using ht)
    have hmark : (h.block (h.heapStart+span blockHdrSize us)).mark = blockMagicFree := by
      rw [hat.2.1, hf]
      rfl
    rw [hmark]
    have hsp : span blockHdrSize (us++f::vs) = span blockHdrSize us+(blockHdrSize+f.size)+span blockHdrSize vs := by
      rw [span_append, span]
      omega
    by_cases hv : span blockHdrSize vs = 0
    · obtain rfl := span_zero blockHdrSize hdr_pos vs hv
      rw [if_pos ⟨by omega,rfl,by omega⟩]
      have htm := absorb_tiled (by simpa using ht) hf hb
      rw [hsp, hv, Nat.add_zero, ← Nat.add_assoc]
      refine ⟨_,htm,?_,?_⟩
      · have hfx : Spaced (us++([f]++[])) := by simpa using hx
        have hsy : Spaced (⟨f.size+(blockHdrSize+b.size),true⟩::ys) := by
          unfold Spaced at hs ⊢
          cases ys with
          | nil => exact List.isChain_singleton _
          | cons g ys =>
            rw [List.isChain_cons_cons] at hs ⊢
            exact ⟨fun hg => hs.1 ⟨hb,hg.2⟩,hs.2⟩
        have := spaced_splice us (⟨f.size+(blockHdrSize+b.size),true⟩::ys) [] f hfx hf hsy
        simpa using this
      · simp only [live_append, live, hf, hb, if_true, span, List.append_assoc]
        congr 2
        omega
    · rw [if_neg (by omega)]
      refine ⟨_,ht,hjoin ?_,rfl⟩
      intro c hc
      have hne : vs ≠ [] := by
        rintro rfl
        exact hv rfl
      rw [List.getLast?_append_of_ne_nil _ (by simp), List.getLast?_cons, Option.mem_def] at hc
      obtain ⟨w,ws,rfl⟩ := List.exists_cons_of_ne_nil hne
      apply hvs c
      simp only [Option.some.injEq] at hc
      subst hc
      exact List.getLast_mem _

/-- A new allocation of at least `n` bytes at `p`; the others are untouched. -/
def Served (h : Heap) (bs : List Block) (h' : Heap) (p n : ℕ) : Prop :=
  h'.heapStart = h.heapStart ∧ h'.heapEnd = h.heapEnd ∧
    ∃ bs' c k, p = c+blockHdrSize ∧ n ≤ k ∧ Tiled h' bs' ∧ Spaced bs' ∧
      (∀ x m, (x,m) ∈ live blockHdrSize h.heapStart bs' ↔
        (x = c ∧ m = k) ∨ (x,m) ∈ live blockHdrSize h.heapStart bs) ∧
      ∀ m, (c,m) ∉ live blockHdrSize h.heapStart bs

theorem free_not_live (b : Block) (hb : b.free = true) (c m : ℕ) (h1 : a+span blockHdrSize xs ≤ c)
    (h2 : c < a+span blockHdrSize xs+(blockHdrSize+b.size)) : (c,m) ∉ live blockHdrSize a (xs++([b]++ys)) := by
  have hH := hdr_size
  rw [live_append, live_append, live, if_pos hb, span, List.mem_append]
  rintro (hm | hm)
  · have := live_range blockHdrSize a xs c m hm
    omega
  · have := live_range blockHdrSize _ ys c m hm
    omega

theorem take_served {b : Block} (ht : Tiled h (xs++([b]++ys))) (hs : Spaced (xs++([b]++ys))) (hb : b.free = true)
    {size n : ℕ} (hsize : size ≤ b.size) (hn : n ≤ size) :
    Served h (xs++([b]++ys))
      (takeBlock h size (lastFree blockHdrSize h.heapStart xs 0) (h.heapStart+span blockHdrSize xs))
      (h.heapStart+span blockHdrSize xs+blockHdrSize) n := by
  have hH := hdr_size
  have ht' := take_block_tiled h xs ys ht hb hsize
  have hspaced : Spaced (taken size b) := by
    rw [taken]
    split_ifs <;> simp [Spaced]
  have hfresh := fun m => free_not_live h.heapStart xs ys b hb (h.heapStart+span blockHdrSize xs) m
    (le_refl _) (by omega)
  refine ⟨rfl,rfl,_,h.heapStart+span blockHdrSize xs,
    if size+blockHdrSize+minBlockSize ≤ b.size then size else b.size,rfl,?_,ht',
    spaced_splice xs (taken size b) ys b hs hb hspaced,?_,hfresh⟩
  · split_ifs <;> omega
  · intro x m
    have hlive : live blockHdrSize (h.heapStart+span blockHdrSize xs) (taken size b++ys) =
        (h.heapStart+span blockHdrSize xs,if size+blockHdrSize+minBlockSize ≤ b.size then size else b.size)::
          live blockHdrSize (h.heapStart+span blockHdrSize xs+(blockHdrSize+b.size)) ys := by
      rw [taken]
      split_ifs
      · simp only [List.cons_append, live, Bool.false_eq_true, if_false, if_true]
        congr 2
        omega
      · simp [live]
    rw [live_append, hlive, live_append, live_append, live, if_pos hb, live]
    simp only [List.mem_append, List.mem_cons, Prod.mk.injEq]
    tauto

theorem carve_served (b : Block) (ht : Tiled h (xs++([b]++ys))) (hs : Spaced (xs++([b]++ys))) (hb : b.free = true)
    (size n : ℕ) (hw : blockHdrSize+minBlockSize ≤ waste (h.heapStart+span blockHdrSize xs))
    (hsize : waste (h.heapStart+span blockHdrSize xs)+size ≤ b.size) (hn : n ≤ size) :
    Served h (xs++([b]++ys))
      { h with block := carveCells h size (h.heapStart+span blockHdrSize xs) }
      (alignedData (h.heapStart+span blockHdrSize xs)) n := by
  have hH := hdr_size
  have ht' := carve_tiled h xs ys b ht hb size hw hsize
  have hend := (block_at h xs ys b ht).2.2.2
  have hhigh := ht.high
  have hnot := free_not_live h.heapStart xs ys b hb
  generalize hcur : h.heapStart+span blockHdrSize xs = cur at *
  obtain ⟨-,hal,-⟩ := aligned_data_spec cur (by omega)
  have hspaced : Spaced (carved size (waste cur) b) := by
    rw [carved]
    split_ifs <;> simp [Spaced]
  refine ⟨rfl,rfl,_,alignedData cur-blockHdrSize,
    if blockHdrSize+minBlockSize ≤ b.size-waste cur-size then size else b.size-waste cur,by omega,?_,ht',
    spaced_splice xs (carved size (waste cur) b) ys b hs hb hspaced,?_,
    fun m => hnot _ m (by omega) (by omega)⟩
  · split_ifs <;> omega
  · intro x m
    have hlive : live blockHdrSize cur (carved size (waste cur) b++ys) =
        (alignedData cur-blockHdrSize,
            if blockHdrSize+minBlockSize ≤ b.size-waste cur-size then size else b.size-waste cur)::
          live blockHdrSize (cur+(blockHdrSize+b.size)) ys := by
      have ha1 : cur+(blockHdrSize+(waste cur-blockHdrSize)) = alignedData cur-blockHdrSize := by omega
      rw [carved]
      split_ifs
      · simp only [List.cons_append, live, Bool.false_eq_true, if_false, if_true]
        congr 2
        omega
      · simp only [List.cons_append, live, Bool.false_eq_true, if_false, if_true]
        congr 2
        omega
    rw [live_append, hcur, hlive, live_append, live_append, live, if_pos hb, live, List.nil_append, span, span,
      hcur]
    simp only [List.mem_append, List.mem_cons, Prod.mk.injEq]
    tauto

theorem kmalloc_served (ht : Tiled h bs) (hs : Spaced bs) {n : ℕ} (hn : n+15 < 2^64) : kmalloc h n = (h,0) ∨ Served h bs (kmalloc h n).1 (kmalloc h n).2 n := by
  rw [kmalloc, Nat.mod_eq_of_lt hn]
  split_ifs
  · exact .inl rfl
  · cases hf : findFit h (kmallocFits h ((n+15)/16*16)) (rounds h) 0 h.freeList with
    | none => exact .inl rfl
    | some r =>
      obtain ⟨prev,cur⟩ := r
      obtain ⟨xs,b,ys,rfl,hb,hfit,rfl,rfl⟩ := find_fit_some h bs ht _ hf
      right
      have hle : (n+15)/16*16 ≤ b.size := by
        rw [kmallocFits, decide_eq_true_eq, (block_at h xs ys b ht).1] at hfit
        exact hfit
      exact take_served h xs ys ht hs hb hle (by omega)

theorem kmalloc_page_aligned_served (ht : Tiled h bs) (hs : Spaced bs) {n : ℕ} (hn : n ≤ 2^64-8192) : kmallocPageAligned h n = (h,0) ∨
      (Served h bs (kmallocPageAligned h n).1 (kmallocPageAligned h n).2 n ∧
        pageSize ∣ (kmallocPageAligned h n).2) := by
  have hup := page_up_spec n (by omega)
  have hle := page_up_le (by omega) (by decide) hn
  rw [kmallocPageAligned]
  split_ifs
  · exact .inl rfl
  · cases hf : findFit h (fun cur => fitsAligned h (pageUp n) cur || fitsCarved h (pageUp n) cur)
        (rounds h) 0 h.freeList with
    | none => exact .inl rfl
    | some r =>
      obtain ⟨prev,cur⟩ := r
      obtain ⟨xs,b,ys,rfl,hb,hfit,rfl,rfl⟩ := find_fit_some h bs ht _ hf
      right
      obtain ⟨hsz,-,-,hend⟩ := block_at h xs ys b ht
      have hhigh := ht.high
      obtain ⟨hd,hal,hw⟩ := aligned_data_spec (h.heapStart+span blockHdrSize xs) (by omega)
      dsimp only
      cases hfa : fitsAligned h (pageUp n) (h.heapStart+span blockHdrSize xs) with
      | true =>
        rw [fitsAligned, decide_eq_true_eq, hsz] at hfa
        refine ⟨take_served h xs ys ht hs hb hfa.2 hup.2.1,?_⟩
        rw [hfa.1] at hal
        exact hal ▸ hd
      | false =>
        rw [hfa, Bool.false_or, fitsCarved, decide_eq_true_eq, hsz, Nat.mod_eq_of_lt (by omega)] at hfit
        exact ⟨carve_served h xs ys b ht hs hb _ n hfit.1 hfit.2 hup.2.1,hd⟩

theorem kfree_released {h : Heap} {xs ys : List Block} (ht : Tiled h (xs++([b]++ys))) (hs : Spaced (xs++([b]++ys)))
    (hb : b.free = false) :
    ∃ bs', Tiled (kfree h (h.heapStart+span blockHdrSize xs+blockHdrSize)) bs' ∧ Spaced bs' ∧
      live blockHdrSize h.heapStart bs' = live blockHdrSize h.heapStart xs ++
        live blockHdrSize (h.heapStart+span blockHdrSize xs+(blockHdrSize+b.size)) ys ∧
      (kfree h (h.heapStart+span blockHdrSize xs+blockHdrSize)).heapStart = h.heapStart ∧
      (kfree h (h.heapStart+span blockHdrSize xs+blockHdrSize)).heapEnd = h.heapEnd := by
  have hH := hdr_size
  have hmark := (block_at h xs ys b ht).2.1
  have hpoint := insertion_point_spec h h.heapStart ht.low (rounds h) [] xs ys b ht.chained.2 hb
    (lt_of_le_of_lt (by simp) (rounds_enough h _ ht))
  rw [List.nil_append, span, lastFree, Nat.add_zero] at hpoint
  have hhead : firstFree blockHdrSize h.heapStart (xs++b::ys) 0 = h.freeList := ht.chained.1.symm
  rw [hhead] at hpoint
  rw [spaced_append, spaced_append] at hs
  obtain ⟨hsx,⟨-,hsy,-⟩,-⟩ := hs
  rw [kfree, Nat.add_sub_cancel, if_neg, hpoint]
  · have ht1 := insert_free_tiled ht
    obtain ⟨b2,ys2,ht2,hb2,hs2,hl2⟩ := coalesce_next_tiled ht1 rfl hsy
    have hstart : ∀ h' : Heap, ∀ p, (coalesceNext h' p).heapStart = h'.heapStart ∧
        (coalesceNext h' p).heapEnd = h'.heapEnd := by
      intro h' p
      rw [coalesceNext]
      split_ifs <;> exact ⟨rfl,rfl⟩
    have hprev : ∀ h' : Heap, ∀ p q, (coalescePrev h' p q).heapStart = h'.heapStart ∧
        (coalescePrev h' p q).heapEnd = h'.heapEnd := by
      intro h' p q
      rw [coalescePrev]
      split_ifs <;> exact ⟨rfl,rfl⟩
    obtain ⟨bs3,ht3,hs3,hl3⟩ := coalesce_prev_tiled ht2 hb2 hsx hs2
    rw [(hstart _ _).1] at ht3 hl3
    refine ⟨bs3,ht3,hs3,?_,?_,?_⟩
    · change live blockHdrSize h.heapStart bs3 = _ at hl3
      rw [hl3]
      change live blockHdrSize h.heapStart (xs++b2::ys2) = _
      change live blockHdrSize (h.heapStart+span blockHdrSize xs) (b2::ys2) = _ at hl2
      rw [live_append, hl2]
      rfl
    · rw [(hprev _ _ _).1, (hstart _ _).1]
      rfl
    · rw [(hprev _ _ _).2, (hstart _ _).2]
      rfl
  · rw [hmark, hb]
    simp only [magic, Bool.false_eq_true, if_false]
    omega

/-- The heap, and for every pointer handed out and not freed since how many
bytes were asked for. -/
structure State where
  heap : Heap
  asked : ℕ → Option ℕ

inductive Op where
  | kmalloc (n : ℕ)
  | kmallocPageAligned (n : ℕ)
  | kfree (p : ℕ)

def handOut (s : State) (r : Heap × ℕ) (n : ℕ) : State where
  heap := r.1
  asked := if r.2 = 0 then s.asked else update s.asked r.2 (some n)

def step (s : State) : Op → State
  | .kmalloc n => handOut s (kmalloc s.heap n) n
  | .kmallocPageAligned n => handOut s (kmallocPageAligned s.heap n) n
  | .kfree p => ⟨kfree s.heap p,update s.asked p none⟩

/-- Sizes do not wrap, page-aligned ones with two pages to spare, and a
pointer is freed while it is live. -/
def Meets (s : State) : Op → Prop
  | .kmalloc n => n+15 < 2^64
  | .kmallocPageAligned n => n ≤ 2^64-8192
  | .kfree p => s.asked p ≠ none

inductive Reach (s0 : State) : State → Prop
  | start : Reach s0 s0
  | step (s : State) (op : Op) (h : Reach s0 s) (hm : Meets s op) : Reach s0 (step s op)

structure Valid (s0 s : State) (bs : List Block) : Prop where
  start : s.heap.heapStart = s0.heap.heapStart ∧ s.heap.heapEnd = s0.heap.heapEnd
  tiled : Tiled s.heap bs
  spaced : Spaced bs
  answered : ∀ p n, s.asked p = some n →
    ∃ c k, p = c+blockHdrSize ∧ (c,k) ∈ live blockHdrSize s.heap.heapStart bs ∧ n ≤ k
  known : ∀ c k, (c,k) ∈ live blockHdrSize s.heap.heapStart bs → s.asked (c+blockHdrSize) ≠ none

theorem valid_served {s0 s : State} {bs : List Block} (h : Valid s0 s bs) {r : Heap × ℕ} {n : ℕ}
    (hr : r = (s.heap,0) ∨ Served s.heap bs r.1 r.2 n) : ∃ bs', Valid s0 (handOut s r n) bs' := by
  rcases hr with rfl | ⟨hst,hen,bs',c,k,hp,hnk,ht,hs,hlive,hfresh⟩
  · exact ⟨bs,h.start,h.tiled,h.spaced,h.answered,h.known⟩
  · have hne : r.2 ≠ 0 := by
      have := hdr_size
      omega
    refine ⟨bs',⟨hst.trans h.start.1,hen.trans h.start.2⟩,ht,hs,?_,?_⟩
    · intro q m hq
      simp only [handOut, if_neg hne] at hq ⊢
      rw [hst]
      by_cases hqp : q = r.2
      · subst hqp
        rw [update_self] at hq
        cases hq
        exact ⟨c,k,hp,(hlive c k).mpr (.inl ⟨rfl,rfl⟩),hnk⟩
      · rw [update_of_ne hqp] at hq
        obtain ⟨d,j,hd,hm,hj⟩ := h.answered q m hq
        exact ⟨d,j,hd,(hlive d j).mpr (.inr hm),hj⟩
    · intro d j hd
      simp only [handOut, if_neg hne] at hd ⊢
      rw [hst] at hd
      rcases (hlive d j).mp hd with ⟨rfl,-⟩ | hm
      · rw [← hp]
        simp
      · by_cases hdp : d+blockHdrSize = r.2
        · rw [hdp]
          simp
        · rw [update_of_ne hdp]
          exact h.known d j hm

theorem valid_kfree {s0 s : State} {bs : List Block} (h : Valid s0 s bs) {p : ℕ} (hp : s.asked p ≠ none) :
    ∃ bs', Valid s0 (step s (.kfree p)) bs' := by
  obtain ⟨n,hn⟩ := Option.ne_none_iff_exists'.mp hp
  obtain ⟨c,k,rfl,hm,-⟩ := h.answered p n hn
  obtain ⟨xs,ys,rfl,rfl⟩ := live_split blockHdrSize _ bs c k hm
  have hH := hdr_size
  obtain ⟨bs',ht,hs,hl,hst,hen⟩ := kfree_released h.tiled h.spaced rfl
  have hold : live blockHdrSize s.heap.heapStart (xs++⟨k,false⟩::ys) = live blockHdrSize s.heap.heapStart xs ++
      (s.heap.heapStart+span blockHdrSize xs,k)::
        live blockHdrSize (s.heap.heapStart+span blockHdrSize xs+(blockHdrSize+k)) ys := by
    rw [live_append, live, if_neg (by simp)]
  refine ⟨bs',⟨hst.trans h.start.1,hen.trans h.start.2⟩,ht,hs,?_,?_⟩
  · intro q m hq
    simp only [step] at hq ⊢
    by_cases hqc : q = s.heap.heapStart+span blockHdrSize xs+blockHdrSize
    · rw [hqc, update_self] at hq
      cases hq
    · rw [update_of_ne hqc] at hq
      obtain ⟨d,j,rfl,hd,hj⟩ := h.answered q m hq
      refine ⟨d,j,rfl,?_,hj⟩
      rw [hst, hl]
      rw [hold, List.mem_append, List.mem_cons] at hd
      rw [List.mem_append]
      rcases hd with hd | hd | hd
      · exact .inl hd
      · exact absurd (by rw [(Prod.mk.inj hd).1]) hqc
      · exact .inr hd
  · intro d j hd
    simp only [step] at hd ⊢
    rw [hst, hl, List.mem_append] at hd
    have hne : d+blockHdrSize ≠ s.heap.heapStart+span blockHdrSize xs+blockHdrSize := by
      rcases hd with hd | hd
      · have := live_range blockHdrSize _ xs d j hd
        omega
      · have := live_range blockHdrSize _ ys d j hd
        omega
    rw [update_of_ne hne]
    apply h.known d j
    rw [hold, List.mem_append, List.mem_cons]
    exact hd.imp_right .inr

theorem step_valid {s0 s : State} {bs : List Block} (h : Valid s0 s bs) {op : Op} (hm : Meets s op) :
    ∃ bs', Valid s0 (step s op) bs' := by
  cases op with
  | kmalloc n => exact valid_served h (kmalloc_served s.heap bs h.tiled h.spaced hm)
  | kmallocPageAligned n =>
    exact valid_served h
      ((kmalloc_page_aligned_served s.heap bs h.tiled h.spaced hm).imp_right And.left)
  | kfree p => exact valid_kfree h hm

theorem reach_valid {s0 s : State} {bs : List Block} (h0 : Valid s0 s0 bs) (h : Reach s0 s) :
    ∃ bs', Valid s0 s bs' := by
  induction h with
  | start => exact ⟨bs,h0⟩
  | step s op _ hm ih =>
    obtain ⟨bs',hv⟩ := ih
    exact step_valid hv hm

/-- The state after `kheap_init`, with nothing handed out. -/
def booted : State := ⟨kheapInit block pages,fun _ => none⟩

theorem booted_valid (hp : 0 < pages) :
    Valid (booted block pages) (booted block pages)
      [⟨min pages (kheapSize/pageSize)*pageSize-blockHdrSize,true⟩] := by
  have hmin : 0 < min pages (kheapSize/pageSize) ∧ min pages (kheapSize/pageSize) ≤ 1024 := by
    have : kheapSize/pageSize = 1024 := by decide
    omega
  have hH := hdr_size
  have hP : pageSize = 4096 := rfl
  refine ⟨⟨rfl,rfl⟩,⟨?_,?_,?_,rfl,?_⟩,by simp [Spaced],?_,?_⟩
  · change 0 < kheapStart
    decide
  · simp only [booted, kheapInit]
    generalize min pages (kheapSize/pageSize) = k at *
    rw [hP]
    unfold kheapStart
    omega
  · simp only [booted, kheapInit, span]
    generalize min pages (kheapSize/pageSize) = k at *
    rw [hP]
    omega
  · simp only [booted, kheapInit]
    refine ⟨?_,?_,?_,trivial⟩ <;> rw [update_self]
    · rfl
    · intro _
      rfl
  · intro p n h
    cases h
  · intro c k h
    simp [live] at h

def payload (h : Heap) (p : ℕ) : ℕ := (h.block (p-blockHdrSize)).size

/-- The representation invariant against the state `s0` after `kheap_init`. -/
structure Intact (s0 s : State) : Prop where
  tiles : ∃ bs, Chained blockHdrSize magic s.heap.block s.heap.freeList s.heap.heapStart bs ∧
    s.heap.heapStart+span blockHdrSize bs = s.heap.heapEnd ∧ Spaced bs ∧
    walk s.heap.block (rounds s.heap) s.heap.freeList = freeAddrs blockHdrSize s.heap.heapStart bs ∧
    (freeAddrs blockHdrSize s.heap.heapStart bs).Pairwise (· < ·)
  large : ∀ p n, s.asked p = some n → n ≤ payload s.heap p ∧ s.heap.heapStart+blockHdrSize ≤ p ∧
    p+payload s.heap p ≤ s.heap.heapEnd
  disjoint : ∀ p q n m, s.asked p = some n → s.asked q = some m → p ≠ q →
    p+payload s.heap p ≤ q ∨ q+payload s.heap q ≤ p
  aligned : ∀ n ≤ 2^64-8192, pageSize ∣ (kmallocPageAligned s.heap n).2
  whole : (∀ p, s.asked p = none) → s.heap.freeList = s0.heap.heapStart ∧
    s.heap.heapEnd = s0.heap.heapEnd ∧ s.heap.block s.heap.freeList =
      ⟨s0.heap.heapEnd-s0.heap.heapStart-blockHdrSize,0,blockMagicFree⟩

theorem live_payload (ht : Tiled h bs) {c k : ℕ} (hm : (c,k) ∈ live blockHdrSize h.heapStart bs) : payload h (c+blockHdrSize) = k := by
  obtain ⟨xs,ys,rfl,rfl⟩ := live_split blockHdrSize _ bs c k hm
  exact (block_at h xs ys ⟨k,false⟩ ht).1

theorem live_none {a : ℕ} {bs : List Block} (h : ∀ c k, (c,k) ∉ live blockHdrSize a bs) :
    ∀ b ∈ bs, b.free = true := by
  intro b hb
  obtain ⟨xs,ys,rfl⟩ := List.append_of_mem hb
  by_contra hf
  apply h (a+span blockHdrSize xs) b.size
  rw [live_append, live, if_neg hf]
  simp

theorem valid_intact {s0 s : State} {bs : List Block} (h : Valid s0 s bs) (hne : bs ≠ []) : Intact s0 s := by
  have ht := h.tiled
  refine ⟨⟨bs,ht.chained,ht.covers,h.spaced,?_,free_addrs_increasing blockHdrSize hdr_pos _ bs⟩,?_,?_,?_,?_⟩
  · rw [ht.chained.1]
    exact walk_eq blockHdrSize magic s.heap.block _ ht.low bs ht.chained.2 _ (rounds_enough s.heap bs ht)
  · intro p n hp
    obtain ⟨c,k,rfl,hm,hn⟩ := h.answered p n hp
    have hr := live_range blockHdrSize _ bs c k hm
    have hc := ht.covers
    rw [live_payload s.heap bs ht hm]
    omega
  · intro p q n m hp hq hpq
    obtain ⟨c,k,rfl,hc,-⟩ := h.answered p n hp
    obtain ⟨d,j,rfl,hd,-⟩ := h.answered q m hq
    rw [live_payload s.heap bs ht hc, live_payload s.heap bs ht hd]
    have := live_apart blockHdrSize _ bs hc hd (by omega)
    omega
  · intro n hn
    rcases kmalloc_page_aligned_served s.heap bs ht h.spaced hn with he | ⟨-,hd⟩
    · rw [he]
      exact Nat.dvd_zero _
    · exact hd
  · intro hnone
    have hfree := live_none fun c k hm => h.known c k hm (hnone _)
    have hlen := spaced_free bs h.spaced hfree
    obtain ⟨b,bs,rfl⟩ := List.exists_cons_of_ne_nil hne
    obtain rfl : bs = [] := by
      rw [List.length_cons] at hlen
      exact List.eq_nil_of_length_eq_zero (by omega)
    have hb := hfree b List.mem_cons_self
    have hcov := ht.covers
    obtain ⟨hhead,h1,h2,h3,-⟩ := ht.chained
    rw [firstFree, if_pos hb] at hhead
    rw [span, span] at hcov
    refine ⟨hhead.trans h.start.1,h.start.2,?_⟩
    rw [hhead, ← h.start.1, ← h.start.2]
    cases hcell : s.heap.block s.heap.heapStart with
    | mk size next mark =>
      rw [hcell] at h1 h2 h3
      dsimp only at h1 h2 h3
      have hn := h3 hb
      rw [hb] at h2
      rw [h1, hn, h2, show s.heap.heapEnd-s.heap.heapStart-blockHdrSize = b.size by omega]
      rfl

theorem blocks_nonempty {s0 s : State} {bs : List Block} (h : Valid s0 s bs)
    (hlt : s0.heap.heapStart < s0.heap.heapEnd) : bs ≠ [] := by
  rintro rfl
  have := h.tiled.covers
  rw [span, h.start.1, h.start.2] at this
  omega

theorem booted_nonempty (hp : 0 < pages) :
    (booted block pages).heap.heapStart < (booted block pages).heap.heapEnd := by
  have : kheapSize/pageSize = 1024 := by decide
  simp only [booted, kheapInit]
  unfold pageSize at *
  omega

/-- In every run whose requests meet the condition the heap stays intact. -/
theorem heap_intact (hp : 0 < pages) (s : State)
    (h : Reach (booted block pages) s) : Intact (booted block pages) s := by
  obtain ⟨bs,hv⟩ := reach_valid (booted_valid block pages hp) h
  exact valid_intact hv (blocks_nonempty hv (booted_nonempty block pages hp))

/-- The heap with one page-aligned page and one small block, the page freed again. -/
def usedHeap : State :=
  step (step (step (booted (fun _ => ⟨0,0,0⟩) 1024) (.kmalloc 100)) (.kmallocPageAligned 4096))
    (.kfree (kheapStart+4096))

theorem heap_intact_used : Intact (booted (fun _ => ⟨0,0,0⟩) 1024) usedHeap :=
  heap_intact (fun _ => ⟨0,0,0⟩) 1024 (by decide) usedHeap
    (.step _ (.kfree (kheapStart+4096)) (.step _ (.kmallocPageAligned 4096)
      (.step _ (.kmalloc 100) .start (by unfold Meets; decide)) (by unfold Meets; decide)) (by unfold Meets; decide +kernel))

/-- With 4032 bytes handed out, a request for all but the last page of the
address space is served, and the block it gets does not fit the heap. -/
theorem huge_request_served :
    ¬Intact (booted (fun _ => ⟨0,0,0⟩) 1024)
      (step (step (booted (fun _ => ⟨0,0,0⟩) 1024) (.kmalloc 4032)) (.kmallocPageAligned (2^64-4096))) := by
  intro h
  have hlarge := h.large (kheapStart+8192) (2^64-4096) (by decide +kernel)
  have : payload (step (step (booted (fun _ => ⟨0,0,0⟩) 1024) (.kmalloc 4032))
      (.kmallocPageAligned (2^64-4096))).heap (kheapStart+8192) = 2^64-4096 := by decide +kernel
  rw [this] at hlarge
  exact absurd hlarge.2.2 (by decide +kernel)

end HobbyOS.KHeap

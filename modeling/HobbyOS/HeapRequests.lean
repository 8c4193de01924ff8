import HobbyOS.KHeap

/-!
# Which requests the kernel heap serves

`kmalloc_page_aligned` tries one place in each free block. It is the first one
that leaves no gap or a gap large enough for a block, so a request is refused
only where no free block has such a place. A request so close to 2^64 that its
rounded size wraps is served with a block that is too small, or with one that
reaches past the heap.
-/

namespace HobbyOS.HeapRequests
open BlockList PageEntry Mmap KHeap Function

variable (h : Heap) (bs : List Block)

theorem free_addr_split (a x : ℕ) (hx : x ∈ freeAddrs blockHdrSize a bs) :
    ∃ xs b ys, bs = xs++([b]++ys) ∧ b.free = true ∧ x = a+span blockHdrSize xs := by
  induction bs generalizing a with
  | nil => cases hx
  | cons b bs ih =>
    have htail : x ∈ freeAddrs blockHdrSize (a+(blockHdrSize+b.size)) bs →
        ∃ xs c ys, b::bs = xs++([c]++ys) ∧ c.free = true ∧ x = a+span blockHdrSize xs := by
      intro hm
      obtain ⟨xs,c,ys,rfl,hc,rfl⟩ := ih _ hm
      exact ⟨b::xs,c,ys,rfl,hc,by rw [span]; omega⟩
    rw [freeAddrs] at hx
    split_ifs at hx with hb
    · rcases List.mem_cons.mp hx with rfl | hm
      · exact ⟨[],b,bs,rfl,hb,rfl⟩
      · exact htail hm
    · exact htail hx

theorem search_none_iff (fits : ℕ → Bool) (fuel prev cur : ℕ)
    (hm : ∀ x ∈ walk h.block fuel cur, (h.block x).mark = blockMagicFree) :
    findFit h fits fuel prev cur = none ↔ ∀ x ∈ walk h.block fuel cur, fits x = false := by
  induction fuel generalizing prev cur with
  | zero => simp [findFit, walk]
  | succ fuel ih =>
    rw [walk] at hm ⊢
    rw [findFit]
    by_cases hc : cur = 0
    · simp [hc]
    rw [if_neg hc] at hm ⊢
    rw [if_neg (by simp [hc, hm cur])]
    cases hf : fits cur with
    | true => simp [hf]
    | false =>
      rw [if_neg (by simp), ih _ _ fun x hx => hm x (List.mem_cons_of_mem _ hx)]
      simp [hf]

theorem links_free (ht : Tiled h bs) :
    walk h.block (rounds h) h.freeList = freeAddrs blockHdrSize h.heapStart bs := by
  rw [ht.chained.1]
  exact walk_eq blockHdrSize magic h.block _ ht.low bs ht.chained.2 _ (rounds_enough h bs ht)

theorem find_fit_none_iff (ht : Tiled h bs) (fits : ℕ → Bool) :
    findFit h fits (rounds h) 0 h.freeList = none ↔
      ∀ x ∈ freeAddrs blockHdrSize h.heapStart bs, fits x = false := by
  rw [← links_free h bs ht]
  apply search_none_iff
  intro x hx
  rw [links_free h bs ht] at hx
  obtain ⟨xs,b,ys,rfl,hb,rfl⟩ := free_addr_split bs _ x hx
  rw [(block_at h xs ys b ht).2.1, hb]
  rfl

/-- The test of the loop of `kmalloc_page_aligned` for the block at `cur`. -/
def fits (size cur : ℕ) : Bool := fitsAligned h size cur || fitsCarved h size cur

theorem free_bounds (ht : Tiled h bs) {x : ℕ} (hx : x ∈ freeAddrs blockHdrSize h.heapStart bs) :
    h.heapStart ≤ x ∧ x+blockHdrSize+(h.block x).size ≤ h.heapEnd := by
  obtain ⟨xs,b,ys,rfl,-,rfl⟩ := free_addr_split bs _ x hx
  obtain ⟨hsz,-,-,hend⟩ := block_at h xs ys b ht
  omega

variable {n : ℕ}

theorem page_aligned_null_iff (ht : Tiled h bs) (h0 : n ≠ 0) :
    (kmallocPageAligned h n).2 = 0 ↔
      ∀ x ∈ freeAddrs blockHdrSize h.heapStart bs, fits h (pageUp n) x = false := by
  rw [← find_fit_none_iff h bs ht, kmallocPageAligned, if_neg h0]
  generalize hf : findFit h _ (rounds h) 0 h.freeList = found
  change findFit h (fits h (pageUp n)) (rounds h) 0 h.freeList = found at hf
  rw [hf]
  cases found with
  | none => simp
  | some r =>
    obtain ⟨prev,cur⟩ := r
    obtain ⟨xs,b,ys,rfl,-,-,-,rfl⟩ := find_fit_some h bs ht _ hf
    have hend := (block_at h xs ys b ht).2.2.2
    have hhigh := ht.high
    have hH := hdr_size
    have hal := (aligned_data_spec (h.heapStart+span blockHdrSize xs) (by omega)).2.1
    simp only [reduceCtorEq, iff_false]
    split_ifs <;> dsimp only <;> omega

/-- At `p` a block of `size` bytes can be cut out of the free block at `cur`:
no gap before it, or one with room for a block. -/
def Place (size cur p : ℕ) : Prop :=
  pageSize ∣ p ∧ (p = cur+blockHdrSize ∨ cur+blockHdrSize+(blockHdrSize+minBlockSize) ≤ p) ∧
    p+size ≤ cur+blockHdrSize+(h.block cur).size

theorem aligned_data_least {cur p : ℕ} (hc : cur+blockHdrSize+4095 < 2^64) (hd : pageSize ∣ p)
    (hp : p = cur+blockHdrSize ∨ cur+blockHdrSize+(blockHdrSize+minBlockSize) ≤ p) :
    alignedData cur ≤ p := by
  have hle : pageUp (cur+blockHdrSize) ≤ p := page_up_le hc hd (by omega)
  have hge := (page_up_spec _ hc).2.1
  unfold alignedData
  split_ifs with hgap
  · -- the next boundary is too near, so it is not the one at `p`
    have hlt : pageUp (cur+blockHdrSize) < p := by omega
    obtain ⟨k,hk⟩ := (page_up_spec _ hc).1
    obtain ⟨j,rfl⟩ := hd
    unfold pageSize at *
    omega
  · exact hle

theorem waste_cases (cur : ℕ) (hc : cur+blockHdrSize+4095 < 2^64) :
    waste cur = 0 ∨ blockHdrSize+minBlockSize ≤ waste cur := by
  have hge := (page_up_spec _ hc).2.1
  have hH := hdr_size
  unfold waste alignedData pageSize
  split_ifs <;> omega

theorem fits_iff_place {size cur : ℕ} (hc : cur+blockHdrSize+4095 < 2^64) (hw : waste cur+size < 2^64) :
    fits h size cur = true ↔ ∃ p, Place h size cur p := by
  obtain ⟨hd,hal,-⟩ := aligned_data_spec cur hc
  have hcases := waste_cases cur hc
  have hfits : fits h size cur = true ↔ waste cur+size ≤ (h.block cur).size := by
    simp only [fits, fitsAligned, fitsCarved, Nat.mod_eq_of_lt hw, Bool.or_eq_true, decide_eq_true_eq]
    omega
  rw [hfits]
  constructor
  · intro hle
    exact ⟨alignedData cur,hd,by omega,by omega⟩
  · rintro ⟨p,hp,hgap,hle⟩
    have := aligned_data_least hc hp hgap
    omega

/-- A request is refused exactly if no free block has a place for it; a free
block with a page to spare has one wherever it lies. -/
theorem page_aligned_complete (ht : Tiled h bs) (n : ℕ) (h0 : n ≠ 0) (hn : n ≤ 2^63) :
    ((kmallocPageAligned h n).2 = 0 ↔
      ¬∃ x ∈ freeAddrs blockHdrSize h.heapStart bs, ∃ p, Place h (pageUp n) x p) ∧
    ∀ x ∈ freeAddrs blockHdrSize h.heapStart bs,
      pageUp n+(pageSize+blockHdrSize+minBlockSize) ≤ (h.block x).size → (kmallocPageAligned h n).2 ≠ 0 := by
  have hup := page_up_le (by omega) (by decide) hn
  have hH := hdr_size
  have hhigh := ht.high
  have hplace : ∀ x ∈ freeAddrs blockHdrSize h.heapStart bs,
      fits h (pageUp n) x = true ↔ ∃ p, Place h (pageUp n) x p := by
    intro x hx
    have hb := free_bounds h bs ht hx
    have hw := (aligned_data_spec x (by omega)).2.2
    exact fits_iff_place h (by omega) (by omega)
  rw [page_aligned_null_iff h bs ht h0]
  constructor
  · push Not
    refine forall₂_congr fun x hx => ?_
    rw [← not_exists, ← hplace x hx, Bool.not_eq_true]
  · intro x hx hbig hnone
    have hb := free_bounds h bs ht hx
    obtain ⟨hd,hal,hw⟩ := aligned_data_spec x (by omega)
    have hfit := (hplace x hx).mpr ⟨alignedData x,hd,by have := waste_cases x (by omega); omega,by
      unfold pageSize at hbig; omega⟩
    rw [(page_aligned_null_iff h bs ht h0).mp hnone x hx] at hfit
    cases hfit

/-- A block at the start of the heap is 24 bytes short of a page boundary. -/
theorem page_aligned_complete_booted :
    (kmallocPageAligned (kheapInit (fun _ => ⟨0,0,0⟩) 1024) 8192).2 ≠ 0 := by
  have hv := booted_valid (fun _ => ⟨0,0,0⟩) 1024 (by decide)
  exact (page_aligned_complete _ _ hv.tiled 8192 (by decide) (by decide)).2 kheapStart
    (by decide) (by decide)

/-- A pointer that is not null starts an allocated block of at least `n`
bytes inside the heap. -/
def Sound (r : Heap × ℕ) (n : ℕ) : Prop :=
  r.2 ≠ 0 → (r.1.block (r.2-blockHdrSize)).mark = blockMagicAlloc ∧ n ≤ payload r.1 r.2 ∧
    r.1.heapStart+blockHdrSize ≤ r.2 ∧ r.2+payload r.1 r.2 ≤ r.1.heapEnd

theorem served_block {r : Heap × ℕ} (hr : Served h bs r.1 r.2 n) :
    r.2 ≠ 0 ∧ (r.1.block (r.2-blockHdrSize)).mark = blockMagicAlloc ∧ n ≤ payload r.1 r.2 ∧
      r.1.heapStart+blockHdrSize ≤ r.2 ∧ r.2+payload r.1 r.2 ≤ r.1.heapEnd := by
  obtain ⟨hst,-,bs',c,k,hp,hk,ht,-,hlive,-⟩ := hr
  have hm := (hlive c k).mpr (.inl ⟨rfl,rfl⟩)
  rw [← hst] at hm
  have hH := hdr_size
  have hcov := ht.covers
  have hrange := live_range blockHdrSize _ bs' c k hm
  rw [hp, live_payload r.1 bs' ht hm, Nat.add_sub_cancel]
  refine ⟨by omega,?_,hk,by omega,by omega⟩
  obtain ⟨xs,ys,rfl,rfl⟩ := live_split blockHdrSize _ bs' c k hm
  exact (block_at r.1 xs ys ⟨k,false⟩ ht).2.1

theorem served_short {r : Heap × ℕ} {n : ℕ} (hr : Served h bs r.1 r.2 0) (hn : 2^64-8192 < n) :
    ¬Sound r n := by
  intro hs
  obtain ⟨h0,-,-,-,-⟩ := served_block h bs hr
  obtain ⟨-,hle,hlow,hend⟩ := hs h0
  obtain ⟨-,-,bs',-,-,-,-,ht,-⟩ := hr
  have := ht.high
  omega

theorem sound_of_served {r : Heap × ℕ} (hr : r = (h,0) ∨ Served h bs r.1 r.2 n) : Sound r n := by
  rcases hr with rfl | hr
  · exact fun h0 => absurd rfl h0
  · exact fun _ => (served_block h bs hr).2

theorem kmalloc_sound_iff (ht : Tiled h bs) (hs : Spaced bs) {n : ℕ} (hn : n < 2^64) :
    Sound (kmalloc h n) n ↔ n+15 < 2^64 ∨ h.freeList = 0 := by
  by_cases hw : n+15 < 2^64
  · exact iff_of_true (sound_of_served h bs (kmalloc_served h bs ht hs hw)) (.inl hw)
  have hzero : (n+15) % 2^64/16*16 = 0 := by omega
  rw [kmalloc, if_neg (by omega), hzero]
  cases hf : findFit h (kmallocFits h 0) (rounds h) 0 h.freeList with
  | none =>
    refine iff_of_true (fun h0 => absurd rfl h0) (.inr ?_)
    by_contra h0
    have hmem : h.freeList ∈ freeAddrs blockHdrSize h.heapStart bs := by
      rw [← links_free h bs ht, rounds, walk, if_neg h0]
      exact List.mem_cons_self
    have hfit := (find_fit_none_iff h bs ht _).mp hf _ hmem
    simp [kmallocFits] at hfit
  | some r =>
    obtain ⟨prev,cur⟩ := r
    obtain ⟨xs,b,ys,rfl,hb,-,rfl,rfl⟩ := find_fit_some h bs ht _ hf
    refine iff_of_false (served_short h _
      (take_served h xs ys ht hs hb (Nat.zero_le _) le_rfl) (by omega)) ?_
    rintro (h1 | h1)
    · exact hw h1
    · rw [h1, rounds, findFit] at hf
      simp at hf

/-- The sum of gap and size has wrapped: the block is recorded with a size
that reaches past the heap. -/
theorem carved_past (x n : ℕ) (hhigh : h.heapEnd+8192 ≤ 2^64)
    (hb : x+blockHdrSize+(h.block x).size ≤ h.heapEnd) (hw : pageSize ≤ waste x) (hfit : waste x-pageSize ≤ (h.block x).size) :
    ¬Sound ({ h with block := carveCells h (2^64-4096) x },alignedData x) n := by
  have hH := hdr_size
  have hP : pageSize = 4096 := rfl
  obtain ⟨-,hal,hle⟩ := aligned_data_spec x (by omega)
  have hrem : remaining h (2^64-4096) x = (h.block x).size-(waste x-4096) := by
    unfold remaining
    omega
  have htail : (alignedData x+(2^64-4096)) % 2^64 = alignedData x-4096 := by omega
  have hsize : 2^64-4096 ≤ (carveCells h (2^64-4096) x (alignedData x-blockHdrSize)).size := by
    rw [carveCells, htail]
    split_ifs
    · rw [update_of_ne (by omega), update_of_ne (by omega), update_self]
    · rw [update_of_ne (by omega), update_self]
      dsimp only
      omega
  intro hs
  obtain ⟨-,-,-,hend⟩ := hs (by dsimp only; omega)
  simp only [payload] at hend
  omega

theorem page_aligned_sound_iff (ht : Tiled h bs) (hs : Spaced bs) {n : ℕ} (hn : n < 2^64) :
    Sound (kmallocPageAligned h n) n ↔ n ≤ 2^64-8192 ∨
      ∀ x ∈ freeAddrs blockHdrSize h.heapStart bs, fits h (pageUp n) x = false := by
  by_cases hw : n ≤ 2^64-8192
  · exact iff_of_true (sound_of_served h bs
      ((kmalloc_page_aligned_served h bs ht hs hw).imp_right And.left)) (.inl hw)
  rw [or_iff_right hw, ← page_aligned_null_iff h bs ht (by omega)]
  refine ⟨fun hsound => ?_,fun h0 hne => absurd h0 hne⟩
  by_contra h0
  revert h0 hsound
  rw [kmallocPageAligned, if_neg (by omega)]
  cases hf : findFit h (fun cur => fitsAligned h (pageUp n) cur || fitsCarved h (pageUp n) cur)
      (rounds h) 0 h.freeList with
  | none => exact fun _ h0 => h0 rfl
  | some r =>
    obtain ⟨prev,cur⟩ := r
    obtain ⟨xs,b,ys,rfl,hb,hfit,rfl,rfl⟩ := find_fit_some h bs ht _ hf
    intro hsound _
    revert hsound
    obtain ⟨hsz,-,-,hend⟩ := block_at h xs ys b ht
    have hhigh := ht.high
    have hH := hdr_size
    have hpage : pageUp n = 0 ∨ pageUp n = 2^64-4096 := by
      unfold pageUp pageBase pageSize
      omega
    dsimp only
    rcases hpage with hz | hz
    · rw [hz] at hfit ⊢
      split_ifs with hfa
      · exact served_short h _ (take_served h xs ys ht hs hb (Nat.zero_le _) le_rfl) (by omega)
      · simp only [hfa, Bool.false_or, fitsCarved, decide_eq_true_eq, hsz, Nat.add_zero] at hfit
        have hle := (aligned_data_spec (h.heapStart+span blockHdrSize xs) (by omega)).2.2
        rw [Nat.mod_eq_of_lt (by omega)] at hfit
        exact served_short h _ (carve_served h xs ys b ht hs hb 0 0 hfit.1 (by omega) le_rfl) (by omega)
    · rw [hz] at hfit ⊢
      have hle := (aligned_data_spec (h.heapStart+span blockHdrSize xs) (by omega)).2.2
      have hfa : fitsAligned h (2^64-4096) (h.heapStart+span blockHdrSize xs) = false := by
        rw [fitsAligned, hsz, decide_eq_false_iff_not]
        omega
      simp only [hfa, Bool.false_or, fitsCarved, decide_eq_true_eq, hsz] at hfit
      rw [hfa, if_neg (by simp)]
      exact carved_past h _ n hhigh (by omega) (by unfold pageSize; omega) (by unfold pageSize; omega)

/-- What is handed out for `n` bytes is sound exactly if the rounded size did
not wrap, or no free block passes the test for the wrapped size. -/
theorem size_safe_iff (ht : Tiled h bs) (hs : Spaced bs) (n : ℕ) (hn : n < 2^64) :
    (Sound (kmalloc h n) n ↔ n+15 < 2^64 ∨ h.freeList = 0) ∧
    (Sound (kmallocPageAligned h n) n ↔ n ≤ 2^64-8192 ∨
      ∀ x ∈ freeAddrs blockHdrSize h.heapStart bs, fits h (pageUp n) x = false) :=
  ⟨kmalloc_sound_iff h bs ht hs hn,page_aligned_sound_iff h bs ht hs hn⟩

theorem size_safe_iff_booted : Sound (kmalloc (kheapInit (fun _ => ⟨0,0,0⟩) 1024) 100) 100 := by
  have hv := booted_valid (fun _ => ⟨0,0,0⟩) 1024 (by decide)
  exact (size_safe_iff _ _ hv.tiled hv.spaced 100 (by decide)).1.mpr (.inl (by decide))

/-- On the fresh heap a request for all bytes of the address space gets a
block of no bytes, and so does one for page-aligned memory. -/
theorem last_request_served :
    ¬Sound (kmalloc (kheapInit (fun _ => ⟨0,0,0⟩) 1024) (2^64-1)) (2^64-1) ∧
    ¬Sound (kmallocPageAligned (kheapInit (fun _ => ⟨0,0,0⟩) 1024) (2^64-1)) (2^64-1) := by
  unfold Sound
  decide +kernel

end HobbyOS.HeapRequests

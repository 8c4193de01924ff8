import HobbyOS.PageAlloc
import HobbyOS.Mmap

/-!
# The page allocator's books

`pmm_init` from the boot loader's memory map, and the four calls that move
pages between used and free while swap is not yet in use. The free count
follows the bitmap through all of them. A release may name any page but
page zero, which the allocator never hands out.
-/

namespace HobbyOS.PageCount
open BoundedLoop PageEntry PhysMem UserVm Mmap TableGrowth Function

structure MmapEntry where
  baseAddr : ℕ
  length : ℕ
  type : ℕ

/-- The tags of the boot information; only the memory map is looked at. -/
inductive Tag where
  | stop
  | mmap (entries : List MmapEntry)
  | other

def mmapEntries : List Tag → List MmapEntry
  | [] => []
  | .stop::_ => []
  | .mmap es::rest => es++mmapEntries rest
  | .other::rest => mmapEntries rest

variable (s : Mem) (kernelEnd : ℕ) (tags : List Tag) (es : List MmapEntry)

def maxPhysAddr : ℕ :=
  min (es.foldl (fun m e => max m ((e.baseAddr+e.length) % 2^64)) 0) (512*1024*1024)

/-- Pages found available are cleared and counted once. -/
def freeFound (page : ℕ) : Mem :=
  if s.bitmap page then
    { s with bitmap := update s.bitmap page false, freePages := inc64 s.freePages }
  else s

def reservePage (page : ℕ) : Mem :=
  if s.bitmap page then s
  else { s with bitmap := update s.bitmap page true, freePages := dec64 s.freePages }

def freeRegion (maxPhys : ℕ) (s : Mem) (e : MmapEntry) : Mem :=
  if e.type = 1 then
    let base := pageUp e.baseAddr % 2^64
    let stop := pageBase ((e.baseAddr+e.length) % 2^64)
    iterate (fun p s => freeFound s p) (base/pageSize)
      ((min stop maxPhys-base+(pageSize-1))/pageSize) s
  else s

/-- Where the reference counts start, behind the kernel and the bitmap. -/
def refcountPhys (kernelEnd total : ℕ) : ℕ := pageUp (pageUp kernelEnd+(total+7)/8)

def reserveEnd (kernelEnd total : ℕ) : ℕ := pageUp (refcountPhys kernelEnd total+total)

def pmmInit (s : Mem) : Mem :=
  let es := mmapEntries tags
  let maxPhys := maxPhysAddr es
  let total := maxPhys/pageSize
  let s := { s with
    totalPages := total
    bitmap := fun p => decide (p < 8*((total+7)/8)) || s.bitmap p
    pageRefcount := fun p => if p < total then 0 else s.pageRefcount p
    freePages := 0 }
  let s := es.foldl (freeRegion maxPhys) s
  let s := iterate (fun p s => reservePage s p) 0 256 s
  iterate (fun p s => reservePage s p) 256 (reserveEnd kernelEnd total/pageSize-256) s

def pmmSetKernelEnd : Mem :=
  match (List.range s.totalPages).find? (fun i => !s.bitmap i) with
  | some i => { s with kernelPageLimit := i }
  | none => { s with kernelPageLimit := s.totalPages }

def clearCount (n : ℕ) (b : ℕ → Bool) : ℕ := (List.range n).countP fun p => !b p

variable (c : Ctx) (n : ℕ) (b : ℕ → Bool) (p : ℕ)

theorem clear_count_out (v : Bool) (hp : n ≤ p) : clearCount n (update b p v) = clearCount n b := by
  apply List.countP_congr
  intro i hi
  have hne : i ≠ p := by
    have := List.mem_range.mp hi
    omega
  rw [update_of_ne hne]

theorem clear_count_set (v : Bool) (hp : p < n) :
    clearCount n (update b p v)+(if b p then 0 else 1) =
      clearCount n b+if v then 0 else 1 := by
  induction n with
  | zero => omega
  | succ n ih =>
    have hsplit : ∀ b' : ℕ → Bool, clearCount (n+1) b' = clearCount n b'+if b' n then 0 else 1 := by
      intro b'
      unfold clearCount
      rw [List.range_succ, List.countP_append, List.countP_singleton]
      cases b' n <;> rfl
    rw [hsplit, hsplit]
    by_cases hpn : p = n
    · subst hpn
      rw [clear_count_out p b p v (le_refl p), update_self]
      omega
    · rw [update_of_ne (fun h => hpn h.symm)]
      omega

theorem clear_count_le : clearCount n b ≤ n := by
  have := List.countP_le_length (p := fun p => !b p) (l := List.range n)
  rwa [List.length_range] at this

theorem clear_count_full (h : ∀ p < n, b p = true) : clearCount n b = 0 := by
  unfold clearCount
  rw [List.countP_eq_zero]
  intro p hp
  rw [h p (List.mem_range.mp hp)]
  simp

/-- The count agrees with the bitmap, and all of it fits the counter. -/
structure Counted (s : Mem) : Prop where
  total : s.totalPages ≤ 131072
  count : s.freePages = clearCount s.totalPages s.bitmap

theorem counted_clear (h : Counted s) {p : ℕ} (hp : p < s.totalPages)
    (hb : s.bitmap p = true) : inc64 s.freePages =
      clearCount s.totalPages (update s.bitmap p false) := by
  have h1 := clear_count_set s.totalPages s.bitmap p false hp
  have h2 := clear_count_le s.totalPages s.bitmap
  have h3 := h.total
  rw [hb] at h1
  simp only [if_true, Bool.false_eq_true, if_false] at h1
  rw [inc64, h.count]
  omega

theorem counted_set (h : Counted s) {p : ℕ} (hp : p < s.totalPages)
    (hb : s.bitmap p = false) : dec64 s.freePages =
      clearCount s.totalPages (update s.bitmap p true) := by
  have h1 := clear_count_set s.totalPages s.bitmap p true hp
  have h2 := clear_count_le s.totalPages s.bitmap
  have h3 := h.total
  rw [hb] at h1
  simp only [if_true, Bool.false_eq_true, if_false] at h1
  rw [dec64, h.count]
  omega

structure SameBooks (s s' : Mem) : Prop where
  total : s'.totalPages = s.totalPages
  counts : s'.pageRefcount = s.pageRefcount
  limit : s'.kernelPageLimit = s.kernelPageLimit
  swap : s'.swapReady = s.swapReady

theorem same_books_trans (s s' s'' : Mem) (h : SameBooks s s') (h' : SameBooks s' s'') :
    SameBooks s s'' :=
  ⟨h'.total.trans h.total,h'.counts.trans h.counts,h'.limit.trans h.limit,h'.swap.trans h.swap⟩

theorem free_found (h : Counted s) (p : ℕ) (hp : p < s.totalPages) :
    Counted (freeFound s p) ∧ SameBooks s (freeFound s p) := by
  unfold freeFound
  split_ifs with hb
  · exact ⟨⟨h.total,counted_clear s h hp hb⟩,rfl,rfl,rfl,rfl⟩
  · exact ⟨h,rfl,rfl,rfl,rfl⟩

theorem reserve_page (h : Counted s) (p : ℕ) (hp : p < s.totalPages) :
    Counted (reservePage s p) ∧ SameBooks s (reservePage s p) ∧
      ∀ q, q = p ∨ s.bitmap q = true → (reservePage s p).bitmap q = true := by
  unfold reservePage
  split_ifs with hb
  · refine ⟨h,⟨rfl,rfl,rfl,rfl⟩,?_⟩
    rintro q (rfl | hq)
    · exact hb
    · exact hq
  · refine ⟨⟨h.total,counted_set s h hp (by simpa using hb)⟩,⟨rfl,rfl,rfl,rfl⟩,?_⟩
    rintro q (rfl | hq)
    · simp
    · by_cases hqp : q = p
      · simp [hqp]
      · simp [hqp, hq]

theorem reserve_pages (h : Counted s) (i n : ℕ) (hn : i+n ≤ s.totalPages) :
    Counted (iterate (fun p s => reservePage s p) i n s) ∧
      SameBooks s (iterate (fun p s => reservePage s p) i n s) ∧
      (∀ q, s.bitmap q = true → (iterate (fun p s => reservePage s p) i n s).bitmap q = true) ∧
      ∀ q, i ≤ q → q < i+n → (iterate (fun p s => reservePage s p) i n s).bitmap q = true := by
  refine iterate_rule (fun p s => reservePage s p) (fun k x => Counted x ∧ SameBooks s x ∧
    (∀ q, s.bitmap q = true → x.bitmap q = true) ∧ ∀ q, i ≤ q → q < k → x.bitmap q = true) i n s
    ⟨h,⟨rfl,rfl,rfl,rfl⟩,fun _ hq => hq,fun _ h1 h2 => absurd h2 (by omega)⟩ ?_
  rintro k x h1 h2 ⟨hx,hsame,hkeep,hdone⟩
  obtain ⟨hc,hs,hb⟩ := reserve_page x hx k (by rw [hsame.total]; omega)
  refine ⟨hc,same_books_trans _ _ _ hsame hs,fun q hq => hb q (Or.inr (hkeep q hq)),?_⟩
  intro q hq hqk
  by_cases hqe : q = k
  · exact hb q (Or.inl hqe)
  · exact hb q (Or.inr (hdone q hq (by omega)))

theorem free_pages (h : Counted s) (i n : ℕ) (hn : i+n ≤ s.totalPages ∨ n = 0) :
    Counted (iterate (fun p s => freeFound s p) i n s) ∧
      SameBooks s (iterate (fun p s => freeFound s p) i n s) := by
  refine iterate_rule (fun p s => freeFound s p) (fun _ x => Counted x ∧ SameBooks s x) i n s
    ⟨h,rfl,rfl,rfl,rfl⟩ ?_
  rintro k x h1 h2 ⟨hx,hsame⟩
  obtain ⟨hc,hs⟩ := free_found x hx k (by rw [hsame.total]; omega)
  exact ⟨hc,same_books_trans _ _ _ hsame hs⟩

theorem page_up_aligned : pageUp n % 2^64 % 4096 = 0 := by
  unfold pageUp pageBase pageSize
  omega

/-- An available region never reaches past the last page: its end was
rounded down and took part in the maximum. -/
theorem free_region (maxPhys : ℕ) (s : Mem) (e : MmapEntry) (h : Counted s)
    (ht : s.totalPages = maxPhys/pageSize)
    (he : maxPhys = 512*1024*1024 ∨ (e.baseAddr+e.length) % 2^64 ≤ maxPhys) :
    Counted (freeRegion maxPhys s e) ∧ SameBooks s (freeRegion maxPhys s e) := by
  unfold freeRegion
  split_ifs
  · apply free_pages s h
    rw [ht]
    have hal := page_up_aligned e.baseAddr
    unfold pageBase pageSize
    generalize (e.baseAddr+e.length) % 2^64 = stop at he ⊢
    rcases Nat.le_total (stop/4096*4096) maxPhys with hle | hle
    · omega
    · omega
  · exact ⟨h,rfl,rfl,rfl,rfl⟩

theorem free_regions (maxPhys : ℕ) (es : List MmapEntry) (s : Mem) (h : Counted s)
    (ht : s.totalPages = maxPhys/pageSize)
    (he : ∀ e ∈ es, maxPhys = 512*1024*1024 ∨ (e.baseAddr+e.length) % 2^64 ≤ maxPhys) :
    Counted (es.foldl (freeRegion maxPhys) s) ∧ SameBooks s (es.foldl (freeRegion maxPhys) s) := by
  induction es generalizing s with
  | nil => exact ⟨h,rfl,rfl,rfl,rfl⟩
  | cons e es ih =>
    obtain ⟨hc,hs⟩ := free_region maxPhys s e h ht (he e List.mem_cons_self)
    obtain ⟨hc',hs'⟩ := ih _ hc (by rw [hs.total]; exact ht)
      (fun x hx => he x (List.mem_cons_of_mem e hx))
    exact ⟨hc',same_books_trans _ _ _ hs hs'⟩

theorem fold_max_ge (m : ℕ) :
    m ≤ es.foldl (fun m e => max m ((e.baseAddr+e.length) % 2^64)) m ∧
      ∀ e ∈ es, (e.baseAddr+e.length) % 2^64 ≤
        es.foldl (fun m e => max m ((e.baseAddr+e.length) % 2^64)) m := by
  induction es generalizing m with
  | nil => exact ⟨le_refl m,fun e he => absurd he List.not_mem_nil⟩
  | cons x es ih =>
    obtain ⟨h1,h2⟩ := ih (max m ((x.baseAddr+x.length) % 2^64))
    refine ⟨(le_max_left _ _).trans h1,?_⟩
    intro e he
    rcases List.mem_cons.mp he with rfl | he
    · exact (le_max_right _ _).trans h1
    · exact h2 e he

theorem region_below : ∀ e ∈ es,
    maxPhysAddr es = 512*1024*1024 ∨ (e.baseAddr+e.length) % 2^64 ≤ maxPhysAddr es := by
  intro e he
  have h := (fold_max_ge es 0).2 e he
  unfold maxPhysAddr
  omega

/-- The count follows the bitmap, and a free page has no references. -/
structure Ledger (s : Mem) : Prop where
  counted : Counted s
  idle : ∀ p < s.totalPages, s.bitmap p = false → s.pageRefcount p = 0

theorem ledger_congr (s s' : Mem) (h : Ledger s) (ht : s'.totalPages = s.totalPages)
    (hb : s'.bitmap = s.bitmap) (hf : s'.freePages = s.freePages)
    (hr : s'.pageRefcount = s.pageRefcount) : Ledger s' := by
  refine ⟨⟨by rw [ht]; exact h.counted.total,by rw [hf, ht, hb]; exact h.counted.count⟩,?_⟩
  rw [ht, hb, hr]
  exact h.idle

theorem ledger_count (h : Ledger s) (p n : ℕ) (hb : s.bitmap p = true) :
    Ledger { s with pageRefcount := update s.pageRefcount p n } := by
  refine ⟨⟨h.counted.total,h.counted.count⟩,?_⟩
  intro q hq hqb
  have hqp : q ≠ p := by
    rintro rfl
    rw [show s.bitmap q = false from hqb] at hb
    cases hb
  change update s.pageRefcount p n q = 0
  rw [update_of_ne hqp]
  exact h.idle q hq hqb

theorem ledger_release {s s' : Mem} (h : Ledger s) {p : ℕ} (hp : p < s.totalPages) (hb : s.bitmap p = true)
    (hs : s' = { s with
      bitmap := update s.bitmap p false
      freePages := inc64 s.freePages
      pageRefcount := update s.pageRefcount p 0 }) : Ledger s' := by
  rw [hs]
  refine ⟨⟨h.counted.total,counted_clear s h.counted hp hb⟩,?_⟩
  intro q hq hqb
  dsimp only at hq hqb ⊢
  by_cases hqp : q = p
  · rw [hqp, update_self]
  · rw [update_of_ne hqp] at hqb ⊢
    exact h.idle q hq hqb

theorem ledger_taken (h : Ledger s) {n : ℕ} (hlt : n < s.totalPages) (hb : s.bitmap n = false) :
    Ledger (taken s n) := by
  refine ⟨⟨h.counted.total,counted_set s h.counted hlt hb⟩,?_⟩
  intro q hq hqb
  change update s.bitmap n true q = false at hqb
  change update s.pageRefcount n 1 q = 0
  have hqn : q ≠ n := by
    rintro rfl
    rw [update_self] at hqb
    cases hqb
  rw [update_of_ne hqn] at hqb ⊢
  exact h.idle q hq hqb

/-- What holds of the allocator at all times. -/
structure Pmm (s : Mem) : Prop extends Ledger s where
  zero : s.bitmap 0 = true
  limit : s.kernelPageLimit ≤ s.totalPages
  kernel : ∀ p < s.kernelPageLimit, s.bitmap p = true
  swap : s.swapReady = false

theorem pmm_congr {s s' : Mem} (h : Pmm s) (ht : s'.totalPages = s.totalPages)
    (hb : s'.bitmap = s.bitmap) (hf : s'.freePages = s.freePages)
    (hr : s'.pageRefcount = s.pageRefcount) (hl : s'.kernelPageLimit = s.kernelPageLimit)
    (hs : s'.swapReady = s.swapReady) : Pmm s' := by
  refine ⟨ledger_congr s s' h.toLedger ht hb hf hr,?_,?_,?_,?_⟩
  · rw [hb]; exact h.zero
  · rw [hl, ht]; exact h.limit
  · rw [hl, hb]; exact h.kernel
  · rw [hs]; exact h.swap

/-- The kernel lies above one megabyte, and it and the two arrays behind it
lie in the memory that the map reports. -/
def Fits : Prop :=
  0x100000 ≤ reserveEnd kernelEnd (maxPhysAddr (mmapEntries tags)/pageSize) ∧
    reserveEnd kernelEnd (maxPhysAddr (mmapEntries tags)/pageSize) ≤ maxPhysAddr (mmapEntries tags)

theorem init_pmm {s : Mem} (hfit : Fits kernelEnd tags)
    (hswap : s.swapReady = false) (hlimit : s.kernelPageLimit = 0) :
    Pmm (pmmInit kernelEnd tags s) := by
  unfold pmmInit
  dsimp only
  obtain ⟨hlow,hhigh⟩ := hfit
  have hregion := region_below (mmapEntries tags)
  have hmax : maxPhysAddr (mmapEntries tags) ≤ 512*1024*1024 := Nat.min_le_right _ _
  generalize reserveEnd kernelEnd (maxPhysAddr (mmapEntries tags)/pageSize) = stop at hlow hhigh ⊢
  generalize maxPhysAddr (mmapEntries tags) = maxPhys at hregion hmax hhigh ⊢
  unfold pageSize at *
  generalize hs0 : ({ s with
    totalPages := maxPhys/4096
    bitmap := fun p => decide (p < 8*((maxPhys/4096+7)/8)) || s.bitmap p
    pageRefcount := fun p => if p < maxPhys/4096 then 0 else s.pageRefcount p
    freePages := 0 } : Mem) = s0
  have ht0 : s0.totalPages = maxPhys/4096 := by rw [← hs0]
  have h0 : Counted s0 := by
    constructor
    · omega
    · rw [clear_count_full]
      · rw [← hs0]
      · intro p hp
        rw [← hs0]
        simp only [Bool.or_eq_true, decide_eq_true_eq]
        left
        omega
  obtain ⟨h1,b1⟩ := free_regions maxPhys (mmapEntries tags) s0 h0 ht0 hregion
  generalize (mmapEntries tags).foldl (freeRegion maxPhys) s0 = s1 at h1 b1 ⊢
  obtain ⟨h2,b2,-,d2⟩ := reserve_pages s1 h1 0 256 (by rw [b1.total]; omega)
  generalize iterate (fun p s => reservePage s p) 0 256 s1 = s2 at h2 b2 d2 ⊢
  obtain ⟨h3,b3,k3,-⟩ := reserve_pages s2 h2 256 (stop/4096-256)
    (by rw [b2.total, b1.total]; omega)
  generalize iterate (fun p s => reservePage s p) 256 (stop/4096-256) s2 = s3 at h3 b3 k3 ⊢
  have b := same_books_trans _ _ _ b1 (same_books_trans _ _ _ b2 b3)
  have hl : s3.kernelPageLimit = 0 := by rw [b.limit, ← hs0]; exact hlimit
  refine ⟨⟨h3,?_⟩,k3 0 (d2 0 (by omega) (by omega)),by rw [hl]; omega,?_,?_⟩
  · intro p hp _
    rw [b.counts, ← hs0]
    rw [b.total, ht0] at hp
    exact if_pos hp
  · intro p hp
    omega
  · rw [b.swap, ← hs0]
    exact hswap

inductive Op where
  | alloc
  | free (page : ℕ)
  | ref (page : ℕ)
  | unref (page : ℕ)
  | setKernelEnd

def step (c : Ctx) (s : Mem) : Op → Mem
  | .alloc => (pmmAllocPage c s).1
  | .free p => pmmFreePage s p
  | .ref p => pmmPageRef s p
  | .unref p => pmmPageUnref s p
  | .setKernelEnd => pmmSetKernelEnd s

def Allowed : Op → Prop
  | .free p => p ≠ 0
  | .unref p => p ≠ 0
  | .ref p => s.bitmap p = true
  | _ => True

inductive Reach (s0 : Mem) : Mem → Prop where
  | start : Reach s0 s0
  | step (c : Ctx) (s : Mem) (op : Op) (h : Reach s0 s) (ha : Allowed s op) :
      Reach s0 (step c s op)

theorem alloc_cases {s : Mem} (h : Pmm s) :
    (pmmAllocPage c s = (s,0) ∧ ∀ p < s.totalPages, s.bitmap p = true) ∨
      ∃ n, n ≠ 0 ∧ n < s.totalPages ∧ s.bitmap n = false ∧ pmmAllocPage c s = (taken s n,n) := by
  unfold pmmAllocPage
  rw [PageAlloc.evict_idle c 8 (.inl h.swap)]
  by_cases hfull : ∀ p < s.totalPages, s.bitmap p = true
  · left
    refine ⟨?_,hfull⟩
    have hnone : (List.range s.totalPages).find?
        (fun j => !s.bitmap ((s.allocHint+j) % s.totalPages)) = none := by
      rw [List.find?_eq_none]
      intro j hj
      have hpos : 0 < s.totalPages := by
        have := List.mem_range.mp hj
        omega
      rw [hfull _ (Nat.mod_lt _ hpos)]
      simp
    rw [takePage, hnone]
  · right
    push Not at hfull
    obtain ⟨q,hq,hb⟩ := hfull
    exact take_page_free h.zero hq (by simpa using hb)

theorem find_clear {i : ℕ}
    (h : (List.range s.totalPages).find? (fun i => !s.bitmap i) = some i) :
    i < s.totalPages ∧ s.bitmap i = false ∧ ∀ p < i, s.bitmap p = true := by
  have hb := List.find?_some h
  have hm := List.mem_range.mp (List.mem_of_find?_eq_some h)
  refine ⟨hm,by simpa using hb,?_⟩
  intro p hp
  have := (List.find?_range_eq_some.mp h).2.2 p hp
  simpa using this

theorem set_kernel_end (h : Pmm s) : Pmm (pmmSetKernelEnd s) ∧
    s.kernelPageLimit ≤ (pmmSetKernelEnd s).kernelPageLimit := by
  unfold pmmSetKernelEnd
  cases hf : (List.range s.totalPages).find? (fun i => !s.bitmap i) with
  | some i =>
    obtain ⟨h1,h2,h3⟩ := find_clear s hf
    refine ⟨⟨⟨⟨h.counted.total,h.counted.count⟩,h.idle⟩,h.zero,h1.le,h3,h.swap⟩,?_⟩
    by_contra hc
    rw [h.kernel i (by simpa using hc)] at h2
    cases h2
  | none =>
    rw [List.find?_eq_none] at hf
    refine ⟨⟨⟨⟨h.counted.total,h.counted.count⟩,h.idle⟩,h.zero,le_refl _,?_,h.swap⟩,h.limit⟩
    intro p hp
    simpa using hf p (List.mem_range.mpr hp)

theorem pmm_release {s s' : Mem} (h : Pmm s) {p : ℕ} (hp : p < s.totalPages) (h0 : p ≠ 0)
    (hb : s.bitmap p = true) (hk : ¬(s.kernelPageLimit ≠ 0 ∧ p < s.kernelPageLimit))
    (hs : s' = { s with
      bitmap := update s.bitmap p false
      freePages := inc64 s.freePages
      pageRefcount := update s.pageRefcount p 0 }) : Pmm s' := by
  have hl := ledger_release h.toLedger hp hb hs
  rw [hs] at hl ⊢
  refine ⟨hl,?_,h.limit,?_,h.swap⟩
  · dsimp only
    rw [update_of_ne (fun hc => h0 hc.symm)]
    exact h.zero
  · intro q hq
    dsimp only at hq ⊢
    have hqp : q ≠ p := by
      rintro rfl
      exact hk ⟨by omega,hq⟩
    rw [update_of_ne hqp]
    exact h.kernel q hq

theorem pmm_taken (h : Pmm s) {n : ℕ} (hn : n ≠ 0) (hlt : n < s.totalPages)
    (hb : s.bitmap n = false) : Pmm (taken s n) := by
  refine ⟨ledger_taken s h.toLedger hlt hb,?_,h.limit,?_,h.swap⟩
  · change update s.bitmap n true 0 = true
    rw [update_of_ne (fun hc => hn hc.symm)]
    exact h.zero
  · intro q hq
    change update s.bitmap n true q = true
    by_cases hqn : q = n
    · rw [hqn, update_self]
    · rw [update_of_ne hqn]
      exact h.kernel q hq

theorem pmm_count (h : Pmm s) (p n : ℕ) (hb : s.bitmap p = true) :
    Pmm { s with pageRefcount := update s.pageRefcount p n } :=
  ⟨ledger_count s h.toLedger p n hb,h.zero,h.limit,h.kernel,h.swap⟩

theorem step_pmm (s : Mem) (op : Op) (h : Pmm s) (ha : Allowed s op) :
    Pmm (step c s op) ∧ s.kernelPageLimit ≤ (step c s op).kernelPageLimit := by
  cases op with
  | alloc =>
    change Pmm (pmmAllocPage c s).1 ∧ _ ≤ (pmmAllocPage c s).1.kernelPageLimit
    rcases alloc_cases c h with ⟨heq,-⟩ | ⟨n,hn,hlt,hb,heq⟩
    · rw [heq]
      exact ⟨h,le_refl _⟩
    · rw [heq]
      exact ⟨pmm_taken s h hn hlt hb,le_refl _⟩
  | free p =>
    change Pmm (pmmFreePage s p) ∧ _ ≤ (pmmFreePage s p).kernelPageLimit
    unfold pmmFreePage
    split_ifs with hp hk
    · exact ⟨h,le_refl _⟩
    · rw [releasePage, if_neg hk]
      exact ⟨pmm_release h hp.1 ha hp.2 hk rfl,le_refl _⟩
    · exact ⟨h,le_refl _⟩
  | ref p =>
    change Pmm (pmmPageRef s p) ∧ _ ≤ (pmmPageRef s p).kernelPageLimit
    unfold pmmPageRef
    split_ifs
    · exact ⟨pmm_count s h p _ ha,le_refl _⟩
    · exact ⟨h,le_refl _⟩
  | unref p =>
    change Pmm (pmmPageUnref s p) ∧ _ ≤ (pmmPageUnref s p).kernelPageLimit
    unfold pmmPageUnref
    split_ifs with hp
    · have hb : s.bitmap p = true := by
        by_contra hc
        have := h.idle p hp.1 (by simpa using hc)
        omega
      dsimp only
      split_ifs with hz
      · rw [hz]
        unfold releasePage
        split_ifs with hk
        · exact ⟨pmm_count s h p 0 hb,le_refl _⟩
        · exact ⟨pmm_release h hp.1 ha hb hk rfl,le_refl _⟩
      · exact ⟨pmm_count s h p _ hb,le_refl _⟩
    · exact ⟨h,le_refl _⟩
  | setKernelEnd => exact set_kernel_end s h

theorem reach_pmm {s0 s : Mem} (h0 : Pmm s0) (h : Reach s0 s) :
    Pmm s ∧ s0.kernelPageLimit ≤ s.kernelPageLimit := by
  induction h with
  | start => exact ⟨h0,le_refl _⟩
  | step c s op _ ha ih =>
    obtain ⟨h1,h2⟩ := step_pmm c s op ih.1 ha
    exact ⟨h1,ih.2.trans h2⟩

/-- The books hold in every state after `pmm_init`, and a page below the
limit is used in every later one. -/
theorem pmm_books (m s s' : Mem) (hfit : Fits kernelEnd tags)
    (hswap : m.swapReady = false) (hlimit : m.kernelPageLimit = 0)
    (h : Reach (pmmInit kernelEnd tags m) s) (h' : Reach s s') :
    s.freePages = clearCount s.totalPages s.bitmap ∧
      (∀ p < s.totalPages, s.bitmap p = false → s.pageRefcount p = 0) ∧
      (∀ c, (pmmAllocPage c s).2 = 0 ↔ ∀ p < s.totalPages, s.bitmap p = true) ∧
      (∀ c, (pmmAllocPage c s).2 ≠ 0 → (pmmAllocPage c s).2 < s.totalPages ∧
        s.bitmap (pmmAllocPage c s).2 = false ∧
        (pmmAllocPage c s).1.bitmap (pmmAllocPage c s).2 = true ∧
        (pmmAllocPage c s).1.pageRefcount (pmmAllocPage c s).2 = 1) ∧
      ∀ p < s.kernelPageLimit, s'.bitmap p = true := by
  obtain ⟨hs,-⟩ := reach_pmm (init_pmm kernelEnd tags hfit hswap hlimit) h
  obtain ⟨hs',hle⟩ := reach_pmm hs h'
  refine ⟨hs.counted.count,hs.idle,?_,?_,fun p hp => hs'.kernel p (by omega)⟩
  · intro c
    rcases alloc_cases c hs with ⟨heq,hfull⟩ | ⟨n,hn,hlt,hb,heq⟩
    · rw [heq]
      exact ⟨fun _ => hfull,fun _ => rfl⟩
    · rw [heq]
      refine ⟨fun hz => absurd hz hn,fun hfull => ?_⟩
      rw [hfull n hlt] at hb
      cases hb
  · intro c hne
    rcases alloc_cases c hs with ⟨heq,-⟩ | ⟨n,hn,hlt,hb,heq⟩
    · rw [heq] at hne
      exact absurd rfl hne
    · rw [heq]
      exact ⟨hlt,hb,by simp [taken],by simp [taken]⟩

def powerOn : Mem where
  totalPages := 0
  bitmap := fun _ => false
  pageRefcount := fun _ => 0
  freePages := 0
  allocHint := 0
  kernelPageLimit := 0
  ram := fun _ _ => 0
  rmapTable := fun _ => {}
  swapSlots := fun _ => false
  swapUsed := 0
  swapReady := false
  clockHand := 0
  swapArea := fun _ _ => 0
  cr3 := 0
  spaces := []
  evictions := []

def booting : Ctx := { table := fun _ => {}, current := none }

def bootTags : List Tag := [.other,.mmap [⟨0,0x9fc00,1⟩,⟨0x100000,0x7f00000,1⟩],.stop]

theorem boot_fits : Fits 0x200000 bootTags := by
  have hmax : maxPhysAddr (mmapEntries bootTags) = 0x8000000 := rfl
  unfold Fits
  decide

theorem pmm_books_boot :
    let s := step booting (pmmInit 0x200000 bootTags powerOn) .setKernelEnd
    s.freePages = clearCount s.totalPages s.bitmap ∧
      ∀ p < s.kernelPageLimit, (step booting s .alloc).bitmap p = true := by
  have h := pmm_books 0x200000 bootTags powerOn _ _ boot_fits rfl rfl
    (.step booting _ .setKernelEnd .start trivial) (.step booting _ .alloc .start trivial)
  exact ⟨h.1,h.2.2.2.2⟩

end HobbyOS.PageCount

import HobbyOS.TableGrowth

/-!
# Allocation under memory pressure

A page allocation runs the clock hand first. A scan that evicts nothing only
grows the tables; an eviction is the one step that moves a page. `Carry`
says what a caller has to show about its invariant to keep it through the
allocator and through `user_vm_map_page`: growth keeps it, and an eviction
either keeps it or is given up on.
-/

namespace HobbyOS.PageAlloc
open RadixTree BoundedLoop PageEntry PhysMem Process UserVm
  AddressSpace TableGrowth

variable (c : Ctx) (s : Mem)

def Live : Prop :=
  ∀ p, p < maxProcesses → (c.table p).state ≠ .unused → (c.table p).cr3 ≠ 0 →
    (c.table p).cr3 ∈ s.spaces

/-- The slot taken for the page about to be written out. -/
def slotTaken (slot : ℕ) : Mem := { s with
  swapSlots := Function.update s.swapSlots slot true
  swapUsed := inc64 s.swapUsed }

inductive Evicts (c : Ctx) (s : Mem) : Mem → Prop
  | evict (page p slot t : ℕ) (rm : RmapEntry)
      (hcount : pmmPageRefcount s page = 1)
      (hrmap : rmapGet s page = some rm)
      (hproc : processGetByPid c.table rm.pid = some p)
      (hspace : (c.table p).cr3 ∈ s.spaces)
      (htable : leafTable s.ram (c.table p).cr3 (rm.virtAddr/4096) = some t)
      (hpresent : bit (view s.ram (c.table p).cr3 (rm.virtAddr/4096)) 0 = true)
      (hslot : slot < swapMaxPages ∧ s.swapSlots slot = false) :
      Evicts c s (evictPage (slotTaken s slot) page (c.table p).cr3 rm.virtAddr t
        (rm.virtAddr/4096 % 512) slot)

structure SameWalks (s s' : Mem) : Prop where
  spaces : s'.spaces = s.spaces
  total : s'.totalPages = s.totalPages
  walks : ∀ a ∈ s.spaces, ∀ p, UserPath p → walk (child s'.ram) a p = walk (child s.ram) a p

theorem same_walks_refl : SameWalks s s := ⟨rfl,rfl,fun _ _ _ _ => rfl⟩

theorem same_walks_trans {s s' s'' : Mem} (h : SameWalks s s') (h' : SameWalks s' s'') :
    SameWalks s s'' where
  spaces := h'.spaces.trans h.spaces
  total := h'.total.trans h.total
  walks a ha p hp := (h'.walks a (h.spaces ▸ ha) p hp).trans (h.walks a ha p hp)

theorem evict_page_ram (page pml4 virt t i slot : ℕ) :
    (evictPage s page pml4 virt t i slot).ram = setEntry s.ram t i (swappedEntry slot) := by
  simp [evictPage, rmapClear]

theorem evict_page_log (page pml4 virt t i slot : ℕ) :
    (evictPage s page pml4 virt t i slot).evictions =
      ⟨s.spaces,s.ram,setEntry s.ram t i (swappedEntry slot),page,slot,pml4,virt⟩ ::
        s.evictions := by
  simp [evictPage, rmapClear]

theorem evicts_walks {s s' : Mem} (hS : Struct s) (h : Evicts c s s') :
    SameWalks s s' := by
  obtain ⟨page,p,slot,t,rm,-,hrm,-,hsp,ht,-,-⟩ := h
  refine ⟨?_,?_,?_⟩
  · simp [evictPage, rmapClear, slotTaken]
  · simp [evictPage, rmapClear, slotTaken]
  · intro a ha q hq
    rw [evict_page_ram]
    have hlow : rm.virtAddr < 2^47 := by
      unfold rmapGet at hrm
      split_ifs at hrm
      cases hrm
      exact hS.low page
    exact set_leaf_walk s hS.trees _ _ t hsp (by unfold userPages; omega) ht _ a q ha hq

theorem evicts_log {s s' : Mem} (h : Evicts c s s') :
    s'.evictions.length = s.evictions.length+1 := by
  cases h
  rw [evict_page_log]
  rfl

structure Still (s s' : Mem) : Prop where
  grow : Grow s s'
  struct : Struct s'
  walks : SameWalks s s'
  bitmap : s'.bitmap = s.bitmap
  freePages : s'.freePages = s.freePages

theorem still_refl (hS : Struct s) : Still s s := ⟨grow_refl s,hS,same_walks_refl s,rfl,rfl⟩

theorem still_trans {s s' s'' : Mem} (h : Still s s') (h' : Still s' s'') : Still s s'' :=
  ⟨grow_trans h.grow h'.grow,h'.struct,same_walks_trans h.walks h'.walks,
    h'.bitmap.trans h.bitmap,h'.freePages.trans h.freePages⟩

theorem still_live {s s' : Mem} (h : Still s s') (hL : Live c s) : Live c s' := by
  unfold Live
  rw [h.grow.spaces]
  exact hL

theorem still_slots (hS : Struct s) (slots : ℕ → Bool) (used : ℕ)
    (h : ∀ i, s.swapSlots i = true → slots i = true) :
    Still s { s with swapSlots := slots, swapUsed := used } := by
  refine ⟨?_,struct_congr hS rfl rfl rfl rfl rfl hS.low,⟨rfl,rfl,fun _ _ _ _ => rfl⟩,rfl,rfl⟩
  exact ⟨rfl,rfl,rfl,rfl,rfl,fun i hi => ⟨h i hi,rfl⟩,fun _ h => ⟨h,rfl⟩,fun _ _ _ _ _ h => h,fun _ h => Or.inl h,
    fun _ _ _ => rfl,fun _ _ _ _ => rfl⟩

theorem still_unmark (hS : Struct s) {a v t : ℕ} (ha : a ∈ s.spaces)
    (hv : v < userPages) (ht : leafTable s.ram a v = some t) :
    Still s { s with
      ram := setEntry s.ram t (v % 512) (entry s.ram t (v % 512) &&& ~~~pteAccessed) } := by
  have he : entry s.ram t (v % 512) &&& ~~~pteAccessed &&& ~~~pteAccessed = view s.ram a v := by
    rw [view, leaf_of_table _ ht, BitVec.and_assoc, BitVec.and_self]
  obtain ⟨hG,hS'⟩ := grow_mark hS ha hv ht he
  exact ⟨hG,hS',⟨rfl,rfl,fun b hb q hq => set_leaf_walk s hS.trees a v t ha hv ht _ b q hb hq⟩,
    rfl,rfl⟩

theorem evict_body_cases (total start j : ℕ) {s : Mem} (hS : Struct s)
    (hL : Live c s) :
    (evictBody c total start j s).Sat (Still s)
      (fun s' ok => if ok then Evicts c s s' else Still s s') := by
  unfold evictBody
  dsimp only
  split_ifs with hrc
  · exact still_refl s hS
  cases hrm : rmapGet s ((start+j) % total) with
  | none => exact still_refl s hS
  | some rm =>
    dsimp only
    cases hp : processGetByPid c.table rm.pid with
    | none => exact still_refl s hS
    | some p =>
      dsimp only
      split_ifs with h0
      · exact still_refl s hS
      obtain ⟨hp1,hp2,-⟩ := get_by_pid_some hp
      have ha := hL p hp1 hp2 h0
      have hlow : rm.virtAddr < 2^47 := by
        unfold rmapGet at hrm
        split_ifs at hrm
        cases hrm
        exact hS.low _
      have hv : rm.virtAddr/4096 < userPages := by unfold userPages; omega
      rw [get_pte s hS.trees ha hlow]
      cases ht : leafTable s.ram (c.table p).cr3 (rm.virtAddr/4096) with
      | none => exact still_refl s hS
      | some t =>
        simp only [Option.map_some]
        split_ifs with h1 h2
        · exact still_refl s hS
        · exact still_unmark s hS ha hv ht
        · unfold swapAllocSlot
          cases hs : (List.range swapMaxPages).find? (fun i => !s.swapSlots i) with
          | none => exact still_refl s hS
          | some slot =>
            dsimp only
            have hfree := List.find?_some hs
            have hmem := List.mem_range.mp (List.mem_of_find?_eq_some hs)
            simp only [Bool.not_eq_true'] at hfree
            split_ifs with h3
            · unfold swapFreeSlot
              rw [if_pos ⟨hmem,by simp⟩]
              apply still_slots s hS
              intro i hi
              have hne : i ≠ slot := by
                rintro rfl
                rw [hfree] at hi
                cases hi
              simp [hne, hi]
            · refine Evicts.evict _ p slot t rm (by omega) hrm hp ha ht ?_ ⟨hmem,hfree⟩
              rw [view_bit _ _ _ _ (by omega) (by omega), leaf_of_table _ ht]
              simpa using h1

theorem swap_evict_cases (hS : Struct s) (hL : Live c s) :
    Still s (swapEvictOne c s).1 ∨ ∃ s1, Still s s1 ∧ Evicts c s1 (swapEvictOne c s).1 := by
  unfold swapEvictOne
  split_ifs
  · exact Or.inl (still_refl s hS)
  have hloop := forUp_rule (evictBody c s.totalPages s.clockHand) (fun _ s' => Still s s')
    (fun s' _ => Still s s' ∨ ∃ s1, Still s s1 ∧ Evicts c s1 s') 0 (s.totalPages*2) s
    (still_refl s hS) (by
      intro j t _ _ ht
      refine (evict_body_cases c s.totalPages s.clockHand j ht.struct
        (still_live c ht hL)).mono ?_ ?_
      · exact fun _ => still_trans ht
      · intro u ok hu
        cases ok with
        | false => exact Or.inl (still_trans ht hu)
        | true => exact Or.inr ⟨t,ht,hu⟩)
  cases hf : forUp (evictBody c s.totalPages s.clockHand) 0 (s.totalPages*2) s with
  | next s' =>
    rw [hf] at hloop
    exact Or.inl hloop
  | ret s' ok =>
    rw [hf] at hloop
    exact hloop

def logLength : ℕ := s.evictions.length

/-- What the clock hand does to the books: it frees pages with a reverse
mapping, but for those of the kernel, and each is logged. -/
structure Scan (s s' : Mem) : Prop where
  total : s'.totalPages = s.totalPages
  limit : s'.kernelPageLimit = s.kernelPageLimit
  log : logLength s ≤ logLength s'
  rmap : ∀ p, rmapGet s p = none → rmapGet s' p = none ∧ s'.bitmap p = s.bitmap p
  clear : ∀ p, s.bitmap p = false → s'.bitmap p = false
  freed : logLength s < logLength s' → ∃ p < s.totalPages, rmapGet s p ≠ none ∧
    (s.kernelPageLimit ≤ p → s'.bitmap p = false)

theorem scan_refl : Scan s s :=
  ⟨rfl,rfl,le_rfl,fun _ h => ⟨h,rfl⟩,fun _ => id,fun h => absurd h (lt_irrefl _)⟩

theorem scan_trans {s s' s'' : Mem} (h : Scan s s') (h' : Scan s' s'') : Scan s s'' where
  total := h'.total.trans h.total
  limit := h'.limit.trans h.limit
  log := h.log.trans h'.log
  rmap p hp := (h'.rmap p (h.rmap p hp).1).imp_right (·.trans (h.rmap p hp).2)
  clear p hp := h'.clear p (h.clear p hp)
  freed hlt := by
    by_cases hl : logLength s < logLength s'
    · obtain ⟨p,hp,hr,hb⟩ := h.freed hl
      exact ⟨p,hp,hr,fun hk => h'.clear p (hb hk)⟩
    · obtain ⟨p,hp,hr,hb⟩ := h'.freed (by omega)
      exact ⟨p,h.total ▸ hp,fun h0 => hr (h.rmap p h0).1,fun hk => hb (h.limit ▸ hk)⟩

theorem scan_evict (page pml4 virt t i slot : ℕ) (hc : pmmPageRefcount s page = 1)
    (hr : rmapGet s page ≠ none) : Scan s (evictPage s page pml4 virt t i slot) := by
  have hlt : page < s.totalPages ∧ s.pageRefcount page = 1 := by
    unfold pmmPageRefcount at hc
    split_ifs at hc with h
    exact ⟨h,hc⟩
  have hmax : page < rmapMaxPages := by
    unfold rmapGet at hr
    split_ifs at hr with h
    · exact h.1
    · exact absurd rfl hr
  have hlog := evict_page_log s page pml4 virt t i slot
  -- A reference count of one: the page is released unless it is the kernel's.
  have hpage : ∃ s', evictPage s page pml4 virt t i slot = s' ∧ s'.totalPages = s.totalPages ∧
      s'.kernelPageLimit = s.kernelPageLimit ∧
      s'.rmapTable = Function.update s.rmapTable page {} ∧
      s'.bitmap = if s.kernelPageLimit ≠ 0 ∧ page < s.kernelPageLimit then s.bitmap
        else Function.update s.bitmap page false := by
    simp only [evictPage, rmapClear, rmapSet, if_pos hmax, pmmPageUnref, hlt, and_self, gt_iff_lt,
      zero_lt_one, if_true, Nat.sub_self, releasePage]
    split_ifs <;> exact ⟨_,rfl,rfl,rfl,rfl,rfl⟩
  obtain ⟨s',he,htotal,hlimit,hrmap,hbit⟩ := hpage
  rw [he] at hlog ⊢
  refine ⟨htotal,hlimit,?_,fun p hp => ?_,fun p hp => ?_,fun _ => ⟨page,hlt.1,hr,fun hk => ?_⟩⟩
  · rw [logLength, logLength, hlog]
    exact Nat.le_succ _
  · have hne : p ≠ page := fun h => hr (h ▸ hp)
    refine ⟨?_,?_⟩
    · unfold rmapGet at hp ⊢
      rwa [hrmap, Function.update_of_ne hne]
    · rw [hbit]
      split_ifs
      · rfl
      · rw [Function.update_of_ne hne]
  · rw [hbit]
    split_ifs
    · exact hp
    · by_cases hpp : p = page <;> simp [hpp, hp]
  · rw [hbit, if_neg (by omega), Function.update_self]

/-- What the clock hand keeps: it marks swap slots and page table entries, and
evicts recorded pages with a single reference. -/
structure Swept (B : Mem → Prop) : Prop where
  slots : ∀ s slots used, B s → B { s with swapSlots := slots, swapUsed := used }
  ram : ∀ s r, B s → B { s with ram := r }
  evict : ∀ s page pml4 virt t i slot, pmmPageRefcount s page = 1 → rmapGet s page ≠ none → B s →
    B (evictPage s page pml4 virt t i slot)

section swept
variable {B : Mem → Prop} (hB : Swept B)
include hB

theorem swept_body (total start j : ℕ) {s : Mem} (h : B s) :
    (evictBody c total start j s).Sat B (fun s' _ => B s') := by
  unfold evictBody
  dsimp only
  split_ifs with hc
  · exact h
  split
  · exact h
  rename_i rm hr
  split
  · exact h
  split_ifs
  · exact h
  split
  · exact h
  split_ifs
  · exact h
  · exact hB.ram s _ h
  unfold swapAllocSlot swapFreeSlot
  split <;> rename_i hs <;> split at hs <;> cases hs
  · exact h
  · have h1 := fun slots used => hB.slots s slots used h
    split_ifs
    · exact h1 _ _
    · exact h1 _ _
    · refine hB.evict _ _ _ _ _ _ _ (not_not.mp hc) ?_ (h1 _ _)
      change rmapGet s _ ≠ none
      rw [hr]
      exact Option.some_ne_none rm

theorem swept_one {s : Mem} (h : B s) : B (swapEvictOne c s).1 := by
  unfold swapEvictOne
  split_ifs
  · exact h
  have hloop := forUp_rule (evictBody c s.totalPages s.clockHand) (fun _ => B) (fun s' _ => B s')
    0 (s.totalPages*2) s h (fun j _ _ _ => swept_body c hB s.totalPages s.clockHand j)
  cases hf : forUp (evictBody c s.totalPages s.clockHand) 0 (s.totalPages*2) s with
  | next | ret => rw [hf] at hloop; exact hloop

theorem swept_low (n : ℕ) {s : Mem} (h : B s) : B (evictWhileLow c n s) := by
  induction n generalizing s with
  | zero => exact h
  | succ n ih =>
    rw [evictWhileLow]
    split_ifs
    · exact ih (swept_one c hB h)
    · exact h

end swept

theorem evict_while_low_scan (n : ℕ) (s : Mem) : Scan s (evictWhileLow c n s) := by
  refine swept_low c ⟨fun t _ _ h => ?_,fun t _ h => ?_,fun t _ _ _ _ _ _ hc hr h => ?_⟩ n (scan_refl s)
  · exact scan_trans h { scan_refl t with }
  · exact scan_trans h { scan_refl t with }
  · exact scan_trans h (scan_evict t _ _ _ _ _ _ hc hr)

/-- Memory that is low stays low when there is no swap disk, or no page to write to it. -/
theorem evict_idle (n : ℕ) {s : Mem} (h : s.swapReady = false ∨ ∀ p, rmapGet s p = none) :
    evictWhileLow c n s = s := by
  have hone : (swapEvictOne c s).1 = s := by
    unfold swapEvictOne
    rcases h with h | h
    · rw [h]
      rfl
    · have hloop := forUp_rule (evictBody c s.totalPages s.clockHand) (fun _ t => t = s)
        (fun t _ => t = s) 0 (s.totalPages*2) s rfl (by
          rintro j t - - rfl
          unfold evictBody
          simp only [h]
          split_ifs <;> rfl)
      split_ifs
      · rfl
      · cases hf : forUp (evictBody c s.totalPages s.clockHand) 0 (s.totalPages*2) s with
        | next | ret => rw [hf] at hloop; exact hloop
  induction n with
  | zero => rfl
  | succ n ih =>
    rw [evictWhileLow, hone, ih, ite_self]

/-- None of the next `k` allocations finds memory low with a swap disk there. -/
def Quiet (k : ℕ) (s : Mem) : Prop :=
  s.swapReady = false ∨ swapLowWatermark+k ≤ s.freePages+1 ∧ s.freePages < 2^64

theorem quiet_alloc {k : ℕ} {s : Mem} (h : Quiet (k+1) s) : pmmAllocPage c s = takePage s := by
  unfold pmmAllocPage
  rcases h with h | ⟨h,-⟩
  · rw [evict_idle c 8 (.inl h)]
  · rw [evictWhileLow, if_neg (by omega)]

theorem quiet_taken {k : ℕ} (s : Mem) (n : ℕ) (h : Quiet (k+1) s) : Quiet k (taken s n) := by
  rcases h with h | ⟨h,hlt⟩
  · exact Or.inl h
  · right
    change _ ≤ dec64 s.freePages+1 ∧ dec64 s.freePages < 2^64
    unfold dec64 swapLowWatermark at *
    omega

theorem quiet_less {j k : ℕ} {s : Mem} (h : Quiet k s) (hj : j ≤ k) : Quiet j s :=
  h.imp_right (fun h => ⟨by omega,h.2⟩)

theorem take_page_log : logLength (takePage s).1 = logLength s := by
  unfold takePage
  split <;> rfl

theorem alloc_page_log : logLength s ≤ logLength (pmmAllocPage c s).1 :=
  (evict_while_low_scan c 8 s).log.trans (take_page_log _).ge

theorem record_mapping_rmap (virt frame : ℕ) :
    ∃ m, recordMapping c s virt frame = { s with rmapTable := m } := by
  unfold recordMapping
  split_ifs
  · cases c.current with
    | none => exact ⟨_,rfl⟩
    | some p => exact rmap_set_shape s frame _ virt
  · exact ⟨_,rfl⟩

/-- A property of the books that does not look at what pages hold or who is recorded for them. -/
structure Stable (B : Mem → Prop) : Prop where
  alloc : ∀ s, B s → B (pmmAllocPage c s).1
  ram : ∀ s r, B s → B { s with ram := r }
  rmap : ∀ s m, B s → B { s with rmapTable := m }

section stable
variable {c : Ctx} {B : Mem → Prop} (hB : Stable c B)
include hB

theorem stable_zeroed {s : Mem} (h : B s) : B (allocZeroedPage c s).1 := by
  have ha := hB.alloc s h
  unfold allocZeroedPage
  split <;> rename_i hs <;> rw [hs] at ha
  · exact ha
  · exact hB.ram _ _ ha

theorem stable_next_table (t i : ℕ) {s : Mem} (h : B s) : B (nextTable c s t i).1 := by
  have hz := stable_zeroed hB h
  unfold nextTable
  split_ifs
  · split <;> rename_i hs <;> rw [hs] at hz
    · exact hz
    · exact hB.ram _ _ hz
  · exact hB.ram _ _ h

/-- The way down through three levels: as long as the invariant `I` holds the
tables on the path are known, and where a level gives it up `B` holds from there on. -/
theorem map_page_rule (I : ℕ → Mem → Prop) {a virt : ℕ} (frame : ℕ) (flags : Pte)
    (hstep : ∀ k x t i p, I (k+1) x → p++[i] <+: path (virt/4096) →
      walk (child x.ram) a p = some t → B (nextTable c x t i).1 ∨ I k (nextTable c x t i).1 ∧
        ∀ u ∈ (nextTable c x t i).2, walk (child (nextTable c x t i).1.ram) a (p++[i]) = some u)
    {s : Mem} (hs : B s ∨ I 3 s) :
    B (userVmMapPage c s a virt frame flags).1 ∨
    (∃ k s1, I k s1 ∧ userVmMapPage c s a virt frame flags = (s1,false)) ∨
    ∃ s1 t, I 0 s1 ∧ leafTable s1.ram a (virt/4096) = some t ∧
      userVmMapPage c s a virt frame flags = (recordMapping c { s1 with
        ram := setEntry s1.ram t (virt/4096 % 512) (leafEntry frame flags) } virt frame,true) := by
  have hlevel : ∀ {k x t} i p, p++[i] <+: path (virt/4096) →
      B x ∨ I (k+1) x ∧ walk (child x.ram) a p = some t → ∀ {x' o}, nextTable c x t i = (x',o) →
      B x' ∨ I k x' ∧ ∀ u ∈ o, walk (child x'.ram) a (p++[i]) = some u := by
    rintro k x t i p hp (h | ⟨h,ht⟩) x' o he
    · have := stable_next_table hB t i h
      rw [he] at this
      exact .inl this
    · have := hstep k x t i p h hp ht
      rwa [he] at this
  have e4 : pml4Index virt = virt/4096/2^27 % 512 := by unfold pml4Index; omega
  have e3 : pdptIndex virt = virt/4096/2^18 % 512 := by unfold pdptIndex; omega
  have e2 : pdIndex virt = virt/4096/2^9 % 512 := by unfold pdIndex; omega
  have e1 : ptIndex virt = virt/4096 % 512 := by unfold ptIndex; omega
  unfold userVmMapPage
  rw [e4, e3, e2]
  unfold leafTable
  unfold path at hlevel ⊢
  generalize virt/4096/2^27 % 512 = i4 at *
  generalize virt/4096/2^18 % 512 = i3 at *
  generalize virt/4096/2^9 % 512 = i2 at *
  cases r4 : nextTable c s a i4 with
  | mk s4 o4 =>
  have h4 := hlevel i4 [] ⟨[i3,i2],rfl⟩ (hs.imp_right (⟨·,rfl⟩)) r4
  cases o4 with
  | none => exact h4.imp_right fun h => .inl ⟨_,s4,h.1,rfl⟩
  | some pdpt =>
  dsimp only
  cases r3 : nextTable c s4 pdpt i3 with
  | mk s3 o3 =>
  have h3 := hlevel i3 [i4] ⟨[i2],rfl⟩ (h4.imp_right fun h => ⟨h.1,h.2 _ rfl⟩) r3
  cases o3 with
  | none => exact h3.imp_right fun h => .inl ⟨_,s3,h.1,rfl⟩
  | some pd =>
  dsimp only
  cases r2 : nextTable c s3 pd i2 with
  | mk s2 o2 =>
  have h2 := hlevel i2 [i4,i3] ⟨[],rfl⟩ (h3.imp_right fun h => ⟨h.1,h.2 _ rfl⟩) r2
  cases o2 with
  | none => exact h2.imp_right fun h => .inl ⟨_,s2,h.1,rfl⟩
  | some pt =>
    refine h2.imp (fun h => ?_) fun h => .inr ⟨s2,pt,h.1,h.2 _ rfl,rfl⟩
    obtain ⟨m,hm⟩ := record_mapping_rmap c { s2 with
      ram := setEntry s2.ram pt (ptIndex virt) (leafEntry frame flags) } virt frame
    dsimp only
    rw [hm]
    exact hB.rmap _ _ (hB.ram _ _ h)

theorem stable_map_page (a virt frame : ℕ) (flags : Pte) {s : Mem} (h : B s) :
    B (userVmMapPage c s a virt frame flags).1 := by
  rcases map_page_rule hB (fun _ _ => False) frame flags (fun _ _ _ _ _ h => h.elim) (.inl h) with
    h | ⟨_,_,h,_⟩ | ⟨_,_,h,_⟩
  · exact h
  · exact h.elim
  · exact h.elim

end stable

theorem log_stable (n : ℕ) : Stable c (n ≤ logLength ·) :=
  ⟨fun s h => h.trans (alloc_page_log c s),fun _ _ h => h,fun _ _ h => h⟩

theorem map_page_log (pml4 virt frame : ℕ) (flags : Pte) :
    logLength s ≤ logLength (userVmMapPage c s pml4 virt frame flags).1 :=
  stable_map_page (log_stable c _) pml4 virt frame flags le_rfl

structure Carry (c : Ctx) (J : Mem → Prop) (E : ℕ → Prop) : Prop where
  struct : ∀ s, J s → Struct s
  live : ∀ s, J s → Live c s
  grow : ∀ s s', J s → Grow s s' → Struct s' → J s'
  evict : ∀ s s', J s → Evicts c s s' → J s' ∨ E (logLength s')
  stay : ∀ m n, E m → m ≤ n → E n

section carry
variable (c : Ctx) (J : Mem → Prop) (E : ℕ → Prop) (hC : Carry c J E)

include hC

theorem swap_evict_carry (s : Mem) (h : J s) :
    (J (swapEvictOne c s).1 ∧ SameWalks s (swapEvictOne c s).1) ∨
      E (logLength (swapEvictOne c s).1) := by
  rcases swap_evict_cases c s (hC.struct s h) (hC.live s h) with hst | ⟨s1,hst,hev⟩
  · exact Or.inl ⟨hC.grow _ _ h hst.grow hst.struct,hst.walks⟩
  · have h1 := hC.grow _ _ h hst.grow hst.struct
    rcases hC.evict _ _ h1 hev with h2 | h2
    · exact Or.inl ⟨h2,same_walks_trans hst.walks (evicts_walks c hst.struct hev)⟩
    · exact Or.inr h2

theorem evict_while_low_carry (n : ℕ) (s : Mem) (h : J s) :
    (J (evictWhileLow c n s) ∧ SameWalks s (evictWhileLow c n s)) ∨
      E (logLength (evictWhileLow c n s)) := by
  induction n generalizing s with
  | zero => exact Or.inl ⟨h,same_walks_refl s⟩
  | succ n ih =>
    rw [evictWhileLow]
    split_ifs
    · rcases swap_evict_carry c J E hC s h with ⟨h1,hw⟩ | h1
      · rcases ih _ h1 with ⟨h2,hw'⟩ | h2
        · exact Or.inl ⟨h2,same_walks_trans hw hw'⟩
        · exact Or.inr h2
      · exact Or.inr (hC.stay _ _ h1 (evict_while_low_scan c n _).log)
    · exact Or.inl ⟨h,same_walks_refl s⟩

theorem alloc_page_carry {s : Mem} (h : J s) :
    E (logLength (pmmAllocPage c s).1) ∨ ∃ s1, J s1 ∧ SameWalks s s1 ∧
      (pmmAllocPage c s = (s1,0) ∨ ∃ n, n ≠ 0 ∧ n < s1.totalPages ∧ s1.bitmap n = false ∧
        pmmAllocPage c s = (taken s1 n,n)) := by
  rcases evict_while_low_carry c J E hC 8 s h with ⟨h1,hw⟩ | h1
  · right
    have hS := hC.struct _ h1
    exact ⟨_,h1,hw,take_page_cases hS.zero hS.pages.1⟩
  · exact Or.inl (hC.stay _ _ h1 (take_page_log _).ge)

theorem next_table_carry (s : Mem) (h : J s) (a i t : ℕ) (p : List ℕ) (ha : a ∈ s.spaces)
    (hp : UserPath (p++[i])) (ht : walk (child s.ram) a p = some t) :
    E (logLength (nextTable c s t i).1) ∨ J (nextTable c s t i).1 ∧
      (nextTable c s t i).1.spaces = s.spaces ∧ ∀ u, (nextTable c s t i).2 = some u →
        walk (child (nextTable c s t i).1.ram) a (p++[i]) = some u := by
  have hS := hC.struct s h
  unfold nextTable
  rw [has_present]
  split_ifs with h0
  · rw [Bool.not_eq_true'] at h0
    rcases alloc_page_carry c J E hC h with he | ⟨s1,h1,hw,he⟩
    · left
      unfold allocZeroedPage
      split <;> rename_i hs <;> split at hs <;> rename_i hr <;> cases hs <;> rw [hr] at he <;>
        exact he
    · right
      have hS1 := hC.struct s1 h1
      rcases he with he | ⟨n,hn,hlt,hfree,he⟩
      · simp only [allocZeroedPage, he]
        exact ⟨h1,hw.spaces,by simp⟩
      · obtain ⟨n,rfl⟩ := Nat.exists_eq_succ_of_ne_zero hn
        have ha1 : a ∈ s1.spaces := by rw [hw.spaces]; exact ha
        have ht1 : walk (child s1.ram) a p = some t := by
          rw [hw.walks a ha p (user_path_closed _ _ (List.prefix_append p [i]) hp), ht]
        have h01 : bit (entry s1.ram t i) 0 = false := by
          have hsame := hw.walks a ha (p++[i]) hp
          rw [walk_snoc, walk_snoc, ht, ht1] at hsame
          simpa [child, h0] using hsame
        obtain ⟨hG,hS',hnew⟩ := grow_attach hS1 ha1 hp ht1 h01 hfree hlt
        have hfr := table_entry_frame (n+1) (by have := hS1.pages.2; omega)
        simp only [allocZeroedPage, he]
        refine ⟨hC.grow s1 _ h1 hG hS',hw.spaces,?_⟩
        intro u hu
        cases hu
        change walk (child (attached s1 i t (n+1)).ram) a (p++[i]) = some (pteFrame (tableEntry _))
        rw [hnew, hfr]
  · right
    simp only [Bool.not_eq_true'] at h0
    have hfr : pteFrame (entry s.ram t i ||| (pteUser ||| pteWritable)) =
        pteFrame (entry s.ram t i) :=
      frame_congr _ _ (fun j h1 h2 => by simp [show j ≠ 1 by omega, show j ≠ 2 by omega])
    obtain ⟨hG,hS'⟩ := grow_touch hS ha hp ht
      (by simp) hfr (by
        intro hne hb
        simpa using hS.plain a ha p i t hne hp ht (by simpa using hb))
    refine ⟨hC.grow s _ h hG hS',rfl,?_⟩
    intro u hu
    cases hu
    rw [hfr, hG.walks a ha (p++[i]) (pteFrame (entry s.ram t i)) hp]
    rw [walk_snoc, ht]
    simp [child, h0]

theorem carry_stable : Stable c (fun s => E (logLength s)) :=
  ⟨fun s h => hC.stay _ _ h (alloc_page_log c s),fun _ _ h => h,fun _ _ h => h⟩

theorem map_page_carry (s : Mem) (h : J s) (a virt frame : ℕ) (flags : Pte) (ha : a ∈ s.spaces)
    (hv : virt < 2^47) :
    E (logLength (userVmMapPage c s a virt frame flags).1) ∨
    (J (userVmMapPage c s a virt frame flags).1 ∧
      (userVmMapPage c s a virt frame flags).1.spaces = s.spaces ∧
      (userVmMapPage c s a virt frame flags).2 = false) ∨
    ∃ s1 t, J s1 ∧ s1.spaces = s.spaces ∧ leafTable s1.ram a (virt/4096) = some t ∧
      userVmMapPage c s a virt frame flags = (recordMapping c { s1 with
        ram := setEntry s1.ram t (virt/4096 % 512) (leafEntry frame flags) } virt frame,true) := by
  have hu := path_user (virt/4096) (by unfold userPages; omega)
  rcases map_page_rule (carry_stable c J E hC) (fun _ x => J x ∧ x.spaces = s.spaces) frame flags
    (fun _ x t i p hx hp ht => (next_table_carry c J E hC x hx.1 a i t p (hx.2 ▸ ha)
      (user_path_closed _ _ hp hu) ht).imp_right fun ⟨h1,h2,h3⟩ => ⟨⟨h1,h2.trans hx.2⟩,h3⟩)
    (.inr ⟨h,rfl⟩) with he | ⟨-,s1,h1,he⟩ | ⟨s1,t,h1,ht,he⟩
  · exact .inl he
  · rw [he]
    exact .inr (.inl ⟨h1.1,h1.2,rfl⟩)
  · exact .inr (.inr ⟨s1,t,h1.1,h1.2,ht,he⟩)

end carry

end HobbyOS.PageAlloc

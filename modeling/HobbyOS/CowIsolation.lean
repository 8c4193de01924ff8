import HobbyOS.CowInvariant
import HobbyOS.ForkTotal

/-!
# Isolation of forked address spaces

Any interleaving of forks, loads, stores and destructions over a family of
address spaces. The expected contents record, for each space, the last byte
it stored or the byte its parent held at the fork. Isolation holds while at
most 255 spaces are alive; the counter of a frame cannot count further.
-/

namespace HobbyOS.CowIsolation
open RadixTree PageEntry PhysMem UserVm AddressSpace TableGrowth
  PageAlloc ForkSpace CowFork CowFault DestroySpace
  CowInvariant ForkTotal Function

inductive Op where
  | fork (parent : ℕ)
  | read (space va : ℕ)
  | write (space va : ℕ) (b : UInt8)
  | destroy (space : ℕ)

def step (c : Ctx) (s : Mem) : Op → Mem
  | .fork parent => (userVmForkAddressSpace c s parent).1
  | .read a va => (userRead s a va).1
  | .write a va b => (userWrite c s a va b).1
  | .destroy a => userVmDestroyAddressSpace s a

/-- The byte last stored through a space, or inherited at its fork. -/
def expect (c : Ctx) (s : Mem) (x : Contents) : Op → Contents
  | .fork parent => update x (userVmForkAddressSpace c s parent).2 (x parent)
  | .read _ _ => x
  | .write a va b =>
    if (userWrite c s a va b).2 then update x a (update (x a) va b) else x
  | .destroy _ => x

/-- The operation acts on a live space, and no allocation in it fails. -/
def Allowed (c : Ctx) (s : Mem) : Op → Prop
  | .fork parent => parent ∈ s.spaces ∧ (userVmForkAddressSpace c s parent).2 ≠ 0
  | .read a va => a ∈ s.spaces ∧ va < 2^47
  | .write a va b => a ∈ s.spaces ∧ va < 2^47 ∧
    (cowPage s.ram a va = true → (userWrite c s a va b).2 = true)
  | .destroy a => a ∈ s.spaces

/-- Runs from `s0` with bytes `x0` in which nothing is evicted and every
state satisfies `P`. -/
inductive Reach (P : Mem → Prop) (s0 : Mem) (x0 : Contents) : Mem → Contents → Prop
  | start : Reach P s0 x0 s0 x0
  | step (c : Ctx) (s : Mem) (x : Contents) (op : Op) (h : Reach P s0 x0 s x) (hL : Live c s)
      (ha : Allowed c s op) (hlog : (step c s op).evictions = s.evictions)
      (hP : P (step c s op)) : Reach P s0 x0 (step c s op) (expect c s x op)

variable {x : Contents} {s : Mem}

theorem user_write_inv {c : Ctx} {a va : ℕ} {b : UInt8} (h : Inv s x) (hL : Live c s) (ha : a ∈ s.spaces)
    (hva : va < 2^47) (hok : cowPage s.ram a va = true → (userWrite c s a va b).2 = true)
    (hlog : (userWrite c s a va b).1.evictions = s.evictions) :
    Inv (userWrite c s a va b).1 (expect c s x (.write a va b)) := by
  have hstore : ∀ t, Inv t x → t.spaces = s.spaces → (userStore t a va b).2 = true →
      Inv (userStore t a va b).1 (update x a (update (x a) va b)) := by
    intro t ht hsp hs
    obtain ⟨hp,hw,hst⟩ := store_spec ht.struct (by rw [hsp]; exact ha) hva hs
    exact inv_stored ht (by rw [hsp]; exact ha) hva hp hw hst
  unfold expect
  dsimp only
  by_cases hcow : cowPage s.ram a va = true
  · have hspec := cow_spec h.struct hL ha hva
    obtain ⟨t,ok,hr⟩ : ∃ t ok, cowHandleFault c s a va = (t,ok) := ⟨_,_,rfl⟩
    have hw : userWrite c s a va b = if ok then userStore t a va b else (t,false) := by
      rw [userWrite, if_pos hcow, hr]
      cases ok <;> rfl
    rw [hw] at hok hlog ⊢
    rw [hr] at hspec
    cases ok with
    | false => cases hok hcow
    | true =>
      have hs : (userStore t a va b).2 = true := hok hcow
      have hlogt : logLength t = logLength s := by
        have : (userStore t a va b).1.evictions = s.evictions := hlog
        rw [store_log] at this
        rw [logLength, logLength, this]
      obtain ⟨hp,f,hc⟩ := hspec rfl hlogt
      simp only [if_true]
      rw [if_pos hs]
      exact hstore t (inv_cowed h ha (page_bound hva) hp hc) hc.spaces hs
  · have hw : userWrite c s a va b = userStore s a va b := by
      rw [userWrite, if_neg hcow]
    rw [hw]
    split_ifs with hs
    · exact hstore s h rfl hs
    · rw [store_refused hs]
      exact h

theorem step_inv {c : Ctx} {op : Op} (h : Inv s x) (hL : Live c s) (ha : Allowed c s op)
    (hlog : (step c s op).evictions = s.evictions) (hmax : (step c s op).spaces.length ≤ 255) : Inv (step c s op) (expect c s x op) := by
  cases op with
  | fork parent =>
    have hF := fork_spec c h.struct hL ha.1 ha.2 (congrArg List.length hlog)
    exact inv_forked h ha.1 hF hmax
  | read a va =>
    obtain ⟨hG,hS⟩ := touch_grow h.struct ha.1 ha.2
    exact inv_grow h hG hS
  | write a va b => exact user_write_inv h hL ha.1 ha.2.1 ha.2.2 hlog
  | destroy a => exact inv_destroyed h ha

theorem reach_inv {s0 : Mem} {x0 : Contents} (h0 : Inv s0 x0) (h : Reach (fun s => s.spaces.length ≤ 255) s0 x0 s x) : Inv s x := by
  induction h with
  | start => exact h0
  | step c s x op _ hL ha hlog hmax ih => exact step_inv ih hL ha hlog hmax

/-- Every mapped page of every live space has a frame of its own. -/
def Private (s : Mem) : Prop := ∀ a ∈ s.spaces, ∀ v < userPages, bit (view s.ram a v) 0 = true →
  s.pageRefcount (pteFrame (view s.ram a v)) = 1 ∧ ∀ b ∈ s.spaces, b ≠ a →
    ¬(bit (view s.ram b v) 0 = true ∧ pteFrame (view s.ram b v) = pteFrame (view s.ram a v))

def Holds (s : Mem) (x : Contents) : Prop :=
  ∀ a ∈ s.spaces, ∀ va < 2^47, ∀ y, readByte s.ram a va = some y → y = x a va

theorem read_byte_view (r : Ram) (a va : ℕ) (y : UInt8) : readByte r a va = some y ↔
    bit (view r a (va/4096)) 0 = true ∧ r (pteFrame (view r a (va/4096))) (va % 4096) = y := by
  rw [view_bit _ _ _ _ (by omega) (by omega), view_frame]
  unfold readByte
  simp

theorem private_inv (hS : Struct s) (hp : Private s) (hx : Holds s x) : Inv s x := by
  have hown : ∀ a ∈ s.spaces, ∀ v < userPages, bit (view s.ram a v) 0 = true →
      owners s v (pteFrame (view s.ram a v)) = 1 := by
    intro a ha v hv hb
    rw [owners_split v _ ha, if_pos ((maps_iff _ _ _ _).mpr ⟨hb,rfl⟩)]
    have hzero : (s.spaces.erase a).countP (maps s.ram v (pteFrame (view s.ram a v))) = 0 := by
      rw [List.countP_eq_zero]
      intro b hb' hm
      obtain ⟨hne,hb'⟩ := hS.nodup.mem_erase_iff.mp hb'
      exact (hp a ha v hv hb).2 b hb' hne ((maps_iff _ _ _ _).mp hm)
    rw [hzero]
  refine ⟨hS,?_,fun a ha v hv hb _ => hown a ha v hv hb,?_⟩
  · intro a ha v hv hb
    rw [(hp a ha v hv hb).1, hown a ha v hv hb]
  · intro a ha va hva hb
    exact hx a ha va hva _ ((read_byte_view _ _ _ _).mpr ⟨hb,rfl⟩)

/-- With at most 255 spaces alive at any time, a live space reads the last
byte it wrote, or its parent's byte at the fork. -/
theorem cow_isolation (s0 s : Mem) (x0 x : Contents) (hS : Struct s0) (hp : Private s0)
    (hx : Holds s0 x0) (h : Reach (fun s => s.spaces.length ≤ 255) s0 x0 s x)
    (a va : ℕ) (ha : a ∈ s.spaces) (hva : va < 2^47) (y : UInt8)
    (hy : (userRead s a va).2 = some y) : y = x a va := by
  have hI := reach_inv (private_inv hS hp hx) h
  obtain ⟨hb,rfl⟩ := (read_byte_view _ _ _ _).mp hy
  exact hI.bytes a ha va hva hb

/-! ## One page and its counter

The smallest memory with a page in it: 512 MiB, no swap device, one space
with root 1 and the page in frame 5 mapped writable at address zero. -/

def bareMem : Mem where
  totalPages := 131072
  bitmap f := decide (f < 2 ∨ f = 5)
  pageRefcount f := if f = 5 then 1 else 0
  freePages := 131069
  allocHint := 2
  kernelPageLimit := 1
  ram _ _ := 0
  rmapTable _ := {}
  swapSlots _ := false
  swapUsed := 0
  swapReady := false
  clockHand := 0
  swapArea _ _ := 0
  cr3 := 1
  spaces := []
  evictions := []

def tables : Mem := attached (attached (attached (withRoot bareMem 1) 0 1 2) 0 2 3) 0 3 4

def pageWord : Pte := leafEntry 5 (pteWritable ||| pteUser)

def bootMem : Mem := setLeaf tables 4 0 pageWord

def idle : Ctx := { table := fun _ => {}, current := none }

theorem idle_live (s : Mem) : Live idle s := fun _ _ h => absurd rfl h

theorem bare_struct : Struct bareMem ∧ FreshRoot bareMem 1 := by
  have hno : ∀ t, ¬Table bareMem t := by
    rintro t ⟨a,p,ha,-⟩
    exact absurd ha List.not_mem_nil
  have hentry : ∀ t i, entry bareMem.ram t i = 0#64 := fun t i => by
    simp [entry, bareMem, ByteStore.load_zero]
  refine ⟨⟨by decide,by decide,by decide,List.nodup_nil,?_,?_,?_,?_,?_,?_⟩,
    by decide,by decide,hno 1,?_,?_⟩
  · intro a b p q t ha
    exact absurd ha List.not_mem_nil
  · intro a ha
    exact absurd ha List.not_mem_nil
  · intro t ht
    exact absurd ht (hno t)
  · intro a ha
    exact absurd ha List.not_mem_nil
  · intro a ha
    exact absurd ha List.not_mem_nil
  · intro f
    change (0 : ℕ) < 2^47
    omega
  · intro j _
    rw [child, hentry]
    simp
  · intro a ha
    exact absurd ha List.not_mem_nil

theorem attach_next (s : Mem) (hS : Struct s) (p : List ℕ) (a t n : ℕ) (ha : a ∈ s.spaces)
    (hp : UserPath (p++[0])) (ht : walk (child s.ram) a p = some t)
    (hzero : entry s.ram t 0 = 0#64) (hn : s.bitmap n = false) (hlt : n < s.totalPages) :
    Grow s (attached s 0 t n) ∧ Struct (attached s 0 t n) ∧
      walk (child (attached s 0 t n).ram) a (p++[0]) = some n ∧
      entry (attached s 0 t n).ram n 0 = 0#64 := by
  obtain ⟨hG,hS',hw⟩ := grow_attach hS ha hp ht (by rw [hzero]; simp) hn hlt
  refine ⟨hG,hS',hw,?_⟩
  have hnt : n ≠ t := by
    rintro rfl
    exact free_not_table s hS.trees n hn ⟨a,p,ha,user_path_closed _ _ (List.prefix_append p [0]) hp,ht⟩
  rw [attached, entry_set_other _ _ _ _ _ _ (Or.inl hnt), entry_zero_page]

theorem tables_struct : Struct tables ∧ leafTable tables.ram 1 0 = some 4 ∧
    Grow (withRoot bareMem 1) tables := by
  obtain ⟨hB,hF⟩ := bare_struct
  have h0 := struct_with_root bareMem hB 1 hF
  have hm : 1 ∈ (withRoot bareMem 1).spaces := List.mem_cons_self
  have hz : entry (withRoot bareMem 1).ram 1 0 = 0#64 := by
    simp [entry, withRoot, bareMem, ByteStore.load_zero]
  obtain ⟨g1,h1,w1,z1⟩ := attach_next _ h0 [] 1 1 2 hm (by simp [UserPath]) rfl hz
    (by decide) (by decide)
  obtain ⟨g2,h2,w2,z2⟩ := attach_next _ h1 [0] 1 2 3 hm (by simp [UserPath]) w1 z1
    (by decide) (by decide)
  obtain ⟨g3,h3,w3,-⟩ := attach_next _ h2 [0,0] 1 3 4 hm (by simp [UserPath]) w2 z2
    (by decide) (by decide)
  exact ⟨h3,w3,grow_trans (grow_trans g1 g2) g3⟩

theorem tables_view {v : ℕ} (hv : v < userPages) : view tables.ram 1 v = 0#64 := by
  rw [← with_root_view bareMem 1 bare_struct.2 v hv]
  exact tables_struct.2.2.views 1 List.mem_cons_self v hv

theorem page_word_bits : bit pageWord 0 = true ∧ bit pageWord 1 = true ∧ pteFrame pageWord = 5 := by
  unfold pageWord leafEntry
  rw [BitVec.or_assoc]
  refine ⟨?_,?_,?_⟩
  · simp
  · simp
  · apply frame_compose 5 (by omega)
    intro i h1 h2
    simp [show i ≠ 0 by omega, show i ≠ 1 by omega, show i ≠ 2 by omega]

theorem boot_view {v : ℕ} (hv : v < userPages) : view bootMem.ram 1 v =
    if v = 0 then pageWord &&& ~~~pteAccessed else 0#64 := by
  obtain ⟨hS,ht,-⟩ := tables_struct
  have h := set_leaf_view tables hS 1 0 4 (by decide) (by decide) ht pageWord 1 v (by decide) hv
  rw [tables_view hv] at h
  simp only [true_and] at h
  exact h

theorem boot_page : bit (view bootMem.ram 1 0) 0 = true ∧ bit (view bootMem.ram 1 0) 1 = true ∧
    pteFrame (view bootMem.ram 1 0) = 5 := by
  obtain ⟨h0,h1,hf⟩ := page_word_bits
  refine ⟨h0,h1,?_⟩
  exact frame_congr _ _ (fun i h1 h2 => clean_bit _ (by omega) (by omega))

theorem boot_struct : Struct bootMem := by
  obtain ⟨hS,ht,hG⟩ := tables_struct
  have hbit : ∀ b ∈ tables.spaces, ∀ w < userPages, ¬bit (view tables.ram b w) 0 = true := by
    intro b hb w hw
    rw [show b = 1 from List.mem_singleton.mp hb, tables_view hw]
    simp
  apply struct_set_leaf tables hS 1 0 4 (by decide) (by decide) ht pageWord
  · intro _
    refine ⟨by decide,by decide,?_⟩
    intro h5
    rcases hG.tables 5 h5 with h | h
    · rcases (with_root_table bareMem 1 bare_struct.2 5).mp h with h | ⟨a,-,ha,-⟩
      · omega
      · exact absurd ha List.not_mem_nil
    · cases h
  · intro _ b hb w hw h
    exact absurd h (hbit b hb w hw)

/-- No frame is left, and none is recorded that could be written to the swap disk. -/
def fullMem : Mem := { bootMem with bitmap := fun _ => true, freePages := 0, swapReady := true }

theorem full_unrecorded (p : ℕ) : rmapGet fullMem p = none := by
  simp [rmapGet, fullMem, bootMem, setLeaf, tables, attached, taken, withRoot, bareMem]

theorem full_take (c : Ctx) : pmmAllocPage c fullMem = (fullMem,0) := by
  rw [pmmAllocPage, evict_idle c 8 (.inr full_unrecorded), takePage]
  have hnone : (List.range fullMem.totalPages).find?
      (fun j => !fullMem.bitmap ((fullMem.allocHint+j) % fullMem.totalPages)) = none := by
    rw [List.find?_eq_none]
    intro j _ h
    cases h
  rw [hnone]

theorem boot_frame : bootMem.ram 5 = fun _ => 0 := by
  simp [bootMem, setLeaf, tables, attached, setEntry, zeroPage, withRoot, bareMem]

theorem boot_private : Private bootMem ∧ Holds bootMem (fun _ _ => 0) := by
  have hroot : ∀ a ∈ bootMem.spaces, a = 1 := fun a ha => List.mem_singleton.mp ha
  have hpage : ∀ v < userPages, bit (view bootMem.ram 1 v) 0 = true → v = 0 := by
    intro v hv hp
    by_contra hne
    rw [boot_view hv, if_neg hne] at hp
    simp at hp
  constructor
  · intro a ha v hv hp
    rw [hroot a ha] at hp ⊢
    rw [hpage v hv hp]
    refine ⟨by decide,?_⟩
    intro b hb hne
    exact absurd (hroot b hb) hne
  · intro a ha va hva y hy
    rw [hroot a ha] at hy
    obtain ⟨hp,hb⟩ := (read_byte_view _ _ _ _).mp hy
    rw [hpage _ (page_bound hva) hp, boot_page.2.2] at hb
    exact hb.symm

/-- `n` spaces share the page in frame 5, whose counter stands at `r`. -/
structure Crowd (n r : ℕ) (w : Bool) (s : Mem) (x : Contents) : Prop where
  struct : Struct s
  size : s.spaces.length = n
  root : 1 ∈ s.spaces
  page : ∀ a ∈ s.spaces, bit (view s.ram a 0) 0 = true ∧ pteFrame (view s.ram a 0) = 5
  cow : ∀ a ∈ s.spaces, (bit (view s.ram a 0) 1 || bit (view s.ram a 0) 9) = true
  writable : bit (view s.ram 1 0) 1 = w
  only : ∀ a ∈ s.spaces, ∀ v < userPages, v ≠ 0 → bit (view s.ram a v) 0 = false
  count : s.pageRefcount 5 = r
  byte : s.ram 5 0 = 0
  expected : ∀ a ∈ s.spaces, x a 0 = 0

theorem boot_crowd : Crowd 1 1 true bootMem (fun _ _ => 0) := by
  obtain ⟨h0,h1,hf⟩ := boot_page
  have hroot : ∀ a ∈ bootMem.spaces, a = 1 := fun a ha => List.mem_singleton.mp ha
  refine ⟨boot_struct,rfl,by decide,?_,?_,h1,?_,by decide,?_,fun _ _ => rfl⟩
  · intro a ha
    rw [hroot a ha]
    exact ⟨h0,hf⟩
  · intro a ha
    rw [hroot a ha]
    rfl
  · intro a ha v hv hne
    rw [hroot a ha, boot_view hv, if_neg hne]
    simp
  · rw [boot_frame]

theorem boot_roomy : Roomy [] 131060 bootMem := by
  refine ⟨.inl rfl,rfl,by decide,by decide,?_⟩
  have hsub : Finset.Ico 6 131072 ⊆ freeFrames bootMem := by
    intro f hf
    obtain ⟨h1,h2⟩ := Finset.mem_Ico.mp hf
    refine Finset.mem_filter.mpr ⟨Finset.mem_range.mpr h2,?_⟩
    simp [bootMem, setLeaf, tables, attached, taken, withRoot, bareMem, update,
      show f ≠ 2 by omega, show f ≠ 3 by omega, show f ≠ 4 by omega, show f ≠ 5 by omega]
    omega
  have := Finset.card_le_card hsub
  rw [Nat.card_Ico] at this
  omega

theorem one_page {r : Ram} {a : ℕ}
    (honly : ∀ v < userPages, v ≠ 0 → bit (view r a v) 0 = false) : pagesFrom r a 0 ≤ 1 := by
  have hrest : pagesFrom r a (0+1) = 0 := by
    unfold pagesFrom
    rw [Finset.card_eq_zero, Finset.filter_eq_empty_iff]
    intro w hw
    obtain ⟨h1,h2⟩ := Finset.mem_Ico.mp hw
    rw [honly w h2 (by omega)]
    simp
  rw [pages_from_step r a 0 (by decide)]
  split_ifs <;> omega

theorem crowd_fork (n r k : ℕ) (w : Bool) (s : Mem) (x : Contents) (h : Crowd n r w s x)
    (hR : Roomy [] (k+4) s) :
    Allowed idle s (.fork 1) ∧ (step idle s (.fork 1)).evictions = s.evictions ∧
      Crowd (n+1) (addRef r) false (step idle s (.fork 1)) (expect idle s x (.fork 1)) ∧
      Roomy [] k (step idle s (.fork 1)) := by
  have hpages := one_page (h.only 1 h.root)
  obtain ⟨hok,hR'⟩ := fork_total [] k idle s h.struct (idle_live s) h.root
    (roomy_mono [] (k+4) s _ hR (by omega))
  have hlog : (step idle s (.fork 1)).evictions = s.evictions := by
    rw [hR.log]
    exact hR'.log
  have hF := fork_spec idle h.struct (idle_live s) h.root hok (congrArg List.length hlog)
  refine ⟨⟨h.root,hok⟩,hlog,?_,hR'⟩
  unfold step expect
  dsimp only
  generalize (userVmForkAddressSpace idle s 1).1 = s' at hF
  generalize (userVmForkAddressSpace idle s 1).2 = new at hF
  obtain ⟨hp0,hpf⟩ := h.page 1 h.root
  have h5 := h.struct.frames 1 h.root 0 (by decide) hp0
  rw [hpf] at h5
  have hview : ∀ a ∈ s'.spaces, view s'.ram a 0 = share (view s.ram 1 0) ∨
      (a ∈ s.spaces ∧ a ≠ 1 ∧ view s'.ram a 0 = view s.ram a 0) := by
    intro a ha
    rw [hF.spaces] at ha
    rcases List.mem_cons.mp ha with rfl | ha
    · exact Or.inl (by rw [hF.ofNew 0 (by decide), if_pos hp0])
    · by_cases h1 : a = 1
      · rw [h1, hF.ofParent 0 (by decide), if_pos hp0]
        exact Or.inl rfl
      · exact Or.inr ⟨ha,h1,hF.others a ha h1 0 (by decide)⟩
  refine ⟨hF.struct,?_,?_,?_,?_,?_,?_,?_,?_,?_⟩
  · rw [hF.spaces, List.length_cons, h.size]
  · rw [hF.spaces]
    exact List.mem_cons_of_mem _ h.root
  · intro a ha
    rcases hview a ha with hv | ⟨ha',-,hv⟩
    · rw [hv, share_frame, share_bit _ (by omega) (by omega) (by omega)]
      exact ⟨hp0,hpf⟩
    · rw [hv]
      exact h.page a ha'
  · intro a ha
    rcases hview a ha with hv | ⟨ha',-,hv⟩
    · rw [hv, share_cow, share_not_writable]
      exact h.cow 1 h.root
    · rw [hv]
      exact h.cow a ha'
  · rw [hF.ofParent 0 (by decide), if_pos hp0, share_not_writable]
  · intro a ha v hv hne
    have honly := h.only 1 h.root v hv hne
    rw [hF.spaces] at ha
    rcases List.mem_cons.mp ha with rfl | ha
    · rw [hF.ofNew v hv, if_neg (by rw [honly]; simp)]
      simp
    · by_cases h1 : a = 1
      · rw [h1, hF.ofParent v hv, if_neg (by rw [honly]; simp)]
        exact honly
      · rw [hF.others a ha h1 v hv]
        exact h.only a ha v hv hne
  · have := hF.counts 0 (by decide) hp0
    rw [hpf, h.count] at this
    exact this
  · rw [hF.data 5 h5.2.1 h5.2.2]
    exact h.byte
  · intro a ha
    rw [hF.spaces] at ha
    by_cases hn : a = new
    · rw [hn, update_self]
      exact h.expected 1 h.root
    · rw [update_of_ne hn]
      exact h.expected a ((List.mem_cons.mp ha).resolve_left hn)

theorem crowd_destroy (n r a : ℕ) (w : Bool) (s : Mem) (x : Contents) (h : Crowd (n+1) r w s x)
    (hr : r ≠ 1) (ha : a ∈ s.spaces) (hne : a ≠ 1) :
    Crowd n (r-1) w (step idle s (.destroy a)) (expect idle s x (.destroy a)) := by
  obtain ⟨hp0,hpf⟩ := h.page a ha
  have hshare : NotLast s a := by
    intro v hv hp b hb _ _ _
    have hv0 : v = 0 := by
      by_contra hne
      rw [h.only a ha v hv hne] at hp
      cases hp
    rw [hv0, hpf, h.count]
    exact hr
  have hS := struct_destroy s h.struct a ha hshare
  obtain ⟨s1,hrel,heq⟩ := destroy_spec s h.struct a ha
  obtain ⟨b,rc,k,m,hs⟩ := hrel.shape
  unfold step expect
  dsimp only
  have hsp : (userVmDestroyAddressSpace s a).spaces = s.spaces.erase a := by rw [heq, hs]
  have hram : (userVmDestroyAddressSpace s a).ram = s.ram := by rw [heq, hs]
  have hmem : ∀ b, b ∈ (userVmDestroyAddressSpace s a).spaces → b ∈ s.spaces := by
    intro b hb
    rw [hsp] at hb
    exact List.mem_of_mem_erase hb
  refine ⟨hS,?_,?_,?_,?_,?_,?_,?_,?_,fun b hb => h.expected b (hmem b hb)⟩
  · rw [hsp, List.length_erase_of_mem ha, h.size]
    rfl
  · rw [hsp]
    exact (List.mem_erase_of_ne hne.symm).mpr h.root
  · rw [hram]
    exact fun b hb => h.page b (hmem b hb)
  · rw [hram]
    exact fun b hb => h.cow b (hmem b hb)
  · rw [hram]
    exact h.writable
  · rw [hram]
    exact fun b hb => h.only b (hmem b hb)
  · have := hrel.counts 0 (by decide) hp0
    rw [hpf, h.count] at this
    rw [heq]
    exact this
  · rw [hram]
    exact h.byte

theorem crowd_write {n : ℕ} (b : UInt8) (h : Crowd n 1 false s x) :
    Allowed idle s (.write 1 0 b) ∧ (step idle s (.write 1 0 b)).evictions = s.evictions ∧
      (userWrite idle s 1 0 b).2 = true ∧ (step idle s (.write 1 0 b)).spaces = s.spaces ∧
      ∀ a ∈ s.spaces, (userRead (step idle s (.write 1 0 b)) a 0).2 = some b := by
  obtain ⟨hp0,hpf⟩ := h.page 1 h.root
  have hcow := h.cow 1 h.root
  rw [h.writable, Bool.false_or] at hcow
  obtain ⟨hok,hlog,hC⟩ := cow_last idle s 1 0 h.struct h.root (by omega) hp0 hcow
    (by rw [hpf]; exact h.count)
  rw [hpf] at hC
  have hpage : cowPage s.ram 1 0 = true := by
    unfold cowPage
    simp only [has_present, has_writable, has_cow, ← view_bit _ _ _ 0 (by omega) (by omega),
      ← view_bit _ _ _ 1 (by omega) (by omega), ← view_bit _ _ _ 9 (by omega) (by omega),
      Nat.zero_div, hp0, h.writable, hcow]
    rfl
  obtain ⟨t,ht⟩ : ∃ t, cowHandleFault idle s 1 0 = (t,true) := ⟨_,Prod.ext rfl hok⟩
  rw [ht] at hlog hC
  have hw : userWrite idle s 1 0 b = userStore t 1 0 b := by
    rw [userWrite, if_pos hpage, ht]
  obtain ⟨ho0,ho1,hof⟩ := hC.own
  have hstore : (userStore t 1 0 b).2 = true := by
    unfold userStore
    simp only [has_present, has_writable, ← view_bit _ _ _ 0 (by omega) (by omega),
      ← view_bit _ _ _ 1 (by omega) (by omega), Nat.zero_div, ho0, ho1]
    rfl
  have hroot : 1 ∈ t.spaces := by rw [hC.spaces]; exact h.root
  obtain ⟨-,-,hst⟩ := store_spec hC.struct hroot (by omega) hstore
  unfold step Allowed
  dsimp only
  rw [hw]
  refine ⟨⟨h.root,by omega,fun _ => hstore⟩,hst.log.trans hlog,hstore,
    hst.spaces.trans hC.spaces,?_⟩
  intro a ha
  apply (read_byte_view _ _ _ _).mpr
  have hva : bit (view t.ram a 0) 0 = true ∧ pteFrame (view t.ram a 0) = 5 := by
    by_cases h1 : a = 1
    · rw [h1]
      exact ⟨ho0,hof⟩
    · rw [hC.others a ha 0 (by decide) (fun hh => h1 hh.1)]
      exact h.page a ha
  have hb := hst.bytes
  rw [hof] at hb
  rw [hst.views a (by rw [hC.spaces]; exact ha) 0 (by decide), hva.2, hb]
  exact ⟨hva.1,update_self _ _ _⟩

theorem crowd_grows (n : ℕ) (hn : n ≤ 254) : ∃ s x,
    Reach (fun _ => True) bootMem (fun _ _ => 0) s x ∧
      Crowd (n+2) (min 255 (n+2)) false s x ∧ Roomy [] (4*(255-n)) s := by
  induction n with
  | zero =>
    obtain ⟨ha,hlog,hC,hR⟩ := crowd_fork 1 1 131056 true bootMem _ boot_crowd boot_roomy
    exact ⟨_,_,.step idle bootMem _ (.fork 1) .start (idle_live _) ha hlog trivial,hC,
      roomy_mono [] _ _ _ hR (by omega)⟩
  | succ n ih =>
    obtain ⟨s,x,h,hC,hR⟩ := ih (by omega)
    obtain ⟨ha,hlog,hC',hR'⟩ := crowd_fork (n+2) _ (4*(255-(n+1))) false s x hC
      (roomy_mono [] _ s _ hR (by omega))
    refine ⟨_,_,.step idle s x (.fork 1) h (idle_live s) ha hlog trivial,?_,hR'⟩
    have hcount : addRef (min 255 (n+2)) = min 255 (n+1+2) := by
      unfold addRef
      split_ifs <;> omega
    rw [← hcount]
    exact hC'

theorem crowd_other (n r : ℕ) (w : Bool) (s : Mem) (x : Contents) (h : Crowd (n+2) r w s x) :
    ∃ a ∈ s.spaces, a ≠ 1 := by
  have hlen : (s.spaces.erase 1).length = n+1 := by
    rw [List.length_erase_of_mem h.root, h.size]
    rfl
  obtain ⟨a,ha⟩ := List.exists_mem_of_length_pos (by omega : 0 < (s.spaces.erase 1).length)
  obtain ⟨hne,ha⟩ := h.struct.nodup.mem_erase_iff.mp ha
  exact ⟨a,ha,hne⟩

theorem destroy_log (s : Mem) (a : ℕ) (hS : Struct s) (ha : a ∈ s.spaces) :
    (step idle s (.destroy a)).evictions = s.evictions := by
  obtain ⟨s1,hrel,heq⟩ := destroy_spec s hS a ha
  obtain ⟨b,rc,k,m,hs⟩ := hrel.shape
  change (userVmDestroyAddressSpace s a).evictions = _
  rw [heq, hs]

theorem crowd_shrinks (m r : ℕ) (s0 : Mem) (x0 : Contents) (s : Mem) (x : Contents)
    (h : Reach (fun _ => True) s0 x0 s x) (hC : Crowd (m+2) (m+r+1) false s x) :
    ∃ s' x', Reach (fun _ => True) s0 x0 s' x' ∧ Crowd 2 (r+1) false s' x' := by
  induction m generalizing s x with
  | zero =>
    rw [show 0+r+1 = r+1 by omega] at hC
    exact ⟨s,x,h,hC⟩
  | succ m ih =>
    obtain ⟨a,ha,hne⟩ := crowd_other (m+1) _ false s x hC
    have hC' := crowd_destroy (m+2) _ a false s x hC (by omega) ha hne
    have hlog := destroy_log s a hC.struct ha
    rw [show m+1+r+1-1 = m+r+1 by omega] at hC'
    exact ih _ _ (.step idle s x (.destroy a) h (idle_live s) ha hlog trivial) hC'

/-- After 255 forks the counter is full with 256 owners. When 254 of them are
gone it reads one while two spaces map the page, and a write of the one
shows in the other. -/
theorem full_counter_leaks : ∃ (s0 : Mem) (x0 : Contents) (s : Mem) (x : Contents) (a : ℕ) (y : UInt8),
    Struct s0 ∧ Private s0 ∧ Holds s0 x0 ∧ Reach (fun _ => True) s0 x0 s x ∧ a ∈ s.spaces ∧
      (userRead s a 0).2 = some y ∧ y ≠ x a 0 := by
  obtain ⟨s1,x1,h1,hC1,-⟩ := crowd_grows 254 (by omega)
  obtain ⟨s2,x2,h2,hC2⟩ := crowd_shrinks 254 0 bootMem _ s1 x1 h1 hC1
  obtain ⟨a,ha,hne⟩ := crowd_other 0 1 false s2 x2 hC2
  obtain ⟨hal,hlog,hok,hsp,hread⟩ := crowd_write 7 hC2
  refine ⟨bootMem,fun _ _ => 0,_,_,a,7,boot_struct,boot_private.1,boot_private.2,
    .step idle s2 x2 (.write 1 0 7) h2 (idle_live s2) hal hlog trivial,
    by rw [hsp]; exact ha,hread a ha,?_⟩
  unfold expect
  dsimp only
  rw [if_pos hok, update_of_ne hne, hC2.expected a ha]
  decide

/-- A fork, the end of the child and a store: the root reads what it stored. -/
theorem cow_isolation_boot : ∃ (s : Mem) (x : Contents),
    Reach (fun s => s.spaces.length ≤ 255) bootMem (fun _ _ => 0) s x ∧ 1 ∈ s.spaces ∧
      (userRead s 1 0).2 = some 7 ∧ 7 = x 1 0 := by
  obtain ⟨hal1,hlog1,hC1,-⟩ := crowd_fork 1 1 131056 true bootMem _ boot_crowd boot_roomy
  have h1 : Reach (fun s => s.spaces.length ≤ 255) bootMem (fun _ _ => 0) _ _ :=
    .step idle bootMem _ (.fork 1) .start (idle_live _) hal1 hlog1 (by rw [hC1.size]; omega)
  generalize step idle bootMem (.fork 1) = s1 at hC1 h1
  generalize expect idle bootMem (fun _ _ => 0) (.fork 1) = x1 at hC1 h1
  obtain ⟨a,ha,hne⟩ := crowd_other 0 _ false s1 x1 hC1
  have hC2 := crowd_destroy 1 _ a false s1 x1 hC1 (by decide) ha hne
  have h2 : Reach (fun s => s.spaces.length ≤ 255) bootMem (fun _ _ => 0) _ _ :=
    .step idle s1 x1 (.destroy a) h1 (idle_live _) ha (destroy_log s1 a hC1.struct ha)
      (by rw [hC2.size]; omega)
  generalize step idle s1 (.destroy a) = s2 at hC2 h2
  generalize expect idle s1 x1 (.destroy a) = x2 at hC2 h2
  obtain ⟨hal3,hlog3,-,hsp,hread⟩ := crowd_write 7 hC2
  have h3 : Reach (fun s => s.spaces.length ≤ 255) bootMem (fun _ _ => 0) _ _ :=
    .step idle s2 x2 (.write 1 0 7) h2 (idle_live _) hal3 hlog3 (by rw [hsp, hC2.size]; omega)
  have hmem : 1 ∈ (step idle s2 (.write 1 0 7)).spaces := by rw [hsp]; exact hC2.root
  exact ⟨_,_,h3,hmem,hread 1 hC2.root,cow_isolation bootMem _ _ _ boot_struct boot_private.1
    boot_private.2 h3 1 0 hmem (by omega) 7 (hread 1 hC2.root)⟩

end HobbyOS.CowIsolation

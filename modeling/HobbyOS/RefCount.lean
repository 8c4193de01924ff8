import HobbyOS.PageUnmap
import HobbyOS.PageCount
import HobbyOS.CowIsolation

/-!
# What a reference count counts

Address spaces are created, mapped, forked, written to, unmapped and
destroyed. As long as no allocation fails and nothing is evicted, the count
of a frame behind a user page is the number of present leaf entries that
name it, over all pages of all live spaces. The frame goes back to the
bitmap with the last of them.
-/

namespace HobbyOS.RefCount
open RadixTree BoundedLoop ByteStore PageEntry PhysMem Process
  UserVm Mmap AddressSpace TableGrowth PageAlloc
  ForkSpace CowFork CowFault DestroySpace CowInvariant
  PageUnmap Function

def countBelow (n : ℕ) (p : ℕ → Bool) : ℕ := ((Finset.range n).filter fun v => p v = true).card

theorem count_below_one {n v : ℕ} (p : ℕ → Bool) (hv : v < n)
    (h : ∀ w < n, p w = true → w = v) : countBelow n p = if p v then 1 else 0 := by
  unfold countBelow
  by_cases hp : p v = true
  · rw [if_pos hp, Finset.card_eq_one]
    refine ⟨v,?_⟩
    ext w
    rw [Finset.mem_filter, Finset.mem_range, Finset.mem_singleton]
    constructor
    · exact fun hw => h w hw.1 hw.2
    · rintro rfl
      exact ⟨hv,hp⟩
  · rw [if_neg hp, Finset.card_eq_zero, Finset.filter_eq_empty_iff]
    intro w hw hpw
    rw [h w (Finset.mem_range.mp hw) hpw] at hpw
    exact hp hpw

theorem count_below_zero (n : ℕ) (p : ℕ → Bool) :
    countBelow n p = 0 ↔ ∀ w < n, ¬p w = true := by
  unfold countBelow
  rw [Finset.card_eq_zero, Finset.filter_eq_empty_iff]
  exact ⟨fun h w hw => h (Finset.mem_range.mpr hw),fun h w hw => h w (Finset.mem_range.mp hw)⟩

theorem sum_indicator (l : List ℕ) (p : ℕ → Bool) :
    (l.map fun a => if p a then 1 else 0).sum = l.countP p := by
  induction l with
  | nil => rfl
  | cons a l ih =>
    rw [List.map_cons, List.sum_cons, List.countP_cons]
    omega

variable (s : Mem) (c : Ctx)

def mappings (f : ℕ) : ℕ :=
  (s.spaces.map fun a => countBelow userPages fun v => maps s.ram v f a).sum

def Backs (f : ℕ) : Prop := ∃ a ∈ s.spaces, ∃ v < userPages, maps s.ram v f a = true

theorem mappings_owners (hS : Struct s) {a v f : ℕ} (ha : a ∈ s.spaces)
    (hv : v < userPages) (hm : maps s.ram v f a = true) : mappings s f = owners s v f := by
  rw [owners, ← sum_indicator]
  refine congrArg List.sum (List.map_congr_left ?_)
  intro b hb
  exact count_below_one _ hv
    (fun w hw hmw => maps_place hS hb ha hw hv hmw hm)

theorem mappings_zero (f : ℕ) : mappings s f = 0 ↔ ¬Backs s f := by
  rw [mappings, List.sum_eq_zero_iff]
  simp only [List.mem_map, forall_exists_index, and_imp, forall_apply_eq_imp_iff₂,
    count_below_zero]
  constructor
  · rintro h ⟨a,ha,v,hv,hm⟩
    exact h a ha v hv hm
  · exact fun h a ha v hv hm => h ⟨a,ha,v,hv,hm⟩

structure Sound (s : Mem) : Prop where
  counts : Exact s
  reserved : ∀ f, KernelPage s f → s.bitmap f = true
  user : ∀ f, Backs s f → ¬KernelPage s f

/-- A frame that backed a page is free afterwards if nothing maps it any more. -/
def Frees (s s' : Mem) : Prop := ∀ f, Backs s f → ¬Backs s' f → s'.bitmap f = false

theorem sound_count (h : Sound s) {f : ℕ} (hf : Backs s f) :
    s.pageRefcount f = mappings s f ∧ mappings s f ≤ s.spaces.length := by
  obtain ⟨a,ha,v,hv,hm⟩ := hf
  rw [mappings_owners s h.counts.struct ha hv hm]
  obtain ⟨h0,rfl⟩ := (maps_iff _ _ _ _).mp hm
  exact ⟨h.counts.counts a ha v hv h0,owners_le s v _⟩

theorem backs_used (hS : Struct s) {f : ℕ} (hf : Backs s f) : s.bitmap f = true := by
  obtain ⟨a,ha,v,hv,hm⟩ := hf
  exact (maps_used s hS v f a ha hv hm).2.1

theorem frees_iff {s s' : Mem} (hS : Struct s') (h : Frees s s') {f : ℕ} (hf : Backs s f) :
    s'.bitmap f = false ↔ mappings s' f = 0 := by
  rw [mappings_zero]
  constructor
  · intro hb hk
    rw [backs_used s' hS hk] at hb
    cases hb
  · exact h f hf

theorem kernel_same {s s' : Mem} (hl : s'.kernelPageLimit = s.kernelPageLimit) (f : ℕ) :
    KernelPage s' f ↔ KernelPage s f := by
  unfold KernelPage
  rw [hl]

section grow
variable (s s' : Mem) (hG : Grow s s')
include hG

theorem grow_backs (f : ℕ) : Backs s' f ↔ Backs s f := by
  have hm : ∀ b ∈ s.spaces, ∀ w < userPages, maps s'.ram w f b = maps s.ram w f b := by
    intro b hb w hw
    rw [maps, maps, hG.views b hb w hw]
  constructor
  · rintro ⟨a,ha,v,hv,h⟩
    rw [hG.spaces] at ha
    exact ⟨a,ha,v,hv,hm a ha v hv ▸ h⟩
  · rintro ⟨a,ha,v,hv,h⟩
    exact ⟨a,by rw [hG.spaces]; exact ha,v,hv,(hm a ha v hv).trans h⟩

theorem sound_grow (h : Sound s) (hS : Struct s') : Sound s' := by
  refine ⟨exact_grow h.counts hG hS,fun f hk => ?_,fun f hb hk => ?_⟩
  · exact (hG.kept f (h.reserved f ((kernel_same hG.limit f).mp hk))).1
  · exact h.user f ((grow_backs s s' hG f).mp hb) ((kernel_same hG.limit f).mp hk)

end grow

section root
variable (s : Mem) (n : ℕ) (hF : FreshRoot s n)
include hF

theorem root_maps (v f : ℕ) (hv : v < userPages) : maps (withRoot s n).ram v f n = false := by
  have hview : view (withRoot s n).ram n v = 0#64 := with_root_view s n hF v hv
  rw [maps, hview]
  simp

theorem root_backs (f : ℕ) : Backs (withRoot s n) f ↔ Backs s f := by
  constructor
  · rintro ⟨a,ha,v,hv,h⟩
    rcases List.mem_cons.mp ha with rfl | ha
    · rw [root_maps s a hF v f hv] at h
      cases h
    · exact ⟨a,ha,v,hv,h⟩
  · rintro ⟨a,ha,v,hv,h⟩
    exact ⟨a,List.mem_cons_of_mem _ ha,v,hv,h⟩

theorem sound_root (h : Sound s) : Sound (withRoot s n) := by
  have hown : ∀ v < userPages, ∀ f, owners (withRoot s n) v f = owners s v f := by
    intro v hv f
    change (n::s.spaces).countP (maps (withRoot s n).ram v f) = _
    rw [List.countP_cons, root_maps s n hF v f hv]
    rfl
  refine ⟨⟨struct_with_root s h.counts.struct n hF,?_⟩,h.reserved,?_⟩
  · intro a ha v hv hp
    rw [hown v hv]
    rcases List.mem_cons.mp ha with rfl | ha
    · rw [show view (withRoot s a).ram a v = 0#64 from with_root_view s a hF v hv] at hp
      simp at hp
    · exact h.counts.counts a ha v hv hp
  · exact fun f hb => h.user f ((root_backs s n hF f).mp hb)

end root

theorem create_spec {s : Mem} (h : Sound s) (hL : Live c s)
    (hok : (userVmCreateAddressSpace c s).2 ≠ 0)
    (hlog : logLength (userVmCreateAddressSpace c s).1 = logLength s) :
    ∃ s1, Grow s s1 ∧ Struct s1 ∧ FreshRoot s1 (userVmCreateAddressSpace c s).2 ∧
      (userVmCreateAddressSpace c s).1 = withRoot s1 (userVmCreateAddressSpace c s).2 := by
  rcases create_carry _ _ (carry_grow c s hL) ⟨grow_refl s,h.counts.struct⟩ with
    he | ⟨-,hz⟩ | ⟨s2,s1,n,-,-,⟨hG,hS⟩,-,-,hF,heq⟩
  · exact absurd he (by rw [hlog]; exact lt_irrefl _)
  · exact absurd hz hok
  · rw [heq]
    exact ⟨s1,hG,hS,hF,rfl⟩

theorem created_sound {s s1 : Mem} {n : ℕ} (h : Sound s) (hG : Grow s s1) (hS : Struct s1)
    (hF : FreshRoot s1 n) : Sound (withRoot s1 n) ∧ Frees s (withRoot s1 n) := by
  refine ⟨sound_root s1 n hF (sound_grow s s1 hG h hS),fun f hb hn => absurd ?_ hn⟩
  exact (root_backs s1 n hF f).mpr ((grow_backs s s1 hG f).mpr hb)

section mapped
variable (s s' : Mem) (a v : ℕ) (e : Pte) (ha : a ∈ s.spaces) (hv : v < userPages)
  (hm : Mapped s s' a v e) (habs : bit (view s.ram a v) 0 = false) (h0 : bit e 0 = true)
  (hnew : ¬Backs s (pteFrame e))
include ha hv hm habs h0

theorem mapped_maps (w f b : ℕ) (hb : b ∈ s.spaces) (hw : w < userPages) :
    maps s'.ram w f b = true ↔ maps s.ram w f b = true ∨ b = a ∧ w = v ∧ f = pteFrame e := by
  by_cases hbw : b = a ∧ w = v
  · obtain ⟨rfl,rfl⟩ := hbw
    have hf : pteFrame (e &&& ~~~pteAccessed) = pteFrame e :=
      frame_congr _ _ (fun i h1 h2 => clean_bit e (by omega) (by omega))
    rw [maps_iff, maps_iff, hm.own, hf, clean_bit e (by omega) (by omega), habs, h0]
    simp [eq_comm]
  · rw [maps, hm.others b hb w hw hbw]
    constructor
    · exact Or.inl
    · rintro (h | ⟨h1,h2,-⟩)
      · exact h
      · exact absurd ⟨h1,h2⟩ hbw

theorem mapped_backs (f : ℕ) : Backs s' f ↔ Backs s f ∨ f = pteFrame e := by
  have hiff := mapped_maps s s' a v e ha hv hm habs h0
  constructor
  · rintro ⟨b,hb,w,hw,h⟩
    rw [hm.same.spaces] at hb
    rcases (hiff w f b hb hw).mp h with h | ⟨-,-,h⟩
    · exact Or.inl ⟨b,hb,w,hw,h⟩
    · exact Or.inr h
  · rintro (⟨b,hb,w,hw,h⟩ | rfl)
    · exact ⟨b,by rw [hm.same.spaces]; exact hb,w,hw,(hiff w f b hb hw).mpr (Or.inl h)⟩
    · exact ⟨a,by rw [hm.same.spaces]; exact ha,v,hv,(hiff v _ a ha hv).mpr (Or.inr ⟨rfl,rfl,rfl⟩)⟩

include hnew

theorem exact_mapped (h : Exact s) (hone : s.pageRefcount (pteFrame e) = 1) : Exact s' := by
  have hiff := mapped_maps s s' a v e ha hv hm habs h0
  have hmove := owners_set h.struct.nodup ha hm.same.spaces hm.others
  refine ⟨hm.struct,?_⟩
  intro b hb w hw hp
  rw [hm.same.spaces] at hb
  have hmw := (maps_iff s'.ram w (pteFrame (view s'.ram b w)) b).mpr ⟨hp,rfl⟩
  generalize pteFrame (view s'.ram b w) = g at hmw ⊢
  have hg := hmove w g hw
  rw [hm.counts]
  by_cases hge : g = pteFrame e
  · -- the new frame has this one owner
    subst hge
    have hnone : ∀ d ∈ s.spaces, maps s.ram w (pteFrame e) d = false := by
      intro d hd
      rw [Bool.eq_false_iff]
      exact fun hmd => hnew ⟨d,hd,w,hw,hmd⟩
    have hzero : owners s w (pteFrame e) = 0 := by
      rw [owners, List.countP_eq_zero]
      intro d hd hmd
      rw [hnone d hd] at hmd
      cases hmd
    rcases (hiff w _ b hb hw).mp hmw with hold | ⟨rfl,rfl,-⟩
    · rw [hnone b hb] at hold
      cases hold
    · rw [hmw, hnone b hb] at hg
      simp only [Bool.false_eq_true, if_false, if_true] at hg
      omega
  · have hold : maps s.ram w g b = true :=
      ((hiff w g b hb hw).mp hmw).resolve_right (fun hc => hge hc.2.2)
    have hsame : maps s'.ram w g a = maps s.ram w g a := by
      rw [Bool.eq_iff_iff, hiff w g a ha hw]
      exact ⟨fun hc => hc.resolve_right (fun hc => hge hc.2.2),Or.inl⟩
    obtain ⟨hp0,rfl⟩ := (maps_iff _ _ _ _).mp hold
    rw [h.counts b hb w hw hp0]
    rw [hsame] at hg
    omega

end mapped

theorem taken_not_table (hS : Struct s) {n : ℕ} (hfree : s.bitmap n = false)
    (content : Store) :
    ¬Table { taken s n with ram := update s.ram n content } n := by
  have hnt := free_not_table s hS.trees n hfree
  rintro ⟨a,q,ha,hq,ht⟩
  refine hnt ⟨a,q,ha,hq,?_⟩
  rw [← ht]
  refine (walk_same (child s.ram) _ user_path_closed ?_ a q ha hq).symm
  intro u j hu
  have hun : u ≠ n := by
    rintro rfl
    exact hnt hu
  rw [child, child, entry_congr _ s.ram u j (update_of_ne hun _ _)]

/-- Frame `n` has just been allocated and filled; no page and no table uses it. -/
structure Filled (s s' : Mem) (n : ℕ) : Prop where
  grow : Grow s s'
  struct : Struct s'
  bound : n < s'.totalPages
  used : s'.bitmap n = true
  count : s'.pageRefcount n = 1
  apart : ¬Table s' n
  unmapped : ¬Backs s' n
  user : ¬KernelPage s' n

theorem filled_taken {s s1 : Mem} {n : ℕ} (content : Store) (h : Sound s) (hG : Grow s s1)
    (hS : Struct s1) (hfree : s1.bitmap n = false) (hlt : n < s1.totalPages) :
    Filled s { taken s1 n with ram := update s1.ram n content } n := by
  obtain ⟨hG2,hS2⟩ := grow_taken s1 hS n hfree hlt (update s1.ram n content)
    (fun f hf => update_of_ne hf _ _)
  refine ⟨grow_trans hG hG2,hS2,hlt,?_,?_,taken_not_table s1 hS hfree content,?_,?_⟩
  · exact update_self _ _ _
  · exact update_self _ _ _
  · intro hb
    rw [backs_used s1 hS ((grow_backs s1 _ hG2 n).mp hb)] at hfree
    cases hfree
  · -- the frame was free, and the frames of the kernel never are
    intro hk
    rw [(sound_grow s s1 hG h hS).reserved n ((kernel_same hG2.limit n).mp hk)] at hfree
    cases hfree

theorem filled_grow {s s2 s3 : Mem} {n : ℕ} (h : Filled s s2 n) (hG : Grow s2 s3)
    (hS : Struct s3) : Filled s s3 n := by
  obtain ⟨hused,hcount⟩ := hG.kept n h.used
  refine ⟨grow_trans h.grow hG,hS,?_,hused,hcount.trans h.count,?_,?_,?_⟩
  · rw [hG.total]
    exact h.bound
  · exact extend_not_table (extend_of_grow hG) h.used h.apart
  · exact fun hb => h.unmapped ((grow_backs s2 s3 hG n).mp hb)
  · exact fun hk => h.user ((kernel_same hG.limit n).mp hk)

theorem filled_reserved {s s' : Mem} {n v : ℕ} (hv : v < userPages) (h : Filled s s' n) :
    Reserved v n s' := by
  have hzero : owners s' v n = 0 := by
    rw [owners, List.countP_eq_zero]
    exact fun b hb hm => h.unmapped ⟨b,hb,v,hv,hm⟩
  refine ⟨h.bound,h.used,h.apart,?_,fun b hb w hw hm => absurd ⟨b,hb,w,hw,hm⟩ h.unmapped⟩
  rw [hzero, h.count]
  exact Nat.zero_lt_one

theorem sound_mapped {s s3 s' : Mem} {a v n : ℕ} {e : Pte} (h : Sound s) (hf : Filled s s3 n)
    (ha : a ∈ s.spaces) (hv : v < userPages) (habs : bit (view s.ram a v) 0 = false)
    (he : pteFrame e = n) (h0 : bit e 0 = true) (hm : Mapped s3 s' a v e) :
    Sound s' ∧ Frees s s' := by
  have hsound := sound_grow s s3 hf.grow h hf.struct
  have ha3 : a ∈ s3.spaces := by
    rw [hf.grow.spaces]
    exact ha
  have habs3 : bit (view s3.ram a v) 0 = false := by
    rw [hf.grow.views a ha v hv]
    exact habs
  subst he
  have hbacks := mapped_backs s3 s' a v e ha3 hv hm habs3 h0
  refine ⟨⟨?_,?_,?_⟩,fun f hb hgone => absurd ?_ hgone⟩
  · exact exact_mapped s3 s' a v e ha3 hv hm habs3 h0 hf.unmapped hsound.counts hf.count
  · intro f hk
    rw [hm.bitmap]
    exact hsound.reserved f ((kernel_same hm.limit f).mp hk)
  · intro f hb hk
    rw [kernel_same hm.limit] at hk
    rcases (hbacks f).mp hb with hb | rfl
    · exact hsound.user f hb hk
    · exact hf.user hk
  · exact (hbacks f).mpr (Or.inl ((grow_backs s s3 hf.grow f).mpr hb))

section
variable (c : Ctx) (s s1 : Mem) (a virt n : ℕ) (content : Store) (flags : Pte)

theorem map_fresh_some (hn : n ≠ 0) (he : pmmAllocPage c s = (s1,n)) :
    mapFresh c s a virt content flags = mapFilled c s1 a virt n content flags := by
  unfold mapFresh
  rw [he]
  cases n with
  | zero => exact absurd rfl hn
  | succ m => rfl

theorem map_filled_ok (h : (mapFilled c s a virt n content flags).2 = true ∨
      (userVmMapPage c { s with ram := update s.ram n content } a virt n flags).2 = true) :
    mapFilled c s a virt n content flags =
      userVmMapPage c { s with ram := update s.ram n content } a virt n flags := by
  unfold mapFilled at h ⊢
  cases hm : userVmMapPage c { s with ram := update s.ram n content } a virt n flags with
  | mk s' ok =>
    cases ok with
    | true => rfl
    | false =>
      rw [hm] at h
      exact absurd h (by simp)

theorem map_fresh_log (hok : (mapFresh c s a virt content flags).2 = true) :
    logLength (pmmAllocPage c s).1 ≤ logLength (mapFresh c s a virt content flags).1 := by
  obtain ⟨s1,n,he⟩ : ∃ s1 n, pmmAllocPage c s = (s1,n) := ⟨_,_,rfl⟩
  by_cases hn : n = 0
  · subst hn
    unfold mapFresh
    rw [he]
    exact le_refl _
  · rw [map_fresh_some c s s1 a virt n content flags hn he] at hok ⊢
    rw [map_filled_ok c s1 a virt n content flags (.inl hok), he]
    exact map_page_log c { s1 with ram := update s1.ram n content } a virt n flags

end

theorem map_filled {s s2 : Mem} {a virt n : ℕ} {flags : Pte} (hL : Live c s)
    (ha : a ∈ s.spaces) (hva : virt < 2^47)
    (hc : ∀ i, 12 ≤ i → i < 52 → bit flags i = false) (hf : Filled s s2 n)
    (hok : (userVmMapPage c s2 a virt n flags).2 = true)
    (hlog : logLength (userVmMapPage c s2 a virt n flags).1 = logLength s) :
    ∃ s3 e, Filled s s3 n ∧ pteFrame e = n ∧ bit e 0 = true ∧
      Mapped s3 (userVmMapPage c s2 a virt n flags).1 a (virt/4096) e := by
  have hL2 : Live c s2 := by
    unfold Live
    rw [hf.grow.spaces]
    exact hL
  have ha2 : a ∈ s2.spaces := by
    rw [hf.grow.spaces]
    exact ha
  have hlog2 : logLength s2 = logLength s := congrArg List.length hf.grow.log
  rcases map_page_carry c _ _ (carry_grow c s2 hL2) s2 ⟨grow_refl s2,hf.struct⟩ a virt n flags
    ha2 hva with he | ⟨-,-,hfail⟩ | ⟨s3,t,⟨hG3,hS3⟩,hsp,ht,heq⟩
  · exact absurd he (by rw [hlog, hlog2]; exact lt_irrefl _)
  · rw [hfail] at hok
    cases hok
  · have hf3 := filled_grow hf hG3 hS3
    have hframe : pteFrame (leafEntry n flags) = n := by
      rw [leaf_entry_frame n hc, Nat.mod_eq_of_lt (lt_of_lt_of_le hf3.bound hS3.pages.2)]
    have hbit : bit (leafEntry n flags) 0 = true := by simp [leafEntry]
    have ha3 : a ∈ s3.spaces := by
      rw [hsp]
      exact ha2
    have hpage := page_bound hva
    have hres := filled_reserved hpage hf3
    rw [← hframe] at hres
    obtain ⟨m,hlow,hrec⟩ := record_mapping_shape c { s3 with
      ram := setEntry s3.ram t (virt/4096 % 512) (leafEntry n flags) } virt n hva hS3.low
    rw [heq, hrec]
    exact ⟨s3,_,hf3,hframe,hbit,
      mapped_leaf hS3 m ha3 hpage ht hres hlow⟩

theorem map_fresh_spec {s : Mem} {a virt : ℕ} {content : Store} {flags : Pte} (h : Sound s)
    (hL : Live c s) (ha : a ∈ s.spaces) (hva : virt < 2^47)
    (hc : ∀ i, 12 ≤ i → i < 52 → bit flags i = false)
    (hok : (mapFresh c s a virt content flags).2 = true)
    (hlog : logLength (mapFresh c s a virt content flags).1 = logLength s) :
    ∃ s3 n e, Filled s s3 n ∧ pteFrame e = n ∧ bit e 0 = true ∧
      Mapped s3 (mapFresh c s a virt content flags).1 a (virt/4096) e := by
  have hmono := map_fresh_log c s a virt content flags hok
  rcases alloc_page_carry c _ _ (carry_grow c s hL) ⟨grow_refl s,h.counts.struct⟩ with
    he | ⟨s1,⟨hG1,hS1⟩,-,he | ⟨n,hn,hlt,hfree,he⟩⟩
  · exact absurd (lt_of_lt_of_le he hmono) (by rw [hlog]; exact lt_irrefl _)
  · unfold mapFresh at hok
    rw [he] at hok
    cases hok
  · have hf := filled_taken content h hG1 hS1 hfree hlt
    rw [map_fresh_some c s _ a virt n content flags hn he] at hok hlog ⊢
    have hmap := map_filled_ok c _ a virt n content flags (.inl hok)
    rw [hmap] at hok hlog ⊢
    obtain ⟨s3,e,hrest⟩ := map_filled c hL ha hva hc hf hok hlog
    exact ⟨s3,n,e,hrest⟩

theorem fork_sound {s s' : Mem} {parent new : ℕ} (h : Sound s) (ha : parent ∈ s.spaces)
    (hF : Forked s s' parent new) (hmax : s'.spaces.length ≤ 255) : Sound s' ∧ Frees s s' := by
  have hold := forked_old s s' parent new hF
  have hback : ∀ f, Backs s' f → Backs s f := by
    rintro f ⟨b,hb,w,hw,hm⟩
    obtain ⟨h0,hf⟩ := (maps_iff _ _ _ _).mp hm
    rw [hF.spaces] at hb
    rcases List.mem_cons.mp hb with rfl | hb
    · obtain ⟨hp,hv⟩ := forked_new s s' parent b hF hw h0
      rw [hv, share_frame] at hf
      exact ⟨parent,ha,w,hw,(maps_iff _ _ _ _).mpr ⟨hp,hf⟩⟩
    · rw [(hold b w hb hw).1] at h0
      rw [(hold b w hb hw).2] at hf
      exact ⟨b,hb,w,hw,(maps_iff _ _ _ _).mpr ⟨h0,hf⟩⟩
  refine ⟨⟨exact_forked s s' parent new ha hF h.counts hmax,?_,?_⟩,?_⟩
  · exact fun f hk => hF.kept f (h.reserved f ((kernel_same hF.limit f).mp hk))
  · exact fun f hb hk => h.user f (hback f hb) ((kernel_same hF.limit f).mp hk)
  · rintro f ⟨b,hb,w,hw,hm⟩ hgone
    refine absurd ⟨b,by rw [hF.spaces]; exact List.mem_cons_of_mem _ hb,w,hw,?_⟩ hgone
    rw [maps, (hold b w hb hw).1, (hold b w hb hw).2]
    exact hm

theorem cowed_sound {s s' : Mem} {a v f : ℕ} (h : Sound s) (ha : a ∈ s.spaces)
    (hv : v < userPages) (hp : bit (view s.ram a v) 0 = true) (hc : Cowed s s' a v f) :
    Sound s' ∧ Frees s s' := by
  have hold := (maps_iff s.ram v _ a).mpr ⟨hp,rfl⟩
  have hmine : Backs s (pteFrame (view s.ram a v)) := ⟨a,ha,v,hv,hold⟩
  refine ⟨⟨exact_cowed s s' a v f h.counts ha hv hp hc,?_,?_⟩,?_⟩
  · exact fun g hk => hc.kept g (h.reserved g ((kernel_same hc.limit g).mp hk))
  · rintro g ⟨b,hb,w,hw,hm⟩ hk
    rw [kernel_same hc.limit] at hk
    rw [hc.spaces] at hb
    by_cases hbw : b = a ∧ w = v
    · obtain ⟨rfl,rfl⟩ := hbw
      have hg := ((maps_iff _ _ _ _).mp hm).2
      rw [hc.own.2.2] at hg
      subst hg
      rcases hc.counts with ⟨hf,-⟩ | ⟨hfree,-⟩
      · rw [hf] at hk
        exact h.user _ hmine hk
      · rw [h.reserved f hk] at hfree
        cases hfree
    · rw [maps, hc.others b hb w hw hbw] at hm
      exact h.user g ⟨b,hb,w,hw,hm⟩ hk
  · rintro g ⟨b,hb,w,hw,hm⟩ hgone
    exfalso
    apply hgone
    by_cases hbw : b = a ∧ w = v
    · obtain ⟨rfl,rfl⟩ := hbw
      have hg := ((maps_iff _ _ _ _).mp hm).2
      rcases hc.counts with ⟨hf,-⟩ | ⟨hfree,-,hne,-⟩
      · refine ⟨b,by rw [hc.spaces]; exact hb,w,hw,(maps_iff _ _ _ _).mpr ⟨hc.own.1,?_⟩⟩
        rw [hc.own.2.2, hf, hg]
      · -- a copy is made for one of several owners
        have hcount := h.counts.counts b hb w hw hp
        have hpos := owners_pos hb hold
        have hless := cowed_old s s' b w f h.counts ha hv hp hc hfree
        obtain ⟨d,hd,hmd⟩ := List.countP_pos_iff.mp
          (show 0 < owners s' w (pteFrame (view s.ram b w)) by omega)
        exact ⟨d,hd,w,hw,hg ▸ hmd⟩
    · refine ⟨b,by rw [hc.spaces]; exact hb,w,hw,?_⟩
      rw [maps, hc.others b hb w hw hbw]
      exact hm

theorem cow_refused {s : Mem} {a va : ℕ} (hS : Struct s) (hL : Live c s)
    (hno : (cowHandleFault c s a va).2 = false)
    (hlog : logLength (cowHandleFault c s a va).1 = logLength s) :
    Grow s (cowHandleFault c s a va).1 ∧ Struct (cowHandleFault c s a va).1 := by
  unfold cowHandleFault at hno hlog ⊢
  cases hpte : userVmGetPte s.ram a va with
  | none => exact ⟨grow_refl s,hS⟩
  | some ti =>
    rw [hpte] at hno hlog
    dsimp only at hno hlog ⊢
    split_ifs at hno hlog ⊢
    · exact ⟨grow_refl s,hS⟩
    · rcases alloc_page_carry c _ _ (carry_grow c s hL) ⟨grow_refl s,hS⟩ with
        he | ⟨s1,hs1,-,he | ⟨n,hn,-,-,he⟩⟩
      · obtain ⟨s1,n,hr⟩ : ∃ s1 n, pmmAllocPage c s = (s1,n) := ⟨_,_,rfl⟩
        rw [hr] at he hno hlog
        cases n with
        | zero => exact absurd he (by rw [show logLength s1 = logLength s from hlog]; exact lt_irrefl _)
        | succ n => cases hno
      · rw [he]
        exact hs1
      · obtain ⟨m,rfl⟩ := Nat.exists_eq_succ_of_ne_zero hn
        rw [he] at hno
        cases hno

theorem cow_sound {s : Mem} {a va : ℕ} (h : Sound s) (hL : Live c s) (ha : a ∈ s.spaces)
    (hva : va < 2^47) (hlog : logLength (cowHandleFault c s a va).1 = logLength s) :
    Sound (cowHandleFault c s a va).1 ∧ Frees s (cowHandleFault c s a va).1 := by
  cases hok : (cowHandleFault c s a va).2 with
  | true =>
    obtain ⟨hp,f,hc⟩ := cow_spec h.counts.struct hL ha hva hok hlog
    exact cowed_sound h ha (page_bound hva) hp hc
  | false =>
    obtain ⟨hG,hS⟩ := cow_refused c h.counts.struct hL hok hlog
    exact ⟨sound_grow s _ hG h hS,fun f hb hgone => absurd ((grow_backs s _ hG f).mpr hb) hgone⟩

structure Shed (s s' : Mem) : Prop where
  sound : Sound s'
  spaces : s'.spaces = s.spaces
  log : s'.evictions = s.evictions
  frees : Frees s s'
  fewer : ∀ f, Backs s' f → Backs s f
  freed : ∀ f, s.bitmap f = false → s'.bitmap f = false

theorem shed_refl (h : Sound s) : Shed s s :=
  ⟨h,rfl,rfl,fun _ hb hn => absurd hb hn,fun _ hb => hb,fun _ hb => hb⟩

theorem shed_trans {s s' s'' : Mem} (h : Shed s s') (h' : Shed s' s'') : Shed s s'' := by
  refine ⟨h'.sound,h'.spaces.trans h.spaces,h'.log.trans h.log,?_,
    fun f hb => h.fewer f (h'.fewer f hb),fun f hb => h'.freed f (h.freed f hb)⟩
  intro f hb hgone
  by_cases hmid : Backs s' f
  · exact h'.frees f hmid hgone
  · exact h'.freed f (h.frees f hb hmid)

theorem shed_dropped {s s' : Mem} {a v f : ℕ} (h : Sound s) (ha : a ∈ s.spaces)
    (hv : v < userPages) (hm : maps s.ram v f a = true) (hd : Dropped s s' a v f) : Shed s s' := by
  have hS := h.counts.struct
  have hgone : ∀ g, maps s'.ram v g a = false := fun g => by rw [maps, hd.own, Bool.false_and]
  have hback : ∀ g, Backs s' g → Backs s g := by
    rintro g ⟨b,hb,w,hw,hmb⟩
    rw [hd.spaces] at hb
    by_cases hbw : b = a ∧ w = v
    · rw [hbw.1, hbw.2, hgone] at hmb
      cases hmb
    · rw [maps, hd.others b hb w hw hbw] at hmb
      exact ⟨b,hb,w,hw,hmb⟩
  refine ⟨⟨⟨hd.struct,?_⟩,?_,?_⟩,hd.spaces,hd.log,?_,hback,?_⟩
  · intro b hb w hw hp
    rw [hd.spaces] at hb
    have hbw : ¬(b = a ∧ w = v) := by
      rintro ⟨rfl,rfl⟩
      rw [hd.own] at hp
      cases hp
    rw [hd.others b hb w hw hbw] at hp ⊢
    rw [hd.counts, hd.owners w hw, h.counts.counts b hb w hw hp]
    by_cases hg : pteFrame (view s.ram b w) = f
    · have hwv := maps_place hS hb ha hw hv ((maps_iff _ _ _ _).mpr ⟨hp,hg⟩) hm
      subst hwv
      obtain ⟨ha0,haf⟩ := (maps_iff _ _ _ _).mp hm
      have hcount := h.counts.counts a ha w hw ha0
      rw [haf] at hcount
      rw [if_pos hg, if_pos ⟨rfl,hg⟩, hcount]
    · rw [if_neg hg, if_neg (fun hc => hg hc.2)]
  · intro g hk
    rw [kernel_same hd.limit] at hk
    rw [hd.bits, if_neg]
    · exact h.reserved g hk
    · rintro ⟨rfl,-,hc⟩
      exact hc hk
  · exact fun g hb hk => h.user g (hback g hb) ((kernel_same hd.limit g).mp hk)
  · rintro g ⟨b,hb,w,hw,hmb⟩ hno
    by_cases hbw : b = a ∧ w = v
    · -- the page taken away was the last one of its frame
      obtain ⟨rfl,rfl⟩ := hbw
      obtain ⟨h0,hf⟩ := (maps_iff _ _ _ _).mp hm
      have hgf : g = f := ((maps_iff _ _ _ _).mp hmb).2.symm.trans hf
      subst hgf
      have hcount := h.counts.counts b hb w hw h0
      rw [hf] at hcount
      have hpos := owners_pos hb hmb
      have hzero : owners s' w g = 0 := by
        rw [owners, List.countP_eq_zero]
        exact fun d hd' hmd => hno ⟨d,hd',w,hw,hmd⟩
      rw [hd.owners w hw, if_pos ⟨rfl,rfl⟩] at hzero
      rw [hd.bits, if_pos ⟨rfl,by omega,h.user g ⟨b,hb,w,hw,hmb⟩⟩]
    · refine absurd ⟨b,by rw [hd.spaces]; exact hb,w,hw,?_⟩ hno
      rw [maps, hd.others b hb w hw hbw]
      exact hmb
  · intro g hg
    rw [hd.bits]
    split_ifs
    · rfl
    · exact hg

theorem unmap_page_shed {a virt : ℕ} (h : Sound s) (ha : a ∈ s.spaces)
    (hva : virt < 2^47) : Shed s (unmapPage a virt s) := by
  have hpage := page_bound hva
  have hle : ∀ f, maps s.ram (virt/4096) f a = true →
      owners s (virt/4096) f ≤ s.pageRefcount f := by
    intro f hm
    obtain ⟨h0,rfl⟩ := (maps_iff _ _ _ _).mp hm
    exact (h.counts.counts a ha _ hpage h0).ge
  rcases unmap_page_cases h.counts.struct ha hva hle with ⟨heq,-⟩ | ⟨f,hm,hd⟩
  · rw [heq]
    exact shed_refl s h
  · exact shed_dropped h ha hpage hm hd

theorem unmap_area_shed {a : ℕ} {v : Vma} (h : Sound s) (ha : a ∈ s.spaces)
    (hv : v.stop ≤ 2^47) : Shed s (unmapArea a v s) := by
  refine iterate_rule (fun j => unmapPage a (v.start+pageSize*j)) (fun _ x => Shed s x) 0 _ s
    (shed_refl s h) ?_
  intro j x _ hj hx
  have hlt : v.start+pageSize*j < 2^47 := by
    unfold pageSize at hj ⊢
    omega
  exact shed_trans hx (unmap_page_shed x hx.sound (by rw [hx.spaces]; exact ha) hlt)

def InUserHalf (p : Proc) : Prop := ∀ i, (p.vmas i).inUse = true → (p.vmas i).stop ≤ 2^47

theorem drop_vma_half {t : Process.Table} (p i : ℕ) (h : InUserHalf (t p)) :
    (dropVma t p i p).cr3 = (t p).cr3 ∧ InUserHalf (dropVma t p i p) := by
  unfold dropVma
  rw [update_self]
  refine ⟨rfl,fun j hj => ?_⟩
  dsimp only at hj ⊢
  by_cases hji : j = i
  · rw [hji, update_self] at hj
    cases hj
  · rw [update_of_ne hji] at hj ⊢
    exact h j hj

theorem vma_unmap_shed {t : Process.Table} {s : Mem} (p addr len : ℕ) (h : Sound s)
    (ha : (t p).cr3 ∈ s.spaces) (hh : InUserHalf (t p)) : Shed s (vmaUnmap t s p addr len).1 := by
  have hrule := iterate_rule (fun i (r : Mem × Process.Table) =>
    let v := (r.2 p).vmas i
    if vmaOverlaps v (pageBase addr) (pageUp (addr+len)) then
      (unmapArea (r.2 p).cr3 v r.1,dropVma r.2 p i)
    else r) (fun _ r => Shed s r.1 ∧ (r.2 p).cr3 = (t p).cr3 ∧ InUserHalf (r.2 p)) 0 vmaMax (s,t)
    ⟨shed_refl s h,rfl,hh⟩ ?_
  · exact hrule.1
  · rintro i ⟨x,u⟩ - - ⟨hx,hcr3,hu⟩
    dsimp only at hx hcr3 hu ⊢
    split_ifs with hov
    · obtain ⟨hd1,hd2⟩ := drop_vma_half p i hu
      have huse : ((u p).vmas i).inUse = true := by
        unfold vmaOverlaps at hov
        simp only [Bool.and_eq_true] at hov
        exact hov.1.1
      refine ⟨shed_trans hx (unmap_area_shed x hx.sound ?_ (hu i huse)),hd1.trans hcr3,hd2⟩
      rw [hcr3, hx.spaces]
      exact ha
    · exact ⟨hx,hcr3,hu⟩

theorem destroy_sound {a : ℕ} (h : Sound s) (ha : a ∈ s.spaces) :
    Sound (userVmDestroyAddressSpace s a) ∧ Frees s (userVmDestroyAddressSpace s a) := by
  obtain ⟨hsp,hram⟩ := destroyed_shape s a h.counts ha
  obtain ⟨s1,hr,heq⟩ := destroy_spec s h.counts.struct a ha
  obtain ⟨_,_,_,_,hs⟩ := hr.shape
  have hlimit : (userVmDestroyAddressSpace s a).kernelPageLimit = s.kernelPageLimit := by
    rw [heq, hs]
  have hbits : (userVmDestroyAddressSpace s a).bitmap = s1.bitmap := by rw [heq]
  have hback : ∀ f, Backs (userVmDestroyAddressSpace s a) f → Backs s f := by
    rintro f ⟨b,hb,w,hw,hm⟩
    rw [hram] at hm
    exact ⟨b,(destroyed_mem s a h.counts ha b hb).2,w,hw,hm⟩
  refine ⟨⟨exact_destroyed s a h.counts ha,?_,?_⟩,?_⟩
  · intro f hk
    rw [kernel_same hlimit] at hk
    rw [hbits, hr.kernel f hk]
    exact h.reserved f hk
  · exact fun f hb hk => h.user f (hback f hb) ((kernel_same hlimit f).mp hk)
  · rintro f ⟨b,hb,w,hw,hm⟩ hgone
    have hba : b = a := by
      by_contra hne
      refine hgone ⟨b,?_,w,hw,by rw [hram]; exact hm⟩
      rw [hsp]
      exact (List.mem_erase_of_ne hne).mpr hb
    subst hba
    have hzero : owners (userVmDestroyAddressSpace s b) w f = 0 := by
      rw [owners, List.countP_eq_zero]
      exact fun d hd hmd => hgone ⟨d,hd,w,hw,hmd⟩
    have hown := destroyed_owners s b h.counts ha w f
    rw [hm, if_pos rfl] at hown
    obtain ⟨h0,hf⟩ := (maps_iff _ _ _ _).mp hm
    have hcount := h.counts.counts b hb w hw h0
    have hrel := hr.bitmap w hw h0
    rw [hf] at hcount hrel
    rw [hbits, hrel, if_pos ⟨hw,by omega,h.user f ⟨b,hb,w,hw,hm⟩⟩]

inductive Op where
  | create
  | map (space virt : ℕ) (content : Store) (flags : Pte)
  | fork (parent : ℕ)
  | cow (space va : ℕ)
  | unmap (t : Process.Table) (p addr len : ℕ)
  | destroy (space : ℕ)

def step (s : Mem) : Op → Mem
  | .create => (userVmCreateAddressSpace c s).1
  | .map a virt content flags => (mapFresh c s a virt content flags).1
  | .fork parent => (userVmForkAddressSpace c s parent).1
  | .cow a va => (cowHandleFault c s a va).1
  | .unmap t p addr len => (vmaUnmap t s p addr len).1
  | .destroy a => userVmDestroyAddressSpace s a

/-- The operation acts on live spaces and user addresses, and no allocation
in it fails. The flags of a mapping stay clear of the address field. -/
def Allowed (s : Mem) : Op → Prop
  | .create => (userVmCreateAddressSpace c s).2 ≠ 0
  | .map a virt content flags => a ∈ s.spaces ∧ virt < 2^47 ∧
    bit (view s.ram a (virt/4096)) 0 = false ∧
    (∀ i, 12 ≤ i → i < 52 → bit flags i = false) ∧ (mapFresh c s a virt content flags).2 = true
  | .fork parent => parent ∈ s.spaces ∧ (userVmForkAddressSpace c s parent).2 ≠ 0
  | .cow a va => a ∈ s.spaces ∧ va < 2^47
  | .unmap t p _ _ => (t p).cr3 ∈ s.spaces ∧ InUserHalf (t p)
  | .destroy a => a ∈ s.spaces

structure Booted (s : Mem) : Prop where
  pages : 0 < s.totalPages ∧ s.totalPages ≤ 2^40
  kernel : 0 < s.kernelPageLimit
  reserved : ∀ f < s.kernelPageLimit, s.bitmap f = true
  spaces : s.spaces = []
  low : ∀ f, (s.rmapTable f).virtAddr < 2^47

/-- One step in which nothing is evicted and the process table suffices. -/
structure Step (c : Ctx) (s : Mem) (op : Op) : Prop where
  live : Live c s
  allowed : Allowed c s op
  noEviction : (step c s op).evictions = s.evictions
  few : (step c s op).spaces.length ≤ maxProcesses

inductive Reach (s0 : Mem) : Mem → Prop
  | start : Reach s0 s0
  | step (c : Ctx) (s : Mem) (op : Op) (h : Reach s0 s) (hs : Step c s op) :
      Reach s0 (step c s op)

theorem booted_sound (h : Booted s) : Sound s := by
  have hno : ∀ a, a ∉ s.spaces := by
    intro a
    rw [h.spaces]
    exact List.not_mem_nil
  have htab : ∀ t, ¬Table s t := by
    rintro t ⟨a,p,ha,-⟩
    exact hno a ha
  refine ⟨⟨⟨h.pages,h.reserved 0 h.kernel,h.kernel,by rw [h.spaces]; exact List.nodup_nil,?_,?_,?_,
    ?_,?_,h.low⟩,?_⟩,fun f hk => h.reserved f hk.2,?_⟩
  · intro a b p q t ha
    exact absurd ha (hno a)
  · intro a ha
    exact absurd ha (hno a)
  · intro t ht
    exact absurd ht (htab t)
  · intro a ha
    exact absurd ha (hno a)
  · intro a ha
    exact absurd ha (hno a)
  · intro a ha
    exact absurd ha (hno a)
  · rintro f ⟨a,ha,-⟩
    exact absurd ha (hno a)

theorem step_sound {s : Mem} {op : Op} (h : Sound s) (hs : Step c s op) :
    Sound (step c s op) ∧ Frees s (step c s op) := by
  have hlog : logLength (step c s op) = logLength s := congrArg List.length hs.noEviction
  have hfew := hs.few
  have ha := hs.allowed
  cases op with
  | create =>
    obtain ⟨s1,hG,hS,hF,heq⟩ := create_spec c h hs.live ha hlog
    change Sound (userVmCreateAddressSpace c s).1 ∧ Frees s (userVmCreateAddressSpace c s).1
    rw [heq]
    exact created_sound h hG hS hF
  | map a virt content flags =>
    obtain ⟨h1,h2,h3,h4,h5⟩ := ha
    obtain ⟨s3,n,e,hf,hn,h0,hm⟩ := map_fresh_spec c h hs.live h1 h2 h4 h5 hlog
    exact sound_mapped h hf h1 (page_bound h2) h3 hn h0 hm
  | fork parent =>
    have hF := fork_spec c h.counts.struct hs.live ha.1 ha.2 hlog
    exact fork_sound h ha.1 hF (le_trans hfew (by decide))
  | cow a va => exact cow_sound c h hs.live ha.1 ha.2 hlog
  | unmap t p addr len =>
    have hshed := vma_unmap_shed p addr len h ha.1 ha.2
    exact ⟨hshed.sound,hshed.frees⟩
  | destroy a => exact destroy_sound s h ha

theorem reach_sound {s0 s : Mem} (h0 : Booted s0) (h : Reach s0 s) :
    Sound s ∧ s.spaces.length ≤ maxProcesses := by
  induction h with
  | start =>
    refine ⟨booted_sound s0 h0,?_⟩
    rw [h0.spaces]
    exact Nat.zero_le _
  | step c s op _ hs ih => exact ⟨(step_sound c ih.1 hs).1,hs.few⟩

/-- The count of a frame behind a user page is the number of its leaf
entries, which no counter has to saturate for, and the next operation frees
the frame exactly when it takes the last of them. -/
theorem refcount_exact (s0 s : Mem) (h0 : Booted s0) (h : Reach s0 s) (f : ℕ) (hf : Backs s f) :
    s.pageRefcount f = mappings s f ∧ mappings s f ≤ maxProcesses ∧
      ∀ c op, Step c s op → ((step c s op).bitmap f = false ↔ mappings (step c s op) f = 0) := by
  obtain ⟨hS,hfew⟩ := reach_sound h0 h
  obtain ⟨hcount,hle⟩ := sound_count s hS hf
  refine ⟨hcount,le_trans hle hfew,?_⟩
  intro c op hs
  obtain ⟨hS',hfree⟩ := step_sound c hS hs
  exact frees_iff hS'.counts.struct hfree hf

open CowIsolation (bareMem idle idle_live)

theorem bare_booted : Booted bareMem := by
  refine ⟨by decide,by decide,?_,rfl,?_⟩
  · intro f hf
    obtain rfl : f = 0 := Nat.lt_one_iff.mp hf
    rfl
  · intro f
    change (0 : ℕ) < 2^47
    omega

theorem bare_roomy : ForkTotal.Roomy [] 5 bareMem := by
  refine ⟨.inl rfl,rfl,rfl,by decide,?_⟩
  have hsub : Finset.Ico 6 11 ⊆ ForkTotal.freeFrames bareMem := by
    intro f hf
    obtain ⟨h1,h2⟩ := Finset.mem_Ico.mp hf
    have hlt : f < bareMem.totalPages := by
      simp only [bareMem]
      omega
    refine Finset.mem_filter.mpr ⟨Finset.mem_range.mpr hlt,?_⟩
    simp only [bareMem, decide_eq_false_iff_not]
    omega
  have hcard := Finset.card_le_card hsub
  rwa [Nat.card_Ico] at hcard

def userFlags : Pte := pteWritable ||| pteUser

theorem user_flags_clear (i : ℕ) (h1 : 12 ≤ i) (_ : i < 52) : bit userFlags i = false := by
  unfold userFlags
  simp [show i ≠ 1 by omega, show i ≠ 2 by omega]

theorem map_fresh_total (k a virt : ℕ) {s : Mem} (content : Store)
    (h : ForkTotal.Roomy [] (k+4) s) : (mapFresh idle s a virt content userFlags).2 = true ∧
      ForkTotal.Roomy [] k (mapFresh idle s a virt content userFlags).1 := by
  obtain ⟨n,hn,he,hr⟩ := ForkTotal.alloc_page_total [] (k+3) idle s h
  have hr2 := ForkTotal.roomy_congr [] (k+3) (taken s n)
    { taken s n with ram := update (taken s n).ram n content } hr rfl rfl rfl rfl rfl
  obtain ⟨s',hs',hr'⟩ := ForkTotal.map_page_total [] k idle _ a virt n userFlags hr2
  rw [map_fresh_some idle s _ a virt n content userFlags hn he,
    map_filled_ok idle _ a virt n content userFlags (.inr (by rw [hs'])), hs']
  exact ⟨rfl,hr'⟩

theorem created_space : ∃ s n, Reach bareMem s ∧ n ≠ 0 ∧ s.spaces = [n] ∧ ForkTotal.Roomy [] 4 s ∧
    ∀ v < userPages, view s.ram n v = 0#64 := by
  obtain ⟨s1,n,hn,hcreate,hr1⟩ := ForkTotal.create_total [] 4 idle bareMem bare_roomy
  have hsound := booted_sound bareMem bare_booted
  have hlog1 : logLength (userVmCreateAddressSpace idle bareMem).1 = logLength bareMem := by
    rw [hcreate, logLength, hr1.log]
    rfl
  obtain ⟨s0,hG,hS,hF,hroot⟩ := create_spec idle hsound (idle_live _)
    (by rw [hcreate]; exact hn) hlog1
  rw [hcreate] at hF hroot
  dsimp only at hF hroot
  have hsp1 : s1.spaces = [n] := by
    rw [hroot]
    change n::s0.spaces = [n]
    rw [hG.spaces]
    rfl
  have hs1 : step idle bareMem .create = s1 := by rw [step, hcreate]
  have hstep1 : Step idle bareMem .create := by
    refine ⟨idle_live _,?_,?_,?_⟩
    · rw [Allowed, hcreate]
      exact hn
    · rw [hs1]
      exact hr1.log
    · rw [hs1, hsp1]
      exact (by decide : 1 ≤ maxProcesses)
  refine ⟨s1,n,hs1 ▸ .step idle bareMem .create .start hstep1,hn,hsp1,hr1,?_⟩
  intro v hv
  rw [hroot]
  exact with_root_view s0 n hF v hv

/-- No user page is backed by a page table or by the kernel, and a free frame
is none of the three. -/
theorem frames_apart (s0 s : Mem) (h0 : Booted s0) (h : Reach s0 s) (f : ℕ) :
    (Backs s f → ¬Table s f ∧ ¬KernelPage s f) ∧
      (s.bitmap f = false → ¬Backs s f ∧ ¬Table s f ∧ ¬KernelPage s f) := by
  obtain ⟨hc,hr,hu⟩ := (reach_sound h0 h).1
  constructor
  · intro hb
    obtain ⟨a,ha,v,hv,hm⟩ := id hb
    exact ⟨(maps_used s hc.struct v f a ha hv hm).2.2,hu f hb⟩
  · intro hf
    rw [← Bool.not_eq_true] at hf
    exact ⟨mt (backs_used s hc.struct) hf,fun ht => hf (hc.struct.tables f ht).2,mt (hr f) hf⟩

/-- The root of a new address space. -/
theorem frames_apart_created : ∃ s n, Reach bareMem s ∧ Table s n ∧ ¬Backs s n := by
  obtain ⟨s,n,h,-,hsp,-⟩ := created_space
  have ht : Table s n := root_table s (by simp [hsp])
  exact ⟨s,n,h,ht,fun hb => ((frames_apart bareMem s bare_booted h n).1 hb).1 ht⟩

theorem refcount_exact_page : ∃ s f, Reach bareMem s ∧ Backs s f ∧
    s.pageRefcount f = mappings s f ∧ mappings s f ≤ maxProcesses := by
  obtain ⟨s1,n,h1,hn,hsp1,hr1,hview⟩ := created_space
  have hsound1 := (reach_sound bare_booted h1).1
  -- the new space is empty, so a page can be mapped at address zero
  have hn1 : n ∈ s1.spaces := by
    rw [hsp1]
    exact List.mem_singleton_self n
  have habs : bit (view s1.ram n 0) 0 = false := by
    rw [hview 0 (by decide)]
    simp
  obtain ⟨hok,hr2⟩ := map_fresh_total 0 n 0 (fun _ => 0) hr1
  have hevict : (mapFresh idle s1 n 0 (fun _ => 0) userFlags).1.evictions = s1.evictions :=
    hr2.log.trans hr1.log.symm
  obtain ⟨s3,f,e,hfill,hfe,h0,hm⟩ := map_fresh_spec idle hsound1
    (idle_live _) hn1 (by decide) user_flags_clear hok (congrArg List.length hevict)
  have hsp3 := hfill.grow.spaces
  have hstep2 : Step idle s1 (.map n 0 (fun _ => 0) userFlags) := by
    refine ⟨idle_live _,⟨hn1,by decide,habs,user_flags_clear,hok⟩,hevict,?_⟩
    change (mapFresh idle s1 n 0 (fun _ => 0) userFlags).1.spaces.length ≤ maxProcesses
    rw [hm.same.spaces, hsp3, hsp1]
    exact (by decide : 1 ≤ maxProcesses)
  have h2 := Reach.step idle s1 _ h1 hstep2
  have hbacks : Backs (step idle s1 (.map n 0 (fun _ => 0) userFlags)) f := by
    refine (mapped_backs s3 _ n _ e (by rw [hsp3]; exact hn1) (by decide) hm ?_ h0 f).mpr
      (Or.inr hfe.symm)
    rw [hfill.grow.views n hn1 _ (by decide)]
    exact habs
  obtain ⟨hc,hle,-⟩ := refcount_exact bareMem _ bare_booted h2 f hbacks
  exact ⟨_,f,h2,hbacks,hc,hle⟩

end HobbyOS.RefCount

import HobbyOS.ForkSpace

/-!
# Destroying an address space

The walk releases every mapped page once, in ascending order, and every
table after the pages below it. No entry is written, so the tables read
during the walk are those of the state it began in.
-/

namespace HobbyOS.DestroySpace
open RadixTree BoundedLoop PageEntry PhysMem UserVm
  AddressSpace TableGrowth ForkSpace

def TableOf (r : Ram) (a t : ℕ) : Prop := ∃ p, UserPath p ∧ walk (child r) a p = some t

def releaseMapping (s : Mem) (f : ℕ) : Mem := pmmPageUnref (rmapClear s f) f

section rule
variable (s0 : Mem) (hS : Struct s0) (a : ℕ) (ha : a ∈ s0.spaces) (P : ℕ → Mem → Prop)
  (hram : ∀ n s, P n s → s.ram = s0.ram)
  (hskip : ∀ v w s, P v s → v ≤ w → w ≤ userPages →
    (∀ u, v ≤ u → u < w → bit (leaf s0.ram a u) 0 = false) → P w s)
  (hpage : ∀ v s, v < userPages → P v s → bit (leaf s0.ram a v) 0 = true →
    P (v+1) (releaseMapping s (pteFrame (leaf s0.ram a v))))
  (hfree : ∀ n s t, P n s → TableOf s0.ram a t → P n (pmmFreePage s t))

include hram hskip hpage hfree

theorem destroy_table_rule {i4 i3 i2 pt : ℕ} (h4 : i4 < 256) (h3 : i3 < 512) (h2 : i2 < 512)
    (hw : walk (child s0.ram) a [i4,i3,i2] = some pt) {s : Mem}
    (h : P (i4*2^27+i3*2^18+i2*2^9) s) :
    P (i4*2^27+i3*2^18+(i2+1)*2^9) (destroyTable pt s) := by
  have hu : UserPath [i4,i3,i2] := path_of_indices i4 i3 i2 0 h4 h3 h2 (by omega) ▸
    path_user _ (by unfold userPages; omega)
  apply hfree _ _ _ _ ⟨_,hu,hw⟩
  have hloop := iterate_rule (fun i s =>
      let e := entry s.ram pt i
      if !has e ptePresent then s
      else pmmPageUnref (rmapClear s (pteFrame e)) (pteFrame e))
    (fun i s => P (i4*2^27+i3*2^18+i2*2^9+i) s) 0 512 s (by simpa using h) (by
      intro i t _ hi ht
      have hleaf : leaf s0.ram a (i4*2^27+i3*2^18+i2*2^9+i) = entry t.ram pt i := by
        rw [leaf, leafTable, path_of_indices i4 i3 i2 i h4 h3 h2 (by omega), hw, hram _ _ ht,
          show (i4*2^27+i3*2^18+i2*2^9+i) % 512 = i by omega]
      simp only [has_present]
      rw [← Nat.add_assoc]
      split_ifs with hp
      · apply hskip _ _ t ht (by omega) (by unfold userPages; omega)
        intro u h1 h2
        rw [show u = i4*2^27+i3*2^18+i2*2^9+i by omega, hleaf]
        simpa using hp
      · rw [← hleaf]
        apply hpage _ t (by unfold userPages; omega) ht
        rw [hleaf]
        simpa using hp)
  rw [show i4*2^27+i3*2^18+(i2+1)*2^9 = i4*2^27+i3*2^18+i2*2^9+(0+512) by omega]
  exact hloop

include hS ha

theorem destroy_directory_rule {i4 i3 pd : ℕ} (h4 : i4 < 256) (h3 : i3 < 512)
    (hw : walk (child s0.ram) a [i4,i3] = some pd) {s : Mem} (h : P (i4*2^27+i3*2^18) s) :
    P (i4*2^27+(i3+1)*2^18) (destroyDirectory pd s) := by
  apply hfree _ _ _ _ ⟨[i4,i3],?_,hw⟩
  · have hloop := iterate_rule (fun i s =>
        let e := entry s.ram pd i
        if !has e ptePresent then s else
        if has e pteHuge then s else destroyTable (pteFrame e) s)
      (fun i s => P (i4*2^27+i3*2^18+i*2^9) s) 0 512 s (by simpa using h) (by
        intro i t _ hi ht
        have hu : UserPath [i4,i3,i] := path_of_indices i4 i3 i 0 h4 h3 (by omega) (by omega) ▸
          path_user _ (by unfold userPages; omega)
        simp only [has_present, has_huge, hram _ _ ht]
        cases hb : bit (entry s0.ram pd i) 0 with
        | false =>
          apply hskip _ _ t ht (by omega) (by unfold userPages; omega)
          intro u h1 h2
          apply absent_below s0.ram a u [i4,i3,i] []
          · rw [show u = i4*2^27+i3*2^18+i*2^9+(u-(i4*2^27+i3*2^18+i*2^9)) by omega]
            exact path_of_indices i4 i3 i _ h4 h3 (by omega) (by omega)
          · rw [show [i4,i3,i] = [i4,i3]++[i] from rfl, walk_snoc, hw]
            simp [child, hb]
        | true =>
          have hb7 := hS.plain a ha [i4,i3] i pd (by simp) hu hw hb
          simp only [hb7, Bool.false_eq_true, if_false]
          apply destroy_table_rule s0 a P hram hskip hpage hfree h4 h3 (by omega) _ ht
          rw [show [i4,i3,i] = [i4,i3]++[i] from rfl, walk_snoc, hw]
          simp [child, hb])
    rw [show i4*2^27+(i3+1)*2^18 = i4*2^27+i3*2^18+(0+512)*2^9 by omega]
    exact hloop
  · have hu : UserPath [i4,i3,0] := path_of_indices i4 i3 0 0 h4 h3 (by omega) (by omega) ▸
      path_user _ (by unfold userPages; omega)
    exact user_path_closed _ _ ⟨[0],rfl⟩ hu

theorem destroy_pointers_rule {i4 pdpt : ℕ} (h4 : i4 < 256)
    (hw : walk (child s0.ram) a [i4] = some pdpt) {s : Mem} (h : P (i4*2^27) s) :
    P ((i4+1)*2^27) (destroyPointers pdpt s) := by
  apply hfree _ _ _ _ ⟨[i4],?_,hw⟩
  · have hloop := iterate_rule (fun i s =>
        let e := entry s.ram pdpt i
        if !has e ptePresent then s else
        if has e pteHuge then s else destroyDirectory (pteFrame e) s)
      (fun i s => P (i4*2^27+i*2^18) s) 0 512 s (by simpa using h) (by
        intro i t _ hi ht
        have hu3 : UserPath [i4,i,0] := path_of_indices i4 i 0 0 h4 (by omega) (by omega) (by omega) ▸
          path_user _ (by unfold userPages; omega)
        have hu : UserPath [i4,i] := user_path_closed _ _ ⟨[0],rfl⟩ hu3
        simp only [has_present, has_huge, hram _ _ ht]
        cases hb : bit (entry s0.ram pdpt i) 0 with
        | false =>
          apply hskip _ _ t ht (by omega) (by unfold userPages; omega)
          intro u h1 h2
          apply absent_below s0.ram a u [i4,i] [u/2^9 % 512]
          · simp only [path, List.cons_append, List.nil_append, List.cons.injEq, and_true]
            omega
          · rw [show [i4,i] = [i4]++[i] from rfl, walk_snoc, hw]
            simp [child, hb]
        | true =>
          have hb7 := hS.plain a ha [i4] i pdpt (by simp) hu hw hb
          simp only [hb7, Bool.not_true, Bool.false_eq_true, if_false]
          apply destroy_directory_rule s0 hS a ha P hram hskip hpage hfree h4 (by omega) _ ht
          rw [show [i4,i] = [i4]++[i] from rfl, walk_snoc, hw]
          simp [child, hb])
    rw [show (i4+1)*2^27 = i4*2^27+(0+512)*2^18 by omega]
    exact hloop
  · have hu : UserPath [i4,0,0] := path_of_indices i4 0 0 0 h4 (by omega) (by omega) (by omega) ▸
      path_user _ (by unfold userPages; omega)
    exact user_path_closed _ _ ⟨[0,0],rfl⟩ hu

theorem destroy_rule (h : P 0 s0) : ∃ s, P userPages s ∧
    userVmDestroyAddressSpace s0 a = { s with spaces := s.spaces.erase a } := by
  unfold userVmDestroyAddressSpace
  have hloop := iterate_rule (fun i s =>
      let e := entry s.ram a i
      if !has e ptePresent then s else destroyPointers (pteFrame e) s)
    (fun i s => P (i*2^27) s) 0 256 s0 (by simpa using h) (by
      intro i t _ hi ht
      simp only [has_present, hram _ _ ht]
      cases hb : bit (entry s0.ram a i) 0 with
      | false =>
        apply hskip _ _ t ht (by omega) (by unfold userPages; omega)
        intro u h1 h2
        apply absent_below s0.ram a u [i] [u/2^18 % 512,u/2^9 % 512]
        · simp only [path, List.cons_append, List.nil_append, List.cons.injEq, and_true]
          omega
        · simp [walk, child, hb]
      | true =>
        simp only [Bool.not_true, Bool.false_eq_true, if_false]
        apply destroy_pointers_rule s0 hS a ha P hram hskip hpage hfree (by omega) _ ht
        simp [walk, child, hb])
  generalize iterate _ 0 256 s0 = s1 at hloop ⊢
  exact ⟨pmmFreePage s1 a,hfree _ _ _ hloop ⟨[],⟨by simp,by simp,by simp⟩,rfl⟩,rfl⟩

end rule

/-- Pages below the limit belong to the kernel and are never given back. -/
def KernelPage (s : Mem) (f : ℕ) : Prop := s.kernelPageLimit ≠ 0 ∧ f < s.kernelPageLimit

instance (s : Mem) (f : ℕ) : Decidable (KernelPage s f) := by
  unfold KernelPage
  infer_instance

variable (s : Mem)

theorem unref_counts (f g : ℕ) (hf : f < s.totalPages) :
    (pmmPageUnref s f).pageRefcount g =
      if g = f then s.pageRefcount f-1 else s.pageRefcount g := by
  unfold pmmPageUnref releasePage
  by_cases h0 : 0 < s.pageRefcount f
  · rw [if_pos ⟨hf,h0⟩]
    dsimp only
    by_cases hg : g = f
    · split_ifs <;> simp [hg]
    · split_ifs <;> simp [hg]
  · rw [if_neg (fun h => h0 h.2)]
    split_ifs with hg
    · rw [hg]
      omega
    · rfl

theorem unref_bitmap (f g : ℕ) (hf : f < s.totalPages) :
    (pmmPageUnref s f).bitmap g =
      if g = f ∧ s.pageRefcount f = 1 ∧ ¬KernelPage s f then false else s.bitmap g := by
  unfold pmmPageUnref releasePage KernelPage
  by_cases h0 : 0 < s.pageRefcount f
  · rw [if_pos ⟨hf,h0⟩]
    by_cases h1 : s.pageRefcount f = 1
    · by_cases hk : s.kernelPageLimit ≠ 0 ∧ f < s.kernelPageLimit
      · simp [hk]
      · by_cases hg : g = f
        · simp [h1, hk, hg]
        · simp [h1, hk, hg]
    · rw [if_neg (by omega), if_neg (fun h => h1 h.2.1)]
  · rw [if_neg (fun h => h0 h.2), if_neg (fun h => by omega)]

theorem release_mapping_counts (f g : ℕ) (hf : f < s.totalPages) :
    (releaseMapping s f).pageRefcount g =
      if g = f then s.pageRefcount f-1 else s.pageRefcount g := by
  obtain ⟨m,hrm⟩ := rmap_set_shape s f 0 0
  unfold releaseMapping rmapClear
  rw [hrm]
  exact unref_counts { s with rmapTable := m } f g hf

theorem release_mapping_bitmap (f g : ℕ) (hf : f < s.totalPages) :
    (releaseMapping s f).bitmap g =
      if g = f ∧ s.pageRefcount f = 1 ∧ ¬KernelPage s f then false else s.bitmap g := by
  obtain ⟨m,hrm⟩ := rmap_set_shape s f 0 0
  unfold releaseMapping rmapClear
  rw [hrm]
  exact unref_bitmap { s with rmapTable := m } f g hf

theorem release_mapping_rmap (f g : ℕ) :
    (releaseMapping s f).rmapTable g =
      if g = f ∧ f < rmapMaxPages then ⟨0,0⟩ else s.rmapTable g := by
  obtain ⟨b,r,n,h⟩ := unref_shape (rmapClear s f) f
  unfold releaseMapping
  rw [h]
  unfold rmapClear rmapSet
  by_cases hf : f < rmapMaxPages
  · by_cases hg : g = f
    · simp [hf, hg]
    · simp [hf, hg]
  · simp [hf]

theorem free_page_other {t g : ℕ} (h : g ≠ t) :
    (pmmFreePage s t).pageRefcount g = s.pageRefcount g ∧
      (pmmFreePage s t).bitmap g = s.bitmap g := by
  unfold pmmFreePage releasePage
  split_ifs <;> simp [h]

theorem free_page_rmap (t : ℕ) : (pmmFreePage s t).rmapTable = s.rmapTable := by
  obtain ⟨b,r,n,h⟩ := free_page_shape s t
  rw [h]

/-- The walk after the pages below `n`, against the state it began in. -/
structure Released (s0 : Mem) (a n : ℕ) (s : Mem) : Prop where
  shape : ∃ b r k m, s =
    { s0 with bitmap := b, pageRefcount := r, freePages := k, rmapTable := m }
  counts : ∀ v < userPages, bit (view s0.ram a v) 0 = true →
    s.pageRefcount (pteFrame (view s0.ram a v)) =
      if v < n then s0.pageRefcount (pteFrame (view s0.ram a v))-1
      else s0.pageRefcount (pteFrame (view s0.ram a v))
  bitmap : ∀ v < userPages, bit (view s0.ram a v) 0 = true →
    s.bitmap (pteFrame (view s0.ram a v)) =
      if v < n ∧ s0.pageRefcount (pteFrame (view s0.ram a v)) = 1 ∧
        ¬KernelPage s0 (pteFrame (view s0.ram a v)) then false
      else s0.bitmap (pteFrame (view s0.ram a v))
  rmap : ∀ v < userPages, bit (view s0.ram a v) 0 = true →
    s.rmapTable (pteFrame (view s0.ram a v)) =
      if v < n ∧ pteFrame (view s0.ram a v) < rmapMaxPages then ⟨0,0⟩
      else s0.rmapTable (pteFrame (view s0.ram a v))
  rest : ∀ g, (∀ v < userPages, bit (view s0.ram a v) 0 = true →
    pteFrame (view s0.ram a v) ≠ g) → s.rmapTable g = s0.rmapTable g ∧
      (¬TableOf s0.ram a g → s.pageRefcount g = s0.pageRefcount g ∧ s.bitmap g = s0.bitmap g)
  kernel : ∀ g, KernelPage s0 g → s.bitmap g = s0.bitmap g

theorem free_page_kernel (t g : ℕ) (h : KernelPage s g) : (pmmFreePage s t).bitmap g = s.bitmap g := by
  by_cases hg : g = t
  · subst hg
    have h' : s.kernelPageLimit ≠ 0 ∧ g < s.kernelPageLimit := h
    unfold pmmFreePage
    split_ifs <;> rfl
  · exact (free_page_other s hg).2

theorem released_skip {s0 : Mem} {a n m : ℕ} {s : Mem} (h : Released s0 a n s) (hnm : n ≤ m)
    (hskip : ∀ w, n ≤ w → w < m → bit (view s0.ram a w) 0 = false) : Released s0 a m s := by
  have hlt : ∀ w, bit (view s0.ram a w) 0 = true → (w < m ↔ w < n) := by
    intro w hw
    by_contra hc
    rw [hskip w (by omega) (by omega)] at hw
    cases hw
  refine ⟨h.shape,?_,?_,?_,h.rest,h.kernel⟩
  · intro v hv hp
    simp only [hlt v hp]
    exact h.counts v hv hp
  · intro v hv hp
    simp only [hlt v hp]
    exact h.bitmap v hv hp
  · intro v hv hp
    simp only [hlt v hp]
    exact h.rmap v hv hp

section spec
variable (s0 : Mem) (hS : Struct s0) (a : ℕ) (ha : a ∈ s0.spaces)

include hS ha

theorem released_page {v : ℕ} {s : Mem} (hv : v < userPages) (h : Released s0 a v s)
    (hp : bit (view s0.ram a v) 0 = true) :
    Released s0 a (v+1) (releaseMapping s (pteFrame (view s0.ram a v))) := by
  obtain ⟨b,r,k,m,hs⟩ := h.shape
  have htotal : s.totalPages = s0.totalPages := by rw [hs]
  have hbound : pteFrame (view s0.ram a v) < s.totalPages := by
    rw [htotal]
    exact (hS.frames a ha v hv hp).1
  have hkernel : ∀ f, KernelPage s f ↔ KernelPage s0 f := by
    intro f
    unfold KernelPage
    rw [hs]
  have hinj : ∀ w < userPages, bit (view s0.ram a w) 0 = true →
      (pteFrame (view s0.ram a w) = pteFrame (view s0.ram a v) ↔ w = v) := by
    intro w hw hwp
    exact ⟨hS.place a ha a ha w hw v hv hwp hp,fun h => by rw [h]⟩
  have hcv := h.counts v hv hp
  have hstep : ∀ w, w ≠ v → (w < v+1 ↔ w < v) := fun w hw => by omega
  refine ⟨?_,?_,?_,?_,?_,?_⟩
  · obtain ⟨b',r',k',h'⟩ := unref_shape (rmapClear s (pteFrame (view s0.ram a v)))
      (pteFrame (view s0.ram a v))
    obtain ⟨m',hm'⟩ := rmap_set_shape s (pteFrame (view s0.ram a v)) 0 0
    refine ⟨b',r',k',m',?_⟩
    rw [releaseMapping, h', rmapClear, hm', hs]
  · intro w hw hwp
    rw [release_mapping_counts s _ _ hbound, h.counts w hw hwp, hcv]
    simp only [hinj w hw hwp]
    by_cases hwv : w = v
    · simp [hwv]
    · simp only [hwv, if_false, hstep w hwv]
  · intro w hw hwp
    rw [release_mapping_bitmap s _ _ hbound, h.bitmap w hw hwp, hcv]
    simp only [hinj w hw hwp, hkernel]
    by_cases hwv : w = v
    · simp [hwv]
    · simp only [hwv, false_and, if_false, hstep w hwv]
  · intro w hw hwp
    rw [release_mapping_rmap, h.rmap w hw hwp]
    simp only [hinj w hw hwp]
    by_cases hwv : w = v
    · simp [hwv]
    · simp only [hwv, false_and, if_false, hstep w hwv]
  · intro g hg
    have hgv : g ≠ pteFrame (view s0.ram a v) := fun h => hg v hv hp h.symm
    rw [release_mapping_rmap, release_mapping_counts s _ _ hbound,
      release_mapping_bitmap s _ _ hbound, if_neg (fun h => hgv h.1), if_neg hgv,
      if_neg (fun h => hgv h.1)]
    exact h.rest g hg
  · intro g hg
    rw [release_mapping_bitmap s _ _ hbound, if_neg, h.kernel g hg]
    rintro ⟨rfl,-,hk⟩
    exact hk ((hkernel _).mpr hg)

theorem released_table {n : ℕ} {s : Mem} {t : ℕ} (h : Released s0 a n s)
    (ht : TableOf s0.ram a t) : Released s0 a n (pmmFreePage s t) := by
  have htab : Table s0 t := by
    obtain ⟨p,hp,hw⟩ := ht
    exact ⟨a,p,ha,hp,hw⟩
  have hne : ∀ v < userPages, bit (view s0.ram a v) 0 = true →
      pteFrame (view s0.ram a v) ≠ t := by
    rintro v hv hp rfl
    exact (hS.frames a ha v hv hp).2.2 htab
  have hrm := free_page_rmap s t
  refine ⟨?_,?_,?_,?_,?_,?_⟩
  · obtain ⟨b,r,k,m,hs⟩ := h.shape
    obtain ⟨b',r',k',h'⟩ := free_page_shape s t
    exact ⟨b',r',k',m,by rw [h', hs]⟩
  · intro v hv hp
    rw [(free_page_other s (hne v hv hp)).1]
    exact h.counts v hv hp
  · intro v hv hp
    rw [(free_page_other s (hne v hv hp)).2]
    exact h.bitmap v hv hp
  · intro v hv hp
    rw [hrm]
    exact h.rmap v hv hp
  · intro g hg
    obtain ⟨h1,h2⟩ := h.rest g hg
    refine ⟨by rw [hrm]; exact h1,?_⟩
    intro hgt
    have hgt' : g ≠ t := by
      rintro rfl
      exact hgt ht
    rw [(free_page_other s hgt').1, (free_page_other s hgt').2]
    exact h2 hgt
  · intro g hg
    obtain ⟨b,r,k,m,hs⟩ := h.shape
    rw [free_page_kernel s t g (by rw [hs]; exact hg), h.kernel g hg]

theorem destroy_spec : ∃ s, Released s0 a userPages s ∧
    userVmDestroyAddressSpace s0 a = { s with spaces := s.spaces.erase a } := by
  have hbit : ∀ v, bit (leaf s0.ram a v) 0 = bit (view s0.ram a v) 0 := fun v =>
    (view_bit _ _ _ _ (by omega) (by omega)).symm
  apply destroy_rule s0 hS a ha (Released s0 a)
  · intro n s h
    obtain ⟨b,r,k,m,hs⟩ := h.shape
    rw [hs]
  · intro v w s h hvw hw hskip
    apply released_skip h hvw
    intro u h1 h2
    rw [← hbit]
    exact hskip u h1 h2
  · intro v s hv h hp
    rw [← view_frame]
    exact released_page s0 hS a ha hv h (by rw [← hbit]; exact hp)
  · exact fun n s t h ht => released_table s0 hS a ha h ht
  · refine ⟨⟨_,_,_,_,rfl⟩,?_,?_,?_,fun _ _ => ⟨rfl,fun _ => ⟨rfl,rfl⟩⟩,fun _ _ => rfl⟩
    · intro v _ _
      simp
    · intro v _ _
      simp
    · intro v _ _
      simp

def NotLast : Prop := ∀ v < userPages, bit (view s0.ram a v) 0 = true → ∀ b ∈ s0.spaces, b ≠ a →
  bit (view s0.ram b v) 0 = true →
  pteFrame (view s0.ram b v) = pteFrame (view s0.ram a v) →
  s0.pageRefcount (pteFrame (view s0.ram a v)) ≠ 1

theorem destroy_keeps (hshare : NotLast s0 a) {s : Mem} (h : Released s0 a userPages s) (g : ℕ)
    (hg : s0.bitmap g = true)
    (huse : (∃ b ∈ s0.spaces, b ≠ a ∧ ∃ p, UserPath p ∧ walk (child s0.ram) b p = some g) ∨
      (∃ b ∈ s0.spaces, b ≠ a ∧ ∃ v < userPages, bit (view s0.ram b v) 0 = true ∧
        pteFrame (view s0.ram b v) = g)) : s.bitmap g = true := by
  by_cases hmap : ∀ v < userPages, bit (view s0.ram a v) 0 = true → pteFrame (view s0.ram a v) ≠ g
  · rw [((h.rest g hmap).2 _).2, hg]
    rintro ⟨p,hp,hw⟩
    rcases huse with ⟨b,hb,hne,q,hq,hw'⟩ | ⟨b,hb,hne,v,hv,hvp,rfl⟩
    · exact hne (hS.forest b a q p g hb ha hq hp hw' hw).1
    · exact (hS.frames b hb v hv hvp).2.2 ⟨a,p,ha,hp,hw⟩
  · push Not at hmap
    obtain ⟨v,hv,hp,rfl⟩ := hmap
    rcases huse with ⟨b,hb,hne,q,hq,hw'⟩ | ⟨b,hb,hne,w,hw,hwp,hf⟩
    · exact absurd ⟨b,q,hb,hq,hw'⟩ (hS.frames a ha v hv hp).2.2
    · have hwv := hS.place b hb a ha w hw v hv hwp hp hf
      subst hwv
      rw [h.bitmap w hv hp, if_neg (fun hc => hshare w hv hp b hb hne hwp hf hc.2.1), hg]

theorem struct_destroy (hshare : NotLast s0 a) : Struct (userVmDestroyAddressSpace s0 a) := by
  obtain ⟨s,h,heq⟩ := destroy_spec s0 hS a ha
  have hkeep := destroy_keeps s0 hS a ha hshare h
  obtain ⟨b,r,k,m,hs⟩ := h.shape
  have hsp : (userVmDestroyAddressSpace s0 a).spaces = s0.spaces.erase a := by rw [heq, hs]
  have hram : (userVmDestroyAddressSpace s0 a).ram = s0.ram := by rw [heq, hs]
  have htotal : (userVmDestroyAddressSpace s0 a).totalPages = s0.totalPages := by rw [heq, hs]
  have hbm : (userVmDestroyAddressSpace s0 a).bitmap = s.bitmap := by rw [heq]
  have hmem : ∀ b, b ∈ (userVmDestroyAddressSpace s0 a).spaces → b ∈ s0.spaces ∧ b ≠ a := by
    intro b hb
    rw [hsp, hS.nodup.mem_erase_iff] at hb
    exact ⟨hb.2,hb.1⟩
  have htab : ∀ t, Table (userVmDestroyAddressSpace s0 a) t → Table s0 t := by
    rintro t ⟨b,p,hb,hp,ht⟩
    rw [hram] at ht
    exact ⟨b,p,(hmem b hb).1,hp,ht⟩
  refine ⟨by rw [htotal]; exact hS.pages,?_,?_,?_,?_,?_,?_,?_,?_,?_⟩
  · rw [hbm, h.kernel 0 ⟨Nat.pos_iff_ne_zero.mp hS.kernel,hS.kernel⟩]
    exact hS.zero
  · rw [heq, hs]
    exact hS.kernel
  · rw [hsp]
    exact hS.nodup.erase a
  · rw [hram]
    intro b b' q q' u hb hb'
    exact hS.forest b b' q q' u (hmem b hb).1 (hmem b' hb').1
  · rw [hram]
    exact fun b hb => hS.plain b (hmem b hb).1
  · intro t ht
    rw [htotal, hbm]
    have h0 := hS.tables t (htab t ht)
    refine ⟨h0.1,hkeep t h0.2 (Or.inl ?_)⟩
    obtain ⟨b,p,hb,hp,hw⟩ := ht
    rw [hram] at hw
    exact ⟨b,(hmem b hb).1,(hmem b hb).2,p,hp,hw⟩
  · rw [hram, htotal, hbm]
    intro b hb v hv hp
    obtain ⟨h1,h2,h3⟩ := hS.frames b (hmem b hb).1 v hv hp
    exact ⟨h1,hkeep _ h2 (Or.inr ⟨b,(hmem b hb).1,(hmem b hb).2,v,hv,hp,rfl⟩),
      fun ht => h3 (htab _ ht)⟩
  · rw [hram]
    intro b hb b' hb' v hv w hw
    exact hS.place b (hmem b hb).1 b' (hmem b' hb').1 v hv w hw
  · intro f
    rw [heq]
    by_cases hmap : ∀ v < userPages, bit (view s0.ram a v) 0 = true →
        pteFrame (view s0.ram a v) ≠ f
    · rw [(h.rest f hmap).1]
      exact hS.low f
    · push Not at hmap
      obtain ⟨v,hv,hp,rfl⟩ := hmap
      rw [h.rmap v hv hp]
      split_ifs
      · norm_num
      · exact hS.low _

end spec

end HobbyOS.DestroySpace

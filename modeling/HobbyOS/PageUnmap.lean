import HobbyOS.CowInvariant
import HobbyOS.Mmap

/-!
# One leaf changes

A page gets an entry or loses it, and the owners of its frames move by one.
One iteration of the inner loop of `vma_unmap` clears the entry, and the
frame loses a reference, the last of which gives the frame back.
-/

namespace HobbyOS.PageUnmap
open PageEntry PhysMem Process
  Mmap AddressSpace TableGrowth PageAlloc ForkSpace
  CowFork CowFault DestroySpace CowInvariant

theorem maps_used (s : Mem) (hS : Struct s) (v f b : ℕ) (hb : b ∈ s.spaces) (hv : v < userPages)
    (h : maps s.ram v f b = true) : f < s.totalPages ∧ s.bitmap f = true ∧ ¬Table s f := by
  obtain ⟨h0,rfl⟩ := (maps_iff _ _ _ _).mp h
  exact hS.frames b hb v hv h0

theorem maps_place {s : Mem} (hS : Struct s) {v w f a b : ℕ} (ha : a ∈ s.spaces)
    (hb : b ∈ s.spaces) (hv : v < userPages) (hw : w < userPages) (h1 : maps s.ram v f a = true)
    (h2 : maps s.ram w f b = true) : v = w := by
  obtain ⟨p1,f1⟩ := (maps_iff _ _ _ _).mp h1
  obtain ⟨p2,f2⟩ := (maps_iff _ _ _ _).mp h2
  exact hS.place a ha b hb v hv w hw p1 p2 (f1.trans f2.symm)

theorem struct_release {s s' : Mem} {f : ℕ} (hS : Struct s) (h1 : s'.totalPages = s.totalPages)
    (hk : s'.kernelPageLimit = s.kernelPageLimit) (h3 : s'.spaces = s.spaces)
    (h4 : s'.ram = s.ram) (h0 : s'.bitmap 0 = true)
    (hb : ∀ g, g ≠ f → s.bitmap g = true → s'.bitmap g = true) (hft : ¬Table s f)
    (hfm : ∀ b ∈ s.spaces, ∀ w < userPages, maps s.ram w f b = false)
    (h5 : ∀ g, (s'.rmapTable g).virtAddr < 2^47) : Struct s' := by
  have htab : Table s' = Table s := by
    unfold AddressSpace.Table
    rw [h3, h4]
  have hne : ∀ b ∈ s.spaces, ∀ w < userPages, bit (view s.ram b w) 0 = true →
      pteFrame (view s.ram b w) ≠ f := by
    intro b hb w hw hp hf
    have := hfm b hb w hw
    rw [(maps_iff _ _ _ _).mpr ⟨hp,hf⟩] at this
    cases this
  constructor
  · rw [h1]; exact hS.pages
  · exact h0
  · rw [hk]; exact hS.kernel
  · rw [h3]; exact hS.nodup
  · rw [h3, h4]; exact hS.forest
  · rw [h3, h4]; exact hS.plain
  · intro t ht
    rw [htab] at ht
    have htf : t ≠ f := by
      rintro rfl
      exact hft ht
    rw [h1]
    exact ⟨(hS.tables t ht).1,hb t htf (hS.tables t ht).2⟩
  · rw [htab, h1, h3, h4]
    intro b hb' w hw hp
    obtain ⟨g1,g2,g3⟩ := hS.frames b hb' w hw hp
    exact ⟨g1,hb _ (hne b hb' w hw hp) g2,g3⟩
  · rw [h3, h4]; exact hS.place
  · exact h5

/-- A data frame with a reference to spare, mapped at page `v` or nowhere. -/
structure Reserved (v f : ℕ) (s : Mem) : Prop where
  bound : f < s.totalPages
  used : s.bitmap f = true
  apart : ¬Table s f
  spare : owners s v f < s.pageRefcount f
  place : ∀ b ∈ s.spaces, ∀ w < userPages, maps s.ram w f b = true → w = v

theorem owners_set {s s' : Mem} {a v : ℕ} (hnd : s.spaces.Nodup) (ha : a ∈ s.spaces)
    (hsp : s'.spaces = s.spaces)
    (h : ∀ b ∈ s.spaces, ∀ w < userPages, ¬(b = a ∧ w = v) → view s'.ram b w = view s.ram b w)
    (w g : ℕ) (hw : w < userPages) :
    owners s' w g + (if maps s.ram w g a then 1 else 0) =
      owners s w g + if maps s'.ram w g a then 1 else 0 := by
  rw [owners_split w g ha, owners_split w g (by rw [hsp]; exact ha), hsp]
  have hrest : (s.spaces.erase a).countP (maps s'.ram w g) =
      (s.spaces.erase a).countP (maps s.ram w g) := by
    apply List.countP_congr
    intro b hb
    obtain ⟨hba,hbm⟩ := hnd.mem_erase_iff.mp hb
    rw [maps, maps, h b hbm w hw (fun hc => hba hc.1)]
  omega

/-- The page `v` of space `a` now has the entry `e`, and nothing else moved. -/
structure Mapped (s s' : Mem) (a v : ℕ) (e : Pte) : Prop where
  struct : Struct s'
  same : SameWalks s s'
  limit : s'.kernelPageLimit = s.kernelPageLimit
  log : s'.evictions = s.evictions
  bitmap : s'.bitmap = s.bitmap
  counts : s'.pageRefcount = s.pageRefcount
  slots : s'.swapSlots = s.swapSlots
  area : s'.swapArea = s.swapArea
  own : view s'.ram a v = e &&& ~~~pteAccessed
  others : ∀ b ∈ s.spaces, ∀ w < userPages, ¬(b = a ∧ w = v) → view s'.ram b w = view s.ram b w
  data : ∀ g, ¬Table s g → s'.ram g = s.ram g

theorem mapped_leaf {s : Mem} (hS : Struct s) {a v t : ℕ} {e : Pte} (m : ℕ → RmapEntry)
    (ha : a ∈ s.spaces) (hv : v < userPages) (ht : leafTable s.ram a v = some t)
    (hr : Reserved v (pteFrame e) s) (hm : ∀ g, (m g).virtAddr < 2^47) :
    Mapped s { s with ram := setEntry s.ram t (v % 512) e, rmapTable := m } a v e := by
  have hview := set_leaf_view s hS a v t ha hv ht e
  have hset := struct_set_leaf s hS a v t ha hv ht e (fun _ => ⟨hr.bound,hr.used,hr.apart⟩)
    (fun _ b hb w hw h0 hf => hr.place b hb w hw ((maps_iff _ _ _ _).mpr ⟨h0,hf⟩))
  refine ⟨struct_congr hset rfl rfl rfl rfl rfl hm,⟨rfl,rfl,?_⟩,rfl,rfl,rfl,rfl,rfl,rfl,?_,?_,?_⟩
  · exact fun b hb q hq => set_leaf_walk s hS.trees a v t ha hv ht e b q hb hq
  · have := hview a v ha hv
    rw [if_pos ⟨rfl,rfl⟩] at this
    exact this
  · intro b hb w hw hne
    have := hview b w hb hw
    rw [if_neg hne] at this
    exact this
  · intro g hg
    have hgt : g ≠ t := by
      rintro rfl
      exact hg (leaf_table_table s ha hv ht)
    exact set_entry_frame _ _ _ _ _ hgt

structure Dropped (s s' : Mem) (a v f : ℕ) : Prop where
  struct : Struct s'
  spaces : s'.spaces = s.spaces
  limit : s'.kernelPageLimit = s.kernelPageLimit
  rmap : s'.rmapTable = s.rmapTable
  log : s'.evictions = s.evictions
  own : bit (view s'.ram a v) 0 = false
  others : ∀ b ∈ s.spaces, ∀ w < userPages, ¬(b = a ∧ w = v) → view s'.ram b w = view s.ram b w
  counts : ∀ g, s'.pageRefcount g = if g = f then s.pageRefcount f-1 else s.pageRefcount g
  bits : ∀ g, s'.bitmap g =
    if g = f ∧ s.pageRefcount f = 1 ∧ ¬KernelPage s f then false else s.bitmap g
  owners : ∀ w < userPages, ∀ g, owners s' w g =
    if w = v ∧ g = f then owners s v f-1 else owners s w g

section
variable (s : Mem) (a v u f : ℕ) (hS : Struct s) (ha : a ∈ s.spaces) (hv : v < userPages)
  (hu : leafTable s.ram a v = some u) (hm : maps s.ram v f a = true)
include hS ha hv hm

omit hu in
theorem dropped_owners {x : Mem} (hsp : x.spaces = s.spaces)
    (hown : bit (view x.ram a v) 0 = false)
    (hother : ∀ b ∈ s.spaces, ∀ w < userPages, ¬(b = a ∧ w = v) → view x.ram b w = view s.ram b w)
    (w : ℕ) (hw : w < userPages) (g : ℕ) :
    owners x w g = if w = v ∧ g = f then owners s v f-1 else owners s w g := by
  have hgone : maps x.ram v g a = false := by rw [maps, hown, Bool.false_and]
  have hmove := owners_set hS.nodup ha hsp hother w g hw
  by_cases hwv : w = v
  · subst hwv
    rw [hgone] at hmove
    by_cases hg : g = f
    · subst hg
      rw [hm] at hmove
      simp only [if_true, Bool.false_eq_true, if_false] at hmove
      rw [if_pos ⟨rfl,rfl⟩]
      omega
    · have h0 : maps s.ram w g a = false := by
        rw [Bool.eq_false_iff]
        intro hc
        exact hg (((maps_iff _ _ _ _).mp hc).2.symm.trans ((maps_iff _ _ _ _).mp hm).2)
      rw [h0] at hmove
      rw [if_neg (fun hc => hg hc.2)]
      omega
  · rw [maps, maps, hother a ha w hw (fun hc => hwv hc.2)] at hmove
    rw [if_neg (fun hc => hwv hc.1)]
    omega

include hu

theorem dropped_leaf (hle : owners s v f ≤ s.pageRefcount f) :
    Dropped s { pmmPageUnref s f with ram := setEntry s.ram u (v % 512) 0#64 } a v f := by
  obtain ⟨hf1,hf2,hf3⟩ := maps_used s hS v f a ha hv hm
  have hset := struct_set_leaf s hS a v u ha hv hu 0#64 (fun hb => by simp at hb)
    (fun hb => by simp at hb)
  have hview := set_leaf_view s hS a v u ha hv hu 0#64
  have hrc := fun g => unref_counts s f g hf1
  have hbm := fun g => unref_bitmap s f g hf1
  obtain ⟨b',r',k',hs'⟩ := unref_shape s f
  rw [hs'] at hrc hbm ⊢
  generalize hx : ({ s with
    bitmap := b', pageRefcount := r', freePages := k'
    ram := setEntry s.ram u (v % 512) 0#64 } : Mem) = x
  have hsp : x.spaces = s.spaces := by rw [← hx]
  have hown : bit (view x.ram a v) 0 = false := by
    rw [← hx, hview a v ha hv, if_pos ⟨rfl,rfl⟩]
    simp
  have hother : ∀ b ∈ s.spaces, ∀ w < userPages, ¬(b = a ∧ w = v) →
      view x.ram b w = view s.ram b w := by
    intro b hb w hw hne
    rw [← hx, hview b w hb hw, if_neg hne]
  have howners := dropped_owners s a v f hS ha hv hm hsp hown hother
  have hbits : ∀ g, x.bitmap g =
      if g = f ∧ s.pageRefcount f = 1 ∧ ¬KernelPage s f then false else s.bitmap g := by
    rw [← hx]
    exact hbm
  have hlast : s.pageRefcount f = 1 → ∀ b ∈ s.spaces, ∀ w < userPages,
      maps (setEntry s.ram u (v % 512) 0#64) w f b = false := by
    intro h1 b hb w hw
    rw [Bool.eq_false_iff]
    intro hmb
    have hpos := owners_pos (by rw [hsp]; exact hb) (by rw [← hx]; exact hmb)
    rw [howners w hw f] at hpos
    split_ifs at hpos with hc
    · omega
    · have hwv : w ≠ v := fun hh => hc ⟨hh,rfl⟩
      obtain ⟨b2,hb2,hm2⟩ := List.countP_pos_iff.mp hpos
      exact hwv (maps_place hS hb2 ha hw hv hm2 hm)
  have hlow : ∀ g, (x.rmapTable g).virtAddr < 2^47 := by
    rw [← hx]
    exact hS.low
  have hstruct : Struct x := by
    by_cases h1 : s.pageRefcount f = 1
    · apply struct_release hset
      · rw [← hx]
      · rw [← hx]
      · rw [← hx]
      · rw [← hx]
      · rw [hbits 0, if_neg]
        · exact hS.zero
        · rintro ⟨h0,-,hk⟩
          apply hk
          rw [← h0]
          exact ⟨Nat.pos_iff_ne_zero.mp hS.kernel,hS.kernel⟩
      · intro g hg hgb
        rw [hbits g, if_neg (fun hc => hg hc.1)]
        exact hgb
      · exact fun ht => hf3 ((set_leaf_tables s hS ha hv hu _ f).mp ht)
      · exact hlast h1
      · exact hlow
    · apply struct_congr hset
      · rw [← hx]
      · funext g
        rw [hbits g, if_neg (fun hc => h1 hc.2.1)]
      · rw [← hx]
      · rw [← hx]
      · rw [← hx]
      · exact hlow
  refine ⟨hstruct,hsp,by rw [← hx],by rw [← hx],by rw [← hx],hown,hother,?_,hbits,howners⟩
  rw [← hx]
  exact hrc

end

theorem unmap_page_cases {s : Mem} {a virt : ℕ} (hS : Struct s) (ha : a ∈ s.spaces)
    (hva : virt < 2^47)
    (hle : ∀ f, maps s.ram (virt/4096) f a = true →
      owners s (virt/4096) f ≤ s.pageRefcount f) :
    (unmapPage a virt s = s ∧ bit (view s.ram a (virt/4096)) 0 = false) ∨
      ∃ f, maps s.ram (virt/4096) f a = true ∧
        Dropped s (unmapPage a virt s) a (virt/4096) f := by
  unfold unmapPage
  rw [get_pte s hS.trees ha hva]
  cases hu : leafTable s.ram a (virt/4096) with
  | none =>
    refine Or.inl ⟨rfl,?_⟩
    rw [view_bit _ _ _ _ (by omega) (by omega), leaf, hu]
    simp
  | some u =>
    have hleaf := leaf_of_table s.ram hu
    simp only [Option.map_some, has_present]
    split_ifs with h0
    · refine Or.inl ⟨rfl,?_⟩
      rw [view_bit _ _ _ _ (by omega) (by omega), hleaf, h0]
    · have hm : maps s.ram (virt/4096) (pteFrame (entry s.ram u (virt/4096 % 512))) a = true := by
        rw [maps_iff, view_bit _ _ _ _ (by omega) (by omega), view_frame, hleaf]
        exact ⟨by simpa using h0,rfl⟩
      exact Or.inr ⟨_,hm,dropped_leaf s a _ u _ hS ha (page_bound hva) hu hm (hle _ hm)⟩

end HobbyOS.PageUnmap

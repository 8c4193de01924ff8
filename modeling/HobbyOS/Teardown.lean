import HobbyOS.DestroySpace
import HobbyOS.PageMapping

/-!
# Building an address space up and tearing it down

Every frame taken for a new address space is one of its tables or the frame
of one of its pages, and nothing else is. The destroying walk is a list of
releases read off the tables, and that list names exactly these frames.
-/

namespace HobbyOS.Teardown
open RadixTree BoundedLoop PageEntry PhysMem UserVm AddressSpace
  TableGrowth ForkSpace DestroySpace PageCount PageMapping Function

inductive Release where
  | page (f : ℕ)
  | table (t : ℕ)

def Release.frame : Release → ℕ
  | .page f => f
  | .table t => t

def release (s : Mem) : Release → Mem
  | .page f => releaseMapping s f
  | .table t => pmmFreePage s t

def tableReleases (r : Ram) (pt : ℕ) : List Release :=
  (List.range' 0 512).flatMap (fun i =>
    if bit (entry r pt i) 0 then [.page (pteFrame (entry r pt i))] else []) ++ [.table pt]

def innerReleases (r : Ram) (below : ℕ → List Release) (t : ℕ) : List Release :=
  (List.range' 0 512).flatMap (fun i =>
    if bit (entry r t i) 0 && !bit (entry r t i) 7 then below (pteFrame (entry r t i)) else []) ++
    [.table t]

def spaceReleases (r : Ram) (a : ℕ) : List Release :=
  (List.range' 0 256).flatMap (fun i =>
    if bit (entry r a i) 0 then
      innerReleases r (innerReleases r (tableReleases r)) (pteFrame (entry r a i)) else []) ++
    [.table a]

theorem release_ram (s : Mem) (e : Release) : (release s e).ram = s.ram := by
  cases e with
  | page f => simp [release, releaseMapping, rmapClear]
  | table t =>
    obtain ⟨b,r,n,h⟩ := free_page_shape s t
    rw [release, h]

section walk
variable (r : Ram)

theorem release_keeps (s : Mem) (e : Release) (h : s.ram = r) : (release s e).ram = r :=
  (release_ram s e).trans h

theorem destroy_table_releases (pt : ℕ) (s : Mem) (hs : s.ram = r) :
    destroyTable pt s = (tableReleases r pt).foldl release s := by
  rw [destroyTable, tableReleases, List.foldl_append]
  rw [iterate_events _ (fun i => if bit (entry r pt i) 0 then [.page (pteFrame (entry r pt i))] else [])
    release (·.ram = r) (release_keeps r) _ 0 512 s hs]
  · rfl
  · intro i s hs
    simp only [hs, has_present]
    cases bit (entry r pt i) 0 <;> rfl

theorem inner_releases (destroy : ℕ → Mem → Mem) (below : ℕ → List Release)
    (hd : ∀ t s, s.ram = r → destroy t s = (below t).foldl release s) (t : ℕ) (s : Mem)
    (hs : s.ram = r) :
    pmmFreePage (iterate (fun i s =>
      let e := entry s.ram t i
      if !has e ptePresent then s else
      if has e pteHuge then s else destroy (pteFrame e) s) 0 512 s) t =
        (innerReleases r below t).foldl release s := by
  rw [innerReleases, List.foldl_append]
  rw [iterate_events _ (fun i => if bit (entry r t i) 0 && !bit (entry r t i) 7 then
      below (pteFrame (entry r t i)) else []) release (·.ram = r) (release_keeps r) _ 0 512 s hs]
  · rfl
  · intro i s hs
    simp only [hs, has_present, has_huge]
    cases bit (entry r t i) 0 with
    | false => rfl
    | true =>
      cases bit (entry r t i) 7 with
      | false => exact hd _ s hs
      | true => rfl

theorem destroy_releases (s : Mem) (a : ℕ) : ∃ sp, userVmDestroyAddressSpace s a =
    { (spaceReleases s.ram a).foldl release s with spaces := sp } := by
  have htable := destroy_table_releases s.ram
  have hdir : ∀ t s', s'.ram = s.ram → destroyDirectory t s' =
      (innerReleases s.ram (tableReleases s.ram) t).foldl release s' :=
    inner_releases s.ram destroyTable _ htable
  have hptr : ∀ t s', s'.ram = s.ram → destroyPointers t s' =
      (innerReleases s.ram (innerReleases s.ram (tableReleases s.ram)) t).foldl release s' :=
    inner_releases s.ram destroyDirectory _ hdir
  have hloop := iterate_events (fun i s =>
      let e := entry s.ram a i
      if !has e ptePresent then s else destroyPointers (pteFrame e) s)
    (fun i => if bit (entry s.ram a i) 0 then
      innerReleases s.ram (innerReleases s.ram (tableReleases s.ram)) (pteFrame (entry s.ram a i))
      else []) release (·.ram = s.ram) (release_keeps s.ram) (by
        intro i s' hs
        simp only [hs, has_present]
        cases bit (entry s.ram a i) 0 with
        | false => rfl
        | true =>
          simp only [Bool.not_true, Bool.false_eq_true, if_false]
          exact hptr _ s' hs) 0 256 s rfl
  rw [spaceReleases, List.foldl_append, ← hloop]
  unfold userVmDestroyAddressSpace
  generalize iterate _ 0 256 s = s1
  exact ⟨_,rfl⟩

end walk

/-- A table below the root, or the frame of one of its pages. -/
def Owned (r : Ram) (a g : ℕ) : Prop :=
  TableOf r a g ∨ ∃ v < userPages, bit (leaf r a v) 0 = true ∧ pteFrame (leaf r a v) = g

section owned
variable (r : Ram) (a : ℕ)

theorem mem_table_releases {i4 i3 i2 pt : ℕ} (h4 : i4 < 256) (h3 : i3 < 512) (h2 : i2 < 512)
    (hw : walk (child r) a [i4,i3,i2] = some pt) (e : Release) (he : e ∈ tableReleases r pt) :
    Owned r a e.frame := by
  have hu : UserPath [i4,i3,i2] := path_of_indices i4 i3 i2 0 h4 h3 h2 (by omega) ▸
    path_user _ (by unfold userPages; omega)
  simp only [tableReleases, List.mem_append, List.mem_flatMap, List.mem_range'_1,
    List.mem_singleton] at he
  rcases he with ⟨i,hi,he⟩ | rfl
  · split_ifs at he with hb
    · rw [List.mem_singleton] at he
      subst he
      have hleaf : leaf r a (i4*2^27+i3*2^18+i2*2^9+i) = entry r pt i := by
        rw [leaf, leafTable, path_of_indices i4 i3 i2 i h4 h3 h2 (by omega), hw,
          show (i4*2^27+i3*2^18+i2*2^9+i) % 512 = i by omega]
      exact Or.inr ⟨i4*2^27+i3*2^18+i2*2^9+i,by unfold userPages; omega,by rw [hleaf]; exact hb,
        by rw [hleaf]; rfl⟩
    · simp at he
  · exact Or.inl ⟨_,hu,hw⟩

theorem mem_inner_releases (below : ℕ → List Release) {p : List ℕ} {t : ℕ}
    (hp : UserPath p) (hw : walk (child r) a p = some t)
    (hbelow : ∀ i < 512, ∀ u, walk (child r) a (p++[i]) = some u →
      ∀ e ∈ below u, Owned r a e.frame)
    {e : Release} (he : e ∈ innerReleases r below t) : Owned r a e.frame := by
  simp only [innerReleases, List.mem_append, List.mem_flatMap, List.mem_range'_1,
    List.mem_singleton] at he
  rcases he with ⟨i,hi,he⟩ | rfl
  · split_ifs at he with hb
    · refine hbelow i (by omega) _ ?_ e he
      rw [walk_snoc, hw]
      simp only [Bool.and_eq_true] at hb
      simp [child, hb.1]
    · simp at he
  · exact Or.inl ⟨p,hp,hw⟩

theorem mem_space_releases {e : Release} (he : e ∈ spaceReleases r a) : Owned r a e.frame := by
  have hup : ∀ i4 i3, i4 < 256 → i3 < 512 → UserPath [i4,i3,0] := fun i4 i3 h4 h3 =>
    path_of_indices i4 i3 0 0 h4 h3 (by omega) (by omega) ▸ path_user _ (by unfold userPages; omega)
  simp only [spaceReleases, List.mem_append, List.mem_flatMap, List.mem_range'_1,
    List.mem_singleton] at he
  rcases he with ⟨i4,h4,he⟩ | rfl
  · split_ifs at he with hb
    · have hw : walk (child r) a [i4] = some (pteFrame (entry r a i4)) := by
        simp [walk, child, hb]
      refine mem_inner_releases r a _
        (user_path_closed _ _ ⟨[0,0],rfl⟩ (hup i4 0 (by omega) (by omega))) hw ?_ he
      intro i3 h3 pd hpd e he
      refine mem_inner_releases r a _
        (user_path_closed _ _ ⟨[0],rfl⟩ (hup i4 i3 (by omega) h3)) hpd ?_ he
      intro i2 h2 pt hpt
      exact mem_table_releases r a (by omega) h3 h2 hpt
    · simp at he
  · exact Or.inl ⟨[],⟨by simp,by simp,by simp⟩,rfl⟩

theorem inner_below (below : ℕ → List Release) {t i u : ℕ} {e : Release} (hi : i < 512)
    (hu : child r t i = some u) (h7 : bit (entry r t i) 0 = true → bit (entry r t i) 7 = false)
    (he : e ∈ below u) : e ∈ innerReleases r below t := by
  unfold child at hu
  split_ifs at hu with hb
  · cases hu
    apply List.mem_append_left
    refine List.mem_flatMap.mpr ⟨i,by simp [hi],?_⟩
    simpa [hb, h7 hb] using he

theorem inner_self (below : ℕ → List Release) (t : ℕ) : .table t ∈ innerReleases r below t :=
  List.mem_append_right _ (List.mem_singleton_self _)

theorem table_self (t : ℕ) : .table t ∈ tableReleases r t :=
  List.mem_append_right _ (List.mem_singleton_self _)

theorem space_below {i u : ℕ} {e : Release} (hi : i < 256) (hu : child r a i = some u)
    (he : e ∈ innerReleases r (innerReleases r (tableReleases r)) u) : e ∈ spaceReleases r a := by
  unfold child at hu
  split_ifs at hu with hb
  · cases hu
    apply List.mem_append_left
    refine List.mem_flatMap.mpr ⟨i,by simp [hi],?_⟩
    rw [if_pos hb]
    exact he

theorem owned_named {s : Mem} (hT : Trees s (· = a)) {g : ℕ} (h : Owned s.ram a g) :
    ∃ e ∈ spaceReleases s.ram a, e.frame = g := by
  -- a table sits at the end of its path, a page one index below a path of three
  have hpath : ∀ i4 i3 i2 pt, UserPath [i4,i3,i2] → walk (child s.ram) a [i4,i3,i2] = some pt →
      ∀ e ∈ tableReleases s.ram pt, e ∈ spaceReleases s.ram a := by
    intro i4 i3 i2 pt hp hw e he
    have hb := hp.2.1
    have h4 := hp.2.2 i4 (by simp)
    simp only [walk, Option.bind_eq_some_iff, Option.some.injEq] at hw
    obtain ⟨u4,hu4,u3,hu3,u2,hu2,rfl⟩ := hw
    have w4 : walk (child s.ram) a [i4] = some u4 := by simp [walk, hu4]
    have w3 : walk (child s.ram) a [i4,i3] = some u3 := by simp [walk, hu4, hu3]
    refine space_below s.ram a h4 hu4 (inner_below s.ram _
      (hb i3 (by simp)) hu3 ?_ (inner_below s.ram _ (hb i2 (by simp)) hu2 ?_ he))
    · exact hT.plain a rfl [i4] i3 u4 (by simp) (user_path_closed _ _ ⟨[i2],rfl⟩ hp) w4
    · exact hT.plain a rfl [i4,i3] i2 u3 (by simp) hp w3
  rcases h with ⟨p,hp,hw⟩ | ⟨v,hv,hb,rfl⟩
  · refine ⟨.table g,?_,rfl⟩
    rcases p with _ | ⟨i4,_ | ⟨i3,_ | ⟨i2,_ | ⟨i1,p⟩⟩⟩⟩
    · cases hw
      exact List.mem_append_right _ (List.mem_singleton_self _)
    · simp only [walk, Option.bind_eq_some_iff, Option.some.injEq] at hw
      obtain ⟨u4,hu4,rfl⟩ := hw
      exact space_below s.ram a (hp.2.2 i4 (by simp)) hu4 (inner_self s.ram _ u4)
    · simp only [walk, Option.bind_eq_some_iff, Option.some.injEq] at hw
      obtain ⟨u4,hu4,u3,hu3,rfl⟩ := hw
      refine space_below s.ram a (hp.2.2 i4 (by simp)) hu4
        (inner_below s.ram _ (hp.2.1 i3 (by simp)) hu3 ?_ (inner_self s.ram _ u3))
      exact hT.plain a rfl [i4] i3 u4 (by simp) hp (by simp [walk, hu4])
    · exact hpath i4 i3 i2 g hp hw _ (table_self s.ram g)
    · have := hp.1
      simp only [List.length_cons] at this
      omega
  · obtain ⟨t,ht⟩ : ∃ t, leafTable s.ram a v = some t := by
      cases ht : leafTable s.ram a v with
      | none => simp [leaf, ht] at hb
      | some t => exact ⟨t,rfl⟩
    have hleaf := leaf_of_table s.ram ht
    rw [hleaf] at hb ⊢
    refine ⟨.page _,hpath _ _ _ t (path_user v hv) ht _ ?_,rfl⟩
    apply List.mem_append_left
    refine List.mem_flatMap.mpr ⟨v % 512,by simp [Nat.mod_lt],?_⟩
    rw [if_pos hb]
    exact List.mem_singleton_self _

end owned

/-- A frame that may be released: below the limit nothing is, and one
release must be the last. -/
structure Last (s : Mem) (f : ℕ) : Prop where
  zero : f ≠ 0
  managed : f < s.totalPages
  above : s.kernelPageLimit ≤ f
  once : s.bitmap f = true → s.pageRefcount f = 1

theorem release_last (s : Mem) (e : Release) (hP : Pmm s) (h : Last s e.frame) :
    Pmm (release s e) ∧ (release s e).totalPages = s.totalPages ∧
      (release s e).kernelPageLimit = s.kernelPageLimit ∧
      (release s e).bitmap = update s.bitmap e.frame false ∧
      ∀ g, g ≠ e.frame → (release s e).pageRefcount g = s.pageRefcount g := by
  have hk : ¬KernelPage s e.frame := fun hk => by have := h.above; have := hk.2; omega
  cases e with
  | page f =>
    change Last s f at h
    change ¬KernelPage s f at hk
    obtain ⟨m,hm⟩ := rmap_set_shape s f 0 0
    have hP' : Pmm (rmapClear s f) := by
      rw [rmapClear, hm]
      exact pmm_congr hP rfl rfl rfl rfl rfl rfl
    have hstep := (step_pmm booting (rmapClear s f) (.unref f) hP' h.zero).1
    obtain ⟨b,r,n,hshape⟩ := unref_shape (rmapClear s f) f
    refine ⟨hstep,?_,?_,?_,?_⟩
    · simp [release, releaseMapping, rmapClear]
    · rw [release, releaseMapping, hshape, rmapClear, hm]
    · funext g
      rw [release, release_mapping_bitmap s f g h.managed]
      by_cases hg : g = f
      · subst hg
        cases hb : s.bitmap g with
        | false => simp [Release.frame]
        | true => simp [Release.frame, h.once hb, hk]
      · simp [hg, Release.frame]
    · intro g hg
      rw [release, release_mapping_counts s f g h.managed]
      exact if_neg hg
  | table t =>
    change Last s t at h
    have hstep := (step_pmm booting s (.free t) hP h.zero).1
    obtain ⟨b,r,n,hshape⟩ := free_page_shape s t
    refine ⟨hstep,by rw [release, hshape],by rw [release, hshape],?_,?_⟩
    · funext g
      by_cases hg : g = t
      · subst hg
        rw [Release.frame, release, pmmFreePage]
        cases hb : s.bitmap g with
        | false => simp [hb]
        | true =>
          have hk' : ¬(s.kernelPageLimit ≠ 0 ∧ g < s.kernelPageLimit) := hk
          simp [h.managed, releasePage, hk']
      · rw [Release.frame, update_of_ne hg, release, (free_page_other s hg).2]
    · intro g hg
      exact (free_page_other s hg).1

theorem releases_last (es : List Release) (s : Mem) (hP : Pmm s)
    (h : ∀ e ∈ es, Last s e.frame) :
    Pmm (es.foldl release s) ∧ (es.foldl release s).totalPages = s.totalPages ∧
      (es.foldl release s).ram = s.ram ∧
      ∀ g, ((∃ e ∈ es, e.frame = g) → (es.foldl release s).bitmap g = false) ∧
        ((¬∃ e ∈ es, e.frame = g) → (es.foldl release s).bitmap g = s.bitmap g ∧
          (es.foldl release s).pageRefcount g = s.pageRefcount g) := by
  induction es generalizing s with
  | nil => exact ⟨hP,rfl,rfl,fun g => ⟨by simp,fun _ => ⟨rfl,rfl⟩⟩⟩
  | cons e es ih =>
    obtain ⟨hP1,ht1,hl1,hb1,hr1⟩ := release_last s e hP (h e (by simp))
    have hlast : ∀ e' ∈ es, Last (release s e) e'.frame := by
      intro e' he'
      obtain ⟨h0,hm,ha,ho⟩ := h e' (by simp [he'])
      refine ⟨h0,by rw [ht1]; exact hm,by rw [hl1]; exact ha,?_⟩
      intro hbit
      by_cases hf : e'.frame = e.frame
      · rw [hb1, hf, update_self] at hbit
        cases hbit
      · rw [hb1, update_of_ne hf] at hbit
        rw [hr1 _ hf]
        exact ho hbit
    obtain ⟨hP2,ht2,hram,hg⟩ := ih (release s e) hP1 hlast
    refine ⟨hP2,ht2.trans ht1,hram.trans (release_ram s e),?_⟩
    intro g
    by_cases hin : ∃ e' ∈ es, e'.frame = g
    · exact ⟨fun _ => (hg g).1 hin,fun hn => absurd (by obtain ⟨e',h1,h2⟩ := hin; exact ⟨e',by simp [h1],h2⟩) hn⟩
    · obtain ⟨h1,h2⟩ := (hg g).2 hin
      rw [List.foldl_cons, h1, h2]
      by_cases hf : g = e.frame
      · subst hf
        exact ⟨fun _ => by rw [hb1, update_self],fun hn => absurd ⟨e,by simp,rfl⟩ hn⟩
      · refine ⟨?_,fun _ => ⟨by rw [hb1, update_of_ne hf],hr1 g hf⟩⟩
        rintro ⟨e',he',rfl⟩
        rcases List.mem_cons.mp he' with rfl | he'
        · exact absurd rfl hf
        · exact absurd ⟨e',he',rfl⟩ hin

def Since (s0 s : Mem) (g : ℕ) : Prop :=
  g < s0.totalPages ∧ s0.bitmap g = false ∧ s.bitmap g = true

/-- A space under construction: what was taken since `s0` is owned by the
space or held by the caller, once each, and the rest is as it was. -/
structure Built (s0 : Mem) (a : ℕ) (held : Option ℕ) (s : Mem) : Prop where
  pmm : Pmm s
  trees : Trees s (· = a)
  total : s.totalPages = s0.totalPages
  limit : s.kernelPageLimit = s0.kernelPageLimit
  kept : ∀ g, s0.bitmap g = true ∨ s0.totalPages ≤ g → s.bitmap g = s0.bitmap g ∧
    s.pageRefcount g = s0.pageRefcount g ∧ s.ram g = s0.ram g
  books : ∀ g, Since s0 s g ↔ Owned s.ram a g ∨ g ∈ held
  ones : ∀ g, Since s0 s g → s.pageRefcount g = 1
  apart : ∀ g ∈ held, ¬Owned s.ram a g

theorem owned_congr (r r' : Ram) (a g : ℕ)
    (hw : ∀ q, UserPath q → walk (child r') a q = walk (child r) a q)
    (hl : ∀ v < userPages, leaf r' a v = leaf r a v) : Owned r' a g ↔ Owned r a g := by
  apply or_congr
  · exact exists_congr (fun q => and_congr_right (fun hq => by rw [hw q hq]))
  · exact exists_congr (fun v => and_congr_right (fun hv => by rw [hl v hv]))

section built
variable (s0 : Mem) (a : ℕ) (held : Option ℕ) (s : Mem)

theorem built_ram (hB : Built s0 a held s) (r : Ram)
    (hT : Trees { s with ram := r } (· = a)) (ho : ∀ g, Owned r a g ↔ Owned s.ram a g)
    (hr : ∀ g, r g ≠ s.ram g → Since s0 s g) : Built s0 a held { s with ram := r } := by
  refine ⟨pmm_congr hB.pmm rfl rfl rfl rfl rfl rfl,hT,hB.total,hB.limit,?_,?_,hB.ones,?_⟩
  · intro g hg
    obtain ⟨h1,h2,h3⟩ := hB.kept g hg
    refine ⟨h1,h2,?_⟩
    by_contra hne
    obtain ⟨hlt,hfree,-⟩ := hr g (by rw [h3]; exact hne)
    rcases hg with hg | hg
    · rw [hg] at hfree
      cases hfree
    · omega
  · intro g
    rw [ho g]
    exact hB.books g
  · intro g hg
    rw [ho g]
    exact hB.apart g hg

theorem owned_since (hB : Built s0 a held s) {g : ℕ} (h : Owned s.ram a g) : Since s0 s g :=
  (hB.books g).mpr (Or.inl h)

theorem free_before (hB : Built s0 a held s) {n : ℕ} (hlt : n < s.totalPages)
    (hn : s.bitmap n = false) : n < s0.totalPages ∧ s0.bitmap n = false := by
  refine ⟨hB.total ▸ hlt,?_⟩
  by_contra hb
  have hb' : s0.bitmap n = true := by simpa using hb
  rw [(hB.kept n (Or.inl hb')).1, hb'] at hn
  cases hn

theorem since_taken (hB : Built s0 a held s) {n : ℕ} (hlt : n < s.totalPages)
    (hn : s.bitmap n = false) (g : ℕ) : Since s0 (taken s n) g ↔ Since s0 s g ∨ g = n := by
  have h0 := free_before s0 a held s hB hlt hn
  unfold Since
  by_cases hg : g = n
  · subst hg
    simp [taken, h0]
  · simp [taken, hg]

theorem kept_taken (hB : Built s0 a held s) {n : ℕ} (hlt : n < s.totalPages)
    (hn : s.bitmap n = false) : Pmm (taken s n) ∧
      (∀ g, s0.bitmap g = true ∨ s0.totalPages ≤ g → (taken s n).bitmap g = s0.bitmap g ∧
        (taken s n).pageRefcount g = s0.pageRefcount g ∧ g ≠ n) ∧
      ∀ g, Since s0 (taken s n) g → (taken s n).pageRefcount g = 1 := by
  have h0 := free_before s0 a held s hB hlt hn
  have hn0 : n ≠ 0 := by rintro rfl; rw [hB.pmm.zero] at hn; cases hn
  refine ⟨pmm_taken s hB.pmm hn0 hlt hn,?_,?_⟩
  · intro g hg
    have hgn : g ≠ n := by
      rintro rfl
      rcases hg with hg | hg
      · rw [h0.2] at hg
        cases hg
      · omega
    obtain ⟨h1,h2,-⟩ := hB.kept g hg
    simp [taken, h1, h2, hgn]
  · intro g hg
    rw [since_taken s0 a held s hB hlt hn] at hg
    by_cases hgn : g = n
    · simp [taken, hgn]
    · have := hB.ones g (hg.resolve_right hgn)
      simp [taken, update_of_ne hgn, this]

theorem built_take (hB : Built s0 a none s) {n : ℕ} (hlt : n < s.totalPages)
    (hn : s.bitmap n = false) : Built s0 a (some n) (taken s n) := by
  obtain ⟨hP,hk,hone⟩ := kept_taken s0 a none s hB hlt hn
  have hs := since_taken s0 a none s hB hlt hn
  refine ⟨hP,⟨hB.trees.pages,hB.trees.forest,hB.trees.plain,?_⟩,hB.total,hB.limit,?_,?_,hone,?_⟩
  · intro t ht
    obtain ⟨h1,h2⟩ := hB.trees.tables t ht
    exact ⟨h1,by simp [taken, update_apply, h2]⟩
  · intro g hg
    exact ⟨(hk g hg).1,(hk g hg).2.1,(hB.kept g hg).2.2⟩
  · intro g
    rw [hs g, hB.books g]
    simp only [Option.mem_def, reduceCtorEq, or_false, Option.some.injEq, eq_comm]
    rfl
  · rintro g ⟨⟩ ho
    have := (owned_since s0 a none s hB ho).2.2
    rw [hn] at this
    cases this

theorem built_level (hB : Built s0 a held s) {s' : Mem} (h : Level a s s') :
    Built s0 a held s' := by
  have hL := level_trees a h hB.trees
  cases h with
  | spent h0 =>
    rw [hB.pmm.zero] at h0
    cases h0
  | touch p i t hp ht h0 =>
    have hpp := user_path_closed _ _ (List.prefix_append p [i]) hp
    apply built_ram s0 a held s hB _ hL.1
    · intro g
      apply owned_congr _ _ a g _ hL.2
      intro q hq
      rw [touch_child s i t _ (by simp) (touched_frame _)]
    · intro g hg
      have hgt : g = t := by
        by_contra hne
        exact hg (set_entry_frame _ _ _ _ _ hne)
      rw [hgt]
      exact owned_since s0 a held s hB (Or.inl ⟨p,hpp,ht⟩)
  | attach p i t n hp ht h0 hn hlt =>
    have hpp := user_path_closed _ _ (List.prefix_append p [i]) hp
    obtain ⟨hP,hk,hone⟩ := kept_taken s0 a held s hB hlt hn
    have hs := since_taken s0 a held s hB hlt hn
    have hw := attach_walk s hB.trees a i t n p rfl hp ht h0 hn hlt a
    have ho : ∀ g, Owned (attached s i t n).ram a g ↔ Owned s.ram a g ∨ g = n := by
      intro g
      constructor
      · rintro (⟨q,hq,hqw⟩ | ⟨v,hv,hb,hf⟩)
        · rw [hw q rfl hq] at hqw
          split_ifs at hqw
          · cases hqw
            exact Or.inr rfl
          · exact Or.inl (Or.inl ⟨q,hq,hqw⟩)
        · rw [hL.2 v hv] at hb hf
          exact Or.inl (Or.inr ⟨v,hv,hb,hf⟩)
      · rintro ((⟨q,hq,hqw⟩ | ⟨v,hv,hb,hf⟩) | rfl)
        · refine Or.inl ⟨q,hq,?_⟩
          rw [hw q rfl hq, if_neg, hqw]
          rintro ⟨-,rfl⟩
          rw [walk_snoc, ht] at hqw
          simp [child, h0] at hqw
        · exact Or.inr ⟨v,hv,by rw [hL.2 v hv]; exact hb,by rw [hL.2 v hv]; exact hf⟩
        · exact Or.inl ⟨_,hp,by rw [hw _ rfl hp, if_pos ⟨rfl,rfl⟩]⟩
    have hsince : ∀ g, Since s0 (attached s i t n) g ↔ Since s0 (taken s n) g := fun _ => Iff.rfl
    refine ⟨pmm_congr hP rfl rfl rfl rfl rfl rfl,hL.1,
      hB.total,hB.limit,?_,?_,hone,?_⟩
    · intro g hg
      obtain ⟨h1,h2,hgn⟩ := hk g hg
      refine ⟨h1,h2,?_⟩
      have hgt : g ≠ t := by
        rintro rfl
        obtain ⟨hlt',hfree,-⟩ := owned_since s0 a held s hB (Or.inl ⟨p,hpp,ht⟩)
        rcases hg with hg | hg
        · rw [hg] at hfree
          cases hfree
        · omega
      rw [← (hB.kept g hg).2.2]
      change setEntry (zeroPage s.ram n) t i (tableEntry n) g = s.ram g
      rw [set_entry_frame _ _ _ _ _ hgt, zeroPage, update_of_ne hgn]
    · intro g
      rw [hsince, hs g, hB.books g, ho g]
      tauto
    · intro g hg hog
      rcases (ho g).mp hog with h1 | rfl
      · exact hB.apart g hg h1
      · have := ((hB.books g).mpr (Or.inr hg)).2.2
        rw [hn] at this
        cases this

theorem built_levels (hB : Built s0 a held s) {s' : Mem} (h : Levels a s s') :
    Built s0 a held s' := by
  induction h with
  | refl => exact hB
  | tail _ hstep ih => exact built_level s0 a held _ ih hstep

theorem built_fill {f : ℕ} (hB : Built s0 a (some f) s) (x : ByteStore.Store) :
    Built s0 a (some f) { s with ram := update s.ram f x } ∧
      ∀ v < userPages, leaf (update s.ram f x) a v = leaf s.ram a v := by
  have hnt : ¬Owned s.ram a f := hB.apart f rfl
  obtain ⟨hT,hw,hl⟩ := trees_same s hB.trees (update s.ram f x) (by
    rintro t ⟨_,q,rfl,hq,ht⟩
    rw [update_of_ne]
    rintro rfl
    exact hnt (Or.inl ⟨q,hq,ht⟩))
  refine ⟨built_ram s0 a _ s hB _ hT (fun g => owned_congr _ _ a g (hw a · rfl) (hl a · rfl)) ?_,
    fun v => hl a v rfl⟩
  intro g hg
  have hgf : g = f := by
    by_contra hne
    exact hg (update_of_ne hne _ _)
  exact (hB.books g).mpr (Or.inr (by rw [hgf]; rfl))

theorem built_leaf {f : ℕ} (hB : Built s0 a (some f) s) {v t : ℕ} (hv : v < userPages)
    (ht : leafTable s.ram a v = some t) (habs : bit (leaf s.ram a v) 0 = false) {e : Pte}
    (he : bit e 0 = true) (hf : pteFrame e = f) :
    Built s0 a none { s with ram := setEntry s.ram t (v % 512) e } := by
  have hT := trees_set_leaf s hB.trees a v t rfl hv ht e
  have hw := set_leaf_walk s hB.trees a v t rfl hv ht e a
  have hl := set_leaf s hB.trees a v t rfl hv ht e a
  have ho : ∀ g, Owned (setEntry s.ram t (v % 512) e) a g ↔ Owned s.ram a g ∨ g = f := by
    intro g
    constructor
    · rintro (⟨q,hq,hqw⟩ | ⟨u,hu,hb,hg⟩)
      · exact Or.inl (Or.inl ⟨q,hq,by rw [← hw q rfl hq]; exact hqw⟩)
      · rw [hl u rfl hu] at hb hg
        split_ifs at hb hg
        · exact Or.inr (hg.symm.trans hf)
        · exact Or.inl (Or.inr ⟨u,hu,hb,hg⟩)
    · rintro ((⟨q,hq,hqw⟩ | ⟨u,hu,hb,hg⟩) | rfl)
      · exact Or.inl ⟨q,hq,by rw [hw q rfl hq]; exact hqw⟩
      · have hne : ¬(a = a ∧ u = v) := by
          rintro ⟨-,rfl⟩
          rw [habs] at hb
          cases hb
        exact Or.inr ⟨u,hu,by rw [hl u rfl hu, if_neg hne]; exact hb,
          by rw [hl u rfl hu, if_neg hne]; exact hg⟩
      · exact Or.inr ⟨v,hv,by rw [hl v rfl hv, if_pos ⟨rfl,rfl⟩]; exact he,
          by rw [hl v rfl hv, if_pos ⟨rfl,rfl⟩]; exact hf⟩
  have htab := owned_since s0 a _ s hB (Or.inl ⟨path v,path_user v hv,ht⟩)
  refine ⟨pmm_congr hB.pmm rfl rfl rfl rfl rfl rfl,hT,hB.total,hB.limit,?_,?_,hB.ones,by simp⟩
  · intro g hg
    obtain ⟨h1,h2,h3⟩ := hB.kept g hg
    refine ⟨h1,h2,?_⟩
    have hgt : g ≠ t := by
      rintro rfl
      rcases hg with hg | hg
      · rw [htab.2.1] at hg
        cases hg
      · have := htab.1
        omega
    rw [← h3]
    exact set_entry_frame _ _ _ _ _ hgt
  · intro g
    have hb := hB.books g
    have hs : Since s0 { s with ram := setEntry s.ram t (v % 512) e } g ↔ Since s0 s g := Iff.rfl
    rw [hs, hb, ho g]
    simp [eq_comm]

theorem built_drop {f : ℕ} (hB : Built s0 a (some f) s) (h0 : Pmm s0) :
    Built s0 a none (pmmFreePage s f) ∧ (pmmFreePage s f).ram = s.ram := by
  have hs : Since s0 s f := (hB.books f).mpr (Or.inr rfl)
  have hlast : Last s f := by
    refine ⟨?_,by rw [hB.total]; exact hs.1,?_,fun _ => hB.ones f hs⟩
    · rintro rfl
      have := hs.2.1
      rw [h0.zero] at this
      cases this
    · rw [hB.limit]
      by_contra hlt
      have := h0.kernel f (by omega)
      rw [hs.2.1] at this
      cases this
  obtain ⟨hP,ht,hl,hb,hr⟩ := release_last s (.table f) hB.pmm hlast
  have hram := release_ram s (.table f)
  change (pmmFreePage s f).totalPages = _ at ht
  change (pmmFreePage s f).bitmap = update s.bitmap f false at hb
  change ∀ g, g ≠ f → (pmmFreePage s f).pageRefcount g = s.pageRefcount g at hr
  change (pmmFreePage s f).ram = s.ram at hram
  have hsince : ∀ g, Since s0 (pmmFreePage s f) g ↔ Since s0 s g ∧ g ≠ f := by
    intro g
    unfold Since
    rw [hb]
    by_cases hg : g = f
    · simp [hg]
    · simp [hg]
  refine ⟨⟨hP,?_,ht.trans hB.total,hl.trans hB.limit,?_,?_,?_,by simp⟩,hram⟩
  · refine ⟨by rw [ht]; exact hB.trees.pages,by rw [hram]; exact hB.trees.forest,
      by rw [hram]; exact hB.trees.plain,?_⟩
    rw [hram, ht, hb]
    rintro t ⟨_,q,rfl,hq,hqt⟩
    obtain ⟨h1,h2⟩ := hB.trees.tables t ⟨_,q,rfl,hq,hqt⟩
    refine ⟨h1,?_⟩
    rw [update_of_ne, h2]
    rintro rfl
    exact hB.apart t rfl (Or.inl ⟨q,hq,hqt⟩)
  · intro g hg
    have hgf : g ≠ f := by
      rintro rfl
      rcases hg with hg | hg
      · rw [hs.2.1] at hg
        cases hg
      · have := hs.1
        omega
    rw [hb, update_of_ne hgf, hr g hgf, hram]
    exact hB.kept g hg
  · intro g
    rw [hsince g, hB.books g, hram]
    simp only [Option.mem_def, Option.some.injEq, reduceCtorEq, or_false]
    constructor
    · rintro ⟨h1 | h1,h2⟩
      · exact h1
      · exact absurd h1.symm h2
    · intro h1
      refine ⟨Or.inl h1,?_⟩
      rintro rfl
      exact hB.apart g rfl h1
  · intro g hg
    obtain ⟨h1,h2⟩ := (hsince g).mp hg
    rw [hr g h2]
    exact hB.ones g h1

theorem built_rmap (hB : Built s0 a held s) (m : ℕ → RmapEntry) :
    Built s0 a held { s with rmapTable := m } :=
  ⟨pmm_congr hB.pmm rfl rfl rfl rfl rfl rfl,
    ⟨hB.trees.pages,hB.trees.forest,hB.trees.plain,hB.trees.tables⟩,
    hB.total,hB.limit,hB.kept,hB.books,hB.ones,hB.apart⟩

end built

theorem built_create {s0 : Mem} (h0 : Pmm s0) {n : ℕ} (hlt : n < s0.totalPages)
    (hn : s0.bitmap n = false) :
    Built s0 n none (withRoot (prepared s0 n) n) ∧
      ∀ v < userPages, bit (leaf (prepared s0 n).ram n v) 0 = false := by
  have hn0 : n ≠ 0 := by rintro rfl; rw [h0.zero] at hn; cases hn
  have hP := pmm_taken s0 h0 hn0 hlt hn
  have hT : Trees (withRoot (prepared s0 n) n) (· = n) := by
    have htotal := h0.counted.total
    refine bare_trees _ n (show s0.totalPages ≤ 2^40 by omega) hlt
      (by simp [withRoot, prepared, taken]) ?_
    intro i hi
    have := prepared_low s0 n i hi
    unfold child at this
    simpa [withRoot] using this
  have hwalk : ∀ q, UserPath q → walk (child (prepared s0 n).ram) n q =
      if q = [] then some n else none := fun q hq =>
    walk_new_root (child (prepared s0 n).ram) n user_path_closed
      (fun j hj => prepared_low s0 n j (hj.2.2 j (by simp))) hq
  have hleaf : ∀ v < userPages, bit (leaf (prepared s0 n).ram n v) 0 = false := by
    intro v hv
    rw [leaf, leafTable, hwalk _ (path_user v hv), if_neg (by simp [path])]
    simp
  have ho : ∀ g, Owned (prepared s0 n).ram n g ↔ g = n := by
    intro g
    constructor
    · rintro (⟨q,hq,hqw⟩ | ⟨v,hv,hb,-⟩)
      · rw [hwalk q hq] at hqw
        split_ifs at hqw
        cases hqw
        rfl
      · rw [hleaf v hv] at hb
        cases hb
    · rintro rfl
      exact Or.inl ⟨[],⟨by simp,by simp,by simp⟩,rfl⟩
  have hother : ∀ g, s0.bitmap g = true ∨ s0.totalPages ≤ g → g ≠ n := by
    rintro g hg rfl
    rcases hg with hg | hg
    · rw [hn] at hg
      cases hg
    · omega
  have hs : ∀ g, Since s0 (taken s0 n) g ↔ g = n := by
    intro g
    unfold Since
    by_cases hg : g = n
    · subst hg
      simp [taken, hlt, hn]
    · simp only [taken, update_of_ne hg, hg, iff_false]
      rintro ⟨-,h1,h2⟩
      rw [h1] at h2
      cases h2
  refine ⟨⟨pmm_congr hP rfl rfl rfl rfl rfl rfl,hT,
    rfl,rfl,?_,?_,?_,by simp⟩,hleaf⟩
  · intro g hg
    have hgn := hother g hg
    refine ⟨?_,?_,prepared_out s0 n g hgn⟩
    · exact update_of_ne hgn _ _
    · exact update_of_ne hgn _ _
  · intro g
    have h1 : Since s0 (withRoot (prepared s0 n) n) g ↔ Since s0 (taken s0 n) g := Iff.rfl
    have h2 : Owned (withRoot (prepared s0 n) n).ram n g ↔ Owned (prepared s0 n).ram n g := Iff.rfl
    rw [h1, h2, hs g, ho g]
    simp
  · intro g hg
    have hgn : g = n := (hs g).mp hg
    rw [hgn]
    exact update_self ..

structure Request where
  c : Ctx
  virt : ℕ
  flags : Pte
  fill : ByteStore.Store

def request (a : ℕ) (s : Mem) (q : Request) : Mem := (mapFresh q.c s a q.virt q.fill q.flags).1

def Request.page (q : Request) : ℕ := q.virt/4096

/-- A user address, and flags that leave the frame alone. -/
def Request.Valid (q : Request) : Prop := q.virt < 2^47 ∧ q.flags &&& pteAddrMask = 0#64

theorem built_map_fresh (s0 : Mem) (h0 : Pmm s0) (a : ℕ) (s : Mem) (q : Request)
    (hB : Built s0 a none s) (hq : q.Valid) (habs : bit (leaf s.ram a q.page) 0 = false) :
    Built s0 a none (request a s q) ∧
      ∀ w < userPages, w ≠ q.page → leaf (request a s q).ram a w = leaf s.ram a w := by
  obtain ⟨hva,hflags⟩ := hq
  have hpage : q.page < userPages := by unfold Request.page userPages; omega
  rcases alloc_cases q.c hB.pmm with ⟨he,-⟩ | ⟨n,hn0,hlt,hn,he⟩
  · rw [request, mapFresh, he]
    exact ⟨hB,fun w _ _ => rfl⟩
  · obtain ⟨f,rfl⟩ := Nat.exists_eq_succ_of_ne_zero hn0
    have hmap : request a s q = (mapFilled q.c (taken s (f+1)) a q.virt (f+1) q.fill q.flags).1 := by
      simp only [request, mapFresh, he]
    rw [hmap, mapFilled]
    obtain ⟨hB2,hl2⟩ := built_fill s0 a _ (built_take s0 a s hB hlt hn) q.fill
    generalize hs2 : ({ taken s (f+1) with
      ram := update (taken s (f+1)).ram (f+1) q.fill } : Mem) = s2 at hB2 ⊢
    have hl2' : ∀ w < userPages, leaf s2.ram a w = leaf s.ram a w := by rw [← hs2]; exact hl2
    rcases map_page_levels q.c (f+1) q.flags hB2.trees (Or.inl hB2.pmm.swap) hva with
      ⟨s1,hl,hm⟩ | ⟨s1,t,hl,ht,hm⟩
    · have hB1 := built_levels s0 a _ s2 hB2 hl
      obtain ⟨hB3,hram⟩ := built_drop s0 a s1 hB1 h0
      rw [hm]
      refine ⟨hB3,fun w hw _ => ?_⟩
      rw [hram, (levels_trees a s2 s1 hl hB2.trees).2 w hw, hl2' w hw]
    · have hB1 := built_levels s0 a _ s2 hB2 hl
      have hleaf := (levels_trees a s2 s1 hl hB2.trees).2
      have hf40 : f+1 < 2^40 := by
        have := hB.trees.pages
        omega
      have hB3 := built_leaf s0 a s1 hB1 hpage ht
        (by rw [hleaf _ hpage, hl2' _ hpage]; exact habs)
        (by simp [leafEntry]) (leaf_entry_parts (f+1) q.flags hf40 hflags).1
      obtain ⟨m,hrec⟩ := PageAlloc.record_mapping_rmap q.c { s1 with
        ram := setEntry s1.ram t (q.virt/4096 % 512) (leafEntry (f+1) q.flags) } q.virt (f+1)
      rw [hm, hrec]
      refine ⟨built_rmap s0 a none _ hB3 m,fun w hw hne => ?_⟩
      have hset := set_leaf s1 hB1.trees a q.page t rfl hpage ht (leafEntry (f+1) q.flags) a w rfl hw
      rw [if_neg (fun h => hne h.2)] at hset
      exact hset.trans ((hleaf w hw).trans (hl2' w hw))

theorem built_requests (s0 : Mem) (h0 : Pmm s0) (a : ℕ) (qs : List Request) (s : Mem)
    (hB : Built s0 a none s) (hq : ∀ q ∈ qs, q.Valid) (hnd : (qs.map Request.page).Nodup)
    (habs : ∀ q ∈ qs, bit (leaf s.ram a q.page) 0 = false) :
    Built s0 a none (qs.foldl (request a) s) := by
  induction qs generalizing s with
  | nil => exact hB
  | cons q qs ih =>
    rw [List.map_cons, List.nodup_cons] at hnd
    obtain ⟨hB1,hl⟩ := built_map_fresh s0 h0 a s q hB (hq q (by simp)) (habs q (by simp))
    refine ih (request a s q) hB1 (fun q' h' => hq q' (by simp [h'])) hnd.2 ?_
    intro q' h'
    have hpage : q'.page < userPages := by
      have := (hq q' (by simp [h'])).1
      unfold Request.page userPages
      omega
    rw [hl q'.page hpage (fun heq => hnd.1 (by rw [← heq]; exact List.mem_map_of_mem h'))]
    exact habs q' (by simp [h'])

theorem destroy_built {s0 : Mem} (h0 : Pmm s0) (a : ℕ) (s : Mem) (hB : Built s0 a none s) :
    (userVmDestroyAddressSpace s a).bitmap = s0.bitmap ∧
      (userVmDestroyAddressSpace s a).pageRefcount = s0.pageRefcount ∧
      (userVmDestroyAddressSpace s a).freePages = s0.freePages ∧
      ∀ g, s0.bitmap g = true ∨ s0.totalPages ≤ g →
        (userVmDestroyAddressSpace s a).ram g = s0.ram g := by
  have hnamed : ∀ g, (∃ e ∈ spaceReleases s.ram a, e.frame = g) ↔ Since s0 s g := by
    intro g
    rw [hB.books g]
    simp only [Option.mem_def, reduceCtorEq, or_false]
    constructor
    · rintro ⟨e,he,rfl⟩
      exact mem_space_releases s.ram a he
    · exact owned_named a hB.trees
  have hlast : ∀ e ∈ spaceReleases s.ram a, Last s e.frame := by
    intro e he
    have hs := (hnamed e.frame).mp ⟨e,he,rfl⟩
    refine ⟨?_,by rw [hB.total]; exact hs.1,?_,fun _ => hB.ones _ hs⟩
    · intro hz
      rw [hz] at hs
      have := hs.2.1
      rw [h0.zero] at this
      cases this
    · rw [hB.limit]
      by_contra hlt
      have := h0.kernel e.frame (by omega)
      rw [hs.2.1] at this
      cases this
  obtain ⟨sp,hd⟩ := destroy_releases s a
  obtain ⟨hP,htot,hram,hg⟩ := releases_last (spaceReleases s.ram a) s hB.pmm hlast
  simp only [hnamed] at hg
  rw [hd]
  generalize (spaceReleases s.ram a).foldl release s = s' at hP htot hram hg
  have htot0 : s'.totalPages = s0.totalPages := htot.trans hB.total
  have hbit : s'.bitmap = s0.bitmap := by
    funext g
    by_cases hs : Since s0 s g
    · rw [(hg g).1 hs, hs.2.1]
    · rw [((hg g).2 hs).1]
      by_cases hout : s0.bitmap g = true ∨ s0.totalPages ≤ g
      · exact (hB.kept g hout).1
      · push Not at hout
        have hfree : s0.bitmap g = false := by simpa using hout.1
        rw [hfree]
        by_contra hb
        exact hs ⟨hout.2,hfree,by simpa using hb⟩
  refine ⟨hbit,?_,?_,?_⟩
  · funext g
    by_cases hout : s0.bitmap g = true ∨ s0.totalPages ≤ g
    · have hs : ¬Since s0 s g := by
        rintro ⟨h1,h2,-⟩
        rcases hout with h | h
        · rw [h2] at h
          cases h
        · omega
      exact ((hg g).2 hs).2.trans (hB.kept g hout).2.1
    · push Not at hout
      have hfree : s0.bitmap g = false := by simpa using hout.1
      rw [hP.idle g (by rw [htot0]; exact hout.2) (by rw [hbit]; exact hfree),
        h0.idle g hout.2 hfree]
  · rw [hP.counted.count, h0.counted.count, hbit, htot0]
  · intro g hout
    rw [hram]
    exact (hB.kept g hout).2.2

def lifeOfSpace (c : Ctx) (s : Mem) (qs : List Request) : Mem :=
  match userVmCreateAddressSpace c s with
  | (s,0) => s
  | (s,a) => userVmDestroyAddressSpace (qs.foldl (request a) s) a

/-- Tearing an address space down returns everything it took, and no frame
in use before its creation, or outside the allocator, is written. -/
theorem teardown_returns (c : Ctx) (s : Mem) (qs : List Request) (hs : Pmm s)
    (hq : ∀ q ∈ qs, q.Valid) (hnd : (qs.map Request.page).Nodup) :
    (lifeOfSpace c s qs).bitmap = s.bitmap ∧
      (lifeOfSpace c s qs).pageRefcount = s.pageRefcount ∧
      (lifeOfSpace c s qs).freePages = s.freePages ∧
      ∀ g, s.bitmap g = true ∨ s.totalPages ≤ g → (lifeOfSpace c s qs).ram g = s.ram g := by
  unfold lifeOfSpace
  obtain ⟨hfail,hmake,-⟩ := create_cases c s
  rcases alloc_cases c hs with ⟨he,-⟩ | ⟨n,hn0,hlt,hn,he⟩
  · rw [hfail s he]
    exact ⟨rfl,rfl,rfl,fun _ _ => rfl⟩
  · rw [hmake s n hn0 he]
    obtain ⟨a,rfl⟩ := Nat.exists_eq_succ_of_ne_zero hn0
    obtain ⟨hB,habs⟩ := built_create hs hlt hn
    apply destroy_built hs
    apply built_requests s hs (a+1) qs _ hB hq hnd
    intro q hqm
    apply habs
    have := (hq q hqm).1
    unfold Request.page userPages
    omega

def twoPages : List Request :=
  [⟨booting,0x400000,pteUser,fun _ => 0⟩,⟨booting,0x401000,pteUser ||| pteWritable,fun _ => 7⟩]

theorem teardown_returns_boot :
    (lifeOfSpace booting (pmmInit 0x200000 bootTags powerOn) twoPages).bitmap =
        (pmmInit 0x200000 bootTags powerOn).bitmap ∧
      (lifeOfSpace booting (pmmInit 0x200000 bootTags powerOn) twoPages).freePages =
        (pmmInit 0x200000 bootTags powerOn).freePages := by
  have hvalid : ∀ q ∈ twoPages, q.Valid := by
    simp only [twoPages, List.mem_cons, List.not_mem_nil, or_false, forall_eq_or_imp, forall_eq,
      Request.Valid]
    decide
  have h := teardown_returns booting (pmmInit 0x200000 bootTags powerOn) twoPages
    (init_pmm 0x200000 bootTags boot_fits rfl rfl) hvalid (by decide)
  exact ⟨h.1,h.2.2.1⟩

end HobbyOS.Teardown

import HobbyOS.CowFault
import HobbyOS.DestroySpace

/-!
# Reference counts and owners

The invariant behind copy-on-write: the count of a mapped frame is the
number of spaces that map it, and a writable page has one owner. Forks,
stores, handled faults and destructions keep it, and with it the expected
bytes of every space.
-/

namespace HobbyOS.CowInvariant
open PageEntry PhysMem UserVm AddressSpace TableGrowth
  CowFork CowFault DestroySpace Function

/-- For each space and address, the byte expected there. -/
abbrev Contents := ℕ → ℕ → UInt8

def maps (r : Ram) (v f b : ℕ) : Bool := bit (view r b v) 0 && pteFrame (view r b v) == f

def owners (s : Mem) (v f : ℕ) : ℕ := s.spaces.countP (maps s.ram v f)

theorem maps_iff (r : Ram) (v f b : ℕ) :
    maps r v f b = true ↔ bit (view r b v) 0 = true ∧ pteFrame (view r b v) = f := by
  simp [maps]

theorem owners_le (s : Mem) (v f : ℕ) : owners s v f ≤ s.spaces.length := List.countP_le_length

theorem owners_pos {s : Mem} {v f a : ℕ} (ha : a ∈ s.spaces) (h : maps s.ram v f a = true) :
    0 < owners s v f := List.countP_pos_iff.mpr ⟨a,ha,h⟩

theorem owners_split {s : Mem} (v f : ℕ) {a : ℕ} (ha : a ∈ s.spaces) : owners s v f =
    (s.spaces.erase a).countP (maps s.ram v f) + if maps s.ram v f a then 1 else 0 := by
  rw [owners, (List.perm_cons_erase ha).countP_eq, List.countP_cons]

theorem owners_congr {s s' : Mem} {v f : ℕ} (hsp : s'.spaces = s.spaces)
    (h : ∀ b ∈ s.spaces, maps s'.ram v f b = maps s.ram v f b) : owners s' v f = owners s v f := by
  rw [owners, hsp]
  exact List.countP_congr (fun b hb => by rw [h b hb])

theorem sole_owner {s : Mem} {v f a b : ℕ} (hnd : s.spaces.Nodup) (ha : a ∈ s.spaces)
    (hb : b ∈ s.spaces) (h : owners s v f = 1) (h1 : maps s.ram v f a = true)
    (h2 : maps s.ram v f b = true) : b = a := by
  by_contra hne
  rw [owners_split v f ha, h1, if_pos rfl] at h
  have : 0 < (s.spaces.erase a).countP (maps s.ram v f) :=
    List.countP_pos_iff.mpr ⟨b,(hnd.mem_erase_iff).mpr ⟨hne,hb⟩,h2⟩
  omega

structure Inv (s : Mem) (x : Contents) : Prop where
  struct : Struct s
  counts : ∀ a ∈ s.spaces, ∀ v < userPages, bit (view s.ram a v) 0 = true →
    s.pageRefcount (pteFrame (view s.ram a v)) = owners s v (pteFrame (view s.ram a v))
  sole : ∀ a ∈ s.spaces, ∀ v < userPages, bit (view s.ram a v) 0 = true →
    bit (view s.ram a v) 1 = true → owners s v (pteFrame (view s.ram a v)) = 1
  bytes : ∀ a ∈ s.spaces, ∀ va < 2^47, bit (view s.ram a (va/4096)) 0 = true →
    s.ram (pteFrame (view s.ram a (va/4096))) (va % 4096) = x a va

theorem page_bound {va : ℕ} (h : va < 2^47) : va/4096 < userPages := by
  unfold userPages
  omega

structure Exact (s : Mem) : Prop where
  struct : Struct s
  counts : ∀ a ∈ s.spaces, ∀ v < userPages, bit (view s.ram a v) 0 = true →
    s.pageRefcount (pteFrame (view s.ram a v)) = owners s v (pteFrame (view s.ram a v))

theorem inv_exact {s : Mem} {x : Contents} (h : Inv s x) : Exact s := ⟨h.struct,h.counts⟩

theorem grow_owners {s s' : Mem} (hG : Grow s s') (v f : ℕ) (hv : v < userPages) :
    owners s' v f = owners s v f :=
  owners_congr hG.spaces (fun b hb => by rw [maps, maps, hG.views b hb v hv])

theorem exact_grow {s s' : Mem} (h : Exact s) (hG : Grow s s') (hS : Struct s') : Exact s' := by
  refine ⟨hS,?_⟩
  intro a ha v hv hp
  rw [hG.spaces] at ha
  rw [hG.views a ha v hv] at hp ⊢
  rw [(hG.kept _ (h.struct.frames a ha v hv hp).2.1).2, h.counts a ha v hv hp,
    grow_owners hG v _ hv]

theorem inv_grow {s s' : Mem} {x : Contents} (h : Inv s x) (hG : Grow s s') (hS : Struct s') :
    Inv s' x := by
  refine ⟨hS,(exact_grow (inv_exact h) hG hS).counts,?_,?_⟩
  · intro a ha v hv hp hw
    rw [hG.spaces] at ha
    rw [hG.views a ha v hv] at hp hw ⊢
    rw [grow_owners hG v _ hv]
    exact h.sole a ha v hv hp hw
  · intro a ha va hva hp
    rw [hG.spaces] at ha
    rw [hG.views a ha _ (page_bound hva)] at hp ⊢
    obtain ⟨-,h2,h3⟩ := h.struct.frames a ha _ (page_bound hva) hp
    rw [hG.data _ h2 h3]
    exact h.bytes a ha va hva hp

theorem inv_stored {s s' : Mem} {x : Contents} {a va : ℕ} {b : UInt8} (h : Inv s x)
    (ha : a ∈ s.spaces) (hva : va < 2^47) (hp : bit (view s.ram a (va/4096)) 0 = true)
    (hw : bit (view s.ram a (va/4096)) 1 = true) (hs : Stored s s' a va b) :
    Inv s' (update x a (update (x a) va b)) := by
  have hv := page_bound hva
  have hmaps : ∀ v < userPages, ∀ f, ∀ b ∈ s.spaces, maps s'.ram v f b = maps s.ram v f b := by
    intro v hv f b hb
    rw [maps, maps, hs.views b hb v hv]
  refine ⟨hs.struct,?_,?_,?_⟩
  · intro d hd v hv hp
    rw [hs.spaces] at hd
    rw [hs.views d hd v hv] at hp ⊢
    rw [(hs.kept _ (h.struct.frames d hd v hv hp).2.1).2, h.counts d hd v hv hp,
      owners_congr hs.spaces (hmaps v hv _)]
  · intro d hd v hv hp hw
    rw [hs.spaces] at hd
    rw [hs.views d hd v hv] at hp hw ⊢
    rw [owners_congr hs.spaces (hmaps v hv _)]
    exact h.sole d hd v hv hp hw
  · intro d hd wa hwa hdp
    rw [hs.spaces] at hd
    have hwv := page_bound hwa
    rw [hs.views d hd _ hwv] at hdp ⊢
    obtain ⟨-,h2,h3⟩ := h.struct.frames d hd _ hwv hdp
    have hold := h.bytes d hd wa hwa hdp
    by_cases hf : pteFrame (view s.ram d (wa/4096)) = pteFrame (view s.ram a (va/4096))
    · -- the writer is the only owner, so this is its own page
      have hpage := h.struct.place d hd a ha _ hwv _ hv hdp hp hf
      have hda : d = a := by
        apply sole_owner h.struct.nodup ha hd (h.sole a ha _ hv hp hw)
        · exact (maps_iff _ _ _ _).mpr ⟨hp,rfl⟩
        · rw [hpage] at hdp hf
          exact (maps_iff _ _ _ _).mpr ⟨hdp,hf⟩
      subst hda
      rw [hf, hs.bytes, update_self]
      by_cases ho : wa = va
      · rw [ho, update_self, update_self]
      · have hoff : wa % 4096 ≠ va % 4096 := by omega
        rw [update_of_ne hoff, update_of_ne ho, ← hf, hold]
    · rw [hs.data _ h2 h3 hf, hold]
      by_cases hda : d = a
      · subst hda
        have ho : wa ≠ va := by
          rintro rfl
          exact hf rfl
        rw [update_self, update_of_ne ho]
      · rw [update_of_ne hda]

section cowed
variable (s s' : Mem) (a v f : ℕ) (h : Exact s) (ha : a ∈ s.spaces) (hv : v < userPages)
  (hp : bit (view s.ram a v) 0 = true) (hc : Cowed s s' a v f)
include h ha hv hc

omit h hv in
theorem cowed_owners (hnd : s.spaces.Nodup) (w g : ℕ) (hw : w < userPages) : owners s' w g =
    (s.spaces.erase a).countP (maps s.ram w g) + if maps s'.ram w g a then 1 else 0 := by
  have hrest : (s.spaces.erase a).countP (maps s'.ram w g) =
      (s.spaces.erase a).countP (maps s.ram w g) := by
    apply List.countP_congr
    intro b hb
    obtain ⟨hba,hbm⟩ := hnd.mem_erase_iff.mp hb
    rw [maps, maps, hc.others b hbm w hw (fun hh => hba hh.1)]
  rw [owners_split w g (by rw [hc.spaces]; exact ha), hc.spaces, hrest]

omit hv in
theorem cowed_away (w g : ℕ) (hw : w < userPages) (hwv : w ≠ v) :
    owners s' w g = owners s w g := by
  rw [cowed_owners s s' a v f ha hc h.struct.nodup w g hw, owners_split w g ha, maps, maps,
    hc.others a ha w hw (fun hh => hwv hh.2)]

theorem cowed_other {g : ℕ} (hg : s.bitmap g = true) (hne : g ≠ pteFrame (view s.ram a v)) :
    owners s' v g = owners s v g := by
  rw [cowed_owners s s' a v f ha hc h.struct.nodup v g hv, owners_split v g ha]
  have h1 : maps s.ram v g a = false := by
    rw [Bool.eq_false_iff]
    intro hm
    exact hne ((maps_iff _ _ _ _).mp hm).2.symm
  have h2 : maps s'.ram v g a = false := by
    rw [Bool.eq_false_iff]
    intro hm
    have hfg := ((maps_iff _ _ _ _).mp hm).2
    rw [hc.own.2.2] at hfg
    rcases hc.counts with ⟨hf,-,-⟩ | ⟨hfree,-⟩
    · exact hne (hfg.symm.trans hf)
    · rw [hfg, hg] at hfree
      cases hfree
  rw [h1, h2]

include hp

theorem cowed_new : owners s' v f = 1 := by
  obtain ⟨ho0,-,hof⟩ := hc.own
  have hnd := h.struct.nodup
  rw [cowed_owners s s' a v f ha hc hnd v f hv, (maps_iff _ _ _ _).mpr ⟨ho0,hof⟩, if_pos rfl]
  have hzero : (s.spaces.erase a).countP (maps s.ram v f) = 0 := by
    rw [List.countP_eq_zero]
    intro b hb hm
    obtain ⟨hba,hbm⟩ := hnd.mem_erase_iff.mp hb
    obtain ⟨hb0,hbf⟩ := (maps_iff _ _ _ _).mp hm
    rcases hc.counts with ⟨hf,h1,-⟩ | ⟨hfree,-⟩
    · rw [hf] at h1 hm
      exact hba (sole_owner hnd ha hbm (by rw [← h.counts a ha v hv hp, h1])
        ((maps_iff _ _ _ _).mpr ⟨hp,rfl⟩) hm)
    · have := (h.struct.frames b hbm v hv hb0).2.1
      rw [hbf, hfree] at this
      cases this
  rw [hzero]

theorem cowed_old (hfree : s.bitmap f = false) : owners s' v (pteFrame (view s.ram a v)) =
    owners s v (pteFrame (view s.ram a v))-1 := by
  rw [cowed_owners s s' a v f ha hc h.struct.nodup v _ hv, owners_split v _ ha,
    (maps_iff _ _ _ _).mpr ⟨hp,rfl⟩, if_pos rfl, if_neg]
  · omega
  · intro hm
    have := ((maps_iff _ _ _ _).mp hm).2
    rw [hc.own.2.2] at this
    rw [this, (h.struct.frames a ha v hv hp).2.1] at hfree
    cases hfree

theorem exact_cowed : Exact s' := by
  obtain ⟨ho0,ho1,hof⟩ := hc.own
  have hnd := h.struct.nodup
  have hframes := h.struct.frames a ha v hv hp
  refine ⟨hc.struct,?_⟩
  intro b hb w hw hbp
  rw [hc.spaces] at hb
  by_cases hbw : b = a ∧ w = v
  · obtain ⟨rfl,rfl⟩ := hbw
    rw [hof, cowed_new s s' b w f h ha hv hp hc]
    rcases hc.counts with ⟨hf,h1,hk⟩ | ⟨-,h1,-⟩
    · rw [hk f (by rw [hf]; exact hframes.2.1), h1]
    · exact h1
  rw [hc.others b hb w hw hbw] at hbp ⊢
  have hbf := h.struct.frames b hb w hw hbp
  have hbc := h.counts b hb w hw hbp
  by_cases hg : pteFrame (view s.ram b w) = pteFrame (view s.ram a v)
  · have hwv := h.struct.place b hb a ha w hw v hv hbp hp hg
    subst hwv
    have hba : b ≠ a := fun hh => hbw ⟨hh,rfl⟩
    rw [hg] at hbc ⊢
    rcases hc.counts with ⟨hf,h1,-⟩ | ⟨hfree,-,-,hk⟩
    · rw [hf, hbc] at h1
      exact absurd (sole_owner hnd ha hb h1 ((maps_iff _ _ _ _).mpr ⟨hp,rfl⟩)
        ((maps_iff _ _ _ _).mpr ⟨hbp,hg⟩)) hba
    · rw [hk _ hframes.2.1, if_pos rfl, hbc, cowed_old s s' a w f h ha hv hp hc hfree]
  · have hrc : s'.pageRefcount (pteFrame (view s.ram b w)) =
        s.pageRefcount (pteFrame (view s.ram b w)) := by
      rcases hc.counts with ⟨-,-,hk⟩ | ⟨-,-,-,hk⟩
      · exact hk _ hbf.2.1
      · rw [hk _ hbf.2.1, if_neg hg]
    rw [hrc, hbc]
    by_cases hwv : w = v
    · subst hwv
      rw [cowed_other s s' a w f h ha hv hc hbf.2.1 hg]
    · rw [cowed_away s s' a v f h ha hc w _ hw hwv]

end cowed

theorem inv_cowed {s s' : Mem} {x : Contents} {a v f : ℕ} (h : Inv s x) (ha : a ∈ s.spaces)
    (hv : v < userPages) (hp : bit (view s.ram a v) 0 = true) (hc : Cowed s s' a v f) :
    Inv s' x := by
  have he := inv_exact h
  have hof := hc.own.2.2
  refine ⟨hc.struct,(exact_cowed s s' a v f he ha hv hp hc).counts,?_,?_⟩
  · intro b hb w hw hbp hbw'
    rw [hc.spaces] at hb
    by_cases hbw : b = a ∧ w = v
    · obtain ⟨rfl,rfl⟩ := hbw
      rw [hof, cowed_new s s' b w f he ha hv hp hc]
    rw [hc.others b hb w hw hbw] at hbp hbw' ⊢
    have hsole := h.sole b hb w hw hbp hbw'
    by_cases hwv : w = v
    · subst hwv
      have hg : pteFrame (view s.ram b w) ≠ pteFrame (view s.ram a w) := by
        intro hg
        have hba := sole_owner h.struct.nodup hb ha hsole
          ((maps_iff _ _ _ _).mpr ⟨hbp,rfl⟩) (by rw [hg]; exact (maps_iff _ _ _ _).mpr ⟨hp,rfl⟩)
        exact hbw ⟨hba.symm,rfl⟩
      rw [cowed_other s s' a w f he ha hv hc (h.struct.frames b hb w hw hbp).2.1 hg]
      exact hsole
    · rw [cowed_away s s' a v f he ha hc w _ hw hwv]
      exact hsole
  · intro b hb va hva hbp
    rw [hc.spaces] at hb
    have hwv := page_bound hva
    by_cases hbw : b = a ∧ va/4096 = v
    · obtain ⟨rfl,rfl⟩ := hbw
      rw [hof, hc.bytes]
      exact h.bytes b hb va hva hp
    · rw [hc.others b hb _ hwv hbw] at hbp ⊢
      obtain ⟨-,h2,h3⟩ := h.struct.frames b hb _ hwv hbp
      rw [hc.data _ h2 h3]
      exact h.bytes b hb va hva hbp

section forked
variable (s s' : Mem) (parent new : ℕ) (ha : parent ∈ s.spaces) (hF : Forked s s' parent new)
include hF

theorem forked_old (b w : ℕ) (hb : b ∈ s.spaces) (hw : w < userPages) :
    bit (view s'.ram b w) 0 = bit (view s.ram b w) 0 ∧
      pteFrame (view s'.ram b w) = pteFrame (view s.ram b w) := by
  by_cases hbp : b = parent
  · subst hbp
    rw [hF.ofParent w hw]
    split_ifs with hp
    · exact ⟨share_bit _ (by omega) (by omega) (by omega),share_frame _⟩
    · exact ⟨rfl,rfl⟩
  · rw [hF.others b hb hbp w hw]
    exact ⟨rfl,rfl⟩

theorem forked_new {w : ℕ} (hw : w < userPages) (h : bit (view s'.ram new w) 0 = true) :
    bit (view s.ram parent w) 0 = true ∧ view s'.ram new w = share (view s.ram parent w) := by
  rw [hF.ofNew w hw] at h ⊢
  split_ifs at h ⊢ with hp
  · exact ⟨hp,rfl⟩
  · simp at h

theorem forked_owners (w g : ℕ) (hw : w < userPages) : owners s' w g =
    owners s w g + if maps s.ram w g parent then 1 else 0 := by
  have hnew : maps s'.ram w g new = maps s.ram w g parent := by
    rw [maps, maps, hF.ofNew w hw]
    split_ifs with hp
    · rw [share_bit _ (by omega) (by omega) (by omega), share_frame]
    · simp [hp]
  have hsame : s.spaces.countP (maps s'.ram w g) = s.spaces.countP (maps s.ram w g) := by
    apply List.countP_congr
    intro b hb
    obtain ⟨h1,h2⟩ := forked_old s s' parent new hF b w hb hw
    rw [maps, maps, h1, h2]
  rw [owners, hF.spaces, List.countP_cons, hnew, hsame, owners]

include ha

theorem forked_count (h : Exact s) (hmax : s'.spaces.length ≤ 255) (b w : ℕ) (hb : b ∈ s.spaces)
    (hw : w < userPages) (hbp : bit (view s.ram b w) 0 = true) :
    s'.pageRefcount (pteFrame (view s.ram b w)) = owners s' w (pteFrame (view s.ram b w)) := by
  have hbc := h.counts b hb w hw hbp
  have hlen : s'.spaces.length = s.spaces.length+1 := by rw [hF.spaces, List.length_cons]
  rw [forked_owners s s' parent new hF w _ hw]
  by_cases hm : maps s.ram w (pteFrame (view s.ram b w)) parent = true
  · obtain ⟨hpp,hpf⟩ := (maps_iff _ _ _ _).mp hm
    have hle := owners_le s w (pteFrame (view s.ram b w))
    have hc := hF.counts w hw hpp
    rw [hpf] at hc
    rw [hc, hm, if_pos rfl, hbc, addRef, if_pos (by omega)]
  · rw [if_neg hm, ← hbc]
    apply hF.rest _ (h.struct.frames b hb w hw hbp).2.1
    intro v hv hpp hpf
    have hvw := h.struct.place parent ha b hb v hv w hw hpp hbp hpf
    subst hvw
    exact hm ((maps_iff _ _ _ _).mpr ⟨hpp,hpf⟩)

theorem exact_forked (h : Exact s) (hmax : s'.spaces.length ≤ 255) : Exact s' := by
  have hcount := forked_count s s' parent new ha hF h hmax
  refine ⟨hF.struct,?_⟩
  intro b hb w hw hbp
  rw [hF.spaces] at hb
  rcases List.mem_cons.mp hb with rfl | hb
  · obtain ⟨hp,hv⟩ := forked_new s s' parent b hF hw hbp
    rw [hv, share_frame]
    exact hcount parent w ha hw hp
  · obtain ⟨h1,h2⟩ := forked_old s s' parent new hF b w hb hw
    rw [h1] at hbp
    rw [h2]
    exact hcount b w hb hw hbp

end forked

theorem inv_forked {s s' : Mem} {x : Contents} {parent new : ℕ} (h : Inv s x)
    (ha : parent ∈ s.spaces) (hF : Forked s s' parent new) (hmax : s'.spaces.length ≤ 255) :
    Inv s' (update x new (x parent)) := by
  have hbytes : ∀ b ∈ s.spaces, ∀ va < 2^47, bit (view s.ram b (va/4096)) 0 = true →
      s'.ram (pteFrame (view s.ram b (va/4096))) (va % 4096) = x b va := by
    intro b hb va hva hbp
    obtain ⟨-,h2,h3⟩ := h.struct.frames b hb _ (page_bound hva) hbp
    rw [hF.data _ h2 h3]
    exact h.bytes b hb va hva hbp
  refine ⟨hF.struct,(exact_forked s s' parent new ha hF (inv_exact h) hmax).counts,?_,?_⟩
  · intro b hb w hw hbp hbw
    rw [hF.spaces] at hb
    rcases List.mem_cons.mp hb with rfl | hb
    · rw [(forked_new s s' parent b hF hw hbp).2, share_not_writable] at hbw
      cases hbw
    · rw [(forked_old s s' parent new hF b w hb hw).1] at hbp
      by_cases hbpar : b = parent
      · subst hbpar
        rw [hF.ofParent w hw, if_pos hbp, share_not_writable] at hbw
        cases hbw
      · rw [hF.others b hb hbpar w hw] at hbw ⊢
        have hsole := h.sole b hb w hw hbp hbw
        rw [forked_owners s s' parent new hF w _ hw, hsole, if_neg]
        intro hm
        exact hbpar (sole_owner h.struct.nodup hb ha hsole
          ((maps_iff _ _ _ _).mpr ⟨hbp,rfl⟩) hm).symm
  · intro b hb va hva hbp
    rw [hF.spaces] at hb
    have hw := page_bound hva
    rcases List.mem_cons.mp hb with rfl | hb
    · obtain ⟨hp,hv⟩ := forked_new s s' parent b hF hw hbp
      rw [hv, share_frame, update_self]
      exact hbytes parent ha va hva hp
    · obtain ⟨h1,h2⟩ := forked_old s s' parent new hF b _ hb hw
      rw [h1] at hbp
      have hbn : b ≠ new := fun hh => hF.fresh (hh ▸ hb)
      rw [h2, update_of_ne hbn]
      exact hbytes b hb va hva hbp

section destroyed
variable (s : Mem) (a : ℕ) (h : Exact s) (ha : a ∈ s.spaces)
include h ha

theorem exact_not_last : NotLast s a := by
  intro v hv hp b hb hba hbp hf h1
  rw [h.counts a ha v hv hp] at h1
  exact hba (sole_owner h.struct.nodup ha hb h1 ((maps_iff _ _ _ _).mpr ⟨hp,rfl⟩)
    ((maps_iff _ _ _ _).mpr ⟨hbp,hf⟩))

theorem destroyed_shape : (userVmDestroyAddressSpace s a).spaces = s.spaces.erase a ∧
    (userVmDestroyAddressSpace s a).ram = s.ram := by
  obtain ⟨s1,hr,heq⟩ := destroy_spec s h.struct a ha
  obtain ⟨b,r,k,m,hs⟩ := hr.shape
  constructor <;> rw [heq, hs]

theorem destroyed_owners (w g : ℕ) : owners s w g =
    owners (userVmDestroyAddressSpace s a) w g + if maps s.ram w g a then 1 else 0 := by
  obtain ⟨hsp,hram⟩ := destroyed_shape s a h ha
  rw [owners_split w g ha]
  unfold owners
  rw [hsp, hram]

theorem destroyed_mem (b : ℕ) (hb : b ∈ (userVmDestroyAddressSpace s a).spaces) :
    b ≠ a ∧ b ∈ s.spaces := by
  rw [(destroyed_shape s a h ha).1] at hb
  exact h.struct.nodup.mem_erase_iff.mp hb

theorem exact_destroyed : Exact (userVmDestroyAddressSpace s a) := by
  refine ⟨struct_destroy s h.struct a ha (exact_not_last s a h ha),?_⟩
  obtain ⟨s1,hr,heq⟩ := destroy_spec s h.struct a ha
  have hrc : (userVmDestroyAddressSpace s a).pageRefcount = s1.pageRefcount := by rw [heq]
  rw [(destroyed_shape s a h ha).2, hrc]
  intro b hb w hw hbp
  obtain ⟨hba,hb⟩ := destroyed_mem s a h ha b hb
  have hbc := h.counts b hb w hw hbp
  rw [destroyed_owners s a h ha] at hbc
  by_cases hm : maps s.ram w (pteFrame (view s.ram b w)) a = true
  · obtain ⟨hap,haf⟩ := (maps_iff _ _ _ _).mp hm
    have hac := hr.counts w hw hap
    rw [haf, if_pos hw] at hac
    rw [hac, hbc, if_pos hm, Nat.add_sub_cancel]
  · rw [if_neg hm, Nat.add_zero] at hbc
    rw [← hbc]
    refine ((hr.rest _ ?_).2 ?_).1
    · intro v hv hap haf
      have hvw := h.struct.place a ha b hb v hv w hw hap hbp haf
      subst hvw
      exact hm ((maps_iff _ _ _ _).mpr ⟨hap,haf⟩)
    · rintro ⟨p,hp,hw'⟩
      exact (h.struct.frames b hb w hw hbp).2.2 ⟨a,p,ha,hp,hw'⟩

end destroyed

theorem inv_destroyed {s : Mem} {x : Contents} {a : ℕ} (h : Inv s x) (ha : a ∈ s.spaces) :
    Inv (userVmDestroyAddressSpace s a) x := by
  have he := inv_exact h
  have hexact := exact_destroyed s a he ha
  have hmem := destroyed_mem s a he ha
  refine ⟨hexact.struct,hexact.counts,?_,?_⟩
  · rw [(destroyed_shape s a he ha).2]
    intro b hb w hw hbp hbw
    obtain ⟨hba,hb⟩ := hmem b hb
    have hsole := h.sole b hb w hw hbp hbw
    rw [destroyed_owners s a he ha, if_neg] at hsole
    · exact hsole
    · intro hm
      exact hba (sole_owner h.struct.nodup hb ha (h.sole b hb w hw hbp hbw)
        ((maps_iff _ _ _ _).mpr ⟨hbp,rfl⟩) hm).symm
  · rw [(destroyed_shape s a he ha).2]
    intro b hb va hva hbp
    exact h.bytes b (hmem b hb).2 va hva hbp

end HobbyOS.CowInvariant

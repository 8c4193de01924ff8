import HobbyOS.CowFork

/-!
# User accesses and the copy-on-write fault

A load or store goes through the leaf entry and leaves the accessed bit
behind. A store to a present read-only copy-on-write page first runs
`cow_handle_fault`, which hands the page over when its count is one and
copies it otherwise.
-/

namespace HobbyOS.CowFault
open RadixTree PageEntry PhysMem UserVm
  AddressSpace TableGrowth PageAlloc CowFork Function

def readByte (r : Ram) (a va : ℕ) : Option UInt8 :=
  let e := leaf r a (va/4096)
  if has e ptePresent then some (r (pteFrame e) (va % 4096)) else none

/-- The processor sets the accessed bit of the entry it used. -/
def touch (s : Mem) (a va : ℕ) : Mem :=
  match leafTable s.ram a (va/4096) with
  | none => s
  | some t =>
    let e := entry s.ram t (va/4096 % 512) ||| pteAccessed
    { s with ram := setEntry s.ram t (va/4096 % 512) e }

def userRead (s : Mem) (a va : ℕ) : Mem × Option UInt8 := (touch s a va,readByte s.ram a va)

def storeByte (s : Mem) (f o : ℕ) (b : UInt8) : Mem :=
  { s with ram := update s.ram f (update (s.ram f) o b) }

def userStore (s : Mem) (a va : ℕ) (b : UInt8) : Mem × Bool :=
  let e := leaf s.ram a (va/4096)
  if has e ptePresent && has e pteWritable then
    (touch (storeByte s (pteFrame e) (va % 4096) b) a va,true)
  else (s,false)

def cowPage (r : Ram) (a va : ℕ) : Bool :=
  let e := leaf r a (va/4096)
  has e ptePresent && !has e pteWritable && has e pteCow

def userWrite (c : Ctx) (s : Mem) (a va : ℕ) (b : UInt8) : Mem × Bool :=
  if cowPage s.ram a va then
    match cowHandleFault c s a va with
    | (s,true) => userStore s a va b
    | (s,false) => (s,false)
  else userStore s a va b

theorem struct_data {s : Mem} (hS : Struct s) {r : Ram} (hr : ∀ t, Table s t → r t = s.ram t) :
    Struct { s with ram := r } ∧ ∀ t, Table { s with ram := r } t ↔ Table s t := by
  obtain ⟨hT,hw,hl⟩ := trees_same s hS.trees r hr
  have htab : ∀ t, Table { s with ram := r } t ↔ Table s t := fun t =>
    exists_congr fun a => exists_congr fun p => and_congr_right fun ha => and_congr_right fun hp => by
      rw [← hw a p ha hp]
  have hview : ∀ a ∈ s.spaces, ∀ v < userPages, view r a v = view s.ram a v := by
    intro a ha v hv
    rw [view, view, hl a v ha hv]
  refine ⟨⟨hS.pages,hS.zero,hS.kernel,hS.nodup,hT.forest,hT.plain,hT.tables,?_,?_,hS.low⟩,htab⟩
  · intro a ha v hv hp
    simp only [htab]
    simp only [hview a ha v hv] at hp ⊢
    exact hS.frames a ha v hv hp
  · intro a ha b hb v hv w hw' h1 h2 h3
    simp only [hview a ha v hv, hview b hb w hw'] at h1 h2 h3
    exact hS.place a ha b hb v hv w hw' h1 h2 h3

theorem touch_grow {s : Mem} (hS : Struct s) {a va : ℕ} (ha : a ∈ s.spaces) (hva : va < 2^47) :
    Grow s (touch s a va) ∧ Struct (touch s a va) := by
  unfold touch
  cases ht : leafTable s.ram a (va/4096) with
  | none => exact ⟨grow_refl s,hS⟩
  | some t =>
    apply grow_mark hS ha (by unfold userPages; omega) ht
    rw [view, leaf_of_table _ ht]
    apply eq_of_bits
    intro i hi
    by_cases h5 : i = 5
    · simp [h5]
    · simp [h5]

/-- The page at `v` of `a` is now private to it, in frame `f`. -/
structure Cowed (s s' : Mem) (a v f : ℕ) : Prop where
  struct : Struct s'
  spaces : s'.spaces = s.spaces
  total : s'.totalPages = s.totalPages
  limit : s'.kernelPageLimit = s.kernelPageLimit
  kept : ∀ g, s.bitmap g = true → s'.bitmap g = true
  own : bit (view s'.ram a v) 0 = true ∧ bit (view s'.ram a v) 1 = true ∧
    pteFrame (view s'.ram a v) = f
  others : ∀ b ∈ s.spaces, ∀ w < userPages, ¬(b = a ∧ w = v) → view s'.ram b w = view s.ram b w
  data : ∀ g, s.bitmap g = true → ¬Table s g → s'.ram g = s.ram g
  bytes : s'.ram f = s.ram (pteFrame (view s.ram a v))
  counts : (f = pteFrame (view s.ram a v) ∧ s.pageRefcount f = 1 ∧
      ∀ g, s.bitmap g = true → s'.pageRefcount g = s.pageRefcount g) ∨
    (s.bitmap f = false ∧ s'.pageRefcount f = 1 ∧
      s.pageRefcount (pteFrame (view s.ram a v)) ≠ 1 ∧
      ∀ g, s.bitmap g = true → s'.pageRefcount g =
        if g = pteFrame (view s.ram a v) then s.pageRefcount g-1 else s.pageRefcount g)

/-- The word stored by the handler: frame `f`, the old flags, writable. -/
def ownEntry (e : Pte) (f : ℕ) : Pte :=
  frameWord f ||| ((e &&& ~~~pteAddrMask &&& ~~~pteCow) ||| pteWritable)

theorem own_entry_bits (e : Pte) (f : ℕ) (hf : f < 2^40) (h0 : bit e 0 = true) :
    bit (ownEntry e f) 0 = true ∧ bit (ownEntry e f) 1 = true ∧ pteFrame (ownEntry e f) = f := by
  unfold ownEntry
  refine ⟨?_,?_,?_⟩
  · simp [h0]
  · simp
  · apply frame_compose f hf
    intro i h1 h2
    simp [h1, h2, show i ≠ 1 by omega]

def setLeaf (s : Mem) (t i : ℕ) (e : Pte) : Mem := { s with ram := setEntry s.ram t i e }

theorem unref_shared {s : Mem} {f : ℕ} (hf : f < s.totalPages) (h1 : s.pageRefcount f ≠ 1) :
    pmmPageUnref s f =
      { s with pageRefcount := update s.pageRefcount f (s.pageRefcount f-1) } := by
  unfold pmmPageUnref
  by_cases h0 : s.pageRefcount f > 0
  · rw [if_pos ⟨hf,h0⟩]
    rw [if_neg (by omega)]
  · rw [if_neg (fun h => h0 h.2), show s.pageRefcount f-1 = s.pageRefcount f by omega,
      update_eq_self]

section cow
variable (c : Ctx) (s : Mem) (hS : Struct s) (a v t : ℕ) (ha : a ∈ s.spaces) (hv : v < userPages)
  (ht : leafTable s.ram a v = some t) (hp : bit (view s.ram a v) 0 = true)

include hS ha hv ht hp

theorem cowed_in_place (h1 : s.pageRefcount (pteFrame (view s.ram a v)) = 1) :
    Cowed s (setLeaf s t (v % 512)
      (ownEntry (entry s.ram t (v % 512)) (pteFrame (view s.ram a v)))) a v
      (pteFrame (view s.ram a v)) := by
  have h0 : bit (entry s.ram t (v % 512)) 0 = true := by
    rw [view_bit _ _ _ _ (by omega) (by omega), leaf_of_table _ ht] at hp
    exact hp
  obtain ⟨e0,e1,ef⟩ := own_entry_bits (entry s.ram t (v % 512)) (pteFrame (view s.ram a v))
    (frame_lt _) h0
  have hview := set_leaf_view s hS a v t ha hv ht
    (ownEntry (entry s.ram t (v % 512)) (pteFrame (view s.ram a v)))
  have hown := hview a v ha hv
  rw [if_pos ⟨rfl,rfl⟩] at hown
  have hframes := hS.frames a ha v hv hp
  have hnt : pteFrame (view s.ram a v) ≠ t := by
    intro h
    exact hframes.2.2 (h ▸ leaf_table_table s ha hv ht)
  refine ⟨?_,rfl,rfl,rfl,fun _ h => h,?_,?_,?_,?_,Or.inl ⟨rfl,h1,fun _ _ => rfl⟩⟩
  · apply struct_set_leaf s hS a v t ha hv ht
    · intro _
      rw [ef]
      exact hframes
    · intro _ b hb w hw hb0 hf
      rw [ef] at hf
      exact hS.place b hb a ha w hw v hv hb0 hp hf
  · simp only [setLeaf, hown]
    rw [clean_bit _ (by omega) (by omega), clean_bit _ (by omega) (by omega)]
    refine ⟨e0,e1,?_⟩
    rw [← ef]
    exact frame_congr _ _ (fun i h1 h2 => by rw [clean_bit _ (by omega) (by omega), ef])
  · intro b hb w hw hne
    have := hview b w hb hw
    rw [if_neg hne] at this
    exact this
  · intro g hg hgt
    have : g ≠ t := by
      rintro rfl
      exact hgt (leaf_table_table s ha hv ht)
    exact set_entry_frame _ _ _ _ _ this
  · exact set_entry_frame _ _ _ _ _ hnt

/-- The page is shared: its bytes move to the fresh frame `n`. The handler
has read the entry before it allocates, so `e` may be older than `s`. -/
theorem cowed_copy {s1 s2 : Mem} {n : ℕ} {e : Pte} (h0 : bit e 0 = true) (hG : Grow s s1)
    (hS1 : Struct s1) (hfree : s1.bitmap n = false) (hlt : n < s1.totalPages)
    (h1 : s.pageRefcount (pteFrame (view s.ram a v)) ≠ 1)
    (hs2 : s2 = { taken s1 n with ram := copyPage s1.ram n (pteFrame (view s.ram a v)) }) :
    Cowed s (setLeaf (pmmPageUnref s2 (pteFrame (view s.ram a v))) t (v % 512)
      (ownEntry e n)) a v n := by
  obtain ⟨e0,e1,ef⟩ := own_entry_bits e n (by have := hS1.pages.2; omega) h0
  obtain ⟨hf1,hf2,hf3⟩ := hS.frames a ha v hv hp
  have hnt1 := free_not_table s1 hS1.trees n hfree
  have hsfree : s.bitmap n = false := by
    by_contra hb
    rw [Bool.not_eq_false] at hb
    rw [(hG.kept n hb).1] at hfree
    cases hfree
  have hcopy : ∀ f, f ≠ n → copyPage s1.ram n (pteFrame (view s.ram a v)) f = s1.ram f := by
    intro f hf
    rw [copyPage, update_of_ne hf]
  obtain ⟨hG2,hS2⟩ := grow_taken s1 hS1 n hfree hlt _ hcopy
  rw [← hs2] at hG2 hS2
  have hGG := grow_trans hG hG2
  have hnt2 : ¬Table s2 n := by
    rw [hs2]
    intro h
    exact hnt1 (((struct_data hS1 (fun u hu =>
      hcopy u (by rintro rfl; exact hnt1 hu))).2 n).mp h)
  have hrc2 : s2.pageRefcount (pteFrame (view s.ram a v)) =
      s.pageRefcount (pteFrame (view s.ram a v)) := (hGG.kept _ hf2).2
  rw [unref_shared (by rw [hGG.total]; exact hf1) (by rw [hrc2]; exact h1)]
  have hbn : s2.bitmap n = true := by rw [hs2]; simp [taken]
  have ha2 : a ∈ s2.spaces := by rw [hGG.spaces]; exact ha
  have ht2 : leafTable s2.ram a v = some t := hGG.walks a ha _ t (path_user v hv) ht
  have hview := set_leaf_view s2 hS2 a v t ha2 hv ht2 (ownEntry e n)
  have hown := hview a v ha2 hv
  rw [if_pos ⟨rfl,rfl⟩] at hown
  have htn : n ≠ t := by
    rintro rfl
    exact hnt2 (leaf_table_table s2 ha2 hv ht2)
  have hset := struct_set_leaf s2 hS2 a v t ha2 hv ht2 (ownEntry e n)
    (by
      intro _
      rw [ef]
      exact ⟨by rw [hG2.total]; exact hlt,hbn,hnt2⟩) (by
      intro _ b hb w hw hb0 hf
      rw [hGG.spaces] at hb
      rw [hGG.views b hb w hw] at hb0 hf
      have := (hS.frames b hb w hw hb0).2.1
      rw [hf, ef, hsfree] at this
      cases this)
  refine ⟨struct_congr hset rfl rfl rfl rfl rfl hset.low,hGG.spaces,hGG.total,hGG.limit,
    fun g hg => (hGG.kept g hg).1,?_,?_,?_,?_,Or.inr ⟨hsfree,?_,h1,?_⟩⟩
  · simp only [setLeaf, hown]
    rw [clean_bit _ (by omega) (by omega), clean_bit _ (by omega) (by omega)]
    refine ⟨e0,e1,?_⟩
    rw [← ef]
    exact frame_congr _ _ (fun i h1 h2 => by rw [clean_bit _ (by omega) (by omega), ef])
  · intro b hb w hw hne
    have := hview b w (by rw [hGG.spaces]; exact hb) hw
    rw [if_neg hne, hGG.views b hb w hw] at this
    exact this
  · intro g hg hgt
    have hgt' : g ≠ t := by
      rintro rfl
      exact hgt (leaf_table_table s ha hv ht)
    have := hGG.data g hg hgt
    rw [← this]
    exact set_entry_frame _ _ _ _ _ hgt'
  · have hold := hG.data _ hf2 hf3
    have : setEntry s2.ram t (v % 512) (ownEntry e n) n = s2.ram n :=
      set_entry_frame _ _ _ _ _ htn
    change setEntry s2.ram t (v % 512) (ownEntry e n) n = _
    rw [this, ← hold, hs2]
    simp [copyPage]
  · change update s2.pageRefcount (pteFrame (view s.ram a v)) _ n = 1
    have hne : n ≠ pteFrame (view s.ram a v) := by
      intro h
      rw [h, hf2] at hsfree
      cases hsfree
    rw [update_of_ne hne, hs2]
    simp [taken]
  · intro g hg
    change update s2.pageRefcount (pteFrame (view s.ram a v)) _ g = _
    have hgc := (hGG.kept g hg).2
    split_ifs with h
    · rw [h, update_self, hrc2]
    · rw [update_of_ne h, hgc]

end cow

theorem cow_last (c : Ctx) (s : Mem) (a va : ℕ) (hS : Struct s) (ha : a ∈ s.spaces)
    (hva : va < 2^47) (hp : bit (view s.ram a (va/4096)) 0 = true)
    (hc : bit (view s.ram a (va/4096)) 9 = true)
    (h1 : s.pageRefcount (pteFrame (view s.ram a (va/4096))) = 1) :
    (cowHandleFault c s a va).2 = true ∧
      (cowHandleFault c s a va).1.evictions = s.evictions ∧
      Cowed s (cowHandleFault c s a va).1 a (va/4096) (pteFrame (view s.ram a (va/4096))) := by
  have hv : va/4096 < userPages := by unfold userPages; omega
  obtain ⟨t,ht⟩ := leaf_present_table s.ram hp
  have hfr : pteFrame (entry s.ram t (va/4096 % 512)) = pteFrame (view s.ram a (va/4096)) := by
    rw [view_frame, leaf_of_table _ ht]
  have h0 : bit (entry s.ram t (va/4096 % 512)) 0 = true := by
    rw [← leaf_of_table _ ht, ← view_bit _ _ _ _ (by omega) (by omega), hp]
  have h9 : bit (entry s.ram t (va/4096 % 512)) 9 = true := by
    rw [← leaf_of_table _ ht, ← view_bit _ _ _ _ (by omega) (by omega), hc]
  have heq : cowHandleFault c s a va = (setLeaf s t (va/4096 % 512)
      (ownEntry (entry s.ram t (va/4096 % 512)) (pteFrame (view s.ram a (va/4096)))),true) := by
    rw [cowHandleFault, get_pte s hS.trees ha hva, ht]
    simp only [Option.map_some, has_present, has_cow, h0, h9, hfr, pmmPageRefcount,
      if_pos (hS.frames a ha _ hv hp).1, h1]
    rfl
  rw [heq]
  exact ⟨rfl,rfl,cowed_in_place s hS a _ t ha hv ht hp h1⟩

theorem cow_spec {c : Ctx} {s : Mem} {a va : ℕ} (hS : Struct s) (hL : Live c s) (ha : a ∈ s.spaces)
    (hva : va < 2^47) (hok : (cowHandleFault c s a va).2 = true)
    (hlog : logLength (cowHandleFault c s a va).1 = logLength s) :
    bit (view s.ram a (va/4096)) 0 = true ∧
      ∃ f, Cowed s (cowHandleFault c s a va).1 a (va/4096) f := by
  have hv : va/4096 < userPages := by unfold userPages; omega
  unfold cowHandleFault at hok hlog ⊢
  rw [get_pte s hS.trees ha hva] at hok hlog ⊢
  cases ht : leafTable s.ram a (va/4096) with
  | none =>
    rw [ht] at hok
    cases hok
  | some t =>
    rw [ht] at hok hlog
    simp only [Option.map_some, has_present, has_cow] at hok hlog ⊢
    have hfr : pteFrame (entry s.ram t (va/4096 % 512)) = pteFrame (view s.ram a (va/4096)) := by
      rw [view_frame, leaf_of_table _ ht]
    by_cases hpc : (!bit (entry s.ram t (va/4096 % 512)) 0 ||
        !bit (entry s.ram t (va/4096 % 512)) 9) = true
    · rw [if_pos hpc] at hok
      cases hok
    rw [if_neg hpc] at hok hlog ⊢
    have hp : bit (view s.ram a (va/4096)) 0 = true := by
      rw [view_bit _ _ _ _ (by omega) (by omega), leaf_of_table _ ht]
      simp only [Bool.or_eq_true, Bool.not_eq_true', not_or, Bool.not_eq_false] at hpc
      exact hpc.1
    have hbound := (hS.frames a ha _ hv hp).1
    rw [hfr, show pmmPageRefcount s (pteFrame (view s.ram a (va/4096))) =
      s.pageRefcount (pteFrame (view s.ram a (va/4096))) from if_pos hbound] at hok hlog ⊢
    refine ⟨hp,?_⟩
    by_cases h1 : s.pageRefcount (pteFrame (view s.ram a (va/4096))) = 1
    · rw [if_pos h1]
      exact ⟨_,cowed_in_place s hS a _ t ha hv ht hp h1⟩
    · rw [if_neg h1] at hok hlog ⊢
      rcases alloc_page_carry c _ _ (carry_grow c s hL) ⟨grow_refl s,hS⟩ with
        he | ⟨s1,⟨hG,hS1⟩,-,he | ⟨n,hn,hlt,hfree,he⟩⟩
      · exfalso
        cases hr : pmmAllocPage c s with
        | mk s1 n =>
          rw [hr] at he hok hlog
          cases n with
          | zero => cases hok
          | succ n =>
            have hsame : logLength (setLeaf (pmmPageUnref { s1 with
                ram := copyPage s1.ram (n+1) (pteFrame (view s.ram a (va/4096))) }
                (pteFrame (view s.ram a (va/4096)))) t (va/4096 % 512)
                (ownEntry (entry s.ram t (va/4096 % 512)) (n+1))) = logLength s1 := by
              exact congrArg List.length (unref_log _ _)
            have hl : logLength s1 = logLength s := hsame.symm.trans hlog
            dsimp only at he
            omega
      · rw [he] at hok
        cases hok
      · obtain ⟨m,rfl⟩ := Nat.exists_eq_succ_of_ne_zero hn
        rw [he]
        have h0 : bit (entry s.ram t (va/4096 % 512)) 0 = true := by
          rw [← leaf_of_table _ ht, ← view_bit _ _ _ _ (by omega) (by omega), hp]
        exact ⟨m+1,cowed_copy s hS a _ t ha hv ht hp h0 hG hS1 hfree hlt h1 rfl⟩

theorem store_log (s : Mem) (a va : ℕ) (b : UInt8) :
    (userStore s a va b).1.evictions = s.evictions := by
  unfold userStore touch
  dsimp only
  split_ifs
  · split <;> rfl
  · rfl

theorem store_refused {s : Mem} {a va : ℕ} {b : UInt8} (h : ¬(userStore s a va b).2 = true) :
    (userStore s a va b).1 = s := by
  unfold userStore at h ⊢
  dsimp only at h ⊢
  split_ifs at h ⊢
  · exact absurd rfl h
  · rfl

structure Stored (s s' : Mem) (a va : ℕ) (b : UInt8) : Prop where
  struct : Struct s'
  spaces : s'.spaces = s.spaces
  log : s'.evictions = s.evictions
  kept : ∀ g, s.bitmap g = true → s'.bitmap g = true ∧ s'.pageRefcount g = s.pageRefcount g
  views : ∀ d ∈ s.spaces, ∀ v < userPages, view s'.ram d v = view s.ram d v
  data : ∀ g, s.bitmap g = true → ¬Table s g → g ≠ pteFrame (view s.ram a (va/4096)) →
    s'.ram g = s.ram g
  bytes : s'.ram (pteFrame (view s.ram a (va/4096))) =
    update (s.ram (pteFrame (view s.ram a (va/4096)))) (va % 4096) b

theorem store_spec {s : Mem} {a va : ℕ} {b : UInt8} (hS : Struct s) (ha : a ∈ s.spaces)
    (hva : va < 2^47) (hok : (userStore s a va b).2 = true) :
    bit (view s.ram a (va/4096)) 0 = true ∧ bit (view s.ram a (va/4096)) 1 = true ∧
      Stored s (userStore s a va b).1 a va b := by
  have hv : va/4096 < userPages := by unfold userPages; omega
  unfold userStore at hok ⊢
  simp only [has_present, has_writable] at hok ⊢
  split_ifs at hok ⊢ with hb
  rw [Bool.and_eq_true, ← view_bit _ _ _ _ (by omega) (by omega),
    ← view_bit _ _ _ 1 (by omega) (by omega)] at hb
  rw [← view_frame]
  refine ⟨hb.1,hb.2,?_⟩
  obtain ⟨hf1,hf2,hf3⟩ := hS.frames a ha _ hv hb.1
  have hr : ∀ t, Table s t → (storeByte s (pteFrame (view s.ram a (va/4096))) (va % 4096) b).ram t =
      s.ram t := by
    intro t ht
    have : t ≠ pteFrame (view s.ram a (va/4096)) := by
      rintro rfl
      exact hf3 ht
    exact update_of_ne this _ _
  obtain ⟨hS1,htab⟩ := struct_data hS hr
  obtain ⟨hG,hS2⟩ := touch_grow hS1 ha hva
  refine ⟨hS2,hG.spaces,hG.log,hG.kept,?_,?_,?_⟩
  · intro d hd v hv'
    have h1 := hG.views d hd v hv'
    have h2 := (trees_same s hS.trees _ hr).2.2 d v hd hv'
    refine Eq.trans h1 ?_
    exact congrArg (· &&& ~~~pteAccessed) h2
  · intro g hg hn hne
    have h1 := hG.data g hg (fun h => hn ((htab g).mp h))
    refine Eq.trans h1 ?_
    exact update_of_ne hne _ _
  · have h1 := hG.data _ hf2 (fun h => hf3 ((htab _).mp h))
    refine Eq.trans h1 ?_
    exact update_self _ _ _

end HobbyOS.CowFault

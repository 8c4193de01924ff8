import HobbyOS.ForkSpace

/-!
# The effect of a fork

After a successful fork without eviction the child maps what the parent
maps. In both a writable entry has become read-only and copy-on-write, and
each mapped frame has one more reference, unless its counter is full.
-/

namespace HobbyOS.CowFork
open RadixTree PageEntry PhysMem UserVm
  AddressSpace TableGrowth PageAlloc ForkSpace Function

variable (e : Pte) (s : Mem) (c : Ctx)

/-- What a fork makes of a present entry, in the parent and in the child. -/
def share : Pte := if bit e 1 then (e &&& ~~~pteWritable) ||| pteCow else e

theorem share_bit {i : ℕ} (h1 : i ≠ 1) (h9 : i ≠ 9) (hi : i < 64) :
    bit (share e) i = bit e i := by
  unfold share
  split_ifs <;> simp [h1, h9, hi]

theorem share_not_writable : bit (share e) 1 = false := by
  unfold share
  split_ifs with h
  · simp
  · simpa using h

theorem share_cow : bit (share e) 9 = (bit e 1 || bit e 9) := by
  unfold share
  split_ifs with h <;> simp [h]

theorem share_frame : pteFrame (share e) = pteFrame e :=
  frame_congr _ _ (fun i h1 h2 => share_bit e (by omega) (by omega) (by omega))

theorem share_clean : share e &&& ~~~pteAccessed = share (e &&& ~~~pteAccessed) := by
  apply eq_of_bits
  intro i hi
  unfold share
  rw [clean_bit e (by decide) (by decide)]
  split_ifs with h
  · by_cases h9 : i = 9
    · simp [h9]
    · simp [h9, Bool.and_comm, Bool.and_left_comm]
  · rfl

theorem share_word : frameWord (pteFrame e) |||
    (if has (e &&& ~~~pteAddrMask) pteWritable then cowFlags (e &&& ~~~pteAddrMask)
      else e &&& ~~~pteAddrMask) = share e := by
  have hw : has (e &&& ~~~pteAddrMask) pteWritable = bit e 1 := by
    rw [has_writable, flags_bit e 1 (by omega) (by omega)]
  rw [hw]
  apply eq_of_bits
  intro i hi
  have hfw : bit (frameWord (pteFrame e)) i = (decide (12 ≤ i) && decide (i < 52) && bit e i) := by
    by_cases h1 : 12 ≤ i
    · simp [frameWord, address_bit, frame_bit, hi, h1]
      by_cases h2 : i < 52
      · simp [h2, show i-12 < 40 by omega]
      · simp [h2]
    · simp [frameWord, h1]
  unfold share cowFlags
  split_ifs with h
  · simp only [bit_or, bit_and, bit_not, hfw, hi]
    by_cases h1 : 12 ≤ i
    · by_cases h2 : i < 52
      · simp [h1, h2, show i ≠ 1 by omega]
      · simp [h2]
    · simp [h1]
  · simp only [bit_or, bit_and, bit_not, hfw, hi]
    by_cases h1 : 12 ≤ i
    · by_cases h2 : i < 52 <;> simp [h1, h2]
    · simp [h1]

theorem share_leaf_entry (h : bit e 0 = true) : leafEntry (pteFrame e)
    (if has (e &&& ~~~pteAddrMask) pteWritable then cowFlags (e &&& ~~~pteAddrMask)
      else e &&& ~~~pteAddrMask) = share e := by
  unfold leafEntry
  rw [share_word]
  apply eq_of_bits
  intro i hi
  by_cases h0 : i = 0
  · simp [h0, share_bit e, h]
  · simp [h0]

/-- `page_refcount` is eight bits wide and sticks at its maximum. -/
def addRef (n : ℕ) : ℕ := if n < 255 then n+1 else n

def counted (f : ℕ) : Mem :=
  { s with pageRefcount := update s.pageRefcount f (addRef (s.pageRefcount f)) }

theorem page_ref_shape {f : ℕ} (hf : f < s.totalPages) :
    pmmPageRef s f = counted s f := by
  unfold pmmPageRef counted addRef
  by_cases h : s.pageRefcount f < 255
  · rw [if_pos ⟨hf,h⟩, if_pos h]
  · rw [if_neg (fun hc => h hc.2), if_neg h, update_eq_self]

theorem record_mapping_shape (s : Mem) (virt f : ℕ) (hv : virt < 2^47)
    (hlow : ∀ g, (s.rmapTable g).virtAddr < 2^47) :
    ∃ m, (∀ g, (m g).virtAddr < 2^47) ∧ recordMapping c s virt f = { s with rmapTable := m } := by
  unfold recordMapping
  split_ifs
  · cases c.current with
    | none => exact ⟨_,hlow,rfl⟩
    | some p =>
      unfold rmapSet
      split_ifs
      · refine ⟨_,?_,rfl⟩
        intro g
        by_cases hg : g = f
        · rw [hg, update_self]
          exact hv
        · rw [update_of_ne hg]
          exact hlow g
      · exact ⟨_,hlow,rfl⟩
  · exact ⟨_,hlow,rfl⟩

theorem extend_refl : Extend s s := extend_of_grow (grow_refl s)

theorem extend_counts (rc : ℕ → ℕ) (m : ℕ → RmapEntry) :
    Extend s { s with pageRefcount := rc, rmapTable := m } :=
  ⟨rfl,rfl,rfl,rfl,fun _ h => h,fun _ _ _ _ _ h => h,fun _ h => Or.inl h,fun _ _ _ => rfl⟩

theorem extend_leaf (hS : Struct s) {a v t : ℕ} (ha : a ∈ s.spaces)
    (hv : v < userPages) (ht : leafTable s.ram a v = some t) (e : Pte) :
    Extend s { s with ram := setEntry s.ram t (v % 512) e } := by
  refine ⟨rfl,rfl,rfl,rfl,fun _ h => h,?_,?_,?_⟩
  · intro b hb p u hp hu
    rw [← hu]
    exact set_leaf_walk s hS.trees a v t ha hv ht e b p hb hp
  · intro u hu
    exact Or.inl ((set_leaf_tables s hS ha hv ht e u).mp hu)
  · intro g hg hn
    have hgt : g ≠ t := by
      rintro rfl
      exact hn (leaf_table_table s ha hv ht)
    exact set_entry_frame _ _ _ _ _ hgt

theorem carry_grow (s : Mem) (hL : Live c s) :
    Carry c (fun x => Grow s x ∧ Struct x) (fun n => logLength s < n) where
  struct _ h := h.2
  live x h := by
    unfold Live
    rw [h.1.spaces]
    exact hL
  grow _ _ h hG hS := ⟨grow_trans h.1 hG,hS⟩
  evict x x' h he := by
    right
    have := evicts_log c he
    rw [h.1.log] at this
    unfold logLength
    omega
  stay _ _ h hle := lt_of_lt_of_le h hle

/-- The fork after its first `n` pages, against the state `s0` it began in. -/
structure Shared (s0 : Mem) (parent new n : ℕ) (s : Mem) : Prop where
  struct : Struct s
  extend : Extend s0 s
  others : ∀ b ∈ s0.spaces, b ≠ parent → b ≠ new → ∀ v < userPages,
    view s.ram b v = view s0.ram b v
  ofParent : ∀ v < userPages, view s.ram parent v =
    if v < n ∧ bit (view s0.ram parent v) 0 = true then share (view s0.ram parent v)
    else view s0.ram parent v
  ofNew : ∀ v < userPages, view s.ram new v =
    if v < n ∧ bit (view s0.ram parent v) 0 = true then share (view s0.ram parent v) else 0#64
  counts : ∀ v < userPages, bit (view s0.ram parent v) 0 = true →
    s.pageRefcount (pteFrame (view s0.ram parent v)) =
      if v < n then addRef (s0.pageRefcount (pteFrame (view s0.ram parent v)))
      else s0.pageRefcount (pteFrame (view s0.ram parent v))
  rest : ∀ g, s0.bitmap g = true →
    (∀ v < userPages, bit (view s0.ram parent v) 0 = true → pteFrame (view s0.ram parent v) ≠ g) →
    s.pageRefcount g = s0.pageRefcount g

def sharedParent (t i : ℕ) : Mem :=
  if has (entry s.ram t i &&& ~~~pteAddrMask) pteWritable then
    { s with ram := setEntry s.ram t i (share (entry s.ram t i)) }
  else s

theorem shared_parent_struct (hS : Struct s) {a v t : ℕ} (ha : a ∈ s.spaces)
    (hv : v < userPages) (ht : leafTable s.ram a v = some t)
    (hp : bit (view s.ram a v) 0 = true) :
    Struct (sharedParent s t (v % 512)) ∧ Extend s (sharedParent s t (v % 512)) ∧
      ∀ b ∈ s.spaces, ∀ w < userPages, view (sharedParent s t (v % 512)).ram b w =
        if b = a ∧ w = v then share (view s.ram a v) else view s.ram b w := by
  have hview : view s.ram a v = entry s.ram t (v % 512) &&& ~~~pteAccessed := by
    rw [view, leaf_of_table _ ht]
  have hw : has (entry s.ram t (v % 512) &&& ~~~pteAddrMask) pteWritable =
      bit (view s.ram a v) 1 := by
    rw [has_writable, flags_bit _ 1 (by omega) (by omega), hview,
      clean_bit _ (by omega) (by omega)]
  have hfr : pteFrame (share (entry s.ram t (v % 512))) = pteFrame (view s.ram a v) := by
    rw [share_frame, view_frame, leaf_of_table _ ht]
  unfold sharedParent
  rw [hw]
  split_ifs with h
  · refine ⟨?_,extend_leaf s hS ha hv ht _,?_⟩
    · apply struct_set_leaf s hS a v t ha hv ht
      · intro _
        rw [hfr]
        exact hS.frames a ha v hv hp
      · intro _ b hb w hw' hb0 hf
        rw [hfr] at hf
        exact hS.place b hb a ha w hw' v hv hb0 hp hf
    · intro b hb w hw'
      rw [set_leaf_view s hS a v t ha hv ht _ b w hb hw', share_clean, hview]
  · refine ⟨hS,extend_refl s,?_⟩
    intro b hb w hw'
    split_ifs with hc
    · rw [hc.1, hc.2, share, if_neg h]
    · rfl

def sharedFlags : Pte :=
  if has (e &&& ~~~pteAddrMask) pteWritable then cowFlags (e &&& ~~~pteAddrMask)
  else e &&& ~~~pteAddrMask

theorem fork_page_present (new virt : ℕ) {t i : ℕ} {s : Mem}
    (hp : bit (entry s.ram t i) 0 = true) : forkPage c new virt t i s =
      forkMapped (userVmMapPage c
        (pmmPageRef (sharedParent s t i) (pteFrame (entry s.ram t i))) new virt
        (pteFrame (entry s.ram t i)) (sharedFlags (entry s.ram t i))) := by
  have hw := share_word (entry s.ram t i)
  unfold forkPage sharedParent sharedFlags
  simp only [has_present, hp, Bool.not_true, Bool.false_eq_true, if_false, hw]

theorem fork_mapped_sat {r : Mem × Bool} (N R : Mem → Prop) (h : r.2 = true → N r.1)
    (h' : r.2 = false → R r.1) : (forkMapped r).Sat N (fun s _ => R s) := by
  obtain ⟨s,ok⟩ := r
  cases ok with
  | false => exact h' rfl
  | true => exact h rfl

theorem shared_step {s0 : Mem} {parent new v : ℕ} {s s1 s3 s4 : Mem} {t : ℕ} (m : ℕ → RmapEntry)
    (ha : parent ∈ s0.spaces) (hb : new ∈ s0.spaces) (hv : v < userPages)
    (hS0 : Struct s0) (h : Shared s0 parent new v s) (hp : bit (view s0.ram parent v) 0 = true)
    (hE1 : Extend s s1) (hc1 : s1.pageRefcount = s.pageRefcount)
    (hview1 : ∀ b ∈ s.spaces, ∀ w < userPages, view s1.ram b w =
      if b = parent ∧ w = v then share (view s0.ram parent v) else view s.ram b w)
    (hG : Grow (counted s1 (pteFrame (view s0.ram parent v))) s3)
    (hS3 : Struct s3) (ht : leafTable s3.ram new v = some t)
    (hm : ∀ g, (m g).virtAddr < 2^47) {e : Pte}
    (he : e &&& ~~~pteAccessed = share (view s0.ram parent v))
    (h4 : s4 = { s3 with ram := setEntry s3.ram t (v % 512) e, rmapTable := m }) :
    Shared s0 parent new (v+1) s4 := by
  have hsp : s.spaces = s0.spaces := h.extend.spaces
  have hsp1 : s1.spaces = s0.spaces := hE1.spaces.trans hsp
  have hsp3 : s3.spaces = s0.spaces := hG.spaces.trans hsp1
  have hb3 : new ∈ s3.spaces := by rw [hsp3]; exact hb
  have hframe : pteFrame e = pteFrame (view s0.ram parent v) := by
    rw [← share_frame (view s0.ram parent v), ← he]
    exact frame_congr _ _ (fun i h1 h2 => (clean_bit e (by omega) (by omega)).symm)
  have hview3 : ∀ b ∈ s0.spaces, ∀ w < userPages, view s3.ram b w =
      if b = parent ∧ w = v then share (view s0.ram parent v) else view s.ram b w := by
    intro b hb w hw
    rw [hG.views b (by rw [← hsp1] at hb; exact hb) w hw]
    exact hview1 b (by rw [hsp]; exact hb) w hw
  have hview4 : ∀ b ∈ s0.spaces, ∀ w < userPages, view s4.ram b w =
      if b = new ∧ w = v then share (view s0.ram parent v) else
      if b = parent ∧ w = v then share (view s0.ram parent v) else view s.ram b w := by
    intro b hb w hw
    rw [h4, ← hview3 b hb w hw, ← he]
    exact set_leaf_view s3 hS3 new v t hb3 hv ht e b w (by rw [hsp3]; exact hb) hw
  have hcounted : Extend s1 (counted s1 (pteFrame (view s0.ram parent v))) :=
    extend_counts s1 _ s1.rmapTable
  have hE3 : Extend s0 s3 := extend_trans (extend_trans h.extend hE1)
    (extend_trans hcounted (extend_of_grow hG))
  have hE4 : Extend s0 s4 := by
    have h1 := extend_leaf s3 hS3 hb3 hv ht e
    have h2 := extend_counts { s3 with ram := setEntry s3.ram t (v % 512) e } s3.pageRefcount m
    rw [h4]
    exact extend_trans hE3 (extend_trans h1 h2)
  obtain ⟨hf1,hf2,hf3⟩ := hS0.frames parent ha v hv hp
  have hrc : ∀ g, s0.bitmap g = true → s4.pageRefcount g =
      if g = pteFrame (view s0.ram parent v) then addRef (s.pageRefcount g)
      else s.pageRefcount g := by
    intro g hg
    have hk := (hG.kept g (hE1.kept g (h.extend.kept g hg))).2
    rw [h4]
    rw [hk, counted, hc1]
    dsimp only
    split_ifs with hgf
    · rw [hgf, update_self]
    · rw [update_of_ne hgf]
  have hparent3 : view s3.ram parent v = share (view s0.ram parent v) := by
    rw [hview3 parent ha v hv, if_pos ⟨rfl,rfl⟩]
  have hpresent3 : bit (view s3.ram parent v) 0 = true := by
    rw [hparent3, share_bit _ (by omega) (by omega) (by omega), hp]
  have hS4 : Struct s4 := by
    have hset := struct_set_leaf s3 hS3 new v t hb3 hv ht e (by
        intro _
        rw [hframe]
        refine ⟨by rw [hE3.total]; exact hf1,hE3.kept _ hf2,?_⟩
        exact extend_not_table hE3 hf2 hf3) (by
        intro _ b hb' w hw hbit hfr
        apply hS3.place b hb' parent (by rw [hsp3]; exact ha) w hw v hv hbit hpresent3
        rw [hfr, hframe, hparent3, share_frame])
    rw [h4]
    exact struct_congr hset rfl rfl rfl rfl rfl hm
  refine ⟨hS4,hE4,?_,?_,?_,?_,?_⟩
  · intro b hb' h1 h2 w hw
    rw [hview4 b hb' w hw, if_neg (fun hc => h2 hc.1), if_neg (fun hc => h1 hc.1)]
    exact h.others b hb' h1 h2 w hw
  · intro w hw
    rw [hview4 parent ha w hw, h.ofParent w hw]
    by_cases hwv : w = v
    · subst hwv
      simp [hp]
    · simp only [hwv, and_false, if_false]
      simp only [show (w < v+1) ↔ (w < v) by omega]
  · intro w hw
    rw [hview4 new hb w hw, h.ofNew w hw]
    by_cases hwv : w = v
    · subst hwv
      simp [hp]
    · simp only [hwv, and_false, if_false]
      simp only [show (w < v+1) ↔ (w < v) by omega]
  · intro w hw hbit
    rw [hrc _ (hS0.frames parent ha w hw hbit).2.1, h.counts w hw hbit]
    by_cases hwv : w = v
    · subst hwv
      simp
    · rw [if_neg (fun hf => hwv (hS0.place parent ha parent ha w hw v hv hbit hp hf))]
      simp only [show (w < v+1) ↔ (w < v) by omega]
  · intro g hg hout
    rw [hrc g hg, if_neg (fun hgf => hout v hv hp hgf.symm)]
    exact h.rest g hg hout

theorem shared_parent_counts (t i : ℕ) :
    (sharedParent s t i).pageRefcount = s.pageRefcount ∧
      (sharedParent s t i).spaces = s.spaces := by
  unfold sharedParent
  split_ifs <;> exact ⟨rfl,rfl⟩

theorem shared_skip {s0 : Mem} {parent new n m : ℕ} {s : Mem} (h : Shared s0 parent new n s)
    (hnm : n ≤ m) (hskip : ∀ w, n ≤ w → w < m → bit (view s0.ram parent w) 0 = false) :
    Shared s0 parent new m s := by
  have hlt : ∀ w, bit (view s0.ram parent w) 0 = true → (w < m ↔ w < n) := by
    intro w hw
    by_contra hc
    rw [hskip w (by omega) (by omega)] at hw
    cases hw
  have hand : ∀ w, (w < m ∧ bit (view s0.ram parent w) 0 = true) ↔
      (w < n ∧ bit (view s0.ram parent w) 0 = true) :=
    fun w => and_congr_left (hlt w)
  refine ⟨h.struct,h.extend,h.others,?_,?_,?_,h.rest⟩
  · intro w hw
    simp only [hand w]
    exact h.ofParent w hw
  · intro w hw
    simp only [hand w]
    exact h.ofNew w hw
  · intro w hw hwb
    simp only [hlt w hwb]
    exact h.counts w hw hwb

theorem fork_page_log (new virt pt i : ℕ) (s : Mem) :
    (forkPage c new virt pt i s).Sat (fun s' => logLength s ≤ logLength s') (fun _ _ => True) := by
  by_cases hp : bit (entry s.ram pt i) 0 = true
  · rw [fork_page_present c new virt hp]
    have hmono := map_page_log c
      (pmmPageRef (sharedParent s pt i) (pteFrame (entry s.ram pt i))) new virt
      (pteFrame (entry s.ram pt i)) (sharedFlags (entry s.ram pt i))
    have hsame : logLength (pmmPageRef (sharedParent s pt i) (pteFrame (entry s.ram pt i))) =
        logLength s := by
      unfold pmmPageRef sharedParent
      split_ifs <;> rfl
    rw [hsame] at hmono
    exact fork_mapped_sat _ _ (fun _ => hmono) (fun _ => trivial)
  · have : forkPage c new virt pt i s = .next s := by
      unfold forkPage
      simp [hp]
    rw [this]
    exact le_refl _

section fork
variable (c : Ctx) (s0 : Mem) (parent new : ℕ) (ha : parent ∈ s0.spaces)
  (hb : new ∈ s0.spaces) (hS0 : Struct s0) (hL : Live c s0)

include ha hb hS0 hL

theorem fork_page_shared {v : ℕ} {s : Mem} {pt : ℕ} (hv : v < userPages)
    (h : Shared s0 parent new v s) (hpt : leafTable s.ram parent v = some pt) :
    (forkPage c new (4096*v) pt (v % 512) s).Sat
      (fun s' => (Shared s0 parent new (v+1) s' ∧ Keeps parent s s') ∨ logLength s0 < logLength s')
      (fun _ _ => True) := by
  have hview : view s.ram parent v = view s0.ram parent v := by
    rw [h.ofParent v hv, if_neg (by omega)]
  have hleaf := leaf_of_table s.ram hpt
  have hbit : bit (entry s.ram pt (v % 512)) 0 = bit (view s0.ram parent v) 0 := by
    rw [← hview, view_bit _ _ _ _ (by omega) (by omega), hleaf]
  cases hp : bit (view s0.ram parent v) 0 with
  | false =>
    have : forkPage c new (4096*v) pt (v % 512) s = .next s := by
      unfold forkPage
      simp [hbit, hp]
    rw [this]
    refine Or.inl ⟨?_,keeps_refl parent s⟩
    apply shared_skip h (by omega)
    intro w h1 h2
    rw [show w = v by omega, hp]
  | true =>
    have hsp := h.extend.spaces
    have ha' : parent ∈ s.spaces := by rw [hsp]; exact ha
    have hframe : pteFrame (entry s.ram pt (v % 512)) = pteFrame (view s0.ram parent v) := by
      rw [← hview, view_frame, hleaf]
    obtain ⟨hS1,hE1,hview1⟩ := shared_parent_struct s h.struct ha' hv hpt
      (by rw [hview]; exact hp)
    obtain ⟨hc1,hsp1⟩ := shared_parent_counts s pt (v % 512)
    have hbound := (hS0.frames parent ha v hv hp).1
    have hS2 : Struct (counted (sharedParent s pt (v % 512)) (pteFrame (view s0.ram parent v))) :=
      struct_congr hS1 rfl rfl rfl rfl rfl hS1.low
    have hL2 : Live c (counted (sharedParent s pt (v % 512)) (pteFrame (view s0.ram parent v))) := by
      change ∀ p, _ → _ → _ → _ ∈ (sharedParent s pt (v % 512)).spaces
      rw [hsp1, hsp]
      exact hL
    have hlog2 : logLength (counted (sharedParent s pt (v % 512))
        (pteFrame (view s0.ram parent v))) = logLength s0 := by
      unfold logLength
      change (sharedParent s pt (v % 512)).evictions.length = _
      rw [hE1.log, h.extend.log]
    rw [fork_page_present c new _ (by rw [hbit]; exact hp), hframe,
      page_ref_shape _ (by rw [hE1.total, h.extend.total]; exact hbound)]
    have hmap := map_page_carry c _ _ (carry_grow c _ hL2) _ ⟨grow_refl _,hS2⟩ new (4096*v)
      (pteFrame (view s0.ram parent v)) (sharedFlags (entry s.ram pt (v % 512)))
      (by change new ∈ (sharedParent s pt (v % 512)).spaces; rw [hsp1, hsp]; exact hb)
      (by unfold userPages at hv; omega)
    rw [show 4096*v/4096 = v by omega] at hmap
    rcases hmap with hE | ⟨-,-,hf⟩ | ⟨s3,t,⟨hG,hS3⟩,-,ht,hr⟩
    · rw [hlog2] at hE
      exact fork_mapped_sat _ _ (fun _ => Or.inr hE) (fun _ => trivial)
    · refine fork_mapped_sat _ _ (fun h => ?_) (fun _ => trivial)
      rw [hf] at h
      cases h
    · have hse := share_leaf_entry (entry s.ram pt (v % 512)) (by rw [hbit]; exact hp)
      rw [hframe] at hse
      have hse' : leafEntry (pteFrame (view s0.ram parent v))
          (sharedFlags (entry s.ram pt (v % 512))) = share (entry s.ram pt (v % 512)) := hse
      rw [hr, hse']
      obtain ⟨m,hm,hrec⟩ := record_mapping_shape c { s3 with
        ram := setEntry s3.ram t (v % 512) (share (entry s.ram pt (v % 512))) } (4096*v)
        (pteFrame (view s0.ram parent v)) (by unfold userPages at hv; omega) hS3.low
      rw [hrec]
      left
      constructor
      · apply shared_step m ha hb hv hS0 h
          hp hE1 hc1 _ hG hS3 ht hm _ rfl
        · rw [← hview]
          exact hview1
        · rw [share_clean, ← hview, view, hleaf]
      · intro p u hpu hu
        have h1 := hE1.walks parent ha' p u hpu hu
        have h2 := hG.walks parent (by change _ ∈ (sharedParent s pt (v % 512)).spaces; rw [hsp1]; exact ha') p u hpu h1
        rw [← h2]
        exact set_leaf_walk s3 hS3.trees new v t (by
          rw [hG.spaces]
          change new ∈ (sharedParent s pt (v % 512)).spaces
          rw [hsp1, hsp]
          exact hb) hv ht _ parent p (by
          rw [hG.spaces]
          change parent ∈ (sharedParent s pt (v % 512)).spaces
          rw [hsp1]
          exact ha') hpu

theorem fork_space_shared (h0 : ∀ v < userPages, view s0.ram new v = 0#64) (K : Mem → Prop) (hK0 : K s0)
    (hK : ∀ v s pt, v < userPages → Struct s → parent ∈ s.spaces → leafTable s.ram parent v = some pt →
      K s → (forkPage c new (4096*v) pt (v % 512) s).Sat K (fun _ _ => True)) :
    (forkSpace c parent new s0).Sat
      (fun s' => (Shared s0 parent new userPages s' ∧ K s') ∨ logLength s0 < logLength s')
      (fun _ _ => True) := by
  have hspace : ∀ v s, Shared s0 parent new v s ∧ K s → Struct s ∧ parent ∈ s.spaces := by
    intro v s h
    refine ⟨h.1.struct,?_⟩
    rw [h.1.extend.spaces]
    exact ha
  apply fork_rule c parent new (fun v s => Shared s0 parent new v s ∧ K s)
    (fun s' => logLength s0 < logLength s')
  · exact hspace
  · intro v w s h hvw hw hskip
    refine ⟨shared_skip h.1 hvw ?_,h.2⟩
    intro u h1 h2
    have hu := hskip u h1 h2
    rw [← view_bit _ _ _ _ (by omega) (by omega), h.1.ofParent u (by omega), if_neg (by omega)] at hu
    exact hu
  · intro v s pt hv h hpt
    have hs := hspace v s h
    refine ((fork_page_shared c s0 parent new ha hb hS0 hL hv h.1 hpt).and
      (hK v s pt hv hs.1 hs.2 hpt h.2)).mono ?_ (fun _ _ _ => trivial)
    rintro t ⟨⟨hsh,hk⟩ | hlog,hkt⟩
    · exact .inl ⟨⟨hsh,hkt⟩,hk⟩
    · exact .inr hlog
  · intro s virt pt i hE
    exact (fork_page_log c new virt pt i s).mono (fun _ h => lt_of_lt_of_le hE h) (fun _ _ h => h)
  · refine ⟨⟨hS0,extend_refl s0,fun _ _ _ _ _ _ => rfl,?_,?_,?_,fun _ _ _ => rfl⟩,hK0⟩
    · intro v _
      simp
    · intro v hv
      simp [h0 v hv]
    · intro v _ _
      simp

end fork

/-- The whole effect of a successful fork, against the state before the call. -/
structure Forked (s s' : Mem) (parent new : ℕ) : Prop where
  struct : Struct s'
  fresh : new ∉ s.spaces
  spaces : s'.spaces = new :: s.spaces
  total : s'.totalPages = s.totalPages
  limit : s'.kernelPageLimit = s.kernelPageLimit
  log : s'.evictions = s.evictions
  kept : ∀ g, s.bitmap g = true → s'.bitmap g = true
  data : ∀ g, s.bitmap g = true → ¬Table s g → s'.ram g = s.ram g
  others : ∀ b ∈ s.spaces, b ≠ parent → ∀ v < userPages, view s'.ram b v = view s.ram b v
  ofParent : ∀ v < userPages, view s'.ram parent v =
    if bit (view s.ram parent v) 0 = true then share (view s.ram parent v) else view s.ram parent v
  ofNew : ∀ v < userPages, view s'.ram new v =
    if bit (view s.ram parent v) 0 = true then share (view s.ram parent v) else 0#64
  counts : ∀ v < userPages, bit (view s.ram parent v) 0 = true →
    s'.pageRefcount (pteFrame (view s.ram parent v)) =
      addRef (s.pageRefcount (pteFrame (view s.ram parent v)))
  rest : ∀ g, s.bitmap g = true →
    (∀ v < userPages, bit (view s.ram parent v) 0 = true → pteFrame (view s.ram parent v) ≠ g) →
    s'.pageRefcount g = s.pageRefcount g

theorem forked_of_shared {s s1 s' : Mem} {parent new : ℕ} (hS : Struct s)
    (ha : parent ∈ s.spaces) (hfree : s.bitmap new = false) (hG : Grow s s1) (hF : FreshRoot s1 new)
    (h : Shared (withRoot s1 new) parent new userPages s') : Forked s s' parent new := by
  have hviews : ∀ b ∈ s.spaces, ∀ v < userPages,
      view (withRoot s1 new).ram b v = view s.ram b v := hG.views
  have hnew : new ∉ s.spaces := by
    intro hn
    exact hF.apart (root_table s1 (by rw [hG.spaces]; exact hn))
  have hcount : ∀ g, s.bitmap g = true →
      (withRoot s1 new).pageRefcount g = s.pageRefcount g := fun g hg => (hG.kept g hg).2
  refine ⟨h.struct,hnew,?_,?_,?_,?_,?_,?_,?_,?_,?_,?_,?_⟩
  · rw [h.extend.spaces, withRoot, hG.spaces]
  · rw [h.extend.total, withRoot, hG.total]
  · rw [h.extend.limit, withRoot, hG.limit]
  · rw [h.extend.log, withRoot, hG.log]
  · intro g hg
    exact h.extend.kept g (hG.kept g hg).1
  · intro g hg hn
    have hn1 : ¬Table s1 g := by
      intro ht
      rcases hG.tables g ht with h1 | h1
      · exact hn h1
      · rw [hg] at h1
        cases h1
    have hgn : g ≠ new := by
      rintro rfl
      rw [hg] at hfree
      cases hfree
    have hn2 : ¬Table (withRoot s1 new) g := by
      rw [with_root_table s1 new hF]
      exact fun h => h.elim hgn hn1
    rw [h.extend.data g (hG.kept g hg).1 hn2]
    exact hG.data g hg hn
  · intro b hb hne v hv
    rw [h.others b (List.mem_cons_of_mem _ (by rw [hG.spaces]; exact hb)) hne
      (by rintro rfl; exact hnew hb) v hv]
    exact hviews b hb v hv
  · intro v hv
    rw [h.ofParent v hv, hviews parent ha v hv]
    simp only [hv, true_and]
  · intro v hv
    rw [h.ofNew v hv, hviews parent ha v hv]
    simp only [hv, true_and]
  · intro v hv hp
    have := h.counts v hv (by rw [hviews parent ha v hv]; exact hp)
    rw [hviews parent ha v hv, if_pos hv] at this
    rw [this, hcount _ (hS.frames parent ha v hv hp).2.1]
  · intro g hg hout
    rw [h.rest g (hG.kept g hg).1 (by
      intro v hv
      rw [hviews parent ha v hv]
      exact hout v hv)]
    exact hcount g hg

theorem fork_of_create {s s1 : Mem} (parent : ℕ) {n : ℕ}
    (hr : userVmCreateAddressSpace c s = (s1,n)) (hn : n ≠ 0) :
    userVmForkAddressSpace c s parent =
      forkResult n (forkSpace c parent n s1) := by
  obtain ⟨m,rfl⟩ := Nat.exists_eq_succ_of_ne_zero hn
  rw [userVmForkAddressSpace, hr]
  rfl

theorem fork_shared {s : Mem} {parent : ℕ} (hS : Struct s) (hL : Live c s)
    (ha : parent ∈ s.spaces) (hok : (userVmForkAddressSpace c s parent).2 ≠ 0)
    (hlog : logLength (userVmForkAddressSpace c s parent).1 = logLength s) (K : Mem → Prop)
    (hcreate : K (userVmCreateAddressSpace c s).1)
    (hK : ∀ new v s pt, v < userPages → Struct s → parent ∈ s.spaces → leafTable s.ram parent v = some pt →
      K s → (forkPage c new (4096*v) pt (v % 512) s).Sat K (fun _ _ => True)) :
    ∃ s1, Grow s s1 ∧ FreshRoot s1 (userVmForkAddressSpace c s parent).2 ∧
      s.bitmap (userVmForkAddressSpace c s parent).2 = false ∧
      Shared (withRoot s1 (userVmForkAddressSpace c s parent).2) parent
        (userVmForkAddressSpace c s parent).2 userPages (userVmForkAddressSpace c s parent).1 ∧
      K (userVmForkAddressSpace c s parent).1 := by
  have hcarry := create_carry _ _ (carry_grow c s hL) ⟨grow_refl s,hS⟩
  obtain ⟨s1,new,hr⟩ : ∃ s1 new, userVmCreateAddressSpace c s = (s1,new) := ⟨_,_,rfl⟩
  rw [hr] at hcarry hcreate
  cases new with
  | zero =>
    rw [userVmForkAddressSpace, hr] at hok
    exact absurd rfl hok
  | succ m =>
  rw [fork_of_create c parent hr (by omega)] at hok hlog ⊢
  rcases hcarry with hE | ⟨-,h0⟩ | ⟨s2,s3,n,⟨hG2,-⟩,hfree,⟨hG3,hS3⟩,-,-,hF,heq⟩
  · have hstay := fork_space_stay c parent (m+1) (fun s' => logLength s < logLength s')
      (fun _ => True) (fun t virt pt i ht => (fork_page_log c (m+1) virt pt i t).mono
        (fun _ h => lt_of_lt_of_le ht h) (fun _ _ h => h)) hE
    cases hf : forkSpace c parent (m+1) s1 with
    | next s' =>
      rw [hf] at hstay hlog
      exact absurd hlog.symm (Nat.ne_of_lt hstay)
    | ret s' _ =>
      rw [hf] at hok
      exact absurd rfl hok
  · cases h0
  · obtain ⟨rfl,rfl⟩ := Prod.mk.inj heq
    have hfree' : s.bitmap (m+1) = false := by
      by_contra hb
      rw [Bool.not_eq_false] at hb
      rw [(hG2.kept _ hb).1] at hfree
      cases hfree
    have ha3 : parent ∈ (withRoot s3 (m+1)).spaces :=
      List.mem_cons_of_mem _ (by rw [hG3.spaces]; exact ha)
    have hL3 : Live c (withRoot s3 (m+1)) := by
      intro p h1 h2 h3
      exact List.mem_cons_of_mem _ (by rw [hG3.spaces]; exact hL p h1 h2 h3)
    have hloop := fork_space_shared c (withRoot s3 (m+1)) parent (m+1) ha3
      List.mem_cons_self (struct_with_root s3 hS3 (m+1) hF) hL3 (with_root_view s3 (m+1) hF) K hcreate
      (hK (m+1))
    cases hf : forkSpace c parent (m+1) (withRoot s3 (m+1)) with
    | next s' =>
      rw [hf] at hloop hlog
      rcases hloop with ⟨h,hk⟩ | h
      · exact ⟨s3,hG3,hF,hfree',h,hk⟩
      · have : logLength (withRoot s3 (m+1)) = logLength s := by
          unfold logLength
          change s3.evictions.length = _
          rw [hG3.log]
        rw [this] at h
        exact absurd hlog.symm (Nat.ne_of_lt h)
    | ret s' _ =>
      rw [hf] at hok
      exact absurd rfl hok

theorem fork_spec {s : Mem} {parent : ℕ} (hS : Struct s) (hL : Live c s)
    (ha : parent ∈ s.spaces) (hok : (userVmForkAddressSpace c s parent).2 ≠ 0)
    (hlog : logLength (userVmForkAddressSpace c s parent).1 = logLength s) :
    Forked s (userVmForkAddressSpace c s parent).1 parent
      (userVmForkAddressSpace c s parent).2 := by
  obtain ⟨s1,hG,hF,hfree,hsh,-⟩ := fork_shared c hS hL ha hok hlog (fun _ => True) trivial
    (fun new v t pt _ _ _ _ _ => (fork_page_log c new (4096*v) pt (v % 512) t).mono (fun _ _ => trivial)
      (fun _ _ _ => trivial))
  exact forked_of_shared hS ha hfree hG hF hsh

theorem fork_tables {s s1 s' : Mem} {parent new t : ℕ} (hG : Grow s s1) (hF : FreshRoot s1 new)
    (hfree : s.bitmap new = false) (h : Shared (withRoot s1 new) parent new userPages s')
    (ht : ∃ p, UserPath p ∧ walk (child s'.ram) new p = some t) : s.bitmap t = false := by
  by_contra hb
  rw [Bool.not_eq_false] at hb
  have hnew : new ∈ s'.spaces := by
    rw [h.extend.spaces]
    exact List.mem_cons_self
  obtain ⟨p,hp,hw⟩ := ht
  have htab : Table s' t := ⟨new,p,hnew,hp,hw⟩
  have h1 := (hG.kept t hb).1
  rcases h.extend.tables t htab with h2 | h2
  · rw [with_root_table s1 new hF] at h2
    rcases h2 with rfl | h2
    · rw [hb] at hfree
      cases hfree
    · -- a table of another space stays a table of that space alone
      obtain ⟨b,q,hbs,hq,hwb⟩ := h2
      have hwb' := h.extend.walks b (List.mem_cons_of_mem _ hbs) q t hq hwb
      have hbs' : b ∈ s'.spaces := by
        rw [h.extend.spaces]
        exact List.mem_cons_of_mem _ hbs
      have heq := (h.struct.forest b new q p t hbs' hnew hq hp hwb' hw).1
      subst heq
      exact hF.apart (root_table s1 hbs)
  · rw [show (withRoot s1 new).bitmap t = s1.bitmap t from rfl, h1] at h2
    cases h2

end HobbyOS.CowFork

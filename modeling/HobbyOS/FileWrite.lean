import HobbyOS.FileBlocks

/-!
# What writing a file touches

A write to file `A` allocates blocks, enters them in the copy of the inode in
memory or in the file's indirect block and fills them. The invariant below
says of every state in between that the volume is in order with that copy in
place of the inode on disk, and that only bitmaps, blocks that were free and
blocks of `A` differ from the start.
-/

namespace HobbyOS.FileWrite
open ByteStore Ext2 VolumeLayout VolumeMaps FileBlocks Function

variable (v : Volume)

def slotOf (idx : ℕ) : Option Slot :=
  let ptrs := ptrsPerBlock v
  if idx < 12 then some (.direct idx)
  else if idx-12 < ptrs then some (.leaf (idx-12))
  else if idx-12-ptrs < ptrs*ptrs then some (.deep ((idx-12-ptrs)/ptrs) ((idx-12-ptrs) % ptrs))
  else none

theorem get_block_eq (n : Inode) (idx : ℕ) :
    ext2GetBlock v n idx = ((slotOf v idx).map (blockAt v n)).getD 0 := by
  unfold ext2GetBlock slotOf
  dsimp only
  split_ifs <;> rfl

theorem slot_valid (idx : ℕ) (s : Slot) (h : slotOf v idx = some s) : Valid v s ∧ ¬Pointers s := by
  unfold slotOf at h
  dsimp only at h
  split_ifs at h with h1 h2 h3 <;> obtain rfl := Option.some.inj h
  · exact ⟨h1,id⟩
  · exact ⟨h2,id⟩
  · have hpos : 0 < ptrsPerBlock v := Nat.pos_of_ne_zero (by rintro h0; simp [h0] at h3)
    exact ⟨⟨Nat.div_lt_of_lt_mul h3,Nat.mod_lt _ hpos⟩,id⟩

theorem slot_inj (i j : ℕ) (s : Slot) (hi : slotOf v i = some s) (hj : slotOf v j = some s) : i = j := by
  unfold slotOf at hi hj
  dsimp only at hi hj
  split_ifs at hi with h1 h2 h3 <;> split_ifs at hj with k1 k2 k3 <;> obtain rfl := Option.some.inj hi <;>
    simp only [Option.some.injEq, reduceCtorEq, Slot.direct.injEq, Slot.leaf.injEq, Slot.deep.injEq] at hj
  · exact hj.symm
  · omega
  · have d1 := Nat.div_add_mod (i-12-ptrsPerBlock v) (ptrsPerBlock v)
    have d2 := Nat.div_add_mod (j-12-ptrsPerBlock v) (ptrsPerBlock v)
    rw [hj.1] at d2
    omega

theorem slot_shape {v w : Volume} (h : SameShape v w) (idx : ℕ) : slotOf w idx = slotOf v idx := by
  unfold slotOf ptrsPerBlock
  rw [h.blockSize]

def Files : Set ℕ := {ino | Live v ino}

/-- Every block that an allocated inode names is marked, is no metadata and is
named once. -/
def Consistent : Prop := Good v (Files v) (inodeOf v)

def Scope (A : ℕ) (b : ℕ) : Prop :=
  MapBlock v .block b ∨ used v b = false ∨ ∃ s, Valid v s ∧ b ≠ 0 ∧ blockAt v (inodeOf v A) s = b

def inodesWith (A : ℕ) (n : Inode) : ℕ → Inode := update (inodeOf v) A n

theorem inodes_with_self (A : ℕ) (n : Inode) : inodesWith v A n A = n := update_self ..

theorem inodes_with_again (A : ℕ) (n n' : Inode) :
    update (inodesWith v A n) A n' = inodesWith v A n' := update_idem ..

/-- The write to `A` that began in `v0` has come to volume `v` and inode `n`. -/
structure Work (v0 : Volume) (A : ℕ) (v : Volume) (n : Inode) : Prop where
  good : Good v (Files v0) (inodesWith v0 A n)
  touch : Touch v0 v (Scope v0 A)
  stays : ∀ b, InRange v0 b → used v0 b = true → used v b = true
  own : ∀ s, Valid v0 s → blockAt v n s ≠ 0 → Scope v0 A (blockAt v n s)
  agree : Agree v0 → Agree v

theorem work_start {v : Volume} (h : Consistent v) (A : ℕ) : Work v A v (inodeOf v A) where
  good := by
    rw [inodesWith, update_eq_self]
    exact h
  touch := touch_refl v _
  stays := fun _ _ hu => hu
  own := fun s hs h0 => .inr (.inr ⟨s,hs,h0,rfl⟩)
  agree := id

section
variable {v0 v : Volume} {A : ℕ} {n : Inode} (h : Work v0 A v n)
include h

theorem work_congr {n' : Inode} (hn : ∀ k < 14, iBlock n' k = iBlock n k) : Work v0 A v n' := by
  have hslots := block_at_congr v n n' hn
  refine ⟨?_,h.touch,h.stays,fun s hs h0 => ?_,h.agree⟩
  · refine good_congr h.good fun ino _ s hs => ?_
    by_cases hA : ino = A
    · subst hA
      rw [inodes_with_self, inodes_with_self]
      exact hslots s hs
    · rw [inodesWith, inodesWith, update_of_ne hA, update_of_ne hA]
  · have hv := (valid_shape h.touch.shape s).mpr hs
    rw [hslots s hv] at h0 ⊢
    exact h.own s hs h0

theorem scope_map (b : ℕ) (hb : MapBlock v .block b) : Scope v0 A b := by
  obtain ⟨g,hg,rfl⟩ := hb
  rw [h.touch.shape.numBlockGroups] at hg
  exact .inl ⟨g,hg,shape_home h.touch.shape _⟩

theorem work_taken (hA : A ∈ Files v0) (b : ℕ) (w : Volume) (ht : Taken v w .block b) :
    Work v0 A w n ∧ Spare w (Files v0) (inodesWith v0 A n) b ∧ Scope v0 A b := by
  obtain ⟨hgood,hspare⟩ := good_taken h.good ht
  have hscope : Scope v0 A b := by
    right
    left
    by_contra hu
    have := h.stays b ((shape_in_range h.touch.shape b).mp ht.numbered) (by simpa using hu)
    rw [used, ht.clear] at this
    exact Bool.noConfusion this
  have hslots := slots_touch h.good ht.touch (meta_not_pointer h.good (map_block_meta .block)) A hA
  rw [inodes_with_self] at hslots
  refine ⟨⟨hgood,touch_trans h.touch (touch_mono ht.touch (scope_map h)),fun c hc hu => ?_,fun s hs h0 => ?_,
    fun ha => ht.agree (h.agree ha)⟩,hspare,hscope⟩
  · exact used_taken .block b ht c ((shape_in_range h.touch.shape c).mpr hc) (h.stays c hc hu)
  · rw [hslots s ((valid_shape h.touch.shape s).mpr hs)] at h0 ⊢
    exact h.own s hs h0

theorem work_write (hA : A ∈ Files v0) (b : ℕ) (m : Store) (hb : Writable v (Files v0) (inodesWith v0 A n) b)
    (hs : Scope v0 A b) :
    Work v0 A (ext2WriteBlock v b m) n := by
  have ht := touch_write h.good.layout b m hb.inRange
  have hslots := slots_touch h.good ht hb.bytes A hA
  rw [inodes_with_self] at hslots
  refine ⟨good_write h.good m hb,touch_trans h.touch (touch_mono ht ?_),fun c hc hu => ?_,fun s hs h0 => ?_,
    fun ha => ?_⟩
  · rintro c rfl
    exact hs
  · rw [used_write h.good b m hb.inRange hb.plain c ((shape_in_range h.touch.shape c).mpr hc)]
    exact h.stays c hc hu
  · rw [hslots s ((valid_shape h.touch.shape s).mpr hs)] at h0 ⊢
    exact h.own s hs h0
  · refine agree_touch h.good.layout ht (fun k g hg heq => ?_) (fun _ _ => rfl) (fun _ => rfl) (h.agree ha)
    exact hb.plain ⟨mapPlace k g,(present_map v k g).mpr hg,heq⟩

theorem work_pointer {b : ℕ} (hb : Spare v (Files v0) (inodesWith v0 A n) b) (hs : Scope v0 A b) {s0 : Slot}
    {n' : Inode} (hn : ∀ s, Valid v s → blockAt v n' s = if s = s0 then b else blockAt v n s) :
    Work v0 A v n' ∧ ∀ c, c ≠ b → Spare v (Files v0) (inodesWith v0 A n) c →
      Spare v (Files v0) (inodesWith v0 A n') c := by
  have hgood := good_pointer h.good b hb A s0 (by rw [inodes_with_self]; exact hn)
  rw [inodes_with_again] at hgood
  refine ⟨⟨hgood.1,h.touch,h.stays,fun s hv h0 => ?_,h.agree⟩,hgood.2⟩
  rw [hn s ((valid_shape h.touch.shape s).mpr hv)] at h0 ⊢
  split_ifs at h0 ⊢ with heq
  · exact hs
  · exact h.own s hv h0

theorem work_leaf (hA : A ∈ Files v0) {b : ℕ} (hb : Spare v (Files v0) (inodesWith v0 A n) b) (hs : Scope v0 A b)
    (j : ℕ) (h0 : iBlock n 12 ≠ 0) :
    let w := ext2WriteBlock v (iBlock n 12) (store (ext2ReadBlock v (iBlock n 12)) 4 (4*j) b)
    Work v0 A w n ∧ ∀ s, Valid v s → blockAt w n s = if s = .leaf j then b else blockAt v n s := by
  intro w
  have hself := inodes_with_self v0 A n
  have hleaf := good_leaf h.good b hb A j hA (by rw [hself]; exact h0)
  rw [hself] at hleaf
  obtain ⟨⟨hgood,-⟩,hslots⟩ := hleaf
  obtain ⟨hr,-,hplain⟩ := h.good.own A hA .indirect trivial (by rw [hself]; exact h0)
  rw [hself] at hr hplain
  have ht : Touch v w (· = iBlock n 12) := touch_write h.good.layout _ _ hr
  refine ⟨⟨hgood,touch_trans h.touch (touch_mono ht ?_),fun c hc hu => ?_,fun s hv hs0 => ?_,fun ha => ?_⟩,hslots⟩
  · rintro c rfl
    exact h.own .indirect trivial h0
  · have hused := used_write h.good (iBlock n 12) (store (ext2ReadBlock v (iBlock n 12)) 4 (4*j) b) hr hplain c
      ((shape_in_range h.touch.shape c).mpr hc)
    exact hused.trans (h.stays c hc hu)
  · rw [hslots s ((valid_shape h.touch.shape s).mpr hv)] at hs0 ⊢
    split_ifs at hs0 ⊢ with heq
    · exact hs
    · exact h.own s hv hs0
  · refine agree_touch h.good.layout ht (fun k g hg heq => ?_) (fun _ _ => rfl) (fun _ => rfl) (h.agree ha)
    exact hplain ⟨mapPlace k g,(present_map v k g).mpr hg,heq⟩

def GrowScope (v : Volume) (n : Inode) (c : ℕ) : Prop :=
  MapBlock v .block c ∨ used v c = false ∨ c ≠ 0 ∧ c = iBlock n 12

theorem indirect_block_cases (hA : A ∈ Files v0) :
    (iBlock n 12 = 0 ∧ findClear v blockPool = none ∧ indirectBlock v n = none) ∨
      ∃ w n', indirectBlock v n = some (w,n') ∧ Work v0 A w n' ∧ iBlock n' 12 ≠ 0 ∧
        (iBlock n 12 = 0 → findClear v blockPool ≠ none) ∧
        (∀ k, k ≠ 12 → iBlock n' k = iBlock n k) ∧ (iBlock n 12 ≠ 0 → iBlock n' 12 = iBlock n 12) ∧
        (∀ s, Valid v s → s ≠ .indirect → blockAt w n' s = blockAt v n s) ∧
        (∀ c, Spare v (Files v0) (inodesWith v0 A n) c → Spare w (Files v0) (inodesWith v0 A n') c) ∧
        (∀ k o, o+k ≤ 40 → load n' k o = load n k o) ∧ Touch v w (GrowScope v n) ∧ GrowScope v n (iBlock n' 12) := by
  unfold indirectBlock
  by_cases h0 : iBlock n 12 = 0
  · rw [if_neg (by simpa using h0), alloc_block_eq h.good.layout]
    rcases alloc_cases h.good.layout .block with ⟨hnone,heq⟩ | ht
    · rw [heq]
      exact .inl ⟨h0,hnone,rfl⟩
    · right
      generalize halloc : alloc v .block = r at ht ⊢
      obtain ⟨u,ind⟩ := r
      obtain ⟨hwork,hspare,hscope⟩ := work_taken h hA ind u ht
      have hnz := hspare.nonzero
      have hlt := (in_range_lt hwork.good.layout ind hspare.inRange).2
      have hzeroed := work_write hwork hA ind zeros (spare_writable hspare) hscope
      have hspare' := spare_write hwork.good zeros (spare_writable hspare) hspare
      have hzero : ∀ j < ptrsPerBlock (ext2WriteBlock u ind zeros), pointer (ext2WriteBlock u ind zeros) ind j = 0 := by
        intro j _
        unfold pointer
        rw [if_neg hnz, read_write_self, ← load_zero 4 (4*j)]
        apply load_congr
        intro i _ _
        rw [clip]
        split_ifs <;> rfl
      have hslots := block_at_indirect (by omega) h0 hzero
      obtain ⟨hdone,hother⟩ := work_pointer hzeroed hspare' hscope hslots
      have hset := block_set_block n 12 ind
      obtain ⟨k,rfl⟩ := Nat.exists_eq_succ_of_ne_zero hnz
      refine ⟨_,_,rfl,hdone,?_,fun _ hnone => ?_,fun k' hk => ?_,fun hx => absurd h0 hx,fun s hs hne => ?_,
        fun c hc => ?_,fun k' o ho => load_store_disjoint _ _ _ _ _ _ (by omega),
        touch_trans (touch_mono ht.touch fun c hc => .inl hc)
          (touch_mono (touch_write hwork.good.layout _ zeros hspare.inRange) ?_),?_⟩
      · rw [hset 12 (by omega)]
        exact hnz
      · rw [alloc, show findClear v (pool .block) = none from hnone] at halloc
        simp at halloc
      · rw [hset k' (by omega), if_neg hk]
      · have hu := (valid_shape ht.touch.shape s).mpr hs
        rw [hslots s ((valid_shape (write_shape u _ zeros) s).mpr hu), if_neg hne]
        have h1 := slots_touch hwork.good (touch_write hwork.good.layout _ zeros hspare.inRange)
          (spare_writable hspare).bytes A hA s hu
        have h2 := slots_touch h.good ht.touch (meta_not_pointer h.good (map_block_meta .block)) A hA s hs
        rw [inodes_with_self] at h1 h2
        exact h1.trans h2
      · have hne : c ≠ k+1 := by
          rintro rfl
          have := ht.clear
          have hm := hc.marked
          rw [used, this] at hm
          exact Bool.noConfusion hm
        exact hother c hne (spare_write hwork.good zeros (spare_writable hspare)
          (spare_taken h.good ht hc))
      · rintro c rfl
        exact .inr (.inl ht.clear)
      · rw [hset 12 (by omega)]
        exact .inr (.inl ht.clear)
  · rw [if_pos h0]
    exact .inr ⟨v,n,rfl,h,h0,fun hx => absurd hx h0,fun _ _ => rfl,fun _ => rfl,fun _ _ _ => rfl,fun _ hc => hc,
      fun _ _ _ => rfl,touch_refl v _,.inr (.inr ⟨h0,rfl⟩)⟩

def Grown (n n' : Inode) : Prop := ∀ k < 14, iBlock n k = 0 ∨ iBlock n' k = iBlock n k

/-- An index has a slot that `ext2_set_block` can reach. -/
def Reachable (v : Volume) (idx : ℕ) : Prop := idx < 12+ptrsPerBlock v

theorem set_block_cases (hA : A ∈ Files v0) (b : ℕ) (hb : Spare v (Files v0) (inodesWith v0 A n) b)
    (hs : Scope v0 A b) (idx : ℕ) :
    (ext2SetBlock v n idx b = (v,n,false) ∧
        (¬Reachable v idx ∨ 12 ≤ idx ∧ iBlock n 12 = 0 ∧ findClear v blockPool = none)) ∨
      ∃ w n', ext2SetBlock v n idx b = (w,n',true) ∧ Work v0 A w n' ∧ Reachable v idx ∧
        ¬(12 ≤ idx ∧ iBlock n 12 = 0 ∧ findClear v blockPool = none) ∧
        (ext2GetBlock v n idx = 0 → Grown n n') ∧
        (∀ s, Valid v s → s ≠ .indirect → blockAt w n' s = if slotOf v idx = some s then b else blockAt v n s) ∧
        (∀ k o, o+k ≤ 40 → load n' k o = load n k o) ∧ Touch v w (GrowScope v n) := by
  have hlt := (in_range_lt h.good.layout b hb.inRange).2
  unfold ext2SetBlock Reachable
  by_cases h1 : idx < 12
  · right
    have hslots := block_at_direct v n idx b h1 (by omega)
    have hslot : slotOf v idx = some (.direct idx) := if_pos h1
    obtain ⟨hdone,-⟩ := work_pointer h hb hs (fun s _ => hslots s)
    refine ⟨_,_,if_pos h1,hdone,by omega,by omega,fun h0 k hk => ?_,fun s hv _ => ?_,
      fun k o ho => load_store_disjoint _ _ _ _ _ _ (by omega),touch_refl v _⟩
    · rw [block_set_block n idx b k (by omega)]
      split_ifs with hk'
      · left
        rw [get_block_eq, hslot] at h0
        rw [hk']
        exact h0
      · exact .inr rfl
    · rw [hslots s, hslot]
      simp only [Option.some.injEq, eq_comm]
  · rw [if_neg h1]
    by_cases h2 : idx-12 < ptrsPerBlock v
    · rw [if_pos h2]
      have hslot : slotOf v idx = some (.leaf (idx-12)) := by
        unfold slotOf
        rw [if_neg h1, if_pos h2]
      rcases indirect_block_cases h hA with
        ⟨h0,hnone,heq⟩ | ⟨w,n',heq,hwork,h0,hfree,hk,hk12,hsame,hspare,hfields,htouch,hind⟩
      · rw [heq]
        exact .inl ⟨rfl,.inr ⟨by omega,h0,hnone⟩⟩
      · rw [heq]
        right
        obtain ⟨hdone,hslots⟩ := work_leaf hwork hA (hspare b hb) hs (idx-12) h0
        have hr := (hwork.good.own A hA .indirect trivial (by rw [inodes_with_self]; exact h0)).1
        rw [inodes_with_self] at hr
        refine ⟨_,_,rfl,hdone,by omega,fun hx => hfree hx.2.1 hx.2.2,fun _ k _ => ?_,fun s hv hne => ?_,hfields,
          touch_trans htouch (touch_mono (touch_write hwork.good.layout _ _ hr) ?_)⟩
        · by_cases h12 : k = 12
          · subst h12
            by_cases hz : iBlock n 12 = 0
            · exact .inl hz
            · exact .inr (hk12 hz)
          · exact .inr (hk k h12)
        · have hshape := shape_trans (shape_symm h.touch.shape) hwork.touch.shape
          rw [hslots s ((valid_shape hshape s).mpr hv), hslot, hsame s hv hne]
          simp only [Option.some.injEq, eq_comm]
        · rintro c rfl
          exact hind
    · rw [if_neg h2]
      exact .inl ⟨rfl,.inl (by omega)⟩

omit h in
theorem grown_trans (n1 n2 n3 : Inode) (h1 : Grown n1 n2) (h2 : Grown n2 n3) : Grown n1 n3 := by
  intro k hk
  rcases h1 k hk with h0 | heq
  · exact .inl h0
  · rcases h2 k hk with h0 | heq'
    · exact .inl (heq ▸ h0)
    · exact .inr (heq'.trans heq)

omit h in
theorem grown_congr (n n' : Inode) (h : ∀ k < 14, iBlock n' k = iBlock n k) : Grown n n' :=
  fun k hk => .inr (h k hk)

omit h in
theorem block_set_blocks (n : Inode) (x k : ℕ) : iBlock (setBlocks n x) k = iBlock n k :=
  load_store_disjoint _ _ _ _ _ _ (by omega)

omit h in
theorem block_set_size (n : Inode) (x k : ℕ) : iBlock (setSize n x) k = iBlock n k :=
  load_store_disjoint _ _ _ _ _ _ (by omega)

omit h in
theorem reachable_slot (idx : ℕ) (hr : Reachable v idx) : ∃ s, slotOf v idx = some s := by
  unfold Reachable at hr
  unfold slotOf
  dsimp only
  split_ifs with h1 h2
  · exact ⟨_,rfl⟩
  · exact ⟨_,rfl⟩
  · omega
  · omega

theorem set_block_writable (hA : A ∈ Files v0) {b : ℕ} (hb : Spare v (Files v0) (inodesWith v0 A n) b)
    (hs : Scope v0 A b) (idx : ℕ) :
    Work v0 A (ext2SetBlock v n idx b).1 (ext2SetBlock v n idx b).2.1 ∧
      Writable (ext2SetBlock v n idx b).1 (Files v0) (inodesWith v0 A (ext2SetBlock v n idx b).2.1) b ∧
      (ext2GetBlock v n idx = 0 → Grown n (ext2SetBlock v n idx b).2.1) := by
  rcases set_block_cases h hA b hb hs idx with ⟨heq,-⟩ | ⟨w,n',heq,hwork,hr,-,hgrown,hslots,-,-⟩
  · rw [heq]
    exact ⟨h,spare_writable hb,fun _ => grown_congr n n (fun _ _ => rfl)⟩
  · rw [heq]
    obtain ⟨s,hslot⟩ := reachable_slot idx hr
    obtain ⟨hv,hd⟩ := slot_valid v idx s hslot
    have hat : blockAt w n' s = b := by
      rw [hslots s hv (by rintro rfl; exact hd trivial), if_pos hslot]
    have hshape := shape_trans (shape_symm h.touch.shape) hwork.touch.shape
    have hdata := data_writable hwork.good hA ((valid_shape hshape s).mpr hv) hd
    rw [inodes_with_self, hat] at hdata
    exact ⟨hwork,hdata hb.nonzero,hgrown⟩

theorem block_for_write_work (hA : A ∈ Files v0) {idx : ℕ} {w : Volume} {n' : Inode} {b : ℕ}
    (heq : blockForWrite v n idx = some (w,n',b)) :
    Work v0 A w n' ∧ Writable w (Files v0) (inodesWith v0 A n') b ∧ Scope v0 A b ∧ Grown n n' := by
  unfold blockForWrite at heq
  by_cases h0 : ext2GetBlock v n idx = 0
  · rw [if_neg (by simpa using h0), alloc_block_eq h.good.layout] at heq
    rcases alloc_cases h.good.layout .block with ⟨-,hnone⟩ | ht
    · rw [hnone] at heq
      cases heq
    · generalize alloc v .block = r at ht heq
      obtain ⟨u,c⟩ := r
      obtain ⟨hwork,hspare,hscope⟩ := work_taken h hA c u ht
      obtain ⟨k,rfl⟩ := Nat.exists_eq_succ_of_ne_zero hspare.nonzero
      have hget : ext2GetBlock u n idx = 0 := by
        rw [get_block_eq] at h0 ⊢
        rw [slot_shape ht.touch.shape]
        cases hslot : slotOf v idx with
        | none => rfl
        | some s =>
          have hsame := slots_touch h.good ht.touch (meta_not_pointer h.good (map_block_meta .block)) A hA s
            (slot_valid v idx s hslot).1
          rw [inodes_with_self] at hsame
          rw [hslot] at h0
          exact hsame.trans h0
      obtain ⟨hset,hwritable,hgrown⟩ := set_block_writable hwork hA hspare hscope idx
      obtain ⟨rfl,rfl,rfl⟩ : ext2WriteBlock (ext2SetBlock u n idx (k+1)).1 (k+1) zeros = w ∧
          setBlocks (ext2SetBlock u n idx (k+1)).2.1
            (iBlocks (ext2SetBlock u n idx (k+1)).2.1+u.blockSize/512) = n' ∧ k+1 = b := by simpa using heq
      generalize ext2SetBlock u n idx (k+1) = r at hset hwritable hgrown ⊢
      have hblocks : ∀ j < 14, iBlock (setBlocks r.2.1 (iBlocks r.2.1+u.blockSize/512)) j = iBlock r.2.1 j :=
        fun j _ => block_set_blocks _ _ j
      have hzeroed := work_write hset hA (k+1) zeros hwritable hscope
      have hstill := writable_write hset.good zeros hwritable hwritable
      refine ⟨work_congr hzeroed hblocks,⟨hstill.inRange,hstill.plain,fun ino hi s hs hp hne => ?_⟩,hscope,
        grown_trans _ _ _ (hgrown hget) (grown_congr _ _ hblocks)⟩
      have hcopy : blockAt (ext2WriteBlock r.1 (k+1) zeros)
          (inodesWith v0 A (setBlocks r.2.1 (iBlocks r.2.1+u.blockSize/512)) ino) s =
          blockAt (ext2WriteBlock r.1 (k+1) zeros) (inodesWith v0 A r.2.1 ino) s := by
        by_cases hino : ino = A
        · subst hino
          rw [inodes_with_self, inodes_with_self]
          exact block_at_congr _ _ _ hblocks s hs
        · rw [inodesWith, inodesWith, update_of_ne hino, update_of_ne hino]
      rw [hcopy] at hne ⊢
      exact hstill.bytes ino hi s hs hp hne
  · rw [if_pos h0] at heq
    obtain ⟨rfl,rfl,rfl⟩ : v = w ∧ n = n' ∧ ext2GetBlock v n idx = b := by simpa using heq
    rw [get_block_eq] at h0 ⊢
    cases hslot : slotOf v idx with
    | none => simp [hslot] at h0
    | some s =>
      rw [hslot] at h0
      obtain ⟨hv,hd⟩ := slot_valid v idx s hslot
      have hdata := data_writable h.good hA hv hd
      rw [inodes_with_self] at hdata
      exact ⟨h,hdata h0,h.own s ((valid_shape h.touch.shape s).mp hv) h0,grown_congr n n (fun _ _ => rfl)⟩

end

theorem write_file_from_work (v0 : Volume) (A : ℕ) (hA : A ∈ Files v0) (offset size : ℕ) (buf : Store) (fuel : ℕ)
    (w : Written) (h : Work v0 A w.volume w.inode) (hg : Grown (inodeOf v0 A) w.inode) :
    let r := writeFileFrom offset size buf fuel w
    Work v0 A r.volume r.inode ∧ Grown (inodeOf v0 A) r.inode := by
  induction fuel generalizing w with
  | zero => exact ⟨h,hg⟩
  | succ fuel ih =>
    unfold writeFileFrom
    dsimp only
    split_ifs with hdone
    · exact ⟨h,hg⟩
    · cases hb : blockForWrite w.volume w.inode
          ((offset+w.bytesWritten) % 2^64/w.volume.blockSize % 2^32) with
      | none => exact ⟨h,hg⟩
      | some r =>
        obtain ⟨u,n,b⟩ := r
        obtain ⟨hwork,hwritable,hscope,hgrown⟩ := block_for_write_work h hA hb
        exact ih _ (work_write hwork hA b _ hwritable hscope) (grown_trans _ _ _ hg hgrown)

theorem scope_not_place {v : Volume} (h : Consistent v) (A : ℕ) (hA : A ∈ Files v) (p : Place) (hp : Present v p)
    (hne : ∀ g, p ≠ .blockMap g) : ¬Scope v A (home v p) := by
  rintro (⟨g,hg,heq⟩ | hu | ⟨s,hs,h0,heq⟩)
  · exact hne g (h.layout.apart p (.blockMap g) hp hg heq)
  · rw [h.reserved p hp] at hu
    exact Bool.noConfusion hu
  · rw [← heq] at h0
    exact (h.own A hA s hs h0).2.2 ⟨p,hp,heq.symm⟩

theorem scope_not_other {v : Volume} (h : Consistent v) {A B : ℕ} (hA : A ∈ Files v) (hB : B ∈ Files v) (hne : B ≠ A)
    {s : Slot} (hs : Valid v s) (h0 : blockAt v (inodeOf v B) s ≠ 0) : ¬Scope v A (blockAt v (inodeOf v B) s) := by
  obtain ⟨-,hu,hm⟩ := h.own B hB s hs h0
  rintro (hmap | hfree | ⟨s',hs',-,heq⟩)
  · exact hm (map_block_meta .block _ hmap)
  · rw [hu] at hfree
    exact Bool.noConfusion hfree
  · exact hne (h.once B hB A hA s s' hs hs' h0 heq.symm).1

def Footprint (A : ℕ) (b : ℕ) : Prop :=
  Scope v A b ∨ b = home v .super ∨ b = home v .desc ∨ b = home v (inodePlace v A)

structure Wrote (v : Volume) (A : ℕ) (w : Volume) : Prop where
  consistent : Consistent w
  live : ∀ ino, Live w ino ↔ Live v ino
  touch : Touch v w (Footprint v A)
  others : ∀ B, ValidIno v B → B ≠ A → inodeOf w B = inodeOf v B
  stays : ∀ b, InRange v b → used v b = true → used w b = true
  agree : Agree v → Agree w

theorem files_eq {v w : Volume} (h : ∀ ino, Live w ino ↔ Live v ino) : Files w = Files v := Set.ext h

theorem block_trim (n : Inode) (k : ℕ) (hk : k < 14) : iBlock (trim n) k = iBlock n k := by
  have h := load_copy zeros 128 0 n 0 4 (40+4*k) (by omega)
  simpa [iBlock, trim] using h

theorem finish_touch {v : Volume} (lay : Layout v) {A : ℕ} (n : Inode) (hA : ValidIno v A) :
    Touch v (ext2FlushMetadata (ext2WriteInode v A n))
      (fun b => b = home v .super ∨ b = home v .desc ∨ b = home v (inodePlace v A)) := by
  have h1 := touch_write_inode lay n hA
  have h2 := touch_flush (shape_layout h1.shape lay)
  rw [shape_home h1.shape, shape_home h1.shape] at h2
  refine touch_trans (touch_mono h1 fun b hb => .inr (.inr hb)) (touch_mono h2 fun b hb => ?_)
  rcases hb with hb | hb
  · exact .inl hb
  · exact .inr (.inl hb)

section
variable {v0 v : Volume} {A : ℕ} {n : Inode} (hc : Consistent v0) (hA : A ∈ Files v0) (h : Work v0 A v n)
include hc hA h

theorem work_inode (ino : ℕ) (hv : ValidIno v0 ino) : inodeOf v ino = inodeOf v0 ino :=
  inode_of_touch hc.layout h.touch hv
    (scope_not_place hc A hA _ (inode_place_present hc.layout hv) (by simp [inodePlace]))

theorem work_live (ino : ℕ) : Live v ino ↔ Live v0 ino := by
  rw [Live, valid_ino_shape h.touch.shape]
  refine and_congr_right fun hv => ?_
  rw [marked_touch hc.layout h.touch .inode ino ((numbered_inode v0 ino).mpr hv)]
  exact fun g hg => scope_not_place hc A hA (.inodeMap g) hg (by simp)

theorem work_stopped (hg : Grown (inodeOf v0 A) n) : Wrote v0 A v ∧ inodeOf v A = inodeOf v0 A := by
  have hlive := work_live hc hA h
  have hinode := work_inode hc hA h
  have hgood : Good v (Files v0) (inodeOf v0) := by
    have hJ : ∀ ino ∈ Files v0, ∀ s, Valid v s → blockAt v (inodeOf v0 ino) s ≠ 0 →
        blockAt v (inodeOf v0 ino) s = blockAt v (inodesWith v0 A n ino) s := by
      intro ino hi s hs h0
      by_cases hino : ino = A
      · subst hino
        rw [inodes_with_self]
        cases s with
        | direct k => exact ((hg k (by have : k < 12 := hs; omega)).resolve_left h0).symm
        | indirect => exact ((hg 12 (by omega)).resolve_left h0).symm
        | leaf j =>
          have hz : iBlock (inodeOf v0 ino) 12 ≠ 0 := fun hz => h0 (by rw [blockAt, pointer, if_pos hz])
          rw [blockAt, blockAt, (hg 12 (by omega)).resolve_left hz]
        | double => exact ((hg 13 (by omega)).resolve_left h0).symm
        | middle j =>
          have hz : iBlock (inodeOf v0 ino) 13 ≠ 0 := fun hz => h0 (by rw [blockAt, pointer, if_pos hz])
          rw [blockAt, blockAt, (hg 13 (by omega)).resolve_left hz]
        | deep i j =>
          have hz : iBlock (inodeOf v0 ino) 13 ≠ 0 := by
            intro hz
            apply h0
            rw [blockAt, hz]
            rfl
          rw [blockAt, blockAt, (hg 13 (by omega)).resolve_left hz]
      · rw [inodesWith, update_of_ne hino]
    refine ⟨h.good.layout,h.good.reserved,fun ino hi s hs h0 => ?_,fun ino hi ino' hi' s s' hs hs' h0 heq => ?_⟩
    · have hx := hJ ino hi s hs h0
      rw [hx] at h0 ⊢
      exact h.good.own ino hi s hs h0
    · have hx := hJ ino hi s hs h0
      have hy := hJ ino' hi' s' hs' (heq ▸ h0)
      rw [hx] at h0 heq
      rw [hy] at heq
      exact h.good.once ino hi ino' hi' s s' hs hs' h0 heq
  refine ⟨⟨?_,hlive,touch_mono h.touch (fun b hb => .inl hb),fun B hB _ => hinode B hB,h.stays,h.agree⟩,
    hinode A hA.1⟩
  rw [Consistent, files_eq hlive]
  exact good_congr hgood fun ino hi s _ => by rw [hinode ino hi.1]

theorem work_finished :
    Wrote v0 A (ext2FlushMetadata (ext2WriteInode v A n)) ∧
      inodeOf (ext2FlushMetadata (ext2WriteInode v A n)) A = trim n := by
  have hshape := h.touch.shape
  have lay := h.good.layout
  have hvA : ValidIno v A := (valid_ino_shape hshape A).mpr hA.1
  have hlayA : Layout (ext2WriteInode v A n) := shape_layout (touch_write_inode lay n hvA).shape lay
  have hgood := good_flush (good_write_inode h.good n hvA)
  have ht : Touch v (ext2FlushMetadata (ext2WriteInode v A n))
      (fun b => b = home v0 .super ∨ b = home v0 .desc ∨ b = home v0 (inodePlace v0 A)) := by
    have hplace : inodePlace v A = inodePlace v0 A := by
      rw [inodePlace, inodePlace, shape_inode_group hshape, shape_offset_in_table hshape, hshape.blockSize]
    have ht := finish_touch lay n hvA
    rw [hplace, shape_home hshape, shape_home hshape, shape_home hshape] at ht
    exact ht
  generalize hw : ext2FlushMetadata (ext2WriteInode v A n) = w at hgood ht
  have hinode : ∀ ino, ValidIno v ino → inodeOf w ino = inodeOf (ext2WriteInode v A n) ino := by
    intro ino hv
    have hs1 := (touch_write_inode lay n hvA).shape
    have hv' := (valid_ino_shape hs1 ino).mpr hv
    have hp := inode_place_present hlayA hv'
    rw [← hw]
    refine inode_of_touch hlayA (touch_flush hlayA) hv' ?_
    rintro (heq | heq)
    · exact Place.noConfusion (hlayA.apart _ .super hp trivial heq)
    · exact Place.noConfusion (hlayA.apart _ .desc hp trivial heq)
  have hself : inodeOf w A = trim n := by
    rw [hinode A hvA, inode_of_write_self lay n hvA]
  have hothers : ∀ B, ValidIno v0 B → B ≠ A → inodeOf w B = inodeOf v0 B := by
    intro B hB hne
    have hvB := (valid_ino_shape hshape B).mpr hB
    rw [hinode B hvB, inode_of_write_other lay n hvA hvB hne, work_inode hc hA h B hB]
  -- neither bitmap is written at the end
  have hmaps : ∀ k g, g < v.numBlockGroups →
      ¬(home v (mapPlace k g) = home v0 .super ∨ home v (mapPlace k g) = home v0 .desc ∨
        home v (mapPlace k g) = home v0 (inodePlace v0 A)) := by
    intro k g hg
    rw [shape_home hshape]
    rw [hshape.numBlockGroups] at hg
    have hp := (present_map v0 k g).mpr hg
    have hA' := inode_place_present hc.layout hA.1
    rintro (heq | heq | heq)
    · have := hc.layout.apart _ .super hp trivial heq
      cases k <;> exact Place.noConfusion this
    · have := hc.layout.apart _ .desc hp trivial heq
      cases k <;> exact Place.noConfusion this
    · have := hc.layout.apart _ _ hp hA' heq
      cases k <;> exact Place.noConfusion this
  have hmarked : ∀ k x, Numbered v k x → marked w k x = marked v k x := fun k x hx =>
    marked_touch lay ht k x hx (hmaps k)
  have hlive : ∀ ino, Live w ino ↔ Live v0 ino := by
    intro ino
    rw [← work_live hc hA h ino, Live, valid_ino_shape ht.shape]
    exact and_congr_right fun hv => by rw [hmarked .inode ino ((numbered_inode v ino).mpr hv)]
  refine ⟨⟨?_,hlive,?_,hothers,fun b hb hu => ?_,fun ha => ?_⟩,hself⟩
  · rw [Consistent, files_eq hlive]
    refine good_congr hgood fun ino hi s hs => ?_
    by_cases hino : ino = A
    · subst hino
      rw [hself, inodes_with_self]
      exact block_at_congr w n (trim n) (block_trim n) s hs
    · rw [hothers ino hi.1 hino, inodesWith, update_of_ne hino]
  · refine touch_trans (touch_mono h.touch fun b hb => .inl hb) (touch_mono ht fun b hb => .inr hb)
  · rw [used, hmarked .block b ((shape_in_range hshape b).mpr hb)]
    exact h.stays b hb hu
  · refine agree_touch lay ht hmaps (fun k g => ?_) (fun k => ?_) (h.agree ha)
    · rw [← hw, write_inode_eq lay.mounted n (by have := hvA.1; omega)]
      rfl
    · rw [← hw, write_inode_eq lay.mounted n (by have := hvA.1; omega)]
      rfl

end

theorem write_file_wrote {v : Volume} (hc : Consistent v) {A : ℕ} (hA : Live v A) (offset size : ℕ) (buf : Store) :
    Wrote v A (ext2WriteFile v A (inodeOf v A) offset size buf).1 := by
  obtain ⟨hwork,hgrown⟩ := write_file_from_work v A hA offset size buf size ⟨v,inodeOf v A,0,true⟩
    (work_start hc A) (grown_congr _ _ (fun _ _ => rfl))
  unfold ext2WriteFile
  rw [if_neg (by simp [hc.layout.mounted])]
  dsimp only
  split_ifs with hstop hsome hsize
  · exact (work_stopped hc hA hwork hgrown).1
  · exact (work_stopped hc hA hwork hgrown).1
  · exact (work_finished hc hA (work_congr hwork fun k _ => block_set_size _ _ k)).1
  · exact (work_finished hc hA hwork).1

end HobbyOS.FileWrite

import HobbyOS.DirWalk
import HobbyOS.VolumeCalls
import HobbyOS.VolumeCheck

/-!
# Directories as finite maps

Adding and removing an entry change the map of a well-formed directory at one
name, except that a directory which must grow and cannot enter its new block
loses the entry it reports as added.
-/

namespace HobbyOS.Directory
open ByteStore Ext2 VolumeLayout VolumeMaps FileBlocks FileWrite
  VolumeSteps VolumeCalls VolumeCheck DirEntries DirWalk

variable {name : Name} {ino k : ℕ} {w : Volume} (m : Store)

section
variable {v : Volume} (hc : Consistent v) (d : ℕ) (hd : Live v d)
include hc hd

theorem data_blocks {idx : ℕ} (m : Store) (h0 : ext2GetBlock v (inodeOf v d) idx ≠ 0) (j : ℕ) :
    ext2GetBlock (ext2WriteBlock v (ext2GetBlock v (inodeOf v d) idx) m) (inodeOf v d) j =
        ext2GetBlock v (inodeOf v d) j ∧
      (ext2GetBlock v (inodeOf v d) j ≠ 0 →
        ext2ReadBlock (ext2WriteBlock v (ext2GetBlock v (inodeOf v d) idx) m) (ext2GetBlock v (inodeOf v d) j) =
          if j = idx then clip v.blockSize m else ext2ReadBlock v (ext2GetBlock v (inodeOf v d) j)) := by
  have hblock := fun j => get_block_eq v (inodeOf v d) j
  rw [hblock] at h0
  cases hslot : slotOf v idx with
  | none => simp [hslot] at h0
  | some s =>
    rw [hslot] at h0
    obtain ⟨hv,hp⟩ := slot_valid v idx s hslot
    have hidx : ext2GetBlock v (inodeOf v d) idx = blockAt v (inodeOf v d) s := by
      rw [hblock, hslot]
      rfl
    have hw := data_writable hc hd hv hp h0
    have ht := touch_write hc.layout (blockAt v (inodeOf v d) s) m hw.inRange
    rw [hidx, hblock j, get_block_eq, slot_shape ht.shape]
    cases hj : slotOf v j with
    | none => simp
    | some t =>
      have hvt := (slot_valid v j t hj).1
      refine ⟨slots_touch hc ht hw.bytes d hd t hvt,fun hj0 => ?_⟩
      simp only [Option.map_some, Option.getD_some] at hj0 ⊢
      by_cases heq : j = idx
      · subst heq
        obtain rfl : s = t := Option.some.inj (hslot.symm.trans hj)
        rw [if_pos rfl, read_write_self]
      · rw [if_neg heq]
        refine ht.read _ (hc.own d hd t hvt hj0).1 fun hsame => heq ?_
        obtain ⟨-,rfl⟩ := hc.once d hd d hd t s hvt hv hj0 hsame
        exact slot_inj v j idx t hj hslot

theorem tiles_rewritten {rss : List (List Rec)} (h : Tiles v d rss) {rs ss : List Rec} (hk : rss[k]? = some rs)
    {m : Store} (hm : Tiled m 0 ss) (hspan : span ss = v.blockSize)
    (hdist : ((entries (rss.set k ss).flatten).map Prod.fst).Nodup) :
    Tiles (ext2WriteBlock v (ext2GetBlock v (inodeOf v d) k) m) d (rss.set k ss) := by
  have h0 := (h.block k rs hk).1
  have hinode := (data_wrote hc d hd m h0).2
  have hblocks := data_blocks hc d hd m h0
  generalize hw : ext2WriteBlock v (ext2GetBlock v (inodeOf v d) k) m = w at hinode hblocks
  have hsize : w.blockSize = v.blockSize := by
    rw [← hw]
    rfl
  refine ⟨by rw [hinode]; exact h.dir,by rw [hinode, List.length_set, hsize]; exact h.size,fun j rs' hj => ?_,
    fun j hj => ?_,hdist⟩
  · rw [BlockTiled, hinode, hsize, (hblocks j).1]
    rw [List.getElem?_set] at hj
    by_cases heq : k = j
    · subst heq
      rw [if_pos rfl] at hj
      split_ifs at hj with hlen
      obtain rfl := Option.some.inj hj
      refine ⟨h0,?_,hspan⟩
      rw [(hblocks k).2 h0, if_pos rfl]
      refine tiled_congr m _ 0 ss (fun i _ hi => ?_) hm
      rw [clip, if_pos (by omega)]
    · rw [if_neg heq] at hj
      obtain ⟨hb,ht,hs⟩ := h.block j rs' hj
      refine ⟨hb,?_,hs⟩
      rw [(hblocks j).2 hb, if_neg (Ne.symm heq)]
      exact ht
  · rw [hinode, (hblocks j).1]
    rw [List.length_set] at hj
    exact h.beyond j hj

end

theorem entries_set {rss : List (List Rec)} {rs : List Rec} (hk : rss[k]? = some rs) :
    ∃ es fs, entries rss.flatten = es++entries rs++fs ∧
      ∀ ss, entries (rss.set k ss).flatten = es++entries ss++fs := by
  obtain ⟨hlt,hget⟩ := List.getElem?_eq_some_iff.mp hk
  refine ⟨entries (rss.take k).flatten,entries (rss.drop (k+1)).flatten,?_,fun ss => ?_⟩
  · have hsplit : rss = rss.take k++rs::rss.drop (k+1) := by
      rw [← hget, List.getElem_cons_drop, List.take_append_drop]
    rw [← entries_append, ← entries_append]
    conv_lhs => rw [hsplit]
    rw [List.flatten_append, List.flatten_cons, List.append_assoc]
  · rw [List.set_eq_take_append_cons_drop, if_pos hlt, List.flatten_append, List.flatten_cons, entries_append,
      entries_append, List.append_assoc]

/-- The names of a directory and what becomes of them: `name` leads to `ino`
and every other name to where it led. -/
structure Becomes (v w : Volume) (d : ℕ) (name : Name) (ino : ℕ) : Prop where
  self : ext2Lookup w d name = some ino
  others : ∀ other, other ≠ name → ext2Lookup w d other = ext2Lookup v d other
  wellFormed : WellFormed w d

theorem becomes_added {v : Volume} (hm : v.mounted = true) (hm' : w.mounted = true) (d : ℕ) (hd : d ≠ 0)
    {rss sss : List (List Rec)} (h : Tiles v d rss) (name : Name) (ino : ℕ) (es fs : List (Name × ℕ))
    (hv : entries rss.flatten = es++fs) (hw : entries sss.flatten = es++entries [⟨ino,0,name⟩]++fs)
    (hnew : name ∉ (entries rss.flatten).map Prod.fst)
    (h' : ((entries sss.flatten).map Prod.fst).Nodup → Tiles w d sss) : Becomes v w d name ino := by
  have hdist := h.distinct
  rw [hv] at hnew hdist
  have hes : name ∉ es.map Prod.fst := fun hx => hnew (by rw [List.map_append]; exact List.mem_append_left _ hx)
  by_cases h0 : ino = 0
  · rw [entries_dead _ h0, List.append_nil] at hw
    have ht := h' (by rw [hw]; exact hdist)
    refine ⟨?_,fun other _ => ?_,sss,ht⟩
    · rw [lookup_eq hm' hd ht, hw, resolve_absent _ _ hnew, h0]
    · rw [lookup_eq hm' hd ht, lookup_eq hm hd h, hw, hv]
  · rw [entries_live _ h0, List.append_assoc, List.singleton_append] at hw
    have ht := h' (by
      rw [hw, List.map_append, List.map_cons, List.nodup_middle]
      rw [List.map_append] at hdist hnew
      exact List.nodup_cons.mpr ⟨hnew,hdist⟩)
    refine ⟨?_,fun other hne => ?_,sss,ht⟩
    · rw [lookup_eq hm' hd ht, hw, resolve_found _ _ _ _ hes]
    · rw [lookup_eq hm' hd ht, lookup_eq hm hd h, hw, hv, resolve_skip _ _ (Ne.symm hne)]

section
variable {v : Volume} (hc : Consistent v) (d : ℕ) (hd : Live v d) {rss : List (List Rec)} (h : Tiles v d rss)
include hc hd h

theorem split_becomes (hino : ino < 2^32) (hname : name.length < 256) (ft k : ℕ) {rs1 rs2 : List Rec} {r : Rec}
    (hk : rss[k]? = some (rs1++r::rs2)) (hroom : HasRoom (actualSize name.length) r)
    (hnew : name ∉ (entries rss.flatten).map Prod.fst) :
    Becomes v (ext2WriteBlock v (ext2GetBlock v (inodeOf v d) k)
      (splitEntry (ext2ReadBlock v (ext2GetBlock v (inodeOf v d) k)) (span rs1) ino name ft)) d name ino := by
  obtain ⟨-,ht,hspan⟩ := h.block k _ hk
  have hd0 : d ≠ 0 := by
    have := hd.1.1
    omega
  have hmid := (tiled_append _ 0 rs1 (r::rs2)).mp ht
  rw [Nat.zero_add] at hmid
  obtain ⟨hr,hf,-⟩ := hmid.2
  obtain ⟨hnewt,hout⟩ := split_tiled _ ft hr hf hroom hino hname
  have hle := actual_size_le r hf
  have hone : rs1++r::rs2 = rs1++[r]++rs2 := by simp
  rw [hone] at ht
  have hsame : span [⟨r.ino,actualSize r.name.length,r.name⟩,⟨ino,r.len-actualSize r.name.length,name⟩] = span [r] := by
    simp only [span, List.map_cons, List.sum_cons]
    omega
  have htiled := tiled_replace _ _ 0 rs1 [r] _ rs2 ht hsame (by rw [Nat.zero_add]; exact hnewt)
    (by
      intro i hi
      rw [Nat.zero_add] at hi
      exact hout i hi)
  have hspan' : span (rs1++[⟨r.ino,actualSize r.name.length,r.name⟩,⟨ino,r.len-actualSize r.name.length,name⟩]++rs2) =
      v.blockSize := by
    rw [← hspan, hone, span_append, span_append, span_append, span_append, hsame]
  obtain ⟨es,fs,hv,hset⟩ := entries_set hk
  have hold : entries rss.flatten = (es++entries rs1++entries [r])++(entries rs2++fs) := by
    rw [hv, entries_append, entries_cons]
    simp only [List.append_assoc]
  have hrest := tiles_rewritten hc d hd h hk htiled hspan'
  refine becomes_added hc.layout.mounted ?_ d hd0 h name ino _ _ hold ?_ hnew hrest
  · exact hc.layout.mounted
  rw [hset, entries_append, entries_append, entries_cons]
  have hput := entries_len ⟨ino,0,name⟩ (r.len-actualSize r.name.length)
  rw [entries_len r, hput]
  simp only [List.append_assoc]

omit hc hd in
theorem remove_blocks_cases (name : Name) (fuel k : ℕ) (hk : k+fuel = rss.length+1)
    (hbs : 0 < v.blockSize) (hsmall : v.blockSize < 2^16) :
    ((∀ rs ∈ rss.drop k, ∀ r ∈ rs, ¬Matches name r) ∧ removeBlocks v (inodeOf v d) name fuel k = (v,false)) ∨
      ∃ j rs1 r rs2, rss[j]? = some (rs1++r::rs2) ∧ Matches name r ∧
        removeBlocks v (inodeOf v d) name fuel k = (ext2WriteBlock v (ext2GetBlock v (inodeOf v d) j)
          (withoutRec (ext2ReadBlock v (ext2GetBlock v (inodeOf v d) j)) (prevOf rs1 0 none) (0+span rs1) r.len),true) := by
  induction fuel generalizing k with
  | zero =>
    left
    rw [List.drop_eq_nil_of_le (by omega)]
    exact ⟨by simp,rfl⟩
  | succ fuel ih =>
    rw [removeBlocks]
    by_cases hlt : k < rss.length
    · obtain ⟨rs,hrs⟩ : ∃ rs, rss[k]? = some rs := ⟨_,List.getElem?_eq_getElem hlt⟩
      obtain ⟨hb,ht,hspan⟩ := h.block k rs hrs
      have hlen := tiled_length _ _ _ ht
      have hin : ¬iSize (inodeOf v d) ≤ k*v.blockSize := by
        rw [h.size, not_le]
        exact Nat.mul_lt_mul_of_pos_right hlt hbs
      rw [if_neg hin, if_neg hb]
      rcases remove_from_cases v.blockSize _ name rs v.blockSize 0 none ht (by omega) (by omega) with
        ⟨hnone,heq⟩ | ⟨rs1,r,rs2,rfl,hr,-,heq⟩
      · rw [heq]
        dsimp only
        rcases ih (k+1) (by omega) with ⟨hrest,hend⟩ | hfound
        · left
          refine ⟨fun ss hss => ?_,hend⟩
          rw [List.drop_eq_getElem_cons hlt] at hss
          rcases List.mem_cons.mp hss with rfl | hss
          · obtain ⟨_,hget⟩ := List.getElem?_eq_some_iff.mp hrs
            rw [hget]
            exact hnone
          · exact hrest ss hss
        · exact .inr hfound
      · rw [heq]
        exact .inr ⟨k,rs1,r,rs2,hrs,hr,rfl⟩
    · left
      rw [List.drop_eq_nil_of_le (by omega)]
      refine ⟨by simp,?_⟩
      rw [if_pos]
      rw [h.size]
      exact Nat.mul_le_mul_right _ (by omega)

omit hc hd h in
theorem block_size_small (lay : Layout v) : 0 < v.blockSize ∧ v.blockSize < 2^16 := by
  rcases lay.size with hs | hs | hs <;> omega

theorem remove_becomes (hw : ext2RemoveDirEntry v d name = (w,true)) : Becomes v w d name 0 := by
  have hm := hc.layout.mounted
  have hd0 : d ≠ 0 := by
    have := hd.1.1
    omega
  obtain ⟨hpos,hsmall⟩ := block_size_small hc.layout
  have hblocks : iSize (inodeOf v d)/v.blockSize = rss.length := by
    rw [h.size, Nat.mul_div_cancel _ hpos]
  unfold ext2RemoveDirEntry at hw
  rw [read_inode_eq hm d hd0] at hw
  dsimp only at hw
  rw [hblocks] at hw
  rcases remove_blocks_cases d h name (rss.length+1) 0 (by omega) hpos hsmall with
    ⟨-,heq⟩ | ⟨k,rs1,r,rs2,hk,hr,heq⟩
  · rw [heq] at hw
    exact Bool.noConfusion (Prod.mk.inj hw).2
  rw [heq] at hw
  obtain rfl := (Prod.mk.inj hw).1
  obtain ⟨-,ht,hspan⟩ := h.block k _ hk
  obtain ⟨ss,hss,hspan',hent⟩ := remove_from_tiled v.blockSize ht hspan hsmall rfl
  obtain ⟨es,fs,hv,hset⟩ := entries_set hk
  have hold : entries rss.flatten = (es++entries rs1)++(name,r.ino)::(entries rs2++fs) := by
    rw [hv, entries_append, entries_cons, entries_live r hr.1, hr.2]
    simp only [List.append_assoc]
    rfl
  have hnew : entries (rss.set k ss).flatten = (es++entries rs1)++(entries rs2++fs) := by
    rw [hset, hent]
    simp only [List.append_assoc]
  have hdist := h.distinct
  rw [hold, List.map_append, List.map_cons, List.nodup_middle, ← List.map_append] at hdist
  obtain ⟨habsent,hdist⟩ := List.nodup_cons.mp hdist
  rw [← hnew] at habsent hdist
  have htiles := tiles_rewritten hc d hd h hk hss hspan' hdist
  refine ⟨?_,fun other hne => ?_,_,htiles⟩
  · rw [lookup_eq (by exact hm) hd0 htiles, resolve_absent _ _ habsent]
  · rw [lookup_eq (by exact hm) hd0 htiles, lookup_eq hm hd0 h, hnew, hold, resolve_skip _ _ (Ne.symm hne)]

omit h in
theorem append_result (ino : ℕ) (name : Name) (ft : ℕ) (u : Volume) (k : ℕ) (heq : ext2AllocBlock v = (u,k+1))
    (ht : Taken v u .block (k+1)) (w : Volume) (hw : w = (appendEntry v d (inodeOf v d) ino name ft).1) :
    inodeOf w d = trim (grownDir (ext2SetBlock u (inodeOf v d) (iSize (inodeOf v d)/u.blockSize) (k+1)).2.1 u.blockSize) ∧
      (∀ j, ext2GetBlock w (inodeOf w d) j =
        ext2GetBlock (ext2SetBlock u (inodeOf v d) (iSize (inodeOf v d)/u.blockSize) (k+1)).1
          (ext2SetBlock u (inodeOf v d) (iSize (inodeOf v d)/u.blockSize) (k+1)).2.1 j) ∧
      Touch v w (fun c => Meta v c ∨ used v c = false ∨ c ≠ 0 ∧ c = iBlock (inodeOf v d) 12) ∧
      ext2ReadBlock w (k+1) = clip v.blockSize (putEntry zeros 0 ino v.blockSize name ft) := by
  obtain ⟨hwork,hspare,hscope⟩ := work_taken (work_start hc d) hd (k+1) u ht
  have hbs : u.blockSize = v.blockSize := ht.touch.shape.blockSize
  rw [append_entry_eq v d _ ino name ft heq] at hw
  dsimp only at hw
  obtain ⟨hset,hwritable,-⟩ := set_block_writable hwork hd hspare hscope (iSize (inodeOf v d)/u.blockSize)
  have hgrow : Touch u (ext2SetBlock u (inodeOf v d) (iSize (inodeOf v d)/u.blockSize) (k+1)).1
      (GrowScope u (inodeOf v d)) := by
    rcases set_block_cases hwork hd (k+1) hspare hscope (iSize (inodeOf v d)/u.blockSize) with
      ⟨hx,-⟩ | ⟨x,n,hx,-,-,-,-,-,-,hx'⟩
    · rw [hx]
      exact touch_refl u _
    · rw [hx]
      exact hx'
  generalize ext2SetBlock u (inodeOf v d) (iSize (inodeOf v d)/u.blockSize) (k+1) = r at *
  have hput := work_write hset hd (k+1) (putEntry zeros 0 ino u.blockSize name ft) hwritable hscope
  have hself := (work_finished hc hd (work_congr hput fun j _ => block_grown_dir r.2.1 u.blockSize j)).2
  have hplain := writable_write hset.good (putEntry zeros 0 ino u.blockSize name ft) hwritable hwritable
  have hwrite := touch_write hset.good.layout (k+1) (putEntry zeros 0 ino u.blockSize name ft) hwritable.inRange
  have hread := read_write_self r.1 (k+1) (putEntry zeros 0 ino u.blockSize name ft)
  have hslots := slots_touch hset.good hwrite hwritable.bytes d hd
  rw [hset.touch.shape.blockSize] at hread
  rw [← hw] at hself
  have hvalid := (valid_ino_shape hput.touch.shape d).mpr hd.1
  have hfin := finish_touch hput.good.layout (grownDir r.2.1 u.blockSize) hvalid
  rw [← hw] at hfin
  generalize ext2WriteBlock r.1 (k+1) (putEntry zeros 0 ino u.blockSize name ft) = x at *
  have hmeta : ∀ c, c = home x .super ∨ c = home x .desc ∨ c = home x (inodePlace x d) → Meta x c := by
    rintro c (rfl | rfl | rfl)
    · exact ⟨.super,trivial,rfl⟩
    · exact ⟨.desc,trivial,rfl⟩
    · exact ⟨_,inode_place_present hput.good.layout hvalid,rfl⟩
  have hfin' := touch_mono hfin hmeta
  have hslots' := slots_touch hput.good hfin' (meta_not_pointer hput.good fun _ hm => hm) d hd
  rw [inodes_with_self] at hslots hslots'
  refine ⟨hself,fun j => ?_,?_,?_⟩
  · rw [get_block_eq, get_block_eq, slot_shape hfin'.shape, slot_shape hwrite.shape, hself]
    cases hj : slotOf r.1 j with
    | none => rfl
    | some s =>
      have hv := (slot_valid r.1 j s hj).1
      have hvx := (valid_shape hwrite.shape s).mpr hv
      have hvw := (valid_shape hfin'.shape s).mpr hvx
      have htrim : ∀ i < 14, iBlock (trim (grownDir r.2.1 u.blockSize)) i = iBlock r.2.1 i := fun i hi => by
        rw [block_trim _ i hi, block_grown_dir]
      exact (block_at_congr w _ _ htrim s hvw).trans ((hslots' s hvx).trans (hslots s hv))
  · have h1 : Touch v u (fun c => Meta v c ∨ used v c = false ∨ c ≠ 0 ∧ c = iBlock (inodeOf v d) 12) :=
      touch_mono ht.touch fun c hx => .inl (map_block_meta .block c hx)
    have h2 : Touch u r.1 (fun c => Meta v c ∨ used v c = false ∨ c ≠ 0 ∧ c = iBlock (inodeOf v d) 12) := by
      refine touch_mono_in hgrow fun c hin hx => ?_
      rcases hx with hx | hx | hx
      · exact .inl ((shape_meta ht.touch.shape c).mp (map_block_meta .block c hx))
      · right
        left
        by_contra hu
        have := used_taken .block (k+1) ht c ((shape_in_range ht.touch.shape c).mp hin) (by simpa using hu)
        rw [hx] at this
        exact Bool.noConfusion this
      · exact .inr (.inr hx)
    have h3 : Touch r.1 x (fun c => Meta v c ∨ used v c = false ∨ c ≠ 0 ∧ c = iBlock (inodeOf v d) 12) := by
      refine touch_mono hwrite ?_
      rintro c rfl
      exact .inr (.inl ht.clear)
    have h4 : Touch x w (fun c => Meta v c ∨ used v c = false ∨ c ≠ 0 ∧ c = iBlock (inodeOf v d) 12) :=
      touch_mono hfin' fun c hx => .inl ((shape_meta hput.touch.shape c).mp hx)
    exact touch_trans (touch_trans (touch_trans h1 h2) h3) h4
  · rw [hfin'.read _ hplain.inRange hplain.plain, hread, hbs]

omit hc hd h in
theorem size_grown (n : Inode) (bs : ℕ) : iSize (trim (grownDir n bs)) = (iSize n+bs) % 2^32 := by
  have h1 : iSize (trim (grownDir n bs)) = iSize (grownDir n bs) := by
    have := load_copy zeros 128 0 (grownDir n bs) 0 4 4 (by omega)
    simpa [iSize, trim] using this
  have h2 : iSize (setBlocks n (iBlocks n+bs/512)) = iSize n := load_store_disjoint _ _ _ _ _ _ (by omega)
  have h3 := load_store_same (setBlocks n (iBlocks n+bs/512)) 4 4 (iSize n+bs)
  exact h3

omit hc hd in
theorem next_block (hpos : 0 < v.blockSize) : iSize (inodeOf v d)/v.blockSize = rss.length := by
  rw [h.size, Nat.mul_div_cancel _ hpos]

theorem grown_becomes (hino : ino < 2^32) (hname : name.length < 256) (ft : ℕ) {u : Volume}
    (heq : ext2AllocBlock v = (u,k+1)) (ht : Taken v u .block (k+1))
    (hok : (ext2SetBlock u (inodeOf v d) (iSize (inodeOf v d)/u.blockSize) (k+1)).2.2 = true)
    (hnew : name ∉ (entries rss.flatten).map Prod.fst) :
    Becomes v (appendEntry v d (inodeOf v d) ino name ft).1 d name ino := by
  have hd0 : d ≠ 0 := by
    have := hd.1.1
    omega
  obtain ⟨hpos,hsmall⟩ := block_size_small hc.layout
  have hbs : u.blockSize = v.blockSize := ht.touch.shape.blockSize
  have hidx : iSize (inodeOf v d)/u.blockSize = rss.length := by rw [hbs, next_block d h hpos]
  obtain ⟨hwork,hspare,hscope⟩ := work_taken (work_start hc d) hd (k+1) u ht
  have hres := append_result hc d hd ino name ft u k heq ht _ rfl
  have hwrote := (append_entry_wrote hc d hd ino name ft).1
  generalize (appendEntry v d (inodeOf v d) ino name ft).1 = w at hres hwrote
  obtain ⟨hself,hblocks,htouch,hread⟩ := hres
  rw [hidx] at hself hblocks hok
  rcases set_block_cases hwork hd (k+1) hspare hscope rss.length with
    ⟨hx,-⟩ | ⟨x,n,hx,-,hreach,-,-,hslots,hfields,-⟩
  · rw [hx] at hok
    exact Bool.noConfusion hok
  rw [hx] at hself hblocks
  have hshape := htouch.shape
  -- all blocks: the new one and the old ones
  have hget : ∀ j, ext2GetBlock w (inodeOf w d) j = if j = rss.length then k+1 else ext2GetBlock v (inodeOf v d) j := by
    intro j
    obtain ⟨s0,hs0⟩ := reachable_slot rss.length hreach
    have hxshape : SameShape u x := by
      rcases set_block_cases hwork hd (k+1) hspare hscope rss.length with ⟨hy,-⟩ | ⟨_,_,hy,-,-,-,-,-,-,hgrow⟩
      · rw [hx] at hy
        exact Bool.noConfusion (Prod.mk.inj (Prod.mk.inj hy).2).2
      · obtain ⟨rfl,-⟩ := Prod.mk.inj (hx.symm.trans hy)
        exact hgrow.shape
    rw [hblocks j, get_block_eq, get_block_eq, slot_shape hxshape, slot_shape ht.touch.shape]
    rw [slot_shape ht.touch.shape] at hs0
    cases hj : slotOf v j with
    | none =>
      have hne : j ≠ rss.length := by
        rintro rfl
        rw [hs0] at hj
        cases hj
      rw [if_neg hne]
      rfl
    | some s =>
      obtain ⟨hv,hp⟩ := slot_valid v j s hj
      have hvu := (valid_shape ht.touch.shape s).mpr hv
      have hat := hslots s hvu (by rintro rfl; exact hp trivial)
      rw [slot_shape ht.touch.shape, hs0] at hat
      have hold := slots_touch hc ht.touch (meta_not_pointer hc (map_block_meta .block)) d hd s hv
      simp only [Option.map_some, Option.getD_some]
      rw [hat, hold]
      by_cases hne : j = rss.length
      · subst hne
        rw [hs0] at hj
        rw [if_pos hj, if_pos rfl]
      · rw [if_neg hne, if_neg]
        rintro hs
        obtain rfl := Option.some.inj hs
        exact hne (slot_inj v j rss.length _ hj hs0)
  have hsame : ∀ j, j ≠ rss.length → ext2GetBlock v (inodeOf v d) j ≠ 0 →
      ext2ReadBlock w (ext2GetBlock v (inodeOf v d) j) = ext2ReadBlock v (ext2GetBlock v (inodeOf v d) j) := by
    intro j _ h0
    rw [get_block_eq] at h0 ⊢
    cases hj : slotOf v j with
    | none => simp [hj] at h0
    | some s =>
      rw [hj] at h0
      simp only [Option.map_some, Option.getD_some] at h0 ⊢
      obtain ⟨hv,hp⟩ := slot_valid v j s hj
      obtain ⟨hr,hu,hmeta⟩ := hc.own d hd s hv h0
      refine htouch.read _ hr ?_
      rintro (hx | hx | ⟨h12,hx⟩)
      · exact hmeta hx
      · rw [hu] at hx
        exact Bool.noConfusion hx
      · obtain ⟨-,rfl⟩ := hc.once d hd d hd s .indirect hv trivial h0 hx
        exact hp trivial
  have hlen : rss.length < 12+v.blockSize/4 := by
    unfold Reachable ptrsPerBlock at hreach
    rw [hbs] at hreach
    exact hreach
  have hb4 : v.blockSize % 4 = 0 ∧ 1024 ≤ v.blockSize ∧ v.blockSize ≤ 4096 := by
    rcases hc.layout.size with hz | hz | hz <;> omega
  have hsize : iSize (inodeOf w d) = (rss.length+1)*v.blockSize := by
    have hn : iSize n = rss.length*v.blockSize := (hfields 4 4 (by omega)).trans h.size
    have hle : (rss.length+1)*v.blockSize ≤ 1037*4096 := Nat.mul_le_mul (by omega) hb4.2.2
    rw [Nat.add_mul, Nat.one_mul] at hle ⊢
    rw [hself, size_grown, hn, hbs, Nat.mod_eq_of_lt (by omega)]
  have hrec : Tiled (putEntry zeros 0 ino v.blockSize name ft) 0 [⟨ino,v.blockSize,name⟩] := by
    have hput := put_entry_rec zeros 0 ino v.blockSize name ft hname
    rw [Nat.mod_eq_of_lt hino, Nat.mod_eq_of_lt hsmall] at hput
    exact ⟨hput,⟨hb4.1,by dsimp only; omega⟩,trivial⟩
  have hent : entries (rss++[[(⟨ino,v.blockSize,name⟩ : Rec)]]).flatten = entries rss.flatten++entries [(⟨ino,0,name⟩ : Rec)]++[] := by
    rw [List.flatten_append, List.append_nil, entries_append]
    exact congrArg (entries rss.flatten++·) (entries_len ⟨ino,0,name⟩ v.blockSize)
  have htiles : ((entries (rss++[[(⟨ino,v.blockSize,name⟩ : Rec)]]).flatten).map Prod.fst).Nodup →
      Tiles w d (rss++[[(⟨ino,v.blockSize,name⟩ : Rec)]]) := by
    intro hdist
    refine ⟨?_,?_,fun j rs hj => ?_,fun j hj => ?_,hdist⟩
    · have hmode : iMode (inodeOf w d) = iMode (inodeOf v d) := by
        rw [hself]
        exact hfields 2 0 (by omega)
      have hdir := h.dir
      rw [isDir] at hdir ⊢
      rw [hmode]
      exact hdir
    · rw [hsize, List.length_append, hshape.blockSize]
      rfl
    · rw [BlockTiled, hget j, hshape.blockSize]
      by_cases heqj : j = rss.length
      · subst heqj
        rw [if_pos rfl, hread]
        obtain rfl : [(⟨ino,v.blockSize,name⟩ : Rec)] = rs := by simpa using hj
        refine ⟨by omega,tiled_congr _ _ 0 _ (fun i _ hi => ?_) hrec,by simp [span]⟩
        simp only [span, List.map_cons, List.map_nil, List.sum_cons, List.sum_nil] at hi
        rw [clip, if_pos (by omega)]
      · have hlt : j < rss.length := by
          have := (List.getElem?_eq_some_iff.mp hj).1
          rw [List.length_append, List.length_singleton] at this
          omega
        rw [List.getElem?_append_left hlt] at hj
        obtain ⟨hb,htl,hs⟩ := h.block j rs hj
        rw [if_neg heqj, hsame j heqj hb]
        exact ⟨hb,htl,hs⟩
    · rw [List.length_append, List.length_singleton] at hj
      rw [hget j, if_neg (by omega)]
      exact h.beyond j (by omega)
  exact becomes_added hc.layout.mounted hwrote.consistent.layout.mounted d hd0 h name ino (entries rss.flatten) []
    (by simp) hent hnew htiles

theorem stuck_not_well_formed (ino : ℕ) (name : Name) (ft : ℕ) {u : Volume} {k : ℕ}
    (heq : ext2AllocBlock v = (u,k+1)) (ht : Taken v u .block (k+1))
    (hok : (ext2SetBlock u (inodeOf v d) (iSize (inodeOf v d)/u.blockSize) (k+1)).2.2 = false) :
    ¬WellFormed (appendEntry v d (inodeOf v d) ino name ft).1 d := by
  obtain ⟨hpos,hsmall⟩ := block_size_small hc.layout
  have hbs : u.blockSize = v.blockSize := ht.touch.shape.blockSize
  have hidx : iSize (inodeOf v d)/u.blockSize = rss.length := by rw [hbs, next_block d h hpos]
  obtain ⟨hwork,hspare,hscope⟩ := work_taken (work_start hc d) hd (k+1) u ht
  have hres := append_result hc d hd ino name ft u k heq ht _ rfl
  generalize (appendEntry v d (inodeOf v d) ino name ft).1 = w at hres
  obtain ⟨hself,hblocks,htouch,-⟩ := hres
  rw [hidx] at hself hblocks hok
  rcases set_block_cases hwork hd (k+1) hspare hscope rss.length with ⟨hx,-⟩ | ⟨x,n,hx,-⟩
  swap
  · rw [hx] at hok
    exact Bool.noConfusion hok
  rw [hx] at hself hblocks
  dsimp only at hself hblocks
  -- the size grew but no block came with it
  have hget : ∀ j, ext2GetBlock w (inodeOf w d) j = ext2GetBlock v (inodeOf v d) j := by
    intro j
    rw [hblocks j, get_block_eq, get_block_eq, slot_shape ht.touch.shape]
    cases hj : slotOf v j with
    | none => rfl
    | some s =>
      exact slots_touch hc ht.touch (meta_not_pointer hc (map_block_meta .block)) d hd s (slot_valid v j s hj).1
  rintro ⟨sss,h'⟩
  have hsize := h'.size
  rw [hself, size_grown, h.size, hbs, htouch.shape.blockSize, ← Nat.succ_mul] at hsize
  have hle : sss.length ≤ rss.length := by
    by_contra hlt
    obtain ⟨rs,hrs⟩ : ∃ rs, sss[rss.length]? = some rs := ⟨_,List.getElem?_eq_getElem (by omega)⟩
    have := (h'.block rss.length rs hrs).1
    rw [hget] at this
    exact this (h.beyond rss.length (le_refl _))
  have hge : rss.length ≤ sss.length := by
    by_contra hlt
    obtain ⟨rs,hrs⟩ : ∃ rs, rss[sss.length]? = some rs := ⟨_,List.getElem?_eq_getElem (by omega)⟩
    have := (h.block sss.length rs hrs).1
    rw [← hget] at this
    exact this (h'.beyond sss.length (le_refl _))
  have hlen : sss.length = rss.length := by omega
  rw [hlen] at hsize
  have hlt : iSize (inodeOf v d) < 2^32 := load_lt _ 4 4
  rw [Nat.succ_mul] at hsize
  omega

/-- A record has room for the name, or the directory can grow: by one of the
direct blocks, or by one behind the indirect block if that is there or a
second block is free for it. -/
def CanEnter (v : Volume) (d : ℕ) (rss : List (List Rec)) (name : Name) : Prop :=
  (∃ r ∈ rss.flatten, HasRoom (actualSize name.length) r) ∨ rss.length < 12 ∨
    (rss.length < 12+ptrsPerBlock v ∧ (iBlock (inodeOf v d) 12 ≠ 0 ∨ 2 ≤ freeTotal v blockPool))

theorem set_block_ok_iff (ha : Agree v) {u : Volume} {k : ℕ} (ht : Taken v u .block (k+1)) :
    (ext2SetBlock u (inodeOf v d) (iSize (inodeOf v d)/u.blockSize) (k+1)).2.2 = true ↔
      rss.length < 12 ∨
        (rss.length < 12+ptrsPerBlock v ∧ (iBlock (inodeOf v d) 12 ≠ 0 ∨ 2 ≤ freeTotal v blockPool)) := by
  obtain ⟨hpos,-⟩ := block_size_small hc.layout
  have hbs : u.blockSize = v.blockSize := ht.touch.shape.blockSize
  have hidx : iSize (inodeOf v d)/u.blockSize = rss.length := by rw [hbs, next_block d h hpos]
  have hptrs : ptrsPerBlock u = ptrsPerBlock v := by rw [ptrsPerBlock, ptrsPerBlock, hbs]
  obtain ⟨hwork,hspare,hscope⟩ := work_taken (work_start hc d) hd (k+1) u ht
  -- the block just taken was one of the free ones
  have htotal : findClear u blockPool = none ↔ ¬2 ≤ freeTotal v blockPool := by
    have hsome : freeTotal v blockPool ≠ 0 := by
      intro h0
      have hcount := ha.total .block
      have hzero : ∀ g < v.numBlockGroups, clearBits v .block g = 0 := by
        have hsum : ∑ g ∈ Finset.range v.numBlockGroups, clearBits v .block g = 0 := hcount.symm.trans h0
        rw [Finset.sum_eq_zero_iff] at hsum
        exact fun g hg => hsum g (Finset.mem_range.mpr hg)
      obtain ⟨hg,hi⟩ := numbered_place hc.layout ht.numbered
      have hcard := hzero _ hg
      rw [clearBits, Finset.card_eq_zero, Finset.filter_eq_empty_iff] at hcard
      exact hcard (Finset.mem_range.mpr hi) ht.clear
    have hlt : freeTotal v blockPool < 256^4 := load_lt _ 4 _
    have hu : freeTotal u blockPool = (freeTotal v blockPool+(2^32-1)) % 2^32 := ht.total
    have hiff : findClear u blockPool = none ↔ freeTotal u blockPool = 0 := find_clear_none .block (ht.agree ha)
    rw [hiff]
    omega
  rw [hidx]
  rcases set_block_cases hwork hd (k+1) hspare hscope rss.length with ⟨hx,hwhy⟩ | ⟨x,n,hx,-,hreach,hwhy,-⟩
  · rw [hx]
    simp only [Bool.false_eq_true, false_iff]
    rw [Reachable, hptrs, htotal] at hwhy
    rintro (hlt | ⟨hlt,hx⟩)
    · rcases hwhy with hw | hw <;> omega
    · rcases hwhy with hw | ⟨-,h12,hfree⟩
      · exact hw hlt
      · rcases hx with hx | hx
        · exact hx h12
        · exact hfree hx
  · rw [hx]
    simp only [true_iff]
    rw [Reachable, hptrs] at hreach
    rw [htotal] at hwhy
    by_cases hlt : rss.length < 12
    · exact .inl hlt
    · refine .inr ⟨hreach,?_⟩
      by_contra hno
      rw [not_or, not_not] at hno
      exact hwhy ⟨by omega,hno.1,hno.2⟩

theorem add_becomes_iff (ha : Agree v) (hino : ino < 2^32) (hname : name.length < 256) {ft : ℕ}
    (hnew : ext2Lookup v d name = some 0) (hadd : ext2AddDirEntry v d ino name ft = some (w,true)) :
    Becomes v w d name ino ↔ CanEnter v d rss name := by
  have hm := hc.layout.mounted
  have hd0 : d ≠ 0 := by
    have := hd.1.1
    omega
  obtain ⟨hpos,-⟩ := block_size_small hc.layout
  have habsent : name ∉ (entries rss.flatten).map Prod.fst := by
    apply resolve_zero
    rw [lookup_eq hm hd0 h] at hnew
    exact Option.some.inj hnew
  have hlen := flatten_length_le h
  have hroom := room_blocks v (inodeOf v d) (actualSize name.length)
    (iSize (inodeOf v d)-rss.flatten.length) rss 0
    (fun j rs hj => by rw [Nat.zero_add]; exact h.block j rs hj) (by rw [Nat.zero_add]; exact h.size)
  rw [Nat.zero_mul, show rss.flatten.length+(iSize (inodeOf v d)-rss.flatten.length+1) = iSize (inodeOf v d)+1 by omega]
    at hroom
  unfold ext2AddDirEntry at hadd
  rw [read_inode_eq hm d hd0] at hadd
  dsimp only at hadd
  rcases hroom with ⟨hfull,heq⟩ | ⟨j,rs1,r,rs2,hj,hr,heq⟩
  · -- no record has room
    have hcan : CanEnter v d rss name ↔ rss.length < 12 ∨
        (rss.length < 12+ptrsPerBlock v ∧ (iBlock (inodeOf v d) 12 ≠ 0 ∨ 2 ≤ freeTotal v blockPool)) := by
      exact or_iff_right fun ⟨r,hmem,hroom⟩ => hfull r hmem hroom
    rw [heq] at hadd
    obtain rfl : (appendEntry v d (inodeOf v d) ino name ft).1 = w := congrArg Prod.fst (Option.some.inj hadd)
    rcases alloc_block_cases hc with ⟨-,hnone⟩ | ⟨u,k,halloc,ht⟩
    · have hfalse : (appendEntry v d (inodeOf v d) ino name ft).2 = false := by
        unfold appendEntry
        rw [hnone]
        rfl
      have htrue : (appendEntry v d (inodeOf v d) ino name ft).2 = true := congrArg Prod.snd (Option.some.inj hadd)
      rw [hfalse] at htrue
      exact Bool.noConfusion htrue
    · rw [hcan, ← set_block_ok_iff hc d hd h ha ht]
      constructor
      · intro hb
        by_contra hno
        exact stuck_not_well_formed hc d hd h ino name ft halloc ht (Bool.not_eq_true _ |>.mp hno) hb.wellFormed
      · exact fun hok => grown_becomes hc d hd h hino hname ft halloc ht hok habsent
  · rw [heq] at hadd
    obtain ⟨hb,ht,hspan⟩ := h.block j _ hj
    have hlt : span rs1 < v.blockSize := by
      have hmid := ((tiled_append _ 0 rs1 (r::rs2)).mp ht).2
      have := hmid.2.1.2
      rw [span_append, span_cons] at hspan
      omega
    have hdiv : ((0+j)*v.blockSize+span rs1)/v.blockSize = j := by
      rw [Nat.zero_add, Nat.mul_comm, Nat.mul_add_div hpos, Nat.div_eq_of_lt hlt, Nat.add_zero]
    have hmod : ((0+j)*v.blockSize+span rs1) % v.blockSize = span rs1 := by
      rw [Nat.mul_comm, Nat.mul_add_mod, Nat.mod_eq_of_lt hlt]
    have hw := (Prod.mk.inj (Option.some.inj hadd)).1
    rw [dirBlock, hdiv, hmod] at hw
    rw [← hw]
    refine iff_of_true (split_becomes hc d hd h hino hname ft j hj hr habsent) (.inl ⟨r,?_,hr⟩)
    exact List.mem_flatten.mpr ⟨_,List.mem_iff_getElem?.mpr ⟨j,hj⟩,by simp⟩

end

/-- Adding a name that is not there and removing one that is, as changes of a
finite map. -/
theorem directory_is_map (v : Volume) (hc : Consistent v) (ha : Agree v) (d : ℕ) (hd : Live v d)
    (rss : List (List Rec)) (h : Tiles v d rss) (name : Name) (hlen : 1 ≤ name.length ∧ name.length ≤ 255) :
    (ext2Lookup v d name = some 0 → ∀ ino < 2^32, ∀ ft w, ext2AddDirEntry v d ino name ft = some (w,true) →
      (Becomes v w d name ino ↔ CanEnter v d rss name)) ∧
    (∀ x, x ≠ 0 → ext2Lookup v d name = some x → ∀ w, ext2RemoveDirEntry v d name = (w,true) →
      Becomes v w d name 0) :=
  ⟨fun hnew ino hino ft w hadd => add_becomes_iff hc d hd h ha hino (by omega) hnew hadd,
    fun _ _ _ w hw => remove_becomes hc d hd h hw⟩

def writeRecs : Store → ℕ → List Rec → Store
  | m, _, [] => m
  | m, o, r::rs => writeRecs (putEntry m o r.ino r.len r.name ext2FtRegFile) (o+r.len) rs

theorem write_recs_before (o : ℕ) (rs : List Rec) (i : ℕ) (hi : i < o) : writeRecs m o rs i = m i := by
  induction rs generalizing m o with
  | nil => rfl
  | cons r rs ih => rw [writeRecs, ih _ _ (by omega), put_entry_outside _ _ _ _ _ _ (.inl hi)]

theorem write_recs_tiled (o : ℕ) {rs : List Rec}
    (h : ∀ r ∈ rs, Fits r ∧ r.ino < 2^32 ∧ r.len < 2^16 ∧ r.name.length < 256) : Tiled (writeRecs m o rs) o rs := by
  induction rs generalizing m o with
  | nil => trivial
  | cons r rs ih =>
    obtain ⟨hf,hino,hlen,hname⟩ := h r List.mem_cons_self
    have hput := put_entry_rec m o r.ino r.len r.name ext2FtRegFile hname
    rw [Nat.mod_eq_of_lt hino, Nat.mod_eq_of_lt hlen] at hput
    have hfit := hf.2
    exact ⟨rec_at_congr _ (writeRecs m o (r::rs)) o r (fun i _ hi => write_recs_before _ _ rs i (by omega)) hput,hf,
      ih _ _ fun q hq => h q (List.mem_cons_of_mem _ hq)⟩

theorem tiles_direct {v : Volume} {d : ℕ} {rss : List (List Rec)} (hdir : isDir (inodeOf v d) = true)
    (hsize : iSize (inodeOf v d) = rss.length*v.blockSize) (hlen : rss.length ≤ 12)
    (hblock : ∀ k rs, rss[k]? = some rs → iBlock (inodeOf v d) k ≠ 0 ∧
      Tiled (ext2ReadBlock v (iBlock (inodeOf v d) k)) 0 rs ∧ span rs = v.blockSize)
    (hrest : ∀ k < 14, rss.length ≤ k → iBlock (inodeOf v d) k = 0)
    (hdist : ((entries rss.flatten).map Prod.fst).Nodup) : Tiles v d rss := by
  refine ⟨hdir,hsize,fun k rs hk => ?_,fun k hk => ?_,hdist⟩
  · have hlt := (List.getElem?_eq_some_iff.mp hk).1
    have hget : ext2GetBlock v (inodeOf v d) k = iBlock (inodeOf v d) k := if_pos (by omega)
    rw [BlockTiled, hget]
    exact hblock k rs hk
  · rw [get_block_eq]
    cases hs : slotOf v k with
    | none => rfl
    | some s =>
      by_contra h0
      obtain ⟨j,rfl⟩ := direct_only v (hrest 12 (by omega) (by omega)) (hrest 13 (by omega) (by omega)) h0
      have hj : j < 12 := (slot_valid v k _ hs).1
      have hk' : slotOf v j = some (.direct j) := if_pos hj
      obtain rfl := slot_inj v k j _ hs hk'
      exact h0 (hrest k (by omega) hk)

theorem small_read (blocks : ℕ) (inodes : List Inode) (data : List Store) {k i : ℕ} (hk : k < 1024) (hi : i < 1024) :
    ext2ReadBlock (small blocks inodes data) (6+k) i = data.getD k zeros i := by
  have hb : diskBlock (small blocks inodes data) (6+k) = 6+k :=
    Nat.mod_eq_of_lt (show 6+k < 2^28/(1024/512) by norm_num; omega)
  have hs : (small blocks inodes data).blockSize = 1024 := rfl
  rw [ext2ReadBlock, hb, hs, if_pos hi]
  change (if 6+k = 3 then _ else _ : Store) i = _
  rw [if_neg (by omega), if_neg (by omega), if_neg (by omega), if_neg (by omega), Nat.add_sub_cancel_left]

/-- The root directory of a small volume, from the records of its blocks. -/
def rootOf (blocks : ℕ) (files : List Inode) (rss : List (List Rec)) : Volume :=
  small blocks (zeros::fileInode 0x41ED 2 (1024*rss.length) ((List.range rss.length).map (6+·))::files)
    (rss.map (writeRecs zeros 0))

/-- The inode of the root has the size and the pointers for its blocks, and no
name stands there twice. -/
def RootFits (v : Volume) (rss : List (List Rec)) : Prop :=
  isDir (inodeOf v 2) = true ∧ iSize (inodeOf v 2) = rss.length*1024 ∧
    (∀ k < 14, iBlock (inodeOf v 2) k = if k < rss.length then 6+k else 0) ∧
    ((entries rss.flatten).map Prod.fst).Nodup

instance decidableRootFits (v : Volume) (rss : List (List Rec)) : Decidable (RootFits v rss) :=
  inferInstanceAs (Decidable (_ ∧ _ ∧ _ ∧ _))

theorem root_of_tiles {blocks : ℕ} {files : List Inode} {rss : List (List Rec)} (hlen : rss.length ≤ 12)
    (hfits : RootFits (rootOf blocks files rss) rss)
    (hrec : ∀ rs ∈ rss, span rs = 1024 ∧ ∀ r ∈ rs, Fits r ∧ r.ino < 2^32 ∧ r.len < 2^16 ∧ r.name.length < 256) :
    Tiles (rootOf blocks files rss) 2 rss := by
  obtain ⟨hdir,hsize,hblock,hdist⟩ := hfits
  refine tiles_direct hdir hsize hlen (fun k rs hk => ?_) (fun k hk hle => ?_) hdist
  · have hlt := (List.getElem?_eq_some_iff.mp hk).1
    obtain ⟨hspan,hfit⟩ := hrec rs (List.mem_iff_getElem?.mpr ⟨k,hk⟩)
    rw [hblock k (by omega), if_pos hlt]
    refine ⟨by omega,tiled_congr _ _ 0 rs (fun i _ hi => ?_) (write_recs_tiled zeros 0 hfit),hspan⟩
    rw [rootOf, small_read _ _ _ (by omega) (by omega)]
    simp [hk]
  · rw [hblock k hk, if_neg (by omega)]

def rootRecs : List (List Rec) := [[⟨2,12,[dot]⟩,⟨2,12,[dot,dot]⟩,⟨3,1000,[102]⟩]]

def mapRoot : Volume := rootOf 16 [fileInode 0x81A4 1 0 []] rootRecs

theorem map_root_checked : checked mapRoot = true ∧ countsChecked mapRoot = true ∧ 2 ∈ liveInodes mapRoot ∧
    RootFits mapRoot rootRecs ∧ ext2Lookup mapRoot 2 [103] = some 0 ∧
    (ext2AddDirEntry mapRoot 2 3 [103] ext2FtRegFile).map Prod.snd = some true := by
  decide +kernel

theorem map_root_tiles : Tiles mapRoot 2 rootRecs :=
  root_of_tiles (by decide) map_root_checked.2.2.2.1 (by simp [rootRecs, span, Fits, dot])

/-- A second name for `f` can be entered and answers. -/
theorem map_root_added :
    ∃ w, ext2AddDirEntry mapRoot 2 3 [103] ext2FtRegFile = some (w,true) ∧
      (Becomes mapRoot w 2 [103] 3 ↔ CanEnter mapRoot 2 rootRecs [103]) := by
  obtain ⟨hc,ha,hlive,-,hnew,hok⟩ := map_root_checked
  obtain ⟨⟨w,ok⟩,hw,hsnd⟩ := Option.map_eq_some_iff.mp hok
  obtain rfl : ok = true := hsnd
  exact ⟨w,hw,(directory_is_map mapRoot (check_consistent _ hc) (check_agree _ ha) 2 ((mem_live_inodes _ _).mp hlive)
    rootRecs map_root_tiles [103] (by decide)).1 hnew 3 (by norm_num) _ w hw⟩

def fullRec (k j len : ℕ) : Rec :=
  ⟨3,actualSize len,UInt8.ofNat (k+97)::UInt8.ofNat (j+97)::List.replicate (len-2) 97⟩

def fullRecs : List (List Rec) :=
  (List.range 12).map fun k => [fullRec k 0 255,fullRec k 1 255,fullRec k 2 255,fullRec k 3 224]

theorem full_rec_fits (k j len : ℕ) (h2 : 2 ≤ len) (hlen : len ≤ 255) :
    Fits (fullRec k j len) ∧ (fullRec k j len).ino < 2^32 ∧ (fullRec k j len).len < 2^16 ∧
      (fullRec k j len).name.length < 256 := by
  have hname : (fullRec k j len).name.length = len := by
    simp only [fullRec, List.length_cons, List.length_replicate]
    omega
  rw [Fits, hname]
  simp only [fullRec, actualSize]
  omega

def fullDir : Volume := rootOf 18 [fileInode 0x81A4 48 0 []] fullRecs

theorem full_dir_checked : checked fullDir = true ∧ countsChecked fullDir = true ∧ RootFits fullDir fullRecs ∧
    ext2Lookup fullDir 2 [120] = some 0 ∧
    (ext2AddDirEntry fullDir 2 3 [120] ext2FtRegFile).map (fun r => (r.2,ext2Lookup r.1 2 [120])) =
      some (true,some 0) := by
  decide +kernel

theorem full_dir_tiles : Tiles fullDir 2 fullRecs := by
  refine root_of_tiles (by decide) full_dir_checked.2.2.1 ?_
  intro rs hrs
  obtain ⟨k,-,rfl⟩ := List.mem_map.mp hrs
  have hspan : span [fullRec k 0 255,fullRec k 1 255,fullRec k 2 255,fullRec k 3 224] = 1024 := by
    simp only [span, fullRec, actualSize]
    norm_num
  refine ⟨hspan,fun r hr => ?_⟩
  simp only [List.mem_cons, List.not_mem_nil, or_false] at hr
  obtain rfl | rfl | rfl | rfl := hr <;> exact full_rec_fits _ _ _ (by decide) (by decide)

/-- The new block would need an indirect block, for which nothing is left: the
call reports success and the name is not there. -/
theorem added_name_is_lost :
    Consistent fullDir ∧ Agree fullDir ∧ Tiles fullDir 2 fullRecs ∧ ext2Lookup fullDir 2 [120] = some 0 ∧
      (ext2AddDirEntry fullDir 2 3 [120] ext2FtRegFile).map (fun r => (r.2,ext2Lookup r.1 2 [120])) =
        some (true,some 0) :=
  ⟨check_consistent _ full_dir_checked.1,check_agree _ full_dir_checked.2.1,full_dir_tiles,full_dir_checked.2.2.2⟩

end HobbyOS.Directory

import HobbyOS.Elf

/-!
# What a new program finds

The initial stack of `elf_setup_stack`, read back word by word, and the
address of the program headers that `elf_load` passes on in it. The address
is computed from the place of the table in the file, which is where it is
mapped only if its segment has the same place in the file and in memory.
-/

namespace HobbyOS.ElfLayout
open ByteStore PageEntry Mmap VmaTable Ext2 Elf

variable (m : Store) (base : ℕ)

/-- The bytes that the strings take, each with its terminating zero. -/
def room : List Name → ℕ
  | [] => 0
  | s::ss => (s.take 255).length+1+room ss

/-- Copies of the strings with their zeros fill the page from `pos` to its
end, and the pointers name them. -/
def Placed : ℕ → List Name → List ℕ → Prop
  | pos, [], [] => pos = pageSize
  | pos, s::ss, p::ps => p = base+pos ∧
      (∀ k ≤ (s.take 255).length, m (pos+k) = (s.take 255).getD k 0) ∧
      Placed (pos+((s.take 255).length+1)) ss ps
  | _, _, _ => False

theorem placed_congr (m' : Store) (pos : ℕ) (ss : List Name) (ps : List ℕ)
    (h : ∀ i, pos ≤ i → m' i = m i) (hp : Placed m base pos ss ps) : Placed m' base pos ss ps := by
  induction ss generalizing pos ps with
  | nil =>
    cases ps with
    | nil => exact hp
    | cons p ps => exact hp.elim
  | cons s ss ih =>
    cases ps with
    | nil => exact hp.elim
    | cons p ps =>
      obtain ⟨h1,h2,h3⟩ := hp
      refine ⟨h1,?_,ih _ _ (fun i hi => h i (by omega)) h3⟩
      intro k hk
      rw [h _ (by omega), h2 k hk]

theorem push_strings_spec (ss : List Name) :
    (pageSize < room ss ∧ pushStrings base ss = none) ∨
    (room ss ≤ pageSize ∧ ∃ m ps, pushStrings base ss = some (m,pageSize-room ss,ps) ∧
      Placed m base (pageSize-room ss) ss ps ∧ ps.length = ss.length ∧ ∀ p ∈ ps, p < base+pageSize) := by
  induction ss with
  | nil => exact .inr ⟨Nat.zero_le _,zeros,[],rfl,rfl,rfl,by simp⟩
  | cons s ss ih =>
    rw [pushStrings, room]
    rcases ih with ⟨hlt,h⟩ | ⟨hle,m,ps,h,hp,hlen,hb⟩
    · exact .inl ⟨by omega,by rw [h]⟩
    rw [h]
    dsimp only
    by_cases hr : pageSize-room ss < (s.take 255).length+1
    · exact .inl ⟨by omega,if_pos hr⟩
    have hpos : pageSize-room ss-((s.take 255).length+1) = pageSize-((s.take 255).length+1+room ss) := by omega
    rw [if_neg hr, hpos]
    refine .inr ⟨by omega,_,_,rfl,⟨rfl,?_,?_⟩,by simp [hlen],?_⟩
    · intro k hk
      rw [copy, if_pos (by omega), show 0+(_+k-_) = k by omega]
    · rw [show pageSize-((s.take 255).length+1+room ss)+((s.take 255).length+1) = pageSize-room ss by omega]
      refine placed_congr m base _ _ ss ps (fun i hi => ?_) hp
      rw [copy, if_neg (by omega)]
    · intro p hmem
      rcases List.mem_cons.mp hmem with rfl | hmem
      · omega
      · exact hb p hmem

theorem store_words_spec (a : ℕ) (ws : List ℕ) :
    (∀ i, i < a ∨ a+8*ws.length ≤ i → storeWords m a ws i = m i) ∧
    ((∀ w ∈ ws, w < 2^64) →
      (List.range ws.length).map (fun i => load (storeWords m a ws) 8 (a+8*i)) = ws) := by
  induction ws generalizing m a with
  | nil => exact ⟨fun _ _ => rfl,fun _ => rfl⟩
  | cons w ws ih =>
    obtain ⟨hout,hin⟩ := ih (store m 8 a w) (a+8)
    rw [storeWords, List.length_cons]
    refine ⟨?_,?_⟩
    · intro i hi
      rw [hout i (by omega), store, if_neg (by omega)]
    · intro hw
      rw [List.range_succ_eq_map, List.map_cons, List.map_map]
      congr 1
      · rw [load_congr _ (store m 8 a w) 8 _ fun i h1 h2 => hout i (by omega)]
        exact load_store_of_lt m 8 a w (hw w List.mem_cons_self)
      · refine Eq.trans (List.map_congr_left fun i _ => ?_) (hin fun x hx => hw x (List.mem_cons_of_mem _ hx))
        rw [Function.comp_apply, show a+8*(i+1) = a+8+8*i by omega]

/-- The call fails exactly if strings and words do not fit in the page.
Otherwise the words from the stack pointer on are the number of arguments,
the pointers to their copies, two zeros and the auxiliary vector. -/
theorem stack_layout (argv : List Name) (r : ElfLoadResult) (hargc : argv.length ≤ 32)
    (hbase : base+pageSize ≤ 2^64) (haux : ∀ w ∈ auxv r, w < 2^64) :
    (elfSetupStack base argv r = none ↔ pageSize < room argv+8*(argv.length+19)) ∧
    ∀ m rsp argvPtr, elfSetupStack base argv r = some (m,rsp,argvPtr) →
      ∃ start pos ptrs, rsp = base+start ∧ argvPtr = rsp+8 ∧ (pageSize ∣ base → 16 ∣ rsp) ∧
        start+8*(argv.length+19) ≤ pos ∧ Placed m base pos argv ptrs ∧ ptrs.length = argv.length ∧
        (List.range (argv.length+19)).map (fun i => load m 8 (start+8*i)) =
          argv.length::(ptrs++[0,0]++auxv r) := by
  rw [elfSetupStack, List.take_of_length_le hargc]
  rcases push_strings_spec base argv with ⟨hlt,h⟩ | ⟨hle,m0,ps,h,hp,hlen,hb⟩
  · rw [h]
    exact ⟨iff_of_true rfl (by omega),fun _ _ _ he => by cases he⟩
  rw [h]
  have hwords : (argv.length::(ps++[0,0]++auxv r)).length = argv.length+19 := by
    simp [auxv, hlen]
  dsimp only
  rw [hwords]
  split_ifs with hfit
  · exact ⟨iff_of_true rfl (by omega),fun _ _ _ he => by cases he⟩
  refine ⟨iff_of_false (by simp) (by omega),?_⟩
  rintro m rsp argvPtr ⟨⟩
  obtain ⟨hout,hin⟩ := store_words_spec m0 ((pageSize-room argv-(argv.length+19)*8)/16*16)
    (argv.length::(ps++[0,0]++auxv r))
  rw [hwords] at hout hin
  refine ⟨_,_,ps,rfl,rfl,?_,?_,placed_congr m0 base _ _ argv ps (fun i hi => hout i (by omega)) hp,hlen,?_⟩
  · rintro ⟨k,rfl⟩
    unfold pageSize
    omega
  · omega
  · apply hin
    simp only [List.mem_cons, List.mem_append, List.not_mem_nil, or_false]
    rintro w (rfl | (hw | rfl | rfl) | hw)
    · omega
    · exact (hb w hw).trans_le hbase
    · decide
    · decide
    · exact haux w hw

theorem stack_layout_one : elfSetupStack 0x7FFFFFF000 [[0x61]] ⟨0,0,0,0,0,0,0⟩ ≠ none :=
  mt (stack_layout 0x7FFFFFF000 [[0x61]] ⟨0,0,0,0,0,0,0⟩ (by decide) (by decide) (by decide)).1.mp (by decide)

variable (img : Image)

theorem interpreter_at_phdr (c : PhysMem.Ctx) (root : ℕ) (v : Volume) (n : Inode) (l : Loading) (h : KHeap.Heap)
    (r : ElfLoadResult) : ∃ l' h' r', loadInterpreter c root v n l h r = (l',h',r') ∧ r'.atPhdr = r.atPhdr := by
  rw [loadInterpreter]
  split
  · exact ⟨_,_,_,rfl,rfl⟩
  · split_ifs
    · exact ⟨_,_,_,rfl,rfl⟩
    · split <;> exact ⟨_,_,_,rfl,rfl⟩

theorem elf_load_at_phdr (c : PhysMem.Ctx) (root : ℕ) (v : Volume) (s : PhysMem.Mem) (a : Areas) (h : KHeap.Heap)
    (x : Loading × KHeap.Heap × Option ElfLoadResult) (hx : elfLoad c root v base img s a h = some x)
    (r : ElfLoadResult) (hr : x.2.2 = some r) : r.atPhdr = atPhdr img base := by
  unfold elfLoad at hx
  split_ifs at hx
  · cases hx
    cases hr
  · cases hl : loadSegments c root img true ((phdrs img).map (relocate base)) ⟨s,a,0⟩ with
    | mk l ok =>
      rw [hl] at hx
      cases ok with
      | false =>
        cases hx
        cases hr
      | true =>
        dsimp only at hx
        split at hx
        · cases hx
          rw [← Option.some.inj hr]
        · split_ifs at hx
          · cases hx
            rw [← Option.some.inj hr]
          · obtain ⟨file,-,rfl⟩ := Option.map_eq_some_iff.mp hx
            cases file with
            | none => rw [← Option.some.inj hr]
            | some n =>
              obtain ⟨l',h',r',he,hat⟩ := interpreter_at_phdr c root v n l h _
              dsimp only at hr
              rw [he] at hr
              rw [← Option.some.inj hr, hat]

/-- Where byte `o` of the file is in memory, for a segment with its final address. -/
def mappedAt (h : Phdr) (o : ℕ) : ℕ := (h.vaddr.toNat+(o-h.offset.toNat)) % 2^64

theorem mapped_byte {h : Phdr} {o : ℕ} (ho : h.offset.toNat ≤ o) (hf : o < h.offset.toNat+h.filesz.toNat)
    (hw : h.vaddr.toNat+h.filesz.toNat < 2^64) :
    segmentPage img h (pageBase (mappedAt h o)) (mappedAt h o % pageSize) = img.bytes o := by
  have hx : mappedAt h o = h.vaddr.toNat+(o-h.offset.toNat) := Nat.mod_eq_of_lt (by omega)
  have hpage : pageBase (mappedAt h o)+mappedAt h o % pageSize = mappedAt h o := by
    unfold pageBase
    exact Nat.div_add_mod' _ _
  rw [segmentPage, hpage, hx, Nat.mod_eq_of_lt hw, if_pos (by omega)]
  congr 1
  omega

/-- Segment `i` holds the table of program headers in its part of the file. -/
abbrev HoldsTable (i : ℕ) : Prop :=
  i < ePhnum img ∧ (phdr img i).type = ptLoad ∧ (phdr img i).offset.toNat ≤ ePhoff img ∧
    ePhoff img+ePhnum img*ePhentsize img ≤ (phdr img i).offset.toNat+(phdr img i).filesz.toNat

/-- `at_phdr` is where the segment puts the table exactly if its address is
its place in the file; the bytes of the table stand where the segment puts it
in any case. -/
theorem at_phdr_iff (i : ℕ) (hi : HoldsTable img i) :
    (atPhdr img base = mappedAt (relocate base (phdr img i)) (ePhoff img) ↔
      (phdr img i).vaddr = (phdr img i).offset) ∧
    ((relocate base (phdr img i)).vaddr.toNat+(phdr img i).filesz.toNat < 2^64 →
      ∀ k < ePhnum img*ePhentsize img, ∃ x, x = mappedAt (relocate base (phdr img i)) (ePhoff img)+k ∧
        segmentPage img (relocate base (phdr img i)) (pageBase x) (x % pageSize) = img.bytes (ePhoff img+k)) := by
  obtain ⟨-,-,hlo,hhi⟩ := hi
  generalize phdr img i = h at *
  have hlt : ePhoff img < 2^64 := load_lt img.bytes 8 32
  have hv := h.vaddr.isLt
  have hadd : (relocate base h).vaddr.toNat = (h.vaddr.toNat+base) % 2^64 := by
    simp [relocate, BitVec.toNat_add]
  have hmap : ∀ o, mappedAt (relocate base h) o = ((h.vaddr.toNat+base) % 2^64+(o-h.offset.toNat)) % 2^64 :=
    fun o => by rw [mappedAt, hadd]; rfl
  constructor
  · rw [← BitVec.toNat_inj, atPhdr, hmap]
    omega
  · intro hw k hk
    have hshift : mappedAt (relocate base h) (ePhoff img)+k = mappedAt (relocate base h) (ePhoff img+k) := by
      rw [hmap, hmap]
      omega
    refine ⟨_,rfl,?_⟩
    rw [hshift]
    exact mapped_byte img (hlo.trans (Nat.le_add_right _ _)) (by dsimp only [relocate]; omega) hw

/-- A file with one segment, of 120 bytes from its start on, at 4 MiB. -/
def shiftedImage : Image where
  data := 0
  bytes := storeWords zeros 0 [0x010102464C457F,0,0x3E0002,0x400000,64,0,0x38000000000000,1,
    0x500000001,0,0x400000,0x400000,120,120,4096]
  size := 120

theorem shifted_at_phdr : HoldsTable shiftedImage 0 ∧ elfValidate shiftedImage = true ∧
    atPhdr shiftedImage 0 = 0x40 ∧ mappedAt (relocate 0 (phdr shiftedImage 0)) (ePhoff shiftedImage) = 0x400040 := by
  decide +kernel

theorem at_phdr_iff_shifted : atPhdr shiftedImage 0 ≠ mappedAt (relocate 0 (phdr shiftedImage 0)) (ePhoff shiftedImage) :=
  mt (at_phdr_iff 0 shiftedImage 0 (by decide +kernel)).1.mp (by decide +kernel)

end HobbyOS.ElfLayout

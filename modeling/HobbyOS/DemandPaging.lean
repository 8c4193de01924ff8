import HobbyOS.Elf

/-!
# Pages of a segment, loaded at once or on demand

`elf_load_segments` copies the part of a segment that meets a page; with
demand paging it only notes a shifted pointer and a shifted length, from
which `vma_handle_fault` copies later. The two coordinates describe the same
bytes as long as the end of the file part can be written in 64 bits.
-/

namespace HobbyOS.DemandPaging
open PageEntry PhysMem Mmap VmaTable Elf

structure InMemory (c : Ctx) (img : Image) : Prop where
  pos : 0 < img.data
  top : img.data+img.size ≤ 2^64
  bytes : ∀ k < img.size, c.kernelMem (img.data+k) = img.bytes k

section
variable (h : Phdr)

def alignDelta : ℕ := h.vaddr.toNat-segStart h

theorem seg_start_le : segStart h ≤ h.vaddr.toNat := (page_base_spec h.vaddr.toNat).2.1

theorem start_add_delta : segStart h+alignDelta h = h.vaddr.toNat := by
  have := seg_start_le h
  unfold alignDelta
  omega

theorem seg_end_lt : segEnd h < 2^64 := by
  exact (page_base_spec _).2.1.trans_lt (Nat.mod_lt _ (by norm_num))

end

section
variable (c : Ctx) (img : Image) (h : Phdr)

theorem elf_data_eq (hm : InMemory c img) (hoff : alignDelta h ≤ h.offset.toNat)
    (hfile : h.offset.toNat+h.filesz.toNat ≤ img.size) (hsize : 0 < h.filesz.toNat ∨ 0 < alignDelta h) :
    (segmentVma img.data h).elfData+alignDelta h = img.data+h.offset.toNat := by
  have htop := hm.top
  have hd : (segmentVma img.data h).elfData = (img.data+h.offset.toNat+(2^64-alignDelta h)) % 2^64 := rfl
  omega

theorem demand_page (hm : InMemory c img) (hoff : alignDelta h ≤ h.offset.toNat)
    (hfile : h.offset.toNat+h.filesz.toNat ≤ img.size) (hwrap : h.vaddr.toNat+h.filesz.toNat < 2^64)
    {page o : ℕ} (hlo : segStart h ≤ page) (hpage : page < 2^64) (ho : o < pageSize)
    (hv : h.vaddr.toNat ≤ page+o) :
    initialPage c (segmentVma img.data h) page o =
      if page+o < h.vaddr.toNat+h.filesz.toNat then img.bytes (h.offset.toNat+(page+o-h.vaddr.toNat)) else 0 := by
  have hsum := start_add_delta h
  have hsize : (segmentVma img.data h).elfDataFilesz = h.filesz.toNat+alignDelta h :=
    Nat.mod_eq_of_lt (show h.filesz.toNat+alignDelta h < 2^64 by omega)
  have hoffset : (page+(2^64-(segmentVma img.data h).elfVaddr)) % 2^64 = page-segStart h := by
    have hstart : (segmentVma img.data h).elfVaddr = segStart h := rfl
    rw [hstart, show page+(2^64-segStart h) = page-segStart h+2^64 by omega, Nat.add_mod_right,
      Nat.mod_eq_of_lt (by omega)]
  change elfPage c (segmentVma img.data h) page o = _
  unfold elfPage
  rw [hoffset]
  by_cases hin : page+o < h.vaddr.toNat+h.filesz.toNat
  · have hdata := elf_data_eq c img h hm hoff hfile (by omega)
    have hpos := hm.pos
    rw [if_pos hin, if_pos ⟨by omega,by omega,lt_min (by omega) ho⟩,
      show (segmentVma img.data h).elfData+(page-segStart h)+o =
        img.data+(h.offset.toNat+(page+o-h.vaddr.toNat)) by omega,
      hm.bytes _ (by omega)]
  · rw [if_neg hin, if_neg]
    rintro ⟨-,-,hlt⟩
    omega

/-- On every page of a segment, and at every address behind its start, the two
ways of loading put the same byte. -/
theorem demand_equals_eager (hm : InMemory c img) (hoff : alignDelta h ≤ h.offset.toNat)
    (hfile : h.offset.toNat+h.filesz.toNat ≤ img.size) (hwrap : h.vaddr.toNat+h.filesz.toNat < 2^64)
    (i : ℕ) (hi : segStart h+i*pageSize < segEnd h) (o : ℕ) (ho : o < pageSize)
    (hv : h.vaddr.toNat ≤ segStart h+i*pageSize+o) :
    initialPage c (segmentVma img.data h) (segStart h+i*pageSize) o =
      segmentPage img h (segStart h+i*pageSize) o := by
  have hend := seg_end_lt h
  rw [demand_page c img h hm hoff hfile hwrap (Nat.le_add_right _ _) (hi.trans hend) ho hv]
  unfold segmentPage
  rw [Nat.mod_eq_of_lt hwrap]
  by_cases hin : segStart h+i*pageSize+o < h.vaddr.toNat+h.filesz.toNat
  · rw [if_pos hin, if_pos ⟨hv,hin⟩]
  · rw [if_neg hin, if_neg fun hc => hin hc.2]

end

def sevens : Image := ⟨0xFFFFFFFF80400000,fun _ => 7,8192⟩

def sevensCtx : Ctx where
  table := fun _ => {}
  current := none
  kernelMem := fun _ => 7

theorem sevens_in_memory : InMemory sevensCtx sevens := ⟨by decide,by decide,fun _ _ => rfl⟩

def dataSegment : Phdr where
  type := ptLoad
  flags := 6
  offset := 0x234
  vaddr := 0x401234
  filesz := 0x1000
  memsz := 0x2000

/-- The second page of a segment that begins inside a page. -/
theorem demand_equals_eager_second :
    initialPage sevensCtx (segmentVma sevens.data dataSegment) (segStart dataSegment+1*pageSize) 100 =
      segmentPage sevens dataSegment (segStart dataSegment+1*pageSize) 100 :=
  demand_equals_eager sevensCtx sevens dataSegment sevens_in_memory (by decide) (by decide) (by decide) 1
    (by decide) 100 (by decide) (by decide)

/-- At the top of the address space the end of the file part is zero in 64
bits: nothing is copied at once, while a fault copies the page. -/
def topSegment : Phdr where
  type := ptLoad
  flags := 6
  offset := 0
  vaddr := 0xFFFFFFFFFFFFE000
  filesz := 0x2000
  memsz := 0x1000

theorem top_segment_differs : InMemory sevensCtx sevens ∧ alignDelta topSegment ≤ topSegment.offset.toNat ∧
    topSegment.offset.toNat+topSegment.filesz.toNat ≤ sevens.size ∧
    segStart topSegment+0*pageSize < segEnd topSegment ∧
    initialPage sevensCtx (segmentVma sevens.data topSegment) (segStart topSegment+0*pageSize) 0 = 7 ∧
    segmentPage sevens topSegment (segStart topSegment+0*pageSize) 0 = 0 :=
  ⟨sevens_in_memory,by decide,by decide,by decide,by decide,by decide⟩

end HobbyOS.DemandPaging

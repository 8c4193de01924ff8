import HobbyOS.VmaTable

/-!
# Device mappings

`syscall_mmap` on a device descriptor adds the caller's offset to the address
of the framebuffer, and `vma_handle_fault` adds the position of the page; both
sums are in 64 bits and neither is compared with the size of the framebuffer.
The check of `fb_ops_mmap` is not called. Here the frames that a fault enters
in the page table are computed, and with them the requests that stay inside
the framebuffer.
-/

namespace HobbyOS.DeviceMapping
open PageEntry PhysMem UserVm Process Mmap VmaTable Function

/-- What `fb_init` is told about the framebuffer. It begins on a page, not at
address zero, and lies where a page table entry can point. -/
structure Framebuffer where
  phys : ℕ
  pitch : BitVec 32
  height : BitVec 32
  aligned : pageSize ∣ phys
  placed : 0 < phys
  fits : phys+pitch.toNat*height.toNat ≤ 2^52

variable (a : Areas) (fb : Framebuffer) (args : MmapArgs) (v : Vma)

def fbGetSize : ℕ := fb.pitch.toNat*fb.height.toNat

def Inside (f : ℕ) : Prop :=
  fb.phys ≤ pageSize*f ∧ pageSize*f+pageSize ≤ fb.phys+fbGetSize fb

/-- The frame number that the handler hands to `user_vm_map_page`. -/
def deviceFrame (page : ℕ) : ℕ := (v.devPhysBase+(page-v.start)) % 2^64/pageSize

def mappedFrame (page : ℕ) : ℕ := pteFrame (leafEntry (deviceFrame v page) (deviceFlags v))

variable (i n : ℕ)

theorem device_flags_clear (h1 : 12 ≤ i) : bit (deviceFlags v) i = false := by
  have h0 : i ≠ 0 := by omega
  have h2 : i ≠ 2 := by omega
  have h4 : i ≠ 4 := by omega
  have hw : i ≠ 1 := by omega
  unfold deviceFlags
  split <;> simp [h0, h2, h4, hw]

theorem mapped_frame_eq (page : ℕ) : mappedFrame v page = deviceFrame v page % 2^40 :=
  leaf_entry_frame _ fun i h1 _ => device_flags_clear v i h1

theorem device_fault {c : Ctx} {s : Mem} {p i fault : ℕ} {w : Bool}
    (hf : vmaFind (c.table p) fault = some i) (ht : ((c.table p).vmas i).type = .device)
    (hr : (vmaHandleFault c s p fault w).2.2 = true) :
    ∃ s1, vmaHandleFault c s p fault w =
      ((userVmMapPage c s1 (c.table p).cr3 (pageBase fault)
        (deviceFrame ((c.table p).vmas i) (pageBase fault)) (deviceFlags ((c.table p).vmas i))).1,
      c.table,true) := by
  unfold vmaHandleFault at hr ⊢
  simp only [hf, ht] at hr ⊢
  split_ifs at hr ⊢ with hw hs
  · exact absurd hs.2 (by decide)
  · unfold vmaPrivate at hr ⊢
    rcases ha : allocZeroedPage c s with ⟨s0,_ | f⟩
    · rw [ha] at hr
      exact absurd hr (by simp)
    · rw [ha] at hr
      simp only [ht, if_true] at hr ⊢
      exact ⟨pmmPageUnref s0 (f+1),by rw [deviceFrame, hr]⟩

/-- Every slot of the table has page-aligned bounds. -/
def Paged : Prop := ∀ i, pageSize ∣ (a.vmas i).start ∧ pageSize ∣ (a.vmas i).stop

theorem page_base_dvd : pageSize ∣ pageBase n := (page_base_spec n).1

theorem page_up_dvd : pageSize ∣ pageUp n := page_base_dvd _

theorem wrap_dvd (h : pageSize ∣ n) : pageSize ∣ n % 2^64 :=
  (Nat.dvd_mod_iff (by decide : pageSize ∣ 2^64)).mpr h

theorem paged_set {v : Vma} (h : Paged a) (hv : pageSize ∣ v.start ∧ pageSize ∣ v.stop) : Paged (setVma a i v) := by
  intro j
  by_cases hj : j = i
  · subst hj
    simpa [setVma] using hv
  · simpa [setVma, update_of_ne hj] using h j

theorem search_aligned (h : Paged a) (len fuel base : ℕ) (hb : pageSize ∣ base) :
    pageSize ∣ searchFrom a len fuel base := by
  induction fuel generalizing base with
  | zero => exact dvd_zero _
  | succ fuel ih =>
    rw [searchFrom]
    split
    · exact dvd_zero _
    · split
      · exact hb
      · exact ih _ (h _).2

theorem mmap_addr_aligned (h : Paged a) (args : MmapArgs) (len : ℕ) :
    pageSize ∣ mmapAddr a args len := by
  unfold mmapAddr
  split
  · exact page_base_dvd _
  · exact search_aligned a h len _ _ (page_up_dvd _)

theorem mmap_paged (h : Paged a) (fds : ℕ → Fd) (fb : Option ℕ) (args : MmapArgs) :
    Paged (syscallMmap a fds fb args).1 := by
  have haddr := mmap_addr_aligned a h args (pageUp args.len.toNat)
  have hstop := wrap_dvd _ (Nat.dvd_add haddr (page_up_dvd args.len.toNat))
  unfold syscallMmap
  split_ifs
  · exact h
  · exact h
  · split
    · exact h
    · rename_i i _
      unfold mmapInto
      split
      · exact paged_set a i h ⟨haddr,hstop⟩
      · rename_i v hv
        obtain ⟨hs,he,-⟩ := backing_bounds _ _ hv
        exact paged_set a i h ⟨hs ▸ haddr,he ▸ hstop⟩

theorem over_areas_paged (h : Paged a) (addr len : BitVec 64) (f : Vma → Vma)
    (hb : ∀ v, (f v).start = v.start ∧ (f v).stop = v.stop) : Paged (overAreas a addr len f) := by
  intro i
  simp only [overAreas]
  split_ifs
  · rw [(hb _).1, (hb _).2]
    exact h i
  · exact h i

theorem load_paged (data size : ℕ) (eager : ℕ → Bool) (a : Areas) (hs : List Phdr) (h : Paged a) :
    Paged (elfLoadSegments data size eager a hs).1 := by
  induction hs generalizing a with
  | nil => exact h
  | cons k hs ih =>
    rw [elfLoadSegments]
    split
    · exact ih a h
    · split
      · exact h
      · split
        · exact ih _ (paged_set a _ h ⟨page_base_dvd _,page_up_dvd _⟩)
        · split
          · exact ih a h
          · exact h

theorem step_paged (h : Paged a) (c : Call) : Paged (step a c) := by
  cases c with
  | mmap fds fb args => exact mmap_paged a h fds fb args
  | munmap addr len =>
    exact over_areas_paged a h addr len (fun v => { v with inUse := false }) fun _ => ⟨rfl,rfl⟩
  | mprotect addr len prot =>
    exact over_areas_paged a h addr len (fun v => { v with prot := prot }) fun _ => ⟨rfl,rfl⟩
  | exec data size eager hs => exact load_paged data size eager _ hs h

inductive Run : (ℕ → Areas) → Prop
  | boot : Run fun _ => {}
  | next (s : ℕ → Areas) (e : Event) (h : Run s) : Run (next s e)

theorem empty_paged : Paged {} := fun _ => ⟨dvd_zero _,dvd_zero _⟩

theorem next_paged (s : ℕ → Areas) (h : ∀ p, Paged (s p)) (e : Event) (q : ℕ) : Paged (next s e q) := by
  have hset : ∀ p a, Paged a → Paged (update s p a q) := by
    intro p a ha
    by_cases hq : q = p
    · subst hq
      rwa [update_self]
    · rw [update_of_ne hq]
      exact h q
  cases e with
  | call p c => exact hset p _ (step_paged (s p) (h p) c)
  | fork parent child => exact hset child _ (h parent)
  | create p data size eager hs => exact hset p _ (load_paged data size eager _ hs empty_paged)

theorem run_paged (s : ℕ → Areas) (h : Run s) (p : ℕ) : Paged (s p) := by
  induction h generalizing p with
  | boot => exact empty_paged
  | next s e _ ih => exact next_paged s ih e p

/-- The area a request gives to a device, as far as the handler reads it. -/
structure DeviceArea (a : Areas) (fb : Framebuffer) (args : MmapArgs) (v : Vma) : Prop where
  type : v.type = .device
  start : v.start = mmapAddr a args (pageUp args.len.toNat)
  stop : v.stop = (mmapAddr a args (pageUp args.len.toNat)+pageUp args.len.toNat) % 2^64
  base : v.devPhysBase = (fb.phys+args.offset.toNat) % 2^64

theorem device_area (fds : ℕ → Fd) (args : MmapArgs) (addr i : ℕ)
    (hanon : args.flags &&& mapAnonymous = 0) (hdev : (fds args.fd.toNat).type = .device)
    (hi : vmaAlloc a = some i) (hr : (syscallMmap a fds (some fb.phys) args).2 = some addr) :
    DeviceArea a fb args ((syscallMmap a fds (some fb.phys) args).1.vmas i) := by
  unfold syscallMmap at hr ⊢
  split_ifs at hr ⊢
  rw [hi] at hr ⊢
  simp only [mmapInto] at hr ⊢
  have hb : ∀ v w, backing fds (some fb.phys) args v = some w →
      w = { v with
        type := .device, devPhysBase := (fb.phys+args.offset.toNat) % 2^64, fileInode := 0, fileOffset := 0 } := by
    intro v w h
    unfold backing at h
    rw [if_neg (by simp [hanon])] at h
    simp only [hdev] at h
    split_ifs at h
    exact (Option.some.inj h).symm
  cases hv : backing fds (some fb.phys) args (mmapSlot (a.vmas i) args
      (mmapAddr a args (pageUp args.len.toNat)) (pageUp args.len.toNat)) with
  | none =>
    rw [hv] at hr
    cases hr
  | some w =>
    have hw := hb _ _ hv
    simp only [setVma, update_self]
    subst hw
    exact ⟨rfl,rfl,rfl,rfl⟩

theorem area_frame (h : DeviceArea a fb args v)
    (k : ℕ) : mappedFrame v (v.start+pageSize*k) =
      (fb.phys/pageSize+args.offset.toNat/pageSize+k) % 2^40 := by
  obtain ⟨q,hq⟩ := fb.aligned
  rw [mapped_frame_eq, deviceFrame, h.base, hq]
  unfold pageSize
  omega

/-- The area has no page, or the offset, without what entries cannot hold, and
the length fit in the framebuffer. -/
def Confined : Prop :=
  mmapAddr a args (pageUp args.len.toNat) <
      (mmapAddr a args (pageUp args.len.toNat)+pageUp args.len.toNat) % 2^64 →
    pageBase (args.offset.toNat % 2^52)+pageUp args.len.toNat ≤ fbGetSize fb

/-- The frames from `d` pages into the framebuffer on, counted in forty bits,
are inside for as long as there are whole pages of it. -/
theorem frames_inside (d n : ℕ) (hn : 0 < n) :
    (∀ k < n, Inside fb ((fb.phys/pageSize+d+k) % 2^40)) ↔ pageSize*(d % 2^40+n) ≤ fbGetSize fb := by
  obtain ⟨q,hq⟩ := fb.aligned
  have hpos := fb.placed
  have hfit : fb.phys+fbGetSize fb ≤ 2^52 := fb.fits
  unfold Inside
  unfold pageSize at *
  generalize fbGetSize fb = size at *
  constructor
  · intro h
    by_contra hlong
    -- the first page of the area that is not a whole page of the framebuffer
    have hk := h (size/4096-d % 2^40) (by omega)
    omega
  · intro h k hk
    omega

theorem offset_pages : pageBase (n % 2^52) = pageSize*(n/pageSize % 2^40) := by
  unfold pageBase pageSize
  omega

theorem area_page (hs : pageSize ∣ v.start) (he : pageSize ∣ v.stop) {fault : ℕ}
    (h1 : v.start ≤ fault) (h2 : fault < v.stop) :
    ∃ k < (v.stop-v.start)/pageSize, pageBase fault = v.start+pageSize*k := by
  obtain ⟨a,ha⟩ := hs
  obtain ⟨b,hb⟩ := he
  refine ⟨fault/pageSize-a,?_,?_⟩
  · unfold pageSize at *
    omega
  · unfold pageBase pageSize at *
    omega

theorem area_inside (ha : Paged a) (fb : Framebuffer) (args : MmapArgs) (v : Vma)
    (h : DeviceArea a fb args v) :
    (∀ fault, v.start ≤ fault → fault < v.stop → Inside fb (mappedFrame v (pageBase fault))) ↔
      Confined a fb args := by
  have hal := mmap_addr_aligned a ha args (pageUp args.len.toNat)
  have hlen := page_up_dvd args.len.toNat
  have hs : pageSize ∣ v.start := h.start ▸ hal
  have he : pageSize ∣ v.stop := h.stop ▸ wrap_dvd _ (Nat.dvd_add hal hlen)
  unfold Confined
  rw [← h.start, offset_pages]
  have hstop := h.stop
  rw [← h.start] at hstop
  rw [← hstop]
  by_cases hne : v.start < v.stop
  · have hup : pageUp args.len.toNat < 2^64 :=
      (Nat.div_mul_le_self _ _).trans_lt (Nat.mod_lt _ (by decide))
    have hwide : v.stop = v.start+pageUp args.len.toNat := by omega
    obtain ⟨n,hn⟩ := hlen
    have hpages : (v.stop-v.start)/pageSize = n := by
      rw [hwide, hn, Nat.add_sub_cancel_left, Nat.mul_div_cancel_left n (by decide : 0 < pageSize)]
    have hpos : 0 < n := by
      apply Nat.pos_of_ne_zero
      rintro rfl
      omega
    have hiff := frames_inside fb (args.offset.toNat/pageSize) n hpos
    simp only [hne, true_implies]
    rw [hn, ← Nat.mul_add, ← hiff]
    constructor
    · intro hall k hk
      have hb : pageBase (v.start+pageSize*k) = v.start+pageSize*k :=
        Nat.div_mul_cancel (Nat.dvd_add hs (Nat.dvd_mul_right _ _))
      have hin := hall (v.start+pageSize*k) (Nat.le_add_right _ _)
        (by rw [hwide, hn]; unfold pageSize; omega)
      rwa [hb, area_frame a fb args v h k] at hin
    · intro hall fault h1 h2
      obtain ⟨k,hk,hpage⟩ := area_page v hs he h1 h2
      rw [hpage, area_frame a fb args v h k]
      exact hall k (hpages ▸ hk)
  · simp only [hne, false_implies, iff_true]
    intro fault h1 h2
    exact absurd (h1.trans_lt h2) hne

/-- After a device mapping every fault in the area that is served, in any
process that has the area and under any later protection, enters one frame at
the page, and all of these frames lie in the framebuffer exactly when the
request is confined. -/
theorem device_mapping_confined (t : ℕ → Areas) (ht : Run t) (p : ℕ) (fds : ℕ → Fd)
    (args : MmapArgs) (addr i : ℕ) (v : Vma) (hanon : args.flags &&& mapAnonymous = 0)
    (hdev : (fds args.fd.toNat).type = .device) (hi : vmaAlloc (t p) = some i)
    (hr : (syscallMmap (t p) fds (some fb.phys) args).2 = some addr)
    (hv : (syscallMmap (t p) fds (some fb.phys) args).1.vmas i = v) :
    (∀ (c : Ctx) (s : Mem) (q fault : ℕ) (w : Bool) (prot : BitVec 32),
      (c.table q).vmas i = { v with prot := prot } → vmaFind (c.table q) fault = some i →
      (vmaHandleFault c s q fault w).2.2 = true →
      ∃ s1, vmaHandleFault c s q fault w =
        ((userVmMapPage c s1 (c.table q).cr3 (pageBase fault) (deviceFrame v (pageBase fault))
          (deviceFlags { v with prot := prot })).1,c.table,true)) ∧
    ((∀ prot fault, v.start ≤ fault → fault < v.stop →
        Inside fb (mappedFrame { v with prot := prot } (pageBase fault))) ↔ Confined (t p) fb args) := by
  have harea := device_area (t p) fb fds args addr i hanon hdev hi hr
  rw [hv] at harea
  have hiff := fun prot => area_inside (t p) (run_paged t ht p) fb args { v with prot := prot }
    ⟨harea.type,harea.start,harea.stop,harea.base⟩
  refine ⟨?_,fun h => (hiff v.prot).mp (h v.prot),fun h prot => (hiff prot).mpr h⟩
  intro c s q fault w prot hq hfind hserved
  obtain ⟨s1,h1⟩ := device_fault hfind (by rw [hq]; exact harea.type) hserved
  exact ⟨s1,by rw [h1, hq]; rfl⟩

def screen : Framebuffer where
  phys := 0xFD000000
  pitch := 4096
  height := 768
  aligned := by decide
  placed := by decide
  fits := by decide

def screenFds : ℕ → Fd := fun _ => { type := .device, data := 1 }

/-- A readable and writable page of the device at the given offset. -/
def screenPage (offset : BitVec 64) : MmapArgs where
  addr := 0
  len := 4096
  prot := 3
  flags := 1
  fd := 3
  offset := offset

def screenVma (offset : BitVec 64) : Vma :=
  (syscallMmap {} screenFds (some screen.phys) (screenPage offset)).1.vmas 0

theorem last_page_area :
    (syscallMmap {} screenFds (some screen.phys) (screenPage 0x2FF000)).2 = some mmapBase ∧
    (screenVma 0x2FF000).start ≤ mmapBase ∧ mmapBase < (screenVma 0x2FF000).stop ∧
    pageBase ((screenPage 0x2FF000).offset.toNat % 2^52)+pageUp (screenPage 0x2FF000).len.toNat ≤
      fbGetSize screen := by
  decide +kernel

theorem device_mapping_confined_last :
    Inside screen (mappedFrame { screenVma 0x2FF000 with prot := 1 } (pageBase mmapBase)) := by
  obtain ⟨hr,hs,he,hc⟩ := last_page_area
  exact (device_mapping_confined screen (fun _ => {}) .boot 0 screenFds (screenPage 0x2FF000) mmapBase 0
    (screenVma 0x2FF000) (by decide) rfl (by decide) hr rfl).2.mpr (fun _ => hc) 1 mmapBase hs he

/-- Added to the address of the screen this wraps to one megabyte. -/
def wrapOffset : BitVec 64 := 0xFFFFFFFF03100000

theorem wrapped_area :
    (syscallMmap {} screenFds (some screen.phys) (screenPage wrapOffset)).2 = some mmapBase ∧
    (screenVma wrapOffset).inUse = true ∧ (screenVma wrapOffset).start = mmapBase ∧
    mmapBase < (screenVma wrapOffset).stop ∧ (screenVma wrapOffset).type = .device ∧
    deviceFrame (screenVma wrapOffset) mmapBase = 0x100 := by
  decide +kernel

/-- With an offset that wraps, the request succeeds and the handler maps the
frame at one megabyte, where the kernel is loaded, writable for the user. -/
theorem kernel_page_mapped :
    (syscallMmap {} screenFds (some screen.phys) (screenPage wrapOffset)).2 = some mmapBase ∧
    pteFrame (leafEntry 0x100 (deviceFlags (screenVma wrapOffset))) = 0x100 ∧
    bit (leafEntry 0x100 (deviceFlags (screenVma wrapOffset))) 1 = true ∧ ¬Inside screen 0x100 ∧
    ∀ (c : Ctx) (s : Mem) (q : ℕ) (w : Bool), (c.table q).vmas 0 = screenVma wrapOffset →
      (vmaHandleFault c s q mmapBase w).2.2 = true →
      ∃ s1, (vmaHandleFault c s q mmapBase w).1 = (userVmMapPage c s1 (c.table q).cr3 mmapBase 0x100
        (deviceFlags (screenVma wrapOffset))).1 := by
  obtain ⟨hr,hu,hs,he,ht,hf⟩ := wrapped_area
  refine ⟨hr,leaf_entry_frame _ fun i h1 _ => device_flags_clear _ i h1,by decide,?_,?_⟩
  · intro hin
    exact absurd hin.1 (by decide)
  · intro c s q w hv hserved
    have hfind : vmaFind (c.table q) mmapBase = some 0 := by
      unfold vmaFind
      rw [show List.range vmaMax = 0 :: List.map Nat.succ (List.range 31) from List.range_succ_eq_map,
        List.find?_cons_of_pos]
      simp [hv, hu, hs, he]
    obtain ⟨s1,h1⟩ := device_fault hfind (by rw [hv]; exact ht) hserved
    refine ⟨s1,?_⟩
    rw [h1, hv, show pageBase mmapBase = mmapBase by decide, hf]

end HobbyOS.DeviceMapping

import HobbyOS.Mmap

/-!
# The table of memory areas

What `syscall_mmap`, `munmap`, `mprotect`, `fork` and the ELF loader of
`exec` do to the `vmas` and `mmap_next` of a process, in 64-bit arithmetic.
The pages behind the areas are in `Mmap`; none of these functions looks at
them when it changes the table.
-/

namespace HobbyOS.VmaTable
open PageEntry Process Mmap Function

def mmapBase : ℕ := 0x10000000
def mmapTop : ℕ := 0x7FC0000000

def mapPrivate : BitVec 32 := 2
def mapFixed : BitVec 32 := 0x10
def mapAnonymous : BitVec 32 := 0x20

/-- The `vmas` and `mmap_next` fields of a process. -/
structure Areas where
  vmas : ℕ → Vma := fun _ => {}
  mmapNext : ℕ := mmapBase

variable (a : Areas) (s : ℕ → Areas) (fds : ℕ → Fd) (fb : Option ℕ)

def setVma (i : ℕ) (v : Vma) : Areas := { a with vmas := update a.vmas i v }

def vmaAlloc : Option ℕ :=
  (List.range vmaMax).find? fun i => !(a.vmas i).inUse

def overlapping (base len : ℕ) : Option ℕ :=
  (List.range vmaMax).find? fun i =>
    (a.vmas i).inUse && decide (base < (a.vmas i).stop) && decide ((a.vmas i).start < (base+len) % 2^64)

/-- The `retry` loop; each round moves the base past an area. -/
def searchFrom (a : Areas) (len : ℕ) : ℕ → ℕ → ℕ
  | 0, _ => 0
  | fuel+1, base =>
    if mmapTop < (base+len) % 2^64 then 0
    else
      match overlapping a base len with
      | none => base
      | some i => searchFrom a len fuel (a.vmas i).stop

def searchBase (hint : ℕ) : ℕ :=
  pageUp (if hint ≠ 0 ∧ mmapBase ≤ hint ∧ hint < mmapTop then hint else a.mmapNext)

def vmaFindFreeRange (hint len : ℕ) : ℕ :=
  searchFrom a len (vmaMax+1) (searchBase a hint)

structure MmapArgs where
  addr : BitVec 64
  len : BitVec 64
  prot : BitVec 32
  flags : BitVec 32
  fd : ℤ
  offset : BitVec 64

/-- What the area is backed by, from the flags and the descriptor; `none`
refuses the call. The framebuffer is the one device that can be mapped. -/
def backing (args : MmapArgs) (v : Vma) : Option Vma :=
  if args.flags &&& mapAnonymous ≠ 0 then some { v with type := .anon, fileInode := 0, fileOffset := 0 }
  else if args.fd < 0 ∨ (processMaxFds : ℤ) ≤ args.fd then none
  else
    match (fds args.fd.toNat).type with
    | .ext2 => some { v with
        type := .file, fileOffset := args.offset.toNat, fileInode := (fds args.fd.toNat).data % 2^32 }
    | .device =>
      if (fds args.fd.toNat).data = 0 then none
      else fb.map fun phys => { v with
        type := .device, devPhysBase := (phys+args.offset.toNat) % 2^64, fileInode := 0, fileOffset := 0 }
    | _ => none

def mmapAddr (args : MmapArgs) (len : ℕ) : ℕ :=
  if args.flags &&& mapFixed ≠ 0 ∧ args.addr ≠ 0 then pageBase args.addr.toNat
  else vmaFindFreeRange a args.addr.toNat len

def mmapFails (args : MmapArgs) (len : ℕ) : Bool :=
  !(decide (args.flags &&& mapFixed ≠ 0 ∧ args.addr ≠ 0)) && mmapAddr a args len == 0

/-- The slot as far as it is filled before the descriptor is looked at. -/
def mmapSlot (v : Vma) (args : MmapArgs) (addr len : ℕ) : Vma :=
  { v with
    start := addr, stop := (addr+len) % 2^64, prot := args.prot, flags := args.flags
    inUse := true, sharedPhys := 0 }

/-- The call from the point where it has a slot; `none` as an answer is -1. -/
def mmapInto (args : MmapArgs) (i addr len : ℕ) :
    Areas × Option ℕ :=
  match backing fds fb args (mmapSlot (a.vmas i) args addr len) with
  | none =>
    (setVma a i { mmapSlot (a.vmas i) args addr len with
      inUse := false, type := .file, fileOffset := args.offset.toNat },none)
  | some v => ({ setVma a i v with mmapNext := max a.mmapNext ((addr+len) % 2^64) },some addr)

def syscallMmap (args : MmapArgs) : Areas × Option ℕ :=
  if args.len = 0 then (a,none)
  else if mmapFails a args (pageUp args.len.toNat) then (a,none)
  else
    match vmaAlloc a with
    | none => (a,none)
    | some i =>
      mmapInto a fds fb args i (mmapAddr a args (pageUp args.len.toNat)) (pageUp args.len.toNat)

/-- A change to every area that meets the pages of the range. -/
def overAreas (addr len : BitVec 64) (f : Vma → Vma) : Areas :=
  { a with vmas := fun i =>
      if i < vmaMax ∧ vmaOverlaps (a.vmas i) (pageBase addr.toNat) (pageUp (addr.toNat+len.toNat))
      then f (a.vmas i) else a.vmas i }

def munmap (addr len : BitVec 64) : Areas :=
  overAreas a addr len fun v => { v with inUse := false }

def mprotect (addr len : BitVec 64) (prot : BitVec 32) : Areas :=
  overAreas a addr len fun v => { v with prot := prot }

def vmaDestroyAll : Areas where
  vmas := fun i => { a.vmas i with inUse := false }
  mmapNext := mmapBase

/-- `Elf64_Phdr` as far as the loader reads it. -/
structure Phdr where
  type : ℕ
  flags : BitVec 32
  offset : BitVec 64
  vaddr : BitVec 64
  filesz : BitVec 64
  memsz : BitVec 64

def ptLoad : ℕ := 1

/-- The protection of a segment: the read, write and execute flags of the
file in the order of `PROT_READ`, `PROT_WRITE` and `PROT_EXEC`. -/
def segmentProt (flags : BitVec 32) : BitVec 32 :=
  (if flags &&& 4 ≠ 0 then 1 else 0) ||| (if flags &&& 2 ≠ 0 then 2 else 0) |||
    (if flags &&& 1 ≠ 0 then 4 else 0)

def segStart (h : Phdr) : ℕ := pageBase h.vaddr.toNat

def segEnd (h : Phdr) : ℕ := pageUp (h.vaddr.toNat+h.memsz.toNat)

def segmentVma (data : ℕ) (h : Phdr) : Vma where
  start := segStart h
  stop := segEnd h
  prot := segmentProt h.flags
  flags := mapPrivate
  type := .elf
  inUse := true
  elfData := (data+h.offset.toNat+(2^64-(h.vaddr.toNat-segStart h))) % 2^64
  elfDataFilesz := (h.filesz.toNat+(h.vaddr.toNat-segStart h)) % 2^64
  elfVaddr := segStart h
  elfDataOwned := false

/-- `elf_load_segments` with demand paging, as far as the table goes: a
segment that finds no slot is loaded page by page, and `eager` says whether
the memory for that is there. -/
def elfLoadSegments (data size : ℕ) (eager : ℕ → Bool) (a : Areas) : List Phdr → Areas × Bool
  | [] => (a,true)
  | h::hs =>
    if h.type ≠ ptLoad then elfLoadSegments data size eager a hs
    else if size < (h.offset.toNat+h.filesz.toNat) % 2^64 then (a,false)
    else
      match vmaAlloc a with
      | some i => elfLoadSegments data size eager (setVma a i (segmentVma data h)) hs
      | none => if eager hs.length then elfLoadSegments data size eager a hs else (a,false)

/-- The table after `exec` from the point where the old areas are cleared;
the call may still fail afterwards and leaves the table as it is. -/
def execAreas (data size : ℕ) (eager : ℕ → Bool) (a : Areas) (hs : List Phdr) : Areas :=
  (elfLoadSegments data size eager (vmaDestroyAll a) hs).1

inductive Call where
  | mmap (fds : ℕ → Fd) (fb : Option ℕ) (args : MmapArgs)
  | munmap (addr len : BitVec 64)
  | mprotect (addr len : BitVec 64) (prot : BitVec 32)
  | exec (data size : ℕ) (eager : ℕ → Bool) (hs : List Phdr)

def step : Call → Areas
  | .mmap fds fb args => (syscallMmap a fds fb args).1
  | .munmap addr len => munmap a addr len
  | .mprotect addr len prot => mprotect a addr len prot
  | .exec data size eager hs => execAreas data size eager a hs

/-- The tables of all processes. A call changes the table of its process,
`vma_fork_copy` copies a table, and a new process has its image loaded into
an empty one. -/
inductive Event where
  | call (p : ℕ) (c : Call)
  | fork (parent child : ℕ)
  | create (p data size : ℕ) (eager : ℕ → Bool) (hs : List Phdr)

def next : Event → ℕ → Areas
  | .call p c => update s p (step (s p) c)
  | .fork parent child => update s child (s parent)
  | .create p data size eager hs => update s p (execAreas data size eager {} hs)

def userTop : ℕ := 2^47

structure Proper (v : Vma) : Prop where
  nonempty : v.start < v.stop
  startAligned : pageSize ∣ v.start
  stopAligned : pageSize ∣ v.stop
  user : v.stop ≤ userTop

def Apart (s e s' e' : ℕ) : Prop := e ≤ s' ∨ e' ≤ s

structure WellFormed (a : Areas) : Prop where
  proper : ∀ i < vmaMax, (a.vmas i).inUse = true → Proper (a.vmas i)
  apart : ∀ i < vmaMax, ∀ j < vmaMax, i ≠ j → (a.vmas i).inUse = true → (a.vmas j).inUse = true →
    Apart (a.vmas i).start (a.vmas i).stop (a.vmas j).start (a.vmas j).stop

/-- The table is well formed and `mmap_next` is a page of the lower half. -/
structure Good (a : Areas) : Prop where
  wf : WellFormed a
  nextAligned : pageSize ∣ a.mmapNext
  nextUser : a.mmapNext ≤ userTop

def Free (s e : ℕ) : Prop :=
  ∀ i < vmaMax, (a.vmas i).inUse = true → Apart s e (a.vmas i).start (a.vmas i).stop

variable {args : MmapArgs} (n data i : ℕ)

theorem vma_alloc_some (h : vmaAlloc a = some i) : i < vmaMax ∧ (a.vmas i).inUse = false := by
  have hp := List.find?_some h
  have hm := List.mem_of_find?_eq_some h
  exact ⟨List.mem_range.mp hm,by simpa using hp⟩

theorem apart_symm {s e s' e' : ℕ} (h : Apart s e s' e') : Apart s' e' s e := h.symm

theorem wf_set {v : Vma} (h : WellFormed a) (hv : v.inUse = true → Proper v)
    (hfree : v.inUse = true → Free a v.start v.stop) : WellFormed (setVma a i v) := by
  refine ⟨?_,?_⟩
  · intro j hj hu
    by_cases hji : j = i
    · subst hji
      simp only [setVma, update_self] at hu ⊢
      exact hv hu
    · simp only [setVma, update_of_ne hji] at hu ⊢
      exact h.proper j hj hu
  · intro j hj k hk hjk huj huk
    by_cases hji : j = i
    · subst hji
      have hkj : k ≠ j := fun hkj => hjk hkj.symm
      simp only [setVma, update_self, update_of_ne hkj] at huj huk ⊢
      exact hfree huj k hk huk
    · by_cases hki : k = i
      · subst hki
        simp only [setVma, update_self, update_of_ne hji] at huj huk ⊢
        exact apart_symm (hfree huk j hj huj)
      · simp only [setVma, update_of_ne hji, update_of_ne hki] at huj huk ⊢
        exact h.apart j hj k hk hjk huj huk

theorem wf_fewer {a b : Areas} (h : WellFormed a)
    (hsub : ∀ i < vmaMax, (b.vmas i).inUse = true → (a.vmas i).inUse = true ∧
      (b.vmas i).start = (a.vmas i).start ∧ (b.vmas i).stop = (a.vmas i).stop) : WellFormed b := by
  refine ⟨?_,?_⟩
  · intro i hi hu
    obtain ⟨hu0,hs,he⟩ := hsub i hi hu
    have hp := h.proper i hi hu0
    exact ⟨hs ▸ he ▸ hp.nonempty,hs ▸ hp.startAligned,he ▸ hp.stopAligned,he ▸ hp.user⟩
  · intro i hi j hj hij hui huj
    obtain ⟨hu0,hs,he⟩ := hsub i hi hui
    obtain ⟨hu1,hs1,he1⟩ := hsub j hj huj
    rw [hs, he, hs1, he1]
    exact h.apart i hi j hj hij hu0 hu1

theorem user_top_dvd : pageSize ∣ userTop := by decide

theorem overlapping_none (base len : ℕ) (h : overlapping a base len = none)
    (hlen : base+len < 2^64) : Free a base (base+len) := by
  intro i hi hu
  have hp := List.find?_eq_none.mp h i (List.mem_range.mpr hi)
  rw [Nat.mod_eq_of_lt hlen] at hp
  simp only [hu, Bool.true_and, Bool.and_eq_true, decide_eq_true_eq, not_and] at hp
  unfold Apart
  by_cases hb : base < (a.vmas i).stop
  · exact .inl (Nat.le_of_not_lt (hp hb))
  · exact .inr (Nat.le_of_not_lt hb)

theorem overlapping_some (base len i : ℕ) (h : overlapping a base len = some i) :
    i < vmaMax ∧ (a.vmas i).inUse = true ∧ base < (a.vmas i).stop := by
  have hp := List.find?_some h
  simp only [Bool.and_eq_true, decide_eq_true_eq] at hp
  exact ⟨List.mem_range.mp (List.mem_of_find?_eq_some h),hp.1.1,hp.1.2⟩

/-- The areas a search from `base` can still run into. -/
def ahead (base : ℕ) : ℕ :=
  (List.range vmaMax).countP fun i => (a.vmas i).inUse && decide (base < (a.vmas i).stop)

theorem ahead_le (base : ℕ) : ahead a base ≤ vmaMax :=
  List.countP_le_length.trans_eq List.length_range

theorem ahead_lt {base i : ℕ} (hi : i < vmaMax) (hu : (a.vmas i).inUse = true)
    (hb : base < (a.vmas i).stop) : ahead a (a.vmas i).stop < ahead a base := by
  obtain ⟨l,r,hlr⟩ := List.append_of_mem (List.mem_range.mpr hi)
  have hmono : ∀ xs : List ℕ,
      xs.countP (fun j => (a.vmas j).inUse && decide ((a.vmas i).stop < (a.vmas j).stop)) ≤
        xs.countP (fun j => (a.vmas j).inUse && decide (base < (a.vmas j).stop)) := by
    intro xs
    refine List.countP_mono_left fun j _ hj => ?_
    simp only [Bool.and_eq_true, decide_eq_true_eq] at hj ⊢
    exact ⟨hj.1,hb.trans hj.2⟩
  have hl := hmono l
  have hr := hmono r
  unfold ahead
  rw [hlr]
  simp only [List.countP_append, List.countP_cons, hu, hb, lt_self_iff_false, decide_false, decide_true,
    Bool.and_false, Bool.and_true, if_true]
  simp only [Bool.false_eq_true, if_false]
  omega

/-- The search with its retries counted: nothing when they do not suffice. -/
def searchWithin (len n base : ℕ) : Option ℕ :=
  if mmapTop < (base+len) % 2^64 then some 0
  else
    match overlapping a base len, n with
    | none, _ => some base
    | some _, 0 => none
    | some i, n+1 => searchWithin len n (a.vmas i).stop

theorem search_within (len n fuel base : ℕ) (hn : ahead a base ≤ n) (hf : ahead a base < fuel) :
    searchWithin a len n base = some (searchFrom a len fuel base) := by
  induction fuel generalizing base n with
  | zero => omega
  | succ fuel ih =>
    rw [searchFrom]
    unfold searchWithin
    by_cases htop : mmapTop < (base+len) % 2^64
    · rw [if_pos htop, if_pos htop]
    rw [if_neg htop, if_neg htop]
    cases ho : overlapping a base len with
    | none => rfl
    | some i =>
      obtain ⟨hi,hu,hb⟩ := overlapping_some a base len i ho
      have hlt := ahead_lt a hi hu hb
      cases n with
      | zero => omega
      | succ n => exact ih n _ (by omega) (by omega)

/-- `P` holds of the base the search starts from and of the end of every area. -/
theorem search_found (P : ℕ → Prop) (len : ℕ) (hw : ∀ b, P b → b+len < 2^64)
    (hP : ∀ i < vmaMax, (a.vmas i).inUse = true → P (a.vmas i).stop) (fuel base : ℕ) (hb : P base)
    (hr : searchFrom a len fuel base ≠ 0) :
    P (searchFrom a len fuel base) ∧
      Free a (searchFrom a len fuel base) (searchFrom a len fuel base+len) ∧
      searchFrom a len fuel base+len ≤ mmapTop := by
  induction fuel generalizing base with
  | zero => exact absurd rfl hr
  | succ fuel ih =>
    rw [searchFrom] at hr ⊢
    split at hr
    · exact absurd rfl hr
    · rename_i htop
      rw [if_neg htop]
      rw [Nat.mod_eq_of_lt (hw base hb)] at htop
      cases ho : overlapping a base len with
      | none => exact ⟨hb,overlapping_none a base len ho (hw base hb),Nat.le_of_not_lt htop⟩
      | some i =>
        obtain ⟨hi,hu,-⟩ := overlapping_some a base len i ho
        rw [ho] at hr
        exact ih _ (hP i hi hu) hr

theorem search_base_spec {b : ℕ} (hint : ℕ) (hd : pageSize ∣ b) (hb : b+4095 < 2^64) (ht : mmapTop ≤ b)
    (hn : a.mmapNext ≤ b) : pageSize ∣ searchBase a hint ∧ searchBase a hint ≤ b := by
  have hround : ∀ n ≤ b, pageSize ∣ pageUp n ∧ pageUp n ≤ b := by
    intro n hle
    have hlt : n+4095 < 2^64 := (Nat.add_le_add_right hle _).trans_lt hb
    exact ⟨(page_up_spec n hlt).1,page_up_le hlt hd hle⟩
  unfold searchBase
  split
  · rename_i hh
    exact hround hint (hh.2.2.le.trans ht)
  · exact hround _ hn

def areasInUse : ℕ := (List.range vmaMax).countP fun i => (a.vmas i).inUse

/-- The search ends after at most one retry for each area in use. An address
it returns lies below the top with the whole range free, and on a page
boundary if the areas end on one. -/
theorem free_range_search (hint len : ℕ)
    (hv : ∀ i < vmaMax, (a.vmas i).inUse = true → (a.vmas i).stop ≤ mmapTop)
    (hn : a.mmapNext ≤ mmapTop) (hl : len ≤ mmapTop) :
    searchWithin a len (areasInUse a) (searchBase a hint) = some (vmaFindFreeRange a hint len) ∧
    (vmaFindFreeRange a hint len ≠ 0 →
      ((∀ i < vmaMax, (a.vmas i).inUse = true → pageSize ∣ (a.vmas i).stop) →
        pageSize ∣ vmaFindFreeRange a hint len) ∧
      vmaFindFreeRange a hint len+len ≤ mmapTop ∧
      ∀ i < vmaMax, (a.vmas i).inUse = true → vmaFindFreeRange a hint len+len ≤ (a.vmas i).start ∨
        (a.vmas i).stop ≤ vmaFindFreeRange a hint len) := by
  obtain ⟨hd,hb⟩ := search_base_spec a hint (by decide) (by decide) le_rfl hn
  have hw : ∀ b ≤ mmapTop, b+len < 2^64 := by
    intro b hle
    unfold mmapTop at hle hl
    omega
  constructor
  · have hahead : ahead a (searchBase a hint) ≤ areasInUse a :=
      List.countP_mono_left fun i _ hi => (Bool.and_eq_true_iff.mp hi).1
    exact search_within a len _ _ _ hahead (Nat.lt_succ_of_le (ahead_le a _))
  · intro hr
    obtain ⟨-,hfree,htop⟩ := search_found a (· ≤ mmapTop) len hw hv _ _ hb hr
    refine ⟨?_,htop,hfree⟩
    intro ha
    exact (search_found a (fun b => pageSize ∣ b ∧ b ≤ mmapTop) len (fun b h => hw b h.2)
      (fun i hi hu => ⟨ha i hi hu,hv i hi hu⟩) _ _ ⟨hd,hb⟩ hr).1.1

def twoAreas : Areas where
  vmas := fun i => if i = 0 then { inUse := true, start := mmapBase+0x2000, stop := mmapBase+0x4000 }
    else if i = 1 then { inUse := true, start := mmapBase, stop := mmapBase+0x1000 } else {}

theorem free_range_search_two :
    searchWithin twoAreas 0x2000 (areasInUse twoAreas) (searchBase twoAreas 0) = some 0x10004000 ∧
    0x10004000+0x2000 ≤ mmapTop := by
  have h := free_range_search twoAreas 0 0x2000 (by decide) (by decide) (by decide)
  have hr : vmaFindFreeRange twoAreas 0 0x2000 = 0x10004000 := by decide
  rw [hr] at h
  exact ⟨h.1,(h.2 (by decide)).2.1⟩

/-- A fixed request is for a range of the lower half that meets no area. A
searched request is short enough for the sums not to wrap. -/
def MmapMeets (args : MmapArgs) : Prop :=
  if args.flags &&& mapFixed ≠ 0 ∧ args.addr ≠ 0 then
    pageBase args.addr.toNat+args.len.toNat ≤ userTop ∧
      Free a (pageBase args.addr.toNat) (pageBase args.addr.toNat+pageUp args.len.toNat)
  else userTop+args.len.toNat+4095 < 2^64

/-- The loadable segments of the image occupy pages of the lower half, no
page in two of them. -/
structure ImageMeets (hs : List Phdr) : Prop where
  nonempty : ∀ h ∈ hs, h.type = ptLoad → segStart h < h.vaddr.toNat+h.memsz.toNat
  user : ∀ h ∈ hs, h.type = ptLoad → h.vaddr.toNat+h.memsz.toNat ≤ userTop
  apart : hs.Pairwise fun h k => h.type = ptLoad → k.type = ptLoad →
    Apart (segStart h) (segEnd h) (segStart k) (segEnd k)

def Meets : Event → Prop
  | .call p (.mmap _ _ args) => MmapMeets (s p) args
  | .call _ (.exec _ _ _ hs) => ImageMeets hs
  | .create _ _ _ _ hs => ImageMeets hs
  | _ => True

theorem page_len_fits (hm : MmapMeets a args) : args.len.toNat+4095 < 2^64 := by
  unfold MmapMeets at hm
  split_ifs at hm
  · have := hm.1
    unfold userTop at this
    omega
  · omega

theorem mmap_found (h : Good a) (hm : MmapMeets a args) (hf : mmapFails a args (pageUp args.len.toNat) = false) :
    pageSize ∣ mmapAddr a args (pageUp args.len.toNat) ∧
      mmapAddr a args (pageUp args.len.toNat)+pageUp args.len.toNat ≤ userTop ∧
      Free a (mmapAddr a args (pageUp args.len.toNat))
        (mmapAddr a args (pageUp args.len.toNat)+pageUp args.len.toNat) := by
  unfold MmapMeets at hm
  by_cases hfix : args.flags &&& mapFixed ≠ 0 ∧ args.addr ≠ 0
  · rw [if_pos hfix] at hm
    simp only [mmapAddr, if_pos hfix]
    obtain ⟨hu,hfree⟩ := hm
    have hal := (page_base_spec args.addr.toNat).1
    have hn : args.len.toNat+4095 < 2^64 := by unfold userTop at hu; omega
    have hup := page_up_le hn
      (Nat.dvd_sub user_top_dvd hal) (by omega)
    exact ⟨hal,by omega,hfree⟩
  · rw [if_neg hfix] at hm
    have hn : args.len.toNat+4095 < 2^64 := by omega
    have hup := (page_up_spec args.len.toNat hn).2.2
    have hne : vmaFindFreeRange a args.addr.toNat (pageUp args.len.toNat) ≠ 0 := by
      rw [mmapFails, mmapAddr, if_neg hfix, decide_eq_false hfix] at hf
      simpa using hf
    obtain ⟨hal,hle⟩ := search_base_spec a args.addr.toNat user_top_dvd (by decide) (by decide)
      h.nextUser
    have hshort : userTop+pageUp args.len.toNat < 2^64 := by unfold pageSize at hup; omega
    obtain ⟨hbase,hfree,htop⟩ := search_found a (fun b => pageSize ∣ b ∧ b ≤ userTop) _
      (fun b hb => (Nat.add_le_add_right hb.2 _).trans_lt hshort)
      (fun i hi hu => ⟨(h.wf.proper i hi hu).stopAligned,(h.wf.proper i hi hu).user⟩) _ _ ⟨hal,hle⟩ hne
    simp only [mmapAddr, if_neg hfix]
    exact ⟨hbase.1,htop.trans (by decide),hfree⟩

theorem backing_bounds {v w : Vma} (h : backing fds fb args v = some w) :
    w.start = v.start ∧ w.stop = v.stop ∧ w.inUse = v.inUse := by
  unfold backing at h
  split at h
  · cases h
    exact ⟨rfl,rfl,rfl⟩
  · split at h
    · cases h
    · split at h
      · cases h
        exact ⟨rfl,rfl,rfl⟩
      · split at h
        · cases h
        · obtain ⟨phys,-,rfl⟩ := Option.map_eq_some_iff.mp h
          exact ⟨rfl,rfl,rfl⟩
      · cases h

theorem mmap_cases (args : MmapArgs) :
    ((syscallMmap a fds fb args).2 = none ∧
      ((syscallMmap a fds fb args).1 = a ∨
        ∃ i w, w.inUse = false ∧ (syscallMmap a fds fb args).1 = setVma a i w)) ∨
    ∃ i v, i < vmaMax ∧ (a.vmas i).inUse = false ∧ args.len ≠ 0 ∧
      mmapFails a args (pageUp args.len.toNat) = false ∧
      v.start = mmapAddr a args (pageUp args.len.toNat) ∧
      v.stop = (mmapAddr a args (pageUp args.len.toNat)+pageUp args.len.toNat) % 2^64 ∧
      v.inUse = true ∧
      syscallMmap a fds fb args =
        ({ setVma a i v with mmapNext := max a.mmapNext v.stop },some v.start) := by
  unfold syscallMmap
  split_ifs with hl hf
  · exact .inl ⟨rfl,.inl rfl⟩
  · exact .inl ⟨rfl,.inl rfl⟩
  · cases ha : vmaAlloc a with
    | none => exact .inl ⟨rfl,.inl rfl⟩
    | some i =>
      obtain ⟨hi,hu⟩ := vma_alloc_some a i ha
      simp only [mmapInto]
      cases hb : backing fds fb args (mmapSlot (a.vmas i) args (mmapAddr a args (pageUp args.len.toNat))
          (pageUp args.len.toNat)) with
      | none => exact .inl ⟨rfl,.inr ⟨i,_,rfl,rfl⟩⟩
      | some v =>
        obtain ⟨hs,he,hv⟩ := backing_bounds _ _ hb
        refine .inr ⟨i,v,hi,hu,hl,by simpa using hf,hs,he,hv,?_⟩
        rw [hs, he]
        rfl

theorem mmap_good (h : Good a) (fds : ℕ → Fd) (fb : Option ℕ) {args : MmapArgs}
    (hm : MmapMeets a args) : Good (syscallMmap a fds fb args).1 := by
  rcases mmap_cases a fds fb args with ⟨-,hsame | ⟨i,w,hw,hset⟩⟩ | ⟨i,v,hi,-,hl,hf,hs,he,hv,hset⟩
  · rw [hsame]
    exact h
  · rw [hset]
    exact ⟨wf_set a i h.wf (by simp [hw]) (by simp [hw]),h.nextAligned,h.nextUser⟩
  · obtain ⟨hal,hu,hfree⟩ := mmap_found a h hm hf
    rw [← hs] at hal hu hfree
    rw [← hs] at he
    rw [Nat.mod_eq_of_lt (by unfold userTop at hu; omega)] at he
    have hn : 0 < args.len.toNat := Nat.pos_of_ne_zero fun h0 => hl (BitVec.eq_of_toNat_eq h0)
    obtain ⟨hla,hlen⟩ : pageSize ∣ pageUp args.len.toNat ∧ 0 < pageUp args.len.toNat := by
      have hn64 := page_len_fits a hm
      obtain ⟨hd,hle,-⟩ := page_up_spec args.len.toNat hn64
      exact ⟨hd,by omega⟩
    have hst : pageSize ∣ v.stop := he ▸ (Nat.dvd_add hal hla)
    have hpv : Proper v := ⟨by omega,hal,hst,by omega⟩
    rw [hset]
    have hwf := wf_set a i h.wf (fun _ => hpv) (fun _ => he ▸ hfree)
    refine ⟨⟨hwf.proper,hwf.apart⟩,?_,?_⟩
    · change pageSize ∣ max a.mmapNext v.stop
      rcases max_choice a.mmapNext v.stop with hx | hx <;> rw [hx]
      · exact h.nextAligned
      · exact hst
    · exact max_le h.nextUser hpv.user

theorem over_areas_good (h : Good a) (addr len : BitVec 64) (f : Vma → Vma)
    (hu : ∀ v, (f v).inUse = true → v.inUse = true) (hb : ∀ v, (f v).start = v.start ∧ (f v).stop = v.stop) :
    Good (overAreas a addr len f) := by
  refine ⟨wf_fewer h.wf ?_,h.nextAligned,h.nextUser⟩
  intro i _ hi
  simp only [overAreas] at hi ⊢
  split_ifs at hi ⊢
  · exact ⟨hu _ hi,hb _⟩
  · exact ⟨hi,rfl,rfl⟩

theorem munmap_good (h : Good a) (addr len : BitVec 64) : Good (munmap a addr len) :=
  over_areas_good a h addr len _ (fun _ hf => absurd hf Bool.false_ne_true) (fun _ => ⟨rfl,rfl⟩)

theorem mprotect_good (h : Good a) (addr len : BitVec 64) (prot : BitVec 32) :
    Good (mprotect a addr len prot) :=
  over_areas_good a h addr len _ (fun _ hv => hv) (fun _ => ⟨rfl,rfl⟩)

theorem segment_proper (h : Phdr) (hn : segStart h < h.vaddr.toNat+h.memsz.toNat)
    (hu : h.vaddr.toNat+h.memsz.toNat ≤ userTop) : Proper (segmentVma data h) := by
  have h64 : h.vaddr.toNat+h.memsz.toNat+4095 < 2^64 := by unfold userTop at hu; omega
  have hsd := (page_base_spec h.vaddr.toNat).1
  obtain ⟨hed,hel,-⟩ := page_up_spec (h.vaddr.toNat+h.memsz.toNat) h64
  refine ⟨?_,hsd,hed,page_up_le h64 user_top_dvd hu⟩
  exact hn.trans_le hel

/-- The segments still to come lie away from the areas already there. -/
def Clear (hs : List Phdr) : Prop :=
  ∀ h ∈ hs, h.type = ptLoad → Free a (segStart h) (segEnd h)

theorem clear_set (h : Phdr) (hs : List Phdr) (hc : Clear a hs)
    (hap : ∀ k ∈ hs, k.type = ptLoad → Apart (segStart h) (segEnd h) (segStart k) (segEnd k)) :
    Clear (setVma a i (segmentVma data h)) hs := by
  intro k hk ht j hj hu
  by_cases hji : j = i
  · subst hji
    simp only [setVma, update_self]
    exact apart_symm (hap k hk ht)
  · simp only [setVma, update_of_ne hji] at hu ⊢
    exact hc k hk ht j hj hu

theorem load_good (size : ℕ) (eager : ℕ → Bool) (a : Areas) (hs : List Phdr) (hg : Good a) (hi : ImageMeets hs)
    (hc : Clear a hs) : Good (elfLoadSegments data size eager a hs).1 := by
  induction hs generalizing a with
  | nil => exact hg
  | cons h hs ih =>
    obtain ⟨hap,hpw⟩ := List.pairwise_cons.mp hi.apart
    have hi' : ImageMeets hs :=
      ⟨fun k hk => hi.nonempty k (List.mem_cons_of_mem h hk),fun k hk => hi.user k (List.mem_cons_of_mem h hk),hpw⟩
    have hc' : Clear a hs := fun k hk => hc k (List.mem_cons_of_mem h hk)
    rw [elfLoadSegments]
    split
    · exact ih a hg hi' hc'
    · rename_i ht
      have ht : h.type = ptLoad := not_not.mp ht
      split
      · exact hg
      · split
        · rename_i i ha
          have hp := segment_proper data h (hi.nonempty h List.mem_cons_self ht) (hi.user h List.mem_cons_self ht)
          have hwf := wf_set a i hg.wf (fun _ => hp) (fun _ => hc h List.mem_cons_self ht)
          exact ih _ ⟨hwf,hg.nextAligned,hg.nextUser⟩ hi'
            (clear_set a data i h hs hc' fun k hk => hap k hk ht)
        · split
          · exact ih a hg hi' hc'
          · exact hg

theorem empty_good (hu : ∀ i, (a.vmas i).inUse = false) (hn : a.mmapNext = mmapBase) : Good a := by
  refine ⟨⟨?_,?_⟩,?_,?_⟩
  · intro i _ h
    exact absurd h (by simp [hu i])
  · intro i _ j _ _ h
    exact absurd h (by simp [hu i])
  · rw [hn]
    decide
  · rw [hn]
    decide

theorem exec_good (size : ℕ) (eager : ℕ → Bool) (a : Areas) {hs : List Phdr} (hi : ImageMeets hs) :
    Good (execAreas data size eager a hs) := by
  have hempty : ∀ i, ((vmaDestroyAll a).vmas i).inUse = false := fun _ => rfl
  refine load_good data size eager _ hs (empty_good _ hempty rfl) hi ?_
  intro h _ _ i _ hu
  exact absurd hu (by simp [hempty i])

theorem step_good (h : Good a) {c : Call} (s : ℕ → Areas) {p : ℕ} (hs : s p = a)
    (hm : Meets s (.call p c)) : Good (step a c) := by
  subst hs
  cases c with
  | mmap fds fb args => exact mmap_good (s p) h fds fb hm
  | munmap addr len => exact munmap_good (s p) h addr len
  | mprotect addr len prot => exact mprotect_good (s p) h addr len prot
  | exec data size eager hs => exact exec_good data size eager (s p) hm

theorem next_good (h : ∀ p, Good (s p)) {e : Event} (hm : Meets s e) (q : ℕ) :
    Good (next s e q) := by
  cases e with
  | call p c =>
    rw [next]
    by_cases hq : q = p
    · subst hq
      rw [update_self]
      exact step_good (s q) (h q) s rfl hm
    · rw [update_of_ne hq]
      exact h q
  | fork parent child =>
    rw [next]
    by_cases hq : q = child
    · subst hq
      rw [update_self]
      exact h parent
    · rw [update_of_ne hq]
      exact h q
  | create p data size eager hs =>
    rw [next]
    by_cases hq : q = p
    · subst hq
      rw [update_self]
      exact exec_good data size eager {} hm
    · rw [update_of_ne hq]
      exact h q

inductive Reach : (ℕ → Areas) → Prop
  | boot : Reach fun _ => {}
  | next (s : ℕ → Areas) (e : Event) (h : Reach s) (hm : Meets s e) : Reach (next s e)

theorem reach_good (h : Reach s) (p : ℕ) : Good (s p) := by
  induction h generalizing p with
  | boot => exact empty_good {} (fun _ => rfl) rfl
  | next s e _ hm ih => exact next_good s ih hm p

/-- The bytes from `addr` on are in one area of the table and in no other. -/
def Owned (addr len : ℕ) : Prop :=
  ∃ i < vmaMax, (a.vmas i).inUse = true ∧ (a.vmas i).start = addr ∧ addr+len ≤ (a.vmas i).stop ∧
    ∀ j < vmaMax, j ≠ i → (a.vmas j).inUse = true →
      Apart addr (addr+len) (a.vmas j).start (a.vmas j).stop

theorem mmap_owned (h : Good a) (fds : ℕ → Fd) {fb : Option ℕ} (hm : MmapMeets a args) {addr : ℕ}
    (hr : (syscallMmap a fds fb args).2 = some addr) : Owned (syscallMmap a fds fb args).1 addr args.len.toNat := by
  rcases mmap_cases a fds fb args with ⟨hnone,-⟩ | ⟨i,v,hi,-,-,hf,hs,he,hv,hset⟩
  · rw [hnone] at hr
    cases hr
  · obtain ⟨-,hu,hfree⟩ := mmap_found a h hm hf
    have hlen := (page_up_spec args.len.toNat (page_len_fits a hm)).2.1
    rw [hset] at hr ⊢
    obtain rfl : v.start = addr := Option.some.inj hr
    rw [← hs] at hu hfree he
    rw [Nat.mod_eq_of_lt (by unfold userTop at hu; omega)] at he
    refine ⟨i,hi,?_⟩
    simp only [setVma, update_self]
    refine ⟨hv,trivial,by omega,?_⟩
    intro j hj hji huj
    simp only [update_of_ne hji] at huj ⊢
    have := hfree j hj huj
    unfold Apart at this ⊢
    omega

/-- In a run whose events meet their conditions every table stays well
formed, and every such request that succeeds gets bytes of its own. -/
theorem tables_well_formed (h : Reach s) (p : ℕ) :
    WellFormed (s p) ∧
      ∀ fds fb args addr, MmapMeets (s p) args → (syscallMmap (s p) fds fb args).2 = some addr →
        Owned (syscallMmap (s p) fds fb args).1 addr args.len.toNat :=
  ⟨(reach_good s h p).wf,fun fds _ _ _ hm hr => mmap_owned (s p) (reach_good s h p) fds hm hr⟩

def onePage : MmapArgs where
  addr := 0
  len := 1
  prot := 3
  flags := 0x22
  fd := -1
  offset := 0

theorem one_page_meets : MmapMeets a onePage := by
  unfold MmapMeets
  rw [if_neg (by decide)]
  decide

theorem tables_well_formed_one_page :
    WellFormed (next (fun _ => {}) (.call 0 (.mmap (fun _ => {}) none onePage)) 0) ∧
      Owned (syscallMmap {} (fun _ => {}) none onePage).1 mmapBase 1 :=
  ⟨(tables_well_formed _ (.next _ (.call 0 (.mmap (fun _ => {}) none onePage)) .boot (one_page_meets {})) 0).1,
    (tables_well_formed (fun _ => {}) .boot 0).2 (fun _ => {}) none onePage mmapBase (one_page_meets {}) (by decide)⟩

def fixedPage : MmapArgs where
  addr := 0x1000
  len := 0x1000
  prot := 3
  flags := 0x32
  fd := -1
  offset := 0

theorem fixed_overlap :
    ¬WellFormed (step (step {} (.mmap (fun _ => {}) none fixedPage)) (.mmap (fun _ => {}) none fixedPage)) := by
  intro h
  have hap := h.apart 0 (by decide) 1 (by decide) (by decide) (by decide) (by decide)
  exact absurd hap (by unfold Apart; decide)

end HobbyOS.VmaTable

import HobbyOS.Ext2
import HobbyOS.KHeap
import HobbyOS.VmaTable

/-!
# elf_loader.c

The loader over everything it changes: the table of areas of the process, the
pages of the new address space and the kernel heap. `VmaTable` describes what
it does to the table alone; `load_areas` is the agreement of the two.
-/

namespace HobbyOS.Elf
open BoundedLoop ByteStore PageEntry PhysMem UserVm Process Function
open KHeap VmaTable Ext2

def ldsoBase : ℕ := 0x7FC0000000
def ptInterp : ℕ := 3
def pteNx : Pte := 1#64 <<< 63

/-- A file in kernel memory: its address, its bytes and its size. -/
structure Image where
  data : ℕ
  bytes : Store
  size : ℕ

section header
variable (img : Image)

def eEntry : ℕ := load img.bytes 8 24
def ePhoff : ℕ := load img.bytes 8 32
def ePhentsize : ℕ := load img.bytes 2 54
def ePhnum : ℕ := load img.bytes 2 56

def identOk : Bool := (List.range 7).map img.bytes == [0x7F,0x45,0x4C,0x46,2,1,1]

def elfValidate : Bool :=
  decide (64 ≤ img.size) && identOk img &&
    (load img.bytes 2 16 == 2 || load img.bytes 2 16 == 3) && load img.bytes 2 18 == 62 &&
    ePhnum img != 0 && decide ((ePhoff img+ePhnum img*ePhentsize img) % 2^64 ≤ img.size)

def phdr (i : ℕ) : Phdr :=
  let a := (ePhoff img+i*ePhentsize img) % 2^64
  { type := load img.bytes 4 a
    flags := BitVec.ofNat 32 (load img.bytes 4 (a+4))
    offset := BitVec.ofNat 64 (load img.bytes 8 (a+8))
    vaddr := BitVec.ofNat 64 (load img.bytes 8 (a+16))
    filesz := BitVec.ofNat 64 (load img.bytes 8 (a+32))
    memsz := BitVec.ofNat 64 (load img.bytes 8 (a+40)) }

def phdrs : List Phdr := (List.range (ePhnum img)).map (phdr img)

def atPhdr (base : ℕ) : ℕ := (ePhoff img+base) % 2^64

end header

def segmentFlags (h : Phdr) : Pte :=
  ptePresent ||| pteUser ||| (if h.flags &&& 2 ≠ 0 then pteWritable else 0) |||
    (if h.flags &&& 1 = 0 then pteNx else 0)

variable (c : Ctx) (root : ℕ) (img : Image) (v : Volume)

/-- The page at `addr` of a segment loaded at once: zero but for the bytes of
the file. -/
def segmentPage (h : Phdr) (addr : ℕ) : Store := fun o =>
  if h.vaddr.toNat ≤ addr+o ∧ addr+o < (h.vaddr.toNat+h.filesz.toNat) % 2^64 then
    img.bytes (h.offset.toNat+(addr+o-h.vaddr.toNat))
  else 0

/-- A page that was taken is not given back if it cannot be mapped. -/
def eagerPage (h : Phdr) (i : ℕ) (s : Mem) : Flow Mem Unit :=
  let addr := segStart h+i*pageSize
  match pmmAllocPage c s with
  | (s,0) => .ret s ()
  | (s,f) =>
    match userVmMapPage c { s with ram := update s.ram f (segmentPage img h addr) } root addr f
        (segmentFlags h) with
    | (s,true) => .next s
    | (s,false) => .ret s ()

def eagerSegment (h : Phdr) (s : Mem) : Mem × Bool :=
  match forUp (eagerPage c root img h) 0 ((segEnd h-segStart h)/pageSize) s with
  | .next s => (s,true)
  | .ret s _ => (s,false)

structure Loading where
  mem : Mem
  areas : Areas
  loadEnd : ℕ

/-- `elf_load_segments`; the headers have `base_addr` added already. -/
def loadSegments (c : Ctx) (root : ℕ) (img : Image) (demandPaging : Bool) : List Phdr → Loading → Loading × Bool
  | [], l => (l,true)
  | h::hs, l =>
    if h.type ≠ ptLoad then loadSegments c root img demandPaging hs l
    else if img.size < (h.offset.toNat+h.filesz.toNat) % 2^64 then (l,false)
    else
      let l := { l with loadEnd := max l.loadEnd (segEnd h) }
      match (if demandPaging then vmaAlloc l.areas else none) with
      | some i =>
        loadSegments c root img demandPaging hs { l with areas := setVma l.areas i (segmentVma img.data h) }
      | none =>
        match eagerSegment c root img h l.mem with
        | (s,false) => ({ l with mem := s },false)
        | (s,true) => loadSegments c root img demandPaging hs { l with mem := s }

def relocate (base : ℕ) (h : Phdr) : Phdr := { h with vaddr := h.vaddr+BitVec.ofNat 64 base }

structure ElfLoadResult where
  entryPoint : ℕ
  loadEnd : ℕ
  atPhdr : ℕ
  atPhent : ℕ
  atPhnum : ℕ
  atBase : ℕ
  atEntry : ℕ

/-- The string at `a`; more than 256 bytes of a path are never looked at. -/
def cString (m : Store) (a : ℕ) : Name := ((List.range 256).map fun k => m (a+k)).takeWhile (· ≠ 0)

/-- The file `ino` read into a buffer of the kernel heap: the heap, the
address of the buffer, and the image if any byte was read. -/
def readProgram (h : Heap) (n : Inode) : Heap × ℕ × Option Image :=
  match kmalloc h (iSize n) with
  | (h,0) => (h,0,none)
  | (h,ptr) =>
    let r := ext2ReadFile v n 0 (iSize n) zeros
    (h,ptr,if 0 < r.2 then some ⟨ptr,r.1,r.2.toNat⟩ else none)

def interpreter (path : Name) : Option (Option Inode) :=
  if v.mounted = false then some none
  else (ext2PathLookup v path).map fun ino =>
    (if ino = 0 then none else ext2ReadInode v ino).filter fun n => iSize n != 0

/-- `ld.so` is loaded page by page and its buffer freed; a file of which no
byte could be read keeps its buffer. -/
def loadInterpreter (n : Inode) (l : Loading) (h : Heap)
    (r : ElfLoadResult) : Loading × Heap × ElfLoadResult :=
  match readProgram v h n with
  | (h,_,none) => (l,h,r)
  | (h,ptr,some img) =>
    if elfValidate img = false then (l,kfree h ptr,r)
    else
      match loadSegments c root img false ((phdrs img).map (relocate ldsoBase)) { l with loadEnd := 0 } with
      | (l',false) => ({ l' with loadEnd := l.loadEnd },kfree h ptr,r)
      | (l',true) => ({ l' with loadEnd := l.loadEnd },kfree h ptr,
          { r with atBase := ldsoBase, entryPoint := (eEntry img+ldsoBase) % 2^64 })

/-- The answer of `elf_load`: what it has changed, and its result if it
succeeds. It does not return if the path of the interpreter does not resolve. -/
def elfLoad (base : ℕ) (img : Image) (s : Mem) (a : Areas) (h : Heap) :
    Option (Loading × Heap × Option ElfLoadResult) :=
  if elfValidate img = false then some (⟨s,a,0⟩,h,none)
  else
    match loadSegments c root img true ((phdrs img).map (relocate base)) ⟨s,a,0⟩ with
    | (l,false) => some (l,h,none)
    | (l,true) =>
      let entry := (eEntry img+base) % 2^64
      let r : ElfLoadResult := ⟨entry,l.loadEnd,atPhdr img base,ePhentsize img,ePhnum img,0,entry⟩
      match (phdrs img).find? fun p => p.type == ptInterp with
      | none => some (l,h,some r)
      | some p =>
        if img.size < (p.offset.toNat+p.filesz.toNat) % 2^64 then some (l,h,some r)
        else (interpreter v (cString img.bytes p.offset.toNat)).map fun file =>
          match file with
          | none => (l,h,some r)
          | some n => ((loadInterpreter c root v n l h r).1,(loadInterpreter c root v n l h r).2.1,
              some (loadInterpreter c root v n l h r).2.2)

/-- The strings are written downward from the top of the page, the last one
first: page, position and addresses. -/
def pushStrings (base : ℕ) : List Name → Option (Store × ℕ × List ℕ)
  | [] => some (zeros,pageSize,[])
  | s::ss =>
    match pushStrings base ss with
    | none => none
    | some (m,pos,ptrs) =>
      let s := s.take 255
      if pos < s.length+1 then none
      else
        let pos := pos-(s.length+1)
        some (copy m (s.length+1) pos (fun k => s.getD k 0) 0,pos,(base+pos)::ptrs)

def storeWords (m : Store) : ℕ → List ℕ → Store
  | _, [] => m
  | a, w::ws => storeWords (store m 8 a w) (a+8) ws

def auxv (r : ElfLoadResult) : List ℕ :=
  [3,r.atPhdr,4,r.atPhent,5,r.atPhnum,6,pageSize,7,r.atBase,8,0,9,r.atEntry,0,0]

/-- The stack page, the stack pointer and the address of the argument vector. -/
def elfSetupStack (base : ℕ) (argv : List Name) (r : ElfLoadResult) : Option (Store × ℕ × ℕ) :=
  let argv := argv.take 32
  match pushStrings base argv with
  | none => none
  | some (m,pos,ptrs) =>
    let words := argv.length::(ptrs++[0,0]++auxv r)
    if pos < words.length*8 then none
    else
      let start := (pos-words.length*8)/16*16
      some (storeWords m start words,base+start,base+start+8)

end HobbyOS.Elf

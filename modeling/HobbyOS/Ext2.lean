import HobbyOS.ByteStore

/-!
# ext2.c

The mounted volume and every function that reads or changes it. The disk is a
map from block numbers to blocks; records on it and the copies of superblock
and group descriptors in memory are bytes, read at the offsets of the packed
structures. Sector transfers succeed. A walk over a directory that meets a
record of length zero does not return: such a call has the value `none`.
-/

namespace HobbyOS.Ext2
open ByteStore Function

def ext2RootInode : ℕ := 2
def ext2SIfreg : ℕ := 0x8000
def ext2SIfdir : ℕ := 0x4000
def ext2FtRegFile : ℕ := 1
def ext2FtDir : ℕ := 2

structure Volume where
  mounted : Bool
  disk : ℕ → Store
  sb : Store
  bgdt : Store
  blockSize : ℕ
  numBlockGroups : ℕ
  inodeSize : ℕ

/-- A C string: its bytes up to the terminating zero. -/
abbrev Name := List UInt8

def slash : UInt8 := 47
def dot : UInt8 := 46

def zeros : Store := fun _ => 0

variable (v : Volume)

/-- Of the product of block number and sectors per block the drive gets the
lower 28 bits. -/
def diskBlock (b : ℕ) : ℕ := b % (2^28/(v.blockSize/512))

def ext2ReadBlock (b : ℕ) : Store :=
  fun i => if i < v.blockSize then v.disk (diskBlock v b) i else 0

def ext2WriteBlock (b : ℕ) (buf : Store) : Volume :=
  { v with disk := update v.disk (diskBlock v b) buf }

def sFirstDataBlock : ℕ := load v.sb 4 20
def sBlocksPerGroup : ℕ := load v.sb 4 32
def sInodesPerGroup : ℕ := load v.sb 4 40
def bgInodeTable (g : ℕ) : ℕ := load v.bgdt 4 (32*g+8)

def bgdtBlock : ℕ := if v.blockSize = 1024 then 2 else 1

def writeSuperblock : Volume :=
  let area := copy zeros 204 0 v.sb 0
  let b := 1024/v.blockSize
  { v with disk := update v.disk b (copy (v.disk b) 1024 (1024 % v.blockSize) area 0) }

def ext2FlushMetadata : Volume :=
  let v := writeSuperblock v
  let size := min (v.numBlockGroups*32) v.blockSize
  ext2WriteBlock v (bgdtBlock v) (copy (ext2ReadBlock v (bgdtBlock v)) size 0 v.bgdt 0)

/-- `struct ext2_inode`: 128 bytes. -/
abbrev Inode := Store

variable (n : Inode) (m : Store) (ino : ℕ)

def iMode : ℕ := load n 2 0
def iUid : ℕ := load n 2 2
def iSize : ℕ := load n 4 4
def iGid : ℕ := load n 2 24
def iLinksCount : ℕ := load n 2 26
def iBlocks : ℕ := load n 4 28
def iBlock (k : ℕ) : ℕ := load n 4 (40+4*k)

def setMode (x : ℕ) : Inode := store n 2 0 x
def setSize (x : ℕ) : Inode := store n 4 4 x
def setLinksCount (x : ℕ) : Inode := store n 2 26 x
def setBlocks (x : ℕ) : Inode := store n 4 28 x
def setBlock (k x : ℕ) : Inode := store n 4 (40+4*k) x

def isDir : Bool := iMode n &&& ext2SIfdir != 0

def inodeGroup : ℕ := (ino-1)/sInodesPerGroup v
def offsetInTable : ℕ := (ino-1) % sInodesPerGroup v*v.inodeSize % 2^32

def blockContaining : ℕ :=
  (bgInodeTable v (inodeGroup v ino)+offsetInTable v ino/v.blockSize) % 2^32

def offsetInBlock : ℕ := offsetInTable v ino % v.blockSize

def ext2ReadInode : Option Inode :=
  if v.mounted = false ∨ ino = 0 then none
  else some (copy zeros 128 0 (ext2ReadBlock v (blockContaining v ino)) (offsetInBlock v ino))

def ext2WriteInode (n : Inode) : Volume :=
  if v.mounted = false ∨ ino = 0 then v
  else ext2WriteBlock v (blockContaining v ino)
    (copy (ext2ReadBlock v (blockContaining v ino)) 128 (offsetInBlock v ino) n 0)

/-- Blocks and inodes are handed out in the same way; the fields are the
offsets of the bitmap and the counter in a group descriptor, and of the total
and the number per group in the superblock. -/
structure Pool where
  bitmap : ℕ
  count : ℕ
  total : ℕ
  perGroup : ℕ

def blockPool : Pool := ⟨0,12,12,32⟩
def inodePool : Pool := ⟨4,14,16,40⟩

def perGroup (p : Pool) : ℕ := load v.sb 4 p.perGroup
def bitmapBlock (p : Pool) (g : ℕ) : ℕ := load v.bgdt 4 (32*g+p.bitmap)
def freeCount (p : Pool) (g : ℕ) : ℕ := load v.bgdt 2 (32*g+p.count)
def freeTotal (p : Pool) : ℕ := load v.sb 4 p.total

def setCounts (p : Pool) (g count total : ℕ) : Volume :=
  { v with bgdt := store v.bgdt 2 (32*g+p.count) count, sb := store v.sb 4 p.total total }

def firstClear (n : ℕ) : Option ℕ := (List.range n).find? fun i => !bitAt m i

/-- The first group with a free object and its first clear bit. -/
def findClear (p : Pool) : Option (ℕ × ℕ) :=
  (List.range v.numBlockGroups).findSome? fun g =>
    if freeCount v p g = 0 then none
    else (firstClear (ext2ReadBlock v (bitmapBlock v p g)) (perGroup v p)).map fun i => (g,i)

def takeBit (p : Pool) (g i : ℕ) : Volume :=
  let v := ext2WriteBlock v (bitmapBlock v p g) (setBit (ext2ReadBlock v (bitmapBlock v p g)) i)
  setCounts v p g (freeCount v p g-1) (freeTotal v p+(2^32-1))

def releaseBit (p : Pool) (g i : ℕ) : Volume :=
  if v.numBlockGroups ≤ g then v
  else
    let v := ext2WriteBlock v (bitmapBlock v p g) (clearBit (ext2ReadBlock v (bitmapBlock v p g)) i)
    setCounts v p g (freeCount v p g+1) (freeTotal v p+1)

def blockNo (g i : ℕ) : ℕ := (g*sBlocksPerGroup v+i+sFirstDataBlock v) % 2^32

def inodeNo (g i : ℕ) : ℕ := (g*sInodesPerGroup v+i+1) % 2^32

def ext2AllocBlock : Volume × ℕ :=
  match findClear v blockPool with
  | none => (v,0)
  | some (g,i) => (takeBit v blockPool g i,blockNo v g i)

def ext2AllocInode : Volume × ℕ :=
  match findClear v inodePool with
  | none => (v,0)
  | some (g,i) => (takeBit v inodePool g i,inodeNo v g i)

def adjusted (b : ℕ) : ℕ := (b+(2^32-sFirstDataBlock v)) % 2^32

def ext2FreeBlock (b : ℕ) : Volume :=
  if b = 0 then v
  else releaseBit v blockPool (adjusted v b/sBlocksPerGroup v) (adjusted v b % sBlocksPerGroup v)

def ext2FreeInode : Volume :=
  if ino = 0 then v
  else releaseBit v inodePool ((ino-1)/sInodesPerGroup v) ((ino-1) % sInodesPerGroup v)

def ptrsPerBlock : ℕ := v.blockSize/4

def pointer (b i : ℕ) : ℕ := if b = 0 then 0 else load (ext2ReadBlock v b) 4 (4*i)

def ext2GetBlock (idx : ℕ) : ℕ :=
  let ptrs := ptrsPerBlock v
  if idx < 12 then iBlock n idx
  else if idx-12 < ptrs then pointer v (iBlock n 12) (idx-12)
  else if idx-12-ptrs < ptrs*ptrs then
    pointer v (pointer v (iBlock n 13) ((idx-12-ptrs)/ptrs)) ((idx-12-ptrs) % ptrs)
  else 0

def indirectBlock : Option (Volume × Inode) :=
  if iBlock n 12 ≠ 0 then some (v,n)
  else
    match ext2AllocBlock v with
    | (_,0) => none
    | (v,ind) => some (ext2WriteBlock v ind zeros,setBlock n 12 ind)

/-- The last component says whether the block could be entered. -/
def ext2SetBlock (idx b : ℕ) : Volume × Inode × Bool :=
  if idx < 12 then (v,setBlock n idx b,true)
  else if idx-12 < ptrsPerBlock v then
    match indirectBlock v n with
    | none => (v,n,false)
    | some (v,n) =>
      (ext2WriteBlock v (iBlock n 12) (store (ext2ReadBlock v (iBlock n 12)) 4 (4*(idx-12)) b),n,true)
  else (v,n,false)

def toInt (n : ℕ) : ℤ := if n % 2^32 < 2^31 then (n % 2^32 : ℕ) else ((n % 2^32 : ℕ) : ℤ)-2^32

def readFileFrom (v : Volume) (n : Inode) (offset size : ℕ) : ℕ → ℕ → Store → Store
  | 0, _, buf => buf
  | fuel+1, bytesRead, buf =>
    if size ≤ bytesRead then buf
    else
      let o := (offset+bytesRead) % v.blockSize
      let toRead := min (v.blockSize-o) (size-bytesRead)
      let b := ext2GetBlock v n ((offset+bytesRead)/v.blockSize % 2^32)
      readFileFrom v n offset size fuel (bytesRead+toRead)
        (if b = 0 then fill buf toRead bytesRead 0 else copy buf toRead bytesRead (ext2ReadBlock v b) o)

def ext2ReadFile (offset size : ℕ) (buf : Store) : Store × ℤ :=
  if iSize n ≤ offset then (buf,0)
  else
    let size := min size (iSize n-offset)
    (readFileFrom v n offset size size 0 buf,toInt size)

/-- The disk block for a write, allocated and cleared if the file has none. -/
def blockForWrite (idx : ℕ) : Option (Volume × Inode × ℕ) :=
  if ext2GetBlock v n idx ≠ 0 then some (v,n,ext2GetBlock v n idx)
  else
    match ext2AllocBlock v with
    | (_,0) => none
    | (v,b) =>
      -- the result of ext2_set_block is not looked at
      let r := ext2SetBlock v n idx b
      some (ext2WriteBlock r.1 b zeros,setBlocks r.2.1 (iBlocks r.2.1+v.blockSize/512),b)

structure Written where
  volume : Volume
  inode : Inode
  bytesWritten : ℕ
  complete : Bool

def writeFileFrom (offset size : ℕ) (buf : Store) : ℕ → Written → Written
  | 0, w => w
  | fuel+1, w =>
    if size ≤ w.bytesWritten then w
    else
      let v := w.volume
      let o := (offset+w.bytesWritten) % 2^64 % v.blockSize
      let toWrite := min (v.blockSize-o) (size-w.bytesWritten)
      match blockForWrite v w.inode ((offset+w.bytesWritten) % 2^64/v.blockSize % 2^32) with
      | none => { w with complete := false }
      | some (v,n,b) =>
        writeFileFrom offset size buf fuel
          ⟨ext2WriteBlock v b (copy (ext2ReadBlock v b) toWrite o buf w.bytesWritten),n,
            w.bytesWritten+toWrite,true⟩

/-- The in-memory inode is left as it is on an early return; only the volume
and the value returned are kept here. -/
def ext2WriteFile (n : Inode) (offset size : ℕ) (buf : Store) : Volume × ℤ :=
  if v.mounted = false then (v,-1)
  else
    let w := writeFileFrom offset size buf size ⟨v,n,0,true⟩
    if w.complete = false then (w.volume,if 0 < w.bytesWritten then toInt w.bytesWritten else -1)
    else
      let newEnd := (offset+w.bytesWritten) % 2^64
      let n := if iSize w.inode < newEnd then setSize w.inode newEnd else w.inode
      (ext2FlushMetadata (ext2WriteInode w.volume ino n),toInt w.bytesWritten)

def deInode (o : ℕ) : ℕ := load m 4 o
def deRecLen (o : ℕ) : ℕ := load m 2 (o+4)
def deNameLen (o : ℕ) : ℕ := load m 1 (o+6)
def deName (o len : ℕ) : Name := (List.range len).map fun k => m (o+8+k)

def isEntry (o : ℕ) (name : Name) : Bool :=
  deInode m o != 0 && deNameLen m o == name.length && deName m o name.length == name

def dirBlock (dir : Inode) (offset : ℕ) : Store :=
  ext2ReadBlock v (ext2GetBlock v dir (offset/v.blockSize))

/-- The two loops of the source read the block of the current offset once and
go on in it; the walk below looks the block up at every record. -/
def lookupFrom (v : Volume) (dir : Inode) (name : Name) : ℕ → ℕ → Option ℕ
  | 0, _ => none
  | fuel+1, offset =>
    let m := dirBlock v dir offset
    let o := offset % v.blockSize
    if iSize dir ≤ offset then some 0
    else if ext2GetBlock v dir (offset/v.blockSize) = 0 then some 0
    else if deRecLen m o = 0 then none
    else if isEntry m o name then some (deInode m o)
    else lookupFrom v dir name fuel ((offset+deRecLen m o) % 2^32)

def ext2Lookup (parent : ℕ) (name : Name) : Option ℕ :=
  match ext2ReadInode v parent with
  | none => some 0
  | some dir => if isDir dir = false then some 0 else lookupFrom v dir name (iSize dir+1) 0

def lookupComponents (v : Volume) : ℕ → List Name → Option ℕ
  | cur, [] => some cur
  | cur, c::cs =>
    -- the walk ends at an empty component
    if c = [] then some cur
    else
      match ext2Lookup v cur c with
      | none => none
      | some ino => if ino = 0 then some 0 else lookupComponents v ino cs

def skipSlash (path : Name) : Name := if path.head? = some slash then path.tail else path

def ext2PathLookup (path : Name) : Option ℕ :=
  if v.mounted = false then some 0
  else lookupComponents v ext2RootInode (((skipSlash path).take 255).splitOn slash)

def actualSize (len : ℕ) : ℕ := (8+len+3)/4*4

def freeSpace (o : ℕ) : ℕ :=
  (deRecLen m o+(2^32-actualSize (deNameLen m o))) % 2^32

/-- The offset of the first record with room for `needed` bytes after it. -/
def roomFrom (v : Volume) (dir : Inode) (needed : ℕ) : ℕ → ℕ → Option (Option ℕ)
  | 0, _ => none
  | fuel+1, offset =>
    let m := dirBlock v dir offset
    let o := offset % v.blockSize
    if iSize dir ≤ offset then some none
    else if ext2GetBlock v dir (offset/v.blockSize) = 0 then some none
    else if deRecLen m o = 0 then none
    else if needed ≤ freeSpace m o then some (some offset)
    else roomFrom v dir needed fuel ((offset+deRecLen m o) % 2^32)

def putEntry (o ino recLen : ℕ) (name : Name) (fileType : ℕ) : Store :=
  let m := store (store (store (store m 4 o ino) 2 (o+4) recLen) 1 (o+6) name.length) 1 (o+7) fileType
  copy m name.length (o+8) (fun k => name.getD k 0) 0

def splitEntry (o ino : ℕ) (name : Name) (fileType : ℕ) : Store :=
  let actual := actualSize (deNameLen m o)
  putEntry (store m 2 (o+4) actual) (o+actual) ino (deRecLen m o+(2^32-actual)) name fileType

/-- No record has room: the directory gets a new block with the one entry. -/
def appendEntry (dirIno : ℕ) (dir : Inode) (ino : ℕ) (name : Name) (fileType : ℕ) :
    Volume × Bool :=
  match ext2AllocBlock v with
  | (v,0) => (v,false)
  | (v,b) =>
    let r := ext2SetBlock v dir (iSize dir/v.blockSize) b
    let dir := setBlocks r.2.1 (iBlocks r.2.1+v.blockSize/512)
    let dir := setSize dir (iSize dir+v.blockSize)
    let v := ext2WriteBlock r.1 b (putEntry zeros 0 ino v.blockSize name fileType)
    (ext2FlushMetadata (ext2WriteInode v dirIno dir),true)

def ext2AddDirEntry (dirIno ino : ℕ) (name : Name) (fileType : ℕ) : Option (Volume × Bool) :=
  match ext2ReadInode v dirIno with
  | none => some (v,false)
  | some dir =>
    match roomFrom v dir (actualSize name.length) (iSize dir+1) 0 with
    | none => none
    | some none => some (appendEntry v dirIno dir ino name fileType)
    | some (some offset) =>
      some (ext2WriteBlock v (ext2GetBlock v dir (offset/v.blockSize))
        (splitEntry (dirBlock v dir offset) (offset % v.blockSize) ino name fileType),true)

/-- The block without its entry `name`: the record before it takes its place,
or the first record loses its inode number. -/
def removeFrom (size : ℕ) (m : Store) (name : Name) : ℕ → ℕ → Option ℕ → Option Store
  | 0, _, _ => none
  | fuel+1, o, prev =>
    if size ≤ o then none
    else if deRecLen m o = 0 then none
    else if isEntry m o name then
      some (match prev with
        | some p => store m 2 (p+4) (deRecLen m p+deRecLen m o)
        | none => store m 4 o 0)
    else removeFrom size m name fuel (o+deRecLen m o) (some o)

def removeBlocks (v : Volume) (dir : Inode) (name : Name) : ℕ → ℕ → Volume × Bool
  | 0, _ => (v,false)
  | fuel+1, idx =>
    let b := ext2GetBlock v dir idx
    if iSize dir ≤ idx*v.blockSize then (v,false)
    else if b = 0 then (v,false)
    else
      match removeFrom v.blockSize (ext2ReadBlock v b) name v.blockSize 0 none with
      | some m => (ext2WriteBlock v b m,true)
      | none => removeBlocks v dir name fuel (idx+1)

def ext2RemoveDirEntry (dirIno : ℕ) (name : Name) : Volume × Bool :=
  match ext2ReadInode v dirIno with
  | none => (v,false)
  | some dir => removeBlocks v dir name (iSize dir/v.blockSize+1) 0

def fileTypeOf (mode : ℕ) : ℕ := if mode &&& ext2SIfdir ≠ 0 then ext2FtDir else ext2FtRegFile

def ext2Create (parent : ℕ) (name : Name) (mode : ℕ) : Option (Volume × ℕ) :=
  if v.mounted = false then some (v,0)
  else
    match ext2Lookup v parent name with
    | none => none
    | some (_+1) => some (v,0)
    | some 0 =>
      match ext2AllocInode v with
      | (v,0) => some (v,0)
      | (v,ino) =>
        let v := ext2WriteInode v ino (setLinksCount (setMode zeros mode) 1)
        match ext2AddDirEntry v parent ino name (fileTypeOf mode) with
        | none => none
        | some (v,false) => some (ext2FreeInode v ino,0)
        | some (v,true) => some (ext2FlushMetadata v,ino)

def dotBlock (ino parent : ℕ) : Store :=
  putEntry (putEntry zeros 0 ino 12 [dot] ext2FtDir) 12 parent (v.blockSize-12) [dot,dot] ext2FtDir

def newDir (b : ℕ) : Inode :=
  setBlock (setBlocks (setSize (setLinksCount (setMode zeros (ext2SIfdir ||| 0o755)) 2) v.blockSize)
    (v.blockSize/512)) 0 b

def addLink (parent : ℕ) : Volume :=
  match ext2ReadInode v parent with
  | none => v
  | some n => ext2WriteInode v parent (setLinksCount n (iLinksCount n+1))

def addUsedDir (g : ℕ) : Volume :=
  { v with bgdt := store v.bgdt 2 (32*g+16) (load v.bgdt 2 (32*g+16)+1) }

def ext2Mkdir (parent : ℕ) (name : Name) : Option (Volume × ℕ) :=
  if v.mounted = false then some (v,0)
  else
    match ext2Lookup v parent name with
    | none => none
    | some (_+1) => some (v,0)
    | some 0 =>
      match ext2AllocInode v with
      | (v,0) => some (v,0)
      | (v,ino) =>
        match ext2AllocBlock v with
        | (v,0) => some (ext2FreeInode v ino,0)
        | (v,b) =>
          let v := ext2WriteInode (ext2WriteBlock v b (dotBlock v ino parent)) ino (newDir v b)
          match ext2AddDirEntry v parent ino name ext2FtDir with
          | none => none
          | some (v,false) => some (ext2FreeInode (ext2FreeBlock v b) ino,0)
          | some (v,true) =>
            let v := addLink v parent
            some (ext2FlushMetadata (addUsedDir v ((ino-1)/sInodesPerGroup v)),ino)

def freeBlocks (bs : List ℕ) : Volume := bs.foldl ext2FreeBlock v

def directBlocks : List ℕ :=
  (List.range (min ((iSize n+v.blockSize-1) % 2^32/v.blockSize) 12)).map (iBlock n)

/-- The blocks behind the indirect block, and the indirect block itself. -/
def indirectBlocks : List ℕ :=
  if iBlock n 12 = 0 then []
  else (List.range (ptrsPerBlock v)).map (pointer v (iBlock n 12))++[iBlock n 12]

def ext2Unlink (parent : ℕ) (name : Name) : Option (Volume × Bool) :=
  if v.mounted = false then some (v,false)
  else
    match ext2Lookup v parent name with
    | none => none
    | some 0 => some (v,false)
    | some (k+1) =>
      let ino := k+1
      match ext2RemoveDirEntry v parent name with
      | (v,false) => some (v,false)
      | (v,true) =>
        match ext2ReadInode v ino with
        | none => some (v,false)
        | some n =>
          let n := setLinksCount n (iLinksCount n+(2^16-1))
          if iLinksCount n = 0 then
            let v := freeBlocks v (directBlocks v n)
            let v := ext2FreeInode (freeBlocks v (indirectBlocks v n)) ino
            some (ext2FlushMetadata (ext2WriteInode v ino zeros),true)
          else some (ext2FlushMetadata (ext2WriteInode v ino n),true)

/-- Parent and last component; both are cut to the 127 bytes of the buffers. -/
def ext2PathSplit (path : Name) : Name × Name :=
  let name := (path.reverse.takeWhile (· ≠ slash)).reverse
  let len := path.length-name.length-1
  if len = 0 then ([slash],name.take 127) else (path.take (min len 127),name.take 127)

def replaceEntry (oldIno oldDir newDir fileType : ℕ) (oldName newName : Name) :
    Option (Volume × Bool) :=
  match ext2AddDirEntry v newDir oldIno newName fileType with
  | none => none
  | some (v,false) => some (v,false)
  | some (v,true) =>
    match ext2RemoveDirEntry v oldDir oldName with
    | (v,false) => some ((ext2RemoveDirEntry v newDir newName).1,false)
    | (v,true) => some (ext2FlushMetadata v,true)

def removeDestination (dir : ℕ) (name : Name) : Option Volume :=
  match ext2Lookup v dir name with
  | none => none
  | some 0 => some v
  | some (_+1) => (ext2Unlink v dir name).map Prod.fst

def ext2Rename (oldPath newPath : Name) : Option (Volume × Bool) :=
  if v.mounted = false then some (v,false)
  else do
    let oldIno ← ext2PathLookup v oldPath
    if oldIno = 0 then return (v,false)
    let old := ext2PathSplit oldPath
    let new := ext2PathSplit newPath
    let oldDir ← ext2PathLookup v old.1
    let newDir ← ext2PathLookup v new.1
    if oldDir = 0 ∨ newDir = 0 then return (v,false)
    match ext2ReadInode v oldIno with
    | none => return (v,false)
    | some n =>
      let v ← removeDestination v newDir new.2
      replaceEntry v oldIno oldDir newDir (fileTypeOf (iMode n)) old.2 new.2

end HobbyOS.Ext2

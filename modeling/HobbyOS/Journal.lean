import HobbyOS.ByteStore
import HobbyOS.BoundedLoop
import HobbyOS.WriteLog

/-!
# The block journal

`journal.c` over a drive that remembers the sector writes it was given. A
sector is 512 bytes; a transfer of several sectors is one write for each, in
ascending order. All transfers succeed: a machine that stops has made some
first part of its writes.
-/

namespace HobbyOS.Journal
open ByteStore BoundedLoop WriteLog Function

abbrev Disk := ℕ → Store

structure Drive where
  disk : Disk
  log : List (ℕ × Store)

def sectorSize : ℕ := 512

def sectorOf (data : Store) (j : ℕ) : Store :=
  fun o => if o < sectorSize then data (sectorSize*j+o) else 0

def sectorWrites (lba n : ℕ) (data : Store) : List (ℕ × Store) :=
  (List.range n).map fun j => (lba+j,sectorOf data j)

def ataWriteSectors (v : Drive) (lba n : ℕ) (data : Store) : Drive :=
  ⟨apply v.disk (sectorWrites lba n data),v.log++sectorWrites lba n data⟩

def ataReadSectors (d : Disk) (lba : ℕ) : Store := fun o => d (lba+o/sectorSize) (o % sectorSize)

def journalMagic : ℕ := 0x4A524E4C
def journalMaxBlocks : ℕ := 16
def journalStartLba : ℕ := 65536

def journalAreaSectors : ℕ := 256

structure State where
  seq : ℕ := 0
  ready : Bool := false

structure Txn where
  targetBlocks : ℕ → ℕ := fun _ => 0
  blockData : ℕ → Store := fun _ _ => 0
  count : ℕ := 0
  active : Bool := false

def journalInit : State := { seq := 0, ready := true }

def journalBegin (j : State) : Option Txn := if j.ready then some { active := true } else none

def journalLog (t : Txn) (blockNo : ℕ) (data : Store) : Option Txn :=
  if t.active = false ∨ journalMaxBlocks ≤ t.count then none
  else some { t with
    targetBlocks := update t.targetBlocks t.count blockNo
    blockData := update t.blockData t.count data
    count := t.count+1 }

def headerMagic (h : Store) : ℕ := load h 4 0
def headerBlockCount (h : Store) : ℕ := load h 4 8
def headerCommitted (h : Store) : ℕ := load h 4 12
def headerTarget (h : Store) (i : ℕ) : ℕ := load h 4 (16+4*i)

def setCommitted (h : Store) (n : ℕ) : Store := store h 4 12 n

def newHeader (seq : ℕ) (t : Txn) : Store :=
  let h : Store := fun _ => 0
  let h := store h 4 0 journalMagic
  let h := store h 4 4 seq
  let h := store h 4 8 t.count
  let h := setCommitted h 0
  iterate (fun i h => store h 4 (16+4*i) (t.targetBlocks i)) 0 t.count h

def journalCommit (j : State) (t : Txn) (v : Drive) : State × Txn × Drive × ℤ :=
  if t.active = false ∨ t.count = 0 then (j,t,v,-1)
  else
    let h := newHeader j.seq t
    let v := ataWriteSectors v journalStartLba 1 h
    let v := iterate (fun i v =>
      ataWriteSectors v (journalStartLba+1+8*i) 8 (t.blockData i)) 0 t.count v
    let v := ataWriteSectors v journalStartLba 1 (setCommitted h 1)
    let v := iterate (fun i v =>
      ataWriteSectors v (t.targetBlocks i*8 % 2^32) 8 (t.blockData i)) 0 t.count v
    let v := ataWriteSectors v journalStartLba 1 (setCommitted h 2)
    ({ j with seq := (j.seq+1) % 2^32 },{ t with active := false },v,0)

def journalRecover (j : State) (v : Drive) : Drive × ℤ :=
  if j.ready = false then (v,-1)
  else
    let h := ataReadSectors v.disk journalStartLba
    if headerMagic h ≠ journalMagic then (v,0)
    else if headerCommitted h = 1 then
      let v := iterate (fun i v =>
        ataWriteSectors v (headerTarget h i*8 % 2^32) 8
          (ataReadSectors v.disk (journalStartLba+1+8*i))) 0
        (min (headerBlockCount h) journalMaxBlocks) v
      (ataWriteSectors v journalStartLba 1 (setCommitted h 2),1)
    else (v,0)

end HobbyOS.Journal

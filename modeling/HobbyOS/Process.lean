import Mathlib.Tactic

/-!
# The process table

`struct process`, its descriptors and its memory areas, with the lookups of
`process.c`. A pointer into the table is a slot number below
`MAX_PROCESSES`; an absent pointer is `none`.
-/

namespace HobbyOS.Process

def maxProcesses : ℕ := 64
def processMaxFds : ℕ := 32
def vmaMax : ℕ := 32

inductive State where
  | unused
  | ready
  | running
  | blocked
  | zombie
  | terminated
  deriving DecidableEq, Repr

inductive FdType where
  | none
  | vfs
  | pipeRead
  | pipeWrite
  | console
  | device
  | ext2
  | socket
  | epoll
  deriving DecidableEq, Repr

structure Fd where
  type : FdType := .none
  data : ℕ := 0
  offset : ℕ := 0
  deriving DecidableEq, Repr

inductive VmaType where
  | anon
  | file
  | device
  | elf
  deriving DecidableEq, Repr

structure Vma where
  start : ℕ := 0
  stop : ℕ := 0
  prot : BitVec 32 := 0
  flags : BitVec 32 := 0
  type : VmaType := .anon
  inUse : Bool := false
  fileInode : ℕ := 0
  fileOffset : ℕ := 0
  sharedPhys : ℕ := 0
  devPhysBase : ℕ := 0
  elfData : ℕ := 0
  elfDataFilesz : ℕ := 0
  elfVaddr : ℕ := 0
  elfDataOwned : Bool := false
  deriving DecidableEq, Repr

structure Proc where
  pid : ℕ := 0
  state : State := .unused
  next : Option ℕ := none
  cr3 : ℕ := 0
  isUser : Bool := false
  ppid : ℕ := 0
  exitCode : ℤ := 0
  waitForPid : ℕ := 0
  fdTable : ℕ → Fd := fun _ => {}
  sigPending : BitVec 32 := 0
  sigHandlers : ℕ → ℕ := fun _ => 0
  inSignalHandler : Bool := false
  vmas : ℕ → Vma := fun _ => {}
  brkStart : ℕ := 0
  brkCurrent : ℕ := 0

abbrev Table := ℕ → Proc

def processGetByPid (t : Table) (pid : ℕ) : Option ℕ :=
  (List.range maxProcesses).find? fun i => (t i).state != .unused && (t i).pid == pid

theorem get_by_pid_some {t : Table} {pid i : ℕ} (h : processGetByPid t pid = some i) :
    i < maxProcesses ∧ (t i).state ≠ .unused ∧ (t i).pid = pid := by
  have hp := List.find?_some h
  have hm := List.mem_of_find?_eq_some h
  simp only [Bool.and_eq_true, bne_iff_ne, beq_iff_eq] at hp
  exact ⟨List.mem_range.mp hm,hp.1,hp.2⟩

theorem get_by_pid_none {t : Table} {pid i : ℕ} (h : processGetByPid t pid = none)
    (hi : i < maxProcesses) (hs : (t i).state ≠ .unused) : (t i).pid ≠ pid := by
  intro hp
  have := List.find?_eq_none.mp h i (List.mem_range.mpr hi)
  simp [hs, hp] at this

theorem get_by_pid_unique {t : Table} {i : ℕ} (hi : i < maxProcesses) (hs : (t i).state ≠ .unused)
    (h : ∀ j, j < maxProcesses → (t j).state ≠ .unused → (t j).pid = (t i).pid → j = i) :
    processGetByPid t (t i).pid = some i := by
  cases hg : processGetByPid t (t i).pid with
  | none => exact absurd rfl (get_by_pid_none hg hi hs)
  | some j =>
    obtain ⟨hj,hsj,hpj⟩ := get_by_pid_some hg
    rw [h j hj hsj hpj]

end HobbyOS.Process

import HobbyOS.Exec
import HobbyOS.ForkTotal
import HobbyOS.VolumeCheck

/-!
# Set-user-ID programs

`exec` remembers the inode of the file before it knows whether the file fits
into the kernel heap, and applies its set-id bits to whatever image it loads.
-/

namespace HobbyOS.ExecCred
open VmaTable TableGrowth ByteStore PageEntry Ext2 Elf PhysMem UserVm Exec ForkTotal

variable (w : World) (s : Caller)

/-- The inode whose bytes are loaded, if they come from the volume. -/
def loadedInode (name : Name) : Option Inode :=
  match ext2File w.volume name with
  | some (some n) => if (readProgram w.volume s.heap n).2.2.isSome then some n else none
  | _ => none

/-- The set-id bits of the file name ids that the caller has already. -/
def NoGain (cr : Cred) (n : Inode) : Prop :=
  (iMode n &&& sIsuid ≠ 0 → iUid n = cr.euid) ∧ (iMode n &&& sIsgid ≠ 0 → iGid n = cr.egid)

theorem exec_cred_same (cr : Cred) (n : Inode) : execCred cr (some n) = cr ↔ NoGain cr n := by
  obtain ⟨u,g,eu,eg⟩ := cr
  dsimp only [execCred, NoGain]
  split_ifs <;> simp_all

variable {n : Option Inode} {m : Mem}

theorem load_into_cred {s' : Caller} {h : KHeap.Heap} {root : ℕ} {img : Image} {argv : List Name} {e : Entry}
    (hl : loadInto w s h root n img argv = some (s',some e)) : s'.cred = execCred s.cred n := by
  obtain ⟨⟨l,h',r⟩,-,hx⟩ := Option.map_eq_some_iff.mp hl
  cases r with
  | none => cases hx
  | some r =>
    dsimp only at hx
    split at hx
    · cases hx
    · split at hx
      · cases hx
      · cases hx
        rfl

theorem exec_cred {s' : Caller} {name : Name} {argv names : List Name} {e : Entry} {hp : KHeap.Heap}
    {img : Option Image} (hf : findProgram w s name names = some (.found hp n img))
    (h : execProgram w s name argv names = some (s',some e)) : s'.cred = execCred s.cred n := by
  rw [execProgram, hf] at h
  cases img with
  | none => cases h
  | some img =>
    dsimp only at h
    split_ifs at h
    · cases h
    · split at h
      · cases h
      · have hc := load_into_cred w _ h
        exact hc

/-- The ids follow the image that runs exactly if a file that could not be
read would not have changed them. -/
theorem set_user_id_iff {s' : Caller} (call : ExecCall) {name : Name} {e : Entry} (hn : callName call = some name)
    (h : syscallExec w s call = some (s',some e)) :
    s'.cred = execCred s.cred (loadedInode w s name) ↔
      ∀ n, ext2File w.volume name = some (some n) →
        (readProgram w.volume s.heap n).2.2.isSome = true ∨ NoGain s.cred n := by
  rw [syscallExec, hn] at h
  dsimp only at h
  cases hf : ext2File w.volume name with
  | none =>
    rw [execProgram, findProgram, hf] at h
    cases h
  | some file =>
    unfold loadedInode
    rw [hf]
    cases file with
    | none =>
      rw [exec_cred w s (by rw [findProgram, hf]; rfl) h]
      exact iff_of_true rfl fun n hx => by cases hx
    | some n =>
      have hallowed : credCheckExec s.cred (iMode n) (iUid n) (iGid n) ≠ false := by
        intro hd
        rw [execProgram, findProgram, hf, Option.map_some, ext2Program, if_pos hd] at h
        cases h
      rw [exec_cred w s (by rw [findProgram, hf, Option.map_some, ext2Program, if_neg hallowed]; rfl) h]
      simp only [Option.some.injEq, forall_eq']
      cases hr : (readProgram w.volume s.heap n).2.2.isSome with
      | true => simp
      | false => exact (exec_cred_same s.cred n).trans (by simp)

variable (log : List Eviction) (c : Ctx) (root : ℕ)

theorem alloc_stack_total (k : ℕ) {j : ℕ} (ps : List ℕ) (h : Roomy log (j+k) m) :
    ∃ m' qs, allocStack c k ps m = (m',some qs) ∧ qs.length = ps.length+k ∧ Roomy log j m' := by
  induction k generalizing ps m with
  | zero => exact ⟨m,ps,rfl,rfl,h⟩
  | succ k ih =>
    obtain ⟨n,hn,he,hr⟩ := alloc_page_total log (j+k) c m h
    obtain ⟨n,rfl⟩ := Nat.exists_eq_succ_of_ne_zero hn
    rw [allocStack, allocZeroedPage, he]
    have hr0 : Roomy log (j+k) { taken m (n+1) with ram := zeroPage m.ram (n+1) } :=
      roomy_congr log _ _ _ hr rfl rfl rfl rfl rfl
    obtain ⟨m',qs,hq,hlen,hr'⟩ := ih (ps++[n+1]) hr0
    refine ⟨m',qs,hq,?_,hr'⟩
    rw [hlen, List.length_append, List.length_singleton]
    omega

theorem map_stack_total (i : ℕ) {ps : List ℕ} (h : Roomy log (3*ps.length) m) :
    ∃ m', mapStack c root i ps m = (m',true) := by
  induction ps generalizing i m with
  | nil => exact ⟨m,rfl⟩
  | cons p ps ih =>
    obtain ⟨m1,he,hr⟩ := map_page_total log (3*ps.length) c m root (userStackBottom+i*pageSize) p
      (ptePresent ||| pteWritable ||| pteUser) h
    rw [mapStack, he]
    exact ih (i+1) hr

theorem build_stack_total (h : Roomy log 256 m) : ∃ m' top, buildStack c root m = (m',some top) := by
  obtain ⟨m1,ps,ha,hlen,hr⟩ := alloc_stack_total log c userStackPages [] (j := 192) h
  rw [List.length_nil, userStackPages] at hlen
  obtain ⟨m2,hm⟩ := map_stack_total log c root 0 (by rw [hlen]; exact hr)
  have hne : ps ≠ [] := by
    rintro rfl
    cases hlen
  rw [buildStack, ha]
  dsimp only
  rw [hm, List.getLast?_eq_getLast_of_ne_nil hne]
  exact ⟨_,_,rfl⟩

def headBytes : Store := fun i =>
  ([0x7F,0x45,0x4C,0x46,2,1,1,0,0,0,0,0,0,0,0,0,2,0,62] : List UInt8).getD i
    (if i = 32 then 64 else if i = 54 then 56 else if i = 56 then 1 else 0)

/-- A valid header and no segment to load. -/
def headImage : Image := ⟨0x200000,headBytes,120⟩

/-- "/x" is a set-user-ID file of root, of one byte. -/
def suidVolume : Volume :=
  VolumeCheck.small 16 [zeros,VolumeCheck.fileInode 0x41ED 2 1024 [6],VolumeCheck.fileInode 0x89ED 1 1 [7]]
    [putEntry zeros 0 3 1024 [120] ext2FtRegFile,fun _ => 33]

def headWorld (v : Volume) : World :=
  { ramWorld with volume := v, ramfs := fun name => if name = [120] then some headImage else none }

def suidWorld : World := headWorld suidVolume

/-- The kernel heap has no free block. -/
def fullCaller : Caller :=
  { oneArea with mem := { smallMem with totalPages := 260, freePages := 258 }, heap := { oneArea.heap with freeList := 0 } }

def suidCall : ExecCall := .execv 0x1000 0x2000 [47,120] 1 fun _ => none

theorem head_loads (v : Volume) (m : Mem) (a : Areas) (h : KHeap.Heap) :
    ∃ r, elfLoad c root v 0 headImage m a h = some (⟨m,a,0⟩,h,some r) := by
  have hphdrs : phdrs headImage = [⟨0,0,0,0,0,0⟩] := rfl
  rw [elfLoad, if_neg (by decide +kernel), hphdrs]
  exact ⟨_,rfl⟩

theorem head_runs {h : KHeap.Heap} (hr : Roomy log 257 s.mem)
    (hf : findProgram w s [47,120] [[47,120],[120]] = some (.found h n (some headImage))) :
    ∃ s' e, execProgram w s [47,120] [[120]] [[47,120],[120]] = some (s',some e) := by
  rw [execProgram, hf]
  dsimp only
  rw [if_neg (by decide +kernel)]
  obtain ⟨m,root,hroot,hc,hr⟩ := create_total log 256 w.ctx s.mem hr
  obtain ⟨root,rfl⟩ := Nat.exists_eq_succ_of_ne_zero hroot
  obtain ⟨m',top,hb⟩ := build_stack_total log w.ctx (root+1) hr
  rw [hc]
  change ∃ s' e, loadInto w { s with mem := m } h (root+1) n headImage [[120]] = some (s',some e)
  rw [loadInto]
  obtain ⟨r,hl⟩ := head_loads w.ctx (root+1) w.volume m
    (vmaDestroyAll ⟨s.proc.vmas,s.mmapNext⟩) (freeImages s.proc.vmas h)
  have hset : (elfSetupStack (userStackTop-pageSize) [[120]] r).isSome = true := rfl
  obtain ⟨x,hx⟩ := Option.isSome_iff_exists.mp hset
  rw [hl, Option.map_some]
  dsimp only
  rw [hb]
  dsimp only
  rw [hx]
  exact ⟨_,_,rfl⟩

theorem suid_file : ∃ n, ext2File suidWorld.volume [47,120] = some (some n) ∧
    (iMode n,iUid n,iGid n,iSize n) = (0x89ED,0,0,1) := by
  have hfile : (ext2File suidWorld.volume [47,120]).map (Option.map fun n => (iMode n,iUid n,iGid n,iSize n)) =
    some (some (0x89ED,0,0,1)) := by decide +kernel
  obtain ⟨f,hf,hn⟩ := Option.map_eq_some_iff.mp hfile
  obtain ⟨n,rfl,hn⟩ := Option.map_eq_some_iff.mp hn
  exact ⟨n,hf,Option.some.inj hn⟩

theorem caller_roomy : Roomy [] 257 fullCaller.mem := ⟨.inl rfl,rfl,rfl,by decide,by decide +kernel⟩

/-- The bytes come from the RAM file system and the user id from the file. -/
theorem suid_of_unread_file : ∃ w s call name s' e, callName call = some name ∧
    syscallExec w s call = some (s',some e) ∧ loadedInode w s name = none ∧ s'.cred.euid ≠ s.cred.euid := by
  obtain ⟨n,hf,hn⟩ := suid_file
  obtain ⟨hmode,huid,hgid,hsize⟩ := by simpa only [Prod.mk.injEq] using hn
  have hread : readProgram suidWorld.volume fullCaller.heap n = (fullCaller.heap,0,none) := by
    rw [readProgram, hsize]
    rfl
  have hfind : findProgram suidWorld fullCaller [47,120] [[47,120],[120]] =
      some (.found fullCaller.heap (some n) (some headImage)) := by
    rw [findProgram, hf, Option.map_some, ext2Program, hmode, huid,
      hgid, if_neg (by decide), hread]
    rfl
  obtain ⟨s',e,hx⟩ := head_runs suidWorld fullCaller [] caller_roomy hfind
  refine ⟨suidWorld,fullCaller,suidCall,[47,120],s',e,rfl,hx,?_,?_⟩
  · rw [loadedInode, hf]
    dsimp only
    rw [hread]
    rfl
  · rw [exec_cred suidWorld fullCaller hfind hx, execCred, hmode, huid, hgid]
    decide

theorem set_user_id_no_volume : ∃ s' e,
    syscallExec (headWorld ramWorld.volume) fullCaller suidCall = some (s',some e) ∧
    s'.cred = execCred fullCaller.cred (loadedInode (headWorld ramWorld.volume) fullCaller [47,120]) := by
  obtain ⟨s',e,hx⟩ := head_runs (headWorld ramWorld.volume) fullCaller [] caller_roomy rfl
  exact ⟨s',e,hx,(set_user_id_iff (headWorld ramWorld.volume) fullCaller suidCall rfl hx).mpr fun n hn => by cases hn⟩

end HobbyOS.ExecCred

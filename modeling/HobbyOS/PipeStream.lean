import HobbyOS.KernelFrame
import HobbyOS.RingBuffer

/-!
# The byte stream of a pipe

Any run of the kernel from the creation of a pipe on, with its readers and
writers blocking and resuming in any order. What the completed reads have
returned is the front of what the completed writes have accepted, and the
ring holds the rest.
-/

namespace HobbyOS.PipeStream
open Process Scheduler KernelFrame RingBuffer Function

inductive Done where
  | read (count : ℕ) (bytes : List UInt8)
  | write (buf : List UInt8) (ret : ℤ)
  deriving DecidableEq, Repr

def Done.got : Done → List UInt8
  | .read _ bytes => bytes
  | .write _ _ => []

/-- The first `r` bytes of the buffer of a write that returned `r`. -/
def Done.sent : Done → List UInt8
  | .read _ _ => []
  | .write buf ret => buf.take ret.toNat

variable (k : Kernel) (p : ℕ) (as : List Action) (x : Pipe)

def pipeCreate : Kernel := setPipe k p fun _ => {}

/-- The call on the pipe `p` that returns in this step, if one does. -/
def done (k : Kernel) : Action → Option Done
  | .pipeRead q n => if q = p then (pipeRead k p n).2.map (.read n) else none
  | .pipeWrite q buf => if q = p then (pipeWrite k p buf).2.map (.write buf) else none
  | .resume =>
    match k.call k.current with
    | .pipeRead q n =>
      if q = p then (pipeRead (setCall k k.current .none) p n).2.map (.read n) else none
    | .pipeWrite q buf =>
      if q = p then (pipeWriteLoop (setCall k k.current .none) p buf).2.map (.write buf) else none
    | _ => none
  | _ => none

def run : Kernel := as.foldl act k

/-- The calls on `p` in the order in which they return, each with the pipe as
it is then. -/
def returns (p : ℕ) : Kernel → List Action → List (Pipe × Done)
  | _, [] => []
  | k, a::as => (done p k a).toList.map (fun d => ((act k a).pipes p,d))++returns p (act k a) as

def bytesRead (h : List (Pipe × Done)) : List UInt8 := (h.map fun r => r.2.got).flatten

def bytesWritten (h : List (Pipe × Done)) : List UInt8 := (h.map fun r => r.2.sent).flatten

def Proper : Done → Prop
  | .read n bytes => n ≠ 0 → bytes = [] → x.count = 0 ∧ x.writers = 0
  | .write buf ret => buf ≠ [] → 0 < ret ∨ ret = -1 ∧ x.readers = 0

variable (i : ℕ) (buf : List UInt8)

theorem block_pipes (c : Call) : (block k c).pipes = k.pipes :=
  (gentle_schedule _).pipes

theorem wait_for_pipes (c : ℕ) : (processWaitFor k c).1.pipes = k.pipes := by
  unfold processWaitFor
  dsimp only
  split
  · rfl
  · split_ifs
    · rfl
    · exact block_pipes _ _

theorem wait_resume_pipes (c : ℕ) : (processWaitResume k c).1.pipes = k.pipes := by
  unfold processWaitResume
  split <;> rfl

theorem create_pipes (init : Proc) : (create k init).pipes = k.pipes := by
  unfold create
  split
  · rfl
  · exact (gentle_add _ _).pipes

theorem create_fails_pipes (init : Proc) (fork : Bool) :
    (createFails k init fork).pipes = k.pipes := by
  unfold createFails
  split <;> rfl

structure Books (x : Pipe) (r w : List UInt8) : Prop where
  stream : w = r++contents x.buffer pipeBufSize x.readPos x.count
  readPos : x.readPos < pipeBufSize
  writePos : x.writePos = (x.readPos+x.count) % pipeBufSize
  count : x.count ≤ pipeBufSize

theorem put_bytes_put :
    putBytes x buf = { x with
      buffer := (buf.foldl (put pipeBufSize) (x.buffer,x.writePos)).1
      writePos := (buf.foldl (put pipeBufSize) (x.buffer,x.writePos)).2 } := by
  induction buf generalizing x with
  | nil => rfl
  | cons b buf ih => exact ih _

theorem books_create : Books {} [] [] where
  stream := rfl
  readPos := by decide
  writePos := by decide
  count := by decide

theorem books_take (r w : List UInt8) (h : Books x r w) (n : ℕ) (hn : n ≤ x.count) :
    Books { x with readPos := (x.readPos+n) % pipeBufSize, count := x.count-n }
      (r++takeBytes x n) w := by
  refine ⟨?_,Nat.mod_lt _ (by decide),?_,(Nat.sub_le _ _).trans h.count⟩
  · have hsplit := contents_drop x.buffer pipeBufSize x.readPos n (x.count-n)
    rw [Nat.add_sub_of_le hn] at hsplit
    rw [h.stream, hsplit, List.append_assoc]
    rfl
  · change x.writePos = ((x.readPos+n) % pipeBufSize+(x.count-n)) % pipeBufSize
    rw [h.writePos, Nat.mod_add_mod]
    congr 1
    omega

theorem books_put (r w : List UInt8) (h : Books x r w) (buf : List UInt8)
    (hn : x.count+buf.length ≤ pipeBufSize) :
    Books { putBytes x buf with count := x.count+buf.length } r (w++buf) := by
  obtain ⟨hc,hp⟩ := contents_put_all buf x.buffer pipeBufSize x.readPos x.count hn
  rw [put_bytes_put, h.writePos]
  refine ⟨?_,h.readPos,hp,hn⟩
  rw [h.stream, List.append_assoc]
  exact congrArg (r++·) hc.symm

theorem books_readers {r w : List UInt8} (h : Books x r w) (a b : ℕ) :
    Books { x with readers := a, writers := b } r w := ⟨h.stream,h.readPos,h.writePos,h.count⟩

def gotIn (d : Option Done) : List UInt8 := d.elim [] Done.got

def sentIn (d : Option Done) : List UInt8 := d.elim [] Done.sent

def Keeps (k k' : Kernel) (d : Option Done) : Prop :=
  ∀ r w, Books (k.pipes p) r w →
    Books (k'.pipes p) (r++gotIn d) (w++sentIn d) ∧ ∀ e ∈ d, Proper (k'.pipes p) e

theorem keeps_still {k k' : Kernel} (h : k'.pipes p = k.pipes p) : Keeps p k k' none := by
  intro r w hb
  rw [h]
  refine ⟨?_,nofun⟩
  simpa [gotIn, sentIn] using hb

theorem pipe_read_other (p q n : ℕ) (hq : q ≠ p) :
    (pipeRead k q n).1.pipes p = k.pipes p := by
  unfold pipeRead
  dsimp only
  split_ifs
  · rfl
  · rw [block_pipes]
    rfl
  · rw [(gentle_wake _ _).pipes]
    exact update_of_ne hq.symm _ _

theorem pipe_write_loop_other {p q : ℕ} (hq : q ≠ p) : (pipeWriteLoop k q buf).1.pipes p = k.pipes p := by
  unfold pipeWriteLoop
  dsimp only
  split_ifs
  · rfl
  · rw [block_pipes]
    rfl
  · rw [(gentle_wake _ _).pipes]
    exact update_of_ne hq.symm _ _

theorem pipe_read_keeps (p n : ℕ) :
    Keeps p k (pipeRead k p n).1 ((pipeRead k p n).2.map (.read n)) := by
  unfold pipeRead
  by_cases h0 : (k.pipes p).count = 0
  · rw [if_pos h0]
    by_cases hw : (k.pipes p).writers = 0
    · rw [if_pos hw]
      intro r w hb
      refine ⟨by simpa [gotIn, sentIn, Done.got, Done.sent] using hb,?_⟩
      rintro e ⟨⟩
      exact fun _ _ => ⟨h0,hw⟩
    · rw [if_neg hw]
      exact keeps_still p (by rw [block_pipes]; rfl)
  · rw [if_neg h0]
    intro r w hb
    rw [(gentle_wake _ _).pipes]
    have hx : (setPipe k p fun x => { x with
        readPos := (x.readPos+min n (k.pipes p).count) % pipeBufSize,
        count := x.count-min n (k.pipes p).count }).pipes p =
        { k.pipes p with
          readPos := ((k.pipes p).readPos+min n (k.pipes p).count) % pipeBufSize,
          count := (k.pipes p).count-min n (k.pipes p).count } := update_self ..
    rw [hx]
    refine ⟨?_,?_⟩
    · have hb' := books_take _ r w hb (min n (k.pipes p).count) (Nat.min_le_right ..)
      simpa [gotIn, sentIn, Done.got, Done.sent] using hb'
    · -- a nonzero request on a ring that holds something gets a byte
      rintro e ⟨⟩ hn hempty
      have hlen : (takeBytes (k.pipes p) (min n (k.pipes p).count)).length =
          min n (k.pipes p).count := contents_length ..
      rw [hempty, List.length_nil] at hlen
      omega

theorem pipe_write_loop_keeps : Keeps p k (pipeWriteLoop k p buf).1 ((pipeWriteLoop k p buf).2.map (.write buf)) := by
  unfold pipeWriteLoop
  by_cases hf : (k.pipes p).count = pipeBufSize
  · rw [if_pos hf]
    by_cases hr : (k.pipes p).readers = 0
    · rw [if_pos hr]
      intro r w hb
      refine ⟨by simpa [gotIn, sentIn, Done.got, Done.sent] using hb,?_⟩
      rintro e ⟨⟩
      exact fun _ => .inr ⟨rfl,hr⟩
    · rw [if_neg hr]
      exact keeps_still p (by rw [block_pipes]; rfl)
  · rw [if_neg hf]
    intro r w hb
    dsimp only [Option.map_some]
    rw [(gentle_wake _ _).pipes]
    have hx : (setPipe k p fun x => { putBytes x (buf.take (min buf.length (pipeBufSize-(k.pipes p).count)))
        with count := x.count+min buf.length (pipeBufSize-(k.pipes p).count) }).pipes p =
        { putBytes (k.pipes p) (buf.take (min buf.length (pipeBufSize-(k.pipes p).count)))
          with count := (k.pipes p).count+min buf.length (pipeBufSize-(k.pipes p).count) } :=
      update_self ..
    rw [hx]
    have hroom := hb.count
    refine ⟨?_,?_⟩
    · have hlen : (buf.take (min buf.length (pipeBufSize-(k.pipes p).count))).length =
          min buf.length (pipeBufSize-(k.pipes p).count) := by simp
      have hb' := books_put _ r w hb (buf.take (min buf.length (pipeBufSize-(k.pipes p).count)))
        (by omega)
      rw [hlen] at hb'
      simpa only [gotIn, sentIn, Done.got, Done.sent, Option.elim_some, List.append_nil,
        Int.toNat_natCast] using hb'
    · rintro e ⟨⟩ hne
      have := List.length_pos_of_ne_nil hne
      left
      omega

theorem pipe_write_keeps : Keeps p k (pipeWrite k p buf).1 ((pipeWrite k p buf).2.map (.write buf)) := by
  unfold pipeWrite
  by_cases hr : (k.pipes p).readers = 0
  · rw [if_pos hr]
    intro r w hb
    refine ⟨by simpa [gotIn, sentIn, Done.got, Done.sent] using hb,?_⟩
    rintro e ⟨⟩
    exact fun _ => .inr ⟨rfl,hr⟩
  · rw [if_neg hr]
    exact pipe_write_loop_keeps k p buf

theorem pipe_write_other {p q : ℕ} (buf : List UInt8) (hq : q ≠ p) :
    (pipeWrite k q buf).1.pipes p = k.pipes p := by
  unfold pipeWrite
  split_ifs
  · rfl
  · exact pipe_write_loop_other k buf hq

theorem keeps_ends (p q : ℕ) {k k' : Kernel} (f : Pipe → Pipe)
    (hf : ∀ x, ∃ a b, f x = { x with readers := a, writers := b })
    (h : k'.pipes = (setPipe k q f).pipes) : Keeps p k k' none := by
  by_cases hq : q = p
  · subst hq
    intro r w hb
    obtain ⟨a,b,he⟩ := hf (k.pipes q)
    refine ⟨?_,nofun⟩
    rw [h, show (setPipe k q f).pipes q = _ from update_self .., he]
    simpa [gotIn, sentIn] using books_readers _ hb a b
  · apply keeps_still
    rw [h]
    exact update_of_ne (Ne.symm hq) _ _

theorem close_read_keeps (p q : ℕ) (k : Kernel) : Keeps p k (pipeCloseRead k q) none := by
  apply keeps_ends p q (fun x => { x with readers := x.readers-1 }) (fun x => ⟨_,x.writers,rfl⟩)
  unfold pipeCloseRead
  dsimp only
  split_ifs
  · exact (gentle_wake _ _).pipes
  · rfl

theorem close_write_keeps (p q : ℕ) (k : Kernel) : Keeps p k (pipeCloseWrite k q) none := by
  apply keeps_ends p q (fun x => { x with writers := x.writers-1 }) (fun x => ⟨x.readers,_,rfl⟩)
  unfold pipeCloseWrite
  dsimp only
  split_ifs
  · exact (gentle_wake _ _).pipes
  · rfl

theorem inc_ref_keeps (p q : ℕ) (k : Kernel) (type : FdType) : Keeps p k (pipeIncRef k q type) none := by
  refine keeps_ends p q _ (fun x => ?_) rfl
  cases type <;> exact ⟨_,_,rfl⟩

theorem resume_keeps (k : Kernel) : Keeps p k (resumeCall k) (done p k .resume) := by
  unfold resumeCall done
  dsimp only
  cases k.call k.current with
  | pipeRead q n =>
    dsimp only
    by_cases hq : q = p
    · subst hq
      rw [if_pos rfl]
      exact pipe_read_keeps (setCall k k.current .none) q n
    · rw [if_neg hq]
      exact keeps_still p (pipe_read_other (setCall k k.current .none) p q n hq)
  | pipeWrite q buf =>
    dsimp only
    by_cases hq : q = p
    · subst hq
      rw [if_pos rfl]
      exact pipe_write_loop_keeps (setCall k k.current .none) q buf
    · rw [if_neg hq]
      exact keeps_still p (pipe_write_loop_other (setCall k k.current .none) buf hq)
  | waitFor c => exact keeps_still p (by rw [wait_resume_pipes]; rfl)
  | none | epollWait | other => exact keeps_still p rfl

theorem act_keeps (k : Kernel) (a : Action) : Keeps p k (act k a) (done p k a) := by
  cases a with
  | tick => exact keeps_still p (congrFun (gentle_schedule _).pipes p)
  | create init => exact keeps_still p (by rw [act, create_pipes])
  | createFails init fork => exact keeps_still p (by rw [act, create_fails_pipes])
  | signalSend pid sig => exact keeps_still p (congrFun (gentle_signal_send _ _ _).pipes p)
  | sigaction sig handler =>
    apply keeps_still
    rw [act]
    split_ifs <;> rfl
  | sigreturn => exact keeps_still p rfl
  | signalCheck => exact keeps_still p (congrFun (settled_signal_check _ _).pipes p)
  | fault sig => exact keeps_still p (congrFun (settled_fault _ _ _).pipes p)
  | exit code => exact keeps_still p (congrFun (settled_exit _ _).pipes p)
  | waitFor c => exact keeps_still p (by rw [act, wait_for_pipes])
  | pipeRead q n =>
    rw [done]
    by_cases hq : q = p
    · subst hq
      rw [if_pos rfl]
      exact pipe_read_keeps k q n
    · rw [if_neg hq]
      exact keeps_still p (pipe_read_other k p q n hq)
  | pipeWrite q buf =>
    rw [done]
    by_cases hq : q = p
    · subst hq
      rw [if_pos rfl]
      exact pipe_write_keeps k q buf
    · rw [if_neg hq]
      exact keeps_still p (pipe_write_other k buf hq)
  | pipeCloseRead q => exact close_read_keeps p q k
  | pipeCloseWrite q => exact close_write_keeps p q k
  | pipeIncRef q type => exact inc_ref_keeps p q k type
  | sleep w =>
    apply keeps_still
    cases w with
    | none => rw [act, block_pipes]
    | some w =>
      rw [act, block_pipes]
      rfl
  | epollWait | netWorkerWait => exact keeps_still p (by rw [act, block_pipes])
  | pingStart | arpDone => exact keeps_still p rfl
  | resume => exact resume_keeps p k
  | wake w => exact keeps_still p (congrFun (gentle_wake _ _).pipes p)
  | netReceive =>
    apply keeps_still
    rw [act]
    split
    · rfl
    · rw [(gentle_wake_blocked _ _).pipes]
  | epollWake i =>
    apply keeps_still
    rw [act]
    split_ifs
    · rw [(gentle_wake_blocked _ _).pipes]
    · rfl

theorem returns_read (k : Kernel) (a : Action) (as : List Action) :
    bytesRead (returns p k (a::as)) = gotIn (done p k a)++bytesRead (returns p (act k a) as) := by
  rw [returns]
  cases done p k a with
  | none | some => rfl

theorem returns_written (k : Kernel) (a : Action) (as : List Action) :
    bytesWritten (returns p k (a::as)) = sentIn (done p k a)++bytesWritten (returns p (act k a) as) := by
  rw [returns]
  cases done p k a with
  | none | some => rfl

theorem run_books (k : Kernel) (r w : List UInt8)
    (h : Books (k.pipes p) r w) :
    Books ((run k as).pipes p) (r++bytesRead (returns p k as)) (w++bytesWritten (returns p k as)) := by
  induction as generalizing k r w with
  | nil => simpa [run, returns, bytesRead, bytesWritten] using h
  | cons a as ih =>
    have hstep := ih (act k a) _ _ (act_keeps p k a r w h).1
    rw [returns_read, returns_written, ← List.append_assoc, ← List.append_assoc]
    exact hstep

theorem run_proper (k : Kernel) (r w : List UInt8)
    (h : Books (k.pipes p) r w) : ∀ e ∈ returns p k as, Proper e.1 e.2 := by
  induction as generalizing k r w with
  | nil => exact nofun
  | cons a as ih =>
    obtain ⟨hb,hp⟩ := act_keeps p k a r w h
    intro e he
    rw [returns, List.mem_append, List.mem_map] at he
    rcases he with ⟨d,hd,rfl⟩ | he
    · exact hp d (Option.mem_toList.mp hd)
    · exact ih (act k a) _ _ hb e he

/-- At every point of every run the reads so far are the front of the writes
so far, the ring holds exactly the difference, and no call returns short
without cause. -/
theorem pipe_stream_law :
    bytesRead (returns p (pipeCreate k p) as) <+: bytesWritten (returns p (pipeCreate k p) as) ∧
    (bytesRead (returns p (pipeCreate k p) as)).length+((run (pipeCreate k p) as).pipes p).count =
      (bytesWritten (returns p (pipeCreate k p) as)).length ∧
    ((run (pipeCreate k p) as).pipes p).count ≤ pipeBufSize ∧
    ∀ e ∈ returns p (pipeCreate k p) as, Proper e.1 e.2 := by
  have h0 : Books ((pipeCreate k p).pipes p) [] [] := by
    rw [show (pipeCreate k p).pipes p = {} from update_self ..]
    exact books_create
  have h := run_books p as (pipeCreate k p) [] [] h0
  rw [List.nil_append, List.nil_append] at h
  refine ⟨?_,?_,h.count,run_proper p as _ [] [] h0⟩
  · rw [h.stream]
    exact List.prefix_append _ _
  · rw [h.stream, List.length_append, contents_length]

end HobbyOS.PipeStream

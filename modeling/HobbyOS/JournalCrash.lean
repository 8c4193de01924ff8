import HobbyOS.Journal

/-!
# Crashes of the journal

A commit passes three stages, and so does the disk at any stop. Up to the
second header write nothing outside the journal has changed and the header
asks for no replay. Then the header is committed and the journal holds every
block. After the third header write the targets are in place. Recovery keeps
the first and the last stage and leads the middle one to the last.
-/

namespace HobbyOS.JournalCrash
open ByteStore BoundedLoop WriteLog Journal Function

variable (d0 : Disk) (t : Txn) (d : Disk) (lba : ℕ → ℕ)

def blockWrites (data : ℕ → Store) (i n : ℕ) : List (ℕ × Store) :=
  (List.range' i n).flatMap fun k => sectorWrites (lba k) 8 (data k)

variable (h : Store) (data : ℕ → Store) (i n : ℕ)

theorem write_blocks (v : Drive) :
    iterate (fun k v => ataWriteSectors v (lba k) 8 (data k)) i n v =
      ⟨apply v.disk (blockWrites lba data i n),v.log++blockWrites lba data i n⟩ := by
  induction n generalizing i v with
  | zero => simp [iterate, blockWrites, apply]
  | succ n ih =>
    have hcons : blockWrites lba data i (n+1) =
        sectorWrites (lba i) 8 (data i)++blockWrites lba data (i+1) n := by
      rw [blockWrites, List.range'_succ, List.flatMap_cons, blockWrites]
    rw [iterate, ih, hcons, apply_append, ataWriteSectors, List.append_assoc]

theorem mem_sector_writes (lba n : ℕ) (data : Store) (w : ℕ × Store) :
    w ∈ sectorWrites lba n data ↔ ∃ j < n, w = (lba+j,sectorOf data j) := by
  simp only [sectorWrites, List.mem_map, List.mem_range]
  constructor
  · rintro ⟨j,hj,rfl⟩
    exact ⟨j,hj,rfl⟩
  · rintro ⟨j,hj,rfl⟩
    exact ⟨j,hj,rfl⟩

theorem mem_block_writes (w : ℕ × Store) :
    w ∈ blockWrites lba data 0 n ↔ ∃ k < n, ∃ j < 8, w = (lba k+j,sectorOf (data k) j) := by
  simp only [blockWrites, List.mem_flatMap, List.mem_range'_1, mem_sector_writes]
  constructor
  · rintro ⟨k,⟨-,hk⟩,h⟩
    exact ⟨k,by omega,h⟩
  · rintro ⟨k,hk,h⟩
    exact ⟨k,⟨by omega,by omega⟩,h⟩

theorem blocks_arrive (hd : ∀ i < n, ∀ k < n, i ≠ k → lba i+8 ≤ lba k ∨ lba k+8 ≤ lba i) (i j : ℕ) (hi : i < n)
    (hj : j < 8) : apply d (blockWrites lba data 0 n) (lba i+j) = sectorOf (data i) j := by
  apply apply_same
  · intro w hw ha
    obtain ⟨k,hk,m,hm,rfl⟩ := (mem_block_writes lba data n w).mp hw
    have hik : k = i := by
      by_contra hne
      have := hd k hk i hi hne
      omega
    subst hik
    have hmj : m = j := by
      omega
    rw [hmj]
  · exact ⟨_,(mem_block_writes lba data n _).mpr ⟨i,hi,j,hj,rfl⟩,rfl⟩

theorem read_sectors {lba : ℕ} {data : Store}
    (h : ∀ j < 8, d (lba+j) = sectorOf data j) {j : ℕ} (hj : j < 8) :
    sectorOf (ataReadSectors d lba) j = sectorOf data j := by
  funext o
  unfold sectorOf ataReadSectors
  by_cases ho : o < sectorSize
  · have hdiv : (sectorSize*j+o)/sectorSize = j := by
      unfold sectorSize at *
      omega
    have hmod : (sectorSize*j+o) % sectorSize = o := by
      unfold sectorSize at *
      omega
    rw [hdiv, hmod, h j hj, sectorOf, if_pos ho]
  · rw [if_neg ho, if_neg ho]

def header : Store := ataReadSectors d journalStartLba

def Pending : Prop :=
  headerMagic (header d) = journalMagic ∧ headerCommitted (header d) = 1

instance (d : Disk) : Decidable (Pending d) := by
  unfold Pending
  infer_instance

theorem header_load (hd : d journalStartLba = sectorOf h 0) (n a : ℕ) (hb : a+n ≤ sectorSize) : load (header d) n a = load h n a := by
  apply load_congr
  intro i h1 h2
  unfold header ataReadSectors
  have hdiv : i/sectorSize = 0 := Nat.div_eq_of_lt (by omega)
  have hmod : i % sectorSize = i := Nat.mod_eq_of_lt (by omega)
  rw [hdiv, hmod, Nat.add_zero, hd, sectorOf, if_pos (by omega), Nat.mul_zero, Nat.zero_add]

theorem header_committed (hn : n < 256^4) :
    headerCommitted (setCommitted h n) = n := load_store_of_lt h 4 12 n hn

theorem header_other {a : ℕ} (ha : a+4 ≤ 12 ∨ 16 ≤ a) :
    load (setCommitted h n) 4 a = load h 4 a := load_store_disjoint h 4 12 n 4 a (by omega)

theorem not_pending (hn : n < 256^4) (h1 : n ≠ 1) (hd : d journalStartLba = sectorOf (setCommitted h n) 0) : ¬Pending d := by
  rintro ⟨-,hc⟩
  unfold headerCommitted at hc
  rw [header_load d _ hd 4 12 (by decide)] at hc
  have := header_committed h n hn
  unfold headerCommitted at this
  omega

theorem new_header (seq : ℕ) {t : Txn} (hc : t.count ≤ journalMaxBlocks)
    (ht : ∀ i < t.count, t.targetBlocks i < 256^4) :
    headerMagic (newHeader seq t) = journalMagic ∧ headerBlockCount (newHeader seq t) = t.count ∧
      headerCommitted (newHeader seq t) = 0 ∧
      ∀ i < t.count, headerTarget (newHeader seq t) i = t.targetBlocks i := by
  unfold newHeader
  dsimp only
  generalize hb : setCommitted (store (store (store (fun _ => 0) 4 0 journalMagic) 4 4 seq) 4 8
    t.count) 0 = base
  have h0 : load base 4 0 = journalMagic ∧ load base 4 8 = t.count ∧ load base 4 12 = 0 := by
    have hcount : t.count < 256^4 := lt_of_le_of_lt hc (by decide)
    rw [← hb]
    refine ⟨?_,?_,?_⟩
    · rw [header_other _ _ (by omega), load_store_disjoint _ _ _ _ _ _ (by omega),
        load_store_disjoint _ _ _ _ _ _ (by omega), load_store_of_lt _ _ _ _ (by decide)]
    · rw [header_other _ _ (by omega), load_store_of_lt _ _ _ _ hcount]
    · exact header_committed _ 0 (by decide)
  have hloop := iterate_rule (fun i h => store h 4 (16+4*i) (t.targetBlocks i))
    (fun k h => (∀ a, a+4 ≤ 16 → load h 4 a = load base 4 a) ∧
      ∀ i < k, i < t.count → load h 4 (16+4*i) = t.targetBlocks i) 0 t.count base
    ⟨fun _ _ => rfl,fun _ hi => absurd hi (by omega)⟩ (by
      rintro k h - hk ⟨h1,h2⟩
      constructor
      · intro a ha
        rw [load_store_disjoint _ _ _ _ _ _ (by omega), h1 a ha]
      · intro i hi hit
        by_cases hik : i = k
        · rw [hik, load_store_of_lt _ _ _ _ (ht k (by omega))]
        · rw [load_store_disjoint _ _ _ _ _ _ (by omega), h2 i (by omega) hit])
  obtain ⟨h1,h2⟩ := hloop
  refine ⟨?_,?_,?_,fun i hi => h2 i (by omega) hi⟩
  · rw [headerMagic, h1 0 (by omega), h0.1]
  · rw [headerBlockCount, h1 8 (by omega), h0.2.1]
  · rw [headerCommitted, h1 12 (by omega), h0.2.2]

/-- What `journal_log` builds, with distinct targets below the journal. -/
structure Valid (t : Txn) : Prop where
  active : t.active = true
  count : 1 ≤ t.count ∧ t.count ≤ journalMaxBlocks
  below : ∀ i < t.count, t.targetBlocks i*8+8 ≤ journalStartLba
  distinct : ∀ i < t.count, ∀ k < t.count, t.targetBlocks i = t.targetBlocks k → i = k

def InJournal (x : ℕ) : Prop := journalStartLba ≤ x ∧ x < journalStartLba+journalAreaSectors

def InTarget (x : ℕ) : Prop := ∃ i < t.count, ∃ j < 8, x = t.targetBlocks i*8+j

structure Unchanged (d0 d : Disk) : Prop where
  idle : ¬Pending d
  same : ∀ x, ¬InJournal x → d x = d0 x

structure Logged (d0 : Disk) (t : Txn) (d : Disk) : Prop where
  magic : headerMagic (header d) = journalMagic
  committed : headerCommitted (header d) = 1
  count : headerBlockCount (header d) = t.count
  targets : ∀ i < t.count, headerTarget (header d) i = t.targetBlocks i
  data : ∀ i < t.count, ∀ j < 8, d (journalStartLba+1+8*i+j) = sectorOf (t.blockData i) j
  same : ∀ x, ¬InJournal x → ¬InTarget t x → d x = d0 x

structure Applied (d0 : Disk) (t : Txn) (d : Disk) : Prop where
  idle : ¬Pending d
  targets : ∀ i < t.count, ∀ j < 8, d (t.targetBlocks i*8+j) = sectorOf (t.blockData i) j
  same : ∀ x, ¬InJournal x → ¬InTarget t x → d x = d0 x

theorem header_congr (d d' : Disk) (h : d journalStartLba = d' journalStartLba) (n a : ℕ)
    (hb : a+n ≤ sectorSize) : load (header d) n a = load (header d') n a := by
  apply load_congr
  intro i h1 h2
  unfold header ataReadSectors
  have hdiv : i/sectorSize = 0 := Nat.div_eq_of_lt (by omega)
  rw [hdiv, Nat.add_zero, h]

theorem pending_congr {d d' : Disk} (h : d journalStartLba = d' journalStartLba) :
    Pending d ↔ Pending d' := by
  unfold Pending headerMagic headerCommitted
  rw [header_congr d d' h 4 0 (by decide), header_congr d d' h 4 12 (by decide)]

theorem target_below (hv : Valid t) (i j : ℕ) (hi : i < t.count) (hj : j < 8) :
    t.targetBlocks i*8 % 2^32 = t.targetBlocks i*8 ∧ t.targetBlocks i*8+j < journalStartLba := by
  have := hv.below i hi
  unfold journalStartLba at *
  omega

theorem target_lbas (hv : Valid t) :
    blockWrites (fun i => t.targetBlocks i*8 % 2^32) t.blockData 0 t.count =
      blockWrites (fun i => t.targetBlocks i*8) t.blockData 0 t.count := by
  apply List.flatMap_congr
  intro k hk
  rw [List.mem_range'_1] at hk
  dsimp only
  rw [(target_below t hv k 0 (by omega) (by omega)).1]

theorem logged_write (hv : Valid t) {d : Disk} (h : Logged d0 t d) {i j : ℕ}
    (hi : i < t.count) (hj : j < 8) (b : Store) :
    Logged d0 t (update d (t.targetBlocks i*8+j) b) := by
  have hlow := (target_below t hv i j hi hj).2
  have hout : ∀ x, journalStartLba ≤ x →
      update d (t.targetBlocks i*8+j) b x = d x := by
    intro x hx
    exact update_of_ne (by omega) _ _
  have hh := fun n a hb => header_congr (update d (t.targetBlocks i*8+j) b) d
    (hout journalStartLba (le_refl _)) n a hb
  refine ⟨?_,?_,?_,?_,?_,?_⟩
  · rw [headerMagic, hh 4 0 (by decide)]
    exact h.magic
  · rw [headerCommitted, hh 4 12 (by decide)]
    exact h.committed
  · rw [headerBlockCount, hh 4 8 (by decide)]
    exact h.count
  · intro k hk
    have hk16 := hv.count.2
    unfold journalMaxBlocks at hk16
    rw [headerTarget, hh 4 (16+4*k) (by unfold sectorSize; omega)]
    exact h.targets k hk
  · intro k hk m hm
    rw [hout _ (by omega)]
    exact h.data k hk m hm
  · intro x hx hxt
    have hne : x ≠ t.targetBlocks i*8+j := fun hc => hxt ⟨i,hi,j,hj,hc⟩
    rw [update_of_ne hne]
    exact h.same x hx hxt

theorem blocks_apart (hv : Valid t) : ∀ i < t.count, ∀ k < t.count, i ≠ k →
    t.targetBlocks i*8+8 ≤ t.targetBlocks k*8 ∨ t.targetBlocks k*8+8 ≤ t.targetBlocks i*8 := by
  intro i hi k hk hne
  have : t.targetBlocks i ≠ t.targetBlocks k := fun hc => hne (hv.distinct i hi k hk hc)
  omega

theorem applied_of_logged (hv : Valid t) {d : Disk} (h : Logged d0 t d)
    (data : ℕ → Store) (hdata : ∀ i < t.count, ∀ j < 8, sectorOf (data i) j = sectorOf (t.blockData i) j)
    (hdr : Store) :
    Through (Logged d0 t) d (blockWrites (fun i => t.targetBlocks i*8) data 0 t.count) ∧
      Applied d0 t (apply d (blockWrites (fun i => t.targetBlocks i*8) data 0 t.count++
        sectorWrites journalStartLba 1 (setCommitted hdr 2))) := by
  have hthrough : Through (Logged d0 t) d
      (blockWrites (fun i => t.targetBlocks i*8) data 0 t.count) := by
    apply through_step _ _ _ h
    intro w hw x hx
    obtain ⟨i,hi,j,hj,rfl⟩ := (mem_block_writes _ _ _ w).mp hw
    exact logged_write d0 t hv hx hi hj _
  have hlog := through_last _ _ _ hthrough
  refine ⟨hthrough,?_⟩
  have harr := blocks_arrive d (fun i => t.targetBlocks i*8) data t.count (blocks_apart t hv)
  rw [apply_append]
  generalize apply d (blockWrites (fun i => t.targetBlocks i*8) data 0 t.count) = x at hlog harr
  have hx : apply x (sectorWrites journalStartLba 1 (setCommitted hdr 2)) =
      update x journalStartLba (sectorOf (setCommitted hdr 2) 0) := rfl
  rw [hx]
  refine ⟨?_,?_,?_⟩
  · exact not_pending _ hdr 2 (by decide) (by decide) (by rw [update_self])
  · intro i hi j hj
    have hlow := (target_below t hv i j hi hj).2
    rw [update_of_ne (by omega), harr i j hi hj, hdata i hi j hj]
  · intro y hy hyt
    have hne : y ≠ journalStartLba := by
      rintro rfl
      exact hy ⟨le_refl _,by decide⟩
    rw [update_of_ne hne]
    exact hlog.same y hy hyt

theorem commit_log (j : State) {t : Txn} (hv : Valid t) (d : Disk) :
    (journalCommit j t ⟨d,[]⟩).2.2.1.log =
      sectorWrites journalStartLba 1 (newHeader j.seq t) ++
      (blockWrites (fun i => journalStartLba+1+8*i) t.blockData 0 t.count ++
      (sectorWrites journalStartLba 1 (setCommitted (newHeader j.seq t) 1) ++
      (blockWrites (fun i => t.targetBlocks i*8) t.blockData 0 t.count ++
      sectorWrites journalStartLba 1 (setCommitted (newHeader j.seq t) 2)))) ∧
      (journalCommit j t ⟨d,[]⟩).2.2.2 = 0 := by
  have hgo : ¬(t.active = false ∨ t.count = 0) := by
    rw [hv.active]
    have := hv.count.1
    simp
    omega
  rw [journalCommit, if_neg hgo]
  refine ⟨?_,rfl⟩
  dsimp only
  rw [write_blocks, write_blocks, ← target_lbas t hv]
  simp only [ataWriteSectors, List.nil_append, List.append_assoc]

theorem commit_unchanged (h0 : ¬Pending d0) (seq : ℕ) (t : Txn) (hv : Valid t) :
    Through (Unchanged d0) d0 (sectorWrites journalStartLba 1 (newHeader seq t) ++
      blockWrites (fun i => journalStartLba+1+8*i) t.blockData 0 t.count) := by
  have hfields := new_header seq hv.count.2 (fun i hi => by
    have := hv.below i hi
    unfold journalStartLba at this
    omega)
  refine through_step (Unchanged d0) d0 _ ⟨h0,fun _ _ => rfl⟩ ?_
  intro w hw x hx
  rcases List.mem_append.mp hw with hw | hw
  · obtain ⟨k,hk,rfl⟩ := (mem_sector_writes _ _ _ w).mp hw
    have hk0 : k = 0 := by omega
    subst hk0
    constructor
    · rintro ⟨-,hc⟩
      rw [headerCommitted, header_load _ (newHeader seq t) (by
        rw [Nat.add_zero, update_self]) 4 12 (by decide)] at hc
      have := hfields.2.2.1
      unfold headerCommitted at this
      omega
    · intro y hy
      have hne : y ≠ journalStartLba+0 := by
        rintro rfl
        exact hy ⟨le_refl _,by decide⟩
      rw [update_of_ne hne]
      exact hx.same y hy
  · obtain ⟨i,hi,k,hk,rfl⟩ := (mem_block_writes _ _ _ w).mp hw
    have hcount := hv.count.2
    unfold journalMaxBlocks at hcount
    constructor
    · rw [pending_congr]
      · exact hx.idle
      · exact update_of_ne (by dsimp only; omega) _ _
    · intro y hy
      have hne : y ≠ journalStartLba+1+8*i+k := by
        rintro rfl
        exact hy ⟨by omega,by unfold journalAreaSectors; omega⟩
      rw [update_of_ne hne]
      exact hx.same y hy

theorem commit_logged (h0 : ¬Pending d0) (seq : ℕ) {t : Txn} (hv : Valid t) :
    Logged d0 t (apply (apply (apply d0 (sectorWrites journalStartLba 1 (newHeader seq t)))
      (blockWrites (fun i => journalStartLba+1+8*i) t.blockData 0 t.count))
      (sectorWrites journalStartLba 1 (setCommitted (newHeader seq t) 1))) := by
  have hun := through_last _ _ _ (commit_unchanged d0 h0 seq t hv)
  rw [apply_append] at hun
  have harr := blocks_arrive (apply d0 (sectorWrites journalStartLba 1 (newHeader seq t)))
    (fun i => journalStartLba+1+8*i) t.blockData t.count (fun i _ k _ hne => by omega)
  obtain ⟨f1,f2,-,f4⟩ := new_header seq hv.count.2 (fun i hi => by
    have := hv.below i hi
    unfold journalStartLba at this
    omega)
  generalize apply (apply d0 (sectorWrites journalStartLba 1 (newHeader seq t)))
    (blockWrites (fun i => journalStartLba+1+8*i) t.blockData 0 t.count) = x at hun harr
  have hx : apply x (sectorWrites journalStartLba 1 (setCommitted (newHeader seq t) 1)) =
    update x journalStartLba (sectorOf (setCommitted (newHeader seq t) 1) 0) := rfl
  rw [hx]
  have hl := fun n a hb => header_load (update x journalStartLba
    (sectorOf (setCommitted (newHeader seq t) 1) 0)) (setCommitted (newHeader seq t) 1)
    (update_self _ _ _) n a hb
  refine ⟨?_,?_,?_,?_,?_,?_⟩
  · exact f1
  · rw [headerCommitted, hl 4 12 (by decide)]
    exact header_committed _ 1 (by decide)
  · exact f2
  · intro i hi
    have hcount := hv.count.2
    unfold journalMaxBlocks at hcount
    rw [headerTarget, hl 4 _ (by unfold sectorSize; omega), header_other _ _ (by omega)]
    exact f4 i hi
  · intro i hi k hk
    rw [update_of_ne (by omega)]
    exact harr i k hi hk
  · intro y hy _
    have hne : y ≠ journalStartLba := by
      rintro rfl
      exact hy ⟨le_refl _,by decide⟩
    rw [update_of_ne hne]
    exact hun.same y hy

def Stage : Prop :=
  Unchanged d0 d ∨ Logged d0 t d ∨ Applied d0 t d

theorem one_write (P : Disk → Prop) (d : Disk) (h : Store) (h0 : P d)
    (h1 : P (apply d (sectorWrites journalStartLba 1 h))) :
    Through P d (sectorWrites journalStartLba 1 h) := by
  intro k
  cases k with
  | zero => exact h0
  | succ k =>
    rw [cut, List.take_of_length_le (by simp [sectorWrites])]
    exact h1

theorem commit_stages (j : State) {t : Txn} (hv : Valid t) {d0 : Disk} (h0 : ¬Pending d0) :
    Through (Stage d0 t) d0 (journalCommit j t ⟨d0,[]⟩).2.2.1.log ∧
      Applied d0 t (apply d0 (journalCommit j t ⟨d0,[]⟩).2.2.1.log) := by
  have hun := commit_unchanged d0 h0 j.seq t hv
  have hlogged := commit_logged d0 h0 j.seq hv
  obtain ⟨hthrough,happ⟩ := applied_of_logged d0 t hv hlogged t.blockData (fun _ _ _ _ => rfl)
    (newHeader j.seq t)
  rw [(commit_log j hv d0).1]
  constructor
  · apply through_append _ _ (through_mono _ _ _ (fun _ => Or.inl) hun)
    apply through_append
    · apply one_write
      · have := through_last _ _ _ hun
        exact Or.inl this
      · exact Or.inr (Or.inl hlogged)
    · apply through_append _ _ (through_mono _ _ _ (fun _ h => Or.inr (Or.inl h)) hthrough)
      apply one_write
      · exact Or.inr (Or.inl (through_last _ _ _ hthrough))
      · rw [← apply_append]
        exact Or.inr (Or.inr happ)
  · rw [apply_append, apply_append]
    exact happ

theorem recover_idle (h : ¬Pending d) :
    journalRecover journalInit ⟨d,[]⟩ = (⟨d,[]⟩,0) := by
  unfold journalRecover
  rw [if_neg (by simp [journalInit])]
  by_cases hm : headerMagic (ataReadSectors d journalStartLba) ≠ journalMagic
  · rw [if_pos hm]
  · rw [if_neg hm, if_neg]
    intro hc
    exact h ⟨not_not.mp hm,hc⟩

theorem replay_blocks (hv : Valid t) (h : Store) (d : Disk)
    (ht : ∀ i < t.count, headerTarget h i = t.targetBlocks i) :
    iterate (fun i v => ataWriteSectors v (headerTarget h i*8 % 2^32) 8
        (ataReadSectors v.disk (journalStartLba+1+8*i))) 0 t.count ⟨d,[]⟩ =
      ⟨apply d (blockWrites (fun i => t.targetBlocks i*8)
        (fun i => ataReadSectors d (journalStartLba+1+8*i)) 0 t.count),
        blockWrites (fun i => t.targetBlocks i*8)
        (fun i => ataReadSectors d (journalStartLba+1+8*i)) 0 t.count⟩ := by
  have hsplit : ∀ n, blockWrites (fun i => t.targetBlocks i*8)
      (fun i => ataReadSectors d (journalStartLba+1+8*i)) 0 (n+1) =
      blockWrites (fun i => t.targetBlocks i*8)
      (fun i => ataReadSectors d (journalStartLba+1+8*i)) 0 n ++
      sectorWrites (t.targetBlocks n*8) 8 (ataReadSectors d (journalStartLba+1+8*n)) := by
    intro n
    rw [blockWrites, List.range'_1_concat, blockWrites]
    simp
  have hloop := iterate_rule (fun i (v : Drive) =>
      ataWriteSectors v (headerTarget h i*8 % 2^32) 8
        (ataReadSectors v.disk (journalStartLba+1+8*i)))
    (fun n v => n ≤ t.count → v = ⟨apply d (blockWrites (fun i => t.targetBlocks i*8)
      (fun i => ataReadSectors d (journalStartLba+1+8*i)) 0 n),
      blockWrites (fun i => t.targetBlocks i*8)
      (fun i => ataReadSectors d (journalStartLba+1+8*i)) 0 n⟩) 0 t.count ⟨d,[]⟩
    (fun _ => rfl) (by
      intro n v _ hn ih _
      have hn' : n < t.count := by omega
      rw [ih (by omega), ht n hn', (target_below t hv n 0 hn' (by omega)).1, ataWriteSectors, hsplit n,
        apply_append]
      have hread : ataReadSectors (apply d (blockWrites (fun i => t.targetBlocks i*8)
          (fun i => ataReadSectors d (journalStartLba+1+8*i)) 0 n)) (journalStartLba+1+8*n) =
          ataReadSectors d (journalStartLba+1+8*n) := by
        funext o
        unfold ataReadSectors
        rw [apply_other]
        intro w hw
        obtain ⟨i,hi,k,hk,rfl⟩ := (mem_block_writes _ _ _ w).mp hw
        have := (target_below t hv i k (by omega) hk).2
        generalize o/sectorSize = q
        omega
      rw [hread])
  have := hloop (by omega)
  rw [Nat.zero_add] at this
  exact this

theorem recover_logged (hv : Valid t) {d : Disk} (h : Logged d0 t d) :
    Through (Stage d0 t) d (journalRecover journalInit ⟨d,[]⟩).1.log ∧
      Applied d0 t (journalRecover journalInit ⟨d,[]⟩).1.disk ∧
      (journalRecover journalInit ⟨d,[]⟩).2 = 1 ∧
      (journalRecover journalInit ⟨d,[]⟩).1.disk =
        apply d (journalRecover journalInit ⟨d,[]⟩).1.log := by
  have hcount : min (headerBlockCount (header d)) journalMaxBlocks = t.count := by
    rw [h.count]
    exact Nat.min_eq_left hv.count.2
  have heq : journalRecover journalInit ⟨d,[]⟩ =
      (⟨apply d (blockWrites (fun i => t.targetBlocks i*8)
        (fun i => ataReadSectors d (journalStartLba+1+8*i)) 0 t.count ++
        sectorWrites journalStartLba 1 (setCommitted (header d) 2)),
        blockWrites (fun i => t.targetBlocks i*8)
        (fun i => ataReadSectors d (journalStartLba+1+8*i)) 0 t.count ++
        sectorWrites journalStartLba 1 (setCommitted (header d) 2)⟩,1) := by
    unfold journalRecover
    rw [if_neg (show ¬(headerMagic (ataReadSectors d journalStartLba) ≠ journalMagic) from
      not_not.mpr h.magic), if_pos (show headerCommitted (ataReadSectors d journalStartLba) = 1 from
      h.committed)]
    change (ataWriteSectors (iterate _ 0 (min (headerBlockCount (header d)) journalMaxBlocks) _) _ _ _,1)
      = _
    rw [hcount, replay_blocks t hv (ataReadSectors d journalStartLba) d h.targets, ataWriteSectors,
      apply_append]
    rfl
  obtain ⟨hthrough,happ⟩ := applied_of_logged d0 t hv h
    (fun i => ataReadSectors d (journalStartLba+1+8*i))
    (fun i hi j hj => read_sectors d (h.data i hi) hj) (header d)
  rw [heq]
  refine ⟨?_,happ,rfl,rfl⟩
  apply through_append _ _ (through_mono _ _ _ (fun _ hl => Or.inr (Or.inl hl)) hthrough)
  apply one_write
  · exact Or.inr (Or.inl (through_last _ _ _ hthrough))
  · rw [← apply_append]
    exact Or.inr (Or.inr happ)

/-- The disks after any number of recoveries that were cut short. -/
inductive Rebooted (d : Disk) : Disk → Prop where
  | start : Rebooted d d
  | crash (x : Disk) (k : ℕ) (h : Rebooted d x) :
      Rebooted d (cut x (journalRecover journalInit ⟨x,[]⟩).1.log k)

theorem rebooted_stage (hv : Valid t) {d x : Disk} (h : Stage d0 t d)
    (hr : Rebooted d x) : Stage d0 t x ∧ (Applied d0 t d → Applied d0 t x) := by
  induction hr with
  | start => exact ⟨h,fun ha => ha⟩
  | crash y k _ ih =>
    have hidle : ¬Pending y → cut y (journalRecover journalInit ⟨y,[]⟩).1.log k = y := by
      intro hp
      rw [recover_idle y hp, cut, List.take_nil]
      rfl
    constructor
    · rcases ih.1 with hu | hl | ha
      · rw [hidle hu.idle]
        exact Or.inl hu
      · exact (recover_logged d0 t hv hl).1 k
      · rw [hidle ha.idle]
        exact Or.inr (Or.inr ha)
    · intro ha
      have hy := ih.2 ha
      rw [hidle hy.idle]
      exact hy

def HasOld : Prop :=
  ∀ i < t.count, ∀ j < 8, d (t.targetBlocks i*8+j) = d0 (t.targetBlocks i*8+j)

def HasNew : Prop :=
  ∀ i < t.count, ∀ j < 8, d (t.targetBlocks i*8+j) = sectorOf (t.blockData i) j

theorem recovered (hv : Valid t) {d : Disk} (h : Stage d0 t d) :
    0 ≤ (journalRecover journalInit ⟨d,[]⟩).2 ∧
      (HasOld d0 t (journalRecover journalInit ⟨d,[]⟩).1.disk ∨
        HasNew t (journalRecover journalInit ⟨d,[]⟩).1.disk) ∧
      (Applied d0 t d → HasNew t (journalRecover journalInit ⟨d,[]⟩).1.disk) ∧
      ∀ x, ¬InJournal x → ¬InTarget t x →
        (journalRecover journalInit ⟨d,[]⟩).1.disk x = d0 x := by
  have hdone : Applied d0 t d → journalRecover journalInit ⟨d,[]⟩ = (⟨d,[]⟩,0) :=
    fun ha => recover_idle d ha.idle
  have hnew : Applied d0 t d → HasNew t (journalRecover journalInit ⟨d,[]⟩).1.disk := by
    intro ha
    rw [hdone ha]
    exact ha.targets
  rcases h with hu | hl | ha
  · refine ⟨?_,?_,hnew,?_⟩
    · rw [recover_idle d hu.idle]
    · rw [recover_idle d hu.idle]
      left
      intro i hi j hj
      apply hu.same
      have := (target_below t hv i j hi hj).2
      unfold InJournal
      omega
    · rw [recover_idle d hu.idle]
      exact fun x hx _ => hu.same x hx
  · obtain ⟨-,happ,hret,-⟩ := recover_logged d0 t hv hl
    refine ⟨by rw [hret]; decide,Or.inr happ.targets,hnew,happ.same⟩
  · refine ⟨?_,Or.inr (hnew ha),hnew,?_⟩
    · rw [hdone ha]
    · rw [hdone ha]
      exact ha.same

/-- A commit cut after `k` sector writes, then any number of cut recoveries,
then a complete one. -/
theorem journal_crash_atomic (j : State) (t : Txn) (hv : Valid t) (d0 : Disk) (h0 : ¬Pending d0)
    (k : ℕ) (d : Disk) (h : Rebooted (cut d0 (journalCommit j t ⟨d0,[]⟩).2.2.1.log k) d) :
    (journalCommit j t ⟨d0,[]⟩).2.2.2 = 0 ∧ 0 ≤ (journalRecover journalInit ⟨d,[]⟩).2 ∧
      (HasOld d0 t (journalRecover journalInit ⟨d,[]⟩).1.disk ∨
        HasNew t (journalRecover journalInit ⟨d,[]⟩).1.disk) ∧
      ((journalCommit j t ⟨d0,[]⟩).2.2.1.log.length ≤ k →
        HasNew t (journalRecover journalInit ⟨d,[]⟩).1.disk) ∧
      ∀ x, ¬InJournal x → ¬InTarget t x →
        (journalRecover journalInit ⟨d,[]⟩).1.disk x = d0 x := by
  obtain ⟨hthrough,happ⟩ := commit_stages j hv h0
  obtain ⟨hstage,hkeep⟩ := rebooted_stage d0 t hv (hthrough k) h
  obtain ⟨h1,h2,h3,h4⟩ := recovered d0 t hv hstage
  refine ⟨(commit_log j hv d0).2,h1,h2,?_,h4⟩
  intro hk
  apply h3
  apply hkeep
  rw [cut, List.take_of_length_le hk]
  exact happ

def oneBlock : Txn :=
  { targetBlocks := fun _ => 3, blockData := fun _ _ => 7, count := 1, active := true }

theorem one_block_valid : Valid oneBlock := by
  refine ⟨rfl,by decide,?_,?_⟩
  · intro i _
    change 3*8+8 ≤ 65536
    omega
  · intro i hi k hk _
    change i < 1 at hi
    change k < 1 at hk
    omega

theorem blank_idle : ¬Pending (fun _ _ => 0) := by
  rintro ⟨hm,-⟩
  have hz : headerMagic (header fun _ _ => 0) = 0 := load_zero 4 0
  cases hm

/-- A blank disk, the power lost in the middle of the journal's data. -/
theorem journal_crash_atomic_blank :
    HasOld (fun _ _ => 0) oneBlock (journalRecover journalInit
        ⟨cut (fun _ _ => 0) (journalCommit journalInit oneBlock ⟨fun _ _ => 0,[]⟩).2.2.1.log 5,[]⟩).1.disk ∨
      HasNew oneBlock (journalRecover journalInit
        ⟨cut (fun _ _ => 0) (journalCommit journalInit oneBlock ⟨fun _ _ => 0,[]⟩).2.2.1.log 5,[]⟩).1.disk :=
  (journal_crash_atomic journalInit oneBlock one_block_valid (fun _ _ => 0) blank_idle 5 _
    Rebooted.start).2.2.1

/-- Whatever the header says, a second recovery has nothing to do. -/
theorem recover_twice : journalRecover journalInit ⟨(journalRecover journalInit ⟨d,[]⟩).1.disk,[]⟩ =
    (⟨(journalRecover journalInit ⟨d,[]⟩).1.disk,[]⟩,0) := by
  apply recover_idle
  by_cases h : Pending d
  · unfold Pending header at h
    rw [journalRecover, if_neg (by simp [journalInit])]
    dsimp only
    rw [if_neg (not_not.mpr h.1), if_pos h.2]
    exact not_pending _ (header d) 2 (by decide) (by decide)
      (by simp [ataWriteSectors, sectorWrites, apply, header])
  · rwa [recover_idle d h]

end HobbyOS.JournalCrash

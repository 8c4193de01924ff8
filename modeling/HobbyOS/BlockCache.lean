import HobbyOS.ByteStore
import HobbyOS.HashChain

/-!
# The block cache

`drivers/blockcache.c` over the sectors of `ata.c`, beside a plain disk that
takes every modification at once. The cache answers with what the plain disk
holds as long as no two block numbers in use share sectors: `lba` is a 32-bit
product and the drive is sent its low 28 bits.
-/

namespace HobbyOS.BlockCache
open ByteStore IntrusiveQueue HashChain Function

def bcacheSize : ℕ := 256
def bcacheHashSize : ℕ := 64

abbrev Slot := Fin bcacheSize
abbrev Bucket := Fin bcacheHashSize

/-- `struct bcache_entry`; `buffered` says that `data` is not null. -/
structure Entry where
  blockNo : ℕ := 0
  buffered : Bool := false
  data : Store := fun _ => 0
  dirty : Bool := false
  valid : Bool := false
  inUse : Bool := false
  refcount : ℕ := 0
  lruTick : ℕ := 0
  hashNext : Option Slot := none

structure Cache where
  cache : Slot → Entry := fun _ => {}
  hashTable : Bucket → Option Slot := fun _ => none
  ready : Bool := false
  hits : ℕ := 0
  misses : ℕ := 0
  blockSize : ℕ := 1024
  disk : Store

variable (s : Cache) (i : Slot) (disk : Store) (b : ℕ)

def hashFn : Bucket := ⟨b % bcacheHashSize,Nat.mod_lt _ (by decide)⟩

def setEntry (f : Entry → Entry) : Cache :=
  { s with cache := update s.cache i (f (s.cache i)) }

/-- `bcache_init`; the first `n` buffers can be allocated. -/
def bcacheInit (n : ℕ) : Cache where
  cache := fun i => { buffered := i.val < n }
  ready := true
  disk := disk

def sectorsPerBlock (bs : ℕ) : ℕ := bs/512

/-- The bytes that one transfer moves: a count of 0 asks for 256 sectors. -/
def transfer (bs : ℕ) : ℕ :=
  512*(if sectorsPerBlock bs % 256 = 0 then 256 else sectorsPerBlock bs % 256)

/-- The first byte of block `b`: the drive is sent 28 bits of the sector number. -/
def address (bs b : ℕ) : ℕ := 512*(b*sectorsPerBlock bs % 2^32 % 2^28)

def bcacheDiskRead (buf : Store) : Store :=
  copy buf (transfer s.blockSize) 0 s.disk (address s.blockSize b)

def bcacheDiskWrite (buf : Store) : Cache :=
  { s with disk := copy s.disk (transfer s.blockSize) (address s.blockSize b) buf 0 }

def chains : Chains Slot Bucket := ⟨s.hashTable,fun i => (s.cache i).hashNext⟩

def setChains (c : Chains Slot Bucket) : Cache :=
  { s with hashTable := c.head, cache := fun i => { s.cache i with hashNext := c.next i } }

def bcacheHashFind : Option Slot :=
  find (chains s).next (fun i => (s.cache i).valid && (s.cache i).blockNo == b) bcacheSize
    ((chains s).head (hashFn b))

def bcacheHashRemove : Cache :=
  setChains s (unlink (chains s) (hashFn (s.cache i).blockNo) i bcacheSize)

def bcacheHashInsert : Cache :=
  setChains s (push (chains s) (hashFn (s.cache i).blockNo) i)

/-- The first pass: an unused slot at once, or the oldest clean unpinned entry. -/
def cleanPass (s : Cache) : List Slot → ℕ → Option Slot → Slot ⊕ (ℕ × Option Slot)
  | [], tick, best => .inr (tick,best)
  | i::is, tick, best =>
    if (s.cache i).buffered = false then cleanPass s is tick best
    else if (s.cache i).valid = false then .inl i
    else if (s.cache i).refcount = 0 ∧ (s.cache i).dirty = false ∧ (s.cache i).lruTick < tick then
      cleanPass s is (s.cache i).lruTick (some i)
    else cleanPass s is tick best

def dirtyPass (s : Cache) : List Slot → ℕ → Option Slot → Option Slot
  | [], _, best => best
  | i::is, tick, best =>
    if (s.cache i).buffered = false ∨ (s.cache i).valid = false then dirtyPass s is tick best
    else if (s.cache i).refcount = 0 ∧ (s.cache i).lruTick < tick then
      dirtyPass s is (s.cache i).lruTick (some i)
    else dirtyPass s is tick best

def writeBack : Cache :=
  setEntry (bcacheDiskWrite s (s.cache i).blockNo (s.cache i).data) i fun e => { e with dirty := false }

def vacate : Cache :=
  setEntry (bcacheHashRemove s i) i fun e => { e with valid := false }

def bcacheEvict : Cache × Option Slot :=
  match cleanPass s (List.finRange bcacheSize) (2^32-1) none with
  | .inl i => (s,some i)
  | .inr (_,some i) => (vacate s i,some i)
  | .inr (tick,none) =>
    match dirtyPass s (List.finRange bcacheSize) tick none with
    | some i => (vacate (if (s.cache i).dirty then writeBack s i else s) i,some i)
    | none => (s,none)

def pinEntry (tick : ℕ) : Cache :=
  setEntry s i fun e => { e with refcount := (e.refcount+1) % 2^32, lruTick := tick % 2^32 }

def claimSlot (b tick : ℕ) : Cache :=
  setEntry s i fun e => { e with blockNo := b, dirty := false, refcount := 1, lruTick := tick % 2^32 }

def fillSlot : Cache :=
  setEntry s i fun e => { e with data := bcacheDiskRead s b e.data, valid := true, inUse := true }

def loadBlock : Cache := bcacheHashInsert (fillSlot s i b) i

/-- `bcache_get` at the timer tick `tick`; `ok` is whether a disk read succeeds. -/
def bcacheGet (b tick : ℕ) (ok : Bool) : Cache × Option Slot :=
  if s.ready = false then (s,none)
  else
    match bcacheHashFind s b with
    | some i => ({ pinEntry s i tick with hits := s.hits+1 },some i)
    | none =>
      match bcacheEvict { s with misses := s.misses+1 } with
      | (s,none) => (s,none)
      | (s,some i) =>
        if ok then (loadBlock (claimSlot s i b tick) i b,some i)
        else (setEntry (claimSlot s i b tick) i fun e => { e with valid := false },none)

def bcacheRelease : Cache :=
  setEntry s i fun e => { e with refcount := e.refcount-1 }

def bcacheMarkDirty : Cache := setEntry s i fun e => { e with dirty := true }

def bcacheSync : Cache :=
  if s.ready = false then s
  else (List.finRange bcacheSize).foldl
    (fun s i => if (s.cache i).valid ∧ (s.cache i).dirty then writeBack s i else s) s

/-- The cache, the disk that takes each modification at once, and the entries
with a modification that is not marked yet. -/
structure Sys where
  cache : Cache
  plain : Store
  unmarked : Slot → Bool := fun _ => false

inductive Op where
  | get (b tick : ℕ)
  | modify (i : Slot) (data : Store)
  | markDirty (i : Slot)
  | release (i : Slot)
  | sync

def step (s : Sys) : Op → Sys
  | .get b tick => { s with cache := (bcacheGet s.cache b tick true).1 }
  | .modify i data => {
      cache := setEntry s.cache i fun e => { e with data := data }
      plain := copy s.plain (transfer s.cache.blockSize)
        (address s.cache.blockSize (s.cache.cache i).blockNo) data 0
      unmarked := update s.unmarked i true }
  | .markDirty i => { s with
      cache := bcacheMarkDirty s.cache i, unmarked := update s.unmarked i false }
  | .release i => { s with cache := bcacheRelease s.cache i }
  | .sync => { s with cache := bcacheSync s.cache }

/-- Only pinned entries are modified, a modified entry stays pinned until it
is marked, and the block numbers come from `B`. -/
def Allowed (B : Set ℕ) (s : Sys) : Op → Prop
  | .get b _ => b ∈ B ∧ ∀ i, s.unmarked i = true → (s.cache.cache i).refcount+1 < 2^32
  | .modify i _ => (s.cache.cache i).valid = true ∧ 0 < (s.cache.cache i).refcount
  | .release i => s.unmarked i = true → 1 < (s.cache.cache i).refcount
  | _ => True

inductive Reach (disk : Store) (n : ℕ) (B : Set ℕ) : Sys → Prop where
  | init : Reach disk n B ⟨bcacheInit disk n,disk,fun _ => false⟩
  | step (s : Sys) (op : Op) (hs : Reach disk n B s) (ha : Allowed B s op) : Reach disk n B (step s op)

/-- No two of the block numbers share a sector. -/
def Apart (bs : ℕ) (B : Set ℕ) : Prop :=
  ∀ b ∈ B, ∀ b' ∈ B, b ≠ b' →
    address bs b+transfer bs ≤ address bs b' ∨ address bs b'+transfer bs ≤ address bs b

def OnChain (h : Bucket) (i : Slot) : Prop :=
  ∃ l, Linked (chains s).next (s.hashTable h) l ∧ i ∈ l

def Lives (h : Bucket) : Prop :=
  (s.cache i).valid = true ∧ hashFn (s.cache i).blockNo = h

def Covers (a : ℕ) : Prop :=
  address s.blockSize (s.cache i).blockNo ≤ a ∧
    a < address s.blockSize (s.cache i).blockNo+transfer s.blockSize

structure Inv (B : Set ℕ) (s : Cache) (plain : Store) (unmarked : Slot → Bool) : Prop where
  ready : s.ready = true
  size : s.blockSize = 1024
  lists : ∃ q, Holds (chains s) q ∧ ∀ i h, i ∈ q h ↔ Lives s i h
  unique : ∀ i j, (s.cache i).valid = true → (s.cache j).valid = true →
    (s.cache i).blockNo = (s.cache j).blockNo → i = j
  asked : ∀ i, (s.cache i).valid = true → (s.cache i).blockNo ∈ B
  data : ∀ i, (s.cache i).valid = true → ∀ k < transfer s.blockSize,
    (s.cache i).data k = plain (address s.blockSize (s.cache i).blockNo+k)
  /-- The disk may lag behind only under a dirty or a still unmarked entry. -/
  disk : ∀ a, s.disk a ≠ plain a →
    ∃ i, (s.cache i).valid = true ∧ ((s.cache i).dirty = true ∨ unmarked i = true) ∧ Covers s i a
  pinned : ∀ i, unmarked i = true → (s.cache i).valid = true ∧ (s.cache i).refcount ≠ 0

variable (is : List Slot) (tick : ℕ)

section Preservation

variable {B : Set ℕ} {s : Cache} {plain : Store} {unmarked : Slot → Bool}

theorem set_entry_self (s : Cache) (i : Slot) (f : Entry → Entry) :
    (setEntry s i f).cache i = f (s.cache i) := update_self ..

theorem set_entry_other (s : Cache) {i j : Slot} (f : Entry → Entry) (h : j ≠ i) :
    (setEntry s i f).cache j = s.cache j := update_of_ne h ..

theorem set_entry_field {γ : Type} (g : Entry → γ) (s : Cache) (i j : Slot) (f : Entry → Entry)
    (h : g (f (s.cache i)) = g (s.cache i)) : g ((setEntry s i f).cache j) = g (s.cache j) := by
  by_cases hj : j = i
  · rw [hj, set_entry_self, h]
  · rw [set_entry_other s f hj]

theorem lists_congr (s s' : Cache) (ht : s'.hashTable = s.hashTable)
    (h : ∀ i, (s'.cache i).hashNext = (s.cache i).hashNext ∧ (s'.cache i).valid = (s.cache i).valid ∧
      (s'.cache i).blockNo = (s.cache i).blockNo)
    (hl : ∃ q, Holds (chains s) q ∧ ∀ i h, i ∈ q h ↔ Lives s i h) :
    ∃ q, Holds (chains s') q ∧ ∀ i h, i ∈ q h ↔ Lives s' i h := by
  have hc : chains s' = chains s := by
    unfold chains
    congr 1
    funext i
    exact (h i).1
  obtain ⟨q,hq,hm⟩ := hl
  refine ⟨q,hc ▸ hq,fun i b => ?_⟩
  rw [hm, Lives, Lives, (h i).2.1, (h i).2.2]

theorem inv_write_back (h : Inv B s plain unmarked) {i : Slot} (hv : (s.cache i).valid = true) :
    Inv B (writeBack s i) plain unmarked := by
  have hf : ∀ {γ : Type} (g : Entry → γ), (∀ e, g { e with dirty := false } = g e) →
      ∀ j, g ((writeBack s i).cache j) = g (s.cache j) := by
    intro γ g hg j
    exact set_entry_field g _ i j _ (hg _)
  have hval := hf Entry.valid (fun _ => rfl)
  have hno := hf Entry.blockNo (fun _ => rfl)
  have hdata := hf Entry.data (fun _ => rfl)
  have href := hf Entry.refcount (fun _ => rfl)
  refine ⟨h.ready,h.size,?_,?_,?_,?_,?_,?_⟩
  · exact lists_congr s _ rfl (fun j => ⟨hf Entry.hashNext (fun _ => rfl) j,hval j,hno j⟩) h.lists
  · intro j k hj hk hb
    rw [hval] at hj hk
    rw [hno, hno] at hb
    exact h.unique j k hj hk hb
  · intro j hj
    rw [hval] at hj
    rw [hno]
    exact h.asked j hj
  · intro j hj k hk
    rw [hval] at hj
    rw [hdata, hno]
    exact h.data j hj k hk
  · intro a ha
    have hd : (writeBack s i).disk a = copy s.disk (transfer s.blockSize)
        (address s.blockSize (s.cache i).blockNo) (s.cache i).data 0 a := rfl
    by_cases hc : Covers s i a <;> unfold Covers at hc
    · -- the bytes just written are those of the plain disk
      rw [hd, copy, if_pos hc, h.data i hv _ (by have := hc.2; omega)] at ha
      exact absurd (congrArg plain (by have := hc.1; omega)) ha
    · rw [hd, copy, if_neg hc] at ha
      obtain ⟨j,hj,hdj,hcj⟩ := h.disk a ha
      have hji : j ≠ i := by
        rintro rfl
        exact hc hcj
      have hsame : (writeBack s i).cache j = s.cache j := set_entry_other _ _ hji
      refine ⟨j,?_,?_,?_⟩
      · rw [hsame, hj]
      · rw [hsame]
        exact hdj
      · rw [Covers, hsame]
        exact hcj
  · intro j hj
    rw [hval, href]
    exact h.pinned j hj

theorem write_back_clean (s : Cache) (i : Slot) : ((writeBack s i).cache i).dirty = false := by
  rw [writeBack, set_entry_self]

theorem chain_length (q : Bucket → List Slot) (hq : Holds (chains s) q) (b : Bucket) : (q b).length ≤ bcacheSize := by
  have := (hq.nodup b).length_le_card
  rwa [Fintype.card_fin] at this

theorem vacate_fields (s : Cache) (i j : Slot) :
    ((vacate s i).cache j).blockNo = (s.cache j).blockNo ∧
    ((vacate s i).cache j).data = (s.cache j).data ∧
    ((vacate s i).cache j).dirty = (s.cache j).dirty ∧
    ((vacate s i).cache j).refcount = (s.cache j).refcount ∧
    (j ≠ i → ((vacate s i).cache j).valid = (s.cache j).valid) ∧
    ((vacate s i).cache i).valid = false := by
  refine ⟨?_,?_,?_,?_,?_,?_⟩
  · exact set_entry_field Entry.blockNo (bcacheHashRemove s i) i j _ rfl
  · exact set_entry_field Entry.data (bcacheHashRemove s i) i j _ rfl
  · exact set_entry_field Entry.dirty (bcacheHashRemove s i) i j _ rfl
  · exact set_entry_field Entry.refcount (bcacheHashRemove s i) i j _ rfl
  · intro hj
    rw [vacate, set_entry_other _ _ hj]
    rfl
  · rw [vacate, set_entry_self]

theorem lists_vacate (h : Inv B s plain unmarked) {i : Slot} (hv : (s.cache i).valid = true) :
    ∃ q, Holds (chains (vacate s i)) q ∧ ∀ j b, j ∈ q b ↔ Lives (vacate s i) j b := by
  obtain ⟨q,hq,hm⟩ := h.lists
  have hi : i ∈ q (hashFn (s.cache i).blockNo) := (hm i _).mpr ⟨hv,rfl⟩
  have hu := holds_unlink (chains s) q hq _ i bcacheSize hi (chain_length q hq _)
  have hc : chains (vacate s i) = unlink (chains s) (hashFn (s.cache i).blockNo) i bcacheSize := by
    unfold chains
    congr 1
    funext j
    exact set_entry_field Entry.hashNext (bcacheHashRemove s i) i j _ rfl
  refine ⟨_,hc ▸ hu,fun j b => ?_⟩
  obtain ⟨hno,-,-,-,hval,hgone⟩ := vacate_fields s i j
  by_cases hj : j = i
  · subst hj
    refine iff_of_false ?_ (fun hl => by rw [Lives, hgone] at hl; cases hl.1)
    by_cases hb : b = hashFn (s.cache j).blockNo
    · rw [hb, update_self, (hq.nodup _).mem_erase_iff]
      exact fun hh => hh.1 rfl
    · rw [update_of_ne hb, hm]
      exact fun hl => hb hl.2.symm
  · rw [Lives, hval hj, hno, ← Lives, ← hm]
    by_cases hb : b = hashFn (s.cache i).blockNo
    · rw [hb, update_self, List.mem_erase_of_ne hj]
    · rw [update_of_ne hb]

theorem inv_vacate (h : Inv B s plain unmarked) (i : Slot) (hv : (s.cache i).valid = true)
    (hd : (s.cache i).dirty = false) (hr : (s.cache i).refcount = 0) :
    Inv B (vacate s i) plain unmarked := by
  have hmark : unmarked i ≠ true := fun hu => (h.pinned i hu).2 hr
  have hne : ∀ j, ((vacate s i).cache j).valid = true → j ≠ i := by
    rintro j hj rfl
    rw [(vacate_fields s j j).2.2.2.2.2] at hj
    cases hj
  have hold : ∀ j, ((vacate s i).cache j).valid = true → (s.cache j).valid = true := by
    intro j hj
    rw [← (vacate_fields s i j).2.2.2.2.1 (hne j hj), hj]
  refine ⟨h.ready,h.size,lists_vacate h hv,?_,?_,?_,?_,?_⟩
  · intro j k hj hk hb
    rw [(vacate_fields s i j).1, (vacate_fields s i k).1] at hb
    exact h.unique j k (hold j hj) (hold k hk) hb
  · intro j hj
    rw [(vacate_fields s i j).1]
    exact h.asked j (hold j hj)
  · intro j hj k hk
    rw [(vacate_fields s i j).1, (vacate_fields s i j).2.1]
    exact h.data j (hold j hj) k hk
  · intro a ha
    obtain ⟨j,hj,hdj,hcj⟩ := h.disk a ha
    have hji : j ≠ i := by
      rintro rfl
      rcases hdj with hdj | hdj
      · rw [hd] at hdj
        cases hdj
      · exact hmark hdj
    obtain ⟨hno,-,hdirty,-,hval,-⟩ := vacate_fields s i j
    refine ⟨j,(hval hji).trans hj,?_,?_⟩
    · rwa [hdirty]
    · rw [Covers, hno]
      exact hcj
  · intro j hj
    have hji : j ≠ i := by
      rintro rfl
      exact hmark hj
    obtain ⟨-,-,-,hrj,hval,-⟩ := vacate_fields s i j
    rw [hval hji, hrj]
    exact h.pinned j hj

theorem clean_pass_spec (best : Option Slot)
    (hb : ∀ i ∈ best, (s.cache i).valid = true ∧ (s.cache i).refcount = 0 ∧ (s.cache i).dirty = false) :
    match cleanPass s is tick best with
    | .inl i => (s.cache i).valid = false
    | .inr (_,o) => ∀ i ∈ o, (s.cache i).valid = true ∧ (s.cache i).refcount = 0 ∧ (s.cache i).dirty = false := by
  induction is generalizing tick best with
  | nil => exact hb
  | cons i is ih =>
    unfold cleanPass
    by_cases h1 : (s.cache i).buffered = false
    · rw [if_pos h1]
      exact ih tick best hb
    rw [if_neg h1]
    by_cases h2 : (s.cache i).valid = false
    · rw [if_pos h2]
      exact h2
    rw [if_neg h2]
    by_cases h3 : (s.cache i).refcount = 0 ∧ (s.cache i).dirty = false ∧ (s.cache i).lruTick < tick
    · rw [if_pos h3]
      apply ih
      rintro j ⟨⟩
      exact ⟨by simpa using h2,h3.1,h3.2.1⟩
    · rw [if_neg h3]
      exact ih tick best hb

theorem dirty_pass_spec (best : Option Slot) (hb : ∀ i ∈ best, (s.cache i).valid = true ∧ (s.cache i).refcount = 0) :
    ∀ i ∈ dirtyPass s is tick best, (s.cache i).valid = true ∧ (s.cache i).refcount = 0 := by
  induction is generalizing tick best with
  | nil => exact hb
  | cons i is ih =>
    unfold dirtyPass
    by_cases h1 : (s.cache i).buffered = false ∨ (s.cache i).valid = false
    · rw [if_pos h1]
      exact ih tick best hb
    rw [if_neg h1]
    by_cases h2 : (s.cache i).refcount = 0 ∧ (s.cache i).lruTick < tick
    · rw [if_pos h2]
      apply ih
      rintro j ⟨⟩
      exact ⟨by simpa using (not_or.mp h1).2,h2.1⟩
    · rw [if_neg h2]
      exact ih tick best hb

/-- What eviction does: nothing, or one clean unpinned entry goes, or one
unpinned entry is written back and goes. -/
theorem evict_cases (s : Cache) :
    (∃ i, bcacheEvict s = (s,some i) ∧ (s.cache i).valid = false) ∨
    (∃ i, bcacheEvict s = (vacate s i,some i) ∧ (s.cache i).valid = true ∧ (s.cache i).refcount = 0 ∧
      (s.cache i).dirty = false) ∨
    (∃ i, bcacheEvict s = (vacate (writeBack s i) i,some i) ∧ (s.cache i).valid = true ∧
      (s.cache i).refcount = 0) ∨
    bcacheEvict s = (s,none) := by
  have hclean := clean_pass_spec (s := s) (List.finRange bcacheSize) (2^32-1) none nofun
  unfold bcacheEvict
  cases hp : cleanPass s (List.finRange bcacheSize) (2^32-1) none with
  | inl i =>
    rw [hp] at hclean
    exact .inl ⟨i,rfl,hclean⟩
  | inr r =>
    obtain ⟨tick,o⟩ := r
    rw [hp] at hclean
    cases o with
    | some i => exact .inr (.inl ⟨i,rfl,hclean i rfl⟩)
    | none =>
      have hdirty := dirty_pass_spec (s := s) (List.finRange bcacheSize) tick none nofun
      dsimp only
      cases hq : dirtyPass s (List.finRange bcacheSize) tick none with
      | none => exact .inr (.inr (.inr rfl))
      | some i =>
        obtain ⟨hv,hr⟩ := hdirty i hq
        cases hd : (s.cache i).dirty with
        | false => exact .inr (.inl ⟨i,by simp [hd],hv,hr,hd⟩)
        | true => exact .inr (.inr (.inl ⟨i,by simp [hd],hv,hr⟩))

def Stays (s s' : Cache) (j : Slot) : Prop :=
  (s'.cache j).valid = (s.cache j).valid ∧ (s'.cache j).blockNo = (s.cache j).blockNo ∧
    (s'.cache j).refcount = (s.cache j).refcount

theorem write_back_stays (s : Cache) (i j : Slot) : Stays s (writeBack s i) j :=
  ⟨set_entry_field Entry.valid _ i j _ rfl,set_entry_field Entry.blockNo _ i j _ rfl,
    set_entry_field Entry.refcount _ i j _ rfl⟩

theorem vacate_stays (s : Cache) (i j : Slot) (hj : j ≠ i) : Stays s (vacate s i) j := by
  obtain ⟨hno,-,-,hr,hval,-⟩ := vacate_fields s i j
  exact ⟨hval hj,hno,hr⟩

theorem evict_spec (h : Inv B s plain unmarked) {s' : Cache} {i : Slot} (he : bcacheEvict s = (s',some i)) :
    Inv B s' plain unmarked ∧ (s'.cache i).valid = false ∧
    (∀ j, j ≠ i → Stays s s' j) ∧ ((s.cache i).valid = true → (s.cache i).refcount = 0) := by
  rcases evict_cases s with ⟨j,hc,hv⟩ | ⟨j,hc,hv,hr,hd⟩ | ⟨j,hc,hv,hr⟩ | hc
  · rw [hc] at he
    cases he
    exact ⟨h,hv,fun _ _ => ⟨rfl,rfl,rfl⟩,fun hv' => by rw [hv] at hv'; cases hv'⟩
  · rw [hc] at he
    cases he
    exact ⟨inv_vacate h i hv hd hr,(vacate_fields s i i).2.2.2.2.2,vacate_stays s i,fun _ => hr⟩
  · rw [hc] at he
    cases he
    obtain ⟨hv',hb',hr'⟩ := write_back_stays s i i
    refine ⟨inv_vacate (inv_write_back h hv) i (hv'.trans hv) (write_back_clean s i) (hr'.trans hr),
      (vacate_fields (writeBack s i) i i).2.2.2.2.2,fun j hj => ?_,fun _ => hr⟩
    obtain ⟨h1,h2,h3⟩ := vacate_stays (writeBack s i) i j hj
    obtain ⟨g1,g2,g3⟩ := write_back_stays s i j
    exact ⟨h1.trans g1,h2.trans g2,h3.trans g3⟩
  · rw [hc] at he
    cases he

def loaded (s : Cache) (i : Slot) (b tick : ℕ) : Cache := loadBlock (claimSlot s i b tick) i b

theorem loaded_self (s : Cache) (i : Slot) (b tick : ℕ) :
    ((loaded s i b tick).cache i).valid = true ∧ ((loaded s i b tick).cache i).blockNo = b ∧
    ((loaded s i b tick).cache i).dirty = false ∧ ((loaded s i b tick).cache i).refcount = 1 ∧
    ((loaded s i b tick).cache i).data =
      copy (s.cache i).data (transfer s.blockSize) 0 s.disk (address s.blockSize b) := by
  simp [loaded, loadBlock, fillSlot, claimSlot, bcacheHashInsert, setChains, setEntry, bcacheDiskRead]

theorem loaded_other (s : Cache) {i j : Slot} (b tick : ℕ) (hj : j ≠ i) :
    ∃ o, (loaded s i b tick).cache j = { s.cache j with hashNext := o } := by
  have hs : (fillSlot (claimSlot s i b tick) i b).cache j = s.cache j := by
    rw [fillSlot, set_entry_other _ _ hj, claimSlot, set_entry_other _ _ hj]
  refine ⟨((loaded s i b tick).cache j).hashNext,?_⟩
  rw [← hs]
  rfl

theorem lists_loaded (h : Inv B s plain unmarked) {i : Slot} (b tick : ℕ) (hv : (s.cache i).valid = false) :
    ∃ q, Holds (chains (loaded s i b tick)) q ∧ ∀ j c, j ∈ q c ↔ Lives (loaded s i b tick) j c := by
  obtain ⟨q,hq,hm⟩ := h.lists
  have hout : ∀ c, i ∉ q c := by
    intro c hi
    have := ((hm i c).mp hi).1
    rw [hv] at this
    cases this
  have hp := holds_push (chains s) q hq (hashFn b) i hout
  have hc : chains (loaded s i b tick) = push (chains s) (hashFn b) i := by
    have hbase : chains (fillSlot (claimSlot s i b tick) i b) = chains s := by
      unfold chains
      congr 1
      funext j
      rw [fillSlot, set_entry_field Entry.hashNext _ i j _ rfl, claimSlot,
        set_entry_field Entry.hashNext _ i j _ rfl]
    have hno : ((fillSlot (claimSlot s i b tick) i b).cache i).blockNo = b := by
      rw [fillSlot, set_entry_self, claimSlot, set_entry_self]
    rw [loaded, loadBlock, bcacheHashInsert, hbase, hno]
    rfl
  refine ⟨_,hc ▸ hp,fun j c => ?_⟩
  by_cases hj : j = i
  · subst hj
    rw [Lives, (loaded_self s j b tick).1, (loaded_self s j b tick).2.1]
    by_cases hb : c = hashFn b
    · simp [hb]
    · rw [update_of_ne hb]
      exact iff_of_false (hout c) (fun hl => hb hl.2.symm)
  · obtain ⟨o,ho⟩ := loaded_other s b tick hj
    rw [Lives, ho, ← Lives, ← hm]
    by_cases hb : c = hashFn b
    · simp [hb, hj]
    · rw [update_of_ne hb]

theorem disk_uncached (h : Inv B s plain unmarked) (hB : Apart 1024 B) {b : ℕ} (hb : b ∈ B)
    (hout : ∀ j, (s.cache j).valid = true → (s.cache j).blockNo ≠ b) {k : ℕ}
    (hk : k < transfer s.blockSize) :
    s.disk (address s.blockSize b+k) = plain (address s.blockSize b+k) := by
  by_contra hne
  obtain ⟨j,hj,-,hlo,hhi⟩ := h.disk _ hne
  have hsep := hB _ (h.asked j hj) b hb (hout j hj)
  rw [← h.size] at hsep
  omega

theorem inv_loaded (h : Inv B s plain unmarked) (hB : Apart 1024 B) {i : Slot} (b tick : ℕ) (hb : b ∈ B)
    (hv : (s.cache i).valid = false) (hout : ∀ j, (s.cache j).valid = true → (s.cache j).blockNo ≠ b) :
    Inv B (loaded s i b tick) plain unmarked := by
  obtain ⟨lv,ln,ld,lr,ldata⟩ := loaded_self s i b tick
  refine ⟨h.ready,h.size,lists_loaded h b tick hv,?_,?_,?_,?_,?_⟩
  · intro j k hj hk hjk
    by_cases hji : j = i <;> by_cases hki : k = i
    · rw [hji, hki]
    · obtain ⟨o,ho⟩ := loaded_other s b tick hki
      rw [ho] at hk hjk
      rw [hji, ln] at hjk
      exact absurd hjk.symm (hout k hk)
    · obtain ⟨o,ho⟩ := loaded_other s b tick hji
      rw [ho] at hj hjk
      rw [hki, ln] at hjk
      exact absurd hjk (hout j hj)
    · obtain ⟨o,ho⟩ := loaded_other s b tick hji
      obtain ⟨o',ho'⟩ := loaded_other s b tick hki
      rw [ho] at hj hjk
      rw [ho'] at hk hjk
      exact h.unique j k hj hk hjk
  · intro j hj
    by_cases hji : j = i
    · rw [hji, ln]
      exact hb
    · obtain ⟨o,ho⟩ := loaded_other s b tick hji
      rw [ho] at hj ⊢
      exact h.asked j hj
  · intro j hj k hk
    change k < transfer s.blockSize at hk
    by_cases hji : j = i
    · rw [hji, ln, ldata, copy, if_pos (by omega)]
      exact disk_uncached h hB hb hout hk
    · obtain ⟨o,ho⟩ := loaded_other s b tick hji
      rw [ho] at hj ⊢
      exact h.data j hj k hk
  · intro a ha
    obtain ⟨j,hj,hdj,hcj⟩ := h.disk a ha
    have hji : j ≠ i := by
      rintro rfl
      rw [hv] at hj
      cases hj
    obtain ⟨o,ho⟩ := loaded_other s b tick hji
    refine ⟨j,?_,?_,?_⟩
    · rw [ho]
      exact hj
    · rw [ho]
      exact hdj
    · rw [Covers, ho]
      exact hcj
  · intro j hj
    have hold := h.pinned j hj
    have hji : j ≠ i := by
      rintro rfl
      rw [hv] at hold
      cases hold.1
    obtain ⟨o,ho⟩ := loaded_other s b tick hji
    rw [ho]
    exact hold

theorem hash_find_some (h : Inv B s plain unmarked) {b : ℕ} {i : Slot} (hf : bcacheHashFind s b = some i) :
    (s.cache i).valid = true ∧ (s.cache i).blockNo = b := by
  obtain ⟨q,hq,hm⟩ := h.lists
  rw [bcacheHashFind, find_linked _ _ (q (hashFn b)) _ _ (hq.linked _) (chain_length q hq _)] at hf
  simpa using List.find?_some hf

theorem hash_find_none (h : Inv B s plain unmarked) {b : ℕ} (hf : bcacheHashFind s b = none) (j : Slot)
    (hj : (s.cache j).valid = true) : (s.cache j).blockNo ≠ b := by
  rintro rfl
  obtain ⟨q,hq,hm⟩ := h.lists
  rw [bcacheHashFind, find_linked _ _ (q (hashFn _)) _ _ (hq.linked _) (chain_length q hq _),
    List.find?_eq_none] at hf
  simpa [hj] using hf j ((hm j _).mpr ⟨hj,rfl⟩)

theorem inv_set_entry (h : Inv B s plain unmarked) {i : Slot} (f : Entry → Entry) (u : Slot → Bool)
    (hf : ∀ e, (f e).hashNext = e.hashNext ∧ (f e).valid = e.valid ∧ (f e).blockNo = e.blockNo ∧
      (f e).data = e.data)
    (hd : ∀ j, (s.cache j).dirty = true ∨ unmarked j = true →
      ((setEntry s i f).cache j).dirty = true ∨ u j = true)
    (hp : ∀ j, u j = true → (s.cache j).valid = true ∧ ((setEntry s i f).cache j).refcount ≠ 0) :
    Inv B (setEntry s i f) plain u := by
  have hval : ∀ j, ((setEntry s i f).cache j).valid = (s.cache j).valid :=
    fun j => set_entry_field Entry.valid s i j f (hf _).2.1
  have hno : ∀ j, ((setEntry s i f).cache j).blockNo = (s.cache j).blockNo :=
    fun j => set_entry_field Entry.blockNo s i j f (hf _).2.2.1
  have hdata : ∀ j, ((setEntry s i f).cache j).data = (s.cache j).data :=
    fun j => set_entry_field Entry.data s i j f (hf _).2.2.2
  refine ⟨h.ready,h.size,?_,?_,?_,?_,?_,?_⟩
  · exact lists_congr s (setEntry s i f) rfl
      (fun j => ⟨set_entry_field Entry.hashNext s i j f (hf _).1,hval j,hno j⟩) h.lists
  · intro j k hj hk hb
    rw [hval] at hj hk
    rw [hno, hno] at hb
    exact h.unique j k hj hk hb
  · intro j hj
    rw [hval] at hj
    rw [hno]
    exact h.asked j hj
  · intro j hj k hk
    rw [hval] at hj
    rw [hdata, hno]
    exact h.data j hj k hk
  · intro a ha
    obtain ⟨j,hj,hdj,hcj⟩ := h.disk a ha
    refine ⟨j,(hval j).trans hj,hd j hdj,?_⟩
    rw [Covers, hno]
    exact hcj
  · intro j hj
    rw [hval]
    exact hp j hj

theorem inv_counters (h : Inv B s plain unmarked) (a b : ℕ) :
    Inv B { s with hits := a, misses := b } plain unmarked :=
  ⟨h.ready,h.size,h.lists,h.unique,h.asked,h.data,h.disk,h.pinned⟩

/-- A pinned entry is still there for its block after the step. -/
def Kept (s s' : Cache) : Prop :=
  ∀ j, (s.cache j).valid = true → 0 < (s.cache j).refcount →
    (s'.cache j).valid = true ∧ (s'.cache j).blockNo = (s.cache j).blockNo

theorem kept_set_entry (s : Cache) (i : Slot) (f : Entry → Entry)
    (hf : ∀ e, (f e).valid = e.valid ∧ (f e).blockNo = e.blockNo) : Kept s (setEntry s i f) := by
  intro j hj _
  rw [set_entry_field Entry.valid s i j f (hf _).1, set_entry_field Entry.blockNo s i j f (hf _).2]
  exact ⟨hj,rfl⟩

theorem inv_pin (h : Inv B s plain unmarked) {i : Slot} (tick : ℕ)
    (hw : unmarked i = true → (s.cache i).refcount+1 < 2^32) : Inv B (pinEntry s i tick) plain unmarked := by
  refine inv_set_entry h _ unmarked (fun _ => ⟨rfl,rfl,rfl,rfl⟩) ?_ ?_
  · intro j hj
    rwa [set_entry_field Entry.dirty s i j _ rfl]
  · intro j hj
    refine ⟨(h.pinned j hj).1,?_⟩
    by_cases hji : j = i
    · subst hji
      rw [set_entry_self]
      have := hw hj
      dsimp only
      omega
    · rw [set_entry_other s _ hji]
      exact (h.pinned j hj).2

theorem get_spec (h : Inv B s plain unmarked) (hB : Apart 1024 B) (b tick : ℕ) (hb : b ∈ B)
    (hw : ∀ i, unmarked i = true → (s.cache i).refcount+1 < 2^32) :
    Inv B (bcacheGet s b tick true).1 plain unmarked ∧
    (∀ i, (bcacheGet s b tick true).2 = some i →
      ((bcacheGet s b tick true).1.cache i).valid = true ∧
      ((bcacheGet s b tick true).1.cache i).blockNo = b) ∧
    Kept s (bcacheGet s b tick true).1 := by
  unfold bcacheGet
  rw [if_neg (by simp [h.ready])]
  cases hf : bcacheHashFind s b with
  | some i =>
    dsimp only
    obtain ⟨hv,hn⟩ := hash_find_some h hf
    refine ⟨inv_counters (inv_pin h tick (hw i)) _ _,?_,?_⟩
    · rintro j ⟨⟩
      rw [pinEntry, set_entry_self]
      exact ⟨hv,hn⟩
    · change Kept s (pinEntry s i tick)
      apply kept_set_entry
      exact fun _ => ⟨rfl,rfl⟩
  | none =>
    have h' := inv_counters h s.hits (s.misses+1)
    have hout := hash_find_none h hf
    cases he : bcacheEvict { s with misses := s.misses+1 } with
    | mk s' o =>
      cases o with
      | none =>
        have hs : s' = { s with misses := s.misses+1 } := by
          rcases evict_cases { s with misses := s.misses+1 } with ⟨_,hc,_⟩ | ⟨_,hc,_⟩ | ⟨_,hc,_⟩ | hc <;>
            rw [hc] at he <;> cases he
          rfl
        subst hs
        exact ⟨h',nofun,fun j hj _ => ⟨hj,rfl⟩⟩
      | some i =>
        obtain ⟨hi,hv,hstay,hfree⟩ := evict_spec h' he
        have hout' : ∀ j, (s'.cache j).valid = true → (s'.cache j).blockNo ≠ b := by
          intro j hj
          have hji : j ≠ i := by
            rintro rfl
            rw [hv] at hj
            cases hj
          obtain ⟨h1,h2,-⟩ := hstay j hji
          rw [h2]
          exact hout j (h1.symm.trans hj)
        dsimp only
        refine ⟨inv_loaded hi hB b tick hb hv hout',?_,?_⟩
        · rintro j ⟨⟩
          exact ⟨(loaded_self s' i b tick).1,(loaded_self s' i b tick).2.1⟩
        · intro j hj hr
          have hji : j ≠ i := by
            rintro rfl
            exact hr.ne' (hfree hj)
          obtain ⟨o,ho⟩ := loaded_other s' b tick hji
          obtain ⟨h1,h2,-⟩ := hstay j hji
          change ((loaded s' i b tick).cache j).valid = true ∧ ((loaded s' i b tick).cache j).blockNo = _
          rw [ho]
          exact ⟨h1.trans hj,h2⟩

theorem inv_modify (h : Inv B s plain unmarked) (hB : Apart 1024 B) {i : Slot} (data : Store)
    (hv : (s.cache i).valid = true) (hr : 0 < (s.cache i).refcount) :
    Inv B (setEntry s i fun e => { e with data := data })
      (copy plain (transfer s.blockSize) (address s.blockSize (s.cache i).blockNo) data 0)
      (update unmarked i true) := by
  have hf : ∀ {γ : Type} (g : Entry → γ), (∀ e, g { e with data := data } = g e) →
      ∀ j, g ((setEntry s i fun e => { e with data := data }).cache j) = g (s.cache j) := by
    intro γ g hg j
    exact set_entry_field g s i j _ (hg _)
  have hval := hf Entry.valid (fun _ => rfl)
  have hno := hf Entry.blockNo (fun _ => rfl)
  refine ⟨h.ready,h.size,?_,?_,?_,?_,?_,?_⟩
  · exact lists_congr s _ rfl (fun j => ⟨hf Entry.hashNext (fun _ => rfl) j,hval j,hno j⟩) h.lists
  · intro j k hj hk hb
    rw [hval] at hj hk
    rw [hno, hno] at hb
    exact h.unique j k hj hk hb
  · intro j hj
    rw [hval] at hj
    rw [hno]
    exact h.asked j hj
  · intro j hj k hk
    change k < transfer s.blockSize at hk
    change _ = copy _ _ _ _ _ (address s.blockSize _+k)
    rw [hval] at hj
    rw [hno]
    by_cases hji : j = i
    · subst hji
      rw [set_entry_self, copy, if_pos (by omega)]
      change data k = data _
      congr 1
      omega
    · -- the blocks of two entries share no byte
      have hb : (s.cache j).blockNo ≠ (s.cache i).blockNo := fun hb => hji (h.unique j i hj hv hb)
      have hsep := hB _ (h.asked j hj) _ (h.asked i hv) hb
      rw [← h.size] at hsep
      rw [set_entry_other s _ hji, copy, if_neg (by omega)]
      exact h.data j hj k hk
  · intro a ha
    by_cases hc : Covers s i a
    · refine ⟨i,(hval i).trans hv,.inr (update_self ..),?_⟩
      rw [Covers, hno]
      exact hc
    · have hc' := hc
      unfold Covers at hc'
      rw [copy, if_neg hc'] at ha
      obtain ⟨j,hj,hdj,hcj⟩ := h.disk a ha
      have hji : j ≠ i := by
        rintro rfl
        exact hc hcj
      refine ⟨j,(hval j).trans hj,?_,?_⟩
      · rwa [set_entry_other s _ hji, update_of_ne hji]
      · rw [Covers, hno]
        exact hcj
  · intro j hj
    rw [hval, hf Entry.refcount (fun _ => rfl)]
    by_cases hji : j = i
    · rw [hji]
      exact ⟨hv,hr.ne'⟩
    · rw [update_of_ne hji] at hj
      exact h.pinned j hj

theorem inv_mark (h : Inv B s plain unmarked) (i : Slot) :
    Inv B (bcacheMarkDirty s i) plain (update unmarked i false) := by
  refine inv_set_entry h _ _ (fun _ => ⟨rfl,rfl,rfl,rfl⟩) ?_ ?_
  · intro j hj
    by_cases hji : j = i
    · subst hji
      rw [set_entry_self]
      exact .inl rfl
    · rwa [set_entry_other s _ hji, update_of_ne hji]
  · intro j hj
    by_cases hji : j = i
    · rw [hji, update_self] at hj
      cases hj
    · rw [update_of_ne hji] at hj
      rw [set_entry_other s _ hji]
      exact h.pinned j hj

theorem inv_release (h : Inv B s plain unmarked) {i : Slot}
    (hr : unmarked i = true → 1 < (s.cache i).refcount) : Inv B (bcacheRelease s i) plain unmarked := by
  refine inv_set_entry h _ _ (fun _ => ⟨rfl,rfl,rfl,rfl⟩) ?_ ?_
  · intro j hj
    rwa [set_entry_field Entry.dirty s i j _ rfl]
  · intro j hj
    refine ⟨(h.pinned j hj).1,?_⟩
    by_cases hji : j = i
    · subst hji
      rw [set_entry_self]
      have := hr hj
      dsimp only
      omega
    · rw [set_entry_other s _ hji]
      exact (h.pinned j hj).2

def syncOne (s : Cache) (i : Slot) : Cache :=
  if (s.cache i).valid ∧ (s.cache i).dirty then writeBack s i else s

theorem sync_one (h : Inv B s plain unmarked) (i : Slot) :
    Inv B (syncOne s i) plain unmarked ∧ (∀ j, Stays s (syncOne s i) j) ∧
    (((syncOne s i).cache i).valid = true → ((syncOne s i).cache i).dirty = false) ∧
    ∀ j, (s.cache j).dirty = false → ((syncOne s i).cache j).dirty = false := by
  unfold syncOne
  by_cases hc : (s.cache i).valid = true ∧ (s.cache i).dirty = true
  · rw [if_pos hc]
    refine ⟨inv_write_back h hc.1,write_back_stays s i,fun _ => write_back_clean s i,?_⟩
    intro j hj
    by_cases hji : j = i
    · rw [hji]
      exact write_back_clean s i
    · rw [writeBack, set_entry_other _ _ hji]
      exact hj
  · rw [if_neg hc]
    refine ⟨h,fun _ => ⟨rfl,rfl,rfl⟩,fun hv => ?_,fun _ hj => hj⟩
    simpa [hv] using hc

theorem sync_fold (s : Cache) (h : Inv B s plain unmarked) :
    Inv B (is.foldl syncOne s) plain unmarked ∧ (∀ j, Stays s (is.foldl syncOne s) j) ∧
    (∀ j ∈ is, (s.cache j).valid = true → ((is.foldl syncOne s).cache j).dirty = false) ∧
    ∀ j, (s.cache j).dirty = false → ((is.foldl syncOne s).cache j).dirty = false := by
  induction is generalizing s with
  | nil => exact ⟨h,fun _ => ⟨rfl,rfl,rfl⟩,nofun,fun _ hj => hj⟩
  | cons i is ih =>
    obtain ⟨h1,hstay,hclean,hkeep⟩ := sync_one h i
    obtain ⟨g1,gstay,gclean,gkeep⟩ := ih (syncOne s i) h1
    refine ⟨g1,?_,?_,fun j hj => gkeep j (hkeep j hj)⟩
    · intro j
      obtain ⟨a1,a2,a3⟩ := gstay j
      obtain ⟨b1,b2,b3⟩ := hstay j
      exact ⟨a1.trans b1,a2.trans b2,a3.trans b3⟩
    · intro j hj hv
      have hv' : ((syncOne s i).cache j).valid = true := (hstay j).1.trans hv
      rcases List.mem_cons.mp hj with rfl | hj
      · exact gkeep j (hclean hv')
      · exact gclean j hj hv'

theorem sync_spec (h : Inv B s plain unmarked) :
    Inv B (bcacheSync s) plain unmarked ∧ (∀ j, Stays s (bcacheSync s) j) ∧
    ∀ j, (s.cache j).valid = true → ((bcacheSync s).cache j).dirty = false := by
  have hs : bcacheSync s = (List.finRange bcacheSize).foldl syncOne s := by
    rw [bcacheSync, if_neg (by simp [h.ready])]
    rfl
  rw [hs]
  obtain ⟨h1,h2,h3,-⟩ := sync_fold (List.finRange bcacheSize) s h
  exact ⟨h1,h2,fun j => h3 j (List.mem_finRange j)⟩

end Preservation

theorem inv_init (n : ℕ) (B : Set ℕ) :
    Inv B (bcacheInit disk n) disk (fun _ => false) := by
  refine ⟨rfl,rfl,⟨fun _ => [],⟨fun _ => rfl,fun _ => List.nodup_nil,nofun⟩,?_⟩,nofun,nofun,nofun,?_,nofun⟩
  · intro i h
    exact iff_of_false nofun nofun
  · exact fun a ha => absurd rfl ha

theorem step_inv {B : Set ℕ} (hB : Apart 1024 B) {s : Sys} {op : Op} (ha : Allowed B s op)
    (h : Inv B s.cache s.plain s.unmarked) :
    Inv B (step s op).cache (step s op).plain (step s op).unmarked ∧
      Kept s.cache (step s op).cache := by
  cases op with
  | get b tick =>
    obtain ⟨h1,-,h3⟩ := get_spec h hB b tick ha.1 ha.2
    exact ⟨h1,h3⟩
  | modify i data =>
    refine ⟨inv_modify h hB data ha.1 ha.2,?_⟩
    dsimp only [step]
    apply kept_set_entry
    exact fun _ => ⟨rfl,rfl⟩
  | markDirty i =>
    refine ⟨inv_mark h i,?_⟩
    dsimp only [step]
    apply kept_set_entry
    exact fun _ => ⟨rfl,rfl⟩
  | release i =>
    refine ⟨inv_release h ha,?_⟩
    dsimp only [step]
    apply kept_set_entry
    exact fun _ => ⟨rfl,rfl⟩
  | sync =>
    obtain ⟨h1,h2,-⟩ := sync_spec h
    exact ⟨h1,fun j hj _ => ⟨(h2 j).1.trans hj,(h2 j).2.1⟩⟩

theorem reach_inv {n : ℕ} {B : Set ℕ} (hB : Apart 1024 B) {s : Sys}
    (h : Reach disk n B s) : Inv B s.cache s.plain s.unmarked := by
  induction h with
  | init => exact inv_init disk n B
  | step s op _ ha ih => exact (step_inv hB ha ih).1

theorem on_chain_iff {B : Set ℕ} {s : Cache} {plain : Store} (unmarked : Slot → Bool)
    (h : Inv B s plain unmarked) (i : Slot) (b : Bucket) : OnChain s b i ↔ Lives s i b := by
  obtain ⟨q,hq,hm⟩ := h.lists
  rw [← hm]
  constructor
  · rintro ⟨l,hl,hi⟩
    rwa [linked_unique _ _ _ _ (hq.linked b) hl]
  · exact fun hi => ⟨q b,hq.linked b,hi⟩

/-- In a run whose block numbers share no sector, every block got is the
plain disk's, the chains hold each valid entry once and in its place, pinned
entries stay, and a sync without a modification still to be marked makes the
disk the plain one. -/
theorem cache_transparent (n : ℕ) (B : Set ℕ) (hB : Apart 1024 B) (s : Sys)
    (hs : Reach disk n B s) :
    (∀ b tick i, Allowed B s (.get b tick) → (bcacheGet s.cache b tick true).2 = some i →
      ((bcacheGet s.cache b tick true).1.cache i).valid = true ∧
      ((bcacheGet s.cache b tick true).1.cache i).blockNo = b ∧
      ∀ k < transfer 1024, ((bcacheGet s.cache b tick true).1.cache i).data k =
        s.plain (address 1024 b+k)) ∧
    (∀ i j, (s.cache.cache i).valid = true → (s.cache.cache j).valid = true →
      (s.cache.cache i).blockNo = (s.cache.cache j).blockNo → i = j) ∧
    (∀ i h, OnChain s.cache h i ↔
      (s.cache.cache i).valid = true ∧ hashFn (s.cache.cache i).blockNo = h) ∧
    (∀ op j, Allowed B s op → (s.cache.cache j).valid = true → 0 < (s.cache.cache j).refcount →
      ((step s op).cache.cache j).valid = true ∧
      ((step s op).cache.cache j).blockNo = (s.cache.cache j).blockNo) ∧
    ((∀ i, s.unmarked i = false) → (bcacheSync s.cache).disk = s.plain) := by
  have h := reach_inv disk hB hs
  refine ⟨?_,h.unique,on_chain_iff _ h,?_,?_⟩
  · intro b tick i ha hi
    obtain ⟨h1,h2,-⟩ := get_spec h hB b tick ha.1 ha.2
    obtain ⟨hv,hn⟩ := h2 i hi
    refine ⟨hv,hn,fun k hk => ?_⟩
    have hd := h1.data i hv k (by rw [h1.size]; exact hk)
    rwa [h1.size, hn] at hd
  · intro op j ha hv hr
    exact (step_inv hB ha h).2 j hv hr
  · intro hu
    obtain ⟨h1,h2,h3⟩ := sync_spec h
    funext a
    by_contra hne
    obtain ⟨i,hv,hd,-⟩ := h1.disk a hne
    have hv' : (s.cache.cache i).valid = true := (h2 i).1.symm.trans hv
    rw [h3 i hv', hu i] at hd
    simp at hd

theorem apart_small : Apart 1024 {b | b < 2^27} := by
  intro b hb b' hb' hne
  change b < 2^27 at hb
  change b' < 2^27 at hb'
  simp only [address, transfer, sectorsPerBlock]
  norm_num
  omega

def oneBlock : List Op :=
  [.get 5 0, .modify ⟨0,by decide⟩ (fun _ => 1), .markDirty ⟨0,by decide⟩, .release ⟨0,by decide⟩]

theorem cache_transparent_one :
    Reach (fun _ => 0) 1 {b | b < 2^27} (oneBlock.foldl step ⟨bcacheInit (fun _ => 0) 1,fun _ => 0,fun _ => false⟩) ∧
    (bcacheSync (oneBlock.foldl step ⟨bcacheInit (fun _ => 0) 1,fun _ => 0,fun _ => false⟩).cache).disk =
      (oneBlock.foldl step ⟨bcacheInit (fun _ => 0) 1,fun _ => 0,fun _ => false⟩).plain := by
  have h0 : Reach (fun _ => 0) 1 {b | b < 2^27} ⟨bcacheInit (fun _ => 0) 1,fun _ => 0,fun _ => false⟩ :=
    .init
  have h1 := Reach.step _ (.get 5 0) h0 ⟨by change 5 < 2^27; decide,nofun⟩
  have h2 := Reach.step _ (.modify ⟨0,by decide⟩ (fun _ => 1)) h1 ⟨by decide +kernel,by decide +kernel⟩
  have h3 := Reach.step _ (.markDirty ⟨0,by decide⟩) h2 trivial
  have h4 := Reach.step _ (.release ⟨0,by decide⟩) h3 (fun hu => absurd hu (by decide +kernel))
  refine ⟨h4,(cache_transparent _ 1 _ apart_small _ h4).2.2.2.2 fun i => ?_⟩
  change update (update (fun _ => false) _ true) _ false i = false
  rw [update_idem]
  exact congrFun (update_eq_self _ _) i

/-- Blocks 0 and `2^27` have the same sectors: the second is read from the
disk while the first is changed in the cache only. -/
theorem shared_sectors_stale :
    let s := [Op.get 0 0, .modify ⟨0,by decide⟩ (fun _ => 1), .markDirty ⟨0,by decide⟩].foldl step
      ⟨bcacheInit (fun _ => 0) 2,fun _ => 0,fun _ => false⟩
    (bcacheGet s.cache (2^27) 0 true).2 = some ⟨1,by decide⟩ ∧
    ((bcacheGet s.cache (2^27) 0 true).1.cache ⟨1,by decide⟩).data 0 = 0 ∧
    s.plain (address 1024 (2^27)) = 1 := by
  decide +kernel

end HobbyOS.BlockCache

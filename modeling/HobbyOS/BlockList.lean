import Mathlib.Tactic

/-!
# Regions tiled by blocks with an intrusive free list

A region of memory is a list of blocks in address order. Every block starts
with a cell of `H` addresses that records its size, its mark and, if it is
free, the address of the next free block. Zero is the null address. `Seg`
reads the list off the cells; the link that leaves the segment is a parameter
of it, so that segments can be cut and joined.
-/

namespace BlockList
open Function

structure Block where
  size : ℕ
  free : Bool
  deriving DecidableEq, Repr

structure Cell (τ : Type*) where
  size : ℕ
  next : ℕ
  mark : τ

variable {τ : Type*} (H : ℕ)

def span : List Block → ℕ
  | [] => 0
  | b::bs => H+b.size+span bs

/-- The address of the first free block, or the link out of the segment. -/
def firstFree : ℕ → List Block → ℕ → ℕ
  | _, [], z => z
  | a, b::bs, z => if b.free then a else firstFree (a+(H+b.size)) bs z

/-- The address of the last free block, or that of the one before. -/
def lastFree : ℕ → List Block → ℕ → ℕ
  | _, [], p => p
  | a, b::bs, p => lastFree (a+(H+b.size)) bs (if b.free then a else p)

def Seg (mark : Bool → τ) (cell : ℕ → Cell τ) : ℕ → List Block → ℕ → Prop
  | _, [], _ => True
  | a, b::bs, z => (cell a).size = b.size ∧ (cell a).mark = mark b.free ∧
      (b.free = true → (cell a).next = firstFree H (a+(H+b.size)) bs z) ∧
      Seg mark cell (a+(H+b.size)) bs z

def Spaced (bs : List Block) : Prop := bs.IsChain fun b c => ¬(b.free = true ∧ c.free = true)

variable (mark : Bool → τ) (cell : ℕ → Cell τ)

theorem span_append (xs ys : List Block) : span H (xs++ys) = span H xs+span H ys := by
  induction xs with
  | nil => simp [span]
  | cons b xs ih =>
    simp only [List.cons_append, span]
    omega

variable (a : ℕ) (bs : List Block)

theorem first_free_append (xs ys : List Block) (z : ℕ) :
    firstFree H a (xs++ys) z = firstFree H a xs (firstFree H (a+span H xs) ys z) := by
  induction xs generalizing a with
  | nil => simp [firstFree, span]
  | cons b xs ih =>
    simp only [List.cons_append, firstFree, span, ih, add_assoc]

theorem last_free_append (xs ys : List Block) (p : ℕ) :
    lastFree H a (xs++ys) p = lastFree H (a+span H xs) ys (lastFree H a xs p) := by
  induction xs generalizing a p with
  | nil => simp [lastFree, span]
  | cons b xs ih =>
    simp only [List.cons_append, lastFree, span, ih, add_assoc]

theorem seg_append (xs ys : List Block) (z : ℕ) :
    Seg H mark cell a (xs++ys) z ↔
      Seg H mark cell a xs (firstFree H (a+span H xs) ys z) ∧ Seg H mark cell (a+span H xs) ys z := by
  induction xs generalizing a with
  | nil => simp [Seg, span]
  | cons b xs ih =>
    simp only [List.cons_append, Seg, span, ih, first_free_append, add_assoc, and_assoc]

theorem seg_frame (hH : 0 < H) (cell' : ℕ → Cell τ) (a : ℕ) (bs : List Block) (z : ℕ)
    (hs : Seg H mark cell a bs z) (hc : ∀ x, a ≤ x → x < a+span H bs → cell' x = cell x) :
    Seg H mark cell' a bs z := by
  induction bs generalizing a with
  | nil => trivial
  | cons b bs ih =>
    obtain ⟨h1,h2,h3,h4⟩ := hs
    have ha : cell' a = cell a := hc a (le_refl a) (by rw [span]; omega)
    refine ⟨by rw [ha, h1],by rw [ha, h2],fun hf => by rw [ha, h3 hf],ih _ h4 ?_⟩
    intro x h1 h2
    exact hc x (by omega) (by rw [span]; omega)

theorem first_free_live (z : ℕ) (h : ∀ b ∈ bs, b.free = false) :
    firstFree H a bs z = z := by
  induction bs generalizing a with
  | nil => rfl
  | cons b bs ih =>
    rw [firstFree, h b List.mem_cons_self]
    exact ih _ fun c hc => h c (List.mem_cons_of_mem b hc)

theorem seg_live (z z' : ℕ) (h : ∀ b ∈ bs, b.free = false)
    (hs : Seg H mark cell a bs z) : Seg H mark cell a bs z' := by
  induction bs generalizing a with
  | nil => trivial
  | cons b bs ih =>
    obtain ⟨h1,h2,-,h4⟩ := hs
    refine ⟨h1,h2,?_,ih _ (fun c hc => h c (List.mem_cons_of_mem b hc)) h4⟩
    intro hf
    rw [h b List.mem_cons_self] at hf
    cases hf

def setNext (p v : ℕ) : ℕ → Cell τ := update cell p { cell p with next := v }

theorem set_next_other {p : ℕ} (v : ℕ) {x : ℕ} (h : x ≠ p) : setNext cell p v x = cell x :=
  update_of_ne h _ _

theorem seg_relink (hH : 0 < H) (a : ℕ) (bs : List Block) (z z' p : ℕ) (hs : Seg H mark cell a bs z) :
    (lastFree H a bs p = p ∧ ∀ b ∈ bs, b.free = false) ∨
      (a ≤ lastFree H a bs p ∧ lastFree H a bs p < a+span H bs ∧
        Seg H mark (setNext cell (lastFree H a bs p) z') a bs z' ∧
        firstFree H a bs z' = firstFree H a bs z) := by
  induction bs generalizing a p with
  | nil => exact .inl ⟨rfl,by simp⟩
  | cons b bs ih =>
    obtain ⟨h1,h2,h3,h4⟩ := hs
    rw [lastFree]
    rcases ih (a+(H+b.size)) (if b.free then a else p) h4 with ⟨hl,hlive⟩ | ⟨hle,hlt,hseg,hfirst⟩
    · rw [hl]
      cases hb : b.free with
      | false =>
        refine .inl ⟨rfl,?_⟩
        intro c hc
        rcases List.mem_cons.mp hc with rfl | hc
        · exact hb
        · exact hlive c hc
      | true =>
        -- the block itself is the last free one
        refine .inr ⟨le_refl a,by rw [span, if_pos rfl]; omega,?_,by simp [firstFree, hb]⟩
        rw [if_pos rfl]
        refine ⟨?_,?_,?_,?_⟩
        · rw [setNext, update_self]
          exact h1
        · rw [setNext, update_self]
          exact h2
        · intro _
          rw [setNext, update_self, first_free_live H _ bs z' hlive]
        · refine seg_frame H mark cell hH _ _ bs z' (seg_live H mark cell _ bs z z' hlive h4) ?_
          intro x hx _
          exact set_next_other cell z' (by omega)
    · have hne : a ≠ lastFree H (a+(H+b.size)) bs (if b.free then a else p) := by omega
      refine .inr ⟨by omega,by rw [span]; omega,⟨?_,?_,?_,hseg⟩,?_⟩
      · rw [set_next_other cell z' hne, h1]
      · rw [set_next_other cell z' hne, h2]
      · intro hf
        rw [set_next_other cell z' hne, h3 hf, hfirst]
      · simp only [firstFree, hfirst]

/-- A free list: the head pointer and the cells of the region. -/
def Chained (head a : ℕ) (bs : List Block) : Prop :=
  head = firstFree H a bs 0 ∧ Seg H mark cell a bs 0

/-- Store a link at `p`, or in the head pointer when `p` is null. -/
def relink (head p v : ℕ) : (ℕ → Cell τ) × ℕ := if p = 0 then (cell,v) else (setNext cell p v,head)

theorem relink_mark (head p v x : ℕ) : ((relink cell head p v).1 x).mark = (cell x).mark := by
  by_cases hp : p = 0
  · rw [relink, if_pos hp]
  · rw [relink, if_neg hp]
    by_cases hx : x = p
    · subst hx
      simp only [setNext, update_self]
    · exact congrArg Cell.mark (set_next_other cell v hx)

/-- A stretch of blocks is replaced by another one of the same length, with
its cells already written, and the link before it is redirected. -/
theorem chained_splice (hH : 0 < H) (head a : ℕ) (ha : 0 < a) (xs old new ys : List Block)
    (cell' : ℕ → Cell τ) (h : Chained H mark cell head a (xs++(old++ys)))
    (hspan : span H new = span H old)
    (hnew : Seg H mark cell' (a+span H xs) new (firstFree H (a+span H xs+span H old) ys 0))
    (hout : ∀ x, x < a+span H xs ∨ a+span H xs+span H old ≤ x → cell' x = cell x) (p v : ℕ)
    (hp : p = lastFree H a xs 0) (hv : v = firstFree H (a+span H xs) (new++ys) 0) :
    Chained H mark (relink cell' head p v).1 (relink cell' head p v).2 a (xs++(new++ys)) := by
  obtain ⟨hhead,hseg⟩ := h
  rw [seg_append] at hseg
  obtain ⟨hx,hrest⟩ := hseg
  rw [seg_append] at hrest
  have hx' := seg_frame H mark cell hH cell' a xs _ hx (fun x _ h2 => hout x (.inl h2))
  have hy := seg_frame H mark cell hH cell' _ ys 0 hrest.2 (fun x h1 _ => hout x (.inr h1))
  rw [first_free_append] at hhead
  have hrel := seg_relink H mark cell' hH a xs _ v 0 hx'
  rw [← hp] at hrel
  rcases hrel with ⟨rfl,hlive⟩ | ⟨hle,hlt,hsegx,hfirst⟩
  · -- no free block before: the head pointer takes the link
    simp only [relink, if_true]
    refine ⟨?_,?_⟩
    · rw [first_free_append, first_free_live H a xs _ hlive, hv]
    · rw [seg_append, ← hv]
      refine ⟨seg_live H mark cell' a xs _ v hlive hx',?_⟩
      rw [seg_append, hspan]
      exact ⟨hnew,hy⟩
  · have hp0 : p ≠ 0 := by omega
    simp only [relink, if_neg hp0]
    refine ⟨?_,?_⟩
    · rw [first_free_append, ← hv, hfirst, hhead]
    · rw [seg_append, ← hv]
      refine ⟨hsegx,?_⟩
      rw [seg_append, hspan]
      refine ⟨seg_frame H mark cell' hH _ _ new _ hnew ?_,seg_frame H mark cell' hH _ _ ys 0 hy ?_⟩
      · intro x h1 _
        exact set_next_other cell' v (by omega)
      · intro x h1 _
        exact set_next_other cell' v (by omega)

theorem chained_replace (hH : 0 < H) (head a : ℕ) (xs old new ys : List Block)
    (cell' : ℕ → Cell τ) (h : Chained H mark cell head a (xs++(old++ys)))
    (hspan : span H new = span H old)
    (hnew : Seg H mark cell' (a+span H xs) new (firstFree H (a+span H xs+span H old) ys 0))
    (hout : ∀ x, x < a+span H xs ∨ a+span H xs+span H old ≤ x → cell' x = cell x)
    (hfirst : firstFree H (a+span H xs) (new++ys) 0 = firstFree H (a+span H xs) (old++ys) 0) :
    Chained H mark cell' head a (xs++(new++ys)) := by
  obtain ⟨hhead,hseg⟩ := h
  rw [seg_append] at hseg
  obtain ⟨hx,hrest⟩ := hseg
  rw [seg_append] at hrest
  refine ⟨?_,?_⟩
  · rw [first_free_append, hfirst, ← first_free_append, hhead]
  · rw [seg_append, hfirst, seg_append, hspan]
    exact ⟨seg_frame H mark cell hH cell' a xs _ hx (fun x _ h2 => hout x (.inl h2)),hnew,
      seg_frame H mark cell hH cell' _ ys 0 hrest.2 (fun x h1 _ => hout x (.inr h1))⟩

theorem chained_merge (hH : 0 < H) {head a : ℕ} {xs ys : List Block} {b c : Block}
    (hb : b.free = true) (hc : c.free = true) (h : Chained H mark cell head a (xs++b::c::ys))
    {p : ℕ} (hp : p = a+span H xs) :
    Chained H mark (update cell p
      { cell p with size := b.size+(H+c.size), next := (cell (p+(H+b.size))).next })
      head a (xs++⟨b.size+(H+c.size),true⟩::ys) := by
  subst hp
  obtain ⟨hhead,hseg⟩ := h
  rw [seg_append] at hseg
  obtain ⟨hx,h1,h2,-,-,-,h3,hy⟩ := hseg
  have hfirst : ∀ zs, firstFree H (a+span H xs) (b::zs) 0 = a+span H xs := by
    intro zs
    rw [firstFree, if_pos hb]
  have hfirst' : firstFree H (a+span H xs) (⟨b.size+(H+c.size),true⟩::ys) 0 = a+span H xs := by
    rw [firstFree, if_pos rfl]
  have haddr : a+span H xs+(H+(b.size+(H+c.size))) = a+span H xs+(H+b.size)+(H+c.size) := by omega
  refine ⟨?_,?_⟩
  · rw [hhead, first_free_append, first_free_append, hfirst, hfirst']
  · rw [seg_append]
    refine ⟨?_,?_⟩
    · rw [hfirst] at hx
      refine seg_frame H mark cell hH _ a xs _ hx ?_
      intro x _ hlt
      exact update_of_ne (by omega) _ _
    · refine ⟨by rw [update_self],?_,?_,?_⟩
      · rw [update_self]
        rw [h2, hb]
      · intro _
        rw [update_self]
        rw [h3 hc, haddr]
      · rw [haddr]
        refine seg_frame H mark cell hH _ _ ys 0 hy ?_
        intro x hx _
        exact update_of_ne (by omega) _ _

theorem first_free_split (z : ℕ) :
    (firstFree H a bs z = z ∧ ∀ b ∈ bs, b.free = false) ∨
      ∃ us f vs, bs = us++f::vs ∧ (∀ b ∈ us, b.free = false) ∧ f.free = true ∧
        firstFree H a bs z = a+span H us := by
  induction bs generalizing a with
  | nil => exact .inl ⟨rfl,by simp⟩
  | cons b bs ih =>
    cases hb : b.free with
    | true => exact .inr ⟨[],b,bs,rfl,by simp,hb,by simp [firstFree, hb, span]⟩
    | false =>
      rcases ih (a+(H+b.size)) with ⟨h1,h2⟩ | ⟨us,f,vs,rfl,hus,hf,he⟩
      · refine .inl ⟨by rw [firstFree, hb]; exact h1,?_⟩
        intro c hc
        rcases List.mem_cons.mp hc with rfl | hc
        · exact hb
        · exact h2 c hc
      · refine .inr ⟨b::us,f,vs,rfl,?_,hf,?_⟩
        · intro c hc
          rcases List.mem_cons.mp hc with rfl | hc
          · exact hb
          · exact hus c hc
        · rw [firstFree, hb, span]
          simp only [Bool.false_eq_true, if_false]
          omega

theorem last_free_split (p : ℕ) :
    (lastFree H a bs p = p ∧ ∀ b ∈ bs, b.free = false) ∨
      ∃ us f vs, bs = us++f::vs ∧ f.free = true ∧ (∀ b ∈ vs, b.free = false) ∧
        lastFree H a bs p = a+span H us := by
  induction bs generalizing a p with
  | nil => exact .inl ⟨rfl,by simp⟩
  | cons b bs ih =>
    rw [lastFree]
    rcases ih (a+(H+b.size)) (if b.free then a else p) with ⟨h1,h2⟩ | ⟨us,f,vs,rfl,hf,hvs,he⟩
    · rw [h1]
      cases hb : b.free with
      | true => exact .inr ⟨[],b,bs,rfl,hb,h2,by simp [span]⟩
      | false =>
        refine .inl ⟨by simp,?_⟩
        intro c hc
        rcases List.mem_cons.mp hc with rfl | hc
        · exact hb
        · exact h2 c hc
    · refine .inr ⟨b::us,f,vs,rfl,hf,hvs,?_⟩
      rw [span]
      omega

theorem span_zero (hH : 0 < H) (bs : List Block) (h : span H bs = 0) : bs = [] := by
  cases bs with
  | nil => rfl
  | cons b bs =>
    rw [span] at h
    omega

theorem length_le : H*bs.length ≤ span H bs := by
  induction bs with
  | nil => simp
  | cons b bs ih =>
    rw [span, List.length_cons, Nat.mul_add]
    omega

theorem spaced_append (xs ys : List Block) : Spaced (xs++ys) ↔ Spaced xs ∧ Spaced ys ∧
    ∀ b ∈ xs.getLast?, ∀ c ∈ ys.head?, ¬(b.free = true ∧ c.free = true) := by
  unfold Spaced
  rw [List.isChain_append]

theorem spaced_free (h : Spaced bs) (hf : ∀ b ∈ bs, b.free = true) : bs.length ≤ 1 := by
  match bs with
  | [] | [b] => simp
  | b::c::cs =>
    unfold Spaced at h
    rw [List.isChain_cons_cons] at h
    exact absurd ⟨hf b (by simp),hf c (by simp)⟩ h.1

theorem spaced_splice (xs new ys : List Block) (b : Block) (h : Spaced (xs++([b]++ys))) (hb : b.free = true)
    (hnew : Spaced new) : Spaced (xs++(new++ys)) := by
  rw [spaced_append, spaced_append] at h ⊢
  obtain ⟨hx,⟨-,hy,hby⟩,hxb⟩ := h
  refine ⟨hx,⟨hnew,hy,?_⟩,?_⟩
  · rintro c - d hd ⟨-,hdf⟩
    exact hby b (by simp) d hd ⟨hb,hdf⟩
  · rintro c hc d - ⟨hcf,-⟩
    exact hxb c hc b (by simp) ⟨hcf,hb⟩

def live : ℕ → List Block → List (ℕ × ℕ)
  | _, [] => []
  | a, b::bs => if b.free then live (a+(H+b.size)) bs else (a,b.size)::live (a+(H+b.size)) bs

theorem live_append (xs ys : List Block) :
    live H a (xs++ys) = live H a xs++live H (a+span H xs) ys := by
  induction xs generalizing a with
  | nil => simp [live, span]
  | cons b xs ih =>
    simp only [List.cons_append, live, span, ih, add_assoc]
    split_ifs <;> simp

theorem live_split (x k : ℕ) (h : (x,k) ∈ live H a bs) :
    ∃ us vs, bs = us++⟨k,false⟩::vs ∧ x = a+span H us := by
  induction bs generalizing a with
  | nil => simp [live] at h
  | cons b bs ih =>
    have hrest : (x,k) ∈ live H (a+(H+b.size)) bs → ∃ us vs, b::bs = us++⟨k,false⟩::vs ∧ x = a+span H us := by
      intro hm
      obtain ⟨us,vs,rfl,rfl⟩ := ih _ hm
      exact ⟨b::us,vs,rfl,by rw [span]; omega⟩
    rw [live] at h
    split_ifs at h with hb
    · exact hrest h
    · rcases List.mem_cons.mp h with he | hm
      · obtain ⟨rfl,rfl⟩ := Prod.mk.inj he
        refine ⟨[],bs,?_,by simp [span]⟩
        rw [Bool.not_eq_true] at hb
        rw [← hb]
        rfl
      · exact hrest hm

theorem live_range (x k : ℕ) (h : (x,k) ∈ live H a bs) :
    a ≤ x ∧ x+(H+k) ≤ a+span H bs := by
  obtain ⟨us,vs,rfl,rfl⟩ := live_split H a bs x k h
  rw [span_append, span]
  dsimp only
  omega

theorem live_apart {x k y m : ℕ} (hx : (x,k) ∈ live H a bs)
    (hy : (y,m) ∈ live H a bs) (hne : x ≠ y) : x+(H+k) ≤ y ∨ y+(H+m) ≤ x := by
  obtain ⟨us,vs,rfl,rfl⟩ := live_split H a bs x k hx
  rw [live_append, live] at hy
  rcases List.mem_append.mp hy with hu | hr
  · have := live_range H a us y m hu
    omega
  · rcases List.mem_cons.mp hr with he | hv
    · exact absurd (Prod.mk.inj he).1.symm hne
    · have := live_range H _ vs y m hv
      dsimp only at this
      omega

def freeAddrs : ℕ → List Block → List ℕ
  | _, [] => []
  | a, b::bs => if b.free then a::freeAddrs (a+(H+b.size)) bs else freeAddrs (a+(H+b.size)) bs

theorem free_addrs_ge (x : ℕ) (h : x ∈ freeAddrs H a bs) : a ≤ x := by
  induction bs generalizing a with
  | nil => simp [freeAddrs] at h
  | cons b bs ih =>
    rw [freeAddrs] at h
    split_ifs at h
    · rcases List.mem_cons.mp h with rfl | h
      · exact le_refl _
      · have := ih _ h
        omega
    · have := ih _ h
      omega

theorem free_addrs_increasing (hH : 0 < H) (a : ℕ) (bs : List Block) :
    (freeAddrs H a bs).Pairwise (· < ·) := by
  induction bs generalizing a with
  | nil => exact List.Pairwise.nil
  | cons b bs ih =>
    rw [freeAddrs]
    split_ifs
    · refine List.pairwise_cons.mpr ⟨?_,ih _⟩
      intro x hx
      have := free_addrs_ge H _ bs x hx
      omega
    · exact ih _

def walk : ℕ → ℕ → List ℕ
  | 0, _ => []
  | fuel+1, cur => if cur = 0 then [] else cur::walk fuel (cell cur).next

theorem walk_eq (ha : 0 < a) (bs : List Block) (hs : Seg H mark cell a bs 0) (fuel : ℕ)
    (hf : bs.length < fuel) : walk cell fuel (firstFree H a bs 0) = freeAddrs H a bs := by
  induction bs generalizing a fuel with
  | nil => cases fuel <;> simp [walk, firstFree, freeAddrs]
  | cons b bs ih =>
    obtain ⟨-,-,h3,h4⟩ := hs
    rw [List.length_cons] at hf
    cases hb : b.free with
    | false =>
      rw [firstFree, freeAddrs, hb]
      exact ih _ (by omega) h4 fuel (by omega)
    | true =>
      obtain ⟨fuel,rfl⟩ : ∃ k, fuel = k+1 := ⟨fuel-1,by omega⟩
      rw [firstFree, freeAddrs, hb, if_pos rfl, if_pos rfl, walk, if_neg (by omega), h3 hb,
        ih _ (by omega) h4 fuel (by omega)]

/-- The cells from `a` up to `stop` whose mark satisfies `p`. -/
def tally (p : τ → Bool) (stop : ℕ) : ℕ → ℕ → ℕ
  | 0, _ => 0
  | fuel+1, a =>
    if stop ≤ a then 0 else (if p (cell a).mark then 1 else 0)+tally p stop fuel (a+(H+(cell a).size))

end BlockList

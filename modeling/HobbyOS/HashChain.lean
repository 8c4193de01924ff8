import HobbyOS.IntrusiveQueue

/-!
# Hash chains threaded through a link field

A table of first cells and one link in every cell. Chain `h` is the list
that the links visit from the first cell of `h`. Searching, pushing a cell
that is on no chain and unlinking a cell act on these lists.
-/

namespace HashChain
open IntrusiveQueue Function

variable {α β : Type*}

structure Chains (α β : Type*) where
  head : β → Option α
  next : α → Option α

/-- The first cell from `o` on that satisfies `p`. -/
def find (next : α → Option α) (p : α → Bool) : ℕ → Option α → Option α
  | 0, _ => none
  | _+1, none => none
  | n+1, some a => if p a then some a else find next p n (next a)

structure Holds (c : Chains α β) (q : β → List α) : Prop where
  linked : ∀ h, Linked c.next (c.head h) (q h)
  nodup : ∀ h, (q h).Nodup
  apart : ∀ h h' a, a ∈ q h → a ∈ q h' → h = h'

theorem find_linked (next : α → Option α) (p : α → Bool) (q : List α) (o : Option α) (n : ℕ)
    (h : Linked next o q) (hn : q.length ≤ n) : find next p n o = q.find? p := by
  induction q generalizing o n with
  | nil =>
    have ho : o = none := h
    subst ho
    cases n <;> rfl
  | cons a q ih =>
    obtain ⟨rfl,hq⟩ := h
    cases n with
    | zero => simp at hn
    | succ n =>
      rw [List.length_cons] at hn
      rw [find, List.find?_cons]
      cases hp : p a with
      | true => simp
      | false => simpa using ih (next a) n hq (by omega)

theorem linked_unique (next : α → Option α) (o : Option α) (q q' : List α)
    (h : Linked next o q) (h' : Linked next o q') : q = q' := by
  induction q generalizing o q' with
  | nil =>
    have ho : o = none := h
    cases q' with
    | nil => rfl
    | cons a q' => simp [ho] at h'; cases h'.1
  | cons a q ih =>
    cases q' with
    | nil =>
      have ho : o = none := h'
      simp [ho] at h
      cases h.1
    | cons b q' =>
      have hab : a = b := Option.some.inj (h.1.symm.trans h'.1)
      subst hab
      rw [ih (next a) q' h.2 h'.2]

variable [DecidableEq α] [DecidableEq β]

def push (c : Chains α β) (h : β) (a : α) : Chains α β where
  head := update c.head h (some a)
  next := update c.next a (c.head h)

/-- The link that points to the cell behind `prev`, or the first cell of `h`. -/
def setLink (c : Chains α β) (h : β) (prev : Option α) (v : Option α) : Chains α β :=
  match prev with
  | none => { c with head := update c.head h v }
  | some p => { c with next := update c.next p v }

/-- Walk to the cell `a`, take it out and clear its link. -/
def unlinkFrom (h : β) (a : α) (c : Chains α β) : ℕ → Option α → Option α → Chains α β
  | 0, _, _ => c
  | _+1, _, none => c
  | n+1, prev, some x =>
    if x = a then
      let c := setLink c h prev (c.next a)
      { c with next := update c.next a none }
    else unlinkFrom h a c n (some x) (c.next x)

def unlink (c : Chains α β) (h : β) (a : α) (n : ℕ) : Chains α β :=
  unlinkFrom h a c n none (c.head h)

theorem holds_push (c : Chains α β) (q : β → List α) (hc : Holds c q) (h : β) (a : α)
    (ha : ∀ h', a ∉ q h') : Holds (push c h a) (update q h (a::q h)) := by
  have hkeep : ∀ h', Linked (push c h a).next (c.head h') (q h') := by
    intro h'
    apply linked_congr c.next _ _ _ (hc.linked h')
    intro b hb
    apply update_of_ne
    rintro rfl
    exact ha h' hb
  have hmem : ∀ h' b, b ∈ update q h (a::q h) h' ↔ b ∈ q h' ∨ h' = h ∧ b = a := by
    intro h' b
    by_cases hh : h' = h
    · subst hh
      simp [or_comm]
    · simp [hh]
  refine ⟨?_,?_,?_⟩
  · intro h'
    by_cases hh : h' = h
    · subst hh
      rw [update_self]
      refine ⟨update_self ..,?_⟩
      rw [show (push c h' a).next a = c.head h' from update_self ..]
      exact hkeep h'
    · rw [update_of_ne hh, show (push c h a).head h' = c.head h' from update_of_ne hh ..]
      exact hkeep h'
  · intro h'
    by_cases hh : h' = h
    · subst hh
      rw [update_self]
      exact List.nodup_cons.mpr ⟨ha h',hc.nodup h'⟩
    · rw [update_of_ne hh]
      exact hc.nodup h'
  · intro h1 h2 b hb1 hb2
    rw [hmem] at hb1 hb2
    rcases hb1 with hb1 | ⟨rfl,rfl⟩
    · rcases hb2 with hb2 | ⟨rfl,rfl⟩
      · exact hc.apart h1 h2 b hb1 hb2
      · exact absurd hb1 (ha h1)
    · rcases hb2 with hb2 | ⟨rfl,-⟩
      · exact absurd hb2 (ha h2)
      · rfl

theorem unlink_from_split (h : β) (a : α) (c : Chains α β) (l r : List α) (n : ℕ) (prev o : Option α)
    (hl : Linked c.next o (l++a::r)) (ha : a ∉ l) (hn : l.length < n) :
    unlinkFrom h a c n prev o =
      { setLink c h (l.getLast?.or prev) (c.next a) with
        next := update (setLink c h (l.getLast?.or prev) (c.next a)).next a none } := by
  induction l generalizing n prev o with
  | nil =>
    obtain ⟨rfl,-⟩ := hl
    cases n with
    | zero => simp at hn
    | succ n =>
      rw [unlinkFrom, if_pos rfl]
      rfl
  | cons x l ih =>
    obtain ⟨rfl,hl⟩ := hl
    have hx : x ≠ a := by
      rintro rfl
      simp at ha
    cases n with
    | zero => simp at hn
    | succ n =>
      rw [List.length_cons] at hn
      rw [unlinkFrom, if_neg hx, ih n (some x) (c.next x) hl (fun hm => ha (by simp [hm])) (by omega)]
      cases l with
      | nil => rfl
      | cons y l =>
        rw [List.getLast?_cons_cons]
        have hs : ((y::l).getLast?).isSome := by simp
        obtain ⟨z,hz⟩ := Option.isSome_iff_exists.mp hs
        rfl

theorem linked_skip (next : α → Option α) (o : Option α) (l r : List α) (a x : α)
    (h : Linked next o (l++[x]++a::r)) (hd : (l++[x]++a::r).Nodup) :
    Linked (update (update next x (next a)) a none) o (l++[x]++r) := by
  induction l generalizing o with
  | nil =>
    obtain ⟨ho,hx,hr⟩ := h
    simp only [List.nil_append, List.cons_append, List.nodup_cons,
      List.mem_cons, not_or] at hd
    refine ⟨ho,?_⟩
    rw [update_of_ne hd.1.1, update_self]
    apply linked_congr next _ _ _ hr
    intro b hb
    have hba : b ≠ a := fun he => hd.2.1 (he ▸ hb)
    have hbx : b ≠ x := fun he => hd.1.2 (he ▸ hb)
    rw [update_of_ne hba, update_of_ne hbx]
  | cons y l ih =>
    obtain ⟨ho,hl⟩ := h
    have hdy := List.nodup_cons.mp hd
    have hyx : y ≠ x := by
      rintro rfl
      exact hdy.1 (by simp)
    have hya : y ≠ a := by
      rintro rfl
      exact hdy.1 (by simp)
    refine ⟨ho,?_⟩
    rw [update_of_ne hya, update_of_ne hyx]
    exact ih (next y) hl hdy.2

theorem linked_unlink {c : Chains α β} {h : β} {a : α} {l r : List α} {n : ℕ}
    (hl : Linked c.next (c.head h) (l++a::r)) (hd : (l++a::r).Nodup) (hn : l.length < n) :
    Linked (unlink c h a n).next ((unlink c h a n).head h) (l++r) := by
  have ha : a ∉ l := fun hm => (List.nodup_append.mp hd).2.2 a hm a (by simp) rfl
  rw [unlink, unlink_from_split h a c l r n none _ hl ha hn]
  induction l using List.reverseRecOn with
  | nil =>
    have hr := (List.nodup_cons.mp hd).1
    rw [List.getLast?_nil, Option.or_none]
    dsimp only [setLink]
    rw [update_self]
    apply linked_congr c.next _ _ _ hl.2
    intro b hb
    apply update_of_ne
    rintro rfl
    exact hr hb
  | append_singleton l x _ =>
    rw [List.getLast?_concat]
    exact linked_skip c.next (c.head h) l r a x hl hd

theorem unlink_other {c : Chains α β} {h : β} {a : α} {l r : List α} {n : ℕ}
    (hl : Linked c.next (c.head h) (l++a::r)) (ha : a ∉ l) (hn : l.length < n) :
    (∀ h', h' ≠ h → (unlink c h a n).head h' = c.head h') ∧
      ∀ b, b ∉ l++a::r → (unlink c h a n).next b = c.next b := by
  rw [unlink, unlink_from_split h a c l r n none _ hl ha hn, Option.or_none]
  cases hp : l.getLast? with
  | none =>
    refine ⟨fun h' hh => update_of_ne hh _ _,fun b hb => ?_⟩
    exact update_of_ne (fun he => hb (by simp [he])) _ _
  | some x =>
    refine ⟨fun _ _ => rfl,fun b hb => ?_⟩
    have hx : x ∈ l := List.mem_of_getLast? hp
    dsimp only [setLink]
    rw [update_of_ne (fun he => hb (by simp [he])),
      update_of_ne (fun he => hb (by simp [he, hx]))]

theorem holds_unlink (c : Chains α β) (q : β → List α) (hc : Holds c q) (h : β) (a : α) (n : ℕ)
    (ha : a ∈ q h) (hn : (q h).length ≤ n) :
    Holds (unlink c h a n) (update q h ((q h).erase a)) := by
  obtain ⟨l,r,hq⟩ := List.append_of_mem ha
  have hd := hq ▸ hc.nodup h
  have hal : a ∉ l := fun hm => (List.nodup_append.mp hd).2.2 a hm a (by simp) rfl
  have hlen : l.length < n := by
    rw [hq, List.length_append, List.length_cons] at hn
    omega
  have hlh := hq ▸ hc.linked h
  obtain ⟨hhead,hnext⟩ := unlink_other hlh hal hlen
  have herase : (q h).erase a = l++r := by
    rw [hq, List.erase_append_right _ hal, List.erase_cons_head]
  have hsub : ∀ h' b, b ∈ update q h ((q h).erase a) h' → b ∈ q h' := by
    intro h' b hb
    by_cases hh : h' = h
    · subst hh
      rw [update_self] at hb
      exact List.mem_of_mem_erase hb
    · rwa [update_of_ne hh] at hb
  refine ⟨?_,?_,fun h1 h2 b h1' h2' => hc.apart h1 h2 b (hsub h1 b h1') (hsub h2 b h2')⟩
  · intro h'
    by_cases hh : h' = h
    · subst hh
      rw [update_self, herase]
      exact linked_unlink hlh hd hlen
    · rw [update_of_ne hh, hhead h' hh]
      apply linked_congr c.next _ _ _ (hc.linked h')
      intro b hb
      apply hnext
      rw [← hq]
      exact fun hm => hh (hc.apart h' h b hb hm)
  · intro h'
    by_cases hh : h' = h
    · subst hh
      rw [update_self]
      exact (hc.nodup h').erase a
    · rw [update_of_ne hh]
      exact hc.nodup h'

end HashChain

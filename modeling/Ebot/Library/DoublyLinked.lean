import Mathlib.Data.List.Nodup
import Mathlib.Logic.Function.Basic

/-!
# Doubly linked orders

A chain of cells: two ends, and for every cell the links to its successor and
its predecessor.  `Orders` says which list of cells the links run through.  The
four operations relink single cells; each of them has one lemma, which says
what it does to the list.
-/

namespace DoublyLinked

open Function

universe u

/-- The ends of a chain and the links of its cells. -/
@[ext]
structure Chain (ι : Type u) where
  head : Option ι
  tail : Option ι
  next : ι → Option ι
  prev : ι → Option ι

namespace Chain

variable {ι : Type u}

/-- The chain runs through the cells of a list.  The predecessor of the first
of them is left open. -/
structure Threads (c : Chain ι) (xs : List ι) : Prop where
  nodup : xs.Nodup
  head : c.head = xs.head?
  tail : c.tail = xs.getLast?
  next : ∀ l x r, xs = l ++ x :: r → c.next x = r.head?
  prev : ∀ l x y r, xs = l ++ x :: y :: r → c.prev y = some x

/-- The chain runs through the cells of a list, from one end to the other. -/
structure Orders (c : Chain ι) (xs : List ι) : Prop extends Threads c xs where
  first : ∀ x r, xs = x :: r → c.prev x = none

/-- The cells met when following `next` for at most `n` cells. -/
def walk (c : Chain ι) : Nat → Option ι → List ι
  | 0, _ => []
  | _, none => []
  | n + 1, some x => x :: walk c n (c.next x)

section Operations

variable [DecidableEq ι] (c : Chain ι)

/-- The first cell leaves; `y` is the second. -/
def popFront (y : ι) : Chain ι :=
  { c with head := some y, prev := update c.prev y none }

/-- The cell `x` enters behind the last cell `t`. -/
def pushBack (t x : ι) : Chain ι :=
  { c with
    tail := some x
    next := update (update c.next t (some x)) x none
    prev := update c.prev x (some t) }

/-- The predecessor of a cell is set. -/
def setPrev (x : ι) (o : Option ι) : Chain ι :=
  { c with prev := update c.prev x o }

/-- The cell `x` is linked to the first cell `h` and becomes the head. -/
def linkFront (h x : ι) : Chain ι :=
  { c with
    head := some x
    next := update c.next x (some h)
    prev := update c.prev h (some x) }

/-- The cell `x`, whose predecessor is `p`, leaves. -/
def unlink (p x : ι) : Chain ι :=
  match c.next x with
  | none => { c with tail := some p, next := update c.next p none }
  | some n =>
      { c with
        next := update c.next p (some n)
        prev := update c.prev n (some p) }

end Operations

section Lists

variable {l r xs ys : List ι} {x y z w : ι}

/-- A cell that follows another one is in the tail. -/
theorem mem_tail_of_split
    (h : xs = l ++ z :: w :: r) :
    w ∈ xs.tail := by
  subst h
  cases l <;> simp

/-- In a list without repetitions a cell has one place. -/
theorem split_unique
    {l' r' : List ι}
    (hnodup : xs.Nodup)
    (h : xs = l ++ x :: r)
    (h' : xs = l' ++ x :: r') :
    l = l' ∧ r = r' := by
  subst h
  induction l generalizing l' with
  | nil =>
      cases l' with
      | nil => exact ⟨rfl, (List.cons.inj h').2⟩
      | cons a l' =>
          obtain ⟨rfl, rfl⟩ := List.cons.inj h'
          simp at hnodup
  | cons a l ih =>
      cases l' with
      | nil =>
          obtain ⟨rfl, rfl⟩ := List.cons.inj h'
          simp at hnodup
      | cons b l' =>
          obtain ⟨rfl, htail⟩ := List.cons.inj h'
          obtain ⟨rfl, rfl⟩ := ih (List.nodup_cons.mp hnodup).2 htail
          exact ⟨rfl, rfl⟩

end Lists

section Orders

variable {c : Chain ι} {l r xs ys : List ι} {x y h t p : ι}

/-- A chain of one cell. -/
theorem threads_singleton
    (hhead : c.head = some x)
    (htail : c.tail = some x)
    (hnext : c.next x = none) :
    c.Threads [x] := by
  refine ⟨List.nodup_singleton x, hhead, htail, ?_, ?_⟩
  · intro l y r hxs
    rcases List.singleton_eq_append_iff.mp hxs with ⟨-, hy⟩ | ⟨-, hy⟩
    · obtain ⟨rfl, rfl⟩ := List.cons.inj hy
      exact hnext
    · cases hy
  · intro l y z r hxs
    have hlen := congrArg List.length hxs
    simp only [List.length_append, List.length_cons, List.length_nil] at hlen
    omega

/-- The successor of a cell. -/
theorem Threads.next_iff
    (hc : c.Threads xs)
    (hx : x ∈ xs) :
    c.next x = some y ↔ ∃ l r, xs = l ++ x :: y :: r := by
  obtain ⟨l, r, hxs⟩ := List.append_of_mem hx
  constructor
  · intro hy
    rw [hc.next l x r hxs] at hy
    cases r with
    | nil => cases hy
    | cons y' r =>
        cases hy
        exact ⟨l, r, hxs⟩
  · rintro ⟨l', r', hxs'⟩
    rw [hc.next l' x _ hxs']
    rfl

/-- `prev` is the inverse of `next`. -/
theorem Orders.next_iff_prev
    (hc : c.Orders xs)
    (hx : x ∈ xs)
    (hy : y ∈ xs) :
    c.next x = some y ↔ c.prev y = some x := by
  rw [hc.next_iff hx]
  constructor
  · rintro ⟨l, r, hxs⟩
    exact hc.prev l x y r hxs
  · intro hprev
    obtain ⟨l, r, hxs⟩ := List.append_of_mem hy
    rcases List.eq_nil_or_concat l with rfl | ⟨l, x', rfl⟩
    · rw [hc.first y r hxs] at hprev
      cases hprev
    · have hxs' : xs = l ++ x' :: y :: r := by simpa using hxs
      rw [hc.prev l x' y r hxs'] at hprev
      cases hprev
      exact ⟨l, r, hxs'⟩

/-- Following `next` from a cell visits the cells from there on, once each, and
then ends. -/
theorem Threads.walk_eq
    {n : Nat}
    (hc : c.Threads xs)
    (hxs : xs = l ++ r)
    (hn : r.length ≤ n) :
    c.walk n r.head? = r := by
  induction r generalizing l n with
  | nil => cases n <;> rfl
  | cons x r ih =>
      cases n with
      | zero => simp at hn
      | succ n =>
          have hnext := hc.next l x r hxs
          have hrest := ih (l := l ++ [x]) (n := n) (by simpa using hxs) (by simpa using hn)
          simp only [List.head?_cons, walk, hnext, hrest]

variable [DecidableEq ι]

/-- The predecessor of a cell that follows none is free to be set. -/
theorem Threads.setPrev
    (o : Option ι)
    (hc : c.Threads xs)
    (hx : x ∉ xs.tail) :
    (c.setPrev x o).Threads xs := by
  refine ⟨hc.nodup, hc.head, hc.tail, hc.next, ?_⟩
  intro l z w r hxs
  have hne : w ≠ x := fun he => hx (he ▸ mem_tail_of_split hxs)
  exact (update_of_ne hne _ _).trans (hc.prev l z w r hxs)

/-- The first cell gets no predecessor. -/
theorem Threads.orders
    (hc : c.Threads (x :: ys)) :
    (c.setPrev x none).Orders (x :: ys) := by
  refine ⟨hc.setPrev none (List.nodup_cons.mp hc.nodup).1, ?_⟩
  rintro z r ⟨⟩
  exact update_self _ _ _

/-- A new cell is linked to the front. -/
theorem Threads.linkFront
    (hc : c.Threads (h :: ys))
    (hx : x ∉ h :: ys) :
    (c.linkFront h x).Threads (x :: h :: ys) := by
  refine ⟨List.nodup_cons.mpr ⟨hx, hc.nodup⟩, rfl, ?_, ?_, ?_⟩
  · rw [List.getLast?_cons_cons]
    exact hc.tail
  · intro l z r hxs
    cases l with
    | nil =>
        obtain ⟨rfl, rfl⟩ := List.cons.inj hxs
        exact update_self _ _ _
    | cons a l =>
        obtain ⟨rfl, htail⟩ := List.cons.inj hxs
        have hne : z ≠ x := by
          rintro rfl
          exact hx (htail ▸ by simp)
        exact (update_of_ne hne _ _).trans (hc.next l z r htail)
  · intro l z w r hxs
    cases l with
    | nil =>
        obtain ⟨rfl, htail⟩ := List.cons.inj hxs
        obtain ⟨rfl, rfl⟩ := List.cons.inj htail
        exact update_self _ _ _
    | cons a l =>
        obtain ⟨rfl, htail⟩ := List.cons.inj hxs
        have hne : w ≠ h := by
          rintro rfl
          exact (List.nodup_cons.mp hc.nodup).1 (mem_tail_of_split htail)
        exact (update_of_ne hne _ _).trans (hc.prev l z w r htail)

/-- A new cell without a predecessor is linked to the front. -/
theorem Orders.linkFront
    (hc : c.Orders (h :: ys))
    (hx : x ∉ h :: ys) :
    ((c.setPrev x none).linkFront h x).Orders (x :: h :: ys) := by
  have hx' : x ∉ (h :: ys).tail := fun hmem => hx (List.mem_cons_of_mem h hmem)
  refine ⟨(hc.toThreads.setPrev none hx').linkFront hx, ?_⟩
  rintro z r ⟨⟩
  have hne : x ≠ h := fun he => hx (he ▸ List.mem_cons_self)
  exact (update_of_ne hne _ _).trans (update_self _ _ _)

/-- The first cell leaves. -/
theorem Orders.popFront
    (hc : c.Orders (x :: y :: ys)) :
    (c.popFront y).Orders (y :: ys) := by
  have hrest : ({ c with head := some y } : Chain ι).Threads (y :: ys) := by
    refine ⟨(List.nodup_cons.mp hc.nodup).2, rfl, ?_, ?_, ?_⟩
    · rw [← List.getLast?_cons_cons]
      exact hc.tail
    · intro l z r hxs
      exact hc.next (x :: l) z r (by rw [hxs]; rfl)
    · intro l z w r hxs
      exact hc.prev (x :: l) z w r (by rw [hxs]; rfl)
  exact hrest.orders

/-- A new cell enters at the end. -/
theorem Orders.pushBack
    (hc : c.Orders xs)
    (ht : xs.getLast? = some t)
    (hx : x ∉ xs) :
    (c.pushBack t x).Orders (xs ++ [x]) := by
  obtain ⟨ys, hys⟩ : ∃ ys, xs = ys ++ [t] := List.getLast?_eq_some_iff.mp ht
  have hcase : ∀ {l z r}, xs ++ [x] = l ++ z :: r →
      l = xs ∧ z = x ∧ r = [] ∨ ∃ r', r = r' ++ [x] ∧ xs = l ++ z :: r' := by
    intro l z r hsplit
    rcases List.eq_nil_or_concat r with rfl | ⟨r', w, rfl⟩
    · obtain ⟨rfl, hz⟩ := List.append_inj' hsplit rfl
      exact .inl ⟨rfl, (List.cons.inj hz).1.symm, rfl⟩
    · right
      have hsplit' : xs ++ [x] = (l ++ z :: r') ++ [w] := by simpa using hsplit
      obtain ⟨hxs, hw⟩ := List.append_inj' hsplit' rfl
      obtain ⟨rfl, -⟩ := List.cons.inj hw
      exact ⟨r', by simp, hxs⟩
  have hin : ∀ {l z r}, xs = l ++ z :: r → z ≠ x := by
    rintro l z r hxs rfl
    exact hx (hxs ▸ by simp)
  refine ⟨⟨?_, ?_, ?_, ?_, ?_⟩, ?_⟩
  · rw [List.nodup_append]
    refine ⟨hc.nodup, by simp, ?_⟩
    rintro a ha b hb rfl
    exact hx (List.mem_singleton.mp hb ▸ ha)
  · rw [Chain.pushBack, hc.head, hys]
    cases ys <;> rfl
  · rw [List.getLast?_concat]
    rfl
  · intro l z r hsplit
    rcases hcase hsplit with ⟨rfl, rfl, rfl⟩ | ⟨r', rfl, hxs⟩
    · exact update_self _ _ _
    · dsimp only [Chain.pushBack]
      rw [update_of_ne (hin hxs)]
      by_cases hz : z = t
      · subst hz
        -- the old last cell: nothing came after it
        obtain ⟨rfl, rfl⟩ := split_unique hc.nodup hxs hys
        exact update_self _ _ _
      · rw [update_of_ne hz, hc.next l z r' hxs]
        cases r' with
        | nil =>
            rw [hys] at hxs
            exact absurd (List.cons.inj (List.append_inj' hxs rfl).2).1.symm hz
        | cons w r' => rfl
  · intro l z w r hsplit
    have hsplit' : xs ++ [x] = (l ++ [z]) ++ w :: r := by simpa using hsplit
    rcases hcase hsplit' with ⟨hl, rfl, rfl⟩ | ⟨r', rfl, hxs⟩
    · have hzt : z = t := by
        rw [← hl, List.getLast?_concat] at ht
        exact Option.some.inj ht
      dsimp only [Chain.pushBack]
      rw [hzt]
      exact update_self _ _ _
    · dsimp only [Chain.pushBack]
      rw [update_of_ne (hin hxs)]
      exact hc.prev l z w r' (by simpa using hxs)
  · intro z r hsplit
    rcases hcase (l := []) hsplit with ⟨hl, -, -⟩ | ⟨r', -, hxs⟩
    · rw [← hl] at ht
      cases ht
    · dsimp only [Chain.pushBack]
      rw [update_of_ne (hin (l := []) hxs)]
      exact hc.first z r' hxs

/-- Without the cell `x` only its predecessor `p` has another successor. -/
theorem Orders.next_without
    {l' r' : List ι} {z : ι}
    (hc : c.Orders (l ++ p :: x :: r))
    (hnodup : (l ++ p :: r).Nodup)
    (hsplit : l ++ p :: r = l' ++ z :: r') :
    z = p ∧ r' = r ∨ z ≠ p ∧ c.next z = r'.head? := by
  by_cases hz : z = p
  · subst hz
    exact .inl ⟨rfl, (split_unique hnodup rfl hsplit).2.symm⟩
  · refine .inr ⟨hz, ?_⟩
    rcases List.append_eq_append_iff.mp hsplit with ⟨m, rfl, hm⟩ | ⟨m, rfl, hm⟩
    · cases m with
      | nil => exact absurd (List.cons.inj hm).1.symm hz
      | cons a m =>
          obtain ⟨rfl, rfl⟩ := List.cons.inj hm
          exact hc.next (l ++ p :: x :: m) z r' (by simp)
    · cases m with
      | nil => exact absurd (List.cons.inj hm).1 hz
      | cons a m =>
          obtain ⟨rfl, rfl⟩ := List.cons.inj hm
          rw [hc.next l' z (m ++ p :: x :: r) (by simp)]
          cases m <;> rfl

/-- Without it only its successor has another predecessor. -/
theorem Orders.prev_without
    {l' r' : List ι} {z w : ι}
    (hc : c.Orders (l ++ p :: x :: r))
    (hnodup : (l ++ p :: r).Nodup)
    (hsplit : l ++ p :: r = l' ++ z :: w :: r') :
    z = p ∧ r = w :: r' ∨ r.head? ≠ some w ∧ c.prev w = some z := by
  rcases hc.next_without hnodup hsplit with ⟨rfl, rfl⟩ | ⟨hz, hnext⟩
  · exact .inl ⟨rfl, rfl⟩
  · refine .inr ⟨?_, ?_⟩
    · intro hw
      obtain ⟨r, rfl⟩ := List.head?_eq_some_iff.mp hw
      have hsplit' : l ++ p :: w :: r = (l' ++ [z]) ++ w :: r' := by simpa using hsplit
      have huniq := split_unique hnodup (l := l ++ [p]) (r := r) (by simp) hsplit'
      exact hz (List.cons.inj (List.append_inj' huniq.1 rfl).2).1.symm
    · have hz' : z ∈ l ++ p :: r := hsplit ▸ by simp
      have hmem : z ∈ l ++ p :: x :: r := by
        simp only [List.mem_append, List.mem_cons] at hz' ⊢
        tauto
      obtain ⟨l₁, r₁, h₁⟩ := (hc.next_iff hmem).mp hnext
      exact hc.prev l₁ z w r₁ h₁

/-- A cell that is not the first leaves. -/
theorem Orders.unlink
    (hc : c.Orders (l ++ p :: x :: r)) :
    (c.unlink p x).Orders (l ++ p :: r) := by
  have hnodup : (l ++ p :: r).Nodup :=
    hc.nodup.sublist
      ((List.Sublist.refl l).append ((List.sublist_cons_self x r).cons_cons p))
  have hnext : c.next x = r.head? := hc.next (l ++ [p]) x r (by simp)
  have hhead : c.head = (l ++ p :: r).head? := by
    rw [hc.head]
    cases l <;> rfl
  have hfirst : ∀ z r', l ++ p :: r = z :: r' → c.prev z = none := by
    intro z r' hsplit
    refine hc.first z (l ++ p :: x :: r).tail ?_
    cases l <;> rw [(List.cons.inj hsplit).1.symm] <;> rfl
  have hlinks : ∀ {o : Option ι}, o = r.head? → ∀ l' z r', l ++ p :: r = l' ++ z :: r' →
      update c.next p o z = r'.head? := by
    rintro o rfl l' z r' hsplit
    rcases hc.next_without hnodup hsplit with ⟨rfl, rfl⟩ | ⟨hz, hnz⟩
    · exact update_self _ _ _
    · exact (update_of_ne hz _ _).trans hnz
  unfold Chain.unlink
  cases r with
  | nil =>
      rw [hnext]
      refine ⟨⟨hnodup, hhead, ?_, hlinks rfl, ?_⟩, hfirst⟩
      · rw [List.getLast?_concat]
        rfl
      · intro l' z w r' hsplit
        rcases hc.prev_without hnodup hsplit with ⟨-, hr⟩ | ⟨-, hw⟩
        · cases hr
        · exact hw
  | cons n r =>
      rw [hnext]
      have htail : c.tail = (l ++ p :: n :: r).getLast? := by
        rw [hc.tail]
        simp [List.getLast?_append]
      refine ⟨⟨hnodup, hhead, htail, hlinks rfl, ?_⟩, ?_⟩
      · intro l' z w r' hsplit
        rcases hc.prev_without hnodup hsplit with ⟨rfl, hr⟩ | ⟨hn, hw⟩
        · obtain ⟨rfl, -⟩ := List.cons.inj hr
          exact update_self _ _ _
        · have hne : w ≠ n := fun he => hn (he ▸ rfl)
          exact (update_of_ne hne _ _).trans hw
      · intro z r' hsplit
        have hne : z ≠ n := by
          rintro rfl
          rw [hsplit] at hnodup
          have hmem : z ∈ (l ++ p :: z :: r).tail := by
            cases l <;> simp
          rw [hsplit] at hmem
          exact (List.nodup_cons.mp hnodup).1 hmem
        exact (update_of_ne hne _ _).trans (hfirst z r' hsplit)

end Orders

end Chain

end DoublyLinked

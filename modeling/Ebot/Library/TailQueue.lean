import Mathlib.Data.List.Nodup
import Mathlib.Logic.Function.Basic

/-!
# Tail queues

Queues threaded through their elements.  A header holds the first element and the
address of the link where the next element is to be hung; an element holds its successor
and the address of the link that points to it.  The elements of all queues lie in one
memory, so what is done to one queue has to leave the others alone.
-/

namespace TailQueue

open Function

universe u v

/-- The address of a link: the one in the header of a queue, or the one in an element. -/
inductive Addr (κ : Type u) (ε : Type v) where
  | head (k : κ)
  | elem (x : ε)
deriving DecidableEq

/-- The headers and the links of the elements.  A wiped element points to nothing. -/
structure Links (κ : Type u) (ε : Type v) where
  first : κ → Option ε
  last : κ → Addr κ ε
  next : ε → Option ε
  prev : ε → Option (Addr κ ε)

namespace Links

/-- Every header is initialised, and no element was ever linked. -/
def init {κ : Type u} {ε : Type v} : Links κ ε :=
  { first := fun _ => none
    last := fun k => .head k
    next := fun _ => none
    prev := fun _ => none }

variable {κ : Type u} {ε : Type v} [DecidableEq κ] [DecidableEq ε] (q : Links κ ε)

/-- A link is written through its address. -/
def store (a : Addr κ ε) (o : Option ε) : Links κ ε :=
  match a with
  | .head k => { q with first := update q.first k o }
  | .elem x => { q with next := update q.next x o }

/-- The memory of an element is zeroed. -/
def wipe (x : ε) : Links κ ε :=
  { q with next := update q.next x none, prev := update q.prev x none }

/-- An element is hung behind the last one. -/
def insertTail (k : κ) (x : ε) : Links κ ε :=
  let q : Links κ ε :=
    { q with next := update q.next x none, prev := update q.prev x (some (q.last k)) }
  let q := q.store (q.last k) (some x)
  { q with last := update q.last k (.elem x) }

/-- An element is taken out of a queue: its successor, or the header, gets the address
that it held, and the link there gets its successor.  An element that was wiped holds
none. -/
def remove (k : κ) (x : ε) : Option (Links κ ε) :=
  match q.prev x with
  | none => none
  | some a =>
      let q : Links κ ε :=
        match q.next x with
        | some y => { q with prev := update q.prev y (some a) }
        | none => { q with last := update q.last k a }
      some (q.store a (q.next x))

end Links

/-- The link where an element behind these is hung. -/
def lastAddr {κ : Type u} {ε : Type v} (k : κ) (xs : List ε) : Addr κ ε :=
  match xs.getLast? with
  | none => .head k
  | some x => .elem x

/-- A queue runs through the elements of a list. -/
structure Chains {κ : Type u} {ε : Type v} (q : Links κ ε) (k : κ) (xs : List ε) : Prop where
  nodup : xs.Nodup
  first : q.first k = xs.head?
  last : q.last k = lastAddr k xs
  next : ∀ l x r, xs = l ++ x :: r → q.next x = r.head?
  prev : ∀ l x r, xs = l ++ x :: r → q.prev x = some (lastAddr k l)

section Chains

variable {κ : Type u} {ε : Type v}
variable {q q' : Links κ ε} {k k' : κ} {l r xs ys : List ε} {x y : ε}

theorem lastAddr_concat :
    lastAddr k (xs ++ [x]) = .elem x := by
  rw [lastAddr, List.getLast?_concat]

/-- The link behind a list is in one of its elements, or in the header. -/
theorem lastAddr_cases
    (k : κ) (xs : List ε) :
    xs = [] ∧ lastAddr k xs = .head k ∨ ∃ ys x, xs = ys ++ [x] ∧ lastAddr k xs = .elem x := by
  rcases List.eq_nil_or_concat xs with rfl | ⟨ys, x, rfl⟩
  · exact .inl ⟨rfl, rfl⟩
  · right
    refine ⟨ys, x, ?_, ?_⟩
    · rw [List.concat_eq_append]
    · rw [List.concat_eq_append, lastAddr_concat]

/-- A queue depends on its header and on its elements only. -/
theorem Chains.congr
    (h : Chains q k xs)
    (hfirst : q'.first k = q.first k)
    (hlast : q'.last k = q.last k)
    (hnext : ∀ x ∈ xs, q'.next x = q.next x)
    (hprev : ∀ x ∈ xs, q'.prev x = q.prev x) :
    Chains q' k xs := by
  refine ⟨h.nodup, hfirst.trans h.first, hlast.trans h.last, ?_, ?_⟩
  · intro l x r hxs
    rw [hnext x (by rw [hxs]; simp)]
    exact h.next l x r hxs
  · intro l x r hxs
    rw [hprev x (by rw [hxs]; simp)]
    exact h.prev l x r hxs

/-- The link behind a list is not of another queue. -/
theorem lastAddr_foreign
    (hk : k' ≠ k)
    (hdis : ∀ x ∈ xs, x ∉ ys) :
    lastAddr k xs ≠ .head k' ∧ ∀ y ∈ ys, lastAddr k xs ≠ .elem y := by
  rcases lastAddr_cases k xs with ⟨-, he⟩ | ⟨zs, x, rfl, he⟩ <;> rw [he]
  · refine ⟨fun h => hk ?_, fun y hy h => ?_⟩
    · cases h
      rfl
    · cases h
  · refine ⟨fun h => ?_, fun y hy h => ?_⟩
    · cases h
    · cases h
      exact hdis x (by simp) hy

/-- What is in front of an element of a list with one more at its end. -/
theorem concat_cases
    (h : xs ++ [x] = l ++ y :: r) :
    l = xs ∧ y = x ∧ r = [] ∨ ∃ r', r = r' ++ [x] ∧ xs = l ++ y :: r' := by
  rcases List.eq_nil_or_concat r with rfl | ⟨r', w, rfl⟩
  · obtain ⟨rfl, hy⟩ := List.append_inj' h rfl
    exact .inl ⟨rfl, (List.cons.inj hy).1.symm, rfl⟩
  · right
    have h' : xs ++ [x] = (l ++ y :: r') ++ [w] := by simpa using h
    obtain ⟨hxs, hw⟩ := List.append_inj' h' rfl
    obtain ⟨rfl, -⟩ := List.cons.inj hw
    exact ⟨r', by simp, hxs⟩

/-- A fresh queue is empty. -/
theorem chains_init
    (k : κ) :
    Chains (Links.init : Links κ ε) k [] := by
  refine ⟨List.nodup_nil, rfl, rfl, ?_, ?_⟩
  · intro l x r hnil
    cases l <;> cases hnil
  · intro l x r hnil
    cases l <;> cases hnil

end Chains

section Operations

variable {κ : Type u} {ε : Type v} [DecidableEq κ] [DecidableEq ε]
variable {q : Links κ ε} {k k' : κ} {l r xs ys : List ε} {x y z : ε}

omit [DecidableEq κ] in
/-- Wiping an element that is not in the queue. -/
theorem Chains.wipe
    (h : Chains q k xs)
    (hx : x ∉ xs) :
    Chains (q.wipe x) k xs := by
  have hne : ∀ y ∈ xs, y ≠ x := fun y hy he => hx (he ▸ hy)
  exact h.congr rfl rfl (fun y hy => update_of_ne (hne y hy) _ _)
    fun y hy => update_of_ne (hne y hy) _ _

/-- Writing a link that is not of the queue. -/
theorem Chains.store
    {a : Addr κ ε} {o : Option ε}
    (h : Chains q k xs)
    (hhead : a ≠ .head k)
    (helem : ∀ x ∈ xs, a ≠ .elem x) :
    Chains (q.store a o) k xs := by
  cases a with
  | head k' =>
      have hk : k ≠ k' := fun he => hhead (he ▸ rfl)
      exact h.congr (update_of_ne hk _ _) rfl (fun _ _ => rfl) fun _ _ => rfl
  | elem y =>
      refine h.congr rfl rfl (fun x hx => ?_) fun _ _ => rfl
      exact update_of_ne (fun he : x = y => helem x hx (he ▸ rfl)) _ _

/-- Inserting into one queue leaves the others alone. -/
theorem Chains.insertTail_other
    (hown : Chains q k xs)
    (h : Chains q k' ys)
    (hk : k' ≠ k)
    (hdis : ∀ z ∈ xs, z ∉ ys)
    (hx : x ∉ ys) :
    Chains (q.insertTail k x) k' ys := by
  obtain ⟨hhead, helem⟩ := lastAddr_foreign hk hdis
  rw [← hown.last] at hhead helem
  have hne : ∀ y ∈ ys, y ≠ x := fun y hy he => hx (he ▸ hy)
  have hfilled : Chains
      { q with next := update q.next x none, prev := update q.prev x (some (q.last k)) }
      k' ys :=
    h.congr rfl rfl (fun y hy => update_of_ne (hne y hy) _ _)
      fun y hy => update_of_ne (hne y hy) _ _
  refine (hfilled.store (o := some x) hhead helem).congr rfl ?_ (fun _ _ => rfl) fun _ _ => rfl
  exact update_of_ne hk _ _

/-- An element is hung into an empty queue. -/
theorem Chains.insertTail_nil
    (h : Chains q k []) :
    Chains (q.insertTail k x) k [x] := by
  have hlast : q.last k = .head k := h.last
  rw [Links.insertTail, hlast]
  refine ⟨List.nodup_singleton x, update_self _ _ _, update_self _ _ _, ?_, ?_⟩
  · intro l y r hxs
    rcases List.singleton_eq_append_iff.mp hxs with ⟨rfl, hy⟩ | ⟨-, hy⟩
    · obtain ⟨rfl, rfl⟩ := List.cons.inj hy
      exact update_self _ _ _
    · cases hy
  · intro l y r hxs
    rcases List.singleton_eq_append_iff.mp hxs with ⟨rfl, hy⟩ | ⟨-, hy⟩
    · obtain ⟨rfl, rfl⟩ := List.cons.inj hy
      exact update_self _ _ _
    · cases hy

/-- An element is hung behind the last one. -/
theorem Chains.insertTail_concat
    (h : Chains q k (xs ++ [z]))
    (hx : x ∉ xs ++ [z]) :
    Chains (q.insertTail k x) k ((xs ++ [z]) ++ [x]) := by
  have hlast : q.last k = .elem z := h.last.trans lastAddr_concat
  have hin : ∀ {l y r}, xs ++ [z] = l ++ y :: r → y ≠ x := by
    rintro l y r hsplit rfl
    exact hx (hsplit ▸ by simp)
  rw [Links.insertTail, hlast]
  refine ⟨?_, ?_, (update_self _ _ _).trans lastAddr_concat.symm, ?_, ?_⟩
  · rw [List.nodup_append]
    refine ⟨h.nodup, List.nodup_singleton x, ?_⟩
    rintro a ha b hb rfl
    exact hx (List.mem_singleton.mp hb ▸ ha)
  · refine h.first.trans ?_
    cases xs <;> rfl
  · intro l y r hsplit
    rcases concat_cases hsplit with ⟨-, rfl, rfl⟩ | ⟨r', rfl, hxs⟩
    · exact (update_of_ne (hin (l := xs) (r := []) rfl).symm _ _).trans (update_self _ _ _)
    · rcases concat_cases hxs with ⟨-, rfl, rfl⟩ | ⟨r'', rfl, hmem⟩
      · exact update_self _ _ _
      · have hyz : y ≠ z := by
          rintro rfl
          have hnodup := h.nodup
          rw [hmem] at hnodup
          simp [List.nodup_append] at hnodup
        refine ((update_of_ne hyz _ _).trans (update_of_ne (hin hxs) _ _)).trans ?_
        rw [h.next l y _ hxs]
        cases r'' <;> rfl
  · intro l y r hsplit
    rcases concat_cases hsplit with ⟨rfl, rfl, -⟩ | ⟨r', -, hxs⟩
    · exact (update_self _ _ _).trans (congrArg some lastAddr_concat.symm)
    · exact (update_of_ne (hin hxs) _ _).trans (h.prev l y r' hxs)

/-- An element enters at the end. -/
theorem Chains.insertTail
    (h : Chains q k xs)
    (hx : x ∉ xs) :
    Chains (q.insertTail k x) k (xs ++ [x]) := by
  rcases List.eq_nil_or_concat xs with rfl | ⟨ys, z, rfl⟩
  · exact h.insertTail_nil
  · rw [List.concat_eq_append] at h hx ⊢
    exact h.insertTail_concat hx

/-- Removing an element without a successor. -/
theorem Links.remove_of_none
    {a : Addr κ ε}
    (hprev : q.prev x = some a)
    (hnext : q.next x = none) :
    q.remove k x = some (({ q with last := update q.last k a } : Links κ ε).store a none) := by
  simp only [Links.remove, hprev, hnext]

/-- Removing an element with a successor. -/
theorem Links.remove_of_some
    {a : Addr κ ε}
    (hprev : q.prev x = some a)
    (hnext : q.next x = some y) :
    q.remove k x =
      some (({ q with prev := update q.prev y (some a) } : Links κ ε).store a (some y)) := by
  simp only [Links.remove, hprev, hnext]

/-- The only element leaves. -/
theorem Chains.removeFirst_nil
    (h : Chains q k [x]) :
    ∃ q', q.remove k x = some q' ∧ Chains q' k [] ∧
      ∀ k' ys, k' ≠ k → Chains q k' ys → Chains q' k' ys := by
  refine ⟨_, Links.remove_of_none (h.prev [] x [] rfl) (h.next [] x [] rfl), ?_, ?_⟩
  · refine ⟨List.nodup_nil, update_self _ _ _, update_self _ _ _, ?_, ?_⟩
    · intro l z r hnil
      cases l <;> cases hnil
    · intro l z r hnil
      cases l <;> cases hnil
  · intro k' ys hk hother
    exact hother.congr (update_of_ne hk _ _) (update_of_ne hk _ _) (fun _ _ => rfl)
      fun _ _ => rfl

/-- The first of several elements leaves. -/
theorem Chains.removeFirst_cons
    (h : Chains q k (x :: y :: xs)) :
    ∃ q', q.remove k x = some q' ∧ Chains q' k (y :: xs) ∧
      ∀ k' ys, k' ≠ k → y ∉ ys → Chains q k' ys → Chains q' k' ys := by
  refine ⟨_, Links.remove_of_some (h.prev [] x _ rfl) (h.next [] x _ rfl), ?_, ?_⟩
  · have hnodup : (y :: xs).Nodup := (List.nodup_cons.mp h.nodup).2
    refine ⟨hnodup, update_self _ _ _, ?_, ?_, ?_⟩
    · refine h.last.trans ?_
      rw [lastAddr, lastAddr, List.getLast?_cons_cons]
    · intro l z r hxs
      exact h.next (x :: l) z r (by rw [hxs]; rfl)
    · intro l z r hxs
      cases l with
      | nil =>
          obtain ⟨rfl, rfl⟩ := List.cons.inj hxs
          exact update_self _ _ _
      | cons w l =>
          obtain ⟨rfl, htail⟩ := List.cons.inj hxs
          have hne : z ≠ y := by
            rintro rfl
            exact (List.nodup_cons.mp hnodup).1 (htail ▸ by simp)
          refine (update_of_ne hne _ _).trans ?_
          rw [h.prev (x :: y :: l) z r (by rw [htail]; rfl), lastAddr, lastAddr,
            List.getLast?_cons_cons]
  · intro k' ys hk hy hother
    refine hother.congr (update_of_ne hk _ _) rfl (fun _ _ => rfl) fun z hz => ?_
    exact update_of_ne (fun he : z = y => hy (he ▸ hz)) _ _

/-- The first element leaves. -/
theorem Chains.removeFirst
    (h : Chains q k (x :: xs)) :
    ∃ q', q.remove k x = some q' ∧ Chains q' k xs ∧
      ∀ k' ys, k' ≠ k → (∀ z ∈ xs, z ∉ ys) → Chains q k' ys → Chains q' k' ys := by
  cases xs with
  | nil =>
      obtain ⟨q', hq', hown, hother⟩ := h.removeFirst_nil
      exact ⟨q', hq', hown, fun k' ys hk _ => hother k' ys hk⟩
  | cons y xs =>
      obtain ⟨q', hq', hown, hother⟩ := h.removeFirst_cons
      exact ⟨q', hq', hown, fun k' ys hk hdis => hother k' ys hk (hdis y List.mem_cons_self)⟩

end Operations

end TailQueue

import Ebot.Outcome
import Mathlib.Logic.Function.Basic

/-!
# The slab pool

`mpool_new`, `mpool_get` and `mpool_put` of `ebot.c`: slabs on an intrusive
doubly linked list.  A slab is named by its index in the pool's memory; a
`NULL` link is `none`, and following one is undefined behaviour.

What callers rely on is proved at the end: a get hands out a slab of the pool
that was free and marks it used, a put frees the slab it is given, and neither
touches the mark of another slab.
-/

namespace Ebot

open Function

/-- `mslab`, without its data bytes. -/
structure Mslab where
  used : Bool
  prev : Option Nat
  next : Option Nat
deriving DecidableEq

/-- `mpool`; `slabs` is the pool's memory, one entry for each slab. -/
structure Mpool where
  slabs : Nat → Mslab
  head : Option Nat
  tail : Option Nat
  slab_num : Nat
  slab_size : Nat
  slab_used : Nat

namespace Mpool

def setUsed (mp : Mpool) (s : Nat) (b : Bool) : Mpool :=
  { mp with slabs := update mp.slabs s { mp.slabs s with used := b } }

def setPrev (mp : Mpool) (s : Nat) (l : Option Nat) : Mpool :=
  { mp with slabs := update mp.slabs s { mp.slabs s with prev := l } }

def setNext (mp : Mpool) (s : Nat) (l : Option Nat) : Mpool :=
  { mp with slabs := update mp.slabs s { mp.slabs s with next := l } }

section Fields

variable (mp : Mpool) (s t : Nat) (b : Bool) (l : Option Nat)

@[simp] theorem setUsed_used :
    ((mp.setUsed s b).slabs t).used = if t = s then b else (mp.slabs t).used := by
  unfold setUsed
  by_cases h : t = s
  · subst h
    simp
  · simp [h]

@[simp] theorem setPrev_used :
    ((mp.setPrev s l).slabs t).used = (mp.slabs t).used := by
  unfold setPrev
  by_cases h : t = s
  · subst h
    simp
  · simp [h]

@[simp] theorem setNext_used :
    ((mp.setNext s l).slabs t).used = (mp.slabs t).used := by
  unfold setNext
  by_cases h : t = s
  · subst h
    simp
  · simp [h]

@[simp] theorem setUsed_prev :
    ((mp.setUsed s b).slabs t).prev = (mp.slabs t).prev := by
  unfold setUsed
  by_cases h : t = s
  · subst h
    simp
  · simp [h]

@[simp] theorem setUsed_next :
    ((mp.setUsed s b).slabs t).next = (mp.slabs t).next := by
  unfold setUsed
  by_cases h : t = s
  · subst h
    simp
  · simp [h]

@[simp] theorem setPrev_next :
    ((mp.setPrev s l).slabs t).next = (mp.slabs t).next := by
  unfold setPrev
  by_cases h : t = s
  · subst h
    simp
  · simp [h]

@[simp] theorem setNext_prev :
    ((mp.setNext s l).slabs t).prev = (mp.slabs t).prev := by
  unfold setNext
  by_cases h : t = s
  · subst h
    simp
  · simp [h]

@[simp] theorem setPrev_prev :
    ((mp.setPrev s l).slabs t).prev = if t = s then l else (mp.slabs t).prev := by
  unfold setPrev
  by_cases h : t = s
  · subst h
    simp
  · simp [h]

@[simp] theorem setNext_next :
    ((mp.setNext s l).slabs t).next = if t = s then l else (mp.slabs t).next := by
  unfold setNext
  by_cases h : t = s
  · subst h
    simp
  · simp [h]

end Fields

end Mpool

/-- The `do`-`while` loop of `mpool_new`: inserts slab `i` at the head, then
the slabs behind it, `n` in all. -/
def mpoolInit (mp : Mpool) (i : Nat) : Nat → Mpool
  | 0 => mp
  | n + 1 =>
      let mp :=
        match mp.head with
        | some h => (mp.setPrev h (some i)).setNext i (some h)
        | none => { mp with tail := some i }
      let mp := { mp with head := some i }
      -- the slab after this one will be inserted in front of it
      if n = 0 then mp.setPrev i none
      else mpoolInit (mp.setPrev i (some (i + 1))) (i + 1) n

/-- `mpool_new`, when memory and mutex are granted.  The loop body runs at
least once. -/
def mpoolNew (slab_num slab_size : Nat) : Mpool :=
  mpoolInit
    { slabs := fun _ => ⟨false, none, none⟩, head := none, tail := none,
      slab_num, slab_size, slab_used := 0 }
    0 (max slab_num 1)

/-- `mpool_get`: the slab handed out (`none` for `NULL`) and the pool. -/
def mpoolGet (mp : Mpool) : Except Stop (Option Nat × Mpool) := do
  let s ← orFault mp.head
  if (mp.slabs s).used then
    .ok (none, mp)
  else
    let mp := { mp.setUsed s true with slab_used := mp.slab_used + 1 }
    -- move the next slab to the head (idle list)
    let n ← orFault (mp.slabs s).next
    let mp := { mp with head := some n }
    let mp := mp.setPrev n none
    -- move this slab to the tail (busy list)
    let t ← orFault mp.tail
    let mp := mp.setNext t (some s)
    let mp := mp.setNext s none
    let mp := mp.setPrev s (some t)
    .ok (some s, { mp with tail := some s })

/-- `mpool_put`. -/
def mpoolPut (mp : Mpool) (s : Nat) : Except Stop Mpool :=
  if ¬ s < mp.slab_num then
    .error .abort
  else if (mp.slabs s).used then do
    let mp := { mp with slab_used := mp.slab_used - 1 }
    let mp := mp.setUsed s false
    match (mp.slabs s).prev with
    | none => .ok mp
    | some p =>
        let mp :=
          match (mp.slabs s).next with
          | none => { mp.setNext p none with tail := some p }
          | some n => (mp.setNext p (some n)).setPrev n (some p)
        let mp := (mp.setPrev s none).setNext s mp.head
        let h ← orFault mp.head
        let mp := mp.setPrev h (some s)
        .ok { mp with head := some s }
  else
    .ok mp

section Marks

variable {mp mp' : Mpool} {s : Nat}

/-- Every link of the pool names one of its slabs. -/
structure Mpool.Linked (mp : Mpool) : Prop where
  head : ∀ s, mp.head = some s → s < mp.slab_num
  tail : ∀ s, mp.tail = some s → s < mp.slab_num
  prev : ∀ t s, (mp.slabs t).prev = some s → s < mp.slab_num
  next : ∀ t s, (mp.slabs t).next = some s → s < mp.slab_num

/-- What a get does to the marks. -/
theorem mpoolGet_some
    (h : mpoolGet mp = .ok (some s, mp')) :
    mp.head = some s ∧ (mp.slabs s).used = false ∧
      mp'.slab_num = mp.slab_num ∧ mp'.slab_used = mp.slab_used + 1 ∧
      ∀ t, (mp'.slabs t).used = if t = s then true else (mp.slabs t).used := by
  unfold mpoolGet at h
  obtain ⟨s₁, hhead, h⟩ := bind_eq_ok.mp h
  rw [orFault_eq_ok] at hhead
  split at h
  · simp at h
  · rename_i hused
    obtain ⟨n, hn, h⟩ := bind_eq_ok.mp h
    obtain ⟨t, ht, h⟩ := bind_eq_ok.mp h
    simp only [Except.ok.injEq, Prod.mk.injEq, Option.some.injEq] at h
    obtain ⟨rfl, rfl⟩ := h
    refine ⟨hhead, by simpa using hused, rfl, rfl, ?_⟩
    intro u
    simp

/-- A get that finds no free slab changes nothing. -/
theorem mpoolGet_none
    (h : mpoolGet mp = .ok (none, mp')) :
    mp' = mp := by
  unfold mpoolGet at h
  obtain ⟨s₁, hhead, h⟩ := bind_eq_ok.mp h
  split at h
  · simp only [Except.ok.injEq, Prod.mk.injEq, true_and] at h
    exact h.symm
  · obtain ⟨n, hn, h⟩ := bind_eq_ok.mp h
    obtain ⟨t, ht, h⟩ := bind_eq_ok.mp h
    simp at h

/-- What a put does to the marks. -/
theorem mpoolPut_used
    (h : mpoolPut mp s = .ok mp') :
    mp'.slab_num = mp.slab_num ∧
      ∀ t, (mp'.slabs t).used = if t = s then false else (mp.slabs t).used := by
  unfold mpoolPut at h
  split at h
  · cases h
  · split at h
    · -- the slab was handed out
      simp only [Mpool.setUsed_prev, Mpool.setUsed_next] at h
      split at h
      · simp only [Except.ok.injEq] at h
        subst h
        exact ⟨rfl, fun t => by simp⟩
      · obtain ⟨hd, hhd, h⟩ := bind_eq_ok.mp h
        simp only [Except.ok.injEq] at h
        subst h
        split
        · exact ⟨rfl, fun t => by simp⟩
        · exact ⟨rfl, fun t => by simp⟩
    · -- it was free already
      rename_i hused
      simp only [Except.ok.injEq] at h
      subst h
      refine ⟨rfl, fun t => ?_⟩
      by_cases ht : t = s
      · subst ht
        simpa using hused
      · simp [ht]

theorem Mpool.Linked.setUsed
    {b : Bool}
    (h : mp.Linked) :
    (mp.setUsed s b).Linked := by
  refine ⟨h.head, h.tail, ?_, ?_⟩
  · intro t u
    rw [Mpool.setUsed_prev]
    exact h.prev t u
  · intro t u
    rw [Mpool.setUsed_next]
    exact h.next t u

theorem Mpool.Linked.setPrev
    {l : Option Nat}
    (h : mp.Linked)
    (hl : ∀ u, l = some u → u < mp.slab_num) :
    (mp.setPrev s l).Linked := by
  refine ⟨h.head, h.tail, ?_, ?_⟩
  · intro t u
    rw [Mpool.setPrev_prev]
    split
    · exact hl u
    · exact h.prev t u
  · intro t u
    rw [Mpool.setPrev_next]
    exact h.next t u

theorem Mpool.Linked.setNext
    {l : Option Nat}
    (h : mp.Linked)
    (hl : ∀ u, l = some u → u < mp.slab_num) :
    (mp.setNext s l).Linked := by
  refine ⟨h.head, h.tail, ?_, ?_⟩
  · intro t u
    rw [Mpool.setNext_prev]
    exact h.prev t u
  · intro t u
    rw [Mpool.setNext_next]
    split
    · exact hl u
    · exact h.next t u

/-- Moving the two ends of the list and counting keeps the links inside. -/
theorem Mpool.Linked.ends
    {hd tl : Option Nat} {k : Nat}
    (h : mp.Linked)
    (hhd : ∀ u, hd = some u → u < mp.slab_num)
    (htl : ∀ u, tl = some u → u < mp.slab_num) :
    ({ mp with head := hd, tail := tl, slab_used := k } : Mpool).Linked :=
  ⟨hhd, htl, h.prev, h.next⟩

/-- Every slab of a new pool is free, and its links stay inside it. -/
theorem mpoolInit_spec
    {i n : Nat}
    (hlinked : mp.Linked)
    (hused : ∀ t, (mp.slabs t).used = false)
    (hin : i + n ≤ mp.slab_num) :
    (mpoolInit mp i n).Linked ∧
      (mpoolInit mp i n).slab_num = mp.slab_num ∧
      ∀ t, ((mpoolInit mp i n).slabs t).used = false := by
  induction n generalizing mp i with
  | zero => exact ⟨hlinked, rfl, hused⟩
  | succ n ih =>
      have hi : ∀ u, some i = some u → u < mp.slab_num := by
        rintro u ⟨⟩
        omega
      -- the pool with slab `i` inserted at the head
      obtain ⟨mp₁, hmp₁, hl₁, hnum₁, hu₁⟩ :
          ∃ mp₁ : Mpool,
            mp₁ = { (match mp.head with
              | some h => (mp.setPrev h (some i)).setNext i (some h)
              | none => { mp with tail := some i }) with head := some i } ∧
              mp₁.Linked ∧ mp₁.slab_num = mp.slab_num ∧
              ∀ t, (mp₁.slabs t).used = false := by
        refine ⟨_, rfl, ?_⟩
        cases hh : mp.head with
        | none => exact ⟨hlinked.ends hi hi, rfl, hused⟩
        | some hd =>
            have hhd : ∀ u, some hd = some u → u < mp.slab_num := by
              rintro u ⟨⟩
              exact hlinked.head hd hh
            exact ⟨((hlinked.setPrev hi).setNext hhd).ends hi hlinked.tail, rfl,
              fun t => by simp [hused t]⟩
      simp only [mpoolInit, ← hmp₁]
      split
      · exact ⟨hl₁.setPrev (fun u hu => by cases hu), hnum₁,
          fun t => by simp [hu₁ t]⟩
      · have hi₁ : ∀ u, some (i + 1) = some u → u < mp₁.slab_num := by
          rintro u ⟨⟩
          omega
        have hin₁ : i + 1 + n ≤ (mp₁.setPrev i (some (i + 1))).slab_num := by
          change i + 1 + n ≤ mp₁.slab_num
          omega
        obtain ⟨hl, hnum, hu⟩ := ih (hl₁.setPrev (s := i) hi₁)
          (fun t => by simp [hu₁ t]) hin₁
        exact ⟨hl, hnum.trans hnum₁, hu⟩

/-- A new pool: all slabs free, all links inside. -/
theorem mpoolNew_spec
    {slab_num : Nat}
    (slab_size : Nat)
    (hnum : 1 ≤ slab_num) :
    (mpoolNew slab_num slab_size).Linked ∧
      (mpoolNew slab_num slab_size).slab_num = slab_num ∧
      ∀ t, ((mpoolNew slab_num slab_size).slabs t).used = false := by
  unfold mpoolNew
  apply mpoolInit_spec
  · constructor <;> simp
  · simp
  · simp only
    omega

/-- Gets keep the links inside the pool. -/
theorem mpoolGet_linked
    {o : Option Nat}
    (hlinked : mp.Linked)
    (h : mpoolGet mp = .ok (o, mp')) :
    mp'.Linked := by
  unfold mpoolGet at h
  obtain ⟨s₁, hhead, h⟩ := bind_eq_ok.mp h
  rw [orFault_eq_ok] at hhead
  split at h
  · simp only [Except.ok.injEq, Prod.mk.injEq] at h
    obtain ⟨-, rfl⟩ := h
    exact hlinked
  · obtain ⟨n, hn, h⟩ := bind_eq_ok.mp h
    obtain ⟨t, ht, h⟩ := bind_eq_ok.mp h
    rw [orFault_eq_ok] at hn ht
    simp only [Mpool.setUsed_next] at hn
    simp only [Except.ok.injEq, Prod.mk.injEq] at h
    obtain ⟨-, rfl⟩ := h
    have hs : ∀ u, some s₁ = some u → u < mp.slab_num := by
      rintro u ⟨⟩
      exact hlinked.head _ hhead
    have hn' : ∀ u, some n = some u → u < mp.slab_num := by
      rintro u ⟨⟩
      exact hlinked.next _ _ hn
    have ht' : ∀ u, some t = some u → u < mp.slab_num := by
      rintro u ⟨⟩
      exact hlinked.tail _ ht
    have hnone : ∀ u, (none : Option Nat) = some u → u < mp.slab_num := by
      rintro u ⟨⟩
    have h₁ := (hlinked.setUsed (s := s₁) (b := true)).ends
      (k := mp.slab_used + 1) hn' hlinked.tail
    have h₂ := ((h₁.setPrev (s := n) hnone).setNext (s := t) hs).setNext
      (s := s₁) hnone
    exact (h₂.setPrev ht').ends hn' hs

/-- Puts keep the links inside the pool. -/
theorem mpoolPut_linked
    (hlinked : mp.Linked)
    (h : mpoolPut mp s = .ok mp') :
    mp'.Linked := by
  unfold mpoolPut at h
  split at h
  · cases h
  · rename_i hs
    have hs' : ∀ u, some s = some u → u < mp.slab_num := by
      rintro u ⟨⟩
      omega
    have hnone : ∀ u, (none : Option Nat) = some u → u < mp.slab_num := by
      rintro u ⟨⟩
    split at h
    · have h₀ := (hlinked.ends (k := mp.slab_used - 1) hlinked.head
        hlinked.tail).setUsed (s := s) (b := false)
      simp only [Mpool.setUsed_prev, Mpool.setUsed_next] at h
      split at h
      · simp only [Except.ok.injEq] at h
        subst h
        exact h₀
      · rename_i p hp
        obtain ⟨hd, hhd, h⟩ := bind_eq_ok.mp h
        simp only [Except.ok.injEq] at h
        subst h
        have hp' : ∀ u, some p = some u → u < mp.slab_num := by
          rintro u ⟨⟩
          exact hlinked.prev _ _ hp
        split
        · have h₁ := (h₀.setNext (s := p) hnone).ends (k := mp.slab_used - 1)
            hlinked.head hp'
          exact (((h₁.setPrev (s := s) hnone).setNext (s := s)
            hlinked.head).setPrev (s := hd) hs').ends hs' hp'
        · rename_i n hn
          have hn' : ∀ u, some n = some u → u < mp.slab_num := by
            rintro u ⟨⟩
            exact hlinked.next _ _ hn
          have h₁ := (h₀.setNext (s := p) hn').setPrev (s := n) hp'
          exact (((h₁.setPrev (s := s) hnone).setNext (s := s)
            hlinked.head).setPrev (s := hd) hs').ends hs' hlinked.tail
    · simp only [Except.ok.injEq] at h
      subst h
      exact hlinked

end Marks

end Ebot

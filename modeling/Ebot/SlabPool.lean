import Ebot.Library.DoublyLinked
import Ebot.Library.Transition
import Ebot.Mpool
import Mathlib.Data.List.Perm.Basic
import Mathlib.Data.List.Range

/-!
# The order of the slabs

The list of a slab pool is split in two: first the free slabs, then those that
are handed out.  Nothing in the pool records the split; it is what `mpool_get`
and `mpool_put` keep by taking from the head, adding to the tail and putting
back at the head.  From it follows what a pool promises over any history of
gets and puts.
-/

namespace Ebot

open Function DoublyLinked Transition

/-- The links of the pool. -/
def Mpool.chain (mp : Mpool) : Chain Nat :=
  { head := mp.head
    tail := mp.tail
    next := fun t => (mp.slabs t).next
    prev := fun t => (mp.slabs t).prev }

/-- The list of the pool runs through the free slabs and then through the
slabs handed out. -/
structure Mpool.Ordered (mp : Mpool) (free busy : List Nat) : Prop where
  orders : mp.chain.Orders (free ++ busy)
  slabs : ∀ s, s ∈ free ++ busy ↔ s < mp.slab_num
  unmarked : ∀ s ∈ free, (mp.slabs s).used = false
  marked : ∀ s ∈ busy, (mp.slabs s).used = true
  count : mp.slab_used = busy.length

section Chains

variable {mp : Mpool} {s : Nat} {b : Bool} {l : Option Nat}

@[simp] theorem chain_setUsed : (mp.setUsed s b).chain = mp.chain := by
  unfold Mpool.chain
  simp only [Mpool.setUsed_next, Mpool.setUsed_prev]
  rfl

theorem chain_setPrev : (mp.setPrev s l).chain = mp.chain.setPrev s l := by
  refine Chain.ext rfl rfl ?_ ?_ <;> funext t
  · simp [Mpool.chain, Chain.setPrev]
  · simp [Mpool.chain, Chain.setPrev, update_apply]

/-- The statements that link a slab to the front. -/
theorem chain_linkFront
    {h x : Nat} :
    ({ (mp.setPrev h (some x)).setNext x (some h) with head := some x } : Mpool).chain =
      mp.chain.linkFront h x := by
  refine Chain.ext rfl rfl ?_ ?_ <;> funext t
  · simp [Mpool.chain, Chain.linkFront, update_apply]
  · simp [Mpool.chain, Chain.linkFront, update_apply]

/-- The statements that put a slab back to the front. -/
theorem chain_linkBack
    {h x : Nat} :
    ({ ((mp.setPrev x none).setNext x (some h)).setPrev h (some x) with
        head := some x } : Mpool).chain =
      (mp.chain.setPrev x none).linkFront h x := by
  refine Chain.ext rfl rfl ?_ ?_ <;> funext t
  · simp [Mpool.chain, Chain.setPrev, Chain.linkFront, update_apply]
  · simp [Mpool.chain, Chain.setPrev, Chain.linkFront, update_apply]

end Chains

section Ordered

variable {mp : Mpool} {free busy : List Nat} {x : Nat}

/-- The list of the pool has all its slabs. -/
theorem Mpool.Ordered.perm
    (h : mp.Ordered free busy) :
    (free ++ busy).Perm (List.range mp.slab_num) := by
  rw [List.perm_ext_iff_of_nodup h.orders.nodup List.nodup_range]
  intro s
  rw [h.slabs, List.mem_range]

theorem Mpool.Ordered.length
    (h : mp.Ordered free busy) :
    free.length + busy.length = mp.slab_num := by
  rw [← List.length_append, h.perm.length_eq, List.length_range]

end Ordered

/-! ## A new pool -/

section New

variable {mp : Mpool} {i n : Nat}

/-- The pool after `mpool_new` has inserted slab `i`, its predecessor not yet
set. -/
def Mpool.inserted (mp : Mpool) (i : Nat) : Mpool :=
  { (match mp.head with
    | some h => (mp.setPrev h (some i)).setNext i (some h)
    | none => { mp with tail := some i }) with head := some i }

/-- The first `i` slabs are linked, the last of them at the head. -/
def Mpool.LinkedTo (mp : Mpool) (i : Nat) : Prop :=
  if i = 0 then mp.head = none ∧ (mp.slabs 0).next = none
  else mp.chain.Threads (List.range i).reverse

theorem Mpool.LinkedTo.inserted
    (h : mp.LinkedTo i) :
    (mp.inserted i).chain.Threads (List.range (i + 1)).reverse := by
  rw [List.range_succ, List.reverse_append, List.reverse_singleton, List.singleton_append]
  unfold Mpool.LinkedTo at h
  cases i with
  | zero =>
      obtain ⟨hhead, hnext⟩ := h
      unfold Mpool.inserted
      rw [hhead]
      exact Chain.threads_singleton rfl rfl hnext
  | succ j =>
      rw [if_neg (by omega)] at h
      have hout : j + 1 ∉ (List.range (j + 1)).reverse := by simp
      rw [List.range_succ, List.reverse_append, List.reverse_singleton,
        List.singleton_append] at h hout ⊢
      have hhead : mp.head = some j := h.head
      unfold Mpool.inserted
      rw [hhead]
      exact chain_linkFront ▸ h.linkFront hout

/-- The loop of `mpool_new` links all slabs, the last one at the head. -/
theorem mpoolInit_orders
    (h : mp.LinkedTo i) :
    (mpoolInit mp i (n + 1)).chain.Orders (List.range (i + n + 1)).reverse ∧
      (mpoolInit mp i (n + 1)).slab_used = mp.slab_used ∧
      (mpoolInit mp i (n + 1)).slab_size = mp.slab_size := by
  induction n generalizing mp i with
  | zero =>
      have hstep : mpoolInit mp i 1 = (mp.inserted i).setPrev i none := rfl
      have hthreads := h.inserted
      rw [List.range_succ, List.reverse_append, List.reverse_singleton,
        List.singleton_append] at hthreads
      rw [hstep, chain_setPrev, Nat.add_zero, List.range_succ, List.reverse_append,
        List.reverse_singleton, List.singleton_append]
      refine ⟨hthreads.orders, ?_⟩
      unfold Mpool.inserted
      cases mp.head <;> exact ⟨rfl, rfl⟩
  | succ n ih =>
      have hstep : mpoolInit mp i (n + 2) =
          mpoolInit ((mp.inserted i).setPrev i (some (i + 1))) (i + 1) (n + 1) := rfl
      have hlinked : ((mp.inserted i).setPrev i (some (i + 1))).LinkedTo (i + 1) := by
        unfold Mpool.LinkedTo
        rw [if_neg (by omega), chain_setPrev]
        refine h.inserted.setPrev _ ?_
        simp [List.range_succ]
      obtain ⟨horders, hused, hsize⟩ := ih hlinked
      rw [hstep]
      refine ⟨?_, ?_, ?_⟩
      · have hlen : i + (n + 1) + 1 = i + 1 + n + 1 := by omega
        rw [hlen]
        exact horders
      · rw [hused]
        unfold Mpool.inserted
        cases mp.head <;> rfl
      · rw [hsize]
        unfold Mpool.inserted
        cases mp.head <;> rfl

/-- A new pool: all its slabs are free. -/
theorem mpoolNew_ordered
    {slab_num : Nat}
    (slab_size : Nat)
    (hnum : 1 ≤ slab_num) :
    (mpoolNew slab_num slab_size).Ordered (List.range slab_num).reverse [] ∧
      (mpoolNew slab_num slab_size).slab_size = slab_size := by
  obtain ⟨-, hslabs, hmarks⟩ := mpoolNew_spec slab_size hnum
  obtain ⟨k, rfl⟩ : ∃ k, slab_num = k + 1 := ⟨slab_num - 1, by omega⟩
  have hmax : max (k + 1) 1 = k + 1 := by omega
  have hlinked : Mpool.LinkedTo
      { slabs := fun _ => ⟨false, none, none⟩, head := none, tail := none,
        slab_num := k + 1, slab_size, slab_used := 0 } 0 := ⟨rfl, rfl⟩
  have hinit := mpoolInit_orders (n := k) hlinked
  rw [Nat.zero_add] at hinit
  unfold mpoolNew at hslabs hmarks ⊢
  rw [hmax] at hslabs hmarks ⊢
  refine ⟨⟨by simpa using hinit.1, fun s => ?_, fun s _ => hmarks s, nofun, hinit.2.1⟩,
    hinit.2.2⟩
  rw [hslabs]
  simp

end New

/-! ## Gets and puts -/

section Operations

variable {mp : Mpool} {free busy b₁ b₂ : List Nat} {x : Nat}

/-- What `mpool_get` makes of the pool when `s` is at the head, `n` behind it,
and `t` at the tail. -/
def Mpool.taken (mp : Mpool) (s n t : Nat) : Mpool :=
  { ((({ mp.setUsed s true with slab_used := mp.slab_used + 1, head := some n }.setPrev n
      none).setNext t (some s)).setNext s none).setPrev s (some t) with tail := some s }

theorem mpoolGet_eq
    {s n t : Nat}
    (hhead : mp.head = some s)
    (hused : (mp.slabs s).used = false)
    (hnext : (mp.slabs s).next = some n)
    (htail : mp.tail = some t) :
    mpoolGet mp = .ok (some s, mp.taken s n t) := by
  have hnext' : ((mp.setUsed s true).slabs s).next = some n := by simpa using hnext
  unfold mpoolGet
  rw [hhead]
  dsimp only [orFault]
  rw [ok_bind, if_neg (by simp [hused]), hnext', ok_bind]
  dsimp only [Mpool.setUsed, Mpool.setPrev]
  rw [htail]
  rfl

theorem chain_taken
    {s n t : Nat} :
    (mp.taken s n t).chain = (mp.chain.popFront n).pushBack t s := by
  refine Chain.ext rfl rfl ?_ ?_ <;> funext u
  · simp [Mpool.chain, Mpool.taken, Chain.popFront, Chain.pushBack, update_apply]
  · simp [Mpool.chain, Mpool.taken, Chain.popFront, Chain.pushBack, update_apply]

/-- A get takes the first free slab and adds it behind the busy ones. -/
theorem Mpool.Ordered.get_some
    (h : mp.Ordered (x :: free) busy)
    (hnum : 2 ≤ mp.slab_num) :
    ∃ mp', mpoolGet mp = .ok (some x, mp') ∧ mp'.Ordered free (busy ++ [x]) ∧
      mp'.slab_num = mp.slab_num ∧ mp'.slab_size = mp.slab_size := by
  have hlen := h.length
  -- there is a second slab, which becomes the head
  obtain ⟨y, ys, hys⟩ : ∃ y ys, free ++ busy = y :: ys := by
    cases hfb : free ++ busy with
    | nil =>
        have hzero := congrArg List.length hfb
        simp only [List.length_append, List.length_nil, List.length_cons] at hzero hlen
        omega
    | cons y ys => exact ⟨y, ys, rfl⟩
  have horders : mp.chain.Orders (x :: y :: ys) := hys ▸ h.orders
  obtain ⟨t, ht⟩ : ∃ t, (y :: ys).getLast? = some t :=
    Option.ne_none_iff_exists'.mp (by simp)
  have hout : x ∉ y :: ys := (List.nodup_cons.mp horders.nodup).1
  have hhead : mp.head = some x := h.orders.head
  have hnext : (mp.slabs x).next = some y := horders.next [] x (y :: ys) rfl
  have htail : mp.tail = some t := horders.tail.trans ht
  have hget := mpoolGet_eq hhead (h.unmarked x List.mem_cons_self) hnext htail
  have hused : ∀ u, ((mp.taken x y t).slabs u).used =
      if u = x then true else (mp.slabs u).used := (mpoolGet_some hget).2.2.2.2
  refine ⟨mp.taken x y t, hget, ⟨?_, ?_, ?_, ?_, ?_⟩, rfl, rfl⟩
  · rw [chain_taken, ← List.append_assoc, hys]
    exact horders.popFront.pushBack ht hout
  · intro s
    have hs := h.slabs s
    simp only [List.cons_append, List.mem_cons, List.mem_append] at hs ⊢
    change _ ↔ s < mp.slab_num
    rw [← hs]
    simp only [List.not_mem_nil, or_false]
    grind
  · intro s hs
    have hne : s ≠ x := fun he => hout (hys ▸ he ▸ List.mem_append_left _ hs)
    rw [hused, if_neg hne]
    exact h.unmarked s (List.mem_cons_of_mem _ hs)
  · intro s hs
    rw [hused]
    split
    · rfl
    · rename_i hne
      refine h.marked s ?_
      simpa [hne] using hs
  · change mp.slab_used + 1 = _
    rw [h.count, List.length_append, List.length_singleton]

/-- A get that finds all slabs handed out. -/
theorem Mpool.Ordered.get_none
    (h : mp.Ordered [] (x :: busy)) :
    mpoolGet mp = .ok (none, mp) := by
  have hhead : mp.head = some x := h.orders.head
  have hused := h.marked x List.mem_cons_self
  unfold mpoolGet
  rw [hhead]
  dsimp only [orFault]
  rw [ok_bind, if_pos hused]

/-- A put of a free slab changes nothing. -/
theorem Mpool.Ordered.put_free
    (h : mp.Ordered free busy)
    (hx : x ∈ free) :
    mpoolPut mp x = .ok mp := by
  have hlt : x < mp.slab_num := (h.slabs x).mp (List.mem_append_left _ hx)
  unfold mpoolPut
  rw [if_neg (not_not_intro hlt), if_neg (by simp [h.unmarked x hx])]

/-- `mpool_put` after it has taken `s`, whose predecessor is `p`, out of the
list. -/
def Mpool.unlinked (mp : Mpool) (s p : Nat) : Mpool :=
  let mp := { mp with slab_used := mp.slab_used - 1 }.setUsed s false
  match (mp.slabs s).next with
  | none => { mp.setNext p none with tail := some p }
  | some n => (mp.setNext p (some n)).setPrev n (some p)

theorem chain_unlinked
    {s p : Nat} :
    (mp.unlinked s p).chain = mp.chain.unlink p s := by
  unfold Mpool.unlinked Chain.unlink
  dsimp only
  have hnext : (mp.chain.next s) = (mp.slabs s).next := rfl
  rw [Mpool.setUsed_next, hnext]
  cases (mp.slabs s).next with
  | none =>
      refine Chain.ext rfl rfl ?_ ?_ <;> funext u
      · simp [Mpool.chain, update_apply]
      · simp [Mpool.chain]
  | some n =>
      refine Chain.ext rfl rfl ?_ ?_ <;> funext u
      · simp [Mpool.chain, update_apply]
      · simp [Mpool.chain, update_apply]

theorem unlinked_counts
    (mp : Mpool) (s p : Nat) :
    (mp.unlinked s p).slab_used = mp.slab_used - 1 ∧
      (mp.unlinked s p).slab_num = mp.slab_num ∧
      (mp.unlinked s p).slab_size = mp.slab_size := by
  unfold Mpool.unlinked
  dsimp only
  split <;> exact ⟨rfl, rfl, rfl⟩

theorem mpoolPut_eq
    {s p h : Nat}
    (hs : s < mp.slab_num)
    (hused : (mp.slabs s).used = true)
    (hprev : (mp.slabs s).prev = some p)
    (hhead : mp.head = some h) :
    mpoolPut mp s = .ok
      { (((mp.unlinked s p).setPrev s none).setNext s (some h)).setPrev h (some s) with
        head := some s } := by
  have hhead' : (mp.unlinked s p).head = some h := by
    unfold Mpool.unlinked
    dsimp only
    split <;> exact hhead
  unfold mpoolPut
  rw [if_neg (not_not_intro hs), if_pos hused]
  dsimp only
  rw [Mpool.setUsed_prev, hprev]
  dsimp only
  -- what is left are the statements behind the removal from the list
  change (orFault (mp.unlinked s p).head >>= fun h' => Except.ok
    { (((mp.unlinked s p).setPrev s none).setNext s (mp.unlinked s p).head).setPrev h'
        (some s) with head := some s }) = _
  rw [hhead']
  rfl

/-- A put of the slab at the head only clears its mark. -/
theorem mpoolPut_head
    {s : Nat}
    (hs : s < mp.slab_num)
    (hused : (mp.slabs s).used = true)
    (hprev : (mp.slabs s).prev = none) :
    mpoolPut mp s =
      .ok ({ mp with slab_used := mp.slab_used - 1 }.setUsed s false) := by
  unfold mpoolPut
  rw [if_neg (not_not_intro hs), if_pos hused]
  dsimp only
  rw [Mpool.setUsed_prev, hprev]

/-- A put of a busy slab makes it the first free one. -/
theorem Mpool.Ordered.put_busy
    (h : mp.Ordered free (b₁ ++ x :: b₂)) :
    ∃ mp', mpoolPut mp x = .ok mp' ∧ mp'.Ordered (x :: free) (b₁ ++ b₂) ∧
      mp'.slab_num = mp.slab_num ∧ mp'.slab_size = mp.slab_size := by
  have hlt : x < mp.slab_num := (h.slabs x).mp (by simp)
  have hmark : (mp.slabs x).used = true := h.marked x (by simp)
  have hcount : mp.slab_used - 1 = (b₁ ++ b₂).length := by
    rw [h.count]
    simp only [List.length_append, List.length_cons]
    omega
  -- whatever the put does to the links, the rest follows from the marks
  have hrest : ∀ {mp' : Mpool}, mpoolPut mp x = .ok mp' →
      mp'.chain.Orders (x :: (free ++ (b₁ ++ b₂))) → mp'.slab_used = mp.slab_used - 1 →
      mp'.Ordered (x :: free) (b₁ ++ b₂) := by
    intro mp' hput horders hdown
    obtain ⟨hnum, hused⟩ := mpoolPut_used hput
    have hne : ∀ {s}, s ∈ free ++ (b₁ ++ b₂) → s ≠ x :=
      fun hs he => (List.nodup_cons.mp horders.nodup).1 (he ▸ hs)
    refine ⟨horders, fun s => ?_, fun s hs => ?_, fun s hs => ?_, hdown.trans hcount⟩
    · have hs := h.slabs s
      simp only [List.cons_append, List.mem_cons, List.mem_append] at hs ⊢
      rw [hnum, ← hs]
      grind
    · rw [hused]
      split
      · rfl
      · rename_i hsx
        exact h.unmarked s ((List.mem_cons.mp hs).resolve_left hsx)
    · rw [hused, if_neg (hne (List.mem_append_right _ hs))]
      refine h.marked s ?_
      simp only [List.mem_append, List.mem_cons] at hs ⊢
      grind
  have horders : mp.chain.Orders ((free ++ b₁) ++ x :: b₂) := by
    rw [List.append_assoc]
    exact h.orders
  rcases List.eq_nil_or_concat (free ++ b₁) with hnil | ⟨l, p, hl⟩
  · -- all slabs are handed out, and the first of them comes back
    obtain ⟨rfl, rfl⟩ := List.append_eq_nil_iff.mp hnil
    have hput := mpoolPut_head hlt hmark (h.orders.first x b₂ rfl)
    refine ⟨_, hput, hrest hput ?_ rfl, rfl, rfl⟩
    rw [chain_setUsed]
    exact h.orders
  · rw [List.concat_eq_append] at hl
    have hsplit : (free ++ b₁) ++ x :: b₂ = l ++ p :: x :: b₂ := by
      rw [hl]
      simp
    rw [hsplit] at horders
    have hprev : (mp.slabs x).prev = some p := horders.prev l p x b₂ rfl
    have hunlink := horders.unlink
    obtain ⟨hd, ys, hys⟩ : ∃ hd ys, l ++ p :: b₂ = hd :: ys := by
      cases l with
      | nil => exact ⟨p, b₂, rfl⟩
      | cons a l => exact ⟨a, l ++ p :: b₂, rfl⟩
    rw [hys] at hunlink
    have hhead : mp.head = some hd := by
      have hhd : mp.head = (l ++ p :: x :: b₂).head? := horders.head
      rw [hhd]
      cases l <;> exact congrArg some (List.cons.inj hys).1
    have hout : x ∉ hd :: ys := by
      rw [← hys]
      have hnodup : ((l ++ [p]) ++ x :: b₂).Nodup := by simpa using horders.nodup
      simpa using (List.nodup_cons.mp (List.nodup_middle.mp hnodup)).1
    have hput := mpoolPut_eq hlt hmark hprev hhead
    obtain ⟨hdown, hnum, hsize⟩ := unlinked_counts mp x p
    refine ⟨_, hput, hrest hput ?_ hdown, hnum, hsize⟩
    have horder : free ++ (b₁ ++ b₂) = hd :: ys := by
      rw [← List.append_assoc, hl, ← hys]
      simp
    rw [chain_linkBack, chain_unlinked, horder]
    exact hunlink.linkFront hout

/-- Whatever a get that returns does, the pool stays in order, and `NULL` is its
answer only when no slab is free. -/
theorem Mpool.Ordered.of_get
    {o : Option Nat} {mp' : Mpool}
    (h : mp.Ordered free busy)
    (hget : mpoolGet mp = .ok (o, mp')) :
    (∃ free' busy', mp'.Ordered free' busy') ∧ mp'.slab_num = mp.slab_num ∧
      match o with
      | none => free = []
      | some x => x < mp.slab_num := by
  cases o with
  | none =>
      have hnil : free = [] := by
        cases free with
        | nil => rfl
        | cons x free =>
            have hhead : mp.head = some x := h.orders.head
            unfold mpoolGet at hget
            rw [hhead] at hget
            dsimp only [orFault] at hget
            rw [ok_bind, if_neg (by simp [h.unmarked x List.mem_cons_self])] at hget
            obtain ⟨_, -, hget⟩ := bind_eq_ok.mp hget
            obtain ⟨_, -, hget⟩ := bind_eq_ok.mp hget
            cases hget
      obtain rfl := mpoolGet_none hget
      exact ⟨⟨free, busy, h⟩, rfl, hnil⟩
  | some x =>
      obtain ⟨hhead, hfree, hnum, -⟩ := mpoolGet_some hget
      have hx : x ∈ free ++ busy := by
        have hfirst : mp.head = (free ++ busy).head? := h.orders.head
        exact List.mem_of_mem_head? (hfirst.symm.trans hhead)
      have hlt : x < mp.slab_num := (h.slabs x).mp hx
      refine ⟨?_, hnum, hlt⟩
      cases free with
      | nil =>
          rw [h.marked x hx] at hfree
          cases hfree
      | cons y free =>
          by_cases htwo : 2 ≤ mp.slab_num
          · obtain ⟨mp₁, hget₁, hordered, -⟩ := h.get_some htwo
            rw [hget] at hget₁
            cases hget₁
            exact ⟨_, _, hordered⟩
          · -- the only slab of a pool has no successor
            have hlen := h.length
            rw [List.length_cons] at hlen
            have hnil : free ++ busy = [] :=
              List.eq_nil_of_length_eq_zero (by rw [List.length_append]; omega)
            have horders : mp.chain.Orders [y] := by
              have horders := h.orders
              rwa [List.cons_append, hnil] at horders
            have hnext : (mp.slabs y).next = none := horders.next [] y [] rfl
            have hhead : mp.head = some y := horders.head
            unfold mpoolGet at hget
            rw [hhead] at hget
            dsimp only [orFault] at hget
            rw [ok_bind, if_neg (by simp [h.unmarked y List.mem_cons_self]),
              Mpool.setUsed_next, hnext] at hget
            cases hget

/-- Whatever a put that returns does, the pool stays in order. -/
theorem Mpool.Ordered.of_put
    {mp' : Mpool}
    (h : mp.Ordered free busy)
    (hput : mpoolPut mp x = .ok mp') :
    (∃ free' busy', mp'.Ordered free' busy') ∧ mp'.slab_num = mp.slab_num ∧
      x < mp.slab_num := by
  by_cases hlt : x < mp.slab_num
  · rcases List.mem_append.mp ((h.slabs x).mpr hlt) with hfree | hbusy
    · rw [h.put_free hfree] at hput
      cases hput
      exact ⟨⟨free, busy, h⟩, rfl, hlt⟩
    · obtain ⟨b₁, b₂, rfl⟩ := List.append_of_mem hbusy
      obtain ⟨mp₁, hput₁, hordered, hnum, -⟩ := h.put_busy
      rw [hput] at hput₁
      cases hput₁
      exact ⟨⟨_, _, hordered⟩, hnum, hlt⟩
  · unfold mpoolPut at hput
    rw [if_pos hlt] at hput
    cases hput

end Operations

/-! ## Histories of gets and puts

Callers hold pointers to the data of slabs.  A pointer is given as its offset
in the memory of the pool. -/

/-- `sizeof(mslab)`. -/
def sizeofMslab : Nat := 24

/-- `sizeof(mpool)`. -/
def sizeofMpool : Nat := 96

namespace Mpool

/-- The bytes from one slab to the next. -/
def stride (mp : Mpool) : Nat := sizeofMslab + mp.slab_size

/-- `mp->size`, a `size_t`. -/
def size (mp : Mpool) : Nat := mp.slab_num * mp.stride % 2 ^ 64

/-- `s->data` of a slab. -/
def dataOf (mp : Mpool) (s : Nat) : Nat := s * mp.stride + sizeofMslab

end Mpool

/-- `mpool_get` with the pointer it returns. -/
def mpoolGetData (mp : Mpool) : Except Stop (Option Nat × Mpool) := do
  let (o, mp') ← mpoolGet mp
  .ok (o.map mp.dataOf, mp')

/-- `mpool_put` of a pointer, with its assertion. -/
def mpoolPutData (mp : Mpool) (p : Nat) : Except Stop Mpool :=
  if 0 < p ∧ p < mp.size then mpoolPut mp ((p - sizeofMslab) / mp.stride)
  else .error .abort

namespace SlabPool

/-- A pool in use: the pointers ever returned by a get, and those of them that
have not been put back since. -/
structure PoolState where
  pool : Mpool
  given : List Nat
  out : List Nat

/-- What callers do. -/
inductive Act where
  | get
  | put (p : Nat)

/-- A new pool. -/
def start (slab_num slab_size : Nat) : PoolState :=
  { pool := mpoolNew slab_num slab_size, given := [], out := [] }

/-- One call.  Only pointers that a get returned are put back. -/
def step (s : PoolState) : Act → Except Stop PoolState
  | .get => do
      let (o, pool) ← mpoolGetData s.pool
      .ok { pool, given := s.given ++ o.toList, out := s.out ++ o.toList }
  | .put p => do
      require (p ∈ s.given)
      let pool ← mpoolPutData s.pool p
      .ok { s with pool, out := s.out.erase p }

/-- Following `next` from the head visits every slab once, the free ones
first, and ends at the tail; `prev` leads back. -/
structure WellLinked (mp : Mpool) (order : List Nat) : Prop where
  walk : ∀ k, mp.slab_num ≤ k → mp.chain.walk k mp.head = order
  all : order.Perm (List.range mp.slab_num)
  tail : order.getLast? = mp.tail
  first : ∀ h, mp.head = some h → (mp.slabs h).prev = none
  inverse : ∀ s t, s < mp.slab_num → t < mp.slab_num →
    ((mp.slabs s).next = some t ↔ (mp.slabs t).prev = some s)
  split : ∃ free busy, order = free ++ busy ∧
    (∀ s ∈ free, (mp.slabs s).used = false) ∧ ∀ s ∈ busy, (mp.slabs s).used = true

/-- What a pool of `n` slabs promises. -/
structure Correct (n : Nat) (s : PoolState) : Prop where
  num : s.pool.slab_num = n
  distinct : s.out.Nodup
  slabs : ∀ p ∈ s.out, ∃ i, i < n ∧ p = s.pool.dataOf i
  get : ∃ o pool, mpoolGetData s.pool = .ok (o, pool) ∧ (o = none ↔ s.out.length = n)
  put : ∀ p ∈ s.given, ∃ pool, mpoolPutData s.pool p = .ok pool ∧
    (p ∉ s.out → pool = s.pool)
  count : s.pool.slab_used = s.out.length
  order : ∃ order, WellLinked s.pool order

/-- In no history of a pool of `n` slabs does a get, or a put of a pointer that
was handed out, follow a `NULL` link. -/
def NullFree (n sz : Nat) : Prop :=
  ∀ s, Reachable step (start n sz) s →
    mpoolGetData s.pool ≠ .error .fault ∧
      ∀ p ∈ s.given, mpoolPutData s.pool p ≠ .error .fault

/-- The invariant of the runs. -/
structure Good (n : Nat) (s : PoolState) (free busy : List Nat) : Prop where
  ordered : s.pool.Ordered free busy
  num : s.pool.slab_num = n
  stride : 25 ≤ s.pool.stride
  size : n * s.pool.stride < 2 ^ 64
  out : s.out = busy.map s.pool.dataOf
  given : ∀ p ∈ s.given, ∃ i, i < n ∧ p = s.pool.dataOf i

section Pointers

variable {mp : Mpool} {i j n : Nat}

theorem dataOf_injective
    (hstride : 25 ≤ mp.stride) :
    Injective mp.dataOf := by
  intro i j h
  unfold Mpool.dataOf at h
  exact Nat.eq_of_mul_eq_mul_right (by omega) (Nat.add_right_cancel h)

/-- The pointer to the data of a slab passes the assertion and leads back to
the slab. -/
theorem mpoolPutData_dataOf
    (hstride : 25 ≤ mp.stride)
    (hsize : mp.slab_num * mp.stride < 2 ^ 64)
    (hi : i < mp.slab_num) :
    mpoolPutData mp (mp.dataOf i) = mpoolPut mp i := by
  have hroom : (i + 1) * mp.stride ≤ mp.slab_num * mp.stride :=
    Nat.mul_le_mul_right _ hi
  rw [Nat.succ_mul] at hroom
  have hback : (mp.dataOf i - sizeofMslab) / mp.stride = i := by
    unfold Mpool.dataOf
    rw [Nat.add_sub_cancel, Nat.mul_div_cancel _ (by omega)]
  unfold mpoolPutData
  rw [if_pos, hback]
  unfold Mpool.size Mpool.dataOf sizeofMslab
  rw [Nat.mod_eq_of_lt hsize]
  omega

end Pointers

section Runs

variable {n : Nat} {s s' : PoolState} {free busy : List Nat} {p : Nat}

/-- A get in a pool that is in order. -/
theorem Good.get
    (h : Good n s free busy)
    (hn : 2 ≤ n) :
    ∃ o pool, mpoolGetData s.pool = .ok (o, pool) ∧ (o = none ↔ s.out.length = n) ∧
      ∃ free' busy', Good n
        { pool, given := s.given ++ o.toList, out := s.out ++ o.toList } free' busy' := by
  have hlen := h.ordered.length
  rw [h.num] at hlen
  have hout : s.out.length = busy.length := by rw [h.out, List.length_map]
  cases free with
  | nil =>
      cases busy with
      | nil =>
          simp only [List.length_nil] at hlen
          omega
      | cons x busy =>
          refine ⟨none, s.pool, ?_, ?_, [], x :: busy, ?_⟩
          · unfold mpoolGetData
            rw [h.ordered.get_none]
            rfl
          · simp only [List.length_nil] at hlen
            simp only [true_iff]
            omega
          · simpa using h
  | cons x free =>
      have hnum : 2 ≤ s.pool.slab_num := h.num ▸ hn
      obtain ⟨pool, hget, hordered, hnum', hsize'⟩ := h.ordered.get_some hnum
      have hstride : pool.stride = s.pool.stride := by
        unfold Mpool.stride
        rw [hsize']
      have hdata : pool.dataOf = s.pool.dataOf := by
        unfold Mpool.dataOf
        rw [hstride]
      have hx : x < n := h.num ▸ (h.ordered.slabs x).mp (by simp)
      refine ⟨some (s.pool.dataOf x), pool, ?_, ?_, free, busy ++ [x], hordered,
        hnum'.trans h.num, ?_, ?_, ?_, ?_⟩
      · unfold mpoolGetData
        rw [hget]
        rfl
      · simp only [List.length_cons] at hlen
        simp only [reduceCtorEq, false_iff]
        omega
      · rw [hstride]
        exact h.stride
      · rw [hstride]
        exact h.size
      · dsimp only
        rw [hdata, h.out, List.map_append]
        rfl
      · intro p hp
        dsimp only at hp ⊢
        rw [hdata]
        rcases List.mem_append.mp hp with hp | hp
        · exact h.given p hp
        · exact ⟨x, hx, by simpa using hp⟩

/-- A put of a pointer that a get returned. -/
theorem Good.put
    (h : Good n s free busy)
    (hp : p ∈ s.given) :
    ∃ pool, mpoolPutData s.pool p = .ok pool ∧ (p ∉ s.out → pool = s.pool) ∧
      ∃ free' busy', Good n { s with pool, out := s.out.erase p } free' busy' := by
  obtain ⟨i, hi, rfl⟩ := h.given p hp
  have hinj := dataOf_injective h.stride
  have hi' : i < s.pool.slab_num := h.num.symm ▸ hi
  have hput := mpoolPutData_dataOf h.stride (h.num.symm ▸ h.size) hi'
  rcases List.mem_append.mp ((h.ordered.slabs i).mpr hi') with hfree | hbusy
  · -- the slab is free already
    have hout : s.pool.dataOf i ∉ s.out := by
      rw [h.out, List.mem_map_of_injective hinj]
      exact fun hbusy => (List.nodup_append.mp h.ordered.orders.nodup).2.2 i hfree i hbusy rfl
    refine ⟨s.pool, hput.trans (h.ordered.put_free hfree), fun _ => rfl, free, busy, ?_⟩
    rw [List.erase_of_not_mem hout]
    exact h
  · have hout : s.pool.dataOf i ∈ s.out := by
      rw [h.out]
      exact List.mem_map_of_mem hbusy
    obtain ⟨b₁, b₂, rfl⟩ := List.append_of_mem hbusy
    obtain ⟨pool, hput', hordered, hnum, hsize⟩ := h.ordered.put_busy
    have hstride : pool.stride = s.pool.stride := by
      unfold Mpool.stride
      rw [hsize]
    have hdata : pool.dataOf = s.pool.dataOf := by
      unfold Mpool.dataOf
      rw [hstride]
    refine ⟨pool, hput.trans hput', fun hnot => absurd hout hnot, i :: free, b₁ ++ b₂,
      hordered, hnum.trans h.num, ?_, ?_, ?_, ?_⟩
    · rw [hstride]
      exact h.stride
    · rw [hstride]
      exact h.size
    · have hnodup : (b₁ ++ i :: b₂).Nodup := (List.nodup_append.mp h.ordered.orders.nodup).2.1
      have hi₁ : i ∉ b₁ := by
        intro hmem
        exact (List.nodup_append.mp hnodup).2.2 i hmem i List.mem_cons_self rfl
      dsimp only
      rw [hdata, h.out, List.map_append, List.map_cons, List.erase_append_right,
        List.erase_cons_head, List.map_append]
      rwa [List.mem_map_of_injective hinj]
    · dsimp only
      rw [hdata]
      exact h.given

/-- The list of a pool in order. -/
theorem wellLinked_of_ordered
    {mp : Mpool}
    (h : mp.Ordered free busy) :
    WellLinked mp (free ++ busy) := by
  refine ⟨?_, h.perm, h.orders.tail.symm, ?_, ?_, free, busy, rfl, h.unmarked, h.marked⟩
  · intro k hk
    have hhead : mp.head = (free ++ busy).head? := h.orders.head
    rw [hhead]
    refine h.orders.toThreads.walk_eq (l := []) rfl ?_
    rwa [h.perm.length_eq, List.length_range]
  · intro hd hhead
    have hhead' : (free ++ busy).head? = some hd := h.orders.head.symm.trans hhead
    obtain ⟨r, hr⟩ := List.head?_eq_some_iff.mp hhead'
    exact h.orders.first hd r hr
  · intro i j hi hj
    exact h.orders.next_iff_prev ((h.slabs i).mpr hi) ((h.slabs j).mpr hj)

/-- The invariant holds in every run. -/
theorem good_of_reach
    {sz : Nat}
    (hn : 2 ≤ n)
    (hsz : 1 ≤ sz)
    (htotal : n * (sizeofMslab + sz) + sizeofMpool < 2 ^ 64)
    (hreach : Reachable step (start n sz) s) :
    ∃ free busy, Good n s free busy := by
  refine hreach.invariant (I := fun s => ∃ free busy, Good n s free busy) ?_ ?_
  · obtain ⟨hordered, hsize⟩ := mpoolNew_ordered sz (by omega : 1 ≤ n)
    have hnum : (mpoolNew n sz).slab_num = n := (mpoolNew_spec sz (by omega)).2.1
    have hstride : (mpoolNew n sz).stride = sizeofMslab + sz := by
      unfold Mpool.stride
      rw [hsize]
    refine ⟨(List.range n).reverse, [], hordered, hnum, ?_, ?_, rfl, nofun⟩
    · dsimp only [start]
      rw [hstride]
      unfold sizeofMslab
      omega
    · dsimp only [start]
      rw [hstride]
      omega
  · rintro s a s' ⟨free, busy, hgood⟩ - hstep
    cases a with
    | get =>
        obtain ⟨o, pool, hget, -, hnext⟩ := hgood.get hn
        simp only [step, hget, ok_bind] at hstep
        cases hstep
        exact hnext
    | put p =>
        obtain ⟨_, hp, hstep⟩ := bind_eq_ok.mp hstep
        obtain ⟨pool, hput, -, hnext⟩ := hgood.put (require_eq_ok.mp hp)
        rw [hput, ok_bind] at hstep
        cases hstep
        exact hnext

/-- **Slab pool correctness.**  In every history of gets and puts of a pool of
at least two slabs of at least one byte, what is handed out and not put back is
a set of different slabs of the pool, a get fails only when that is all of
them, a put of a slab that is free changes nothing, and the list of the pool
visits every slab, the free ones first. -/
theorem slab_pool_correct
    {sz : Nat}
    (hn : 2 ≤ n)
    (hsz : 1 ≤ sz)
    (htotal : n * (sizeofMslab + sz) + sizeofMpool < 2 ^ 64)
    (hreach : Reachable step (start n sz) s) :
    Correct n s := by
  obtain ⟨free, busy, hgood⟩ := good_of_reach hn hsz htotal hreach
  have hinj := dataOf_injective hgood.stride
  have hbusy : busy.Nodup := (List.nodup_append.mp hgood.ordered.orders.nodup).2.1
  refine ⟨hgood.num, ?_, ?_, ?_, ?_, ?_, _, wellLinked_of_ordered hgood.ordered⟩
  · rw [hgood.out]
    exact hbusy.map hinj
  · intro p hp
    rw [hgood.out, List.mem_map] at hp
    obtain ⟨i, hi, rfl⟩ := hp
    exact ⟨i, hgood.num ▸ (hgood.ordered.slabs i).mp (List.mem_append_right _ hi), rfl⟩
  · obtain ⟨o, pool, hget, hnull, -⟩ := hgood.get hn
    exact ⟨o, pool, hget, hnull⟩
  · intro p hp
    obtain ⟨pool, hput, hsame, -⟩ := hgood.put hp
    exact ⟨pool, hput, hsame⟩
  · rw [hgood.ordered.count, hgood.out, List.length_map]

/-- Three slabs of one byte: all are handed out, the middle one comes back
twice, and is handed out again. -/
theorem slab_pool_correct_three_slabs :
    ∃ s, Reachable step (start 3 1) s ∧ s.out = [74, 24, 49] ∧ Correct 3 s := by
  obtain ⟨s, hreach, hcheck⟩ := reachable_of_endsIn step (start 3 1)
    [.get, .get, .get, .get, .put 49, .put 49, .get]
    (fun s => decide (s.out = [74, 24, 49])) (by decide +kernel)
  exact ⟨s, hreach, by simpa using hcheck,
    slab_pool_correct (by decide) (by decide) (by decide) hreach⟩

/-- The only slab of a pool has no successor for a get to make the head. -/
theorem mpoolGetData_single
    (sz : Nat) :
    mpoolGetData (mpoolNew 1 sz) = .error .fault := by
  rfl

/-- A pool follows no `NULL` link exactly when it has a second slab. -/
theorem nullFree_iff
    {sz : Nat}
    (hn : 1 ≤ n)
    (hsz : 1 ≤ sz)
    (htotal : n * (sizeofMslab + sz) + sizeofMpool < 2 ^ 64) :
    NullFree n sz ↔ 2 ≤ n := by
  constructor
  · intro hfree
    by_contra hlt
    obtain rfl : n = 1 := by omega
    exact (hfree _ .start).1 (mpoolGetData_single sz)
  · intro hn s hreach
    obtain ⟨free, busy, hgood⟩ := good_of_reach hn hsz htotal hreach
    constructor
    · obtain ⟨o, pool, hget, -⟩ := hgood.get hn
      rw [hget]
      exact nofun
    · intro p hp
      obtain ⟨pool, hput, -⟩ := hgood.put hp
      rw [hput]
      exact nofun

end Runs

end SlabPool

end Ebot

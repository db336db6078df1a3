import Ebot.Ringq
import Mathlib.Data.List.Nodup
import Mathlib.Data.List.Range

/-!
# Building and taking down a worker pool

`wunit_init`, `wpool_new`, `wpool_destory` and `ringq_destroy`: the eventfds that
are opened and closed, and the rings that are created and freed on the way.

A pool that was built completely is taken down exactly: every ring is freed and
every eventfd closed once.  The path on which `wpool_new` gives up takes down a
pool that was not: it destroys the rings of all units, also of those that have
none.
-/

namespace Ebot

open Words

/-- What the calls on the system have done so far.  A ring is named by its place
in the list of those created. -/
structure Resources where
  opened : List Int
  closed : List Int
  rings : List Ringq
  freed : List Nat

/-- Before the first call. -/
def Resources.start : Resources := ⟨[], [], [], []⟩

/-- `wunit`, as far as building and taking down a pool use it. -/
structure WpoolUnit where
  id : Int
  efd : Int
  rq : Option Nat
deriving DecidableEq

/-- `wpool`; `size` is the size in bytes of the block it is in. -/
structure Wpool where
  size : Nat
  num : Int
  units : Nat → WpoolUnit

/-- `sizeof(wunit)`. -/
def sizeofWunit : Nat := 48

/-- `sizeof(wpool)`. -/
def sizeofWpool : Nat := 64

/-- What the surroundings decide in one `wunit_init`: the answer of `eventfd`,
and the outcomes of `malloc` and `pthread_mutex_init` in `ringq_new`. -/
structure UnitEnv where
  efd : Int
  mallocOk : Bool
  mutexRet : Int

/-- What they decide in one `wpool_new`. -/
structure PoolEnv where
  mallocOk : Bool
  mutexRet : Int
  unit : Nat → UnitEnv

/-- `&wp->units[i]`, which must be in the block. -/
def Wpool.unitAt (wp : Wpool) (i : Nat) : Except Stop WpoolUnit :=
  if sizeofWpool + (i + 1) * sizeofWunit ≤ wp.size then .ok (wp.units i)
  else .error .fault

/-- `wunit_init`. -/
def wunitInit (env : UnitEnv) (sys : Resources) (u : WpoolUnit) (qsz id : Int) :
    Int × Resources × WpoolUnit :=
  let u := { u with id := id, efd := env.efd }
  if env.efd < 0 then
    (-1, sys, u)
  else
    let sys := { sys with opened := sys.opened ++ [env.efd] }
    match ringqNew env.mallocOk env.mutexRet qsz 1 with
    | none => (-1, sys, { u with rq := none })
    | some rq =>
        (0, { sys with rings := sys.rings ++ [rq] },
          { u with rq := some sys.rings.length })

/-- The loop of `wpool_new` from unit `i` on, over `n` units: whether it reached
the end. -/
def wpoolInit (env : PoolEnv) (rq_sz : Int) (sys : Resources) (wp : Wpool) (i : Nat) :
    Nat → Except Stop (Bool × Resources × Wpool)
  | 0 => .ok (true, sys, wp)
  | n + 1 => do
      let u ← wp.unitAt i
      let (ret, sys, u) := wunitInit (env.unit i) sys u rq_sz (i + 1)
      let wp := { wp with units := Function.update wp.units i u }
      if ret < 0 then .ok (false, sys, wp)
      else wpoolInit env rq_sz sys wp (i + 1) n

/-- `ringq_destroy`: it reads `rq->use_lock` before it looks whether there is a
ring. -/
def ringqDestroy (sys : Resources) (rq : Option Nat) : Except Stop Resources := do
  let r ← orFault rq
  if r < sys.rings.length ∧ r ∉ sys.freed then
    .ok { sys with freed := sys.freed ++ [r] }
  else .error .fault

/-- The loop of `wpool_destory` from unit `i` on, over `n` units. -/
def wpoolDestoryFrom (sys : Resources) (wp : Wpool) (i : Nat) : Nat → Except Stop Resources
  | 0 => .ok sys
  | n + 1 => do
      let u ← wp.unitAt i
      let sys ← ringqDestroy sys u.rq
      let sys := if 0 < u.efd then { sys with closed := sys.closed ++ [u.efd] } else sys
      wpoolDestoryFrom sys wp (i + 1) n

/-- `wpool_destory`; the lock and the block of the pool itself are not counted. -/
def wpoolDestory (sys : Resources) (wp : Wpool) : Except Stop Resources :=
  wpoolDestoryFrom sys wp 0 wp.num.toNat

/-- `wpool_new`: the pool, or `none` for `NULL`.  Without a block for it the path
that gives up reads a `wp` that was never set. -/
def wpoolNew (env : PoolEnv) (num rq_sz : Int) :
    Except Stop (Option Wpool × Resources) :=
  let size := sizeT (int32 (sizeofWpool + num * sizeofWunit))
  if ¬ env.mallocOk then
    .error .fault
  else if size < sizeofWpool then
    .error .fault
  else
    let wp : Wpool := { size, num, units := fun _ => ⟨0, 0, none⟩ }
    if env.mutexRet < 0 then do
      let sys ← wpoolDestory .start wp
      .ok (none, sys)
    else do
      let (done, sys, wp) ← wpoolInit env rq_sz .start wp 0 num.toNat
      if done then .ok (some wp, sys)
      else do
        let sys ← wpoolDestory sys wp
        .ok (none, sys)

/-- `wunit_init` succeeds. -/
def UnitEnv.Initialises (env : UnitEnv) (qsz : Int) : Prop :=
  0 ≤ env.efd ∧ (ringqNew env.mallocOk env.mutexRet qsz 1).isSome = true

/-- The first unit whose initialisation fails is unit `k`. -/
structure FailsAt (env : PoolEnv) (rq_sz : Int) (k : Nat) : Prop where
  before : ∀ i, i < k → (env.unit i).Initialises rq_sz
  fails : ¬ (env.unit k).Initialises rq_sz

/-- Everything that was opened and created is closed and freed once. -/
def Resources.Clean (sys : Resources) : Prop :=
  (∀ fd ∈ sys.opened, sys.closed.count fd = 1) ∧
    ∀ r, r < sys.rings.length → sys.freed.count r = 1

/-- What giving up should do: `wpool_new` returns `NULL`, and everything is
clean. -/
def CleansUp (env : PoolEnv) (num rq_sz : Int) : Prop :=
  ∃ sys, wpoolNew env num rq_sz = .ok (none, sys) ∧ sys.Clean

/-- The eventfds of the first `m` units. -/
def efds (env : PoolEnv) (m : Nat) : List Int :=
  (List.range m).map fun i => (env.unit i).efd

/-- The first `m` units are initialised, nothing else is. -/
structure Built (env : PoolEnv) (m : Nat) (sys : Resources) (wp : Wpool) : Prop where
  opened : sys.opened = efds env m
  closed : sys.closed = []
  rings : sys.rings.length = m
  freed : sys.freed = []
  units : ∀ i, i < m → wp.units i = ⟨i + 1, (env.unit i).efd, some i⟩
  rest : ∀ i, m ≤ i → (wp.units i).rq = none

section Init

variable {env : PoolEnv} {rq_sz : Int} {sys : Resources} {wp : Wpool} {m n k : Nat}

theorem efds_succ :
    efds env (m + 1) = efds env m ++ [(env.unit m).efd] := by
  unfold efds
  rw [List.range_succ, List.map_append]
  rfl

theorem Wpool.unitAt_of_le
    {i : Nat}
    (h : sizeofWpool + n * sizeofWunit ≤ wp.size)
    (hi : i < n) :
    wp.unitAt i = .ok (wp.units i) := by
  unfold Wpool.unitAt
  have hmul : (i + 1) * sizeofWunit ≤ n * sizeofWunit := Nat.mul_le_mul_right _ hi
  rw [if_pos (by omega)]

theorem Wpool.unitAt_cases
    (wp : Wpool) (i : Nat) :
    wp.unitAt i = .error .fault ∨ wp.unitAt i = .ok (wp.units i) := by
  unfold Wpool.unitAt
  by_cases h : sizeofWpool + (i + 1) * sizeofWunit ≤ wp.size
  · exact .inr (if_pos h)
  · exact .inl (if_neg h)

/-- A unit that is initialised. -/
theorem wunitInit_of_initialises
    {ue : UnitEnv} (sys : Resources) (u : WpoolUnit) (id : Int)
    (h : ue.Initialises rq_sz) :
    ∃ rq, wunitInit ue sys u rq_sz id =
      (0, { sys with opened := sys.opened ++ [ue.efd], rings := sys.rings ++ [rq] },
        ⟨id, ue.efd, some sys.rings.length⟩) := by
  obtain ⟨hefd, hring⟩ := h
  obtain ⟨rq, hrq⟩ := Option.isSome_iff_exists.mp hring
  refine ⟨rq, ?_⟩
  unfold wunitInit
  dsimp only
  rw [if_neg (by omega), hrq]

/-- A unit that is not, for either reason. -/
theorem wunitInit_of_not_initialises
    {ue : UnitEnv} {u : WpoolUnit} (sys : Resources) (id : Int)
    (h : ¬ ue.Initialises rq_sz)
    (hu : u.rq = none) :
    ∃ opened u', wunitInit ue sys u rq_sz id = (-1, { sys with opened }, u') ∧
      u'.rq = none := by
  unfold wunitInit
  dsimp only
  by_cases hefd : ue.efd < 0
  · rw [if_pos hefd]
    exact ⟨_, _, rfl, hu⟩
  · rw [if_neg hefd]
    have hring : ringqNew ue.mallocOk ue.mutexRet rq_sz 1 = none := by
      by_contra hsome
      exact h ⟨by omega, Option.isSome_iff_ne_none.mpr hsome⟩
    rw [hring]
    exact ⟨_, _, rfl, rfl⟩

/-- One more unit. -/
theorem Built.next
    (h : Built env m sys wp)
    (rq : Ringq) :
    Built env (m + 1)
      { sys with
        opened := sys.opened ++ [(env.unit m).efd]
        rings := sys.rings ++ [rq] }
      { wp with
        units := Function.update wp.units m
          ⟨m + 1, (env.unit m).efd, some sys.rings.length⟩ } where
  opened := by
    rw [efds_succ, ← h.opened]
  closed := h.closed
  rings := by
    rw [List.length_append, h.rings]
    rfl
  freed := h.freed
  units := by
    intro i hi
    by_cases him : i = m
    · subst him
      simp [h.rings]
    · simp only [Function.update_of_ne him]
      exact h.units i (by omega)
  rest := by
    intro i hi
    have him : i ≠ m := by omega
    simp only [Function.update_of_ne him]
    exact h.rest i (by omega)

/-- The loop of `wpool_new`, where every unit is initialised. -/
theorem wpoolInit_spec
    (hbuilt : Built env m sys wp)
    (hsize : sizeofWpool + (m + n) * sizeofWunit ≤ wp.size)
    (hinit : ∀ i, i < m + n → (env.unit i).Initialises rq_sz) :
    ∃ sys' wp', wpoolInit env rq_sz sys wp m n = .ok (true, sys', wp') ∧
      Built env (m + n) sys' wp' ∧ wp'.size = wp.size ∧ wp'.num = wp.num := by
  induction n generalizing m sys wp with
  | zero => exact ⟨sys, wp, rfl, hbuilt, rfl, rfl⟩
  | succ n ih =>
      have hlen : m + (n + 1) = m + 1 + n := by omega
      obtain ⟨rq, hunit⟩ := wunitInit_of_initialises sys (wp.units m) (m + 1)
        (hinit m (by omega))
      rw [hlen] at hsize hinit ⊢
      obtain ⟨sys', wp', hloop, hbuilt', hsize', hnum'⟩ :=
        ih (hbuilt.next rq) hsize hinit
      refine ⟨sys', wp', ?_, hbuilt', hsize', hnum'⟩
      unfold wpoolInit
      rw [Wpool.unitAt_of_le hsize (by omega), ok_bind, hunit]
      exact hloop

/-- The loop of `wpool_new`, where unit `k` is the first that is not: unless it
leaves the block before, it gives up with a unit that has no ring. -/
theorem wpoolInit_fails
    (sys : Resources)
    (hfails : FailsAt env rq_sz k)
    (hrest : ∀ i, m ≤ i → (wp.units i).rq = none)
    (hm : m ≤ k)
    (hk : k < m + n) :
    wpoolInit env rq_sz sys wp m n = .error .fault ∨
      ∃ sys' wp', wpoolInit env rq_sz sys wp m n = .ok (false, sys', wp') ∧
        (wp'.units k).rq = none ∧ wp'.num = wp.num := by
  induction n generalizing m sys wp with
  | zero => omega
  | succ n ih =>
      unfold wpoolInit
      obtain hat | hat := wp.unitAt_cases m
      · left
        rw [hat, error_bind]
      · rw [hat, ok_bind]
        by_cases hmk : m = k
        · subst hmk
          right
          obtain ⟨opened, u', hunit, hrq⟩ := wunitInit_of_not_initialises sys (m + 1)
            hfails.fails (hrest m le_rfl)
          rw [hunit]
          refine ⟨_, _, rfl, ?_, rfl⟩
          simp [hrq]
        · obtain ⟨rq, hunit⟩ := wunitInit_of_initialises sys (wp.units m) (m + 1)
            (hfails.before m (by omega))
          rw [hunit]
          refine ih _ ?_ (by omega) (by omega)
          intro i hi
          have him : i ≠ m := by omega
          simp only [Function.update_of_ne him]
          exact hrest i (by omega)

end Init

section Destroy

variable {env : PoolEnv} {rq_sz num : Int} {sys : Resources} {wp : Wpool} {m n k : Nat}

theorem ringqDestroy_cases
    (sys : Resources) (rq : Option Nat) :
    ringqDestroy sys rq = .error .fault ∨ ∃ sys', ringqDestroy sys rq = .ok sys' := by
  unfold ringqDestroy
  cases rq with
  | none => exact .inl rfl
  | some r =>
      dsimp only [orFault]
      rw [ok_bind]
      by_cases h : r < sys.rings.length ∧ r ∉ sys.freed
      · exact .inr ⟨_, if_pos h⟩
      · exact .inl (if_neg h)

/-- What is left of a pool when the loop of `wpool_destory` has gone through the
first `m` units. -/
def takenDown (env : PoolEnv) (sys : Resources) (m : Nat) : Resources :=
  { sys with closed := (efds env m).filter (0 < ·), freed := List.range m }

theorem ringqDestroy_takenDown
    (h : m < sys.rings.length) :
    ringqDestroy (takenDown env sys m) (some m) =
      .ok { takenDown env sys m with freed := List.range (m + 1) } := by
  unfold ringqDestroy takenDown
  dsimp only [orFault]
  rw [ok_bind, if_pos ⟨h, by simp⟩, List.range_succ]

theorem close_takenDown :
    (if 0 < (env.unit m).efd then
      { takenDown env sys m with
        freed := List.range (m + 1)
        closed := (takenDown env sys m).closed ++ [(env.unit m).efd] }
      else { takenDown env sys m with freed := List.range (m + 1) }) =
      takenDown env sys (m + 1) := by
  unfold takenDown
  rw [efds_succ, List.filter_append]
  by_cases hefd : 0 < (env.unit m).efd
  · simp [hefd]
  · simp [hefd]

/-- The loop of `wpool_destory` over units that are all built. -/
theorem wpoolDestoryFrom_spec
    (hbuilt : Built env (m + n) sys wp)
    (hsize : sizeofWpool + (m + n) * sizeofWunit ≤ wp.size) :
    wpoolDestoryFrom (takenDown env sys m) wp m n =
      .ok (takenDown env sys (m + n)) := by
  induction n generalizing m with
  | zero => rfl
  | succ n ih =>
      have hlen : m + (n + 1) = m + 1 + n := by omega
      rw [hlen] at hbuilt hsize ⊢
      unfold wpoolDestoryFrom
      rw [Wpool.unitAt_of_le hsize (by omega), ok_bind, hbuilt.units m (by omega),
        ringqDestroy_takenDown (by rw [hbuilt.rings]; omega), ok_bind]
      dsimp only
      rw [close_takenDown]
      exact ih hbuilt hsize

/-- A unit without a ring stops `wpool_destory`: `ringq_destroy` reads through
`NULL`. -/
theorem wpoolDestoryFrom_fault
    (hrq : (wp.units k).rq = none)
    (hm : m ≤ k)
    (hk : k < m + n) :
    wpoolDestoryFrom sys wp m n = .error .fault := by
  induction n generalizing m sys with
  | zero => omega
  | succ n ih =>
      unfold wpoolDestoryFrom
      obtain hat | hat := wp.unitAt_cases m
      · rw [hat, error_bind]
      · rw [hat, ok_bind]
        by_cases hmk : m = k
        · subst hmk
          rw [hrq]
          rfl
        · obtain hring | ⟨sys', hring⟩ := ringqDestroy_cases sys (wp.units m).rq
          · rw [hring, error_bind]
          · rw [hring, ok_bind]
            exact ih (by omega) (by omega)

/-- The block of a pool with `num` units, where its size fits an `int`. -/
theorem sizeT_of_fits
    (hnum : 0 ≤ num)
    (hfits : sizeofWpool + num * sizeofWunit ≤ 2147483647) :
    sizeT (int32 (sizeofWpool + num * sizeofWunit)) =
      sizeofWpool + num.toNat * sizeofWunit := by
  obtain ⟨n, rfl⟩ := Int.eq_ofNat_of_zero_le hnum
  have hcast : (sizeofWpool : Int) + (n : Int) * sizeofWunit =
      ((sizeofWpool + n * sizeofWunit : Nat) : Int) := by
    push_cast
    rfl
  rw [hcast] at hfits ⊢
  rw [int32_of_inInt ⟨by omega, by omega⟩, sizeT_natCast (by omega)]
  rfl

/-- A new pool, before its first unit. -/
theorem built_start
    (env : PoolEnv) (size : Nat) (num : Int) :
    Built env 0 .start { size, num, units := fun _ => ⟨0, 0, none⟩ } where
  opened := rfl
  closed := rfl
  rings := rfl
  freed := rfl
  units := by
    intro i hi
    omega
  rest := by
    intro i hi
    rfl

/-- Where every unit can be initialised, `wpool_new` returns a pool. -/
theorem wpoolNew_spec
    (hnum : 0 ≤ num)
    (hfits : sizeofWpool + num * sizeofWunit ≤ 2147483647)
    (halloc : env.mallocOk = true)
    (hmutex : 0 ≤ env.mutexRet)
    (hinit : ∀ i, i < num.toNat → (env.unit i).Initialises rq_sz) :
    ∃ wp sys, wpoolNew env num rq_sz = .ok (some wp, sys) ∧
      Built env num.toNat sys wp ∧ wp.num = num ∧
      wp.size = sizeofWpool + num.toNat * sizeofWunit := by
  have hstart := built_start env (sizeofWpool + num.toNat * sizeofWunit) num
  obtain ⟨sys, wp, hloop, hbuilt, hsize, hwpnum⟩ :=
    wpoolInit_spec (n := num.toNat) hstart (by rw [Nat.zero_add]) (by rwa [Nat.zero_add])
  rw [Nat.zero_add] at hbuilt
  refine ⟨wp, sys, ?_, hbuilt, hwpnum, hsize⟩
  unfold wpoolNew
  dsimp only
  rw [sizeT_of_fits hnum hfits, if_neg (by simp [halloc]), if_neg (by omega),
    if_neg (by omega), hloop, ok_bind]
  rfl

/-- A pool that was built completely is taken down exactly: `wpool_destory`
frees the rings in their order, and closes the eventfds except a `0`. -/
theorem wpoolDestory_built
    (hbuilt : Built env n sys wp)
    (hnum : wp.num = n)
    (hsize : sizeofWpool + n * sizeofWunit ≤ wp.size) :
    wpoolDestory sys wp = .ok (takenDown env sys n) := by
  have hstart : sys = takenDown env sys 0 := by
    have hclosed := hbuilt.closed
    have hfreed := hbuilt.freed
    obtain ⟨opened, closed, rings, freed⟩ := sys
    subst hclosed hfreed
    rfl
  unfold wpoolDestory
  rw [hnum, Int.toNat_natCast, hstart]
  have hloop := wpoolDestoryFrom_spec (m := 0) (n := n) (by rwa [Nat.zero_add])
    (by rwa [Nat.zero_add])
  rwa [Nat.zero_add] at hloop

/-- Every ring and every eventfd of a pool that was built and taken down is
accounted for, where the system numbers the eventfds apart and above 0. -/
theorem takenDown_clean
    (hbuilt : Built env n sys wp)
    (hdistinct : (efds env n).Nodup)
    (hpos : ∀ fd ∈ efds env n, 0 < fd) :
    (takenDown env sys n).Clean := by
  have hall : (efds env n).filter (0 < ·) = efds env n := by
    rw [List.filter_eq_self]
    intro fd hfd
    exact decide_eq_true (hpos fd hfd)
  refine ⟨?_, ?_⟩
  · intro fd hfd
    have hfd' : fd ∈ efds env n := hbuilt.opened ▸ hfd
    unfold takenDown
    rw [hall]
    exact List.count_eq_one_of_mem hdistinct hfd'
  · intro r hr
    have hr' : r < n := hbuilt.rings ▸ hr
    exact List.count_eq_one_of_mem List.nodup_range (List.mem_range.mpr hr')

/-- `wpool_new` with a unit that cannot be initialised. -/
theorem wpoolNew_fault
    (halloc : env.mallocOk = true)
    (hmutex : 0 ≤ env.mutexRet)
    (hfails : FailsAt env rq_sz k)
    (hk : k < num) :
    wpoolNew env num rq_sz = .error .fault := by
  unfold wpoolNew
  dsimp only
  rw [if_neg (by simp [halloc])]
  split
  · rfl
  · rw [if_neg (by omega)]
    have hrest := fun i hi => (built_start env
      (sizeT (int32 (sizeofWpool + num * sizeofWunit))) num).rest i hi
    obtain hloop | ⟨sys, wp, hloop, hrq, hwpnum⟩ :=
      wpoolInit_fails .start hfails hrest (Nat.zero_le k) (n := num.toNat) (by omega)
    · rw [hloop, error_bind]
    · have hdestory : wpoolDestory sys wp = .error .fault := by
        unfold wpoolDestory
        exact wpoolDestoryFrom_fault hrq (Nat.zero_le k) (by rw [hwpnum]; dsimp only; omega)
      rw [hloop, ok_bind]
      dsimp only
      rw [if_neg Bool.false_ne_true, hdestory, error_bind]

/-- What is built is taken down: `wpool_new` and `wpool_destory` leave no ring and
no eventfd behind, and release none of them twice. -/
theorem wpool_round_trip
    (hnum : 0 ≤ num)
    (hfits : sizeofWpool + num * sizeofWunit ≤ 2147483647)
    (halloc : env.mallocOk = true)
    (hmutex : 0 ≤ env.mutexRet)
    (hinit : ∀ i, i < num.toNat → (env.unit i).Initialises rq_sz)
    (hdistinct : (efds env num.toNat).Nodup)
    (hpos : ∀ fd ∈ efds env num.toNat, 0 < fd) :
    ∃ wp sys sys', wpoolNew env num rq_sz = .ok (some wp, sys) ∧
      wpoolDestory sys wp = .ok sys' ∧ sys'.Clean := by
  obtain ⟨wp, sys, hnew, hbuilt, hwpnum, hsize⟩ :=
    wpoolNew_spec hnum hfits halloc hmutex hinit
  exact ⟨wp, sys, _, hnew, wpoolDestory_built hbuilt (by omega) hsize.ge,
    takenDown_clean hbuilt hdistinct hpos⟩

end Destroy

/-- Where a unit cannot be initialised, `wpool_new` never gives up cleanly: its
clean-up reads through the `NULL` ring of that unit. -/
theorem wpool_new_never_cleans_up
    (env : PoolEnv) (num rq_sz : Int) (k : Nat)
    (hk : k < num)
    (halloc : env.mallocOk = true)
    (hmutex : 0 ≤ env.mutexRet)
    (hfails : FailsAt env rq_sz k) :
    wpoolNew env num rq_sz = .error .fault ∧ ¬ CleansUp env num rq_sz := by
  have hfault := wpoolNew_fault halloc hmutex hfails hk
  refine ⟨hfault, ?_⟩
  rintro ⟨sys, hnew, -⟩
  rw [hfault] at hnew
  cases hnew

section Witness

/-- The third `eventfd` of a pool fails. -/
def thirdFails : PoolEnv where
  mallocOk := true
  mutexRet := 0
  unit := fun i => ⟨if i = 2 then -1 else 10 + i, true, 0⟩

theorem thirdFails_failsAt :
    FailsAt thirdFails 64 2 where
  before := by
    intro i hi
    have hi' : i = 0 ∨ i = 1 := by omega
    obtain rfl | rfl := hi'
    · exact ⟨by decide, rfl⟩
    · exact ⟨by decide, rfl⟩
  fails := by
    intro h
    exact absurd h.1 (by decide)

/-- A pool of four units of which two are built. -/
theorem wpool_new_never_cleans_up_third :
    wpoolNew thirdFails 4 64 = .error .fault ∧ ¬ CleansUp thirdFails 4 64 :=
  wpool_new_never_cleans_up thirdFails 4 64 2 (by decide) rfl (by decide)
    thirdFails_failsAt

/-- Giving up is not always clean. -/
theorem not_wpool_new_cleans_up :
    ¬ ∀ (env : PoolEnv) (num rq_sz : Int) (k : Nat), 1 ≤ num → k < num →
      env.mallocOk = true → 0 ≤ env.mutexRet → FailsAt env rq_sz k →
      CleansUp env num rq_sz := by
  intro hclaim
  obtain ⟨sys, hnew, -⟩ := hclaim thirdFails 4 64 2 (by decide) (by decide) rfl (by decide)
    thirdFails_failsAt
  rw [wpoolNew_fault rfl (by decide) thirdFails_failsAt (by decide)] at hnew
  cases hnew

end Witness

end Ebot

import Ebot.Progress
import Ebot.Shutdown
import Mathlib.Algebra.Order.BigOperators.Group.List
import Mathlib.Algebra.Order.Group.Nat

/-!
# Every join comes to its end

`eb_srv_destroy` clears the status of a thread and, where it is a worker, writes to its
`efd` before it joins the thread.  So a thread that is joined is neither asleep for ever
nor in its loop for ever: the steps it still has to take can be counted, whatever the
others do.  None of them waits for another thread; in some the process may end.
-/

namespace Ebot

namespace Shutdown

open Function Bytes EdgeSource EventState Ledger Transition Lifecycle

/-! ## Steps that need not wait -/

/-- It is not that the move cannot be made. -/
def Proceeds {α : Type} (x : Except Stop α) : Prop := x ≠ .error .disabled

namespace Proceeds

variable {α β : Type}

theorem ok (a : α) : Proceeds (.ok a) := nofun

theorem of_ok
    {x : Except Stop α} {a : α}
    (h : x = .ok a) :
    Proceeds x :=
  h ▸ ok a

theorem error
    {e : Stop}
    (h : e ≠ .disabled) :
    Proceeds (.error e : Except Stop α) :=
  fun he => h (Except.error.inj he)

theorem orFault (o : Option α) : Proceeds (orFault o) := by
  cases o with
  | none => exact error nofun
  | some a => exact ok a

theorem bind
    {x : Except Stop α} {f : α → Except Stop β}
    (hx : Proceeds x)
    (hf : ∀ a, Proceeds (f a)) :
    Proceeds (x >>= f) := by
  cases x with
  | ok a => exact hf a
  | error e => exact error fun he => hx (congrArg Except.error he)

theorem ite
    {c : Prop} [Decidable c] {x y : Except Stop α}
    (hx : Proceeds x)
    (hy : Proceeds y) :
    Proceeds (if c then x else y) := by
  split
  · exact hx
  · exact hy

theorem map
    {x : Except Stop α} {f : α → β}
    (hx : Proceeds x) :
    Proceeds (x.map f) := by
  cases x with
  | ok a => exact ok (f a)
  | error e => exact error fun he => hx (congrArg Except.error he)

theorem memcpy (dst : Block) (d : Int) (src : Block) (s n : Int) :
    Proceeds (memcpy dst d src s n) :=
  orFault _

theorem mpoolGet (mp : Mpool) : Proceeds (mpoolGet mp) := by
  refine bind (orFault _) fun s => ite (ok _) ?_
  exact bind (orFault _) fun n => bind (orFault _) fun t => ok _

theorem mpoolPut (mp : Mpool) (s : Nat) : Proceeds (mpoolPut mp s) := by
  refine ite (error nofun) (ite ?_ (ok _))
  dsimp only
  split
  · exact ok _
  · exact bind (orFault _) fun h => ok _

theorem pushPack (rq : Ringq) (d : PackData) : Proceeds (pushPack rq d) := by
  have hcopy := fun dst i s n => memcpy dst i (Block.ofList d.bytes) s n
  unfold Ebot.pushPack ringqPushWithLock ringqPush
  dsimp only
  refine ite (ok _) (ite (ok _) (ite (ite (ok _) ?_) (ite (ok _) ?_)))
  · refine bind (orFault _) fun mem => ite ?_ (ite ?_ ?_)
    · exact bind (hcopy _ _ _ _) fun mem => ok _
    · exact bind (hcopy _ _ _ _) fun mem => bind (hcopy _ _ _ _) fun mem => ok _
    · exact bind (hcopy _ _ _ _) fun mem => ok _
  · exact bind (orFault _) fun mem => bind (hcopy _ _ _ _) fun mem => ok _

theorem popPack (rq : Ringq) (stack : Nat → UInt8) : Proceeds (popPack rq stack) := by
  have hcopy := fun dst i s n => memcpy dst i rq.mem s n
  unfold Ebot.popPack ringqPopWithLock ringqPop
  refine bind (ite (ok _) (ite (ok _) (bind (orFault _) fun hdr => ?_))) fun _ => ok _
  refine ite (ite (error nofun) (ite ?_ (ite ?_ ?_))) (ite (error nofun) ?_)
  · exact bind (hcopy _ _ _ _) fun item => ok _
  · exact bind (hcopy _ _ _ _) fun item => bind (hcopy _ _ _ _) fun item => ok _
  · exact bind (hcopy _ _ _ _) fun item => ok _
  · exact bind (hcopy _ _ _ _) fun item => ok _

theorem peek (b : Slots) (stale : Option (Option Nat)) (i : Nat) : Proceeds (b.peek stale i) :=
  ite (ite (ok _) (orFault _)) (error nofun)

theorem setIf (b : Slots) (c : Bool) (i : Nat) (p : Option Nat) : Proceeds (b.setIf c i p) :=
  ite (ite (ok _) (error nofun)) (ok _)

theorem ebotAddEvent (env : AddEnv) (eb : EbotBase) (p : Nat) (e : SrvEvent) :
    Proceeds (ebotAddEvent env eb p e) := by
  unfold Ebot.ebotAddEvent
  refine ite (ok _) (bind (peek _ _ _) fun r => bind (peek _ _ _) fun w => bind ?_ fun eb => ?_)
  · refine ite (map ?_) (ok _)
    exact ite (error nofun) (ite (error nofun) (ite (ok _) (ite (error nofun) (ite (ok _) (ok _)))))
  · split
    · exact ok _
    · exact bind (setIf _ _ _ _) fun rd => bind (setIf _ _ _ _) fun wr => ok _

theorem ebotDelEvent (ctl : Bool) (eb : EbotBase) (e : SrvEvent) :
    Proceeds (ebotDelEvent ctl eb e) := by
  unfold Ebot.ebotDelEvent
  refine bind (ite (peek _ _ _) (ok _)) fun w => bind (ite (peek _ _ _) (ok _)) fun r => ?_
  dsimp only
  split
  · exact ok _
  · exact bind (setIf _ _ _ _) fun rd => bind (setIf _ _ _ _) fun wr => ok _

theorem getAdd (E : EventState) (t : Tid) (ctl : Bool) (e : SrvEvent) :
    Proceeds (E.getAdd t ctl e) := by
  refine bind (mpoolGet _) fun o => ?_
  dsimp only
  split
  · exact ok _
  · exact bind (ite (error nofun) (ok _)) fun ev => bind (ebotAddEvent _ _ _ _) fun ret => ok _

theorem put (E : EventState) (p : Nat) : Proceeds (E.put p) :=
  bind (mpoolPut _ _) fun _ => ok _

theorem delPut (E : EventState) (t : Tid) (ctl : Bool) (d : Dir) (fd : Nat) :
    Proceeds (E.delPut t ctl d fd) := by
  refine bind (peek _ _ _) fun o => ?_
  split
  · exact ok _
  · exact bind (ebotDelEvent _ _ _) fun _ => put _ _

end Proceeds

/-- What the system answers where a thread is to go on in any case. -/
def plainEnv : Env := ⟨false, none, false, .wouldBlock⟩

theorem runThread_proceeds
    {cfg : Cfg} {s : Server} {t : Tid}
    (hpc : s.pc t ≠ .idle) :
    Proceeds (runThread cfg s t plainEnv) := by
  unfold runThread
  cases h : s.pc t with
  | boot =>
      refine .bind (.getAdd _ _ _ _) fun o => ?_
      dsimp only
      split
      · cases t <;> exact .error nofun
      · exact .ite (by cases t <;> exact .error nofun) (.ok _)
  | idle => exact absurd h hpc
  | dispatch =>
      dsimp only
      unfold dispatchEvents
      split
      · exact .ok _
      · dsimp only
        split <;> first | exact .ok _ | exact .error nofun
  | accept => exact .ok _
  | handOff fd => exact .ok _
  | announce fd => exact .ok _
  | count => exact .ite (.error nofun) (.ok _)
  | pipeRead i => exact .ok _
  | opening d i fd =>
      refine .bind (.getAdd _ _ _ _) fun o => ?_
      dsimp only
      split
      · exact .ok _
      · exact .ok _
  | undoing d i fd p => exact .bind (.put _ _) fun _ => .ok _
  | recv i fd => exact .ok _
  | closing d i fd => exact .bind (.delPut _ _ _ _ _) fun _ => .ok _
  | pushing fd n d => exact .bind (.pushPack _ _) fun _ => .ite (.ok _) (.ok _)
  | notify u => exact .ok _

theorem factoryExec_proceeds
    {cfg : Cfg} {s : Server} {u : Nat} (stack : Nat → UInt8)
    (hawake : (s.units u).waiting = false) :
    Proceeds (ebSrvFactoryExec cfg s u stack) := by
  unfold ebSrvFactoryExec
  dsimp only
  rw [if_neg (by simp [hawake])]
  refine .bind (.popPack _ _) fun o => .ite ?_ (.ok _)
  exact .bind (.bind (.memcpy _ _ _ _ _) fun _ => .ok _) fun _ => .ok _

/-! ## How far the stopping is -/

/-- The commands that bring a thread to leave its loop. -/
def Stops : Cmd → PoolThread → Prop
  | .clearReactor i, .reactor j => i = j
  | .stopUnit u, .worker v | .wakeUnit u, .worker v => u = v
  | _, _ => False

/-- No such command comes after the join of the thread. -/
def Ordered (cmd later : Cmd) : Prop :=
  ∀ th tid, cmd = .join th tid → ¬ Stops later th

/-- It is about a thread of the pools. -/
def Within (srv : EbSrv) : Cmd → Prop
  | .join th _ => InPool srv th
  | .stopUnit u => InPool srv (.worker u)
  | _ => True

/-- How far the stopping of the threads is: a status that is still set is going to be
cleared, and a worker that has not read its cleared status is woken or going to be. -/
structure Stopping (srv : EbSrv) (c : State) : Prop where
  order : c.todo.Pairwise Ordered
  within : ∀ cmd ∈ c.todo, Within srv cmd
  reactor : ∀ i, i < srv.slave_reactor.reactors.length →
    c.reactorStatus i = 0 ∨ .clearReactor i ∈ c.todo
  unit : ∀ u, u < srv.factory.wp.num.toNat →
    c.unitStatus u = 0 ∨ c.unitStatus u = 1 ∧ .stopUnit u ∈ c.todo
  woken : ∀ u, c.unitStatus u = 0 → .wakeUnit u ∈ c.todo ∨
    ((c.server.units u).waiting = true ∨ c.checked u = true → 0 < (c.server.units u).efd)

section Stopping

variable {cfg : Cfg} {srv : EbSrv} {c c' : State} {a : Act} {rs : List Reactor} {i n : Nat}
variable {s s' : Server} {u : Nat} {sigpipe : Bool}

theorem reactorPoolStop_stops
    {cmd : Cmd} {th : PoolThread}
    (hcmd : cmd ∈ reactorPoolStop i rs)
    (hstops : Stops cmd th) :
    ∃ j, i ≤ j ∧ th = .reactor j := by
  induction rs generalizing i with
  | nil => cases hcmd
  | cons r rs ih =>
      unfold reactorPoolStop at hcmd
      rcases List.mem_append.mp hcmd with hcmd | hcmd
      · simp only [List.mem_cons, List.not_mem_nil, or_false] at hcmd
        rcases hcmd with rfl | rfl | rfl | rfl
        · cases th with
          | reactor j => exact ⟨j, le_of_eq hstops, rfl⟩
          | worker u => cases hstops
        · cases hstops
        · cases hstops
        · cases hstops
      · obtain ⟨j, hj, hth⟩ := ih hcmd
        exact ⟨j, by omega, hth⟩

theorem stopUnits_stops
    {tid : Nat → Option Nat} {cmd : Cmd} {th : PoolThread}
    (hcmd : cmd ∈ stopUnits tid i n)
    (hstops : Stops cmd th) :
    ∃ v, i ≤ v ∧ th = .worker v := by
  induction n generalizing i with
  | zero => cases hcmd
  | succ n ih =>
      unfold stopUnits at hcmd
      cases htid : tid i with
      | none =>
          rw [htid] at hcmd
          cases hcmd
      | some t =>
          rw [htid] at hcmd
          rcases List.mem_cons.mp hcmd with rfl | hcmd
          · cases th with
            | reactor j => cases hstops
            | worker v => exact ⟨v, le_of_eq hstops, rfl⟩
          · rcases List.mem_cons.mp hcmd with rfl | hcmd
            · cases hstops
            · obtain ⟨v, hv, hth⟩ := ih hcmd
              exact ⟨v, by omega, hth⟩

theorem reactorPoolStop_ordered
    (i : Nat) (rs : List Reactor) :
    (reactorPoolStop i rs).Pairwise Ordered := by
  induction rs generalizing i with
  | nil => exact .nil
  | cons r rs ih =>
      unfold reactorPoolStop
      refine List.pairwise_append.mpr ⟨?_, ih (i + 1), fun cmd hcmd later hlater => ?_⟩
      · simp [Ordered, Stops]
      · rintro th tid rfl hstops
        obtain ⟨j, hj, rfl⟩ := reactorPoolStop_stops hlater hstops
        simp only [List.mem_cons, List.not_mem_nil, or_false, reduceCtorEq, false_or,
          Cmd.join.injEq, PoolThread.reactor.injEq] at hcmd
        omega

theorem worker_not_mem_reactorPoolStop
    {tid : Option Nat} :
    .join (.worker u) tid ∉ reactorPoolStop i rs := by
  induction rs generalizing i with
  | nil => exact List.not_mem_nil
  | cons r rs ih =>
      unfold reactorPoolStop
      simpa using ih

theorem stopUnits_ordered
    (tid : Nat → Option Nat) (i n : Nat) :
    (stopUnits tid i n).Pairwise Ordered := by
  induction n generalizing i with
  | zero => exact .nil
  | succ n ih =>
      unfold stopUnits
      cases tid i with
      | none => exact .nil
      | some t =>
          refine .cons (fun later _ th tid he => by cases he) (.cons ?_ (ih (i + 1)))
          intro later hlater th tid he hstops
          cases he
          obtain ⟨v, hv, hth⟩ := stopUnits_stops hlater hstops
          cases hth
          omega

theorem reactorPoolStop_within
    (hlen : i + rs.length ≤ srv.slave_reactor.reactors.length) :
    ∀ cmd ∈ reactorPoolStop i rs, Within srv cmd := by
  induction rs generalizing i with
  | nil => exact fun _ h => absurd h List.not_mem_nil
  | cons r rs ih =>
      rw [List.length_cons] at hlen
      have hi : InPool srv (.reactor i) := by
        change i < srv.slave_reactor.reactors.length
        omega
      unfold reactorPoolStop
      rw [List.forall_mem_append]
      refine ⟨?_, ih (by omega)⟩
      simpa [Within] using hi

theorem stopUnits_within
    {tid : Nat → Option Nat}
    (hlen : i + n ≤ srv.factory.wp.num.toNat) :
    ∀ cmd ∈ stopUnits tid i n, Within srv cmd := by
  induction n generalizing i with
  | zero => exact fun _ h => absurd h List.not_mem_nil
  | succ n ih =>
      have hi : InPool srv (.worker i) := by
        change i < srv.factory.wp.num.toNat
        omega
      unfold stopUnits
      cases tid i with
      | none => exact fun _ h => absurd h List.not_mem_nil
      | some t =>
          rw [List.forall_mem_cons, List.forall_mem_cons]
          exact ⟨hi, hi, ih (by omega)⟩

/-- What comes after the joins neither stops nor joins a thread. -/
theorem frees_giveBack
    (srv : EbSrv) :
    ∀ cmd ∈ frees srv, (∀ th, ¬ Stops cmd th) ∧ (∀ th tid, cmd ≠ .join th tid) ∧
      Within srv cmd := by
  have hclose : ∀ fd, (∀ th, ¬ Stops (.close fd) th) ∧
      (∀ th tid, Cmd.close fd ≠ .join th tid) ∧ Within srv (.close fd) :=
    fun fd => ⟨fun _ h => h, by simp, trivial⟩
  have hfree : ∀ p, (∀ th, ¬ Stops (.free p) th) ∧
      (∀ th tid, Cmd.free p ≠ .join th tid) ∧ Within srv (.free p) :=
    fun p => ⟨fun _ h => h, by simp, trivial⟩
  have hbase : ∀ b : EbotBlocks, ∀ cmd ∈ Lifecycle.ebotDestroy b, (∀ th, ¬ Stops cmd th) ∧
      (∀ th tid, cmd ≠ .join th tid) ∧ Within srv cmd := by
    intro b
    simp [Lifecycle.ebotDestroy, hclose, hfree]
  intro cmd hcmd
  unfold frees reactorPoolDestroy Lifecycle.wpoolDestory destoryUnits mpoolDestroy at hcmd
  simp only [List.mem_append, List.mem_flatMap, List.mem_cons, List.not_mem_nil, or_false]
    at hcmd
  rcases hcmd with
    (((((⟨r, -, hcmd⟩ | rfl) | (⟨u, -, rfl | hcmd⟩ | rfl)) | rfl) | rfl) | hcmd) | rfl
  · exact hbase _ cmd hcmd
  · exact hfree _
  · exact ⟨fun _ h => h, by simp, trivial⟩
  · split at hcmd
    · rw [List.mem_singleton.mp hcmd]
      exact hclose _
    · cases hcmd
  · exact hfree _
  · exact hfree _
  · exact hclose _
  · exact hbase _ cmd hcmd
  · exact hfree _

theorem stopping_start
    {env : SrvEnv} {threads : StartEnv} {before held : Holdings}
    (h : Started env threads before srv held)
    (hall : Complete threads srv) :
    Stopping srv (start cfg srv held sigpipe) := by
  have htodo : (start cfg srv held sigpipe).todo = stops srv ++ frees srv := rfl
  have hstops := mem_stops h hall
  have hgive := frees_giveBack srv
  have hwithin : ∀ cmd ∈ stops srv, Within srv cmd := by
    unfold stops
    rw [h.wpoolStop_eq, List.forall_mem_append, List.forall_mem_append, List.forall_mem_singleton]
    exact ⟨trivial, reactorPoolStop_within (by omega), stopUnits_within (by omega)⟩
  refine ⟨?_, ?_, fun i hi => .inr ?_, fun u hu => .inr ⟨rfl, ?_⟩, fun u hu => ?_⟩
  · rw [htodo]
    refine List.pairwise_append.mpr ⟨?_, ?_, fun cmd _ later hlater th _ _ => ?_⟩
    · unfold stops
      rw [h.wpoolStop_eq, List.singleton_append]
      refine .cons (fun later _ th tid he => by cases he) (List.pairwise_append.mpr
        ⟨reactorPoolStop_ordered _ _, stopUnits_ordered _ _ _, ?_⟩)
      rintro _ hcmd later hlater th tid rfl hstop
      obtain ⟨v, -, rfl⟩ := stopUnits_stops hlater hstop
      exact worker_not_mem_reactorPoolStop hcmd
    · exact List.pairwise_of_forall_mem_list fun cmd hcmd later _ th tid he =>
        absurd he ((hgive cmd hcmd).2.1 th tid)
    · exact (hgive later hlater).1 th
  · rw [htodo, List.forall_mem_append]
    exact ⟨hwithin, fun cmd hcmd => (hgive cmd hcmd).2.2⟩
  · rw [htodo]
    exact List.mem_append_left _ (hstops.1 i hi)
  · rw [htodo]
    exact List.mem_append_left _ (hstops.2.1 u hu)
  · cases hu

/-- A run of its handler: the worker wakes up, or leaves its `efd` alone. -/
theorem work_cases
    {stack : Nat → UInt8}
    (h : Ebot.step cfg s (.work u stack) = .ok s') :
    (s.units u).waiting = true ∧ (s'.units u).waiting = false ∨
      (s.units u).waiting = false ∧ (s'.units u).efd = (s.units u).efd := by
  obtain ⟨_, -, h⟩ := bind_eq_ok.mp h
  unfold ebSrvFactoryExec at h
  dsimp only at h
  split at h
  · rename_i hwaiting
    obtain ⟨_, -, h⟩ := bind_eq_ok.mp h
    cases h
    exact .inl ⟨hwaiting, by simp⟩
  · rename_i hawake
    refine .inr ⟨Bool.eq_false_iff.mpr hawake, ?_⟩
    obtain ⟨⟨ret, rq, d⟩, -, h⟩ := bind_eq_ok.mp h
    dsimp only at h
    split at h
    · obtain ⟨stream, -, h⟩ := bind_eq_ok.mp h
      cases h
      simp
    · cases h
      simp

/-- A worker that has still to sleep or to run its handler had to before, and is woken as
it was. -/
theorem served_unit
    {a : Action}
    (hserves : c.serves cfg srv a = true)
    (hstep : Ebot.step cfg c.server a = .ok s')
    (hpending : (s'.units u).waiting = true ∨ (c.served s' a).checked u = true) :
    ((c.server.units u).waiting = true ∨ c.checked u = true) ∧
      (c.server.units u).efd ≤ (s'.units u).efd := by
  have hother : a.workOf u = false → (c.served s' a).checked u = c.checked u →
      ((c.server.units u).waiting = true ∨ c.checked u = true) ∧
        (c.server.units u).efd ≤ (s'.units u).efd := by
    intro ha hchecked
    obtain ⟨hwaiting, hefd, -⟩ := (step_move hstep).unit_other ha
    rw [hwaiting, hchecked] at hpending
    exact ⟨hpending, hefd⟩
  cases a with
  | arrive => exact hother rfl rfl
  | wait t reports => exact hother rfl rfl
  | run t env => exact hother rfl rfl
  | work v stack =>
      by_cases hvu : v = u
      · subst hvu
        have hchecked : (c.served s' (.work v stack)).checked v = false := update_self _ _ _
        rw [hchecked] at hpending
        have hawake : (c.server.units v).waiting = true ∨ c.checked v = true := by
          simp only [State.serves, Bool.and_eq_true, Bool.or_eq_true] at hserves
          exact hserves.2
        rcases work_cases hstep with ⟨-, hwoken⟩ | ⟨-, hefd⟩
        · rw [hwoken] at hpending
          simp at hpending
        · exact ⟨hawake, hefd.ge⟩
      · exact hother (beq_eq_false_iff_ne.mpr hvu) (update_of_ne (Ne.symm hvu) _ _)

theorem Stopping.destroyed
    {cmd : Cmd} {rest : List Cmd} {held : Holdings}
    (h : Stopping srv c)
    (htodo : c.todo = cmd :: rest) :
    Stopping srv { c.perform cfg srv rest cmd with held } := by
  have horder := h.order
  have hwithin := h.within
  rw [htodo] at horder hwithin
  have hrest := (List.pairwise_cons.mp horder).2
  obtain ⟨hcmd, hwithin'⟩ := List.forall_mem_cons.mp hwithin
  have hmem : ∀ {x}, x ≠ cmd → x ∈ c.todo → x ∈ rest := by
    intro x hne hx
    rw [htodo] at hx
    exact List.mem_of_ne_of_mem hne hx
  have hreactor := h.reactor
  have hunit := h.unit
  have hwoken := h.woken
  have hclear : (∀ i, cmd ≠ .clearReactor i) → ∀ i, i < srv.slave_reactor.reactors.length →
      c.reactorStatus i = 0 ∨ .clearReactor i ∈ rest :=
    fun hne i hi => (h.reactor i hi).imp_right (hmem (hne i).symm)
  have hstop : (∀ u, cmd ≠ .stopUnit u) → ∀ u, u < srv.factory.wp.num.toNat →
      c.unitStatus u = 0 ∨ c.unitStatus u = 1 ∧ .stopUnit u ∈ rest :=
    fun hne u hu => (h.unit u hu).imp_right fun hx => ⟨hx.1, hmem (hne u).symm hx.2⟩
  have hwake : (∀ u, cmd ≠ .wakeUnit u) → ∀ u, c.unitStatus u = 0 → .wakeUnit u ∈ rest ∨
      ((c.server.units u).waiting = true ∨ c.checked u = true → 0 < (c.server.units u).efd) :=
    fun hne u hu => (h.woken u hu).imp_left (hmem (hne u).symm)
  cases cmd with
  | clearReactor i =>
      refine ⟨hrest, hwithin', fun j hj => ?_, hstop (by simp), hwake (by simp)⟩
      change update c.reactorStatus i 0 j = 0 ∨ _
      by_cases hji : j = i
      · rw [hji, update_self]
        exact .inl rfl
      · rw [update_of_ne hji]
        exact (h.reactor j hj).imp_right (hmem (by simpa using hji))
  | stopUnit u =>
      by_cases hu : c.unitStatus u = 0
      · simp only [State.perform, if_pos hu]
        refine ⟨hrest, hwithin', hclear (by simp), fun v hv => ?_, hwake (by simp)⟩
        by_cases hvu : v = u
        · exact .inl (hvu ▸ hu)
        · exact (h.unit v hv).imp_right fun hx => ⟨hx.1, hmem (by simpa using hvu) hx.2⟩
      · simp only [State.perform, if_neg hu]
        refine ⟨?_, ?_, fun i hi => ?_, fun v hv => ?_, fun v hv => ?_⟩
        · exact .cons (fun later _ th tid he => by cases he) horder
        · exact List.forall_mem_cons.mpr ⟨trivial, hwithin⟩
        · exact (hclear (by simp) i hi).imp_right fun hx =>
            List.mem_cons_of_mem _ (List.mem_cons_of_mem _ hx)
        · change update c.unitStatus u _ v = 0 ∨ update c.unitStatus u _ v = 1 ∧ _
          by_cases hvu : v = u
          · subst hvu
            rw [update_self]
            obtain ⟨hone, -⟩ := (h.unit v hv).resolve_left hu
            exact .inl (by omega)
          · rw [update_of_ne hvu]
            exact (h.unit v hv).imp_right fun hx =>
              ⟨hx.1, List.mem_cons_of_mem _ (htodo ▸ hx.2)⟩
        · change update c.unitStatus u _ v = 0 at hv
          by_cases hvu : v = u
          · rw [hvu]
            exact .inl List.mem_cons_self
          · rw [update_of_ne hvu] at hv
            exact (h.woken v hv).imp_left fun hx => List.mem_cons_of_mem _ (htodo ▸ hx)
  | wakeUnit u =>
      refine ⟨hrest, hwithin', hclear (by simp), hstop (by simp), fun v hv => ?_⟩
      by_cases hvu : v = u
      · right
        intro _
        simp [State.perform, hvu]
      · simp only [State.perform, Server.setUnit_units, update_of_ne hvu]
        exact (h.woken v hv).imp_left (hmem (by simpa using hvu))
  | clearStatus => exact ⟨hrest, hwithin', hclear (by simp), hstop (by simp), hwake (by simp)⟩
  | close fd => exact ⟨hrest, hwithin', hclear (by simp), hstop (by simp), hwake (by simp)⟩
  | join th tid => exact ⟨hrest, hwithin', hclear (by simp), hstop (by simp), hwake (by simp)⟩
  | free p => exact ⟨hrest, hwithin', hclear (by simp), hstop (by simp), hwake (by simp)⟩
  | ringqDestroy rq =>
      exact ⟨hrest, hwithin', hclear (by simp), hstop (by simp), hwake (by simp)⟩

/-- One step. -/
theorem Stopping.step
    (h : Stopping srv c)
    (hturn : Turn cfg srv c a c') :
    Stopping srv c' := by
  cases hturn with
  | @served a server hserves hstep =>
      have hserver : (c.served server a).server = server := by
        cases a with
        | _ => rfl
      obtain ⟨htodo, hreactor, hunit⟩ : (c.served server a).todo = c.todo ∧
          (c.served server a).reactorStatus = c.reactorStatus ∧
            (c.served server a).unitStatus = c.unitStatus := by
        cases a with
        | _ => exact ⟨rfl, rfl, rfl⟩
      refine ⟨?_, ?_, ?_, ?_, fun u hu => ?_⟩
      · rw [htodo]
        exact h.order
      · rw [htodo]
        exact h.within
      · rw [htodo, hreactor]
        exact h.reactor
      · rw [htodo, hunit]
        exact h.unit
      · rw [hunit] at hu
        rw [htodo, hserver]
        refine (h.woken u hu).imp_right fun hefd hpending => ?_
        obtain ⟨hbefore, hle⟩ := served_unit hserves hstep hpending
        exact (hefd hbefore).trans_le hle
  | ended => exact ⟨h.order, h.within, h.reactor, h.unit, h.woken⟩
  | entered => exact ⟨h.order, h.within, h.reactor, h.unit, h.woken⟩
  | exited => exact ⟨h.order, h.within, h.reactor, h.unit, h.woken⟩
  | @checked u hu hwaiting hchecked hexited hstatus =>
      refine ⟨h.order, h.within, h.reactor, h.unit, fun v hv => ?_⟩
      have hvu : v ≠ u := fun he => hstatus (he ▸ hv)
      dsimp only
      rw [update_of_ne hvu]
      exact h.woken v hv
  | @outside a server _ _ _ hunits =>
      refine ⟨h.order, h.within, h.reactor, h.unit, fun u hu => ?_⟩
      dsimp only
      rw [hunits]
      exact h.woken u hu
  | @destroyed cmd rest held htodo hreturns hexec => exact h.destroyed htodo

end Stopping

/-- The thread `eb_srv_destroy` waits for, as a caller of callbacks. -/
def caller : PoolThread → Caller
  | .reactor i => .thread (.reactor i)
  | .worker u => .worker u

/-- It is a step of the thread. -/
def Act.isOf (th : PoolThread) (a : Act) : Bool := decide (a.actor = some (caller th))

/-- It is a step of `eb_srv_destroy`. -/
def Act.isDestroy : Act → Bool
  | .destroy => true
  | _ => false

/-- The steps of `eb_srv_destroy` for a command. -/
def commandSteps (unitStatus : Nat → Int) : Cmd → Nat
  | .stopUnit u => 1 + 2 * (unitStatus u).toNat
  | _ => 1

namespace State

/-- The status of a thread is cleared. -/
def Told (c : State) : PoolThread → Prop
  | .reactor i => c.reactorStatus i = 0
  | .worker u => c.unitStatus u = 0

/-- The thread is in a call that waits: `epoll_wait`, or the `read` of its `efd`. -/
def inCall (c : State) : PoolThread → Bool
  | .reactor i => c.entered (.reactor i)
  | .worker u => (c.server.units u).waiting

/-- The steps of a thread until it has left its loop, its status being cleared, where
`epoll_wait` reports at most `n` descriptors. -/
def stepsToEnd (n : Nat) (c : State) : PoolThread → Nat
  | .reactor i =>
      if c.ended (.reactor i) then 0
      else if c.entered (.reactor i) then 12 * n + 3
      else stepsLeft (.reactor i) c.server + 1
  | .worker u =>
      if c.exited u then 0
      else if (c.server.units u).waiting then 2
      else if c.checked u then 3
      else 1

/-- The steps `eb_srv_destroy` has before it. -/
def commandsLeft (c : State) : Nat := (c.todo.map (commandSteps c.unitStatus)).sum

end State

section Ends

variable {cfg : Cfg} {srv : EbSrv} {c c' : State} {a : Act} {th : PoolThread} {n : Nat}

/-- Where the threads are in their loops. -/
structure Settled (c : State) : Prop where
  rested : Rested c.server
  inLoop : ∀ t, c.entered t = true → c.server.pc t = .idle

theorem Settled.not_entered
    {env : Env} {server : Server} {t : Tid}
    (h : Settled c)
    (hstep : Ebot.step cfg c.server (.run t env) = .ok server) :
    c.entered t = false := by
  by_contra hentered
  have hpc := h.inLoop t (by simpa using hentered)
  have hqueue := h.rested t (by rw [hpc]; rfl)
  have hless := (step_move hstep).stepsLeft_run
  unfold stepsLeft at hless
  rw [hpc, hqueue] at hless
  simp at hless

/-- One step. -/
theorem Settled.step
    (h : Settled c)
    (hturn : Turn cfg srv c a c') :
    Settled c' := by
  cases hturn with
  | @served a server hserves hstep =>
      have hmove := step_move hstep
      have hserver : (c.served server a).server = server := by
        cases a with
        | _ => rfl
      refine ⟨?_, fun t hentered => ?_⟩
      · rw [hserver]
        exact hmove.rested h.rested
      · -- a thread that has just moved is not in `epoll_wait`
        obtain ⟨hother, hentered'⟩ : a.thread ≠ some t ∧ c.entered t = true := by
          cases a with
          | arrive => exact ⟨by simp [Action.thread], hentered⟩
          | work u stack => exact ⟨by simp [Action.thread], hentered⟩
          | wait t' reports =>
              have ht : t ≠ t' := by
                rintro rfl
                have hleft : (c.served server (.wait t reports)).entered t = false :=
                  update_self _ _ _
                cases hleft.symm.trans hentered
              refine ⟨fun he => ht (Option.some.inj he).symm, ?_⟩
              exact (update_of_ne ht _ _).symm.trans hentered
          | run t' env =>
              refine ⟨fun he => ?_, hentered⟩
              cases he
              cases (h.not_entered hstep).symm.trans hentered
        rw [hserver, hmove.pc_other hother]
        exact h.inLoop t hentered'
  | ended => exact ⟨h.rested, h.inLoop⟩
  | @entered t _ hpc =>
      refine ⟨h.rested, fun t' hentered => ?_⟩
      by_cases ht : t' = t
      · exact ht ▸ hpc
      · exact h.inLoop t' ((update_of_ne ht _ _).symm.trans hentered)
  | exited => exact ⟨h.rested, h.inLoop⟩
  | checked => exact ⟨h.rested, h.inLoop⟩
  | @outside a server _ hpc hevents =>
      refine ⟨fun t hwaits => ?_, fun t hin => ?_⟩
      · dsimp only at hwaits ⊢
        rw [hpc] at hwaits
        rw [hevents]
        exact h.rested t hwaits
      · exact (congrFun hpc t).trans (h.inLoop t hin)
  | @destroyed cmd rest held =>
      obtain ⟨-, hentered, -, -, hpc, hready⟩ := c.perform_frame cfg srv rest cmd
      refine ⟨fun t hwaits => ?_, fun t hin => ?_⟩
      · have hpc' : (c.perform cfg srv rest cmd).server.pc t = c.server.pc t := congrFun hpc t
        exact (congrFun hready t).trans (h.rested t (hpc' ▸ hwaits))
      · have hin' : c.entered t = true := (congrFun hentered t).symm.trans hin
        exact (congrFun hpc t).trans (h.inLoop t hin')

/-- A status that is cleared stays so. -/
theorem Turn.told
    (hturn : Turn cfg srv c a c')
    (h : c.Told th) :
    c'.Told th := by
  cases hturn with
  | @served a =>
      cases a with
      | _ => exact h
  | ended => exact h
  | entered => exact h
  | exited => exact h
  | checked => exact h
  | outside => exact h
  | @destroyed cmd rest held =>
      cases th with
      | reactor i =>
          cases cmd with
          | clearReactor j =>
              change update c.reactorStatus j 0 i = 0
              by_cases hij : i = j
              · rw [hij, update_self]
              · rwa [update_of_ne hij]
          | stopUnit u =>
              by_cases hu : c.unitStatus u = 0
              · simp only [State.perform, if_pos hu]
                exact h
              · simp only [State.perform, if_neg hu]
                exact h
          | _ => exact h
      | worker v =>
          cases cmd with
          | stopUnit u =>
              by_cases hu : c.unitStatus u = 0
              · simp only [State.perform, if_pos hu]
                exact h
              · have hvu : v ≠ u := fun he => hu (he ▸ h)
                simp only [State.perform, if_neg hu]
                exact (update_of_ne hvu _ _).trans h
          | _ => exact h

/-- A step of the thread brings it closer to its end. -/
theorem Settled.stepsToEnd_own
    (h : Settled c)
    (htold : c.Told th)
    (hturn : Turn cfg srv c a c')
    (ha : a.actor = some (caller th))
    (hreports : ∀ t reports, a = .serve (.wait t reports) → reports.length ≤ n) :
    c'.stepsToEnd n th < c.stepsToEnd n th := by
  cases th with
  | reactor i =>
      cases hturn with
      | @served a server hserves hstep =>
          cases a with
          | arrive => cases ha
          | work u stack => cases ha
          | wait t reports =>
              cases ha
              simp only [State.serves, Bool.and_eq_true, Bool.not_eq_true'] at hserves
              have hleft := stepsLeft_wait h.rested hstep
              have hlen := hreports _ _ rfl
              simp only [State.stepsToEnd, State.served, hserves.1, hserves.2, update_self]
              simp only [Bool.false_eq_true, if_false, if_true]
              omega
          | run t env =>
              cases ha
              simp only [State.serves, Bool.and_eq_true, Bool.not_eq_true'] at hserves
              have hentered := h.not_entered hstep
              have hless := (step_move hstep).stepsLeft_run
              simp only [State.stepsToEnd, State.served, hserves.1, hentered]
              simp only [Bool.false_eq_true, if_false]
              omega
      | @ended t hruns hpc hentered hended =>
          cases ha
          simp [State.stepsToEnd, hentered, hended]
      | @entered t hruns hpc hentered hended hstatus =>
          cases ha
          exact absurd htold hstatus
      | exited => cases ha
      | checked => cases ha
      | outside hout => cases (Act.actor_outside hout).symm.trans ha
      | destroyed => cases ha
  | worker u =>
      cases hturn with
      | @served a server hserves hstep =>
          cases a with
          | arrive => cases ha
          | wait t reports => cases ha
          | run t env => cases ha
          | work v stack =>
              cases ha
              simp only [State.serves, Bool.and_eq_true, Bool.not_eq_true', Bool.or_eq_true]
                at hserves
              have hchecked : update c.checked u false u = false := update_self _ _ _
              rcases work_cases hstep with ⟨hwaiting, hwoken⟩ | ⟨hwaiting, -⟩
              · simp [State.stepsToEnd, State.served, hserves.1, hwaiting, hwoken]
              · have hin : c.checked u = true := by simpa [hwaiting] using hserves.2
                simp only [State.stepsToEnd, State.served, hserves.1, hwaiting, hin, hchecked]
                simp only [Bool.false_eq_true, if_false, if_true]
                split <;> omega
      | ended => cases ha
      | entered => cases ha
      | @exited v hv hwaiting hchecked hexited =>
          cases ha
          simp [State.stepsToEnd, hwaiting, hchecked, hexited]
      | @checked v hv hwaiting hchecked hexited hstatus =>
          cases ha
          exact absurd htold hstatus
      | outside hout => cases (Act.actor_outside hout).symm.trans ha
      | destroyed => cases ha

theorem State.perform_waiting
    (cfg : Cfg) (srv : EbSrv) (c : State) (rest : List Cmd) (cmd : Cmd) (u : Nat) :
    ((c.perform cfg srv rest cmd).server.units u).waiting = (c.server.units u).waiting := by
  cases cmd with
  | stopUnit v =>
      by_cases hv : c.unitStatus v = 0
      · simp [State.perform, hv]
      · simp [State.perform, hv]
  | wakeUnit v =>
      by_cases huv : u = v
      · simp [State.perform, huv]
      · simp [State.perform, update_of_ne huv]
  | _ => rfl

/-- Steps of the others leave it where it is. -/
theorem stepsToEnd_other
    (hturn : Turn cfg srv c a c')
    (ha : a.actor ≠ some (caller th)) :
    c'.stepsToEnd n th = c.stepsToEnd n th := by
  cases th with
  | reactor i =>
      -- the flags and the queue of the reactor are as they were
      have hsame : c'.ended (.reactor i) = c.ended (.reactor i) →
          c'.entered (.reactor i) = c.entered (.reactor i) →
          stepsLeft (.reactor i) c'.server = stepsLeft (.reactor i) c.server →
          c'.stepsToEnd n (.reactor i) = c.stepsToEnd n (.reactor i) := by
        intro hended hentered hleft
        simp only [State.stepsToEnd, hended, hentered, hleft]
      have hne : ∀ {t}, some (Caller.thread t) ≠ some (caller (.reactor i)) → Tid.reactor i ≠ t :=
        fun h he => h (he ▸ rfl)
      cases hturn with
      | @served a server hserves hstep =>
          have hmove := step_move hstep
          cases a with
          | arrive => exact hsame rfl rfl (hmove.stepsLeft_other (by simp [Action.thread]))
          | work u stack => exact hsame rfl rfl (hmove.stepsLeft_other (by simp [Action.thread]))
          | wait t reports =>
              have ht := hne ha
              refine hsame rfl (update_of_ne ht _ _) (hmove.stepsLeft_other fun he => ht ?_)
              exact (Option.some.inj he).symm
          | run t env =>
              refine hsame rfl rfl (hmove.stepsLeft_other fun he => hne ha ?_)
              exact (Option.some.inj he).symm
      | ended => exact hsame (update_of_ne (hne ha) _ _) rfl rfl
      | entered => exact hsame rfl (update_of_ne (hne ha) _ _) rfl
      | exited => exact hsame rfl rfl rfl
      | checked => exact hsame rfl rfl rfl
      | @outside a server _ hpc hevents =>
          refine hsame rfl rfl ?_
          unfold stepsLeft
          dsimp only
          rw [hpc, hevents]
      | @destroyed cmd rest held =>
          obtain ⟨hended, hentered, -, -, hpc, hready⟩ := c.perform_frame cfg srv rest cmd
          refine hsame (congrFun hended _) (congrFun hentered _) ?_
          unfold stepsLeft
          dsimp only
          rw [hpc, hready]
  | worker u =>
      have hsame : c'.exited u = c.exited u →
          (c'.server.units u).waiting = (c.server.units u).waiting →
          c'.checked u = c.checked u →
          c'.stepsToEnd n (.worker u) = c.stepsToEnd n (.worker u) := by
        intro hexited hwaiting hchecked
        simp only [State.stepsToEnd, hexited, hwaiting, hchecked]
      have hne : ∀ {v}, some (Caller.worker v) ≠ some (caller (.worker u)) → u ≠ v :=
        fun h he => h (he ▸ rfl)
      cases hturn with
      | @served a server hserves hstep =>
          have hmove := step_move hstep
          cases a with
          | arrive => exact hsame rfl (hmove.unit_other rfl).1 rfl
          | wait t reports => exact hsame rfl (hmove.unit_other rfl).1 rfl
          | run t env => exact hsame rfl (hmove.unit_other rfl).1 rfl
          | work v stack =>
              have hv := hne ha
              have hunit := hmove.unit_other (u := u) (beq_eq_false_iff_ne.mpr hv.symm)
              exact hsame rfl hunit.1 (update_of_ne hv _ _)
      | ended => exact hsame rfl rfl rfl
      | entered => exact hsame rfl rfl rfl
      | exited => exact hsame (update_of_ne (hne ha) _ _) rfl rfl
      | checked => exact hsame rfl rfl (update_of_ne (hne ha) _ _)
      | @outside a server _ _ _ hunits =>
          refine hsame rfl ?_ rfl
          dsimp only
          rw [hunits]
      | @destroyed cmd rest held =>
          obtain ⟨-, -, hexited, hchecked, -, -⟩ := c.perform_frame cfg srv rest cmd
          exact hsame (congrFun hexited u) (c.perform_waiting cfg srv rest cmd u)
            (congrFun hchecked u)

/-- How many steps a thread takes that is to end. -/
theorem Settled.steps_bounded
    {as : List Act}
    (h : Settled c)
    (htold : c.Told th)
    (hrun : run (State.step cfg srv) c as = .ok c')
    (hreports : ∀ t reports, .serve (.wait t reports) ∈ as → reports.length ≤ n) :
    as.countP (Act.isOf th) + c'.stepsToEnd n th ≤ c.stepsToEnd n th := by
  refine countP_le_of_rank_of (J := fun c => Settled c ∧ c.Told th) (Act.isOf th)
    (State.stepsToEnd n · th) ⟨h, htold⟩ ?_ ?_ ?_ hrun
  · rintro s a s' ⟨hs, ht⟩ hstep
    have hturn := step_turn hstep
    exact ⟨hs.step hturn, hturn.told ht⟩
  · rintro s a s' hmem ⟨hs, ht⟩ hown hstep
    refine hs.stepsToEnd_own ht (step_turn hstep) (of_decide_eq_true hown) ?_
    rintro t reports rfl
    exact hreports t reports hmem
  · intro s a s' _ _ hown hstep
    exact (stepsToEnd_other (step_turn hstep) (of_decide_eq_false hown)).le

theorem State.stepsToEnd_eq_zero :
    c.stepsToEnd n th = 0 ↔ c.gone th = true := by
  cases th with
  | reactor i =>
      simp only [State.stepsToEnd, State.gone]
      cases c.ended (.reactor i) with
      | true => simp
      | false => cases c.entered (.reactor i) <;> simp
  | worker u =>
      simp only [State.stepsToEnd, State.gone]
      cases c.exited u with
      | true => simp
      | false => cases (c.server.units u).waiting <;> cases c.checked u <;> simp

/-- Its own steps bring `eb_srv_destroy` on, those of the others leave it where it is. -/
theorem Stopping.commandsLeft
    (h : Stopping srv c)
    (hturn : Turn cfg srv c a c') :
    c'.commandsLeft + (if a.isDestroy then 1 else 0) ≤ c.commandsLeft := by
  have hsame : c'.todo = c.todo → c'.unitStatus = c.unitStatus →
      c'.commandsLeft + 0 ≤ c.commandsLeft := by
    intro htodo hstatus
    unfold State.commandsLeft
    rw [htodo, hstatus]
    exact Nat.le.refl
  cases hturn with
  | @served a =>
      cases a with
      | _ => exact hsame rfl rfl
  | ended => exact hsame rfl rfl
  | entered => exact hsame rfl rfl
  | exited => exact hsame rfl rfl
  | checked => exact hsame rfl rfl
  | @outside a _ hout =>
      cases a with
      | destroy => cases hout
      | _ => exact hsame rfl rfl
  | @destroyed cmd rest held htodo =>
      have hnext : ∀ {c₁ : State}, c₁.todo = rest → c₁.unitStatus = c.unitStatus →
          1 ≤ commandSteps c.unitStatus cmd → c₁.commandsLeft + 1 ≤ c.commandsLeft := by
        intro c₁ htodo₁ hstatus hone
        unfold State.commandsLeft
        rw [htodo₁, hstatus, htodo, List.map_cons, List.sum_cons]
        omega
      cases cmd with
      | stopUnit u =>
          by_cases hu : c.unitStatus u = 0
          · simp only [State.perform, if_pos hu]
            exact hnext rfl rfl (by simp [commandSteps])
          · simp only [State.perform, if_neg hu]
            have hin : u < srv.factory.wp.num.toNat :=
              h.within (.stopUnit u) (htodo ▸ List.mem_cons_self)
            obtain ⟨hone, -⟩ := (h.unit u hin).resolve_left hu
            have hle :
                (rest.map (commandSteps (update c.unitStatus u (c.unitStatus u - 1)))).sum ≤
                  (rest.map (commandSteps c.unitStatus)).sum := by
              refine List.sum_le_sum fun cmd _ => ?_
              cases cmd with
              | stopUnit v =>
                  simp only [commandSteps]
                  by_cases hvu : v = u
                  · rw [hvu, update_self]
                    omega
                  · rw [update_of_ne hvu]
              | _ => exact le_rfl
            simp only [State.commandsLeft, htodo, List.map_cons, List.sum_cons, commandSteps,
              update_self, hone, Act.isDestroy, if_true]
            rw [hone] at hle
            simp only [Int.reduceSub, Int.toNat_zero, Int.toNat_one] at hle ⊢
            omega
      | _ => exact hnext rfl rfl Nat.le.refl

/-- `epoll_wait` may return with nothing. -/
theorem wait_nothing
    {s : Server} {t : Tid}
    (hruns : cfg.Runs t)
    (hpc : s.pc t = .idle) :
    ∃ s', Ebot.step cfg s (.wait t []) = .ok s' := by
  have hruns' : require (cfg.Runs t) = .ok () := require_eq_ok.mpr hruns
  have hpc' : require (s.pc t = .idle) = .ok () := require_eq_ok.mpr hpc
  have hempty : ∀ {α : Type} {f : α → Bool}, require (([] : List α).all f) = .ok () :=
    require_eq_ok.mpr rfl
  have hlen : require (([] : List Report).length ≤ (s.events.base t).epsz) = .ok () :=
    require_eq_ok.mpr (Nat.zero_le _)
  have hnodup : require (([] : List Report).map Report.fd).Nodup = .ok () :=
    require_eq_ok.mpr List.nodup_nil
  simp only [Ebot.step, ebotLoop, hruns', hpc', hlen, hnodup, hempty, EventState.collect,
    ebotLoopCollect, ok_bind]
  exact ⟨_, rfl⟩

/-- A worker that is woken leaves its `read`. -/
theorem work_woken
    {s : Server} {u : Nat} (stack : Nat → UInt8)
    (hu : u < cfg.num)
    (hwaiting : (s.units u).waiting = true)
    (hefd : 0 < (s.units u).efd) :
    ∃ s', Ebot.step cfg s (.work u stack) = .ok s' := by
  have hu' : require (u < cfg.num) = .ok () := require_eq_ok.mpr hu
  have hefd' : require (0 < (s.units u).efd) = .ok () := require_eq_ok.mpr hefd
  simp only [Ebot.step, ebSrvFactoryExec, hu', hwaiting, hefd', ok_bind, if_true]
  exact ⟨_, rfl⟩

/-- A step of the server whose memory is there can be made. -/
theorem State.step_serve
    {a : Action} {server : Server}
    (hserves : c.serves cfg srv a = true)
    (huses : ∀ r ∈ c.uses cfg srv (.serve a), r ∈ c.held)
    (hwhole : c.breaksPipe cfg srv a = false)
    (hstep : Ebot.step cfg c.server a = .ok server) :
    c.step cfg srv (.serve a) = .ok (c.served server a) := by
  have hreq : require (c.serves cfg srv a = true) = .ok () := require_eq_ok.mpr hserves
  have htouch : c.touch (c.uses cfg srv (.serve a)) = .ok () := State.touch_eq_ok.mpr huses
  simp only [State.step, hreq, htouch, hwhole, hstep, ok_bind, Bool.false_eq_true, if_false]

/-- A step of the server whose memory is there, and that need not wait, does not. -/
theorem State.serve_proceeds
    {a : Action}
    (hserves : c.serves cfg srv a = true)
    (huses : ∀ r ∈ c.uses cfg srv (.serve a), r ∈ c.held)
    (hstep : Proceeds (Ebot.step cfg c.server a)) :
    Proceeds (c.step cfg srv (.serve a)) := by
  have hreq : require (c.serves cfg srv a = true) = .ok () := require_eq_ok.mpr hserves
  have htouch : c.touch (c.uses cfg srv (.serve a)) = .ok () := State.touch_eq_ok.mpr huses
  refine .bind (.of_ok hreq) fun _ => .bind (.of_ok htouch) fun _ => ?_
  exact .ite (.error nofun) (.bind hstep fun _ => .ok _)

/-- The thread need not wait: it has a next step, be it that the process ends in it. -/
def State.Ready (cfg : Cfg) (srv : EbSrv) (c : State) (th : PoolThread) : Prop :=
  ∃ a, a.isOf th = true ∧ Proceeds (c.step cfg srv a)

/-- In a call that waits, a thread can return at once; a worker if it is woken. -/
theorem enabled_of_inCall
    (hin : InPool srv th)
    (hruns : ∀ i, i < srv.slave_reactor.reactors.length → i < cfg.rsz)
    (hnum : ∀ u, u < srv.factory.wp.num.toNat → u < cfg.num)
    (hsettled : Settled c)
    (hgone : c.gone th = false)
    (hcall : c.inCall th = true)
    (huses : ∀ a, ∀ r ∈ c.uses cfg srv a, r ∈ c.held)
    (hwoken : ∀ u, th = .worker u → (c.server.units u).waiting = true →
      0 < (c.server.units u).efd) :
    Enabled (State.step cfg srv) (fun a => a.isOf th = true) c := by
  cases th with
  | reactor i =>
      have hrun : cfg.Runs (.reactor i) := hruns i hin
      obtain ⟨server, hstep⟩ := wait_nothing hrun (hsettled.inLoop _ hcall)
      refine ⟨.serve (.wait (.reactor i) []), decide_eq_true rfl, _,
        State.step_serve ?_ (huses _) rfl hstep⟩
      have hentered : c.entered (.reactor i) = true := hcall
      have hended : c.ended (.reactor i) = false := hgone
      simp [State.serves, hentered, hended]
  | worker u =>
      obtain ⟨server, hstep⟩ := work_woken (fun _ => 0) (hnum u hin) hcall (hwoken u rfl hcall)
      refine ⟨.serve (.work u fun _ => 0), decide_eq_true rfl, _,
        State.step_serve ?_ (huses _) rfl hstep⟩
      have hwaiting : (c.server.units u).waiting = true := hcall
      have hexited : c.exited u = false := hgone
      simp [State.serves, hwaiting, hexited]

/-- Elsewhere it need not wait. -/
theorem ready_of_not_inCall
    (hin : InPool srv th)
    (hruns : ∀ i, i < srv.slave_reactor.reactors.length → i < cfg.rsz)
    (hnum : ∀ u, u < srv.factory.wp.num.toNat → u < cfg.num)
    (hgone : c.gone th = false)
    (hcall : c.inCall th = false)
    (huses : ∀ a, ∀ r ∈ c.uses cfg srv a, r ∈ c.held) :
    c.Ready cfg srv th := by
  have htouch : ∀ a, c.touch (c.uses cfg srv a) = .ok () :=
    fun a => State.touch_eq_ok.mpr (huses a)
  cases th with
  | reactor i =>
      have hentered : c.entered (.reactor i) = false := hcall
      have hended : c.ended (.reactor i) = false := hgone
      have hrun : cfg.Runs (.reactor i) := hruns i hin
      by_cases hpc : c.server.pc (.reactor i) = .idle
      · refine ⟨.test (.reactor i), decide_eq_true rfl, ?_⟩
        have hreq : require (cfg.Runs (.reactor i) ∧ c.server.pc (.reactor i) = .idle ∧
            c.entered (.reactor i) = false ∧ c.ended (.reactor i) = false) = .ok () :=
          require_eq_ok.mpr ⟨hrun, hpc, hentered, hended⟩
        exact .bind (.of_ok hreq) fun _ => .bind (.of_ok (htouch _)) fun _ => .ite (.ok _) (.ok _)
      · refine ⟨.serve (.run (.reactor i) plainEnv), decide_eq_true rfl,
          State.serve_proceeds ?_ (huses _) ?_⟩
        · simp only [State.serves, hended, plainEnv]
          split <;> rfl
        · have hreq : require (cfg.Runs (.reactor i)) = .ok () := require_eq_ok.mpr hrun
          exact .bind (.of_ok hreq) fun _ => runThread_proceeds hpc
  | worker u =>
      have hwaiting : (c.server.units u).waiting = false := hcall
      have hexited : c.exited u = false := hgone
      have hu := hnum u hin
      cases hchecked : c.checked u with
      | true =>
          refine ⟨.serve (.work u fun _ => 0), decide_eq_true rfl,
            State.serve_proceeds ?_ (huses _) ?_⟩
          · simp [State.serves, hexited, hchecked]
          · have hreq : require (u < cfg.num) = .ok () := require_eq_ok.mpr hu
            exact .bind (.of_ok hreq) fun _ => factoryExec_proceeds _ hwaiting
      | false =>
          refine ⟨.check u, decide_eq_true rfl, ?_⟩
          have hreq : require (u < cfg.num ∧ (c.server.units u).waiting = false ∧
              c.checked u = false ∧ c.exited u = false) = .ok () :=
            require_eq_ok.mpr ⟨hu, hwaiting, hchecked, hexited⟩
          exact .bind (.of_ok hreq) fun _ => .bind (.of_ok (htouch _)) fun _ => .ite (.ok _) (.ok _)

/-- At its join a thread has been told to end, and is woken if it sleeps. -/
theorem Stopping.told_at_join
    {tid : Option Nat} {rest : List Cmd}
    (h : Stopping srv c)
    (htodo : c.todo = .join th tid :: rest) :
    InPool srv th ∧ c.Told th ∧
      ∀ u, th = .worker u → (c.server.units u).waiting = true → 0 < (c.server.units u).efd := by
  have horder := h.order
  rw [htodo] at horder
  have hlater : ∀ cmd ∈ rest, ¬ Stops cmd th := fun cmd hcmd =>
    (List.pairwise_cons.mp horder).1 cmd hcmd th tid rfl
  have hdone : ∀ {cmd}, Stops cmd th → (∀ th tid, cmd ≠ .join th tid) →
      cmd ∉ c.todo := by
    intro cmd hstops hne hmem
    rw [htodo] at hmem
    exact hlater cmd (List.mem_of_ne_of_mem (hne th tid) hmem) hstops
  have hin : InPool srv th := h.within (.join th tid) (htodo ▸ List.mem_cons_self)
  cases th with
  | reactor i =>
      refine ⟨hin, (h.reactor i hin).resolve_right (hdone ?_ (by simp)), by simp⟩
      exact rfl
  | worker u =>
      have htold : c.unitStatus u = 0 := by
        refine (h.unit u hin).resolve_right fun hx => hdone ?_ (by simp) hx.2
        exact rfl
      refine ⟨hin, htold, ?_⟩
      rintro v ⟨rfl⟩ hwaiting
      refine ((h.woken u htold).resolve_left (hdone ?_ (by simp))) (.inl hwaiting)
      exact rfl

end Ends

/-- Nothing has been opened again under the number of a pipe that is closed. -/
def State.NoneReopened (cfg : Cfg) (srv : EbSrv) (c : State) : Prop :=
  ∀ i, i < cfg.rsz → c.readEnd srv i = false → c.server.isOpen (cfg.pipeFd i) = false

/-- **`eb_srv_destroy` comes to its end.**  Every thread was created, and descriptor 0 was
open before.  Over any interleaving in which the close paths of the server remove only
events that are not queued, `eb_srv_destroy` can always go on, unless it waits for a thread
in `pthread_join`.  Then that thread is not held by its `epoll_wait` or `read`, nor
anywhere else unless something has been opened again under the number of a closed pipe,
where a read may wait.  It takes only so many more steps, whatever the others do, after
which it has left its loop; in some of them the process may end.  The steps of
`eb_srv_destroy` itself are bounded by what it has before it. -/
theorem destroy_comes_to_its_end
    {env : SrvEnv} {threads : StartEnv} {before held : Holdings} {srv : EbSrv}
    (h : Started env threads before srv held)
    (hzero : .descriptor 0 ∈ before)
    (hall : Complete threads srv)
    (callbacks : EbEvent → Bool) (udata : UInt64) {sigpipe : Bool} {c : State}
    (hreach : Reach (State.step (h.cfg callbacks udata) srv) State.ClosesUnqueued
      (start (h.cfg callbacks udata) srv held sigpipe) c) :
    (∀ cmd rest, c.todo = cmd :: rest →
      (∃ c', c.step (h.cfg callbacks udata) srv .destroy = .ok c') ∨
      ∃ th tid, cmd = .join th tid ∧ c.gone th = false ∧
        (c.inCall th = true →
          Enabled (State.step (h.cfg callbacks udata) srv) (fun a => a.isOf th = true) c) ∧
        (c.NoneReopened (h.cfg callbacks udata) srv → c.Ready (h.cfg callbacks udata) srv th) ∧
        ∀ n as c',
          run (guarded (State.step (h.cfg callbacks udata) srv) State.ClosesUnqueued .disabled)
            c as = .ok c' →
          (∀ t reports, .serve (.wait t reports) ∈ as → reports.length ≤ n) →
          as.countP (Act.isOf th) ≤ c.stepsToEnd n th ∧
            (as.countP (Act.isOf th) = c.stepsToEnd n th → c'.gone th = true)) ∧
    ∀ as c',
      run (guarded (State.step (h.cfg callbacks udata) srv) State.ClosesUnqueued .disabled)
        c as = .ok c' →
      as.countP Act.isDestroy ≤ c.commandsLeft := by
  have hjoining := joining_of_reach h hall hreach
  have hrunleft := todo_of_reach h hzero hall hreach
  have hstopping : Stopping srv c := hreach.invariant (stopping_start h hall)
    fun _ _ _ hs _ hstep => hs.step (step_turn hstep)
  have hsettled : Settled c := by
    refine hreach.invariant ⟨rested_ebSrvNew _, fun t hentered => ?_⟩
      fun _ _ _ hs _ hstep => hs.step (step_turn hstep)
    cases hentered
  have hruns : ∀ i, i < srv.slave_reactor.reactors.length → i < (h.cfg callbacks udata).rsz :=
    fun i hi => lt_of_lt_of_eq hi h.rsz
  have hnum : ∀ u, u < srv.factory.wp.num.toNat → u < (h.cfg callbacks udata).num :=
    fun u hu => lt_of_lt_of_eq hu h.num
  refine ⟨fun cmd rest htodo => ?_, fun as c' hrun => ?_⟩
  · by_cases hreturns : c.returns cmd = true
    · left
      rw [htodo] at hrunleft
      obtain ⟨held', hexec, -⟩ := run_cons_success hrunleft
      have hreq : require (c.returns cmd = true) = .ok () := require_eq_ok.mpr hreturns
      simp only [State.step, htodo, hreq, hexec, ok_bind]
      exact ⟨_, rfl⟩
    · right
      obtain ⟨th, tid, rfl⟩ : ∃ th tid, cmd = .join th tid := by
        cases cmd with
        | join th tid => exact ⟨th, tid, rfl⟩
        | _ => exact absurd rfl hreturns
      have hgone : c.gone th = false := by simpa [State.returns] using hreturns
      obtain ⟨hin, htold, hwoken⟩ := hstopping.told_at_join htodo
      have hintact := hjoining.intact th hin hgone
      have huses : ∀ a, ∀ r ∈ c.uses (h.cfg callbacks udata) srv a, r ∈ c.held := by
        intro a r hr
        obtain ⟨p, rfl, howned⟩ := ownBlock_uses h _ r hr
        exact hintact p howned
      have henabled := fun hcall =>
        enabled_of_inCall hin hruns hnum hsettled hgone hcall huses hwoken
      refine ⟨th, tid, rfl, hgone, henabled, fun _ => ?_, fun n as c' hrun hreports => ?_⟩
      · cases hcall : c.inCall th with
        | true =>
            obtain ⟨a, ha, c₁, hstep⟩ := henabled hcall
            exact ⟨a, ha, fun he => by cases hstep.symm.trans he⟩
        | false => exact ready_of_not_inCall hin hruns hnum hgone hcall huses
      · have hbound := hsettled.steps_bounded htold (run_of_guarded_run hrun) hreports
        refine ⟨by omega, fun hall => ?_⟩
        rw [← State.stepsToEnd_eq_zero (n := n)]
        omega
  · have hbound := countP_le_of_rank_of (J := Stopping srv) Act.isDestroy State.commandsLeft
      hstopping (fun s a s' hs hstep => hs.step (step_turn hstep)) ?_ ?_ (run_of_guarded_run hrun)
    · omega
    · intro s a s' _ hs hown hstep
      have hless := hs.commandsLeft (step_turn hstep)
      rw [hown, if_pos rfl] at hless
      omega
    · intro s a s' _ hs hown hstep
      have hle := hs.commandsLeft (step_turn hstep)
      rw [hown] at hle
      simpa using hle

/-- The join waits; the reactor is in `epoll_wait` and may return from it. -/
theorem destroy_comes_to_its_end_small :
    ∃ c th tid rest, run Small.turn Small.called Small.toJoin = .ok c ∧
      c.todo = .join th tid :: rest ∧ c.gone th = false ∧ c.inCall th = true ∧
      Enabled (State.step (Small.started.cfg (fun _ => true) 0) Small.running.1)
        (fun a => a.isOf th = true) c := by
  have hends : endsIn Small.turn Small.called Small.toJoin (fun c =>
      decide (c.todo.head? = some (.join (.reactor 0) (some 1))) &&
        (c.inCall (.reactor 0) && !(Small.turn c .destroy).isOk)) = true := by decide +kernel
  obtain ⟨c, hrun, hcheck⟩ := run_of_endsIn hends
  simp only [Bool.and_eq_true, decide_eq_true_eq, Bool.not_eq_true'] at hcheck
  obtain ⟨hhead, hcall, hstuck⟩ := hcheck
  obtain ⟨rest, htodo⟩ : ∃ rest, c.todo = .join (.reactor 0) (some 1) :: rest :=
    List.head?_eq_some_iff.mp hhead
  rcases (destroy_comes_to_its_end Small.started (Finset.mem_singleton_self _)
    Small.complete _ _ (reach_of_guarded_run hrun)).1 _ _ htodo with
    ⟨c', hstep⟩ | ⟨th, tid, hjoin, hgone, hable, -⟩
  · have hok : Small.turn c .destroy = .ok c' := hstep
    rw [hok] at hstuck
    cases hstuck
  · cases hjoin
    exact ⟨c, _, _, rest, hrun, htodo, hgone, hcall, hable hcall⟩

end Shutdown

end Ebot

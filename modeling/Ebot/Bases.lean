import Ebot.SlabBalance

/-!
# The event bases of the running server

A step of the server changes the shared events by one operation of `EventPool`
at most (`EventStep`).  Reads past the end of a wait table are undefined here,
so no call that returns goes past `wait_sz`, and in every state the interest set
of every base mirrors its tables.  Then an add is refused only by the kernel, and
a connection can be registered as soon as a slab is left.
-/

namespace Ebot

open Function EventState Transition InterestSet

/-- What one step of the server may do to the shared events. -/
inductive EventStep (E : EventState) : EventState → Prop
  | same :
      EventStep E E
  | got {t : Tid} {ctl : Bool} {d : Dir} {e : SrvEvent} {o : Option (Nat × Int)}
      {E' : EventState} :
      e.IsFor d →
      e.cb ≠ none →
      E.getAdd t ctl e = .ok (o, E') →
      EventStep E E'
  | put {p : Nat} {E' : EventState} :
      E.put p = .ok E' →
      EventStep E E'
  | deleted {t : Tid} {ctl : Bool} {d : Dir} {fd : Nat} {E' : EventState} :
      E.delPut t ctl d fd = .ok E' →
      EventStep E E'
  | collected {t : Tid} {reports : List Report} {E' : EventState} :
      E.collect t reports = .ok E' →
      EventStep E E'
  | taken {t : Tid} {p : Nat} {E' : EventState} :
      E.next t = some (p, E') →
      EventStep E E'

/-- The interest set of every base mirrors its tables. -/
structure BasesMirror (E : EventState) : Prop where
  mirrors : ∀ t, Mirrors (E.base t)
  kides : ∀ t, (E.base t).kides = SlabBalance.threadKides t

/-- The events in the slabs that are handed out were filled in. -/
def Filled (E : EventState) : Prop :=
  ∀ p, E.used p = true → (E.ev p).cb ≠ none

/-- `mpool_get` would find a slab. -/
def SlabLeft (E : EventState) : Prop :=
  (E.pool.head.any fun p => !E.used p) = true

instance (E : EventState) : Decidable (SlabLeft E) := by
  dsimp only [SlabLeft]
  infer_instance

/-! ## One base -/

section Base

variable {κ α : Type} {eb eb' : EbotBase} {ctl : Bool} {e : Event κ α} {p : Nat}
variable {ret : Int} {d : Dir} {env : AddEnv}

/-- An add that may not read past the end of a table, and returns, is for a
descriptor below `wait_sz`. -/
theorem InterestSet.Mirrors.lt_of_add
    (h : Mirrors eb)
    (hsup : eb.Supports e)
    (hadd : ebotAddEvent (.strict ctl) eb p e = .ok (ret, eb')) :
    (e.fd : Nat) < eb.wait_sz := by
  have hkinds : ¬ ¬ (e.kide.read ∧ eb.kides.read ∨ e.kide.write ∧ eb.kides.write) :=
    not_not_intro hsup
  unfold ebotAddEvent at hadd
  rw [if_neg hkinds] at hadd
  obtain ⟨r, hr, -⟩ := bind_eq_ok.mp hadd
  have hin := (Slots.has_of_get hr).2
  rwa [h.whole.sized.read] at hin

/-- It keeps the mirror. -/
theorem InterestSet.Mirrors.added
    (h : Mirrors eb)
    (hd : e.IsFor d)
    (hadd : ebotAddEvent (.strict ctl) eb p e = .ok (ret, eb')) :
    Mirrors eb' ∧ eb'.kides = eb.kides := by
  by_cases hsup : eb.Supports e
  · have hlt := h.lt_of_add hsup hadd
    refine ⟨h.step (c := .add (.strict ctl) p e) ⟨⟨d, hd⟩, hlt⟩
      (WaitTables.step_eq_ok.mpr ⟨ret, hadd⟩), ?_⟩
    rw [ebotAddEvent_covered hsup (h.whole.covers hlt) hlt] at hadd
    dsimp only at hadd
    split at hadd
    · cases hadd
      rfl
    · cases hadd
      rfl
  · rw [ebotAddEvent_of_not_supports hsup] at hadd
    cases hadd
    exact ⟨h, rfl⟩

/-- If the kernel refuses nothing it returns 0. -/
theorem InterestSet.Mirrors.added_ret
    (h : Mirrors eb)
    (hd : e.IsFor d)
    (hsup : eb.Supports e)
    (hadd : ebotAddEvent (.strict true) eb p e = .ok (ret, eb')) :
    ret = 0 := by
  obtain ⟨eb₁, hadd₁, -⟩ := h.add_returns (p := p) hd hsup (h.lt_of_add hsup hadd)
  rw [hadd₁] at hadd
  cases hadd
  rfl

/-- An add that returns 0 was not refused by the kernel. -/
theorem ctl_of_ebotAddEvent
    (hadd : ebotAddEvent env eb p e = .ok (0, eb')) :
    env.ctl = true := by
  unfold ebotAddEvent at hadd
  split at hadd
  · cases hadd
  · obtain ⟨r, -, hadd⟩ := bind_eq_ok.mp hadd
    obtain ⟨w, -, hadd⟩ := bind_eq_ok.mp hadd
    obtain ⟨eb₁, -, hadd⟩ := bind_eq_ok.mp hadd
    cases hctl : env.ctl with
    | true => rfl
    | false =>
        rw [hctl] at hadd
        cases hadd

/-- A removal inside the tables keeps the mirror. -/
theorem InterestSet.Mirrors.deleted
    (h : Mirrors eb)
    (hd : e.IsFor d)
    (hlt : (e.fd : Nat) < eb.wait_sz)
    (hdel : ebotDelEvent ctl eb e = .ok (ret, eb')) :
    Mirrors eb' ∧ eb'.kides = eb.kides := by
  refine ⟨h.step (c := .del ctl e) ⟨⟨d, hd⟩, hlt⟩
    (WaitTables.step_eq_ok.mpr ⟨ret, hdel⟩), ?_⟩
  rw [ebotDelEvent_eq hd (h.whole.covers hlt)] at hdel
  dsimp only at hdel
  split at hdel
  · cases hdel
    rfl
  · cases hdel
    rfl

/-- The ready queue does not matter. -/
theorem InterestSet.Mirrors.readies
    (h : Mirrors eb)
    (readies : List Nat) :
    Mirrors { eb with event_readies := readies } where
  whole := ⟨⟨h.whole.sized.read, h.whole.sized.write, h.whole.sized.live⟩, h.whole.live⟩
  mask := h.mask

end Base

/-! ## All bases -/

section Bases

variable {E E' : EventState} {t : Tid} {base : EbotBase}

theorem basesMirror_ebSrvNew
    (cfg : Cfg) :
    BasesMirror (ebSrvNew cfg).events where
  mirrors := by
    intro t
    cases t with
    | master => exact mirrors_ebotNew ⟨true, false⟩
    | reactor i => exact mirrors_ebotNew ⟨true, true⟩
  kides := by
    intro t
    cases t <;> rfl

/-- One base changes. -/
theorem BasesMirror.update
    (h : BasesMirror E)
    (hbase : E'.base = update E.base t base)
    (hmirrors : Mirrors base)
    (hkides : base.kides = (E.base t).kides) :
    BasesMirror E' := by
  constructor
  · rw [hbase]
    exact (forall_update_iff E.base fun _ => Mirrors).mpr
      ⟨hmirrors, fun t' _ => h.mirrors t'⟩
  · rw [hbase]
    exact (forall_update_iff E.base fun t' eb =>
      eb.kides = SlabBalance.threadKides t').mpr
        ⟨hkides.trans (h.kides t), fun t' _ => h.kides t'⟩

/-- No base changes. -/
theorem BasesMirror.same
    (h : BasesMirror E)
    (hbase : E'.base = E.base) :
    BasesMirror E' :=
  ⟨hbase ▸ h.mirrors, hbase ▸ h.kides⟩

/-- One operation on the shared events. -/
theorem BasesMirror.eventStep
    (h : BasesMirror E)
    (htables : Tables E)
    (hstep : EventStep E E') :
    BasesMirror E' := by
  cases hstep with
  | same => exact h
  | @got t ctl d e o _ hd _ hget =>
      unfold getAdd at hget
      obtain ⟨⟨o', pool⟩, -, hget⟩ := bind_eq_ok.mp hget
      cases o' with
      | none =>
          cases hget
          exact h.same rfl
      | some p =>
          obtain ⟨ev, hev, hget⟩ := bind_eq_ok.mp hget
          obtain ⟨⟨ret, base⟩, hadd, hget⟩ := bind_eq_ok.mp hget
          cases hget
          unfold eventInit at hev
          split at hev
          · cases hev
          cases hev
          rw [update_self] at hadd
          obtain ⟨hmirrors, hkides⟩ := (h.mirrors t).added hd hadd
          exact h.update rfl hmirrors hkides
  | put hput => exact h.same (put_putBack hput).base
  | @deleted t ctl d fd _ hdel =>
      unfold delPut at hdel
      obtain ⟨o, hget, hdel⟩ := bind_eq_ok.mp hdel
      have ho : E.slot t d fd = o := (Slots.get_eq_ok hget).symm
      cases o with
      | none =>
          cases hdel
          exact h
      | some p =>
          obtain ⟨⟨ret, base⟩, hdel, hput⟩ := bind_eq_ok.mp hdel
          have hlt : fd < (E.base t).wait_sz := by
            have hin := (Slots.has_of_get hget).2
            cases d with
            | read => rwa [← (h.mirrors t).whole.sized.read]
            | write => rwa [← (h.mirrors t).whole.sized.write]
          have hfd := htables.fd t d fd p ho
          obtain ⟨hmirrors, hkides⟩ :=
            (h.mirrors t).deleted (htables.isFor t d fd p ho) (hfd.symm ▸ hlt) hdel
          exact h.update (put_putBack hput).base hmirrors hkides
  | @collected t reports _ hcollect =>
      unfold collect at hcollect
      obtain ⟨⟨base, ev⟩, hloop, hcollect⟩ := bind_eq_ok.mp hcollect
      cases hcollect
      obtain ⟨⟨new, hnew⟩, -⟩ := ebotLoopCollect_queues hloop
      have hmirrors := (h.mirrors t).readies ((E.base t).event_readies ++ new)
      rw [← hnew.base] at hmirrors
      exact h.update rfl hmirrors (by rw [hnew.base])
  | @taken t p _ hnext =>
      unfold next at hnext
      split at hnext
      · cases hnext
      · rename_i p' base ev hdispatch
        cases hnext
        unfold dispatchNext at hdispatch
        split at hdispatch
        · cases hdispatch
        · rename_i rest _
          cases hdispatch
          exact h.update rfl ((h.mirrors t).readies rest) rfl

/-- One operation on the shared events. -/
theorem Filled.eventStep
    (h : Filled E)
    (hstep : EventStep E E') :
    Filled E' := by
  have hput : ∀ {p}, (∀ q, E'.used q = if q = p then false else E.used q) →
      E'.ev = E.ev → Filled E' := by
    intro p hused hev q hq
    rw [hused] at hq
    rw [hev]
    split at hq
    · cases hq
    · exact h q hq
  have hloop : E'.pool = E.pool → SameContent E E' → Filled E' := by
    intro hpool hcontent q hq
    rw [hcontent.cb]
    refine h q ?_
    unfold EventState.used at hq ⊢
    rwa [hpool] at hq
  cases hstep with
  | same => exact h
  | @got t ctl d e o _ hd hcb hget =>
      cases o with
      | none => exact getAdd_none hget ▸ h
      | some o =>
          obtain ⟨p, ret⟩ := o
          have hopened := getAdd_some hd hget
          intro q hq
          rw [hopened.used] at hq
          rw [hopened.ev]
          by_cases hp : q = p
          · subst hp
            rw [update_self]
            exact hcb
          · rw [if_neg hp] at hq
            rw [update_of_ne hp]
            exact h q hq
  | put h' => exact hput (put_putBack h').used (put_putBack h').ev
  | deleted hdel =>
      rcases delPut_cases hdel with ⟨-, rfl⟩ | ⟨p, granted, -, hclosed, -⟩
      · exact h
      · exact hput hclosed.used hclosed.ev
  | collected hcollect =>
      exact hloop (collect_collected hcollect).pool (collect_collected hcollect).content
  | taken hnext => exact hloop (next_some hnext).pool (next_some hnext).content

end Bases

/-! ## The steps of the server -/

section Steps

variable {cfg : Cfg} {s s' : Server} {t : Tid} {env : Env} {a : Action}

theorem bootEvent_cb : (bootEvent cfg t).cb ≠ none := by
  cases t <;> nofun

theorem runThread_eventStep
    (h : runThread cfg s t env = .ok s') :
    EventStep s.events s'.events := by
  unfold runThread at h
  split at h
  · obtain ⟨⟨o, events⟩, hget, h⟩ := bind_eq_ok.mp h
    cases o with
    | none => cases h
    | some o =>
        dsimp only at h
        split at h
        · cases h
        · cases h
          exact .got bootEvent_isFor bootEvent_cb hget
  · cases h
  · unfold dispatchEvents at h
    split at h
    · cases h
      exact .same
    · rename_i hnext
      dsimp only at h
      split at h
      all_goals
        cases h
        try exact .taken hnext
  · unfold ebotSrvAccept at h
    split at h
    · cases h
      exact .same
    · split at h
      · cases h
      · obtain ⟨_, -, h⟩ := bind_eq_ok.mp h
        dsimp only at h
        split at h
        · cases h
          exact .same
        · cases h
          exact .same
  · cases h
    exact .same
  · cases h
    exact .same
  · unfold acceptCount at h
    split at h
    · cases h
    · cases h
      exact .same
  · cases h
    unfold reactorPoolPipeCallback
    split
    · exact .same
    · exact .same
  · obtain ⟨⟨o, events⟩, hget, h⟩ := bind_eq_ok.mp h
    cases o with
    | none =>
        cases h
        exact .got clientEvent_isFor nofun hget
    | some o =>
        cases h
        exact .got clientEvent_isFor nofun hget
  · obtain ⟨events, hput, h⟩ := bind_eq_ok.mp h
    cases h
    exact .put hput
  · cases h
    exact .same
  · obtain ⟨events, hdel, h⟩ := bind_eq_ok.mp h
    cases h
    exact .deleted hdel
  · obtain ⟨⟨ret, rq⟩, -, h⟩ := bind_eq_ok.mp h
    dsimp only at h
    split at h
    · cases h
      exact .same
    · cases h
      exact .same
  · cases h
    exact .same

theorem ebSrvFactoryExec_events
    {u : Nat} {stack : Nat → UInt8}
    (h : ebSrvFactoryExec cfg s u stack = .ok s') :
    s'.events = s.events := by
  unfold ebSrvFactoryExec at h
  dsimp only at h
  split at h
  · obtain ⟨_, -, h⟩ := bind_eq_ok.mp h
    cases h
    rfl
  · obtain ⟨⟨ret, rq, d⟩, -, h⟩ := bind_eq_ok.mp h
    dsimp only at h
    split at h
    · obtain ⟨stream, -, h⟩ := bind_eq_ok.mp h
      cases h
      rfl
    · cases h
      rfl

/-- One step is one operation on the shared events, or none. -/
theorem step_eventStep
    (h : step cfg s a = .ok s') :
    EventStep s.events s'.events := by
  cases a with
  | arrive =>
      cases h
      exact .same
  | wait t reports =>
      obtain ⟨_, -, h⟩ := bind_eq_ok.mp h
      unfold ebotLoop at h
      obtain ⟨_, -, h⟩ := bind_eq_ok.mp h
      obtain ⟨_, -, h⟩ := bind_eq_ok.mp h
      obtain ⟨_, -, h⟩ := bind_eq_ok.mp h
      obtain ⟨_, -, h⟩ := bind_eq_ok.mp h
      obtain ⟨events, hcollect, h⟩ := bind_eq_ok.mp h
      cases h
      exact .collected hcollect
  | run t env =>
      obtain ⟨_, -, h⟩ := bind_eq_ok.mp h
      exact runThread_eventStep h
  | work u stack =>
      obtain ⟨_, -, h⟩ := bind_eq_ok.mp h
      rw [ebSrvFactoryExec_events h]
      exact .same

/-- In every run with the removals granted the interest sets mirror the
tables. -/
theorem basesMirror_of_reach
    {good : Server → Action → Prop}
    (hgranted : ∀ s a, good s a → RemovalsGranted s a)
    (hreach : Reach (step cfg) good (ebSrvNew cfg) s) :
    BasesMirror s.events := by
  refine hreach.invariant_of (J := Orderly cfg) (I := fun s => BasesMirror s.events)
    (fun s hr => orderly_of_reach hgranted hr) (basesMirror_ebSrvNew cfg) ?_
  intro s a s' horderly _ h _ hstep
  exact h.eventStep horderly.tables (step_eventStep hstep)

/-- In every run the slabs handed out hold events that were filled in. -/
theorem filled_of_reach
    {good : Server → Action → Prop}
    (hreach : Reach (step cfg) good (ebSrvNew cfg) s) :
    Filled s.events := by
  refine hreach.invariant (I := fun s => Filled s.events) ?_ ?_
  · intro p hp
    have hfree : (ebSrvNew cfg).events.used p = false :=
      (mpoolNew_spec sizeofEvent (orFour_pos _)).2.2 p
    rw [hfree] at hp
    cases hp
  · intro s a s' h _ hstep
    exact h.eventStep (step_eventStep hstep)

/-- What is registered in a reactor for a connection is its event. -/
theorem Descriptors.registered
    {d : Dir} {fd : Fd} {p : Nat}
    (hdesc : Descriptors cfg s)
    (htables : Tables s.events)
    (hfilled : Filled s.events)
    (hacc : Accepted s.log fd)
    (hslot : s.events.slot (.reactor (cfg.reactorOf fd)) d fd = some p) :
    (s.events.ev p).Agrees (clientEvent d fd (cfg.reactorOf fd)) := by
  have hd := htables.isFor _ _ _ _ hslot
  have hfd : (s.events.ev p).fd = fd := Fin.ext (htables.fd _ _ _ _ hslot)
  rcases hdesc.ev p with hnone | ⟨t, hboot⟩ | ⟨d', fd', -, hclient⟩
  · exact absurd hnone (hfilled p (htables.used _ _ _ _ hslot))
  · -- the descriptors of the threads were open before
    have hopened : cfg.opened fd = true := by
      have htid := htables.tid _ _ _ _ hslot
      rw [hboot.arg, bootEvent_tid] at htid
      rw [← hfd, hboot.fd, htid]
      exact cfg.pipe_opened _ (Nat.mod_lt _ (orFour_pos _))
    rw [(hdesc.accepted fd hacc).1] at hopened
    cases hopened
  · obtain rfl : d' = d := Dir.kide_injective (hclient.kide.symm.trans hd)
    obtain rfl : fd' = fd := hclient.fd.symm.trans hfd
    exact hclient

end Steps

/-! ## Registering a connection -/

section Opening

variable {cfg : Cfg} {E E' : EventState} {s s' : Server} {t : Tid} {ctl : Bool}
variable {d : Dir} {i p : Nat} {fd : Fd} {e : SrvEvent} {ret : Int} {env : Env}

/-- A get that finds a slab found it at the head. -/
theorem slabLeft_of_getAdd
    (h : E.getAdd t ctl e = .ok (some (p, ret), E')) :
    SlabLeft E := by
  unfold getAdd at h
  obtain ⟨⟨o, pool⟩, hget, h⟩ := bind_eq_ok.mp h
  cases o with
  | none => cases h
  | some q =>
      obtain ⟨hhead, hfree, -⟩ := mpoolGet_some hget
      unfold SlabLeft EventState.used
      rw [hhead]
      simp [hfree]

/-- A get that finds none had none at the head. -/
theorem not_slabLeft_of_getAdd
    (h : E.getAdd t ctl e = .ok (none, E')) :
    ¬ SlabLeft E := by
  unfold getAdd at h
  obtain ⟨⟨o, pool⟩, hget, h⟩ := bind_eq_ok.mp h
  cases o with
  | none =>
      unfold mpoolGet at hget
      obtain ⟨p, hhead, hget⟩ := bind_eq_ok.mp hget
      rw [orFault_eq_ok] at hhead
      unfold SlabLeft EventState.used
      rw [hhead]
      split at hget
      · rename_i hused
        simp [hused]
      · obtain ⟨_, -, hget⟩ := bind_eq_ok.mp hget
        obtain ⟨_, -, hget⟩ := bind_eq_ok.mp hget
        cases hget
  | some p =>
      obtain ⟨_, -, h⟩ := bind_eq_ok.mp h
      obtain ⟨_, -, h⟩ := bind_eq_ok.mp h
      cases h

/-- The add in it, when it returns. -/
theorem ebotAddEvent_of_getAdd
    (h : E.getAdd t ctl e = .ok (some (p, ret), E')) :
    ebotAddEvent (.strict ctl) (E.base t) p e = .ok (ret, E'.base t) := by
  unfold getAdd at h
  obtain ⟨⟨o, pool⟩, -, h⟩ := bind_eq_ok.mp h
  cases o with
  | none => cases h
  | some q =>
      obtain ⟨ev, hev, h⟩ := bind_eq_ok.mp h
      obtain ⟨⟨ret', base⟩, hadd, h⟩ := bind_eq_ok.mp h
      cases h
      unfold eventInit at hev
      split at hev
      · cases hev
      cases hev
      rw [update_self] at hadd
      dsimp only
      rw [update_self]
      exact hadd

/-- A reactor's base supports both kinds. -/
theorem BasesMirror.supports
    (h : BasesMirror E) :
    (E.base (.reactor i)).Supports (clientEvent d fd i) := by
  unfold EbotBase.Supports
  rw [h.kides]
  cases d with
  | read => exact .inl ⟨rfl, rfl⟩
  | write => exact .inr ⟨rfl, rfl⟩

/-- What the step of a reactor does that registers a connection for a
direction. -/
theorem step_opening
    (hpc : s.pc t = .opening d i fd)
    (hstep : step cfg s (.run t env) = .ok s') :
    ∃ o events, s.events.getAdd (.reactor i) env.ctl (clientEvent d fd i) =
        .ok (o, events) ∧
      s' = ({ s with events } : Server).goto t
        (match o with
          | none => .dispatch
          | some (p, ret) => if ret < 0 then .undoing d i fd p else .opened i fd d) := by
  obtain ⟨_, -, h⟩ := bind_eq_ok.mp hstep
  unfold runThread at h
  rw [hpc] at h
  obtain ⟨⟨o, events⟩, hget, h⟩ := bind_eq_ok.mp h
  refine ⟨o, events, hget, ?_⟩
  cases o with
  | none =>
      cases h
      rfl
  | some o =>
      cases h
      rfl

/-- It succeeds exactly when a slab is left and the kernel does not refuse. -/
theorem BasesMirror.opens
    (h : BasesMirror s.events)
    (hpc : s.pc t = .opening d i fd)
    (hstep : step cfg s (.run t env) = .ok s') :
    (SlabLeft s.events ∧ env.ctl = true →
      s'.pc t = .opened i fd d ∧ s'.events.slot (.reactor i) d fd ≠ none) ∧
    (¬ (SlabLeft s.events ∧ env.ctl = true) →
      (s'.pc t = .dispatch ∨ ∃ p, s'.pc t = .undoing d i fd p) ∧
        ∀ t' d' fd', s'.events.slot t' d' fd' = s.events.slot t' d' fd') := by
  obtain ⟨o, events, hget, rfl⟩ := step_opening hpc hstep
  cases o with
  | none =>
      have hnone := not_slabLeft_of_getAdd hget
      refine ⟨fun hgood => absurd hgood.1 hnone, fun _ => ⟨.inl Server.goto_pc_self, ?_⟩⟩
      intro t' d' fd'
      rw [Server.goto_events, getAdd_none hget]
  | some o =>
      obtain ⟨p, ret⟩ := o
      have hleft := slabLeft_of_getAdd hget
      have hadd := ebotAddEvent_of_getAdd hget
      have hopened := getAdd_some clientEvent_isFor hget
      dsimp only
      constructor
      · rintro ⟨-, hctl⟩
        rw [hctl] at hadd
        obtain rfl := (h.mirrors _).added_ret clientEvent_isFor h.supports hadd
        refine ⟨Server.goto_pc_self, ?_⟩
        rw [Server.goto_events, hopened.slot]
        by_cases hempty : s.events.slot (.reactor i) d fd = none
        · rw [if_pos ⟨rfl, rfl, rfl, rfl, hempty⟩]
          simp
        · rw [if_neg fun hc => hempty hc.2.2.2.2]
          exact hempty
      · intro hbad
        have hret : ret ≠ 0 := by
          rintro rfl
          exact hbad ⟨hleft, ctl_of_ebotAddEvent hadd⟩
        have hneg : ret < 0 := by
          rcases hopened.answer with h0 | h1
          · exact absurd h0 hret
          · omega
        rw [if_pos hneg]
        refine ⟨.inr ⟨p, Server.goto_pc_self⟩, fun t' d' fd' => ?_⟩
        rw [Server.goto_events, hopened.slot, if_neg fun hc => hret hc.1]

end Opening

end Ebot

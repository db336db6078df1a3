import Ebot.Admission
import Ebot.Bases
import Ebot.Connect
import Ebot.Removal

/-!
# How a hand-off ends

Between `accept` and the end of `reactor_pool_pipe_callback` a connection passes
five steps that can fail: the write to the pipe, and for each of its two events
the get of a slab and the add.  None of the failures is undone.  If all five
succeed the connection ends with both events registered, announced once and
counted once; after one that fails it never gets there, and since no code closes
its descriptor or lowers `total_conns` it is not undone either.
-/

namespace Ebot

open Function EdgeSource EventState Transition

/-- The connections that `total_conns` counts. -/
def countedOf (s : Server) : List Fd :=
  if (s.pc .master).uncounted then (acceptedOf s.log).dropLast else acceptedOf s.log

/-- The connection is in place: its events are registered in its reactor, it was
announced once, if `EB_CONNECT` is installed, and is counted once. -/
structure SetUp (cfg : Cfg) (fd : Fd) (s : Server) : Prop where
  registered : ∀ d, ∃ p, s.events.slot (.reactor (cfg.reactorOf fd)) d fd = some p ∧
    (s.events.ev p).Agrees (clientEvent d fd (cfg.reactorOf fd))
  announced : (connectsOf s.log).count ((fd : Nat) : Int) = (announcement cfg fd).length
  counted : (countedOf s).count fd = 1
  total : s.total_conns = (countedOf s).length

/-- Nothing of the connection is left. -/
structure Undone (cfg : Cfg) (fd : Fd) (s : Server) : Prop where
  unregistered : ∀ d, s.events.slot (.reactor (cfg.reactorOf fd)) d fd = none
  noSlab : ∀ p, s.events.used p = true → (s.events.ev p).fd ≠ fd
  uncounted : fd ∉ countedOf s
  closed : s.isOpen fd = false

/-- The master and the reactor have finished with the connection. -/
structure HandedOver (cfg : Cfg) (fd : Fd) (s : Server) : Prop where
  master : (s.pc .master).uncounted = true → (acceptedOf s.log).getLast? ≠ some fd
  pipe : fd ∉ (s.pipe (cfg.reactorOf fd)).items
  reactor : (s.pc (.reactor (cfg.reactorOf fd))).opens ≠ some fd

instance (cfg : Cfg) (fd : Fd) (s : Server) : Decidable (HandedOver cfg fd s) :=
  decidable_of_iff
    (((s.pc .master).uncounted = true → (acceptedOf s.log).getLast? ≠ some fd) ∧
      fd ∉ (s.pipe (cfg.reactorOf fd)).items ∧
      (s.pc (.reactor (cfg.reactorOf fd))).opens ≠ some fd)
    ⟨fun h => ⟨h.1, h.2.1, h.2.2⟩, fun h => ⟨h.master, h.pipe, h.reactor⟩⟩

/-- An accepted connection that the threads have finished with, and whose peer
has not closed it since, is set up or undone. -/
def AllOrNothing (cfg : Cfg) (fd : Fd) (s : Server) : Prop :=
  Accepted s.log fd → HandedOver cfg fd s → closeSeen fd s.log = false →
    SetUp cfg fd s ∨ Undone cfg fd s

/-- The steps of the hand-off that can fail do not: the write to the pipe
succeeds, and for each event a slab is left and the kernel does not refuse. -/
def HandsOver (fd : Fd) (s : Server) : Action → Prop
  | .run t env =>
      match s.pc t with
      | .handOff fd' => fd' = fd → env.pipeOk = true
      | .opening _ _ fd' => fd' = fd → SlabLeft s.events ∧ env.ctl = true
      | _ => True
  | _ => True

instance (fd : Fd) (s : Server) : DecidablePred (HandsOver fd s)
  | .run t _ => by
      dsimp only [HandsOver]
      generalize s.pc t = pc
      rcases pc <;> infer_instance
  | .arrive | .wait _ _ | .work _ _ => isTrue trivial

/-! ## The master's side -/

/-- What the master has done with the connections accepted: it has announced
them in order, all but the one it is at. -/
structure MasterSide (cfg : Cfg) (s : Server) : Prop where
  nodup : (acceptedOf s.log).Nodup
  announced : ∃ done, acceptedOf s.log = done ++ (s.pc .master).unannounced.toList ∧
    connectsOf s.log = done.flatMap (announcement cfg)

section MasterSide

variable {cfg : Cfg} {s s' : Server} {a : Action} {fd : Fd}

theorem masterSide_ebSrvNew : MasterSide cfg (ebSrvNew cfg) where
  nodup := List.nodup_nil
  announced := ⟨[], rfl, rfl⟩

/-- One move. -/
theorem MasterSide.move
    (h : MasterSide cfg s)
    (halone : MasterAlone cfg s)
    (hdesc : Descriptors cfg s)
    (hmove : Move cfg s a s') :
    MasterSide cfg s' := by
  obtain ⟨done, haccepted, hconnects⟩ := h.announced
  cases hmove.admits halone with
  | nothing haccepted' hconnects' hpc =>
      refine ⟨haccepted' ▸ h.nodup, done, ?_, hconnects'.trans hconnects⟩
      rw [haccepted', hpc]
      exact haccepted
  | @accepted fd hpc hopen _ haccepted' hconnects' hpc' =>
      have hall : acceptedOf s.log = done := by
        rw [haccepted, hpc]
        exact List.append_nil _
      refine ⟨?_, done, ?_, hconnects'.trans hconnects⟩
      · have hnew : fd ∉ acceptedOf s.log := by
          intro hmem
          rw [(hdesc.accepted fd (mem_acceptedOf.mp hmem)).2] at hopen
          cases hopen
        rw [haccepted']
        exact h.nodup.append (List.nodup_singleton fd) (by simpa using hnew)
      · rw [haccepted', hpc', hall]
        rfl
  | @announced fd _ _ hpc haccepted' hconnects' hpc' =>
      refine ⟨haccepted' ▸ h.nodup, done ++ [fd], ?_, ?_⟩
      · rw [haccepted', haccepted, hpc, hpc']
        exact (List.append_nil _).symm
      · rw [hconnects', hconnects, List.flatMap_append, List.flatMap_singleton]

theorem masterSide_of_reach
    {good : Server → Action → Prop}
    (hreach : Reach (step cfg) good (ebSrvNew cfg) s) :
    MasterSide cfg s := by
  refine hreach.invariant_of (J := fun s => MasterAlone cfg s ∧ Descriptors cfg s)
    (fun s hr => ⟨masterAlone_of_reach hr, descriptors_of_reach hr⟩)
    masterSide_ebSrvNew ?_
  rintro s a s' ⟨halone, hdesc⟩ - h - hstep
  exact h.move halone hdesc (step_move hstep)

theorem Pc.uncounted_of_unannounced
    {pc : Pc}
    (h : pc.unannounced = some fd) :
    pc.uncounted = true := by
  cases pc <;> cases h <;> rfl

/-- Every connection is announced in the same way. -/
theorem count_announcements
    (done : List Fd) :
    (done.flatMap (announcement cfg)).count ((fd : Nat) : Int) =
      done.count fd * (announcement cfg fd).length := by
  induction done with
  | nil => simp
  | cons fd' done ih =>
      have hone : (announcement cfg fd').count ((fd : Nat) : Int) =
          if fd' = fd then (announcement cfg fd).length else 0 := by
        unfold announcement
        by_cases hcb : cfg.callbacks .EB_CONNECT = true
        · by_cases hfd : fd' = fd
          · simp [hcb, hfd]
          · have hne : ((fd' : Nat) : Int) ≠ ((fd : Nat) : Int) := by
              intro he
              exact hfd (Fin.ext (by omega))
            simp [hcb, hfd, hne]
        · simp [hcb]
      rw [List.flatMap_cons, List.count_append, ih, hone, List.count_cons]
      by_cases hfd : fd' = fd
      · simp [hfd, Nat.add_mul, Nat.add_comm]
      · simp [hfd]

/-- When the master has finished with a connection it is not at it. -/
theorem MasterSide.not_unannounced
    (h : MasterSide cfg s)
    (hdone : HandedOver cfg fd s) :
    (s.pc .master).unannounced ≠ some fd := by
  intro hpc
  obtain ⟨done, haccepted, -⟩ := h.announced
  refine hdone.master (Pc.uncounted_of_unannounced hpc) ?_
  rw [haccepted, hpc]
  simp

/-- Then the connection was announced once. -/
theorem MasterSide.count_connects
    (h : MasterSide cfg s)
    (hacc : Accepted s.log fd)
    (hdone : HandedOver cfg fd s) :
    (connectsOf s.log).count ((fd : Nat) : Int) = (announcement cfg fd).length := by
  obtain ⟨done, haccepted, hconnects⟩ := h.announced
  have hmem : fd ∈ done := by
    have hin := mem_acceptedOf.mpr hacc
    rw [haccepted, List.mem_append] at hin
    exact hin.resolve_right fun hlast =>
      h.not_unannounced hdone (Option.mem_toList.mp hlast)
  have hnodup : done.Nodup := by
    have hall := h.nodup
    rw [haccepted] at hall
    exact hall.of_append_left
  rw [hconnects, count_announcements, List.count_eq_one_of_mem hnodup hmem, Nat.one_mul]

/-- And it is counted once. -/
theorem MasterSide.count_counted
    (h : MasterSide cfg s)
    (hcounted : Counted s)
    (hacc : Accepted s.log fd)
    (hdone : HandedOver cfg fd s) :
    (countedOf s).count fd = 1 ∧ s.total_conns = (countedOf s).length := by
  have hmem := mem_acceptedOf.mpr hacc
  unfold countedOf
  cases hpc : (s.pc .master).uncounted with
  | false =>
      rw [if_neg (by simp)]
      exact ⟨List.count_eq_one_of_mem h.nodup hmem, hcounted.eq_length hpc⟩
  | true =>
      have hlast := hdone.master hpc
      have hsucc := hcounted.succ_eq_length hpc
      have hnodup := h.nodup
      rw [if_pos rfl]
      rcases List.eq_nil_or_concat (acceptedOf s.log) with hnil | ⟨rest, fd', hconcat⟩
      · rw [hnil] at hmem
        cases hmem
      · rw [List.concat_eq_append] at hconcat
        rw [hconcat] at hmem hlast hsucc hnodup ⊢
        rw [List.dropLast_concat]
        have hrest : fd ∈ rest := by
          refine (List.mem_append.mp hmem).resolve_right fun he => hlast ?_
          rw [List.mem_singleton.mp he]
          simp
        refine ⟨List.count_eq_one_of_mem hnodup.of_append_left hrest, ?_⟩
        rw [List.length_append, List.length_singleton] at hsucc
        push_cast at hsucc
        omega

end MasterSide

/-! ## What a move does to one connection -/

/-- Where a thread goes with a connection by its move from `s` to `s'`. -/
inductive Attends (s s' : Server) : Pc → Pc → Prop
  | free {pc pc' : Pc} :
      pc'.connection = none →
      Attends s s' pc pc'
  | accepts {pc : Pc} {fd : Fd} :
      s.isOpen fd = false →
      Attends s s' pc (.handOff fd)
  | announces {fd : Fd} :
      Attends s s' (.handOff fd) (.announce fd)
  | takes {pc : Pc} {i : Nat} {fd : Fd} :
      fd ∈ (s.pipe i).items →
      Attends s s' pc (.opening .read i fd)
  | fails {d : Dir} {i : Nat} {fd : Fd} {p : Nat} :
      Attends s s' (.opening d i fd) (.undoing d i fd p)
  | opens {i : Nat} {fd : Fd} :
      Attends s s' (.opening .read i fd) (.opening .write i fd)
  | undoes {i : Nat} {fd : Fd} {p : Nat} :
      Attends s s' (.undoing .read i fd p) (.opening .write i fd)
  | reads {pc : Pc} {i : Nat} {fd : Fd} :
      Attends s s' pc (.recv i fd)
  | sees {pc : Pc} {i : Nat} {fd : Fd} :
      closeSeen fd s'.log = true →
      Attends s s' pc (.closing .read i fd)
  | closes {i : Nat} {fd : Fd} :
      Attends s s' (.closing .read i fd) (.closing .write i fd)
  | pushes {pc : Pc} {fd : Fd} {n : Int} {d : PackData} :
      Attends s s' pc (.pushing fd n d)

/-- The connection for which a thread has yet to try to register a direction. -/
def Pc.awaits : Dir → Pc → Option Fd
  | .read, .opening .read _ fd | .write, .opening _ _ fd
  | .write, .undoing .read _ fd _ => some fd
  | _, _ => none

section Moves

variable {cfg : Cfg} {s s' : Server} {a : Action} {fd : Fd} {t : Tid} {d : Dir} {i : Nat}

theorem attends_start
    {cb : Callback} {arg : Arg} {pc pc' : Pc}
    (h : Pc.start fd cb arg = some pc') :
    Attends s s' pc pc' := by
  cases cb <;> cases arg <;> cases h
  · exact .free rfl
  · exact .free rfl
  · exact .reads

/-- What a move does to the place of the thread that makes it. -/
theorem Move.attends
    (hmove : Move cfg s a s')
    (ha : a.thread = some t) :
    Attends s s' (s.pc t) (s'.pc t) := by
  cases hmove with
  | arrived => cases ha
  | woke => cases ha
  | handled => cases ha
  | emptied => cases ha
  | ignored _ hpc =>
      cases ha
      rw [hpc]
      exact .free rfl
  | writable _ hpc =>
      cases ha
      rw [hpc]
      exact .free (by rw [Server.note_pc, hpc]; rfl)
  | started _ _ _ _ hstart =>
      cases ha
      rw [Server.goto_pc_self]
      exact attends_start hstart
  | accepted _ _ _ _ hopen =>
      cases ha
      rw [Server.goto_pc_self]
      exact .accepts hopen
  | handedOff _ hpc =>
      cases ha
      rw [Server.goto_pc_self, hpc]
      exact .announces
  | handOffFailed _ hpc =>
      cases ha
      rw [Server.goto_pc_self, hpc]
      exact .announces
  | pipeTaken _ _ hitems =>
      cases ha
      rw [Server.goto_pc_self]
      exact .takes (hitems ▸ List.mem_cons_self)
  | @opened _ _ d _ _ _ _ _ hpc =>
      cases ha
      rw [Server.goto_pc_self, hpc]
      cases d with
      | read => exact .opens
      | write => exact .free rfl
  | openFailed _ hpc =>
      cases ha
      rw [Server.goto_pc_self, hpc]
      exact .fails
  | @undone _ _ d _ _ _ _ _ hpc =>
      cases ha
      rw [Server.goto_pc_self, hpc]
      cases d with
      | read => exact .undoes
      | write => exact .free rfl
  | @received _ env i fd =>
      cases ha
      rw [Server.goto_pc_self]
      rcases Pc.received_cases i fd env.recv with ⟨hn, h⟩ | ⟨-, h⟩ | ⟨-, -, h⟩
      · rw [h]
        refine .sees (closeSeen_iff.mpr ⟨packed fd env.recv, ?_⟩)
        rw [Server.goto_log, Server.note_log, hn]
        exact List.mem_append_right _ List.mem_cons_self
      · rw [h]
        exact .free rfl
      · rw [h]
        exact .pushes
  | @closedNone _ _ d _ _ _ hpc =>
      cases ha
      rw [Server.goto_pc_self, hpc]
      cases d with
      | read => exact .closes
      | write => exact .pushes
  | @closed _ _ d _ _ _ _ _ _ hpc =>
      cases ha
      rw [Server.goto_pc_self, hpc]
      cases d with
      | read => exact .closes
      | write => exact .pushes
  | _ =>
      cases ha
      exact .free (by rw [Server.goto_pc_self]; rfl)

/-- The master goes to the hand-off of a connection only from its `accept`. -/
theorem Move.handOff
    (hmove : Move cfg s a s')
    (hpc : s'.pc t = .handOff fd) :
    s.pc t = .handOff fd ∨ s.isOpen fd = false := by
  by_cases ha : a.thread = some t
  · have hattends := hmove.attends ha
    rw [hpc] at hattends
    generalize s.pc t = pc at hattends
    cases hattends with
    | free hnone => cases hnone
    | accepts hopen => exact .inr hopen
  · rw [hmove.pc_other ha] at hpc
    exact .inl hpc

/-- A thread comes to register a connection only from its pipe. -/
theorem Move.awaits
    (hmove : Move cfg s a s')
    (hpc : (s'.pc t).awaits d = some fd) :
    (s.pc t).awaits d = some fd ∨ ∃ i, fd ∈ (s.pipe i).items := by
  by_cases ha : a.thread = some t
  · have hattends := hmove.attends ha
    generalize s.pc t = pc at hattends ⊢
    generalize s'.pc t = pc' at hattends hpc
    cases hattends with
    | free hnone => cases d <;> cases pc' <;> cases hnone <;> cases hpc
    | takes hmem => cases d <;> cases hpc <;> exact .inr ⟨_, hmem⟩
    | @fails d' i fd' p =>
        cases d <;> cases d' <;> cases hpc
        exact .inl rfl
    | opens =>
        cases d <;> cases hpc
        exact .inl rfl
    | undoes =>
        cases d <;> cases hpc
        exact .inl rfl
    | _ => cases d <;> cases hpc
  · rw [hmove.pc_other ha] at hpc
    exact .inl hpc

/-- A thread closes a connection only after its close was seen. -/
theorem Move.closes
    (hmove : Move cfg s a s')
    (hpc : (s'.pc t).closes = some fd) :
    (s.pc t).closes = some fd ∨ closeSeen fd s'.log = true := by
  by_cases ha : a.thread = some t
  · have hattends := hmove.attends ha
    generalize s.pc t = pc at hattends ⊢
    generalize s'.pc t = pc' at hattends hpc
    cases hattends with
    | free hnone => cases pc' <;> cases hnone <;> cases hpc
    | sees hseen =>
        cases hpc
        exact .inr hseen
    | closes =>
        cases hpc
        exact .inl rfl
    | _ => cases hpc
  · rw [hmove.pc_other ha] at hpc
    exact .inl hpc

/-- A descriptor stays in a pipe until the reactor takes it. -/
theorem Move.pipe_leaves
    (horderly : Orderly cfg s)
    (hmove : Move cfg s a s')
    (hmem : fd ∈ (s.pipe i).items) :
    fd ∈ (s'.pipe i).items ∨ s'.pc (.reactor i) = .opening .read i fd := by
  cases hmove with
  | waited => exact .inl (by simpa using hmem)
  | @handedOff _ _ fd' =>
      left
      dsimp only [Server.goto]
      by_cases hi : i = cfg.reactorOf fd'
      · subst hi
        rw [update_self, Source.arrive_items]
        exact List.mem_append_left _ hmem
      · rwa [update_of_ne hi]
  | @pipeTaken t _ j fd' rest _ hpc hitems =>
      have ht : t = .reactor j := by
        have hacts := horderly.acts t
        rwa [hpc] at hacts
      subst ht
      by_cases hi : i = j
      · subst hi
        rw [hitems] at hmem
        rcases List.mem_cons.mp hmem with rfl | hmem
        · exact .inr Server.goto_pc_self
        · left
          dsimp only [Server.goto]
          rwa [update_self, Source.leave_items]
      · left
        dsimp only [Server.goto]
        rwa [update_of_ne hi]
  | _ => exact .inl hmem

/-- It comes into one from the master. -/
theorem Move.pipe_enters
    (halone : MasterAlone cfg s)
    (hmove : Move cfg s a s')
    (hmem : fd ∈ (s'.pipe i).items) :
    fd ∈ (s.pipe i).items ∨ s.pc .master = .handOff fd := by
  cases hmove with
  | waited => exact .inl (by simpa using hmem)
  | handedOff _ hpc =>
      obtain rfl := halone.eq_master hpc rfl
      rcases mem_update_arrive hmem with hold | ⟨-, rfl⟩
      · exact .inl hold
      · exact .inr hpc
  | pipeTaken _ _ hitems => exact .inl (mem_update_leave hitems hmem)
  | _ => exact .inl hmem

/-- An event stays registered until the connection is closed. -/
theorem Move.slot_leaves
    (htables : Tables s.events)
    (hmove : Move cfg s a s')
    (hslot : s.events.slot (.reactor i) d fd ≠ none) :
    s'.events.slot (.reactor i) d fd ≠ none ∨ ∃ t, (s.pc t).closes = some fd := by
  have hopened : ∀ {t d' e p ret E}, Opened s.events t d' e p ret E →
      E.slot (.reactor i) d fd ≠ none := by
    intro t d' e p ret E hop
    rw [hop.slot]
    split
    · simp
    · exact hslot
  cases hmove with
  | booted _ _ hop => exact .inl (hopened hop)
  | waited _ _ _ hcol => exact .inl (hcol.slot _ _ _ ▸ hslot)
  | ignored _ _ htk => exact .inl (htk.slot _ _ _ ▸ hslot)
  | started _ _ htk => exact .inl (htk.slot _ _ _ ▸ hslot)
  | writable _ _ htk => exact .inl (htk.slot _ _ _ ▸ hslot)
  | opened _ _ hop => exact .inl (hopened hop)
  | openFailed _ _ hop => exact .inl (hopened hop)
  | undone _ _ hput =>
      left
      rw [Server.goto_events]
      simpa only [EventState.slot, hput.base] using hslot
  | @closed t _ d' j fd' p granted events _ hpc hold hcl =>
      by_cases hj : Tid.reactor i = .reactor j
      · cases hj
        rw [Server.goto_events, hcl.slot d' (htables.isFor _ _ _ _ hold)]
        split
        · rename_i hc
          refine .inr ⟨t, ?_⟩
          have hfd : fd' = fd := by
            have hev := htables.fd _ _ _ _ hold
            exact Fin.ext (by omega)
          rw [hpc, hfd]
          rfl
        · exact .inl hslot
      · left
        rw [Server.goto_events, hcl.other _ hj]
        exact hslot
  | _ => exact .inl hslot

/-- The event of a connection is registered by its reactor. -/
theorem Move.slot_enters
    (hfd : cfg.opened fd = false)
    (horderly : Orderly cfg s)
    (hmove : Move cfg s a s')
    (hslot : s'.events.slot (.reactor i) d fd ≠ none) :
    s.events.slot (.reactor i) d fd ≠ none ∨
      s.pc (.reactor i) = .opening d i fd ∧ s'.pc (.reactor i) = .opened i fd d := by
  cases hmove with
  | @booted t _ p events hrun _ hop =>
      rw [Server.goto_events, hop.slot] at hslot
      split at hslot
      · rename_i hc
        have hopened : cfg.opened (bootEvent cfg t).fd = true := by
          cases t with
          | master => exact cfg.sfd_opened
          | reactor i => exact cfg.pipe_opened i hrun
        rw [← Fin.ext hc.2.2.2.1, hfd] at hopened
        cases hopened
      · exact .inl hslot
  | waited _ _ _ hcol => exact .inl (hcol.slot _ _ _ ▸ hslot)
  | ignored _ _ htk => exact .inl (htk.slot _ _ _ ▸ hslot)
  | started _ _ htk => exact .inl (htk.slot _ _ _ ▸ hslot)
  | writable _ _ htk => exact .inl (htk.slot _ _ _ ▸ hslot)
  | @opened t _ d' j fd' p events _ hpc hop =>
      rw [Server.goto_events, hop.slot] at hslot
      split at hslot
      · rename_i hc
        obtain ⟨-, ⟨⟩, rfl, he, -⟩ := hc
        obtain rfl : fd = fd' := Fin.ext he
        obtain rfl : t = .reactor i := by
          have hacts := horderly.acts t
          rwa [hpc] at hacts
        exact .inr ⟨hpc, Server.goto_pc_self⟩
      · exact .inl hslot
  | openFailed _ _ hop =>
      rw [Server.goto_events, hop.slot, if_neg fun hc => by simp at hc] at hslot
      exact .inl hslot
  | undone _ _ hput =>
      rw [Server.goto_events] at hslot
      simp only [EventState.slot, hput.base] at hslot
      exact .inl hslot
  | closed _ _ _ hcl =>
      obtain ⟨p, hp⟩ := Option.ne_none_iff_exists'.mp hslot
      exact .inl (by rw [hcl.subset _ _ _ _ hp]; simp)
  | _ => exact .inl hslot

/-- Connections are closed by the threads only after their close was seen. -/
theorem closeSeen_of_closes
    {good : Server → Action → Prop}
    (hreach : Reach (step cfg) good (ebSrvNew cfg) s)
    (hpc : (s.pc t).closes = some fd) :
    closeSeen fd s.log = true := by
  refine hreach.invariant
    (I := fun s => ∀ t fd, (s.pc t).closes = some fd → closeSeen fd s.log = true)
    (fun _ _ => nofun) ?_ t fd hpc
  intro s a s' h _ hstep t fd hpc
  have hmove := step_move hstep
  rcases hmove.closes hpc with hold | hseen
  · exact hmove.keeps_closeSeen (h t fd hold)
  · exact hseen

/-- A connection is accepted, or was before. -/
theorem Move.accepted_or
    (halone : MasterAlone cfg s)
    (hmove : Move cfg s a s')
    (hacc : Accepted s'.log fd) :
    Accepted s.log fd ∨ s'.pc .master = .handOff fd := by
  rw [← mem_acceptedOf] at hacc ⊢
  cases hmove.admits halone with
  | nothing haccepted => exact .inl (haccepted ▸ hacc)
  | accepted _ _ _ haccepted _ hpc =>
      rw [haccepted] at hacc
      refine (List.mem_append.mp hacc).imp_right fun hlast => ?_
      rw [hpc, List.mem_singleton.mp hlast]
  | announced _ _ haccepted => exact .inl (haccepted ▸ hacc)

/-- A thread that is not before its `epoll_wait` moves by taking a step. -/
theorem Move.run_of_thread
    (hmove : Move cfg s a s')
    (ha : a.thread = some t)
    (hpc : s.pc t ≠ .idle) :
    ∃ env, a = .run t env := by
  cases a with
  | arrive => cases ha
  | wait t' reports =>
      cases ha
      cases hmove with
      | waited _ hidle => exact absurd hidle hpc
  | run t' env =>
      cases ha
      exact ⟨env, rfl⟩
  | work => cases ha

end Moves

/-! ## When no step fails -/

/-- How far the hand-off of a connection has come. -/
inductive Stage (cfg : Cfg) (fd : Fd) (s : Server) : Prop
  | handOff :
      s.pc .master = .handOff fd →
      Stage cfg fd s
  | inPipe :
      fd ∈ (s.pipe (cfg.reactorOf fd)).items →
      Stage cfg fd s
  | opening :
      s.pc (.reactor (cfg.reactorOf fd)) = .opening .read (cfg.reactorOf fd) fd →
      Stage cfg fd s
  | half :
      s.events.slot (.reactor (cfg.reactorOf fd)) .read fd ≠ none →
      s.pc (.reactor (cfg.reactorOf fd)) = .opening .write (cfg.reactorOf fd) fd →
      Stage cfg fd s
  | full :
      (∀ d, s.events.slot (.reactor (cfg.reactorOf fd)) d fd ≠ none) →
      Stage cfg fd s
  | closed :
      closeSeen fd s.log = true →
      Stage cfg fd s

section Success

variable {cfg : Cfg} {s s' : Server} {a : Action} {fd : Fd} {env : Env} {d : Dir}

/-- The step by which the master writes to the pipe. -/
theorem step_handOff
    (hpc : s.pc .master = .handOff fd) :
    step cfg s (.run .master env) =
      .ok (acceptHandOff cfg s .master fd env.pipeOk) := by
  refine bind_eq_ok.mpr ⟨(), require_eq_ok.mpr trivial, ?_⟩
  unfold runThread
  rw [hpc]

/-- A move that does not fail, while the reactor is about to register the
connection for a direction. -/
theorem opening_step
    (hbases : BasesMirror s.events)
    (hpc : s.pc (.reactor (cfg.reactorOf fd)) = .opening d (cfg.reactorOf fd) fd)
    (hgood : HandsOver fd s a)
    (hstep : step cfg s a = .ok s') :
    s'.pc (.reactor (cfg.reactorOf fd)) = .opening d (cfg.reactorOf fd) fd ∨
      s'.pc (.reactor (cfg.reactorOf fd)) = .opened (cfg.reactorOf fd) fd d ∧
        s'.events.slot (.reactor (cfg.reactorOf fd)) d fd ≠ none := by
  have hmove := step_move hstep
  by_cases ha : a.thread = some (.reactor (cfg.reactorOf fd))
  · obtain ⟨env, rfl⟩ := hmove.run_of_thread ha (by rw [hpc]; nofun)
    dsimp only [HandsOver] at hgood
    rw [hpc] at hgood
    exact .inr ((hbases.opens hpc hstep).1 (hgood rfl))
  · exact .inl ((hmove.pc_other ha).trans hpc)

theorem Stage.of_slots
    (hread : s.events.slot (.reactor (cfg.reactorOf fd)) .read fd ≠ none)
    (hwrite : s.events.slot (.reactor (cfg.reactorOf fd)) .write fd ≠ none) :
    Stage cfg fd s := by
  refine .full fun d => ?_
  cases d with
  | read => exact hread
  | write => exact hwrite

/-- One step that does not fail. -/
theorem Stage.step
    (h : Stage cfg fd s)
    (horderly : Orderly cfg s)
    (hbases : BasesMirror s.events)
    (hcloses : ∀ t, (s.pc t).closes = some fd → closeSeen fd s.log = true)
    (hgood : HandsOver fd s a)
    (hstep : step cfg s a = .ok s') :
    Stage cfg fd s' := by
  have hmove := step_move hstep
  have hleaves : ∀ d, s.events.slot (.reactor (cfg.reactorOf fd)) d fd ≠ none →
      s'.events.slot (.reactor (cfg.reactorOf fd)) d fd ≠ none ∨
        closeSeen fd s'.log = true := by
    intro d hslot
    rcases hmove.slot_leaves horderly.tables hslot with hkeep | ⟨t, hpc⟩
    · exact .inl hkeep
    · exact .inr (hmove.keeps_closeSeen (hcloses t hpc))
  cases h with
  | handOff hpc =>
      by_cases ha : a.thread = some .master
      · obtain ⟨env, rfl⟩ := hmove.run_of_thread ha (by rw [hpc]; nofun)
        dsimp only [HandsOver] at hgood
        rw [hpc] at hgood
        rw [step_handOff hpc, hgood rfl] at hstep
        cases hstep
        refine .inPipe ?_
        unfold acceptHandOff
        dsimp only [Server.goto]
        rw [if_pos rfl, update_self, Source.arrive_items]
        exact List.mem_append_right _ List.mem_cons_self
      · exact .handOff ((hmove.pc_other ha).trans hpc)
  | inPipe hmem =>
      rcases hmove.pipe_leaves horderly hmem with hkeep | hpc
      · exact .inPipe hkeep
      · exact .opening hpc
  | opening hpc =>
      rcases opening_step hbases hpc hgood hstep with hkeep | ⟨hpc', hread⟩
      · exact .opening hkeep
      · exact .half hread hpc'
  | half hread hpc =>
      rcases hleaves .read hread with hread' | hseen
      · rcases opening_step hbases hpc hgood hstep with hkeep | ⟨-, hwrite⟩
        · exact .half hread' hkeep
        · exact .of_slots hread' hwrite
      · exact .closed hseen
  | full hslot =>
      rcases hleaves .read (hslot .read) with hread | hseen
      · rcases hleaves .write (hslot .write) with hwrite | hseen
        · exact .of_slots hread hwrite
        · exact .closed hseen
      · exact .closed hseen
  | closed hseen => exact .closed (hmove.keeps_closeSeen hseen)

/-- In every run in which the steps of its hand-off do not fail a connection is at
some stage of it. -/
theorem stage_of_reach
    (hreach : Reach (Ebot.step cfg) (fun s a => RemovalsGranted s a ∧ HandsOver fd s a)
      (ebSrvNew cfg) s)
    (hacc : Accepted s.log fd) :
    Stage cfg fd s := by
  have hgranted : ∀ s a, RemovalsGranted s a ∧ HandsOver fd s a → RemovalsGranted s a :=
    fun _ _ h => h.1
  refine hreach.invariant_of
    (J := fun s => MasterAlone cfg s ∧ Orderly cfg s ∧ BasesMirror s.events ∧
      ∀ t, (s.pc t).closes = some fd → closeSeen fd s.log = true)
    (I := fun s => Accepted s.log fd → Stage cfg fd s)
    (fun s hr => ⟨masterAlone_of_reach hr, orderly_of_reach hgranted hr,
      basesMirror_of_reach hgranted hr, fun t hpc => closeSeen_of_closes hr hpc⟩)
    (fun hacc => by cases hacc) ?_ hacc
  rintro s a s' ⟨halone, horderly, hbases, hcloses⟩ - h ⟨-, hgood⟩ hstep hacc'
  rcases (step_move hstep).accepted_or halone hacc' with hold | hpc
  · exact (h hold).step horderly hbases hcloses hgood hstep
  · exact .handOff hpc

/-- Then the connection is set up once the threads have finished with it. -/
theorem setUp_of_reach
    (hreach : Reach (Ebot.step cfg) (fun s a => RemovalsGranted s a ∧ HandsOver fd s a)
      (ebSrvNew cfg) s)
    (hacc : Accepted s.log fd)
    (hdone : HandedOver cfg fd s)
    (hopen : closeSeen fd s.log = false) :
    SetUp cfg fd s := by
  have hmaster := masterSide_of_reach hreach
  have hregistered : ∀ d, s.events.slot (.reactor (cfg.reactorOf fd)) d fd ≠ none := by
    cases stage_of_reach hreach hacc with
    | handOff hpc => exact absurd (by rw [hpc]; rfl) (hmaster.not_unannounced hdone)
    | inPipe hmem => exact absurd hmem hdone.pipe
    | opening hpc => exact absurd (by rw [hpc]; rfl) hdone.reactor
    | half _ hpc => exact absurd (by rw [hpc]; rfl) hdone.reactor
    | full hslot => exact hslot
    | closed hseen =>
        rw [hopen] at hseen
        cases hseen
  have horderly : Orderly cfg s := orderly_of_reach (fun _ _ h => h.1) hreach
  obtain ⟨hcounted, htotal⟩ := hmaster.count_counted (counted_of_reach hreach) hacc hdone
  refine ⟨fun d => ?_, hmaster.count_connects hacc hdone, hcounted, htotal⟩
  obtain ⟨p, hp⟩ := Option.ne_none_iff_exists'.mp (hregistered d)
  exact ⟨p, hp, (descriptors_of_reach hreach).registered horderly.tables
    (filled_of_reach hreach) hacc hp⟩

end Success

/-! ## After a step that fails -/

/-- The master and the pipes are done with an accepted connection. -/
structure Past (fd : Fd) (s : Server) : Prop where
  accepted : Accepted s.log fd
  master : s.pc .master ≠ .handOff fd
  pipe : ∀ i, fd ∉ (s.pipe i).items

/-- The connection will not be registered for the direction any more. -/
structure Missed (cfg : Cfg) (d : Dir) (fd : Fd) (s : Server) : Prop where
  past : Past fd s
  reactor : (s.pc (.reactor (cfg.reactorOf fd))).awaits d ≠ some fd
  slot : s.events.slot (.reactor (cfg.reactorOf fd)) d fd = none

/-- It comes to the registration of its write event once. -/
structure WriteOnce (cfg : Cfg) (fd : Fd) (s : Server) : Prop where
  opening : s.pc (.reactor (cfg.reactorOf fd)) = .opening .write (cfg.reactorOf fd) fd →
    Past fd s
  registered : s.events.slot (.reactor (cfg.reactorOf fd)) .write fd ≠ none →
    Past fd s ∧ (s.pc (.reactor (cfg.reactorOf fd))).awaits .write ≠ some fd

section Failure

variable {cfg : Cfg} {s s' s₁ s₂ : Server} {a : Action} {fd : Fd} {env : Env} {d : Dir}
variable {pc : Pc}

theorem Pc.awaits_of_opening
    (hpc : pc = .opening d (cfg.reactorOf fd) fd) :
    pc.awaits d = some fd := by
  rw [hpc]
  cases d <;> rfl

theorem Pc.registers_of_awaits
    (h : pc.awaits .read = some fd) :
    pc.registers = some fd := by
  cases pc with
  | opening d =>
      cases d with
      | read => exact h
      | write => cases h
  | _ => cases h

/-- What is behind the pipes stays there: no open descriptor is accepted. -/
theorem Past.move
    (h : Past fd s)
    (halone : MasterAlone cfg s)
    (hdesc : Descriptors cfg s)
    (hmove : Move cfg s a s') :
    Past fd s' := by
  obtain ⟨notes, hlog⟩ := hmove.log_append
  refine ⟨hlog ▸ h.accepted.append, fun hpc => ?_, fun i hmem => ?_⟩
  · rcases hmove.handOff hpc with hold | hopen
    · exact h.master hold
    · rw [(hdesc.accepted fd h.accepted).2] at hopen
      cases hopen
  · rcases hmove.pipe_enters halone hmem with hold | hpc
    · exact h.pipe i hold
    · exact h.master hpc

/-- A thread does not come to register it either. -/
theorem Past.not_awaits
    {t : Tid}
    (h : Past fd s)
    (hpc : (s.pc t).awaits d ≠ some fd)
    (hmove : Move cfg s a s') :
    (s'.pc t).awaits d ≠ some fd := by
  intro hpc'
  rcases hmove.awaits hpc' with hold | ⟨i, hmem⟩
  · exact hpc hold
  · exact h.pipe i hmem

theorem Missed.move
    (h : Missed cfg d fd s)
    (halone : MasterAlone cfg s)
    (horderly : Orderly cfg s)
    (hdesc : Descriptors cfg s)
    (hmove : Move cfg s a s') :
    Missed cfg d fd s' := by
  refine ⟨h.past.move halone hdesc hmove, h.past.not_awaits h.reactor hmove, ?_⟩
  by_contra hslot
  have hfd := (hdesc.accepted fd h.past.accepted).1
  rcases hmove.slot_enters hfd horderly hslot with hold | ⟨hpc, -⟩
  · exact hold h.slot
  · exact h.reactor (Pc.awaits_of_opening hpc)

/-- A connection that is handed off or being registered for reading is in no pipe
and not registered. -/
theorem OnePlace.elsewhere
    (h : OnePlace cfg fd s)
    (hdesc : Descriptors cfg s)
    (hthread : 1 ≤ handing fd (s.pc .master) +
      registering fd (s.pc (.reactor (cfg.reactorOf fd)))) :
    (∀ i, fd ∉ (s.pipe i).items) ∧
      s.events.slot (.reactor (cfg.reactorOf fd)) .read fd = none := by
  have hone := h.one
  unfold places at hone
  constructor
  · intro i hmem
    obtain ⟨-, rfl⟩ := hdesc.pipe i fd hmem
    have hcount := List.count_pos_iff.mpr hmem
    omega
  · by_contra hslot
    have hregistered :
        registered (s.events.slot (.reactor (cfg.reactorOf fd)) .read fd) = 1 :=
      if_neg hslot
    omega

/-- It is handed off or being registered, not both. -/
theorem OnePlace.handOff_or_registers
    (h : OnePlace cfg fd s)
    (hmaster : s.pc .master = .handOff fd) :
    (s.pc (.reactor (cfg.reactorOf fd))).registers ≠ some fd := by
  intro hreactor
  have hhanding : handing fd (s.pc .master) = 1 := by
    rw [hmaster]
    exact if_pos rfl
  have hregistering : registering fd (s.pc (.reactor (cfg.reactorOf fd))) = 1 :=
    if_pos hreactor
  have hone := h.one
  unfold places at hone
  omega

/-- Being registered for reading, a connection is behind the pipes. -/
theorem OnePlace.past
    (h : OnePlace cfg fd s)
    (hdesc : Descriptors cfg s)
    (hacc : Accepted s.log fd)
    (hpc : (s.pc (.reactor (cfg.reactorOf fd))).registers = some fd) :
    Past fd s ∧ s.events.slot (.reactor (cfg.reactorOf fd)) .read fd = none := by
  have hregistering : registering fd (s.pc (.reactor (cfg.reactorOf fd))) = 1 := if_pos hpc
  obtain ⟨hpipe, hslot⟩ := h.elsewhere hdesc (by omega)
  exact ⟨⟨hacc, fun hmaster => h.handOff_or_registers hmaster hpc, hpipe⟩, hslot⟩

theorem writeOnce_ebSrvNew : WriteOnce cfg fd (ebSrvNew cfg) where
  opening := nofun
  registered := fun h => absurd rfl h

/-- One move. -/
theorem WriteOnce.move
    (h : WriteOnce cfg fd s)
    (hfd : cfg.opened fd = false)
    (halone : MasterAlone cfg s)
    (horderly : Orderly cfg s)
    (hdesc : Descriptors cfg s)
    (hplace : OnePlace cfg fd s)
    (hmove : Move cfg s a s') :
    WriteOnce cfg fd s' := by
  constructor
  · intro hpc
    refine Past.move ?_ halone hdesc hmove
    by_cases ha : a.thread = some (.reactor (cfg.reactorOf fd))
    · -- it comes from the registration of the read event
      have hattends := hmove.attends ha
      have hconnection : Accepted s.log fd ∧
          (s.pc (.reactor (cfg.reactorOf fd))).registers = some fd := by
        rw [hpc] at hattends
        generalize hold : s.pc (.reactor (cfg.reactorOf fd)) = pc at hattends
        cases hattends with
        | free hnone => cases hnone
        | opens => exact ⟨hdesc.at_connection hold rfl, rfl⟩
        | undoes => exact ⟨hdesc.at_connection hold rfl, rfl⟩
      exact (hplace.past hdesc hconnection.1 hconnection.2).1
    · exact h.opening ((hmove.pc_other ha).symm.trans hpc)
  · intro hslot
    rcases hmove.slot_enters hfd horderly hslot with hold | ⟨hpc, hpc'⟩
    · obtain ⟨hpast, hpc⟩ := h.registered hold
      exact ⟨hpast.move halone hdesc hmove, hpast.not_awaits hpc hmove⟩
    · refine ⟨(h.opening hpc).move halone hdesc hmove, ?_⟩
      rw [hpc']
      nofun

/-- What the proofs below use of a state that a run with the removals granted
reaches. -/
structure Regular (cfg : Cfg) (s : Server) : Prop where
  alone : MasterAlone cfg s
  orderly : Orderly cfg s
  desc : Descriptors cfg s
  bases : BasesMirror s.events

theorem regular_of_reach
    (hreach : Reach (step cfg) RemovalsGranted (ebSrvNew cfg) s) :
    Regular cfg s where
  alone := masterAlone_of_reach hreach
  orderly := orderly_of_reach (fun _ _ h => h) hreach
  desc := descriptors_of_reach hreach
  bases := basesMirror_of_reach (fun _ _ h => h) hreach

theorem writeOnce_of_reach
    (hfd : cfg.opened fd = false)
    (hreach : Reach (step cfg) RemovalsGranted (ebSrvNew cfg) s) :
    WriteOnce cfg fd s := by
  refine hreach.invariant_of (J := fun s => Regular cfg s ∧ OnePlace cfg fd s)
    (fun s hr => ⟨regular_of_reach hr, onePlace_of_reach hfd (fun _ _ h => h) hr⟩)
    writeOnce_ebSrvNew ?_
  rintro s a s' ⟨hregular, hplace⟩ - h - hstep
  exact h.move hfd hregular.alone hregular.orderly hregular.desc hplace (step_move hstep)

/-- A step of the hand-off that fails: an event of the connection is missed. -/
theorem missed_of_step
    (hreach : Reach (step cfg) RemovalsGranted (ebSrvNew cfg) s)
    (hbad : ¬ HandsOver fd s a)
    (hstep : step cfg s a = .ok s') :
    ∃ d, Missed cfg d fd s' := by
  have hregular := regular_of_reach hreach
  have hdesc := hregular.desc
  have hmove := step_move hstep
  cases a with
  | arrive => exact absurd trivial hbad
  | wait t reports => exact absurd trivial hbad
  | work u stack => exact absurd trivial hbad
  | run t env =>
      dsimp only [HandsOver] at hbad
      split at hbad
      · rename_i fd' hpc
        obtain ⟨rfl, hfail⟩ := Classical.not_imp.mp hbad
        obtain rfl := hregular.alone.eq_master hpc rfl
        have hacc := hdesc.at_connection hpc rfl
        have hplace : OnePlace cfg fd' s :=
          onePlace_of_reach (hdesc.accepted fd' hacc).1 (fun _ _ h => h) hreach
        have hhanding : handing fd' (s.pc .master) = 1 := by
          rw [hpc]
          exact if_pos rfl
        obtain ⟨hpipe, hslot⟩ := hplace.elsewhere hdesc (by omega)
        have hregisters := hplace.handOff_or_registers hpc
        rw [step_handOff hpc] at hstep
        cases hstep
        unfold acceptHandOff
        dsimp only
        rw [if_neg hfail]
        refine ⟨.read, ⟨hacc, ?_, hpipe⟩, ?_, hslot⟩
        · rw [Server.goto_pc_self]
          nofun
        · rw [Server.goto_pc, update_of_ne (by simp)]
          exact fun h => hregisters (Pc.registers_of_awaits h)
      · rename_i d i fd' hpc
        obtain ⟨rfl, hfail⟩ := Classical.not_imp.mp hbad
        obtain ⟨hacc, rfl⟩ := hdesc.at_index hpc rfl rfl
        obtain rfl : t = .reactor (cfg.reactorOf fd') := by
          have hacts := hregular.orderly.acts t
          rwa [hpc] at hacts
        have hfd := (hdesc.accepted fd' hacc).1
        have hplace : OnePlace cfg fd' s := onePlace_of_reach hfd (fun _ _ h => h) hreach
        have hbefore : Past fd' s ∧
            s.events.slot (.reactor (cfg.reactorOf fd')) d fd' = none := by
          cases d with
          | read => exact hplace.past hdesc hacc (by rw [hpc]; rfl)
          | write =>
              have hwrite := writeOnce_of_reach hfd hreach
              refine ⟨hwrite.opening hpc, ?_⟩
              by_contra hslot
              exact (hwrite.registered hslot).2 (Pc.awaits_of_opening hpc)
        obtain ⟨hpc', hslot⟩ := (hregular.bases.opens hpc hstep).2 hfail
        refine ⟨d, hbefore.1.move hregular.alone hdesc hmove, ?_, ?_⟩
        · rcases hpc' with hpc' | ⟨p, hpc'⟩
          · rw [hpc']
            cases d <;> nofun
          · rw [hpc']
            cases d <;> nofun
        · rw [hslot]
          exact hbefore.2
      · exact absurd trivial hbad

/-- From then on it stays missed. -/
theorem missed_of_reach
    (hreach : Reach (step cfg) RemovalsGranted (ebSrvNew cfg) s₁)
    (hmissed : Missed cfg d fd s₁)
    (hrun : Reach (step cfg) RemovalsGranted s₁ s₂) :
    Missed cfg d fd s₂ := by
  refine hrun.invariant_of (J := Regular cfg) (I := Missed cfg d fd)
    (fun s hr => regular_of_reach (hreach.trans hr)) hmissed ?_
  intro s a s' hregular _ h _ hstep
  exact h.move hregular.alone hregular.orderly hregular.desc (step_move hstep)

end Failure

/-- The master's next step; a write to a pipe fails. -/
def Small.brokenPipe : Action := .run .master { Small.env with pipeOk := false }

section Result

/-- The threads have finished with an accepted and open connection. -/
def Small.finished (fd : Fd) (s : Server) : Bool :=
  decide (fd ∈ acceptedOf s.log) && decide (HandedOver Small.cfg fd s) &&
    !closeSeen fd s.log

theorem Small.finished_iff
    {fd : Fd} {s : Server} :
    Small.finished fd s = true ↔
      Accepted s.log fd ∧ HandedOver Small.cfg fd s ∧ closeSeen fd s.log = false := by
  unfold Small.finished
  simp only [Bool.and_eq_true, decide_eq_true_eq, Bool.not_eq_true', mem_acceptedOf,
    and_assoc]

end Result

end Ebot

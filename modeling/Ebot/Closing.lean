import Ebot.Library.History
import Ebot.Lifetime
import Ebot.Places
import Ebot.Reception

/-!
# What `EB_CLOSE` means

A packet of length 0 is the notice that the peer has closed, and the worker
makes an `EB_CLOSE` callback of it.  The read callback also pushes a packet of
length 0 when `recv` would have blocked, so `EB_CLOSE` means closed only where
that does not happen.
-/

namespace Ebot

open Function EdgeSource EventState Transition History

/-- `EB_CLOSE` has been called for the descriptor. -/
def ClosedFor (fd : Fd) (log : List Note) : Prop :=
  ∃ (c : Caller) (stream : EbStream),
    .called c .EB_CLOSE stream ∈ log ∧ stream.fd = (fd : Nat)

/-- `EB_CLOSE` is called for the descriptor only after its close was seen, and
neither `EB_CLOSE` nor `EB_RECV` after it. -/
def CloseMeansClosed (fd : Fd) (log : List Note) : Prop :=
  Always (fun past x => ∀ (c : Caller) (e : EbEvent) (stream : EbStream),
    x = .called c e stream → stream.fd = (fd : Nat) →
      (e = .EB_CLOSE → closeSeen fd past = true) ∧
      (e = .EB_CLOSE ∨ e = .EB_RECV → ¬ ClosedFor fd past)) log

/-- Every push finds room, no `recv` would block, and the close path removes only
events that are not queued, with the kernel's consent. -/
def ReadsConclude (cfg : Cfg) (s : Server) (a : Action) : Prop :=
  ClosesUnqueued s a ∧
    match a with
    | .run t env =>
        match s.pc t with
        | .recv _ _ => env.recv ≠ .wouldBlock
        | .pushing fd _ _ => (s.units (cfg.unitOf fd)).rq.num ≤ 72
        | _ => True
    | _ => True

instance (cfg : Cfg) (s : Server) : DecidablePred (ReadsConclude cfg s)
  | .run t _ => by
      dsimp only [ReadsConclude]
      generalize s.pc t = pc
      rcases pc <;> infer_instance
  | .arrive | .wait _ _ | .work _ _ => inferInstanceAs (Decidable (ClosesUnqueued s _ ∧ True))

/-- The ring of the unit has room for a packet at every push. -/
def FindsRoom (cfg : Cfg) (s : Server) : Action → Prop
  | .run t _ =>
      match s.pc t with
      | .pushing fd _ _ => (s.units (cfg.unitOf fd)).rq.num ≤ 72
      | _ => True
  | _ => True

instance (cfg : Cfg) (s : Server) : DecidablePred (FindsRoom cfg s)
  | .run t _ => by
      dsimp only [FindsRoom]
      generalize s.pc t = pc
      rcases pc <;> infer_instance
  | .arrive | .wait _ _ | .work _ _ => isTrue trivial

theorem ReadsConclude.findsRoom
    {cfg : Cfg} {s : Server} {a : Action}
    (h : ReadsConclude cfg s a) :
    FindsRoom cfg s a := by
  cases a with
  | run t env =>
      obtain ⟨-, h⟩ := h
      cases hpc : s.pc t with
      | pushing fd n d =>
          simp only [hpc] at h
          simp only [FindsRoom, hpc]
          exact h
      | _ => simp [FindsRoom, hpc]
  | _ => trivial

/-! ## What is pushed -/

/-- No packet stands for a `readn` that returned 0. -/
structure NoZero (s : Server) : Prop where
  pcs : ∀ t fd n d, s.pc t = .pushing fd n d → n ≠ 0
  pushed : ∀ u fd n d, .pushed u fd n d ∈ s.log → n ≠ 0

/-- The entry neither was read from a socket nor comes from a worker. -/
def Note.fromMaster : Note → Bool
  | .received .. | .handled .. | .called _ .EB_CLOSE _ | .called _ .EB_RECV _ => false
  | .accepted _ | .rejected _ | .pushed .. | .refused .. | .called _ .EB_CONNECT _
  | .called _ .EB_WRITE _ => true

section Pushes

variable {cfg : Cfg} {s s' : Server} {a : Action} {t : Tid} {fd : Fd}

theorem noZero_ebSrvNew : NoZero (ebSrvNew cfg) where
  pcs := by
    intro t fd n d h
    cases h
  pushed := by
    intro u fd n d h
    cases h

/-- Steps that push nothing. -/
theorem NoZero.keep
    {notes : List Note}
    (h : NoZero s)
    (hlog : s'.log = s.log ++ notes)
    (hnotes : ∀ u fd n d, .pushed u fd n d ∉ notes)
    (hpcs : ∀ t fd n d, s'.pc t = .pushing fd n d → n ≠ 0) :
    NoZero s' := by
  refine ⟨hpcs, fun u fd n d hmem => ?_⟩
  rw [hlog, List.mem_append] at hmem
  exact h.pushed u fd n d (hmem.resolve_right (hnotes u fd n d))

/-- A thread goes on to a place where it does not push a zero. -/
theorem NoZero.goto
    {pc : Pc}
    (h : NoZero s)
    (hpc : ∀ fd n d, pc = .pushing fd n d → n ≠ 0) :
    ∀ t' fd n d, (s.goto t pc).pc t' = .pushing fd n d → n ≠ 0 :=
  Server.forall_pc_goto (P := fun _ pc => ∀ fd n d, pc = .pushing fd n d → n ≠ 0)
    (fun t' _ => h.pcs t') hpc

theorem Pc.not_pushing_start
    {fd' : Fd} {cb : Callback} {arg : Arg} {n : Int} {d : PackData}
    (h : Pc.start fd' cb arg = some (.pushing fd n d)) :
    False := by
  cases cb <;> cases arg <;> cases h

theorem Pc.nonzero_received
    {i : Nat} {fd' : Fd} {r : RecvResult}
    (h : r ≠ .wouldBlock) :
    ∀ fd n d, Pc.received i fd' r = .pushing fd n d → n ≠ 0 := by
  intro fd n d hpc
  rcases Pc.received_cases i fd' r with ⟨-, he⟩ | ⟨-, he⟩ | ⟨-, -, he⟩ <;>
    rw [he] at hpc <;> cases hpc
  cases r with
  | bytes bs pos fits =>
      simp only [readn]
      omega
  | wouldBlock => exact absurd rfl h
  | error => decide
  | shutdown => decide

/-- One move by which no `recv` would block. -/
theorem NoZero.move
    (h : NoZero s)
    (hgood : ReadsConclude cfg s a)
    (hmove : Move cfg s a s') :
    NoZero s' := by
  have hlog : s.log = s.log ++ [] := by simp
  have hnil : ∀ u fd n d, Note.pushed u fd n d ∉ ([] : List Note) := by simp
  have hcallback : ∀ {c e stream u fd n d},
      Note.pushed u fd n d ∉ callback cfg c e stream := by
    intro c e stream u fd n d hmem
    cases eq_called_of_mem_callback hmem
  have hfree : ∀ {t pc}, (∀ fd n d, pc ≠ Pc.pushing fd n d) →
      ∀ t' fd n d, (s.goto t pc).pc t' = .pushing fd n d → n ≠ 0 :=
    fun hne => h.goto fun fd n d he => absurd he (hne fd n d)
  cases hmove with
  | arrived => exact h.keep hlog hnil h.pcs
  | booted => exact h.keep hlog hnil (hfree nofun)
  | waited => exact h.keep hlog hnil (hfree nofun)
  | drained => exact h.keep hlog hnil (hfree nofun)
  | ignored => exact h.keep hlog hnil h.pcs
  | started _ _ _ _ hstart =>
      refine h.keep hlog hnil (hfree ?_)
      rintro fd n d rfl
      exact Pc.not_pushing_start hstart
  | writable => exact h.keep rfl (fun _ _ _ _ => hcallback) h.pcs
  | acceptFailed => exact h.keep hlog hnil (hfree nofun)
  | rejected => exact h.keep rfl (by simp) (hfree nofun)
  | accepted => exact h.keep rfl (by simp) (hfree nofun)
  | handedOff => exact h.keep hlog hnil (hfree nofun)
  | handOffFailed => exact h.keep hlog hnil (hfree nofun)
  | announced => exact h.keep rfl (fun _ _ _ _ => hcallback) (hfree nofun)
  | counted => exact h.keep hlog hnil (hfree nofun)
  | pipeEmpty => exact h.keep hlog hnil (hfree nofun)
  | pipeTaken => exact h.keep hlog hnil (hfree nofun)
  | exhausted => exact h.keep hlog hnil (hfree nofun)
  | @opened _ _ d => cases d <;> exact h.keep hlog hnil (hfree nofun)
  | openFailed => exact h.keep hlog hnil (hfree nofun)
  | @undone _ _ d => cases d <;> exact h.keep hlog hnil (hfree nofun)
  | received _ hpc =>
      obtain ⟨-, hrecv⟩ := hgood
      simp only [hpc] at hrecv
      exact h.keep rfl (by simp) (h.goto (Pc.nonzero_received hrecv))
  | @closedNone _ _ d =>
      refine h.keep hlog hnil (h.goto fun fd n d' hpc => ?_)
      cases d <;> cases hpc
      decide
  | @closed _ _ d =>
      refine h.keep hlog hnil (h.goto fun fd n d' hpc => ?_)
      cases d <;> cases hpc
      decide
  | refused => exact h.keep rfl (by simp) (hfree nofun)
  | @pushed t _ fd n d _ _ _ hpc =>
      refine ⟨hfree nofun, fun u fd' n' d' hmem => ?_⟩
      rcases List.mem_append.mp hmem with hmem | hmem
      · exact h.pushed u fd' n' d' hmem
      · cases List.mem_singleton.mp hmem
        exact h.pcs t fd n d hpc
  | notified => exact h.keep hlog hnil (hfree nofun)
  | woke => exact h.keep hlog hnil h.pcs
  | handled =>
      refine h.keep rfl (fun u fd n d hmem => ?_) h.pcs
      rcases List.mem_cons.mp hmem with he | hmem
      · cases he
      · exact hcallback hmem
  | emptied => exact h.keep hlog hnil h.pcs

/-- Only the reactor of a descriptor owes something observed on it. -/
theorem Orderly.owed_thread
    (h : Orderly cfg s)
    (hdesc : Descriptors cfg s)
    (howed : owed fd (s.pc t) ≠ []) :
    t = .reactor (cfg.reactorOf fd) := by
  have hacts := h.acts t
  cases hpc : s.pc t with
  | closing d i fd' =>
      rw [hpc] at hacts howed
      obtain ⟨-, rfl⟩ := hdesc.at_index hpc rfl rfl
      by_cases hfd : fd' = fd
      · exact hfd ▸ hacts
      · exact absurd (if_neg hfd) howed
  | pushing fd' n d =>
      rw [hpc] at hacts howed
      by_cases hfd : fd' = fd
      · exact hfd ▸ hacts
      · exact absurd (if_neg fun h => hfd h.1) howed
  | _ => exact absurd (by rw [hpc]; rfl) howed

/-- In order, a reactor reads alone. -/
theorem FindsRoom.roomToPush
    (h : FindsRoom cfg s a)
    (horderly : Orderly cfg s)
    (hdesc : Descriptors cfg s) :
    RoomToPush cfg s a := by
  cases a with
  | run t env =>
      cases hpc : s.pc t with
      | pushing fd n d =>
          simp only [FindsRoom, hpc] at h
          simp only [RoomToPush, hpc]
          exact h
      | recv i fd =>
          simp only [RoomToPush, hpc]
          intro t' _ ht'
          by_contra howed
          obtain ⟨-, rfl⟩ := hdesc.at_index hpc rfl rfl
          have hacts := horderly.acts t
          rw [hpc] at hacts
          exact ht' ((horderly.owed_thread hdesc howed).trans hacts.symm)
      | _ => simp [RoomToPush, hpc]
  | _ => trivial

end Pushes

/-! ## What is handled -/

/-- What a run whose reads conclude keeps for a descriptor: only the last thing
observed may be a close, and `EB_CLOSE` was called only for a close that was
handled. -/
structure Concluded (cfg : Cfg) (fd : Fd) (s : Server) : Prop where
  seen : ∀ d ∈ observedFor fd s.log, d.len = 0 → closeSeen fd s.log = true
  last : ∀ d ∈ (observedFor fd s.log).dropLast, d.len ≠ 0
  closed : ClosedFor fd s.log → ∃ d ∈ handledFor cfg fd s.log, d.len = 0
  log : CloseMeansClosed fd s.log

section Handling

variable {cfg : Cfg} {s s' : Server} {a : Action} {fd : Fd} {notes : List Note}

theorem concluded_ebSrvNew : Concluded cfg fd (ebSrvNew cfg) where
  seen := by
    intro d hd
    cases hd
  last := by
    intro d hd
    cases hd
  closed := by
    rintro ⟨c, stream, hmem, -⟩
    cases hmem
  log := always_nil

theorem handledFor_append
    {log : List Note} :
    handledFor cfg fd (log ++ notes) =
      handledFor cfg fd log ++ handledFor cfg fd notes := by
  unfold handledFor
  rw [handledOf_append, List.filter_append]

/-- Entries that are neither reads nor made by a worker. -/
theorem Concluded.quiet
    (h : Concluded cfg fd s)
    (hlog : s'.log = s.log ++ notes)
    (hnotes : ∀ x ∈ notes, x.fromMaster = true) :
    Concluded cfg fd s' := by
  have hobserved : observedFor fd notes = [] := by
    refine List.filterMap_eq_nil_iff.mpr fun x hx => ?_
    have hx' := hnotes x hx
    cases x with
    | received => cases hx'
    | _ => rfl
  constructor
  · intro d hd hlen
    rw [hlog, observedFor_append, hobserved, List.append_nil] at hd
    rw [hlog, closeSeen_append, h.seen d hd hlen, Bool.true_or]
  · rw [hlog, observedFor_append, hobserved, List.append_nil]
    exact h.last
  · rintro ⟨c, stream, hmem, hfd⟩
    rw [hlog, List.mem_append] at hmem
    rcases hmem with hmem | hmem
    · obtain ⟨d, hd, hlen⟩ := h.closed ⟨c, stream, hmem, hfd⟩
      exact ⟨d, by rw [hlog, handledFor_append]; exact List.mem_append_left _ hd, hlen⟩
    · cases hnotes _ hmem
  · rw [hlog]
    refine Always.append h.log fun x hx past c e stream he _ => ?_
    subst he
    have hx' := hnotes _ hx
    cases e with
    | EB_CONNECT => exact ⟨nofun, nofun⟩
    | EB_WRITE => exact ⟨nofun, nofun⟩
    | EB_RECV => cases hx'
    | EB_CLOSE => cases hx'

/-- A `recv` on a descriptor whose close was not seen before. -/
theorem Concluded.received
    {t : Tid} {fd' : Fd} {r : RecvResult} {pc : Pc}
    (h : Concluded cfg fd s)
    (hopen : fd' = fd → closeSeen fd s.log = false) :
    Concluded cfg fd
      ((s.note [.received fd' (readn r) (packed fd' r)]).goto t pc) := by
  have hhandled : handledFor cfg fd [.received fd' (readn r) (packed fd' r)] = [] := rfl
  have hclosed : ClosedFor fd (s.log ++ [.received fd' (readn r) (packed fd' r)]) →
      ∃ d ∈ handledFor cfg fd (s.log ++ [.received fd' (readn r) (packed fd' r)]),
        d.len = 0 := by
    rintro ⟨c, stream, hmem, hfd⟩
    rw [handledFor_append, hhandled, List.append_nil]
    rcases List.mem_append.mp hmem with hmem | hmem
    · exact h.closed ⟨c, stream, hmem, hfd⟩
    · cases List.mem_singleton.mp hmem
  have hlog : CloseMeansClosed fd (s.log ++ [.received fd' (readn r) (packed fd' r)]) :=
    Always.append_singleton h.log (by rintro c e stream ⟨⟩)
  refine ⟨?_, ?_, hclosed, hlog⟩
  · intro d hd hlen
    rw [Server.goto_log, Server.note_log] at hd ⊢
    rw [observedFor_append, List.mem_append] at hd
    rw [closeSeen_append, Bool.or_eq_true]
    rcases hd with hd | hd
    · exact .inl (h.seen d hd hlen)
    · right
      obtain ⟨x, hx, hd⟩ := List.mem_filterMap.mp hd
      cases List.mem_singleton.mp hx
      simp only [Option.ite_none_right_eq_some, Option.some.injEq] at hd
      obtain ⟨⟨rfl, hn⟩, rfl⟩ := hd
      rw [packed_len] at hlen
      refine closeSeen_iff.mpr ⟨packed fd' r, ?_⟩
      rcases hn with hn | hn
      · rw [if_pos hn] at hlen
        omega
      · rw [hn]
        exact List.mem_cons_self
  · intro d hd hlen
    rw [Server.goto_log, Server.note_log, observedFor_append] at hd
    by_cases hone : observedFor fd [.received fd' (readn r) (packed fd' r)] = []
    · rw [hone, List.append_nil] at hd
      exact h.last d hd hlen
    · have hfd : fd' = fd := by
        by_contra hne
        exact hone (by simp [observedFor, hne])
      -- what was observed before is all before the new chunk or close
      have hold : d ∈ observedFor fd s.log := by
        rw [List.dropLast_append_of_ne_nil hone, List.mem_append] at hd
        rcases hd with hd | hd
        · exact hd
        · have hlength : (observedFor fd
              [.received fd' (readn r) (packed fd' r)]).length ≤ 1 :=
            List.length_filterMap_le _ _
          have hnil : (observedFor fd
              [.received fd' (readn r) (packed fd' r)]).dropLast = [] :=
            List.eq_nil_of_length_eq_zero (by rw [List.length_dropLast]; omega)
          rw [hnil] at hd
          cases hd
      rw [h.seen d hold hlen] at hopen
      cases hopen hfd

/-- The packet a worker pops comes next after those it has handled. -/
theorem handled_before
    {u : Nat} {stack : Nat → UInt8} {ret : Int} {rq : Ringq} {d : PackData}
    (hdel : Delivers cfg s)
    (hrec : Received fd s)
    (hzero : NoZero s)
    (hpop : popPack (s.units u).rq stack = .ok (ret, rq, d))
    (hret : -1 < ret) :
    0 ≤ d.len ∧ d.len ≤ STREAM_BUF_SIZE ∧
      (d.fd = ((fd : Nat) : Int) → u = cfg.unitOf fd ∧
        ∃ rest, observedFor fd s.log = handledFor cfg fd s.log ++ d :: rest) := by
  rcases hdel.popped hpop with ⟨rfl, -⟩ |
    ⟨fd', n, pending, -, hu, ⟨r, -, hd⟩, -, -, hpushed⟩
  · omega
  obtain ⟨hnonneg, hle⟩ := packed_len_bounds fd' r
  refine ⟨hd ▸ hnonneg, hd ▸ hle, fun hfd => ?_⟩
  have he : fd' = fd := by
    have hnat : ((fd' : Nat) : Int) = (fd : Nat) := by
      rw [← hfd, hd, packed_fd]
    exact Fin.ext (by omega)
  subst he hu
  obtain ⟨t, -, hobserved⟩ := hrec
  have hput : pushedFor fd' s.log = putFor fd' s.log :=
    Delivers.pushedFor_eq_putFor fun u d hmem => hzero.pushed u fd' 0 d hmem rfl
  refine ⟨rfl, (pending.filter fun d => d.fd = ((fd' : Nat) : Int)) ++ owed fd' (s.pc t), ?_⟩
  rw [hobserved, ← hput, hdel.pushedFor_eq, hpushed, List.filter_append,
    List.filter_cons_of_pos (by simpa using hfd)]
  simp [handledFor]

/-- The handler observes nothing on a socket. -/
theorem observedFor_handled
    {u : Nat} {d : PackData} {e : EbEvent} {stream : EbStream} :
    observedFor fd (.handled u d :: callback cfg (.worker u) e stream) = [] := by
  refine List.filterMap_eq_nil_iff.mpr fun x hx => ?_
  rcases List.mem_cons.mp hx with rfl | hx
  · rfl
  · cases eq_called_of_mem_callback hx
    rfl

/-- A run of the handler. -/
theorem Concluded.handled
    {u : Nat} {stack : Nat → UInt8} {ret : Int} {rq : Ringq} {d : PackData}
    {stream : EbStream}
    (h : Concluded cfg fd s)
    (hdel : Delivers cfg s)
    (hrec : Received fd s)
    (hzero : NoZero s)
    (hpop : popPack (s.units u).rq stack = .ok (ret, rq, d))
    (hret : -1 < ret)
    (hstream : streamOf d cfg.udata = .ok stream) :
    Concluded cfg fd
      ((s.setUnit u { s.units u with rq }).note
        (.handled u d :: callback cfg (.worker u)
          (if stream.buf_size = 0 then .EB_CLOSE else .EB_RECV) stream)) := by
  obtain ⟨hnonneg, hle, hnext⟩ := handled_before hdel hrec hzero hpop hret
  obtain ⟨hfd, hsize, -, -⟩ := streamOf_eq_ok ⟨hnonneg, hle⟩ hstream
  generalize he : (if stream.buf_size = 0 then EbEvent.EB_CLOSE else .EB_RECV) = e
  have hobserved : observedFor fd (.handled u d :: callback cfg (.worker u) e stream) = [] :=
    observedFor_handled
  have hnew : d.fd = ((fd : Nat) : Int) → d ∈ handledFor cfg fd
      (.handled u d :: callback cfg (.worker u) e stream) := by
    intro hd
    obtain ⟨hu, -⟩ := hnext hd
    refine List.mem_filter.mpr ⟨List.mem_filterMap.mpr ⟨_, List.mem_cons_self, ?_⟩, ?_⟩
    · simp [hu]
    · simpa using hd
  have hzeroLen : e = .EB_CLOSE → d.len = 0 := by
    intro hclose
    rw [hclose] at he
    split at he
    · omega
    · cases he
  refine ⟨?_, ?_, ?_, ?_⟩
  · intro d' hd' hlen
    rw [Server.note_log, Server.setUnit_log] at hd' ⊢
    rw [observedFor_append, hobserved, List.append_nil] at hd'
    rw [closeSeen_append, h.seen d' hd' hlen, Bool.true_or]
  · intro d' hd'
    rw [Server.note_log, Server.setUnit_log, observedFor_append, hobserved,
      List.append_nil] at hd'
    exact h.last d' hd'
  · rintro ⟨c, stream', hmem, hfd'⟩
    rw [Server.note_log, Server.setUnit_log] at hmem ⊢
    rw [handledFor_append]
    rcases List.mem_append.mp hmem with hmem | hmem
    · obtain ⟨d', hd', hlen⟩ := h.closed ⟨c, stream', hmem, hfd'⟩
      exact ⟨d', List.mem_append_left _ hd', hlen⟩
    · rcases List.mem_cons.mp hmem with hx | hmem
      · cases hx
      · have hx := eq_called_of_mem_callback hmem
        simp only [Note.called.injEq] at hx
        obtain ⟨-, hclose, rfl⟩ := hx
        exact ⟨d, List.mem_append_right _ (hnew (hfd.symm.trans hfd')),
          hzeroLen hclose.symm⟩
  · rw [Server.note_log, Server.setUnit_log, ← List.singleton_append, ← List.append_assoc]
    have hhead : CloseMeansClosed fd (s.log ++ [.handled u d]) :=
      Always.append_singleton h.log (by rintro c e stream ⟨⟩)
    unfold callback
    split
    · refine Always.append_singleton hhead ?_
      rintro c e' stream' hx hfd'
      simp only [Note.called.injEq] at hx
      obtain ⟨-, rfl, rfl⟩ := hx
      obtain ⟨-, rest, hrest⟩ := hnext (hfd.symm.trans hfd')
      constructor
      · intro hclose
        rw [closeSeen_append, h.seen d ?_ (hzeroLen hclose), Bool.true_or]
        rw [hrest]
        exact List.mem_append_right _ List.mem_cons_self
      · rintro - ⟨c', stream', hmem, hfd''⟩
        -- a close handled before is not the last thing observed
        have hmem' : Note.called c' .EB_CLOSE stream' ∈ s.log := by
          rcases List.mem_append.mp hmem with hmem | hmem
          · exact hmem
          · cases List.mem_singleton.mp hmem
        obtain ⟨d', hd', hlen⟩ := h.closed ⟨c', stream', hmem', hfd''⟩
        refine h.last d' ?_ hlen
        rw [hrest, List.dropLast_append_of_ne_nil (by simp)]
        exact List.mem_append_left _ hd'
    · simpa using hhead

/-- One move of a run whose reads conclude. -/
theorem Concluded.move
    (h : Concluded cfg fd s)
    (hdel : Delivers cfg s)
    (hrec : Received fd s)
    (hzero : NoZero s)
    (hread : ∀ t i, s.pc t = .recv i fd → closeSeen fd s.log = false)
    (hmove : Move cfg s a s') :
    Concluded cfg fd s' := by
  have hlog : s.log = s.log ++ [] := by simp
  have hnil : ∀ x ∈ ([] : List Note), x.fromMaster = true := by simp
  have hcallback : ∀ {c e stream}, e = .EB_CONNECT ∨ e = .EB_WRITE →
      ∀ x ∈ callback cfg c e stream, x.fromMaster = true := by
    intro c e stream he x hx
    cases eq_called_of_mem_callback hx
    rcases he with rfl | rfl <;> rfl
  cases hmove with
  | writable => exact h.quiet rfl (hcallback (.inr rfl))
  | rejected => exact h.quiet rfl (by simp [Note.fromMaster])
  | accepted => exact h.quiet rfl (by simp [Note.fromMaster])
  | announced => exact h.quiet rfl (hcallback (.inl rfl))
  | @received t _ i _ _ hpc => exact h.received fun hfd => hread t i (hfd ▸ hpc)
  | refused => exact h.quiet rfl (by simp [Note.fromMaster])
  | pushed => exact h.quiet rfl (by simp [Note.fromMaster])
  | handled _ hpop hret hstream => exact h.handled hdel hrec hzero hpop hret hstream
  | _ => exact h.quiet hlog hnil

end Handling

section Result

variable {cfg : Cfg} {s : Server} {fd : Fd}

theorem noZero_of_reach
    (hreach : Reach (step cfg) (ReadsConclude cfg) (ebSrvNew cfg) s) :
    NoZero s :=
  hreach.invariant noZero_ebSrvNew fun _ _ _ h hgood hstep => h.move hgood (step_move hstep)

theorem received_of_reach
    {good : Server → Action → Prop}
    (hgranted : ∀ s a, good s a → RemovalsGranted s a)
    (hroom : ∀ s a, good s a → FindsRoom cfg s a)
    (hreach : Reach (step cfg) good (ebSrvNew cfg) s) :
    Received fd s := by
  refine hreach.invariant_of
    (J := fun s => Delivers cfg s ∧ Orderly cfg s ∧ Descriptors cfg s ∧
      ∀ t, ¬ cfg.Runs t → s.pc t = .boot)
    (fun s hr => ⟨delivers_of_reach hr, orderly_of_reach hgranted hr,
      descriptors_of_reach hr, fun t ht => pc_boot_of_not_runs hr ht⟩)
    received_ebSrvNew ?_
  rintro s a s' ⟨hdel, horderly, hdesc, hboot⟩ - h hgood hstep
  exact h.move hdel hboot ((hroom s a hgood).roomToPush horderly hdesc) (step_move hstep)

/-- The close of a connection that is about to be read was not seen. -/
theorem not_closeSeen_of_reach
    {t : Tid} {i : Nat}
    (hreach : Reach (step cfg) (ReadsConclude cfg) (ebSrvNew cfg) s)
    (hpc : s.pc t = .recv i fd) :
    closeSeen fd s.log = false := by
  have hdesc := descriptors_of_reach hreach
  have hacc := hdesc.at_connection hpc rfl
  exact (onePlace_of_reach (hdesc.accepted fd hacc).1 (fun _ _ h => h.1.1) hreach).not_closeSeen
    (orderly_of_reach (fun _ _ h => h.1.1) hreach) hdesc
    (readSide_of_reach (fun _ _ h => h.1.1) hreach) hpc

/-- **`EB_CLOSE` means closed** in every run in which all pushes find room, no
`recv` would block, and the close path removes only events that are not queued,
with the kernel's consent: it is called at most once for a connection, only
after `readn` has returned -2, and no `EB_RECV` follows it. -/
theorem close_means_closed
    (hreach : Reach (step cfg) (ReadsConclude cfg) (ebSrvNew cfg) s) :
    ∀ fd, CloseMeansClosed fd s.log := by
  intro fd
  have h : Concluded cfg fd s := by
    refine hreach.invariant_of
      (J := fun s => Delivers cfg s ∧ Received fd s ∧ NoZero s ∧
        ∀ t i, s.pc t = .recv i fd → closeSeen fd s.log = false)
      (fun s hr => ⟨delivers_of_reach hr,
        received_of_reach (fun _ _ h => h.1.1) (fun _ _ h => h.findsRoom) hr, noZero_of_reach hr,
        fun t i hpc => not_closeSeen_of_reach hr hpc⟩)
      concluded_ebSrvNew ?_
    rintro s a s' ⟨hdel, hrec, hzero, hread⟩ - h - hstep
    exact h.move hdel hrec hzero hread (step_move hstep)
  exact h.log

/-- A byte and a close are received and handled. -/
theorem close_means_closed_one_client :
    ∃ s, Reach (step Small.cfg) (ReadsConclude Small.cfg) Small.start s ∧
      passedFor 0 7 s.log = [(1, [65]), (0, [])] ∧ CloseMeansClosed 7 s.log := by
  obtain ⟨s, hreach, hcheck⟩ := reach_of_endsIn (step Small.cfg)
    (ReadsConclude Small.cfg) Small.start .disabled
    (Small.boot ++ Small.client 7 ++ Small.chunk 7 ++ Small.peerClose 7 ++
      [Small.worker, Small.worker])
    (fun s => decide (passedFor 0 7 s.log = [(1, [65]), (0, [])]))
    (by decide +kernel)
  exact ⟨s, hreach, of_decide_eq_true hcheck, close_means_closed hreach 7⟩

/-- A byte is received, the connection is reported once more, and `recv` finds
nothing: the worker calls `EB_CLOSE` for a peer that has not closed. -/
theorem not_close_means_closed :
    ¬ ∀ s, Reach (step Small.cfg) (RoomToPush Small.cfg) Small.start s →
      ∀ fd, CloseMeansClosed fd s.log := by
  intro hall
  obtain ⟨s, hreach, hcheck⟩ := reach_of_endsIn (step Small.cfg)
    (RoomToPush Small.cfg) Small.start .disabled
    (Small.boot ++ Small.client 7 ++ Small.chunk 7 ++
      [.wait (.reactor 0) [Small.epollin 7], Small.reactor, Small.recv .wouldBlock,
        Small.reactor, Small.worker, Small.worker])
    (fun s => calledFor .EB_CLOSE 7 s.log && !closeSeen 7 s.log)
    (by decide +kernel)
  simp only [Bool.and_eq_true, Bool.not_eq_true'] at hcheck
  obtain ⟨hclose, hnone⟩ := hcheck
  obtain ⟨c, stream, hx, hfd⟩ := calledFor_iff.mp hclose
  obtain ⟨past, future, heq, hp⟩ := Always.of_mem (hall s hreach 7) hx
  have hseen := (hp c .EB_CLOSE stream rfl hfd).1 rfl
  rw [heq, closeSeen_append, hseen] at hnone
  cases hnone

end Result

end Ebot

import Ebot.ServerMoves

/-!
# Delivery of packets

What the rings of the factory and the history have to do with each other.  For
every unit, the packets pushed into its ring are those its handler has popped
followed by those still pending.  Nothing here depends on what the reactors
register or on how the threads interleave.
-/

namespace Ebot

open Function EdgeSource EventState Transition

/-! ## Reading the history -/

section History

/-- The packet comes from a `readn` that returned `n` on the descriptor. -/
def FromRead (fd : Fd) (n : Int) (d : PackData) : Prop :=
  ∃ r : RecvResult, n = readn r ∧ d = packed fd r

/-- Packets pushed into the ring of a unit, in push order. -/
def pushedOf (u : Nat) (log : List Note) : List PackData :=
  log.filterMap fun
    | .pushed u' _ _ d => if u' = u then some d else none
    | _ => none

/-- Packets whose push returned 0 for a descriptor, in push order. -/
def pushedFor (fd : Fd) (log : List Note) : List PackData :=
  log.filterMap fun
    | .pushed _ fd' _ d => if fd' = fd then some d else none
    | _ => none

/-- Packets the handler of a unit has popped, in order. -/
def handledOf (u : Nat) (log : List Note) : List PackData :=
  log.filterMap fun
    | .handled u' d => if u' = u then some d else none
    | _ => none

/-- Descriptor and content of what a unit has passed to its `EB_RECV` and
`EB_CLOSE` callbacks, in order. -/
def passedOf (u : Nat) (log : List Note) : List (Int × Int × List UInt8) :=
  log.filterMap fun
    | .called (.worker u') e stream =>
        if u' = u ∧ (e = .EB_RECV ∨ e = .EB_CLOSE) then
          some (stream.fd, stream.content)
        else none
    | _ => none

/-- Those for one descriptor. -/
def passedFor (u : Nat) (fd : Fd) (log : List Note) : List (Int × List UInt8) :=
  ((passedOf u log).filter fun c => c.1 = ((fd : Nat) : Int)).map Prod.snd

/-- A callback of the application has been called for the descriptor. -/
def calledFor (e : EbEvent) (fd : Fd) (log : List Note) : Bool :=
  log.any fun
    | .called _ e' stream => decide (e' = e ∧ stream.fd = ((fd : Nat) : Int))
    | _ => false

/-- The entry is about packets in the factory. -/
def Note.ofFactory : Note → Bool
  | .pushed .. => true
  | .handled .. => true
  | .called (.worker _) _ _ => true
  | _ => false

variable {u : Nat} {fd : Fd} {log notes : List Note}

theorem calledFor_iff
    {e : EbEvent} :
    calledFor e fd log = true ↔
      ∃ c stream, .called c e stream ∈ log ∧ stream.fd = ((fd : Nat) : Int) := by
  unfold calledFor
  rw [List.any_eq_true]
  constructor
  · rintro ⟨x, hx, h⟩
    cases x with
    | called c e' stream =>
        simp only [decide_eq_true_eq] at h
        obtain ⟨rfl, hfd⟩ := h
        exact ⟨c, stream, hx, hfd⟩
    | _ => cases h
  · rintro ⟨c, stream, hx, hfd⟩
    exact ⟨_, hx, by simp [hfd]⟩

theorem pushedOf_append :
    pushedOf u (log ++ notes) = pushedOf u log ++ pushedOf u notes :=
  List.filterMap_append

theorem handledOf_append :
    handledOf u (log ++ notes) = handledOf u log ++ handledOf u notes :=
  List.filterMap_append

theorem passedOf_append :
    passedOf u (log ++ notes) = passedOf u log ++ passedOf u notes :=
  List.filterMap_append

/-- Entries that are not about the factory add nothing. -/
theorem projections_of_not_ofFactory
    (h : ∀ x ∈ notes, x.ofFactory = false) :
    pushedOf u notes = [] ∧ handledOf u notes = [] ∧ passedOf u notes = [] := by
  refine ⟨?_, ?_, ?_⟩
  all_goals
    refine List.filterMap_eq_nil_iff.mpr fun x hx => ?_
    have hx' := h x hx
    cases x with
    | called c e stream => cases c <;> first | rfl | cases hx'
    | _ => first | rfl | cases hx'

theorem mem_pushedOf
    {d : PackData} :
    d ∈ pushedOf u log ↔ ∃ fd n, .pushed u fd n d ∈ log := by
  unfold pushedOf
  rw [List.mem_filterMap]
  constructor
  · rintro ⟨x, hx, hd⟩
    cases x with
    | pushed u' fd n d' =>
        simp only [Option.ite_none_right_eq_some, Option.some.injEq] at hd
        obtain ⟨rfl, rfl⟩ := hd
        exact ⟨fd, n, hx⟩
    | _ => cases hd
  · rintro ⟨fd, n, hx⟩
    exact ⟨_, hx, by simp⟩

end History

/-! ## The invariant -/

/-- What the entries about the factory say. -/
def Note.Sound (cfg : Cfg) : Note → Prop
  | .pushed u fd n d => u = cfg.unitOf fd ∧ FromRead fd n d
  | .handled u d => ∃ fd n, u = cfg.unitOf fd ∧ FromRead fd n d
  | .called (.worker u) _ stream =>
      ∃ fd : Fd, stream.fd = (fd : Nat) ∧ u = cfg.unitOf fd ∧
        stream.buf_size ≤ STREAM_BUF_SIZE
  | _ => True

/-- A thread about to push holds a packet that `readn` filled. -/
def Pc.Packs (pc : Pc) : Prop :=
  ∀ fd n d, pc = .pushing fd n d → FromRead fd n d

/-- The rings and the history agree. -/
structure Delivers (cfg : Cfg) (s : Server) : Prop where
  packs : ∀ t, (s.pc t).Packs
  notes : ∀ x ∈ s.log, x.Sound cfg
  rings : ∀ u, ∃ pending,
    PackRing ringCap (s.units u).rq pending ∧
      pushedOf u s.log = handledOf u s.log ++ pending
  passed : cfg.callbacks .EB_RECV = true → cfg.callbacks .EB_CLOSE = true →
    ∀ u, passedOf u s.log = (handledOf u s.log).map fun d => (d.fd, d.content)

section Steps

variable {cfg : Cfg} {s s' : Server} {a : Action}

theorem capInRange_ringCap : CapInRange ringCap := by decide

theorem delivers_ebSrvNew : Delivers cfg (ebSrvNew cfg) where
  packs := by
    intro t fd n d h
    cases h
  notes := by
    intro x hx
    cases hx
  rings := fun u =>
    ⟨[], ⟨.new 0 1 rfl, Int.one_ne_zero⟩, rfl⟩
  passed := fun _ _ _ => rfl

/-- Steps that neither touch a ring nor add entries about the factory. -/
theorem Delivers.quiet
    {notes : List Note}
    (h : Delivers cfg s)
    (hunits : ∀ u, (s'.units u).rq = (s.units u).rq)
    (hlog : s'.log = s.log ++ notes)
    (hnotes : ∀ x ∈ notes, x.ofFactory = false)
    (hpc : ∀ t, (s'.pc t).Packs) :
    Delivers cfg s' := by
  have hnil := fun u => projections_of_not_ofFactory (u := u) hnotes
  refine ⟨hpc, ?_, ?_, ?_⟩
  · intro x hx
    rw [hlog, List.mem_append] at hx
    rcases hx with hx | hx
    · exact h.notes x hx
    · have hx' := hnotes x hx
      cases x with
      | called c e stream =>
          cases c with
          | thread t => trivial
          | worker u => cases hx'
      | pushed => cases hx'
      | handled => cases hx'
      | _ => trivial
  · intro u
    obtain ⟨pending, hring, hpushed⟩ := h.rings u
    refine ⟨pending, (hunits u) ▸ hring, ?_⟩
    obtain ⟨hp, hh, -⟩ := hnil u
    rw [hlog, pushedOf_append, handledOf_append, hp, hh, hpushed]
    simp
  · intro hrecv hclose u
    obtain ⟨-, hh, hpass⟩ := hnil u
    rw [hlog, passedOf_append, handledOf_append, hh, hpass, List.append_nil,
      List.append_nil]
    exact h.passed hrecv hclose u

/-- A thread goes on to a place where it does not push. -/
theorem Delivers.packs_goto
    {t : Tid} {pc : Pc}
    (h : Delivers cfg s)
    (hpc : pc.Packs) :
    ∀ t', ((s.goto t pc).pc t').Packs :=
  Server.forall_pc_goto (P := fun _ pc => pc.Packs) (fun t' _ => h.packs t') hpc

theorem callback_thread_not_ofFactory
    {t : Tid} {e : EbEvent} {stream : EbStream} :
    ∀ x ∈ callback cfg (.thread t) e stream, x.ofFactory = false := by
  intro x hx
  cases eq_called_of_mem_callback hx
  rfl

theorem Pc.packs_start
    {fd : Fd} {cb : Callback} {arg : Arg} {pc : Pc}
    (h : Pc.start fd cb arg = some pc) :
    pc.Packs := by
  rintro fd' n d rfl
  cases cb <;> cases arg <;> cases h

theorem Pc.packs_opened
    {i : Nat} {fd : Fd} {d : Dir} :
    (Pc.opened i fd d).Packs := by
  rintro fd' n d' h
  cases d <;> cases h

theorem Pc.packs_closed
    {i : Nat} {fd : Fd} {d : Dir} :
    (Pc.closed i fd d).Packs := by
  rintro fd' n d' h
  cases d with
  | read => cases h
  | write =>
      cases h
      exact ⟨.shutdown, rfl, rfl⟩

theorem Pc.packs_received
    {i : Nat} {fd : Fd} {r : RecvResult} :
    (Pc.received i fd r).Packs := by
  rintro fd' n d hpc
  rcases Pc.received_cases i fd r with ⟨-, h⟩ | ⟨-, h⟩ | ⟨-, -, h⟩ <;>
    rw [h] at hpc <;> cases hpc
  exact ⟨r, rfl, rfl⟩

/-- A refused push. -/
theorem Delivers.refused
    {t : Tid} {fd : Fd} {n ret : Int} {d : PackData} {rq : Ringq}
    (h : Delivers cfg s)
    (hpush : pushPack (s.units (cfg.unitOf fd)).rq d = .ok (ret, rq))
    (hret : ret < 0) :
    Delivers cfg
      (((s.setUnit (cfg.unitOf fd) { s.units (cfg.unitOf fd) with rq }).note
        [.refused (cfg.unitOf fd) fd n d]).goto t .dispatch) := by
  obtain ⟨pending, hring, -⟩ := h.rings (cfg.unitOf fd)
  have hsame : rq = (s.units (cfg.unitOf fd)).rq := by
    rcases hring.push capInRange_ringCap hpush with ⟨rfl, -⟩ | ⟨-, -, hsame⟩
    · omega
    · exact hsame
  refine h.quiet ?_ rfl ?_ ?_
  · intro u
    by_cases hu : u = cfg.unitOf fd
    · subst hu
      simp [hsame]
    · simp [update_of_ne hu]
  · simp [Note.ofFactory]
  · exact Server.forall_pc_goto (P := fun _ pc => pc.Packs)
      (fun t' _ => h.packs t') (by rintro _ _ _ ⟨⟩)

/-- A push that returned 0. -/
theorem Delivers.pushed
    {t : Tid} {fd : Fd} {n ret : Int} {d : PackData} {rq : Ringq}
    (h : Delivers cfg s)
    (hpc : s.pc t = .pushing fd n d)
    (hpush : pushPack (s.units (cfg.unitOf fd)).rq d = .ok (ret, rq))
    (hret : ¬ ret < 0) :
    Delivers cfg
      (((s.setUnit (cfg.unitOf fd) { s.units (cfg.unitOf fd) with rq }).note
        [.pushed (cfg.unitOf fd) fd n d]).goto t (.notify (cfg.unitOf fd))) := by
  have hfrom : FromRead fd n d := h.packs t fd n d hpc
  refine ⟨?_, ?_, ?_, ?_⟩
  · exact Server.forall_pc_goto (P := fun _ pc => pc.Packs)
      (fun t' _ => h.packs t') (by rintro _ _ _ ⟨⟩)
  · intro x hx
    rcases List.mem_append.mp hx with hx | hx
    · exact h.notes x hx
    · cases List.mem_singleton.mp hx
      exact ⟨rfl, hfrom⟩
  · intro u
    obtain ⟨pending, hring, hpushed⟩ := h.rings u
    by_cases hu : u = cfg.unitOf fd
    · subst hu
      rcases hring.push capInRange_ringCap hpush with ⟨-, -, hring'⟩ | ⟨rfl, -, -⟩
      · refine ⟨pending ++ [d], by simpa using hring', ?_⟩
        have hlast : pushedOf (cfg.unitOf fd) [.pushed (cfg.unitOf fd) fd n d] = [d] := by
          simp [pushedOf]
        have hnone : handledOf (cfg.unitOf fd) [.pushed (cfg.unitOf fd) fd n d] = [] := rfl
        simp only [Server.goto_log, Server.note_log, Server.setUnit_log]
        rw [pushedOf_append, handledOf_append, hlast, hnone, hpushed]
        simp
      · omega
    · refine ⟨pending, by simpa [update_of_ne hu] using hring, ?_⟩
      have hlast : pushedOf u [.pushed (cfg.unitOf fd) fd n d] = [] := by
        simp [pushedOf, Ne.symm hu]
      have hnone : handledOf u [.pushed (cfg.unitOf fd) fd n d] = [] := rfl
      simp only [Server.goto_log, Server.note_log, Server.setUnit_log]
      rw [pushedOf_append, handledOf_append, hlast, hnone, hpushed]
      simp
  · intro hrecv hclose u
    have hnone : handledOf u [.pushed (cfg.unitOf fd) fd n d] = [] := rfl
    have hnone' : passedOf u [.pushed (cfg.unitOf fd) fd n d] = [] := rfl
    simp only [Server.goto_log, Server.note_log, Server.setUnit_log]
    rw [passedOf_append, handledOf_append, hnone, hnone', List.append_nil,
      List.append_nil]
    exact h.passed hrecv hclose u

/-- The packets in a ring were pushed by read callbacks. -/
theorem Delivers.pending_inRange
    {u : Nat} {pending : List PackData}
    (h : Delivers cfg s)
    (hpushed : pushedOf u s.log = handledOf u s.log ++ pending) :
    ∀ d ∈ pending, d.InRange := by
  intro d hd
  obtain ⟨fd, n, hx⟩ := mem_pushedOf.mp (hpushed ▸ List.mem_append_right _ hd)
  obtain ⟨-, r, -, rfl⟩ := h.notes _ hx
  exact packed_inRange

/-- A pop that fails finds the ring of the unit empty. -/
theorem Delivers.num_of_emptied
    {u : Nat} {stack : Nat → UInt8} {ret : Int} {rq : Ringq} {d : PackData}
    (h : Delivers cfg s)
    (hpop : popPack (s.units u).rq stack = .ok (ret, rq, d))
    (hret : ¬ -1 < ret) :
    rq.num = 0 := by
  obtain ⟨pending, hring, hpushed⟩ := h.rings u
  rcases hring.pop capInRange_ringCap (h.pending_inRange hpushed) hpop with
    ⟨rfl, -, rfl⟩ | ⟨pending', -, rfl, -⟩
  · exact hring.num capInRange_ringCap
  · omega

/-- What a pop that succeeds takes. -/
theorem Delivers.popped
    {u : Nat} {stack : Nat → UInt8} {ret : Int} {rq : Ringq} {d : PackData}
    (h : Delivers cfg s)
    (hpop : popPack (s.units u).rq stack = .ok (ret, rq, d)) :
    ret = -1 ∧ rq = (s.units u).rq ∨
      ∃ fd n pending,
        .pushed u fd n d ∈ s.log ∧ u = cfg.unitOf fd ∧ FromRead fd n d ∧
          ret = 0 ∧ PackRing ringCap rq pending ∧
          pushedOf u s.log = handledOf u s.log ++ d :: pending := by
  obtain ⟨pending, hring, hpushed⟩ := h.rings u
  rcases hring.pop capInRange_ringCap (h.pending_inRange hpushed) hpop with
    ⟨-, hret, hsame⟩ | ⟨pending', rfl, hret, hring'⟩
  · exact .inl ⟨hret, hsame⟩
  · right
    obtain ⟨fd, n, hx⟩ := mem_pushedOf.mp (hpushed ▸ by simp : d ∈ pushedOf u s.log)
    obtain ⟨hu, hfrom⟩ := h.notes _ hx
    exact ⟨fd, n, pending', hx, hu, hfrom, hret, hring', hpushed⟩

/-- The handler pushes nothing. -/
theorem pushedOf_handled
    {u u' : Nat} {d : PackData} {e : EbEvent} {stream : EbStream} :
    pushedOf u' (.handled u d :: callback cfg (.worker u) e stream) = [] := by
  refine List.filterMap_eq_nil_iff.mpr fun x hx => ?_
  rcases List.mem_cons.mp hx with rfl | hx
  · rfl
  · cases eq_called_of_mem_callback hx
    rfl

/-- The handler adds its packet to those its unit has handled. -/
theorem handledOf_handled
    {u u' : Nat} {d : PackData} {e : EbEvent} {stream : EbStream} :
    handledOf u' (.handled u d :: callback cfg (.worker u) e stream) =
      if u = u' then [d] else [] := by
  have htail : handledOf u' (callback cfg (.worker u) e stream) = [] := by
    refine List.filterMap_eq_nil_iff.mpr fun x hx => ?_
    cases eq_called_of_mem_callback hx
    rfl
  rw [← List.singleton_append, handledOf_append, htail, List.append_nil]
  by_cases hu : u = u'
  · simp [handledOf, hu]
  · simp [handledOf, hu]

/-- A run of the handler that popped a packet. -/
theorem Delivers.handled
    {u : Nat} {stack : Nat → UInt8} {ret : Int} {rq : Ringq} {d : PackData}
    {stream : EbStream}
    (h : Delivers cfg s)
    (hpop : popPack (s.units u).rq stack = .ok (ret, rq, d))
    (hret : -1 < ret)
    (hstream : streamOf d cfg.udata = .ok stream) :
    Delivers cfg
      ((s.setUnit u { s.units u with rq }).note
        (.handled u d :: callback cfg (.worker u)
          (if stream.buf_size = 0 then .EB_CLOSE else .EB_RECV) stream)) := by
  rcases h.popped hpop with ⟨rfl, -⟩ | ⟨fd, n, pending, -, hunit, hfrom, -, hring, hpushed⟩
  · omega
  obtain ⟨r, hn, hd⟩ := hfrom
  obtain ⟨hfd, -, hle, hcontent⟩ := streamOf_eq_ok (hd ▸ packed_len_bounds fd r) hstream
  have hfd' : stream.fd = (fd : Nat) := by
    rw [hfd, hd, packed_fd]
  generalize he : (if stream.buf_size = 0 then EbEvent.EB_CLOSE else .EB_RECV) = e
  have he' : e = .EB_RECV ∨ e = .EB_CLOSE := by
    rw [← he]
    split
    · exact .inr rfl
    · exact .inl rfl
  refine ⟨h.packs, ?_, ?_, ?_⟩
  · intro x hx
    rcases List.mem_append.mp hx with hx | hx
    · exact h.notes x hx
    · rcases List.mem_cons.mp hx with rfl | hx
      · exact ⟨fd, n, hunit, r, hn, hd⟩
      · cases eq_called_of_mem_callback hx
        exact ⟨fd, hfd', hunit, hle⟩
  · intro u'
    simp only [Server.note_log, Server.setUnit_log, Server.note_units,
      Server.setUnit_units]
    rw [pushedOf_append, handledOf_append, pushedOf_handled, handledOf_handled,
      List.append_nil]
    by_cases hu : u' = u
    · subst hu
      refine ⟨pending, by simpa using hring, ?_⟩
      rw [hpushed, if_pos rfl, List.append_assoc, List.singleton_append]
    · obtain ⟨pending', hring', hpushed'⟩ := h.rings u'
      refine ⟨pending', by simpa [update_of_ne hu] using hring', ?_⟩
      rw [hpushed', if_neg (Ne.symm hu), List.append_nil]
  · intro hrecv hclose u'
    have hone : callback cfg (.worker u) e stream = [.called (.worker u) e stream] := by
      unfold callback
      rcases he' with rfl | rfl
      · rw [if_pos hrecv]
      · rw [if_pos hclose]
    simp only [Server.note_log, Server.setUnit_log]
    rw [passedOf_append, handledOf_append, List.map_append, h.passed hrecv hclose u', hone]
    congr 1
    by_cases hu : u' = u
    · subst hu
      simp [passedOf, handledOf, he', hfd, hcontent]
    · simp [passedOf, handledOf, Ne.symm hu]

/-- One move. -/
theorem Delivers.move
    (h : Delivers cfg s)
    (hmove : Move cfg s a s') :
    Delivers cfg s' := by
  have hsame : ∀ {s₁ : Server}, s₁.units = s.units →
      ∀ u, (s₁.units u).rq = (s.units u).rq := fun he u => by rw [he]
  have hlog : s.log = s.log ++ [] := by simp
  have hnil : ∀ x ∈ ([] : List Note), x.ofFactory = false := by simp
  have hplain : ∀ {t pc}, (∀ fd n d, pc ≠ Pc.pushing fd n d) →
      ∀ t', ((s.goto t pc).pc t').Packs :=
    fun hne => h.packs_goto fun fd n d he => absurd he (hne fd n d)
  cases hmove with
  | arrived => exact h.quiet (hsame rfl) hlog hnil h.packs
  | booted => exact h.quiet (hsame rfl) hlog hnil (hplain (by simp))
  | waited => exact h.quiet (hsame rfl) hlog hnil (hplain (by simp))
  | drained => exact h.quiet (hsame rfl) hlog hnil (hplain (by simp))
  | ignored => exact h.quiet (hsame rfl) hlog hnil h.packs
  | started _ _ _ _ hstart =>
      exact h.quiet (hsame rfl) hlog hnil (h.packs_goto (Pc.packs_start hstart))
  | writable =>
      exact h.quiet (hsame rfl) rfl callback_thread_not_ofFactory h.packs
  | acceptFailed => exact h.quiet (hsame rfl) hlog hnil (hplain (by simp))
  | rejected =>
      exact h.quiet (hsame rfl) rfl (by simp [Note.ofFactory]) (hplain (by simp))
  | accepted =>
      exact h.quiet (hsame rfl) rfl (by simp [Note.ofFactory]) (hplain (by simp))
  | handedOff => exact h.quiet (hsame rfl) hlog hnil (hplain (by simp))
  | handOffFailed => exact h.quiet (hsame rfl) hlog hnil (hplain (by simp))
  | announced =>
      exact h.quiet (hsame rfl) rfl callback_thread_not_ofFactory (hplain (by simp))
  | counted => exact h.quiet (hsame rfl) hlog hnil (hplain (by simp))
  | pipeEmpty => exact h.quiet (hsame rfl) hlog hnil (hplain (by simp))
  | pipeTaken => exact h.quiet (hsame rfl) hlog hnil (hplain (by simp))
  | exhausted => exact h.quiet (hsame rfl) hlog hnil (hplain (by simp))
  | opened => exact h.quiet (hsame rfl) hlog hnil (h.packs_goto Pc.packs_opened)
  | openFailed => exact h.quiet (hsame rfl) hlog hnil (hplain (by simp))
  | undone => exact h.quiet (hsame rfl) hlog hnil (h.packs_goto Pc.packs_opened)
  | received =>
      exact h.quiet (hsame rfl) rfl (by simp [Note.ofFactory])
        (h.packs_goto Pc.packs_received)
  | closedNone => exact h.quiet (hsame rfl) hlog hnil (h.packs_goto Pc.packs_closed)
  | closed => exact h.quiet (hsame rfl) hlog hnil (h.packs_goto Pc.packs_closed)
  | refused _ _ hpush hret => exact h.refused hpush hret
  | pushed _ hpc hpush hret => exact h.pushed hpc hpush hret
  | @notified _ _ u =>
      refine h.quiet (fun u' => ?_) hlog hnil (hplain (by simp))
      by_cases hu : u' = u
      · subst hu
        simp
      · simp [update_of_ne hu]
  | @woke u =>
      refine h.quiet (fun u' => ?_) hlog hnil h.packs
      by_cases hu : u' = u
      · subst hu
        simp
      · simp [update_of_ne hu]
  | handled _ hpop hret hstream => exact h.handled hpop hret hstream
  | @emptied u _ _ _ _ _ hpop hret =>
      refine h.quiet (fun u' => ?_) hlog hnil h.packs
      by_cases hu : u' = u
      · subst hu
        rcases h.popped hpop with ⟨-, rfl⟩ | ⟨fd, n, pending, -, -, -, rfl, -, -⟩
        · simp
        · omega
      · simp [update_of_ne hu]

theorem delivers_of_reach
    {good : Server → Action → Prop}
    (hreach : Reach (step cfg) good (ebSrvNew cfg) s) :
    Delivers cfg s :=
  hreach.invariant delivers_ebSrvNew fun _ _ _ h _ hstep => h.move (step_move hstep)

end Steps

section PerDescriptor

variable {cfg : Cfg} {s : Server} {fd : Fd}

/-- The pushes for a descriptor are those into its unit's ring that name it. -/
theorem Delivers.pushedFor_eq
    (h : Delivers cfg s) :
    pushedFor fd s.log =
      (pushedOf (cfg.unitOf fd) s.log).filter fun d => d.fd = ((fd : Nat) : Int) := by
  unfold pushedFor pushedOf
  rw [List.filter_filterMap]
  refine List.filterMap_congr fun x hx => ?_
  have hx' := h.notes x hx
  cases x with
  | pushed u fd' n d =>
      obtain ⟨rfl, r, -, rfl⟩ := hx'
      by_cases hfd : fd' = fd
      · subst hfd
        simp [Option.filter]
      · have hne : ¬ ((fd' : Nat) : Int) = (fd : Nat) := by
          intro he
          exact hfd (Fin.ext (by omega))
        simp only [hfd, if_false]
        split
        · simp [Option.filter, hne]
        · rfl
  | _ => rfl

end PerDescriptor

/-- **Accepted packets are delivered exactly once, in order and unaltered.**
With both callbacks installed, in every reachable state there are packets
pending in the rings such that, for every descriptor, what its unit has passed
to the callbacks followed by what is pending for it is what was pushed for it.
Only the unit of a descriptor handles its packets, and no stream is longer than
its buffer. -/
theorem packets_delivered_exactly_once
    {cfg : Cfg} {s : Server}
    (hrecv : cfg.callbacks .EB_RECV = true)
    (hclose : cfg.callbacks .EB_CLOSE = true)
    (hreach : Reachable (step cfg) (ebSrvNew cfg) s) :
    ∃ pending : Nat → List PackData,
      (∀ u, PackRing ringCap (s.units u).rq (pending u)) ∧
      (∀ fd : Fd,
        passedFor (cfg.unitOf fd) fd s.log ++
            ((pending (cfg.unitOf fd)).filter fun d =>
              d.fd = ((fd : Nat) : Int)).map PackData.content =
          (pushedFor fd s.log).map PackData.content) ∧
      (∀ u (d : PackData), .handled u d ∈ s.log →
        ∃ fd : Fd, d.fd = (fd : Nat) ∧ u = cfg.unitOf fd) ∧
      ∀ u e (stream : EbStream), .called (.worker u) e stream ∈ s.log →
        ∃ fd : Fd, stream.fd = (fd : Nat) ∧ u = cfg.unitOf fd ∧
          stream.buf_size ≤ STREAM_BUF_SIZE := by
  have h := delivers_of_reach hreach
  choose pending hring hpushed using h.rings
  refine ⟨pending, hring, ?_, ?_, ?_⟩
  · intro fd
    rw [h.pushedFor_eq, hpushed, List.filter_append, List.map_append, passedFor,
      h.passed hrecv hclose]
    congr 1
    rw [List.filter_map, List.map_map]
    rfl
  · intro u d hd
    obtain ⟨fd, n, hu, r, -, rfl⟩ := h.notes _ hd
    exact ⟨fd, packed_fd, hu⟩
  · intro u e stream hcall
    exact h.notes _ hcall

/-- One byte has gone all the way to the callback. -/
theorem packets_delivered_exactly_once_one_byte :
    ∃ s, Reachable (step Small.cfg) Small.start s ∧
      passedFor 0 7 s.log = [(1, [65])] ∧
      ∃ pending : List PackData,
        PackRing ringCap (s.units 0).rq pending ∧
          [(1, [65])] ++
              (pending.filter fun d => d.fd = ((7 : Nat) : Int)).map PackData.content =
            (pushedFor 7 s.log).map PackData.content := by
  obtain ⟨s, hreach, hcheck⟩ := reachable_of_endsIn (step Small.cfg) Small.start
    (Small.boot ++ Small.client 7 ++ Small.chunk 7 ++ [Small.worker])
    (fun s => decide (passedFor 0 7 s.log = [(1, [65])]))
    (by decide +kernel)
  rw [decide_eq_true_eq] at hcheck
  obtain ⟨pending, hring, hall, -⟩ := packets_delivered_exactly_once rfl rfl hreach
  have heq := hall 7
  rw [show Small.cfg.unitOf 7 = 0 from rfl, hcheck] at heq
  exact ⟨s, hreach, hcheck, pending 0, hring 0, heq⟩

end Ebot

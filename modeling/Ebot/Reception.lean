import Ebot.Delivery

/-!
# Reception of chunks and close notices

What a reactor takes off a client socket, a chunk of bytes or the notice that
the peer has closed, is owed to the ring of the descriptor's unit until it is
pushed.  A push into a ring with fewer than 140 free bytes is refused, and the
read callback then returns: the chunk or the notice is gone.
-/

namespace Ebot

open Function EdgeSource EventState Transition

/-- Chunks and close notices observed on a descriptor, in order. -/
def observedFor (fd : Fd) (log : List Note) : List PackData :=
  log.filterMap fun
    | .received fd' n d =>
        if fd' = fd ∧ (0 < n ∨ n = -2) then some d else none
    | _ => none

/-- Those that were put into a ring, in order. -/
def putFor (fd : Fd) (log : List Note) : List PackData :=
  log.filterMap fun
    | .pushed _ fd' n d => if fd' = fd ∧ n ≠ 0 then some d else none
    | _ => none

/-- What a thread at this place has observed on a descriptor and not yet tried
to push. -/
def owed (fd : Fd) : Pc → List PackData
  | .closing _ _ fd' => if fd' = fd then [.blank (fd : Nat)] else []
  | .pushing fd' n d => if fd' = fd ∧ n ≠ 0 then [d] else []
  | _ => []

/-- The ring of the unit has room for a packet at every push, and no two
threads hold something observed on the same descriptor. -/
def RoomToPush (cfg : Cfg) (s : Server) : Action → Prop
  | .run t _ =>
      match s.pc t with
      | .pushing fd _ _ => (s.units (cfg.unitOf fd)).rq.num ≤ 72
      | .recv _ fd => ∀ t', cfg.Runs t' → t' ≠ t → owed fd (s.pc t') = []
      | _ => True
  | _ => True

instance (cfg : Cfg) (s : Server) : DecidablePred (RoomToPush cfg s)
  | .run t _ => by
      dsimp only [RoomToPush]
      generalize s.pc t = pc
      rcases pc <;> infer_instance
  | .arrive | .wait _ _ | .work _ _ => isTrue trivial

/-- The entry is the push of a packet that stands for a `readn` of 0. -/
def Note.pushedZero : Note → Bool
  | .pushed _ _ n _ => n == 0
  | _ => false

/-- Everything observed on the descriptor has been put into a ring, except what
one thread still owes. -/
def Received (fd : Fd) (s : Server) : Prop :=
  ∃ t, (∀ t', t' ≠ t → owed fd (s.pc t') = []) ∧
    observedFor fd s.log = putFor fd s.log ++ owed fd (s.pc t)

section Projections

variable {fd : Fd} {log notes : List Note}

theorem observedFor_append :
    observedFor fd (log ++ notes) = observedFor fd log ++ observedFor fd notes :=
  List.filterMap_append

theorem putFor_append :
    putFor fd (log ++ notes) = putFor fd log ++ putFor fd notes :=
  List.filterMap_append

/-- The entry is about something observed or pushed. -/
def Note.ofReception : Note → Bool
  | .received .. => true
  | .pushed .. => true
  | _ => false

theorem projections_of_not_ofReception
    (fd : Fd)
    (h : ∀ x ∈ notes, x.ofReception = false) :
    observedFor fd notes = [] ∧ putFor fd notes = [] := by
  refine ⟨?_, ?_⟩
  all_goals
    refine List.filterMap_eq_nil_iff.mpr fun x hx => ?_
    have hx' := h x hx
    cases x with
    | received => cases hx'
    | pushed => cases hx'
    | _ => rfl

theorem callback_not_ofReception
    {cfg : Cfg} {c : Caller} {e : EbEvent} {stream : EbStream} :
    ∀ x ∈ callback cfg c e stream, x.ofReception = false := by
  intro x hx
  cases eq_called_of_mem_callback hx
  rfl

end Projections

section Steps

variable {cfg : Cfg} {s s' : Server} {a : Action} {fd : Fd}

theorem received_ebSrvNew : Received fd (ebSrvNew cfg) :=
  ⟨.master, fun _ _ => rfl, rfl⟩

/-- Steps that observe and put nothing of the descriptor and owe what was owed. -/
theorem Received.quiet
    {notes : List Note}
    (h : Received fd s)
    (hlog : s'.log = s.log ++ notes)
    (hobserved : observedFor fd notes = [])
    (hput : putFor fd notes = [])
    (hpc : ∀ t, owed fd (s'.pc t) = owed fd (s.pc t)) :
    Received fd s' := by
  obtain ⟨t, hothers, heq⟩ := h
  refine ⟨t, fun t' ht => (hpc t') ▸ hothers t' ht, ?_⟩
  rw [hlog, observedFor_append, putFor_append, hobserved, hput, hpc, heq]
  simp

/-- Steps whose entries are not about reception. -/
theorem Received.silent
    {notes : List Note}
    (h : Received fd s)
    (hlog : s'.log = s.log ++ notes)
    (hnotes : ∀ x ∈ notes, x.ofReception = false)
    (hpc : ∀ t, owed fd (s'.pc t) = owed fd (s.pc t)) :
    Received fd s' := by
  obtain ⟨hobserved, hput⟩ := projections_of_not_ofReception fd hnotes
  exact h.quiet hlog hobserved hput hpc

/-- A thread goes on without changing what it owes. -/
theorem owed_goto
    {t : Tid} {pc : Pc}
    (hpc : owed fd pc = owed fd (s.pc t)) :
    ∀ t', owed fd ((s.goto t pc).pc t') = owed fd (s.pc t') :=
  Server.forall_pc_goto (P := fun t' pc => owed fd pc = owed fd (s.pc t'))
    (fun _ _ => rfl) hpc

theorem owed_start
    {fd' : Fd} {cb : Callback} {arg : Arg} {pc : Pc}
    (h : Pc.start fd' cb arg = some pc) :
    owed fd pc = [] := by
  cases cb <;> cases arg <;> cases h <;> rfl

theorem owed_opened
    {fd' : Fd} {i : Nat} {d : Dir} :
    owed fd (Pc.opened i fd' d) = [] := by
  cases d <;> rfl

theorem owed_closed
    {fd' : Fd} {i : Nat} {d : Dir} :
    owed fd (Pc.closed i fd' d) = owed fd (.closing d i fd') := by
  cases d with
  | read => rfl
  | write =>
      by_cases hfd : fd' = fd
      · subst hfd
        simp [owed, Pc.closed]
      · simp [owed, Pc.closed, hfd]

/-- What a thread owes after `readn` is what it has just observed. -/
theorem owed_received
    (fd fd' : Fd) (i : Nat) (r : RecvResult) :
    owed fd (Pc.received i fd' r) =
      observedFor fd [.received fd' (readn r) (packed fd' r)] := by
  by_cases hfd : fd' = fd
  · subst hfd
    cases r with
    | bytes bs pos fits =>
        have h₁ : ¬ (bs.length : Int) = -2 := by omega
        have h₂ : ¬ (bs.length : Int) = -1 := by omega
        have h₃ : ¬ bs = [] := by
          rintro rfl
          simp at pos
        simp [owed, Pc.received, observedFor, readn, h₁, h₂, h₃, pos]
    | wouldBlock => simp [owed, Pc.received, observedFor, readn]
    | error => simp [owed, Pc.received, observedFor, readn]
    | shutdown => simp [owed, Pc.received, observedFor, readn, packed]
  · have hnone : observedFor fd [.received fd' (readn r) (packed fd' r)] = [] := by
      simp [observedFor, hfd]
    rw [hnone]
    rcases Pc.received_cases i fd' r with ⟨-, h⟩ | ⟨-, h⟩ | ⟨-, -, h⟩ <;> rw [h]
    · simp [owed, hfd]
    · rfl
    · simp [owed, hfd]

/-- A `recv` by the only thread that holds anything of its descriptor. -/
theorem Received.received
    {t : Tid} {i : Nat} {fd' : Fd} {r : RecvResult}
    (h : Received fd s)
    (hpc : s.pc t = .recv i fd')
    (halone : fd' = fd → ∀ t', t' ≠ t → owed fd (s.pc t') = []) :
    Received fd
      ((s.note [.received fd' (readn r) (packed fd' r)]).goto t
        (.received i fd' r)) := by
  have howed := owed_received fd fd' i r
  have hput : putFor fd [.received fd' (readn r) (packed fd' r)] = [] := rfl
  have hidle : owed fd (s.pc t) = [] := by rw [hpc]; rfl
  by_cases hfd : fd' = fd
  · obtain ⟨t₀, -, heq⟩ := h
    have hnone : owed fd (s.pc t₀) = [] := by
      by_cases ht₀ : t₀ = t
      · rw [ht₀, hidle]
      · exact halone hfd t₀ ht₀
    refine ⟨t, fun t' ht => ?_, ?_⟩
    · simpa [update_of_ne ht] using halone hfd t' ht
    · simp only [Server.goto_log, Server.note_log, Server.goto_pc, update_self]
      rw [observedFor_append, putFor_append, hput, heq, hnone, howed]
  · have hzero : observedFor fd [.received fd' (readn r) (packed fd' r)] = [] := by
      simp [observedFor, hfd]
    refine h.quiet rfl hzero hput (owed_goto ?_)
    rw [howed, hzero]
    exact hidle.symm

/-- A push that returned 0. -/
theorem Received.pushed
    {t : Tid} {fd' : Fd} {n : Int} {d : PackData} {u : Nat} {w : Wunit}
    (h : Received fd s)
    (hpc : s.pc t = .pushing fd' n d) :
    Received fd
      (((s.setUnit u w).note [.pushed u fd' n d]).goto t (.notify u)) := by
  have hobserved : observedFor fd [.pushed u fd' n d] = [] := rfl
  have hput : putFor fd [.pushed u fd' n d] = owed fd (s.pc t) := by
    rw [hpc]
    simp only [putFor, owed, List.filterMap_cons, List.filterMap_nil]
    split <;> simp_all
  by_cases hidle : owed fd (s.pc t) = []
  · refine h.quiet rfl hobserved (hput.trans hidle) (owed_goto ?_)
    exact hidle.symm
  · obtain ⟨t₀, hothers, heq⟩ := h
    have ht : t₀ = t := by
      by_contra hne
      exact hidle (hothers t fun he => hne he.symm)
    subst ht
    refine ⟨t₀, fun t' ht => ?_, ?_⟩
    · simpa [update_of_ne ht] using hothers t' ht
    · simp only [Server.goto_log, Server.note_log, Server.setUnit_log,
        Server.goto_pc, update_self]
      rw [observedFor_append, putFor_append, hobserved, hput, heq]
      simp [owed]

/-- With room for a packet the push is not refused. -/
theorem Delivers.not_refused
    {u : Nat} {d : PackData} {ret : Int} {rq : Ringq}
    (h : Delivers cfg s)
    (hroom : (s.units u).rq.num ≤ 72)
    (hpush : pushPack (s.units u).rq d = .ok (ret, rq)) :
    ¬ ret < 0 := by
  obtain ⟨pending, hring, -⟩ := h.rings u
  rw [hring.num capInRange_ringCap] at hroom
  rcases hring.push capInRange_ringCap hpush with ⟨rfl, -⟩ | ⟨-, hfull, -⟩
  · decide
  · unfold ringCap at hfull
    omega

/-- One move that finds room. -/
theorem Received.move
    (h : Received fd s)
    (hdel : Delivers cfg s)
    (hboot : ∀ t, ¬ cfg.Runs t → s.pc t = .boot)
    (hgood : RoomToPush cfg s a)
    (hmove : Move cfg s a s') :
    Received fd s' := by
  have hlog : s.log = s.log ++ [] := by simp
  have hnil : ∀ x ∈ ([] : List Note), x.ofReception = false := by simp
  have hstay : ∀ t, owed fd (s.pc t) = owed fd (s.pc t) := fun _ => rfl
  have hfree : ∀ {t pc pc'}, s.pc t = pc' → owed fd pc' = [] → owed fd pc = [] →
      ∀ t', owed fd ((s.goto t pc).pc t') = owed fd (s.pc t') := by
    intro t pc pc' ht h' hpc
    exact owed_goto (by rw [ht, h', hpc])
  cases hmove with
  | arrived => exact h.silent hlog hnil hstay
  | booted _ hpc => exact h.silent hlog hnil (hfree hpc rfl rfl)
  | waited _ hpc => exact h.silent hlog hnil (hfree hpc rfl rfl)
  | drained _ hpc => exact h.silent hlog hnil (hfree hpc rfl rfl)
  | ignored => exact h.silent hlog hnil hstay
  | started _ hpc _ _ hstart =>
      exact h.silent hlog hnil (hfree hpc rfl (owed_start hstart))
  | writable => exact h.silent rfl callback_not_ofReception hstay
  | acceptFailed _ hpc => exact h.silent hlog hnil (hfree hpc rfl rfl)
  | rejected _ hpc =>
      exact h.silent rfl (by simp [Note.ofReception]) (hfree hpc rfl rfl)
  | accepted _ hpc =>
      exact h.silent rfl (by simp [Note.ofReception]) (hfree hpc rfl rfl)
  | handedOff _ hpc => exact h.silent hlog hnil (hfree hpc rfl rfl)
  | handOffFailed _ hpc => exact h.silent hlog hnil (hfree hpc rfl rfl)
  | announced _ hpc => exact h.silent rfl callback_not_ofReception (hfree hpc rfl rfl)
  | counted _ hpc => exact h.silent hlog hnil (hfree hpc rfl rfl)
  | pipeEmpty _ hpc => exact h.silent hlog hnil (hfree hpc rfl rfl)
  | pipeTaken _ hpc => exact h.silent hlog hnil (hfree hpc rfl rfl)
  | exhausted _ hpc => exact h.silent hlog hnil (hfree hpc rfl rfl)
  | opened _ hpc => exact h.silent hlog hnil (hfree hpc rfl owed_opened)
  | openFailed _ hpc => exact h.silent hlog hnil (hfree hpc rfl rfl)
  | undone _ hpc => exact h.silent hlog hnil (hfree hpc rfl owed_opened)
  | @received t _ i fd' _ hpc =>
      refine h.received hpc fun hfd t' ht => ?_
      subst hfd
      by_cases hrun : cfg.Runs t'
      · simp only [RoomToPush, hpc] at hgood
        exact hgood t' hrun ht
      · rw [hboot t' hrun]
        rfl
  | closedNone _ hpc => exact h.silent hlog hnil (owed_goto (hpc ▸ owed_closed))
  | closed _ hpc => exact h.silent hlog hnil (owed_goto (hpc ▸ owed_closed))
  | refused _ hpc hpush hret =>
      simp only [RoomToPush, hpc] at hgood
      exact absurd hret (hdel.not_refused hgood hpush)
  | pushed _ hpc => exact h.pushed hpc
  | notified _ hpc => exact h.silent hlog hnil (hfree hpc rfl rfl)
  | woke => exact h.silent hlog hnil hstay
  | handled =>
      refine h.silent rfl ?_ hstay
      rintro x (_ | ⟨_, hx⟩)
      · rfl
      · exact callback_not_ofReception x hx
  | emptied => exact h.silent hlog hnil hstay

end Steps

section Result

variable {cfg : Cfg} {s : Server} {fd : Fd}

/-- Packets the unit of a descriptor has handled for it, in order. -/
def handledFor (cfg : Cfg) (fd : Fd) (log : List Note) : List PackData :=
  (handledOf (cfg.unitOf fd) log).filter fun d => d.fd = ((fd : Nat) : Int)

/-- When no `readn` on the descriptor returned 0, everything pushed for it is
an observed chunk or notice. -/
theorem Delivers.pushedFor_eq_putFor
    (hzero : ∀ u d, .pushed u fd 0 d ∉ s.log) :
    pushedFor fd s.log = putFor fd s.log := by
  refine List.filterMap_congr fun x hx => ?_
  cases x with
  | pushed u fd' n d =>
      by_cases hfd : fd' = fd
      · subst hfd
        have hn : n ≠ 0 := fun hn => hzero u d (hn ▸ hx)
        simp [hn]
      · simp [hfd]
  | _ => rfl

/-- **Received data and close notices are kept** in every run in which the ring
has room at every push.  While no reactor is between its read and its push,
everything observed on a descriptor has been put into a ring; what was pushed
for the descriptor is what its unit has handled followed by what is pending for
it; and both together, as long as no push was for a `readn` that returned 0. -/
theorem observed_is_put
    (hreach : Reach (step cfg) (RoomToPush cfg) (ebSrvNew cfg) s) :
    ∃ pending : Nat → List PackData,
      (∀ u, PackRing ringCap (s.units u).rq (pending u)) ∧
      ∀ fd : Fd, (∀ t, cfg.Runs t → owed fd (s.pc t) = []) →
        observedFor fd s.log = putFor fd s.log ∧
        pushedFor fd s.log =
          handledFor cfg fd s.log ++
            (pending (cfg.unitOf fd)).filter (fun d => d.fd = ((fd : Nat) : Int)) ∧
        ((∀ u d, .pushed u fd 0 d ∉ s.log) →
          observedFor fd s.log =
            handledFor cfg fd s.log ++
              (pending (cfg.unitOf fd)).filter fun d => d.fd = ((fd : Nat) : Int)) := by
  have hdel := delivers_of_reach hreach
  choose pending hring hpushed using hdel.rings
  refine ⟨pending, hring, fun fd hidle => ?_⟩
  have hrec : Received fd s := by
    refine hreach.invariant_of
      (J := fun s => Delivers cfg s ∧ ∀ t, ¬ cfg.Runs t → s.pc t = .boot)
      (fun s hr => ⟨delivers_of_reach hr, fun t ht => pc_boot_of_not_runs hr ht⟩)
      received_ebSrvNew ?_
    intro s a s' hJ _ h hgood hstep
    exact h.move hJ.1 hJ.2 hgood (step_move hstep)
  have hput : observedFor fd s.log = putFor fd s.log := by
    obtain ⟨t, -, heq⟩ := hrec
    have hnone : owed fd (s.pc t) = [] := by
      by_cases hrun : cfg.Runs t
      · exact hidle t hrun
      · rw [pc_boot_of_not_runs hreach hrun]
        rfl
    rw [heq, hnone, List.append_nil]
  have hhandled : pushedFor fd s.log =
      handledFor cfg fd s.log ++
        (pending (cfg.unitOf fd)).filter fun d => d.fd = ((fd : Nat) : Int) := by
    rw [hdel.pushedFor_eq, hpushed, List.filter_append]
    rfl
  refine ⟨hput, hhandled, fun hzero => ?_⟩
  rw [hput, ← Delivers.pushedFor_eq_putFor hzero, hhandled]

/-- A byte is received, pushed and handled, and a second one is pending. -/
theorem observed_is_put_two_bytes :
    ∃ s, Reach (step Small.cfg) (RoomToPush Small.cfg) Small.start s ∧
      (observedFor 7 s.log).length = 2 ∧ (handledFor Small.cfg 7 s.log).length = 1 ∧
      ∃ pending : List PackData,
        PackRing ringCap (s.units 0).rq pending ∧
          observedFor 7 s.log =
            handledFor Small.cfg 7 s.log ++
              pending.filter fun d => d.fd = ((7 : Nat) : Int) := by
  obtain ⟨s, hreach, hcheck⟩ := reach_of_endsIn (step Small.cfg)
    (RoomToPush Small.cfg) Small.start .disabled
    (Small.boot ++ Small.client 7 ++ Small.chunk 7 ++ [Small.worker] ++
      Small.chunk 7)
    (fun s =>
      decide ((observedFor 7 s.log).length = 2) &&
      decide ((handledFor Small.cfg 7 s.log).length = 1) &&
      decide (∀ t, Small.cfg.Runs t → owed 7 (s.pc t) = []) &&
      decide (∀ x ∈ s.log, x.pushedZero = false))
    (by decide +kernel)
  simp only [Bool.and_eq_true, decide_eq_true_eq] at hcheck
  obtain ⟨⟨⟨hobs, hhandled⟩, hidle⟩, hzero⟩ := hcheck
  obtain ⟨pending, hring, hall⟩ := observed_is_put hreach
  obtain ⟨-, -, heq⟩ := hall 7 hidle
  exact ⟨s, hreach, hobs, hhandled, pending 0, hring 0,
    heq fun u d hmem => absurd (hzero _ hmem) (by simp [Note.pushedZero])⟩

/-- The seventy-fourth byte that arrives while the worker does not run is
received and lost. -/
theorem not_observed_is_put :
    ¬ ∀ s, Reachable (step Small.cfg) Small.start s →
      ∀ fd, (∀ t, Small.cfg.Runs t → owed fd (s.pc t) = []) →
        observedFor fd s.log = putFor fd s.log := by
  intro hall
  obtain ⟨s, hreach, hcheck⟩ := reachable_of_endsIn (step Small.cfg) Small.start
    (Small.boot ++ Small.client 7 ++
      (List.replicate 73 (Small.chunk 7)).flatten ++
      (Small.chunk 7).take 4)
    (fun s =>
      decide (∀ t, Small.cfg.Runs t → owed 7 (s.pc t) = []) &&
      decide ((observedFor 7 s.log).length ≠ (putFor 7 s.log).length))
    (by decide +kernel)
  simp only [Bool.and_eq_true, decide_eq_true_eq] at hcheck
  exact hcheck.2 (congrArg List.length (hall s hreach 7 hcheck.1))

end Result

end Ebot

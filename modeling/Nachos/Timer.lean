import Nachos.KernelMode

/-! The timer of `machine/timer.cc` with the handler of `threads/system.cc`, in the kernel with the calls of its
routines, and what the steps of the kernel do to the timer, to the clock and to the ready list. -/

namespace Nachos

/-- `TimerTicks`. -/
def timerTicks : Int := 100

/-- `Timer::TimeOfNextInterrupt`, where `Random` returns `random`. -/
def timeOfNextInterrupt (randomize : Bool) (random : Nat) : Int :=
  if randomize then 1 + (random : Int) % (timerTicks * 2) else timerTicks

/-- The longest time between two interrupts of the timer. -/
def timerPeriod (randomize : Bool) : Int := if randomize then timerTicks * 2 else timerTicks

theorem timeOfNextInterrupt_bounds (randomize : Bool) (random : Nat) :
    0 < timeOfNextInterrupt randomize random ∧ timeOfNextInterrupt randomize random ≤ timerPeriod randomize := by
  unfold timeOfNextInterrupt timerPeriod timerTicks
  cases randomize with
  | false => exact ⟨show (0 : Int) < 100 by decide, le_refl _⟩
  | true =>
      rw [if_pos rfl, if_pos rfl]
      omega

/-- The call of `Schedule` in `Timer::Timer` and in `Timer::TimerExpired`. -/
def timerRequest (randomize : Bool) (random : Nat) : ScheduleRequest :=
  ⟨0, 0, timeOfNextInterrupt randomize random, .timerInt⟩

/-- What the handler of the timer does next. -/
inductive TimerPhase where
  /-- It does not run. -/
  | waits
  /-- `TimerExpired` calls `Schedule`. -/
  | expired
  /-- `TimerInterruptHandler`. -/
  | interrupts
  | returns
  deriving DecidableEq

/-- The kernel with a timer. -/
structure TimedExecution (Sem : Type) where
  execution : Execution Sem
  phase : TimerPhase

/-- Only the timer makes requests for timer interrupts. -/
def Decision.Untimed {Sem : Type} (d : Decision Sem) : Prop :=
  (∀ request, d.kernel = .schedule request → request.type ≠ .timerInt) ∧
    ∀ request, d.handler = .schedule request → request.type ≠ .timerInt

namespace TimerPhase

variable {Sem : Type}

/-- What the handler of the timer decides. All other code decides as it likes. -/
def decision (randomize : Bool) (random : Nat) (status : MachineStatus) (d : Decision Sem) : TimerPhase → Decision Sem
  | .waits => d
  | .expired => { d with handler := .schedule (timerRequest randomize random) }
  | .interrupts => { d with handler := if status ≠ .idleMode then .yieldOnReturn else .return }
  | .returns => { d with handler := .return }

/-- The handler of the timer is called when a timer interrupt is fired. -/
def next (s after : Execution Sem) : TimerPhase → TimerPhase
  | .waits =>
      match after.interrupt.fired.drop s.interrupt.fired.length with
      | (toOccur, _) :: _ => if toOccur.type = .timerInt then .expired else .waits
      | [] => .waits
  | .expired => .interrupts
  | .interrupts => if s.interrupt.status ≠ .idleMode then .returns else .waits
  | .returns => .waits

end TimerPhase

variable {Sem : Type}

section Runs

variable [DecidableEq Sem]

def TimedExecution.step (randomize : Bool) (random : Nat) (d : Decision Sem) (s : TimedExecution Sem) :
    Except Stop (TimedExecution Sem) :=
  (s.execution.step (s.phase.decision randomize random s.execution.interrupt.status d)).map fun after =>
    ⟨after, s.phase.next s.execution after⟩

/-- The runs of the kernel with a timer, which `Initialize` makes first. -/
def timedRuns (randomize : Bool) (sem : Sem → Semaphore) : TransitionSystem (TimedExecution Sem) where
  init s := s.phase = .waits ∧ ∃ random d, d.kernel = .schedule (timerRequest randomize random) ∧
    (Execution.initial sem).step d = .ok s.execution
  step s s' := ∃ random d, d.Untimed ∧ s.step randomize random d = .ok s'

namespace TimedExecution

variable {randomize : Bool} {random : Nat} {sem : Sem → Semaphore} {d : Decision Sem} {s s' : TimedExecution Sem}

theorem step_eq_ok (h : s.step randomize random d = .ok s') :
    s.execution.step (s.phase.decision randomize random s.execution.interrupt.status d) = .ok s'.execution ∧
      s'.phase = s.phase.next s.execution s'.execution := by
  unfold step at h
  cases hafter : s.execution.step (s.phase.decision randomize random s.execution.interrupt.status d) with
  | error stop =>
      rw [hafter] at h
      cases h
  | ok after =>
      rw [hafter] at h
      cases h
      exact ⟨rfl, rfl⟩

/-- The runs with a timer are runs of the kernel. -/
theorem reachable_execution (h : (timedRuns randomize sem).Reachable s) :
    (Execution.runs sem).Reachable s.execution := by
  induction h with
  | init h =>
      obtain ⟨-, random, d, -, hstep⟩ := h
      exact .step (.init rfl) ⟨d, hstep⟩
  | step _ hstep ih =>
      obtain ⟨random, d, -, hstep⟩ := hstep
      exact .step ih ⟨_, (step_eq_ok hstep).1⟩

end TimedExecution

end Runs

/-- The timer interrupts that are pending. -/
def Interrupt.timers (s : Interrupt) : List (ListElement PendingInterrupt) :=
  s.pending.filter fun element => element.item.type = .timerInt

/-- What `CheckIfDue` does before it calls a handler. -/
theorem Interrupt.nextDue_cases {advanceClock : Bool} {s after : Interrupt} {due : Option PendingInterrupt}
    (hsorted : KeySorted s.pending) (h : s.nextDue advanceClock = (due, after)) :
    after.yieldOnReturn = s.yieldOnReturn ∧ after.fired = s.fired ∧ KeySorted after.pending ∧
      (due = none ∧ after.pending.Perm s.pending ∧ (advanceClock = false → after.totalTicks = s.totalTicks ∧
          ((∀ element ∈ s.pending, s.totalTicks < element.key) ∨ s.status = .idleMode)) ∨
        ∃ first rest, s.pending = first :: rest ∧ due = some first.item ∧ after.pending = rest ∧
          after.totalTicks = max s.totalTicks first.key ∧ (advanceClock = false → first.key ≤ s.totalTicks)) := by
  unfold nextDue at h
  cases hpending : s.pending with
  | nil =>
      rw [hpending] at h
      cases h
      refine ⟨rfl, rfl, hsorted, .inl ⟨rfl, by rw [hpending], fun _ => ⟨rfl, .inl ?_⟩⟩⟩
      intro element hmem
      cases hmem
  | cons first rest =>
      rw [hpending] at h hsorted
      obtain ⟨hfirst, hrest⟩ := List.pairwise_cons.mp hsorted
      have hback := sortedInsert_perm first.item first.key rest
      simp only [sortedRemove] at h
      split at h
      · next hlater =>
        cases h
        refine ⟨rfl, rfl, sortedInsert_keySorted hrest, .inl ⟨rfl, hback, fun _ => ⟨rfl, .inl ?_⟩⟩⟩
        intro element hmem
        rcases List.mem_cons.mp hmem with rfl | hmem
        · exact hlater.2
        · exact lt_of_lt_of_le hlater.2 (hfirst element hmem)
      · next hdue =>
        have hmax : (if s.totalTicks < first.key then first.key else s.totalTicks) = max s.totalTicks first.key := by
          split <;> omega
        have hkey : advanceClock = false → first.key ≤ s.totalTicks := fun hfalse =>
          not_lt.mp fun hlater => hdue ⟨hfalse, hlater⟩
        split at h
        · next hnothing =>
          cases h
          refine ⟨rfl, rfl, sortedInsert_keySorted hrest, .inl ⟨rfl, hback, fun hfalse => ⟨?_, .inr hnothing.1⟩⟩⟩
          show (if s.totalTicks < first.key then first.key else s.totalTicks) = s.totalTicks
          rw [if_neg (not_lt.mpr (hkey hfalse))]
        · cases h
          exact ⟨rfl, rfl, hrest, .inr ⟨first, rest, rfl, rfl, rfl, hmax, hkey⟩⟩

namespace CallFrame

/-- The frames that are no part of the simulation of interrupts. -/
def Plain : CallFrame Sem → Prop
  | .handler | .checkIfDueEnd _ | .tickLoop _ | .idle | .idleLoop => False
  | _ => True

/-- The frames in which the current thread gives the processor away if another one is ready. -/
def Gives : CallFrame Sem → Prop
  | .yield _ | .sleepLoop => True
  | _ => False

/-- The frames while `OneTick` or `Idle` is in its loop, perhaps in a handler that calls `V`; `base` is the loop with
the frames below it. -/
inductive InLoop (base : List (CallFrame Sem)) : List (CallFrame Sem) → Prop where
  | check : InLoop base base
  | ends (old : MachineStatus) : InLoop base (.checkIfDueEnd old :: base)
  | handler (old : MachineStatus) : InLoop base (.handler :: .checkIfDueEnd old :: base)
  | semV (x : Sem) (old : MachineStatus) :
      InLoop base (.semV x :: .returned .semV .intOff :: .handler :: .checkIfDueEnd old :: base)
  | setLevel (old : MachineStatus) :
      InLoop base (.setLevel .intOff :: .returned .semV .intOff :: .handler :: .checkIfDueEnd old :: base)
  | returned (old : MachineStatus) :
      InLoop base (.returned .semV .intOff :: .handler :: .checkIfDueEnd old :: base)

/-- `OneTick` or `Idle` is about to check whether an interrupt is due. -/
inductive AtLoop : List (CallFrame Sem) → Prop where
  | tick {old : MachineStatus} {rest : List (CallFrame Sem)} (hold : old ≠ .idleMode) (hrest : ∀ f ∈ rest, f.Plain) :
      AtLoop (.tickLoop old :: rest)
  | idle {rest : List (CallFrame Sem)} (hrest : ∀ f ∈ rest, f.Plain) : AtLoop (.idleLoop :: .sleepLoop :: rest)

end CallFrame

/-- The timer interrupts and the request for a context switch stay, and no handler is called. -/
structure Interrupt.Still (s t : Interrupt) : Prop where
  timers : t.timers.Perm s.timers
  sorted : KeySorted s.pending → KeySorted t.pending
  fired : t.fired = s.fired
  yields : t.yieldOnReturn = s.yieldOnReturn

theorem Interrupt.Still.of_pending {s t : Interrupt} (hpending : t.pending = s.pending) (hfired : t.fired = s.fired)
    (hyields : t.yieldOnReturn = s.yieldOnReturn) : s.Still t := by
  refine ⟨?_, ?_, hfired, hyields⟩
  · unfold Interrupt.timers
    rw [hpending]
  · rw [hpending]
    exact id

theorem Interrupt.timers_schedule {request : ScheduleRequest} {s t : Interrupt} (h : s.schedule request = some t) :
    t.timers.Perm ((if request.type = .timerInt then
      [⟨s.totalTicks + request.fromNow, ⟨s.allocated, request.handler, request.arg, s.totalTicks + request.fromNow,
        request.type⟩⟩] else []) ++ s.timers) := by
  obtain ⟨-, rfl⟩ := schedule_eq_some h
  have hperm := (sortedInsert_perm (⟨s.allocated, request.handler, request.arg, s.totalTicks + request.fromNow,
    request.type⟩ : PendingInterrupt) (s.totalTicks + request.fromNow) s.pending).filter
      fun element => element.item.type = .timerInt
  refine hperm.trans ?_
  rw [List.filter_cons]
  split
  · next htype =>
    rw [if_pos (of_decide_eq_true htype)]
    rfl
  · next htype =>
    rw [if_neg (fun heq => htype (decide_eq_true heq))]
    rfl

theorem Interrupt.schedule_sorted {request : ScheduleRequest} {s t : Interrupt} (h : s.schedule request = some t)
    (hsorted : KeySorted s.pending) : KeySorted t.pending := by
  obtain ⟨-, rfl⟩ := schedule_eq_some h
  exact sortedInsert_keySorted hsorted

theorem Interrupt.schedule_fired {request : ScheduleRequest} {s t : Interrupt} (h : s.schedule request = some t) :
    t.fired = s.fired := by
  obtain ⟨-, rfl⟩ := schedule_eq_some h
  rfl

theorem Interrupt.Still.schedule {request : ScheduleRequest} {s t : Interrupt} (h : s.schedule request = some t)
    (htype : request.type ≠ .timerInt) : s.Still t := by
  have htimers := timers_schedule h
  rw [if_neg htype] at htimers
  refine ⟨htimers, schedule_sorted h, schedule_fired h, ?_⟩
  obtain ⟨-, rfl⟩ := schedule_eq_some h
  rfl

theorem TimerPhase.next_of_fired {s after : Execution Sem} {phase : TimerPhase} {toOccur : PendingInterrupt} {now : Int}
    (hphase : phase = .waits) (h : after.interrupt.fired = s.interrupt.fired ++ [(toOccur, now)]) :
    phase.next s after = if toOccur.type = .timerInt then .expired else .waits := by
  subst hphase
  unfold next
  rw [h, List.drop_left]

theorem TimerPhase.next_of_still {s after : Execution Sem} {phase : TimerPhase} (hphase : phase = .waits)
    (h : after.interrupt.fired = s.interrupt.fired) : phase.next s after = .waits := by
  subst hphase
  unfold next
  rw [h, List.drop_length]

namespace Execution

variable {s after : Execution Sem} {frame : CallFrame Sem} {frames rest : List (CallFrame Sem)} {d : Decision Sem}

/-- What a frame outside the simulation of interrupts does, apart from a switch. -/
inductive PlainStep (s : Execution Sem) (frame : CallFrame Sem) (frames : List (CallFrame Sem))
    (after : Execution Sem) : Prop where
  | goesOn (hgives : frame.Gives → s.readyList = []) (hframes : ∀ f ∈ frames, f.Plain)
      (hnow : after.interrupt.totalTicks = s.interrupt.totalTicks) (hstill : s.interrupt.Still after.interrupt)
      (added : List ThreadId) (hready : after.readyList = s.readyList ++ added)
  | ticks (hgives : ¬frame.Gives) {old : MachineStatus} {more : List (CallFrame Sem)} (hold : old ≠ .idleMode)
      (hmore : ∀ f ∈ more, f.Plain) (hframes : frames = .tickLoop old :: more)
      (hnow : after.interrupt.totalTicks ≤ s.interrupt.totalTicks + systemTick)
      (hlater : s.interrupt.totalTicks ≤ after.interrupt.totalTicks)
      (hstill : s.interrupt.Still after.interrupt) (hready : after.readyList = s.readyList)
  | gives {next : ThreadId} {remaining added : List ThreadId} {more : List (CallFrame Sem)}
      (hmore : ∀ f ∈ more, f.Plain) (hframes : frames = .schedulerRun next :: more)
      (hbefore : s.readyList = next :: remaining) (hready : after.readyList = remaining ++ added)
      (hnow : after.interrupt.totalTicks = s.interrupt.totalTicks) (hstill : s.interrupt.Still after.interrupt)
  | idles (hframes : frames = [.idle, .sleepLoop]) (hready : s.readyList = []) (hafter : after = s)

theorem beginTick_still (i : Interrupt) : i.Still i.beginTick ∧ i.totalTicks ≤ i.beginTick.totalTicks ∧
    i.beginTick.totalTicks ≤ i.totalTicks + systemTick := by
  unfold Interrupt.beginTick
  split
  · exact ⟨.of_pending rfl rfl rfl, by simp only [systemTick]; omega, le_refl _⟩
  · refine ⟨.of_pending rfl rfl rfl, ?_, ?_⟩
    · simp only [userTick]
      omega
    · simp only [userTick, systemTick]
      omega

/-- A step that leaves the clock, the pending interrupts and the ready list alone, but for new threads on it. -/
theorem PlainStep.same (hgives : ¬frame.Gives) (hframes : ∀ f ∈ frames, f.Plain)
    (hnow : after.interrupt.totalTicks = s.interrupt.totalTicks)
    (hpending : after.interrupt.pending = s.interrupt.pending)
    (hfired : after.interrupt.fired = s.interrupt.fired)
    (hyields : after.interrupt.yieldOnReturn = s.interrupt.yieldOnReturn)
    (hready : ∃ added, after.readyList = s.readyList ++ added) : PlainStep s frame frames after := by
  obtain ⟨added, hready⟩ := hready
  exact .goesOn (fun h => absurd h hgives) hframes hnow (.of_pending hpending hfired hyields) added hready

theorem deleteFinished_eq_ok (h : s.deleteFinished = .ok after) :
    after = s ∨ after = { s with threadToBeDestroyed := none } := by
  unfold deleteFinished at h
  split at h
  · cases h
    exact .inl rfl
  · split at h
    · cases h
    · cases h
      exact .inr rfl

theorem schedule_eq_ok {request : ScheduleRequest} {frames' : List (CallFrame Sem)}
    (h : ((s.schedule request).map fun after => (frames', after)) = .ok (frames, after)) :
    ∃ interrupt, s.interrupt.schedule request = some interrupt ∧ frames = frames' ∧
      after = { s with interrupt := interrupt } := by
  unfold schedule at h
  cases hschedule : s.interrupt.schedule request with
  | none =>
      rw [hschedule] at h
      cases h
  | some interrupt =>
      rw [hschedule] at h
      cases h
      exact ⟨interrupt, rfl, rfl, rfl⟩

theorem kernelCall_plain {c : KernelCall Sem} (huntimed : ∀ request, c = .schedule request → request.type ≠ .timerInt)
    (h : s.kernelCall c = .ok (frames, after)) : PlainStep s .kernel frames after := by
  have hsame : (∀ f ∈ frames, f.Plain) → after = s → PlainStep s .kernel frames after := by
    rintro hframes rfl
    exact .same (fun h => h) hframes rfl rfl rfl rfl ⟨[], (List.append_nil _).symm⟩
  cases c with
  | schedule request =>
      obtain ⟨interrupt, hschedule, rfl, rfl⟩ := schedule_eq_ok h
      exact .goesOn (fun h => h.elim) (by simp [CallFrame.Plain]) (Interrupt.schedule_totalTicks hschedule)
        (.schedule hschedule (huntimed request rfl)) [] (List.append_nil _).symm
  | halt => cases h
  | «return» =>
      cases h
      exact hsame (by simp) rfl
  | _ =>
      cases h
      exact hsame (by simp [CallFrame.Plain]) rfl

/-- What the current thread does in the loop of `OneTick` or `Idle`. -/
inductive LoopStep (d : Decision Sem) (s : Execution Sem) (base cur cur' : List (CallFrame Sem))
    (after : Execution Sem) : Prop where
  | fires (hcur : cur = base) {old : MachineStatus} {first : ListElement PendingInterrupt}
      (hpending : s.interrupt.pending = first :: after.interrupt.pending)
      (hdue : first.key ≤ s.interrupt.totalTicks)
      (hfired : after.interrupt.fired = s.interrupt.fired ++ [(first.item, s.interrupt.totalTicks)])
      (hyields : after.interrupt.yieldOnReturn = s.interrupt.yieldOnReturn)
      (hcur' : cur' = .handler :: .checkIfDueEnd old :: base)
      (hnow : after.interrupt.totalTicks = s.interrupt.totalTicks) (hready : after.readyList = s.readyList)
  | tickEnds {old : MachineStatus} {rest : List (CallFrame Sem)} (hbase : base = .tickLoop old :: rest)
      (hcur : cur = base) (hlater : ∀ element ∈ s.interrupt.pending, s.interrupt.totalTicks < element.key)
      (hpending : after.interrupt.pending.Perm s.interrupt.pending) (hsorted : KeySorted after.interrupt.pending)
      (hfired : after.interrupt.fired = s.interrupt.fired) (hoff : after.interrupt.yieldOnReturn = false)
      (hcur' : ∀ f ∈ cur', f.Plain)
      (hyield : s.interrupt.yieldOnReturn = true → ∃ u more, cur' = .yield u :: more)
      (hnow : after.interrupt.totalTicks = s.interrupt.totalTicks) (hready : after.readyList = s.readyList)
  | idleEnds {rest : List (CallFrame Sem)} (hbase : base = .idleLoop :: .sleepLoop :: rest) (hcur : cur = base)
      (hpending : after.interrupt.pending.Perm s.interrupt.pending) (hsorted : KeySorted after.interrupt.pending)
      (hfired : after.interrupt.fired = s.interrupt.fired) (hoff : after.interrupt.yieldOnReturn = false)
      (hcur' : cur' = .sleepLoop :: rest)
      (hnow : after.interrupt.totalTicks = s.interrupt.totalTicks) (hready : after.readyList = s.readyList)
  | schedules {request : ScheduleRequest} (hd : d.handler = .schedule request)
      (hschedule : s.interrupt.schedule request = some after.interrupt) {old : MachineStatus}
      (hcur : cur = .handler :: .checkIfDueEnd old :: base) (hcur' : cur' = cur)
      (hready : after.readyList = s.readyList)
  | yields (hd : d.handler = .yieldOnReturn) {old : MachineStatus}
      (hcur : cur = .handler :: .checkIfDueEnd old :: base) (hcur' : cur' = cur)
      (hafter : after.interrupt = { s.interrupt with yieldOnReturn := true }) (hready : after.readyList = s.readyList)
  | returns (hd : d.handler = .return) {old : MachineStatus} (hcur : cur = .handler :: .checkIfDueEnd old :: base)
      (hcur' : cur' = .checkIfDueEnd old :: base) (hafter : after = s)
  | goesOn (hd : ∀ frames, cur = .handler :: frames → ∃ x, d.handler = .semV x) (hcur' : CallFrame.InLoop base cur')
      (hnow : after.interrupt.totalTicks = s.interrupt.totalTicks) (hstill : s.interrupt.Still after.interrupt)
      (added : List ThreadId) (hready : after.readyList = s.readyList ++ added)

/-- `CheckIfDue` in a loop. -/
theorem checkIfDue_loop {caller : CallFrame Sem} {returnsFalse : Execution Sem → Result Sem}
    (hsorted : KeySorted s.interrupt.pending)
    (h : s.checkIfDue false caller returnsFalse = .ok (frames, after)) :
    (∃ old first, s.interrupt.pending = first :: after.interrupt.pending ∧ first.key ≤ s.interrupt.totalTicks ∧
      after.interrupt.fired = s.interrupt.fired ++ [(first.item, s.interrupt.totalTicks)] ∧
      after.interrupt.yieldOnReturn = s.interrupt.yieldOnReturn ∧ frames = [.handler, .checkIfDueEnd old, caller] ∧
      after.interrupt.totalTicks = s.interrupt.totalTicks ∧ after.readyList = s.readyList) ∨
    ∃ interrupt, returnsFalse { s with interrupt := interrupt } = .ok (frames, after) ∧
      interrupt.pending.Perm s.interrupt.pending ∧ KeySorted interrupt.pending ∧
      interrupt.fired = s.interrupt.fired ∧ interrupt.yieldOnReturn = s.interrupt.yieldOnReturn ∧
      interrupt.totalTicks = s.interrupt.totalTicks ∧
      ((∀ element ∈ s.interrupt.pending, s.interrupt.totalTicks < element.key) ∨ s.interrupt.status = .idleMode) := by
  unfold checkIfDue at h
  split at h
  · cases h
  · split at h
    · next interrupt hdue =>
      obtain ⟨hyields, hfired, hsorted', ⟨-, hperm, hnow⟩ | ⟨_, _, _, hsome, -⟩⟩ := Interrupt.nextDue_cases hsorted hdue
      · exact .inr ⟨interrupt, h, hperm, hsorted', hfired, hyields, (hnow rfl).1, (hnow rfl).2⟩
      · cases hsome
    · next toOccur interrupt hdue =>
      obtain ⟨hyields, hfired, hsorted', ⟨hnone, -⟩ | ⟨first, rest, hpending, hsome, hrest, hnow, hkey⟩⟩ :=
        Interrupt.nextDue_cases hsorted hdue
      · cases hnone
      · cases h
        obtain rfl := Option.some.inj hsome
        have hsame : interrupt.totalTicks = s.interrupt.totalTicks := by
          rw [hnow, max_eq_left (hkey rfl)]
        refine .inl ⟨_, first, ?_, hkey rfl, ?_, hyields, rfl, hsame, rfl⟩
        · rw [hpending, ← hrest]
          rfl
        · show interrupt.fired ++ [(first.item, interrupt.totalTicks)] = _
          rw [hfired, hsame]

variable [DecidableEq Sem]

theorem execute_plain (hplain : frame.Plain) (hrun : ∀ next, frame ≠ .schedulerRun next) (hpre : frame.Pre s.mode)
    (huntimed : d.Untimed) (h : s.execute d frame = .ok (frames, after)) : PlainStep s frame frames after := by
  have hnone : after.readyList = s.readyList → ∃ added, after.readyList = s.readyList ++ added := fun hready =>
    ⟨[], by rw [hready, List.append_nil]⟩
  cases frame with
  | kernel => exact kernelCall_plain huntimed.1 h
  | returned routine entry =>
      cases h
      exact .same (fun h => h) (by simp) rfl rfl rfl rfl (hnone rfl)
  | semP x =>
      cases h
      exact .same (fun h => h) (by simp [CallFrame.Plain]) rfl rfl rfl rfl (hnone rfl)
  | semPLoop x oldLevel =>
      unfold execute semPLoop at h
      dsimp only at h
      split at h
      · cases h
        exact .same (fun h => h) (by simp [CallFrame.Plain]) rfl rfl rfl rfl (hnone rfl)
      · cases h
        exact .same (fun h => h) (by simp [CallFrame.Plain]) rfl rfl rfl rfl (hnone rfl)
  | semV x =>
      unfold execute semV at h
      dsimp only at h
      cases hqueue : (s.sem x).queue with
      | nil =>
          rw [hqueue] at h
          cases h
          exact .same (fun h => h) (by simp [CallFrame.Plain]) rfl rfl rfl rfl (hnone rfl)
      | cons thread rest =>
          rw [hqueue] at h
          cases h
          exact .same (fun h => h) (by simp [CallFrame.Plain]) rfl rfl rfl rfl ⟨[thread], rfl⟩
  | setLevel now =>
      change s.setLevel now = .ok (frames, after) at h
      unfold setLevel at h
      split at h
      · cases h
      · split at h
        · next hticks =>
          cases h
          obtain ⟨hstill, hlater, hnow⟩ := beginTick_still (s.withLevel now).interrupt
          refine .ticks (fun h => h) ?_ (by simp) rfl hnow hlater ?_ rfl
          · have hkernel : s.mode.Kernel := hpre.resolve_right fun hhandler => by
              rw [hticks.1] at hhandler
              cases hhandler.2
            show s.interrupt.status ≠ .idleMode
            rw [show s.interrupt.status = .systemMode from hkernel.status]
            decide
          · exact ⟨hstill.timers, hstill.sorted, hstill.fired, hstill.yields⟩
        · cases h
          exact .same (fun h => h) (by simp) rfl rfl rfl rfl (hnone rfl)
  | tickEnd old =>
      cases h
      exact .same (fun h => h) (by simp) rfl rfl rfl rfl (hnone rfl)
  | sleep this =>
      change s.sleep this = .ok (frames, after) at h
      unfold sleep at h
      split at h
      · cases h
      · split at h
        · cases h
        · cases h
          exact .same (fun h => h) (by simp [CallFrame.Plain]) rfl rfl rfl rfl (hnone rfl)
  | sleepLoop =>
      unfold execute at h
      dsimp only at h
      cases hready : s.readyList with
      | nil =>
          rw [hready] at h
          cases h
          exact .idles rfl hready rfl
      | cons next remaining =>
          rw [hready] at h
          cases h
          have hnothing : ∀ f ∈ ([] : List (CallFrame Sem)), f.Plain := by simp
          exact .gives hnothing rfl hready (List.append_nil _).symm rfl (.of_pending rfl rfl rfl)
  | schedulerRun next => exact absurd rfl (hrun next)
  | afterSwitch =>
      unfold execute at h
      dsimp only at h
      cases hdelete : s.deleteFinished with
      | error stop =>
          rw [hdelete] at h
          cases h
      | ok deleted =>
          rw [hdelete] at h
          cases h
          rcases deleteFinished_eq_ok hdelete with rfl | rfl
          · exact .same (fun h => h) (by simp) rfl rfl rfl rfl (hnone rfl)
          · exact .same (fun h => h) (by simp) rfl rfl rfl rfl (hnone rfl)
  | yield this =>
      unfold execute yield at h
      dsimp only at h
      split at h
      · cases h
      · cases hready : s.readyList with
        | nil =>
            rw [hready] at h
            cases h
            exact .goesOn (fun _ => hready) (by simp [CallFrame.Plain]) rfl (.of_pending rfl rfl rfl) []
              (List.append_nil _).symm
        | cons next remaining =>
            rw [hready] at h
            cases h
            have hlevel : ∀ f ∈ [(.setLevel s.interrupt.level : CallFrame Sem)], f.Plain := by
              simp [CallFrame.Plain]
            exact .gives hlevel rfl hready rfl rfl (.of_pending rfl rfl rfl)
  | start this =>
      unfold execute startThread at h
      dsimp only at h
      split at h
      · cases h
      · cases h
        exact .same (fun h => h) (by simp [CallFrame.Plain]) rfl rfl rfl rfl ⟨[this], rfl⟩
  | finish this =>
      unfold execute finish at h
      dsimp only at h
      split at h
      · cases h
      · split at h
        · cases h
        · cases h
          exact .same (fun h => h) (by simp [CallFrame.Plain]) rfl rfl rfl rfl (hnone rfl)
  | setupThreadState =>
      unfold execute at h
      dsimp only at h
      cases hdelete : s.deleteFinished with
      | error stop =>
          rw [hdelete] at h
          cases h
      | ok deleted =>
          rw [hdelete] at h
          cases h
          rcases deleteFinished_eq_ok hdelete with rfl | rfl
          · exact .same (fun h => h) (by simp [CallFrame.Plain]) rfl rfl rfl rfl (hnone rfl)
          · exact .same (fun h => h) (by simp [CallFrame.Plain]) rfl rfl rfl rfl (hnone rfl)
  | threadRoot =>
      cases h
      exact .same (fun h => h) (by simp [CallFrame.Plain]) rfl rfl rfl rfl (hnone rfl)
  | threadFinish =>
      cases h
      exact .same (fun h => h) (by simp [CallFrame.Plain]) rfl rfl rfl rfl (hnone rfl)
  | machineRun =>
      cases h
      exact .same (fun h => h) (by simp [CallFrame.Plain]) rfl rfl rfl rfl (hnone rfl)
  | oneInstruction =>
      cases h
      refine .same (fun h => h) ?_ rfl rfl rfl rfl (hnone rfl)
      cases d.traps with
      | true => simp [CallFrame.Plain]
      | false => simp
  | machineTick =>
      cases h
      obtain ⟨hstill, hlater, hnow⟩ := beginTick_still s.interrupt
      have hmore : ∀ f ∈ [(.oneInstruction : CallFrame Sem), .machineTick], f.Plain := by
        simp [CallFrame.Plain]
      refine .ticks (fun h => h) ?_ hmore rfl hnow hlater hstill rfl
      rw [show s.interrupt.status = .userMode from hpre.2]
      decide
  | raiseException =>
      cases h
      exact .same (fun h => h) (by simp [CallFrame.Plain]) rfl rfl rfl rfl (hnone rfl)
  | exceptionEnd oldStatus =>
      cases h
      exact .same (fun h => h) (by simp) rfl rfl rfl rfl (hnone rfl)
  | handler | checkIfDueEnd _ | tickLoop _ | idle | idleLoop => exact hplain.elim

theorem execute_loop {base : List (CallFrame Sem)} (hs : s.Disciplined) (hsorted : KeySorted s.interrupt.pending)
    (hbase : CallFrame.AtLoop base) (hstack : s.stack s.currentThread = frame :: rest)
    (hin : CallFrame.InLoop base (frame :: rest)) (h : s.execute d frame = .ok (frames, after)) :
    LoopStep d s base (frame :: rest) (frames ++ rest) after := by
  have hpre := hs.pre hstack
  generalize hcur : frame :: rest = cur at hin
  cases hin with
  | check =>
      cases hbase with
      | @tick old rest hold hrest =>
          obtain ⟨rfl, rfl⟩ := List.cons.inj hcur
          rcases checkIfDue_loop hsorted h with
            ⟨old', first, hpending, hkey, hfired, hyields, rfl, hnow, hready⟩ |
            ⟨interrupt, hreturns, hperm, hsorted', hfired, hyields, hnow, hlater⟩
          · exact .fires rfl hpending hkey hfired hyields rfl hnow hready
          · have hlater : ∀ element ∈ s.interrupt.pending, s.interrupt.totalTicks < element.key := by
              refine hlater.resolve_right fun hidle => hold ?_
              rw [← hidle]
              exact hpre.2.2.symm
            unfold afterLoop at hreturns
            dsimp only [withLevel] at hreturns
            split at hreturns
            · cases hreturns
              refine .tickEnds rfl rfl hlater hperm hsorted' hfired rfl ?_ (fun _ => ⟨_, _, rfl⟩) hnow rfl
              simpa [CallFrame.Plain] using hrest
            · next hoff =>
              cases hreturns
              refine .tickEnds rfl rfl hlater hperm hsorted' hfired (by simpa using hoff) hrest ?_ hnow rfl
              intro hon
              rw [hyields] at hoff
              exact absurd hon hoff
      | @idle rest hrest =>
          obtain ⟨rfl, rfl⟩ := List.cons.inj hcur
          unfold execute at h
          dsimp only at h
          rcases checkIfDue_loop hsorted h with
            ⟨old', first, hpending, hkey, hfired, hyields, rfl, hnow, hready⟩ |
            ⟨interrupt, hreturns, hperm, hsorted', hfired, hyields, hnow, -⟩
          · exact .fires rfl hpending hkey hfired hyields rfl hnow hready
          · cases hreturns
            exact .idleEnds rfl rfl hperm hsorted' hfired rfl rfl hnow rfl
  | ends old =>
      obtain ⟨rfl, rfl⟩ := List.cons.inj hcur
      cases h
      exact .goesOn (fun _ heq => by cases heq) .check rfl (.of_pending rfl rfl rfl) [] (List.append_nil _).symm
  | handler old =>
      obtain ⟨rfl, rfl⟩ := List.cons.inj hcur
      have hlevel : s.interrupt.level = .intOff := Mode.Handler.level hpre
      change s.handlerCall d.handler = .ok (frames, after) at h
      cases hd : d.handler with
      | semV x =>
          rw [hd] at h
          cases h
          rw [hlevel]
          exact .goesOn (fun _ _ => ⟨x, hd⟩) (.semV x old) rfl (.of_pending rfl rfl rfl) [] (List.append_nil _).symm
      | schedule request =>
          rw [hd] at h
          obtain ⟨interrupt, hschedule, rfl, rfl⟩ := schedule_eq_ok h
          exact .schedules hd hschedule rfl rfl rfl
      | yieldOnReturn =>
          rw [hd] at h
          unfold handlerCall at h
          dsimp only at h
          split at h
          · cases h
            exact .yields hd rfl rfl rfl rfl
          · cases h
      | «return» =>
          rw [hd] at h
          cases h
          exact .returns hd rfl rfl rfl
  | semV x old =>
      obtain ⟨rfl, rfl⟩ := List.cons.inj hcur
      have hlevel : s.interrupt.level = .intOff := by
        obtain ⟨below, hbelow⟩ := hs.entry hstack (show CallFrame.routine (.semV x) = some .semV from rfl)
        injection hbelow with hentry
        injection hentry with _ hentry
        exact hentry.symm
      change Except.ok (s.semV x) = .ok (frames, after) at h
      unfold semV at h
      dsimp only at h
      rw [hlevel] at h
      cases hqueue : (s.sem x).queue with
      | nil =>
          rw [hqueue] at h
          cases h
          exact .goesOn (fun _ heq => by cases heq) (.setLevel old) rfl (.of_pending rfl rfl rfl) []
            (List.append_nil _).symm
      | cons thread _ =>
          rw [hqueue] at h
          cases h
          exact .goesOn (fun _ heq => by cases heq) (.setLevel old) rfl (.of_pending rfl rfl rfl) [thread] rfl
  | setLevel old =>
      obtain ⟨rfl, rfl⟩ := List.cons.inj hcur
      cases h
      exact .goesOn (fun _ heq => by cases heq) (.returned old) rfl (.of_pending rfl rfl rfl) []
        (List.append_nil _).symm
  | returned old =>
      obtain ⟨rfl, rfl⟩ := List.cons.inj hcur
      cases h
      exact .goesOn (fun _ heq => by cases heq) (.handler old) rfl (.of_pending rfl rfl rfl) [] (List.append_nil _).symm

/-- `Idle` begins. If no handler is called the machine halts. -/
theorem execute_idle (hsorted : KeySorted s.interrupt.pending) (h : s.execute d .idle = .ok (frames, after)) :
    ∃ old first, s.interrupt.pending = first :: after.interrupt.pending ∧
      after.interrupt.fired = s.interrupt.fired ++ [(first.item, after.interrupt.totalTicks)] ∧
      after.interrupt.yieldOnReturn = s.interrupt.yieldOnReturn ∧
      frames = [.handler, .checkIfDueEnd old, .idleLoop] ∧
      after.interrupt.totalTicks = max s.interrupt.totalTicks first.key := by
  unfold execute checkIfDue at h
  dsimp only at h
  split at h
  · cases h
  · split at h
    · cases h
    · next toOccur interrupt hdue =>
      obtain ⟨hyields, hfired, hsorted', ⟨hnone, -⟩ | ⟨first, rest, hpending, hsome, hrest, hnow, hkey⟩⟩ :=
        Interrupt.nextDue_cases (s := (s.withMachineStatus .idleMode).interrupt) hsorted hdue
      · cases hnone
      · cases h
        obtain rfl := Option.some.inj hsome
        refine ⟨_, first, ?_, ?_, hyields, rfl, hnow⟩
        · rw [show s.interrupt.pending = first :: rest from hpending, ← hrest]
          rfl
        · show interrupt.fired ++ [(first.item, interrupt.totalTicks)] = _
          rw [hfired]
          rfl

/-- What a step does to the stacks. -/
inductive Turn (d : Decision Sem) (s s' : Execution Sem) : Prop where
  | switches {next : ThreadId} {rest : List (CallFrame Sem)}
      (hstack : s.stack s.currentThread = .schedulerRun next :: rest) (hthread : s'.currentThread = next)
      (hstacks : s'.stack = Function.update s.stack s.currentThread (.afterSwitch :: rest))
      (hinterrupt : s'.interrupt = s.interrupt) (hready : s'.readyList = s.readyList)
  | executes {frame : CallFrame Sem} {rest frames : List (CallFrame Sem)} {after : Execution Sem}
      (hstack : s.stack s.currentThread = frame :: rest) (hrun : ∀ next, frame ≠ .schedulerRun next)
      (hexecute : s.execute d frame = .ok (frames, after)) (hthread : s'.currentThread = s.currentThread)
      (hframes : s'.stack s'.currentThread = frames ++ rest) (hinterrupt : s'.interrupt = after.interrupt)
      (hready : s'.readyList = after.readyList)
      (hothers : ∀ t, t ≠ s.currentThread → s'.stack t = s.stack t ∨ s'.stack t = [.setupThreadState, .threadRoot])

theorem Disciplined.turn {s' : Execution Sem} (hs : s.Disciplined) (h : s.step d = .ok s') : Turn d s s' := by
  unfold Execution.step at h
  cases hstack : s.stack s.currentThread with
  | nil =>
      rw [hstack] at h
      cases h
  | cons frame rest =>
      rw [hstack] at h
      dsimp only at h
      by_cases hrun : ∃ next, frame = .schedulerRun next
      · obtain ⟨next, rfl⟩ := hrun
        unfold execute at h
        dsimp only at h
        split at h
        · cases h
        · cases h
          exact .switches hstack rfl rfl rfl rfl
      · have hrun : ∀ next, frame ≠ .schedulerRun next := fun next heq => hrun ⟨next, heq⟩
        have hdelivers := execute_keeps (d := d) (hs.pre hstack) hs.live hrun
        cases hexecute : s.execute d frame with
        | error stop =>
            rw [hexecute] at h
            cases h
        | ok result =>
            obtain ⟨frames, after⟩ := result
            rw [hexecute] at h hdelivers
            have hkeeps : Keeps frame s frames after := hdelivers
            cases h
            refine .executes hstack hrun hexecute hkeeps.thread ?_ rfl rfl ?_
            · dsimp only
              rw [hkeeps.thread, Function.update_self]
            · intro t ht
              dsimp only
              rw [Function.update_of_ne ht]
              exact hkeeps.others t ht

end Execution

end Nachos

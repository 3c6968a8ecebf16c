import Nachos.KernelCalls
import Nachos.TransitionSystem

/-! The interrupt level and the machine status. Both are global variables, and routines save them in local variables
while other threads run. Every frame has a contract: which level and which status it finds when it goes on, and which
ones it leaves to the frame below. The contracts of all frames on all stacks hold in every run. -/

namespace Nachos

/-- What the contracts speak about. -/
@[ext] structure Mode where
  level : IntStatus
  status : MachineStatus
  inHandler : Bool
  thread : ThreadId

namespace Mode

/-- The mode in which a thread goes on after a switch. -/
def switched (t : ThreadId) : Mode := ⟨.intOff, .systemMode, false, t⟩

/-- The code of a thread in the kernel. -/
structure Kernel (m : Mode) : Prop where
  status : m.status = .systemMode
  inHandler : m.inHandler = false

/-- The code of an interrupt handler. -/
structure Handler (m : Mode) : Prop where
  status : m.status = .systemMode
  inHandler : m.inHandler = true
  level : m.level = .intOff

theorem switched_kernel (t : ThreadId) : (switched t).Kernel := ⟨rfl, rfl⟩

theorem Kernel.withLevel {m : Mode} (h : m.Kernel) (now : IntStatus) : ({ m with level := now } : Mode).Kernel :=
  ⟨h.status, h.inHandler⟩

theorem Kernel.eq_switched {m : Mode} (h : m.Kernel) (hlevel : m.level = .intOff) : m = switched m.thread :=
  Mode.ext hlevel h.status h.inHandler rfl

end Mode

namespace CallFrame

variable {Sem : Type}

/-- The modes in which a frame goes on. -/
def Pre : CallFrame Sem → Mode → Prop
  | .kernel, m => m.Kernel
  | .returned _ entry, m => (m.Kernel ∨ m.Handler) ∧ m.level = entry
  | .semP _, m => m.Kernel
  | .semPLoop _ _, m => m.Kernel ∧ m.level = .intOff
  | .semV _, m => m.Kernel ∨ m.Handler
  | .setLevel now, m => m.Kernel ∨ m.Handler ∧ now = .intOff
  | .tickLoop old, m => m.inHandler = false ∧ m.level = .intOff ∧ m.status = old
  | .tickEnd _, m => m.Kernel
  | .handler, m => m.Handler
  | .checkIfDueEnd _, m => m.Handler
  | .idle, m => m.Kernel ∧ m.level = .intOff
  | .idleLoop, m => m.inHandler = false ∧ m.level = .intOff ∧ m.status = .idleMode
  | .sleep this, m => m.Kernel ∧ m.level = .intOff ∧ m.thread = this
  | .sleepLoop, m => m.Kernel ∧ m.level = .intOff
  | .schedulerRun _, m => m.Kernel ∧ m.level = .intOff
  | .afterSwitch, m => m.Kernel ∧ m.level = .intOff
  | .yield this, m => m.Kernel ∧ m.thread = this
  | .start _, m => m.Kernel
  | .finish this, m => m.Kernel ∧ m.thread = this
  | .setupThreadState, m => m.Kernel ∧ m.level = .intOff
  | .threadRoot, m => m.Kernel ∧ m.level = .intOn
  | .threadFinish, m => m.Kernel
  | .machineRun, m => m.Kernel
  | .oneInstruction, m => m.inHandler = false ∧ m.status = .userMode
  | .machineTick, m => m.inHandler = false ∧ m.status = .userMode
  | .raiseException, m => m.inHandler = false
  | .exceptionEnd _, m => m.Kernel

/-- The modes in which a frame returns that goes on in the first one. `Machine::Run` does not return, and below the
first frame of a thread there is nothing. -/
def Post : CallFrame Sem → Mode → Mode → Prop
  | .kernel, m, m' => m'.Kernel ∧ m'.thread = m.thread
  | .semPLoop _ oldLevel, m, m' => m' = { m with level := oldLevel }
  | .setLevel now, m, m' => m' = { m with level := now }
  | .tickLoop _, m, m' => m' = { m with level := .intOn }
  | .tickEnd old, m, m' => m' = { m with status := old }
  | .checkIfDueEnd old, m, m' => m' = { m with status := old, inHandler := false }
  | .idleLoop, m, m' => m' = { m with status := .systemMode }
  | .finish _, m, m' => m' = { m with level := .intOff }
  | .setupThreadState, m, m' => m' = { m with level := .intOn }
  | .threadRoot, _, _ => True
  | .threadFinish, _, _ => True
  | .machineRun, _, _ => False
  | .machineTick, _, _ => False
  | .oneInstruction, m, m' => m'.inHandler = false ∧ m'.status = m.status ∧ m'.thread = m.thread
  | .raiseException, m, m' => m'.inHandler = false ∧ m'.status = m.status ∧ m'.thread = m.thread
  | .exceptionEnd oldStatus, m, m' => m' = { m with status := oldStatus }
  | _, m, m' => m' = m

/-- The code that simulates the processor of user programs, up to the call of `ExceptionHandler`, and the clock. -/
def ofMachine : CallFrame Sem → Bool
  | .tickLoop _ | .oneInstruction | .machineTick | .raiseException => true
  | _ => false

/-- The modes that there are: the kernel, its handlers, the simulated processor and the idle machine. -/
theorem Pre.mode_cases {frame : CallFrame Sem} {m : Mode} (hpre : frame.Pre m) :
    m.Kernel ∨ m.Handler ∨ m.inHandler = false ∧ (frame.ofMachine = true ∨ m.status = .idleMode) := by
  cases frame with
  | kernel => exact Or.inl hpre
  | returned routine entry => exact hpre.1.imp_right Or.inl
  | semP x => exact Or.inl hpre
  | semPLoop x oldLevel => exact Or.inl hpre.1
  | semV x => exact Or.imp_right Or.inl hpre
  | setLevel now => exact Or.imp_right (fun h => Or.inl h.1) hpre
  | tickLoop old => exact Or.inr (Or.inr ⟨hpre.1, Or.inl rfl⟩)
  | tickEnd old => exact Or.inl hpre
  | handler => exact Or.inr (Or.inl hpre)
  | checkIfDueEnd old => exact Or.inr (Or.inl hpre)
  | idle => exact Or.inl hpre.1
  | idleLoop => exact Or.inr (Or.inr ⟨hpre.1, Or.inr hpre.2.2⟩)
  | sleep this => exact Or.inl hpre.1
  | sleepLoop => exact Or.inl hpre.1
  | schedulerRun nextThread => exact Or.inl hpre.1
  | afterSwitch => exact Or.inl hpre.1
  | yield this => exact Or.inl hpre.1
  | start this => exact Or.inl hpre
  | finish this => exact Or.inl hpre.1
  | setupThreadState => exact Or.inl hpre.1
  | threadRoot => exact Or.inl hpre.1
  | threadFinish => exact Or.inl hpre
  | machineRun => exact Or.inl hpre
  | oneInstruction => exact Or.inr (Or.inr ⟨hpre.1, Or.inl rfl⟩)
  | machineTick => exact Or.inr (Or.inr ⟨hpre.1, Or.inl rfl⟩)
  | raiseException => exact Or.inr (Or.inr ⟨hpre, Or.inl rfl⟩)
  | exceptionEnd oldStatus => exact Or.inl hpre

theorem Pre.kernel_status {frame : CallFrame Sem} {m : Mode} (hpre : frame.Pre m) (hframe : frame.ofMachine = false) :
    m.status ≠ .userMode := by
  rcases hpre.mode_cases with hkernel | hhandler | ⟨-, hmachine | hidle⟩
  · rw [hkernel.status]
    decide
  · rw [hhandler.status]
    decide
  · rw [hframe] at hmachine
    cases hmachine
  · rw [hidle]
    decide

/-- Interrupts are off in a handler and in the routines that it calls. -/
theorem Pre.handler_level {frame : CallFrame Sem} {m : Mode} (hpre : frame.Pre m) (hhandler : m.inHandler = true) :
    m.level = .intOff := by
  rcases hpre.mode_cases with hkernel | hmode | ⟨hnone, -⟩
  · exact absurd (hhandler.symm.trans hkernel.inHandler) (by decide)
  · exact hmode.level
  · exact absurd (hhandler.symm.trans hnone) (by decide)

/-- The routine that is entered in a frame. -/
def routine : CallFrame Sem → Option Routine
  | .semP _ => some .semP
  | .semV _ => some .semV
  | .yield _ => some .yield
  | .start _ => some .start
  | _ => none

/-- The routine that has returned to a frame. -/
def returnedFrom : CallFrame Sem → Option Routine
  | .returned routine _ => some routine
  | _ => none

theorem returnedFrom_eq_some {frame : CallFrame Sem} {r : Routine} (h : frame.returnedFrom = some r) :
    ∃ entry, frame = .returned r entry := by
  cases frame with
  | returned routine entry => exact ⟨entry, by rw [Option.some.inj h]⟩
  | _ => cases h

/-- A routine that has just been entered returns to a frame that knows it. -/
def callOnTop : List (CallFrame Sem) → Bool
  | [] => true
  | frame :: rest => (frame.routine.isNone || rest.head?.bind returnedFrom == frame.routine) &&
      rest.all fun below => below.routine.isNone

theorem callOnTop_of_none {frames : List (CallFrame Sem)} (h : frames.all fun frame => frame.routine.isNone) :
    callOnTop frames = true := by
  cases frames with
  | nil => rfl
  | cons frame rest =>
      rw [List.all_cons, Bool.and_eq_true] at h
      rw [callOnTop, h.1, Bool.true_or, h.2, Bool.true_and]

theorem callOnTop_append {frames rest : List (CallFrame Sem)} (h : callOnTop frames = true)
    (hrest : rest.all fun frame => frame.routine.isNone) : callOnTop (frames ++ rest) = true := by
  cases frames with
  | nil => exact callOnTop_of_none hrest
  | cons frame frames =>
      rw [callOnTop, Bool.and_eq_true] at h
      obtain ⟨htop, hframes⟩ := h
      rw [List.cons_append, callOnTop, List.all_append, hframes, hrest, Bool.and_true, Bool.and_true]
      cases frames with
      | nil =>
          rcases Bool.or_eq_true_iff.mp htop with hnone | hreturned
          · rw [hnone, Bool.true_or]
          · -- Nothing stands below the frame, so that no routine is entered in it.
            rw [← beq_iff_eq.mp hreturned]
            rfl
      | cons below frames => exact htop

def contract (Sem : Type) : FrameContract (CallFrame Sem) Mode := ⟨Pre, Post⟩

end CallFrame

namespace Execution

open CallFrame (contract)

variable {Sem : Type}

def mode (s : Execution Sem) : Mode :=
  ⟨s.interrupt.level, s.interrupt.status, s.interrupt.inHandler, s.currentThread⟩

/-- The clock has been accounted for. -/
structure Accounted (s : Execution Sem) : Prop where
  total : s.interrupt.totalTicks = s.interrupt.idleTicks + s.interrupt.systemTicks + s.interrupt.userTicks
  user : s.interrupt.userTicks = s.instructions

/-- What a step leaves behind, apart from the frames and the current thread. -/
structure Proceeds (s s' : Execution Sem) : Prop where
  others : ∀ t, t ≠ s.currentThread → s'.stack t = s.stack t ∨ s'.stack t = [.setupThreadState, .threadRoot]
  live : s'.status s'.currentThread ≠ .justCreated
  clock : s.interrupt.totalTicks ≤ s'.interrupt.totalTicks
  accounted : s.Accounted → s'.Accounted

/-- The step keeps the contract of its frame. -/
structure Keeps (frame : CallFrame Sem) (s : Execution Sem) (frames : List (CallFrame Sem)) (s' : Execution Sem) :
    Prop extends Proceeds s s' where
  thread : s'.currentThread = s.currentThread
  runs : (contract Sem).Runs frames s'.mode (frame.Post s.mode)

/-- The assertions that are about the discipline. -/
def disciplined : Assertion → Bool
  | .setLevelHandler | .checkIfDueLevel | .sleepThread | .sleepLevel | .runLevel => true
  | _ => false

/-- The result is as desired, or the run goes no further for another reason than the discipline. -/
def Delivers {α : Type} (result : Except Stop α) (desired : α → Prop) : Prop :=
  match result with
  | .ok a => desired a
  | .error (.assertion a) => disciplined a = false
  | .error _ => True

section Clock

/-- The clock and the idle time advance together. -/
structure Advances (before after : Interrupt) : Prop where
  later : before.totalTicks ≤ after.totalTicks
  idle : after.totalTicks - after.idleTicks = before.totalTicks - before.idleTicks
  system : after.systemTicks = before.systemTicks
  user : after.userTicks = before.userTicks

/-- The mode stays as well. -/
structure Passes (before after : Interrupt) : Prop extends Advances before after where
  level : after.level = before.level
  status : after.status = before.status
  inHandler : after.inHandler = before.inHandler

theorem Advances.refl (before : Interrupt) : Advances before before := ⟨le_refl _, rfl, rfl, rfl⟩

theorem nextDue_passes (advanceClock : Bool) (before : Interrupt) : Passes before (before.nextDue advanceClock).2 := by
  unfold Interrupt.nextDue
  split
  · exact ⟨.refl before, rfl, rfl, rfl⟩
  next toOccur when rest _ =>
    split
    · exact ⟨⟨le_refl _, rfl, rfl, rfl⟩, rfl, rfl, rfl⟩
    · -- The clock only ever moves forward, and what is added to it is idle time.
      have hlater : before.totalTicks ≤ if before.totalTicks < when then when else before.totalTicks := by
        split <;> omega
      have hidle : (if before.totalTicks < when then when else before.totalTicks) -
          (if before.totalTicks < when then before.idleTicks + (when - before.totalTicks) else before.idleTicks) =
          before.totalTicks - before.idleTicks := by
        split <;> omega
      by_cases hnothing : before.status = .idleMode ∧ toOccur.type = .timerInt ∧ rest.isEmpty
      · rw [if_pos hnothing]
        exact ⟨⟨hlater, hidle, rfl, rfl⟩, rfl, rfl, rfl⟩
      · rw [if_neg hnothing]
        exact ⟨⟨hlater, hidle, rfl, rfl⟩, rfl, rfl, rfl⟩

variable {s s' : Execution Sem}

theorem Accounted.advances (h : s.Accounted) (hadvances : Advances s.interrupt s'.interrupt)
    (hinstructions : s'.instructions = s.instructions) : s'.Accounted := by
  have htotal := h.total
  have hidle := hadvances.idle
  refine ⟨?_, ?_⟩
  · rw [hadvances.system, hadvances.user]
    omega
  · rw [hadvances.user, hinstructions]
    exact h.user

/-- A step that starts no thread and counts no ticks. -/
theorem Proceeds.quiet (hlive : s'.status s'.currentThread ≠ .justCreated)
    (hadvances : Advances s.interrupt s'.interrupt) (hstack : s'.stack = s.stack)
    (hinstructions : s'.instructions = s.instructions) : Proceeds s s' :=
  ⟨fun t _ => Or.inl (congrFun hstack t), hlive, hadvances.later, fun h => h.advances hadvances hinstructions⟩

/-- The beginning of a tick, in system mode. -/
theorem beginTick_system (h : s.interrupt.status = .systemMode) :
    s.interrupt.beginTick = { s.interrupt with
      totalTicks := s.interrupt.totalTicks + systemTick
      systemTicks := s.interrupt.systemTicks + systemTick
      level := .intOff } := by
  unfold Interrupt.beginTick
  rw [if_pos h]

/-- The beginning of a tick, in user mode. -/
theorem beginTick_user (h : s.interrupt.status = .userMode) :
    s.interrupt.beginTick = { s.interrupt with
      totalTicks := s.interrupt.totalTicks + userTick
      userTicks := s.interrupt.userTicks + userTick
      level := .intOff } := by
  unfold Interrupt.beginTick
  rw [if_neg (by rw [h]; decide)]

end Clock

section Frames

variable {s : Execution Sem}

theorem update_live {status : ThreadId → ThreadStatus} {t u : ThreadId} {now : ThreadStatus}
    (hlive : status t ≠ .justCreated) (hnow : now ≠ .justCreated) : Function.update status u now t ≠ .justCreated := by
  rcases eq_or_ne t u with rfl | hne
  · rw [Function.update_self]
    exact hnow
  · rw [Function.update_of_ne hne]
    exact hlive

theorem setLevel_keeps {now : IntStatus} (hpre : CallFrame.Pre (.setLevel now : CallFrame Sem) s.mode)
    (hlive : s.status s.currentThread ≠ .justCreated) :
    Delivers (s.setLevel now) fun r => Keeps (.setLevel now) s r.1 r.2 := by
  unfold setLevel
  split
  next hassert =>
    rcases hpre with hkernel | ⟨-, hoff⟩
    · exact absurd (hassert.2.symm.trans hkernel.inHandler) (by decide)
    · exact absurd (hassert.1.symm.trans hoff) (by decide)
  next hassert =>
    split
    next htick =>
      obtain ⟨rfl, -⟩ := htick
      have hkernel : s.mode.Kernel := hpre.resolve_right fun h => absurd h.2 (by decide)
      have hbegin : (s.withLevel .intOn).interrupt.beginTick = _ := beginTick_system hkernel.status
      refine ⟨⟨fun t _ => Or.inl rfl, hlive, ?_, fun h => ⟨?_, ?_⟩⟩, rfl, ?_⟩
      · change s.interrupt.totalTicks ≤ (s.withLevel .intOn).interrupt.beginTick.totalTicks
        rw [hbegin]
        exact Int.le_add_of_nonneg_right (by decide)
      · have htotal := h.total
        unfold oneTick
        simp only [hbegin]
        change s.interrupt.totalTicks + systemTick =
          s.interrupt.idleTicks + (s.interrupt.systemTicks + systemTick) + s.interrupt.userTicks
        omega
      · unfold oneTick
        simp only [hbegin]
        exact h.user
      · unfold oneTick mode
        simp only [hbegin]
        exact ⟨⟨hkernel.inHandler, rfl, rfl⟩, fun m' hpost => hpost⟩
    · exact ⟨.quiet hlive ⟨le_refl _, rfl, rfl, rfl⟩ rfl rfl, rfl, rfl⟩

/-- A handler runs between two parts of a routine that is in this mode. -/
theorem handler_runs {caller : CallFrame Sem} {goal : Mode → Prop} {m : Mode}
    (hruns : (contract Sem).Runs [caller] m goal) (hlevel : m.level = .intOff) (hhandler : m.inHandler = false) :
    (contract Sem).Runs [.handler, .checkIfDueEnd m.status, caller] ⟨m.level, .systemMode, true, m.thread⟩ goal := by
  have hmode : Mode.Handler ⟨m.level, .systemMode, true, m.thread⟩ := ⟨rfl, rfl, hlevel⟩
  refine ⟨hmode, ?_⟩
  rintro m' rfl
  refine ⟨hmode, ?_⟩
  rintro m' rfl
  rw [← hhandler]
  exact hruns

theorem checkIfDue_delivers {advanceClock : Bool} {caller : CallFrame Sem}
    {returnsFalse : Execution Sem → Result Sem} {desired : List (CallFrame Sem) × Execution Sem → Prop}
    (hlevel : s.interrupt.level = .intOff)
    (hfalse : ∀ after, Passes s.interrupt after → Delivers (returnsFalse { s with interrupt := after }) desired)
    (htrue : ∀ toOccur after, Passes s.interrupt after →
      desired ([.handler, .checkIfDueEnd after.status, caller], { s with interrupt := after.enter toOccur })) :
    Delivers (s.checkIfDue advanceClock caller returnsFalse) desired := by
  have hpasses := nextDue_passes advanceClock s.interrupt
  unfold checkIfDue
  rw [if_neg (not_not.mpr hlevel)]
  revert hpasses
  cases s.interrupt.nextDue advanceClock with
  | mk due after =>
      intro hpasses
      cases due with
      | none => exact hfalse after hpasses
      | some toOccur => exact htrue toOccur after hpasses

/-- The loops over the due interrupts. -/
theorem loop_keeps {frame : CallFrame Sem} {returnsFalse : Execution Sem → Result Sem}
    (hpre : frame.Pre s.mode) (hlevel : s.interrupt.level = .intOff) (hhandler : s.interrupt.inHandler = false)
    (hlive : s.status s.currentThread ≠ .justCreated)
    (hfalse : ∀ after, Passes s.interrupt after →
      Delivers (returnsFalse { s with interrupt := after }) fun r => Keeps frame s r.1 r.2) :
    Delivers (s.checkIfDue false frame returnsFalse) fun r => Keeps frame s r.1 r.2 := by
  refine checkIfDue_delivers hlevel hfalse ?_
  intro toOccur after hpasses
  have hadvances : Advances s.interrupt (after.enter toOccur) :=
    ⟨hpasses.later, hpasses.idle, hpasses.system, hpasses.user⟩
  refine ⟨.quiet hlive hadvances rfl rfl, rfl, ?_⟩
  have hruns := handler_runs (m := s.mode) ⟨hpre, fun m' hpost => hpost⟩ hlevel hhandler
  rw [← show after.status = s.mode.status from hpasses.status,
    ← show after.level = s.mode.level from hpasses.level] at hruns
  exact hruns

theorem tickLoop_keeps {old : MachineStatus} (hpre : CallFrame.Pre (.tickLoop old : CallFrame Sem) s.mode)
    (hlive : s.status s.currentThread ≠ .justCreated) :
    Delivers (s.checkIfDue false (.tickLoop old) (afterLoop old)) fun r => Keeps (.tickLoop old) s r.1 r.2 := by
  obtain ⟨hhandler, hlevel, hstatus⟩ := hpre
  refine loop_keeps ⟨hhandler, hlevel, hstatus⟩ hlevel hhandler hlive ?_
  intro after hpasses
  have hafterHandler : after.inHandler = false := hpasses.inHandler.trans hhandler
  unfold afterLoop
  dsimp only
  split
  · refine ⟨.quiet hlive ⟨hpasses.later, hpasses.idle, hpasses.system, hpasses.user⟩ rfl rfl, rfl, ?_⟩
    -- `Yield` returns in the mode in which it is called, and the old status is restored.
    have hkernel : Mode.Kernel ⟨.intOn, .systemMode, after.inHandler, s.currentThread⟩ := ⟨rfl, hafterHandler⟩
    refine ⟨⟨hkernel, rfl⟩, ?_⟩
    rintro m' rfl
    refine ⟨⟨Or.inl hkernel, rfl⟩, ?_⟩
    rintro m' rfl
    refine ⟨hkernel, ?_⟩
    rintro m' rfl
    exact Mode.ext rfl hstatus.symm hpasses.inHandler rfl
  · refine ⟨.quiet hlive ⟨hpasses.later, hpasses.idle, hpasses.system, hpasses.user⟩ rfl rfl, rfl, ?_⟩
    exact Mode.ext rfl hpasses.status hpasses.inHandler rfl

theorem idleLoop_keeps [DecidableEq Sem] {d : Decision Sem} (hpre : CallFrame.Pre (.idleLoop : CallFrame Sem) s.mode)
    (hlive : s.status s.currentThread ≠ .justCreated) :
    Delivers (s.execute d .idleLoop) fun r => Keeps .idleLoop s r.1 r.2 := by
  obtain ⟨hhandler, hlevel, hstatus⟩ := hpre
  unfold execute
  refine loop_keeps ⟨hhandler, hlevel, hstatus⟩ hlevel hhandler hlive ?_
  intro after hpasses
  refine ⟨.quiet hlive ⟨hpasses.later, hpasses.idle, hpasses.system, hpasses.user⟩ rfl rfl, rfl, ?_⟩
  exact Mode.ext hpasses.level rfl hpasses.inHandler rfl

theorem idle_keeps [DecidableEq Sem] {d : Decision Sem} (hpre : CallFrame.Pre (.idle : CallFrame Sem) s.mode)
    (hlive : s.status s.currentThread ≠ .justCreated) :
    Delivers (s.execute d .idle) fun r => Keeps .idle s r.1 r.2 := by
  obtain ⟨hkernel, hlevel⟩ := hpre
  unfold execute
  refine checkIfDue_delivers (s := s.withMachineStatus .idleMode) hlevel (fun _ _ => trivial) ?_
  intro toOccur after hpasses
  refine ⟨.quiet hlive ⟨hpasses.later, hpasses.idle, hpasses.system, hpasses.user⟩ rfl rfl, rfl, ?_⟩
  have hcaller : (contract Sem).Runs [.idleLoop] (s.withMachineStatus .idleMode).mode
      (CallFrame.Post (.idle : CallFrame Sem) s.mode) :=
    ⟨⟨hkernel.inHandler, hlevel, rfl⟩, fun m' hpost => hpost.trans (Mode.ext rfl hkernel.status.symm rfl rfl)⟩
  have hruns := handler_runs hcaller hlevel hkernel.inHandler
  rw [← show after.status = (s.withMachineStatus .idleMode).mode.status from hpasses.status,
    ← show after.level = (s.withMachineStatus .idleMode).mode.level from hpasses.level] at hruns
  exact hruns

theorem deleteFinished_delivers {frames : List (CallFrame Sem)}
    {desired : List (CallFrame Sem) × Execution Sem → Prop}
    (h : ∀ pending, desired (frames, { s with threadToBeDestroyed := pending })) :
    Delivers (s.deleteFinished.map fun after => (frames, after)) desired := by
  unfold deleteFinished
  split
  · exact h s.threadToBeDestroyed
  · split
    · rfl
    · exact h none

theorem schedule_delivers {request : ScheduleRequest} {frames : List (CallFrame Sem)}
    {desired : List (CallFrame Sem) × Execution Sem → Prop}
    (h : ∀ after, Passes s.interrupt after → desired (frames, { s with interrupt := after })) :
    Delivers ((s.schedule request).map fun after => (frames, after)) desired := by
  unfold schedule
  cases hschedule : s.interrupt.schedule request with
  | none => rfl
  | some after =>
      obtain ⟨-, rfl⟩ := Interrupt.schedule_eq_some hschedule
      exact h _ ⟨⟨le_refl _, rfl, rfl, rfl⟩, rfl, rfl, rfl⟩

/-- A call returns to its caller at the level of its entry. -/
theorem call_keeps {routine : Routine} {frame caller : CallFrame Sem} (hmode : s.mode.Kernel ∨ s.mode.Handler)
    (hframe : frame.Pre s.mode) (hpost : ∀ m', frame.Post s.mode m' → m' = s.mode)
    (hcaller : caller.Pre s.mode) (hlive : s.status s.currentThread ≠ .justCreated) :
    Delivers (s.call routine frame caller) fun r => Keeps caller s r.1 r.2 := by
  refine ⟨.quiet hlive (.refl _) rfl rfl, rfl, hframe, ?_⟩
  intro m' hm'
  rw [hpost m' hm']
  refine ⟨⟨hmode, rfl⟩, ?_⟩
  rintro m'' rfl
  exact ⟨hcaller, fun _ h => h⟩

theorem kernelCall_keeps {c : KernelCall Sem} (hpre : s.mode.Kernel)
    (hlive : s.status s.currentThread ≠ .justCreated) :
    Delivers (s.kernelCall c) fun r => Keeps .kernel s r.1 r.2 := by
  have hquiet : Proceeds s s := .quiet hlive (.refl _) rfl rfl
  cases c with
  | semP x => exact call_keeps (Or.inl hpre) hpre (fun _ h => h) hpre hlive
  | semV x => exact call_keeps (Or.inl hpre) (Or.inl hpre) (fun _ h => h) hpre hlive
  | yield => exact call_keeps (Or.inl hpre) ⟨hpre, rfl⟩ (fun _ h => h) hpre hlive
  | start t => exact call_keeps (Or.inl hpre) hpre (fun _ h => h) hpre hlive
  | finish =>
      refine ⟨hquiet, rfl, ⟨hpre, rfl⟩, ?_⟩
      rintro m' rfl
      exact ⟨hpre.withLevel .intOff, fun _ h => h⟩
  | setLevel now =>
      refine ⟨hquiet, rfl, Or.inl hpre, ?_⟩
      rintro m' rfl
      exact ⟨hpre.withLevel now, fun _ h => h⟩
  | run => exact ⟨hquiet, rfl, hpre, fun _ h => h.elim⟩
  | raiseException =>
      refine ⟨hquiet, rfl, hpre.inHandler, ?_⟩
      rintro m' ⟨hhandler, hstatus, hthread⟩
      exact ⟨⟨hstatus.trans hpre.status, hhandler⟩, fun m'' h => ⟨h.1, h.2.trans hthread⟩⟩
  | schedule request =>
      refine schedule_delivers fun after hpasses => ⟨.quiet hlive hpasses.toAdvances rfl rfl, rfl, ?_⟩
      exact ⟨⟨hpasses.status.trans hpre.status, hpasses.inHandler.trans hpre.inHandler⟩, fun m' h => h⟩
  | halt => trivial
  | «return» => exact ⟨hquiet, rfl, hpre, rfl⟩

theorem handlerCall_keeps {c : HandlerCall Sem} (hpre : s.mode.Handler)
    (hlive : s.status s.currentThread ≠ .justCreated) :
    Delivers (s.handlerCall c) fun r => Keeps .handler s r.1 r.2 := by
  cases c with
  | semV x => exact call_keeps (Or.inr hpre) (Or.inr hpre) (fun _ h => h) hpre hlive
  | schedule request =>
      refine schedule_delivers fun after hpasses => ⟨.quiet hlive hpasses.toAdvances rfl rfl, rfl, ?_⟩
      have hmode : ({ s with interrupt := after } : Execution Sem).mode = s.mode :=
        Mode.ext hpasses.level hpasses.status hpasses.inHandler rfl
      change (contract Sem).Runs _ ({ s with interrupt := after } : Execution Sem).mode _
      rw [hmode]
      exact ⟨hpre, fun m' h => h⟩
  | yieldOnReturn =>
      unfold handlerCall
      dsimp only
      split
      · exact ⟨.quiet hlive ⟨le_refl _, rfl, rfl, rfl⟩ rfl rfl, rfl, hpre, fun m' h => h⟩
      · rfl
  | «return» => exact ⟨.quiet hlive (.refl _) rfl rfl, rfl, rfl⟩

theorem semV_keeps [DecidableEq Sem] {x : Sem} (hpre : CallFrame.Pre (.semV x : CallFrame Sem) s.mode)
    (hlive : s.status s.currentThread ≠ .justCreated) :
    Keeps (.semV x) s (s.semV x).1 (s.semV x).2 := by
  have hoff : CallFrame.Pre (.setLevel s.interrupt.level : CallFrame Sem) { s.mode with level := .intOff } := by
    rcases hpre with hkernel | hhandler
    · exact Or.inl (hkernel.withLevel .intOff)
    · exact Or.inr ⟨⟨hhandler.status, hhandler.inHandler, rfl⟩, hhandler.level⟩
  unfold semV
  dsimp only
  cases (s.sem x).queue with
  | nil => exact ⟨.quiet hlive ⟨le_refl _, rfl, rfl, rfl⟩ rfl rfl, rfl, hoff, fun m' h => h⟩
  | cons thread rest =>
      refine ⟨.quiet ?_ ⟨le_refl _, rfl, rfl, rfl⟩ rfl rfl, rfl, hoff, fun m' h => h⟩
      exact update_live hlive (by decide)

theorem semPLoop_keeps [DecidableEq Sem] {x : Sem} {oldLevel : IntStatus}
    (hpre : CallFrame.Pre (.semPLoop x oldLevel : CallFrame Sem) s.mode)
    (hlive : s.status s.currentThread ≠ .justCreated) :
    Keeps (.semPLoop x oldLevel) s (s.semPLoop x oldLevel).1 (s.semPLoop x oldLevel).2 := by
  unfold semPLoop
  dsimp only
  split
  · refine ⟨.quiet hlive (.refl _) rfl rfl, rfl, ⟨hpre.1, hpre.2, rfl⟩, ?_⟩
    rintro m' rfl
    exact ⟨hpre, fun m' h => h⟩
  · exact ⟨.quiet hlive (.refl _) rfl rfl, rfl, Or.inl hpre.1, fun m' h => h⟩

theorem yield_keeps {this : ThreadId} (hpre : CallFrame.Pre (.yield this : CallFrame Sem) s.mode)
    (hlive : s.status s.currentThread ≠ .justCreated) :
    Delivers (s.yield this) fun r => Keeps (.yield this) s r.1 r.2 := by
  obtain ⟨hkernel, hthis⟩ := hpre
  have hoff := hkernel.withLevel .intOff
  unfold yield
  dsimp only
  split
  · rfl
  · split
    · exact ⟨.quiet hlive ⟨le_refl _, rfl, rfl, rfl⟩ rfl rfl, rfl, Or.inl hoff, fun m' h => h⟩
    next nextThread rest =>
      refine ⟨.quiet (update_live hlive (by decide)) ⟨le_refl _, rfl, rfl, rfl⟩ rfl rfl, rfl, ⟨hoff, rfl⟩, ?_⟩
      rintro m' rfl
      exact ⟨Or.inl hoff, fun m' h => h⟩

theorem sleep_keeps {this : ThreadId} (hpre : CallFrame.Pre (.sleep this : CallFrame Sem) s.mode)
    (hlive : s.status s.currentThread ≠ .justCreated) :
    Delivers (s.sleep this) fun r => Keeps (.sleep this) s r.1 r.2 := by
  obtain ⟨hkernel, hlevel, hthis⟩ := hpre
  unfold sleep
  rw [if_neg (not_not.mpr (show this = s.currentThread from hthis.symm)),
    if_neg (not_not.mpr (show s.interrupt.level = .intOff from hlevel))]
  exact ⟨.quiet (update_live hlive (by decide)) (.refl _) rfl rfl, rfl, ⟨hkernel, hlevel⟩, fun m' h => h⟩

theorem finish_keeps {this : ThreadId} (hpre : CallFrame.Pre (.finish this : CallFrame Sem) s.mode)
    (hlive : s.status s.currentThread ≠ .justCreated) :
    Delivers (s.finish this) fun r => Keeps (.finish this) s r.1 r.2 := by
  obtain ⟨hkernel, hthis⟩ := hpre
  unfold finish
  dsimp only
  split
  · rfl
  · split
    · rfl
    · refine ⟨.quiet hlive ⟨le_refl _, rfl, rfl, rfl⟩ rfl rfl, rfl, ?_⟩
      exact ⟨⟨hkernel.withLevel .intOff, rfl, hthis⟩, fun m' h => h⟩

theorem startThread_keeps {this : ThreadId} (hpre : CallFrame.Pre (.start this : CallFrame Sem) s.mode)
    (hlive : s.status s.currentThread ≠ .justCreated) :
    Delivers (s.startThread this) fun r => Keeps (.start this) s r.1 r.2 := by
  have hkernel : s.mode.Kernel := hpre
  unfold startThread
  split
  · rfl
  · refine ⟨⟨?_, update_live hlive (by decide), le_refl _, fun h => h.advances ⟨le_refl _, rfl, rfl, rfl⟩ rfl⟩, rfl,
      Or.inl (hkernel.withLevel .intOff), fun m' h => h⟩
    intro t _
    rcases eq_or_ne t this with rfl | hne
    · exact Or.inr (Function.update_self ..)
    · exact Or.inl (Function.update_of_ne hne ..)

theorem machineTick_keeps [DecidableEq Sem] {d : Decision Sem}
    (hpre : CallFrame.Pre (.machineTick : CallFrame Sem) s.mode)
    (hlive : s.status s.currentThread ≠ .justCreated) :
    Delivers (s.execute d .machineTick) fun r => Keeps .machineTick s r.1 r.2 := by
  obtain ⟨hhandler, hstatus⟩ := hpre
  have hbegin := beginTick_user hstatus
  unfold execute oneTick
  refine ⟨⟨fun t _ => Or.inl rfl, hlive, ?_, fun h => ⟨?_, ?_⟩⟩, rfl, ?_⟩
  · change s.interrupt.totalTicks ≤ s.interrupt.beginTick.totalTicks
    rw [hbegin]
    exact Int.le_add_of_nonneg_right (by decide)
  · have htotal := h.total
    simp only [hbegin]
    omega
  · have huser := h.user
    simp only [hbegin, userTick]
    omega
  · unfold mode
    simp only [hbegin]
    refine ⟨⟨hhandler, rfl, rfl⟩, ?_⟩
    rintro m' rfl
    refine ⟨⟨hhandler, hstatus⟩, ?_⟩
    rintro m' ⟨hafter, hsame, -⟩
    exact ⟨⟨hafter, hsame.trans hstatus⟩, fun _ h => h⟩

/-- Every frame keeps its contract, as long as the processor does not change hands. -/
theorem execute_keeps [DecidableEq Sem] {d : Decision Sem} {frame : CallFrame Sem} (hpre : frame.Pre s.mode)
    (hlive : s.status s.currentThread ≠ .justCreated) (hrun : ∀ nextThread, frame ≠ .schedulerRun nextThread) :
    Delivers (s.execute d frame) fun r => Keeps frame s r.1 r.2 := by
  have hquiet : Proceeds s s := .quiet hlive (.refl _) rfl rfl
  have hmode : ∀ now, Proceeds s (s.withMachineStatus now) := fun now =>
    .quiet hlive ⟨le_refl _, rfl, rfl, rfl⟩ rfl rfl
  cases frame with
  | kernel => exact kernelCall_keeps hpre hlive
  | returned routine entry => exact ⟨hquiet, rfl, rfl⟩
  | semP x =>
      have hkernel : s.mode.Kernel := hpre
      exact ⟨.quiet hlive ⟨le_refl _, rfl, rfl, rfl⟩ rfl rfl, rfl, ⟨hkernel.withLevel .intOff, rfl⟩, fun m' h => h⟩
  | semPLoop x oldLevel => exact semPLoop_keeps hpre hlive
  | semV x => exact semV_keeps hpre hlive
  | setLevel now => exact setLevel_keeps hpre hlive
  | tickLoop old => exact tickLoop_keeps hpre hlive
  | tickEnd old => exact ⟨hmode old, rfl, rfl⟩
  | handler => exact handlerCall_keeps hpre hlive
  | checkIfDueEnd old => exact ⟨.quiet hlive ⟨le_refl _, rfl, rfl, rfl⟩ rfl rfl, rfl, rfl⟩
  | idle => exact idle_keeps hpre hlive
  | idleLoop => exact idleLoop_keeps hpre hlive
  | sleep this => exact sleep_keeps hpre hlive
  | sleepLoop =>
      unfold execute
      dsimp only
      split
      · refine ⟨hquiet, rfl, hpre, ?_⟩
        rintro m' rfl
        exact ⟨hpre, fun m' h => h⟩
      · exact ⟨.quiet hlive (.refl _) rfl rfl, rfl, hpre, fun m' h => h⟩
  | schedulerRun nextThread => exact absurd rfl (hrun nextThread)
  | afterSwitch =>
      exact deleteFinished_delivers fun pending => ⟨.quiet hlive (.refl _) rfl rfl, rfl, rfl⟩
  | yield this => exact yield_keeps hpre hlive
  | start this => exact startThread_keeps hpre hlive
  | finish this => exact finish_keeps hpre hlive
  | setupThreadState =>
      exact deleteFinished_delivers fun pending =>
        ⟨.quiet hlive (.refl _) rfl rfl, rfl, Or.inl hpre.1, fun m' h => h⟩
  | threadRoot =>
      refine ⟨hquiet, rfl, hpre.1, ?_⟩
      rintro m' ⟨hkernel, -⟩
      exact ⟨hkernel, fun _ _ => trivial⟩
  | threadFinish => exact ⟨hquiet, rfl, ⟨hpre, rfl⟩, fun _ _ => trivial⟩
  | machineRun =>
      have hkernel : s.mode.Kernel := hpre
      refine ⟨hmode .userMode, rfl, ⟨hkernel.inHandler, rfl⟩, ?_⟩
      rintro m' ⟨hhandler, hstatus, -⟩
      exact ⟨⟨hhandler, hstatus⟩, fun _ h => h⟩
  | oneInstruction =>
      obtain ⟨hhandler, hstatus⟩ := hpre
      unfold execute
      cases d.traps with
      | true => exact ⟨hquiet, rfl, hhandler, fun m' h => h⟩
      | false => exact ⟨hquiet, rfl, hhandler, rfl, rfl⟩
  | machineTick => exact machineTick_keeps hpre hlive
  | raiseException =>
      have hhandler : s.interrupt.inHandler = false := hpre
      refine ⟨hmode .systemMode, rfl, ⟨rfl, hhandler⟩, ?_⟩
      rintro m' ⟨hkernel, hthread⟩
      refine ⟨hkernel, ?_⟩
      rintro m'' rfl
      exact ⟨hkernel.inHandler, rfl, hthread⟩
  | exceptionEnd oldStatus => exact ⟨hmode oldStatus, rfl, rfl⟩

/-- A routine is entered only in the uppermost frame, with the frame of its caller below it. -/
def Places (result : Result Sem) : Prop :=
  match result with
  | .ok (frames, _) => CallFrame.callOnTop frames = true
  | .error _ => True

theorem checkIfDue_places {advanceClock : Bool} {caller : CallFrame Sem} {returnsFalse : Execution Sem → Result Sem}
    (hcaller : caller.routine = none) (hfalse : ∀ after, Places (returnsFalse after)) :
    Places (s.checkIfDue advanceClock caller returnsFalse) := by
  unfold checkIfDue
  split
  · trivial
  · split
    · exact hfalse _
    · apply CallFrame.callOnTop_of_none
      simp only [List.all_cons, hcaller]
      rfl

theorem deleteFinished_places {frames : List (CallFrame Sem)} (h : CallFrame.callOnTop frames = true) :
    Places (s.deleteFinished.map fun after => (frames, after)) := by
  unfold deleteFinished
  split
  · exact h
  · split
    · trivial
    · exact h

theorem schedule_places {request : ScheduleRequest} {frames : List (CallFrame Sem)}
    (h : CallFrame.callOnTop frames = true) : Places ((s.schedule request).map fun after => (frames, after)) := by
  unfold schedule
  split
  · trivial
  · exact h

theorem execute_places [DecidableEq Sem] (d : Decision Sem) (frame : CallFrame Sem) : Places (s.execute d frame) := by
  cases frame with
  | kernel =>
      unfold execute
      cases d.kernel with
      | schedule request => exact schedule_places rfl
      | halt => trivial
      | _ => rfl
  | handler =>
      unfold execute
      cases d.handler with
      | schedule request => exact schedule_places rfl
      | yieldOnReturn =>
          unfold handlerCall
          dsimp only
          split
          · rfl
          · trivial
      | _ => rfl
  | semPLoop x oldLevel =>
      unfold execute semPLoop
      dsimp only
      split <;> rfl
  | setLevel now =>
      unfold execute setLevel
      dsimp only
      split
      · trivial
      · split <;> rfl
  | tickLoop old =>
      refine checkIfDue_places rfl fun after => ?_
      unfold afterLoop
      dsimp only
      split <;> rfl
  | idle =>
      unfold execute
      exact checkIfDue_places rfl fun _ => trivial
  | idleLoop =>
      unfold execute
      exact checkIfDue_places rfl fun _ => rfl
  | sleep this =>
      unfold execute sleep
      dsimp only
      split
      · trivial
      · split
        · trivial
        · rfl
  | sleepLoop =>
      unfold execute
      dsimp only
      split <;> rfl
  | schedulerRun nextThread =>
      unfold execute
      dsimp only
      split
      · trivial
      · rfl
  | afterSwitch => exact deleteFinished_places rfl
  | yield this =>
      unfold execute yield
      dsimp only
      split
      · trivial
      · split <;> rfl
  | start this =>
      unfold execute startThread
      dsimp only
      split
      · trivial
      · rfl
  | finish this =>
      unfold execute finish
      dsimp only
      split
      · trivial
      · split
        · trivial
        · rfl
  | setupThreadState => exact deleteFinished_places rfl
  | oneInstruction =>
      unfold execute
      cases d.traps <;> rfl
  | _ => rfl

end Frames

section Runs

variable {s s' : Execution Sem} {sem : Sem → Semaphore}

theorem Delivers.mono {α : Type} {result : Except Stop α} {desired desired' : α → Prop} (h : Delivers result desired)
    (himp : ∀ a, desired a → desired' a) : Delivers result desired' := by
  match result, h with
  | .ok a, h => exact himp a h
  | .error (.assertion _), h => exact h
  | .error .halt, _ => trivial
  | .error .notReached, _ => trivial

theorem Delivers.places {result : Result Sem} {desired : List (CallFrame Sem) × Execution Sem → Prop}
    (h : Delivers result desired) (hplaces : Places result) :
    Delivers result fun r => desired r ∧ CallFrame.callOnTop r.1 = true := by
  match result, h, hplaces with
  | .ok _, h, hplaces => exact ⟨h, hplaces⟩
  | .error (.assertion _), h, _ => exact h
  | .error .halt, _, _ => trivial
  | .error .notReached, _, _ => trivial

theorem Delivers.map {α β : Type} {result : Except Stop α} {f : α → β} {desired : β → Prop}
    (h : Delivers result fun a => desired (f a)) : Delivers (result.map f) desired := by
  match result, h with
  | .ok _, h => exact h
  | .error (.assertion _), h => exact h
  | .error .halt, _ => trivial
  | .error .notReached, _ => trivial

/-- The contracts of all frames hold, and the clock is accounted for. -/
structure Disciplined (s : Execution Sem) : Prop where
  resumable : (contract Sem).Resumable Mode.switched s.stack s.currentThread s.mode
  live : s.status s.currentThread ≠ .justCreated
  accounted : s.Accounted
  entered : CallFrame.callOnTop (s.stack s.currentThread) = true
  waiting : ∀ t, t ≠ s.currentThread → (s.stack t).all fun frame => frame.routine.isNone

theorem Disciplined.pre (h : s.Disciplined) {frame : CallFrame Sem} {rest : List (CallFrame Sem)}
    (hstack : s.stack s.currentThread = frame :: rest) : frame.Pre s.mode := by
  have hrunning := h.resumable.running
  rw [hstack] at hrunning
  exact hrunning.1

theorem Disciplined.below (h : s.Disciplined) {frame : CallFrame Sem} {rest : List (CallFrame Sem)}
    (hstack : s.stack s.currentThread = frame :: rest) : rest.all fun frame => frame.routine.isNone := by
  have hentered := h.entered
  rw [hstack, CallFrame.callOnTop, Bool.and_eq_true] at hentered
  exact hentered.2

/-- Below a routine that is entered its caller keeps the present level. -/
theorem Disciplined.entry (h : s.Disciplined) {frame : CallFrame Sem} {rest : List (CallFrame Sem)}
    (hstack : s.stack s.currentThread = frame :: rest) {routine : Routine} (hroutine : frame.routine = some routine) :
    ∃ below, rest = .returned routine s.interrupt.level :: below := by
  have hentered := h.entered
  have hrunning := h.resumable.running
  rw [hstack, CallFrame.callOnTop, Bool.and_eq_true, hroutine] at hentered
  have hreturned := beq_iff_eq.mp ((Bool.or_eq_true_iff.mp hentered.1).resolve_left Bool.false_ne_true)
  cases rest with
  | nil => cases hreturned
  | cons next below =>
      obtain ⟨entry, rfl⟩ := CallFrame.returnedFrom_eq_some hreturned
      -- The routine may return in the mode in which it is entered.
      have hsame : frame.Post s.mode s.mode := by
        cases frame with
        | semP x => rfl
        | semV x => rfl
        | yield this => rfl
        | start this => rfl
        | _ => cases hroutine
      rw [hstack] at hrunning
      have hlevel : s.interrupt.level = entry := (hrunning.2 s.mode hsame).1.2
      exact ⟨below, by rw [hlevel]⟩

theorem runs_setup (t : ThreadId) :
    (contract Sem).Runs [.setupThreadState, .threadRoot] (Mode.switched t) fun _ => True := by
  refine ⟨⟨Mode.switched_kernel t, rfl⟩, ?_⟩
  rintro m' rfl
  exact ⟨⟨(Mode.switched_kernel t).withLevel .intOn, rfl⟩, fun _ _ => trivial⟩

theorem initial_stack (sem : Sem → Semaphore) (t : ThreadId) (ht : t ≠ 0) : (initial sem).stack t = [] := by
  unfold initial
  dsimp only
  rw [Function.update_of_ne ht]

theorem initial_disciplined (sem : Sem → Semaphore) : (initial sem).Disciplined := by
  have hmain : (initial sem).stack 0 = [.kernel, .threadFinish] := by
    unfold initial
    dsimp only
    rw [Function.update_self]
  refine ⟨⟨?_, fun t ht => ?_⟩, ?_, ⟨rfl, rfl⟩, ?_, fun t ht => ?_⟩
  · change (contract Sem).Runs ((initial sem).stack 0) _ _
    rw [hmain]
    refine ⟨⟨rfl, rfl⟩, ?_⟩
    rintro m' ⟨hkernel, -⟩
    exact ⟨hkernel, fun _ _ => trivial⟩
  · rw [initial_stack sem t ht]
    trivial
  · change Function.update (fun _ => ThreadStatus.justCreated) 0 .running 0 ≠ .justCreated
    rw [Function.update_self]
    decide
  · change CallFrame.callOnTop ((initial sem).stack 0) = true
    rw [hmain]
    rfl
  · rw [initial_stack sem t ht]
    rfl

variable [DecidableEq Sem]

/-- A step of the current thread. -/
theorem Disciplined.step (h : s.Disciplined) (d : Decision Sem) :
    Delivers (s.step d) fun s' => s'.Disciplined ∧ s.interrupt.totalTicks ≤ s'.interrupt.totalTicks := by
  unfold Execution.step
  split
  · trivial
  next frame rest hstack =>
    have hpre := h.pre hstack
    apply Delivers.map
    by_cases hrun : ∃ nextThread, frame = .schedulerRun nextThread
    · -- The processor changes hands: the next thread goes on in the mode of a switch, which is the present one.
      obtain ⟨nextThread, rfl⟩ := hrun
      obtain ⟨hkernel, hlevel⟩ := hpre
      have hmode : s.mode = Mode.switched s.currentThread := hkernel.eq_switched hlevel
      have hnext : (s.switchTo nextThread).mode = Mode.switched nextThread :=
        Mode.ext hlevel hkernel.status hkernel.inHandler rfl
      have hframes : (contract Sem).Runs [.afterSwitch] (Mode.switched s.currentThread)
          ((contract Sem).post (.schedulerRun nextThread) s.mode) := by
        rw [← hmode]
        exact ⟨⟨hkernel, hlevel⟩, fun m' hpost => hpost⟩
      unfold execute
      dsimp only
      rw [if_neg (not_not.mpr (show s.interrupt.level = .intOff from hlevel))]
      have hnone : ∀ t, (Function.update s.stack s.currentThread (.afterSwitch :: rest) t).all
          fun frame => frame.routine.isNone := by
        intro t
        rcases eq_or_ne t s.currentThread with rfl | ht
        · rw [Function.update_self]
          exact (Bool.true_and _).trans (h.below hstack)
        · rw [Function.update_of_ne ht]
          exact h.waiting t ht
      refine ⟨⟨?_, ?_, ⟨h.accounted.total, h.accounted.user⟩, CallFrame.callOnTop_of_none (hnone nextThread),
        fun t _ => hnone t⟩, le_refl _⟩
      · change (contract Sem).Resumable _ _ nextThread (s.switchTo nextThread).mode
        rw [hnext]
        exact h.resumable.switch hstack hframes
      · change Function.update s.status nextThread .running nextThread ≠ .justCreated
        rw [Function.update_self]
        decide
    · have hkeeps := execute_keeps (d := d) hpre h.live fun nextThread heq => hrun ⟨nextThread, heq⟩
      refine (hkeeps.places (execute_places d frame)).mono ?_
      rintro ⟨frames, after⟩ ⟨hkeeps, hplaces⟩
      refine ⟨⟨?_, hkeeps.live, ?_, ?_, fun t ht => ?_⟩, hkeeps.clock⟩
      · change (contract Sem).Resumable _ _ after.currentThread after.mode
        rw [hkeeps.thread]
        refine h.resumable.step hstack hkeeps.runs fun t ht => ?_
        rcases hkeeps.others t ht with hsame | hsetup
        · exact Or.inl hsame
        · right
          rw [hsetup]
          exact runs_setup t
      · have haccounted := hkeeps.accounted h.accounted
        exact ⟨haccounted.total, haccounted.user⟩
      · change CallFrame.callOnTop
          (Function.update after.stack s.currentThread (frames ++ rest) after.currentThread) = _
        rw [hkeeps.thread, Function.update_self]
        exact CallFrame.callOnTop_append hplaces (h.below hstack)
      · change t ≠ after.currentThread at ht
        rw [hkeeps.thread] at ht
        dsimp only
        rw [Function.update_of_ne ht]
        rcases hkeeps.others t ht with hsame | hsetup
        · rw [hsame]
          exact h.waiting t ht
        · rw [hsetup]
          rfl

/-- The runs, whatever the threads, the user programs and the devices do. -/
def runs (sem : Sem → Semaphore) : TransitionSystem (Execution Sem) where
  init s := s = initial sem
  step s s' := ∃ d, s.step d = .ok s'

theorem Disciplined.of_step (h : s.Disciplined) (hstep : (runs sem).step s s') :
    s'.Disciplined ∧ s.interrupt.totalTicks ≤ s'.interrupt.totalTicks := by
  obtain ⟨d, hd⟩ := hstep
  have hdelivers := h.step d
  rw [hd] at hdelivers
  exact hdelivers

theorem reachable_disciplined (h : (runs sem).Reachable s) : s.Disciplined := by
  refine h.invariant ?_ fun _ _ _ hs hstep => (hs.of_step hstep).1
  rintro s rfl
  exact initial_disciplined sem

/-- A run in which these decisions are made. -/
def runDecisions : List (Decision Sem) → Execution Sem → Except Stop (Execution Sem)
  | [], s => .ok s
  | d :: rest, s => (s.step d).bind (runDecisions rest)

theorem reachable_runDecisions {decisions : List (Decision Sem)} (h : (runs sem).Reachable s)
    (hrun : runDecisions decisions s = .ok s') : (runs sem).Reachable s' := by
  induction decisions generalizing s with
  | nil =>
      cases hrun
      exact h
  | cons d rest ih =>
      unfold runDecisions at hrun
      cases hstep : s.step d with
      | error e =>
          rw [hstep] at hrun
          cases hrun
      | ok next =>
          rw [hstep] at hrun
          exact ih (.step h ⟨d, hstep⟩) hrun

/-- The clock never goes back. -/
theorem Disciplined.clock (h : s.Disciplined) (hsteps : Relation.ReflTransGen (runs sem).step s s') :
    s.interrupt.totalTicks ≤ s'.interrupt.totalTicks := by
  suffices hboth : s'.Disciplined ∧ s.interrupt.totalTicks ≤ s'.interrupt.totalTicks from hboth.2
  induction hsteps with
  | refl => exact ⟨h, le_refl _⟩
  | tail _ hstep ih =>
      obtain ⟨hnext, hclock⟩ := ih.1.of_step hstep
      exact ⟨hnext, le_trans ih.2 hclock⟩

/-- The clock and the machine status, in every run up to the call of `Interrupt::Halt`. -/
theorem time_and_status (h : (runs sem).Reachable s) :
    (∀ s', Relation.ReflTransGen (runs sem).step s s' → s.interrupt.totalTicks ≤ s'.interrupt.totalTicks) ∧
      s.interrupt.totalTicks = s.interrupt.idleTicks + s.interrupt.systemTicks + s.interrupt.userTicks ∧
      s.interrupt.userTicks = s.instructions ∧
      ∀ frame rest, s.stack s.currentThread = frame :: rest →
        (frame.ofMachine = false → s.interrupt.status ≠ .userMode) ∧
        (frame = .oneInstruction → s.interrupt.status = .userMode) ∧
        ∀ nextThread, frame = .schedulerRun nextThread → s.interrupt.status = .systemMode := by
  have hdisciplined := reachable_disciplined h
  refine ⟨fun s' hsteps => hdisciplined.clock hsteps, hdisciplined.accounted.total, hdisciplined.accounted.user, ?_⟩
  intro frame rest hstack
  have hpre := hdisciplined.pre hstack
  refine ⟨hpre.kernel_status, ?_, ?_⟩
  · rintro rfl
    exact hpre.2
  · rintro nextThread rfl
    exact hpre.1.status

/-- Interrupts are enabled, and the main thread executes one user instruction. -/
theorem time_and_status_instruction : ∃ s, runDecisions (.replicate 3 ⟨.setLevel .intOn, .return, false⟩ ++
      .replicate 4 ⟨.run, .return, false⟩) (initial fun _ : Unit => ⟨0, []⟩) = .ok s ∧
    s.interrupt.totalTicks = s.interrupt.idleTicks + 10 + 1 := by
  obtain ⟨s, hs⟩ : ∃ s, runDecisions (.replicate 3 ⟨.setLevel .intOn, .return, false⟩ ++
      .replicate 4 ⟨.run, .return, false⟩) (initial fun _ : Unit => ⟨0, []⟩) = .ok s := ⟨_, rfl⟩
  obtain ⟨-, htotal, huser, -⟩ := time_and_status (reachable_runDecisions (.init rfl) hs)
  have hcounts : s.instructions = 1 ∧ s.interrupt.systemTicks = 10 := by
    cases hs
    exact ⟨rfl, rfl⟩
  refine ⟨s, hs, ?_⟩
  rw [htotal, huser, hcounts.1, hcounts.2]
  rfl

/-- The interrupt level, in every run up to the call of `Interrupt::Halt`. -/
theorem interrupt_levels (h : (runs sem).Reachable s) :
    (∀ frame rest, s.stack s.currentThread = frame :: rest →
      (∀ routine, frame.routine = some routine → ∃ below, rest = .returned routine s.interrupt.level :: below) ∧
      (∀ routine entry, frame = .returned routine entry → s.interrupt.level = entry) ∧
      (∀ nextThread, frame = .schedulerRun nextThread → s.interrupt.level = .intOff) ∧
      (frame = .afterSwitch ∨ frame = .handler ∨ s.interrupt.inHandler = true → s.interrupt.level = .intOff) ∧
      (frame = .threadRoot → s.interrupt.level = .intOn)) ∧
    ∀ d a, s.step d = .error (.assertion a) → disciplined a = false := by
  have hdisciplined := reachable_disciplined h
  refine ⟨?_, ?_⟩
  · intro frame rest hstack
    have hpre := hdisciplined.pre hstack
    refine ⟨fun routine => hdisciplined.entry hstack, ?_, ?_, ?_, ?_⟩
    · rintro routine entry rfl
      exact hpre.2
    · rintro nextThread rfl
      exact hpre.2
    · rintro (rfl | rfl | hhandler)
      · exact hpre.2
      · exact Mode.Handler.level hpre
      · exact hpre.handler_level hhandler
    · rintro rfl
      exact hpre.2
  · intro d a hstep
    have hdelivers := hdisciplined.step d
    rw [hstep] at hdelivers
    exact hdelivers

/-- The main thread calls `V` with interrupts on and is about to return from it. -/
theorem interrupt_levels_semV : ∃ s, runDecisions (.replicate 3 ⟨.setLevel .intOn, .return, false⟩ ++
      .replicate 4 ⟨.semV (), .return, false⟩) (initial fun _ : Unit => ⟨0, []⟩) = .ok s ∧
    (s.stack s.currentThread).head? = some (.returned .semV .intOn) ∧ s.interrupt.level = .intOn := by
  obtain ⟨s, hs⟩ : ∃ s, runDecisions (.replicate 3 ⟨.setLevel .intOn, .return, false⟩ ++
      .replicate 4 ⟨.semV (), .return, false⟩) (initial fun _ : Unit => ⟨0, []⟩) = .ok s := ⟨_, rfl⟩
  have hstack : s.stack s.currentThread = [.returned .semV .intOn, .kernel, .threadFinish] := by
    cases hs
    rfl
  have hlevel := ((interrupt_levels (reachable_runDecisions (.init rfl) hs)).1 _ _ hstack).2.1 .semV .intOn rfl
  exact ⟨s, hs, by rw [hstack]; rfl, hlevel⟩

end Runs

end Execution

end Nachos

import Nachos.CallStack
import Nachos.Kernel

/-! The kernel with the calls of its routines: `machine/interrupt.cc`, `machine/machine.cc`, `machine/mipssim.cc`,
`threads/thread.cc`, `threads/scheduler.cc` and `threads/synch.cc`, as far as the interrupt level, the machine status
and the clock are concerned. Every thread has a stack of frames. A frame is a routine at the point at which it goes
on, with those of its local variables that it still needs. What the code of the kernel threads, the instructions of
the user programs and the handlers of the devices do is left open. -/

namespace Nachos

/-- The routines whose returns are observed. -/
inductive Routine where
  | semP
  | semV
  | yield
  | start
  deriving DecidableEq

inductive CallFrame (Sem : Type) where
  /-- The code of a kernel thread or of `ExceptionHandler`. -/
  | kernel
  /-- A call has just returned; the level at its entry is kept. -/
  | returned (routine : Routine) (entry : IntStatus)
  | semP (x : Sem)
  /-- The loop of `Semaphore::P`. -/
  | semPLoop (x : Sem) (oldLevel : IntStatus)
  | semV (x : Sem)
  | setLevel (now : IntStatus)
  /-- The loop of `Interrupt::OneTick`. -/
  | tickLoop (old : MachineStatus)
  /-- `OneTick` after its call of `Yield`. -/
  | tickEnd (old : MachineStatus)
  /-- The handler of a device. -/
  | handler
  /-- `CheckIfDue` after the handler. -/
  | checkIfDueEnd (old : MachineStatus)
  | idle
  /-- The loop of `Idle`, after the first call of `CheckIfDue`. -/
  | idleLoop
  | sleep (this : ThreadId)
  /-- The loop of `Thread::Sleep`. -/
  | sleepLoop
  | schedulerRun (nextThread : ThreadId)
  /-- `Scheduler::Run` after `SWITCH`. -/
  | afterSwitch
  | yield (this : ThreadId)
  | start (this : ThreadId)
  | finish (this : ThreadId)
  | setupThreadState
  /-- `ThreadRoot` calls the function of the thread. -/
  | threadRoot
  /-- The function has returned, and `ThreadFinish` is called. -/
  | threadFinish
  /-- `Machine::Run`. -/
  | machineRun
  | oneInstruction
  /-- `Machine::Run` after `OneInstruction`. -/
  | machineTick
  | raiseException
  /-- `RaiseException` after `ExceptionHandler`. -/
  | exceptionEnd (oldStatus : MachineStatus)

/-- The assertions on the way. -/
inductive Assertion where
  /-- `ASSERT((now == IntOff) || (inHandler == FALSE))` in `SetLevel`. -/
  | setLevelHandler
  /-- `ASSERT(level == IntOff)` in `CheckIfDue`. -/
  | checkIfDueLevel
  /-- `ASSERT(inHandler == TRUE)` in `YieldOnReturn`. -/
  | yieldOnReturnHandler
  /-- `ASSERT(fromNow > 0)` in `Schedule`. -/
  | scheduleFromNow
  /-- `ASSERT(this == currentThread)` in `Sleep`. -/
  | sleepThread
  /-- `ASSERT(interrupt->getLevel() == IntOff)` in `Sleep`. -/
  | sleepLevel
  /-- `ASSERT(interrupt->getLevel() == IntOff)` in `Scheduler::Run`. -/
  | runLevel
  /-- `ASSERT(this == currentThread)` in `Yield`. -/
  | yieldThread
  /-- `ASSERT(status == JUST_CREATED)` in `Start`. -/
  | startStatus
  /-- `ASSERT(this == currentThread)` in `Finish`. -/
  | finishThread
  /-- `ASSERT(threadToBeDestroyed == NULL)` in `Finish`. -/
  | finishPending
  /-- `ASSERT(this != currentThread)` in `~Thread`. -/
  | deleteCurrent
  deriving DecidableEq

/-- Why a run goes no further. -/
inductive Stop where
  /-- `Interrupt::Halt` is called. -/
  | halt
  | assertion (a : Assertion)
  /-- `ThreadRoot` has called `ThreadFinish`, which does not return. -/
  | notReached
  deriving DecidableEq

/-- What the code of a kernel thread may do next; `schedule` is a request to a device. -/
inductive KernelCall (Sem : Type) where
  | semP (x : Sem)
  | semV (x : Sem)
  | yield
  | start (t : ThreadId)
  | finish
  | setLevel (now : IntStatus)
  | run
  | raiseException
  | schedule (request : ScheduleRequest)
  | halt
  | return

/-- What the handler of a device may do next. -/
inductive HandlerCall (Sem : Type) where
  | semV (x : Sem)
  | schedule (request : ScheduleRequest)
  | yieldOnReturn
  | return

/-- What is left open; `traps` tells whether a user instruction raises an exception. -/
structure Decision (Sem : Type) where
  kernel : KernelCall Sem
  handler : HandlerCall Sem
  traps : Bool

/-- The global variables and the stacks. The last field counts the calls of `OneInstruction` that have returned to
`Machine::Run` and for which the clock has ticked. -/
structure Execution (Sem : Type) where
  interrupt : Interrupt
  currentThread : ThreadId
  threadToBeDestroyed : Option ThreadId
  readyList : List ThreadId
  status : ThreadId → ThreadStatus
  sem : Sem → Semaphore
  stack : ThreadId → List (CallFrame Sem)
  instructions : Nat

/-- `CheckIfDue` up to the call of a handler. -/
def Interrupt.nextDue (advanceClock : Bool) (s : Interrupt) : Option PendingInterrupt × Interrupt :=
  match sortedRemove s.pending with
  | none => (none, s)
  | some (toOccur, when, rest) =>
      if advanceClock = false ∧ s.totalTicks < when then
        -- not time yet, put it back
        (none, { s with pending := sortedInsert toOccur when rest })
      else
        let now := { s with
          pending := rest
          idleTicks := if s.totalTicks < when then s.idleTicks + (when - s.totalTicks) else s.idleTicks
          totalTicks := if s.totalTicks < when then when else s.totalTicks }
        if s.status = .idleMode ∧ toOccur.type = .timerInt ∧ rest.isEmpty then
          -- nothing more to do
          (none, { now with pending := sortedInsert toOccur when rest })
        else (some toOccur, now)

/-- The handler is called where `CheckIfDue` calls it when handlers run in one piece. -/
theorem Interrupt.checkIfDue_eq (handlers : Handlers) (advanceClock : Bool) (s : Interrupt) :
    s.checkIfDue handlers advanceClock = if s.level ≠ .intOff then none else
      match s.nextDue advanceClock with
      | (none, after) => some (false, after)
      | (some toOccur, after) => (after.invoke handlers toOccur).map fun done => (true, done) := by
  unfold checkIfDue nextDue
  split
  · rfl
  · cases sortedRemove s.pending with
    | none => rfl
    | some first =>
        obtain ⟨toOccur, when, rest⟩ := first
        dsimp only
        split
        · rfl
        · split <;> rfl

namespace Execution

variable {Sem : Type} [DecidableEq Sem]

/-- The frames that take the place of the uppermost one, and the state behind the step. -/
abbrev Result (Sem : Type) : Type := Except Stop (List (CallFrame Sem) × Execution Sem)

/-- `ChangeLevel`, and `SetLevel` where it turns interrupts off. -/
def withLevel (now : IntStatus) (s : Execution Sem) : Execution Sem :=
  { s with interrupt := { s.interrupt with level := now } }

def withMachineStatus (status : MachineStatus) (s : Execution Sem) : Execution Sem :=
  { s with interrupt := { s.interrupt with status := status } }

/-- `OneTick` up to its loop. -/
def oneTick (s : Execution Sem) : List (CallFrame Sem) × Execution Sem :=
  ([.tickLoop s.interrupt.status], { s with interrupt := s.interrupt.beginTick })

/-- `SetLevel`. -/
def setLevel (now : IntStatus) (s : Execution Sem) : Result Sem :=
  if now = .intOn ∧ s.interrupt.inHandler then .error (.assertion .setLevelHandler)
  else if now = .intOn ∧ s.interrupt.level = .intOff then .ok (s.withLevel now).oneTick
  else .ok ([], s.withLevel now)

/-- `CheckIfDue`. It returns `FALSE` at once, or `TRUE` to the frame `caller` after the handler. -/
def checkIfDue (advanceClock : Bool) (caller : CallFrame Sem) (returnsFalse : Execution Sem → Result Sem)
    (s : Execution Sem) : Result Sem :=
  if s.interrupt.level ≠ .intOff then .error (.assertion .checkIfDueLevel)
  else match s.interrupt.nextDue advanceClock with
    | (none, after) => returnsFalse { s with interrupt := after }
    | (some toOccur, after) =>
        .ok ([.handler, .checkIfDueEnd after.status, caller], { s with interrupt := after.enter toOccur })

/-- `OneTick` after its loop. -/
def afterLoop (old : MachineStatus) (s : Execution Sem) : Result Sem :=
  let s := s.withLevel .intOn
  if s.interrupt.yieldOnReturn then
    .ok ([.yield s.currentThread, .returned .yield s.interrupt.level, .tickEnd old],
      { s with interrupt := { s.interrupt with yieldOnReturn := false, status := .systemMode } })
  else .ok ([], s)

/-- `Scheduler::ReadyToRun`. -/
def readyToRun (t : ThreadId) (s : Execution Sem) : Execution Sem :=
  { s with status := Function.update s.status t .ready, readyList := s.readyList ++ [t] }

/-- `Scheduler::Run` up to `SWITCH`. -/
def switchTo (nextThread : ThreadId) (s : Execution Sem) : Execution Sem :=
  { s with currentThread := nextThread, status := Function.update s.status nextThread .running }

/-- The deletion of the finished thread after a switch. -/
def deleteFinished (s : Execution Sem) : Except Stop (Execution Sem) :=
  match s.threadToBeDestroyed with
  | none => .ok s
  | some t =>
      if t = s.currentThread then .error (.assertion .deleteCurrent)
      else .ok { s with threadToBeDestroyed := none }

/-- `Interrupt::Schedule`. -/
def schedule (request : ScheduleRequest) (s : Execution Sem) : Except Stop (Execution Sem) :=
  match s.interrupt.schedule request with
  | none => .error (.assertion .scheduleFromNow)
  | some interrupt => .ok { s with interrupt := interrupt }

/-- `Thread::Start`, up to its last call of `SetLevel`. -/
def startThread (this : ThreadId) (s : Execution Sem) : Result Sem :=
  if s.status this ≠ .justCreated then .error (.assertion .startStatus)
  else
    let allocated := { s with stack := Function.update s.stack this [.setupThreadState, .threadRoot] }
    .ok ([.setLevel s.interrupt.level], (allocated.withLevel .intOff).readyToRun this)

/-- The body of the loop of `Semaphore::P`, or what follows it. -/
def semPLoop (x : Sem) (oldLevel : IntStatus) (s : Execution Sem) : List (CallFrame Sem) × Execution Sem :=
  let sem := s.sem x
  if sem.value = 0 then
    ([.sleep s.currentThread, .semPLoop x oldLevel],
      { s with sem := Function.update s.sem x { sem with queue := sem.queue ++ [s.currentThread] } })
  else ([.setLevel oldLevel], { s with sem := Function.update s.sem x { sem with value := sem.value - 1 } })

/-- `Semaphore::V`, up to its last call of `SetLevel`. -/
def semV (x : Sem) (s : Execution Sem) : List (CallFrame Sem) × Execution Sem :=
  let sem := s.sem x
  let woken := match sem.queue with
    | [] => s
    | thread :: _ => s.readyToRun thread
  ([.setLevel s.interrupt.level],
    { woken.withLevel .intOff with
      sem := Function.update s.sem x { queue := sem.queue.tail, value := sem.value + 1 } })

/-- `Thread::Yield`, up to the call of `Run` or of `SetLevel`. -/
def yield (this : ThreadId) (s : Execution Sem) : Result Sem :=
  let off := s.withLevel .intOff
  if this ≠ s.currentThread then .error (.assertion .yieldThread)
  else match s.readyList with
    | [] => .ok ([.setLevel s.interrupt.level], off)
    | nextThread :: rest =>
        .ok ([.schedulerRun nextThread, .setLevel s.interrupt.level],
          ({ off with readyList := rest } : Execution Sem).readyToRun this)

/-- `Thread::Sleep`, up to its loop. -/
def sleep (this : ThreadId) (s : Execution Sem) : Result Sem :=
  if this ≠ s.currentThread then .error (.assertion .sleepThread)
  else if s.interrupt.level ≠ .intOff then .error (.assertion .sleepLevel)
  else .ok ([.sleepLoop], { s with status := Function.update s.status this .blocked })

/-- `Thread::Finish`, up to the call of `Sleep`. -/
def finish (this : ThreadId) (s : Execution Sem) : Result Sem :=
  let off := s.withLevel .intOff
  if this ≠ s.currentThread then .error (.assertion .finishThread)
  else if s.threadToBeDestroyed.isSome then .error (.assertion .finishPending)
  else .ok ([.sleep this], { off with threadToBeDestroyed := some s.currentThread })

/-- A call of `V`, `P`, `Yield` or `Start` by `caller`. -/
def call (routine : Routine) (frame caller : CallFrame Sem) (s : Execution Sem) : Result Sem :=
  .ok ([frame, .returned routine s.interrupt.level, caller], s)

def kernelCall (s : Execution Sem) : KernelCall Sem → Result Sem
  | .semP x => s.call .semP (.semP x) .kernel
  | .semV x => s.call .semV (.semV x) .kernel
  | .yield => s.call .yield (.yield s.currentThread) .kernel
  | .start t => s.call .start (.start t) .kernel
  | .finish => .ok ([.finish s.currentThread, .kernel], s)
  | .setLevel now => .ok ([.setLevel now, .kernel], s)
  | .run => .ok ([.machineRun, .kernel], s)
  | .raiseException => .ok ([.raiseException, .kernel], s)
  | .schedule request => (s.schedule request).map fun after => ([.kernel], after)
  | .halt => .error .halt
  | .return => .ok ([], s)

def handlerCall (s : Execution Sem) : HandlerCall Sem → Result Sem
  | .semV x => s.call .semV (.semV x) .handler
  | .schedule request => (s.schedule request).map fun after => ([.handler], after)
  | .yieldOnReturn =>
      if s.interrupt.inHandler then
        .ok ([.handler], { s with interrupt := { s.interrupt with yieldOnReturn := true } })
      else .error (.assertion .yieldOnReturnHandler)
  | .return => .ok ([], s)

/-- The uppermost frame of the current thread goes on. -/
def execute (d : Decision Sem) (s : Execution Sem) : CallFrame Sem → Result Sem
  | .kernel => s.kernelCall d.kernel
  | .returned _ _ => .ok ([], s)
  | .semP x => .ok ([.semPLoop x s.interrupt.level], s.withLevel .intOff)
  | .semPLoop x oldLevel => .ok (s.semPLoop x oldLevel)
  | .semV x => .ok (s.semV x)
  | .setLevel now => s.setLevel now
  | .tickLoop old => s.checkIfDue false (.tickLoop old) (afterLoop old)
  | .tickEnd old => .ok ([], s.withMachineStatus old)
  | .handler => s.handlerCall d.handler
  | .checkIfDueEnd old =>
      .ok ([], { s with interrupt := { s.interrupt with status := old, inHandler := false } })
  | .idle => (s.withMachineStatus .idleMode).checkIfDue true .idleLoop fun _ => .error .halt
  | .idleLoop => s.checkIfDue false .idleLoop fun after =>
      .ok ([], { after with interrupt := { after.interrupt with yieldOnReturn := false, status := .systemMode } })
  | .sleep this => s.sleep this
  | .sleepLoop => match s.readyList with
      | [] => .ok ([.idle, .sleepLoop], s)
      | nextThread :: rest => .ok ([.schedulerRun nextThread], { s with readyList := rest })
  | .schedulerRun nextThread =>
      if s.interrupt.level ≠ .intOff then .error (.assertion .runLevel)
      else .ok ([.afterSwitch], s.switchTo nextThread)
  | .afterSwitch => s.deleteFinished.map fun after => ([], after)
  | .yield this => s.yield this
  | .start this => s.startThread this
  | .finish this => s.finish this
  | .setupThreadState => s.deleteFinished.map fun after => ([.setLevel .intOn], after)
  | .threadRoot => .ok ([.kernel, .threadFinish], s)
  | .threadFinish => .ok ([.finish s.currentThread], s)
  | .machineRun => .ok ([.oneInstruction, .machineTick], s.withMachineStatus .userMode)
  | .oneInstruction => .ok (if d.traps then [.raiseException] else [], s)
  | .machineTick =>
      let (frames, ticked) := s.oneTick
      .ok (frames ++ [.oneInstruction, .machineTick], { ticked with instructions := s.instructions + 1 })
  | .raiseException =>
      .ok ([.kernel, .exceptionEnd s.interrupt.status], s.withMachineStatus .systemMode)
  | .exceptionEnd oldStatus => .ok ([], s.withMachineStatus oldStatus)

/-- A step of the current thread. -/
def step (d : Decision Sem) (s : Execution Sem) : Except Stop (Execution Sem) :=
  match s.stack s.currentThread with
  | [] => .error .notReached
  | frame :: rest => (s.execute d frame).map fun (frames, after) =>
      { after with stack := Function.update after.stack s.currentThread (frames ++ rest) }

/-- The beginning of `Initialize`; the main thread finishes when `main` is done. -/
def initial (sem : Sem → Semaphore) : Execution Sem where
  interrupt := .init
  currentThread := 0
  threadToBeDestroyed := none
  readyList := []
  status := Function.update (fun _ => .justCreated) 0 .running
  sem := sem
  stack := Function.update (fun _ => []) 0 [.kernel, .threadFinish]
  instructions := 0

end Execution

end Nachos

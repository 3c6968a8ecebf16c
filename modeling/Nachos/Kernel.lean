import Nachos.InterruptQueue
import Nachos.ThreadProgram

/-! Threads, the scheduler and semaphores: `threads/thread.cc`, `threads/scheduler.cc` and
`threads/synch.cc`, with the points of `machine/interrupt.cc` at which the processor can be taken
away. There is one register file for user programs; `Scheduler::Run` saves and restores it.

A kernel routine that disables interrupts runs to the point where it enables them again or gives the
processor to another thread in one step of the model. The clock is left open: at a tick any
interrupt that a device has pending may arrive, in any number, and the tick may end in a context
switch. A failed `ASSERT` is an error of the step function. -/

namespace Nachos

inductive ThreadStatus where
  | justCreated
  | running
  | ready
  | blocked
  deriving DecidableEq

/-- Where a thread goes on when it next executes, which its machine state and stack record. -/
inductive Kont (Sem σ ρ ω : Type) where
  /-- No stack has been allocated. -/
  | unstarted
  /-- `ThreadRoot` will call `SetupThreadState`, then the thread's function. -/
  | setup (p : Program Sem σ ρ ω)
  /-- The thread is executing, with interrupts on. -/
  | run (p : Program Sem σ ρ ω)
  /-- The thread is in `OneTick`, called by `SetLevel(IntOn)` or by `Machine::Run`. -/
  | tick (p : Program Sem σ ρ ω)
  /-- The thread is in the loop of `Semaphore::P`, at or after the call of `Sleep`. -/
  | sleep (x : Sem) (p : Program Sem σ ρ ω)
  /-- The thread is in `Finish`, from which it does not return. -/
  | finish

/-- A `Thread` object; `space` tells whether its address space is not `NULL`. -/
structure Thread (Sem κ σ ρ ω : Type) where
  status : ThreadStatus
  space : Bool
  userRegisters : ρ
  kont : Kont Sem σ ρ ω
  call : Option κ

structure Semaphore where
  value : Int
  queue : List ThreadId

/-- The global variables of the kernel, the registers of the machine, the shared state of the
devices and tables, and the history. `idling` holds while the current thread is in the loop of
`Thread::Sleep` that calls `Interrupt::Idle`. -/
structure Kernel (Sem κ σ ρ ω : Type) where
  currentThread : ThreadId
  threadToBeDestroyed : Option ThreadId
  readyList : List ThreadId
  halted : Bool
  level : IntStatus
  idling : Bool
  thread : ThreadId → Option (Thread Sem κ σ ρ ω)
  sem : Sem → Semaphore
  machine : ρ
  shared : σ
  log : List (Event Sem κ ω)

/-- The assertions of the kernel. -/
inductive Fault where
  /-- `ASSERT(status == JUST_CREATED)` in `Thread::Start`. -/
  | startStatus
  /-- `Thread::Start` through a pointer to no thread. -/
  | startDangling
  /-- `ASSERT(threadToBeDestroyed == NULL)` in `Thread::Finish`. -/
  | finishPending
  /-- `ASSERT(this != currentThread)` in `Thread::~Thread`. -/
  | deleteCurrent
  /-- `ASSERT(interrupt->getLevel() == IntOff)` in `Thread::Sleep`. -/
  | sleepLevel
  /-- `ASSERT(interrupt->getLevel() == IntOff)` in `Scheduler::Run`. -/
  | runLevel
  /-- An assertion of the code that the threads run. -/
  | client
  deriving DecidableEq

/-- The choices that a run leaves open. -/
inductive Choice (κ ι ρ : Type) where
  /-- The current thread executes the next piece of its code. -/
  | exec
  /-- `new Thread` returns an object at this address, with these values in its registers. -/
  | alloc (t : ThreadId) (garbage : ρ)
  /-- `new Thread` returns `NULL`. -/
  | allocFails
  /-- The current thread makes a call. -/
  | call (c : κ)
  /-- The handler of a device interrupt runs. -/
  | interrupt (i : ι)
  /-- The tick ends with `yieldOnReturn` set. -/
  | preempt
  /-- The tick ends. -/
  | resume
  /-- `Idle` has returned and `FindNextToRun` finds a thread. -/
  | dispatch

namespace Kernel

variable {Sem κ ι σ ρ ω : Type}

def modifyThread (t : ThreadId) (f : Thread Sem κ σ ρ ω → Thread Sem κ σ ρ ω)
    (s : Kernel Sem κ σ ρ ω) : Kernel Sem κ σ ρ ω :=
  { s with thread := Function.update s.thread t ((s.thread t).map f) }

/-- The current thread, when it next executes, goes on at `kont`. -/
def setKont (kont : Kont Sem σ ρ ω) (s : Kernel Sem κ σ ρ ω) : Kernel Sem κ σ ρ ω :=
  s.modifyThread s.currentThread fun th => { th with kont := kont }

/-- `Scheduler::ReadyToRun`. -/
def readyToRun (t : ThreadId) (s : Kernel Sem κ σ ρ ω) : Kernel Sem κ σ ρ ω :=
  { s.modifyThread t (fun th => { th with status := .ready }) with
    readyList := s.readyList ++ [t]
    log := s.log ++ [.readied t] }

/-- `Scheduler::FindNextToRun`. -/
def findNextToRun (s : Kernel Sem κ σ ρ ω) : Option (ThreadId × Kernel Sem κ σ ρ ω) :=
  if s.halted then none
  else match s.readyList with
    | [] => none
    | next :: rest => some (next, { s with readyList := rest })

/-- `Thread::SaveUserState`, called by `Run` for a thread with an address space. -/
def saveUserState (s : Kernel Sem κ σ ρ ω) : Kernel Sem κ σ ρ ω :=
  s.modifyThread s.currentThread fun th =>
    if th.space then { th with userRegisters := s.machine } else th

/-- `Thread::RestoreUserState`, called after a switch for a thread with an address space. -/
def restoreUserState (s : Kernel Sem κ σ ρ ω) : Kernel Sem κ σ ρ ω :=
  match s.thread s.currentThread with
  | some th => if th.space then { s with machine := th.userRegisters } else s
  | none => s

/-- The deletion of the finished thread, after `SWITCH` in `Run` and in `SetupThreadState`. -/
def deleteFinished (s : Kernel Sem κ σ ρ ω) : Except Fault (Kernel Sem κ σ ρ ω) :=
  match s.threadToBeDestroyed with
  | none => .ok s
  | some t =>
      if t = s.currentThread then .error .deleteCurrent
      else .ok { s with
        thread := Function.update s.thread t none
        threadToBeDestroyed := none
        log := s.log ++ [.destroyed t] }

/-- Where the thread that `SWITCH` returned to goes on: a thread in `Yield` or at its beginning
enables interrupts, which ticks the clock; a thread in `Sleep` returns into the loop of `P`. -/
def afterSwitch (s : Kernel Sem κ σ ρ ω) : Kernel Sem κ σ ρ ω :=
  match (s.thread s.currentThread).map Thread.kont with
  | some (.setup p) => { s.setKont (.tick p) with level := .intOn }
  | some (.tick p) => { s.setKont (.tick p) with level := .intOn }
  | _ => s

/-- The first half of `Scheduler::Run`: the registers are saved and `next` becomes current. -/
def switchTo (next : ThreadId) (s : Kernel Sem κ σ ρ ω) : Kernel Sem κ σ ρ ω :=
  { s.saveUserState.modifyThread next (fun th => { th with status := .running }) with
    currentThread := next
    idling := false
    log := s.log ++ [.dispatched next] }

/-- `Scheduler::Run`, up to the point where the next thread goes on by itself. -/
def run (next : ThreadId) (s : Kernel Sem κ σ ρ ω) : Except Fault (Kernel Sem κ σ ρ ω) :=
  if s.level = .intOff then
    (s.switchTo next).deleteFinished.map fun clean => afterSwitch (restoreUserState clean)
  else .error .runLevel

/-- The beginning of `Thread::Sleep`: the current thread is blocked and looks for the next one. -/
def asleep (s : Kernel Sem κ σ ρ ω) : Kernel Sem κ σ ρ ω :=
  { s.modifyThread s.currentThread (fun th => { th with status := .blocked }) with idling := true }

/-- `Thread::Sleep` of the current thread, up to the switch or to the call of `Idle`. -/
def sleep (s : Kernel Sem κ σ ρ ω) : Except Fault (Kernel Sem κ σ ρ ω) :=
  if s.level = .intOff then
    match s.asleep.findNextToRun with
    | some (next, rest) => rest.run next
    | none => .ok s.asleep
  else .error .sleepLevel

/-- `Thread::Yield` of the current thread. -/
def yield (s : Kernel Sem κ σ ρ ω) : Except Fault (Kernel Sem κ σ ρ ω) :=
  match ({ s with level := .intOff } : Kernel Sem κ σ ρ ω).findNextToRun with
  | some (next, rest) => (rest.readyToRun s.currentThread).run next
  | none => .ok { s with level := .intOn }

/-- `Thread::Finish` of the current thread. -/
def finish (s : Kernel Sem κ σ ρ ω) : Except Fault (Kernel Sem κ σ ρ ω) :=
  match s.threadToBeDestroyed with
  | some _ => .error .finishPending
  | none => sleep { s.setKont .finish with
      level := .intOff
      threadToBeDestroyed := some s.currentThread
      log := s.log ++ [.finished s.currentThread] }

/-- `Thread::Start` of the thread `t`, called by the current thread. -/
def start (t : ThreadId) (body k : Program Sem σ ρ ω) (s : Kernel Sem κ σ ρ ω) :
    Except Fault (Kernel Sem κ σ ρ ω) :=
  match s.thread t with
  | none => .error .startDangling
  | some th =>
      if th.status = .justCreated then
        let allocated := s.modifyThread t fun th => { th with kont := .setup body }
        .ok { (allocated.readyToRun t).setKont (.tick k) with
          level := .intOn
          log := s.log ++ [.readied t, .started t] }
      else .error .startStatus

section Semaphores

variable [DecidableEq Sem]

def modifySem (x : Sem) (f : Semaphore → Semaphore) (s : Kernel Sem κ σ ρ ω) :
    Kernel Sem κ σ ρ ω :=
  { s with sem := Function.update s.sem x (f (s.sem x)) }

/-- The loop of `Semaphore::P` in the current thread, with interrupts off. -/
def semaphoreP (x : Sem) (k : Program Sem σ ρ ω) (s : Kernel Sem κ σ ρ ω) :
    Except Fault (Kernel Sem κ σ ρ ω) :=
  if (s.sem x).value = 0 then
    ((s.modifySem x fun sem => { sem with queue := sem.queue ++ [s.currentThread] }).setKont
      (.sleep x k)).sleep
  else
    .ok { (s.modifySem x fun sem => { sem with value := sem.value - 1 }).setKont (.tick k) with
      level := .intOn
      log := s.log ++ [.passed x s.currentThread ((s.thread s.currentThread).bind Thread.call)] }

/-- The body of `Semaphore::V`, with interrupts off, called by a thread or by a handler. -/
def semaphoreV (x : Sem) (caller : Option ThreadId) (s : Kernel Sem κ σ ρ ω) :
    Kernel Sem κ σ ρ ω :=
  let woken := match (s.sem x).queue with
    | [] => s
    | t :: rest => (s.modifySem x fun sem => { sem with queue := rest }).readyToRun t
  { woken.modifySem x (fun sem => { sem with value := sem.value + 1 }) with
    log := woken.log ++ [.released x caller] }

/-- The calls of `V` by one interrupt handler. -/
def releaseAll : List Sem → Kernel Sem κ σ ρ ω → Kernel Sem κ σ ρ ω
  | [], s => s
  | x :: rest, s => releaseAll rest (s.semaphoreV x none)

/-- The handler of interrupt `i` runs. -/
def deliver (system : ThreadSystem Sem κ ι σ ρ ω) (i : ι) (s : Kernel Sem κ σ ρ ω) :
    Option (Except Fault (Kernel Sem κ σ ρ ω)) :=
  (system.handler i s.shared).map fun effect =>
    .ok (releaseAll effect.2 { s with shared := effect.1 })

/-- The current thread `th` executes the head of its program. -/
def execute (system : ThreadSystem Sem κ ι σ ρ ω) (th : Thread Sem κ σ ρ ω)
    (p : Program Sem σ ρ ω) (choice : Choice κ ι ρ) (s : Kernel Sem κ σ ρ ω) :
    Option (Except Fault (Kernel Sem κ σ ρ ω)) :=
  match p, choice with
  | .semP x k, .exec => some (semaphoreP x k { s with level := .intOff })
  | .semV x k, .exec => some (.ok ((s.semaphoreV x (some s.currentThread)).setKont (.tick k)))
  | .tick k, .exec => some (.ok (s.setKont (.tick k)))
  | .yield k, .exec => some (s.setKont (.tick k)).yield
  | .act f k, .exec =>
      let effect := f s.currentThread s.shared s.machine
      some (.ok { s.setKont (.run (k s.currentThread s.shared s.machine)) with
        shared := effect.1
        machine := effect.2.1
        log := s.log ++ effect.2.2.map (.observed s.currentThread) })
  | .newThread k, .alloc t garbage =>
      if t ≠ 0 ∧ s.thread t = none then
        some (.ok { s.setKont (.run (k (some t))) with
          thread := Function.update (s.setKont (.run (k (some t)))).thread t
            (some ⟨.justCreated, th.space, system.construct garbage, .unstarted, none⟩)
          log := s.log ++ [.created t] })
      else none
  | .newThread k, .allocFails => some (.ok (s.setKont (.run (k none))))
  | .start t body k, .exec => some (s.start t body k)
  | .finish, .exec => some s.finish
  | .halt, .exec => some (.ok { s with
      halted := true
      log := s.log ++ [.halted s.currentThread] })
  | .abort, .exec => some (.error .client)
  | .ret, .call c =>
      if th.call.isNone then
        some (.ok { s.modifyThread s.currentThread (fun th =>
            { th with kont := .run (system.menu c), call := some c }) with
          log := s.log ++ [.called s.currentThread c] })
      else none
  | .ret, .exec => th.call.map fun c =>
      .ok { s.modifyThread s.currentThread (fun th => { th with call := none }) with
        log := s.log ++ [.returned s.currentThread c] }
  | _, _ => none

/-- One step of the kernel; `none` means that the choice does not apply in this state. -/
def step (system : ThreadSystem Sem κ ι σ ρ ω) (choice : Choice κ ι ρ)
    (s : Kernel Sem κ σ ρ ω) : Option (Except Fault (Kernel Sem κ σ ρ ω)) :=
  if s.halted then none
  else match s.thread s.currentThread with
    | none => none
    | some th =>
        if s.idling then
          match choice with
          | .interrupt i => s.deliver system i
          | .dispatch => s.findNextToRun.map fun found => found.2.run found.1
          | _ => none
        else match th.kont, choice with
          | .tick _, .interrupt i => s.deliver system i
          | .tick _, .preempt => some s.yield
          | .tick p, .resume => some (.ok (s.setKont (.run p)))
          | .sleep x k, .exec => some (s.semaphoreP x k)
          | .run p, _ => s.execute system th p choice
          | _, _ => none

end Semaphores

/-- The kernel when the main thread begins: it runs with interrupts on. -/
def initial (system : ThreadSystem Sem κ ι σ ρ ω) (space : Bool) : Kernel Sem κ σ ρ ω where
  currentThread := system.main
  threadToBeDestroyed := none
  readyList := []
  halted := false
  level := .intOn
  idling := false
  thread := Function.update (fun _ => none) system.main
    (some ⟨.running, space, system.initialPrivate, .run .ret, none⟩)
  sem x := ⟨system.initialValue x, []⟩
  machine := system.initialPrivate
  shared := system.initialShared
  log := []

end Kernel

/-- The runs of the kernel on a system of threads; `space` tells whether they have an address space. -/
def kernel {Sem κ ι σ ρ ω : Type} [DecidableEq Sem] (system : ThreadSystem Sem κ ι σ ρ ω)
    (space : Bool) : TransitionSystem (Kernel Sem κ σ ρ ω) where
  init s := s = Kernel.initial system space
  step s t := ∃ choice, s.step system choice = some (.ok t)

end Nachos

import Mathlib.Logic.Function.Basic
import Nachos.TransitionSystem

/-! Programs of threads that share memory and counting semaphores, and their interleaving semantics.

A thread runs without interruption from one point at which it gives up the processor to the next:
a semaphore operation, a tick of the clock, a yield, the start of another thread. Between two such
points it may act on the shared memory and on its private one. The semantics has no queues and no
scheduler: whenever the processor is free any thread may take it, and a thread that finds a
semaphore at zero gives the processor up and tries again later. -/

abbrev ThreadId := Nat

/-- What a thread still has to do. `act` changes the shared and the private state and emits
observations; its continuation is chosen by what the thread read. `ret` is the end of a call. -/
inductive Program (Sem σ ρ ω : Type) where
  | ret
  | semP (s : Sem) (k : Program Sem σ ρ ω)
  | semV (s : Sem) (k : Program Sem σ ρ ω)
  | tick (k : Program Sem σ ρ ω)
  | yield (k : Program Sem σ ρ ω)
  | act (f : ThreadId → σ → ρ → σ × ρ × List ω) (k : ThreadId → σ → ρ → Program Sem σ ρ ω)
  | newThread (k : Option ThreadId → Program Sem σ ρ ω)
  | start (t : ThreadId) (body : Program Sem σ ρ ω) (k : Program Sem σ ρ ω)
  | finish
  | halt
  | abort

/-- What a run leaves in its history. A semaphore is passed by a thread during a call; it is released
by a thread or, when there is none, by an interrupt. The last four events belong to the scheduler. -/
inductive Event (Sem κ ω : Type) where
  | called (t : ThreadId) (c : κ)
  | returned (t : ThreadId) (c : κ)
  | passed (s : Sem) (t : ThreadId) (c : Option κ)
  | released (s : Sem) (t : Option ThreadId)
  | observed (t : ThreadId) (o : ω)
  | created (t : ThreadId)
  | started (t : ThreadId)
  | halted (t : ThreadId)
  | readied (t : ThreadId)
  | dispatched (t : ThreadId)
  | finished (t : ThreadId)
  | destroyed (t : ThreadId)

/-- A closed system: the calls a thread may make, the interrupts that may arrive in a shared state
(with the semaphores their handlers release), and the initial values. `construct` is what the
construction of a thread makes of its uninitialised private memory. -/
structure ThreadSystem (Sem κ ι σ ρ ω : Type) where
  menu : κ → Program Sem σ ρ ω
  handler : ι → σ → Option (σ × List Sem)
  initialValue : Sem → Int
  initialShared : σ
  initialPrivate : ρ
  construct : ρ → ρ
  main : ThreadId

namespace Interleaving

variable {Sem κ ι σ ρ ω : Type}

/-- A thread; `code` is missing while it has been constructed but not started. -/
structure Thread (Sem κ σ ρ ω : Type) where
  code : Option (Program Sem σ ρ ω)
  priv : ρ
  call : Option κ

@[ext] structure State (Sem κ σ ρ ω : Type) where
  thread : ThreadId → Option (Thread Sem κ σ ρ ω)
  value : Sem → Int
  shared : σ
  cpu : Option ThreadId
  halted : Bool
  log : List (Event Sem κ ω)

/-- The state with another thread in the place of `t`. -/
def State.setThread (s : State Sem κ σ ρ ω) (t : ThreadId) (thread : Thread Sem κ σ ρ ω) :
    State Sem κ σ ρ ω :=
  { s with thread := Function.update s.thread t (some thread) }

/-- The values after one release of each semaphore of the list. -/
def releaseAll [DecidableEq Sem] : List Sem → (Sem → Int) → Sem → Int
  | [], value => value
  | s :: rest, value => releaseAll rest (Function.update value s (value s + 1))

/-- What the thread `t`, which is `th` and has the processor, does with the program it is at. -/
inductive Runs [DecidableEq Sem] (system : ThreadSystem Sem κ ι σ ρ ω) (s : State Sem κ σ ρ ω)
    (t : ThreadId) (th : Thread Sem κ σ ρ ω) : Program Sem σ ρ ω → State Sem κ σ ρ ω → Prop where
  | pass {x : Sem} {k : Program Sem σ ρ ω} (hvalue : s.value x ≠ 0) :
      Runs system s t th (.semP x k) { s.setThread t { th with code := some k } with
        value := Function.update s.value x (s.value x - 1)
        cpu := none
        log := s.log ++ [.passed x t th.call] }
  | wait {x : Sem} {k : Program Sem σ ρ ω} (hvalue : s.value x = 0) :
      Runs system s t th (.semP x k) { s with cpu := none }
  | release {x : Sem} {k : Program Sem σ ρ ω} :
      Runs system s t th (.semV x k) { s.setThread t { th with code := some k } with
        value := Function.update s.value x (s.value x + 1)
        cpu := none
        log := s.log ++ [.released x (some t)] }
  | tick {k : Program Sem σ ρ ω} :
      Runs system s t th (.tick k) { s.setThread t { th with code := some k } with cpu := none }
  | yield {k : Program Sem σ ρ ω} :
      Runs system s t th (.yield k) { s.setThread t { th with code := some k } with cpu := none }
  | act {f : ThreadId → σ → ρ → σ × ρ × List ω} {k : ThreadId → σ → ρ → Program Sem σ ρ ω} :
      Runs system s t th (.act f k) { s.setThread t { th with
          code := some (k t s.shared th.priv)
          priv := (f t s.shared th.priv).2.1 } with
        shared := (f t s.shared th.priv).1
        log := s.log ++ (f t s.shared th.priv).2.2.map (.observed t) }
  | create {k : Option ThreadId → Program Sem σ ρ ω} (u : ThreadId) (garbage : ρ) (hnull : u ≠ 0)
      (hfresh : s.thread u = none) :
      Runs system s t th (.newThread k) { (s.setThread t { th with code := some (k (some u)) }).setThread u
          ⟨none, system.construct garbage, none⟩ with
        log := s.log ++ [.created u] }
  | createFails {k : Option ThreadId → Program Sem σ ρ ω} :
      Runs system s t th (.newThread k) (s.setThread t { th with code := some (k none) })
  | start {u : ThreadId} {new : Thread Sem κ σ ρ ω} {body k : Program Sem σ ρ ω}
      (hu : s.thread u = some new) (hnew : new.code = none) :
      Runs system s t th (.start u body k) { (s.setThread t { th with code := some k }).setThread u
          { new with code := some body } with
        cpu := none
        log := s.log ++ [.started u] }
  | finish : Runs system s t th .finish
      { s with thread := Function.update s.thread t none, cpu := none }
  | halt : Runs system s t th .halt { s with halted := true, log := s.log ++ [.halted t] }
  | call (c : κ) (hcall : th.call = none) :
      Runs system s t th .ret { s.setThread t { th with code := some (system.menu c), call := some c } with
        log := s.log ++ [.called t c] }
  | return (c : κ) (hcall : th.call = some c) :
      Runs system s t th .ret { s.setThread t { th with call := none } with
        log := s.log ++ [.returned t c] }

/-- One step: a thread takes the free processor, the thread that has it executes the head of its
program, or an interrupt arrives while no thread has it. -/
inductive Step [DecidableEq Sem] (system : ThreadSystem Sem κ ι σ ρ ω) (s : State Sem κ σ ρ ω) :
    State Sem κ σ ρ ω → Prop where
  | take (t : ThreadId) (th : Thread Sem κ σ ρ ω) (hhalted : s.halted = false) (hcpu : s.cpu = none)
      (ht : s.thread t = some th) (hcode : th.code ≠ none) : Step system s { s with cpu := some t }
  | run {t : ThreadId} {th : Thread Sem κ σ ρ ω} {p : Program Sem σ ρ ω} {s' : State Sem κ σ ρ ω}
      (hhalted : s.halted = false) (hcpu : s.cpu = some t) (ht : s.thread t = some th)
      (hcode : th.code = some p) (hruns : Runs system s t th p s') : Step system s s'
  | interrupt (i : ι) (shared : σ) (released : List Sem) (hhalted : s.halted = false)
      (hcpu : s.cpu = none) (hhandler : system.handler i s.shared = some (shared, released)) :
      Step system s { s with
        shared := shared
        value := releaseAll released s.value
        log := s.log ++ released.map fun x => .released x none }

/-- At the beginning the main thread has the processor and is about to make its first call. -/
def initial (system : ThreadSystem Sem κ ι σ ρ ω) : State Sem κ σ ρ ω where
  thread := Function.update (fun _ => none) system.main
    (some ⟨some .ret, system.initialPrivate, none⟩)
  value := system.initialValue
  shared := system.initialShared
  cpu := some system.main
  halted := false
  log := []

end Interleaving

/-- The interleaving semantics of a system. -/
def ThreadSystem.interleaving {Sem κ ι σ ρ ω : Type} [DecidableEq Sem]
    (system : ThreadSystem Sem κ ι σ ρ ω) :
    TransitionSystem (Interleaving.State Sem κ σ ρ ω) where
  init s := s = Interleaving.initial system
  step := Interleaving.Step system

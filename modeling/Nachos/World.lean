import Mathlib.Algebra.GroupWithZero.Nat
import Nachos.BitMap
import Nachos.ThreadProgram

/-! What the threads of a user program share: the console device of `machine/console.cc` and the
tables of `userprog/userthread.cc`, with the semaphores and locks that guard them. -/

namespace Nachos

/-- The constant `EOF`. -/
def eof : Word := -1

/-- The fields of a `Console`, the interrupts it has scheduled, the bytes that the host has still to
deliver and the bytes that were written. `utf8` is the answer of `nl_langinfo(CODESET)`. -/
structure Console where
  incoming : Word
  putBusy : Bool
  writesPending : Nat
  pollPending : Bool
  utf8 : Bool
  input : List Byte
  output : List Byte

/-- A `Console` after its constructor, on a host that will deliver `input`. -/
def Console.new (utf8 : Bool) (input : List Byte) : Console where
  incoming := eof
  putBusy := false
  writesPending := 0
  pollPending := true
  utf8 := utf8
  input := input
  output := []

def maxThreads : Nat := 10

/-- The static variables of `userthread.cc`. A thread is identified by its address. -/
structure ThreadTable where
  gThreads : List ThreadId
  stackMap : BitMap
  gThreadsIdx : Int

/-- The initial values, with what the allocation of `stackMap` found in its memory. -/
def ThreadTable.new (garbage : Nat → Word) : ThreadTable where
  gThreads := List.replicate maxThreads 0
  stackMap := .new maxThreads garbage
  gThreadsIdx := 0

/-- The shared state; `memory` is the virtual memory of the user program. -/
structure World where
  console : Console
  table : ThreadTable
  memory : Nat → Byte

/-- The semaphores of `SynchConsole` and those inside its locks and inside `thread_lock`. -/
inductive Sem where
  | readAvail
  | writeDone
  | readLock
  | writeLock
  | threadLock
  deriving DecidableEq

abbrev numTotalRegs : Nat := 40

instance : NeZero numTotalRegs := ⟨by decide⟩

/-- The registers of a user program. -/
abbrev Registers := Fin numTotalRegs → Word

/-- What a thread shows: a value obtained from `Console::GetChar`; its registers when it begins to run
the user program, when it traps into the kernel and when the system call returns; that it is in the
critical section of `do_ThreadExit`; and that `new Thread` has returned `NULL`. -/
inductive Observation where
  | got (c : Word)
  | began (registers : Registers)
  | trapped (registers : Registers)
  | resumed (registers : Registers)
  | exited
  | outOfMemory

variable {κ ρ : Type}

/-- The value that an event shows. -/
def gotValue : Event Sem κ Observation → Option Word
  | .observed _ (.got v) => some v
  | _ => none

/-- The values obtained from `Console::GetChar`, in the order of time. -/
def gotValues (log : List (Event Sem κ Observation)) : List Word := log.filterMap gotValue

/-- A piece of code that changes the shared state and goes on with what it computed from it. -/
def update {β : Type} (f : ThreadId → World → World × β) (k : β → Program Sem World ρ Observation) :
    Program Sem World ρ Observation :=
  .act (fun t world priv => ((f t world).1, priv, [])) fun t world _ => k (f t world).2

end Nachos

import Mathlib.Data.Fintype.Basic
import Nachos.Component
import Nachos.ConsoleInput
import Nachos.ConsoleOutput

/-! Two `SynchConsole` objects. Each has its own device and its own locks, but the semaphores `readAvail` and
`writeDone` are static members, which the handlers of both devices release and the calls on both objects wait for. -/

namespace Nachos

open Interleaving

/-- The console of the kernel and the one that `SynchConsoleTest` creates. -/
inductive ConsoleId where
  | synchconsole
  | testSynchconsole
  deriving DecidableEq

instance : Fintype ConsoleId := ⟨{.synchconsole, .testSynchconsole}, fun c => by cases c <;> decide⟩

/-- The static members. -/
inductive StaticSem where
  | readAvail
  | writeDone
  deriving DecidableEq

instance : Fintype StaticSem := ⟨{.readAvail, .writeDone}, fun x => by cases x <;> decide⟩

/-- The semaphores of the static members and of the locks. A `signal` is released together with a static member, by
the handlers of one console only; nobody waits for it. -/
inductive PairSem where
  | static (x : StaticSem)
  | readLock (c : ConsoleId)
  | writeLock (c : ConsoleId)
  | threadLock
  | signal (c : ConsoleId) (x : StaticSem)
  deriving DecidableEq

/-- The semaphores that the code of a `SynchConsole` uses, for one object. -/
def member (c : ConsoleId) : Sem → PairSem
  | .readAvail => .static .readAvail
  | .writeDone => .static .writeDone
  | .readLock => .readLock c
  | .writeLock => .writeLock c
  | .threadLock => .threadLock

/-- What a handler of one console releases. -/
def raises (c : ConsoleId) : Sem → List PairSem
  | .readAvail => [.static .readAvail, .signal c .readAvail]
  | .writeDone => [.static .writeDone, .signal c .writeDone]
  | x => [member c x]

abbrev Consoles : Type := ConsoleId → Console

abbrev PairEvent : Type := Event PairSem (ConsoleId × ConsoleCall) (ConsoleId × Observation)

abbrev PairState : Type :=
  Interleaving.State PairSem (ConsoleId × ConsoleCall) Consoles Unit (ConsoleId × Observation)

/-- The code of a `SynchConsole` on one object; the table and the memory are not used. -/
def onConsole (table : ThreadTable) (c : ConsoleId) :
    Component Sem PairSem World Consoles Observation (ConsoleId × Observation) where
  sem := member c
  get consoles := ⟨consoles c, table, fun _ => 0⟩
  put world consoles := Function.update consoles c world.console
  observation o := (c, o)

/-- Any number of threads that use two consoles. A call names its console; `compute`, `fork` and `exit` do the same
with both. -/
def consolePair (utf8 : Bool) (input : ConsoleId → List Byte) (table : ThreadTable) :
    ThreadSystem PairSem (ConsoleId × ConsoleCall) (ConsoleId × ConsoleInterrupt) Consoles Unit
      (ConsoleId × Observation) where
  menu call := ((consoleSystem utf8 [] table).menu call.2).embed (onConsole table call.1)
  handler interrupt consoles :=
    (consoleHandler interrupt.2 ((onConsole table interrupt.1).get consoles)).map fun (world, released) =>
      ((onConsole table interrupt.1).put world consoles, released.flatMap (raises interrupt.1))
  initialValue
    | .readLock _ => 1
    | .writeLock _ => 1
    | .threadLock => 1
    | _ => 0
  initialShared c := .new utf8 (input c)
  initialPrivate := ()
  construct := id
  main := 1

/-- The value that `Console::GetChar` returns for a console. -/
def gotOn (c : ConsoleId) : PairEvent → Option Word
  | .observed _ (c', .got v) => if c' = c then some v else none
  | _ => none

/-- The values that the calls of `Console::GetChar` on a console have returned. -/
def gotFrom (c : ConsoleId) (log : List PairEvent) : List Word := log.filterMap (gotOn c)

/-- A handler of the console has released the static member. -/
def isRaised (c : ConsoleId) (x : StaticSem) : PairEvent → Bool
  | .released (.signal c' x') _ => decide (c' = c ∧ x' = x)
  | _ => false

/-- A call on the console has passed the static member. -/
def isTaken (c : ConsoleId) (x : StaticSem) : PairEvent → Bool
  | .passed (.static x') _ (some (c', _)) => decide (c' = c ∧ x' = x)
  | _ => false

/-- A call passes a static member only when its own console has released it more often than the calls on this
console have passed it. -/
def OwnSignals (log : List PairEvent) : Prop :=
  ∀ before event after, log = before ++ event :: after → ∀ c x, isTaken c x event = true →
    before.countP (isTaken c x) < before.countP (isRaised c x)

theorem ownSignals_iff (log : List PairEvent) : OwnSignals log ↔ ∀ i : Fin log.length, ∀ c x,
    isTaken c x log[i] = true → (log.take i).countP (isTaken c x) < (log.take i).countP (isRaised c x) := by
  constructor
  · intro h i c x htaken
    refine h (log.take i) log[i] (log.drop (i + 1)) ?_ c x htaken
    rw [Fin.getElem_fin, List.getElem_cons_drop, List.take_append_drop]
  · rintro h before event after rfl c x htaken
    have hlt : before.length < (before ++ event :: after).length := by
      rw [List.length_append, List.length_cons]
      omega
    have hat := h ⟨before.length, hlt⟩ c x
    rw [Fin.getElem_fin, List.getElem_append_right (Nat.le_refl _), List.take_left] at hat
    simp only [Nat.sub_self, List.getElem_cons_zero] at hat
    exact hat htaken

instance (log : List PairEvent) : Decidable (OwnSignals log) := decidable_of_iff _ (ownSignals_iff log).symm

end Nachos

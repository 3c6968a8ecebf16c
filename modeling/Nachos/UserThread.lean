import Mathlib.Algebra.Group.Int.Defs
import Nachos.World

/-! The threads of a user program, `userprog/userthread.cc`, with the parts of `userprog/addrspace.cc`
and `machine/machine.cc` that give them registers and stacks. -/

namespace Nachos

def pageSize : Nat := 128

def numPhysPages : Nat := 4096

def userStacksAreaSize : Nat := 4 * 1024

/-- The size of an address space; it has the area for the stacks and fits into the memory. -/
structure AddrSpace where
  numPages : Nat
  stackArea : userStacksAreaSize ≤ numPages * pageSize
  fits : numPages ≤ numPhysPages

section Registers

def stackReg : Fin numTotalRegs := 29
def retAddrReg : Fin numTotalRegs := 31
def pcReg : Fin numTotalRegs := 34
def nextPCReg : Fin numTotalRegs := 35
def prevPCReg : Fin numTotalRegs := 36
def loadReg : Fin numTotalRegs := 37
def loadValueReg : Fin numTotalRegs := 38
def badVAddrReg : Fin numTotalRegs := 39

/-- `Machine::WriteRegister`. -/
def writeRegister (r : Registers) (num : Fin numTotalRegs) (value : Word) : Registers :=
  Function.update r num value

def userStartAddress : Word := 128

/-- `AddrSpace::InitRegisters`. -/
def AddrSpace.initRegisters (space : AddrSpace) : Registers :=
  let r := writeRegister (fun _ => 0) pcReg userStartAddress
  let r := writeRegister r nextPCReg (r pcReg + 4)
  writeRegister r stackReg (BitVec.ofNat 32 (space.numPages * pageSize) - 16)

def stackPadding : Word := 16

def userThreadStackSize : Word := 256

/-- The registers with which `StartUserThread` runs the machine; the arithmetic is unsigned. -/
def startRegisters (space : AddrSpace) (f arg fExit : Word) (idx : Int) : Registers :=
  let r : Registers := fun _ => 0
  let r := writeRegister r prevPCReg (r pcReg)
  let r := writeRegister r pcReg f
  let r := writeRegister r nextPCReg (f + 4)
  let r := writeRegister r retAddrReg fExit
  let r := writeRegister r stackReg (BitVec.ofNat 32 (space.numPages * pageSize) - stackPadding -
    (BitVec.ofInt 32 idx + 1) * userThreadStackSize - stackPadding)
  writeRegister r 4 arg

/-- What the constructor of a thread does to its uninitialised registers. -/
def constructRegisters (garbage : Registers) : Registers :=
  writeRegister (writeRegister garbage loadReg 0) loadValueReg 0

end Registers

namespace ThreadTable

/-- `GetStackIdFromThread`. -/
def getStackIdFromThread (table : ThreadTable) (t : ThreadId) : Int :=
  match table.gThreads.idxOf? t with
  | some i => i
  | none => -1

/-- The search of `do_ThreadCreate` for a free stack. -/
def findStack (table : ThreadTable) : Int × ThreadTable :=
  (table.stackMap.find.1, { table with stackMap := table.stackMap.find.2 })

/-- `do_ThreadCreate` enters the new thread. -/
def enter (idx : Int) (t : ThreadId) (table : ThreadTable) : ThreadTable :=
  { table with
    gThreads := table.gThreads.set idx.toNat t
    gThreadsIdx := table.gThreadsIdx + 1 }

/-- The critical section of `do_ThreadExit`; the assertion in `BitMap::Clear` may fail. -/
def leave (t : ThreadId) (table : ThreadTable) : Option ThreadTable :=
  let idx := table.getStackIdFromThread t
  if 0 ≤ idx then
    (table.stackMap.clear idx).map fun map =>
      { gThreads := table.gThreads.set idx.toNat 0
        stackMap := map
        gThreadsIdx := table.gThreadsIdx - 1 }
  else some { table with gThreadsIdx := table.gThreadsIdx - 1 }

end ThreadTable

/-- `StartUserThread`, up to the user program. -/
def startUserThread (space : AddrSpace) (f arg fExit : Word) (idx : Int) :
    Program Sem World Registers Observation :=
  .act (fun _ world _ =>
      (world, startRegisters space f arg fExit idx, [.began (startRegisters space f arg fExit idx)]))
    fun _ _ _ => .ret

section Create

variable (space : AddrSpace) (f arg fExit : Word) (k : Word → Program Sem World Registers Observation)

/-- `do_ThreadCreate` starts the new thread, which `StartUserThread` will give the stack `idx`. -/
def startNewThread (idx : Int) (newThread : ThreadId) : Program Sem World Registers Observation :=
  .start newThread (startUserThread space f arg fExit idx) <| .semV .threadLock <| k 0

/-- `do_ThreadCreate` with a new thread. -/
def enterNewThread (idx : Int) (newThread : ThreadId) : Program Sem World Registers Observation :=
  update (fun _ world => ({ world with table := world.table.enter idx newThread }, ())) fun _ =>
    startNewThread space f arg fExit k idx newThread

/-- `do_ThreadCreate` when `new Thread` has returned `NULL`; the stack stays marked. -/
def noNewThread : Program Sem World Registers Observation :=
  .act (fun _ world r => (world, r, [.outOfMemory])) fun _ _ _ => .semV .threadLock <| k (-1)

/-- `do_ThreadCreate` with the result of the search for a stack. -/
def createWithStack (idx : Int) : Program Sem World Registers Observation :=
  if 0 ≤ idx then
    .newThread fun
      | some newThread => enterNewThread space f arg fExit k idx newThread
      | none => noNewThread k
  else .semV .threadLock <| k (-1)

/-- `do_ThreadCreate` after it has acquired the lock. -/
def findStack : Program Sem World Registers Observation :=
  update (fun _ world => ({ world with table := world.table.findStack.2 }, world.table.findStack.1))
    (createWithStack space f arg fExit k)

/-- `do_ThreadCreate`. -/
def doThreadCreate : Program Sem World Registers Observation :=
  .semP .threadLock <| findStack space f arg fExit k

end Create

/-- The end of `do_ThreadExit`, which reads the counter without the lock. -/
def finishOrHalt : Program Sem World Registers Observation :=
  .act (fun _ world r => (world, r, [])) fun _ world _ =>
    if 0 ≤ world.table.gThreadsIdx then .finish else .halt

/-- `do_ThreadExit` after it has acquired the lock. -/
def leaveTable : Program Sem World Registers Observation :=
  .act (fun t world r => ({ world with table := (world.table.leave t).getD world.table }, r, [.exited]))
    fun t world _ =>
      if (world.table.leave t).isSome then .semV .threadLock finishOrHalt else .abort

/-- `do_ThreadExit`. -/
def doThreadExit : Program Sem World Registers Observation := .semP .threadLock leaveTable

end Nachos

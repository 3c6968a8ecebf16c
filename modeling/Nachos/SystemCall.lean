import Nachos.StringCopy
import Nachos.SynchConsole

/-! System calls: `userprog/exception.cc` and the trap of `machine/machine.cc`. -/

namespace Nachos

section Machine

def numGPRegs : Nat := 32

/-- `Machine::DelayedLoad`. -/
def delayedLoad (nextReg nextValue : Word) (r : Registers) : Registers :=
  let loaded := if h : (r loadReg).toNat < numTotalRegs then
      writeRegister r ⟨(r loadReg).toNat, h⟩ (r loadValueReg)
    else r
  writeRegister (writeRegister (writeRegister loaded loadReg nextReg) loadValueReg nextValue) 0 0

/-- The registers when `Machine::RaiseException` calls the exception handler. -/
def raiseException (badVAddr : Word) (r : Registers) : Registers :=
  delayedLoad 0 0 (writeRegister r badVAddrReg badVAddr)

/-- `UpdatePC`. -/
def updatePC (r : Registers) : Registers :=
  let r := writeRegister r prevPCReg (r pcReg)
  let r := writeRegister r pcReg (r nextPCReg)
  writeRegister r nextPCReg (r pcReg + 4)

/-- How `Machine::OneInstruction` advances the program counters when the instruction is no branch. -/
def advancePC (r : Registers) : Registers :=
  let pcAfter := r nextPCReg + 4
  let r := writeRegister r prevPCReg (r pcReg)
  let r := writeRegister r pcReg (r nextPCReg)
  writeRegister r nextPCReg pcAfter

end Machine

/-- What `snprintf` makes of the format `"%d"`. -/
def decimal (value : Word) : List Byte :=
  (((toString value.toInt).toList.map fun c => BitVec.ofNat 8 c.toNat)).take (maxStringSize - 1)

/-- The result of a system call, if there is one, goes to register 2. -/
def writeResult (result : Option Word) (r : Registers) : Registers :=
  match result with
  | some value => writeRegister r 2 value
  | none => r

/-- The end of a system call; the machine ticks after the instruction. -/
def returnToUser (result : Option Word) : Program Sem World Registers Observation :=
  .act (fun _ world r =>
      (world, updatePC (writeResult result r), [.resumed (updatePC (writeResult result r))]))
    fun _ _ _ => .tick .ret

/-- The end of `SC_GetString`: the string is copied to the address. -/
def storeString (space : AddrSpace) (address : Word) (string : List Byte) :
    Program Sem World Registers Observation :=
  update (fun _ world =>
      match copyStringToMachine space (string ++ [0]) address maxStringSize world.memory with
      | some memory => ({ world with memory := memory }, true)
      | none => (world, false))
    fun stored => if stored then returnToUser none else .abort

/-- `ExceptionHandler` for a system call, with the registers at its beginning. `sscanf` is the value
that the format `"%d"` leaves in the variable `n`; `fresh` is what `copyStringFromMachine` finds in the
buffers that it allocates. -/
def exceptionHandler (space : AddrSpace) (sscanf : List Byte → Word) (fresh : Nat → Nat → Byte)
    (memory : Nat → Byte) (r : Registers) : Program Sem World Registers Observation :=
  match (r 2).toNat with
  | 0 => .halt
  | 11 => synchPutChar (returnToUser none) (r 4)
  | 12 =>
      match copyStringFromMachine fresh space memory (r 4) (BitVec.ofNat 32 maxStringSize) with
      | some copy => synchPutString (returnToUser none) copy.cString
      | none => .abort
  | 1 => .halt
  | 13 => synchGetChar fun c => returnToUser (some ((c.setWidth 8).signExtend 32))
  | 14 => synchGetString (storeString space (r 4)) maxStringSize
  | 15 => synchPutString (returnToUser none) (decimal (r 4))
  | 16 => synchGetString (fun string => returnToUser (some (sscanf string))) maxStringSize
  | 17 => doThreadCreate space (r 4) (r 5) (r 6) fun result => returnToUser (some result)
  | 18 => doThreadExit
  | _ => .abort

/-- What a user program does next. -/
inductive UserCall where
  /-- Instructions that change registers and memory, up to a tick. The delayed load that an interrupt in
  user mode completes is a change of registers, too. A delayed load goes to a general register. -/
  | compute (registers : Registers) (memory : Nat → Byte) (general : (registers loadReg).toNat < numGPRegs)
  /-- The instruction `syscall`, with what `sscanf` will find in the strings of the call and with the
  contents of the buffers that the call allocates. -/
  | syscall (sscanf : List Byte → Word) (fresh : Nat → Nat → Byte)

/-- `Machine::RaiseException` for a system call. -/
def trapSyscall (space : AddrSpace) (sscanf : List Byte → Word) (fresh : Nat → Nat → Byte) :
    Program Sem World Registers Observation :=
  .act (fun _ world r => (world, raiseException 0 r, [.trapped r])) fun _ world r =>
    exceptionHandler space sscanf fresh world.memory (raiseException 0 r)

/-- A user program in its address space, on a machine with a console. What its threads compute between
two system calls is left open. -/
def userSystem (space : AddrSpace) (utf8 : Bool) (input : List Byte) (memory : Nat → Byte)
    (garbage : Nat → Word) : ThreadSystem Sem UserCall ConsoleInterrupt World Registers Observation where
  menu
    | .compute registers memory _ =>
        .act (fun _ world _ => ({ world with memory := memory }, registers, [])) fun _ _ _ => .tick .ret
    | .syscall sscanf fresh => trapSyscall space sscanf fresh
  handler := consoleHandler
  initialValue
    | .readAvail => 0
    | .writeDone => 0
    | .readLock => 1
    | .writeLock => 1
    | .threadLock => 1
  initialShared := ⟨.new utf8 input, .new garbage, memory⟩
  initialPrivate := space.initRegisters
  construct := constructRegisters
  main := 1

/-- A user program in a small address space. -/
def smallSystem : ThreadSystem Sem UserCall ConsoleInterrupt World Registers Observation :=
  userSystem smallSpace false [] (fun _ => 0) fun _ => 0

end Nachos

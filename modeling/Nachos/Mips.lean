import Nachos.SystemCall
import Nachos.Translate

/-! The processor of the simulated machine: `Instruction::Decode`, `Mult` and `Machine::OneInstruction` of
`machine/mipssim.cc`. The arithmetic of `int` is that of two's complement, as on the hosts of the simulator. -/

namespace Nachos

/-- The operation codes that `Decode` produces. -/
inductive OpCode where
  | add | addi | addiu | addu | and | andi | beq | bgez | bgezal | bgtz | blez | bltz | bltzal | bne
  | div | divu | j | jal | jalr | jr | lb | lbu | lh | lhu | lui | lw | lwl | lwr
  | mfhi | mflo | mthi | mtlo | mult | multu | nor | or | ori | sb | sh | sll | sllv | slt | slti | sltiu | sltu
  | sra | srav | srl | srlv | sub | subu | sw | swl | swr | xor | xori | syscall | unimp | res
  deriving DecidableEq

inductive Format where
  | iFmt
  | jFmt
  | rFmt
  deriving DecidableEq

/-- An entry of `opTable`: an operation code, or a value for further decoding. -/
inductive OpInfo where
  | op (code : OpCode) (format : Format)
  | special
  | bcond

open OpCode Format in
def opTable : List OpInfo :=
  [.special, .bcond, .op j jFmt, .op jal jFmt, .op beq iFmt, .op bne iFmt, .op blez iFmt, .op bgtz iFmt,
    .op addi iFmt, .op addiu iFmt, .op slti iFmt, .op sltiu iFmt, .op andi iFmt, .op ori iFmt, .op xori iFmt,
    .op lui iFmt, .op unimp iFmt, .op unimp iFmt, .op unimp iFmt, .op unimp iFmt, .op res iFmt, .op res iFmt,
    .op res iFmt, .op res iFmt, .op res iFmt, .op res iFmt, .op res iFmt, .op res iFmt, .op res iFmt, .op res iFmt,
    .op res iFmt, .op res iFmt, .op lb iFmt, .op lh iFmt, .op lwl iFmt, .op lw iFmt, .op lbu iFmt, .op lhu iFmt,
    .op lwr iFmt, .op res iFmt, .op sb iFmt, .op sh iFmt, .op swl iFmt, .op sw iFmt, .op res iFmt, .op res iFmt,
    .op swr iFmt, .op res iFmt, .op unimp iFmt, .op unimp iFmt, .op unimp iFmt, .op unimp iFmt, .op res iFmt,
    .op res iFmt, .op res iFmt, .op res iFmt, .op unimp iFmt, .op unimp iFmt, .op unimp iFmt, .op unimp iFmt,
    .op res iFmt, .op res iFmt, .op res iFmt, .op res iFmt]

def specialTable : List OpCode :=
  [.sll, .res, .srl, .sra, .sllv, .res, .srlv, .srav, .jr, .jalr, .res, .res, .syscall, .unimp, .res, .res,
    .mfhi, .mthi, .mflo, .mtlo, .res, .res, .res, .res, .mult, .multu, .div, .divu, .res, .res, .res, .res,
    .add, .addu, .sub, .subu, .and, .or, .xor, .nor, .res, .res, .slt, .sltu, .res, .res, .res, .res, .res,
    .res, .res, .res, .res, .res, .res, .res, .res, .res, .res, .res, .res, .res, .res, .res]

structure Instruction where
  opCode : OpCode
  rs : BitVec 5
  rt : BitVec 5
  rd : BitVec 5
  extra : Word
  deriving DecidableEq

namespace Instruction

/-- The immediate, target or shift amount. -/
def decodeExtra (value : Word) : Format → Word
  | .iFmt => let extra := value &&& 0xffff
      if extra &&& 0x8000 ≠ 0 then extra ||| 0xffff0000 else extra
  | .rFmt => (value >>> 6) &&& 0x1f
  | .jFmt => value &&& 0x3ffffff

/-- The second decoding of a conditional branch. -/
def decodeBranch (value : Word) : OpCode :=
  let i := value &&& 0x1f0000
  if i = 0 then .bltz
  else if i = 0x10000 then .bgez
  else if i = 0x100000 then .bltzal
  else if i = 0x110000 then .bgezal
  else .unimp

/-- `Instruction::Decode`. -/
def decode (value : Word) : Instruction :=
  let decoded := fun opCode format => (⟨opCode, (value >>> 21).setWidth 5, (value >>> 16).setWidth 5,
    (value >>> 11).setWidth 5, decodeExtra value format⟩ : Instruction)
  match opTable.get (((value >>> 26).setWidth 6 : BitVec 6).toFin : Fin 64) with
  | .op code format => decoded code format
  | .special => decoded (specialTable.get ((value.setWidth 6 : BitVec 6).toFin : Fin 64)) .rFmt
  | .bcond => decoded (decodeBranch value) .iFmt

end Instruction

def signBit : Word := 0x80000000

/-- `IndexToAddr`. -/
def indexToAddr (x : Word) : Word := x <<< 2

/-- The loop of `Mult` with so many rounds left; the result has the high word first. -/
def multLoop : Nat → Word → Word → Word → Word → Word → Word × Word
  | 0, _, _, _, hi, lo => (hi, lo)
  | n + 1, a, bHi, bLo, hi, lo =>
      let odd := a &&& 1 ≠ 0
      let lo' := if odd then lo + bLo else lo
      let hi' := if odd then (if lo' < bLo then hi + 1 else hi) + bHi else hi
      if odd ∧ a &&& 0xfffffffe = 0 then (hi', lo')
      else
        multLoop n (a.sshiftRight 1) (if bLo &&& 0x80000000 ≠ 0 then (bHi <<< 1) ||| 1 else bHi <<< 1) (bLo <<< 1)
          hi' lo'

/-- `Mult`. -/
def mult (a b : Word) (signedArith : Bool) : Word × Word :=
  if a = 0 ∨ b = 0 then (0, 0)
  else
    let negative := (signedArith && a.slt 0) ^^ (signedArith && b.slt 0)
    let a' := if signedArith && a.slt 0 then -a else a
    let b' := if signedArith && b.slt 0 then -b else b
    let (hi, lo) := multLoop 32 a' 0 b' 0 0
    if negative then (if ~~~lo + 1 = 0 then ~~~hi + 1 else ~~~hi, ~~~lo + 1) else (hi, lo)

/-- A general register as an index of the register file. -/
def general (x : BitVec 5) : Fin numTotalRegs := ⟨x.toNat, Nat.lt_of_lt_of_le x.isLt (by decide)⟩

def hiReg : Fin numTotalRegs := 32
def loReg : Fin numTotalRegs := 33

/-- Where `OneInstruction` is after its switch: the machine, `pcAfter`, `nextLoadReg` and `nextLoadValue`. -/
structure Progress where
  machine : Machine
  pcAfter : Word
  nextLoadReg : BitVec 5
  nextLoadValue : Word

/-- How the switch of `OneInstruction` ends: it is left, `RaiseException` is called, or the host takes a trap
because it is asked for a quotient that is no `int`. -/
inductive Executed where
  | completed (p : Progress)
  | raised (which : ExceptionType) (badVAddr : Word) (m : Machine)
  | hostTrap

namespace Machine

def write (m : Machine) (num : Fin numTotalRegs) (value : Word) : Machine :=
  { m with registers := writeRegister m.registers num value }

/-- The switch is left with no branch and no load. -/
def proceed (m : Machine) : Executed := .completed ⟨m, m.registers nextPCReg + 4, 0, 0⟩

/-- The result of an operation goes to a general register. -/
def assign (m : Machine) (dest : BitVec 5) (value : Word) : Executed := (m.write (general dest) value).proceed

/-- A jump. -/
def jump (m : Machine) (pcAfter : Word) : Executed := .completed ⟨m, pcAfter, 0, 0⟩

/-- A conditional branch. -/
def branch (m : Machine) (taken : Bool) (extra : Word) : Executed :=
  m.jump (m.registers nextPCReg + if taken then indexToAddr extra else 4)

/-- The return address is saved. -/
def link (m : Machine) (dest : BitVec 5) : Machine := m.write (general dest) (m.registers nextPCReg + 4)

/-- A value is read for a load. -/
def load (m : Machine) (addr : Word) (size : Size) (dest : BitVec 5) (loaded : Word → Word) : Executed :=
  match m.readMem addr size with
  | .error e => .raised e addr m
  | .ok (value, m) => .completed ⟨m, m.registers nextPCReg + 4, dest, loaded value⟩

/-- A load that checks the alignment of its address. -/
def loadAligned (m : Machine) (addr mask : Word) (size : Size) (dest : BitVec 5) (loaded : Word → Word) : Executed :=
  if addr &&& mask ≠ 0 then .raised .addressErrorException addr m else m.load addr size dest loaded

/-- What `LWL` and `LWR` merge the word into: their target, with the load that is pending for it. -/
def pendingValue (m : Machine) (rt : BitVec 5) : Word :=
  if m.registers loadReg = rt.setWidth 32 then m.registers loadValueReg else m.registers (general rt)

/-- A value is written by a store. -/
def store (m : Machine) (addr : Word) (size : Size) (value : Word) : Executed :=
  match m.writeMem addr size value with
  | .error e => .raised e addr m
  | .ok m => m.proceed

/-- A store of a part of a word: the word is read, changed and written. -/
def storePart (m : Machine) (addr : Word) (merged : Word → Word) : Executed :=
  match m.readMem addr .word with
  | .error e => .raised e addr m
  | .ok (value, m) => m.store addr .word (merged value)

end Machine

/-- The word that `LWR` loads: `value` merged into the target. -/
def mergeRight (tmp target value : Word) : Word :=
  match (tmp &&& 3).toNat with
  | 0 => value
  | 1 => (target &&& 0xff000000) ||| (value.sshiftRight 8 &&& 0xffffff)
  | 2 => (target &&& 0xffff0000) ||| (value.sshiftRight 16 &&& 0xffff)
  | _ => (target &&& 0xffffff00) ||| (value.sshiftRight 24 &&& 0xff)

/-- The word that `LWL` loads. -/
def mergeLeft (tmp target value : Word) : Word :=
  match (tmp &&& 3).toNat with
  | 0 => (target &&& 0xff) ||| (value <<< 8)
  | 1 => (target &&& 0xffff) ||| (value <<< 16)
  | 2 => (target &&& 0xffffff) ||| (value <<< 24)
  | _ => value

/-- The word that `SWR` stores: the register merged into `value`. -/
def splitRight (tmp register value : Word) : Word :=
  match (tmp &&& 3).toNat with
  | 0 => register
  | 1 => (value &&& 0xff) ||| (register <<< 8)
  | 2 => (value &&& 0xffff) ||| (register <<< 16)
  | _ => (value &&& 0xffffff) ||| (register <<< 24)

/-- The word that `SWL` stores. -/
def splitLeft (tmp register value : Word) : Word :=
  match (tmp &&& 3).toNat with
  | 0 => (value &&& 0xffffff00) ||| (register.sshiftRight 24 &&& 0xff)
  | 1 => (value &&& 0xffff0000) ||| (register.sshiftRight 16 &&& 0xffff)
  | 2 => (value &&& 0xff000000) ||| (register.sshiftRight 8 &&& 0xffffff)
  | _ => register

/-- The switch of `Machine::OneInstruction`. -/
def Instruction.execute (i : Instruction) (m : Machine) : Executed :=
  let rs := m.registers (general i.rs)
  let rt := m.registers (general i.rt)
  let shift := (rs &&& 0x1f).toNat
  let tmp := rs + i.extra
  match i.opCode with
  | .add =>
      let sum := rs + rt
      if (rs ^^^ rt) &&& signBit = 0 ∧ (rs ^^^ sum) &&& signBit ≠ 0 then .raised .overflowException 0 m
      else m.assign i.rd sum
  | .addi =>
      let sum := rs + i.extra
      if (rs ^^^ i.extra) &&& signBit = 0 ∧ (i.extra ^^^ sum) &&& signBit ≠ 0 then .raised .overflowException 0 m
      else m.assign i.rt sum
  | .addiu => m.assign i.rt (rs + i.extra)
  | .addu => m.assign i.rd (rs + rt)
  | .and => m.assign i.rd (rs &&& rt)
  | .andi => m.assign i.rt (rs &&& (i.extra &&& 0xffff))
  | .beq => m.branch (rs == rt) i.extra
  | .bgezal =>
      -- The test comes after the return address is saved, which may be in the register that is tested.
      let m := m.link 31
      m.branch (m.registers (general i.rs) &&& signBit == 0) i.extra
  | .bgez => m.branch (rs &&& signBit == 0) i.extra
  | .bgtz => m.branch ((0 : Word).slt rs) i.extra
  | .blez => m.branch (rs.sle 0) i.extra
  | .bltzal =>
      let m := m.link 31
      m.branch (m.registers (general i.rs) &&& signBit != 0) i.extra
  | .bltz => m.branch (rs &&& signBit != 0) i.extra
  | .bne => m.branch (rs != rt) i.extra
  | .div =>
      if rt = 0 then ((m.write loReg 0).write hiReg 0).proceed
      else if rs = signBit ∧ rt = -1 then .hostTrap
      else ((m.write loReg (rs.sdiv rt)).write hiReg (rs.srem rt)).proceed
  | .divu =>
      if rt = 0 then ((m.write loReg 0).write hiReg 0).proceed
      else ((m.write loReg (rs / rt)).write hiReg (rs % rt)).proceed
  | .jal =>
      let pcAfter := m.registers nextPCReg + 4
      (m.link 31).jump ((pcAfter &&& 0xf0000000) ||| indexToAddr i.extra)
  | .j =>
      let pcAfter := m.registers nextPCReg + 4
      m.jump ((pcAfter &&& 0xf0000000) ||| indexToAddr i.extra)
  | .jalr =>
      let m := m.link i.rd
      m.jump (m.registers (general i.rs))
  | .jr => m.jump rs
  | .lb => m.load tmp .byte i.rt fun value => if value &&& 0x80 ≠ 0 then value ||| 0xffffff00 else value &&& 0xff
  | .lbu => m.load tmp .byte i.rt fun value => value &&& 0xff
  | .lh =>
      m.loadAligned tmp 1 .half i.rt fun value =>
        if value &&& 0x8000 ≠ 0 then value ||| 0xffff0000 else value &&& 0xffff
  | .lhu => m.loadAligned tmp 1 .half i.rt fun value => value &&& 0xffff
  | .lui => m.assign i.rt (i.extra <<< 16)
  | .lw => m.loadAligned tmp 3 .word i.rt id
  | .lwr => m.load (tmp &&& ~~~3) .word i.rt (mergeRight tmp (m.pendingValue i.rt))
  | .lwl => m.load (tmp &&& ~~~3) .word i.rt (mergeLeft tmp (m.pendingValue i.rt))
  | .mfhi => m.assign i.rd (m.registers hiReg)
  | .mflo => m.assign i.rd (m.registers loReg)
  | .mthi => (m.write hiReg rs).proceed
  | .mtlo => (m.write loReg rs).proceed
  | .mult => ((m.write hiReg (mult rs rt true).1).write loReg (mult rs rt true).2).proceed
  | .multu => ((m.write hiReg (mult rs rt false).1).write loReg (mult rs rt false).2).proceed
  | .nor => m.assign i.rd (~~~(rs ||| rt))
  | .or => m.assign i.rd (rs ||| rt)
  | .ori => m.assign i.rt (rs ||| (i.extra &&& 0xffff))
  | .sb => m.store tmp .byte rt
  | .sh => m.store tmp .half rt
  | .sll => m.assign i.rd (rt <<< i.extra.toNat)
  | .sllv => m.assign i.rd (rt <<< shift)
  | .slt => m.assign i.rd (if rs.slt rt then 1 else 0)
  | .slti => m.assign i.rt (if rs.slt i.extra then 1 else 0)
  | .sltiu => m.assign i.rt (if rs.ult i.extra then 1 else 0)
  | .sltu => m.assign i.rd (if rs.ult rt then 1 else 0)
  | .sra => m.assign i.rd (rt.sshiftRight i.extra.toNat)
  | .srav => m.assign i.rd (rt.sshiftRight shift)
  | .srl => m.assign i.rd (rt >>> i.extra.toNat)
  | .srlv => m.assign i.rd (rt >>> shift)
  | .sub =>
      let diff := rs - rt
      if (rs ^^^ rt) &&& signBit ≠ 0 ∧ (rs ^^^ diff) &&& signBit ≠ 0 then .raised .overflowException 0 m
      else m.assign i.rd diff
  | .subu => m.assign i.rd (rs - rt)
  | .sw => m.store tmp .word rt
  | .swr => m.storePart (tmp &&& ~~~3) (splitRight tmp rt)
  | .swl => m.storePart (tmp &&& ~~~3) (splitLeft tmp rt)
  | .syscall => .raised .syscallException 0 m
  | .xor => m.assign i.rd (rs ^^^ rt)
  | .xori => m.assign i.rt (rs ^^^ (i.extra &&& 0xffff))
  | .res => .raised .illegalInstrException 0 m
  | .unimp => .raised .illegalInstrException 0 m

/-- How `OneInstruction` goes on: it returns, or `RaiseException` calls the exception handler, which finds this
machine. -/
inductive Outcome where
  | completed (m : Machine)
  | exception (which : ExceptionType) (m : Machine)
  | hostTrap

namespace Machine

/-- `Machine::DelayedLoad`. -/
def delayedLoad (nextReg nextValue : Word) (m : Machine) : Machine :=
  { m with registers := Nachos.delayedLoad nextReg nextValue m.registers }

/-- `Machine::RaiseException`, up to the call of the exception handler. -/
def raiseException (badVAddr : Word) (m : Machine) : Machine :=
  { m with registers := Nachos.raiseException badVAddr m.registers }

/-- The program counters are advanced. -/
def advance (pcAfter : Word) (m : Machine) : Machine :=
  let m := m.write prevPCReg (m.registers pcReg)
  let m := m.write pcReg (m.registers nextPCReg)
  m.write nextPCReg pcAfter

/-- The end of `OneInstruction`. -/
def finish : Executed → Outcome
  | .completed p =>
      .completed ((p.machine.delayedLoad (p.nextLoadReg.setWidth 32) p.nextLoadValue).advance p.pcAfter)
  | .raised which badVAddr m => .exception which (m.raiseException badVAddr)
  | .hostTrap => .hostTrap

/-- `Machine::OneInstruction`. -/
def oneInstruction (m : Machine) : Outcome :=
  let pc := m.registers pcReg
  match m.readMem pc .word with
  | .error e => .exception e (m.raiseException pc)
  | .ok (raw, m) => finish ((Instruction.decode raw).execute m)

end Machine

end Nachos

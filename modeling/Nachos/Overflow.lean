import Nachos.Multiply
import Nachos.PreciseExceptions

/-! Sums and differences on the simulated processor: `ADD`, `ADDI` and `SUB` find an overflow by the signs of the
operands and of the wrapped result, `ADDU`, `ADDIU` and `SUBU` do not look for it. -/

namespace Nachos

section Signs

theorem signBit_eq_zero_iff (x : Word) : x &&& signBit = 0 ↔ x.msb = false := by
  have hbit := not_congr (signBit_iff x)
  have hmsb := BitVec.msb_eq_decide x
  rw [not_not] at hbit
  unfold signBit
  rw [hbit, hmsb, decide_eq_false_iff_not]

/-- The test of the signs of two operands. -/
theorem sameSign_iff (x y : Word) : (x ^^^ y) &&& signBit = 0 ↔ (x.toInt < 0 ↔ y.toInt < 0) := by
  rw [signBit_eq_zero_iff, BitVec.msb_xor, BitVec.msb_eq_toInt, BitVec.msb_eq_toInt]
  by_cases hx : x.toInt < 0 <;> by_cases hy : y.toInt < 0 <;> simp [hx, hy]

theorem toInt_range (x : Word) : -2 ^ 31 ≤ x.toInt ∧ x.toInt < 2 ^ 31 := ⟨BitVec.le_toInt x, BitVec.toInt_lt⟩

/-- A value that has left the range of an `int` by less than its width. -/
theorem bmod_wrapped {z : Int} (hlower : -2 ^ 32 ≤ z) (hupper : z < 2 ^ 32) : z.bmod (2 ^ 32) =
    if z < -2 ^ 31 then z + 2 ^ 32 else if z < 2 ^ 31 then z else z - 2 ^ 32 := by
  rw [Int.bmod_def]
  split_ifs <;> omega

/-- The integer is an `int`. -/
def InRange (z : Int) : Prop := -2 ^ 31 ≤ z ∧ z < 2 ^ 31

instance (z : Int) : Decidable (InRange z) := inferInstanceAs (Decidable (_ ∧ _))

theorem toInt_ofInt {z : Int} (h : InRange z) : (BitVec.ofInt 32 z).toInt = z := by
  obtain ⟨hlower, hupper⟩ := h
  rw [BitVec.toInt_ofInt, Int.bmod_eq_of_le] <;> omega

/-- Two operands of one sign whose sum has the other. -/
theorem add_overflow_iff (x y : Word) :
    ((x ^^^ y) &&& signBit = 0 ∧ (x ^^^ (x + y)) &&& signBit ≠ 0) ↔ ¬InRange (x.toInt + y.toInt) := by
  have hx := toInt_range x
  have hy := toInt_range y
  have hsum : (x + y).toInt = (x.toInt + y.toInt).bmod (2 ^ 32) := BitVec.toInt_add x y
  rw [bmod_wrapped (by omega) (by omega)] at hsum
  rw [Ne, sameSign_iff, sameSign_iff]
  unfold InRange
  split_ifs at hsum <;> omega

/-- Operands of different signs whose difference has the sign of the second. -/
theorem sub_overflow_iff (x y : Word) :
    ((x ^^^ y) &&& signBit ≠ 0 ∧ (x ^^^ (x - y)) &&& signBit ≠ 0) ↔ ¬InRange (x.toInt - y.toInt) := by
  have hx := toInt_range x
  have hy := toInt_range y
  have hdiff : (x - y).toInt = (x.toInt - y.toInt).bmod (2 ^ 32) := BitVec.toInt_sub
  rw [bmod_wrapped (by omega) (by omega)] at hdiff
  rw [Ne, Ne, sameSign_iff, sameSign_iff]
  unfold InRange
  split_ifs at hdiff <;> omega

end Signs

namespace Instruction

section Immediate

variable {raw : Word}

/-- `Decode` extends the sign of an immediate. -/
theorem decodeExtra_immediate (raw : Word) : decodeExtra raw .iFmt = (raw.setWidth 16 : BitVec 16).signExtend 32 := by
  have hsign : (raw &&& 0xffff) &&& (0x8000 : Word) ≠ 0 ↔ raw.getLsbD 15 = true := by
    have hmask : (raw &&& 0xffff) &&& (0x8000 : Word) = raw &&& BitVec.twoPow 32 15 := by
      rw [BitVec.and_assoc]
      rfl
    rw [hmask, BitVec.and_twoPow]
    split_ifs with hbit
    · exact iff_of_true (by decide) hbit
    · exact iff_of_false (fun h => h rfl) hbit
  have hmsb : (raw.setWidth 16 : BitVec 16).msb = raw.getLsbD 15 := by
    rw [BitVec.msb_eq_getLsbD_last, BitVec.getLsbD_setWidth]
    rfl
  unfold decodeExtra
  dsimp only
  apply BitVec.eq_of_getLsbD_eq
  intro i hi
  by_cases hbit : raw.getLsbD 15 = true
  · rw [if_pos (hsign.mpr hbit)]
    rw [BitVec.getLsbD_or, BitVec.getLsbD_and, BitVec.getLsbD_signExtend, BitVec.getLsbD_setWidth, hmsb, hbit]
    interval_cases i <;> simp
  · rw [if_neg fun h => hbit (hsign.mp h)]
    rw [BitVec.getLsbD_and, BitVec.getLsbD_signExtend, BitVec.getLsbD_setWidth, hmsb, Bool.eq_false_iff.mpr hbit]
    interval_cases i <;> simp

/-- The instructions with an immediate that are looked at here are decoded with it. -/
theorem decode_immediate (h : (decode raw).opCode = .addi ∨ (decode raw).opCode = .addiu) :
    (decode raw).extra = (raw.setWidth 16 : BitVec 16).signExtend 32 := by
  rw [← decodeExtra_immediate]
  unfold decode at h ⊢
  dsimp only at h ⊢
  have hmem := List.get_mem opTable (((raw >>> 26).setWidth 6 : BitVec 6).toFin : Fin 64)
  cases hinfo : opTable.get (((raw >>> 26).setWidth 6 : BitVec 6).toFin : Fin 64) with
  | op code format =>
      rw [hinfo] at h hmem
      dsimp only at h ⊢
      have hformat : format = .iFmt := by
        rcases h with rfl | rfl <;> simpa [opTable] using hmem
      rw [hformat]
  | special =>
      rw [hinfo] at h
      dsimp only at h
      have hspecial := List.get_mem specialTable ((raw.setWidth 6 : BitVec 6).toFin : Fin 64)
      rcases h with h | h
      · rw [h] at hspecial
        exact absurd hspecial (by decide)
      · rw [h] at hspecial
        exact absurd hspecial (by decide)
  | bcond => rfl

end Immediate

end Instruction

namespace Instruction

/-- The target of a sum or a difference. -/
def sumTarget (i : Instruction) : BitVec 5 := if i.opCode = .addi ∨ i.opCode = .addiu then i.rt else i.rd

end Instruction

/-- The exact sum or difference of the operands of an instruction word; an immediate has 16 bits and a sign. -/
def exactResult (raw : Word) (r : Registers) : Int :=
  let i := Instruction.decode raw
  if i.opCode = .addi ∨ i.opCode = .addiu then (r (general i.rs)).toInt + (raw.setWidth 16 : BitVec 16).toInt
  else if i.opCode = .sub ∨ i.opCode = .subu then (r (general i.rs)).toInt - (r (general i.rt)).toInt
  else (r (general i.rs)).toInt + (r (general i.rt)).toInt

section Execute

variable {n : Machine} {raw : Word}

theorem ofInt_add_toInt (x y : Word) : BitVec.ofInt 32 (x.toInt + y.toInt) = x + y := by
  rw [BitVec.ofInt_add, BitVec.ofInt_toInt, BitVec.ofInt_toInt]

theorem ofInt_sub_toInt (x y : Word) : BitVec.ofInt 32 (x.toInt - y.toInt) = x - y := by
  rw [Int.sub_eq_add_neg, BitVec.ofInt_add, BitVec.ofInt_neg, BitVec.ofInt_toInt, BitVec.ofInt_toInt,
    BitVec.sub_eq_add_neg]

theorem toInt_immediate (raw : Word) :
    ((raw.setWidth 16 : BitVec 16).signExtend 32).toInt = (raw.setWidth 16 : BitVec 16).toInt :=
  BitVec.toInt_signExtend_of_le (by decide)

/-- `ADDU`, `ADDIU` and `SUBU`. -/
theorem execute_wrapping (hop : (Instruction.decode raw).opCode ∈ [OpCode.addu, .addiu, .subu]) :
    (Instruction.decode raw).execute n =
      n.assign (Instruction.decode raw).sumTarget (BitVec.ofInt 32 (exactResult raw n.registers)) := by
  simp only [List.mem_cons, List.not_mem_nil, or_false] at hop
  unfold Instruction.execute Instruction.sumTarget exactResult
  rcases hop with hop | hop | hop
  · simp only [hop, reduceCtorEq, or_self, if_false, ofInt_add_toInt]
  · have himmediate := Instruction.decode_immediate (.inr hop)
    simp only [hop, or_true, if_true, ← toInt_immediate, ofInt_add_toInt, himmediate]
  · simp only [hop, reduceCtorEq, or_self, or_true, if_true, if_false, ofInt_sub_toInt]

/-- `ADD`, `ADDI` and `SUB`. -/
theorem execute_trapping (hop : (Instruction.decode raw).opCode ∈ [OpCode.add, .addi, .sub]) :
    (Instruction.decode raw).execute n = if InRange (exactResult raw n.registers) then
        n.assign (Instruction.decode raw).sumTarget (BitVec.ofInt 32 (exactResult raw n.registers))
      else .raised .overflowException 0 n := by
  simp only [List.mem_cons, List.not_mem_nil, or_false] at hop
  unfold Instruction.execute Instruction.sumTarget exactResult
  rcases hop with hop | hop | hop
  · simp only [hop, reduceCtorEq, or_self, if_false, ofInt_add_toInt, add_overflow_iff, ite_not]
  · have himmediate := Instruction.decode_immediate (.inl hop)
    simp only [hop, true_or, if_true, ← toInt_immediate, ofInt_add_toInt, himmediate]
    rw [BitVec.xor_comm, BitVec.add_comm]
    simp only [add_overflow_iff, ite_not]
    rw [Int.add_comm]
  · simp only [hop, reduceCtorEq, or_self, true_or, if_true, if_false, ofInt_sub_toInt, sub_overflow_iff, ite_not]

end Execute

namespace Machine

variable {m n : Machine} {raw : Word} {dest : BitVec 5}

/-- The result of an operation, in its target when the instruction ends. -/
theorem finish_assign (hproper : ProperRegisters m.registers) (hfree : m.Free dest) (value : Word) :
    ∃ m', finish (m.assign dest value) = .completed m' ∧
      m'.registers (general dest) = if dest = 0 then 0 else value := by
  refine ⟨_, rfl, ?_⟩
  have hload : (writeRegister m.registers (general dest) value) loadReg = m.registers loadReg :=
    Function.update_of_ne (general_ne dest (by decide)).symm _ _
  have hgeneral : LoadsGeneral (writeRegister m.registers (general dest) value) := by
    unfold LoadsGeneral
    rw [hload]
    exact hproper.general
  rw [advance_general]
  change Nachos.delayedLoad 0 0 (writeRegister m.registers (general dest) value) (general dest) = _
  rw [delayedLoad_apply hgeneral, if_neg (general_ne dest (y := loadValueReg) (by decide)),
    if_neg (general_ne dest (y := loadReg) (by decide)), hload]
  simp only [general_eq_zero]
  split_ifs with hzero htarget
  · rfl
  · rcases free_general hfree with hnone | hne
    · rw [hnone] at htarget
      exact absurd (general_eq_zero.mp (Fin.ext htarget)) hzero
    · exact absurd htarget hne
  · exact Function.update_self _ _ _

/-- The target keeps its value when the sum or difference raises an exception. -/
theorem raised_target (hproper : ProperRegisters m.registers) (hfree : m.Free dest) (badVAddr : Word) :
    Nachos.raiseException badVAddr m.registers (general dest) = m.registers (general dest) := by
  rw [raiseException_general hproper.general]
  split_ifs with hzero htarget
  · rw [hzero]
    exact hproper.zero.symm
  · rcases free_general hfree with hnone | hne
    · have hval := eq_target.mpr htarget
      rw [hnone] at hval
      exact absurd (general_eq_zero.mp (Fin.ext hval)) hzero
    · exact absurd (eq_target.mpr htarget) hne
  · rfl

/-- `ADD`, `ADDI` and `SUB` raise an exception exactly when the exact result is no `int`, and the target keeps its
value; otherwise, and for `ADDU`, `ADDIU` and `SUBU` always, the result is in the target. -/
theorem sums_exact (m n : Machine) (raw : Word) (hproper : ProperRegisters m.registers)
    (hfetch : m.readMem (m.registers pcReg) .word = .ok (raw, n))
    (hfree : m.Free (Instruction.decode raw).sumTarget) :
    ((Instruction.decode raw).opCode ∈ [OpCode.add, .addi, .sub] →
      ((∃ m', m.oneInstruction = .exception .overflowException m') ↔ ¬InRange (exactResult raw m.registers)) ∧
      (∀ m', m.oneInstruction = .exception .overflowException m' →
        m'.registers (general (Instruction.decode raw).sumTarget) =
          m.registers (general (Instruction.decode raw).sumTarget)) ∧
      (InRange (exactResult raw m.registers) → ∃ m', m.oneInstruction = .completed m' ∧
        (m'.registers (general (Instruction.decode raw).sumTarget)).toInt =
          if (Instruction.decode raw).sumTarget = 0 then 0 else exactResult raw m.registers)) ∧
    ((Instruction.decode raw).opCode ∈ [OpCode.addu, .addiu, .subu] → ∃ m', m.oneInstruction = .completed m' ∧
      m'.registers (general (Instruction.decode raw).sumTarget) =
        if (Instruction.decode raw).sumTarget = 0 then 0 else BitVec.ofInt 32 (exactResult raw m.registers)) := by
  have hsame := readMem_sameState hfetch
  have hone : m.oneInstruction = finish ((Instruction.decode raw).execute n) := by
    unfold oneInstruction
    simp only
    rw [hfetch]
  have hproper' : ProperRegisters n.registers := hsame.registers ▸ hproper
  have hfree' : n.Free (Instruction.decode raw).sumTarget := by
    unfold Free
    rw [hsame.registers]
    exact hfree
  rw [← hsame.registers]
  refine ⟨?_, ?_⟩
  · intro hop
    rw [hone, execute_trapping hop]
    by_cases hrange : InRange (exactResult raw n.registers)
    · rw [if_pos hrange]
      obtain ⟨m', hfinish, htarget⟩ := finish_assign hproper' hfree' (BitVec.ofInt 32 (exactResult raw n.registers))
      rw [hfinish]
      refine ⟨⟨?_, fun hout => absurd hrange hout⟩, nofun, fun _ => ⟨m', rfl, ?_⟩⟩
      · rintro ⟨m'', h⟩
        cases h
      · rw [htarget]
        split_ifs
        · rfl
        · exact toInt_ofInt hrange
    · rw [if_neg hrange]
      refine ⟨⟨fun _ => hrange, fun _ => ⟨_, rfl⟩⟩, ?_, fun h => absurd h hrange⟩
      rintro m' ⟨⟩
      exact raised_target hproper' hfree' 0
  · intro hop
    rw [hone, execute_wrapping hop]
    exact finish_assign hproper' hfree' _

/-- `ADDI` of -1 to the most negative value, with the value in the target. -/
def addingMachine : Machine where
  registers x := if x = 1 then 0x80000000 else if x = 2 then 7 else if x = nextPCReg then 4 else 0
  mainMemory := .ofList [0xff, 0xff, 0x22, 0x20] 0
  translation := .pageTable [⟨0, 0, true, false, false, false⟩]

theorem sums_exact_least : ∃ m', addingMachine.oneInstruction = .exception .overflowException m' ∧
    m'.registers 2 = 7 := by
  have hproper : ProperRegisters addingMachine.registers := ⟨rfl, loadsGeneral_of_zero rfl⟩
  obtain ⟨hiff, hkeeps, -⟩ := (sums_exact addingMachine _ 0x2022ffff hproper rfl (.inl rfl)).1 (by decide)
  obtain ⟨m', hone⟩ := hiff.mpr (by decide)
  exact ⟨m', hone, hkeeps m' hone⟩

end Machine

end Nachos

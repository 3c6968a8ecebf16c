import Nachos.LoadDelay
import Nachos.TranslationBuffer

/-! The exceptions of the simulated processor are precise: the exception handler finds the machine as it was before the
instruction, but for the load that was pending. -/

namespace Nachos

/-- The machines differ at most in the use and dirty bits. -/
structure Machine.SameState (m m' : Machine) : Prop where
  registers : m'.registers = m.registers
  mainMemory : m'.mainMemory = m.mainMemory
  mapping : m'.translation.mapping = m.translation.mapping

namespace Machine

variable {m m' n : Machine} {which : ExceptionType} {badVAddr addr value : Word} {size : Size}

theorem SameState.refl (m : Machine) : m.SameState m := ⟨rfl, rfl, rfl⟩

theorem SameState.trans (h : m.SameState m') (h' : m'.SameState n) : m.SameState n :=
  ⟨h'.registers.trans h.registers, h'.mainMemory.trans h.mainMemory, h'.mapping.trans h.mapping⟩

theorem readMem_sameState (h : m.readMem addr size = .ok (value, m')) : m.SameState m' := by
  obtain ⟨physAddr, t, htranslate, -, rfl⟩ := readMem_ok_iff.mp h
  exact ⟨rfl, rfl, Translation.translate_mapping htranslate⟩

/-- The instruction at the program counter. -/
def Fetches (m : Machine) (i : Instruction) : Prop :=
  ∃ raw m', m.readMem (m.registers pcReg) .word = .ok (raw, m') ∧ Instruction.decode raw = i

theorem oneInstruction_of_fetches {i : Instruction} (h : m.Fetches i) :
    ∃ n, m.SameState n ∧ m.oneInstruction = finish (i.execute n) := by
  obtain ⟨raw, n, hread, rfl⟩ := h
  refine ⟨n, readMem_sameState hread, ?_⟩
  unfold oneInstruction
  simp only
  rw [hread]

theorem advance_general (m : Machine) (pcAfter : Word) (x : BitVec 5) :
    (m.advance pcAfter).registers (general x) = m.registers (general x) := by
  change Function.update (Function.update (Function.update m.registers prevPCReg _) pcReg _) nextPCReg _ _ = _
  rw [Function.update_of_ne (general_ne x (by decide)), Function.update_of_ne (general_ne x (by decide)),
    Function.update_of_ne (general_ne x (by decide))]

section Raised

theorem load_raised {dest : BitVec 5} {loaded : Word → Word}
    (h : m.load addr size dest loaded = .raised which badVAddr n) : m.SameState n := by
  unfold Machine.load at h
  split at h
  · cases h
    exact .refl m
  · cases h

theorem loadAligned_raised {mask : Word} {dest : BitVec 5} {loaded : Word → Word}
    (h : m.loadAligned addr mask size dest loaded = .raised which badVAddr n) : m.SameState n := by
  unfold loadAligned at h
  split at h
  · cases h
    exact .refl m
  · exact load_raised h

theorem store_raised (h : m.store addr size value = .raised which badVAddr n) : m.SameState n := by
  unfold Machine.store at h
  split at h
  · cases h
    exact .refl m
  · cases h

/-- The word that is read before a write that fails leaves its use bit. -/
theorem storePart_raised {merged : Word → Word} (h : m.storePart addr merged = .raised which badVAddr n) :
    m.SameState n := by
  unfold storePart at h
  split at h
  · cases h
    exact .refl m
  next value m' hread => exact (readMem_sameState hread).trans (store_raised h)

/-- No instruction has changed a register or the memory when it raises an exception. -/
theorem execute_raised {i : Instruction} (h : i.execute m = .raised which badVAddr n) : m.SameState n := by
  obtain ⟨opCode, rs, rt, rd, extra⟩ := i
  cases opCode
  case addu | and | nor | or | sllv | slt | sltu | srav | srlv | subu | xor | addiu | andi | ori | slti | sltiu | xori |
      lui | sll | sra | srl | mfhi | mflo | mthi | mtlo | mult | multu | beq | bne | bgez | bgtz | blez | bltz |
      bgezal | bltzal | jal | j | jalr | jr => cases h
  case add | sub | addi =>
    simp only [Instruction.execute] at h
    split at h
    · cases h
      exact .refl m
    · cases h
  case div =>
    simp only [Instruction.execute] at h
    split at h
    · cases h
    · split at h <;> cases h
  case divu =>
    simp only [Instruction.execute] at h
    split at h <;> cases h
  case lb | lbu | lwr | lwl => exact load_raised h
  case lh | lhu | lw => exact loadAligned_raised h
  case sb | sh | sw => exact store_raised h
  case swr | swl => exact storePart_raised h
  case syscall | res | unimp =>
    cases h
    exact .refl m

end Raised

/-- What the exception handler finds: one call of `RaiseException` on the registers before the instruction. -/
theorem oneInstruction_exception (h : m.oneInstruction = .exception which m') :
    ∃ badVAddr, m'.registers = Nachos.raiseException badVAddr m.registers ∧ m'.mainMemory = m.mainMemory ∧
      m'.translation.mapping = m.translation.mapping := by
  unfold oneInstruction at h
  simp only at h
  split at h
  · cases h
    exact ⟨_, rfl, rfl, rfl⟩
  next raw n hread =>
    have hfetched := readMem_sameState hread
    cases hexec : (Instruction.decode raw).execute n with
    | completed p =>
        rw [hexec] at h
        cases h
    | raised which' badVAddr n' =>
        rw [hexec] at h
        cases h
        have hsame := hfetched.trans (execute_raised hexec)
        refine ⟨badVAddr, ?_, hsame.mainMemory, hsame.mapping⟩
        rw [← hsame.registers]
        rfl
    | hostTrap =>
        rw [hexec] at h
        cases h

/-- The general registers when the exception handler begins. -/
theorem raiseException_general {r : Registers} (h : LoadsGeneral r) (badVAddr : Word) (x : BitVec 5) :
    Nachos.raiseException badVAddr r (general x) =
      if x = 0 then 0 else if r loadReg = x.setWidth 32 then r loadValueReg else r (general x) := by
  have hwrite : LoadsGeneral (writeRegister r badVAddrReg badVAddr) := h
  have hkeep : writeRegister r badVAddrReg badVAddr (general x) = r (general x) :=
    Function.update_of_ne (general_ne x (by decide)) _ _
  have htarget : (general x).val = (writeRegister r badVAddrReg badVAddr loadReg).toNat ↔
      r loadReg = x.setWidth 32 := eq_target
  have hvalue : writeRegister r badVAddrReg badVAddr loadValueReg = r loadValueReg := rfl
  unfold Nachos.raiseException
  rw [delayedLoad_apply hwrite, if_neg (general_ne x (y := loadValueReg) (by decide)),
    if_neg (general_ne x (y := loadReg) (by decide)), hkeep, hvalue]
  simp only [htarget, general_eq_zero]

/-- The other registers but those of the load. -/
theorem raiseException_special {r : Registers} (h : LoadsGeneral r) (badVAddr : Word) {x : Fin numTotalRegs}
    (hx : numGPRegs ≤ x.val) (hbad : x ≠ badVAddrReg) (hload : x ≠ loadReg) (hvalue : x ≠ loadValueReg) :
    Nachos.raiseException badVAddr r x = r x := by
  have hwrite : LoadsGeneral (writeRegister r badVAddrReg badVAddr) := h
  have hzero : x ≠ 0 := by
    rintro rfl
    exact absurd hx (by decide)
  have htarget : x.val ≠ (writeRegister r badVAddrReg badVAddr loadReg).toNat := by
    unfold LoadsGeneral at hwrite
    omega
  unfold Nachos.raiseException
  rw [delayedLoad_apply hwrite, if_neg hzero, if_neg hvalue, if_neg hload, if_neg htarget]
  exact Function.update_of_ne hbad _ _

/-- Exceptions are precise. When its cause is removed, in the memory or the page table, the instruction is executed as
if the pending load had been completed before it; one that is good in the delay slot of that load does what it would
have done. -/
theorem exceptions_precise (m m' : Machine) (which : ExceptionType) (hproper : ProperRegisters m.registers)
    (h : m.oneInstruction = .exception which m') :
    m'.mainMemory = m.mainMemory ∧ m'.translation.mapping = m.translation.mapping ∧
    (∀ x ∈ [pcReg, nextPCReg, prevPCReg, hiReg, loReg], m'.registers x = m.registers x) ∧
    (∀ x : BitVec 5, m'.registers (general x) =
      if x = 0 then 0 else if m.registers loadReg = x.setWidth 32 then m.registers loadValueReg
      else m.registers (general x)) ∧
    m'.registers loadReg = 0 ∧
    ∃ badVAddr, m'.registers = Nachos.raiseException badVAddr m.registers ∧ ∀ memory t,
      let repaired : Machine := ⟨writeRegister m.registers badVAddrReg badVAddr, memory, t⟩
      (⟨m'.registers, memory, t⟩ : Machine) = repaired.delayedLoad 0 0 ∧
        (repaired.RespectsDelay →
          repaired.oneInstruction.Ahead (⟨m'.registers, memory, t⟩ : Machine).oneInstruction) := by
  obtain ⟨badVAddr, hregisters, hmemory, hmapping⟩ := oneInstruction_exception h
  refine ⟨hmemory, hmapping, ?_, ?_, ?_, badVAddr, hregisters, ?_⟩
  · have hkept : ∀ x ∈ [pcReg, nextPCReg, prevPCReg, hiReg, loReg],
        numGPRegs ≤ x.val ∧ x ≠ badVAddrReg ∧ x ≠ loadReg ∧ x ≠ loadValueReg := by decide
    intro x hx
    obtain ⟨hspecial, hbad, hload, hvalue⟩ := hkept x hx
    rw [hregisters]
    exact raiseException_special hproper.general badVAddr hspecial hbad hload hvalue
  · intro x
    rw [hregisters]
    exact raiseException_general hproper.general badVAddr x
  · rw [hregisters]
    rfl
  · intro memory t repaired
    have hgeneral : LoadsGeneral repaired.registers := hproper.general
    have hrepeated : (⟨m'.registers, memory, t⟩ : Machine) = repaired.delayedLoad 0 0 := by
      rw [hregisters]
      rfl
    refine ⟨hrepeated, fun hdelay => ?_⟩
    rw [hrepeated]
    have hcompleted := delayedLoad_proper 0 0 repaired.registers
    refine oneInstruction_ahead ⟨hgeneral, ?_, rfl, rfl, .inl rfl⟩ ?_ hcompleted.zero hdelay
    · exact (delayedLoad_zero hgeneral 0).symm
    · exact hproper.zero

/-- A store of register 8 to address 128, where a load of 5 into it is pending and the page is not valid. -/
def storingMachine : Machine where
  registers x := if x = loadReg then 8 else if x = loadValueReg then 5 else if x = nextPCReg then 4 else 0
  mainMemory := .ofList [0x80, 0, 8, 0xac] 0
  translation := .pageTable [⟨0, 0, true, false, false, false⟩, ⟨0, 1, false, false, false, false⟩]

/-- The page table with the page. -/
def storingPages : Translation := .pageTable [⟨0, 0, true, false, false, false⟩, ⟨0, 1, true, false, false, false⟩]

theorem exceptions_precise_store : ∃ m' badVAddr, storingMachine.oneInstruction = .exception .pageFaultException m' ∧
    m'.mainMemory = storingMachine.mainMemory ∧ m'.registers = Nachos.raiseException badVAddr storingMachine.registers
    := by
  have hproper : ProperRegisters storingMachine.registers := ⟨rfl, show (8 : Nat) < 32 by decide⟩
  obtain ⟨hmemory, -, -, -, -, badVAddr, hregisters, -⟩ :=
    exceptions_precise storingMachine _ .pageFaultException hproper rfl
  exact ⟨_, badVAddr, rfl, hmemory, hregisters⟩

/-- An instruction that uses the target of the pending load need not do the same when it is executed again. -/
theorem repeated_store_differs : ∃ m' once again, ProperRegisters storingMachine.registers ∧
    storingMachine.oneInstruction = .exception .pageFaultException m' ∧
    (⟨storingMachine.registers, m'.mainMemory, storingPages⟩ : Machine).oneInstruction = .completed once ∧
    (⟨m'.registers, m'.mainMemory, storingPages⟩ : Machine).oneInstruction = .completed again ∧
    once.mainMemory 128 = 0 ∧ again.mainMemory 128 = 5 := by
  refine ⟨_, _, _, ⟨rfl, show (8 : Nat) < 32 by decide⟩, rfl, rfl, rfl, ?_, ?_⟩
  · decide
  · decide

end Machine

end Nachos

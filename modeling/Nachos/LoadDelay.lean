import Nachos.Mips
import Nachos.RegisterFrame

/-! The load delay of the simulated processor, and interrupts between two instructions. A load writes its target
only when the next instruction is executed; `CheckIfDue` and `RaiseException` complete it early. -/

namespace Nachos

variable {r r' : Registers}

section Registers

/-- The registers after `DelayedLoad`, if a load is pending for a general register. -/
theorem delayedLoad_apply (h : LoadsGeneral r) (nextReg nextValue : Word) (x : Fin numTotalRegs) :
    delayedLoad nextReg nextValue r x =
      if x = 0 then 0 else if x = loadValueReg then nextValue else if x = loadReg then nextReg
      else if x.val = (r loadReg).toNat then r loadValueReg else r x := by
  have hbound : (r loadReg).toNat < numTotalRegs := lt_trans h (by decide)
  unfold delayedLoad writeRegister
  simp only [dif_pos hbound, Function.update_apply, Fin.ext_iff]

theorem delayedLoad_ext (h : LoadsGeneral r) (h' : LoadsGeneral r') {nextReg nextValue : Word}
    (hequal : delayedLoad 0 0 r = delayedLoad 0 0 r') :
    delayedLoad nextReg nextValue r = delayedLoad nextReg nextValue r' := by
  ext1 x
  have hx := congrFun hequal x
  rw [delayedLoad_apply h, delayedLoad_apply h'] at hx ⊢
  split_ifs at hx ⊢ <;> first | rfl | exact hx

end Registers

/-- No load is pending for a register that an instruction may see. -/
def Machine.Free (m : Machine) (x : BitVec 5) : Prop :=
  m.registers loadReg = 0 ∨ m.registers loadReg ≠ x.setWidth 32

/-- What holds whenever an instruction begins. -/
structure ProperRegisters (r : Registers) : Prop where
  zero : r 0 = 0
  general : LoadsGeneral r

theorem general_ne (x : BitVec 5) {y : Fin numTotalRegs} (hy : numGPRegs ≤ y.val) : general x ≠ y := by
  rintro rfl
  have hlt : (general x).val < 32 := x.isLt
  unfold numGPRegs at hy
  omega

theorem general_eq_zero {x : BitVec 5} : general x = 0 ↔ x = 0 := by
  constructor
  · intro h
    have hval : (general x).val = 0 := congrArg Fin.val h
    apply BitVec.eq_of_toNat_eq
    exact hval
  · rintro rfl
    rfl

/-- The register that a load is pending for. -/
theorem eq_target {x : BitVec 5} : (general x).val = (r loadReg).toNat ↔ r loadReg = x.setWidth 32 := by
  rw [← BitVec.toNat_inj, BitVec.toNat_setWidth_of_le (by decide)]
  exact eq_comm

theorem loadsGeneral_of_zero (h : r loadReg = 0) : LoadsGeneral r := by
  unfold LoadsGeneral
  rw [h]
  decide

namespace Instruction

/-- The general registers whose values an instruction uses. `LWL` and `LWR` also see their target, but with the
load that is pending for it. -/
def reads (i : Instruction) : List (BitVec 5) :=
  match i.opCode with
  | .add | .addu | .and | .beq | .bne | .div | .divu | .mult | .multu | .nor | .or | .sb | .sh | .sllv | .slt | .sltu
  | .srav | .srlv | .sub | .subu | .sw | .swl | .swr | .xor => [i.rs, i.rt]
  | .addi | .addiu | .andi | .bgez | .bgezal | .bgtz | .blez | .bltz | .bltzal | .jalr | .jr | .lb | .lbu | .lh | .lhu
  | .lw | .lwl | .lwr | .mthi | .mtlo | .ori | .slti | .sltiu | .xori => [i.rs]
  | .sll | .sra | .srl => [i.rt]
  | .j | .jal | .lui | .mfhi | .mflo | .syscall | .unimp | .res => []

/-- The general registers that an instruction writes by itself; the target of a load is written by `DelayedLoad`. -/
def writes (i : Instruction) : List (BitVec 5) :=
  match i.opCode with
  | .add | .addu | .and | .jalr | .mfhi | .mflo | .nor | .or | .sll | .sllv | .slt | .sltu | .sra | .srav | .srl | .srlv
  | .sub | .subu | .xor => [i.rd]
  | .addi | .addiu | .andi | .lui | .ori | .slti | .sltiu | .xori => [i.rt]
  | .bgezal | .bltzal | .jal => [31]
  | .beq | .bgez | .bgtz | .blez | .bltz | .bne | .div | .divu | .j | .jr | .lb | .lbu | .lh | .lhu | .lw | .lwl | .lwr
  | .mthi | .mtlo | .mult | .multu | .sb | .sh | .sw | .swl | .swr | .syscall | .unimp | .res => []

/-- The instruction is good in the delay slot of the load that is pending. -/
def Respects (i : Instruction) (m : Machine) : Prop := (∀ x ∈ i.reads, m.Free x) ∧ ∀ x ∈ i.writes, m.Free x

end Instruction

/-- The second machine is the first one, but perhaps with the pending load completed. -/
structure Machine.Ahead (m m' : Machine) : Prop where
  general : LoadsGeneral m.registers
  registers : Nachos.delayedLoad 0 0 m.registers = Nachos.delayedLoad 0 0 m'.registers
  mainMemory : m.mainMemory = m'.mainMemory
  translation : m.translation = m'.translation
  pending : m'.registers loadReg = 0 ∨ m'.registers loadReg = m.registers loadReg

/-- The two ways of an instruction on such machines. -/
inductive Executed.Ahead : Executed → Executed → Prop where
  | completed {p p' : Progress} (hmachine : p.machine.Ahead p'.machine) (hpc : p.pcAfter = p'.pcAfter)
      (hreg : p.nextLoadReg = p'.nextLoadReg) (hvalue : p.nextLoadReg = 0 ∨ p.nextLoadValue = p'.nextLoadValue) :
      Ahead (.completed p) (.completed p')
  | raised {which : ExceptionType} {badVAddr : Word} {m m' : Machine} (hmachine : m.Ahead m') :
      Ahead (.raised which badVAddr m) (.raised which badVAddr m')
  | hostTrap : Ahead .hostTrap .hostTrap

namespace Machine

variable {m m' : Machine}

theorem free_general {x : BitVec 5} (h : m.Free x) :
    m.registers loadReg = 0 ∨ (general x).val ≠ (m.registers loadReg).toNat := by
  exact h.imp_right fun hne heq => hne (eq_target.mp heq)

namespace Ahead

theorem general' (h : m.Ahead m') : LoadsGeneral m'.registers := by
  rcases h.pending with hzero | hsame
  · exact loadsGeneral_of_zero hzero
  · unfold LoadsGeneral
    rw [hsame]
    exact h.general

/-- No load is pending for a register in the second machine if none is in the first. -/
theorem untargeted (h : m.Ahead m') {x : Fin numTotalRegs} (hzero : x ≠ 0)
    (hfree : m.registers loadReg = 0 ∨ x.val ≠ (m.registers loadReg).toNat) :
    x.val ≠ (m.registers loadReg).toNat ∧ x.val ≠ (m'.registers loadReg).toNat := by
  have hval : x.val ≠ 0 := fun heq => hzero (Fin.ext heq)
  have htarget : x.val ≠ (m.registers loadReg).toNat := by
    rcases hfree with hnone | hne
    · rw [hnone]
      exact hval
    · exact hne
  refine ⟨htarget, ?_⟩
  rcases h.pending with hnone | hsame
  · rw [hnone]
    exact hval
  · rw [hsame]
    exact htarget

/-- The machines agree in every register but the target of the pending load. -/
theorem read (h : m.Ahead m') {x : Fin numTotalRegs} (hzero : x ≠ 0) (hvalue : x ≠ loadValueReg)
    (hload : x ≠ loadReg)
    (hfree : m.registers loadReg = 0 ∨ x.val ≠ (m.registers loadReg).toNat) : m'.registers x = m.registers x := by
  have hx := congrFun h.registers x
  obtain ⟨htarget, htarget'⟩ := h.untargeted hzero hfree
  rw [delayedLoad_apply h.general, delayedLoad_apply h.general', if_neg hzero, if_neg hvalue, if_neg hload,
    if_neg htarget, if_neg hzero, if_neg hvalue, if_neg hload, if_neg htarget'] at hx
  exact hx.symm

/-- A register that no load is pending for. -/
theorem special (h : m.Ahead m') {x : Fin numTotalRegs} (hx : numGPRegs ≤ x.val) (hvalue : x ≠ loadValueReg)
    (hload : x ≠ loadReg) : m'.registers x = m.registers x := by
  have hgeneral := h.general
  unfold LoadsGeneral at hgeneral
  have hpos : 0 < numGPRegs := by decide
  refine h.read ?_ hvalue hload (.inr (by omega))
  rintro rfl
  exact absurd hx (by decide)

theorem operand (h : m.Ahead m') (hzero : m.registers 0 = 0) (hzero' : m'.registers 0 = 0) {x : BitVec 5}
    (hfree : m.Free x) : m'.registers (Nachos.general x) = m.registers (Nachos.general x) := by
  by_cases hx : Nachos.general x = 0
  · rw [hx, hzero, hzero']
  · exact h.read hx (general_ne x (by decide)) (general_ne x (by decide)) (free_general hfree)

/-- Both machines write the same register. -/
theorem write (h : m.Ahead m') {x : Fin numTotalRegs} (hvalue : x ≠ loadValueReg) (hload : x ≠ loadReg)
    (hfree : m.registers loadReg = 0 ∨ x.val ≠ (m.registers loadReg).toNat) (value : Word) :
    (m.write x value).Ahead (m'.write x value) := by
  have hkeep : (m.write x value).registers loadReg = m.registers loadReg :=
    Function.update_of_ne hload.symm _ _
  have hkeep' : (m'.write x value).registers loadReg = m'.registers loadReg :=
    Function.update_of_ne hload.symm _ _
  have hlast : (m.write x value).registers loadValueReg = m.registers loadValueReg :=
    Function.update_of_ne hvalue.symm _ _
  have hlast' : (m'.write x value).registers loadValueReg = m'.registers loadValueReg :=
    Function.update_of_ne hvalue.symm _ _
  have hgeneral : LoadsGeneral (m.write x value).registers := by
    unfold LoadsGeneral
    rw [hkeep]
    exact h.general
  have hgeneral' : LoadsGeneral (m'.write x value).registers := by
    unfold LoadsGeneral
    rw [hkeep']
    exact h.general'
  refine ⟨hgeneral, ?_, h.mainMemory, h.translation, by rw [hkeep, hkeep']; exact h.pending⟩
  ext1 y
  have hy := congrFun h.registers y
  rw [delayedLoad_apply h.general, delayedLoad_apply h.general'] at hy
  rw [delayedLoad_apply hgeneral, delayedLoad_apply hgeneral', hkeep, hkeep', hlast, hlast']
  by_cases hyx : y = x
  · subst hyx
    have hself : (m.write y value).registers y = value := Function.update_self _ _ _
    have hself' : (m'.write y value).registers y = value := Function.update_self _ _ _
    by_cases hzero : y = 0
    · rw [if_pos hzero, if_pos hzero]
    · obtain ⟨htarget, htarget'⟩ := h.untargeted hzero hfree
      rw [hself, hself', if_neg htarget, if_neg htarget']
  · have hother : (m.write x value).registers y = m.registers y := Function.update_of_ne hyx _ _
    have hother' : (m'.write x value).registers y = m'.registers y := Function.update_of_ne hyx _ _
    rw [hother, hother']
    exact hy

theorem write_general (h : m.Ahead m') {x : BitVec 5} (hfree : m.Free x) (value : Word) :
    (m.write (Nachos.general x) value).Ahead (m'.write (Nachos.general x) value) :=
  h.write (general_ne x (by decide)) (general_ne x (by decide)) (free_general hfree) value

theorem write_special (h : m.Ahead m') {x : Fin numTotalRegs} (hx : numGPRegs ≤ x.val) (hvalue : x ≠ loadValueReg)
    (hload : x ≠ loadReg) (value : Word) : (m.write x value).Ahead (m'.write x value) := by
  have hgeneral := h.general
  unfold LoadsGeneral at hgeneral
  exact h.write hvalue hload (.inr (by omega)) value

theorem write_product (h : m.Ahead m') (hi lo : Word) :
    ((m.write hiReg hi).write loReg lo).Ahead ((m'.write hiReg hi).write loReg lo) := by
  have hhi := h.write_special (x := hiReg) (by decide) (by decide) (by decide) hi
  exact hhi.write_special (by decide) (by decide) (by decide) lo

theorem write_quotient (h : m.Ahead m') (lo hi : Word) :
    ((m.write loReg lo).write hiReg hi).Ahead ((m'.write loReg lo).write hiReg hi) := by
  have hlo := h.write_special (x := loReg) (by decide) (by decide) (by decide) lo
  exact hlo.write_special (by decide) (by decide) (by decide) hi

theorem nextPC (h : m.Ahead m') : m'.registers nextPCReg = m.registers nextPCReg :=
  h.special (by decide) (by decide) (by decide)

theorem jump (h : m.Ahead m') (pcAfter : Word) : Executed.Ahead (m.jump pcAfter) (m'.jump pcAfter) :=
  .completed h rfl rfl (.inl rfl)

theorem proceed (h : m.Ahead m') : Executed.Ahead m.proceed m'.proceed := by
  refine .completed h ?_ rfl (.inl rfl)
  change m.registers nextPCReg + 4 = m'.registers nextPCReg + 4
  rw [h.nextPC]

theorem assign (h : m.Ahead m') {dest : BitVec 5} (hfree : m.Free dest) (value : Word) :
    Executed.Ahead (m.assign dest value) (m'.assign dest value) := (h.write_general hfree value).proceed

theorem branch (h : m.Ahead m') (taken : Bool) (extra : Word) :
    Executed.Ahead (m.branch taken extra) (m'.branch taken extra) := by
  unfold Machine.branch
  rw [h.nextPC]
  exact h.jump _

theorem link (h : m.Ahead m') {dest : BitVec 5} (hfree : m.Free dest) : (m.link dest).Ahead (m'.link dest) := by
  unfold Machine.link
  rw [h.nextPC]
  exact h.write_general hfree _

/-- The operand of a jump that saves the return address first. -/
theorem link_operand (h : m.Ahead m') {x : BitVec 5}
    (hx : m'.registers (Nachos.general x) = m.registers (Nachos.general x)) (dest : BitVec 5) :
    (m'.link dest).registers (Nachos.general x) = (m.link dest).registers (Nachos.general x) := by
  change Function.update m'.registers _ _ _ = Function.update m.registers _ _ _
  rw [Function.update_apply, Function.update_apply, hx, h.nextPC]

/-- A read leaves the registers alone. -/
theorem readMem (h : m.Ahead m') (addr : Word) (size : Size) :
    (∃ e, m.readMem addr size = .error e ∧ m'.readMem addr size = .error e) ∨
      ∃ value n n', m.readMem addr size = .ok (value, n) ∧ m'.readMem addr size = .ok (value, n') ∧ n.Ahead n' ∧
        n.registers = m.registers ∧ n'.registers = m'.registers := by
  unfold Machine.readMem
  rw [← h.translation, ← h.mainMemory]
  cases m.translation.translate addr size false with
  | error e => exact .inl ⟨e, rfl, rfl⟩
  | ok found => exact .inr ⟨_, _, _, rfl, rfl, ⟨h.general, h.registers, rfl, rfl, h.pending⟩, rfl, rfl⟩

theorem load (h : m.Ahead m') (addr : Word) (size : Size) {dest : BitVec 5} {loaded loaded' : Word → Word}
    (hloaded : dest = 0 ∨ loaded = loaded') :
    Executed.Ahead (m.load addr size dest loaded) (m'.load addr size dest loaded') := by
  unfold Machine.load
  rcases h.readMem addr size with ⟨e, hread, hread'⟩ | ⟨value, n, n', hread, hread', hahead, -, -⟩
  · rw [hread, hread']
    exact .raised h
  · rw [hread, hread']
    refine .completed hahead ?_ rfl (hloaded.imp_right fun heq => congrFun heq value)
    change n.registers nextPCReg + 4 = n'.registers nextPCReg + 4
    rw [hahead.nextPC]

theorem loadAligned (h : m.Ahead m') (addr mask : Word) (size : Size) (dest : BitVec 5) (loaded : Word → Word) :
    Executed.Ahead (m.loadAligned addr mask size dest loaded) (m'.loadAligned addr mask size dest loaded) := by
  unfold Machine.loadAligned
  split
  · exact .raised h
  · exact h.load addr size (.inr rfl)

theorem store (h : m.Ahead m') (addr : Word) (size : Size) (value : Word) :
    Executed.Ahead (m.store addr size value) (m'.store addr size value) := by
  unfold Machine.store writeMem
  rw [← h.translation, ← h.mainMemory]
  cases m.translation.translate addr size true with
  | error e => exact .raised h
  | ok found =>
      exact Ahead.proceed ⟨h.general, h.registers, rfl, rfl, h.pending⟩

theorem storePart (h : m.Ahead m') (addr : Word) (merged : Word → Word) :
    Executed.Ahead (m.storePart addr merged) (m'.storePart addr merged) := by
  unfold Machine.storePart
  rcases h.readMem addr .word with ⟨e, hread, hread'⟩ | ⟨value, n, n', hread, hread', hahead, -, -⟩
  · rw [hread, hread']
    exact .raised h
  · rw [hread, hread']
    exact hahead.store addr .word (merged value)

/-- What `LWL` and `LWR` merge into is the target with the pending load completed. -/
theorem pendingValue_eq {m : Machine} (h : LoadsGeneral m.registers) {rt : BitVec 5} (hrt : rt ≠ 0) :
    m.pendingValue rt = Nachos.delayedLoad 0 0 m.registers (Nachos.general rt) := by
  have hzero : Nachos.general rt ≠ 0 := fun heq => hrt (general_eq_zero.mp heq)
  unfold pendingValue
  rw [delayedLoad_apply h, if_neg hzero, if_neg (general_ne rt (by decide)),
    if_neg (general_ne rt (by decide))]
  simp only [eq_target]

theorem pendingValue (h : m.Ahead m') (rt : BitVec 5) : rt = 0 ∨ m.pendingValue rt = m'.pendingValue rt := by
  by_cases hrt : rt = 0
  · exact .inl hrt
  · right
    rw [pendingValue_eq h.general hrt, pendingValue_eq h.general' hrt, h.registers]

end Ahead

end Machine

namespace Instruction

variable {m m' : Machine}

/-- An instruction that is good in the delay slot does the same whether the load is completed before it or not. -/
theorem execute_ahead {i : Instruction} (h : m.Ahead m') (hzero : m.registers 0 = 0) (hzero' : m'.registers 0 = 0)
    (hrespects : i.Respects m) : (i.execute m).Ahead (i.execute m') := by
  obtain ⟨opCode, rs, rt, rd, extra⟩ := i
  obtain ⟨hreads, hwrites⟩ := hrespects
  have hread : ∀ x ∈ reads ⟨opCode, rs, rt, rd, extra⟩, m'.registers (general x) = m.registers (general x) :=
    fun x hx => h.operand hzero hzero' (hreads x hx)
  cases opCode
  case addu | and | nor | or | sllv | slt | sltu | srav | srlv | subu | xor =>
    simp only [execute, hread rs List.mem_cons_self, hread rt (List.mem_cons_of_mem _ List.mem_cons_self)]
    exact h.assign (hwrites rd List.mem_cons_self) _
  case add | sub =>
    simp only [execute, hread rs List.mem_cons_self, hread rt (List.mem_cons_of_mem _ List.mem_cons_self)]
    split
    · exact .raised h
    · exact h.assign (hwrites rd List.mem_cons_self) _
  case addi =>
    simp only [execute, hread rs List.mem_cons_self]
    split
    · exact .raised h
    · exact h.assign (hwrites rt List.mem_cons_self) _
  case addiu | andi | ori | slti | sltiu | xori =>
    simp only [execute, hread rs List.mem_cons_self]
    exact h.assign (hwrites rt List.mem_cons_self) _
  case lui => exact h.assign (hwrites rt List.mem_cons_self) _
  case sll | sra | srl =>
    simp only [execute, hread rt List.mem_cons_self]
    exact h.assign (hwrites rd List.mem_cons_self) _
  case mfhi =>
    simp only [execute, h.special (x := hiReg) (by decide) (by decide) (by decide)]
    exact h.assign (hwrites rd List.mem_cons_self) _
  case mflo =>
    simp only [execute, h.special (x := loReg) (by decide) (by decide) (by decide)]
    exact h.assign (hwrites rd List.mem_cons_self) _
  case mthi =>
    simp only [execute, hread rs List.mem_cons_self]
    exact (h.write_special (x := hiReg) (by decide) (by decide) (by decide) _).proceed
  case mtlo =>
    simp only [execute, hread rs List.mem_cons_self]
    exact (h.write_special (x := loReg) (by decide) (by decide) (by decide) _).proceed
  case mult | multu =>
    simp only [execute, hread rs List.mem_cons_self, hread rt (List.mem_cons_of_mem _ List.mem_cons_self)]
    exact (h.write_product _ _).proceed
  case div =>
    simp only [execute, hread rs List.mem_cons_self, hread rt (List.mem_cons_of_mem _ List.mem_cons_self)]
    split
    · exact (h.write_quotient _ _).proceed
    · split
      · exact .hostTrap
      · exact (h.write_quotient _ _).proceed
  case divu =>
    simp only [execute, hread rs List.mem_cons_self, hread rt (List.mem_cons_of_mem _ List.mem_cons_self)]
    split
    · exact (h.write_quotient _ _).proceed
    · exact (h.write_quotient _ _).proceed
  case beq | bne =>
    simp only [execute, hread rs List.mem_cons_self, hread rt (List.mem_cons_of_mem _ List.mem_cons_self)]
    exact h.branch _ _
  case bgez | bgtz | blez | bltz =>
    simp only [execute, hread rs List.mem_cons_self]
    exact h.branch _ _
  case bgezal | bltzal =>
    simp only [execute, h.link_operand (hread rs List.mem_cons_self)]
    exact (h.link (hwrites 31 List.mem_cons_self)).branch _ _
  case jal =>
    simp only [execute, h.nextPC]
    exact (h.link (hwrites 31 List.mem_cons_self)).jump _
  case j =>
    simp only [execute, h.nextPC]
    exact h.jump _
  case jalr =>
    simp only [execute, h.link_operand (hread rs List.mem_cons_self)]
    exact (h.link (hwrites rd List.mem_cons_self)).jump _
  case jr =>
    simp only [execute, hread rs List.mem_cons_self]
    exact h.jump _
  case lb | lbu =>
    simp only [execute, hread rs List.mem_cons_self]
    exact h.load _ _ (.inr rfl)
  case lh | lhu | lw =>
    simp only [execute, hread rs List.mem_cons_self]
    exact h.loadAligned _ _ _ _ _
  case lwr | lwl =>
    simp only [execute, hread rs List.mem_cons_self]
    exact h.load _ _ ((h.pendingValue rt).imp_right fun heq => by rw [heq])
  case sb | sh | sw =>
    simp only [execute, hread rs List.mem_cons_self, hread rt (List.mem_cons_of_mem _ List.mem_cons_self)]
    exact h.store _ _ _
  case swr | swl =>
    simp only [execute, hread rs List.mem_cons_self, hread rt (List.mem_cons_of_mem _ List.mem_cons_self)]
    exact h.storePart _ _
  case syscall | res | unimp => exact .raised h

end Instruction

namespace Machine

variable {m m' : Machine}

/-- The next instruction is good in the delay slot of the load that is pending. -/
def RespectsDelay (m : Machine) : Prop :=
  ∀ raw m', m.readMem (m.registers pcReg) .word = .ok (raw, m') → (Instruction.decode raw).Respects m

instance (m : Machine) (x : BitVec 5) : Decidable (m.Free x) := inferInstanceAs (Decidable (_ ∨ _))

instance (i : Instruction) (m : Machine) : Decidable (i.Respects m) := inferInstanceAs (Decidable (_ ∧ _))

instance (m : Machine) : Decidable m.RespectsDelay :=
  match h : m.readMem (m.registers pcReg) .word with
  | .error _ => isTrue fun raw m' hread => by
      rw [h] at hread
      cases hread
  | .ok (raw, m') => decidable_of_iff ((Instruction.decode raw).Respects m) <| by
      constructor
      · intro hrespects raw' n hread
        rw [h] at hread
        cases hread
        exact hrespects
      · intro hdelay
        exact hdelay raw m' h

theorem Ahead.refl (h : LoadsGeneral m.registers) : m.Ahead m := ⟨h, rfl, rfl, rfl, .inr rfl⟩

theorem loadsGeneral_delayedLoad (nextReg : BitVec 5) (nextValue : Word) (r : Registers) :
    LoadsGeneral (Nachos.delayedLoad (nextReg.setWidth 32) nextValue r) := by
  have hload : Nachos.delayedLoad (nextReg.setWidth 32) nextValue r loadReg = nextReg.setWidth 32 := rfl
  unfold LoadsGeneral
  rw [hload, BitVec.toNat_setWidth_of_le (by decide)]
  exact nextReg.isLt

theorem delayedLoad_proper (nextReg : BitVec 5) (nextValue : Word) (r : Registers) :
    ProperRegisters (Nachos.delayedLoad (nextReg.setWidth 32) nextValue r) :=
  ⟨rfl, loadsGeneral_delayedLoad nextReg nextValue r⟩

/-- When an instruction ends, and when the exception handler begins, the machine is as it has to be. -/
theorem finish_proper {e : Executed} (h : finish e = .completed m) : ProperRegisters m.registers := by
  cases e with
  | completed p =>
      cases h
      have hproper := delayedLoad_proper p.nextLoadReg p.nextLoadValue p.machine.registers
      exact ⟨hproper.zero, hproper.general⟩
  | raised which badVAddr m => cases h
  | hostTrap => cases h

theorem oneInstruction_proper (h : m.oneInstruction = .completed m') :
    ProperRegisters m'.registers := by
  unfold oneInstruction at h
  simp only at h
  split at h
  · cases h
  · exact finish_proper h

theorem raiseException_proper (badVAddr : Word) (r : Registers) :
    ProperRegisters (Nachos.raiseException badVAddr r) := delayedLoad_proper 0 0 (writeRegister r badVAddrReg badVAddr)

theorem updatePC_proper (result : Option Word) {r : Registers} (h : ProperRegisters r) :
    ProperRegisters (updatePC (writeResult result r)) := by
  cases result with
  | none => exact ⟨h.zero, h.general⟩
  | some value => exact ⟨h.zero, h.general⟩

theorem oneInstruction_exception_proper {which : ExceptionType}
    (h : m.oneInstruction = .exception which m') : ProperRegisters m'.registers := by
  unfold oneInstruction at h
  simp only at h
  split at h
  · cases h
    exact raiseException_proper _ _
  next raw n hread =>
    cases hexec : (Instruction.decode raw).execute n with
    | completed p =>
        rw [hexec] at h
        cases h
    | raised which' badVAddr n' =>
        rw [hexec] at h
        cases h
        exact raiseException_proper _ _
    | hostTrap =>
        rw [hexec] at h
        cases h

/-- A load into register 0 is forgotten. -/
theorem delayedLoad_zero {r : Registers} (h : LoadsGeneral r) (nextValue : Word) :
    Nachos.delayedLoad 0 0 (Nachos.delayedLoad 0 nextValue r) = Nachos.delayedLoad 0 0 r := by
  have hgeneral : LoadsGeneral (Nachos.delayedLoad 0 nextValue r) := loadsGeneral_delayedLoad 0 nextValue r
  have htarget : (Nachos.delayedLoad 0 nextValue r loadReg).toNat = 0 := rfl
  ext1 x
  rw [delayedLoad_apply hgeneral, htarget, delayedLoad_apply h, delayedLoad_apply h, delayedLoad_apply h]
  have hval : x.val = 0 ↔ x = 0 := ⟨fun heq => Fin.ext heq, fun heq => congrArg Fin.val heq⟩
  simp only [hval]
  split_ifs <;> rfl

theorem Ahead.delayedLoad (h : m.Ahead m') (nextReg : BitVec 5) {nextValue nextValue' : Word}
    (hvalue : nextReg = 0 ∨ nextValue = nextValue') :
    (m.delayedLoad (nextReg.setWidth 32) nextValue).Ahead (m'.delayedLoad (nextReg.setWidth 32) nextValue') := by
  refine ⟨(delayedLoad_proper _ _ m.registers).general, ?_, h.mainMemory, h.translation, .inr rfl⟩
  rcases hvalue with rfl | rfl
  · calc Nachos.delayedLoad 0 0 (Nachos.delayedLoad 0 nextValue m.registers)
        = Nachos.delayedLoad 0 0 m.registers := delayedLoad_zero h.general nextValue
      _ = Nachos.delayedLoad 0 0 m'.registers := h.registers
      _ = Nachos.delayedLoad 0 0 (Nachos.delayedLoad 0 nextValue' m'.registers) :=
        (delayedLoad_zero h.general' nextValue').symm
  · exact congrArg (Nachos.delayedLoad 0 0) (delayedLoad_ext h.general h.general' h.registers)

theorem Ahead.advance (h : m.Ahead m') (pcAfter : Word) : (m.advance pcAfter).Ahead (m'.advance pcAfter) := by
  have hprev := h.write_special (x := prevPCReg) (by decide) (by decide) (by decide) (m.registers pcReg)
  have hpc := hprev.write_special (x := pcReg) (by decide) (by decide) (by decide) (m.registers nextPCReg)
  have hnext := hpc.write_special (x := nextPCReg) (by decide) (by decide) (by decide) pcAfter
  have hread : m'.registers pcReg = m.registers pcReg := h.special (by decide) (by decide) (by decide)
  unfold Machine.advance
  rw [hread]
  change Machine.Ahead _ (((m'.write prevPCReg (m.registers pcReg)).write pcReg (m'.registers nextPCReg)).write
    nextPCReg pcAfter)
  rw [h.nextPC]
  exact hnext

/-- The exception handler finds the same machine. -/
theorem Ahead.raiseException (h : m.Ahead m') (badVAddr : Word) :
    m.raiseException badVAddr = m'.raiseException badVAddr := by
  have hwrite := h.write_special (x := badVAddrReg) (by decide) (by decide) (by decide) badVAddr
  exact Machine.ext hwrite.registers h.mainMemory h.translation

end Machine

/-- The two ways of `OneInstruction` on such machines. -/
inductive Outcome.Ahead : Outcome → Outcome → Prop where
  | completed {m m' : Machine} (hmachine : m.Ahead m') : Ahead (.completed m) (.completed m')
  | exception {which : ExceptionType} {m : Machine} : Ahead (.exception which m) (.exception which m)
  | hostTrap : Ahead .hostTrap .hostTrap

namespace Machine

variable {m m' : Machine}

theorem finish_ahead {e e' : Executed} (h : e.Ahead e') : (finish e).Ahead (finish e') := by
  cases h with
  | @completed p p' hmachine hpc hreg hvalue =>
      unfold finish
      simp only
      rw [← hpc, ← hreg]
      exact .completed ((hmachine.delayedLoad p.nextLoadReg hvalue).advance p.pcAfter)
  | @raised which badVAddr m m' hmachine =>
      unfold finish
      simp only
      rw [hmachine.raiseException]
      exact .exception
  | hostTrap => exact .hostTrap

theorem oneInstruction_ahead (h : m.Ahead m') (hzero : m.registers 0 = 0) (hzero' : m'.registers 0 = 0)
    (hdelay : m.RespectsDelay) : m.oneInstruction.Ahead m'.oneInstruction := by
  have hpc : m'.registers pcReg = m.registers pcReg := h.special (by decide) (by decide) (by decide)
  unfold oneInstruction
  simp only
  rw [hpc]
  rcases h.readMem (m.registers pcReg) .word with
    ⟨e, hread, hread'⟩ | ⟨raw, n, n', hread, hread', hahead, hsame, hsame'⟩
  · rw [hread, hread', h.raiseException]
    exact .exception
  · rw [hread, hread']
    apply finish_ahead
    refine Instruction.execute_ahead hahead (by rw [hsame, hzero]) (by rw [hsame', hzero']) ?_
    have hrespects := hdelay raw n hread
    constructor
    · intro x hx
      unfold Free
      rw [hsame]
      exact hrespects.1 x hx
    · intro x hx
      unfold Free
      rw [hsame]
      exact hrespects.2 x hx

end Machine

/-- What the kernel makes of an exception: its own state afterwards, the result of the system call, the memory and
the page table; it may also not return. -/
abbrev ExceptionService (κ : Type) : Type :=
  ExceptionType → κ → Machine → Option (κ × Option Word × Image Byte × Translation)

/-- A run of `Machine::Run`: the state of the kernel and of the machine, unless the program has ended, and what each
instruction has raised. -/
structure UserRun (κ : Type) where
  state : Option (κ × Machine)
  raised : List (Option ExceptionType)

namespace UserRun

variable {κ : Type}

/-- `CheckIfDue` finds an interrupt between two instructions. -/
def interrupt (due : Bool) (u : UserRun κ) : UserRun κ :=
  if due then { u with state := u.state.map fun (k, m) => (k, m.delayedLoad 0 0) } else u

/-- One instruction. After an exception the kernel returns through `UpdatePC`. -/
def step (service : ExceptionService κ) (u : UserRun κ) : UserRun κ :=
  match u.state with
  | none => u
  | some (k, m) =>
      match m.oneInstruction with
      | .completed m => ⟨some (k, m), u.raised ++ [none]⟩
      | .exception which m =>
          ⟨(service which k m).map fun (k, result, memory, translation) =>
              (k, ⟨updatePC (writeResult result m.registers), memory, translation⟩),
            u.raised ++ [some which]⟩
      | .hostTrap => ⟨none, u.raised⟩

/-- The first instructions of a run; `due n` tells whether an interrupt comes before the instruction number `n`. -/
def run (service : ExceptionService κ) (due : Nat → Bool) (start : UserRun κ) : Nat → UserRun κ
  | 0 => start
  | n + 1 => ((run service due start n).interrupt (due n)).step service

/-- Two runs, the second of which may have completed the pending load. -/
inductive Ahead : UserRun κ → UserRun κ → Prop where
  | running {k : κ} {m m' : Machine} {raised : List (Option ExceptionType)} (hmachine : m.Ahead m')
      (hproper : ProperRegisters m.registers) (hproper' : ProperRegisters m'.registers) :
      Ahead ⟨some (k, m), raised⟩ ⟨some (k, m'), raised⟩
  | ended {raised : List (Option ExceptionType)} : Ahead ⟨none, raised⟩ ⟨none, raised⟩

variable {u u' : UserRun κ} {service : ExceptionService κ}

/-- An interrupt only completes the pending load. -/
theorem Ahead.interrupt (h : u.Ahead u') (due : Bool) : u.Ahead (u'.interrupt due) := by
  cases due with
  | false => exact h
  | true =>
      cases h with
      | @running k m m' raised hmachine hproper hproper' =>
          refine .running ⟨hmachine.general, ?_, hmachine.mainMemory, hmachine.translation, .inl rfl⟩ hproper
            (Machine.delayedLoad_proper 0 0 m'.registers)
          calc Nachos.delayedLoad 0 0 m.registers
              = Nachos.delayedLoad 0 0 m'.registers := hmachine.registers
            _ = Nachos.delayedLoad 0 0 (Nachos.delayedLoad 0 0 m'.registers) :=
              (Machine.delayedLoad_zero hproper'.general 0).symm
      | ended => exact .ended

theorem Ahead.step (h : u.Ahead u') (hdelay : ∀ k m, u.state = some (k, m) → m.RespectsDelay) :
    (u.step service).Ahead (u'.step service) := by
  cases h with
  | @running k m m' raised hmachine hproper hproper' =>
      have houtcome := Machine.oneInstruction_ahead hmachine hproper.zero hproper'.zero (hdelay k m rfl)
      unfold UserRun.step
      simp only
      generalize hone : m.oneInstruction = outcome at houtcome ⊢
      generalize hone' : m'.oneInstruction = outcome' at houtcome ⊢
      cases houtcome with
      | completed hahead =>
          exact .running hahead (Machine.oneInstruction_proper hone) (Machine.oneInstruction_proper hone')
      | @exception which n =>
          -- The kernel finds one machine in both runs, so that it does the same.
          simp only
          cases service which k n with
          | none => exact .ended
          | some served =>
              obtain ⟨k', result, memory, translation⟩ := served
              have hreturned := Machine.updatePC_proper result (Machine.oneInstruction_exception_proper hone)
              exact .running (.refl hreturned.general) hreturned hreturned
      | hostTrap => exact .ended
  | ended => exact .ended

/-- The run without interrupts. -/
def undisturbed (service : ExceptionService κ) (start : UserRun κ) (n : Nat) : UserRun κ :=
  run service (fun _ => false) start n

theorem run_ahead {start : UserRun κ} (hproper : ∀ k m, start.state = some (k, m) → ProperRegisters m.registers)
    (hdelay : ∀ n k m, (undisturbed service start n).state = some (k, m) → m.RespectsDelay) (due : Nat → Bool)
    (n : Nat) : (undisturbed service start n).Ahead (run service due start n) := by
  induction n with
  | zero =>
      obtain ⟨state, raised⟩ := start
      cases state with
      | none => exact .ended
      | some state =>
          have hstart := hproper state.1 state.2 rfl
          exact .running (.refl hstart.general) hstart hstart
  | succ n ih => exact (ih.interrupt (due n)).step (hdelay n)

theorem Ahead.complete (h : u.Ahead u') : u'.interrupt true = u.interrupt true := by
  cases h with
  | @running k m m' raised hmachine hproper hproper' =>
      have hequal : m'.delayedLoad 0 0 = m.delayedLoad 0 0 :=
        Machine.ext hmachine.registers.symm hmachine.mainMemory.symm hmachine.translation.symm
      change (⟨some (k, m'.delayedLoad 0 0), raised⟩ : UserRun κ) = ⟨some (k, m.delayedLoad 0 0), raised⟩
      rw [hequal]
  | ended => rfl

/-- Interrupts between instructions do not change the run of a program that respects the load delay: after each
instruction, once the pending load is completed, the machine and the exceptions so far are the same. -/
theorem interrupts_transparent {start : UserRun κ}
    (hproper : ∀ k m, start.state = some (k, m) → ProperRegisters m.registers)
    (hdelay : ∀ n k m, (undisturbed service start n).state = some (k, m) → m.RespectsDelay) (due : Nat → Bool)
    (n : Nat) : (run service due start n).interrupt true = (undisturbed service start n).interrupt true :=
  (run_ahead hproper hdelay due n).complete

theorem undisturbed_ended {start : UserRun κ} {n : Nat} (h : (undisturbed service start n).state = none) (k : Nat) :
    (undisturbed service start (n + k)).state = none := by
  induction k with
  | zero => exact h
  | succ k ih =>
      change ((undisturbed service start (n + k)).step service).state = none
      unfold UserRun.step
      rw [ih]
      exact ih

/-- A load of register 8 from address 64, an instruction that does nothing, and a system call. -/
def loadingMachine : Machine where
  registers := fun x => if x = nextPCReg then 4 else 0
  mainMemory := .ofList [0x40, 0, 8, 0x8c, 0, 0, 0, 0, 0x0c] 0
  translation := .pageTable [⟨0, 0, true, false, false, false⟩]

def loadRun : UserRun Unit := ⟨some ((), loadingMachine), []⟩

theorem interrupts_transparent_load :
    (run (fun _ _ _ => none) (· == 1) loadRun 2).interrupt true =
      (undisturbed (fun _ _ _ => none) loadRun 2).interrupt true := by
  refine interrupts_transparent ?_ ?_ _ 2
  · rintro k m ⟨⟩
    exact ⟨rfl, loadsGeneral_of_zero rfl⟩
  · intro n k m hstate
    have hrespects : ∀ i < 3, ∀ s ∈ (undisturbed (fun _ _ _ => none) loadRun i).state, s.2.RespectsDelay := by
      decide
    rcases Nat.lt_or_ge n 3 with hn | hn
    · exact hrespects n hn (k, m) hstate
    · obtain ⟨j, rfl⟩ := Nat.exists_eq_add_of_le hn
      rw [undisturbed_ended (n := 3) rfl j] at hstate
      cases hstate

end UserRun

end Nachos

import Nachos.PreciseExceptions

/-! The divisions of the simulated processor. `DIV` and `DIVU` check for a divisor of 0, but not for the quotient that
is no `int`. -/

namespace Nachos

section Laws

/-- The value of a word as an `int` or as an `unsigned int`. -/
def wordValue (signedArith : Bool) (w : Word) : Int := if signedArith then w.toInt else w.toNat

/-- The laws of truncating division. -/
structure Divided (signedArith : Bool) (rs rt lo hi : Word) : Prop where
  exact : rs = lo * rt + hi
  quotient : wordValue signedArith lo = (wordValue signedArith rs).tdiv (wordValue signedArith rt)
  remainder : wordValue signedArith hi = (wordValue signedArith rs).tmod (wordValue signedArith rt)
  small : (wordValue signedArith hi).natAbs < (wordValue signedArith rt).natAbs

variable {rs rt : Word}

theorem toInt_ne_zero (h : rt ≠ 0) : rt.toInt ≠ 0 := by
  intro hzero
  apply h
  rw [← BitVec.ofInt_toInt (x := rt), hzero]
  rfl

theorem divided_signed (hrt : rt ≠ 0) (hfits : ¬(rs = signBit ∧ rt = -1)) :
    Divided true rs rt (rs.sdiv rt) (rs.srem rt) := by
  have hquotient : (rs.sdiv rt).toInt = rs.toInt.tdiv rt.toInt := by
    apply BitVec.toInt_sdiv_of_ne_or_ne
    by_cases hrs : rs = signBit
    · exact .inr fun h => hfits ⟨hrs, h⟩
    · exact .inl hrs
  have hremainder : (rs.srem rt).toInt = rs.toInt.tmod rt.toInt := BitVec.toInt_srem rs rt
  refine ⟨?_, hquotient, hremainder, ?_⟩
  · calc rs = BitVec.ofInt 32 rs.toInt := BitVec.ofInt_toInt.symm
      _ = BitVec.ofInt 32 (rs.toInt.tdiv rt.toInt * rt.toInt + rs.toInt.tmod rt.toInt) := by
        rw [Int.mul_comm, Int.mul_tdiv_add_tmod]
      _ = rs.sdiv rt * rt + rs.srem rt := by
        rw [BitVec.ofInt_add, BitVec.ofInt_mul, ← hquotient, ← hremainder, BitVec.ofInt_toInt, BitVec.ofInt_toInt,
          BitVec.ofInt_toInt]
  · change (rs.srem rt).toInt.natAbs < rt.toInt.natAbs
    rw [hremainder, Int.natAbs_tmod]
    have hpos := toInt_ne_zero hrt
    exact Nat.mod_lt _ (by omega)

theorem divided_unsigned (hrt : rt ≠ 0) : Divided false rs rt (rs / rt) (rs % rt) := by
  have hpos : 0 < rt.toNat := Nat.pos_of_ne_zero fun hzero => hrt (BitVec.eq_of_toNat_eq hzero)
  refine ⟨?_, ?_, ?_, ?_⟩
  · apply BitVec.eq_of_toNat_eq
    rw [BitVec.toNat_add, BitVec.toNat_mul, BitVec.toNat_udiv, BitVec.toNat_umod, Nat.mod_add_mod, Nat.mul_comm,
      Nat.div_add_mod, Nat.mod_eq_of_lt rs.isLt]
  · change ((rs / rt).toNat : Int) = (rs.toNat : Int).tdiv rt.toNat
    rw [BitVec.toNat_udiv]
    rfl
  · change ((rs % rt).toNat : Int) = (rs.toNat : Int).tmod rt.toNat
    rw [BitVec.toNat_umod]
    rfl
  · change (rs % rt).toNat < rt.toNat
    rw [BitVec.toNat_umod]
    exact Nat.mod_lt _ hpos

end Laws

namespace Machine

variable {m : Machine} {i : Instruction}

section Traps

theorem load_ne_hostTrap {addr : Word} {size : Size} {dest : BitVec 5} {loaded : Word → Word} :
    m.load addr size dest loaded ≠ .hostTrap := by
  unfold Machine.load
  split <;> exact nofun

theorem loadAligned_ne_hostTrap {addr mask : Word} {size : Size} {dest : BitVec 5} {loaded : Word → Word} :
    m.loadAligned addr mask size dest loaded ≠ .hostTrap := by
  unfold loadAligned
  split
  · exact nofun
  · exact load_ne_hostTrap

theorem store_ne_hostTrap {addr value : Word} {size : Size} : m.store addr size value ≠ .hostTrap := by
  unfold Machine.store
  split <;> exact nofun

theorem storePart_ne_hostTrap {addr : Word} {merged : Word → Word} : m.storePart addr merged ≠ .hostTrap := by
  unfold storePart
  split
  · exact nofun
  · exact store_ne_hostTrap

/-- Only one quotient makes the host trap. -/
theorem execute_hostTrap_iff : i.execute m = .hostTrap ↔
    i.opCode = .div ∧ m.registers (general i.rs) = signBit ∧ m.registers (general i.rt) = -1 := by
  constructor
  · intro h
    obtain ⟨opCode, rs, rt, rd, extra⟩ := i
    cases opCode
    case addu | and | nor | or | sllv | slt | sltu | srav | srlv | subu | xor | addiu | andi | ori | slti | sltiu |
        xori | lui | sll | sra | srl | mfhi | mflo | mthi | mtlo | mult | multu | beq | bne | bgez | bgtz | blez |
        bltz | bgezal | bltzal | jal | j | jalr | jr | syscall | res | unimp => cases h
    case add | sub | addi | divu =>
      simp only [Instruction.execute] at h
      split at h <;> cases h
    case div =>
      simp only [Instruction.execute] at h
      split at h
      · cases h
      · split at h
        next htrap => exact ⟨rfl, htrap⟩
        · cases h
    case lb | lbu | lwr | lwl => exact absurd h load_ne_hostTrap
    case lh | lhu | lw => exact absurd h loadAligned_ne_hostTrap
    case sb | sh | sw => exact absurd h store_ne_hostTrap
    case swr | swl => exact absurd h storePart_ne_hostTrap
  · rintro ⟨hop, hrs, hrt⟩
    unfold Instruction.execute
    rw [hop, hrs, hrt]
    rfl

theorem finish_hostTrap_iff {e : Executed} : finish e = .hostTrap ↔ e = .hostTrap := by
  constructor
  · intro h
    cases e with
    | completed p => cases h
    | raised which badVAddr m => cases h
    | hostTrap => rfl
  · rintro rfl
    rfl

/-- The programs that stop the simulator. -/
theorem oneInstruction_hostTrap_iff : m.oneInstruction = .hostTrap ↔
    ∃ i, m.Fetches i ∧ i.opCode = .div ∧ m.registers (general i.rs) = signBit ∧ m.registers (general i.rt) = -1 := by
  constructor
  · intro h
    unfold oneInstruction at h
    simp only at h
    split at h
    · cases h
    next raw n hread =>
      obtain ⟨hop, hrs, hrt⟩ := execute_hostTrap_iff.mp (finish_hostTrap_iff.mp h)
      rw [(readMem_sameState hread).registers] at hrs hrt
      exact ⟨_, ⟨raw, n, hread, rfl⟩, hop, hrs, hrt⟩
  · rintro ⟨i, hfetch, hop, hrs, hrt⟩
    obtain ⟨n, hsame, hone⟩ := oneInstruction_of_fetches hfetch
    rw [hone, finish_hostTrap_iff, execute_hostTrap_iff, hsame.registers]
    exact ⟨hop, hrs, hrt⟩

end Traps

/-- What the instruction leaves when the divisor is not 0. -/
def LeavesQuotient (signedArith : Bool) (i : Instruction) (m : Machine) : Prop :=
  ∃ p, i.execute m = .completed p ∧ Divided signedArith (m.registers (general i.rs)) (m.registers (general i.rt))
    (p.machine.registers loReg) (p.machine.registers hiReg)

theorem leavesQuotient_div (hop : i.opCode = .div) (hrt : m.registers (general i.rt) ≠ 0)
    (hfits : ¬(m.registers (general i.rs) = signBit ∧ m.registers (general i.rt) = -1)) :
    LeavesQuotient true i m := by
  unfold LeavesQuotient Instruction.execute
  rw [hop]
  dsimp only
  rw [if_neg hrt, if_neg hfits]
  exact ⟨_, rfl, divided_signed hrt hfits⟩

theorem leavesQuotient_divu (hop : i.opCode = .divu) (hrt : m.registers (general i.rt) ≠ 0) :
    LeavesQuotient false i m := by
  unfold LeavesQuotient Instruction.execute
  rw [hop]
  dsimp only
  rw [if_neg hrt]
  exact ⟨_, rfl, divided_unsigned hrt⟩

/-- `DIVU` is right, and `DIV` is but for the quotient 2147483648, which lets a program stop the simulator. -/
theorem divisions_right_iff (m : Machine) :
    (∀ (signedArith : Bool) (i : Instruction), i.opCode = (if signedArith then OpCode.div else OpCode.divu) →
      (i.execute m ≠ .hostTrap ∧ (m.registers (general i.rt) ≠ 0 → LeavesQuotient signedArith i m) ↔
        ¬(signedArith = true ∧ m.registers (general i.rs) = signBit ∧ m.registers (general i.rt) = -1))) ∧
    (m.oneInstruction ≠ .hostTrap ↔ ¬∃ i, m.Fetches i ∧ i.opCode = .div ∧
      m.registers (general i.rs) = signBit ∧ m.registers (general i.rt) = -1) := by
  refine ⟨?_, not_congr oneInstruction_hostTrap_iff⟩
  intro signedArith i hop
  rw [Ne, execute_hostTrap_iff, hop]
  cases signedArith with
  | false =>
      refine iff_of_true ⟨?_, leavesQuotient_divu hop⟩ ?_
      · rintro ⟨h, -⟩
        cases h
      · rintro ⟨h, -⟩
        cases h
  | true =>
      constructor
      · rintro ⟨hsafe, -⟩ ⟨-, hrs, hrt⟩
        exact hsafe ⟨rfl, hrs, hrt⟩
      · intro hfits
        have hpair := fun h => hfits ⟨rfl, h⟩
        exact ⟨fun h => hpair h.2, fun hrt => leavesQuotient_div hop hrt hpair⟩

/-- A division of the most negative value by -1. -/
def dividingMachine : Machine where
  registers x := if x = 1 then 0x80000000 else if x = 2 then 0xffffffff else if x = nextPCReg then 4 else 0
  mainMemory := .ofList [0x1a, 0, 0x22, 0] 0
  translation := .pageTable [⟨0, 0, true, false, false, false⟩]

theorem divide_stops_simulator : dividingMachine.Fetches ⟨.div, 1, 2, 0, 0⟩ ∧
    dividingMachine.registers (general 2) ≠ 0 ∧ dividingMachine.oneInstruction = .hostTrap :=
  ⟨⟨_, _, rfl, rfl⟩, by decide, rfl⟩

theorem divisions_right_minus_seven :
    LeavesQuotient true ⟨.div, 1, 2, 0, 0⟩ ⟨fun x => if x = 1 then -7 else 2, fun _ => 0, .tlb []⟩ := by
  have hright := (divisions_right_iff ⟨fun x => if x = 1 then -7 else 2, fun _ => 0, .tlb []⟩).1 true
    ⟨.div, 1, 2, 0, 0⟩ rfl
  exact (hright.mpr (by decide)).2 (by decide)

end Machine

end Nachos

import Nachos.LoadDelay

/-! User programs as the words in their memory: the threads of a program run `Machine::OneInstruction`, and an
instruction that raises an exception enters the kernel. The index of the register that a delayed load writes is
itself kept in a register; it always is that of a general register. -/

namespace Nachos

open Interleaving

namespace Machine

/-- The registers with which `OneInstruction` calls `DelayedLoad`, at its end or in `RaiseException`. -/
def delayedLoadCall (m : Machine) : Option Registers :=
  let pc := m.registers pcReg
  match m.readMem pc .word with
  | .error _ => some (writeRegister m.registers badVAddrReg pc)
  | .ok (raw, m) =>
      match (Instruction.decode raw).execute m with
      | .completed p => some p.machine.registers
      | .raised _ badVAddr m => some (writeRegister m.registers badVAddrReg badVAddr)
      | .hostTrap => none

variable {m : Machine}

theorem general_write {r : Registers} (h : LoadsGeneral r) {x : Fin numTotalRegs} (hx : x ≠ loadReg) (value : Word) :
    LoadsGeneral (writeRegister r x value) := by
  have hkeep : writeRegister r x value loadReg = r loadReg := Function.update_of_ne hx.symm _ _
  unfold LoadsGeneral
  rw [hkeep]
  exact h

end Machine

/-- The pending load still goes to a general register when the switch of `OneInstruction` is left. -/
def Executed.General : Executed → Prop
  | .completed p => LoadsGeneral p.machine.registers
  | .raised _ _ m => LoadsGeneral m.registers
  | .hostTrap => True

namespace Machine

variable {m : Machine} (h : LoadsGeneral m.registers)

include h

theorem general_assign (dest : BitVec 5) (value : Word) : (m.assign dest value).General :=
  general_write h (general_ne dest (by decide)) value

theorem general_link (dest : BitVec 5) : LoadsGeneral (m.link dest).registers :=
  general_write h (general_ne dest (by decide)) _

/-- `HI` and `LO` are written. -/
theorem general_pair {x y : Fin numTotalRegs} (hx : x ≠ loadReg) (hy : y ≠ loadReg) (u v : Word) :
    ((m.write x u).write y v).proceed.General := general_write (general_write h hx u) hy v

theorem general_load (addr : Word) (size : Size) (dest : BitVec 5) (loaded : Word → Word) :
    (m.load addr size dest loaded).General := by
  unfold load readMem
  cases m.translation.translate addr size false with
  | error e => exact h
  | ok found => exact h

theorem general_loadAligned (addr mask : Word) (size : Size) (dest : BitVec 5) (loaded : Word → Word) :
    (m.loadAligned addr mask size dest loaded).General := by
  unfold loadAligned
  split
  · exact h
  · exact general_load h addr size dest loaded

theorem general_store (addr : Word) (size : Size) (value : Word) : (m.store addr size value).General := by
  unfold store writeMem
  cases m.translation.translate addr size true with
  | error e => exact h
  | ok found => exact h

theorem general_storePart (addr : Word) (merged : Word → Word) : (m.storePart addr merged).General := by
  unfold storePart readMem
  cases m.translation.translate addr .word false with
  | error e => exact h
  | ok found => exact general_store (m := { m with translation := found.2 }) h addr .word _

end Machine

/-- No instruction writes the index of the pending load. -/
theorem Instruction.execute_general (i : Instruction) {m : Machine} (h : LoadsGeneral m.registers) :
    (i.execute m).General := by
  obtain ⟨opCode, rs, rt, rd, extra⟩ := i
  cases opCode
  case addiu | addu | and | andi | lui | mfhi | mflo | nor | or | ori | sll | sllv | slt | slti | sltiu | sltu | sra
      | srav | srl | srlv | subu | xor | xori => exact Machine.general_assign h _ _
  case add | addi | sub =>
    simp only [execute]
    split
    · exact h
    · exact Machine.general_assign h _ _
  case beq | bgez | bgtz | blez | bltz | bne | j | jr => exact h
  case bgezal | bltzal | jal | jalr => exact Machine.general_link h _
  case div =>
    simp only [execute]
    split
    · exact Machine.general_pair h (by decide) (by decide) _ _
    · split
      · trivial
      · exact Machine.general_pair h (by decide) (by decide) _ _
  case divu =>
    simp only [execute]
    split
    · exact Machine.general_pair h (by decide) (by decide) _ _
    · exact Machine.general_pair h (by decide) (by decide) _ _
  case mult | multu => exact Machine.general_pair h (by decide) (by decide) _ _
  case mthi | mtlo => exact Machine.general_write h (by decide) _
  case lb | lbu | lwr | lwl => exact Machine.general_load h _ _ _ _
  case lh | lhu | lw => exact Machine.general_loadAligned h _ _ _ _ _
  case sb | sh | sw => exact Machine.general_store h _ _ _
  case swr | swl => exact Machine.general_storePart h _ _
  case syscall | res | unimp => exact h

/-- What `OneInstruction` has made of the registers `r` with which it called `DelayedLoad`. -/
def Outcome.AfterDelayedLoad (r : Registers) : Outcome → Prop
  | .completed m => ∃ (n : Machine) (nextReg nextValue pcAfter : Word), n.registers = r ∧
      m = (n.delayedLoad nextReg nextValue).advance pcAfter
  | .exception _ m => m.registers = delayedLoad 0 0 r
  | .hostTrap => False

/-- `OneInstruction` goes on from the call of `DelayedLoad`, or the host traps before it. -/
theorem Machine.oneInstruction_delayedLoadCall (m : Machine) :
    (∀ r, m.delayedLoadCall = some r → m.oneInstruction.AfterDelayedLoad r) ∧
      (m.delayedLoadCall = none → m.oneInstruction = .hostTrap) := by
  unfold delayedLoadCall oneInstruction
  simp only
  cases m.readMem (m.registers pcReg) .word with
  | error e =>
      refine ⟨?_, fun h => by cases h⟩
      rintro r ⟨⟩
      rfl
  | ok found =>
      obtain ⟨raw, n⟩ := found
      simp only
      cases (Instruction.decode raw).execute n with
      | completed p =>
          refine ⟨?_, fun h => by cases h⟩
          rintro r ⟨⟩
          exact ⟨p.machine, _, _, _, rfl, rfl⟩
      | raised which badVAddr n =>
          refine ⟨?_, fun h => by cases h⟩
          rintro r ⟨⟩
          rfl
      | hostTrap => exact ⟨fun r h => (by cases h), fun _ => rfl⟩

theorem Machine.general_delayedLoadCall {m : Machine} (h : LoadsGeneral m.registers) {r : Registers}
    (hr : m.delayedLoadCall = some r) : LoadsGeneral r := by
  unfold delayedLoadCall readMem at hr
  simp only at hr
  cases htranslate : m.translation.translate (m.registers pcReg) .word false with
  | error e =>
      rw [htranslate] at hr
      cases hr
      exact general_write h (by decide) _
  | ok found =>
      rw [htranslate] at hr
      simp only at hr
      have hgeneral := (Instruction.decode (fetch m.mainMemory found.1.toNat .word)).execute_general
        (m := { m with translation := found.2 }) h
      split at hr
      next p hexec =>
        cases hr
        rw [hexec] at hgeneral
        exact hgeneral
      next which badVAddr n hexec =>
        cases hr
        rw [hexec] at hgeneral
        exact general_write hgeneral (by decide) _
      next => cases hr

/-- The machine on which a thread runs. The use and dirty bits, which nothing reads, are not kept. -/
def machineOf (space : AddrSpace) (world : World) (r : Registers) : Machine := ⟨r, world.memory, pageTableOf space.numPages⟩

/-- The tick after an instruction. If an interrupt is due then `CheckIfDue` completes the pending load first. -/
def afterInstruction (due : Bool) : Program Sem World Registers Observation :=
  if due then .act (fun _ world r => (world, delayedLoad 0 0 r, [])) fun _ _ _ => .tick .ret else .tick .ret

/-- The words on which a turn of the loop of `Machine::Run` depends besides the machine: whether an interrupt is due
at the tick, and what a system call finds in its strings and buffers. -/
structure MachineCall where
  due : Bool
  sscanf : List Byte → Word
  fresh : Nat → Nat → Byte

/-- A turn of the loop of `Machine::Run`. -/
def runInstruction (space : AddrSpace) (c : MachineCall) : Program Sem World Registers Observation :=
  .act (fun _ world r =>
      match (machineOf space world r).oneInstruction with
      | .completed m => ({ world with memory := m.mainMemory }, m.registers, [])
      | .exception _ m => ({ world with memory := m.mainMemory }, m.registers, [.trapped r])
      | .hostTrap => (world, r, []))
    fun _ world r =>
      match (machineOf space world r).oneInstruction with
      | .completed _ => afterInstruction c.due
      | .exception .syscallException m => exceptionHandler space c.sscanf c.fresh m.mainMemory m.registers
      | .exception _ _ => .abort
      | .hostTrap => .abort

/-- Any user program: the memory holds arbitrary words. -/
def machineSystem (space : AddrSpace) (utf8 : Bool) (input : List Byte) (memory : Nat → Byte)
    (garbage : Nat → Word) : ThreadSystem Sem MachineCall ConsoleInterrupt World Registers Observation :=
  { userSystem space utf8 input memory garbage with menu := runInstruction space }

/-- A program that keeps the registers proper up to its end. -/
abbrev KeepsProper (p : Program Sem World Registers Observation) : Prop :=
  ∀ r, ProperRegisters r → p.Returns constructRegisters ProperRegisters r

theorem startRegisters_proper (space : AddrSpace) (f arg fExit : Word) (idx : Int) :
    ProperRegisters (startRegisters space f arg fExit idx) :=
  ⟨rfl, loadsGeneral_of_zero rfl⟩

theorem keepsProper_closed : Closed KeepsProper where
  semP hk := hk
  semV hk := hk
  act := by
    intro f k hf hshown hk r hr t world
    rw [hf]
    exact hk t world r r hr
  newThread hk := fun r hr u => hk u r hr
  start := by
    intro u space f arg fExit idx k hk r hr
    exact ⟨fun garbage t world => startRegisters_proper space f arg fExit idx, hk r hr⟩
  returnToUser := by
    intro result r hr t world
    exact Machine.updatePC_proper result hr
  finish _ _ := trivial
  halt _ _ := trivial
  abort _ _ := trivial

variable {space : AddrSpace} {utf8 : Bool} {input : List Byte} {memory : Nat → Byte} {garbage : Nat → Word}

theorem keepsProper_afterInstruction (due : Bool) : KeepsProper (afterInstruction due) := by
  intro r hr
  cases due with
  | true => exact fun _ _ => Machine.delayedLoad_proper 0 0 r
  | false => exact hr

theorem keepsProper_runInstruction (c : MachineCall) : KeepsProper (runInstruction space c) := by
  intro r hr t world
  simp only
  cases hone : (machineOf space world r).oneInstruction with
  | completed m => exact keepsProper_afterInstruction c.due _ (Machine.oneInstruction_proper hone)
  | exception which m =>
      have hproper := Machine.oneInstruction_exception_proper hone
      cases which with
      | syscallException => exact keepsProper_closed.exceptionHandler space c.sscanf c.fresh _ _ _ hproper
      | _ => trivial
  | hostTrap => trivial

theorem keeps_runInstruction (c : MachineCall) : Keeps (runInstruction space c) := by
  have hnothing : ∀ o ∈ ([] : List Observation), TrapsGeneral o := fun o ho => by cases ho
  intro t world r hr
  simp only
  cases hone : (machineOf space world r).oneInstruction with
  | completed m =>
      refine ⟨(Machine.oneInstruction_proper hone).general, hnothing, ?_⟩
      cases c.due with
      | true => exact fun _ _ r _ => ⟨loadsGeneral_of_zero rfl, hnothing, trivial⟩
      | false => trivial
  | exception which m =>
      have hproper := Machine.oneInstruction_exception_proper hone
      refine ⟨hproper.general, ?_, ?_⟩
      · intro o ho
        rw [List.mem_singleton.mp ho]
        exact hr
      · cases which with
        | syscallException => exact keeps_closed.exceptionHandler space c.sscanf c.fresh _ _
        | _ => trivial
  | hostTrap => exact ⟨hr, hnothing, trivial⟩

theorem initRegisters_proper (space : AddrSpace) : ProperRegisters space.initRegisters :=
  ⟨rfl, loadsGeneral_of_zero rfl⟩

theorem Kont.code_isSome {kont : Kont Sem World Registers Observation} (h : kont ≠ .finish) :
    ∃ code, kont.code = some code := by
  cases kont with
  | finish => exact absurd rfl h
  | _ => exact ⟨_, rfl⟩

/-- A turn of the loop of `Machine::Run` begins where the last one has ended. -/
theorem Kernel.step_call {κ ι : Type} {system : ThreadSystem Sem κ ι World Registers Observation}
    {s : Kernel Sem κ World Registers Observation} {c : κ}
    {r : Except Fault (Kernel Sem κ World Registers Observation)} (h : s.step system (.call c) = some r) :
    ∃ th, s.thread s.currentThread = some th ∧ th.kont = .run .ret := by
  unfold Kernel.step at h
  split at h
  · cases h
  · split at h
    · cases h
    next th hth =>
      refine ⟨th, hth, ?_⟩
      split at h
      · cases h
      · cases hkont : th.kont with
        | run p =>
            rw [hkont] at h
            cases p with
            | ret => rfl
            | _ => cases h
        | _ =>
            rw [hkont] at h
            cases h

namespace Kernel

variable {Sem κ ι σ ρ ω : Type} [DecidableEq Sem] {s t : Kernel Sem κ σ ρ ω} {system : ThreadSystem Sem κ ι σ ρ ω}

theorem semaphoreV_machine (x : Sem) (caller : Option ThreadId) : (s.semaphoreV x caller).machine = s.machine := by
  cases hqueue : (s.sem x).queue with
  | nil =>
      rw [semaphoreV_nil hqueue]
      rfl
  | cons u rest =>
      rw [semaphoreV_cons hqueue]
      rfl

theorem releaseAll_machine (released : List Sem) : (s.releaseAll released).machine = s.machine := by
  induction released generalizing s with
  | nil => rfl
  | cons x rest ih => rw [releaseAll, ih, semaphoreV_machine]

omit [DecidableEq Sem] in
theorem Switch.machine_of_idling (h : Switch s t) (hidling : t.idling = true) : t.machine = s.machine := by
  cases h with
  | idle => rfl
  | run => cases hidling

/-- A step after which the machine is idle has left the registers alone. -/
theorem Transition.machine_of_idling (h : Transition system s t) (hidling : t.idling = true) :
    t.machine = s.machine := by
  cases h with
  | idleInterrupt i shared released => exact releaseAll_machine released
  | dispatch _ hswitch => exact hswitch.machine_of_idling hidling
  | act th hbusy hcurrent haction =>
      generalize th.kont = kont at haction
      cases haction with
      | interrupt p i shared released => exact releaseAll_machine released
      | preempt p hswitch => exact hswitch.machine_of_idling hidling
      | block x k _ _ hswitch => exact hswitch.machine_of_idling hidling
      | release x k => exact semaphoreV_machine x (some s.currentThread)
      | yield k hswitch => exact hswitch.machine_of_idling hidling
      | act f k => exact absurd (hbusy.symm.trans hidling) (by decide)
      | finish hswitch => exact hswitch.machine_of_idling hidling
      | _ => rfl

end Kernel

theorem reachable_registers_general {s : Kernel Sem MachineCall World Registers Observation}
    (h : (kernel (machineSystem space utf8 input memory garbage) true).Reachable s) {t : ThreadId}
    {th : Thread Sem MachineCall World Registers Observation} (ht : s.thread t = some th) (hkont : th.kont ≠ .finish) :
    LoadsGeneral (s.registersOf t th) := by
  obtain ⟨code, hcode⟩ := Kont.code_isSome hkont
  have hgeneral := reachable_guarantees keeps_runInstruction (fun _ => loadsGeneral_of_zero rfl)
    (initRegisters_proper space).general (Kernel.reachable_abstraction (.inl rfl) h)
  exact (hgeneral.thread t _ (Kernel.abstraction_code ht hcode)).1

/-- The registers of the machine have the index of a general register, also while no thread runs. -/
theorem reachable_machine_general {s : Kernel Sem MachineCall World Registers Observation}
    (h : (kernel (machineSystem space utf8 input memory garbage) true).Reachable s) : LoadsGeneral s.machine := by
  induction h with
  | init hinit =>
      cases hinit
      exact (initRegisters_proper space).general
  | @step s t hs hstep ih =>
      obtain ⟨choice, hchoice⟩ := hstep
      have ht := hs.step ⟨choice, hchoice⟩
      cases hidling : t.idling with
      | true =>
          obtain ⟨-, ⟨t', heq, htransition⟩ | ⟨_, _, -, -, heq, -⟩⟩ := (Kernel.reachable_inv hs).step_cases _ hchoice
          · cases heq
            rw [htransition.machine_of_idling hidling]
            exact ih
          · cases heq
      | false =>
          have hinv := Kernel.reachable_inv ht
          obtain ⟨hnone, -, hkont, -⟩ := hinv.busy hidling
          obtain ⟨kont, hkont⟩ := Option.ne_none_iff_exists'.mp hkont
          obtain ⟨th, hth, rfl⟩ := Option.map_eq_some_iff.mp hkont
          have hgeneral := reachable_registers_general ht hth fun hfinish => by
            rw [hfinish, ← hinv.placed.doomed t.currentThread, hnone] at hkont
            cases hkont
          rwa [Kernel.registersOf, if_pos rfl] at hgeneral

/-- In every run of every user program a delayed load goes to a general register. The index in the registers of the
machine is that of one, as it is in the registers of whatever thread is about to go on; and when `OneInstruction` is
called register 0 is zero besides, and the call of `DelayedLoad` in it finds such an index, too. -/
theorem delayed_loads_general {s : Kernel Sem MachineCall World Registers Observation}
    (h : (kernel (machineSystem space utf8 input memory garbage) true).Reachable s) :
    LoadsGeneral s.machine ∧
    (∀ t th, s.thread t = some th → th.kont ≠ .finish → LoadsGeneral (s.registersOf t th)) ∧
    ∀ c s', s.step (machineSystem space utf8 input memory garbage) (.call c) = some (.ok s') →
      s.machine 0 = 0 ∧ LoadsGeneral s.machine ∧
      ∀ r, (machineOf space s.shared s.machine).delayedLoadCall = some r →
        LoadsGeneral r ∧ (machineOf space s.shared s.machine).oneInstruction.AfterDelayedLoad r := by
  refine ⟨reachable_machine_general h, fun t th ht hkont => reachable_registers_general h ht hkont, ?_⟩
  intro c s' hstep
  obtain ⟨th, hth, hkont⟩ := Kernel.step_call hstep
  have hreturns := reachable_returning (P := ProperRegisters) (fun c r hr => keepsProper_runInstruction c r hr)
    (initRegisters_proper space) (Kernel.reachable_abstraction (.inl rfl) h)
  have hproper : ProperRegisters (s.registersOf s.currentThread th) :=
    hreturns s.currentThread _ (Kernel.abstraction_code hth (congrArg Kont.code hkont))
  rw [Kernel.registersOf, if_pos rfl] at hproper
  refine ⟨hproper.zero, hproper.general, ?_⟩
  intro r hr
  exact ⟨Machine.general_delayedLoadCall hproper.general hr, (Machine.oneInstruction_delayedLoadCall _).1 r hr⟩

/-- A user program that begins with a load of register 8 from address 128. -/
def loadSystem : ThreadSystem Sem MachineCall ConsoleInterrupt World Registers Observation :=
  machineSystem smallSpace false [] (Image.store (fun _ => 0) 128 [0x80, 0, 8, 0x8c]) fun _ => 0

def loadTurn : List (Choice MachineCall ConsoleInterrupt Registers) :=
  [.call ⟨false, fun _ => 0, fun _ _ => 0⟩, .exec, .exec, .resume, .exec]

theorem delayed_loads_general_load :
    ∃ s, Kernel.runChoices loadSystem loadTurn (Kernel.initial loadSystem true) = some s ∧ s.machine loadReg = 8 ∧
      ∀ t th, s.thread t = some th → th.kont ≠ .finish → LoadsGeneral (s.registersOf t th) := by
  obtain ⟨s, hrun, hload⟩ : ∃ s,
      Kernel.runChoices loadSystem loadTurn (Kernel.initial loadSystem true) = some s ∧ s.machine loadReg = 8 :=
    ⟨_, rfl, rfl⟩
  have hinit : (kernel loadSystem true).Reachable (Kernel.initial loadSystem true) := .init rfl
  exact ⟨s, hrun, hload, (delayed_loads_general (Kernel.reachable_runChoices hinit hrun)).2.1⟩

end Nachos

import Nachos.Assertions
import Nachos.Divide
import Nachos.MachineRun

/-! What a user program can do to the kernel. No system call, in any interleaving with others and with the console,
fails an assertion of the scheduler, of the console or of the table of threads; the kernel gives up on a program only
at an instruction that raises another exception or that the host cannot divide, at a system call that it does not
know, and at a string that is not in the program's memory. -/

namespace Nachos

open Interleaving

namespace Kernel

variable {Sem κ ι σ ρ ω : Type} [DecidableEq Sem] {system : ThreadSystem Sem κ ι σ ρ ω} {space : Bool}
  {s : Kernel Sem κ σ ρ ω} {d : Discipline Sem σ ρ ω}

/-- The thread that is about to be started has been constructed and not started. -/
theorem start_justCreated (hgoverns : d.Governs system) (hspace : space = true ∨ Subsingleton ρ)
    (h : (kernel system space).Reachable s) {u : ThreadId} {body k : Program Sem σ ρ ω}
    (hkont : s.kontOf s.currentThread = some (.run (.start u body k))) : s.statusOf u = some .justCreated := by
  obtain ⟨th, hth, hrun⟩ := Option.map_eq_some_iff.mp hkont
  obtain ⟨new, hnew, hcode, -, -⟩ := abstraction_running hth hrun
  obtain ⟨abstract, habstract, hnone⟩ := start_new hgoverns (reachable_abstraction hspace h) hnew hcode
  obtain ⟨started, hstarted, habstract⟩ := Option.bind_eq_some_iff.mp habstract
  obtain ⟨code, hcode, rfl⟩ := Option.map_eq_some_iff.mp habstract
  have hnone : code = none := hnone
  have hfits := (reachable_inv h).placed.fits u started.status started.kont (by rw [statusOf, hstarted]; rfl)
    (by rw [kontOf, hstarted]; rfl)
  rw [statusOf, hstarted]
  cases hkont : started.kont with
  | unstarted =>
      rw [hkont] at hfits
      cases hstatus : started.status with
      | justCreated => exact congrArg some hstatus
      | _ =>
          rw [hstatus] at hfits
          exact hfits.elim
  | _ =>
      rw [hkont, hnone] at hcode
      cases hcode

/-- In a system that heeds a discipline no assertion of the kernel fails, and those of the threads' own code fail only
for the reasons of the discipline. -/
theorem fault_refused (hgoverns : d.Governs system) (hspace : space = true ∨ Subsingleton ρ)
    (h : (kernel system space).Reachable s) {choice : Choice κ ι ρ} {fault : Fault}
    (hstep : s.step system choice = some (.error fault)) :
    fault = .client ∧ ∃ shown, (∀ o ∈ shown, Event.observed s.currentThread o ∈ sinceCall s.currentThread s.log) ∧
      d.Refuses s.shared s.machine shown := by
  have hinv := reachable_inv h
  have habstract := reachable_abstraction hspace h
  obtain ⟨-, ⟨t, heq, -⟩ | ⟨kont, fault', -, hkont, heq, hmisuse⟩⟩ := hinv.step_cases system hstep
  · cases heq
  · cases heq
    cases hmisuse with
    | client =>
        refine ⟨rfl, ?_⟩
        obtain ⟨th, hth, hkont⟩ := Option.map_eq_some_iff.mp hkont
        obtain ⟨new, hnew, hcode, -, hpriv⟩ := abstraction_running hth hkont
        obtain ⟨shown, before, hlog, hrefuses⟩ := abort_refused hgoverns habstract hnew hcode
        refine ⟨shown, ?_, ?_⟩
        · intro o ho
          rw [← sinceCall_abstraction, hlog, sinceCall_append, foldl_since_observed]
          exact List.mem_append_right _ (List.mem_map_of_mem ho)
        · rw [hpriv, registersOf, if_pos rfl] at hrefuses
          exact hrefuses
    | dangling u body k hu =>
        have hnew := start_justCreated hgoverns hspace h hkont
        rw [statusOf, hu] at hnew
        cases hnew
    | restarted u body k new hu hnew =>
        have hstatus := start_justCreated hgoverns hspace h hkont
        rw [statusOf, hu] at hstatus
        exact absurd (Option.some.inj hstatus) hnew

end Kernel

/-- The numbers of the system calls that `ExceptionHandler` knows. -/
def systemCalls : List Nat := [0, 1, 11, 12, 13, 14, 15, 16, 17, 18]

/-- Why the kernel gives up on a thread with these registers, which has just shown these things: an exception other
than a system call; a division that traps on the host; a system call with an unknown number, or with a string that has
no end in memory; and `SC_GetString` with a buffer that is not all in memory. -/
inductive Refusal (space : AddrSpace) (world : World) (r : Registers) : List Observation → Prop where
  | exception {trapped : Registers} {which : ExceptionType} {m : Machine}
      (hone : (machineOf space world trapped).oneInstruction = .exception which m) (hregisters : m.registers = r)
      (hwhich : which ≠ .syscallException) : Refusal space world r [.trapped trapped]
  | division {i : Instruction} (hfetch : (machineOf space world r).Fetches i) (hop : i.opCode = .div)
      (hrs : r (general i.rs) = signBit) (hrt : r (general i.rt) = -1) : Refusal space world r []
  | unknown {trapped : Registers} {m : Machine}
      (hone : (machineOf space world trapped).oneInstruction = .exception .syscallException m)
      (hregisters : m.registers = r) (hcode : (r 2).toNat ∉ systemCalls) : Refusal space world r [.trapped trapped]
  | unreadable {trapped : Registers} {m : Machine}
      (hone : (machineOf space world trapped).oneInstruction = .exception .syscallException m)
      (hregisters : m.registers = r) (hcode : (r 2).toNat = 12)
      (hstring : ∀ b ∈ space.readableFrom world.memory (r 4), b ≠ 0) : Refusal space world r [.trapped trapped]
  | unwritable {i : Nat} (hcode : (r 2).toNat = 14) (hi : i < maxStringSize)
      (hpage : space.valid (r 4 + BitVec.ofNat 32 i).toNat = false) : Refusal space world r []

/-- What holds of the console and of the table between any two steps. -/
structure WorldOk (world : World) : Prop where
  busy : world.console.putBusy = true → 0 < world.console.writesPending
  gThreads : world.table.gThreads.length = maxThreads
  stackMap : world.table.stackMap.numBits = maxThreads

/-- The console is used under its write lock. -/
def userDiscipline (space : AddrSpace) : Discipline Sem World Registers Observation where
  lock := .writeLock
  done := .writeDone
  distinct := by decide
  pending world := world.console.writesPending
  Inv := WorldOk
  Refuses := Refusal space

section Strings

variable {space : AddrSpace}

theorem StringCopy.loop_none {fresh : Nat → Nat → Byte} {bytes : List Byte} {c : StringCopy}
    (h : loop fresh bytes c = none) : ∀ b ∈ bytes, b ≠ 0 := by
  induction bytes generalizing c with
  | nil =>
      intro b hb
      cases hb
  | cons b rest ih =>
      rw [loop] at h
      split at h
      · cases h
      · rename_i hb
        intro a ha
        rcases List.mem_cons.mp ha with rfl | ha
        · exact hb
        · exact ih h a ha

theorem length_upToEnd_le (string : List Byte) : (upToEnd string).length ≤ string.length := by
  induction string with
  | nil => exact le_refl 0
  | cons b rest ih =>
      rw [upToEnd]
      split
      · simp
      · simpa using ih

/-- A write that fails meets an address that is not in memory. -/
theorem writeBytes_none {bytes : List Byte} {address : Word} {memory : Nat → Byte}
    (h : writeBytes space bytes address memory = none) :
    ∃ i < bytes.length, space.valid (address + BitVec.ofNat 32 i).toNat = false := by
  induction bytes generalizing address memory with
  | nil => cases h
  | cons b rest ih =>
      rw [writeBytes] at h
      split at h
      · obtain ⟨i, hi, hinvalid⟩ := ih h
        refine ⟨i + 1, by simpa using hi, ?_⟩
        rw [show address + BitVec.ofNat 32 (i + 1) = address + 1 + BitVec.ofNat 32 i by
          rw [BitVec.add_assoc, BitVec.ofNat_add, BitVec.add_comm (BitVec.ofNat 32 i)]; rfl]
        exact hinvalid
      · rename_i hinvalid
        refine ⟨0, Nat.zero_lt_succ _, ?_⟩
        simpa using hinvalid

theorem copyStringToMachine_none {string : List Byte} {address : Word} {size : Nat} {memory : Nat → Byte}
    (h : copyStringToMachine space string address size memory = none) :
    ∃ i < size, space.valid (address + BitVec.ofNat 32 i).toNat = false := by
  obtain ⟨i, hi, hinvalid⟩ := writeBytes_none h
  refine ⟨i, lt_of_lt_of_le hi ?_, hinvalid⟩
  exact (length_upToEnd_le _).trans (List.length_take_le _ _)

end Strings

section Table

variable {world : World} {table : ThreadTable}

theorem WorldOk.withTable (h : WorldOk world) (hgThreads : table.gThreads.length = maxThreads)
    (hstackMap : table.stackMap.numBits = maxThreads) : WorldOk { world with table := table } :=
  ⟨h.busy, hgThreads, hstackMap⟩

theorem WorldOk.findStack (h : WorldOk world) : WorldOk { world with table := world.table.findStack.2 } := by
  refine h.withTable h.gThreads ?_
  show world.table.stackMap.find.2.numBits = maxThreads
  rcases world.table.stackMap.find_spec with ⟨heq, -⟩ | ⟨j, -, -, heq⟩
  · rw [heq]
    exact h.stackMap
  · rw [heq]
    exact h.stackMap

theorem WorldOk.enter (h : WorldOk world) (idx : Int) (t : ThreadId) :
    WorldOk { world with table := world.table.enter idx t } :=
  h.withTable ((List.length_set ..).trans h.gThreads) h.stackMap

/-- The assertion of `BitMap::Clear` in `do_ThreadExit` holds: the index is that of a slot. -/
theorem WorldOk.leave (h : WorldOk world) (t : ThreadId) :
    ∃ left, world.table.leave t = some left ∧ WorldOk { world with table := left } := by
  unfold ThreadTable.leave ThreadTable.getStackIdFromThread
  cases hidx : world.table.gThreads.idxOf? t with
  | none => exact ⟨_, rfl, h.withTable h.gThreads h.stackMap⟩
  | some i =>
      have hi : i < maxThreads := by
        rw [← h.gThreads]
        exact (List.idxOf?_eq_some_iff.mp hidx).1
      have hclear : world.table.stackMap.clear i = some (world.table.stackMap.clearBit i) := by
        unfold BitMap.clear
        rw [if_pos ⟨Int.natCast_nonneg i, by rw [h.stackMap]; exact_mod_cast hi⟩]
        rfl
      simp only
      rw [if_pos (Int.natCast_nonneg i), hclear]
      exact ⟨_, rfl, h.withTable ((List.length_set ..).trans h.gThreads) h.stackMap⟩

end Table

section Programs

variable {space : AddrSpace} {r : Registers} {stage : DeviceStage} {k : Program Sem World Registers Observation}

/-- A change of the world that leaves the console alone. -/
theorem heeds_update {β : Type} {created : Option ThreadId} {f : ThreadId → World → World × β}
    {k : β → Program Sem World Registers Observation}
    (hf : ∀ t world, WorldOk world → WorldOk (f t world).1 ∧ (f t world).1.console = world.console)
    (hk : ∀ b, (k b).Heeds (userDiscipline space) stage created r) :
    (update f k).Heeds (userDiscipline space) stage created r := by
  intro t world hok _
  obtain ⟨hok', hconsole⟩ := hf t world hok
  exact ⟨hok', stage, .stays (congrArg Console.writesPending hconsole), .inr (hk _)⟩

theorem heeds_returnToUser (result : Option Word) :
    (returnToUser result).Heeds (userDiscipline space) .outside none r := by
  intro t world hok _
  exact ⟨hok, .outside, .stays rfl, .inr ⟨rfl, rfl, rfl⟩⟩

/-- The assertion of `Console::PutChar` holds for the thread that has the write lock. -/
theorem heeds_consolePutChar (hk : k.Heeds (userDiscipline space) .waiting none r) (ch : Word) :
    (consolePutChar k ch).Heeds (userDiscipline space) .inside none r := by
  intro t world hok hquiet
  have hpending : world.console.writesPending = 0 := hquiet rfl
  have hbusy : world.console.putBusy = false := by
    cases h : world.console.putBusy with
    | false => rfl
    | true =>
        have := hok.busy h
        omega
  simp only [hbusy, Bool.false_eq_true, if_false]
  refine ⟨⟨fun _ => Nat.succ_pos _, hok.gThreads, hok.stackMap⟩, .waiting, .requests rfl, .inr hk⟩

theorem heeds_synchPutChar (hk : k.Heeds (userDiscipline space) .outside none r) (ch : Word) :
    (synchPutChar k ch).Heeds (userDiscipline space) .outside none r := by
  refine heeds_lock (d := userDiscipline space) (heeds_consolePutChar ?_ ch)
  exact heeds_done (d := userDiscipline space) (heeds_unlock (d := userDiscipline space) hk)

theorem heeds_putStringLoop (hk : k.Heeds (userDiscipline space) .outside none r) (string : List Byte) :
    (putStringLoop k string).Heeds (userDiscipline space) .inside none r := by
  induction string with
  | nil => exact heeds_unlock (d := userDiscipline space) hk
  | cons ch rest ih =>
      rw [putStringLoop]
      split
      · exact heeds_unlock (d := userDiscipline space) hk
      · exact heeds_consolePutChar (heeds_done (d := userDiscipline space) ih) _

theorem heeds_synchPutString (hk : k.Heeds (userDiscipline space) .outside none r) (string : List Byte) :
    (synchPutString k string).Heeds (userDiscipline space) .outside none r :=
  heeds_lock (d := userDiscipline space) (heeds_putStringLoop hk string)

theorem heeds_other_semP {x : Sem} (hlock : x ≠ .writeLock) (hdone : x ≠ .writeDone)
    (hk : k.Heeds (userDiscipline space) stage none r) :
    (Program.semP x k).Heeds (userDiscipline space) stage none r := heeds_semP hlock hdone hk

theorem heeds_other_semV {x : Sem} (hlock : x ≠ .writeLock) (hdone : x ≠ .writeDone)
    (hk : k.Heeds (userDiscipline space) stage none r) :
    (Program.semV x k).Heeds (userDiscipline space) stage none r := heeds_semV hlock hdone hk

theorem heeds_consoleGetChar {kc : Word → Program Sem World Registers Observation}
    (hkc : ∀ c, (kc c).Heeds (userDiscipline space) stage none r) :
    (consoleGetChar kc).Heeds (userDiscipline space) stage none r := by
  intro t world hok _
  exact ⟨⟨hok.busy, hok.gThreads, hok.stackMap⟩, stage, .stays rfl, .inr (hkc _)⟩

theorem heeds_synchGetChar {kc : Word → Program Sem World Registers Observation}
    (hkc : ∀ c, (kc c).Heeds (userDiscipline space) .outside none r) :
    (synchGetChar kc).Heeds (userDiscipline space) .outside none r := by
  refine heeds_other_semP (by decide) (by decide) (heeds_other_semP (by decide) (by decide) ?_)
  exact heeds_consoleGetChar fun c => heeds_other_semV (by decide) (by decide) (hkc c)

theorem heeds_getStringLoop {ks : List Byte → Program Sem World Registers Observation}
    (hks : ∀ string, (ks string).Heeds (userDiscipline space) .outside none r) (n : Nat) (stored : List Byte) :
    (getStringLoop ks n stored).Heeds (userDiscipline space) .outside none r := by
  induction n generalizing stored with
  | zero => exact heeds_other_semV (by decide) (by decide) (hks stored)
  | succ n ih =>
      cases n with
      | zero => exact heeds_other_semV (by decide) (by decide) (hks stored)
      | succ n =>
          refine heeds_other_semP (by decide) (by decide) (heeds_consoleGetChar ?_)
          intro c
          show Program.Heeds _ _ _ _ (if _ then _ else _)
          split
          · exact heeds_other_semV (by decide) (by decide) (hks _)
          · exact ih _

theorem heeds_synchGetString {ks : List Byte → Program Sem World Registers Observation}
    (hks : ∀ string, (ks string).Heeds (userDiscipline space) .outside none r) (n : Int) :
    (synchGetString ks n).Heeds (userDiscipline space) .outside none r :=
  heeds_other_semP (by decide) (by decide) (heeds_getStringLoop hks _ _)

/-- The end of `SC_GetString` fails only at a buffer that is not all in memory. -/
theorem heeds_storeString (hcode : (r 2).toNat = 14) (string : List Byte) :
    (storeString space (r 4) string).Heeds (userDiscipline space) .outside none r := by
  intro t world hok _
  cases hcopy : copyStringToMachine space (string ++ [0]) (r 4) maxStringSize world.memory with
  | some memory =>
      simp only [hcopy, if_true]
      exact ⟨⟨hok.busy, hok.gThreads, hok.stackMap⟩, .outside, .stays rfl, .inr (heeds_returnToUser none)⟩
  | none =>
      obtain ⟨i, hi, hinvalid⟩ := copyStringToMachine_none hcopy
      simp only [hcopy, Bool.false_eq_true, if_false]
      exact ⟨hok, .outside, .stays rfl, .inl ⟨trivial, .unwritable hcode hi hinvalid⟩⟩

theorem heeds_startUserThread (f arg fExit : Word) (idx : Int) (r : Registers) :
    (startUserThread space f arg fExit idx).Heeds (userDiscipline space) .outside none r := by
  intro t world hok _
  exact ⟨hok, .outside, .stays rfl, .inr ⟨rfl, rfl⟩⟩

theorem heeds_doThreadCreate (f arg fExit : Word) {kw : Word → Program Sem World Registers Observation}
    (hkw : ∀ result, (kw result).Heeds (userDiscipline space) .outside none r) :
    (doThreadCreate space f arg fExit kw).Heeds (userDiscipline space) .outside none r := by
  have hrelease : ∀ result, (Program.semV Sem.threadLock (kw result)).Heeds (userDiscipline space) .outside none r :=
    fun result => heeds_other_semV (by decide) (by decide) (hkw result)
  refine heeds_other_semP (by decide) (by decide) ?_
  refine heeds_update (fun t world hok => ⟨hok.findStack, rfl⟩) ?_
  intro idx
  unfold createWithStack
  split
  · refine ⟨rfl, ?_⟩
    intro u
    cases u with
    | none =>
        intro t world hok _
        exact ⟨hok, .outside, .stays rfl, .inr (hrelease _)⟩
    | some u =>
        refine heeds_update (fun t world hok => ⟨hok.enter idx u, rfl⟩) ?_
        intro _
        exact ⟨rfl, heeds_startUserThread f arg fExit idx, hrelease 0⟩
  · exact hrelease _

theorem heeds_doThreadExit : doThreadExit.Heeds (userDiscipline space) .outside none r := by
  refine heeds_other_semP (by decide) (by decide) ?_
  intro t world hok _
  obtain ⟨left, hleft, hok'⟩ := hok.leave t
  simp only [hleft, Option.getD_some, Option.isSome_some, if_true]
  refine ⟨hok', .outside, .stays rfl, .inr (heeds_other_semV (by decide) (by decide) ?_)⟩
  intro u world' hok'' _
  refine ⟨hok'', .outside, .stays rfl, .inr ?_⟩
  show Program.Heeds _ _ _ _ (if _ then _ else _)
  split
  · exact ⟨rfl, rfl⟩
  · trivial

/-- `ExceptionHandler` fails at once, or the system call heeds the discipline. -/
theorem exceptionHandler_heeds (sscanf : List Byte → Word) (fresh : Nat → Nat → Byte) (memory : Nat → Byte)
    (r : Registers) :
    (exceptionHandler space sscanf fresh memory r = .abort ∧ ((r 2).toNat ∉ systemCalls ∨
      (r 2).toNat = 12 ∧ ∀ b ∈ space.readableFrom memory (r 4), b ≠ 0)) ∨
    (exceptionHandler space sscanf fresh memory r).Heeds (userDiscipline space) .outside none r := by
  have hreturn : ∀ result, (returnToUser result).Heeds (userDiscipline space) .outside none r := heeds_returnToUser
  generalize hcode : (r 2).toNat = code
  unfold exceptionHandler
  rw [hcode]
  split
  · exact .inr trivial
  · exact .inr (heeds_synchPutChar (hreturn none) _)
  · split
    · exact .inr (heeds_synchPutString (hreturn none) _)
    · rename_i hcopy
      exact .inl ⟨rfl, .inr ⟨rfl, StringCopy.loop_none hcopy⟩⟩
  · exact .inr trivial
  · exact .inr (heeds_synchGetChar fun c => hreturn _)
  · exact .inr (heeds_synchGetString (heeds_storeString hcode) _)
  · exact .inr (heeds_synchPutString (hreturn none) _)
  · exact .inr (heeds_synchGetString (fun string => hreturn _) _)
  · exact .inr (heeds_doThreadCreate _ _ _ fun result => hreturn _)
  · exact .inr heeds_doThreadExit
  · refine .inl ⟨rfl, .inl ?_⟩
    simp only [systemCalls, List.mem_cons, List.not_mem_nil, or_false]
    grind

theorem heeds_afterInstruction (due : Bool) : (afterInstruction due).Heeds (userDiscipline space) .outside none r := by
  cases due with
  | true =>
      intro t world hok _
      exact ⟨hok, .outside, .stays rfl, .inr ⟨rfl, rfl, rfl⟩⟩
  | false => exact ⟨rfl, rfl, rfl⟩

/-- A turn of the loop of `Machine::Run`. -/
theorem heeds_runInstruction (c : MachineCall) (r : Registers) :
    (runInstruction space c).Heeds (userDiscipline space) .outside none r := by
  intro t world hok _
  have hok' : ∀ memory, WorldOk { world with memory := memory } := fun memory =>
    ⟨hok.busy, hok.gThreads, hok.stackMap⟩
  cases hone : (machineOf space world r).oneInstruction with
  | completed m =>
      simp only [hone]
      exact ⟨hok' _, .outside, .stays rfl, .inr (heeds_afterInstruction c.due)⟩
  | exception which m =>
      obtain ⟨-, -, hmemory, -⟩ := Machine.oneInstruction_exception hone
      have hworld : ({ world with memory := m.mainMemory } : World) = world := by rw [hmemory]; rfl
      simp only [hone, hworld]
      refine ⟨hok, .outside, .stays rfl, ?_⟩
      cases which with
      | syscallException =>
          rcases @exceptionHandler_heeds space c.sscanf c.fresh m.mainMemory m.registers with
            ⟨habort, hunknown | ⟨hcode, hstring⟩⟩ | hheeds
          · exact .inl ⟨habort, .unknown hone rfl hunknown⟩
          · rw [hmemory] at hstring
            exact .inl ⟨habort, .unreadable hone rfl hcode hstring⟩
          · exact .inr hheeds
      | _ => exact .inl ⟨rfl, .exception hone rfl (by decide)⟩
  | hostTrap =>
      obtain ⟨i, hfetch, hop, hrs, hrt⟩ := Machine.oneInstruction_hostTrap_iff.mp hone
      simp only [hone]
      exact ⟨hok, .outside, .stays rfl, .inl ⟨trivial, .division hfetch hop hrs hrt⟩⟩

end Programs

section Reachable

variable {space : AddrSpace} {utf8 : Bool} {input : List Byte} {memory : Nat → Byte} {garbage : Nat → Word}

/-- The handlers of the console leave it as the programs expect it; a finished write is one completion. -/
theorem WorldOk.consoleHandler {i : ConsoleInterrupt} {world world' : World} {released : List Sem}
    (hok : WorldOk world) (hhandler : Nachos.consoleHandler i world = some (world', released)) :
    WorldOk world' ∧ (userDiscipline space).Answers world world' released := by
  cases i with
  | readPoll ready =>
      simp only [Nachos.consoleHandler] at hhandler
      split at hhandler
      · cases hhandler
        have hwrite := Console.checkCharAvail_write ready world.console
        simp only [Prod.mk.injEq] at hwrite
        obtain ⟨hbusy, hpending, -, -⟩ := hwrite
        refine ⟨⟨?_, hok.gThreads, hok.stackMap⟩, .other hpending ?_ ?_⟩
        · rw [hbusy, hpending]
          exact hok.busy
        · show Sem.writeLock ∉ _
          split
          · decide
          · exact List.not_mem_nil
        · show Sem.writeDone ∉ _
          split
          · decide
          · exact List.not_mem_nil
      · cases hhandler
  | writeDone =>
      simp only [Nachos.consoleHandler] at hhandler
      split at hhandler
      · rename_i hpending
        cases hhandler
        refine ⟨⟨(fun hbusy => by cases hbusy), hok.gThreads, hok.stackMap⟩, .one ?_⟩
        show world.console.writesPending = world.console.writesPending - 1 + 1
        omega
      · cases hhandler

theorem machine_governs : (userDiscipline space).Governs (machineSystem space utf8 input memory garbage) where
  menu := heeds_runInstruction
  handler i world world' released hhandler hok := hok.consoleHandler hhandler
  inv := ⟨(fun hbusy => by cases hbusy), List.length_replicate, BitMap.numBits_new _ _⟩
  lock := rfl
  done := rfl
  pending := rfl

variable {s : Kernel Sem MachineCall World Registers Observation}

/-- In every run of every user program, whatever words are in its memory, the kernel fails no assertion but where it
gives up on the program: at an instruction that raises another exception than a system call or traps on the host, at
a system call with an unknown number, and at a string or buffer that does not lie in the program's memory. -/
theorem kernel_stands (h : (kernel (machineSystem space utf8 input memory garbage) true).Reachable s)
    {choice : Choice MachineCall ConsoleInterrupt Registers} {fault : Fault}
    (hstep : s.step (machineSystem space utf8 input memory garbage) choice = some (.error fault)) :
    fault = .client ∧ ∃ shown, (∀ o ∈ shown, Event.observed s.currentThread o ∈ sinceCall s.currentThread s.log) ∧
      Refusal space s.shared s.machine shown :=
  Kernel.fault_refused machine_governs (.inl rfl) h hstep

/-- A user program that calls the system with the number 99: `ori $2,$0,99` and `syscall`. -/
def unknownCallSystem : ThreadSystem Sem MachineCall ConsoleInterrupt World Registers Observation :=
  machineSystem smallSpace false [] (Image.store (fun _ => 0) 128 [99, 0, 2, 0x34, 12, 0, 0, 0]) fun _ => 0

def plainTurn : MachineCall := ⟨false, fun _ => 0, fun _ _ => 0⟩

theorem kernel_stands_unknownCall :
    ∃ s, Kernel.runChoices unknownCallSystem [.call plainTurn, .exec, .exec, .resume, .exec, .call plainTurn, .exec]
        (Kernel.initial unknownCallSystem true) = some s ∧
      s.step unknownCallSystem .exec = some (.error .client) ∧
      ∃ shown, (∀ o ∈ shown, Event.observed s.currentThread o ∈ sinceCall s.currentThread s.log) ∧
        Refusal smallSpace s.shared s.machine shown := by
  obtain ⟨s, hrun, hstep⟩ : ∃ s, Kernel.runChoices unknownCallSystem
      [.call plainTurn, .exec, .exec, .resume, .exec, .call plainTurn, .exec] (Kernel.initial unknownCallSystem true) =
        some s ∧ s.step unknownCallSystem .exec = some (.error .client) := ⟨_, rfl, rfl⟩
  have hinit : (kernel unknownCallSystem true).Reachable (Kernel.initial unknownCallSystem true) := .init rfl
  exact ⟨s, hrun, hstep, (kernel_stands (Kernel.reachable_runChoices hinit hrun) hstep).2⟩

end Reachable

end Nachos

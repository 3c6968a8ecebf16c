import Nachos.ConsoleOutput
import Nachos.LineInput
import Nachos.SystemCall

/-! What a system call does to the registers of the thread that makes it. There is one register file;
the refinement of the interleaving semantics gives every thread its own, and the path of the thread
through the system call then says what becomes of it. -/

namespace Nachos

open Interleaving

/-- What the system call with this number returns, given the events of the thread during the call. -/
inductive SyscallResult (sscanf : List Byte → Word) (events : List (Event Sem UserCall Observation)) :
    Nat → Option Word → Prop where
  | putChar : SyscallResult sscanf events 11 none
  | putString : SyscallResult sscanf events 12 none
  | getChar (c : Word) (hgot : gotValues events = [c]) :
      SyscallResult sscanf events 13 (some ((c.setWidth 8).signExtend 32))
  | getString : SyscallResult sscanf events 14 none
  | putInt : SyscallResult sscanf events 15 none
  | getInt (string : List Byte) (hgot : string = (gotValues events).map (·.setWidth 8)) :
      SyscallResult sscanf events 16 (some (sscanf string))
  | created : SyscallResult sscanf events 17 (some 0)
  | notCreated : SyscallResult sscanf events 17 (some (-1))

section Paths

variable {t : ThreadId} {call : Option UserCall} {r r' : Registers}
  {events : List (Event Sem UserCall Observation)}

/-- The path comes to the end of the system call with the registers that it had. -/
def Arrives (t : ThreadId) (call : Option UserCall) (r r' : Registers)
    (events first : List (Event Sem UserCall Observation)) (k : Program Sem World Registers Observation) : Prop :=
  ∃ rest, events = first ++ rest ∧ Follows t call k r rest .ret r'

theorem follows_returnToUser {result : Option Word}
    (h : Follows t call (returnToUser result) r events .ret r') :
    events = [.observed t (.resumed (updatePC (writeResult result r)))] ∧
      r' = updatePC (writeResult result r) := by
  cases h with
  | act shared h =>
      cases h with
      | tick h =>
          cases h
          exact ⟨rfl, rfl⟩

theorem follows_synchPutChar {k : Program Sem World Registers Observation} {ch : Word}
    (h : Follows t call (synchPutChar k ch) r events .ret r') : ∃ first, Arrives t call r r' events first k := by
  cases h with
  | semP h =>
      cases follows_consolePutChar h with
      | semP h =>
          cases h with
          | semV h =>
              exact ⟨[.passed .writeLock t call, .passed .writeDone t call, .released .writeLock (some t)],
                _, rfl, h⟩

theorem follows_putStringLoop {k : Program Sem World Registers Observation} {string : List Byte}
    (h : Follows t call (putStringLoop k string) r events .ret r') :
    ∃ first, Arrives t call r r' events first k := by
  induction string generalizing events with
  | nil =>
      cases h with
      | semV h => exact ⟨[.released .writeLock (some t)], _, rfl, h⟩
  | cons ch rest ih =>
      rw [putStringLoop] at h
      split at h
      · cases h with
        | semV h => exact ⟨[.released .writeLock (some t)], _, rfl, h⟩
      · cases follows_consolePutChar h with
        | semP h =>
            obtain ⟨first, left, rfl, hk⟩ := ih h
            exact ⟨.passed .writeDone t call :: first, left, rfl, hk⟩

theorem follows_synchPutString {k : Program Sem World Registers Observation} {string : List Byte}
    (h : Follows t call (synchPutString k string) r events .ret r') :
    ∃ first, Arrives t call r r' events first k := by
  cases h with
  | semP h =>
      obtain ⟨first, left, rfl, hk⟩ := follows_putStringLoop h
      exact ⟨.passed .writeLock t call :: first, left, rfl, hk⟩

theorem follows_synchGetChar {kc : Word → Program Sem World Registers Observation}
    (h : Follows t call (synchGetChar kc) r events .ret r') :
    ∃ c first, gotValues first = [c] ∧ Arrives t call r r' events first (kc c) := by
  cases h with
  | semP h =>
      cases h with
      | semP h =>
          obtain ⟨c, left, rfl, hleft⟩ := follows_consoleGetChar h
          cases hleft with
          | semV h =>
              exact ⟨c, [.passed .readLock t call, .passed .readAvail t call, .observed t (.got c),
                .released .readLock (some t)], rfl, _, rfl, h⟩

/-- A path through `SynchGetString` arrives with the characters of the values it obtained. -/
theorem arrives_synchGetString {ks : List Byte → Program Sem World Registers Observation} {n : Int}
    (h : Follows t call (synchGetString ks n) r events .ret r') :
    ∃ first, Arrives t call r r' events first (ks ((gotValues first).map (·.setWidth 8))) := by
  obtain ⟨string, first, rest, hstores⟩ := follows_synchGetString h
  refine ⟨first, rest, hstores.split, ?_⟩
  rw [← hstores.chars]
  exact hstores.path

theorem follows_storeString {space : AddrSpace} {address : Word} {string : List Byte}
    (h : Follows t call (storeString space address string) r events .ret r') :
    Follows t call (returnToUser none) r events .ret r' := by
  cases h with
  | act shared h =>
      change Follows t call (if _ then _ else _) r _ .ret r' at h
      split at h
      · exact h
      · cases h

theorem follows_doThreadCreate {space : AddrSpace} {f arg fExit : Word}
    {k : Word → Program Sem World Registers Observation}
    (h : Follows t call (doThreadCreate space f arg fExit k) r events .ret r') :
    ∃ result first, (result = 0 ∨ result = -1) ∧ Arrives t call r r' events first (k result) := by
  cases h with
  | semP h =>
      cases h with
      | act shared h =>
          change Follows t call (createWithStack space f arg fExit k _) r _ .ret r' at h
          unfold createWithStack at h
          split at h
          · cases h with
            | newThread u h =>
                cases u with
                | some u =>
                    cases h with
                    | act shared h =>
                        cases h with
                        | start h =>
                            cases h with
                            | semV h =>
                                exact ⟨0, [.passed .threadLock t call, .released .threadLock (some t)],
                                  .inl rfl, _, rfl, h⟩
                | none =>
                    cases h with
                    | act shared h =>
                        cases h with
                        | semV h =>
                            exact ⟨-1, [.passed .threadLock t call, .observed t .outOfMemory,
                              .released .threadLock (some t)], .inr rfl, _, rfl, h⟩
          · cases h with
            | semV h =>
                exact ⟨-1, [.passed .threadLock t call, .released .threadLock (some t)], .inr rfl, _, rfl, h⟩

/-- `do_ThreadExit` does not return. -/
theorem follows_doThreadExit (h : Follows t call doThreadExit r events .ret r') : False := by
  cases h with
  | semP h =>
      cases h with
      | act shared h =>
          change Follows t call (if _ then _ else _) r _ .ret r' at h
          split at h
          · cases h with
            | semV h =>
                cases h with
                | act shared h =>
                    change Follows t call (if _ then _ else _) r _ .ret r' at h
                    split at h
                    · cases h
                    · cases h
          · cases h

/-- A system call that returns has its result in register 2 and the program counters advanced. -/
theorem follows_exceptionHandler {space : AddrSpace} {sscanf : List Byte → Word}
    {fresh : Nat → Nat → Byte} {memory : Nat → Byte}
    (h : Follows t call (exceptionHandler space sscanf fresh memory r) r events .ret r') :
    ∃ first result, SyscallResult sscanf first (r 2).toNat result ∧
      events = first ++ [.observed t (.resumed (updatePC (writeResult result r)))] ∧
      r' = updatePC (writeResult result r) := by
  have hreturn : ∀ {first : List (Event Sem UserCall Observation)} {result : Option Word},
      Arrives t call r r' events first (returnToUser result) →
      events = first ++ [.observed t (.resumed (updatePC (writeResult result r)))] ∧
        r' = updatePC (writeResult result r) := by
    rintro first result ⟨rest, rfl, hrest⟩
    obtain ⟨rfl, hr⟩ := follows_returnToUser hrest
    exact ⟨rfl, hr⟩
  unfold exceptionHandler at h
  generalize (r 2).toNat = type at h ⊢
  split at h
  · cases h
  · obtain ⟨first, harrives⟩ := follows_synchPutChar h
    exact ⟨first, none, .putChar, hreturn harrives⟩
  · split at h
    · obtain ⟨first, harrives⟩ := follows_synchPutString h
      exact ⟨first, none, .putString, hreturn harrives⟩
    · cases h
  · cases h
  · obtain ⟨c, first, hgot, harrives⟩ := follows_synchGetChar h
    exact ⟨first, _, .getChar c hgot, hreturn harrives⟩
  · obtain ⟨first, rest, rfl, hrest⟩ := arrives_synchGetString h
    exact ⟨first, none, .getString, hreturn ⟨rest, rfl, follows_storeString hrest⟩⟩
  · obtain ⟨first, harrives⟩ := follows_synchPutString h
    exact ⟨first, none, .putInt, hreturn harrives⟩
  · obtain ⟨first, harrives⟩ := arrives_synchGetString h
    exact ⟨first, _, .getInt _ rfl, hreturn harrives⟩
  · obtain ⟨result, first, rfl | rfl, harrives⟩ := follows_doThreadCreate h
    · exact ⟨first, _, .created, hreturn harrives⟩
    · exact ⟨first, _, .notCreated, hreturn harrives⟩
  · exact (follows_doThreadExit h).elim
  · cases h

end Paths

section General

/-- The pending delayed load goes to a general register. -/
def LoadsGeneral (r : Registers) : Prop := (r loadReg).toNat < numGPRegs

/-- It does so in the registers that a thread shows at a trap. -/
def TrapsGeneral : Observation → Prop
  | .trapped r => LoadsGeneral r
  | _ => True

/-- What the code of a system call shows, up to its return to the user program. -/
def Observation.Within : Observation → Prop
  | .began _ => False
  | .trapped _ => False
  | .resumed _ => False
  | _ => True

theorem Observation.Within.trapsGeneral {o : Observation} (h : o.Within) : TrapsGeneral o := by
  cases o with
  | trapped r => exact h.elim
  | _ => trivial

theorem loadsGeneral_updatePC {r : Registers} {result : Option Word} (h : LoadsGeneral r) :
    LoadsGeneral (updatePC (writeResult result r)) := by
  cases result with
  | none => exact h
  | some value => exact h

theorem loadsGeneral_raiseException (badVAddr : Word) (r : Registers) :
    LoadsGeneral (raiseException badVAddr r) := by
  show (0 : Word).toNat < numGPRegs
  decide

/-- A property of programs that goes from the parts of a system call to the whole. -/
structure Closed (Good : Program Sem World Registers Observation → Prop) : Prop where
  semP : ∀ {x k}, Good k → Good (.semP x k)
  semV : ∀ {x k}, Good k → Good (.semV x k)
  act : ∀ {f k}, (∀ t world r, (f t world r).2.1 = r) → (∀ t world r, ∀ o ∈ (f t world r).2.2, o.Within) →
    (∀ t world r, Good (k t world r)) → Good (.act f k)
  newThread : ∀ {k}, (∀ u, Good (k u)) → Good (.newThread k)
  start : ∀ {u space f arg fExit idx k}, Good k → Good (.start u (startUserThread space f arg fExit idx) k)
  returnToUser : ∀ result, Good (returnToUser result)
  finish : Good .finish
  halt : Good .halt
  abort : Good .abort

namespace Closed

variable {Good : Program Sem World Registers Observation → Prop} (h : Closed Good)

include h

theorem update {β : Type} {f : ThreadId → World → World × β} {k : β → Program Sem World Registers Observation}
    (hk : ∀ b, Good (k b)) : Good (update f k) := by
  refine h.act (fun _ _ _ => rfl) ?_ fun _ _ _ => hk _
  intro t world r o ho
  cases ho

theorem consolePutChar {k : Program Sem World Registers Observation} (hk : Good k) (ch : Word) :
    Good (consolePutChar k ch) := by
  apply h.update
  intro busy
  split
  · exact h.abort
  · exact hk

theorem putStringLoop {k : Program Sem World Registers Observation} (hk : Good k) (string : List Byte) :
    Good (putStringLoop k string) := by
  induction string with
  | nil => exact h.semV hk
  | cons ch rest ih =>
      rw [Nachos.putStringLoop]
      split
      · exact h.semV hk
      · exact h.consolePutChar (h.semP ih) _

theorem consoleGetChar {kc : Word → Program Sem World Registers Observation} (hkc : ∀ c, Good (kc c)) :
    Good (consoleGetChar kc) := by
  refine h.act (fun _ _ _ => rfl) ?_ fun _ _ _ => hkc _
  intro t world r o ho
  rw [List.mem_singleton.mp ho]
  trivial

theorem getStringLoop {ks : List Byte → Program Sem World Registers Observation}
    (hks : ∀ string, Good (ks string)) (n : Nat) (stored : List Byte) : Good (getStringLoop ks n stored) := by
  induction n generalizing stored with
  | zero => exact h.semV (hks stored)
  | succ n ih =>
      cases n with
      | zero => exact h.semV (hks stored)
      | succ n =>
          apply h.semP
          apply h.consoleGetChar
          intro c
          show Good (if _ then _ else _)
          split
          · exact h.semV (hks _)
          · exact ih _

theorem storeString (space : AddrSpace) (address : Word) (string : List Byte) :
    Good (storeString space address string) := by
  apply h.update
  intro stored
  split
  · exact h.returnToUser none
  · exact h.abort

theorem doThreadCreate (space : AddrSpace) (f arg fExit : Word)
    {k : Word → Program Sem World Registers Observation} (hk : ∀ result, Good (k result)) :
    Good (doThreadCreate space f arg fExit k) := by
  apply h.semP
  apply h.update
  intro idx
  unfold createWithStack
  split
  · apply h.newThread
    intro u
    cases u with
    | some u =>
        apply h.update
        intro _
        exact h.start (h.semV (hk 0))
    | none =>
        refine h.act (fun _ _ _ => rfl) ?_ fun _ _ _ => h.semV (hk (-1))
        intro t world r o ho
        rw [List.mem_singleton.mp ho]
        trivial
  · exact h.semV (hk (-1))

theorem doThreadExit : Good doThreadExit := by
  apply h.semP
  refine h.act (fun _ _ _ => rfl) ?_ ?_
  · intro t world r o ho
    rw [List.mem_singleton.mp ho]
    trivial
  · intro t world r
    show Good (if _ then _ else _)
    split
    · apply h.semV
      refine h.act (fun _ _ _ => rfl) (fun _ _ _ o ho => by cases ho) ?_
      intro t world r
      show Good (if _ then _ else _)
      split
      · exact h.finish
      · exact h.halt
    · exact h.abort

theorem exceptionHandler (space : AddrSpace) (sscanf : List Byte → Word) (fresh : Nat → Nat → Byte)
    (memory : Nat → Byte) (r : Registers) : Good (exceptionHandler space sscanf fresh memory r) := by
  have hreturn := h.returnToUser
  unfold Nachos.exceptionHandler
  split
  · exact h.halt
  · exact h.semP (h.consolePutChar (h.semP (h.semV (hreturn none))) _)
  · split
    · exact h.semP (h.putStringLoop (hreturn none) _)
    · exact h.abort
  · exact h.halt
  · apply h.semP
    apply h.semP
    apply h.consoleGetChar
    intro c
    exact h.semV (hreturn _)
  · exact h.semP (h.getStringLoop (h.storeString space _) _ _)
  · exact h.semP (h.putStringLoop (hreturn none) _)
  · exact h.semP (h.getStringLoop (fun string => hreturn _) _ _)
  · exact h.doThreadCreate space _ _ _ fun result => hreturn _
  · exact h.doThreadExit
  · exact h.abort

end Closed

abbrev Keeps (p : Program Sem World Registers Observation) : Prop := p.Preserves LoadsGeneral TrapsGeneral

theorem keeps_closed : Closed Keeps where
  semP hk := hk
  semV hk := hk
  act := by
    intro f k hf hshown hk t world r hr
    refine ⟨?_, fun o ho => (hshown t world r o ho).trapsGeneral, hk t world r⟩
    rw [hf]
    exact hr
  newThread hk := hk
  start := by
    intro u space f arg fExit idx k hk
    refine ⟨?_, hk⟩
    intro t world r hr
    refine ⟨?_, ?_, trivial⟩
    · show (0 : Word).toNat < numGPRegs
      decide
    · intro o ho
      rw [List.mem_singleton.mp ho]
      trivial
  returnToUser := by
    intro result t world r hr
    refine ⟨loadsGeneral_updatePC hr, ?_, trivial⟩
    intro o ho
    rw [List.mem_singleton.mp ho]
    trivial
  finish := trivial
  halt := trivial
  abort := trivial

variable {space : AddrSpace} {utf8 : Bool} {input : List Byte} {memory : Nat → Byte} {garbage : Nat → Word}

theorem keeps_menu (c : UserCall) : Keeps ((userSystem space utf8 input memory garbage).menu c) := by
  cases c with
  | compute registers memory general =>
      intro t world r hr
      refine ⟨general, ?_, trivial⟩
      intro o ho
      cases ho
  | syscall sscanf fresh =>
      intro t world r hr
      refine ⟨loadsGeneral_raiseException 0 r, ?_, keeps_closed.exceptionHandler space sscanf fresh _ _⟩
      intro o ho
      rw [List.mem_singleton.mp ho]
      exact hr

theorem reachable_loadsGeneral {s : Interleaving.State Sem UserCall World Registers Observation}
    (h : (userSystem space utf8 input memory garbage).interleaving.Reachable s) :
    AllGuarantee LoadsGeneral TrapsGeneral s := by
  have hzero : (0 : Word).toNat < numGPRegs := by decide
  exact reachable_guarantees keeps_menu (fun _ => hzero) hzero h

end General

section Frame

variable {r : Registers}

/-- The trap sets one register besides completing the delayed load. -/
theorem raiseException_eq (h : LoadsGeneral r) (badVAddr : Word) :
    raiseException badVAddr r = writeRegister (delayedLoad 0 0 r) badVAddrReg badVAddr := by
  have hload : (writeRegister r badVAddrReg badVAddr) loadReg = r loadReg := rfl
  have hvalue : (writeRegister r badVAddrReg badVAddr) loadValueReg = r loadValueReg := rfl
  have hbound : (r loadReg).toNat < numTotalRegs := lt_trans h (by decide)
  have hgeneral : (⟨(r loadReg).toNat, hbound⟩ : Fin numTotalRegs) ≠ badVAddrReg := by
    intro heq
    have hval : (r loadReg).toNat = 39 := congrArg Fin.val heq
    unfold LoadsGeneral numGPRegs at h
    omega
  unfold raiseException delayedLoad
  simp only [hload, hvalue, dif_pos hbound]
  funext i
  unfold writeRegister
  by_cases hi : i = badVAddrReg
  · subst hi
    rw [Function.update_of_ne (by decide), Function.update_of_ne (by decide),
      Function.update_of_ne (by decide), Function.update_of_ne hgeneral.symm, Function.update_self,
      Function.update_self]
  · simp only [Function.update_apply, if_neg hi]

/-- The value of a register when the pending delayed load is completed. -/
def completed (r : Registers) (i : Fin numTotalRegs) : Word :=
  if i = 0 ∨ i = loadReg ∨ i = loadValueReg then 0
  else if (r loadReg).toNat = i then r loadValueReg else r i

/-- The registers `r'` with which a system call returns, one by one, given the registers `r` of the trap. The program
counters are those that `OneInstruction` leaves after an instruction that is no branch. -/
structure AfterSyscall (result : Option Word) (r r' : Registers) : Prop where
  result : r' 2 = result.getD (completed r 2)
  badVAddr : r' badVAddrReg = 0
  prevPC : r' prevPCReg = r pcReg
  pc : r' pcReg = r nextPCReg
  nextPC : r' nextPCReg = r nextPCReg + 4
  advanced : ∀ i, i = prevPCReg ∨ i = pcReg ∨ i = nextPCReg → r' i = advancePC r i
  others : ∀ i, i ≠ 2 → i ≠ badVAddrReg → i ≠ prevPCReg → i ≠ pcReg → i ≠ nextPCReg → r' i = completed r i

/-- The completion of a load leaves the registers alone that are not general ones. -/
theorem delayedLoad_special (h : LoadsGeneral r) {i : Fin numTotalRegs} (hi : numGPRegs ≤ i) (hload : i ≠ loadReg)
    (hvalue : i ≠ loadValueReg) : delayedLoad 0 0 r i = r i := by
  have hzero : i ≠ 0 := by
    rintro rfl
    exact absurd hi (by decide)
  unfold LoadsGeneral at h
  have hne : ∀ hbound : (r loadReg).toNat < numTotalRegs, i ≠ ⟨(r loadReg).toNat, hbound⟩ := by
    rintro hbound rfl
    have hge : numGPRegs ≤ (r loadReg).toNat := hi
    omega
  unfold delayedLoad writeRegister
  rw [Function.update_of_ne hzero, Function.update_of_ne hvalue, Function.update_of_ne hload]
  split
  · next hbound => rw [Function.update_of_ne (hne hbound)]
  · rfl

theorem delayedLoad_completed (h : LoadsGeneral r) (i : Fin numTotalRegs) : delayedLoad 0 0 r i = completed r i := by
  have hbound : (r loadReg).toNat < numTotalRegs := lt_trans h (by decide)
  unfold delayedLoad writeRegister completed
  simp only [dif_pos hbound, Function.update_apply, Fin.ext_iff]
  grind

theorem writeResult_two (result : Option Word) (q : Registers) : writeResult result q 2 = result.getD (q 2) := by
  cases result with
  | none => rfl
  | some value => rfl

theorem writeResult_of_ne (result : Option Word) (q : Registers) {i : Fin numTotalRegs} (hi : i ≠ 2) :
    writeResult result q i = q i := by
  cases result with
  | none => rfl
  | some value => exact Function.update_of_ne hi value q

/-- What `ExceptionHandler` makes of the registers, if the pending load goes to a general register. -/
theorem afterSyscall_updatePC (h : LoadsGeneral r) (result : Option Word) :
    AfterSyscall result r (updatePC (writeResult result (raiseException 0 r))) := by
  rw [raiseException_eq h 0]
  have hpc : delayedLoad 0 0 r pcReg = r pcReg := delayedLoad_special h (by decide) (by decide) (by decide)
  have hnext : delayedLoad 0 0 r nextPCReg = r nextPCReg := delayedLoad_special h (by decide) (by decide) (by decide)
  have hcounter : ∀ i : Fin numTotalRegs, i ≠ 2 → i ≠ badVAddrReg →
      writeResult result (writeRegister (delayedLoad 0 0 r) badVAddrReg 0) i = delayedLoad 0 0 r i := by
    intro i htwo hbad
    rw [writeResult_of_ne _ _ htwo, writeRegister, Function.update_of_ne hbad]
  have hpc' := (hcounter pcReg (by decide) (by decide)).trans hpc
  have hnext' := (hcounter nextPCReg (by decide) (by decide)).trans hnext
  generalize hq : writeResult result (writeRegister (delayedLoad 0 0 r) badVAddrReg 0) = q at *
  have hprev : updatePC q prevPCReg = r pcReg := hpc'
  have hat : updatePC q pcReg = r nextPCReg := hnext'
  have hafter : updatePC q nextPCReg = r nextPCReg + 4 := congrArg (· + 4) hnext'
  have hkept : ∀ i, i ≠ prevPCReg → i ≠ pcReg → i ≠ nextPCReg → updatePC q i = q i := by
    intro i hprev hpc hnext
    unfold updatePC writeRegister
    rw [Function.update_of_ne hnext, Function.update_of_ne hpc, Function.update_of_ne hprev]
  refine ⟨?_, ?_, hprev, hat, hafter, ?_, ?_⟩
  · have hbad : (2 : Fin numTotalRegs) ≠ badVAddrReg := by decide
    rw [hkept 2 (by decide) (by decide) (by decide), ← hq, writeResult_two, writeRegister,
      Function.update_of_ne hbad, delayedLoad_completed h 2]
  · rw [hkept badVAddrReg (by decide) (by decide) (by decide), ← hq, writeResult_of_ne _ _ (by decide), writeRegister,
      Function.update_self]
  · rintro i (rfl | rfl | rfl)
    · exact hprev
    · exact hat
    · exact hafter
  · intro i htwo hbad hprev hpc hnext
    rw [hkept i hprev hpc hnext, hcounter i htwo hbad]
    exact delayedLoad_completed h i

/-- A system call that returns leaves the registers of its thread as it found them, but for the result,
`BadVAddrReg` and the program counters, whatever other threads do during the call. -/
theorem syscall_keeps_registers {space : AddrSpace} {utf8 : Bool} {input : List Byte} {memory : Nat → Byte}
    {garbage : Nat → Word} {s : Kernel Sem UserCall World Registers Observation}
    (h : (kernel (userSystem space utf8 input memory garbage) true).Reachable s) {t : ThreadId}
    {th : Thread Sem UserCall World Registers Observation} (ht : s.thread t = some th)
    (hkont : th.kont = .run .ret) {sscanf : List Byte → Word} {fresh : Nat → Nat → Byte}
    (hcall : th.call = some (.syscall sscanf fresh)) :
    ∃ trapped events result,
      sinceCall t s.log = .observed t (.trapped trapped) ::
        (events ++ [.observed t (.resumed (s.registersOf t th))]) ∧
      SyscallResult sscanf events (completed trapped 2).toNat result ∧
      AfterSyscall result trapped (s.registersOf t th) := by
  have habstract := Kernel.reachable_abstraction (.inl rfl) h
  obtain ⟨new, hnew, hret, hnewcall, hpriv⟩ := Kernel.abstraction_running ht hkont
  obtain ⟨p, r, hp, hpath⟩ := reachable_onPath habstract t new hnew _ (hnewcall.trans hcall)
  rw [hret] at hp
  cases hp
  rw [hpriv] at hpath
  generalize hsince : sinceCall t s.abstraction.log = since at hpath
  change Follows t _ (trapSyscall space sscanf fresh) r since .ret (s.registersOf t th) at hpath
  cases hpath with
  | act shared hpath =>
      obtain ⟨first, result, hresult, rfl, hregisters⟩ := follows_exceptionHandler hpath
      -- What the thread showed at the trap is in the history, so that its delayed load is general.
      have hgeneral : LoadsGeneral r := by
        refine (reachable_loadsGeneral habstract).shown t (.trapped r) (mem_sinceCall (t := t) ?_)
        rw [hsince]
        exact List.mem_cons_self
      have htype : raiseException 0 r 2 = completed r 2 := by
        rw [raiseException_eq hgeneral 0, ← delayedLoad_completed hgeneral]
        rfl
      rw [htype] at hresult
      refine ⟨r, first, result, ?_, hresult, ?_⟩
      · rw [← Kernel.sinceCall_abstraction, hsince, hregisters]
        rfl
      · rw [hregisters]
        exact afterSyscall_updatePC hgeneral result

/-- A user program that creates a thread in the delay slot of a branch to address 512, with a delayed load of register
8 pending. -/
def createAtBranch : Registers := fun i =>
  if i = 2 then 17 else if i = 4 then 400 else if i = pcReg then 132 else if i = nextPCReg then 512
  else if i = loadReg then 8 else if i = loadValueReg then 77 else 5

/-- The new thread runs, and changes every register, before its creator has released the lock. -/
def createAtBranchRun : List (Choice UserCall ConsoleInterrupt Registers) :=
  [.call (.compute createAtBranch (fun _ => 0) (by decide)), .exec, .exec, .resume, .exec,
    .call (.syscall (fun _ => 0) fun _ _ => 0), .exec, .exec, .resume, .exec, .alloc 2 (fun _ => 7), .exec, .exec, .preempt,
    .resume, .exec, .call (.compute (fun _ => 9) (fun _ => 0) (by decide)), .exec, .exec, .preempt, .resume,
    .exec, .resume, .exec, .exec, .resume]

theorem syscall_keeps_registers_create :
    ∃ s th other trapped result, Kernel.runChoices smallSystem createAtBranchRun (Kernel.initial smallSystem true) = some s ∧
      s.thread 1 = some th ∧ s.thread 2 = some other ∧ s.registersOf 2 other 5 = 9 ∧
      th.kont = .run .ret ∧ th.call = some (.syscall (fun _ => 0) fun _ _ => 0) ∧
      AfterSyscall result trapped (s.registersOf 1 th) ∧ s.registersOf 1 th 2 = 0 ∧ s.registersOf 1 th 5 = 5 ∧
      s.registersOf 1 th 8 = 77 ∧ s.registersOf 1 th pcReg = 512 := by
  obtain ⟨s, th, other, hrun, hth, hother, hnine, hkont, hcall, htwo, hfive, height, hpc⟩ : ∃ s th other,
      Kernel.runChoices smallSystem createAtBranchRun (Kernel.initial smallSystem true) = some s ∧
      s.thread 1 = some th ∧ s.thread 2 = some other ∧ s.registersOf 2 other 5 = 9 ∧ th.kont = .run .ret ∧
      th.call = some (.syscall (fun _ => 0) fun _ _ => 0) ∧ s.registersOf 1 th 2 = 0 ∧ s.registersOf 1 th 5 = 5 ∧
      s.registersOf 1 th 8 = 77 ∧ s.registersOf 1 th pcReg = 512 :=
    ⟨_, _, _, rfl, rfl, rfl, rfl, rfl, rfl, rfl, rfl, rfl, rfl⟩
  have hinit : (kernel smallSystem true).Reachable (Kernel.initial smallSystem true) := .init rfl
  obtain ⟨trapped, events, result, -, -, hresumes⟩ :=
    syscall_keeps_registers (Kernel.reachable_runChoices hinit hrun) hth hkont hcall
  exact ⟨s, th, other, trapped, result, hrun, hth, hother, hnine, hkont, hcall, hresumes, htwo, hfive, height, hpc⟩

end Frame

end Nachos

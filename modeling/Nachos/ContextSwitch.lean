import Nachos.Switch
import Nachos.ThreadProgram

/-! The threads of the kernel on the host: `Thread::StackAllocate`, and what `SWITCH` and `ThreadRoot` make of several
threads that call each other. The compiled C++ code is left open. It may do what it likes to the registers and to the
memory, but for the objects of the threads that do not run, the stacks of these from their stack pointers on, and the
frames of the functions that have called it. -/

namespace Nachos

open X86

/-- The code of `switch.S`, the variable `_rax_save` and two functions of `thread.cc`, where the linker has put them. -/
structure KernelImage where
  code : Code
  raxSave : X86.Word
  switchAt : X86.Word
  switchEnd : X86.Word
  threadRoot : X86.Word
  threadRootEnd : X86.Word
  setupThreadState : X86.Word
  threadFinish : X86.Word
  holds_switch : code.Holds switchAt (switchCode raxSave) switchEnd
  holds_threadRoot : code.Holds threadRoot threadRootCode threadRootEnd
  aligned_raxSave : Aligned raxSave
  setup_compiled : code setupThreadState = none
  finish_compiled : code threadFinish = none

/-- The words of the stack that `Thread::StackAllocate` allocates. -/
def hostStackSize : Nat := 8 * 1024

def stackFencepost : X86.Word := 0xdeadbeef

/-- The indices into `machineState`. -/
def pcState : Nat := pcOffset / 8 - 1

def initialPCState : Nat := 48 / 8 - 1

def initialArgState : Nat := 32 / 8 - 1

def whenDonePCState : Nat := 56 / 8 - 1

def startupPCState : Nat := 24 / 8 - 1

/-- `memset` with zero, of some words. -/
def zeroWords (base : X86.Word) : Nat → (X86.Word → X86.Word) → X86.Word → X86.Word
  | 0, mem => mem
  | n + 1, mem => Function.update (zeroWords base n mem) (slot base n) 0

/-- `Thread::StackAllocate` on the object at `object`, with the stack that it has allocated. The member `stackTop` is
the first word of the object, and `machineState` follows. -/
def stackAllocate (linked : KernelImage) (object stack func arg : X86.Word) (mem : X86.Word → X86.Word) :
    X86.Word → X86.Word :=
  let mem := Function.update mem object (slot stack (hostStackSize - 8))
  let mem := Function.update mem (slot stack 0) stackFencepost
  let mem := zeroWords (slot object 1) machineStateSize mem
  let mem := Function.update mem (slot object (pcState + 1)) linked.threadRoot
  let mem := Function.update mem (slot object (startupPCState + 1)) linked.setupThreadState
  let mem := Function.update mem (slot object (initialPCState + 1)) func
  let mem := Function.update mem (slot object (initialArgState + 1)) arg
  Function.update mem (slot object (whenDonePCState + 1)) linked.threadFinish

/-- Where a thread is in memory: its object, and its stack of so many words. -/
structure Place where
  object : X86.Word
  stack : X86.Word
  words : Nat

/-- The address belongs to the thread. -/
def Place.Owns (place : Place) (a : X86.Word) : Prop :=
  InContext place.object a ∨ ∃ i < place.words, a = slot place.stack i

structure Place.Proper (raxSave : X86.Word) (place : Place) : Prop where
  aligned_object : Aligned place.object
  aligned_stack : Aligned place.stack
  words_lt : place.words < 2 ^ 61
  disjoint : ∀ i < place.words, ¬ InContext place.object (slot place.stack i)
  save : ¬ place.Owns raxSave

def Place.Apart (place other : Place) : Prop := ∀ a, place.Owns a → ¬ other.Owns a

/-- The function that a thread is in: one of those that `ThreadRoot` calls, or the main program. -/
inductive HostPhase where
  | main
  | startup
  | body
  | finishing
  deriving DecidableEq

/-- A thread has been constructed and started, it runs, or it has called `SWITCH` as `left`, with the return address at
the word `sp` of its stack. -/
inductive HostStatus where
  | new
  | runs (phase : HostPhase)
  | waits (phase : HostPhase) (left : X86.Machine) (sp : Nat)

/-- What happens to a thread: it calls `SWITCH`, a function that `ThreadRoot` has called returns, and the machine
arrives at compiled code of the thread. -/
inductive HostEvent where
  | leaves (m : X86.Machine)
  | returns
  | arrives (m : X86.Machine) (rip : X86.Word)

structure HostThread where
  place : Place
  func : X86.Word
  arg : X86.Word
  status : HostStatus
  history : List HostEvent

/-- The last word that `ThreadRoot` has pushed when it calls the startup function. -/
def rootFrame (words : Nat) : Nat := words - 12

/-- The word of the stack with the return address of the function that `ThreadRoot` has called. -/
def HostPhase.frame (words : Nat) : HostPhase → Nat
  | .main => words
  | .startup => rootFrame words
  | .body => rootFrame words + 2
  | .finishing => rootFrame words + 3

/-- The first word of the stack that the code of other functions leaves alone. -/
def HostStatus.low (words : Nat) : HostStatus → Nat
  | .new => words
  | .runs phase => phase.frame words
  | .waits _ _ sp => sp

structure HostState where
  machine : X86.Machine
  current : ThreadId
  thread : ThreadId → Option HostThread

/-- An address that compiled code does not write to while the current thread runs. -/
def HostState.Protected (s : HostState) (a : X86.Word) : Prop :=
  ∃ t th, s.thread t = some th ∧ (t ≠ s.current ∧ InContext th.place.object a ∨
    ∃ i, th.status.low th.place.words ≤ i ∧ i < th.place.words ∧ a = slot th.place.stack i)

namespace HostState

/-- The next phase of a thread that `ThreadRoot` calls functions for. -/
inductive Follows : HostPhase → HostPhase → Prop where
  | startup : Follows .startup .body
  | body : Follows .body .finishing

/-- The phase in which a thread runs when it gets the processor. -/
def resumed : HostStatus → HostPhase
  | .new => .startup
  | .runs phase => phase
  | .waits phase _ _ => phase

/-- The current thread `th` calls `SWITCH` for the thread `u`, from compiled code. -/
structure Calls (linked : KernelImage) (s : HostState) (u : ThreadId) (th new : HostThread) (phase : HostPhase)
    (sp : Nat) : Prop where
  thread : s.thread s.current = some th
  runs : th.status = .runs phase
  other : u ≠ s.current
  next : s.thread u = some new
  rdi : s.machine.reg .rdi = th.place.object
  rsi : s.machine.reg .rsi = new.place.object
  rsp : s.machine.reg .rsp = slot th.place.stack sp
  sp_lt : sp < phase.frame th.place.words
  caller : linked.code (s.machine.mem (s.machine.reg .rsp)) = none

/-- What can happen. `ThreadFinish` does not return. -/
inductive Step (linked : KernelImage) (s : HostState) : HostState → Prop where
  /-- The compiled code of the current thread computes. -/
  | compute (m : X86.Machine) (hprotected : ∀ a, s.Protected a → m.mem a = s.machine.mem a) :
      Step linked s { s with machine := m }
  /-- It starts a thread. -/
  | start (u : ThreadId) (place : Place) (func arg : X86.Word) (hfresh : s.thread u = none)
      (hproper : place.Proper linked.raxSave) (hwords : place.words = hostStackSize)
      (hfree : ∀ t th, s.thread t = some th → place.Apart th.place) (hfunc : linked.code func = none) :
      Step linked s
        { s with
          machine := { s.machine with
            mem := stackAllocate linked place.object place.stack func arg s.machine.mem }
          thread := Function.update s.thread u (some ⟨place, func, arg, .new, []⟩) }
  /-- It deletes another thread. -/
  | delete (u : ThreadId) (hother : u ≠ s.current) :
      Step linked s { s with thread := Function.update s.thread u none }
  /-- It has called `SWITCH`, and the machine runs until it arrives at compiled code. -/
  | switch (u : ThreadId) (th new : HostThread) (phase : HostPhase) (sp : Nat) (m : X86.Machine) (rip : X86.Word)
      (hcalls : Calls linked s u th new phase sp) (hruns : Runs linked.code (s.machine, linked.switchAt) (m, rip))
      (hleft : linked.code rip = none) :
      Step linked s
        { machine := m
          current := u
          thread := Function.update (Function.update s.thread s.current
              (some { th with status := .waits phase s.machine sp, history := th.history ++ [.leaves s.machine] }))
            u (some { new with status := .runs (resumed new.status), history := new.history ++ [.arrives m rip] }) }
  /-- A function that `ThreadRoot` has called returns, and the machine runs until it arrives at compiled code. -/
  | ret (th : HostThread) (phase next : HostPhase) (m : X86.Machine) (rip : X86.Word)
      (hth : s.thread s.current = some th) (hphase : th.status = .runs phase) (hnext : Follows phase next)
      (hrsp : s.machine.reg .rsp = slot th.place.stack (phase.frame th.place.words))
      (hruns : Runs linked.code (s.machine.setReg .rsp (s.machine.reg .rsp + 8),
        s.machine.mem (slot th.place.stack (phase.frame th.place.words))) (m, rip))
      (hleft : linked.code rip = none) :
      Step linked s
        { s with
          machine := m
          thread := Function.update s.thread s.current
            (some { th with status := .runs next, history := th.history ++ [.returns, .arrives m rip] }) }

end HostState

/-- The host starts with the main thread. -/
def hostThreads (linked : KernelImage) : TransitionSystem HostState where
  init s := ∃ place func arg, place.Proper linked.raxSave ∧
    s.thread = Function.update (fun _ => none) s.current (some ⟨place, func, arg, .runs .main, []⟩)
  step := HostState.Step linked

/-- What the machine that resumes a thread has from the thread's call of `SWITCH`. Registers `r8` to `r11` are those
that a C function may change. -/
structure Resumes (place : Place) (left : X86.Machine) (sp : Nat) (m : X86.Machine) (rip : X86.Word) : Prop where
  rip : rip = left.mem (left.reg .rsp)
  regs : ∀ r, r ≠ .rsp → r ∉ [Reg.r8, .r9, .r10, .r11] → m.reg r = left.reg r
  rsp : m.reg .rsp = left.reg .rsp + 8
  stack : ∀ i, sp ≤ i → i < place.words → m.mem (slot place.stack i) = left.mem (slot place.stack i)

/-- The history of a thread that runs on as if there were no other: `SetupThreadState`, the function of the thread with
its argument, `ThreadFinish`; and each call of `SWITCH` returns to where it has been made. -/
inductive Script (linked : KernelImage) (place : Place) (func arg : X86.Word) : HostStatus → List HostEvent → Prop where
  | new : Script linked place func arg .new []
  | main : Script linked place func arg (.runs .main) []
  | startup {m : X86.Machine} (hrsp : m.reg .rsp = slot place.stack (rootFrame place.words)) :
      Script linked place func arg (.runs .startup) [.arrives m linked.setupThreadState]
  | body {m : X86.Machine} {history : List HostEvent} (h : Script linked place func arg (.runs .startup) history)
      (hrdi : m.reg .rdi = arg) (hrsp : m.reg .rsp = slot place.stack (rootFrame place.words + 2)) :
      Script linked place func arg (.runs .body) (history ++ [.returns, .arrives m func])
  | finishing {m : X86.Machine} {history : List HostEvent} (h : Script linked place func arg (.runs .body) history)
      (hrsp : m.reg .rsp = slot place.stack (rootFrame place.words + 3)) :
      Script linked place func arg (.runs .finishing) (history ++ [.returns, .arrives m linked.threadFinish])
  | leave {phase : HostPhase} {m : X86.Machine} {sp : Nat} {history : List HostEvent}
      (h : Script linked place func arg (.runs phase) history) :
      Script linked place func arg (.waits phase m sp) (history ++ [.leaves m])
  | resume {phase : HostPhase} {left m : X86.Machine} {rip : X86.Word} {sp : Nat} {history : List HostEvent}
      (h : Script linked place func arg (.waits phase left sp) history) (hresumes : Resumes place left sp m rip) :
      Script linked place func arg (.runs phase) (history ++ [.arrives m rip])

section Memory

variable {base a : X86.Word} {mem : X86.Word → X86.Word} {i j n : Nat}

theorem slot_slot : slot (slot base i) j = slot base (i + j) := by
  unfold slot
  rw [Nat.mul_add, BitVec.ofNat_add, BitVec.add_assoc]

theorem inContext_slot (hi : i < machineStateSize + 1) : InContext base (slot base i) :=
  ⟨8 * i, by simp only [contextSize]; omega, rfl⟩

theorem zeroWords_of_ne (h : ∀ j < n, a ≠ slot base j) : zeroWords base n mem a = mem a := by
  induction n with
  | zero => rfl
  | succ n ih =>
      rw [zeroWords, Function.update_of_ne (h n (Nat.lt_succ_self n))]
      exact ih fun j hj => h j (Nat.lt_succ_of_lt hj)

variable {linked : KernelImage} {object stack func arg : X86.Word}

/-- The allocation of a stack writes to the object and to the stack. -/
theorem stackAllocate_of_ne (hobject : ¬ InContext object a) (hstack : a ≠ slot stack 0) :
    stackAllocate linked object stack func arg mem a = mem a := by
  have hne : ∀ i < machineStateSize + 1, a ≠ slot object i := fun i hi => ne_of_inContext hobject (inContext_slot hi)
  have hzero : ∀ mem : X86.Word → X86.Word, zeroWords (slot object 1) machineStateSize mem a = mem a := by
    intro mem
    apply zeroWords_of_ne
    intro j hj
    rw [slot_slot]
    exact hne (1 + j) (by omega)
  have hself : a ≠ object := by
    have hfirst := hne 0 (by decide)
    rwa [show slot object 0 = object from BitVec.add_zero _] at hfirst
  simp only [stackAllocate]
  rw [Function.update_of_ne (hne (whenDonePCState + 1) (by decide)),
    Function.update_of_ne (hne (initialArgState + 1) (by decide)),
    Function.update_of_ne (hne (initialPCState + 1) (by decide)),
    Function.update_of_ne (hne (startupPCState + 1) (by decide)),
    Function.update_of_ne (hne (pcState + 1) (by decide)), hzero, Function.update_of_ne hstack,
    Function.update_of_ne hself]

/-- The first context of a thread. -/
structure FirstContext (linked : KernelImage) (object stack func arg : X86.Word) (mem : X86.Word → X86.Word) :
    Prop where
  rsp : mem object = slot stack (hostStackSize - 8)
  pc : mem (object + BitVec.ofNat 64 pcOffset) = linked.threadRoot
  startup : mem (object + BitVec.ofNat 64 24) = linked.setupThreadState
  func : mem (object + BitVec.ofNat 64 48) = func
  arg : mem (object + BitVec.ofNat 64 32) = arg
  whenDone : mem (object + BitVec.ofNat 64 56) = linked.threadFinish

theorem firstContext_stackAllocate (hdisjoint : ¬ InContext object (slot stack 0)) :
    FirstContext linked object stack func arg (stackAllocate linked object stack func arg mem) := by
  have hne : ∀ i j, i < 33 → j < 33 → i ≠ j → slot object i ≠ slot object j :=
    fun i j hi hj h => slot_ne (by omega) (by omega) h
  refine ⟨?_, ?_, ?_, ?_, ?_, Function.update_self _ _ _⟩
  · have hself : object = slot object 0 := (BitVec.add_zero _).symm
    have hfence : object ≠ slot stack 0 := by
      intro heq
      apply hdisjoint
      rw [← heq]
      have hin : InContext object (slot object 0) := inContext_slot (by decide)
      rwa [← hself] at hin
    have hzero : ∀ mem : X86.Word → X86.Word, zeroWords (slot object 1) machineStateSize mem (slot object 0) =
        mem (slot object 0) := by
      intro mem
      apply zeroWords_of_ne
      intro j hj
      rw [slot_slot]
      exact hne 0 (1 + j) (by decide) (by simp only [machineStateSize] at hj; omega) (by omega)
    simp only [stackAllocate]
    rw [← hself] at hzero
    rw [Function.update_of_ne, Function.update_of_ne, Function.update_of_ne, Function.update_of_ne,
      Function.update_of_ne, hzero, Function.update_of_ne hfence, Function.update_self]
    all_goals
      conv_lhs => rw [hself]
      refine hne 0 _ (by decide) (by decide) (by decide)
  · show stackAllocate linked object stack func arg mem (slot object (pcState + 1)) = _
    simp only [stackAllocate]
    rw [Function.update_of_ne (hne _ _ (by decide) (by decide) (by decide)),
      Function.update_of_ne (hne _ _ (by decide) (by decide) (by decide)),
      Function.update_of_ne (hne _ _ (by decide) (by decide) (by decide)),
      Function.update_of_ne (hne _ _ (by decide) (by decide) (by decide)), Function.update_self]
  · show stackAllocate linked object stack func arg mem (slot object (startupPCState + 1)) = _
    simp only [stackAllocate]
    rw [Function.update_of_ne (hne _ _ (by decide) (by decide) (by decide)),
      Function.update_of_ne (hne _ _ (by decide) (by decide) (by decide)),
      Function.update_of_ne (hne _ _ (by decide) (by decide) (by decide)), Function.update_self]
  · show stackAllocate linked object stack func arg mem (slot object (initialPCState + 1)) = _
    simp only [stackAllocate]
    rw [Function.update_of_ne (hne _ _ (by decide) (by decide) (by decide)),
      Function.update_of_ne (hne _ _ (by decide) (by decide) (by decide)), Function.update_self]
  · show stackAllocate linked object stack func arg mem (slot object (initialArgState + 1)) = _
    simp only [stackAllocate]
    rw [Function.update_of_ne (hne _ _ (by decide) (by decide) (by decide)), Function.update_self]

end Memory

/-- The frame of `ThreadRoot` below the function that it has called. -/
inductive HostPhase.Frame (linked : KernelImage) (place : Place) (func arg : X86.Word) (mem : X86.Word → X86.Word) :
    HostPhase → Prop where
  | main : Frame linked place func arg mem .main
  | startup (hwords : place.words = hostStackSize) (hfunc : linked.code func = none)
      (hreturn : mem (slot place.stack (rootFrame place.words)) = linked.code.skip 6 linked.threadRoot)
      (harg : mem (slot place.stack (rootFrame place.words + 1)) = arg)
      (hentry : mem (slot place.stack (rootFrame place.words + 2)) = func)
      (hdone : mem (slot place.stack (rootFrame place.words + 3)) = linked.threadFinish) :
      Frame linked place func arg mem .startup
  | body (hwords : place.words = hostStackSize)
      (hreturn : mem (slot place.stack (rootFrame place.words + 2)) = linked.code.skip 9 linked.threadRoot)
      (hdone : mem (slot place.stack (rootFrame place.words + 3)) = linked.threadFinish) :
      Frame linked place func arg mem .body
  | finishing (hwords : place.words = hostStackSize) : Frame linked place func arg mem .finishing

/-- The object and the stack of a thread that has called `SWITCH`. -/
structure Saved (linked : KernelImage) (place : Place) (mem : X86.Word → X86.Word) (phase : HostPhase)
    (left : X86.Machine) (sp : Nat) : Prop where
  regs : ∀ entry ∈ contextTable, mem (place.object + BitVec.ofNat 64 entry.2) = left.reg entry.1
  pc : mem (place.object + BitVec.ofNat 64 pcOffset) = left.mem (left.reg .rsp)
  rsp : left.reg .rsp = slot place.stack sp
  sp_lt : sp < phase.frame place.words
  stack : ∀ i, sp ≤ i → i < place.words → mem (slot place.stack i) = left.mem (slot place.stack i)
  caller : linked.code (left.mem (left.reg .rsp)) = none

/-- What the memory holds for a thread. -/
inductive HostStatus.Holds (linked : KernelImage) (place : Place) (func arg : X86.Word) (mem : X86.Word → X86.Word) :
    HostStatus → Prop where
  | new (hwords : place.words = hostStackSize) (hfunc : linked.code func = none)
      (hcontext : FirstContext linked place.object place.stack func arg mem) : Holds linked place func arg mem .new
  | runs {phase : HostPhase} (hframe : phase.Frame linked place func arg mem) :
      Holds linked place func arg mem (.runs phase)
  | waits {phase : HostPhase} {left : X86.Machine} {sp : Nat} (hframe : phase.Frame linked place func arg mem)
      (hsaved : Saved linked place mem phase left sp) : Holds linked place func arg mem (.waits phase left sp)

section Thread

variable {linked : KernelImage} {place : Place} {func arg : X86.Word} {mem mem' : X86.Word → X86.Word}
  {phase : HostPhase}

theorem HostPhase.Frame.le (h : phase.Frame linked place func arg mem) : phase.frame place.words ≤ place.words := by
  cases h with
  | main => exact le_rfl
  | startup hwords =>
      rw [hwords]
      decide
  | body hwords =>
      rw [hwords]
      decide
  | finishing hwords =>
      rw [hwords]
      decide

theorem HostPhase.Frame.congr (h : phase.Frame linked place func arg mem)
    (hstack : ∀ i, phase.frame place.words ≤ i → i < place.words →
      mem' (slot place.stack i) = mem (slot place.stack i)) : phase.Frame linked place func arg mem' := by
  have hframe : ∀ k, k < 4 → place.words = hostStackSize → rootFrame place.words + k < place.words := by
    intro k hk hwords
    rw [hwords]
    simp only [rootFrame, hostStackSize]
    omega
  cases h with
  | main => exact .main
  | startup hwords hfunc hreturn harg hentry hdone =>
      have hsame : ∀ k, k < 4 → mem' (slot place.stack (rootFrame place.words + k)) =
          mem (slot place.stack (rootFrame place.words + k)) :=
        fun k hk => hstack _ (Nat.le_add_right _ _) (hframe k hk hwords)
      exact .startup hwords hfunc ((hsame 0 (by decide)).trans hreturn) ((hsame 1 (by decide)).trans harg)
        ((hsame 2 (by decide)).trans hentry) ((hsame 3 (by decide)).trans hdone)
  | body hwords hreturn hdone =>
      exact .body hwords ((hstack _ le_rfl (hframe 2 (by decide) hwords)).trans hreturn)
        ((hstack _ (Nat.le_succ _) (hframe 3 (by decide) hwords)).trans hdone)
  | finishing hwords => exact .finishing hwords

theorem Saved.congr {left : X86.Machine} {sp : Nat} (h : Saved linked place mem phase left sp)
    (hobject : ∀ a, InContext place.object a → mem' a = mem a)
    (hstack : ∀ i, sp ≤ i → i < place.words → mem' (slot place.stack i) = mem (slot place.stack i)) :
    Saved linked place mem' phase left sp := by
  refine ⟨?_, ?_, h.rsp, h.sp_lt, ?_, h.caller⟩
  · intro entry hentry
    exact (hobject _ ⟨entry.2, (contextTable_lt hentry).trans (by decide), rfl⟩).trans (h.regs entry hentry)
  · exact (hobject _ ⟨pcOffset, by decide, rfl⟩).trans h.pc
  · intro i hi hlt
    exact (hstack i hi hlt).trans (h.stack i hi hlt)

/-- A thread depends on its object while it does not run, and on its stack. -/
theorem HostStatus.Holds.congr {status : HostStatus} (h : status.Holds linked place func arg mem)
    (hobject : (∀ phase, status ≠ .runs phase) → ∀ a, InContext place.object a → mem' a = mem a)
    (hstack : ∀ i, status.low place.words ≤ i → i < place.words →
      mem' (slot place.stack i) = mem (slot place.stack i)) : status.Holds linked place func arg mem' := by
  have hoffset : ∀ k, k < contextSize → InContext place.object (place.object + BitVec.ofNat 64 k) := fun k hk =>
    ⟨k, hk, rfl⟩
  cases h with
  | new hwords hfunc hcontext =>
      have hsame := hobject nofun
      have hself : mem' place.object = mem place.object := by
        have hzero := hsame _ (hoffset 0 (by decide))
        rwa [show place.object + BitVec.ofNat 64 0 = place.object from BitVec.add_zero _] at hzero
      exact .new hwords hfunc ⟨hself.trans hcontext.rsp, (hsame _ (hoffset _ (by decide))).trans hcontext.pc,
        (hsame _ (hoffset _ (by decide))).trans hcontext.startup, (hsame _ (hoffset _ (by decide))).trans hcontext.func,
        (hsame _ (hoffset _ (by decide))).trans hcontext.arg, (hsame _ (hoffset _ (by decide))).trans hcontext.whenDone⟩
  | runs hframe => exact .runs (hframe.congr hstack)
  | @waits phase left sp hframe hsaved =>
      exact .waits (hframe.congr fun i hi => hstack i (hsaved.sp_lt.le.trans hi)) (hsaved.congr (hobject nofun) hstack)

end Thread

namespace HostState

variable {linked : KernelImage} {s s' : HostState}

/-- One thread runs; the threads have places of their own, the memory holds their contexts, and each has run on. -/
structure Inv (linked : KernelImage) (s : HostState) : Prop where
  runs : ∃ th phase, s.thread s.current = some th ∧ th.status = .runs phase
  others : ∀ t th phase, s.thread t = some th → th.status = .runs phase → t = s.current
  proper : ∀ t th, s.thread t = some th → th.place.Proper linked.raxSave
  apart : ∀ t u th uh, t ≠ u → s.thread t = some th → s.thread u = some uh → th.place.Apart uh.place
  holds : ∀ t th, s.thread t = some th → th.status.Holds linked th.place th.func th.arg s.machine.mem
  script : ∀ t th, s.thread t = some th → Script linked th.place th.func th.arg th.status th.history

theorem Inv.compute (h : Inv linked s) {m : X86.Machine} (hprotected : ∀ a, s.Protected a → m.mem a = s.machine.mem a) :
    Inv linked { s with machine := m } := by
  refine ⟨h.runs, h.others, h.proper, h.apart, ?_, h.script⟩
  intro t th ht
  refine (h.holds t th ht).congr ?_ ?_
  · intro hwaits a ha
    have hother : t ≠ s.current := by
      rintro rfl
      obtain ⟨cur, phase, hcur, hphase⟩ := h.runs
      rw [ht] at hcur
      cases hcur
      exact hwaits phase hphase
    exact hprotected a ⟨t, th, ht, .inl ⟨hother, ha⟩⟩
  · intro i hi hlt
    exact hprotected _ ⟨t, th, ht, .inr ⟨i, hi, hlt, rfl⟩⟩

/-- A step that changes what one thread owns, and leaves that thread in order, leaves the others in order. -/
theorem Inv.holds_other (h : Inv linked s) {t u : ThreadId} {th uh : HostThread} (htu : t ≠ u)
    (ht : s.thread t = some th) (hu : s.thread u = some uh) {mem : X86.Word → X86.Word}
    (hmem : ∀ a, ¬ uh.place.Owns a → th.place.Owns a → mem a = s.machine.mem a) :
    th.status.Holds linked th.place th.func th.arg mem := by
  have hapart := h.apart t u th uh htu ht hu
  refine (h.holds t th ht).congr ?_ ?_
  · intro _ a ha
    exact hmem a (hapart a (.inl ha)) (.inl ha)
  · intro i _ hi
    have howns : th.place.Owns (slot th.place.stack i) := .inr ⟨i, hi, rfl⟩
    exact hmem _ (hapart _ howns) howns

theorem Inv.start (h : Inv linked s) {u : ThreadId} {place : Place} {func arg : X86.Word} (hfresh : s.thread u = none)
    (hproper : place.Proper linked.raxSave) (hwords : place.words = hostStackSize)
    (hfree : ∀ t th, s.thread t = some th → place.Apart th.place) (hfunc : linked.code func = none) :
    Inv linked { s with
      machine := { s.machine with mem := stackAllocate linked place.object place.stack func arg s.machine.mem }
      thread := Function.update s.thread u (some ⟨place, func, arg, .new, []⟩) } := by
  have hold : ∀ {t th}, Function.update s.thread u (some (HostThread.mk place func arg .new [])) t = some th →
      t = u ∧ th = ⟨place, func, arg, .new, []⟩ ∨ t ≠ u ∧ s.thread t = some th := by
    intro t th ht
    by_cases htu : t = u
    · subst htu
      rw [Function.update_self] at ht
      cases ht
      exact .inl ⟨rfl, rfl⟩
    · rw [Function.update_of_ne htu] at ht
      exact .inr ⟨htu, ht⟩
  have hcurrent : s.current ≠ u := by
    rintro rfl
    obtain ⟨cur, -, hcur, -⟩ := h.runs
    rw [hfresh] at hcur
    cases hcur
  have hfirst : 0 < place.words := by
    rw [hwords]
    decide
  refine ⟨?_, ?_, ?_, ?_, ?_, ?_⟩
  · obtain ⟨cur, phase, hcur, hphase⟩ := h.runs
    exact ⟨cur, phase, (Function.update_of_ne hcurrent _ _).trans hcur, hphase⟩
  · intro t th phase ht hphase
    rcases hold ht with ⟨rfl, rfl⟩ | ⟨-, ht⟩
    · cases hphase
    · exact h.others t th phase ht hphase
  · intro t th ht
    rcases hold ht with ⟨rfl, rfl⟩ | ⟨-, ht⟩
    · exact hproper
    · exact h.proper t th ht
  · intro t v th vh htv ht hv
    rcases hold ht with ⟨rfl, rfl⟩ | ⟨-, htold⟩
    · rcases hold hv with ⟨rfl, -⟩ | ⟨-, hvold⟩
      · exact absurd rfl htv
      · exact hfree v vh hvold
    · rcases hold hv with ⟨rfl, rfl⟩ | ⟨-, hvold⟩
      · exact fun a ha hin => hfree t th htold a hin ha
      · exact h.apart t v th vh htv htold hvold
  · intro t th ht
    rcases hold ht with ⟨rfl, rfl⟩ | ⟨htu, ht⟩
    · exact .new hwords hfunc (firstContext_stackAllocate (hproper.disjoint 0 hfirst))
    · have hsame : ∀ a, th.place.Owns a →
          stackAllocate linked place.object place.stack func arg s.machine.mem a = s.machine.mem a := by
        intro a ha
        have hout : ¬ place.Owns a := fun hin => hfree t th ht a hin ha
        refine stackAllocate_of_ne (fun hin => hout (.inl hin)) ?_
        rintro rfl
        exact hout (.inr ⟨0, hfirst, rfl⟩)
      exact (h.holds t th ht).congr (fun _ a ha => hsame a (.inl ha)) fun i _ hi => hsame _ (.inr ⟨i, hi, rfl⟩)
  · intro t th ht
    rcases hold ht with ⟨rfl, rfl⟩ | ⟨-, ht⟩
    · exact .new
    · exact h.script t th ht

theorem Inv.delete (h : Inv linked s) {u : ThreadId} (hother : u ≠ s.current) :
    Inv linked { s with thread := Function.update s.thread u none } := by
  have hold : ∀ {t th}, Function.update s.thread u none t = some th → s.thread t = some th := by
    intro t th ht
    by_cases htu : t = u
    · subst htu
      rw [Function.update_self] at ht
      cases ht
    · rwa [Function.update_of_ne htu] at ht
  refine ⟨?_, ?_, ?_, ?_, ?_, ?_⟩
  · obtain ⟨cur, phase, hcur, hphase⟩ := h.runs
    exact ⟨cur, phase, (Function.update_of_ne hother.symm _ _).trans hcur, hphase⟩
  · exact fun t th phase ht => h.others t th phase (hold ht)
  · exact fun t th ht => h.proper t th (hold ht)
  · exact fun t v th vh htv ht hv => h.apart t v th vh htv (hold ht) (hold hv)
  · exact fun t th ht => h.holds t th (hold ht)
  · exact fun t th ht => h.script t th (hold ht)

section Switch

variable {u : ThreadId} {th new : HostThread} {phase : HostPhase} {sp newSp : Nat}

theorem Inv.frame (h : Inv linked s) (hth : s.thread s.current = some th) (hphase : th.status = .runs phase) :
    phase.Frame linked th.place th.func th.arg s.machine.mem := by
  have hholds := h.holds _ th hth
  rw [hphase] at hholds
  cases hholds with
  | runs hframe => exact hframe

theorem Inv.sp_lt_words (h : Inv linked s) (hcalls : Calls linked s u th new phase sp) : sp < th.place.words :=
  hcalls.sp_lt.trans_le (h.frame hcalls.thread hcalls.runs).le

/-- `SWITCH` runs to its end. -/
theorem Inv.switched (h : Inv linked s) (hcalls : Calls linked s u th new phase sp) (hlt : newSp < new.place.words)
    (hnewSp : s.machine.mem new.place.object = slot new.place.stack newSp) :
    ∃ m, Switched linked.raxSave s.machine m ∧ Runs linked.code (s.machine, linked.switchAt)
      (m, s.machine.mem (new.place.object + BitVec.ofNat 64 pcOffset)) := by
  have hth := h.proper _ th hcalls.thread
  have hnew := h.proper _ new hcalls.next
  have hapart := h.apart _ _ th new hcalls.other.symm hcalls.thread hcalls.next
  have hsp : sp < th.place.words := h.sp_lt_words hcalls
  have hsave : ∀ {p : Place} {a : X86.Word}, p.Proper linked.raxSave → p.Owns a → a ≠ linked.raxSave := by
    rintro p a hproper howns rfl
    exact hproper.save howns
  have hnewOwns : new.place.Owns (slot new.place.stack newSp) := .inr ⟨newSp, hlt, rfl⟩
  rw [← hcalls.rsi] at hnewSp ⊢
  apply switch_runs linked.holds_switch
  · rw [hcalls.rdi]
    exact hth.aligned_object
  · rw [hcalls.rsi]
    exact hnew.aligned_object
  · exact linked.aligned_raxSave
  · rw [hcalls.rsp]
    exact hth.aligned_stack.slot
  · rw [hnewSp]
    exact hnew.aligned_stack.slot
  · rw [hcalls.rdi, hcalls.rsi]
    exact fun a ha hin => hapart a (.inl ha) (.inl hin)
  · rw [hcalls.rdi]
    exact fun hin => hth.save (.inl hin)
  · rw [hcalls.rsi]
    exact fun hin => hnew.save (.inl hin)
  · rw [hcalls.rdi, hcalls.rsp]
    exact hth.disjoint sp hsp
  · rw [hcalls.rsp]
    exact hsave hth (.inr ⟨sp, hsp, rfl⟩)
  · rw [hcalls.rdi, hnewSp]
    exact fun hin => hapart _ (.inl hin) hnewOwns
  · rw [hnewSp]
    exact hsave hnew hnewOwns

/-- What `SWITCH` leaves of the thread that has called it. -/
theorem Inv.saved (h : Inv linked s) (hcalls : Calls linked s u th new phase sp) (hlt : newSp < new.place.words)
    (hnewSp : s.machine.mem new.place.object = slot new.place.stack newSp) {m : X86.Machine}
    (hswitched : Switched linked.raxSave s.machine m) : Saved linked th.place m.mem phase s.machine sp := by
  have hth := h.proper _ th hcalls.thread
  have hapart := h.apart _ _ th new hcalls.other.symm hcalls.thread hcalls.next
  have hregs := hswitched.saved
  have hpc := hswitched.savedPC
  rw [hcalls.rdi] at hregs hpc
  refine ⟨hregs, hpc, hcalls.rsp, hcalls.sp_lt, ?_, hcalls.caller⟩
  intro i hi hiw
  have howns : th.place.Owns (slot th.place.stack i) := .inr ⟨i, hiw, rfl⟩
  apply hswitched.others
  · rintro heq
    exact hth.save (heq ▸ howns)
  · rw [hcalls.rdi]
    exact hth.disjoint i hiw
  · rw [hcalls.rsi, hnewSp]
    rintro heq
    exact hapart _ howns (.inr ⟨newSp, hlt, heq⟩)

theorem offset_of_saved : ∀ r : Reg, r ≠ .rsp → r ∉ [Reg.r8, .r9, .r10, .r11] →
    ∃ entry ∈ contextTable, entry.1 = r := by
  decide

/-- A thread that has called `SWITCH` gets the processor again. -/
theorem resumes_of_saved {left m : X86.Machine} {place : Place} (h : Saved linked place s.machine.mem phase left newSp)
    (hrsi : s.machine.reg .rsi = place.object) (hswitched : Switched linked.raxSave s.machine m)
    (hkept : ∀ a, place.Owns a → a ≠ s.machine.mem place.object → m.mem a = s.machine.mem a) :
    Resumes place left newSp m (s.machine.mem (place.object + BitVec.ofNat 64 pcOffset)) := by
  have hnewSp : s.machine.mem place.object = slot place.stack newSp := by
    have hsaved := h.regs (.rsp, 0) (by decide)
    rw [show place.object + BitVec.ofNat 64 0 = place.object from BitVec.add_zero _] at hsaved
    exact hsaved.trans h.rsp
  refine ⟨h.pc, ?_, ?_, ?_⟩
  · intro r hrsp hscratch
    obtain ⟨entry, hentry, rfl⟩ := offset_of_saved r hrsp hscratch
    rw [hswitched.restored entry hentry hrsp, hrsi]
    exact h.regs entry hentry
  · rw [hswitched.rsp, hrsi, hnewSp, h.rsp]
  · intro i hi hlt
    by_cases htop : slot place.stack i = slot place.stack newSp
    · have hvalue := hswitched.top
      rw [hrsi, hnewSp, h.pc, h.rsp] at hvalue
      rw [htop]
      exact hvalue
    · rw [hkept _ (.inr ⟨i, hlt, rfl⟩) (hnewSp ▸ htop)]
      exact h.stack i hi hlt

/-- A thread gets the processor for the first time. -/
theorem first_arrives {place : Place} {func arg : X86.Word} {m : X86.Machine} (hproper : place.Proper linked.raxSave)
    (hwords : place.words = hostStackSize) (hfunc : linked.code func = none)
    (h : FirstContext linked place.object place.stack func arg s.machine.mem)
    (hrsi : s.machine.reg .rsi = place.object) (hswitched : Switched linked.raxSave s.machine m) :
    ∃ m', Runs linked.code (m, linked.threadRoot) (m', linked.setupThreadState) ∧
      m'.reg .rsp = slot place.stack (rootFrame place.words) ∧
      HostPhase.startup.Frame linked place func arg m'.mem ∧ ∀ a, ¬ place.Owns a → m'.mem a = m.mem a := by
  have hrsp : m.reg .rsp = slot place.stack (rootFrame place.words + 5) := by
    rw [hswitched.rsp, hrsi, h.rsp, ← slot_succ, hwords]
    rfl
  have hrestored := hswitched.restored
  rw [hrsi] at hrestored
  have hlt : rootFrame place.words + 5 < 2 ^ 61 := by
    rw [hwords]
    decide
  obtain ⟨m', hruns, hrsp', hreturn, harg, hentry, hdone, hothers⟩ :=
    threadRoot_starts linked.holds_threadRoot hproper.aligned_stack hlt hrsp
  refine ⟨m', ?_, hrsp', .startup hwords hfunc hreturn ?_ ?_ ?_, ?_⟩
  · rw [hrestored (.rcx, 24) (by decide) (by decide), h.startup] at hruns
    exact hruns
  · rw [harg, hrestored (.rdx, 32) (by decide) (by decide), h.arg]
  · rw [hentry, hrestored (.rsi, 48) (by decide) (by decide), h.func]
  · rw [hdone, hrestored (.rdi, 56) (by decide) (by decide), h.whenDone]
  · intro a ha
    apply hothers
    rintro j hj rfl
    refine ha (.inr ⟨rootFrame place.words + j, ?_, rfl⟩)
    rw [hwords]
    simp only [rootFrame, hostStackSize]
    omega

/-- Where the machine arrives when a thread calls `SWITCH`. -/
structure Arrival (linked : KernelImage) (s : HostState) (th new : HostThread) (phase : HostPhase) (sp : Nat)
    (m : X86.Machine) (rip : X86.Word) : Prop where
  compiled : linked.code rip = none
  saved : Saved linked th.place m.mem phase s.machine sp
  kept : ∀ a, a ≠ linked.raxSave → ¬ th.place.Owns a → ¬ new.place.Owns a → m.mem a = s.machine.mem a
  frame : (resumed new.status).Frame linked new.place new.func new.arg m.mem
  script : Script linked new.place new.func new.arg (.runs (resumed new.status)) (new.history ++ [.arrives m rip])

theorem Inv.switch_arrives (h : Inv linked s) (hcalls : Calls linked s u th new phase sp) :
    ∃ m rip, Runs linked.code (s.machine, linked.switchAt) (m, rip) ∧ Arrival linked s th new phase sp m rip := by
  have hproper := h.proper _ new hcalls.next
  have hapart := h.apart _ _ th new hcalls.other.symm hcalls.thread hcalls.next
  have hholds := h.holds _ new hcalls.next
  have hscript := h.script _ new hcalls.next
  -- What `SWITCH` itself leaves alone.
  have hkept : ∀ {newSp m}, newSp < new.place.words → s.machine.mem new.place.object = slot new.place.stack newSp →
      Switched linked.raxSave s.machine m → ∀ a, a ≠ linked.raxSave → ¬ th.place.Owns a →
      a ≠ s.machine.mem new.place.object → m.mem a = s.machine.mem a := by
    intro newSp m hlt hnewSp hswitched a hsave hth htop
    apply hswitched.others a hsave
    · rw [hcalls.rdi]
      exact fun hin => hth (.inl hin)
    · rw [hcalls.rsi]
      exact htop
  generalize hstatus : new.status = status at hholds hscript
  cases hholds with
  | @runs phase' hframe => exact absurd (h.others _ new phase' hcalls.next hstatus) hcalls.other
  | new hwords hfunc hcontext =>
      have hlt : hostStackSize - 8 < new.place.words := by
        rw [hwords]
        decide
      obtain ⟨m, hswitched, hruns⟩ := h.switched hcalls hlt hcontext.rsp
      obtain ⟨m', hroot, hrsp, hframe, hothers⟩ :=
        first_arrives hproper hwords hfunc hcontext hcalls.rsi hswitched
      rw [hcontext.pc] at hruns
      have hhistory : new.history = [] := by
        generalize new.history = history at hscript
        cases hscript
        rfl
      refine ⟨m', _, hruns.trans hroot, linked.setup_compiled, ?_, ?_, ?_, ?_⟩
      · refine (h.saved hcalls hlt hcontext.rsp hswitched).congr ?_ ?_
        · exact fun a ha => hothers a (hapart a (.inl ha))
        · exact fun i _ hi => hothers _ (hapart _ (.inr ⟨i, hi, rfl⟩))
      · intro a hsave hth hnew
        refine (hothers a hnew).trans (hkept hlt hcontext.rsp hswitched a hsave hth ?_)
        rintro rfl
        exact hnew (.inr ⟨_, hlt, hcontext.rsp⟩)
      · rw [hstatus]
        exact hframe
      · rw [hstatus, hhistory]
        exact .startup hrsp
  | @waits phase' left newSp hframe hsaved =>
      have hlt : newSp < new.place.words := hsaved.sp_lt.trans_le hframe.le
      have hnewSp : s.machine.mem new.place.object = slot new.place.stack newSp := by
        have hrsp := hsaved.regs (.rsp, 0) (by decide)
        rw [show new.place.object + BitVec.ofNat 64 0 = new.place.object from BitVec.add_zero _] at hrsp
        exact hrsp.trans hsaved.rsp
      obtain ⟨m, hswitched, hruns⟩ := h.switched hcalls hlt hnewSp
      have howned : ∀ a, new.place.Owns a → a ≠ s.machine.mem new.place.object → m.mem a = s.machine.mem a := by
        intro a ha htop
        refine hkept hlt hnewSp hswitched a ?_ (fun hin => hapart a hin ha) htop
        rintro rfl
        exact hproper.save ha
      have hresumes := resumes_of_saved hsaved hcalls.rsi hswitched howned
      refine ⟨m, _, hruns, ?_, h.saved hcalls hlt hnewSp hswitched, ?_, ?_, ?_⟩
      · rw [hresumes.rip]
        exact hsaved.caller
      · intro a hsave hth hnew
        refine hkept hlt hnewSp hswitched a hsave hth ?_
        rintro rfl
        exact hnew (.inr ⟨_, hlt, hnewSp⟩)
      · rw [hstatus]
        apply hframe.congr
        intro i hi hiw
        have hle := hsaved.sp_lt.le.trans hi
        exact (hresumes.stack i hle hiw).trans (hsaved.stack i hle hiw).symm
      · rw [hstatus]
        exact .resume hscript hresumes

theorem Inv.switch (h : Inv linked s) {m : X86.Machine} {rip : X86.Word} (hcalls : Calls linked s u th new phase sp)
    (hruns : Runs linked.code (s.machine, linked.switchAt) (m, rip)) (hleft : linked.code rip = none) :
    Inv linked ⟨m, u, Function.update (Function.update s.thread s.current
        (some { th with status := .waits phase s.machine sp, history := th.history ++ [.leaves s.machine] }))
      u (some { new with status := .runs (resumed new.status), history := new.history ++ [.arrives m rip] })⟩ := by
  obtain ⟨m', rip', hruns', harrival⟩ := h.switch_arrives hcalls
  cases hruns.unique hruns' hleft harrival.compiled
  set old : HostThread :=
    { th with status := .waits phase s.machine sp, history := th.history ++ [.leaves s.machine] }
  set next : HostThread :=
    { new with status := .runs (resumed new.status), history := new.history ++ [.arrives m rip] }
  -- A thread is the one that gets the processor, the one that had it, or another one, which is as it was.
  have hcases : ∀ {t v}, Function.update (Function.update s.thread s.current (some old)) u (some next) t = some v →
      t = u ∧ v = next ∨ t = s.current ∧ v = old ∨ t ≠ u ∧ t ≠ s.current ∧ s.thread t = some v := by
    intro t v ht
    by_cases htu : t = u
    · subst htu
      rw [Function.update_self] at ht
      cases ht
      exact .inl ⟨rfl, rfl⟩
    · rw [Function.update_of_ne htu] at ht
      by_cases htc : t = s.current
      · subst htc
        rw [Function.update_self] at ht
        cases ht
        exact .inr (.inl ⟨rfl, rfl⟩)
      · rw [Function.update_of_ne htc] at ht
        exact .inr (.inr ⟨htu, htc, ht⟩)
  -- Its place is as it was.
  have hplace : ∀ {t v}, Function.update (Function.update s.thread s.current (some old)) u (some next) t = some v →
      ∃ v', s.thread t = some v' ∧ v'.place = v.place := by
    intro t v ht
    rcases hcases ht with ⟨rfl, rfl⟩ | ⟨rfl, rfl⟩ | ⟨-, -, ht⟩
    · exact ⟨new, hcalls.next, rfl⟩
    · exact ⟨th, hcalls.thread, rfl⟩
    · exact ⟨v, ht, rfl⟩
  refine ⟨⟨next, _, Function.update_self _ _ _, rfl⟩, ?_, ?_, ?_, ?_, ?_⟩
  · intro t v phase' ht hphase
    rcases hcases ht with ⟨rfl, -⟩ | ⟨-, rfl⟩ | ⟨-, htc, ht⟩
    · rfl
    · cases hphase
    · exact absurd (h.others t v phase' ht hphase) htc
  · intro t v ht
    obtain ⟨v', ht', hv⟩ := hplace ht
    exact hv ▸ h.proper t v' ht'
  · intro t w v wh htw ht hw
    obtain ⟨v', ht', hv⟩ := hplace ht
    obtain ⟨w', hw', hwh⟩ := hplace hw
    rw [← hv, ← hwh]
    exact h.apart t w v' w' htw ht' hw'
  · intro t v ht
    rcases hcases ht with ⟨-, rfl⟩ | ⟨-, rfl⟩ | ⟨htu, htc, ht⟩
    · exact .runs harrival.frame
    · refine .waits ?_ harrival.saved
      apply (h.frame hcalls.thread hcalls.runs).congr
      intro i hi hlt
      exact harrival.saved.stack i (hcalls.sp_lt.le.trans hi) hlt
    · have hkept : ∀ a, v.place.Owns a → m.mem a = s.machine.mem a := by
        intro a ha
        apply harrival.kept
        · rintro rfl
          exact (h.proper t v ht).save ha
        · exact h.apart t _ v th htc ht hcalls.thread a ha
        · exact h.apart t _ v new htu ht hcalls.next a ha
      exact (h.holds t v ht).congr (fun _ a ha => hkept a (.inl ha)) fun i _ hi => hkept _ (.inr ⟨i, hi, rfl⟩)
  · intro t v ht
    rcases hcases ht with ⟨-, rfl⟩ | ⟨-, rfl⟩ | ⟨-, -, ht⟩
    · exact harrival.script
    · have hscript := h.script _ th hcalls.thread
      rw [hcalls.runs] at hscript
      exact .leave hscript
    · exact h.script t v ht

end Switch

section Return

variable {th : HostThread} {phase next : HostPhase}

/-- Where the machine arrives when a function that `ThreadRoot` has called returns. -/
theorem Inv.ret_arrives (h : Inv linked s) (hth : s.thread s.current = some th) (hphase : th.status = .runs phase)
    (hnext : Follows phase next) (hrsp : s.machine.reg .rsp = slot th.place.stack (phase.frame th.place.words)) :
    ∃ m rip, Runs linked.code (s.machine.setReg .rsp (s.machine.reg .rsp + 8),
        s.machine.mem (slot th.place.stack (phase.frame th.place.words))) (m, rip) ∧ linked.code rip = none ∧
      (∀ a, ¬ th.place.Owns a → m.mem a = s.machine.mem a) ∧ next.Frame linked th.place th.func th.arg m.mem ∧
      Script linked th.place th.func th.arg (.runs next) (th.history ++ [.returns, .arrives m rip]) := by
  have hproper := h.proper _ th hth
  have hscript := h.script _ th hth
  rw [hphase] at hscript
  have hrsp' : (s.machine.setReg .rsp (s.machine.reg .rsp + 8)).reg .rsp =
      slot th.place.stack (phase.frame th.place.words + 1) := by
    rw [X86.Machine.setReg_reg_self, hrsp, slot_succ]
  have howns : ∀ k, k < 4 → th.place.words = hostStackSize →
      th.place.Owns (slot th.place.stack (rootFrame th.place.words + k)) := by
    intro k hk hwords
    refine .inr ⟨_, ?_, rfl⟩
    rw [hwords]
    simp only [rootFrame, hostStackSize]
    omega
  have hdistinct : ∀ j k, j < 4 → k < 4 → j ≠ k → th.place.words = hostStackSize →
      slot th.place.stack (rootFrame th.place.words + j) ≠ slot th.place.stack (rootFrame th.place.words + k) := by
    intro j k hj hk hjk hwords
    rw [hwords]
    refine slot_ne ?_ ?_ ?_
    · simp only [rootFrame, hostStackSize]
      omega
    · simp only [rootFrame, hostStackSize]
      omega
    · omega
  cases h.frame hth hphase with
  | main => cases hnext
  | startup hwords hfunc hreturn harg hentry hdone =>
      cases hnext
      obtain ⟨m, hruns, hrdi, hsp, hmem⟩ :=
        threadRoot_enters linked.holds_threadRoot hproper.aligned_stack hrsp'
      rw [X86.Machine.setReg_mem] at hruns hrdi hmem
      change Runs _ (_, _) (m, s.machine.mem (slot th.place.stack (rootFrame th.place.words + 2))) at hruns
      rw [hentry] at hruns
      refine ⟨m, th.func, ?_, hfunc, ?_, ?_, .body hscript (hrdi.trans harg) hsp⟩
      · show Runs _ (_, s.machine.mem (slot th.place.stack (rootFrame th.place.words))) _
        rw [hreturn]
        exact hruns
      · intro a ha
        rw [hmem]
        refine Function.update_of_ne ?_ _ _
        rintro rfl
        exact ha (howns 2 (by decide) hwords)
      · refine .body hwords ?_ ?_
        · rw [hmem]
          exact Function.update_self _ _ _
        · rw [hmem]
          exact (Function.update_of_ne (hdistinct 3 2 (by decide) (by decide) (by decide) hwords) _ _).trans hdone
  | body hwords hreturn hdone =>
      cases hnext
      obtain ⟨m, hruns, hsp, hmem⟩ := threadRoot_finishes linked.holds_threadRoot hproper.aligned_stack hrsp'
      rw [X86.Machine.setReg_mem] at hruns hmem
      change Runs _ (_, _) (m, s.machine.mem (slot th.place.stack (rootFrame th.place.words + 3))) at hruns
      rw [hdone] at hruns
      refine ⟨m, linked.threadFinish, ?_, linked.finish_compiled, ?_, .finishing hwords, .finishing hscript hsp⟩
      · show Runs _ (_, s.machine.mem (slot th.place.stack (rootFrame th.place.words + 2))) _
        rw [hreturn]
        exact hruns
      · intro a ha
        rw [hmem]
        refine Function.update_of_ne ?_ _ _
        rintro rfl
        exact ha (howns 3 (by decide) hwords)
  | finishing hwords => cases hnext

theorem Inv.ret (h : Inv linked s) {m : X86.Machine} {rip : X86.Word} (hth : s.thread s.current = some th)
    (hphase : th.status = .runs phase) (hnext : Follows phase next)
    (hrsp : s.machine.reg .rsp = slot th.place.stack (phase.frame th.place.words))
    (hruns : Runs linked.code (s.machine.setReg .rsp (s.machine.reg .rsp + 8),
      s.machine.mem (slot th.place.stack (phase.frame th.place.words))) (m, rip)) (hleft : linked.code rip = none) :
    Inv linked { s with
      machine := m
      thread := Function.update s.thread s.current
        (some { th with status := .runs next, history := th.history ++ [.returns, .arrives m rip] }) } := by
  obtain ⟨m', rip', hruns', hcompiled, hkept, hframe, hscript⟩ := h.ret_arrives hth hphase hnext hrsp
  cases hruns.unique hruns' hleft hcompiled
  set new : HostThread := { th with status := .runs next, history := th.history ++ [.returns, .arrives m rip] }
  have hcases : ∀ {t v}, Function.update s.thread s.current (some new) t = some v →
      t = s.current ∧ v = new ∨ t ≠ s.current ∧ s.thread t = some v := by
    intro t v ht
    by_cases htc : t = s.current
    · subst htc
      rw [Function.update_self] at ht
      cases ht
      exact .inl ⟨rfl, rfl⟩
    · rw [Function.update_of_ne htc] at ht
      exact .inr ⟨htc, ht⟩
  have hplace : ∀ {t v}, Function.update s.thread s.current (some new) t = some v →
      ∃ v', s.thread t = some v' ∧ v'.place = v.place := by
    intro t v ht
    rcases hcases ht with ⟨rfl, rfl⟩ | ⟨-, ht⟩
    · exact ⟨th, hth, rfl⟩
    · exact ⟨v, ht, rfl⟩
  refine ⟨⟨new, next, Function.update_self _ _ _, rfl⟩, ?_, ?_, ?_, ?_, ?_⟩
  · intro t v phase' ht hphase'
    rcases hcases ht with ⟨rfl, -⟩ | ⟨-, ht⟩
    · rfl
    · exact h.others t v phase' ht hphase'
  · intro t v ht
    obtain ⟨v', ht', hv⟩ := hplace ht
    exact hv ▸ h.proper t v' ht'
  · intro t w v wh htw ht hw
    obtain ⟨v', ht', hv⟩ := hplace ht
    obtain ⟨w', hw', hwh⟩ := hplace hw
    rw [← hv, ← hwh]
    exact h.apart t w v' w' htw ht' hw'
  · intro t v ht
    rcases hcases ht with ⟨-, rfl⟩ | ⟨htc, ht⟩
    · exact .runs hframe
    · exact h.holds_other htc ht hth fun a hout _ => hkept a hout
  · intro t v ht
    rcases hcases ht with ⟨-, rfl⟩ | ⟨-, ht⟩
    · exact hscript
    · exact h.script t v ht

end Return

theorem reachable_inv (h : (hostThreads linked).Reachable s) : Inv linked s := by
  induction h with
  | init h =>
      obtain ⟨place, func, arg, hproper, hthread⟩ := h
      rename_i s₀
      have hmain : ∀ {t th}, s₀.thread t = some th → t = s₀.current ∧ th = ⟨place, func, arg, .runs .main, []⟩ := by
        intro t th ht
        rw [hthread, Function.update_apply] at ht
        split at ht
        · cases ht
          exact ⟨‹_›, rfl⟩
        · cases ht
      refine ⟨⟨_, .main, hthread ▸ Function.update_self _ _ _, rfl⟩, ?_, ?_, ?_, ?_, ?_⟩
      · exact fun t th _ ht _ => (hmain ht).1
      · intro t th ht
        obtain ⟨-, rfl⟩ := hmain ht
        exact hproper
      · intro t u th uh htu ht hu
        exact absurd ((hmain ht).1.trans (hmain hu).1.symm) htu
      · intro t th ht
        obtain ⟨-, rfl⟩ := hmain ht
        exact .runs .main
      · intro t th ht
        obtain ⟨-, rfl⟩ := hmain ht
        exact .main
  | step _ hstep ih =>
      cases hstep with
      | compute m hprotected => exact ih.compute hprotected
      | start u place func arg hfresh hproper hwords hfree hfunc => exact ih.start hfresh hproper hwords hfree hfunc
      | delete u hother => exact ih.delete hother
      | switch u th new phase sp m rip hcalls hruns hleft => exact ih.switch hcalls hruns hleft
      | ret th phase next m rip hth hphase hnext hrsp hruns hleft => exact ih.ret hth hphase hnext hrsp hruns hleft

/-- Every thread runs as if it were alone. It calls the startup function, its own function with its argument and
`ThreadFinish` in this order; a call of `SWITCH` ends and, when the thread gets the processor again, returns to where it
was made, with the registers and the stack as they were. -/
theorem threads_run_on (h : (hostThreads linked).Reachable s) :
    (∀ t th, s.thread t = some th → Script linked th.place th.func th.arg th.status th.history) ∧
      (∀ u th new phase sp, Calls linked s u th new phase sp →
        ∃ m rip, Runs linked.code (s.machine, linked.switchAt) (m, rip) ∧ linked.code rip = none) ∧
      ∀ th phase next, s.thread s.current = some th → th.status = .runs phase → Follows phase next →
        s.machine.reg .rsp = slot th.place.stack (phase.frame th.place.words) →
        ∃ m rip, Runs linked.code (s.machine.setReg .rsp (s.machine.reg .rsp + 8),
          s.machine.mem (slot th.place.stack (phase.frame th.place.words))) (m, rip) ∧ linked.code rip = none := by
  have hinv := reachable_inv h
  refine ⟨hinv.script, ?_, ?_⟩
  · intro u th new phase sp hcalls
    obtain ⟨m, rip, hruns, harrival⟩ := hinv.switch_arrives hcalls
    exact ⟨m, rip, hruns, harrival.compiled⟩
  · intro th phase next hth hphase hnext hrsp
    obtain ⟨m, rip, hruns, hcompiled, -⟩ := hinv.ret_arrives hth hphase hnext hrsp
    exact ⟨m, rip, hruns, hcompiled⟩

end HostState

section Sample

/-- The code at the addresses 0 and 64, with instructions of one byte. -/
def sampleCode : Code := fun a =>
  if a.toNat < 64 then ((switchCode 2048)[a.toNat]?).map (·, a + 1)
  else (threadRootCode[a.toNat - 64]?).map (·, a + 1)

def sampleImage : KernelImage where
  code := sampleCode
  raxSave := 2048
  switchAt := 0
  switchEnd := 35
  threadRoot := 64
  threadRootEnd := 78
  setupThreadState := 512
  threadFinish := 513
  holds_switch := by
    repeat first | exact rfl | refine ⟨_, rfl, ?_⟩
  holds_threadRoot := by
    repeat first | exact rfl | refine ⟨_, rfl, ?_⟩
  aligned_raxSave := rfl
  setup_compiled := rfl
  finish_compiled := rfl

section Range

variable {place other : Place} {a raxSave : X86.Word}

/-- A place whose object lies below its stack. -/
structure Place.Ordered (place : Place) : Prop where
  object : place.object.toNat + contextSize ≤ place.stack.toNat
  stack : place.stack.toNat + 8 * place.words < 2 ^ 64

theorem toNat_of_inContext (h : place.Ordered) (ha : InContext place.object a) :
    place.object.toNat ≤ a.toNat ∧ a.toNat < place.object.toNat + contextSize := by
  obtain ⟨k, hk, rfl⟩ := ha
  have hobject := h.object
  have hstack := h.stack
  rw [BitVec.toNat_add, BitVec.toNat_ofNat, Nat.mod_eq_of_lt (by omega : k < 2 ^ 64), Nat.mod_eq_of_lt (by omega)]
  omega

theorem toNat_slot (h : place.Ordered) {i : Nat} (hi : i < place.words) :
    (slot place.stack i).toNat = place.stack.toNat + 8 * i := by
  have hstack := h.stack
  rw [slot, BitVec.toNat_add, BitVec.toNat_ofNat, Nat.mod_eq_of_lt (by omega : 8 * i < 2 ^ 64),
    Nat.mod_eq_of_lt (by omega)]

theorem toNat_of_owns (h : place.Ordered) (ha : place.Owns a) :
    place.object.toNat ≤ a.toNat ∧ a.toNat < place.stack.toNat + 8 * place.words := by
  have hobject := h.object
  rcases ha with ha | ⟨i, hi, rfl⟩
  · have := toNat_of_inContext h ha
    omega
  · rw [toNat_slot h hi]
    omega

theorem Place.Ordered.proper (h : place.Ordered) (hobject : Aligned place.object) (hstack : Aligned place.stack)
    (hsave : raxSave.toNat < place.object.toNat) : place.Proper raxSave := by
  have hlt := h.stack
  refine ⟨hobject, hstack, by omega, ?_, ?_⟩
  · intro i hi hin
    have hrange := toNat_of_inContext h hin
    have horder := h.object
    rw [toNat_slot h hi] at hrange
    omega
  · intro howns
    have hrange := toNat_of_owns h howns
    omega

theorem Place.Ordered.apart (h : place.Ordered) (h' : other.Ordered)
    (hbelow : other.stack.toNat + 8 * other.words ≤ place.object.toNat) : place.Apart other := by
  intro a ha hother
  have hrange := toNat_of_owns h ha
  have hrange' := toNat_of_owns h' hother
  omega

end Range

/-- The main thread, and another one. -/
def samplePlaces : Place × Place := (⟨4096, 8192, 16⟩, ⟨65536, 131072, hostStackSize⟩)

theorem ordered_samplePlaces : samplePlaces.1.Ordered ∧ samplePlaces.2.Ordered :=
  ⟨⟨by decide, by decide⟩, ⟨by decide, by decide⟩⟩

/-- The main thread calls `SWITCH` for the other one. -/
def sampleState : HostState where
  machine := ⟨fun r => if r = .rdi then 4096 else if r = .rsi then 65536 else if r = .rsp then slot 8192 3 else 0,
    fun _ => 600⟩
  current := 1
  thread := Function.update (fun _ => none) 1 (some ⟨samplePlaces.1, 0, 0, .runs .main, []⟩)

/-- The main thread has started a thread and called `SWITCH`: the thread begins with `SetupThreadState`. -/
theorem HostState.threads_run_on_started : ∃ s, (hostThreads sampleImage).Reachable s ∧ s.current = 2 ∧
    ∃ th m, s.thread 2 = some th ∧ th.status = .runs .startup ∧ th.history = [.arrives m 512] := by
  obtain ⟨hmain, hother⟩ := ordered_samplePlaces
  have h₀ : (hostThreads sampleImage).Reachable sampleState :=
    .init ⟨samplePlaces.1, 0, 0, hmain.proper rfl rfl (by decide), rfl⟩
  have h₁ := h₀.step (Step.start 2 samplePlaces.2 514 7 rfl (hother.proper rfl rfl (by decide)) rfl
    (by
      intro t th ht
      have hth : th.place = samplePlaces.1 := by
        simp only [sampleState, Function.update_apply] at ht
        split at ht
        · cases ht
          rfl
        · cases ht
      rw [hth]
      exact hother.apart hmain (by decide)) rfl)
  have hcaller : stackAllocate sampleImage 65536 131072 514 7 (fun _ => 600) (slot 8192 3) = 600 := by
    apply stackAllocate_of_ne
    · intro hin
      have hrange := toNat_of_inContext hother hin
      revert hrange
      decide
    · decide
  have hreturn :
      sampleImage.code (stackAllocate sampleImage 65536 131072 514 7 (fun _ => 600) (slot 8192 3)) = none := by
    rw [hcaller]
    rfl
  obtain ⟨m, rip, hruns, hleft⟩ := (threads_run_on h₁).2.1 2 _ _ .main 3
    ⟨rfl, rfl, by decide, rfl, rfl, rfl, rfl, by decide, hreturn⟩
  have h₂ := h₁.step (Step.switch 2 _ _ .main 3 m rip
    ⟨rfl, rfl, by decide, rfl, rfl, rfl, rfl, by decide, hreturn⟩ hruns hleft)
  have hscript := (threads_run_on h₂).1 2 _ rfl
  refine ⟨_, h₂, rfl, _, m, rfl, rfl, ?_⟩
  generalize hhistory : [] ++ [HostEvent.arrives m rip] = history at hscript
  cases hscript with
  | startup hrsp =>
      obtain ⟨rfl, -⟩ := HostEvent.arrives.inj (List.cons.inj hhistory).1
      rfl
  | resume h hresumes =>
      cases h with
      | leave h =>
          have hlength := congrArg List.length hhistory
          simp at hlength

end Sample

end Nachos

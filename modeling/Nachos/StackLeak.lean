import Nachos.BitMapSet
import Nachos.LockValue
import Nachos.ThreadLock

/-! The stacks that failed calls of `do_ThreadCreate` cost, `userprog/userthread.cc`. `Find` marks a stack before
`new Thread` is called. If that returns `NULL` then the call returns -1 and the stack stays marked: no thread owns it,
so that no exit clears it. -/

namespace Nachos

open Interleaving

/-- The number of slots that have a thread. -/
def ThreadTable.occupied (table : ThreadTable) : Nat := table.gThreads.countP fun t => t != 0

/-- Every marked stack belongs to a thread of the table, to the call that has just found it, or is one of the `lost`
stacks that belong to nobody. -/
structure StacksCounted (reserved : Option Nat) (lost : Nat) (table : ThreadTable) : Prop where
  length_gThreads : table.gThreads.length = maxThreads
  numBits_stackMap : table.stackMap.numBits = maxThreads
  marked : ∀ i < maxThreads, table.owner i ≠ 0 → i ∈ table.stackMap.toSet
  vacant : ∀ i, reserved = some i → i < maxThreads ∧ i ∈ table.stackMap.toSet ∧ table.owner i = 0
  card_toSet : table.stackMap.toSet.card = table.occupied + reserved.toList.length + lost

namespace StacksCounted

variable {reserved : Option Nat} {lost : Nat} {table : ThreadTable}

theorem occupied_set {i : Nat} (hi : i < table.gThreads.length) (t : ThreadId) :
    (table.gThreads.set i t).countP (fun t => t != 0) + (if table.owner i ≠ 0 then 1 else 0) =
      table.occupied + if t ≠ 0 then 1 else 0 := by
  have howner : table.owner i = table.gThreads[i] := List.getD_eq_getElem _ _ hi
  have hpos : table.gThreads[i] ≠ 0 → 0 < table.occupied := by
    intro hne
    rw [ThreadTable.occupied, List.countP_pos_iff]
    exact ⟨_, List.getElem_mem hi, by simpa using hne⟩
  rw [List.countP_set hi, howner]
  unfold ThreadTable.occupied at *
  by_cases hold : table.gThreads[i] = 0
  · by_cases ht : t = 0
    · simp [hold, ht]
    · simp [hold, ht]
  · have hlt := hpos hold
    by_cases ht : t = 0
    · simp [hold, ht]
      omega
    · simp [hold, ht]
      omega

/-- The search marks a vacant stack, or the map is full. -/
theorem findStack (h : StacksCounted none lost table) :
    table.findStack = (-1, table) ∨
      ∃ i : Nat, table.findStack.1 = ↑i ∧ StacksCounted (some i) lost table.findStack.2 := by
  rcases table.stackMap.find_spec with ⟨hfind, -⟩ | ⟨i, hi, hclear, hfind⟩
  · left
    unfold ThreadTable.findStack
    rw [hfind]
  · right
    have habsent : i ∉ table.stackMap.toSet := by
      rw [BitMap.mem_toSet, hclear]
      exact fun hmem => Bool.false_ne_true hmem.2
    have hlt : i < maxThreads := h.numBits_stackMap ▸ hi
    have hvacant : table.owner i = 0 := by
      by_contra howner
      exact habsent (h.marked i hlt howner)
    refine ⟨i, by rw [ThreadTable.findStack, hfind], ?_⟩
    unfold ThreadTable.findStack
    rw [hfind]
    refine ⟨h.length_gThreads, h.numBits_stackMap, ?_, ?_, ?_⟩
    · intro j hj howner
      show j ∈ (table.stackMap.setBit i).toSet
      rw [BitMap.toSet_setBit hi]
      exact Finset.mem_insert_of_mem (h.marked j hj howner)
    · rintro j ⟨⟩
      refine ⟨hlt, ?_, hvacant⟩
      show i ∈ (table.stackMap.setBit i).toSet
      rw [BitMap.toSet_setBit hi]
      exact Finset.mem_insert_self i _
    · show (table.stackMap.setBit i).toSet.card = table.occupied + 1 + lost
      have hcount := h.card_toSet
      rw [BitMap.toSet_setBit hi, Finset.card_insert_of_notMem habsent, hcount]
      simp only [Option.toList_none, List.length_nil]
      omega

/-- The stack that was found is given up without being cleared. -/
theorem lose {i : Nat} (h : StacksCounted (some i) lost table) : StacksCounted none (lost + 1) table := by
  refine ⟨h.length_gThreads, h.numBits_stackMap, h.marked, by rintro i ⟨⟩, ?_⟩
  rw [h.card_toSet]
  simp only [Option.toList_some, Option.toList_none, List.length_singleton, List.length_nil]
  omega

/-- The new thread gets the stack that was found. -/
theorem enter {i : Nat} {u : ThreadId} (h : StacksCounted (some i) lost table) (hnull : u ≠ 0) :
    StacksCounted none lost (table.enter i u) := by
  obtain ⟨hi, hmarked, hvacant⟩ := h.vacant i rfl
  have hlt : i < table.gThreads.length := h.length_gThreads.symm ▸ hi
  have hset := occupied_set hlt u
  rw [if_neg (not_not_intro hvacant), if_pos hnull] at hset
  refine ⟨List.length_set.trans h.length_gThreads, h.numBits_stackMap, ?_, by rintro i ⟨⟩, ?_⟩
  · intro j hj howner
    show j ∈ table.stackMap.toSet
    change (table.gThreads.set i u).getD j 0 ≠ 0 at howner
    rw [TableOk.owner_set hlt] at howner
    split at howner
    · subst j
      exact hmarked
    · exact h.marked j hj howner
  · show table.stackMap.toSet.card = (table.gThreads.set i u).countP (fun t => t != 0) + 0 + lost
    rw [h.card_toSet]
    simp only [Option.toList_some, List.length_singleton]
    omega

/-- A thread that exits clears its stack, if it has one. -/
theorem leave (h : StacksCounted none lost table) {t : ThreadId} (hnull : t ≠ 0) :
    ∃ left, table.leave t = some left ∧ StacksCounted none lost left := by
  unfold ThreadTable.leave ThreadTable.getStackIdFromThread
  cases hidx : table.gThreads.idxOf? t with
  | none => exact ⟨_, if_neg (by decide), ⟨h.length_gThreads, h.numBits_stackMap, h.marked, by rintro i ⟨⟩, h.card_toSet⟩⟩
  | some i =>
      obtain ⟨hi, hit, -⟩ := List.idxOf?_eq_some_iff.mp hidx
      have howner : table.owner i = t := by
        rw [ThreadTable.owner, List.getD_eq_getElem _ _ hi, hit]
      have hlt : i < maxThreads := h.length_gThreads ▸ hi
      have hbits : i < table.stackMap.numBits := h.numBits_stackMap.symm ▸ hlt
      have hmarked := h.marked i hlt (howner ▸ hnull)
      have hset := occupied_set hi 0
      rw [if_pos (howner ▸ hnull), if_neg (not_not_intro rfl)] at hset
      simp only [if_pos (Int.natCast_nonneg i), BitMap.clear_eq hbits, Option.map_some, Int.toNat_natCast]
      refine ⟨_, rfl, List.length_set.trans h.length_gThreads, h.numBits_stackMap, ?_, by rintro i ⟨⟩, ?_⟩
      · intro j hj hused
        show j ∈ (table.stackMap.clearBit i).toSet
        change (table.gThreads.set i 0).getD j 0 ≠ 0 at hused
        rw [TableOk.owner_set hi] at hused
        rw [BitMap.toSet_clearBit hbits, Finset.mem_erase]
        split at hused
        · exact absurd rfl hused
        · exact ⟨‹_›, h.marked j hj hused⟩
      · show (table.stackMap.clearBit i).toSet.card = (table.gThreads.set i 0).countP (fun t => t != 0) + 0 + lost
        have hcount := h.card_toSet
        have hpos : 0 < table.stackMap.toSet.card := Finset.card_pos.mpr ⟨i, hmarked⟩
        rw [BitMap.toSet_clearBit hbits, Finset.card_erase_of_mem hmarked]
        simp only [Option.toList_none, List.length_nil] at hcount
        omega

theorem new (garbage : Nat → Word) : StacksCounted none 0 (.new garbage) := by
  refine ⟨List.length_replicate, BitMap.numBits_new maxThreads garbage, ?_, by rintro i ⟨⟩, ?_⟩
  · intro i hi howner
    exact absurd (List.getD_replicate 0 hi) howner
  · show (BitMap.new maxThreads garbage).toSet.card = _
    rw [BitMap.toSet_new]
    rfl

end StacksCounted

/-- The table and the number of lost stacks while a thread holds the lock. -/
def CountStage (t : ThreadId) (point : LockPoint) (table : ThreadTable) (lost : Nat) : Prop :=
  match point with
  | .allocate _ _ _ i => StacksCounted (some i) lost table
  | .failed => ∃ i, StacksCounted (some i) lost table
  | .enter _ _ _ i u => u ≠ 0 ∧ StacksCounted (some i) lost table
  | .leave => t ≠ 0 ∧ StacksCounted none lost table
  | .aborted => False
  | _ => StacksCounted none lost table

/-- A stack is lost with every allocation that fails, and with nothing else. -/
theorem stacks_counted : LockInvariant (fun table log => StacksCounted none (log.countP isOutOfMemory) table)
    fun t point table log => CountStage t point table (log.countP isOutOfMemory) := by
  refine ⟨?_, ?_, ?_⟩
  · intro t call point table log hnull hfirst h
    rw [List.countP_append]
    cases point with
    | find f arg fExit => exact h
    | leave => exact ⟨hnull, h⟩
    | _ => exact hfirst.elim
  · intro t point next table table' log events h hstep
    rw [List.countP_append]
    cases hstep with
    | find f arg fExit =>
        rcases StacksCounted.findStack h with hfull | ⟨i, hidx, hreserved⟩
        · rw [hfull]
          exact h
        · rw [hidx, LockPoint.found, if_pos (Int.natCast_nonneg i), Int.toNat_natCast]
          exact hreserved
    | allocated f arg fExit i u hnull => exact ⟨hnull, h⟩
    | failed f arg fExit i => exact ⟨i, h⟩
    | report =>
        obtain ⟨i, hreserved⟩ := h
        exact hreserved.lose
    | enter f arg fExit i u => exact h.2.enter h.1
    | start f arg fExit i u => exact h
    | leave left hleft =>
        obtain ⟨left', hleft', hcounted⟩ := h.2.leave h.1
        rw [hleft] at hleft'
        cases hleft'
        exact hcounted
    | abort hleft =>
        obtain ⟨left, hleft', -⟩ := h.2.leave h.1
        rw [hleft] at hleft'
        cases hleft'
  · intro t point table log hlast h
    rw [List.countP_append]
    cases point with
    | result value => exact h
    | left => exact h
    | _ => exact hlast.elim

section Call

/-- The table during a call of `do_ThreadCreate` that has found the table `before`. -/
def CallStage (before : ThreadTable) (point : LockPoint) (table : ThreadTable) : Prop :=
  match point with
  | .find _ _ _ => table = before
  | .allocate _ _ _ _ => table = before.findStack.2
  | .failed => table = before.findStack.2
  | .enter _ _ _ _ _ => True
  | .start _ _ _ _ _ => True
  | .result value => value = -1 → table = before.findStack.2
  | _ => False

/-- Up to the next release of the lock the thread `t` is in the call. -/
theorem call_staged (before : ThreadTable) (t : ThreadId) (n : Nat) :
    LockInvariant (fun _ log => n < releases .threadLock log) fun u point table log =>
      n < releases .threadLock log ∨ u = t ∧ releases .threadLock log = n ∧ CallStage before point table := by
  refine ⟨?_, ?_, ?_⟩
  · intro u call point table log _ _ h
    left
    rw [releases_append]
    omega
  · intro u point next table table' log events h hstep
    have hsame : releases .threadLock events = 0 := by
      cases hstep <;> rfl
    rw [releases_append, hsame]
    refine h.imp_right ?_
    rintro ⟨rfl, hn, hstage⟩
    refine ⟨rfl, hn, ?_⟩
    cases hstep with
    | find f arg fExit =>
        have htable : table = before := hstage
        subst htable
        unfold LockPoint.found
        split
        · rfl
        · exact fun _ => rfl
    | allocated f arg fExit i u hnull => trivial
    | failed f arg fExit i => exact hstage
    | report => exact fun _ => hstage
    | enter f arg fExit i u => trivial
    | start f arg fExit i u => exact fun h => absurd h (by decide)
    | leave left hleft => exact hstage.elim
    | abort hleft => exact hstage.elim
  · intro u point table log _ h
    rw [releases_append, show releases Sem.threadLock [_] = 1 from rfl]
    omega

theorem returnResult_injective {value value' : Word} (h : returnResult value = returnResult value') :
    value = value' := by
  injection h with hact hk
  have hshown := congrFun (congrFun (congrFun hact 0) ⟨.new true [], .new fun _ => 0, fun _ => 0⟩) fun _ => 0
  simp only [Prod.mk.injEq, List.cons.injEq, Observation.resumed.injEq, and_true, true_and] at hshown
  exact congrFun hshown.1 2

theorem finishOrHalt_ne_returnResult (value : Word) : finishOrHalt ≠ returnResult value := by
  intro h
  injection h with hact hk
  have hshown := congrFun (congrFun (congrFun hact 0) ⟨.new true [], .new fun _ => 0, fun _ => 0⟩) fun _ => 0
  simp at hshown

theorem point_of_code {space : AddrSpace} {point : LockPoint} {value : Word}
    (h : point.code space = .semV .threadLock (returnResult value)) : point = .result value := by
  cases point with
  | result value' =>
      injection h with _ hk
      rw [returnResult_injective hk]
  | left =>
      injection h with _ hk
      exact absurd hk (finishOrHalt_ne_returnResult value)
  | allocate f arg fExit i =>
      rw [LockPoint.code, createWithStack, if_pos (Int.natCast_nonneg i)] at h
      cases h
  | _ => injection h

theorem releases_lockLog (s : UserState) : releases .threadLock (lockLog s) = releases .threadLock s.log := by
  apply countP_filter_of_imp
  intro e he
  cases e with
  | released x u =>
      rw [of_decide_eq_true he]
      rfl
  | _ => cases he

/-- The thread has been in the same call since it passed the lock. -/
theorem call_table {space : AddrSpace} {utf8 : Bool} {input : List Byte} {memory : Nat → Byte} {garbage : Nat → Word}
    {s r : UserState} {t : ThreadId} {th th' : UserThread} {f arg fExit : Word}
    (hs : (userSystem space utf8 input memory garbage).interleaving.Reachable s) (hvalue : s.value .threadLock = 0)
    (ht : s.thread t = some th) (hcode : th.code = some (findStack space f arg fExit returnResult))
    (houtside : ∀ u other, u ≠ t → s.thread u = some other → Outside lockRegion (Approaches space) other)
    (hsteps : Relation.ReflTransGen (Step (userSystem space utf8 input memory garbage)) s r)
    (hsame : releases .threadLock r.log = releases .threadLock s.log) (ht' : r.thread t = some th')
    (hcode' : th'.code = some (.semV .threadLock (returnResult (-1)))) :
    r.shared.table = s.shared.table.findStack.2 ∧ r.value .threadLock = 0 := by
  have hbegin : Guarded space (fun _ log => releases .threadLock (lockLog s) < releases .threadLock log)
      (fun u point table log => releases .threadLock (lockLog s) < releases .threadLock log ∨
        u = t ∧ releases .threadLock log = releases .threadLock (lockLog s) ∧ CallStage s.shared.table point table) s :=
    .held t th (.find f arg fExit) hvalue ht hcode (.inr ⟨rfl, rfl, rfl⟩) houtside
  have hequal : releases .threadLock (lockLog r) = releases .threadLock (lockLog s) := by
    rw [releases_lockLog, releases_lockLog, hsame]
  cases hbegin.steps (call_staged s.shared.table t _) hs hsteps with
  | free _ hrest => exact absurd hequal (Nat.ne_of_gt hrest)
  | held u other point hzero hu hpoint hstage =>
      rcases hstage with hlater | ⟨rfl, -, hstage⟩
      · exact absurd hequal (Nat.ne_of_gt hlater)
      · rw [ht'] at hu
        cases hu
        have hresult := point_of_code (Option.some.inj (hpoint.symm.trans hcode'))
        subst hresult
        exact ⟨hstage rfl, hzero⟩

end Call

namespace Kernel

section Moments

variable {Sem κ ι σ ρ ω : Type}

/-- The thread `t` has the processor and goes on with `p`. -/
def Executes (t : ThreadId) (p : Program Sem σ ρ ω) (s : Kernel Sem κ σ ρ ω) : Prop :=
  s.idling = false ∧ s.currentThread = t ∧
    ∃ kont, s.kontOf t = some kont ∧ kont.code = some (some p) ∧ kont.holdsCpu = true

variable [DecidableEq Sem] {system : ThreadSystem Sem κ ι σ ρ ω} {space : Bool} {s r : Kernel Sem κ σ ρ ω}
  {t : ThreadId} {x : Sem} {k : Program Sem σ ρ ω}

theorem Action.semP {th : Thread Sem κ σ ρ ω} {kont : Kont Sem σ ρ ω}
    (hwhere : kont = .run (.semP x k) ∨ kont = .sleep x k) (hvalue : (s.sem x).value ≠ 0)
    (haction : Action system s th kont r) : r = s.passed x k := by
  rcases hwhere with rfl | rfl
  · cases haction with
    | block y k' hkont hzero hswitch =>
        rcases hkont with hkont | hkont
        · cases hkont
          exact absurd hzero hvalue
        · cases hkont
    | pass y k' hkont hopen =>
        rcases hkont with hkont | hkont
        · cases hkont
          rfl
        · cases hkont
  · cases haction with
    | block y k' hkont hzero hswitch =>
        rcases hkont with hkont | hkont
        · cases hkont
        · cases hkont
          exact absurd hzero hvalue
    | pass y k' hkont hopen =>
        rcases hkont with hkont | hkont
        · cases hkont
        · cases hkont
          rfl

/-- The step of a thread that has the processor. -/
theorem Executes.action {p : Program Sem σ ρ ω} (hs : (kernel system space).Reachable s) (h : s.Executes t p)
    (hstep : (kernel system space).step s r) :
    ∃ th, s.thread s.currentThread = some th ∧ th.kont.code = some (some p) ∧ th.kont.holdsCpu = true ∧
      Action system s th th.kont r := by
  obtain ⟨hbusy, rfl, kont, hkont, hcode, hcpu⟩ := h
  obtain ⟨choice, hchoice⟩ := hstep
  cases (step_transition (reachable_inv hs) hchoice).2 with
  | idleInterrupt i shared released hidling _ => exact absurd (hbusy.symm.trans hidling) Bool.false_ne_true
  | dispatch hidling _ => exact absurd (hbusy.symm.trans hidling) Bool.false_ne_true
  | act th hidling hcurrent haction =>
      have hthis : th.kont = kont := by
        rw [kontOf, hcurrent] at hkont
        exact Option.some.inj hkont
      exact ⟨th, hcurrent, hthis ▸ hcode, hthis ▸ hcpu, haction⟩

/-- A thread that goes on with `P` while the value is positive passes. -/
theorem Executes.passed (hs : (kernel system space).Reachable s) (h : s.Executes t (.semP x k))
    (hvalue : (s.sem x).value ≠ 0) (hstep : (kernel system space).step s r) : r = s.passed x k := by
  obtain ⟨th, -, hcode, hcpu, haction⟩ := h.action hs hstep
  have hwhere : th.kont = .run (.semP x k) ∨ th.kont = .sleep x k := by
    generalize th.kont = kont at hcode hcpu
    cases kont with
    | run p => exact .inl (congrArg Kont.run (Option.some.inj (Option.some.inj hcode)))
    | sleep y p =>
        cases hcode
        exact .inr rfl
    | _ => cases hcpu
  exact haction.semP hwhere hvalue

/-- A thread that goes on with `V` releases the semaphore. -/
theorem Executes.released (hs : (kernel system space).Reachable s) (h : s.Executes t (.semV x k))
    (hstep : (kernel system space).step s r) : r.shared = s.shared ∧ (r.sem x).value = (s.sem x).value + 1 := by
  obtain ⟨th, -, hcode, hcpu, haction⟩ := h.action hs hstep
  have hkont : th.kont = .run (.semV x k) := by
    generalize th.kont = kont at hcode hcpu
    cases kont with
    | run p => exact congrArg Kont.run (Option.some.inj (Option.some.inj hcode))
    | sleep y p => cases hcode
    | _ => cases hcpu
  rw [hkont] at haction
  cases haction with
  | block y k' hkont => rcases hkont with heq | heq <;> cases heq
  | pass y k' hkont => rcases hkont with heq | heq <;> cases heq
  | release _ _ =>
      have hvalue := semaphoreV_value (l := x) (s := s) x (some s.currentThread)
      rw [if_pos rfl] at hvalue
      refine ⟨?_, hvalue⟩
      cases hqueue : (s.sem x).queue with
      | nil => simp [semaphoreV_nil hqueue, modifySem, setKont, modifyThread]
      | cons u rest => simp [semaphoreV_cons hqueue, setKont, modifyThread]

theorem passed_thread {th : Thread Sem κ σ ρ ω} (hth : s.thread s.currentThread = some th) :
    (s.passed x k).thread = Function.update s.thread s.currentThread (some { th with kont := .tick k }) :=
  setKont_thread (s := s.modifySem x _) hth (.tick k)

theorem passed_value (x : Sem) (k : Program Sem σ ρ ω) : ((s.passed x k).sem x).value = (s.sem x).value - 1 := by
  simp [Kernel.passed, modifySem, Kernel.setKont, modifyThread]

theorem releases_abstraction (s : Kernel Sem κ σ ρ ω) (x : Sem) :
    releases x s.abstraction.log = releases x s.log := by
  apply countP_filter_of_imp
  intro e he
  cases e with
  | released y u => rfl
  | _ => cases he

end Moments

end Kernel

abbrev UserKernel := Kernel Sem UserCall World Registers Observation

section Failure

variable {space : AddrSpace} {utf8 : Bool} {input : List Byte} {memory : Nat → Byte} {garbage : Nat → Word}
  {s s' : UserKernel} {t : ThreadId}

/-- A call of `do_ThreadCreate` by the thread `t` that returns `result`. In `s` the call acquires `thread_lock`, and
behind its release the state is `s'`. -/
inductive CreateCall (system : ThreadSystem Sem UserCall ConsoleInterrupt World Registers Observation)
    (space : AddrSpace) (t : ThreadId) (result : Word) (s s' : UserKernel) : Prop where
  | call (f arg fExit : Word) (r r' : UserKernel)
      (hcall : s.Executes t (doThreadCreate space f arg fExit returnResult)) (hopen : (s.sem .threadLock).value ≠ 0)
      (hacquire : (kernel system true).step s r) (hbody : Relation.ReflTransGen (kernel system true).step r r')
      (hheld : releases .threadLock r'.log = releases .threadLock r.log)
      (hresult : r'.Executes t (.semV .threadLock (returnResult result))) (hrelease : (kernel system true).step r' s') :
      CreateCall system space t result s s'

/-- The table is as in `s`, and the lock is free. -/
def Restored (s s' : UserKernel) : Prop := s'.shared.table = s.shared.table ∧ (s'.sem .threadLock).value = 1

theorem reachable_counted
    (h : (kernel (userSystem space utf8 input memory garbage) true).Reachable s) :
    Guarded space (fun table log => StacksCounted none (log.countP isOutOfMemory) table)
      (fun t point table log => CountStage t point table (log.countP isOutOfMemory)) s.abstraction :=
  Guarded.reachable stacks_counted (StacksCounted.new garbage) (Kernel.reachable_abstraction (.inl rfl) h)

/-- Behind the acquisition the thread is about to search the map, and all others are outside. -/
theorem call_acquires {r : UserKernel} {f arg fExit : Word}
    (hs : (kernel (userSystem space utf8 input memory garbage) true).Reachable s)
    (hcall : s.Executes t (doThreadCreate space f arg fExit returnResult)) (hopen : (s.sem .threadLock).value ≠ 0)
    (hacquire : (kernel (userSystem space utf8 input memory garbage) true).step s r) :
    r.shared = s.shared ∧ r.abstraction.value .threadLock = 0 ∧
      (∃ th, r.abstraction.thread t = some th ∧ th.code = some (findStack space f arg fExit returnResult)) ∧
      ∀ u other, u ≠ t → r.abstraction.thread u = some other → Outside lockRegion (Approaches space) other := by
  obtain ⟨th, hth, -⟩ := hcall.action hs hacquire
  obtain rfl := hcall.2.1
  obtain rfl := hcall.passed hs hopen hacquire
  have hthread := Kernel.abstraction_thread_update (s := s)
    (t := s.passed .threadLock (findStack space f arg fExit returnResult)) rfl (Kernel.passed_thread hth)
  cases reachable_counted hs with
  | held u th point hzero => exact absurd hzero hopen
  | free hfree _ houtside =>
      refine ⟨rfl, ?_, ⟨_, (congrFun hthread s.currentThread).trans (Function.update_self _ _ _), rfl⟩, ?_⟩
      · have hdown := Kernel.passed_value (s := s) .threadLock (findStack space f arg fExit returnResult)
        change (s.sem .threadLock).value = 1 at hfree
        exact hdown.trans (by omega)
      · intro u other hu hother
        rw [hthread, Function.update_of_ne hu] at hother
        exact houtside u other hother

/-- A call that returns -1 leaves the table as the search for a stack has left it. -/
theorem failed_call (hs : (kernel (userSystem space utf8 input memory garbage) true).Reachable s)
    (hcall : CreateCall (userSystem space utf8 input memory garbage) space t (-1) s s') :
    s'.shared.table = s.shared.table.findStack.2 ∧ (s'.sem .threadLock).value = 1 := by
  obtain ⟨f, arg, fExit, r, r', hcall, hopen, hacquire, hbody, hheld, hresult, hrelease⟩ := hcall
  have hr := hs.step hacquire
  have hr' := hr.steps hbody
  obtain ⟨hbefore, hlocked, ⟨th, hth, hcode⟩, hothers⟩ := call_acquires hs hcall hopen hacquire
  obtain ⟨th', hth', hcode', -⟩ := hresult.action hr' hrelease
  have hlast := Kernel.abstraction_code hth' hcode'
  rw [hresult.2.1] at hlast
  have hsame : releases .threadLock r'.abstraction.log = releases .threadLock r.abstraction.log := by
    rw [Kernel.releases_abstraction, Kernel.releases_abstraction, hheld]
  obtain ⟨htable, hzero⟩ := call_table (Kernel.reachable_abstraction (.inl rfl) hr) hlocked hth hcode hothers
    ((Kernel.kernel_refines_interleaving (.inl rfl)).steps hr hbody) hsame hlast rfl
  obtain ⟨hshared, hvalue⟩ := hresult.released hr' hrelease
  change (r'.sem .threadLock).value = 0 at hzero
  change r'.shared.table = r.shared.table.findStack.2 at htable
  rw [hshared, htable, hbefore]
  exact ⟨rfl, by omega⟩

theorem ThreadTable.findStack_full {table : ThreadTable} (h : table.stackMap.numClear = 0) :
    table.findStack.2 = table := by
  rcases table.stackMap.find_spec with ⟨hfind, -⟩ | ⟨i, hi, hclear, -⟩
  · rw [ThreadTable.findStack, hfind]
  · have hpos := BitMap.numClear_pos_iff.mpr ⟨i, hi, hclear⟩
    omega

theorem ThreadTable.findStack_numClear {table : ThreadTable} (h : table.stackMap.numClear ≠ 0) :
    table.findStack.2.stackMap.numClear + 1 = table.stackMap.numClear := by
  rcases table.stackMap.find_spec with ⟨-, hset⟩ | ⟨i, hi, hclear, hfind⟩
  · obtain ⟨i, hi, hclear⟩ := BitMap.numClear_pos_iff.mp (Nat.pos_of_ne_zero h)
    rw [hset i hi] at hclear
    cases hclear
  · rw [ThreadTable.findStack, hfind]
    exact BitMap.numClear_setBit hi hclear

theorem eq_of_isOutOfMemory {e : Event Sem UserCall Observation} (h : isOutOfMemory e = true) :
    ∃ u, e = .observed u .outOfMemory := by
  unfold isOutOfMemory at h
  split at h
  · exact ⟨_, rfl⟩
  · cases h

theorem failures_lockLog (s : UserKernel) :
    (lockLog s.abstraction).countP isOutOfMemory = s.log.countP isOutOfMemory := by
  have hguards : ∀ e, isOutOfMemory e = true → lockRegion.guards e = true := by
    intro e he
    obtain ⟨u, rfl⟩ := eq_of_isOutOfMemory he
    rfl
  have hvisible : ∀ e, isOutOfMemory e = true → Event.visible e = true := by
    intro e he
    obtain ⟨u, rfl⟩ := eq_of_isOutOfMemory he
    rfl
  exact (countP_filter_of_imp hguards _).trans (countP_filter_of_imp hvisible s.log)

theorem countP_isOutOfMemory_eq_zero {log : List (Event Sem UserCall Observation)} :
    log.countP isOutOfMemory = 0 ↔ ∀ t, Event.observed t .outOfMemory ∉ log := by
  rw [List.countP_eq_zero]
  constructor
  · intro h t hmem
    exact h _ hmem rfl
  · intro h e hmem he
    obtain ⟨u, rfl⟩ := eq_of_isOutOfMemory he
    exact h u hmem

/-- A call of `do_ThreadCreate` that returns -1 leaves everything as it was exactly when it finds the map of the stacks
full; otherwise the stack that it has found is lost. The clear stacks, the threads of the table and the failed
allocations are always ten together. -/
theorem failed_create_restores_iff :
    (∀ (s s' : UserKernel) (t : ThreadId), (kernel (userSystem space utf8 input memory garbage) true).Reachable s →
      CreateCall (userSystem space utf8 input memory garbage) space t (-1) s s' →
      (Restored s s' ↔ s.shared.table.stackMap.numClear = 0) ∧
        s'.shared.table.gThreads = s.shared.table.gThreads ∧
        s'.shared.table.gThreadsIdx = s.shared.table.gThreadsIdx ∧ (s'.sem .threadLock).value = 1 ∧
        (s.shared.table.stackMap.numClear ≠ 0 →
          s'.shared.table.stackMap.numClear + 1 = s.shared.table.stackMap.numClear)) ∧
    ∀ s : UserKernel, (kernel (userSystem space utf8 input memory garbage) true).Reachable s →
      (s.sem .threadLock).value ≠ 0 →
      s.shared.table.stackMap.numClear + s.shared.table.occupied + s.log.countP isOutOfMemory = maxThreads ∧
        (s.shared.table.stackMap.numClear + s.shared.table.occupied = maxThreads ↔
          ∀ t, Event.observed t .outOfMemory ∉ s.log) := by
  constructor
  · intro s s' t hs hcall
    obtain ⟨htable, hvalue⟩ := failed_call hs hcall
    refine ⟨⟨?_, ?_⟩, ?_, ?_, hvalue, ?_⟩
    · rintro ⟨hsame, -⟩
      by_contra hclear
      have hlost := ThreadTable.findStack_numClear hclear
      rw [← htable, hsame] at hlost
      omega
    · intro hfull
      exact ⟨htable.trans (ThreadTable.findStack_full hfull), hvalue⟩
    · rw [htable]
      rfl
    · rw [htable]
      rfl
    · intro hclear
      rw [htable]
      exact ThreadTable.findStack_numClear hclear
  · intro s hs hopen
    have hcount : s.shared.table.stackMap.numClear + s.shared.table.occupied + s.log.countP isOutOfMemory =
        maxThreads := by
      cases reachable_counted hs with
      | held u th point hzero => exact absurd hzero hopen
      | free hfree hrest houtside =>
          have hclear := s.shared.table.stackMap.numClear_add_card
          have hcard := hrest.card_toSet
          have hbits := hrest.numBits_stackMap
          rw [failures_lockLog] at hcard
          change s.shared.table.stackMap.toSet.card = s.shared.table.occupied + 0 + s.log.countP isOutOfMemory at hcard
          change s.shared.table.stackMap.numBits = maxThreads at hbits
          omega
    rw [← countP_isOutOfMemory_eq_zero]
    omega

end Failure

theorem createRegisters_general : (createRegisters loadReg).toNat < numGPRegs := by decide

/-- A thread is about to call `do_ThreadCreate`. -/
def callCreate : List (Choice UserCall ConsoleInterrupt Registers) :=
  [.call (.compute createRegisters (fun _ => 0) createRegisters_general), .exec, .exec, .resume, .exec,
    .call (.syscall (fun _ => 0) fun _ _ => 0), .exec]

/-- The thread has the lock, `new Thread` returns `NULL`, and the lock is about to be released. -/
def failCreate : List (Choice UserCall ConsoleInterrupt Registers) := [.resume, .exec, .allocFails, .exec]

/-- The thread returns to the user program. -/
def returnCreate : List (Choice UserCall ConsoleInterrupt Registers) := [.resume, .exec, .exec, .resume, .exec]

theorem failed_create_call :
    ∃ s s', (kernel smallSystem true).Reachable s ∧ CreateCall smallSystem smallSpace 1 (-1) s s' ∧
      s.shared.table.stackMap.numClear = 10 ∧ s'.shared.table.stackMap.numClear = 9 := by
  obtain ⟨s, r, r', s', hrun, hacquire, hbody, hrelease, hcall, hopen, hheld, hresult, hbefore, hafter⟩ :
      ∃ s r r' s', Kernel.runChoices smallSystem callCreate (Kernel.initial smallSystem true) = some s ∧
        s.step smallSystem .exec = some (.ok r) ∧ Kernel.runChoices smallSystem failCreate r = some r' ∧
        r'.step smallSystem .exec = some (.ok s') ∧
        s.Executes 1 (doThreadCreate smallSpace 400 0 0 returnResult) ∧ (s.sem .threadLock).value ≠ 0 ∧
        releases .threadLock r'.log = releases .threadLock r.log ∧
        r'.Executes 1 (.semV .threadLock (returnResult (-1))) ∧ s.shared.table.stackMap.numClear = 10 ∧
        s'.shared.table.stackMap.numClear = 9 :=
    ⟨_, _, _, _, rfl, rfl, rfl, rfl, ⟨rfl, rfl, _, rfl, rfl, rfl⟩, by decide, rfl, ⟨rfl, rfl, _, rfl, rfl, rfl⟩, rfl, rfl⟩
  have hinit : (kernel smallSystem true).Reachable (Kernel.initial smallSystem true) := .init rfl
  exact ⟨s, s', Kernel.reachable_runChoices hinit hrun, .call 400 0 0 r r' hcall hopen ⟨.exec, hacquire⟩
    (Kernel.steps_runChoices hbody) hheld hresult ⟨.exec, hrelease⟩, hbefore, hafter⟩

/-- Ten calls of `do_ThreadCreate` for which `new Thread` returns `NULL`. -/
def failTen : List (Choice UserCall ConsoleInterrupt Registers) :=
  (List.replicate 10 (callCreate ++ .exec :: failCreate ++ .exec :: returnCreate)).flatten

theorem failTen_full : ∃ s, Kernel.runChoices smallSystem failTen (Kernel.initial smallSystem true) = some s ∧
    (s.sem .threadLock).value = 1 ∧ s.shared.table.occupied = 0 ∧ s.shared.table.stackMap.numClear = 0 := by
  have hrun : (Kernel.runChoices smallSystem failTen (Kernel.initial smallSystem true)).any
      (fun s => decide ((s.sem .threadLock).value = 1 ∧ s.shared.table.occupied = 0 ∧
        s.shared.table.stackMap.numClear = 0)) = true := by
    decide +kernel
  obtain ⟨s, hs, hfacts⟩ := (Option.any_eq_true _ _).mp hrun
  exact ⟨s, hs, of_decide_eq_true hfacts⟩

/-- The first call that fails costs one of the ten stacks; after the tenth no stack is left, although no thread has
one. -/
theorem failed_create_restores_iff_small :
    (∃ s s' : UserKernel, CreateCall smallSystem smallSpace 1 (-1) s s' ∧ s.shared.table.stackMap.numClear = 10 ∧
      ¬Restored s s' ∧ (s'.sem .threadLock).value = 1 ∧ s'.shared.table.stackMap.numClear + 1 = 10) ∧
    ∃ s : UserKernel, (s.sem .threadLock).value = 1 ∧ s.shared.table.occupied = 0 ∧
      s.log.countP isOutOfMemory = 10 := by
  constructor
  · obtain ⟨s, s', hs, hcall, hclear, -⟩ := failed_create_call
    obtain ⟨hrestored, -, -, hvalue, hlost⟩ := failed_create_restores_iff.1 s s' 1 hs hcall
    refine ⟨s, s', hcall, hclear, ?_, hvalue, ?_⟩
    · intro hsame
      have hfull := hrestored.mp hsame
      omega
    · rw [hlost (by omega), hclear]
  · obtain ⟨s, hrun, hvalue, hoccupied, hclear⟩ := failTen_full
    have hs := Kernel.reachable_runChoices (.init rfl) hrun
    obtain ⟨hcount, -⟩ := failed_create_restores_iff.2 s hs (by omega)
    refine ⟨s, hvalue, hoccupied, ?_⟩
    unfold maxThreads at hcount
    omega

/-- A call that returns -1 with the stack still marked, and a free table in which no stack is clear. -/
theorem failed_create_loses_stack :
    (∃ s s' : UserKernel, (kernel smallSystem true).Reachable s ∧ CreateCall smallSystem smallSpace 1 (-1) s s' ∧
      ¬Restored s s') ∧
    ∃ s : UserKernel, (kernel smallSystem true).Reachable s ∧ (s.sem .threadLock).value = 1 ∧
      s.shared.table.occupied = 0 ∧ s.shared.table.stackMap.numClear = 0 := by
  constructor
  · obtain ⟨s, s', hs, hcall, hbefore, hafter⟩ := failed_create_call
    refine ⟨s, s', hs, hcall, ?_⟩
    rintro ⟨hsame, -⟩
    rw [hsame, hbefore] at hafter
    cases hafter
  · obtain ⟨s, hrun, hfacts⟩ := failTen_full
    exact ⟨s, Kernel.reachable_runChoices (.init rfl) hrun, hfacts⟩

end Nachos

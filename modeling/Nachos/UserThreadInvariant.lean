import Nachos.CriticalSection
import Nachos.LastEvent
import Nachos.Refinement
import Nachos.RegisterFrame
import Nachos.ThreadTable

/-! The threads of a user program and their table, in every interleaving. The history says which threads
have been created and have not yet been through the critical section of `do_ThreadExit`; the table holds
these whenever `thread_lock` is free. A thread that is not in one of the critical sections is calm: it
does nothing to the table until it acquires the lock. -/

namespace Nachos

open Interleaving

abbrev UserState := Interleaving.State Sem UserCall World Registers Observation

abbrev UserThread := Interleaving.Thread Sem UserCall World Registers Observation

/-- What the history says about the threads: those that were created and have not exited, and whether
the initial thread has not exited. -/
structure Roll where
  users : List ThreadId
  initial : Bool

def initialThread : ThreadId := 1

section Record

variable {κ : Type}

def Roll.record (roll : Roll) : Event Sem κ Observation → Roll
  | .created u => { roll with users := roll.users ++ [u] }
  | .observed t .exited => ⟨roll.users.erase t, roll.initial && t != initialThread⟩
  | _ => roll

def Roll.of (log : List (Event Sem κ Observation)) : Roll := log.foldl record ⟨[], true⟩

def recordBegun (begun : ThreadId → Option Registers) : Event Sem κ Observation → ThreadId → Option Registers
  | .created u => Function.update begun u none
  | .observed t (.began r) => Function.update begun t (some r)
  | _ => begun

/-- The registers with which the threads have begun to run the user program. -/
def begunOf (log : List (Event Sem κ Observation)) : ThreadId → Option Registers :=
  log.foldl recordBegun fun _ => none

end Record

namespace Roll

/-- The thread has not been through the critical section of `do_ThreadExit`. -/
def Alive (roll : Roll) (t : ThreadId) : Prop :=
  t ∈ roll.users ∨ t = initialThread ∧ roll.initial = true

/-- The number of threads that are alive. -/
def population (roll : Roll) : Int := roll.users.length + if roll.initial then 1 else 0

end Roll

/-- The table, its lock, and the creation and the end of threads. -/
def tableRegion : Region Sem World Observation ThreadTable where
  sems
    | .threadLock => true
    | _ => false
  view world := world.table
  seen
    | .exited => true
    | .began _ => true
    | .outOfMemory => true
    | _ => false
  threads := true
  mayAbort := true

/-- The end of `SC_ThreadCreate`. -/
def returnResult (result : Word) : Program Sem World Registers Observation := returnToUser (some result)

/-- The thread traps into the kernel, or it is about to acquire `thread_lock`. -/
def Approaches (space : AddrSpace) (_ : Option UserCall) (p : Program Sem World Registers Observation) : Prop :=
  (∃ sscanf fresh, p = trapSyscall space sscanf fresh) ∨
    (∃ f arg fExit, p = doThreadCreate space f arg fExit returnResult) ∨ p = doThreadExit

/-- A thread that is in none of the critical sections: it has not come near them, it has still to begin
with the stack of its slot, or it has exited. -/
inductive Calm (space : AddrSpace) (roll : Roll) (table : ThreadTable) (t : ThreadId) (th : UserThread) : Prop where
  | plain (halive : roll.Alive t) (houtside : Outside tableRegion (Approaches space) th)
  | starting (huser : t ∈ roll.users) (f arg fExit : Word) (i : Nat) (hi : i < maxThreads)
      (hslot : table.owner i = t) (hcode : th.code = some (startUserThread space f arg fExit i))
  | leaving (hgone : ¬roll.Alive t) (hcode : th.code = some finishOrHalt ∨ th.code = some .finish)
  | last (hnobody : ∀ u, ¬roll.Alive u) (hcode : th.code = some .halt)

/-- The code of a thread that holds the lock, and the table that it finds. -/
inductive Holding (space : AddrSpace) (roll : Roll) (table : ThreadTable) (t : ThreadId) :
    Program Sem World Registers Observation → Prop where
  | find (f arg fExit : Word) (halive : roll.Alive t)
      (htable : TableOk roll.users (roll.population - 1) none table) :
      Holding space roll table t (findStack space f arg fExit returnResult)
  | allocate (f arg fExit : Word) (i : Nat) (halive : roll.Alive t)
      (htable : TableOk roll.users (roll.population - 1) (some i) table) :
      Holding space roll table t (createWithStack space f arg fExit returnResult i)
  | failed (i : Nat) (htable : TableOk roll.users (roll.population - 1) (some i) table) :
      Holding space roll table t (noNewThread returnResult)
  | enter (f arg fExit : Word) (i : Nat) (u : ThreadId) (before : List ThreadId) (halive : roll.Alive t)
      (husers : roll.users = before ++ [u]) (hzero : u ≠ 0) (hfresh : u ∉ before)
      (hcreator : 0 ≤ table.gThreadsIdx)
      (htable : TableOk before (roll.population - 2) (some i) table) :
      Holding space roll table t (enterNewThread space f arg fExit returnResult i u)
  | start (f arg fExit : Word) (i : Nat) (u : ThreadId) (halive : roll.Alive t) (huser : u ∈ roll.users)
      (hi : i < maxThreads) (hslot : table.owner i = u)
      (htable : TableOk roll.users (roll.population - 1) none table) :
      Holding space roll table t (startNewThread space f arg fExit returnResult i u)
  | release (result : Word) (halive : roll.Alive t)
      (htable : TableOk roll.users (roll.population - 1) none table) :
      Holding space roll table t (.semV .threadLock (returnResult result))
  | leave (halive : roll.Alive t) (htable : TableOk roll.users (roll.population - 1) none table) :
      Holding space roll table t leaveTable
  | left (hgone : ¬roll.Alive t) (htable : TableOk roll.users (roll.population - 1) none table) :
      Holding space roll table t (.semV .threadLock finishOrHalt)

/-- The threads that are alive exist, under different addresses. -/
structure Census (roll : Roll) (thread : ThreadId → Option UserThread) : Prop where
  nodup : roll.users.Nodup
  nonzero : 0 ∉ roll.users
  separate : roll.initial = true → initialThread ∉ roll.users
  exist : ∀ t, roll.Alive t → thread t ≠ none

/-- Every thread that has begun to run has the stack of its slot. -/
def StacksOk (space : AddrSpace) (users : List ThreadId) (begun : ThreadId → Option Registers)
    (table : ThreadTable) : Prop :=
  ∀ u ∈ users, ∀ r, begun u = some r → ∃ f arg fExit i, i < maxThreads ∧ table.owner i = u ∧
    r = startRegisters space f arg fExit i

/-- The lock is free, or the given thread holds it. -/
inductive Owned (space : AddrSpace) (roll : Roll) (s : UserState) : Option ThreadId → Prop where
  | free (hvalue : s.value .threadLock = 1)
      (htable : TableOk roll.users (roll.population - 1) none s.shared.table) : Owned space roll s none
  | held (t : ThreadId) (th : UserThread) (p : Program Sem World Registers Observation)
      (hvalue : s.value .threadLock = 0) (ht : s.thread t = some th) (hcode : th.code = some p)
      (hholding : Holding space roll s.shared.table t p) : Owned space roll s (some t)

/-- Everybody but the thread that holds the lock is calm. -/
structure ThreadsInv (space : AddrSpace) (s : UserState) (holder : Option ThreadId) : Prop where
  census : Census (.of s.log) s.thread
  stacksOk : StacksOk space (Roll.of s.log).users (begunOf s.log) s.shared.table
  owned : Owned space (.of s.log) s holder
  calm : ∀ u other, holder ≠ some u → s.thread u = some other →
    Calm space (.of s.log) s.shared.table u other

section Roll

variable {roll : Roll} {t u : ThreadId}

theorem Roll.of_append {κ : Type} (log : List (Event Sem κ Observation)) (e : Event Sem κ Observation) :
    Roll.of (log ++ [e]) = (Roll.of log).record e := by
  rw [Roll.of, List.foldl_append]
  rfl

theorem begunOf_append {κ : Type} (log : List (Event Sem κ Observation)) (e : Event Sem κ Observation) :
    begunOf (log ++ [e]) = recordBegun (begunOf log) e := by
  rw [begunOf, List.foldl_append]
  rfl

section Filter

variable {f : Event Sem UserCall Observation → Bool} (hcreated : ∀ u, f (.created u) = true)
  (hobserved : ∀ t o, tableRegion.seen o = true → f (.observed t o) = true)

include hcreated hobserved

theorem Roll.of_filter (log : List (Event Sem UserCall Observation)) :
    Roll.of (log.filter f) = Roll.of log := by
  rw [Roll.of, List.foldl_filter]
  unfold Roll.of
  congr 1
  funext roll e
  split
  · rfl
  · rename_i he
    unfold Roll.record
    split
    · exact absurd (hcreated _) he
    · exact absurd (hobserved _ _ rfl) he
    · rfl

theorem begunOf_filter (log : List (Event Sem UserCall Observation)) :
    begunOf (log.filter f) = begunOf log := by
  rw [begunOf, List.foldl_filter]
  unfold begunOf
  congr 1
  funext begun e
  split
  · rfl
  · rename_i he
    unfold recordBegun
    split
    · exact absurd (hcreated _) he
    · exact absurd (hobserved _ _ rfl) he
    · rfl

end Filter

theorem roll_same {s s' : UserState} (hsame : Same tableRegion s s') : Roll.of s'.log = Roll.of s.log := by
  have hfilter := Roll.of_filter (f := tableRegion.guards) (fun _ => rfl) fun _ _ hseen => hseen
  rw [← hfilter s'.log, ← hfilter s.log, hsame.log]

theorem begun_same {s s' : UserState} (hsame : Same tableRegion s s') : begunOf s'.log = begunOf s.log := by
  have hfilter := begunOf_filter (f := tableRegion.guards) (fun _ => rfl) fun _ _ hseen => hseen
  rw [← hfilter s'.log, ← hfilter s.log, hsame.log]

theorem Roll.population_pos (h : roll.Alive t) : 0 < roll.population := by
  unfold Roll.population
  rcases h with huser | ⟨-, hinitial⟩
  · have hlength := List.length_pos_of_mem huser
    split <;> omega
  · rw [if_pos hinitial]
    omega

theorem Roll.nobody (h : roll.population ≤ 0) (t : ThreadId) : ¬roll.Alive t := by
  intro halive
  have hpos := Roll.population_pos halive
  omega

end Roll

section Free

theorem free_returnToUser (result : Option Word) : (returnToUser result).Free tableRegion := by
  refine ⟨?_, fun _ _ _ => trivial⟩
  intro t world r
  refine ⟨rfl, ?_⟩
  intro o ho
  rw [List.mem_singleton.mp ho]
  rfl

theorem free_update {β : Type} {f : ThreadId → World → World × β}
    {k : β → Program Sem World Registers Observation} (hf : ∀ t world, (f t world).1.table = world.table)
    (hk : ∀ b, (k b).Free tableRegion) : (update f k).Free tableRegion := by
  refine ⟨?_, fun _ _ _ => hk _⟩
  intro t world r
  refine ⟨hf t world, ?_⟩
  intro o ho
  cases ho

theorem free_consolePutChar {k : Program Sem World Registers Observation} (hk : k.Free tableRegion)
    (ch : Word) : (consolePutChar k ch).Free tableRegion := by
  apply free_update
  · intro t world
    split
    · rfl
    · rfl
  · intro busy
    split
    · rfl
    · exact hk

theorem free_putStringLoop {k : Program Sem World Registers Observation} (hk : k.Free tableRegion)
    (string : List Byte) : (putStringLoop k string).Free tableRegion := by
  induction string with
  | nil => exact ⟨rfl, hk⟩
  | cons ch rest ih =>
      rw [putStringLoop]
      split
      · exact ⟨rfl, hk⟩
      · apply free_consolePutChar
        exact ⟨rfl, ih⟩

theorem free_consoleGetChar {kc : Word → Program Sem World Registers Observation}
    (hkc : ∀ c, (kc c).Free tableRegion) : (consoleGetChar kc).Free tableRegion := by
  refine ⟨?_, fun _ _ _ => hkc _⟩
  intro t world r
  refine ⟨rfl, ?_⟩
  intro o ho
  rw [List.mem_singleton.mp ho]
  rfl

theorem free_getStringLoop {ks : List Byte → Program Sem World Registers Observation}
    (hks : ∀ string, (ks string).Free tableRegion) (n : Nat) (stored : List Byte) :
    (getStringLoop ks n stored).Free tableRegion := by
  induction n generalizing stored with
  | zero => exact ⟨rfl, hks stored⟩
  | succ n ih =>
      cases n with
      | zero => exact ⟨rfl, hks stored⟩
      | succ n =>
          refine ⟨rfl, free_consoleGetChar ?_⟩
          intro c
          show Program.Free tableRegion (if _ then _ else _)
          split
          · exact ⟨rfl, hks _⟩
          · exact ih _

theorem free_storeString (space : AddrSpace) (address : Word) (string : List Byte) :
    (storeString space address string).Free tableRegion := by
  apply free_update
  · intro t world
    split
    · rfl
    · rfl
  · intro stored
    split
    · exact free_returnToUser none
    · rfl

variable {space : AddrSpace} {utf8 : Bool} {input : List Byte} {memory : Nat → Byte} {garbage : Nat → Word}

/-- Only two system calls come near the table. -/
theorem exceptionHandler_outside (sscanf : List Byte → Word) (fresh : Nat → Nat → Byte)
    (memory : Nat → Byte) (r : Registers) (call : Option UserCall) :
    (exceptionHandler space sscanf fresh memory r).Free tableRegion ∨
      Approaches space call (exceptionHandler space sscanf fresh memory r) := by
  have hreturn := free_returnToUser
  unfold exceptionHandler
  split
  · exact .inl trivial
  · refine .inl ⟨rfl, free_consolePutChar ?_ _⟩
    exact ⟨rfl, rfl, hreturn none⟩
  · split
    · exact .inl ⟨rfl, free_putStringLoop (hreturn none) _⟩
    · exact .inl rfl
  · exact .inl trivial
  · refine .inl ⟨rfl, rfl, free_consoleGetChar ?_⟩
    intro c
    exact ⟨rfl, hreturn _⟩
  · exact .inl ⟨rfl, free_getStringLoop (free_storeString space _) _ _⟩
  · exact .inl ⟨rfl, free_putStringLoop (hreturn none) _⟩
  · exact .inl ⟨rfl, free_getStringLoop (fun string => hreturn _) _ _⟩
  · exact .inr (.inr (.inl ⟨_, _, _, rfl⟩))
  · exact .inr (.inr (.inr rfl))
  · exact .inl rfl

theorem menu_approaches (c : UserCall) :
    ((userSystem space utf8 input memory garbage).menu c).Free tableRegion ∨
      Approaches space (some c) ((userSystem space utf8 input memory garbage).menu c) := by
  cases c with
  | compute registers memory general =>
      refine .inl ⟨?_, fun _ _ _ => trivial⟩
      intro t world r
      refine ⟨rfl, ?_⟩
      intro o ho
      cases ho
  | syscall sscanf fresh => exact .inr (.inl ⟨sscanf, fresh, rfl⟩)

end Free

section Steps

variable {space : AddrSpace} {utf8 : Bool} {input : List Byte} {memory : Nat → Byte} {garbage : Nat → Word}
  {s s' : UserState} {roll roll' : Roll} {table table' : ThreadTable} {t u : ThreadId} {th other : UserThread}
  {p : Program Sem World Registers Observation}

/-- A calm thread stays calm when others enter or leave the table. -/
theorem Calm.of_roll (h : Calm space roll table t th) (halive : roll'.Alive t ↔ roll.Alive t)
    (huser : t ∈ roll.users → t ∈ roll'.users)
    (howner : t ∈ roll.users → ∀ i < maxThreads, table.owner i = t → table'.owner i = t)
    (hnobody : (∀ u, ¬roll.Alive u) → ∀ u, ¬roll'.Alive u) : Calm space roll' table' t th := by
  cases h with
  | plain hthis houtside => exact .plain (halive.mpr hthis) houtside
  | starting hthis f arg fExit i hi hslot hcode =>
      exact .starting (huser hthis) f arg fExit i hi (howner hthis i hi hslot) hcode
  | leaving hgone hcode => exact .leaving (fun hthis => hgone (halive.mp hthis)) hcode
  | last hnone hcode => exact .last (hnobody hnone) hcode

theorem Holding.nobody (h : Holding space roll table t p) (hcounter : table.gThreadsIdx < 0) (u : ThreadId) :
    ¬roll.Alive u := by
  have hcount : ∀ {reserved : Option Nat}, TableOk roll.users (roll.population - 1) reserved table →
      ¬roll.Alive u := by
    intro reserved htable
    have hindex := htable.gThreadsIdx_eq
    exact Roll.nobody (by omega) u
  cases h with
  | find f arg fExit halive htable => exact hcount htable
  | allocate f arg fExit i halive htable => exact hcount htable
  | failed i htable => exact hcount htable
  | enter f arg fExit i u before halive husers hzero hfresh hcreator htable => omega
  | start f arg fExit i u halive huser hi hslot htable => exact hcount htable
  | release result halive htable => exact hcount htable
  | leave halive htable => exact hcount htable
  | left hgone htable => exact hcount htable

/-- A thread begins to run with the stack of its slot. -/
def Begins (space : AddrSpace) (s s' : UserState) (t : ThreadId) : Prop :=
  ∃ f arg fExit i, i < maxThreads ∧ s.shared.table.owner i = t ∧
    begunOf s'.log = Function.update (begunOf s.log) t (some (startRegisters space f arg fExit i))

/-- What a calm thread can do: nothing to the table, acquire the lock, or end. -/
inductive CalmStep (space : AddrSpace) (s : UserState) (t : ThreadId) (s' : UserState) : Prop where
  | quiet (new : UserThread) (hroll : Roll.of s'.log = Roll.of s.log)
      (hbegun : begunOf s'.log = begunOf s.log ∨ Begins space s s' t)
      (htable : s'.shared.table = s.shared.table) (hvalue : s'.value .threadLock = s.value .threadLock)
      (hthread : s'.thread = Function.update s.thread t (some new))
      (hcalm : Calm space (.of s.log) s.shared.table t new)
  | acquire (new : UserThread) (q : Program Sem World Registers Observation)
      (hroll : Roll.of s'.log = Roll.of s.log) (hbegun : begunOf s'.log = begunOf s.log)
      (htable : s'.shared.table = s.shared.table) (hopen : s.value .threadLock ≠ 0)
      (hvalue : s'.value .threadLock = s.value .threadLock - 1)
      (hthread : s'.thread = Function.update s.thread t (some new)) (hcode : new.code = some q)
      (hholding : TableOk (Roll.of s.log).users ((Roll.of s.log).population - 1) none s.shared.table →
        Holding space (.of s.log) s.shared.table t q)
  | finish (hroll : Roll.of s'.log = Roll.of s.log) (hbegun : begunOf s'.log = begunOf s.log)
      (htable : s'.shared.table = s.shared.table) (hvalue : s'.value .threadLock = s.value .threadLock)
      (hthread : s'.thread = Function.update s.thread t none) (hgone : ¬(Roll.of s.log).Alive t)

/-- The thread finds the lock at zero, or it passes. -/
theorem calmStep_semP {k : Program Sem World Registers Observation} (ht : s.thread t = some th)
    (hcalm : Calm space (.of s.log) s.shared.table t th)
    (hholding : TableOk (Roll.of s.log).users ((Roll.of s.log).population - 1) none s.shared.table →
      Holding space (.of s.log) s.shared.table t k)
    (hruns : Runs (userSystem space utf8 input memory garbage) s t th (.semP .threadLock k) s') :
    CalmStep space s t s' := by
  cases hruns with
  | pass hvalue =>
      have hdown : Function.update s.value .threadLock (s.value .threadLock - 1) .threadLock =
          s.value .threadLock - 1 := Function.update_self _ _ _
      exact .acquire _ k (Roll.of_append _ _) (begunOf_append _ _) rfl hvalue hdown rfl rfl hholding
  | wait hvalue =>
      refine .quiet th rfl (.inl rfl) rfl rfl ?_ hcalm
      rw [← ht]
      exact (Function.update_eq_self t s.thread).symm

theorem Calm.run (hcalm : Calm space (.of s.log) s.shared.table t th)
    (hnobody : s.shared.table.gThreadsIdx < 0 → ∀ u, ¬(Roll.of s.log).Alive u) (ht : s.thread t = some th)
    (hcode : th.code = some p) (hruns : Runs (userSystem space utf8 input memory garbage) s t th p s') :
    CalmStep space s t s' := by
  have hkeeps : ∀ {q : Program Sem World Registers Observation}, th.code = some q → p = q := by
    intro q hq
    exact Option.some.inj (hcode.symm.trans hq)
  have hsame : s.thread = Function.update s.thread t (some th) := by
    rw [← ht]
    exact (Function.update_eq_self t s.thread).symm
  cases hcalm with
  | plain halive houtside =>
      rcases houtside p hcode with hfree | ⟨sscanf, fresh, rfl⟩ | ⟨f, arg, fExit, rfl⟩ | rfl
      · obtain ⟨hregion, -⟩ := hruns.free menu_approaches hcode hfree ht
        obtain ⟨new, hthread, hnew⟩ := hruns.free_setThread rfl menu_approaches hcode hfree ht
        exact .quiet new (roll_same hregion) (.inl (begun_same hregion)) hregion.view (hregion.value _ rfl)
          hthread (.plain halive hnew)
      · change Runs _ s t th (.act _ _) s' at hruns
        cases hruns
        refine .quiet _ (Roll.of_append _ _) (.inl (begunOf_append _ _)) rfl rfl rfl (.plain halive ?_)
        rintro q ⟨⟩
        exact exceptionHandler_outside sscanf fresh _ _ _
      · refine calmStep_semP ht (.plain halive houtside) ?_ hruns
        exact fun htable => .find f arg fExit halive htable
      · refine calmStep_semP ht (.plain halive houtside) ?_ hruns
        exact fun htable => .leave halive htable
  | starting huser f arg fExit i hi hslot hstart =>
      cases hkeeps hstart
      change Runs _ s t th (.act _ _) s' at hruns
      cases hruns
      refine .quiet _ (Roll.of_append _ _) (.inr ⟨f, arg, fExit, i, hi, hslot, begunOf_append _ _⟩) rfl rfl rfl
        (.plain (.inl huser) (.of_free rfl trivial))
  | leaving hgone hleaving =>
      rcases hleaving with hfinish | hfinish
      · cases hkeeps hfinish
        change Runs _ s t th (.act _ _) s' at hruns
        cases hruns
        refine .quiet _ (congrArg Roll.of (List.append_nil _)) (.inl (congrArg begunOf (List.append_nil _)))
          rfl rfl rfl ?_
        by_cases hcounter : 0 ≤ s.shared.table.gThreadsIdx
        · exact .leaving hgone (.inr (congrArg some (if_pos hcounter)))
        · exact .last (hnobody (by omega)) (congrArg some (if_neg hcounter))
      · cases hkeeps hfinish
        cases hruns
        exact .finish rfl rfl rfl rfl rfl hgone
  | last hnone hlast =>
      cases hkeeps hlast
      cases hruns
      exact .quiet th (Roll.of_append _ _) (.inl (begunOf_append _ _)) rfl rfl hsame (.last hnone hcode)

/-- The threads other than the one that runs. -/
theorem calm_update {holder : Option ThreadId} {new : Option UserThread}
    (hthread : s'.thread = Function.update s.thread t new)
    (hcalm : ∀ u other, holder ≠ some u → s.thread u = some other → Calm space roll table u other)
    (hnew : ∀ th, new = some th → Calm space roll table t th) :
    ∀ u other, holder ≠ some u → s'.thread u = some other → Calm space roll table u other := by
  intro u other hholder hu
  rw [hthread, Function.update_apply] at hu
  split at hu
  · subst u
    exact hnew other hu
  · exact hcalm u other hholder hu

theorem Owned.congr {holder : Option ThreadId} {new : Option UserThread} (h : Owned space roll s holder)
    (hholder : holder ≠ some t) (hvalue : s'.value .threadLock = s.value .threadLock)
    (htable : s'.shared.table = s.shared.table) (hthread : s'.thread = Function.update s.thread t new) :
    Owned space roll s' holder := by
  cases h with
  | free hfree hok => exact .free (hvalue.trans hfree) (htable ▸ hok)
  | held u th p hzero hu hcode hholding =>
      have hne : u ≠ t := fun heq => hholder (congrArg some heq)
      refine .held u th p (hvalue.trans hzero) ?_ hcode (htable ▸ hholding)
      rw [hthread, Function.update_of_ne hne]
      exact hu

theorem Census.update (h : Census roll s.thread) {new : Option UserThread}
    (hnew : roll.Alive t → new ≠ none) (hthread : s'.thread = Function.update s.thread t new) :
    Census roll s'.thread := by
  refine ⟨h.nodup, h.nonzero, h.separate, ?_⟩
  intro u halive
  rw [hthread, Function.update_apply]
  split
  · subst u
    exact hnew halive
  · exact h.exist u halive

theorem Owned.nobody {holder : Option ThreadId} (h : Owned space roll s holder)
    (hcounter : s.shared.table.gThreadsIdx < 0) (u : ThreadId) : ¬roll.Alive u := by
  cases h with
  | free hfree htable =>
      have hindex := htable.gThreadsIdx_eq
      exact Roll.nobody (by omega) u
  | held t th p hzero ht hcode hholding => exact hholding.nobody hcounter u

theorem CalmStep.threadsInv {holder : Option ThreadId} (h : ThreadsInv space s holder)
    (hholder : holder ≠ some t) (hstep : CalmStep space s t s') : ∃ holder, ThreadsInv space s' holder := by
  cases hstep with
  | quiet new hroll hbegun htable hvalue hthread hnew =>
      refine ⟨holder, ?_, ?_, ?_, ?_⟩
      · rw [hroll]
        exact h.census.update (fun _ => Option.some_ne_none new) hthread
      · rw [hroll, htable]
        rcases hbegun with hbegun | ⟨f, arg, fExit, i, hi, hslot, hbegun⟩
        · rw [hbegun]
          exact h.stacksOk
        · intro u hu r hr
          rw [hbegun, Function.update_apply] at hr
          split at hr
          · subst u
            exact ⟨f, arg, fExit, i, hi, hslot, (Option.some.inj hr).symm⟩
          · exact h.stacksOk u hu r hr
      · rw [hroll]
        exact h.owned.congr hholder hvalue htable hthread
      · rw [hroll, htable]
        refine calm_update hthread h.calm ?_
        rintro th ⟨⟩
        exact hnew
  | acquire new q hroll hbegun htable hopen hvalue hthread hcode hholding =>
      cases h.owned with
      | held u th p hzero hu hcode hholding => exact absurd hzero hopen
      | free hfree hok =>
          refine ⟨some t, ?_, ?_, ?_, ?_⟩
          · rw [hroll]
            exact h.census.update (fun _ => Option.some_ne_none new) hthread
          · rw [hroll, hbegun, htable]
            exact h.stacksOk
          · rw [hroll]
            refine .held t new q (by omega) ?_ hcode (htable ▸ hholding hok)
            rw [hthread, Function.update_self]
          · rw [hroll, htable]
            intro u other hne hu
            rw [hthread, Function.update_of_ne fun heq => hne (congrArg some heq.symm)] at hu
            exact h.calm u other nofun hu
  | finish hroll hbegun htable hvalue hthread hgone =>
      refine ⟨holder, ?_, ?_, ?_, ?_⟩
      · rw [hroll]
        exact h.census.update (fun halive => absurd halive hgone) hthread
      · rw [hroll, hbegun, htable]
        exact h.stacksOk
      · rw [hroll]
        exact h.owned.congr hholder hvalue htable hthread
      · rw [hroll, htable]
        exact calm_update hthread h.calm nofun

/-- The holder of the lock goes on and no thread enters or leaves. -/
theorem ThreadsInv.hold (h : ThreadsInv space s (some t)) {new : UserThread}
    {q : Program Sem World Registers Observation}
    (hthread : s'.thread = Function.update s.thread t (some new)) (hcode : new.code = some q)
    (hvalue : s'.value .threadLock = 0) (hroll : Roll.of s'.log = Roll.of s.log)
    (hbegun : begunOf s'.log = begunOf s.log)
    (howner : ∀ i < maxThreads, ∀ u ∈ (Roll.of s.log).users, s.shared.table.owner i = u →
      s'.shared.table.owner i = u)
    (hholding : Holding space (.of s.log) s'.shared.table t q) : ThreadsInv space s' (some t) := by
  refine ⟨?_, ?_, ?_, ?_⟩
  · rw [hroll]
    exact h.census.update (fun _ => Option.some_ne_none new) hthread
  · rw [hroll, hbegun]
    intro u hu r hr
    obtain ⟨f, arg, fExit, i, hi, hslot, hstart⟩ := h.stacksOk u hu r hr
    exact ⟨f, arg, fExit, i, hi, howner i hi u hu hslot, hstart⟩
  · rw [hroll]
    refine .held t new q hvalue ?_ hcode hholding
    rw [hthread, Function.update_self]
  · rw [hroll]
    intro u other hne hu
    rw [hthread, Function.update_of_ne fun heq => hne (congrArg some heq.symm)] at hu
    exact (h.calm u other hne hu).of_roll Iff.rfl id (fun huser i hi => howner i hi u huser) id

/-- The holder releases the lock. -/
theorem ThreadsInv.unlock (h : ThreadsInv space s (some t)) {new : UserThread}
    (hthread : s'.thread = Function.update s.thread t (some new)) (hvalue : s'.value .threadLock = 1)
    (hroll : Roll.of s'.log = Roll.of s.log) (hbegun : begunOf s'.log = begunOf s.log)
    (htable : s'.shared.table = s.shared.table)
    (hok : TableOk (Roll.of s.log).users ((Roll.of s.log).population - 1) none s.shared.table)
    (hnew : Calm space (.of s.log) s.shared.table t new) : ThreadsInv space s' none := by
  refine ⟨?_, ?_, ?_, ?_⟩
  · rw [hroll]
    exact h.census.update (fun _ => Option.some_ne_none new) hthread
  · rw [hroll, hbegun, htable]
    exact h.stacksOk
  · rw [hroll]
    exact .free hvalue (htable ▸ hok)
  · rw [hroll, htable]
    intro u other _ hu
    rw [hthread, Function.update_apply] at hu
    split at hu
    · subst u
      cases hu
      exact hnew
    · rename_i hne
      exact h.calm u other (fun heq => hne (Option.some.inj heq).symm) hu

theorem raised {value : Sem → Int} (hzero : value .threadLock = 0) :
    Function.update value .threadLock (value .threadLock + 1) .threadLock = 1 := by
  rw [Function.update_self, hzero]
  rfl

variable (h : ThreadsInv space s (some t)) (hzero : s.value .threadLock = 0)

include h hzero

theorem run_find (f arg fExit : Word) (halive : (Roll.of s.log).Alive t)
    (hok : TableOk (Roll.of s.log).users ((Roll.of s.log).population - 1) none s.shared.table)
    (hruns : Runs (userSystem space utf8 input memory garbage) s t th
      (findStack space f arg fExit returnResult) s') : ThreadsInv space s' (some t) := by
  change Runs _ s t th (.act _ _) s' at hruns
  cases hruns
  refine h.hold rfl rfl hzero (congrArg Roll.of (List.append_nil _)) (congrArg begunOf (List.append_nil _))
    (fun i hi u hu hslot => hslot) ?_
  show Holding space (.of s.log) s.shared.table.findStack.2 t
    (createWithStack space f arg fExit returnResult s.shared.table.findStack.1)
  rcases hok.findStack with hfull | ⟨i, hi, hidx, hreserved⟩
  · rw [hfull]
    exact .release (-1) halive hok
  · rw [hidx]
    exact .allocate f arg fExit i halive hreserved

theorem run_enter (f arg fExit : Word) (i : Nat) (u : ThreadId) (before : List ThreadId)
    (halive : (Roll.of s.log).Alive t) (husers : (Roll.of s.log).users = before ++ [u]) (hu : u ≠ 0)
    (hfresh : u ∉ before)
    (hok : TableOk before ((Roll.of s.log).population - 2) (some i) s.shared.table)
    (hruns : Runs (userSystem space utf8 input memory garbage) s t th
      (enterNewThread space f arg fExit returnResult i u) s') : ThreadsInv space s' (some t) := by
  obtain ⟨hi, hvacant⟩ := hok.vacant i rfl
  have hentered := hok.enter hu hfresh
  have howner : ∀ j, (s.shared.table.enter i u).owner j = if j = i then u else s.shared.table.owner j :=
    TableOk.owner_set (by rw [hok.length_gThreads]; exact hi) u
  change Runs _ s t th (.act _ _) s' at hruns
  cases hruns
  refine h.hold rfl rfl hzero (congrArg Roll.of (List.append_nil _)) (congrArg begunOf (List.append_nil _)) ?_ ?_
  · intro j hj v hv hslot
    show (s.shared.table.enter i u).owner j = v
    rw [howner]
    split
    · -- The slot was vacant, so that it was not the slot of a thread.
      rename_i hji
      subst hji
      rw [husers, List.mem_append, List.mem_singleton] at hv
      rcases hv with hv | rfl
      · exact absurd (hslot ▸ hv) hvacant
      · rfl
    · exact hslot
  · refine .start f arg fExit i u halive ?_ hi ?_ ?_
    · rw [husers]
      exact List.mem_append_right _ List.mem_cons_self
    · show (s.shared.table.enter i u).owner i = u
      rw [howner, if_pos rfl]
    · have hcount : (Roll.of s.log).population - 2 + 1 = (Roll.of s.log).population - 1 := by omega
      rw [husers, ← hcount]
      exact hentered

/-- The new thread is alive from its creation on; nothing is known yet of its slot. -/
theorem run_create (f arg fExit : Word) (i : Nat) (u : ThreadId) (halive : (Roll.of s.log).Alive t)
    (hok : TableOk (Roll.of s.log).users ((Roll.of s.log).population - 1) (some i) s.shared.table)
    (hnull : u ≠ 0) (hfresh : s.thread u = none) {new constructed : UserThread}
    (hcode : new.code = some (enterNewThread space f arg fExit returnResult i u))
    (hconstructed : constructed.code = none)
    (hthread : s'.thread = Function.update (Function.update s.thread t (some new)) u (some constructed))
    (hvalue : s'.value = s.value) (hshared : s'.shared = s.shared) (hlog : s'.log = s.log ++ [.created u]) :
    ThreadsInv space s' (some t) := by
  have hnew : ∀ v, (Roll.of s.log).Alive v → v ≠ u := by
    rintro v hv rfl
    exact h.census.exist v hv hfresh
  have hunlisted : u ∉ (Roll.of s.log).users := fun hu => hnew u (.inl hu) rfl
  have htu : t ≠ u := hnew t halive
  have hroll : Roll.of s'.log = ⟨(Roll.of s.log).users ++ [u], (Roll.of s.log).initial⟩ := by
    rw [hlog, Roll.of_append]
    rfl
  have hbegun : begunOf s'.log = Function.update (begunOf s.log) u none := by
    rw [hlog, begunOf_append]
    rfl
  have hcount : (Roll.of s'.log).population = (Roll.of s.log).population + 1 := by
    rw [hroll]
    simp only [Roll.population, List.length_append, List.length_singleton]
    omega
  have haliveIff : ∀ v, (Roll.of s'.log).Alive v ↔ (Roll.of s.log).Alive v ∨ v = u := by
    intro v
    rw [hroll]
    simp only [Roll.Alive, List.mem_append, List.mem_singleton]
    tauto
  refine ⟨⟨?_, ?_, ?_, ?_⟩, ?_, ?_, ?_⟩
  · rw [hroll]
    exact h.census.nodup.append (List.nodup_singleton u) (by simpa using hunlisted)
  · rw [hroll, List.mem_append, List.mem_singleton, not_or]
    exact ⟨h.census.nonzero, hnull.symm⟩
  · rw [hroll, List.mem_append, List.mem_singleton, not_or]
    intro hinitial
    exact ⟨h.census.separate hinitial, hnew initialThread (.inr ⟨rfl, hinitial⟩)⟩
  · intro v hv
    rw [hthread, Function.update_apply, Function.update_apply]
    split
    · exact Option.some_ne_none constructed
    · rename_i hvu
      split
      · exact Option.some_ne_none new
      · exact h.census.exist v (((haliveIff v).mp hv).resolve_right hvu)
  · rw [hshared, hbegun]
    intro v hv r hr
    rw [Function.update_apply] at hr
    split at hr
    · cases hr
    · rename_i hvu
      rw [hroll, List.mem_append, List.mem_singleton] at hv
      exact h.stacksOk v (hv.resolve_right hvu) r hr
  · refine .held t new _ (hvalue ▸ hzero) ?_ hcode ?_
    · rw [hthread, Function.update_of_ne htu, Function.update_self]
    · rw [hshared]
      refine .enter f arg fExit i u (Roll.of s.log).users ((haliveIff t).mpr (.inl halive)) ?_ hnull hunlisted ?_ ?_
      · rw [hroll]
      · have hindex := hok.gThreadsIdx_eq
        have hpos := Roll.population_pos halive
        omega
      · rw [hcount, show (Roll.of s.log).population + 1 - 2 = (Roll.of s.log).population - 1 from by omega]
        exact hok
  · intro v other hne hv
    rw [hthread, Function.update_apply] at hv
    split at hv
    · subst v
      cases hv
      refine .plain ((haliveIff u).mpr (.inr rfl)) ?_
      intro p hp
      rw [hconstructed] at hp
      cases hp
    · rename_i hvu
      rw [Function.update_of_ne fun heq => hne (congrArg some heq.symm)] at hv
      rw [hshared]
      refine (h.calm v other hne hv).of_roll ?_ ?_ (fun _ _ _ hslot => hslot) ?_
      · rw [haliveIff]
        exact or_iff_left hvu
      · intro hv
        rw [hroll]
        exact List.mem_append_left _ hv
      · intro hnobody
        exact absurd halive (hnobody t)

theorem run_start (f arg fExit : Word) (i : Nat) (u : ThreadId) (halive : (Roll.of s.log).Alive t)
    (huser : u ∈ (Roll.of s.log).users) (hi : i < maxThreads) (hslot : s.shared.table.owner i = u)
    (hok : TableOk (Roll.of s.log).users ((Roll.of s.log).population - 1) none s.shared.table)
    (ht : s.thread t = some th) (hcode : th.code ≠ none)
    (hruns : Runs (userSystem space utf8 input memory garbage) s t th
      (startNewThread space f arg fExit returnResult i u) s') : ThreadsInv space s' (some t) := by
  change Runs _ s t th (.start _ _ _) s' at hruns
  cases hruns with
  | @start _ new _ _ hu hnew =>
      have htu : t ≠ u := by
        rintro rfl
        rw [ht] at hu
        cases hu
        exact hcode hnew
      have hroll : Roll.of (s.log ++ [.started u]) = Roll.of s.log := Roll.of_append _ _
      refine ⟨?_, ?_, ?_, ?_⟩
      · show Census (.of (s.log ++ [.started u])) (Function.update (Function.update s.thread t _) u _)
        rw [hroll]
        refine ⟨h.census.nodup, h.census.nonzero, h.census.separate, ?_⟩
        intro v hv
        rw [Function.update_apply, Function.update_apply]
        split
        · exact Option.some_ne_none _
        · split
          · exact Option.some_ne_none _
          · exact h.census.exist v hv
      · show StacksOk space (Roll.of (s.log ++ [.started u])).users (begunOf (s.log ++ [.started u])) _
        rw [hroll, begunOf_append]
        exact h.stacksOk
      · show Owned space (.of (s.log ++ [.started u])) _ _
        rw [hroll]
        have hthis := (Function.update_of_ne htu (some { new with code := some (startUserThread space f arg fExit i) })
          _).trans (Function.update_self t (some { th with code := some (.semV .threadLock (returnResult 0)) })
            s.thread)
        exact .held t _ _ hzero hthis rfl (.release 0 halive hok)
      · show ∀ v other, _ → Function.update (Function.update s.thread t _) u _ v = some other →
          Calm space (.of (s.log ++ [.started u])) s.shared.table v other
        rw [hroll]
        intro v other hne hv
        rw [Function.update_apply] at hv
        split at hv
        · subst v
          cases hv
          exact .starting huser f arg fExit i hi hslot rfl
        · rw [Function.update_of_ne fun heq => hne (congrArg some heq.symm)] at hv
          exact h.calm v other hne hv

omit hzero in
/-- The thread that holds the lock and its entry in the table go. -/
theorem leave_alive (halive : (Roll.of s.log).Alive t)
    (hok : TableOk (Roll.of s.log).users ((Roll.of s.log).population - 1) none s.shared.table) :
    ∃ left, s.shared.table.leave t = some left ∧
      TableOk ((Roll.of s.log).users.erase t)
        ((⟨(Roll.of s.log).users.erase t, (Roll.of s.log).initial && t != initialThread⟩ : Roll).population - 1)
        none left ∧
      ∀ i < maxThreads, ∀ v ∈ (Roll.of s.log).users.erase t, s.shared.table.owner i = v → left.owner i = v := by
  obtain ⟨hnodup, hnonzero, hseparate, -⟩ := h.census
  generalize Roll.of s.log = roll at *
  by_cases huser : t ∈ roll.users
  · obtain ⟨left, hleft, htable, howner⟩ := hok.leave_user hnodup hnonzero huser
    refine ⟨left, hleft, ?_, ?_⟩
    · -- If the address is that of the initial thread then the initial thread has gone.
      have hinitial : (roll.initial && t != initialThread) = roll.initial := by
        cases hflag : roll.initial with
        | false => rfl
        | true =>
            rw [Bool.true_and, bne_iff_ne]
            rintro rfl
            exact hseparate hflag huser
      have hlength := List.length_erase_of_mem huser
      have hpos := List.length_pos_of_mem huser
      rw [hinitial]
      have hcount : (⟨roll.users.erase t, roll.initial⟩ : Roll).population - 1 = roll.population - 1 - 1 := by
        simp only [Roll.population, hlength]
        omega
      rw [hcount]
      exact htable
    · intro i hi v hv hslot
      exact (howner i hi (hslot ▸ hv)).trans hslot
  · obtain ⟨rfl, hflag⟩ := halive.resolve_left huser
    obtain ⟨left, hleft, htable, howner⟩ := hok.leave_other (by decide) huser
    refine ⟨left, hleft, ?_, ?_⟩
    · have hcount : (⟨roll.users, false⟩ : Roll).population - 1 = roll.population - 1 - 1 := by
        simp [Roll.population, hflag]
      rw [List.erase_of_not_mem huser, bne_self_eq_false, Bool.and_false, hcount]
      exact htable
    · intro i _ v _ hslot
      exact (howner i).trans hslot

/-- The critical section of `do_ThreadExit`. -/
theorem run_leave (halive : (Roll.of s.log).Alive t)
    (hok : TableOk (Roll.of s.log).users ((Roll.of s.log).population - 1) none s.shared.table)
    (hruns : Runs (userSystem space utf8 input memory garbage) s t th leaveTable s') :
    ThreadsInv space s' (some t) := by
  obtain ⟨left, hleft, htable, howner⟩ := leave_alive h halive hok
  obtain ⟨hnodup, hnonzero, hseparate, hexist⟩ := h.census
  obtain ⟨new, hthread, hcode, hvalue, hshared, hlog⟩ : ∃ new : UserThread,
      s'.thread = Function.update s.thread t (some new) ∧ new.code = some (.semV .threadLock finishOrHalt) ∧
      s'.value = s.value ∧ s'.shared.table = left ∧ s'.log = s.log ++ [.observed t .exited] := by
    change Runs _ s t th (.act _ _) s' at hruns
    cases hruns
    refine ⟨_, rfl, ?_, rfl, ?_, rfl⟩
    · simp only [hleft, Option.isSome_some, if_true]
    · simp only [hleft, Option.getD_some]
  have hroll : Roll.of s'.log =
      ⟨(Roll.of s.log).users.erase t, (Roll.of s.log).initial && t != initialThread⟩ := by
    rw [hlog, Roll.of_append]
    rfl
  have hbegun : begunOf s'.log = begunOf s.log := by
    rw [hlog, begunOf_append]
    rfl
  have hmem : ∀ v, v ∈ (Roll.of s.log).users.erase t ↔ v ≠ t ∧ v ∈ (Roll.of s.log).users :=
    fun v => hnodup.mem_erase_iff
  have hgone : ¬(Roll.of s'.log).Alive t := by
    rw [hroll]
    rintro (huser | ⟨rfl, hinitial⟩)
    · exact ((hmem t).mp huser).1 rfl
    · simp at hinitial
  have haliveIff : ∀ v, v ≠ t → ((Roll.of s'.log).Alive v ↔ (Roll.of s.log).Alive v) := by
    intro v hv
    rw [hroll]
    simp only [Roll.Alive, hmem, Bool.and_eq_true, bne_iff_ne]
    constructor
    · rintro (⟨-, huser⟩ | ⟨rfl, hinitial, -⟩)
      · exact .inl huser
      · exact .inr ⟨rfl, hinitial⟩
    · rintro (huser | ⟨rfl, hinitial⟩)
      · exact .inl ⟨hv, huser⟩
      · exact .inr ⟨rfl, hinitial, hv.symm⟩
  refine ⟨⟨?_, ?_, ?_, ?_⟩, ?_, ?_, ?_⟩
  · rw [hroll]
    exact hnodup.erase t
  · rw [hroll]
    exact fun hmem => hnonzero (List.mem_of_mem_erase hmem)
  · rw [hroll]
    intro hinitial huser
    rw [Bool.and_eq_true] at hinitial
    exact hseparate hinitial.1 (List.mem_of_mem_erase huser)
  · intro v hv
    rw [hthread, Function.update_apply]
    split
    · exact Option.some_ne_none new
    · exact hexist v ((haliveIff v ‹_›).mp hv)
  · rw [hroll, hbegun, hshared]
    intro v hv r hr
    obtain ⟨f, arg, fExit, i, hi, hslot, hstart⟩ := h.stacksOk v (List.mem_of_mem_erase hv) r hr
    exact ⟨f, arg, fExit, i, hi, howner i hi v hv hslot, hstart⟩
  · refine .held t new _ (hvalue ▸ hzero) ?_ hcode (.left hgone ?_)
    · rw [hthread, Function.update_self]
    · rw [hroll, hshared]
      exact htable
  · intro v other hne hv
    have hvt : v ≠ t := fun heq => hne (congrArg some heq.symm)
    rw [hthread, Function.update_of_ne hvt] at hv
    refine (h.calm v other hne hv).of_roll (haliveIff v hvt) ?_ ?_ ?_
    · intro huser
      rw [hroll]
      exact (hmem v).mpr ⟨hvt, huser⟩
    · intro huser i hi hslot
      rw [hshared]
      exact howner i hi v ((hmem v).mpr ⟨hvt, huser⟩) hslot
    · intro hnobody u hu
      by_cases hut : u = t
      · exact hgone (hut ▸ hu)
      · exact hnobody u ((haliveIff u hut).mp hu)

/-- A step of the thread that holds the lock, unless an allocation fails. -/
theorem Holding.run (ht : s.thread t = some th) (hcode : th.code = some p)
    (hholding : Holding space (.of s.log) s.shared.table t p)
    (hruns : Runs (userSystem space utf8 input memory garbage) s t th p s') :
    (∃ holder, ThreadsInv space s' holder) ∨ Event.observed t .outOfMemory ∈ s'.log := by
  cases hholding with
  | find f arg fExit halive htable => exact .inl ⟨_, run_find h hzero f arg fExit halive htable hruns⟩
  | allocate f arg fExit i halive htable =>
      left
      refine ⟨some t, ?_⟩
      rw [createWithStack, if_pos (Int.natCast_nonneg i)] at hruns
      cases hruns with
      | create u garbage hnull hfresh =>
          exact run_create h hzero f arg fExit i u halive htable hnull hfresh rfl rfl rfl rfl rfl rfl
      | createFails =>
          exact h.hold rfl rfl hzero rfl rfl (fun i hi u hu hslot => hslot) (.failed i htable)
  | failed i htable =>
      right
      change Runs _ s t th (.act _ _) s' at hruns
      cases hruns
      exact List.mem_append_right _ List.mem_cons_self
  | enter f arg fExit i u before halive husers hu hfresh hcreator htable =>
      exact .inl ⟨_, run_enter h hzero f arg fExit i u before halive husers hu hfresh htable hruns⟩
  | start f arg fExit i u halive huser hi hslot htable =>
      have hrunning : th.code ≠ none := by
        rw [hcode]
        exact Option.some_ne_none _
      exact .inl ⟨_, run_start h hzero f arg fExit i u halive huser hi hslot htable ht hrunning hruns⟩
  | release result halive htable =>
      left
      cases hruns
      refine ⟨none, h.unlock rfl (raised hzero) (Roll.of_append _ _) (begunOf_append _ _) rfl htable ?_⟩
      exact .plain halive (.of_free rfl (free_returnToUser _))
  | leave halive htable => exact .inl ⟨_, run_leave h hzero halive htable hruns⟩
  | left hgone htable =>
      left
      cases hruns
      refine ⟨none, h.unlock rfl (raised hzero) (Roll.of_append _ _) (begunOf_append _ _) rfl htable ?_⟩
      exact .leaving hgone (.inl rfl)

end Steps

section Reachable

variable {space : AddrSpace} {utf8 : Bool} {input : List Byte} {memory : Nat → Byte} {garbage : Nat → Word}

theorem ThreadsInv.congr {s s' : UserState} {holder : Option ThreadId} (h : ThreadsInv space s holder)
    (hthread : s'.thread = s.thread) (hsame : Same tableRegion s s') : ThreadsInv space s' holder := by
  have hroll := roll_same hsame
  have htable : s'.shared.table = s.shared.table := hsame.view
  have hvalue : s'.value .threadLock = s.value .threadLock := hsame.value _ rfl
  refine ⟨?_, ?_, ?_, ?_⟩
  · rw [hroll, hthread]
    exact h.census
  · rw [hroll, begun_same hsame, htable]
    exact h.stacksOk
  · rw [hroll]
    cases h.owned with
    | free hfree hok => exact .free (hvalue.trans hfree) (htable ▸ hok)
    | held t th p hzero ht hcode hholding =>
        exact .held t th p (hvalue.trans hzero) (hthread ▸ ht) hcode (htable ▸ hholding)
  · rw [hroll, htable, hthread]
    exact h.calm

theorem consoleHandler_table {s : UserState} {i : ConsoleInterrupt} {shared : World} {released : List Sem}
    (hhandler : consoleHandler i s.shared = some (shared, released)) :
    Same tableRegion s (afterInterrupt s shared released) := by
  cases i with
  | readPoll ready =>
      simp only [consoleHandler] at hhandler
      split at hhandler
      · cases hhandler
        apply Same.interrupt
        · rfl
        · intro x hx
          split at hx
          · rw [List.mem_singleton.mp hx]
            rfl
          · cases hx
      · cases hhandler
  | writeDone =>
      simp only [consoleHandler] at hhandler
      split at hhandler
      · cases hhandler
        apply Same.interrupt
        · rfl
        · intro x hx
          rw [List.mem_singleton.mp hx]
          rfl
      · cases hhandler

/-- The threads and their table agree, unless an allocation has failed. -/
def ThreadsKept (space : AddrSpace) (s : UserState) : Prop :=
  (∃ holder, ThreadsInv space s holder) ∨ ∃ t, Event.observed t .outOfMemory ∈ s.log

theorem ThreadsInv.step {s s' : UserState} {holder : Option ThreadId} (h : ThreadsInv space s holder)
    (hstep : Interleaving.Step (userSystem space utf8 input memory garbage) s s') : ThreadsKept space s' := by
  cases hstep with
  | take t th hhalted hcpu ht hcode => exact .inl ⟨holder, h.congr rfl ⟨fun _ _ => rfl, rfl, rfl⟩⟩
  | interrupt i shared released hhalted hcpu hhandler =>
      exact .inl ⟨holder, h.congr rfl (consoleHandler_table hhandler)⟩
  | @run t th p _ hhalted hcpu ht hcode hruns =>
      by_cases hholder : holder = some t
      · subst hholder
        cases h.owned with
        | held _ other q hzero hother hq hholding =>
            rw [ht] at hother
            cases hother
            rw [hcode] at hq
            cases hq
            rcases Holding.run h hzero ht hcode hholding hruns with hinv | hfailed
            · exact .inl hinv
            · exact .inr ⟨t, hfailed⟩
      · have hstep := (h.calm t th hholder ht).run (fun hcounter => h.owned.nobody hcounter) ht hcode hruns
        exact .inl (hstep.threadsInv h hholder)

end Reachable

section Begins

end Begins

/-- A user program that creates a thread. -/
def createRegisters : Registers := fun i => if i = 2 then 17 else if i = 4 then 400 else 0

/-- An allocation has failed. -/
def isOutOfMemory : Event Sem UserCall Observation → Bool
  | .observed _ .outOfMemory => true
  | _ => false

end Nachos

import Nachos.UserThreadInvariant

/-! The table of the user threads under its lock, `userprog/userthread.cc`, also when allocations fail. A thread
that holds `thread_lock` goes through `do_ThreadCreate` or `do_ThreadExit` step by step; every other thread
leaves the table alone. What is kept by each of these steps therefore holds in every interleaving. -/

namespace Nachos

open Interleaving

/-- The table, its lock and the failed allocations. -/
def lockRegion : Region Sem World Observation ThreadTable where
  sems := tableRegion.sems
  view world := world.table
  seen
    | .outOfMemory => true
    | _ => false
  threads := false
  mayAbort := true

theorem lockRegion_within : lockRegion.Within tableRegion where
  sems _ h := h
  view _ _ h := h
  seen o h := by
    cases o with
    | outOfMemory => rfl
    | _ => cases h
  threads h := by cases h
  mayAbort _ := rfl

/-- Where a thread is in one of the critical sections. -/
inductive LockPoint where
  | find (f arg fExit : Word)
  | allocate (f arg fExit : Word) (i : Nat)
  | failed
  | enter (f arg fExit : Word) (i : Nat) (newThread : ThreadId)
  | start (f arg fExit : Word) (i : Nat) (newThread : ThreadId)
  | result (value : Word)
  | leave
  | left
  | aborted

/-- What the thread has still to do. -/
def LockPoint.code (space : AddrSpace) : LockPoint → Program Sem World Registers Observation
  | .find f arg fExit => findStack space f arg fExit returnResult
  | .allocate f arg fExit i => createWithStack space f arg fExit returnResult i
  | .failed => noNewThread returnResult
  | .enter f arg fExit i newThread => enterNewThread space f arg fExit returnResult i newThread
  | .start f arg fExit i newThread => startNewThread space f arg fExit returnResult i newThread
  | .result value => .semV .threadLock (returnResult value)
  | .leave => leaveTable
  | .left => .semV .threadLock finishOrHalt
  | .aborted => .abort

/-- The thread goes on with the result of the search. -/
def LockPoint.found (f arg fExit : Word) (idx : Int) : LockPoint :=
  if 0 ≤ idx then .allocate f arg fExit idx.toNat else .result (-1)

/-- A step of the thread `t` in one of the critical sections: where it goes, what becomes of the table, and what the
thread shows of a failed allocation. -/
inductive LockStep (t : ThreadId) (table : ThreadTable) :
    LockPoint → LockPoint → ThreadTable → List (Event Sem UserCall Observation) → Prop where
  | find (f arg fExit : Word) :
      LockStep t table (.find f arg fExit) (.found f arg fExit table.findStack.1) table.findStack.2 []
  | allocated (f arg fExit : Word) (i : Nat) (u : ThreadId) (hnull : u ≠ 0) :
      LockStep t table (.allocate f arg fExit i) (.enter f arg fExit i u) table []
  | failed (f arg fExit : Word) (i : Nat) : LockStep t table (.allocate f arg fExit i) .failed table []
  | report : LockStep t table .failed (.result (-1)) table [.observed t .outOfMemory]
  | enter (f arg fExit : Word) (i : Nat) (u : ThreadId) :
      LockStep t table (.enter f arg fExit i u) (.start f arg fExit i u) (table.enter i u) []
  | start (f arg fExit : Word) (i : Nat) (u : ThreadId) :
      LockStep t table (.start f arg fExit i u) (.result 0) table []
  | leave (left : ThreadTable) (hleft : table.leave t = some left) : LockStep t table .leave .left left []
  | abort (hleft : table.leave t = none) : LockStep t table .leave .aborted table []

/-- With these points a critical section begins. -/
def LockPoint.First : LockPoint → Prop
  | .find _ _ _ => True
  | .leave => True
  | _ => False

/-- At these points the thread releases the lock. -/
def LockPoint.Last : LockPoint → Prop
  | .result _ => True
  | .left => True
  | _ => False

/-- The events that are about the table. -/
def lockLog (s : UserState) : List (Event Sem UserCall Observation) := s.log.filter lockRegion.guards

/-- What the step of a thread that holds `thread_lock` does: it goes on, or it releases the lock. -/
inductive HolderStep (space : AddrSpace) (s : UserState) (t : ThreadId) (point : LockPoint) (s' : UserState) :
    Prop where
  | goes (new : UserThread) (next : LockPoint) (events : List (Event Sem UserCall Observation))
      (hnew : s'.thread t = some new) (hcode : new.code = some (next.code space))
      (hvalue : s'.value .threadLock = s.value .threadLock) (hlog : lockLog s' = lockLog s ++ events)
      (hstep : LockStep t s.shared.table point next s'.shared.table events) : HolderStep space s t point s'
  | releases (hlast : point.Last) (hvalue : s'.value .threadLock = s.value .threadLock + 1)
      (htable : s'.shared.table = s.shared.table)
      (hlog : lockLog s' = lockLog s ++ [.released .threadLock (some t)])
      (houtside : ∀ new, s'.thread t = some new → Outside lockRegion (Approaches space) new) :
      HolderStep space s t point s'

section Steps

variable {space : AddrSpace} {utf8 : Bool} {input : List Byte} {memory : Nat → Byte} {garbage : Nat → Word}
  {s s' : UserState} {t : ThreadId} {th : UserThread} {p : Program Sem World Registers Observation}

theorem code_found (f arg fExit : Word) (idx : Int) :
    (LockPoint.found f arg fExit idx).code space = createWithStack space f arg fExit returnResult idx := by
  unfold LockPoint.found
  by_cases hidx : 0 ≤ idx
  · rw [if_pos hidx, LockPoint.code, Int.toNat_of_nonneg hidx]
  · rw [if_neg hidx, createWithStack, if_neg hidx]
    rfl

theorem free_returnResult (result : Word) : (returnResult result).Free lockRegion :=
  (free_returnToUser (some result)).within lockRegion_within

theorem free_finishOrHalt : finishOrHalt.Free lockRegion := by
  refine ⟨?_, ?_⟩
  · intro t world r
    exact ⟨rfl, fun o ho => by cases ho⟩
  · intro t world r
    show Program.Free lockRegion (if _ then _ else _)
    split
    · rfl
    · trivial

theorem free_startUserThread (f arg fExit : Word) (idx : Int) :
    (startUserThread space f arg fExit idx).Free lockRegion := by
  refine ⟨?_, fun _ _ _ => trivial⟩
  intro t world r
  refine ⟨rfl, ?_⟩
  intro o ho
  rw [List.mem_singleton.mp ho]
  rfl

theorem exceptionHandler_lock (sscanf : List Byte → Word) (fresh : Nat → Nat → Byte) (memory : Nat → Byte)
    (r : Registers) (call : Option UserCall) : (exceptionHandler space sscanf fresh memory r).Free lockRegion ∨
      Approaches space call (exceptionHandler space sscanf fresh memory r) :=
  (exceptionHandler_outside sscanf fresh memory r call).imp_left (·.within lockRegion_within)

theorem menu_lock (c : UserCall) : ((userSystem space utf8 input memory garbage).menu c).Free lockRegion ∨
    Approaches space (some c) ((userSystem space utf8 input memory garbage).menu c) :=
  (menu_approaches c).imp_left (·.within lockRegion_within)

theorem lockLog_append {events shown : List (Event Sem UserCall Observation)} (hlog : s'.log = s.log ++ events)
    (hshown : events.filter lockRegion.guards = shown) : lockLog s' = lockLog s ++ shown := by
  rw [lockLog, hlog, List.filter_append, hshown]
  rfl

/-- A step of the holder that changes no other thread. -/
theorem holder_others {new : UserThread} (hthread : s'.thread = Function.update s.thread t (some new)) (u : ThreadId)
    (other : UserThread) (hu : u ≠ t) (hother : s'.thread u = some other) :
    s.thread u = some other ∨ Outside lockRegion (Approaches space) other := by
  rw [hthread, Function.update_of_ne hu] at hother
  exact .inl hother

/-- The step of a thread that releases the lock and leaves the section. -/
theorem release_step {point : LockPoint} {k : Program Sem World Registers Observation} (hlast : point.Last)
    (hk : k.Free lockRegion) (hruns : Runs (userSystem space utf8 input memory garbage) s t th (.semV .threadLock k) s') :
    (∀ u other, u ≠ t → s'.thread u = some other →
        s.thread u = some other ∨ Outside lockRegion (Approaches space) other) ∧ HolderStep space s t point s' := by
  cases hruns
  have hup : Function.update s.value .threadLock (s.value .threadLock + 1) .threadLock = s.value .threadLock + 1 :=
    Function.update_self _ _ _
  refine ⟨holder_others rfl, .releases hlast hup rfl (lockLog_append rfl rfl) ?_⟩
  intro new hnew
  cases (Function.update_self t _ s.thread).symm.trans hnew
  exact .of_free rfl hk

/-- A step of the holder that changes one other thread, which is then outside. -/
theorem holder_other {u : ThreadId} {new second : UserThread}
    (hthread : s'.thread = Function.update (Function.update s.thread t (some new)) u (some second))
    (hsecond : Outside lockRegion (Approaches space) second) (v : ThreadId) (other : UserThread) (hv : v ≠ t)
    (hother : s'.thread v = some other) :
    s.thread v = some other ∨ Outside lockRegion (Approaches space) other := by
  rw [hthread, Function.update_apply] at hother
  split at hother
  · cases hother
    exact .inr hsecond
  · rw [Function.update_of_ne hv] at hother
    exact .inl hother

/-- Every step of a thread that holds the lock is one of `do_ThreadCreate` or of `do_ThreadExit`. -/
theorem LockPoint.run (point : LockPoint) (ht : s.thread t = some th) (hcode : th.code = some (point.code space))
    (hruns : Runs (userSystem space utf8 input memory garbage) s t th (point.code space) s') :
    (∀ u other, u ≠ t → s'.thread u = some other →
        s.thread u = some other ∨ Outside lockRegion (Approaches space) other) ∧ HolderStep space s t point s' := by
  cases point with
  | find f arg fExit =>
      change Runs _ s t th (.act _ _) s' at hruns
      cases hruns
      exact ⟨holder_others rfl, .goes _ _ [] (Function.update_self _ _ _) (congrArg some (code_found f arg fExit _).symm)
        rfl (lockLog_append rfl rfl) (.find f arg fExit)⟩
  | allocate f arg fExit i =>
      rw [code, createWithStack, if_pos (Int.natCast_nonneg i)] at hruns
      cases hruns with
      | create u fresh hnull hfresh =>
          have htu : t ≠ u := by
            rintro rfl
            rw [ht] at hfresh
            cases hfresh
          refine ⟨holder_other rfl ?_, .goes _ (.enter f arg fExit i u) []
            ((Function.update_of_ne htu _ _).trans (Function.update_self _ _ _)) rfl rfl (lockLog_append rfl rfl)
            (.allocated f arg fExit i u hnull)⟩
          intro q hq
          cases hq
      | createFails =>
          exact ⟨holder_others rfl, .goes _ .failed [] (Function.update_self _ _ _) rfl rfl
            (lockLog_append (List.append_nil _).symm rfl) (.failed f arg fExit i)⟩
  | failed =>
      change Runs _ s t th (.act _ _) s' at hruns
      cases hruns
      exact ⟨holder_others rfl, .goes _ (.result (-1)) _ (Function.update_self _ _ _) rfl rfl (lockLog_append rfl rfl)
        .report⟩
  | enter f arg fExit i u =>
      change Runs _ s t th (.act _ _) s' at hruns
      cases hruns
      exact ⟨holder_others rfl, .goes _ (.start f arg fExit i u) [] (Function.update_self _ _ _) rfl rfl
        (lockLog_append rfl rfl) (.enter f arg fExit i u)⟩
  | start f arg fExit i u =>
      change Runs _ s t th (.start _ _ _) s' at hruns
      cases hruns with
      | @start _ new _ _ hu hnew =>
          have htu : t ≠ u := by
            rintro rfl
            rw [ht] at hu
            cases hu
            rw [hcode] at hnew
            cases hnew
          exact ⟨holder_other rfl (.of_free rfl (free_startUserThread f arg fExit i)), .goes _ (.result 0) []
            ((Function.update_of_ne htu _ _).trans (Function.update_self _ _ _)) rfl rfl (lockLog_append rfl rfl)
            (.start f arg fExit i u)⟩
  | result value => exact release_step trivial (free_returnResult value) hruns
  | leave =>
      change Runs _ s t th (.act _ _) s' at hruns
      cases hruns
      cases hleft : s.shared.table.leave t with
      | none =>
          refine ⟨holder_others rfl, .goes _ .aborted [] (Function.update_self _ _ _) ?_ rfl (lockLog_append rfl rfl) ?_⟩
          · simp only [hleft]
            rfl
          · simp only [hleft]
            exact .abort hleft
      | some left =>
          refine ⟨holder_others rfl, .goes _ .left [] (Function.update_self _ _ _) ?_ rfl (lockLog_append rfl rfl) ?_⟩
          · simp only [hleft]
            rfl
          · simp only [hleft]
            exact .leave left hleft
  | left => exact release_step trivial free_finishOrHalt hruns
  | aborted => cases hruns

/-- What the step of a thread outside the critical sections does: it leaves the table alone, or it acquires the
lock. -/
inductive OutsideStep (space : AddrSpace) (s : UserState) (t : ThreadId) (s' : UserState) : Prop where
  | stays (hsame : Same lockRegion s s') (hsettled : Settled lockRegion (Approaches space) s s' t) :
      OutsideStep space s t s'
  | acquires (call : Option UserCall) (new : UserThread) (point : LockPoint)
      (hopen : s.value .threadLock ≠ 0) (hvalue : s'.value .threadLock = s.value .threadLock - 1)
      (htable : s'.shared.table = s.shared.table) (hlog : lockLog s' = lockLog s ++ [.passed .threadLock t call])
      (hthread : s'.thread = Function.update s.thread t (some new)) (hcode : new.code = some (point.code space))
      (hfirst : point.First) : OutsideStep space s t s'

theorem outside_semP {point : LockPoint} (ht : s.thread t = some th)
    (houtside : Outside lockRegion (Approaches space) th) (hfirst : point.First)
    (hruns : Runs (userSystem space utf8 input memory garbage) s t th (.semP .threadLock (point.code space)) s') :
    OutsideStep space s t s' := by
  cases hruns with
  | pass hvalue =>
      have hdown : Function.update s.value .threadLock (s.value .threadLock - 1) .threadLock =
          s.value .threadLock - 1 := Function.update_self _ _ _
      exact .acquires th.call _ point hvalue hdown rfl (lockLog_append rfl rfl) rfl rfl hfirst
  | wait hvalue =>
      refine .stays ⟨fun _ _ => rfl, rfl, rfl⟩ (.of_setThread th houtside ?_)
      rw [← ht]
      exact (Function.update_eq_self t s.thread).symm

theorem outside_run (houtside : Outside lockRegion (Approaches space) th) (ht : s.thread t = some th)
    (hcode : th.code = some p) (hruns : Runs (userSystem space utf8 input memory garbage) s t th p s') :
    OutsideStep space s t s' := by
  rcases houtside p hcode with hfree | ⟨sscanf, fresh, rfl⟩ | ⟨f, arg, fExit, rfl⟩ | rfl
  · obtain ⟨hsame, hsettled⟩ := hruns.free menu_lock hcode hfree ht
    exact .stays hsame hsettled
  · change Runs _ s t th (.act _ _) s' at hruns
    cases hruns
    refine .stays (.of_event (fun _ _ => rfl) rfl rfl rfl) (.of_setThread _ ?_ rfl)
    rintro q ⟨⟩
    exact exceptionHandler_lock sscanf fresh _ _ _
  · have hfirst : LockPoint.First (.find f arg fExit) := trivial
    exact outside_semP ht houtside hfirst hruns
  · have hfirst : LockPoint.First .leave := trivial
    exact outside_semP ht houtside hfirst hruns

end Steps

/-- What is kept under the lock: `Rest` while the lock is free, `Stage` for the thread that holds it. Both are about
the table and the events that concern it. -/
structure LockInvariant (Rest : ThreadTable → List (Event Sem UserCall Observation) → Prop)
    (Stage : ThreadId → LockPoint → ThreadTable → List (Event Sem UserCall Observation) → Prop) : Prop where
  acquire : ∀ t call point table log, t ≠ 0 → point.First → Rest table log →
    Stage t point table (log ++ [.passed .threadLock t call])
  step : ∀ t point next table table' log events, Stage t point table log → LockStep t table point next table' events →
    Stage t next table' (log ++ events)
  release : ∀ t point table log, point.Last → Stage t point table log →
    Rest table (log ++ [.released .threadLock (some t)])

/-- The lock is free, or one thread holds it; all others are outside of the critical sections. -/
inductive Guarded (space : AddrSpace) (Rest : ThreadTable → List (Event Sem UserCall Observation) → Prop)
    (Stage : ThreadId → LockPoint → ThreadTable → List (Event Sem UserCall Observation) → Prop) (s : UserState) :
    Prop where
  | free (hvalue : s.value .threadLock = 1) (hrest : Rest s.shared.table (lockLog s))
      (houtside : ∀ u other, s.thread u = some other → Outside lockRegion (Approaches space) other) :
      Guarded space Rest Stage s
  | held (t : ThreadId) (th : UserThread) (point : LockPoint) (hvalue : s.value .threadLock = 0)
      (ht : s.thread t = some th) (hcode : th.code = some (point.code space))
      (hstage : Stage t point s.shared.table (lockLog s))
      (houtside : ∀ u other, u ≠ t → s.thread u = some other → Outside lockRegion (Approaches space) other) :
      Guarded space Rest Stage s

namespace Guarded

variable {space : AddrSpace} {utf8 : Bool} {input : List Byte} {memory : Nat → Byte} {garbage : Nat → Word}
  {s s' : UserState} {t : ThreadId} {th : UserThread} {p : Program Sem World Registers Observation}
  {Rest : ThreadTable → List (Event Sem UserCall Observation) → Prop}
  {Stage : ThreadId → LockPoint → ThreadTable → List (Event Sem UserCall Observation) → Prop}

/-- Steps that leave the table alone. -/
theorem congr (h : Guarded space Rest Stage s) (hthread : s'.thread = s.thread) (hsame : Same lockRegion s s') :
    Guarded space Rest Stage s' := by
  have hvalue : s'.value .threadLock = s.value .threadLock := hsame.value _ rfl
  have htable : s'.shared.table = s.shared.table := hsame.view
  have hlog : lockLog s' = lockLog s := hsame.log
  cases h with
  | free hfree hrest houtside =>
      exact .free (hvalue.trans hfree) (htable ▸ hlog ▸ hrest) (hthread ▸ houtside)
  | held t th point hzero ht hcode hstage houtside =>
      exact .held t th point (hvalue.trans hzero) (hthread ▸ ht) hcode (htable ▸ hlog ▸ hstage)
        (hthread ▸ houtside)

/-- A step while the lock is free. -/
theorem run_free (hinv : LockInvariant Rest Stage) (hfree : s.value .threadLock = 1)
    (hrest : Rest s.shared.table (lockLog s))
    (houtside : ∀ u other, s.thread u = some other → Outside lockRegion (Approaches space) other) (hnull : t ≠ 0)
    (ht : s.thread t = some th) (hcode : th.code = some p)
    (hruns : Runs (userSystem space utf8 input memory garbage) s t th p s') : Guarded space Rest Stage s' := by
  cases outside_run (houtside t th ht) ht hcode hruns with
  | stays hsame hsettled =>
      have htable : s'.shared.table = s.shared.table := hsame.view
      have hlog : lockLog s' = lockLog s := hsame.log
      refine .free ((hsame.value _ rfl).trans hfree) (htable ▸ hlog ▸ hrest) ?_
      intro u other hother
      rcases hsettled.1 u other hother with ⟨-, hold⟩ | hout
      · exact houtside u other hold
      · exact hout
  | acquires call new point hopen hvalue htable hlog hthread hpoint hfirst =>
      have hthis : s'.thread t = some new := by rw [hthread, Function.update_self]
      have hothers : ∀ u other, u ≠ t → s'.thread u = some other →
          Outside lockRegion (Approaches space) other := by
        intro u other hu hother
        rw [hthread, Function.update_of_ne hu] at hother
        exact houtside u other hother
      refine .held t new point (by omega) hthis hpoint ?_ hothers
      rw [htable, hlog]
      exact hinv.acquire t call point _ _ hnull hfirst hrest

/-- A step of the thread that holds the lock. -/
theorem run_holder {point : LockPoint} (hinv : LockInvariant Rest Stage) (hzero : s.value .threadLock = 0)
    (ht : s.thread t = some th) (hcode : th.code = some (point.code space))
    (hstage : Stage t point s.shared.table (lockLog s))
    (houtside : ∀ u other, u ≠ t → s.thread u = some other → Outside lockRegion (Approaches space) other)
    (hruns : Runs (userSystem space utf8 input memory garbage) s t th (point.code space) s') :
    Guarded space Rest Stage s' := by
  obtain ⟨hothers, hstep⟩ := point.run ht hcode hruns
  have houtside' : ∀ u other, u ≠ t → s'.thread u = some other → Outside lockRegion (Approaches space) other := by
    intro u other hu hother
    rcases hothers u other hu hother with hold | hout
    · exact houtside u other hu hold
    · exact hout
  cases hstep with
  | goes new next events hnew hnext hvalue hlog hgoes =>
      refine .held t new next (hvalue.trans hzero) hnew hnext ?_ houtside'
      rw [hlog]
      exact hinv.step t point next _ _ _ events hstage hgoes
  | releases hlast hvalue htable hlog hthis =>
      refine .free (by omega) ?_ ?_
      · rw [htable, hlog]
        exact hinv.release t point _ _ hlast hstage
      · intro u other hother
        by_cases hu : u = t
        · subst hu
          exact hthis other hother
        · exact houtside' u other hu hother

/-- A step of a thread outside while another one holds the lock. -/
theorem run_other {u : ThreadId} {holder : UserThread} {point : LockPoint} (hzero : s.value .threadLock = 0)
    (hu : s.thread u = some holder) (hpoint : holder.code = some (point.code space))
    (hstage : Stage u point s.shared.table (lockLog s))
    (houtside : ∀ v other, v ≠ u → s.thread v = some other → Outside lockRegion (Approaches space) other)
    (hne : t ≠ u) (ht : s.thread t = some th) (hcode : th.code = some p)
    (hruns : Runs (userSystem space utf8 input memory garbage) s t th p s') : Guarded space Rest Stage s' := by
  cases outside_run (houtside t th hne ht) ht hcode hruns with
  | stays hsame hsettled =>
      have htable : s'.shared.table = s.shared.table := hsame.view
      have hlog : lockLog s' = lockLog s := hsame.log
      have hrunning : holder.code ≠ none := by
        rw [hpoint]
        exact Option.some_ne_none _
      refine .held u holder point ((hsame.value _ rfl).trans hzero) (hsettled.2 u holder hne.symm hu hrunning) hpoint
        (htable ▸ hlog ▸ hstage) ?_
      intro v other hv hother
      rcases hsettled.1 v other hother with ⟨-, hold⟩ | hout
      · exact houtside v other hv hold
      · exact hout
  | acquires call new next hopen => exact absurd hzero hopen

theorem step (hinv : LockInvariant Rest Stage) (h : Guarded space Rest Stage s) (hnull : s.thread 0 = none)
    (hstep : Step (userSystem space utf8 input memory garbage) s s') : Guarded space Rest Stage s' := by
  cases hstep with
  | take t th hhalted hcpu ht hcode => exact h.congr rfl ⟨fun _ _ => rfl, rfl, rfl⟩
  | interrupt i shared released hhalted hcpu hhandler =>
      exact h.congr rfl ((consoleHandler_table hhandler).within lockRegion_within)
  | @run t th p _ hhalted hcpu ht hcode hruns =>
      have ht0 : t ≠ 0 := by
        rintro rfl
        rw [hnull] at ht
        cases ht
      cases h with
      | free hfree hrest houtside => exact run_free hinv hfree hrest houtside ht0 ht hcode hruns
      | held u holder point hzero hu hpoint hstage houtside =>
          by_cases hne : t = u
          · subst hne
            rw [hu] at ht
            cases ht
            rw [hpoint] at hcode
            cases hcode
            exact run_holder hinv hzero hu hpoint hstage houtside hruns
          · exact run_other hzero hu hpoint hstage houtside hne ht hcode hruns

/-- The rule for a part of a run. -/
theorem steps (hinv : LockInvariant Rest Stage) (h : Guarded space Rest Stage s)
    (hs : (userSystem space utf8 input memory garbage).interleaving.Reachable s)
    (hsteps : Relation.ReflTransGen (Step (userSystem space utf8 input memory garbage)) s s') :
    Guarded space Rest Stage s' := by
  induction hsteps with
  | refl => exact h
  | tail hsteps hstep ih => exact ih.step hinv (reachable_null Nat.one_ne_zero (hs.steps hsteps)) hstep

theorem reachable (hinv : LockInvariant Rest Stage) (hrest : Rest (.new garbage) [])
    (h : (userSystem space utf8 input memory garbage).interleaving.Reachable s) : Guarded space Rest Stage s := by
  induction h with
  | init h =>
      have hinit : _ = Interleaving.initial (userSystem space utf8 input memory garbage) := h
      rw [hinit]
      refine .free rfl hrest ?_
      intro u other hu
      simp only [Interleaving.initial, Function.update_apply] at hu
      split at hu
      · cases hu
        exact .of_free rfl trivial
      · cases hu
  | step hs hstep ih => exact ih.step hinv (reachable_null Nat.one_ne_zero hs) hstep

end Guarded

end Nachos

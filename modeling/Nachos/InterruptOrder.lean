import Nachos.InterruptQueue

/-! Every run of the interrupt simulation keeps the queue sorted, fires each scheduled interrupt at
most once, at or after its time, and in the order of the times. The loop that drains the queue ends
because the handlers cannot advance the clock: each turn uses up one due interrupt. -/

namespace Nachos.Interrupt

/-- The queue, the clock and the history of a run fit together. -/
structure WellQueued (s : Interrupt) : Prop where
  sorted : KeySorted s.pending
  keys : ∀ element ∈ s.pending, element.key = element.item.when
  accounted : s.scheduled.Perm (s.pending.map ListElement.item ++ s.fired.map Prod.fst)
  ids : s.scheduled.map PendingInterrupt.id = List.range s.allocated
  firedDue : ∀ shot ∈ s.fired, shot.1.when ≤ shot.2 ∧ shot.2 ≤ s.totalTicks
  firedOrder : s.fired.Pairwise fun earlier later => earlier.1.when ≤ later.1.when
  firedFirst : ∀ shot ∈ s.fired, ∀ element ∈ s.pending, shot.1.when ≤ element.key

/-- Each handler asks only for interrupts in the future. -/
def Forward (handlers : Handlers) : Prop :=
  ∀ toOccur s, ∀ request ∈ (handlers toOccur s).schedules, 0 < request.fromNow

theorem wellQueued_init : WellQueued init where
  sorted := List.Pairwise.nil
  keys := by simp [init]
  accounted := by simp [init]
  ids := by simp [init]
  firedDue := by simp [init]
  firedOrder := List.Pairwise.nil
  firedFirst := by simp [init]

/-- The invariant reads only the queue, the clock and the history, and survives an advance of the
clock. -/
theorem WellQueued.congr {s t : Interrupt} (h : WellQueued s) (hpending : t.pending = s.pending)
    (hticks : s.totalTicks ≤ t.totalTicks) (hallocated : t.allocated = s.allocated)
    (hscheduled : t.scheduled = s.scheduled) (hfired : t.fired = s.fired) : WellQueued t where
  sorted := hpending ▸ h.sorted
  keys := hpending ▸ h.keys
  accounted := by rw [hscheduled, hpending, hfired]; exact h.accounted
  ids := by rw [hscheduled, hallocated]; exact h.ids
  firedDue := by
    rw [hfired]
    exact fun shot hshot => ⟨(h.firedDue shot hshot).1, (h.firedDue shot hshot).2.trans hticks⟩
  firedOrder := hfired ▸ h.firedOrder
  firedFirst := by rw [hfired, hpending]; exact h.firedFirst

/-- Putting the first interrupt back in its place among the others loses nothing. -/
theorem WellQueued.putBack {s : Interrupt} {first : ListElement PendingInterrupt}
    {rest : List (ListElement PendingInterrupt)} (h : WellQueued s)
    (hpending : s.pending = first :: rest) :
    WellQueued { s with pending := sortedInsert first.item first.key rest } := by
  have hperm : (sortedInsert first.item first.key rest).Perm s.pending :=
    hpending ▸ sortedInsert_perm first.item first.key rest
  have hsorted := h.sorted
  rw [hpending] at hsorted
  refine ⟨sortedInsert_keySorted (List.pairwise_cons.mp hsorted).2, ?_, ?_, h.ids, h.firedDue,
    h.firedOrder, ?_⟩
  · exact fun element hmem => h.keys element (hperm.mem_iff.mp hmem)
  · exact h.accounted.trans ((hperm.symm.map _).append_right _)
  · exact fun shot hshot element hmem => h.firedFirst shot hshot element (hperm.mem_iff.mp hmem)

theorem WellQueued.schedule {s t : Interrupt} {request : ScheduleRequest} (h : WellQueued s)
    (hstep : s.schedule request = some t) : WellQueued t := by
  obtain ⟨hpos, rfl⟩ := schedule_eq_some hstep
  refine ⟨sortedInsert_keySorted h.sorted, ?_, ?_, ?_, h.firedDue, h.firedOrder, ?_⟩
  · intro element hmem
    rcases mem_sortedInsert.mp hmem with rfl | hmem
    · rfl
    · exact h.keys element hmem
  · have hinsert := (sortedInsert_perm (⟨s.allocated, request.handler, request.arg,
      s.totalTicks + request.fromNow, request.type⟩ : PendingInterrupt)
      (s.totalTicks + request.fromNow) s.pending).map ListElement.item
    refine (List.perm_append_singleton _ _).trans ?_
    exact (h.accounted.cons _).trans (hinsert.symm.append_right _)
  · rw [List.map_append, h.ids, List.map_singleton, List.range_succ]
  · intro shot hshot element hmem
    rcases mem_sortedInsert.mp hmem with rfl | hmem
    · have hdue := h.firedDue shot hshot
      show shot.1.when ≤ s.totalTicks + request.fromNow
      omega
    · exact h.firedFirst shot hshot element hmem

theorem WellQueued.scheduleAll {requests : List ScheduleRequest} {s t : Interrupt}
    (h : WellQueued s) (hstep : s.scheduleAll requests = some t) : WellQueued t := by
  induction requests generalizing s with
  | nil =>
      cases hstep
      exact h
  | cons request rest ih =>
      obtain ⟨middle, hfirst, hrest⟩ := Option.bind_eq_some_iff.mp hstep
      exact ih (h.schedule hfirst) hrest

/-- Taking the first interrupt off the queue once the clock has reached it, and entering its handler. -/
theorem WellQueued.enter {s now : Interrupt} {first : ListElement PendingInterrupt}
    {rest : List (ListElement PendingInterrupt)} (h : WellQueued s)
    (hpending : s.pending = first :: rest) (hrest : now.pending = rest)
    (hticks : now.totalTicks = max s.totalTicks first.key) (hallocated : now.allocated = s.allocated)
    (hscheduled : now.scheduled = s.scheduled) (hfired : now.fired = s.fired) :
    WellQueued (now.enter first.item) := by
  have hsorted := h.sorted
  have hkeys := h.keys
  have haccounted := h.accounted
  have hfirst := h.firedFirst
  rw [hpending] at hsorted hkeys haccounted hfirst
  obtain ⟨hleast, hsorted⟩ := List.pairwise_cons.mp hsorted
  have hkey : first.key = first.item.when := hkeys first List.mem_cons_self
  refine ⟨hrest ▸ hsorted, ?_, ?_, ?_, ?_, ?_, ?_⟩
  · intro element hmem
    exact hkeys element (List.mem_cons_of_mem _ (hrest ▸ hmem))
  · simp only [Interrupt.enter, hscheduled, hrest, hfired, List.map_append, List.map_cons, List.map_nil]
    refine haccounted.trans ?_
    rw [List.map_cons, List.cons_append, ← List.append_assoc]
    exact (List.perm_append_singleton _ _).symm
  · exact hallocated ▸ hscheduled ▸ h.ids
  · intro shot hshot
    simp only [Interrupt.enter, hfired, List.mem_append, List.mem_singleton] at hshot
    rcases hshot with hshot | rfl
    · exact ⟨(h.firedDue shot hshot).1, (h.firedDue shot hshot).2.trans (hticks ▸ le_max_left _ _)⟩
    · refine ⟨?_, le_refl _⟩
      rw [hticks, ← hkey]
      exact le_max_right _ _
  · simp only [Interrupt.enter, hfired]
    refine List.pairwise_append.mpr ⟨h.firedOrder, List.pairwise_singleton _ _, ?_⟩
    intro shot hshot last hlast
    rw [List.mem_singleton.mp hlast, ← hkey]
    exact hfirst shot hshot first List.mem_cons_self
  · intro shot hshot element hmem
    simp only [Interrupt.enter, hrest, hfired, List.mem_append, List.mem_singleton] at hshot hmem
    rcases hshot with hshot | rfl
    · exact hfirst shot hshot element (List.mem_cons_of_mem _ hmem)
    · exact hkey ▸ hleast element hmem

theorem WellQueued.checkIfDue {handlers : Handlers} {advanceClock result : Bool} {s t : Interrupt}
    (h : WellQueued s) (hstep : s.checkIfDue handlers advanceClock = some (result, t)) :
    WellQueued t := by
  obtain ⟨-, ⟨-, -, rfl⟩ | ⟨first, rest, hpending, -, -, -, rfl⟩ |
    ⟨first, hpending, -, -, -, -, htp, -, -, htt, hta, hts, htf⟩ |
    ⟨first, rest, ticks, hpending, -, -, hinvoke⟩⟩ := checkIfDue_cases hstep
  · exact h
  · exact h.putBack hpending
  · exact h.congr (htp.trans hpending.symm) (htt ▸ le_max_left _ _) hta hts htf
  · obtain ⟨after, hafter, rfl⟩ := Option.map_eq_some_iff.mp hinvoke
    have hinside : WellQueued (({ s with
        pending := rest
        idleTicks := ticks
        totalTicks := max s.totalTicks first.key } : Interrupt).enter first.item) :=
      h.enter hpending rfl rfl rfl rfl rfl
    exact (hinside.scheduleAll hafter).congr rfl (le_refl _) rfl rfl rfl

/-- `n` turns of the loop fire an interrupt each, and the next call of `CheckIfDue` returns `FALSE`. -/
inductive Turns (handlers : Handlers) : Nat → Interrupt → Interrupt → Prop where
  | stop {s t : Interrupt} (h : s.checkIfDue handlers false = some (false, t)) :
      Turns handlers 0 s t
  | fire {n : Nat} {s middle t : Interrupt} (h : s.checkIfDue handlers false = some (true, middle))
      (hrest : Turns handlers n middle t) : Turns handlers (n + 1) s t

theorem Turns.whileCheckIfDue {handlers : Handlers} {n : Nat} {s t : Interrupt}
    (h : Turns handlers n s t) : s.whileCheckIfDue handlers = some t := by
  induction h with
  | stop h => exact whileCheckIfDue_stop h
  | fire h _ ih => exact (whileCheckIfDue_again h).trans ih

theorem turns_of_whileCheckIfDue {handlers : Handlers} {s t : Interrupt}
    (h : s.whileCheckIfDue handlers = some t) : ∃ n, Turns handlers n s t := by
  induction s using Interrupt.whileCheckIfDue.induct handlers with
  | case1 s hcheck =>
      rw [whileCheckIfDue_fault hcheck] at h
      cases h
  | case2 s stop hcheck =>
      rw [whileCheckIfDue_stop hcheck] at h
      cases h
      exact ⟨0, .stop hcheck⟩
  | case3 s next hcheck hfewer ih =>
      rw [whileCheckIfDue_again hcheck] at h
      obtain ⟨n, hturns⟩ := ih h
      exact ⟨n + 1, .fire hcheck hturns⟩

theorem WellQueued.turns {handlers : Handlers} {n : Nat} {s t : Interrupt} (h : WellQueued s)
    (hturns : Turns handlers n s t) : WellQueued t := by
  induction hturns with
  | stop hcheck => exact h.checkIfDue hcheck
  | fire hcheck _ ih => exact ih (h.checkIfDue hcheck)

/-- The queue after the loop: nothing is due, or a lone timer interrupt was put back in idle mode. -/
def Drained (s : Interrupt) : Prop :=
  (∀ element ∈ s.pending, s.totalTicks < element.item.when) ∨
    ∃ timer, s.pending = [timer] ∧ timer.item.type = .timerInt ∧ s.status = .idleMode

theorem checkIfDue_false_drained {handlers : Handlers} {s t : Interrupt} (h : WellQueued s)
    (hcheck : s.checkIfDue handlers false = some (false, t)) : Drained t := by
  obtain ⟨-, ⟨hempty, -, rfl⟩ | ⟨first, rest, hpending, -, hlater, -, rfl⟩ |
    ⟨first, -, -, hidle, htimer, -, htp, hts, -⟩ | ⟨_, _, _, -, -, hr, -⟩⟩ := checkIfDue_cases hcheck
  · exact Or.inl (by simp [hempty])
  · have hsorted := h.sorted
    rw [hpending] at hsorted
    refine Or.inl fun element hmem => ?_
    rw [← (h.putBack hpending).keys element hmem]
    rcases mem_sortedInsert.mp hmem with rfl | hmem
    · exact hlater
    · exact hlater.trans_le ((List.pairwise_cons.mp hsorted).1 element hmem)
  · exact Or.inr ⟨first, htp, htimer, hts.trans hidle⟩
  · cases hr

theorem Turns.drained {handlers : Handlers} {n : Nat} {s t : Interrupt} (h : WellQueued s)
    (hturns : Turns handlers n s t) : Drained t := by
  induction hturns with
  | stop hcheck => exact checkIfDue_false_drained h hcheck
  | fire hcheck _ ih => exact ih (h.checkIfDue hcheck)

section Returns

variable {handlers : Handlers} (hforward : Forward handlers)

theorem scheduleAll_returns {requests : List ScheduleRequest}
    (hpositive : ∀ request ∈ requests, 0 < request.fromNow) (s : Interrupt) :
    ∃ t, s.scheduleAll requests = some t ∧ t.level = s.level := by
  induction requests generalizing s with
  | nil => exact ⟨s, rfl, rfl⟩
  | cons request rest ih =>
      have hrequest := hpositive request List.mem_cons_self
      have hstep : ∃ middle, s.schedule request = some middle ∧ middle.level = s.level := by
        simp only [schedule, hrequest, if_true]
        exact ⟨_, rfl, rfl⟩
      obtain ⟨middle, hmiddle, hlevel⟩ := hstep
      obtain ⟨t, ht, htl⟩ := ih (fun r hr => hpositive r (List.mem_cons_of_mem _ hr)) middle
      exact ⟨t, by rw [scheduleAll, hmiddle]; exact ht, htl.trans hlevel⟩

include hforward

theorem invoke_returns (toOccur : PendingInterrupt) (s : Interrupt) :
    ∃ t, s.invoke handlers toOccur = some t ∧ t.level = s.level := by
  obtain ⟨after, hafter, hlevel⟩ := scheduleAll_returns (hforward toOccur _) (s.enter toOccur)
  exact ⟨_, Option.map_eq_some_iff.mpr ⟨after, hafter, rfl⟩, hlevel⟩

theorem checkIfDue_returns (advanceClock : Bool) {s : Interrupt} (hlevel : s.level = .intOff) :
    ∃ result t, s.checkIfDue handlers advanceClock = some (result, t) ∧ t.level = .intOff := by
  rw [checkIfDue, if_neg (by simp [hlevel])]
  cases hremove : sortedRemove s.pending with
  | none => exact ⟨_, _, rfl, hlevel⟩
  | some removed =>
      obtain ⟨toOccur, when, rest⟩ := removed
      simp only
      split
      · exact ⟨_, _, rfl, hlevel⟩
      · split
        · exact ⟨_, _, rfl, hlevel⟩
        · obtain ⟨after, hafter, hal⟩ := invoke_returns hforward toOccur _
          exact ⟨true, after, Option.map_eq_some_iff.mpr ⟨after, hafter, rfl⟩, hal.trans hlevel⟩

/-- The loop `while (CheckIfDue(FALSE))` ends after at most as many turns as interrupts are due. -/
theorem whileCheckIfDue_terminates {s : Interrupt} (hlevel : s.level = .intOff) :
    ∃ n t, n ≤ s.dueCount ∧ Turns handlers n s t := by
  induction hdue : s.dueCount using Nat.strong_induction_on generalizing s with
  | _ due ih =>
      obtain ⟨result, t, hcheck, htl⟩ := checkIfDue_returns hforward false hlevel
      cases result with
      | false => exact ⟨0, t, Nat.zero_le _, .stop hcheck⟩
      | true =>
          have hfewer := checkIfDue_dueCount hcheck
          obtain ⟨n, last, hn, hturns⟩ := ih t.dueCount (by omega) htl rfl
          exact ⟨n + 1, last, by omega, .fire hcheck hturns⟩

end Returns

theorem WellQueued.whileCheckIfDue {handlers : Handlers} {s t : Interrupt} (h : WellQueued s)
    (hloop : s.whileCheckIfDue handlers = some t) : WellQueued t := by
  obtain ⟨n, hturns⟩ := turns_of_whileCheckIfDue hloop
  exact h.turns hturns

theorem WellQueued.beginTick {s : Interrupt} (h : WellQueued s) : WellQueued s.beginTick := by
  unfold Interrupt.beginTick
  split
  · exact h.congr rfl (Int.le_add_of_nonneg_right (by decide)) rfl rfl rfl
  · exact h.congr rfl (Int.le_add_of_nonneg_right (by decide)) rfl rfl rfl

theorem WellQueued.oneTick {handlers : Handlers} {s t : Interrupt} (h : WellQueued s)
    (hstep : s.oneTick handlers = some t) : WellQueued t := by
  obtain ⟨done, hdone, rfl⟩ := Option.map_eq_some_iff.mp hstep
  have hwell := h.beginTick.whileCheckIfDue hdone
  split <;> exact hwell.congr rfl (le_refl _) rfl rfl rfl

theorem WellQueued.idle {handlers : Handlers} {returned : Bool} {s t : Interrupt} (h : WellQueued s)
    (hstep : s.idle handlers = some (returned, t)) : WellQueued t := by
  obtain ⟨⟨result, after⟩, hcheck, hrest⟩ := Option.bind_eq_some_iff.mp hstep
  have hidle : WellQueued { s with status := .idleMode } := h.congr rfl (le_refl _) rfl rfl rfl
  have hafter := hidle.checkIfDue hcheck
  cases result with
  | false =>
      cases hrest
      exact hafter
  | true =>
      obtain ⟨done, hdone, hpair⟩ := Option.map_eq_some_iff.mp hrest
      cases hpair
      exact (hafter.whileCheckIfDue hdone).congr rfl (le_refl _) rfl rfl rfl

theorem WellQueued.perform {handlers : Handlers} {call : Call} {s t : Interrupt} (h : WellQueued s)
    (hstep : s.perform handlers call = some t) : WellQueued t := by
  cases call with
  | schedule request => exact h.schedule hstep
  | setLevel now =>
      simp only [Interrupt.perform, setLevel] at hstep
      split at hstep
      · cases hstep
      · split at hstep
        · have hon : WellQueued { s with level := now } := h.congr rfl (le_refl _) rfl rfl rfl
          exact hon.oneTick hstep
        · cases hstep
          exact h.congr rfl (le_refl _) rfl rfl rfl
  | oneTick => exact h.oneTick hstep
  | idle =>
      obtain ⟨⟨returned, after⟩, hidle, rfl⟩ := Option.map_eq_some_iff.mp hstep
      exact h.idle hidle
  | setStatus status =>
      cases hstep
      exact h.congr rfl (le_refl _) rfl rfl rfl

/-- The states of the simulation at every moment of every run: between calls, inside `OneTick` and
`Idle` between two turns of the loop, and inside a handler between two of its `Schedule` calls. -/
inductive Moment (handlers : Handlers) : Interrupt → Prop where
  | init : Moment handlers init
  | call {s t : Interrupt} (call : Call) (h : Moment handlers s)
      (hstep : s.perform handlers call = some t) : Moment handlers t
  | tick {s : Interrupt} (h : Moment handlers s) : Moment handlers s.beginTick
  | idle {s : Interrupt} (h : Moment handlers s) : Moment handlers { s with status := .idleMode }
  | turn {s t : Interrupt} (advanceClock result : Bool) (h : Moment handlers s)
      (hstep : s.checkIfDue handlers advanceClock = some (result, t)) : Moment handlers t
  | handler {s : Interrupt} {first : ListElement PendingInterrupt}
      {rest : List (ListElement PendingInterrupt)} (h : Moment handlers s)
      (hpending : s.pending = first :: rest) : Moment handlers (({ s with
        pending := rest
        totalTicks := max s.totalTicks first.key } : Interrupt).enter first.item)

theorem Moment.wellQueued {handlers : Handlers} {s : Interrupt} (h : Moment handlers s) :
    WellQueued s := by
  induction h with
  | init => exact wellQueued_init
  | call call _ hstep ih => exact ih.perform hstep
  | tick _ ih => exact ih.beginTick
  | idle _ ih => exact ih.congr rfl (le_refl _) rfl rfl rfl
  | turn _ _ _ hstep ih => exact ih.checkIfDue hstep
  | handler _ hpending ih => exact ih.enter hpending rfl rfl rfl rfl rfl

/-- Among the interrupts scheduled so far none occurs twice, since their identities are counted up. -/
theorem WellQueued.scheduled_nodup {s : Interrupt} (h : WellQueued s) : s.scheduled.Nodup :=
  List.Nodup.of_map PendingInterrupt.id (h.ids ▸ List.nodup_range)

/-- The call of `Schedule` at the time `now` that has made this interrupt. -/
def requestOf (now : Int) (i : PendingInterrupt) : ScheduleRequest := ⟨i.handler, i.arg, i.when - now, i.type⟩

/-- The first pending interrupt is taken off the list, and its handler runs once, at the time of the clock; what
it schedules is pending afterwards. -/
structure Fires (handlers : Handlers) (first : ListElement PendingInterrupt) (s t : Interrupt) : Prop where
  head : s.pending.head? = some first
  totalTicks : t.totalTicks = max s.totalTicks first.key
  fired : t.fired = s.fired ++ [(first.item, t.totalTicks)]
  level : t.level = s.level
  handler : ∃ entered asked, entered.pending = s.pending.tail ∧ entered.fired = t.fired ∧ entered.inHandler = true ∧
    asked.map (requestOf t.totalTicks) = (handlers first.item entered).schedules ∧
    t.scheduled = s.scheduled ++ asked ∧
    (t.pending.map ListElement.item).Perm (s.pending.tail.map ListElement.item ++ asked)

/-- The state `t` is `done` but for the level, the status and the request for a context switch. -/
structure EndsAs (done t : Interrupt) : Prop where
  pending : t.pending = done.pending
  totalTicks : t.totalTicks = done.totalTicks
  scheduled : t.scheduled = done.scheduled
  fired : t.fired = done.fired
  yieldOnReturn : t.yieldOnReturn = false

/-- The loop `while (CheckIfDue(FALSE))` ends: as often as an interrupt is due one is fired, and then none is due. -/
structure LoopEnds (handlers : Handlers) (s done : Interrupt) : Prop where
  turns : ∃ n ≤ s.dueCount, Turns handlers n s done ∧ done.fired.length = s.fired.length + n
  loop : s.whileCheckIfDue handlers = some done
  totalTicks : done.totalTicks = s.totalTicks
  drained : Drained done

/-- `OneTick` advances the clock, drains the queue and turns interrupts on again. -/
def OneTickDrains (handlers : Handlers) (s : Interrupt) : Prop :=
  ∃ started done t, started.pending = s.pending ∧ started.fired = s.fired ∧ started.scheduled = s.scheduled ∧
    started.level = .intOff ∧ started.totalTicks = s.totalTicks + (if s.status = .systemMode then 10 else 1) ∧
    LoopEnds handlers started done ∧ s.oneTick handlers = some t ∧ EndsAs done t ∧ t.level = .intOn

/-- `Idle` stops with the queue as it is, which holds a lone timer interrupt at most, or it advances the clock to the
first interrupt, fires it and drains the queue. -/
def IdleDrains (handlers : Handlers) (s : Interrupt) : Prop :=
  (∃ t, s.idle handlers = some (false, t) ∧ t.pending = s.pending ∧ t.fired = s.fired ∧
    ∀ element ∈ s.pending, s.pending = [element] ∧ element.item.type = .timerInt) ∨
  ∃ first after done t, Fires handlers first { s with status := .idleMode } after ∧ LoopEnds handlers after done ∧
    s.idle handlers = some (true, t) ∧ EndsAs done t ∧ t.status = .systemMode

theorem scheduleAll_asked {requests : List ScheduleRequest} {s t : Interrupt} (h : s.scheduleAll requests = some t) :
    t.fired = s.fired ∧ t.level = s.level ∧ ∃ asked, asked.map (requestOf s.totalTicks) = requests ∧
      t.scheduled = s.scheduled ++ asked ∧
      (t.pending.map ListElement.item).Perm (s.pending.map ListElement.item ++ asked) := by
  induction requests generalizing s with
  | nil =>
      cases h
      exact ⟨rfl, rfl, [], rfl, (List.append_nil _).symm, by rw [List.append_nil]⟩
  | cons request rest ih =>
      obtain ⟨middle, hfirst, hrest⟩ := Option.bind_eq_some_iff.mp h
      obtain ⟨hfired, hlevel, asked, hasked, hscheduled, hpending⟩ := ih hrest
      obtain ⟨-, rfl⟩ := schedule_eq_some hfirst
      refine ⟨hfired, hlevel, _ :: asked, ?_, hscheduled.trans (List.append_assoc ..), ?_⟩
      · rw [List.map_cons]
        refine congrArg₂ List.cons ?_ hasked
        have hfromNow : s.totalTicks + request.fromNow - s.totalTicks = request.fromNow := by omega
        simp only [requestOf, hfromNow]
      · refine hpending.trans ?_
        refine (((sortedInsert_perm _ _ _).map _).append_right _).trans ?_
        exact List.perm_middle.symm

theorem fires_of_invoke {handlers : Handlers} {s now t : Interrupt} {first : ListElement PendingInterrupt}
    {rest : List (ListElement PendingInterrupt)} (hpending : s.pending = first :: rest) (hrest : now.pending = rest)
    (hticks : now.totalTicks = max s.totalTicks first.key) (hscheduled : now.scheduled = s.scheduled)
    (hfired : now.fired = s.fired) (hlevel : now.level = s.level)
    (hinvoke : now.invoke handlers first.item = some t) : Fires handlers first s t := by
  obtain ⟨after, hafter, rfl⟩ := Option.map_eq_some_iff.mp hinvoke
  obtain ⟨hafired, halevel, asked, hasked, hascheduled, hapending⟩ := scheduleAll_asked hafter
  have haticks : after.totalTicks = now.totalTicks := (scheduleAll_clock hafter).1
  have htail : s.pending.tail = rest := by rw [hpending, List.tail_cons]
  refine ⟨by rw [hpending, List.head?_cons], haticks.trans hticks, ?_, halevel.trans hlevel, now.enter first.item,
    asked, hrest.trans htail.symm, hafired.symm, rfl, ?_, ?_, ?_⟩
  · change after.fired = s.fired ++ [(first.item, after.totalTicks)]
    rw [hafired, haticks, ← hfired]
    rfl
  · change asked.map (requestOf after.totalTicks) = _
    rw [haticks]
    exact hasked
  · change after.scheduled = _
    rw [hascheduled, ← hscheduled]
    rfl
  · rw [htail, ← hrest]
    exact hapending

/-- `CheckIfDue` returns `TRUE` when it has fired the first interrupt. -/
theorem fires_of_checkIfDue {handlers : Handlers} {advanceClock : Bool} {s t : Interrupt}
    (h : s.checkIfDue handlers advanceClock = some (true, t)) :
    ∃ first, Fires handlers first s t ∧ (advanceClock = true ∨ first.key ≤ s.totalTicks) := by
  obtain ⟨-, ⟨-, hr, -⟩ | ⟨_, _, -, -, -, hr, -⟩ | ⟨_, -, -, -, -, hr, -⟩ |
    ⟨first, rest, idleTicks, hpending, hdue, -, hinvoke⟩⟩ := checkIfDue_cases h
  · cases hr
  · cases hr
  · cases hr
  · refine ⟨first, ?_, hdue⟩
    refine fires_of_invoke hpending ?_ ?_ ?_ ?_ ?_ hinvoke
    all_goals rfl

theorem Turns.clock {handlers : Handlers} {n : Nat} {s t : Interrupt} (hturns : Turns handlers n s t) :
    t.totalTicks = s.totalTicks ∧ t.fired.length = s.fired.length + n := by
  induction hturns with
  | @stop s t hcheck =>
      obtain ⟨-, ⟨-, -, rfl⟩ | ⟨first, rest, -, -, -, -, rfl⟩ |
        ⟨first, -, hdue, -, -, -, -, -, -, hticks, -, -, hfired⟩ | ⟨_, _, _, -, -, hr, -⟩⟩ := checkIfDue_cases hcheck
      · exact ⟨rfl, rfl⟩
      · exact ⟨rfl, rfl⟩
      · rw [hticks, hfired, max_eq_left (hdue.resolve_left Bool.false_ne_true)]
        exact ⟨rfl, rfl⟩
      · cases hr
  | @fire n s middle t hcheck _ ih =>
      obtain ⟨first, hfires, hdue⟩ := fires_of_checkIfDue hcheck
      have hkey : first.key ≤ s.totalTicks := hdue.resolve_left Bool.false_ne_true
      refine ⟨ih.1.trans (hfires.totalTicks.trans (max_eq_left hkey)), ?_⟩
      rw [ih.2, hfires.fired, List.length_append, List.length_singleton, Nat.add_assoc, Nat.add_comm 1]

theorem WellQueued.loopEnds {handlers : Handlers} (hforward : Forward handlers) {s : Interrupt} (h : WellQueued s)
    (hlevel : s.level = .intOff) : ∃ done, LoopEnds handlers s done := by
  obtain ⟨n, done, hn, hturns⟩ := whileCheckIfDue_terminates hforward hlevel
  exact ⟨done, ⟨n, hn, hturns, hturns.clock.2⟩, hturns.whileCheckIfDue, hturns.clock.1, hturns.drained h⟩

theorem WellQueued.oneTick_drains {handlers : Handlers} (hforward : Forward handlers) {s : Interrupt}
    (h : WellQueued s) : OneTickDrains handlers s := by
  have hbegin : s.beginTick.pending = s.pending ∧ s.beginTick.fired = s.fired ∧
      s.beginTick.scheduled = s.scheduled ∧ s.beginTick.level = .intOff ∧
      s.beginTick.totalTicks = s.totalTicks + (if s.status = .systemMode then 10 else 1) := by
    unfold Interrupt.beginTick
    split
    · exact ⟨rfl, rfl, rfl, rfl, rfl⟩
    · exact ⟨rfl, rfl, rfl, rfl, rfl⟩
  obtain ⟨hpending, hfired, hscheduled, hlevel, hticks⟩ := hbegin
  obtain ⟨done, hends⟩ := h.beginTick.loopEnds hforward hlevel
  refine ⟨s.beginTick, done, _, hpending, hfired, hscheduled, hlevel, hticks, hends,
    Option.map_eq_some_iff.mpr ⟨done, hends.loop, rfl⟩, ?_⟩
  split
  · exact ⟨⟨rfl, rfl, rfl, rfl, rfl⟩, rfl⟩
  · next hyield => exact ⟨⟨rfl, rfl, rfl, rfl, Bool.not_eq_true _ ▸ hyield⟩, rfl⟩

theorem WellQueued.idle_drains {handlers : Handlers} (hforward : Forward handlers) {s : Interrupt} (h : WellQueued s)
    (hlevel : s.level = .intOff) : IdleDrains handlers s := by
  have hidle : WellQueued { s with status := .idleMode } := h.congr rfl (le_refl _) rfl rfl rfl
  obtain ⟨result, after, hcheck, hafter⟩ := checkIfDue_returns hforward true
    (s := { s with status := .idleMode }) hlevel
  cases result with
  | false =>
      refine .inl ⟨after, by unfold Interrupt.idle; rw [hcheck]; rfl, ?_⟩
      obtain ⟨-, ⟨hempty, -, rfl⟩ | ⟨_, _, -, hadvance, -⟩ |
        ⟨first, hpending, -, -, htimer, -, hpending', -, -, -, -, -, hfired⟩ | ⟨_, _, _, -, -, hr, -⟩⟩ :=
        checkIfDue_cases hcheck
      · have hnone : s.pending = [] := hempty
        exact ⟨rfl, rfl, by simp [hnone]⟩
      · cases hadvance
      · have hone : s.pending = [first] := hpending
        refine ⟨hpending'.trans hone.symm, hfired, ?_⟩
        intro element hmem
        rw [hone, List.mem_singleton] at hmem
        subst hmem
        exact ⟨hone, htimer⟩
      · cases hr
  | true =>
      obtain ⟨done, hends⟩ := (hidle.checkIfDue hcheck).loopEnds hforward hafter
      obtain ⟨first, hfires, -⟩ := fires_of_checkIfDue hcheck
      refine .inr ⟨first, after, done, { done with yieldOnReturn := false, status := .systemMode }, hfires, hends, ?_,
        ⟨rfl, rfl, rfl, rfl, rfl⟩, rfl⟩
      unfold Interrupt.idle
      rw [hcheck]
      exact Option.map_eq_some_iff.mpr ⟨done, hends.loop, rfl⟩

/-- The pending list is sorted by time at every moment of every run; each scheduled interrupt is
pending exactly once or has fired exactly once, not before its time and in the order of the times;
`CheckIfDue` fires an interrupt when it returns `TRUE`; and the loop that drains the queue, in `OneTick` and in
`Idle`, ends with nothing due. -/
theorem interrupts_fire_once_in_order {handlers : Handlers} (hforward : Forward handlers)
    {s : Interrupt} (h : Moment handlers s) :
    KeySorted s.pending ∧
    (∀ interrupt ∈ s.scheduled,
      ((s.pending.map ListElement.item).count interrupt = 1 ∧
        (s.fired.map Prod.fst).count interrupt = 0) ∨
      ((s.pending.map ListElement.item).count interrupt = 0 ∧
        (s.fired.map Prod.fst).count interrupt = 1)) ∧
    (∀ shot ∈ s.fired, shot.1.when ≤ shot.2) ∧
    (s.fired.Pairwise fun earlier later => earlier.1.when ≤ later.1.when) ∧
    (∀ advanceClock t, s.checkIfDue handlers advanceClock = some (true, t) → ∃ first, Fires handlers first s t ∧
      (advanceClock = true ∨ first.key ≤ s.totalTicks)) ∧
    (s.level = .intOff → ∃ done, LoopEnds handlers s done) ∧
    OneTickDrains handlers s ∧ (s.level = .intOff → IdleDrains handlers s) := by
  have hwell := h.wellQueued
  refine ⟨hwell.sorted, ?_, fun shot hshot => (hwell.firedDue shot hshot).1, hwell.firedOrder, ?_,
    hwell.loopEnds hforward, hwell.oneTick_drains hforward, hwell.idle_drains hforward⟩
  · intro interrupt hmem
    have hone : s.scheduled.count interrupt = 1 := List.count_eq_one_of_mem hwell.scheduled_nodup hmem
    rw [hwell.accounted.count_eq, List.count_append] at hone
    omega
  · intro advanceClock t hcheck
    exact fires_of_checkIfDue hcheck

/-- A device whose handler asks for its next interrupt each time, as the timer does. -/
def periodicDisk : Handlers := fun _ _ => ⟨[⟨0, 0, 500, .diskInt⟩], false⟩

/-- An interrupt for time 5, and a tick of ten in system mode: the handler runs at 10 and asks for the next interrupt. -/
theorem interrupts_fire_once_in_order_periodicDisk :
    ∃ s started done t, Moment periodicDisk s ∧ s.fired = [] ∧ s.oneTick periodicDisk = some t ∧
      t.fired = [(⟨0, 0, 0, 5, .diskInt⟩, 10)] ∧ t.pending.map ListElement.key = [510] ∧
      LoopEnds periodicDisk started done ∧ EndsAs done t := by
  have hforward : Forward periodicDisk := by
    intro toOccur s request hrequest
    rw [List.mem_singleton.mp hrequest]
    decide
  have hstart : Moment periodicDisk init := .init
  have hmoment := hstart.call (.schedule ⟨0, 0, 5, .diskInt⟩) rfl
  obtain ⟨-, -, -, -, -, -, ⟨started, done, t, -, -, -, -, -, hends, htick, hsame, -⟩, -⟩ :=
    interrupts_fire_once_in_order hforward hmoment
  refine ⟨_, started, done, t, hmoment, rfl, htick, ?_⟩
  have hturns : Turns periodicDisk 1 (beginTick ((init.schedule ⟨0, 0, 5, .diskInt⟩).get rfl)) _ :=
    .fire rfl (.stop rfl)
  obtain rfl := Option.some.inj (htick.symm.trans (Option.map_eq_some_iff.mpr ⟨_, hturns.whileCheckIfDue, rfl⟩))
  exact ⟨rfl, rfl, hends, hsame⟩

end Nachos.Interrupt

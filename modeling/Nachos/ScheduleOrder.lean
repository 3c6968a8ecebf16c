import Nachos.InterruptOrder

/-! The order of the interrupts that are due at the same time. A new interrupt goes behind the others of its
time, but `CheckIfDue` takes the first interrupt off the queue before it knows whether it is due, and puts one
that is not due back behind the others of its time. -/

namespace Nachos.Interrupt

/-- The interrupt that a call of `CheckIfDue` puts back shares its time with no other one. -/
def Unshared (s : Interrupt) : Prop :=
  ∀ first rest, s.pending = first :: rest → s.totalTicks < first.key → ∀ e ∈ rest, e.key = first.key → e = first

/-- Removal and insertion give the same list exactly when no other element has the key of the first one. -/
theorem sortedInsert_first_iff {α : Type} {first : ListElement α} {rest : List (ListElement α)}
    (hsorted : KeySorted (first :: rest)) :
    sortedInsert first.item first.key rest = first :: rest ↔ ∀ e ∈ rest, e.key = first.key → e = first := by
  induction rest with
  | nil => simp [sortedInsert]
  | cons next rest ih =>
      obtain ⟨hfirst, hrest⟩ := List.pairwise_cons.mp hsorted
      obtain ⟨hnext, hmore⟩ := List.pairwise_cons.mp hrest
      have hsorted' : KeySorted (first :: rest) :=
        List.pairwise_cons.mpr ⟨fun e he => hfirst e (List.mem_cons_of_mem next he), hmore⟩
      rw [sortedInsert]
      split
      · next hlt =>
        constructor
        · intro _ e hmem hkey
          rcases List.mem_cons.mp hmem with rfl | hmem
          · omega
          · have hle := hnext e hmem
            omega
        · intro _
          rfl
      · next hge =>
        have hkey : next.key = first.key := le_antisymm (not_lt.mp hge) (hfirst next List.mem_cons_self)
        constructor
        · intro heq e hmem hkey'
          obtain ⟨rfl, htail⟩ := List.cons.inj heq
          rcases List.mem_cons.mp hmem with rfl | hmem
          · rfl
          · exact (ih hsorted').mp htail e hmem hkey'
        · intro hsame
          obtain rfl : next = first := hsame next List.mem_cons_self hkey
          rw [(ih hsorted').mpr fun e he => hsame e (List.mem_cons_of_mem next he)]

/-- A call `CheckIfDue(FALSE)` that returns `FALSE` leaves the queue as it was exactly when the interrupt it puts
back shares its time with no other one. -/
theorem checkIfDue_pending_iff {handlers : Handlers} {s t : Interrupt} (hsorted : KeySorted s.pending)
    (h : s.checkIfDue handlers false = some (false, t)) : t.pending = s.pending ↔ s.Unshared := by
  unfold Unshared
  obtain ⟨-, ⟨hempty, -, rfl⟩ | ⟨first, rest, hpending, -, hlater, -, rfl⟩ |
    ⟨first, hpending, hdue, -, -, -, htp, -⟩ | ⟨_, _, _, -, -, hr, -⟩⟩ := checkIfDue_cases h
  · simp [hempty]
  · rw [hpending] at hsorted
    simp only [hpending, List.cons.injEq]
    rw [sortedInsert_first_iff hsorted]
    constructor
    · rintro hsame _ _ ⟨rfl, rfl⟩ _
      exact hsame
    · intro hsame
      exact hsame first rest ⟨rfl, rfl⟩ hlater
  · have hkey : first.key ≤ s.totalTicks := hdue.resolve_left Bool.false_ne_true
    simp only [htp, hpending, true_iff, List.cons.injEq]
    rintro _ _ ⟨rfl, rfl⟩ hlater
    omega
  · cases hr

/-- The interrupts of each time fire in the order in which they were scheduled: those that have fired, and then
those that are pending. -/
def InScheduleOrder (s : Interrupt) : Prop :=
  ∀ time : Int, (s.fired.map Prod.fst ++ s.pending.map ListElement.item).filter (fun i => i.when = time) =
    s.scheduled.filter fun i => i.when = time

/-- The new element comes last among those with its key. -/
theorem filter_sortedInsert {α : Type} {item : α} {sortKey key : Int} {elements : List (ListElement α)}
    (hsorted : KeySorted elements) :
    (sortedInsert item sortKey elements).filter (fun e => e.key = key) =
      elements.filter (fun e => e.key = key) ++ if sortKey = key then [⟨sortKey, item⟩] else [] := by
  induction elements with
  | nil =>
      rw [sortedInsert]
      by_cases hkey : sortKey = key <;> simp [hkey]
  | cons first rest ih =>
      obtain ⟨hfirst, hrest⟩ := List.pairwise_cons.mp hsorted
      rw [sortedInsert]
      split
      · next hlt =>
        by_cases hkey : sortKey = key
        · have hnone : (first :: rest).filter (fun e => e.key = key) = [] := by
            rw [List.filter_eq_nil_iff]
            intro e hmem
            rcases List.mem_cons.mp hmem with rfl | hmem
            · simp only [decide_eq_true_eq]
              omega
            · have hle := hfirst e hmem
              simp only [decide_eq_true_eq]
              omega
          rw [List.filter_cons_of_pos (by simp [hkey]), hnone, if_pos hkey, List.nil_append]
        · rw [List.filter_cons_of_neg (by simp [hkey]), if_neg hkey, List.append_nil]
      · by_cases hkey : first.key = key
        · rw [List.filter_cons_of_pos (by simp [hkey]), List.filter_cons_of_pos (by simp [hkey]), ih hrest,
            List.cons_append]
        · rw [List.filter_cons_of_neg (by simp [hkey]), List.filter_cons_of_neg (by simp [hkey]), ih hrest]

namespace InScheduleOrder

variable {handlers : Handlers} {s t : Interrupt}

theorem congr (h : InScheduleOrder s) (hpending : t.pending = s.pending) (hscheduled : t.scheduled = s.scheduled)
    (hfired : t.fired = s.fired) : InScheduleOrder t := by
  intro time
  rw [hpending, hscheduled, hfired]
  exact h time

/-- The pending interrupts of a time, by their keys. -/
theorem filter_items {elements : List (ListElement PendingInterrupt)}
    (hkeys : ∀ e ∈ elements, e.key = e.item.when) (time : Int) :
    (elements.map ListElement.item).filter (fun i => i.when = time) =
      (elements.filter fun e => e.key = time).map ListElement.item := by
  rw [List.filter_map]
  congr 1
  apply List.filter_congr
  intro e hmem
  simp [hkeys e hmem]

theorem schedule {request : ScheduleRequest} (h : InScheduleOrder s) (hwell : WellQueued s)
    (hstep : s.schedule request = some t) : InScheduleOrder t := by
  have hkeys := (hwell.schedule hstep).keys
  obtain ⟨-, rfl⟩ := schedule_eq_some hstep
  intro time
  have hold := h time
  rw [List.filter_append, filter_items hwell.keys] at hold
  rw [List.filter_append, filter_items hkeys, filter_sortedInsert hwell.sorted, List.map_append,
    ← List.append_assoc, hold, List.filter_append]
  congr 1
  by_cases htime : s.totalTicks + request.fromNow = time <;> simp [htime]

theorem scheduleAll {requests : List ScheduleRequest} (h : InScheduleOrder s) (hwell : WellQueued s)
    (hstep : s.scheduleAll requests = some t) : InScheduleOrder t := by
  induction requests generalizing s with
  | nil =>
      cases hstep
      exact h
  | cons request rest ih =>
      obtain ⟨middle, hfirst, hrest⟩ := Option.bind_eq_some_iff.mp hstep
      exact ih (h.schedule hwell hfirst) (hwell.schedule hfirst) hrest

/-- The first pending interrupt becomes the last one that fired. -/
theorem enter {now : Interrupt} {first : ListElement PendingInterrupt}
    {rest : List (ListElement PendingInterrupt)} (h : InScheduleOrder s) (hpending : s.pending = first :: rest)
    (hrest : now.pending = rest) (hscheduled : now.scheduled = s.scheduled) (hfired : now.fired = s.fired) :
    InScheduleOrder (now.enter first.item) := by
  intro time
  have hold := h time
  rw [hpending] at hold
  simp only [Interrupt.enter, hrest, hscheduled, hfired, List.map_append, List.map_cons, List.map_nil,
    List.append_assoc, List.cons_append, List.nil_append]
  exact hold

theorem checkIfDue {advanceClock result : Bool} (h : InScheduleOrder s) (hwell : WellQueued s)
    (hunshared : advanceClock = false → s.Unshared)
    (hstep : s.checkIfDue handlers advanceClock = some (result, t)) : InScheduleOrder t := by
  obtain ⟨-, ⟨-, -, rfl⟩ | ⟨first, rest, hpending, hstay, hlater, hresult, rfl⟩ |
    ⟨first, hpending, -, -, -, -, htp, -, -, -, -, hts, htf⟩ |
    ⟨first, rest, ticks, hpending, -, -, hinvoke⟩⟩ := checkIfDue_cases hstep
  · exact h
  · subst hstay hresult
    exact h.congr ((checkIfDue_pending_iff hwell.sorted hstep).mpr (hunshared rfl)) rfl rfl
  · exact h.congr (htp.trans hpending.symm) hts htf
  · obtain ⟨after, hafter, rfl⟩ := Option.map_eq_some_iff.mp hinvoke
    have hinside : WellQueued (({ s with
        pending := rest
        idleTicks := ticks
        totalTicks := max s.totalTicks first.key } : Interrupt).enter first.item) :=
      hwell.enter hpending rfl rfl rfl rfl rfl
    have horder : InScheduleOrder (({ s with
        pending := rest
        idleTicks := ticks
        totalTicks := max s.totalTicks first.key } : Interrupt).enter first.item) :=
      h.enter hpending rfl rfl rfl
    exact (horder.scheduleAll hinside hafter).congr rfl rfl rfl

end InScheduleOrder

/-- The loop `while (CheckIfDue(FALSE))` from `s` comes to a call in the state `u`. -/
inductive LoopChecks (handlers : Handlers) : Interrupt → Interrupt → Prop where
  | here (s : Interrupt) : LoopChecks handlers s s
  | next {s middle u : Interrupt} (h : s.checkIfDue handlers false = some (true, middle))
      (hrest : LoopChecks handlers middle u) : LoopChecks handlers s u

/-- The call makes a call `CheckIfDue(FALSE)` in the state `u`. -/
def Checks (handlers : Handlers) : Call → Interrupt → Interrupt → Prop
  | .oneTick, s, u => LoopChecks handlers s.beginTick u
  | .setLevel now, s, u =>
      now = .intOn ∧ s.level = .intOff ∧ LoopChecks handlers ({ s with level := now } : Interrupt).beginTick u
  | .idle, s, u => ∃ after, ({ s with status := .idleMode } : Interrupt).checkIfDue handlers true = some (true, after) ∧
      LoopChecks handlers after u
  | .schedule _, _, _ => False
  | .setStatus _, _, _ => False

/-- The moments of the runs in which every interrupt that is put back has its time for itself. -/
inductive UnsharedMoment (handlers : Handlers) : Interrupt → Prop where
  | init : UnsharedMoment handlers init
  | call {s t : Interrupt} (call : Call) (h : UnsharedMoment handlers s)
      (hunshared : ∀ u, Checks handlers call s u → u.Unshared) (hstep : s.perform handlers call = some t) :
      UnsharedMoment handlers t
  | tick {s : Interrupt} (h : UnsharedMoment handlers s) : UnsharedMoment handlers s.beginTick
  | idle {s : Interrupt} (h : UnsharedMoment handlers s) : UnsharedMoment handlers { s with status := .idleMode }
  | turn {s t : Interrupt} (advanceClock result : Bool) (h : UnsharedMoment handlers s)
      (hunshared : advanceClock = false → s.Unshared)
      (hstep : s.checkIfDue handlers advanceClock = some (result, t)) : UnsharedMoment handlers t
  | handler {s : Interrupt} {first : ListElement PendingInterrupt}
      {rest : List (ListElement PendingInterrupt)} (h : UnsharedMoment handlers s)
      (hpending : s.pending = first :: rest) : UnsharedMoment handlers (({ s with
        pending := rest
        totalTicks := max s.totalTicks first.key } : Interrupt).enter first.item)

theorem UnsharedMoment.moment {handlers : Handlers} {s : Interrupt} (h : UnsharedMoment handlers s) :
    Moment handlers s := by
  induction h with
  | init => exact .init
  | call call _ _ hstep ih => exact ih.call call hstep
  | tick _ ih => exact ih.tick
  | idle _ ih => exact ih.idle
  | turn advanceClock result _ _ hstep ih => exact ih.turn advanceClock result hstep
  | handler _ hpending ih => exact ih.handler hpending

namespace InScheduleOrder

variable {handlers : Handlers} {s t : Interrupt}

theorem whileCheckIfDue (h : InScheduleOrder s) (hwell : WellQueued s)
    (hunshared : ∀ u, LoopChecks handlers s u → u.Unshared) (hloop : s.whileCheckIfDue handlers = some t) :
    InScheduleOrder t := by
  obtain ⟨n, hturns⟩ := turns_of_whileCheckIfDue hloop
  clear hloop
  induction hturns with
  | @stop s t hcheck => exact h.checkIfDue hwell (fun _ => hunshared s (.here s)) hcheck
  | @fire n s middle t hcheck _ ih =>
      refine ih (h.checkIfDue hwell (fun _ => hunshared s (.here s)) hcheck) (hwell.checkIfDue hcheck) ?_
      intro u hu
      exact hunshared u (.next hcheck hu)

theorem beginTick (h : InScheduleOrder s) : InScheduleOrder s.beginTick := by
  unfold Interrupt.beginTick
  split <;> exact h.congr rfl rfl rfl

theorem oneTick (h : InScheduleOrder s) (hwell : WellQueued s)
    (hunshared : ∀ u, LoopChecks handlers s.beginTick u → u.Unshared) (hstep : s.oneTick handlers = some t) :
    InScheduleOrder t := by
  obtain ⟨done, hdone, rfl⟩ := Option.map_eq_some_iff.mp hstep
  have horder := h.beginTick.whileCheckIfDue hwell.beginTick hunshared hdone
  split <;> exact horder.congr rfl rfl rfl

theorem idle {returned : Bool} (h : InScheduleOrder s) (hwell : WellQueued s)
    (hunshared : ∀ u, Checks handlers .idle s u → u.Unshared) (hstep : s.idle handlers = some (returned, t)) :
    InScheduleOrder t := by
  obtain ⟨⟨result, after⟩, hcheck, hrest⟩ := Option.bind_eq_some_iff.mp hstep
  have hwellIdle : WellQueued { s with status := .idleMode } := hwell.congr rfl (le_refl _) rfl rfl rfl
  have hidle : InScheduleOrder { s with status := .idleMode } := h.congr rfl rfl rfl
  have hafter := hidle.checkIfDue hwellIdle (by simp) hcheck
  cases result with
  | false =>
      cases hrest
      exact hafter
  | true =>
      obtain ⟨done, hdone, hpair⟩ := Option.map_eq_some_iff.mp hrest
      cases hpair
      have hloop := hafter.whileCheckIfDue (hwellIdle.checkIfDue hcheck)
        (fun u hu => hunshared u ⟨after, hcheck, hu⟩) hdone
      exact hloop.congr rfl rfl rfl

theorem perform {call : Call} (h : InScheduleOrder s) (hwell : WellQueued s)
    (hunshared : ∀ u, Checks handlers call s u → u.Unshared) (hstep : s.perform handlers call = some t) :
    InScheduleOrder t := by
  cases call with
  | schedule request => exact h.schedule hwell hstep
  | setLevel now =>
      simp only [Interrupt.perform, setLevel] at hstep
      split at hstep
      · cases hstep
      · split at hstep
        · next hon =>
          have hlevel : InScheduleOrder { s with level := now } := h.congr rfl rfl rfl
          have hwellOn : WellQueued { s with level := now } := hwell.congr rfl (le_refl _) rfl rfl rfl
          exact hlevel.oneTick hwellOn (fun u hu => hunshared u ⟨hon.1, hon.2, hu⟩) hstep
        · cases hstep
          exact h.congr rfl rfl rfl
  | oneTick => exact h.oneTick hwell hunshared hstep
  | idle =>
      obtain ⟨⟨returned, after⟩, hidle, rfl⟩ := Option.map_eq_some_iff.mp hstep
      exact h.idle hwell hunshared hidle
  | setStatus status =>
      cases hstep
      exact h.congr rfl rfl rfl

end InScheduleOrder

theorem UnsharedMoment.inScheduleOrder {handlers : Handlers} {s : Interrupt} (h : UnsharedMoment handlers s) :
    InScheduleOrder s := by
  induction h with
  | init => exact fun _ => rfl
  | call call hmoment hunshared hstep ih => exact ih.perform hmoment.moment.wellQueued hunshared hstep
  | tick _ ih => exact ih.beginTick
  | idle _ ih => exact ih.congr rfl rfl rfl
  | turn advanceClock result hmoment hunshared hstep ih =>
      exact ih.checkIfDue hmoment.moment.wellQueued hunshared hstep
  | handler _ hpending ih => exact ih.enter hpending rfl rfl rfl

/-- A call `CheckIfDue(FALSE)` that returns `FALSE` leaves the sorted queue as it was exactly when no other interrupt
has the time of the one it puts back; and in the runs in which that is so for every such call the interrupts of each
time fire in the order in which they were scheduled. -/
theorem put_back_in_order (handlers : Handlers) :
    (∀ s t : Interrupt, KeySorted s.pending → s.checkIfDue handlers false = some (false, t) →
      (t.pending = s.pending ↔ s.Unshared)) ∧
    ∀ s, UnsharedMoment handlers s → InScheduleOrder s :=
  ⟨fun _ _ hsorted hcheck => checkIfDue_pending_iff hsorted hcheck, fun _ h => h.inScheduleOrder⟩

/-- A handler that does nothing further. -/
def quiet : Handlers := fun _ _ => ⟨[], false⟩

/-- Two interrupts at different times: one tick too early, and then the first of them fires. -/
theorem put_back_in_order_quiet :
    ∃ s, UnsharedMoment quiet s ∧ s.fired.length = 1 ∧ s.pending.length = 1 ∧ InScheduleOrder s := by
  have hfirst : UnsharedMoment quiet _ :=
    UnsharedMoment.init.call (.schedule ⟨0, 0, 20, .diskInt⟩) (by simp [Checks]) rfl
  have hsecond := hfirst.call (.schedule ⟨0, 0, 30, .networkSendInt⟩) (by simp [Checks]) rfl
  have hearly := hsecond.tick.turn false false (by simp [Unshared, beginTick, init, sortedInsert, systemTick]) rfl
  have hdue := hearly.tick.turn false true
    (by simp [Unshared, beginTick, init, sortedInsert, systemTick]) rfl
  exact ⟨_, hdue, rfl, rfl, (put_back_in_order quiet).2 _ hdue⟩

/-- The queue after two interrupts are scheduled for the same time. -/
def twoScheduled : Interrupt :=
  { init with
    pending := [⟨20, ⟨0, 0, 0, 20, .diskInt⟩⟩, ⟨20, ⟨1, 0, 0, 20, .networkSendInt⟩⟩]
    allocated := 2
    scheduled := [⟨0, 0, 0, 20, .diskInt⟩, ⟨1, 0, 0, 20, .networkSendInt⟩] }

/-- One tick before their time exchanges the two, and the second one fires first. -/
theorem put_back_exchanges :
    KeySorted twoScheduled.pending ∧
    (∃ t, twoScheduled.checkIfDue quiet false = some (false, t) ∧
      t.pending = twoScheduled.pending.reverse ∧ t.pending ≠ twoScheduled.pending) ∧
    ∃ s, Moment quiet s ∧ s.scheduled = twoScheduled.scheduled ∧
      s.fired = [(⟨1, 0, 0, 20, .networkSendInt⟩, 20), (⟨0, 0, 0, 20, .diskInt⟩, 20)] := by
  have hfirst : Moment quiet _ := Moment.init.call (.schedule ⟨0, 0, 20, .diskInt⟩) rfl
  have hsecond : Moment quiet twoScheduled := hfirst.call (.schedule ⟨0, 0, 20, .networkSendInt⟩) rfl
  have hearly := hsecond.call .oneTick (Option.map_eq_some_iff.mpr ⟨_, whileCheckIfDue_stop rfl, rfl⟩)
  have hdue := hearly.call .oneTick (Option.map_eq_some_iff.mpr
    ⟨_, (whileCheckIfDue_again rfl).trans ((whileCheckIfDue_again rfl).trans (whileCheckIfDue_stop rfl)), rfl⟩)
  refine ⟨hsecond.wellQueued.sorted, ⟨_, rfl, rfl, ?_⟩, _, hdue, rfl, rfl⟩
  simp [twoScheduled, sortedInsert]

end Nachos.Interrupt

import Nachos.LinkedList

/-! The interrupt simulation of `machine/interrupt.cc`: the queue of pending interrupts, the clock
and the calls that make them advance. What a device handler does besides scheduling further
interrupts and asking for a context switch does not reach this state, so a handler is given by these
two effects, which may depend on everything that has happened so far. -/

namespace Nachos

inductive IntStatus where
  | intOff
  | intOn
  deriving DecidableEq

inductive MachineStatus where
  | idleMode
  | systemMode
  | userMode
  deriving DecidableEq

inductive IntType where
  | timerInt
  | diskInt
  | consoleWriteInt
  | consoleReadInt
  | networkSendInt
  | networkRecvInt
  deriving DecidableEq

/-- A `PendingInterrupt` object; `id` counts the objects allocated before it. -/
structure PendingInterrupt where
  id : Nat
  handler : Nat
  arg : Nat
  when : Int
  type : IntType
  deriving DecidableEq

/-- The arguments of a call of `Interrupt::Schedule`. -/
structure ScheduleRequest where
  handler : Nat
  arg : Nat
  fromNow : Int
  type : IntType

/-- The fields of `Interrupt` and the tick counters of `Statistics`. The last three fields are
history: the number of `PendingInterrupt` objects allocated, all of them in order, and the handlers
invoked so far, each with the value of the clock at its invocation. -/
structure Interrupt where
  level : IntStatus
  pending : List (ListElement PendingInterrupt)
  inHandler : Bool
  yieldOnReturn : Bool
  status : MachineStatus
  totalTicks : Int
  idleTicks : Int
  systemTicks : Int
  userTicks : Int
  allocated : Nat
  scheduled : List PendingInterrupt
  fired : List (PendingInterrupt × Int)

/-- What a handler does to the interrupt simulation: its calls of `Schedule`, in order, and whether
it calls `YieldOnReturn`. -/
structure HandlerEffect where
  schedules : List ScheduleRequest
  yields : Bool

abbrev Handlers := PendingInterrupt → Interrupt → HandlerEffect

def systemTick : Int := 10
def userTick : Int := 1

namespace Interrupt

/-- `Interrupt::Interrupt` with the counters of a new `Statistics`. -/
def init : Interrupt where
  level := .intOff
  pending := []
  inHandler := false
  yieldOnReturn := false
  status := .systemMode
  totalTicks := 0
  idleTicks := 0
  systemTicks := 0
  userTicks := 0
  allocated := 0
  scheduled := []
  fired := []

/-- `Interrupt::Schedule`; `none` is the failed assertion `fromNow > 0`. -/
def schedule (request : ScheduleRequest) (s : Interrupt) : Option Interrupt :=
  let when := s.totalTicks + request.fromNow
  let toOccur : PendingInterrupt :=
    ⟨s.allocated, request.handler, request.arg, when, request.type⟩
  if 0 < request.fromNow then
    some { s with
      pending := sortedInsert toOccur when s.pending
      allocated := s.allocated + 1
      scheduled := s.scheduled ++ [toOccur] }
  else none

/-- The calls of `Schedule` that one handler makes. -/
def scheduleAll : List ScheduleRequest → Interrupt → Option Interrupt
  | [], s => some s
  | request :: rest, s => (s.schedule request).bind (scheduleAll rest)

/-- The handler of `toOccur` is entered, in system mode. -/
def enter (toOccur : PendingInterrupt) (s : Interrupt) : Interrupt :=
  { s with
    inHandler := true
    status := .systemMode
    fired := s.fired ++ [(toOccur, s.totalTicks)] }

/-- The end of `CheckIfDue`: the handler of `toOccur` runs, and the status is restored. -/
def invoke (handlers : Handlers) (toOccur : PendingInterrupt) (s : Interrupt) : Option Interrupt :=
  let effect := handlers toOccur (s.enter toOccur)
  ((s.enter toOccur).scheduleAll effect.schedules).map fun after => { after with
    yieldOnReturn := after.yieldOnReturn || effect.yields
    status := s.status
    inHandler := false }

/-- `Interrupt::CheckIfDue`; `none` is a failed assertion. -/
def checkIfDue (handlers : Handlers) (advanceClock : Bool) (s : Interrupt) :
    Option (Bool × Interrupt) :=
  if s.level ≠ .intOff then none
  else match sortedRemove s.pending with
    | none => some (false, s)
    | some (toOccur, when, rest) =>
        if advanceClock = false ∧ s.totalTicks < when then
          -- not time yet, put it back
          some (false, { s with pending := sortedInsert toOccur when rest })
        else
          let now := { s with
            pending := rest
            idleTicks := if s.totalTicks < when then s.idleTicks + (when - s.totalTicks) else s.idleTicks
            totalTicks := if s.totalTicks < when then when else s.totalTicks }
          if s.status = .idleMode ∧ toOccur.type = .timerInt ∧ rest.isEmpty then
            -- nothing more to do
            some (false, { now with pending := sortedInsert toOccur when rest })
          else (now.invoke handlers toOccur).map fun after => (true, after)

/-- The number of pending interrupts whose time has come. -/
def dueCount (s : Interrupt) : Nat :=
  s.pending.countP fun element => element.key ≤ s.totalTicks


theorem schedule_eq_some {request : ScheduleRequest} {s t : Interrupt}
    (h : s.schedule request = some t) :
    0 < request.fromNow ∧ t = { s with
      pending := sortedInsert ⟨s.allocated, request.handler, request.arg,
        s.totalTicks + request.fromNow, request.type⟩ (s.totalTicks + request.fromNow) s.pending
      allocated := s.allocated + 1
      scheduled := s.scheduled ++ [⟨s.allocated, request.handler, request.arg,
        s.totalTicks + request.fromNow, request.type⟩] } := by
  simp only [schedule] at h
  split at h
  · next hpos => exact ⟨hpos, (Option.some.inj h).symm⟩
  · cases h

theorem schedule_totalTicks {request : ScheduleRequest} {s t : Interrupt}
    (h : s.schedule request = some t) : t.totalTicks = s.totalTicks := by
  obtain ⟨-, rfl⟩ := schedule_eq_some h
  rfl

/-- A new interrupt is never due, because `fromNow` is positive. -/
theorem schedule_dueCount {request : ScheduleRequest} {s t : Interrupt}
    (h : s.schedule request = some t) : t.dueCount = s.dueCount := by
  obtain ⟨hpos, rfl⟩ := schedule_eq_some h
  simp only [dueCount, (sortedInsert_perm _ _ _).countP_eq, List.countP_cons]
  have hlater : ¬s.totalTicks + request.fromNow ≤ s.totalTicks := by omega
  simp [hlater]

theorem scheduleAll_clock {requests : List ScheduleRequest} {s t : Interrupt}
    (h : s.scheduleAll requests = some t) :
    t.totalTicks = s.totalTicks ∧ t.dueCount = s.dueCount := by
  induction requests generalizing s with
  | nil =>
      cases h
      exact ⟨rfl, rfl⟩
  | cons request rest ih =>
      obtain ⟨middle, hfirst, hrest⟩ := Option.bind_eq_some_iff.mp h
      obtain ⟨hticks, hdue⟩ := ih hrest
      exact ⟨hticks.trans (schedule_totalTicks hfirst), hdue.trans (schedule_dueCount hfirst)⟩

theorem invoke_dueCount {handlers : Handlers} {toOccur : PendingInterrupt} {s t : Interrupt}
    (h : s.invoke handlers toOccur = some t) : t.dueCount = s.dueCount := by
  obtain ⟨after, hafter, rfl⟩ := Option.map_eq_some_iff.mp h
  exact (scheduleAll_clock hafter).2

/-- What a call of `CheckIfDue` can do: find nothing, put the first interrupt back because it is not
due, put it back because it is a lone timer interrupt in idle mode, or fire it. -/
theorem checkIfDue_cases {handlers : Handlers} {advanceClock result : Bool} {s t : Interrupt}
    (h : s.checkIfDue handlers advanceClock = some (result, t)) :
    s.level = .intOff ∧
    ((s.pending = [] ∧ result = false ∧ t = s) ∨
    (∃ first rest, s.pending = first :: rest ∧ advanceClock = false ∧ s.totalTicks < first.key ∧
      result = false ∧ t = { s with pending := sortedInsert first.item first.key rest }) ∨
    (∃ first, s.pending = [first] ∧ (advanceClock = true ∨ first.key ≤ s.totalTicks) ∧
      s.status = .idleMode ∧ first.item.type = .timerInt ∧ result = false ∧
      t.pending = [first] ∧ t.status = s.status ∧ t.level = s.level ∧
      t.totalTicks = max s.totalTicks first.key ∧ t.allocated = s.allocated ∧
      t.scheduled = s.scheduled ∧ t.fired = s.fired) ∨
    (∃ first rest idleTicks, s.pending = first :: rest ∧
      (advanceClock = true ∨ first.key ≤ s.totalTicks) ∧ result = true ∧
      ({ s with pending := rest, idleTicks := idleTicks, totalTicks := max s.totalTicks first.key } :
        Interrupt).invoke handlers first.item = some t)) := by
  unfold checkIfDue at h
  split at h
  · cases h
  · next hlevel =>
    refine ⟨not_not.mp hlevel, ?_⟩
    have hmax : ∀ key : Int, (if s.totalTicks < key then key else s.totalTicks) = max s.totalTicks key := by
      intro key
      split <;> omega
    cases hpending : s.pending with
    | nil =>
        simp only [hpending, sortedRemove, Option.some.injEq, Prod.mk.injEq] at h
        exact Or.inl ⟨rfl, h.1.symm, h.2.symm⟩
    | cons first rest =>
        simp only [hpending, sortedRemove, hmax] at h
        right
        split at h
        · next hlater =>
          simp only [Option.some.injEq, Prod.mk.injEq] at h
          exact Or.inl ⟨first, rest, rfl, hlater.1, hlater.2, h.1.symm, h.2.symm⟩
        · next hdue =>
          have hreached : advanceClock = true ∨ first.key ≤ s.totalTicks := by
            cases advanceClock with
            | true => exact Or.inl rfl
            | false => exact Or.inr (not_lt.mp fun hlt => hdue ⟨rfl, hlt⟩)
          right
          split at h
          · next hlone =>
            obtain ⟨hidle, htimer, hempty⟩ := hlone
            have hrest : rest = [] := List.isEmpty_iff.mp hempty
            subst hrest
            simp only [Option.some.injEq, Prod.mk.injEq] at h
            obtain ⟨hresult, rfl⟩ := h
            exact Or.inl ⟨first, rfl, hreached, hidle, htimer, hresult.symm, rfl, rfl, rfl, rfl, rfl, rfl, rfl⟩
          · obtain ⟨after, hafter, hpair⟩ := Option.map_eq_some_iff.mp h
            simp only [Prod.mk.injEq] at hpair
            obtain ⟨hresult, rfl⟩ := hpair
            exact Or.inr ⟨first, rest, _, rfl, hreached, hresult.symm, hafter⟩

/-- Each firing uses up one due interrupt, and the handler adds none. -/
theorem checkIfDue_dueCount {handlers : Handlers} {s t : Interrupt}
    (h : s.checkIfDue handlers false = some (true, t)) : t.dueCount + 1 = s.dueCount := by
  obtain ⟨-, ⟨-, hr, -⟩ | ⟨_, _, -, -, -, hr, -⟩ | ⟨_, -, -, -, -, hr, -⟩ |
    ⟨first, rest, _, hpending, hdue, -, hinvoke⟩⟩ := checkIfDue_cases h
  · cases hr
  · cases hr
  · cases hr
  · have hkey : first.key ≤ s.totalTicks := hdue.resolve_left Bool.false_ne_true
    rw [invoke_dueCount hinvoke]
    simp only [dueCount, hpending, List.countP_cons, hkey, max_eq_left hkey, decide_true, if_true]

/-- The loop `while (CheckIfDue(FALSE))` of `OneTick` and `Idle`. -/
def whileCheckIfDue (handlers : Handlers) (s : Interrupt) : Option Interrupt :=
  match h : s.checkIfDue handlers false with
  | none => none
  | some (false, t) => some t
  | some (true, t) =>
      have _hfewer := checkIfDue_dueCount h
      whileCheckIfDue handlers t
termination_by s.dueCount

theorem whileCheckIfDue_fault {handlers : Handlers} {s : Interrupt}
    (h : s.checkIfDue handlers false = none) : s.whileCheckIfDue handlers = none := by
  rw [whileCheckIfDue]
  split <;> simp_all

theorem whileCheckIfDue_stop {handlers : Handlers} {s t : Interrupt}
    (h : s.checkIfDue handlers false = some (false, t)) : s.whileCheckIfDue handlers = some t := by
  rw [whileCheckIfDue]
  split <;> simp_all

theorem whileCheckIfDue_again {handlers : Handlers} {s t : Interrupt}
    (h : s.checkIfDue handlers false = some (true, t)) :
    s.whileCheckIfDue handlers = t.whileCheckIfDue handlers := by
  rw [whileCheckIfDue]
  split <;> simp_all

/-- The beginning of `OneTick`: the clock advances and interrupts are turned off. -/
def beginTick (s : Interrupt) : Interrupt :=
  if s.status = .systemMode then
    { s with
      totalTicks := s.totalTicks + systemTick
      systemTicks := s.systemTicks + systemTick
      level := .intOff }
  else
    { s with
      totalTicks := s.totalTicks + userTick
      userTicks := s.userTicks + userTick
      level := .intOff }

/-- `Interrupt::OneTick`. When a handler has asked for a context switch the call goes on in
`Thread::Yield`, whose own calls on the interrupt simulation follow; the assignment of the saved
status after it is then a `setStatus` call of the run. -/
def oneTick (handlers : Handlers) (s : Interrupt) : Option Interrupt :=
  (whileCheckIfDue handlers s.beginTick).map fun after =>
    if after.yieldOnReturn then
      { after with level := .intOn, yieldOnReturn := false, status := .systemMode }
    else { after with level := .intOn }

/-- `Interrupt::SetLevel`. -/
def setLevel (handlers : Handlers) (now : IntStatus) (s : Interrupt) : Option Interrupt :=
  if now = .intOn ∧ s.inHandler then none
  else if now = .intOn ∧ s.level = .intOff then oneTick handlers { s with level := now }
  else some { s with level := now }

/-- `Interrupt::Idle`; the result is `false` when it ends in `Interrupt::Halt`. -/
def idle (handlers : Handlers) (s : Interrupt) : Option (Bool × Interrupt) :=
  (({ s with status := .idleMode } : Interrupt).checkIfDue handlers true).bind fun
    | (false, after) => some (false, after)
    | (true, after) => (whileCheckIfDue handlers after).map fun done =>
        (true, { done with yieldOnReturn := false, status := .systemMode })

/-- The calls a run is made of. `setStatus` stands for the assignments of `status` by `Machine::Run`,
`Machine::RaiseException` and the end of `OneTick`. -/
inductive Call where
  | schedule (request : ScheduleRequest)
  | setLevel (now : IntStatus)
  | oneTick
  | idle
  | setStatus (status : MachineStatus)

/-- One call of a run; `none` is a failed assertion. -/
def perform (handlers : Handlers) : Call → Interrupt → Option Interrupt
  | .schedule request, s => s.schedule request
  | .setLevel now, s => s.setLevel handlers now
  | .oneTick, s => s.oneTick handlers
  | .idle, s => (s.idle handlers).map Prod.snd
  | .setStatus status, s => some { s with status := status }

end Interrupt

end Nachos

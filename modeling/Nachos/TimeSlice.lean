import Nachos.Timer

/-! Time slices. The timer is never lost, and whenever it expires the current thread gives the processor away. A thread
on the ready list gets the processor within a bounded time, whatever the other threads do. -/

namespace Nachos

namespace TimedExecution

variable {Sem : Type} {randomize : Bool} {random : Nat} {sem : Sem → Semaphore} {d : Decision Sem}
  {s s' : TimedExecution Sem}

def now (s : TimedExecution Sem) : Int := s.execution.interrupt.totalTicks

def timers (s : TimedExecution Sem) : List (ListElement PendingInterrupt) := s.execution.interrupt.timers

/-- The frames of the current thread. -/
def frames (s : TimedExecution Sem) : List (CallFrame Sem) := s.execution.stack s.execution.currentThread

def yields (s : TimedExecution Sem) : Bool := s.execution.interrupt.yieldOnReturn

/-- The situations of the current thread. A timer interrupt may be due in the loop of `OneTick` only, but for one that
is due at this very moment: `Idle` leaves it alone if it is the last one. -/
inductive Situation (s : TimedExecution Sem) : Prop where
  | plain (hplain : ∀ f ∈ s.frames, f.Plain) (hphase : s.phase = .waits) (hyields : s.yields = false)
      (hearly : ∀ e ∈ s.timers, s.now ≤ e.key)
  | idle {rest : List (CallFrame Sem)} (hframes : s.frames = .idle :: .sleepLoop :: rest) (hrest : ∀ f ∈ rest, f.Plain)
      (hready : s.execution.readyList = []) (hphase : s.phase = .waits) (hyields : s.yields = false)
      (hearly : ∀ e ∈ s.timers, s.now ≤ e.key)
  | loop {base : List (CallFrame Sem)} (hbase : CallFrame.AtLoop base) (hin : CallFrame.InLoop base s.frames)
      (hhandler : s.phase ≠ .waits → ∃ old, s.frames = .handler :: .checkIfDueEnd old :: base)
      (hreturns : s.phase = .returns → s.yields = true)
      (hearly : .idleLoop ∈ base → ∀ e ∈ s.timers, s.now ≤ e.key)

/-- The timer is never lost: unless it has just expired, one timer interrupt is pending, and it is due soon. -/
structure Inv (randomize : Bool) (s : TimedExecution Sem) : Prop where
  sorted : KeySorted s.execution.interrupt.pending
  situation : s.Situation
  others : ∀ t, t ≠ s.execution.currentThread → ∀ f ∈ s.execution.stack t, f.Plain
  expired : s.phase = .expired → s.timers = []
  pending : s.phase ≠ .expired → ∃ e, s.timers = [e] ∧ e.key ≤ s.now + timerPeriod randomize ∧
    s.now ≤ e.key + systemTick

theorem timers_cons {i j : Interrupt} {first : ListElement PendingInterrupt} (h : i.pending = first :: j.pending) :
    i.timers = if first.item.type = .timerInt then first :: j.timers else j.timers := by
  unfold Interrupt.timers
  rw [h, List.filter_cons]
  simp only [decide_eq_true_eq]

theorem not_gives_of_inLoop {base : List (CallFrame Sem)} (hbase : CallFrame.AtLoop base)
    {frame : CallFrame Sem} {rest : List (CallFrame Sem)} (hin : CallFrame.InLoop base (frame :: rest)) :
    ¬frame.Gives ∧ ∀ next, frame ≠ .schedulerRun next := by
  generalize hcur : frame :: rest = cur at hin
  cases hin with
  | check =>
      cases hbase with
      | tick =>
          obtain ⟨rfl, -⟩ := List.cons.inj hcur
          exact ⟨fun h => h, by simp⟩
      | idle =>
          obtain ⟨rfl, -⟩ := List.cons.inj hcur
          exact ⟨fun h => h, by simp⟩
  | _ =>
      obtain ⟨rfl, -⟩ := List.cons.inj hcur
      exact ⟨fun h => h, by simp⟩

/-- The other threads stay out of the simulation of interrupts. -/
theorem Inv.others_of (hinv : s.Inv randomize) {e : Execution Sem}
    (hthread : e.currentThread = s.execution.currentThread)
    (hothers : ∀ t, t ≠ s.execution.currentThread →
      e.stack t = s.execution.stack t ∨ e.stack t = [.setupThreadState, .threadRoot]) :
    ∀ t, t ≠ e.currentThread → ∀ f ∈ e.stack t, f.Plain := by
  intro t ht
  rw [hthread] at ht
  rcases hothers t ht with hsame | hsetup
  · rw [hsame]
    exact hinv.others t ht
  · rw [hsetup]
    simp [CallFrame.Plain]

/-- The timer is as it was, at a time that is not later than the present one. -/
theorem Inv.pending_of (hinv : s.Inv randomize) (hphase : s.phase ≠ .expired) (htimers : s'.timers.Perm s.timers)
    (hlater : s.now ≤ s'.now) (hsoon : ∀ e ∈ s.timers, s'.now ≤ e.key + systemTick) :
    ∃ e, s'.timers = [e] ∧ e.key ≤ s'.now + timerPeriod randomize ∧ s'.now ≤ e.key + systemTick := by
  obtain ⟨e, he, hkey, -⟩ := hinv.pending hphase
  rw [he] at htimers
  refine ⟨e, List.perm_singleton.mp htimers, by omega, hsoon e ?_⟩
  rw [he]
  exact List.mem_singleton_self e

theorem Inv.switch (hinv : s.Inv randomize) {next : ThreadId} {rest : List (CallFrame Sem)}
    (hstack : s.frames = .schedulerRun next :: rest)
    (hstacks : s'.execution.stack =
      Function.update s.execution.stack s.execution.currentThread (.afterSwitch :: rest))
    (hinterrupt : s'.execution.interrupt = s.execution.interrupt)
    (hphase' : s'.phase = s.phase.next s.execution s'.execution) : s'.Inv randomize ∧ s.phase = .waits := by
  have hnow : s'.now = s.now := congrArg Interrupt.totalTicks hinterrupt
  have htimers : s'.timers = s.timers := congrArg Interrupt.timers hinterrupt
  cases hinv.situation with
  | idle hframes =>
      rw [hstack] at hframes
      cases hframes
  | loop hbase hin =>
      rw [hstack] at hin
      exact absurd rfl ((not_gives_of_inLoop hbase hin).2 next)
  | plain hplain hphase hyields hearly =>
      have hwaits : s'.phase = .waits := by
        rw [hphase', TimerPhase.next_of_still hphase (congrArg Interrupt.fired hinterrupt)]
      have hall : ∀ t, ∀ f ∈ s'.execution.stack t, f.Plain := by
        intro t
        rw [hstacks]
        rcases eq_or_ne t s.execution.currentThread with rfl | ht
        · rw [Function.update_self]
          intro f hf
          rcases List.mem_cons.mp hf with rfl | hf
          · trivial
          · exact hplain f (by rw [hstack]; exact List.mem_cons_of_mem _ hf)
        · rw [Function.update_of_ne ht]
          exact hinv.others t ht
      refine ⟨⟨?_, .plain (hall _) hwaits ?_ ?_, fun t _ => hall t, ?_, ?_⟩, hphase⟩
      · rw [hinterrupt]
        exact hinv.sorted
      · rw [← hyields]
        exact congrArg Interrupt.yieldOnReturn hinterrupt
      · rw [htimers, hnow]
        exact hearly
      · intro hexpired
        rw [hwaits] at hexpired
        cases hexpired
      · intro _
        rw [htimers, hnow]
        exact hinv.pending (by rw [hphase]; decide)

/-- What is left to show when no handler has been called and no handler of the timer runs. -/
theorem Inv.of_still (hinv : s.Inv randomize) (hphase : s.phase = .waits)
    (hphase' : s'.phase = s.phase.next s.execution s'.execution)
    (hstill : s.execution.interrupt.Still s'.execution.interrupt) (hlater : s.now ≤ s'.now)
    (hsoon : ∀ e ∈ s.timers, s'.now ≤ e.key + systemTick)
    (hothers : ∀ t, t ≠ s'.execution.currentThread → ∀ f ∈ s'.execution.stack t, f.Plain)
    (hsituation : s'.phase = .waits → s'.Situation) : s'.Inv randomize := by
  have hwaits : s'.phase = .waits := by rw [hphase', TimerPhase.next_of_still hphase hstill.fired]
  refine ⟨hstill.sorted hinv.sorted, hsituation hwaits, hothers, ?_, fun _ => ?_⟩
  · intro hexpired
    rw [hwaits] at hexpired
    cases hexpired
  · exact hinv.pending_of (by rw [hphase]; decide) hstill.timers hlater hsoon

theorem Inv.plain_step (hinv : s.Inv randomize) {frame : CallFrame Sem} {rest frames : List (CallFrame Sem)}
    {after : Execution Sem} (hstack : s.frames = frame :: rest) (hplain : ∀ f ∈ s.frames, f.Plain)
    (hphase : s.phase = .waits) (hyields : s.yields = false) (hearly : ∀ e ∈ s.timers, s.now ≤ e.key)
    (hstep : s.execution.PlainStep frame frames after) (hframes : s'.frames = frames ++ rest)
    (hinterrupt : s'.execution.interrupt = after.interrupt) (hready : s'.execution.readyList = after.readyList)
    (hothers : ∀ t, t ≠ s'.execution.currentThread → ∀ f ∈ s'.execution.stack t, f.Plain)
    (hphase' : s'.phase = s.phase.next s.execution s'.execution) : s'.Inv randomize := by
  have hrest : ∀ f ∈ rest, f.Plain := fun f hf => hplain f (by rw [hstack]; exact List.mem_cons_of_mem _ hf)
  have hboth : ∀ {more}, (∀ f ∈ more, f.Plain) → ∀ f ∈ more ++ rest, f.Plain := by
    intro more hmore f hf
    exact (List.mem_append.mp hf).elim (hmore f) (hrest f)
  have hnow' : s'.now = after.interrupt.totalTicks := congrArg Interrupt.totalTicks hinterrupt
  have hyields' : s.execution.interrupt.Still after.interrupt → s'.yields = false := by
    intro hstill
    rw [← hyields]
    exact (congrArg Interrupt.yieldOnReturn hinterrupt).trans hstill.yields
  have hearly' : s.execution.interrupt.Still after.interrupt → s'.now = s.now → ∀ e ∈ s'.timers, s'.now ≤ e.key := by
    intro hstill hnow e he
    rw [hnow]
    refine hearly e (hstill.timers.mem_iff.mp ?_)
    rw [← hinterrupt]
    exact he
  have hsoon : ∀ e ∈ s.timers, s.now ≤ e.key + systemTick := fun e he =>
    le_trans (hearly e he) (by simp only [systemTick]; omega)
  cases hstep with
  | goesOn hgives hmore hnow hstill added =>
      have hsame : s'.now = s.now := hnow'.trans hnow
      refine hinv.of_still hphase hphase' (by rwa [hinterrupt]) hsame.ge (by rwa [hsame]) hothers fun hwaits => ?_
      exact .plain (by rw [hframes]; exact hboth hmore) hwaits (hyields' hstill) (hearly' hstill hsame)
  | @ticks hgives old more hold hmore hticks hnow hlater hstill =>
      have hsoon' : ∀ e ∈ s.timers, s'.now ≤ e.key + systemTick := by
        intro e he
        have := hearly e he
        change after.interrupt.totalTicks ≤ s.now + systemTick at hnow
        omega
      refine hinv.of_still hphase hphase' (by rwa [hinterrupt]) (by rwa [hnow']) hsoon' hothers fun hwaits => ?_
      rw [hticks, List.cons_append] at hframes
      refine .loop (.tick hold (hboth hmore)) (by rw [hframes]; exact .check) ?_ ?_ ?_
      · intro hne
        exact absurd hwaits hne
      · intro hreturns
        rw [hwaits] at hreturns
        cases hreturns
      · intro hmem
        rcases List.mem_cons.mp hmem with heq | hmem
        · cases heq
        · exact (hboth hmore _ hmem).elim
  | gives hmore hrun hbefore hafter hnow hstill =>
      have hsame : s'.now = s.now := hnow'.trans hnow
      refine hinv.of_still hphase hphase' (by rwa [hinterrupt]) hsame.ge (by rwa [hsame]) hothers fun hwaits => ?_
      refine .plain ?_ hwaits (hyields' hstill) (hearly' hstill hsame)
      rw [hframes, hrun]
      intro f hf
      rcases List.mem_cons.mp hf with rfl | hf
      · trivial
      · exact hboth hmore f hf
  | idles hidle hnone hsame =>
      subst hsame
      have hstill : s.execution.interrupt.Still s.execution.interrupt := .of_pending rfl rfl rfl
      refine hinv.of_still hphase hphase' (by rwa [hinterrupt]) hnow'.ge (by rwa [hnow']) hothers fun hwaits => ?_
      rw [hidle] at hframes
      exact .idle hframes hrest (by rw [hready, hnone]) hwaits (hyields' hstill) (hearly' hstill hnow')

/-- A handler is called, that of the timer or another one. -/
theorem Inv.fires (hinv : s.Inv randomize) (hphase : s.phase = .waits)
    (hphase' : s'.phase = s.phase.next s.execution s'.execution) {first : ListElement PendingInterrupt} {time : Int}
    (hpending : s.execution.interrupt.pending = first :: s'.execution.interrupt.pending)
    (hfired : s'.execution.interrupt.fired = s.execution.interrupt.fired ++ [(first.item, time)])
    (hlater : s.now ≤ s'.now) (hsoon : ∀ e ∈ s.timers, s'.now ≤ e.key + systemTick)
    {base : List (CallFrame Sem)} {old : MachineStatus} (hbase : CallFrame.AtLoop base)
    (hframes : s'.frames = .handler :: .checkIfDueEnd old :: base)
    (hearly : .idleLoop ∈ base → ∀ e ∈ s'.timers, s'.now ≤ e.key)
    (hothers : ∀ t, t ≠ s'.execution.currentThread → ∀ f ∈ s'.execution.stack t, f.Plain) : s'.Inv randomize := by
  have hnext := hphase'.trans (TimerPhase.next_of_fired hphase hfired)
  have htimers : s.timers = if first.item.type = .timerInt then first :: s'.timers else s'.timers :=
    timers_cons hpending
  have hsorted := hinv.sorted
  rw [hpending] at hsorted
  have hexpired : s.phase ≠ .expired := by rw [hphase]; decide
  refine ⟨(List.pairwise_cons.mp hsorted).2, .loop hbase (by rw [hframes]; exact .handler old) ?_ ?_ hearly, hothers,
    ?_, ?_⟩
  · exact fun _ => ⟨old, hframes⟩
  · intro hreturns
    rw [hreturns] at hnext
    split at hnext
    · cases hnext
    · cases hnext
  · intro hexpired'
    rw [hexpired'] at hnext
    split at hnext
    · next htype =>
      rw [if_pos htype] at htimers
      obtain ⟨e, he, -⟩ := hinv.pending hexpired
      rw [he] at htimers
      exact (List.cons.inj htimers).2.symm
    · cases hnext
  · intro hexpired'
    have htype : first.item.type ≠ .timerInt := by
      intro htype
      rw [if_pos htype] at hnext
      exact hexpired' hnext
    rw [if_neg htype] at htimers
    exact hinv.pending_of hexpired (by rw [htimers]) hlater hsoon

/-- What happens to the timer in the loop of `OneTick` or `Idle`. -/
inductive LoopMove (randomize : Bool) (base : List (CallFrame Sem)) (s s' : TimedExecution Sem) : Prop where
  | fires (hphase : s.phase = .waits) (hframes : s.frames = base) {old : MachineStatus}
      {first : ListElement PendingInterrupt} {time : Int}
      (hpending : s.execution.interrupt.pending = first :: s'.execution.interrupt.pending)
      (hfired : s'.execution.interrupt.fired = s.execution.interrupt.fired ++ [(first.item, time)])
      (hyields : s'.yields = s.yields) (hframes' : s'.frames = .handler :: .checkIfDueEnd old :: base)
      (hnow : s'.now = s.now) (hready : s'.execution.readyList = s.execution.readyList)
  | ends (hphase : s.phase = .waits) (hphase' : s'.phase = .waits) (hframes : s.frames = base)
      (htimers : s'.timers.Perm s.timers) (hsorted : KeySorted s'.execution.interrupt.pending)
      (hearly : ∀ e ∈ s.timers, s.now ≤ e.key) (hoff : s'.yields = false) (hplain : ∀ f ∈ s'.frames, f.Plain)
      (hgives : s.yields = true ∨ .idleLoop ∈ base → ∃ f rest, s'.frames = f :: rest ∧ f.Gives)
      (hnow : s'.now = s.now) (hready : s'.execution.readyList = s.execution.readyList)
  | expires (hphase : s.phase = .expired) (hphase' : s'.phase = .interrupts) {e : ListElement PendingInterrupt}
      (htimers : s'.timers.Perm (e :: s.timers)) (hkey : s.now ≤ e.key) (hsoon : e.key ≤ s.now + timerPeriod randomize)
      (hsorted : KeySorted s'.execution.interrupt.pending) (hframes : s'.frames = s.frames)
      (hnow : s'.now = s.now) (hready : s'.execution.readyList = s.execution.readyList)
  | handles (hphase : s.phase ≠ .expired) (hphase' : s'.phase ≠ .expired) (hin : CallFrame.InLoop base s'.frames)
      (hhandler : s'.phase ≠ .waits → ∃ old, s'.frames = .handler :: .checkIfDueEnd old :: base)
      (hreturns : s'.phase = .returns → s'.yields = true)
      (howed : s.phase ≠ .waits ∨ s.yields = true → s'.phase ≠ .waits ∨ s'.yields = true)
      (htimers : s'.timers.Perm s.timers) (hsorted : KeySorted s'.execution.interrupt.pending) (hnow : s'.now = s.now)
      (added : List ThreadId) (hready : s'.execution.readyList = s.execution.readyList ++ added)

theorem decision_handler {status : MachineStatus} (hstatus : status ≠ .idleMode) (phase : TimerPhase) :
    (phase.decision randomize random status d).handler = match phase with
      | .waits => d.handler
      | .expired => .schedule (timerRequest randomize random)
      | .interrupts => .yieldOnReturn
      | .returns => .return := by
  cases phase with
  | interrupts => exact if_pos hstatus
  | _ => rfl

/-- A handler that calls `YieldOnReturn` is not in `TimerExpired`, neither before nor after the call. -/
theorem next_of_yieldOnReturn {before after : Execution Sem} {phase : TimerPhase}
    (hstatus : phase ≠ .waits → before.interrupt.status ≠ .idleMode)
    (hd : (phase.decision randomize random before.interrupt.status d).handler = .yieldOnReturn)
    (hfired : after.interrupt.fired = before.interrupt.fired) :
    phase ≠ .expired ∧ phase.next before after ≠ .expired := by
  cases phase with
  | waits => exact ⟨by decide, by rw [TimerPhase.next_of_still rfl hfired]; decide⟩
  | expired =>
      rw [decision_handler (hstatus (by decide))] at hd
      cases hd
  | interrupts =>
      have hnext : TimerPhase.interrupts.next before after = .returns := if_pos (hstatus (by decide))
      exact ⟨by decide, by rw [hnext]; decide⟩
  | returns => exact ⟨by decide, by change TimerPhase.waits ≠ .expired; decide⟩

theorem next_of_return {before after : Execution Sem} {phase : TimerPhase}
    (hstatus : phase ≠ .waits → before.interrupt.status ≠ .idleMode)
    (hd : (phase.decision randomize random before.interrupt.status d).handler = .return)
    (hfired : after.interrupt.fired = before.interrupt.fired) :
    (phase = .waits ∨ phase = .returns) ∧ phase.next before after = .waits := by
  cases phase with
  | waits => exact ⟨.inl rfl, TimerPhase.next_of_still rfl hfired⟩
  | returns => exact ⟨.inr rfl, rfl⟩
  | _ =>
      rw [decision_handler (hstatus (by decide))] at hd
      cases hd

/-- The handler of the timer calls no `V`. -/
theorem waits_of_semV {status : MachineStatus} {phase : TimerPhase} (hstatus : phase ≠ .waits → status ≠ .idleMode)
    {x : Sem} (hd : (phase.decision randomize random status d).handler = .semV x) : phase = .waits := by
  cases phase with
  | waits => rfl
  | _ =>
      rw [decision_handler (hstatus (by decide))] at hd
      cases hd

/-- While the handler of the timer runs it is on top, in system mode. -/
theorem busy_of_handler (hs : s.execution.Disciplined) {base : List (CallFrame Sem)}
    (hhandler : s.phase ≠ .waits → ∃ old, s.frames = .handler :: .checkIfDueEnd old :: base)
    (hphase : s.phase ≠ .waits) : s.execution.interrupt.status ≠ .idleMode := by
  obtain ⟨old, htop⟩ := hhandler hphase
  have hpre := hs.pre htop
  rw [show s.execution.interrupt.status = .systemMode from Mode.Handler.status hpre]
  decide

theorem waits_of_atLoop {base : List (CallFrame Sem)} (hbase : CallFrame.AtLoop base)
    (hhandler : s.phase ≠ .waits → ∃ old, s.frames = .handler :: .checkIfDueEnd old :: base) (hcur : s.frames = base) :
    s.phase = .waits := by
  by_contra hphase
  obtain ⟨old, htop⟩ := hhandler hphase
  rw [hcur] at htop
  rw [htop] at hbase
  cases hbase

theorem LoopMove.handles_waits {base : List (CallFrame Sem)} (hphase : s.phase ≠ .expired) (hwaits : s'.phase = .waits)
    (hin : CallFrame.InLoop base s'.frames) (hon : s.phase ≠ .waits ∨ s.yields = true → s'.yields = true)
    (htimers : s'.timers.Perm s.timers) (hsorted : KeySorted s'.execution.interrupt.pending) (hnow : s'.now = s.now)
    (added : List ThreadId) (hready : s'.execution.readyList = s.execution.readyList ++ added) :
    LoopMove randomize base s s' := by
  refine .handles hphase (by rw [hwaits]; decide) hin (fun hne => absurd hwaits hne) (fun heq => ?_)
    (fun howed => .inr (hon howed)) htimers hsorted hnow added hready
  rw [hwaits] at heq
  cases heq

/-- A handler calls `Schedule`. That of the timer does so in `TimerExpired`, and nothing else asks for the timer. -/
theorem LoopMove.of_schedule {base : List (CallFrame Sem)} {request : ScheduleRequest} {old : MachineStatus}
    (hstatus : s.phase ≠ .waits → s.execution.interrupt.status ≠ .idleMode) (huntimed : d.Untimed)
    (hd : (s.phase.decision randomize random s.execution.interrupt.status d).handler = .schedule request)
    (hschedule : s.execution.interrupt.schedule request = some s'.execution.interrupt)
    (hsorted : KeySorted s.execution.interrupt.pending) (hcur : s.frames = .handler :: .checkIfDueEnd old :: base)
    (hcur' : s'.frames = s.frames) (hready : s'.execution.readyList = s.execution.readyList)
    (hphase' : s'.phase = s.phase.next s.execution s'.execution) : LoopMove randomize base s s' := by
  have hnow : s'.now = s.now := Interrupt.schedule_totalTicks hschedule
  have hsorted' := Interrupt.schedule_sorted hschedule hsorted
  cases hphase : s.phase with
  | waits =>
      rw [hphase] at hd hphase'
      have hwaits := hphase'.trans (TimerPhase.next_of_still rfl (Interrupt.schedule_fired hschedule))
      have hstill := Interrupt.Still.schedule hschedule (huntimed.2 request hd)
      refine .handles_waits (by rw [hphase]; decide) hwaits (by rw [hcur', hcur]; exact .handler old) ?_ hstill.timers
        hsorted' hnow [] (by rw [hready, List.append_nil])
      rintro (hne | hon)
      · exact absurd hphase hne
      · exact hstill.yields.trans hon
  | expired =>
      rw [decision_handler (hstatus (by rw [hphase]; decide)), hphase] at hd
      obtain rfl := HandlerCall.schedule.inj hd
      obtain ⟨hpos, hle⟩ := timeOfNextInterrupt_bounds randomize random
      have htimers := Interrupt.timers_schedule hschedule
      rw [if_pos (show (timerRequest randomize random).type = .timerInt from rfl)] at htimers
      exact .expires hphase (by rw [hphase', hphase]; rfl) htimers
        (show s.now ≤ s.now + timeOfNextInterrupt randomize random by omega)
        (show s.now + timeOfNextInterrupt randomize random ≤ s.now + timerPeriod randomize by omega) hsorted' hcur'
        hnow hready
  | _ =>
      rw [decision_handler (hstatus (by rw [hphase]; decide)), hphase] at hd
      cases hd

theorem LoopMove.inv {base : List (CallFrame Sem)} (h : LoopMove randomize base s s') (hinv : s.Inv randomize)
    (hbase : CallFrame.AtLoop base) (hin : CallFrame.InLoop base s.frames)
    (hhandler : s.phase ≠ .waits → ∃ old, s.frames = .handler :: .checkIfDueEnd old :: base)
    (hearly : .idleLoop ∈ base → ∀ e ∈ s.timers, s.now ≤ e.key)
    (hothers : ∀ t, t ≠ s'.execution.currentThread → ∀ f ∈ s'.execution.stack t, f.Plain)
    (hphase' : s'.phase = s.phase.next s.execution s'.execution) : s'.Inv randomize := by
  have hsoon : s.phase ≠ .expired → s'.now = s.now → ∀ e ∈ s.timers, s'.now ≤ e.key + systemTick := by
    intro hphase hnow e he
    obtain ⟨e', he', -, hlate⟩ := hinv.pending hphase
    rw [he', List.mem_singleton] at he
    rw [hnow, he]
    exact hlate
  have hkept : s'.timers.Perm s.timers → s'.now = s.now → ∀ {P : Prop}, (P → ∀ e ∈ s.timers, s.now ≤ e.key) →
      P → ∀ e ∈ s'.timers, s'.now ≤ e.key := by
    intro htimers hnow P hs hP e he
    rw [hnow]
    exact hs hP e (htimers.mem_iff.mp he)
  cases h with
  | @fires hphase hframes old first time hpending hfired hyields hframes' hnow hready =>
      have hsub : ∀ e ∈ s'.timers, e ∈ s.timers := by
        intro e he
        have htimers : s.timers = if first.item.type = .timerInt then first :: s'.timers else s'.timers :=
          timers_cons hpending
        rw [htimers]
        split
        · exact List.mem_cons_of_mem _ he
        · exact he
      refine hinv.fires hphase hphase' hpending hfired hnow.ge (hsoon (by rw [hphase]; decide) hnow) hbase hframes' ?_
        hothers
      intro hidle e he
      rw [hnow]
      exact hearly hidle e (hsub e he)
  | ends hphase hwaits hframes htimers hsorted hlater hoff hplain hgives hnow hready =>
      have hexpired : s.phase ≠ .expired := by rw [hphase]; decide
      refine ⟨hsorted, .plain hplain hwaits hoff (hkept htimers hnow (fun _ => hlater) trivial), hothers, ?_, ?_⟩
      · intro heq
        rw [hwaits] at heq
        cases heq
      · exact fun _ => hinv.pending_of hexpired htimers hnow.ge (hsoon hexpired hnow)
  | @expires hphase hnext e htimers hkey hdue hsorted hframes hnow hready =>
      rw [hinv.expired hphase] at htimers
      have hone := List.perm_singleton.mp htimers
      refine ⟨hsorted, .loop hbase (by rwa [hframes]) ?_ ?_ ?_, hothers, ?_, ?_⟩
      · rw [hframes]
        exact fun _ => hhandler (by rw [hphase]; decide)
      · intro heq
        rw [hnext] at heq
        cases heq
      · intro _ e' he'
        rw [hone, List.mem_singleton] at he'
        rw [he', hnow]
        exact hkey
      · intro heq
        rw [hnext] at heq
        cases heq
      · refine fun _ => ⟨e, hone, by rw [hnow]; exact hdue, ?_⟩
        rw [hnow]
        exact le_trans hkey (by simp only [systemTick]; omega)
  | handles hphase hnext hin' hhandler' hreturns' howed htimers hsorted hnow added hready =>
      refine ⟨hsorted, .loop hbase hin' hhandler' hreturns' (hkept htimers hnow hearly), hothers,
        fun heq => absurd heq hnext, fun _ => hinv.pending_of hphase htimers hnow.ge (hsoon hphase hnow)⟩

section Step

variable [DecidableEq Sem]

theorem Inv.idle_step (hinv : s.Inv randomize) {rest frames : List (CallFrame Sem)} {after : Execution Sem}
    (hrest : ∀ f ∈ rest, f.Plain) (hphase : s.phase = .waits) (hearly : ∀ e ∈ s.timers, s.now ≤ e.key)
    (hexecute : s.execution.execute d .idle = .ok (frames, after)) (hframes : s'.frames = frames ++ .sleepLoop :: rest)
    (hinterrupt : s'.execution.interrupt = after.interrupt)
    (hothers : ∀ t, t ≠ s'.execution.currentThread → ∀ f ∈ s'.execution.stack t, f.Plain)
    (hphase' : s'.phase = s.phase.next s.execution s'.execution) : s'.Inv randomize := by
  obtain ⟨old, first, hpending, hfired, -, rfl, hnow⟩ := Execution.execute_idle hinv.sorted hexecute
  have hnow' : s'.now = max s.now first.key := (congrArg Interrupt.totalTicks hinterrupt).trans hnow
  rw [← hinterrupt] at hpending hfired
  -- The clock is set to the time of the first interrupt, which is not later than that of the timer.
  have hfirst : ∀ e ∈ s.timers, s'.now ≤ e.key := by
    intro e he
    have hsorted := hinv.sorted
    have hmem := (List.mem_filter.mp he).1
    rw [hpending] at hsorted hmem
    rw [hnow']
    refine max_le (hearly e he) ?_
    rcases List.mem_cons.mp hmem with rfl | hmem
    · exact le_refl _
    · exact (List.pairwise_cons.mp hsorted).1 e hmem
  have hsub : ∀ e ∈ s'.timers, e ∈ s.timers := by
    intro e he
    have htimers : s.timers = if first.item.type = .timerInt then first :: s'.timers else s'.timers :=
      timers_cons hpending
    rw [htimers]
    split
    · exact List.mem_cons_of_mem _ he
    · exact he
  refine hinv.fires hphase hphase' hpending hfired ?_ ?_ (.idle hrest) hframes (fun _ e he => hfirst e (hsub e he))
    hothers
  · rw [hnow']
    exact le_max_left _ _
  · intro e he
    exact le_trans (hfirst e he) (by simp only [systemTick]; omega)

theorem Inv.loop_move (hinv : s.Inv randomize) (hs : s.execution.Disciplined) (huntimed : d.Untimed)
    {base rest frames : List (CallFrame Sem)} {frame : CallFrame Sem} {after : Execution Sem}
    (hstack : s.frames = frame :: rest) (hbase : CallFrame.AtLoop base) (hin : CallFrame.InLoop base s.frames)
    (hhandler : s.phase ≠ .waits → ∃ old, s.frames = .handler :: .checkIfDueEnd old :: base)
    (hreturns : s.phase = .returns → s.yields = true)
    (hearly : .idleLoop ∈ base → ∀ e ∈ s.timers, s.now ≤ e.key)
    (hexecute : s.execution.execute (s.phase.decision randomize random s.execution.interrupt.status d) frame =
      .ok (frames, after)) (hframes : s'.frames = frames ++ rest)
    (hinterrupt : s'.execution.interrupt = after.interrupt) (hready : s'.execution.readyList = after.readyList)
    (hphase' : s'.phase = s.phase.next s.execution s'.execution) : LoopMove randomize base s s' := by
  have hnow' : after.interrupt.totalTicks = s.execution.interrupt.totalTicks → s'.now = s.now := fun hnow =>
    (congrArg Interrupt.totalTicks hinterrupt).trans hnow
  have hyields' : s'.yields = after.interrupt.yieldOnReturn := congrArg Interrupt.yieldOnReturn hinterrupt
  have htimers' : s'.timers = after.interrupt.timers := congrArg Interrupt.timers hinterrupt
  have hperm : after.interrupt.pending.Perm s.execution.interrupt.pending → s'.timers.Perm s.timers := by
    intro hperm
    rw [htimers']
    exact hperm.filter _
  have hstatus := busy_of_handler hs hhandler
  have hwaits := waits_of_atLoop hbase hhandler
  rw [hstack] at hin
  cases Execution.execute_loop hs hinv.sorted hbase hstack hin hexecute with
  | fires hcur hpending hdue hfired hyields hcur' hnow hsame =>
      rw [← hstack] at hcur
      exact .fires (hwaits hcur) hcur (by rw [hpending, hinterrupt]) (by rw [hinterrupt, hfired])
        (hyields'.trans hyields) (hframes.trans hcur') (hnow' hnow) (hready.trans hsame)
  | tickEnds htick hcur hlater hpending hsorted hfired hoff hcur' hyield hnow hsame =>
      rw [← hstack] at hcur
      have hphase := hwaits hcur
      refine .ends hphase ?_ hcur (hperm hpending) (by rwa [hinterrupt]) ?_ (hyields'.trans hoff) (by rwa [hframes]) ?_
        (hnow' hnow) (hready.trans hsame)
      · rw [hphase', TimerPhase.next_of_still hphase (by rw [hinterrupt, hfired])]
      · exact fun e he => le_of_lt (hlater e (List.mem_filter.mp he).1)
      · rintro (hon | hidle)
        · obtain ⟨u, more, hmore⟩ := hyield hon
          exact ⟨_, _, hframes.trans hmore, trivial⟩
        · subst htick
          cases hbase with
          | tick hold hrest =>
              rcases List.mem_cons.mp hidle with heq | hmem
              · cases heq
              · exact (hrest _ hmem).elim
  | @idleEnds below hidle hcur hpending hsorted hfired hoff hcur' hnow hsame =>
      rw [← hstack] at hcur
      have hphase := hwaits hcur
      refine .ends hphase ?_ hcur (hperm hpending) (by rwa [hinterrupt]) ?_ (hyields'.trans hoff) ?_ ?_ (hnow' hnow)
        (hready.trans hsame)
      · rw [hphase', TimerPhase.next_of_still hphase (by rw [hinterrupt, hfired])]
      · exact hearly (by rw [hidle]; exact List.mem_cons_self)
      · rw [hframes, hcur']
        subst hidle
        cases hbase with
        | idle hrest =>
            intro f hf
            rcases List.mem_cons.mp hf with rfl | hf
            · trivial
            · exact hrest f hf
      · exact fun _ => ⟨_, _, hframes.trans hcur', trivial⟩
  | @schedules request hd hschedule old hcur hcur' hsame =>
      rw [← hstack] at hcur hcur'
      exact .of_schedule hstatus huntimed hd (by rwa [hinterrupt]) hinv.sorted hcur (hframes.trans hcur')
        (hready.trans hsame) hphase'
  | @yields hd old hcur hcur' hafter hsame =>
      rw [← hstack] at hcur hcur'
      have hcur' := hframes.trans hcur'
      rw [← hinterrupt] at hafter
      have hon : s'.yields = true := by
        unfold yields
        rw [hafter]
      have hin' : CallFrame.InLoop base s'.frames := by
        rw [hcur', hcur]
        exact .handler old
      obtain ⟨hphase, hnext⟩ := next_of_yieldOnReturn hstatus hd (by rw [hafter])
      rw [← hphase'] at hnext
      exact .handles hphase hnext hin' (fun _ => ⟨old, hcur'.trans hcur⟩) (fun _ => hon) (fun _ => .inr hon)
        (hperm (by rw [← hinterrupt, hafter])) (by rw [hafter]; exact hinv.sorted) (by unfold now; rw [hafter]) []
        (by rw [hready, hsame, List.append_nil])
  | @returns hd old hcur hcur' hafter =>
      subst hafter
      obtain ⟨hphase, hnext⟩ := next_of_return hstatus hd (by rw [hinterrupt])
      refine .handles_waits ?_ (hphase'.trans hnext) (by rw [hframes, hcur']; exact .ends old) ?_
        (by rw [htimers']; exact .refl _) (by rw [hinterrupt]; exact hinv.sorted) (hnow' rfl) []
        (by rw [hready, List.append_nil])
      · rcases hphase with hphase | hphase
        · rw [hphase]
          decide
        · rw [hphase]
          decide
      · rintro (hne | hyes)
        · exact hyields'.trans (hreturns (hphase.resolve_left hne))
        · exact hyields'.trans hyes
  | goesOn hd hcur' hnow hstill added hsame =>
      have hphase : s.phase = .waits := by
        by_contra hne
        obtain ⟨old, htop⟩ := hhandler hne
        obtain ⟨x, hx⟩ := hd _ (hstack.symm.trans htop)
        exact hne (waits_of_semV hstatus hx)
      have hnext : s'.phase = .waits := by
        rw [hphase', TimerPhase.next_of_still hphase (by rw [hinterrupt, hstill.fired])]
      refine .handles_waits (by rw [hphase]; decide) hnext (by rwa [hframes]) ?_ (by rw [htimers']; exact hstill.timers)
        (by rw [hinterrupt]; exact hstill.sorted hinv.sorted) (hnow' hnow) added (hready.trans hsame)
      rintro (hne | hon)
      · exact absurd hphase hne
      · exact (hyields'.trans hstill.yields).trans hon

/-- A step keeps the invariant. -/
theorem Inv.step (hinv : s.Inv randomize) (hs : s.execution.Disciplined) (huntimed : d.Untimed)
    (h : s.step randomize random d = .ok s') : s'.Inv randomize := by
  obtain ⟨hstep, hphase'⟩ := step_eq_ok h
  cases hs.turn hstep with
  | switches hstack hthread hstacks hinterrupt hready =>
      exact (hinv.switch hstack hstacks hinterrupt hphase').1
  | @executes frame rest frames after hstack hrun hexecute hthread hframes hinterrupt hready hothers =>
      have hothers := hinv.others_of hthread hothers
      have hstack : s.frames = frame :: rest := hstack
      have hframes : s'.frames = frames ++ rest := hframes
      cases hinv.situation with
      | plain hplain hphase hyields hearly =>
          rw [hphase] at hexecute
          have hframe : frame.Plain := hplain frame (by rw [hstack]; exact List.mem_cons_self)
          exact hinv.plain_step hstack hplain hphase hyields hearly
            (Execution.execute_plain hframe hrun (hs.pre hstack) huntimed hexecute) hframes hinterrupt hready hothers
            hphase'
      | @idle below hidle hrest hnone hphase hyields hearly =>
          rw [hstack] at hidle
          obtain ⟨rfl, rfl⟩ := List.cons.inj hidle
          exact hinv.idle_step hrest hphase hearly hexecute hframes hinterrupt hothers hphase'
      | loop hbase hin hhandler hreturns hearly =>
          exact (hinv.loop_move hs huntimed hstack hbase hin hhandler hreturns hearly hexecute hframes hinterrupt hready
            hphase').inv hinv hbase hin hhandler hearly hothers hphase'

theorem inv_init (h : (timedRuns randomize sem).init s) : s.Inv randomize := by
  obtain ⟨hphase, random, d, hd, hstep⟩ := h
  have hs := Execution.initial_disciplined sem
  obtain ⟨hpos, hle⟩ := timeOfNextInterrupt_bounds randomize random
  cases hs.turn hstep with
  | switches hstack =>
      change [CallFrame.kernel, .threadFinish] = _ at hstack
      cases hstack
  | @executes frame rest frames after hstack hrun hexecute hthread hframes hinterrupt hready hothers =>
      have hstack : [CallFrame.kernel, .threadFinish] = frame :: rest := hstack
      obtain ⟨rfl, rfl⟩ := List.cons.inj hstack
      change Execution.kernelCall _ d.kernel = _ at hexecute
      rw [hd] at hexecute
      obtain ⟨interrupt, hschedule, rfl, rfl⟩ := Execution.schedule_eq_ok hexecute
      obtain ⟨-, rfl⟩ := Interrupt.schedule_eq_some hschedule
      have htimers : s.timers = [⟨0 + timeOfNextInterrupt randomize random,
          ⟨0, 0, 0, 0 + timeOfNextInterrupt randomize random, .timerInt⟩⟩] := by
        unfold timers
        rw [hinterrupt]
        rfl
      have hnow : s.now = 0 := by
        unfold now
        rw [hinterrupt]
        rfl
      have hframes : s.frames = [.kernel, .threadFinish] := hframes
      refine ⟨?_, .plain ?_ hphase ?_ ?_, ?_, ?_, ?_⟩
      · rw [hinterrupt]
        exact List.pairwise_singleton _ _
      · rw [hframes]
        simp [CallFrame.Plain]
      · unfold yields
        rw [hinterrupt]
        rfl
      · intro e he
        rw [htimers, List.mem_singleton] at he
        rw [he, hnow]
        show 0 ≤ 0 + timeOfNextInterrupt randomize random
        omega
      · intro t ht
        rw [hthread] at ht
        rcases hothers t ht with hsame | hsetup
        · rw [hsame, Execution.initial_stack sem t ht]
          simp
        · rw [hsetup]
          simp [CallFrame.Plain]
      · rw [hphase]
        exact fun h => by cases h
      · refine fun _ => ⟨_, htimers, ?_, ?_⟩
        · show 0 + timeOfNextInterrupt randomize random ≤ s.now + timerPeriod randomize
          omega
        · show s.now ≤ 0 + timeOfNextInterrupt randomize random + systemTick
          simp only [systemTick]
          omega

theorem reachable_inv (h : (timedRuns randomize sem).Reachable s) : s.Inv randomize := by
  refine h.invariant (fun _ => inv_init) fun s t hs hinv hstep => ?_
  obtain ⟨random, d, huntimed, hstep⟩ := hstep
  exact hinv.step (Execution.reachable_disciplined (reachable_execution hs)) huntimed hstep

end Step

/-- The time between two switches. -/
def slice (randomize : Bool) : Int := timerPeriod randomize + systemTick

/-- The current thread is going to give the processor away before the clock ticks again. -/
def Owes (s : TimedExecution Sem) : Prop :=
  s.phase ≠ .waits ∨ s.yields = true ∨ .idleLoop ∈ s.frames ∨ ∃ f rest, s.frames = f :: rest ∧ f.Gives

/-- A ready thread gets the processor at this time at the latest. -/
inductive Waits (randomize : Bool) (t : ThreadId) (deadline : Int) (s : TimedExecution Sem) : Prop where
  | chosen {rest : List (CallFrame Sem)} (hframes : s.frames = .schedulerRun t :: rest) (hnow : s.now ≤ deadline)
  | soon {i : Nat} (hready : s.execution.readyList[i]? = some t) (howes : s.Owes)
      (hnow : s.now + i * slice randomize ≤ deadline)
  | queued {i : Nat} (hready : s.execution.readyList[i]? = some t) {e : ListElement PendingInterrupt}
      (htimer : e ∈ s.timers) (hkey : e.key + systemTick + i * slice randomize ≤ deadline)

variable {t : ThreadId} {deadline : Int}

theorem slice_pos (randomize : Bool) : 0 ≤ slice randomize := by
  cases randomize <;> decide

/-- The timer is in time. -/
theorem Inv.late (hinv : s.Inv randomize) {e : ListElement PendingInterrupt} (he : e ∈ s.timers) :
    s.now ≤ e.key + systemTick := by
  by_cases hphase : s.phase = .expired
  · rw [hinv.expired hphase] at he
    cases he
  · obtain ⟨e', he', -, hlate⟩ := hinv.pending hphase
    rw [he', List.mem_singleton] at he
    rw [he]
    exact hlate

/-- In its place in the ready list a thread waits, while the current thread is about to give the processor away. -/
theorem Waits.of_owes (h : s.Waits randomize t deadline) (hinv : s.Inv randomize)
    (hrun : ∀ rest, s.frames ≠ .schedulerRun t :: rest) :
    ∃ i : Nat, s.execution.readyList[i]? = some t ∧ s.now + i * slice randomize ≤ deadline := by
  cases h with
  | chosen hframes => exact absurd hframes (hrun _)
  | @soon i hready _ hnow => exact ⟨i, hready, hnow⟩
  | @queued i hready e htimer hkey =>
      have := hinv.late htimer
      exact ⟨i, hready, by omega⟩

/-- The thread at the place `i` waits for so many slices, and for the present one. -/
theorem Inv.waits (hinv : s.Inv randomize) {i : Nat} (hready : s.execution.readyList[i]? = some t) :
    s.Waits randomize t (s.now + (i + 1) * slice randomize) := by
  have hslice := slice_pos randomize
  by_cases hphase : s.phase = .expired
  · refine .soon hready (.inl (by rw [hphase]; decide)) ?_
    rw [Int.add_mul, Int.one_mul]
    omega
  · obtain ⟨e, he, hkey, -⟩ := hinv.pending hphase
    refine .queued hready (e := e) (by rw [he]; exact List.mem_singleton_self e) ?_
    rw [Int.add_mul, Int.one_mul]
    unfold slice
    omega

theorem Waits.plain_step (h : s.Waits randomize t deadline) (hinv : s.Inv randomize) {frame : CallFrame Sem}
    {rest frames : List (CallFrame Sem)} {after : Execution Sem} (hstack : s.frames = frame :: rest)
    (hrun : ∀ next, frame ≠ .schedulerRun next) (hplain : ∀ f ∈ s.frames, f.Plain) (hphase : s.phase = .waits)
    (hyields : s.yields = false) (hearly : ∀ e ∈ s.timers, s.now ≤ e.key)
    (hstep : s.execution.PlainStep frame frames after) (hframes : s'.frames = frames ++ rest)
    (hinterrupt : s'.execution.interrupt = after.interrupt) (hready : s'.execution.readyList = after.readyList) :
    s'.Waits randomize t deadline := by
  have hslice := slice_pos randomize
  have htimers' : s.execution.interrupt.Still after.interrupt → ∀ e, e ∈ s'.timers ↔ e ∈ s.timers := by
    intro hstill e
    rw [show s'.timers = after.interrupt.timers from congrArg Interrupt.timers hinterrupt]
    exact hstill.timers.mem_iff
  have howes : s.Owes → frame.Gives := by
    rintro (hne | hon | hidle | ⟨f, below, hbelow, hgives⟩)
    · exact absurd hphase hne
    · rw [hyields] at hon
      cases hon
    · exact (hplain _ hidle).elim
    · rw [hstack] at hbelow
      obtain ⟨rfl, -⟩ := List.cons.inj hbelow
      exact hgives
  -- If the current thread need not give the processor away, a thread that waits has a place in the list.
  have hstays : (frame.Gives → s.execution.readyList = []) → ∃ (i : Nat) (e : ListElement PendingInterrupt),
      s.execution.readyList[i]? = some t ∧ e ∈ s.timers ∧ e.key + systemTick + i * slice randomize ≤ deadline := by
    intro hnone
    cases h with
    | chosen hchosen =>
        rw [hstack] at hchosen
        exact absurd (List.cons.inj hchosen).1 (hrun t)
    | @soon i hready hsoon hnow =>
        rw [hnone (howes hsoon)] at hready
        cases hready
    | @queued i hready e htimer hkey => exact ⟨i, e, hready, htimer, hkey⟩
  cases hstep with
  | goesOn hgives hmore hnow hstill added hadded =>
      obtain ⟨i, e, hplace, htimer, hkey⟩ := hstays hgives
      refine .queued ?_ ((htimers' hstill e).mpr htimer) hkey
      rw [hready, hadded, List.getElem?_append_left (List.getElem?_eq_some_iff.mp hplace).1]
      exact hplace
  | ticks hgives hold hmore hticks hnow hlater hstill hsame =>
      obtain ⟨i, e, hplace, htimer, hkey⟩ := hstays fun h => absurd h hgives
      refine .queued ?_ ((htimers' hstill e).mpr htimer) hkey
      rw [hready, hsame]
      exact hplace
  | idles hidle hnone hsame =>
      obtain ⟨i, e, hplace, -⟩ := hstays fun _ => hnone
      rw [hnone] at hplace
      cases hplace
  | @gives next remaining added more hmore hgives hbefore hafter hnow hstill =>
      -- The first thread of the list is chosen, and the others move up.
      have hnow' : s'.now = s.now := (congrArg Interrupt.totalTicks hinterrupt).trans hnow
      obtain ⟨e, he, hkey, -⟩ := hinv.pending (by rw [hphase]; decide)
      have htimer : e ∈ s.timers := by
        rw [he]
        exact List.mem_singleton_self e
      obtain ⟨i, hplace, hnow⟩ : ∃ i : Nat, s.execution.readyList[i]? = some t ∧
          s.now + i * slice randomize ≤ deadline := by
        cases h with
        | chosen hchosen =>
            rw [hstack] at hchosen
            exact absurd (List.cons.inj hchosen).1 (hrun t)
        | @soon i hplace _ hnow => exact ⟨i, hplace, hnow⟩
        | @queued i hplace e' htimer' hkey' =>
            have := hearly e' htimer'
            have : (0 : Int) ≤ systemTick := by decide
            exact ⟨i, hplace, by omega⟩
      rw [hbefore] at hplace
      cases i with
      | zero =>
          obtain rfl := Option.some.inj hplace
          refine .chosen (by rw [hframes, hgives]; rfl) ?_
          rw [hnow']
          simpa using hnow
      | succ i =>
          refine .queued ?_ ((htimers' hstill e).mpr htimer) (i := i) ?_
          · rw [List.getElem?_cons_succ] at hplace
            rw [hready, hafter, List.getElem?_append_left (List.getElem?_eq_some_iff.mp hplace).1]
            exact hplace
          · rw [Int.natCast_succ, Int.add_mul, Int.one_mul] at hnow
            unfold slice at hnow ⊢
            omega

theorem Waits.loop_step (h : s.Waits randomize t deadline) (hinv : s.Inv randomize)
    {base : List (CallFrame Sem)} (hbase : CallFrame.AtLoop base) (hin : CallFrame.InLoop base s.frames)
    (hphase' : s'.phase = s.phase.next s.execution s'.execution) (hmove : LoopMove randomize base s s') :
    s'.Waits randomize t deadline := by
  have hrun : ∀ rest, s.frames ≠ .schedulerRun t :: rest := by
    intro rest hframes
    rw [hframes] at hin
    exact (not_gives_of_inLoop hbase hin).2 t rfl
  have hnotgives : ∀ f rest, s.frames = f :: rest → ¬f.Gives := by
    intro f rest hframes
    rw [hframes] at hin
    exact (not_gives_of_inLoop hbase hin).1
  have hidle : ∀ {frames}, CallFrame.InLoop base frames → (.idleLoop ∈ frames ↔ .idleLoop ∈ base) := by
    intro frames hin
    cases hin with
    | check => exact Iff.rfl
    | _ => simp
  obtain ⟨hnow', added, hready⟩ : s'.now = s.now ∧ ∃ added,
      s'.execution.readyList = s.execution.readyList ++ added := by
    cases hmove with
    | fires _ _ _ _ _ _ hnow hready => exact ⟨hnow, [], by rw [hready, List.append_nil]⟩
    | ends _ _ _ _ _ _ _ _ _ hnow hready => exact ⟨hnow, [], by rw [hready, List.append_nil]⟩
    | expires _ _ _ _ _ _ _ hnow hready => exact ⟨hnow, [], by rw [hready, List.append_nil]⟩
    | handles _ _ _ _ _ _ _ _ hnow added hready => exact ⟨hnow, added, hready⟩
  have hplace' : ∀ {i : Nat}, s.execution.readyList[i]? = some t → s'.execution.readyList[i]? = some t := by
    intro i hplace
    rw [hready, List.getElem?_append_left (List.getElem?_eq_some_iff.mp hplace).1]
    exact hplace
  by_cases howes' : s'.Owes
  · obtain ⟨i, hplace, hnow⟩ := h.of_owes hinv hrun
    exact .soon (hplace' hplace) howes' (by rwa [hnow'])
  -- The current thread still owes the processor what it has owed, and the timer has not fired.
  have howes : ¬s.Owes := by
    intro howes
    apply howes'
    cases hmove with
    | fires hphase hframes hpending hfired hyields hframes' =>
        rcases howes with hne | hon | hmem | ⟨f, rest, hf, hgives⟩
        · exact absurd hphase hne
        · exact .inr (.inl (by rw [hyields, hon]))
        · rw [hframes] at hmem
          refine .inr (.inr (.inl ?_))
          rw [hframes']
          simpa using hmem
        · exact absurd hgives (hnotgives f rest hf)
    | ends hphase hwaits hframes htimers hsorted hlater hoff hplain hgives =>
        refine .inr (.inr (.inr (hgives ?_)))
        rcases howes with hne | hon | hmem | ⟨f, rest, hf, hgives⟩
        · exact absurd hphase hne
        · exact .inl hon
        · exact .inr (by rwa [hframes] at hmem)
        · exact absurd hgives (hnotgives f rest hf)
    | expires hphase hnext => exact .inl (by rw [hnext]; decide)
    | handles hphase hnext hin' hhandler' hreturns' howed =>
        rcases howes with hne | hon | hmem | ⟨f, rest, hf, hgives⟩
        · exact (howed (.inl hne)).imp_right .inl
        · exact (howed (.inr hon)).imp_right .inl
        · exact .inr (.inr (.inl ((hidle hin').mpr ((hidle hin).mp hmem))))
        · exact absurd hgives (hnotgives f rest hf)
  cases h with
  | chosen hframes => exact absurd hframes (hrun _)
  | soon _ hsoon => exact absurd hsoon howes
  | @queued i hplace e htimer hkey =>
      refine .queued (hplace' hplace) ?_ hkey
      cases hmove with
      | @fires hphase hframes old first time hpending hfired hyields hframes' =>
          have htimers : s.timers = if first.item.type = .timerInt then first :: s'.timers else s'.timers :=
            timers_cons hpending
          by_cases htype : first.item.type = .timerInt
          · refine absurd (.inl ?_) howes'
            rw [hphase', TimerPhase.next_of_fired hphase hfired, if_pos htype]
            decide
          · rw [if_neg htype] at htimers
            rwa [← htimers]
      | ends _ _ _ htimers => exact htimers.mem_iff.mpr htimer
      | expires hphase hnext => exact absurd (.inl (by rw [hnext]; decide)) howes'
      | handles _ _ _ _ _ _ htimers => exact htimers.mem_iff.mpr htimer

variable [DecidableEq Sem]

/-- Until it gets the processor a thread waits on. -/
theorem Waits.step (h : s.Waits randomize t deadline) (hinv : s.Inv randomize) (hs : s.execution.Disciplined)
    (huntimed : d.Untimed) (hstep : s.step randomize random d = .ok s') (hother : s'.execution.currentThread ≠ t) :
    s'.Waits randomize t deadline := by
  obtain ⟨hstep, hphase'⟩ := step_eq_ok hstep
  cases hs.turn hstep with
  | @switches next rest hstack hthread hstacks hinterrupt hready =>
      have hstack : s.frames = .schedulerRun next :: rest := hstack
      cases h with
      | chosen hframes =>
          rw [hstack] at hframes
          obtain ⟨hnext, -⟩ := List.cons.inj hframes
          cases hnext
          exact absurd hthread hother
      | soon _ howes =>
          exfalso
          cases hinv.situation with
          | plain hplain hphase hyields =>
              rcases howes with hne | hon | hmem | ⟨f, below, hf, hgives⟩
              · exact hne hphase
              · rw [hyields] at hon
                cases hon
              · exact hplain _ hmem
              · rw [hstack] at hf
                obtain ⟨rfl, -⟩ := List.cons.inj hf
                exact hgives
          | idle hframes =>
              rw [hstack] at hframes
              cases hframes
          | loop hbase hin =>
              rw [hstack] at hin
              exact (not_gives_of_inLoop hbase hin).2 next rfl
      | queued hplace htimer hkey =>
          refine .queued (by rwa [hready]) ?_ hkey
          rw [show s'.timers = s.timers from congrArg Interrupt.timers hinterrupt]
          exact htimer
  | @executes frame rest frames after hstack hrun hexecute hthread hframes hinterrupt hready hothers =>
      have hstack : s.frames = frame :: rest := hstack
      have hframes : s'.frames = frames ++ rest := hframes
      cases hinv.situation with
      | plain hplain hphase hyields hearly =>
          rw [hphase] at hexecute
          have hframe : frame.Plain := hplain frame (by rw [hstack]; exact List.mem_cons_self)
          exact h.plain_step hinv hstack hrun hplain hphase hyields hearly
            (Execution.execute_plain hframe hrun (hs.pre hstack) huntimed hexecute) hframes hinterrupt hready
      | idle hidle hrest hnone =>
          obtain ⟨i, hplace, -⟩ := h.of_owes hinv fun rest heq => by
            rw [hidle] at heq
            cases heq
          rw [hnone] at hplace
          cases hplace
      | loop hbase hin hhandler hreturns hearly =>
          exact h.loop_step hinv hbase hin hphase' (hinv.loop_move hs huntimed hstack hbase hin hhandler hreturns hearly
            hexecute hframes hinterrupt hready hphase')

end TimedExecution

end Nachos

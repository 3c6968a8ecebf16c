import Nachos.Scheduling

/-! The steps of the kernel, as a relation with one rule for each thing that can happen. The rules
name the state that results; `Inv.transition` says that there are no others. -/

namespace Nachos

variable {Sem κ ι σ ρ ω : Type}

namespace Kernel

variable [DecidableEq Sem]

/-- What the current thread `th` can do while it executes with continuation `kont`. -/
inductive Action (system : ThreadSystem Sem κ ι σ ρ ω) (s : Kernel Sem κ σ ρ ω)
    (th : Thread Sem κ σ ρ ω) : Kont Sem σ ρ ω → Kernel Sem κ σ ρ ω → Prop where
  | interrupt (p : Program Sem σ ρ ω) (i : ι) (shared : σ) (released : List Sem)
      (hhandler : system.handler i s.shared = some (shared, released)) :
      Action system s th (.tick p) (releaseAll released { s with shared := shared })
  | keep (p : Program Sem σ ρ ω) (hlist : s.readyList = []) : Action system s th (.tick p) s
  | preempt (p : Program Sem σ ρ ω) {t : Kernel Sem κ σ ρ ω} (hswitch : Switch s.yielded t) :
      Action system s th (.tick p) t
  | resume (p : Program Sem σ ρ ω) : Action system s th (.tick p) (s.setKont (.run p))
  | block (x : Sem) (k : Program Sem σ ρ ω) {kont : Kont Sem σ ρ ω} {t : Kernel Sem κ σ ρ ω}
      (hkont : kont = .run (.semP x k) ∨ kont = .sleep x k) (hvalue : (s.sem x).value = 0)
      (hswitch : Switch (s.queued x k).asleep t) :
      Action system s th kont t
  | pass (x : Sem) (k : Program Sem σ ρ ω) {kont : Kont Sem σ ρ ω}
      (hkont : kont = .run (.semP x k) ∨ kont = .sleep x k) (hvalue : (s.sem x).value ≠ 0) :
      Action system s th kont (s.passed x k)
  | release (x : Sem) (k : Program Sem σ ρ ω) : Action system s th (.run (.semV x k))
      ((s.semaphoreV x (some s.currentThread)).setKont (.tick k))
  | tick (k : Program Sem σ ρ ω) : Action system s th (.run (.tick k)) (s.setKont (.tick k))
  | yieldAlone (k : Program Sem σ ρ ω) (hlist : s.readyList = []) :
      Action system s th (.run (.yield k)) (s.setKont (.tick k))
  | yield (k : Program Sem σ ρ ω) {t : Kernel Sem κ σ ρ ω}
      (hswitch : Switch (s.setKont (.tick k)).yielded t) :
      Action system s th (.run (.yield k)) t
  | act (f : ThreadId → σ → ρ → σ × ρ × List ω) (k : ThreadId → σ → ρ → Program Sem σ ρ ω) :
      Action system s th (.run (.act f k))
        { s.setKont (.run (k s.currentThread s.shared s.machine)) with
          shared := (f s.currentThread s.shared s.machine).1
          machine := (f s.currentThread s.shared s.machine).2.1
          log := s.log ++ (f s.currentThread s.shared s.machine).2.2.map (.observed s.currentThread) }
  | create (k : Option ThreadId → Program Sem σ ρ ω) (u : ThreadId) (garbage : ρ) (hnull : u ≠ 0)
      (hfresh : s.thread u = none) :
      Action system s th (.run (.newThread k))
        { s.setKont (.run (k (some u))) with
          thread := Function.update (s.setKont (.run (k (some u)))).thread u
            (some ⟨.justCreated, th.space, system.construct garbage, .unstarted, none⟩)
          log := s.log ++ [.created u] }
  | createFails (k : Option ThreadId → Program Sem σ ρ ω) :
      Action system s th (.run (.newThread k)) (s.setKont (.run (k none)))
  | start (u : ThreadId) (body k : Program Sem σ ρ ω) (new : Thread Sem κ σ ρ ω)
      (hu : s.thread u = some new) (hnew : new.status = .justCreated) :
      Action system s th (.run (.start u body k)) (s.started u body k)
  | finish {t : Kernel Sem κ σ ρ ω} (hswitch : Switch s.finishing.asleep t) :
      Action system s th (.run .finish) t
  | halt : Action system s th (.run .halt)
      { s with halted := true, log := s.log ++ [.halted s.currentThread] }
  | call (c : κ) (hcall : th.call = none) : Action system s th (.run .ret)
      { s.modifyThread s.currentThread (fun th =>
          { th with kont := .run (system.menu c), call := some c }) with
        log := s.log ++ [.called s.currentThread c] }
  | return (c : κ) (hcall : th.call = some c) : Action system s th (.run .ret)
      { s.modifyThread s.currentThread (fun th => { th with call := none }) with
        log := s.log ++ [.returned s.currentThread c] }

/-- What a step that ends without a failed assertion does. -/
inductive Transition (system : ThreadSystem Sem κ ι σ ρ ω) (s : Kernel Sem κ σ ρ ω) :
    Kernel Sem κ σ ρ ω → Prop where
  | idleInterrupt (i : ι) (shared : σ) (released : List Sem) (hidling : s.idling = true)
      (hhandler : system.handler i s.shared = some (shared, released)) :
      Transition system s (releaseAll released { s with shared := shared })
  | dispatch {t : Kernel Sem κ σ ρ ω} (hidling : s.idling = true) (hswitch : Switch s t) :
      Transition system s t
  | act (th : Thread Sem κ σ ρ ω) {t : Kernel Sem κ σ ρ ω} (hidling : s.idling = false)
      (hcurrent : s.thread s.currentThread = some th) (haction : Action system s th th.kont t) :
      Transition system s t

/-- The assertions that a step can fail: the client's own, and that of `Start` when it is called on
no thread or on one that is no longer new. -/
inductive Misuse (s : Kernel Sem κ σ ρ ω) : Kont Sem σ ρ ω → Fault → Prop where
  | client : Misuse s (.run .abort) .client
  | dangling (u : ThreadId) (body k : Program Sem σ ρ ω) (hu : s.thread u = none) :
      Misuse s (.run (.start u body k)) .startDangling
  | restarted (u : ThreadId) (body k : Program Sem σ ρ ω) (new : Thread Sem κ σ ρ ω)
      (hu : s.thread u = some new) (hnew : new.status ≠ .justCreated) :
      Misuse s (.run (.start u body k)) .startStatus

variable {main : ThreadId} {s t : Kernel Sem κ σ ρ ω}

theorem Inv.action (system : ThreadSystem Sem κ ι σ ρ ω) (h : Inv main s) (hbusy : s.idling = false)
    {th : Thread Sem κ σ ρ ω} (hth : s.thread s.currentThread = some th)
    (haction : Action system s th th.kont t) : Inv main t := by
  have hkont : s.kontOf s.currentThread = some th.kont := by
    rw [kontOf, hth]
    rfl
  have hlevel : s.level = th.kont.level := (h.busy hbusy).2.2.2.1 _ hkont
  have hcurrent := h.placed.current
  generalize th.kont = kont at hkont hlevel haction
  cases haction with
  | interrupt p i shared released hhandler => exact h.interrupt shared released
  | keep p hlist => exact h
  | preempt p hswitch => exact h.preempt hbusy hkont hswitch
  | resume p => exact h.setKont hbusy trivial hlevel
  | block x k hwhere hvalue hswitch =>
      obtain ⟨hplaced, hquiet⟩ := h.queued hbusy x k
      exact hplaced.switch hquiet rfl (fun _ => rfl) hswitch
  | pass x k hwhere hvalue => exact h.passed hbusy x k
  | release x k =>
      obtain ⟨-, -, hidling, hsame⟩ := semaphoreV_fixed (s := s) x (some s.currentThread)
      exact (h.semaphoreV x _).setKont (hidling.trans hbusy) trivial (hsame.trans hlevel)
  | tick k => exact h.setKont hbusy trivial hlevel
  | yieldAlone k hlist => exact h.setKont hbusy trivial hlevel
  | yield k hswitch =>
      have hinv : Inv main (s.setKont (.tick k)) := h.setKont hbusy trivial hlevel
      refine hinv.preempt hbusy (p := k) ?_ hswitch
      rw [setKont_kontOf hcurrent]
      exact Function.update_self _ _ _
  | act f k =>
      have hinv : Inv main (s.setKont (.run (k s.currentThread s.shared s.machine))) :=
        h.setKont hbusy trivial hlevel
      exact hinv.emit (uneventful_observed _ _) _ _ _
  | create k u garbage hnull hfresh =>
      have hinv : Inv main (s.setKont (.run (k (some u)))) := h.setKont hbusy trivial hlevel
      refine hinv.create (u := u) ?_ ?_ ?_ rfl rfl rfl rfl rfl rfl rfl
      · rw [setKont_statusOf, statusOf, hfresh]
        rfl
      · funext v
        simp only [statusOf, Function.update_apply]
        split <;> rfl
      · funext v
        simp only [kontOf, Function.update_apply]
        split <;> rfl
  | createFails k => exact h.setKont hbusy trivial hlevel
  | start u body k new hu hnew =>
      refine h.started hbusy ?_ body k
      rw [statusOf, hu, ← hnew]
      rfl
  | finish hswitch =>
      obtain ⟨hplaced, hquiet⟩ := h.finishing hbusy
      exact hplaced.switch hquiet rfl (fun _ => rfl) hswitch
  | halt => exact h.emit ⟨rfl, rfl, rfl, rfl, rfl, rfl⟩ true s.shared s.machine
  | call c hcall =>
      refine h.proceed hbusy (.run (system.menu c)) [.called s.currentThread c]
        ⟨rfl, rfl, rfl, rfl, rfl, rfl⟩ trivial ?_ ?_ hlevel rfl hbusy rfl (fun _ => rfl) rfl rfl
      · exact (modifyThread_statusOf _ _).trans (Function.update_eq_self _ s.statusOf)
      · refine (modifyThread_kontOf _ _).trans ?_
        rw [hth]
        rfl
  | «return» c hcall =>
      refine h.proceed hbusy (.run .ret) [.returned s.currentThread c]
        ⟨rfl, rfl, rfl, rfl, rfl, rfl⟩ trivial ?_ ?_ hlevel rfl hbusy rfl (fun _ => rfl) rfl rfl
      · exact (modifyThread_statusOf _ _).trans (Function.update_eq_self _ s.statusOf)
      · rw [← hkont]
        exact modifyThread_kontOf _ _

theorem Inv.transition (system : ThreadSystem Sem κ ι σ ρ ω) (h : Inv main s)
    (htransition : Transition system s t) : Inv main t := by
  cases htransition with
  | idleInterrupt i shared released hidling hhandler => exact h.interrupt shared released
  | dispatch hidling hswitch =>
      exact h.placed.switch (h.idle hidling).2 (h.idle hidling).1 (fun _ => hidling) hswitch
  | act th hidling hcurrent haction => exact h.action system hidling hcurrent haction

/-- What the execution of the head of a program comes to. -/
theorem Inv.execute_cases (system : ThreadSystem Sem κ ι σ ρ ω) (h : Inv main s)
    (hbusy : s.idling = false) (hhalted : s.halted = false) {th : Thread Sem κ σ ρ ω}
    (hth : s.thread s.currentThread = some th) {p : Program Sem σ ρ ω} (hkont : th.kont = .run p)
    {choice : Choice κ ι ρ} {result : Except Fault (Kernel Sem κ σ ρ ω)}
    (hexec : s.execute system th p choice = some result) :
    (∃ t, result = .ok t ∧ Action system s th (.run p) t) ∨
      ∃ fault, result = .error fault ∧ Misuse s (.run p) fault := by
  have hkontOf : s.kontOf s.currentThread = some (.run p) := by
    rw [kontOf, hth, ← hkont]
    rfl
  have hlevel : s.level = .intOn := (h.busy hbusy).2.2.2.1 _ hkontOf
  cases p with
  | ret =>
      cases choice with
      | exec =>
          obtain ⟨c, hcall, rfl⟩ := Option.map_eq_some_iff.mp hexec
          exact .inl ⟨_, rfl, .return c hcall⟩
      | call c =>
          simp only [execute] at hexec
          split at hexec
          · rename_i hcall
            cases hexec
            exact .inl ⟨_, rfl, .call c (Option.isNone_iff_eq_none.mp hcall)⟩
          · cases hexec
      | _ => cases hexec
  | semP x k =>
      cases choice with
      | exec =>
          left
          cases hexec
          by_cases hvalue : (s.sem x).value = 0
          · obtain ⟨hplaced, -⟩ := h.queued hbusy x k
            obtain ⟨t, hsleep, hswitch⟩ := hplaced.sleep hhalted rfl
            refine ⟨t, ?_, .block x k (.inl rfl) hvalue hswitch⟩
            rw [← hsleep]
            exact semaphoreP_zero (s := { s with level := .intOff }) rfl hvalue k
          · exact ⟨_, semaphoreP_pass (s := { s with level := .intOff }) hvalue k,
              .pass x k (.inl rfl) hvalue⟩
      | _ => cases hexec
  | semV x k =>
      cases choice with
      | exec =>
          cases hexec
          exact .inl ⟨_, rfl, .release x k⟩
      | _ => cases hexec
  | tick k =>
      cases choice with
      | exec =>
          cases hexec
          exact .inl ⟨_, rfl, .tick k⟩
      | _ => cases hexec
  | yield k =>
      cases choice with
      | exec =>
          left
          cases hexec
          have hinv : Inv main (s.setKont (.tick k)) := h.setKont hbusy trivial hlevel
          have htick : (s.setKont (.tick k)).kontOf s.currentThread = some (.tick k) := by
            rw [setKont_kontOf h.placed.current]
            exact Function.update_self _ _ _
          rcases hinv.yield hbusy hhalted htick with ⟨heq, hlist⟩ | ⟨t, heq, hswitch⟩
          · exact ⟨_, heq, .yieldAlone k hlist⟩
          · exact ⟨t, heq, .yield k hswitch⟩
      | _ => cases hexec
  | act f k =>
      cases choice with
      | exec =>
          cases hexec
          exact .inl ⟨_, rfl, .act f k⟩
      | _ => cases hexec
  | newThread k =>
      cases choice with
      | alloc u garbage =>
          simp only [execute] at hexec
          split at hexec
          · rename_i hfresh
            cases hexec
            exact .inl ⟨_, rfl, .create k u garbage hfresh.1 hfresh.2⟩
          · cases hexec
      | allocFails =>
          cases hexec
          exact .inl ⟨_, rfl, .createFails k⟩
      | _ => cases hexec
  | start u body k =>
      cases choice with
      | exec =>
          cases hexec
          cases hu : s.thread u with
          | none =>
              refine .inr ⟨.startDangling, ?_, .dangling u body k hu⟩
              rw [Kernel.start, hu]
          | some new =>
              by_cases hnew : new.status = .justCreated
              · refine .inl ⟨_, ?_, .start u body k new hu hnew⟩
                rw [Kernel.start, hu]
                exact if_pos hnew
              · refine .inr ⟨.startStatus, ?_, .restarted u body k new hu hnew⟩
                rw [Kernel.start, hu]
                exact if_neg hnew
      | _ => cases hexec
  | finish =>
      cases choice with
      | exec =>
          left
          cases hexec
          obtain ⟨hplaced, -⟩ := h.finishing hbusy
          obtain ⟨t, hsleep, hswitch⟩ := hplaced.sleep hhalted rfl
          exact ⟨t, (h.finish hbusy).trans hsleep, .finish hswitch⟩
      | _ => cases hexec
  | halt =>
      cases choice with
      | exec =>
          cases hexec
          exact .inl ⟨_, rfl, .halt⟩
      | _ => cases hexec
  | abort =>
      cases choice with
      | exec =>
          cases hexec
          exact .inr ⟨.client, rfl, .client⟩
      | _ => cases hexec

/-- A step ends in one of the transitions, or fails an assertion through a misuse. -/
theorem Inv.step_cases (system : ThreadSystem Sem κ ι σ ρ ω) (h : Inv main s) {choice : Choice κ ι ρ}
    {result : Except Fault (Kernel Sem κ σ ρ ω)} (hstep : s.step system choice = some result) :
    s.halted = false ∧ ((∃ t, result = .ok t ∧ Transition system s t) ∨
      ∃ kont fault, s.idling = false ∧ s.kontOf s.currentThread = some kont ∧
        result = .error fault ∧ Misuse s kont fault) := by
  unfold step at hstep
  split at hstep
  · cases hstep
  rename_i hhalted
  have hhalted : s.halted = false := Bool.eq_false_iff.mpr hhalted
  refine ⟨hhalted, ?_⟩
  cases hcurrent : s.thread s.currentThread with
  | none => simp [hcurrent] at hstep
  | some th =>
      rw [hcurrent] at hstep
      dsimp only at hstep
      split at hstep
      · rename_i hidling
        left
        cases choice with
        | interrupt i =>
            obtain ⟨⟨shared, released⟩, heffect, rfl⟩ := Option.map_eq_some_iff.mp hstep
            exact ⟨_, rfl, .idleInterrupt i shared released hidling heffect⟩
        | dispatch =>
            cases hlist : s.readyList with
            | nil => simp [findNextToRun_nil hlist] at hstep
            | cons next rest =>
                obtain ⟨hlevel, hquiet⟩ := h.idle hidling
                obtain ⟨th, hth, hrun⟩ := h.placed.run hlist hlevel
                rw [findNextToRun_cons hhalted hlist, Option.map_some, hrun] at hstep
                cases hstep
                exact ⟨_, rfl, .dispatch hidling (.run next rest th hlist hth)⟩
        | _ => cases hstep
      · rename_i hidling
        have hbusy : s.idling = false := Bool.eq_false_iff.mpr hidling
        have hkont : s.kontOf s.currentThread = some th.kont := by
          rw [kontOf, hcurrent]
          rfl
        have hact : (∃ t, result = .ok t ∧ Action system s th th.kont t) ∨
            ∃ fault, result = .error fault ∧ Misuse s th.kont fault := by
          cases hwhere : th.kont with
          | run p =>
              rw [hwhere] at hstep
              exact h.execute_cases system hbusy hhalted hcurrent hwhere hstep
          | tick p =>
              left
              rw [hwhere] at hstep hkont
              cases choice with
              | interrupt i =>
                  obtain ⟨⟨shared, released⟩, heffect, rfl⟩ := Option.map_eq_some_iff.mp hstep
                  exact ⟨_, rfl, .interrupt p i shared released heffect⟩
              | preempt =>
                  cases hstep
                  rcases h.yield hbusy hhalted hkont with ⟨heq, hlist⟩ | ⟨t, heq, hswitch⟩
                  · exact ⟨_, heq, .keep p hlist⟩
                  · exact ⟨t, heq, .preempt p hswitch⟩
              | resume =>
                  cases hstep
                  exact ⟨_, rfl, .resume p⟩
              | _ => cases hstep
          | sleep x k =>
              left
              rw [hwhere] at hstep hkont
              have hlevel : s.level = .intOff := (h.busy hbusy).2.2.2.1 _ hkont
              cases choice with
              | exec =>
                  cases hstep
                  by_cases hvalue : (s.sem x).value = 0
                  · obtain ⟨hplaced, -⟩ := h.queued hbusy x k
                    obtain ⟨t, hsleep, hswitch⟩ := hplaced.sleep hhalted rfl
                    exact ⟨t, (semaphoreP_zero hlevel hvalue k).trans hsleep,
                      .block x k (.inr rfl) hvalue hswitch⟩
                  · exact ⟨_, semaphoreP_pass hvalue k, .pass x k (.inr rfl) hvalue⟩
              | _ => cases hstep
          | _ =>
              rw [hwhere] at hstep
              cases hstep
        rcases hact with ⟨t, rfl, haction⟩ | ⟨fault, rfl, hmisuse⟩
        · exact .inl ⟨t, rfl, .act th hbusy hcurrent haction⟩
        · exact .inr ⟨th.kont, fault, hbusy, hkont, rfl, hmisuse⟩

theorem step_transition {system : ThreadSystem Sem κ ι σ ρ ω} (h : Inv main s)
    {choice : Choice κ ι ρ} (hstep : s.step system choice = some (.ok t)) :
    s.halted = false ∧ Transition system s t := by
  obtain ⟨hhalted, ⟨t', heq, htransition⟩ | ⟨_, fault, _, _, heq, _⟩⟩ := h.step_cases system hstep
  · cases heq
    exact ⟨hhalted, htransition⟩
  · cases heq

theorem reachable_inv {system : ThreadSystem Sem κ ι σ ρ ω} {space : Bool}
    (h : (kernel system space).Reachable s) : Inv system.main s := by
  refine h.invariant ?_ ?_
  · rintro s rfl
    exact initial_inv system space
  · rintro s t - hinv ⟨choice, hstep⟩
    exact hinv.transition system (step_transition hinv hstep).2

/-- The state that a list of choices leads to, when every one of them applies and no assertion fails. -/
def runChoices (system : ThreadSystem Sem κ ι σ ρ ω) :
    List (Choice κ ι ρ) → Kernel Sem κ σ ρ ω → Option (Kernel Sem κ σ ρ ω)
  | [], s => some s
  | choice :: rest, s =>
      match s.step system choice with
      | some (.ok t) => runChoices system rest t
      | _ => none

theorem steps_runChoices {system : ThreadSystem Sem κ ι σ ρ ω} {space : Bool} {choices : List (Choice κ ι ρ)}
    (hrun : runChoices system choices s = some t) : Relation.ReflTransGen (kernel system space).step s t := by
  induction choices generalizing s with
  | nil =>
      cases hrun
      exact .refl
  | cons choice rest ih =>
      unfold runChoices at hrun
      split at hrun
      · rename_i next hstep
        exact .head ⟨choice, hstep⟩ (ih hrun)
      · cases hrun

theorem reachable_runChoices {system : ThreadSystem Sem κ ι σ ρ ω} {space : Bool}
    {choices : List (Choice κ ι ρ)} (hs : (kernel system space).Reachable s)
    (hrun : runChoices system choices s = some t) : (kernel system space).Reachable t :=
  hs.steps (steps_runChoices hrun)

/-- What the scheduler guarantees between two of its operations. -/
structure WellScheduled (system : ThreadSystem Sem κ ι σ ρ ω) (s : Kernel Sem κ σ ρ ω) : Prop where
  /-- While the processor does not idle the current thread is the only one that is running. -/
  running : s.idling = false → ∀ t, s.statusOf t = some .running ↔ t = s.currentThread
  /-- The ready list has every ready thread once and nothing else. -/
  ready : ∀ t, s.readyList.count t = if s.statusOf t = some .ready then 1 else 0
  /-- A blocked thread is once on one queue, or it has finished and is on none. -/
  blocked : ∀ t, s.statusOf t = some .blocked →
    (∃ x, (s.sem x).queue.count t = 1 ∧ ∀ y, t ∈ (s.sem y).queue → y = x) ∨
      (s.threadToBeDestroyed = some t ∧ ∀ y, t ∉ (s.sem y).queue)
  /-- Only blocked threads are on the queues. -/
  queued : ∀ x t, t ∈ (s.sem x).queue → s.statusOf t = some .blocked
  /-- Every thread that was constructed, and the main thread, is still there or was deleted. -/
  existence : ∀ t, (createdThreads s.log).count t + (if t = system.main then 1 else 0) =
    (destroyedThreads s.log).count t + (if (s.thread t).isSome then 1 else 0)
  /-- A thread is deleted only after it called `Finish`. -/
  finished : ∀ t, (destroyedThreads s.log).count t ≤ (finishedThreads s.log).count t
  /-- Threads get the processor in the order in which they were put on the ready list. -/
  order : dispatchedThreads s.log ++ s.readyList = readiedThreads s.log
  /-- The assertions of `Finish`, `~Thread`, `Sleep` and `Run` hold. -/
  asserts : ∀ choice fault, s.step system choice = some (.error fault) →
    fault = .client ∨ fault = .startDangling ∨ fault = .startStatus
  /-- The assertion of `Start` can fail only for a thread that was started before. -/
  starts : ∀ choice, s.step system choice = some (.error .startStatus) →
    ∃ t body k, s.kontOf s.currentThread = some (.run (.start t body k)) ∧
      (createdThreads s.log).count t ≤ (startedThreads s.log).count t

/-- In every run, for every number of threads and every program, the scheduler neither loses nor
duplicates a thread, and its assertions hold. -/
theorem every_thread_in_its_place {system : ThreadSystem Sem κ ι σ ρ ω} {space : Bool}
    (h : (kernel system space).Reachable s) : WellScheduled system s := by
  have hinv := reachable_inv h
  refine ⟨?_, hinv.ready_count, fun _ => hinv.blocked_place, ?_, ?_, ?_, hinv.placed.order.symm, ?_, ?_⟩
  · intro hbusy t
    obtain ⟨-, hrunning, -, -, honly⟩ := hinv.busy hbusy
    exact ⟨honly t, fun heq => heq ▸ hrunning⟩
  · exact fun x t hmem => ((hinv.placed.queueMem x t).mp hmem).1
  · intro t
    have hold := hinv.placed.existence t
    rwa [statusOf, Option.isSome_map] at hold
  · intro t
    exact (hinv.placed.finishes t).symm ▸ Nat.le_add_right _ _
  · intro choice fault hstep
    obtain ⟨-, ⟨t, heq, -⟩ | ⟨_, _, -, -, heq, hmisuse⟩⟩ := hinv.step_cases system hstep
    · cases heq
    · cases heq
      cases hmisuse with
      | client => exact .inl rfl
      | dangling u body k hu => exact .inr (.inl rfl)
      | restarted u body k new hu hnew => exact .inr (.inr rfl)
  · intro choice hstep
    obtain ⟨-, ⟨t, heq, -⟩ | ⟨_, _, -, hkont, heq, hmisuse⟩⟩ := hinv.step_cases system hstep
    · cases heq
    · cases heq
      cases hmisuse with
      | restarted u body k new hu hnew =>
          refine ⟨u, body, k, hkont, ?_⟩
          have hnot : s.statusOf u ≠ some .justCreated := by
            rw [statusOf, hu]
            exact fun heq => hnew (Option.some.inj heq)
          have hstarts := hinv.placed.starts u
          rw [if_neg hnot] at hstarts
          exact hstarts.le

end Kernel

/-- `SimpleThread` of `threads/threadtest.cc`: each line it prints is followed by a `Yield`. -/
def simpleThread (which : Nat) (k : Program Empty Unit Unit (Nat × Nat)) :
    Nat → Program Empty Unit Unit (Nat × Nat)
  | 0 => k
  | left + 1 =>
      .act (fun _ _ _ => ((), (), [(which, 9 - left)])) fun _ _ _ => .yield (simpleThread which k left)

/-- `ThreadTest`: two threads are forked and the main thread runs the same loop. -/
def threadTest : ThreadSystem Empty Unit Empty Unit Unit (Nat × Nat) where
  menu _ := .newThread fun
    | none => .abort
    | some t => .start t (simpleThread 1 .finish 10) <| .newThread fun
        | none => .abort
        | some t2 => .start t2 (simpleThread 2 .finish 10) (simpleThread 0 .ret 10)
  handler i := i.elim
  initialValue x := x.elim
  initialShared := ()
  initialPrivate := ()
  construct := id
  main := 1

/-- Both threads of `ThreadTest` are forked and every thread prints its first line. -/
def threadTestRun : List (Choice Unit Empty Unit) :=
  [.call (), .alloc 2 (), .exec, .resume, .alloc 3 (), .exec, .resume, .exec, .exec, .resume, .exec,
    .exec, .resume, .exec, .exec]

theorem every_thread_in_its_place_threadTest :
    ∃ s, Kernel.runChoices threadTest threadTestRun (Kernel.initial threadTest false) = some s ∧
      s.currentThread = 1 ∧ s.readyList = [2, 3] ∧ Kernel.WellScheduled threadTest s := by
  obtain ⟨s, hrun, hcurrent, hready⟩ : ∃ s, Kernel.runChoices threadTest threadTestRun
      (Kernel.initial threadTest false) = some s ∧ s.currentThread = 1 ∧ s.readyList = [2, 3] :=
    ⟨_, rfl, rfl, rfl⟩
  have hinit : (kernel threadTest false).Reachable (Kernel.initial threadTest false) := .init rfl
  exact ⟨s, hrun, hcurrent, hready,
    Kernel.every_thread_in_its_place (Kernel.reachable_runChoices hinit hrun)⟩

end Nachos

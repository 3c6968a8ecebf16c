import Nachos.CriticalSection

/-! Programs whose assertions hold. Threads use a device under a lock: the holder of the lock makes a request when none
is open and waits for its completion at a semaphore. The code of a thread may rely on this, on an invariant of the
shared memory, and on the newness of a thread that it has created and not yet started; it fails an assertion only for
the reasons that the discipline gives. -/

/-- A device under a lock, with the semaphore of its completions and the number of requests that it is at work on; the
invariant of the shared memory; and the reasons for which a program may fail, in its shared and private memory and in
what it has shown last. -/
structure Discipline (Sem σ ρ ω : Type) where
  lock : Sem
  done : Sem
  distinct : lock ≠ done
  pending : σ → Nat
  Inv : σ → Prop
  Refuses : σ → ρ → List ω → Prop

/-- A thread does not hold the lock, holds it, or holds it and waits for the completion of its request. -/
inductive DeviceStage where
  | outside
  | inside
  | waiting
  deriving DecidableEq

variable {Sem κ ι σ ρ ω : Type}

namespace Discipline

/-- What an action does to the requests. -/
inductive Moves (d : Discipline Sem σ ρ ω) (shared shared' : σ) : DeviceStage → DeviceStage → Prop where
  | stays {stage : DeviceStage} (hpending : d.pending shared' = d.pending shared) : Moves d shared shared' stage stage
  | requests (hmore : d.pending shared' = d.pending shared + 1) : Moves d shared shared' .inside .waiting

/-- What an interrupt does to the requests. -/
inductive Answers (d : Discipline Sem σ ρ ω) (shared shared' : σ) : List Sem → Prop where
  | other {released : List Sem} (hpending : d.pending shared' = d.pending shared) (hlock : d.lock ∉ released)
      (hdone : d.done ∉ released) : Answers d shared shared' released
  | one (hless : d.pending shared = d.pending shared' + 1) : Answers d shared shared' [d.done]

end Discipline

/-- The program of a thread at this stage, with the thread that it has created and not yet started and with its private
memory, heeds the discipline. -/
def Program.Heeds [DecidableEq Sem] (d : Discipline Sem σ ρ ω) (stage : DeviceStage) (created : Option ThreadId)
    (priv : ρ) : Program Sem σ ρ ω → Prop
  | .ret => stage = .outside ∧ created = none
  | .semP x k => created = none ∧
      if x = d.lock then stage = .outside ∧ k.Heeds d .inside none priv
      else if x = d.done then stage = .waiting ∧ k.Heeds d .inside none priv
      else k.Heeds d stage none priv
  | .semV x k => created = none ∧
      if x = d.lock then stage = .inside ∧ k.Heeds d .outside none priv
      else x ≠ d.done ∧ k.Heeds d stage none priv
  | .tick k => created = none ∧ k.Heeds d stage none priv
  | .yield k => created = none ∧ k.Heeds d stage none priv
  | .act f k => ∀ t shared, d.Inv shared → (stage = .inside → d.pending shared = 0) →
      d.Inv (f t shared priv).1 ∧ ∃ stage', d.Moves shared (f t shared priv).1 stage stage' ∧
        (k t shared priv = .abort ∧ d.Refuses (f t shared priv).1 (f t shared priv).2.1 (f t shared priv).2.2 ∨
          (k t shared priv).Heeds d stage' created (f t shared priv).2.1)
  | .newThread k => created = none ∧ ∀ u, (k u).Heeds d stage u priv
  | .start u body k => created = some u ∧ (∀ r, body.Heeds d .outside none r) ∧ k.Heeds d stage none priv
  | .finish => stage = .outside ∧ created = none
  | .halt => True
  | .abort => False

/-- A system whose programs heed the discipline. -/
structure Discipline.Governs [DecidableEq Sem] (d : Discipline Sem σ ρ ω) (system : ThreadSystem Sem κ ι σ ρ ω) :
    Prop where
  menu : ∀ c priv, (system.menu c).Heeds d .outside none priv
  handler : ∀ i shared shared' released, system.handler i shared = some (shared', released) → d.Inv shared →
    d.Inv shared' ∧ d.Answers shared shared' released
  inv : d.Inv system.initialShared
  lock : system.initialValue d.lock = 1
  done : system.initialValue d.done = 0
  pending : d.pending system.initialShared = 0

namespace Interleaving

section Heeds

variable [DecidableEq Sem] {d : Discipline Sem σ ρ ω} {stage : DeviceStage} {priv : ρ} {x : Sem}
  {k : Program Sem σ ρ ω}

theorem heeds_lock (h : k.Heeds d .inside none priv) : (Program.semP d.lock k).Heeds d .outside none priv :=
  ⟨rfl, by rw [if_pos rfl]; exact ⟨rfl, h⟩⟩

theorem heeds_done (h : k.Heeds d .inside none priv) : (Program.semP d.done k).Heeds d .waiting none priv :=
  ⟨rfl, by rw [if_neg d.distinct.symm, if_pos rfl]; exact ⟨rfl, h⟩⟩

theorem heeds_semP (hlock : x ≠ d.lock) (hdone : x ≠ d.done) (h : k.Heeds d stage none priv) :
    (Program.semP x k).Heeds d stage none priv :=
  ⟨rfl, by rw [if_neg hlock, if_neg hdone]; exact h⟩

theorem heeds_unlock (h : k.Heeds d .outside none priv) : (Program.semV d.lock k).Heeds d .inside none priv :=
  ⟨rfl, by rw [if_pos rfl]; exact ⟨rfl, h⟩⟩

theorem heeds_semV (hlock : x ≠ d.lock) (hdone : x ≠ d.done) (h : k.Heeds d stage none priv) :
    (Program.semV x k).Heeds d stage none priv :=
  ⟨rfl, by rw [if_neg hlock]; exact ⟨hdone, h⟩⟩

end Heeds

/-- At most one thread has the lock, and at most one request is open, which that thread waits for. -/
inductive InUse (d : Discipline Sem σ ρ ω) (s : State Sem κ σ ρ ω) (stage : ThreadId → DeviceStage) : Prop where
  | free (hlock : s.value d.lock = 1) (hdone : s.value d.done = 0) (hpending : d.pending s.shared = 0)
      (hstage : stage = fun _ => .outside)
  | inside (t : ThreadId) (hlock : s.value d.lock = 0) (hdone : s.value d.done = 0)
      (hpending : d.pending s.shared = 0) (hstage : stage = Function.update (fun _ => .outside) t .inside)
  | waiting (t : ThreadId) (hlock : s.value d.lock = 0) (hopen : s.value d.done + d.pending s.shared = 1)
      (hone : d.pending s.shared ≤ 1) (hstage : stage = Function.update (fun _ => .outside) t .waiting)

/-- What a thread is about to do: something that heeds the discipline, or it fails for a reason. -/
inductive Doing [DecidableEq Sem] (d : Discipline Sem σ ρ ω) (s : State Sem κ σ ρ ω) (stage : DeviceStage)
    (t : ThreadId) (priv : ρ) (p : Program Sem σ ρ ω) : Prop where
  | heeds (created : Option ThreadId) (h : p.Heeds d stage created priv)
      (hcreated : ∀ u, created = some u → s.cpu = some t ∧ ∃ new, s.thread u = some new ∧ new.code = none)
  | refused (hp : p = .abort) (hcpu : s.cpu = some t) (shown : List ω) (before : List (Event Sem κ ω))
      (hlog : s.log = before ++ shown.map (.observed t)) (hrefuses : d.Refuses s.shared priv shown)

/-- Every thread is at a stage and heeds the discipline. -/
structure Sound [DecidableEq Sem] (d : Discipline Sem σ ρ ω) (s : State Sem κ σ ρ ω) (stage : ThreadId → DeviceStage) :
    Prop where
  inv : d.Inv s.shared
  inUse : InUse d s stage
  doing : ∀ t th p, s.thread t = some th → th.code = some p → Doing d s (stage t) t th.priv p
  vacant : ∀ t, (∀ th, s.thread t = some th → th.code = none) → stage t = .outside

section InUse

variable {d : Discipline Sem σ ρ ω} {s s' : State Sem κ σ ρ ω} {stage : ThreadId → DeviceStage} {t : ThreadId}

theorem InUse.congr (h : InUse d s stage) (hlock : s'.value d.lock = s.value d.lock)
    (hdone : s'.value d.done = s.value d.done) (hpending : d.pending s'.shared = d.pending s.shared) :
    InUse d s' stage := by
  cases h with
  | free hl hd hp hstage => exact .free (hlock.trans hl) (hdone.trans hd) (hpending.trans hp) hstage
  | inside t hl hd hp hstage => exact .inside t (hlock.trans hl) (hdone.trans hd) (hpending.trans hp) hstage
  | waiting t hl hopen hone hstage =>
      refine .waiting t (hlock.trans hl) ?_ ?_ hstage
      · rw [hdone, hpending]
        exact hopen
      · rw [hpending]
        exact hone

/-- The stage of a thread tells who has the lock. -/
theorem InUse.of_inside (h : InUse d s stage) (ht : stage t = .inside) :
    s.value d.lock = 0 ∧ s.value d.done = 0 ∧ d.pending s.shared = 0 ∧
      stage = Function.update (fun _ => .outside) t .inside := by
  cases h with
  | free hlock hdone hpending hstage =>
      rw [hstage] at ht
      cases ht
  | inside u hlock hdone hpending hstage =>
      have htu : t = u := by
        by_contra hne
        rw [hstage, Function.update_of_ne hne] at ht
        cases ht
      rw [htu]
      exact ⟨hlock, hdone, hpending, hstage⟩
  | waiting u hlock hopen hone hstage =>
      rw [hstage, Function.update_apply] at ht
      split at ht <;> cases ht

theorem InUse.of_waiting (h : InUse d s stage) (ht : stage t = .waiting) :
    s.value d.lock = 0 ∧ s.value d.done + d.pending s.shared = 1 ∧ d.pending s.shared ≤ 1 ∧
      stage = Function.update (fun _ => .outside) t .waiting := by
  cases h with
  | free hlock hdone hpending hstage =>
      rw [hstage] at ht
      cases ht
  | inside u hlock hdone hpending hstage =>
      rw [hstage, Function.update_apply] at ht
      split at ht <;> cases ht
  | waiting u hlock hopen hone hstage =>
      have htu : t = u := by
        by_contra hne
        rw [hstage, Function.update_of_ne hne] at ht
        cases ht
      rw [htu]
      exact ⟨hlock, hopen, hone, hstage⟩

/-- A thread acquires the lock. -/
theorem InUse.acquire (h : InUse d s stage) (hvalue : s.value d.lock ≠ 0)
    (hlock : s'.value d.lock = s.value d.lock - 1) (hdone : s'.value d.done = s.value d.done)
    (hshared : s'.shared = s.shared) : InUse d s' (Function.update stage t .inside) := by
  cases h with
  | free hl hd hp hstage =>
      refine .inside t (by omega) (hdone.trans hd) (hshared ▸ hp) ?_
      rw [hstage]
  | inside u hl => exact absurd hl hvalue
  | waiting u hl => exact absurd hl hvalue

theorem InUse.release (h : InUse d s stage) (ht : stage t = .inside) (hlock : s'.value d.lock = s.value d.lock + 1)
    (hdone : s'.value d.done = s.value d.done) (hshared : s'.shared = s.shared) :
    InUse d s' (Function.update stage t .outside) := by
  obtain ⟨hl, hd, hp, hstage⟩ := h.of_inside ht
  refine .free (by omega) (hdone.trans hd) (hshared ▸ hp) ?_
  rw [hstage, Function.update_idem]
  exact Function.update_eq_self t _

/-- A thread takes the completion of its request. -/
theorem InUse.complete (h : InUse d s stage) (ht : stage t = .waiting) (hvalue : s.value d.done ≠ 0)
    (hlock : s'.value d.lock = s.value d.lock)
    (hdone : s'.value d.done = s.value d.done - 1) (hshared : s'.shared = s.shared) :
    InUse d s' (Function.update stage t .inside) := by
  obtain ⟨hl, hopen, hone, hstage⟩ := h.of_waiting ht
  refine .inside t (hlock.trans hl) (by omega) ?_ ?_
  · rw [hshared]
    omega
  · rw [hstage, Function.update_idem]

theorem InUse.moves (h : InUse d s stage) {stage' : DeviceStage}
    (hmoves : d.Moves s.shared s'.shared (stage t) stage') (hlock : s'.value d.lock = s.value d.lock)
    (hdone : s'.value d.done = s.value d.done) : InUse d s' (Function.update stage t stage') := by
  generalize hbefore : stage t = before at hmoves
  cases hmoves with
  | stays hpending =>
      rw [← hbefore, Function.update_eq_self]
      exact h.congr hlock hdone hpending
  | requests hmore =>
      obtain ⟨hl, hd, hp, hstage⟩ := h.of_inside hbefore
      refine .waiting t (hlock.trans hl) ?_ ?_ ?_
      · rw [hdone, hd, hmore, hp]
        rfl
      · omega
      · rw [hstage, Function.update_idem]

theorem InUse.answer [DecidableEq Sem] (h : InUse d s stage) {shared : σ} {released : List Sem}
    (hanswers : d.Answers s.shared shared released) : InUse d (afterInterrupt s shared released) stage := by
  cases hanswers with
  | other hpending hlock hdone =>
      exact h.congr (releaseAll_unlisted hlock s.value) (releaseAll_unlisted hdone s.value) hpending
  | one hless =>
      have hvalue : (afterInterrupt s shared [d.done]).value d.done = s.value d.done + 1 :=
        Function.update_self _ _ _
      have hlock : (afterInterrupt s shared [d.done]).value d.lock = s.value d.lock :=
        Function.update_of_ne d.distinct _ _
      cases h with
      | free hl hd hp hstage => omega
      | inside t hl hd hp hstage => omega
      | waiting t hl hopen hone hstage =>
          refine .waiting t (hlock.trans hl) ?_ ?_ hstage
          · rw [hvalue]
            show s.value d.done + 1 + d.pending shared = 1
            omega
          · show d.pending shared ≤ 1
            omega

end InUse

section Sound

variable [DecidableEq Sem] {d : Discipline Sem σ ρ ω} {system : ThreadSystem Sem κ ι σ ρ ω}
  {s s' : State Sem κ σ ρ ω} {stage : ThreadId → DeviceStage} {t : ThreadId} {th : Thread Sem κ σ ρ ω}
  {p : Program Sem σ ρ ω}

/-- The other threads are as they were, or they are threads that had no program. -/
def OthersHeed (d : Discipline Sem σ ρ ω) (s s' : State Sem κ σ ρ ω) (t : ThreadId) : Prop :=
  ∀ u, u ≠ t → s'.thread u = s.thread u ∨ (∀ th, s.thread u = some th → th.code = none) ∧
    ∀ th p, s'.thread u = some th → th.code = some p → p.Heeds d .outside none th.priv

theorem othersHeed_of_setThread {new : Option (Thread Sem κ σ ρ ω)}
    (hthread : s'.thread = Function.update s.thread t new) : OthersHeed d s s' t := by
  intro u hu
  rw [hthread, Function.update_of_ne hu]
  exact .inl rfl

theorem Runs.othersHeed {before : DeviceStage} {created : Option ThreadId} {priv : ρ}
    (hruns : Runs system s t th p s') (hheeds : p.Heeds d before created priv) : OthersHeed d s s' t := by
  intro u hu
  rcases hruns.others u hu with hsame | ⟨hvacant, hfresh⟩
  · exact .inl hsame
  · refine .inr ⟨hvacant, ?_⟩
    intro new q hnew hq
    obtain ⟨k, rfl⟩ := hfresh new q hnew hq
    exact hheeds.2.1 new.priv

/-- The threads other than the one that has the processor have created no thread, and they do not fail. -/
theorem Doing.bystander {before : DeviceStage} {u : ThreadId} {priv : ρ} (h : Doing d s before u priv p)
    (hcpu : s.cpu ≠ some u) : p.Heeds d before none priv := by
  cases h with
  | heeds created h hcreated =>
      cases created with
      | none => exact h
      | some v => exact absurd (hcreated v rfl).1 hcpu
  | refused hp hbusy => exact absurd hbusy hcpu

/-- The thread that has the processor goes on. -/
theorem Sound.go_on (h : Sound d s stage) (hcpu : s.cpu = some t) {after : DeviceStage} {new : Thread Sem κ σ ρ ω}
    (hnew : s'.thread t = some new) (hcode : new.code = some p) (hdoing : Doing d s' after t new.priv p)
    (hothers : OthersHeed d s s' t) (hinv : d.Inv s'.shared)
    (hinUse : InUse d s' (Function.update stage t after)) : Sound d s' (Function.update stage t after) := by
  refine ⟨hinv, hinUse, ?_, ?_⟩
  · intro u th q hu hq
    by_cases hut : u = t
    · subst hut
      rw [hnew] at hu
      cases hu
      rw [hcode] at hq
      cases hq
      rw [Function.update_self]
      exact hdoing
    · rw [Function.update_of_ne hut]
      rcases hothers u hut with hsame | ⟨hvacant, hfresh⟩
      · have hnot : s.cpu ≠ some u := by
          rw [hcpu]
          exact fun heq => hut (Option.some.inj heq).symm
        exact .heeds none ((h.doing u th q (hsame.symm.trans hu) hq).bystander hnot) (fun _ heq => by cases heq)
      · rw [h.vacant u hvacant]
        exact .heeds none (hfresh th q hu hq) (fun _ heq => by cases heq)
  · intro u hvacant
    by_cases hut : u = t
    · subst hut
      have hnone := hvacant new hnew
      rw [hcode] at hnone
      cases hnone
    · rw [Function.update_of_ne hut]
      rcases hothers u hut with hsame | ⟨hvacant', -⟩
      · exact h.vacant u (hsame ▸ hvacant)
      · exact h.vacant u hvacant'

/-- The thread that has the processor goes on at the same stage, and the device is left alone. -/
theorem Sound.same (h : Sound d s stage) (hcpu : s.cpu = some t) {new : Thread Sem κ σ ρ ω}
    (hnew : s'.thread t = some new) (hcode : new.code = some p) (hdoing : Doing d s' (stage t) t new.priv p)
    (hothers : OthersHeed d s s' t) (hlock : s'.value d.lock = s.value d.lock)
    (hdone : s'.value d.done = s.value d.done) (hshared : s'.shared = s.shared) : Sound d s' stage := by
  have hstep := h.go_on hcpu hnew hcode hdoing hothers (hshared ▸ h.inv) ?_
  · rwa [Function.update_eq_self] at hstep
  · rw [Function.update_eq_self]
    exact h.inUse.congr hlock hdone (by rw [hshared])

/-- A thread that is outside ends. -/
theorem Sound.finish (h : Sound d s stage) (hcpu : s.cpu = some t) (houtside : stage t = .outside) :
    Sound d { s with thread := Function.update s.thread t none, cpu := none } stage := by
  refine ⟨h.inv, h.inUse.congr rfl rfl rfl, ?_, ?_⟩
  · intro u th q hu hq
    by_cases hut : u = t
    · subst hut
      cases (Function.update_self u _ _).symm.trans hu
    · have hnot : s.cpu ≠ some u := by
        rw [hcpu]
        exact fun heq => hut (Option.some.inj heq).symm
      have hold : s.thread u = some th := (Function.update_of_ne hut _ _).symm.trans hu
      exact .heeds none ((h.doing u th q hold hq).bystander hnot) (fun _ heq => by cases heq)
  · intro u hvacant
    by_cases hut : u = t
    · rw [hut]
      exact houtside
    · exact h.vacant u fun th hth => hvacant th ((Function.update_of_ne hut _ _).trans hth)

/-- A thread passes a semaphore. -/
theorem Sound.pass (h : Sound d s stage) (hcpu : s.cpu = some t) {x : Sem} {k : Program Sem σ ρ ω}
    (hheeds : (Program.semP x k).Heeds d (stage t) none th.priv) (hvalue : s.value x ≠ 0) :
    ∃ stage, Sound d (afterPass s t th x k) stage := by
  have hnew : (afterPass s t th x k).thread t = some { th with code := some k } := Function.update_self _ _ _
  have hothers : OthersHeed d s (afterPass s t th x k) t := othersHeed_of_setThread rfl
  have hself : (afterPass s t th x k).value x = s.value x - 1 := Function.update_self _ _ _
  have hother : ∀ y, y ≠ x → (afterPass s t th x k).value y = s.value y := fun y hy => Function.update_of_ne hy _ _
  obtain ⟨-, hheeds⟩ := hheeds
  by_cases hlock : x = d.lock
  · rw [if_pos hlock] at hheeds
    subst hlock
    exact ⟨_, h.go_on hcpu hnew rfl (.heeds none hheeds.2 (fun _ heq => by cases heq)) hothers h.inv
      (h.inUse.acquire hvalue hself (hother _ d.distinct.symm) rfl)⟩
  · rw [if_neg hlock] at hheeds
    by_cases hdone : x = d.done
    · rw [if_pos hdone] at hheeds
      subst hdone
      exact ⟨_, h.go_on hcpu hnew rfl (.heeds none hheeds.2 (fun _ heq => by cases heq)) hothers h.inv
        (h.inUse.complete hheeds.1 hvalue (hother _ d.distinct) hself rfl)⟩
    · rw [if_neg hdone] at hheeds
      exact ⟨stage, h.same hcpu hnew rfl (.heeds none hheeds (fun _ heq => by cases heq)) hothers
        (hother _ (Ne.symm hlock)) (hother _ (Ne.symm hdone)) rfl⟩

theorem Sound.release (h : Sound d s stage) (hcpu : s.cpu = some t) {x : Sem} {k : Program Sem σ ρ ω}
    (hheeds : (Program.semV x k).Heeds d (stage t) none th.priv) (hruns : Runs system s t th (.semV x k) s') :
    ∃ stage, Sound d s' stage := by
  cases hruns
  have hself : Function.update s.value x (s.value x + 1) x = s.value x + 1 := Function.update_self _ _ _
  have hother : ∀ y, y ≠ x → Function.update s.value x (s.value x + 1) y = s.value y :=
    fun y hy => Function.update_of_ne hy _ _
  obtain ⟨-, hheeds⟩ := hheeds
  by_cases hlock : x = d.lock
  · rw [if_pos hlock] at hheeds
    subst hlock
    exact ⟨_, h.go_on hcpu (Function.update_self _ _ _) rfl (.heeds none hheeds.2 (fun _ heq => by cases heq))
      (othersHeed_of_setThread rfl) h.inv (h.inUse.release hheeds.1 hself (hother _ d.distinct.symm) rfl)⟩
  · rw [if_neg hlock] at hheeds
    exact ⟨stage, h.same hcpu (Function.update_self _ _ _) rfl
      (.heeds none hheeds.2 (fun _ heq => by cases heq)) (othersHeed_of_setThread rfl)
      (hother _ (Ne.symm hlock)) (hother _ (Ne.symm hheeds.1)) rfl⟩

/-- A thread acts on the memory; it may be about to fail then. -/
theorem Sound.act (h : Sound d s stage) (hcpu : s.cpu = some t) {f : ThreadId → σ → ρ → σ × ρ × List ω}
    {k : ThreadId → σ → ρ → Program Sem σ ρ ω} {created : Option ThreadId}
    (hheeds : (Program.act f k).Heeds d (stage t) created th.priv)
    (hcreated : ∀ u, created = some u → ∃ new, s.thread u = some new ∧ new.code = none)
    (ht : s.thread t = some th) (hcode : th.code = some (.act f k)) (hruns : Runs system s t th (.act f k) s') :
    ∃ stage, Sound d s' stage := by
  obtain ⟨hinv, stage', hmoves, hnext⟩ := hheeds t s.shared h.inv fun hin => (h.inUse.of_inside hin).2.2.1
  cases hruns
  refine ⟨_, h.go_on hcpu (Function.update_self _ _ _) rfl ?_ (othersHeed_of_setThread rfl) hinv
    (h.inUse.moves hmoves rfl rfl)⟩
  rcases hnext with ⟨habort, hrefuses⟩ | hk
  · exact .refused habort hcpu _ s.log rfl hrefuses
  · refine .heeds created hk ?_
    rintro u rfl
    obtain ⟨new, hu, hnone⟩ := hcreated u rfl
    refine ⟨hcpu, new, ?_, hnone⟩
    have hut : u ≠ t := by
      rintro rfl
      rw [ht] at hu
      cases hu
      rw [hcode] at hnone
      cases hnone
    exact (Function.update_of_ne hut _ _).trans hu

/-- Every step of a thread keeps the discipline. -/
theorem Sound.run (hgoverns : d.Governs system) (h : Sound d s stage) (hcpu : s.cpu = some t)
    (ht : s.thread t = some th) (hcode : th.code = some p) (hruns : Runs system s t th p s') :
    ∃ stage, Sound d s' stage := by
  have hnothing : ∀ u, (none : Option ThreadId) = some u → s'.cpu = some t ∧
      ∃ new, s'.thread u = some new ∧ new.code = none := fun _ heq => by cases heq
  cases h.doing t th p ht hcode with
  | refused hp =>
      rw [hp] at hruns
      cases hruns
  | heeds created hheeds hcreated =>
      have hothers : OthersHeed d s s' t := hruns.othersHeed hheeds
      cases hruns with
      | @pass x k hvalue =>
          obtain rfl := hheeds.1
          exact h.pass hcpu hheeds hvalue
      | wait hvalue =>
          obtain rfl := hheeds.1
          exact ⟨stage, h.same hcpu ht hcode (.heeds none hheeds hnothing) hothers rfl rfl rfl⟩
      | release =>
          obtain rfl := hheeds.1
          exact h.release hcpu hheeds (Runs.release : Runs system s t th _ _)
      | tick =>
          obtain ⟨rfl, hk⟩ := hheeds
          exact ⟨stage, h.same hcpu (Function.update_self _ _ _) rfl (.heeds none hk hnothing) hothers rfl rfl rfl⟩
      | yield =>
          obtain ⟨rfl, hk⟩ := hheeds
          exact ⟨stage, h.same hcpu (Function.update_self _ _ _) rfl (.heeds none hk hnothing) hothers rfl rfl rfl⟩
      | act => exact h.act hcpu hheeds (fun u hu => (hcreated u hu).2) ht hcode (Runs.act : Runs system s t th _ _)
      | @create k u garbage hnull hfresh =>
          obtain ⟨rfl, hk⟩ := hheeds
          have htu : t ≠ u := by
            rintro rfl
            rw [ht] at hfresh
            cases hfresh
          refine ⟨stage, h.same hcpu ((Function.update_of_ne htu _ _).trans (Function.update_self _ _ _)) rfl
            (.heeds (some u) (hk (some u)) ?_) hothers rfl rfl rfl⟩
          rintro v ⟨⟩
          exact ⟨hcpu, _, Function.update_self _ _ _, rfl⟩
      | createFails =>
          obtain ⟨rfl, hk⟩ := hheeds
          exact ⟨stage, h.same hcpu (Function.update_self _ _ _) rfl (.heeds none (hk none) hnothing) hothers rfl rfl
            rfl⟩
      | @start u new body k hu hnew =>
          obtain ⟨-, -, hk⟩ := hheeds
          have htu : t ≠ u := by
            rintro rfl
            rw [ht] at hu
            cases hu
            rw [hcode] at hnew
            cases hnew
          exact ⟨stage, h.same hcpu ((Function.update_of_ne htu _ _).trans (Function.update_self _ _ _)) rfl
            (.heeds none hk hnothing) hothers rfl rfl rfl⟩
      | finish => exact ⟨stage, h.finish hcpu hheeds.1⟩
      | halt => exact ⟨stage, h.same hcpu ht hcode (.heeds none trivial hnothing) hothers rfl rfl rfl⟩
      | call c hcall =>
          obtain ⟨houtside, rfl⟩ := hheeds
          refine ⟨stage, h.same hcpu (Function.update_self _ _ _) rfl (.heeds none ?_ hnothing) hothers rfl rfl rfl⟩
          rw [houtside]
          exact hgoverns.menu c th.priv
      | «return» c hcall =>
          obtain ⟨houtside, rfl⟩ := hheeds
          exact ⟨stage, h.same hcpu (Function.update_self _ _ _) hcode (.heeds none ⟨houtside, rfl⟩ hnothing) hothers
            rfl rfl rfl⟩

theorem Sound.step (hgoverns : d.Governs system) (h : Sound d s stage) (hstep : Step system s s') :
    ∃ stage, Sound d s' stage := by
  have hidle : s.cpu = none → ∀ {u new q}, s.thread u = some new → new.code = some q →
      q.Heeds d (stage u) none new.priv := by
    intro hcpu u new q hu hq
    refine (h.doing u new q hu hq).bystander ?_
    rw [hcpu]
    exact Option.some_ne_none u |>.symm
  cases hstep with
  | take u thread hhalted hcpu hu hcode =>
      exact ⟨stage, h.inv, h.inUse.congr rfl rfl rfl,
        fun v new q hv hq => .heeds none (hidle hcpu hv hq) (fun _ heq => by cases heq), h.vacant⟩
  | run hhalted hcpu hu hcode hruns => exact h.run hgoverns hcpu hu hcode hruns
  | interrupt i shared released hhalted hcpu hhandler =>
      obtain ⟨hinv, hanswers⟩ := hgoverns.handler i s.shared shared released hhandler h.inv
      exact ⟨stage, hinv, h.inUse.answer hanswers,
        fun v new q hv hq => .heeds none (hidle hcpu hv hq) (fun _ heq => by cases heq), h.vacant⟩

/-- In every interleaving the discipline is kept. -/
theorem reachable_sound (hgoverns : d.Governs system) (h : system.interleaving.Reachable s) :
    ∃ stage, Sound d s stage := by
  induction h with
  | init h =>
      have hinit : _ = initial system := h
      rw [hinit]
      refine ⟨fun _ => .outside, hgoverns.inv, .free hgoverns.lock hgoverns.done hgoverns.pending rfl, ?_,
        fun _ _ => rfl⟩
      intro u new q hu hq
      simp only [initial, Function.update_apply] at hu
      split at hu
      · cases hu
        cases hq
        exact .heeds none ⟨rfl, rfl⟩ (fun _ heq => by cases heq)
      · cases hu
  | step _ hstep ih =>
      obtain ⟨stage, hsound⟩ := ih
      exact hsound.step hgoverns hstep

/-- A thread that is about to fail has a reason. -/
theorem abort_refused (hgoverns : d.Governs system) (h : system.interleaving.Reachable s) (ht : s.thread t = some th)
    (hcode : th.code = some .abort) :
    ∃ shown before, s.log = before ++ shown.map (.observed t) ∧ d.Refuses s.shared th.priv shown := by
  obtain ⟨stage, hsound⟩ := reachable_sound hgoverns h
  cases hsound.doing t th .abort ht hcode with
  | heeds created h => exact h.elim
  | refused hp hcpu shown before hlog hrefuses => exact ⟨shown, before, hlog, hrefuses⟩

/-- A thread that is about to be started is new. -/
theorem start_new (hgoverns : d.Governs system) (h : system.interleaving.Reachable s) (ht : s.thread t = some th)
    {u : ThreadId} {body k : Program Sem σ ρ ω} (hcode : th.code = some (.start u body k)) :
    ∃ new, s.thread u = some new ∧ new.code = none := by
  obtain ⟨stage, hsound⟩ := reachable_sound hgoverns h
  cases hsound.doing t th _ ht hcode with
  | refused hp => cases hp
  | heeds created hheeds hcreated =>
      obtain ⟨rfl, -⟩ := hheeds
      exact (hcreated u rfl).2

end Sound

end Interleaving

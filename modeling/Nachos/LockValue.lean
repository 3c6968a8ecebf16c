import Nachos.SemaphoreInvariant
import Nachos.SynchConsole

/-! The locks of `threads/synch.cc`. A `Lock` is a semaphore that begins at 1, with `P` as `Acquire` and `V` as
`Release`; it does not know its holder, and a `Release` of a lock that is free adds a second unit. -/

namespace Nachos

variable {Sem κ ι σ ρ ω : Type}

/-- The semaphore `l` is that of a `Lock`: it is created with the value 1, and only threads release it. -/
structure IsLock (system : ThreadSystem Sem κ ι σ ρ ω) (l : Sem) : Prop where
  initialValue : system.initialValue l = 1
  unhandled : ∀ i shared effect, system.handler i shared = some effect → l ∉ effect.2

namespace Kernel

/-- The current thread is about to execute `Lock::Release`. -/
def AtRelease (l : Sem) (s : Kernel Sem κ σ ρ ω) : Prop :=
  s.idling = false ∧ ∃ k, s.kontOf s.currentThread = some (.run (.semV l k))

variable [DecidableEq Sem] {system : ThreadSystem Sem κ ι σ ρ ω} {space : Bool} {l : Sem} {s t : Kernel Sem κ σ ρ ω}

theorem semaphoreV_value (y : Sem) (caller : Option ThreadId) :
    ((s.semaphoreV y caller).sem l).value = (s.sem l).value + if l = y then 1 else 0 := by
  by_cases hy : l = y
  · subst hy
    cases hqueue : (s.sem l).queue with
    | nil => simp [semaphoreV_nil hqueue, modifySem]
    | cons u rest => simp [semaphoreV_cons hqueue]
  · cases hqueue : (s.sem y).queue with
    | nil => simp [semaphoreV_nil hqueue, modifySem, hy]
    | cons u rest => simp [semaphoreV_cons hqueue, hy]

theorem releaseAll_value {released : List Sem} (hl : l ∉ released) :
    ((s.releaseAll released).sem l).value = (s.sem l).value := by
  induction released generalizing s with
  | nil => rfl
  | cons y rest ih =>
      have hy : l ≠ y := fun heq => hl (heq ▸ List.mem_cons_self)
      have hrest : l ∉ rest := fun hmem => hl (List.mem_cons_of_mem y hmem)
      calc ((releaseAll rest (s.semaphoreV y none)).sem l).value
          = ((s.semaphoreV y none).sem l).value := ih hrest
        _ = (s.sem l).value := by rw [semaphoreV_value, if_neg hy, Int.add_zero]

omit [DecidableEq Sem] in
theorem Switch.sem_eq (h : Switch s t) : t.sem = s.sem := by
  cases h <;> rfl

/-- No step other than a `Release` adds to the value. -/
theorem Action.value_le (hlock : IsLock system l) {th : Thread Sem κ σ ρ ω} {kont : Kont Sem σ ρ ω}
    (haction : Action system s th kont t) (hnot : ∀ k, kont ≠ .run (.semV l k)) :
    (t.sem l).value ≤ (s.sem l).value := by
  cases haction with
  | interrupt p i shared released hhandler =>
      exact Int.le_of_eq (releaseAll_value (hlock.unhandled i _ _ hhandler))
  | preempt p hswitch => exact Int.le_of_eq (by rw [hswitch.sem_eq]; rfl)
  | block x k hwhere hvalue hswitch =>
      rw [hswitch.sem_eq]
      by_cases hx : l = x
      · subst hx
        simp [asleep, queued, modifySem, Kernel.setKont, modifyThread]
      · simp [asleep, queued, modifySem, Kernel.setKont, modifyThread, hx]
  | pass x k hwhere hvalue =>
      by_cases hx : l = x
      · subst hx
        simp only [passed, modifySem, Kernel.setKont, modifyThread, Function.update_self]
        omega
      · simp [passed, modifySem, Kernel.setKont, modifyThread, hx]
  | release x k =>
      have hx : l ≠ x := fun heq => hnot k (by rw [heq])
      have hvalue := semaphoreV_value (l := l) (s := s) x (some s.currentThread)
      rw [if_neg hx, Int.add_zero] at hvalue
      exact Int.le_of_eq hvalue
  | yield k hswitch => exact Int.le_of_eq (by rw [hswitch.sem_eq]; rfl)
  | finish hswitch => exact Int.le_of_eq (by rw [hswitch.sem_eq]; rfl)
  | _ => exact Int.le_refl _

/-- A step is a `Release`, which adds a unit, or it adds none. -/
theorem step_value (hlock : IsLock system l) (hs : (kernel system space).Reachable s)
    (hstep : (kernel system space).step s t) :
    (AtRelease l s ∧ (t.sem l).value = (s.sem l).value + 1) ∨
      (¬AtRelease l s ∧ (t.sem l).value ≤ (s.sem l).value) := by
  obtain ⟨choice, hchoice⟩ := hstep
  cases (step_transition (reachable_inv hs) hchoice).2 with
  | idleInterrupt i shared released hidling hhandler =>
      refine .inr ⟨?_, Int.le_of_eq (releaseAll_value (hlock.unhandled i _ _ hhandler))⟩
      rintro ⟨hbusy, -⟩
      rw [hidling] at hbusy
      cases hbusy
  | dispatch hidling hswitch =>
      refine .inr ⟨?_, ?_⟩
      · rintro ⟨hbusy, -⟩
        rw [hidling] at hbusy
        cases hbusy
      · exact Int.le_of_eq (by rw [hswitch.sem_eq])
  | act th hidling hcurrent haction =>
      have hkont : s.kontOf s.currentThread = some th.kont := by
        rw [kontOf, hcurrent, Option.map_some]
      by_cases hrelease : ∃ k, th.kont = .run (.semV l k)
      · obtain ⟨k, hk⟩ := hrelease
        rw [hk] at haction hkont
        refine .inl ⟨⟨hidling, k, hkont⟩, ?_⟩
        cases haction with
        | release _ _ =>
            have hvalue := semaphoreV_value (l := l) (s := s) l (some s.currentThread)
            rw [if_pos rfl] at hvalue
            exact hvalue
        | block x k' hwhere hvalue hswitch => rcases hwhere with heq | heq <;> cases heq
        | pass x k' hwhere hvalue => rcases hwhere with heq | heq <;> cases heq
      · refine .inr ⟨?_, haction.value_le hlock fun k hk => hrelease ⟨k, hk⟩⟩
        rintro ⟨-, k, hk⟩
        rw [hkont] at hk
        exact hrelease ⟨k, Option.some.inj hk⟩

/-- The runs in which every `Release` of the lock is called while the lock is BUSY. -/
def busyReleases (system : ThreadSystem Sem κ ι σ ρ ω) (space : Bool) (l : Sem) :
    TransitionSystem (Kernel Sem κ σ ρ ω) where
  init := (kernel system space).init
  step s t := (kernel system space).step s t ∧ (AtRelease l s → (s.sem l).value = 0)

theorem reachable_of_busyReleases (h : (busyReleases system space l).Reachable s) :
    (kernel system space).Reachable s := by
  induction h with
  | init h => exact .init h
  | step _ hstep ih => exact ih.step hstep.1

theorem lock_nonneg (hlock : IsLock system l) (h : (kernel system space).Reachable s) : 0 ≤ (s.sem l).value := by
  refine (reachable_balanced ?_ h).nonneg
  rw [hlock.initialValue]
  decide

/-- From a value of at most 1 a step leads above it exactly if it is a `Release` of the free lock. -/
theorem step_value_le_one_iff (hlock : IsLock system l) (hs : (kernel system space).Reachable s)
    (hle : (s.sem l).value ≤ 1) (hstep : (kernel system space).step s t) :
    (t.sem l).value ≤ 1 ↔ (AtRelease l s → (s.sem l).value = 0) := by
  have hnonneg := lock_nonneg hlock hs
  rcases step_value hlock hs hstep with ⟨hrelease, hvalue⟩ | ⟨hnot, hvalue⟩
  · constructor
    · intro hone _
      omega
    · intro hbusy
      have hzero := hbusy hrelease
      omega
  · constructor
    · intro _ hrelease
      exact absurd hrelease hnot
    · intro _
      omega

theorem busyReleases_value (hlock : IsLock system l) (h : (busyReleases system space l).Reachable s) :
    (s.sem l).value ≤ 1 := by
  induction h with
  | init h =>
      have hinit : _ = Kernel.initial system space := h
      rw [hinit]
      exact Int.le_of_eq hlock.initialValue
  | step hs hstep ih => exact (step_value_le_one_iff hlock (reachable_of_busyReleases hs) ih hstep.1).mpr hstep.2

/-- As long as every `Release` is called while the lock is BUSY, the lock is always BUSY or FREE, and it admits one
`Acquire` at most before the next `Release`; and the first step that leads to another value is a `Release` of the
free lock. -/
theorem lock_busy_or_free (hlock : IsLock system l) :
    (∀ s, (busyReleases system space l).Reachable s → (s.sem l).value = 0 ∨ (s.sem l).value = 1) ∧
    (∀ s t, (busyReleases system space l).Reachable s → Relation.ReflTransGen (kernel system space).step s t →
      releases l t.log = releases l s.log → passes l t.log ≤ passes l s.log + 1) ∧
    ∀ s t, (kernel system space).Reachable s → (s.sem l).value ≤ 1 → (kernel system space).step s t →
      ((t.sem l).value ≤ 1 ↔ (AtRelease l s → (s.sem l).value = 0)) := by
  refine ⟨?_, ?_, fun s t hs hle hstep => step_value_le_one_iff hlock hs hle hstep⟩
  · intro s hs
    have hnonneg := lock_nonneg hlock (reachable_of_busyReleases hs)
    have hle := busyReleases_value hlock hs
    omega
  · intro s t hs hsteps hsame
    have hreachable := reachable_of_busyReleases hs
    have hle := busyReleases_value hlock hs
    have hinitial : 0 ≤ system.initialValue l := by
      rw [hlock.initialValue]
      decide
    have hbefore := (reachable_balanced hinitial hreachable).balance
    have hafter := reachable_balanced hinitial (hreachable.steps hsteps)
    have hbalance := hafter.balance
    have hnonneg := hafter.nonneg
    omega

end Kernel

theorem isLock_lockTest : IsLock lockTest () := ⟨rfl, fun i => i.elim⟩

/-- The main thread acquires the lock and releases it. -/
theorem lock_busy_or_free_lockTest :
    ∃ s t, (Kernel.busyReleases lockTest false ()).Reachable s ∧ (s.sem ()).value = 0 ∧
      (Kernel.busyReleases lockTest false ()).Reachable t ∧ releases () t.log = 1 ∧
      ((t.sem ()).value = 0 ∨ (t.sem ()).value = 1) := by
  have hstart : (Kernel.busyReleases lockTest false ()).Reachable (Kernel.initial lockTest false) := .init rfl
  have hcall := hstart.step ⟨⟨.call .acquire, rfl⟩, by rintro ⟨-, k, hk⟩; cases hk⟩
  have hacquire := hcall.step ⟨⟨.exec, rfl⟩, by rintro ⟨-, k, hk⟩; cases hk⟩
  have hresume := hacquire.step ⟨⟨.resume, rfl⟩, by rintro ⟨-, k, hk⟩; cases hk⟩
  have hreturn := hresume.step ⟨⟨.exec, rfl⟩, by rintro ⟨-, k, hk⟩; cases hk⟩
  have hcallRelease := hreturn.step ⟨⟨.call .release, rfl⟩, by rintro ⟨-, k, hk⟩; cases hk⟩
  have hrelease := hcallRelease.step ⟨⟨.exec, rfl⟩, fun _ => rfl⟩
  exact ⟨_, _, hacquire, rfl, hrelease, rfl, (Kernel.lock_busy_or_free isLock_lockTest).1 _ hrelease⟩

section Destructor

variable {ρ : Type}

/-- `SynchConsole::~SynchConsole`, up to the deletion of the locks. -/
def destroySynchConsole (k : Program Nachos.Sem World ρ Observation) : Program Nachos.Sem World ρ Observation :=
  .semV .readLock <| .semV .writeLock k

/-- A console that its only thread destroys. -/
def destructorTest : ThreadSystem Nachos.Sem Unit ConsoleInterrupt World Unit Observation where
  menu _ := destroySynchConsole .ret
  handler := consoleHandler
  initialValue
    | .readAvail => 0
    | .writeDone => 0
    | .readLock => 1
    | .writeLock => 1
    | .threadLock => 1
  initialShared := ⟨.new true [], .new fun _ => 0, fun _ => 0⟩
  initialPrivate := ()
  construct := id
  main := 1

end Destructor

/-- The destructor of a console releases two free locks, and after a release of a free lock two threads may acquire
it without another release. -/
theorem release_of_free_lock :
    (∃ s, Kernel.runChoices destructorTest [.call (), .exec, .resume, .exec] (Kernel.initial destructorTest false) =
        some s ∧ (s.sem .readLock).value = 2 ∧ (s.sem .writeLock).value = 2) ∧
    ∃ s t, Kernel.runChoices lockTest [.call .release, .exec] (Kernel.initial lockTest false) = some s ∧
      (s.sem ()).value = 2 ∧
      Kernel.runChoices lockTest [.resume, .exec, .call .acquire, .exec, .resume, .exec, .call .acquire, .exec] s =
        some t ∧
      releases () t.log = releases () s.log ∧ passes () t.log = passes () s.log + 2 :=
  ⟨⟨_, rfl, rfl, rfl⟩, _, _, rfl, rfl, rfl, rfl, rfl⟩

end Nachos

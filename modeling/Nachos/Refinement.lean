import Nachos.CallTrace
import Nachos.KernelSteps

/-! The kernel refines the interleaving semantics: its queues, its scheduler and the save area of the
registers implement threads that take the processor in any order and have private registers. Whatever
is proved of every interleaving of a system of threads therefore holds in the kernel. -/

namespace Nachos

variable {Sem κ ι σ ρ ω : Type}

/-- The program a continuation stands for; a thread that has finished has none. -/
def Kont.code : Kont Sem σ ρ ω → Option (Option (Program Sem σ ρ ω))
  | .unstarted => some none
  | .setup p => some (some p)
  | .run p => some (some p)
  | .tick p => some (some p)
  | .sleep x p => some (some (.semP x p))
  | .finish => none

/-- The thread is between two points at which the processor can be taken away. -/
def Kont.holdsCpu : Kont Sem σ ρ ω → Bool
  | .run _ => true
  | .sleep _ _ => true
  | _ => false

/-- The event is not one of the scheduler. -/
def Event.visible : Event Sem κ ω → Bool
  | .readied _ => false
  | .dispatched _ => false
  | .finished _ => false
  | .destroyed _ => false
  | _ => true

namespace Kernel

/-- The registers of the thread `t`, in the machine or in its save area. -/
def registersOf (s : Kernel Sem κ σ ρ ω) (t : ThreadId) (th : Thread Sem κ σ ρ ω) : ρ :=
  if t = s.currentThread then s.machine else th.userRegisters

/-- The thread `t` with its own registers, wherever they are at the moment. -/
def abstractThread (s : Kernel Sem κ σ ρ ω) (t : ThreadId) (th : Thread Sem κ σ ρ ω) :
    Option (Interleaving.Thread Sem κ σ ρ ω) :=
  th.kont.code.map fun code =>
    ⟨code, if t = s.currentThread then s.machine else th.userRegisters, th.call⟩

/-- The state of the interleaving semantics that a state of the kernel stands for. -/
def abstraction (s : Kernel Sem κ σ ρ ω) : Interleaving.State Sem κ σ ρ ω where
  thread t := (s.thread t).bind (s.abstractThread t)
  value x := (s.sem x).value
  shared := s.shared
  cpu := if s.idling = false ∧ (s.kontOf s.currentThread).any Kont.holdsCpu then some s.currentThread
    else none
  halted := s.halted
  log := s.log.filter Event.visible

variable {main : ThreadId} {s t : Kernel Sem κ σ ρ ω}

section Current

variable {th : Thread Sem κ σ ρ ω} (hth : s.thread s.currentThread = some th)

include hth

theorem abstraction_current {code : Option (Program Sem σ ρ ω)} (hcode : th.kont.code = some code) :
    s.abstraction.thread s.currentThread = some ⟨code, s.machine, th.call⟩ := by
  simp [abstraction, hth, abstractThread, hcode]

theorem abstraction_cpu (hbusy : s.idling = false) (hcpu : th.kont.holdsCpu) :
    s.abstraction.cpu = some s.currentThread := by
  simp [abstraction, hbusy, kontOf, hth, hcpu]

theorem abstraction_cpu_free (hcpu : th.kont.holdsCpu = false) : s.abstraction.cpu = none := by
  simp [abstraction, kontOf, hth, hcpu]

end Current

/-- Only the current thread has changed, and the registers of the machine are its own. -/
theorem abstraction_thread_update {th : Thread Sem κ σ ρ ω} (hcurrent : t.currentThread = s.currentThread)
    (hthread : t.thread = Function.update s.thread s.currentThread (some th)) :
    t.abstraction.thread = Function.update s.abstraction.thread s.currentThread
      (th.kont.code.map fun code => ⟨code, t.machine, th.call⟩) := by
  funext u
  by_cases hu : u = s.currentThread
  · subst hu
    simp [abstraction, hthread, abstractThread, hcurrent]
  · have hsame : t.abstractThread u = s.abstractThread u := by
      funext th
      simp [abstractThread, hu, hcurrent]
    simp [abstraction, hthread, hu, hsame]

/-- Only a thread other than the current one has changed. -/
theorem abstraction_thread_other {u : ThreadId} {th : Thread Sem κ σ ρ ω}
    (hcurrent : t.currentThread = s.currentThread) (hmachine : t.machine = s.machine)
    (hne : u ≠ s.currentThread) (hthread : t.thread = Function.update s.thread u (some th)) :
    t.abstraction.thread = Function.update s.abstraction.thread u
      (th.kont.code.map fun code => ⟨code, th.userRegisters, th.call⟩) := by
  funext v
  have hsame : t.abstractThread v = s.abstractThread v := by
    funext th
    rw [abstractThread, abstractThread, hcurrent, hmachine]
  by_cases hv : v = u
  · subst hv
    simp [abstraction, hthread, hsame, abstractThread, hne]
  · simp [abstraction, hthread, hv, hsame]

theorem setKont_thread {th : Thread Sem κ σ ρ ω} (hth : s.thread s.currentThread = some th)
    (kont : Kont Sem σ ρ ω) :
    (s.setKont kont).thread = Function.update s.thread s.currentThread (some { th with kont := kont }) := by
  simp [setKont, modifyThread, hth]

theorem abstraction_modifyStatus (u : ThreadId) (status : ThreadStatus) (v : ThreadId) :
    ((s.modifyThread u fun th => { th with status := status }).thread v).bind (s.abstractThread v) =
      (s.thread v).bind (s.abstractThread v) := by
  by_cases hv : v = u
  · subst hv
    cases hth : s.thread v <;> simp [modifyThread, hth, abstractThread]
  · simp [modifyThread, hv]

section Semaphores

variable [DecidableEq Sem]

theorem abstraction_semaphoreV (x : Sem) (caller : Option ThreadId) :
    (s.semaphoreV x caller).abstraction = { s.abstraction with
      value := Function.update s.abstraction.value x (s.abstraction.value x + 1)
      log := s.abstraction.log ++ [.released x caller] } := by
  have hvalue : ∀ y, ((s.semaphoreV x caller).sem y).value =
      Function.update s.abstraction.value x (s.abstraction.value x + 1) y := by
    intro y
    by_cases hy : y = x
    · subst hy
      cases hqueue : (s.sem y).queue <;>
        simp [semaphoreV, hqueue, modifySem, readyToRun, modifyThread, abstraction]
    · cases hqueue : (s.sem x).queue <;>
        simp [semaphoreV, hqueue, modifySem, readyToRun, modifyThread, abstraction, hy]
  obtain ⟨hcurrent, -, hidling, -⟩ := semaphoreV_fixed (s := s) x caller
  have hkontOf := semaphoreV_kontOf (s := s) x caller
  refine Interleaving.State.ext ?_ (funext hvalue) ?_ ?_ ?_ ?_
  · funext v
    cases hqueue : (s.sem x).queue with
    | nil =>
        rw [semaphoreV_nil hqueue]
        rfl
    | cons u rest =>
        rw [semaphoreV_cons hqueue]
        exact abstraction_modifyStatus u .ready v
  · cases hqueue : (s.sem x).queue <;>
      simp [semaphoreV, hqueue, modifySem, readyToRun, modifyThread, abstraction]
  · simp only [abstraction, hidling, hkontOf, hcurrent]
  · cases hqueue : (s.sem x).queue <;>
      simp [semaphoreV, hqueue, modifySem, readyToRun, modifyThread, abstraction]
  · cases hqueue : (s.sem x).queue <;>
      simp [semaphoreV, hqueue, modifySem, readyToRun, modifyThread, abstraction, Event.visible]

theorem abstraction_releaseAll (released : List Sem) :
    (s.releaseAll released).abstraction = { s.abstraction with
      value := Interleaving.releaseAll released s.abstraction.value
      log := s.abstraction.log ++ released.map fun x => .released x none } := by
  induction released generalizing s with
  | nil => simp [Kernel.releaseAll, Interleaving.releaseAll]
  | cons x rest ih =>
      rw [Kernel.releaseAll, ih, abstraction_semaphoreV]
      simp [Interleaving.releaseAll]

end Semaphores

def spaceOf (s : Kernel Sem κ σ ρ ω) (t : ThreadId) : Option Bool :=
  (s.thread t).map Thread.space

/-- The registers of every thread are saved when it gives up the processor, or there are none. -/
def Private (s : Kernel Sem κ σ ρ ω) : Prop :=
  (∀ u, s.spaceOf u ≠ some false) ∨ Subsingleton ρ

theorem Private.mono (h : Private s) (hspace : ∀ u, t.spaceOf u = none ∨ t.spaceOf u = s.spaceOf u) :
    Private t := by
  rcases h with h | hsub
  · left
    intro u heq
    rcases hspace u with hnone | hsame
    · rw [hnone] at heq
      cases heq
    · exact h u (hsame.symm.trans heq)
  · exact .inr hsub

theorem Private.of_eq (h : Private s) (hspace : t.spaceOf = s.spaceOf) : Private t :=
  h.mono fun u => .inr (congrFun hspace u)

theorem Private.space_eq_true (h : ∀ u, s.spaceOf u ≠ some false) {u : ThreadId}
    {th : Thread Sem κ σ ρ ω} (hth : s.thread u = some th) : th.space = true := by
  have hne := h u
  rw [spaceOf, hth] at hne
  cases hspace : th.space with
  | true => rfl
  | false => exact absurd (congrArg some hspace) hne

theorem modifyThread_spaceOf (u : ThreadId) {f : Thread Sem κ σ ρ ω → Thread Sem κ σ ρ ω}
    (hf : ∀ th, (f th).space = th.space) : (s.modifyThread u f).spaceOf = s.spaceOf := by
  funext v
  by_cases hv : v = u
  · subst hv
    simp [spaceOf, modifyThread, Function.comp_def, hf]
  · simp [spaceOf, modifyThread, hv]

theorem setKont_spaceOf (kont : Kont Sem σ ρ ω) : (s.setKont kont).spaceOf = s.spaceOf :=
  modifyThread_spaceOf _ fun _ => rfl

theorem asleep_spaceOf : s.asleep.spaceOf = s.spaceOf :=
  modifyThread_spaceOf _ fun _ => rfl

theorem readyToRun_spaceOf (u : ThreadId) : (s.readyToRun u).spaceOf = s.spaceOf :=
  modifyThread_spaceOf u fun _ => rfl

theorem yielded_spaceOf : s.yielded.spaceOf = s.spaceOf := readyToRun_spaceOf s.currentThread

theorem resumed_spaceOf {next : ThreadId} {rest : List ThreadId} {th : Thread Sem κ σ ρ ω}
    (hth : s.saveUserState.thread next = some th) (u : ThreadId) :
    (s.resumed next rest th).spaceOf u = none ∨ (s.resumed next rest th).spaceOf u = s.spaceOf u := by
  have hsaved : ∀ v, (s.saveUserState.thread v).map Thread.space = s.spaceOf v := by
    refine congrFun (modifyThread_spaceOf s.currentThread fun th => ?_)
    split <;> rfl
  by_cases hdoomed : s.threadToBeDestroyed = some u
  · left
    simp [spaceOf, resumed, hdoomed]
  · right
    by_cases hu : u = next
    · subst hu
      rw [← hsaved, hth]
      simp [spaceOf, resumed, hdoomed]
    · rw [← hsaved]
      simp [spaceOf, resumed, hdoomed, hu]

theorem Switch.private (hswitch : Switch s t) (h : Private s) : Private t := by
  cases hswitch with
  | idle hlist => exact h
  | run next rest th hlist hth => exact h.mono (resumed_spaceOf hth)

theorem Kont.code_wake (kont : Kont Sem σ ρ ω) : kont.wake.code = kont.code := by
  cases kont <;> rfl

/-- `Run` saves and restores the registers, so every thread keeps its own. -/
theorem Placed.abstraction_resumed (h : Placed main s) (rest : List ThreadId) (hprivate : Private s)
    {next : ThreadId} {th : Thread Sem κ σ ρ ω}
    (hth : s.saveUserState.thread next = some th) (u : ThreadId) :
    (s.resumed next rest th).abstraction.thread u = s.abstraction.thread u := by
  have hsaved := saveUserState_thread s u
  by_cases hdoomed : s.threadToBeDestroyed = some u
  · have hkont := (h.doomed u).mp hdoomed
    obtain ⟨old, hold, hfinish⟩ := Option.map_eq_some_iff.mp hkont
    simp [abstraction, Kernel.resumed, hdoomed, hold, abstractThread, hfinish, Kont.code]
  · cases hold : s.thread u with
    | none =>
        have hne : u ≠ next := by
          rintro rfl
          rw [saveUserState_thread, hold] at hth
          cases hth
        simp [abstraction, Kernel.resumed, hdoomed, hne, hsaved, hold]
    | some old =>
        rw [hold, Option.map_some] at hsaved
        set saved := if u = s.currentThread ∧ old.space then { old with userRegisters := s.machine } else old
        have hkont : saved.kont = old.kont := by
          simp only [saved]
          split <;> rfl
        have hcall : saved.call = old.call := by
          simp only [saved]
          split <;> rfl
        have hregisters : saved.userRegisters = if u = s.currentThread then s.machine
            else old.userRegisters := by
          rcases hprivate with hspace | hsub
          · simp only [saved, Private.space_eq_true hspace hold, and_true]
            split <;> rfl
          · exact Subsingleton.elim _ _
        have hright : s.abstraction.thread u =
            old.kont.code.map fun code => ⟨code, saved.userRegisters, old.call⟩ := by
          simp only [abstraction, hold, abstractThread, Option.bind_some, hregisters]
        rw [hright]
        by_cases hu : u = next
        · subst hu
          rw [hsaved] at hth
          have heq : th = saved := (Option.some.inj hth).symm
          subst heq
          have hmachine : (if saved.space then saved.userRegisters else s.machine) =
              saved.userRegisters := by
            rcases hprivate with hspace | hsub
            · have holdSpace : old.space = true := Private.space_eq_true hspace hold
              have hsaved : saved.space = true := by
                simp only [saved]
                split <;> exact holdSpace
              rw [if_pos hsaved]
            · exact Subsingleton.elim _ _
          simp only [abstraction, Kernel.resumed, if_neg hdoomed, if_true, abstractThread,
            Option.bind_some, Kont.code_wake, hmachine, hkont, hcall]
        · simp only [abstraction, Kernel.resumed, if_neg hdoomed, if_neg hu, abstractThread, hsaved,
            Option.bind_some, hkont, hcall]

/-- The switch to another thread shows only when that thread is in the loop of `P`, where it goes on
without a tick. -/
theorem Switch.simulated [DecidableEq Sem] (system : ThreadSystem Sem κ ι σ ρ ω) (hplaced : Placed main s)
    (hprivate : Private s) (hhalted : s.halted = false) (hfree : s.abstraction.cpu = none)
    (hswitch : Switch s t) :
    Relation.ReflTransGen (Interleaving.Step system) s.abstraction t.abstraction := by
  cases hswitch with
  | idle hlist => exact .refl
  | run next rest th hlist hth =>
      have hready : s.statusOf next = some .ready := by
        rw [← hplaced.readyMem, hlist]
        exact List.mem_cons_self
      have hkontOf : s.kontOf next = some th.kont := by
        rw [← saveUserState_kontOf, hth]
        rfl
      have hsurvives : s.threadToBeDestroyed ≠ some next := by
        intro heq
        rw [hplaced.blocked_of_doomed heq] at hready
        cases hready
      have hfits := hplaced.fits next _ _ hready hkontOf
      have hthread := funext (hplaced.abstraction_resumed rest hprivate hth)
      have hcurrent : (s.resumed next rest th).thread (s.resumed next rest th).currentThread =
          some { th with status := .running, kont := th.kont.wake } := by
        simp [resumed, hsurvives]
      have hlog : (s.resumed next rest th).abstraction.log = s.abstraction.log := by
        simp only [abstraction, resumed, List.filter_append]
        cases s.threadToBeDestroyed <;> simp [Event.visible]
      by_cases hcpu : th.kont.wake.holdsCpu
      · have htarget : (s.resumed next rest th).abstraction =
            { s.abstraction with cpu := some next } :=
          Interleaving.State.ext hthread rfl rfl (abstraction_cpu hcurrent rfl hcpu) rfl hlog
        rw [htarget]
        cases hkont : th.kont with
        | sleep x k =>
            have habs : s.abstraction.thread next =
                some ⟨some (.semP x k), (s.resumed next rest th).machine, th.call⟩ := by
              rw [← hthread]
              refine abstraction_current hcurrent ?_
              rw [hkont]
              rfl
            exact .single (.take next _ hhalted hfree habs (Option.some_ne_none _))
        | _ => rw [hkont] at hcpu hfits; first | exact hfits.elim | cases hcpu
      · have htarget : (s.resumed next rest th).abstraction = s.abstraction := by
          refine Interleaving.State.ext hthread rfl rfl ?_ rfl hlog
          rw [hfree]
          exact abstraction_cpu_free hcurrent (Bool.eq_false_iff.mpr hcpu)
        rw [htarget]

section Steps

variable {th new : Thread Sem κ σ ρ ω}

/-- A state that differs from `s` in the current thread is matched by a step that leads to the same
values. -/
theorem simulated_local [DecidableEq Sem] {system : ThreadSystem Sem κ ι σ ρ ω}
    {source target : Interleaving.State Sem κ σ ρ ω} {code : Option (Program Sem σ ρ ω)}
    (s t : Kernel Sem κ σ ρ ω) (hstep : Interleaving.Step system source target)
    (hcurrent : t.currentThread = s.currentThread) (hbusy : t.idling = false)
    (hupdate : t.thread = Function.update s.thread s.currentThread (some new))
    (hcode : new.kont.code = some code)
    (hthread : target.thread = Function.update s.abstraction.thread s.currentThread
      (some ⟨code, t.machine, new.call⟩))
    (hvalue : ∀ x, target.value x = (t.sem x).value) (hshared : target.shared = t.shared)
    (hcpu : target.cpu = if new.kont.holdsCpu then some s.currentThread else none)
    (hhalted : target.halted = t.halted) (hlog : target.log = t.log.filter Event.visible) :
    Interleaving.Step system source t.abstraction := by
  have hnew : t.thread t.currentThread = some new := by
    rw [hupdate, hcurrent]
    exact Function.update_self _ _ _
  have htarget : t.abstraction = target := by
    refine Interleaving.State.ext ?_ (funext fun x => (hvalue x).symm) hshared.symm ?_ hhalted.symm
      hlog.symm
    · rw [abstraction_thread_update hcurrent hupdate, hcode, hthread]
      rfl
    · rw [hcpu]
      split
      · rename_i hholds
        rw [abstraction_cpu hnew hbusy hholds, hcurrent]
      · rename_i hholds
        exact abstraction_cpu_free hnew (Bool.eq_false_iff.mpr hholds)
  rw [htarget]
  exact hstep

/-- Putting the current thread on the ready list does not show. -/
theorem abstraction_yielded : s.yielded.abstraction = s.abstraction := by
  have hsame : s.yielded.kontOf = s.kontOf := modifyThread_status_kontOf _ _
  refine Interleaving.State.ext ?_ rfl rfl ?_ rfl ?_
  · funext u
    exact abstraction_modifyStatus s.currentThread .ready u
  · simp only [abstraction, hsame]
    rfl
  · simp [abstraction, Kernel.yielded, readyToRun, Event.visible]

/-- A thread that blocks keeps its program, the call of `P` included, and gives up the processor. -/
theorem abstraction_asleep : s.asleep.abstraction = { s.abstraction with cpu := none } := by
  refine Interleaving.State.ext ?_ rfl rfl ?_ rfl rfl
  · funext u
    exact abstraction_modifyStatus s.currentThread .blocked u
  · simp [abstraction, asleep]

theorem filter_visible_observed (u : ThreadId) (os : List ω) :
    (os.map (.observed u) : List (Event Sem κ ω)).filter Event.visible = os.map (.observed u) := by
  rw [List.filter_eq_self]
  intro event hmem
  obtain ⟨o, -, rfl⟩ := List.mem_map.mp hmem
  rfl

variable [DecidableEq Sem] {system : ThreadSystem Sem κ ι σ ρ ω}

theorem abstraction_queued (hth : s.thread s.currentThread = some th) {x : Sem}
    {k : Program Sem σ ρ ω} (hcode : th.kont.code = some (some (.semP x k))) :
    (s.queued x k).asleep.abstraction = { s.abstraction with cpu := none } := by
  have hthread : (s.queued x k).abstraction.thread = s.abstraction.thread := by
    have hupdate : (s.queued x k).thread =
        Function.update s.thread s.currentThread (some { th with kont := .sleep x k }) :=
      setKont_thread hth (.sleep x k)
    have hsame := abstraction_thread_update (s := s) (t := s.queued x k) rfl hupdate
    rw [hsame, ← Function.update_eq_self s.currentThread s.abstraction.thread,
      abstraction_current hth hcode, Function.update_idem]
    rfl
  rw [abstraction_asleep]
  refine Interleaving.State.ext hthread ?_ rfl rfl rfl rfl
  funext y
  change (Function.update s.sem x _ y).value = (s.sem y).value
  rw [Function.update_apply]
  split
  · rename_i hy
    rw [hy]
  · rfl

theorem Action.simulated (hinv : Inv main s) (hprivate : Private s) (hbusy : s.idling = false)
    (hhalted : s.halted = false) (hth : s.thread s.currentThread = some th)
    (haction : Action system s th th.kont t) :
    Relation.ReflTransGen (Interleaving.Step system) s.abstraction t.abstraction := by
  generalize hkont : th.kont = kont at haction
  have hkontOf : s.kontOf s.currentThread = some kont := by
    rw [kontOf, hth, ← hkont]
    rfl
  have hcpu : kont.holdsCpu → s.abstraction.cpu = some s.currentThread := by
    intro hholds
    rw [← hkont] at hholds
    exact abstraction_cpu hth hbusy hholds
  have hcode : ∀ code, kont.code = some code →
      s.abstraction.thread s.currentThread = some ⟨code, s.machine, th.call⟩ := by
    intro code hcode
    rw [← hkont] at hcode
    exact abstraction_current hth hcode
  cases haction with
  | interrupt p i shared released hhandler =>
      have hfree : s.abstraction.cpu = none := abstraction_cpu_free hth (by rw [hkont]; rfl)
      rw [abstraction_releaseAll]
      exact .single (.interrupt i shared released hhalted hfree hhandler)
  | keep p hlist => exact .refl
  | preempt p hswitch =>
      have hfree : s.abstraction.cpu = none := abstraction_cpu_free hth (by rw [hkont]; rfl)
      rw [← abstraction_yielded] at hfree ⊢
      exact hswitch.simulated system (hinv.yielded hbusy hkontOf).1 (hprivate.of_eq yielded_spaceOf) hhalted hfree
  | resume p =>
      have hfree : s.abstraction.cpu = none := abstraction_cpu_free hth (by rw [hkont]; rfl)
      have hcurrent := hcode (some p) rfl
      have hstep : Interleaving.Step system s.abstraction _ := .take s.currentThread _ hhalted hfree hcurrent
        (Option.some_ne_none _)
      refine .single (simulated_local s (s.setKont (.run p)) hstep rfl hbusy (setKont_thread hth _) rfl ?_
        (fun _ => rfl) rfl rfl rfl rfl)
      exact (Function.update_eq_self s.currentThread s.abstraction.thread).symm.trans
        (congrArg (Function.update s.abstraction.thread s.currentThread) hcurrent)
  | block x k hwhere hvalue hswitch =>
      have hholds : kont.holdsCpu ∧ kont.code = some (some (.semP x k)) := by
        rcases hwhere with rfl | rfl <;> exact ⟨rfl, rfl⟩
      have hqueued := abstraction_queued hth (x := x) (k := k) (by rw [hkont]; exact hholds.2)
      refine .head (.run hhalted (hcpu hholds.1) (hcode _ hholds.2) rfl (.wait hvalue)) ?_
      rw [← hqueued]
      have hspace : (s.queued x k).asleep.spaceOf = s.spaceOf :=
        asleep_spaceOf.trans (setKont_spaceOf (.sleep x k))
      refine hswitch.simulated system (hinv.queued hbusy x k).1 (hprivate.of_eq hspace) hhalted ?_
      rw [hqueued]
  | pass x k hwhere hvalue =>
      have hholds : kont.holdsCpu ∧ kont.code = some (some (.semP x k)) := by
        rcases hwhere with rfl | rfl <;> exact ⟨rfl, rfl⟩
      have hstep : Interleaving.Step system s.abstraction _ := .run hhalted (hcpu hholds.1)
        (hcode _ hholds.2) rfl (.pass hvalue)
      refine .single (simulated_local s (s.passed x k) hstep rfl hbusy (setKont_thread hth _) rfl rfl ?_ rfl
        rfl rfl ?_)
      · intro y
        change Function.update s.abstraction.value x _ y = (Function.update s.sem x _ y).value
        rw [Function.update_apply, Function.update_apply]
        split <;> rfl
      · change _ = (s.log ++ _).filter Event.visible
        rw [List.filter_append, hth]
        rfl
  | release x k =>
      obtain ⟨hcurrent, -, hidling, -⟩ := semaphoreV_fixed (s := s) x (some s.currentThread)
      have hstep : Interleaving.Step system s.abstraction _ := .run hhalted (hcpu rfl) (hcode _ rfl) rfl .release
      have hreleased := abstraction_semaphoreV (s := s) x (some s.currentThread)
      set base := s.semaphoreV x (some s.currentThread)
      have hcurrentThread : base.abstraction.thread base.currentThread =
          some ⟨some (.semV x k), s.machine, th.call⟩ := by
        rw [hreleased, hcurrent]
        exact hcode _ rfl
      obtain ⟨old, hold, habstract⟩ := Option.bind_eq_some_iff.mp hcurrentThread
      obtain ⟨code, -, habstract⟩ := Option.map_eq_some_iff.mp habstract
      have hcall : old.call = th.call := congrArg Interleaving.Thread.call habstract
      have hmachine : base.machine = s.machine := by
        have hpriv := congrArg Interleaving.Thread.priv habstract
        simpa using hpriv
      refine .single (simulated_local base (base.setKont (.tick k)) hstep rfl (hidling.trans hbusy)
        (setKont_thread hold _) rfl ?_ ?_ ?_ ?_ ?_ ?_)
      · rw [hreleased, hcurrent, hcall]
        change _ = Function.update s.abstraction.thread s.currentThread (some ⟨some k, base.machine, th.call⟩)
        rw [hmachine]
        rfl
      · intro y
        have hvalue : (base.sem y).value = base.abstraction.value y := rfl
        rw [hreleased] at hvalue
        exact hvalue.symm
      · exact (congrArg Interleaving.State.shared hreleased).symm
      · rfl
      · exact (congrArg Interleaving.State.halted hreleased).symm
      · exact (congrArg Interleaving.State.log hreleased).symm
  | tick k =>
      have hstep : Interleaving.Step system s.abstraction _ := .run hhalted (hcpu rfl) (hcode _ rfl) rfl .tick
      exact .single (simulated_local s (s.setKont (.tick k)) hstep rfl hbusy (setKont_thread hth _) rfl rfl
        (fun _ => rfl) rfl rfl rfl rfl)
  | yieldAlone k hlist =>
      have hstep : Interleaving.Step system s.abstraction _ := .run hhalted (hcpu rfl) (hcode _ rfl) rfl .yield
      exact .single (simulated_local s (s.setKont (.tick k)) hstep rfl hbusy (setKont_thread hth _) rfl rfl
        (fun _ => rfl) rfl rfl rfl rfl)
  | yield k hswitch =>
      have hstep : Interleaving.Step system s.abstraction _ := .run hhalted (hcpu rfl) (hcode _ rfl) rfl .yield
      refine .head (simulated_local s (s.setKont (.tick k)) hstep rfl hbusy (setKont_thread hth _) rfl rfl
        (fun _ => rfl) rfl rfl rfl rfl) ?_
      have hset : Inv main (s.setKont (.tick k)) :=
        hinv.setKont hbusy trivial ((hinv.busy hbusy).2.2.2.1 (.run (.yield k)) hkontOf)
      have htick : (s.setKont (.tick k)).thread (s.setKont (.tick k)).currentThread =
          some { th with kont := .tick k } := by
        rw [setKont_thread hth]
        exact Function.update_self _ _ _
      have hfree := abstraction_cpu_free htick rfl
      rw [← abstraction_yielded] at hfree ⊢
      have hspace : (s.setKont (.tick k)).yielded.spaceOf = s.spaceOf :=
        yielded_spaceOf.trans (setKont_spaceOf _)
      refine hswitch.simulated system (hset.yielded (p := k) hbusy ?_).1 (hprivate.of_eq hspace) hhalted hfree
      rw [kontOf, htick]
      rfl
  | act f k =>
      have hstep : Interleaving.Step system s.abstraction _ := .run hhalted (hcpu rfl) (hcode _ rfl) rfl .act
      refine .single (simulated_local s _ hstep rfl hbusy (setKont_thread hth _) rfl rfl (fun _ => rfl) rfl
        (hcpu rfl) rfl ?_)
      change _ = (s.log ++ _).filter Event.visible
      rw [List.filter_append, filter_visible_observed]
      rfl
  | create k u garbage hnull hfresh =>
      have hne : u ≠ s.currentThread := by
        rintro rfl
        rw [hth] at hfresh
        cases hfresh
      have hstep : Interleaving.Step system s.abstraction _ :=
        .run hhalted (hcpu rfl) (hcode _ rfl) rfl (.create u garbage hnull (by simp [abstraction, hfresh]))
      set base := s.setKont (.run (k (some u)))
      set created : Kernel Sem κ σ ρ ω := { base with
        thread := Function.update base.thread u
          (some ⟨.justCreated, th.space, system.construct garbage, .unstarted, none⟩)
        log := s.log ++ [.created u] }
      have hset : base.abstraction.thread = Function.update s.abstraction.thread s.currentThread
          (some ⟨some (k (some u)), s.machine, th.call⟩) :=
        abstraction_thread_update (s := s) (t := base) rfl (setKont_thread hth _)
      have hcreated : created.abstraction.thread = Function.update base.abstraction.thread u
          (some ⟨none, system.construct garbage, none⟩) :=
        abstraction_thread_other (s := base) (t := created) rfl rfl hne rfl
      have hcurrent : created.thread created.currentThread =
          some { th with kont := .run (k (some u)) } := by
        refine (Function.update_of_ne hne.symm _ _).trans ?_
        exact (congrFun (setKont_thread hth _) _).trans (Function.update_self _ _ _)
      refine .single ?_
      convert hstep using 1
      refine Interleaving.State.ext ?_ rfl rfl ?_ rfl (List.filter_append _ _)
      · rw [hcreated, hset]
        rfl
      · exact (abstraction_cpu hcurrent hbusy rfl).trans (hcpu rfl).symm
  | createFails k =>
      have hstep : Interleaving.Step system s.abstraction _ := .run hhalted (hcpu rfl) (hcode _ rfl) rfl .createFails
      exact .single (simulated_local s (s.setKont (.run (k none))) hstep rfl hbusy (setKont_thread hth _) rfl
        rfl (fun _ => rfl) rfl (hcpu rfl) rfl rfl)
  | start u body k new hu hnew =>
      have hstatus : s.statusOf u = some .justCreated := by
        rw [statusOf, hu, ← hnew]
        rfl
      have hne : u ≠ s.currentThread := by
        rintro rfl
        rw [hinv.runningCurrent hbusy] at hstatus
        cases hstatus
      have hunstarted : new.kont = .unstarted := by
        have hfits := hinv.placed.fits u .justCreated new.kont hstatus (by rw [kontOf, hu]; rfl)
        cases hnewKont : new.kont <;> rw [hnewKont] at hfits <;> first | rfl | exact hfits.elim
      have habstract : s.abstraction.thread u = some ⟨none, new.userRegisters, new.call⟩ := by
        simp [abstraction, hu, abstractThread, hunstarted, Kont.code, hne]
      have hstep : Interleaving.Step system s.abstraction _ :=
        .run hhalted (hcpu rfl) (hcode _ rfl) rfl (.start habstract rfl)
      set base := (s.modifyThread u fun th => { th with kont := .setup body }).readyToRun u
      have hbase : base.thread = Function.update s.thread u
          (some { new with kont := .setup body, status := .ready }) := by
        simp [base, readyToRun, modifyThread, hu]
      have hspawned : base.abstraction.thread = Function.update s.abstraction.thread u
          (some ⟨some body, new.userRegisters, new.call⟩) :=
        abstraction_thread_other (s := s) (t := base) rfl rfl hne hbase
      have hcurrent : base.thread base.currentThread = some th := by
        rw [hbase]
        exact (Function.update_of_ne hne.symm _ _).trans hth
      refine .single (simulated_local base (s.started u body k) hstep rfl hbusy
        (setKont_thread hcurrent (.tick k)) rfl ?_ (fun _ => rfl) rfl rfl rfl ?_)
      · rw [hspawned]
        exact Function.update_comm hne.symm _ _ _
      · change _ = (s.log ++ _).filter Event.visible
        rw [List.filter_append]
        rfl
  | finish hswitch =>
      have hfinishing : s.finishing.asleep.abstraction =
          { s.abstraction with thread := Function.update s.abstraction.thread s.currentThread none, cpu := none } := by
        rw [abstraction_asleep]
        refine Interleaving.State.ext ?_ rfl rfl rfl rfl ?_
        · exact abstraction_thread_update (s := s) (t := s.finishing) rfl (setKont_thread hth .finish)
        · simp [abstraction, Kernel.finishing, Event.visible]
      refine .head (.run hhalted (hcpu rfl) (hcode _ rfl) rfl .finish) ?_
      rw [← hfinishing]
      have hspace : s.finishing.asleep.spaceOf = s.spaceOf :=
        asleep_spaceOf.trans (setKont_spaceOf .finish)
      refine hswitch.simulated system (hinv.finishing hbusy).1 (hprivate.of_eq hspace) hhalted ?_
      rw [hfinishing]
  | halt =>
      have hstep : Interleaving.Step system s.abstraction _ := .run hhalted (hcpu rfl) (hcode _ rfl) rfl .halt
      have hsame : s.thread = Function.update s.thread s.currentThread (some th) := by
        rw [← hth, Function.update_eq_self]
      refine .single (simulated_local s _ hstep rfl hbusy hsame (by rw [hkont]; rfl) ?_ (fun _ => rfl) rfl
        ?_ rfl ?_)
      · rw [← hcode _ rfl]
        exact (Function.update_eq_self _ _).symm
      · rw [hkont]
        exact hcpu rfl
      · change _ = (s.log ++ _).filter Event.visible
        rw [List.filter_append]
        rfl
  | call c hcall =>
      have hstep : Interleaving.Step system s.abstraction _ :=
        .run hhalted (hcpu rfl) (hcode _ rfl) rfl (.call c hcall)
      have hupdate : (s.modifyThread s.currentThread fun th =>
          { th with kont := .run (system.menu c), call := some c }).thread = Function.update s.thread
            s.currentThread (some { th with kont := .run (system.menu c), call := some c }) := by
        simp [modifyThread, hth]
      refine .single (simulated_local s _ hstep rfl hbusy hupdate rfl rfl (fun _ => rfl) rfl (hcpu rfl) rfl
        ?_)
      · change _ = (s.log ++ _).filter Event.visible
        rw [List.filter_append]
        rfl
  | «return» c hcall =>
      have hstep : Interleaving.Step system s.abstraction _ :=
        .run hhalted (hcpu rfl) (hcode _ rfl) rfl (.return c hcall)
      have hupdate : (s.modifyThread s.currentThread fun th => { th with call := none }).thread =
          Function.update s.thread s.currentThread (some { th with call := none }) := by
        simp [modifyThread, hth]
      refine .single (simulated_local s _ hstep rfl hbusy hupdate (by rw [hkont]; rfl) rfl (fun _ => rfl) rfl
        ?_ rfl ?_)
      · rw [hkont]
        exact hcpu rfl
      · change _ = (s.log ++ _).filter Event.visible
        rw [List.filter_append]
        rfl

end Steps

section Runs

theorem initial_abstraction (system : ThreadSystem Sem κ ι σ ρ ω) (space : Bool) :
    (initial system space).abstraction = Interleaving.initial system := by
  refine Interleaving.State.ext ?_ rfl rfl ?_ rfl rfl
  · funext u
    by_cases hu : u = system.main
    · subst hu
      simp [abstraction, initial, abstractThread, Kont.code, Interleaving.initial]
    · simp [abstraction, initial, Interleaving.initial, hu]
  · simp [abstraction, initial, kontOf, Kont.holdsCpu, Interleaving.initial]

variable [DecidableEq Sem] {system : ThreadSystem Sem κ ι σ ρ ω}

theorem semaphoreV_spaceOf (x : Sem) (caller : Option ThreadId) :
    (s.semaphoreV x caller).spaceOf = s.spaceOf := by
  cases hqueue : (s.sem x).queue with
  | nil =>
      rw [semaphoreV_nil hqueue]
      rfl
  | cons u rest =>
      rw [semaphoreV_cons hqueue]
      exact modifyThread_spaceOf u fun _ => rfl

theorem releaseAll_spaceOf (released : List Sem) : (s.releaseAll released).spaceOf = s.spaceOf := by
  induction released generalizing s with
  | nil => rfl
  | cons x rest ih => rw [releaseAll, ih, semaphoreV_spaceOf]

theorem Private.action {th : Thread Sem κ σ ρ ω} (h : Private s)
    (hth : s.thread s.currentThread = some th) (haction : Action system s th th.kont t) : Private t := by
  generalize th.kont = kont at haction
  cases haction with
  | interrupt p i shared released hhandler => exact h.of_eq (releaseAll_spaceOf released)
  | keep p hlist => exact h
  | preempt p hswitch => exact hswitch.private (h.of_eq yielded_spaceOf)
  | resume p => exact h.of_eq (setKont_spaceOf _)
  | block x k hwhere hvalue hswitch =>
      exact hswitch.private (h.of_eq (asleep_spaceOf.trans (setKont_spaceOf (.sleep x k))))
  | pass x k hwhere hvalue => exact h.of_eq (setKont_spaceOf (.tick k))
  | release x k => exact h.of_eq ((setKont_spaceOf _).trans (semaphoreV_spaceOf _ _))
  | tick k => exact h.of_eq (setKont_spaceOf _)
  | yieldAlone k hlist => exact h.of_eq (setKont_spaceOf _)
  | yield k hswitch => exact hswitch.private (h.of_eq (yielded_spaceOf.trans (setKont_spaceOf _)))
  | act f k => exact h.of_eq (setKont_spaceOf _)
  | create k u garbage hnull hfresh =>
      rcases h with h | hsub
      · left
        intro v
        by_cases hv : v = u
        · subst hv
          simp [spaceOf, Private.space_eq_true h hth]
        · have hset := congrFun (setKont_spaceOf (s := s) (.run (k (some u)))) v
          have hold := h v
          rw [← hset] at hold
          simpa [spaceOf, hv] using hold
      · exact .inr hsub
  | createFails k => exact h.of_eq (setKont_spaceOf _)
  | start u body k new hu hnew =>
      have hallocated : (s.modifyThread u fun th => { th with kont := .setup body }).spaceOf = s.spaceOf :=
        modifyThread_spaceOf u fun _ => rfl
      exact h.of_eq ((setKont_spaceOf (.tick k)).trans ((readyToRun_spaceOf u).trans hallocated))
  | finish hswitch => exact hswitch.private (h.of_eq (asleep_spaceOf.trans (setKont_spaceOf .finish)))
  | halt => exact h
  | call c hcall => exact h.of_eq (modifyThread_spaceOf _ fun _ => rfl)
  | «return» c hcall => exact h.of_eq (modifyThread_spaceOf _ fun _ => rfl)

theorem Private.transition (h : Private s) (htransition : Transition system s t) : Private t := by
  cases htransition with
  | idleInterrupt i shared released hidling hhandler => exact h.of_eq (releaseAll_spaceOf released)
  | dispatch hidling hswitch => exact hswitch.private h
  | act th hidling hcurrent haction => exact h.action hcurrent haction

theorem Transition.simulated (hinv : Inv main s) (hprivate : Private s) (hhalted : s.halted = false)
    (htransition : Transition system s t) :
    Relation.ReflTransGen (Interleaving.Step system) s.abstraction t.abstraction := by
  cases htransition with
  | idleInterrupt i shared released hidling hhandler =>
      have hfree : s.abstraction.cpu = none := by
        simp [abstraction, hidling]
      rw [abstraction_releaseAll]
      exact .single (.interrupt i shared released hhalted hfree hhandler)
  | dispatch hidling hswitch =>
      have hfree : s.abstraction.cpu = none := by
        simp [abstraction, hidling]
      exact hswitch.simulated system hinv.placed hprivate hhalted hfree
  | act th hidling hcurrent haction => exact haction.simulated hinv hprivate hidling hhalted hcurrent

theorem reachable_private {space : Bool} (hspace : space = true ∨ Subsingleton ρ)
    (h : (kernel system space).Reachable s) : Private s := by
  refine h.invariant ?_ ?_
  · rintro s rfl
    rcases hspace with rfl | hsub
    · left
      intro u
      by_cases hu : u = system.main
      · subst hu
        simp [spaceOf, initial]
      · simp [spaceOf, initial, hu]
    · exact .inr hsub
  · rintro s t hs hprivate ⟨choice, hstep⟩
    exact hprivate.transition (step_transition (reachable_inv hs) hstep).2

/-- The kernel refines the interleaving semantics, when its threads have an address space or use no
registers. -/
theorem kernel_refines_interleaving {space : Bool} (hspace : space = true ∨ Subsingleton ρ) :
    TransitionSystem.Simulation (kernel system space) system.interleaving abstraction where
  init := by
    rintro s rfl
    exact initial_abstraction system space
  step := by
    rintro s t hs ⟨choice, hstep⟩
    have hinv := reachable_inv hs
    obtain ⟨hhalted, htransition⟩ := step_transition hinv hstep
    exact htransition.simulated hinv (reachable_private hspace hs) hhalted

theorem reachable_abstraction {space : Bool} (hspace : space = true ∨ Subsingleton ρ)
    (h : (kernel system space).Reachable s) : system.interleaving.Reachable s.abstraction :=
  (kernel_refines_interleaving hspace).reachable h

/-- An assertion of the code of the threads fails only where the current thread is about to abort. -/
theorem client_fault {space : Bool} (h : (kernel system space).Reachable s) {choice : Choice κ ι ρ}
    (hstep : s.step system choice = some (.error .client)) :
    ∃ th, s.abstraction.thread s.currentThread = some th ∧ th.code = some .abort := by
  obtain ⟨-, ⟨t, heq, -⟩ | ⟨kont, fault, -, hkont, heq, hmisuse⟩⟩ := (reachable_inv h).step_cases system hstep
  · cases heq
  · cases heq
    cases hmisuse
    obtain ⟨th, hth, hkont⟩ := Option.map_eq_some_iff.mp hkont
    have hcode : th.kont.code = some (some .abort) := by
      rw [hkont]
      rfl
    exact ⟨_, abstraction_current hth hcode, rfl⟩

end Runs

theorem acquisitions_abstraction [DecidableEq Sem] (l : Sem) (s : Kernel Sem κ σ ρ ω) :
    Interleaving.acquisitions l s.abstraction.log = Interleaving.acquisitions l s.log :=
  Interleaving.acquisitions_filter (fun _ _ => rfl) s.log

theorem sinceCall_abstraction (t : ThreadId) (s : Kernel Sem κ σ ρ ω) :
    Interleaving.sinceCall t s.abstraction.log = Interleaving.sinceCall t s.log := by
  refine Interleaving.sinceCall_filter ?_ s.log
  intro e he
  cases e with
  | readied u => cases he
  | dispatched u => cases he
  | finished u => cases he
  | destroyed u => cases he
  | _ => rfl

theorem abstraction_call {u : ThreadId} {th : Interleaving.Thread Sem κ σ ρ ω}
    (hu : s.abstraction.thread u = some th) : (s.thread u).bind Thread.call = th.call := by
  obtain ⟨old, hold, habstract⟩ := Option.bind_eq_some_iff.mp hu
  obtain ⟨code, -, rfl⟩ := Option.map_eq_some_iff.mp habstract
  rw [hold]
  rfl

/-- A thread that has not finished, in the interleaving semantics. -/
theorem abstraction_code {u : ThreadId} {th : Thread Sem κ σ ρ ω} {code : Option (Program Sem σ ρ ω)}
    (hu : s.thread u = some th) (hcode : th.kont.code = some code) :
    s.abstraction.thread u = some ⟨code, s.registersOf u th, th.call⟩ := by
  have hthread : s.abstraction.thread u = s.abstractThread u th := by
    show (s.thread u).bind _ = _
    rw [hu]
    rfl
  rw [hthread, abstractThread, hcode]
  rfl

/-- A thread that is about to execute `p`, in the interleaving semantics. -/
theorem abstraction_running {u : ThreadId} {th : Thread Sem κ σ ρ ω} {p : Program Sem σ ρ ω}
    (hu : s.thread u = some th) (hkont : th.kont = .run p) :
    ∃ new, s.abstraction.thread u = some new ∧ new.code = some p ∧ new.call = th.call ∧
      new.priv = s.registersOf u th :=
  ⟨_, abstraction_code hu (congrArg Kont.code hkont), rfl, rfl, rfl⟩

end Kernel

end Nachos

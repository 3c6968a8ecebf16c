import Nachos.Deadlock
import Nachos.PostDelivery
import Nachos.SemaphoreInvariant
import Nachos.SynchDisk
import Nachos.SystemCall

/-! The kernel does not stop in the middle of a call. When the machine idles and no thread is ready, every thread
waits, and what it waits for is said by the discipline of its program: the disk, the network and the console complete
what they have been asked for, so that only a thread that waits for input or for mail can wait for ever. -/

namespace Nachos

open Interleaving

namespace Kernel

variable {Sem κ ι σ ρ ω : Type} [DecidableEq Sem] {system : ThreadSystem Sem κ ι σ ρ ω} {space : Bool}
  {s : Kernel Sem κ σ ρ ω} {t : ThreadId} {th : Thread Sem κ σ ρ ω}

/-- `Thread::Sleep` has found no thread to run and calls `Idle`. -/
structure Idles (s : Kernel Sem κ σ ρ ω) : Prop where
  idling : s.idling = true
  ready : s.readyList = []

/-- While the machine idles a thread has not been started, has finished, or sleeps at a semaphore whose value is
zero: a wake-up is not lost. -/
theorem Idles.thread_cases (hidles : s.Idles) (h : (kernel system space).Reachable s)
    (hinitial : ∀ x, 0 ≤ system.initialValue x) (ht : s.thread t = some th) :
    th.kont = .unstarted ∨ th.kont = .finish ∨ ∃ x k, th.kont = .sleep x k ∧ (s.sem x).value = 0 := by
  have hinv := reachable_inv h
  have hstatus : s.statusOf t = some th.status := by rw [statusOf, ht]; rfl
  have hkont : s.kontOf t = some th.kont := by rw [kontOf, ht]; rfl
  have hnotReady : ∀ u, s.statusOf u ≠ some .ready := by
    intro u hu
    have hmem := (hinv.placed.readyMem u).mpr hu
    rw [hidles.ready] at hmem
    cases hmem
  have hnotRunning := (hinv.idle hidles.idling).2
  have hfits := hinv.placed.fits t _ _ hstatus hkont
  cases hthread : th.status with
  | running => exact absurd (hthread ▸ hstatus) (hnotRunning t)
  | ready => exact absurd (hthread ▸ hstatus) (hnotReady t)
  | justCreated =>
      rw [hthread] at hfits
      left
      cases hth : th.kont with
      | unstarted => rfl
      | _ =>
          rw [hth] at hfits
          exact hfits.elim
  | blocked =>
      rw [hthread] at hfits hstatus
      right
      cases hth : th.kont with
      | finish => exact .inl rfl
      | sleep x k =>
          refine .inr ⟨x, k, rfl, ?_⟩
          -- The thread is on the queue, and nobody has been woken: the value is not positive.
          have hbalanced := reachable_balanced (hinitial x) h
          rw [hth] at hkont
          have hqueue : (s.sem x).queue ≠ [] :=
            List.ne_nil_of_mem ((hinv.placed.queueMem x t).mpr ⟨hstatus, k, hkont⟩)
          obtain ⟨woken, -, hmem, hle⟩ := hbalanced.awake
          have hnone : woken = [] := by
            apply List.eq_nil_iff_forall_not_mem.mpr
            intro u hu
            obtain ⟨hawake, k', hk'⟩ := (hmem u).mp hu
            obtain ⟨new, hnew, hsleep⟩ := Option.map_eq_some_iff.mp hk'
            have hnewStatus : s.statusOf u = some new.status := by rw [statusOf, hnew]; rfl
            have hfitsNew := hinv.placed.fits u _ _ hnewStatus hk'
            cases hcase : new.status with
            | justCreated =>
                rw [hcase] at hfitsNew
                exact hfitsNew
            | running => exact hnotRunning u (hcase ▸ hnewStatus)
            | ready => exact hnotReady u (hcase ▸ hnewStatus)
            | blocked => exact hawake (hcase ▸ hnewStatus)
          have hupper := hle hqueue
          rw [hnone] at hupper
          have hlower := hbalanced.nonneg
          simp only [List.length_nil] at hupper
          omega
      | _ =>
          rw [hth] at hfits
          exact hfits.elim

/-- While the machine idles no thread can go on. -/
theorem Idles.allWait (hidles : s.Idles) (h : (kernel system space).Reachable s)
    (hinitial : ∀ x, 0 ≤ system.initialValue x) : AllWait s.abstraction := by
  intro t new hnew
  obtain ⟨th, hth, habstract⟩ := Option.bind_eq_some_iff.mp hnew
  obtain ⟨code, hcode, rfl⟩ := Option.map_eq_some_iff.mp habstract
  rcases hidles.thread_cases h hinitial hth with hkont | hkont | ⟨x, k, hkont, hvalue⟩
  · rw [hkont] at hcode
    cases hcode
    exact .inl rfl
  · rw [hkont] at hcode
    cases hcode
  · rw [hkont] at hcode
    cases hcode
    exact .inr ⟨x, k, rfl, hvalue⟩

/-- A thread that sleeps while the machine idles and no request is pending. -/
theorem Idles.sleeps_for_event (hidles : s.Idles) (h : (kernel system space).Reachable s) {usage : Usage Sem σ}
    (hgoverns : usage.Governs system) (hspace : space = true ∨ Subsingleton ρ)
    (hinitial : ∀ x, 0 ≤ system.initialValue x)
    (hpending : ∀ x, usage.role x = .completion → usage.pending x s.shared = 0) {x : Sem} {k : Program Sem σ ρ ω}
    (ht : s.thread t = some th) (hkont : th.kont = .sleep x k) :
    usage.role x = .event ∨ usage.role x = .lock ∧ ∃ u holder y k', s.thread u = some holder ∧
      holder.kont = .sleep y k' ∧ usage.role y = .event ∧ usage.lockOf y = some x := by
  have habstract := reachable_abstraction hspace h
  have hcode : th.kont.code = some (some (.semP x k)) := by rw [hkont]; rfl
  rcases waits_for_event hgoverns habstract (hidles.allWait h hinitial) hpending (abstraction_code ht hcode) rfl with
    hevent | ⟨hlock, u, new, y, k', hu, hnew, hrole⟩
  · exact .inl hevent
  · obtain ⟨holder, hholder, habstract⟩ := Option.bind_eq_some_iff.mp hu
    obtain ⟨code, hcode, rfl⟩ := Option.map_eq_some_iff.mp habstract
    refine .inr ⟨hlock, u, holder, y, k', hholder, ?_, hrole⟩
    rcases hidles.thread_cases h hinitial hholder with hkont' | hkont' | ⟨z, k'', hkont', -⟩
    · rw [hkont'] at hcode
      cases hcode
      cases hnew
    · rw [hkont'] at hcode
      cases hcode
    · rw [hkont'] at hcode
      cases hcode
      cases hnew
      exact hkont'

/-- A machine that does not idle has a step to take that is no interrupt. -/
theorem step_or_idles [Nonempty κ] (h : (kernel system space).Reachable s) (hhalted : s.halted = false) :
    (∃ choice, (∀ i, choice ≠ .interrupt i) ∧ (s.step system choice).isSome) ∨ s.Idles := by
  have hinv := reachable_inv h
  obtain ⟨th, hth⟩ := Option.isSome_iff_exists.mp (statusOf_isSome_thread hinv.placed.current)
  cases hidling : s.idling with
  | true =>
      cases hready : s.readyList with
      | nil => exact .inr ⟨hidling, hready⟩
      | cons next rest =>
          left
          refine ⟨.dispatch, by simp, ?_⟩
          simp [step, hhalted, hth, hidling, findNextToRun_cons hhalted hready]
  | false =>
      left
      obtain ⟨-, hrunning, -⟩ := hinv.busy hidling
      have hfits := hinv.placed.fits _ _ th.kont hrunning (by rw [kontOf, hth]; rfl)
      cases hkont : th.kont with
      | run p =>
          cases p with
          | newThread k => exact ⟨.allocFails, by simp, by simp [step, hhalted, hth, hidling, hkont, execute]⟩
          | ret =>
              cases hcall : th.call with
              | none =>
                  obtain ⟨c⟩ := ‹Nonempty κ›
                  exact ⟨.call c, by simp, by simp [step, hhalted, hth, hidling, hkont, execute, hcall]⟩
              | some c => exact ⟨.exec, by simp, by simp [step, hhalted, hth, hidling, hkont, execute, hcall]⟩
          | _ => exact ⟨.exec, by simp, by simp [step, hhalted, hth, hidling, hkont, execute]⟩
      | tick p => exact ⟨.resume, by simp, by simp [step, hhalted, hth, hidling, hkont]⟩
      | sleep x k => exact ⟨.exec, by simp, by simp [step, hhalted, hth, hidling, hkont]⟩
      | _ =>
          rw [hkont] at hfits
          exact hfits.elim

/-- An interrupt that has been scheduled arrives while the machine idles. -/
theorem Idles.interrupt (hidles : s.Idles) (h : (kernel system space).Reachable s) (hhalted : s.halted = false) {i : ι}
    (hscheduled : (system.handler i s.shared).isSome) : (s.step system (.interrupt i)).isSome := by
  obtain ⟨th, hth⟩ := Option.isSome_iff_exists.mp (statusOf_isSome_thread (reachable_inv h).placed.current)
  simp [step, hhalted, hth, hidles.idling, deliver, hscheduled]

/-- A machine in which the programs obey the discipline, and in which each pending request has an interrupt that
completes it, does not deadlock: it can go on with one of these interrupts or with none, or every thread that has been
started has finished or waits for an event, itself or behind a thread that does. -/
theorem goes_on_or_waits [Nonempty κ] (h : (kernel system space).Reachable s) (hhalted : s.halted = false)
    {usage : Usage Sem σ} (hgoverns : usage.Governs system) (hspace : space = true ∨ Subsingleton ρ)
    (hinitial : ∀ x, 0 ≤ system.initialValue x) (completes : ι → Prop)
    (hcompletes : ∀ x, usage.role x = .completion → 0 < usage.pending x s.shared →
      ∃ i, completes i ∧ (system.handler i s.shared).isSome) :
    (∃ choice, (∀ i, choice = .interrupt i → completes i) ∧ (s.step system choice).isSome) ∨
      ∀ t th, s.thread t = some th → th.kont = .unstarted ∨ th.kont = .finish ∨ ∃ x k, th.kont = .sleep x k ∧
        (usage.role x = .event ∨ usage.role x = .lock ∧ ∃ u holder y k', s.thread u = some holder ∧
          holder.kont = .sleep y k' ∧ usage.role y = .event ∧ usage.lockOf y = some x) := by
  rcases step_or_idles h hhalted with ⟨choice, hchoice, hstep⟩ | hidles
  · exact .inl ⟨choice, fun i hi => absurd hi (hchoice i), hstep⟩
  by_cases hpending : ∃ x, usage.role x = .completion ∧ 0 < usage.pending x s.shared
  · obtain ⟨x, hrole, hx⟩ := hpending
    obtain ⟨i, hi, hscheduled⟩ := hcompletes x hrole hx
    refine .inl ⟨.interrupt i, ?_, hidles.interrupt h hhalted hscheduled⟩
    rintro j ⟨rfl⟩
    exact hi
  · have hquiet : ∀ x, usage.role x = .completion → usage.pending x s.shared = 0 :=
      fun x hrole => Nat.eq_zero_of_not_pos fun hx => hpending ⟨x, hrole, hx⟩
    right
    intro t th ht
    rcases hidles.thread_cases h hinitial ht with hkont | hkont | ⟨x, k, hkont, -⟩
    · exact .inl hkont
    · exact .inr (.inl hkont)
    · exact .inr (.inr ⟨x, k, hkont, hidles.sleeps_for_event h hgoverns hspace hinitial hquiet ht hkont⟩)

end Kernel

section Disk

/-- The semaphores of a `SynchDisk`. -/
def diskUsage : Usage DiskSem DiskWorld where
  role
    | .lock => .lock
    | .semaphore => .completion
  lockOf _ := none
  pending
    | .lock, _ => 0
    | .semaphore, world => world.pending

theorem obeys_synchDiskCall {c : DiskCall}
    (hpending : ∀ (t : ThreadId) (world : DiskWorld), (DiskWorld.request c t world).pending = world.pending + 1) :
    (synchDiskCall c).Obeys diskUsage none none := by
  refine ⟨rfl, rfl, ?_⟩
  intro t world priv
  cases hactive : world.active with
  | true => exact ⟨none, .none fun x => by simp [hactive], by simp [hactive, Program.Obeys]⟩
  | false =>
      refine ⟨some .semaphore, .one rfl ?_ ?_, ?_⟩
      · simp [hactive, diskUsage, hpending]
      · intro y hy
        cases y with
        | lock => rfl
        | semaphore => exact absurd rfl hy
      · simp [hactive, Program.Obeys, diskUsage]

theorem disk_governs (disk : Disk) : diskUsage.Governs (diskSystem disk) where
  menu c := by
    cases c with
    | readSector n => exact obeys_synchDiskCall fun _ _ => rfl
    | writeSector n data => exact obeys_synchDiskCall fun _ _ => rfl
    | compute => exact ⟨rfl, rfl⟩
    | fork =>
        intro u
        cases u with
        | none => exact ⟨rfl, rfl⟩
        | some u => exact ⟨⟨rfl, rfl⟩, rfl, rfl⟩
    | exit => exact ⟨rfl, rfl⟩
  handler i world world' released hhandler := by
    change (if _ then _ else _) = _ at hhandler
    split at hhandler
    · rename_i hpending
      cases hhandler
      refine .one rfl ?_ ?_
      · show world.pending = world.pending - 1 + 1
        omega
      · intro y hy
        cases y with
        | lock => rfl
        | semaphore => exact absurd rfl hy
    · cases hhandler
  locks x hx := by
    cases x with
    | lock => rfl
    | semaphore => cases hx
  completions x hx := by
    cases x with
    | lock => cases hx
    | semaphore => exact ⟨rfl, rfl⟩

variable {disk : Disk} {space : Bool} {s : Kernel DiskSem DiskCall DiskWorld Unit Empty}

/-- The calls of a `SynchDisk` cannot deadlock, whatever threads make them: the machine can go on until every thread
that has been started has finished. -/
theorem disk_calls_complete (h : (kernel (diskSystem disk) space).Reachable s) (hhalted : s.halted = false) :
    (∃ choice, (s.step (diskSystem disk) choice).isSome) ∨
      ∀ t th, s.thread t = some th → th.kont = .unstarted ∨ th.kont = .finish := by
  have : Nonempty DiskCall := ⟨.compute⟩
  have hinitial : ∀ x, 0 ≤ (diskSystem disk).initialValue x := by
    intro x
    cases x with
    | lock => exact Int.one_nonneg
    | semaphore => exact le_refl 0
  have hcompletes : ∀ x, diskUsage.role x = .completion → 0 < diskUsage.pending x s.shared →
      ∃ i, True ∧ ((diskSystem disk).handler i s.shared).isSome := by
    intro x hrole hpending
    cases x with
    | lock => cases hrole
    | semaphore =>
        have hpending : 0 < s.shared.pending := hpending
        exact ⟨(), trivial, by simp [diskSystem, hpending]⟩
  have hevent : ∀ x, diskUsage.role x ≠ .event := by
    intro x
    cases x <;> exact nofun
  rcases Kernel.goes_on_or_waits h hhalted (disk_governs disk) (.inr inferInstance) hinitial (fun _ => True)
    hcompletes with ⟨choice, -, hstep⟩ | hwaits
  · exact .inl ⟨choice, hstep⟩
  · right
    intro t th ht
    rcases hwaits t th ht with hkont | hkont | ⟨x, -, -, hrole | ⟨-, -, -, y, -, -, -, hrole, -⟩⟩
    · exact .inl hkont
    · exact .inr hkont
    · exact absurd hrole (hevent x)
    · exact absurd hrole (hevent y)

/-- A thread sleeps until the disk has written a sector. -/
theorem disk_calls_complete_write :
    ∃ s k, Kernel.runChoices (diskSystem fun _ => 0) [.call (.writeSector ⟨3, by decide⟩ fun _ => 7), .exec, .resume,
        .exec, .exec] (Kernel.initial (diskSystem fun _ => 0) false) = some s ∧
      (∃ th, s.thread 1 = some th ∧ th.kont = .sleep .semaphore k) ∧
      ∃ choice, (s.step (diskSystem fun _ => 0) choice).isSome := by
  obtain ⟨s, th, k, hrun, hth, hkont, hhalted⟩ : ∃ s th k, Kernel.runChoices (diskSystem fun _ => 0)
      [.call (.writeSector ⟨3, by decide⟩ fun _ => 7), .exec, .resume, .exec, .exec]
      (Kernel.initial (diskSystem fun _ => 0) false) = some s ∧ s.thread 1 = some th ∧
      th.kont = .sleep .semaphore k ∧ s.halted = false := ⟨_, _, _, rfl, rfl, rfl, rfl⟩
  have hinit : (kernel (diskSystem fun _ => 0) false).Reachable (Kernel.initial _ false) := .init rfl
  refine ⟨s, k, hrun, ⟨th, hth, hkont⟩, ?_⟩
  rcases disk_calls_complete (Kernel.reachable_runChoices hinit hrun) hhalted with hstep | hdone
  · exact hstep
  · rcases hdone 1 th hth with h | h
    · rw [hkont] at h
      cases h
    · rw [hkont] at h
      cases h

end Disk

section UserProgram

/-- The semaphores of the console and of the table of threads. A thread waits for input as for an event. -/
def userUsage : Usage Sem World where
  role
    | .readAvail => .event
    | .writeDone => .completion
    | _ => .lock
  lockOf
    | .readAvail => some .readLock
    | _ => none
  pending
    | .writeDone, world => world.console.writesPending
    | _, _ => 0

variable {space : AddrSpace} {k : Program Sem World Registers Observation}

theorem obeys_returnToUser (result : Option Word) : (returnToUser result).Obeys userUsage none none := by
  intro t world r
  exact ⟨none, .none fun _ => rfl, rfl, rfl⟩

theorem obeys_update {β : Type} {held owed : Option Sem} {f : ThreadId → World → World × β}
    {k : β → Program Sem World Registers Observation} (hf : ∀ t world, (f t world).1.console = world.console)
    (hk : ∀ b, (k b).Obeys userUsage held owed) : (update f k).Obeys userUsage held owed := by
  intro t world r
  refine ⟨owed, .none ?_, hk _⟩
  intro x
  cases x with
  | writeDone => exact congrArg Console.writesPending (hf t world)
  | _ => rfl

theorem obeys_consolePutChar {held : Option Sem} (hk : k.Obeys userUsage held (some .writeDone)) (ch : Word) :
    (consolePutChar k ch).Obeys userUsage held none := by
  intro t world r
  cases hbusy : world.console.putBusy with
  | true => exact ⟨none, .none fun x => by simp [hbusy], by simp [hbusy, Program.Obeys]⟩
  | false =>
      refine ⟨some .writeDone, .one rfl ?_ ?_, by simpa [hbusy] using hk⟩
      · simp [hbusy, userUsage, Console.putChar]
      · intro y hy
        cases y with
        | writeDone => exact absurd rfl hy
        | _ => rfl

theorem obeys_putStringLoop (hk : k.Obeys userUsage none none) (string : List Byte) :
    (putStringLoop k string).Obeys userUsage (some .writeLock) none := by
  induction string with
  | nil => exact ⟨rfl, rfl, hk⟩
  | cons ch rest ih =>
      rw [putStringLoop]
      split
      · exact ⟨rfl, rfl, hk⟩
      · apply obeys_consolePutChar
        exact ⟨rfl, ih⟩

theorem obeys_consoleGetChar {held : Option Sem} {kc : Word → Program Sem World Registers Observation}
    (hkc : ∀ c, (kc c).Obeys userUsage held none) : (consoleGetChar kc).Obeys userUsage held none := by
  intro t world r
  refine ⟨none, .none ?_, hkc _⟩
  intro x
  cases x with
  | writeDone => rfl
  | _ => rfl

theorem obeys_getStringLoop {ks : List Byte → Program Sem World Registers Observation}
    (hks : ∀ string, (ks string).Obeys userUsage none none) (n : Nat) (stored : List Byte) :
    (getStringLoop ks n stored).Obeys userUsage (some .readLock) none := by
  induction n generalizing stored with
  | zero => exact ⟨rfl, rfl, hks stored⟩
  | succ n ih =>
      cases n with
      | zero => exact ⟨rfl, rfl, hks stored⟩
      | succ n =>
          refine ⟨rfl, fun y hy => hy, obeys_consoleGetChar ?_⟩
          intro c
          show Program.Obeys userUsage _ _ (if _ then _ else _)
          split
          · exact ⟨rfl, rfl, hks _⟩
          · exact ih _

theorem obeys_storeString (address : Word) (string : List Byte) :
    (storeString space address string).Obeys userUsage none none := by
  apply obeys_update
  · intro t world
    split
    · rfl
    · rfl
  · intro stored
    split
    · exact obeys_returnToUser none
    · trivial

theorem obeys_doThreadCreate (f arg fExit : Word) :
    (doThreadCreate space f arg fExit fun result => returnToUser (some result)).Obeys userUsage none none := by
  have hresult : ∀ result, (Program.semV Sem.threadLock (returnToUser (some result))).Obeys userUsage
      (some .threadLock) none :=
    fun result => ⟨rfl, rfl, obeys_returnToUser _⟩
  refine ⟨rfl, rfl, obeys_update (fun _ _ => rfl) ?_⟩
  intro idx
  unfold createWithStack
  split
  · intro u
    cases u with
    | none =>
        intro t world r
        exact ⟨none, .none fun _ => rfl, hresult _⟩
    | some u =>
        refine obeys_update (fun _ _ => rfl) ?_
        intro _
        refine ⟨?_, hresult _⟩
        intro t world r
        exact ⟨none, .none fun _ => rfl, rfl, rfl⟩
  · exact hresult _

theorem obeys_doThreadExit : doThreadExit.Obeys userUsage none none := by
  refine ⟨rfl, rfl, ?_⟩
  intro t world r
  refine ⟨none, .none ?_, ?_⟩
  · intro x
    cases x with
    | writeDone => rfl
    | _ => rfl
  · show Program.Obeys userUsage _ _ (if _ then _ else _)
    split
    · refine ⟨rfl, rfl, ?_⟩
      intro u world' r'
      refine ⟨none, .none fun _ => rfl, ?_⟩
      show Program.Obeys userUsage _ _ (if _ then _ else _)
      split
      · exact ⟨rfl, rfl⟩
      · trivial
    · trivial

/-- Every system call obeys the discipline. -/
theorem obeys_exceptionHandler (sscanf : List Byte → Word) (fresh : Nat → Nat → Byte) (memory : Nat → Byte)
    (r : Registers) : (exceptionHandler space sscanf fresh memory r).Obeys userUsage none none := by
  have hreturn := obeys_returnToUser
  unfold exceptionHandler
  split
  · trivial
  · refine ⟨rfl, rfl, obeys_consolePutChar ?_ _⟩
    exact ⟨rfl, rfl, rfl, hreturn none⟩
  · split
    · exact ⟨rfl, rfl, obeys_putStringLoop (hreturn none) _⟩
    · trivial
  · trivial
  · refine ⟨rfl, rfl, rfl, fun y hy => hy, obeys_consoleGetChar ?_⟩
    intro c
    exact ⟨rfl, rfl, hreturn _⟩
  · exact ⟨rfl, rfl, obeys_getStringLoop (obeys_storeString _) _ _⟩
  · exact ⟨rfl, rfl, obeys_putStringLoop (hreturn none) _⟩
  · exact ⟨rfl, rfl, obeys_getStringLoop (fun string => hreturn _) _ _⟩
  · exact obeys_doThreadCreate _ _ _
  · exact obeys_doThreadExit
  · trivial

variable {utf8 : Bool} {input : List Byte} {memory : Nat → Byte} {garbage : Nat → Word}

theorem user_governs : userUsage.Governs (userSystem space utf8 input memory garbage) where
  menu c := by
    cases c with
    | compute registers memory general =>
        intro t world r
        refine ⟨none, .none ?_, rfl, rfl⟩
        intro x
        cases x with
        | writeDone => rfl
        | _ => rfl
    | syscall sscanf fresh =>
        intro t world r
        exact ⟨none, .none fun _ => rfl, obeys_exceptionHandler _ _ _ _⟩
  handler i world world' released hhandler := by
    change consoleHandler i world = _ at hhandler
    cases i with
    | readPoll ready =>
        simp only [consoleHandler] at hhandler
        split at hhandler
        · cases hhandler
          have hwrite := Console.checkCharAvail_write ready world.console
          simp only [Prod.mk.injEq] at hwrite
          refine .events ?_ ?_
          · intro x
            cases x with
            | writeDone => exact hwrite.2.1
            | _ => rfl
          · intro x hx
            split at hx
            · rw [List.mem_singleton.mp hx]
              rfl
            · cases hx
        · cases hhandler
    | writeDone =>
        simp only [consoleHandler] at hhandler
        split at hhandler
        · rename_i hpending
          cases hhandler
          refine .one rfl ?_ ?_
          · show world.console.writesPending = world.console.writesPending - 1 + 1
            omega
          · intro y hy
            cases y with
            | writeDone => exact absurd rfl hy
            | _ => rfl
        · cases hhandler
  locks x hx := by
    cases x with
    | readAvail => cases hx
    | writeDone => cases hx
    | _ => rfl
  completions x hx := by
    cases x with
    | writeDone => exact ⟨rfl, rfl⟩
    | _ => cases hx

variable {s : Kernel Sem UserCall World Registers Observation}

/-- Threads of a user program cannot deadlock, whatever system calls they make: the machine can go on without any
input, or every thread that has been started has finished or waits for input, itself or behind a thread that does. -/
theorem user_calls_complete (h : (kernel (userSystem space utf8 input memory garbage) true).Reachable s)
    (hhalted : s.halted = false) :
    (∃ choice, (∀ ready, choice ≠ .interrupt (.readPoll ready)) ∧
        (s.step (userSystem space utf8 input memory garbage) choice).isSome) ∨
      ∀ t th, s.thread t = some th → th.kont = .unstarted ∨ th.kont = .finish ∨
        (∃ k, th.kont = .sleep .readAvail k) ∨
        ∃ k, th.kont = .sleep .readLock k ∧
          ∃ u reader k', s.thread u = some reader ∧ reader.kont = .sleep .readAvail k' := by
  have : Nonempty UserCall := ⟨.syscall (fun _ => 0) fun _ _ => 0⟩
  have hinitial : ∀ x, 0 ≤ (userSystem space utf8 input memory garbage).initialValue x := by
    intro x
    cases x with
    | readAvail => exact le_refl 0
    | writeDone => exact le_refl 0
    | _ => exact Int.one_nonneg
  have hcompletes : ∀ x, userUsage.role x = .completion → 0 < userUsage.pending x s.shared →
      ∃ i, i = .writeDone ∧ ((userSystem space utf8 input memory garbage).handler i s.shared).isSome := by
    intro x hrole hpending
    cases x with
    | writeDone =>
        have hpending : 0 < s.shared.console.writesPending := hpending
        exact ⟨.writeDone, rfl, by simp [userSystem, consoleHandler, hpending]⟩
    | _ => cases hrole
  have hevent : ∀ {x}, userUsage.role x = .event → x = .readAvail := by
    intro x hx
    cases x with
    | readAvail => rfl
    | _ => cases hx
  rcases Kernel.goes_on_or_waits h hhalted user_governs (.inl rfl) hinitial (fun i => i = .writeDone) hcompletes with
    ⟨choice, hchoice, hstep⟩ | hwaits
  · left
    refine ⟨choice, ?_, hstep⟩
    intro ready hready
    cases hchoice _ hready
  · right
    intro t th ht
    rcases hwaits t th ht with hkont | hkont | ⟨x, k, hkont, hrole | ⟨-, u, holder, y, k', hu, hholder, hrole, hlock⟩⟩
    · exact .inl hkont
    · exact .inr (.inl hkont)
    · rw [hevent hrole] at hkont
      exact .inr (.inr (.inl ⟨k, hkont⟩))
    · rw [hevent hrole] at hholder hlock
      cases hlock
      exact .inr (.inr (.inr ⟨k, hkont, u, holder, k', hu, hholder⟩))

/-- The registers at a call of `SC_GetChar`. -/
def getCharRegisters : Registers := fun i =>
  if i = 2 then 13 else if i = pcReg then 132 else if i = nextPCReg then 136 else 0

/-- A thread calls `SC_GetChar` and sleeps until there is input. -/
theorem user_calls_complete_getChar :
    ∃ s k, Kernel.runChoices smallSystem [.call (.compute getCharRegisters (fun _ => 0) (by decide)), .exec, .exec,
        .resume, .exec, .call (.syscall (fun _ => 0) fun _ _ => 0), .exec, .exec, .resume, .exec]
        (Kernel.initial smallSystem true) = some s ∧
      (∃ th, s.thread 1 = some th ∧ th.kont = .sleep .readAvail k) ∧
      ((∃ choice, (∀ ready, choice ≠ .interrupt (.readPoll ready)) ∧ (s.step smallSystem choice).isSome) ∨
        ∀ t th, s.thread t = some th → th.kont = .unstarted ∨ th.kont = .finish ∨
          (∃ k, th.kont = .sleep .readAvail k) ∨
          ∃ k, th.kont = .sleep .readLock k ∧
            ∃ u reader k', s.thread u = some reader ∧ reader.kont = .sleep .readAvail k') := by
  obtain ⟨s, th, k, hrun, hth, hkont, hhalted⟩ : ∃ s th k, Kernel.runChoices smallSystem
      [.call (.compute getCharRegisters (fun _ => 0) (by decide)), .exec, .exec, .resume, .exec,
        .call (.syscall (fun _ => 0) fun _ _ => 0), .exec, .exec, .resume, .exec]
      (Kernel.initial smallSystem true) = some s ∧ s.thread 1 = some th ∧ th.kont = .sleep .readAvail k ∧
      s.halted = false := ⟨_, _, _, rfl, rfl, rfl, rfl⟩
  have hinit : (kernel smallSystem true).Reachable (Kernel.initial smallSystem true) := .init rfl
  exact ⟨s, k, hrun, ⟨th, hth, hkont⟩, user_calls_complete (Kernel.reachable_runChoices hinit hrun) hhalted⟩

end UserProgram

section Post

variable {numBoxes : Nat}

/-- The semaphores of a `PostOffice`. The postal worker waits for mail as for an event. -/
def postUsage (numBoxes : Nat) : Usage PostSem (Post numBoxes) where
  role
    | .messageAvailable => .event
    | .messageSent => .completion
    | .sendLock => .lock
  lockOf _ := none
  pending
    | .messageSent, post => post.network.sendsPending
    | _, _ => 0

variable {format : WireFormat} {ident : NetworkAddress} {lost : Nat → Bool} {inHdr : PacketHeader}
  {inbox : Image Byte} {space : Bool}

theorem pending_postUsage {post post' : Post numBoxes} (h : post'.network.sendsPending = post.network.sendsPending)
    (x : PostSem) : (postUsage numBoxes).pending x post' = (postUsage numBoxes).pending x post := by
  cases x with
  | messageSent => exact h
  | _ => rfl

theorem obeys_networkSend (p : Packet numBoxes) :
    (networkSend ident lost p).Obeys (postUsage numBoxes) (some .sendLock) none := by
  intro t post priv
  cases hmay : post.network.maySend ident p.header with
  | false => exact ⟨none, .none fun x => by simp [hmay], by simp [hmay, Program.Obeys]⟩
  | true =>
      refine ⟨some .messageSent, .one rfl ?_ ?_, ?_⟩
      · simp [hmay, postUsage, Network.send]
      · intro y hy
        cases y with
        | messageSent => exact absurd rfl hy
        | _ => rfl
      · simp [hmay, Program.Obeys, postUsage]

theorem post_governs : (postUsage numBoxes).Governs (postSystem format ident lost numBoxes inHdr inbox) where
  menu c := by
    cases c with
    | send letter fresh wire =>
        show Program.Obeys _ _ _ (if _ then _ else _)
        split
        · exact ⟨rfl, rfl, obeys_networkSend _⟩
        · trivial
    | postalDelivery buffer =>
        refine ⟨rfl, nofun, ?_⟩
        intro t post priv
        refine ⟨none, .none (pending_postUsage (deliver_send format buffer post).1), ?_⟩
        show Program.Obeys _ _ _ (if _ then _ else _)
        split
        · exact ⟨rfl, rfl⟩
        · trivial
    | compute => exact ⟨rfl, rfl⟩
    | fork =>
        intro u
        cases u with
        | none => exact ⟨rfl, rfl⟩
        | some u => exact ⟨⟨rfl, rfl⟩, rfl, rfl⟩
    | exit => exact ⟨rfl, rfl⟩
  handler i post post' released hhandler := by
    cases i with
    | readPoll packet =>
        obtain ⟨hpending, -, -, -, hreleased⟩ := readPoll_send format ident hhandler
        refine .events (pending_postUsage hpending) ?_
        intro x hx
        rw [hreleased x hx]
        rfl
    | sendDone =>
        obtain ⟨hpending, rfl, rfl⟩ := sendDone_cases format ident hhandler
        refine .one rfl ?_ ?_
        · show post.network.sendsPending = post.network.sendsPending - 1 + 1
          omega
        · intro y hy
          cases y with
          | messageSent => exact absurd rfl hy
          | _ => rfl
  locks x hx := by
    cases x with
    | sendLock => rfl
    | _ => cases hx
  completions x hx := by
    cases x with
    | messageSent => exact ⟨rfl, rfl⟩
    | _ => cases hx

variable {s : Kernel PostSem (PostCall numBoxes) (Post numBoxes) Unit Empty}

/-- The calls of `PostOffice::Send` cannot deadlock: the machine can go on without any packet that comes in, or every
thread that has been started has finished or is a postal worker that waits for mail. -/
theorem sends_complete (h : (kernel (postSystem format ident lost numBoxes inHdr inbox) space).Reachable s)
    (hhalted : s.halted = false) :
    (∃ choice, (∀ packet, choice ≠ .interrupt (.readPoll packet)) ∧
        (s.step (postSystem format ident lost numBoxes inHdr inbox) choice).isSome) ∨
      ∀ t th, s.thread t = some th → th.kont = .unstarted ∨ th.kont = .finish ∨
        ∃ k, th.kont = .sleep .messageAvailable k := by
  have : Nonempty (PostCall numBoxes) := ⟨.compute⟩
  have hinitial : ∀ x, 0 ≤ (postSystem format ident lost numBoxes inHdr inbox).initialValue x := by
    intro x
    cases x with
    | sendLock => exact Int.one_nonneg
    | _ => exact le_refl 0
  have hcompletes : ∀ x, (postUsage numBoxes).role x = .completion → 0 < (postUsage numBoxes).pending x s.shared →
      ∃ i, i = .sendDone ∧ ((postSystem format ident lost numBoxes inHdr inbox).handler i s.shared).isSome := by
    intro x hrole hpending
    cases x with
    | messageSent =>
        have hpending : 0 < s.shared.network.sendsPending := hpending
        exact ⟨.sendDone, rfl, by simp [postSystem, networkHandler, hpending]⟩
    | _ => cases hrole
  have hevent : ∀ {x}, (postUsage numBoxes).role x = .event → x = .messageAvailable := by
    intro x hx
    cases x with
    | messageAvailable => rfl
    | _ => cases hx
  rcases Kernel.goes_on_or_waits h hhalted post_governs (.inr inferInstance) hinitial (fun i => i = .sendDone)
    hcompletes with ⟨choice, hchoice, hstep⟩ | hwaits
  · left
    refine ⟨choice, ?_, hstep⟩
    intro packet hpacket
    cases hchoice _ hpacket
  · right
    intro t th ht
    rcases hwaits t th ht with hkont | hkont | ⟨x, k, hkont, hrole | ⟨-, -, -, y, -, -, -, hrole, hlock⟩⟩
    · exact .inl hkont
    · exact .inr (.inl hkont)
    · rw [hevent hrole] at hkont
      exact .inr (.inr ⟨k, hkont⟩)
    · cases hlock

/-- Machine 1 sends an empty letter to machine 2. -/
def emptyLetter : Letter 10 := ⟨⟨2, 1, 0⟩, ⟨0, 0, 0⟩, fun _ => 0, by decide⟩

/-- A machine that sends letters and that nothing is lost on. -/
def smallPost : ThreadSystem PostSem (PostCall 10) (PostInterrupt 10) (Post 10) Unit Empty :=
  postSystem .littleEndian 1 (fun _ => false) 10 ⟨0, 0, 0⟩ fun _ => 0

/-- A thread sleeps until its packet has been sent. -/
theorem sends_complete_empty :
    ∃ s k, Kernel.runChoices smallPost [.call (.send emptyLetter (fun _ => 0) fun _ => 0), .exec, .resume, .exec, .exec]
        (Kernel.initial smallPost false) = some s ∧
      (∃ th, s.thread 1 = some th ∧ th.kont = .sleep .messageSent k) ∧
      ∃ choice, (∀ packet, choice ≠ .interrupt (.readPoll packet)) ∧ (s.step smallPost choice).isSome := by
  obtain ⟨s, th, k, hrun, hth, hkont, hhalted⟩ : ∃ s th k, Kernel.runChoices smallPost
      [.call (.send emptyLetter (fun _ => 0) fun _ => 0), .exec, .resume, .exec, .exec]
      (Kernel.initial smallPost false) = some s ∧ s.thread 1 = some th ∧ th.kont = .sleep .messageSent k ∧
      s.halted = false := ⟨_, _, _, rfl, rfl, rfl, rfl⟩
  have hinit : (kernel smallPost false).Reachable (Kernel.initial smallPost false) := .init rfl
  refine ⟨s, k, hrun, ⟨th, hth, hkont⟩, ?_⟩
  rcases sends_complete (Kernel.reachable_runChoices hinit hrun) hhalted with hstep | hdone
  · exact hstep
  · rcases hdone 1 th hth with h | h | ⟨k', h⟩
    · rw [hkont] at h
      cases h
    · rw [hkont] at h
      cases h
    · rw [hkont] at h
      cases h

end Post

end Nachos

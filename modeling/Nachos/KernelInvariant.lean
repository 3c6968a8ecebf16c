import Mathlib.Data.List.Nodup
import Mathlib.Data.List.Count
import Nachos.Kernel

/-! The lists of the scheduler and of the semaphores hold every thread in the right place, in every
run of the kernel on every system of threads. -/

namespace Nachos

variable {Sem κ ι σ ρ ω : Type}

section History

/-- The threads that `ReadyToRun` put on the ready list, in order. -/
def readiedThreads (log : List (Event Sem κ ω)) : List ThreadId :=
  log.filterMap fun | .readied t => some t | _ => none

/-- The threads that `Run` gave the processor to, in order. -/
def dispatchedThreads (log : List (Event Sem κ ω)) : List ThreadId :=
  log.filterMap fun | .dispatched t => some t | _ => none

def createdThreads (log : List (Event Sem κ ω)) : List ThreadId :=
  log.filterMap fun | .created t => some t | _ => none

def startedThreads (log : List (Event Sem κ ω)) : List ThreadId :=
  log.filterMap fun | .started t => some t | _ => none

def finishedThreads (log : List (Event Sem κ ω)) : List ThreadId :=
  log.filterMap fun | .finished t => some t | _ => none

def destroyedThreads (log : List (Event Sem κ ω)) : List ThreadId :=
  log.filterMap fun | .destroyed t => some t | _ => none

variable (first second : List (Event Sem κ ω))

@[simp] theorem readiedThreads_append :
    readiedThreads (first ++ second) = readiedThreads first ++ readiedThreads second :=
  List.filterMap_append

@[simp] theorem dispatchedThreads_append :
    dispatchedThreads (first ++ second) = dispatchedThreads first ++ dispatchedThreads second :=
  List.filterMap_append

@[simp] theorem createdThreads_append :
    createdThreads (first ++ second) = createdThreads first ++ createdThreads second :=
  List.filterMap_append

@[simp] theorem startedThreads_append :
    startedThreads (first ++ second) = startedThreads first ++ startedThreads second :=
  List.filterMap_append

@[simp] theorem finishedThreads_append :
    finishedThreads (first ++ second) = finishedThreads first ++ finishedThreads second :=
  List.filterMap_append

@[simp] theorem destroyedThreads_append :
    destroyedThreads (first ++ second) = destroyedThreads first ++ destroyedThreads second :=
  List.filterMap_append

/-- The events of a context switch. -/
theorem switch_events {next : ThreadId} {doomed : Option ThreadId} {before after : List (Event Sem κ ω)}
    (h : after = before ++ .dispatched next :: doomed.toList.map .destroyed) :
    readiedThreads after = readiedThreads before ∧
      dispatchedThreads after = dispatchedThreads before ++ [next] ∧
      createdThreads after = createdThreads before ∧
      startedThreads after = startedThreads before ∧
      finishedThreads after = finishedThreads before ∧
      destroyedThreads after = destroyedThreads before ++ doomed.toList := by
  subst h
  cases doomed <;> simp [readiedThreads, dispatchedThreads, createdThreads, startedThreads,
    finishedThreads, destroyedThreads]

theorem count_toList (doomed : Option ThreadId) (t : ThreadId) :
    doomed.toList.count t = if doomed = some t then 1 else 0 := by
  cases doomed with
  | none => rfl
  | some d => simp [List.count_singleton]

/-- The events say nothing about the life of a thread. -/
def Uneventful (log : List (Event Sem κ ω)) : Prop :=
  readiedThreads log = [] ∧ dispatchedThreads log = [] ∧ createdThreads log = [] ∧
    startedThreads log = [] ∧ finishedThreads log = [] ∧ destroyedThreads log = []

end History

/-- The continuations a thread can have in each status. -/
def Kont.Fits : ThreadStatus → Kont Sem σ ρ ω → Prop
  | .justCreated, .unstarted => True
  | .ready, .setup _ => True
  | .ready, .tick _ => True
  | .ready, .sleep _ _ => True
  | .running, .run _ => True
  | .running, .tick _ => True
  | .running, .sleep _ _ => True
  | .blocked, .sleep _ _ => True
  | .blocked, .finish => True
  | _, _ => False

/-- Where a thread goes on once it has the processor again. -/
def Kont.wake : Kont Sem σ ρ ω → Kont Sem σ ρ ω
  | .setup p => .tick p
  | kont => kont

theorem Kont.Fits.wake {kont : Kont Sem σ ρ ω} (h : kont.Fits .ready) : kont.wake.Fits .running := by
  cases kont <;> first | exact h.elim | trivial

/-- The interrupt level at which a thread goes on. -/
def Kont.level : Kont Sem σ ρ ω → IntStatus
  | .setup _ => .intOn
  | .run _ => .intOn
  | .tick _ => .intOn
  | _ => .intOff

theorem Kont.level_wake (kont : Kont Sem σ ρ ω) : kont.wake.level = kont.level := by
  cases kont <;> rfl

namespace Kernel

def statusOf (s : Kernel Sem κ σ ρ ω) (t : ThreadId) : Option ThreadStatus :=
  (s.thread t).map Thread.status

def kontOf (s : Kernel Sem κ σ ρ ω) (t : ThreadId) : Option (Kont Sem σ ρ ω) :=
  (s.thread t).map Thread.kont

/-- Every thread is on the list its status and its continuation call for, and the history accounts
for the lists. This also holds inside a scheduler operation. -/
structure Placed (main : ThreadId) (s : Kernel Sem κ σ ρ ω) : Prop where
  current : (s.statusOf s.currentThread).isSome
  fits : ∀ t status kont, s.statusOf t = some status → s.kontOf t = some kont → kont.Fits status
  readyNodup : s.readyList.Nodup
  readyMem : ∀ t, t ∈ s.readyList ↔ s.statusOf t = some .ready
  queueNodup : ∀ x, (s.sem x).queue.Nodup
  queueMem : ∀ x t, t ∈ (s.sem x).queue ↔
    s.statusOf t = some .blocked ∧ ∃ k, s.kontOf t = some (.sleep x k)
  doomed : ∀ t, s.threadToBeDestroyed = some t ↔ s.kontOf t = some .finish
  order : readiedThreads s.log = dispatchedThreads s.log ++ s.readyList
  existence : ∀ t, (createdThreads s.log).count t + (if t = main then 1 else 0) =
    (destroyedThreads s.log).count t + (if (s.statusOf t).isSome then 1 else 0)
  starts : ∀ t, (createdThreads s.log).count t =
    (startedThreads s.log).count t + (if s.statusOf t = some .justCreated then 1 else 0)
  finishes : ∀ t, (finishedThreads s.log).count t =
    (destroyedThreads s.log).count t + (if s.threadToBeDestroyed = some t then 1 else 0)

/-- The invariant between two steps. While the current thread is in the loop of `Sleep` no thread is
running; otherwise the current thread is the only one, at the level its continuation asks for. -/
structure Inv (main : ThreadId) (s : Kernel Sem κ σ ρ ω) : Prop where
  placed : Placed main s
  idle : s.idling = true → s.level = .intOff ∧ ∀ t, s.statusOf t ≠ some .running
  busy : s.idling = false → s.threadToBeDestroyed = none ∧
    s.statusOf s.currentThread = some .running ∧ s.kontOf s.currentThread ≠ none ∧
    (∀ kont, s.kontOf s.currentThread = some kont → s.level = kont.level) ∧
    ∀ t, s.statusOf t = some .running → t = s.currentThread

section Update

variable {s : Kernel Sem κ σ ρ ω}

theorem modifyThread_statusOf (u : ThreadId) (f : Thread Sem κ σ ρ ω → Thread Sem κ σ ρ ω) :
    (s.modifyThread u f).statusOf =
      Function.update s.statusOf u ((s.thread u).map fun th => (f th).status) := by
  funext t
  by_cases ht : t = u
  · subst ht
    simp [statusOf, modifyThread, Function.comp_def]
  · simp [statusOf, modifyThread, ht]

theorem modifyThread_kontOf (u : ThreadId) (f : Thread Sem κ σ ρ ω → Thread Sem κ σ ρ ω) :
    (s.modifyThread u f).kontOf =
      Function.update s.kontOf u ((s.thread u).map fun th => (f th).kont) := by
  funext t
  by_cases ht : t = u
  · subst ht
    simp [kontOf, modifyThread, Function.comp_def]
  · simp [kontOf, modifyThread, ht]

theorem statusOf_isSome_thread {u : ThreadId} (h : (s.statusOf u).isSome) : (s.thread u).isSome := by
  simpa [statusOf] using h

theorem modifyThread_status_eq {u : ThreadId} (status : ThreadStatus) (hu : (s.statusOf u).isSome) :
    (s.modifyThread u fun th => { th with status := status }).statusOf =
      Function.update s.statusOf u (some status) := by
  obtain ⟨th, hth⟩ := Option.isSome_iff_exists.mp (statusOf_isSome_thread hu)
  rw [modifyThread_statusOf, hth]
  rfl

theorem modifyThread_status_kontOf (u : ThreadId) (status : ThreadStatus) :
    (s.modifyThread u fun th => { th with status := status }).kontOf = s.kontOf := by
  rw [modifyThread_kontOf]
  exact Function.update_eq_self u s.kontOf

theorem setKont_statusOf (kont : Kont Sem σ ρ ω) : (s.setKont kont).statusOf = s.statusOf := by
  rw [setKont, modifyThread_statusOf]
  exact Function.update_eq_self _ s.statusOf

theorem setKont_kontOf (hcurrent : (s.statusOf s.currentThread).isSome) (kont : Kont Sem σ ρ ω) :
    (s.setKont kont).kontOf = Function.update s.kontOf s.currentThread (some kont) := by
  obtain ⟨th, hth⟩ := Option.isSome_iff_exists.mp (statusOf_isSome_thread hcurrent)
  rw [setKont, modifyThread_kontOf, hth]
  rfl

theorem kontOf_isSome (s : Kernel Sem κ σ ρ ω) (t : ThreadId) :
    (s.kontOf t).isSome = (s.statusOf t).isSome := by
  simp [kontOf, statusOf]

/-- The placement only reads the statuses, the continuations, the lists and the life of threads. -/
theorem Placed.congr {main : ThreadId} {s t : Kernel Sem κ σ ρ ω} (h : Placed main s)
    (events : List (Event Sem κ ω)) (hevents : Uneventful events)
    (hstatus : t.statusOf = s.statusOf) (hkont : t.kontOf = s.kontOf)
    (hcurrent : t.currentThread = s.currentThread) (hready : t.readyList = s.readyList)
    (hqueue : ∀ x, (t.sem x).queue = (s.sem x).queue)
    (hdoomed : t.threadToBeDestroyed = s.threadToBeDestroyed) (hlog : t.log = s.log ++ events) :
    Placed main t := by
  obtain ⟨h1, h2, h3, h4, h5, h6⟩ := hevents
  refine ⟨?_, ?_, ?_, ?_, ?_, ?_, ?_, ?_, ?_, ?_, ?_⟩
  · rw [hstatus, hcurrent]; exact h.current
  · rw [hstatus, hkont]; exact h.fits
  · rw [hready]; exact h.readyNodup
  · rw [hready, hstatus]; exact h.readyMem
  · intro x; rw [hqueue]; exact h.queueNodup x
  · intro x; rw [hqueue, hstatus, hkont]; exact h.queueMem x
  · rw [hdoomed, hkont]; exact h.doomed
  · simpa [hlog, h1, h2, hready] using h.order
  · simpa [hlog, h3, h6, hstatus] using h.existence
  · simpa [hlog, h3, h4, hstatus] using h.starts
  · simpa [hlog, h5, h6, hdoomed] using h.finishes

/-- One thread moves: it gets a new status and continuation, and the lists change for it alone. -/
theorem Placed.move {main : ThreadId} {s t : Kernel Sem κ σ ρ ω} (h : Placed main s) (u : ThreadId)
    (status : ThreadStatus) (kont : Kont Sem σ ρ ω) (ready dispatched started finished : List ThreadId)
    (hu : (s.statusOf u).isSome)
    (hstatus : t.statusOf = Function.update s.statusOf u (some status))
    (hkont : t.kontOf = Function.update s.kontOf u (some kont))
    (hfits : kont.Fits status) (hcurrent : t.currentThread = s.currentThread ∨ t.currentThread = u)
    (hnodup : t.readyList.Nodup)
    (hready : ∀ v, v ∈ t.readyList ↔ (v ≠ u ∧ v ∈ s.readyList) ∨ (v = u ∧ status = .ready))
    (hqueueNodup : ∀ x, (t.sem x).queue.Nodup)
    (hqueue : ∀ x v, v ∈ (t.sem x).queue ↔ (v ≠ u ∧ v ∈ (s.sem x).queue) ∨
      (v = u ∧ status = .blocked ∧ ∃ k, kont = .sleep x k))
    (hdoomed : ∀ v, t.threadToBeDestroyed = some v ↔
      (v ≠ u ∧ s.threadToBeDestroyed = some v) ∨ (v = u ∧ kont = .finish))
    (hreadied : readiedThreads t.log = readiedThreads s.log ++ ready)
    (hdispatched : dispatchedThreads t.log = dispatchedThreads s.log ++ dispatched)
    (horder : s.readyList ++ ready = dispatched ++ t.readyList)
    (hcreated : createdThreads t.log = createdThreads s.log)
    (hdestroyed : destroyedThreads t.log = destroyedThreads s.log)
    (hstarted : startedThreads t.log = startedThreads s.log ++ started)
    (hstart : status ≠ .justCreated ∧
      started = if s.statusOf u = some .justCreated then [u] else [])
    (hfinished : finishedThreads t.log = finishedThreads s.log ++ finished)
    (hdue : ∀ v, finished.count v + (if s.threadToBeDestroyed = some v then 1 else 0) =
      if t.threadToBeDestroyed = some v then 1 else 0) :
    Placed main t := by
  refine ⟨?_, ?_, hnodup, ?_, hqueueNodup, ?_, ?_, ?_, ?_, ?_, ?_⟩
  · have hcur := h.current
    rw [hstatus, Function.update_apply]
    grind
  · intro v status' kont'
    have hold := h.fits v status' kont'
    rw [hstatus, hkont]
    simp only [Function.update_apply]
    grind
  · intro v
    have hold := h.readyMem v
    rw [hready, hstatus, Function.update_apply]
    grind
  · intro x v
    have hold := h.queueMem x v
    rw [hqueue, hstatus, hkont]
    simp only [Function.update_apply]
    grind
  · intro v
    have hold := h.doomed v
    rw [hdoomed, hkont, Function.update_apply]
    grind
  · rw [hreadied, hdispatched, h.order, List.append_assoc, List.append_assoc, horder]
  · intro v
    have hold := h.existence v
    rw [hcreated, hdestroyed, hstatus, Function.update_apply]
    grind
  · intro v
    have hold := h.starts v
    obtain ⟨hjust, hlist⟩ := hstart
    rw [hcreated, hstarted, hlist, hstatus, Function.update_apply, List.count_append]
    by_cases hcreated : s.statusOf u = some .justCreated <;> simp [hcreated, List.count_singleton] <;>
      grind
  · intro v
    have hold := h.finishes v
    have := hdue v
    rw [hfinished, hdestroyed, List.count_append]
    omega

end Update

section Run

/-- The state after `Run(next)` with the rest of the ready list, where `th` is the record of `next`. -/
def resumed (next : ThreadId) (rest : List ThreadId) (th : Thread Sem κ σ ρ ω)
    (s : Kernel Sem κ σ ρ ω) : Kernel Sem κ σ ρ ω :=
  { s with
    currentThread := next
    threadToBeDestroyed := none
    readyList := rest
    idling := false
    level := th.kont.level
    thread := fun t =>
      if s.threadToBeDestroyed = some t then none
      else if t = next then some { th with status := .running, kont := th.kont.wake }
      else s.saveUserState.thread t
    machine := if th.space then th.userRegisters else s.machine
    log := s.log ++ .dispatched next :: s.threadToBeDestroyed.toList.map .destroyed }

theorem deleteFinished_eq {s : Kernel Sem κ σ ρ ω}
    (h : s.threadToBeDestroyed ≠ some s.currentThread) :
    s.deleteFinished = .ok { s with
      thread := fun t => if s.threadToBeDestroyed = some t then none else s.thread t
      threadToBeDestroyed := none
      log := s.log ++ s.threadToBeDestroyed.toList.map .destroyed } := by
  cases hdoomed : s.threadToBeDestroyed with
  | none =>
      have hs : s = { s with threadToBeDestroyed := none } := by rw [← hdoomed]
      rw [deleteFinished, hdoomed]
      simp [← hs]
  | some d =>
      have hne : d ≠ s.currentThread := fun heq => h (hdoomed.trans (congrArg some heq))
      have herase : Function.update s.thread d none =
          fun t => if d = t then none else s.thread t := by
        funext t
        rw [Function.update_apply]
        simp only [eq_comm]
      simp [deleteFinished, hdoomed, hne, herase]

theorem restoreUserState_eq {s : Kernel Sem κ σ ρ ω} {th : Thread Sem κ σ ρ ω}
    (h : s.thread s.currentThread = some th) :
    s.restoreUserState = { s with
      machine := if th.space then th.userRegisters else s.machine } := by
  rw [restoreUserState, h]
  dsimp only
  split <;> rfl

theorem afterSwitch_eq {s : Kernel Sem κ σ ρ ω} {th : Thread Sem κ σ ρ ω}
    (h : s.thread s.currentThread = some th) (hfits : th.kont.Fits .ready)
    (hlevel : s.level = .intOff) :
    s.afterSwitch = { s with
      level := th.kont.level
      thread := Function.update s.thread s.currentThread
        (some { th with kont := th.kont.wake }) } := by
  have hsame : Function.update s.thread s.currentThread (some th) = s.thread := by
    rw [← h, Function.update_eq_self]
  cases hkont : th.kont with
  | sleep x k =>
      have hs : ({ th with kont := .sleep x k } : Thread Sem κ σ ρ ω) = th := by rw [← hkont]
      simp [afterSwitch, h, hkont, Kont.wake, Kont.level, hs, hsame, ← hlevel]
  | setup p => simp [afterSwitch, h, hkont, Kont.wake, Kont.level, setKont, modifyThread]
  | tick p => simp [afterSwitch, h, hkont, Kont.wake, Kont.level, setKont, modifyThread]
  | _ => simp [hkont, Kont.Fits] at hfits

theorem afterSwitch_restoreUserState_eq (th : Thread Sem κ σ ρ ω) {s : Kernel Sem κ σ ρ ω}
    (h : s.thread s.currentThread = some th) (hfits : th.kont.Fits .ready)
    (hlevel : s.level = .intOff) :
    s.restoreUserState.afterSwitch = { s with
      machine := if th.space then th.userRegisters else s.machine
      level := th.kont.level
      thread := Function.update s.thread s.currentThread
        (some { th with kont := th.kont.wake }) } := by
  rw [restoreUserState_eq h]
  exact afterSwitch_eq h hfits hlevel

variable {main next : ThreadId} {rest : List ThreadId} {th : Thread Sem κ σ ρ ω}
  {s : Kernel Sem κ σ ρ ω}

theorem run_eq (hlevel : s.level = .intOff) (hth : s.saveUserState.thread next = some th)
    (hfits : th.kont.Fits .ready) (hdoomed : s.threadToBeDestroyed ≠ some next) :
    ({ s with readyList := rest } : Kernel Sem κ σ ρ ω).run next = .ok (s.resumed next rest th) := by
  set s' : Kernel Sem κ σ ρ ω := { s with readyList := rest }
  have hdoomed' : (s'.switchTo next).threadToBeDestroyed ≠ some (s'.switchTo next).currentThread :=
    hdoomed
  have hnext : (if s.threadToBeDestroyed = some next then none else (s'.switchTo next).thread next) =
      some { th with status := .running } := by
    rw [if_neg hdoomed]
    have hth' : s'.saveUserState.thread next = some th := hth
    simp [switchTo, modifyThread, hth']
  rw [run, if_pos hlevel, deleteFinished_eq hdoomed']
  apply congrArg Except.ok
  refine Eq.trans
    (afterSwitch_restoreUserState_eq { th with status := .running } hnext hfits hlevel) ?_
  simp only [resumed, switchTo, saveUserState, modifyThread, List.append_assoc, s']
  congr 1
  funext t
  by_cases ht : t = next
  · subst ht
    simp [hdoomed]
  · simp [ht]

theorem saveUserState_thread (s : Kernel Sem κ σ ρ ω) (t : ThreadId) :
    s.saveUserState.thread t = (s.thread t).map fun th =>
      if t = s.currentThread ∧ th.space then { th with userRegisters := s.machine } else th := by
  by_cases ht : t = s.currentThread
  · subst ht
    simp [saveUserState, modifyThread]
  · simp [saveUserState, modifyThread, ht]

theorem saveUserState_statusOf (s : Kernel Sem κ σ ρ ω) (t : ThreadId) :
    (s.saveUserState.thread t).map Thread.status = s.statusOf t := by
  rw [saveUserState_thread, statusOf, Option.map_map]
  congr 1
  funext th
  simp only [Function.comp_apply]
  split <;> rfl

theorem saveUserState_kontOf (s : Kernel Sem κ σ ρ ω) (t : ThreadId) :
    (s.saveUserState.thread t).map Thread.kont = s.kontOf t := by
  rw [saveUserState_thread, kontOf, Option.map_map]
  congr 1
  funext th
  simp only [Function.comp_apply]
  split <;> rfl

theorem resumed_statusOf (t : ThreadId) : (s.resumed next rest th).statusOf t =
    if s.threadToBeDestroyed = some t then none
    else if t = next then some .running else s.statusOf t := by
  have hsave := saveUserState_statusOf s t
  unfold statusOf at hsave ⊢
  unfold resumed
  grind

theorem resumed_kontOf (t : ThreadId) : (s.resumed next rest th).kontOf t =
    if s.threadToBeDestroyed = some t then none
    else if t = next then some th.kont.wake else s.kontOf t := by
  have hsave := saveUserState_kontOf s t
  unfold kontOf at hsave ⊢
  unfold resumed
  grind

/-- A finished thread that is still there is blocked. -/
theorem Placed.blocked_of_doomed {t : ThreadId} (h : Placed main s)
    (ht : s.threadToBeDestroyed = some t) : s.statusOf t = some .blocked := by
  have hkont := (h.doomed t).mp ht
  have hsome : (s.statusOf t).isSome := by
    rw [← kontOf_isSome, hkont]
    rfl
  obtain ⟨status, hstatus⟩ := Option.isSome_iff_exists.mp hsome
  have hfits := h.fits t _ _ hstatus hkont
  cases status <;> first | exact hstatus | exact hfits.elim

/-- `Run` takes the first thread of the ready list from a state in which no thread runs to one in
which that thread does. -/
theorem Placed.resumed (h : Placed main s) (hlist : s.readyList = next :: rest)
    (hquiet : ∀ t, s.statusOf t ≠ some .running) (hkont : s.kontOf next = some th.kont) :
    Inv main (s.resumed next rest th) := by
  have hready : s.statusOf next = some .ready := by
    rw [← h.readyMem, hlist]
    exact List.mem_cons_self
  have hfits : th.kont.Fits .ready := h.fits next _ _ hready hkont
  have hnodup : next ∉ rest ∧ rest.Nodup := by
    rw [← List.nodup_cons, ← hlist]
    exact h.readyNodup
  have hsurvives : s.threadToBeDestroyed ≠ some next := by
    intro heq
    rw [h.blocked_of_doomed heq] at hready
    cases hready
  have hlog : (s.resumed next rest th).log =
    s.log ++ .dispatched next :: s.threadToBeDestroyed.toList.map .destroyed := rfl
  have hcurrent : (s.resumed next rest th).statusOf next = some .running := by
    rw [resumed_statusOf, if_neg hsurvives, if_pos rfl]
  have hcurrentKont : (s.resumed next rest th).kontOf next = some th.kont.wake := by
    rw [resumed_kontOf, if_neg hsurvives, if_pos rfl]
  obtain ⟨hreadied, hdispatched, hcreated, hstarted, hfinished, hdestroyed⟩ := switch_events hlog
  refine ⟨⟨?_, ?_, hnodup.2, ?_, h.queueNodup, ?_, ?_, ?_, ?_, ?_, ?_⟩, ?_, ?_⟩
  · exact Option.isSome_of_eq_some hcurrent
  · intro t status kont
    have hold := h.fits t status kont
    have hwake := hfits.wake
    rw [resumed_statusOf, resumed_kontOf]
    grind
  · intro t
    have hold := h.readyMem t
    have hblocked := h.blocked_of_doomed (t := t)
    rw [resumed_statusOf]
    change t ∈ rest ↔ _
    grind
  · intro x t
    have hold := h.queueMem x t
    have hdoomed := h.doomed t
    rw [resumed_statusOf, resumed_kontOf]
    change t ∈ (s.sem x).queue ↔ _
    grind
  · intro t
    have hold := h.doomed t
    have hwake : th.kont.wake ≠ .finish := fun heq => by
      have := hfits.wake
      rw [heq] at this
      exact this
    rw [resumed_kontOf]
    change none = some t ↔ _
    grind
  · rw [hreadied, hdispatched, h.order, hlist]
    simp [Kernel.resumed]
  · intro t
    have hold := h.existence t
    have hblocked := h.blocked_of_doomed (t := t)
    rw [hcreated, hdestroyed, List.count_append, count_toList, resumed_statusOf]
    grind
  · intro t
    have hold := h.starts t
    have hblocked := h.blocked_of_doomed (t := t)
    rw [hcreated, hstarted, resumed_statusOf]
    grind
  · intro t
    have hold := h.finishes t
    rw [hfinished, hdestroyed, List.count_append, count_toList]
    simpa [Kernel.resumed] using hold
  · intro hidling
    cases hidling
  · intro _
    refine ⟨rfl, hcurrent, ?_, ?_, ?_⟩
    · rw [show (s.resumed next rest th).currentThread = next from rfl, hcurrentKont]
      exact Option.some_ne_none _
    · intro kont heq
      rw [show (s.resumed next rest th).currentThread = next from rfl, hcurrentKont] at heq
      cases Option.some.inj heq
      exact th.kont.level_wake.symm
    · intro t ht
      rw [resumed_statusOf] at ht
      change t = next
      have := hquiet t
      grind

end Run

section Operations

variable {main : ThreadId} {s t : Kernel Sem κ σ ρ ω}

/-- `Run` of the first thread of the ready list succeeds. -/
theorem Placed.run {next : ThreadId} {rest : List ThreadId} (h : Placed main s)
    (hlist : s.readyList = next :: rest) (hlevel : s.level = .intOff) :
    ∃ th, s.saveUserState.thread next = some th ∧
      ({ s with readyList := rest } : Kernel Sem κ σ ρ ω).run next = .ok (s.resumed next rest th) := by
  have hready : s.statusOf next = some .ready := by
    rw [← h.readyMem, hlist]
    exact List.mem_cons_self
  have hsome : (s.saveUserState.thread next).isSome := by
    rw [← Option.isSome_map (f := Thread.status), saveUserState_statusOf, hready]
    rfl
  obtain ⟨th, hth⟩ := Option.isSome_iff_exists.mp hsome
  have hkont : s.kontOf next = some th.kont := by
    rw [← saveUserState_kontOf, hth]
    rfl
  have hsurvives : s.threadToBeDestroyed ≠ some next := by
    intro heq
    rw [h.blocked_of_doomed heq] at hready
    cases hready
  exact ⟨th, hth, run_eq hlevel hth (h.fits next _ _ hready hkont) hsurvives⟩

theorem Inv.runningCurrent (h : Inv main s) (hbusy : s.idling = false) :
    s.statusOf s.currentThread = some .running := (h.busy hbusy).2.1

theorem Inv.current_not_ready (h : Inv main s) (hbusy : s.idling = false) :
    s.currentThread ∉ s.readyList := by
  rw [h.placed.readyMem, h.runningCurrent hbusy]
  decide

theorem Inv.current_not_queued (h : Inv main s) (hbusy : s.idling = false) (x : Sem) :
    s.currentThread ∉ (s.sem x).queue := by
  rw [h.placed.queueMem, h.runningCurrent hbusy]
  simp

/-- The current thread goes on, at another place of its code. -/
theorem Inv.proceed (h : Inv main s) (hbusy : s.idling = false) (kont : Kont Sem σ ρ ω)
    (events : List (Event Sem κ ω)) (hevents : Uneventful events) (hfits : kont.Fits .running)
    (hstatus : t.statusOf = s.statusOf)
    (hkont : t.kontOf = Function.update s.kontOf s.currentThread (some kont))
    (hlevel : t.level = kont.level) (hcurrent : t.currentThread = s.currentThread)
    (hidling : t.idling = false) (hready : t.readyList = s.readyList)
    (hqueue : ∀ x, (t.sem x).queue = (s.sem x).queue)
    (hdoomed : t.threadToBeDestroyed = s.threadToBeDestroyed) (hlog : t.log = s.log ++ events) :
    Inv main t := by
  obtain ⟨hnone, hrunning, -, -, honly⟩ := h.busy hbusy
  obtain ⟨h1, h2, h3, h4, h5, h6⟩ := hevents
  have hnotReady := h.current_not_ready hbusy
  have hnotQueued := h.current_not_queued hbusy
  have hsame : s.statusOf = Function.update s.statusOf s.currentThread (some .running) := by
    rw [← hrunning, Function.update_eq_self]
  have hnotFinish : kont ≠ .finish := by
    rintro rfl
    exact hfits
  refine ⟨h.placed.move s.currentThread .running kont [] [] [] [] ?_ ?_ hkont hfits (.inl hcurrent) ?_
    ?_ ?_ ?_ ?_ ?_ ?_ ?_ ?_ ?_ ?_ ?_ ?_ ?_, ?_, ?_⟩
  · rw [hrunning]
    rfl
  · rw [hstatus, ← hsame]
  · rw [hready]
    exact h.placed.readyNodup
  · intro v
    rw [hready]
    grind
  · intro x
    rw [hqueue]
    exact h.placed.queueNodup x
  · intro x v
    rw [hqueue]
    have := hnotQueued x
    grind
  · intro v
    rw [hdoomed, hnone]
    simp [hnotFinish]
  · simp [hlog, h1]
  · simp [hlog, h2]
  · simp [hready]
  · simp [hlog, h3]
  · simp [hlog, h6]
  · simp [hlog, h4]
  · simp [hrunning]
  · simp [hlog, h5]
  · intro v
    simp [hdoomed]
  · intro hidle
    rw [hidling] at hidle
    cases hidle
  · intro _
    rw [hcurrent, hstatus, hkont, hdoomed, hlevel, Function.update_self]
    exact ⟨hnone, hrunning, Option.some_ne_none _, fun kont' heq => by rw [Option.some.inj heq], honly⟩


end Operations

end Kernel

end Nachos

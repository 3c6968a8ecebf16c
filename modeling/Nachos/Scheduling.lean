import Nachos.KernelInvariant

/-! Every operation of the scheduler and of the semaphores keeps every thread in its place, so the
invariant holds in every run of the kernel. -/

namespace Nachos

variable {Sem κ ι σ ρ ω : Type}

namespace Kernel

variable {main : ThreadId} {s t : Kernel Sem κ σ ρ ω}

section Switching

theorem findNextToRun_nil (hlist : s.readyList = []) : s.findNextToRun = none := by
  rw [findNextToRun, hlist]
  split <;> rfl

theorem findNextToRun_cons (hhalted : s.halted = false) {next : ThreadId} {rest : List ThreadId}
    (hlist : s.readyList = next :: rest) :
    s.findNextToRun = some (next, { s with readyList := rest }) := by
  rw [findNextToRun, hlist, if_neg (by rw [hhalted]; decide)]

/-- From a state in which no thread runs, `Run` is called with the first thread of the ready list;
when there is none the processor idles. -/
inductive Switch (s : Kernel Sem κ σ ρ ω) : Kernel Sem κ σ ρ ω → Prop where
  | idle (hlist : s.readyList = []) : Switch s s
  | run (next : ThreadId) (rest : List ThreadId) (th : Thread Sem κ σ ρ ω)
      (hlist : s.readyList = next :: rest) (hth : s.saveUserState.thread next = some th) :
      Switch s (s.resumed next rest th)

theorem Placed.switch (h : Placed main s) (hquiet : ∀ t, s.statusOf t ≠ some .running)
    (hlevel : s.level = .intOff) (hidling : s.readyList = [] → s.idling = true)
    (hswitch : Switch s t) : Inv main t := by
  cases hswitch with
  | idle hlist =>
      have hidle := hidling hlist
      refine ⟨h, fun _ => ⟨hlevel, hquiet⟩, fun hbusy => ?_⟩
      rw [hidle] at hbusy
      cases hbusy
  | run next rest th hlist hth =>
      refine h.resumed hlist hquiet ?_
      rw [← saveUserState_kontOf, hth]
      rfl

/-- A thread that has put itself in the right place goes to sleep. -/
theorem Placed.sleep (h : Placed main s.asleep) (hhalted : s.halted = false)
    (hlevel : s.level = .intOff) :
    ∃ t, s.sleep = .ok t ∧ Switch s.asleep t := by
  cases hlist : s.readyList with
  | nil =>
      have hnone : s.asleep.findNextToRun = none := findNextToRun_nil hlist
      refine ⟨s.asleep, ?_, .idle hlist⟩
      rw [Kernel.sleep, if_pos hlevel, hnone]
  | cons next rest =>
      obtain ⟨th, hth, hrun⟩ := h.run hlist hlevel
      refine ⟨_, ?_, .run next rest th hlist hth⟩
      have hsome := findNextToRun_cons (s := s.asleep) hhalted hlist
      rw [Kernel.sleep, if_pos hlevel, hsome]
      exact hrun

/-- The current thread blocks: the state in which `Sleep` looks for the next thread, given where
the thread put itself. -/
theorem Inv.asleep (h : Inv main s) (hbusy : s.idling = false) (kont : Kont Sem σ ρ ω)
    (finished : List ThreadId)
    (hfits : kont.Fits .blocked) (hstatus : t.statusOf = s.statusOf)
    (hkont : t.kontOf = Function.update s.kontOf s.currentThread (some kont))
    (hcurrent : t.currentThread = s.currentThread)
    (hready : t.readyList = s.readyList) (hnodup : ∀ x, (t.sem x).queue.Nodup)
    (hqueue : ∀ x v, v ∈ (t.sem x).queue ↔ v ∈ (s.sem x).queue ∨
      (v = s.currentThread ∧ ∃ k, kont = .sleep x k))
    (hdoomed : ∀ v, t.threadToBeDestroyed = some v ↔ v = s.currentThread ∧ kont = .finish)
    (hreadied : readiedThreads t.log = readiedThreads s.log)
    (hdispatched : dispatchedThreads t.log = dispatchedThreads s.log)
    (hcreated : createdThreads t.log = createdThreads s.log)
    (hdestroyed : destroyedThreads t.log = destroyedThreads s.log)
    (hstarted : startedThreads t.log = startedThreads s.log)
    (hfinished : finishedThreads t.log = finishedThreads s.log ++ finished)
    (hdue : ∀ v, finished.count v = if t.threadToBeDestroyed = some v then 1 else 0) :
    Placed main t.asleep ∧ ∀ v, t.asleep.statusOf v ≠ some .running := by
  obtain ⟨hnone, hrunning, -, -, honly⟩ := h.busy hbusy
  have hsome : (t.statusOf t.currentThread).isSome := by
    rw [hstatus, hcurrent, hrunning]
    rfl
  have hasleep : t.asleep.statusOf = Function.update s.statusOf s.currentThread (some .blocked) := by
    rw [← hstatus, ← hcurrent]
    exact modifyThread_status_eq _ hsome
  have hnotReady := h.current_not_ready hbusy
  have hnotQueued := h.current_not_queued hbusy
  refine ⟨h.placed.move s.currentThread .blocked kont [] [] [] finished ?_ hasleep ?_ hfits
    (.inl hcurrent) ?_ ?_ hnodup ?_ ?_ ?_ ?_ ?_ hcreated hdestroyed ?_ ?_ hfinished ?_, ?_⟩
  · rw [hrunning]
    rfl
  · rw [← hkont]
    exact modifyThread_status_kontOf _ _
  · change t.readyList.Nodup
    rw [hready]
    exact h.placed.readyNodup
  · intro v
    change v ∈ t.readyList ↔ _
    rw [hready]
    grind
  · intro x v
    have := hqueue x v
    have := hnotQueued x
    change v ∈ (t.sem x).queue ↔ _
    grind
  · intro v
    change t.threadToBeDestroyed = some v ↔ _
    rw [hdoomed, hnone]
    grind
  · rw [List.append_nil]
    exact hreadied
  · rw [List.append_nil]
    exact hdispatched
  · rw [List.append_nil, List.nil_append]
    exact hready.symm
  · rw [List.append_nil]
    exact hstarted
  · simp [hrunning]
  · intro v
    rw [hnone, hdue]
    exact Nat.add_zero _
  · intro v
    rw [hasleep, Function.update_apply]
    have := honly v
    grind

/-- `Yield` puts the current thread at the end of the ready list. -/
def yielded (s : Kernel Sem κ σ ρ ω) : Kernel Sem κ σ ρ ω :=
  readyToRun s.currentThread { s with level := .intOff }

theorem Inv.yielded (h : Inv main s) (hbusy : s.idling = false) {p : Program Sem σ ρ ω}
    (hkont : s.kontOf s.currentThread = some (.tick p)) :
    Placed main s.yielded ∧ ∀ v, s.yielded.statusOf v ≠ some .running := by
  obtain ⟨hnone, hrunning, -, -, honly⟩ := h.busy hbusy
  have hsome : (s.statusOf s.currentThread).isSome := h.placed.current
  have hyielded : s.yielded.statusOf = Function.update s.statusOf s.currentThread (some .ready) :=
    modifyThread_status_eq _ hsome
  have hnotReady := h.current_not_ready hbusy
  have hnotQueued := h.current_not_queued hbusy
  refine ⟨h.placed.move s.currentThread .ready (.tick p) [s.currentThread] [] [] [] hsome hyielded ?_
    trivial (.inl rfl) ?_ ?_ h.placed.queueNodup ?_ ?_ ?_ ?_ rfl ?_ ?_ ?_ ?_ ?_ ?_, ?_⟩
  · rw [← hkont, Function.update_eq_self]
    exact modifyThread_status_kontOf _ _
  · exact List.nodup_append.mpr ⟨h.placed.readyNodup, List.nodup_singleton _, by grind⟩
  · intro v
    change v ∈ s.readyList ++ [s.currentThread] ↔ _
    grind
  · intro x v
    have := hnotQueued x
    change v ∈ (s.sem x).queue ↔ _
    grind
  · intro v
    change s.threadToBeDestroyed = some v ↔ _
    rw [hnone]
    simp
  · simp [Kernel.yielded, readyToRun, readiedThreads]
  · simp [Kernel.yielded, readyToRun, dispatchedThreads]
  · simp [Kernel.yielded, readyToRun, createdThreads]
  · simp [Kernel.yielded, readyToRun, destroyedThreads]
  · simp [Kernel.yielded, readyToRun, startedThreads]
  · simp [hrunning]
  · simp [Kernel.yielded, readyToRun, finishedThreads]
  · exact fun v => Nat.zero_add _
  · intro v
    have := honly v
    rw [hyielded, Function.update_apply]
    grind

/-- `Yield` returns at once or switches to the first thread of the ready list. -/
theorem Inv.yield (h : Inv main s) (hbusy : s.idling = false) (hhalted : s.halted = false)
    {p : Program Sem σ ρ ω} (hkont : s.kontOf s.currentThread = some (.tick p)) :
    (s.yield = .ok s ∧ s.readyList = []) ∨ ∃ t, s.yield = .ok t ∧ Switch s.yielded t := by
  have hlevel : s.level = .intOn := (h.busy hbusy).2.2.2.1 _ hkont
  cases hlist : s.readyList with
  | nil =>
      left
      have hnone : ({ s with level := .intOff } : Kernel Sem κ σ ρ ω).findNextToRun = none :=
        findNextToRun_nil hlist
      refine ⟨?_, rfl⟩
      rw [Kernel.yield, hnone, ← hlevel]
  | cons next rest =>
      right
      obtain ⟨hplaced, -⟩ := h.yielded hbusy hkont
      have hlist' : s.yielded.readyList = next :: (rest ++ [s.currentThread]) := by
        change s.readyList ++ [s.currentThread] = _
        rw [hlist]
        rfl
      obtain ⟨th, hth, hrun⟩ := hplaced.run hlist' rfl
      refine ⟨_, ?_, .run next _ th hlist' hth⟩
      have hsome := findNextToRun_cons (s := { s with level := .intOff }) hhalted hlist
      rw [Kernel.yield, hsome]
      exact hrun

/-- `Yield` from a tick of the clock. -/
theorem Inv.preempt (h : Inv main s) (hbusy : s.idling = false) {p : Program Sem σ ρ ω}
    (hkont : s.kontOf s.currentThread = some (.tick p)) (hswitch : Switch s.yielded t) :
    Inv main t := by
  obtain ⟨hplaced, hquiet⟩ := h.yielded hbusy hkont
  refine hplaced.switch hquiet rfl (fun hlist => ?_) hswitch
  exact absurd hlist (by simp [Kernel.yielded, readyToRun])

/-- The state in which `Finish` calls `Sleep`. -/
def finishing (s : Kernel Sem κ σ ρ ω) : Kernel Sem κ σ ρ ω :=
  { s.setKont .finish with
    level := .intOff
    threadToBeDestroyed := some s.currentThread
    log := s.log ++ [.finished s.currentThread] }

theorem Inv.finishing (h : Inv main s) (hbusy : s.idling = false) :
    Placed main s.finishing.asleep ∧ ∀ v, s.finishing.asleep.statusOf v ≠ some .running := by
  refine h.asleep hbusy .finish [s.currentThread] trivial (setKont_statusOf _)
    (setKont_kontOf h.placed.current _) rfl rfl h.placed.queueNodup ?_ ?_ ?_ ?_ ?_ ?_ ?_ ?_ ?_
  · intro x v
    change v ∈ (s.sem x).queue ↔ _
    simp
  · intro v
    change some s.currentThread = some v ↔ _
    simp [eq_comm]
  · simp [Kernel.finishing, readiedThreads]
  · simp [Kernel.finishing, dispatchedThreads]
  · simp [Kernel.finishing, createdThreads]
  · simp [Kernel.finishing, destroyedThreads]
  · simp [Kernel.finishing, startedThreads]
  · simp [Kernel.finishing, finishedThreads]
  · intro v
    change _ = if some s.currentThread = some v then 1 else 0
    simp [List.count_singleton]

theorem Inv.finish (h : Inv main s) (hbusy : s.idling = false) :
    s.finish = s.finishing.sleep := by
  rw [Kernel.finish, (h.busy hbusy).1]
  rfl

/-- The state after `Start` of a thread that has not been started. -/
def started (u : ThreadId) (body k : Program Sem σ ρ ω) (s : Kernel Sem κ σ ρ ω) :
    Kernel Sem κ σ ρ ω :=
  { ((s.modifyThread u fun th => { th with kont := .setup body }).readyToRun u).setKont (.tick k) with
    level := .intOn
    log := s.log ++ [.readied u, .started u] }

/-- A thread gets a stack and goes to the ready list. -/
theorem Inv.spawn (h : Inv main s) {u : ThreadId} (hu : s.statusOf u = some .justCreated)
    (body : Program Sem σ ρ ω)
    (hstatus : t.statusOf = Function.update s.statusOf u (some .ready))
    (hkont : t.kontOf = Function.update s.kontOf u (some (.setup body)))
    (hcurrent : t.currentThread = s.currentThread) (hlevel : t.level = s.level)
    (hidling : t.idling = s.idling) (hready : t.readyList = s.readyList ++ [u])
    (hsem : t.sem = s.sem) (hdoomed : t.threadToBeDestroyed = s.threadToBeDestroyed)
    (hlog : t.log = s.log ++ [.readied u, .started u]) : Inv main t := by
  have hsome : (s.statusOf u).isSome := by
    rw [hu]
    rfl
  have hnotReady : u ∉ s.readyList := by
    rw [h.placed.readyMem, hu]
    decide
  have hnotQueued : ∀ x, u ∉ (s.sem x).queue := by
    intro x
    rw [h.placed.queueMem, hu]
    simp
  have hnotDoomed : s.threadToBeDestroyed ≠ some u := by
    intro heq
    rw [h.placed.blocked_of_doomed heq] at hu
    cases hu
  refine ⟨h.placed.move u .ready (.setup body) [u] [] [u] [] hsome hstatus hkont trivial (.inl hcurrent)
    ?_ ?_ ?_ ?_ ?_ ?_ ?_ ?_ ?_ ?_ ?_ ?_ ?_ ?_, ?_, ?_⟩
  · rw [hready]
    exact List.nodup_append.mpr ⟨h.placed.readyNodup, List.nodup_singleton _, by grind⟩
  · intro v
    rw [hready]
    grind
  · rw [hsem]
    exact h.placed.queueNodup
  · intro x v
    have := hnotQueued x
    rw [hsem]
    grind
  · intro v
    rw [hdoomed]
    grind
  · simp [hlog, readiedThreads]
  · simp [hlog, dispatchedThreads]
  · rw [hready]
    rfl
  · simp [hlog, createdThreads]
  · simp [hlog, destroyedThreads]
  · simp [hlog, startedThreads]
  · simp [hu]
  · simp [hlog, finishedThreads]
  · intro v
    rw [hdoomed]
    exact Nat.zero_add _
  · intro hidle
    rw [hidling] at hidle
    rw [hlevel, hstatus]
    refine ⟨(h.idle hidle).1, fun v => ?_⟩
    have := (h.idle hidle).2 v
    rw [Function.update_apply]
    grind
  · intro hbusy
    rw [hidling] at hbusy
    obtain ⟨h1, h2, h3, h4, h5⟩ := h.busy hbusy
    have hne : s.currentThread ≠ u := by
      intro heq
      rw [heq, hu] at h2
      cases h2
    rw [hcurrent, hdoomed, hlevel, hstatus, hkont, Function.update_of_ne hne, Function.update_of_ne hne]
    refine ⟨h1, h2, h3, h4, fun v => ?_⟩
    have := h5 v
    rw [Function.update_apply]
    grind

theorem Inv.started (h : Inv main s) (hbusy : s.idling = false) {u : ThreadId}
    (hu : s.statusOf u = some .justCreated) (body k : Program Sem σ ρ ω) :
    Inv main (s.started u body k) := by
  have hsome : (s.statusOf u).isSome := by
    rw [hu]
    rfl
  set allocated := s.modifyThread u fun th => { th with kont := .setup body }
  have hstatus : allocated.statusOf = s.statusOf := by
    rw [modifyThread_statusOf]
    exact Function.update_eq_self u s.statusOf
  have hkont : allocated.kontOf = Function.update s.kontOf u (some (.setup body)) := by
    obtain ⟨th, hth⟩ := Option.isSome_iff_exists.mp (statusOf_isSome_thread hsome)
    rw [modifyThread_kontOf, hth]
    rfl
  have hspawn : Inv main { allocated.readyToRun u with log := s.log ++ [.readied u, .started u] } := by
    refine h.spawn hu body ?_ ?_ rfl rfl rfl rfl rfl rfl rfl
    · rw [← hstatus]
      refine modifyThread_status_eq _ ?_
      rw [hstatus]
      exact hsome
    · rw [← hkont]
      exact modifyThread_status_kontOf u .ready
  refine hspawn.proceed hbusy (.tick k) [] ⟨rfl, rfl, rfl, rfl, rfl, rfl⟩ trivial (setKont_statusOf _)
    (setKont_kontOf hspawn.placed.current _) rfl rfl hbusy rfl (fun _ => rfl) rfl ?_
  exact (List.append_nil _).symm

/-- A new thread object. -/
theorem Inv.create (h : Inv main s) {u : ThreadId} (hu : s.statusOf u = none)
    (hstatus : t.statusOf = Function.update s.statusOf u (some .justCreated))
    (hkont : t.kontOf = Function.update s.kontOf u (some .unstarted))
    (hcurrent : t.currentThread = s.currentThread) (hlevel : t.level = s.level)
    (hidling : t.idling = s.idling) (hready : t.readyList = s.readyList)
    (hsem : t.sem = s.sem) (hdoomed : t.threadToBeDestroyed = s.threadToBeDestroyed)
    (hlog : t.log = s.log ++ [.created u]) : Inv main t := by
  have hne : s.currentThread ≠ u := by
    intro heq
    have := h.placed.current
    rw [heq, hu] at this
    cases this
  have hkontNone : s.kontOf u = none := by
    rw [← Option.not_isSome_iff_eq_none, kontOf_isSome, hu]
    decide
  refine ⟨⟨?_, ?_, ?_, ?_, ?_, ?_, ?_, ?_, ?_, ?_, ?_⟩, ?_, ?_⟩
  · rw [hstatus, hcurrent, Function.update_of_ne hne]
    exact h.placed.current
  · intro v status kont
    have hold := h.placed.fits v status kont
    rw [hstatus, hkont, Function.update_apply, Function.update_apply]
    split
    · intro h1 h2
      cases h1
      cases h2
      trivial
    · exact hold
  · rw [hready]
    exact h.placed.readyNodup
  · intro v
    have hold := h.placed.readyMem v
    rw [hready, hstatus, Function.update_apply]
    grind
  · rw [hsem]
    exact h.placed.queueNodup
  · intro x v
    have hold := h.placed.queueMem x v
    rw [hsem, hstatus, hkont, Function.update_apply, Function.update_apply]
    grind
  · intro v
    have hold := h.placed.doomed v
    rw [hdoomed, hkont, Function.update_apply]
    grind
  · rw [hlog, hready, readiedThreads_append, dispatchedThreads_append, h.placed.order]
    simp [readiedThreads, dispatchedThreads]
  · intro v
    have hold := h.placed.existence v
    have hone : createdThreads ([.created u] : List (Event Sem κ ω)) = [u] := rfl
    have hnone : destroyedThreads ([.created u] : List (Event Sem κ ω)) = [] := rfl
    rw [hlog, createdThreads_append, destroyedThreads_append, hone, hnone, hstatus,
      Function.update_apply, List.append_nil, List.count_append, List.count_singleton]
    grind
  · intro v
    have hold := h.placed.starts v
    have hone : createdThreads ([.created u] : List (Event Sem κ ω)) = [u] := rfl
    have hnone : startedThreads ([.created u] : List (Event Sem κ ω)) = [] := rfl
    rw [hlog, createdThreads_append, startedThreads_append, hone, hnone, hstatus,
      Function.update_apply, List.append_nil, List.count_append, List.count_singleton]
    grind
  · intro v
    rw [hlog, finishedThreads_append, destroyedThreads_append, hdoomed]
    simpa [finishedThreads, destroyedThreads] using h.placed.finishes v
  · intro hidle
    rw [hidling] at hidle
    rw [hlevel, hstatus]
    refine ⟨(h.idle hidle).1, fun v => ?_⟩
    have := (h.idle hidle).2 v
    rw [Function.update_apply]
    grind
  · intro hbusy
    rw [hidling] at hbusy
    obtain ⟨h1, h2, h3, h4, h5⟩ := h.busy hbusy
    rw [hcurrent, hdoomed, hlevel, hstatus, hkont, Function.update_of_ne hne, Function.update_of_ne hne]
    refine ⟨h1, h2, h3, h4, fun v => ?_⟩
    have := h5 v
    rw [Function.update_apply]
    grind

theorem Inv.setKont (h : Inv main s) (hbusy : s.idling = false) {kont : Kont Sem σ ρ ω}
    (hfits : kont.Fits .running) (hlevel : s.level = kont.level) : Inv main (s.setKont kont) :=
  h.proceed hbusy kont [] ⟨rfl, rfl, rfl, rfl, rfl, rfl⟩ hfits (setKont_statusOf _)
    (setKont_kontOf h.placed.current _) hlevel rfl hbusy rfl (fun _ => rfl) rfl (List.append_nil _).symm

theorem Inv.emit (h : Inv main s) {events : List (Event Sem κ ω)} (hevents : Uneventful events)
    (halted : Bool) (shared : σ) (machine : ρ) :
    Inv main { s with
      halted := halted
      shared := shared
      machine := machine
      log := s.log ++ events } :=
  ⟨h.placed.congr events hevents rfl rfl rfl rfl (fun _ => rfl) rfl rfl, h.idle, h.busy⟩

theorem uneventful_observed (u : ThreadId) (os : List ω) :
    Uneventful (os.map (.observed u) : List (Event Sem κ ω)) := by
  simp [Uneventful, readiedThreads, dispatchedThreads, createdThreads, startedThreads, finishedThreads,
    destroyedThreads]

theorem initial_inv (system : ThreadSystem Sem κ ι σ ρ ω) (space : Bool) :
    Inv system.main (initial system space) := by
  have hstatus : (initial system space).statusOf =
      Function.update (fun _ => none) system.main (some .running) := by
    funext t
    simp only [statusOf, initial, Function.update_apply]
    split <;> rfl
  have hkont : (initial system space).kontOf =
      Function.update (fun _ => none) system.main (some (.run .ret)) := by
    funext t
    simp only [kontOf, initial, Function.update_apply]
    split <;> rfl
  have hcurrent : (initial system space).currentThread = system.main := rfl
  refine ⟨⟨?_, ?_, List.nodup_nil, ?_, fun _ => List.nodup_nil, ?_, ?_, rfl, ?_, ?_, ?_⟩, ?_, ?_⟩
  · rw [hstatus, hcurrent, Function.update_self]
    rfl
  · intro t status kont
    rw [hstatus, hkont]
    simp only [Function.update_apply]
    grind [Kont.Fits]
  · intro t
    rw [hstatus, Function.update_apply]
    simp only [initial, List.not_mem_nil, false_iff]
    grind
  · intro x t
    rw [hstatus, Function.update_apply]
    simp only [initial, List.not_mem_nil, false_iff]
    grind
  · intro t
    rw [hkont, Function.update_apply]
    simp only [initial]
    grind
  · intro t
    rw [hstatus, Function.update_apply]
    simp only [initial, createdThreads, destroyedThreads, List.filterMap_nil, List.count_nil]
    grind
  · intro t
    rw [hstatus, Function.update_apply]
    simp only [initial, createdThreads, startedThreads, List.filterMap_nil, List.count_nil]
    grind
  · intro t
    simp [initial, finishedThreads, destroyedThreads]
  · intro hidling
    cases hidling
  · intro _
    rw [hstatus, hkont, hcurrent, Function.update_self, Function.update_self]
    refine ⟨rfl, rfl, Option.some_ne_none _, ?_, ?_⟩
    · intro kont heq
      cases heq
      rfl
    · intro t
      rw [Function.update_apply]
      grind

theorem Inv.ready_count (h : Inv main s) (t : ThreadId) :
    s.readyList.count t = if s.statusOf t = some .ready then 1 else 0 := by
  rw [h.placed.readyNodup.count]
  simp only [h.placed.readyMem]

theorem Inv.blocked_place (h : Inv main s) {t : ThreadId} (ht : s.statusOf t = some .blocked) :
    (∃ x, (s.sem x).queue.count t = 1 ∧ ∀ y, t ∈ (s.sem y).queue → y = x) ∨
      (s.threadToBeDestroyed = some t ∧ ∀ y, t ∉ (s.sem y).queue) := by
  have hsome : (s.kontOf t).isSome := by
    rw [kontOf_isSome, ht]
    rfl
  obtain ⟨kont, hkont⟩ := Option.isSome_iff_exists.mp hsome
  have hfits := h.placed.fits t _ _ ht hkont
  cases kont with
  | sleep x k =>
      left
      refine ⟨x, ?_, ?_⟩
      · exact List.count_eq_one_of_mem (h.placed.queueNodup x)
          ((h.placed.queueMem x t).mpr ⟨ht, k, hkont⟩)
      · intro y hmem
        obtain ⟨-, k', hkont'⟩ := (h.placed.queueMem y t).mp hmem
        rw [hkont] at hkont'
        cases hkont'
        rfl
  | finish =>
      right
      refine ⟨(h.placed.doomed t).mpr hkont, ?_⟩
      intro y hmem
      obtain ⟨-, k', hkont'⟩ := (h.placed.queueMem y t).mp hmem
      rw [hkont] at hkont'
      cases hkont'
  | _ => exact hfits.elim

end Switching

section Semaphores

variable [DecidableEq Sem]

theorem semaphoreV_nil {x : Sem} (hqueue : (s.sem x).queue = []) (caller : Option ThreadId) :
    s.semaphoreV x caller = { s.modifySem x (fun sem => { sem with value := sem.value + 1 }) with
      log := s.log ++ [.released x caller] } := by
  rw [semaphoreV, hqueue]

theorem semaphoreV_cons {x : Sem} {u : ThreadId} {rest : List ThreadId}
    (hqueue : (s.sem x).queue = u :: rest) (caller : Option ThreadId) :
    s.semaphoreV x caller = { s.modifyThread u (fun th => { th with status := .ready }) with
      sem := Function.update s.sem x ⟨(s.sem x).value + 1, rest⟩
      readyList := s.readyList ++ [u]
      log := s.log ++ [.readied u, .released x caller] } := by
  rw [semaphoreV, hqueue]
  simp [modifySem, readyToRun, modifyThread]

theorem Placed.semaphoreV (h : Placed main s) (x : Sem) (caller : Option ThreadId) :
    Placed main (s.semaphoreV x caller) := by
  cases hqueue : (s.sem x).queue with
  | nil =>
      rw [semaphoreV_nil hqueue]
      refine h.congr [.released x caller] ⟨rfl, rfl, rfl, rfl, rfl, rfl⟩ rfl rfl rfl rfl ?_ rfl rfl
      intro y
      by_cases hy : y = x
      · subst hy
        simp [modifySem]
      · simp [modifySem, hy]
  | cons u rest =>
      have hu : s.statusOf u = some .blocked ∧ ∃ k, s.kontOf u = some (.sleep x k) := by
        rw [← h.queueMem, hqueue]
        exact List.mem_cons_self
      obtain ⟨hblocked, k, hkont⟩ := hu
      have hother : ∀ y, y ≠ x → u ∉ (s.sem y).queue := by
        intro y hy hmem
        obtain ⟨-, k', hk'⟩ := (h.queueMem y u).mp hmem
        rw [hkont] at hk'
        cases hk'
        exact hy rfl
      have hnodup : u ∉ rest ∧ rest.Nodup := by
        rw [← List.nodup_cons, ← hqueue]
        exact h.queueNodup x
      have hnotReady : u ∉ s.readyList := by
        rw [h.readyMem, hblocked]
        decide
      have hsome : (s.statusOf u).isSome := by
        rw [hblocked]
        rfl
      have hsame : s.kontOf = Function.update s.kontOf u (some (.sleep x k)) := by
        rw [← hkont, Function.update_eq_self]
      rw [semaphoreV_cons hqueue]
      refine h.move u .ready (.sleep x k) [u] [] [] [] hsome (modifyThread_status_eq _ hsome) ?_ trivial
        (.inl rfl) ?_ ?_ ?_ ?_ ?_ ?_ ?_ rfl ?_ ?_ ?_ ?_ ?_ ?_
      · rw [← hsame]
        exact modifyThread_status_kontOf u .ready
      · exact List.nodup_append.mpr ⟨h.readyNodup, List.nodup_singleton u, by grind⟩
      · intro v
        simp only [List.mem_append, List.mem_singleton]
        grind
      · intro y
        have := h.queueNodup y
        simp only [Function.update_apply]
        grind
      · intro y v
        have := hother y
        simp only [Function.update_apply]
        grind
      · intro v
        have := h.doomed v
        simp only [modifyThread]
        grind
      · simp [readiedThreads]
      · simp [dispatchedThreads]
      · simp [createdThreads]
      · simp [destroyedThreads]
      · simp [startedThreads]
      · simp [hblocked]
      · simp [finishedThreads]
      · exact fun v => Nat.zero_add _

theorem semaphoreV_kontOf (x : Sem) (caller : Option ThreadId) :
    (s.semaphoreV x caller).kontOf = s.kontOf := by
  cases hqueue : (s.sem x).queue with
  | nil =>
      rw [semaphoreV_nil hqueue]
      rfl
  | cons u rest =>
      rw [semaphoreV_cons hqueue]
      exact modifyThread_status_kontOf u .ready

theorem semaphoreV_fixed (x : Sem) (caller : Option ThreadId) :
    (s.semaphoreV x caller).currentThread = s.currentThread ∧
      (s.semaphoreV x caller).threadToBeDestroyed = s.threadToBeDestroyed ∧
      (s.semaphoreV x caller).idling = s.idling ∧ (s.semaphoreV x caller).level = s.level := by
  cases hqueue : (s.sem x).queue with
  | nil =>
      rw [semaphoreV_nil hqueue]
      exact ⟨rfl, rfl, rfl, rfl⟩
  | cons u rest =>
      rw [semaphoreV_cons hqueue]
      exact ⟨rfl, rfl, rfl, rfl⟩

/-- `V` makes a blocked thread ready and changes no other status. -/
theorem Placed.semaphoreV_running (h : Placed main s) (x : Sem) (caller : Option ThreadId)
    (t : ThreadId) :
    (s.semaphoreV x caller).statusOf t = some .running ↔ s.statusOf t = some .running := by
  cases hqueue : (s.sem x).queue with
  | nil =>
      rw [semaphoreV_nil hqueue]
      rfl
  | cons u rest =>
      have hu : s.statusOf u = some .blocked := by
        refine ((h.queueMem x u).mp ?_).1
        rw [hqueue]
        exact List.mem_cons_self
      have hstatus := modifyThread_status_eq (s := s) (u := u) .ready (by rw [hu]; rfl)
      rw [semaphoreV_cons hqueue]
      change (s.modifyThread u fun th => { th with status := .ready }).statusOf t = _ ↔ _
      rw [hstatus, Function.update_apply]
      grind

theorem Inv.semaphoreV (h : Inv main s) (x : Sem) (caller : Option ThreadId) :
    Inv main (s.semaphoreV x caller) := by
  obtain ⟨hcurrent, hdoomed, hidling, hlevel⟩ := semaphoreV_fixed (s := s) x caller
  have hrunning := h.placed.semaphoreV_running x caller
  refine ⟨h.placed.semaphoreV x caller, ?_, ?_⟩
  · intro hidle
    rw [hidling] at hidle
    rw [hlevel]
    refine ⟨(h.idle hidle).1, fun t ht => (h.idle hidle).2 t ((hrunning t).mp ht)⟩
  · intro hbusy
    rw [hidling] at hbusy
    rw [hcurrent, hdoomed, hlevel, semaphoreV_kontOf, hrunning]
    obtain ⟨h1, h2, h3, h4, h5⟩ := h.busy hbusy
    exact ⟨h1, h2, h3, h4, fun t ht => h5 t ((hrunning t).mp ht)⟩

theorem Inv.releaseAll (released : List Sem) (h : Inv main s) : Inv main (s.releaseAll released) := by
  induction released generalizing s with
  | nil => exact h
  | cons x rest ih => exact ih (h.semaphoreV x none)

/-- A handler of a device interrupt keeps the invariant. -/
theorem Inv.interrupt (h : Inv main s) (shared : σ) (released : List Sem) :
    Inv main (Kernel.releaseAll released { s with shared := shared }) := by
  refine Inv.releaseAll released ?_
  exact ⟨h.placed.congr [] ⟨rfl, rfl, rfl, rfl, rfl, rfl⟩ rfl rfl rfl rfl (fun _ => rfl) rfl
    (List.append_nil _).symm, h.idle, h.busy⟩

/-- The state in which `P` calls `Sleep`. -/
def queued (x : Sem) (k : Program Sem σ ρ ω) (s : Kernel Sem κ σ ρ ω) : Kernel Sem κ σ ρ ω :=
  { (s.modifySem x fun sem => { sem with queue := sem.queue ++ [s.currentThread] }).setKont
      (.sleep x k) with
    level := .intOff }

theorem Inv.queued (h : Inv main s) (hbusy : s.idling = false) (x : Sem) (k : Program Sem σ ρ ω) :
    Placed main (s.queued x k).asleep ∧ ∀ v, (s.queued x k).asleep.statusOf v ≠ some .running := by
  have hcurrent : (s.statusOf s.currentThread).isSome := h.placed.current
  have hnotQueued := h.current_not_queued hbusy
  obtain ⟨hnone, -⟩ := h.busy hbusy
  refine h.asleep hbusy (.sleep x k) [] trivial ?_ ?_ rfl rfl ?_ ?_ ?_ rfl rfl rfl rfl rfl
    (List.append_nil _).symm ?_
  · exact setKont_statusOf _
  · exact setKont_kontOf hcurrent _
  · intro y
    have hnodup := h.placed.queueNodup y
    change (Function.update s.sem x _ y).queue.Nodup
    rw [Function.update_apply]
    split
    case isTrue hy =>
      subst hy
      exact List.nodup_append.mpr ⟨hnodup, List.nodup_singleton _, by grind⟩
    case isFalse => exact hnodup
  · intro y v
    change v ∈ (Function.update s.sem x _ y).queue ↔ _
    by_cases hy : y = x
    · subst hy
      simp
    · have hx : x ≠ y := Ne.symm hy
      simp [hy, hx]
  · intro v
    change s.threadToBeDestroyed = some v ↔ _
    rw [hnone]
    simp
  · intro v
    change _ = if s.threadToBeDestroyed = some v then 1 else 0
    rw [hnone]
    rfl

theorem semaphoreP_zero (hlevel : s.level = .intOff) {x : Sem} (hvalue : (s.sem x).value = 0)
    (k : Program Sem σ ρ ω) : s.semaphoreP x k = (s.queued x k).sleep := by
  rw [semaphoreP, if_pos hvalue, queued, ← hlevel]
  rfl

/-- The state after the decrement of `P`. -/
def passed (x : Sem) (k : Program Sem σ ρ ω) (s : Kernel Sem κ σ ρ ω) : Kernel Sem κ σ ρ ω :=
  { (s.modifySem x fun sem => { sem with value := sem.value - 1 }).setKont (.tick k) with
    level := .intOn
    log := s.log ++ [.passed x s.currentThread ((s.thread s.currentThread).bind Thread.call)] }

theorem semaphoreP_pass {x : Sem} (hvalue : (s.sem x).value ≠ 0) (k : Program Sem σ ρ ω) :
    s.semaphoreP x k = .ok (s.passed x k) := by
  rw [semaphoreP, if_neg hvalue]
  rfl

theorem Inv.passed (h : Inv main s) (hbusy : s.idling = false) (x : Sem) (k : Program Sem σ ρ ω) :
    Inv main (s.passed x k) := by
  refine h.proceed hbusy (.tick k)
    [.passed x s.currentThread ((s.thread s.currentThread).bind Thread.call)]
    ⟨rfl, rfl, rfl, rfl, rfl, rfl⟩ trivial (setKont_statusOf _) (setKont_kontOf h.placed.current _) rfl rfl
    hbusy rfl ?_ rfl rfl
  intro y
  change (Function.update s.sem x _ y).queue = _
  rw [Function.update_apply]
  grind

end Semaphores

end Kernel

end Nachos

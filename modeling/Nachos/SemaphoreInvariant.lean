import Mathlib.Data.List.Induction
import Nachos.KernelSteps

/-! The value of a semaphore is what the history of its calls says, and no wake-up is lost. A thread
that `V` took off the queue tests the value again when it gets the processor, so another thread may
have passed in between; what bounds the value is the number of threads that are between the two. -/

namespace Nachos

variable {Sem κ ι σ ρ ω : Type}

section History

variable [DecidableEq Sem]

/-- The number of calls of `V` on `x`. -/
def releases (x : Sem) (log : List (Event Sem κ ω)) : Nat :=
  log.countP fun | .released y _ => y = x | _ => false

/-- The number of calls of `P` on `x` that have passed the decrement. -/
def passes (x : Sem) (log : List (Event Sem κ ω)) : Nat :=
  log.countP fun | .passed y _ _ => y = x | _ => false

@[simp] theorem releases_append (x : Sem) (first second : List (Event Sem κ ω)) :
    releases x (first ++ second) = releases x first + releases x second := List.countP_append

@[simp] theorem passes_append (x : Sem) (first second : List (Event Sem κ ω)) :
    passes x (first ++ second) = passes x first + passes x second := List.countP_append

/-- The threads that have passed `l` and not yet released it, as a lock's holders do. -/
def holders (l : Sem) : List (Event Sem κ ω) → List ThreadId :=
  List.foldl (fun held event =>
    match event with
    | .passed y t _ => if y = l then t :: held else held
    | .released y (some t) => if y = l then held.erase t else held
    | _ => held) []

/-- Every release of `l` in the history is made by a thread that holds it. -/
def OnlyHolderReleases (l : Sem) (log : List (Event Sem κ ω)) : Prop :=
  ∀ before caller after, log = before ++ .released l caller :: after →
    ∃ t, caller = some t ∧ t ∈ holders l before

/-- As long as only holders release, each pass adds a holder and each release removes one. -/
theorem holders_length {l : Sem} {log : List (Event Sem κ ω)} (h : OnlyHolderReleases l log) :
    (holders l log).length + releases l log = passes l log := by
  induction log using List.reverseRecOn with
  | nil => rfl
  | append_singleton before event ih =>
      have hbefore : OnlyHolderReleases l before := by
        intro first caller rest heq
        exact h first caller (rest ++ [event]) (by rw [heq]; simp)
      have hlength := ih hbefore
      rw [releases_append, passes_append, holders, List.foldl_append]
      change (List.foldl _ (holders l before) [event]).length + _ = _
      cases event with
      | passed y t c =>
          by_cases hy : y = l
          · simp [hy, releases, passes] at hlength ⊢
            omega
          · simp [hy, releases, passes] at hlength ⊢
            omega
      | released y caller =>
          by_cases hy : y = l
          · subst hy
            obtain ⟨t, rfl, hmem⟩ := h before caller [] rfl
            have herase := List.length_erase_of_mem hmem
            have hpos := List.length_pos_of_mem hmem
            simp [releases, passes] at hlength ⊢
            omega
          · cases caller <;> simp [hy, releases, passes] at hlength ⊢ <;> omega
      | _ =>
          simp [releases, passes] at hlength ⊢
          omega

end History

namespace Kernel

/-- The thread `t` was removed from the queue of `x` and has not tested the value again. -/
def Woken (x : Sem) (s : Kernel Sem κ σ ρ ω) (t : ThreadId) : Prop :=
  s.statusOf t ≠ some .blocked ∧ ∃ k, s.kontOf t = some (.sleep x k)

variable [DecidableEq Sem]

/-- The invariant of a semaphore with initial value `n`. -/
structure Balanced (n : Int) (x : Sem) (s : Kernel Sem κ σ ρ ω) : Prop where
  nonneg : 0 ≤ (s.sem x).value
  balance : (s.sem x).value = n + releases x s.log - passes x s.log
  awake : ∃ woken : List ThreadId, woken.Nodup ∧ (∀ t, t ∈ woken ↔ Woken x s t) ∧
    ((s.sem x).queue ≠ [] → (s.sem x).value ≤ woken.length)

variable {main : ThreadId} {n : Int} {x : Sem} {s t : Kernel Sem κ σ ρ ω}

/-- A step that does not touch the semaphore. -/
theorem Balanced.frame (h : Balanced n x s) (hsem : t.sem x = s.sem x)
    (hreleases : releases x t.log = releases x s.log) (hpasses : passes x t.log = passes x s.log)
    (hwoken : ∀ u, Woken x t u ↔ Woken x s u) : Balanced n x t := by
  obtain ⟨woken, hnodup, hmem, hvalue⟩ := h.awake
  refine ⟨?_, ?_, woken, hnodup, ?_, ?_⟩
  · rw [hsem]
    exact h.nonneg
  · rw [hsem, hreleases, hpasses]
    exact h.balance
  · exact fun u => (hmem u).trans (hwoken u).symm
  · rw [hsem]
    exact hvalue

omit [DecidableEq Sem] in
/-- The current thread moves between two places outside the loop of `P` on `x`. -/
theorem woken_of_update (u : ThreadId) (old kont : Kont Sem σ ρ ω) (hold : s.kontOf u = some old)
    (hstatus : ∀ v, v ≠ u → t.statusOf v = s.statusOf v)
    (hkont : t.kontOf = Function.update s.kontOf u (some kont))
    (hbefore : ∀ k, old ≠ .sleep x k) (hafter : ∀ k, kont ≠ .sleep x k) (v : ThreadId) :
    Woken x t v ↔ Woken x s v := by
  by_cases hv : v = u
  · subst hv
    constructor
    · rintro ⟨-, k, hk⟩
      rw [hkont, Function.update_self] at hk
      exact absurd (Option.some.inj hk) (hafter k)
    · rintro ⟨-, k, hk⟩
      rw [hold] at hk
      exact absurd (Option.some.inj hk) (hbefore k)
  · rw [Woken, Woken, hstatus v hv, hkont, Function.update_of_ne hv]

omit [DecidableEq Sem] in
/-- `Run` moves a woken thread from the ready list to the processor. -/
theorem Placed.woken_resumed (h : Placed main s) {next : ThreadId} {rest : List ThreadId}
    {th : Thread Sem κ σ ρ ω} (hlist : s.readyList = next :: rest)
    (hth : s.saveUserState.thread next = some th) (u : ThreadId) :
    Woken x (s.resumed next rest th) u ↔ Woken x s u := by
  have hready : s.statusOf next = some .ready := by
    rw [← h.readyMem, hlist]
    exact List.mem_cons_self
  have hkont : s.kontOf next = some th.kont := by
    rw [← saveUserState_kontOf, hth]
    rfl
  have hdoomed := h.doomed u
  have hwake : ∀ k, th.kont.wake = .sleep x k ↔ th.kont = .sleep x k := by
    intro k
    cases th.kont <;> simp [Kont.wake]
  rw [Woken, Woken, resumed_statusOf, resumed_kontOf]
  grind

theorem Switch.balanced (hswitch : Switch s t) (hplaced : Placed main s) (h : Balanced n x s) :
    Balanced n x t := by
  cases hswitch with
  | idle hlist => exact h
  | run next rest th hlist hth =>
      refine h.frame rfl ?_ ?_ (hplaced.woken_resumed hlist hth)
      · change releases x (s.log ++ _) = _
        rw [releases_append]
        cases s.threadToBeDestroyed <;> rfl
      · change passes x (s.log ++ _) = _
        rw [passes_append]
        cases s.threadToBeDestroyed <;> rfl

/-- `V` gives the woken thread, if there is one, the unit it adds. -/
theorem Balanced.semaphoreV (h : Balanced n x s) (hplaced : Placed main s) (y : Sem)
    (caller : Option ThreadId) : Balanced n x (s.semaphoreV y caller) := by
  cases hqueue : (s.sem y).queue with
  | nil =>
      rw [semaphoreV_nil hqueue]
      by_cases hy : x = y
      · subst hy
        obtain ⟨woken, hnodup, hmem, -⟩ := h.awake
        have hnonneg := h.nonneg
        have hbalance := h.balance
        refine ⟨?_, ?_, woken, hnodup, hmem, ?_⟩
        · simp only [modifySem, Function.update_self]
          omega
        · simp [modifySem, releases, passes] at hbalance ⊢
          omega
        · simp [modifySem, hqueue]
      · refine h.frame ?_ ?_ ?_ (fun _ => Iff.rfl)
        · exact Function.update_of_ne hy _ _
        · simp [releases, Ne.symm hy]
        · simp [passes]
  | cons u rest =>
      obtain ⟨hblocked, k, hkont⟩ : s.statusOf u = some .blocked ∧ ∃ k, s.kontOf u = some (.sleep y k) := by
        rw [← hplaced.queueMem, hqueue]
        exact List.mem_cons_self
      have hstatusOf : (s.semaphoreV y caller).statusOf =
          Function.update s.statusOf u (some .ready) := by
        rw [semaphoreV_cons hqueue]
        exact modifyThread_status_eq _ (by rw [hblocked]; rfl)
      have hkontOf := semaphoreV_kontOf (s := s) y caller
      by_cases hy : x = y
      · subst hy
        obtain ⟨woken, hnodup, hmem, hvalue⟩ := h.awake
        have hnonneg := h.nonneg
        have hbalance := h.balance
        have hfresh : u ∉ woken := by
          rw [hmem]
          exact fun hwoken => hwoken.1 hblocked
        have hle := hvalue (by rw [hqueue]; exact List.cons_ne_nil _ _)
        refine ⟨?_, ?_, u :: woken, List.nodup_cons.mpr ⟨hfresh, hnodup⟩, ?_, ?_⟩
        · rw [semaphoreV_cons hqueue]
          simp only [Function.update_self]
          omega
        · rw [semaphoreV_cons hqueue]
          simp [releases, passes] at hbalance ⊢
          omega
        · intro v
          rw [List.mem_cons, hmem, Woken, Woken, hstatusOf, hkontOf, Function.update_apply]
          grind
        · rw [semaphoreV_cons hqueue]
          simp only [Function.update_self, List.length_cons]
          omega
      · refine h.frame ?_ ?_ ?_ ?_
        · rw [semaphoreV_cons hqueue]
          exact Function.update_of_ne hy _ _
        · rw [semaphoreV_cons hqueue]
          simp [releases, Ne.symm hy]
        · rw [semaphoreV_cons hqueue]
          simp [passes]
        · intro v
          rw [Woken, Woken, hstatusOf, hkontOf, Function.update_apply]
          grind

theorem Balanced.releaseAll (released : List Sem) (h : Balanced n x s) (hplaced : Placed main s) :
    Balanced n x (s.releaseAll released) := by
  induction released generalizing s with
  | nil => exact h
  | cons y rest ih => exact ih (h.semaphoreV hplaced y none) (hplaced.semaphoreV y none)

theorem Balanced.interrupt (h : Balanced n x s) (hinv : Inv main s) (shared : σ)
    (released : List Sem) :
    Balanced n x (Kernel.releaseAll released { s with shared := shared }) :=
  Balanced.releaseAll released (h.frame rfl rfl rfl fun _ => Iff.rfl) (hinv.interrupt shared []).placed

/-- A thread that finds the value zero goes to the queue; nothing is claimed of the others then. -/
theorem Balanced.block (h : Balanced n x s) {y : Sem} {k : Program Sem σ ρ ω}
    {kont : Kont Sem σ ρ ω} (hcurrent : s.kontOf s.currentThread = some kont)
    (hkont : kont = .run (.semP y k) ∨ kont = .sleep y k) (hvalue : (s.sem y).value = 0) :
    Balanced n x (s.queued y k).asleep := by
  have hsome : (s.statusOf s.currentThread).isSome := by
    rw [← kontOf_isSome, hcurrent]
    rfl
  have hstatusOf : (s.queued y k).asleep.statusOf =
      Function.update s.statusOf s.currentThread (some .blocked) := by
    have hqueued : (s.queued y k).statusOf = s.statusOf := setKont_statusOf (.sleep y k)
    rw [← hqueued] at hsome ⊢
    exact modifyThread_status_eq _ hsome
  have hkontOf : (s.queued y k).asleep.kontOf =
      Function.update s.kontOf s.currentThread (some (.sleep y k)) := by
    refine (modifyThread_status_kontOf _ _).trans ?_
    exact setKont_kontOf hsome _
  by_cases hy : x = y
  · subst hy
    obtain ⟨woken, hnodup, hmem, -⟩ := h.awake
    have hsem : ((s.queued x k).asleep.sem x).value = (s.sem x).value := by
      change (Function.update s.sem x _ x).value = _
      rw [Function.update_self]
    refine ⟨?_, ?_, woken.erase s.currentThread, hnodup.erase _, ?_, ?_⟩
    · rw [hsem]
      exact h.nonneg
    · rw [hsem]
      exact h.balance
    · intro v
      rw [hnodup.mem_erase_iff, hmem, Woken, Woken, hstatusOf, hkontOf, Function.update_apply,
        Function.update_apply]
      grind
    · intro _
      rw [hsem, hvalue]
      exact Int.natCast_nonneg _
  · refine h.frame (Function.update_of_ne hy _ _) rfl rfl ?_
    refine woken_of_update s.currentThread kont (.sleep y k) hcurrent ?_ hkontOf ?_ ?_
    · intro v hv
      rw [hstatusOf, Function.update_of_ne hv]
    · rintro k' rfl
      rcases hkont with heq | heq <;> cases heq
      exact hy rfl
    · intro k' heq
      cases heq
      exact hy rfl

/-- A thread that finds a unit takes it. -/
theorem Balanced.pass (h : Balanced n x s) {y : Sem} {k : Program Sem σ ρ ω}
    {kont : Kont Sem σ ρ ω} (hcurrent : s.kontOf s.currentThread = some kont)
    (hkont : kont = .run (.semP y k) ∨ kont = .sleep y k) (hvalue : (s.sem y).value ≠ 0)
    (hrunning : s.statusOf s.currentThread = some .running) :
    Balanced n x (s.passed y k) := by
  have hsome : (s.statusOf s.currentThread).isSome := by
    rw [hrunning]
    rfl
  have hstatusOf : (s.passed y k).statusOf = s.statusOf := setKont_statusOf (.tick k)
  have hkontOf : (s.passed y k).kontOf = Function.update s.kontOf s.currentThread (some (.tick k)) :=
    setKont_kontOf hsome _
  have hlog : (s.passed y k).log =
    s.log ++ [.passed y s.currentThread ((s.thread s.currentThread).bind Thread.call)] := rfl
  by_cases hy : x = y
  · subst hy
    obtain ⟨woken, hnodup, hmem, hbound⟩ := h.awake
    have hnonneg := h.nonneg
    have hbalance := h.balance
    have hsem : (s.passed x k).sem x = ⟨(s.sem x).value - 1, (s.sem x).queue⟩ :=
      Function.update_self _ _ _
    refine ⟨?_, ?_, woken.erase s.currentThread, hnodup.erase _, ?_, ?_⟩
    · rw [hsem]
      dsimp only
      omega
    · rw [hsem, hlog]
      simp [releases, passes] at hbalance ⊢
      omega
    · intro v
      rw [hnodup.mem_erase_iff, hmem, Woken, Woken, hstatusOf, hkontOf, Function.update_apply]
      grind
    · intro hqueue
      rw [hsem] at hqueue ⊢
      have hle := hbound hqueue
      have hlength := List.le_length_erase (a := s.currentThread) (l := woken)
      dsimp only
      omega
  · refine h.frame (Function.update_of_ne hy _ _) ?_ ?_ ?_
    · rw [hlog]
      simp [releases]
    · rw [hlog]
      simp [passes, Ne.symm hy]
    · refine woken_of_update s.currentThread kont (.tick k) hcurrent (fun v _ => by rw [hstatusOf])
        hkontOf ?_ (fun k' => nofun)
      rintro k' rfl
      rcases hkont with heq | heq <;> cases heq
      exact hy rfl

/-- A thread that executes outside the loop of `P` goes to another place outside of it. -/
theorem Balanced.setKont (h : Balanced n x s) (old : Kont Sem σ ρ ω) {kont : Kont Sem σ ρ ω}
    (hcurrent : s.kontOf s.currentThread = some old) (hbefore : ∀ k, old ≠ .sleep x k)
    (hafter : ∀ k, kont ≠ .sleep x k) : Balanced n x (s.setKont kont) := by
  have hsome : (s.statusOf s.currentThread).isSome := by
    rw [← kontOf_isSome, hcurrent]
    rfl
  exact h.frame rfl rfl rfl (woken_of_update s.currentThread old kont hcurrent
    (fun v _ => by rw [setKont_statusOf]) (setKont_kontOf hsome _) hbefore hafter)

theorem Balanced.yielded (h : Balanced n x s) {p : Program Sem σ ρ ω}
    (hcurrent : s.kontOf s.currentThread = some (.tick p)) : Balanced n x s.yielded := by
  have hsome : (s.statusOf s.currentThread).isSome := by
    rw [← kontOf_isSome, hcurrent]
    rfl
  have hstatusOf : s.yielded.statusOf = Function.update s.statusOf s.currentThread (some .ready) :=
    modifyThread_status_eq _ hsome
  have hkontOf : s.yielded.kontOf = s.kontOf := modifyThread_status_kontOf _ _
  refine h.frame rfl ?_ ?_ (woken_of_update s.currentThread (.tick p) (.tick p) hcurrent ?_ ?_
    (fun _ => nofun) (fun _ => nofun))
  · simp [Kernel.yielded, readyToRun, releases]
  · simp [Kernel.yielded, readyToRun, passes]
  · intro v hv
    rw [hstatusOf, Function.update_of_ne hv]
  · rw [hkontOf, ← hcurrent, Function.update_eq_self]

theorem Balanced.finishing (h : Balanced n x s)
    (hcurrent : s.kontOf s.currentThread = some (.run .finish)) :
    Balanced n x s.finishing.asleep := by
  have hsome : (s.statusOf s.currentThread).isSome := by
    rw [← kontOf_isSome, hcurrent]
    rfl
  have hkontOf : s.finishing.asleep.kontOf =
      Function.update s.kontOf s.currentThread (some .finish) := by
    refine (modifyThread_status_kontOf _ _).trans ?_
    exact setKont_kontOf hsome _
  have hstatusOf : s.finishing.statusOf = s.statusOf := setKont_statusOf .finish
  refine h.frame rfl ?_ ?_ (woken_of_update s.currentThread (.run .finish) .finish hcurrent ?_ hkontOf
    (fun _ => nofun) (fun _ => nofun))
  · simp [Kernel.finishing, asleep, modifyThread, releases]
  · simp [Kernel.finishing, asleep, modifyThread, passes]
  · intro v hv
    rw [← hstatusOf]
    refine (congrFun (modifyThread_statusOf _ _) v).trans (Function.update_of_ne hv _ _)

theorem Balanced.started (h : Balanced n x s) {old : Kont Sem σ ρ ω}
    {u : ThreadId}     (hcurrent : s.kontOf s.currentThread = some old) (hbefore : ∀ k, old ≠ .sleep x k)
    (hne : s.currentThread ≠ u) (hu : s.kontOf u = some .unstarted) (body k : Program Sem σ ρ ω) :
    Balanced n x (s.started u body k) := by
  have hsome : (s.thread u).isSome := by
    rw [← Option.isSome_map (f := Thread.kont)]
    exact Option.isSome_of_eq_some hu
  obtain ⟨new, hnew⟩ := Option.isSome_iff_exists.mp hsome
  set spawned := (s.modifyThread u fun th => { th with kont := .setup body }).readyToRun u
  have hkontOf : spawned.kontOf = Function.update s.kontOf u (some (.setup body)) := by
    refine (modifyThread_status_kontOf _ _).trans ((modifyThread_kontOf _ _).trans ?_)
    rw [hnew]
    rfl
  have hspawned : Balanced n x spawned := by
    refine h.frame rfl ?_ ?_ (woken_of_update u .unstarted (.setup body) hu ?_ hkontOf (by simp)
      (by simp))
    · simp [spawned, readyToRun, modifyThread, releases]
    · simp [spawned, readyToRun, modifyThread, passes]
    · intro v hv
      simp [spawned, readyToRun, modifyThread, statusOf, hv]
  have hrun : Balanced n x (spawned.setKont (.tick k)) := by
    refine hspawned.setKont old ?_ hbefore (by simp)
    rw [hkontOf]
    exact (Function.update_of_ne hne _ _).trans hcurrent
  refine hrun.frame rfl ?_ ?_ (fun _ => Iff.rfl)
  · simp [Kernel.started, spawned, Kernel.setKont, readyToRun, modifyThread, releases]
  · simp [Kernel.started, spawned, Kernel.setKont, readyToRun, modifyThread, passes]

theorem Balanced.action (system : ThreadSystem Sem κ ι σ ρ ω) (h : Balanced n x s)
    (hinv : Inv main s) (hbusy : s.idling = false) {th : Thread Sem κ σ ρ ω}
    (hth : s.thread s.currentThread = some th) (haction : Action system s th th.kont t) :
    Balanced n x t := by
  have hcurrent : s.kontOf s.currentThread = some th.kont := by
    rw [kontOf, hth]
    rfl
  have hlevel : s.level = th.kont.level := (hinv.busy hbusy).2.2.2.1 _ hcurrent
  have hrunning := hinv.runningCurrent hbusy
  generalize th.kont = kont at hcurrent haction hlevel
  cases haction with
  | interrupt p i shared released hhandler => exact h.interrupt hinv shared released
  | keep p hlist => exact h
  | preempt p hswitch => exact hswitch.balanced (hinv.yielded hbusy hcurrent).1 (h.yielded hcurrent)
  | resume p => exact h.setKont _ hcurrent (by simp) (by simp)
  | block y k hwhere hvalue hswitch =>
      exact hswitch.balanced (hinv.queued hbusy y k).1 (h.block hcurrent hwhere hvalue)
  | pass y k hwhere hvalue => exact h.pass hcurrent hwhere hvalue hrunning
  | release y k =>
      refine (h.semaphoreV hinv.placed y _).setKont (.run (.semV y k)) ?_ (by simp)
        (by simp)
      rw [semaphoreV_kontOf, (semaphoreV_fixed y _).1]
      exact hcurrent
  | tick k => exact h.setKont _ hcurrent (by simp) (by simp)
  | yieldAlone k hlist => exact h.setKont _ hcurrent (by simp) (by simp)
  | yield k hswitch =>
      have hset : Inv main (s.setKont (.tick k)) := hinv.setKont hbusy trivial hlevel
      have htick : (s.setKont (.tick k)).kontOf s.currentThread = some (.tick k) := by
        rw [setKont_kontOf hinv.placed.current]
        exact Function.update_self _ _ _
      have hbalanced : Balanced n x (s.setKont (.tick k)) :=
        h.setKont _ hcurrent (by simp) (by simp)
      exact hswitch.balanced (hset.yielded hbusy htick).1 (hbalanced.yielded htick)
  | act f k =>
      have hset : Balanced n x (s.setKont (.run (k s.currentThread s.shared s.machine))) :=
        h.setKont _ hcurrent (by simp) (by simp)
      refine hset.frame rfl ?_ ?_ (fun _ => Iff.rfl)
      · simp [Kernel.setKont, modifyThread, releases]
      · simp [Kernel.setKont, modifyThread, passes]
  | create k u garbage hnull hfresh =>
      have hset : Balanced n x (s.setKont (.run (k (some u)))) :=
        h.setKont _ hcurrent (by simp) (by simp)
      refine hset.frame rfl ?_ ?_ ?_
      · simp [Kernel.setKont, modifyThread, releases]
      · simp [Kernel.setKont, modifyThread, passes]
      · have hnone : (s.setKont (.run (k (some u)))).thread u = none := by
          by_cases hcur : u = s.currentThread
          · rw [hcur, hth] at hfresh
            cases hfresh
          · exact (Function.update_of_ne hcur _ _).trans hfresh
        intro v
        by_cases hv : v = u
        · subst hv
          simp [Woken, kontOf, hnone]
        · simp [Woken, kontOf, statusOf, hv]
  | createFails k => exact h.setKont _ hcurrent (by simp) (by simp)
  | start u body k new hu hnew =>
      have hstatus : s.statusOf u = some .justCreated := by
        rw [statusOf, hu, ← hnew]
        rfl
      have hkont : s.kontOf u = some new.kont := by
        rw [kontOf, hu]
        rfl
      have hfits := hinv.placed.fits u _ _ hstatus hkont
      have hne : s.currentThread ≠ u := by
        intro heq
        rw [heq, hstatus] at hrunning
        cases hrunning
      refine h.started hcurrent (by simp) hne ?_ body k
      rw [hkont]
      cases hnew : new.kont <;> rw [hnew] at hfits <;> first | rfl | exact hfits.elim
  | finish hswitch => exact hswitch.balanced (hinv.finishing hbusy).1 (h.finishing hcurrent)
  | halt =>
      refine h.frame rfl ?_ ?_ (fun _ => Iff.rfl)
      · simp [releases]
      · simp [passes]
  | call c hcall =>
      refine h.frame rfl ?_ ?_ (woken_of_update s.currentThread (.run .ret) (.run (system.menu c))
        hcurrent ?_ ?_ (by simp) (by simp))
      · simp [releases]
      · simp [passes]
      · intro v hv
        simp [statusOf, modifyThread, hv]
      · refine (modifyThread_kontOf _ _).trans ?_
        rw [hth]
        rfl
  | «return» c hcall =>
      refine h.frame rfl ?_ ?_ (woken_of_update s.currentThread (.run .ret) (.run .ret)
        hcurrent ?_ ?_ (by simp) (by simp))
      · simp [releases]
      · simp [passes]
      · intro v hv
        simp [statusOf, modifyThread, hv]
      · rw [← hcurrent]
        exact modifyThread_kontOf _ _

theorem Balanced.transition (system : ThreadSystem Sem κ ι σ ρ ω) (h : Balanced n x s)
    (hinv : Inv main s) (htransition : Transition system s t) : Balanced n x t := by
  cases htransition with
  | idleInterrupt i shared released hidling hhandler => exact h.interrupt hinv shared released
  | dispatch hidling hswitch => exact hswitch.balanced hinv.placed h
  | act th hidling hcurrent haction => exact h.action system hinv hidling hcurrent haction

theorem reachable_balanced {system : ThreadSystem Sem κ ι σ ρ ω} {space : Bool}
    (hinitial : 0 ≤ system.initialValue x) (h : (kernel system space).Reachable s) :
    Balanced (system.initialValue x) x s := by
  refine h.invariant ?_ ?_
  · rintro s rfl
    refine ⟨hinitial, ?_, [], List.nodup_nil, ?_, ?_⟩
    · simp [initial, releases, passes]
    · intro t
      simp only [Woken, kontOf, initial, List.not_mem_nil, Function.update_apply, false_iff]
      grind
    · exact fun hqueue => absurd rfl hqueue
  · rintro s t hs hbalanced ⟨choice, hstep⟩
    have hinv := reachable_inv hs
    exact hbalanced.transition system hinv (step_transition hinv hstep).2

/-- The value of every semaphore is never negative and accounts for the calls made; a thread that is
blocked in `P` is on the queue once; while there are waiting threads the value is at most the number
of the threads that were woken and have not looked at it yet; and a lock that only its holder
releases has at most one holder. -/
theorem semaphore_counts_and_wakes {system : ThreadSystem Sem κ ι σ ρ ω} {space : Bool}
    (hinitial : 0 ≤ system.initialValue x) (h : (kernel system space).Reachable s) :
    0 ≤ (s.sem x).value ∧
      (s.sem x).value = system.initialValue x + releases x s.log - passes x s.log ∧
      (∀ t k, s.statusOf t = some .blocked → s.kontOf t = some (.sleep x k) →
        (s.sem x).queue.count t = 1) ∧
      (∃ woken : List ThreadId, woken.Nodup ∧ (∀ t, t ∈ woken ↔ Woken x s t) ∧
        ((s.sem x).queue ≠ [] → (s.sem x).value ≤ woken.length)) ∧
      (system.initialValue x = 1 → OnlyHolderReleases x s.log → (holders x s.log).length ≤ 1) := by
  have hinv := reachable_inv h
  have hbalanced := reachable_balanced hinitial h
  refine ⟨hbalanced.nonneg, hbalanced.balance, ?_, hbalanced.awake, ?_⟩
  · intro t k hblocked hkont
    exact List.count_eq_one_of_mem (hinv.placed.queueNodup x)
      ((hinv.placed.queueMem x t).mpr ⟨hblocked, k, hkont⟩)
  · intro hone honly
    have hlength := holders_length honly
    have hnonneg := hbalanced.nonneg
    rw [hbalanced.balance, hone] at hnonneg
    omega

end Kernel

/-- The calls of a small client of one lock. -/
inductive LockCall where
  | fork
  | acquire
  | release

/-- A lock, as `Lock::Lock` makes it, with `Lock::Acquire` and `Lock::Release`; a forked thread
acquires it once. -/
def lockTest : ThreadSystem Unit LockCall Empty Unit Unit Empty where
  menu
    | .fork => .newThread fun
        | none => .abort
        | some t => .start t (.semP () (.semV () .finish)) .ret
    | .acquire => .semP () .ret
    | .release => .semV () .ret
  handler i := i.elim
  initialValue _ := 1
  initialShared := ()
  initialPrivate := ()
  construct := id
  main := 1

/-- The main thread holds the lock while two threads queue up for it, then releases it. -/
def lockTestRun : List (Choice LockCall Empty Unit) :=
  [.call .acquire, .exec, .resume, .exec, .call .fork, .alloc 2 (), .exec, .resume, .exec, .call .fork,
    .alloc 3 (), .exec, .preempt, .resume, .exec, .resume, .exec, .resume, .exec, .call .release, .exec]

theorem semaphore_counts_and_wakes_lockTest :
    ∃ s, Kernel.runChoices lockTest lockTestRun (Kernel.initial lockTest false) = some s ∧
      (s.sem ()).queue = [3] ∧ s.readyList = [2] ∧
      (s.sem ()).value = 1 + releases () s.log - passes () s.log ∧
      ∃ woken : List ThreadId, woken.Nodup ∧ (∀ t, t ∈ woken ↔ Kernel.Woken () s t) ∧
        ((s.sem ()).queue ≠ [] → (s.sem ()).value ≤ woken.length) := by
  obtain ⟨s, hrun, hqueue, hready⟩ : ∃ s, Kernel.runChoices lockTest lockTestRun
      (Kernel.initial lockTest false) = some s ∧ (s.sem ()).queue = [3] ∧ s.readyList = [2] :=
    ⟨_, rfl, rfl, rfl⟩
  have hinit : (kernel lockTest false).Reachable (Kernel.initial lockTest false) := .init rfl
  have hinitial : 0 ≤ lockTest.initialValue () := by decide
  have hcounts := Kernel.semaphore_counts_and_wakes hinitial (Kernel.reachable_runChoices hinit hrun)
  exact ⟨s, hrun, hqueue, hready, hcounts.2.1, hcounts.2.2.2.1⟩

end Nachos

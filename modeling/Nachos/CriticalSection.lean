import Nachos.ThreadProgram

/-! A lock that protects a part of a system of threads. The part is a region: some semaphores, a view
of the shared memory and some of the observations. A program that is free of the region does not touch
it; every other program enters the section by passing the lock. What holds of the region while nobody
is in the section, and of the thread that is in it, then holds in every interleaving. -/

/-- A part of a system of threads. `threads` tells whether the creation and the end of threads belong
to it, `mayAbort` whether the threads that do not use it may abort. -/
structure Region (Sem σ ω α : Type) where
  sems : Sem → Bool
  view : σ → α
  seen : ω → Bool
  threads : Bool
  mayAbort : Bool

variable {Sem κ ι σ ρ ω α : Type}

/-- What is counted is not lost with what a filter drops. -/
theorem countP_filter_of_imp {p q : α → Bool} (h : ∀ a, p a = true → q a = true) (l : List α) :
    (l.filter q).countP p = l.countP p := by
  rw [List.countP_filter]
  apply List.countP_congr
  intro a _
  constructor
  · intro hboth
    exact (Bool.and_eq_true_iff.mp hboth).1
  · intro hp
    exact Bool.and_eq_true_iff.mpr ⟨hp, h a hp⟩

/-- The events that are about the region. -/
def Region.guards (region : Region Sem σ ω α) : Event Sem κ ω → Bool
  | .passed x _ _ => region.sems x
  | .released x _ => region.sems x
  | .observed _ o => region.seen o
  | .created _ => region.threads
  | _ => false

/-- The program does nothing to the region, and aborts only if the region allows it. -/
def Program.Free (region : Region Sem σ ω α) : Program Sem σ ρ ω → Prop
  | .ret => True
  | .semP x k => region.sems x = false ∧ k.Free region
  | .semV x k => region.sems x = false ∧ k.Free region
  | .tick k => k.Free region
  | .yield k => k.Free region
  | .act f k =>
      (∀ t shared priv, region.view (f t shared priv).1 = region.view shared ∧
        ∀ o ∈ (f t shared priv).2.2, region.seen o = false) ∧
      ∀ t shared priv, (k t shared priv).Free region
  | .newThread k => region.threads = false ∧ ∀ u, (k u).Free region
  | .start _ body k => region.threads = false ∧ body.Free region ∧ k.Free region
  | .finish => region.threads = false
  | .halt => True
  | .abort => region.mayAbort = true

namespace Interleaving

/-- The two states agree on the region. -/
structure Same (region : Region Sem σ ω α) (s s' : State Sem κ σ ρ ω) : Prop where
  value : ∀ x, region.sems x = true → s'.value x = s.value x
  view : region.view s'.shared = region.view s.shared
  log : s'.log.filter region.guards = s.log.filter region.guards

/-- The thread is not in the section: its program is free of the region or is about to enter. -/
def Outside (region : Region Sem σ ω α) (Enter : Option κ → Program Sem σ ρ ω → Prop)
    (th : Thread Sem κ σ ρ ω) : Prop :=
  ∀ p, th.code = some p → p.Free region ∨ Enter th.call p

variable {region : Region Sem σ ω α} {Enter : Option κ → Program Sem σ ρ ω → Prop}
  {s s' : State Sem κ σ ρ ω} {t : ThreadId} {th : Thread Sem κ σ ρ ω} {p : Program Sem σ ρ ω}

theorem Same.of_events {events : List (Event Sem κ ω)}
    (hvalue : ∀ x, region.sems x = true → s'.value x = s.value x)
    (hview : region.view s'.shared = region.view s.shared) (hlog : s'.log = s.log ++ events)
    (hevents : ∀ e ∈ events, region.guards e = false) : Same region s s' := by
  refine ⟨hvalue, hview, ?_⟩
  have hnil : events.filter region.guards = [] := by
    rw [List.filter_eq_nil_iff]
    intro e he
    rw [hevents e he]
    exact Bool.false_ne_true
  rw [hlog, List.filter_append, hnil, List.append_nil]

theorem Outside.of_free (hcode : th.code = some p) (hfree : p.Free region) :
    Outside region Enter th := by
  intro q hq
  rw [hcode] at hq
  cases hq
  exact .inl hfree

/-- Threads that are the same as before, or outside. -/
def Settled (region : Region Sem σ ω α) (Enter : Option κ → Program Sem σ ρ ω → Prop)
    (s s' : State Sem κ σ ρ ω) (t : ThreadId) : Prop :=
  (∀ u new, s'.thread u = some new → (u ≠ t ∧ s.thread u = some new) ∨ Outside region Enter new) ∧
    ∀ u old, u ≠ t → s.thread u = some old → old.code ≠ none → s'.thread u = some old

theorem Settled.of_setThread (new : Thread Sem κ σ ρ ω) (hnew : Outside region Enter new)
    (hthread : s'.thread = Function.update s.thread t (some new)) : Settled region Enter s s' t := by
  constructor
  · intro u th hth
    rw [hthread, Function.update_apply] at hth
    split at hth
    · cases hth
      exact .inr hnew
    · exact .inl ⟨‹u ≠ t›, hth⟩
  · intro u old hu hold _
    rw [hthread, Function.update_of_ne hu]
    exact hold

theorem Settled.of_setThreads {u : ThreadId} (first second : Thread Sem κ σ ρ ω)
    (hfirst : Outside region Enter first) (hsecond : Outside region Enter second)
    (hidle : ∀ old, s.thread u = some old → old.code = none)
    (hthread : s'.thread = Function.update (Function.update s.thread t (some first)) u (some second)) :
    Settled region Enter s s' t := by
  constructor
  · intro v th hth
    rw [hthread, Function.update_apply, Function.update_apply] at hth
    split at hth
    · cases hth
      exact .inr hsecond
    · split at hth
      · cases hth
        exact .inr hfirst
      · exact .inl ⟨‹v ≠ t›, hth⟩
  · intro v old hv hold hcode
    have hne : v ≠ u := by
      rintro rfl
      exact hcode (hidle old hold)
    rw [hthread, Function.update_of_ne hne, Function.update_of_ne hv]
    exact hold

theorem Settled.of_erase (hthread : s'.thread = Function.update s.thread t none) :
    Settled region Enter s s' t := by
  constructor
  · intro u th hth
    rw [hthread, Function.update_apply] at hth
    split at hth
    · cases hth
    · exact .inl ⟨‹u ≠ t›, hth⟩
  · intro u old hu hold _
    rw [hthread, Function.update_of_ne hu]
    exact hold

theorem Same.of_event {event : Event Sem κ ω}
    (hvalue : ∀ x, region.sems x = true → s'.value x = s.value x)
    (hview : region.view s'.shared = region.view s.shared) (hlog : s'.log = s.log ++ [event])
    (hevent : region.guards event = false) : Same region s s' := by
  refine .of_events hvalue hview hlog ?_
  intro e he
  cases List.mem_singleton.mp he
  exact hevent

theorem update_unguarded {x : Sem} [DecidableEq Sem] (hx : region.sems x = false) (v : Int) (y : Sem)
    (hy : region.sems y = true) : Function.update s.value x v y = s.value y := by
  have hne : y ≠ x := by
    rintro rfl
    rw [hx] at hy
    cases hy
  exact Function.update_of_ne hne _ _

/-- The form of the steps of a thread in the section that change no other thread. -/
theorem inside_of_setThread {Idle : State Sem κ σ ρ ω → Prop}
    {Inside : ThreadId → Thread Sem κ σ ρ ω → State Sem κ σ ρ ω → Prop} {new : Thread Sem κ σ ρ ω}
    (hthread : s'.thread = Function.update s.thread t (some new))
    (h : Inside t new s' ∨ Idle s' ∧ Outside region Enter new) :
    (∀ u other, u ≠ t → s'.thread u = some other → s.thread u = some other ∨ Outside region Enter other) ∧
      ((∃ new, s'.thread t = some new ∧ Inside t new s') ∨
        Idle s' ∧ ∀ new, s'.thread t = some new → Outside region Enter new) := by
  rw [hthread, Function.update_self]
  constructor
  · intro u other hu hother
    exact .inl ((Function.update_of_ne hu _ _).symm.trans hother)
  · rcases h with hinside | ⟨hidle, hout⟩
    · exact .inl ⟨new, rfl, hinside⟩
    · refine .inr ⟨hidle, ?_⟩
      rintro other ⟨⟩
      exact hout

variable [DecidableEq Sem] {system : ThreadSystem Sem κ ι σ ρ ω}

/-- A step of a free program leaves the region alone, and every thread it changes or adds is
outside. -/
theorem Runs.free (hmenu : ∀ c, (system.menu c).Free region ∨ Enter (some c) (system.menu c))
    (hcode : th.code = some p) (hfree : p.Free region) (ht : s.thread t = some th)
    (hruns : Runs system s t th p s') : Same region s s' ∧ Settled region Enter s s' t := by
  cases hruns with
  | @pass x k hvalue =>
      exact ⟨.of_event (update_unguarded hfree.1 _) rfl rfl hfree.1,
        .of_setThread _ (.of_free rfl hfree.2) rfl⟩
  | wait hvalue =>
      refine ⟨⟨fun _ _ => rfl, rfl, rfl⟩, .of_setThread th (.of_free hcode hfree) ?_⟩
      rw [← ht]
      exact (Function.update_eq_self t s.thread).symm
  | @release x k =>
      exact ⟨.of_event (update_unguarded hfree.1 _) rfl rfl hfree.1,
        .of_setThread _ (.of_free rfl hfree.2) rfl⟩
  | @tick k =>
      have hk : k.Free region := hfree
      exact ⟨⟨fun _ _ => rfl, rfl, rfl⟩, .of_setThread _ (.of_free rfl hk) rfl⟩
  | @yield k =>
      have hk : k.Free region := hfree
      exact ⟨⟨fun _ _ => rfl, rfl, rfl⟩, .of_setThread _ (.of_free rfl hk) rfl⟩
  | act =>
      refine ⟨.of_events (fun _ _ => rfl) (hfree.1 _ _ _).1 rfl ?_,
        .of_setThread _ (.of_free rfl (hfree.2 _ _ _)) rfl⟩
      intro e he
      obtain ⟨o, ho, rfl⟩ := List.mem_map.mp he
      exact (hfree.1 _ _ _).2 o ho
  | create u garbage hnull hfresh =>
      refine ⟨.of_event (fun _ _ => rfl) rfl rfl hfree.1,
        .of_setThreads _ _ (.of_free rfl (hfree.2 (some u))) (fun q hq => by cases hq) ?_ rfl⟩
      intro old hold
      rw [hfresh] at hold
      cases hold
  | createFails => exact ⟨⟨fun _ _ => rfl, rfl, rfl⟩, .of_setThread _ (.of_free rfl (hfree.2 none)) rfl⟩
  | start hu hnew =>
      refine ⟨.of_event (fun _ _ => rfl) rfl rfl rfl,
        .of_setThreads _ _ (.of_free rfl hfree.2.2) (.of_free rfl hfree.2.1) ?_ rfl⟩
      intro old hold
      rw [hu] at hold
      cases hold
      exact hnew
  | finish => exact ⟨⟨fun _ _ => rfl, rfl, rfl⟩, .of_erase rfl⟩
  | halt =>
      refine ⟨.of_event (fun _ _ => rfl) rfl rfl rfl, .of_setThread th (.of_free hcode hfree) ?_⟩
      rw [← ht]
      exact (Function.update_eq_self t s.thread).symm
  | call c hcall =>
      refine ⟨.of_event (fun _ _ => rfl) rfl rfl rfl, .of_setThread _ ?_ rfl⟩
      intro q hq
      cases hq
      exact hmenu c
  | «return» c hcall =>
      have hreturned : Outside region Enter { th with call := none } := .of_free hcode hfree
      exact ⟨.of_event (fun _ _ => rfl) rfl rfl rfl, .of_setThread _ hreturned rfl⟩

/-- If the threads belong to the region then a free program changes only the thread that runs. -/
theorem Runs.free_setThread (hthreads : region.threads = true)
    (hmenu : ∀ c, (system.menu c).Free region ∨ Enter (some c) (system.menu c))
    (hcode : th.code = some p) (hfree : p.Free region) (ht : s.thread t = some th)
    (hruns : Runs system s t th p s') :
    ∃ new, s'.thread = Function.update s.thread t (some new) ∧ Outside region Enter new := by
  have hsame : s.thread = Function.update s.thread t (some th) := by
    rw [← ht]
    exact (Function.update_eq_self t s.thread).symm
  have hnot : ¬region.threads = false := by
    rw [hthreads]
    exact Bool.noConfusion
  cases hruns with
  | pass hvalue => exact ⟨_, rfl, .of_free rfl hfree.2⟩
  | wait hvalue => exact ⟨th, hsame, .of_free hcode hfree⟩
  | release => exact ⟨_, rfl, .of_free rfl hfree.2⟩
  | @tick k =>
      have hk : k.Free region := hfree
      exact ⟨_, rfl, .of_free rfl hk⟩
  | @yield k =>
      have hk : k.Free region := hfree
      exact ⟨_, rfl, .of_free rfl hk⟩
  | act => exact ⟨_, rfl, .of_free rfl (hfree.2 _ _ _)⟩
  | create u garbage hnull hfresh => exact absurd hfree.1 hnot
  | createFails => exact absurd hfree.1 hnot
  | start hu hnew => exact absurd hfree.1 hnot
  | finish => exact absurd hfree hnot
  | halt => exact ⟨th, hsame, .of_free hcode hfree⟩
  | call c hcall =>
      refine ⟨_, rfl, ?_⟩
      intro q hq
      cases hq
      exact hmenu c
  | «return» c hcall =>
      have hreturned : Outside region Enter { th with call := none } := .of_free hcode hfree
      exact ⟨_, rfl, hreturned⟩

/-- A step of one thread leaves the others as they are, but for a thread that it constructs or starts. -/
theorem Runs.others (hruns : Runs system s t th p s') :
    ∀ u, u ≠ t → s'.thread u = s.thread u ∨ (∀ old, s.thread u = some old → old.code = none) ∧
      ∀ new q, s'.thread u = some new → new.code = some q → ∃ k, p = .start u q k := by
  intro u hu
  cases hruns with
  | @create k v garbage hnull hfresh =>
      by_cases huv : u = v
      · subst huv
        right
        constructor
        · intro old hold
          rw [hfresh] at hold
          cases hold
        · intro new q hnew hq
          cases (Function.update_self u _ _).symm.trans hnew
          cases hq
      · left
        exact (Function.update_of_ne huv _ _).trans (Function.update_of_ne hu _ _)
  | @start v new body k hv hnew =>
      by_cases huv : u = v
      · subst huv
        right
        constructor
        · intro old hold
          rw [hv] at hold
          cases hold
          exact hnew
        · intro started q hstarted hq
          cases (Function.update_self u _ _).symm.trans hstarted
          cases hq
          exact ⟨k, rfl⟩
      · left
        exact (Function.update_of_ne huv _ _).trans (Function.update_of_ne hu _ _)
  | wait => exact .inl rfl
  | halt => exact .inl rfl
  | _ => exact .inl (Function.update_of_ne hu _ _)

/-- No thread is created at the address 0. -/
theorem Runs.null (hnull : s.thread 0 = none) (ht : s.thread t = some th) (hruns : Runs system s t th p s') :
    s'.thread 0 = none := by
  have ht0 : (0 : ThreadId) ≠ t := by
    rintro rfl
    rw [hnull] at ht
    cases ht
  cases hruns with
  | create u garbage hu hfresh =>
      show Function.update (Function.update s.thread t _) u _ 0 = none
      rw [Function.update_of_ne hu.symm, Function.update_of_ne ht0, hnull]
  | start hu hnew =>
      rename_i u new body k
      have hu0 : (0 : ThreadId) ≠ u := by
        rintro rfl
        rw [hnull] at hu
        cases hu
      show Function.update (Function.update s.thread t _) u _ 0 = none
      rw [Function.update_of_ne hu0, Function.update_of_ne ht0, hnull]
  | wait => exact hnull
  | halt => exact hnull
  | _ => exact (Function.update_of_ne ht0 _ _).trans hnull

theorem reachable_null (hmain : system.main ≠ 0) (h : system.interleaving.Reachable s) : s.thread 0 = none := by
  induction h with
  | init h =>
      have hinit : _ = initial system := h
      rw [hinit]
      show Function.update (fun _ => none) system.main _ 0 = none
      rw [Function.update_of_ne hmain.symm]
  | step _ hstep ih =>
      cases hstep with
      | take t th hhalted hcpu ht hcode => exact ih
      | run hhalted hcpu ht hcode hruns => exact hruns.null ih ht
      | interrupt i shared released hhalted hcpu hhandler => exact ih

/-- The state after `th` has passed the semaphore `l` and goes on with `k`. -/
def afterPass (s : State Sem κ σ ρ ω) (t : ThreadId) (th : Thread Sem κ σ ρ ω) (l : Sem)
    (k : Program Sem σ ρ ω) : State Sem κ σ ρ ω :=
  { s.setThread t { th with code := some k } with
    value := Function.update s.value l (s.value l - 1)
    cpu := none
    log := s.log ++ [.passed l t th.call] }

/-- The state after a handler has run. -/
def afterInterrupt (s : State Sem κ σ ρ ω) (shared : σ) (released : List Sem) :
    State Sem κ σ ρ ω :=
  { s with
    shared := shared
    value := releaseAll released s.value
    log := s.log ++ released.map fun x => .released x none }

theorem releaseAll_unlisted {released : List Sem} {x : Sem} (hx : x ∉ released) (value : Sem → Int) :
    releaseAll released value x = value x := by
  induction released generalizing value with
  | nil => rfl
  | cons y rest ih =>
      rw [List.mem_cons, not_or] at hx
      rw [releaseAll, ih hx.2, Function.update_of_ne hx.1]

/-- A handler that leaves the region alone. -/
theorem Same.interrupt {shared : σ} {released : List Sem} (hview : region.view shared = region.view s.shared)
    (hreleased : ∀ x ∈ released, region.sems x = false) :
    Same region s (afterInterrupt s shared released) := by
  refine .of_events ?_ hview rfl ?_
  · intro x hx
    apply releaseAll_unlisted
    intro hmem
    rw [hreleased x hmem] at hx
    cases hx
  · intro e he
    obtain ⟨x, hx, rfl⟩ := List.mem_map.mp he
    exact hreleased x hx

/-- `Idle` is what holds of the region while nobody is in the section, `Inside` what holds while the
given thread is. -/
structure CriticalSection (system : ThreadSystem Sem κ ι σ ρ ω) (region : Region Sem σ ω α) (l : Sem)
    (Enter : Option κ → Program Sem σ ρ ω → Prop) (Idle : State Sem κ σ ρ ω → Prop)
    (Inside : ThreadId → Thread Sem κ σ ρ ω → State Sem κ σ ρ ω → Prop) : Prop where
  menu : ∀ c, (system.menu c).Free region ∨ Enter (some c) (system.menu c)
  entry : ∀ call p, Enter call p → ∃ k, p = .semP l k
  idle_congr : ∀ s s', Same region s s' → Idle s → Idle s'
  inside_congr : ∀ s s' t th, Same region s s' → Inside t th s → Inside t th s'
  closed : ∀ s t th, Inside t th s → s.value l = 0 ∧ th.code ≠ none
  enter : ∀ s t th k, Idle s → Enter th.call (.semP l k) → s.value l ≠ 0 →
    Inside t { th with code := some k } (afterPass s t th l k)
  inside : ∀ s s' t th p, Inside t th s → s.thread t = some th → th.code = some p →
    Runs system s t th p s' →
    (∀ u new, u ≠ t → s'.thread u = some new → s.thread u = some new ∨ Outside region Enter new) ∧
      ((∃ new, s'.thread t = some new ∧ Inside t new s') ∨
        Idle s' ∧ ∀ new, s'.thread t = some new → Outside region Enter new)
  interrupt : ∀ s i shared released, system.handler i s.shared = some (shared, released) →
    (Idle s → Idle (afterInterrupt s shared released)) ∧
      ∀ t th, Inside t th s → Inside t th (afterInterrupt s shared released)

/-- At most one thread is in the section. -/
def Exclusive (region : Region Sem σ ω α) (Enter : Option κ → Program Sem σ ρ ω → Prop)
    (Idle : State Sem κ σ ρ ω → Prop)
    (Inside : ThreadId → Thread Sem κ σ ρ ω → State Sem κ σ ρ ω → Prop) (s : State Sem κ σ ρ ω) : Prop :=
  (Idle s ∧ ∀ u new, s.thread u = some new → Outside region Enter new) ∨
    ∃ t th, s.thread t = some th ∧ Inside t th s ∧
      ∀ u new, u ≠ t → s.thread u = some new → Outside region Enter new

namespace CriticalSection

variable {l : Sem} {Idle : State Sem κ σ ρ ω → Prop}
  {Inside : ThreadId → Thread Sem κ σ ρ ω → State Sem κ σ ρ ω → Prop}
  (hsection : CriticalSection system region l Enter Idle Inside)

include hsection

/-- A step of a thread outside, while nobody is inside. -/
theorem run_idle (hidle : Idle s) (houtside : ∀ u new, s.thread u = some new → Outside region Enter new)
    (ht : s.thread t = some th) (hcode : th.code = some p) (hruns : Runs system s t th p s') :
    Exclusive region Enter Idle Inside s' := by
  rcases houtside t th ht p hcode with hfree | henter
  · obtain ⟨hsame, hsettled, -⟩ := hruns.free hsection.menu hcode hfree ht
    refine .inl ⟨hsection.idle_congr s s' hsame hidle, ?_⟩
    intro u new hnew
    rcases hsettled u new hnew with ⟨-, hold⟩ | hout
    · exact houtside u new hold
    · exact hout
  · obtain ⟨k, rfl⟩ := hsection.entry _ _ henter
    cases hruns with
    | pass hvalue =>
        refine .inr ⟨t, _, Function.update_self _ _ _, hsection.enter s t th k hidle henter hvalue, ?_⟩
        intro u new hu hnew
        exact houtside u new ((Function.update_of_ne hu _ _).symm.trans hnew)
    | wait hvalue => exact .inl ⟨hsection.idle_congr s _ ⟨fun _ _ => rfl, rfl, rfl⟩ hidle, houtside⟩

/-- A step of a thread outside, while another is inside. -/
theorem run_outside {u : ThreadId} {inner : Thread Sem κ σ ρ ω} (hu : s.thread u = some inner)
    (hinside : Inside u inner s) (hne : t ≠ u)
    (houtside : ∀ v new, v ≠ u → s.thread v = some new → Outside region Enter new)
    (ht : s.thread t = some th) (hcode : th.code = some p) (hruns : Runs system s t th p s') :
    Exclusive region Enter Idle Inside s' := by
  obtain ⟨hclosed, hruns'⟩ := hsection.closed s u inner hinside
  rcases houtside t th hne ht p hcode with hfree | henter
  · obtain ⟨hsame, hsettled, hkeeps⟩ := hruns.free hsection.menu hcode hfree ht
    refine .inr ⟨u, inner, hkeeps u inner hne.symm hu hruns', hsection.inside_congr s s' u inner hsame hinside, ?_⟩
    intro v new hv hnew
    rcases hsettled v new hnew with ⟨-, hold⟩ | hout
    · exact houtside v new hv hold
    · exact hout
  · obtain ⟨k, rfl⟩ := hsection.entry _ _ henter
    cases hruns with
    | pass hvalue => exact absurd hclosed hvalue
    | wait hvalue =>
        exact .inr ⟨u, inner, hu, hsection.inside_congr s _ u inner ⟨fun _ _ => rfl, rfl, rfl⟩ hinside,
          houtside⟩

theorem step (h : Exclusive region Enter Idle Inside s) (hstep : Step system s s') :
    Exclusive region Enter Idle Inside s' := by
  cases hstep with
  | take t th hhalted hcpu ht hcode =>
      rcases h with ⟨hidle, houtside⟩ | ⟨u, inner, hu, hinside, houtside⟩
      · exact .inl ⟨hsection.idle_congr s _ ⟨fun _ _ => rfl, rfl, rfl⟩ hidle, houtside⟩
      · exact .inr ⟨u, inner, hu, hsection.inside_congr s _ u inner ⟨fun _ _ => rfl, rfl, rfl⟩ hinside,
          houtside⟩
  | @run t th p s' hhalted hcpu ht hcode hruns =>
      rcases h with ⟨hidle, houtside⟩ | ⟨u, inner, hu, hinside, houtside⟩
      · exact hsection.run_idle hidle houtside ht hcode hruns
      · by_cases hne : t = u
        · subst hne
          rw [hu] at ht
          cases ht
          obtain ⟨hothers, hthis⟩ := hsection.inside s s' t th p hinside hu hcode hruns
          have houtside' : ∀ v new, v ≠ t → s'.thread v = some new → Outside region Enter new := by
            intro v new hv hnew
            rcases hothers v new hv hnew with hold | hout
            · exact houtside v new hv hold
            · exact hout
          rcases hthis with ⟨new, hnew, hinside'⟩ | ⟨hidle, hout⟩
          · exact .inr ⟨t, new, hnew, hinside', houtside'⟩
          · refine .inl ⟨hidle, ?_⟩
            intro v new hnew
            by_cases hv : v = t
            · subst hv
              exact hout new hnew
            · exact houtside' v new hv hnew
        · exact hsection.run_outside hu hinside hne houtside ht hcode hruns
  | interrupt i shared released hhalted hcpu hhandler =>
      obtain ⟨hkeepsIdle, hkeepsInside⟩ := hsection.interrupt s i shared released hhandler
      rcases h with ⟨hidle, houtside⟩ | ⟨u, inner, hu, hinside, houtside⟩
      · exact .inl ⟨hkeepsIdle hidle, houtside⟩
      · exact .inr ⟨u, inner, hu, hkeepsInside u inner hinside, houtside⟩

/-- In every interleaving at most one thread is in the section. -/
theorem reachable (hinitial : Idle (initial system)) (h : system.interleaving.Reachable s) :
    Exclusive region Enter Idle Inside s := by
  refine h.invariant ?_ ?_
  · rintro s rfl
    refine .inl ⟨hinitial, ?_⟩
    intro u new hnew
    simp only [initial, Function.update_apply] at hnew
    split at hnew
    · cases hnew
      exact .of_free rfl trivial
    · cases hnew
  · intro s s' _ hexclusive hstep
    exact hsection.step hexclusive hstep

end CriticalSection

end Interleaving

/-- The first region is part of the second. -/
structure Region.Within {Sem σ ω α β : Type} (region : Region Sem σ ω α) (whole : Region Sem σ ω β) : Prop where
  sems : ∀ x, region.sems x = true → whole.sems x = true
  view : ∀ shared shared', whole.view shared = whole.view shared' → region.view shared = region.view shared'
  seen : ∀ o, region.seen o = true → whole.seen o = true
  threads : region.threads = true → whole.threads = true
  mayAbort : whole.mayAbort = true → region.mayAbort = true

section Within

variable {Sem κ ι σ ρ ω α β : Type} {region : Region Sem σ ω α} {whole : Region Sem σ ω β}
  (hwithin : region.Within whole)

include hwithin

theorem Region.Within.sems_false {x : Sem} (h : whole.sems x = false) : region.sems x = false := by
  cases hx : region.sems x with
  | false => rfl
  | true => rw [hwithin.sems x hx] at h; exact h

theorem Region.Within.threads_false (h : whole.threads = false) : region.threads = false := by
  cases hthreads : region.threads with
  | false => rfl
  | true => rw [hwithin.threads hthreads] at h; exact h

theorem Region.Within.guards (e : Event Sem κ ω) (h : region.guards e = true) : whole.guards e = true := by
  cases e with
  | passed x t c => exact hwithin.sems x h
  | released x t => exact hwithin.sems x h
  | observed t o => exact hwithin.seen o h
  | created t => exact hwithin.threads h
  | _ => cases h

/-- A program that leaves the whole alone leaves its part alone. -/
theorem Program.Free.within {p : Program Sem σ ρ ω} (h : p.Free whole) : p.Free region := by
  induction p with
  | ret => trivial
  | semP x k ih => exact ⟨hwithin.sems_false h.1, ih h.2⟩
  | semV x k ih => exact ⟨hwithin.sems_false h.1, ih h.2⟩
  | tick k ih => exact ih h
  | yield k ih => exact ih h
  | act f k ih =>
      refine ⟨?_, fun t shared priv => ih t shared priv (h.2 t shared priv)⟩
      intro t shared priv
      refine ⟨hwithin.view _ _ (h.1 t shared priv).1, ?_⟩
      intro o ho
      have hunseen := (h.1 t shared priv).2 o ho
      cases hseen : region.seen o with
      | false => rfl
      | true => rw [hwithin.seen o hseen] at hunseen; exact hunseen
  | newThread k ih => exact ⟨hwithin.threads_false h.1, fun u => ih u (h.2 u)⟩
  | start u body k ihbody ihk => exact ⟨hwithin.threads_false h.1, ihbody h.2.1, ihk h.2.2⟩
  | finish => exact hwithin.threads_false h
  | halt => trivial
  | abort => exact hwithin.mayAbort h

theorem Interleaving.Same.within {s s' : Interleaving.State Sem κ σ ρ ω} (h : Interleaving.Same whole s s') :
    Interleaving.Same region s s' := by
  refine ⟨fun x hx => h.value x (hwithin.sems x hx), hwithin.view _ _ h.view, ?_⟩
  have hfilter : ∀ log : List (Event Sem κ ω),
      log.filter region.guards = (log.filter whole.guards).filter region.guards := by
    intro log
    rw [List.filter_filter]
    apply List.filter_congr
    intro e _
    cases he : region.guards e with
    | false => rfl
    | true => rw [hwithin.guards e he]; rfl
  rw [hfilter s'.log, hfilter s.log, h.log]

end Within

import Nachos.CallTrace
import Nachos.CriticalSection

/-! A device behind a lock. A call acquires the lock, makes a request to the device, waits on a second
semaphore for the interrupt of the device and releases the lock. In every interleaving the device then
serves one request at a time, in the order in which the calls acquire the lock. -/

namespace Interleaving

variable {Sem κ ι σ ρ ω α : Type}

/-- The interrupts that have released the semaphore `x`. -/
def interrupts [DecidableEq Sem] (x : Sem) (log : List (Event Sem κ ω)) : Nat :=
  log.countP fun
    | .released y none => decide (y = x)
    | _ => false

/-- The device of a system: the requests whose interrupt has not arrived, the flag that is set while it
works, what it contains, the calls that use it, and what a request does. `effect` is the request as it is
seen in the contents alone. -/
structure LockedDevice [DecidableEq Sem] (system : ThreadSystem Sem κ ι σ ρ ω) (α : Type) where
  lock : Sem
  done : Sem
  pending : σ → Nat
  busy : σ → Bool
  contents : σ → α
  uses : κ → Bool
  ready : κ → σ → Bool
  request : κ → ThreadId → σ → ρ → σ × ρ × List ω
  effect : α → ThreadId × κ → α
  lock_ne_done : lock ≠ done
  menu_uses : ∀ c, uses c = true → system.menu c =
    .semP lock (.act (request c) fun _ shared _ => if ready c shared then .semP done (.semV lock .ret) else .abort)
  menu_free : ∀ c, uses c = false → (system.menu c).Free
    ⟨fun x => decide (x = lock ∨ x = done), fun shared => (pending shared, busy shared, contents shared),
      fun _ => false, false, false⟩
  request_ready : ∀ c shared, uses c = true → busy shared = false → ready c shared = true
  request_pending : ∀ c t shared priv, uses c = true → busy shared = false →
    pending (request c t shared priv).1 = pending shared + 1
  request_contents : ∀ c t shared priv, uses c = true → busy shared = false →
    contents (request c t shared priv).1 = effect (contents shared) (t, c)
  handler : ∀ i shared shared' released, system.handler i shared = some (shared', released) →
    ((pending shared', busy shared', contents shared') = (pending shared, busy shared, contents shared) ∧
      ∀ x ∈ released, x ≠ lock ∧ x ≠ done) ∨
    (0 < pending shared ∧ pending shared' = pending shared - 1 ∧ busy shared' = false ∧
      contents shared' = contents shared ∧ released = [done])
  initial_lock : system.initialValue lock = 1
  initial_done : system.initialValue done = 0
  initial_pending : pending system.initialShared = 0
  initial_busy : busy system.initialShared = false

namespace LockedDevice

variable [DecidableEq Sem] {system : ThreadSystem Sem κ ι σ ρ ω} (device : LockedDevice system α)
  {s s' : State Sem κ σ ρ ω} {t : ThreadId} {th : Thread Sem κ σ ρ ω}

/-- The part of the system that the lock protects. -/
def region : Region Sem σ ω (Nat × Bool × α) where
  sems x := decide (x = device.lock ∨ x = device.done)
  view shared := (device.pending shared, device.busy shared, device.contents shared)
  seen _ := false
  threads := false
  mayAbort := false

/-- A call after it has made its request. -/
def awaiting : Program Sem σ ρ ω := .semP device.done (.semV device.lock .ret)

/-- A call that has acquired the lock. -/
def requesting (c : κ) : Program Sem σ ρ ω :=
  .act (device.request c) fun _ shared _ => if device.ready c shared then device.awaiting else .abort

def Enter (call : Option κ) (p : Program Sem σ ρ ω) : Prop :=
  ∃ c, call = some c ∧ device.uses c = true ∧ p = .semP device.lock (device.requesting c)

/-- The contents after the calls, one after another. -/
def serve (calls : List (ThreadId × κ)) : α :=
  calls.foldl device.effect (device.contents system.initialShared)

theorem serve_append (calls : List (ThreadId × κ)) (a : ThreadId × κ) :
    device.serve (calls ++ [a]) = device.effect (device.serve calls) a := by
  unfold serve
  rw [List.foldl_append]
  rfl

/-- The device has served `calls`; with `waits` interrupts to come and `signals` that nobody has waited
for. -/
structure Serves (s : State Sem κ σ ρ ω) (calls : List (ThreadId × κ)) (waits : Nat) (signals : Int) : Prop where
  contents : device.contents s.shared = device.serve calls
  pending : device.pending s.shared = waits
  busy : waits = 0 → device.busy s.shared = false
  done : s.value device.done = signals
  interrupts : interrupts device.done s.log + waits = calls.length

/-- Nobody holds the lock. -/
structure Idle (s : State Sem κ σ ρ ω) : Prop where
  free : s.value device.lock = 1
  serves : device.Serves s (acquisitions device.lock s.log) 0 0

/-- Where a thread that holds the lock is. -/
inductive Stage (s : State Sem κ σ ρ ω) (before : List (ThreadId × κ)) (t : ThreadId) (c : κ) :
    Program Sem σ ρ ω → Prop where
  | requesting (h : device.Serves s before 0 0) : Stage s before t c (device.requesting c)
  | waiting (h : device.Serves s (before ++ [(t, c)]) 1 0) : Stage s before t c device.awaiting
  | signalled (h : device.Serves s (before ++ [(t, c)]) 0 1) : Stage s before t c device.awaiting
  | leaving (h : device.Serves s (before ++ [(t, c)]) 0 0) : Stage s before t c (.semV device.lock .ret)

/-- The thread `t` holds the lock in a call `c`, after the calls `before`. -/
structure Holds (before : List (ThreadId × κ)) (c : κ) (t : ThreadId) (th : Thread Sem κ σ ρ ω)
    (s : State Sem κ σ ρ ω) : Prop where
  uses : device.uses c = true
  call : th.call = some c
  held : s.value device.lock = 0
  order : acquisitions device.lock s.log = before ++ [(t, c)]
  code : ∃ p, th.code = some p ∧ device.Stage s before t c p

def Inside (t : ThreadId) (th : Thread Sem κ σ ρ ω) (s : State Sem κ σ ρ ω) : Prop :=
  ∃ before c, device.Holds before c t th s

variable {device}

theorem guards_lock (t : ThreadId) (c : Option κ) :
    device.region.guards (.passed device.lock t c : Event Sem κ ω) = true := by
  simp [Region.guards, region]

theorem interrupts_append (x : Sem) (log more : List (Event Sem κ ω)) :
    interrupts x (log ++ more) = interrupts x log + interrupts x more :=
  List.countP_append

theorem acquisitions_observed (l : Sem) (t : ThreadId) (shown : List ω) :
    acquisitions l (shown.map (@Event.observed Sem κ ω t)) = [] := by
  apply List.filterMap_eq_nil_iff.mpr
  intro e he
  obtain ⟨o, -, rfl⟩ := List.mem_map.mp he
  rfl

theorem interrupts_observed (x : Sem) (t : ThreadId) (shown : List ω) :
    interrupts x (shown.map (@Event.observed Sem κ ω t)) = 0 := by
  apply List.countP_eq_zero.mpr
  intro e he
  obtain ⟨o, -, rfl⟩ := List.mem_map.mp he
  exact Bool.false_ne_true

theorem interrupts_filter {x : Sem} {f : Event Sem κ ω → Bool} (hf : f (.released x none) = true)
    (log : List (Event Sem κ ω)) : interrupts x (log.filter f) = interrupts x log := by
  apply countP_filter_of_imp
  intro e he
  cases e with
  | released y caller =>
      cases caller with
      | none =>
          rw [of_decide_eq_true he]
          exact hf
      | some u => cases he
  | _ => cases he

theorem guards_done : device.region.guards (.released device.done none : Event Sem κ ω) = true := by
  simp [Region.guards, region]

theorem Serves.not_pending {calls : List (ThreadId × κ)} {signals : Int} (h : device.Serves s calls 0 signals) :
    ¬0 < device.pending s.shared := by
  rw [h.pending]
  exact Nat.lt_irrefl 0

section Congruence

variable (hsame : Same device.region s s')

include hsame

theorem acquisitions_congr : acquisitions device.lock s'.log = acquisitions device.lock s.log := by
  rw [← acquisitions_filter guards_lock s'.log, ← acquisitions_filter guards_lock s.log, hsame.log]

theorem Serves.congr {calls : List (ThreadId × κ)} {waits : Nat} {signals : Int}
    (h : device.Serves s calls waits signals) : device.Serves s' calls waits signals := by
  have hview := hsame.view
  simp only [region, Prod.mk.injEq] at hview
  obtain ⟨hpending, hbusy, hcontents⟩ := hview
  refine ⟨hcontents.trans h.contents, hpending.trans h.pending, fun h0 => hbusy.trans (h.busy h0), ?_, ?_⟩
  · exact (hsame.value device.done (by simp [region])).trans h.done
  · rw [← interrupts_filter guards_done, hsame.log, interrupts_filter guards_done]
    exact h.interrupts

theorem Idle.congr (h : device.Idle s) : device.Idle s' := by
  refine ⟨(hsame.value device.lock (by simp [region])).trans h.free, ?_⟩
  rw [acquisitions_congr hsame]
  exact h.serves.congr hsame

theorem Stage.congr {before : List (ThreadId × κ)} {c : κ} {p : Program Sem σ ρ ω}
    (h : device.Stage s before t c p) : device.Stage s' before t c p := by
  cases h with
  | requesting h => exact .requesting (h.congr hsame)
  | waiting h => exact .waiting (h.congr hsame)
  | signalled h => exact .signalled (h.congr hsame)
  | leaving h => exact .leaving (h.congr hsame)

theorem Holds.congr {before : List (ThreadId × κ)} {c : κ} (h : device.Holds before c t th s) :
    device.Holds before c t th s' := by
  obtain ⟨p, hp, hstage⟩ := h.code
  exact ⟨h.uses, h.call, (hsame.value device.lock (by simp [region])).trans h.held,
    (acquisitions_congr hsame).trans h.order, p, hp, hstage.congr hsame⟩

end Congruence

section Interrupt

variable {i : ι} {shared : σ} {released : List Sem}
  (hhandler : system.handler i s.shared = some (shared, released))

include hhandler

/-- An interrupt leaves the device alone, or it is the one that a request waits for. -/
theorem interrupt_cases (device : LockedDevice system α) :
    Same device.region s (afterInterrupt s shared released) ∨
      (0 < device.pending s.shared ∧ device.pending shared = device.pending s.shared - 1 ∧
        device.busy shared = false ∧ device.contents shared = device.contents s.shared ∧
        released = [device.done]) := by
  rcases device.handler i s.shared shared released hhandler with ⟨hview, hreleased⟩ | hdone
  · left
    refine Same.interrupt hview ?_
    intro x hx
    simp [region, hreleased x hx]
  · exact .inr hdone

theorem Idle.interrupt (h : device.Idle s) : device.Idle (afterInterrupt s shared released) := by
  rcases interrupt_cases hhandler device with hsame | ⟨hpending, -⟩
  · exact h.congr hsame
  · exact absurd hpending h.serves.not_pending

theorem Stage.interrupt {before : List (ThreadId × κ)} {c : κ} {p : Program Sem σ ρ ω}
    (h : device.Stage s before t c p) : device.Stage (afterInterrupt s shared released) before t c p := by
  rcases interrupt_cases hhandler device with hsame | ⟨hpending, hless, hbusy, hcontents, rfl⟩
  · exact h.congr hsame
  · cases h with
    | requesting h => exact absurd hpending h.not_pending
    | waiting h =>
        refine .signalled ⟨hcontents.trans h.contents, ?_, fun _ => hbusy, ?_, ?_⟩
        · change device.pending shared = 0
          rw [hless, h.pending]
        · change Function.update s.value device.done (s.value device.done + 1) device.done = 1
          rw [Function.update_self, h.done]
          rfl
        · have hlog : interrupts device.done [(.released device.done none : Event Sem κ ω)] = 1 := by
            simp [interrupts]
          change interrupts device.done (s.log ++ [.released device.done none]) + 0 = _
          rw [interrupts_append, hlog]
          exact h.interrupts
    | signalled h => exact absurd hpending h.not_pending
    | leaving h => exact absurd hpending h.not_pending

theorem Holds.interrupt {before : List (ThreadId × κ)} {c : κ} (h : device.Holds before c t th s) :
    device.Holds before c t th (afterInterrupt s shared released) := by
  rcases interrupt_cases hhandler device with hsame | ⟨-, -, -, -, hreleased⟩
  · exact h.congr hsame
  · obtain ⟨p, hp, hstage⟩ := h.code
    refine ⟨h.uses, h.call, ?_, ?_, p, hp, hstage.interrupt hhandler⟩
    · have hunlisted : device.lock ∉ released := by
        rw [hreleased, List.mem_singleton]
        exact device.lock_ne_done
      exact (releaseAll_unlisted hunlisted s.value).trans h.held
    · change acquisitions device.lock (s.log ++ released.map _) = _
      rw [acquisitions_append, hreleased]
      exact (List.append_nil _).trans h.order

end Interrupt

/-- The thread that holds the lock goes on: it keeps the lock, or it releases it and is done. -/
theorem Holds.run {before : List (ThreadId × κ)} {c : κ} {p : Program Sem σ ρ ω}
    (h : device.Holds before c t th s) (ht : s.thread t = some th) (hcode : th.code = some p)
    (hruns : Runs system s t th p s') :
    ∃ new, s'.thread = Function.update s.thread t (some new) ∧
      (device.Holds before c t new s' ∨ device.Idle s' ∧ new.code = some .ret) := by
  obtain ⟨q, hq, hstage⟩ := h.code
  rw [hcode] at hq
  cases hq
  have hlock : ∀ v, Function.update s.value device.done v device.lock = s.value device.lock :=
    fun v => Function.update_of_ne device.lock_ne_done _ _
  have hdone : ∀ v, Function.update s.value device.lock v device.done = s.value device.done :=
    fun v => Function.update_of_ne device.lock_ne_done.symm _ _
  cases hstage with
  | requesting hserves =>
      -- The device is not busy: it takes the request.
      have hbusy := hserves.busy rfl
      have hready := device.request_ready c s.shared h.uses hbusy
      cases hruns
      refine ⟨_, rfl, .inl ⟨h.uses, h.call, h.held, ?_, device.awaiting, by simp [hready], .waiting ?_⟩⟩
      · change acquisitions device.lock (s.log ++ List.map _ _) = _
        rw [acquisitions_append, acquisitions_observed, List.append_nil, h.order]
      · refine ⟨?_, ?_, nofun, hserves.done, ?_⟩
        · rw [device.serve_append, ← hserves.contents]
          exact device.request_contents c t s.shared th.priv h.uses hbusy
        · have hpending := device.request_pending c t s.shared th.priv h.uses hbusy
          rw [hserves.pending] at hpending
          exact hpending
        · have hinterrupts := hserves.interrupts
          change interrupts device.done (s.log ++ List.map _ _) + 1 = _
          rw [interrupts_append, interrupts_observed, List.length_append, ← hinterrupts]
          rfl
  | waiting hserves =>
      cases hruns with
      | pass hvalue => exact absurd hserves.done hvalue
      | wait hvalue =>
          refine ⟨th, ?_, .inl ⟨h.uses, h.call, h.held, h.order, _, hcode, .waiting ?_⟩⟩
          · rw [← ht]
            exact (Function.update_eq_self t s.thread).symm
          · exact ⟨hserves.contents, hserves.pending, hserves.busy, hserves.done, hserves.interrupts⟩
  | signalled hserves =>
      cases hruns with
      | pass hvalue =>
          refine ⟨_, rfl, .inl ⟨h.uses, h.call, (hlock _).trans h.held, ?_, _, rfl, .leaving ?_⟩⟩
          · change acquisitions device.lock (s.log ++ [.passed device.done t th.call]) = _
            rw [acquisitions_append, h.call]
            have hother : acquisitions device.lock [(.passed device.done t (some c) : Event Sem κ ω)] = [] := by
              simp [acquisitions, Event.acquisition, device.lock_ne_done.symm]
            rw [hother, List.append_nil, h.order]
          · refine ⟨hserves.contents, hserves.pending, hserves.busy, ?_, ?_⟩
            · change Function.update s.value device.done (s.value device.done - 1) device.done = 0
              rw [Function.update_self, hserves.done]
              rfl
            · change interrupts device.done (s.log ++ [.passed device.done t th.call]) + 0 = _
              rw [interrupts_append]
              exact hserves.interrupts
      | wait hvalue =>
          rw [hserves.done] at hvalue
          cases hvalue
  | leaving hserves =>
      cases hruns
      refine ⟨_, rfl, .inr ⟨⟨?_, ?_⟩, rfl⟩⟩
      · change Function.update s.value device.lock (s.value device.lock + 1) device.lock = 1
        rw [Function.update_self, h.held]
        rfl
      · have horder : acquisitions device.lock (s.log ++ [.released device.lock (some t)]) = before ++ [(t, c)] := by
          rw [acquisitions_append, h.order]
          exact List.append_nil _
        change device.Serves _ (acquisitions device.lock (s.log ++ [.released device.lock (some t)])) 0 0
        rw [horder]
        refine ⟨hserves.contents, hserves.pending, hserves.busy, (hdone _).trans hserves.done, ?_⟩
        change interrupts device.done (s.log ++ [.released device.lock (some t)]) + 0 = _
        rw [interrupts_append]
        exact hserves.interrupts

/-- The lock makes the calls that use the device sections that exclude each other. -/
theorem criticalSection (device : LockedDevice system α) :
    CriticalSection system device.region device.lock device.Enter device.Idle device.Inside where
  menu c := by
    by_cases huses : device.uses c = true
    · exact .inr ⟨c, rfl, huses, device.menu_uses c huses⟩
    · exact .inl (device.menu_free c (Bool.eq_false_iff.mpr huses))
  entry := by
    rintro call p ⟨c, -, -, rfl⟩
    exact ⟨_, rfl⟩
  idle_congr s s' hsame h := h.congr hsame
  inside_congr := by
    rintro s s' t th hsame ⟨before, c, h⟩
    exact ⟨before, c, h.congr hsame⟩
  closed := by
    rintro s t th ⟨before, c, h⟩
    obtain ⟨p, hp, -⟩ := h.code
    exact ⟨h.held, by simp [hp]⟩
  enter := by
    rintro s t th k h ⟨c, hcall, huses, heq⟩ hvalue
    cases heq
    refine ⟨acquisitions device.lock s.log, c, huses, hcall, ?_, ?_, _, rfl, .requesting ?_⟩
    · change Function.update s.value device.lock (s.value device.lock - 1) device.lock = 0
      rw [Function.update_self, h.free]
      rfl
    · change acquisitions device.lock (s.log ++ [.passed device.lock t th.call]) = _
      rw [acquisitions_append, hcall]
      simp [acquisitions, Event.acquisition]
    · have hserves := h.serves
      refine ⟨hserves.contents, hserves.pending, hserves.busy, ?_, ?_⟩
      · exact (Function.update_of_ne device.lock_ne_done.symm _ _).trans hserves.done
      · change interrupts device.done (s.log ++ [.passed device.lock t th.call]) + 0 = _
        rw [interrupts_append]
        exact hserves.interrupts
  inside := by
    rintro s s' t th p ⟨before, c, h⟩ ht hcode hruns
    obtain ⟨new, hthread, hinside | ⟨hidle, hret⟩⟩ := h.run ht hcode hruns
    · exact inside_of_setThread hthread (.inl ⟨before, c, hinside⟩)
    · exact inside_of_setThread hthread (.inr ⟨hidle, .of_free hret trivial⟩)
  interrupt s i shared released hhandler := by
    refine ⟨fun h => h.interrupt hhandler, ?_⟩
    rintro t th ⟨before, c, h⟩
    exact ⟨before, c, h.interrupt hhandler⟩

theorem initial_idle (device : LockedDevice system α) : device.Idle (initial system) :=
  ⟨device.initial_lock, rfl, device.initial_pending, fun _ => device.initial_busy, device.initial_done, rfl⟩

/-- In every interleaving nobody holds the lock, or one thread does. -/
theorem exclusive (device : LockedDevice system α) (h : system.interleaving.Reachable s) :
    Exclusive device.region device.Enter device.Idle device.Inside s :=
  device.criticalSection.reachable device.initial_idle h

section Reachable

variable (device) (h : system.interleaving.Reachable s)

include device h

/-- The device has served the calls that have acquired the lock, or all of them but the last. -/
theorem served : ∃ calls waits signals, device.Serves s calls waits signals ∧ waits ≤ 1 ∧
    (acquisitions device.lock s.log = calls ∨ ∃ last, acquisitions device.lock s.log = calls ++ [last]) := by
  rcases device.exclusive h with ⟨hidle, -⟩ | ⟨u, inner, -, ⟨before, c, hinside⟩, -⟩
  · exact ⟨_, 0, 0, hidle.serves, by omega, .inl rfl⟩
  · obtain ⟨p, -, hstage⟩ := hinside.code
    cases hstage with
    | requesting hserves => exact ⟨_, _, _, hserves, by omega, .inr ⟨(u, c), hinside.order⟩⟩
    | waiting hserves => exact ⟨_, _, _, hserves, by omega, .inl hinside.order⟩
    | signalled hserves => exact ⟨_, _, _, hserves, by omega, .inl hinside.order⟩
    | leaving hserves => exact ⟨_, _, _, hserves, by omega, .inl hinside.order⟩

theorem pending_le_one : device.pending s.shared ≤ 1 := by
  obtain ⟨calls, waits, signals, hserves, hwaits, -⟩ := device.served h
  rw [hserves.pending]
  exact hwaits

theorem code_ne_abort (ht : s.thread t = some th) : th.code ≠ some .abort := by
  have houtside : Outside device.region device.Enter th → th.code ≠ some .abort := by
    intro hout habort
    rcases hout _ habort with hfree | ⟨c, -, -, heq⟩
    · cases hfree
    · cases heq
  rcases device.exclusive h with ⟨-, hout⟩ | ⟨u, inner, hu, ⟨before, c, hinside⟩, hout⟩
  · exact houtside (hout t th ht)
  · by_cases htu : t = u
    · subst htu
      rw [hu] at ht
      cases ht
      obtain ⟨p, hp, hstage⟩ := hinside.code
      rw [hp]
      cases hstage <;> exact nofun
    · exact houtside (hout t th htu ht)

/-- A call that is about to return has acquired the lock, has been let through once by the interrupt and has
released the lock. -/
theorem trace_of_returning (ht : s.thread t = some th) (hcode : th.code = some .ret) {c : κ}
    (hcall : th.call = some c) (huses : device.uses c = true) :
    ∃ shown : List ω, sinceCall t s.log = .passed device.lock t (some c) :: (shown.map (.observed t) ++
      [.passed device.done t (some c), .released device.lock (some t)]) := by
  obtain ⟨p, r, hp, hpath⟩ := reachable_onPath h t th ht c hcall
  rw [hcode] at hp
  cases hp
  generalize sinceCall t s.log = events at hpath ⊢
  generalize th.priv = r' at hpath
  rw [device.menu_uses c huses] at hpath
  cases hpath with
  | semP hpath =>
      cases hpath with
      | @act _ _ _ _ _ events shared hpath =>
          refine ⟨_, congrArg (List.cons _) (congrArg (List.append _) ?_)⟩
          beta_reduce at hpath
          split at hpath
          · cases hpath with
            | semP hpath =>
                cases hpath with
                | semV hpath =>
                    cases hpath
                    rfl
          · cases hpath

/-- The request of a call that is about to return has been served, and its interrupt has arrived. -/
theorem returning (ht : s.thread t = some th) (hcode : th.code = some .ret) {c : κ}
    (hcall : th.call = some c) (huses : device.uses c = true) :
    ∃ before after, acquisitions device.lock s.log = before ++ (t, c) :: after ∧ (∀ a ∈ after, a.1 ≠ t) ∧
      before.length + 1 ≤ interrupts device.done s.log := by
  obtain ⟨shown, htrace⟩ := device.trace_of_returning h ht hcode hcall huses
  have honce : acquisitions device.lock (sinceCall t s.log) = [(t, c)] := by
    rw [htrace, ← List.singleton_append, acquisitions_append, acquisitions_append, acquisitions_observed]
    simp [acquisitions, Event.acquisition, device.lock_ne_done.symm]
  obtain ⟨before, after, horder, hafter⟩ := last_acquisition honce
  refine ⟨before, after, horder, hafter, ?_⟩
  rcases device.exclusive h with ⟨hidle, -⟩ | ⟨u, inner, hu, ⟨done, d, hinside⟩, -⟩
  · have hserved := hidle.serves.interrupts
    rw [horder, List.length_append, List.length_cons] at hserved
    omega
  · have hne : u ≠ t := by
      rintro rfl
      rw [hu] at ht
      cases ht
      obtain ⟨p, hp, hstage⟩ := hinside.code
      rw [hp] at hcode
      cases hcode
      cases hstage
    -- The call that holds the lock came later, so that this one is among those before it.
    have hlater : before.length + 1 ≤ done.length := by
      have horder' := horder.symm.trans hinside.order
      have hlength := congrArg List.length horder'
      rw [List.length_append, List.length_cons, List.length_append, List.length_singleton] at hlength
      have hafter_ne : after ≠ [] := by
        rintro rfl
        have hlast := congrArg List.getLast? horder'
        simp only [List.getLast?_append, List.getLast?_singleton, Option.some_or, Option.some.injEq,
          Prod.mk.injEq] at hlast
        exact hne hlast.1.symm
      have hpos := List.length_pos_iff.mpr hafter_ne
      omega
    obtain ⟨p, -, hstage⟩ := hinside.code
    cases hstage with
    | requesting hserves =>
        have hserved := hserves.interrupts
        omega
    | waiting hserves =>
        have hserved := hserves.interrupts
        rw [List.length_append, List.length_singleton] at hserved
        omega
    | signalled hserves =>
        have hserved := hserves.interrupts
        rw [List.length_append, List.length_singleton] at hserved
        omega
    | leaving hserves =>
        have hserved := hserves.interrupts
        rw [List.length_append, List.length_singleton] at hserved
        omega

end Reachable

end LockedDevice

end Interleaving

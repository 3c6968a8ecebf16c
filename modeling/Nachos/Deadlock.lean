import Mathlib.Data.Finset.Card
import Nachos.CriticalSection

/-! Programs that cannot deadlock. A semaphore is a lock, the completion of a request to a device, or an event that
comes from outside. A program obeys the discipline when it holds one lock at a time, releases it, makes one request at
a time and waits for its completion, and waits for no event while a request is open. In a system of such programs a
thread that waits while nothing else can happen waits for an event, or for a lock that is held for an event. -/

/-- What a semaphore is for. -/
inductive SemaphoreRole where
  | lock
  | completion
  | event
  deriving DecidableEq

/-- The roles of the semaphores, the lock that a thread may hold while it waits for an event, and the requests of each
completion that the device is at work on. -/
structure Usage (Sem σ : Type) where
  role : Sem → SemaphoreRole
  lockOf : Sem → Option Sem
  pending : Sem → σ → Nat

variable {Sem κ ι σ ρ ω : Type}

/-- What a thread may do to the requests, with the one it has made: it leaves them, or it makes one. -/
inductive Usage.Requests (usage : Usage Sem σ) (shared shared' : σ) : Option Sem → Option Sem → Prop where
  | none {owed : Option Sem} (hpending : ∀ x, usage.pending x shared' = usage.pending x shared) :
      Requests usage shared shared' owed owed
  | one {x : Sem} (hrole : usage.role x = .completion)
      (hmore : usage.pending x shared' = usage.pending x shared + 1)
      (hothers : ∀ y, y ≠ x → usage.pending y shared' = usage.pending y shared) :
      Requests usage shared shared' none (some x)

/-- The program of a thread that holds a lock and has made a request obeys the discipline. -/
def Program.Obeys (usage : Usage Sem σ) (held owed : Option Sem) : Program Sem σ ρ ω → Prop
  | .ret => held = none ∧ owed = none
  | .semP x k =>
      match usage.role x with
      | .lock => held = none ∧ owed = none ∧ k.Obeys usage (some x) none
      | .completion => owed = some x ∧ k.Obeys usage held none
      | .event => owed = none ∧ (∀ y, held = some y → usage.lockOf x = some y) ∧ k.Obeys usage held none
  | .semV x k => usage.role x = .lock ∧ held = some x ∧ k.Obeys usage none owed
  | .tick k => k.Obeys usage held owed
  | .yield k => k.Obeys usage held owed
  | .act f k => ∀ t shared priv, ∃ owed', usage.Requests shared (f t shared priv).1 owed owed' ∧
      (k t shared priv).Obeys usage held owed'
  | .newThread k => ∀ u, (k u).Obeys usage held owed
  | .start _ body k => body.Obeys usage none none ∧ k.Obeys usage held owed
  | .finish => held = none ∧ owed = none
  | .halt => True
  | .abort => True

/-- What an interrupt may do: it completes a request, or it announces events. -/
inductive Usage.Completes (usage : Usage Sem σ) (shared shared' : σ) : List Sem → Prop where
  | events {released : List Sem} (hpending : ∀ x, usage.pending x shared' = usage.pending x shared)
      (hevents : ∀ x ∈ released, usage.role x = .event) : Completes usage shared shared' released
  | one {x : Sem} (hrole : usage.role x = .completion)
      (hless : usage.pending x shared = usage.pending x shared' + 1)
      (hothers : ∀ y, y ≠ x → usage.pending y shared' = usage.pending y shared) :
      Completes usage shared shared' [x]

/-- A system whose programs obey the discipline. -/
structure Usage.Governs (usage : Usage Sem σ) (system : ThreadSystem Sem κ ι σ ρ ω) : Prop where
  menu : ∀ c, (system.menu c).Obeys usage none none
  handler : ∀ i shared shared' released, system.handler i shared = some (shared', released) →
    usage.Completes shared shared' released
  locks : ∀ x, usage.role x = .lock → system.initialValue x = 1
  completions : ∀ x, usage.role x = .completion →
    system.initialValue x = 0 ∧ usage.pending x system.initialShared = 0

namespace Interleaving

/-- As many threads as `n` have the claim `x`. -/
def Claims (claim : ThreadId → Option Sem) (x : Sem) (n : Nat) : Prop :=
  ∃ threads : Finset ThreadId, (∀ t, t ∈ threads ↔ claim t = some x) ∧ threads.card = n

section Claims

variable {claim : ThreadId → Option Sem} {x : Sem} {n : Nat} {t : ThreadId}

theorem Claims.add (h : Claims claim x n) (ht : claim t ≠ some x) :
    Claims (Function.update claim t (some x)) x (n + 1) := by
  obtain ⟨threads, hmem, rfl⟩ := h
  refine ⟨insert t threads, ?_, Finset.card_insert_of_notMem (fun hin => ht ((hmem t).mp hin))⟩
  intro u
  rw [Finset.mem_insert, hmem u]
  by_cases hu : u = t
  · subst hu
    simp
  · simp [hu]

theorem Claims.remove (h : Claims claim x n) (ht : claim t = some x) {v : Option Sem} (hv : v ≠ some x) :
    0 < n ∧ Claims (Function.update claim t v) x (n - 1) := by
  obtain ⟨threads, hmem, rfl⟩ := h
  have hin : t ∈ threads := (hmem t).mpr ht
  refine ⟨Finset.card_pos.mpr ⟨t, hin⟩, threads.erase t, ?_, Finset.card_erase_of_mem hin⟩
  intro u
  rw [Finset.mem_erase, hmem u]
  by_cases hu : u = t
  · subst hu
    simp [hv]
  · simp [hu]

theorem Claims.other (h : Claims claim x n) (ht : claim t ≠ some x) {v : Option Sem} (hv : v ≠ some x) :
    Claims (Function.update claim t v) x n := by
  obtain ⟨threads, hmem, rfl⟩ := h
  refine ⟨threads, ?_, rfl⟩
  intro u
  rw [hmem u]
  by_cases hu : u = t
  · subst hu
    simp [ht, hv]
  · rw [Function.update_of_ne hu]

theorem Claims.pos (h : Claims claim x n) (ht : claim t = some x) : 0 < n := by
  obtain ⟨threads, hmem, rfl⟩ := h
  exact Finset.card_pos.mpr ⟨t, (hmem t).mpr ht⟩

theorem Claims.exists (h : Claims claim x n) (hn : 0 < n) : ∃ t, claim t = some x := by
  obtain ⟨threads, hmem, rfl⟩ := h
  obtain ⟨t, ht⟩ := Finset.card_pos.mp hn
  exact ⟨t, (hmem t).mp ht⟩

end Claims

/-- Every thread obeys the discipline with what it holds and with what it has been promised; a lock that is taken has a
holder, and every promise is pending at the device or has been signalled. -/
structure Accounts (usage : Usage Sem σ) (s : State Sem κ σ ρ ω) (held owed : ThreadId → Option Sem) : Prop where
  obeys : ∀ t th p, s.thread t = some th → th.code = some p → p.Obeys usage (held t) (owed t)
  vacant : ∀ t, (∀ th, s.thread t = some th → th.code = none) → held t = none ∧ owed t = none
  lock : ∀ x, usage.role x = .lock → ∃ n : Nat, Claims held x n ∧ s.value x + n = 1
  completion : ∀ x, usage.role x = .completion → ∃ n : Nat, Claims owed x n ∧ s.value x + usage.pending x s.shared = n

section Accounts

variable {usage : Usage Sem σ} {s s' : State Sem κ σ ρ ω} {held owed : ThreadId → Option Sem} {t : ThreadId}
  {th : Thread Sem κ σ ρ ω} {p : Program Sem σ ρ ω}

/-- The other threads are as they were, or they are threads that had no program. -/
def Bystanders (usage : Usage Sem σ) (s s' : State Sem κ σ ρ ω) (t : ThreadId) : Prop :=
  ∀ u, u ≠ t → s'.thread u = s.thread u ∨ (∀ th, s.thread u = some th → th.code = none) ∧
    ∀ th p, s'.thread u = some th → th.code = some p → p.Obeys usage none none

theorem bystanders_of_setThread {new : Option (Thread Sem κ σ ρ ω)}
    (hthread : s'.thread = Function.update s.thread t new) : Bystanders usage s s' t := by
  intro u hu
  rw [hthread, Function.update_of_ne hu]
  exact .inl rfl

/-- One thread goes on, with other claims. -/
theorem Accounts.go_on (h : Accounts usage s held owed) {held' owed' : Option Sem} {new : Thread Sem κ σ ρ ω}
    (hnew : s'.thread t = some new) (hcode : new.code = some p) (hobeys : p.Obeys usage held' owed')
    (hothers : Bystanders usage s s' t)
    (hlock : ∀ x, usage.role x = .lock → ∃ n : Nat, Claims (Function.update held t held') x n ∧ s'.value x + n = 1)
    (hcompletion : ∀ x, usage.role x = .completion →
      ∃ n : Nat, Claims (Function.update owed t owed') x n ∧ s'.value x + usage.pending x s'.shared = n) :
    Accounts usage s' (Function.update held t held') (Function.update owed t owed') := by
  refine ⟨?_, ?_, hlock, hcompletion⟩
  · intro u th q hu hq
    by_cases hut : u = t
    · subst hut
      rw [hnew] at hu
      cases hu
      rw [hcode] at hq
      cases hq
      rw [Function.update_self, Function.update_self]
      exact hobeys
    · rw [Function.update_of_ne hut, Function.update_of_ne hut]
      rcases hothers u hut with hsame | ⟨hvacant, hfresh⟩
      · exact h.obeys u th q (hsame.symm.trans hu) hq
      · obtain ⟨hheld, howed⟩ := h.vacant u hvacant
        rw [hheld, howed]
        exact hfresh th q hu hq
  · intro u hvacant
    by_cases hut : u = t
    · subst hut
      have hnone := hvacant new hnew
      rw [hcode] at hnone
      cases hnone
    · rw [Function.update_of_ne hut, Function.update_of_ne hut]
      rcases hothers u hut with hsame | ⟨hvacant', -⟩
      · exact h.vacant u (hsame ▸ hvacant)
      · exact h.vacant u hvacant'

/-- One thread goes on with the same claims. -/
theorem Accounts.same (h : Accounts usage s held owed) {new : Thread Sem κ σ ρ ω} (hnew : s'.thread t = some new)
    (hcode : new.code = some p) (hobeys : p.Obeys usage (held t) (owed t)) (hothers : Bystanders usage s s' t)
    (hvalue : ∀ x, usage.role x ≠ .event → s'.value x = s.value x)
    (hpending : ∀ x, usage.pending x s'.shared = usage.pending x s.shared) : Accounts usage s' held owed := by
  have hstep := h.go_on hnew hcode hobeys hothers ?_ ?_
  · rwa [Function.update_eq_self, Function.update_eq_self] at hstep
  · intro x hx
    rw [Function.update_eq_self, hvalue x (by simp [hx])]
    exact h.lock x hx
  · intro x hx
    rw [Function.update_eq_self, hvalue x (by simp [hx]), hpending x]
    exact h.completion x hx

/-- The thread ends, with no claims. -/
theorem Accounts.finish (h : Accounts usage s held owed) (hheld : held t = none) (howed : owed t = none)
    (hthread : s'.thread = Function.update s.thread t none) (hvalue : s'.value = s.value)
    (hshared : s'.shared = s.shared) : Accounts usage s' held owed := by
  refine ⟨?_, ?_, ?_, ?_⟩
  · intro u th q hu hq
    by_cases hut : u = t
    · subst hut
      rw [hthread, Function.update_self] at hu
      cases hu
    · rw [hthread, Function.update_of_ne hut] at hu
      exact h.obeys u th q hu hq
  · intro u hvacant
    by_cases hut : u = t
    · subst hut
      exact ⟨hheld, howed⟩
    · rw [hthread, Function.update_of_ne hut] at hvacant
      exact h.vacant u hvacant
  · intro x hx
    rw [hvalue]
    exact h.lock x hx
  · intro x hx
    rw [hvalue, hshared]
    exact h.completion x hx

variable [DecidableEq Sem] {system : ThreadSystem Sem κ ι σ ρ ω}

theorem Runs.bystanders {held owed : Option Sem} (hruns : Runs system s t th p s') (hobeys : p.Obeys usage held owed) :
    Bystanders usage s s' t := by
  intro u hu
  rcases hruns.others u hu with hsame | ⟨hvacant, hfresh⟩
  · exact .inl hsame
  · refine .inr ⟨hvacant, ?_⟩
    intro new q hnew hq
    obtain ⟨k, rfl⟩ := hfresh new q hnew hq
    exact hobeys.1

theorem Accounts.pass (h : Accounts usage s held owed) {x : Sem} {k : Program Sem σ ρ ω}
    (hobeys : (Program.semP x k).Obeys usage (held t) (owed t)) :
    ∃ held owed, Accounts usage (afterPass s t th x k) held owed := by
  have hnew : (afterPass s t th x k).thread t = some { th with code := some k } := Function.update_self _ _ _
  have hothers : Bystanders usage s (afterPass s t th x k) t := bystanders_of_setThread rfl
  have hself : (afterPass s t th x k).value x = s.value x - 1 := Function.update_self _ _ _
  have hother : ∀ y, y ≠ x → (afterPass s t th x k).value y = s.value y := fun y hy => Function.update_of_ne hy _ _
  cases hrole : usage.role x with
  | lock =>
      simp only [Program.Obeys, hrole] at hobeys
      obtain ⟨hheld, howed, hk⟩ := hobeys
      refine ⟨_, _, h.go_on hnew rfl hk hothers ?_ ?_⟩
      · intro y hy
        obtain ⟨n, hn, hvalue⟩ := h.lock y hy
        by_cases hyx : y = x
        · subst hyx
          refine ⟨n + 1, hn.add (by simp [hheld]), ?_⟩
          rw [hself]
          push_cast
          omega
        · refine ⟨n, hn.other (by simp [hheld]) (by simpa using Ne.symm hyx), ?_⟩
          rw [hother y hyx]
          exact hvalue
      · intro y hy
        have hyx : y ≠ x := by
          rintro rfl
          rw [hrole] at hy
          cases hy
        rw [← howed, Function.update_eq_self, hother y hyx]
        exact h.completion y hy
  | completion =>
      simp only [Program.Obeys, hrole] at hobeys
      obtain ⟨howed, hk⟩ := hobeys
      refine ⟨_, _, h.go_on hnew rfl hk hothers ?_ ?_⟩
      · intro y hy
        have hyx : y ≠ x := by
          rintro rfl
          rw [hrole] at hy
          cases hy
        rw [Function.update_eq_self, hother y hyx]
        exact h.lock y hy
      · intro y hy
        obtain ⟨n, hn, hvalue⟩ := h.completion y hy
        change s.value y + usage.pending y s.shared = n at hvalue
        by_cases hyx : y = x
        · subst hyx
          obtain ⟨hpos, hless⟩ := hn.remove howed (v := none) nofun
          refine ⟨n - 1, hless, ?_⟩
          rw [hself]
          change s.value y - 1 + usage.pending y s.shared = _
          omega
        · refine ⟨n, hn.other ?_ nofun, ?_⟩
          · rw [howed]
            simpa using Ne.symm hyx
          · rw [hother y hyx]
            exact hvalue
  | event =>
      simp only [Program.Obeys, hrole] at hobeys
      obtain ⟨howed, -, hk⟩ := hobeys
      rw [← howed] at hk
      refine ⟨held, owed, h.same hnew rfl hk hothers ?_ fun _ => rfl⟩
      intro y hy
      have hyx : y ≠ x := by
        rintro rfl
        exact hy hrole
      exact hother y hyx

theorem Accounts.release (h : Accounts usage s held owed) {x : Sem}
    {k : Program Sem σ ρ ω} (hobeys : (Program.semV x k).Obeys usage (held t) (owed t))
    (hruns : Runs system s t th (.semV x k) s') : ∃ held owed, Accounts usage s' held owed := by
  obtain ⟨hrole, hheld, hk⟩ := hobeys
  cases hruns
  have hself : Function.update s.value x (s.value x + 1) x = s.value x + 1 := Function.update_self _ _ _
  have hother : ∀ y, y ≠ x → Function.update s.value x (s.value x + 1) y = s.value y :=
    fun y hy => Function.update_of_ne hy _ _
  refine ⟨_, _, h.go_on (Function.update_self _ _ _) rfl hk (bystanders_of_setThread rfl) ?_ ?_⟩
  · intro y hy
    obtain ⟨n, hn, hvalue⟩ := h.lock y hy
    by_cases hyx : y = x
    · subst hyx
      obtain ⟨hpos, hless⟩ := hn.remove hheld (v := none) nofun
      refine ⟨n - 1, hless, ?_⟩
      change Function.update s.value y (s.value y + 1) y + _ = 1
      rw [hself]
      omega
    · refine ⟨n, hn.other ?_ nofun, ?_⟩
      · rw [hheld]
        simpa using Ne.symm hyx
      · change Function.update s.value x (s.value x + 1) y + _ = 1
        rw [hother y hyx]
        exact hvalue
  · intro y hy
    have hyx : y ≠ x := by
      rintro rfl
      rw [hrole] at hy
      cases hy
    rw [Function.update_eq_self]
    change ∃ n : Nat, _ ∧ Function.update s.value x (s.value x + 1) y + _ = (n : Int)
    rw [hother y hyx]
    exact h.completion y hy

theorem Accounts.act (h : Accounts usage s held owed) {f : ThreadId → σ → ρ → σ × ρ × List ω}
    {k : ThreadId → σ → ρ → Program Sem σ ρ ω} (hobeys : (Program.act f k).Obeys usage (held t) (owed t))
    (hruns : Runs system s t th (.act f k) s') : ∃ held owed, Accounts usage s' held owed := by
  obtain ⟨owed', hrequests, hk⟩ := hobeys t s.shared th.priv
  cases hruns
  refine ⟨_, _, h.go_on (Function.update_self _ _ _) rfl hk (bystanders_of_setThread rfl) ?_ ?_⟩
  · intro x hx
    rw [Function.update_eq_self]
    exact h.lock x hx
  · intro x hx
    obtain ⟨n, hn, hvalue⟩ := h.completion x hx
    show ∃ n : Nat, _ ∧ s.value x + usage.pending x (f t s.shared th.priv).1 = n
    generalize howed : owed t = before at hrequests
    cases hrequests with
    | none hpending =>
        rw [← howed, Function.update_eq_self, hpending x]
        exact ⟨n, hn, hvalue⟩
    | @one y hrole hmore hothers =>
        by_cases hxy : x = y
        · subst hxy
          refine ⟨n + 1, hn.add (by simp [howed]), ?_⟩
          rw [hmore]
          push_cast
          omega
        · refine ⟨n, hn.other (by simp [howed]) (by simpa using Ne.symm hxy), ?_⟩
          rw [hothers x hxy]
          exact hvalue

/-- Every step of a thread keeps the accounts. -/
theorem Accounts.run (hgoverns : usage.Governs system) (h : Accounts usage s held owed) (ht : s.thread t = some th)
    (hcode : th.code = some p) (hruns : Runs system s t th p s') : ∃ held owed, Accounts usage s' held owed := by
  have hobeys := h.obeys t th p ht hcode
  have hothers : Bystanders usage s s' t := hruns.bystanders hobeys
  cases hruns with
  | @pass x k hvalue => exact h.pass hobeys
  | wait hvalue => exact ⟨held, owed, h.same ht hcode hobeys hothers (fun _ _ => rfl) fun _ => rfl⟩
  | release => exact h.release hobeys (Runs.release : Runs system s t th _ _)
  | tick =>
      exact ⟨held, owed, h.same (Function.update_self _ _ _) rfl hobeys hothers (fun _ _ => rfl) fun _ => rfl⟩
  | yield =>
      exact ⟨held, owed, h.same (Function.update_self _ _ _) rfl hobeys hothers (fun _ _ => rfl) fun _ => rfl⟩
  | act => exact h.act hobeys (Runs.act : Runs system s t th _ _)
  | @create k u garbage hnull hfresh =>
      have htu : t ≠ u := by
        rintro rfl
        rw [ht] at hfresh
        cases hfresh
      exact ⟨held, owed, h.same ((Function.update_of_ne htu _ _).trans (Function.update_self _ _ _)) rfl
        (hobeys (some u)) hothers (fun _ _ => rfl) fun _ => rfl⟩
  | createFails =>
      exact ⟨held, owed, h.same (Function.update_self _ _ _) rfl (hobeys none) hothers (fun _ _ => rfl) fun _ => rfl⟩
  | @start u new body k hu hnew =>
      have htu : t ≠ u := by
        rintro rfl
        rw [ht] at hu
        cases hu
        rw [hcode] at hnew
        cases hnew
      exact ⟨held, owed, h.same ((Function.update_of_ne htu _ _).trans (Function.update_self _ _ _)) rfl hobeys.2
        hothers (fun _ _ => rfl) fun _ => rfl⟩
  | finish => exact ⟨held, owed, h.finish hobeys.1 hobeys.2 rfl rfl rfl⟩
  | halt => exact ⟨held, owed, h.same ht hcode hobeys hothers (fun _ _ => rfl) fun _ => rfl⟩
  | call c hcall =>
      refine ⟨held, owed, h.same (Function.update_self _ _ _) rfl ?_ hothers (fun _ _ => rfl) fun _ => rfl⟩
      rw [hobeys.1, hobeys.2]
      exact hgoverns.menu c
  | «return» c hcall =>
      have hthis : ({ th with call := none } : Thread Sem κ σ ρ ω).code = some .ret := hcode
      exact ⟨held, owed, h.same (Function.update_self _ _ _) hthis hobeys hothers (fun _ _ => rfl) fun _ => rfl⟩

theorem Accounts.interrupt (h : Accounts usage s held owed) {shared : σ} {released : List Sem}
    (hcompletes : usage.Completes s.shared shared released) :
    Accounts usage (afterInterrupt s shared released) held owed := by
  refine ⟨h.obeys, h.vacant, ?_, ?_⟩
  · intro x hx
    have hunlisted : x ∉ released := by
      intro hmem
      cases hcompletes with
      | events hpending hevents =>
          rw [hevents x hmem] at hx
          cases hx
      | one hrole hless hothers =>
          rw [List.mem_singleton.mp hmem, hrole] at hx
          cases hx
    show ∃ n : Nat, _ ∧ releaseAll released s.value x + _ = 1
    rw [releaseAll_unlisted hunlisted]
    exact h.lock x hx
  · intro x hx
    obtain ⟨n, hn, hvalue⟩ := h.completion x hx
    refine ⟨n, hn, ?_⟩
    show releaseAll released s.value x + usage.pending x shared = n
    cases hcompletes with
    | events hpending hevents =>
        have hunlisted : x ∉ released := by
          intro hmem
          rw [hevents x hmem] at hx
          cases hx
        rw [releaseAll_unlisted hunlisted, hpending x]
        exact hvalue
    | @one y hrole hless hothers =>
        by_cases hxy : x = y
        · subst hxy
          show Function.update s.value x (s.value x + 1) x + _ = _
          rw [Function.update_self]
          omega
        · rw [releaseAll_unlisted (by simpa using hxy), hothers x hxy]
          exact hvalue

theorem Accounts.step (hgoverns : usage.Governs system) (h : Accounts usage s held owed) (hstep : Step system s s') :
    ∃ held owed, Accounts usage s' held owed := by
  cases hstep with
  | take u thread hhalted hcpu hu hcode => exact ⟨held, owed, h.obeys, h.vacant, h.lock, h.completion⟩
  | run hhalted hcpu hu hcode hruns => exact h.run hgoverns hu hcode hruns
  | interrupt i shared released hhalted hcpu hhandler =>
      exact ⟨held, owed, h.interrupt (hgoverns.handler i s.shared shared released hhandler)⟩

/-- In every interleaving the accounts are in order. -/
theorem reachable_accounts (hgoverns : usage.Governs system) (h : system.interleaving.Reachable s) :
    ∃ held owed, Accounts usage s held owed := by
  induction h with
  | init h =>
      have hinit : _ = initial system := h
      rw [hinit]
      have hnobody : ∀ x, Claims (fun _ => (none : Option Sem)) x 0 := fun x => ⟨∅, by simp, rfl⟩
      refine ⟨fun _ => none, fun _ => none, ?_, fun _ _ => ⟨rfl, rfl⟩, ?_, ?_⟩
      · intro u new q hu hq
        simp only [initial, Function.update_apply] at hu
        split at hu
        · cases hu
          cases hq
          exact ⟨rfl, rfl⟩
        · cases hu
      · intro x hx
        exact ⟨0, hnobody x, congrArg (· + 0) (hgoverns.locks x hx)⟩
      · intro x hx
        obtain ⟨hvalue, hpending⟩ := hgoverns.completions x hx
        refine ⟨0, hnobody x, ?_⟩
        show system.initialValue x + usage.pending x system.initialShared = 0
        rw [hvalue, hpending]
        rfl
  | step _ hstep ih =>
      obtain ⟨held, owed, haccounts⟩ := ih
      exact haccounts.step hgoverns hstep

omit [DecidableEq Sem] in
/-- No thread can go on: each waits at a semaphore whose value is zero, or has not been started. -/
def AllWait (s : State Sem κ σ ρ ω) : Prop :=
  ∀ t th, s.thread t = some th → th.code = none ∨ ∃ x k, th.code = some (.semP x k) ∧ s.value x = 0

/-- When no thread can go on and no request is pending, a thread that waits waits for an event, or for a lock whose
holder waits for an event that goes with the lock. -/
theorem waits_for_event (hgoverns : usage.Governs system) (h : system.interleaving.Reachable s) (hwait : AllWait s)
    (hpending : ∀ x, usage.role x = .completion → usage.pending x s.shared = 0) {x : Sem} {k : Program Sem σ ρ ω}
    (ht : s.thread t = some th) (hcode : th.code = some (.semP x k)) :
    usage.role x = .event ∨ usage.role x = .lock ∧ ∃ u holder y k', s.thread u = some holder ∧
      holder.code = some (.semP y k') ∧ usage.role y = .event ∧ usage.lockOf y = some x := by
  obtain ⟨held, owed, haccounts⟩ := reachable_accounts hgoverns h
  have hvalue : ∀ {u th y k'}, s.thread u = some th → th.code = some (.semP y k') → s.value y = 0 := by
    intro u th y k' hu hth
    rcases hwait u th hu with hnone | ⟨z, k'', hz, hzero⟩
    · rw [hth] at hnone
      cases hnone
    · rw [hth] at hz
      cases hz
      exact hzero
  -- A promise that is neither pending nor signalled has not been made.
  have hcompletion : ∀ {u th y k'}, s.thread u = some th → th.code = some (.semP y k') →
      usage.role y ≠ .completion := by
    intro u th y k' hu hth hrole
    have hobeys := haccounts.obeys u th _ hu hth
    simp only [Program.Obeys, hrole] at hobeys
    obtain ⟨n, hn, hsum⟩ := haccounts.completion y hrole
    have hpos := hn.pos hobeys.1
    rw [hvalue hu hth, hpending y hrole] at hsum
    omega
  cases hrole : usage.role x with
  | event => exact .inl rfl
  | completion => exact absurd hrole (hcompletion ht hcode)
  | lock =>
      obtain ⟨n, hn, hsum⟩ := haccounts.lock x hrole
      rw [hvalue ht hcode] at hsum
      obtain ⟨u, hu⟩ := hn.exists (by omega)
      refine .inr ⟨rfl, ?_⟩
      -- The holder waits, too, and not for a lock.
      by_cases hvacant : ∀ th, s.thread u = some th → th.code = none
      · rw [(haccounts.vacant u hvacant).1] at hu
        cases hu
      · push Not at hvacant
        obtain ⟨holder, hholder, hrunning⟩ := hvacant
        rcases hwait u holder hholder with hnone | ⟨y, k', hy, -⟩
        · exact absurd hnone hrunning
        · refine ⟨u, holder, y, k', hholder, hy, ?_⟩
          have hobeys := haccounts.obeys u holder _ hholder hy
          cases hroley : usage.role y with
          | event =>
              simp only [Program.Obeys, hroley] at hobeys
              exact ⟨rfl, hobeys.2.1 x hu⟩
          | completion => exact absurd hroley (hcompletion hholder hy)
          | lock =>
              simp only [Program.Obeys, hroley] at hobeys
              rw [hobeys.1] at hu
              cases hu

end Accounts

end Interleaving

import Mathlib.Data.List.Induction
import Nachos.ThreadProgram

/-! What one thread does during a call. Whatever the other threads do meanwhile, the thread follows a
path through the program of the call: its private memory and the events that it leaves in the history
are those of the path. Only the shared memory that an action of the path reads is not its own. -/

variable {Sem κ ι σ ρ ω : Type}

/-- The thread whose doing an event is. -/
def Event.author : Event Sem κ ω → Option ThreadId
  | .called t _ => some t
  | .returned t _ => some t
  | .passed _ t _ => some t
  | .released _ t => t
  | .observed t _ => some t
  | _ => none

/-- The thread and the call that pass the semaphore `l` in an event. -/
def Event.acquisition [DecidableEq Sem] (l : Sem) : Event Sem κ ω → Option (ThreadId × κ)
  | .passed x t (some c) => if x = l then some (t, c) else none
  | _ => none

/-- The actions of the program keep `P` of the private memory, and what they show has `Q`. -/
def Program.Preserves (P : ρ → Prop) (Q : ω → Prop) : Program Sem σ ρ ω → Prop
  | .semP _ k => k.Preserves P Q
  | .semV _ k => k.Preserves P Q
  | .tick k => k.Preserves P Q
  | .yield k => k.Preserves P Q
  | .act f k => ∀ t shared r, P r → P (f t shared r).2.1 ∧ (∀ o ∈ (f t shared r).2.2, Q o) ∧
      (k t shared r).Preserves P Q
  | .newThread k => ∀ u, (k u).Preserves P Q
  | .start _ body k => body.Preserves P Q ∧ k.Preserves P Q
  | _ => True

/-- From this private memory the program ends, if it does, with a private memory that has `P`, and so does every
program that it starts in a new thread. -/
def Program.Returns (construct : ρ → ρ) (P : ρ → Prop) : Program Sem σ ρ ω → ρ → Prop
  | .ret, r => P r
  | .semP _ k, r => k.Returns construct P r
  | .semV _ k, r => k.Returns construct P r
  | .tick k, r => k.Returns construct P r
  | .yield k, r => k.Returns construct P r
  | .act f k, r => ∀ t shared, (k t shared r).Returns construct P (f t shared r).2.1
  | .newThread k, r => ∀ u, (k u).Returns construct P r
  | .start _ body k, r => (∀ garbage, body.Returns construct P (construct garbage)) ∧ k.Returns construct P r
  | .finish, _ => True
  | .halt, _ => True
  | .abort, _ => True

namespace Interleaving

/-- The threads and calls that have passed the semaphore `l`, in this order. -/
def acquisitions [DecidableEq Sem] (l : Sem) (log : List (Event Sem κ ω)) : List (ThreadId × κ) :=
  log.filterMap (Event.acquisition l)

/-- The events of `t` since its last call, after one more event. -/
def since (t : ThreadId) (events : List (Event Sem κ ω)) (e : Event Sem κ ω) : List (Event Sem κ ω) :=
  if e.author = some t then
    match e with
    | .called _ _ => []
    | e => events ++ [e]
  else events

/-- The events of `t` since its last call. -/
def sinceCall (t : ThreadId) (log : List (Event Sem κ ω)) : List (Event Sem κ ω) :=
  log.foldl (since t) []

/-- The thread `t`, in a call, gets from the program `p` with private memory `r` to the program `q` with
private memory `r'`, and leaves these events. -/
inductive Follows (t : ThreadId) (call : Option κ) :
    Program Sem σ ρ ω → ρ → List (Event Sem κ ω) → Program Sem σ ρ ω → ρ → Prop where
  | here (p : Program Sem σ ρ ω) (r : ρ) : Follows t call p r [] p r
  | semP {x : Sem} {k q : Program Sem σ ρ ω} {r r' : ρ} {events : List (Event Sem κ ω)}
      (h : Follows t call k r events q r') :
      Follows t call (.semP x k) r (.passed x t call :: events) q r'
  | semV {x : Sem} {k q : Program Sem σ ρ ω} {r r' : ρ} {events : List (Event Sem κ ω)}
      (h : Follows t call k r events q r') :
      Follows t call (.semV x k) r (.released x (some t) :: events) q r'
  | tick {k q : Program Sem σ ρ ω} {r r' : ρ} {events : List (Event Sem κ ω)}
      (h : Follows t call k r events q r') : Follows t call (.tick k) r events q r'
  | yield {k q : Program Sem σ ρ ω} {r r' : ρ} {events : List (Event Sem κ ω)}
      (h : Follows t call k r events q r') : Follows t call (.yield k) r events q r'
  | act {f : ThreadId → σ → ρ → σ × ρ × List ω} {k : ThreadId → σ → ρ → Program Sem σ ρ ω}
      {q : Program Sem σ ρ ω} {r r' : ρ} {events : List (Event Sem κ ω)} (shared : σ)
      (h : Follows t call (k t shared r) (f t shared r).2.1 events q r') :
      Follows t call (.act f k) r ((f t shared r).2.2.map (.observed t) ++ events) q r'
  | newThread {k : Option ThreadId → Program Sem σ ρ ω} {q : Program Sem σ ρ ω} {r r' : ρ}
      {events : List (Event Sem κ ω)} (u : Option ThreadId) (h : Follows t call (k u) r events q r') :
      Follows t call (.newThread k) r events q r'
  | start {u : ThreadId} {body k q : Program Sem σ ρ ω} {r r' : ρ} {events : List (Event Sem κ ω)}
      (h : Follows t call k r events q r') : Follows t call (.start u body k) r events q r'

variable {t : ThreadId} {call : Option κ} {p q : Program Sem σ ρ ω} {r r' r'' : ρ}
  {events more : List (Event Sem κ ω)}

theorem Follows.trans {last : Program Sem σ ρ ω} (h : Follows t call p r events q r')
    (hmore : Follows t call q r' more last r'') : Follows t call p r (events ++ more) last r'' := by
  induction h with
  | here p r => exact hmore
  | semP h ih => exact .semP (ih hmore)
  | semV h ih => exact .semV (ih hmore)
  | tick h ih => exact .tick (ih hmore)
  | yield h ih => exact .yield (ih hmore)
  | act shared h ih =>
      rw [List.append_assoc]
      exact .act shared (ih hmore)
  | newThread u h ih => exact .newThread u (ih hmore)
  | start h ih => exact .start (ih hmore)

theorem sinceCall_append (t : ThreadId) (log more : List (Event Sem κ ω)) :
    sinceCall t (log ++ more) = more.foldl (since t) (sinceCall t log) := List.foldl_append

theorem since_other {e : Event Sem κ ω} (he : e.author ≠ some t) : since t events e = events :=
  if_neg he

theorem mem_sinceCall {e : Event Sem κ ω} {log : List (Event Sem κ ω)} (he : e ∈ sinceCall t log) :
    e ∈ log := by
  induction log using List.reverseRecOn with
  | nil => cases he
  | append_singleton log last ih =>
      rw [sinceCall_append] at he
      change e ∈ since t (sinceCall t log) last at he
      unfold since at he
      split at he
      · split at he
        · cases he
        · rcases List.mem_append.mp he with he | he
          · exact List.mem_append_left _ (ih he)
          · exact List.mem_append_right _ he
      · exact List.mem_append_left _ (ih he)

theorem foldl_since_other (hmore : ∀ e ∈ more, e.author ≠ some t) :
    more.foldl (since t) events = events := by
  induction more generalizing events with
  | nil => rfl
  | cons e rest ih =>
      rw [List.foldl_cons, since_other (hmore e (.head _))]
      exact ih fun e he => hmore e (.tail _ he)

theorem foldl_since_observed (observed : List ω) :
    (observed.map (@Event.observed Sem κ ω t)).foldl (since t) events =
      events ++ observed.map (.observed t) := by
  induction observed generalizing events with
  | nil => exact (List.append_nil events).symm
  | cons o rest ih =>
      have hfirst : since t events (.observed t o) = events ++ [.observed t o] := if_pos rfl
      rw [List.map_cons, List.foldl_cons, hfirst, ih, List.append_assoc]
      rfl

theorem sinceCall_filter {f : Event Sem κ ω → Bool}
    (hf : ∀ e : Event Sem κ ω, e.author = some t → f e = true) (log : List (Event Sem κ ω)) :
    sinceCall t (log.filter f) = sinceCall t log := by
  induction log using List.reverseRecOn with
  | nil => rfl
  | append_singleton log e ih =>
      rw [List.filter_append, sinceCall_append, sinceCall_append, ih]
      by_cases he : f e = true
      · rw [List.filter_cons_of_pos he]
        rfl
      · have hother : e.author ≠ some t := fun hauthor => he (hf e hauthor)
        rw [List.filter_cons_of_neg he]
        exact (since_other hother).symm

variable {system : ThreadSystem Sem κ ι σ ρ ω} {s s' : State Sem κ σ ρ ω} {th : Thread Sem κ σ ρ ω}

/-- The thread is at a point of the program of its call, if it is in one. -/
def OnPath (system : ThreadSystem Sem κ ι σ ρ ω) (log : List (Event Sem κ ω)) (t : ThreadId)
    (th : Thread Sem κ σ ρ ω) : Prop :=
  ∀ c, th.call = some c → ∃ p r, th.code = some p ∧
    Follows t (some c) (system.menu c) r (sinceCall t log) p th.priv

/-- The thread has gone on along its path. -/
theorem OnPath.follow {log : List (Event Sem κ ω)} (h : OnPath system log t th) {new : Thread Sem κ σ ρ ω}
    (hcode : th.code = some p) (hq : new.code = some q) (hcall : new.call = th.call)
    (hlog : more.foldl (since t) (sinceCall t log) = sinceCall t log ++ events)
    (hfollows : Follows t th.call p th.priv events q new.priv) : OnPath system (log ++ more) t new := by
  intro c hc
  obtain ⟨first, r, hfirst, hpath⟩ := h c (hcall.symm.trans hc)
  rw [hcode] at hfirst
  cases hfirst
  rw [← hcall, hc] at hfollows
  refine ⟨q, r, hq, ?_⟩
  rw [sinceCall_append, hlog]
  exact hpath.trans hfollows

theorem OnPath.other {log : List (Event Sem κ ω)} (h : OnPath system log t th)
    (hmore : ∀ e ∈ more, e.author ≠ some t) : OnPath system (log ++ more) t th := by
  intro c hc
  obtain ⟨p, r, hp, hpath⟩ := h c hc
  refine ⟨p, r, hp, ?_⟩
  rw [sinceCall_append, foldl_since_other hmore]
  exact hpath

/-- Every thread of `s` is on its path. -/
def AllOnPath (system : ThreadSystem Sem κ ι σ ρ ω) (s : State Sem κ σ ρ ω) : Prop :=
  ∀ t th, s.thread t = some th → OnPath system s.log t th

/-- A step of `t`: every other thread is as it was, or it is not in a call. -/
theorem AllOnPath.of_step (h : AllOnPath system s) (hlog : s'.log = s.log ++ more)
    (hauthor : ∀ e ∈ more, ∀ u, u ≠ t → e.author ≠ some u)
    (hthreads : ∀ u new, s'.thread u = some new → new.call = none ∨ (u ≠ t ∧ s.thread u = some new) ∨
      u = t ∧ OnPath system (s.log ++ more) t new) : AllOnPath system s' := by
  intro u new hnew
  rw [hlog]
  rcases hthreads u new hnew with hnone | ⟨hu, hold⟩ | ⟨rfl, hpath⟩
  · intro c hc
    rw [hnone] at hc
    cases hc
  · exact (h u new hold).other fun e he => hauthor e he u hu
  · exact hpath

/-- A step of `t` that changes no other thread. -/
theorem AllOnPath.of_setThread (h : AllOnPath system s) {new : Thread Sem κ σ ρ ω}
    (hthread : s'.thread = Function.update s.thread t (some new)) (hlog : s'.log = s.log ++ more)
    (hauthor : ∀ e ∈ more, ∀ u, u ≠ t → e.author ≠ some u)
    (hpath : OnPath system (s.log ++ more) t new) : AllOnPath system s' := by
  refine h.of_step hlog hauthor ?_
  intro u th hth
  rw [hthread, Function.update_apply] at hth
  split at hth
  · cases hth
    exact .inr (.inr ⟨‹u = t›, hpath⟩)
  · exact .inr (.inl ⟨‹u ≠ t›, hth⟩)

/-- A step of `t` that also changes a thread which is not in a call afterwards. -/
theorem AllOnPath.of_setThreads (h : AllOnPath system s) {u : ThreadId} {new other : Thread Sem κ σ ρ ω}
    (hthread : s'.thread = Function.update (Function.update s.thread t (some new)) u (some other))
    (hother : other.call = none) (hlog : s'.log = s.log ++ more)
    (hauthor : ∀ e ∈ more, ∀ u, u ≠ t → e.author ≠ some u)
    (hpath : OnPath system (s.log ++ more) t new) : AllOnPath system s' := by
  refine h.of_step hlog hauthor ?_
  intro v th hth
  rw [hthread, Function.update_apply, Function.update_apply] at hth
  split at hth
  · cases hth
    exact .inl hother
  · split at hth
    · cases hth
      exact .inr (.inr ⟨‹v = t›, hpath⟩)
    · exact .inr (.inl ⟨‹v ≠ t›, hth⟩)

theorem author_of_singleton {e : Event Sem κ ω} (he : e.author = some t ∨ e.author = none) :
    ∀ e' ∈ [e], ∀ u, u ≠ t → e'.author ≠ some u := by
  intro e' he' u hu heq
  rw [List.mem_singleton.mp he'] at heq
  rcases he with he | he
  · rw [he] at heq
    exact hu (Option.some.inj heq).symm
  · rw [he] at heq
    cases heq

theorem author_of_nil {e : Event Sem κ ω} (he : e ∈ ([] : List (Event Sem κ ω))) (u : ThreadId)
    (_ : u ≠ t) : e.author ≠ some u := by
  cases he

/-- The private memory of the thread has the property, and its program keeps it. -/
def Guarantees (P : ρ → Prop) (Q : ω → Prop) (th : Thread Sem κ σ ρ ω) : Prop :=
  P th.priv ∧ ∀ p, th.code = some p → p.Preserves P Q

/-- Every thread of `s` guarantees the properties, and everything that was shown has `Q`. -/
structure AllGuarantee (P : ρ → Prop) (Q : ω → Prop) (s : State Sem κ σ ρ ω) : Prop where
  thread : ∀ t th, s.thread t = some th → Guarantees P Q th
  shown : ∀ t o, Event.observed t o ∈ s.log → Q o

variable {P : ρ → Prop} {Q : ω → Prop}

theorem Guarantees.set (h : Guarantees P Q th) {new : Thread Sem κ σ ρ ω} (hpriv : new.priv = th.priv)
    (hcode : new.code = some q) (hq : q.Preserves P Q) : Guarantees P Q new := by
  refine ⟨hpriv ▸ h.1, ?_⟩
  intro p hp
  rw [hcode] at hp
  cases hp
  exact hq

theorem guarantees_update {thread : ThreadId → Option (Thread Sem κ σ ρ ω)} {new : Thread Sem κ σ ρ ω}
    (h : ∀ u old, thread u = some old → Guarantees P Q old) (hnew : Guarantees P Q new) (u : ThreadId)
    (th : Thread Sem κ σ ρ ω) (hu : Function.update thread t (some new) u = some th) :
    Guarantees P Q th := by
  rw [Function.update_apply] at hu
  split at hu
  · cases hu
    exact hnew
  · exact h u th hu

/-- What the thread still has to do ends with `P`; if it has not been started, its private memory is as constructed. -/
def Returning (system : ThreadSystem Sem κ ι σ ρ ω) (P : ρ → Prop) (th : Thread Sem κ σ ρ ω) : Prop :=
  match th.code with
  | some p => p.Returns system.construct P th.priv
  | none => ∃ garbage, th.priv = system.construct garbage

theorem returning_update {thread : ThreadId → Option (Thread Sem κ σ ρ ω)} {new : Thread Sem κ σ ρ ω}
    (h : ∀ u old, thread u = some old → Returning system P old) (hnew : Returning system P new) (u : ThreadId)
    (th : Thread Sem κ σ ρ ω) (hu : Function.update thread t (some new) u = some th) : Returning system P th := by
  rw [Function.update_apply] at hu
  split at hu
  · cases hu
    exact hnew
  · exact h u th hu

/-- Every thread of `s` returns with `P`. -/
def AllReturning (system : ThreadSystem Sem κ ι σ ρ ω) (P : ρ → Prop) (s : State Sem κ σ ρ ω) : Prop :=
  ∀ t th, s.thread t = some th → Returning system P th

theorem AllGuarantee.shown_append (h : AllGuarantee P Q s) (hmore : ∀ t o, Event.observed t o ∈ more → Q o)
    (t : ThreadId) (o : ω) (ho : Event.observed t o ∈ s.log ++ more) : Q o := by
  rcases List.mem_append.mp ho with ho | ho
  · exact h.shown t o ho
  · exact hmore t o ho

theorem AllGuarantee.shown_event (h : AllGuarantee P Q s) {e : Event Sem κ ω}
    (he : ∀ t o, e ≠ .observed t o) (t : ThreadId) (o : ω) (ho : Event.observed t o ∈ s.log ++ [e]) : Q o := by
  refine h.shown_append ?_ t o ho
  intro t o ho
  exact absurd (List.mem_singleton.mp ho).symm (he t o)

variable [DecidableEq Sem]

/-- The thread that runs goes on along its path, begins one or ends it. -/
theorem Runs.onPath (hruns : Runs system s t th p s') (hcode : th.code = some p)
    (h : AllOnPath system s) (ht : s.thread t = some th) : AllOnPath system s' := by
  have hthis := h t th ht
  have hnil : s.log = s.log ++ [] := (List.append_nil s.log).symm
  have hsame : Function.update s.thread t (some th) = s.thread := by
    rw [← ht]
    exact Function.update_eq_self t s.thread
  cases hruns with
  | pass hvalue =>
      refine h.of_setThread rfl rfl (author_of_singleton (.inl rfl)) ?_
      exact hthis.follow hcode rfl rfl (if_pos rfl) (.semP (.here _ _))
  | wait hvalue => exact h.of_setThread hsame.symm hnil (fun _ => author_of_nil) (hnil ▸ hthis)
  | release =>
      refine h.of_setThread rfl rfl (author_of_singleton (.inl rfl)) ?_
      exact hthis.follow hcode rfl rfl (if_pos rfl) (.semV (.here _ _))
  | tick =>
      refine h.of_setThread rfl hnil (fun _ => author_of_nil) ?_
      exact hthis.follow hcode rfl rfl (List.append_nil _).symm (.tick (.here _ _))
  | yield =>
      refine h.of_setThread rfl hnil (fun _ => author_of_nil) ?_
      exact hthis.follow hcode rfl rfl (List.append_nil _).symm (.yield (.here _ _))
  | act =>
      refine h.of_setThread rfl rfl ?_ ?_
      · intro e he u hu heq
        obtain ⟨o, -, rfl⟩ := List.mem_map.mp he
        exact hu (Option.some.inj heq).symm
      · refine hthis.follow hcode rfl rfl ?_ (.act s.shared (.here _ _))
        rw [List.append_nil]
        exact foldl_since_observed _
  | create u garbage hnull hfresh =>
      refine h.of_setThreads rfl rfl rfl (author_of_singleton (.inr rfl)) ?_
      exact hthis.follow hcode rfl rfl (List.append_nil _).symm (.newThread (some u) (.here _ _))
  | createFails =>
      refine h.of_setThread rfl hnil (fun _ => author_of_nil) ?_
      exact hthis.follow hcode rfl rfl (List.append_nil _).symm (.newThread none (.here _ _))
  | @start u new body k hu hnew =>
      have hcall : new.call = none := by
        cases hc : new.call with
        | none => rfl
        | some c =>
            obtain ⟨q, r, hq, -⟩ := h u new hu c hc
            rw [hnew] at hq
            cases hq
      refine h.of_setThreads rfl hcall rfl (author_of_singleton (.inr rfl)) ?_
      exact hthis.follow hcode rfl rfl (List.append_nil _).symm (.start (.here _ _))
  | finish =>
      refine h.of_step (t := t) hnil (fun _ => author_of_nil) ?_
      intro u new hnew
      simp only [Function.update_apply] at hnew
      split at hnew
      · cases hnew
      · exact .inr (.inl ⟨‹u ≠ t›, hnew⟩)
  | halt =>
      refine h.of_setThread hsame.symm rfl (author_of_singleton (.inr rfl)) ?_
      refine hthis.other ?_
      intro e he heq
      rw [List.mem_singleton.mp he] at heq
      cases heq
  | call c hcall =>
      refine h.of_setThread rfl rfl (author_of_singleton (.inl rfl)) ?_
      rintro d ⟨⟩
      refine ⟨_, th.priv, rfl, ?_⟩
      have hbegin : sinceCall t (s.log ++ [.called t c]) = [] := by
        rw [sinceCall_append]
        exact if_pos rfl
      rw [hbegin]
      exact .here _ _
  | «return» c hcall =>
      refine h.of_setThread rfl rfl (author_of_singleton (.inl rfl)) ?_
      rintro d ⟨⟩

/-- In every interleaving a thread that is in a call is on a path through the program of the call. -/
theorem reachable_onPath (h : system.interleaving.Reachable s) : AllOnPath system s := by
  refine h.invariant ?_ ?_
  · rintro s rfl t th hth c hc
    simp only [initial, Function.update_apply] at hth
    split at hth
    · cases hth
      cases hc
    · cases hth
  · intro s s' _ hpath hstep
    cases hstep with
    | take t th hhalted hcpu ht hcode => exact hpath
    | run hhalted hcpu ht hcode hruns => exact hruns.onPath hcode hpath ht
    | interrupt i shared released hhalted hcpu hhandler =>
        intro t th hth
        refine (hpath t th hth).other ?_
        intro e he heq
        obtain ⟨x, -, rfl⟩ := List.mem_map.mp he
        cases heq

theorem acquisitions_append (l : Sem) (log more : List (Event Sem κ ω)) :
    acquisitions l (log ++ more) = acquisitions l log ++ acquisitions l more := List.filterMap_append

theorem acquisitions_filter {l : Sem} {f : Event Sem κ ω → Bool}
    (hf : ∀ t c, f (.passed l t c) = true) (log : List (Event Sem κ ω)) :
    acquisitions l (log.filter f) = acquisitions l log := by
  induction log with
  | nil => rfl
  | cons e rest ih =>
      by_cases he : f e = true
      · rw [List.filter_cons_of_pos he]
        show List.filterMap _ (e :: rest.filter f) = List.filterMap _ (e :: rest)
        rw [List.filterMap_cons, List.filterMap_cons]
        split
        · exact ih
        · exact congrArg _ ih
      · have hnone : e.acquisition l = none := by
          unfold Event.acquisition
          split
          · split
            · subst l
              exact absurd (hf _ _) he
            · rfl
          · rfl
        rw [List.filter_cons_of_neg he, ih]
        exact (List.filterMap_cons_none hnone).symm

theorem acquisition_author {l : Sem} {e : Event Sem κ ω} {a : ThreadId × κ}
    (h : e.acquisition l = some a) : e.author = some a.1 := by
  unfold Event.acquisition at h
  split at h
  · split at h
    · cases h
      rfl
    · cases h
  · cases h

/-- A thread that has passed `l` once since its last call passed it the last time in this call. -/
theorem last_acquisition {l : Sem} {t : ThreadId} {c : κ} {log : List (Event Sem κ ω)}
    (h : acquisitions l (sinceCall t log) = [(t, c)]) :
    ∃ before after, acquisitions l log = before ++ (t, c) :: after ∧ ∀ a ∈ after, a.1 ≠ t := by
  induction log using List.reverseRecOn with
  | nil => cases h
  | append_singleton log e ih =>
      rw [sinceCall_append] at h
      rw [acquisitions_append]
      change acquisitions l (since t (sinceCall t log) e) = _ at h
      by_cases hauthor : e.author = some t
      · rcases he : e.acquisition l with - | a
        · -- Not an acquisition: the last one is in the rest of the log.
          have hold : acquisitions l (sinceCall t log) = [(t, c)] := by
            unfold since at h
            rw [if_pos hauthor] at h
            split at h
            · cases h
            · rw [acquisitions_append] at h
              simpa [acquisitions, he] using h
          obtain ⟨before, after, heq, hafter⟩ := ih hold
          refine ⟨before, after, ?_, hafter⟩
          simpa [acquisitions, he] using heq
        · -- The last acquisition is this event.
          have hthis : a = (t, c) := by
            unfold since at h
            rw [if_pos hauthor] at h
            split at h
            · cases h
            · rw [acquisitions_append] at h
              have hsingle : acquisitions l [e] = [a] := by
                simp [acquisitions, he]
              rw [hsingle] at h
              have hlast := congrArg List.getLast? h
              simpa using hlast
          subst hthis
          refine ⟨acquisitions l log, [], ?_, fun a ha => by cases ha⟩
          simp [acquisitions, he]
      · rw [since_other hauthor] at h
        obtain ⟨before, after, heq, hafter⟩ := ih h
        refine ⟨before, after ++ acquisitions l [e], ?_, ?_⟩
        · rw [heq, List.append_assoc, List.cons_append]
        · intro a ha hat
          rcases List.mem_append.mp ha with ha | ha
          · exact hafter a ha hat
          · obtain ⟨e', he', hae⟩ := List.mem_filterMap.mp ha
            rw [List.mem_singleton.mp he'] at hae
            apply hauthor
            rw [acquisition_author hae, hat]

theorem Runs.guarantees (hmenu : ∀ c, (system.menu c).Preserves P Q)
    (hconstruct : ∀ r, P (system.construct r)) (h : AllGuarantee P Q s) (ht : s.thread t = some th)
    (hcode : th.code = some p) (hruns : Runs system s t th p s') : AllGuarantee P Q s' := by
  have hthis := h.thread t th ht
  have hp := hthis.2 p hcode
  cases hruns with
  | pass hvalue => exact ⟨guarantees_update h.thread (hthis.set rfl rfl hp), h.shown_event nofun⟩
  | wait hvalue => exact ⟨h.thread, h.shown⟩
  | release => exact ⟨guarantees_update h.thread (hthis.set rfl rfl hp), h.shown_event nofun⟩
  | tick => exact ⟨guarantees_update h.thread (hthis.set rfl rfl hp), h.shown⟩
  | yield => exact ⟨guarantees_update h.thread (hthis.set rfl rfl hp), h.shown⟩
  | act =>
      obtain ⟨hpriv, hshown, hk⟩ := hp t s.shared th.priv hthis.1
      constructor
      · refine guarantees_update h.thread ⟨hpriv, ?_⟩
        rintro q ⟨⟩
        exact hk
      · refine h.shown_append ?_
        intro u o ho
        obtain ⟨o', ho', ⟨⟩⟩ := List.mem_map.mp ho
        exact hshown _ ho'
  | create u garbage hnull hfresh =>
      refine ⟨guarantees_update (guarantees_update h.thread (hthis.set rfl rfl (hp (some u))))
        ⟨hconstruct garbage, ?_⟩, h.shown_event nofun⟩
      rintro q ⟨⟩
  | createFails => exact ⟨guarantees_update h.thread (hthis.set rfl rfl (hp none)), h.shown⟩
  | start hu hnew =>
      exact ⟨guarantees_update (guarantees_update h.thread (hthis.set rfl rfl hp.2))
        ((h.thread _ _ hu).set rfl rfl hp.1), h.shown_event nofun⟩
  | finish =>
      refine ⟨?_, h.shown⟩
      intro u new hnew
      simp only [Function.update_apply] at hnew
      split at hnew
      · cases hnew
      · exact h.thread u new hnew
  | halt => exact ⟨h.thread, h.shown_event nofun⟩
  | call c hcall => exact ⟨guarantees_update h.thread (hthis.set rfl rfl (hmenu c)), h.shown_event nofun⟩
  | «return» c hcall => exact ⟨guarantees_update h.thread ⟨hthis.1, hthis.2⟩, h.shown_event nofun⟩

/-- In every interleaving the private memory of every thread has a property that all actions keep. -/
theorem reachable_guarantees (hmenu : ∀ c, (system.menu c).Preserves P Q)
    (hconstruct : ∀ r, P (system.construct r)) (hinitial : P system.initialPrivate)
    (h : system.interleaving.Reachable s) : AllGuarantee P Q s := by
  refine h.invariant ?_ ?_
  · rintro s rfl
    refine ⟨?_, fun t o ho => by cases ho⟩
    intro u th hu
    simp only [initial, Function.update_apply] at hu
    split at hu
    · cases hu
      refine ⟨hinitial, ?_⟩
      rintro q ⟨⟩
      trivial
    · cases hu
  · intro s s' _ hguarantee hstep
    cases hstep with
    | take t th hhalted hcpu ht hcode => exact ⟨hguarantee.thread, hguarantee.shown⟩
    | run hhalted hcpu ht hcode hruns => exact hruns.guarantees hmenu hconstruct hguarantee ht hcode
    | interrupt i shared released hhalted hcpu hhandler =>
        refine ⟨hguarantee.thread, hguarantee.shown_append ?_⟩
        intro t o ho
        obtain ⟨x, -, hx⟩ := List.mem_map.mp ho
        cases hx

theorem Runs.returning (hmenu : ∀ c r, P r → (system.menu c).Returns system.construct P r)
    (h : AllReturning system P s) (ht : s.thread t = some th) (hcode : th.code = some p)
    (hruns : Runs system s t th p s') : AllReturning system P s' := by
  have hp := h t th ht
  unfold Returning at hp
  rw [hcode] at hp
  cases hruns with
  | pass hvalue => exact returning_update h hp
  | wait hvalue => exact h
  | release => exact returning_update h hp
  | tick => exact returning_update h hp
  | yield => exact returning_update h hp
  | act => exact returning_update h (hp t s.shared)
  | create u garbage hnull hfresh => exact returning_update (returning_update h (hp (some u))) ⟨garbage, rfl⟩
  | createFails => exact returning_update h (hp none)
  | @start u new body k hu hnew =>
      have hconstructed := h u new hu
      unfold Returning at hconstructed
      rw [hnew] at hconstructed
      obtain ⟨garbage, hpriv⟩ := hconstructed
      refine returning_update (returning_update h hp.2) ?_
      change body.Returns system.construct P new.priv
      rw [hpriv]
      exact hp.1 garbage
  | finish =>
      intro u new hnew
      simp only [Function.update_apply] at hnew
      split at hnew
      · cases hnew
      · exact h u new hnew
  | halt => exact h
  | call c hcall => exact returning_update h (hmenu c th.priv hp)
  | «return» c hcall =>
      refine returning_update h ?_
      unfold Returning
      rw [hcode]
      exact hp

/-- In every interleaving a thread that is at the end of a call has `P` of its private memory, if every call keeps
`P` and every thread establishes it before its first call. -/
theorem reachable_returning (hmenu : ∀ c r, P r → (system.menu c).Returns system.construct P r)
    (hinitial : P system.initialPrivate) (h : system.interleaving.Reachable s) : AllReturning system P s := by
  refine h.invariant ?_ ?_
  · rintro s rfl
    refine returning_update (fun u old hold => by cases hold) ?_
    exact hinitial
  · intro s s' _ hreturning hstep
    cases hstep with
    | take t th hhalted hcpu ht hcode => exact hreturning
    | run hhalted hcpu ht hcode hruns => exact hruns.returning hmenu hreturning ht hcode
    | interrupt i shared released hhalted hcpu hhandler => exact hreturning

/-- The history only grows. -/
theorem Step.log (h : Step system s s') : ∃ more, s'.log = s.log ++ more := by
  cases h with
  | take t th hhalted hcpu ht hcode => exact ⟨[], (List.append_nil _).symm⟩
  | interrupt i shared released hhalted hcpu hhandler => exact ⟨_, rfl⟩
  | run hhalted hcpu ht hcode hruns =>
      cases hruns with
      | wait hvalue => exact ⟨[], (List.append_nil _).symm⟩
      | tick => exact ⟨[], (List.append_nil _).symm⟩
      | yield => exact ⟨[], (List.append_nil _).symm⟩
      | createFails => exact ⟨[], (List.append_nil _).symm⟩
      | finish => exact ⟨[], (List.append_nil _).symm⟩
      | _ => exact ⟨_, rfl⟩

end Interleaving

import Nachos.CallTrace

/-! The last event of a thread. Where the last thing that a thread has shown is a mark of its private memory, it still
has that private memory. -/

variable {Sem κ ι σ ρ ω : Type}

/-- An action that shows the mark of a private memory sets it and ends the program. -/
def Program.Marks (mark : ω → Option ρ) : Program Sem σ ρ ω → Prop
  | .semP _ k => k.Marks mark
  | .semV _ k => k.Marks mark
  | .tick k => k.Marks mark
  | .yield k => k.Marks mark
  | .act f k => ∀ t shared r, (k t shared r).Marks mark ∧
      ∀ o r', (f t shared r).2.2.getLast? = some o → mark o = some r' →
        (f t shared r).2.1 = r' ∧ k t shared r = .ret
  | .newThread k => ∀ u, (k u).Marks mark
  | .start _ body k => body.Marks mark ∧ k.Marks mark
  | _ => True

namespace Interleaving

/-- The last event of the thread `t`. -/
def lastOf (t : ThreadId) (log : List (Event Sem κ ω)) : Option (Event Sem κ ω) :=
  log.reverse.find? fun e => e.author = some t

theorem lastOf_append (t : ThreadId) (log more : List (Event Sem κ ω)) :
    lastOf t (log ++ more) = (lastOf t more).or (lastOf t log) := by
  unfold lastOf
  rw [List.reverse_append, List.find?_append]

theorem mem_of_lastOf {t : ThreadId} {log : List (Event Sem κ ω)} {e : Event Sem κ ω} (h : lastOf t log = some e) :
    e ∈ log := List.mem_reverse.mp (List.mem_of_find?_eq_some h)

theorem lastOf_eq_none {t : ThreadId} {log : List (Event Sem κ ω)} (h : ∀ e ∈ log, e.author ≠ some t) :
    lastOf t log = none := by
  refine List.find?_eq_none.mpr ?_
  intro e he
  rw [decide_eq_true_eq]
  exact h e (List.mem_reverse.mp he)

theorem lastOf_observed (t : ThreadId) (shown : List ω) :
    lastOf t (shown.map (.observed t) : List (Event Sem κ ω)) = shown.getLast?.map (.observed t) := by
  unfold lastOf
  rw [← List.map_reverse, List.getLast?_eq_head?_reverse]
  cases shown.reverse with
  | nil => rfl
  | cons o rest => exact List.find?_cons_of_pos (by simp [Event.author])

variable {system : ThreadSystem Sem κ ι σ ρ ω} {s s' : State Sem κ σ ρ ω} {th : Thread Sem κ σ ρ ω}
  {t : ThreadId} {p : Program Sem σ ρ ω} {more : List (Event Sem κ ω)} {mark : ω → Option ρ}

/-- A thread whose last event is the mark of a private memory has it, and is at the end of its program. -/
structure Marked (mark : ω → Option ρ) (s : State Sem κ σ ρ ω) : Prop where
  code : ∀ t th p, s.thread t = some th → th.code = some p → p.Marks mark
  last : ∀ t o r, lastOf t s.log = some (.observed t o) → mark o = some r →
    ∃ th, s.thread t = some th ∧ th.code = some .ret ∧ th.priv = r

theorem Marked.other (h : Marked mark s) {u : ThreadId} (hmore : ∀ e ∈ more, e.author ≠ some u)
    {thread : ThreadId → Option (Thread Sem κ σ ρ ω)}
    (hthread : ∀ th, s.thread u = some th → th.code = some .ret → thread u = some th) {o : ω} {r : ρ}
    (hlast : lastOf u (s.log ++ more) = some (.observed u o)) (hmark : mark o = some r) :
    ∃ th, thread u = some th ∧ th.code = some .ret ∧ th.priv = r := by
  rw [lastOf_append, lastOf_eq_none hmore, Option.none_or] at hlast
  obtain ⟨th, hu, hcode, hpriv⟩ := h.last u o r hlast hmark
  exact ⟨th, hthread th hu hcode, hcode, hpriv⟩

/-- A thread whose program has not ended has not shown a mark last. -/
theorem Marked.running (h : Marked mark s) (ht : s.thread t = some th) (hcode : th.code = some p) (hp : p ≠ .ret)
    (hmore : ∀ e ∈ more, ∀ o, e ≠ .observed t o) {o : ω} {r : ρ}
    (hlast : lastOf t (s.log ++ more) = some (.observed t o)) : mark o ≠ some r := by
  intro hmark
  rw [lastOf_append] at hlast
  cases hown : lastOf t more with
  | some e =>
      rw [hown, Option.some_or] at hlast
      exact hmore e (mem_of_lastOf hown) o (Option.some.inj hlast)
  | none =>
      rw [hown, Option.none_or] at hlast
      obtain ⟨new, hnew, hret, -⟩ := h.last t o r hlast hmark
      obtain rfl := Option.some.inj (ht.symm.trans hnew)
      exact hp (Option.some.inj (hcode.symm.trans hret))

theorem marks_update {thread : ThreadId → Option (Thread Sem κ σ ρ ω)} {new : Thread Sem κ σ ρ ω}
    (h : ∀ u old p, thread u = some old → old.code = some p → p.Marks mark)
    (hnew : ∀ p, new.code = some p → p.Marks mark) (u : ThreadId) (th : Thread Sem κ σ ρ ω) (p : Program Sem σ ρ ω)
    (hu : Function.update thread t (some new) u = some th) (hp : th.code = some p) : p.Marks mark := by
  rw [Function.update_apply] at hu
  split at hu
  · cases hu
    exact hnew p hp
  · exact h u th p hu hp

/-- The thread `t` makes a step after which its last event is not a mark. -/
theorem Marked.step (h : Marked mark s) (hlog : s'.log = s.log ++ more)
    (hauthor : ∀ e ∈ more, ∀ u, u ≠ t → e.author ≠ some u)
    (hquiet : ∀ o r, lastOf t (s.log ++ more) = some (.observed t o) → mark o ≠ some r)
    (hthread : ∀ u new, u ≠ t → s.thread u = some new → new.code = some .ret → s'.thread u = some new)
    (hmarks : ∀ u new q, s'.thread u = some new → new.code = some q → q.Marks mark) : Marked mark s' := by
  refine ⟨hmarks, ?_⟩
  intro u o r hlast hmark
  rw [hlog] at hlast
  by_cases hu : u = t
  · subst hu
    exact absurd hmark (hquiet o r hlast)
  · exact h.other (fun e he => hauthor e he u hu) (fun new => hthread u new hu) hlast hmark

variable [DecidableEq Sem]

theorem Runs.marked (hmenu : ∀ c, (system.menu c).Marks mark) (h : Marked mark s) (ht : s.thread t = some th)
    (hcode : th.code = some p) (hruns : Runs system s t th p s') : Marked mark s' := by
  have hp := h.code t th p ht hcode
  have hset : ∀ {new : Thread Sem κ σ ρ ω} {q : Program Sem σ ρ ω}, new.code = some q → q.Marks mark →
      ∀ u th p, Function.update s.thread t (some new) u = some th → th.code = some p → p.Marks mark := by
    intro new q hnew hq
    refine marks_update h.code ?_
    rintro q' hq'
    obtain rfl := Option.some.inj (hnew.symm.trans hq')
    exact hq
  have hkeep : ∀ {new : Option (Thread Sem κ σ ρ ω)} (u : ThreadId) (old : Thread Sem κ σ ρ ω), u ≠ t →
      s.thread u = some old → old.code = some .ret → Function.update s.thread t new u = some old := by
    intro new u old hu hold _
    rw [Function.update_of_ne hu]
    exact hold
  have hnone : ∀ u, ∀ e ∈ ([] : List (Event Sem κ ω)), ∀ v, v ≠ u → e.author ≠ some v := fun u e he => author_of_nil he
  have hnothing : p ≠ .ret → ∀ o r, lastOf t (s.log ++ []) = some (.observed t o) → mark o ≠ some r := by
    intro hrun o r hlast
    exact h.running ht hcode hrun (fun e he => by cases he) hlast
  have hsingle : p ≠ .ret → ∀ e : Event Sem κ ω, (∀ o, e ≠ .observed t o) →
      ∀ o r, lastOf t (s.log ++ [e]) = some (.observed t o) → mark o ≠ some r := by
    intro hrun e he o r hlast
    refine h.running ht hcode hrun ?_ hlast
    intro e' he'
    rw [List.mem_singleton.mp he']
    exact he
  have hown : ∀ e : Event Sem κ ω, e.author = some t → (∀ o, e ≠ .observed t o) →
      ∀ o r, lastOf t (s.log ++ [e]) = some (.observed t o) → mark o ≠ some r := by
    intro e hauthor he o r hlast
    have hsame : lastOf t [e] = some e := List.find?_cons_of_pos (decide_eq_true hauthor)
    rw [lastOf_append, hsame, Option.some_or] at hlast
    exact absurd (Option.some.inj hlast) (he o)
  cases hruns with
  | pass hvalue =>
      exact h.step rfl (author_of_singleton (.inl rfl))
        (hsingle (fun heq => by cases heq) _ fun o heq => by cases heq) hkeep (hset rfl hp)
  | wait hvalue =>
      exact ⟨h.code, h.last⟩
  | release =>
      exact h.step rfl (author_of_singleton (.inl rfl))
        (hsingle (fun heq => by cases heq) _ fun o heq => by cases heq) hkeep (hset rfl hp)
  | tick =>
      exact h.step (List.append_nil _).symm (hnone t)
        (hnothing fun heq => by cases heq) hkeep (hset rfl hp)
  | yield =>
      exact h.step (List.append_nil _).symm (hnone t)
        (hnothing fun heq => by cases heq) hkeep (hset rfl hp)
  | @act f k =>
      obtain ⟨hk, hmarks⟩ := hp t s.shared th.priv
      refine ⟨hset rfl hk, ?_⟩
      intro u o r hlast hmark
      by_cases hu : u = t
      · subst hu
        rw [lastOf_append, lastOf_observed] at hlast
        cases hshown : (f u s.shared th.priv).2.2.getLast? with
        | some o' =>
            rw [hshown, Option.map_some, Option.some_or] at hlast
            obtain rfl := (Event.observed.inj (Option.some.inj hlast)).2
            obtain ⟨hpriv, hret⟩ := hmarks o' r hshown hmark
            exact ⟨_, Function.update_self _ _ _, congrArg some hret, hpriv⟩
        | none =>
            rw [hshown, Option.map_none, Option.none_or] at hlast
            exact absurd hmark (hnothing (fun heq => by cases heq) o r (by rwa [List.append_nil]))
      · have hauthor : ∀ e ∈ ((f t s.shared th.priv).2.2.map (.observed t) : List (Event Sem κ ω)), e.author ≠ some u := by
          intro e he heq
          obtain ⟨o', -, rfl⟩ := List.mem_map.mp he
          exact hu (Option.some.inj heq).symm
        exact h.other hauthor (fun new => hkeep u new hu) hlast hmark
  | create u garbage hnull hfresh =>
      refine h.step rfl (author_of_singleton (.inr rfl))
        (hsingle (fun heq => by cases heq) _ fun o heq => by cases heq) ?_ ?_
      · intro v old hv hold hret
        have hne : v ≠ u := by
          rintro rfl
          rw [hfresh] at hold
          cases hold
        exact (Function.update_of_ne hne _ _).trans (hkeep v old hv hold hret)
      · exact marks_update (hset rfl (hp (some u))) fun q hq => by cases hq
  | createFails =>
      exact h.step (List.append_nil _).symm (hnone t)
        (hnothing fun heq => by cases heq) hkeep (hset rfl (hp none))
  | @start u new body k hu hnew =>
      refine h.step rfl (author_of_singleton (.inr rfl))
        (hsingle (fun heq => by cases heq) _ fun o heq => by cases heq) ?_ ?_
      · intro v old hv hold hret
        have hne : v ≠ u := by
          rintro rfl
          obtain rfl := Option.some.inj (hu.symm.trans hold)
          rw [hnew] at hret
          cases hret
        exact (Function.update_of_ne hne _ _).trans (hkeep v old hv hold hret)
      · refine marks_update (hset rfl hp.2) ?_
        rintro q ⟨⟩
        exact hp.1
  | finish =>
      refine h.step (List.append_nil _).symm (hnone t)
        (hnothing fun heq => by cases heq) hkeep ?_
      intro v old q hold hq
      change Function.update s.thread t none v = some old at hold
      rw [Function.update_apply] at hold
      split at hold
      · cases hold
      · exact h.code v old q hold hq
  | halt =>
      exact h.step rfl (author_of_singleton (.inr rfl))
        (hsingle (fun heq => by cases heq) _ fun o heq => by cases heq) (fun v old _ hold _ => hold) h.code
  | call c hcall =>
      exact h.step rfl (author_of_singleton (.inl rfl)) (hown _ rfl fun o heq => by cases heq) hkeep (hset rfl (hmenu c))
  | «return» c hcall =>
      exact h.step rfl (author_of_singleton (.inl rfl)) (hown _ rfl fun o heq => by cases heq) hkeep (hset hcode hp)

end Interleaving

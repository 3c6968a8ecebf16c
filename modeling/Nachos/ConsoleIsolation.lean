import Nachos.ConsoleProjection

/-! Two consoles do not interfere as long as the calls on each of them pass the static members on signals of this
console only. -/

namespace Nachos

open Interleaving

variable {table : ThreadTable} {c : ConsoleId}

section Steps

variable {utf8 : Bool} {input : ConsoleId → List Byte} {s s' : PairState} {a : ConsoleState} {t : ThreadId}
  {th : PairThread}

theorem Alone.run (h : Alone table c s a)
    (ha : (consoleSystem utf8 (input c) table).interleaving.Reachable a) (hheld : SignalsHeld s)
    (hown : OwnSignals s'.log) (hhalted : s.halted = false) (hcpu : s.cpu = some t) (ht : s.thread t = some th)
    {p : Program PairSem Consoles Unit (ConsoleId × Observation)} (hcode : th.code = some p)
    (hruns : Runs (consolePair utf8 input table) s t th p s') :
    ∃ a', (consoleSystem utf8 (input c) table).interleaving.Reachable a' ∧ Alone table c s' a' := by
  obtain ⟨th', ht', hview⟩ := h.view ht
  cases hview with
  | missing => cases hcode
  | idle =>
      cases hcode
      exact h.calls ha hhalted hcpu ht ht' hruns
  | @own c' p call hp hvisible =>
      cases hcode
      by_cases hret : p = .ret
      · subst hret
        exact h.returns ha hhalted hcpu hvisible ht ht' hruns
      · rcases hp with ⟨rfl, hplain⟩ | hneutral
        · exact h.plain_run ha hheld hown hhalted hcpu hplain hvisible hret ht ht' hruns
        · exact h.neutral_run ha hhalted hcpu hneutral hvisible hret ht ht' hruns
  | other hc hp hhidden =>
      cases hcode
      exact h.other_run ha hhalted hcpu hc hp hhidden ht ht' hruns

theorem Alone.take (h : Alone table c s a)
    (ha : (consoleSystem utf8 (input c) table).interleaving.Reachable a) (hhalted : s.halted = false)
    (hcpu : s.cpu = none) (ht : s.thread t = some th) (hcode : th.code ≠ none) :
    ∃ a', (consoleSystem utf8 (input c) table).interleaving.Reachable a' ∧
      Alone table c { s with cpu := some t } a' := by
  have hacpu : a.cpu = none := by
    rw [h.cpu]
    exact visibleCpu_none hcpu
  have hnext : ∀ cpu, cpu = visibleCpu c { s with cpu := some t } →
      Alone table c { s with cpu := some t } { a with cpu := cpu } := fun cpu heq =>
    ⟨h.thread, h.locks, h.signals, h.shared, heq, h.halted, h.got⟩
  obtain ⟨th', ht', hview⟩ := h.view ht
  cases hhides : hides c th with
  | true =>
      refine ⟨{ a with cpu := none }, ?_, hnext none (hidden_cpu (t := t) rfl hhides rfl ht)⟩
      rw [← hacpu]
      exact ha
  | false =>
      have hcode' : th'.code ≠ none := by
        cases hview with
        | missing => exact absurd rfl hcode
        | idle => nofun
        | own => nofun
        | other => nofun
      exact ⟨_, ha.step (.take t th' (h.halted.trans hhalted) hacpu ht' hcode'),
        hnext _ (visible_cpu th rfl hhides rfl ht)⟩

/-- The handlers of the console change only its device, and release at most one static member. -/
theorem consoleHandler_cases {i : ConsoleInterrupt} {world world' : World} {released : List Sem}
    (h : consoleHandler i world = some (world', released)) :
    world' = { world with console := world'.console } ∧
      (released = [] ∨ ∃ x : StaticSem, released = [x.alone]) := by
  cases i with
  | readPoll ready =>
      unfold consoleHandler at h
      dsimp only at h
      split at h
      · cases h
        refine ⟨rfl, ?_⟩
        split
        · exact .inr ⟨.readAvail, rfl⟩
        · exact .inl rfl
      · cases h
  | writeDone =>
      unfold consoleHandler at h
      dsimp only at h
      split at h
      · cases h
        exact ⟨rfl, .inr ⟨.writeDone, rfl⟩⟩
      · cases h

theorem raises_alone (c' : ConsoleId) (x : StaticSem) :
    [x.alone].flatMap (raises c') = [.static x, .signal c' x] := by
  cases x <;> rfl

/-- The history of a handler. -/
def raisedEvents (c' : ConsoleId) (released : List Sem) : List PairEvent :=
  (released.flatMap (raises c')).map fun x => .released x none

theorem raised_count (c' : ConsoleId) (x z : StaticSem) :
    (raisedEvents c' [z.alone]).countP (isRaised c x) = if c' = c ∧ z = x then 1 else 0 := by
  have hsignal : isRaised c x (.released (.signal c' z) none) = decide (c' = c ∧ z = x) := rfl
  unfold raisedEvents
  rw [raises_alone, List.map_cons, List.map_singleton, List.countP_cons_of_neg Bool.false_ne_true,
    List.countP_singleton, hsignal]
  by_cases hboth : c' = c ∧ z = x
  · rw [if_pos hboth, if_pos (decide_eq_true hboth)]
  · rw [if_neg hboth, if_neg fun heq => hboth (of_decide_eq_true heq)]

theorem taken_raised (c' : ConsoleId) (released : List Sem) (x : StaticSem) :
    (raisedEvents c' released).countP (isTaken c x) = 0 := by
  apply List.countP_eq_zero.mpr
  intro e he
  obtain ⟨y, -, rfl⟩ := List.mem_map.mp he
  exact Bool.false_ne_true

/-- The values after a handler. -/
theorem releaseAll_raised (c' : ConsoleId) {released : List Sem}
    (hreleased : released = [] ∨ ∃ z : StaticSem, released = [z.alone]) (value : PairSem → Int) {y : PairSem}
    (hy : ∀ x, y ≠ .static x ∧ y ≠ .signal c' x) : releaseAll (released.flatMap (raises c')) value y = value y := by
  rcases hreleased with rfl | ⟨z, rfl⟩
  · rfl
  · rw [raises_alone, releaseAll, releaseAll, releaseAll, Function.update_of_ne (hy z).2,
      Function.update_of_ne (hy z).1]

theorem releaseAll_static (c' : ConsoleId) {released : List Sem}
    (hreleased : released = [] ∨ ∃ z : StaticSem, released = [z.alone]) (value : PairSem → Int) (x : StaticSem) :
    releaseAll (released.flatMap (raises c')) value (.static x) =
      value (.static x) + (raisedEvents c' released).countP (isRaised c' x) := by
  rcases hreleased with rfl | ⟨z, rfl⟩
  · exact (Int.add_zero _).symm
  · have hsignal : PairSem.static x ≠ .signal c' z := nofun
    rw [raised_count, raises_alone, releaseAll, releaseAll, releaseAll, Function.update_of_ne hsignal]
    rcases eq_or_ne x z with rfl | hne
    · rw [Function.update_self, if_pos ⟨rfl, rfl⟩]
      rfl
    · rw [Function.update_of_ne fun heq => hne (PairSem.static.inj heq), if_neg fun hboth => hne hboth.2.symm]
      exact (Int.add_zero _).symm

theorem releaseAll_alone (c' : ConsoleId) {released : List Sem}
    (hreleased : released = [] ∨ ∃ z : StaticSem, released = [z.alone]) (value : Sem → Int) :
    (∀ x : StaticSem, releaseAll released value x.alone =
        value x.alone + (raisedEvents c' released).countP (isRaised c' x)) ∧
      ∀ y, y = .readLock ∨ y = .writeLock → releaseAll released value y = value y := by
  rcases hreleased with rfl | ⟨z, rfl⟩
  · exact ⟨fun x => (Int.add_zero _).symm, fun y _ => rfl⟩
  · constructor
    · intro x
      rw [raised_count, releaseAll, releaseAll]
      rcases eq_or_ne x z with rfl | hne
      · rw [Function.update_self, if_pos ⟨rfl, rfl⟩]
        rfl
      · rw [Function.update_of_ne fun heq => hne (alone_injective heq), if_neg fun hboth => hne hboth.2.symm]
        exact (Int.add_zero _).symm
    · intro y hy
      exact Function.update_of_ne (alone_ne_lock z hy).symm _ _

theorem Alone.interrupt (h : Alone table c s a)
    (ha : (consoleSystem utf8 (input c) table).interleaving.Reachable a) (hhalted : s.halted = false)
    (hcpu : s.cpu = none) {c' : ConsoleId} {i : ConsoleInterrupt} {world : World} {released : List Sem}
    (hhandler : consoleHandler i ((onConsole table c').get s.shared) = some (world, released)) :
    ∃ a', (consoleSystem utf8 (input c) table).interleaving.Reachable a' ∧
      Alone table c { s with
        shared := (onConsole table c').put world s.shared
        value := releaseAll (released.flatMap (raises c')) s.value
        log := s.log ++ raisedEvents c' released } a' := by
  have hacpu : a.cpu = none := by
    rw [h.cpu]
    exact visibleCpu_none hcpu
  obtain ⟨hworld, hreleased⟩ := consoleHandler_cases hhandler
  have hlocks : ∀ x, x = .readLock ∨ x = .writeLock →
      releaseAll (released.flatMap (raises c')) s.value (member c x) = s.value (member c x) := by
    intro x hx
    refine releaseAll_raised c' hreleased s.value fun y => ?_
    rcases hx with rfl | rfl <;> exact ⟨nofun, nofun⟩
  have hgotOn : (raisedEvents c' released).filterMap (gotOn c) = [] := by
    apply List.filterMap_eq_nil_iff.mpr
    intro e he
    obtain ⟨y, -, rfl⟩ := List.mem_map.mp he
    rfl
  by_cases hc : c' = c
  · subst hc
    obtain ⟨hstatic, hlock⟩ := releaseAll_alone c' hreleased a.value
    have hhandler' : consoleHandler i a.shared = some (world, released) := by
      rw [h.shared]
      exact hhandler
    refine ⟨_, ha.step (.interrupt i world released (h.halted.trans hhalted) hacpu hhandler'),
      h.next (raisedEvents c' released) (released.map fun x => .released x none) h.thread ?_ ?_ ?_
        (hacpu.trans (visibleCpu_none hcpu).symm) h.halted rfl rfl ?_⟩
    · intro x hx
      exact (hlock x hx).trans ((h.locks x hx).trans (hlocks x hx).symm)
    · intro x
      rw [taken_raised]
      exact (hstatic x).trans (Int.sub_zero _).symm
    · change world = World.mk (Function.update s.shared c' world.console c') table fun _ => 0
      rw [Function.update_self]
      exact hworld
    · rw [hgotOn]
      apply List.filterMap_eq_nil_iff.mpr
      intro e he
      obtain ⟨y, -, rfl⟩ := List.mem_map.mp he
      rfl
  · refine ⟨a, ha, h.next (raisedEvents c' released) [] h.thread ?_ ?_ ?_ (hacpu.trans (visibleCpu_none hcpu).symm)
      h.halted rfl (List.append_nil _).symm hgotOn.symm⟩
    · intro x hx
      exact (h.locks x hx).trans (hlocks x hx).symm
    · intro x
      have hraised : (raisedEvents c' released).countP (isRaised c x) = 0 := by
        rcases hreleased with rfl | ⟨z, rfl⟩
        · rfl
        · rw [raised_count, if_neg fun hboth => hc hboth.1]
      rw [taken_raised, hraised]
      omega
    · rw [h.shared]
      change World.mk _ _ _ = World.mk (Function.update s.shared c' world.console c) table fun _ => 0
      rw [Function.update_of_ne (Ne.symm hc)]

end Steps

section Statics

variable {utf8 : Bool} {input : ConsoleId → List Byte} {s s' : PairState} {t : ThreadId} {c' : ConsoleId}
  {p : Program Sem World Unit Observation} {call : ConsoleCall}

theorem SignalsHeld.next (h : SignalsHeld s) (events : List PairEvent) (hlog : s'.log = s.log ++ events)
    (hvalue : ∀ x, s'.value (.static x) = s.value (.static x) +
      (events.countP (isRaised .synchconsole x) - events.countP (isTaken .synchconsole x) +
        (events.countP (isRaised .testSynchconsole x) - events.countP (isTaken .testSynchconsole x)))) :
    SignalsHeld s' := by
  intro x
  have hbefore := h x
  rw [hvalue x, hbefore, hlog, List.countP_append, List.countP_append, List.countP_append, List.countP_append]
  omega

theorem SignalsHeld.of_quiet (h : SignalsHeld s) (events : List PairEvent) (hlog : s'.log = s.log ++ events)
    (hvalue : ∀ x, s'.value (.static x) = s.value (.static x))
    (hevents : ∀ e ∈ events, ∀ c x, isRaised c x e = false ∧ isTaken c x e = false) : SignalsHeld s' := by
  have hraised : ∀ c x, events.countP (isRaised c x) = 0 := by
    intro c x
    apply List.countP_eq_zero.mpr
    intro e he htrue
    rw [(hevents e he c x).1] at htrue
    cases htrue
  have htaken : ∀ c x, events.countP (isTaken c x) = 0 := by
    intro c x
    apply List.countP_eq_zero.mpr
    intro e he htrue
    rw [(hevents e he c x).2] at htrue
    cases htrue
  refine h.next events hlog fun x => ?_
  rw [hvalue, hraised, hraised, htaken, htaken]
  omega

theorem SignalsHeld.of_event (h : SignalsHeld s) (event : PairEvent) (hlog : s'.log = s.log ++ [event])
    (hvalue : ∀ x, s'.value (.static x) = s.value (.static x))
    (hevent : ∀ c x, isRaised c x event = false ∧ isTaken c x event = false) : SignalsHeld s' := by
  refine h.of_quiet [event] hlog hvalue ?_
  intro e he
  cases List.mem_singleton.mp he
  exact hevent

theorem static_ne_lock {x : Sem} (y : StaticSem) (hx : x = .readLock ∨ x = .writeLock) :
    PairSem.static y ≠ member c' x := by
  rcases hx with rfl | rfl <;> nofun

/-- A pass of a static member or of a lock. -/
theorem SignalsHeld.pass (h : SignalsHeld s) {x : Sem} (hx : x ≠ .threadLock)
    (hlog : s'.log = s.log ++ [.passed (member c' x) t (some (c', call))])
    (hvalue : s'.value = Function.update s.value (member c' x) (s.value (member c' x) - 1)) : SignalsHeld s' := by
  rcases lock_or_static hx with hlock | ⟨z, rfl⟩
  · refine h.of_event _ hlog (fun y => ?_) fun c y => ?_
    · rw [hvalue, Function.update_of_ne (static_ne_lock y hlock)]
    · rcases hlock with rfl | rfl <;> exact ⟨rfl, rfl⟩
  · refine h.next _ hlog fun y => ?_
    rw [member_alone] at hvalue ⊢
    have hraised : ∀ c, isRaised c y (.passed (.static z) t (some (c', call))) = false := fun _ => rfl
    have htaken : ∀ c, isTaken c y (.passed (.static z) t (some (c', call))) = decide (c' = c ∧ z = y) :=
      fun _ => rfl
    rw [hvalue, List.countP_singleton, List.countP_singleton, List.countP_singleton, List.countP_singleton,
      hraised, hraised, htaken, htaken]
    rcases eq_or_ne y z with rfl | hne
    · rw [Function.update_self]
      cases c' <;> simp <;> omega
    · rw [Function.update_of_ne fun heq => hne (PairSem.static.inj heq)]
      simp [hne.symm]

/-- A step of a thread in a call. -/
theorem SignalsHeld.embedded (h : SignalsHeld s) (hp : Plain p ∨ Neutral p)
    (hruns : Runs (consolePair utf8 input table) s t ⟨some (p.embed (onConsole table c')), (), some (c', call)⟩
      (p.embed (onConsole table c')) s') : SignalsHeld s' := by
  cases p with
  | ret =>
      cases hruns with
      | call c₀ hcall => cases hcall
      | «return» c₀ hcall => exact h.of_event _ rfl (fun _ => rfl) fun _ _ => ⟨rfl, rfl⟩
  | semP x k =>
      have hx : x ≠ .threadLock := by
        rcases hp with hplain | hneutral
        · exact hplain.1
        · exact hneutral.elim
      cases hruns with
      | pass hvalue => exact h.pass hx rfl rfl
      | wait hvalue => exact h
  | semV x k =>
      have hx : x = .readLock ∨ x = .writeLock := by
        rcases hp with hplain | hneutral
        · exact hplain.1
        · exact hneutral.elim
      cases hruns
      refine h.of_event (.released (member c' x) (some t)) rfl (fun y => ?_) fun c y => ?_
      · exact Function.update_of_ne (static_ne_lock y hx) _ _
      · rcases hx with rfl | rfl <;> exact ⟨rfl, rfl⟩
  | tick k =>
      cases hruns
      exact h
  | yield k =>
      cases hruns
      exact h
  | act f k =>
      cases hruns
      refine h.of_quiet _ rfl (fun _ => rfl) fun e he => ?_
      obtain ⟨o, -, rfl⟩ := List.mem_map.mp he
      exact fun _ _ => ⟨rfl, rfl⟩
  | newThread k =>
      cases hruns with
      | create u garbage hnull hfresh => exact h.of_event _ rfl (fun _ => rfl) fun _ _ => ⟨rfl, rfl⟩
      | createFails => exact h
  | start u body k =>
      cases hruns
      exact h.of_event _ rfl (fun _ => rfl) fun _ _ => ⟨rfl, rfl⟩
  | finish =>
      cases hruns
      exact h
  | halt =>
      cases hruns
      exact h.of_event _ rfl (fun _ => rfl) fun _ _ => ⟨rfl, rfl⟩
  | abort => cases hruns

/-- The static members in a step of a thread. -/
theorem SignalsHeld.run (h : SignalsHeld s) {th : PairThread} {th' : ConsoleThread} (hview : View table c th th')
    {q : Program PairSem Consoles Unit (ConsoleId × Observation)} (hcode : th.code = some q)
    (hruns : Runs (consolePair utf8 input table) s t th q s') : SignalsHeld s' := by
  cases hview with
  | missing => cases hcode
  | idle =>
      cases hcode
      cases hruns with
      | call c₀ hcall => exact h.of_event _ rfl (fun _ => rfl) fun _ _ => ⟨rfl, rfl⟩
      | «return» c₀ hcall => cases hcall
  | own hp hvisible =>
      cases hcode
      exact h.embedded (hp.imp And.right id) hruns
  | other hc hp hhidden =>
      cases hcode
      exact h.embedded (.inl hp) hruns

/-- The static members after a handler. -/
theorem SignalsHeld.interrupt (h : SignalsHeld s) {i : ConsoleInterrupt} {world world' : World} {released : List Sem}
    (hhandler : consoleHandler i world = some (world', released)) (hlog : s'.log = s.log ++ raisedEvents c' released)
    (hvalue : s'.value = releaseAll (released.flatMap (raises c')) s.value) : SignalsHeld s' := by
  obtain ⟨-, hreleased⟩ := consoleHandler_cases hhandler
  refine h.next _ hlog fun x => ?_
  have hother : ∀ c, c ≠ c' → (raisedEvents c' released).countP (isRaised c x) = 0 := by
    intro c hc
    rcases hreleased with rfl | ⟨z, rfl⟩
    · rfl
    · rw [raised_count, if_neg fun hboth => hc hboth.1.symm]
  rw [hvalue, releaseAll_static c' hreleased, taken_raised, taken_raised]
  cases c' with
  | synchconsole =>
      rw [hother .testSynchconsole nofun]
      omega
  | testSynchconsole =>
      rw [hother .synchconsole nofun]
      omega

end Statics

section Isolation

variable {utf8 : Bool} {input : ConsoleId → List Byte} {s s' : PairState}

theorem initial_alone (c : ConsoleId) :
    Alone table c (initial (consolePair utf8 input table)) (initial (consoleSystem utf8 (input c) table)) := by
  refine ⟨?_, ?_, fun x => ?_, rfl, ?_, rfl, rfl⟩
  · exact update_rel (fun _ => .none) 1 (.some .idle)
  · intro x hx
    rcases hx with rfl | rfl <;> rfl
  · cases x <;> rfl
  · exact visible_cpu (t := 1) ⟨some .ret, (), none⟩ rfl rfl rfl rfl

/-- Each console might be alone. -/
theorem alone_of_ownSignals (h : (consolePair utf8 input table).interleaving.Reachable s) (hown : OwnSignals s.log) :
    SignalsHeld s ∧ ∀ c, ∃ a, (consoleSystem utf8 (input c) table).interleaving.Reachable a ∧ Alone table c s a := by
  induction h with
  | init hinit =>
      cases hinit
      exact ⟨fun x => rfl, fun c => ⟨_, .init rfl, initial_alone c⟩⟩
  | step hs hstep ih =>
      obtain ⟨more, hlog⟩ := hstep.log
      have hbefore := hown
      rw [hlog] at hbefore
      obtain ⟨hheld, halone⟩ := ih hbefore.of_append
      cases hstep with
      | take t th hhalted hcpu ht hcode =>
          refine ⟨hheld, fun c => ?_⟩
          obtain ⟨a, ha, h⟩ := halone c
          exact h.take ha hhalted hcpu ht hcode
      | run hhalted hcpu ht hcode hruns =>
          constructor
          · obtain ⟨a, -, h⟩ := halone .synchconsole
            obtain ⟨th', -, hview⟩ := h.view ht
            exact hheld.run hview hcode hruns
          · intro c
            obtain ⟨a, ha, h⟩ := halone c
            exact h.run ha hheld hown hhalted hcpu ht hcode hruns
      | interrupt i shared released hhalted hcpu hhandler =>
          obtain ⟨c', i⟩ := i
          obtain ⟨⟨world, signals⟩, hconsole, heq⟩ := Option.map_eq_some_iff.mp hhandler
          cases heq
          refine ⟨hheld.interrupt hconsole rfl rfl, fun c => ?_⟩
          obtain ⟨a, ha, h⟩ := halone c
          exact h.interrupt ha hhalted hcpu hconsole

end Isolation

section Kernel

theorem visible_of_taken {x : StaticSem} {e : PairEvent} (h : isTaken c x e = true) : Event.visible e = true := by
  cases e with
  | passed y t call => rfl
  | _ => cases h

theorem visible_of_raised {x : StaticSem} {e : PairEvent} (h : isRaised c x e = true) : Event.visible e = true := by
  cases e with
  | released y t => rfl
  | _ => cases h

theorem OwnSignals.visible {log : List PairEvent} (h : OwnSignals log) : OwnSignals (log.filter Event.visible) := by
  intro before event after hlog c x htaken
  obtain ⟨first, rest, rfl, rfl, hrest⟩ := List.filter_eq_append_iff.mp hlog
  obtain ⟨hidden, last, rfl, hhidden, -, -⟩ := List.filter_eq_cons_iff.mp hrest
  have hnil : hidden.filter Event.visible = [] := List.filter_eq_nil_iff.mpr hhidden
  have hlt := h (first ++ hidden) event last (List.append_assoc _ _ _).symm c x htaken
  rw [← countP_filter_of_imp (fun _ => visible_of_taken), ← countP_filter_of_imp (fun _ => visible_of_raised),
    List.filter_append, hnil, List.append_nil] at hlt
  exact hlt

theorem gotFrom_visible (c : ConsoleId) (log : List PairEvent) :
    gotFrom c (log.filter Event.visible) = gotFrom c log := by
  unfold gotFrom
  rw [List.filterMap_filter]
  apply List.filterMap_congr
  intro e _
  cases e <;> rfl

/-- One of two consoles in a state of the kernel, where `input` is its own input. -/
structure Undisturbed (utf8 : Bool) (input : List Byte) (table : ThreadTable) (c : ConsoleId)
    (s : Kernel PairSem (ConsoleId × ConsoleCall) Consoles Unit (ConsoleId × Observation)) : Prop where
  /-- The console could have returned these values without the other one. -/
  returned : ∃ a, (consoleSystem utf8 input table).interleaving.Reachable a ∧ gotValues a.log = gotFrom c s.log
  /-- In an 8-bit locale they are the values that it returns without the other one in any run, as far as both runs
  have come. -/
  sequence : utf8 = false → ∀ space a, (kernel (consoleSystem false input table) space).Reachable a →
    gotFrom c s.log <+: gotValues a.log ∨ gotValues a.log <+: gotFrom c s.log
  /-- When a call that writes is about to give up the write lock and return, the write has been completed. -/
  written : ∀ t th call, s.thread t = some th → th.call = some (c, call) → call.writes = true →
    th.kont.code = some (some (.semV (.writeLock c) .ret)) →
      (s.shared c).putBusy = false ∧ (s.shared c).writesPending = 0

/-- A call that is about to give up the write lock finds the device idle. -/
theorem OutputExclusive.released {utf8 : Bool} {a : ConsoleState} (h : OutputExclusive utf8 a) {t : ThreadId}
    {call : ConsoleCall} (ht : a.thread t = some ⟨some (.semV .writeLock .ret), (), some call⟩) :
    a.shared.console.putBusy = false ∧ a.shared.console.writesPending = 0 := by
  have hinside : ¬Outside outputRegion EnterOutput
      (⟨some (.semV .writeLock .ret), (), some call⟩ : ConsoleThread) := by
    intro hout
    rcases hout _ rfl with hfree | ⟨d, -, -, heq⟩
    · cases hfree.1
    · cases heq
  rcases h with ⟨-, hout⟩ | ⟨u, inner, hu, ⟨before, d, put, rest, hholds⟩, hout⟩
  · exact absurd (hout t _ ht) hinside
  · by_cases htu : t = u
    · subst htu
      rw [hu] at ht
      cases ht
      obtain ⟨p, hp, hwriting⟩ := hholds.code
      cases hp
      generalize hcode : Program.semV Sem.writeLock Program.ret = p at hwriting
      cases hwriting with
      | next device => exact ⟨device.busy, device.scheduled⟩
      | started device => cases hcode
      | finished device => cases hcode
    · exact absurd (hout t _ htu ht) hinside

/-- The thread that is about to give up the write lock of a console, where the console is alone. -/
theorem Alone.releasing {s : PairState} {a : ConsoleState} (h : Alone table c s a) {t : ThreadId} {call : ConsoleCall}
    (ht : s.thread t = some ⟨some (.semV (.writeLock c) .ret), (), some (c, call)⟩) :
    a.thread t = some ⟨some (.semV .writeLock .ret), (), some call⟩ := by
  obtain ⟨th', ht', hview⟩ := h.view ht
  rw [ht']
  generalize hth : (⟨some (.semV (.writeLock c) .ret), (), some (c, call)⟩ : PairThread) = th at hview
  cases hview with
  | missing => cases hth
  | idle => cases hth
  | @own c' p call' hp hvisible =>
      cases p with
      | semV x k =>
          cases x <;> cases k <;> cases hth
          rfl
      | _ => cases hth
  | other hc hp hhidden =>
      simp only [Interleaving.Thread.mk.injEq, Option.some.injEq, Prod.mk.injEq] at hth
      exact absurd hth.2.2.1.symm hc

theorem stream_extends {values : List Word} {input : List Byte} {n m : ℕ}
    (h : values <+: inputValues input ++ List.replicate n eof) (hle : n ≤ m) :
    values <+: inputValues input ++ List.replicate m eof := by
  obtain ⟨k, rfl⟩ := Nat.exists_eq_add_of_le hle
  rw [List.replicate_add, ← List.append_assoc]
  exact h.trans (List.prefix_append _ _)

/-- As long as the calls on each of two consoles pass the static members on signals of their own console only, the
consoles do not disturb each other. -/
theorem consoles_undisturbed {utf8 space : Bool} {input : ConsoleId → List Byte} {table : ThreadTable}
    {s : Kernel PairSem (ConsoleId × ConsoleCall) Consoles Unit (ConsoleId × Observation)}
    (h : (kernel (consolePair utf8 input table) space).Reachable s) (hown : OwnSignals s.log) (c : ConsoleId) :
    Undisturbed utf8 (input c) table c s := by
  have habstract := Kernel.reachable_abstraction (.inr inferInstance) h
  obtain ⟨-, halone⟩ := alone_of_ownSignals habstract hown.visible
  obtain ⟨a, ha, hrel⟩ := halone c
  have hgot : gotValues a.log = gotFrom c s.log := hrel.got.trans (gotFrom_visible c s.log)
  refine ⟨⟨a, ha, hgot⟩, ?_, ?_⟩
  · rintro rfl space' a' ha'
    have habstract' := Kernel.reachable_abstraction (.inr inferInstance) ha'
    obtain ⟨n, hfirst⟩ := got_stream ha
    obtain ⟨m, hsecond⟩ := got_stream habstract'
    have hgot' : gotValues a'.abstraction.log = gotValues a'.log := gotValues_filter (fun _ _ => rfl) a'.log
    rw [hgot] at hfirst
    rw [hgot'] at hsecond
    refine List.prefix_or_prefix_of_prefix (stream_extends hfirst (Nat.le_max_left n m)) ?_
    exact stream_extends hsecond (Nat.le_max_right n m)
  · intro t th call ht hcall hwrites hcode
    have hthread := Kernel.abstraction_code ht hcode
    rw [hcall] at hthread
    have hexclusive : OutputExclusive utf8 a := (output_section utf8 (input c) table).reachable
      (output_idle utf8 (input c) table) ha
    have hidle := hexclusive.released (hrel.releasing hthread)
    rw [hrel.shared] at hidle
    exact hidle

/-- One byte for each of two consoles. -/
def twoInputs : ConsoleId → List Byte
  | .synchconsole => [121]
  | .testSynchconsole => [120]

/-- A thread reads from one console and writes to the other, and is about to return from the second call. -/
def bothConsolesRun : List (Choice (ConsoleId × ConsoleCall) (ConsoleId × ConsoleInterrupt) Unit) :=
  [.call (.synchconsole, .getChar), .exec, .resume, .exec, .interrupt (.synchconsole, .readPoll true), .dispatch,
    .exec, .resume, .exec, .exec, .resume, .exec, .call (.testSynchconsole, .putChar 60), .exec, .resume, .exec,
    .exec, .interrupt (.testSynchconsole, .writeDone), .dispatch, .exec]

theorem consoles_undisturbed_both :
    ∃ s, Kernel.runChoices (consolePair false twoInputs (.new fun _ => 0)) bothConsolesRun
        (Kernel.initial (consolePair false twoInputs (.new fun _ => 0)) false) = some s ∧
      OwnSignals s.log ∧ gotFrom .synchconsole s.log = [121] ∧ (s.shared .testSynchconsole).output = [60] ∧
      ∀ c, Undisturbed false (twoInputs c) (.new fun _ => 0) c s := by
  obtain ⟨s, hrun, hown, hgot, houtput⟩ : ∃ s,
      Kernel.runChoices (consolePair false twoInputs (.new fun _ => 0)) bothConsolesRun
        (Kernel.initial (consolePair false twoInputs (.new fun _ => 0)) false) = some s ∧
      OwnSignals s.log ∧ gotFrom .synchconsole s.log = [121] ∧ (s.shared .testSynchconsole).output = [60] :=
    ⟨_, rfl, by decide, rfl, rfl⟩
  have hinit : (kernel (consolePair false twoInputs (.new fun _ => 0)) false).Reachable (Kernel.initial _ false) :=
    .init rfl
  exact ⟨s, hrun, hown, hgot, houtput, consoles_undisturbed (Kernel.reachable_runChoices hinit hrun) hown⟩

/-- A thread waits for a character of one console, and the poll of the other console wakes it. -/
def otherPollRun : List (Choice (ConsoleId × ConsoleCall) (ConsoleId × ConsoleInterrupt) Unit) :=
  [.call (.synchconsole, .getChar), .exec, .resume, .exec, .interrupt (.testSynchconsole, .readPoll true), .dispatch,
    .exec, .resume, .exec]

/-- It returns the end of file, although its console has a byte to deliver. -/
theorem consoles_disturbed : ¬∀ (utf8 space : Bool) (input : ConsoleId → List Byte) (table : ThreadTable)
    (s : Kernel PairSem (ConsoleId × ConsoleCall) Consoles Unit (ConsoleId × Observation)),
    (kernel (consolePair utf8 input table) space).Reachable s → ∀ c, Undisturbed utf8 (input c) table c s := by
  intro hclaim
  obtain ⟨s, hrun, hgot⟩ : ∃ s,
      Kernel.runChoices (consolePair false twoInputs (.new fun _ => 0)) otherPollRun
        (Kernel.initial (consolePair false twoInputs (.new fun _ => 0)) false) = some s ∧
      gotFrom .synchconsole s.log = [eof] := ⟨_, rfl, rfl⟩
  have hinit : (kernel (consolePair false twoInputs (.new fun _ => 0)) false).Reachable (Kernel.initial _ false) :=
    .init rfl
  have hreachable := Kernel.reachable_runChoices hinit hrun
  obtain ⟨a, ha, hsame⟩ := (hclaim false false twoInputs _ s hreachable .synchconsole).returned
  obtain ⟨n, hstream⟩ := got_stream ha
  rw [hsame, hgot] at hstream
  have hfirst : eof = 121 := (List.cons_prefix_cons.mp hstream).1
  exact absurd hfirst (by decide)

end Kernel

end Nachos

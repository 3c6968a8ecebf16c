import Nachos.ConsolePair

/-! One of two consoles on its own. As long as the calls on each console pass the static members on signals of this
console only, the console might be alone: the threads that are in a call on the other one could as well do nothing. -/

namespace Nachos

open Interleaving

abbrev PairThread : Type :=
  Interleaving.Thread PairSem (ConsoleId × ConsoleCall) Consoles Unit (ConsoleId × Observation)

abbrev ConsoleThread : Type := Interleaving.Thread Sem ConsoleCall World Unit Observation

section Counting

variable {before log : List PairEvent} {event : PairEvent} {c : ConsoleId} {x : StaticSem}

theorem OwnSignals.of_append (h : OwnSignals (before ++ log)) : OwnSignals before := by
  intro first event after hlog
  refine h first event (after ++ log) ?_
  rw [hlog, List.append_assoc, List.cons_append]

theorem OwnSignals.last (h : OwnSignals (log ++ [event])) (htaken : isTaken c x event = true) :
    log.countP (isTaken c x) < log.countP (isRaised c x) :=
  h log event [] rfl c x htaken

theorem OwnSignals.taken_le (h : OwnSignals log) (c : ConsoleId) (x : StaticSem) :
    log.countP (isTaken c x) ≤ log.countP (isRaised c x) := by
  induction log using List.reverseRecOn with
  | nil => exact Nat.le_refl _
  | append_singleton log event ih =>
      have hbefore := ih h.of_append
      rw [List.countP_append, List.countP_append, List.countP_singleton, List.countP_singleton]
      split
      next htaken =>
        have hlt := h.last htaken
        omega
      · omega

end Counting

section Programs

/-- A console's own code: it uses the console and its locks, and creates no thread. -/
def Plain : Program Sem World Unit Observation → Prop
  | .ret => True
  | .abort => True
  | .semP x k => x ≠ .threadLock ∧ Plain k
  | .semV x k => (x = .readLock ∨ x = .writeLock) ∧ Plain k
  | .tick k => Plain k
  | .yield k => Plain k
  | .act f k =>
      (∀ t world priv, (f t world priv).1.table = world.table ∧ (f t world priv).1.memory = world.memory) ∧
        ∀ t world priv, Plain (k t world priv)
  | _ => False

/-- Code that does nothing to a console. -/
def Neutral : Program Sem World Unit Observation → Prop
  | .ret => True
  | .tick k => Neutral k
  | .newThread k => ∀ u, Neutral (k u)
  | .start _ body k => body = .ret ∧ Neutral k
  | .finish => True
  | _ => False

def ConsoleCall.usesConsole : ConsoleCall → Bool
  | .compute | .fork | .exit => false
  | _ => true

variable {k : Program Sem World Unit Observation}

theorem plain_consolePutChar (hk : Plain k) (ch : Word) : Plain (consolePutChar k ch) := by
  refine ⟨fun t world priv => ?_, fun t world priv => ?_⟩
  · dsimp only
    split
    · exact ⟨rfl, rfl⟩
    · exact ⟨rfl, rfl⟩
  · dsimp only
    split
    · split
      · trivial
      · exact hk
    · split
      · trivial
      · exact hk

theorem plain_putStringLoop (hk : Plain k) (s : List Byte) : Plain (putStringLoop k s) := by
  induction s with
  | nil => exact ⟨Or.inr rfl, hk⟩
  | cons ch rest ih =>
      unfold putStringLoop
      split
      · exact ⟨Or.inr rfl, hk⟩
      · have hnext : Plain (.semP .writeDone <| putStringLoop k rest) := ⟨by decide, ih⟩
        exact plain_consolePutChar hnext _

theorem plain_consoleGetChar {kc : Word → Program Sem World Unit Observation} (hkc : ∀ v, Plain (kc v)) :
    Plain (consoleGetChar kc) :=
  ⟨fun _ _ _ => ⟨rfl, rfl⟩, fun _ _ _ => hkc _⟩

theorem plain_getStringLoop (n : Nat) (stored : List Byte) : Plain (getStringLoop (fun _ => .ret) n stored) := by
  induction n generalizing stored with
  | zero => exact ⟨Or.inl rfl, trivial⟩
  | succ n ih =>
      cases n with
      | zero => exact ⟨Or.inl rfl, trivial⟩
      | succ n =>
          refine ⟨by decide, plain_consoleGetChar fun v => ?_⟩
          dsimp only
          split
          · exact ⟨Or.inl rfl, trivial⟩
          · exact ih _

/-- The calls are of the two kinds. -/
theorem menu_plain (utf8 : Bool) (input : List Byte) (table : ThreadTable) {call : ConsoleCall}
    (h : call.usesConsole = true) : Plain ((consoleSystem utf8 input table).menu call) := by
  have hret : Plain .ret := trivial
  have hput : Plain (.semP .writeDone <| .semV .writeLock .ret) := ⟨by decide, Or.inr rfl, hret⟩
  cases call with
  | putChar ch => exact ⟨by decide, plain_consolePutChar hput ch⟩
  | putString s => exact ⟨by decide, plain_putStringLoop hret s⟩
  | getChar => exact ⟨by decide, by decide, plain_consoleGetChar fun _ => ⟨Or.inl rfl, trivial⟩⟩
  | getString n => exact ⟨by decide, plain_getStringLoop _ _⟩
  | compute => cases h
  | fork => cases h
  | exit => cases h

theorem menu_neutral (utf8 : Bool) (input : List Byte) (table : ThreadTable) {call : ConsoleCall}
    (h : call.usesConsole = false) : Neutral ((consoleSystem utf8 input table).menu call) := by
  cases call with
  | compute => trivial
  | fork =>
      intro u
      cases u with
      | none => trivial
      | some t => exact ⟨rfl, trivial⟩
  | exit => trivial
  | putChar ch => cases h
  | putString s => cases h
  | getChar => cases h
  | getString n => cases h

end Programs

section Projection

variable {table : ThreadTable} {c : ConsoleId}

/-- The thread is in a call that uses another console. -/
def hides (c : ConsoleId) (th : PairThread) : Bool :=
  match th.call with
  | some (c', call) => decide (c' ≠ c) && call.usesConsole
  | none => false

/-- A thread as it is where the console `c` is alone: it does nothing during its calls on another console. -/
inductive View (table : ThreadTable) (c : ConsoleId) : PairThread → ConsoleThread → Prop where
  | missing : View table c ⟨none, (), none⟩ ⟨none, (), none⟩
  | idle : View table c ⟨some .ret, (), none⟩ ⟨some .ret, (), none⟩
  | own {c' : ConsoleId} {p : Program Sem World Unit Observation} {call : ConsoleCall}
      (hp : c' = c ∧ Plain p ∨ Neutral p)
      (hvisible : hides c ⟨some (p.embed (onConsole table c')), (), some (c', call)⟩ = false) :
      View table c ⟨some (p.embed (onConsole table c')), (), some (c', call)⟩ ⟨some p, (), some call⟩
  | other {c' : ConsoleId} {p : Program Sem World Unit Observation} {call : ConsoleCall} (hc : c' ≠ c)
      (hp : Plain p) (hhidden : hides c ⟨some (p.embed (onConsole table c')), (), some (c', call)⟩ = true) :
      View table c ⟨some (p.embed (onConsole table c')), (), some (c', call)⟩ ⟨some .ret, (), some .compute⟩

/-- The thread that has the processor, unless it is in a call on another console. -/
def visibleCpu (c : ConsoleId) (s : PairState) : Option ThreadId :=
  s.cpu.filter fun t => !(s.thread t).any (hides c)

/-- The semaphore of the console alone. -/
def StaticSem.alone : StaticSem → Sem
  | .readAvail => .readAvail
  | .writeDone => .writeDone

/-- The console `c` of the first state is as in the second one, in which it is alone. -/
structure Alone (table : ThreadTable) (c : ConsoleId) (s : PairState) (a : ConsoleState) : Prop where
  thread : ∀ t, Option.Rel (View table c) (s.thread t) (a.thread t)
  locks : ∀ x, x = .readLock ∨ x = .writeLock → a.value x = s.value (member c x)
  signals : ∀ x : StaticSem, a.value x.alone = s.log.countP (isRaised c x) - s.log.countP (isTaken c x)
  shared : a.shared = (onConsole table c).get s.shared
  cpu : a.cpu = visibleCpu c s
  halted : a.halted = s.halted
  got : gotValues a.log = gotFrom c s.log

/-- The static members hold the signals of both consoles that have not been passed. -/
def SignalsHeld (s : PairState) : Prop :=
  ∀ x, s.value (.static x) =
    s.log.countP (isRaised .synchconsole x) - s.log.countP (isTaken .synchconsole x) +
      (s.log.countP (isRaised .testSynchconsole x) - s.log.countP (isTaken .testSynchconsole x))

section Relation

variable {s s' : PairState} {a a' : ConsoleState} {t : ThreadId} {th : PairThread}

theorem update_rel {f : ThreadId → Option PairThread} {g : ThreadId → Option ConsoleThread}
    (h : ∀ u, Option.Rel (View table c) (f u) (g u)) (t : ThreadId) {x : Option PairThread}
    {y : Option ConsoleThread} (hx : Option.Rel (View table c) x y) (u : ThreadId) :
    Option.Rel (View table c) (Function.update f t x u) (Function.update g t y u) := by
  rcases eq_or_ne u t with rfl | hu
  · rw [Function.update_self, Function.update_self]
    exact hx
  · rw [Function.update_of_ne hu, Function.update_of_ne hu]
    exact h u

theorem Alone.view (h : Alone table c s a) (ht : s.thread t = some th) :
    ∃ th', a.thread t = some th' ∧ View table c th th' := by
  have hrel := h.thread t
  rw [ht] at hrel
  cases hrel' : a.thread t with
  | none =>
      rw [hrel'] at hrel
      cases hrel
  | some th' =>
      rw [hrel'] at hrel
      cases hrel with
      | some hview => exact ⟨th', rfl, hview⟩

theorem visibleCpu_none (h : s.cpu = none) : visibleCpu c s = none := by
  unfold visibleCpu
  rw [h]
  rfl

theorem visibleCpu_some (h : s.cpu = some t) (ht : s.thread t = some th) :
    visibleCpu c s = if hides c th then none else some t := by
  unfold visibleCpu
  rw [h, Option.filter_some, ht, Option.any_some]
  cases hides c th <;> rfl

theorem visible_cpu {cpu : Option ThreadId} (th : PairThread) (hcpu' : cpu = some t) (hvisible : hides c th = false)
    (hcpu : s.cpu = some t) (ht : s.thread t = some th) : cpu = visibleCpu c s := by
  rw [visibleCpu_some hcpu ht, hvisible, hcpu']
  rfl

theorem hidden_cpu {cpu : Option ThreadId} (hcpu' : cpu = none) (hhidden : hides c th = true)
    (hcpu : s.cpu = some t) (ht : s.thread t = some th) : cpu = visibleCpu c s := by
  rw [visibleCpu_some hcpu ht, hhidden, hcpu']
  rfl

theorem member_injective {x y : Sem} (h : member c x = member c y) : x = y := by
  cases x <;> cases y <;> first | rfl | cases h

/-- The relation after a step, from what the step adds to the histories. -/
theorem Alone.next (h : Alone table c s a) (events : List PairEvent)
    (events' : List (Event Sem ConsoleCall Observation))
    (hthread : ∀ t, Option.Rel (View table c) (s'.thread t) (a'.thread t))
    (hlocks : ∀ x, x = .readLock ∨ x = .writeLock → a'.value x = s'.value (member c x))
    (hsignals : ∀ x : StaticSem, a'.value x.alone =
      a.value x.alone + events.countP (isRaised c x) - events.countP (isTaken c x))
    (hshared : a'.shared = (onConsole table c).get s'.shared) (hcpu : a'.cpu = visibleCpu c s')
    (hhalted : a'.halted = s'.halted) (hlog : s'.log = s.log ++ events) (hlog' : a'.log = a.log ++ events')
    (hgot : events'.filterMap gotValue = events.filterMap (gotOn c)) : Alone table c s' a' := by
  refine ⟨hthread, hlocks, fun x => ?_, hshared, hcpu, hhalted, ?_⟩
  · have hbefore := h.signals x
    rw [hsignals x, hbefore, hlog, List.countP_append, List.countP_append]
    omega
  · have hbefore := h.got
    unfold gotValues gotFrom at hbefore ⊢
    rw [hlog, hlog', List.filterMap_append, List.filterMap_append, hbefore, hgot]

end Relation

section Other

variable {utf8 : Bool} {input : ConsoleId → List Byte} {s s' : PairState} {a : ConsoleState} {t : ThreadId}
  {c' : ConsoleId} {p : Program Sem World Unit Observation} {call : ConsoleCall}

/-- A thread in a call on another console, where the console is alone. -/
def resting : ConsoleThread := ⟨some .ret, (), some .compute⟩

/-- A step in a call on another console that does not return from it. -/
theorem Alone.other_next (h : Alone table c s a) (events : List PairEvent) (hc : c' ≠ c) (hp : Plain p)
    (hhidden : hides c ⟨some (p.embed (onConsole table c')), (), some (c', call)⟩ = true)
    (hrest : a.thread t = some resting)
    (hthread : s'.thread =
      Function.update s.thread t (some ⟨some (p.embed (onConsole table c')), (), some (c', call)⟩))
    (hacpu : a.cpu = none) (hcpu : s'.cpu = none ∨ s'.cpu = some t)
    (hlocks : ∀ x, x = .readLock ∨ x = .writeLock → s'.value (member c x) = s.value (member c x))
    (hshared : s'.shared c = s.shared c) (hhalted : s'.halted = s.halted) (hlog : s'.log = s.log ++ events)
    (hevents : ∀ e ∈ events, (∀ x, isRaised c x e = false ∧ isTaken c x e = false) ∧ gotOn c e = none) :
    Alone table c s' a := by
  have hcount : ∀ f : PairEvent → Bool, (∀ e ∈ events, f e = false) → events.countP f = 0 := by
    intro f hf
    apply List.countP_eq_zero.mpr
    intro e he htrue
    rw [hf e he] at htrue
    cases htrue
  refine h.next events [] ?_ ?_ ?_ ?_ ?_ ?_ hlog (List.append_nil _).symm ?_
  · have hsame : a.thread = Function.update a.thread t (some resting) := by
      rw [← hrest]
      exact (Function.update_eq_self t a.thread).symm
    rw [hthread, hsame]
    exact update_rel h.thread t (.some (.other hc hp hhidden))
  · intro x hx
    rw [hlocks x hx]
    exact h.locks x hx
  · intro x
    rw [hcount _ fun e he => ((hevents e he).1 x).1, hcount _ fun e he => ((hevents e he).1 x).2]
    omega
  · rw [h.shared]
    unfold onConsole
    dsimp only
    rw [hshared]
  · rw [hacpu]
    rcases hcpu with hnone | hsome
    · exact (visibleCpu_none hnone).symm
    · rw [visibleCpu_some hsome (by rw [hthread, Function.update_self]), if_pos hhidden]
  · rw [hhalted]
    exact h.halted
  · rw [List.filterMap_nil]
    symm
    apply List.filterMap_eq_nil_iff.mpr
    intro e he
    exact (hevents e he).2

theorem member_lock_ne {x y : Sem} (hc : c' ≠ c) (hy : y = .readLock ∨ y = .writeLock) (hx : x ≠ .threadLock) :
    member c y ≠ member c' x := by
  rcases hy with rfl | rfl
  · cases x with
    | readLock => exact fun h => hc (PairSem.readLock.inj h).symm
    | _ => nofun
  · cases x with
    | writeLock => exact fun h => hc (PairSem.writeLock.inj h).symm
    | _ => nofun

/-- A step of a thread in a call on another console. -/
theorem Alone.other_run (h : Alone table c s a)
    (ha : (consoleSystem utf8 (input c) table).interleaving.Reachable a) (hhalted : s.halted = false)
    (hcpu : s.cpu = some t) (hc : c' ≠ c) (hp : Plain p)
    (hhidden : hides c ⟨some (p.embed (onConsole table c')), (), some (c', call)⟩ = true)
    (ht : s.thread t = some ⟨some (p.embed (onConsole table c')), (), some (c', call)⟩)
    (hrest : a.thread t = some resting)
    (hruns : Runs (consolePair utf8 input table) s t ⟨some (p.embed (onConsole table c')), (), some (c', call)⟩
      (p.embed (onConsole table c')) s') :
    ∃ a', (consoleSystem utf8 (input c) table).interleaving.Reachable a' ∧ Alone table c s' a' := by
  have hacpu : a.cpu = none := by
    rw [h.cpu, visibleCpu_some hcpu ht, if_pos hhidden]
  have hahalted : a.halted = false := h.halted.trans hhalted
  have hne : decide (c' = c) = false := decide_eq_false hc
  cases p with
  | ret =>
      cases hruns with
      | call c₀ hcall => cases hcall
      | «return» c₀ hcall =>
          cases hcall
          -- Where the console is alone, the thread takes the processor only now.
          have htake := ha.step (.take t resting hahalted hacpu hrest nofun)
          have hreturn := htake.step (.run hahalted rfl hrest rfl (.return .compute rfl))
          refine ⟨_, hreturn, h.next [.returned t (c', call)] [.returned t .compute] ?_ h.locks ?_ h.shared ?_ h.halted
            rfl rfl rfl⟩
          · exact update_rel h.thread t (.some .idle)
          · intro x
            change a.value x.alone = a.value x.alone + 0 - 0
            omega
          · refine visible_cpu ⟨some .ret, (), none⟩ rfl rfl ?_ ?_
            · exact hcpu
            · exact Function.update_self t _ s.thread
  | abort => cases hruns
  | semP x k =>
      cases hruns with
      | pass hvalue =>
          obtain ⟨hx, hk⟩ := hp
          refine ⟨a, ha, h.other_next [.passed (member c' x) t (some (c', call))] hc hk hhidden hrest rfl hacpu
            (.inl rfl) ?_ rfl rfl rfl ?_⟩
          · intro y hy
            exact Function.update_of_ne (member_lock_ne hc hy hx) _ _
          · intro e he
            cases List.mem_singleton.mp he
            refine ⟨fun y => ⟨rfl, ?_⟩, rfl⟩
            cases x <;> first | rfl | exact decide_eq_false fun hboth => hc hboth.1
      | wait hvalue =>
          refine ⟨a, ha, h.other_next [] hc hp hhidden hrest ?_ hacpu (.inl rfl) (fun _ _ => rfl) rfl rfl
            (List.append_nil _).symm (fun e he => by cases he)⟩
          rw [← ht]
          exact (Function.update_eq_self t s.thread).symm
  | semV x k =>
      obtain ⟨hx, hk⟩ := hp
      cases hruns
      refine ⟨a, ha, h.other_next [.released (member c' x) (some t)] hc hk hhidden hrest rfl hacpu (.inl rfl) ?_ rfl
        rfl rfl ?_⟩
      · intro y hy
        refine Function.update_of_ne (member_lock_ne hc hy ?_) _ _
        rcases hx with rfl | rfl <;> decide
      · intro e he
        cases List.mem_singleton.mp he
        rcases hx with rfl | rfl
        · exact ⟨fun y => ⟨rfl, rfl⟩, rfl⟩
        · exact ⟨fun y => ⟨rfl, rfl⟩, rfl⟩
  | tick k =>
      cases hruns
      have hk : Plain k := hp
      exact ⟨a, ha, h.other_next [] hc hk hhidden hrest rfl hacpu (.inl rfl) (fun _ _ => rfl) rfl rfl
        (List.append_nil _).symm (fun e he => by cases he)⟩
  | yield k =>
      cases hruns
      have hk : Plain k := hp
      exact ⟨a, ha, h.other_next [] hc hk hhidden hrest rfl hacpu (.inl rfl) (fun _ _ => rfl) rfl rfl
        (List.append_nil _).symm (fun e he => by cases he)⟩
  | act f k =>
      cases hruns
      refine ⟨a, ha, h.other_next _ hc (hp.2 _ _ _) hhidden hrest rfl hacpu (.inr hcpu) (fun _ _ => rfl) ?_ rfl rfl ?_⟩
      · exact Function.update_of_ne hc.symm _ _
      · intro e he
        obtain ⟨o, ho, rfl⟩ := List.mem_map.mp he
        obtain ⟨o', -, rfl⟩ := List.mem_map.mp ho
        refine ⟨fun y => ⟨rfl, rfl⟩, ?_⟩
        cases o' with
        | got v => exact if_neg hc
        | _ => rfl
  | newThread k => exact hp.elim
  | start u body k => exact hp.elim
  | finish => exact hp.elim
  | halt => exact hp.elim

end Other

section Own

variable {utf8 : Bool} {input : ConsoleId → List Byte} {s s' : PairState} {a a' : ConsoleState} {t : ThreadId}
  {c' : ConsoleId} {p : Program Sem World Unit Observation} {call : ConsoleCall}

theorem member_alone (x : StaticSem) : member c x.alone = .static x := by
  cases x <;> rfl

theorem lock_or_static {x : Sem} (hx : x ≠ .threadLock) :
    (x = .readLock ∨ x = .writeLock) ∨ ∃ y : StaticSem, x = y.alone := by
  cases x with
  | readAvail => exact .inr ⟨.readAvail, rfl⟩
  | writeDone => exact .inr ⟨.writeDone, rfl⟩
  | readLock => exact .inl (.inl rfl)
  | writeLock => exact .inl (.inr rfl)
  | threadLock => exact absurd rfl hx

theorem alone_ne_lock {x : Sem} (y : StaticSem) (hx : x = .readLock ∨ x = .writeLock) : y.alone ≠ x := by
  rcases hx with rfl | rfl <;> cases y <;> nofun

theorem alone_injective {x y : StaticSem} (h : x.alone = y.alone) : x = y := by
  cases x <;> cases y <;> first | rfl | cases h

/-- What a pass changes in the static members. -/
theorem passed_signals {x : Sem} (hx : x ≠ .threadLock) (value : Sem → Int) (y : StaticSem) :
    Function.update value x (value x - 1) y.alone = value y.alone +
      ([.passed (member c x) t (some (c, call))] : List PairEvent).countP (isRaised c y) -
      ([.passed (member c x) t (some (c, call))] : List PairEvent).countP (isTaken c y) := by
  have hraised : isRaised c y (.passed (member c x) t (some (c, call))) = false := rfl
  rw [List.countP_singleton, List.countP_singleton, hraised, if_neg Bool.false_ne_true]
  rcases lock_or_static hx with hlock | ⟨z, rfl⟩
  · rw [Function.update_of_ne (alone_ne_lock y hlock)]
    have htaken : isTaken c y (.passed (member c x) t (some (c, call))) = false := by
      rcases hlock with rfl | rfl <;> rfl
    rw [htaken, if_neg Bool.false_ne_true]
    omega
  · rw [member_alone]
    have htaken : isTaken c y (.passed (.static z) t (some (c, call))) = decide (c = c ∧ z = y) := rfl
    rw [htaken]
    rcases eq_or_ne y z with rfl | hne
    · rw [Function.update_self, if_pos (decide_eq_true ⟨rfl, rfl⟩)]
      omega
    · rw [Function.update_of_ne fun heq => hne (alone_injective heq),
        if_neg fun heq => hne (of_decide_eq_true heq).2.symm]
      omega

/-- A step of a visible thread that goes on in its call. -/
theorem Alone.own_next (h : Alone table c s a) (events : List PairEvent)
    (events' : List (Event Sem ConsoleCall Observation)) (hp : c' = c ∧ Plain p ∨ Neutral p)
    (hvisible : hides c ⟨some (p.embed (onConsole table c')), (), some (c', call)⟩ = false)
    (hthread : s'.thread =
      Function.update s.thread t (some ⟨some (p.embed (onConsole table c')), (), some (c', call)⟩))
    (hthread' : a'.thread = Function.update a.thread t (some ⟨some p, (), some call⟩))
    (hlocks : ∀ x, x = .readLock ∨ x = .writeLock → a'.value x = s'.value (member c x))
    (hsignals : ∀ x : StaticSem, a'.value x.alone =
      a.value x.alone + events.countP (isRaised c x) - events.countP (isTaken c x))
    (hshared : a'.shared = (onConsole table c).get s'.shared) (hcpu : s'.cpu = none ∨ s'.cpu = some t)
    (hcpu' : a'.cpu = s'.cpu) (hhalted : a'.halted = s'.halted) (hlog : s'.log = s.log ++ events)
    (hlog' : a'.log = a.log ++ events') (hgot : events'.filterMap gotValue = events.filterMap (gotOn c)) :
    Alone table c s' a' := by
  refine h.next events events' ?_ hlocks hsignals hshared ?_ hhalted hlog hlog' hgot
  · rw [hthread, hthread']
    exact update_rel h.thread t (.some (.own hp hvisible))
  · rw [hcpu']
    rcases hcpu with hnone | hsome
    · rw [visibleCpu_none hnone, hnone]
    · have hself : s'.thread t = some ⟨some (p.embed (onConsole table c')), (), some (c', call)⟩ := by
        rw [hthread, Function.update_self]
      rw [visibleCpu_some hsome hself, hvisible, hsome]
      rfl

/-- A console alone can pass what its call passes. -/
theorem Alone.pass_value (h : Alone table c s a) {x : Sem} (hx : x ≠ .threadLock)
    (hvalue : s.value (member c x) ≠ 0)
    (hown : OwnSignals (s.log ++ [.passed (member c x) t (some (c, call))])) : a.value x ≠ 0 := by
  rcases lock_or_static hx with hlock | ⟨y, rfl⟩
  · rw [h.locks x hlock]
    exact hvalue
  · have htaken : isTaken c y (.passed (member c y.alone) t (some (c, call))) = true := by
      rw [member_alone]
      exact decide_eq_true ⟨rfl, rfl⟩
    have hlt := hown.last htaken
    have hsignals := h.signals y
    omega

/-- It waits where its call waits. -/
theorem Alone.wait_value (h : Alone table c s a) (hheld : SignalsHeld s) (hown : OwnSignals s.log) {x : Sem}
    (hx : x ≠ .threadLock) (hvalue : s.value (member c x) = 0) : a.value x = 0 := by
  rcases lock_or_static hx with hlock | ⟨y, rfl⟩
  · rw [h.locks x hlock]
    exact hvalue
  · have hsum := hheld y
    rw [← member_alone (c := c), hvalue] at hsum
    have hsignals := h.signals y
    have hfirst := hown.taken_le .synchconsole y
    have hsecond := hown.taken_le .testSynchconsole y
    cases c with
    | synchconsole => omega
    | testSynchconsole => omega

theorem Alone.locks_update (h : Alone table c s a) (x : Sem) {v v' : Int}
    (hv : x = .readLock ∨ x = .writeLock → v = v') (y : Sem) (hy : y = .readLock ∨ y = .writeLock) :
    Function.update a.value x v y = Function.update s.value (member c x) v' (member c y) := by
  rcases eq_or_ne y x with rfl | hne
  · rw [Function.update_self, Function.update_self]
    exact hv hy
  · rw [Function.update_of_ne hne, Function.update_of_ne fun heq => hne (member_injective heq)]
    exact h.locks y hy

theorem got_observed (t : ThreadId) (observations : List Observation) :
    (observations.map (.observed t) : List (Event Sem ConsoleCall Observation)).filterMap gotValue =
      ((observations.map (c, ·)).map (.observed t) : List PairEvent).filterMap (gotOn c) := by
  rw [List.filterMap_map, List.map_map, List.filterMap_map]
  apply List.filterMap_congr
  intro o _
  cases o with
  | got v => exact (if_pos rfl).symm
  | _ => rfl

theorem count_observed {f : PairEvent → Bool} (hf : ∀ t o, f (.observed t o) = false) (t : ThreadId)
    (observations : List (ConsoleId × Observation)) : (observations.map (.observed t)).countP f = 0 := by
  apply List.countP_eq_zero.mpr
  intro e he htrue
  obtain ⟨o, -, rfl⟩ := List.mem_map.mp he
  rw [hf] at htrue
  cases htrue

/-- The console's own operations. -/
theorem Alone.plain_run (h : Alone table c s a)
    (ha : (consoleSystem utf8 (input c) table).interleaving.Reachable a) (hheld : SignalsHeld s)
    (hown : OwnSignals s'.log) (hhalted : s.halted = false) (hcpu : s.cpu = some t) (hp : Plain p)
    (hvisible : hides c ⟨some (p.embed (onConsole table c)), (), some (c, call)⟩ = false)
    (hret : p ≠ .ret)
    (ht : s.thread t = some ⟨some (p.embed (onConsole table c)), (), some (c, call)⟩)
    (ht' : a.thread t = some ⟨some p, (), some call⟩)
    (hruns : Runs (consolePair utf8 input table) s t ⟨some (p.embed (onConsole table c)), (), some (c, call)⟩
      (p.embed (onConsole table c)) s') :
    ∃ a', (consoleSystem utf8 (input c) table).interleaving.Reachable a' ∧ Alone table c s' a' := by
  have hacpu : a.cpu = some t := by
    rw [h.cpu, visibleCpu_some hcpu ht, hvisible]
    rfl
  have hahalted : a.halted = false := h.halted.trans hhalted
  have hrun : ∀ {a'}, Runs (consoleSystem utf8 (input c) table) a t ⟨some p, (), some call⟩ p a' →
      (consoleSystem utf8 (input c) table).interleaving.Reachable a' := fun hruns' =>
    ha.step (.run hahalted hacpu ht' rfl hruns')
  have hzero : ∀ x : StaticSem, a.value x.alone = a.value x.alone + ((0 : ℕ) : Int) - ((0 : ℕ) : Int) := by
    intro x
    omega
  cases p with
  | ret => exact absurd rfl hret
  | abort => cases hruns
  | semP x k =>
      cases hruns with
      | pass hvalue =>
          obtain ⟨hx, hk⟩ := hp
          have havalue := h.pass_value hx hvalue hown
          refine ⟨_, hrun (.pass havalue), h.own_next [.passed (member c x) t (some (c, call))]
            [.passed x t (some call)] (.inl ⟨rfl, hk⟩) hvisible rfl rfl ?_ ?_ h.shared (.inl rfl) rfl h.halted
            rfl rfl rfl⟩
          · exact h.locks_update x fun hlock => congrArg (· - 1) (h.locks x hlock)
          · exact passed_signals hx a.value
      | wait hvalue =>
          have havalue := h.wait_value hheld hown hp.1 hvalue
          refine ⟨_, hrun (.wait havalue), h.own_next (t := t) [] [] (.inl ⟨rfl, hp⟩) hvisible ?_ ?_ h.locks hzero
            h.shared (.inl rfl) rfl h.halted (List.append_nil _).symm (List.append_nil _).symm rfl⟩
          · rw [← ht]
            exact (Function.update_eq_self t s.thread).symm
          · rw [← ht']
            exact (Function.update_eq_self t a.thread).symm
  | semV x k =>
      cases hruns
      obtain ⟨hx, hk⟩ := hp
      refine ⟨_, hrun .release, h.own_next [.released (member c x) (some t)] [.released x (some t)]
        (.inl ⟨rfl, hk⟩) hvisible rfl rfl ?_ ?_ h.shared (.inl rfl) rfl h.halted rfl rfl rfl⟩
      · exact h.locks_update x fun hlock => congrArg (· + 1) (h.locks x hlock)
      · intro y
        refine (Function.update_of_ne (alone_ne_lock y hx) _ _).trans ?_
        rcases hx with rfl | rfl <;> exact hzero y
  | tick k =>
      cases hruns
      have hk : Plain k := hp
      exact ⟨_, hrun .tick, h.own_next [] [] (.inl ⟨rfl, hk⟩) hvisible rfl rfl h.locks hzero h.shared (.inl rfl) rfl
        h.halted (List.append_nil _).symm (List.append_nil _).symm rfl⟩
  | yield k =>
      cases hruns
      have hk : Plain k := hp
      exact ⟨_, hrun .yield, h.own_next [] [] (.inl ⟨rfl, hk⟩) hvisible rfl rfl h.locks hzero h.shared (.inl rfl) rfl
        h.halted (List.append_nil _).symm (List.append_nil _).symm rfl⟩
  | act f k =>
      cases hruns
      obtain ⟨hworld, hk⟩ := hp
      have hact := hrun .act
      rw [h.shared] at hact
      refine ⟨_, hact, h.own_next _ _ (.inl ⟨rfl, hk _ _ _⟩) hvisible rfl rfl h.locks ?_ ?_ (.inr hcpu)
        (hacpu.trans hcpu.symm) h.halted rfl rfl (got_observed t _)⟩
      · intro x
        dsimp only
        rw [count_observed (fun _ _ => rfl), count_observed (fun _ _ => rfl)]
        exact hzero x
      · obtain ⟨htable, hmemory⟩ := hworld t ((onConsole table c).get s.shared) ()
        change _ = World.mk (Function.update s.shared c _ c) table _
        rw [Function.update_self]
        generalize f t ((onConsole table c).get s.shared) () = result at htable hmemory ⊢
        obtain ⟨⟨console, _, _⟩, _⟩ := result
        cases htable
        cases hmemory
        rfl
  | newThread k => exact hp.elim
  | start u body k => exact hp.elim
  | finish => exact hp.elim
  | halt => exact hp.elim

/-- The return of a call. -/
theorem Alone.returns (h : Alone table c s a)
    (ha : (consoleSystem utf8 (input c) table).interleaving.Reachable a) (hhalted : s.halted = false)
    (hcpu : s.cpu = some t)
    (hvisible : hides c ⟨some (Program.embed (onConsole table c') .ret), (), some (c', call)⟩ = false)
    (ht : s.thread t = some ⟨some (Program.embed (onConsole table c') .ret), (), some (c', call)⟩)
    (ht' : a.thread t = some ⟨some .ret, (), some call⟩)
    (hruns : Runs (consolePair utf8 input table) s t
      ⟨some (Program.embed (onConsole table c') .ret), (), some (c', call)⟩
      (Program.embed (onConsole table c') .ret) s') :
    ∃ a', (consoleSystem utf8 (input c) table).interleaving.Reachable a' ∧ Alone table c s' a' := by
  have hacpu : a.cpu = some t := by
    rw [h.cpu, visibleCpu_some hcpu ht, hvisible]
    rfl
  cases hruns with
  | call c₀ hcall => cases hcall
  | «return» c₀ hcall =>
      cases hcall
      have hreturn := ha.step (.run (h.halted.trans hhalted) hacpu ht' rfl (.return call rfl))
      refine ⟨_, hreturn, h.next [.returned t (c', call)] [.returned t call] ?_ h.locks ?_ h.shared ?_ h.halted rfl rfl
        rfl⟩
      · exact update_rel h.thread t (.some .idle)
      · intro x
        change a.value x.alone = a.value x.alone + 0 - 0
        omega
      · refine visible_cpu ⟨some .ret, (), none⟩ hacpu rfl ?_ ?_
        · exact hcpu
        · exact Function.update_self t _ s.thread

/-- The calls that use no console. -/
theorem Alone.neutral_run (h : Alone table c s a)
    (ha : (consoleSystem utf8 (input c) table).interleaving.Reachable a) (hhalted : s.halted = false)
    (hcpu : s.cpu = some t) (hp : Neutral p)
    (hvisible : hides c ⟨some (p.embed (onConsole table c')), (), some (c', call)⟩ = false)
    (hret : p ≠ .ret)
    (ht : s.thread t = some ⟨some (p.embed (onConsole table c')), (), some (c', call)⟩)
    (ht' : a.thread t = some ⟨some p, (), some call⟩)
    (hruns : Runs (consolePair utf8 input table) s t ⟨some (p.embed (onConsole table c')), (), some (c', call)⟩
      (p.embed (onConsole table c')) s') :
    ∃ a', (consoleSystem utf8 (input c) table).interleaving.Reachable a' ∧ Alone table c s' a' := by
  have hacpu : a.cpu = some t := by
    rw [h.cpu, visibleCpu_some hcpu ht, hvisible]
    rfl
  have hrun : ∀ {a'}, Runs (consoleSystem utf8 (input c) table) a t ⟨some p, (), some call⟩ p a' →
      (consoleSystem utf8 (input c) table).interleaving.Reachable a' := fun hruns' =>
    ha.step (.run (h.halted.trans hhalted) hacpu ht' rfl hruns')
  have hzero : ∀ x : StaticSem, a.value x.alone = a.value x.alone + ((0 : ℕ) : Int) - ((0 : ℕ) : Int) := by
    intro x
    omega
  cases p with
  | ret => exact absurd rfl hret
  | tick k =>
      cases hruns
      have hk : Neutral k := hp
      exact ⟨_, hrun .tick, h.own_next [] [] (.inr hk) hvisible rfl rfl h.locks hzero h.shared (.inl rfl) rfl
        h.halted (List.append_nil _).symm (List.append_nil _).symm rfl⟩
  | newThread k =>
      cases hruns with
      | create u garbage hnull hfresh =>
          have hafresh : a.thread u = none := by
            have hrel := h.thread u
            rw [hfresh] at hrel
            cases hu : a.thread u with
            | none => rfl
            | some new =>
                rw [hu] at hrel
                cases hrel
          have hne : t ≠ u := by
            rintro rfl
            rw [ht] at hfresh
            cases hfresh
          refine ⟨_, hrun (.create u () hnull hafresh), h.next [.created u] [.created u] ?_ h.locks hzero h.shared ?_
            h.halted rfl rfl rfl⟩
          · exact update_rel (update_rel h.thread t (.some (.own (.inr (hp (some u))) hvisible))) u (.some .missing)
          · have hself : (Function.update (Function.update s.thread t
                (some ⟨some ((k (some u)).embed (onConsole table c')), (), some (c', call)⟩)) u
                (some ⟨none, (), none⟩)) t =
                  some ⟨some ((k (some u)).embed (onConsole table c')), (), some (c', call)⟩ := by
              rw [Function.update_of_ne hne, Function.update_self]
            refine visible_cpu ⟨some ((k (some u)).embed (onConsole table c')), (), some (c', call)⟩ hacpu hvisible
              ?_ ?_
            · exact hcpu
            · exact hself
      | createFails =>
          exact ⟨_, hrun .createFails, h.own_next [] [] (.inr (hp none)) hvisible rfl rfl h.locks hzero h.shared
            (.inr hcpu) (hacpu.trans hcpu.symm) h.halted (List.append_nil _).symm (List.append_nil _).symm rfl⟩
  | start u body k =>
      obtain ⟨rfl, hk⟩ := hp
      cases hruns with
      | start hu hnew =>
          obtain ⟨new', hu', hview⟩ := h.view hu
          cases hview with
          | missing =>
              refine ⟨_, hrun (.start hu' rfl), h.next [.started u] [.started u] ?_ h.locks hzero h.shared ?_ h.halted
                rfl rfl rfl⟩
              · exact update_rel (update_rel h.thread t (.some (.own (.inr hk) hvisible))) u (.some .idle)
              · exact (visibleCpu_none rfl).symm
          | idle => cases hnew
          | own => cases hnew
          | other => cases hnew
  | finish =>
      cases hruns
      refine ⟨_, hrun .finish, h.next [] [] ?_ h.locks hzero h.shared (visibleCpu_none rfl).symm h.halted
        (List.append_nil _).symm (List.append_nil _).symm rfl⟩
      exact update_rel h.thread t .none
  | abort => cases hruns
  | semP x k => exact hp.elim
  | semV x k => exact hp.elim
  | yield k => exact hp.elim
  | act f k => exact hp.elim
  | halt => exact hp.elim

/-- The beginning of a call. -/
theorem Alone.calls (h : Alone table c s a)
    (ha : (consoleSystem utf8 (input c) table).interleaving.Reachable a) (hhalted : s.halted = false)
    (hcpu : s.cpu = some t) (ht : s.thread t = some ⟨some .ret, (), none⟩)
    (ht' : a.thread t = some ⟨some .ret, (), none⟩)
    (hruns : Runs (consolePair utf8 input table) s t ⟨some .ret, (), none⟩ .ret s') :
    ∃ a', (consoleSystem utf8 (input c) table).interleaving.Reachable a' ∧ Alone table c s' a' := by
  have hacpu : a.cpu = some t := by
    rw [h.cpu, visibleCpu_some hcpu ht]
    rfl
  have hahalted : a.halted = false := h.halted.trans hhalted
  have hzero : ∀ x : StaticSem, a.value x.alone = a.value x.alone + ((0 : ℕ) : Int) - ((0 : ℕ) : Int) := by
    intro x
    omega
  cases hruns with
  | «return» c₀ hcall => cases hcall
  | call c₀ hcall =>
      obtain ⟨c', call⟩ := c₀
      have hself : Function.update s.thread t
          (some ⟨some ((consolePair utf8 input table).menu (c', call)), (), some (c', call)⟩) t =
            some ⟨some ((consolePair utf8 input table).menu (c', call)), (), some (c', call)⟩ :=
        Function.update_self ..
      cases hhides : hides c ⟨some ((consolePair utf8 input table).menu (c', call)), (), some (c', call)⟩ with
      | true =>
          obtain ⟨hc, huses⟩ := Bool.and_eq_true_iff.mp hhides
          have hc := of_decide_eq_true hc
          have hcall := ha.step (.run hahalted hacpu ht' rfl (.call .compute rfl))
          have htick := hcall.step (.run hahalted hacpu (Function.update_self t _ a.thread) rfl .tick)
          refine ⟨_, htick, h.next [.called t (c', call)] [.called t .compute] ?_ h.locks hzero h.shared ?_ h.halted rfl
            rfl rfl⟩
          · intro u
            change Option.Rel _ _ (Function.update (Function.update a.thread t _) t _ u)
            rw [Function.update_idem]
            exact update_rel h.thread t (.some (.other hc (menu_plain utf8 [] table huses) hhides)) u
          · refine hidden_cpu (t := t) rfl hhides ?_ ?_
            · exact hcpu
            · exact hself
      | false =>
          have hp : c' = c ∧ Plain ((consoleSystem utf8 [] table).menu call) ∨
              Neutral ((consoleSystem utf8 [] table).menu call) := by
            cases huses : call.usesConsole with
            | true =>
                refine .inl ⟨?_, menu_plain utf8 [] table huses⟩
                by_contra hc
                have htrue : hides c ⟨some ((consolePair utf8 input table).menu (c', call)), (), some (c', call)⟩ =
                    true := Bool.and_eq_true_iff.mpr ⟨decide_eq_true hc, huses⟩
                rw [hhides] at htrue
                cases htrue
            | false => exact .inr (menu_neutral utf8 [] table huses)
          have hcall := ha.step (.run hahalted hacpu ht' rfl (.call call rfl))
          exact ⟨_, hcall, h.own_next [.called t (c', call)] [.called t call] hp hhides rfl rfl h.locks hzero h.shared
            (.inr hcpu) (hacpu.trans hcpu.symm) h.halted rfl rfl rfl⟩

end Own

end Projection

end Nachos

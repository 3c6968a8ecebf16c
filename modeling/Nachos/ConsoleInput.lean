import Nachos.CriticalSection
import Nachos.Refinement
import Nachos.SynchConsole

/-! The input of a `SynchConsole` in an 8-bit locale. The read lock protects the buffer of the device,
and the semaphore `readAvail` counts what is in it: a thread that has passed the semaphore and has not
yet called `GetChar` still owns a character. -/

namespace Nachos

open Interleaving

/-- The values obtained by a call that has held the read lock. -/
structure ReadSection where
  thread : ThreadId
  call : ConsoleCall
  values : List Word

/-- A value belongs to the last section of the thread that obtained it. -/
def recordValue (t : ThreadId) (v : Word) : List ReadSection → List ReadSection
  | [] => []
  | last :: older =>
      if last.thread = t then { last with values := last.values ++ [v] } :: older
      else last :: recordValue t v older

/-- One more event, with the last section at the head. -/
def readSection (sections : List ReadSection) : Event Sem ConsoleCall Observation → List ReadSection
  | .passed .readLock t (some c) => ⟨t, c, []⟩ :: sections
  | .observed t (.got v) => recordValue t v sections
  | _ => sections

/-- The sections of the read lock, in the order in which it was acquired. -/
def readSections (log : List (Event Sem ConsoleCall Observation)) : List ReadSection :=
  (log.foldl readSection []).reverse

/-- The input, as the values that `GetChar` makes of it. -/
def inputValues (input : List Byte) : List Word := input.map (·.setWidth 32)

/-- The code of a thread that holds the read lock, before it waits for a character or releases the lock. -/
inductive Reads : Program Sem World Unit Observation → Prop where
  | release : Reads (.semV .readLock .ret)
  | next {kc : Word → Program Sem World Unit Observation} (hreads : ∀ v, Reads (kc v)) :
      Reads (.semP .readAvail (consoleGetChar kc))

theorem reads_getStringLoop (n : Nat) (stored : List Byte) :
    Reads (getStringLoop (fun _ => .ret) n stored) := by
  induction n generalizing stored with
  | zero => exact .release
  | succ n ih =>
      cases n with
      | zero => exact .release
      | succ n =>
          refine .next fun v => ?_
          show Reads (if _ then _ else _)
          split
          · exact .release
          · exact ih _

/-- The read side of the console. -/
def inputRegion : Region Sem World Observation (Word × Bool × List Byte) where
  sems
    | .readLock => true
    | .readAvail => true
    | _ => false
  view world := (world.console.incoming, world.console.utf8, world.console.input)
  seen
    | .got _ => true
    | _ => false
  threads := false
  mayAbort := true

/-- The thread is about to acquire the read lock. -/
def EnterInput (call : Option ConsoleCall) (p : Program Sem World Unit Observation) : Prop :=
  ∃ c k, call = some c ∧ p = .semP .readLock k ∧ Reads k

/-- The buffer of the device, with what has been obtained and the number of characters announced and
not yet taken. After the end of file has been reported the number is arbitrary. -/
inductive ReadSide (input : List Byte) (c : Console) (obtained : List Word) : Int → Prop where
  | buffered (b : Byte) (hincoming : c.incoming = b.setWidth 32)
      (hinput : obtained ++ b.setWidth 32 :: inputValues c.input = inputValues input) :
      ReadSide input c obtained 1
  | empty (hincoming : c.incoming = eof) (hinput : obtained ++ inputValues c.input = inputValues input) :
      ReadSide input c obtained 0
  | ended (n : Nat) (announced : Int) (hincoming : c.incoming = eof) (hinput : c.input = [])
      (hobtained : obtained = inputValues input ++ List.replicate n eof) :
      ReadSide input c obtained announced

/-- Nobody holds the read lock. -/
structure InputIdle (input : List Byte) (s : ConsoleState) : Prop where
  free : s.value .readLock = 1
  nonneg : 0 ≤ s.value .readAvail
  codeset : s.shared.console.utf8 = false
  order : (readSections s.log).flatMap ReadSection.values = gotValues s.log
  device : ReadSide input s.shared.console (gotValues s.log) (s.value .readAvail)

/-- Where a thread that holds the read lock is. -/
inductive Reading (input : List Byte) (s : ConsoleState) : Program Sem World Unit Observation → Prop where
  | next {p : Program Sem World Unit Observation} (hreads : Reads p)
      (hdevice : ReadSide input s.shared.console (gotValues s.log) (s.value .readAvail)) : Reading input s p
  | take {kc : Word → Program Sem World Unit Observation} (hreads : ∀ v, Reads (kc v))
      (hdevice : ReadSide input s.shared.console (gotValues s.log) (s.value .readAvail + 1)) :
      Reading input s (consoleGetChar kc)

/-- The thread `t` holds the read lock, and the last section is its own. -/
structure InputInside (input : List Byte) (t : ThreadId)
    (th : Interleaving.Thread Sem ConsoleCall World Unit Observation) (s : ConsoleState) : Prop where
  held : s.value .readLock = 0
  nonneg : 0 ≤ s.value .readAvail
  codeset : s.shared.console.utf8 = false
  order : (readSections s.log).flatMap ReadSection.values = gotValues s.log
  last : ∃ c values older, s.log.foldl readSection [] = ⟨t, c, values⟩ :: older
  code : ∃ p, th.code = some p ∧ Reading input s p

section Filter

variable {f : Event Sem ConsoleCall Observation → Bool} (hsection : ∀ t c, f (.passed .readLock t c) = true)
  (hvalue : ∀ t v, f (.observed t (.got v)) = true)

include hsection hvalue in
/-- The sections depend only on the events that open one or show a value. -/
theorem foldl_readSection_filter (log : List (Event Sem ConsoleCall Observation)) :
    (log.filter f).foldl readSection [] = log.foldl readSection [] := by
  rw [List.foldl_filter]
  congr 1
  funext sections e
  split
  · rfl
  · rename_i hf
    unfold readSection
    split
    · exact absurd (hsection _ _) hf
    · exact absurd (hvalue _ _) hf
    · rfl

include hvalue in
theorem gotValues_filter (log : List (Event Sem ConsoleCall Observation)) :
    gotValues (log.filter f) = gotValues log := by
  rw [gotValues, List.filterMap_filter]
  congr 1
  funext e
  split
  · rfl
  · rename_i hf
    unfold gotValue
    split
    · exact absurd (hvalue _ _) hf
    · rfl

end Filter

section Congruence

variable {input : List Byte} {s s' : ConsoleState} (hsame : Same inputRegion s s')

include hsame

theorem gotValues_congr : gotValues s'.log = gotValues s.log := by
  have hfilter := gotValues_filter (f := inputRegion.guards) fun _ _ => rfl
  rw [← hfilter s'.log, ← hfilter s.log, hsame.log]

theorem sections_congr : s'.log.foldl readSection [] = s.log.foldl readSection [] := by
  have hfilter := foldl_readSection_filter (f := inputRegion.guards) (fun _ _ => rfl) fun _ _ => rfl
  rw [← hfilter s'.log, ← hfilter s.log, hsame.log]

theorem readSections_congr : readSections s'.log = readSections s.log :=
  congrArg List.reverse (sections_congr hsame)

theorem ReadSide.congr {obtained : List Word} {announced : Int}
    (h : ReadSide input s.shared.console obtained announced) :
    ReadSide input s'.shared.console obtained announced := by
  have hview := hsame.view
  simp only [inputRegion, Prod.mk.injEq] at hview
  obtain ⟨hincoming, -, hinput⟩ := hview
  cases h with
  | buffered b hb heq => exact .buffered b (hincoming.trans hb) (by rw [hinput, heq])
  | empty hb heq => exact .empty (hincoming.trans hb) (by rw [hinput, heq])
  | ended n announced hb hend heq => exact .ended n announced (hincoming.trans hb) (hinput.trans hend) heq

theorem InputIdle.congr (h : InputIdle input s) : InputIdle input s' where
  free := (hsame.value .readLock rfl).trans h.free
  nonneg := by
    rw [hsame.value .readAvail rfl]
    exact h.nonneg
  codeset := (congrArg (fun view => view.2.1) hsame.view).trans h.codeset
  order := by rw [readSections_congr hsame, gotValues_congr hsame, h.order]
  device := by
    rw [gotValues_congr hsame, hsame.value .readAvail rfl]
    exact h.device.congr hsame

theorem Reading.congr {p : Program Sem World Unit Observation} (h : Reading input s p) :
    Reading input s' p := by
  cases h with
  | next hreads hdevice =>
      refine .next hreads ?_
      rw [gotValues_congr hsame, hsame.value .readAvail rfl]
      exact hdevice.congr hsame
  | take hreads hdevice =>
      refine .take hreads ?_
      rw [gotValues_congr hsame, hsame.value .readAvail rfl]
      exact hdevice.congr hsame

theorem InputInside.congr {t : ThreadId} {th : Interleaving.Thread Sem ConsoleCall World Unit Observation}
    (h : InputInside input t th s) : InputInside input t th s' where
  held := (hsame.value .readLock rfl).trans h.held
  nonneg := by
    rw [hsame.value .readAvail rfl]
    exact h.nonneg
  codeset := (congrArg (fun view => view.2.1) hsame.view).trans h.codeset
  order := by rw [readSections_congr hsame, gotValues_congr hsame, h.order]
  last := by
    rw [sections_congr hsame]
    exact h.last
  code := by
    obtain ⟨p, hp, hreading⟩ := h.code
    exact ⟨p, hp, hreading.congr hsame⟩

end Congruence

section Section

variable {input : List Byte} {table : ThreadTable} {s s' : ConsoleState} {t : ThreadId}
  {th : Interleaving.Thread Sem ConsoleCall World Unit Observation}

theorem consolePutChar_free {k : Program Sem World Unit Observation} (hk : k.Free inputRegion) (ch : Word) :
    (consolePutChar k ch).Free inputRegion := by
  constructor
  · intro t world priv
    constructor
    · show inputRegion.view (if _ then _ else _ : World × Bool).1 = _
      split
      · rfl
      · rfl
    · intro o ho
      cases ho
  · intro t world priv
    show Program.Free inputRegion (if _ then _ else _)
    split
    · rfl
    · exact hk

theorem putStringLoop_free (str : List Byte) :
    (putStringLoop (ρ := Unit) .ret str).Free inputRegion := by
  induction str with
  | nil => exact ⟨rfl, trivial⟩
  | cons ch rest ih =>
      rw [putStringLoop]
      split
      · exact ⟨rfl, trivial⟩
      · apply consolePutChar_free
        exact ⟨rfl, ih⟩

theorem menu_input (c : ConsoleCall) :
    ((consoleSystem false input table).menu c).Free inputRegion ∨
      EnterInput (some c) ((consoleSystem false input table).menu c) := by
  cases c with
  | putChar ch =>
      refine .inl ⟨rfl, ?_⟩
      apply consolePutChar_free
      exact ⟨rfl, rfl, trivial⟩
  | putString str => exact .inl ⟨rfl, putStringLoop_free str⟩
  | getChar => exact .inr ⟨_, _, rfl, rfl, .next fun _ => .release⟩
  | getString n => exact .inr ⟨_, _, rfl, rfl, reads_getStringLoop _ _⟩
  | compute => exact .inl trivial
  | fork =>
      refine .inl ⟨rfl, ?_⟩
      intro u
      cases u with
      | none => trivial
      | some u => exact ⟨rfl, trivial, trivial⟩
  | exit => exact .inl rfl

theorem byte_ne_eof (b : Byte) : b.setWidth 32 ≠ eof := by
  intro h
  have hvalue : (b.setWidth 32).toNat = 2 ^ 32 - 1 := congrArg BitVec.toNat h
  have hlt := b.isLt
  rw [BitVec.toNat_setWidth] at hvalue
  omega

/-- A poll reads a character into an empty buffer, reports the end of the input, or does nothing. -/
theorem ReadSide.poll {c : Console} {obtained : List Word} {announced : Int} (hcodeset : c.utf8 = false)
    (h : ReadSide input c obtained announced) (ready : Bool) :
    ReadSide input (c.checkCharAvail ready).1 obtained
      (announced + if (c.checkCharAvail ready).2 then 1 else 0) := by
  unfold Console.checkCharAvail
  split
  · simpa using h
  · rename_i hpoll
    rw [not_or, not_not] at hpoll
    cases h with
    | buffered b hincoming hinput =>
        rw [hpoll.1] at hincoming
        exact absurd hincoming.symm (byte_ne_eof b)
    | empty hincoming hinput =>
        cases hrest : c.input with
        | nil =>
            rw [hrest] at hinput
            refine .ended 0 _ rfl rfl ?_
            simpa [inputValues] using hinput
        | cons b rest =>
            rw [hrest] at hinput
            simp only [hcodeset, true_or, if_true]
            exact .buffered b rfl hinput
    | ended n announced hincoming hend hobtained =>
        simp only [hend]
        exact .ended n _ rfl rfl hobtained

/-- The handlers of the device, seen from the read side. -/
theorem handler_input {i : ConsoleInterrupt} {shared : World} {released : List Sem}
    (hhandler : consoleHandler i s.shared = some (shared, released)) :
    Same inputRegion s (afterInterrupt s shared released) ∨
      ∃ ready, shared = { s.shared with console := (s.shared.console.checkCharAvail ready).1 } ∧
        released = if (s.shared.console.checkCharAvail ready).2 then [.readAvail] else [] := by
  cases i with
  | readPoll ready =>
      simp only [consoleHandler] at hhandler
      split at hhandler
      · cases hhandler
        exact .inr ⟨ready, rfl, rfl⟩
      · cases hhandler
  | writeDone =>
      simp only [consoleHandler] at hhandler
      split at hhandler
      · cases hhandler
        left
        apply Same.interrupt
        · rfl
        · intro x hx
          rw [List.mem_singleton.mp hx]
          rfl
      · cases hhandler

/-- The state after a poll. -/
def afterPoll (ready : Bool) (s : ConsoleState) : ConsoleState :=
  afterInterrupt s { s.shared with console := (s.shared.console.checkCharAvail ready).1 }
    (if (s.shared.console.checkCharAvail ready).2 then [.readAvail] else [])

theorem afterPoll_value (ready : Bool) (s : ConsoleState) :
    (afterPoll ready s).value .readLock = s.value .readLock ∧
      (afterPoll ready s).value .readAvail =
        s.value .readAvail + if (s.shared.console.checkCharAvail ready).2 then 1 else 0 := by
  unfold afterPoll afterInterrupt
  split
  · simp [releaseAll]
  · simp [releaseAll]

theorem afterPoll_log (ready : Bool) (s : ConsoleState) :
    gotValues (afterPoll ready s).log = gotValues s.log ∧
      (afterPoll ready s).log.foldl readSection [] = s.log.foldl readSection [] := by
  unfold afterPoll afterInterrupt
  split
  · constructor
    · simp [gotValues, gotValue]
    · simp [readSection]
  · simp

theorem InputIdle.poll (h : InputIdle input s) (ready : Bool) : InputIdle input (afterPoll ready s) := by
  obtain ⟨hlock, havail⟩ := afterPoll_value ready s
  obtain ⟨hgot, hsections⟩ := afterPoll_log ready s
  refine ⟨hlock.trans h.free, ?_, ?_, ?_, ?_⟩
  · have hnonneg := h.nonneg
    rw [havail]
    split <;> omega
  · exact (congrArg (fun view => view.2.2.1) (Console.checkCharAvail_write ready _)).trans h.codeset
  · rw [readSections, hsections, hgot]
    exact h.order
  · rw [hgot, havail]
    exact h.device.poll h.codeset ready

theorem Reading.poll {p : Program Sem World Unit Observation} (h : Reading input s p)
    (hcodeset : s.shared.console.utf8 = false) (ready : Bool) : Reading input (afterPoll ready s) p := by
  obtain ⟨-, havail⟩ := afterPoll_value ready s
  obtain ⟨hgot, -⟩ := afterPoll_log ready s
  cases h with
  | next hreads hdevice =>
      refine .next hreads ?_
      rw [hgot, havail]
      exact hdevice.poll hcodeset ready
  | take hreads hdevice =>
      refine .take hreads ?_
      rw [hgot, havail, Int.add_right_comm]
      exact hdevice.poll hcodeset ready

theorem InputInside.poll (h : InputInside input t th s) (ready : Bool) :
    InputInside input t th (afterPoll ready s) := by
  obtain ⟨hlock, havail⟩ := afterPoll_value ready s
  obtain ⟨hgot, hsections⟩ := afterPoll_log ready s
  obtain ⟨p, hp, hreading⟩ := h.code
  refine ⟨hlock.trans h.held, ?_, ?_, ?_, ?_, p, hp, hreading.poll h.codeset ready⟩
  · have hnonneg := h.nonneg
    rw [havail]
    split <;> omega
  · exact (congrArg (fun view => view.2.2.1) (Console.checkCharAvail_write ready _)).trans h.codeset
  · rw [readSections, hsections, hgot]
    exact h.order
  · rw [hsections]
    exact h.last

/-- The thread that owns a character takes it out of the buffer. -/
theorem ReadSide.take {c : Console} {obtained : List Word} {announced : Int}
    (h : ReadSide input c obtained (announced + 1)) (hnonneg : 0 ≤ announced) :
    ReadSide input c.getChar.1 (obtained ++ [c.getChar.2]) announced := by
  generalize htotal : announced + 1 = total at h
  cases h with
  | buffered b hincoming hinput =>
      have hzero : announced = 0 := by omega
      subst hzero
      refine .empty rfl ?_
      rw [← hinput]
      simp [Console.getChar, hincoming]
  | empty hincoming hinput => omega
  | ended n announced' hincoming hend hobtained =>
      refine .ended (n + 1) announced rfl hend ?_
      rw [hobtained, List.replicate_succ', ← List.append_assoc]
      simp [Console.getChar, hincoming]

/-- An event that is neither a value nor a section. -/
theorem log_other {e : Event Sem ConsoleCall Observation} (log : List (Event Sem ConsoleCall Observation))
    (hvalue : gotValue e = none) (hsection : ∀ sections, readSection sections e = sections) :
    gotValues (log ++ [e]) = gotValues log ∧
      (log ++ [e]).foldl readSection [] = log.foldl readSection [] := by
  constructor
  · simp [gotValues, hvalue]
  · simp [hsection]

theorem log_got (log : List (Event Sem ConsoleCall Observation)) (t : ThreadId) (v : Word) :
    gotValues (log ++ [.observed t (.got v)]) = gotValues log ++ [v] ∧
      List.foldl readSection [] (log ++ [.observed t (.got v)]) = recordValue t v (log.foldl readSection []) := by
  constructor
  · simp [gotValues, gotValue]
  · simp [readSection]

/-- The thread that holds the read lock goes on. -/
theorem InputInside.run {p : Program Sem World Unit Observation} (h : InputInside input t th s)
    (ht : s.thread t = some th) (hcode : th.code = some p)
    (hruns : Runs (consoleSystem false input table) s t th p s') :
    (∃ new, s'.thread = Function.update s.thread t (some new) ∧ InputInside input t new s') ∨
      ∃ new, s'.thread = Function.update s.thread t (some new) ∧ InputIdle input s' ∧
        new.code = some .ret := by
  obtain ⟨q, hq, hreading⟩ := h.code
  rw [hcode] at hq
  cases hq
  have hnonneg := h.nonneg
  cases hreading with
  | next hreads hdevice =>
      cases hreads with
      | release =>
          right
          cases hruns
          obtain ⟨hgot, hsections⟩ := log_other (e := .released .readLock (some t)) s.log rfl fun _ => rfl
          have hfree : Function.update s.value .readLock (s.value .readLock + 1) .readLock = 1 := by
            rw [Function.update_self, h.held]
            rfl
          have havail : Function.update s.value .readLock (s.value .readLock + 1) .readAvail =
              s.value .readAvail := Function.update_of_ne (by decide) _ _
          refine ⟨_, rfl, ⟨hfree, havail ▸ hnonneg, h.codeset, ?_, ?_⟩, rfl⟩
          · show (readSections (s.log ++ _)).flatMap _ = gotValues (s.log ++ _)
            rw [readSections, hsections, hgot]
            exact h.order
          · show ReadSide input s.shared.console (gotValues (s.log ++ _)) _
            rw [hgot]
            exact havail.symm ▸ hdevice
      | next hreads =>
          left
          cases hruns with
          | pass hvalue =>
              obtain ⟨hgot, hsections⟩ := log_other (e := .passed .readAvail t th.call) s.log rfl fun _ => rfl
              have hlock : Function.update s.value .readAvail (s.value .readAvail - 1) .readLock =
                  s.value .readLock := Function.update_of_ne (by decide) _ _
              have havail : Function.update s.value .readAvail (s.value .readAvail - 1) .readAvail =
                  s.value .readAvail - 1 := Function.update_self _ _ _
              refine ⟨_, rfl, hlock.trans h.held, ?_, h.codeset, ?_, ?_, _, rfl, .take hreads ?_⟩
              · show 0 ≤ Function.update s.value .readAvail (s.value .readAvail - 1) .readAvail
                rw [havail]
                omega
              · show (readSections (s.log ++ _)).flatMap _ = gotValues (s.log ++ _)
                rw [readSections, hsections, hgot]
                exact h.order
              · show ∃ c values older, (s.log ++ _).foldl readSection [] = _
                rw [hsections]
                exact h.last
              · show ReadSide input s.shared.console (gotValues (s.log ++ _))
                  (Function.update s.value .readAvail (s.value .readAvail - 1) .readAvail + 1)
                rw [hgot, havail, Int.sub_add_cancel]
                exact hdevice
          | wait hvalue =>
              refine ⟨th, ?_, h.held, h.nonneg, h.codeset, h.order, h.last, _, hcode, ?_⟩
              · rw [← ht]
                exact (Function.update_eq_self t s.thread).symm
              · exact .next (.next hreads) hdevice
  | take hreads hdevice =>
      left
      obtain ⟨c, values, older, hlast⟩ := h.last
      have horder := h.order
      cases hruns
      obtain ⟨hgot, hsections⟩ := log_got s.log t s.shared.console.getChar.2
      rw [hlast, recordValue, if_pos rfl] at hsections
      refine ⟨_, rfl, h.held, h.nonneg, h.codeset, ?_, ⟨c, _, older, hsections⟩, _, rfl, .next (hreads _) ?_⟩
      · show (readSections (s.log ++ [.observed t (.got s.shared.console.getChar.2)])).flatMap _ =
          gotValues (s.log ++ [Event.observed t (.got s.shared.console.getChar.2)])
        rw [readSections, hlast] at horder
        rw [readSections, hsections, hgot, ← horder]
        simp
      · show ReadSide input s.shared.console.getChar.1
          (gotValues (s.log ++ [Event.observed t (.got s.shared.console.getChar.2)])) (s.value .readAvail)
        rw [hgot]
        exact hdevice.take hnonneg

/-- The read lock makes the calls that read sections that exclude each other. -/
theorem input_section (input : List Byte) (table : ThreadTable) :
    CriticalSection (consoleSystem false input table) inputRegion .readLock EnterInput (InputIdle input)
      (InputInside input) where
  menu := menu_input
  entry := by
    rintro call p ⟨c, k, -, rfl, -⟩
    exact ⟨k, rfl⟩
  idle_congr s s' hsame h := h.congr hsame
  inside_congr s s' t th hsame h := h.congr hsame
  closed := by
    intro s t th h
    obtain ⟨p, hp, -⟩ := h.code
    exact ⟨h.held, by simp [hp]⟩
  enter := by
    rintro s t th k h ⟨c, k', hcall, heq, hreads⟩ hvalue
    cases heq
    have havail : Function.update s.value .readLock (s.value .readLock - 1) .readAvail =
        s.value .readAvail := Function.update_of_ne (by decide) _ _
    have hsections : List.foldl readSection [] (s.log ++ [.passed .readLock t th.call]) =
        ⟨t, c, []⟩ :: s.log.foldl readSection [] := by
      rw [List.foldl_append, hcall]
      rfl
    have hgot : gotValues (s.log ++ [.passed .readLock t th.call]) = gotValues s.log := by
      simp [gotValues, gotValue]
    refine ⟨?_, havail ▸ h.nonneg, h.codeset, ?_, ⟨c, [], _, hsections⟩, k, rfl, .next hreads ?_⟩
    · show Function.update s.value .readLock (s.value .readLock - 1) .readLock = 0
      rw [Function.update_self, h.free]
      rfl
    · show (readSections (s.log ++ [.passed .readLock t th.call])).flatMap _ =
        gotValues (s.log ++ [.passed .readLock t th.call])
      rw [hgot, ← h.order, readSections, hsections, readSections]
      simp
    · show ReadSide input s.shared.console (gotValues (s.log ++ [.passed .readLock t th.call])) _
      rw [hgot]
      exact havail.symm ▸ h.device
  inside := by
    intro s s' t th p h ht hcode hruns
    rcases h.run ht hcode hruns with ⟨new, hthread, hinside⟩ | ⟨new, hthread, hidle, hret⟩
    · exact inside_of_setThread hthread (.inl hinside)
    · exact inside_of_setThread hthread (.inr ⟨hidle, .of_free hret trivial⟩)
  interrupt s i shared released hhandler := by
    rcases handler_input hhandler with hsame | ⟨ready, rfl, rfl⟩
    · exact ⟨fun h => h.congr hsame, fun t th h => h.congr hsame⟩
    · exact ⟨fun h => h.poll ready, fun t th h => h.poll ready⟩

theorem input_idle (input : List Byte) (table : ThreadTable) :
    InputIdle input (Interleaving.initial (consoleSystem false input table)) :=
  ⟨rfl, le_refl _, rfl, rfl, .empty rfl rfl⟩

end Section

/-- The values of the device are a prefix of the input, followed by ends of file. -/
theorem ReadSide.stream {input : List Byte} {c : Console} {obtained : List Word} {announced : Int}
    (h : ReadSide input c obtained announced) :
    ∃ n, obtained <+: inputValues input ++ List.replicate n eof := by
  cases h with
  | buffered b hincoming hinput =>
      refine ⟨0, ?_⟩
      rw [List.replicate_zero, List.append_nil, ← hinput]
      exact List.prefix_append _ _
  | empty hincoming hinput =>
      refine ⟨0, ?_⟩
      rw [List.replicate_zero, List.append_nil, ← hinput]
      exact List.prefix_append _ _
  | ended n announced hincoming hend hobtained => exact ⟨n, hobtained ▸ List.prefix_refl _⟩

/-- The values of a console in an interleaving. -/
theorem got_stream {input : List Byte} {table : ThreadTable} {s : ConsoleState}
    (h : (consoleSystem false input table).interleaving.Reachable s) :
    ∃ n, gotValues s.log <+: inputValues input ++ List.replicate n eof := by
  rcases (input_section input table).reachable (input_idle input table) h with ⟨hidle, -⟩ | ⟨t, th, -, hinside, -⟩
  · exact hidle.device.stream
  · obtain ⟨p, -, hreading⟩ := hinside.code
    cases hreading with
    | next hreads hdevice => exact hdevice.stream
    | take hreads hdevice => exact hdevice.stream

/-- A contiguous part of the stream is a contiguous part of the input, followed by ends of file. -/
theorem infix_stream {input : List Byte} {n : Nat} {before values after : List Word}
    (h : before ++ values ++ after = inputValues input ++ List.replicate n eof) :
    ∃ bytes m, values = inputValues bytes ++ List.replicate m eof ∧ bytes <:+: input := by
  rcases List.append_eq_append_iff.mp h with ⟨rest, hinput, -⟩ | ⟨ends, hvalues, hends⟩
  · -- The part ends inside the input.
    obtain ⟨taken, left, rfl, htaken, -⟩ := List.map_eq_append_iff.mp hinput
    obtain ⟨first, bytes, rfl, -, hbytes⟩ := List.map_eq_append_iff.mp htaken
    exact ⟨bytes, 0, by rw [List.replicate_zero, List.append_nil]; exact hbytes.symm, first, left, rfl⟩
  · have hends : ends = List.replicate ends.length eof := by
      apply List.eq_replicate_of_mem
      intro v hv
      apply List.eq_of_mem_replicate
      rw [hends]
      exact List.mem_append_left _ hv
    rcases List.append_eq_append_iff.mp hvalues with ⟨rest, hinput, heq⟩ | ⟨rest, -, heq⟩
    · -- It begins inside the input and ends after it.
      obtain ⟨first, bytes, rfl, -, hbytes⟩ := List.map_eq_append_iff.mp hinput
      refine ⟨bytes, ends.length, ?_, first, [], List.append_nil _⟩
      rw [← hends, heq]
      exact congrArg (· ++ ends) hbytes.symm
    · -- It begins after the input.
      refine ⟨[], values.length, ?_, List.nil_infix⟩
      apply List.eq_replicate_of_mem
      intro v hv
      rw [heq] at hends
      apply List.eq_of_mem_replicate
      rw [← hends]
      exact List.mem_append_right _ hv

/-- The input of a `SynchConsole` in a state of the kernel. -/
structure OrderedInput (input : List Byte) (s : Kernel Sem ConsoleCall World Unit Observation) : Prop where
  /-- The sections are those of the calls that have acquired the lock, in this order. -/
  sections : (readSections s.log).map (fun sec => (sec.thread, sec.call)) = acquisitions .readLock s.log
  /-- Every value has been obtained in a section, and no section has been interrupted by another. -/
  order : (readSections s.log).flatMap ReadSection.values = gotValues s.log
  /-- The values are the input from its beginning, and ends of file only after the whole input. -/
  stream : ∃ n, (readSections s.log).flatMap ReadSection.values <+: inputValues input ++ List.replicate n eof
  /-- What one call has obtained is contiguous in the input. -/
  contiguous : ∀ sec ∈ readSections s.log, ∃ bytes n,
    sec.values = inputValues bytes ++ List.replicate n eof ∧ bytes <:+: input

theorem recordValue_map (t : ThreadId) (v : Word) (sections : List ReadSection) :
    (recordValue t v sections).map (fun sec => (sec.thread, sec.call)) =
      sections.map fun sec => (sec.thread, sec.call) := by
  induction sections with
  | nil => rfl
  | cons last older ih =>
      rw [recordValue]
      split
      · rfl
      · rw [List.map_cons, List.map_cons, ih]

theorem readSections_map (log : List (Event Sem ConsoleCall Observation)) :
    (readSections log).map (fun sec => (sec.thread, sec.call)) = acquisitions .readLock log := by
  induction log using List.reverseRecOn with
  | nil => rfl
  | append_singleton log e ih =>
      rw [readSections, List.map_reverse] at ih
      rw [readSections, List.map_reverse, acquisitions_append, ← ih, List.foldl_append]
      show ((readSection (log.foldl readSection []) e).map _).reverse = _
      unfold readSection
      split
      · rw [List.map_cons, List.reverse_cons]
        rfl
      · rw [recordValue_map]
        exact (List.append_nil _).symm
      · rename_i hnot _
        have hnone : Event.acquisition Sem.readLock e = none := by
          unfold Event.acquisition
          split
          · rw [if_neg]
            rintro rfl
            exact hnot _ _ rfl
          · rfl
        simp [acquisitions, hnone]

/-- The calls that read from a `SynchConsole` in an 8-bit locale obtain the input in order, one after
another in the order in which they acquire the read lock. -/
theorem console_input_ordered {space : Bool} {input : List Byte} {table : ThreadTable}
    {s : Kernel Sem ConsoleCall World Unit Observation}
    (h : (kernel (consoleSystem false input table) space).Reachable s) : OrderedInput input s := by
  have habstract := Kernel.reachable_abstraction (.inr inferInstance) h
  have hexclusive := (input_section input table).reachable (input_idle input table) habstract
  have hgot : gotValues s.abstraction.log = gotValues s.log := gotValues_filter (fun _ _ => rfl) s.log
  have hsections : readSections s.abstraction.log = readSections s.log :=
    congrArg List.reverse (foldl_readSection_filter (fun _ _ => rfl) (fun _ _ => rfl) s.log)
  have hstream := got_stream habstract
  rw [hgot] at hstream
  have horder : (readSections s.log).flatMap ReadSection.values = gotValues s.log := by
    rw [← hsections, ← hgot]
    rcases hexclusive with ⟨hidle, -⟩ | ⟨t, th, -, hinside, -⟩
    · exact hidle.order
    · exact hinside.order
  refine ⟨readSections_map s.log, horder, horder ▸ hstream, ?_⟩
  intro sec hsec
  obtain ⟨before, after, hsplit⟩ := List.append_of_mem hsec
  obtain ⟨n, rest, hrest⟩ := hstream
  rw [← horder, hsplit, List.flatMap_append, List.flatMap_cons, List.append_assoc, List.append_assoc,
    ← List.append_assoc] at hrest
  exact infix_stream hrest

/-- A run with two readers: while one reads a line the other waits for the lock, and is then given the
end of file. -/
def twoReadersRun : List (Choice ConsoleCall ConsoleInterrupt Unit) :=
  [.call .fork, .alloc 2 (), .exec, .resume, .exec, .call (.getString 9), .exec, .resume, .exec, .resume,
    .call .getChar, .exec, .interrupt (.readPoll true), .dispatch, .exec, .resume, .exec, .exec,
    .interrupt (.readPoll true), .dispatch, .exec, .resume, .exec, .exec, .interrupt (.readPoll true),
    .preempt, .exec, .resume, .exec, .resume, .exec]

theorem console_input_ordered_twoReaders :
    ∃ s, Kernel.runChoices (consoleSystem false [104, 10] (.new fun _ => 0)) twoReadersRun
        (Kernel.initial (consoleSystem false [104, 10] (.new fun _ => 0)) false) = some s ∧
      gotValues s.log = [104, 10, eof] ∧ OrderedInput [104, 10] s := by
  obtain ⟨s, hrun, hgot⟩ : ∃ s,
      Kernel.runChoices (consoleSystem false [104, 10] (.new fun _ => 0)) twoReadersRun
        (Kernel.initial (consoleSystem false [104, 10] (.new fun _ => 0)) false) = some s ∧
      gotValues s.log = [104, 10, eof] := ⟨_, rfl, rfl⟩
  have hinit : (kernel (consoleSystem false [104, 10] (.new fun _ => 0)) false).Reachable
      (Kernel.initial _ false) := .init rfl
  exact ⟨s, hrun, hgot, console_input_ordered (Kernel.reachable_runChoices hinit hrun)⟩

end Nachos

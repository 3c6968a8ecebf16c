import Nachos.CriticalSection
import Nachos.Refinement
import Nachos.SynchConsole

/-! The output of a `SynchConsole`. The write lock protects the write side of the device, and the
semaphore `writeDone` carries the interrupt of the device to the thread that holds the lock. -/

namespace Nachos

open Interleaving

/-- The characters that a call gives to `Console::PutChar`. -/
def ConsoleCall.characters : ConsoleCall → List Word
  | .putChar ch => [ch]
  | .putString s => (s.takeWhile (· ≠ 0)).map (·.signExtend 32)
  | _ => []

def ConsoleCall.writes : ConsoleCall → Bool
  | .putChar _ => true
  | .putString _ => true
  | _ => false

/-- The complete output of a call. -/
def ConsoleCall.output (utf8 : Bool) (c : ConsoleCall) : List Byte :=
  c.characters.flatMap (Console.putBytes utf8)

/-- The complete outputs of some calls. -/
def outputs (utf8 : Bool) (calls : List (ThreadId × ConsoleCall)) : List Byte :=
  calls.flatMap fun a => a.2.output utf8

/-- What a thread that holds the write lock has still to do for these characters. -/
def putLoop : List Word → Program Sem World Unit Observation
  | [] => .semV .writeLock .ret
  | ch :: rest => consolePutChar (.semP .writeDone <| putLoop rest) ch

theorem putStringLoop_eq (s : List Byte) :
    putStringLoop .ret s = putLoop (ConsoleCall.putString s).characters := by
  induction s with
  | nil => rfl
  | cons ch rest ih =>
      by_cases hch : ch = 0
      · subst hch
        rfl
      · have htake : (ch :: rest).takeWhile (· ≠ 0) = ch :: rest.takeWhile (· ≠ 0) :=
          List.takeWhile_cons_of_pos (decide_eq_true hch)
        simp only [putStringLoop, if_neg hch, ih, ConsoleCall.characters, htake, List.map_cons, putLoop]

/-- The write side of the console. -/
def outputRegion : Region Sem World Observation (Bool × Nat × Bool × List Byte) where
  sems
    | .writeLock => true
    | .writeDone => true
    | _ => false
  view world := (world.console.putBusy, world.console.writesPending, world.console.utf8,
    world.console.output)
  seen _ := false
  threads := false
  mayAbort := false

/-- The thread is about to acquire the write lock. -/
def EnterOutput (call : Option ConsoleCall) (p : Program Sem World Unit Observation) : Prop :=
  ∃ c, call = some c ∧ c.writes = true ∧ p = .semP .writeLock (putLoop c.characters)

/-- The device and its semaphore: writes that have not been finished, and finished ones that have not
been waited for. -/
structure WriteSide (utf8 : Bool) (s : ConsoleState) (pending : Nat) (finished : Int) : Prop where
  codeset : s.shared.console.utf8 = utf8
  scheduled : s.shared.console.writesPending = pending
  busy : s.shared.console.putBusy = decide (0 < pending)
  done : s.value .writeDone = finished

/-- Nobody holds the write lock. -/
structure OutputIdle (utf8 : Bool) (s : ConsoleState) : Prop where
  free : s.value .writeLock = 1
  device : WriteSide utf8 s 0 0
  output : s.shared.console.output = outputs utf8 (acquisitions .writeLock s.log)

/-- Where a thread that holds the write lock is. -/
inductive Writing (utf8 : Bool) (s : ConsoleState) (rest : List Word) :
    Program Sem World Unit Observation → Prop where
  | next (device : WriteSide utf8 s 0 0) : Writing utf8 s rest (putLoop rest)
  | started (device : WriteSide utf8 s 1 0) : Writing utf8 s rest (.semP .writeDone (putLoop rest))
  | finished (device : WriteSide utf8 s 0 1) : Writing utf8 s rest (.semP .writeDone (putLoop rest))

/-- The thread `t` is in a call `c` that holds the write lock and has written `put`. -/
structure OutputInside (utf8 : Bool) (before : List (ThreadId × ConsoleCall)) (c : ConsoleCall)
    (put rest : List Word) (t : ThreadId) (th : Interleaving.Thread Sem ConsoleCall World Unit Observation)
    (s : ConsoleState) : Prop where
  call : th.call = some c
  held : s.value .writeLock = 0
  order : acquisitions .writeLock s.log = before ++ [(t, c)]
  split : c.characters = put ++ rest
  output : s.shared.console.output = outputs utf8 before ++ put.flatMap (Console.putBytes utf8)
  code : ∃ p, th.code = some p ∧ Writing utf8 s rest p

/-- The thread `t` holds the write lock. -/
def HoldsOutput (utf8 : Bool) (t : ThreadId)
    (th : Interleaving.Thread Sem ConsoleCall World Unit Observation) (s : ConsoleState) : Prop :=
  ∃ before c put rest, OutputInside utf8 before c put rest t th s

section Congruence

variable {utf8 : Bool} {s s' : ConsoleState} (hsame : Same outputRegion s s')

include hsame

theorem WriteSide.congr {pending : Nat} {finished : Int} (h : WriteSide utf8 s pending finished) :
    WriteSide utf8 s' pending finished := by
  have hview := hsame.view
  simp only [outputRegion, Prod.mk.injEq] at hview
  obtain ⟨hbusy, hpending, hutf8, -⟩ := hview
  exact ⟨hutf8.trans h.codeset, hpending.trans h.scheduled, hbusy.trans h.busy,
    (hsame.value .writeDone rfl).trans h.done⟩

theorem output_congr : s'.shared.console.output = s.shared.console.output :=
  congrArg (fun view => view.2.2.2) hsame.view

theorem acquisitions_congr : acquisitions .writeLock s'.log = acquisitions .writeLock s.log := by
  have hguards : ∀ t c, outputRegion.guards (.passed .writeLock t c : Event Sem ConsoleCall Observation) = true :=
    fun _ _ => rfl
  rw [← acquisitions_filter hguards s'.log, ← acquisitions_filter hguards s.log, hsame.log]

theorem OutputIdle.congr (h : OutputIdle utf8 s) : OutputIdle utf8 s' where
  free := (hsame.value .writeLock rfl).trans h.free
  device := h.device.congr hsame
  output := by rw [output_congr hsame, acquisitions_congr hsame, h.output]

theorem Writing.congr {rest : List Word} {p : Program Sem World Unit Observation}
    (h : Writing utf8 s rest p) : Writing utf8 s' rest p := by
  cases h with
  | next device => exact .next (device.congr hsame)
  | started device => exact .started (device.congr hsame)
  | finished device => exact .finished (device.congr hsame)

theorem OutputInside.congr {before : List (ThreadId × ConsoleCall)} {c : ConsoleCall}
    {put rest : List Word} {t : ThreadId} {th : Interleaving.Thread Sem ConsoleCall World Unit Observation}
    (h : OutputInside utf8 before c put rest t th s) : OutputInside utf8 before c put rest t th s' where
  call := h.call
  held := (hsame.value .writeLock rfl).trans h.held
  order := (acquisitions_congr hsame).trans h.order
  split := h.split
  output := (output_congr hsame).trans h.output
  code := by
    obtain ⟨p, hp, hwriting⟩ := h.code
    exact ⟨p, hp, hwriting.congr hsame⟩

end Congruence

section Section

variable {utf8 : Bool} {input : List Byte} {table : ThreadTable} {s s' : ConsoleState} {t : ThreadId}
  {th : Interleaving.Thread Sem ConsoleCall World Unit Observation}

/-- The code of a thread that reads leaves the write side alone. -/
theorem getStringLoop_free (n : Nat) (stored : List Byte) :
    (getStringLoop (ρ := Unit) (fun _ => .ret) n stored).Free outputRegion := by
  induction n generalizing stored with
  | zero => exact ⟨rfl, trivial⟩
  | succ n ih =>
      cases n with
      | zero => exact ⟨rfl, trivial⟩
      | succ n =>
          refine ⟨rfl, ⟨fun _ _ _ => ⟨rfl, fun _ _ => rfl⟩, ?_⟩⟩
          intro t world priv
          show Program.Free outputRegion (if _ then _ else _)
          split
          · exact ⟨rfl, trivial⟩
          · exact ih _

theorem menu_output (c : ConsoleCall) :
    ((consoleSystem utf8 input table).menu c).Free outputRegion ∨
      EnterOutput (some c) ((consoleSystem utf8 input table).menu c) := by
  cases c with
  | putChar ch => exact .inr ⟨_, rfl, rfl, rfl⟩
  | putString str =>
      refine .inr ⟨_, rfl, rfl, ?_⟩
      rw [← putStringLoop_eq]
      rfl
  | getChar => exact .inl ⟨rfl, rfl, ⟨fun _ _ _ => ⟨rfl, fun _ _ => rfl⟩, fun _ _ _ => ⟨rfl, trivial⟩⟩⟩
  | getString n => exact .inl ⟨rfl, getStringLoop_free _ _⟩
  | compute => exact .inl trivial
  | fork =>
      refine .inl ⟨rfl, ?_⟩
      intro u
      cases u with
      | none => trivial
      | some u => exact ⟨rfl, trivial, trivial⟩
  | exit => exact .inl rfl

/-- What the interrupt of a poll does is not about the write side. -/
theorem readPoll_same {ready : Bool} {shared : World} {released : List Sem}
    (hhandler : consoleHandler (.readPoll ready) s.shared = some (shared, released)) :
    Same outputRegion s (afterInterrupt s shared released) := by
  simp only [consoleHandler] at hhandler
  split at hhandler
  · cases hhandler
    apply Same.interrupt
    · exact Console.checkCharAvail_write ready s.shared.console
    · intro x hx
      split at hx
      · rw [List.mem_singleton.mp hx]
        rfl
      · cases hx
  · cases hhandler

theorem WriteSide.finish {released : List Sem} {shared : World}
    (hhandler : consoleHandler .writeDone s.shared = some (shared, released)) :
    0 < s.shared.console.writesPending ∧ shared = { s.shared with console := s.shared.console.writeDone } ∧
      released = [.writeDone] := by
  simp only [consoleHandler] at hhandler
  split at hhandler
  · cases hhandler
    exact ⟨‹_›, rfl, rfl⟩
  · cases hhandler

theorem OutputIdle.interrupt {i : ConsoleInterrupt} {shared : World} {released : List Sem}
    (h : OutputIdle utf8 s) (hhandler : consoleHandler i s.shared = some (shared, released)) :
    OutputIdle utf8 (afterInterrupt s shared released) := by
  cases i with
  | readPoll ready => exact h.congr (readPoll_same hhandler)
  | writeDone =>
      obtain ⟨hpending, -, -⟩ := WriteSide.finish hhandler
      rw [h.device.scheduled] at hpending
      exact absurd hpending (lt_irrefl 0)

theorem Writing.interrupt {rest : List Word} {p : Program Sem World Unit Observation}
    (h : Writing utf8 s rest p) (hpending : 0 < s.shared.console.writesPending) :
    Writing utf8 (afterInterrupt s { s.shared with console := s.shared.console.writeDone } [.writeDone])
      rest p := by
  cases h with
  | next device =>
      rw [device.scheduled] at hpending
      exact absurd hpending (lt_irrefl 0)
  | started device =>
      refine .finished ⟨device.codeset, ?_, rfl, ?_⟩
      · show s.shared.console.writesPending - 1 = 0
        rw [device.scheduled]
      · show Function.update s.value .writeDone (s.value .writeDone + 1) .writeDone = 1
        rw [Function.update_self, device.done]
        rfl
  | finished device =>
      rw [device.scheduled] at hpending
      exact absurd hpending (lt_irrefl 0)

theorem OutputInside.interrupt {i : ConsoleInterrupt} {shared : World} {released : List Sem}
    {before : List (ThreadId × ConsoleCall)} {c : ConsoleCall} {put rest : List Word}
    (h : OutputInside utf8 before c put rest t th s)
    (hhandler : consoleHandler i s.shared = some (shared, released)) :
    OutputInside utf8 before c put rest t th (afterInterrupt s shared released) := by
  cases i with
  | readPoll ready => exact h.congr (readPoll_same hhandler)
  | writeDone =>
      obtain ⟨hpending, rfl, rfl⟩ := WriteSide.finish hhandler
      obtain ⟨p, hp, hwriting⟩ := h.code
      have hlog : acquisitions .writeLock (s.log ++ [.released .writeDone none]) =
          acquisitions .writeLock s.log := by
        rw [acquisitions_append]
        exact List.append_nil _
      exact ⟨h.call, h.held, hlog.trans h.order, h.split, h.output, p, hp, hwriting.interrupt hpending⟩

/-- The thread that holds the write lock goes on. -/
theorem OutputInside.run {before : List (ThreadId × ConsoleCall)} {c : ConsoleCall} {put rest : List Word}
    {p : Program Sem World Unit Observation} (h : OutputInside utf8 before c put rest t th s)
    (ht : s.thread t = some th) (hcode : th.code = some p) (hruns : Runs (consoleSystem utf8 input table) s t th p s') :
    (∃ new put rest, s'.thread = Function.update s.thread t (some new) ∧
        OutputInside utf8 before c put rest t new s') ∨
      ∃ new, s'.thread = Function.update s.thread t (some new) ∧ OutputIdle utf8 s' ∧
        new.code = some .ret := by
  obtain ⟨q, hq, hwriting⟩ := h.code
  rw [hcode] at hq
  cases hq
  have hpassed : acquisitions .writeLock (s.log ++ [.passed .writeDone t th.call]) =
      acquisitions .writeLock s.log := by
    rw [acquisitions_append, h.call]
    exact List.append_nil _
  have hkept : Function.update s.value .writeDone (s.value .writeDone - 1) .writeLock = s.value .writeLock :=
    Function.update_of_ne (by decide) _ _
  cases hwriting with
  | next device =>
      cases rest with
      | nil =>
          -- The last character has been written: the lock is released.
          right
          change Runs _ s t th (.semV .writeLock .ret) s' at hruns
          cases hruns
          have hfree : Function.update s.value .writeLock (s.value .writeLock + 1) .writeLock = 1 := by
            rw [Function.update_self, h.held]
            rfl
          have hdone : Function.update s.value .writeLock (s.value .writeLock + 1) .writeDone = 0 := by
            rw [Function.update_of_ne (by decide)]
            exact device.done
          refine ⟨_, rfl, ⟨hfree, ⟨device.codeset, device.scheduled, device.busy, hdone⟩, ?_⟩, rfl⟩
          show s.shared.console.output = _
          rw [h.output, acquisitions_append, h.order]
          have hcomplete : put = c.characters := (h.split.trans (List.append_nil put)).symm
          rw [hcomplete]
          simp [outputs, ConsoleCall.output, acquisitions, Event.acquisition]
      | cons ch rest =>
          -- The device is not busy: the character is written.
          left
          have hidle : s.shared.console.putBusy = false := device.busy
          change Runs _ s t th (consolePutChar _ ch) s' at hruns
          cases hruns
          refine ⟨_, put ++ [ch], rest, rfl, h.call, h.held, ?_, ?_, ?_, ?_⟩
          · simpa [hidle, acquisitions] using h.order
          · rw [h.split, List.append_assoc]
            rfl
          · simp [hidle, Console.putChar, h.output, device.codeset]
          · refine ⟨.semP .writeDone (putLoop rest), ?_, .started ⟨?_, ?_, ?_, device.done⟩⟩
            · simp [hidle]
            · simp [hidle, Console.putChar, device.codeset]
            · simp [hidle, Console.putChar, device.scheduled]
            · simp [hidle, Console.putChar]
  | started device =>
      left
      cases hruns with
      | pass hvalue => exact absurd device.done hvalue
      | wait hvalue =>
          refine ⟨th, put, rest, ?_, h.call, h.held, h.order, h.split, h.output, _, hcode, ?_⟩
          · rw [← ht]
            exact (Function.update_eq_self t s.thread).symm
          · exact .started ⟨device.codeset, device.scheduled, device.busy, device.done⟩
  | finished device =>
      left
      cases hruns with
      | pass hvalue =>
          refine ⟨_, put, rest, rfl, h.call, hkept.trans h.held, hpassed.trans h.order, h.split,
            h.output, _, rfl, .next ⟨device.codeset, device.scheduled, device.busy, ?_⟩⟩
          show Function.update s.value .writeDone (s.value .writeDone - 1) .writeDone = 0
          rw [Function.update_self, device.done]
          rfl
      | wait hvalue =>
          rw [device.done] at hvalue
          cases hvalue

/-- The write lock makes the calls that write sections that exclude each other. -/
theorem output_section (utf8 : Bool) (input : List Byte) (table : ThreadTable) :
    CriticalSection (consoleSystem utf8 input table) outputRegion .writeLock EnterOutput (OutputIdle utf8)
      (HoldsOutput utf8) where
  menu := menu_output
  entry := by
    rintro call p ⟨c, -, -, rfl⟩
    exact ⟨_, rfl⟩
  idle_congr s s' hsame h := h.congr hsame
  inside_congr := by
    rintro s s' t th hsame ⟨before, c, put, rest, h⟩
    exact ⟨before, c, put, rest, h.congr hsame⟩
  closed := by
    rintro s t th ⟨before, c, put, rest, h⟩
    obtain ⟨p, hp, -⟩ := h.code
    exact ⟨h.held, by simp [hp]⟩
  enter := by
    rintro s t th k h ⟨c, hcall, hwrites, heq⟩ hvalue
    cases heq
    refine ⟨acquisitions .writeLock s.log, c, [], c.characters, hcall, ?_, ?_, rfl, ?_, _, rfl, .next ?_⟩
    · show Function.update s.value .writeLock (s.value .writeLock - 1) .writeLock = 0
      rw [Function.update_self, h.free]
      rfl
    · show acquisitions .writeLock (s.log ++ [.passed .writeLock t th.call]) = _
      rw [acquisitions_append, hcall]
      rfl
    · exact h.output.trans (List.append_nil _).symm
    · refine ⟨h.device.codeset, h.device.scheduled, h.device.busy, ?_⟩
      have hkept : Function.update s.value .writeLock (s.value .writeLock - 1) .writeDone = s.value .writeDone :=
        Function.update_of_ne (by decide) _ _
      exact hkept.trans h.device.done
  inside := by
    rintro s s' t th p ⟨before, c, put, rest, h⟩ ht hcode hruns
    rcases h.run ht hcode hruns with ⟨new, put', rest', hthread, hinside⟩ | ⟨new, hthread, hidle, hret⟩
    · exact inside_of_setThread hthread (.inl ⟨before, c, put', rest', hinside⟩)
    · exact inside_of_setThread hthread (.inr ⟨hidle, .of_free hret trivial⟩)
  interrupt s i shared released hhandler := by
    refine ⟨fun h => h.interrupt hhandler, ?_⟩
    rintro t th ⟨before, c, put, rest, h⟩
    exact ⟨before, c, put, rest, h.interrupt hhandler⟩

theorem output_idle (utf8 : Bool) (input : List Byte) (table : ThreadTable) :
    OutputIdle utf8 (Interleaving.initial (consoleSystem utf8 input table)) :=
  ⟨rfl, ⟨rfl, rfl, rfl, rfl⟩, rfl⟩

end Section

/-- A thread that has come through `Console::PutChar` to the end of the call. -/
theorem follows_consolePutChar {κ ρ : Type} {t : ThreadId} {call : Option κ} {ch : Word} {r r' : ρ}
    {k : Program Sem World ρ Observation} {events : List (Event Sem κ Observation)}
    (h : Follows t call (consolePutChar k ch) r events .ret r') : Follows t call k r events .ret r' := by
  cases h with
  | act shared h =>
      simp only [List.map_nil, List.nil_append]
      by_cases hbusy : shared.console.putBusy = true
      · simp only [hbusy, if_true] at h
        cases h
      · simpa [hbusy] using h

/-- A call that writes passes the lock, waits for the device once for each character, and releases
the lock. -/
theorem follows_putLoop {t : ThreadId} {call : Option ConsoleCall} {characters : List Word}
    {events : List (Event Sem ConsoleCall Observation)}
    (h : Follows t call (putLoop characters) () events .ret ()) :
    events = List.replicate characters.length (.passed .writeDone t call) ++
      [.released .writeLock (some t)] := by
  induction characters generalizing events with
  | nil =>
      cases h with
      | semV h =>
          cases h
          rfl
  | cons ch rest ih =>
      cases follows_consolePutChar h with
      | semP h =>
          rw [ih h]
          rfl

/-- What a call that writes leaves in the history. -/
def ConsoleCall.writeTrace (c : ConsoleCall) (t : ThreadId) : List (Event Sem ConsoleCall Observation) :=
  .passed .writeLock t (some c) :: (List.replicate c.characters.length (.passed .writeDone t (some c)) ++
    [.released .writeLock (some t)])

theorem ConsoleCall.acquisitions_writeTrace (c : ConsoleCall) (t : ThreadId) :
    acquisitions .writeLock (c.writeTrace t) = [(t, c)] := by
  have hdone : acquisitions .writeLock (List.replicate c.characters.length
      (.passed .writeDone t (some c) : Event Sem ConsoleCall Observation)) = [] := by
    apply List.filterMap_eq_nil_iff.mpr
    intro e he
    rw [List.eq_of_mem_replicate he]
    rfl
  show (t, c) :: acquisitions Sem.writeLock (List.replicate _ _ ++ [.released .writeLock (some t)]) = _
  rw [acquisitions_append, hdone]
  rfl

/-- The output of a `SynchConsole` in a state of the kernel. -/
structure SerialOutput (system : ThreadSystem Sem ConsoleCall ConsoleInterrupt World Unit Observation)
    (utf8 : Bool) (s : Kernel Sem ConsoleCall World Unit Observation) : Prop where
  /-- The assertion of `Console::PutChar` does not fail. -/
  ready : ∀ choice, s.step system choice ≠ some (.error .client)
  /-- While nobody holds the lock the output is that of the calls that have had it, one after another. -/
  free : (s.sem .writeLock).value ≠ 0 →
    s.shared.console.output = outputs utf8 (acquisitions .writeLock s.log)
  /-- While a call holds the lock the output ends with the first part of its own. -/
  held : (s.sem .writeLock).value = 0 → ∃ before t c put rest,
    acquisitions .writeLock s.log = before ++ [(t, c)] ∧ (s.thread t).bind Thread.call = some c ∧
      c.characters = put ++ rest ∧
      s.shared.console.output = outputs utf8 before ++ put.flatMap (Console.putBytes utf8)
  /-- A call that is about to return has waited once for each of its characters, its output is complete,
  and if the device is busy then for another thread, which holds the lock. -/
  returning : ∀ t th c, s.thread t = some th → th.kont = .run .ret → th.call = some c → c.writes = true →
    sinceCall t s.log = c.writeTrace t ∧
    (∃ before after, acquisitions .writeLock s.log = before ++ (t, c) :: after ∧ (∀ a ∈ after, a.1 ≠ t) ∧
      outputs utf8 before ++ c.output utf8 <+: s.shared.console.output) ∧
    (s.shared.console.putBusy = true → ∃ before u d,
      acquisitions .writeLock s.log = before ++ [(u, d)] ∧ u ≠ t ∧ (s.sem .writeLock).value = 0)

theorem follows_write {utf8 : Bool} {input : List Byte} {table : ThreadTable} {t : ThreadId}
    {c : ConsoleCall} (hwrites : c.writes = true) {events : List (Event Sem ConsoleCall Observation)}
    (h : Follows t (some c) ((consoleSystem utf8 input table).menu c) () events .ret ()) :
    events = c.writeTrace t := by
  have hmenu : (consoleSystem utf8 input table).menu c = .semP .writeLock (putLoop c.characters) := by
    cases c with
    | putChar ch => rfl
    | putString str =>
        rw [← putStringLoop_eq]
        rfl
    | _ => cases hwrites
  rw [hmenu] at h
  cases h with
  | semP h =>
      rw [follows_putLoop h]
      rfl

section Reachable

variable {utf8 : Bool} {input : List Byte} {table : ThreadTable} {t : ThreadId}
  {th : Interleaving.Thread Sem ConsoleCall World Unit Observation}

/-- The write lock in a state of an interleaving. -/
abbrev OutputExclusive (utf8 : Bool) (s : ConsoleState) : Prop :=
  Exclusive outputRegion EnterOutput (OutputIdle utf8) (HoldsOutput utf8) s

variable {s : ConsoleState}

theorem Writing.code_ne {rest : List Word} {p : Program Sem World Unit Observation}
    (h : Writing utf8 s rest p) : p ≠ .abort ∧ p ≠ .ret := by
  cases h with
  | next device =>
      cases rest with
      | nil => exact ⟨nofun, nofun⟩
      | cons ch rest => exact ⟨nofun, nofun⟩
  | started device => exact ⟨nofun, nofun⟩
  | finished device => exact ⟨nofun, nofun⟩

theorem OutputExclusive.code_ne_abort (h : OutputExclusive utf8 s) (ht : s.thread t = some th) :
    th.code ≠ some .abort := by
  have houtside : Outside outputRegion EnterOutput th → th.code ≠ some .abort := by
    intro hout habort
    rcases hout _ habort with hfree | ⟨c, -, -, heq⟩
    · cases hfree
    · cases heq
  rcases h with ⟨-, hout⟩ | ⟨u, inner, hu, ⟨before, c, put, rest, hinside⟩, hout⟩
  · exact houtside (hout t th ht)
  · by_cases htu : t = u
    · subst htu
      rw [hu] at ht
      cases ht
      obtain ⟨p, hp, hwriting⟩ := hinside.code
      intro habort
      rw [hp] at habort
      cases habort
      exact hwriting.code_ne.1 rfl
    · exact houtside (hout t th htu ht)

/-- The sections of the calls that have returned are complete. -/
theorem OutputExclusive.complete (h : OutputExclusive utf8 s) (ht : s.thread t = some th)
    (hcode : th.code = some .ret) {before after : List (ThreadId × ConsoleCall)} {c : ConsoleCall}
    (horder : acquisitions .writeLock s.log = before ++ (t, c) :: after) :
    outputs utf8 before ++ c.output utf8 <+: s.shared.console.output ∧
      (s.shared.console.putBusy = true → ∃ before u d,
        acquisitions .writeLock s.log = before ++ [(u, d)] ∧ u ≠ t ∧ s.value .writeLock = 0) := by
  rcases h with ⟨hidle, -⟩ | ⟨u, inner, hu, ⟨done, d, put, rest, hinside⟩, -⟩
  · constructor
    · rw [hidle.output, horder]
      exact ⟨outputs utf8 after, by simp [outputs]⟩
    · intro hbusy
      rw [hidle.device.busy] at hbusy
      cases hbusy
  · have hne : u ≠ t := by
      rintro rfl
      rw [hu] at ht
      cases ht
      obtain ⟨p, hp, hwriting⟩ := hinside.code
      rw [hp] at hcode
      cases hcode
      exact hwriting.code_ne.2 rfl
    refine ⟨?_, fun _ => ⟨done, u, d, hinside.order, hne, hinside.held⟩⟩
    -- The call that holds the lock came later, so that this one is among those before it.
    have horder' := horder.symm.trans hinside.order
    obtain ⟨rest', hafter⟩ : ∃ rest', (t, c) :: after = (t, c) :: (rest' ++ [(u, d)]) := by
      rcases List.eq_nil_or_concat after with rfl | ⟨rest', last, rfl⟩
      · have hlast := congrArg List.getLast? horder'
        simp only [List.getLast?_append, List.getLast?_singleton, Option.some_or, Option.some.injEq,
          Prod.mk.injEq] at hlast
        exact absurd hlast.1.symm hne
      · have hlast := congrArg List.getLast? horder'
        simp only [List.concat_eq_append, ← List.cons_append, ← List.append_assoc, List.getLast?_append,
          List.getLast?_singleton, Option.some_or, Option.some.injEq] at hlast
        exact ⟨rest', by rw [hlast, List.concat_eq_append]⟩
    rw [hafter, ← List.cons_append, ← List.append_assoc] at horder'
    have hdone := List.append_cancel_right horder'
    rw [hinside.output, ← hdone]
    exact ⟨outputs utf8 rest' ++ put.flatMap (Console.putBytes utf8), by simp [outputs]⟩

end Reachable

/-- The calls that write to a `SynchConsole` do so one after another, in the order in which they
acquire the write lock. -/
theorem console_output_serial {utf8 space : Bool} {input : List Byte} {table : ThreadTable}
    {s : Kernel Sem ConsoleCall World Unit Observation}
    (h : (kernel (consoleSystem utf8 input table) space).Reachable s) :
    SerialOutput (consoleSystem utf8 input table) utf8 s := by
  have habstract := Kernel.reachable_abstraction (.inr inferInstance) h
  have hexclusive : OutputExclusive utf8 s.abstraction :=
    (output_section utf8 input table).reachable (output_idle utf8 input table) habstract
  have horder : acquisitions .writeLock s.abstraction.log = acquisitions .writeLock s.log :=
    Kernel.acquisitions_abstraction .writeLock s
  refine ⟨?_, ?_, ?_, ?_⟩
  · intro choice hstep
    obtain ⟨th, hth, habort⟩ := Kernel.client_fault h hstep
    exact hexclusive.code_ne_abort hth habort
  · intro hvalue
    rcases hexclusive with ⟨hidle, -⟩ | ⟨u, inner, hu, ⟨before, c, put, rest, hinside⟩, -⟩
    · rw [← horder]
      exact hidle.output
    · exact absurd hinside.held hvalue
  · intro hvalue
    rcases hexclusive with ⟨hidle, -⟩ | ⟨u, inner, hu, ⟨before, c, put, rest, hinside⟩, -⟩
    · have hone : (s.sem .writeLock).value = 1 := hidle.free
      omega
    · refine ⟨before, u, c, put, rest, horder.symm.trans hinside.order, ?_, hinside.split, hinside.output⟩
      rw [Kernel.abstraction_call hu, hinside.call]
  · intro t th c hth hkont hcall hwrites
    obtain ⟨new, hnew, hret, hnewcall, -⟩ := Kernel.abstraction_running hth hkont
    obtain ⟨p, r, hp, hpath⟩ := reachable_onPath habstract t new hnew c (hnewcall.trans hcall)
    rw [hret] at hp
    cases hp
    have htrace := follows_write hwrites hpath
    rw [Kernel.sinceCall_abstraction] at htrace
    have hlast : acquisitions .writeLock (sinceCall t s.log) = [(t, c)] := by
      rw [htrace]
      exact c.acquisitions_writeTrace t
    obtain ⟨before, after, hacquired, hafter⟩ := last_acquisition hlast
    obtain ⟨hcomplete, hbusy⟩ := hexclusive.complete hnew hret (horder.trans hacquired)
    rw [horder] at hbusy
    exact ⟨htrace, ⟨before, after, hacquired, hafter, hcomplete⟩, hbusy⟩

/-- A run with two threads: the second asks for the lock while the device is busy for the first, and
has it when the first is about to return. -/
def twoWritersRun : List (Choice ConsoleCall ConsoleInterrupt Unit) :=
  [.call .fork, .alloc 2 (), .exec, .resume, .exec, .call (.putString [104, 105]), .exec, .resume, .exec,
    .exec, .resume, .call (.putChar 33), .exec, .interrupt .writeDone, .dispatch, .exec, .resume, .exec,
    .exec, .interrupt .writeDone, .dispatch, .exec, .resume, .exec, .preempt, .exec, .resume, .exec, .exec,
    .resume]

theorem console_output_serial_twoWriters :
    ∃ s, Kernel.runChoices (consoleSystem false [] (.new fun _ => 0)) twoWritersRun
        (Kernel.initial (consoleSystem false [] (.new fun _ => 0)) false) = some s ∧
      s.shared.console.output = [104, 105, 33] ∧ s.shared.console.putBusy = true ∧
      SerialOutput (consoleSystem false [] (.new fun _ => 0)) false s := by
  obtain ⟨s, hrun, houtput, hbusy⟩ : ∃ s,
      Kernel.runChoices (consoleSystem false [] (.new fun _ => 0)) twoWritersRun
        (Kernel.initial (consoleSystem false [] (.new fun _ => 0)) false) = some s ∧
      s.shared.console.output = [104, 105, 33] ∧ s.shared.console.putBusy = true := ⟨_, rfl, rfl, rfl⟩
  have hinit : (kernel (consoleSystem false [] (.new fun _ => 0)) false).Reachable (Kernel.initial _ false) :=
    .init rfl
  exact ⟨s, hrun, houtput, hbusy, console_output_serial (Kernel.reachable_runChoices hinit hrun)⟩

end Nachos

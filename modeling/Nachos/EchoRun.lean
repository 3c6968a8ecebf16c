import Nachos.Echo

/-! The console on which a program is alone, with `Console.synchGetChar` and the others, is what the programs of
`consoleSystem` make of the console when no other thread runs and each interrupt arrives when it is waited for. -/

namespace Nachos

open Interleaving

/-- The event shows a call, or a character that a call has obtained. -/
def copyEvent : Event Sem ConsoleCall Observation → Bool
  | .called _ _ => true
  | .observed _ (.got _) => true
  | _ => false

/-- From the state `s` the thread `t` gets to the program `p` in its call, with these values of the semaphores and this
console, and leaves these calls and characters. -/
structure Gets (utf8 : Bool) (input : List Byte) (table : ThreadTable) (s : ConsoleState) (t : ThreadId)
    (p : Program Sem World Unit Observation) (current : Option ConsoleCall) (value : Sem → Int) (c : Console)
    (log : List (Event Sem ConsoleCall Observation)) (s' : ConsoleState) : Prop where
  steps : Relation.ReflTransGen (Interleaving.Step (consoleSystem utf8 input table)) s s'
  halted : s'.halted = false
  cpu : s'.cpu = none ∨ s'.cpu = some t
  thread : s'.thread t = some ⟨some p, (), current⟩
  value : s'.value = value
  console : s'.shared.console = c
  log : s'.log.filter copyEvent = log

/-- The value that a user program gets for a character. -/
def charOf (v : Word) : Word := (v.setWidth 8 : Byte).signExtend 32

/-- The calls of a program that copies characters, with the characters that it obtains. -/
inductive CopiesChars (t : ThreadId) : List (Event Sem ConsoleCall Observation) → Prop where
  | last {v : Word} (heof : charOf v = eof) : CopiesChars t [.called t .getChar, .observed t (.got v)]
  | copy {v : Word} {rest : List (Event Sem ConsoleCall Observation)} (hchar : charOf v ≠ eof)
      (hrest : CopiesChars t rest) :
      CopiesChars t (.called t .getChar :: .observed t (.got v) :: .called t (.putChar (charOf v)) :: rest)

/-- The calls of a program that copies lines through a buffer of `n` bytes. -/
inductive CopiesLines (t : ThreadId) (n : Nat) : List (Event Sem ConsoleCall Observation) → Prop where
  | nil : CopiesLines t n []
  | line {values : List Word} {rest : List (Event Sem ConsoleCall Observation)} (hrest : CopiesLines t n rest) :
      CopiesLines t n (.called t (.getString n) :: (values.map (fun v => .observed t (.got v)) ++
        .called t (.putString (values.map (BitVec.setWidth 8))) :: rest))

/-- The console polls its input and is not writing. -/
structure Quiet (c : Console) : Prop where
  polls : c.pollPending = true
  idle : c.putBusy = false

section Alone

variable {utf8 : Bool} {input : List Byte} {table : ThreadTable} {s s' : ConsoleState} {t : ThreadId}
  {current : Option ConsoleCall} {value : Sem → Int} {c c' : Console} {p k : Program Sem World Unit Observation}
  {log : List (Event Sem ConsoleCall Observation)}

namespace Gets

/-- The thread has the processor. -/
theorem take (h : Gets utf8 input table s t p current value c log s') :
    ∃ s', Gets utf8 input table s t p current value c log s' ∧ s'.cpu = some t := by
  rcases h.cpu with hfree | hown
  · exact ⟨{ s' with cpu := some t }, ⟨h.steps.tail (.take t _ h.halted hfree h.thread fun heq => by cases heq), h.halted,
      .inr rfl, h.thread, h.value, h.console, h.log⟩, rfl⟩
  · exact ⟨s', h, hown⟩

theorem filter_append_event {e : Event Sem ConsoleCall Observation} (he : copyEvent e = false) :
    (s.log ++ [e]).filter copyEvent = s.log.filter copyEvent := by
  rw [List.filter_append, List.filter_singleton, he]
  exact List.append_nil _

theorem filter_append_copy {e : Event Sem ConsoleCall Observation} (he : copyEvent e = true) :
    (s.log ++ [e]).filter copyEvent = s.log.filter copyEvent ++ [e] := by
  rw [List.filter_append, List.filter_singleton, he]
  rfl

theorem pass {x : Sem} (h : Gets utf8 input table s t (.semP x k) current value c log s') (hvalue : value x ≠ 0) :
    ∃ s', Gets utf8 input table s t k current (Function.update value x (value x - 1)) c log s' := by
  obtain ⟨s', ⟨hs', hhalted, -, hthread, rfl, rfl, rfl⟩, hcpu⟩ := h.take
  exact ⟨_, hs'.tail (.run hhalted hcpu hthread rfl (.pass hvalue)), hhalted, .inl rfl, Function.update_self _ _ _, rfl,
    rfl, filter_append_event rfl⟩

theorem wait {x : Sem} (h : Gets utf8 input table s t (.semP x k) current value c log s') (hvalue : value x = 0) :
    ∃ s', Gets utf8 input table s t (.semP x k) current value c log s' ∧ s'.cpu = none := by
  obtain ⟨s', ⟨hs', hhalted, -, hthread, rfl, rfl, rfl⟩, hcpu⟩ := h.take
  exact ⟨_, ⟨hs'.tail (.run hhalted hcpu hthread rfl (.wait hvalue)), hhalted, .inl rfl, hthread, rfl, rfl, rfl⟩, rfl⟩

theorem release {x : Sem} (h : Gets utf8 input table s t (.semV x k) current value c log s') :
    ∃ s', Gets utf8 input table s t k current (Function.update value x (value x + 1)) c log s' := by
  obtain ⟨s', ⟨hs', hhalted, -, hthread, rfl, rfl, rfl⟩, hcpu⟩ := h.take
  exact ⟨_, hs'.tail (.run hhalted hcpu hthread rfl .release), hhalted, .inl rfl, Function.update_self _ _ _, rfl, rfl,
    filter_append_event rfl⟩

theorem getChar {kc : Word → Program Sem World Unit Observation}
    (h : Gets utf8 input table s t (consoleGetChar kc) current value c log s') :
    ∃ s', Gets utf8 input table s t (kc c.getChar.2) current value c.getChar.1
      (log ++ [.observed t (.got c.getChar.2)]) s' := by
  obtain ⟨s', ⟨hs', hhalted, -, hthread, rfl, rfl, rfl⟩, hcpu⟩ := h.take
  exact ⟨_, hs'.tail (.run hhalted hcpu hthread rfl .act), hhalted, .inr hcpu, Function.update_self _ _ _, rfl, rfl,
    filter_append_copy rfl⟩

theorem putChar {ch : Word} (h : Gets utf8 input table s t (consolePutChar k ch) current value c log s')
    (hidle : c.putBusy = false) : ∃ s', Gets utf8 input table s t k current value (c.putChar ch) log s' := by
  obtain ⟨s', ⟨hs', hhalted, -, hthread, rfl, rfl, rfl⟩, hcpu⟩ := h.take
  refine ⟨_, hs'.tail (.run hhalted hcpu hthread rfl .act), hhalted, .inr hcpu, ?_, rfl, ?_, ?_⟩
  · refine (Function.update_self _ _ _).trans ?_
    simp [hidle]
  · simp [hidle]
  · exact congrArg (List.filter copyEvent) (List.append_nil _)

theorem call (h : Gets utf8 input table s t .ret none value c log s') (cc : ConsoleCall) :
    ∃ s', Gets utf8 input table s t ((consoleSystem utf8 input table).menu cc) (some cc) value c
      (log ++ [.called t cc]) s' := by
  obtain ⟨s', ⟨hs', hhalted, -, hthread, rfl, rfl, rfl⟩, hcpu⟩ := h.take
  exact ⟨_, hs'.tail (.run hhalted hcpu hthread rfl (.call cc rfl)), hhalted, .inr hcpu, Function.update_self _ _ _, rfl,
    rfl, filter_append_copy rfl⟩

theorem «return» {cc : ConsoleCall} (h : Gets utf8 input table s t .ret (some cc) value c log s') :
    ∃ s', Gets utf8 input table s t .ret none value c log s' := by
  obtain ⟨s', ⟨hs', hhalted, -, hthread, rfl, rfl, rfl⟩, hcpu⟩ := h.take
  exact ⟨_, hs'.tail (.run hhalted hcpu hthread rfl (.return cc rfl)), hhalted, .inr hcpu, Function.update_self _ _ _,
    rfl, rfl, filter_append_event rfl⟩

/-- A poll that calls the handler arrives. -/
theorem readPoll (h : Gets utf8 input table s t p current value c log s') (hcpu : s'.cpu = none) (hquiet : Quiet c)
    (hpoll : c.checkCharAvail true = (c', true)) :
    ∃ s', Gets utf8 input table s t p current (Function.update value .readAvail (value .readAvail + 1)) c' log s' := by
  obtain ⟨hs', hhalted, -, hthread, rfl, rfl, rfl⟩ := h
  have hhandler : (consoleSystem utf8 input table).handler (.readPoll true) s'.shared =
      some ({ s'.shared with console := c' }, [.readAvail]) := by
    simp [consoleSystem, consoleHandler, hquiet.polls, hpoll]
  exact ⟨_, hs'.tail (.interrupt (.readPoll true) _ _ hhalted hcpu hhandler), hhalted, .inl hcpu, hthread, rfl, rfl,
    filter_append_event rfl⟩

/-- The end of a write arrives. -/
theorem writeDone (h : Gets utf8 input table s t p current value c log s') (hcpu : s'.cpu = none)
    (hpending : 0 < c.writesPending) :
    ∃ s', Gets utf8 input table s t p current (Function.update value .writeDone (value .writeDone + 1)) c.writeDone log
      s' := by
  obtain ⟨hs', hhalted, -, hthread, rfl, rfl, rfl⟩ := h
  have hhandler : (consoleSystem utf8 input table).handler .writeDone s'.shared =
      some ({ s'.shared with console := s'.shared.console.writeDone }, [.writeDone]) := if_pos hpending
  exact ⟨_, hs'.tail (.interrupt .writeDone _ _ hhalted hcpu hhandler), hhalted, .inl hcpu, hthread, rfl, rfl,
    filter_append_event rfl⟩

end Gets

theorem Quiet.synchGetChar (h : Quiet c) {v : Word} (hget : c.synchGetChar = some (v, c')) : Quiet c' := by
  unfold Console.synchGetChar at hget
  cases hpoll : c.checkCharAvail true with
  | mk d calls =>
      rw [hpoll] at hget
      cases calls with
      | false => cases hget
      | true =>
          obtain ⟨rfl, rfl⟩ := Prod.mk.inj (Option.some.inj hget)
          have hwrite := c.checkCharAvail_write true
          have hpolls : (c.checkCharAvail true).2 = true →
              (c.checkCharAvail true).1.pollPending = c.pollPending := by
            unfold Console.checkCharAvail
            repeat' split
            all_goals intro hcalls
            all_goals first
              | rfl
              | cases hcalls
          rw [hpoll] at hwrite hpolls
          exact ⟨(hpolls rfl).trans h.polls, (Prod.mk.inj hwrite).1.trans h.idle⟩

theorem Quiet.synchPutChar (h : Quiet c) (ch : Word) : Quiet (c.synchPutChar ch) := ⟨h.polls, rfl⟩

theorem update_undo {value : Sem → Int} {x : Sem} {v w : Int} (h : w = value x) :
    Function.update (Function.update value x v) x w = value := by
  rw [Function.update_idem, h, Function.update_eq_self]

namespace Gets

/-- A character is delivered by a poll and read. -/
theorem nextChar {kc : Word → Program Sem World Unit Observation}
    (h : Gets utf8 input table s t (.semP .readAvail (consoleGetChar kc)) current value c log s')
    (havail : value .readAvail = 0) (hquiet : Quiet c) {v : Word} (hget : c.synchGetChar = some (v, c')) :
    ∃ s', Gets utf8 input table s t (kc v) current value c' (log ++ [.observed t (.got v)]) s' := by
  unfold Console.synchGetChar at hget
  cases hpoll : c.checkCharAvail true with
  | mk d calls =>
      rw [hpoll] at hget
      cases calls with
      | false => cases hget
      | true =>
          obtain ⟨rfl, rfl⟩ := Prod.mk.inj (Option.some.inj hget)
          obtain ⟨s₁, h₁, hcpu⟩ := h.wait havail
          obtain ⟨s₂, h₂⟩ := h₁.readPoll hcpu hquiet hpoll
          obtain ⟨s₃, h₃⟩ := h₂.pass (by simp [havail])
          rw [update_undo (by simp)] at h₃
          exact h₃.getChar

/-- A character is written, and its write ends. -/
theorem nextWrite {ch : Word}
    (h : Gets utf8 input table s t (consolePutChar (.semP .writeDone k) ch) current value c log s')
    (hdone : value .writeDone = 0) (hquiet : Quiet c) :
    ∃ s', Gets utf8 input table s t k current value (c.synchPutChar ch) log s' := by
  obtain ⟨s₁, h₁⟩ := h.putChar hquiet.idle
  obtain ⟨s₂, h₂, hcpu⟩ := h₁.wait hdone
  obtain ⟨s₃, h₃⟩ := h₂.writeDone hcpu (Nat.succ_pos _)
  obtain ⟨s₄, h₄⟩ := h₃.pass (by simp [hdone])
  rw [update_undo (by simp)] at h₄
  exact ⟨s₄, h₄⟩

/-- The loop of `SynchGetString` stores the characters that it obtains. -/
theorem getStringLoop {ks : List Byte → Program Sem World Unit Observation} (n : Nat) {stored line : List Byte}
    (h : Gets utf8 input table s t (getStringLoop ks n stored) current value c log s') (havail : value .readAvail = 0)
    (hquiet : Quiet c) (hget : c.synchGetString n = some (line, c')) :
    ∃ (values : List Word) (s' : ConsoleState), values.map (BitVec.setWidth 8) = line ∧ Quiet c' ∧
      Gets utf8 input table s t (.semV .readLock (ks (stored ++ line))) current value c'
        (log ++ values.map fun v => .observed t (.got v)) s' := by
  induction n generalizing c stored line log s' with
  | zero =>
      obtain ⟨rfl, rfl⟩ := Prod.mk.inj (Option.some.inj hget)
      rw [List.append_nil]
      exact ⟨[], s', rfl, hquiet, by rwa [List.map_nil, List.append_nil]⟩
  | succ n ih =>
      cases n with
      | zero =>
          obtain ⟨rfl, rfl⟩ := Prod.mk.inj (Option.some.inj hget)
          rw [List.append_nil]
          exact ⟨[], s', rfl, hquiet, by rwa [List.map_nil, List.append_nil]⟩
      | succ n =>
          obtain ⟨⟨v, d⟩, hchar, hrest⟩ := Option.bind_eq_some_iff.mp hget
          obtain ⟨s₁, hnext⟩ := h.nextChar havail hquiet hchar
          have hquiet' := hquiet.synchGetChar hchar
          simp only at hrest
          split at hrest
          · next hnewline =>
            rw [if_pos hnewline] at hnext
            obtain ⟨rfl, rfl⟩ := Prod.mk.inj (Option.some.inj hrest)
            exact ⟨[v], s₁, rfl, hquiet', hnext⟩
          · next hother =>
            rw [if_neg hother] at hnext
            obtain ⟨⟨more, e⟩, hmore, heq⟩ := Option.bind_eq_some_iff.mp hrest
            obtain ⟨rfl, rfl⟩ := Prod.mk.inj (Option.some.inj heq)
            obtain ⟨values, s₂, hvalues, hquiet₂, hdone⟩ := ih hnext hquiet' hmore
            refine ⟨v :: values, s₂, congrArg _ hvalues, hquiet₂, ?_⟩
            rwa [List.append_assoc, List.append_assoc] at hdone

theorem putStringLoop {string : List Byte}
    (h : Gets utf8 input table s t (putStringLoop k string) current value c log s') (hdone : value .writeDone = 0)
    (hquiet : Quiet c) : Quiet (c.synchPutString string) ∧
      ∃ s', Gets utf8 input table s t (.semV .writeLock k) current value (c.synchPutString string) log s' := by
  induction string generalizing c s' with
  | nil => exact ⟨hquiet, s', h⟩
  | cons ch rest ih =>
      rw [Nachos.putStringLoop] at h
      rw [Console.synchPutString]
      split
      · next hzero =>
        rw [if_pos hzero] at h
        exact ⟨hquiet, s', h⟩
      · next hchar =>
        rw [if_neg hchar] at h
        obtain ⟨s₁, h₁⟩ := h.nextWrite hdone hquiet
        exact ih h₁ (hquiet.synchPutChar _)

section Calls

variable (h : Gets utf8 input table s t .ret none (consoleSystem utf8 input table).initialValue c log s')
  (hquiet : Quiet c)

include h hquiet

theorem getChar_call {v : Word} (hget : c.synchGetChar = some (v, c')) :
    ∃ s', Gets utf8 input table s t .ret none (consoleSystem utf8 input table).initialValue c'
      (log ++ [.called t .getChar, .observed t (.got v)]) s' := by
  obtain ⟨s₁, h₁⟩ := h.call .getChar
  obtain ⟨s₂, h₂⟩ := Gets.pass h₁ (show (1 : Int) ≠ 0 by decide)
  obtain ⟨s₃, h₃⟩ := h₂.nextChar rfl hquiet hget
  obtain ⟨s₄, h₄⟩ := h₃.release
  rw [update_undo (by simp), List.append_assoc] at h₄
  exact h₄.return

theorem putChar_call (ch : Word) :
    ∃ s', Gets utf8 input table s t .ret none (consoleSystem utf8 input table).initialValue (c.synchPutChar ch)
      (log ++ [.called t (.putChar ch)]) s' := by
  obtain ⟨s₁, h₁⟩ := h.call (.putChar ch)
  obtain ⟨s₂, h₂⟩ := Gets.pass h₁ (show (1 : Int) ≠ 0 by decide)
  obtain ⟨s₃, h₃⟩ := h₂.nextWrite rfl hquiet
  obtain ⟨s₄, h₄⟩ := h₃.release
  rw [update_undo (by simp)] at h₄
  exact h₄.return

theorem getString_call {n : Nat} {line : List Byte} (hget : c.synchGetString n = some (line, c')) :
    ∃ (values : List Word) (s' : ConsoleState), values.map (BitVec.setWidth 8) = line ∧ Quiet c' ∧
      Gets utf8 input table s t .ret none (consoleSystem utf8 input table).initialValue c'
        (log ++ .called t (.getString n) :: values.map fun v => .observed t (.got v)) s' := by
  obtain ⟨s₁, h₁⟩ := h.call (.getString n)
  obtain ⟨s₂, h₂⟩ := Gets.pass h₁ (show (1 : Int) ≠ 0 by decide)
  rw [Int.toNat_natCast] at h₂
  obtain ⟨values, s₃, hvalues, hquiet', h₃⟩ := h₂.getStringLoop n rfl hquiet hget
  obtain ⟨s₄, h₄⟩ := h₃.release
  rw [update_undo (by simp), List.append_assoc] at h₄
  obtain ⟨s₅, h₅⟩ := h₄.return
  exact ⟨values, s₅, hvalues, hquiet', h₅⟩

theorem putString_call (string : List Byte) : Quiet (c.synchPutString string) ∧
    ∃ s', Gets utf8 input table s t .ret none (consoleSystem utf8 input table).initialValue (c.synchPutString string)
      (log ++ [.called t (.putString string)]) s' := by
  obtain ⟨s₁, h₁⟩ := h.call (.putString string)
  obtain ⟨s₂, h₂⟩ := Gets.pass h₁ (show (1 : Int) ≠ 0 by decide)
  obtain ⟨hquiet', s₃, h₃⟩ := h₂.putStringLoop rfl hquiet
  obtain ⟨s₄, h₄⟩ := h₃.release
  rw [update_undo (by simp)] at h₄
  exact ⟨hquiet', h₄.return⟩

end Calls

theorem echoChars (h : Gets utf8 input table s t .ret none (consoleSystem utf8 input table).initialValue c log s')
    (hquiet : Quiet c) {fuel : Nat} (hecho : c.echoChars fuel = some c') :
    ∃ (more : List (Event Sem ConsoleCall Observation)) (s' : ConsoleState), CopiesChars t more ∧
      Gets utf8 input table s t .ret none (consoleSystem utf8 input table).initialValue c' (log ++ more) s' := by
  induction fuel generalizing c log s' with
  | zero => cases hecho
  | succ fuel ih =>
      obtain ⟨⟨v, d⟩, hget, hrest⟩ := Option.bind_eq_some_iff.mp hecho
      obtain ⟨s₁, h₁⟩ := h.getChar_call hquiet hget
      have hquiet₁ := hquiet.synchGetChar hget
      simp only at hrest
      split at hrest
      · next heof =>
        obtain rfl := Option.some.inj hrest
        exact ⟨_, s₁, .last heof, h₁⟩
      · next hchar =>
        obtain ⟨s₂, h₂⟩ := h₁.putChar_call hquiet₁ (charOf v)
        obtain ⟨more, s₃, hmore, h₃⟩ := ih h₂ (hquiet₁.synchPutChar _) hrest
        refine ⟨_, s₃, .copy hchar hmore, ?_⟩
        rwa [List.append_assoc, List.append_assoc] at h₃

theorem echoLines (h : Gets utf8 input table s t .ret none (consoleSystem utf8 input table).initialValue c log s')
    (hquiet : Quiet c) {n fuel : Nat} (hecho : c.echoLines n fuel = some c') :
    ∃ (more : List (Event Sem ConsoleCall Observation)) (s' : ConsoleState), CopiesLines t n more ∧
      Gets utf8 input table s t .ret none (consoleSystem utf8 input table).initialValue c' (log ++ more) s' := by
  induction fuel generalizing c log s' with
  | zero => cases hecho
  | succ fuel ih =>
      rw [Console.echoLines] at hecho
      split at hecho
      · obtain rfl := Option.some.inj hecho
        exact ⟨[], s', .nil, by rwa [List.append_nil]⟩
      · obtain ⟨⟨line, d⟩, hget, hrest⟩ := Option.bind_eq_some_iff.mp hecho
        obtain ⟨values, s₁, rfl, hquiet₁, h₁⟩ := h.getString_call hquiet hget
        obtain ⟨hquiet₂, s₂, h₂⟩ := h₁.putString_call hquiet₁ (values.map (BitVec.setWidth 8))
        obtain ⟨more, s₃, hmore, h₃⟩ := ih h₂ hquiet₂ hrest
        refine ⟨_, s₃, @CopiesLines.line _ _ values _ hmore, ?_⟩
        simpa only [List.append_assoc, List.cons_append, List.nil_append] using h₃

end Gets

end Alone

/-- What the two programs make of a console on which they are alone they make of it in a run of the threads, too: the
main thread makes the calls of the program, and the console becomes the same. -/
theorem echo_runs (input : List Byte) (table : ThreadTable) {c : Console} :
    (∀ fuel, Console.echoChars fuel (.new true input) = some c → ∃ s,
      (consoleSystem true input table).interleaving.Reachable s ∧ s.shared.console = c ∧
      CopiesChars 1 (s.log.filter copyEvent)) ∧
    ∀ n fuel, Console.echoLines n fuel (.new true input) = some c → ∃ s,
      (consoleSystem true input table).interleaving.Reachable s ∧ s.shared.console = c ∧
      CopiesLines 1 n (s.log.filter copyEvent) := by
  have hinit : (consoleSystem true input table).interleaving.Reachable (initial (consoleSystem true input table)) :=
    .init rfl
  have hstart : Gets true input table (initial (consoleSystem true input table)) 1 .ret none
      (consoleSystem true input table).initialValue (.new true input) [] (initial (consoleSystem true input table)) :=
    ⟨.refl, rfl, .inr rfl, rfl, rfl, rfl, rfl⟩
  have hquiet : Quiet (.new true input) := ⟨rfl, rfl⟩
  constructor
  · intro fuel hecho
    obtain ⟨more, s, hcopies, hgets⟩ := hstart.echoChars hquiet hecho
    exact ⟨s, hinit.steps hgets.steps, hgets.console, hgets.log ▸ hcopies⟩
  · intro n fuel hecho
    obtain ⟨more, s, hcopies, hgets⟩ := hstart.echoLines hquiet hecho
    exact ⟨s, hinit.steps hgets.steps, hgets.console, hgets.log ▸ hcopies⟩

end Nachos

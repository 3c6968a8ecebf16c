import Nachos.SynchConsole

/-! The polls of a `Console`. The constructor schedules the first interrupt `ConsoleReadInt`, and the handler
of each is to schedule the next one. The console is used in any way: its calls come in any order. -/

namespace Nachos

/-- A console, with the number of its interrupts `ConsoleReadInt` that are pending. -/
structure PolledConsole where
  console : Console
  polls : Nat

namespace Console

/-- Whether `Console::CheckCharAvail` comes to the point where it schedules the next poll. -/
def rearms (ready : Bool) (c : Console) : Bool :=
  (({ c with pollPending := true } : Console).checkCharAvail ready).1.pollPending

/-- What can happen to a console: its interrupts and the calls of its client. -/
inductive Step (s : PolledConsole) : PolledConsole → Prop where
  | readPoll (ready : Bool) (hpending : 0 < s.polls) :
      Step s ⟨(s.console.checkCharAvail ready).1, s.polls - 1 + (s.console.rearms ready).toNat⟩
  | getChar : Step s ⟨s.console.getChar.1, s.polls⟩
  | putChar (ch : Word) (hidle : s.console.putBusy = false) : Step s ⟨s.console.putChar ch, s.polls⟩
  | writeDone (hpending : 0 < s.console.writesPending) : Step s ⟨s.console.writeDone, s.polls⟩

/-- The runs of a console, on a host that will deliver `input`. -/
def system (utf8 : Bool) (input : List Byte) : TransitionSystem PolledConsole where
  init s := s = ⟨.new utf8 input, 1⟩
  step := Step

/-- No byte of the input is dropped in a UTF-8 locale: each is a character of one byte, or it is the first of a
character of Latin-1 whose second byte follows. Such a character may be cut off at the end. -/
def undropped : List Byte → Bool
  | [] => true
  | b :: rest =>
      if b &&& 0x80#8 = 0 then undropped rest
      else if b &&& 0xe0#8 ≠ 0xc0#8 ∨ b &&& 0x1c#8 ≠ 0 then false
      else match rest with
        | [] => true
        | d :: rest => if d &&& 0xc0#8 ≠ 0x80#8 then false else undropped rest

theorem undropped_cons (b : Byte) (rest : List Byte) :
    undropped (b :: rest) =
      if b &&& 0x80#8 = 0 then undropped rest
      else if b &&& 0xe0#8 ≠ 0xc0#8 ∨ b &&& 0x1c#8 ≠ 0 then false
      else match rest with
        | [] => true
        | d :: rest => if d &&& 0xc0#8 ≠ 0x80#8 then false else undropped rest := by
  cases rest with
  | nil =>
      unfold undropped
      rfl
  | cons d rest => rw [undropped]

/-- A poll that drops no byte schedules the next one. -/
theorem rearms_of_undropped {c : Console} (ready : Bool) (h : c.utf8 = false ∨ undropped c.input = true) :
    c.rearms ready = true ∧ (c.checkCharAvail ready).1.utf8 = c.utf8 ∧
      (c.utf8 = false ∨ undropped (c.checkCharAvail ready).1.input = true) := by
  unfold rearms checkCharAvail
  simp only
  split_ifs with hidle
  · exact ⟨rfl, rfl, h⟩
  · cases hinput : c.input with
    | nil => exact ⟨rfl, rfl, by simpa [hinput] using h⟩
    | cons b rest =>
        rw [hinput] at h
        simp only
        split_ifs with hone hlead
        · refine ⟨rfl, rfl, ?_⟩
          rcases h with hutf8 | hundropped
          · exact .inl hutf8
          · rcases hone with hutf8 | hascii
            · exact .inl hutf8
            · rw [undropped_cons, if_pos hascii] at hundropped
              exact .inr hundropped
        · obtain ⟨hutf8, hascii⟩ := not_or.mp hone
          have hundropped := h.resolve_left hutf8
          rw [undropped_cons, if_neg hascii, if_pos hlead] at hundropped
          cases hundropped
        · obtain ⟨hutf8, hascii⟩ := not_or.mp hone
          have hundropped := h.resolve_left hutf8
          rw [undropped_cons, if_neg hascii, if_neg hlead] at hundropped
          cases rest with
          | nil => exact ⟨rfl, rfl, .inr rfl⟩
          | cons d rest =>
              simp only at hundropped ⊢
              split_ifs at hundropped ⊢ with hodd
              exact ⟨rfl, rfl, .inr hundropped⟩

theorem polls_of_undropped {utf8 : Bool} {input : List Byte} (h : utf8 = false ∨ undropped input = true)
    {s : PolledConsole} (hs : (system utf8 input).Reachable s) :
    s.polls = 1 ∧ s.console.utf8 = utf8 ∧ (utf8 = false ∨ undropped s.console.input = true) := by
  apply hs.invariant
  · rintro s rfl
    exact ⟨rfl, rfl, h⟩
  · rintro s t - ⟨hpolls, hutf8, hinput⟩ hstep
    cases hstep with
    | readPoll ready hpending =>
        rw [← hutf8] at hinput
        obtain ⟨hrearms, hkept, hrest⟩ := rearms_of_undropped ready hinput
        rw [← hutf8]
        refine ⟨?_, hkept, hrest⟩
        rw [hpolls, hrearms]
        rfl
    | getChar => exact ⟨hpolls, hutf8, hinput⟩
    | putChar ch hidle => exact ⟨hpolls, hutf8, hinput⟩
    | writeDone hpending => exact ⟨hpolls, hutf8, hinput⟩

/-- A poll of input in which a byte is dropped: it drops the byte, or it reads a character before it. -/
theorem checkCharAvail_dropped {c : Console} (hutf8 : c.utf8 = true) (hincoming : c.incoming = eof)
    (hdropped : undropped c.input = false) :
    c.rearms true = false ∨ ∃ incoming left,
      c.checkCharAvail true = ({ c with incoming := incoming, input := left }, true) ∧
      c.rearms true = true ∧ undropped left = false ∧ left.length < c.input.length := by
  have hidle : ¬(c.incoming ≠ eof ∨ true = false) := by simp [hincoming]
  unfold rearms checkCharAvail
  simp only [if_neg hidle]
  cases hinput : c.input with
  | nil =>
      rw [hinput] at hdropped
      cases hdropped
  | cons b rest =>
      rw [hinput, undropped_cons] at hdropped
      simp only [hutf8, Bool.true_eq_false, false_or]
      split_ifs at hdropped ⊢ with hascii hlead
      · exact .inr ⟨_, rest, rfl, rfl, hdropped, Nat.lt_succ_self _⟩
      · exact .inl rfl
      · cases rest with
        | nil => cases hdropped
        | cons d rest =>
            simp only at hdropped ⊢
            split_ifs at hdropped ⊢ with hodd
            · exact .inl rfl
            · refine .inr ⟨_, rest, rfl, rfl, hdropped, ?_⟩
              rw [List.length_cons, List.length_cons]
              omega

/-- If a byte is dropped, then the bytes before it can be read, and then there are no more polls. -/
theorem reachable_unpolled {utf8 : Bool} {input : List Byte} (n : Nat) {s : PolledConsole}
    (hs : (system utf8 input).Reachable s) (hutf8 : s.console.utf8 = true) (hincoming : s.console.incoming = eof)
    (hpolls : s.polls = 1) (hdropped : undropped s.console.input = false) (hlength : s.console.input.length < n) :
    ∃ t, (system utf8 input).Reachable t ∧ t.polls = 0 := by
  induction n generalizing s with
  | zero => omega
  | succ n ih =>
      have hpoll := hs.step (.readPoll true (by omega))
      rcases checkCharAvail_dropped hutf8 hincoming hdropped with
        hstop | ⟨incoming, left, hcheck, hrearms, hleft, hshorter⟩
      · refine ⟨_, hpoll, ?_⟩
        rw [hpolls, hstop]
        rfl
      · rw [hcheck, hrearms, hpolls] at hpoll
        refine ih (hpoll.step .getChar) hutf8 rfl rfl hleft ?_
        change left.length < n
        omega

/-- Exactly one poll is pending at all times if and only if no byte of the input is dropped. -/
theorem one_poll_pending_iff (utf8 : Bool) (input : List Byte) :
    (∀ s, (system utf8 input).Reachable s → s.polls = 1) ↔ utf8 = false ∨ undropped input = true := by
  constructor
  · intro hpolls
    cases hutf8 : utf8 with
    | false => exact .inl rfl
    | true =>
        right
        by_contra hdropped
        rw [Bool.not_eq_true] at hdropped
        obtain ⟨t, ht, hzero⟩ := reachable_unpolled (input.length + 1) (.init rfl) hutf8 rfl rfl hdropped
          (Nat.lt_succ_self _)
        rw [hpolls t ht] at hzero
        cases hzero
  · intro h s hs
    exact (polls_of_undropped h hs).1

/-- After a continuation byte without a lead byte no poll is pending, and so it remains. -/
theorem no_poll_pending : ∃ s, (system true [0x80, 65]).Reachable s ∧ s.polls = 0 ∧ s.console.input = [65] := by
  have hinit : (system true [0x80, 65]).Reachable ⟨.new true [0x80, 65], 1⟩ := .init rfl
  exact ⟨_, hinit.step (.readPoll true (by decide)), by decide, by decide⟩

end Console

end Nachos

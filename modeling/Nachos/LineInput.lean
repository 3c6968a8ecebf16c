import Nachos.ConsoleInput

/-! Lines of input: what `SynchConsole::SynchGetString` stores, compared with `fgets`. The values that the
calls of `Console::GetChar` return are a stream, the rest of the input followed by ends of file. -/

namespace Nachos

open Interleaving

/-- The characters that the loop of `SynchGetString` stores before the null character, where `values` are
returned by `GetChar`. -/
def storedChars : Nat → (Nat → Word) → List Byte
  | n + 2, values =>
      let c : Byte := (values 0).setWidth 8
      if c = 10 then [c] else c :: storedChars (n + 1) fun i => values (i + 1)
  | _, _ => []

/-- The values were obtained from the beginning of the stream. -/
def Yields (values : Nat → Word) (obtained : List Word) : Prop :=
  obtained = (List.range obtained.length).map values

/-- The stream of a console that has these characters left. -/
def streamOf (remaining : List Byte) (i : Nat) : Word := (inputValues remaining).getD i eof

/-- What `fgets` stores: the longest prefix of the input with at most `limit` characters and no newline
but possibly the last one. -/
structure IsLine (limit : Nat) (remaining line : List Byte) : Prop where
  isPrefix : line <+: remaining
  short : line.length ≤ limit
  newline : 10 ∉ line.dropLast
  longest : ∀ other, other <+: remaining → other.length ≤ limit → 10 ∉ other.dropLast →
    other.length ≤ line.length

theorem yields_cons {values : Nat → Word} {v : Word} {obtained : List Word}
    (h : Yields values (v :: obtained)) : v = values 0 ∧ Yields (fun i => values (i + 1)) obtained := by
  rw [Yields, List.length_cons, List.range_succ_eq_map, List.map_cons, List.map_map] at h
  obtain ⟨hv, hobtained⟩ := List.cons_eq_cons.mp h
  exact ⟨hv, hobtained⟩

theorem Yields.of_append {values : Nat → Word} {obtained more : List Word}
    (h : Yields values (obtained ++ more)) : Yields values obtained := by
  rw [Yields, List.length_append, List.range_add, List.map_append] at h
  exact List.append_inj_left h (by rw [List.length_map, List.length_range])

section Paths

variable {κ ρ : Type} {t : ThreadId} {call : Option κ} {r r' : ρ}
  {events : List (Event Sem κ Observation)} {ks : List Byte → Program Sem World ρ Observation}

/-- A path through `Console::GetChar` shows the value that the thread goes on with. -/
theorem follows_consoleGetChar {kc : Word → Program Sem World ρ Observation}
    (h : Follows t call (consoleGetChar kc) r events .ret r') :
    ∃ c rest, events = .observed t (.got c) :: rest ∧ Follows t call (kc c) r rest .ret r' := by
  cases h with
  | act shared h => exact ⟨_, _, rfl, h⟩

/-- A path through the loop of `SynchGetString`: `string` is what it stores on this part of the path, a
character for each value it obtains. -/
structure StoresLine (t : ThreadId) (call : Option κ) (r r' : ρ) (events : List (Event Sem κ Observation))
    (ks : List Byte → Program Sem World ρ Observation) (n : Nat) (stored string : List Byte)
    (first rest : List (Event Sem κ Observation)) : Prop where
  split : events = first ++ rest
  path : Follows t call (ks (stored ++ string)) r rest .ret r'
  chars : string = (gotValues first).map (·.setWidth 8)
  line : ∀ values, Yields values (gotValues first) → string = storedChars n values

theorem follows_getStringLoop {n : Nat} {stored : List Byte}
    (h : Follows t call (getStringLoop ks n stored) r events .ret r') :
    ∃ string first rest, StoresLine t call r r' events ks n stored string first rest := by
  have hdone : ∀ {stored : List Byte} {events : List (Event Sem κ Observation)},
      Follows t call (.semV .readLock (ks stored)) r events .ret r' →
      ∃ rest, events = .released .readLock (some t) :: rest ∧ Follows t call (ks stored) r rest .ret r' := by
    intro stored events h
    cases h with
    | semV h => exact ⟨_, rfl, h⟩
  induction n generalizing stored events with
  | zero =>
      obtain ⟨rest, hsplit, hpath⟩ := hdone h
      exact ⟨[], [_], rest, hsplit, by rwa [List.append_nil], rfl, fun _ _ => rfl⟩
  | succ n ih =>
      cases n with
      | zero =>
          obtain ⟨rest, hsplit, hpath⟩ := hdone h
          exact ⟨[], [_], rest, hsplit, by rwa [List.append_nil], rfl, fun _ _ => rfl⟩
      | succ n =>
          cases h with
          | semP h =>
              obtain ⟨c, left, rfl, hleft⟩ := follows_consoleGetChar h
              have hgot : ∀ first, gotValues (.passed .readAvail t call :: .observed t (.got c) :: first) =
                  c :: gotValues first := fun _ => rfl
              change Follows t call (if (c.setWidth 8 : Byte) = 10 then _ else _) r left .ret r' at hleft
              split at hleft
              · rename_i hnewline
                obtain ⟨rest, rfl, hpath⟩ := hdone hleft
                refine ⟨[c.setWidth 8], [.passed .readAvail t call, .observed t (.got c),
                  .released .readLock (some t)], rest, rfl, hpath, rfl, ?_⟩
                intro values hyields
                have hvalue := (yields_cons hyields).1
                rw [storedChars, ← hvalue]
                exact (if_pos hnewline).symm
              · rename_i hnot
                obtain ⟨string, first, rest, hstores⟩ := ih hleft
                refine ⟨c.setWidth 8 :: string,
                  .passed .readAvail t call :: .observed t (.got c) :: first, rest, ?_, ?_, ?_, ?_⟩
                · rw [hstores.split]
                  rfl
                · rw [List.append_cons]
                  exact hstores.path
                · rw [hgot, List.map_cons, ← hstores.chars]
                · intro values hyields
                  rw [hgot] at hyields
                  obtain ⟨hvalue, hrest⟩ := yields_cons hyields
                  rw [storedChars, ← hvalue, ← hstores.line _ hrest]
                  exact (if_neg hnot).symm

theorem follows_synchGetString {n : Int} (h : Follows t call (synchGetString ks n) r events .ret r') :
    ∃ string first rest, StoresLine t call r r' events ks n.toNat [] string first rest := by
  cases h with
  | semP h =>
      obtain ⟨string, first, rest, hstores⟩ := follows_getStringLoop h
      refine ⟨string, .passed .readLock t call :: first, rest, ?_, hstores.path, hstores.chars, hstores.line⟩
      rw [hstores.split]
      rfl

end Paths

section Lines

/-- The first line of the input, cut at the limit. -/
def firstLine : Nat → List Byte → List Byte
  | 0, _ => []
  | _ + 1, [] => []
  | limit + 1, b :: rest => if b = 10 then [b] else b :: firstLine limit rest

theorem firstLine_prefix (limit : Nat) (remaining : List Byte) : firstLine limit remaining <+: remaining := by
  induction limit generalizing remaining with
  | zero => exact List.nil_prefix
  | succ limit ih =>
      cases remaining with
      | nil => exact List.nil_prefix
      | cons b rest =>
          rw [firstLine]
          split
          · exact List.prefix_cons_inj b |>.mpr List.nil_prefix
          · exact List.prefix_cons_inj b |>.mpr (ih rest)

theorem length_firstLine_le (limit : Nat) (remaining : List Byte) :
    (firstLine limit remaining).length ≤ limit := by
  induction limit generalizing remaining with
  | zero => exact Nat.le_refl 0
  | succ limit ih =>
      cases remaining with
      | nil => exact Nat.zero_le _
      | cons b rest =>
          rw [firstLine]
          split
          · exact Nat.succ_le_succ (Nat.zero_le limit)
          · exact Nat.succ_le_succ (ih rest)

theorem newline_firstLine (limit : Nat) (remaining : List Byte) :
    10 ∉ (firstLine limit remaining).dropLast := by
  induction limit generalizing remaining with
  | zero => exact List.not_mem_nil
  | succ limit ih =>
      cases remaining with
      | nil => exact List.not_mem_nil
      | cons b rest =>
          rw [firstLine]
          split
          · exact List.not_mem_nil
          · rename_i hb
            intro hmem
            cases hline : firstLine limit rest with
            | nil =>
                rw [hline] at hmem
                cases hmem
            | cons c line =>
                rw [hline, List.dropLast_cons_cons, List.mem_cons] at hmem
                rcases hmem with heq | hmem
                · exact hb heq.symm
                · rw [← hline] at hmem
                  exact ih rest hmem

theorem longest_firstLine {limit : Nat} {remaining other : List Byte} (hfirst : other <+: remaining)
    (hshort : other.length ≤ limit) (hnewline : 10 ∉ other.dropLast) :
    other.length ≤ (firstLine limit remaining).length := by
  induction limit generalizing remaining other with
  | zero => exact hshort
  | succ limit ih =>
      cases other with
      | nil => exact Nat.zero_le _
      | cons b other =>
          obtain ⟨rest, rfl⟩ := hfirst
          rw [List.cons_append, firstLine]
          split
          · -- A newline ends the other prefix, too.
            rename_i hb
            cases other with
            | nil => exact Nat.le_refl _
            | cons c other =>
                rw [List.dropLast_cons_cons, hb] at hnewline
                exact absurd List.mem_cons_self hnewline
          · refine Nat.succ_le_succ (ih (List.prefix_append other rest) (Nat.le_of_succ_le_succ hshort) ?_)
            intro hmem
            apply hnewline
            cases other with
            | nil => cases hmem
            | cons c other =>
                rw [List.dropLast_cons_cons]
                exact List.mem_cons_of_mem _ hmem

theorem isLine_iff {limit : Nat} {remaining line : List Byte} :
    IsLine limit remaining line ↔ line = firstLine limit remaining := by
  have hfirst := firstLine_prefix limit remaining
  have hshort := length_firstLine_le limit remaining
  have hnewline := newline_firstLine limit remaining
  constructor
  · intro h
    have hle := longest_firstLine h.isPrefix h.short h.newline
    have hge := h.longest _ hfirst hshort hnewline
    exact (List.prefix_of_prefix_length_le h.isPrefix hfirst hle).eq_of_length (le_antisymm hle hge)
  · rintro rfl
    exact ⟨hfirst, hshort, hnewline, fun _ => longest_firstLine⟩

theorem storedChars_nil (limit : Nat) :
    storedChars (limit + 1) (streamOf []) = List.replicate limit 255 := by
  induction limit with
  | zero => rfl
  | succ limit ih => exact congrArg (255 :: ·) ih

/-- The loop stores the first line, and when the input ends before the line it stores the narrowed end of
file up to the limit. -/
theorem storedChars_streamOf (limit : Nat) (remaining : List Byte) :
    storedChars (limit + 1) (streamOf remaining) = firstLine limit remaining ++
      if limit ≤ remaining.length ∨ 10 ∈ remaining then []
      else List.replicate (limit - remaining.length) 255 := by
  induction limit generalizing remaining with
  | zero =>
      rw [if_pos (.inl (Nat.zero_le _))]
      rfl
  | succ limit ih =>
      cases remaining with
      | nil =>
          have hnot : ¬(limit + 1 ≤ ([] : List Byte).length ∨ 10 ∈ ([] : List Byte)) := by
            rintro (hle | hmem)
            · exact Nat.not_succ_le_zero limit hle
            · cases hmem
          rw [if_neg hnot, storedChars_nil]
          rfl
      | cons b rest =>
          have hchar : ((streamOf (b :: rest) 0).setWidth 8 : Byte) = b := by
            show (b.setWidth 32).setWidth 8 = b
            rw [BitVec.setWidth_setWidth_of_le _ (by decide), BitVec.setWidth_eq]
          have htail : (fun i => streamOf (b :: rest) (i + 1)) = streamOf rest := rfl
          rw [storedChars, hchar, htail, firstLine]
          by_cases hb : b = 10
          · subst hb
            rw [if_pos rfl, if_pos rfl, if_pos (.inr List.mem_cons_self)]
            rfl
          · have hcondition : (limit + 1 ≤ (b :: rest).length ∨ 10 ∈ b :: rest) ↔
                (limit ≤ rest.length ∨ 10 ∈ rest) := by
              rw [List.length_cons, Nat.succ_le_succ_iff, List.mem_cons]
              constructor
              · rintro (hle | heq | hmem)
                · exact .inl hle
                · exact absurd heq.symm hb
                · exact .inr hmem
              · rintro (hle | hmem)
                · exact .inl hle
                · exact .inr (.inr hmem)
            rw [if_congr hcondition rfl rfl, if_neg hb, if_neg hb, ih, List.cons_append, List.length_cons,
              Nat.succ_sub_succ]

end Lines

/-- `SynchGetString` behaves as `fgets` exactly when the line or the room for it ends before the input:
at the end of file it goes on and stores the narrowed value of `EOF`. -/
theorem synchGetString_line_iff {κ ρ : Type} {t : ThreadId} {call : Option κ} {r r' : ρ}
    {events : List (Event Sem κ Observation)} {ks : List Byte → Program Sem World ρ Observation} {n : Int}
    (hn : 1 ≤ n) {remaining : List Byte} (h : Follows t call (synchGetString ks n) r events .ret r')
    (hvalues : Yields (streamOf remaining) (gotValues events)) :
    ∃ string first rest, events = first ++ rest ∧ Follows t call (ks string) r rest .ret r' ∧
      (IsLine (n.toNat - 1) remaining string ∧ (gotValues first).length = string.length ↔
        n ≤ remaining.length + 1 ∨ 10 ∈ remaining) := by
  obtain ⟨string, first, rest, hstores⟩ := follows_synchGetString h
  refine ⟨string, first, rest, hstores.split, hstores.path, ?_⟩
  have hyields : Yields (streamOf remaining) (gotValues first) := by
    rw [hstores.split, gotValues, List.filterMap_append] at hvalues
    exact hvalues.of_append
  have hlength : (gotValues first).length = string.length := by
    rw [hstores.chars, List.length_map]
  obtain ⟨limit, hlimit⟩ : ∃ limit : Nat, n.toNat = limit + 1 := ⟨n.toNat - 1, by omega⟩
  have hstored := hstores.line _ hyields
  rw [hlimit, storedChars_streamOf] at hstored
  have hbound : n ≤ remaining.length + 1 ↔ limit ≤ remaining.length := by omega
  rw [hlimit, Nat.add_sub_cancel, isLine_iff, hbound]
  constructor
  · rintro ⟨hline, -⟩
    by_contra hnot
    rw [if_neg hnot, hline] at hstored
    have hnil := List.append_right_eq_self.mp hstored.symm
    rw [List.replicate_eq_nil_iff] at hnil
    omega
  · intro hfits
    rw [if_pos hfits, List.append_nil] at hstored
    exact ⟨hstored, hlength⟩

/-- A world in which the console has a value in its buffer. -/
def worldWith (incoming : Word) : World :=
  ⟨{ Console.new false [] with incoming := incoming }, .new fun _ => 0, fun _ => 0⟩

/-- The events of a thread that obtains one value in `SynchGetString`. -/
def oneCharEvents (v : Word) : List (Event Sem ConsoleCall Observation) :=
  [.passed .readLock 1 none, .passed .readAvail 1 none, .observed 1 (.got v), .released .readLock (some 1)]

theorem follows_oneChar {v : Word} (hv : (v.setWidth 8 : Byte) ≠ 10)
    {ks : List Byte → Program Sem World Unit Observation} (hks : ks [v.setWidth 8] = .ret) :
    Follows 1 none (synchGetString ks 2) () (oneCharEvents v) .ret () := by
  refine .semP (.semP (.act (worldWith v) ?_))
  show Follows 1 none (if (v.setWidth 8 : Byte) = 10 then _ else _) () _ _ ()
  rw [if_neg hv]
  refine .semV ?_
  show Follows 1 none (ks [v.setWidth 8]) () [] .ret ()
  rw [hks]
  exact .here _ _

/-- The events of a thread that obtains a line of one letter in `SynchGetString`. -/
def lineEvents : List (Event Sem ConsoleCall Observation) :=
  [.passed .readLock 1 none, .passed .readAvail 1 none, .observed 1 (.got 65), .passed .readAvail 1 none,
    .observed 1 (.got 10), .released .readLock (some 1)]

/-- A caller that goes on only with the line "A" gets it, and the next character is still there. -/
theorem synchGetString_line_iff_newline :
    Follows 1 none (synchGetString (fun string => if string = [65, 10] then .ret else .abort) 5) ()
        lineEvents .ret () ∧
      Yields (streamOf [65, 10, 66]) (gotValues lineEvents) ∧ IsLine 4 [65, 10, 66] [65, 10] := by
  have hpath : Follows 1 none (synchGetString (fun string => if string = [65, 10] then .ret else .abort) 5) ()
      lineEvents .ret () :=
    .semP (.semP (.act (worldWith 65) (.semP (.act (worldWith 10) (.semV (.here _ _))))))
  have hvalues : Yields (streamOf [65, 10, 66]) (gotValues lineEvents) := rfl
  refine ⟨hpath, hvalues, ?_⟩
  obtain ⟨string, first, rest, -, hreturns, hiff⟩ := synchGetString_line_iff (by decide) hpath hvalues
  have hstring : string = [65, 10] := by
    by_contra hne
    rw [if_neg hne] at hreturns
    cases hreturns
  rw [← hstring]
  exact (hiff.mpr (.inr (by decide))).1

/-- At the end of file `SynchGetString` stores a character: this caller returns only if the string is one
character of value 255. -/
theorem synchGetString_stores_eof :
    Follows 1 none (synchGetString (fun string => if string = [255] then .ret else .abort) 2) ()
        (oneCharEvents eof) .ret () ∧
      Yields (streamOf []) (gotValues (oneCharEvents eof)) ∧ ¬IsLine 1 [] [255] := by
  refine ⟨follows_oneChar (by decide) rfl, rfl, ?_⟩
  intro hline
  have hlength := hline.isPrefix.length_le
  exact absurd hlength (by decide)

end Nachos

import Mathlib.Data.List.TakeWhile
import Nachos.SynchConsole

/-! A user program that copies its input to its output, in a UTF-8 locale. The program is the only user of the
console, so that each call waits for the next interrupt of the device: a poll that delivers a character, or the
end of the write. -/

namespace Nachos

namespace Console

/-- What `SynchConsole::SynchGetChar` returns, with the console after it: it waits until a poll calls the
handler. A poll that drops a byte is the last one, and the call does not return. -/
def synchGetChar (c : Console) : Option (Word × Console) :=
  match c.checkCharAvail true with
  | (c, true) => some (c.getChar.2, c.getChar.1)
  | (_, false) => none

/-- The console after `SynchConsole::SynchPutChar`. -/
def synchPutChar (ch : Word) (c : Console) : Console := (c.putChar ch).writeDone

/-- The console after `SynchConsole::SynchPutString`. -/
def synchPutString : List Byte → Console → Console
  | [], c => c
  | ch :: rest, c => if ch = 0 then c else synchPutString rest (c.synchPutChar (ch.signExtend 32))

/-- What `SynchConsole::SynchGetString` stores before the null character, with the console after it. -/
def synchGetString : Nat → Console → Option (List Byte × Console)
  | n + 2, c => do
      let (v, c) ← c.synchGetChar
      let ch : Byte := v.setWidth 8
      if ch = 10 then some ([ch], c)
      else
        let (rest, c) ← synchGetString (n + 1) c
        some (ch :: rest, c)
  | _, c => some ([], c)

/-- A program that calls `GetChar` and `PutChar` until `GetChar` returns `EOF`, for so many characters at most. -/
def echoChars : Nat → Console → Option Console
  | 0, _ => none
  | fuel + 1, c => do
      let (v, c) ← c.synchGetChar
      -- The system call stores the value into the register as a `char`.
      let ch : Word := (v.setWidth 8 : Byte).signExtend 32
      if ch = eof then some c else echoChars fuel (c.synchPutChar ch)

/-- A program that reads with `SynchGetString` into a buffer of `n` bytes and writes with `SynchPutString` until
the input is used up, in so many rounds at most. -/
def echoLines (n : Nat) : Nat → Console → Option Console
  | 0, _ => none
  | fuel + 1, c =>
      if c.input = [] then some c
      else do
        let (line, c) ← c.synchGetString n
        echoLines n fuel (c.synchPutString line)

/-- The UTF-8 encoding of a character of Latin-1. -/
def encode (ch : Byte) : List Byte :=
  if ch &&& 0x80#8 = 0 then [ch] else [(ch >>> 6) ||| 0xc0#8, (ch &&& 0x3f#8) ||| 0x80#8]

/-- A console that waits for a character. -/
structure Waits (c : Console) (chars : List Byte) (output : List Byte) : Prop where
  codeset : c.utf8 = true
  incoming : c.incoming = eof
  input : c.input = chars.flatMap encode
  output : c.output = output

theorem decode_pair (ch : Byte) (hch : ch &&& 0x80#8 ≠ 0) :
    ((ch >>> 6) ||| 0xc0#8) &&& 0x80#8 ≠ 0 ∧ ((ch >>> 6) ||| 0xc0#8) &&& 0xe0#8 = 0xc0#8 ∧
      ((ch >>> 6) ||| 0xc0#8) &&& 0x1c#8 = 0 ∧ ((ch &&& 0x3f#8) ||| 0x80#8) &&& 0xc0#8 = 0x80#8 ∧
      (((((ch >>> 6) ||| 0xc0#8) &&& 0x03#8).setWidth 32) <<< 6) ||| ((ch &&& 0x3f#8) ||| 0x80#8).setWidth 32 =
        ch.setWidth 32 := by
  revert ch
  decide

/-- A character that is encoded at the beginning of the input is delivered. -/
theorem Waits.synchGetChar {c : Console} {ch : Byte} {chars output : List Byte} (h : Waits c (ch :: chars) output) :
    ∃ c', c.synchGetChar = some (ch.setWidth 32, c') ∧ Waits c' chars output := by
  have hidle : ¬(c.incoming ≠ eof ∨ true = false) := by simp [h.incoming]
  have hinput := h.input
  rw [List.flatMap_cons] at hinput
  unfold Console.synchGetChar checkCharAvail
  rw [if_neg hidle]
  by_cases hascii : ch &&& 0x80#8 = 0
  · rw [encode, if_pos hascii, List.singleton_append] at hinput
    simp only [hinput, if_pos (Or.inr hascii)]
    exact ⟨_, rfl, h.codeset, rfl, rfl, h.output⟩
  · obtain ⟨hhigh, hlead, hlatin, htail, hvalue⟩ := decode_pair ch hascii
    rw [encode, if_neg hascii] at hinput
    simp only [hinput, List.cons_append, List.nil_append, h.codeset, hhigh, hlead, hlatin, htail, hvalue]
    exact ⟨_, rfl, rfl, rfl, rfl, h.output⟩

/-- At the end of the input the value is `EOF`. -/
theorem Waits.synchGetChar_nil {c : Console} {output : List Byte} (h : Waits c [] output) :
    ∃ c', c.synchGetChar = some (eof, c') ∧ Waits c' [] output := by
  have hidle : ¬(c.incoming ≠ eof ∨ true = false) := by simp [h.incoming]
  have hinput : c.input = [] := h.input
  unfold Console.synchGetChar checkCharAvail
  rw [if_neg hidle, hinput]
  exact ⟨_, rfl, h.codeset, rfl, rfl, h.output⟩

/-- A `char` is written as the byte that it is. -/
theorem putBytes_signExtend (ch : Byte) : putBytes true (ch.signExtend 32) = [ch] := by
  have hint : (ch.signExtend 32).toInt < 0x80 := by
    rw [BitVec.toInt_signExtend_of_le (by decide)]
    have hlt := @BitVec.toInt_lt 8 ch
    omega
  have hbyte : ∀ ch : Byte, (ch.signExtend 32).setWidth 8 = ch := by decide
  rw [putBytes, if_pos (.inl hint), hbyte]

theorem Waits.synchPutChar {c : Console} {chars output : List Byte} (h : Waits c chars output) (ch : Byte) :
    Waits (c.synchPutChar (ch.signExtend 32)) chars (output ++ [ch]) := by
  refine ⟨h.codeset, h.incoming, h.input, ?_⟩
  change c.output ++ putBytes c.utf8 (ch.signExtend 32) = _
  rw [h.codeset, putBytes_signExtend, h.output]

theorem Waits.synchPutString {c : Console} {chars output line : List Byte} (h : Waits c chars output)
    (hline : ∀ ch ∈ line, ch ≠ 0) : Waits (c.synchPutString line) chars (output ++ line) := by
  induction line generalizing c output with
  | nil =>
      rw [List.append_nil]
      exact h
  | cons ch rest ih =>
      rw [Console.synchPutString, if_neg (hline ch List.mem_cons_self)]
      have hrest := ih (h.synchPutChar ch) fun ch hch => hline ch (List.mem_cons_of_mem _ hch)
      rw [List.append_cons]
      exact hrest

/-- The characters are copied up to the first that is taken for the end of the file. -/
theorem Waits.echoChars {c : Console} {chars output : List Byte} (h : Waits c chars output) {fuel : Nat}
    (hfuel : chars.length < fuel) :
    ∃ c', Console.echoChars fuel c = some c' ∧ c'.output = output ++ chars.takeWhile (· ≠ 0xff#8) := by
  have hbyte : ∀ ch : Byte, ((ch.setWidth 32).setWidth 8 : Byte) = ch := by decide
  have heof : ∀ ch : Byte, ch.signExtend 32 = eof ↔ ch = 0xff#8 := by decide
  induction chars generalizing c output fuel with
  | nil =>
      obtain ⟨c', hget, hwaits⟩ := h.synchGetChar_nil
      obtain ⟨fuel, rfl⟩ : ∃ n, fuel = n + 1 := ⟨fuel - 1, by rw [List.length_nil] at hfuel; omega⟩
      refine ⟨c', ?_, ?_⟩
      · simp only [Console.echoChars, hget, Option.bind_eq_bind, Option.bind_some]
        exact if_pos (by decide)
      · rw [hwaits.output, List.takeWhile_nil, List.append_nil]
  | cons ch chars ih =>
      rw [List.length_cons] at hfuel
      obtain ⟨c', hget, hwaits⟩ := h.synchGetChar
      obtain ⟨fuel, rfl⟩ : ∃ n, fuel = n + 1 := ⟨fuel - 1, by omega⟩
      simp only [Console.echoChars, hget, Option.bind_eq_bind, Option.bind_some, hbyte]
      by_cases hff : ch = 0xff#8
      · rw [if_pos ((heof ch).mpr hff)]
        refine ⟨c', rfl, ?_⟩
        rw [hwaits.output, hff]
        exact (List.append_nil output).symm
      · rw [if_neg (fun h => hff ((heof ch).mp h))]
        obtain ⟨c'', hecho, houtput⟩ := ih (hwaits.synchPutChar ch) (show chars.length < fuel by omega)
        refine ⟨c'', hecho, ?_⟩
        rw [houtput, List.takeWhile_cons_of_pos (by simpa using hff), List.append_assoc]
        rfl

/-- A round of the program that reads lines: what it takes from the input, and how often it takes the end of the
file for a character. -/
structure Round (n : Nat) (chars line rest consumed : List Byte) (ends : Nat) : Prop where
  split : chars = consumed ++ rest
  line : line = consumed ++ List.replicate ends 0xff#8
  progress : 2 ≤ n → consumed = [] → chars = []
  ended : 0 < ends → rest = [] ∧ chars.getLast? ≠ some 10
  unended : rest = [] → chars.getLast? ≠ some 10 → chars.length + 1 < n → 0 < ends

theorem getLast?_cons_newline {ch : Byte} (hch : ch ≠ 10) (chars : List Byte) :
    (ch :: chars).getLast? = some 10 ↔ chars.getLast? = some 10 := by
  rw [List.getLast?_cons]
  cases chars.getLast? with
  | none => simpa using hch
  | some last => rfl

theorem Waits.synchGetString (n : Nat) {c : Console} {chars output : List Byte} (h : Waits c chars output) :
    ∃ line c' rest consumed ends, Console.synchGetString n c = some (line, c') ∧ Waits c' rest output ∧
      Round n chars line rest consumed ends := by
  induction n generalizing c chars with
  | zero => exact ⟨[], c, chars, [], 0, rfl, h, rfl, rfl, by omega, by omega, by omega⟩
  | succ n ih =>
      cases n with
      | zero => exact ⟨[], c, chars, [], 0, rfl, h, rfl, rfl, by omega, by omega, by omega⟩
      | succ n =>
          cases chars with
          | nil =>
              obtain ⟨c', hget, hwaits⟩ := h.synchGetChar_nil
              obtain ⟨line, c'', rest, consumed, ends, hline, hrest, hround⟩ := ih hwaits
              obtain ⟨hconsumed, hnil⟩ := List.nil_eq_append_iff.mp hround.split
              refine ⟨0xff#8 :: line, c'', rest, [], ends + 1, ?_, hrest, ?_, ?_, fun _ _ => rfl, ?_, by omega⟩
              · simp only [Console.synchGetString, hget, hline, Option.bind_eq_bind, Option.bind_some]
                exact if_neg (by decide)
              · rw [hnil]
                rfl
              · rw [hround.line, hconsumed]
                rfl
              · exact fun _ => ⟨hnil, nofun⟩
          | cons ch chars =>
              obtain ⟨c', hget, hwaits⟩ := h.synchGetChar
              have hbyte : ∀ ch : Byte, ((ch.setWidth 32).setWidth 8 : Byte) = ch := by decide
              by_cases hch : ch = 10
              · refine ⟨[ch], c', chars, [ch], 0, ?_, hwaits, rfl, rfl, nofun, by omega, ?_⟩
                · simp only [Console.synchGetString, hget, Option.bind_eq_bind, Option.bind_some, hbyte]
                  rw [if_pos hch]
                · intro hnil hlast
                  rw [hnil, hch] at hlast
                  exact absurd rfl hlast
              · obtain ⟨line, c'', rest, consumed, ends, hline, hrest, hround⟩ := ih hwaits
                refine ⟨ch :: line, c'', rest, ch :: consumed, ends, ?_, hrest, ?_, ?_, nofun, ?_, ?_⟩
                · simp only [Console.synchGetString, hget, hline, Option.bind_eq_bind, Option.bind_some, hbyte]
                  rw [if_neg hch]
                · rw [hround.split]
                  rfl
                · rw [hround.line]
                  rfl
                · intro hends
                  obtain ⟨hnil, hlast⟩ := hround.ended hends
                  exact ⟨hnil, fun h => hlast ((getLast?_cons_newline hch chars).mp h)⟩
                · intro hnil hlast hlength
                  rw [List.length_cons] at hlength
                  exact hround.unended hnil (fun h => hlast ((getLast?_cons_newline hch chars).mpr h)) (by omega)

/-- The input is copied, and at its end the last round may write ends of file. -/
theorem Waits.echoLines {n : Nat} (hn : 2 ≤ n) {c : Console} {chars output : List Byte} (h : Waits c chars output)
    (hnonzero : ∀ ch ∈ chars, ch ≠ 0) {fuel : Nat} (hfuel : chars.length < fuel) :
    ∃ c' ends, Console.echoLines n fuel c = some c' ∧
      c'.output = output ++ (chars ++ List.replicate ends 0xff#8) ∧
      (chars = [] ∨ chars.getLast? = some 10 → ends = 0) ∧
      (¬(chars = [] ∨ chars.getLast? = some 10) → chars.length + 1 < n → 0 < ends) := by
  induction fuel generalizing c chars output with
  | zero => omega
  | succ fuel ih =>
      have hinput : c.input = [] ↔ chars = [] := by
        rw [h.input]
        constructor
        · intro hnil
          cases chars with
          | nil => rfl
          | cons ch chars =>
              rw [List.flatMap_cons, encode] at hnil
              split_ifs at hnil <;> cases hnil
        · rintro rfl
          rfl
      unfold Console.echoLines
      by_cases hchars : chars = []
      · rw [if_pos (hinput.mpr hchars)]
        refine ⟨c, 0, rfl, ?_, fun _ => rfl, fun hnot => absurd (.inl hchars) hnot⟩
        rw [h.output, hchars]
        exact (List.append_nil output).symm
      · obtain ⟨line, c', rest, consumed, ends, hline, hwaits, hround⟩ := h.synchGetString n
        have hmem : ∀ ch ∈ line, ch ≠ 0 := by
          intro ch hch
          rw [hround.line] at hch
          rcases List.mem_append.mp hch with hch | hch
          · apply hnonzero
            rw [hround.split]
            exact List.mem_append_left _ hch
          · rw [List.eq_of_mem_replicate hch]
            decide
        have hrest : ∀ ch ∈ rest, ch ≠ 0 := by
          intro ch hch
          apply hnonzero
          rw [hround.split]
          exact List.mem_append_right _ hch
        have hlength := congrArg List.length hround.split
        rw [List.length_append] at hlength
        have hconsumed : 0 < consumed.length :=
          List.length_pos_iff.mpr fun hnil => hchars (hround.progress hn hnil)
        obtain ⟨c'', more, hecho, houtput, hcomplete, hcut⟩ := ih (hwaits.synchPutString hmem) hrest (by omega)
        rw [if_neg (fun h => hchars (hinput.mp h)), hline]
        refine ⟨c'', ends + more, hecho, ?_, ?_, ?_⟩
        · -- If the round took the end of the file for characters then nothing is left.
          have hswap : List.replicate ends 0xff#8 ++ rest = rest ++ List.replicate ends 0xff#8 := by
            rcases Nat.eq_zero_or_pos ends with hzero | hpos
            · rw [hzero]
              exact (List.append_nil rest).symm
            · rw [(hround.ended hpos).1]
              exact List.append_nil _
          calc c''.output
              = output ++ line ++ (rest ++ List.replicate more 0xff#8) := houtput
            _ = output ++ consumed ++ (List.replicate ends 0xff#8 ++ rest) ++ List.replicate more 0xff#8 := by
              rw [hround.line]
              simp only [List.append_assoc]
            _ = output ++ (chars ++ List.replicate (ends + more) 0xff#8) := by
              rw [hswap, hround.split, ← List.replicate_append_replicate]
              simp only [List.append_assoc]
        · intro hends
          have hlast := hends.resolve_left hchars
          have hzero : ends = 0 := by
            by_contra hpos
            exact (hround.ended (by omega)).2 hlast
          have hmore : more = 0 := by
            apply hcomplete
            by_cases hnil : rest = []
            · exact .inl hnil
            · right
              rw [hround.split, List.getLast?_append_of_ne_nil _ hnil] at hlast
              exact hlast
          omega
        · intro hnot hlength'
          obtain ⟨-, hlast⟩ := not_or.mp hnot
          by_cases hnil : rest = []
          · have hpos := hround.unended hnil hlast hlength'
            omega
          · have hrestlast : ¬(rest = [] ∨ rest.getLast? = some 10) := by
              rw [hround.split, List.getLast?_append_of_ne_nil _ hnil] at hlast
              exact not_or.mpr ⟨hnil, hlast⟩
            have hpos := hcut hrestlast (by omega)
            omega

theorem encode_ascii {ch : Byte} (h : ch &&& 0x80#8 = 0) : encode ch = [ch] := if_pos h

theorem flatMap_encode_ascii {chars : List Byte} (h : ∀ ch ∈ chars, ch &&& 0x80#8 = 0) :
    chars.flatMap encode = chars := by
  induction chars with
  | nil => rfl
  | cons ch chars ih =>
      rw [List.flatMap_cons, encode_ascii (h ch List.mem_cons_self),
        ih fun ch hch => h ch (List.mem_cons_of_mem _ hch)]
      rfl

/-- The encoding is as long as the characters are many only if all are encoded in one byte. -/
theorem length_flatMap_encode (chars : List Byte) :
    chars.length ≤ (chars.flatMap encode).length ∧
      ((chars.flatMap encode).length = chars.length → ∀ ch ∈ chars, ch &&& 0x80#8 = 0) := by
  induction chars with
  | nil => exact ⟨Nat.le_refl _, fun _ => nofun⟩
  | cons ch chars ih =>
      obtain ⟨hle, hascii⟩ := ih
      rw [List.flatMap_cons, List.length_append, List.length_cons, encode]
      split_ifs with hch
      · refine ⟨by rw [List.length_singleton]; omega, ?_⟩
        intro hlength
        rw [List.length_singleton] at hlength
        intro ch' hch'
        rcases List.mem_cons.mp hch' with rfl | hch'
        · exact hch
        · exact hascii (by omega) ch' hch'
      · simp only [List.length_cons, List.length_nil]
        exact ⟨by omega, by omega⟩

theorem not_mem_flatMap_encode (chars : List Byte) : 0xff#8 ∉ chars.flatMap encode := by
  have hencode : ∀ ch, 0xff#8 ∉ encode ch := by decide
  intro hmem
  obtain ⟨ch, -, hch⟩ := List.mem_flatMap.mp hmem
  exact hencode ch hch

theorem waits_new (chars : List Byte) : Waits (.new true (chars.flatMap encode)) chars [] := ⟨rfl, rfl, rfl, rfl⟩

/-- The two programs end, and for the characters from 1 to 255 they copy the input exactly when all the characters
are below 128 and, for the one that reads lines into a buffer of any size, the last of them is a newline. -/
theorem echo_faithful_iff (chars : List Byte) (hnonzero : ∀ ch ∈ chars, ch ≠ 0) :
    (∃ c, echoChars (chars.length + 1) (.new true (chars.flatMap encode)) = some c ∧
      (c.output = chars.flatMap encode ↔ ∀ ch ∈ chars, ch &&& 0x80#8 = 0)) ∧
    (∀ n, 2 ≤ n → ∃ c, echoLines n (chars.length + 1) (.new true (chars.flatMap encode)) = some c) ∧
    ((∀ n, 2 ≤ n → (echoLines n (chars.length + 1) (.new true (chars.flatMap encode))).map Console.output =
        some (chars.flatMap encode)) ↔
      (∀ ch ∈ chars, ch &&& 0x80#8 = 0) ∧ (chars = [] ∨ chars.getLast? = some 10)) := by
  have hwaits := waits_new chars
  refine ⟨?_, ?_, ?_, ?_⟩
  · obtain ⟨c, hecho, houtput⟩ := hwaits.echoChars (Nat.lt_succ_self _)
    refine ⟨c, hecho, ?_⟩
    rw [houtput, List.nil_append]
    constructor
    · intro heq
      obtain ⟨hle, hascii⟩ := length_flatMap_encode chars
      have hshort := (List.takeWhile_sublist (l := chars) fun ch => decide (ch ≠ 0xff#8)).length_le
      rw [heq] at hshort
      exact hascii (by omega)
    · intro hascii
      rw [flatMap_encode_ascii hascii]
      apply List.takeWhile_eq_self_iff.mpr
      intro ch hch
      apply decide_eq_true
      rintro rfl
      exact absurd (hascii _ hch) (by decide)
  · intro n hn
    obtain ⟨c, -, hecho, -⟩ := hwaits.echoLines hn hnonzero (Nat.lt_succ_self _)
    exact ⟨c, hecho⟩
  · intro hcopies
    obtain ⟨c, ends, hecho, houtput, -, hcut⟩ :=
      hwaits.echoLines (show 2 ≤ chars.length + 2 by omega) hnonzero (Nat.lt_succ_self _)
    have heq := hcopies (chars.length + 2) (by omega)
    rw [hecho, Option.map_some, houtput, Option.some.injEq, List.nil_append] at heq
    -- The end of the file is no byte of the input.
    have hends : ends = 0 := by
      by_contra hpos
      apply not_mem_flatMap_encode chars
      rw [← heq]
      exact List.mem_append_right _ (List.mem_replicate.mpr ⟨hpos, rfl⟩)
    constructor
    · rw [hends, List.replicate_zero, List.append_nil] at heq
      exact (length_flatMap_encode chars).2 (congrArg List.length heq.symm)
    · by_contra hlast
      have hpos := hcut hlast (by omega)
      omega
  · rintro ⟨hascii, hlast⟩ n hn
    obtain ⟨c, ends, hecho, houtput, hcomplete, -⟩ := hwaits.echoLines hn hnonzero (Nat.lt_succ_self _)
    rw [hecho, Option.map_some, houtput, hcomplete hlast, flatMap_encode_ascii hascii]
    exact congrArg some (List.append_nil chars)

theorem echo_faithful_iff_line :
    ∃ c, echoChars 3 (.new true ([104, 10].flatMap encode)) = some c ∧
      (c.output = [104, 10].flatMap encode ↔ ∀ ch ∈ [104#8, 10#8], ch &&& 0x80#8 = 0) :=
  (echo_faithful_iff [104, 10] (by decide)).1

/-- The letter of code 233 is written as one byte, and the letter of code 255 is taken for the end of the file. -/
theorem echo_latin1 :
    (echoChars 2 (.new true (encode 233))).map Console.output = some [233] ∧ encode 233 = [0xc3, 0xa9] ∧
      (echoChars 3 (.new true (encode 255 ++ encode 65))).map Console.output = some [] ∧
      (echoLines 80 2 (.new true (encode 233 ++ encode 10))).map Console.output = some [233, 10] := by
  decide

end Console

end Nachos

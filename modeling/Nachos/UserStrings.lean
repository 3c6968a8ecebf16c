import Mathlib.Data.List.TakeWhile
import Nachos.ConsoleOutput
import Nachos.LineInput
import Nachos.SystemCall

/-! The system calls `PutString` and `GetString`: what they make of the strings of a user program. -/

namespace Nachos

open Interleaving

section PutString

variable {fresh : Nat → Nat → Byte} {space : AddrSpace} {memory : Nat → Byte} {address size : Word}
  {string : List Byte}

/-- `copyStringFromMachine` stores the null character one place too far, so that the C string may have one
more character, which the buffer held before. -/
theorem StringCopy.Copied.cString_eq {n : Nat} {c : StringCopy} (h : Copied fresh n string c)
    (hnonzero : ∀ b ∈ string, b ≠ 0) (hshort : string.length < 2 ^ 19) :
    (c.advance.store 0).cString = string ++ [fresh c.replaced string.length].takeWhile (· ≠ 0) := by
  have hpos : c.advance.pos.toNat = string.length + 1 := by
    show (c.pos + 1).toNat = _
    rw [BitVec.toNat_add, h.pos]
    apply Nat.mod_eq_of_lt
    show string.length + 1 < 2 ^ 32
    omega
  have hcells : (List.range (string.length + 1)).map (Function.update c.cells (string.length + 1) 0) =
      string ++ [fresh c.replaced string.length] := by
    have hkept : ∀ i ∈ List.range (string.length + 1),
        Function.update c.cells (string.length + 1) 0 i = c.cells i := by
      intro i hi
      exact Function.update_of_ne (Nat.ne_of_lt (List.mem_range.mp hi)) _ _
    rw [List.map_congr_left hkept, List.range_succ, List.map_append, h.cells, List.map_singleton,
      h.fresh _ (Nat.le_refl _)]
  show ((List.range c.advance.pos.toNat).map (Function.update c.cells c.advance.pos.toNat 0)).takeWhile _ = _
  rw [hpos, hcells, List.takeWhile_append_of_pos]
  intro b hb
  exact decide_eq_true (hnonzero b hb)

theorem signExtend_injective : Function.Injective fun b : Byte => b.signExtend 32 := by
  intro b c h
  have hnarrow : ∀ b : Byte, (b.signExtend 32).setWidth 8 = b := by decide
  rw [← hnarrow b, ← hnarrow c]
  exact congrArg _ h

/-- The C string that `copyStringFromMachine` leaves, and what `SynchPutString` gives to the console, are
the string of the user program exactly when the last buffer happened to hold a null character behind it. -/
theorem copyStringFromMachine_exact_iff (fresh : Nat → Nat → Byte)
    (h : UserString space memory address string) (hsize : 2 ≤ size.toNat) :
    ∃ c, copyStringFromMachine fresh space memory address size = some c ∧
      (c.cString = string ↔ fresh (doublings size.toNat string.length) string.length = 0) ∧
      ((ConsoleCall.putString c.cString).characters = string.map (·.signExtend 32) ↔
        fresh (doublings size.toNat string.length) string.length = 0) := by
  obtain ⟨c, hcopied, hcopy⟩ := copyStringFromMachine_spec fresh h hsize
  have hstring := hcopied.cString_eq h.nonzero h.length_lt
  rw [hcopied.replaced_eq (by omega)] at hstring
  have hexact : (c.advance.store 0).cString = string ↔
      fresh (doublings size.toNat string.length) string.length = 0 := by
    rw [hstring, List.append_right_eq_self, List.takeWhile_eq_nil_iff]
    simp
  refine ⟨_, hcopy, hexact, ?_⟩
  have hwhole : (c.advance.store 0).cString.takeWhile (· ≠ 0) = (c.advance.store 0).cString := by
    rw [List.takeWhile_eq_self_iff]
    intro b hb
    rw [StringCopy.cString] at hb
    exact (List.mem_takeWhile_imp hb :)
  rw [← hexact]
  show ((c.advance.store 0).cString.takeWhile (· ≠ 0)).map _ = _ ↔ _
  rw [hwhole]
  exact List.map_inj_right fun b c hbc => signExtend_injective hbc

theorem copyStringFromMachine_exact_iff_letters :
    ∃ c, copyStringFromMachine (fun _ _ => 0) smallSpace lettersAtEnd 8177 15 = some c ∧
      c.cString = List.replicate 14 97 := by
  obtain ⟨c, hcopy, hexact, -⟩ :=
    copyStringFromMachine_exact_iff (fun _ _ => 0) letters_userString (by decide : 2 ≤ (15 : Word).toNat)
  exact ⟨c, hcopy, hexact.mpr rfl⟩

/-- The string `"a"` comes out of a buffer full of letters `x` as `"ax"`. -/
theorem copyStringFromMachine_inexact :
    UserString smallSpace lettersAtEnd 8190 [97] ∧
      ∃ c, copyStringFromMachine (fun _ _ => 120) smallSpace lettersAtEnd 8190 15 = some c ∧
        c.cString = [97, 120] := by
  refine ⟨⟨by decide, by decide⟩, _, rfl, ?_⟩
  decide

end PutString

section GetString

/-- What `SC_GetString` does to the memory, where `values` are returned by `GetChar`. -/
def getStringCall (space : AddrSpace) (address : Word) (values : Nat → Word) (memory : Nat → Byte) :
    Option (Nat → Byte) :=
  copyStringToMachine space (storedChars maxStringSize values ++ [0]) address maxStringSize memory

/-- The system call stores the string that `SynchGetString` has read. -/
theorem follows_getStringCall {t : ThreadId} {call : Option UserCall} {r r' : Registers}
    {events : List (Event Sem UserCall Observation)} {space : AddrSpace} {sscanf : List Byte → Word}
    {fresh : Nat → Nat → Byte} {memory : Nat → Byte} {values : Nat → Word}
    (h : Follows t call (exceptionHandler space sscanf fresh memory r) r events .ret r')
    (hnumber : (r 2).toNat = 14) (hvalues : Yields values (gotValues events)) :
    ∃ first rest, events = first ++ rest ∧
      Follows t call (storeString space (r 4) (storedChars maxStringSize values)) r rest .ret r' := by
  have hhandler : exceptionHandler space sscanf fresh memory r =
      synchGetString (storeString space (r 4)) maxStringSize := by
    rw [exceptionHandler, hnumber]
    rfl
  rw [hhandler] at h
  obtain ⟨string, first, rest, hstores⟩ := follows_synchGetString h
  refine ⟨first, rest, hstores.split, ?_⟩
  have hyields : Yields values (gotValues first) := by
    rw [hstores.split, gotValues, List.filterMap_append] at hvalues
    exact hvalues.of_append
  have hline := hstores.line values hyields
  rw [Int.toNat_natCast] at hline
  rw [← hline]
  exact hstores.path

/-- The character number `i`, with the null character at the limit. -/
def charAt (limit : Nat) (values : Nat → Word) (i : Nat) : Byte :=
  if i < limit then (values i).setWidth 8 else 0

/-- No null character and no newline among the first `i` characters. -/
def Unended (values : Nat → Word) (i : Nat) : Prop :=
  ∀ j, j < i → (values j).setWidth 8 ≠ (0 : Byte) ∧ (values j).setWidth 8 ≠ (10 : Byte)

/-- The character at which `copyStringToMachine` stops. -/
structure LineEnd (limit : Nat) (values : Nat → Word) (p : Nat) : Prop where
  le : p ≤ limit
  unended : Unended values p
  ends : charAt limit values p = 0 ∨ charAt limit values p = 10

theorem LineEnd.le_of_unended {limit p i : Nat} {values : Nat → Word} (h : LineEnd limit values p)
    (hunended : Unended values i) (hi : i ≤ limit) : i ≤ p := by
  by_contra hlt
  have hends := h.ends
  obtain ⟨hzero, hten⟩ := hunended p (by omega)
  rw [charAt, if_pos (by omega)] at hends
  exact hends.elim hzero hten

theorem charAt_succ (limit : Nat) (values : Nat → Word) (i : Nat) :
    charAt (limit + 1) values (i + 1) = charAt limit (fun i => values (i + 1)) i := by
  unfold charAt
  simp only [Nat.add_lt_add_iff_right]

theorem unended_succ {values : Nat → Word} {i : Nat} (hzero : (values 0).setWidth 8 ≠ (0 : Byte))
    (hnewline : (values 0).setWidth 8 ≠ (10 : Byte)) :
    Unended values (i + 1) ↔ Unended (fun i => values (i + 1)) i := by
  constructor
  · intro h j hj
    exact h (j + 1) (Nat.succ_lt_succ hj)
  · intro h j hj
    cases j with
    | zero => exact ⟨hzero, hnewline⟩
    | succ j => exact h j (Nat.lt_of_succ_lt_succ hj)

/-- What `copyStringToMachine` writes, and the C string that `SynchGetString` has stored. -/
theorem storedChars_written (limit : Nat) (values : Nat → Word) :
    ∃ p, LineEnd limit values p ∧
      upToEnd (storedChars (limit + 1) values ++ [0]) = (List.range (p + 1)).map (charAt limit values) ∧
      (storedChars (limit + 1) values).takeWhile (· ≠ 0) =
        (List.range (if charAt limit values p = 10 then p + 1 else p)).map (charAt limit values) := by
  induction limit generalizing values with
  | zero => exact ⟨0, ⟨Nat.le_refl 0, nofun, .inl rfl⟩, rfl, rfl⟩
  | succ limit ih =>
      have hfirst : charAt (limit + 1) values 0 = (values 0).setWidth 8 := if_pos (Nat.succ_pos limit)
      have hbegin : Unended values 0 := nofun
      by_cases hnewline : (values 0).setWidth 8 = (10 : Byte)
      · refine ⟨0, ⟨Nat.zero_le _, hbegin, .inr (hfirst.trans hnewline)⟩, ?_, ?_⟩
        · rw [storedChars, hnewline]
          simp [upToEnd, hfirst, hnewline]
        · rw [storedChars, hnewline]
          simp [hfirst, hnewline]
      · by_cases hzero : (values 0).setWidth 8 = (0 : Byte)
        · refine ⟨0, ⟨Nat.zero_le _, hbegin, .inl (hfirst.trans hzero)⟩, ?_, ?_⟩
          · rw [storedChars, hzero]
            simp [upToEnd, hfirst, hzero]
          · rw [storedChars, hzero]
            simp [hfirst, hzero]
        · obtain ⟨p, hend, hwritten, hstring⟩ := ih fun i => values (i + 1)
          have hrange : ∀ m, (List.range (m + 1)).map (charAt (limit + 1) values) =
              (values 0).setWidth 8 :: (List.range m).map (charAt limit fun i => values (i + 1)) := by
            intro m
            rw [List.range_succ_eq_map, List.map_cons, List.map_map, hfirst]
            congr 1
            exact List.map_congr_left fun i _ => charAt_succ limit values i
          refine ⟨p + 1, ⟨Nat.succ_le_succ hend.le, ?_, ?_⟩, ?_, ?_⟩
          · exact (unended_succ hzero hnewline).mpr hend.unended
          · rw [charAt_succ]
            exact hend.ends
          · rw [storedChars, if_neg hnewline, List.cons_append, upToEnd,
              if_neg (not_or.mpr ⟨hzero, hnewline⟩), hwritten, hrange]
          · rw [storedChars, if_neg hnewline, List.takeWhile_cons, if_pos (decide_eq_true hzero), hstring, ← hrange,
              charAt_succ]
            congr 2
            split
            · rfl
            · rfl

theorem length_storedChars_le (limit : Nat) (values : Nat → Word) :
    (storedChars (limit + 1) values).length ≤ limit := by
  induction limit generalizing values with
  | zero => exact Nat.le_refl 0
  | succ limit ih =>
      rw [storedChars]
      split
      · exact Nat.succ_le_succ (Nat.zero_le limit)
      · exact Nat.succ_le_succ (ih _)

/-- What `SC_GetString` does to the memory, in terms of the characters of the input. -/
theorem getStringCall_apply {space : AddrSpace} {address : Word} {values : Nat → Word}
    {memory memory' : Nat → Byte} {p : Nat}
    (hwritten : upToEnd (storedChars maxStringSize values ++ [0]) =
      (List.range (p + 1)).map (charAt (maxStringSize - 1) values))
    (h : getStringCall space address values memory = some memory') :
    (∀ i, i ≤ p → memory' (address.toNat + i) = charAt (maxStringSize - 1) values i) ∧
      ∀ a, a < address.toNat ∨ address.toNat + p < a → memory' a = memory a := by
  have hlength : (storedChars maxStringSize values ++ [0]).length ≤ maxStringSize := by
    rw [List.length_append, List.length_singleton]
    exact Nat.succ_le_succ (length_storedChars_le 14 values)
  rw [getStringCall, copyStringToMachine, List.take_of_length_le hlength, hwritten] at h
  have happly := writeBytes_apply h
  rw [List.length_map, List.length_range] at happly
  constructor
  · intro i hi
    have hget : ((List.range (p + 1)).map (charAt (maxStringSize - 1) values)).getD i 0 =
        charAt (maxStringSize - 1) values i := by
      rw [List.getD_eq_getElem?_getD, List.getElem?_map, List.getElem?_range (Nat.lt_succ_of_le hi)]
      rfl
    rw [happly, if_pos (by omega), Nat.add_sub_cancel_left, hget]
  · intro a ha
    rw [happly, if_neg (by omega)]

/-- The memory has the string at the address, with a null character inside the given room. -/
structure HoldsString (memory : Nat → Byte) (address room : Nat) (string : List Byte) : Prop where
  chars : (List.range string.length).map (fun i => memory (address + i)) = string
  nonzero : ∀ b ∈ string, b ≠ 0
  terminated : memory (address + string.length) = 0
  fits : string.length < room

/-- After `GetString` the memory holds the string that `SynchGetString` stored exactly when no newline
ended the line, or when the byte after the newline was zero before. -/
theorem getString_holds_iff {space : AddrSpace} {address : Word}
    (hwritable : ∀ i, i < maxStringSize → space.valid (address.toNat + i) = true) (values : Nat → Word)
    (memory : Nat → Byte) :
    ∃ memory', getStringCall space address values memory = some memory' ∧
      (HoldsString memory' address.toNat maxStringSize
          ((storedChars maxStringSize values).takeWhile (· ≠ 0)) ↔
        ∀ i, i < maxStringSize - 1 → Unended values i → (values i).setWidth 8 = (10 : Byte) →
          memory (address.toNat + (i + 1)) = 0) := by
  obtain ⟨p, hend, hwritten, hstring⟩ := storedChars_written 14 values
  have hp : p ≤ 14 := hend.le
  obtain ⟨memory', hcall⟩ : ∃ memory', getStringCall space address values memory = some memory' := by
    apply writeBytes_some
    intro i hi
    apply hwritable
    refine lt_of_lt_of_le hi ?_
    rw [List.take_of_length_le]
    · show (upToEnd (storedChars 15 values ++ [0])).length ≤ 15
      rw [hwritten, List.length_map, List.length_range]
      omega
    · rw [List.length_append, List.length_singleton]
      exact Nat.succ_le_succ (length_storedChars_le 14 values)
  obtain ⟨hchars, hkept⟩ := getStringCall_apply hwritten hcall
  refine ⟨memory', hcall, ?_⟩
  -- The first newline is at `p` or nowhere.
  have hnewline : ∀ i, i < 14 → Unended values i → (values i).setWidth 8 = (10 : Byte) →
      i = p ∧ charAt 14 values p = 10 := by
    intro i hi hunended hchar
    have hle : i ≤ p := hend.le_of_unended hunended (Nat.le_of_lt hi)
    have hge : p ≤ i := by
      by_contra hlt
      exact (hend.unended i (by omega)).2 hchar
    obtain rfl : i = p := le_antisymm hle hge
    exact ⟨rfl, (if_pos hi).trans hchar⟩
  have hstring' : (storedChars maxStringSize values).takeWhile (· ≠ 0) =
      (List.range (if charAt 14 values p = 10 then p + 1 else p)).map (charAt 14 values) := hstring
  have hnonzero : ∀ b ∈ (storedChars maxStringSize values).takeWhile (· ≠ 0), b ≠ 0 := by
    intro b hb
    exact of_decide_eq_true (List.mem_takeWhile_imp hb :)
  have hread : ∀ m, m ≤ p + 1 → (List.range m).map (fun i => memory' (address.toNat + i)) =
      (List.range m).map (charAt 14 values) := by
    intro m hm
    refine List.map_congr_left ?_
    intro i hi
    exact hchars i (by have := List.mem_range.mp hi; omega)
  by_cases hlast : charAt 14 values p = 10
  · rw [if_pos hlast] at hstring'
    have hlength : ((storedChars maxStringSize values).takeWhile (· ≠ 0)).length = p + 1 := by
      rw [hstring', List.length_map, List.length_range]
    have hlt : p < 14 := by
      by_contra hge
      rw [charAt, if_neg hge] at hlast
      cases hlast
    have hnext : memory' (address.toNat + (p + 1)) = memory (address.toNat + (p + 1)) :=
      hkept _ (.inr (by omega))
    constructor
    · intro h i hi hunended hchar
      have hterminated := h.terminated
      obtain ⟨rfl, -⟩ := hnewline i hi hunended hchar
      rwa [hlength, hnext] at hterminated
    · intro h
      have hten : (values p).setWidth 8 = (10 : Byte) := (if_pos hlt).symm.trans hlast
      refine ⟨?_, hnonzero, ?_, ?_⟩
      · rw [hlength, hread _ (Nat.le_refl _), hstring']
      · rw [hlength, hnext]
        exact h p hlt hend.unended hten
      · rw [hlength]
        show p + 1 < 15
        omega
  · rw [if_neg hlast] at hstring'
    have hlength : ((storedChars maxStringSize values).takeWhile (· ≠ 0)).length = p := by
      rw [hstring', List.length_map, List.length_range]
    constructor
    · intro _ i hi hunended hchar
      exact absurd (hnewline i hi hunended hchar).2 hlast
    · intro _
      refine ⟨?_, hnonzero, ?_, ?_⟩
      · rw [hlength, hread _ (Nat.le_succ p), hstring']
      · rw [hlength, hchars p (Nat.le_refl p)]
        exact hend.ends.resolve_right hlast
      · rw [hlength]
        exact Nat.lt_succ_of_le hp

theorem smallSpace_writable (i : Nat) (hi : i < maxStringSize) :
    smallSpace.valid ((8177 : Word).toNat + i) = true := by
  revert i
  decide

theorem getString_holds_iff_letters :
    ∃ memory', getStringCall smallSpace 8177 (fun _ => 97) (fun _ => 120) = some memory' ∧
      HoldsString memory' 8177 maxStringSize (List.replicate 14 97) := by
  obtain ⟨memory', hcall, hiff⟩ := getString_holds_iff smallSpace_writable (fun _ => 97) (fun _ => 120)
  refine ⟨memory', hcall, hiff.mpr ?_⟩
  intro i hi hunended hchar
  exact absurd hchar (by decide)

/-- An empty line leaves a newline in the memory and what was behind it. -/
theorem getString_unterminated :
    ∃ memory', getStringCall smallSpace 8177 (fun _ => 10) (fun _ => 120) = some memory' ∧
      (storedChars maxStringSize fun _ => 10).takeWhile (· ≠ 0) = [10] ∧
      ¬HoldsString memory' 8177 maxStringSize [10] := by
  refine ⟨_, rfl, rfl, ?_⟩
  intro h
  exact absurd h.terminated (by decide)

/-- `GetString` leaves the memory outside the buffer of the user program alone exactly when every byte
that it writes there, whatever the size of the buffer, is there already. -/
theorem getString_frame_iff {space : AddrSpace} {address : Word} {values : Nat → Word}
    {memory memory' : Nat → Byte} (h : getStringCall space address values memory = some memory') (n : Nat) :
    (∀ a, a < address.toNat ∨ address.toNat + n ≤ a → memory' a = memory a) ↔
      ∀ i, n ≤ i → i < maxStringSize → Unended values i →
        memory (address.toNat + i) = charAt (maxStringSize - 1) values i := by
  obtain ⟨p, hend, hwritten, -⟩ := storedChars_written 14 values
  have hp : p ≤ 14 := hend.le
  obtain ⟨hchars, hkept⟩ := getStringCall_apply hwritten h
  constructor
  · intro hframe i hni hi hunended
    have hle : i ≤ p := hend.le_of_unended hunended (Nat.le_of_lt_succ hi)
    rw [← hframe _ (.inr (by omega)), hchars i hle]
  · intro hsame a ha
    by_cases hin : address.toNat ≤ a ∧ a ≤ address.toNat + p
    · obtain ⟨i, rfl⟩ := Nat.exists_eq_add_of_le hin.1
      have hle : i ≤ p := by omega
      have hunended : Unended values i := fun j hj => hend.unended j (lt_of_lt_of_le hj hle)
      rw [hchars i hle, hsame i (by omega) (by show i < 15; omega) hunended]
    · exact hkept a (by omega)

theorem getString_frame_iff_newline :
    ∃ memory', getStringCall smallSpace 8177 (fun _ => 10) (fun _ => 120) = some memory' ∧
      ∀ a, a < 8177 ∨ 8178 ≤ a → memory' a = 120 := by
  obtain ⟨memory', hcall⟩ : ∃ memory',
      getStringCall smallSpace 8177 (fun _ => 10) (fun _ => 120) = some memory' := ⟨_, rfl⟩
  refine ⟨memory', hcall, (getString_frame_iff hcall 1).mpr ?_⟩
  intro i hi _ hunended
  exact absurd rfl (hunended 0 hi).2

/-- A buffer of one byte is overrun by a line of letters. -/
theorem getString_overruns :
    ∃ memory', getStringCall smallSpace 8177 (fun _ => 97) (fun _ => 120) = some memory' ∧
      memory' (8177 + 1) ≠ 120 := by
  refine ⟨_, rfl, ?_⟩
  decide

end GetString

end Nachos

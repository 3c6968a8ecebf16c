import Mathlib.Data.Nat.Size
import Nachos.UserThread

/-! The copying of strings between the kernel and a user program: `copyStringFromMachine` and
`copyStringToMachine` of `threads/system.cc`. The first one copies into a buffer that it doubles when it
is full; the buffer is modelled with the number of bytes that `new` allocated for it and with what lies
behind them, and every access is recorded. -/

namespace Nachos

/-- `Machine::Translate` succeeds for a byte; the first page is not valid. -/
def AddrSpace.valid (space : AddrSpace) (address : Nat) : Bool :=
  pageSize ≤ address && address < space.numPages * pageSize

/-- What `ReadMem` reads from an address on, byte after byte, before it raises an exception. -/
def AddrSpace.readableFrom (space : AddrSpace) (memory : Nat → Byte) (address : Word) : List Byte :=
  if space.valid address.toNat then
    (List.range' address.toNat (space.numPages * pageSize - address.toNat)).map memory
  else []

/-- An access to a buffer, with the number of bytes allocated for the buffer. -/
structure Access where
  index : Nat
  allocated : Nat

def Access.InBounds (a : Access) : Prop := a.index < a.allocated

/-- The variables of `copyStringFromMachine`: the contents of the buffer `to` and of what follows it, the
number of bytes allocated for it, `size` and `pos`; how often the buffer has been replaced; and the
accesses so far. -/
structure StringCopy where
  cells : Nat → Byte
  allocated : Nat
  size : Word
  pos : Word
  replaced : Nat
  accesses : List Access

namespace StringCopy

/-- The beginning of `copyStringFromMachine`; `fresh i` is what the buffer number `i` holds when it is
allocated. -/
def new (fresh : Nat → Nat → Byte) (size : Word) : StringCopy where
  cells := fresh 0
  allocated := size.toNat
  size := size
  pos := 0
  replaced := 0
  accesses := []

/-- The reads and writes of the loop that copies the old buffer to the new one. -/
def growAccesses (size old new : Nat) : List Access :=
  (List.range size).flatMap fun i => [⟨i, old⟩, ⟨i, new⟩]

/-- The buffer is replaced by one of twice the size and one byte. -/
def grow (fresh : Nat → Nat → Byte) (c : StringCopy) : StringCopy :=
  { c with
    cells := fun i => if i < c.size.toNat then c.cells i else fresh (c.replaced + 1) i
    allocated := (c.size * 2 + 1).toNat
    size := c.size * 2
    replaced := c.replaced + 1
    accesses := c.accesses ++ growAccesses c.size.toNat c.allocated (c.size * 2 + 1).toNat }

/-- The assignment `to[pos] = b`. -/
def store (b : Byte) (c : StringCopy) : StringCopy :=
  { c with
    cells := Function.update c.cells c.pos.toNat b
    accesses := c.accesses ++ [⟨c.pos.toNat, c.allocated⟩] }

/-- The statement `pos++`. -/
def advance (c : StringCopy) : StringCopy := { c with pos := c.pos + 1 }

/-- One turn of the loop for a character. -/
def put (fresh : Nat → Nat → Byte) (b : Byte) (c : StringCopy) : StringCopy :=
  ((if c.size - 1 ≤ c.pos then c.grow fresh else c).store b).advance

/-- The loop, on the bytes that can be read; an exception in `ReadMem` ends the machine. The turn for the
null character advances `pos`, too. -/
def loop (fresh : Nat → Nat → Byte) : List Byte → StringCopy → Option StringCopy
  | [], _ => none
  | b :: rest, c => if b = 0 then some (c.advance.store 0) else loop fresh rest (c.put fresh b)

/-- The C string at the beginning of the buffer; there is a null character at `pos`. -/
def cString (c : StringCopy) : List Byte :=
  ((List.range c.pos.toNat).map c.cells).takeWhile (· ≠ 0)

end StringCopy

def maxStringSize : Nat := 15

/-- `copyStringFromMachine`. -/
def copyStringFromMachine (fresh : Nat → Nat → Byte) (space : AddrSpace) (memory : Nat → Byte)
    (address size : Word) : Option StringCopy :=
  StringCopy.loop fresh (space.readableFrom memory address) (.new fresh size)

/-- The characters that `copyStringToMachine` writes. -/
def upToEnd : List Byte → List Byte
  | [] => []
  | b :: rest => if b = 0 ∨ b = 10 then [b] else b :: upToEnd rest

/-- The writes of `copyStringToMachine`, one character after another. -/
def writeBytes (space : AddrSpace) : List Byte → Word → (Nat → Byte) → Option (Nat → Byte)
  | [], _, memory => some memory
  | b :: rest, address, memory =>
      if space.valid address.toNat then
        writeBytes space rest (address + 1) (Function.update memory address.toNat b)
      else none

/-- `copyStringToMachine`. -/
def copyStringToMachine (space : AddrSpace) (string : List Byte) (address : Word) (size : Nat)
    (memory : Nat → Byte) : Option (Nat → Byte) :=
  writeBytes space (upToEnd (string.take size)) address memory

/-- The user program has this string at the address: characters and a null character, in pages that can
be read. -/
structure UserString (space : AddrSpace) (memory : Nat → Byte) (address : Word) (string : List Byte) :
    Prop where
  nonzero : ∀ b ∈ string, b ≠ 0
  readable : string ++ [0] <+: space.readableFrom memory address

/-- How often the buffer has been replaced when a string of this length has been copied. -/
def doublings (size length : Nat) : Nat := (length / size).size

namespace StringCopy

variable {fresh : Nat → Nat → Byte} {n : Nat} {copied : List Byte} {c : StringCopy}

/-- The loop has copied these characters, with a buffer that had `n` bytes at first. -/
structure Copied (fresh : Nat → Nat → Byte) (n : Nat) (copied : List Byte) (c : StringCopy) : Prop where
  pos : c.pos.toNat = copied.length
  size : c.size.toNat = n * 2 ^ c.replaced
  allocated : c.allocated = if c.replaced = 0 then n else n * 2 ^ c.replaced + 1
  room : copied.length < n * 2 ^ c.replaced
  needed : c.replaced = 0 ∨ n * 2 ^ (c.replaced - 1) ≤ copied.length
  cells : (List.range copied.length).map c.cells = copied
  fresh : ∀ i, copied.length ≤ i → c.cells i = fresh c.replaced i
  inBounds : ∀ a ∈ c.accesses, a.InBounds

theorem copied_new {size : Word} (hsize : 2 ≤ size.toNat) :
    Copied fresh size.toNat [] (new fresh size) where
  pos := rfl
  size := (Nat.mul_one _).symm
  allocated := rfl
  room := by
    show 0 < size.toNat * 1
    omega
  needed := .inl rfl
  cells := rfl
  fresh _ _ := rfl
  inBounds a ha := by cases ha

theorem inBounds_growAccesses {size old new : Nat} (hold : size ≤ old) (hnew : size ≤ new) :
    ∀ a ∈ growAccesses size old new, a.InBounds := by
  intro a ha
  obtain ⟨i, hi, ha⟩ := List.mem_flatMap.mp ha
  have hi := List.mem_range.mp hi
  rcases List.mem_pair.mp ha with rfl | rfl
  · exact lt_of_lt_of_le hi hold
  · exact lt_of_lt_of_le hi hnew

/-- A full buffer is replaced: the characters stay and there is room for more of them. -/
theorem Copied.grow (h : Copied fresh n copied c) (hfull : copied.length + 1 = n * 2 ^ c.replaced)
    (hshort : copied.length < 2 ^ 30) :
    (c.grow fresh).pos = c.pos ∧ (c.grow fresh).size.toNat = n * 2 ^ (c.replaced + 1) ∧
      (c.grow fresh).allocated = n * 2 ^ (c.replaced + 1) + 1 ∧
      (∀ i, i < copied.length → (c.grow fresh).cells i = c.cells i) ∧
      (∀ i, copied.length < i → (c.grow fresh).cells i = fresh (c.replaced + 1) i) ∧
      ∀ a ∈ (c.grow fresh).accesses, a.InBounds := by
  have hsize := h.size
  have hpower : n * 2 ^ (c.replaced + 1) = n * 2 ^ c.replaced * 2 := by
    rw [Nat.pow_succ, Nat.mul_assoc]
  have hdouble : (c.size * 2).toNat = n * 2 ^ (c.replaced + 1) := by
    rw [BitVec.toNat_mul, hsize, hpower]
    apply Nat.mod_eq_of_lt
    show n * 2 ^ c.replaced * 2 < 2 ^ 32
    omega
  have hallocated : (c.size * 2 + 1).toNat = n * 2 ^ (c.replaced + 1) + 1 := by
    rw [BitVec.toNat_add, hdouble, hpower]
    apply Nat.mod_eq_of_lt
    show n * 2 ^ c.replaced * 2 + 1 < 2 ^ 32
    omega
  refine ⟨rfl, hdouble, hallocated, ?_, ?_, ?_⟩
  · intro i hi
    exact if_pos (by omega)
  · intro i hi
    exact if_neg (by omega)
  · intro a ha
    rcases List.mem_append.mp ha with ha | ha
    · exact h.inBounds a ha
    · refine inBounds_growAccesses ?_ ?_ a ha
      · rw [h.allocated, hsize]
        split
        · rename_i hzero
          rw [hzero, Nat.pow_zero, Nat.mul_one]
        · exact Nat.le_succ _
      · rw [hallocated, hsize, hpower]
        omega

/-- The turn of the loop for a character. -/
theorem Copied.put (h : Copied fresh n copied c) (hshort : copied.length < 2 ^ 30) (b : Byte) :
    Copied fresh n (copied ++ [b]) (c.put fresh b) := by
  have hpos := h.pos
  have hroom := h.room
  -- Only the buffer changes before the character is stored.
  obtain ⟨d, hd, hdpos, hsize, hallocated, hdroom, hneeded, hkept, hfresh, hinBounds⟩ :
      ∃ d, (if c.size - 1 ≤ c.pos then c.grow fresh else c) = d ∧ d.pos = c.pos ∧
        d.size.toNat = n * 2 ^ d.replaced ∧
        d.allocated = (if d.replaced = 0 then n else n * 2 ^ d.replaced + 1) ∧
        copied.length + 1 < n * 2 ^ d.replaced ∧
        (d.replaced = 0 ∨ n * 2 ^ (d.replaced - 1) ≤ copied.length + 1) ∧
        (∀ i, i < copied.length → d.cells i = c.cells i) ∧
        (∀ i, copied.length < i → d.cells i = fresh d.replaced i) ∧ ∀ a ∈ d.accesses, a.InBounds := by
    have hlast : (c.size - 1).toNat = n * 2 ^ c.replaced - 1 := by
      rw [BitVec.toNat_sub_of_le, h.size]
      · rfl
      · rw [BitVec.le_def, h.size]
        show 1 ≤ _
        omega
    by_cases hfull : c.size - 1 ≤ c.pos
    · rw [BitVec.le_def, hlast, hpos] at hfull
      obtain ⟨hgpos, hgsize, hgallocated, hgkept, hgfresh, hgbounds⟩ := h.grow (by omega) hshort
      refine ⟨c.grow fresh, if_pos ?_, hgpos, hgsize, ?_, ?_, .inr ?_, hgkept, hgfresh, hgbounds⟩
      · rw [BitVec.le_def, hlast, hpos]
        exact hfull
      · rw [hgallocated]
        exact (if_neg (Nat.succ_ne_zero _)).symm
      · show _ < n * 2 ^ (c.replaced + 1)
        rw [Nat.pow_succ, ← Nat.mul_assoc]
        omega
      · show n * 2 ^ (c.replaced + 1 - 1) ≤ _
        rw [Nat.add_sub_cancel]
        omega
    · refine ⟨c, if_neg hfull, rfl, h.size, h.allocated, ?_, ?_, fun _ _ => rfl, ?_, h.inBounds⟩
      · rw [BitVec.le_def, hlast, hpos] at hfull
        omega
      · rcases h.needed with hzero | hneeded
        · exact .inl hzero
        · exact .inr (Nat.le_succ_of_le hneeded)
      · intro i hi
        exact h.fresh i (Nat.le_of_lt hi)
  unfold StringCopy.put
  rw [hd]
  have hindex : d.pos.toNat = copied.length := by rw [hdpos, hpos]
  have hlength : (copied ++ [b]).length = copied.length + 1 := List.length_append
  refine ⟨?_, hsize, hallocated, ?_, ?_, ?_, ?_, ?_⟩
  · show (d.pos + 1).toNat = _
    rw [BitVec.toNat_add, hindex, hlength]
    apply Nat.mod_eq_of_lt
    show copied.length + 1 < 2 ^ 32
    omega
  · rw [hlength]
    exact hdroom
  · rw [hlength]
    exact hneeded
  · show (List.range (copied ++ [b]).length).map (Function.update d.cells d.pos.toNat b) = _
    rw [hlength, hindex, List.range_succ, List.map_append, List.map_singleton, Function.update_self]
    congr 1
    refine Eq.trans (List.map_congr_left ?_) h.cells
    intro i hi
    have hi := List.mem_range.mp hi
    rw [Function.update_of_ne (Nat.ne_of_lt hi), hkept i hi]
  · intro i hi
    rw [hlength] at hi
    show Function.update d.cells d.pos.toNat b i = fresh d.replaced i
    rw [hindex, Function.update_of_ne (by omega)]
    exact hfresh i (by omega)
  · intro a ha
    rcases List.mem_append.mp ha with ha | ha
    · exact hinBounds a ha
    · rw [List.mem_singleton.mp ha]
      show d.pos.toNat < d.allocated
      rw [hindex, hallocated]
      split
      · rename_i hzero
        rw [hzero, Nat.pow_zero, Nat.mul_one] at hdroom
        omega
      · omega

/-- The loop copies the characters before the null character. -/
theorem Copied.loop {string : List Byte} (rest : List Byte) (hstring : ∀ b ∈ string, b ≠ 0)
    (hshort : copied.length + string.length < 2 ^ 30) (h : Copied fresh n copied c) :
    ∃ d, Copied fresh n (copied ++ string) d ∧
      loop fresh (string ++ 0 :: rest) c = some (d.advance.store 0) := by
  induction string generalizing copied c with
  | nil =>
      rw [List.append_nil]
      exact ⟨c, h, rfl⟩
  | cons b string ih =>
      rw [List.length_cons] at hshort
      have hnext := h.put (by omega) b
      have hrest : ∀ b ∈ string, b ≠ 0 := fun b hb => hstring b (List.mem_cons_of_mem _ hb)
      obtain ⟨d, hd, hloop⟩ := ih hrest (by rw [List.length_append, List.length_singleton]; omega) hnext
      refine ⟨d, ?_, ?_⟩
      · rw [List.append_cons]
        exact hd
      · rw [List.cons_append, StringCopy.loop, if_neg (hstring b List.mem_cons_self)]
        exact hloop

/-- The number of replacements depends on the lengths only. -/
theorem Copied.replaced_eq (h : Copied fresh n copied c) (hn : 0 < n) :
    c.replaced = doublings n copied.length := by
  apply le_antisymm
  · rcases h.needed with hzero | hneeded
    · rw [hzero]
      exact Nat.zero_le _
    · rcases Nat.eq_zero_or_pos c.replaced with hzero | hpos
      · rw [hzero]
        exact Nat.zero_le _
      · have hlt : c.replaced - 1 < doublings n copied.length := by
          rw [doublings, Nat.lt_size, Nat.le_div_iff_mul_le hn, Nat.mul_comm]
          exact hneeded
        omega
  · rw [doublings, Nat.size_le, Nat.div_lt_iff_lt_mul hn, Nat.mul_comm]
    exact h.room

end StringCopy

/-- A string in the memory of a user program is shorter than the memory. -/
theorem UserString.length_lt {space : AddrSpace} {memory : Nat → Byte} {address : Word} {string : List Byte}
    (h : UserString space memory address string) : string.length < 2 ^ 19 := by
  have hlength := h.readable.length_le
  have hpages := space.fits
  rw [List.length_append, List.length_singleton, AddrSpace.readableFrom] at hlength
  unfold numPhysPages at hpages
  unfold pageSize at hlength
  split at hlength
  · rw [List.length_map, List.length_range'] at hlength
    omega
  · cases hlength

/-- What `copyStringFromMachine` makes of a string of the user program, before the last assignment. -/
theorem copyStringFromMachine_spec (fresh : Nat → Nat → Byte) {space : AddrSpace} {memory : Nat → Byte}
    {address size : Word} {string : List Byte} (h : UserString space memory address string)
    (hsize : 2 ≤ size.toNat) :
    ∃ c, StringCopy.Copied fresh size.toNat string c ∧
      copyStringFromMachine fresh space memory address size = some (c.advance.store 0) := by
  obtain ⟨rest, hrest⟩ := h.readable
  have hshort : ([] : List Byte).length + string.length < 2 ^ 30 := by
    have hlength := h.length_lt
    rw [List.length_nil]
    omega
  obtain ⟨c, hcopied, hloop⟩ := (StringCopy.copied_new hsize).loop rest h.nonzero hshort
  refine ⟨c, hcopied, ?_⟩
  rw [copyStringFromMachine, ← hrest, List.append_assoc]
  exact hloop

/-- The accesses of `copyStringFromMachine` are inside the buffer unless the characters fill the first
buffer up to its last byte: then the null character is stored behind it. -/
theorem copyStringFromMachine_inBounds_iff (fresh : Nat → Nat → Byte) {space : AddrSpace}
    {memory : Nat → Byte} {address size : Word} {string : List Byte}
    (h : UserString space memory address string) (hsize : 2 ≤ size.toNat) :
    ∃ c, copyStringFromMachine fresh space memory address size = some c ∧
      ((∀ a ∈ c.accesses, a.InBounds) ↔ string.length + 1 ≠ size.toNat) := by
  obtain ⟨c, hcopied, hcopy⟩ := copyStringFromMachine_spec fresh h hsize
  refine ⟨_, hcopy, ?_⟩
  have hindex : c.advance.pos.toNat = string.length + 1 := by
    show (c.pos + 1).toNat = _
    rw [BitVec.toNat_add, hcopied.pos]
    apply Nat.mod_eq_of_lt
    have hlength := h.length_lt
    show string.length + 1 < 2 ^ 32
    omega
  have hlast : (∀ a ∈ (c.advance.store 0).accesses, a.InBounds) ↔ string.length + 1 < c.allocated := by
    constructor
    · intro hall
      have hend := hall ⟨c.advance.pos.toNat, c.allocated⟩ (List.mem_append_right _ List.mem_cons_self)
      rwa [Access.InBounds, hindex] at hend
    · intro hend a ha
      rcases List.mem_append.mp ha with ha | ha
      · exact hcopied.inBounds a ha
      · rw [List.mem_singleton.mp ha, Access.InBounds, hindex]
        exact hend
  rw [hlast, hcopied.allocated]
  have hroom := hcopied.room
  split
  · rename_i hzero
    rw [hzero, Nat.pow_zero, Nat.mul_one] at hroom
    omega
  · -- The buffer has been replaced, so that the string was not shorter than the first one.
    rename_i hreplaced
    rcases hcopied.needed with hzero | hneeded
    · exact absurd hzero hreplaced
    · have hfirst : size.toNat ≤ size.toNat * 2 ^ (c.replaced - 1) :=
        Nat.le_mul_of_pos_right _ (Nat.two_pow_pos _)
      omega

theorem AddrSpace.lt_of_valid {space : AddrSpace} {a : Nat} (h : space.valid a = true) : a < 2 ^ 19 := by
  have hpages := space.fits
  rw [AddrSpace.valid, Bool.and_eq_true, decide_eq_true_iff, decide_eq_true_iff] at h
  unfold numPhysPages at hpages
  unfold pageSize at h
  omega

theorem toNat_succ_of_valid {space : AddrSpace} {address : Word} (h : space.valid address.toNat = true) :
    (address + 1).toNat = address.toNat + 1 := by
  have hlt := space.lt_of_valid h
  rw [BitVec.toNat_add]
  apply Nat.mod_eq_of_lt
  show address.toNat + 1 < 2 ^ 32
  omega

/-- The bytes can be written if their places can. -/
theorem writeBytes_some {space : AddrSpace} {bytes : List Byte} {address : Word} (memory : Nat → Byte)
    (hvalid : ∀ i, i < bytes.length → space.valid (address.toNat + i) = true) :
    ∃ memory', writeBytes space bytes address memory = some memory' := by
  induction bytes generalizing address memory with
  | nil => exact ⟨memory, rfl⟩
  | cons b rest ih =>
      have hfirst := hvalid 0 (Nat.succ_pos _)
      rw [Nat.add_zero] at hfirst
      rw [writeBytes, if_pos hfirst]
      apply ih
      intro i hi
      rw [toNat_succ_of_valid hfirst, Nat.add_assoc, Nat.add_comm 1]
      exact hvalid (i + 1) (Nat.succ_lt_succ hi)

theorem writeBytes_apply {space : AddrSpace} {bytes : List Byte} {address : Word} {memory memory' : Nat → Byte}
    (h : writeBytes space bytes address memory = some memory') (a : Nat) :
    memory' a = if address.toNat ≤ a ∧ a < address.toNat + bytes.length then bytes.getD (a - address.toNat) 0
      else memory a := by
  induction bytes generalizing address memory with
  | nil =>
      cases h
      rw [if_neg]
      rintro ⟨hle, hlt⟩
      exact Nat.not_lt.mpr hle hlt
  | cons b rest ih =>
      rw [writeBytes] at h
      split at h
      · rename_i hvalid
        rw [ih h, toNat_succ_of_valid hvalid, List.length_cons]
        by_cases ha : a = address.toNat
        · subst ha
          rw [if_neg (by omega), if_pos (by omega), Function.update_self, Nat.sub_self]
          rfl
        · rw [Function.update_of_ne ha]
          by_cases hin : address.toNat ≤ a ∧ a < address.toNat + (rest.length + 1)
          · have hindex : a - address.toNat = a - (address.toNat + 1) + 1 := by omega
            rw [if_pos (by omega), if_pos hin, hindex, List.getD_cons_succ]
          · rw [if_neg (by omega), if_neg hin]
      · cases h

/-- A small address space. -/
def smallSpace : AddrSpace := ⟨64, by decide, by decide⟩

/-- A string of letters that ends with the address space. -/
def lettersAtEnd (address : Nat) : Byte := if address < 8191 then 97 else 0

theorem letters_userString : UserString smallSpace lettersAtEnd 8177 (List.replicate 14 97) where
  nonzero b hb := by
    rw [List.eq_of_mem_replicate hb]
    decide
  readable := by decide

theorem copyStringFromMachine_inBounds_iff_letters :
    ∃ c, copyStringFromMachine (fun _ _ => 0) smallSpace lettersAtEnd 8177 16 = some c ∧
      ∀ a ∈ c.accesses, a.InBounds := by
  obtain ⟨c, hcopy, hiff⟩ :=
    copyStringFromMachine_inBounds_iff (fun _ _ => 0) letters_userString (by decide : 2 ≤ (16 : Word).toNat)
  exact ⟨c, hcopy, hiff.mpr (by decide)⟩

/-- A string of 14 characters overruns the buffer of `PutString`. -/
theorem copyStringFromMachine_overruns :
    UserString smallSpace lettersAtEnd 8177 (List.replicate 14 97) ∧
      ∃ c, copyStringFromMachine (fun _ _ => 0) smallSpace lettersAtEnd 8177 15 = some c ∧
        ⟨15, 15⟩ ∈ c.accesses ∧ ¬(⟨15, 15⟩ : Access).InBounds := by
  refine ⟨letters_userString, _, rfl, ?_, ?_⟩
  · exact List.mem_append_right _ List.mem_cons_self
  · exact Nat.lt_irrefl 15

end Nachos

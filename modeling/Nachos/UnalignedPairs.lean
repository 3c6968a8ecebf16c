import Nachos.UnalignedAccess

/-! `SWR` and `SWL` store a little-endian word at any address, in either order. `LWR` and `LWL` load it at even
addresses only: `LWL` exchanges the shifts for the offsets 0 and 2. -/

namespace Nachos

/-- The instruction has this operation, base, target and offset. -/
structure Instruction.Accesses (i : Instruction) (opCode : OpCode) (base rt : BitVec 5) (offset : Word) : Prop where
  opCode : i.opCode = opCode
  base : i.rs = base
  target : i.rt = rt
  offset : i.extra = offset

namespace Machine

/-- The next instructions are these, as long as they complete. -/
def Program : List Instruction → Machine → Prop
  | [], _ => True
  | i :: rest, m => m.Fetches i ∧ ∀ m', m.oneInstruction = .completed m' → Program rest m'

/-- The machine after so many instructions, if they complete. -/
def after : Nat → Machine → Option Machine
  | 0, m => some m
  | n + 1, m =>
      match m.oneInstruction with
      | .completed m' => after n m'
      | _ => none

/-- The words around the four bytes from an address on are mapped and can be written. -/
structure Covered (m : Machine) (a : Word) : Prop where
  first : ∃ physAddr, m.translation.locate (wordAddress a) .word true = .ok physAddr
  last : ∃ physAddr, m.translation.locate (wordAddress (a + 3)) .word true = .ok physAddr

variable {m m' n : Machine} {first second : Instruction} {a offset value w w' target : Word} {base rt : BitVec 5}
  {order : Bool}

theorem after_two (h : m.oneInstruction = .completed m') (h' : m'.oneInstruction = .completed n) :
    m.after 2 = some n := by
  unfold after
  rw [h]
  dsimp only
  unfold after
  rw [h']
  rfl

theorem Keeps.covered (h : m.Keeps m') (hcovered : m.Covered a) : m'.Covered a := by
  obtain ⟨⟨p, hp⟩, ⟨p', hp'⟩⟩ := hcovered
  exact ⟨⟨p, (h.locate _ _ _).trans hp⟩, ⟨p', (h.locate _ _ _).trans hp'⟩⟩

/-- The two instructions are for the same word, the left one with the address of its last byte; the flag says that the
right one is the first. -/
inductive Pair (right left : OpCode) (base rt : BitVec 5) (offset : Word) :
    Bool → Instruction → Instruction → Prop where
  | rightFirst {first second : Instruction} (hright : first.Accesses right base rt offset)
      (hleft : second.Accesses left base rt (offset + 3)) : Pair right left base rt offset true first second
  | leftFirst {first second : Instruction} (hleft : first.Accesses left base rt (offset + 3))
      (hright : second.Accesses right base rt offset) : Pair right left base rt offset false first second

section Stores

/-- The four bytes from an address on are stored, and nothing else is. -/
def Stored (m m' : Machine) (a value : Word) : Prop := StoredPart (fun _ => True) m m' a value

theorem StoredPart.whole {cover : Nat → Prop} (h : StoredPart cover m m' a value) (hcover : ∀ k < 4, cover k) :
    Stored m m' a value :=
  ⟨fun k hk _ => h.inside k hk (hcover k hk), fun p hp => h.outside p fun k hk _ => hp k hk trivial⟩

/-- Every byte of the word is stored by one of the instructions. -/
theorem covers_all (a : Word) {k : Nat} (hk : k < 4) :
    k + a.toNat % 4 < 4 ∨ 3 - (a + 3).toNat % 4 ≤ k := by
  have hlast := toNat_add_three_mod a
  omega

/-- A pair of stores stores the word. -/
theorem stores_pair (hquiet : m.Quiet) (hcovered : m.Covered a) (ha : m.registers (general base) + offset = a)
    (hpair : Pair .swr .swl base rt offset order first second) (hprogram : Program [first, second] m) :
    ∃ m', m.after 2 = some m' ∧ m.Keeps m' ∧ m'.Quiet ∧ Stored m m' a (m.registers (general rt)) := by
  have ha' : m.registers (general base) + (offset + 3) = a + 3 := by
    rw [← ha, BitVec.add_assoc]
  obtain ⟨⟨physAddr, hlocate⟩, ⟨physAddr', hlocate'⟩⟩ := hcovered
  obtain ⟨hfetch, hrest⟩ := hprogram
  cases hpair with
  | rightFirst hright hleft =>
      rw [← hright.base, ← hright.offset] at ha
      obtain ⟨m₁, hone, hkeeps, hquiet₁, hstored⟩ := swr_step hfetch hright.opCode hquiet ha hlocate
      obtain ⟨hfetch₁, -⟩ := hrest m₁ hone
      rw [← hkeeps.general, ← hleft.base, ← hleft.offset] at ha'
      obtain ⟨m₂, htwo, hkeeps', hquiet₂, hstored'⟩ := swl_step hfetch₁ hleft.opCode hquiet₁ ha'
        ((hkeeps.locate _ _ _).trans hlocate')
      rw [hright.target] at hstored
      rw [hleft.target, hkeeps.general] at hstored'
      exact ⟨m₂, after_two hone htwo, hkeeps.trans hkeeps', hquiet₂,
        (hstored.trans hstored' hkeeps).whole fun k hk => covers_all a hk⟩
  | leftFirst hleft hright =>
      rw [← hleft.base, ← hleft.offset] at ha'
      obtain ⟨m₁, hone, hkeeps, hquiet₁, hstored⟩ := swl_step hfetch hleft.opCode hquiet ha' hlocate'
      obtain ⟨hfetch₁, -⟩ := hrest m₁ hone
      rw [← hkeeps.general, ← hright.base, ← hright.offset] at ha
      obtain ⟨m₂, htwo, hkeeps', hquiet₂, hstored'⟩ := swr_step hfetch₁ hright.opCode hquiet₁ ha
        ((hkeeps.locate _ _ _).trans hlocate)
      rw [hleft.target] at hstored
      rw [hright.target, hkeeps.general] at hstored'
      exact ⟨m₂, after_two hone htwo, hkeeps.trans hkeeps', hquiet₂,
        (hstored.trans hstored' hkeeps).whole fun k hk => (covers_all a hk).symm⟩

/-- The word is then at the address. -/
theorem Stored.word (h : Stored m m' a value) (hkeeps : m.Keeps m') : composed m'.virtualByte a .word = value := by
  apply eq_of_byteOf
  intro k hk
  obtain ⟨p, hp, hvalue⟩ := h.inside k hk trivial
  rw [← hkeeps.physical] at hp
  rw [byteOf_composed _ _ hk, virtualByte_of_physical hp, hvalue]

end Stores

section Loads

/-- When a pair of loads comes to the word: the bytes from the address on, the target before, and the offset of the
address. -/
def Merges (rightFirst : Bool) (bytes : Nat → Byte) (target : Word) : Nat → Prop
  | 1 => bytes 5 = bytes 3 ∧ (rightFirst = true → bytes 3 = bytes 1 ∧ bytes 4 = bytes 2)
  | 3 => byteOf target 1 = bytes 1 ∧ byteOf target 2 = bytes 2 ∧ bytes 1 = bytes 3
  | _ => True

theorem Merges.congr {bytes bytes' : Nat → Byte} (h : ∀ k < 8, bytes k = bytes' k) (o : Nat) :
    Merges order bytes target o ↔ Merges order bytes' target o := by
  unfold Merges
  rw [h 1 (by decide), h 2 (by decide), h 3 (by decide), h 4 (by decide), h 5 (by decide)]

/-- The bytes from an address on. -/
def bytesAt (m : Machine) (a : Word) (k : Nat) : Byte := m.virtualByte (a + BitVec.ofNat 32 k)

theorem eq_composed_iff : w = composed m.virtualByte a .word ↔ ∀ k < 4, byteOf w k = m.bytesAt a k := by
  constructor
  · rintro rfl k hk
    exact byteOf_composed _ _ hk
  · intro h
    apply eq_of_byteOf
    intro k hk
    rw [h k hk, byteOf_composed _ _ hk]
    rfl

theorem forall_lt_four {P : Nat → Prop} : (∀ k < 4, P k) ↔ P 0 ∧ P 1 ∧ P 2 ∧ P 3 := by
  constructor
  · intro h
    exact ⟨h 0 (by decide), h 1 (by decide), h 2 (by decide), h 3 (by decide)⟩
  · rintro ⟨h0, h1, h2, h3⟩ k hk
    interval_cases k
    · exact h0
    · exact h1
    · exact h2
    · exact h3

/-- `LWL` after `LWR`. -/
theorem rightFirst_iff (hright : ∀ k < 4, byteOf w k = if k + a.toNat % 4 < 4 then m.bytesAt a k else byteOf target k)
    (hleft : ∀ k < 4, byteOf w' k = if a.toNat % 4 ≤ k then
      m.bytesAt a (3 - (a + 3).toNat % 4 + (k - a.toNat % 4)) else byteOf w k) :
    w' = composed m.virtualByte a .word ↔ Merges true (m.bytesAt a) target (a.toNat % 4) := by
  have hlt := Nat.mod_lt a.toNat (show 0 < 4 by decide)
  rw [toNat_add_three_mod] at hleft
  rw [eq_composed_iff, forall_lt_four]
  rw [forall_lt_four] at hright hleft
  obtain ⟨hr0, hr1, hr2, hr3⟩ := hright
  obtain ⟨hl0, hl1, hl2, hl3⟩ := hleft
  rw [hl0, hl1, hl2, hl3, hr0, hr1, hr2, hr3]
  generalize a.toNat % 4 = o at hlt ⊢
  interval_cases o <;> simp [Merges, and_comm, and_assoc]

/-- `LWR` after `LWL`. -/
theorem leftFirst_iff (hleft : ∀ k < 4, byteOf w k = if a.toNat % 4 ≤ k then
      m.bytesAt a (3 - (a + 3).toNat % 4 + (k - a.toNat % 4)) else byteOf target k)
    (hright : ∀ k < 4, byteOf w' k = if k + a.toNat % 4 < 4 then m.bytesAt a k else byteOf w k) :
    w' = composed m.virtualByte a .word ↔ Merges false (m.bytesAt a) target (a.toNat % 4) := by
  have hlt := Nat.mod_lt a.toNat (show 0 < 4 by decide)
  rw [toNat_add_three_mod] at hleft
  rw [eq_composed_iff, forall_lt_four]
  rw [forall_lt_four] at hright hleft
  obtain ⟨hr0, hr1, hr2, hr3⟩ := hright
  obtain ⟨hl0, hl1, hl2, hl3⟩ := hleft
  rw [hr0, hr1, hr2, hr3, hl0, hl1, hl2, hl3]
  generalize a.toNat % 4 = o at hlt ⊢
  interval_cases o <;> simp [Merges]

/-- A pair of loads, and when it loads the word. -/
theorem loads_pair (hquiet : m.Quiet) (hcovered : m.Covered a) (ha : m.registers (general base) + offset = a)
    (hrt : rt ≠ 0) (hpair : Pair .lwr .lwl base rt offset order first second)
    (hprogram : Program [first, second] m) :
    ∃ m', m.after 2 = some m' ∧ ((m'.delayedLoad 0 0).registers (general rt) = composed m.virtualByte a .word ↔
      Merges order (m.bytesAt a) (m.registers (general rt)) (a.toNat % 4)) := by
  have ha' : m.registers (general base) + (offset + 3) = a + 3 := by
    rw [← ha, BitVec.add_assoc]
  obtain ⟨⟨physAddr, hlocate⟩, ⟨physAddr', hlocate'⟩⟩ := hcovered
  obtain ⟨hfetch, hrest⟩ := hprogram
  cases hpair with
  | rightFirst hright hleft =>
      rw [← hright.base, ← hright.offset] at ha
      obtain ⟨m₁, w, hone, hloads, hbytes⟩ := lwr_step hfetch hright.opCode ha hlocate
      obtain ⟨hfetch₁, -⟩ := hrest m₁ hone
      have hkeeps := hloads.keeps hquiet
      rw [← hkeeps.general, ← hleft.base, ← hleft.offset] at ha'
      obtain ⟨m₂, w', htwo, hloads', hbytes'⟩ := lwl_step hfetch₁ hleft.opCode ha'
        ((hkeeps.locate _ _ _).trans hlocate')
      rw [hright.target] at hloads hbytes
      rw [hleft.target] at hloads' hbytes'
      rw [pendingValue_quiet hquiet hrt] at hbytes
      rw [hloads.pendingValue] at hbytes'
      simp only [hloads.virtualByte] at hbytes'
      refine ⟨m₂, after_two hone htwo, ?_⟩
      rw [hloads'.completed hrt]
      exact rightFirst_iff hbytes hbytes'
  | leftFirst hleft hright =>
      rw [← hleft.base, ← hleft.offset] at ha'
      obtain ⟨m₁, w, hone, hloads, hbytes⟩ := lwl_step hfetch hleft.opCode ha' hlocate'
      obtain ⟨hfetch₁, -⟩ := hrest m₁ hone
      have hkeeps := hloads.keeps hquiet
      rw [← hkeeps.general, ← hright.base, ← hright.offset] at ha
      obtain ⟨m₂, w', htwo, hloads', hbytes'⟩ := lwr_step hfetch₁ hright.opCode ha
        ((hkeeps.locate _ _ _).trans hlocate)
      rw [hleft.target] at hloads hbytes
      rw [hright.target] at hloads' hbytes'
      rw [pendingValue_quiet hquiet hrt] at hbytes
      rw [hloads.pendingValue] at hbytes'
      simp only [hloads.virtualByte] at hbytes'
      refine ⟨m₂, after_two hone htwo, ?_⟩
      rw [hloads'.completed hrt]
      exact leftFirst_iff hbytes hbytes'

end Loads

section RoundTrip

/-- The bytes from the address on after a word is stored there. -/
def storedAt (m : Machine) (a value : Word) (k : Nat) : Byte := if k < 4 then byteOf value k else m.bytesAt a k

theorem Stored.bytesAt (h : Stored m m' a value) (hkeeps : m.Keeps m') {k : Nat} (hk : k < 8) :
    m'.bytesAt a k = m.storedAt a value k := by
  unfold storedAt
  split_ifs with hlt
  · obtain ⟨p, hp, hvalue⟩ := h.inside k hlt trivial
    rw [← hkeeps.physical] at hp
    rw [← hvalue]
    exact virtualByte_of_physical hp
  · unfold Machine.bytesAt virtualByte
    rw [hkeeps.physical]
    cases hp : m.translation.physical (a + BitVec.ofNat 32 k) with
    | none => rfl
    | some p =>
        change m'.mainMemory p = m.mainMemory p
        apply h.outside
        intro k' hk' _
        exact Translation.physical_ne (by omega) (by omega) (by omega) hp

theorem program_append {l : List Instruction} (h : Program (first :: second :: l) m) : Program [first, second] m :=
  ⟨h.1, fun m' hone => ⟨(h.2 m' hone).1, fun _ _ => trivial⟩⟩

theorem program_after {l : List Instruction} (h : Program (first :: second :: l) m) (hafter : m.after 2 = some n) :
    Program l n := by
  unfold after at hafter
  split at hafter
  next m₁ hone =>
    unfold after at hafter
    split at hafter
    next htwo =>
      cases hafter
      exact (h.2 m₁ hone).2 _ htwo
    · cases hafter
  · cases hafter

end RoundTrip

/-- The stores of a pair store the word. The loads load it, and the word that has been stored, exactly when the bytes
are merged. -/
theorem unaligned_words (m : Machine) (a offset : Word) (base rt : BitVec 5) (hquiet : m.Quiet)
    (hcovered : m.Covered a) (ha : m.registers (general base) + offset = a) (hrt : rt ≠ 0) :
    (∀ order first second, Pair .swr .swl base rt offset order first second → Program [first, second] m →
      ∃ m', m.after 2 = some m' ∧ Stored m m' a (m.registers (general rt))) ∧
    (∀ order first second, Pair .lwr .lwl base rt offset order first second → Program [first, second] m →
      ∃ m', m.after 2 = some m' ∧ ((m'.delayedLoad 0 0).registers (general rt) = composed m.virtualByte a .word ↔
        Merges order (m.bytesAt a) (m.registers (general rt)) (a.toNat % 4))) ∧
    ∀ base' offset' source order order' first second first' second', m.registers (general base') + offset' = a →
      Pair .swr .swl base' source offset' order first second → Pair .lwr .lwl base rt offset order' first' second' →
      Program [first, second, first', second'] m →
      ∃ m' m'', m.after 2 = some m' ∧ m'.after 2 = some m'' ∧
        ((m''.delayedLoad 0 0).registers (general rt) = m.registers (general source) ↔
          Merges order' (m.storedAt a (m.registers (general source))) (m.registers (general rt)) (a.toNat % 4)) := by
  refine ⟨?_, ?_, ?_⟩
  · intro order first second hpair hprogram
    obtain ⟨m', hafter, -, -, hstored⟩ := stores_pair hquiet hcovered ha hpair hprogram
    exact ⟨m', hafter, hstored⟩
  · intro order first second hpair hprogram
    exact loads_pair hquiet hcovered ha hrt hpair hprogram
  · intro base' offset' source order order' first second first' second' ha' hstores hloads hprogram
    obtain ⟨m', hafter, hkeeps, hquiet', hstored⟩ := stores_pair hquiet hcovered ha' hstores (program_append hprogram)
    obtain ⟨m'', hafter', hiff⟩ := loads_pair hquiet' (hkeeps.covered hcovered)
      (by rw [hkeeps.general]; exact ha) hrt hloads (program_after hprogram hafter)
    refine ⟨m', m'', hafter, hafter', ?_⟩
    rw [← hkeeps.general rt, ← Merges.congr (fun k hk => hstored.bytesAt hkeeps hk), ← hiff, hstored.word hkeeps]

/-- Stores of register 4 and loads of register 2, at address 66. -/
def pairMachine : Machine where
  registers x := if x = 4 then 0x87654321 else if x = nextPCReg then 4 else 0
  mainMemory := .ofList [0x42, 0, 4, 0xb8, 0x45, 0, 4, 0xa8, 0x45, 0, 2, 0x88, 0x42, 0, 2, 0x98] 0
  translation := .pageTable [⟨0, 0, true, false, false, false⟩]

theorem unaligned_words_even : ∃ m' m'', pairMachine.after 2 = some m' ∧ m'.after 2 = some m'' ∧
    (m''.delayedLoad 0 0).registers (general 2) = 0x87654321 := by
  have hprogram : Program [⟨.swr, 0, 4, 0, 66⟩, ⟨.swl, 0, 4, 0, 69⟩, ⟨.lwl, 0, 2, 0, 69⟩, ⟨.lwr, 0, 2, 0, 66⟩]
      pairMachine := by
    refine ⟨⟨_, _, rfl, rfl⟩, ?_⟩
    rintro m₁ ⟨⟩
    refine ⟨⟨_, _, rfl, rfl⟩, ?_⟩
    rintro m₂ ⟨⟩
    refine ⟨⟨_, _, rfl, rfl⟩, ?_⟩
    rintro m₃ ⟨⟩
    exact ⟨⟨_, _, rfl, rfl⟩, fun _ _ => trivial⟩
  obtain ⟨-, -, hround⟩ := unaligned_words pairMachine 66 66 0 2 ⟨rfl, rfl⟩ ⟨⟨_, rfl⟩, ⟨_, rfl⟩⟩ rfl (by decide)
  obtain ⟨m', m'', hafter, hafter', hiff⟩ := hround 0 66 4 true false _ _ _ _ rfl
    (.rightFirst ⟨rfl, rfl, rfl, rfl⟩ ⟨rfl, rfl, rfl, rfl⟩) (.leftFirst ⟨rfl, rfl, rfl, rfl⟩ ⟨rfl, rfl, rfl, rfl⟩)
    hprogram
  exact ⟨m', m'', hafter, hafter', hiff.mpr trivial⟩

/-- Loads of register 2 at address 65, from the bytes 0x11 to 0x14. -/
def oddMachine : Machine where
  registers x := if x = nextPCReg then 4 else 0
  mainMemory := .store (.ofList [0x41, 0, 2, 0x98, 0x44, 0, 2, 0x88] 0) 64
    [0x10, 0x11, 0x12, 0x13, 0x14, 0x15, 0x16, 0x17]
  translation := .pageTable [⟨0, 0, true, false, false, false⟩]

theorem odd_word_lost : oddMachine.Quiet ∧ oddMachine.Covered 65 ∧
    (∃ first second, Pair .lwr .lwl 0 2 65 true first second ∧ Program [first, second] oddMachine) ∧
    composed oddMachine.virtualByte 65 .word = 0x14131211 ∧
    ∃ m', oddMachine.after 2 = some m' ∧ (m'.delayedLoad 0 0).registers (general 2) = 0x16151411 := by
  refine ⟨⟨rfl, rfl⟩, ⟨⟨_, rfl⟩, ⟨_, rfl⟩⟩, ?_, by decide, _, rfl, by decide⟩
  refine ⟨⟨.lwr, 0, 2, 0, 65⟩, ⟨.lwl, 0, 2, 0, 68⟩, .rightFirst ⟨rfl, rfl, rfl, rfl⟩ ⟨rfl, rfl, rfl, rfl⟩,
    ⟨_, _, rfl, rfl⟩, ?_⟩
  rintro m₁ ⟨⟩
  exact ⟨⟨_, _, rfl, rfl⟩, fun _ _ => trivial⟩

end Machine

end Nachos

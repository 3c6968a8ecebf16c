import Nachos.PreciseExceptions
import Nachos.VirtualMemory

/-! The unaligned accesses of the simulated processor: `LWR` and `LWL`, `SWR` and `SWL` of `machine/mipssim.cc`, which
are used in pairs. -/

namespace Nachos

/-- The byte of a word with this index, from the least significant one. -/
def byteOf (w : Word) (k : Nat) : Byte := w.extractLsb' (8 * k) 8

section Bytes

variable {w w' : Word} {k : Nat}

theorem eq_of_byteOf (h : ∀ k < 4, byteOf w k = byteOf w' k) : w = w' := by
  apply BitVec.eq_of_getLsbD_eq
  intro i hi
  have hbit := congrArg (fun b => b.getLsbD (i % 8)) (h (i / 8) (by omega))
  unfold byteOf at hbit
  simpa only [BitVec.getLsbD_extractLsb', Nat.div_add_mod, show i % 8 < 8 from Nat.mod_lt _ (by decide), decide_true,
    Bool.true_and] using hbit

theorem byteOf_or (x y : Word) (k : Nat) : byteOf (x ||| y) k = byteOf x k ||| byteOf y k := BitVec.extractLsb'_or

theorem byteOf_and (x y : Word) (k : Nat) : byteOf (x &&& y) k = byteOf x k &&& byteOf y k := BitVec.extractLsb'_and

theorem byteOf_shiftLeft (x : Word) (s : Nat) (hk : k < 4) :
    byteOf (x <<< (8 * s)) k = if s ≤ k then byteOf x (k - s) else 0 := by
  unfold byteOf
  apply BitVec.eq_of_getLsbD_eq
  intro i hi
  rw [BitVec.getLsbD_extractLsb', BitVec.getLsbD_shiftLeft]
  split_ifs with hs
  · rw [BitVec.getLsbD_extractLsb', show 8 * k + i - 8 * s = 8 * (k - s) + i by omega]
    simp [show 8 * k + i < 32 by omega, show ¬8 * k + i < 8 * s by omega]
  · simp [show 8 * k + i < 8 * s by omega]

theorem byteOf_sshiftRight (x : Word) {s : Nat} (h : k + s < 4) :
    byteOf (x.sshiftRight (8 * s)) k = byteOf x (k + s) := by
  unfold byteOf
  apply BitVec.eq_of_getLsbD_eq
  intro i hi
  rw [BitVec.getLsbD_extractLsb', BitVec.getLsbD_extractLsb', BitVec.getLsbD_sshiftRight,
    show 8 * s + (8 * k + i) = 8 * (k + s) + i by omega]
  simp [show ¬32 ≤ 8 * k + i by omega, show 8 * (k + s) + i < 32 by omega]

/-- The bytes of `y` are moved up and put above those of `x`. -/
theorem byteOf_joinUp (x y : Word) {mask : Word} {s : Nat} (hk : k < 4)
    (hmask : byteOf mask k = if s ≤ k then 0 else 0xff) :
    byteOf ((x &&& mask) ||| (y <<< (8 * s))) k = if s ≤ k then byteOf y (k - s) else byteOf x k := by
  rw [byteOf_or, byteOf_and, hmask, byteOf_shiftLeft y s hk]
  split_ifs with hs
  · rw [show (0 : Byte) = 0#8 from rfl, BitVec.and_zero, BitVec.zero_or]
  · rw [show (0xff : Byte) = BitVec.allOnes 8 from rfl, BitVec.and_allOnes, show (0 : Byte) = 0#8 from rfl,
      BitVec.or_zero]

/-- The bytes of `y` are moved down and put below those of `x`. -/
theorem byteOf_joinDown (x y : Word) {mask mask' : Word} {s : Nat}
    (hmask : byteOf mask k = if k + s < 4 then 0 else 0xff) (hmask' : byteOf mask' k = if k + s < 4 then 0xff else 0) :
    byteOf ((x &&& mask) ||| (y.sshiftRight (8 * s) &&& mask')) k =
      if k + s < 4 then byteOf y (k + s) else byteOf x k := by
  rw [byteOf_or, byteOf_and, byteOf_and, hmask, hmask']
  split_ifs with hs
  · rw [byteOf_sshiftRight y hs, show (0xff : Byte) = BitVec.allOnes 8 from rfl, BitVec.and_allOnes,
      show (0 : Byte) = 0#8 from rfl, BitVec.and_zero, BitVec.zero_or]
  · rw [show (0xff : Byte) = BitVec.allOnes 8 from rfl, BitVec.and_allOnes, show (0 : Byte) = 0#8 from rfl,
      BitVec.and_zero, BitVec.or_zero]

theorem toNat_offset (tmp : Word) : (tmp &&& 3).toNat = tmp.toNat % 4 := Nat.and_two_pow_sub_one_eq_mod _ 2

theorem byteOf_mergeRight (tmp target value : Word) (hk : k < 4) : byteOf (mergeRight tmp target value) k =
    if k + tmp.toNat % 4 < 4 then byteOf value (k + tmp.toNat % 4) else byteOf target k := by
  have hlt := Nat.mod_lt tmp.toNat (show 0 < 4 by decide)
  unfold mergeRight
  rw [toNat_offset]
  generalize tmp.toNat % 4 = o at hlt ⊢
  interval_cases o
  · exact (if_pos hk).symm
  · exact byteOf_joinDown target value (s := 1) (by interval_cases k <;> rfl) (by interval_cases k <;> rfl)
  · exact byteOf_joinDown target value (s := 2) (by interval_cases k <;> rfl) (by interval_cases k <;> rfl)
  · exact byteOf_joinDown target value (s := 3) (by interval_cases k <;> rfl) (by interval_cases k <;> rfl)

/-- The shift of `LWL` by the bytes of the word; with 0 and 2 exchanged it is not that of a little-endian word. -/
theorem byteOf_mergeLeft (tmp target value : Word) (hk : k < 4) : byteOf (mergeLeft tmp target value) k =
    if (tmp.toNat + 1) % 4 ≤ k then byteOf value (k - (tmp.toNat + 1) % 4) else byteOf target k := by
  have hlt := Nat.mod_lt tmp.toNat (show 0 < 4 by decide)
  unfold mergeLeft
  rw [toNat_offset, Nat.add_mod]
  generalize tmp.toNat % 4 = o at hlt ⊢
  interval_cases o
  · exact byteOf_joinUp target value (s := 1) hk (by interval_cases k <;> rfl)
  · exact byteOf_joinUp target value (s := 2) hk (by interval_cases k <;> rfl)
  · exact byteOf_joinUp target value (s := 3) hk (by interval_cases k <;> rfl)
  · exact (if_pos (Nat.zero_le k)).symm

theorem byteOf_splitRight (tmp register value : Word) (hk : k < 4) : byteOf (splitRight tmp register value) k =
    if tmp.toNat % 4 ≤ k then byteOf register (k - tmp.toNat % 4) else byteOf value k := by
  have hlt := Nat.mod_lt tmp.toNat (show 0 < 4 by decide)
  unfold splitRight
  rw [toNat_offset]
  generalize tmp.toNat % 4 = o at hlt ⊢
  interval_cases o
  · exact (if_pos (Nat.zero_le k)).symm
  · exact byteOf_joinUp value register (s := 1) hk (by interval_cases k <;> rfl)
  · exact byteOf_joinUp value register (s := 2) hk (by interval_cases k <;> rfl)
  · exact byteOf_joinUp value register (s := 3) hk (by interval_cases k <;> rfl)

theorem byteOf_splitLeft (tmp register value : Word) (hk : k < 4) : byteOf (splitLeft tmp register value) k =
    if k + (3 - tmp.toNat % 4) < 4 then byteOf register (k + (3 - tmp.toNat % 4)) else byteOf value k := by
  have hlt := Nat.mod_lt tmp.toNat (show 0 < 4 by decide)
  unfold splitLeft
  rw [toNat_offset]
  generalize tmp.toNat % 4 = o at hlt ⊢
  interval_cases o
  · exact byteOf_joinDown value register (s := 3) (by interval_cases k <;> rfl) (by interval_cases k <;> rfl)
  · exact byteOf_joinDown value register (s := 2) (by interval_cases k <;> rfl) (by interval_cases k <;> rfl)
  · exact byteOf_joinDown value register (s := 1) (by interval_cases k <;> rfl) (by interval_cases k <;> rfl)
  · exact (if_pos hk).symm

end Bytes

namespace Translation

variable {t : Translation} {physAddr v : Word} {size : Size} {writing : Bool} {p : Nat}

theorem locate_ok_iff : t.locate v size writing = .ok physAddr ↔
    ∃ t', t.translate v size writing = .ok (physAddr, t') := by
  unfold locate
  cases t.translate v size writing with
  | error e =>
      constructor
      · intro h
        cases h
      · rintro ⟨t', h⟩
        cases h
  | ok found =>
      obtain ⟨a, t'⟩ := found
      constructor
      · intro h
        cases h
        exact ⟨t', rfl⟩
      · rintro ⟨t'', h⟩
        cases h
        rfl

/-- A page that can be written can be read. -/
theorem locate_reading (h : t.locate v size true = .ok physAddr) : t.locate v size false = .ok physAddr := by
  obtain ⟨t', htranslate⟩ := locate_ok_iff.mp h
  obtain ⟨haligned, i, entry, hfind, -, hframe, hphys, -⟩ := translate_ok_iff.mp htranslate
  exact locate_ok_iff.mpr ⟨_, translate_ok_iff.mpr
    ⟨haligned, i, entry, hfind, Bool.and_false _, hframe, hphys, rfl⟩⟩

theorem physical_locate (h : t.locate v size writing = .ok physAddr) {k : Nat} (hk : k < size.bytes) :
    t.physical (v + BitVec.ofNat 32 k) = some (physAddr.toNat + k) := by
  obtain ⟨t', htranslate⟩ := locate_ok_iff.mp h
  exact physical_add htranslate hk

/-- The place in the page. -/
theorem physical_mod (h : t.physical v = some p) : p % 128 = v.toNat % 128 := by
  unfold physical at h
  cases hfind : t.findEntry (page v) with
  | error e =>
      rw [hfind] at h
      cases h
  | ok found =>
      rw [hfind] at h
      cases h
      have hpage : (BitVec.ofNat 32 pageSize).toNat = 128 := rfl
      change (framed found.2 v).toNat % 128 = _
      unfold framed
      rw [BitVec.toNat_add, BitVec.toNat_mul, BitVec.toNat_umod, hpage]
      omega

/-- Bytes behind each other are at different physical addresses. -/
theorem physical_ne {k k' : Nat} (hk : k < 128) (hk' : k' < 128) (hne : k ≠ k')
    (h : t.physical (v + BitVec.ofNat 32 k) = some p) : t.physical (v + BitVec.ofNat 32 k') ≠ some p := by
  intro h'
  have hmod := physical_mod h
  have hmod' := physical_mod h'
  rw [BitVec.toNat_add, BitVec.toNat_ofNat] at hmod hmod'
  omega

end Translation

section Words

/-- The address of the word around an address. -/
def wordAddress (v : Word) : Word := v &&& ~~~3

theorem toNat_wordAddress (v : Word) : (wordAddress v).toNat = v.toNat - v.toNat % 4 := by
  have hshift : wordAddress v = (v >>> 2) <<< 2 := by
    unfold wordAddress
    apply BitVec.eq_of_getLsbD_eq
    intro i hi
    simp only [BitVec.getLsbD_and, BitVec.getLsbD_not, BitVec.getLsbD_shiftLeft, BitVec.getLsbD_ushiftRight]
    interval_cases i <;> simp
  have hlt := v.isLt
  rw [hshift, BitVec.toNat_shiftLeft, BitVec.toNat_ushiftRight, Nat.shiftLeft_eq, Nat.shiftRight_eq_div_pow]
  omega

theorem wordAddress_add (v : Word) {j k : Nat} (h : j = v.toNat % 4 + k) :
    wordAddress v + BitVec.ofNat 32 j = v + BitVec.ofNat 32 k := by
  have hword := toNat_wordAddress v
  apply BitVec.eq_of_toNat_eq
  rw [BitVec.toNat_add, BitVec.toNat_add, hword, BitVec.toNat_ofNat, BitVec.toNat_ofNat]
  omega

/-- The offset of the fourth byte from an address on. -/
theorem toNat_add_three_mod (a : Word) : (a + 3).toNat % 4 = (a.toNat % 4 + 3) % 4 := by
  have hthree : (3 : Word).toNat = 3 := rfl
  have hsum := BitVec.toNat_add a 3
  omega

/-- The word around the fourth byte from an address on. -/
theorem wordAddress_add_three (a : Word) {j k : Nat} (h : k = 3 - (a + 3).toNat % 4 + j) :
    wordAddress (a + 3) + BitVec.ofNat 32 j = a + BitVec.ofNat 32 k := by
  have hword := toNat_wordAddress (a + 3)
  have hthree : (3 : Word).toNat = 3 := rfl
  have hsum := BitVec.toNat_add a 3
  apply BitVec.eq_of_toNat_eq
  rw [BitVec.toNat_add, BitVec.toNat_add, hword, BitVec.toNat_ofNat, BitVec.toNat_ofNat]
  omega

variable {memory : Image Byte} {a j k : Nat}

theorem byteOf_fetch (memory : Image Byte) (a : Nat) (hj : j < 4) :
    byteOf (Machine.fetch memory a .word) j = memory (a + j) := by
  unfold byteOf Machine.fetch
  dsimp only
  interval_cases j
  · exact extractLsb'_append_low _ _
  · exact (extractLsb'_append_high _ _ 0).trans (extractLsb'_append_low _ _)
  · exact (extractLsb'_append_high _ _ 8).trans ((extractLsb'_append_high _ _ 0).trans (extractLsb'_append_low _ _))
  · exact (extractLsb'_append_high _ _ 16).trans ((extractLsb'_append_high _ _ 8).trans
      ((extractLsb'_append_high _ _ 0).trans (extractLsb'_byte _)))

theorem byteOf_composed (bytes : Word → Byte) (a : Word) (hk : k < 4) :
    byteOf (composed bytes a .word) k = bytes (a + BitVec.ofNat 32 k) := by
  have hfetch : Machine.fetch (fun k => bytes (a + BitVec.ofNat 32 k)) 0 .word = composed bytes a .word := by
    apply fetch_eq_composed
    intro k _
    rw [Nat.zero_add]
  rw [← hfetch, byteOf_fetch _ _ hk, Nat.zero_add]

theorem store_word_inside (value : Word) (hj : j < 4) :
    memory.store a (Machine.storedBytes value .word) (a + j) = byteOf value j := by
  unfold Image.store
  rw [if_pos (Nat.le_add_right a j), Nat.add_sub_cancel_left, Machine.storedBytes_getElem?,
    if_pos (show j < Size.word.bytes from hj)]
  rfl

theorem store_word_outside (value : Word) {p : Nat} (h : ∀ j < 4, p ≠ a + j) :
    memory.store a (Machine.storedBytes value .word) p = memory p := by
  unfold Image.store
  split_ifs with hle
  · obtain ⟨j, rfl⟩ := Nat.exists_eq_add_of_le hle
    have hj : ¬j < Size.word.bytes := fun hj => h j hj rfl
    rw [Nat.add_sub_cancel_left, Machine.storedBytes_getElem?, if_neg hj]
    rfl
  · rfl

end Words

namespace Machine

variable {m m' n : Machine} {i : Instruction} {a value physAddr : Word} {cover cover' : Nat → Prop}

/-- No load is pending. -/
structure Quiet (m : Machine) : Prop where
  load : m.registers loadReg = 0
  zero : m.registers 0 = 0

/-- What the accesses leave alone. -/
structure Keeps (m m' : Machine) : Prop where
  general : ∀ x : BitVec 5, m'.registers (Nachos.general x) = m.registers (Nachos.general x)
  mapping : m'.translation.mapping = m.translation.mapping

theorem Keeps.trans (h : m.Keeps m') (h' : m'.Keeps n) : m.Keeps n :=
  ⟨fun x => (h'.general x).trans (h.general x), h'.mapping.trans h.mapping⟩

theorem Keeps.physical (h : m.Keeps m') (v : Word) : m'.translation.physical v = m.translation.physical v :=
  Translation.physical_eq_of_mapping h.mapping v

theorem Keeps.locate (h : m.Keeps m') (v : Word) (size : Size) (writing : Bool) :
    m'.translation.locate v size writing = m.translation.locate v size writing :=
  Translation.locate_eq_of_mapping h.mapping v size writing

theorem SameState.keeps (h : m.SameState m') : m.Keeps m' :=
  ⟨fun x => congrFun h.registers (Nachos.general x), h.mapping⟩

theorem SameState.quiet (h : m.SameState m') (hquiet : m.Quiet) : m'.Quiet := by
  constructor
  · rw [h.registers]
    exact hquiet.load
  · rw [h.registers]
    exact hquiet.zero

/-- The end of an instruction when no load was pending. -/
theorem finish_keeps (hquiet : m.Quiet) (pcAfter value : Word) (dest : BitVec 5) :
    m.Keeps ((m.delayedLoad (dest.setWidth 32) value).advance pcAfter) := by
  refine ⟨fun x => ?_, rfl⟩
  rw [advance_general]
  change Nachos.delayedLoad _ _ m.registers (general x) = _
  rw [delayedLoad_apply (loadsGeneral_of_zero hquiet.load), if_neg (general_ne x (y := loadValueReg) (by decide)),
    if_neg (general_ne x (y := loadReg) (by decide)), hquiet.load]
  split_ifs with hzero hval
  · rw [hzero, hquiet.zero]
  · exact absurd (Fin.ext hval) hzero
  · rfl

section Stores

/-- Of the four bytes from an address on, those that are covered are stored, and nothing else is. -/
structure StoredPart (cover : Nat → Prop) (m m' : Machine) (a value : Word) : Prop where
  inside : ∀ k < 4, cover k → ∃ p, m.translation.physical (a + BitVec.ofNat 32 k) = some p ∧
    m'.mainMemory p = byteOf value k
  outside : ∀ p, (∀ k < 4, cover k → m.translation.physical (a + BitVec.ofNat 32 k) ≠ some p) →
    m'.mainMemory p = m.mainMemory p

theorem StoredPart.trans (h : StoredPart cover m m' a value) (h' : StoredPart cover' m' n a value)
    (hkeeps : m.Keeps m') : StoredPart (fun k => cover k ∨ cover' k) m n a value where
  inside := by
    intro k hk hcover
    by_cases hk' : cover' k
    · obtain ⟨p, hp, hvalue⟩ := h'.inside k hk hk'
      rw [hkeeps.physical] at hp
      exact ⟨p, hp, hvalue⟩
    · obtain ⟨p, hp, hvalue⟩ := h.inside k hk (hcover.resolve_right hk')
      refine ⟨p, hp, ?_⟩
      rw [← hvalue]
      apply h'.outside
      intro k' hlt hcover'
      rw [hkeeps.physical]
      have hne : k ≠ k' := by
        rintro rfl
        exact hk' hcover'
      exact Translation.physical_ne (by omega) (by omega) hne hp
  outside := by
    intro p hp
    rw [h'.outside p fun k hk hcover => hkeeps.physical _ ▸ hp k hk (.inr hcover)]
    exact h.outside p fun k hk hcover => hp k hk (.inl hcover)

/-- A word is read, changed and written. -/
theorem storePart_completes {w : Word} (hlocate : m.translation.locate w .word true = .ok physAddr)
    (merged : Word → Word) : ∃ n : Machine, m.storePart w merged = n.proceed ∧ n.registers = m.registers ∧
      n.translation.mapping = m.translation.mapping ∧ n.mainMemory = m.mainMemory.store physAddr.toNat
        (storedBytes (merged (fetch m.mainMemory physAddr.toNat .word)) .word) := by
  obtain ⟨t, hread⟩ := Translation.locate_ok_iff.mp (Translation.locate_reading hlocate)
  have hmapping := Translation.translate_mapping hread
  have hwritable : t.locate w .word true = .ok physAddr := by
    rw [Translation.locate_eq_of_mapping hmapping]
    exact hlocate
  obtain ⟨t', hwrite⟩ := Translation.locate_ok_iff.mp hwritable
  unfold storePart
  rw [readMem_ok_iff.mpr ⟨physAddr, t, hread, rfl, rfl⟩]
  dsimp only
  unfold Machine.store
  rw [writeMem_ok_iff.mpr ⟨physAddr, t', hwrite, rfl⟩]
  exact ⟨_, rfl, rfl, (Translation.translate_mapping hwrite).trans hmapping, rfl⟩

/-- An instruction that stores a part of the word around an address. -/
theorem store_step (hfetch : m.Fetches i) (hquiet : m.Quiet) {w : Word} {merged : Word → Word}
    (hlocate : m.translation.locate w .word true = .ok physAddr)
    (hexecute : ∀ n : Machine, m.SameState n → i.execute n = n.storePart w merged) :
    ∃ m', m.oneInstruction = .completed m' ∧ m.Keeps m' ∧ m'.Quiet ∧ m'.mainMemory = m.mainMemory.store
      physAddr.toNat (storedBytes (merged (fetch m.mainMemory physAddr.toNat .word)) .word) := by
  obtain ⟨n, hsame, hone⟩ := oneInstruction_of_fetches hfetch
  have hlocated : n.translation.locate w .word true = .ok physAddr := by
    rw [hsame.keeps.locate]
    exact hlocate
  obtain ⟨n', hstore, hregisters, hmapping, hmemory⟩ := storePart_completes hlocated merged
  have hkeeps : n.Keeps n' := ⟨fun x => congrFun hregisters (general x), hmapping⟩
  have hquiet' : n'.Quiet := by
    constructor
    · rw [hregisters]
      exact (hsame.quiet hquiet).load
    · rw [hregisters]
      exact (hsame.quiet hquiet).zero
  rw [hsame.mainMemory] at hmemory
  rw [hone, hexecute n hsame, hstore]
  exact ⟨_, rfl, (hsame.keeps.trans hkeeps).trans (finish_keeps hquiet' _ 0 0), ⟨rfl, rfl⟩, hmemory⟩

theorem swr_step (hfetch : m.Fetches i) (hop : i.opCode = .swr) (hquiet : m.Quiet)
    (ha : m.registers (general i.rs) + i.extra = a)
    (hlocate : m.translation.locate (wordAddress a) .word true = .ok physAddr) :
    ∃ m', m.oneInstruction = .completed m' ∧ m.Keeps m' ∧ m'.Quiet ∧
      StoredPart (fun k => k + a.toNat % 4 < 4) m m' a (m.registers (general i.rt)) := by
  have hexecute : ∀ n : Machine, m.SameState n →
      i.execute n = n.storePart (wordAddress a) (splitRight a (m.registers (general i.rt))) := by
    intro n hsame
    unfold Instruction.execute
    rw [hop, hsame.registers]
    dsimp only
    rw [ha]
    rfl
  obtain ⟨m', hone, hkeeps, hquiet', hmemory⟩ := store_step hfetch hquiet hlocate hexecute
  refine ⟨m', hone, hkeeps, hquiet', ?_, ?_⟩
  · intro k _ hk
    refine ⟨physAddr.toNat + (a.toNat % 4 + k), ?_, ?_⟩
    · rw [← wordAddress_add a rfl]
      exact Translation.physical_locate hlocate (show a.toNat % 4 + k < 4 by omega)
    · rw [hmemory, store_word_inside _ (by omega), byteOf_splitRight _ _ _ (by omega), if_pos (by omega),
        Nat.add_sub_cancel_left]
  · intro p hp
    rw [hmemory]
    by_cases hinside : ∃ j < 4, p = physAddr.toNat + j
    · obtain ⟨j, hj, rfl⟩ := hinside
      have hbefore : ¬a.toNat % 4 ≤ j := by
        intro hle
        obtain ⟨k, rfl⟩ := Nat.exists_eq_add_of_le hle
        apply hp k (by omega) (by omega)
        rw [← wordAddress_add a rfl]
        exact Translation.physical_locate hlocate hj
      rw [store_word_inside _ hj, byteOf_splitRight _ _ _ hj, if_neg hbefore, byteOf_fetch _ _ hj]
    · exact store_word_outside _ fun j hj heq => hinside ⟨j, hj, heq⟩

theorem swl_step (hfetch : m.Fetches i) (hop : i.opCode = .swl) (hquiet : m.Quiet)
    (ha : m.registers (general i.rs) + i.extra = a + 3)
    (hlocate : m.translation.locate (wordAddress (a + 3)) .word true = .ok physAddr) :
    ∃ m', m.oneInstruction = .completed m' ∧ m.Keeps m' ∧ m'.Quiet ∧
      StoredPart (fun k => 3 - (a + 3).toNat % 4 ≤ k) m m' a (m.registers (general i.rt)) := by
  have hexecute : ∀ n : Machine, m.SameState n →
      i.execute n = n.storePart (wordAddress (a + 3)) (splitLeft (a + 3) (m.registers (general i.rt))) := by
    intro n hsame
    unfold Instruction.execute
    rw [hop, hsame.registers]
    dsimp only
    rw [ha]
    rfl
  obtain ⟨m', hone, hkeeps, hquiet', hmemory⟩ := store_step hfetch hquiet hlocate hexecute
  refine ⟨m', hone, hkeeps, hquiet', ?_, ?_⟩
  · intro k hk hcover
    obtain ⟨j, rfl⟩ := Nat.exists_eq_add_of_le hcover
    refine ⟨physAddr.toNat + j, ?_, ?_⟩
    · rw [← wordAddress_add_three a rfl]
      exact Translation.physical_locate hlocate (show j < 4 by omega)
    · rw [hmemory, store_word_inside _ (by omega), byteOf_splitLeft _ _ _ (by omega), if_pos (by omega), Nat.add_comm]
  · intro p hp
    rw [hmemory]
    by_cases hinside : ∃ j < 4, p = physAddr.toNat + j
    · obtain ⟨j, hj, rfl⟩ := hinside
      have hbehind : ¬j + (3 - (a + 3).toNat % 4) < 4 := by
        intro hlt
        apply hp (3 - (a + 3).toNat % 4 + j) (by omega) (by omega)
        rw [← wordAddress_add_three a rfl]
        exact Translation.physical_locate hlocate hj
      rw [store_word_inside _ hj, byteOf_splitLeft _ _ _ hj, if_neg hbehind, byteOf_fetch _ _ hj]
    · exact store_word_outside _ fun j hj heq => hinside ⟨j, hj, heq⟩

end Stores

section Loads

theorem virtualByte_of_physical {v : Word} {p : Nat} (h : m.translation.physical v = some p) :
    m.virtualByte v = m.mainMemory p := by
  unfold virtualByte
  rw [h]
  rfl

/-- A value is read for a register, which is written when the next instruction is executed. -/
structure Loads (m m' : Machine) (dest : BitVec 5) (value : Word) : Prop where
  mainMemory : m'.mainMemory = m.mainMemory
  mapping : m'.translation.mapping = m.translation.mapping
  load : m'.registers loadReg = dest.setWidth 32
  loadValue : m'.registers loadValueReg = value
  keeps : m.Quiet → m.Keeps m'

variable {dest : BitVec 5}

theorem Loads.virtualByte (h : Loads m m' dest value) (v : Word) : m'.virtualByte v = m.virtualByte v := by
  unfold Machine.virtualByte
  rw [Translation.physical_eq_of_mapping h.mapping, h.mainMemory]

/-- The target once the load is completed. -/
theorem Loads.completed (h : Loads m m' dest value) (hdest : dest ≠ 0) :
    (m'.delayedLoad 0 0).registers (Nachos.general dest) = value := by
  have hgeneral : LoadsGeneral m'.registers := by
    unfold LoadsGeneral
    rw [h.load, BitVec.toNat_setWidth_of_le (by decide)]
    exact dest.isLt
  have hzero : Nachos.general dest ≠ 0 := fun heq => hdest (general_eq_zero.mp heq)
  change Nachos.delayedLoad 0 0 m'.registers (Nachos.general dest) = _
  rw [delayedLoad_apply hgeneral, if_neg hzero, if_neg (general_ne dest (by decide)),
    if_neg (general_ne dest (by decide)), if_pos (eq_target.mpr h.load), h.loadValue]

theorem pendingValue_quiet (hquiet : m.Quiet) (hdest : dest ≠ 0) :
    m.pendingValue dest = m.registers (general dest) := by
  unfold pendingValue
  rw [hquiet.load]
  apply if_neg
  intro heq
  have hval := congrArg BitVec.toNat heq
  rw [BitVec.toNat_setWidth_of_le (by decide)] at hval
  exact hdest (BitVec.eq_of_toNat_eq hval.symm)

/-- The second load of a pair sees what the first has loaded. -/
theorem Loads.pendingValue (h : Loads m m' dest value) : m'.pendingValue dest = value := by
  unfold Machine.pendingValue
  rw [if_pos h.load, h.loadValue]

/-- An instruction that loads a part of the word around an address. -/
theorem load_step (hfetch : m.Fetches i) {w : Word} {loaded : Word → Word}
    (hlocate : m.translation.locate w .word true = .ok physAddr)
    (hexecute : ∀ n : Machine, m.SameState n → i.execute n = n.load w .word dest loaded) :
    ∃ m', m.oneInstruction = .completed m' ∧
      Loads m m' dest (loaded (fetch m.mainMemory physAddr.toNat .word)) := by
  obtain ⟨n, hsame, hone⟩ := oneInstruction_of_fetches hfetch
  have hlocated : n.translation.locate w .word false = .ok physAddr := by
    rw [hsame.keeps.locate]
    exact Translation.locate_reading hlocate
  obtain ⟨t, hread⟩ := Translation.locate_ok_iff.mp hlocated
  have hload : n.load w .word dest loaded = .completed ⟨{ n with translation := t }, n.registers nextPCReg + 4, dest,
      loaded (fetch m.mainMemory physAddr.toNat .word)⟩ := by
    unfold Machine.load
    rw [readMem_ok_iff.mpr ⟨physAddr, t, hread, rfl, rfl⟩, hsame.mainMemory]
  have hmapping := (Translation.translate_mapping hread).trans hsame.mapping
  rw [hone, hexecute n hsame, hload]
  refine ⟨_, rfl, hsame.mainMemory, hmapping, rfl, rfl, fun hquiet => ?_⟩
  have hquiet' : (⟨n.registers, n.mainMemory, t⟩ : Machine).Quiet :=
    ⟨(hsame.quiet hquiet).load, (hsame.quiet hquiet).zero⟩
  have hkeeps : m.Keeps ⟨n.registers, n.mainMemory, t⟩ := ⟨hsame.keeps.general, hmapping⟩
  exact hkeeps.trans (finish_keeps hquiet' _ _ dest)

theorem lwr_step (hfetch : m.Fetches i) (hop : i.opCode = .lwr) (ha : m.registers (general i.rs) + i.extra = a)
    (hlocate : m.translation.locate (wordAddress a) .word true = .ok physAddr) :
    ∃ m' w, m.oneInstruction = .completed m' ∧ Loads m m' i.rt w ∧ ∀ k < 4, byteOf w k =
      if k + a.toNat % 4 < 4 then m.virtualByte (a + BitVec.ofNat 32 k) else byteOf (m.pendingValue i.rt) k := by
  have hexecute : ∀ n : Machine, m.SameState n →
      i.execute n = n.load (wordAddress a) .word i.rt (mergeRight a (m.pendingValue i.rt)) := by
    intro n hsame
    unfold Instruction.execute pendingValue
    rw [hop, hsame.registers]
    dsimp only
    rw [ha]
    rfl
  obtain ⟨m', hone, hloads⟩ := load_step hfetch hlocate hexecute
  refine ⟨m', _, hone, hloads, ?_⟩
  intro k hk
  rw [byteOf_mergeRight _ _ _ hk]
  split_ifs with hinside
  · have hphysical := Translation.physical_locate hlocate (show a.toNat % 4 + k < 4 by omega)
    rw [wordAddress_add a rfl] at hphysical
    rw [byteOf_fetch _ _ hinside, virtualByte_of_physical hphysical, Nat.add_comm k]
  · rfl

theorem lwl_step (hfetch : m.Fetches i) (hop : i.opCode = .lwl)
    (ha : m.registers (general i.rs) + i.extra = a + 3)
    (hlocate : m.translation.locate (wordAddress (a + 3)) .word true = .ok physAddr) :
    ∃ m' w, m.oneInstruction = .completed m' ∧ Loads m m' i.rt w ∧ ∀ k < 4, byteOf w k =
      if a.toNat % 4 ≤ k then
        m.virtualByte (a + BitVec.ofNat 32 (3 - (a + 3).toNat % 4 + (k - a.toNat % 4)))
      else byteOf (m.pendingValue i.rt) k := by
  have hexecute : ∀ n : Machine, m.SameState n →
      i.execute n = n.load (wordAddress (a + 3)) .word i.rt (mergeLeft (a + 3) (m.pendingValue i.rt)) := by
    intro n hsame
    unfold Instruction.execute pendingValue
    rw [hop, hsame.registers]
    dsimp only
    rw [ha]
    rfl
  have hlast := toNat_add_three_mod a
  have hshift : ((a + 3).toNat + 1) % 4 = a.toNat % 4 := by omega
  obtain ⟨m', hone, hloads⟩ := load_step hfetch hlocate hexecute
  refine ⟨m', _, hone, hloads, ?_⟩
  intro k hk
  rw [byteOf_mergeLeft _ _ _ hk, hshift]
  split_ifs with hinside
  · have hphysical := Translation.physical_locate hlocate (show k - a.toNat % 4 < 4 by omega)
    rw [wordAddress_add_three a rfl] at hphysical
    rw [byteOf_fetch _ _ (by omega), virtualByte_of_physical hphysical]
  · rfl

end Loads

end Machine

end Nachos

import Mathlib.Tactic.IntervalCases
import Nachos.Mips
import Nachos.TranslationBuffer

/-! The memory of the simulated machine as the byte array that a program sees: what `ReadMem` returns after any
accesses, with the conversions of `machine/translate.cc` on hosts of either byte order. -/

namespace Nachos

section HostOrder

/-- `WordToHost`; the flag is `HOST_IS_BIG_ENDIAN`. -/
def wordToHost (bigEndian : Bool) (word : Word) : Word :=
  if bigEndian then
    ((word >>> 24) &&& 0xff) ||| ((word >>> 8) &&& 0xff00) ||| ((word <<< 8) &&& 0xff0000) |||
      ((word <<< 24) &&& 0xff000000)
  else word

/-- `ShortToHost`. -/
def shortToHost (bigEndian : Bool) (shortword : BitVec 16) : BitVec 16 :=
  if bigEndian then ((shortword <<< 8) &&& 0xff00) ||| ((shortword >>> 8) &&& 0xff) else shortword

/-- `WordToMachine`. -/
def wordToMachine (bigEndian : Bool) (word : Word) : Word := wordToHost bigEndian word

/-- `ShortToMachine`. -/
def shortToMachine (bigEndian : Bool) (shortword : BitVec 16) : BitVec 16 := shortToHost bigEndian shortword

/-- The `unsigned int` that the host has at an address. -/
def hostWord (bigEndian : Bool) (memory : Image Byte) (a : Nat) : Word :=
  if bigEndian then memory a ++ memory (a + 1) ++ memory (a + 2) ++ memory (a + 3)
  else memory (a + 3) ++ memory (a + 2) ++ memory (a + 1) ++ memory a

/-- The `unsigned short` that the host has at an address. -/
def hostShort (bigEndian : Bool) (memory : Image Byte) (a : Nat) : BitVec 16 :=
  if bigEndian then memory a ++ memory (a + 1) else memory (a + 1) ++ memory a

/-- The bytes of a value in the memory of the host. -/
def hostBytes {w : Nat} (bigEndian : Bool) (n : Nat) (value : BitVec w) : List Byte :=
  let bytes := (List.range n).map fun k => (value >>> (8 * k)).setWidth 8
  if bigEndian then bytes.reverse else bytes

/-- What `ReadMem` makes of the memory at a physical address. -/
def hostFetch (bigEndian : Bool) (memory : Image Byte) (a : Nat) : Size → Word
  | .byte => (memory a).signExtend 32
  | .half => (shortToHost bigEndian (hostShort bigEndian memory a)).setWidth 32
  | .word => wordToHost bigEndian (hostWord bigEndian memory a)

/-- What `WriteMem` stores at a physical address. -/
def hostStored (bigEndian : Bool) (value : Word) : Size → List Byte
  | .byte => [(value &&& 0xff).setWidth 8]
  | .half => hostBytes bigEndian 2 (shortToMachine bigEndian ((value &&& 0xffff).setWidth 16))
  | .word => hostBytes bigEndian 4 (wordToMachine bigEndian value)

theorem wordToHost_true (word : Word) : wordToHost true word =
    word.extractLsb' 0 8 ++ word.extractLsb' 8 8 ++ word.extractLsb' 16 8 ++ word.extractLsb' 24 8 := by
  unfold wordToHost
  rw [if_pos rfl]
  apply BitVec.eq_of_getLsbD_eq
  intro i hi
  simp only [BitVec.getLsbD_or, BitVec.getLsbD_and, BitVec.getLsbD_ushiftRight, BitVec.getLsbD_shiftLeft,
    BitVec.getLsbD_append, BitVec.getLsbD_extractLsb']
  interval_cases i <;> simp

theorem shortToHost_true (shortword : BitVec 16) :
    shortToHost true shortword = shortword.extractLsb' 0 8 ++ shortword.extractLsb' 8 8 := by
  unfold shortToHost
  rw [if_pos rfl]
  apply BitVec.eq_of_getLsbD_eq
  intro i hi
  simp only [BitVec.getLsbD_or, BitVec.getLsbD_and, BitVec.getLsbD_ushiftRight, BitVec.getLsbD_shiftLeft,
    BitVec.getLsbD_append, BitVec.getLsbD_extractLsb']
  interval_cases i <;> simp

/-- The high part of an appended value. -/
theorem extractLsb'_append_high {n : Nat} (x : BitVec n) (b : Byte) (k : Nat) :
    (x ++ b).extractLsb' (k + 8) 8 = x.extractLsb' k 8 := by
  apply BitVec.eq_of_getLsbD_eq
  intro i hi
  rw [BitVec.getLsbD_extractLsb', BitVec.getLsbD_extractLsb', BitVec.getLsbD_append, if_neg (by omega),
    show k + 8 + i - 8 = k + i by omega]

/-- The low byte of an appended value. -/
theorem extractLsb'_append_low {n : Nat} (x : BitVec n) (b : Byte) : (x ++ b).extractLsb' 0 8 = b := by
  apply BitVec.eq_of_getLsbD_eq
  intro i hi
  rw [BitVec.getLsbD_extractLsb', BitVec.getLsbD_append, Nat.zero_add, if_pos hi, decide_eq_true hi, Bool.true_and]

theorem extractLsb'_byte (b : Byte) : b.extractLsb' 0 8 = b := by
  apply BitVec.eq_of_getLsbD_eq
  intro i hi
  rw [BitVec.getLsbD_extractLsb', Nat.zero_add, decide_eq_true hi, Bool.true_and]

/-- On either host, `ReadMem` finds the least significant byte at the lowest address. -/
theorem hostFetch_eq (bigEndian : Bool) (memory : Image Byte) (a : Nat) (size : Size) :
    hostFetch bigEndian memory a size = Machine.fetch memory a size := by
  cases bigEndian with
  | false => cases size <;> rfl
  | true =>
      cases size with
      | byte => rfl
      | half =>
          unfold hostFetch hostShort Machine.fetch
          dsimp only
          rw [if_pos rfl, shortToHost_true, extractLsb'_append_low,
            extractLsb'_append_high (memory a) (memory (a + 1)) 0, extractLsb'_byte]
      | word =>
          unfold hostFetch hostWord Machine.fetch
          dsimp only
          rw [if_pos rfl, wordToHost_true, extractLsb'_append_low, extractLsb'_append_high _ _ 0,
            extractLsb'_append_low, extractLsb'_append_high _ _ 8, extractLsb'_append_high _ _ 0,
            extractLsb'_append_low, extractLsb'_append_high _ _ 16, extractLsb'_append_high _ _ 8,
            extractLsb'_append_high _ _ 0, extractLsb'_byte]

theorem setWidth_ushiftRight {n : Nat} (x : BitVec n) (k : Nat) : (x >>> k).setWidth 8 = x.extractLsb' k 8 := by
  apply BitVec.eq_of_getLsbD_eq
  intro i hi
  rw [BitVec.getLsbD_setWidth, BitVec.getLsbD_ushiftRight, BitVec.getLsbD_extractLsb']

theorem storedBytes_eq (value : Word) (size : Size) :
    Machine.storedBytes value size = (List.range size.bytes).map fun k => value.extractLsb' (8 * k) 8 := by
  unfold Machine.storedBytes
  apply List.map_congr_left
  intro k _
  exact setWidth_ushiftRight value (8 * k)

theorem hostBytes_eq {n : Nat} (bigEndian : Bool) (count : Nat) (value : BitVec n) :
    hostBytes bigEndian count value =
      let bytes := (List.range count).map fun k => value.extractLsb' (8 * k) 8
      if bigEndian then bytes.reverse else bytes := by
  have hbytes : ((List.range count).map fun k => (value >>> (8 * k)).setWidth 8) =
      (List.range count).map fun k => value.extractLsb' (8 * k) 8 := by
    apply List.map_congr_left
    intro k _
    exact setWidth_ushiftRight value (8 * k)
  unfold hostBytes
  dsimp only
  rw [hbytes]

theorem extractLsb'_low_half (value : Word) {k : Nat} (hk : k + 8 ≤ 16) :
    ((value &&& 0xffff).setWidth 16).extractLsb' k 8 = value.extractLsb' k 8 := by
  have hmask : (0xffff : Word) = BitVec.ofNat 32 (2 ^ 16 - 1) := rfl
  apply BitVec.eq_of_getLsbD_eq
  intro i hi
  rw [BitVec.getLsbD_extractLsb', BitVec.getLsbD_extractLsb', BitVec.getLsbD_setWidth, BitVec.getLsbD_and, hmask,
    BitVec.getLsbD_ofNat, Nat.testBit_two_pow_sub_one]
  simp [show k + i < 16 by omega, show k + i < 32 by omega]

/-- On either host, `WriteMem` puts the least significant byte at the lowest address. -/
theorem hostStored_eq (bigEndian : Bool) (value : Word) (size : Size) :
    hostStored bigEndian value size = Machine.storedBytes value size := by
  rw [storedBytes_eq]
  cases size with
  | byte =>
      have hmask : (0xff : Word) = BitVec.ofNat 32 (2 ^ 8 - 1) := rfl
      have hbyte : (value &&& 0xff).setWidth 8 = value.extractLsb' 0 8 := by
        apply BitVec.eq_of_getLsbD_eq
        intro i hi
        rw [BitVec.getLsbD_extractLsb', BitVec.getLsbD_setWidth, BitVec.getLsbD_and, hmask, BitVec.getLsbD_ofNat,
          Nat.testBit_two_pow_sub_one]
        simp [show i < 8 by omega, show i < 32 by omega]
      exact congrArg (fun b => [b]) hbyte
  | half =>
      have hlow := extractLsb'_low_half value (k := 0) (by omega)
      have hhigh := extractLsb'_low_half value (k := 8) (by omega)
      unfold hostStored shortToMachine
      dsimp only
      rw [hostBytes_eq]
      cases bigEndian with
      | false =>
          change [BitVec.extractLsb' 0 8 _, BitVec.extractLsb' 8 8 _] = _
          rw [shortToHost, if_neg Bool.false_ne_true, hlow, hhigh]
          rfl
      | true =>
          change [BitVec.extractLsb' 8 8 _, BitVec.extractLsb' 0 8 _] = _
          rw [shortToHost_true, extractLsb'_append_low, extractLsb'_append_high _ _ 0, extractLsb'_byte, hlow, hhigh]
          rfl
  | word =>
      unfold hostStored wordToMachine
      dsimp only
      rw [hostBytes_eq]
      cases bigEndian with
      | false => rfl
      | true =>
          change [BitVec.extractLsb' 24 8 _, BitVec.extractLsb' 16 8 _, BitVec.extractLsb' 8 8 _,
            BitVec.extractLsb' 0 8 _] = _
          rw [wordToHost_true, extractLsb'_append_low, extractLsb'_append_high _ _ 0, extractLsb'_append_low,
            extractLsb'_append_high _ _ 8, extractLsb'_append_high _ _ 0, extractLsb'_append_low,
            extractLsb'_append_high _ _ 16, extractLsb'_append_high _ _ 8, extractLsb'_append_high _ _ 0,
            extractLsb'_byte]
          rfl

end HostOrder

namespace Translation

variable {t t' : Translation} {virtAddr physAddr v v' : Word} {size : Size} {writing : Bool} {p : Nat}
  {entry : TranslationEntry} {entries : List TranslationEntry}

/-- The physical address of a virtual byte, if the page of the byte is valid. -/
def physical (t : Translation) (v : Word) : Option Nat :=
  (t.findEntry (page v)).toOption.map fun found => (framed found.2 v).toNat

theorem physical_mapping (t : Translation) : t.mapping.physical v = t.physical v := by
  unfold physical
  rw [findEntry_mapping]
  cases t.findEntry (page v) <;> rfl

theorem physical_eq_of_mapping (h : t'.mapping = t.mapping) (v : Word) : t'.physical v = t.physical v := by
  rw [← physical_mapping t', h, physical_mapping]

theorem toNat_page (v : Word) : (page v).toNat = v.toNat / 128 := rfl

theorem toNat_framed (h : entry.physicalPage.toNat < numPhysPages) (v : Word) :
    (framed entry v).toNat = entry.physicalPage.toNat * 128 + v.toNat % 128 := by
  unfold numPhysPages at h
  unfold framed
  rw [BitVec.toNat_add, BitVec.toNat_mul, BitVec.toNat_umod]
  have hpage : (BitVec.ofNat 32 pageSize).toNat = 128 := rfl
  rw [hpage]
  omega

/-- The bytes of an access stay in its page. -/
theorem toNat_inside (haligned : size.misaligned virtAddr = false) {k : Nat} (hk : k < size.bytes) :
    (virtAddr + BitVec.ofNat 32 k).toNat = virtAddr.toNat + k ∧ virtAddr.toNat % 128 + k < 128 := by
  have hoffset := offset_add_bytes haligned
  have hmod : (virtAddr % BitVec.ofNat 32 pageSize).toNat = virtAddr.toNat % 128 := rfl
  rw [hmod] at hoffset
  unfold pageSize at hoffset
  have hlt := virtAddr.isLt
  rw [BitVec.toNat_add, BitVec.toNat_ofNat]
  omega

/-- An access that succeeds has its bytes behind each other in physical memory. -/
theorem physical_add (h : t.translate virtAddr size writing = .ok (physAddr, t')) {k : Nat} (hk : k < size.bytes) :
    t.physical (virtAddr + BitVec.ofNat 32 k) = some (physAddr.toNat + k) := by
  obtain ⟨haligned, i, entry, hfind, -, hframe, rfl, -⟩ := translate_ok_iff.mp h
  obtain ⟨hsum, hinside⟩ := toNat_inside haligned hk
  have hpage : page (virtAddr + BitVec.ofNat 32 k) = page virtAddr := by
    apply BitVec.eq_of_toNat_eq
    rw [toNat_page, toNat_page, hsum]
    omega
  unfold physical
  rw [hpage, hfind]
  change some (framed entry _).toNat = _
  rw [toNat_framed hframe, toNat_framed hframe, hsum]
  congr 1
  omega

/-- The valid entries are for distinct physical pages that the machine has. -/
structure DistinctFrames (entries : List TranslationEntry) : Prop where
  inside : ∀ entry ∈ entries, entry.valid = true → entry.physicalPage.toNat < numPhysPages
  distinct : ∀ (i j : Nat) (entry entry' : TranslationEntry), entries[i]? = some entry → entries[j]? = some entry' →
    entry.valid = true → entry'.valid = true → entry.physicalPage = entry'.physicalPage → i = j

theorem DistinctFrames.of_nodup
    (hinside : ∀ entry ∈ entries, entry.valid = true → entry.physicalPage.toNat < numPhysPages)
    (hnodup : (entries.map TranslationEntry.physicalPage).Nodup) : DistinctFrames entries where
  inside := hinside
  distinct := by
    intro i j entry entry' hentry hentry' _ _ hframe
    have hlt : i < (entries.map TranslationEntry.physicalPage).length := by
      rw [List.length_map]
      exact (List.getElem?_eq_some_iff.mp hentry).1
    apply (List.getElem?_inj hlt hnodup).mp
    rw [List.getElem?_map, List.getElem?_map, hentry, hentry', Option.map_some, Option.map_some, hframe]

theorem physical_pageTable (h : (pageTable entries).physical v = some p) :
    ∃ entry, entries[(page v).toNat]? = some entry ∧ entry.valid = true ∧ p = (framed entry v).toNat := by
  unfold physical at h
  cases hfind : (pageTable entries).findEntry (page v) with
  | error e =>
      rw [hfind] at h
      cases h
  | ok found =>
      obtain ⟨i, entry⟩ := found
      rw [hfind] at h
      cases h
      have hindex : i = (page v).toNat := by
        unfold findEntry at hfind
        dsimp only at hfind
        split at hfind
        · cases hfind
        · split at hfind
          · cases hfind
            rfl
          · cases hfind
      obtain ⟨hmem, hvalid⟩ := findEntry_mem hfind
      rw [hindex] at hmem
      exact ⟨entry, hmem, hvalid, rfl⟩

/-- Different virtual bytes are different physical bytes. -/
theorem DistinctFrames.physical_injective (h : DistinctFrames entries) (hv : (pageTable entries).physical v = some p)
    (hv' : (pageTable entries).physical v' = some p) : v = v' := by
  obtain ⟨entry, hmem, hvalid, hp⟩ := physical_pageTable hv
  obtain ⟨entry', hmem', hvalid', hp'⟩ := physical_pageTable hv'
  rw [toNat_framed (h.inside _ (List.mem_of_getElem? hmem) hvalid)] at hp
  rw [toNat_framed (h.inside _ (List.mem_of_getElem? hmem') hvalid')] at hp'
  have hframe : entry.physicalPage = entry'.physicalPage := by
    apply BitVec.eq_of_toNat_eq
    omega
  have hpage := h.distinct _ _ _ _ hmem hmem' hvalid hvalid' hframe
  rw [toNat_page, toNat_page] at hpage
  rw [hframe] at hp
  apply BitVec.eq_of_toNat_eq
  omega

end Translation

namespace Machine

/-- `Machine::ReadMem` on either host. -/
def readMemOn (bigEndian : Bool) (m : Machine) (addr : Word) (size : Size) : Except ExceptionType (Word × Machine) :=
  match m.translation.translate addr size false with
  | .error e => .error e
  | .ok (physicalAddress, t) =>
      .ok (hostFetch bigEndian m.mainMemory physicalAddress.toNat size, { m with translation := t })

/-- `Machine::WriteMem` on either host. -/
def writeMemOn (bigEndian : Bool) (m : Machine) (addr : Word) (size : Size) (value : Word) :
    Except ExceptionType Machine :=
  match m.translation.translate addr size true with
  | .error e => .error e
  | .ok (physicalAddress, t) => .ok { m with
      mainMemory := m.mainMemory.store physicalAddress.toNat (hostStored bigEndian value size)
      translation := t }

theorem readMemOn_eq (bigEndian : Bool) (m : Machine) (addr : Word) (size : Size) :
    m.readMemOn bigEndian addr size = m.readMem addr size := by
  unfold readMemOn
  simp only [hostFetch_eq]
  rfl

theorem writeMemOn_eq (bigEndian : Bool) (m : Machine) (addr : Word) (size : Size) (value : Word) :
    m.writeMemOn bigEndian addr size value = m.writeMem addr size value := by
  unfold writeMemOn
  simp only [hostStored_eq]
  rfl

end Machine

/-- A call of `ReadMem` or `WriteMem`. -/
inductive MemoryCall where
  | read (addr : Word) (size : Size)
  | write (addr : Word) (size : Size) (value : Word)

/-- A write that has succeeded. -/
structure Written where
  addr : Word
  size : Size
  value : Word

/-- The last byte that was written at an address; the latest write comes first. -/
def lastByte (initial : Word → Byte) : List Written → Word → Byte
  | [], v => initial v
  | written :: earlier, v =>
      if written.addr.toNat ≤ v.toNat ∧ v.toNat < written.addr.toNat + written.size.bytes then
        written.value.extractLsb' (8 * (v.toNat - written.addr.toNat)) 8
      else lastByte initial earlier v

/-- The value of the bytes from an address on, with the least significant first; a single byte is a `char`. -/
def composed (bytes : Word → Byte) (addr : Word) : Size → Word
  | .byte => BitVec.ofInt 32 (bytes addr).toInt
  | .half => BitVec.ofNat 32 ((bytes addr).toNat + 2 ^ 8 * (bytes (addr + 1)).toNat)
  | .word => BitVec.ofNat 32 ((bytes addr).toNat + 2 ^ 8 * (bytes (addr + 1)).toNat +
      2 ^ 16 * (bytes (addr + 2)).toNat + 2 ^ 24 * (bytes (addr + 3)).toNat)

theorem toNat_append_byte {n : Nat} (x : BitVec n) (b : Byte) : (x ++ b).toNat = 2 ^ 8 * x.toNat + b.toNat := by
  rw [BitVec.toNat_append, ← Nat.shiftLeft_add_eq_or_of_lt b.isLt, Nat.shiftLeft_eq, Nat.mul_comm]

/-- What `ReadMem` finds at a physical address is composed of the bytes there. -/
theorem fetch_eq_composed {memory : Image Byte} {bytes : Word → Byte} {a : Nat} {addr : Word} {size : Size}
    (h : ∀ k < size.bytes, memory (a + k) = bytes (addr + BitVec.ofNat 32 k)) :
    Machine.fetch memory a size = composed bytes addr size := by
  cases size with
  | byte =>
      have h0 := h 0 (by decide)
      rw [Nat.add_zero, show addr + BitVec.ofNat 32 0 = addr from BitVec.add_zero addr] at h0
      unfold Machine.fetch composed
      dsimp only
      rw [h0]
      rfl
  | half =>
      have h0 := h 0 (by decide)
      have h1 := h 1 (by decide)
      rw [Nat.add_zero, show addr + BitVec.ofNat 32 0 = addr from BitVec.add_zero addr] at h0
      unfold Machine.fetch composed
      dsimp only
      rw [h0, h1]
      apply BitVec.eq_of_toNat_eq
      rw [BitVec.toNat_setWidth, toNat_append_byte, BitVec.toNat_ofNat, Nat.add_comm]
      rfl
  | word =>
      have h0 := h 0 (by decide)
      have h1 := h 1 (by decide)
      have h2 := h 2 (by decide)
      have h3 := h 3 (by decide)
      rw [Nat.add_zero, show addr + BitVec.ofNat 32 0 = addr from BitVec.add_zero addr] at h0
      unfold Machine.fetch composed
      dsimp only
      rw [h0, h1, h2, h3]
      have hlt0 := (bytes addr).isLt
      have hlt1 := (bytes (addr + 1)).isLt
      have hlt2 := (bytes (addr + 2)).isLt
      have hlt3 := (bytes (addr + 3)).isLt
      apply BitVec.eq_of_toNat_eq
      rw [toNat_append_byte, toNat_append_byte, toNat_append_byte, BitVec.toNat_ofNat]
      change 2 ^ 8 * (2 ^ 8 * (2 ^ 8 * (bytes (addr + 3)).toNat + (bytes (addr + 2)).toNat) +
        (bytes (addr + 1)).toNat) + (bytes addr).toNat = _
      omega

namespace MemoryCall

/-- The writes of the access, if it succeeds. -/
def written : MemoryCall → List Written
  | .read _ _ => []
  | .write addr size value => [⟨addr, size, value⟩]

/-- The access: the value that is read, or the exception, and the machine then. -/
def perform (bigEndian : Bool) (m : Machine) : MemoryCall → Except ExceptionType (Option Word) × Machine
  | .read addr size =>
      match m.readMemOn bigEndian addr size with
      | .error e => (.error e, m.raiseException addr)
      | .ok (value, m) => (.ok (some value), m)
  | .write addr size value =>
      match m.writeMemOn bigEndian addr size value with
      | .error e => (.error e, m.raiseException addr)
      | .ok m => (.ok none, m)

/-- One more access; the writes that have succeeded are kept, the latest first. -/
def step (bigEndian : Bool) (state : Machine × List Written) (access : MemoryCall) : Machine × List Written :=
  match access.perform bigEndian state.1 with
  | (.error _, m) => (m, state.2)
  | (.ok _, m) => (m, access.written ++ state.2)

/-- The machine after these accesses, and the writes of them that have succeeded. -/
def performAll (bigEndian : Bool) (accesses : List MemoryCall) (m : Machine) : Machine × List Written :=
  accesses.foldl (step bigEndian) (m, [])

end MemoryCall

namespace Machine

/-- The byte that a program sees at an address. -/
def virtualByte (m : Machine) (v : Word) : Byte := ((m.translation.physical v).map m.mainMemory).getD 0

/-- Each virtual byte is the last one that was written there. -/
structure HoldsBytes (start : Machine) (state : Machine × List Written) : Prop where
  mapping : state.1.translation.mapping = start.translation.mapping
  bytes : ∀ v p, start.translation.physical v = some p →
    state.1.mainMemory p = lastByte start.virtualByte state.2 v

variable {start m m' : Machine} {history : List Written} {addr value : Word} {size : Size}
  {entries : List TranslationEntry}

theorem HoldsBytes.initial : HoldsBytes start (start, []) where
  mapping := rfl
  bytes := by
    intro v p hp
    unfold lastByte virtualByte
    rw [hp]
    rfl

theorem HoldsBytes.of_memory (h : HoldsBytes start (m, history)) (hmemory : m'.mainMemory = m.mainMemory)
    (hmapping : m'.translation.mapping = m.translation.mapping) : HoldsBytes start (m', history) where
  mapping := hmapping.trans h.mapping
  bytes := by
    intro v p hp
    rw [hmemory]
    exact h.bytes v p hp

theorem storedBytes_getElem? (value : Word) (size : Size) (k : Nat) :
    (storedBytes value size)[k]? = if k < size.bytes then some (value.extractLsb' (8 * k) 8) else none := by
  rw [storedBytes_eq, List.getElem?_map]
  split_ifs with hk
  · rw [List.getElem?_range hk, Option.map_some]
  · rw [List.getElem?_eq_none (by rw [List.length_range]; omega), Option.map_none]

/-- A virtual byte among those of an access is the one at its distance. -/
theorem eq_add_of_inside {v : Word} {k : Nat} (h : v.toNat = addr.toNat + k) : v = addr + BitVec.ofNat 32 k := by
  have hlt := v.isLt
  apply BitVec.eq_of_toNat_eq
  rw [BitVec.toNat_add, BitVec.toNat_ofNat]
  omega

theorem HoldsBytes.write (h : HoldsBytes start (m, history)) (htable : start.translation = .pageTable entries)
    (hdistinct : Translation.DistinctFrames entries) (hwrite : m.writeMem addr size value = .ok m') :
    HoldsBytes start (m', ⟨addr, size, value⟩ :: history) := by
  obtain ⟨physAddr, t, htranslate, rfl⟩ := writeMem_ok_iff.mp hwrite
  have hphysical : ∀ v, m.translation.physical v = (Translation.pageTable entries).physical v := by
    intro v
    rw [Translation.physical_eq_of_mapping h.mapping, htable]
  refine ⟨(Translation.translate_mapping htranslate).trans h.mapping, ?_⟩
  intro v p hp
  have hold := h.bytes v p hp
  rw [htable] at hp
  change m.mainMemory.store physAddr.toNat (storedBytes value size) p = _
  unfold Image.store lastByte
  rw [storedBytes_getElem?]
  by_cases hinside : addr.toNat ≤ v.toNat ∧ v.toNat < addr.toNat + size.bytes
  · obtain ⟨k, hk⟩ := Nat.exists_eq_add_of_le hinside.1
    have hlt : k < size.bytes := by omega
    have hat := Translation.physical_add htranslate hlt
    rw [← eq_add_of_inside hk, hphysical, hp, Option.some.injEq] at hat
    rw [if_pos hinside, hat, if_pos (by omega), Nat.add_sub_cancel_left, if_pos hlt, hk, Nat.add_sub_cancel_left]
    rfl
  · rw [if_neg hinside]
    by_cases hle : physAddr.toNat ≤ p
    · obtain ⟨k, rfl⟩ := Nat.exists_eq_add_of_le hle
      rw [if_pos hle, Nat.add_sub_cancel_left]
      by_cases hlt : k < size.bytes
      · -- another virtual byte is not at the physical address of a byte that is written
        have hat := Translation.physical_add htranslate hlt
        rw [hphysical] at hat
        obtain ⟨haligned, -⟩ := Translation.translate_ok_iff.mp htranslate
        have hsum := (Translation.toNat_inside haligned hlt).1
        rw [← hdistinct.physical_injective hp hat] at hsum
        omega
      · rw [if_neg hlt]
        exact hold
    · rw [if_neg hle]
      exact hold

/-- One access. -/
theorem HoldsBytes.step {bigEndian : Bool} (h : HoldsBytes start (m, history))
    (htable : start.translation = .pageTable entries) (hdistinct : Translation.DistinctFrames entries)
    (access : MemoryCall) : HoldsBytes start (access.step bigEndian (m, history)) := by
  unfold MemoryCall.step MemoryCall.perform
  cases access with
  | read addr size =>
      dsimp only
      rw [readMemOn_eq]
      cases hread : m.readMem addr size with
      | error e => exact h.of_memory rfl rfl
      | ok found =>
          obtain ⟨value, m'⟩ := found
          obtain ⟨physAddr, t, htranslate, -, rfl⟩ := readMem_ok_iff.mp hread
          exact h.of_memory rfl (Translation.translate_mapping htranslate)
  | write addr size value =>
      dsimp only
      rw [writeMemOn_eq]
      cases hwrite : m.writeMem addr size value with
      | error e => exact h.of_memory rfl rfl
      | ok m' => exact h.write htable hdistinct hwrite

/-- Any accesses. -/
theorem HoldsBytes.run (bigEndian : Bool) (htable : start.translation = .pageTable entries)
    (hdistinct : Translation.DistinctFrames entries) (accesses : List MemoryCall) :
    HoldsBytes start (MemoryCall.performAll bigEndian accesses start) := by
  unfold MemoryCall.performAll
  have hrun : ∀ state, HoldsBytes start state →
      HoldsBytes start (accesses.foldl (MemoryCall.step bigEndian) state) := by
    induction accesses with
    | nil => exact fun _ h => h
    | cons access rest ih => exact fun _ h => ih _ (h.step htable hdistinct access)
  exact hrun _ .initial

/-- What a read returns is composed of the virtual bytes. -/
theorem HoldsBytes.read (h : HoldsBytes start (m, history)) (hread : m.readMem addr size = .ok (value, m')) :
    value = composed (lastByte start.virtualByte history) addr size := by
  obtain ⟨physAddr, t, htranslate, rfl, -⟩ := readMem_ok_iff.mp hread
  apply fetch_eq_composed
  intro k hk
  have hat := Translation.physical_add htranslate hk
  rw [Translation.physical_eq_of_mapping h.mapping] at hat
  exact h.bytes _ _ hat

/-- On hosts of either byte order, virtual memory is a little-endian array of bytes, and an access that fails changes
no memory. -/
theorem virtual_memory_bytes (bigEndian : Bool) (start : Machine) (entries : List TranslationEntry)
    (htable : start.translation = .pageTable entries) (hdistinct : Translation.DistinctFrames entries)
    (accesses : List MemoryCall) :
    (∀ addr size value, ((MemoryCall.read addr size).perform bigEndian
        (MemoryCall.performAll bigEndian accesses start).1).1 = .ok (some value) →
      value = composed (lastByte start.virtualByte (MemoryCall.performAll bigEndian accesses start).2) addr size) ∧
    ∀ (access : MemoryCall) e,
      (access.perform bigEndian (MemoryCall.performAll bigEndian accesses start).1).1 = .error e →
      (access.perform bigEndian (MemoryCall.performAll bigEndian accesses start).1).2.mainMemory =
        (MemoryCall.performAll bigEndian accesses start).1.mainMemory := by
  have hholds := HoldsBytes.run bigEndian htable hdistinct accesses
  generalize MemoryCall.performAll bigEndian accesses start = state at hholds ⊢
  obtain ⟨m, history⟩ := state
  refine ⟨?_, ?_⟩
  · intro addr size value hvalue
    unfold MemoryCall.perform at hvalue
    dsimp only at hvalue
    rw [readMemOn_eq] at hvalue
    cases hread : m.readMem addr size with
    | error e =>
        rw [hread] at hvalue
        cases hvalue
    | ok found =>
        rw [hread] at hvalue
        cases hvalue
        exact hholds.read hread
  · intro access e he
    unfold MemoryCall.perform at he ⊢
    cases access with
    | read addr size =>
        dsimp only at he ⊢
        cases hread : m.readMemOn bigEndian addr size with
        | error e => rfl
        | ok found =>
            rw [hread] at he
            cases he
    | write addr size value =>
        dsimp only at he ⊢
        cases hwrite : m.writeMemOn bigEndian addr size value with
        | error e => rfl
        | ok m' =>
            rw [hwrite] at he
            cases he

/-- A machine with two pages that stand in the other order in its memory. -/
def twoPages : Machine where
  registers _ := 0
  mainMemory _ := 0x55
  translation := .pageTable [⟨0, 1, true, false, false, false⟩, ⟨0, 0, true, false, false, false⟩]

/-- A word, a byte inside it, and a write that is not aligned. -/
def overlapping : List MemoryCall := [.write 128 .word 0x11223344, .write 130 .byte 0xabcd, .write 129 .half 0]

theorem virtual_memory_bytes_overlap :
    ((MemoryCall.read 130 .half).perform true (MemoryCall.performAll true overlapping twoPages).1).1 =
        .ok (some 0x11cd) ∧
      composed (lastByte twoPages.virtualByte (MemoryCall.performAll true overlapping twoPages).2) 130 .half =
        0x11cd := by
  have hdistinct : Translation.DistinctFrames
      [⟨0, 1, true, false, false, false⟩, ⟨0, 0, true, false, false, false⟩] :=
    .of_nodup (by decide) (by decide)
  have hvalue : ((MemoryCall.read 130 .half).perform true
      (MemoryCall.performAll true overlapping twoPages).1).1 = .ok (some 0x11cd) := rfl
  exact ⟨hvalue, ((virtual_memory_bytes true twoPages _ rfl hdistinct _).1 130 .half 0x11cd hvalue).symm⟩

end Machine

end Nachos

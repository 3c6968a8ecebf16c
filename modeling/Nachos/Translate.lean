import Nachos.ObjectLayout
import Nachos.UserThread

/-! The memory of the simulated machine, as a user program sees it: `Machine::Translate`, `ReadMem` and `WriteMem` of
`machine/translate.cc`, on a host with the byte order of the machine. -/

namespace Nachos

/-- The causes of an exception; `NoException` is a translation that succeeds. -/
inductive ExceptionType where
  | syscallException
  | pageFaultException
  | readOnlyException
  | busErrorException
  | addressErrorException
  | overflowException
  | illegalInstrException
  deriving DecidableEq

structure TranslationEntry where
  virtualPage : Word
  physicalPage : Word
  valid : Bool
  readOnly : Bool
  use : Bool
  dirty : Bool
  deriving DecidableEq

/-- What `Translate` looks into. It asserts that there is either a page table or a TLB. -/
inductive Translation where
  | pageTable (entries : List TranslationEntry)
  | tlb (entries : List TranslationEntry)
  deriving DecidableEq

/-- The sizes of an access. -/
inductive Size where
  | byte
  | half
  | word
  deriving DecidableEq

def Size.bytes : Size → Nat
  | .byte => 1
  | .half => 2
  | .word => 4

/-- The check of `Translate` for alignment errors. -/
def Size.misaligned (virtAddr : Word) : Size → Bool
  | .byte => false
  | .half => virtAddr &&& 1 != 0
  | .word => virtAddr &&& 3 != 0

def memorySize : Nat := numPhysPages * pageSize

namespace Translation

/-- The entry for a virtual page, with its index. -/
def findEntry (vpn : Word) : Translation → Except ExceptionType (Nat × TranslationEntry)
  | .pageTable entries =>
      match entries[vpn.toNat]? with
      | none => .error .addressErrorException
      | some entry => if entry.valid then .ok (vpn.toNat, entry) else .error .pageFaultException
  | .tlb entries =>
      match entries.zipIdx.find? fun (entry, _) => entry.valid && entry.virtualPage == vpn with
      | some (entry, i) => .ok (i, entry)
      | none => .error .pageFaultException

def setEntry (i : Nat) (entry : TranslationEntry) : Translation → Translation
  | .pageTable entries => .pageTable (entries.set i entry)
  | .tlb entries => .tlb (entries.set i entry)

/-- `Machine::Translate`: the physical address, and the table with the use and dirty bits set. -/
def translate (t : Translation) (virtAddr : Word) (size : Size) (writing : Bool) :
    Except ExceptionType (Word × Translation) :=
  if size.misaligned virtAddr then .error .addressErrorException
  else
    let vpn := virtAddr / BitVec.ofNat 32 pageSize
    let offset := virtAddr % BitVec.ofNat 32 pageSize
    match t.findEntry vpn with
    | .error e => .error e
    | .ok (i, entry) =>
        if entry.readOnly && writing then .error .readOnlyException
        else
          let pageFrame := entry.physicalPage
          if numPhysPages ≤ pageFrame.toNat then .error .busErrorException
          else .ok (pageFrame * BitVec.ofNat 32 pageSize + offset,
            t.setEntry i { entry with use := true, dirty := entry.dirty || writing })

variable {t t' : Translation} {virtAddr physAddr : Word} {size : Size} {writing : Bool}

theorem offset_add_bytes (h : size.misaligned virtAddr = false) :
    (virtAddr % BitVec.ofNat 32 pageSize).toNat + size.bytes ≤ pageSize := by
  cases size with
  | byte =>
      change virtAddr.toNat % 128 + 1 ≤ 128
      omega
  | half =>
      have hand : (virtAddr &&& 1).toNat = virtAddr.toNat % 2 := Nat.and_two_pow_sub_one_eq_mod _ 1
      have hzero : virtAddr &&& 1 = 0 := by simpa [Size.misaligned] using h
      rw [hzero] at hand
      change 0 = virtAddr.toNat % 2 at hand
      change virtAddr.toNat % 128 + 2 ≤ 128
      omega
  | word =>
      have hand : (virtAddr &&& 3).toNat = virtAddr.toNat % 4 := Nat.and_two_pow_sub_one_eq_mod _ 2
      have hzero : virtAddr &&& 3 = 0 := by simpa [Size.misaligned] using h
      rw [hzero] at hand
      change 0 = virtAddr.toNat % 4 at hand
      change virtAddr.toNat % 128 + 4 ≤ 128
      omega

/-- The assertion at the end of `Translate`. -/
theorem translate_inside (h : t.translate virtAddr size writing = .ok (physAddr, t')) :
    physAddr.toNat + size.bytes ≤ memorySize := by
  unfold translate at h
  split at h
  · cases h
  next haligned =>
    simp only at h
    split at h
    · cases h
    next i entry hfind =>
      split at h
      · cases h
      · split at h
        · cases h
        next hframe =>
          obtain ⟨rfl, -⟩ := Prod.mk.inj (Except.ok.inj h)
          have hoffset := offset_add_bytes (Bool.eq_false_iff.mpr haligned)
          generalize virtAddr % BitVec.ofNat 32 pageSize = offset at hoffset ⊢
          unfold memorySize
          unfold numPhysPages at hframe ⊢
          have hpage : (BitVec.ofNat 32 pageSize).toNat = 128 := rfl
          rw [BitVec.toNat_add, BitVec.toNat_mul, hpage]
          unfold pageSize at hoffset ⊢
          have hbytes : 0 < size.bytes := by cases size <;> decide
          omega

end Translation

/-- The page table that `AddrSpace::AddrSpace` sets up for so many pages; the first page is not valid. -/
def pageTableOf (numPages : Nat) : Translation :=
  .pageTable <| (List.range numPages).map fun i => ⟨0, BitVec.ofNat 32 i, decide (i ≠ 0), false, false, false⟩

/-- Virtual addresses behind the first page are physical ones. -/
theorem translate_pageTableOf {numPages v : Nat} (hpages : numPages ≤ numPhysPages) (hv : pageSize ≤ v)
    (hinside : v < numPages * pageSize) :
    ∃ t, (pageTableOf numPages).translate (BitVec.ofNat 32 v) .byte false = .ok (BitVec.ofNat 32 v, t) := by
  unfold numPhysPages at hpages
  unfold pageSize at hv hinside
  have hlt : v < 2 ^ 32 := by omega
  have hpage : (BitVec.ofNat 32 v / BitVec.ofNat 32 pageSize).toNat = v / 128 := by
    rw [BitVec.toNat_udiv, BitVec.toNat_ofNat, Nat.mod_eq_of_lt hlt]
    rfl
  have hindex : v / 128 < numPages := by omega
  have hphysical : (BitVec.ofNat 32 (v / 128)).toNat = v / 128 := by
    rw [BitVec.toNat_ofNat, Nat.mod_eq_of_lt (by omega)]
  have hfind : (pageTableOf numPages).findEntry (BitVec.ofNat 32 v / BitVec.ofNat 32 pageSize) =
      .ok (v / 128, ⟨0, BitVec.ofNat 32 (v / 128), true, false, false, false⟩) := by
    have hvalid : decide (v / 128 ≠ 0) = true := decide_eq_true (by omega)
    unfold pageTableOf Translation.findEntry
    simp only [hpage, List.getElem?_map, List.getElem?_range hindex, Option.map_some, hvalid, if_true]
  unfold Translation.translate
  rw [if_neg (show ¬Size.misaligned _ .byte = true from Bool.false_ne_true)]
  simp only [hfind, Bool.and_false, hphysical]
  rw [if_neg (by decide), if_neg (by unfold numPhysPages; omega)]
  refine ⟨_, congrArg Except.ok (Prod.ext ?_ rfl)⟩
  apply BitVec.eq_of_toNat_eq
  change ((BitVec.ofNat 32 (v / 128)).toNat * 128 % 2 ^ 32 + v % 2 ^ 32 % 128) % 2 ^ 32 = v % 2 ^ 32
  rw [hphysical]
  omega

/-- The simulated machine, as far as its instructions reach. -/
@[ext] structure Machine where
  registers : Registers
  mainMemory : Image Byte
  translation : Translation

namespace Machine

/-- A value in memory, as `ReadMem` returns it; a single byte is a `char`. -/
def fetch (memory : Image Byte) (a : Nat) : Size → Word
  | .byte => (memory a).signExtend 32
  | .half => (memory (a + 1) ++ memory a).setWidth 32
  | .word => memory (a + 3) ++ memory (a + 2) ++ memory (a + 1) ++ memory a

/-- The bytes that `WriteMem` stores. -/
def storedBytes (value : Word) (size : Size) : List Byte :=
  (List.range size.bytes).map fun k => (value >>> (8 * k)).setWidth 8

/-- `Machine::ReadMem`, up to the call of `RaiseException`. -/
def readMem (m : Machine) (addr : Word) (size : Size) : Except ExceptionType (Word × Machine) :=
  match m.translation.translate addr size false with
  | .error e => .error e
  | .ok (physicalAddress, t) => .ok (fetch m.mainMemory physicalAddress.toNat size, { m with translation := t })

/-- `Machine::WriteMem`, up to the call of `RaiseException`. -/
def writeMem (m : Machine) (addr : Word) (size : Size) (value : Word) : Except ExceptionType Machine :=
  match m.translation.translate addr size true with
  | .error e => .error e
  | .ok (physicalAddress, t) => .ok { m with
      mainMemory := m.mainMemory.store physicalAddress.toNat (storedBytes value size)
      translation := t }

end Machine

end Nachos

import Nachos.Directory
import Nachos.UserThread

/-! Object files and the converter `bin/coff2noff.c` from COFF to NOFF. A file is the list of its bytes, and the
host has the byte order of the machine. -/

namespace Nachos

open Image Layout

/-- The word that stands in a file at this offset. -/
def wordAt (file : List Byte) (offset : Nat) : Word := littleEndian.read fun k => file.getD (offset + k) 0

def shortAt (file : List Byte) (offset : Nat) : BitVec 16 := file.getD (offset + 1) 0 ++ file.getD offset 0

section Noff

structure Segment where
  virtualAddr : Word
  inFileAddr : Word
  size : Word
  deriving DecidableEq

structure NoffHeader where
  noffMagic : Word
  code : Segment
  initData : Segment
  uninitData : Segment
  deriving DecidableEq

/-- The constant `NOFFMAGIC`. -/
def magicNumber : Word := 0xbadfad

namespace NoffHeader

/-- `sizeof(NoffHeader)`. -/
def bytes : Nat := 40

def words (h : NoffHeader) : List Word :=
  [h.noffMagic, h.code.virtualAddr, h.code.inFileAddr, h.code.size, h.initData.virtualAddr, h.initData.inFileAddr,
    h.initData.size, h.uninitData.virtualAddr, h.uninitData.inFileAddr, h.uninitData.size]

def ofWords (l : List Word) : NoffHeader :=
  ⟨l.getD 0 0, ⟨l.getD 1 0, l.getD 2 0, l.getD 3 0⟩, ⟨l.getD 4 0, l.getD 5 0, l.getD 6 0⟩,
    ⟨l.getD 7 0, l.getD 8 0, l.getD 9 0⟩⟩

/-- What the converter writes at the beginning of its output. -/
def encode (h : NoffHeader) : List Byte := load (littleEndian.arrayCells h.words) 0 bytes

/-- The header that stands at the beginning of an image. -/
def decode (m : Image Byte) : NoffHeader := ofWords (littleEndian.readArray m 0 10)

theorem length_encode (h : NoffHeader) : h.encode.length = bytes := length_load

/-- The header is read back, whatever follows it. -/
theorem decode_encode (h : NoffHeader) {m : Image Byte} (hm : ∀ k < bytes, some (m k) = h.encode[k]?) :
    decode m = h := by
  have hcells : ∀ k < littleEndian.size * 10, m (0 + k) = littleEndian.arrayCells h.words (0 + k) := by
    intro k hk
    have hbyte := hm k hk
    unfold encode at hbyte
    rw [getElem?_load, if_pos (show k < bytes from hk)] at hbyte
    rw [Nat.zero_add]
    rw [Nat.zero_add] at hbyte
    exact Option.some.inj hbyte
  calc decode m
      = ofWords (littleEndian.readArray (littleEndian.arrayCells h.words) 0 h.words.length) :=
        congrArg ofWords (littleEndian.readArray_congr hcells)
    _ = ofWords h.words := congrArg ofWords (littleEndian.readArray_arrayCells h.words)
    _ = h := rfl

end NoffHeader

end Noff

section Coff

/-- A section header of a COFF file, as far as it is used. -/
structure SectionHeader where
  name : List Byte
  paddr : Word
  size : Word
  scnptr : Word
  deriving DecidableEq

/-- The section header that stands in a file at this offset. -/
def sectionHeaderAt (coff : List Byte) (offset : Nat) : SectionHeader where
  name := (coff.drop offset).take 8
  paddr := wordAt coff (offset + 8)
  size := wordAt coff (offset + 16)
  scnptr := wordAt coff (offset + 20)

/-- The headers of a COFF file; `main` exits if the file is too short or a magic number is wrong. -/
def readSectionHeaders (coff : List Byte) : Option (List SectionHeader) :=
  let numsections := (shortAt coff 2).toNat
  if coff.length < 20 ∨ shortAt coff 0 ≠ 0x0162 then none
  else if coff.length < 76 ∨ shortAt coff 20 ≠ 0x0107 then none
  else if coff.length < 76 + 40 * numsections then none
  else some ((List.range numsections).map fun i => sectionHeaderAt coff (76 + 40 * i))

namespace SectionHeader

/-- `strcmp` finds that the section has this name. -/
def named (s : SectionHeader) (name : String) : Bool :=
  cString s.name == name.toList.map fun c => BitVec.ofNat 8 c.toNat

def isText (s : SectionHeader) : Bool := s.named ".text"

def isData (s : SectionHeader) : Bool := s.named ".data" || s.named ".rdata"

def isBss (s : SectionHeader) : Bool := s.named ".bss" || s.named ".sbss"

end SectionHeader

/-- The variables of `main`: the header, the offset in the output at which the next segment is to stand, the position
of the input and what has been written behind the header. -/
structure Conversion where
  noffH : NoffHeader
  inNoffFile : Word
  position : Nat
  written : List Byte

namespace Conversion

/-- A section is copied to the output. A negative file pointer leaves `lseek` where it is, and for a negative size
`read` and `write` return -1. -/
def copy (coff : List Byte) (s : SectionHeader) (c : Conversion) : Option (Segment × Conversion) :=
  let position := if 0 ≤ s.scnptr.toInt then s.scnptr.toNat else c.position
  let buffer := (coff.drop position).take s.size.toInt.toNat
  let nRead : Int := if s.size.toInt < 0 then -1 else buffer.length
  if nRead = s.size.toInt then
    some (⟨s.paddr, c.inNoffFile, s.size⟩, { c with
      inNoffFile := c.inNoffFile + s.size
      position := position + buffer.length
      written := c.written ++ buffer })
  else none

def withCode (segment : Segment) (c : Conversion) : Conversion :=
  { c with noffH := { c.noffH with code := segment } }

def withInitData (segment : Segment) (c : Conversion) : Conversion :=
  { c with noffH := { c.noffH with initData := segment } }

def withUninitData (segment : Segment) (c : Conversion) : Conversion :=
  { c with noffH := { c.noffH with uninitData := segment } }

/-- The body of the loop over the sections. -/
def convertSection (coff : List Byte) (c : Conversion) (s : SectionHeader) : Option Conversion :=
  if s.size = 0 then some c
  else if s.isText then
    (c.copy coff s).map fun copied => copied.2.withCode copied.1
  else if s.isData then
    if c.noffH.initData.size ≠ 0 then none
    else (c.copy coff s).map fun copied => copied.2.withInitData copied.1
  else if s.isBss then
    let uninitData := c.noffH.uninitData
    if uninitData.size ≠ 0 then
      if (uninitData.virtualAddr + uninitData.size).slt s.paddr then none
      else some (c.withUninitData { uninitData with size := uninitData.size + s.size })
    else some (c.withUninitData ⟨s.paddr, -1, s.size⟩)
  else none

/-- The loop over the sections. -/
def convertSections (coff : List Byte) : List SectionHeader → Conversion → Option Conversion
  | [], c => some c
  | s :: rest, c => (c.convertSection coff s).bind (convertSections coff rest)

/-- The variables before the loop; the header is not initialised. -/
def start (garbage : NoffHeader) (numsections : Nat) : Conversion where
  noffH := ⟨magicNumber, { garbage.code with size := 0 }, { garbage.initData with size := 0 },
    { garbage.uninitData with size := 0 }⟩
  inNoffFile := BitVec.ofNat 32 NoffHeader.bytes
  position := 76 + 40 * numsections
  written := []

end Conversion

/-- `main` of `coff2noff`: the NOFF file, if the COFF file is accepted. -/
def coff2noff (garbage : NoffHeader) (coff : List Byte) : Option (List Byte) :=
  (readSectionHeaders coff).bind fun sections =>
    (Conversion.convertSections coff sections (.start garbage sections.length)).map fun c =>
      c.noffH.encode ++ c.written

end Coff

end Nachos

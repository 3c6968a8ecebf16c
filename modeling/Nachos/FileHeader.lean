import Mathlib.Algebra.Group.Int.Defs
import Mathlib.Algebra.GroupWithZero.Nat
import Mathlib.Data.List.Perm.Subperm
import Nachos.BitMap
import Nachos.ObjectLayout

/-! The disk, `machine/disk.cc` behind `filesys/synchdisk.cc`, and the file headers, `filesys/filehdr.cc`.
A failed `ASSERT` and an access past the end of an array are `none`. -/

namespace Nachos

def sectorSize : Nat := 128

/-- `SectorsPerTrack * NumTracks`. -/
def numSectors : Nat := 32 * 32

def numDirect : Nat := (sectorSize - 2 * 4) / 4

def maxFileSize : Nat := numDirect * sectorSize

/-- The contents of the UNIX file that is the disk, after its magic number. -/
abbrev Disk := Image Byte

namespace Disk

/-- `SynchDisk::ReadSector`, with the assertion of `Disk::ReadRequest`. -/
def readSector (d : Disk) (sectorNumber : Int) : Option (List Byte) :=
  if 0 ≤ sectorNumber ∧ sectorNumber < numSectors then
    some (Image.load d (sectorSize * sectorNumber.toNat) sectorSize)
  else none

/-- `SynchDisk::WriteSector`, with the assertion of `Disk::WriteRequest`. -/
def writeSector (d : Disk) (sectorNumber : Int) (data : Image Byte) : Option Disk :=
  if 0 ≤ sectorNumber ∧ sectorNumber < numSectors then
    some (Image.store d (sectorSize * sectorNumber.toNat) (Image.load data 0 sectorSize))
  else none

end Disk

theorem divRoundUp_sectorSize (n : Nat) : divRoundUp n sectorSize = (n + 127) / 128 := by
  unfold divRoundUp sectorSize
  split_ifs <;> omega

theorem divRoundUp_le {n : Nat} (h : n ≤ maxFileSize) : divRoundUp n sectorSize ≤ numDirect := by
  rw [divRoundUp_sectorSize]
  simp only [maxFileSize, numDirect, sectorSize] at *
  omega

structure FileHeader where
  numBytes : Word
  numSectors : Word
  dataSectors : List Word
  length_dataSectors : dataSectors.length = numDirect

namespace FileHeader

/-- The object as it stands in memory, and in a sector. -/
def layout : Layout Byte FileHeader where
  size := sectorSize
  cells hdr := Layout.littleEndian.arrayCells (hdr.numBytes :: hdr.numSectors :: hdr.dataSectors)
  read m :=
    let words := Layout.littleEndian.readArray m 0 (2 + numDirect)
    { numBytes := words.getD 0 0
      numSectors := words.getD 1 0
      dataSectors := words.drop 2
      length_dataSectors := by rw [List.length_drop, Layout.length_readArray]; rfl }
  read_congr := by
    intro m m' h
    have hwords : Layout.littleEndian.readArray m 0 (2 + numDirect) =
        Layout.littleEndian.readArray m' 0 (2 + numDirect) := by
      apply Layout.readArray_congr
      intro k hk
      rw [Nat.zero_add]
      exact h k hk
    simp only [hwords]
  read_cells := by
    intro hdr
    have hwords := Layout.littleEndian.readArray_arrayCells
      (hdr.numBytes :: hdr.numSectors :: hdr.dataSectors)
    rw [List.length_cons, List.length_cons, hdr.length_dataSectors,
      show numDirect + 1 + 1 = 2 + numDirect from rfl] at hwords
    simp only [hwords]
    rfl

/-- The loop of `FileHeader::Allocate` from index `i` on. -/
def allocateFrom (hdr : FileHeader) (freeMap : BitMap) (i : Nat) : Nat → Option (FileHeader × BitMap)
  | 0 => some (hdr, freeMap)
  | left + 1 =>
      let (sector, freeMap) := freeMap.find
      if i < numDirect then
        let dataSectors := hdr.dataSectors.set i (BitVec.ofInt 32 sector)
        allocateFrom
          { hdr with
            dataSectors := dataSectors
            length_dataSectors := by rw [List.length_set, hdr.length_dataSectors] }
          freeMap (i + 1) left
      else none

/-- `FileHeader::Allocate`. -/
def allocate (hdr : FileHeader) (freeMap : BitMap) (fileSize : Int) :
    Option (Bool × FileHeader × BitMap) :=
  let numSectors := fileSize.tdiv sectorSize + if 0 < fileSize.tmod sectorSize then 1 else 0
  let hdr := { hdr with numBytes := BitVec.ofInt 32 fileSize, numSectors := BitVec.ofInt 32 numSectors }
  if freeMap.numClear < numSectors then some (false, hdr, freeMap)
  else (allocateFrom hdr freeMap 0 numSectors.toNat).map fun result => (true, result)

/-- The loop of `FileHeader::Deallocate` from index `i` on. -/
def deallocateFrom (hdr : FileHeader) (freeMap : BitMap) (i : Nat) : Nat → Option BitMap
  | 0 => some freeMap
  | left + 1 => do
      let sector ← hdr.dataSectors[i]?
      let marked ← freeMap.test sector.toInt
      if marked then
        let freeMap ← freeMap.clear sector.toInt
        deallocateFrom hdr freeMap (i + 1) left
      else none

/-- `FileHeader::Deallocate`. -/
def deallocate (hdr : FileHeader) (freeMap : BitMap) : Option BitMap :=
  hdr.deallocateFrom freeMap 0 hdr.numSectors.toInt.toNat

/-- `FileHeader::FetchFrom`. -/
def fetchFrom (d : Disk) (sector : Int) : Option FileHeader :=
  (d.readSector sector).map fun data => layout.read (Image.ofList data 0)

/-- `FileHeader::WriteBack`. -/
def writeBack (hdr : FileHeader) (d : Disk) (sector : Int) : Option Disk :=
  d.writeSector sector (layout.cells hdr)

/-- `FileHeader::ByteToSector`. -/
def byteToSector (hdr : FileHeader) (offset : Nat) : Option Int :=
  hdr.dataSectors[offset / sectorSize]?.map BitVec.toInt

/-- `FileHeader::FileLength`. -/
def fileLength (hdr : FileHeader) : Int := hdr.numBytes.toInt

/-- The data sectors of the file. -/
def sectors (hdr : FileHeader) : List Nat :=
  (hdr.dataSectors.take hdr.numSectors.toNat).map BitVec.toNat

/-- The header of a file of at most `MaxFileSize` bytes, each sector of it once. -/
structure WellFormed (hdr : FileHeader) : Prop where
  numBytes_le : hdr.numBytes.toNat ≤ maxFileSize
  numSectors_eq : hdr.numSectors.toNat = divRoundUp hdr.numBytes.toNat sectorSize
  sector_lt : ∀ s ∈ hdr.sectors, s < Nachos.numSectors
  nodup : hdr.sectors.Nodup

theorem length_sectors {hdr : FileHeader} (h : hdr.WellFormed) :
    hdr.sectors.length = divRoundUp hdr.numBytes.toNat sectorSize := by
  have hle := divRoundUp_le h.numBytes_le
  have hnum := h.numSectors_eq
  unfold sectors
  rw [List.length_map, List.length_take, hdr.length_dataSectors]
  omega

/-- The data sectors are words, read as numbers. -/
theorem getElem?_dataSectors {hdr : FileHeader} {i : Nat} (hi : i < hdr.sectors.length) :
    ∃ w : Word, hdr.dataSectors[i]? = some w ∧ w.toNat = hdr.sectors[i] := by
  unfold sectors at hi ⊢
  rw [List.length_map, List.length_take] at hi
  have hlt : i < hdr.dataSectors.length := by omega
  refine ⟨hdr.dataSectors[i], List.getElem?_eq_getElem hlt, ?_⟩
  simp

theorem toInt_of_lt {w : Word} (h : w.toNat < Nachos.numSectors) : w.toInt = w.toNat := by
  apply BitVec.toInt_eq_toNat_of_lt
  simp only [Nachos.numSectors] at h
  omega

theorem byteToSector_eq {hdr : FileHeader} (h : hdr.WellFormed) {i : Nat} (hi : i < hdr.sectors.length) :
    hdr.byteToSector (i * sectorSize) = some ↑hdr.sectors[i] ∧ hdr.sectors[i] < Nachos.numSectors := by
  obtain ⟨w, hw, heq⟩ := getElem?_dataSectors hi
  have hlt : hdr.sectors[i] < Nachos.numSectors := h.sector_lt _ (List.getElem_mem hi)
  refine ⟨?_, hlt⟩
  unfold byteToSector
  rw [Nat.mul_div_cancel i (by decide), hw, Option.map_some, toInt_of_lt (by omega), heq]

theorem fileLength_eq {hdr : FileHeader} (h : hdr.WellFormed) : hdr.fileLength = hdr.numBytes.toNat := by
  have hle := h.numBytes_le
  simp only [maxFileSize, numDirect, sectorSize] at hle
  apply BitVec.toInt_eq_toNat_of_lt
  omega

/-- The sectors `taken` were clear in the map and are the only ones marked since. -/
structure Taken (m m' : BitMap) (taken : List Nat) : Prop where
  numBits_eq : m'.numBits = m.numBits
  nodup : taken.Nodup
  clear : ∀ s ∈ taken, s < m.numBits ∧ m.bit s = false
  bit : ∀ j, m'.bit j = (decide (j ∈ taken) || m.bit j)

theorem Taken.refl (m : BitMap) : Taken m m [] :=
  ⟨rfl, List.nodup_nil, by simp, by simp⟩

theorem Taken.cons {m m' : BitMap} {s : Nat} {taken : List Nat} (hs : s < m.numBits)
    (hclear : m.bit s = false) (h : Taken (m.setBit s) m' taken) : Taken m m' (s :: taken) := by
  refine ⟨h.numBits_eq, ?_, ?_, ?_⟩
  · refine List.nodup_cons.mpr ⟨?_, h.nodup⟩
    intro hmem
    have hset := (h.clear s hmem).2
    rw [BitMap.bit_setBit hs, decide_eq_true rfl, Bool.true_or] at hset
    cases hset
  · intro t ht
    rcases List.mem_cons.mp ht with rfl | ht
    · exact ⟨hs, hclear⟩
    · obtain ⟨hlt, hbit⟩ := h.clear t ht
      rw [BitMap.bit_setBit hs, Bool.or_eq_false_iff] at hbit
      exact ⟨hlt, hbit.2⟩
  · intro j
    rw [h.bit, BitMap.bit_setBit hs]
    by_cases hj : j = s <;> simp [hj]

theorem Taken.append {m m' m'' : BitMap} {taken taken' : List Nat} (h : Taken m m' taken) (h' : Taken m' m'' taken') :
    Taken m m'' (taken ++ taken') := by
  have hclear : ∀ s ∈ taken', s < m.numBits ∧ s ∉ taken ∧ m.bit s = false := by
    intro s hs
    obtain ⟨hlt, hbit⟩ := h'.clear s hs
    rw [h.bit, Bool.or_eq_false_iff, decide_eq_false_iff_not] at hbit
    exact ⟨Nat.lt_of_lt_of_eq hlt h.numBits_eq, hbit⟩
  refine ⟨h'.numBits_eq.trans h.numBits_eq, ?_, ?_, ?_⟩
  · rw [List.nodup_append]
    exact ⟨h.nodup, h'.nodup, fun s hs t ht heq => (hclear t ht).2.1 (heq ▸ hs)⟩
  · intro s hs
    rcases List.mem_append.mp hs with hs | hs
    · exact h.clear s hs
    · exact ⟨(hclear s hs).1, (hclear s hs).2.2⟩
  · intro j
    rw [h'.bit, h.bit]
    by_cases hin : j ∈ taken <;> by_cases hin' : j ∈ taken' <;> simp [hin, hin']

theorem Taken.numClear_le {m m' : BitMap} {taken : List Nat} (h : Taken m m' taken) :
    m.numClear ≤ m'.numClear + taken.length := by
  unfold BitMap.numClear
  rw [List.countP_eq_length_filter, List.countP_eq_length_filter, ← List.length_append, h.numBits_eq]
  apply List.Subperm.length_le
  apply List.subperm_of_subset (List.nodup_range.filter _)
  intro j hj
  obtain ⟨hlt, hclear⟩ := List.mem_filter.mp hj
  by_cases hin : j ∈ taken
  · exact List.mem_append_right _ hin
  · apply List.mem_append_left
    rw [List.mem_filter, h.bit, decide_eq_false hin, Bool.false_or]
    exact ⟨hlt, hclear⟩

theorem allocateFrom_spec (left : Nat) : ∀ (hdr : FileHeader) (m : BitMap) (i : Nat), left ≤ m.numClear →
    i + left ≤ numDirect → m.numBits = Nachos.numSectors →
    ∃ (hdr' : FileHeader) (m' : BitMap) (taken : List Nat),
      hdr.allocateFrom m i left = some (hdr', m') ∧ Taken m m' taken ∧ taken.length = left ∧
        hdr'.numBytes = hdr.numBytes ∧ hdr'.numSectors = hdr.numSectors ∧
        hdr'.dataSectors.take (i + left) = hdr.dataSectors.take i ++ taken.map (BitVec.ofNat 32) := by
  induction left with
  | zero =>
      intro hdr m i _ _ _
      exact ⟨hdr, m, [], rfl, .refl m, rfl, rfl, rfl, by simp⟩
  | succ left ih =>
      intro hdr m i hleft hi hbits
      obtain ⟨j, hj, hclear⟩ := BitMap.numClear_pos_iff.mp (show 0 < m.numClear by omega)
      rcases m.find_spec with ⟨-, hall⟩ | ⟨s, hs, hclear, hfind⟩
      · rw [hall j hj] at hclear
        cases hclear
      have hnum := BitMap.numClear_setBit hs hclear
      obtain ⟨hdr', m', taken, heq, htaken, hlen, hbytes, hsectors, htake⟩ := ih
        { hdr with
          dataSectors := hdr.dataSectors.set i (BitVec.ofInt 32 ↑s)
          length_dataSectors := by rw [List.length_set, hdr.length_dataSectors] }
        (m.setBit s) (i + 1) (by omega) (by omega) hbits
      refine ⟨hdr', m', s :: taken, ?_, .cons hs hclear htaken, ?_, hbytes, hsectors, ?_⟩
      · rw [allocateFrom, hfind]
        simp only
        rw [if_pos (by omega)]
        exact heq
      · rw [List.length_cons, hlen]
      · rw [show i + (left + 1) = i + 1 + left by omega, htake, List.take_add_one, List.take_set_of_le (Nat.le_refl i)]
        have hlt : i < hdr.dataSectors.length := by
          rw [hdr.length_dataSectors]
          omega
        simp [hlt, BitVec.ofInt_natCast]

theorem numSectors_of_size (size : Nat) :
    (size : Int).tdiv sectorSize + (if 0 < (size : Int).tmod sectorSize then 1 else 0) =
      ↑(divRoundUp size sectorSize) := by
  rw [Int.tdiv_eq_ediv_of_nonneg (by omega), Int.tmod_eq_emod_of_nonneg (by omega)]
  unfold divRoundUp sectorSize
  split_ifs <;> omega

theorem map_toNat_ofNat {l : List Nat} (h : ∀ s ∈ l, s < Nachos.numSectors) :
    (l.map (BitVec.ofNat 32)).map BitVec.toNat = l := by
  rw [List.map_map]
  refine (List.map_congr_left ?_).trans (List.map_id l)
  intro s hs
  have hlt := h s hs
  simp only [Nachos.numSectors] at hlt
  rw [Function.comp_apply, BitVec.toNat_ofNat, id_eq]
  omega

/-- `Allocate` fails when there are too few clear bits and leaves the map as it is. Otherwise it makes a
well-formed header of clear sectors. -/
theorem allocate_spec (hdr : FileHeader) {m : BitMap} {size : Nat} (hsize : size ≤ maxFileSize)
    (hbits : m.numBits = Nachos.numSectors) :
    (m.numClear < divRoundUp size sectorSize ∧ ∃ hdr', hdr.allocate m size = some (false, hdr', m)) ∨
      (divRoundUp size sectorSize ≤ m.numClear ∧ ∃ hdr' m', hdr.allocate m size = some (true, hdr', m') ∧
        hdr'.WellFormed ∧ hdr'.numBytes.toNat = size ∧ Taken m m' hdr'.sectors) := by
  unfold allocate
  simp only [numSectors_of_size]
  rcases Nat.lt_or_ge m.numClear (divRoundUp size sectorSize) with hlt | hge
  · left
    rw [if_pos (by omega)]
    exact ⟨hlt, _, rfl⟩
  refine .inr ⟨hge, ?_⟩
  have hdirect := divRoundUp_le hsize
  obtain ⟨hdr', m', taken, heq, htaken, hlen, hbytes, hnum, htake⟩ := allocateFrom_spec
    (divRoundUp size sectorSize)
    { hdr with
      numBytes := BitVec.ofInt 32 ↑size
      numSectors := BitVec.ofInt 32 ↑(divRoundUp size sectorSize) } m 0 hge (by omega) hbits
  change hdr'.numBytes = BitVec.ofInt 32 ↑size at hbytes
  change hdr'.numSectors = BitVec.ofInt 32 ↑(divRoundUp size sectorSize) at hnum
  have hsmall : divRoundUp size sectorSize < 2 ^ 32 :=
    Nat.lt_of_le_of_lt hdirect (by decide)
  have hsize32 : size < 2 ^ 32 := Nat.lt_of_le_of_lt hsize (by decide)
  have hnumBytes : hdr'.numBytes.toNat = size := by
    rw [hbytes, BitVec.ofInt_natCast, BitVec.toNat_ofNat, Nat.mod_eq_of_lt hsize32]
  have hnumSectors : hdr'.numSectors.toNat = divRoundUp size sectorSize := by
    rw [hnum, BitVec.ofInt_natCast, BitVec.toNat_ofNat, Nat.mod_eq_of_lt hsmall]
  have hlt : ∀ s ∈ taken, s < Nachos.numSectors := by
    intro s hs
    rw [← hbits]
    exact (htaken.clear s hs).1
  have hsectors : hdr'.sectors = taken := by
    unfold sectors
    rw [hnumSectors, ← Nat.zero_add (divRoundUp size sectorSize), htake, List.take_zero, List.nil_append,
      map_toNat_ofNat hlt]
  refine ⟨hdr', m', ?_, ?_, hnumBytes, ?_⟩
  · rw [if_neg (by omega), Int.toNat_natCast, heq, Option.map_some]
  · refine ⟨by omega, by rw [hnumBytes, hnumSectors], ?_, ?_⟩
    · rw [hsectors]
      exact hlt
    · rw [hsectors]
      exact htaken.nodup
  · rw [hsectors]
    exact htaken

/-- `Allocate` succeeds when there is room. -/
theorem allocate_of_room (hdr : FileHeader) {m : BitMap} {size : Nat} (hsize : size ≤ maxFileSize)
    (hbits : m.numBits = Nachos.numSectors) (hroom : divRoundUp size sectorSize ≤ m.numClear) :
    ∃ hdr' m', hdr.allocate m size = some (true, hdr', m') ∧ hdr'.WellFormed ∧ hdr'.numBytes.toNat = size ∧
      Taken m m' hdr'.sectors := by
  rcases hdr.allocate_spec hsize hbits with ⟨hfew, -⟩ | ⟨-, hallocate⟩
  · omega
  · exact hallocate

theorem deallocateFrom_spec (hdr : FileHeader) (left : Nat) : ∀ (m : BitMap) (i : Nat),
    m.numBits = Nachos.numSectors →
    (hdr.dataSectors.drop i).length ≥ left →
    (∀ s ∈ ((hdr.dataSectors.drop i).take left).map BitVec.toNat, s < Nachos.numSectors ∧ m.bit s = true) →
    (((hdr.dataSectors.drop i).take left).map BitVec.toNat).Nodup →
    ∃ m', hdr.deallocateFrom m i left = some m' ∧ m'.numBits = m.numBits ∧
      ∀ j, m'.bit j =
        (!decide (j ∈ ((hdr.dataSectors.drop i).take left).map BitVec.toNat) && m.bit j) := by
  induction left with
  | zero =>
      intro m i _ _ _ _
      exact ⟨m, rfl, rfl, by simp⟩
  | succ left ih =>
      intro m i hbits hlen hmarked hnodup
      rw [List.length_drop] at hlen
      have hi : i < hdr.dataSectors.length := by omega
      rw [List.drop_eq_getElem_cons hi, List.take_succ_cons, List.map_cons] at hmarked hnodup ⊢
      obtain ⟨hnotin, hnodup⟩ := List.nodup_cons.mp hnodup
      obtain ⟨hlt, hbit⟩ := hmarked _ List.mem_cons_self
      have hint := toInt_of_lt hlt
      have hsNum : hdr.dataSectors[i].toNat < m.numBits := by omega
      obtain ⟨m', heq, hnum, hbits'⟩ := ih (m.clearBit hdr.dataSectors[i].toNat) (i + 1) hbits
        (by rw [List.length_drop]; omega)
        (by
          intro s hs
          obtain ⟨hslt, hsbit⟩ := hmarked s (List.mem_cons_of_mem _ hs)
          have hne : s ≠ hdr.dataSectors[i].toNat := fun heq => hnotin (heq ▸ hs)
          refine ⟨hslt, ?_⟩
          rw [BitMap.bit_clearBit hsNum, hsbit, decide_eq_false hne]
          rfl)
        hnodup
      refine ⟨m', ?_, hnum, ?_⟩
      · simp [deallocateFrom, hi, BitMap.test, BitMap.clear, hint, hsNum, hbit, heq]
      · intro j
        rw [hbits', BitMap.bit_clearBit hsNum]
        by_cases hj : j = hdr.dataSectors[i].toNat <;> simp [hj]

/-- `Deallocate` clears the bits of the data sectors. Its assertion needs them marked, and each of them
once in the header. -/
theorem deallocate_spec {hdr : FileHeader} (h : hdr.WellFormed) {m : BitMap}
    (hbits : m.numBits = Nachos.numSectors) (hmarked : ∀ s ∈ hdr.sectors, m.bit s = true) :
    ∃ m', hdr.deallocate m = some m' ∧ m'.numBits = m.numBits ∧
      ∀ j, m'.bit j = (!decide (j ∈ hdr.sectors) && m.bit j) := by
  have hdirect := divRoundUp_le h.numBytes_le
  have hnum := h.numSectors_eq
  have hint : hdr.numSectors.toInt.toNat = hdr.numSectors.toNat := by
    rw [toInt_of_lt, Int.toNat_natCast]
    simp only [numDirect, sectorSize, Nachos.numSectors] at *
    omega
  have hspec := hdr.deallocateFrom_spec hdr.numSectors.toNat m 0 hbits
  rw [List.drop_zero] at hspec
  unfold deallocate
  rw [hint]
  apply hspec
  · rw [hdr.length_dataSectors]
    omega
  · intro s hs
    exact ⟨h.sector_lt s hs, hmarked s hs⟩
  · exact h.nodup

end FileHeader

namespace Disk

/-- The sector holds the same bytes on both disks. -/
def SameSector (d d' : Disk) (s : Nat) : Prop :=
  ∀ k < sectorSize, d' (sectorSize * s + k) = d (sectorSize * s + k)

theorem SameSector.trans {d d' d'' : Disk} {s : Nat} (h : SameSector d d' s) (h' : SameSector d' d'' s) :
    SameSector d d'' s :=
  fun k hk => (h' k hk).trans (h k hk)

/-- The disk after a sector is written. -/
def withSector (d : Disk) (s : Nat) (data : Image Byte) : Disk :=
  Image.store d (sectorSize * s) (Image.load data 0 sectorSize)

theorem withSector_apply (d : Disk) (s t : Nat) (data : Image Byte) {k : Nat} (hk : k < sectorSize) :
    d.withSector s data (sectorSize * t + k) = if t = s then data k else d (sectorSize * t + k) := by
  unfold withSector
  rw [Image.store_load]
  unfold sectorSize at *
  by_cases h : t = s
  · subst h
    rw [if_pos (by omega), if_pos rfl, Nat.zero_add, Nat.add_sub_cancel_left]
  · rw [if_neg (by omega), if_neg h]

theorem sameSector_withSector (d : Disk) {s t : Nat} (data : Image Byte) (h : t ≠ s) :
    SameSector d (d.withSector s data) t := by
  intro k hk
  rw [withSector_apply d s t data hk, if_neg h]

theorem writeSector_eq (d : Disk) {s : Nat} (hs : s < numSectors) (data : Image Byte) :
    d.writeSector ↑s data = some (d.withSector s data) := by
  unfold writeSector withSector
  rw [if_pos (by omega), Int.toNat_natCast]

theorem readSector_eq (d : Disk) {s : Nat} (hs : s < numSectors) :
    d.readSector ↑s = some (Image.load d (sectorSize * s) sectorSize) := by
  unfold readSector
  rw [if_pos (by omega), Int.toNat_natCast]

/-- The header that a sector holds. -/
def header (d : Disk) (s : Nat) : FileHeader :=
  FileHeader.layout.read fun k => d (sectorSize * s + k)

theorem header_congr {d d' : Disk} {s : Nat} (h : SameSector d d' s) : d'.header s = d.header s := by
  apply FileHeader.layout.read_congr
  intro k hk
  exact h k hk

theorem header_withSector (d : Disk) (s : Nat) (hdr : FileHeader) :
    (d.withSector s (FileHeader.layout.cells hdr)).header s = hdr := by
  have hread : (d.withSector s (FileHeader.layout.cells hdr)).header s =
      FileHeader.layout.read (FileHeader.layout.cells hdr) := by
    apply FileHeader.layout.read_congr
    intro k hk
    rw [withSector_apply _ _ _ _ hk, if_pos rfl]
  rw [hread, FileHeader.layout.read_cells]

end Disk

namespace FileHeader

theorem fetchFrom_eq (d : Disk) {s : Nat} (hs : s < Nachos.numSectors) :
    fetchFrom d ↑s = some (d.header s) := by
  have hread : layout.read (Image.ofList (Image.load d (sectorSize * s) sectorSize) 0) = d.header s := by
    apply layout.read_congr
    intro k hk
    have hk : k < sectorSize := hk
    unfold Image.ofList
    rw [Image.store_load, if_pos (by omega), Nat.sub_zero]
  unfold fetchFrom
  rw [d.readSector_eq hs, Option.map_some, hread]

theorem writeBack_eq (hdr : FileHeader) (d : Disk) {s : Nat} (hs : s < Nachos.numSectors) :
    hdr.writeBack d ↑s = some (d.withSector s (layout.cells hdr)) :=
  d.writeSector_eq hs _

/-- The bytes of the file, through its data sectors. -/
def image (hdr : FileHeader) (d : Disk) : Image Byte :=
  fun k => d (sectorSize * hdr.sectors.getD (k / sectorSize) 0 + k % sectorSize)

/-- The contents of the file. -/
def contents (hdr : FileHeader) (d : Disk) : List Byte :=
  Image.load (hdr.image d) 0 hdr.numBytes.toNat

@[simp]
theorem length_contents (hdr : FileHeader) (d : Disk) : (hdr.contents d).length = hdr.numBytes.toNat :=
  Image.length_load

/-- A byte of the file lies in one of its sectors. -/
theorem image_eq {hdr : FileHeader} (d : Disk) {i k : Nat} (hi : i < hdr.sectors.length) (hk : k < sectorSize) :
    hdr.image d (sectorSize * i + k) = d (sectorSize * hdr.sectors[i] + k) := by
  unfold image
  have hdiv : (sectorSize * i + k) / sectorSize = i := by
    rw [Nat.mul_add_div (by decide), Nat.div_eq_of_lt hk, Nat.add_zero]
  have hmod : (sectorSize * i + k) % sectorSize = k := by
    rw [Nat.mul_add_mod, Nat.mod_eq_of_lt hk]
  rw [hdiv, hmod, List.getD_eq_getElem _ _ hi]

theorem div_lt_length_sectors {hdr : FileHeader} (h : hdr.WellFormed) {k : Nat}
    (hk : k < hdr.numBytes.toNat) : k / sectorSize < hdr.sectors.length := by
  rw [length_sectors h, divRoundUp_sectorSize]
  unfold sectorSize
  omega

theorem image_congr {hdr : FileHeader} {d d' : Disk} (hsame : ∀ s ∈ hdr.sectors, Disk.SameSector d d' s)
    {k : Nat} (hk : k / sectorSize < hdr.sectors.length) : hdr.image d' k = hdr.image d k := by
  have hmod : k % sectorSize < sectorSize := Nat.mod_lt k (by decide)
  rw [← Nat.div_add_mod k sectorSize, image_eq d hk hmod, image_eq d' hk hmod]
  exact hsame _ (List.getElem_mem hk) _ hmod

/-- The contents of a file depend on its own sectors only. -/
theorem contents_congr {hdr : FileHeader} (h : hdr.WellFormed) {d d' : Disk}
    (hsame : ∀ s ∈ hdr.sectors, Disk.SameSector d d' s) : hdr.contents d' = hdr.contents d := by
  apply Image.load_congr
  intro k hk
  rw [Nat.zero_add]
  exact image_congr hsame (div_lt_length_sectors h hk)

end FileHeader

end Nachos

import Nachos.OpenFile

/-! What `OpenFile::ReadAt` and `OpenFile::WriteAt` touch, for any numbers that an `int` can hold. The
arithmetic wraps around. A request for which the size of the temporary buffer comes out negative ends in
an exception of `new`. -/

namespace Nachos

/-- The value of an `int` expression. -/
def int32 (x : Int) : Int := (BitVec.ofInt 32 x).toInt

theorem int32_eq {x : Int} (hmin : -2 ^ 31 ≤ x) (hmax : x < 2 ^ 31) : int32 x = x :=
  BitVec.toInt_ofInt_eq_self (by decide) hmin hmax

/-- A place that a request touches: an element of the table of data sectors, or a part of a temporary
buffer of the given size. -/
inductive Touch where
  | sector (index : Int)
  | buffer (offset count size : Int)

def Touch.Inside (numSectors : Int) : Touch → Prop
  | .sector index => 0 ≤ index ∧ index < numSectors
  | .buffer offset count size => 0 ≤ offset ∧ offset + count ≤ size

/-- What a request returns and what it touches. -/
structure Transfer where
  result : Int
  touches : List Touch

namespace Request

variable (fileLength numBytes position : Int)

/-- The number of bytes, after the comparison with the length of the file. -/
def clippedBytes : Int :=
  if int32 (position + numBytes) > fileLength then int32 (fileLength - position) else numBytes

def firstSector : Int := position.tdiv sectorSize

def lastSector : Int :=
  (int32 (int32 (position + clippedBytes fileLength numBytes position) - 1)).tdiv sectorSize

/-- The size of the temporary buffer. -/
def bufferSize : Int :=
  int32 (int32 (int32 (1 + lastSector fileLength numBytes position) - firstSector position) * sectorSize)

/-- The turn for sector `i` of the loop that reads or writes the sectors. -/
def touchSector (first size i : Int) : List Touch :=
  [.sector ((int32 (i * sectorSize)).tdiv sectorSize),
    .buffer (int32 (int32 (i - first) * sectorSize)) sectorSize size]

/-- The loop. -/
def touchSectors (first last size : Int) : List Touch :=
  (List.range (last + 1 - first).toNat).flatMap fun (j : Nat) => touchSector first size (first + j)

/-- The copy of the bytes of the request out of the buffer or into it. -/
def touchBytes : Touch :=
  .buffer (int32 (position - int32 (firstSector position * sectorSize)))
    (clippedBytes fileLength numBytes position) (bufferSize fileLength numBytes position)

/-- `OpenFile::ReadAt`. -/
def readAt : Option Transfer :=
  if numBytes ≤ 0 ∨ position ≥ fileLength then some ⟨0, []⟩
  else if bufferSize fileLength numBytes position < 0 then none
  else some ⟨clippedBytes fileLength numBytes position,
    touchSectors (firstSector position) (lastSector fileLength numBytes position)
      (bufferSize fileLength numBytes position) ++ [touchBytes fileLength numBytes position]⟩

/-- A sector that is read into the buffer of `WriteAt`, at the given offset. -/
def readBack (sector offset size : Int) : Option (List Touch) :=
  (readAt fileLength sectorSize (int32 (sector * sectorSize))).map fun t =>
    t.touches ++ [.buffer offset t.result size]

/-- The first sector is read back if the request does not begin with it. -/
def readFirst : Option (List Touch) :=
  if position = int32 (firstSector position * sectorSize) then some []
  else readBack fileLength (firstSector position) 0 (bufferSize fileLength numBytes position)

/-- The last sector is read back if the request does not end with it, unless it is the first one and has
been read. -/
def readLast : Option (List Touch) :=
  let first := firstSector position
  let last := lastSector fileLength numBytes position
  if int32 (position + clippedBytes fileLength numBytes position) ≠ int32 (int32 (last + 1) * sectorSize) ∧
      (first ≠ last ∨ position = int32 (first * sectorSize)) then
    readBack fileLength last (int32 (int32 (last - first) * sectorSize))
      (bufferSize fileLength numBytes position)
  else some []

/-- `OpenFile::WriteAt`. -/
def writeAt : Option Transfer :=
  if numBytes ≤ 0 ∨ position ≥ fileLength then some ⟨0, []⟩
  else if bufferSize fileLength numBytes position < 0 then none
  else do
    let head ← readFirst fileLength numBytes position
    let tail ← readLast fileLength numBytes position
    some ⟨clippedBytes fileLength numBytes position,
      head ++ tail ++ [touchBytes fileLength numBytes position] ++
        touchSectors (firstSector position) (lastSector fileLength numBytes position)
          (bufferSize fileLength numBytes position)⟩

/-- The request returns 0, or touches only data sectors of the file and the inside of its buffers and
returns no more than there is. -/
def Bounded (numSectors : Int) (transfer : Option Transfer) : Prop :=
  ∃ t, transfer = some t ∧ (t.result = 0 ∨
    (∀ touch ∈ t.touches, touch.Inside numSectors) ∧ t.result ≤ fileLength - position)

section Ordinary

variable {fileLength numBytes position}

/-- A request whose numbers are those of the integers. -/
structure Ordinary (fileLength numBytes position : Int) : Prop where
  length_le : fileLength ≤ maxFileSize
  some_bytes : 0 < numBytes
  nonneg : 0 ≤ position
  inside : position < fileLength
  no_overflow : position + numBytes < 2 ^ 31

variable (h : Ordinary fileLength numBytes position)

include h

theorem Ordinary.length_bound : fileLength ≤ 3840 := h.length_le

theorem Ordinary.clippedBytes_eq :
    clippedBytes fileLength numBytes position = min numBytes (fileLength - position) := by
  have hlength := h.length_bound
  obtain ⟨-, hbytes, hnonneg, hinside, hsum⟩ := h
  rw [clippedBytes, int32_eq (by omega) hsum, int32_eq (by omega) (by omega)]
  split <;> omega

theorem Ordinary.firstSector_eq : firstSector position = position / 128 :=
  Int.tdiv_eq_ediv_of_nonneg h.nonneg

theorem Ordinary.lastSector_eq : lastSector fileLength numBytes position =
    (position + min numBytes (fileLength - position) - 1) / 128 := by
  have hlength := h.length_bound
  rw [lastSector, h.clippedBytes_eq]
  obtain ⟨-, hbytes, hnonneg, hinside, hsum⟩ := h
  have hend : int32 (position + min numBytes (fileLength - position)) =
      position + min numBytes (fileLength - position) := int32_eq (by omega) (by omega)
  rw [hend, int32_eq (by omega) (by omega)]
  exact Int.tdiv_eq_ediv_of_nonneg (by omega)

theorem Ordinary.bufferSize_eq : bufferSize fileLength numBytes position =
    (1 + (position + min numBytes (fileLength - position) - 1) / 128 - position / 128) * 128 := by
  have hlength := h.length_bound
  rw [bufferSize, h.firstSector_eq, h.lastSector_eq]
  obtain ⟨-, hbytes, hnonneg, hinside, hsum⟩ := h
  show int32 (_ * 128) = _
  rw [int32_eq (x := 1 + _) (by omega) (by omega), int32_eq (x := 1 + _ - _) (by omega) (by omega),
    int32_eq (by omega) (by omega)]

theorem Ordinary.offset_eq :
    int32 (position - int32 (firstSector position * sectorSize)) = position % 128 := by
  have hlength := h.length_bound
  have hfirst := h.firstSector_eq
  obtain ⟨-, hbytes, hnonneg, hinside, hsum⟩ := h
  show int32 (position - int32 (firstSector position * 128)) = _
  rw [hfirst, int32_eq (x := position / 128 * 128) (by omega) (by omega), int32_eq (by omega) (by omega)]
  omega

/-- The bytes of the request are inside the buffer. -/
theorem Ordinary.touchBytes_inside (numSectors : Int) :
    (touchBytes fileLength numBytes position).Inside numSectors := by
  have hlength := h.length_bound
  rw [touchBytes, h.offset_eq, h.clippedBytes_eq, h.bufferSize_eq]
  obtain ⟨-, hbytes, hnonneg, hinside, hsum⟩ := h
  constructor <;> omega

/-- The sectors of the request are sectors of the file, and each has its place in the buffer. -/
theorem Ordinary.touchSectors_inside {numSectors : Int} (hnum : fileLength ≤ numSectors * 128) :
    ∀ touch ∈ touchSectors (firstSector position) (lastSector fileLength numBytes position)
      (bufferSize fileLength numBytes position), touch.Inside numSectors := by
  have hlength := h.length_bound
  rw [h.firstSector_eq, h.lastSector_eq, h.bufferSize_eq]
  obtain ⟨-, hbytes, hnonneg, hinside, hsum⟩ := h
  intro touch htouch
  obtain ⟨j, hj, htouch⟩ := List.mem_flatMap.mp htouch
  rw [List.mem_range] at hj
  have hindex : int32 ((position / 128 + j) * 128) = (position / 128 + j) * 128 :=
    int32_eq (by omega) (by omega)
  rcases List.mem_pair.mp htouch with rfl | rfl
  · show 0 ≤ (int32 ((position / 128 + j) * 128)).tdiv 128 ∧ (int32 ((position / 128 + j) * 128)).tdiv 128 < _
    rw [hindex, Int.tdiv_eq_ediv_of_nonneg (by omega)]
    constructor <;> omega
  · show 0 ≤ int32 (int32 (position / 128 + j - position / 128) * 128) ∧
      int32 (int32 (position / 128 + j - position / 128) * 128) + 128 ≤ _
    rw [int32_eq (x := position / 128 + j - position / 128) (by omega) (by omega),
      int32_eq (by omega) (by omega)]
    constructor <;> omega

/-- The transfer of an ordinary read. -/
theorem Ordinary.readAt_eq : ∃ touches, readAt fileLength numBytes position =
    some ⟨min numBytes (fileLength - position), touches⟩ ∧
      ∀ numSectors, fileLength ≤ numSectors * 128 → ∀ touch ∈ touches, touch.Inside numSectors := by
  refine ⟨touchSectors (firstSector position) (lastSector fileLength numBytes position)
      (bufferSize fileLength numBytes position) ++ [touchBytes fileLength numBytes position], ?_, ?_⟩
  · have hsize := h.bufferSize_eq
    have hbytes := h.some_bytes
    have hinside := h.inside
    rw [readAt, if_neg (by omega), if_neg (by omega), h.clippedBytes_eq]
  · intro numSectors hnum touch htouch
    rcases List.mem_append.mp htouch with htouch | htouch
    · exact h.touchSectors_inside hnum touch htouch
    · rw [List.mem_singleton.mp htouch]
      exact h.touchBytes_inside numSectors

end Ordinary

/-- Reading a sector of the file back touches no more. -/
theorem readBack_eq {sector offset size : Int} (hlength : fileLength ≤ maxFileSize) (hsector : 0 ≤ sector)
    (hfile : sector * 128 < fileLength) (hoffset : 0 ≤ offset) (hsize : offset + 128 ≤ size) :
    ∃ touches, readBack fileLength sector offset size = some touches ∧
      ∀ numSectors, fileLength ≤ numSectors * 128 → ∀ touch ∈ touches, touch.Inside numSectors := by
  have hbound : fileLength ≤ 3840 := hlength
  have hposition : int32 (sector * sectorSize) = sector * 128 := int32_eq (by show _ ≤ sector * 128; omega)
    (by show sector * 128 < _; omega)
  have hordinary : Ordinary fileLength 128 (sector * 128) :=
    ⟨hlength, by decide, by omega, hfile, by omega⟩
  obtain ⟨touches, hread, hinside⟩ := hordinary.readAt_eq
  have hback : readBack fileLength sector offset size =
      some (touches ++ [.buffer offset (min 128 (fileLength - sector * 128)) size]) := by
    rw [readBack, hposition]
    exact congrArg (Option.map _) hread
  refine ⟨_, hback, ?_⟩
  intro numSectors hnum touch htouch
  rcases List.mem_append.mp htouch with htouch | htouch
  · exact hinside numSectors hnum touch htouch
  · rw [List.mem_singleton.mp htouch]
    exact ⟨hoffset, by omega⟩

/-- The transfer of an ordinary write. -/
theorem Ordinary.writeAt_eq {fileLength numBytes position : Int} (h : Ordinary fileLength numBytes position) :
    ∃ touches, writeAt fileLength numBytes position = some ⟨min numBytes (fileLength - position), touches⟩ ∧
      ∀ numSectors, fileLength ≤ numSectors * 128 → ∀ touch ∈ touches, touch.Inside numSectors := by
  have hlength := h.length_bound
  have hbytes := h.some_bytes
  have hnonneg := h.nonneg
  have hinside := h.inside
  have hfirst := h.firstSector_eq
  have hlast := h.lastSector_eq
  have hsize := h.bufferSize_eq
  -- Either sector of the ends may be read back, into its place in the buffer.
  obtain ⟨head, hhead, hheadInside⟩ : ∃ head, readFirst fileLength numBytes position = some head ∧
      ∀ numSectors, fileLength ≤ numSectors * 128 → ∀ touch ∈ head, touch.Inside numSectors := by
    rw [readFirst]
    split
    · exact ⟨[], rfl, fun _ _ touch htouch => by cases htouch⟩
    · exact readBack_eq fileLength h.length_le (by omega) (by omega) (by omega) (by omega)
  obtain ⟨tail, htail, htailInside⟩ : ∃ tail, readLast fileLength numBytes position = some tail ∧
      ∀ numSectors, fileLength ≤ numSectors * 128 → ∀ touch ∈ tail, touch.Inside numSectors := by
    have hoffset : int32 (int32 (lastSector fileLength numBytes position - firstSector position) * sectorSize) =
        (lastSector fileLength numBytes position - firstSector position) * 128 := by
      rw [int32_eq (x := lastSector fileLength numBytes position - firstSector position) (by omega) (by omega)]
      exact int32_eq (by show _ ≤ _ * 128; omega) (by show _ * 128 < _; omega)
    rw [readLast]
    split
    · rw [hoffset]
      exact readBack_eq fileLength h.length_le (by omega) (by omega) (by omega) (by omega)
    · exact ⟨[], rfl, fun _ _ touch htouch => by cases htouch⟩
  refine ⟨head ++ tail ++ [touchBytes fileLength numBytes position] ++ touchSectors (firstSector position)
      (lastSector fileLength numBytes position) (bufferSize fileLength numBytes position), ?_, ?_⟩
  · rw [writeAt, if_neg (by omega), if_neg (by omega), hhead, htail, h.clippedBytes_eq]
    rfl
  · intro numSectors hnum touch htouch
    rcases List.mem_append.mp htouch with htouch | htouch
    · rcases List.mem_append.mp htouch with htouch | htouch
      · rcases List.mem_append.mp htouch with htouch | htouch
        · exact hheadInside numSectors hnum touch htouch
        · exact htailInside numSectors hnum touch htouch
      · rw [List.mem_singleton.mp htouch]
        exact h.touchBytes_inside numSectors
    · exact h.touchSectors_inside hnum touch htouch

section Refused

variable {fileLength numBytes position}

/-- Every transfer of such a request copies the bytes of the request and touches its sectors. -/
def Covers (fileLength numBytes position : Int) (transfer : Option Transfer) : Prop :=
  ∀ t, transfer = some t → t.result = clippedBytes fileLength numBytes position ∧
    touchBytes fileLength numBytes position ∈ t.touches ∧
    ∀ touch ∈ touchSectors (firstSector position) (lastSector fileLength numBytes position)
      (bufferSize fileLength numBytes position), touch ∈ t.touches

theorem covers_readAt (hrequest : ¬(numBytes ≤ 0 ∨ position ≥ fileLength)) :
    Covers fileLength numBytes position (readAt fileLength numBytes position) := by
  intro t ht
  rw [readAt, if_neg hrequest] at ht
  split at ht
  · cases ht
  · cases ht
    refine ⟨rfl, ?_, ?_⟩
    · exact List.mem_append_right _ List.mem_cons_self
    · intro touch htouch
      exact List.mem_append_left _ htouch

theorem covers_writeAt (hrequest : ¬(numBytes ≤ 0 ∨ position ≥ fileLength)) :
    Covers fileLength numBytes position (writeAt fileLength numBytes position) := by
  intro t ht
  rw [writeAt, if_neg hrequest] at ht
  split at ht
  · cases ht
  · obtain ⟨head, -, ht⟩ := Option.bind_eq_some_iff.mp ht
    obtain ⟨tail, -, ht⟩ := Option.bind_eq_some_iff.mp ht
    cases ht
    refine ⟨rfl, ?_, ?_⟩
    · exact List.mem_append_left _ (List.mem_append_right _ List.mem_cons_self)
    · intro touch htouch
      exact List.mem_append_right _ htouch

/-- A request before the beginning of the file reaches before the table of sectors or before its buffer. -/
theorem outside_of_negative {transfer : Option Transfer} {numSectors : Int}
    (hcovers : Covers fileLength numBytes position transfer) (hlength : fileLength ≤ maxFileSize)
    (hlengthNonneg : 0 ≤ fileLength) (hmin : -2 ^ 31 ≤ position) (hbytes : 0 < numBytes)
    (hmax : numBytes < 2 ^ 31) (hnegative : position < 0) :
    ¬Bounded fileLength position numSectors transfer := by
  rintro ⟨t, ht, hbounded⟩
  obtain ⟨hresult, hcopy, hsectors⟩ := hcovers t ht
  have hbound : fileLength ≤ 3840 := hlength
  have hclipped : 0 < clippedBytes fileLength numBytes position ∧
      clippedBytes fileLength numBytes position ≤ numBytes := by
    rw [clippedBytes, int32_eq (x := position + numBytes) (by omega) (by omega)]
    split
    · rw [int32_eq (by omega) (by omega)]
      omega
    · omega
  rcases hbounded with hzero | ⟨hinside, -⟩
  · omega
  have hquotient : 128 * firstSector position + position.tmod 128 = position := Int.mul_tdiv_add_tmod position 128
  have hremainder : -128 < position.tmod 128 ∧ position.tmod 128 ≤ 0 := by
    have hlt := Int.lt_tmod_of_pos position (show (0 : Int) < 128 by decide)
    have hopposite := Int.tmod_nonneg (a := -position) 128 (by omega)
    rw [Int.neg_tmod] at hopposite
    omega
  have hstart : int32 (firstSector position * sectorSize) = firstSector position * 128 :=
    int32_eq (by show _ ≤ firstSector position * 128; omega) (by show firstSector position * 128 < _; omega)
  have hoffset := (hinside _ hcopy).1
  rw [hstart, int32_eq (by omega) (by omega)] at hoffset
  -- The copy begins in the buffer only at the beginning of a sector, and then that sector is negative.
  have hexact : position.tmod 128 = 0 := by omega
  have hlast : firstSector position ≤ lastSector fileLength numBytes position := by
    rw [lastSector, int32_eq (x := position + _) (by omega) (by omega), int32_eq (by omega) (by omega)]
    exact Int.tdiv_le_tdiv (by decide) (by omega)
  have htouch : Touch.sector ((int32 (firstSector position * sectorSize)).tdiv sectorSize) ∈
      touchSectors (firstSector position) (lastSector fileLength numBytes position)
        (bufferSize fileLength numBytes position) := by
    apply List.mem_flatMap.mpr
    refine ⟨0, List.mem_range.mpr (by omega), ?_⟩
    rw [touchSector, Int.natCast_zero, Int.add_zero]
    exact List.mem_cons_self
  have hsector := (hinside _ (hsectors _ htouch)).1
  rw [hstart] at hsector
  have hcancel : (firstSector position * 128).tdiv sectorSize = firstSector position :=
    Int.mul_tdiv_cancel _ (by decide)
  rw [hcancel] at hsector
  omega

/-- A request whose end overflows is not cut and returns the number it was given. -/
theorem outside_of_overflow {transfer : Option Transfer} {numSectors : Int}
    (hcovers : Covers fileLength numBytes position transfer) (hlength : fileLength ≤ maxFileSize)
    (hlengthNonneg : 0 ≤ fileLength) (hnonneg : 0 ≤ position) (hposition : position < fileLength)
    (hmax : numBytes < 2 ^ 31) (hoverflow : 2 ^ 31 ≤ position + numBytes) :
    ¬Bounded fileLength position numSectors transfer := by
  rintro ⟨t, ht, hbounded⟩
  obtain ⟨hresult, -, -⟩ := hcovers t ht
  have hbound : fileLength ≤ 3840 := hlength
  have hwrapped : int32 (position + numBytes) = position + numBytes - 2 ^ 32 := by
    have hsame : BitVec.ofInt 32 (position + numBytes) = BitVec.ofInt 32 (position + numBytes - 2 ^ 32) := by
      apply BitVec.eq_of_toInt_eq
      rw [BitVec.toInt_ofInt, BitVec.toInt_ofInt]
      exact (Int.sub_bmod_right (position + numBytes) (2 ^ 32)).symm
    rw [int32, hsame]
    exact int32_eq (by omega) (by omega)
  have huncut : clippedBytes fileLength numBytes position = numBytes := by
    rw [clippedBytes, hwrapped, if_neg (by omega)]
  rcases hbounded with hzero | ⟨-, hmost⟩ <;> omega

end Refused

/-- Both requests are bounded exactly when they transfer nothing or do not begin before the file and end
at an `int`. -/
theorem bounded_iff {numSectors : Int} {transfer : Option Transfer} (hlength : fileLength ≤ maxFileSize)
    (hlengthNonneg : 0 ≤ fileLength) (hnum : fileLength ≤ numSectors * 128) (hmin : -2 ^ 31 ≤ position)
    (hmax : numBytes < 2 ^ 31)
    (hnothing : numBytes ≤ 0 ∨ position ≥ fileLength → transfer = some ⟨0, []⟩)
    (hcovers : ¬(numBytes ≤ 0 ∨ position ≥ fileLength) → Covers fileLength numBytes position transfer)
    (hordinary : Ordinary fileLength numBytes position → ∃ touches,
      transfer = some ⟨min numBytes (fileLength - position), touches⟩ ∧
        ∀ numSectors, fileLength ≤ numSectors * 128 → ∀ touch ∈ touches, touch.Inside numSectors) :
    Bounded fileLength position numSectors transfer ↔
      numBytes ≤ 0 ∨ fileLength ≤ position ∨ 0 ≤ position ∧ position + numBytes < 2 ^ 31 := by
  by_cases hrequest : numBytes ≤ 0 ∨ position ≥ fileLength
  · constructor
    · intro _
      omega
    · intro _
      exact ⟨_, hnothing hrequest, .inl rfl⟩
  constructor
  · intro hbounded
    by_contra hnot
    rcases Int.lt_or_le position 0 with hnegative | hnonneg
    · exact outside_of_negative (hcovers hrequest) hlength hlengthNonneg hmin (by omega) hmax hnegative hbounded
    · exact outside_of_overflow (hcovers hrequest) hlength hlengthNonneg hnonneg (by omega) hmax (by omega)
        hbounded
  · intro hcondition
    obtain ⟨touches, htransfer, hinside⟩ :=
      hordinary ⟨hlength, by omega, by omega, by omega, by omega⟩
    exact ⟨_, htransfer, .inr ⟨hinside numSectors hnum, Int.min_le_right _ _⟩⟩

end Request

namespace OpenFile

variable {f : OpenFile}

theorem numSectors_eq (h : f.hdr.WellFormed) :
    f.hdr.fileLength = f.hdr.numBytes.toNat ∧ f.hdr.numBytes.toNat ≤ 3840 ∧
      f.hdr.fileLength ≤ f.hdr.numSectors.toInt * 128 := by
  have hle : f.hdr.numBytes.toNat ≤ 3840 := h.numBytes_le
  have hnum := h.numSectors_eq
  rw [divRoundUp_sectorSize] at hnum
  have hint : f.hdr.numSectors.toInt = f.hdr.numSectors.toNat := by
    apply BitVec.toInt_eq_toNat_of_lt
    omega
  rw [FileHeader.fileLength_eq h, hint]
  exact ⟨rfl, hle, by omega⟩

/-- What `ReadAt` and `WriteAt` do to a file, for a request whose end is an `int`. -/
theorem readAt_writeAt_contract (h : f.hdr.WellFormed) (d : Disk) (garbage data : Image Byte)
    {numBytes position : Int} (hposition : 0 ≤ position) (hint : position + numBytes < 2 ^ 31) :
    ∃ bytes d', f.readAt d numBytes position = some bytes ∧
      f.writeAt d garbage data numBytes position = some (↑bytes.length, d') ∧
      bytes.length = max 0 (min numBytes (f.length - position)) ∧
      bytes = ((f.hdr.contents d).drop position.toNat).take bytes.length ∧
      f.hdr.contents d' = (f.hdr.contents d).take position.toNat ++ Image.load data 0 bytes.length ++
        (f.hdr.contents d).drop (position.toNat + bytes.length) ∧
      (∀ s, s ∉ f.hdr.sectors → Disk.SameSector d d' s) ∧
      (∃ t, Request.readAt f.length numBytes position = some t ∧ t.result = bytes.length) ∧
      ∃ t, Request.writeAt f.length numBytes position = some t ∧ t.result = bytes.length := by
  obtain ⟨hlength, hbound, -⟩ := numSectors_eq h
  obtain ⟨p, rfl⟩ := Int.eq_ofNat_of_zero_le hposition
  obtain ⟨d', hwrite, hwritten⟩ := writeAt_spec h d garbage data numBytes p
  have hread := readAt_contents h d numBytes p
  have hcount : (((f.hdr.contents d).drop p).take numBytes.toNat).length =
      min numBytes.toNat (f.hdr.numBytes.toNat - p) := by
    rw [List.length_take, List.length_drop, FileHeader.length_contents]
  have hmax : ((min numBytes.toNat (f.hdr.numBytes.toNat - p) : Nat) : Int) =
      max 0 (min numBytes (f.length - p)) := by
    rw [length, hlength]
    omega
  refine ⟨_, d', hread, ?_, ?_, ?_, ?_, hwritten.frame, ?_⟩
  · rw [hcount]
    exact hwrite
  · rw [hcount]
    exact hmax
  · rw [hcount, Int.toNat_natCast, ← List.take_take, List.take_of_length_le (i := f.hdr.numBytes.toNat - p)]
    rw [List.length_drop, FileHeader.length_contents]
  · rw [hcount, Int.toNat_natCast]
    rcases Nat.lt_or_ge f.hdr.numBytes.toNat p with hlt | hge
    · -- Nothing is written behind the end of the file.
      have hzero : min numBytes.toNat (f.hdr.numBytes.toNat - p) = 0 := by omega
      have hsame : f.hdr.contents d' = f.hdr.contents d := by
        apply Image.load_congr
        intro k hk
        rw [Nat.zero_add, hwritten.image k hk, if_neg (by omega)]
      rw [hzero, hsame, Nat.add_zero, List.take_of_length_le (by rw [FileHeader.length_contents]; omega),
        List.drop_eq_nil_of_le (by rw [FileHeader.length_contents]; omega), List.append_nil]
      exact (List.append_nil _).symm
    · exact hwritten.contents_eq (by omega)
  · rw [hcount, hmax, length, hlength]
    by_cases hrequest : numBytes ≤ 0 ∨ (p : Int) ≥ (f.hdr.numBytes.toNat : Int)
    · have hzero : max 0 (min numBytes (↑f.hdr.numBytes.toNat - p)) = 0 := by omega
      rw [hzero, Request.readAt, Request.writeAt, if_pos hrequest, if_pos hrequest]
      exact ⟨⟨_, rfl, rfl⟩, _, rfl, rfl⟩
    · have hordinary : Request.Ordinary ↑f.hdr.numBytes.toNat numBytes p :=
        ⟨by exact_mod_cast h.numBytes_le, by omega, hposition, by omega, hint⟩
      obtain ⟨touches, hread, -⟩ := hordinary.readAt_eq
      obtain ⟨touches', hwrite, -⟩ := hordinary.writeAt_eq
      have hpos : max 0 (min numBytes (↑f.hdr.numBytes.toNat - p)) = min numBytes (↑f.hdr.numBytes.toNat - p) := by
        omega
      rw [hpos]
      exact ⟨⟨_, hread, rfl⟩, _, hwrite, rfl⟩

/-- `ReadAt` and `WriteAt` keep to the file and to their buffers, for any numbers that an `int` can hold,
exactly when they transfer nothing or the request begins in the file and its end does not overflow. -/
theorem requests_bounded_iff (h : f.hdr.WellFormed) (numBytes position : Word) :
    (Request.Bounded f.length position.toInt f.hdr.numSectors.toInt
        (Request.readAt f.length numBytes.toInt position.toInt) ↔
      numBytes.toInt ≤ 0 ∨ f.length ≤ position.toInt ∨
        0 ≤ position.toInt ∧ position.toInt + numBytes.toInt < 2 ^ 31) ∧
    (Request.Bounded f.length position.toInt f.hdr.numSectors.toInt
        (Request.writeAt f.length numBytes.toInt position.toInt) ↔
      numBytes.toInt ≤ 0 ∨ f.length ≤ position.toInt ∨
        0 ≤ position.toInt ∧ position.toInt + numBytes.toInt < 2 ^ 31) := by
  obtain ⟨hlength, hbound, hnum⟩ := numSectors_eq h
  have hmax : f.hdr.fileLength ≤ maxFileSize := by
    rw [hlength]
    exact_mod_cast h.numBytes_le
  have hnonneg : 0 ≤ f.hdr.fileLength := by omega
  have hmin : -2 ^ 31 ≤ position.toInt := BitVec.le_toInt position
  have hbytes : numBytes.toInt < 2 ^ 31 := BitVec.toInt_lt
  constructor
  · apply Request.bounded_iff _ _ _ hmax hnonneg hnum hmin hbytes
    · intro hnothing
      exact if_pos hnothing
    · exact Request.covers_readAt
    · exact Request.Ordinary.readAt_eq
  · apply Request.bounded_iff _ _ _ hmax hnonneg hnum hmin hbytes
    · intro hnothing
      exact if_pos hnothing
    · exact Request.covers_writeAt
    · exact Request.Ordinary.writeAt_eq

/-- A file of 200 bytes in two sectors. -/
def twoSectors : OpenFile := ⟨⟨200, 2, [5, 9] ++ List.replicate 28 0, rfl⟩, 0⟩

theorem twoSectors_wellFormed : twoSectors.hdr.WellFormed :=
  ⟨by decide, by decide, by decide, by decide⟩

theorem readAt_writeAt_contract_twoSectors :
    ∃ bytes d', twoSectors.readAt (fun _ => 0) 100 150 = some bytes ∧ bytes.length = 50 ∧
      twoSectors.writeAt (fun _ => 0) (fun _ => 7) (fun _ => 1) 100 150 = some (↑bytes.length, d') ∧
      ∀ s, s ∉ twoSectors.hdr.sectors → Disk.SameSector (fun _ => 0) d' s := by
  obtain ⟨bytes, d', hread, hwrite, hlength, -, -, hframe, -⟩ := readAt_writeAt_contract twoSectors_wellFormed
    (fun _ => 0) (fun _ => 7) (fun _ => 1) (by decide : (0 : Int) ≤ 150) (by decide : (150 : Int) + 100 < 2 ^ 31)
  refine ⟨bytes, d', hread, ?_, hwrite, hframe⟩
  have hcount : max 0 (min 100 (twoSectors.length - 150)) = 50 := by decide
  rw [hcount] at hlength
  omega

theorem requests_bounded_iff_twoSectors :
    Request.Bounded twoSectors.length 150 2 (Request.readAt twoSectors.length 100 150) := by
  have hcondition : (100 : Word).toInt ≤ 0 ∨ twoSectors.length ≤ (150 : Word).toInt ∨
      0 ≤ (150 : Word).toInt ∧ (150 : Word).toInt + (100 : Word).toInt < 2 ^ 31 := by decide
  exact (requests_bounded_iff twoSectors_wellFormed 100 150).1.mpr hcondition

/-- A read of ten bytes from position -1 copies from before its buffer. -/
theorem readAt_before_buffer :
    ∃ t, Request.readAt twoSectors.length 10 (-1) = some t ∧ t.result ≠ 0 ∧
      .buffer (-1) 10 128 ∈ t.touches ∧ ¬(Touch.buffer (-1) 10 128).Inside 2 := by
  refine ⟨_, rfl, by decide, ?_, ?_⟩
  · exact List.mem_append_right _ List.mem_cons_self
  · exact fun hinside => absurd hinside.1 (by decide)

end OpenFile

end Nachos

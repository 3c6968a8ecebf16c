import Nachos.FileHeader

/-! The table of data sectors in a file header has a fixed size, while `FileHeader::Allocate` compares the
size of a new file with the number of free sectors only. -/

namespace Nachos

namespace FileHeader

variable {hdr hdr' : FileHeader} {m m' : BitMap}

/-- The sectors that the loop of `Deallocate` visits. -/
def listed (hdr : FileHeader) : List Nat :=
  (hdr.dataSectors.take hdr.numSectors.toInt.toNat).map BitVec.toNat

/-- A header made by `Allocate` from the map `m`, which is `m'` afterwards, does what it is for. -/
structure Describes (m m' : BitMap) (hdr : FileHeader) : Prop where
  /-- Written to any sector and fetched from it again it is the same header. -/
  kept : ∀ (d : Disk) (s : Nat), s < Nachos.numSectors →
    ∃ d', hdr.writeBack d s = some d' ∧ fetchFrom d' s = some hdr
  /-- Its sectors are those that were marked. -/
  marked : Taken m m' hdr.listed
  /-- The offsets inside the file have a place in the table. -/
  inTable : ∀ offset : Nat, (offset : Int) < hdr.fileLength → ∃ sector, hdr.byteToSector offset = some sector
  /-- `Deallocate` clears exactly these sectors again. -/
  freed : ∃ m'', hdr.deallocate m' = some m'' ∧ m''.numBits = m.numBits ∧ ∀ j, m''.bit j = m.bit j

/-- `Allocate` uses no place behind the table, succeeds only if the file fits into the header, and then
makes a header that describes the file. -/
structure Allocates (hdr : FileHeader) (m : BitMap) (fileSize : Int) : Prop where
  returns : ∃ result, hdr.allocate m fileSize = some result
  fits : ∀ hdr' m', hdr.allocate m fileSize = some (true, hdr', m') →
    divRoundUp fileSize.toNat sectorSize ≤ numDirect
  describes : ∀ hdr' m', hdr.allocate m fileSize = some (true, hdr', m') → Describes m m' hdr'

theorem writeBack_fetchFrom (hdr : FileHeader) (d : Disk) {s : Nat} (hs : s < Nachos.numSectors) :
    ∃ d', hdr.writeBack d s = some d' ∧ fetchFrom d' s = some hdr := by
  refine ⟨_, hdr.writeBack_eq d hs, ?_⟩
  rw [fetchFrom_eq _ hs, Disk.header_withSector]

/-- The loop of `Allocate` leaves the table when there are more sectors than entries. -/
theorem allocateFrom_none {i left : Nat} (hi : i ≤ numDirect) (hmany : numDirect < i + left) :
    hdr.allocateFrom m i left = none := by
  induction left generalizing hdr m i with
  | zero => omega
  | succ left ih =>
      by_cases hlt : i < numDirect
      · simp only [allocateFrom, if_pos hlt]
        exact ih (by omega) (by omega)
      · simp only [allocateFrom, if_neg hlt]

theorem describes_of_wellFormed (hbits : m.numBits = Nachos.numSectors) (h : hdr.WellFormed)
    (htaken : Taken m m' hdr.sectors) : Describes m m' hdr := by
  have hdirect := divRoundUp_le h.numBytes_le
  have hlisted : hdr.listed = hdr.sectors := by
    have hnum := h.numSectors_eq
    unfold listed sectors
    rw [toInt_of_lt, Int.toNat_natCast]
    simp only [numDirect, sectorSize, Nachos.numSectors] at *
    omega
  refine ⟨fun d s => hdr.writeBack_fetchFrom d, hlisted ▸ htaken, ?_, ?_⟩
  · intro offset hoffset
    rw [fileLength_eq h] at hoffset
    have hindex := div_lt_length_sectors h (show offset < hdr.numBytes.toNat by omega)
    obtain ⟨w, hw, -⟩ := getElem?_dataSectors hindex
    refine ⟨w.toInt, ?_⟩
    rw [byteToSector, hw]
    rfl
  · have hmarked : ∀ s ∈ hdr.sectors, m'.bit s = true := by
      intro s hs
      rw [htaken.bit, decide_eq_true hs, Bool.true_or]
    obtain ⟨m'', hdeallocate, hnum, hbit⟩ := deallocate_spec h (htaken.numBits_eq.trans hbits) hmarked
    refine ⟨m'', hdeallocate, hnum.trans htaken.numBits_eq, ?_⟩
    intro j
    rw [hbit, htaken.bit]
    by_cases hj : j ∈ hdr.sectors
    · rw [decide_eq_true hj, (htaken.clear j hj).2]
      rfl
    · rw [decide_eq_false hj]
      rfl

/-- A file of negative size has no sectors. -/
theorem allocate_negative (hdr : FileHeader) (m : BitMap) {fileSize : Int} (hmin : -2 ^ 31 ≤ fileSize)
    (hnegative : fileSize < 0) : ∃ hdr', hdr.allocate m fileSize = some (true, hdr', m) ∧ Describes m m hdr' := by
  have hmod : ¬0 < fileSize.tmod sectorSize := by
    have hopposite := Int.tmod_nonneg (a := -fileSize) sectorSize (by omega)
    rw [Int.neg_tmod] at hopposite
    omega
  have hdiv : fileSize.tdiv sectorSize ≤ 0 := by
    have hopposite := Int.tdiv_nonneg (a := -fileSize) (b := sectorSize) (by omega) (by decide)
    rw [Int.neg_tdiv] at hopposite
    omega
  have hdivMin : -2 ^ 31 ≤ fileSize.tdiv sectorSize := by
    have hsmall := Int.natAbs_tdiv_le_natAbs fileSize sectorSize
    omega
  refine ⟨{ hdr with
    numBytes := BitVec.ofInt 32 fileSize
    numSectors := BitVec.ofInt 32 (fileSize.tdiv sectorSize) }, ?_, ?_⟩
  · unfold allocate
    simp only [if_neg hmod, Int.add_zero]
    rw [if_neg (by omega), Int.toNat_of_nonpos hdiv]
    rfl
  · have hbytes : (BitVec.ofInt 32 fileSize).toInt = fileSize :=
      BitVec.toInt_ofInt_eq_self (by decide) hmin (by omega)
    have hsectors : (BitVec.ofInt 32 (fileSize.tdiv sectorSize)).toInt = fileSize.tdiv sectorSize :=
      BitVec.toInt_ofInt_eq_self (by decide) hdivMin (by omega)
    refine ⟨fun d s => writeBack_fetchFrom _ d, ?_, ?_, m, ?_, rfl, fun _ => rfl⟩
    · unfold listed
      simp only [hsectors, Int.toNat_of_nonpos hdiv]
      exact .refl m
    · intro offset hoffset
      change (offset : Int) < (BitVec.ofInt 32 fileSize).toInt at hoffset
      omega
    · unfold deallocate
      simp only [hsectors, Int.toNat_of_nonpos hdiv]
      rfl

/-- `Allocate` is right exactly when the file is no larger than a header can describe, or when the free
sectors do not suffice anyway. -/
theorem allocates_iff (hdr : FileHeader) (m : BitMap) (hbits : m.numBits = Nachos.numSectors)
    (fileSize : Word) :
    Allocates hdr m fileSize.toInt ↔
      fileSize.toInt ≤ maxFileSize ∨ m.numClear < divRoundUp fileSize.toInt.toNat sectorSize := by
  have hmin : -2 ^ 31 ≤ fileSize.toInt := BitVec.le_toInt fileSize
  generalize fileSize.toInt = size at *
  rcases Int.lt_or_le size 0 with hnegative | hnonneg
  · obtain ⟨hnew, hallocate, hdescribes⟩ := allocate_negative hdr m hmin hnegative
    have hmax : size ≤ (maxFileSize : Int) := by omega
    refine ⟨fun _ => .inl hmax, fun _ => ⟨⟨_, hallocate⟩, ?_, ?_⟩⟩
    · intro hdr' m' _
      rw [Int.toNat_of_nonpos (by omega)]
      decide
    · intro hdr' m' heq
      rw [hallocate] at heq
      cases heq
      exact hdescribes
  obtain ⟨n, rfl⟩ := Int.eq_ofNat_of_zero_le hnonneg
  rw [Int.toNat_natCast]
  by_cases hfits : n ≤ maxFileSize
  · refine ⟨fun _ => .inl (by omega), fun _ => ?_⟩
    have hdirect := divRoundUp_le hfits
    rcases hdr.allocate_spec hfits hbits with ⟨-, hdr', hfail⟩ | ⟨-, hdr', m', hdone, hwell, -, htaken⟩
    · refine ⟨⟨_, hfail⟩, fun _ _ _ => hdirect, ?_⟩
      intro hdr'' m'' heq
      rw [hfail] at heq
      cases heq
    · refine ⟨⟨_, hdone⟩, fun _ _ _ => hdirect, ?_⟩
      intro hdr'' m'' heq
      rw [hdone] at heq
      cases heq
      exact describes_of_wellFormed hbits hwell htaken
  · have hmany : numDirect < divRoundUp n sectorSize := by
      rw [divRoundUp_sectorSize]
      simp only [maxFileSize, numDirect, sectorSize] at *
      omega
    have hallocate : hdr.allocate m n = if (m.numClear : Int) < divRoundUp n sectorSize then some (false,
        { hdr with
          numBytes := BitVec.ofInt 32 n
          numSectors := BitVec.ofInt 32 (divRoundUp n sectorSize) }, m) else none := by
      unfold allocate
      simp only [numSectors_of_size, Int.toNat_natCast]
      rw [allocateFrom_none (Nat.zero_le _) (by omega)]
      rfl
    constructor
    · intro h
      right
      by_contra hroom
      obtain ⟨result, hresult⟩ := h.returns
      rw [hallocate, if_neg (by omega)] at hresult
      cases hresult
    · intro hcondition
      have hfew : m.numClear < divRoundUp n sectorSize := hcondition.resolve_left (by omega)
      rw [if_pos (by omega)] at hallocate
      refine ⟨⟨_, hallocate⟩, ?_, ?_⟩
      · intro hdr' m' heq
        rw [hallocate] at heq
        cases heq
      · intro hdr' m' heq
        rw [hallocate] at heq
        cases heq

/-- A header full of zeros. -/
def blank : FileHeader := ⟨0, 0, List.replicate numDirect 0, List.length_replicate⟩

theorem allocates_iff_small :
    Allocates blank (.new Nachos.numSectors fun _ => 0) (200 : Word).toInt := by
  have hbits := BitMap.numBits_new Nachos.numSectors fun _ => 0
  exact (allocates_iff blank _ hbits 200).mpr (.inl (by decide))

/-- A file of 31 sectors on an empty disk is given a place behind the table of its header. -/
theorem allocate_behind_table :
    ∃ m : BitMap, m.numBits = Nachos.numSectors ∧ m.numClear = Nachos.numSectors ∧
      blank.allocate m (31 * 128) = none ∧ ¬Allocates blank m (31 * 128) := by
  have hclear := BitMap.numClear_new Nachos.numSectors fun _ => 0
  have hnone : blank.allocate (.new Nachos.numSectors fun _ => 0) (31 * 128) = none := by
    have hsectors : ((31 * 128 : Nat) : Int).tdiv sectorSize +
        (if 0 < ((31 * 128 : Nat) : Int).tmod sectorSize then 1 else 0) = ((31 : Nat) : Int) := by decide
    unfold allocate
    simp only [show (31 * 128 : Int) = ((31 * 128 : Nat) : Int) from rfl, hsectors, Int.toNat_natCast]
    rw [if_neg (by rw [hclear]; decide), allocateFrom_none (Nat.zero_le _) (by decide)]
    rfl
  refine ⟨.new Nachos.numSectors fun _ => 0, BitMap.numBits_new _ _, hclear, hnone, ?_⟩
  intro h
  obtain ⟨result, hresult⟩ := h.returns
  rw [hnone] at hresult
  cases hresult

end FileHeader

end Nachos

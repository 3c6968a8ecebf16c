import Nachos.ProgramLoading

/-! Where the loader puts the segments of a file with any header. It checks the sum of the sizes, which is taken modulo
`2 ^ 32`; the address of a segment is an index into `mainMemory` that it does not check. -/

namespace Nachos

namespace Segment

/-- The virtual addresses of the segment. -/
def Occupies (s : Segment) (a : Int) : Prop :=
  s.virtualAddr.toInt ≤ a ∧ a < s.virtualAddr.toInt + s.size.toInt

/-- The loader stores a byte of the segment at the index `a`: what is there before may differ from it. -/
def CopiedTo (file : List Byte) (s : Segment) (a : Int) : Prop :=
  ∃ memory memory', loadSegment file s memory = some memory' ∧ memory' a ≠ memory a

/-- The position in the file is not negative, if the segment is read. -/
def Readable (s : Segment) : Prop := 0 < s.size.toInt → 0 ≤ s.inFileAddr.toInt

/-- How many bytes of the segment the file has. -/
def inFile (file : List Byte) (s : Segment) : Nat := min s.size.toInt.toNat (file.length - s.inFileAddr.toNat)

/-- The segment ends at the limit at the latest and begins at an index, unless nothing of it is in the file; such a
segment may also lie behind the stacks. -/
def FitsBelow (limit : Int) (inFile : Nat) (s : Segment) : Prop :=
  0 < s.size.toInt →
    (s.virtualAddr.toInt + s.size.toInt ≤ limit ∧ (0 < inFile → 0 ≤ s.virtualAddr.toInt)) ∨
    (inFile = 0 ∧ limit + userStacksAreaSize ≤ s.virtualAddr.toInt)

variable {file : List Byte} {s : Segment} {memory memory' : HostMemory} {a : Int}

theorem readable_of_load (h : loadSegment file s memory = some memory') : s.Readable := by
  intro hpos
  by_contra hnegative
  unfold loadSegment at h
  rw [if_pos hpos, if_neg hnegative] at h
  cases h

theorem loadSegment_eq (h : s.Readable) (memory : HostMemory) :
    loadSegment file s memory = some fun a =>
      if s.virtualAddr.toInt ≤ a then
        (readFileAt file s.size.toInt.toNat s.inFileAddr.toNat)[(a - s.virtualAddr.toInt).toNat]?.getD (memory a)
      else memory a := by
  unfold loadSegment
  split_ifs with hpos hposition
  · obtain ⟨-, -, hint⟩ := toNat_eq_of_toInt_pos hpos
    rw [hint, Int.toNat_natCast]
  · exact absurd (h hpos) hposition
  · have hsize : s.size.toInt.toNat = 0 := by omega
    congr 1
    funext a
    rw [hsize, readFileAt, List.take_zero, List.getElem?_nil, Option.getD_none, ite_self]

theorem length_readFileAt (file : List Byte) (s : Segment) :
    (readFileAt file s.size.toInt.toNat s.inFileAddr.toNat).length = s.inFile file := by
  rw [readFileAt, List.length_take, List.length_drop, inFile]

theorem inFile_le (file : List Byte) (s : Segment) : s.inFile file ≤ s.size.toInt.toNat := Nat.min_le_left ..

/-- The bytes that the file has are stored from the address of the segment on. -/
theorem copiedTo_iff (h : s.Readable) :
    s.CopiedTo file a ↔ s.virtualAddr.toInt ≤ a ∧ a < s.virtualAddr.toInt + s.inFile file := by
  have hlength := s.length_readFileAt file
  unfold CopiedTo
  simp only [loadSegment_eq h]
  generalize readFileAt file s.size.toInt.toNat s.inFileAddr.toNat = bytes at hlength ⊢
  constructor
  · rintro ⟨memory, memory', hload, hchanged⟩
    rw [← Option.some.inj hload] at hchanged
    simp only at hchanged
    by_cases hle : s.virtualAddr.toInt ≤ a
    · rw [if_pos hle] at hchanged
      refine ⟨hle, ?_⟩
      by_contra hbehind
      rw [List.getElem?_eq_none (by omega)] at hchanged
      exact hchanged rfl
    · rw [if_neg hle] at hchanged
      exact absurd rfl hchanged
  · rintro ⟨hle, hlt⟩
    have hindex : (a - s.virtualAddr.toInt).toNat < bytes.length := by omega
    refine ⟨fun _ => bytes[(a - s.virtualAddr.toInt).toNat] + 1, _, rfl, ?_⟩
    rw [if_pos hle, List.getElem?_eq_getElem hindex, Option.getD_some]
    generalize bytes[(a - s.virtualAddr.toInt).toNat] = b
    bv_omega

/-- The copied bytes lie below the limit and the segment does not reach into the stacks. -/
theorem fitsBelow_iff {limit : Int} {n : Nat} (hn : n ≤ s.size.toInt.toNat) :
    s.FitsBelow limit n ↔
      (∀ a, s.virtualAddr.toInt ≤ a → a < s.virtualAddr.toInt + n → 0 ≤ a ∧ a < limit) ∧
      ∀ a, s.Occupies a → ¬(limit ≤ a ∧ a < limit + userStacksAreaSize) := by
  have harea : 0 < userStacksAreaSize := by decide
  unfold FitsBelow Occupies
  generalize userStacksAreaSize = area at harea ⊢
  constructor
  · intro h
    constructor
    · intro a hle hlt
      have hfits := h (by omega)
      omega
    · rintro a ⟨hle, hlt⟩
      have hfits := h (by omega)
      omega
  · rintro ⟨hcopies, hstacks⟩ hpos
    -- The first byte, the last one that is copied, and the first address that may be shared.
    have hfirst := hcopies s.virtualAddr.toInt (Int.le_refl _)
    have hlast := hcopies (s.virtualAddr.toInt + n - 1)
    have hshared := hstacks (max s.virtualAddr.toInt limit)
    omega

end Segment

/-- The stack area, at the end of the address space. -/
def InStacks (numPages : Nat) (a : Int) : Prop :=
  (numPages * pageSize : Int) - userStacksAreaSize ≤ a ∧ a < numPages * pageSize

/-- The header that the loader reads. -/
def headerOf (stack : Image Byte) (executable : List Byte) : NoffHeader :=
  NoffHeader.decode (Image.store stack 0 (readFileAt executable NoffHeader.bytes 0))

/-- The sum of the sizes, as a signed word, in whole pages. -/
def NoffHeader.sizesEnd (h : NoffHeader) : Int :=
  -(-(h.code.size + h.initData.size + h.uninitData.size).toInt / pageSize * pageSize)

/-- Every segment fits below the sum of the sizes. -/
def NoffHeader.Fits (executable : List Byte) (h : NoffHeader) : Prop :=
  h.code.FitsBelow h.sizesEnd (h.code.inFile executable) ∧
    h.initData.FitsBelow h.sizesEnd (h.initData.inFile executable) ∧ h.uninitData.FitsBelow h.sizesEnd 0

/-- The loaded program stays within the memory that the loader has taken for it. -/
structure Confined (executable : List Byte) (header : NoffHeader) (numPages : Nat) : Prop where
  pages : numPages ≤ numPhysPages
  copies : ∀ s ∈ [header.code, header.initData], ∀ a, s.CopiedTo executable a →
    0 ≤ a ∧ a < (numPages * pageSize : Int) - userStacksAreaSize
  apart : ∀ s ∈ [header.code, header.initData, header.uninitData], ∀ a, s.Occupies a → ¬InStacks numPages a

section Bounds

variable {stack : Image Byte} {executable : List Byte} {memory : HostMemory} {loaded : LoadedProgram}

theorem sizesEnd_eq {sizes : Word}
    (hle : divRoundUp (sizes + BitVec.ofNat 32 userStacksAreaSize).toNat pageSize ≤ numPhysPages) :
    (divRoundUp (sizes + BitVec.ofNat 32 userStacksAreaSize).toNat pageSize * pageSize : Int) - userStacksAreaSize =
      -(-sizes.toInt / pageSize * pageSize) := by
  have hlt := sizes.isLt
  rw [BitVec.toInt_eq_toNat_cond]
  rw [BitVec.toNat_add, BitVec.toNat_ofNat] at hle ⊢
  unfold divRoundUp userStacksAreaSize pageSize numPhysPages at *
  split_ifs at hle ⊢ <;> omega

/-- The limit below the stacks depends on the sizes alone. -/
theorem loadProgram_some (h : loadProgram stack executable memory = some loaded) :
    loaded.numPages ≤ numPhysPages ∧
      (loaded.numPages * pageSize : Int) - userStacksAreaSize = (headerOf stack executable).sizesEnd ∧
      (headerOf stack executable).code.Readable ∧ (headerOf stack executable).initData.Readable := by
  unfold loadProgram at h
  unfold headerOf
  generalize NoffHeader.decode (Image.store stack 0 (readFileAt executable NoffHeader.bytes 0)) = header at h ⊢
  simp only at h
  split_ifs at h with hmagic hmany
  obtain ⟨afterCode, hcode, hrest⟩ := Option.bind_eq_some_iff.mp h
  obtain ⟨afterData, hdata, rfl⟩ := Option.map_eq_some_iff.mp hrest
  have hle := Nat.le_of_not_lt hmany
  exact ⟨hle, sizesEnd_eq hle, Segment.readable_of_load hcode, Segment.readable_of_load hdata⟩

/-- A program that is accepted stays within its memory if and only if every segment fits below the sum of the
sizes. -/
theorem confined_iff (h : loadProgram stack executable memory = some loaded) :
    Confined executable (headerOf stack executable) loaded.numPages ↔ (headerOf stack executable).Fits executable := by
  obtain ⟨hpages, hlimit, hcode, hdata⟩ := loadProgram_some h
  generalize headerOf stack executable = header at *
  have hend : (loaded.numPages * pageSize : Int) = header.sizesEnd + userStacksAreaSize := by omega
  unfold NoffHeader.Fits
  rw [Segment.fitsBelow_iff (header.code.inFile_le executable),
    Segment.fitsBelow_iff (header.initData.inFile_le executable), Segment.fitsBelow_iff (Nat.zero_le _)]
  constructor
  · intro hconfined
    have hcopies := hconfined.copies
    have hapart := hconfined.apart
    unfold InStacks at hapart
    simp only [hend, Int.add_sub_cancel, List.forall_mem_cons, Segment.copiedTo_iff hcode, Segment.copiedTo_iff hdata,
      and_imp] at hcopies hapart
    exact ⟨⟨hcopies.1, hapart.1⟩, ⟨hcopies.2.1, hapart.2.1⟩, by omega, hapart.2.2.1⟩
  · rintro ⟨⟨hcodeCopies, hcodeStacks⟩, ⟨hdataCopies, hdataStacks⟩, -, hbssStacks⟩
    refine ⟨hpages, ?_, ?_⟩
    · simp only [hend, Int.add_sub_cancel, List.forall_mem_cons, Segment.copiedTo_iff hcode,
        Segment.copiedTo_iff hdata, and_imp]
      exact ⟨hcodeCopies, hdataCopies, nofun⟩
    · unfold InStacks
      simp only [hend, Int.add_sub_cancel, List.forall_mem_cons]
      exact ⟨hcodeStacks, hdataStacks, hbssStacks, nofun⟩

/-- Three segments that follow each other. -/
def smallHeader : NoffHeader := ⟨magicNumber, ⟨0, 40, 4⟩, ⟨4, 44, 2⟩, ⟨6, 0, 10⟩⟩

theorem confined_iff_small : ∃ loaded,
    loadProgram (fun _ => 9) (smallHeader.encode ++ [1, 2, 3, 4, 5, 6]) (fun _ => 0) = some loaded ∧
      Confined (smallHeader.encode ++ [1, 2, 3, 4, 5, 6]) smallHeader loaded.numPages := by
  obtain ⟨loaded, hload⟩ : ∃ loaded,
      loadProgram (fun _ => 9) (smallHeader.encode ++ [1, 2, 3, 4, 5, 6]) (fun _ => 0) = some loaded :=
    Option.isSome_iff_exists.mp (by decide +kernel)
  have hheader : headerOf (fun _ => 9) (smallHeader.encode ++ [1, 2, 3, 4, 5, 6]) = smallHeader :=
    decode_output smallHeader _ _
  have hiff := confined_iff hload
  rw [hheader] at hiff
  refine ⟨loaded, hload, hiff.mpr ⟨?_, ?_, ?_⟩⟩
  · exact fun _ => .inl (by decide +kernel)
  · exact fun _ => .inl (by decide +kernel)
  · exact fun _ => .inl (by decide +kernel)

/-- Three segments that follow each other, of four gigabytes together. -/
def hugeHeader : NoffHeader :=
  ⟨magicNumber, ⟨0, 40, 4⟩, ⟨4, 44, 0x7ffffffe⟩, ⟨0x80000002, 0, 0x7ffffffe⟩⟩

/-- They are accepted as a program of no bytes, and the code is copied to where the stacks begin. -/
theorem huge_program_accepted : ∃ loaded,
    loadProgram (fun _ => 9) (hugeHeader.encode ++ [1, 2, 3, 4]) (fun _ => 0) = some loaded ∧
      headerOf (fun _ => 9) (hugeHeader.encode ++ [1, 2, 3, 4]) = hugeHeader ∧ loaded.numPages = 32 ∧
      hugeHeader.code.CopiedTo (hugeHeader.encode ++ [1, 2, 3, 4]) 0 ∧ InStacks loaded.numPages 0 ∧
      ¬Confined (hugeHeader.encode ++ [1, 2, 3, 4]) hugeHeader loaded.numPages := by
  obtain ⟨loaded, hload⟩ : ∃ loaded,
      loadProgram (fun _ => 9) (hugeHeader.encode ++ [1, 2, 3, 4]) (fun _ => 0) = some loaded :=
    Option.isSome_iff_exists.mp (by decide +kernel)
  have hpages : loaded.numPages = 32 := by
    have hmap : (loadProgram (fun _ => 9) (hugeHeader.encode ++ [1, 2, 3, 4]) (fun _ => 0)).map (·.numPages) =
        some 32 := by decide +kernel
    rw [hload] at hmap
    exact Option.some.inj hmap
  have hcopied : hugeHeader.code.CopiedTo (hugeHeader.encode ++ [1, 2, 3, 4]) 0 :=
    (Segment.copiedTo_iff fun _ => by decide).mpr (by decide +kernel)
  refine ⟨loaded, hload, decode_output hugeHeader _ _, hpages, hcopied, ?_, ?_⟩
  · rw [hpages]
    exact ⟨by decide, by decide⟩
  · intro hconfined
    have hbelow := (hconfined.copies _ List.mem_cons_self 0 hcopied).2
    rw [hpages] at hbelow
    exact absurd hbelow (by decide)

end Bounds

end Nachos

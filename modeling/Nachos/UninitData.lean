import Nachos.IntInterval
import Nachos.ProgramLoading

/-! The segment of the uninitialised data. The converter merges the sections `.bss` and `.sbss` in the order in
which the file names them, and only checks that none of them begins behind the end of those before it. -/

namespace Nachos

open IntInterval

/-- The addresses of a section. -/
def SectionHeader.addresses (s : SectionHeader) : IntInterval := ⟨s.paddr.toInt, s.size.toInt⟩

/-- The addresses of a segment. -/
def Segment.addresses (segment : Segment) : IntInterval := ⟨segment.virtualAddr.toInt, segment.size.toInt⟩

/-- The sections that make up the uninitialised data, in the order of the file. -/
def bssSections (sections : List SectionHeader) : List SectionHeader := sections.filter fun s => s.size ≠ 0 ∧ s.isBss

/-- What the loop of the converter does with one of them. -/
def mergeBss (uninitData : Segment) (s : SectionHeader) : Option Segment :=
  if uninitData.size ≠ 0 then
    if (uninitData.virtualAddr + uninitData.size).slt s.paddr then none
    else some { uninitData with size := uninitData.size + s.size }
  else some ⟨s.paddr, -1, s.size⟩

section Loop

variable {coff : List Byte} {c c' : Conversion} {s : SectionHeader} {segment : Segment}

theorem copy_noffH (h : c.copy coff s = some (segment, c')) : c'.noffH = c.noffH := by
  unfold Conversion.copy at h
  simp only at h
  generalize (if s.size.toInt < 0 then (-1 : Int) else _) = nRead at h
  split at h
  · obtain ⟨-, rfl⟩ := Prod.mk.inj (Option.some.inj h)
    rfl
  · cases h

theorem convertSection_bss (hsize : s.size ≠ 0) (hbss : s.isBss = true) :
    c.convertSection coff s = (mergeBss c.noffH.uninitData s).map c.withUninitData := by
  have htext : s.isText = false := by
    rw [Bool.eq_false_iff]
    intro htext
    rw [isBss_of_isText htext] at hbss
    cases hbss
  have hdata : s.isData = false := by
    rw [Bool.eq_false_iff]
    intro hdata
    rw [isBss_of_isData hdata] at hbss
    cases hbss
  unfold Conversion.convertSection mergeBss
  rw [if_neg hsize, htext, hdata, hbss]
  simp only [Bool.false_eq_true, if_false, if_true]
  split
  · split <;> rfl
  · rfl

/-- No other section reaches the uninitialised data. -/
theorem convertSection_other (hother : ¬(s.size ≠ 0 ∧ s.isBss = true)) (h : c.convertSection coff s = some c') :
    c'.noffH.uninitData = c.noffH.uninitData := by
  unfold Conversion.convertSection at h
  split at h
  · cases h
    rfl
  next hsize =>
    split at h
    · obtain ⟨copied, hcopy, rfl⟩ := Option.map_eq_some_iff.mp h
      have hdata : copied.2.noffH.uninitData = c.noffH.uninitData := by rw [copy_noffH hcopy]
      exact hdata
    · split at h
      · split at h
        · cases h
        · obtain ⟨copied, hcopy, rfl⟩ := Option.map_eq_some_iff.mp h
          have hdata : copied.2.noffH.uninitData = c.noffH.uninitData := by rw [copy_noffH hcopy]
          exact hdata
      · split at h
        next hbss => exact absurd ⟨hsize, hbss⟩ hother
        · cases h

/-- The loop over all sections merges those of the uninitialised data. -/
theorem convertSections_uninitData {sections : List SectionHeader}
    (h : Conversion.convertSections coff sections c = some c') :
    (bssSections sections).foldlM mergeBss c.noffH.uninitData = some c'.noffH.uninitData := by
  induction sections generalizing c with
  | nil =>
      cases h
      rfl
  | cons s rest ih =>
      obtain ⟨next, hsection, hrest⟩ := Option.bind_eq_some_iff.mp h
      by_cases hbss : s.size ≠ 0 ∧ s.isBss = true
      · rw [convertSection_bss hbss.1 hbss.2] at hsection
        obtain ⟨merged, hmerge, rfl⟩ := Option.map_eq_some_iff.mp hsection
        rw [bssSections, List.filter_cons_of_pos (by simpa using hbss), List.foldlM_cons, hmerge]
        exact ih hrest
      · rw [bssSections, List.filter_cons_of_neg (by simpa using hbss), ← convertSection_other hbss hsection]
        exact ih hrest

end Loop

section Merge

variable {l : List SectionHeader} {uninitData merged : Segment} {s t : SectionHeader}

theorem toInt_add_eq {a b : Word} (ha : 0 < a.toInt) (hb : 0 < b.toInt) (h : a.toInt + b.toInt < 2 ^ 31) :
    (a + b).toInt = a.toInt + b.toInt := by
  rw [BitVec.toInt_add]
  apply Int.bmod_eq_of_le <;> omega

theorem addresses_pos (hpos : ∀ s ∈ l, 0 < s.size.toInt) : ∀ i ∈ l.map SectionHeader.addresses, 0 < i.length := by
  intro i hi
  obtain ⟨s, hs, rfl⟩ := List.mem_map.mp hi
  exact hpos s hs

theorem mergeBss_some (hsize : 0 < uninitData.size.toInt) (h : mergeBss uninitData s = some merged) :
    s.paddr.toInt ≤ (uninitData.virtualAddr + uninitData.size).toInt ∧
      merged = { uninitData with size := uninitData.size + s.size } := by
  have hne : uninitData.size ≠ 0 := by
    intro hzero
    rw [hzero] at hsize
    exact absurd hsize (by decide)
  unfold mergeBss at h
  rw [if_pos hne] at h
  split at h
  · cases h
  next hnot =>
    refine ⟨?_, (Option.some.inj h).symm⟩
    rw [BitVec.slt_iff_toInt_lt] at hnot
    omega

/-- The end of a segment behind which a section lies is an address. -/
theorem end_toInt {l' : List IntInterval} (hsize : 0 < uninitData.size.toInt)
    (hperm : l'.Perm ((s :: l).map SectionHeader.addresses))
    (hadjacent : AdjacentFrom (uninitData.virtualAddr.toInt + uninitData.size.toInt) l') :
    (uninitData.virtualAddr + uninitData.size).toInt =
      uninitData.virtualAddr.toInt + uninitData.size.toInt := by
  cases l' with
  | nil => exact absurd hperm.length_eq (by simp)
  | cons i rest =>
      obtain ⟨t, -, hstart⟩ := List.mem_map.mp (hperm.mem_iff.mp List.mem_cons_self)
      have haddr : t.paddr.toInt = uninitData.virtualAddr.toInt + uninitData.size.toInt := by
        rw [← hadjacent.1, ← hstart]
        rfl
      have hlt := BitVec.toInt_lt (x := t.paddr)
      have hge := BitVec.le_toInt uninitData.virtualAddr
      rw [BitVec.toInt_add]
      apply Int.bmod_eq_of_le <;> omega

/-- A segment that is not empty grows by the sizes of the sections, as long as the sum does not overflow. -/
theorem merge_size (h : l.foldlM mergeBss uninitData = some merged) (hpos : ∀ s ∈ l, 0 < s.size.toInt)
    (hsize : 0 < uninitData.size.toInt)
    (hroom : uninitData.size.toInt + total (l.map SectionHeader.addresses) < 2 ^ 31) :
    merged.virtualAddr = uninitData.virtualAddr ∧
      merged.size.toInt = uninitData.size.toInt + total (l.map SectionHeader.addresses) := by
  induction l generalizing uninitData with
  | nil =>
      cases h
      exact ⟨rfl, (add_zero _).symm⟩
  | cons s rest ih =>
      have hs := hpos s List.mem_cons_self
      have hpos' : ∀ t ∈ rest, 0 < t.size.toInt := fun t ht => hpos t (List.mem_cons_of_mem s ht)
      have hrest := total_nonneg (addresses_pos hpos')
      have htotal : total ((s :: rest).map SectionHeader.addresses) =
          s.size.toInt + total (rest.map SectionHeader.addresses) := rfl
      rw [htotal] at hroom ⊢
      rw [List.foldlM_cons] at h
      obtain ⟨next, hstep, hmore⟩ := Option.bind_eq_some_iff.mp h
      obtain ⟨-, rfl⟩ := mergeBss_some hsize hstep
      have hsum := toInt_add_eq hsize hs (by omega)
      obtain ⟨haddr, hlength⟩ := ih hmore hpos' (by rw [hsum]; omega) (by rw [hsum]; omega)
      refine ⟨haddr, ?_⟩
      rw [hlength, hsum]
      omega

/-- Sections that lie end to end behind the segment, in some order, and that the check lets pass, stand in this order
in the file. -/
theorem merge_order {l' : List IntInterval} (h : l.foldlM mergeBss uninitData = some merged)
    (hpos : ∀ s ∈ l, 0 < s.size.toInt) (hsize : 0 < uninitData.size.toInt)
    (hroom : uninitData.size.toInt + total (l.map SectionHeader.addresses) < 2 ^ 31)
    (hperm : l'.Perm (l.map SectionHeader.addresses))
    (hadjacent : AdjacentFrom (uninitData.virtualAddr.toInt + uninitData.size.toInt) l') :
    l' = l.map SectionHeader.addresses := by
  induction l generalizing uninitData l' with
  | nil => exact hperm.eq_nil
  | cons s rest ih =>
      have hs := hpos s List.mem_cons_self
      have hpos' : ∀ t ∈ rest, 0 < t.size.toInt := fun t ht => hpos t (List.mem_cons_of_mem s ht)
      have hrest := total_nonneg (addresses_pos hpos')
      have htotal : total ((s :: rest).map SectionHeader.addresses) =
          s.size.toInt + total (rest.map SectionHeader.addresses) := rfl
      rw [htotal] at hroom
      rw [List.foldlM_cons] at h
      obtain ⟨next, hstep, hmore⟩ := Option.bind_eq_some_iff.mp h
      have hend : (uninitData.virtualAddr + uninitData.size).toInt =
          uninitData.virtualAddr.toInt + uninitData.size.toInt := end_toInt hsize hperm hadjacent
      obtain ⟨hle, rfl⟩ := mergeBss_some hsize hstep
      have hpos'' : ∀ i ∈ l', 0 < i.length := fun i hi => addresses_pos hpos i (hperm.mem_iff.mp hi)
      obtain ⟨rest', rfl, hperm'⟩ := hadjacent.eq_cons hpos'' hperm (hend ▸ hle)
      have hsum := toInt_add_eq hsize hs (by omega)
      rw [List.map_cons, ih hmore hpos' (by rw [hsum]; omega) (by rw [hsum]; omega) hperm' ?_]
      have hafter := hadjacent.2
      simp only [hsum]
      rw [← add_assoc]
      exact hafter

/-- The sections lie end to end, and the segment covers what they cover. -/
def MergesRight (l : List SectionHeader) (merged : Segment) : Prop :=
  Contiguous (l.map SectionHeader.addresses) ∧ merged.addresses.toSet = cover (l.map SectionHeader.addresses)

/-- The sections stand in the file in the order of their addresses, each one where the one before it ends, and the
sum of their sizes is an `int`. -/
def InFileOrder (l : List SectionHeader) : Prop :=
  (∃ a, AdjacentFrom a (l.map SectionHeader.addresses)) ∧ total (l.map SectionHeader.addresses) < 2 ^ 31

theorem mergesRight_iff (hpos : ∀ s ∈ l, 0 < s.size.toInt) (hzero : uninitData.size = 0)
    (h : l.foldlM mergeBss uninitData = some merged) : MergesRight l merged ↔ InFileOrder l := by
  have hlengths := addresses_pos hpos
  cases l with
  | nil =>
      cases h
      have hempty : uninitData.addresses.toSet = ∅ := by
        ext x
        simp [mem_toSet, Segment.addresses, hzero]
      constructor
      · intro _
        exact ⟨⟨0, trivial⟩, by decide⟩
      · intro _
        exact ⟨⟨[], 0, List.Perm.refl _, trivial⟩, by simp [hempty, cover]⟩
  | cons s rest =>
      have hs := hpos s List.mem_cons_self
      have hpos' : ∀ t ∈ rest, 0 < t.size.toInt := fun t ht => hpos t (List.mem_cons_of_mem s ht)
      have hrest := total_nonneg (addresses_pos hpos')
      have htotal : total ((s :: rest).map SectionHeader.addresses) =
          s.size.toInt + total (rest.map SectionHeader.addresses) := rfl
      have hmore : rest.foldlM mergeBss ⟨s.paddr, -1, s.size⟩ = some merged := by
        rw [List.foldlM_cons, mergeBss, if_neg (not_not.mpr hzero)] at h
        exact h
      constructor
      · rintro ⟨⟨l', a, hperm, hadjacent⟩, hcover⟩
        have hlengths' : ∀ i ∈ l', 0 < i.length := fun i hi => hlengths i (hperm.mem_iff.mp hi)
        rw [← cover_perm hperm, hadjacent.cover_eq hlengths', total_perm hperm] at hcover
        have hnonempty : 0 < total ((s :: rest).map SectionHeader.addresses) := by omega
        obtain ⟨hstart, hsum⟩ := IntInterval.mk.inj (eq_of_toSet hnonempty hcover.symm)
        change s.size.toInt + total (rest.map SectionHeader.addresses) = merged.size.toInt at hsum
        have hroom : s.size.toInt + total (rest.map SectionHeader.addresses) < 2 ^ 31 := by
          have hlt := BitVec.toInt_lt (x := merged.size)
          omega
        obtain ⟨haddr, -⟩ := merge_size hmore hpos' hs hroom
        have hfirst : s.paddr.toInt = a := by rw [hstart, haddr]
        obtain ⟨rest', rfl, hperm'⟩ := hadjacent.eq_cons hlengths' hperm hfirst.le
        have hafter : AdjacentFrom (s.paddr.toInt + s.size.toInt) rest' := by
          rw [hfirst]
          exact hadjacent.2
        rw [merge_order hmore hpos' hs hroom hperm' hafter] at hadjacent
        exact ⟨⟨a, hadjacent⟩, hroom⟩
      · rintro ⟨⟨a, hadjacent⟩, hroom⟩
        obtain ⟨haddr, hsize⟩ := merge_size hmore hpos' hs hroom
        have hfirst : s.paddr.toInt = a := hadjacent.1
        refine ⟨⟨_, a, List.Perm.refl _, hadjacent⟩, ?_⟩
        rw [hadjacent.cover_eq hlengths, Segment.addresses, haddr, hsize, ← hfirst]
        rfl

end Merge

section Files

variable {coff noff : List Byte} {garbage : NoffHeader} {sections : List SectionHeader}

/-- The header that the loader finds in a converted file, and the loop that has made it. -/
theorem coff2noff_uninitData (stack : Image Byte) (hsections : readSectionHeaders coff = some sections)
    (hnoff : coff2noff garbage coff = some noff) :
    (bssSections sections).foldlM mergeBss { garbage.uninitData with size := 0 } =
      some (NoffHeader.decode (Image.store stack 0 (readFileAt noff NoffHeader.bytes 0))).uninitData := by
  unfold coff2noff at hnoff
  rw [hsections, Option.bind_some] at hnoff
  obtain ⟨c, hconvert, rfl⟩ := Option.map_eq_some_iff.mp hnoff
  rw [decode_output]
  exact convertSections_uninitData hconvert

/-- In a file that is accepted the sections of the uninitialised data lie end to end, and the segment covers them,
exactly when they stand in the order of their addresses. A file with a gap before the second one is rejected. -/
theorem uninitData_covers_iff (stack : Image Byte) (hsections : readSectionHeaders coff = some sections)
    (hpos : ∀ s ∈ bssSections sections, 0 < s.size.toInt) :
    (∀ noff, coff2noff garbage coff = some noff →
      (MergesRight (bssSections sections)
          (NoffHeader.decode (Image.store stack 0 (readFileAt noff NoffHeader.bytes 0))).uninitData ↔
        InFileOrder (bssSections sections))) ∧
    ∀ s t rest, bssSections sections = s :: t :: rest → (s.paddr + s.size).slt t.paddr →
      coff2noff garbage coff = none := by
  constructor
  · intro noff hnoff
    exact mergesRight_iff hpos rfl (coff2noff_uninitData stack hsections hnoff)
  · intro s t rest hbss hgap
    rw [Option.eq_none_iff_forall_ne_some]
    intro noff hnoff
    have hmerge := coff2noff_uninitData stack hsections hnoff
    have hs : 0 < s.size.toInt := hpos s (by rw [hbss]; exact List.mem_cons_self)
    rw [hbss, List.foldlM_cons] at hmerge
    obtain ⟨first, hfirst, hmore⟩ := Option.bind_eq_some_iff.mp hmerge
    rw [mergeBss, if_neg (by simp)] at hfirst
    cases hfirst
    obtain ⟨merged, hsecond, -⟩ := Option.bind_eq_some_iff.mp hmore
    obtain ⟨hle, -⟩ := mergeBss_some hs hsecond
    rw [BitVec.slt_iff_toInt_lt] at hgap
    exact absurd hgap (not_lt.mpr hle)

/-- A file with `.bss` at one address and then `.sbss` at another, each of four bytes. -/
def bssCoff (first second : Byte) : List Byte :=
  [0x62, 0x01, 2, 0] ++ List.replicate 16 0 ++ ([0x07, 0x01] ++ List.replicate 54 0) ++
    ([46, 98, 115, 115, 0, 0, 0, 0] ++ [first, 0, 0, 0] ++ [first, 0, 0, 0] ++ [4, 0, 0, 0] ++ List.replicate 20 0) ++
    ([46, 115, 98, 115, 115, 0, 0, 0] ++ [second, 0, 0, 0] ++ [second, 0, 0, 0] ++ [4, 0, 0, 0] ++
      List.replicate 20 0)

theorem uninitData_covers_iff_adjacent :
    ∃ noff, coff2noff ⟨0, ⟨9, 9, 9⟩, ⟨9, 9, 9⟩, ⟨9, 9, 9⟩⟩ (bssCoff 100 104) = some noff ∧
      MergesRight [⟨[46, 98, 115, 115, 0, 0, 0, 0], 100, 4, 0⟩, ⟨[46, 115, 98, 115, 115, 0, 0, 0], 104, 4, 0⟩]
        (NoffHeader.decode (Image.store (fun _ => 9) 0 (readFileAt noff NoffHeader.bytes 0))).uninitData := by
  obtain ⟨noff, hnoff⟩ : ∃ noff, coff2noff ⟨0, ⟨9, 9, 9⟩, ⟨9, 9, 9⟩, ⟨9, 9, 9⟩⟩ (bssCoff 100 104) = some noff :=
    Option.isSome_iff_exists.mp (by decide +kernel)
  have hsections : readSectionHeaders (bssCoff 100 104) =
      some [⟨[46, 98, 115, 115, 0, 0, 0, 0], 100, 4, 0⟩, ⟨[46, 115, 98, 115, 115, 0, 0, 0], 104, 4, 0⟩] := by
    decide +kernel
  exact ⟨noff, hnoff, ((uninitData_covers_iff (fun _ => 9) hsections (by decide)).1 noff hnoff).mpr
    ⟨⟨100, rfl, rfl, trivial⟩, by decide⟩⟩

/-- With `.sbss` far below `.bss` the file is accepted, and the segment lies behind `.bss`. -/
theorem uninitData_gap_accepted :
    ∃ noff, coff2noff ⟨0, ⟨9, 9, 9⟩, ⟨9, 9, 9⟩, ⟨9, 9, 9⟩⟩ (bssCoff 136 100) = some noff ∧
      (NoffHeader.decode (Image.store (fun _ => 9) 0 (readFileAt noff NoffHeader.bytes 0))).uninitData =
        ⟨136, -1, 8⟩ ∧
      ¬Contiguous [⟨136, 4⟩, ⟨100, 4⟩] ∧ toSet ⟨136, 8⟩ ≠ cover [⟨136, 4⟩, ⟨100, 4⟩] := by
  obtain ⟨noff, hnoff⟩ : ∃ noff, coff2noff ⟨0, ⟨9, 9, 9⟩, ⟨9, 9, 9⟩, ⟨9, 9, 9⟩⟩ (bssCoff 136 100) = some noff :=
    Option.isSome_iff_exists.mp (by decide +kernel)
  have hsections : readSectionHeaders (bssCoff 136 100) =
      some [⟨[46, 98, 115, 115, 0, 0, 0, 0], 136, 4, 0⟩, ⟨[46, 115, 98, 115, 115, 0, 0, 0], 100, 4, 0⟩] := by
    decide +kernel
  have hmerge := coff2noff_uninitData (fun _ => 9) hsections hnoff
  have hmem : ∀ x ∈ [(136 : Int), 100], x ∈ cover [⟨136, 4⟩, ⟨100, 4⟩] := by simp [cover, mem_toSet]
  refine ⟨noff, hnoff, (Option.some.inj hmerge).symm.trans (by decide +kernel), ?_, ?_⟩
  · rintro ⟨l', a, hperm, hadjacent⟩
    have hpos : ∀ i ∈ l', 0 < i.length := by
      intro i hi
      have hi' := hperm.mem_iff.mp hi
      simp only [List.mem_cons, List.not_mem_nil, or_false] at hi'
      rcases hi' with rfl | rfl <;> decide
    have hcover := hadjacent.cover_eq hpos
    rw [cover_perm hperm, total_perm hperm] at hcover
    have hhigh := hmem 136 (by simp)
    have hlow := hmem 100 (by simp)
    rw [hcover, mem_toSet] at hhigh hlow
    simp only [total] at hhigh hlow
    omega
  · intro heq
    have hlow := hmem 100 (by simp)
    rw [← heq] at hlow
    simp only [mem_toSet] at hlow
    omega

end Files

end Nachos

import Nachos.CoffToNoff
import Nachos.Translate

/-! The loader `AddrSpace::AddrSpace` of `userprog/addrspace.cc`, and what it makes of a program that the converter
has produced. The converter and the loader only agree on the file format: the converter keeps running offsets, and
the loader takes the size of the address space from the sizes of the segments. -/

namespace Nachos

open Image

section Loader

/-- `OpenFile::ReadAt`, when the position is not negative. -/
def readFileAt (file : List Byte) (numBytes position : Nat) : List Byte := (file.drop position).take numBytes

/-- What stands in main memory and around it, by the index into `mainMemory`. -/
abbrev HostMemory : Type := Int → Byte

/-- A segment is copied into main memory; a negative position in the file fails an assertion. -/
def loadSegment (file : List Byte) (segment : Segment) (memory : HostMemory) : Option HostMemory :=
  if 0 < segment.size.toInt then
    if 0 ≤ segment.inFileAddr.toInt then
      let bytes := readFileAt file segment.size.toNat segment.inFileAddr.toNat
      some fun a =>
        if segment.virtualAddr.toInt ≤ a then bytes[(a - segment.virtualAddr.toInt).toNat]?.getD (memory a)
        else memory a
    else none
  else some memory

/-- An address space with the memory after its program is loaded; its page table is `pageTableOf numPages`. -/
structure LoadedProgram where
  numPages : Nat
  memory : HostMemory

/-- `AddrSpace::AddrSpace`, which throws if there are more pages than physical ones; `stack` is what the variable for
the header holds before. -/
def loadProgram (stack : Image Byte) (executable : List Byte) (memory : HostMemory) : Option LoadedProgram :=
  let noffH := NoffHeader.decode (Image.store stack 0 (readFileAt executable NoffHeader.bytes 0))
  if noffH.noffMagic ≠ magicNumber then none
  else
    let size := noffH.code.size + noffH.initData.size + noffH.uninitData.size + BitVec.ofNat 32 userStacksAreaSize
    let numPages := divRoundUp size.toNat pageSize
    if numPhysPages < numPages then none
    else
      (loadSegment executable noffH.code memory).bind fun memory =>
        (loadSegment executable noffH.initData memory).map fun memory => ⟨numPages, memory⟩

end Loader

section Linking

/-- The sections lie one behind the other from this address on. -/
def Consecutive : Nat → List SectionHeader → Prop
  | _, [] => True
  | a, s :: rest => s.paddr.toNat = a ∧ 0 < s.size.toInt ∧ Consecutive (a + s.size.toNat) rest

def totalSize (sections : List SectionHeader) : Nat := (sections.map fun s => s.size.toNat).sum

/-- The sections that are not empty, in the order of their addresses, are as the linker script lays them out. -/
structure Linked (sections text data bss : List SectionHeader) : Prop where
  perm : (sections.filter fun s => s.size ≠ 0).Perm (text ++ (data ++ bss))
  consecutive : Consecutive 0 (text ++ (data ++ bss))
  oneText : text.length ≤ 1
  oneData : data.length ≤ 1
  isText : ∀ s ∈ text, s.isText
  isData : ∀ s ∈ data, s.isData
  isBss : ∀ s ∈ bss, s.isBss

variable {a : Nat} {l l' : List SectionHeader} {s : SectionHeader}

theorem totalSize_cons (s : SectionHeader) (l : List SectionHeader) :
    totalSize (s :: l) = s.size.toNat + totalSize l := by
  rw [totalSize, List.map_cons, List.sum_cons, totalSize]

theorem consecutive_append : Consecutive a (l ++ l') ↔ Consecutive a l ∧ Consecutive (a + totalSize l) l' := by
  induction l generalizing a with
  | nil => simp [Consecutive, totalSize]
  | cons s rest ih =>
      have htotal : a + totalSize (s :: rest) = a + s.size.toNat + totalSize rest := by
        rw [totalSize_cons]
        omega
      rw [htotal]
      simp only [List.cons_append, Consecutive, ih]
      exact ⟨fun h => ⟨⟨h.1, h.2.1, h.2.2.1⟩, h.2.2.2⟩, fun h => ⟨h.1.1, h.1.2.1, h.1.2.2, h.2⟩⟩

theorem toNat_eq_of_toInt_pos {w : Word} (h : 0 < w.toInt) : w.toNat < 2 ^ 31 ∧ 0 < w.toNat ∧ w.toInt = w.toNat := by
  rw [BitVec.toInt_eq_toNat_cond] at h
  rw [BitVec.toInt_eq_toNat_cond]
  have hlt := w.isLt
  split at h <;> split <;> omega

theorem Consecutive.bounds (h : Consecutive a l) (hs : s ∈ l) :
    0 < s.size.toInt ∧ a ≤ s.paddr.toNat ∧ s.paddr.toNat + s.size.toNat ≤ a + totalSize l := by
  induction l generalizing a with
  | nil => cases hs
  | cons first rest ih =>
      obtain ⟨haddr, hpos, hrest⟩ := h
      have htotal := totalSize_cons first rest
      rcases List.mem_cons.mp hs with rfl | hs
      · exact ⟨hpos, by omega, by omega⟩
      · obtain ⟨hsize, hle, hend⟩ := ih hrest hs
        exact ⟨hsize, by omega, by omega⟩

end Linking

section Converter

variable {coff : List Byte}

/-- The bytes of a section stand in the output where the segment says. -/
structure Stored (coff written : List Byte) (segment : Segment) (s : SectionHeader) : Prop where
  virtualAddr : segment.virtualAddr = s.paddr
  size : segment.size = s.size
  content : ∃ before bytes behind, written = before ++ (bytes ++ behind) ∧ bytes.length = s.size.toNat ∧
    segment.inFileAddr.toNat = NoffHeader.bytes + before.length ∧
    (0 ≤ s.scnptr.toInt → bytes = (coff.drop s.scnptr.toNat).take s.size.toNat)

/-- A segment holds the sections of its kind, of which there is one at most. -/
def Holds (coff written : List Byte) (segment : Segment) : List SectionHeader → Prop
  | [] => segment.size = 0
  | [s] => Stored coff written segment s
  | _ => True

/-- What the converter has made of the sections that it has seen. -/
structure Converted (coff : List Byte) (seen : List SectionHeader) (c : Conversion) : Prop where
  magic : c.noffH.noffMagic = magicNumber
  inNoffFile : c.inNoffFile.toNat = NoffHeader.bytes + c.written.length
  written : c.written.length ≤ totalSize seen
  code : Holds coff c.written c.noffH.code (seen.filter fun s => s.size ≠ 0 ∧ s.isText)
  initData : Holds coff c.written c.noffH.initData (seen.filter fun s => s.size ≠ 0 ∧ s.isData)
  uninitData : c.noffH.uninitData.size.toNat = totalSize (seen.filter fun s => s.size ≠ 0 ∧ s.isBss)

theorem Stored.append {written : List Byte} {segment : Segment} {s : SectionHeader}
    (h : Stored coff written segment s) (more : List Byte) : Stored coff (written ++ more) segment s := by
  obtain ⟨before, bytes, behind, hwritten, hrest⟩ := h.content
  refine ⟨h.virtualAddr, h.size, before, bytes, behind ++ more, ?_, hrest⟩
  rw [hwritten]
  simp only [List.append_assoc]

theorem Holds.append {written : List Byte} {segment : Segment} {l : List SectionHeader}
    (h : Holds coff written segment l) (more : List Byte) : Holds coff (written ++ more) segment l := by
  cases l with
  | nil => exact h
  | cons s rest =>
      cases rest with
      | nil => exact Stored.append h more
      | cons s' rest => trivial

theorem Holds.snoc {written : List Byte} {segment : Segment} {s : SectionHeader} (h : Stored coff written segment s)
    (l : List SectionHeader) : Holds coff written segment (l ++ [s]) := by
  cases l with
  | nil => exact h
  | cons s' rest =>
      cases rest with
      | nil => trivial
      | cons s'' rest => trivial

theorem totalSize_append (l l' : List SectionHeader) : totalSize (l ++ l') = totalSize l + totalSize l' := by
  rw [totalSize, List.map_append, List.sum_append, totalSize, totalSize]

theorem totalSize_singleton (s : SectionHeader) : totalSize [s] = s.size.toNat := by
  simp [totalSize]

theorem totalSize_filter_le (p : SectionHeader → Bool) (l : List SectionHeader) :
    totalSize (l.filter p) ≤ totalSize l := by
  induction l with
  | nil => exact Nat.le_refl _
  | cons s rest ih =>
      have htotal := totalSize_cons s rest
      rw [List.filter_cons]
      split
      · rw [htotal, totalSize_cons]
        omega
      · omega

variable {seen : List SectionHeader} {c c' : Conversion} {s : SectionHeader}

/-- A section of positive size is copied. -/
theorem Conversion.copy_spec (h : Converted coff seen c) (hpos : 0 < s.size.toInt)
    (hroom : totalSize seen + s.size.toNat + NoffHeader.bytes < 2 ^ 32) {segment : Segment}
    (hcopy : c.copy coff s = some (segment, c')) :
    ∃ bytes, c'.noffH = c.noffH ∧ c'.written = c.written ++ bytes ∧ bytes.length = s.size.toNat ∧
      c'.inNoffFile.toNat = NoffHeader.bytes + c'.written.length ∧ Stored coff c'.written segment s := by
  obtain ⟨-, -, hint⟩ := toNat_eq_of_toInt_pos hpos
  have hnat : s.size.toInt.toNat = s.size.toNat := by omega
  unfold copy at hcopy
  simp only [hnat] at hcopy
  generalize hposition : (if 0 ≤ s.scnptr.toInt then s.scnptr.toNat else c.position) = position at hcopy
  generalize hbytes : (coff.drop position).take s.size.toNat = bytes at hcopy
  rw [if_neg (show ¬s.size.toInt < 0 by omega)] at hcopy
  split at hcopy
  next hread =>
    obtain ⟨rfl, rfl⟩ := Prod.mk.inj (Option.some.inj hcopy)
    have hlength : bytes.length = s.size.toNat := by omega
    have hwritten := h.written
    have hoffset := h.inNoffFile
    refine ⟨bytes, rfl, rfl, hlength, ?_, rfl, rfl, c.written, bytes, [], ?_, hlength, hoffset, ?_⟩
    · simp only [List.length_append]
      rw [BitVec.toNat_add, Nat.mod_eq_of_lt (by omega), hoffset]
      omega
    · rw [List.append_nil]
    · intro hptr
      rw [if_pos hptr] at hposition
      rw [← hbytes, ← hposition]
  · cases hcopy

theorem filter_snoc {p : SectionHeader → Bool} (seen : List SectionHeader) (s : SectionHeader) :
    (seen ++ [s]).filter p = if p s then seen.filter p ++ [s] else seen.filter p := by
  rw [List.filter_append]
  cases hp : p s with
  | true => rw [List.filter_cons_of_pos hp, List.filter_nil, if_pos rfl]
  | false => rw [List.filter_cons_of_neg (by simp [hp]), List.filter_nil, List.append_nil, if_neg (by simp)]

/-- A section has one name. -/
theorem named_eq {name name' : String} (h : s.named name = true) (h' : s.named name' = true) :
    (name.toList.map fun c => (BitVec.ofNat 8 c.toNat : Byte)) = name'.toList.map fun c => BitVec.ofNat 8 c.toNat :=
  (beq_iff_eq.mp h).symm.trans (beq_iff_eq.mp h')

theorem isData_of_isText (h : s.isText = true) : s.isData = false := by
  rw [Bool.eq_false_iff]
  intro hdata
  rcases Bool.or_eq_true_iff.mp hdata with hname | hname
  · exact absurd (named_eq h hname) (by decide)
  · exact absurd (named_eq h hname) (by decide)

theorem isBss_of_isText (h : s.isText = true) : s.isBss = false := by
  rw [Bool.eq_false_iff]
  intro hbss
  rcases Bool.or_eq_true_iff.mp hbss with hname | hname
  · exact absurd (named_eq h hname) (by decide)
  · exact absurd (named_eq h hname) (by decide)

theorem isBss_of_isData (h : s.isData = true) : s.isBss = false := by
  rw [Bool.eq_false_iff]
  intro hbss
  rcases Bool.or_eq_true_iff.mp h with hdata | hdata
  all_goals
    rcases Bool.or_eq_true_iff.mp hbss with hname | hname
    · exact absurd (named_eq hdata hname) (by decide)
    · exact absurd (named_eq hdata hname) (by decide)

/-- An empty section changes nothing. -/
theorem Converted.skip (h : Converted coff seen c) (hempty : s.size = 0) : Converted coff (seen ++ [s]) c := by
  have htotal : totalSize (seen ++ [s]) = totalSize seen := by
    rw [totalSize_append, totalSize_singleton, hempty]
    rfl
  refine ⟨h.magic, h.inNoffFile, by rw [htotal]; exact h.written, ?_, ?_, ?_⟩
  · rw [filter_snoc, if_neg (by simp [hempty])]
    exact h.code
  · rw [filter_snoc, if_neg (by simp [hempty])]
    exact h.initData
  · rw [filter_snoc, if_neg (by simp [hempty])]
    exact h.uninitData

theorem Converted.step (h : Converted coff seen c) (hpositive : s.size ≠ 0 → 0 < s.size.toInt)
    (hroom : totalSize seen + s.size.toNat + NoffHeader.bytes < 2 ^ 32)
    (hconvert : c.convertSection coff s = some c') : Converted coff (seen ++ [s]) c' := by
  have htotal : totalSize (seen ++ [s]) = totalSize seen + s.size.toNat := by
    rw [totalSize_append, totalSize_singleton]
  have hwritten := h.written
  unfold Conversion.convertSection at hconvert
  split at hconvert
  next hempty =>
    cases hconvert
    exact h.skip hempty
  next hsize =>
    have hpos := hpositive hsize
    split at hconvert
    next htext =>
      obtain ⟨⟨segment, copied⟩, hcopy, rfl⟩ := Option.map_eq_some_iff.mp hconvert
      obtain ⟨bytes, hheader, hmore, hlength, hoffset, hstored⟩ := Conversion.copy_spec h hpos hroom hcopy
      have hdata := isData_of_isText htext
      have hbss := isBss_of_isText htext
      refine ⟨?_, hoffset, ?_, ?_, ?_, ?_⟩
      · change copied.noffH.noffMagic = magicNumber
        rw [hheader]
        exact h.magic
      · change copied.written.length ≤ totalSize (seen ++ [s])
        rw [hmore, List.length_append]
        omega
      · rw [filter_snoc, if_pos (decide_eq_true ⟨hsize, htext⟩)]
        exact Holds.snoc hstored _
      · change Holds coff copied.written copied.noffH.initData _
        rw [filter_snoc, if_neg (by simp [hdata]), hheader, hmore]
        exact h.initData.append bytes
      · change copied.noffH.uninitData.size.toNat = _
        rw [filter_snoc, if_neg (by simp [hbss]), hheader]
        exact h.uninitData
    next htext =>
      split at hconvert
      next hdata =>
        split at hconvert
        · cases hconvert
        · obtain ⟨⟨segment, copied⟩, hcopy, rfl⟩ := Option.map_eq_some_iff.mp hconvert
          obtain ⟨bytes, hheader, hmore, hlength, hoffset, hstored⟩ := Conversion.copy_spec h hpos hroom hcopy
          have hbss := isBss_of_isData hdata
          refine ⟨?_, hoffset, ?_, ?_, ?_, ?_⟩
          · change copied.noffH.noffMagic = magicNumber
            rw [hheader]
            exact h.magic
          · change copied.written.length ≤ totalSize (seen ++ [s])
            rw [hmore, List.length_append]
            omega
          · change Holds coff copied.written copied.noffH.code _
            rw [filter_snoc, if_neg (by simp [htext]), hheader, hmore]
            exact h.code.append bytes
          · rw [filter_snoc, if_pos (decide_eq_true ⟨hsize, hdata⟩)]
            exact Holds.snoc hstored _
          · change copied.noffH.uninitData.size.toNat = _
            rw [filter_snoc, if_neg (by simp [hbss]), hheader]
            exact h.uninitData
      next hdata =>
        split at hconvert
        next hbss =>
          -- The sizes of the sections add up, whatever becomes of the address.
          have hsum : ∀ segment : Segment, segment.size = c.noffH.uninitData.size + s.size →
              Converted coff (seen ++ [s]) (c.withUninitData segment) := by
            intro segment hsegment
            have hpart := totalSize_filter_le (fun s => decide (s.size ≠ 0 ∧ s.isBss)) seen
            have huninit := h.uninitData
            refine ⟨h.magic, h.inNoffFile, ?_, ?_, ?_, ?_⟩
            · change c.written.length ≤ totalSize (seen ++ [s])
              omega
            · rw [filter_snoc, if_neg (by simp [htext])]
              exact h.code
            · rw [filter_snoc, if_neg (by simp [hdata])]
              exact h.initData
            · change segment.size.toNat = _
              rw [filter_snoc, if_pos (decide_eq_true ⟨hsize, hbss⟩), totalSize_append, totalSize_singleton, hsegment,
                BitVec.toNat_add, Nat.mod_eq_of_lt (by omega), huninit]
          simp only at hconvert
          split at hconvert
          · split at hconvert
            · cases hconvert
            · cases hconvert
              exact hsum _ rfl
          next hzero =>
            cases hconvert
            refine hsum _ ?_
            rw [not_not.mp hzero]
            exact (BitVec.zero_add _).symm
        · cases hconvert

/-- The whole loop. -/
theorem Converted.loop {rest : List SectionHeader} (h : Converted coff seen c)
    (hpositive : ∀ s ∈ rest, s.size ≠ 0 → 0 < s.size.toInt)
    (hroom : totalSize seen + totalSize rest + NoffHeader.bytes < 2 ^ 32)
    (hconvert : Conversion.convertSections coff rest c = some c') : Converted coff (seen ++ rest) c' := by
  induction rest generalizing seen c with
  | nil =>
      cases hconvert
      rw [List.append_nil]
      exact h
  | cons s rest ih =>
      have htotal := totalSize_cons s rest
      obtain ⟨next, hsection, hrest⟩ := Option.bind_eq_some_iff.mp hconvert
      have hstep := h.step (hpositive s List.mem_cons_self) (by omega) hsection
      rw [List.append_cons]
      refine ih hstep (fun s hs => hpositive s (List.mem_cons_of_mem _ hs)) ?_ hrest
      rw [totalSize_append, totalSize_singleton]
      omega

theorem converted_start (garbage : NoffHeader) (numsections : Nat) :
    Converted coff [] (.start garbage numsections) := ⟨rfl, rfl, Nat.le_refl _, rfl, rfl, rfl⟩

end Converter

section Loading

variable {coff written : List Byte} {segment : Segment} {s : SectionHeader}

theorem readFileAt_content {before bytes behind : List Byte} (header : NoffHeader) {position : Nat}
    (hposition : position = NoffHeader.bytes + before.length) :
    readFileAt (header.encode ++ (before ++ (bytes ++ behind))) bytes.length position = bytes := by
  have hlength : (header.encode ++ before).length = position := by
    rw [List.length_append, header.length_encode, hposition]
  unfold readFileAt
  rw [← List.append_assoc, List.drop_left' hlength, List.take_left' rfl]

/-- The loader puts a segment where the section belongs. -/
theorem loadSegment_stored (h : Stored coff written segment s) (hpos : 0 < s.size.toInt)
    (hend : s.paddr.toNat + s.size.toNat < 2 ^ 31) (hwritten : NoffHeader.bytes + written.length < 2 ^ 31)
    (header : NoffHeader) (memory : HostMemory) :
    ∃ memory', loadSegment (header.encode ++ written) segment memory = some memory' ∧
      (∀ v : Nat, s.paddr.toNat ≤ v → v < s.paddr.toNat + s.size.toNat → 0 ≤ s.scnptr.toInt →
        coff[s.scnptr.toNat + (v - s.paddr.toNat)]? = some (memory' v)) ∧
      ∀ v : Nat, v < s.paddr.toNat ∨ s.paddr.toNat + s.size.toNat ≤ v → memory' v = memory v := by
  obtain ⟨before, bytes, behind, hsplit, hlength, hoffset, hcontent⟩ := h.content
  have hsmall : segment.inFileAddr.toInt = segment.inFileAddr.toNat := by
    apply BitVec.toInt_eq_toNat_of_lt
    rw [hsplit, List.length_append] at hwritten
    omega
  have hpaddr : s.paddr.toInt = s.paddr.toNat := by
    apply BitVec.toInt_eq_toNat_of_lt
    omega
  have hread : readFileAt (header.encode ++ written) s.size.toNat segment.inFileAddr.toNat = bytes := by
    rw [hsplit, ← hlength]
    exact readFileAt_content header hoffset
  unfold loadSegment
  rw [h.size, h.virtualAddr, if_pos hpos, if_pos (by omega)]
  refine ⟨_, rfl, ?_, ?_⟩
  · intro v hle hlt hptr
    have hindex : (v - s.paddr.toNat : Int).toNat = v - s.paddr.toNat := by omega
    have hinside : v - s.paddr.toNat < bytes.length := by omega
    simp only [hread, hpaddr]
    rw [if_pos (by omega), hindex, List.getElem?_eq_getElem hinside, Option.getD_some]
    rw [← List.getElem?_eq_getElem hinside, hcontent hptr, List.getElem?_take, if_pos (by omega), List.getElem?_drop]
  · intro v hout
    simp only [hread, hpaddr]
    split
    · have hindex : (v - s.paddr.toNat : Int).toNat = v - s.paddr.toNat := by omega
      rw [hindex, List.getElem?_eq_none (by omega), Option.getD_none]
    · rfl

/-- The same for a segment that holds one section or none. -/
theorem loadSegment_holds {l : List SectionHeader} (h : Holds coff written segment l) (hone : l.length ≤ 1)
    (hbounds : ∀ s ∈ l, 0 < s.size.toInt ∧ s.paddr.toNat + s.size.toNat < 2 ^ 31)
    (hwritten : NoffHeader.bytes + written.length < 2 ^ 31) (header : NoffHeader) (memory : HostMemory) :
    ∃ memory', loadSegment (header.encode ++ written) segment memory = some memory' ∧
      (∀ s ∈ l, ∀ v : Nat, s.paddr.toNat ≤ v → v < s.paddr.toNat + s.size.toNat → 0 ≤ s.scnptr.toInt →
        coff[s.scnptr.toNat + (v - s.paddr.toNat)]? = some (memory' v)) ∧
      ∀ v : Nat, (∀ s ∈ l, v < s.paddr.toNat ∨ s.paddr.toNat + s.size.toNat ≤ v) → memory' v = memory v := by
  cases l with
  | nil =>
      have hzero : segment.size = 0 := h
      refine ⟨memory, ?_, nofun, fun _ _ => rfl⟩
      unfold loadSegment
      rw [hzero, if_neg (by decide)]
  | cons s rest =>
      obtain rfl : rest = [] := List.eq_nil_of_length_eq_zero (by rw [List.length_cons] at hone; omega)
      obtain ⟨hpos, hend⟩ := hbounds s List.mem_cons_self
      obtain ⟨memory', hload, hinside, houtside⟩ := loadSegment_stored h hpos hend hwritten header memory
      refine ⟨memory', hload, ?_, fun v hv => houtside v (hv s List.mem_cons_self)⟩
      intro s' hs'
      rw [List.mem_singleton.mp hs']
      exact hinside

/-- The size of a segment that holds one section or none. -/
theorem Holds.size {l : List SectionHeader} (h : Holds coff written segment l) (hone : l.length ≤ 1) :
    segment.size.toNat = totalSize l := by
  cases l with
  | nil =>
      have hzero : segment.size = 0 := h
      rw [hzero]
      rfl
  | cons s rest =>
      obtain rfl : rest = [] := List.eq_nil_of_length_eq_zero (by rw [List.length_cons] at hone; omega)
      have hstored : Stored coff written segment s := h
      rw [hstored.size, totalSize_singleton]

variable {sections text data bss : List SectionHeader}

theorem totalSize_nonempty (l : List SectionHeader) : totalSize (l.filter fun s => s.size ≠ 0) = totalSize l := by
  induction l with
  | nil => rfl
  | cons s rest ih =>
      rw [List.filter_cons, totalSize_cons]
      split
      · rw [totalSize_cons, ih]
      next hempty =>
        have hzero : s.size = 0 := by simpa using hempty
        rw [ih, hzero]
        exact (Nat.zero_add _).symm

theorem Linked.totalSize_eq (h : Linked sections text data bss) :
    totalSize sections = totalSize text + totalSize data + totalSize bss := by
  have hperm : totalSize (sections.filter fun s => s.size ≠ 0) = totalSize (text ++ (data ++ bss)) :=
    (h.perm.map _).sum_nat
  rw [totalSize_nonempty, totalSize_append, totalSize_append] at hperm
  omega

/-- The sections of a kind, if there is one at most of the kind. -/
theorem Linked.kind (h : Linked sections text data bss) {kind : SectionHeader → Bool} {l : List SectionHeader}
    (hfilter : (text ++ (data ++ bss)).filter kind = l) (hone : l.length ≤ 1) :
    (sections.filter fun s => s.size ≠ 0 ∧ kind s) = l := by
  have hperm : ((sections.filter fun s => s.size ≠ 0).filter kind).Perm l := hfilter ▸ h.perm.filter kind
  rw [List.filter_filter] at hperm
  have hsame : (sections.filter fun s => kind s && decide (s.size ≠ 0)) =
      sections.filter fun s => s.size ≠ 0 ∧ kind s := by
    apply List.filter_congr
    intro s _
    simp [Bool.and_comm]
  rw [hsame] at hperm
  cases l with
  | nil => exact hperm.eq_nil
  | cons s rest =>
      obtain rfl : rest = [] := List.eq_nil_of_length_eq_zero (by rw [List.length_cons] at hone; omega)
      exact List.perm_singleton.mp hperm

/-- The sections of a linked file, by the places that they take. -/
theorem Linked.bounds (h : Linked sections text data bss) :
    (∀ s ∈ text, 0 < s.size.toInt ∧ s.paddr.toNat + s.size.toNat ≤ totalSize text) ∧
      (∀ s ∈ data, 0 < s.size.toInt ∧ totalSize text ≤ s.paddr.toNat ∧
        s.paddr.toNat + s.size.toNat ≤ totalSize text + totalSize data) ∧
      ∀ s ∈ bss, 0 < s.size.toInt ∧ totalSize text + totalSize data ≤ s.paddr.toNat ∧
        s.paddr.toNat + s.size.toNat ≤ totalSize sections := by
  obtain ⟨htext, hrest⟩ := consecutive_append.mp h.consecutive
  obtain ⟨hdata, hbss⟩ := consecutive_append.mp hrest
  rw [Nat.zero_add] at hdata hbss
  have htotal := h.totalSize_eq
  refine ⟨?_, fun s hs => hdata.bounds hs, ?_⟩
  · intro s hs
    obtain ⟨hpos, -, hend⟩ := htext.bounds hs
    exact ⟨hpos, by omega⟩
  · intro s hs
    obtain ⟨hpos, hle, hend⟩ := hbss.bounds hs
    exact ⟨hpos, hle, by omega⟩

theorem Linked.mem (h : Linked sections text data bss) (hs : s ∈ sections) (hsize : s.size ≠ 0) :
    s ∈ text ∨ s ∈ data ∨ s ∈ bss := by
  have hmem : s ∈ text ++ (data ++ bss) :=
    h.perm.mem_iff.mp (List.mem_filter.mpr ⟨hs, decide_eq_true hsize⟩)
  simpa [List.mem_append] using hmem

theorem Linked.positive (h : Linked sections text data bss) (hs : s ∈ sections) (hsize : s.size ≠ 0) :
    0 < s.size.toInt := by
  obtain ⟨htext, hdata, hbss⟩ := h.bounds
  rcases h.mem hs hsize with hs | hs | hs
  · exact (htext s hs).1
  · exact (hdata s hs).1
  · exact (hbss s hs).1

theorem filter_all {p : SectionHeader → Bool} {l : List SectionHeader} (h : ∀ s ∈ l, p s = true) : l.filter p = l :=
  List.filter_eq_self.mpr h

theorem filter_none {p : SectionHeader → Bool} {l : List SectionHeader} (h : ∀ s ∈ l, p s = false) :
    l.filter p = [] := by
  apply List.filter_eq_nil_iff.mpr
  intro s hs hp
  rw [h s hs] at hp
  cases hp

/-- The segments of the output, for a linked file. -/
theorem Linked.segments (h : Linked sections text data bss) {c : Conversion} (hconverted : Converted coff sections c) :
    Holds coff c.written c.noffH.code text ∧ Holds coff c.written c.noffH.initData data ∧
      c.noffH.uninitData.size.toNat = totalSize bss := by
  have hdataText : ∀ s ∈ data, s.isText = false := by
    intro s hs
    rw [Bool.eq_false_iff]
    intro htext
    have hdata := h.isData s hs
    rw [isData_of_isText htext] at hdata
    cases hdata
  have hbssText : ∀ s ∈ bss, s.isText = false ∧ s.isData = false := by
    intro s hs
    have hbss := h.isBss s hs
    constructor
    · rw [Bool.eq_false_iff]
      intro htext
      rw [isBss_of_isText htext] at hbss
      cases hbss
    · rw [Bool.eq_false_iff]
      intro hdata
      rw [isBss_of_isData hdata] at hbss
      cases hbss
  refine ⟨?_, ?_, ?_⟩
  · have hcode := hconverted.code
    rw [h.kind ?_ h.oneText] at hcode
    · exact hcode
    · rw [List.filter_append, List.filter_append, filter_all h.isText, filter_none hdataText,
        filter_none fun s hs => (hbssText s hs).1]
      exact List.append_nil text
  · have hdata := hconverted.initData
    rw [h.kind ?_ h.oneData] at hdata
    · exact hdata
    · rw [List.filter_append, List.filter_append, filter_none fun s hs => isData_of_isText (h.isText s hs),
        filter_all h.isData, filter_none fun s hs => (hbssText s hs).2]
      exact List.append_nil data
  · -- There may be several sections of this kind; their sizes do not depend on the order.
    have hperm := h.perm.filter SectionHeader.isBss
    rw [List.filter_append, List.filter_append, filter_none fun s hs => isBss_of_isText (h.isText s hs),
      filter_none fun s hs => isBss_of_isData (h.isData s hs), filter_all h.isBss, List.filter_filter] at hperm
    have hsum : totalSize (sections.filter fun s => s.isBss && decide (s.size ≠ 0)) = totalSize bss :=
      (hperm.map _).sum_nat
    rw [hconverted.uninitData, ← hsum]
    congr 1
    apply List.filter_congr
    intro s _
    simp [Bool.and_comm]

/-- The loader finds the header that the converter has written. -/
theorem decode_output (header : NoffHeader) (written : List Byte) (stack : Image Byte) :
    NoffHeader.decode (Image.store stack 0 (readFileAt (header.encode ++ written) NoffHeader.bytes 0)) = header := by
  apply NoffHeader.decode_encode
  intro k hk
  have hread : readFileAt (header.encode ++ written) NoffHeader.bytes 0 = header.encode := by
    unfold readFileAt
    rw [List.drop_zero, List.take_left' header.length_encode]
  have hlength := header.length_encode
  unfold Image.store
  rw [hread, if_pos (Nat.zero_le k), Nat.sub_zero, List.getElem?_eq_getElem (by omega), Option.getD_some]

/-- The byte of a section at a virtual address; in an uninitialised section it is zero. -/
def SectionHeader.byteAt (s : SectionHeader) (coff : List Byte) (v : Nat) : Option Byte :=
  if s.isBss then some 0
  else if 0 ≤ s.scnptr.toInt then coff[s.scnptr.toNat + (v - s.paddr.toNat)]?
  else none

/-- Behind the sections there is room for the stacks, however many pages the loader takes. -/
theorem loadProgram_eq (h : Linked sections text data bss) {c : Conversion} (hconverted : Converted coff sections c)
    (hfits : totalSize sections + userStacksAreaSize ≤ numPhysPages * pageSize) (stack : Image Byte)
    (memory : HostMemory) :
    loadProgram stack (c.noffH.encode ++ c.written) memory =
        (loadSegment (c.noffH.encode ++ c.written) c.noffH.code memory).bind (fun memory =>
          (loadSegment (c.noffH.encode ++ c.written) c.noffH.initData memory).map fun memory =>
            ⟨divRoundUp (totalSize sections + userStacksAreaSize) pageSize, memory⟩) ∧
      divRoundUp (totalSize sections + userStacksAreaSize) pageSize ≤ numPhysPages := by
  obtain ⟨hcode, hdata, hbss⟩ := h.segments hconverted
  have hcodeSize := hcode.size h.oneText
  have hdataSize := hdata.size h.oneData
  have htotal := h.totalSize_eq
  have hpages : divRoundUp (totalSize sections + userStacksAreaSize) pageSize ≤ numPhysPages := by
    unfold divRoundUp pageSize numPhysPages at *
    split <;> omega
  have hsize : (c.noffH.code.size + c.noffH.initData.size + c.noffH.uninitData.size +
      BitVec.ofNat 32 userStacksAreaSize).toNat = totalSize sections + userStacksAreaSize := by
    unfold userStacksAreaSize numPhysPages pageSize at *
    rw [BitVec.toNat_add, BitVec.toNat_add, BitVec.toNat_add, BitVec.toNat_ofNat]
    omega
  refine ⟨?_, hpages⟩
  unfold loadProgram
  simp only [decode_output, hsize]
  rw [if_neg (not_not.mpr hconverted.magic), if_neg (Nat.not_lt.mpr hpages)]

/-- A linked program that fits is loaded with its sections in their places and the stacks behind them. -/
theorem program_loads {garbage : NoffHeader} {noff : List Byte} (stack : Image Byte)
    (hsections : readSectionHeaders coff = some sections) (hnoff : coff2noff garbage coff = some noff)
    (hlinked : Linked sections text data bss)
    (hfits : totalSize sections + userStacksAreaSize ≤ numPhysPages * pageSize) :
    ∃ loaded, loadProgram stack noff (fun _ => 0) = some loaded ∧
      ∀ s ∈ sections, s.size ≠ 0 →
        s.paddr.toNat + s.size.toNat ≤ loaded.numPages * pageSize - userStacksAreaSize ∧
        ∀ v, pageSize ≤ v → s.paddr.toNat ≤ v → v < s.paddr.toNat + s.size.toNat →
          (∃ t, (pageTableOf loaded.numPages).translate (BitVec.ofNat 32 v) .byte false =
            .ok (BitVec.ofNat 32 v, t)) ∧
          (s.isBss ∨ 0 ≤ s.scnptr.toInt → s.byteAt coff v = some (loaded.memory v)) := by
  unfold coff2noff at hnoff
  rw [hsections, Option.bind_some] at hnoff
  obtain ⟨c, hconvert, rfl⟩ := Option.map_eq_some_iff.mp hnoff
  have hsmall : totalSize sections + userStacksAreaSize ≤ 4096 * 128 := hfits
  have hstart : totalSize [] + totalSize sections + NoffHeader.bytes < 2 ^ 32 := by
    have hnil : totalSize [] = 0 := rfl
    unfold NoffHeader.bytes
    omega
  have hconverted : Converted coff sections c :=
    (converted_start garbage sections.length).loop (fun s hs hsize => hlinked.positive hs hsize) hstart hconvert
  obtain ⟨hcode, hdata, -⟩ := hlinked.segments hconverted
  obtain ⟨htextBounds, hdataBounds, hbssBounds⟩ := hlinked.bounds
  have htotal := hlinked.totalSize_eq
  have hlength : NoffHeader.bytes + c.written.length < 2 ^ 31 := by
    have hwritten := hconverted.written
    unfold NoffHeader.bytes
    omega
  obtain ⟨hload, hpages⟩ := loadProgram_eq hlinked hconverted hfits stack fun _ => 0
  obtain ⟨afterCode, hloadCode, hinCode, houtCode⟩ := loadSegment_holds hcode hlinked.oneText
    (fun s hs => ⟨(htextBounds s hs).1, by have := (htextBounds s hs).2; omega⟩) hlength c.noffH fun _ => 0
  obtain ⟨afterData, hloadData, hinData, houtData⟩ := loadSegment_holds hdata hlinked.oneData
    (fun s hs => ⟨(hdataBounds s hs).1, by have := (hdataBounds s hs).2.2; omega⟩) hlength c.noffH afterCode
  rw [hloadCode, Option.bind_some, hloadData, Option.map_some] at hload
  refine ⟨_, hload, ?_⟩
  intro s hs hsize
  have hroom := le_divRoundUp_mul (totalSize sections + userStacksAreaSize) (show 0 < pageSize by decide)
  have hend : s.paddr.toNat + s.size.toNat ≤ totalSize sections := by
    rcases hlinked.mem hs hsize with hs | hs | hs
    · have := (htextBounds s hs).2
      omega
    · have := (hdataBounds s hs).2.2
      omega
    · exact (hbssBounds s hs).2.2
  refine ⟨Nat.le_sub_of_add_le (Nat.le_trans (Nat.add_le_add_right hend _) hroom), fun v hpage hle hlt => ⟨?_, ?_⟩⟩
  · exact translate_pageTableOf hpages hpage (Nat.lt_of_lt_of_le (by omega) hroom)
  · intro hbyte
    unfold SectionHeader.byteAt
    rcases hlinked.mem hs hsize with hs | hs | hs
    · -- The data segment is loaded later and lies behind.
      have hnotBss := isBss_of_isText (hlinked.isText s hs)
      rw [hnotBss, if_neg Bool.false_ne_true]
      have hptr := hbyte.resolve_left (by rw [hnotBss]; exact Bool.false_ne_true)
      rw [if_pos hptr, hinCode s hs v hle hlt hptr]
      refine congrArg some (houtData v fun d hd => ?_).symm
      have htextEnd := (htextBounds s hs).2
      have hdataStart := (hdataBounds d hd).2.1
      omega
    · have hnotBss := isBss_of_isData (hlinked.isData s hs)
      rw [hnotBss, if_neg Bool.false_ne_true]
      have hptr := hbyte.resolve_left (by rw [hnotBss]; exact Bool.false_ne_true)
      rw [if_pos hptr, hinData s hs v hle hlt hptr]
    · rw [if_pos (hlinked.isBss s hs)]
      have hbssStart := (hbssBounds s hs).2.1
      refine congrArg some ?_
      calc (0 : Byte)
          = afterCode v := (houtCode v fun d hd => by have := (htextBounds d hd).2; omega).symm
        _ = afterData v := (houtData v fun d hd => by have := (hdataBounds d hd).2.2; omega).symm

/-- A program of two pages, of which the table names the uninitialised section first. -/
def sampleCoff : List Byte :=
  [0x62, 0x01, 2, 0] ++ List.replicate 16 0 ++ ([0x07, 0x01] ++ List.replicate 54 0) ++
    ([46, 98, 115, 115, 0, 0, 0, 0] ++ [132, 0, 0, 0] ++ [132, 0, 0, 0] ++ [4, 0, 0, 0] ++ List.replicate 20 0) ++
    ([46, 116, 101, 120, 116, 0, 0, 0] ++ [0, 0, 0, 0] ++ [0, 0, 0, 0] ++ [132, 0, 0, 0] ++ [156, 0, 0, 0] ++
      List.replicate 16 0) ++
    (List.replicate 128 0 ++ [1, 2, 3, 4])

theorem program_loads_sample : ∃ noff loaded, coff2noff ⟨0, ⟨9, 9, 9⟩, ⟨9, 9, 9⟩, ⟨9, 9, 9⟩⟩ sampleCoff = some noff ∧
    loadProgram (fun _ => 9) noff (fun _ => 0) = some loaded ∧ loaded.memory 131 = 4 ∧ loaded.memory 132 = 0 := by
  let bss : SectionHeader := ⟨[46, 98, 115, 115, 0, 0, 0, 0], 132, 4, 0⟩
  let text : SectionHeader := ⟨[46, 116, 101, 120, 116, 0, 0, 0], 0, 132, 156⟩
  obtain ⟨noff, hnoff⟩ : ∃ noff, coff2noff ⟨0, ⟨9, 9, 9⟩, ⟨9, 9, 9⟩, ⟨9, 9, 9⟩⟩ sampleCoff = some noff :=
    Option.isSome_iff_exists.mp (by decide +kernel)
  have hlinked : Linked [bss, text] [text] [] [bss] :=
    ⟨by decide, ⟨rfl, by decide, rfl, by decide, trivial⟩, by decide, by decide, by decide, by decide, by decide⟩
  obtain ⟨loaded, hload, hbytes⟩ :=
    program_loads (fun _ => 9) (show readSectionHeaders sampleCoff = some [bss, text] by decide +kernel) hnoff hlinked
      (by decide)
  have htext := ((hbytes text (by decide) (by decide)).2 131 (by decide) (by decide) (by decide)).2 (by decide)
  have hbss := ((hbytes bss (by decide) (by decide)).2 132 (by decide) (by decide) (by decide)).2 (by decide)
  refine ⟨noff, loaded, hnoff, hload, ?_, ?_⟩
  · exact (Option.some.inj ((show text.byteAt sampleCoff 131 = some 4 by decide +kernel).symm.trans htext)).symm
  · exact (Option.some.inj ((show bss.byteAt sampleCoff 132 = some 0 by decide +kernel).symm.trans hbss)).symm

end Loading

end Nachos

import Mathlib.Data.List.Nodup
import Nachos.FileHeader

/-! Open files, `filesys/openfile.cc`. Every request goes through whole sectors, so that a write reads the
first and the last sector first when it changes only a part of them. A file is what its header shows of
the disk: reads return a part of it, and writes overwrite a part of it and nothing else. -/

namespace Nachos

structure OpenFile where
  hdr : FileHeader
  seekPosition : Int

namespace OpenFile

/-- `OpenFile::OpenFile`. -/
def new (d : Disk) (sector : Int) : Option OpenFile :=
  (FileHeader.fetchFrom d sector).map fun hdr => ⟨hdr, 0⟩

/-- The loop of `OpenFile::ReadAt` from sector `i` of the file on: what it adds to `buf`. -/
def readSectors (f : OpenFile) (d : Disk) (i : Nat) : Nat → Option (List Byte)
  | 0 => some []
  | left + 1 => do
      let sector ← f.hdr.byteToSector (i * sectorSize)
      let data ← d.readSector sector
      let rest ← f.readSectors d (i + 1) left
      some (data ++ rest)

/-- `OpenFile::ReadAt`: the bytes copied to `into`. -/
def readAt (f : OpenFile) (d : Disk) (numBytes position : Int) : Option (List Byte) :=
  let fileLength := f.hdr.fileLength
  if numBytes ≤ 0 ∨ position ≥ fileLength then some []
  else
    let numBytes := if position + numBytes > fileLength then fileLength - position else numBytes
    -- the source would copy from before `buf`
    if position < 0 then none
    else
      let firstSector := position.toNat / sectorSize
      let lastSector := (position + numBytes - 1).toNat / sectorSize
      let numSectors := 1 + lastSector - firstSector
      (f.readSectors d firstSector numSectors).map fun buf =>
        (buf.drop (position.toNat - firstSector * sectorSize)).take numBytes.toNat

/-- The loop of `OpenFile::WriteAt` from sector `i` of the file on. -/
def writeSectors (f : OpenFile) (buf : Image Byte) (firstSector : Nat) (d : Disk) (i : Nat) : Nat → Option Disk
  | 0 => some d
  | left + 1 => do
      let sector ← f.hdr.byteToSector (i * sectorSize)
      let d ← d.writeSector sector fun k => buf ((i - firstSector) * sectorSize + k)
      f.writeSectors buf firstSector d (i + 1) left

/-- `OpenFile::WriteAt`. The memory of the new buffer holds `garbage`. -/
def writeAt (f : OpenFile) (d : Disk) (garbage data : Image Byte) (numBytes position : Int) :
    Option (Int × Disk) :=
  let fileLength := f.hdr.fileLength
  if numBytes ≤ 0 ∨ position ≥ fileLength then some (0, d)
  else
    let numBytes := if position + numBytes > fileLength then fileLength - position else numBytes
    -- the source would copy to before `buf`
    if position < 0 then none
    else do
      let firstSector := position.toNat / sectorSize
      let lastSector := (position + numBytes - 1).toNat / sectorSize
      let numSectors := 1 + lastSector - firstSector
      let firstAligned := position == firstSector * sectorSize
      let lastAligned := position + numBytes == (lastSector + 1) * sectorSize
      let buf ←
        if !firstAligned then
          (f.readAt d sectorSize ↑(firstSector * sectorSize)).map (Image.store garbage 0)
        else some garbage
      let buf ←
        if !lastAligned && (firstSector != lastSector || firstAligned) then
          (f.readAt d sectorSize ↑(lastSector * sectorSize)).map
            (Image.store buf ((lastSector - firstSector) * sectorSize))
        else some buf
      let buf := Image.store buf (position.toNat - firstSector * sectorSize) (Image.load data 0 numBytes.toNat)
      let d ← f.writeSectors buf firstSector d firstSector numSectors
      some (numBytes, d)

/-- `OpenFile::Seek`. -/
def seek (f : OpenFile) (position : Int) : OpenFile := { f with seekPosition := position }

/-- `OpenFile::Read`. -/
def read (f : OpenFile) (d : Disk) (numBytes : Int) : Option (List Byte × OpenFile) :=
  (f.readAt d numBytes f.seekPosition).map fun result =>
    (result, { f with seekPosition := f.seekPosition + result.length })

/-- `OpenFile::Write`. -/
def write (f : OpenFile) (d : Disk) (garbage data : Image Byte) (numBytes : Int) :
    Option (Int × OpenFile × Disk) :=
  (f.writeAt d garbage data numBytes f.seekPosition).map fun (result, d) =>
    (result, { f with seekPosition := f.seekPosition + result }, d)

/-- `OpenFile::Length`. -/
def length (f : OpenFile) : Int := f.hdr.fileLength

variable {f : OpenFile} {d : Disk}

theorem readSectors_eq (h : f.hdr.WellFormed) (left i : Nat) (hi : i + left ≤ f.hdr.sectors.length) :
    f.readSectors d i left = some (Image.load (f.hdr.image d) (sectorSize * i) (sectorSize * left)) := by
  induction left generalizing i with
  | zero => rfl
  | succ left ih =>
      have hlt : i < f.hdr.sectors.length := by omega
      obtain ⟨hsector, hnum⟩ := FileHeader.byteToSector_eq h hlt
      have hhead : Image.load d (sectorSize * f.hdr.sectors[i]) sectorSize =
          Image.load (f.hdr.image d) (sectorSize * i) sectorSize := by
        apply Image.load_congr
        intro k hk
        exact (FileHeader.image_eq d hlt hk).symm
      rw [readSectors, hsector, ih (i + 1) (by omega)]
      simp only [Option.bind_eq_bind, Option.bind_some, d.readSector_eq hnum]
      rw [hhead, Nat.mul_add sectorSize left 1, Nat.mul_one, Nat.add_comm _ sectorSize, Image.load_add,
        Nat.mul_add sectorSize i 1, Nat.mul_one]

/-- The number of bytes of a request that lie in the file. -/
theorem clipped {numBytes : Int} {position length : Nat} (h : ¬(numBytes ≤ 0 ∨ (position : Int) ≥ length)) :
    (if (position : Int) + numBytes > length then (length : Int) - position else numBytes) =
      ((min numBytes.toNat (length - position) : Nat) : Int) := by
  split_ifs <;> omega

/-- A read returns the part of the file that there is. -/
theorem readAt_eq (h : f.hdr.WellFormed) (numBytes : Int) (position : Nat) :
    f.readAt d numBytes position =
      some (Image.load (f.hdr.image d) position (min numBytes.toNat (f.hdr.numBytes.toNat - position))) := by
  unfold readAt
  rw [FileHeader.fileLength_eq h]
  by_cases hnone : numBytes ≤ 0 ∨ (position : Int) ≥ f.hdr.numBytes.toNat
  · have hmin : min numBytes.toNat (f.hdr.numBytes.toNat - position) = 0 := by omega
    rw [if_pos hnone, hmin]
    rfl
  rw [if_neg hnone]
  simp only [clipped hnone]
  have hpos : 0 < min numBytes.toNat (f.hdr.numBytes.toNat - position) := by omega
  have hle : position + min numBytes.toNat (f.hdr.numBytes.toNat - position) ≤ f.hdr.numBytes.toNat := by omega
  generalize min numBytes.toNat (f.hdr.numBytes.toNat - position) = n at *
  have hlast : (↑position + (n : Int) - 1).toNat = position + n - 1 := by omega
  rw [if_neg (by omega), Int.toNat_natCast, Int.toNat_natCast, hlast]
  have hsectors := FileHeader.div_lt_length_sectors h (show position + n - 1 < f.hdr.numBytes.toNat by omega)
  have hcount : position / sectorSize ≤ (position + n - 1) / sectorSize :=
    Nat.div_le_div_right (by omega)
  rw [readSectors_eq h _ _ (by omega), Option.map_some]
  unfold sectorSize at *
  rw [Image.drop_load (by omega), Image.take_load (by omega)]
  congr 2
  omega

theorem image_withSector (h : f.hdr.WellFormed) {i : Nat} (hi : i < f.hdr.sectors.length) (data : Image Byte)
    {k : Nat} (hk : k / sectorSize < f.hdr.sectors.length) :
    f.hdr.image (d.withSector f.hdr.sectors[i] data) k =
      if k / sectorSize = i then data (k % sectorSize) else f.hdr.image d k := by
  have hmod : k % sectorSize < sectorSize := Nat.mod_lt k (by decide)
  have hinj : f.hdr.sectors[k / sectorSize] = f.hdr.sectors[i] ↔ k / sectorSize = i := 
    List.Nodup.getElem_inj_iff h.nodup
  have himage := FileHeader.image_eq d hk hmod
  have himage' := FileHeader.image_eq (d.withSector f.hdr.sectors[i] data) hk hmod
  rw [Nat.div_add_mod] at himage himage'
  rw [himage, himage', Disk.withSector_apply _ _ _ _ hmod]
  simp only [hinj]

theorem writeSectors_spec (h : f.hdr.WellFormed) (buf : Image Byte) (firstSector left : Nat) :
    ∀ (d : Disk) (i : Nat), i + left ≤ f.hdr.sectors.length → firstSector ≤ i →
    ∃ d', f.writeSectors buf firstSector d i left = some d' ∧
      (∀ k, k / sectorSize < f.hdr.sectors.length → f.hdr.image d' k =
        if i ≤ k / sectorSize ∧ k / sectorSize < i + left then buf (k - sectorSize * firstSector)
        else f.hdr.image d k) ∧
      ∀ s, s ∉ f.hdr.sectors → Disk.SameSector d d' s := by
  induction left with
  | zero =>
      intro d i _ _
      refine ⟨d, rfl, ?_, fun _ _ _ _ => rfl⟩
      intro k _
      rw [if_neg (by omega)]
  | succ left ih =>
      intro d i hi hfirst
      have hlt : i < f.hdr.sectors.length := by omega
      obtain ⟨hsector, hnum⟩ := FileHeader.byteToSector_eq h hlt
      obtain ⟨d', heq, himage, hsame⟩ := ih
        (d.withSector f.hdr.sectors[i] fun k => buf ((i - firstSector) * sectorSize + k)) (i + 1)
        (by omega) (by omega)
      refine ⟨d', ?_, ?_, ?_⟩
      · rw [writeSectors, hsector]
        simp only [Option.bind_eq_bind, Option.bind_some, d.writeSector_eq hnum]
        exact heq
      · intro k hk
        rw [himage k hk, image_withSector h hlt _ hk]
        rcases Nat.lt_trichotomy (k / sectorSize) i with hlt | heq | hgt
        · rw [if_neg (by omega), if_neg (by omega), if_neg (by omega)]
        · have hoffset : (i - firstSector) * sectorSize + k % sectorSize = k - sectorSize * firstSector := by
            unfold sectorSize at *
            omega
          rw [if_neg (by omega), if_pos heq, if_pos (by omega), hoffset]
        · by_cases hin : k / sectorSize < i + 1 + left
          · rw [if_pos (by omega), if_pos (by omega)]
          · rw [if_neg (by omega), if_neg (by omega), if_neg (by omega)]
      · intro s hs
        have hne : s ≠ f.hdr.sectors[i] := fun heq => hs (heq ▸ List.getElem_mem hlt)
        exact (d.sameSector_withSector _ hne).trans (hsame s hs)

/-- The bytes of the file from `position` on are `n` bytes of `data`, and no other byte of the file and no
sector of another file has changed. -/
structure Written (hdr : FileHeader) (d : Disk) (data : Image Byte) (position n : Nat) (d' : Disk) : Prop where
  image : ∀ k < hdr.numBytes.toNat, hdr.image d' k =
    if position ≤ k ∧ k < position + n then data (k - position) else hdr.image d k
  frame : ∀ s, s ∉ hdr.sectors → Disk.SameSector d d' s

/-- The buffer holds the bytes of the file around the request. -/
def Surrounds (hdr : FileHeader) (d : Disk) (position n : Nat) (buf : Image Byte) : Prop :=
  ∀ k < hdr.numBytes.toNat, position / sectorSize ≤ k / sectorSize →
    k / sectorSize ≤ (position + n - 1) / sectorSize → ¬(position ≤ k ∧ k < position + n) →
    buf (k - sectorSize * (position / sectorSize)) = hdr.image d k

/-- The bytes of the request are copied into such a buffer, and the loop writes it to the sectors. -/
theorem writeBuffer_spec (h : f.hdr.WellFormed) (d : Disk) (data : Image Byte) {buf : Image Byte}
    {position n : Nat} (hpos : 0 < n) (hle : position + n ≤ f.hdr.numBytes.toNat)
    (hbuf : Surrounds f.hdr d position n buf) :
    ∃ d', f.writeSectors
        (Image.store buf (position - position / sectorSize * sectorSize) (Image.load data 0 n))
        (position / sectorSize) d (position / sectorSize)
        (1 + (position + n - 1) / sectorSize - position / sectorSize) = some d' ∧
      Written f.hdr d data position n d' := by
  have hlast := FileHeader.div_lt_length_sectors h (show position + n - 1 < f.hdr.numBytes.toNat by omega)
  have hfirst : position / sectorSize ≤ (position + n - 1) / sectorSize := Nat.div_le_div_right (by omega)
  obtain ⟨d', heq, himage, hsame⟩ := writeSectors_spec h
    (Image.store buf (position - position / sectorSize * sectorSize) (Image.load data 0 n))
    (position / sectorSize) (1 + (position + n - 1) / sectorSize - position / sectorSize) d
    (position / sectorSize) (by omega) (Nat.le_refl _)
  refine ⟨d', heq, ?_, hsame⟩
  intro k hk
  rw [himage k (FileHeader.div_lt_length_sectors h hk), Image.store_load, Nat.zero_add]
  by_cases hin : position ≤ k ∧ k < position + n
  · have hdiv : position / sectorSize ≤ k / sectorSize := Nat.div_le_div_right hin.1
    have hdiv' : k / sectorSize ≤ (position + n - 1) / sectorSize := Nat.div_le_div_right (by omega)
    rw [if_pos (by omega), if_pos hin]
    unfold sectorSize at *
    rw [if_pos (by omega)]
    congr 1
    omega
  · rw [if_neg hin]
    by_cases hsector : position / sectorSize ≤ k / sectorSize ∧ k / sectorSize ≤ (position + n - 1) / sectorSize
    · rw [if_pos (by omega), if_neg ?_]
      · exact hbuf k hk hsector.1 hsector.2 hin
      · unfold sectorSize at *
        omega
    · rw [if_neg (by omega)]

/-- A write overwrites the part of the file that there is. The bytes of the first and of the last sector
around it are read back first. -/
theorem writeAt_spec (h : f.hdr.WellFormed) (d : Disk) (garbage data : Image Byte) (numBytes : Int)
    (position : Nat) :
    ∃ d', f.writeAt d garbage data numBytes position =
        some (↑(min numBytes.toNat (f.hdr.numBytes.toNat - position)), d') ∧
      Written f.hdr d data position (min numBytes.toNat (f.hdr.numBytes.toNat - position)) d' := by
  unfold writeAt
  rw [FileHeader.fileLength_eq h]
  by_cases hnone : numBytes ≤ 0 ∨ (position : Int) ≥ f.hdr.numBytes.toNat
  · have hmin : min numBytes.toNat (f.hdr.numBytes.toNat - position) = 0 := by omega
    rw [hmin]
    refine ⟨d, if_pos hnone, ?_, fun _ _ _ _ => rfl⟩
    intro k _
    rw [if_neg (by omega)]
  rw [if_neg hnone]
  simp only [clipped hnone]
  have hpos : 0 < min numBytes.toNat (f.hdr.numBytes.toNat - position) := by omega
  have hle : position + min numBytes.toNat (f.hdr.numBytes.toNat - position) ≤ f.hdr.numBytes.toNat := by omega
  generalize min numBytes.toNat (f.hdr.numBytes.toNat - position) = n at *
  have hlast : (↑position + (n : Int) - 1).toNat = position + n - 1 := by omega
  rw [if_neg (by omega), Int.toNat_natCast, Int.toNat_natCast, hlast]
  simp only [readAt_eq h, Option.map_some, Int.toNat_natCast]
  have hfinish : ∀ buf, Surrounds f.hdr d position n buf →
      ∃ d', (f.writeSectors
          (Image.store buf (position - position / sectorSize * sectorSize) (Image.load data 0 n))
          (position / sectorSize) d (position / sectorSize)
          (1 + (position + n - 1) / sectorSize - position / sectorSize)).bind
            (fun d => some ((n : Int), d)) = some (↑n, d') ∧ Written f.hdr d data position n d' := by
    intro buf hbuf
    obtain ⟨d', heq, hwritten⟩ := writeBuffer_spec h d data hpos hle hbuf
    exact ⟨d', by rw [heq]; rfl, hwritten⟩
  -- the request starts on a sector boundary or not, and its last sector is to be read or not
  split_ifs with hfirst hend hend <;>
    simp only [Option.bind_eq_bind, Option.bind_some] <;>
    apply hfinish <;>
    intro k hk hge hle hout <;>
    simp only [Bool.not_eq_eq_eq_not, Bool.not_true, Bool.and_eq_true, Bool.or_eq_true, bne_iff_ne,
      beq_eq_false_iff_ne, beq_iff_eq, ne_eq, sectorSize, not_and, not_or] at *
  · rw [Image.store_load, Image.store_load]
    split_ifs with hinLast hinFirst
    · congr 1
      omega
    · congr 1
      omega
    · omega
  · rw [Image.store_load]
    split_ifs with hinFirst
    · congr 1
      omega
    · omega
  · rw [Image.store_load]
    split_ifs with hinLast
    · congr 1
      omega
    · omega
  · omega

/-- A read, in terms of the contents of the file. -/
theorem readAt_contents (h : f.hdr.WellFormed) (d : Disk) (numBytes : Int) (position : Nat) :
    f.readAt d numBytes position = some (((f.hdr.contents d).drop position).take numBytes.toNat) := by
  rw [readAt_eq h]
  congr 1
  unfold FileHeader.contents
  rcases Nat.lt_or_ge position f.hdr.numBytes.toNat with hlt | hge
  · rw [Image.drop_load (by omega), Nat.zero_add]
    rcases Nat.le_total numBytes.toNat (f.hdr.numBytes.toNat - position) with hle | hle
    · rw [Nat.min_eq_left hle, Image.take_load hle]
    · rw [Nat.min_eq_right hle, List.take_of_length_le (by rw [Image.length_load]; exact hle)]
  · have hmin : min numBytes.toNat (f.hdr.numBytes.toNat - position) = 0 := by omega
    rw [hmin, List.drop_eq_nil_of_le (by rw [Image.length_load]; exact hge), List.take_nil]
    rfl

/-- A write, in terms of the contents of the file. -/
theorem Written.contents_eq {hdr : FileHeader} {d d' : Disk} {data : Image Byte} {position n : Nat}
    (h : Written hdr d data position n d') (hle : position + n ≤ hdr.numBytes.toNat) :
    hdr.contents d' =
      (hdr.contents d).take position ++ Image.load data 0 n ++ (hdr.contents d).drop (position + n) := by
  unfold FileHeader.contents
  have hsplit : hdr.numBytes.toNat = position + (n + (hdr.numBytes.toNat - (position + n))) := by omega
  rw [Image.take_load (by omega), Image.drop_load hle, Nat.zero_add, hsplit, Image.load_add, Image.load_add,
    ← hsplit, Nat.zero_add, List.append_assoc]
  congr 1
  · apply Image.load_congr
    intro k hk
    rw [Nat.zero_add, h.image k (by omega), if_neg (by omega)]
  congr 1
  · apply Image.load_congr
    intro k hk
    rw [h.image _ (by omega), if_pos (by omega)]
    congr 1
    omega
  · apply Image.load_congr
    intro k hk
    rw [h.image _ (by omega), if_neg (by omega)]

theorem read_contents (h : f.hdr.WellFormed) (d : Disk) (numBytes : Int) {position : Nat}
    (hposition : f.seekPosition = position) :
    f.read d numBytes = some (((f.hdr.contents d).drop position).take numBytes.toNat,
      { f with seekPosition :=
        ↑(position + (((f.hdr.contents d).drop position).take numBytes.toNat).length) }) := by
  unfold read
  rw [hposition, readAt_contents h, Option.map_some, Int.natCast_add]

theorem write_spec (h : f.hdr.WellFormed) (d : Disk) (garbage data : Image Byte) (numBytes : Int) {position : Nat}
    (hposition : f.seekPosition = position) :
    ∃ d', f.write d garbage data numBytes =
        some (↑(min numBytes.toNat (f.hdr.numBytes.toNat - position)),
          { f with seekPosition := ↑(position + min numBytes.toNat (f.hdr.numBytes.toNat - position)) }, d') ∧
      Written f.hdr d data position (min numBytes.toNat (f.hdr.numBytes.toNat - position)) d' := by
  obtain ⟨d', heq, hwritten⟩ := writeAt_spec h d garbage data numBytes position
  refine ⟨d', ?_, hwritten⟩
  unfold write
  rw [hposition, heq, Option.map_some, Int.natCast_add]

section Array

variable {α : Type} (layout : Layout Byte α)

/-- Reading an array from a file that is large enough, whatever the array holds before. -/
theorem readAt_array (h : f.hdr.WellFormed) (d : Disk) (old : Image Byte) {n : Nat}
    (hlen : n * layout.size ≤ f.hdr.numBytes.toNat) :
    (f.readAt d (n * layout.size) 0).map (fun bytes => layout.readArray (Image.store old 0 bytes) 0 n) =
      some (layout.readArray (f.hdr.image d) 0 n) := by
  have hread := readAt_eq (d := d) h (n * layout.size) 0
  rw [← Int.natCast_mul, Int.toNat_natCast, Nat.sub_zero, Nat.min_eq_left hlen] at hread
  have harray : layout.readArray (Image.store old 0 (Image.load (f.hdr.image d) 0 (n * layout.size))) 0 n =
      layout.readArray (f.hdr.image d) 0 n := by
    apply layout.readArray_congr
    intro k hk
    rw [Nat.mul_comm] at hk
    rw [Image.store_load, if_pos (by omega), Nat.sub_zero, Nat.zero_add]
  rw [← Int.natCast_mul]
  exact (congrArg (Option.map _) hread).trans (congrArg some harray)

/-- Writing an array to a file that is large enough. -/
theorem writeAt_array (h : f.hdr.WellFormed) (d : Disk) (garbage : Image Byte) (l : List α)
    (hlen : l.length * layout.size ≤ f.hdr.numBytes.toNat) :
    ∃ d', (f.writeAt d garbage (layout.arrayCells l) (l.length * layout.size) 0).map Prod.snd = some d' ∧
      layout.readArray (f.hdr.image d') 0 l.length = l ∧ ∀ s, s ∉ f.hdr.sectors → Disk.SameSector d d' s := by
  obtain ⟨d', heq, hwritten⟩ := writeAt_spec h d garbage (layout.arrayCells l) (l.length * layout.size) 0
  rw [← Int.natCast_mul, Int.toNat_natCast, Nat.sub_zero, Nat.min_eq_left hlen] at heq hwritten
  refine ⟨d', ?_, ?_, hwritten.frame⟩
  · rw [← Int.natCast_mul]
    exact congrArg (Option.map Prod.snd) heq
  · calc layout.readArray (f.hdr.image d') 0 l.length
        = layout.readArray (layout.arrayCells l) 0 l.length := by
          apply layout.readArray_congr
          intro k hk
          rw [Nat.mul_comm] at hk
          rw [hwritten.image _ (by omega), if_pos (by omega), Nat.sub_zero]
      _ = l := layout.readArray_arrayCells l

/-- An array in a file depends on the sectors of the file only. -/
theorem readArray_image_congr {hdr : FileHeader} (h : hdr.WellFormed) {d d' : Disk} {n : Nat}
    (hlen : hdr.numBytes.toNat = n * layout.size) (hsame : ∀ s ∈ hdr.sectors, Disk.SameSector d d' s) :
    layout.readArray (hdr.image d') 0 n = layout.readArray (hdr.image d) 0 n := by
  apply layout.readArray_congr
  intro k hk
  rw [Nat.mul_comm] at hk
  rw [Nat.zero_add]
  exact FileHeader.image_congr hsame (FileHeader.div_lt_length_sectors h (by omega))

end Array

end OpenFile

end Nachos

import Nachos.DiskProgram
import Nachos.FileSystemVolume

/-! The calls of the file system when the user aborts the machine, which he may do between any two writes of a call. The
sectors that were written stay. -/

namespace Nachos

namespace DiskProgram

open BlockProgram

variable {d d' : Disk} {f : OpenFile}

theorem readOnly_pure {α : Type} (a : α) : (pure a : DiskProgram α).ReadOnly := trivial

theorem readOnly_readSector (n : Int) : (readSector n).ReadOnly := fun _ => trivial

theorem readOnly_fetchHeader (n : Int) : (fetchHeader n).ReadOnly :=
  (readOnly_readSector n).bind fun _ => readOnly_pure _

theorem readOnly_newOpenFile (n : Int) : (newOpenFile n).ReadOnly :=
  (readOnly_fetchHeader n).bind fun _ => readOnly_pure _

theorem readOnly_readSectors (f : OpenFile) (left i : Nat) : (readSectors f i left).ReadOnly := by
  induction left generalizing i with
  | zero => trivial
  | succ left ih =>
      refine (readOnly_lift _).bind fun sector => ?_
      refine (readOnly_readSector sector).bind fun data => ?_
      exact (ih (i + 1)).bind fun rest => readOnly_pure _

theorem readOnly_readAt (f : OpenFile) (numBytes position : Int) : (readAt f numBytes position).ReadOnly := by
  unfold readAt
  simp only
  split
  · trivial
  · split
    · trivial
    · exact (readOnly_readSectors f _ _).bind fun buf => readOnly_pure _

theorem readOnly_fetchDirectory (dir : Directory) (file : OpenFile) : (fetchDirectory dir file).ReadOnly :=
  (readOnly_readAt file _ _).bind fun _ => readOnly_pure _

theorem readOnly_fetchBitMap (m : BitMap) (file : OpenFile) : (fetchBitMap m file).ReadOnly :=
  (readOnly_readAt file _ _).bind fun _ => readOnly_pure _

theorem readOnly_mount : mount.ReadOnly :=
  (readOnly_newOpenFile _).bind fun _ => (readOnly_newOpenFile _).bind fun _ => readOnly_pure _

theorem readOnly_openFile (fs : FileSystem) (fresh : Fresh) (name : Image Byte) :
    (openFile fs fresh name).ReadOnly := by
  refine (readOnly_fetchDirectory _ _).bind fun directory => ?_
  simp only
  split
  · exact (readOnly_newOpenFile _).bind fun file => readOnly_pure _
  · trivial

theorem readOnly_writeBuffer (f : OpenFile) (garbage data : Image Byte) (numBytes position : Int) :
    (writeBuffer f garbage data numBytes position).ReadOnly := by
  unfold writeBuffer
  simp only
  have hlast : ∀ buf : Image Byte, (do
      let bytes ← readAt f sectorSize ↑((position + numBytes - 1).toNat / sectorSize * sectorSize)
      let buf ← pure (Image.store buf
        (((position + numBytes - 1).toNat / sectorSize - position.toNat / sectorSize) * sectorSize) bytes)
      pure (Image.store buf (position.toNat - position.toNat / sectorSize * sectorSize)
        (Image.load data 0 numBytes.toNat)) : DiskProgram (Image Byte)).ReadOnly := fun buf =>
    (readOnly_readAt f _ _).bind fun _ => (readOnly_pure _).bind fun _ => readOnly_pure _
  split
  · refine (readOnly_readAt f _ _).bind fun bytes => (readOnly_pure _).bind fun buf => ?_
    split
    · exact hlast buf
    · trivial
  · split
    · exact hlast garbage
    · trivial

/-- One sector is written, or not. -/
theorem mem_points_writeSector {n : Int} {data : Image Byte} (h : d' ∈ (writeSector n data).points sectorDevice d) :
    d' = d ∨ d.writeSector n data = some d' := by
  have hrun := run_writeSector (d := d) n data
  unfold writeSector at h hrun
  rw [points] at h
  rw [run] at hrun
  cases hwrite : sectorDevice.write d n ⟨Image.load data 0 sectorSize, Image.length_load⟩ with
  | none =>
      rw [hwrite] at h
      exact .inl (List.mem_singleton.mp h)
  | some t =>
      rw [hwrite] at h hrun
      rcases List.mem_cons.mp h with rfl | h
      · exact .inl rfl
      · right
        rw [List.mem_singleton.mp h]
        cases hsector : d.writeSector n data with
        | none =>
            rw [hsector] at hrun
            cases hrun
        | some t' =>
            rw [hsector] at hrun
            cases hrun
            rfl

/-- The first sectors are written, and the others are not. -/
theorem mem_points_writeSectors {buf : Image Byte} {firstSector left i : Nat}
    (h : d' ∈ (writeSectors f buf firstSector i left).points sectorDevice d) :
    ∃ j ≤ left, f.writeSectors buf firstSector d i j = some d' := by
  induction left generalizing i d with
  | zero => exact ⟨0, Nat.le_refl 0, by rw [List.mem_singleton.mp h]; rfl⟩
  | succ left ih =>
      have hstart : d' = d → ∃ j ≤ left + 1, f.writeSectors buf firstSector d i j = some d' := by
        rintro rfl
        exact ⟨0, Nat.zero_le _, rfl⟩
      rw [writeSectors] at h
      rcases mem_points_bind h with h | ⟨sector, d₁, hrun, h⟩
      · exact hstart ((readOnly_lift _).points h)
      rw [run_lift] at hrun
      obtain ⟨_, hsector, heq⟩ := Option.map_eq_some_iff.mp hrun
      cases heq
      rcases mem_points_bind h with h | ⟨_, d₂, hrun, h⟩
      · rcases mem_points_writeSector h with rfl | hwrite
        · exact hstart rfl
        · refine ⟨1, by omega, ?_⟩
          rw [OpenFile.writeSectors, hsector]
          simp only [Option.bind_eq_bind, Option.bind_some, hwrite]
          rfl
      · rw [run_writeSector] at hrun
        obtain ⟨_, hwrite, heq⟩ := Option.map_eq_some_iff.mp hrun
        cases heq
        obtain ⟨j, hj, hrest⟩ := ih h
        refine ⟨j + 1, by omega, ?_⟩
        rw [OpenFile.writeSectors, hsector]
        simp only [Option.bind_eq_bind, Option.bind_some, hwrite]
        exact hrest

end DiskProgram

namespace OpenFile

variable {f : OpenFile} {d d' : Disk}

/-- The loop of `WriteAt` when it is stopped after `j` sectors: the request is written up to the end of the last of
them. -/
theorem writeBuffer_stopped (h : f.hdr.WellFormed) (data : Image Byte) {buf : Image Byte} {position n j : Nat}
    (hpos : 0 < n) (hle : position + n ≤ f.hdr.numBytes.toNat) (hbuf : Surrounds f.hdr d position n buf)
    (hj : j ≤ 1 + (position + n - 1) / sectorSize - position / sectorSize)
    (hwrite : f.writeSectors (Image.store buf (position - position / sectorSize * sectorSize) (Image.load data 0 n))
      (position / sectorSize) d (position / sectorSize) j = some d') :
    Written f.hdr d data position (min n ((position / sectorSize + j) * sectorSize - position)) d' := by
  have hlast := FileHeader.div_lt_length_sectors h (show position + n - 1 < f.hdr.numBytes.toNat by omega)
  have hfirst : position / sectorSize ≤ (position + n - 1) / sectorSize := Nat.div_le_div_right (by omega)
  obtain ⟨d₁, heq, himage, hsame⟩ := writeSectors_spec h
    (Image.store buf (position - position / sectorSize * sectorSize) (Image.load data 0 n))
    (position / sectorSize) j d (position / sectorSize) (by omega) (Nat.le_refl _)
  obtain rfl : d₁ = d' := Option.some.inj (heq.symm.trans hwrite)
  refine ⟨?_, hsame⟩
  intro k hk
  rw [himage k (FileHeader.div_lt_length_sectors h hk), Image.store_load, Nat.zero_add]
  by_cases hsector : position / sectorSize ≤ k / sectorSize ∧ k / sectorSize < position / sectorSize + j
  · rw [if_pos hsector]
    by_cases hin : position ≤ k ∧ k < position + n
    · unfold sectorSize at *
      rw [if_pos (by omega), if_pos (by omega)]
      congr 1
      omega
    · have hold := hbuf k hk hsector.1 (by omega) hin
      unfold sectorSize at *
      rw [if_neg (by omega), if_neg (by omega), hold]
  · rw [if_neg hsector, if_neg]
    unfold sectorSize at *
    omega

end OpenFile

namespace DiskProgram

open BlockProgram

variable {d d' : Disk} {f : OpenFile}

/-- The buffer holds the bytes of the file around the request. -/
theorem run_writeBuffer (h : f.hdr.WellFormed) (d : Disk) (garbage data : Image Byte) {position n : Nat} (hpos : 0 < n)
    (hle : position + n ≤ f.hdr.numBytes.toNat) :
    ∃ buf, (writeBuffer f garbage data n position).run sectorDevice d =
        some (Image.store buf (position - position / sectorSize * sectorSize) (Image.load data 0 n), d) ∧
      OpenFile.Surrounds f.hdr d position n buf := by
  have hlast : (↑position + (n : Int) - 1).toNat = position + n - 1 := by omega
  unfold writeBuffer
  simp only [Int.toNat_natCast, hlast]
  -- the request starts on a sector boundary or not, and its last sector is to be read or not
  split_ifs with hfirst hend hend <;>
    simp only [run_bind, run_readAt, OpenFile.readAt_eq h, run_pure, Option.map_some, Option.bind_some,
      Int.toNat_natCast] <;>
    refine ⟨_, rfl, ?_⟩ <;>
    intro k hk hge hle hout <;>
    simp only [Bool.not_eq_eq_eq_not, Bool.not_true, Bool.and_eq_true, Bool.or_eq_true, bne_iff_ne,
      beq_eq_false_iff_ne, beq_iff_eq, ne_eq, sectorSize, not_and, not_or] at *
  · rw [Image.store_load, Image.store_load]
    split_ifs with hinLast hinFirst
    · congr 1
      omega
    · congr 1
      omega
    · omega
  · rw [Image.store_load]
    split_ifs with hinFirst
    · congr 1
      omega
    · omega
  · rw [Image.store_load]
    split_ifs with hinLast
    · congr 1
      omega
    · omega
  · omega

/-- `WriteAt` has written the request up to the end of a sector. -/
theorem mem_points_writeAt (h : f.hdr.WellFormed) {garbage data : Image Byte} {numBytes : Int} {position : Nat}
    (hd' : d' ∈ (writeAt f garbage data numBytes position).points sectorDevice d) :
    ∃ n ≤ min numBytes.toNat (f.hdr.numBytes.toNat - position), OpenFile.Written f.hdr d data position n d' ∧
      (n = 0 ∨ n = min numBytes.toNat (f.hdr.numBytes.toNat - position) ∨ (position + n) % sectorSize = 0) := by
  have hnothing : d' = d →
      ∃ n ≤ min numBytes.toNat (f.hdr.numBytes.toNat - position), OpenFile.Written f.hdr d data position n d' ∧
        (n = 0 ∨ n = min numBytes.toNat (f.hdr.numBytes.toNat - position) ∨ (position + n) % sectorSize = 0) := by
    rintro rfl
    refine ⟨0, Nat.zero_le _, ⟨?_, fun _ _ _ _ => rfl⟩, .inl rfl⟩
    intro k _
    rw [if_neg (by omega)]
  unfold writeAt at hd'
  rw [FileHeader.fileLength_eq h] at hd'
  by_cases hnone : numBytes ≤ 0 ∨ (position : Int) ≥ f.hdr.numBytes.toNat
  · rw [if_pos hnone] at hd'
    exact hnothing (List.mem_singleton.mp hd')
  rw [if_neg hnone] at hd'
  simp only [OpenFile.clipped hnone] at hd'
  have hpos : 0 < min numBytes.toNat (f.hdr.numBytes.toNat - position) := by omega
  have hle : position + min numBytes.toNat (f.hdr.numBytes.toNat - position) ≤ f.hdr.numBytes.toNat := by omega
  generalize min numBytes.toNat (f.hdr.numBytes.toNat - position) = n at *
  have hlast : (↑position + (n : Int) - 1).toNat = position + n - 1 := by omega
  obtain ⟨buf, hrun, hbuf⟩ := run_writeBuffer h d garbage data hpos hle
  rw [if_neg (by omega), ReadOnly.points_bind (readOnly_writeBuffer f garbage data n position) hrun, Int.toNat_natCast,
    hlast] at hd'
  obtain ⟨j, hj, hwrite⟩ := mem_points_writeSectors (mem_points_map hd')
  refine ⟨_, Nat.min_le_left _ _, OpenFile.writeBuffer_stopped h data hpos hle hbuf hj hwrite, ?_⟩
  unfold sectorSize at *
  omega

end DiskProgram

end Nachos

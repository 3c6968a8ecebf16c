import Nachos.DiskProgram
import Nachos.FileSystemVolume

/-! The UNIX file that is the disk, `machine/disk.cc` on the calls of `machine/sysdep.cc`: a magic number, and the
sectors after it. The file outlives the machine. When the machine is started again the constructor of the disk checks
the magic number, and the file system is formatted or finds its files. -/

namespace Nachos

/-- A UNIX file: its length, and its bytes. -/
structure UnixFile where
  length : Nat
  bytes : Image Byte

namespace UnixFile

/-- `OpenForWrite`. -/
def empty : UnixFile := ⟨0, fun _ => 0⟩

/-- `Lseek` and `Read`. -/
def read (f : UnixFile) (offset nBytes : Nat) : Option { bytes : List Byte // bytes.length = nBytes } :=
  if offset + nBytes ≤ f.length then some ⟨Image.load f.bytes offset nBytes, Image.length_load⟩ else none

/-- `Lseek` and `WriteFile`. What lies between the old end of the file and the offset is zero. -/
def writeFile (f : UnixFile) (offset : Nat) (data : List Byte) : UnixFile where
  length := max f.length (offset + data.length)
  bytes := Image.store (fun k => if k < f.length then f.bytes k else 0) offset data

end UnixFile

def diskMagicNumber : Word := 0x456789ab

def magicSize : Nat := 4

def diskSize : Nat := magicSize + numSectors * sectorSize

/-- `Disk::Disk`, with the file of the disk's name. -/
def newDisk : Option UnixFile → Option UnixFile
  | some f => do
      let magicNum ← f.read 0 magicSize
      guard (Layout.littleEndian.read (Image.ofList magicNum.1 0) = diskMagicNumber)
      some f
  | none =>
      let f := UnixFile.empty.writeFile 0 (Image.load (Layout.littleEndian.cells diskMagicNumber) 0 magicSize)
      some (f.writeFile (diskSize - 4) (Image.load (Layout.littleEndian.cells 0) 0 4))

/-- `Disk::ReadRequest` and `Disk::WriteRequest` on the file. -/
def hostDevice : BlockDevice Sector UnixFile where
  read f n := if 0 ≤ n ∧ n < numSectors then f.read (sectorSize * n.toNat + magicSize) sectorSize else none
  write f n sector :=
    if 0 ≤ n ∧ n < numSectors then some (f.writeFile (sectorSize * n.toNat + magicSize) sector.1) else none

namespace UnixFile

/-- The sectors of the disk that the file is. -/
def disk (f : UnixFile) : Disk := fun k => if magicSize + k < f.length then f.bytes (magicSize + k) else 0

/-- A file that `Disk::Disk` accepts, with all its sectors. -/
structure IsDisk (f : UnixFile) : Prop where
  length : f.length = diskSize
  magic : Layout.littleEndian.read f.bytes = diskMagicNumber

variable {f : UnixFile} {n : Nat}

theorem sector_lt (hn : n < numSectors) : sectorSize * n + magicSize + sectorSize ≤ diskSize := by
  simp only [diskSize, numSectors, sectorSize, magicSize] at *
  omega

theorem IsDisk.writeFile (h : f.IsDisk) (hn : n < numSectors) (sector : Sector) :
    (f.writeFile (sectorSize * n + magicSize) sector.1).IsDisk := by
  have hlt := sector_lt hn
  have hlength := sector.2
  refine ⟨?_, ?_⟩
  · show max f.length _ = _
    rw [h.length, hlength]
    omega
  · rw [← h.magic]
    apply Layout.littleEndian.read_congr
    intro k hk
    have hk : k < magicSize := hk
    unfold UnixFile.writeFile Image.store
    simp only
    rw [if_neg (by omega), if_pos (by rw [h.length]; simp only [diskSize]; omega)]

theorem disk_writeFile (h : f.IsDisk) (hn : n < numSectors) (sector : Sector) :
    (f.writeFile (sectorSize * n + magicSize) sector.1).disk = Image.store f.disk (sectorSize * n) sector.1 := by
  have hlt := sector_lt hn
  have hlength := sector.2
  have hsame := (h.writeFile hn sector).length
  funext k
  unfold disk
  rw [hsame, h.length]
  by_cases hk : magicSize + k < diskSize
  · rw [if_pos hk]
    unfold writeFile Image.store
    simp only [h.length, if_pos hk]
    by_cases hin : sectorSize * n ≤ k
    · rw [if_pos (by omega), if_pos hin,
        show magicSize + k - (sectorSize * n + magicSize) = k - sectorSize * n by omega]
    · rw [if_neg (by omega), if_neg hin]
  · rw [if_neg hk]
    unfold Image.store
    simp only [if_neg hk]
    split
    · rw [List.getElem?_eq_none (by omega), Option.getD_none]
    · rfl

/-- The file is a disk. -/
theorem hostDevice_refines : BlockProgram.Refines hostDevice sectorDevice IsDisk disk := by
  refine ⟨?_, ?_, ?_⟩
  · intro f n h
    simp only [hostDevice, sectorDevice]
    split
    · rename_i hn
      obtain ⟨m, rfl⟩ := Int.eq_ofNat_of_zero_le hn.1
      have hm : m < numSectors := by omega
      have hlt := sector_lt hm
      rw [UnixFile.read, if_pos (by rw [h.length, Int.toNat_natCast]; exact hlt)]
      refine congrArg some (Subtype.ext ?_)
      apply Image.load_congr
      intro j hj
      unfold disk
      rw [h.length, Int.toNat_natCast, if_pos (by omega)]
      congr 1
      omega
    · rfl
  · intro f n sector h
    simp only [hostDevice, sectorDevice]
    split
    · rename_i hn
      obtain ⟨m, rfl⟩ := Int.eq_ofNat_of_zero_le hn.1
      exact congrArg some (disk_writeFile h (by omega) sector)
    · rfl
  · intro f n sector t h hwrite
    simp only [hostDevice] at hwrite
    split at hwrite
    · rename_i hn
      obtain ⟨m, rfl⟩ := Int.eq_ofNat_of_zero_le hn.1
      cases hwrite
      exact h.writeFile (by omega) sector
    · cases hwrite

/-- `Disk::Disk` makes a disk of no file, and accepts it again. -/
theorem newDisk_none : ∃ f, newDisk none = some f ∧ f.IsDisk := by
  refine ⟨_, rfl, by decide, ?_⟩
  refine Eq.trans ?_ (Layout.littleEndian.read_cells diskMagicNumber)
  apply Layout.littleEndian.read_congr
  intro k hk
  have hk : k < magicSize := hk
  have hlt : k < diskSize - 4 := by
    simp only [magicSize, diskSize, numSectors, sectorSize] at *
    omega
  simp only [writeFile, Image.store_load, Nat.zero_add, Nat.sub_zero, Image.length_load]
  rw [if_neg (by omega), if_pos (show k < max empty.length magicSize by omega), if_pos ⟨Nat.zero_le k, hk⟩]

theorem IsDisk.newDisk (h : f.IsDisk) : Nachos.newDisk (some f) = some f := by
  have hread : f.read 0 magicSize = some ⟨Image.load f.bytes 0 magicSize, Image.length_load⟩ := by
    rw [UnixFile.read, if_pos]
    rw [h.length]
    decide
  have hmagic : Layout.littleEndian.read (Image.ofList (Image.load f.bytes 0 magicSize) 0) = diskMagicNumber := by
    rw [← h.magic]
    apply Layout.littleEndian.read_congr
    intro k hk
    have hk : k < magicSize := hk
    rw [Image.ofList_apply, Image.getElem?_load, if_pos hk, Option.getD_some, Nat.zero_add]
  simp only [Nachos.newDisk, hread, Option.bind_eq_bind, Option.bind_some, hmagic, guard_true]
  rfl

end UnixFile

end Nachos

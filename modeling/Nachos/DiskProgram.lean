import Nachos.BlockProgram
import Nachos.FileSystem

/-! The file system as programs that read and write the sectors of the disk one after another. On the disk they do what
the functions of the file system do. -/

namespace Nachos

/-- What a sector holds. -/
abbrev Sector := { bytes : List Byte // bytes.length = sectorSize }

abbrev DiskProgram := BlockProgram Sector

/-- The disk, with the assertions of `Disk::ReadRequest` and `Disk::WriteRequest`. -/
def sectorDevice : BlockDevice Sector Disk where
  read d n :=
    if 0 ≤ n ∧ n < numSectors then some ⟨Image.load d (sectorSize * n.toNat) sectorSize, Image.length_load⟩ else none
  write d n sector :=
    if 0 ≤ n ∧ n < numSectors then some (Image.store d (sectorSize * n.toNat) sector.1) else none

namespace DiskProgram

open BlockProgram

/-- `SynchDisk::ReadSector`. -/
def readSector (n : Int) : DiskProgram (List Byte) := .read n fun sector => .ret sector.1

/-- `SynchDisk::WriteSector`. -/
def writeSector (n : Int) (data : Image Byte) : DiskProgram Unit :=
  .write n ⟨Image.load data 0 sectorSize, Image.length_load⟩ (.ret ())

/-- `FileHeader::FetchFrom`. -/
def fetchHeader (sector : Int) : DiskProgram FileHeader := do
  let data ← readSector sector
  pure (FileHeader.layout.read (Image.ofList data 0))

/-- `FileHeader::WriteBack`. -/
def writeHeader (hdr : FileHeader) (sector : Int) : DiskProgram Unit := writeSector sector (FileHeader.layout.cells hdr)

/-- `OpenFile::OpenFile`. -/
def newOpenFile (sector : Int) : DiskProgram OpenFile := do
  let hdr ← fetchHeader sector
  pure ⟨hdr, 0⟩

/-- The loop of `OpenFile::ReadAt`. -/
def readSectors (f : OpenFile) (i : Nat) : Nat → DiskProgram (List Byte)
  | 0 => pure []
  | left + 1 => do
      let sector ← lift (f.hdr.byteToSector (i * sectorSize))
      let data ← readSector sector
      let rest ← readSectors f (i + 1) left
      pure (data ++ rest)

/-- `OpenFile::ReadAt`. -/
def readAt (f : OpenFile) (numBytes position : Int) : DiskProgram (List Byte) :=
  let fileLength := f.hdr.fileLength
  if numBytes ≤ 0 ∨ position ≥ fileLength then pure []
  else
    let numBytes := if position + numBytes > fileLength then fileLength - position else numBytes
    if position < 0 then .fail
    else do
      let firstSector := position.toNat / sectorSize
      let lastSector := (position + numBytes - 1).toNat / sectorSize
      let numSectors := 1 + lastSector - firstSector
      let buf ← readSectors f firstSector numSectors
      pure ((buf.drop (position.toNat - firstSector * sectorSize)).take numBytes.toNat)

/-- The loop of `OpenFile::WriteAt`. -/
def writeSectors (f : OpenFile) (buf : Image Byte) (firstSector : Nat) (i : Nat) : Nat → DiskProgram Unit
  | 0 => pure ()
  | left + 1 => do
      let sector ← lift (f.hdr.byteToSector (i * sectorSize))
      writeSector sector fun k => buf ((i - firstSector) * sectorSize + k)
      writeSectors f buf firstSector (i + 1) left

/-- What `OpenFile::WriteAt` reads before it writes: the buffer with the request in it, for a clipped request. -/
def writeBuffer (f : OpenFile) (garbage data : Image Byte) (numBytes position : Int) : DiskProgram (Image Byte) := do
  let firstSector := position.toNat / sectorSize
  let lastSector := (position + numBytes - 1).toNat / sectorSize
  let firstAligned := position == firstSector * sectorSize
  let lastAligned := position + numBytes == (lastSector + 1) * sectorSize
  let buf ←
    if !firstAligned then do
      let bytes ← readAt f sectorSize ↑(firstSector * sectorSize)
      pure (Image.store garbage 0 bytes)
    else pure garbage
  let buf ←
    if !lastAligned && (firstSector != lastSector || firstAligned) then do
      let bytes ← readAt f sectorSize ↑(lastSector * sectorSize)
      pure (Image.store buf ((lastSector - firstSector) * sectorSize) bytes)
    else pure buf
  pure (Image.store buf (position.toNat - firstSector * sectorSize) (Image.load data 0 numBytes.toNat))

/-- `OpenFile::WriteAt`. -/
def writeAt (f : OpenFile) (garbage data : Image Byte) (numBytes position : Int) : DiskProgram Int :=
  let fileLength := f.hdr.fileLength
  if numBytes ≤ 0 ∨ position ≥ fileLength then pure 0
  else
    let numBytes := if position + numBytes > fileLength then fileLength - position else numBytes
    if position < 0 then .fail
    else do
      let firstSector := position.toNat / sectorSize
      let lastSector := (position + numBytes - 1).toNat / sectorSize
      let numSectors := 1 + lastSector - firstSector
      let buf ← writeBuffer f garbage data numBytes position
      writeSectors f buf firstSector firstSector numSectors
      pure numBytes

/-- `OpenFile::Read`. -/
def read (f : OpenFile) (numBytes : Int) : DiskProgram (List Byte × OpenFile) := do
  let result ← readAt f numBytes f.seekPosition
  pure (result, { f with seekPosition := f.seekPosition + result.length })

/-- `OpenFile::Write`. -/
def write (f : OpenFile) (garbage data : Image Byte) (numBytes : Int) : DiskProgram (Int × OpenFile) := do
  let result ← writeAt f garbage data numBytes f.seekPosition
  pure (result, { f with seekPosition := f.seekPosition + result })

/-- `Directory::FetchFrom`. -/
def fetchDirectory (dir : Directory) (file : OpenFile) : DiskProgram Directory := do
  let bytes ← readAt file (dir.length * DirectoryEntry.layout.size) 0
  pure (DirectoryEntry.layout.readArray (Image.store (DirectoryEntry.layout.arrayCells dir) 0 bytes) 0 dir.length)

/-- `Directory::WriteBack`. -/
def writeDirectory (dir : Directory) (file : OpenFile) (garbage : Image Byte) : DiskProgram Unit := do
  let _ ← writeAt file garbage (DirectoryEntry.layout.arrayCells dir) (dir.length * DirectoryEntry.layout.size) 0
  pure ()

/-- `BitMap::FetchFrom`. -/
def fetchBitMap (m : BitMap) (file : OpenFile) : DiskProgram BitMap := do
  let bytes ← readAt file (m.map.length * Layout.littleEndian.size) 0
  pure { m with
    map := Layout.littleEndian.readArray (Image.store (Layout.littleEndian.arrayCells m.map) 0 bytes) 0 m.map.length
    length_map := by rw [Layout.length_readArray, m.length_map] }

/-- `BitMap::WriteBack`. -/
def writeBitMap (m : BitMap) (file : OpenFile) (garbage : Image Byte) : DiskProgram Unit := do
  let _ ← writeAt file garbage (Layout.littleEndian.arrayCells m.map) (m.map.length * Layout.littleEndian.size) 0
  pure ()

/-- `FileSystem::FileSystem(TRUE)`. -/
def format (fresh : Fresh) : DiskProgram FileSystem := do
  let freeMap := FileSystem.newFreeMap (fresh 0)
  let directory := Directory.new numDirEntries (fresh 1)
  let freeMap ← lift (freeMap.mark freeMapSector)
  let freeMap ← lift (freeMap.mark directorySector)
  let (allocated, mapHdr, freeMap) ← lift ((FileSystem.newHeader (fresh 2)).allocate freeMap freeMapFileSize)
  lift (guard allocated)
  let (allocated, dirHdr, freeMap) ← lift ((FileSystem.newHeader (fresh 3)).allocate freeMap directoryFileSize)
  lift (guard allocated)
  writeHeader mapHdr freeMapSector
  writeHeader dirHdr directorySector
  let freeMapFile ← newOpenFile freeMapSector
  let directoryFile ← newOpenFile directorySector
  writeBitMap freeMap freeMapFile (fresh 4)
  writeDirectory directory directoryFile (fresh 5)
  pure ⟨freeMapFile, directoryFile⟩

/-- `FileSystem::FileSystem(FALSE)`. -/
def mount : DiskProgram FileSystem := do
  let freeMapFile ← newOpenFile freeMapSector
  let directoryFile ← newOpenFile directorySector
  pure ⟨freeMapFile, directoryFile⟩

/-- `FileSystem::Create`. -/
def create (fs : FileSystem) (fresh : Fresh) (name : Image Byte) (initialSize : Int) : DiskProgram Bool := do
  let directory ← fetchDirectory (Directory.new numDirEntries (fresh 0)) fs.directoryFile
  if directory.find name ≠ -1 then pure false
  else
    let freeMap ← fetchBitMap (FileSystem.newFreeMap (fresh 1)) fs.freeMapFile
    let (sector, freeMap) := freeMap.find
    if sector = -1 then pure false
    else
      let (added, directory) := directory.add name sector
      if !added then pure false
      else
        let (allocated, hdr, freeMap) ← lift ((FileSystem.newHeader (fresh 2)).allocate freeMap initialSize)
        if !allocated then pure false
        else
          writeHeader hdr sector
          writeDirectory directory fs.directoryFile (fresh 3)
          writeBitMap freeMap fs.freeMapFile (fresh 4)
          pure true

/-- `FileSystem::Open`. -/
def openFile (fs : FileSystem) (fresh : Fresh) (name : Image Byte) : DiskProgram (Option OpenFile) := do
  let directory ← fetchDirectory (Directory.new numDirEntries (fresh 0)) fs.directoryFile
  let sector := directory.find name
  if sector ≥ 0 then
    let file ← newOpenFile sector
    pure (some file)
  else pure none

/-- `FileSystem::Remove`. -/
def remove (fs : FileSystem) (fresh : Fresh) (name : Image Byte) : DiskProgram Bool := do
  let directory ← fetchDirectory (Directory.new numDirEntries (fresh 0)) fs.directoryFile
  let sector := directory.find name
  if sector = -1 then pure false
  else
    let fileHdr ← fetchHeader sector
    let freeMap ← fetchBitMap (FileSystem.newFreeMap (fresh 1)) fs.freeMapFile
    let freeMap ← lift (fileHdr.deallocate freeMap)
    let freeMap ← lift (freeMap.clear sector)
    let (_, directory) := directory.remove name
    writeBitMap freeMap fs.freeMapFile (fresh 2)
    writeDirectory directory fs.directoryFile (fresh 3)
    pure true

section Run

variable {d : Disk}

theorem run_readSector (n : Int) : (readSector n).run sectorDevice d = (d.readSector n).map (·, d) := by
  unfold readSector Disk.readSector
  rw [BlockProgram.run]
  simp only [sectorDevice]
  split
  · rfl
  · rfl

theorem run_writeSector (n : Int) (data : Image Byte) :
    (writeSector n data).run sectorDevice d = (d.writeSector n data).map ((), ·) := by
  unfold writeSector Disk.writeSector
  rw [BlockProgram.run]
  simp only [sectorDevice]
  split
  · rfl
  · rfl

theorem run_fetchHeader (n : Int) :
    (fetchHeader n).run sectorDevice d = (FileHeader.fetchFrom d n).map (·, d) := by
  unfold fetchHeader FileHeader.fetchFrom
  rw [run_bind, run_readSector]
  cases d.readSector n with
  | none => rfl
  | some data => rfl

theorem run_writeHeader (hdr : FileHeader) (n : Int) :
    (writeHeader hdr n).run sectorDevice d = (hdr.writeBack d n).map ((), ·) := run_writeSector n _

theorem run_newOpenFile (n : Int) : (newOpenFile n).run sectorDevice d = (OpenFile.new d n).map (·, d) := by
  unfold newOpenFile OpenFile.new
  rw [run_bind, run_fetchHeader]
  cases FileHeader.fetchFrom d n with
  | none => rfl
  | some hdr => rfl

theorem run_readSectors (f : OpenFile) (left i : Nat) :
    (readSectors f i left).run sectorDevice d = (f.readSectors d i left).map (·, d) := by
  induction left generalizing i with
  | zero => rfl
  | succ left ih =>
      rw [readSectors, OpenFile.readSectors, run_bind, run_lift]
      cases f.hdr.byteToSector (i * sectorSize) with
      | none => rfl
      | some sector =>
          simp only [Option.map_some, Option.bind_some, run_bind, run_readSector, Option.bind_eq_bind]
          cases d.readSector sector with
          | none => rfl
          | some data =>
              simp only [Option.map_some, Option.bind_some, ih]
              cases f.readSectors d (i + 1) left with
              | none => rfl
              | some rest => rfl

theorem run_readAt (f : OpenFile) (numBytes position : Int) :
    (readAt f numBytes position).run sectorDevice d = (f.readAt d numBytes position).map (·, d) := by
  unfold readAt OpenFile.readAt
  simp only
  split
  · rfl
  · split
    · rfl
    · rw [run_bind, run_readSectors, Option.map_map]
      cases f.readSectors d _ _ with
      | none => rfl
      | some buf => rfl

theorem run_writeSectors (f : OpenFile) (buf : Image Byte) (firstSector left i : Nat) :
    (writeSectors f buf firstSector i left).run sectorDevice d =
      (f.writeSectors buf firstSector d i left).map ((), ·) := by
  induction left generalizing i d with
  | zero => rfl
  | succ left ih =>
      rw [writeSectors, OpenFile.writeSectors, run_bind, run_lift]
      cases f.hdr.byteToSector (i * sectorSize) with
      | none => rfl
      | some sector =>
          simp only [Option.map_some, Option.bind_some, run_bind, run_writeSector, Option.bind_eq_bind]
          cases d.writeSector sector _ with
          | none => rfl
          | some d' => exact ih _

theorem run_writeAt (f : OpenFile) (garbage data : Image Byte) (numBytes position : Int) :
    (writeAt f garbage data numBytes position).run sectorDevice d = f.writeAt d garbage data numBytes position := by
  unfold writeAt OpenFile.writeAt
  simp only
  split
  · rfl
  generalize (if position + numBytes > f.hdr.fileLength then f.hdr.fileLength - position else numBytes) = clipped
  split
  · rfl
  have hwrite : ∀ buf : Image Byte,
      (((writeSectors f buf (position.toNat / sectorSize) (position.toNat / sectorSize)
          (1 + (position + clipped - 1).toNat / sectorSize - position.toNat / sectorSize)).run sectorDevice d).bind
        fun a => (pure clipped : DiskProgram Int).run sectorDevice a.2) =
      (f.writeSectors buf (position.toNat / sectorSize) d (position.toNat / sectorSize)
          (1 + (position + clipped - 1).toNat / sectorSize - position.toNat / sectorSize)).bind
        fun d => some (clipped, d) := by
    intro buf
    rw [run_writeSectors]
    cases f.writeSectors buf _ d _ _ with
    | none => rfl
    | some d' => rfl
  unfold writeBuffer
  simp only [run_bind, Option.bind_eq_bind]
  -- Each of the two reads is made or not.
  split
  · rw [run_bind, run_readAt]
    cases f.readAt d sectorSize ↑(position.toNat / sectorSize * sectorSize) with
    | none =>
        split
        · rfl
        · rfl
    | some first =>
        split
        · simp only [Option.map_some, Option.bind_some, run_bind, run_pure, run_readAt]
          cases f.readAt d sectorSize ↑((position + clipped - 1).toNat / sectorSize * sectorSize) with
          | none => rfl
          | some last => exact hwrite _
        · exact hwrite _
  · split
    · simp only [Option.bind_some, run_bind, run_pure, run_readAt]
      cases f.readAt d sectorSize ↑((position + clipped - 1).toNat / sectorSize * sectorSize) with
      | none => rfl
      | some last => exact hwrite _
    · exact hwrite _

theorem run_read (f : OpenFile) (numBytes : Int) :
    (read f numBytes).run sectorDevice d = (f.read d numBytes).map (·, d) := by
  unfold read OpenFile.read
  rw [run_bind, run_readAt]
  cases f.readAt d numBytes f.seekPosition with
  | none => rfl
  | some result => rfl

theorem run_write (f : OpenFile) (garbage data : Image Byte) (numBytes : Int) :
    (write f garbage data numBytes).run sectorDevice d =
      (f.write d garbage data numBytes).map fun (result, f, d) => ((result, f), d) := by
  unfold write OpenFile.write
  rw [run_bind, run_writeAt]
  cases f.writeAt d garbage data numBytes f.seekPosition with
  | none => rfl
  | some result => rfl

theorem run_fetchDirectory (dir : Directory) (file : OpenFile) :
    (fetchDirectory dir file).run sectorDevice d = (dir.fetchFrom file d).map (·, d) := by
  unfold fetchDirectory Directory.fetchFrom
  rw [run_bind, run_readAt]
  cases file.readAt d _ _ with
  | none => rfl
  | some bytes => rfl

theorem run_writeDirectory (dir : Directory) (file : OpenFile) (garbage : Image Byte) :
    (writeDirectory dir file garbage).run sectorDevice d = (dir.writeBack file d garbage).map ((), ·) := by
  unfold writeDirectory Directory.writeBack
  rw [run_bind, run_writeAt]
  cases file.writeAt d garbage _ _ _ with
  | none => rfl
  | some result => rfl

theorem run_fetchBitMap (m : BitMap) (file : OpenFile) :
    (fetchBitMap m file).run sectorDevice d = (m.fetchFrom file d).map (·, d) := by
  unfold fetchBitMap BitMap.fetchFrom
  rw [run_bind, run_readAt]
  cases file.readAt d _ _ with
  | none => rfl
  | some bytes => rfl

theorem run_writeBitMap (m : BitMap) (file : OpenFile) (garbage : Image Byte) :
    (writeBitMap m file garbage).run sectorDevice d = (m.writeBack file d garbage).map ((), ·) := by
  unfold writeBitMap BitMap.writeBack
  rw [run_bind, run_writeAt]
  cases file.writeAt d garbage _ _ _ with
  | none => rfl
  | some result => rfl

theorem run_format (fresh : Fresh) : (format fresh).run sectorDevice d = FileSystem.format d fresh := by
  unfold format FileSystem.format
  simp only [run_bind, run_lift, run_writeHeader, run_newOpenFile, run_writeBitMap, run_writeDirectory, run_pure,
    Option.bind_map, Option.bind_eq_bind, Function.comp_def]

theorem run_mount : mount.run sectorDevice d = (do
    let freeMapFile ← OpenFile.new d freeMapSector
    let directoryFile ← OpenFile.new d directorySector
    some (⟨freeMapFile, directoryFile⟩, d)) := by
  unfold mount
  rw [run_bind, run_newOpenFile]
  cases OpenFile.new d freeMapSector with
  | none => rfl
  | some freeMapFile =>
      simp only [Option.map_some, Option.bind_some, run_bind, run_newOpenFile, Option.bind_eq_bind]
      cases OpenFile.new d directorySector with
      | none => rfl
      | some directoryFile => rfl

theorem run_create (fs : FileSystem) (fresh : Fresh) (name : Image Byte) (initialSize : Int) :
    (create fs fresh name initialSize).run sectorDevice d = fs.create d fresh name initialSize := by
  unfold create FileSystem.create
  simp only [run_bind, run_lift, run_fetchDirectory, run_fetchBitMap, run_pure,
    apply_ite (fun p => run sectorDevice p d), Option.bind_map, Option.bind_eq_bind, Function.comp_def,
    run_writeHeader, run_writeBitMap, run_writeDirectory]

theorem run_openFile (fs : FileSystem) (fresh : Fresh) (name : Image Byte) :
    (openFile fs fresh name).run sectorDevice d = (fs.openFile d fresh name).map (·, d) := by
  unfold openFile FileSystem.openFile
  rw [run_bind, run_fetchDirectory]
  cases (Directory.new numDirEntries (fresh 0)).fetchFrom fs.directoryFile d with
  | none => rfl
  | some directory =>
      simp only [Option.map_some, Option.bind_some, Option.bind_eq_bind]
      split
      · rw [run_bind, run_newOpenFile]
        cases OpenFile.new d (directory.find name) with
        | none => rfl
        | some file => rfl
      · rfl

theorem run_remove (fs : FileSystem) (fresh : Fresh) (name : Image Byte) :
    (remove fs fresh name).run sectorDevice d = fs.remove d fresh name := by
  unfold remove FileSystem.remove
  simp only [run_bind, run_lift, run_fetchDirectory, run_fetchBitMap, run_fetchHeader, run_pure,
    apply_ite (fun p => run sectorDevice p d), Option.bind_map, Option.bind_eq_bind, Function.comp_def, run_writeBitMap,
    run_writeDirectory]

end Run

end DiskProgram

end Nachos

import Mathlib.Data.Option.Basic
import Nachos.Directory
import Nachos.TransitionSystem

/-! The file system, `filesys/filesys.cc`. The free map and the directory are themselves files, whose headers
lie in sectors 0 and 1. The memory that a call is handed by `new` holds anything: `fresh i` is what the
`i`-th block of it holds. -/

namespace Nachos

def freeMapSector : Nat := 0

def directorySector : Nat := 1

def freeMapFileSize : Nat := numSectors / 8

def numDirEntries : Nat := 10

def directoryFileSize : Nat := DirectoryEntry.layout.size * numDirEntries

structure FileSystem where
  freeMapFile : OpenFile
  directoryFile : OpenFile

abbrev Fresh := Nat → Image Byte

namespace FileSystem

/-- `new BitMap(NumSectors)`. -/
def newFreeMap (memory : Image Byte) : BitMap :=
  BitMap.new numSectors fun i => Layout.littleEndian.read fun k => memory (4 * i + k)

/-- `new FileHeader`, which has no constructor. -/
def newHeader (memory : Image Byte) : FileHeader := FileHeader.layout.read memory

/-- `FileSystem::FileSystem(TRUE)`. -/
def format (d : Disk) (fresh : Fresh) : Option (FileSystem × Disk) := do
  let freeMap := newFreeMap (fresh 0)
  let directory := Directory.new numDirEntries (fresh 1)
  let freeMap ← freeMap.mark freeMapSector
  let freeMap ← freeMap.mark directorySector
  let (allocated, mapHdr, freeMap) ← (newHeader (fresh 2)).allocate freeMap freeMapFileSize
  guard allocated
  let (allocated, dirHdr, freeMap) ← (newHeader (fresh 3)).allocate freeMap directoryFileSize
  guard allocated
  let d ← mapHdr.writeBack d freeMapSector
  let d ← dirHdr.writeBack d directorySector
  let freeMapFile ← OpenFile.new d freeMapSector
  let directoryFile ← OpenFile.new d directorySector
  let d ← freeMap.writeBack freeMapFile d (fresh 4)
  let d ← directory.writeBack directoryFile d (fresh 5)
  some (⟨freeMapFile, directoryFile⟩, d)

/-- `FileSystem::Create`. -/
def create (fs : FileSystem) (d : Disk) (fresh : Fresh) (name : Image Byte) (initialSize : Int) :
    Option (Bool × Disk) := do
  let directory ← (Directory.new numDirEntries (fresh 0)).fetchFrom fs.directoryFile d
  if directory.find name ≠ -1 then some (false, d)
  else
    let freeMap ← (newFreeMap (fresh 1)).fetchFrom fs.freeMapFile d
    let (sector, freeMap) := freeMap.find
    if sector = -1 then some (false, d)
    else
      let (added, directory) := directory.add name sector
      if !added then some (false, d)
      else
        let (allocated, hdr, freeMap) ← (newHeader (fresh 2)).allocate freeMap initialSize
        if !allocated then some (false, d)
        else
          let d ← hdr.writeBack d sector
          let d ← directory.writeBack fs.directoryFile d (fresh 3)
          let d ← freeMap.writeBack fs.freeMapFile d (fresh 4)
          some (true, d)

/-- `FileSystem::Open`. -/
def openFile (fs : FileSystem) (d : Disk) (fresh : Fresh) (name : Image Byte) : Option (Option OpenFile) := do
  let directory ← (Directory.new numDirEntries (fresh 0)).fetchFrom fs.directoryFile d
  let sector := directory.find name
  if sector ≥ 0 then (OpenFile.new d sector).map some else some none

/-- `FileSystem::Remove`. -/
def remove (fs : FileSystem) (d : Disk) (fresh : Fresh) (name : Image Byte) : Option (Bool × Disk) := do
  let directory ← (Directory.new numDirEntries (fresh 0)).fetchFrom fs.directoryFile d
  let sector := directory.find name
  if sector = -1 then some (false, d)
  else
    let fileHdr ← FileHeader.fetchFrom d sector
    let freeMap ← (newFreeMap (fresh 1)).fetchFrom fs.freeMapFile d
    let freeMap ← fileHdr.deallocate freeMap
    let freeMap ← freeMap.clear sector
    let (_, directory) := directory.remove name
    let d ← freeMap.writeBack fs.freeMapFile d (fresh 2)
    let d ← directory.writeBack fs.directoryFile d (fresh 3)
    some (true, d)

end FileSystem

namespace Disk

/-- The free map that the disk holds. -/
def freeMap (d : Disk) : BitMap where
  numBits := numSectors
  map := Layout.littleEndian.readArray ((d.header freeMapSector).image d) 0 (divRoundUp numSectors bitsInWord)
  length_map := Layout.length_readArray _

/-- The directory that the disk holds. -/
def directory (d : Disk) : Directory :=
  DirectoryEntry.layout.readArray ((d.header directorySector).image d) 0 numDirEntries

/-- The entries in use. -/
def files (d : Disk) : List DirectoryEntry := d.directory.filter (·.inUse)

/-- The header of a file. -/
def headerOf (d : Disk) (e : DirectoryEntry) : FileHeader := d.header e.sector.toNat

/-- The sectors of a file: that of its header and those of its data. -/
def sectorsOf (d : Disk) (e : DirectoryEntry) : List Nat := e.sector.toNat :: (d.headerOf e).sectors

/-- The sectors of the free map and of the directory. -/
def systemSectors (d : Disk) : List Nat :=
  freeMapSector :: directorySector :: ((d.header freeMapSector).sectors ++ (d.header directorySector).sectors)

/-- The sectors of all files. -/
def allocated (d : Disk) : List Nat := d.systemSectors ++ d.files.flatMap d.sectorsOf

end Disk

/-- The free map and the directory are open and lie in sectors of their own. -/
structure SystemFiles (fs : FileSystem) (d : Disk) : Prop where
  freeMapFile : fs.freeMapFile.hdr = d.header freeMapSector
  directoryFile : fs.directoryFile.hdr = d.header directorySector
  freeMap_wellFormed : (d.header freeMapSector).WellFormed
  directory_wellFormed : (d.header directorySector).WellFormed
  freeMap_size : (d.header freeMapSector).numBytes.toNat = freeMapFileSize
  directory_size : (d.header directorySector).numBytes.toNat = directoryFileSize
  nodup : d.systemSectors.Nodup

/-- The files on the disk have names of their own and sectors of their own, and the free map marks the
sectors in use. -/
structure Consistent (fs : FileSystem) (d : Disk) : Prop extends SystemFiles fs d where
  wellFormed : ∀ e ∈ d.files, (d.headerOf e).WellFormed
  names : (d.files.map DirectoryEntry.key).Nodup
  allocated_nodup : d.allocated.Nodup
  allocated_lt : ∀ s ∈ d.allocated, s < numSectors
  bit : ∀ s < numSectors, d.freeMap.bit s = true ↔ s ∈ d.allocated

namespace SystemFiles

variable {fs : FileSystem} {d d' : Disk}

theorem congr (h : SystemFiles fs d) (hmap : Disk.SameSector d d' freeMapSector)
    (hdir : Disk.SameSector d d' directorySector) : SystemFiles fs d' := by
  have hmapHdr := Disk.header_congr hmap
  have hdirHdr := Disk.header_congr hdir
  constructor
  · rw [hmapHdr, h.freeMapFile]
  · rw [hdirHdr, h.directoryFile]
  · rw [hmapHdr]
    exact h.freeMap_wellFormed
  · rw [hdirHdr]
    exact h.directory_wellFormed
  · rw [hmapHdr]
    exact h.freeMap_size
  · rw [hdirHdr]
    exact h.directory_size
  · unfold Disk.systemSectors
    rw [hmapHdr, hdirHdr]
    exact h.nodup

theorem fetchDirectory (h : SystemFiles fs d) (memory : Image Byte) :
    (Directory.new numDirEntries memory).fetchFrom fs.directoryFile d = some d.directory := by
  have hsize : fs.directoryFile.hdr.numBytes.toNat = numDirEntries * DirectoryEntry.layout.size := by
    rw [h.directoryFile, h.directory_size]
    rfl
  unfold Directory.fetchFrom
  rw [Directory.length_new, OpenFile.readAt_array DirectoryEntry.layout (h.directoryFile ▸ h.directory_wellFormed) d _ hsize.ge,
    h.directoryFile]
  rfl

theorem length_freeMap_map {m : BitMap} (h : m.numBits = numSectors) :
    freeMapFileSize = m.map.length * Layout.littleEndian.size := by
  rw [m.length_map, h]
  rfl

theorem fetchFreeMap (h : SystemFiles fs d) (memory : Image Byte) :
    (FileSystem.newFreeMap memory).fetchFrom fs.freeMapFile d = some d.freeMap := by
  have hbits : (FileSystem.newFreeMap memory).numBits = numSectors := BitMap.numBits_new _ _
  have hsize : fs.freeMapFile.hdr.numBytes.toNat =
      (FileSystem.newFreeMap memory).map.length * Layout.littleEndian.size := by
    rw [h.freeMapFile, h.freeMap_size, length_freeMap_map hbits]
  obtain ⟨m, heq, hnum, hmap⟩ := (FileSystem.newFreeMap memory).fetchFrom_eq
    (h.freeMapFile ▸ h.freeMap_wellFormed) d hsize
  have hm : m = d.freeMap := by
    apply BitMap.eq_of_map
    · rw [hnum, hbits]
      rfl
    · rw [hmap, BitMap.length_map, hbits, h.freeMapFile]
      rfl
  rw [heq, hm]

/-- Writing the directory back changes the sectors of its file only. -/
theorem writeDirectory (h : SystemFiles fs d) (memory : Image Byte) {dir : Directory}
    (hlen : dir.length = numDirEntries) :
    ∃ d', dir.writeBack fs.directoryFile d memory = some d' ∧ d'.directory = dir ∧
      ∀ s, s ∉ (d.header directorySector).sectors → Disk.SameSector d d' s := by
  have hwell : fs.directoryFile.hdr.WellFormed := h.directoryFile ▸ h.directory_wellFormed
  have hsize : fs.directoryFile.hdr.numBytes.toNat = dir.length * DirectoryEntry.layout.size := by
    rw [h.directoryFile, h.directory_size, hlen]
    rfl
  obtain ⟨d', heq, hread, hframe⟩ := OpenFile.writeAt_array DirectoryEntry.layout hwell d memory dir hsize.ge
  rw [h.directoryFile] at hread hframe
  have hnotin : directorySector ∉ (d.header directorySector).sectors := by
    have hnodup := h.nodup
    simp only [Disk.systemSectors, List.nodup_cons, List.mem_append, not_or] at hnodup
    exact hnodup.2.1.2
  have hheader := Disk.header_congr (hframe directorySector hnotin)
  refine ⟨d', heq, ?_, hframe⟩
  unfold Disk.directory
  rw [hheader, ← hlen, hread]

/-- Writing the free map back changes the sectors of its file only. -/
theorem writeFreeMap (h : SystemFiles fs d) (memory : Image Byte) {m : BitMap} (hbits : m.numBits = numSectors) :
    ∃ d', m.writeBack fs.freeMapFile d memory = some d' ∧ d'.freeMap = m ∧
      ∀ s, s ∉ (d.header freeMapSector).sectors → Disk.SameSector d d' s := by
  have hwell : fs.freeMapFile.hdr.WellFormed := h.freeMapFile ▸ h.freeMap_wellFormed
  have hsize : fs.freeMapFile.hdr.numBytes.toNat = m.map.length * Layout.littleEndian.size := by
    rw [h.freeMapFile, h.freeMap_size, length_freeMap_map hbits]
  obtain ⟨d', heq, hread, hframe⟩ := OpenFile.writeAt_array Layout.littleEndian hwell d memory m.map hsize.ge
  rw [h.freeMapFile] at hread hframe
  have hnotin : freeMapSector ∉ (d.header freeMapSector).sectors := by
    have hnodup := h.nodup
    simp only [Disk.systemSectors, List.nodup_cons, List.mem_cons, List.mem_append, not_or] at hnodup
    exact hnodup.1.2.1
  have hheader := Disk.header_congr (hframe freeMapSector hnotin)
  refine ⟨d', heq, ?_, hframe⟩
  apply BitMap.eq_of_map
  · exact hbits.symm
  · unfold Disk.freeMap
    simp only
    rw [hheader, ← hbits, ← m.length_map, hread]

end SystemFiles

end Nachos

import Mathlib.Data.List.Flatten
import Nachos.AbortedCalls

/-! `Create` and `Remove` when the user aborts the machine. The directory takes two sectors, and the seventh of its
entries lies in both: its sector number in the first one, and its name in the second one. -/

namespace Nachos

namespace DirectoryEntry

/-- The seventh entry, when only the first sector of the directory has been written. -/
def torn (new old : DirectoryEntry) : DirectoryEntry where
  inUse := new.inUse
  sector := new.sector
  name := old.name
  length_name := old.length_name
  padding := new.padding.take 3 ++ old.padding.drop 3
  length_padding := by
    rw [List.length_append, List.length_take, List.length_drop, new.length_padding, old.length_padding]
    rfl

theorem torn_self (e : DirectoryEntry) : torn e e = e := by
  unfold torn
  simp only [List.take_append_drop]

theorem key_torn (new old : DirectoryEntry) : (torn new old).key = old.key := rfl

/-- The first eight bytes of one entry, before the others of another one. -/
theorem ofCells_torn (new : DirectoryEntry) {m m' : Image Byte} (hnew : ∀ k < 8, m' k = new.cells k)
    (hold : ∀ k < 20, 8 ≤ k → m' k = m k) : ofCells m' = torn new (ofCells m) := by
  have hhead := congrArg (List.take 3) new.load_cells_padding
  rw [List.take_left' Image.length_load] at hhead
  have hload : ∀ a n, a + n ≤ 20 → 8 ≤ a → Image.load m' a n = Image.load m a n := by
    intro a n hle hge
    apply Image.load_congr
    intro k hk
    exact hold (a + k) (by omega) (by omega)
  have hpadding : Image.load m' 1 3 = Image.load new.cells 1 3 := by
    apply Image.load_congr
    intro k hk
    exact hnew (1 + k) (by omega)
  have hsector : Layout.littleEndian.read (fun k => m' (4 + k)) = new.sector := by
    rw [← new.read_cells_sector]
    apply Layout.littleEndian.read_congr
    intro k hk
    have hk : k < 4 := hk
    exact hnew (4 + k) (by omega)
  have hinUse : (m' 0 != 0) = new.inUse := by
    rw [hnew 0 (by decide)]
    exact congrArg DirectoryEntry.inUse new.ofCells_cells
  have htail : (ofCells m).padding.drop 3 = Image.load m 18 2 := List.drop_left' Image.length_load
  unfold torn
  simp only [htail, ← hhead]
  unfold ofCells
  simp only [hinUse, hsector, hpadding, hload 8 10 (by decide) (by decide), hload 18 2 (by decide) (by decide)]

end DirectoryEntry

namespace DiskProgram

open BlockProgram

variable {d d' : Disk} {fs : FileSystem}

theorem arrayCells_entry {dir : Directory} {e : DirectoryEntry} {i k : Nat} (he : dir[i]? = some e) (hk : k < 20) :
    DirectoryEntry.layout.arrayCells dir (20 * i + k) = e.cells k := by
  have hdiv : (20 * i + k) / 20 = i := by omega
  have hmod : (20 * i + k) % 20 = k := by omega
  unfold Layout.arrayCells
  show (dir[(20 * i + k) / 20]?.map fun e => e.cells ((20 * i + k) % 20)).getD default = _
  rw [hdiv, hmod, he, Option.map_some, Option.getD_some]

theorem length_directory (d : Disk) : d.directory.length = numDirEntries := Layout.length_readArray _

theorem getElem?_directory (d : Disk) {i : Nat} (hi : i < numDirEntries) :
    d.directory[i]? = some (.ofCells fun k => (d.header directorySector).image d (20 * i + k)) := by
  unfold Disk.directory Layout.readArray
  rw [List.getElem?_map, List.getElem?_range hi, Option.map_some]
  have hread : ∀ m, DirectoryEntry.layout.read m = DirectoryEntry.ofCells m := fun _ => rfl
  rw [hread]
  refine congrArg some (DirectoryEntry.ofCells_congr ?_)
  intro k _
  exact congrArg _ (show 0 + 20 * i + k = 20 * i + k by omega)

/-- An aborted write of the directory leaves every entry as it was, or as it shall be, or the seventh one torn. -/
theorem mem_points_writeDirectory (h : SystemFiles fs d) {dir : Directory} (hlen : dir.length = numDirEntries)
    {garbage : Image Byte} (hd' : d' ∈ (writeDirectory dir fs.directoryFile garbage).points sectorDevice d) :
    (∀ i < numDirEntries, ∀ old new, d.directory[i]? = some old → dir[i]? = some new →
      ∃ e, d'.directory[i]? = some e ∧ (e = old ∨ e = new ∨ e = DirectoryEntry.torn new old ∧ i = 6)) ∧
      ∀ s, s ∉ (d.header directorySector).sectors → Disk.SameSector d d' s := by
  have hwell : fs.directoryFile.hdr.WellFormed := h.directoryFile ▸ h.directory_wellFormed
  have hsize : fs.directoryFile.hdr.numBytes.toNat = 200 := by
    rw [h.directoryFile, h.directory_size]
    rfl
  have hbytes : ((dir.length : Int) * DirectoryEntry.layout.size).toNat = 200 := by
    rw [hlen]
    rfl
  have hpoint : d' ∈ (writeAt fs.directoryFile garbage (DirectoryEntry.layout.arrayCells dir)
      (dir.length * DirectoryEntry.layout.size) ((0 : Nat) : Int)).points sectorDevice d := by
    rw [Int.natCast_zero]
    exact mem_points_map hd'
  obtain ⟨n, hn, hwritten, hcases⟩ := mem_points_writeAt hwell hpoint
  rw [hsize, hbytes] at hn hcases
  rw [h.directoryFile] at hwritten
  refine ⟨?_, hwritten.frame⟩
  have hheader := Disk.header_congr (hwritten.frame _ h.directorySector_not_mem.2)
  intro i hi old new hold hnew
  have himage : ∀ k < 20, (d'.header directorySector).image d' (20 * i + k) =
      if 20 * i + k < n then new.cells k else (d.header directorySector).image d (20 * i + k) := by
    intro k hk
    have hlt : 20 * i + k < (d.header directorySector).numBytes.toNat := by
      rw [h.directory_size]
      show 20 * i + k < 200
      simp only [numDirEntries] at hi
      omega
    rw [hheader, hwritten.image _ hlt, Nat.zero_add]
    simp only [Nat.zero_le, true_and, Nat.sub_zero]
    split_ifs
    · exact arrayCells_entry hnew hk
    · rfl
  rw [getElem?_directory d hi] at hold
  obtain rfl := Option.some.inj hold
  refine ⟨_, getElem?_directory d' hi, ?_⟩
  by_cases hbefore : 20 * i + 20 ≤ n
  · right
    left
    rw [← new.ofCells_cells]
    apply DirectoryEntry.ofCells_congr
    intro k hk
    rw [himage k hk, if_pos (by omega)]
  · by_cases hafter : n ≤ 20 * i
    · left
      apply DirectoryEntry.ofCells_congr
      intro k hk
      rw [himage k hk, if_neg (by omega)]
    · right
      right
      -- the end of the first sector lies eight bytes into the entry
      have hcut : n = 20 * i + 8 ∧ i = 6 := by
        have hn : n = 0 ∨ n = 128 ∨ n = 200 := by
          simp only [sectorSize] at hcases
          omega
        rcases hn with rfl | rfl | rfl
        · omega
        · omega
        · simp only [numDirEntries] at hi
          omega
      refine ⟨DirectoryEntry.ofCells_torn new ?_ ?_, hcut.2⟩
      · intro k hk
        rw [himage k (by omega), if_pos (by omega)]
      · intro k hk hge
        rw [himage k hk, if_neg (by omega)]

/-- When one entry changes, the others stay as they are. -/
theorem directory_of_points (h : SystemFiles fs d) {pre post : Directory} {old new : DirectoryEntry}
    (hdir : d.directory = pre ++ old :: post) {garbage : Image Byte}
    (hd' : d' ∈ (writeDirectory (pre ++ new :: post) fs.directoryFile garbage).points sectorDevice d) :
    (∃ e, d'.directory = pre ++ e :: post ∧
        (e = old ∨ e = new ∨ e = DirectoryEntry.torn new old ∧ pre.length = 6)) ∧
      ∀ s, s ∉ (d.header directorySector).sectors → Disk.SameSector d d' s := by
  have hlen : pre.length + (post.length + 1) = numDirEntries := by
    rw [← length_directory d, hdir, List.length_append, List.length_cons]
  obtain ⟨hentry, hframe⟩ := mem_points_writeDirectory h
    (by rw [List.length_append, List.length_cons, hlen]) hd'
  refine ⟨?_, hframe⟩
  obtain ⟨e, hget, hcases⟩ := hentry pre.length (by omega) old new
    (by rw [hdir, List.getElem?_append_right (Nat.le_refl _), Nat.sub_self]; rfl)
    (by rw [List.getElem?_append_right (Nat.le_refl _), Nat.sub_self]; rfl)
  refine ⟨e, ?_, hcases⟩
  have hsame : ∀ {y x : DirectoryEntry} {i : Nat}, (y = x ∨ y = x ∨ y = DirectoryEntry.torn x x ∧ i = 6) → y = x := by
    rintro y x i (heq | heq | ⟨heq, -⟩)
    · exact heq
    · exact heq
    · rwa [DirectoryEntry.torn_self] at heq
  apply List.ext_getElem?
  intro i
  rcases Nat.lt_trichotomy i pre.length with hlt | rfl | hgt
  · have hget : ∀ y : DirectoryEntry, (pre ++ y :: post)[i]? = some pre[i] := fun y => by
      rw [List.getElem?_append_left hlt, List.getElem?_eq_getElem hlt]
    obtain ⟨y, hy, hcases⟩ := hentry i (by omega) _ _ (by rw [hdir, hget]) (hget new)
    rw [hy, hsame hcases, hget]
  · rw [hget, List.getElem?_append_right (Nat.le_refl _), Nat.sub_self]
    rfl
  · obtain ⟨k, rfl⟩ := Nat.exists_eq_add_of_lt hgt
    have hshift : ∀ y : DirectoryEntry, (pre ++ y :: post)[pre.length + k + 1]? = post[k]? := fun y => by
      rw [List.getElem?_append_right (by omega), show pre.length + k + 1 - pre.length = k + 1 by omega]
      rfl
    rw [hshift]
    by_cases hk : k < post.length
    · obtain ⟨y, hy, hcases⟩ := hentry (pre.length + k + 1) (by omega) post[k] post[k]
        (by rw [hdir, hshift, List.getElem?_eq_getElem hk]) (by rw [hshift, List.getElem?_eq_getElem hk])
      rw [hy, hsame hcases, List.getElem?_eq_getElem hk]
    · rw [List.getElem?_eq_none (by rw [length_directory]; omega), List.getElem?_eq_none (by omega)]

/-- An aborted write of the free map changes its file only. -/
theorem frame_writeBitMap (h : SystemFiles fs d) {m : BitMap} {garbage : Image Byte}
    (hd' : d' ∈ (writeBitMap m fs.freeMapFile garbage).points sectorDevice d) :
    ∀ s, s ∉ (d.header freeMapSector).sectors → Disk.SameSector d d' s := by
  have hpoint : d' ∈ (writeAt fs.freeMapFile garbage (Layout.littleEndian.arrayCells m.map)
      (m.map.length * Layout.littleEndian.size) ((0 : Nat) : Int)).points sectorDevice d := by
    rw [Int.natCast_zero]
    exact mem_points_map hd'
  obtain ⟨n, -, hwritten, -⟩ := mem_points_writeAt (h.freeMapFile ▸ h.freeMap_wellFormed) hpoint
  rw [h.freeMapFile] at hwritten
  exact hwritten.frame

end DiskProgram

/-- What an abort leaves of the file system: the files have sectors of their own. The free map need not mark them, and a
name may be there twice. -/
structure Sound (fs : FileSystem) (d : Disk) : Prop extends SystemFiles fs d where
  wellFormed : ∀ e ∈ d.files, (d.headerOf e).WellFormed
  allocated_nodup : d.allocated.Nodup
  allocated_lt : ∀ s ∈ d.allocated, s < numSectors

/-- No file has the name that a free entry before it still holds. -/
def Disk.Tidy (d : Disk) : Prop :=
  d.directory.Pairwise fun e f => e.inUse = false → f.inUse = true → f.key ≠ e.key

/-- The name that the seventh entry of the directory still holds when it is the first free one. -/
def Disk.staleName (d : Disk) : Option (List Byte) :=
  if (d.directory.take 6).all (·.inUse) then (d.directory[6]?.filter fun e => !e.inUse).map DirectoryEntry.key else none

theorem Disk.staleName_eq {d : Disk} {pre post : Directory} {e : DirectoryEntry} (hdir : d.directory = pre ++ e :: post)
    (hlen : pre.length = 6) (hused : ∀ f ∈ pre, f.inUse = true) (hfree : e.inUse = false) :
    d.staleName = some e.key := by
  have hget : (pre ++ e :: post)[6]? = some e := by
    rw [← hlen, List.getElem?_append_right (Nat.le_refl _), Nat.sub_self]
    rfl
  unfold staleName
  rw [hdir, List.take_left' hlen, if_pos (List.all_eq_true.mpr hused), hget]
  simp [hfree]

/-- A file is found under its name, with its sectors as they were. -/
structure Disk.Keeps (d d' : Disk) (e : DirectoryEntry) : Prop where
  find : d'.files.find? (fun f => f.key = e.key) = some e
  sectors : ∀ s ∈ d.sectorsOf e, Disk.SameSector d d' s

namespace Directory

/-- The search returns the first entry in use under the name. -/
theorem findIndexFrom_find? (name : Image Byte) (dir : Directory) (i : Nat) :
    (findIndexFrom name dir i = -1 ∧ (dir.filter (·.inUse)).find? (fun e => e.key = fileName name) = none) ∨
      ∃ j e, findIndexFrom name dir i = ↑(i + j) ∧ dir[j]? = some e ∧
        (dir.filter (·.inUse)).find? (fun e => e.key = fileName name) = some e := by
  induction dir generalizing i with
  | nil => exact .inl ⟨rfl, rfl⟩
  | cons e rest ih =>
      rw [findIndexFrom]
      by_cases hmatch : Matches name e
      · right
        refine ⟨0, e, ?_, rfl, ?_⟩
        · rw [if_pos ((matches_iff e).mpr hmatch)]
          rfl
        · rw [List.filter_cons_of_pos hmatch.1]
          exact List.find?_cons_of_pos (by simpa using hmatch.2)
      · rw [if_neg (fun h => hmatch ((matches_iff e).mp h))]
        have hskip : ((e :: rest).filter (·.inUse)).find? (fun e => e.key = fileName name) =
            (rest.filter (·.inUse)).find? (fun e => e.key = fileName name) := by
          by_cases hused : e.inUse = true
          · rw [List.filter_cons_of_pos hused]
            exact List.find?_cons_of_neg (by simpa using fun hkey => hmatch ⟨hused, hkey⟩)
          · rw [List.filter_cons_of_neg hused]
        rw [hskip]
        rcases ih (i + 1) with h | ⟨j, f, hindex, hget, hfind⟩
        · exact .inl h
        · refine .inr ⟨j + 1, f, ?_, hget, hfind⟩
          rw [hindex]
          omega

theorem find_eq (dir : Directory) (name : Image Byte) :
    dir.find name = match (dir.filter (·.inUse)).find? (fun e => e.key = fileName name) with
      | some e => e.sector.toInt
      | none => -1 := by
  unfold find findIndex
  rcases findIndexFrom_find? name dir 0 with ⟨hindex, hfind⟩ | ⟨j, e, hindex, hget, hfind⟩
  · rw [hindex, hfind]
    simp
  · rw [hindex, hfind]
    simp only [Nat.zero_add, Int.toNat_natCast, hget, Option.map_some, Option.getD_some]
    rw [if_pos (by omega)]

/-- `Add` takes the first free entry. -/
theorem inUse_of_addEntry {name : Image Byte} {newSector : Int} {pre post : Directory} {e e' : DirectoryEntry}
    (hadd : addEntry name newSector (pre ++ e :: post) = (true, pre ++ e' :: post)) : ∀ f ∈ pre, f.inUse = true := by
  induction pre with
  | nil => simp
  | cons f pre ih =>
      rw [List.cons_append, addEntry] at hadd
      cases hused : f.inUse with
      | false =>
          rw [hused] at hadd
          have hhead := congrArg DirectoryEntry.inUse (List.cons.inj (Prod.mk.inj hadd).2).1
          rw [hused] at hhead
          cases hhead
      | true =>
          rw [hused] at hadd
          obtain ⟨hadded, hrest⟩ := Prod.mk.inj hadd
          intro g hg
          rcases List.mem_cons.mp hg with rfl | hg
          · exact hused
          · exact ih (Prod.ext hadded (List.cons.inj hrest).2) g hg

end Directory

theorem Consistent.sound {fs : FileSystem} {d : Disk} (h : Consistent fs d) : Sound fs d :=
  ⟨h.toSystemFiles, h.wellFormed, h.allocated_nodup, h.allocated_lt⟩

namespace Sound

variable {fs : FileSystem} {d d' : Disk}

/-- `Open` finds the first file of the name. -/
theorem openFile_eq (h : Sound fs d) (fresh : Fresh) (name : Image Byte) :
    fs.openFile d fresh name =
      some ((d.files.find? fun e => e.key = fileName name).map fun e => ⟨d.headerOf e, 0⟩) := by
  unfold FileSystem.openFile
  rw [h.fetchDirectory]
  simp only [Option.bind_eq_bind, Option.bind_some]
  have hsector := Directory.find_eq d.directory name
  change _ = match d.files.find? fun e => e.key = fileName name with
    | some e => e.sector.toInt
    | none => -1 at hsector
  cases hfind : d.files.find? fun e => e.key = fileName name with
  | none =>
      rw [hfind] at hsector
      rw [hsector]
      exact if_neg (by decide)
  | some e =>
      have he := List.mem_of_find?_eq_some hfind
      have hlt := h.allocated_lt _ (Consistent.sectorsOf_allocated he List.mem_cons_self)
      rw [hfind] at hsector
      rw [hsector]
      simp only
      rw [FileHeader.toInt_of_lt hlt, if_pos (by omega)]
      unfold OpenFile.new
      rw [FileHeader.fetchFrom_eq d hlt]
      rfl

end Sound

namespace Consistent

variable {fs : FileSystem} {d d' : Disk}

/-- Some of the files stay, with their sectors, and there are others in sectors that were free. -/
theorem sound_of_files (h : Consistent fs d) {kept : List DirectoryEntry} (added : List DirectoryEntry)
    (hkept : kept.Sublist d.files)
    (hfiles : d'.files.Perm (added ++ kept))
    (hframe : ∀ s ∈ d.allocated, s ∉ (d.header freeMapSector).sectors → s ∉ (d.header directorySector).sectors →
      Disk.SameSector d d' s)
    (hwell : ∀ e ∈ added, (d'.headerOf e).WellFormed) (hnodup : (added.flatMap d'.sectorsOf).Nodup)
    (hfree : ∀ s ∈ added.flatMap d'.sectorsOf, s < numSectors ∧ s ∉ d.allocated) : Sound fs d' := by
  have hmapHdr := hframe _ (systemSectors_allocated (by simp [Disk.systemSectors])) h.freeMapSector_not_mem.1
    h.freeMapSector_not_mem.2
  have hdirHdr := hframe _ (systemSectors_allocated (by simp [Disk.systemSectors])) h.directorySector_not_mem.1
    h.directorySector_not_mem.2
  have hheader : ∀ e ∈ kept, Disk.SameSector d d' e.sector.toNat := by
    intro e he
    have hnot := h.not_mem_systemSectors (hkept.subset he) List.mem_cons_self
    simp only [Disk.systemSectors, List.mem_cons, List.mem_append, not_or] at hnot
    exact hframe _ (sectorsOf_allocated (hkept.subset he) List.mem_cons_self) hnot.2.2.1 hnot.2.2.2
  have hold : (d.systemSectors ++ kept.flatMap d.sectorsOf).Sublist d.allocated :=
    (hkept.flatMap d.sectorsOf).append_left _
  have hallocated :
      d'.allocated.Perm (added.flatMap d'.sectorsOf ++ (d.systemSectors ++ kept.flatMap d.sectorsOf)) := by
    unfold Disk.allocated
    rw [Disk.systemSectors_congr hmapHdr hdirHdr]
    have hflat := hfiles.flatMap_right d'.sectorsOf
    rw [List.flatMap_append, List.flatMap_congr (fun e he => Disk.sectorsOf_congr (hheader e he))] at hflat
    refine (List.Perm.append_left _ hflat).trans ?_
    rw [← List.append_assoc, ← List.append_assoc]
    exact List.Perm.append_right _ List.perm_append_comm
  refine ⟨h.toSystemFiles.congr hmapHdr hdirHdr, ?_, ?_, ?_⟩
  · intro e he
    rcases List.mem_append.mp (hfiles.mem_iff.mp he) with he | he
    · exact hwell e he
    · rw [Disk.headerOf_congr (hheader e he)]
      exact h.wellFormed e (hkept.subset he)
  · rw [hallocated.nodup_iff, List.nodup_append]
    exact ⟨hnodup, hold.nodup h.allocated_nodup, fun s hs t ht heq => (hfree s hs).2 (hold.subset (heq ▸ ht))⟩
  · intro s hs
    rcases List.mem_append.mp (hallocated.mem_iff.mp hs) with hs | hs
    · exact (hfree s hs).1
    · exact h.allocated_lt s (hold.subset hs)

/-- What an aborted `Create` leaves once the header is written, to sector `s`: a free entry `old` has become `e`. -/
structure HalfCreated (d : Disk) (name : Image Byte) (size : Nat) (pre post : Directory) (old e : DirectoryEntry)
    (s : Nat) (d' : Disk) : Prop where
  name_new : ∀ f ∈ d.files, f.key ≠ fileName name
  directory_old : d.directory = pre ++ old :: post
  free : old.inUse = false
  first : ∀ f ∈ pre, f.inUse = true
  directory : d'.directory = pre ++ e :: post
  entry : e = old ∨ e.inUse = true ∧ e.sector.toNat = s ∧ (e.key = fileName name ∨ e.key = old.key ∧ pre.length = 6)
  wellFormed : (d'.header s).WellFormed
  size_eq : (d'.header s).numBytes.toNat = size
  nodup : (s :: (d'.header s).sectors).Nodup
  clear : ∀ t ∈ s :: (d'.header s).sectors, t < numSectors ∧ t ∉ d.allocated
  frame : ∀ t, t ≠ s → t ∉ (d.header freeMapSector).sectors → t ∉ (d.header directorySector).sectors →
    Disk.SameSector d d' t

open BlockProgram DiskProgram in
/-- The three writes of `Create`, aborted in any of them. -/
theorem create_writes (h : Consistent fs d) {name : Image Byte} {size s : Nat} {m m' : BitMap} {hdr : FileHeader}
    {pre post : Directory} {old new : DirectoryEntry} (hnone : ∀ f ∈ d.files, f.key ≠ fileName name)
    (hdir : d.directory = pre ++ old :: post) (hfree : old.inUse = false) (hfirst : ∀ f ∈ pre, f.inUse = true)
    (hnew : Directory.IsNew name s new) (hwell : hdr.WellFormed) (hsize : hdr.numBytes.toNat = size)
    (htaken : FileHeader.Taken d.freeMap m (s :: hdr.sectors)) {garbage garbage' : Image Byte}
    (hd' : d' ∈ (do
      writeHeader hdr s
      writeDirectory (pre ++ new :: post) fs.directoryFile garbage
      writeBitMap m' fs.freeMapFile garbage'
      pure true : DiskProgram Bool).points sectorDevice d) :
    d' = d ∨ ∃ e, HalfCreated d name size pre post old e s d' := by
  have hclear : ∀ t ∈ s :: hdr.sectors, t < numSectors ∧ t ∉ d.allocated := by
    intro t ht
    obtain ⟨hlt, hclear⟩ := htaken.clear t ht
    refine ⟨hlt, ?_⟩
    intro hin
    rw [(h.bit t hlt).mpr hin] at hclear
    cases hclear
  obtain ⟨hs, hunused⟩ := hclear s List.mem_cons_self
  have hsector : new.sector.toNat = s := by rw [hnew.sector, sector_toNat hs]
  -- what is left after the header does not touch it again
  have hhalf : ∀ d₁ d₂ e, Disk.SameSector d₁ d₂ s → d₁ = d.withSector s (FileHeader.layout.cells hdr) →
      d₂.directory = pre ++ e :: post → (e = old ∨ e = new ∨ e = DirectoryEntry.torn new old ∧ pre.length = 6) →
      (∀ t, t ∉ (d.header freeMapSector).sectors → t ∉ (d.header directorySector).sectors →
        Disk.SameSector d₁ d₂ t) → HalfCreated d name size pre post old e s d₂ := by
    rintro d₁ d₂ e hsame rfl hdirectory hcases hframe
    have hheader : d₂.header s = hdr := by rw [Disk.header_congr hsame, Disk.header_withSector]
    refine ⟨hnone, hdir, hfree, hfirst, hdirectory, ?_, hheader ▸ hwell, hheader ▸ hsize, hheader ▸ htaken.nodup,
      hheader ▸ hclear, ?_⟩
    · rcases hcases with rfl | rfl | ⟨rfl, hlen⟩
      · exact .inl rfl
      · exact .inr ⟨hnew.inUse, hsector, .inl hnew.key⟩
      · exact .inr ⟨hnew.inUse, hsector, .inr ⟨DirectoryEntry.key_torn new old, hlen⟩⟩
    · intro t hne hmap hdir
      exact (d.sameSector_withSector _ hne).trans (hframe t hmap hdir)
  rcases mem_points_bind hd' with hd' | ⟨_, d₁, hrun, hd'⟩
  · rcases mem_points_writeSector hd' with rfl | hwrite
    · exact .inl rfl
    · rw [d.writeSector_eq hs] at hwrite
      obtain rfl := Option.some.inj hwrite
      have hold := fun t (ht : t ∈ d.allocated) =>
        d.sameSector_withSector (FileHeader.layout.cells hdr) (fun heq : t = s => hunused (heq ▸ ht))
      refine .inr ⟨old, hhalf _ _ old (fun _ _ => rfl) rfl ?_ (.inl rfl) fun _ _ _ _ _ => rfl⟩
      rw [← hdir]
      exact h.directory_congr (hold _ (systemSectors_allocated (by simp [Disk.systemSectors])))
        fun t ht => hold t (systemSectors_allocated (by simp [Disk.systemSectors, ht]))
  right
  rw [run_writeHeader, hdr.writeBack_eq d hs] at hrun
  obtain ⟨-, rfl⟩ := Prod.mk.inj (Option.some.inj hrun)
  have hold := fun t (ht : t ∈ d.allocated) =>
    d.sameSector_withSector (FileHeader.layout.cells hdr) (fun heq : t = s => hunused (heq ▸ ht))
  have hmapHdr := hold freeMapSector (systemSectors_allocated (by simp [Disk.systemSectors]))
  have hdirHdr := hold directorySector (systemSectors_allocated (by simp [Disk.systemSectors]))
  have h₁ := h.toSystemFiles.congr hmapHdr hdirHdr
  have hsystem : s ∉ d.systemSectors := fun hin => hunused (systemSectors_allocated hin)
  simp only [Disk.systemSectors, List.mem_cons, List.mem_append, not_or] at hsystem
  have hdir₁ : (d.withSector s (FileHeader.layout.cells hdr)).directory = pre ++ old :: post := by
    rw [← hdir]
    exact h.directory_congr hdirHdr fun t ht => hold t (systemSectors_allocated (by simp [Disk.systemSectors, ht]))
  have hafter : ∀ d₂, d₂ ∈ (writeDirectory (pre ++ new :: post) fs.directoryFile garbage).points sectorDevice
      (d.withSector s (FileHeader.layout.cells hdr)) → ∃ e, d₂.directory = pre ++ e :: post ∧
        (e = old ∨ e = new ∨ e = DirectoryEntry.torn new old ∧ pre.length = 6) ∧
        ∀ t, t ∉ (d.header directorySector).sectors →
          Disk.SameSector (d.withSector s (FileHeader.layout.cells hdr)) d₂ t := by
    intro d₂ hd₂
    obtain ⟨⟨e, hdirectory, hcases⟩, hframe⟩ := directory_of_points h₁ hdir₁ hd₂
    rw [Disk.header_congr hdirHdr] at hframe
    exact ⟨e, hdirectory, hcases, hframe⟩
  rcases mem_points_bind hd' with hd' | ⟨_, d₂, hrun, hd'⟩
  · obtain ⟨e, hdirectory, hcases, hframe⟩ := hafter d' hd'
    exact ⟨e, hhalf _ _ e (hframe s hsystem.2.2.2) rfl hdirectory hcases fun t _ ht => hframe t ht⟩
  · obtain ⟨e, hdirectory, hcases, hframe⟩ := hafter d₂ (end_mem_points hrun)
    have hmapHdr₂ := hframe _ h.freeMapSector_not_mem.2
    have hdirHdr₂ := hframe _ h.directorySector_not_mem.2
    have h₂ := h₁.congr hmapHdr₂ hdirHdr₂
    have hframe' := frame_writeBitMap h₂ (mem_points_map hd')
    rw [Disk.header_congr hmapHdr₂, Disk.header_congr hmapHdr] at hframe'
    refine ⟨e, hhalf _ d' e ((hframe s hsystem.2.2.2).trans (hframe' s hsystem.2.2.1)) rfl ?_ hcases
      fun t hmap hdir => (hframe t hdir).trans (hframe' t hmap)⟩
    rw [← hdirectory]
    apply h₂.directory_congr (hframe' _ h.directorySector_not_mem.1)
    intro t ht
    rw [Disk.header_congr hdirHdr₂, Disk.header_congr hdirHdr] at ht
    exact hframe' t fun hin => h.sectors_disjoint hin ht

open BlockProgram DiskProgram in
/-- An aborted `Create` has written nothing, or has written the header. -/
theorem create_points (h : Consistent fs d) (fresh : Fresh) (name : Image Byte) {size : Nat}
    (hsize : size ≤ maxFileSize) (hd' : d' ∈ (create fs fresh name size).points sectorDevice d) :
    d' = d ∨ ∃ pre post old e s, HalfCreated d name size pre post old e s d' := by
  unfold create at hd'
  have hfetch := run_fetchDirectory (d := d) (Directory.new numDirEntries (fresh 0)) fs.directoryFile
  rw [h.fetchDirectory] at hfetch
  have hfetchMap := run_fetchBitMap (d := d) (FileSystem.newFreeMap (fresh 1)) fs.freeMapFile
  rw [h.fetchFreeMap] at hfetchMap
  rw [(readOnly_fetchDirectory _ _).points_bind hfetch] at hd'
  rcases d.directory.find_spec name with ⟨hfind, hindex, hnone⟩ | ⟨pre, e, post, hdir, hmatch, hfind, -⟩
  case inr =>
    have he : e ∈ d.files := List.mem_filter.mpr ⟨by rw [hdir]; simp, hmatch.1⟩
    have hlt := h.allocated_lt _ (sectorsOf_allocated he List.mem_cons_self)
    rw [FileHeader.toInt_of_lt hlt] at hfind
    rw [if_pos (by omega)] at hd'
    exact .inl (List.mem_singleton.mp hd')
  rw [if_neg (not_not.mpr hfind), (readOnly_fetchBitMap _ _).points_bind hfetchMap] at hd'
  rcases d.freeMap.find_spec with ⟨hfull, -⟩ | ⟨s, hs, hclear, hsector⟩
  · rw [hfull] at hd'
    exact .inl (List.mem_singleton.mp hd')
  rw [hsector] at hd'
  simp only at hd'
  rw [if_neg (by omega)] at hd'
  have hadd : d.directory.add name ↑s = Directory.addEntry name ↑s d.directory := if_neg (not_not.mpr hindex)
  rcases Directory.addEntry_spec name ↑s d.directory with
    ⟨hnoEntry, -⟩ | ⟨pre, old, new, post, hdir, hfree, hnew, hentry⟩
  · rw [hadd, hnoEntry] at hd'
    exact .inl (List.mem_singleton.mp hd')
  have hfirst := Directory.inUse_of_addEntry (hdir ▸ hentry)
  rw [hadd, hentry] at hd'
  rcases (FileSystem.newHeader (fresh 2)).allocate_spec hsize (show (d.freeMap.setBit s).numBits = numSectors from rfl)
    with ⟨-, hdr, hallocate⟩ | ⟨-, hdr, m, hallocate, hwell, hbytes, htaken⟩
  · rw [hallocate] at hd'
    exact .inl (List.mem_singleton.mp hd')
  · rw [hallocate] at hd'
    rcases h.create_writes (not_matches_iff.mp hnone) hdir hfree hfirst hnew hwell hbytes
        (.cons hs hclear htaken) hd' with
      rfl | ⟨e, hhalf⟩
    · exact .inl rfl
    · exact .inr ⟨pre, post, old, e, s, hhalf⟩

theorem find?_append_key {l l' added : List DirectoryEntry} {f : DirectoryEntry}
    (hnodup : ((l ++ l').map DirectoryEntry.key).Nodup) (hf : f ∈ l ++ l')
    (hadded : f ∈ l' → ∀ e ∈ added, e.key ≠ f.key) :
    (l ++ added ++ l').find? (fun e => e.key = f.key) = some f := by
  rw [List.map_append, List.nodup_append] at hnodup
  obtain ⟨hleft, hright, hdisjoint⟩ := hnodup
  rw [List.append_assoc, List.find?_append]
  by_cases hl : f ∈ l
  · rw [Disk.find?_key hleft hl, Option.some_or]
  have hr := (List.mem_append.mp hf).resolve_left hl
  have hnoneLeft : l.find? (fun e => e.key = f.key) = none := by
    rw [List.find?_eq_none]
    intro e he hkey
    exact hdisjoint _ (List.mem_map_of_mem he) _ (List.mem_map_of_mem hr) (of_decide_eq_true hkey)
  have hnoneAdded : added.find? (fun e => e.key = f.key) = none := by
    rw [List.find?_eq_none]
    intro e he hkey
    exact hadded hr e he (of_decide_eq_true hkey)
  rw [hnoneLeft, List.find?_append, hnoneAdded, Disk.find?_key hright hr]
  rfl

/-- The file system is sound then, and keeps its files. -/
theorem HalfCreated.sound (h : Consistent fs d) (htidy : d.Tidy) {name : Image Byte} {size s : Nat}
    {pre post : Directory} {old e : DirectoryEntry} (hhalf : HalfCreated d name size pre post old e s d') :
    Sound fs d' ∧ ∀ f ∈ d.files, d.Keeps d' f := by
  have hfiles : d.files = pre.filter (·.inUse) ++ post.filter (·.inUse) := by
    rw [Disk.files_append pre post hhalf.directory_old, hhalf.free]
    simp
  have hfiles' := Disk.files_append pre post hhalf.directory
  have hframe : ∀ t ∈ d.allocated, t ∉ (d.header freeMapSector).sectors → t ∉ (d.header directorySector).sectors →
      Disk.SameSector d d' t := fun t ht => hhalf.frame t fun heq => (hhalf.clear s List.mem_cons_self).2 (heq ▸ ht)
  have hentry : e.inUse = true → e.sector.toNat = s ∧ (e.key = fileName name ∨ e.key = old.key ∧ pre.length = 6) := by
    intro hused
    rcases hhalf.entry with rfl | ⟨-, hentry⟩
    · rw [hhalf.free] at hused
      cases hused
    · exact hentry
  have hsectors : e.inUse = true → d'.sectorsOf e = s :: (d'.header s).sectors := by
    intro hused
    unfold Disk.sectorsOf Disk.headerOf
    rw [(hentry hused).1]
  have hadded : ∀ y ∈ (if e.inUse then [e] else []), y = e ∧ e.inUse = true := by
    intro y hy
    cases hused : e.inUse with
    | false =>
        rw [hused] at hy
        cases hy
    | true =>
        rw [hused] at hy
        exact ⟨List.mem_singleton.mp hy, rfl⟩
  refine ⟨?_, ?_⟩
  · refine h.sound_of_files (if e.inUse then [e] else []) (List.Sublist.refl _) ?_ hframe ?_ ?_ ?_
    · rw [hfiles', hfiles, List.append_assoc]
      exact (List.perm_append_comm_assoc _ _ _)
    · intro y hy
      obtain ⟨rfl, hused⟩ := hadded y hy
      unfold Disk.headerOf
      rw [(hentry hused).1]
      exact hhalf.wellFormed
    · cases hused : e.inUse with
      | false => exact List.nodup_nil
      | true =>
          simp only [if_true, List.flatMap_cons, List.flatMap_nil, List.append_nil, hsectors hused]
          exact hhalf.nodup
    · intro t ht
      obtain ⟨y, hy, hin⟩ := List.mem_flatMap.mp ht
      obtain ⟨rfl, hused⟩ := hadded y hy
      rw [hsectors hused] at hin
      exact hhalf.clear t hin
  · intro f hf
    refine ⟨?_, ?_⟩
    · rw [hfiles']
      apply find?_append_key
      · rw [← hfiles]
        exact h.names
      · rw [← hfiles]
        exact hf
      · intro hpost y hy
        obtain ⟨rfl, hused⟩ := hadded y hy
        obtain ⟨hpost, hinUse⟩ := List.mem_filter.mp hpost
        have hstale : f.key ≠ old.key := by
          unfold Disk.Tidy at htidy
          rw [hhalf.directory_old] at htidy
          exact (List.pairwise_cons.mp (List.pairwise_append.mp htidy).2.1).1 f hpost hhalf.free hinUse
        rcases (hentry hused).2 with hkey | ⟨hkey, -⟩
        · rw [hkey]
          exact (hhalf.name_new f hf).symm
        · rw [hkey]
          exact hstale.symm
    · intro t ht
      have hnot := h.not_mem_systemSectors hf ht
      simp only [Disk.systemSectors, List.mem_cons, List.mem_append, not_or] at hnot
      exact hframe t (sectorsOf_allocated hf ht) hnot.2.2.1 hnot.2.2.2

theorem HalfCreated.tidy (htidy : d.Tidy) {name : Image Byte} {size s : Nat} {pre post : Directory}
    {old e : DirectoryEntry} (hhalf : HalfCreated d name size pre post old e s d') : d'.Tidy := by
  unfold Disk.Tidy at *
  rw [hhalf.directory_old, List.pairwise_append, List.pairwise_cons] at htidy
  obtain ⟨hpre, ⟨hold, hpost⟩, -⟩ := htidy
  rw [hhalf.directory, List.pairwise_append, List.pairwise_cons]
  refine ⟨hpre, ⟨?_, hpost⟩, ?_⟩
  · intro f hf hfree
    rcases hhalf.entry with rfl | ⟨hused, -⟩
    · exact hold f hf hfree
    · rw [hused] at hfree
      cases hfree
  · intro f hf g _ hfree
    rw [hhalf.first f hf] at hfree
    cases hfree

/-- What an aborted `Remove` leaves, once it has begun to write: the entry is in use, or it is not. -/
structure HalfRemoved (d : Disk) (name : Image Byte) (pre post : Directory) (old e : DirectoryEntry) (d' : Disk) :
    Prop where
  directory_old : d.directory = pre ++ old :: post
  inUse : old.inUse = true
  key : old.key = fileName name
  directory : d'.directory = pre ++ e :: post
  entry : e = old ∨ e = { old with inUse := false }
  frame : ∀ t, t ∉ (d.header freeMapSector).sectors → t ∉ (d.header directorySector).sectors → Disk.SameSector d d' t

open BlockProgram DiskProgram in
/-- The two writes of `Remove`, aborted in any of them. -/
theorem remove_writes (h : Consistent fs d) {name : Image Byte} {m : BitMap} {pre post : Directory}
    {old : DirectoryEntry} (hdir : d.directory = pre ++ old :: post) (hused : old.inUse = true)
    (hkey : old.key = fileName name) {garbage garbage' : Image Byte}
    (hd' : d' ∈ (do
      writeBitMap m fs.freeMapFile garbage
      writeDirectory (pre ++ { old with inUse := false } :: post) fs.directoryFile garbage'
      pure true : DiskProgram Bool).points sectorDevice d) :
    ∃ e, HalfRemoved d name pre post old e d' := by
  have hmap : ∀ d₁, d₁ ∈ (writeBitMap m fs.freeMapFile garbage).points sectorDevice d →
      (∀ t, t ∉ (d.header freeMapSector).sectors → Disk.SameSector d d₁ t) ∧ d₁.directory = pre ++ old :: post := by
    intro d₁ hd₁
    have hframe := frame_writeBitMap h.toSystemFiles hd₁
    refine ⟨hframe, ?_⟩
    rw [← hdir]
    apply h.directory_congr (hframe _ h.directorySector_not_mem.1)
    exact fun t ht => hframe t fun hin => h.sectors_disjoint hin ht
  rcases mem_points_bind hd' with hd' | ⟨_, d₁, hrun, hd'⟩
  · obtain ⟨hframe, hdir'⟩ := hmap d' hd'
    exact ⟨old, hdir, hused, hkey, hdir', .inl rfl, fun t ht _ => hframe t ht⟩
  · obtain ⟨hframe, hdir₁⟩ := hmap d₁ (end_mem_points hrun)
    have hdirHdr := hframe _ h.directorySector_not_mem.1
    have h₁ := h.toSystemFiles.congr (hframe _ h.freeMapSector_not_mem.1) hdirHdr
    obtain ⟨⟨e, hdirectory, hcases⟩, hframe'⟩ := directory_of_points h₁ hdir₁ (mem_points_map hd')
    rw [Disk.header_congr hdirHdr] at hframe'
    refine ⟨e, hdir, hused, hkey, hdirectory, ?_, fun t hmap hdir => (hframe t hmap).trans (hframe' t hdir)⟩
    rcases hcases with rfl | rfl | ⟨rfl, -⟩
    · exact .inl rfl
    · exact .inr rfl
    · right
      -- both halves of the entry hold the name
      have hsame := DirectoryEntry.torn_self old
      unfold DirectoryEntry.torn at hsame ⊢
      have hpadding := congrArg DirectoryEntry.padding hsame
      simp only at hpadding
      simp only [hpadding]

open BlockProgram DiskProgram in
/-- An aborted `Remove` has written nothing, or has begun to write. -/
theorem remove_points (h : Consistent fs d) (fresh : Fresh) (name : Image Byte)
    (hd' : d' ∈ (remove fs fresh name).points sectorDevice d) :
    d' = d ∨ ∃ pre post old e, HalfRemoved d name pre post old e d' := by
  unfold remove at hd'
  have hfetch := run_fetchDirectory (d := d) (Directory.new numDirEntries (fresh 0)) fs.directoryFile
  rw [h.fetchDirectory] at hfetch
  have hfetchMap := run_fetchBitMap (d := d) (FileSystem.newFreeMap (fresh 1)) fs.freeMapFile
  rw [h.fetchFreeMap] at hfetchMap
  rw [(readOnly_fetchDirectory _ _).points_bind hfetch] at hd'
  rcases d.directory.find_spec name with ⟨hfind, -, -⟩ | ⟨pre, old, post, hdir, hmatch, hfind, hremove⟩
  · simp only [hfind, if_true] at hd'
    exact .inl (List.mem_singleton.mp hd')
  right
  have he : old ∈ d.files := List.mem_filter.mpr ⟨by rw [hdir]; simp, hmatch.1⟩
  have hlt := h.allocated_lt _ (sectorsOf_allocated he List.mem_cons_self)
  have hint := FileHeader.toInt_of_lt hlt
  have hheader := run_fetchHeader (d := d) old.sector.toInt
  rw [hint, FileHeader.fetchFrom_eq d hlt] at hheader
  obtain ⟨m, m', hdeallocate, hclear, -, -⟩ := h.deallocate_spec he
  rw [hint] at hclear
  have hdeallocate' : (d.header old.sector.toNat).deallocate d.freeMap = some m := hdeallocate
  simp only [hfind, hint, hremove] at hd'
  rw [if_neg (by omega), (readOnly_fetchHeader _).points_bind hheader,
    (readOnly_fetchBitMap _ _).points_bind hfetchMap, hdeallocate'] at hd'
  change d' ∈ (lift (m.clear old.sector.toNat) >>= _ : DiskProgram Bool).points sectorDevice d at hd'
  rw [hclear] at hd'
  obtain ⟨e, hhalf⟩ := h.remove_writes hdir hmatch.1 hmatch.2 hd'
  exact ⟨pre, post, old, e, hhalf⟩

/-- The file system is sound then, and keeps the other files. -/
theorem HalfRemoved.sound (h : Consistent fs d) {name : Image Byte} {pre post : Directory} {old e : DirectoryEntry}
    (hhalf : HalfRemoved d name pre post old e d') :
    Sound fs d' ∧ ∀ f ∈ d.files, f.key ≠ fileName name → d.Keeps d' f := by
  have hfiles := Disk.files_append pre post hhalf.directory_old
  have hfiles' := Disk.files_append pre post hhalf.directory
  have hframe : ∀ t ∈ d.allocated, t ∉ (d.header freeMapSector).sectors → t ∉ (d.header directorySector).sectors →
      Disk.SameSector d d' t := fun t _ => hhalf.frame t
  rw [hhalf.inUse, if_pos rfl] at hfiles
  have hnames := h.names
  rw [hfiles] at hnames
  have hkept : d'.files.Sublist d.files := by
    rw [hfiles, hfiles']
    rcases hhalf.entry with rfl | rfl
    · rw [hhalf.inUse]
      exact List.Sublist.refl _
    · simp
  refine ⟨?_, ?_⟩
  · exact h.sound_of_files [] hkept (List.Perm.refl _) hframe (by simp) (by simp) (by simp)
  · intro f hf hne
    have hfold : f ≠ old := fun heq => hne (heq ▸ hhalf.key)
    refine ⟨?_, ?_⟩
    · rw [hfiles']
      have hsub : (pre.filter (·.inUse) ++ post.filter (·.inUse)).Sublist d.files := by
        rw [hfiles]
        simp
      apply find?_append_key
      · exact (hsub.map DirectoryEntry.key).nodup h.names
      · rw [hfiles] at hf
        simp only [List.mem_append, List.mem_singleton] at hf ⊢
        tauto
      · intro _ y hy hkey
        rcases hhalf.entry with rfl | rfl
        · rw [hhalf.inUse, if_pos rfl, List.mem_singleton] at hy
          exact hne (by rw [← hkey, hy, hhalf.key])
        · cases hy
    · intro t ht
      have hnot := h.not_mem_systemSectors hf ht
      simp only [Disk.systemSectors, List.mem_cons, List.mem_append, not_or] at hnot
      exact hframe t (sectorsOf_allocated hf ht) hnot.2.2.1 hnot.2.2.2

theorem HalfRemoved.tidy (h : Consistent fs d) (htidy : d.Tidy) {name : Image Byte} {pre post : Directory}
    {old e : DirectoryEntry} (hhalf : HalfRemoved d name pre post old e d') : d'.Tidy := by
  have hfiles := Disk.files_append pre post hhalf.directory_old
  rw [hhalf.inUse, if_pos rfl, List.append_assoc, List.singleton_append] at hfiles
  have hnames := h.names
  rw [hfiles, List.map_append, List.map_cons, List.nodup_append, List.nodup_cons] at hnames
  unfold Disk.Tidy at *
  rw [hhalf.directory_old, List.pairwise_append, List.pairwise_cons] at htidy
  obtain ⟨hpre, ⟨-, hpost⟩, hcross⟩ := htidy
  have hkey : e.key = old.key := by
    rcases hhalf.entry with rfl | rfl
    · rfl
    · rfl
  rw [hhalf.directory, List.pairwise_append, List.pairwise_cons]
  refine ⟨hpre, ⟨?_, hpost⟩, ?_⟩
  · intro f hf _ hused heq
    exact hnames.2.1.1 (List.mem_map.mpr ⟨f, List.mem_filter.mpr ⟨hf, hused⟩, heq.trans hkey⟩)
  · intro f hf g hg hfree hused
    rcases List.mem_cons.mp hg with rfl | hg
    · rw [hkey]
      exact hcross f hf old List.mem_cons_self hfree hhalf.inUse
    · exact hcross f hf g (List.mem_cons_of_mem _ hg) hfree hused

theorem keeps_volume (h : Consistent fs d) {f : DirectoryEntry} (hf : f ∈ d.files) (hkeeps : d.Keeps d' f) :
    d'.volume f.key = d.volume f.key := by
  rw [Disk.volume_key h hf]
  unfold Disk.volume
  rw [hkeeps.find, Option.map_some, Disk.headerOf_congr (hkeeps.sectors _ List.mem_cons_self)]
  refine congrArg some (FileHeader.contents_congr (h.wellFormed f hf) ?_)
  intro t ht
  exact hkeeps.sectors t (List.mem_cons_of_mem _ ht)

/-- An aborted `Create` keeps the volume, or there is one new file. It has the name of the call, or the name that the
seventh entry of the directory has kept. -/
theorem HalfCreated.volume (h : Consistent fs d) (htidy : d.Tidy) {name : Image Byte} {size s : Nat}
    {pre post : Directory} {old e : DirectoryEntry} (hhalf : HalfCreated d name size pre post old e s d') :
    d'.volume = d.volume ∨ ∃ key contents, contents.length = size ∧ d.volume key = none ∧
      d'.volume = Function.update d.volume key (some contents) ∧ (key = fileName name ∨ d.staleName = some key) := by
  obtain ⟨-, hkeeps⟩ := hhalf.sound h htidy
  have hfiles := Disk.files_append pre post hhalf.directory_old
  have hfiles' := Disk.files_append pre post hhalf.directory
  rw [hhalf.free] at hfiles
  -- a file is an old one or the new one
  have hcases : ∀ f ∈ d'.files, f ∈ d.files ∨ f = e := by
    intro f hf
    rw [hfiles'] at hf
    rw [hfiles]
    split at hf
    · simp only [List.mem_append, List.mem_singleton] at hf ⊢
      tauto
    · simp only [List.append_nil, List.mem_append] at hf ⊢
      tauto
  have hsame : ∀ key, (e.inUse = true → d.volume key = none → e.key ≠ key) → d'.volume key = d.volume key := by
    intro key hne
    rcases Disk.volume_cases h key with ⟨hnone, hall⟩ | ⟨f, hf, rfl, -⟩
    · rw [hnone]
      apply Disk.volume_eq_none
      intro f hf
      rcases hcases f hf with hold | rfl
      · exact hall f hold
      · exact hne (List.mem_filter.mp hf).2 hnone
    · exact h.keeps_volume hf (hkeeps f hf)
  rcases hhalf.entry with rfl | ⟨hused, hsector, hkey⟩
  · left
    funext key
    apply hsame
    intro hused
    rw [hhalf.free] at hused
    cases hused
  by_cases hnone : d.volume e.key = none
  · right
    refine ⟨e.key, (d'.headerOf e).contents d', ?_, hnone, ?_, ?_⟩
    · rw [FileHeader.length_contents]
      unfold Disk.headerOf
      rw [hsector, hhalf.size_eq]
    · funext key
      by_cases hk : key = e.key
      · subst hk
        rw [Function.update_self]
        have he : e ∈ d'.files := by
          rw [hfiles', hused]
          simp
        unfold Disk.volume
        cases hfind : d'.files.find? fun f => f.key = e.key with
        | none => exact absurd (decide_eq_true rfl) (List.find?_eq_none.mp hfind e he)
        | some f =>
            have hfkey : f.key = e.key := by simpa using List.find?_some hfind
            rcases hcases f (List.mem_of_find?_eq_some hfind) with hold | rfl
            · rw [← hfkey, Disk.volume_key h hold] at hnone
              cases hnone
            · rfl
      · rw [Function.update_of_ne hk]
        exact hsame key fun _ _ heq => hk heq.symm
    · rcases hkey with hkey | ⟨hkey, hlen⟩
      · exact .inl hkey
      · right
        rw [hkey]
        exact Disk.staleName_eq hhalf.directory_old hlen hhalf.first hhalf.free
  · left
    funext key
    apply hsame
    rintro - hvolume rfl
    exact hnone hvolume

/-- An aborted `Remove` removes the file or keeps it. -/
theorem HalfRemoved.volume (h : Consistent fs d) {name : Image Byte} {pre post : Directory} {old e : DirectoryEntry}
    (hhalf : HalfRemoved d name pre post old e d') :
    d'.volume = d.volume ∨ d'.volume = Function.update d.volume (fileName name) none := by
  obtain ⟨-, hkeeps⟩ := hhalf.sound h
  have hfiles := Disk.files_append pre post hhalf.directory_old
  have hfiles' := Disk.files_append pre post hhalf.directory
  rw [hhalf.inUse, if_pos rfl] at hfiles
  have hsub : ∀ f ∈ d'.files, f ∈ d.files := by
    intro f hf
    rw [hfiles]
    rw [hfiles'] at hf
    rcases hhalf.entry with rfl | rfl
    · rwa [hhalf.inUse, if_pos rfl] at hf
    · simp only [Bool.false_eq_true, if_false, List.append_nil, List.mem_append] at hf
      simp only [List.mem_append]
      tauto
  have hother : ∀ key, key ≠ fileName name → d'.volume key = d.volume key := by
    intro key hne
    rcases Disk.volume_cases h key with ⟨hnone, hall⟩ | ⟨f, hf, rfl, -⟩
    · rw [hnone]
      exact Disk.volume_eq_none fun f hf => hall f (hsub f hf)
    · exact h.keeps_volume hf (hkeeps f hf hne)
  rcases hhalf.entry with rfl | rfl
  · left
    funext key
    by_cases hkey : key = fileName name
    · have hold : e ∈ d.files := by
        rw [hfiles]
        simp
      rw [hkey, ← hhalf.key]
      apply h.keeps_volume hold
      refine ⟨?_, ?_⟩
      · have hsame : d'.files = d.files := by rw [hfiles, hfiles', hhalf.inUse, if_pos rfl]
        rw [hsame]
        exact Disk.find?_key h.names hold
      · intro t ht
        have hnot := h.not_mem_systemSectors hold ht
        simp only [Disk.systemSectors, List.mem_cons, List.mem_append, not_or] at hnot
        exact hhalf.frame t hnot.2.2.1 hnot.2.2.2
    · exact hother key hkey
  · right
    funext key
    by_cases hkey : key = fileName name
    · rw [hkey, Function.update_self]
      apply Disk.volume_eq_none
      intro f hf heq
      rw [hfiles'] at hf
      simp only [Bool.false_eq_true, if_false, List.append_nil, List.mem_append] at hf
      have hnames := h.names
      rw [hfiles, List.append_assoc, List.singleton_append, List.map_append, List.map_cons, List.nodup_append,
        List.nodup_cons] at hnames
      rw [← hhalf.key] at heq
      rcases hf with hf | hf
      · exact hnames.2.2 _ (List.mem_map_of_mem hf) _ List.mem_cons_self heq
      · exact hnames.2.1.1 (List.mem_map.mpr ⟨f, hf, heq⟩)
    · rw [Function.update_of_ne hkey]
      exact hother key hkey

end Consistent

/-- What the volume shows can be read. -/
theorem Sound.reads {fs : FileSystem} {d : Disk} (h : Sound fs d) (fresh : Fresh) (name : Image Byte) :
    (d.volume (fileName name) = none ∧ fs.openFile d fresh name = some none) ∨
      ∃ contents file, d.volume (fileName name) = some contents ∧ fs.openFile d fresh name = some (some file) ∧
        ∀ numBytes (position : Nat),
          file.readAt d numBytes position = some ((contents.drop position).take numBytes.toNat) := by
  rw [h.openFile_eq]
  unfold Disk.volume
  cases hfind : d.files.find? fun e => e.key = fileName name with
  | none => exact .inl ⟨rfl, rfl⟩
  | some e =>
      have hwell := h.wellFormed e (List.mem_of_find?_eq_some hfind)
      exact .inr ⟨_, _, rfl, rfl, fun numBytes position =>
        OpenFile.readAt_contents (f := ⟨d.headerOf e, 0⟩) hwell d numBytes position⟩

end Nachos

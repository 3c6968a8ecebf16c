import Mathlib.Data.List.Perm.Basic
import Nachos.FileSystem

/-! The file system keeps its disk consistent: every operation takes the sectors of a file from the free map
or gives them back, and writes to nothing but the sectors of the files it is about. -/

namespace Nachos

open FileHeader (Taken)

namespace Consistent

variable {fs : FileSystem} {d d' : Disk}

theorem systemSectors_allocated {s : Nat} (hs : s ∈ d.systemSectors) : s ∈ d.allocated :=
  List.mem_append_left _ hs

theorem sectorsOf_allocated {e : DirectoryEntry} (he : e ∈ d.files) {s : Nat} (hs : s ∈ d.sectorsOf e) :
    s ∈ d.allocated :=
  List.mem_append_right _ (List.mem_flatMap.mpr ⟨e, he, hs⟩)

/-- A file shares no sector with the free map and the directory. -/
theorem not_mem_systemSectors (h : Consistent fs d) {e : DirectoryEntry} (he : e ∈ d.files) {s : Nat}
    (hs : s ∈ d.sectorsOf e) : s ∉ d.systemSectors := by
  intro hsystem
  exact List.disjoint_of_nodup_append h.allocated_nodup hsystem (List.mem_flatMap.mpr ⟨e, he, hs⟩)

/-- Two files share no sector. -/
theorem sectorsOf_disjoint (h : Consistent fs d) {e e' : DirectoryEntry} (he : e ∈ d.files) (he' : e' ∈ d.files)
    {s : Nat} (hs : s ∈ d.sectorsOf e) (hs' : s ∈ d.sectorsOf e') : e = e' := by
  have hpair := (List.nodup_flatMap.mp (List.nodup_append.mp h.allocated_nodup).2.1).2
  have hsymm : Std.Symm (Function.onFun List.Disjoint d.sectorsOf) := ⟨fun _ _ hdisjoint _ hs hs' => hdisjoint hs' hs⟩
  by_contra hne
  exact hpair.forall he he' hne hs hs'

end Consistent

namespace Disk

variable {d d' : Disk}

theorem headerOf_congr {e : DirectoryEntry} (h : SameSector d d' e.sector.toNat) : d'.headerOf e = d.headerOf e :=
  header_congr h

theorem sectorsOf_congr {e : DirectoryEntry} (h : SameSector d d' e.sector.toNat) :
    d'.sectorsOf e = d.sectorsOf e := by
  unfold sectorsOf
  rw [headerOf_congr h]

theorem systemSectors_congr (hmap : SameSector d d' freeMapSector) (hdir : SameSector d d' directorySector) :
    d'.systemSectors = d.systemSectors := by
  unfold systemSectors
  rw [header_congr hmap, header_congr hdir]

theorem files_append (pre post : Directory) {e : DirectoryEntry} (h : d.directory = pre ++ e :: post) :
    d.files = pre.filter (·.inUse) ++ (if e.inUse then [e] else []) ++ post.filter (·.inUse) := by
  unfold files
  rw [h, List.filter_append, List.filter_cons]
  split_ifs <;> simp

end Disk

namespace SystemFiles

variable {fs : FileSystem} {d d' : Disk}

/-- The directory depends on the sectors of its file. -/
theorem directory_congr (h : SystemFiles fs d) (hhdr : Disk.SameSector d d' directorySector)
    (hdata : ∀ s ∈ (d.header directorySector).sectors, Disk.SameSector d d' s) : d'.directory = d.directory := by
  unfold Disk.directory
  rw [Disk.header_congr hhdr]
  apply OpenFile.readArray_image_congr DirectoryEntry.layout h.directory_wellFormed _ hdata
  rw [h.directory_size]
  rfl

/-- The free map depends on the sectors of its file. -/
theorem freeMap_congr (h : SystemFiles fs d) (hhdr : Disk.SameSector d d' freeMapSector)
    (hdata : ∀ s ∈ (d.header freeMapSector).sectors, Disk.SameSector d d' s) : d'.freeMap = d.freeMap := by
  apply BitMap.eq_of_map
  · rfl
  · unfold Disk.freeMap
    simp only
    rw [Disk.header_congr hhdr]
    apply OpenFile.readArray_image_congr Layout.littleEndian h.freeMap_wellFormed _ hdata
    rw [h.freeMap_size]
    rfl

theorem freeMapSector_not_mem (h : SystemFiles fs d) :
    freeMapSector ∉ (d.header freeMapSector).sectors ∧ freeMapSector ∉ (d.header directorySector).sectors := by
  have hnodup := h.nodup
  simp only [Disk.systemSectors, List.nodup_cons, List.mem_cons, List.mem_append, not_or] at hnodup
  exact hnodup.1.2

theorem directorySector_not_mem (h : SystemFiles fs d) :
    directorySector ∉ (d.header freeMapSector).sectors ∧ directorySector ∉ (d.header directorySector).sectors := by
  have hnodup := h.nodup
  simp only [Disk.systemSectors, List.nodup_cons, List.mem_append, not_or] at hnodup
  exact hnodup.2.1

theorem sectors_disjoint (h : SystemFiles fs d) :
    (d.header freeMapSector).sectors.Disjoint (d.header directorySector).sectors := by
  have hnodup := h.nodup
  simp only [Disk.systemSectors, List.nodup_cons] at hnodup
  exact List.disjoint_of_nodup_append hnodup.2.2

/-- The directory and the free map are written to the disk, and nothing else. -/
structure Flushed (d : Disk) (dir : Directory) (m : BitMap) (d' : Disk) : Prop where
  directory : d'.directory = dir
  freeMap : d'.freeMap = m
  frame : ∀ s, s ∉ (d.header freeMapSector).sectors → s ∉ (d.header directorySector).sectors →
    Disk.SameSector d d' s

/-- The order of `Create`. -/
theorem flush_directory_first (h : SystemFiles fs d) (memory memory' : Image Byte) {dir : Directory} {m : BitMap}
    (hlen : dir.length = numDirEntries) (hbits : m.numBits = numSectors) :
    ∃ d₁ d', dir.writeBack fs.directoryFile d memory = some d₁ ∧
      m.writeBack fs.freeMapFile d₁ memory' = some d' ∧ Flushed d dir m d' := by
  obtain ⟨d₁, hwrite, hdir, hframe⟩ := h.writeDirectory memory hlen
  have hmapHdr := hframe _ h.freeMapSector_not_mem.2
  have hdirHdr := hframe _ h.directorySector_not_mem.2
  have h₁ : SystemFiles fs d₁ := h.congr hmapHdr hdirHdr
  obtain ⟨d', hwrite', hmap, hframe'⟩ := h₁.writeFreeMap memory' hbits
  rw [Disk.header_congr hmapHdr] at hframe'
  refine ⟨d₁, d', hwrite, hwrite', ?_, hmap, ?_⟩
  · rw [← hdir]
    apply h₁.directory_congr (hframe' _ h.directorySector_not_mem.1)
    intro s hs
    rw [Disk.header_congr hdirHdr] at hs
    exact hframe' s (fun hmap => h.sectors_disjoint hmap hs)
  · intro s hs hs'
    exact (hframe s hs').trans (hframe' s hs)

/-- The order of `Remove`. -/
theorem flush_freeMap_first (h : SystemFiles fs d) (memory memory' : Image Byte) {dir : Directory} {m : BitMap}
    (hlen : dir.length = numDirEntries) (hbits : m.numBits = numSectors) :
    ∃ d₁ d', m.writeBack fs.freeMapFile d memory = some d₁ ∧
      dir.writeBack fs.directoryFile d₁ memory' = some d' ∧ Flushed d dir m d' := by
  obtain ⟨d₁, hwrite, hmap, hframe⟩ := h.writeFreeMap memory hbits
  have hmapHdr := hframe _ h.freeMapSector_not_mem.1
  have hdirHdr := hframe _ h.directorySector_not_mem.1
  have h₁ : SystemFiles fs d₁ := h.congr hmapHdr hdirHdr
  obtain ⟨d', hwrite', hdir, hframe'⟩ := h₁.writeDirectory memory' hlen
  rw [Disk.header_congr hdirHdr] at hframe'
  refine ⟨d₁, d', hwrite, hwrite', hdir, ?_, ?_⟩
  · rw [← hmap]
    apply h₁.freeMap_congr (hframe' _ h.freeMapSector_not_mem.2)
    intro s hs
    rw [Disk.header_congr hmapHdr] at hs
    exact hframe' s (fun hdir => h.sectors_disjoint hs hdir)
  · intro s hs hs'
    exact (hframe s hs).trans (hframe' s hs')

end SystemFiles

namespace Consistent

variable {fs : FileSystem} {d d' : Disk}

/-- A file becomes part of the file system: its sectors were free, and it was written without touching the
sectors of another file. -/
theorem extend (h : Consistent fs d) {pre post : Directory} {e e' : DirectoryEntry} {m' : BitMap}
    (hdir : d.directory = pre ++ e :: post) (hfree : e.inUse = false) (hused : e'.inUse = true)
    (hkey : ∀ f ∈ d.files, f.key ≠ e'.key) (hdir' : d'.directory = pre ++ e' :: post) (hmap' : d'.freeMap = m')
    (htaken : Taken d.freeMap m' (d'.sectorsOf e')) (hwell : (d'.headerOf e').WellFormed)
    (hsame : ∀ s ∈ d.allocated, s ∉ (d.header freeMapSector).sectors →
      s ∉ (d.header directorySector).sectors → Disk.SameSector d d' s) :
    Consistent fs d' ∧ d'.files.Perm (e' :: d.files) ∧ d'.allocated.Perm (d'.sectorsOf e' ++ d.allocated) := by
  have hsystem : ∀ s, s = freeMapSector ∨ s = directorySector → Disk.SameSector d d' s := by
    rintro s (rfl | rfl)
    · exact hsame _ (systemSectors_allocated (by simp [Disk.systemSectors])) h.freeMapSector_not_mem.1
        h.freeMapSector_not_mem.2
    · exact hsame _ (systemSectors_allocated (by simp [Disk.systemSectors])) h.directorySector_not_mem.1
        h.directorySector_not_mem.2
  have hfile : ∀ f ∈ d.files, ∀ s ∈ d.sectorsOf f, Disk.SameSector d d' s := by
    intro f hf s hs
    have hnot := h.not_mem_systemSectors hf hs
    simp only [Disk.systemSectors, List.mem_cons, List.mem_append, not_or] at hnot
    exact hsame s (sectorsOf_allocated hf hs) hnot.2.2.1 hnot.2.2.2
  have hperm : d'.files.Perm (e' :: d.files) := by
    rw [Disk.files_append pre post hdir, Disk.files_append pre post hdir', hfree, hused]
    simp
  have hsectors : ∀ f ∈ d.files, d'.sectorsOf f = d.sectorsOf f := fun f hf =>
    Disk.sectorsOf_congr (hfile f hf _ List.mem_cons_self)
  have hallocated : d'.allocated.Perm (d'.sectorsOf e' ++ d.allocated) := by
    unfold Disk.allocated
    rw [Disk.systemSectors_congr (hsystem _ (.inl rfl)) (hsystem _ (.inr rfl))]
    have hflat : (d'.files.flatMap d'.sectorsOf).Perm (d'.sectorsOf e' ++ d.files.flatMap d.sectorsOf) := by
      refine (hperm.flatMap_right d'.sectorsOf).trans ?_
      rw [List.flatMap_cons, List.flatMap_congr hsectors]
    refine (List.Perm.append_left _ hflat).trans ?_
    rw [← List.append_assoc, ← List.append_assoc]
    exact List.Perm.append_right _ List.perm_append_comm
  have hfresh : ∀ s ∈ d'.sectorsOf e', s ∉ d.allocated := by
    intro s hs hin
    obtain ⟨hlt, hclear⟩ := htaken.clear s hs
    rw [(h.bit s hlt).mpr hin] at hclear
    cases hclear
  refine ⟨⟨h.toSystemFiles.congr (hsystem _ (.inl rfl)) (hsystem _ (.inr rfl)), ?_, ?_, ?_, ?_, ?_⟩, hperm,
    hallocated⟩
  · intro f hf
    rcases List.mem_cons.mp (hperm.mem_iff.mp hf) with rfl | hf
    · exact hwell
    · rw [Disk.headerOf_congr (hfile f hf _ List.mem_cons_self)]
      exact h.wellFormed f hf
  · rw [(hperm.map DirectoryEntry.key).nodup_iff, List.map_cons, List.nodup_cons]
    refine ⟨?_, h.names⟩
    intro hmem
    obtain ⟨f, hf, heq⟩ := List.mem_map.mp hmem
    exact hkey f hf heq
  · rw [hallocated.nodup_iff, List.nodup_append]
    exact ⟨htaken.nodup, h.allocated_nodup, fun s hs t ht heq => hfresh s hs (heq ▸ ht)⟩
  · intro s hs
    rcases List.mem_append.mp (hallocated.mem_iff.mp hs) with hs | hs
    · exact (htaken.clear s hs).1
    · exact h.allocated_lt s hs
  · intro s hs
    rw [hmap', htaken.bit, Bool.or_eq_true, decide_eq_true_iff, h.bit s hs, hallocated.mem_iff, List.mem_append]

/-- What `Create` needs: the name is new, the directory has a free entry, and there are sectors for the
header and the data. -/
structure Creatable (d : Disk) (name : Image Byte) (size : Nat) : Prop where
  name_new : ∀ e ∈ d.files, e.key ≠ fileName name
  entry_free : ∃ e ∈ d.directory, e.inUse = false
  sectors_free : 1 + divRoundUp size sectorSize ≤ d.freeMap.numClear

/-- What a successful `Create` does. -/
structure Created (fs : FileSystem) (d : Disk) (fresh : Fresh) (name : Image Byte) (size : Nat)
    (e : DirectoryEntry) (d' : Disk) : Prop where
  consistent : Consistent fs d'
  files : d'.files.Perm (e :: d.files)
  key : e.key = fileName name
  size_eq : (d'.headerOf e).numBytes.toNat = size
  header : ∃ m, (FileSystem.newHeader (fresh 2)).allocate d.freeMap.find.2 size = some (true, d'.headerOf e, m)
  frame : ∀ f ∈ d.files, ∀ s ∈ d.sectorsOf f, Disk.SameSector d d' s
  allocated : d'.allocated.Perm (d'.sectorsOf e ++ d.allocated)

theorem not_matches_iff {name : Image Byte} :
    (∀ e ∈ d.directory, ¬Directory.Matches name e) ↔ ∀ e ∈ d.files, e.key ≠ fileName name := by
  constructor
  · intro h e he hkey
    obtain ⟨he, hused⟩ := List.mem_filter.mp he
    exact h e he ⟨hused, hkey⟩
  · rintro h e he ⟨hused, hkey⟩
    exact h e (List.mem_filter.mpr ⟨he, hused⟩) hkey

theorem sector_toNat {s : Nat} (hs : s < numSectors) : (BitVec.ofInt 32 (s : Int)).toNat = s := by
  rw [BitVec.ofInt_natCast, BitVec.toNat_ofNat]
  simp only [numSectors] at hs
  omega

/-- The three writes of `Create`, once everything is found. -/
theorem create_flush (h : Consistent fs d) (fresh : Fresh) {name : Image Byte} {size s : Nat} {m : BitMap}
    {hdr : FileHeader} {pre post : Directory} {e e' : DirectoryEntry}
    (hnone : ∀ f ∈ d.files, f.key ≠ fileName name) (hdir : d.directory = pre ++ e :: post)
    (hfree : e.inUse = false) (hnew : Directory.IsNew name s e') (hwell : hdr.WellFormed)
    (hsize : hdr.numBytes.toNat = size) (htaken : Taken d.freeMap m (s :: hdr.sectors))
    (hallocate : (FileSystem.newHeader (fresh 2)).allocate d.freeMap.find.2 size = some (true, hdr, m)) :
    ∃ d₁ d₂ d', hdr.writeBack d s = some d₁ ∧
      Directory.writeBack (pre ++ e' :: post) fs.directoryFile d₁ (fresh 3) = some d₂ ∧
      m.writeBack fs.freeMapFile d₂ (fresh 4) = some d' ∧ Created fs d fresh name size e' d' := by
  obtain ⟨hs, hclear⟩ := htaken.clear s List.mem_cons_self
  have hs : s < numSectors := hs
  have hunused : s ∉ d.allocated := by
    intro hin
    rw [(h.bit s hs).mpr hin] at hclear
    cases hclear
  have hother : ∀ t ∈ d.allocated, Disk.SameSector d (d.withSector s (FileHeader.layout.cells hdr)) t :=
    fun t ht => d.sameSector_withSector _ (fun heq => hunused (heq ▸ ht))
  have hmapHdr := hother freeMapSector (systemSectors_allocated (by simp [Disk.systemSectors]))
  have hdirHdr := hother directorySector (systemSectors_allocated (by simp [Disk.systemSectors]))
  have h₁ := h.toSystemFiles.congr hmapHdr hdirHdr
  have hlen : (pre ++ e' :: post).length = numDirEntries := by
    have hold : d.directory.length = numDirEntries := Layout.length_readArray _
    rw [hdir] at hold
    simpa using hold
  obtain ⟨d₂, d', hwriteDir, hwriteMap, hflushed⟩ := h₁.flush_directory_first (fresh 3) (fresh 4) hlen
    (htaken.numBits_eq.trans rfl)
  have hframe := hflushed.frame
  rw [Disk.header_congr hmapHdr, Disk.header_congr hdirHdr] at hframe
  have hsystem : s ∉ d.systemSectors := fun hin => hunused (systemSectors_allocated hin)
  simp only [Disk.systemSectors, List.mem_cons, List.mem_append, not_or] at hsystem
  have hsector : e'.sector.toNat = s := by rw [hnew.sector, sector_toNat hs]
  have hheader : d'.headerOf e' = hdr := by
    unfold Disk.headerOf
    rw [hsector, Disk.header_congr (hframe s hsystem.2.2.1 hsystem.2.2.2), Disk.header_withSector]
  have hsectors : d'.sectorsOf e' = s :: hdr.sectors := by
    unfold Disk.sectorsOf
    rw [hheader, hsector]
  have hsame : ∀ t ∈ d.allocated, t ∉ (d.header freeMapSector).sectors →
      t ∉ (d.header directorySector).sectors → Disk.SameSector d d' t :=
    fun t ht hnotMap hnotDir => (hother t ht).trans (hframe t hnotMap hnotDir)
  obtain ⟨hconsistent, hperm, hallocated⟩ := h.extend hdir hfree hnew.inUse (by rw [hnew.key]; exact hnone)
    hflushed.directory hflushed.freeMap (hsectors ▸ htaken) (hheader ▸ hwell) hsame
  refine ⟨_, d₂, d', hdr.writeBack_eq d hs, hwriteDir, hwriteMap, hconsistent, hperm, hnew.key, ?_, ?_, ?_,
    hallocated⟩
  · rw [hheader, hsize]
  · exact ⟨m, by rw [hheader]; exact hallocate⟩
  · intro f hf t ht
    have hnot := h.not_mem_systemSectors hf ht
    simp only [Disk.systemSectors, List.mem_cons, List.mem_append, not_or] at hnot
    exact hsame t (sectorsOf_allocated hf ht) hnot.2.2.1 hnot.2.2.2

/-- `Create` succeeds exactly when there is room, and writes nothing when it fails. -/
theorem create_spec (h : Consistent fs d) (fresh : Fresh) (name : Image Byte) {size : Nat}
    (hsize : size ≤ maxFileSize) :
    (¬Creatable d name size ∧ fs.create d fresh name size = some (false, d)) ∨
      (Creatable d name size ∧ ∃ d' e, fs.create d fresh name size = some (true, d') ∧
        Created fs d fresh name size e d') := by
  unfold FileSystem.create
  rw [h.fetchDirectory, h.fetchFreeMap]
  simp only [Option.bind_eq_bind, Option.bind_some]
  rcases d.directory.find_spec name with ⟨hfind, hindex, hnone⟩ | ⟨pre, e, post, hdir, hmatch, hfind, -⟩
  case inr =>
    have he : e ∈ d.files := List.mem_filter.mpr ⟨by rw [hdir]; simp, hmatch.1⟩
    have hlt := h.allocated_lt _ (sectorsOf_allocated he List.mem_cons_self)
    rw [FileHeader.toInt_of_lt hlt] at hfind
    left
    refine ⟨fun hcreatable => hcreatable.name_new e he hmatch.2, ?_⟩
    rw [if_pos (by omega)]
  rw [if_neg (not_not.mpr hfind)]
  rcases d.freeMap.find_spec with ⟨hfull, hall⟩ | ⟨s, hs, hclear, hsector⟩
  · left
    refine ⟨?_, by rw [hfull]; rfl⟩
    intro hcreatable
    obtain ⟨i, hi, hbit⟩ := BitMap.numClear_pos_iff.mp
      (show 0 < d.freeMap.numClear from Nat.lt_of_lt_of_le (by omega) hcreatable.sectors_free)
    rw [hall i hi] at hbit
    cases hbit
  rw [hsector]
  simp only
  rw [if_neg (by omega)]
  have hadd : d.directory.add name ↑s = Directory.addEntry name ↑s d.directory := if_neg (not_not.mpr hindex)
  rcases Directory.addEntry_spec name ↑s d.directory with
    ⟨hnoEntry, hallUsed⟩ | ⟨pre, e, e', post, hdir, hfree, hnew, hentry⟩
  · left
    refine ⟨?_, by rw [hadd, hnoEntry]; rfl⟩
    intro hcreatable
    obtain ⟨e, he, hfree⟩ := hcreatable.entry_free
    rw [hallUsed e he] at hfree
    cases hfree
  rw [hadd, hentry]
  have hnum := BitMap.numClear_setBit hs hclear
  rcases (FileSystem.newHeader (fresh 2)).allocate_spec hsize (show (d.freeMap.setBit s).numBits = numSectors from rfl)
    with ⟨hfew, hdr, hallocate⟩ | ⟨henough, hdr, m, hallocate, hwell, hbytes, htaken⟩
  · left
    refine ⟨?_, by rw [hallocate]; rfl⟩
    intro hcreatable
    have := hcreatable.sectors_free
    omega
  · right
    have hkeys := not_matches_iff.mp hnone
    obtain ⟨d₁, d₂, d', hwriteHdr, hwriteDir, hwriteMap, hcreated⟩ := h.create_flush fresh hkeys hdir hfree hnew
      hwell hbytes (.cons hs hclear htaken) (by rw [hsector]; exact hallocate)
    refine ⟨⟨hkeys, ⟨e, by rw [hdir]; simp, hfree⟩, by omega⟩, d', e', ?_, hcreated⟩
    rw [hallocate]
    simp [hwriteHdr, hwriteDir, hwriteMap]

/-- What a successful `Remove` does. -/
structure Removed (fs : FileSystem) (d : Disk) (e : DirectoryEntry) (d' : Disk) : Prop where
  consistent : Consistent fs d'
  files : d.files.Perm (e :: d'.files)
  frame : ∀ s, s ∉ (d.header freeMapSector).sectors → s ∉ (d.header directorySector).sectors →
    Disk.SameSector d d' s
  allocated : d.allocated.Perm (d.sectorsOf e ++ d'.allocated)

/-- A file is taken out of the file system, and its sectors are free again. -/
theorem shrink (h : Consistent fs d) {pre post : Directory} {e : DirectoryEntry} {m' : BitMap}
    (hdir : d.directory = pre ++ e :: post) (hused : e.inUse = true)
    (hbit : ∀ s, m'.bit s = (!decide (s ∈ d.sectorsOf e) && d.freeMap.bit s))
    (hflushed : SystemFiles.Flushed d (pre ++ { e with inUse := false } :: post) m' d') : Removed fs d e d' := by
  have hmapHdr := hflushed.frame _ h.freeMapSector_not_mem.1 h.freeMapSector_not_mem.2
  have hdirHdr := hflushed.frame _ h.directorySector_not_mem.1 h.directorySector_not_mem.2
  have hperm : d.files.Perm (e :: d'.files) := by
    rw [Disk.files_append pre post hdir, Disk.files_append pre post hflushed.directory, hused]
    simp
  have hsub : ∀ f ∈ d'.files, f ∈ d.files := fun f hf => hperm.mem_iff.mpr (List.mem_cons_of_mem e hf)
  have hheader : ∀ f ∈ d'.files, Disk.SameSector d d' f.sector.toNat := by
    intro f hf
    have hnot := h.not_mem_systemSectors (hsub f hf) List.mem_cons_self
    simp only [Disk.systemSectors, List.mem_cons, List.mem_append, not_or] at hnot
    exact hflushed.frame _ hnot.2.2.1 hnot.2.2.2
  have hallocated : d.allocated.Perm (d.sectorsOf e ++ d'.allocated) := by
    unfold Disk.allocated
    rw [Disk.systemSectors_congr hmapHdr hdirHdr,
      List.flatMap_congr (fun f hf => Disk.sectorsOf_congr (hheader f hf))]
    refine (List.Perm.append_left _ (hperm.flatMap_right d.sectorsOf)).trans ?_
    rw [List.flatMap_cons, ← List.append_assoc, ← List.append_assoc]
    exact List.Perm.append_right _ List.perm_append_comm
  have hnodup := hallocated.nodup_iff.mp h.allocated_nodup
  refine ⟨⟨h.toSystemFiles.congr hmapHdr hdirHdr, ?_, ?_, ?_, ?_, ?_⟩, hperm, hflushed.frame, hallocated⟩
  · intro f hf
    rw [Disk.headerOf_congr (hheader f hf)]
    exact h.wellFormed f (hsub f hf)
  · have hnames := (hperm.map DirectoryEntry.key).nodup_iff.mp h.names
    rw [List.map_cons, List.nodup_cons] at hnames
    exact hnames.2
  · exact (List.nodup_append.mp hnodup).2.1
  · intro s hs
    exact h.allocated_lt s (hallocated.mem_iff.mpr (List.mem_append_right _ hs))
  · intro s hs
    have hmem := h.bit s hs
    rw [hallocated.mem_iff, List.mem_append] at hmem
    rw [hflushed.freeMap, hbit]
    simp only [Bool.and_eq_true, Bool.not_eq_true', decide_eq_false_iff_not, hmem]
    constructor
    · rintro ⟨hnot, hin | hin⟩
      · exact absurd hin hnot
      · exact hin
    · intro hin
      exact ⟨fun hs => List.disjoint_of_nodup_append hnodup hs hin, .inr hin⟩

/-- The sectors of a file are marked, so that `Deallocate` and `Clear` pass their assertions. -/
theorem deallocate_spec (h : Consistent fs d) {e : DirectoryEntry} (he : e ∈ d.files) :
    ∃ m m', (d.headerOf e).deallocate d.freeMap = some m ∧ m.clear e.sector.toInt = some m' ∧
      m'.numBits = numSectors ∧ ∀ s, m'.bit s = (!decide (s ∈ d.sectorsOf e) && d.freeMap.bit s) := by
  have hwell := h.wellFormed e he
  have hlt := h.allocated_lt _ (sectorsOf_allocated he List.mem_cons_self)
  obtain ⟨m, hdeallocate, hnum, hbit⟩ := FileHeader.deallocate_spec hwell (show d.freeMap.numBits = numSectors from rfl)
    (fun s hs => (h.bit s (hwell.sector_lt s hs)).mpr (sectorsOf_allocated he (List.mem_cons_of_mem _ hs)))
  have hnum : m.numBits = numSectors := hnum
  have hclear : m.clear e.sector.toInt = some (m.clearBit e.sector.toNat) := by
    unfold BitMap.clear
    rw [FileHeader.toInt_of_lt hlt, if_pos (by omega), Int.toNat_natCast]
  refine ⟨m, m.clearBit e.sector.toNat, hdeallocate, hclear, hnum, ?_⟩
  intro s
  rw [BitMap.bit_clearBit (by omega), hbit]
  unfold Disk.sectorsOf
  by_cases hs : s = e.sector.toNat <;> simp [hs]

/-- `Remove` succeeds exactly when the name is there, and writes nothing when it fails. -/
theorem remove_spec (h : Consistent fs d) (fresh : Fresh) (name : Image Byte) :
    ((∀ e ∈ d.files, e.key ≠ fileName name) ∧ fs.remove d fresh name = some (false, d)) ∨
      ∃ e ∈ d.files, e.key = fileName name ∧ ∃ d', fs.remove d fresh name = some (true, d') ∧ Removed fs d e d' := by
  unfold FileSystem.remove
  rw [h.fetchDirectory, h.fetchFreeMap]
  simp only [Option.bind_eq_bind, Option.bind_some]
  rcases d.directory.find_spec name with ⟨hfind, hindex, hnone⟩ | ⟨pre, e, post, hdir, hmatch, hfind, hremove⟩
  · left
    refine ⟨not_matches_iff.mp hnone, ?_⟩
    rw [if_pos hfind]
  · right
    have he : e ∈ d.files := List.mem_filter.mpr ⟨by rw [hdir]; simp, hmatch.1⟩
    have hlt := h.allocated_lt _ (sectorsOf_allocated he List.mem_cons_self)
    have hint := FileHeader.toInt_of_lt hlt
    obtain ⟨m, m', hdeallocate, hclear, hnum, hbit⟩ := h.deallocate_spec he
    have hlen : (pre ++ { e with inUse := false } :: post).length = numDirEntries := by
      have hold : d.directory.length = numDirEntries := Layout.length_readArray _
      rw [hdir] at hold
      simpa using hold
    obtain ⟨d₁, d', hwriteMap, hwriteDir, hflushed⟩ := h.flush_freeMap_first (fresh 2) (fresh 3) hlen hnum
    refine ⟨e, he, hmatch.2, d', ?_, h.shrink hdir hmatch.1 hbit hflushed⟩
    have hfetch : FileHeader.fetchFrom d e.sector.toInt = some (d.headerOf e) := by
      rw [hint, FileHeader.fetchFrom_eq d hlt]
      rfl
    rw [hfind, if_neg (by omega), hfetch, hremove]
    simp only [Option.bind_some, hdeallocate, hclear, hwriteMap, hwriteDir]

/-- `Open` brings in the header of the file under the name. -/
theorem openFile_spec (h : Consistent fs d) (fresh : Fresh) (name : Image Byte) :
    ((∀ e ∈ d.files, e.key ≠ fileName name) ∧ fs.openFile d fresh name = some none) ∨
      ∃ e ∈ d.files, e.key = fileName name ∧ fs.openFile d fresh name = some (some ⟨d.headerOf e, 0⟩) := by
  unfold FileSystem.openFile
  rw [h.fetchDirectory]
  simp only [Option.bind_eq_bind, Option.bind_some]
  rcases d.directory.find_spec name with ⟨hfind, hindex, hnone⟩ | ⟨pre, e, post, hdir, hmatch, hfind, -⟩
  · left
    refine ⟨not_matches_iff.mp hnone, ?_⟩
    rw [if_neg (by omega)]
  · right
    have he : e ∈ d.files := List.mem_filter.mpr ⟨by rw [hdir]; simp, hmatch.1⟩
    have hlt := h.allocated_lt _ (sectorsOf_allocated he List.mem_cons_self)
    have hint := FileHeader.toInt_of_lt hlt
    refine ⟨e, he, hmatch.2, ?_⟩
    rw [hfind, hint, if_pos (by omega)]
    unfold OpenFile.new
    rw [FileHeader.fetchFrom_eq d hlt]
    rfl

/-- A write to the data of a file keeps everything else. -/
structure DataWritten (fs : FileSystem) (d : Disk) (e : DirectoryEntry) (d' : Disk) : Prop where
  consistent : Consistent fs d'
  directory : d'.directory = d.directory
  freeMap : d'.freeMap = d.freeMap
  header : ∀ f ∈ d.files, d'.headerOf f = d.headerOf f
  contents : ∀ f ∈ d.files, f ≠ e → (d'.headerOf f).contents d' = (d.headerOf f).contents d
  frame : ∀ s, s ∉ (d.headerOf e).sectors → Disk.SameSector d d' s

/-- The header of a file lies in no data sector. -/
theorem header_not_mem_sectors (h : Consistent fs d) {e f : DirectoryEntry} (he : e ∈ d.files) (hf : f ∈ d.files) :
    f.sector.toNat ∉ (d.headerOf e).sectors := by
  intro hin
  have heq := h.sectorsOf_disjoint hf he List.mem_cons_self (List.mem_cons_of_mem _ hin)
  subst heq
  have hnodup := (List.nodup_flatMap.mp (List.nodup_append.mp h.allocated_nodup).2.1).1 f hf
  exact (List.nodup_cons.mp hnodup).1 hin

theorem dataWritten (h : Consistent fs d) {e : DirectoryEntry} (he : e ∈ d.files)
    (hframe : ∀ s, s ∉ (d.headerOf e).sectors → Disk.SameSector d d' s) : DataWritten fs d e d' := by
  have hsystem : ∀ s ∈ d.systemSectors, Disk.SameSector d d' s := fun s hs =>
    hframe s (fun hin => h.not_mem_systemSectors he (List.mem_cons_of_mem _ hin) hs)
  have hmapHdr := hsystem freeMapSector (by simp [Disk.systemSectors])
  have hdirHdr := hsystem directorySector (by simp [Disk.systemSectors])
  have hdirectory : d'.directory = d.directory := by
    apply h.directory_congr hdirHdr
    intro s hs
    exact hsystem s (by simp [Disk.systemSectors, hs])
  have hmap : d'.freeMap = d.freeMap := by
    apply h.freeMap_congr hmapHdr
    intro s hs
    exact hsystem s (by simp [Disk.systemSectors, hs])
  have hfiles : d'.files = d.files := by
    unfold Disk.files
    rw [hdirectory]
  have hheader : ∀ f ∈ d.files, Disk.SameSector d d' f.sector.toNat := fun f hf =>
    hframe _ (h.header_not_mem_sectors he hf)
  have hallocated : d'.allocated = d.allocated := by
    unfold Disk.allocated
    rw [Disk.systemSectors_congr hmapHdr hdirHdr, hfiles,
      List.flatMap_congr (fun f hf => Disk.sectorsOf_congr (hheader f hf))]
  refine ⟨⟨h.toSystemFiles.congr hmapHdr hdirHdr, ?_, ?_, ?_, ?_, ?_⟩, hdirectory, hmap,
    fun f hf => Disk.headerOf_congr (hheader f hf), ?_, hframe⟩
  · rw [hfiles]
    intro f hf
    rw [Disk.headerOf_congr (hheader f hf)]
    exact h.wellFormed f hf
  · rw [hfiles]
    exact h.names
  · rw [hallocated]
    exact h.allocated_nodup
  · rw [hallocated]
    exact h.allocated_lt
  · rw [hallocated, hmap]
    exact h.bit
  · intro f hf hne
    rw [Disk.headerOf_congr (hheader f hf)]
    apply FileHeader.contents_congr (h.wellFormed f hf)
    intro s hs
    apply hframe
    intro hin
    exact hne (h.sectorsOf_disjoint hf he (List.mem_cons_of_mem _ hs) (List.mem_cons_of_mem _ hin))

end Consistent

/-- The two headers are written and read back. -/
theorem systemFiles_of_headers (d : Disk) {mapHdr dirHdr : FileHeader} (hmap : mapHdr.WellFormed)
    (hdir : dirHdr.WellFormed) (hmapSize : mapHdr.numBytes.toNat = freeMapFileSize)
    (hdirSize : dirHdr.numBytes.toNat = directoryFileSize)
    (hnodup : (freeMapSector :: directorySector :: (mapHdr.sectors ++ dirHdr.sectors)).Nodup) :
    ∃ d₁ d' freeMapFile directoryFile, mapHdr.writeBack d freeMapSector = some d₁ ∧
      dirHdr.writeBack d₁ directorySector = some d' ∧
      OpenFile.new d' freeMapSector = some freeMapFile ∧ OpenFile.new d' directorySector = some directoryFile ∧
      SystemFiles ⟨freeMapFile, directoryFile⟩ d' ∧ d'.header freeMapSector = mapHdr ∧
      d'.header directorySector = dirHdr := by
  have hdirHdr : ((d.withSector freeMapSector (FileHeader.layout.cells mapHdr)).withSector directorySector
      (FileHeader.layout.cells dirHdr)).header directorySector = dirHdr := Disk.header_withSector _ _ _
  have hmapHdr : ((d.withSector freeMapSector (FileHeader.layout.cells mapHdr)).withSector directorySector
      (FileHeader.layout.cells dirHdr)).header freeMapSector = mapHdr := by
    rw [Disk.header_congr (Disk.sameSector_withSector _ _ (by decide)), Disk.header_withSector]
  refine ⟨_, _, ⟨mapHdr, 0⟩, ⟨dirHdr, 0⟩, mapHdr.writeBack_eq d (by decide), dirHdr.writeBack_eq _ (by decide),
    ?_, ?_, ⟨hmapHdr.symm, hdirHdr.symm, ?_, ?_, ?_, ?_, ?_⟩, hmapHdr, hdirHdr⟩
  · unfold OpenFile.new
    rw [FileHeader.fetchFrom_eq _ (by decide), hmapHdr]
    rfl
  · unfold OpenFile.new
    rw [FileHeader.fetchFrom_eq _ (by decide), hdirHdr]
    rfl
  · rw [hmapHdr]
    exact hmap
  · rw [hdirHdr]
    exact hdir
  · rw [hmapHdr]
    exact hmapSize
  · rw [hdirHdr]
    exact hdirSize
  · unfold Disk.systemSectors
    rw [hmapHdr, hdirHdr]
    exact hnodup

theorem freeMapFileSectors : divRoundUp freeMapFileSize sectorSize = 1 := by decide

theorem directoryFileSectors : divRoundUp directoryFileSize sectorSize = 2 := by decide

/-- The sectors that a format takes from a clear map. -/
theorem format_allocate {m₀ : BitMap} (memory memory' : Image Byte) (hnum : m₀.numBits = numSectors)
    (hclear : ∀ s < numSectors, m₀.bit s = false) (hcount : m₀.numClear = numSectors) :
    ∃ mapHdr m₁ dirHdr m,
      (FileSystem.newHeader memory).allocate ((m₀.setBit freeMapSector).setBit directorySector) freeMapFileSize =
        some (true, mapHdr, m₁) ∧
      (FileSystem.newHeader memory').allocate m₁ directoryFileSize = some (true, dirHdr, m) ∧
      mapHdr.WellFormed ∧ dirHdr.WellFormed ∧ mapHdr.numBytes.toNat = freeMapFileSize ∧
      dirHdr.numBytes.toNat = directoryFileSize ∧
      Taken m₀ m (freeMapSector :: directorySector :: (mapHdr.sectors ++ dirHdr.sectors)) := by
  have h0 : freeMapSector < m₀.numBits := Nat.lt_of_lt_of_eq (by decide) hnum.symm
  have h1 : directorySector < (m₀.setBit freeMapSector).numBits := Nat.lt_of_lt_of_eq (by decide) hnum.symm
  have hclear1 : (m₀.setBit freeMapSector).bit directorySector = false := by
    rw [BitMap.bit_setBit h0, hclear _ (by decide)]
    rfl
  have hheaders : Taken m₀ ((m₀.setBit freeMapSector).setBit directorySector) [freeMapSector, directorySector] :=
    .cons h0 (hclear _ (by decide)) (.cons h1 hclear1 (.refl _))
  have hroom := hheaders.numClear_le
  rw [hcount, List.length_cons, List.length_singleton] at hroom
  obtain ⟨mapHdr, m₁, hmap, hmapWell, hmapSize, hmapTaken⟩ := (FileSystem.newHeader memory).allocate_of_room
    (show freeMapFileSize ≤ maxFileSize by decide) (hheaders.numBits_eq.trans hnum)
    (by rw [freeMapFileSectors]; simp only [numSectors] at hroom; omega)
  have hroom₁ := hmapTaken.numClear_le
  rw [FileHeader.length_sectors hmapWell, hmapSize, freeMapFileSectors] at hroom₁
  obtain ⟨dirHdr, m, hdir, hdirWell, hdirSize, hdirTaken⟩ := (FileSystem.newHeader memory').allocate_of_room
    (show directoryFileSize ≤ maxFileSize by decide)
    (hmapTaken.numBits_eq.trans (hheaders.numBits_eq.trans hnum))
    (by rw [directoryFileSectors]; simp only [numSectors] at hroom; omega)
  exact ⟨mapHdr, m₁, dirHdr, m, hmap, hdir, hmapWell, hdirWell, hmapSize, hdirSize,
    hheaders.append (hmapTaken.append hdirTaken)⟩

/-- A formatted disk has no files and all the room there is: the system files take five sectors. -/
structure Formatted (fs : FileSystem) (d : Disk) : Prop where
  consistent : Consistent fs d
  unused : ∀ e ∈ d.directory, e.inUse = false
  numClear : numSectors ≤ d.freeMap.numClear + 5

theorem files_eq_nil {d : Disk} (h : ∀ e ∈ d.directory, e.inUse = false) : d.files = [] := by
  unfold Disk.files
  rw [List.filter_eq_nil_iff]
  intro e he
  rw [h e he]
  exact Bool.false_ne_true

theorem format_spec (d : Disk) (fresh : Fresh) :
    ∃ fs d', FileSystem.format d fresh = some (fs, d') ∧ Formatted fs d' := by
  have hnew : (FileSystem.newFreeMap (fresh 0)).numBits = numSectors := BitMap.numBits_new _ _
  have hclear : ∀ s < numSectors, (FileSystem.newFreeMap (fresh 0)).bit s = false := fun s hs => BitMap.bit_new _ hs
  have hcount : (FileSystem.newFreeMap (fresh 0)).numClear = numSectors := BitMap.numClear_new _ _
  obtain ⟨mapHdr, m₁, dirHdr, m, hmap, hdir, hmapWell, hdirWell, hmapSize, hdirSize, htaken⟩ :=
    format_allocate (fresh 2) (fresh 3) hnew hclear hcount
  have hmark : (FileSystem.newFreeMap (fresh 0)).mark freeMapSector =
      some ((FileSystem.newFreeMap (fresh 0)).setBit freeMapSector) :=
    BitMap.mark_eq (by rw [hnew]; decide)
  have hmark' : ((FileSystem.newFreeMap (fresh 0)).setBit freeMapSector).mark directorySector =
      some (((FileSystem.newFreeMap (fresh 0)).setBit freeMapSector).setBit directorySector) :=
    BitMap.mark_eq (by rw [BitMap.numBits_setBit, hnew]; decide)
  obtain ⟨d₁, d₂, freeMapFile, directoryFile, hwriteMap, hwriteDir, hopenMap, hopenDir, hsystem, hmapHdr, hdirHdr⟩ :=
    systemFiles_of_headers d hmapWell hdirWell hmapSize hdirSize htaken.nodup
  have hnum : m.numBits = numSectors := htaken.numBits_eq.trans hnew
  obtain ⟨d₃, d', hflushMap, hflushDir, hflushed⟩ := hsystem.flush_freeMap_first (fresh 4) (fresh 5)
    (Directory.length_new numDirEntries (fresh 1)) hnum
  have hformat : FileSystem.format d fresh = some (⟨freeMapFile, directoryFile⟩, d') := by
    unfold FileSystem.format
    refine Option.bind_eq_some_iff.mpr ⟨_, hmark, Option.bind_eq_some_iff.mpr ⟨_, hmark', ?_⟩⟩
    refine Option.bind_eq_some_iff.mpr ⟨_, hmap, Option.bind_eq_some_iff.mpr ⟨(), rfl, ?_⟩⟩
    refine Option.bind_eq_some_iff.mpr ⟨_, hdir, Option.bind_eq_some_iff.mpr ⟨(), rfl, ?_⟩⟩
    refine Option.bind_eq_some_iff.mpr ⟨_, hwriteMap, Option.bind_eq_some_iff.mpr ⟨_, hwriteDir, ?_⟩⟩
    refine Option.bind_eq_some_iff.mpr ⟨_, hopenMap, Option.bind_eq_some_iff.mpr ⟨_, hopenDir, ?_⟩⟩
    exact Option.bind_eq_some_iff.mpr ⟨_, hflushMap, Option.bind_eq_some_iff.mpr ⟨_, hflushDir, rfl⟩⟩
  have hmapSame := hflushed.frame _ hsystem.freeMapSector_not_mem.1 hsystem.freeMapSector_not_mem.2
  have hdirSame := hflushed.frame _ hsystem.directorySector_not_mem.1 hsystem.directorySector_not_mem.2
  have hunused : ∀ e ∈ d'.directory, e.inUse = false := by
    rw [hflushed.directory]
    intro e he
    obtain ⟨e', -, rfl⟩ := List.mem_map.mp he
    rfl
  have hfiles : d'.files = [] := files_eq_nil hunused
  have hallocated : d'.allocated =
      freeMapSector :: directorySector :: (mapHdr.sectors ++ dirHdr.sectors) := by
    unfold Disk.allocated
    rw [hfiles, List.flatMap_nil, List.append_nil, Disk.systemSectors_congr hmapSame hdirSame]
    unfold Disk.systemSectors
    rw [hmapHdr, hdirHdr]
  have hroom := htaken.numClear_le
  simp only [hcount, List.length_cons, List.length_append, FileHeader.length_sectors hmapWell,
    FileHeader.length_sectors hdirWell, hmapSize, hdirSize, freeMapFileSectors, directoryFileSectors] at hroom
  refine ⟨_, d', hformat, ⟨hsystem.congr hmapSame hdirSame, ?_, ?_, ?_, ?_, ?_⟩, hunused,
    by rw [hflushed.freeMap]; omega⟩
  · simp [hfiles]
  · simp [hfiles]
  · rw [hallocated]
    exact htaken.nodup
  · rw [hallocated]
    intro s hs
    exact Nat.lt_of_lt_of_eq (htaken.clear s hs).1 hnew
  · intro s hs
    rw [hallocated, hflushed.freeMap, htaken.bit, hclear s hs, Bool.or_false, decide_eq_true_iff]

theorem Formatted.creatable {fs : FileSystem} {d : Disk} (h : Formatted fs d) (name : Image Byte) {size : Nat}
    (hsize : size ≤ maxFileSize) : Consistent.Creatable d name size := by
  have hsectors := divRoundUp_le hsize
  have hroom := h.numClear
  refine ⟨by simp [files_eq_nil h.unused], ?_, ?_⟩
  · have hlen : d.directory.length = numDirEntries := Layout.length_readArray _
    have hpos : 0 < d.directory.length := by
      rw [hlen]
      decide
    exact ⟨d.directory[0], List.getElem_mem hpos, h.unused _ (List.getElem_mem hpos)⟩
  · simp only [numDirect, sectorSize, numSectors] at *
    omega

end Nachos

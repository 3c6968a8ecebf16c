import Mathlib.Logic.Function.Basic
import Nachos.FileSystemRun

/-! What the file system is for: a volume maps names to contents. The disk represents one, and every call
changes it as its name says. -/

namespace Nachos

/-- The contents of the files by their names. -/
abbrev Volume := List Byte → Option (List Byte)

namespace Volume

/-- Overwriting a part of a file. -/
def overwrite (contents : List Byte) (position : Nat) (bytes : List Byte) : List Byte :=
  contents.take position ++ bytes ++ contents.drop (position + bytes.length)

/-- A file is created with any contents, removed, or overwritten within its length. -/
inductive Step (v : Volume) : Volume → Prop where
  | create (name contents : List Byte) (hnew : v name = none) :
      Step v (Function.update v name (some contents))
  | remove (name : List Byte) : Step v (Function.update v name none)
  | write (name contents : List Byte) (position : Nat) (bytes : List Byte) (hfile : v name = some contents)
      (hle : position + bytes.length ≤ contents.length) :
      Step v (Function.update v name (some (overwrite contents position bytes)))

/-- The volumes that can be reached from the empty one. -/
def system : TransitionSystem Volume where
  init v := v = fun _ => none
  step := Step

end Volume

namespace Disk

/-- The volume on a disk. -/
def volume (d : Disk) : Volume := fun name =>
  (d.files.find? fun e => e.key = name).map fun e => (d.headerOf e).contents d

variable {d d' : Disk} {fs : FileSystem} {e : DirectoryEntry}

theorem volume_eq_none {name : List Byte} (h : ∀ e ∈ d.files, e.key ≠ name) : d.volume name = none := by
  unfold volume
  rw [Option.map_eq_none_iff, List.find?_eq_none]
  intro e he
  simpa using h e he

theorem find?_key {l : List DirectoryEntry} (hnodup : (l.map DirectoryEntry.key).Nodup) (he : e ∈ l) :
    l.find? (fun f => f.key = e.key) = some e := by
  induction l with
  | nil => cases he
  | cons f rest ih =>
      rw [List.map_cons, List.nodup_cons] at hnodup
      rcases List.mem_cons.mp he with rfl | he
      · exact List.find?_cons_of_pos (by simp)
      · have hne : f.key ≠ e.key := fun heq => hnodup.1 (heq ▸ List.mem_map_of_mem he)
        rw [List.find?_cons_of_neg (by simpa using hne)]
        exact ih hnodup.2 he

theorem volume_key (h : Consistent fs d) (he : e ∈ d.files) :
    d.volume e.key = some ((d.headerOf e).contents d) := by
  unfold volume
  rw [find?_key h.names he, Option.map_some]

/-- A file with the name, or none. -/
theorem volume_cases (h : Consistent fs d) (name : List Byte) :
    (d.volume name = none ∧ ∀ e ∈ d.files, e.key ≠ name) ∨
      ∃ e ∈ d.files, e.key = name ∧ d.volume name = some ((d.headerOf e).contents d) := by
  by_cases hname : ∃ e ∈ d.files, e.key = name
  · obtain ⟨e, he, rfl⟩ := hname
    exact .inr ⟨e, he, rfl, volume_key h he⟩
  · have hnone : ∀ e ∈ d.files, e.key ≠ name := fun e he hkey => hname ⟨e, he, hkey⟩
    exact .inl ⟨volume_eq_none hnone, hnone⟩

/-- The volume changes under one name only, when the other files keep their names and contents. -/
theorem volume_update (h : Consistent fs d) (h' : Consistent fs d') {name : List Byte} {contents : Option (List Byte)}
    (hname : d'.volume name = contents)
    (hold : ∀ f ∈ d.files, f.key ≠ name → f ∈ d'.files ∧ (d'.headerOf f).contents d' = (d.headerOf f).contents d)
    (hnew : ∀ f ∈ d'.files, f.key ≠ name → f ∈ d.files) :
    d'.volume = Function.update d.volume name contents := by
  funext key
  by_cases hkey : key = name
  · subst hkey
    rw [Function.update_self, hname]
  · rw [Function.update_of_ne hkey]
    rcases volume_cases h key with ⟨hnone, hall⟩ | ⟨f, hf, rfl, hcontents⟩
    · rw [hnone]
      apply volume_eq_none
      intro f hf heq
      exact hall f (hnew f hf (heq ▸ hkey)) heq
    · obtain ⟨hf', hsame⟩ := hold f hf hkey
      rw [hcontents, volume_key h' hf', hsame]

end Disk

namespace Consistent

variable {fs : FileSystem} {d d' : Disk} {e : DirectoryEntry} {name : Image Byte}

theorem Created.volume_eq {fresh : Fresh} {size : Nat} (h : Consistent fs d)
    (hcreated : Created fs d fresh name size e d') :
    d'.volume = Function.update d.volume (fileName name) (some ((d'.headerOf e).contents d')) := by
  have he : e ∈ d'.files := hcreated.files.mem_iff.mpr List.mem_cons_self
  apply Disk.volume_update h hcreated.consistent
  · rw [← hcreated.key]
    exact Disk.volume_key hcreated.consistent he
  · intro f hf _
    have hheader := Disk.headerOf_congr (hcreated.frame f hf _ List.mem_cons_self)
    refine ⟨hcreated.files.mem_iff.mpr (List.mem_cons_of_mem e hf), ?_⟩
    rw [hheader]
    apply FileHeader.contents_congr (h.wellFormed f hf)
    intro s hs
    exact hcreated.frame f hf s (List.mem_cons_of_mem _ hs)
  · intro f hf hkey
    refine (List.mem_cons.mp (hcreated.files.mem_iff.mp hf)).resolve_left ?_
    rintro rfl
    exact hkey hcreated.key

theorem Removed.frame_sectorsOf (h : Consistent fs d) (hremoved : Removed fs d e d') {f : DirectoryEntry}
    (hf : f ∈ d.files) {s : Nat} (hs : s ∈ d.sectorsOf f) : Disk.SameSector d d' s := by
  have hnot := h.not_mem_systemSectors hf hs
  simp only [Disk.systemSectors, List.mem_cons, List.mem_append, not_or] at hnot
  exact hremoved.frame s hnot.2.2.1 hnot.2.2.2

theorem Removed.key_ne (h : Consistent fs d) (hremoved : Removed fs d e d') {f : DirectoryEntry}
    (hf : f ∈ d'.files) : f.key ≠ e.key := by
  have hnames := (hremoved.files.map DirectoryEntry.key).nodup_iff.mp h.names
  rw [List.map_cons, List.nodup_cons] at hnames
  intro heq
  exact hnames.1 (heq ▸ List.mem_map_of_mem hf)

theorem Removed.volume_eq (h : Consistent fs d) (hremoved : Removed fs d e d') :
    d'.volume = Function.update d.volume e.key none := by
  apply Disk.volume_update h hremoved.consistent
  · apply Disk.volume_eq_none
    intro f hf
    exact hremoved.key_ne h hf
  · intro f hf hkey
    have hne : f ≠ e := fun heq => hkey (heq ▸ rfl)
    refine ⟨(List.mem_cons.mp (hremoved.files.mem_iff.mp hf)).resolve_left hne, ?_⟩
    rw [Disk.headerOf_congr (hremoved.frame_sectorsOf h hf List.mem_cons_self)]
    apply FileHeader.contents_congr (h.wellFormed f hf)
    intro s hs
    exact hremoved.frame_sectorsOf h hf (List.mem_cons_of_mem _ hs)
  · intro f hf _
    exact hremoved.files.mem_iff.mpr (List.mem_cons_of_mem e hf)

theorem DataWritten.files_eq (hwritten : DataWritten fs d e d') : d'.files = d.files := by
  unfold Disk.files
  rw [hwritten.directory]

theorem DataWritten.volume_eq (h : Consistent fs d) (he : e ∈ d.files) (hwritten : DataWritten fs d e d') :
    d'.volume = Function.update d.volume e.key (some ((d.headerOf e).contents d')) := by
  apply Disk.volume_update h hwritten.consistent
  · rw [Disk.volume_key hwritten.consistent (hwritten.files_eq ▸ he), hwritten.header e he]
  · intro f hf hkey
    exact ⟨hwritten.files_eq ▸ hf, hwritten.contents f hf (fun heq => hkey (heq ▸ rfl))⟩
  · intro f hf _
    exact hwritten.files_eq ▸ hf

end Consistent

namespace FileState

variable {s t : FileState}

/-- A write through an open file overwrites a part of the file in the volume. -/
theorem volume_written {h : Handle} {data : Image Byte} {position n : Nat} {d' : Disk}
    (hs : Consistent s.fs s.disk) (hok : HandleOk s.disk h) (hlive : h.removed = false)
    (hwritten : OpenFile.Written h.file.hdr s.disk data position n d')
    (hn : n ≤ h.file.hdr.numBytes.toNat - position) :
    s.disk.volume h.name = some (h.file.hdr.contents s.disk) ∧
      (d'.volume = s.disk.volume ∨ position + n ≤ (h.file.hdr.contents s.disk).length ∧
        d'.volume = Function.update s.disk.volume h.name
          (some (Volume.overwrite (h.file.hdr.contents s.disk) position (Image.load data 0 n)))) := by
  obtain ⟨e, he, hkey, hhdr, hdata⟩ := hok.writes hs hlive hwritten
  have hfile : s.disk.volume h.name = some (h.file.hdr.contents s.disk) := by
    rw [← hkey, Disk.volume_key hs he, hhdr]
  refine ⟨hfile, ?_⟩
  have hvolume := hdata.volume_eq hs he
  rw [hhdr, hkey] at hvolume
  rcases Nat.lt_or_ge h.file.hdr.numBytes.toNat (position + n) with hlt | hle
  · left
    have hcontents : h.file.hdr.contents d' = h.file.hdr.contents s.disk := by
      apply Image.load_congr
      intro k hk
      rw [Nat.zero_add, hwritten.image k hk, if_neg (by omega)]
    rw [hvolume, hcontents, ← hfile, Function.update_eq_self]
  · right
    rw [FileHeader.length_contents]
    refine ⟨hle, ?_⟩
    rw [hvolume, hwritten.contents_eq hle]
    unfold Volume.overwrite
    rw [Image.length_load]

/-- What a call does to the volume. -/
theorem exec_volume (hs : s.Ok) {call : FileCall} (hallowed : s.Allowed call) (hexec : s.exec call = some t) :
    t.disk.volume = s.disk.volume ∨
      (∃ fresh name size contents, call = .create fresh name size ∧ s.disk.volume (fileName name) = none ∧
        t.disk.volume = Function.update s.disk.volume (fileName name) (some contents)) ∨
      (∃ fresh name, call = .remove fresh name ∧
        t.disk.volume = Function.update s.disk.volume (fileName name) none) ∨
      ∃ h contents position bytes, s.written call = some h ∧ s.disk.volume h.name = some contents ∧
        position + bytes.length ≤ contents.length ∧
        t.disk.volume = Function.update s.disk.volume h.name (some (Volume.overwrite contents position bytes)) := by
  obtain ⟨hdomain, hcurrent⟩ := hallowed
  cases call with
  | create fresh name size =>
      obtain ⟨hnonneg, hle⟩ := hdomain
      obtain ⟨n, rfl⟩ := Int.eq_ofNat_of_zero_le hnonneg
      rcases hs.consistent.create_spec fresh name (show n ≤ maxFileSize by omega) with
        ⟨-, heq⟩ | ⟨hcreatable, d', e, heq, hcreated⟩
      · rw [exec, heq] at hexec
        cases hexec
        exact .inl rfl
      · rw [exec, heq] at hexec
        cases hexec
        exact .inr (.inl ⟨fresh, name, n, _, rfl, Disk.volume_eq_none hcreatable.name_new,
          hcreated.volume_eq hs.consistent⟩)
  | remove fresh name =>
      rcases hs.consistent.remove_spec fresh name with ⟨-, heq⟩ | ⟨e, he, hkey, d', heq, hremoved⟩
      · rw [exec, heq] at hexec
        cases hexec
        exact .inl rfl
      · rw [exec, heq] at hexec
        cases hexec
        refine .inr (.inr (.inl ⟨fresh, name, rfl, ?_⟩))
        rw [← hkey]
        exact hremoved.volume_eq hs.consistent
  | openFile fresh name =>
      rcases hs.consistent.openFile_spec fresh name with ⟨-, heq⟩ | ⟨e, he, hkey, heq⟩
      · rw [exec, heq] at hexec
        cases hexec
        exact .inl rfl
      · rw [exec, heq] at hexec
        cases hexec
        exact .inl rfl
  | close i =>
      cases hexec
      exact .inl rfl
  | seek i position =>
      obtain ⟨h, -, rfl⟩ := Option.map_eq_some_iff.mp hexec
      exact .inl rfl
  | read i numBytes =>
      obtain ⟨h, -, hexec⟩ := Option.bind_eq_some_iff.mp hexec
      obtain ⟨r, -, hexec⟩ := Option.bind_eq_some_iff.mp hexec
      cases hexec
      exact .inl rfl
  | readAt i numBytes position =>
      obtain ⟨h, -, hexec⟩ := Option.bind_eq_some_iff.mp hexec
      obtain ⟨r, -, hexec⟩ := Option.bind_eq_some_iff.mp hexec
      cases hexec
      exact .inl rfl
  | write i garbage data numBytes =>
      obtain ⟨h, hget, hposition, -⟩ := hdomain
      have hlive := hcurrent h hget
      have hok := hs.opened h (List.mem_of_getElem? hget)
      obtain ⟨position, hp⟩ := Int.eq_ofNat_of_zero_le hposition
      obtain ⟨d', heq, hwritten⟩ := OpenFile.write_spec hok.wellFormed s.disk garbage data numBytes hp
      simp only [exec, hget, Option.bind_eq_bind, Option.bind_some, heq] at hexec
      cases hexec
      obtain ⟨hfile, hsame | ⟨hle, hvolume⟩⟩ := volume_written hs.consistent hok hlive hwritten (Nat.min_le_right _ _)
      · exact .inl hsame
      · exact .inr (.inr (.inr ⟨h, _, position, _, hget, hfile, by rwa [Image.length_load], hvolume⟩))
  | writeAt i garbage data numBytes position =>
      obtain ⟨hi, hposition, -⟩ := hdomain
      have hget := List.getElem?_eq_getElem hi
      have hlive := hcurrent _ hget
      have hok := hs.opened _ (List.getElem_mem hi)
      obtain ⟨position, rfl⟩ := Int.eq_ofNat_of_zero_le hposition
      obtain ⟨d', heq, hwritten⟩ := OpenFile.writeAt_spec hok.wellFormed s.disk garbage data numBytes position
      simp only [exec, hget, Option.bind_eq_bind, Option.bind_some, heq] at hexec
      cases hexec
      obtain ⟨hfile, hsame | ⟨hle, hvolume⟩⟩ := volume_written hs.consistent hok hlive hwritten (Nat.min_le_right _ _)
      · exact .inl hsame
      · exact .inr (.inr (.inr ⟨_, _, position, _, hget, hfile, by rwa [Image.length_load], hvolume⟩))

/-- The file system implements the volume: every call is one step of it or none. -/
theorem system_refines_volume : TransitionSystem.Simulation system Volume.system fun s => s.disk.volume := by
  constructor
  · rintro s ⟨d, fresh, hformat, -⟩
    obtain ⟨fs, d', heq, hformatted⟩ := format_spec d fresh
    rw [hformat] at heq
    obtain ⟨-, rfl⟩ := Prod.mk.inj (Option.some.inj heq)
    funext name
    apply Disk.volume_eq_none
    simp [files_eq_nil hformatted.unused]
  · rintro s t hs ⟨call, hallowed, hexec⟩
    rcases exec_volume (reachable_ok hs) hallowed hexec with hsame | ⟨-, name, -, contents, -, hnew, hvolume⟩ |
      ⟨-, name, -, hvolume⟩ | ⟨h, contents, position, bytes, -, hfile, hle, hvolume⟩
    · rw [hsame]
    · rw [hvolume]
      exact .single (.create _ contents hnew)
    · rw [hvolume]
      exact .single (.remove _)
    · rw [hvolume]
      exact .single (.write _ contents position bytes hfile hle)

end FileState

/-- The entry has the name, in its first `FileNameMaxLen` characters. -/
def DirectoryEntry.Named (name : Image Byte) (e : DirectoryEntry) : Prop :=
  strncmp (Image.ofList e.name 0) name fileNameMaxLen = 0

theorem DirectoryEntry.named_iff {name : Image Byte} {e : DirectoryEntry} :
    e.Named name ↔ e.key = fileName name :=
  strncmp_eq_zero _ _ _

/-- What `Create` promises: it succeeds when there is room, leaves no trace when it fails, and adds a file
of the size to the volume when it succeeds. -/
structure CreateContract (fs : FileSystem) (d : Disk) (name : Image Byte) (size : Nat) (result : Bool) (d' : Disk) :
    Prop where
  result_iff : result = true ↔ (∀ e ∈ d.files, ¬e.Named name) ∧ (∃ e ∈ d.directory, e.inUse = false) ∧
    1 + divRoundUp size sectorSize ≤ d.freeMap.numClear
  unchanged : result = false → d' = d
  opens : result = true → ∀ fresh, ∃ f, fs.openFile d' fresh name = some (some f) ∧ f.length = size
  others : result = true → ∀ key, key ≠ fileName name → d'.volume key = d.volume key

/-- What `Remove` promises: it succeeds when the file is there, leaves no trace when it fails, and takes the
file out of the volume and its sectors out of the sectors in use when it succeeds. -/
structure RemoveContract (d : Disk) (name : Image Byte) (result : Bool) (d' : Disk) : Prop where
  result_iff : result = true ↔ ∃ e ∈ d.files, e.Named name
  unchanged : result = false → d' = d
  absent : result = true → ∀ e ∈ d'.files, ¬e.Named name
  freed : result = true → ∀ e ∈ d.files, e.Named name → ∀ s < numSectors,
    d'.freeMap.bit s = (d.freeMap.bit s && !decide (s ∈ d.sectorsOf e))
  others : result = true → ∀ key, key ≠ fileName name → d'.volume key = d.volume key

namespace FileState

variable {s t : FileState}

theorem createContract (hs : s.Ok) (fresh : Fresh) (name : Image Byte) {size : Nat} (hsize : size ≤ maxFileSize) :
    ∃ result d', s.fs.create s.disk fresh name size = some (result, d') ∧
      CreateContract s.fs s.disk name size result d' := by
  have hiff : Consistent.Creatable s.disk name size ↔ (∀ e ∈ s.disk.files, ¬e.Named name) ∧
      (∃ e ∈ s.disk.directory, e.inUse = false) ∧ 1 + divRoundUp size sectorSize ≤ s.disk.freeMap.numClear := by
    constructor
    · intro h
      exact ⟨fun e he hnamed => h.name_new e he (DirectoryEntry.named_iff.mp hnamed), h.entry_free, h.sectors_free⟩
    · rintro ⟨hname, hentry, hsectors⟩
      exact ⟨fun e he hkey => hname e he (DirectoryEntry.named_iff.mpr hkey), hentry, hsectors⟩
  rcases hs.consistent.create_spec fresh name hsize with ⟨hnot, heq⟩ | ⟨hcreatable, d', e, heq, hcreated⟩
  · refine ⟨false, s.disk, heq, ?_, fun _ => rfl, ?_, ?_⟩
    · rw [← hiff]
      constructor
      · intro h
        cases h
      · intro h
        exact absurd h hnot
    · intro h
      cases h
    · intro h
      cases h
  · refine ⟨true, d', heq, ?_, ?_, ?_, ?_⟩
    · rw [← hiff]
      exact ⟨fun _ => hcreatable, fun _ => rfl⟩
    · intro h
      cases h
    · intro _ fresh'
      have he : e ∈ d'.files := hcreated.files.mem_iff.mpr List.mem_cons_self
      rcases hcreated.consistent.openFile_spec fresh' name with ⟨hnone, -⟩ | ⟨f, hf, hkey, hopen⟩
      · exact absurd hcreated.key (hnone e he)
      · have hfe : f = e := List.inj_on_of_nodup_map hcreated.consistent.names hf he (hkey.trans hcreated.key.symm)
        subst hfe
        refine ⟨_, hopen, ?_⟩
        have hlength := FileHeader.fileLength_eq (hcreated.consistent.wellFormed f hf)
        rw [hcreated.size_eq] at hlength
        exact hlength
    · intro _ key hkey
      rw [hcreated.volume_eq hs.consistent, Function.update_of_ne hkey]

theorem removeContract (hs : s.Ok) (fresh : Fresh) (name : Image Byte) :
    ∃ result d', s.fs.remove s.disk fresh name = some (result, d') ∧ RemoveContract s.disk name result d' := by
  rcases hs.consistent.remove_spec fresh name with ⟨hnone, heq⟩ | ⟨e, he, hkey, d', heq, hremoved⟩
  · refine ⟨false, s.disk, heq, ?_, fun _ => rfl, ?_, ?_, ?_⟩
    · constructor
      · intro h
        cases h
      · rintro ⟨e, he, hnamed⟩
        exact absurd (DirectoryEntry.named_iff.mp hnamed) (hnone e he)
    all_goals
      intro h
      cases h
  · refine ⟨true, d', heq, ⟨fun _ => ⟨e, he, DirectoryEntry.named_iff.mpr hkey⟩, fun _ => rfl⟩, ?_, ?_, ?_, ?_⟩
    · intro h
      cases h
    · intro _ f hf hnamed
      rw [DirectoryEntry.named_iff, ← hkey] at hnamed
      exact hremoved.key_ne hs.consistent hf hnamed
    · intro _ f hf hnamed sector hlt
      rw [DirectoryEntry.named_iff, ← hkey] at hnamed
      have hfe : f = e := List.inj_on_of_nodup_map hs.consistent.names hf he hnamed
      subst hfe
      have hmem := hremoved.allocated.mem_iff (a := sector)
      have hnodup := hremoved.allocated.nodup_iff.mp hs.consistent.allocated_nodup
      rw [Bool.eq_iff_iff, hremoved.consistent.bit sector hlt, Bool.and_eq_true, hs.consistent.bit sector hlt, hmem,
        List.mem_append, Bool.not_eq_true', decide_eq_false_iff_not]
      constructor
      · intro hin
        exact ⟨.inr hin, fun hs => List.disjoint_of_nodup_append hnodup hs hin⟩
      · rintro ⟨hin, hnot⟩
        exact hin.resolve_left hnot
    · intro _ key hne
      rw [hremoved.volume_eq hs.consistent, Function.update_of_ne (hkey ▸ hne)]

/-- `Create` and `Remove` keep what they promise in every state of the runs. -/
theorem create_remove_contract (h : system.Reachable s) (name : Image Byte) :
    (∀ fresh (size : Nat), size ≤ maxFileSize → ∃ result d',
        s.fs.create s.disk fresh name size = some (result, d') ∧ CreateContract s.fs s.disk name size result d') ∧
      ∀ fresh, ∃ result d', s.fs.remove s.disk fresh name = some (result, d') ∧
        RemoveContract s.disk name result d' :=
  ⟨fun fresh _ hsize => createContract (reachable_ok h) fresh name hsize,
    fun fresh => removeContract (reachable_ok h) fresh name⟩

theorem create_remove_contract_create : ∃ s, system.Reachable s ∧ s.disk.files.length = 1 ∧
    (∀ fresh (size : Nat), size ≤ maxFileSize → ∃ result d',
        s.fs.create s.disk fresh (Image.ofList [98] 0) size = some (result, d') ∧
          CreateContract s.fs s.disk (Image.ofList [98] 0) size result d') ∧
      ∀ fresh, ∃ result d', s.fs.remove s.disk fresh (Image.ofList [98] 0) = some (result, d') ∧
        RemoveContract s.disk (Image.ofList [98] 0) result d' := by
  obtain ⟨s, e, hs, hfiles, -⟩ := reachable_create (Image.ofList [97] 0) (show 200 ≤ maxFileSize by decide)
  exact ⟨s, hs, by rw [hfiles]; rfl, create_remove_contract hs _⟩

end FileState

end Nachos

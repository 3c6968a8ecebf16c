import Nachos.FileSystemInvariant

/-! Runs of the file system by one thread: it is formatted, and then files are created, opened, read,
written and removed in any order. An open file keeps the header that it read when it was opened, and nothing
tells it when the file is removed. A file that has been removed is not written through it any more. -/

namespace Nachos

/-- An open file, the name it was opened under, and whether the file has been removed since. -/
structure Handle where
  name : List Byte
  file : OpenFile
  removed : Bool

structure FileState where
  fs : FileSystem
  disk : Disk
  opened : List Handle

/-- The calls, with the memory that each of them is handed. -/
inductive FileCall where
  | create (fresh : Fresh) (name : Image Byte) (size : Int)
  | remove (fresh : Fresh) (name : Image Byte)
  | openFile (fresh : Fresh) (name : Image Byte)
  | close (i : Nat)
  | seek (i : Nat) (position : Int)
  | read (i : Nat) (numBytes : Int)
  | readAt (i : Nat) (numBytes position : Int)
  | write (i : Nat) (garbage data : Image Byte) (numBytes : Int)
  | writeAt (i : Nat) (garbage data : Image Byte) (numBytes position : Int)

namespace FileState

/-- The state after a call, unless an assertion fails or an array is left. -/
def exec (s : FileState) : FileCall → Option FileState
  | .create fresh name size =>
      (s.fs.create s.disk fresh name size).map fun (_, d) => { s with disk := d }
  | .remove fresh name =>
      (s.fs.remove s.disk fresh name).map fun (found, d) =>
        { s with
          disk := d
          opened := s.opened.map fun h =>
            if found ∧ h.name = fileName name then { h with removed := true } else h }
  | .openFile fresh name =>
      (s.fs.openFile s.disk fresh name).map fun
        | none => s
        | some f => { s with opened := s.opened ++ [⟨fileName name, f, false⟩] }
  | .close i => some { s with opened := s.opened.eraseIdx i }
  | .seek i position =>
      s.opened[i]?.map fun h => { s with opened := s.opened.set i { h with file := h.file.seek position } }
  | .read i numBytes => do
      let h ← s.opened[i]?
      let (_, f) ← h.file.read s.disk numBytes
      some { s with opened := s.opened.set i { h with file := f } }
  | .readAt i numBytes position => do
      let h ← s.opened[i]?
      let _ ← h.file.readAt s.disk numBytes position
      some s
  | .write i garbage data numBytes => do
      let h ← s.opened[i]?
      let (_, f, d) ← h.file.write s.disk garbage data numBytes
      some { s with disk := d, opened := s.opened.set i { h with file := f } }
  | .writeAt i garbage data numBytes position => do
      let h ← s.opened[i]?
      let (_, d) ← h.file.writeAt s.disk garbage data numBytes position
      some { s with disk := d }

/-- A request that starts in the file and whose end is an `int`. -/
def InRange (numBytes position : Int) : Prop := 0 ≤ position ∧ position + numBytes < 2 ^ 31

/-- The calls of the runs: sizes up to `MaxFileSize`, and requests without overflow on files that are open. -/
def InDomain (s : FileState) : FileCall → Prop
  | .create _ _ size => 0 ≤ size ∧ size ≤ maxFileSize
  | .remove _ _ => True
  | .openFile _ _ => True
  | .close _ => True
  | .seek i position => i < s.opened.length ∧ 0 ≤ position
  | .read i numBytes => ∃ h, s.opened[i]? = some h ∧ InRange numBytes h.file.seekPosition
  | .readAt i numBytes position => i < s.opened.length ∧ InRange numBytes position
  | .write i _ _ numBytes => ∃ h, s.opened[i]? = some h ∧ InRange numBytes h.file.seekPosition
  | .writeAt i _ _ numBytes position => i < s.opened.length ∧ InRange numBytes position

/-- The open file that a call writes to. -/
def written (s : FileState) : FileCall → Option Handle
  | .write i _ _ _ => s.opened[i]?
  | .writeAt i _ _ _ _ => s.opened[i]?
  | _ => none

/-- Such a call, and no write to a file that has been removed. -/
structure Allowed (s : FileState) (call : FileCall) : Prop where
  inDomain : s.InDomain call
  current : ∀ h, s.written call = some h → h.removed = false

/-- The runs start with a format, on a disk with any contents. -/
def Init (s : FileState) : Prop :=
  ∃ d fresh, FileSystem.format d fresh = some (s.fs, s.disk) ∧ s.opened = []

/-- The runs in which a file is not written after it has been removed. -/
def system : TransitionSystem FileState where
  init := Init
  step s t := ∃ call, s.Allowed call ∧ s.exec call = some t

/-- An open file has the header of the file it was opened on, unless that file has been removed. -/
structure HandleOk (d : Disk) (h : Handle) : Prop where
  wellFormed : h.file.hdr.WellFormed
  seekPosition : 0 ≤ h.file.seekPosition
  current : h.removed = false → ∃ e ∈ d.files, e.key = h.name ∧ d.headerOf e = h.file.hdr

/-- What every call keeps. -/
structure Ok (s : FileState) : Prop where
  consistent : Consistent s.fs s.disk
  opened : ∀ h ∈ s.opened, HandleOk s.disk h

variable {s t : FileState} {d d' : Disk} {fs : FileSystem} {h : Handle} {e : DirectoryEntry}

theorem HandleOk.created {fresh : Fresh} {name : Image Byte} {size : Nat} (hok : HandleOk d h)
    (hcreated : Consistent.Created fs d fresh name size e d') : HandleOk d' h := by
  refine ⟨hok.wellFormed, hok.seekPosition, ?_⟩
  intro hlive
  obtain ⟨f, hf, hkey, hhdr⟩ := hok.current hlive
  refine ⟨f, hcreated.files.mem_iff.mpr (List.mem_cons_of_mem e hf), hkey, ?_⟩
  rw [Disk.headerOf_congr (hcreated.frame f hf _ List.mem_cons_self), hhdr]

theorem HandleOk.removed_other (hd : Consistent fs d) (hok : HandleOk d h)
    (hremoved : Consistent.Removed fs d e d') (hname : h.removed = false → h.name ≠ e.key) : HandleOk d' h := by
  refine ⟨hok.wellFormed, hok.seekPosition, ?_⟩
  intro hlive
  obtain ⟨f, hf, hkey, hhdr⟩ := hok.current hlive
  have hne : f ≠ e := by
    rintro rfl
    exact hname hlive hkey.symm
  have hnot := hd.not_mem_systemSectors hf List.mem_cons_self
  simp only [Disk.systemSectors, List.mem_cons, List.mem_append, not_or] at hnot
  refine ⟨f, (List.mem_cons.mp (hremoved.files.mem_iff.mp hf)).resolve_left hne, hkey, ?_⟩
  rw [Disk.headerOf_congr (hremoved.frame _ hnot.2.2.1 hnot.2.2.2), hhdr]

theorem HandleOk.dataWritten (hok : HandleOk d h) (hwritten : Consistent.DataWritten fs d e d') : HandleOk d' h := by
  refine ⟨hok.wellFormed, hok.seekPosition, ?_⟩
  intro hlive
  obtain ⟨f, hf, hkey, hhdr⟩ := hok.current hlive
  have hfiles : d'.files = d.files := by
    unfold Disk.files
    rw [hwritten.directory]
  exact ⟨f, hfiles ▸ hf, hkey, by rw [hwritten.header f hf, hhdr]⟩

/-- A write through an open file changes the data of that file. -/
theorem HandleOk.writes (hd : Consistent fs d) (hok : HandleOk d h) (hlive : h.removed = false) {data : Image Byte}
    {position n : Nat} (hwritten : OpenFile.Written h.file.hdr d data position n d') :
    ∃ e ∈ d.files, e.key = h.name ∧ d.headerOf e = h.file.hdr ∧ Consistent.DataWritten fs d e d' := by
  obtain ⟨e, he, hkey, hhdr⟩ := hok.current hlive
  rw [← hhdr] at hwritten
  exact ⟨e, he, hkey, hhdr, hd.dataWritten he hwritten.frame⟩

theorem ok_set (h : s.Ok) {i : Nat} {hnew : Handle} (hok : HandleOk s.disk hnew) :
    Ok { s with opened := s.opened.set i hnew } := by
  refine ⟨h.consistent, ?_⟩
  intro h' hmem
  rcases List.mem_or_eq_of_mem_set hmem with hmem | rfl
  · exact h.opened h' hmem
  · exact hok

/-- An allowed call passes every assertion and keeps the state consistent. -/
theorem exec_ok (hs : s.Ok) {call : FileCall} (hallowed : s.Allowed call) : ∃ t, s.exec call = some t ∧ t.Ok := by
  obtain ⟨hdomain, hcurrent⟩ := hallowed
  cases call with
  | create fresh name size =>
      obtain ⟨hnonneg, hle⟩ := hdomain
      obtain ⟨n, rfl⟩ := Int.eq_ofNat_of_zero_le hnonneg
      rcases hs.consistent.create_spec fresh name (show n ≤ maxFileSize by omega) with
        ⟨-, heq⟩ | ⟨-, d', e, heq, hcreated⟩
      · exact ⟨s, by rw [exec, heq]; rfl, hs⟩
      · refine ⟨{ s with disk := d' }, by rw [exec, heq]; rfl, hcreated.consistent, ?_⟩
        intro h hh
        exact (hs.opened h hh).created hcreated
  | remove fresh name =>
      rcases hs.consistent.remove_spec fresh name with ⟨-, heq⟩ | ⟨e, he, hkey, d', heq, hremoved⟩
      · refine ⟨s, ?_, hs⟩
        rw [exec, heq]
        simp
      · refine ⟨_, by rw [exec, heq]; rfl, hremoved.consistent, ?_⟩
        intro h hh
        obtain ⟨h₀, hh₀, rfl⟩ := List.mem_map.mp hh
        have hok := hs.opened h₀ hh₀
        split_ifs with hname
        · exact ⟨hok.wellFormed, hok.seekPosition, fun hlive => by cases hlive⟩
        · apply hok.removed_other hs.consistent hremoved
          intro _ hname'
          exact hname ⟨rfl, by rw [hname', hkey]⟩
  | openFile fresh name =>
      rcases hs.consistent.openFile_spec fresh name with ⟨-, heq⟩ | ⟨e, he, hkey, heq⟩
      · exact ⟨s, by rw [exec, heq]; rfl, hs⟩
      · refine ⟨{ s with opened := s.opened ++ [⟨fileName name, ⟨s.disk.headerOf e, 0⟩, false⟩] },
          by rw [exec, heq]; rfl, hs.consistent, ?_⟩
        intro h hh
        rcases List.mem_append.mp hh with hh | hh
        · exact hs.opened h hh
        · rw [List.mem_singleton.mp hh]
          exact ⟨hs.consistent.wellFormed e he, Int.le_refl 0, fun _ => ⟨e, he, hkey, rfl⟩⟩
  | close i =>
      refine ⟨_, rfl, hs.consistent, ?_⟩
      intro h hh
      exact hs.opened h (List.mem_of_mem_eraseIdx hh)
  | seek i position =>
      obtain ⟨hi, hposition⟩ := hdomain
      have hok := hs.opened _ (List.getElem_mem hi)
      refine ⟨_, by rw [exec, List.getElem?_eq_getElem hi]; rfl, ok_set hs ?_⟩
      exact ⟨hok.wellFormed, hposition, hok.current⟩
  | read i numBytes =>
      obtain ⟨h, hget, hposition, -⟩ := hdomain
      have hok := hs.opened h (List.mem_of_getElem? hget)
      obtain ⟨position, hp⟩ := Int.eq_ofNat_of_zero_le hposition
      have hread := OpenFile.read_contents hok.wellFormed s.disk numBytes hp
      refine ⟨_, by simp only [exec, hget, Option.bind_eq_bind, Option.bind_some, hread]; rfl, ok_set hs ?_⟩
      exact ⟨hok.wellFormed, Int.natCast_nonneg _, hok.current⟩
  | readAt i numBytes position =>
      obtain ⟨hi, hposition, -⟩ := hdomain
      have hok := hs.opened _ (List.getElem_mem hi)
      obtain ⟨position, rfl⟩ := Int.eq_ofNat_of_zero_le hposition
      have hread := OpenFile.readAt_eq (d := s.disk) hok.wellFormed numBytes position
      refine ⟨s, ?_, hs⟩
      simp only [exec, List.getElem?_eq_getElem hi, Option.bind_eq_bind, Option.bind_some, hread]
  | write i garbage data numBytes =>
      obtain ⟨h, hget, hposition, -⟩ := hdomain
      have hlive := hcurrent h hget
      have hok := hs.opened h (List.mem_of_getElem? hget)
      obtain ⟨position, hp⟩ := Int.eq_ofNat_of_zero_le hposition
      obtain ⟨d', heq, hwritten⟩ := OpenFile.write_spec hok.wellFormed s.disk garbage data numBytes hp
      obtain ⟨e, -, -, -, hdata⟩ := hok.writes hs.consistent hlive hwritten
      have hok' := hok.dataWritten hdata
      have hs' : Ok { s with disk := d' } := ⟨hdata.consistent, fun g hg => (hs.opened g hg).dataWritten hdata⟩
      refine ⟨_, by simp only [exec, hget, Option.bind_eq_bind, Option.bind_some, heq]; rfl, ok_set hs' ?_⟩
      exact ⟨hok.wellFormed, Int.natCast_nonneg _, hok'.current⟩
  | writeAt i garbage data numBytes position =>
      obtain ⟨hi, hposition, -⟩ := hdomain
      have hget := List.getElem?_eq_getElem hi
      have hlive := hcurrent _ hget
      have hok := hs.opened _ (List.getElem_mem hi)
      obtain ⟨position, rfl⟩ := Int.eq_ofNat_of_zero_le hposition
      obtain ⟨d', heq, hwritten⟩ := OpenFile.writeAt_spec hok.wellFormed s.disk garbage data numBytes position
      obtain ⟨e, -, -, -, hdata⟩ := hok.writes hs.consistent hlive hwritten
      refine ⟨{ s with disk := d' }, by simp only [exec, hget, Option.bind_eq_bind, Option.bind_some, heq],
        hdata.consistent, ?_⟩
      intro g hg
      exact (hs.opened g hg).dataWritten hdata

theorem init_ok (h : system.init s) : s.Ok := by
  obtain ⟨d, fresh, hformat, hopened⟩ := h
  obtain ⟨fs, d', heq, hformatted⟩ := format_spec d fresh
  rw [hformat] at heq
  obtain ⟨rfl, rfl⟩ := Prod.mk.inj (Option.some.inj heq)
  exact ⟨hformatted.consistent, by simp [hopened]⟩

theorem reachable_ok (h : system.Reachable s) : s.Ok := by
  apply h.invariant
  · intro s hinit
    exact init_ok hinit
  · rintro s t - hs ⟨call, hallowed, hexec⟩
    obtain ⟨t', hexec', ht'⟩ := exec_ok hs hallowed
    rw [hexec] at hexec'
    rw [Option.some.inj hexec']
    exact ht'

end FileState

/-- The files have different names and different headers, no sector belongs to two of the files or twice to
one, and the free map marks exactly the sectors of the files. -/
structure Disk.Accounted (d : Disk) : Prop where
  names : d.files.Pairwise fun e f =>
    strncmp (Image.ofList e.name 0) (Image.ofList f.name 0) fileNameMaxLen ≠ 0
  headers : d.files.Pairwise fun e f => e.sector ≠ f.sector
  disjoint : d.allocated.Nodup
  allocated_lt : ∀ s ∈ d.allocated, s < numSectors
  marked : ∀ s < numSectors, d.freeMap.bit s = true ↔ s ∈ d.allocated

theorem Consistent.accounted {fs : FileSystem} {d : Disk} (h : Consistent fs d) : d.Accounted := by
  refine ⟨?_, ?_, h.allocated_nodup, h.allocated_lt, h.bit⟩
  · refine (List.pairwise_map.mp h.names).imp ?_
    intro e f hne heq
    exact hne ((strncmp_eq_zero _ _ _).mp heq)
  · have hdisjoint := (List.nodup_flatMap.mp (List.nodup_append.mp h.allocated_nodup).2.1).2
    refine hdisjoint.imp ?_
    intro e f hdisjoint heq
    apply hdisjoint List.mem_cons_self
    rw [heq]
    exact List.mem_cons_self

namespace FileState

/-- In every run from a format the sectors of the disk are accounted for after every call, and no call fails
an assertion, that of `FileHeader::Deallocate` among them. -/
theorem disk_accounted_in_runs {s : FileState} (h : system.Reachable s) :
    s.disk.Accounted ∧ (∀ e ∈ s.disk.files, ((s.disk.headerOf e).deallocate s.disk.freeMap).isSome) ∧
      ∀ call, s.Allowed call → ∃ t, s.exec call = some t := by
  have hok := reachable_ok h
  refine ⟨hok.consistent.accounted, ?_, ?_⟩
  · intro e he
    obtain ⟨m, -, hdeallocate, -⟩ := hok.consistent.deallocate_spec he
    rw [hdeallocate]
    rfl
  · intro call hallowed
    obtain ⟨t, hexec, -⟩ := exec_ok hok hallowed
    exact ⟨t, hexec⟩

/-- The run that formats an empty disk and creates one file. -/
theorem reachable_create (name : Image Byte) {size : Nat} (hsize : size ≤ maxFileSize) :
    ∃ s e, system.Reachable s ∧ s.disk.files = [e] ∧ e.key = fileName name ∧
      (s.disk.headerOf e).numBytes.toNat = size ∧ s.opened = [] := by
  obtain ⟨fs, d, hformat, hformatted⟩ := format_spec (fun _ => 0) fun _ _ => 0
  have hinit : system.Reachable ⟨fs, d, []⟩ := .init ⟨_, _, hformat, rfl⟩
  rcases hformatted.consistent.create_spec (fun _ _ => 0) name hsize with
    ⟨hnot, -⟩ | ⟨-, d', e, heq, hcreated⟩
  · exact absurd (hformatted.creatable name hsize) hnot
  · have hstep : system.step ⟨fs, d, []⟩ ⟨fs, d', []⟩ :=
      ⟨.create (fun _ _ => 0) name size, ⟨⟨by omega, by omega⟩, fun _ hnone => by cases hnone⟩, by rw [exec, heq]; rfl⟩
    have hfiles : d'.files = [e] := by
      have hperm := hcreated.files
      rw [files_eq_nil hformatted.unused] at hperm
      exact List.perm_singleton.mp hperm
    exact ⟨_, e, hinit.step hstep, hfiles, hcreated.key, hcreated.size_eq, rfl⟩

theorem disk_accounted_in_runs_create : ∃ s : FileState, system.Reachable s ∧ s.disk.files.length = 1 ∧
    s.disk.Accounted ∧ (∀ e ∈ s.disk.files, ((s.disk.headerOf e).deallocate s.disk.freeMap).isSome) ∧
      ∀ call, s.Allowed call → ∃ t, s.exec call = some t := by
  obtain ⟨s, e, hs, hfiles, -⟩ := reachable_create (Image.ofList [97] 0) (show 200 ≤ maxFileSize by decide)
  exact ⟨s, hs, by rw [hfiles]; rfl, disk_accounted_in_runs hs⟩

end FileState

end Nachos

import Nachos.AbortedChanges
import Nachos.HostDisk

/-! The file system across the runs of the machine. The machine is started, with a format or without one, serves calls,
and is halted or aborted. The file that is its disk is all that stays. -/

namespace Nachos

open BlockProgram DiskProgram

/-- The calls, as programs. -/
def FileCall.program (fs : FileSystem) (opened : List Handle) : FileCall → DiskProgram (List Handle)
  | .create fresh name size => do
      let _ ← DiskProgram.create fs fresh name size
      pure opened
  | .remove fresh name => do
      let found ← DiskProgram.remove fs fresh name
      pure (opened.map fun h => if found ∧ h.name = fileName name then { h with removed := true } else h)
  | .openFile fresh name => do
      let file ← DiskProgram.openFile fs fresh name
      pure (opened ++ (file.map fun f => ⟨fileName name, f, false⟩).toList)
  | .close i => pure (opened.eraseIdx i)
  | .seek i position => do
      let h ← lift opened[i]?
      pure (opened.set i { h with file := h.file.seek position })
  | .read i numBytes => do
      let h ← lift opened[i]?
      let (_, f) ← DiskProgram.read h.file numBytes
      pure (opened.set i { h with file := f })
  | .readAt i numBytes position => do
      let h ← lift opened[i]?
      let _ ← DiskProgram.readAt h.file numBytes position
      pure opened
  | .write i garbage data numBytes => do
      let h ← lift opened[i]?
      let (_, f) ← DiskProgram.write h.file garbage data numBytes
      pure (opened.set i { h with file := f })
  | .writeAt i garbage data numBytes position => do
      let h ← lift opened[i]?
      let _ ← DiskProgram.writeAt h.file garbage data numBytes position
      pure opened

/-- `Create` and `Remove`. -/
def FileCall.changesFiles : FileCall → Bool
  | .create .. => true
  | .remove .. => true
  | _ => false

theorem run_program (s : FileState) (call : FileCall) :
    (call.program s.fs s.opened).run sectorDevice s.disk = (s.exec call).map fun t => (t.opened, t.disk) := by
  cases call with
  | create fresh name size =>
      rw [FileCall.program, FileState.exec, run_bind, run_create, Option.map_map]
      cases s.fs.create s.disk fresh name size with
      | none => rfl
      | some r => rfl
  | remove fresh name =>
      rw [FileCall.program, FileState.exec, run_bind, run_remove, Option.map_map]
      cases s.fs.remove s.disk fresh name with
      | none => rfl
      | some r => rfl
  | openFile fresh name =>
      rw [FileCall.program, FileState.exec, run_bind, run_openFile, Option.map_map]
      cases s.fs.openFile s.disk fresh name with
      | none => rfl
      | some file =>
          cases file with
          | none => simp
          | some f => rfl
  | close i => rfl
  | seek i position =>
      rw [FileCall.program, FileState.exec, run_bind, run_lift]
      cases s.opened[i]? with
      | none => rfl
      | some h => rfl
  | read i numBytes =>
      rw [FileCall.program, FileState.exec, run_bind, run_lift]
      cases s.opened[i]? with
      | none => rfl
      | some h =>
          simp only [Option.map_some, Option.bind_some, run_bind, run_read, Option.bind_eq_bind]
          cases h.file.read s.disk numBytes with
          | none => rfl
          | some r => rfl
  | readAt i numBytes position =>
      rw [FileCall.program, FileState.exec, run_bind, run_lift]
      cases s.opened[i]? with
      | none => rfl
      | some h =>
          simp only [Option.map_some, Option.bind_some, run_bind, run_readAt, Option.bind_eq_bind]
          cases h.file.readAt s.disk numBytes position with
          | none => rfl
          | some r => rfl
  | write i garbage data numBytes =>
      rw [FileCall.program, FileState.exec, run_bind, run_lift]
      cases s.opened[i]? with
      | none => rfl
      | some h =>
          simp only [Option.map_some, Option.bind_some, run_bind, run_write, Option.bind_eq_bind]
          cases h.file.write s.disk garbage data numBytes with
          | none => rfl
          | some r => rfl
  | writeAt i garbage data numBytes position =>
      rw [FileCall.program, FileState.exec, run_bind, run_lift]
      cases s.opened[i]? with
      | none => rfl
      | some h =>
          simp only [Option.map_some, Option.bind_some, run_bind, run_writeAt, Option.bind_eq_bind]
          cases h.file.writeAt s.disk garbage data numBytes position with
          | none => rfl
          | some r => rfl

/-- What is open after `FileSystem::FileSystem(FALSE)`. -/
def Disk.mounted (d : Disk) : FileSystem := ⟨⟨d.header freeMapSector, 0⟩, ⟨d.header directorySector, 0⟩⟩

theorem run_mount_eq (d : Disk) : mount.run sectorDevice d = some (d.mounted, d) := by
  rw [run_mount]
  unfold OpenFile.new
  rw [show (freeMapSector : Int) = ((freeMapSector : Nat) : Int) from rfl,
    show (directorySector : Int) = ((directorySector : Nat) : Int) from rfl,
    FileHeader.fetchFrom_eq d (show freeMapSector < numSectors by decide),
    FileHeader.fetchFrom_eq d (show directorySector < numSectors by decide)]
  rfl

namespace Volume

/-- The volumes that an aborted call leaves. The new file of an aborted `Create` may be there under the name `stale` of a
file that was removed before. -/
def Aborted (opened : List Handle) (stale : Option (List Byte)) (v : Volume) : FileCall → Volume → Prop
  | .create _ name size, w =>
      w = v ∨ ∃ key contents, (contents.length : Int) = size ∧ v key = none ∧
        w = Function.update v key (some contents) ∧ (key = fileName name ∨ stale = some key)
  | .remove _ name, w => w = v ∨ w = Function.update v (fileName name) none
  | .write i _ data numBytes, w =>
      w = v ∨ ∃ h contents n position, opened[i]? = some h ∧ h.file.seekPosition = ((position : Nat) : Int) ∧
        v h.name = some contents ∧ n ≤ numBytes.toNat ∧ position + n ≤ contents.length ∧
        w = Function.update v h.name (some (overwrite contents position (Image.load data 0 n)))
  | .writeAt i _ data numBytes position, w =>
      w = v ∨ ∃ h contents n, opened[i]? = some h ∧ v h.name = some contents ∧ n ≤ numBytes.toNat ∧
        position.toNat + n ≤ contents.length ∧
        w = Function.update v h.name (some (overwrite contents position.toNat (Image.load data 0 n)))
  | _, w => w = v

end Volume

/-- The machine between two calls: the file of the disk, whether the disk is formatted, and the open files while the
machine is running. After an abort in which a file is created or removed the disk does not count as formatted: its free
map may be wrong. -/
structure Host where
  file : Option UnixFile
  formatted : Bool
  running : Option (FileSystem × List Handle)

namespace Host

/-- The machine is started and halted, serves calls, and is aborted. It is started without a format only when the disk is
formatted. -/
inductive Step : Host → Host → Prop where
  | format {file : Option UnixFile} {formatted : Bool} {f f' : UnixFile} {fresh : Fresh} {fs : FileSystem}
      (hdisk : newDisk file = some f) (hrun : (DiskProgram.format fresh).run hostDevice f = some (fs, f')) :
      Step ⟨file, formatted, none⟩ ⟨some f', true, some (fs, [])⟩
  | abortFormat {file : Option UnixFile} {formatted : Bool} {f f' : UnixFile} {fresh : Fresh}
      (hdisk : newDisk file = some f) (hpoint : f' ∈ (DiskProgram.format fresh).points hostDevice f) :
      Step ⟨file, formatted, none⟩ ⟨some f', false, none⟩
  | mount {file : Option UnixFile} {f f' : UnixFile} {fs : FileSystem} (hdisk : newDisk file = some f)
      (hrun : DiskProgram.mount.run hostDevice f = some (fs, f')) :
      Step ⟨file, true, none⟩ ⟨some f', true, some (fs, [])⟩
  | call {f f' : UnixFile} {fs : FileSystem} {opened opened' : List Handle} {call : FileCall}
      (hallowed : FileState.Allowed ⟨fs, f.disk, opened⟩ call)
      (hrun : (call.program fs opened).run hostDevice f = some (opened', f')) :
      Step ⟨some f, true, some (fs, opened)⟩ ⟨some f', true, some (fs, opened')⟩
  | halt {file : Option UnixFile} {formatted : Bool} {up : FileSystem × List Handle} :
      Step ⟨file, formatted, some up⟩ ⟨file, formatted, none⟩
  | abort {f f' : UnixFile} {fs : FileSystem} {opened : List Handle} {call : FileCall}
      (hallowed : FileState.Allowed ⟨fs, f.disk, opened⟩ call)
      (hpoint : f' ∈ (call.program fs opened).points hostDevice f) :
      Step ⟨some f, true, some (fs, opened)⟩ ⟨some f', !call.changesFiles, none⟩

/-- There is no file yet, or there is a disk that has not been formatted. -/
def system : TransitionSystem Host where
  init s := s.formatted = false ∧ s.running = none ∧ ∀ f, s.file = some f → f.IsDisk
  step := Step

/-- The files on the disk. -/
def volume (s : Host) : Volume :=
  match s.formatted, s.file with
  | true, some f => f.disk.volume
  | _, _ => fun _ => none

/-- The file is a disk; when it has been formatted, it is consistent with the open files. -/
structure Inv (s : Host) : Prop where
  file : ∀ f, s.file = some f → f.IsDisk
  formatted : s.formatted = true → ∃ f, s.file = some f ∧ Consistent f.disk.mounted f.disk ∧ f.disk.Tidy
  running : ∀ fs opened, s.running = some (fs, opened) → s.formatted = true ∧
    ∃ f, s.file = some f ∧ FileState.Ok ⟨fs, f.disk, opened⟩

end Host

theorem Consistent.mounted {fs : FileSystem} {d : Disk} (h : Consistent fs d) : Consistent d.mounted d :=
  { h with
    freeMapFile := rfl
    directoryFile := rfl }

theorem Sound.mounted {fs : FileSystem} {d : Disk} (h : Sound fs d) : Sound d.mounted d :=
  { h with
    freeMapFile := rfl
    directoryFile := rfl }

namespace UnixFile

variable {f f' : UnixFile}

theorem run_host (h : f.IsDisk) {α : Type} {p : DiskProgram α} {a : α} {d' : Disk}
    (hrun : p.run sectorDevice f.disk = some (a, d')) :
    ∃ f', p.run hostDevice f = some (a, f') ∧ f'.IsDisk ∧ f'.disk = d' := by
  rw [← hostDevice_refines.run h] at hrun
  obtain ⟨⟨b, f'⟩, hrun', heq⟩ := Option.map_eq_some_iff.mp hrun
  obtain ⟨rfl, rfl⟩ := Prod.mk.inj heq
  exact ⟨f', hrun', hostDevice_refines.run_inv h hrun', rfl⟩

theorem run_disk (h : f.IsDisk) {α : Type} {p : DiskProgram α} {a : α} (hrun : p.run hostDevice f = some (a, f')) :
    p.run sectorDevice f.disk = some (a, f'.disk) ∧ f'.IsDisk := by
  refine ⟨?_, hostDevice_refines.run_inv h hrun⟩
  rw [← hostDevice_refines.run h, hrun]
  rfl

theorem points_disk (h : f.IsDisk) {α : Type} {p : DiskProgram α} (hpoint : f' ∈ p.points hostDevice f) :
    f'.disk ∈ p.points sectorDevice f.disk ∧ f'.IsDisk := by
  refine ⟨?_, points_induction (fun s t n block => hostDevice_refines.inv s n block t) h hpoint⟩
  rw [← hostDevice_refines.points h]
  exact List.mem_map_of_mem hpoint

/-- What is read and not written stays on the file too. -/
theorem run_readOnly (h : f.IsDisk) {α : Type} {p : DiskProgram α} (hp : p.ReadOnly) {a : α} {d' : Disk}
    (hrun : p.run sectorDevice f.disk = some (a, d')) : p.run hostDevice f = some (a, f) := by
  obtain ⟨f', hrun', -, -⟩ := run_host h hrun
  rw [hrun', hp.points (end_mem_points hrun')]

/-- A disk is accepted by `Disk::Disk`, or made by it. -/
theorem newDisk_isDisk {file : Option UnixFile} (h : ∀ f, file = some f → f.IsDisk) :
    ∃ f, newDisk file = some f ∧ f.IsDisk ∧ ∀ f₀, file = some f₀ → f = f₀ := by
  cases file with
  | none =>
      obtain ⟨f, hnew, hdisk⟩ := newDisk_none
      exact ⟨f, hnew, hdisk, fun _ hnone => by cases hnone⟩
  | some f => exact ⟨f, (h f rfl).newDisk, h f rfl, fun f₀ heq => by cases heq; rfl⟩

end UnixFile

namespace FileState

variable {s t : FileState} {d' : Disk}

/-- A write through an open file, aborted after any of its sectors. -/
theorem aborted_write (hs : s.Ok) {i : Nat} {h : Handle} (hget : s.opened[i]? = some h) (hlive : h.removed = false)
    {garbage data : Image Byte} {numBytes : Int} {position : Nat}
    (hd' : d' ∈ (DiskProgram.writeAt h.file garbage data numBytes position).points sectorDevice s.disk) :
    Consistent s.fs d' ∧ d'.directory = s.disk.directory ∧
      (d'.volume = s.disk.volume ∨ ∃ contents n, s.disk.volume h.name = some contents ∧ n ≤ numBytes.toNat ∧
        position + n ≤ contents.length ∧
        d'.volume =
          Function.update s.disk.volume h.name (some (Volume.overwrite contents position (Image.load data 0 n)))) := by
  have hok := hs.opened h (List.mem_of_getElem? hget)
  obtain ⟨n, hn, hwritten, -⟩ := mem_points_writeAt hok.wellFormed hd'
  obtain ⟨e, he, -, -, hdata⟩ := hok.writes hs.consistent hlive hwritten
  refine ⟨hdata.consistent, hdata.directory, ?_⟩
  obtain ⟨hfile, hsame | ⟨hle, hvolume⟩⟩ := volume_written hs.consistent hok hlive hwritten (by omega)
  · exact .inl hsame
  · exact .inr ⟨_, n, hfile, by omega, hle, hvolume⟩

/-- What a call leaves when it is aborted. -/
structure AbortedCall (s : FileState) (call : FileCall) (d' : Disk) : Prop where
  sound : Sound s.fs d'
  tidy : d'.Tidy
  volume : Volume.Aborted s.opened s.disk.staleName s.disk.volume call d'.volume
  consistent : call.changesFiles = false → Consistent s.fs d'

theorem abortedCall_start (hs : s.Ok) (htidy : s.disk.Tidy) (call : FileCall) : AbortedCall s call s.disk := by
  refine ⟨hs.consistent.sound, htidy, ?_, fun _ => hs.consistent⟩
  cases call with
  | create => exact .inl rfl
  | remove => exact .inl rfl
  | write => exact .inl rfl
  | writeAt => exact .inl rfl
  | openFile => rfl
  | close => rfl
  | seek => rfl
  | read => rfl
  | readAt => rfl

theorem abortedCall_readOnly (hs : s.Ok) (htidy : s.disk.Tidy) {call : FileCall}
    (hp : (call.program s.fs s.opened).ReadOnly)
    (hd' : d' ∈ (call.program s.fs s.opened).points sectorDevice s.disk) : AbortedCall s call d' := by
  rw [hp.points hd']
  exact abortedCall_start hs htidy call

theorem tidy_of_directory {d : Disk} (htidy : d.Tidy) (hdir : d'.directory = d.directory) : d'.Tidy := by
  unfold Disk.Tidy
  rw [hdir]
  exact htidy

/-- An allowed call, aborted after any of its writes or not at all. -/
theorem aborted_call (hs : s.Ok) (htidy : s.disk.Tidy) {call : FileCall} (hallowed : s.Allowed call)
    (hd' : d' ∈ (call.program s.fs s.opened).points sectorDevice s.disk) : AbortedCall s call d' := by
  obtain ⟨hdomain, hcurrent⟩ := hallowed
  cases call with
  | create fresh name size =>
      obtain ⟨hnonneg, hle⟩ := hdomain
      obtain ⟨n, rfl⟩ := Int.eq_ofNat_of_zero_le hnonneg
      rcases hs.consistent.create_points fresh name (show n ≤ maxFileSize by omega) (mem_points_map hd') with
        rfl | ⟨pre, post, old, e, sector, hhalf⟩
      · exact abortedCall_start hs htidy _
      · refine ⟨(hhalf.sound hs.consistent htidy).1, hhalf.tidy htidy, ?_, fun hcall => by cases hcall⟩
        rcases hhalf.volume hs.consistent htidy with hsame | ⟨key, contents, hlength, hnone, hvolume, hkey⟩
        · exact .inl hsame
        · exact .inr ⟨key, contents, congrArg Int.ofNat hlength, hnone, hvolume, hkey⟩
  | remove fresh name =>
      rcases hs.consistent.remove_points fresh name (mem_points_map hd') with rfl | ⟨pre, post, old, e, hhalf⟩
      · exact abortedCall_start hs htidy _
      · exact ⟨(hhalf.sound hs.consistent).1, hhalf.tidy hs.consistent htidy, hhalf.volume hs.consistent,
          fun hcall => by cases hcall⟩
  | openFile fresh name =>
      exact abortedCall_readOnly hs htidy ((readOnly_openFile s.fs fresh name).bind fun _ => readOnly_pure _) hd'
  | close i => exact abortedCall_readOnly hs htidy (readOnly_pure _) hd'
  | seek i position => exact abortedCall_readOnly hs htidy ((readOnly_lift _).bind fun _ => readOnly_pure _) hd'
  | read i numBytes =>
      refine abortedCall_readOnly hs htidy ((readOnly_lift _).bind fun h => ?_) hd'
      exact ((readOnly_readAt h.file numBytes h.file.seekPosition).bind fun _ => readOnly_pure _).bind
        fun _ => readOnly_pure _
  | readAt i numBytes position =>
      refine abortedCall_readOnly hs htidy ((readOnly_lift _).bind fun h => ?_) hd'
      exact (readOnly_readAt h.file numBytes position).bind fun _ => readOnly_pure _
  | write i garbage data numBytes =>
      obtain ⟨h, hget, hposition, -⟩ := hdomain
      obtain ⟨position, hp⟩ := Int.eq_ofNat_of_zero_le hposition
      have hpoint : d' ∈ (DiskProgram.writeAt h.file garbage data numBytes position).points sectorDevice s.disk := by
        rw [FileCall.program, hget] at hd'
        have hwrite : d' ∈ (DiskProgram.write h.file garbage data numBytes).points sectorDevice s.disk :=
          mem_points_map hd'
        rw [DiskProgram.write, hp] at hwrite
        exact mem_points_map hwrite
      obtain ⟨hconsistent, hdir, hvolume⟩ := aborted_write hs hget (hcurrent h hget) hpoint
      refine ⟨hconsistent.sound, tidy_of_directory htidy hdir, ?_, fun _ => hconsistent⟩
      rcases hvolume with hsame | ⟨contents, n, hfile, hn, hle, hvolume⟩
      · exact .inl hsame
      · exact .inr ⟨h, contents, n, position, hget, hp, hfile, hn, hle, hvolume⟩
  | writeAt i garbage data numBytes position =>
      obtain ⟨hi, hposition, -⟩ := hdomain
      obtain ⟨position, rfl⟩ := Int.eq_ofNat_of_zero_le hposition
      have hget := List.getElem?_eq_getElem hi
      have hpoint : d' ∈ (DiskProgram.writeAt s.opened[i].file garbage data numBytes position).points sectorDevice
          s.disk := by
        rw [FileCall.program, hget] at hd'
        exact mem_points_map hd'
      obtain ⟨hconsistent, hdir, hvolume⟩ := aborted_write hs hget (hcurrent _ hget) hpoint
      refine ⟨hconsistent.sound, tidy_of_directory htidy hdir, ?_, fun _ => hconsistent⟩
      rcases hvolume with hsame | ⟨contents, n, hfile, hn, hle, hvolume⟩
      · exact .inl hsame
      · exact .inr ⟨_, contents, n, hget, hfile, hn, hle, hvolume⟩

end FileState

namespace Host

variable {s t : Host}

theorem exec_fs {s t : FileState} {call : FileCall} (h : s.exec call = some t) : t.fs = s.fs := by
  cases call with
  | create =>
      obtain ⟨r, -, rfl⟩ := Option.map_eq_some_iff.mp h
      rfl
  | remove =>
      obtain ⟨r, -, rfl⟩ := Option.map_eq_some_iff.mp h
      rfl
  | openFile =>
      obtain ⟨r, -, rfl⟩ := Option.map_eq_some_iff.mp h
      cases r with
      | none => rfl
      | some f => rfl
  | close =>
      cases h
      rfl
  | seek =>
      obtain ⟨r, -, rfl⟩ := Option.map_eq_some_iff.mp h
      rfl
  | read =>
      obtain ⟨r, -, h⟩ := Option.bind_eq_some_iff.mp h
      obtain ⟨r, -, h⟩ := Option.bind_eq_some_iff.mp h
      cases h
      rfl
  | readAt =>
      obtain ⟨r, -, h⟩ := Option.bind_eq_some_iff.mp h
      obtain ⟨r, -, h⟩ := Option.bind_eq_some_iff.mp h
      cases h
      rfl
  | write =>
      obtain ⟨r, -, h⟩ := Option.bind_eq_some_iff.mp h
      obtain ⟨r, -, h⟩ := Option.bind_eq_some_iff.mp h
      cases h
      rfl
  | writeAt =>
      obtain ⟨r, -, h⟩ := Option.bind_eq_some_iff.mp h
      obtain ⟨r, -, h⟩ := Option.bind_eq_some_iff.mp h
      cases h
      rfl

/-- A call on the machine is the call of the file system. -/
theorem exec_of_run {f f' : UnixFile} {fs : FileSystem} {opened opened' : List Handle} {call : FileCall}
    (hdisk : f.IsDisk) (hrun : (call.program fs opened).run hostDevice f = some (opened', f')) :
    FileState.exec ⟨fs, f.disk, opened⟩ call = some ⟨fs, f'.disk, opened'⟩ ∧ f'.IsDisk := by
  obtain ⟨hrun, hdisk'⟩ := UnixFile.run_disk hdisk hrun
  rw [run_program ⟨fs, f.disk, opened⟩ call] at hrun
  obtain ⟨t, hexec, heq⟩ := Option.map_eq_some_iff.mp hrun
  obtain ⟨rfl, hsame⟩ := Prod.mk.inj heq
  have hfs := exec_fs hexec
  refine ⟨?_, hdisk'⟩
  rw [hexec, ← hsame]
  cases t
  cases hfs
  rfl

theorem tidy_of_unused {d : Disk} (h : ∀ e ∈ d.directory, e.inUse = false) : d.Tidy := by
  apply List.pairwise_of_forall_mem_list
  intro e _ f hf _ hused
  rw [h f hf] at hused
  cases hused

theorem inv_init (h : system.init s) : s.Inv := by
  obtain ⟨hformatted, hrunning, hfile⟩ := h
  refine ⟨hfile, ?_, ?_⟩
  · rw [hformatted]
    intro h
    cases h
  · rw [hrunning]
    intro _ _ h
    cases h

theorem inv_step (hs : s.Inv) (hstep : Step s t) : t.Inv := by
  cases hstep with
  | @format file formatted f f' fresh fs hnew hrun =>
      obtain ⟨f₀, hnew', hdisk, -⟩ := UnixFile.newDisk_isDisk hs.file
      obtain rfl := Option.some.inj (hnew.symm.trans hnew')
      obtain ⟨hrun, hdisk'⟩ := UnixFile.run_disk hdisk hrun
      rw [run_format] at hrun
      obtain ⟨fs', d', heq, hformatted⟩ := format_spec f.disk fresh
      rw [heq] at hrun
      obtain ⟨rfl, rfl⟩ := Prod.mk.inj (Option.some.inj hrun)
      refine ⟨?_, ?_, ?_⟩
      · rintro _ ⟨⟩
        exact hdisk'
      · exact fun _ => ⟨f', rfl, hformatted.consistent.mounted, tidy_of_unused hformatted.unused⟩
      · rintro _ _ ⟨⟩
        exact ⟨rfl, f', rfl, hformatted.consistent, by simp⟩
  | abortFormat hnew hpoint =>
      obtain ⟨f₀, hnew', hdisk, -⟩ := UnixFile.newDisk_isDisk hs.file
      obtain rfl := Option.some.inj (hnew.symm.trans hnew')
      refine ⟨?_, (fun h => by cases h), fun _ _ h => by cases h⟩
      rintro _ ⟨⟩
      exact (UnixFile.points_disk hdisk hpoint).2
  | @mount file f f' fs hnew hrun =>
      obtain ⟨f₁, hfile, hconsistent, htidy⟩ := hs.formatted rfl
      obtain ⟨f₀, hnew', hdisk, hsame⟩ := UnixFile.newDisk_isDisk hs.file
      obtain rfl := Option.some.inj (hnew.symm.trans hnew')
      obtain rfl := hsame f₁ hfile
      rw [UnixFile.run_readOnly hdisk readOnly_mount (run_mount_eq f.disk)] at hrun
      obtain ⟨rfl, rfl⟩ := Prod.mk.inj (Option.some.inj hrun)
      refine ⟨?_, ?_, ?_⟩
      · rintro _ ⟨⟩
        exact hdisk
      · exact fun _ => ⟨f, rfl, hconsistent, htidy⟩
      · rintro _ _ ⟨⟩
        exact ⟨rfl, f, rfl, hconsistent, by simp⟩
  | @call f f' fs opened opened' call hallowed hrun =>
      obtain ⟨f₁, hfile, -, htidy⟩ := hs.formatted rfl
      obtain rfl := Option.some.inj hfile
      obtain ⟨-, f₂, hfile, hok⟩ := hs.running fs opened rfl
      obtain rfl := Option.some.inj hfile
      obtain ⟨hexec, hdisk'⟩ := exec_of_run (hs.file f rfl) hrun
      obtain ⟨t, hexec', hok'⟩ := FileState.exec_ok hok hallowed
      obtain rfl := Option.some.inj (hexec.symm.trans hexec')
      have hpoint := end_mem_points (UnixFile.run_disk (hs.file f rfl) hrun).1
      have hcall := FileState.aborted_call hok htidy hallowed hpoint
      refine ⟨?_, ?_, ?_⟩
      · rintro _ ⟨⟩
        exact hdisk'
      · exact fun _ => ⟨f', rfl, hok'.consistent.mounted, hcall.tidy⟩
      · rintro _ _ ⟨⟩
        exact ⟨rfl, f', rfl, hok'⟩
  | halt => exact ⟨hs.file, hs.formatted, fun _ _ h => by cases h⟩
  | @abort f f' fs opened call hallowed hpoint =>
      obtain ⟨f₁, hfile, -, htidy⟩ := hs.formatted rfl
      obtain rfl := Option.some.inj hfile
      obtain ⟨-, f₂, hfile, hok⟩ := hs.running fs opened rfl
      obtain rfl := Option.some.inj hfile
      obtain ⟨hpoint, hdisk'⟩ := UnixFile.points_disk (hs.file f rfl) hpoint
      have haborted := FileState.aborted_call hok htidy hallowed hpoint
      refine ⟨?_, ?_, fun _ _ h => by cases h⟩
      · rintro _ ⟨⟩
        exact hdisk'
      · intro hcall
        have hkept : call.changesFiles = false := by simpa using hcall
        exact ⟨f', rfl, (haborted.consistent hkept).mounted, haborted.tidy⟩

theorem reachable_inv (h : system.Reachable s) : s.Inv :=
  h.invariant (fun _ => inv_init) fun _ _ _ hs hstep => inv_step hs hstep

/-- What the users of a machine rely on: it starts, and its calls pass all assertions. -/
structure Serves (s : Host) : Prop where
  format : s.running = none → ∀ fresh, ∃ f fs f', newDisk s.file = some f ∧
    (DiskProgram.format fresh).run hostDevice f = some (fs, f')
  mount : s.running = none → s.formatted = true → ∃ f fs, newDisk s.file = some f ∧
    DiskProgram.mount.run hostDevice f = some (fs, f)
  call : ∀ fs opened call, s.running = some (fs, opened) → ∃ f, s.file = some f ∧
    (FileState.Allowed ⟨fs, f.disk, opened⟩ call →
      ∃ opened' f', (call.program fs opened).run hostDevice f = some (opened', f'))

theorem Inv.serves (h : s.Inv) : s.Serves := by
  refine ⟨?_, ?_, ?_⟩
  · intro _ fresh
    obtain ⟨f, hnew, hdisk, -⟩ := UnixFile.newDisk_isDisk h.file
    obtain ⟨fs, d', heq, -⟩ := format_spec f.disk fresh
    rw [← run_format] at heq
    obtain ⟨f', hrun, -⟩ := UnixFile.run_host hdisk heq
    exact ⟨f, fs, f', hnew, hrun⟩
  · intro _ _
    obtain ⟨f, hnew, hdisk, -⟩ := UnixFile.newDisk_isDisk h.file
    exact ⟨f, _, hnew, UnixFile.run_readOnly hdisk readOnly_mount (run_mount_eq f.disk)⟩
  · intro fs opened call hrunning
    obtain ⟨-, f, hfile, hok⟩ := h.running fs opened hrunning
    refine ⟨f, hfile, ?_⟩
    intro hallowed
    obtain ⟨t, hexec, -⟩ := FileState.exec_ok hok hallowed
    have hrun := run_program ⟨fs, f.disk, opened⟩ call
    rw [hexec] at hrun
    obtain ⟨f', hrun', -⟩ := UnixFile.run_host (h.file f hfile) hrun
    exact ⟨_, f', hrun'⟩

end Host

end Nachos

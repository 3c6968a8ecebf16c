import Nachos.Directory
import Nachos.TransitionSystem

/-! The directory as a partial map from names to sectors. A name is what `fileName` keeps of it, its first
`FileNameMaxLen` characters up to a zero. The map is read off the successful calls of `Add` and `Remove`:
`FetchFrom` takes the table back to what it was at the last `WriteBack`, and the calls after that are
forgotten. -/

namespace Nachos

namespace Directory

/-- The successful calls. -/
inductive Update where
  | added (name : Image Byte) (sector : Nat)
  | removed (name : Image Byte)

/-- The sector of the last addition under the name that no removal follows. The last call comes first. -/
def lastAdded (key : List Byte) : List Update → Option Int
  | [] => none
  | .added name sector :: before => if fileName name = key then some sector else lastAdded key before
  | .removed name :: before => if fileName name = key then none else lastAdded key before

/-- A directory object, the disk that its file is on, the successful calls that the table shows and those
that the file shows. -/
structure Session where
  dir : Directory
  disk : Disk
  updates : List Update
  saved : Option (List Update)

/-- The calls on a directory with `size` entries. `FetchFrom` may be called on another object of the size. -/
inductive Session.Step (size : Nat) (file : OpenFile) : Session → Session → Prop where
  | add (s : Session) (name : Image Byte) (sector : Nat) (hsector : sector < 2 ^ 31) :
      Step size file s
        { s with
          dir := (s.dir.add name sector).2
          updates := if (s.dir.add name sector).1 then .added name sector :: s.updates else s.updates }
  | remove (s : Session) (name : Image Byte) :
      Step size file s
        { s with
          dir := (s.dir.remove name).2
          updates := if (s.dir.remove name).1 then .removed name :: s.updates else s.updates }
  | writeBack (s : Session) (garbage : Image Byte) {disk : Disk}
      (hwrite : s.dir.writeBack file s.disk garbage = some disk) :
      Step size file s { s with disk := disk, saved := some s.updates }
  | fetchFrom (s : Session) (object : Directory) (hsize : object.length = size) {updates : List Update}
      (hsaved : s.saved = some updates) {dir : Directory}
      (hfetch : object.fetchFrom file s.disk = some dir) :
      Step size file s { s with dir := dir, updates := updates }

/-- The runs from the empty directory. -/
def sessions (size : Nat) (file : OpenFile) : TransitionSystem Session where
  init s := ∃ garbage disk, s = ⟨new size garbage, disk, [], none⟩
  step := Session.Step size file

/-- The two entries are not both in use under one name. -/
def Apart (e e' : DirectoryEntry) : Prop := e.inUse = true → e'.inUse = true → e.key ≠ e'.key

theorem Apart.symm {e e' : DirectoryEntry} (h : Apart e e') : Apart e' e :=
  fun hused hused' => (h hused' hused).symm

/-- The table has an entry in use with the name and the sector. -/
def Lists (dir : Directory) (key : List Byte) (sector : Int) : Prop :=
  ∃ e ∈ dir, e.inUse = true ∧ e.key = key ∧ e.sector.toInt = sector

/-- The table shows the outcome of the calls, each name in one entry. -/
structure Represents (dir : Directory) (updates : List Update) : Prop where
  apart : dir.Pairwise Apart
  lists : ∀ key sector, dir.Lists key sector ↔ lastAdded key updates = some sector

theorem lists_insert {pre post : Directory} {e : DirectoryEntry} {key : List Byte} {sector : Int} :
    Lists (pre ++ e :: post) key sector ↔
      (e.inUse = true ∧ e.key = key ∧ e.sector.toInt = sector) ∨ Lists (pre ++ post) key sector := by
  unfold Lists
  constructor
  · rintro ⟨f, hf, hentry⟩
    rcases List.mem_append.mp hf with hpre | hpost
    · exact .inr ⟨f, List.mem_append_left _ hpre, hentry⟩
    · rcases List.mem_cons.mp hpost with rfl | hpost
      · exact .inl hentry
      · exact .inr ⟨f, List.mem_append_right _ hpost, hentry⟩
  · rintro (hentry | ⟨f, hf, hentry⟩)
    · exact ⟨e, by simp, hentry⟩
    · refine ⟨f, ?_, hentry⟩
      rcases List.mem_append.mp hf with hpre | hpost
      · exact List.mem_append_left _ hpre
      · exact List.mem_append_right _ (List.mem_cons_of_mem _ hpost)

theorem pairwise_insert {pre post : Directory} {e : DirectoryEntry} :
    (pre ++ e :: post).Pairwise Apart ↔ (pre ++ post).Pairwise Apart ∧ ∀ f ∈ pre ++ post, Apart e f := by
  rw [List.pairwise_middle Apart.symm, List.pairwise_cons]
  exact And.comm

/-- An entry that is not in use shows nothing. -/
theorem lists_free {pre post : Directory} {e : DirectoryEntry} (hfree : e.inUse = false) {key : List Byte}
    {sector : Int} : Lists (pre ++ e :: post) key sector ↔ Lists (pre ++ post) key sector := by
  rw [lists_insert, hfree]
  simp

variable {dir : Directory} {updates : List Update}

theorem represents_new (size : Nat) (garbage : Image Byte) : Represents (new size garbage) [] := by
  have hfree : ∀ e ∈ new size garbage, e.inUse = false := by
    intro e he
    obtain ⟨f, -, rfl⟩ := List.mem_map.mp he
    rfl
  constructor
  · apply List.Pairwise.imp_of_mem (R := fun _ _ => True)
    · intro e f he _ _ hused
      exact absurd (hused.symm.trans (hfree e he)) (by decide)
    · exact List.pairwise_of_forall fun _ _ => trivial
  · intro key sector
    constructor
    · rintro ⟨e, he, hused, -⟩
      exact absurd (hused.symm.trans (hfree e he)) (by decide)
    · intro h
      exact absurd h (by simp [lastAdded])

section Calls

variable (h : Represents dir updates) (name : Image Byte)
include h

theorem Represents.absent (hall : ∀ e ∈ dir, ¬Matches name e) : lastAdded (fileName name) updates = none := by
  cases hlast : lastAdded (fileName name) updates with
  | none => rfl
  | some sector =>
      obtain ⟨e, he, hused, hkey, -⟩ := (h.lists (fileName name) sector).mpr hlast
      exact absurd ⟨hused, hkey⟩ (hall e he)

theorem Represents.present {e : DirectoryEntry} (he : e ∈ dir) (hmatch : Matches name e) :
    lastAdded (fileName name) updates = some e.sector.toInt :=
  (h.lists (fileName name) e.sector.toInt).mp ⟨e, he, hmatch.1, hmatch.2, rfl⟩

/-- `Find` returns the sector that the map has for the name. -/
theorem Represents.find_eq :
    dir.find name = (lastAdded (fileName name) updates).getD (-1) := by
  rcases dir.find_spec name with ⟨hfind, -, hall⟩ | ⟨pre, e, post, rfl, hmatch, hfind, -⟩
  · rw [hfind, h.absent name hall]
    rfl
  · rw [hfind, h.present name (e := e) (by simp) hmatch]
    rfl

/-- A call of `Add` either takes a free entry for a name that is absent, or it changes nothing. -/
theorem Represents.add_cases (sector : Nat) :
    (dir.add name sector = (false, dir) ∧
      ((lastAdded (fileName name) updates).isSome = true ∨ ∀ e ∈ dir, e.inUse = true)) ∨
    (∃ pre e e' post, dir = pre ++ e :: post ∧ e.inUse = false ∧ IsNew name sector e' ∧
      dir.add name sector = (true, pre ++ e' :: post) ∧ (∀ f ∈ dir, ¬Matches name f) ∧
      lastAdded (fileName name) updates = none) := by
  unfold add
  rcases dir.findIndex_spec name with ⟨hindex, hall⟩ | ⟨pre, e, post, hdir, hmatch, hindex⟩
  · rw [if_neg (not_not.mpr hindex)]
    rcases addEntry_spec name sector dir with ⟨hadd, hused⟩ | ⟨pre, e, e', post, hdir, hfree, hnew, hadd⟩
    · exact .inl ⟨hadd, .inr hused⟩
    · exact .inr ⟨pre, e, e', post, hdir, hfree, hnew, hadd, hall, h.absent name hall⟩
  · rw [if_pos (by omega), h.present name (e := e) (by rw [hdir]; simp) hmatch]
    exact .inl ⟨rfl, .inl rfl⟩

/-- A call of `Remove` either takes the only entry with the name out of use, or the name is absent. -/
theorem Represents.remove_cases :
    (dir.remove name = (false, dir) ∧ lastAdded (fileName name) updates = none) ∨
    (∃ pre e post, dir = pre ++ e :: post ∧ Matches name e ∧
      dir.remove name = (true, pre ++ { e with inUse := false } :: post) ∧
      (lastAdded (fileName name) updates).isSome = true) := by
  rcases dir.find_spec name with ⟨-, hindex, hall⟩ | ⟨pre, e, post, hdir, hmatch, -, hremove⟩
  · left
    refine ⟨?_, h.absent name hall⟩
    unfold remove
    simp only
    rw [if_pos hindex]
  · refine .inr ⟨pre, e, post, hdir, hmatch, hremove, ?_⟩
    rw [h.present name (e := e) (by rw [hdir]; simp) hmatch]
    rfl

/-- The table after an addition. -/
theorem Represents.added {sector : Nat} (hsector : sector < 2 ^ 31) {pre post : Directory}
    {e e' : DirectoryEntry} (hdir : dir = pre ++ e :: post) (hfree : e.inUse = false) (hnew : IsNew name sector e')
    (hall : ∀ f ∈ dir, ¬Matches name f) :
    Represents (pre ++ e' :: post) (.added name sector :: updates) := by
  subst hdir
  have hothers : ∀ f ∈ pre ++ post, ¬Matches name f := by
    intro f hf
    apply hall
    rcases List.mem_append.mp hf with hpre | hpost
    · exact List.mem_append_left _ hpre
    · exact List.mem_append_right _ (List.mem_cons_of_mem _ hpost)
  have hint : e'.sector.toInt = sector := by
    rw [hnew.sector]
    exact BitVec.toInt_ofInt_eq_self (by decide) (by omega) (by omega)
  constructor
  · rw [pairwise_insert]
    refine ⟨(pairwise_insert.mp h.apart).1, ?_⟩
    intro f hf _ hused hkey
    exact hothers f hf ⟨hused, hkey.symm.trans hnew.key⟩
  · intro key s
    rw [lists_insert, ← lists_free hfree, h.lists, lastAdded, hnew.key, hint]
    by_cases hkey : fileName name = key
    · have habsent : lastAdded key updates = none := by
        rw [← hkey]
        exact h.absent name hall
      rw [if_pos hkey, habsent]
      simp [hnew.inUse, hkey]
    · rw [if_neg hkey]
      simp [hkey]

/-- The table after a removal. -/
theorem Represents.removed {pre post : Directory} {e : DirectoryEntry} (hdir : dir = pre ++ e :: post)
    (hmatch : Matches name e) :
    Represents (pre ++ { e with inUse := false } :: post) (.removed name :: updates) := by
  subst hdir
  obtain ⟨hothers, hapart⟩ := pairwise_insert.mp h.apart
  constructor
  · rw [pairwise_insert]
    refine ⟨hothers, ?_⟩
    intro f _ hused
    exact absurd hused (by simp)
  · intro key s
    rw [lists_free rfl, lastAdded]
    by_cases hkey : fileName name = key
    · rw [if_pos hkey]
      constructor
      · rintro ⟨f, hf, hused, hfkey, -⟩
        exact absurd (hmatch.2.trans (hkey.trans hfkey.symm)) (hapart f hf hmatch.1 hused)
      · intro hnone
        exact absurd hnone (by simp)
    · rw [if_neg hkey, ← h.lists, lists_insert]
      refine ⟨.inr, ?_⟩
      rintro (⟨-, hekey, -⟩ | hlists)
      · exact absurd (hmatch.2.symm.trans hekey) hkey
      · exact hlists

end Calls

section File

variable {size : Nat} {file : OpenFile} {s t : Session}

/-- The table and the file show the calls. -/
structure Session.Sound (size : Nat) (file : OpenFile) (s : Session) : Prop where
  length : s.dir.length = size
  table : Represents s.dir s.updates
  file : ∀ updates, s.saved = some updates →
    Represents (DirectoryEntry.layout.readArray (file.hdr.image s.disk) 0 size) updates

theorem fetchFrom_eq {object : Directory} (hfile : file.hdr.WellFormed)
    (hlarge : object.length * DirectoryEntry.layout.size ≤ file.hdr.numBytes.toNat) (disk : Disk) :
    object.fetchFrom file disk =
      some (DirectoryEntry.layout.readArray (file.hdr.image disk) 0 object.length) :=
  OpenFile.readAt_array DirectoryEntry.layout hfile disk _ hlarge

theorem Session.Sound.add (h : s.Sound size file) (name : Image Byte) {sector : Nat} (hsector : sector < 2 ^ 31) :
    Sound size file
      { s with
        dir := (s.dir.add name sector).2
        updates := if (s.dir.add name sector).1 then .added name sector :: s.updates else s.updates } := by
  rcases h.table.add_cases name sector with ⟨hadd, -⟩ | ⟨pre, e, e', post, hdir, hfree, hnew, hadd, hall, -⟩
  · rw [hadd]
    exact h
  · have hlength := length_add s.dir name sector
    rw [hadd] at hlength ⊢
    exact ⟨hlength.trans h.length, h.table.added name hsector hdir hfree hnew hall, h.file⟩

theorem Session.Sound.remove (h : s.Sound size file) (name : Image Byte) :
    Sound size file
      { s with
        dir := (s.dir.remove name).2
        updates := if (s.dir.remove name).1 then .removed name :: s.updates else s.updates } := by
  rcases h.table.remove_cases name with ⟨hremove, -⟩ | ⟨pre, e, post, hdir, hmatch, hremove, -⟩
  · rw [hremove]
    exact h
  · have hlength := length_remove s.dir name
    rw [hremove] at hlength ⊢
    exact ⟨hlength.trans h.length, h.table.removed name hdir hmatch, h.file⟩

variable (hfile : file.hdr.WellFormed)
  (hlarge : size * DirectoryEntry.layout.size ≤ file.hdr.numBytes.toNat)
include hfile hlarge

/-- `WriteBack` puts the table into the file. -/
theorem Session.Sound.writeBack (h : s.Sound size file) (garbage : Image Byte) :
    ∃ disk, s.dir.writeBack file s.disk garbage = some disk ∧
      Sound size file { s with disk := disk, saved := some s.updates } := by
  rw [← h.length] at hlarge
  obtain ⟨disk, hwrite, harray, -⟩ :=
    OpenFile.writeAt_array DirectoryEntry.layout hfile s.disk garbage s.dir hlarge
  refine ⟨disk, hwrite, h.length, h.table, ?_⟩
  intro updates hsaved
  rw [← h.length, harray, ← Option.some.inj hsaved]
  exact h.table

theorem Session.Sound.step (h : s.Sound size file) (hstep : Step size file s t) : t.Sound size file := by
  cases hstep with
  | add name sector hsector => exact h.add name hsector
  | remove name => exact h.remove name
  | writeBack garbage hwrite =>
      obtain ⟨disk, hwrite', hsound⟩ := h.writeBack hfile hlarge garbage
      rw [hwrite, Option.some.injEq] at hwrite'
      rw [hwrite']
      exact hsound
  | fetchFrom object hsize hsaved hfetch =>
      subst hsize
      rw [fetchFrom_eq hfile hlarge, Option.some.injEq] at hfetch
      rw [← hfetch]
      exact ⟨Layout.length_readArray .., h.file _ hsaved, h.file⟩

theorem sound_of_reachable (h : (sessions size file).Reachable s) : s.Sound size file := by
  apply h.invariant
  · rintro s ⟨garbage, disk, rfl⟩
    refine ⟨length_new size garbage, represents_new size garbage, ?_⟩
    intro updates hsaved
    cases hsaved
  · intro s t _ hsound hstep
    exact hsound.step hfile hlarge hstep

end File

/-- The directory is a map from names to sectors: its calls return what the map says. -/
structure Session.IsMap (size : Nat) (file : OpenFile) (s : Session) : Prop where
  find : ∀ name, s.dir.find name = (lastAdded (fileName name) s.updates).getD (-1)
  add : ∀ name (sector : Nat), sector < 2 ^ 31 →
    ((s.dir.add name sector).1 = false ↔
      (lastAdded (fileName name) s.updates).isSome = true ∨ ∀ e ∈ s.dir, e.inUse = true) ∧
    ((s.dir.add name sector).1 = false → (s.dir.add name sector).2 = s.dir)
  remove : ∀ name,
    ((s.dir.remove name).1 = true ↔ (lastAdded (fileName name) s.updates).isSome = true) ∧
    (s.dir.remove name).2.find name = -1 ∧
    ∀ other, fileName other ≠ fileName name → (s.dir.remove name).2.find other = s.dir.find other
  writeBack : ∀ garbage, ∃ disk, s.dir.writeBack file s.disk garbage = some disk
  fetchFrom : ∀ object : Directory, object.length = size → ∃ dir, object.fetchFrom file s.disk = some dir

theorem Represents.add_contract {dir : Directory} {updates : List Update} (h : Represents dir updates)
    (name : Image Byte) (sector : Nat) :
    ((dir.add name sector).1 = false ↔
      (lastAdded (fileName name) updates).isSome = true ∨ ∀ e ∈ dir, e.inUse = true) ∧
    ((dir.add name sector).1 = false → (dir.add name sector).2 = dir) := by
  rcases h.add_cases name sector with ⟨hadd, hreason⟩ | ⟨pre, e, e', post, hdir, hfree, -, hadd, -, hnone⟩
  · rw [hadd]
    exact ⟨⟨fun _ => hreason, fun _ => rfl⟩, fun _ => rfl⟩
  · rw [hadd, hnone]
    refine ⟨⟨nofun, ?_⟩, nofun⟩
    rintro (hsome | hused)
    · cases hsome
    · exact absurd ((hused e (by rw [hdir]; simp)).symm.trans hfree) (by decide)

theorem Represents.remove_contract {dir : Directory} {updates : List Update} (h : Represents dir updates)
    (name : Image Byte) :
    ((dir.remove name).1 = true ↔ (lastAdded (fileName name) updates).isSome = true) ∧
    (dir.remove name).2.find name = -1 ∧
    ∀ other, fileName other ≠ fileName name → (dir.remove name).2.find other = dir.find other := by
  rcases h.remove_cases name with ⟨hremove, hnone⟩ | ⟨pre, e, post, hdir, hmatch, hremove, hsome⟩
  · rw [hremove, h.find_eq, hnone]
    exact ⟨⟨nofun, nofun⟩, rfl, fun _ _ => rfl⟩
  · have hafter := h.removed name hdir hmatch
    rw [hremove]
    refine ⟨⟨fun _ => hsome, fun _ => rfl⟩, ?_, ?_⟩
    · rw [hafter.find_eq, lastAdded, if_pos rfl]
      rfl
    · intro other hother
      rw [hafter.find_eq, h.find_eq, lastAdded, if_neg (Ne.symm hother)]

/-- Through any calls, the directory is the map of the successful additions and removals. -/
theorem directory_is_map {size : Nat} {file : OpenFile} (hfile : file.hdr.WellFormed)
    (hlarge : size * DirectoryEntry.layout.size ≤ file.hdr.numBytes.toNat) {s : Session}
    (h : (sessions size file).Reachable s) : s.IsMap size file := by
  have hsound := sound_of_reachable hfile hlarge h
  refine ⟨hsound.table.find_eq, ?_, hsound.table.remove_contract, ?_, ?_⟩
  · intro name sector _
    exact hsound.table.add_contract name sector
  · intro garbage
    obtain ⟨disk, hwrite, -⟩ := hsound.writeBack hfile hlarge garbage
    exact ⟨disk, hwrite⟩
  · intro object hsize
    rw [← hsize] at hlarge
    exact ⟨_, fetchFrom_eq hfile hlarge s.disk⟩

/-- A file of one sector. -/
def oneSector : OpenFile := ⟨⟨128, 1, [5] ++ List.replicate 29 0, rfl⟩, 0⟩

theorem oneSector_wellFormed : oneSector.hdr.WellFormed :=
  ⟨by decide, by decide, by decide, by decide⟩

def shortName : Image Byte := Image.ofList [97, 98] 0

def longName : Image Byte := Image.ofList [97, 98, 99, 100, 101, 102, 103, 104, 105, 106, 107] 0

/-- A name of eleven characters is added in place of one of two characters that is removed. -/
theorem directory_is_map_replaced : ∃ s, (sessions 1 oneSector).Reachable s ∧
    s.updates = [.added longName 7, .removed shortName, .added shortName 3] ∧
    s.dir.find longName = 7 ∧ s.dir.find shortName = -1 := by
  let s : Session := ⟨new 1 fun _ => 0, fun _ => 0, [], none⟩
  have hs : (sessions 1 oneSector).Reachable s := .init ⟨_, _, rfl⟩
  have ht := ((hs.step (.add s shortName 3 (by decide))).step (.remove _ shortName)).step
    (.add _ longName 7 (by decide))
  have hmap := directory_is_map oneSector_wellFormed (by decide) ht
  exact ⟨_, ht, rfl, hmap.find longName, hmap.find shortName⟩

end Directory

end Nachos

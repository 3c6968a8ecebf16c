import Nachos.DirectoryMap

/-! The names of a directory as strings. `Add` copies at most `FileNameMaxLen` characters and writes no zero behind
them: a name of full length ends in the byte that the entry had there before. `List` prints the names as strings. -/

namespace Nachos

section Strings

variable {l rest : List Byte}

theorem cString_append_of_mem (h : (0 : Byte) ∈ l) (rest : List Byte) : cString (l ++ rest) = cString l := by
  induction l with
  | nil => cases h
  | cons b l ih =>
      rw [List.cons_append, cString, cString]
      split_ifs with hzero
      · rfl
      · have hrest := (List.mem_cons.mp h).resolve_left (fun heq => hzero heq.symm)
        rw [ih hrest]

theorem cString_append_zero (l rest : List Byte) : cString (l ++ 0 :: rest) = cString l := by
  induction l with
  | nil => rfl
  | cons b l ih =>
      rw [List.cons_append, cString, cString, ih]

/-- `strncpy` writes a zero only if the string ends early enough. -/
theorem zero_mem_strncpy (n : Nat) (src : Image Byte) :
    (0 : Byte) ∈ strncpy src n ↔ (0 : Byte) ∈ Image.load src 0 n := by
  induction n generalizing src with
  | zero => exact Iff.rfl
  | succ n ih =>
      rw [load_succ, strncpy]
      split_ifs with hzero
      · rw [hzero, List.replicate_succ]
        exact iff_of_true List.mem_cons_self List.mem_cons_self
      · rw [List.mem_cons, List.mem_cons, ih]

end Strings

namespace DirectoryEntry

/-- The name has its zero. -/
def Terminated (e : DirectoryEntry) : Prop := (0 : Byte) ∈ e.name

instance (e : DirectoryEntry) : Decidable e.Terminated := inferInstanceAs (Decidable ((0 : Byte) ∈ e.name))

/-- The byte behind the characters of the longest names. -/
def lastByte (e : DirectoryEntry) : Byte := e.name.getD fileNameMaxLen 0

variable (e : DirectoryEntry)

theorem name_eq : e.name = e.name.take fileNameMaxLen ++ [e.lastByte] := by
  have hlt : fileNameMaxLen < e.name.length := by
    rw [e.length_name]
    exact Nat.lt_succ_self _
  have hdrop : e.name.drop fileNameMaxLen = [e.lastByte] := by
    rw [List.drop_eq_getElem_cons hlt, List.drop_eq_nil_of_le (by rw [e.length_name])]
    unfold lastByte
    rw [List.getD_eq_getElem _ _ hlt]
  rw [← hdrop, List.take_append_drop]

theorem key_eq : e.key = cString (e.name.take fileNameMaxLen) := by
  have hload : Image.load (Image.ofList e.name 0) 0 fileNameMaxLen = e.name.take fileNameMaxLen := by
    apply Image.load_eq
    · rw [List.length_take, e.length_name]
      rfl
    · intro j hj
      have hlt : j < e.name.length := by
        rw [List.length_take] at hj
        omega
      rw [Image.ofList_apply, Nat.zero_add, List.getElem?_eq_getElem hlt, Option.getD_some, List.getElem_take]
  unfold key fileName
  rw [hload]

/-- A name that has its zero is printed up to the characters that count. -/
theorem Terminated.cString_name {e : DirectoryEntry} (h : e.Terminated) : cString e.name = e.key := by
  have hname := e.name_eq
  rw [key_eq]
  unfold Terminated at h
  generalize e.name.take fileNameMaxLen = front at hname ⊢
  rw [hname] at h ⊢
  rcases List.mem_append.mp h with hfront | hlast
  · exact cString_append_of_mem hfront _
  · rw [← List.mem_singleton.mp hlast]
    exact cString_append_zero front []

end DirectoryEntry

namespace Directory

/-- Every name of a file has its zero. -/
def Terminated (dir : Directory) : Prop := ∀ e ∈ dir, e.inUse = true → e.Terminated

/-- The memory from the name of the entry `i` on, with the bytes behind the table. -/
def nameOnward (dir : Directory) (beyond : List Byte) (i : Nat) : List Byte :=
  Image.load (DirectoryEntry.layout.arrayCells dir) (20 * i + 8) (20 * (dir.length - i) - 8) ++ beyond

/-- What `Directory::List` prints. -/
def list (dir : Directory) (beyond : List Byte) : List (List Byte) :=
  (List.range dir.length).filterMap fun i =>
    dir[i]?.bind fun e => if e.inUse then some (cString (dir.nameOnward beyond i) ++ [10]) else none

section List

variable {dir : Directory} {i : Nat} {e : DirectoryEntry}

theorem nameOnward_eq (h : dir[i]? = some e) (beyond : List Byte) :
    ∃ rest, dir.nameOnward beyond i = e.name ++ rest := by
  obtain ⟨hi, hentry⟩ := List.getElem?_eq_some_iff.mp h
  have hsize : 20 * (dir.length - i) - 8 = 10 + (20 * (dir.length - i) - 18) := by omega
  have hname : Image.load (DirectoryEntry.layout.arrayCells dir) (20 * i + 8) 10 = e.name := by
    rw [← e.load_cells_name]
    apply Image.load_congr
    intro j hj
    have hdiv : (20 * i + 8 + j) / 20 = i := by omega
    have hmod : (20 * i + 8 + j) % 20 = 8 + j := by omega
    change (dir[(20 * i + 8 + j) / 20]?.map fun e => e.cells ((20 * i + 8 + j) % 20)).getD default = _
    rw [hdiv, hmod, h]
    rfl
  unfold nameOnward
  rw [hsize, Image.load_add, hname, List.append_assoc]
  exact ⟨_, rfl⟩

/-- A loop over the indices of a list. -/
theorem filterMap_range {α β : Type} (f : α → Option β) (l : List α) :
    (List.range l.length).filterMap (fun i => l[i]?.bind f) = l.filterMap f := by
  have hall : (List.range l.length).map (fun i => l[i]?) = l.map some := by
    apply List.ext_getElem
    · rw [List.length_map, List.length_map, List.length_range]
    · intro i hi hi'
      rw [List.length_map] at hi'
      rw [List.getElem_map, List.getElem_map, List.getElem_range, List.getElem?_eq_getElem hi']
  calc (List.range l.length).filterMap (fun i => l[i]?.bind f)
      = ((List.range l.length).map fun i => l[i]?).filterMap (Option.bind · f) := by
        rw [List.filterMap_map]
        rfl
    _ = (l.map some).filterMap (Option.bind · f) := by rw [hall]
    _ = l.filterMap f := by
        rw [List.filterMap_map]
        rfl

/-- `List` prints the names, if they have their zeros. -/
theorem Terminated.list_eq (h : dir.Terminated) (beyond : List Byte) :
    dir.list beyond = (dir.filter (·.inUse)).map fun e => e.key ++ [10] := by
  have hentry : ∀ i ∈ List.range dir.length, (dir[i]?.bind fun e =>
      if e.inUse then some (cString (dir.nameOnward beyond i) ++ [10]) else none) =
        dir[i]?.bind fun e => if e.inUse then some (e.key ++ [10]) else none := by
    intro i _
    cases hget : dir[i]? with
    | none => rfl
    | some e =>
        rw [Option.bind_some, Option.bind_some]
        split_ifs with hused
        · obtain ⟨rest, hrest⟩ := nameOnward_eq hget beyond
          have hterminated := h e (List.mem_of_getElem? hget) hused
          rw [hrest, cString_append_of_mem hterminated, hterminated.cString_name]
        · rfl
  unfold list
  rw [List.filterMap_congr hentry, filterMap_range]
  clear h hentry
  induction dir with
  | nil => rfl
  | cons e rest ih =>
      rw [List.filterMap_cons, List.filter_cons, ih]
      cases e.inUse <;> rfl

end List

section Calls

variable {dir : Directory} {name : Image Byte} {newSector : Int}

/-- The entry that `Add` takes gets its zero from the name or has it from before. -/
def TakesTerminated (dir : Directory) (name : Image Byte) : Prop :=
  ∀ e, dir.find? (fun e => !e.inUse) = some e → (0 : Byte) ∈ Image.load name 0 fileNameMaxLen ∨ e.lastByte = 0

theorem zero_mem_taken (e : DirectoryEntry) (name : Image Byte) :
    (0 : Byte) ∈ strncpy name fileNameMaxLen ++ e.name.drop fileNameMaxLen ↔
      (0 : Byte) ∈ Image.load name 0 fileNameMaxLen ∨ e.lastByte = 0 := by
  have hdrop : e.name.drop fileNameMaxLen = [e.lastByte] := by
    conv_lhs => rw [e.name_eq]
    rw [List.drop_left']
    rw [List.length_take, e.length_name]
    rfl
  rw [List.mem_append, zero_mem_strncpy, hdrop, List.mem_singleton, eq_comm (a := (0 : Byte))]

theorem terminated_cons {e : DirectoryEntry} {rest : Directory} :
    Terminated (e :: rest) ↔ (e.inUse = true → e.Terminated) ∧ Terminated rest := List.forall_mem_cons

theorem terminated_addEntry_iff (h : dir.Terminated) :
    (addEntry name newSector dir).2.Terminated ↔ dir.TakesTerminated name := by
  induction dir with
  | nil => exact iff_of_true h fun e he => absurd he nofun
  | cons e rest ih =>
      obtain ⟨he, hrest⟩ := terminated_cons.mp h
      unfold TakesTerminated
      rw [addEntry, List.find?_cons]
      cases hused : e.inUse with
      | false =>
          change Terminated (_ :: rest) ↔ ∀ f, some e = some f → _
          rw [terminated_cons]
          constructor
          · intro hall f hf
            rw [← Option.some.inj hf]
            exact (zero_mem_taken e name).mp (hall.1 rfl)
          · intro htakes
            exact ⟨fun _ => (zero_mem_taken e name).mpr (htakes e rfl), hrest⟩
      | true =>
          change Terminated (e :: (addEntry name newSector rest).2) ↔ TakesTerminated rest name
          rw [terminated_cons, ih hrest]
          exact and_iff_right he

theorem terminated_add_iff (h : dir.Terminated) :
    (dir.add name newSector).2.Terminated ↔ (dir.findIndex name = -1 → dir.TakesTerminated name) := by
  unfold add
  split_ifs with hindex
  · exact iff_of_true h fun habsent => absurd habsent hindex
  · rw [terminated_addEntry_iff h]
    exact ⟨fun htakes _ => htakes, fun htakes => htakes (not_not.mp hindex)⟩

theorem Terminated.remove (h : dir.Terminated) (name : Image Byte) : (dir.remove name).2.Terminated := by
  rcases dir.find_spec name with ⟨-, hindex, -⟩ | ⟨pre, e, post, rfl, -, -, hremove⟩
  · unfold Directory.remove
    simp only
    rw [if_pos hindex]
    exact h
  · rw [hremove]
    intro f hf hused
    rcases List.mem_append.mp hf with hpre | hpost
    · exact h f (List.mem_append_left _ hpre) hused
    · rcases List.mem_cons.mp hpost with rfl | hpost
      · cases hused
      · exact h f (List.mem_append_right _ (List.mem_cons_of_mem _ hpost)) hused

theorem terminated_new (size : Nat) (garbage : Image Byte) : (new size garbage).Terminated := by
  intro e he hused
  obtain ⟨f, -, rfl⟩ := List.mem_map.mp he
  cases hused

/-- A name that is added is printed. -/
theorem mem_list_add (h : (dir.add name newSector).1 = true) (hnames : (dir.add name newSector).2.Terminated)
    (beyond : List Byte) : fileName name ++ [10] ∈ (dir.add name newSector).2.list beyond := by
  rw [hnames.list_eq]
  clear hnames
  unfold add at h ⊢
  split_ifs at h ⊢
  rcases addEntry_spec name newSector dir with ⟨hadd, -⟩ | ⟨pre, e, e', post, -, -, hnew, hadd⟩
  · rw [hadd] at h
    cases h
  · rw [hadd, ← hnew.key]
    apply List.mem_map_of_mem
    apply List.mem_filter.mpr
    exact ⟨by simp, hnew.inUse⟩

end Calls

/-- The calls that change a directory or its file. `FetchFrom` may be called on another object of the size. -/
inductive Call where
  | add (name : Image Byte) (newSector : Int)
  | remove (name : Image Byte)
  | writeBack (garbage : Image Byte)
  | fetchFrom (object : Directory)

/-- A directory object, the disk that its file is on, and whether the file has been written. -/
structure Stored where
  dir : Directory
  disk : Disk
  saved : Bool

namespace Stored

variable {size : Nat} {file : OpenFile} {s t : Stored} {c : Call}

/-- The call `c` takes `s` to `t`. -/
inductive Does (size : Nat) (file : OpenFile) (s : Stored) : Call → Stored → Prop where
  | add (name : Image Byte) (newSector : Int) :
      Does size file s (.add name newSector) { s with dir := (s.dir.add name newSector).2 }
  | remove (name : Image Byte) : Does size file s (.remove name) { s with dir := (s.dir.remove name).2 }
  | writeBack (garbage : Image Byte) {disk : Disk} (hwrite : s.dir.writeBack file s.disk garbage = some disk) :
      Does size file s (.writeBack garbage) { s with disk := disk, saved := true }
  | fetchFrom (object : Directory) (hsize : object.length = size) {dir : Directory}
      (hfetch : object.fetchFrom file s.disk = some dir) : Does size file s (.fetchFrom object) { s with dir := dir }

/-- The table that the file holds. -/
def fileTable (size : Nat) (file : OpenFile) (s : Stored) : Directory :=
  DirectoryEntry.layout.readArray (file.hdr.image s.disk) 0 size

/-- The condition on a call: if `Add` takes an entry, there is a zero, and `FetchFrom` reads names that were written
back or have their zeros. -/
def KeepsNames (size : Nat) (file : OpenFile) (s : Stored) : Call → Prop
  | .add name _ => s.dir.findIndex name = -1 → s.dir.TakesTerminated name
  | .remove _ => True
  | .writeBack _ => True
  | .fetchFrom _ => s.saved = true ∨ (s.fileTable size file).Terminated

/-- The runs from the empty directory, through calls that meet the condition. -/
def runs (size : Nat) (file : OpenFile) : TransitionSystem Stored where
  init s := ∃ garbage disk, s = ⟨new size garbage, disk, false⟩
  step s t := ∃ c, Does size file s c t ∧ KeepsNames size file s c

/-- The names in memory have their zeros, and so have those in the file that was written. -/
structure Sound (size : Nat) (file : OpenFile) (s : Stored) : Prop where
  length : s.dir.length = size
  names : s.dir.Terminated
  file : s.saved = true → (s.fileTable size file).Terminated

variable (hfile : file.hdr.WellFormed) (hlarge : size * DirectoryEntry.layout.size ≤ file.hdr.numBytes.toNat)
include hfile hlarge

/-- A call keeps the zeros of the names if and only if it meets the condition. -/
theorem Sound.names_iff (h : s.Sound size file) (hdoes : Does size file s c t) :
    t.dir.Terminated ↔ KeepsNames size file s c := by
  cases hdoes with
  | add name newSector => exact terminated_add_iff h.names
  | remove name => exact iff_of_true (h.names.remove name) trivial
  | writeBack garbage hwrite => exact iff_of_true h.names trivial
  | fetchFrom object hsize hfetch =>
      subst hsize
      rw [fetchFrom_eq hfile hlarge, Option.some.injEq] at hfetch
      subst hfetch
      exact ⟨.inr, fun hkeeps => hkeeps.elim h.file id⟩

theorem Sound.step (h : s.Sound size file) (hdoes : Does size file s c t) (hkeeps : KeepsNames size file s c) :
    t.Sound size file := by
  have hnames := (h.names_iff hfile hlarge hdoes).mpr hkeeps
  cases hdoes with
  | add name newSector => exact ⟨(length_add ..).trans h.length, hnames, h.file⟩
  | remove name => exact ⟨(length_remove ..).trans h.length, hnames, h.file⟩
  | writeBack garbage hwrite =>
      refine ⟨h.length, hnames, fun _ => ?_⟩
      rw [← h.length] at hlarge
      obtain ⟨disk, hwrite', harray, -⟩ :=
        OpenFile.writeAt_array DirectoryEntry.layout hfile s.disk garbage s.dir hlarge
      rw [Option.some.inj (hwrite.symm.trans hwrite'), fileTable, ← h.length, harray]
      exact h.names
  | fetchFrom object hsize hfetch =>
      subst hsize
      rw [fetchFrom_eq hfile hlarge, Option.some.injEq] at hfetch
      refine ⟨?_, hnames, h.file⟩
      rw [← hfetch]
      exact Layout.length_readArray ..

theorem sound_of_reachable (h : (runs size file).Reachable s) : s.Sound size file := by
  apply h.invariant
  · rintro s ⟨garbage, disk, rfl⟩
    exact ⟨length_new size garbage, terminated_new size garbage, nofun⟩
  · rintro s t _ hsound ⟨c, hdoes, hkeeps⟩
    exact hsound.step hfile hlarge hdoes hkeeps

end Stored

/-- Through calls that meet the condition every name has its zero and `List` prints its characters, and the next call
keeps this if and only if it meets the condition. -/
theorem names_terminated {size : Nat} {file : OpenFile} (hfile : file.hdr.WellFormed)
    (hlarge : size * DirectoryEntry.layout.size ≤ file.hdr.numBytes.toNat) {s : Stored}
    (h : (Stored.runs size file).Reachable s) :
    s.dir.Terminated ∧
    (∀ beyond, s.dir.list beyond = (s.dir.filter (·.inUse)).map fun e => e.key ++ [10]) ∧
    (∀ name newSector beyond, (s.dir.add name newSector).1 = true → s.KeepsNames size file (.add name newSector) →
      fileName name ++ [10] ∈ (s.dir.add name newSector).2.list beyond) ∧
    ∀ c t, Stored.Does size file s c t → (t.dir.Terminated ↔ s.KeepsNames size file c) := by
  have hsound := Stored.sound_of_reachable hfile hlarge h
  refine ⟨hsound.names, hsound.names.list_eq, ?_, fun c t => hsound.names_iff hfile hlarge⟩
  intro name newSector beyond hadd hkeeps
  exact mem_list_add hadd ((terminated_add_iff hsound.names).mpr hkeeps) beyond

/-- A file of two characters is added to a table that held other bytes. -/
theorem names_terminated_short : ∃ s, (Stored.runs 1 oneSector).Reachable s ∧
    s.dir.list [] = [[97, 98, 10]] := by
  let s : Stored := ⟨new 1 fun _ => 0x5a, fun _ => 0, false⟩
  have hs : (Stored.runs 1 oneSector).Reachable s := .init ⟨_, _, rfl⟩
  have ht := hs.step ⟨_, .add shortName 3, fun _ e _ => .inl (by decide)⟩
  have hnames := names_terminated oneSector_wellFormed (by decide) ht
  exact ⟨_, ht, hnames.2.1 []⟩

/-- A name of eleven characters gets no zero in a table that held other bytes, and more than nine characters are
printed. -/
theorem long_name_not_terminated :
    ∃ t, Stored.Does 1 oneSector ⟨new 1 fun _ => 0x5a, fun _ => 0, false⟩ (.add longName 7) t ∧
      fileName longName = [97, 98, 99, 100, 101, 102, 103, 104, 105] ∧ ¬t.dir.Terminated ∧
      t.dir.list [0] = [[97, 98, 99, 100, 101, 102, 103, 104, 105, 0x5a, 0x5a, 0x5a, 10]] := by
  refine ⟨_, .add longName 7, by decide, ?_, by decide⟩
  intro hnames
  exact absurd (hnames _ (List.mem_singleton.mpr rfl) rfl) (by decide)

end Directory

end Nachos

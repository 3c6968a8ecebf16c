import Nachos.OpenFile

/-! The directory, `filesys/directory.cc`: a table of entries that is kept in a file, byte for byte as it
stands in memory. The bit map of `userprog/bitmap.cc` is kept in a file in the same way. -/

namespace Nachos

def fileNameMaxLen : Nat := 9

/-- The library's `strncmp`. -/
def strncmp (a b : Image Byte) : Nat → Int
  | 0 => 0
  | n + 1 =>
      if a 0 ≠ b 0 then (a 0).toNat - (b 0).toNat
      else if a 0 = 0 then 0
      else strncmp (fun k => a (k + 1)) (fun k => b (k + 1)) n

/-- The characters that the library's `strncpy` stores: the rest is filled with zeros. -/
def strncpy (src : Image Byte) : Nat → List Byte
  | 0 => []
  | n + 1 => if src 0 = 0 then List.replicate (n + 1) 0 else src 0 :: strncpy (fun k => src (k + 1)) n

/-- The characters before the first zero. -/
def cString : List Byte → List Byte
  | [] => []
  | c :: rest => if c = 0 then [] else c :: cString rest

/-- The name that a pointer shows, in its first `FileNameMaxLen` characters. -/
def fileName (name : Image Byte) : List Byte := cString (Image.load name 0 fileNameMaxLen)

theorem load_succ (m : Image Byte) (n : Nat) :
    Image.load m 0 (n + 1) = m 0 :: Image.load (fun k => m (k + 1)) 0 n := by
  have hrest : Image.load m (0 + 1) n = Image.load (fun k => m (k + 1)) 0 n := by
    apply Image.load_congr
    intro k _
    congr 1
    omega
  rw [Nat.add_comm n 1, Image.load_add, hrest]
  rfl

/-- `strncmp` compares the names up to their first zero. -/
theorem strncmp_eq_zero (n : Nat) (a b : Image Byte) :
    strncmp a b n = 0 ↔ cString (Image.load a 0 n) = cString (Image.load b 0 n) := by
  induction n generalizing a b with
  | zero => exact ⟨fun _ => rfl, fun _ => rfl⟩
  | succ n ih =>
      rw [load_succ, load_succ, strncmp, cString, cString]
      by_cases heq : a 0 = b 0
      · rw [if_neg (not_not.mpr heq), ← heq]
        by_cases hzero : a 0 = 0
        · simp only [if_pos hzero]
        · rw [if_neg hzero, if_neg hzero, if_neg hzero, ih]
          exact ⟨fun h => by rw [h], fun h => (List.cons.inj h).2⟩
      · have hnat : (a 0).toNat ≠ (b 0).toNat := fun h => heq (BitVec.eq_of_toNat_eq h)
        rw [if_pos heq]
        refine ⟨fun h => by omega, ?_⟩
        intro h
        split_ifs at h with hzero hother
        · exact absurd (hzero.trans hother.symm) heq
        · exact absurd (List.cons.inj h).1 heq

@[simp]
theorem length_strncpy (n : Nat) (src : Image Byte) : (strncpy src n).length = n := by
  induction n generalizing src with
  | zero => rfl
  | succ n ih =>
      rw [strncpy]
      split_ifs
      · exact List.length_replicate
      · rw [List.length_cons, ih]

theorem cString_strncpy (n : Nat) (src : Image Byte) :
    cString (strncpy src n) = cString (Image.load src 0 n) := by
  induction n generalizing src with
  | zero => rfl
  | succ n ih =>
      rw [load_succ, strncpy, cString]
      by_cases hzero : src 0 = 0
      · rw [if_pos hzero, if_pos hzero, List.replicate_succ, cString, if_pos rfl]
      · rw [if_neg hzero, if_neg hzero, cString, if_neg hzero, ih]

structure DirectoryEntry where
  inUse : Bool
  sector : Word
  name : List Byte
  length_name : name.length = fileNameMaxLen + 1
  /-- The bytes of the object that no member takes: three after `inUse` and two at the end. -/
  padding : List Byte
  length_padding : padding.length = 5

namespace DirectoryEntry

/-- The bytes of the object. -/
def cells (e : DirectoryEntry) (k : Nat) : Byte :=
  if k < 1 then if e.inUse then 1 else 0
  else if k < 4 then e.padding.getD (k - 1) 0
  else if k < 8 then Layout.littleEndian.cells e.sector (k - 4)
  else if k < 18 then e.name.getD (k - 8) 0
  else e.padding.getD (k - 15) 0

/-- The object that memory holds. -/
def ofCells (m : Image Byte) : DirectoryEntry where
  inUse := m 0 != 0
  sector := Layout.littleEndian.read fun k => m (4 + k)
  name := Image.load m 8 10
  length_name := Image.length_load
  padding := Image.load m 1 3 ++ Image.load m 18 2
  length_padding := by rw [List.length_append, Image.length_load, Image.length_load]

theorem ofCells_congr {m m' : Image Byte} (h : ∀ k < 20, m k = m' k) : ofCells m = ofCells m' := by
  have hsector : Layout.littleEndian.read (fun k => m (4 + k)) =
      Layout.littleEndian.read fun k => m' (4 + k) := by
    refine Layout.littleEndian.read_congr _ _ ?_
    intro k hk
    have hk : k < 4 := hk
    exact h (4 + k) (by omega)
  have hload : ∀ a n, a + n ≤ 20 → Image.load m a n = Image.load m' a n := by
    intro a n hle
    apply Image.load_congr
    intro k hk
    exact h (a + k) (by omega)
  unfold ofCells
  simp only [h 0 (by decide), hsector, hload 8 10 (by decide), hload 1 3 (by decide), hload 18 2 (by decide)]

theorem load_cells_name (e : DirectoryEntry) : Image.load e.cells 8 10 = e.name := by
  apply Image.load_eq e.length_name
  intro j hj
  have hlt : j < 10 := Nat.lt_of_lt_of_eq hj e.length_name
  rw [cells, if_neg (by omega), if_neg (by omega), if_neg (by omega), if_pos (by omega),
    Nat.add_sub_cancel_left, List.getD_eq_getElem _ _ hj]

theorem load_cells_padding (e : DirectoryEntry) :
    Image.load e.cells 1 3 ++ Image.load e.cells 18 2 = e.padding := by
  have hlen := e.length_padding
  have hhead : Image.load e.cells 1 3 = e.padding.take 3 := by
    apply Image.load_eq (by rw [List.length_take, hlen]; rfl)
    intro j hj
    rw [List.length_take] at hj
    rw [cells, if_neg (by omega), if_pos (by omega), Nat.add_sub_cancel_left, List.getElem_take,
      List.getD_eq_getElem _ _ (by omega)]
  have htail : Image.load e.cells 18 2 = e.padding.drop 3 := by
    apply Image.load_eq (by rw [List.length_drop, hlen])
    intro j hj
    rw [List.length_drop] at hj
    have hj' : 3 + j < e.padding.length := by omega
    rw [cells, if_neg (by omega), if_neg (by omega), if_neg (by omega), if_neg (by omega),
      show 18 + j - 15 = 3 + j by omega, List.getElem_drop, List.getD_eq_getElem _ _ hj']
  rw [hhead, htail, List.take_append_drop]

theorem read_cells_sector (e : DirectoryEntry) :
    Layout.littleEndian.read (fun k => e.cells (4 + k)) = e.sector := by
  have hread : Layout.littleEndian.read (fun k => e.cells (4 + k)) =
      Layout.littleEndian.read (Layout.littleEndian.cells e.sector) := by
    refine Layout.littleEndian.read_congr _ _ ?_
    intro k hk
    have hk : k < 4 := hk
    rw [cells, if_neg (by omega), if_neg (by omega), if_pos (by omega), Nat.add_sub_cancel_left]
  rw [hread, Layout.littleEndian.read_cells]

theorem ofCells_cells (e : DirectoryEntry) : ofCells e.cells = e := by
  have hinUse : (e.cells 0 != 0) = e.inUse := by
    unfold cells
    cases e.inUse <;> rfl
  unfold ofCells
  simp only [hinUse, e.read_cells_sector, e.load_cells_name, e.load_cells_padding]

/-- The object as it stands in memory. -/
def layout : Layout Byte DirectoryEntry where
  size := 20
  cells := cells
  read := ofCells
  read_congr _ _ h := ofCells_congr h
  read_cells := ofCells_cells

/-- The name in the entry. -/
def key (e : DirectoryEntry) : List Byte := fileName (Image.ofList e.name 0)

end DirectoryEntry

/-- The table of the directory: as many entries as `tableSize`. -/
abbrev Directory := List DirectoryEntry

namespace Directory

/-- `Directory::Directory`, on memory with any contents. -/
def new (size : Nat) (garbage : Image Byte) : Directory :=
  (DirectoryEntry.layout.readArray garbage 0 size).map fun e => { e with inUse := false }

/-- `Directory::FetchFrom`: the table is overwritten with the bytes that are read. -/
def fetchFrom (dir : Directory) (file : OpenFile) (d : Disk) : Option Directory :=
  (file.readAt d (dir.length * DirectoryEntry.layout.size) 0).map fun bytes =>
    DirectoryEntry.layout.readArray (Image.store (DirectoryEntry.layout.arrayCells dir) 0 bytes) 0 dir.length

/-- `Directory::WriteBack`. -/
def writeBack (dir : Directory) (file : OpenFile) (d : Disk) (garbage : Image Byte) : Option Disk :=
  (file.writeAt d garbage (DirectoryEntry.layout.arrayCells dir) (dir.length * DirectoryEntry.layout.size) 0).map
    Prod.snd

/-- The loop of `Directory::FindIndex` from entry `i` on. -/
def findIndexFrom (name : Image Byte) : Directory → Nat → Int
  | [], _ => -1
  | e :: rest, i =>
      if e.inUse ∧ strncmp (Image.ofList e.name 0) name fileNameMaxLen = 0 then i
      else findIndexFrom name rest (i + 1)

/-- `Directory::FindIndex`. -/
def findIndex (dir : Directory) (name : Image Byte) : Int := findIndexFrom name dir 0

/-- `Directory::Find`. -/
def find (dir : Directory) (name : Image Byte) : Int :=
  let i := dir.findIndex name
  if i ≠ -1 then (dir[i.toNat]?.map fun e => e.sector.toInt).getD (-1) else -1

/-- The loop of `Directory::Add`. -/
def addEntry (name : Image Byte) (newSector : Int) : Directory → Bool × Directory
  | [] => (false, [])
  | e :: rest =>
      if !e.inUse then
        (true,
          { e with
            inUse := true
            name := strncpy name fileNameMaxLen ++ e.name.drop fileNameMaxLen
            length_name := by
              rw [List.length_append, length_strncpy, List.length_drop, e.length_name, Nat.add_sub_cancel_left]
            sector := BitVec.ofInt 32 newSector } :: rest)
      else
        let (added, rest) := addEntry name newSector rest
        (added, e :: rest)

/-- `Directory::Add`. -/
def add (dir : Directory) (name : Image Byte) (newSector : Int) : Bool × Directory :=
  if dir.findIndex name ≠ -1 then (false, dir) else addEntry name newSector dir

/-- `Directory::Remove`. -/
def remove (dir : Directory) (name : Image Byte) : Bool × Directory :=
  let i := dir.findIndex name
  if i = -1 then (false, dir) else (true, dir.modify i.toNat fun e => { e with inUse := false })

end Directory

namespace BitMap

/-- `BitMap::FetchFrom`. -/
def fetchFrom (m : BitMap) (file : OpenFile) (d : Disk) : Option BitMap :=
  (file.readAt d (m.map.length * Layout.littleEndian.size) 0).map fun bytes =>
    { m with
      map := Layout.littleEndian.readArray (Image.store (Layout.littleEndian.arrayCells m.map) 0 bytes) 0
        m.map.length
      length_map := by rw [Layout.length_readArray, m.length_map] }

/-- `BitMap::WriteBack`. -/
def writeBack (m : BitMap) (file : OpenFile) (d : Disk) (garbage : Image Byte) : Option Disk :=
  (file.writeAt d garbage (Layout.littleEndian.arrayCells m.map) (m.map.length * Layout.littleEndian.size) 0).map
    Prod.snd

end BitMap

namespace Directory

variable {dir : Directory} {name : Image Byte}

/-- The entry is in use under the name. -/
def Matches (name : Image Byte) (e : DirectoryEntry) : Prop := e.inUse = true ∧ e.key = fileName name

theorem matches_iff (e : DirectoryEntry) :
    (e.inUse ∧ strncmp (Image.ofList e.name 0) name fileNameMaxLen = 0) ↔ Matches name e := by
  unfold Matches
  rw [strncmp_eq_zero]
  rfl

theorem findIndexFrom_spec (name : Image Byte) (dir : Directory) (i : Nat) :
    (findIndexFrom name dir i = -1 ∧ ∀ e ∈ dir, ¬Matches name e) ∨
      ∃ pre e post, dir = pre ++ e :: post ∧ Matches name e ∧ findIndexFrom name dir i = ↑(i + pre.length) := by
  induction dir generalizing i with
  | nil => exact .inl ⟨rfl, by simp⟩
  | cons e rest ih =>
      rw [findIndexFrom]
      by_cases hmatch : Matches name e
      · right
        refine ⟨[], e, rest, rfl, hmatch, ?_⟩
        rw [if_pos ((matches_iff e).mpr hmatch)]
        rfl
      · rw [if_neg (fun h => hmatch ((matches_iff e).mp h))]
        rcases ih (i + 1) with ⟨hnone, hall⟩ | ⟨pre, e', post, rfl, hmatch', hindex⟩
        · refine .inl ⟨hnone, ?_⟩
          intro e' he'
          rcases List.mem_cons.mp he' with rfl | he'
          · exact hmatch
          · exact hall e' he'
        · right
          refine ⟨e :: pre, e', post, rfl, hmatch', ?_⟩
          rw [hindex, List.length_cons]
          omega

/-- `FindIndex` finds an entry in use under the name, or there is none. -/
theorem findIndex_spec (dir : Directory) (name : Image Byte) :
    (dir.findIndex name = -1 ∧ ∀ e ∈ dir, ¬Matches name e) ∨
      ∃ pre e post, dir = pre ++ e :: post ∧ Matches name e ∧ dir.findIndex name = ↑pre.length := by
  have h := findIndexFrom_spec name dir 0
  simp only [Nat.zero_add] at h
  exact h

theorem modify_append_cons (pre post : Directory) (e : DirectoryEntry) (f : DirectoryEntry → DirectoryEntry) :
    (pre ++ e :: post).modify pre.length f = pre ++ f e :: post := by
  induction pre with
  | nil => rfl
  | cons e' pre ih => rw [List.cons_append, List.length_cons, List.modify_succ_cons, ih, List.cons_append]

/-- `Find` returns the sector of such an entry, and `Remove` takes it out of use. -/
theorem find_spec (dir : Directory) (name : Image Byte) :
    (dir.find name = -1 ∧ dir.findIndex name = -1 ∧ ∀ e ∈ dir, ¬Matches name e) ∨
      ∃ pre e post, dir = pre ++ e :: post ∧ Matches name e ∧ dir.find name = e.sector.toInt ∧
        dir.remove name = (true, pre ++ { e with inUse := false } :: post) := by
  rcases dir.findIndex_spec name with ⟨hindex, hall⟩ | ⟨pre, e, post, rfl, hmatch, hindex⟩
  · refine .inl ⟨?_, hindex, hall⟩
    unfold find
    simp only [hindex, ne_eq, not_true_eq_false, if_false]
  · refine .inr ⟨pre, e, post, rfl, hmatch, ?_, ?_⟩
    · unfold find
      rw [hindex]
      simp only
      rw [if_pos (by omega), Int.toNat_natCast, List.getElem?_append_right (Nat.le_refl _), Nat.sub_self]
      rfl
    · unfold remove
      rw [hindex]
      simp only
      rw [if_neg (by omega), Int.toNat_natCast, modify_append_cons]

/-- The new entry of `Add`. -/
structure IsNew (name : Image Byte) (newSector : Int) (e : DirectoryEntry) : Prop where
  inUse : e.inUse = true
  key : e.key = fileName name
  sector : e.sector = BitVec.ofInt 32 newSector

theorem key_strncpy (name : Image Byte) (rest : List Byte) :
    fileName (Image.ofList (strncpy name fileNameMaxLen ++ rest) 0) = fileName name := by
  have hload : Image.load (Image.ofList (strncpy name fileNameMaxLen ++ rest) 0) 0 fileNameMaxLen =
      strncpy name fileNameMaxLen := by
    apply Image.load_eq (length_strncpy _ _)
    intro j hj
    simp [Image.ofList, Image.store, List.getElem?_append_left hj, List.getElem?_eq_getElem hj]
  unfold fileName
  rw [hload, cString_strncpy]

/-- The loop of `Add` takes the first free entry, or there is none. -/
theorem addEntry_spec (name : Image Byte) (newSector : Int) (dir : Directory) :
    (addEntry name newSector dir = (false, dir) ∧ ∀ e ∈ dir, e.inUse = true) ∨
      ∃ pre e e' post, dir = pre ++ e :: post ∧ e.inUse = false ∧ IsNew name newSector e' ∧
        addEntry name newSector dir = (true, pre ++ e' :: post) := by
  induction dir with
  | nil => exact .inl ⟨rfl, by simp⟩
  | cons e rest ih =>
      rw [addEntry]
      cases hused : e.inUse with
      | false =>
          right
          refine ⟨[], e, _, rest, rfl, hused, ?_, rfl⟩
          exact ⟨rfl, key_strncpy name _, rfl⟩
      | true =>
          rcases ih with ⟨hnone, hall⟩ | ⟨pre, e₀, e', post, rfl, hfree, hnew, hadd⟩
          · left
            rw [hnone]
            refine ⟨rfl, ?_⟩
            intro e' he'
            rcases List.mem_cons.mp he' with rfl | he'
            · exact hused
            · exact hall e' he'
          · right
            rw [hadd]
            exact ⟨e :: pre, e₀, e', post, rfl, hfree, hnew, rfl⟩

section Length

theorem length_new (size : Nat) (garbage : Image Byte) : (new size garbage).length = size := by
  rw [new, List.length_map, Layout.length_readArray]

theorem length_add (dir : Directory) (name : Image Byte) (newSector : Int) :
    (dir.add name newSector).2.length = dir.length := by
  unfold add
  split_ifs
  · rfl
  · rcases addEntry_spec name newSector dir with ⟨hadd, -⟩ | ⟨pre, e, e', post, rfl, -, -, hadd⟩
    · rw [hadd]
    · rw [hadd, List.length_append, List.length_append]
      rfl

theorem length_remove (dir : Directory) (name : Image Byte) : (dir.remove name).2.length = dir.length := by
  unfold remove
  simp only
  split_ifs
  · rfl
  · exact List.length_modify ..

end Length

end Directory

namespace BitMap

theorem fetchFrom_eq (m : BitMap) {file : OpenFile} (h : file.hdr.WellFormed) (d : Disk)
    (hlen : file.hdr.numBytes.toNat = m.map.length * Layout.littleEndian.size) :
    ∃ m', m.fetchFrom file d = some m' ∧ m'.numBits = m.numBits ∧
      m'.map = Layout.littleEndian.readArray (file.hdr.image d) 0 m.map.length := by
  have harray := OpenFile.readAt_array Layout.littleEndian h d (Layout.littleEndian.arrayCells m.map) hlen.ge
  obtain ⟨bytes, hread, hmap⟩ := Option.map_eq_some_iff.mp harray
  unfold fetchFrom
  rw [hread]
  exact ⟨_, rfl, rfl, hmap⟩

end BitMap

end Nachos

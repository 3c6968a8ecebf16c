import Mathlib.Data.List.GetD
import Mathlib.Data.List.Range

/-! Images: what stands at each address of a block of memory or of a device. Objects are kept in an
image by a layout, which says how many cells an object takes, what they hold and how the object is
read back. Nothing here is about a particular program. -/

abbrev Image (α : Type) := Nat → α

namespace Image

variable {α : Type}

/-- The `n` cells from address `a` on. -/
def load (m : Image α) (a n : Nat) : List α := (List.range n).map fun j => m (a + j)

/-- The image after the cells from address `a` on are overwritten. -/
def store (m : Image α) (a : Nat) (l : List α) : Image α :=
  fun k => if a ≤ k then l[k - a]?.getD (m k) else m k

variable {m m' : Image α} {a b k n : Nat}

@[simp]
theorem length_load : (load m a n).length = n := by
  rw [load, List.length_map, List.length_range]

theorem getElem?_load : (load m a n)[k]? = if k < n then some (m (a + k)) else none := by
  unfold load
  rw [List.getElem?_map]
  split_ifs with hk
  · rw [List.getElem?_range hk, Option.map_some]
  · rw [List.getElem?_eq_none (by rw [List.length_range]; omega), Option.map_none]

theorem load_congr (h : ∀ j < n, m (a + j) = m' (b + j)) : load m a n = load m' b n := by
  apply List.map_congr_left
  intro j hj
  exact h j (List.mem_range.mp hj)

theorem load_eq {l : List α} (hlen : l.length = n) (h : ∀ j, (hj : j < l.length) → m (a + j) = l[j]) :
    load m a n = l := by
  apply List.ext_getElem
  · rw [length_load, hlen]
  intro j hj hj'
  have hget : (load m a n)[j]? = some (m (a + j)) := by
    rw [getElem?_load, if_pos (by omega)]
  rw [List.getElem?_eq_getElem hj] at hget
  rw [Option.some.inj hget, h j hj']

theorem load_add (m : Image α) (a n k : Nat) : load m a (n + k) = load m a n ++ load m (a + n) k := by
  unfold load
  rw [List.range_add, List.map_append, List.map_map]
  congr 1
  apply List.map_congr_left
  intro j _
  exact congrArg m (Nat.add_assoc a n j).symm

theorem take_load (h : k ≤ n) : (load m a n).take k = load m a k := by
  obtain ⟨rest, rfl⟩ := Nat.exists_eq_add_of_le h
  rw [load_add, List.take_left' length_load]

theorem drop_load (h : k ≤ n) : (load m a n).drop k = load m (a + k) (n - k) := by
  obtain ⟨rest, rfl⟩ := Nat.exists_eq_add_of_le h
  rw [load_add, List.drop_left' length_load, Nat.add_sub_cancel_left]

/-- Copying cells from one image to another. -/
theorem store_load (m m' : Image α) (a b n k : Nat) :
    store m a (load m' b n) k = if a ≤ k ∧ k < a + n then m' (b + (k - a)) else m k := by
  unfold store
  rw [getElem?_load]
  by_cases hle : a ≤ k
  · by_cases hlt : k < a + n
    · rw [if_pos hle, if_pos (by omega), if_pos ⟨hle, hlt⟩, Option.getD_some]
    · rw [if_pos hle, if_neg (by omega), if_neg (fun h => hlt h.2), Option.getD_none]
  · rw [if_neg hle, if_neg (fun h => hle h.1)]

/-- The image that holds a list from address 0 on. -/
def ofList (l : List α) (default : α) : Image α := store (fun _ => default) 0 l

theorem ofList_apply (l : List α) (default : α) (k : Nat) : ofList l default k = l[k]?.getD default := by
  unfold ofList store
  rw [if_pos (Nat.zero_le k), Nat.sub_zero]

end Image

/-- How the values of a type are kept in cells: every value is read back from the cells it takes. -/
structure Layout (Cell α : Type) where
  size : Nat
  cells : α → Image Cell
  read : Image Cell → α
  read_congr : ∀ m m' : Image Cell, (∀ k < size, m k = m' k) → read m = read m'
  read_cells : ∀ x, read (cells x) = x

namespace Layout

variable {Cell α : Type}

/-- The values of an array that is kept from address `a` on. -/
def readArray (layout : Layout Cell α) (m : Image Cell) (a n : Nat) : List α :=
  (List.range n).map fun i => layout.read fun k => m (a + layout.size * i + k)

/-- The cells of an array. -/
def arrayCells (layout : Layout Cell α) [Inhabited Cell] (l : List α) : Image Cell :=
  fun k => (l[k / layout.size]?.map fun x => layout.cells x (k % layout.size)).getD default

variable (layout : Layout Cell α) {m m' : Image Cell} {a n : Nat}

@[simp]
theorem length_readArray : (layout.readArray m a n).length = n := by
  rw [readArray, List.length_map, List.length_range]

theorem readArray_congr {b : Nat} (h : ∀ k < layout.size * n, m (a + k) = m' (b + k)) :
    layout.readArray m a n = layout.readArray m' b n := by
  apply List.map_congr_left
  intro i hi
  apply layout.read_congr
  intro k hk
  have hlt : layout.size * i + k < layout.size * n := by
    have hle : layout.size * (i + 1) ≤ layout.size * n :=
      Nat.mul_le_mul_left _ (List.mem_range.mp hi)
    rw [Nat.mul_add, Nat.mul_one] at hle
    omega
  rw [Nat.add_assoc, Nat.add_assoc]
  exact h _ hlt

theorem readArray_arrayCells [Inhabited Cell] (l : List α) :
    layout.readArray (layout.arrayCells l) 0 l.length = l := by
  apply List.ext_getElem
  · exact layout.length_readArray
  intro i hi _
  have hi : i < l.length := by simpa using hi
  have hread : layout.read (fun k => layout.arrayCells l (0 + layout.size * i + k)) =
      layout.read (layout.cells l[i]) := by
    apply layout.read_congr
    intro k hk
    have hdiv : (layout.size * i + k) / layout.size = i := by
      rw [Nat.mul_add_div (by omega), Nat.div_eq_of_lt hk, Nat.add_zero]
    have hmod : (layout.size * i + k) % layout.size = k := by
      rw [Nat.mul_add_mod, Nat.mod_eq_of_lt hk]
    unfold arrayCells
    rw [Nat.zero_add, hdiv, hmod, List.getElem?_eq_getElem hi, Option.map_some, Option.getD_some]
  calc (layout.readArray (layout.arrayCells l) 0 l.length)[i]
      = layout.read (fun k => layout.arrayCells l (0 + layout.size * i + k)) := by
        simp [readArray]
    _ = layout.read (layout.cells l[i]) := hread
    _ = l[i] := layout.read_cells _

/-- The little-endian layout of a 32-bit word in bytes. -/
def littleEndian : Layout (BitVec 8) (BitVec 32) where
  size := 4
  cells w k := w.extractLsb' (8 * k) 8
  read m := m 3 ++ m 2 ++ m 1 ++ m 0
  read_congr := by
    intro m m' h
    rw [h 0 (by decide), h 1 (by decide), h 2 (by decide), h 3 (by decide)]
  read_cells := by
    intro w
    apply BitVec.eq_of_getLsbD_eq
    intro i hi
    simp only [BitVec.getLsbD_append, BitVec.getLsbD_extractLsb']
    split_ifs with h0 h1 h2
    · simp [h0]
    · simp [show i - 8 < 8 from h1, show 8 + (i - 8) = i by omega]
    · simp [show i - 8 - 8 < 8 from h2, show 16 + (i - 8 - 8) = i by omega]
    · have hlt : i - 8 - 8 - 8 < 8 := by omega
      simp [hlt, show 24 + (i - 8 - 8 - 8) = i by omega]

end Layout

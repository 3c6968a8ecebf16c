import Mathlib.Algebra.Group.Int.Defs
import Mathlib.Data.List.Perm.Basic
import Mathlib.Data.Set.Basic

/-! Half-open intervals of integers by their start and length, and lists of them that lie end to end. Nothing here
is about a particular program. -/

structure IntInterval where
  start : Int
  length : Int

namespace IntInterval

def toSet (i : IntInterval) : Set Int := {x | i.start ≤ x ∧ x < i.start + i.length}

/-- What the intervals cover. -/
def cover (l : List IntInterval) : Set Int := {x | ∃ i ∈ l, x ∈ i.toSet}

def total : List IntInterval → Int
  | [] => 0
  | i :: rest => i.length + total rest

/-- Each interval begins where the one before it ends, and the first one at `a`. -/
def AdjacentFrom : Int → List IntInterval → Prop
  | _, [] => True
  | a, i :: rest => i.start = a ∧ AdjacentFrom (a + i.length) rest

/-- The intervals lie end to end in some order. -/
def Contiguous (l : List IntInterval) : Prop := ∃ l' a, l'.Perm l ∧ AdjacentFrom a l'

variable {a : Int} {l l' rest : List IntInterval} {i : IntInterval}

theorem mem_toSet {x : Int} : x ∈ i.toSet ↔ i.start ≤ x ∧ x < i.start + i.length := Iff.rfl

/-- Two intervals end to end. -/
theorem toSet_union {m n : Int} (hm : 0 ≤ m) (hn : 0 ≤ n) :
    toSet ⟨a, m⟩ ∪ toSet ⟨a + m, n⟩ = toSet ⟨a, m + n⟩ := by
  ext x
  simp only [Set.mem_union, mem_toSet]
  omega

/-- An interval that is not empty is determined by its elements. -/
theorem eq_of_toSet {j : IntInterval} (hi : 0 < i.length) (h : i.toSet = j.toSet) : i = j := by
  have hmem : ∀ x, (i.start ≤ x ∧ x < i.start + i.length) ↔ (j.start ≤ x ∧ x < j.start + j.length) := fun x =>
    Set.ext_iff.mp h x
  have hfirst := (hmem i.start).mp (by omega)
  have hlast := (hmem (i.start + i.length - 1)).mp (by omega)
  have hfirst' := (hmem j.start).mpr (by omega)
  have hlast' := (hmem (j.start + j.length - 1)).mpr (by omega)
  obtain ⟨start, length⟩ := i
  obtain ⟨start', length'⟩ := j
  simp only [mk.injEq] at *
  omega

theorem total_perm (h : l'.Perm l) : total l' = total l := by
  induction h with
  | nil => rfl
  | cons i _ ih => rw [total, total, ih]
  | swap i j rest =>
      simp only [total]
      omega
  | trans _ _ ih ih' => exact ih.trans ih'

theorem cover_perm (h : l'.Perm l) : cover l' = cover l := by
  ext x
  exact exists_congr fun i => and_congr_left' h.mem_iff

theorem total_nonneg (hpos : ∀ i ∈ l, 0 < i.length) : 0 ≤ total l := by
  induction l with
  | nil => exact le_refl 0
  | cons i rest ih =>
      have hi := hpos i List.mem_cons_self
      have hrest := ih fun j hj => hpos j (List.mem_cons_of_mem i hj)
      rw [total]
      omega

theorem AdjacentFrom.le_start (h : AdjacentFrom a l) (hpos : ∀ i ∈ l, 0 < i.length) (hi : i ∈ l) : a ≤ i.start := by
  induction l generalizing a with
  | nil => cases hi
  | cons j rest ih =>
      obtain ⟨hstart, hrest⟩ := h
      rcases List.mem_cons.mp hi with rfl | hi
      · exact hstart.ge
      · have hj := hpos j List.mem_cons_self
        have hle := ih hrest (fun k hk => hpos k (List.mem_cons_of_mem j hk)) hi
        omega

/-- Intervals end to end cover one interval. -/
theorem AdjacentFrom.cover_eq (h : AdjacentFrom a l) (hpos : ∀ i ∈ l, 0 < i.length) :
    cover l = toSet ⟨a, total l⟩ := by
  induction l generalizing a with
  | nil =>
      ext x
      simp [cover, total, mem_toSet]
  | cons i rest ih =>
      obtain ⟨rfl, hrest⟩ := h
      have hi := hpos i List.mem_cons_self
      have hpos' : ∀ j ∈ rest, 0 < j.length := fun j hj => hpos j (List.mem_cons_of_mem i hj)
      calc cover (i :: rest)
          = i.toSet ∪ cover rest := by
            ext x
            simp [cover]
        _ = toSet ⟨i.start, i.length⟩ ∪ toSet ⟨i.start + i.length, total rest⟩ := by rw [ih hrest hpos']
        _ = toSet ⟨i.start, i.length + total rest⟩ := toSet_union (Int.le_of_lt hi) (total_nonneg hpos')

/-- The only interval that begins no later than the first one is the first one. -/
theorem AdjacentFrom.eq_cons (h : AdjacentFrom a l') (hpos : ∀ i ∈ l', 0 < i.length) (hperm : l'.Perm (i :: rest))
    (hstart : i.start ≤ a) : ∃ rest', l' = i :: rest' ∧ rest'.Perm rest := by
  cases l' with
  | nil => exact absurd hperm.length_eq (by simp)
  | cons j rest' =>
      obtain ⟨-, hrest⟩ := h
      have hmem : i ∈ j :: rest' := hperm.mem_iff.mpr List.mem_cons_self
      rcases List.mem_cons.mp hmem with rfl | hmem
      · exact ⟨rest', rfl, (List.perm_cons i).mp hperm⟩
      · have hj := hpos j List.mem_cons_self
        have hle := hrest.le_start (fun k hk => hpos k (List.mem_cons_of_mem j hk)) hmem
        omega

end IntInterval

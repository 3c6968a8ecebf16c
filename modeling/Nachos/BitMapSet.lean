import Mathlib.Data.Finset.Card
import Mathlib.Data.Finset.Range
import Mathlib.Data.Nat.Find
import Mathlib.Order.Bounds.Defs
import Nachos.Directory

/-! A bit map as a set of indices, `userprog/bitmap.cc`. The words may hold anything beyond the bits that
count: the set, and what every call returns, depends on the first `numBits` bits only. -/

namespace Nachos

namespace BitMap

/-- The set of the indices that are marked. -/
def toSet (m : BitMap) : Finset Nat := (Finset.range m.numBits).filter fun i => m.bit i = true

variable {m m' : BitMap}

theorem mem_toSet {i : Nat} : i ∈ m.toSet ↔ i < m.numBits ∧ m.bit i = true := by
  rw [toSet, Finset.mem_filter, Finset.mem_range]

theorem toSet_subset (m : BitMap) : m.toSet ⊆ Finset.range m.numBits := Finset.filter_subset _ _

/-- The set shows the bits that count and no others. -/
theorem toSet_congr (hbits : m'.numBits = m.numBits) (h : ∀ i < m.numBits, m'.bit i = m.bit i) :
    m'.toSet = m.toSet := by
  ext i
  rw [mem_toSet, mem_toSet, hbits]
  constructor
  · rintro ⟨hi, hset⟩
    exact ⟨hi, (h i hi).symm.trans hset⟩
  · rintro ⟨hi, hset⟩
    exact ⟨hi, (h i hi).trans hset⟩

theorem toSet_new (numBits : Nat) (garbage : Nat → Word) : (new numBits garbage).toSet = ∅ := by
  ext i
  rw [mem_toSet, numBits_new]
  constructor
  · rintro ⟨hi, hset⟩
    rw [bit_new garbage hi] at hset
    cases hset
  · intro hmem
    simp at hmem

theorem toSet_setBit {i : Nat} (hi : i < m.numBits) : (m.setBit i).toSet = insert i m.toSet := by
  ext j
  rw [Finset.mem_insert, mem_toSet, mem_toSet, bit_setBit hi, numBits_setBit]
  by_cases hj : j = i
  · simp [hj, hi]
  · simp [hj]

theorem toSet_clearBit {i : Nat} (hi : i < m.numBits) : (m.clearBit i).toSet = m.toSet.erase i := by
  ext j
  rw [Finset.mem_erase, mem_toSet, mem_toSet, bit_clearBit hi]
  by_cases hj : j = i
  · simp [hj]
  · simp [hj, clearBit]

theorem clear_eq {i : Nat} (hi : i < m.numBits) : m.clear ↑i = some (m.clearBit i) := by
  unfold clear
  rw [if_pos (by omega), Int.toNat_natCast]

theorem test_eq {i : Nat} (hi : i < m.numBits) : m.test ↑i = some (decide (i ∈ m.toSet)) := by
  have hmem : decide (i ∈ m.toSet) = m.bit i := by
    rw [Bool.eq_iff_iff, decide_eq_true_iff, mem_toSet]
    simp [hi]
  unfold test
  rw [if_pos (by omega), Int.toNat_natCast, hmem]

/-- The assertion of `Mark`, `Clear` and `Test` fails outside the map. -/
theorem outside {which : Int} (h : ¬(0 ≤ which ∧ which < m.numBits)) :
    m.mark which = none ∧ m.clear which = none ∧ m.test which = none :=
  ⟨if_neg h, if_neg h, if_neg h⟩

theorem card_toSet (m : BitMap) : m.toSet.card = (List.range m.numBits).countP fun i => m.bit i := by
  have hlist : m.toSet = ((List.range m.numBits).filter fun i => m.bit i).toFinset := by
    ext i
    rw [mem_toSet, List.mem_toFinset, List.mem_filter, List.mem_range]
  rw [hlist, List.toFinset_card_of_nodup (List.nodup_range.filter _), List.countP_eq_length_filter]

theorem numClear_add_card (m : BitMap) : m.numClear + m.toSet.card = m.numBits := by
  have hsplit := List.length_eq_countP_add_countP (fun i => m.bit i) (l := List.range m.numBits)
  rw [List.length_range] at hsplit
  have hclear : m.numClear = (List.range m.numBits).countP fun i => decide ¬(m.bit i = true) := by
    unfold numClear
    congr 1
    funext i
    cases m.bit i <;> rfl
  rw [hclear, card_toSet, Nat.add_comm]
  exact hsplit.symm

/-- The search stops at the first clear bit. -/
theorem findFrom_of_clear {j : Nat} (hclear : m.bit j = false) (left i : Nat) (hle : i ≤ j) (hlt : j < i + left)
    (hset : ∀ k, i ≤ k → k < j → m.bit k = true) : m.findFrom left i = (↑j, m.setBit j) := by
  induction left generalizing i with
  | zero => omega
  | succ left ih =>
      rw [findFrom]
      by_cases hij : i = j
      · rw [hij, hclear]
        rfl
      · rw [if_pos (hset i (Nat.le_refl i) (by omega))]
        refine ih (i + 1) (by omega) (by omega) ?_
        intro k hk
        exact hset k (by omega)

/-- `Find` takes the least index that is not in the set. -/
theorem find_of_isLeast {i : Nat} (h : IsLeast {i | i < m.numBits ∧ i ∉ m.toSet} i) :
    m.find = (↑i, m.setBit i) := by
  obtain ⟨⟨hi, habsent⟩, hleast⟩ := h
  have hclear : m.bit i = false := by
    rw [Bool.eq_false_iff]
    intro hset
    exact habsent (mem_toSet.mpr ⟨hi, hset⟩)
  apply findFrom_of_clear hclear m.numBits 0 (Nat.zero_le i) (by omega)
  intro k _ hk
  by_contra hbit
  have hle : i ≤ k := hleast ⟨by omega, fun hmem => hbit (mem_toSet.mp hmem).2⟩
  omega

/-- A set that is not full has a least absent index. -/
theorem exists_isLeast (h : m.toSet ≠ Finset.range m.numBits) :
    ∃ i, IsLeast {i | i < m.numBits ∧ i ∉ m.toSet} i := by
  have hex : ∃ i, i < m.numBits ∧ i ∉ m.toSet := by
    by_contra hnone
    apply h
    apply Finset.Subset.antisymm m.toSet_subset
    intro i hi
    by_contra habsent
    exact hnone ⟨i, Finset.mem_range.mp hi, habsent⟩
  classical
  exact ⟨Nat.find hex, Nat.find_spec hex, fun j hj => Nat.find_min' hex hj⟩

theorem find_of_full (h : m.toSet = Finset.range m.numBits) : m.find = (-1, m) := by
  rcases m.find_spec with ⟨hfind, -⟩ | ⟨j, hj, hclear, -⟩
  · exact hfind
  · have hmem : j ∈ m.toSet := by
      rw [h]
      exact Finset.mem_range.mpr hj
    rw [(mem_toSet.mp hmem).2] at hclear
    cases hclear

theorem find_eq_neg_one_iff : m.find.1 = -1 ↔ m.toSet = Finset.range m.numBits := by
  constructor
  · intro hfind
    by_contra hnot
    obtain ⟨i, hleast⟩ := exists_isLeast hnot
    rw [find_of_isLeast hleast] at hfind
    simp only at hfind
    omega
  · intro hfull
    rw [find_of_full hfull]

/-- Maps with the same words and number of bits have the same bits. -/
theorem toSet_of_map (hbits : m'.numBits = m.numBits) (hmap : m'.map = m.map) : m'.toSet = m.toSet := by
  apply toSet_congr hbits
  intro i _
  rw [bit_eq, bit_eq, hmap]

/-- What `WriteBack` leaves in the file is what `FetchFrom` finds there, in any object with as many bits. -/
theorem fetchFrom_writeBack (m : BitMap) {file : OpenFile} (h : file.hdr.WellFormed) (d : Disk)
    (garbage : Image Byte) (hlen : m.map.length * Layout.littleEndian.size ≤ file.hdr.numBytes.toNat) :
    ∃ d', m.writeBack file d garbage = some d' ∧ ∀ target : BitMap, target.numBits = m.numBits →
      ∃ m', target.fetchFrom file d' = some m' ∧ m'.numBits = m.numBits ∧ m'.toSet = m.toSet := by
  obtain ⟨d', hwrite, hwords, -⟩ := OpenFile.writeAt_array Layout.littleEndian h d garbage m.map hlen
  refine ⟨d', hwrite, ?_⟩
  intro target hbits
  have hsame : target.map.length = m.map.length := by
    rw [target.length_map, m.length_map, hbits]
  rw [← hsame] at hlen
  have harray := OpenFile.readAt_array Layout.littleEndian h d' (Layout.littleEndian.arrayCells target.map) hlen
  obtain ⟨bytes, hread, hmap⟩ := Option.map_eq_some_iff.mp harray
  rw [hsame, hwords, ← hsame] at hmap
  unfold fetchFrom
  rw [hread]
  exact ⟨_, rfl, hbits, toSet_of_map hbits hmap⟩

/-- A bit map is a set of the indices below its number of bits: the constructor makes the empty set, whatever
the memory holds, and every call does to the map what it says of the set. -/
theorem represents_set :
    (∀ (numBits : Nat) (garbage : Nat → Word),
      (new numBits garbage).numBits = numBits ∧ (new numBits garbage).toSet = ∅) ∧
    ∀ m : BitMap, m.toSet ⊆ Finset.range m.numBits ∧
      (∀ which : Nat, which < m.numBits →
        (∃ m', m.mark which = some m' ∧ m'.numBits = m.numBits ∧ m'.toSet = insert which m.toSet) ∧
        (∃ m', m.clear which = some m' ∧ m'.numBits = m.numBits ∧ m'.toSet = m.toSet.erase which) ∧
        m.test which = some (decide (which ∈ m.toSet))) ∧
      (∀ which : Int, ¬(0 ≤ which ∧ which < m.numBits) →
        m.mark which = none ∧ m.clear which = none ∧ m.test which = none) ∧
      m.toSet.card ≤ m.numBits ∧ m.numClear = m.numBits - m.toSet.card ∧
      (m.find.1 = -1 ↔ m.toSet = Finset.range m.numBits) ∧
      (m.toSet = Finset.range m.numBits → m.find.2 = m) ∧
      (m.toSet ≠ Finset.range m.numBits →
        ∃ (i : Nat) (m' : BitMap), m.find = (↑i, m') ∧ IsLeast {i | i < m.numBits ∧ i ∉ m.toSet} i ∧
          m'.numBits = m.numBits ∧ m'.toSet = insert i m.toSet) ∧
      ∀ (file : OpenFile) (d : Disk) (garbage : Image Byte), file.hdr.WellFormed →
        m.map.length * Layout.littleEndian.size ≤ file.hdr.numBytes.toNat →
        ∃ d', m.writeBack file d garbage = some d' ∧ ∀ target : BitMap, target.numBits = m.numBits →
          ∃ m', target.fetchFrom file d' = some m' ∧ m'.numBits = m.numBits ∧ m'.toSet = m.toSet := by
  refine ⟨fun numBits garbage => ⟨numBits_new numBits garbage, toSet_new numBits garbage⟩, ?_⟩
  intro m
  have hcount := m.numClear_add_card
  refine ⟨m.toSet_subset, ?_, fun which h => outside h, by omega, by omega, find_eq_neg_one_iff, ?_, ?_, ?_⟩
  · intro which hlt
    exact ⟨⟨_, mark_eq hlt, rfl, toSet_setBit hlt⟩, ⟨_, clear_eq hlt, rfl, toSet_clearBit hlt⟩, test_eq hlt⟩
  · intro hfull
    rw [find_of_full hfull]
  · intro hnot
    obtain ⟨i, hleast⟩ := exists_isLeast hnot
    exact ⟨i, _, find_of_isLeast hleast, hleast, rfl, toSet_setBit hleast.1.1⟩
  · intro file d garbage hwell hlen
    exact m.fetchFrom_writeBack hwell d garbage hlen

/-- A file of one sector. -/
def mapFile : OpenFile := ⟨⟨128, 1, [9] ++ List.replicate 29 0, rfl⟩, 0⟩

/-- A map of ten bits with one of them marked comes back from the file. -/
theorem represents_set_ten : ∃ m d m', (new 10 fun _ => 5).mark 3 = some m ∧
    m.writeBack mapFile (fun _ => 0) (fun _ => 0) = some d ∧
    (new 10 fun _ => 9).fetchFrom mapFile d = some m' ∧ m'.toSet = {3} := by
  obtain ⟨hnew, hcalls⟩ := represents_set
  obtain ⟨hbits, hempty⟩ := hnew 10 fun _ => 5
  obtain ⟨-, hmarks, -⟩ := hcalls (new 10 fun _ => 5)
  obtain ⟨⟨m, hmark, hnum, hset⟩, -⟩ := hmarks 3 (by rw [hbits]; decide)
  obtain ⟨-, -, -, -, -, -, -, -, hfile⟩ := hcalls m
  have hlen : m.map.length * Layout.littleEndian.size ≤ mapFile.hdr.numBytes.toNat := by
    rw [m.length_map, hnum, hbits]
    decide
  obtain ⟨d, hwrite, hread⟩ := hfile mapFile (fun _ => 0) (fun _ => 0)
    ⟨by decide, by decide, by decide, by decide⟩ hlen
  obtain ⟨m', hfetch, -, hsame⟩ := hread (new 10 fun _ => 9) (by rw [(hnew 10 _).1, hnum, hbits])
  refine ⟨m, d, m', hmark, hwrite, hfetch, ?_⟩
  rw [hsame, hset, hempty]
  rfl

end BitMap

end Nachos

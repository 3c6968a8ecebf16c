import Mathlib.Data.List.Count
import Mathlib.Data.List.GetD
import Mathlib.Data.List.Range

/-! Bit maps, `userprog/bitmap.cc`: an array of unsigned words, with a failed `ASSERT` as `none`. -/

namespace Nachos

abbrev Byte := BitVec 8

/-- An `int` or an `unsigned int`. -/
abbrev Word := BitVec 32

/-- The macro `divRoundUp`. -/
def divRoundUp (n s : Nat) : Nat := n / s + if 0 < n % s then 1 else 0

theorem le_divRoundUp_mul (n : Nat) {s : Nat} (hs : 0 < s) : n ≤ divRoundUp n s * s := by
  unfold divRoundUp
  have hdiv := Nat.div_add_mod n s
  have hmod := Nat.mod_lt n hs
  rw [Nat.add_mul, Nat.mul_comm (n / s)]
  split <;> omega

def bitsInWord : Nat := 32

/-- A bit map has the words that its number of bits needs. -/
structure BitMap where
  numBits : Nat
  map : List Word
  length_map : map.length = divRoundUp numBits bitsInWord

namespace BitMap

/-- The bit that `Test` looks at. -/
def bit (m : BitMap) (which : Nat) : Bool :=
  m.map.getD (which / bitsInWord) 0 &&& (1#32 <<< (which % bitsInWord)) != 0

def setBit (m : BitMap) (which : Nat) : BitMap where
  numBits := m.numBits
  map := m.map.modify (which / bitsInWord) (· ||| (1#32 <<< (which % bitsInWord)))
  length_map := by rw [List.length_modify, m.length_map]

def clearBit (m : BitMap) (which : Nat) : BitMap where
  numBits := m.numBits
  map := m.map.modify (which / bitsInWord) (· &&& ~~~(1#32 <<< (which % bitsInWord)))
  length_map := by rw [List.length_modify, m.length_map]

/-- `BitMap::Mark`. -/
def mark (m : BitMap) (which : Int) : Option BitMap :=
  if 0 ≤ which ∧ which < m.numBits then some (m.setBit which.toNat) else none

/-- `BitMap::Clear`. -/
def clear (m : BitMap) (which : Int) : Option BitMap :=
  if 0 ≤ which ∧ which < m.numBits then some (m.clearBit which.toNat) else none

/-- `BitMap::Test`. -/
def test (m : BitMap) (which : Int) : Option Bool :=
  if 0 ≤ which ∧ which < m.numBits then some (m.bit which.toNat) else none

/-- The constructor, on memory with any contents. -/
def new (numBits : Nat) (garbage : Nat → Word) : BitMap :=
  (List.range numBits).foldl clearBit
    ⟨numBits, (List.range (divRoundUp numBits bitsInWord)).map garbage, by
      rw [List.length_map, List.length_range]⟩

/-- The loop of `BitMap::Find` from bit `i` on. -/
def findFrom (m : BitMap) : Nat → Nat → Int × BitMap
  | 0, _ => (-1, m)
  | left + 1, i => if m.bit i then m.findFrom left (i + 1) else (i, m.setBit i)

/-- `BitMap::Find`. -/
def find (m : BitMap) : Int × BitMap := m.findFrom m.numBits 0

/-- `BitMap::NumClear`. -/
def numClear (m : BitMap) : Nat := (List.range m.numBits).countP fun i => !m.bit i

section Word

theorem getLsbD_one_shiftLeft {a b : Nat} (hb : b < 32) : (1#32 <<< a).getLsbD b = decide (b = a) := by
  rw [BitVec.getLsbD_shiftLeft, BitVec.getLsbD_one]
  by_cases h : b = a
  · subst h
    simp [hb]
  · have hsub : b < a ∨ b - a ≠ 0 := by omega
    rcases hsub with hlt | hsub
    · simp [hlt, h]
    · simp [hsub, h]

theorem and_one_shiftLeft_bne_zero (w : Word) {a : Nat} (ha : a < 32) :
    (w &&& (1#32 <<< a) != 0) = w.getLsbD a := by
  cases hbit : w.getLsbD a with
  | true =>
      rw [bne_iff_ne]
      intro hzero
      have hget : (w &&& 1#32 <<< a).getLsbD a = false := by
        rw [hzero]
        exact BitVec.getLsbD_zero
      rw [BitVec.getLsbD_and, getLsbD_one_shiftLeft ha, hbit] at hget
      simp at hget
  | false =>
      rw [bne_eq_false_iff_eq]
      apply BitVec.eq_of_getLsbD_eq
      intro i hi
      rw [BitVec.getLsbD_and, getLsbD_one_shiftLeft hi]
      by_cases hia : i = a
      · subst hia
        simp [hbit]
      · simp [hia]

theorem getD_modify (l : List Word) (f : Word → Word) {i : Nat} (hi : i < l.length) (j : Nat) :
    (l.modify i f).getD j 0 = if j = i then f (l.getD i 0) else l.getD j 0 := by
  rw [List.getD_eq_getElem?_getD, List.getElem?_modify]
  by_cases h : j = i
  · subst h
    simp [hi]
  · simp [h, Ne.symm h]

end Word

variable {m : BitMap}

theorem bit_eq (i : Nat) : m.bit i = (m.map.getD (i / bitsInWord) 0).getLsbD (i % bitsInWord) :=
  and_one_shiftLeft_bne_zero _ (Nat.mod_lt _ (by decide))

theorem index_lt {i : Nat} (hi : i < m.numBits) : i / bitsInWord < m.map.length := by
  rw [m.length_map, divRoundUp, bitsInWord]
  split <;> omega

theorem eq_iff_word (i j : Nat) :
    j = i ↔ j / bitsInWord = i / bitsInWord ∧ j % bitsInWord = i % bitsInWord := by
  simp only [bitsInWord]
  omega

theorem numBits_setBit (m : BitMap) (i : Nat) : (m.setBit i).numBits = m.numBits := rfl

/-- Setting one bit changes no other. -/
theorem bit_setBit {i : Nat} (hi : i < m.numBits) (j : Nat) :
    (m.setBit i).bit j = (decide (j = i) || m.bit j) := by
  have hlt : j % bitsInWord < 32 := Nat.mod_lt _ (by decide)
  rw [bit_eq, bit_eq, setBit, getD_modify _ _ (index_lt hi)]
  by_cases hword : j / bitsInWord = i / bitsInWord
  · rw [if_pos hword, hword, BitVec.getLsbD_or, getLsbD_one_shiftLeft hlt, Bool.or_comm]
    congr 1
    simp [eq_iff_word i j, hword]
  · have hne : ¬j = i := fun heq => hword ((eq_iff_word i j).mp heq).1
    simp [hword, hne]

/-- Clearing one bit changes no other. -/
theorem bit_clearBit {i : Nat} (hi : i < m.numBits) (j : Nat) :
    (m.clearBit i).bit j = (!decide (j = i) && m.bit j) := by
  have hlt : j % bitsInWord < 32 := Nat.mod_lt _ (by decide)
  rw [bit_eq, bit_eq, clearBit, getD_modify _ _ (index_lt hi)]
  by_cases hword : j / bitsInWord = i / bitsInWord
  · rw [if_pos hword, hword, BitVec.getLsbD_and, BitVec.getLsbD_not, getLsbD_one_shiftLeft hlt,
      Bool.and_comm]
    simp only [decide_eq_true hlt, Bool.true_and]
    congr 2
    simp [eq_iff_word i j, hword]
  · have hne : ¬j = i := fun heq => hword ((eq_iff_word i j).mp heq).1
    simp [hword, hne]

theorem eq_of_map {m m' : BitMap} (hbits : m.numBits = m'.numBits) (hmap : m.map = m'.map) : m = m' := by
  obtain ⟨numBits, map, hlen⟩ := m
  obtain ⟨numBits', map', hlen'⟩ := m'
  subst hbits hmap
  rfl

/-- The bits determine the map, when its words have no bits to spare. -/
theorem eq_of_bit {m m' : BitMap} (hnum : m.numBits = m'.numBits) (hwhole : m.numBits % bitsInWord = 0)
    (h : ∀ i < m.numBits, m.bit i = m'.bit i) : m = m' := by
  apply eq_of_map hnum
  apply List.ext_getElem
  · rw [m.length_map, m'.length_map, hnum]
  intro w hw hw'
  apply BitVec.eq_of_getLsbD_eq
  intro j hj
  have hdiv : (w * bitsInWord + j) / bitsInWord = w := by
    simp only [bitsInWord]
    omega
  have hmod : (w * bitsInWord + j) % bitsInWord = j := by
    simp only [bitsInWord]
    omega
  have hlt : w * bitsInWord + j < m.numBits := by
    rw [m.length_map, divRoundUp, hwhole] at hw
    simp only [bitsInWord, Nat.lt_irrefl, if_false] at *
    omega
  have hbit := h _ hlt
  rw [bit_eq, bit_eq, hdiv, hmod, List.getD_eq_getElem _ _ hw, List.getD_eq_getElem _ _ hw'] at hbit
  exact hbit

theorem findFrom_spec (left i : Nat) :
    (m.findFrom left i = (-1, m) ∧ ∀ j, i ≤ j → j < i + left → m.bit j = true) ∨
      ∃ j, i ≤ j ∧ j < i + left ∧ m.bit j = false ∧ m.findFrom left i = (↑j, m.setBit j) := by
  induction left generalizing i with
  | zero =>
      refine .inl ⟨rfl, ?_⟩
      intro j hle hlt
      omega
  | succ left ih =>
      by_cases hbit : m.bit i
      · rw [findFrom, if_pos hbit]
        rcases ih (i + 1) with ⟨heq, hset⟩ | ⟨j, hle, hlt, hclear, heq⟩
        · refine .inl ⟨heq, ?_⟩
          intro j hle hlt
          by_cases hj : j = i
          · rw [hj]
            exact hbit
          · exact hset j (by omega) (by omega)
        · exact .inr ⟨j, by omega, by omega, hclear, heq⟩
      · rw [findFrom, if_neg hbit]
        exact .inr ⟨i, by omega, by omega, Bool.eq_false_iff.mpr hbit, rfl⟩

theorem mark_eq {i : Nat} (hi : i < m.numBits) : m.mark ↑i = some (m.setBit i) := by
  unfold mark
  rw [if_pos (by omega), Int.toNat_natCast]

/-- `Find` marks a clear bit, or there is none. -/
theorem find_spec (m : BitMap) :
    (m.find = (-1, m) ∧ ∀ j, j < m.numBits → m.bit j = true) ∨
      ∃ j, j < m.numBits ∧ m.bit j = false ∧ m.find = (↑j, m.setBit j) := by
  rcases m.findFrom_spec m.numBits 0 with ⟨heq, hset⟩ | ⟨j, -, hlt, hclear, heq⟩
  · exact .inl ⟨heq, fun j hj => hset j (Nat.zero_le j) (by omega)⟩
  · exact .inr ⟨j, by omega, hclear, heq⟩

/-- Marking a clear bit takes one from the clear bits. -/
theorem numClear_setBit {i : Nat} (hi : i < m.numBits) (hclear : m.bit i = false) :
    (m.setBit i).numClear + 1 = m.numClear := by
  have hperm : (List.range m.numBits).Perm (i :: (List.range m.numBits).erase i) :=
    List.perm_cons_erase (List.mem_range.mpr hi)
  have hrest : ∀ j ∈ (List.range m.numBits).erase i, (m.setBit i).bit j = m.bit j := by
    intro j hj
    have hne : j ≠ i := (List.nodup_range.mem_erase_iff.mp hj).1
    rw [bit_setBit hi, decide_eq_false hne, Bool.false_or]
  have hset : (m.setBit i).bit i = true := by
    rw [bit_setBit hi, decide_eq_true rfl, Bool.true_or]
  unfold numClear
  rw [show (m.setBit i).numBits = m.numBits from rfl, hperm.countP_eq, hperm.countP_eq, List.countP_cons,
    List.countP_cons, hset, hclear, List.countP_congr (fun j hj => by rw [hrest j hj])]
  rfl

theorem numClear_pos_iff : 0 < m.numClear ↔ ∃ i < m.numBits, m.bit i = false := by
  simp [numClear, List.countP_pos_iff]

theorem foldl_clearBit_numBits (l : List Nat) (m : BitMap) : (l.foldl clearBit m).numBits = m.numBits := by
  induction l generalizing m with
  | nil => rfl
  | cons i rest ih => exact ih (m.clearBit i)

theorem bit_foldl_clearBit (l : List Nat) (m : BitMap) (hl : ∀ i ∈ l, i < m.numBits) (j : Nat) :
    (l.foldl clearBit m).bit j = (!decide (j ∈ l) && m.bit j) := by
  induction l generalizing m with
  | nil => simp
  | cons i rest ih =>
      have hi : i < m.numBits := hl i List.mem_cons_self
      rw [List.foldl_cons, ih (m.clearBit i) (fun k hk => hl k (List.mem_cons_of_mem i hk)),
        bit_clearBit hi]
      by_cases hj : j = i <;> simp [hj]

/-- Every bit of a new map is clear. -/
theorem bit_new {numBits i : Nat} (garbage : Nat → Word) (hi : i < numBits) :
    (new numBits garbage).bit i = false := by
  rw [new, bit_foldl_clearBit]
  · simp [hi]
  · intro j hj
    exact List.mem_range.mp hj

theorem numBits_new (numBits : Nat) (garbage : Nat → Word) : (new numBits garbage).numBits = numBits :=
  foldl_clearBit_numBits _ _

theorem numClear_new (numBits : Nat) (garbage : Nat → Word) : (new numBits garbage).numClear = numBits := by
  unfold numClear
  rw [numBits_new, List.countP_eq_length.mpr, List.length_range]
  intro i hi
  rw [bit_new garbage (List.mem_range.mp hi)]
  rfl

end BitMap

end Nachos

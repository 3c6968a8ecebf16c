import Mathlib.Data.List.GetD
import Mathlib.Order.CompletePartialOrder
import Mathlib.Order.Interval.Set.Disjoint
import Nachos.UserThread

/-! The table of the user threads: the bit map of the stacks, the array of the threads and the counter
agree on a set of threads. Between the search for a stack and the entry of the new thread one slot is
reserved. -/

namespace Nachos

/-- The thread in a slot of the table. -/
def ThreadTable.owner (table : ThreadTable) (i : Nat) : ThreadId := table.gThreads.getD i 0

/-- The table holds exactly the threads `users`. -/
structure TableOk (users : List ThreadId) (counter : Int) (reserved : Option Nat) (table : ThreadTable) :
    Prop where
  length_gThreads : table.gThreads.length = maxThreads
  numBits_stackMap : table.stackMap.numBits = maxThreads
  bit : ∀ i < maxThreads, table.stackMap.bit i = true ↔ table.owner i ∈ users ∨ reserved = some i
  unused : ∀ i < maxThreads, table.owner i ∉ users → table.owner i = 0
  slot : ∀ u ∈ users, ∃ i < maxThreads, table.owner i = u
  distinct : ∀ i < maxThreads, ∀ j < maxThreads, table.owner i ∈ users → table.owner i = table.owner j → i = j
  vacant : ∀ i, reserved = some i → i < maxThreads ∧ table.owner i ∉ users
  gThreadsIdx_eq : table.gThreadsIdx = counter

namespace TableOk

variable {users : List ThreadId} {counter : Int} {reserved : Option Nat} {table : ThreadTable}

theorem owner_set {i : Nat} (hi : i < table.gThreads.length) (t : ThreadId) (j : Nat) :
    (table.gThreads.set i t).getD j 0 = if j = i then t else table.owner j := by
  unfold ThreadTable.owner
  rw [List.getD_eq_getElem?_getD, List.getElem?_set]
  by_cases h : i = j
  · subst h
    simp [hi]
  · rw [if_neg h, if_neg (Ne.symm h), List.getD_eq_getElem?_getD]

/-- The search finds a vacant slot and reserves it, or the table is full. -/
theorem findStack (h : TableOk users counter none table) :
    (table.findStack = (-1, table)) ∨
      ∃ i < maxThreads, table.findStack.1 = ↑i ∧ TableOk users counter (some i) table.findStack.2 := by
  rcases table.stackMap.find_spec with ⟨hfind, -⟩ | ⟨i, hi, hclear, hfind⟩
  · left
    unfold ThreadTable.findStack
    rw [hfind]
  · right
    have hbits := hi
    rw [h.numBits_stackMap] at hi
    have hvacant : table.owner i ∉ users := by
      intro howner
      have hset := (h.bit i hi).mpr (.inl howner)
      rw [hclear] at hset
      cases hset
    refine ⟨i, hi, ?_, ?_⟩
    · unfold ThreadTable.findStack
      rw [hfind]
    · unfold ThreadTable.findStack
      rw [hfind]
      refine ⟨h.length_gThreads, h.numBits_stackMap, ?_, h.unused, h.slot, h.distinct, ?_, h.gThreadsIdx_eq⟩
      · intro j hj
        show (table.stackMap.setBit i).bit j = true ↔ table.owner j ∈ users ∨ some i = some j
        rw [BitMap.bit_setBit hbits, Bool.or_eq_true, decide_eq_true_eq, h.bit j hj, Option.some.injEq]
        constructor
        · rintro (rfl | howner | hnone)
          · exact .inr rfl
          · exact .inl howner
          · cases hnone
        · rintro (howner | rfl)
          · exact .inr (.inl howner)
          · exact .inl rfl
      · rintro j ⟨⟩
        exact ⟨hi, hvacant⟩

/-- A new thread in the reserved slot. -/
theorem enter {i : Nat} {u : ThreadId} (h : TableOk users counter (some i) table) (hzero : u ≠ 0)
    (hfresh : u ∉ users) : TableOk (users ++ [u]) (counter + 1) none (table.enter i u) := by
  obtain ⟨hi, hvacant⟩ := h.vacant i rfl
  have howner : ∀ j, (table.enter i u).owner j = if j = i then u else table.owner j :=
    owner_set (by rw [h.length_gThreads]; exact hi) u
  have hmem : ∀ v, v ∈ users ++ [u] ↔ v ∈ users ∨ v = u := by
    intro v
    rw [List.mem_append, List.mem_singleton]
  have hne : ∀ j < maxThreads, table.owner j ≠ u := by
    intro j hj heq
    by_cases hused : table.owner j ∈ users
    · exact hfresh (heq ▸ hused)
    · exact hzero (heq.symm.trans (h.unused j hj hused))
  refine ⟨?_, h.numBits_stackMap, ?_, ?_, ?_, ?_, nofun, ?_⟩
  · exact List.length_set.trans h.length_gThreads
  · intro j hj
    show table.stackMap.bit j = true ↔ _
    rw [h.bit j hj, howner, hmem, Option.some.injEq]
    split
    · subst j
      simp
    · rename_i hji
      simp [hne j hj, Ne.symm hji]
  · intro j hj hunused
    rw [howner] at hunused ⊢
    rw [hmem, not_or] at hunused
    split
    · rename_i heq
      rw [if_pos heq] at hunused
      exact absurd rfl hunused.2
    · rename_i hji
      rw [if_neg hji] at hunused
      exact h.unused j hj hunused.1
  · intro v hv
    rcases (hmem v).mp hv with hv | rfl
    · obtain ⟨j, hj, hjv⟩ := h.slot v hv
      refine ⟨j, hj, ?_⟩
      have hji : j ≠ i := by
        rintro rfl
        exact hvacant (hjv ▸ hv)
      rw [howner, if_neg hji, hjv]
    · exact ⟨i, hi, by rw [howner, if_pos rfl]⟩
  · intro j hj k hk hused heq
    rw [howner, hmem] at hused
    rw [howner, howner] at heq
    split at heq
    · split at heq
      · omega
      · exact absurd heq.symm (hne k hk)
    · rename_i hji
      rw [if_neg hji] at hused
      split at heq
      · exact absurd heq (hne j hj)
      · rcases hused with hused | hused
        · exact h.distinct j hj k hk hused heq
        · exact absurd hused (hne j hj)
  · show table.gThreadsIdx + 1 = counter + 1
    rw [h.gThreadsIdx_eq]

theorem getStackIdFromThread_user (h : TableOk users counter reserved table) {t : ThreadId} (ht : t ∈ users) :
    ∃ i < maxThreads, table.getStackIdFromThread t = ↑i ∧ table.owner i = t := by
  obtain ⟨j, hj, hjt⟩ := h.slot t ht
  have hmem : t ∈ table.gThreads := by
    have hlt : j < table.gThreads.length := by
      rw [h.length_gThreads]
      exact hj
    rw [← hjt, ThreadTable.owner, List.getD_eq_getElem _ _ hlt]
    exact List.getElem_mem hlt
  unfold ThreadTable.getStackIdFromThread
  cases hidx : table.gThreads.idxOf? t with
  | none => exact absurd hmem (List.idxOf?_eq_none_iff.mp hidx)
  | some i =>
      obtain ⟨hi, hit, -⟩ := List.idxOf?_eq_some_iff.mp hidx
      refine ⟨i, by rwa [h.length_gThreads] at hi, rfl, ?_⟩
      rw [ThreadTable.owner, List.getD_eq_getElem _ _ hi, hit]

theorem getStackIdFromThread_other (h : TableOk users counter reserved table) {t : ThreadId} (hzero : t ≠ 0)
    (ht : t ∉ users) : table.getStackIdFromThread t = -1 := by
  unfold ThreadTable.getStackIdFromThread
  cases hidx : table.gThreads.idxOf? t with
  | none => rfl
  | some i =>
      obtain ⟨hi, hit, -⟩ := List.idxOf?_eq_some_iff.mp hidx
      have howner : table.owner i = t := by
        rw [ThreadTable.owner, List.getD_eq_getElem _ _ hi, hit]
      rw [h.length_gThreads] at hi
      exact absurd (howner.symm.trans (h.unused i hi (howner ▸ ht))) hzero

/-- A thread of the table leaves it; the other threads keep their slots. -/
theorem leave_user (h : TableOk users counter none table) (hnodup : users.Nodup) {t : ThreadId}
    (hzero : 0 ∉ users) (ht : t ∈ users) :
    ∃ left, table.leave t = some left ∧ TableOk (users.erase t) (counter - 1) none left ∧
      ∀ i < maxThreads, table.owner i ∈ users.erase t → left.owner i = table.owner i := by
  obtain ⟨i, hi, hidx, hit⟩ := h.getStackIdFromThread_user ht
  have hbits : i < table.stackMap.numBits := by
    rw [h.numBits_stackMap]
    exact hi
  have hclear : table.stackMap.clear (↑i) = some (table.stackMap.clearBit i) := by
    rw [BitMap.clear, if_pos ⟨Int.natCast_nonneg i, by exact_mod_cast hbits⟩, Int.toNat_natCast]
  have hleave : table.leave t = some ⟨table.gThreads.set i 0, table.stackMap.clearBit i,
      table.gThreadsIdx - 1⟩ := by
    simp only [ThreadTable.leave, hidx, if_pos (Int.natCast_nonneg i), hclear, Option.map_some,
      Int.toNat_natCast]
  have howner : ∀ j, (table.gThreads.set i 0).getD j 0 = if j = i then 0 else table.owner j :=
    owner_set (by rw [h.length_gThreads]; exact hi) 0
  have hmem : ∀ v, v ∈ users.erase t ↔ v ≠ t ∧ v ∈ users := fun v => hnodup.mem_erase_iff
  have hsame : ∀ j < maxThreads, table.owner j = t → j = i := by
    intro j hj hjt
    exact (h.distinct i hi j hj (hit ▸ ht) (hit.trans hjt.symm)).symm
  have hkeeps : ∀ j < maxThreads, table.owner j ∈ users.erase t →
      (table.gThreads.set i 0).getD j 0 = table.owner j := by
    intro j hj hused
    rw [howner, if_neg]
    rintro rfl
    exact ((hmem _).mp hused).1 hit
  refine ⟨_, hleave, ⟨?_, h.numBits_stackMap, ?_, ?_, ?_, ?_, nofun, ?_⟩, hkeeps⟩
  · exact List.length_set.trans h.length_gThreads
  · intro j hj
    show (table.stackMap.clearBit i).bit j = true ↔ (table.gThreads.set i 0).getD j 0 ∈ users.erase t ∨ none = some j
    rw [BitMap.bit_clearBit hbits, Bool.and_eq_true, Bool.not_eq_true', decide_eq_false_iff_not, h.bit j hj,
      howner, hmem]
    constructor
    · rintro ⟨hji, howned | hnone⟩
      · rw [if_neg hji]
        exact .inl ⟨fun hjt => hji (hsame j hj hjt), howned⟩
      · cases hnone
    · rintro (⟨hne, howned⟩ | hnone)
      · split at howned
        · exact absurd howned hzero
        · exact ⟨‹_›, .inl howned⟩
      · cases hnone
  · intro j hj hunused
    change (table.gThreads.set i 0).getD j 0 ∉ _ at hunused
    show (table.gThreads.set i 0).getD j 0 = 0
    rw [howner] at hunused ⊢
    split
    · rfl
    · rename_i hji
      rw [if_neg hji, hmem] at hunused
      apply h.unused j hj
      intro howned
      exact hunused ⟨fun hjt => hji (hsame j hj hjt), howned⟩
  · intro v hv
    obtain ⟨hvt, hvu⟩ := (hmem v).mp hv
    obtain ⟨j, hj, hjv⟩ := h.slot v hvu
    refine ⟨j, hj, ?_⟩
    exact (hkeeps j hj (hjv.symm ▸ hv)).trans hjv
  · intro j hj k hk hused heq
    change (table.gThreads.set i 0).getD j 0 ∈ _ at hused
    change (table.gThreads.set i 0).getD j 0 = (table.gThreads.set i 0).getD k 0 at heq
    have hnonzero : (table.gThreads.set i 0).getD j 0 ≠ 0 := by
      intro hz
      rw [hz] at hused
      exact hzero (List.mem_of_mem_erase hused)
    rw [howner] at hused heq hnonzero
    rw [howner] at heq
    split at heq
    · rename_i hji
      rw [if_pos hji] at hnonzero
      exact absurd rfl hnonzero
    · rename_i hji
      rw [if_neg hji] at hused
      split at heq
      · rw [heq] at hused
        exact absurd (List.mem_of_mem_erase hused) hzero
      · exact h.distinct j hj k hk (List.mem_of_mem_erase hused) heq
  · show table.gThreadsIdx - 1 = counter - 1
    rw [h.gThreadsIdx_eq]

/-- The initial thread leaves; it is not in the table. -/
theorem leave_other (h : TableOk users counter none table) {t : ThreadId} (hzero : t ≠ 0) (ht : t ∉ users) :
    ∃ left, table.leave t = some left ∧ TableOk users (counter - 1) none left ∧
      ∀ i, left.owner i = table.owner i := by
  refine ⟨{ table with gThreadsIdx := table.gThreadsIdx - 1 }, ?_, ?_, fun _ => rfl⟩
  · simp only [ThreadTable.leave, h.getStackIdFromThread_other hzero ht]
    exact if_neg (by decide)
  · refine ⟨h.length_gThreads, h.numBits_stackMap, h.bit, h.unused, h.slot, h.distinct, h.vacant, ?_⟩
    show table.gThreadsIdx - 1 = counter - 1
    rw [h.gThreadsIdx_eq]

/-- The table at the beginning. -/
theorem new (garbage : Nat → Word) : TableOk [] 0 none (.new garbage) := by
  have howner : ∀ i < maxThreads, (ThreadTable.new garbage).owner i = 0 := by
    intro i hi
    exact List.getD_replicate 0 hi
  refine ⟨List.length_replicate, BitMap.numBits_new maxThreads garbage, ?_, ?_, nofun, ?_, nofun, rfl⟩
  · intro i hi
    show (BitMap.new maxThreads garbage).bit i = true ↔ _
    rw [BitMap.bit_new garbage hi]
    simp
  · intro i hi _
    exact howner i hi
  · intro i hi j hj hused
    cases hused

end TableOk

section Stacks

/-- The area that the address space has for stacks. -/
def stackArea (space : AddrSpace) : Set Nat :=
  Set.Ico (space.numPages * pageSize - userStacksAreaSize) (space.numPages * pageSize)

variable {space : AddrSpace} {f arg fExit f' arg' fExit' : Word} {i j : Nat}

end Stacks

end Nachos

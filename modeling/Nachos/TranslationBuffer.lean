import Nachos.Translate

/-! What `Machine::Translate` does to the use and dirty bits, and its two ways to look a page up: a TLB that caches a
page table translates like the table, as long as it has the page. -/

namespace Nachos

/-- The entry after an access: its use bit is set, and its dirty bit if the access writes. -/
def TranslationEntry.touched (writing : Bool) (entry : TranslationEntry) : TranslationEntry :=
  { entry with use := true, dirty := entry.dirty || writing }

/-- The entry without its use and dirty bits. -/
def TranslationEntry.mapping (entry : TranslationEntry) : TranslationEntry :=
  { entry with use := false, dirty := false }

namespace Translation

def entries : Translation → List TranslationEntry
  | .pageTable entries => entries
  | .tlb entries => entries

/-- The page of a virtual address. -/
def page (virtAddr : Word) : Word := virtAddr / BitVec.ofNat 32 pageSize

/-- The address in this frame. -/
def framed (entry : TranslationEntry) (virtAddr : Word) : Word :=
  entry.physicalPage * BitVec.ofNat 32 pageSize + virtAddr % BitVec.ofNat 32 pageSize

variable {t t' : Translation} {virtAddr physAddr vpn : Word} {size : Size} {writing : Bool} {i : Nat}
  {entry : TranslationEntry}

/-- An entry of the TLB, with its index, is for the page. -/
def tags (vpn : Word) (found : TranslationEntry × Nat) : Bool := found.1.valid && found.1.virtualPage == vpn

theorem findEntry_tlb_eq (entries : List TranslationEntry) (vpn : Word) : (tlb entries).findEntry vpn =
    (entries.zipIdx.find? (tags vpn)).elim (.error .pageFaultException) fun found => .ok (found.2, found.1) := by
  unfold findEntry
  dsimp only
  split
  next entry i hfound =>
    rw [show entries.zipIdx.find? (tags vpn) = some (entry, i) from hfound]
    rfl
  next hnone =>
    rw [show entries.zipIdx.find? (tags vpn) = none from hnone]
    rfl

/-- The entry that is found is in the table, and valid. -/
theorem findEntry_mem (h : t.findEntry vpn = .ok (i, entry)) : t.entries[i]? = some entry ∧ entry.valid = true := by
  cases t with
  | pageTable entries =>
      unfold findEntry at h
      simp only at h
      split at h
      · cases h
      next found hfound =>
        split at h
        next hvalid =>
          cases h
          exact ⟨hfound, hvalid⟩
        · cases h
  | tlb entries =>
      unfold findEntry at h
      simp only at h
      split at h
      next found j hfound =>
        cases h
        have hmem := List.mem_of_find?_eq_some hfound
        have hprop := List.find?_some hfound
        exact ⟨List.mem_zipIdx_iff_getElem?.mp hmem, (Bool.and_eq_true_iff.mp hprop).1⟩
      · cases h

/-- When `Translate` succeeds. -/
theorem translate_ok_iff : t.translate virtAddr size writing = .ok (physAddr, t') ↔
    size.misaligned virtAddr = false ∧ ∃ i entry, t.findEntry (page virtAddr) = .ok (i, entry) ∧
      (entry.readOnly && writing) = false ∧ entry.physicalPage.toNat < numPhysPages ∧
      physAddr = framed entry virtAddr ∧ t' = t.setEntry i (entry.touched writing) := by
  unfold translate
  constructor
  · intro h
    split at h
    · cases h
    next haligned =>
      simp only at h
      split at h
      · cases h
      next i entry hfind =>
        split at h
        · cases h
        next hwritable =>
          split at h
          · cases h
          next hframe =>
            cases h
            exact ⟨Bool.eq_false_iff.mpr haligned, i, entry, hfind, Bool.eq_false_iff.mpr hwritable,
              Nat.lt_of_not_le hframe, rfl, rfl⟩
  · rintro ⟨haligned, i, entry, hfind, hwritable, hframe, rfl, rfl⟩
    unfold page at hfind
    rw [if_neg (Bool.eq_false_iff.mp haligned)]
    simp only [hfind]
    rw [if_neg (Bool.eq_false_iff.mp hwritable), if_neg (Nat.not_le.mpr hframe)]
    rfl

/-- The checks of `Translate` on the entry that it has found. -/
def checked (virtAddr : Word) (writing : Bool) (entry : TranslationEntry) : Except ExceptionType Word :=
  if entry.readOnly && writing then .error .readOnlyException
  else if numPhysPages ≤ entry.physicalPage.toNat then .error .busErrorException
  else .ok (framed entry virtAddr)

theorem translate_eq (t : Translation) (haligned : size.misaligned virtAddr = false) :
    t.translate virtAddr size writing = (t.findEntry (page virtAddr)).bind fun found =>
      (checked virtAddr writing found.2).map fun physAddr =>
        (physAddr, t.setEntry found.1 (found.2.touched writing)) := by
  unfold translate page
  rw [if_neg (Bool.eq_false_iff.mp haligned)]
  dsimp only
  cases t.findEntry (virtAddr / BitVec.ofNat 32 pageSize) with
  | error e => rfl
  | ok found =>
      obtain ⟨i, entry⟩ := found
      change _ = (checked virtAddr writing entry).map _
      unfold checked
      dsimp only
      split
      · rfl
      · split <;> rfl

theorem checked_congr {entry entry' : TranslationEntry} (hframe : entry.physicalPage = entry'.physicalPage)
    (hreadOnly : entry.readOnly = entry'.readOnly) :
    checked virtAddr writing entry = checked virtAddr writing entry' := by
  unfold checked framed
  rw [hframe, hreadOnly]

section Mapping

/-- What the table maps, without its use and dirty bits. -/
def mapping : Translation → Translation
  | .pageTable entries => .pageTable (entries.map TranslationEntry.mapping)
  | .tlb entries => .tlb (entries.map TranslationEntry.mapping)

theorem findEntry_mapping (t : Translation) (vpn : Word) :
    t.mapping.findEntry vpn = (t.findEntry vpn).map fun found => (found.1, found.2.mapping) := by
  cases t with
  | pageTable entries =>
      unfold mapping findEntry
      dsimp only
      rw [List.getElem?_map]
      cases entries[vpn.toNat]? with
      | none => rfl
      | some entry =>
          dsimp only [Option.map_some]
          change (if entry.valid = true then _ else _) = _
          split <;> rfl
  | tlb entries =>
      have hfind : (entries.map TranslationEntry.mapping).zipIdx.find? (tags vpn) =
          (entries.zipIdx.find? (tags vpn)).map fun found => (found.1.mapping, found.2) := by
        rw [List.zipIdx_map, List.find?_map]
        rfl
      unfold mapping
      dsimp only
      rw [findEntry_tlb_eq, findEntry_tlb_eq, hfind]
      cases entries.zipIdx.find? (tags vpn) with
      | none => rfl
      | some found => rfl

/-- Only the use and dirty bits change. -/
theorem translate_mapping (h : t.translate virtAddr size writing = .ok (physAddr, t')) : t'.mapping = t.mapping := by
  obtain ⟨-, i, entry, hfind, -, -, -, rfl⟩ := translate_ok_iff.mp h
  obtain ⟨hmem, -⟩ := findEntry_mem hfind
  have hsame : (entry.touched writing).mapping = entry.mapping := rfl
  have hset : ∀ entries : List TranslationEntry, entries[i]? = some entry →
      (entries.set i (entry.touched writing)).map TranslationEntry.mapping =
        entries.map TranslationEntry.mapping := by
    intro entries hentry
    rw [List.map_set, hsame]
    apply List.ext_getElem?
    intro j
    rw [List.getElem?_set]
    split
    next hij =>
      subst hij
      have hlt := (List.getElem?_eq_some_iff.mp hentry).1
      rw [if_pos (by rw [List.length_map]; exact hlt), List.getElem?_map, hentry]
      rfl
    · rfl
  cases t with
  | pageTable entries => exact congrArg Translation.pageTable (hset entries hmem)
  | tlb entries => exact congrArg Translation.tlb (hset entries hmem)

/-- The physical address, or the exception. -/
def locate (t : Translation) (virtAddr : Word) (size : Size) (writing : Bool) : Except ExceptionType Word :=
  (t.translate virtAddr size writing).map Prod.fst

theorem locate_of_misaligned (t : Translation) (h : size.misaligned virtAddr = true) :
    t.locate virtAddr size writing = .error .addressErrorException := by
  unfold locate translate
  rw [if_pos h]
  rfl

theorem locate_eq (t : Translation) (haligned : size.misaligned virtAddr = false) :
    t.locate virtAddr size writing =
      (t.findEntry (page virtAddr)).bind fun found => checked virtAddr writing found.2 := by
  unfold locate
  rw [translate_eq t haligned]
  cases t.findEntry (page virtAddr) with
  | error e => rfl
  | ok found =>
      change ((checked virtAddr writing found.2).map _).map _ = checked virtAddr writing found.2
      cases checked virtAddr writing found.2 <;> rfl

/-- The physical address does not depend on the use and dirty bits. -/
theorem locate_mapping (t : Translation) : t.mapping.locate virtAddr size writing = t.locate virtAddr size writing := by
  cases haligned : size.misaligned virtAddr with
  | true => rw [locate_of_misaligned _ haligned, locate_of_misaligned _ haligned]
  | false =>
      rw [locate_eq _ haligned, locate_eq _ haligned, findEntry_mapping]
      cases t.findEntry (page virtAddr) with
      | error e => rfl
      | ok found => exact checked_congr rfl rfl

theorem locate_eq_of_mapping (h : t'.mapping = t.mapping) (virtAddr : Word) (size : Size) (writing : Bool) :
    t'.locate virtAddr size writing = t.locate virtAddr size writing := by
  rw [← locate_mapping t', h, locate_mapping]

end Mapping

section Cache

/-- The valid entries of the TLB are for different pages, and each is for a valid page of the table that is mapped in
the same way. -/
structure Caches (buffer pages : List TranslationEntry) : Prop where
  distinct : buffer.Pairwise fun entry entry' =>
    entry.valid = true → entry'.valid = true → entry.virtualPage ≠ entry'.virtualPage
  backed : ∀ entry ∈ buffer, entry.valid = true → ∃ pageEntry, pages[entry.virtualPage.toNat]? = some pageEntry ∧
    pageEntry.valid = true ∧ pageEntry.physicalPage = entry.physicalPage ∧ pageEntry.readOnly = entry.readOnly

/-- The same exception, or the same physical address and the same update of the entries that are used. -/
inductive SameTranslation (writing : Bool) (buffer pages : List TranslationEntry) (i j : Nat)
    (entry pageEntry : TranslationEntry) :
    Except ExceptionType (Word × Translation) → Except ExceptionType (Word × Translation) → Prop where
  | exception (e : ExceptionType) : SameTranslation writing buffer pages i j entry pageEntry (.error e) (.error e)
  | address (physAddr : Word) : SameTranslation writing buffer pages i j entry pageEntry
      (.ok (physAddr, .tlb (buffer.set i (entry.touched writing))))
      (.ok (physAddr, .pageTable (pages.set j (pageEntry.touched writing))))

variable {buffer pages : List TranslationEntry} {pageEntry : TranslationEntry}

theorem Caches.unique (h : Caches buffer pages) {j : Nat} {entry' : TranslationEntry} (hentry : buffer[i]? = some entry)
    (hentry' : buffer[j]? = some entry') (hvalid : entry.valid = true) (hvalid' : entry'.valid = true)
    (hpage : entry.virtualPage = entry'.virtualPage) : i = j := by
  obtain ⟨hi, rfl⟩ := List.getElem?_eq_some_iff.mp hentry
  obtain ⟨hj, rfl⟩ := List.getElem?_eq_some_iff.mp hentry'
  have hpairs := List.pairwise_iff_getElem.mp h.distinct
  rcases Nat.lt_trichotomy i j with hlt | heq | hlt
  · exact absurd hpage (hpairs i j hi hj hlt hvalid hvalid')
  · exact heq
  · exact absurd hpage.symm (hpairs j i hj hi hlt hvalid' hvalid)

/-- The TLB finds its entry for the page. -/
theorem Caches.findEntry_tlb (h : Caches buffer pages) (hentry : buffer[i]? = some entry) (hvalid : entry.valid = true)
    (hpage : entry.virtualPage = vpn) : (tlb buffer).findEntry vpn = .ok (i, entry) := by
  rw [findEntry_tlb_eq]
  cases hfind : buffer.zipIdx.find? (tags vpn) with
  | none =>
      have hnone := List.find?_eq_none.mp hfind (entry, i) (List.mem_zipIdx_iff_getElem?.mpr hentry)
      exact absurd (Bool.and_eq_true_iff.mpr ⟨hvalid, beq_iff_eq.mpr hpage⟩) hnone
  | some found =>
      obtain ⟨entry', j⟩ := found
      have hentry' := List.mem_zipIdx_iff_getElem?.mp (List.mem_of_find?_eq_some hfind)
      have hprop := List.find?_some hfind
      obtain ⟨hvalid', hpage'⟩ := Bool.and_eq_true_iff.mp hprop
      have hindex := h.unique hentry hentry' hvalid hvalid' (hpage.trans (beq_iff_eq.mp hpage').symm)
      subst hindex
      rw [hentry, Option.some.injEq] at hentry'
      rw [hentry']
      rfl

theorem findEntry_pageTable (hentry : pages[vpn.toNat]? = some pageEntry) (hvalid : pageEntry.valid = true) :
    (pageTable pages).findEntry vpn = .ok (vpn.toNat, pageEntry) := by
  unfold findEntry
  dsimp only
  rw [hentry]
  exact if_pos hvalid

/-- A page that the TLB has is translated as by the table. -/
theorem Caches.sameTranslation (h : Caches buffer pages) (hentry : buffer[i]? = some entry)
    (hvalid : entry.valid = true) (hpage : entry.virtualPage = page virtAddr) :
    ∃ pageEntry, pages[(page virtAddr).toNat]? = some pageEntry ∧
      SameTranslation writing buffer pages i (page virtAddr).toNat entry pageEntry
        ((tlb buffer).translate virtAddr size writing) ((pageTable pages).translate virtAddr size writing) := by
  obtain ⟨pageEntry, hmem, hvalid', hframe, hreadOnly⟩ := h.backed entry (List.mem_of_getElem? hentry) hvalid
  rw [hpage] at hmem
  refine ⟨pageEntry, hmem, ?_⟩
  cases haligned : size.misaligned virtAddr with
  | true =>
      unfold translate
      rw [if_pos haligned, if_pos haligned]
      exact .exception _
  | false =>
      rw [translate_eq _ haligned, translate_eq _ haligned, h.findEntry_tlb hentry hvalid hpage,
        findEntry_pageTable hmem hvalid']
      change SameTranslation _ _ _ _ _ _ _ ((checked virtAddr writing entry).map _)
        ((checked virtAddr writing pageEntry).map _)
      rw [checked_congr hframe hreadOnly]
      cases checked virtAddr writing entry with
      | error e => exact .exception e
      | ok physAddr => exact .address physAddr

/-- A page that the TLB does not have. -/
theorem translate_tlb_absent (habsent : ∀ entry ∈ buffer, entry.valid = true → entry.virtualPage ≠ page virtAddr) :
    (tlb buffer).translate virtAddr size writing =
      .error (if size.misaligned virtAddr then .addressErrorException else .pageFaultException) := by
  have hfind : (tlb buffer).findEntry (page virtAddr) = .error .pageFaultException := by
    have hnone : buffer.zipIdx.find? (tags (page virtAddr)) = none := by
      apply List.find?_eq_none.mpr
      intro found hfound htrue
      obtain ⟨hvalid, hpage⟩ := Bool.and_eq_true_iff.mp htrue
      have hmem := List.mem_of_getElem? (List.mem_zipIdx_iff_getElem?.mp hfound)
      exact habsent found.1 hmem hvalid (beq_iff_eq.mp hpage)
    rw [findEntry_tlb_eq, hnone]
    rfl
  cases haligned : size.misaligned virtAddr with
  | true =>
      unfold translate
      rw [if_pos haligned]
      rfl
  | false =>
      rw [translate_eq _ haligned, hfind]
      rfl

end Cache

/-- The assertion at the end of `Translate`, in the arithmetic of `int`. -/
theorem translate_assertion (h : t.translate virtAddr size writing = .ok (physAddr, t')) :
    0 ≤ physAddr.toInt ∧ physAddr.toInt + size.bytes ≤ memorySize := by
  have hinside := translate_inside h
  have hbytes : 0 < size.bytes := by cases size <;> decide
  have hsmall : memorySize = 524288 := rfl
  have hint : physAddr.toInt = physAddr.toNat := by
    rw [BitVec.toInt_eq_toNat_cond]
    exact if_pos (by omega)
  omega

/-- `Translate` keeps its assertion and changes only the entry that it uses; and a TLB translates like the page table
that it caches. -/
theorem translate_contract :
    (∀ (t t' : Translation) (virtAddr physAddr : Word) (size : Size) (writing : Bool),
      t.translate virtAddr size writing = .ok (physAddr, t') →
        (0 ≤ physAddr.toInt ∧ physAddr.toInt + size.bytes ≤ memorySize) ∧
        ∃ i entry, t.findEntry (page virtAddr) = .ok (i, entry) ∧ t.entries[i]? = some entry ∧
          t' = t.setEntry i (entry.touched writing)) ∧
    ∀ buffer pages, Caches buffer pages → ∀ virtAddr size writing,
      (∀ i entry, buffer[i]? = some entry → entry.valid = true → entry.virtualPage = page virtAddr →
        ∃ pageEntry, pages[(page virtAddr).toNat]? = some pageEntry ∧
          SameTranslation writing buffer pages i (page virtAddr).toNat entry pageEntry
            ((tlb buffer).translate virtAddr size writing) ((pageTable pages).translate virtAddr size writing)) ∧
      ((∀ entry ∈ buffer, entry.valid = true → entry.virtualPage ≠ page virtAddr) →
        (tlb buffer).translate virtAddr size writing =
          .error (if size.misaligned virtAddr then .addressErrorException else .pageFaultException)) := by
  refine ⟨?_, ?_⟩
  · intro t t' virtAddr physAddr size writing h
    obtain ⟨-, i, entry, hfind, -, -, -, ht'⟩ := translate_ok_iff.mp h
    exact ⟨translate_assertion h, i, entry, hfind, (findEntry_mem hfind).1, ht'⟩
  · intro buffer pages hcaches virtAddr size writing
    constructor
    · intro i entry hentry hvalid hpage
      exact hcaches.sameTranslation hentry hvalid hpage
    · exact translate_tlb_absent

/-- A TLB of one valid entry, for the second page of a table. -/
theorem translate_contract_cached :
    ∃ t t' physAddr, (tlb [⟨7, 9, false, false, false, false⟩, ⟨1, 5, true, false, false, false⟩]).translate 132 .word
        true = .ok (physAddr, t) ∧
      (pageTable [⟨0, 4, true, true, true, false⟩, ⟨0, 5, true, false, true, false⟩]).translate 132 .word true =
        .ok (physAddr, t') ∧ 0 ≤ physAddr.toInt ∧ physAddr.toInt + 4 ≤ memorySize := by
  have hcaches : Caches [⟨7, 9, false, false, false, false⟩, ⟨1, 5, true, false, false, false⟩]
      [⟨0, 4, true, true, true, false⟩, ⟨0, 5, true, false, true, false⟩] := by
    constructor
    · decide
    · intro entry hentry hvalid
      rcases List.mem_cons.mp hentry with rfl | hentry
      · cases hvalid
      · rw [List.mem_singleton.mp hentry]
        exact ⟨_, rfl, rfl, rfl, rfl⟩
  obtain ⟨pageEntry, -, hsame⟩ := (translate_contract.2 _ _ hcaches 132 .word true).1 1 _ rfl rfl rfl
  obtain ⟨physAddr, t, htlb⟩ : ∃ physAddr t,
      (tlb [⟨7, 9, false, false, false, false⟩, ⟨1, 5, true, false, false, false⟩]).translate 132 .word true =
        .ok (physAddr, t) := ⟨_, _, rfl⟩
  obtain ⟨hassertion, -⟩ := translate_contract.1 _ _ _ _ _ _ htlb
  rw [htlb] at hsame
  generalize (pageTable _).translate 132 .word true = outcome at hsame ⊢
  cases hsame with
  | address => exact ⟨_, _, _, htlb, rfl, hassertion⟩

end Translation

namespace Machine

variable {m m' : Machine} {addr value : Word} {size : Size}

theorem readMem_ok_iff : m.readMem addr size = .ok (value, m') ↔ ∃ physAddr t,
    m.translation.translate addr size false = .ok (physAddr, t) ∧ value = fetch m.mainMemory physAddr.toNat size ∧
      m' = { m with translation := t } := by
  unfold readMem
  constructor
  · intro h
    split at h
    · cases h
    next physAddr t htranslate =>
      cases h
      exact ⟨physAddr, t, htranslate, rfl, rfl⟩
  · rintro ⟨physAddr, t, htranslate, rfl, rfl⟩
    rw [htranslate]

theorem writeMem_ok_iff : m.writeMem addr size value = .ok m' ↔ ∃ physAddr t,
    m.translation.translate addr size true = .ok (physAddr, t) ∧
      m' = { m with mainMemory := m.mainMemory.store physAddr.toNat (storedBytes value size), translation := t } := by
  unfold writeMem
  constructor
  · intro h
    split at h
    · cases h
    next physAddr t htranslate =>
      cases h
      exact ⟨physAddr, t, htranslate, rfl⟩
  · rintro ⟨physAddr, t, htranslate, rfl⟩
    rw [htranslate]

end Machine

end Nachos

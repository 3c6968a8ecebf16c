import Mathlib.Data.List.Nodup
import Mathlib.Data.Option.Basic
import Mathlib.Logic.Function.Basic
import Nachos.LinkedList

/-! The representation of the lists of `threads/list.cc`: elements in memory, each with a pointer to the next
one, and the pointers `first` and `last`. The memory is shared with other lists, and `new` may return any
address that is not in use. -/

namespace Nachos

abbrev Addr := Nat

/-- A `ListElement` in memory. The pointer `NULL` is `none`. -/
structure ListNode (α : Type) where
  item : α
  key : Int
  next : Option Addr

/-- A `List`, and the elements that the memory holds, those of other lists included. -/
structure LinkedList (α : Type) where
  heap : Addr → Option (ListNode α)
  first : Option Addr
  last : Option Addr

namespace LinkedList

variable {α : Type}

/-- `List::List`. -/
def new (heap : Addr → Option (ListNode α)) : LinkedList α := ⟨heap, none, none⟩

/-- What a pointer points to, unless it is `NULL` or dangling. -/
def load (s : LinkedList α) (ptr : Option Addr) : Option (ListNode α) := ptr.bind s.heap

/-- The assignment `ptr->next = next`. -/
def setNext (s : LinkedList α) (ptr next : Option Addr) : Option (LinkedList α) := do
  let a ← ptr
  let node ← s.heap a
  some { s with heap := Function.update s.heap a (some { node with next := next }) }

/-- `new ListElement (item, sortKey)` at the address `a`. -/
def newElement (s : LinkedList α) (a : Addr) (item : α) (sortKey : Int) : LinkedList α :=
  { s with heap := Function.update s.heap a (some ⟨item, sortKey, none⟩) }

/-- `List::IsEmpty`. -/
def isEmpty (s : LinkedList α) : Bool := s.first.isNone

/-- `List::Append`. -/
def append (s : LinkedList α) (a : Addr) (item : α) : Option (LinkedList α) :=
  let s := s.newElement a item 0
  if s.isEmpty then some { s with first := some a, last := some a }
  else do
    let s ← s.setNext s.last (some a)
    some { s with last := some a }

/-- `List::Prepend`. -/
def prepend (s : LinkedList α) (a : Addr) (item : α) : Option (LinkedList α) :=
  let s := s.newElement a item 0
  if s.isEmpty then some { s with first := some a, last := some a }
  else do
    let s ← s.setNext (some a) s.first
    some { s with first := some a }

/-- The loop of `List::SortedInsert` from `ptr` on, at most `fuel` times around. -/
def walk (a : Addr) (sortKey : Int) : Nat → LinkedList α → Option Addr → Option (LinkedList α)
  | 0, _, _ => none
  | fuel + 1, s, ptr => do
      let node ← s.load ptr
      if node.next.isNone then
        let s ← s.setNext s.last (some a)
        some { s with last := some a }
      else
        let next ← s.load node.next
        if sortKey < next.key then
          let s ← s.setNext (some a) node.next
          s.setNext ptr (some a)
        else walk a sortKey fuel s node.next

/-- `List::SortedInsert`. -/
def sortedInsert (fuel : Nat) (s : LinkedList α) (a : Addr) (item : α) (sortKey : Int) : Option (LinkedList α) :=
  let s := s.newElement a item sortKey
  if s.isEmpty then some { s with first := some a, last := some a }
  else do
    let first ← s.load s.first
    if sortKey < first.key then
      let s ← s.setNext (some a) s.first
      some { s with first := some a }
    else walk a sortKey fuel s s.first

/-- `List::SortedRemove`: the thing, and what `keyPtr` points to afterwards. -/
def sortedRemove (s : LinkedList α) (keyPtr : Option Int) : Option (Option α × Option Int × LinkedList α) :=
  if s.isEmpty then some (none, keyPtr, s)
  else do
    let a ← s.first
    let element ← s.heap a
    some (some element.item, keyPtr.map fun _ => element.key,
      { heap := Function.update s.heap a none
        first := if s.first = s.last then none else element.next
        last := if s.first = s.last then none else s.last })

/-- `List::Remove`. -/
def remove (s : LinkedList α) : Option (Option α × LinkedList α) :=
  (s.sortedRemove none).map fun result => (result.1, result.2.2)

/-- The elements from a pointer on, each with its address, up to another pointer. -/
def Linked (heap : Addr → Option (ListNode α)) :
    Option Addr → List (ListElement (Addr × α)) → Option Addr → Prop
  | ptr, [], stop => ptr = stop
  | ptr, e :: rest, stop =>
      ptr = some e.item.1 ∧ ∃ next, heap e.item.1 = some ⟨e.item.2, e.key, next⟩ ∧ Linked heap next rest stop

/-- The addresses of the elements. -/
def addresses (cells : List (ListElement (Addr × α))) : List Addr := cells.map fun e => e.item.1

/-- The list holds the elements, at distinct addresses: from `first` on the pointers `next` run through them,
`last` points to the last one, and its `next` is `NULL`. -/
structure Represents (s : LinkedList α) (cells : List (ListElement (Addr × α))) : Prop where
  linked : Linked s.heap s.first cells none
  nodup : (addresses cells).Nodup
  last_eq : s.last = (addresses cells).getLast?

section Linked

variable {heap heap' : Addr → Option (ListNode α)} {ptr stop : Option Addr}
  {cells pre post : List (ListElement (Addr × α))}

theorem linked_append :
    Linked heap ptr (pre ++ post) stop ↔ ∃ mid, Linked heap ptr pre mid ∧ Linked heap mid post stop := by
  induction pre generalizing ptr with
  | nil => simp [Linked]
  | cons e rest ih =>
      simp only [List.cons_append, Linked, ih]
      constructor
      · rintro ⟨hptr, next, hnode, mid, hrest, hpost⟩
        exact ⟨mid, ⟨hptr, next, hnode, hrest⟩, hpost⟩
      · rintro ⟨mid, ⟨hptr, next, hnode, hrest⟩, hpost⟩
        exact ⟨hptr, next, hnode, mid, hrest, hpost⟩

/-- Only the memory at the addresses of the elements matters. -/
theorem Linked.congr (h : Linked heap ptr cells stop) (hsame : ∀ x ∈ addresses cells, heap' x = heap x) :
    Linked heap' ptr cells stop := by
  induction cells generalizing ptr with
  | nil => exact h
  | cons e rest ih =>
      obtain ⟨hptr, next, hnode, hrest⟩ := h
      refine ⟨hptr, next, ?_, ih hrest ?_⟩
      · rw [hsame _ List.mem_cons_self, hnode]
      · intro x hx
        exact hsame x (List.mem_cons_of_mem _ hx)

/-- The memory holds every element of the list. -/
theorem Linked.heap_ne_none (h : Linked heap ptr cells stop) : ∀ x ∈ addresses cells, heap x ≠ none := by
  induction cells generalizing ptr with
  | nil => simp [addresses]
  | cons e rest ih =>
      obtain ⟨-, next, hnode, hrest⟩ := h
      intro x hx
      rcases List.mem_cons.mp hx with rfl | hx
      · rw [hnode]
        simp
      · exact ih hrest x hx

theorem Linked.eq_none_iff (h : Linked heap ptr cells none) : ptr = none ↔ cells = [] := by
  cases cells with
  | nil => simpa [Linked] using h
  | cons e rest => simp [h.1]

/-- A new element is linked in behind another one. -/
theorem Linked.insert_after {a : Addr} {item : α} {key : Int} {e : ListElement (Addr × α)} {next : Option Addr}
    (h : Linked heap ptr (pre ++ e :: post) stop) (hnodup : (addresses (pre ++ e :: post)).Nodup)
    (ha : a ∉ addresses (pre ++ e :: post)) (hpost : Linked heap next post stop)
    (hnode : heap' a = some ⟨item, key, next⟩) (hlink : heap' e.item.1 = some ⟨e.item.2, e.key, some a⟩)
    (hsame : ∀ x, x ≠ a → x ≠ e.item.1 → heap' x = heap x) :
    Linked heap' ptr (pre ++ e :: ⟨key, (a, item)⟩ :: post) stop := by
  obtain ⟨mid, hpre, hmid, -⟩ := linked_append.mp h
  unfold addresses at hnodup ha
  rw [List.map_append, List.map_cons, List.nodup_middle, List.nodup_cons, List.mem_append] at hnodup
  rw [List.map_append, List.map_cons, List.mem_append, List.mem_cons] at ha
  obtain ⟨hnot, -⟩ := hnodup
  refine linked_append.mpr ⟨mid, hpre.congr ?_, hmid, some a, hlink, rfl, next, hnode, hpost.congr ?_⟩
  · intro x hx
    exact hsame x (ne_of_mem_of_not_mem hx fun h => ha (.inl h)) (ne_of_mem_of_not_mem hx fun h => hnot (.inl h))
  · intro x hx
    exact hsame x (ne_of_mem_of_not_mem hx fun h => ha (.inr (.inr h)))
      (ne_of_mem_of_not_mem hx fun h => hnot (.inr h))

end Linked

/-- Nothing changes outside the list and the address `a`. -/
def SameOutside (s : LinkedList α) (cells : List (ListElement (Addr × α))) (a : Addr) (s' : LinkedList α) : Prop :=
  ∀ x, x ≠ a → x ∉ addresses cells → s'.heap x = s.heap x

section Calls

variable {s : LinkedList α} {a : Addr} {item : α} {sortKey : Int}
  {cells pre post : List (ListElement (Addr × α))} {e : ListElement (Addr × α)}

theorem setNext_eq {node : ListNode α} (h : s.heap a = some node) (next : Option Addr) :
    s.setNext (some a) next =
      some { s with heap := Function.update s.heap a (some { node with next := next }) } := by
  simp [setNext, h]

theorem Represents.isEmpty_eq (h : s.Represents cells) : s.isEmpty = cells.isEmpty := by
  rw [Bool.eq_iff_iff, isEmpty, Option.isNone_iff_eq_none, h.linked.eq_none_iff, List.isEmpty_iff]

theorem Represents.not_mem (h : s.Represents cells) (hfresh : s.heap a = none) : a ∉ addresses cells :=
  fun hmem => h.linked.heap_ne_none a hmem hfresh

theorem nodup_insert {cells' : List (ListElement (Addr × α))} (hperm : cells'.Perm (⟨sortKey, (a, item)⟩ :: cells))
    (hnodup : (addresses cells).Nodup) (ha : a ∉ addresses cells) : (addresses cells').Nodup := by
  have haddr : (addresses cells').Perm (a :: addresses cells) := hperm.map fun e : ListElement (Addr × α) => e.item.1
  exact haddr.nodup_iff.mpr (List.nodup_cons.mpr ⟨ha, hnodup⟩)

theorem Represents.node (h : s.Represents (pre ++ e :: post)) :
    ∃ next, s.heap e.item.1 = some ⟨e.item.2, e.key, next⟩ ∧ Linked s.heap next post none := by
  obtain ⟨mid, -, -, next, hnode, hpost⟩ := linked_append.mp h.linked
  exact ⟨next, hnode, hpost⟩

theorem mem_addresses_middle : e.item.1 ∈ addresses (pre ++ e :: post) := by simp [addresses]

/-- A new element behind `e`. -/
theorem Represents.insert_after {s' : LinkedList α} {next : Option Addr} (h : s.Represents (pre ++ e :: post))
    (ha : a ∉ addresses (pre ++ e :: post)) (hpost : Linked s.heap next post none)
    (hnode : s'.heap a = some ⟨item, sortKey, next⟩) (hlink : s'.heap e.item.1 = some ⟨e.item.2, e.key, some a⟩)
    (hsame : ∀ x, x ≠ a → x ≠ e.item.1 → s'.heap x = s.heap x) (hfirst : s'.first = s.first)
    (hlast : s'.last = (addresses (pre ++ e :: ⟨sortKey, (a, item)⟩ :: post)).getLast?) :
    s'.Represents (pre ++ e :: ⟨sortKey, (a, item)⟩ :: post) ∧ SameOutside s (pre ++ e :: post) a s' := by
  refine ⟨⟨?_, ?_, hlast⟩, ?_⟩
  · rw [hfirst]
    exact h.linked.insert_after h.nodup ha hpost hnode hlink hsame
  · have hperm : (pre ++ e :: ⟨sortKey, (a, item)⟩ :: post).Perm (⟨sortKey, (a, item)⟩ :: (pre ++ e :: post)) := by
      calc pre ++ e :: ⟨sortKey, (a, item)⟩ :: post
          = (pre ++ [e]) ++ ⟨sortKey, (a, item)⟩ :: post := by simp
        List.Perm _ (⟨sortKey, (a, item)⟩ :: (pre ++ [e] ++ post)) := List.perm_middle
        _ = ⟨sortKey, (a, item)⟩ :: (pre ++ e :: post) := by simp
    exact nodup_insert hperm h.nodup ha
  · intro x hxa hx
    exact hsame x hxa fun heq => hx (heq ▸ mem_addresses_middle)

/-- A new element in front. -/
theorem Represents.cons {s' : LinkedList α} (h : s.Represents cells) (ha : a ∉ addresses cells)
    (hnode : s'.heap a = some ⟨item, sortKey, s.first⟩) (hsame : ∀ x, x ≠ a → s'.heap x = s.heap x)
    (hfirst : s'.first = some a) (hlast : s'.last = (addresses (⟨sortKey, (a, item)⟩ :: cells)).getLast?) :
    s'.Represents (⟨sortKey, (a, item)⟩ :: cells) ∧ SameOutside s cells a s' := by
  refine ⟨⟨⟨hfirst, s.first, hnode, h.linked.congr ?_⟩, List.nodup_cons.mpr ⟨ha, h.nodup⟩, hlast⟩, ?_⟩
  · intro x hx
    exact hsame x (ne_of_mem_of_not_mem hx ha)
  · intro x hxa _
    exact hsame x hxa

/-- An element that is not linked in yet is like any other memory. -/
theorem Represents.newElement (h : s.Represents cells) (ha : a ∉ addresses cells) (item : α) (sortKey : Int) :
    (s.newElement a item sortKey).Represents cells where
  linked := by
    apply h.linked.congr
    intro x hx
    exact Function.update_of_ne (ne_of_mem_of_not_mem hx ha) ..
  nodup := h.nodup
  last_eq := h.last_eq

theorem newElement_heap_self : (s.newElement a item sortKey).heap a = some ⟨item, sortKey, none⟩ :=
  Function.update_self ..

theorem newElement_heap_of_ne {x : Addr} (hx : x ≠ a) : (s.newElement a item sortKey).heap x = s.heap x :=
  Function.update_of_ne hx ..

/-- Linking in an element behind the last one. -/
theorem link_last (h : s.Represents (pre ++ [e])) (ha : a ∉ addresses (pre ++ [e]))
    (hnode : s.heap a = some ⟨item, sortKey, none⟩) :
    ∃ s', (do
        let s ← s.setNext s.last (some a)
        some { s with last := some a }) = some s' ∧
      s'.Represents (pre ++ [e, ⟨sortKey, (a, item)⟩]) ∧ SameOutside s (pre ++ [e]) a s' := by
  obtain ⟨next, hheap, hnext⟩ := h.node
  have hne : e.item.1 ≠ a := ne_of_mem_of_not_mem mem_addresses_middle ha
  have hlast : s.last = some e.item.1 := by
    rw [h.last_eq]
    simp [addresses]
  rw [hlast, setNext_eq hheap]
  have hend : Linked s.heap none ([] : List (ListElement (Addr × α))) none := rfl
  refine ⟨_, rfl, h.insert_after ha hend ?_ (Function.update_self ..) ?_ rfl ?_⟩
  · exact (Function.update_of_ne hne.symm ..).trans hnode
  · intro x _ hxe
    exact Function.update_of_ne hxe ..
  · simp [addresses]

/-- Linking in an element before the first one. -/
theorem link_first (h : s.Represents cells) (hcells : cells ≠ []) (ha : a ∉ addresses cells)
    (hnode : s.heap a = some ⟨item, sortKey, none⟩) :
    ∃ s', (do
        let s ← s.setNext (some a) s.first
        some { s with first := some a }) = some s' ∧
      s'.Represents (⟨sortKey, (a, item)⟩ :: cells) ∧ SameOutside s cells a s' := by
  rw [setNext_eq hnode]
  refine ⟨_, rfl, h.cons ha (Function.update_self ..) ?_ rfl ?_⟩
  · intro x hxa
    exact Function.update_of_ne hxa ..
  · obtain ⟨e, rest, rfl⟩ := List.exists_cons_of_ne_nil hcells
    rw [h.last_eq]
    simp [addresses]

/-- The loop links the element in before the first one with a larger key. -/
theorem walk_spec (fuel : Nat) (h : s.Represents (pre ++ e :: post)) (ha : a ∉ addresses (pre ++ e :: post))
    (hnode : s.heap a = some ⟨item, sortKey, none⟩) (hfuel : post.length < fuel) :
    ∃ s', walk a sortKey fuel s (some e.item.1) = some s' ∧
      s'.Represents (pre ++ e :: Nachos.sortedInsert (a, item) sortKey post) ∧
      SameOutside s (pre ++ e :: post) a s' := by
  induction fuel generalizing pre e post with
  | zero => omega
  | succ fuel ih =>
      obtain ⟨next, hheap, hnext⟩ := h.node
      have hload : s.load (some e.item.1) = some ⟨e.item.2, e.key, next⟩ := hheap
      have hne : e.item.1 ≠ a := ne_of_mem_of_not_mem mem_addresses_middle ha
      rw [walk, hload, Option.bind_eq_bind, Option.bind_some]
      cases post with
      | nil =>
          rw [show next = none from hnext]
          exact link_last h ha hnode
      | cons f rest =>
          obtain ⟨rfl, after, hafter, hrest⟩ := hnext
          have hloadNext : s.load (some f.item.1) = some ⟨f.item.2, f.key, after⟩ := hafter
          simp only [Option.isNone_some, Bool.false_eq_true, if_false, hloadNext, Option.bind_eq_bind,
            Option.bind_some]
          by_cases hlt : sortKey < f.key
          · have hkeep : (Function.update s.heap a (some (⟨item, sortKey, some f.item.1⟩ : ListNode α))) e.item.1 =
                some ⟨e.item.2, e.key, some f.item.1⟩ := (Function.update_of_ne hne ..).trans hheap
            rw [if_pos hlt, setNext_eq hnode, Option.bind_some, setNext_eq hkeep, Nachos.sortedInsert, if_pos hlt]
            have hpost : Linked s.heap (some f.item.1) (f :: rest) none := ⟨rfl, after, hafter, hrest⟩
            refine ⟨_, rfl, h.insert_after ha hpost ?_ (Function.update_self ..) ?_ rfl ?_⟩
            · exact (Function.update_of_ne hne.symm ..).trans (Function.update_self ..)
            · intro x hxa hxe
              exact (Function.update_of_ne hxe ..).trans (Function.update_of_ne hxa ..)
            · rw [h.last_eq]
              simp [addresses, List.getLast?_cons]
          · rw [if_neg hlt, Nachos.sortedInsert, if_neg hlt]
            have hsplit : pre ++ e :: f :: rest = (pre ++ [e]) ++ f :: rest := by simp
            rw [hsplit] at h ha ⊢
            obtain ⟨s', hwalk, hrep, hsame⟩ := ih h ha (Nat.lt_of_succ_lt_succ hfuel)
            refine ⟨s', hwalk, ?_, hsame⟩
            simpa using hrep

/-- What a call does that links in a new element at the address `a`. -/
def Inserts (s : LinkedList α) (cells : List (ListElement (Addr × α))) (a : Addr) (result : Option (LinkedList α))
    (cells' : List (ListElement (Addr × α))) : Prop :=
  ∃ s', result = some s' ∧ s'.Represents cells' ∧ SameOutside s cells a s'

theorem inserts_first (h : s.Represents []) (a : Addr) (item : α) (sortKey : Int) :
    Inserts s [] a (some { s.newElement a item sortKey with first := some a, last := some a })
      [⟨sortKey, (a, item)⟩] := by
  have hfirst : s.first = none := h.linked
  refine ⟨_, rfl, h.cons List.not_mem_nil ?_ (fun x hx => newElement_heap_of_ne hx) rfl rfl⟩
  rw [hfirst]
  exact newElement_heap_self

/-- What happens after the element is allocated. -/
theorem Inserts.of_newElement {result : Option (LinkedList α)} {cells' : List (ListElement (Addr × α))}
    (h : Inserts (s.newElement a item sortKey) cells a result cells') : Inserts s cells a result cells' := by
  obtain ⟨s', hresult, hrep, hsame⟩ := h
  refine ⟨s', hresult, hrep, ?_⟩
  intro x hxa hx
  rw [hsame x hxa hx, newElement_heap_of_ne hxa]

theorem append_spec (h : s.Represents cells) (hfresh : s.heap a = none) (item : α) :
    Inserts s cells a (s.append a item) (cells ++ [⟨0, (a, item)⟩]) := by
  have ha := h.not_mem hfresh
  have hnew := h.newElement ha item 0
  unfold append
  simp only [hnew.isEmpty_eq]
  rcases List.eq_nil_or_concat cells with rfl | ⟨pre, e, rfl⟩
  · exact inserts_first h a item 0
  · rw [List.concat_eq_append] at *
    rw [if_neg (by simp), List.append_assoc]
    exact .of_newElement (link_last hnew ha newElement_heap_self)

theorem prepend_spec (h : s.Represents cells) (hfresh : s.heap a = none) (item : α) :
    Inserts s cells a (s.prepend a item) (⟨0, (a, item)⟩ :: cells) := by
  have ha := h.not_mem hfresh
  have hnew := h.newElement ha item 0
  unfold prepend
  simp only [hnew.isEmpty_eq]
  cases cells with
  | nil => exact inserts_first h a item 0
  | cons e rest => exact .of_newElement (link_first hnew (List.cons_ne_nil e rest) ha newElement_heap_self)

theorem sortedInsert_spec (h : s.Represents cells) (hfresh : s.heap a = none) (item : α) (sortKey : Int)
    {fuel : Nat} (hfuel : cells.length ≤ fuel) :
    Inserts s cells a (s.sortedInsert fuel a item sortKey) (Nachos.sortedInsert (a, item) sortKey cells) := by
  have ha := h.not_mem hfresh
  have hnew := h.newElement ha item sortKey
  unfold sortedInsert
  simp only [hnew.isEmpty_eq]
  cases cells with
  | nil => exact inserts_first h a item sortKey
  | cons e rest =>
      obtain ⟨hfirst, next, hheap, -⟩ := hnew.linked
      have hload : (s.newElement a item sortKey).load (s.newElement a item sortKey).first =
          some ⟨e.item.2, e.key, next⟩ := by
        rw [hfirst]
        exact hheap
      rw [if_neg (by simp), hload, Option.bind_eq_bind, Option.bind_some, Nachos.sortedInsert]
      apply Inserts.of_newElement
      by_cases hlt : sortKey < e.key
      · rw [if_pos hlt, if_pos hlt]
        exact link_first hnew (List.cons_ne_nil e rest) ha newElement_heap_self
      · rw [if_neg hlt, if_neg hlt, hfirst]
        have hsplit : (s.newElement a item sortKey).Represents ([] ++ e :: rest) := hnew
        exact walk_spec fuel hsplit ha newElement_heap_self hfuel

/-- A loop that returns does not depend on the bound. -/
theorem walk_mono {fuel fuel' : Nat} {ptr : Option Addr} {s' : LinkedList α} (hle : fuel ≤ fuel')
    (h : walk a sortKey fuel s ptr = some s') : walk a sortKey fuel' s ptr = some s' := by
  induction fuel generalizing fuel' ptr with
  | zero =>
      rw [walk] at h
      cases h
  | succ fuel ih =>
      obtain ⟨fuel', rfl⟩ : ∃ n, fuel' = n + 1 := ⟨fuel' - 1, by omega⟩
      rw [walk] at h ⊢
      obtain ⟨node, hnode, h⟩ := Option.bind_eq_some_iff.mp h
      rw [hnode, Option.bind_eq_bind, Option.bind_some]
      split at h
      · next hend =>
        rw [if_pos hend]
        exact h
      · next hnot =>
        obtain ⟨next, hnext, h⟩ := Option.bind_eq_some_iff.mp h
        rw [if_neg hnot, hnext, Option.bind_eq_bind, Option.bind_some]
        split at h
        · next hlt =>
          rw [if_pos hlt]
          exact h
        · next hge =>
          rw [if_neg hge]
          exact ih (by omega) h

theorem sortedInsert_mono {fuel fuel' : Nat} {s' : LinkedList α} (hle : fuel ≤ fuel')
    (h : s.sortedInsert fuel a item sortKey = some s') : s.sortedInsert fuel' a item sortKey = some s' := by
  unfold sortedInsert at h ⊢
  simp only at h ⊢
  split at h
  · next hempty =>
    rw [if_pos hempty]
    exact h
  · next hnot =>
    obtain ⟨first, hfirst, h⟩ := Option.bind_eq_some_iff.mp h
    rw [if_neg hnot, hfirst, Option.bind_eq_bind, Option.bind_some]
    split at h
    · next hlt =>
      rw [if_pos hlt]
      exact h
    · next hge =>
      rw [if_neg hge]
      exact walk_mono hle h

/-- The first element is taken, with its key. -/
theorem sortedRemove_cons (h : s.Represents (e :: post)) (keyPtr : Option Int) :
    ∃ s', s.sortedRemove keyPtr = some (some e.item.2, keyPtr.map fun _ => e.key, s') ∧ s'.Represents post ∧
      ∀ x, x ∉ addresses (e :: post) → s'.heap x = s.heap x := by
  obtain ⟨hfirst, next, hheap, hnext⟩ := h.linked
  obtain ⟨hnot, hnodup⟩ := List.nodup_cons.mp h.nodup
  have hlinked : Linked (Function.update s.heap e.item.1 none) next post none := by
    apply hnext.congr
    intro x hx
    exact Function.update_of_ne (ne_of_mem_of_not_mem hx hnot) ..
  have hsame : ∀ x, x ∉ addresses (e :: post) → Function.update s.heap e.item.1 none x = s.heap x := by
    intro x hx
    exact Function.update_of_ne (ne_of_mem_of_not_mem List.mem_cons_self hx).symm ..
  have hempty : s.isEmpty = false := h.isEmpty_eq
  unfold sortedRemove
  rw [if_neg (by simp [hempty]), hfirst, Option.bind_eq_bind, Option.bind_some, hheap, Option.bind_eq_bind,
    Option.bind_some, h.last_eq]
  cases post with
  | nil =>
      have heq : some e.item.1 = (addresses [e]).getLast? := rfl
      rw [if_pos heq, if_pos heq]
      exact ⟨_, rfl, ⟨rfl, List.nodup_nil, rfl⟩, hsame⟩
  | cons f rest =>
      have hne : some e.item.1 ≠ (addresses (e :: f :: rest)).getLast? := by
        intro heq
        have hmem := List.mem_of_getLast? (l := addresses (f :: rest)) (a := e.item.1) heq.symm
        exact hnot hmem
      rw [if_neg hne, if_neg hne]
      exact ⟨_, rfl, ⟨hlinked, hnodup, rfl⟩, hsame⟩

theorem sortedRemove_nil (h : s.Represents []) (keyPtr : Option Int) :
    s.sortedRemove keyPtr = some (none, keyPtr, s) := by
  have hempty : s.isEmpty = true := h.isEmpty_eq
  unfold sortedRemove
  rw [if_pos hempty]

end Calls

/-- A call with its arguments. `SortedRemove` is given what `keyPtr` points to, or `none` for `NULL`. -/
inductive Call (α : Type) where
  | append (item : α)
  | prepend (item : α)
  | remove
  | sortedInsert (item : α) (sortKey : Int)
  | sortedRemove (keyPtr : Option Int)

/-- The element that a call allocates. -/
def Call.element : Call α → Option (ListElement α)
  | .append item => some ⟨0, item⟩
  | .prepend item => some ⟨0, item⟩
  | .sortedInsert item sortKey => some ⟨sortKey, item⟩
  | .remove => none
  | .sortedRemove _ => none

/-- A call of the code, with `a` as the address that `new` returns: the thing it returns, what `keyPtr` points to
afterwards, and the list. -/
def exec (fuel : Nat) (a : Addr) (s : LinkedList α) : Call α → Option ((Option α × Option Int) × LinkedList α)
  | .append item => (s.append a item).map fun s => ((none, none), s)
  | .prepend item => (s.prepend a item).map fun s => ((none, none), s)
  | .sortedInsert item sortKey => (s.sortedInsert fuel a item sortKey).map fun s => ((none, none), s)
  | .remove => s.remove.map fun result => ((result.1, none), result.2)
  | .sortedRemove keyPtr => (s.sortedRemove keyPtr).map fun result => ((result.1, result.2.1), result.2.2)

/-- What a call is for: its effect on a sequence of elements. -/
def Call.apply : Call α → List (ListElement α) → (Option α × Option Int) × List (ListElement α)
  | .append item, elements => ((none, none), elements ++ [⟨0, item⟩])
  | .prepend item, elements => ((none, none), ⟨0, item⟩ :: elements)
  | .sortedInsert item sortKey, elements => ((none, none), Nachos.sortedInsert item sortKey elements)
  | .remove, [] => ((none, none), [])
  | .remove, first :: rest => ((some first.item, none), rest)
  | .sortedRemove keyPtr, [] => ((none, keyPtr), [])
  | .sortedRemove keyPtr, first :: rest => ((some first.item, keyPtr.map fun _ => first.key), rest)

/-- The elements without their addresses. -/
def values (cells : List (ListElement (Addr × α))) : List (ListElement α) := cells.map fun e => ⟨e.key, e.item.2⟩

theorem values_sortedInsert (a : Addr) (item : α) (sortKey : Int) (cells : List (ListElement (Addr × α))) :
    values (Nachos.sortedInsert (a, item) sortKey cells) = Nachos.sortedInsert item sortKey (values cells) := by
  induction cells with
  | nil => rfl
  | cons e rest ih =>
      unfold values at ih ⊢
      rw [Nachos.sortedInsert, List.map_cons, Nachos.sortedInsert]
      split
      · rfl
      · rw [List.map_cons, ih]

/-- A call refines its effect on the sequence, whatever the loop may take beyond the length of the list. -/
theorem Represents.exec_eq {s : LinkedList α} {cells : List (ListElement (Addr × α))} (h : s.Represents cells)
    (c : Call α) (a : Addr) (hfresh : c.element ≠ none → s.heap a = none) :
    ∃ s' cells', (∀ fuel, cells.length ≤ fuel → s.exec fuel a c = some ((c.apply (values cells)).1, s')) ∧
      s'.Represents cells' ∧ values cells' = (c.apply (values cells)).2 ∧ SameOutside s cells a s' := by
  cases c with
  | append item =>
      obtain ⟨s', heq, hrep, hsame⟩ := append_spec h (hfresh (by simp [Call.element])) item
      refine ⟨s', _, ?_, hrep, ?_, hsame⟩
      · intro fuel _
        rw [exec, heq]
        rfl
      · simp [values, Call.apply]
  | prepend item =>
      obtain ⟨s', heq, hrep, hsame⟩ := prepend_spec h (hfresh (by simp [Call.element])) item
      refine ⟨s', _, ?_, hrep, rfl, hsame⟩
      intro fuel _
      rw [exec, heq]
      rfl
  | sortedInsert item sortKey =>
      obtain ⟨s', heq, hrep, hsame⟩ := sortedInsert_spec h (hfresh (by simp [Call.element])) item sortKey
        (Nat.le_refl cells.length)
      refine ⟨s', _, ?_, hrep, values_sortedInsert a item sortKey cells, hsame⟩
      intro fuel hfuel
      rw [exec, sortedInsert_mono hfuel heq]
      rfl
  | remove =>
      cases cells with
      | nil =>
          refine ⟨s, [], ?_, h, rfl, fun _ _ _ => rfl⟩
          intro fuel _
          rw [exec, remove, sortedRemove_nil h]
          rfl
      | cons e rest =>
          obtain ⟨s', heq, hrep, hsame⟩ := sortedRemove_cons h none
          refine ⟨s', rest, ?_, hrep, rfl, fun x _ hx => hsame x hx⟩
          intro fuel _
          rw [exec, remove, heq]
          rfl
  | sortedRemove keyPtr =>
      cases cells with
      | nil =>
          refine ⟨s, [], ?_, h, rfl, fun _ _ _ => rfl⟩
          intro fuel _
          rw [exec, sortedRemove_nil h]
          rfl
      | cons e rest =>
          obtain ⟨s', heq, hrep, hsame⟩ := sortedRemove_cons h keyPtr
          refine ⟨s', rest, ?_, hrep, rfl, fun x _ hx => hsame x hx⟩
          intro fuel _
          rw [exec, heq]
          rfl

theorem exec_mono {s : LinkedList α} {c : Call α} {a : Addr} {fuel fuel' : Nat}
    {result : (Option α × Option Int) × LinkedList α} (hle : fuel ≤ fuel') (h : s.exec fuel a c = some result) :
    s.exec fuel' a c = some result := by
  cases c with
  | sortedInsert item sortKey =>
      obtain ⟨s', heq, rfl⟩ := Option.map_eq_some_iff.mp h
      rw [exec, sortedInsert_mono hle heq]
      rfl
  | append item => exact h
  | prepend item => exact h
  | remove => exact h
  | sortedRemove keyPtr => exact h

/-- The elements that can be reached from the list. -/
inductive Owns (s : LinkedList α) : Addr → Prop where
  | first {a : Addr} (h : s.first = some a) : Owns s a
  | next {a b : Addr} {node : ListNode α} (h : Owns s a) (hnode : s.heap a = some node) (hnext : node.next = some b) :
      Owns s b

section Owns

variable {s : LinkedList α} {cells : List (ListElement (Addr × α))}

theorem Linked.owns {ptr stop : Option Addr} (h : Linked s.heap ptr cells stop) (hptr : ∀ a, ptr = some a → s.Owns a) :
    ∀ x ∈ addresses cells, s.Owns x := by
  induction cells generalizing ptr with
  | nil => simp [addresses]
  | cons e rest ih =>
      obtain ⟨he, next, hnode, hrest⟩ := h
      have howns := hptr _ he
      intro x hx
      rcases List.mem_cons.mp hx with rfl | hx
      · exact howns
      · exact ih hrest (fun b hb => howns.next hnode hb) x hx

/-- What can be reached are the elements of the list. -/
theorem Represents.owns_iff (h : s.Represents cells) (x : Addr) : s.Owns x ↔ x ∈ addresses cells := by
  constructor
  · intro howns
    induction howns with
    | first hfirst =>
        have hlinked := h.linked
        rw [hfirst] at hlinked
        cases cells with
        | nil => cases hlinked
        | cons e rest =>
            rw [Option.some.inj hlinked.1]
            exact List.mem_cons_self
    | @next a b node _ hnode hnext ih =>
        obtain ⟨e, hmem, rfl⟩ := List.mem_map.mp ih
        obtain ⟨pre, post, rfl⟩ := List.append_of_mem hmem
        obtain ⟨after, hheap, hpost⟩ := h.node
        rw [hheap, Option.some.injEq] at hnode
        subst hnode
        rw [show after = some b from hnext] at hpost
        cases post with
        | nil => cases hpost
        | cons f rest =>
            rw [Option.some.inj hpost.1]
            simp [addresses]
  · exact h.linked.owns (fun a ha => .first ha) x

/-- The last element, whose `next` is `NULL`. -/
theorem Represents.last_next (h : s.Represents cells) {a : Addr} (ha : s.last = some a) :
    s.Owns a ∧ ∃ node, s.heap a = some node ∧ node.next = none := by
  rw [h.last_eq] at ha
  refine ⟨(h.owns_iff a).mpr (List.mem_of_getLast? ha), ?_⟩
  rcases List.eq_nil_or_concat cells with rfl | ⟨pre, e, rfl⟩
  · cases ha
  · rw [List.concat_eq_append] at h ha
    obtain ⟨next, hheap, hnext⟩ := h.node
    have haddr : e.item.1 = a := by simpa [addresses] using ha
    rw [← haddr]
    exact ⟨_, hheap, hnext⟩

end Owns

/-- The runs of an empty list, with the calls and the things that they return. Between two calls the memory may
change anywhere except in the elements of the list. -/
inductive Run : List (Call α × Option α) → LinkedList α → Prop where
  | new (heap : Addr → Option (ListNode α)) : Run [] (new heap)
  | call {trace : List (Call α × Option α)} {s s' : LinkedList α} {c : Call α} {a : Addr} {fuel : Nat}
      {result : Option α × Option Int} (h : Run trace s) (hfresh : c.element ≠ none → s.heap a = none)
      (hexec : s.exec fuel a c = some (result, s')) : Run (trace ++ [(c, result.1)]) s'
  | other {trace : List (Call α × Option α)} {s : LinkedList α} {heap : Addr → Option (ListNode α)}
      (h : Run trace s) (hsame : ∀ x, s.Owns x → heap x = s.heap x) : Run trace { s with heap := heap }

/-- The sequence after the calls of a run. -/
def sequence (trace : List (Call α × Option α)) : List (ListElement α) :=
  trace.foldl (fun elements c => (c.1.apply elements).2) []

/-- The items that were put on the list. -/
def inserted (trace : List (Call α × Option α)) : List α :=
  trace.filterMap fun c => c.1.element.map ListElement.item

/-- The items that were taken from it. -/
def taken (trace : List (Call α × Option α)) : List α := trace.filterMap Prod.snd

section Run

variable {trace : List (Call α × Option α)} {s : LinkedList α}

theorem sequence_concat (c : Call α) (thing : Option α) :
    sequence (trace ++ [(c, thing)]) = (c.apply (sequence trace)).2 := by
  rw [sequence, List.foldl_append]
  rfl

theorem inserted_concat (c : Call α) (thing : Option α) :
    inserted (trace ++ [(c, thing)]) = inserted trace ++ (c.element.map ListElement.item).toList := by
  rw [inserted, List.filterMap_append]
  cases h : c.element <;> simp [inserted, h]

theorem taken_concat (c : Call α) (thing : Option α) :
    taken (trace ++ [(c, thing)]) = taken trace ++ thing.toList := by
  rw [taken, List.filterMap_append]
  cases thing <;> simp [taken]

/-- A call neither loses nor duplicates an item. -/
theorem Call.apply_perm (c : Call α) (elements : List (ListElement α)) :
    ((c.element.map ListElement.item).toList ++ elements.map ListElement.item).Perm
      ((c.apply elements).1.1.toList ++ (c.apply elements).2.map ListElement.item) := by
  cases c with
  | append item =>
      simp only [element, apply, List.map_append]
      exact (List.perm_append_singleton item _).symm
  | prepend item => exact List.Perm.refl _
  | sortedInsert item sortKey => exact ((sortedInsert_perm item sortKey elements).map ListElement.item).symm
  | remove => cases elements <;> exact List.Perm.refl _
  | sortedRemove keyPtr => cases elements <;> exact List.Perm.refl _

/-- A run keeps the pointers well formed, and the list the sequence that the calls make of it. -/
theorem Run.represents (h : Run trace s) :
    ∃ cells, s.Represents cells ∧ values cells = sequence trace ∧
      (inserted trace).Perm (taken trace ++ (sequence trace).map ListElement.item) := by
  induction h with
  | new heap => exact ⟨[], ⟨rfl, List.nodup_nil, rfl⟩, rfl, List.Perm.refl _⟩
  | @call trace s s' c a fuel result _ hfresh hexec ih =>
      obtain ⟨cells, hrep, hvalues, hperm⟩ := ih
      obtain ⟨t, cells', heq, hrep', hvalues', -⟩ := hrep.exec_eq c a hfresh
      have hmax := heq (max fuel cells.length) (Nat.le_max_right ..)
      rw [exec_mono (Nat.le_max_left ..) hexec, hvalues] at hmax
      obtain ⟨rfl, rfl⟩ := Prod.mk.inj (Option.some.inj hmax)
      refine ⟨cells', hrep', ?_, ?_⟩
      · rw [hvalues', hvalues, sequence_concat]
      · rw [inserted_concat, taken_concat, sequence_concat, List.append_assoc]
        calc inserted trace ++ (c.element.map ListElement.item).toList
          List.Perm _ (taken trace ++ (sequence trace).map ListElement.item ++
              (c.element.map ListElement.item).toList) := hperm.append_right _
          _ = taken trace ++ ((sequence trace).map ListElement.item ++ (c.element.map ListElement.item).toList) :=
            List.append_assoc ..
          List.Perm _ (taken trace ++ ((c.apply (sequence trace)).1.1.toList ++
              (c.apply (sequence trace)).2.map ListElement.item)) :=
            (List.perm_append_comm.trans (c.apply_perm (sequence trace))).append_left _
  | @other trace s heap _ hsame ih =>
      obtain ⟨cells, hrep, hvalues, hperm⟩ := ih
      refine ⟨cells, ⟨?_, hrep.nodup, hrep.last_eq⟩, hvalues, hperm⟩
      apply hrep.linked.congr
      intro x hx
      exact hsame x ((hrep.owns_iff x).mpr hx)

/-- After any calls on an empty list the pointers run from `first` to `last` through distinct elements, nothing is
lost or duplicated, and the next call returns, with the effect that it has on the sequence. -/
theorem Run.linked_list (h : Run trace s) :
    ∃ cells, s.Represents cells ∧ values cells = sequence trace ∧
      (∀ x, s.Owns x ↔ x ∈ addresses cells) ∧
      (s.first = none ↔ sequence trace = []) ∧ (s.last = none ↔ sequence trace = []) ∧
      (∀ a, s.last = some a → s.Owns a ∧ ∃ node, s.heap a = some node ∧ node.next = none) ∧
      (inserted trace).Perm (taken trace ++ (sequence trace).map ListElement.item) ∧
      (∀ (item : α) (sortKey : Int), KeySorted (sequence trace) →
        ((Call.sortedInsert item sortKey).apply (sequence trace)).2 =
            (sequence trace).filter (fun e => e.key ≤ sortKey) ++ ⟨sortKey, item⟩ ::
              (sequence trace).filter (fun e => sortKey < e.key) ∧
          KeySorted ((Call.sortedInsert item sortKey).apply (sequence trace)).2) ∧
      ∀ (c : Call α) (a : Addr), (c.element ≠ none → s.heap a = none) →
        ∃ s', (∀ fuel, cells.length ≤ fuel → s.exec fuel a c = some ((c.apply (sequence trace)).1, s')) ∧
          Run (trace ++ [(c, (c.apply (sequence trace)).1.1)]) s' ∧
          ∀ x, x ≠ a → ¬s.Owns x → s'.heap x = s.heap x := by
  obtain ⟨cells, hrep, hvalues, hperm⟩ := h.represents
  have hempty : cells = [] ↔ sequence trace = [] := by
    rw [← hvalues, values, List.map_eq_nil_iff]
  refine ⟨cells, hrep, hvalues, hrep.owns_iff, ?_, ?_, fun a ha => hrep.last_next ha, hperm, ?_, ?_⟩
  · rw [hrep.linked.eq_none_iff, hempty]
  · rw [hrep.last_eq, List.getLast?_eq_none_iff, addresses, List.map_eq_nil_iff, hempty]
  · intro item sortKey hsorted
    exact ⟨sortedInsert_eq_filter hsorted, sortedInsert_keySorted hsorted⟩
  · intro c a hfresh
    obtain ⟨s', cells', heq, -, -, hsame⟩ := hrep.exec_eq c a hfresh
    rw [hvalues] at heq
    refine ⟨s', heq, h.call hfresh (heq cells.length (Nat.le_refl _)), ?_⟩
    intro x hxa hnot
    exact hsame x hxa fun hmem => hnot ((hrep.owns_iff x).mpr hmem)

/-- Two elements, the second in front of the first, at the addresses 1 and 2. -/
theorem linked_list_two : ∃ (s : LinkedList Nat) (cells : List (ListElement (Addr × Nat))),
    Run [(.sortedInsert 7 5, none), (.sortedInsert 8 3, none)] s ∧ s.Represents cells ∧
      values cells = [⟨3, 8⟩, ⟨5, 7⟩] := by
  have hempty : Run [] (new fun _ => (none : Option (ListNode Nat))) := .new _
  have hone := hempty.call (c := .sortedInsert 7 5) (a := 1) (fun _ => rfl)
    (show exec 0 1 _ _ = some ((none, none), _) from rfl)
  have htwo := hone.call (c := .sortedInsert 8 3) (a := 2) (fun _ => rfl)
    (show exec 0 2 _ _ = some ((none, none), _) from rfl)
  obtain ⟨cells, hrep, hvalues, -⟩ := htwo.linked_list
  exact ⟨_, cells, htwo, hrep, hvalues⟩

end Run

end LinkedList

end Nachos

import Mathlib.Data.BitVec
import Mathlib.Data.Fintype.Basic
import Mathlib.Logic.Relation

/-! A part of the x86-64: registers of 64 bits, the moves between them and memory, pushes and pops, calls through
registers and returns. Memory is made of words of 64 bits at addresses that are multiples of eight; an access at
another address has no meaning here. -/

namespace X86

abbrev Word := BitVec 64

inductive Reg where
  | rax
  | rbx
  | rcx
  | rdx
  | rbp
  | rsp
  | rsi
  | rdi
  | r8
  | r9
  | r10
  | r11
  | r12
  | r13
  | r14
  | r15
  deriving DecidableEq

instance : Fintype Reg :=
  ⟨{.rax, .rbx, .rcx, .rdx, .rbp, .rsp, .rsi, .rdi, .r8, .r9, .r10, .r11, .r12, .r13, .r14, .r15},
    fun r => by cases r <;> decide⟩

/-- The registers and the memory. -/
structure Machine where
  reg : Reg → Word
  mem : Word → Word

/-- The instructions, their operands in the order of the assembler: the destination comes last. -/
inductive Instr where
  | mov (src dst : Reg)
  | store (src : Reg) (offset : Nat) (base : Reg)
  | load (offset : Nat) (base dst : Reg)
  | storeAt (src : Reg) (label : Word)
  | loadAt (label : Word) (dst : Reg)
  | push (src : Reg)
  | pop (dst : Reg)
  | call (target : Reg)
  | ret

/-- An address of a word. -/
def Aligned (a : Word) : Prop := a.toNat % 8 = 0

instance (a : Word) : Decidable (Aligned a) := inferInstanceAs (Decidable (_ = _))

theorem Aligned.add {a : Word} (h : Aligned a) {k : Nat} (hk : k % 8 = 0) : Aligned (a + BitVec.ofNat 64 k) := by
  unfold Aligned at *
  rw [BitVec.toNat_add, BitVec.toNat_ofNat]
  omega

/-- The words of an array. -/
def slot (base : Word) (i : Nat) : Word := base + BitVec.ofNat 64 (8 * i)

section Slot

variable {base a : Word} {i j : Nat}

theorem Aligned.slot (h : Aligned base) : Aligned (slot base i) := h.add (by omega)

theorem slot_succ : slot base (i + 1) = slot base i + 8 := by
  unfold X86.slot
  rw [Nat.mul_succ, BitVec.ofNat_add, BitVec.add_assoc]
  rfl

theorem add_offset_inj {k l : Nat} (hk : k < 2 ^ 64) (hl : l < 2 ^ 64)
    (h : a + BitVec.ofNat 64 k = a + BitVec.ofNat 64 l) : k = l := by
  have hoffset := congrArg BitVec.toNat (add_left_cancel h)
  rw [BitVec.toNat_ofNat, BitVec.toNat_ofNat, Nat.mod_eq_of_lt hk, Nat.mod_eq_of_lt hl] at hoffset
  exact hoffset

theorem slot_ne (hi : i < 2 ^ 61) (hj : j < 2 ^ 61) (h : i ≠ j) : slot base i ≠ slot base j := by
  intro heq
  have := add_offset_inj (by omega) (by omega) heq
  omega

end Slot

namespace Machine

def read (m : Machine) (a : Word) : Option Word := if Aligned a then some (m.mem a) else none

def write (m : Machine) (a v : Word) : Option Machine :=
  if Aligned a then some { m with mem := Function.update m.mem a v } else none

def setReg (m : Machine) (r : Reg) (v : Word) : Machine := { m with reg := Function.update m.reg r v }

variable {m : Machine} {a v : Word} {r : Reg}

theorem read_aligned (h : Aligned a) : m.read a = some (m.mem a) := if_pos h

theorem write_aligned (h : Aligned a) : m.write a v = some { m with mem := Function.update m.mem a v } := if_pos h

@[simp] theorem setReg_reg_self : (m.setReg r v).reg r = v := Function.update_self _ _ _

theorem setReg_reg_of_ne {q : Reg} (h : q ≠ r) : (m.setReg r v).reg q = m.reg q := Function.update_of_ne h _ _

@[simp] theorem setReg_mem : (m.setReg r v).mem = m.mem := rfl

/-- A word is pushed. -/
def pushed (m : Machine) (v : Word) : Option Machine :=
  (m.setReg .rsp (m.reg .rsp - 8)).write (m.reg .rsp - 8) v

theorem pushed_slot {base : Word} {i : Nat} (hbase : Aligned base) (hsp : m.reg .rsp = slot base (i + 1)) :
    m.pushed v = some { m.setReg .rsp (slot base i) with mem := Function.update m.mem (slot base i) v } := by
  rw [pushed, hsp, slot_succ, add_sub_cancel_right]
  exact write_aligned hbase.slot

theorem read_slot {base : Word} {i : Nat} (hbase : Aligned base) (hsp : m.reg .rsp = slot base i) :
    m.read (m.reg .rsp) = some (m.mem (slot base i)) := by
  rw [hsp]
  exact read_aligned hbase.slot

end Machine

/-- What an instruction that is no jump does. -/
def Instr.effect (m : Machine) : Instr → Option Machine
  | .mov src dst => some (m.setReg dst (m.reg src))
  | .store src offset base => m.write (m.reg base + BitVec.ofNat 64 offset) (m.reg src)
  | .load offset base dst => (m.read (m.reg base + BitVec.ofNat 64 offset)).map (m.setReg dst)
  | .storeAt src label => m.write label (m.reg src)
  | .loadAt label dst => (m.read label).map (m.setReg dst)
  | .push src => m.pushed (m.reg src)
  | .pop dst => (m.read (m.reg .rsp)).map fun v => (m.setReg .rsp (m.reg .rsp + 8)).setReg dst v
  | .call _ => none
  | .ret => none

/-- What an instruction does when the one after it is at `next`, and where the machine goes on. -/
def Instr.exec (next : Word) (m : Machine) : Instr → Option (Machine × Word)
  | .call target => (m.pushed next).map (·, m.reg target)
  | .ret => (m.read (m.reg .rsp)).map (m.setReg .rsp (m.reg .rsp + 8), ·)
  | i => (i.effect m).map (·, next)

/-- The instructions at the addresses of a program, with the address of the instruction that follows. -/
abbrev Code := Word → Option (Instr × Word)

/-- The machine executes the instruction that its instruction pointer points to. -/
def step (code : Code) : Machine × Word → Option (Machine × Word)
  | (m, rip) =>
      match code rip with
      | some (i, next) => i.exec next m
      | none => none

/-- The machine gets from one state to another. -/
abbrev Runs (code : Code) : Machine × Word → Machine × Word → Prop :=
  Relation.ReflTransGen fun s s' => step code s = some s'

/-- The code has the instructions at `a`, and `b` is the address after them. -/
def Code.Holds (code : Code) : Word → List Instr → Word → Prop
  | a, [], b => a = b
  | a, i :: rest, b => ∃ next, code a = some (i, next) ∧ Holds code next rest b

/-- The address after so many instructions. -/
def Code.skip (code : Code) : Nat → Word → Word
  | 0, a => a
  | n + 1, a =>
      match code a with
      | some (_, next) => skip code n next
      | none => a

/-- The instructions one after another, when none of them is a jump. -/
def effects : List Instr → Machine → Option Machine
  | [], m => some m
  | i :: rest, m => (i.effect m).bind (effects rest)

section Run

variable {code : Code} {m m' m'' : Machine} {a b : Word} {i : Instr} {instrs rest : List Instr}

theorem effects_append : effects (instrs ++ rest) m = (effects instrs m).bind (effects rest) := by
  induction instrs generalizing m with
  | nil => rfl
  | cons i instrs ih =>
      rw [List.cons_append, effects, effects, Option.bind_assoc]
      congr 1
      funext m'
      exact ih

theorem effects_cons (m' : Machine) (h : i.effect m = some m') (hrest : effects rest m' = some m'') :
    effects (i :: rest) m = some m'' := by
  rw [effects, h]
  exact hrest

theorem effects_then (instrs : List Instr) (h : effects instrs m = some m') (hrest : effects rest m' = some m'') :
    effects (instrs ++ rest) m = some m'' := by
  rw [effects_append, h]
  exact hrest

theorem Code.Holds.split (n : Nat) (h : code.Holds a instrs b) (hn : n ≤ instrs.length) :
    code.Holds a (instrs.take n) (code.skip n a) ∧ code.Holds (code.skip n a) (instrs.drop n) b := by
  induction n generalizing a instrs with
  | zero => exact ⟨rfl, h⟩
  | succ n ih =>
      cases instrs with
      | nil => cases hn
      | cons i rest =>
          obtain ⟨next, hfetch, hrest⟩ := h
          obtain ⟨htake, hdrop⟩ := ih hrest (Nat.le_of_succ_le_succ hn)
          have hskip : code.skip (n + 1) a = code.skip n next := by
            rw [Code.skip, hfetch]
          rw [hskip]
          exact ⟨⟨next, hfetch, htake⟩, hdrop⟩

theorem Code.skip_add (n k : Nat) : code.skip (n + k) a = code.skip k (code.skip n a) := by
  induction n generalizing a with
  | zero => rw [Nat.zero_add, skip]
  | succ n ih =>
      rw [Nat.succ_add, skip, skip]
      cases hfetch : code a with
      | none =>
          cases k with
          | zero => rfl
          | succ k =>
              show a = code.skip (k + 1) a
              rw [skip, hfetch]
      | some fetched => exact ih

/-- The instructions between two places of the code, and the one at the second place. -/
theorem Code.Holds.between (n k : Nat) (i : Instr) (h : code.Holds a instrs b) (hi : instrs[n + k]? = some i) :
    code.Holds (code.skip n a) ((instrs.drop n).take k) (code.skip (n + k) a) ∧
      code (code.skip (n + k) a) = some (i, code.skip (n + k + 1) a) := by
  obtain ⟨hlt, hget⟩ := List.getElem?_eq_some_iff.mp hi
  have hlater := (h.split n (by omega)).2
  obtain ⟨hinstrs, hrest⟩ := hlater.split k (by rw [List.length_drop]; omega)
  rw [← Code.skip_add, List.drop_drop, List.drop_eq_getElem_cons hlt, hget] at hrest
  obtain ⟨next, hfetch, -⟩ := hrest
  rw [← Code.skip_add] at hinstrs
  refine ⟨hinstrs, hfetch.trans ?_⟩
  rw [Code.skip_add (n + k) 1, Code.skip, hfetch]
  rfl

theorem step_eq (hfetch : code a = some (i, b)) : step code (m, a) = i.exec b m := by
  rw [step, hfetch]

theorem step_effect (hfetch : code a = some (i, b)) (h : i.effect m = some m') : step code (m, a) = some (m', b) := by
  rw [step_eq hfetch]
  cases i with
  | call target => cases h
  | ret => cases h
  | _ =>
      rw [Instr.exec, h]
      · rfl
      · nofun
      · nofun

/-- The machine runs through instructions that are no jumps. -/
theorem Code.Holds.runs (h : code.Holds a instrs b) (heffects : effects instrs m = some m') :
    Runs code (m, a) (m', b) := by
  induction instrs generalizing m a with
  | nil =>
      cases heffects
      cases h
      exact .refl
  | cons i rest ih =>
      obtain ⟨next, hfetch, hrest⟩ := h
      obtain ⟨m₁, heffect, hlater⟩ := Option.bind_eq_some_iff.mp heffects
      exact .head (step_effect hfetch heffect) (ih hrest hlater)

/-- A machine that has left the code can have done so in one way only. -/
theorem Runs.unique {s s' s'' : Machine × Word} (h : Runs code s s') (h' : Runs code s s'')
    (hleft : code s'.2 = none) (hleft' : code s''.2 = none) : s' = s'' := by
  have hstuck : ∀ {t : Machine × Word}, code t.2 = none → ∀ t', step code t ≠ some t' := by
    intro t ht t' hstep
    rw [step, ht] at hstep
    cases hstep
  induction h using Relation.ReflTransGen.head_induction_on with
  | refl =>
      rcases h'.cases_head with heq | ⟨t, hstep, -⟩
      · exact heq
      · exact absurd hstep (hstuck hleft t)
  | @head t t₁ hstep hrest ih =>
      rcases h'.cases_head with heq | ⟨t₂, hstep₂, hrest₂⟩
      · subst heq
        exact absurd hstep (hstuck hleft' t₁)
      · rw [hstep] at hstep₂
        cases hstep₂
        exact ih hrest₂

end Run

/-! The registers of a list are stored at offsets from another register, and loaded again. -/

/-- The instructions that store the registers of the list. -/
def saveAll (base : Reg) (saved : List (Reg × Nat)) : List Instr := saved.map fun (r, offset) => .store r offset base

/-- The instructions that load them. -/
def restoreAll (base : Reg) (saved : List (Reg × Nat)) : List Instr := saved.map fun (r, offset) => .load offset base r

/-- Every offset of the list is that of a word of its own. -/
def OffsetsOk (saved : List (Reg × Nat)) : Prop :=
  (saved.map Prod.snd).Nodup ∧ ∀ entry ∈ saved, entry.2 % 8 = 0 ∧ entry.2 < 2 ^ 64

instance (saved : List (Reg × Nat)) : Decidable (OffsetsOk saved) := inferInstanceAs (Decidable (_ ∧ _))

theorem effects_saveAll (base : Reg) (saved : List (Reg × Nat)) (hok : OffsetsOk saved) (m : Machine)
    (hbase : Aligned (m.reg base)) : ∃ mem, effects (saveAll base saved) m = some { m with mem := mem } ∧
      (∀ entry ∈ saved, mem (m.reg base + BitVec.ofNat 64 entry.2) = m.reg entry.1) ∧
      ∀ a, (∀ entry ∈ saved, a ≠ m.reg base + BitVec.ofNat 64 entry.2) → mem a = m.mem a := by
  induction saved generalizing m with
  | nil => exact ⟨m.mem, rfl, nofun, fun _ _ => rfl⟩
  | cons entry rest ih =>
      obtain ⟨hnodup, hoffsets⟩ := hok
      obtain ⟨hfresh, hnodup⟩ := List.nodup_cons.mp hnodup
      obtain ⟨hmultiple, hlt⟩ := hoffsets entry List.mem_cons_self
      have hwrite : (Instr.store entry.1 entry.2 base).effect m = some _ := Machine.write_aligned (hbase.add hmultiple)
      obtain ⟨mem, hmem, hsaved, hothers⟩ := ih
        ⟨hnodup, fun other hother => hoffsets other (List.mem_cons_of_mem _ hother)⟩
        { m with mem := Function.update m.mem (m.reg base + BitVec.ofNat 64 entry.2) (m.reg entry.1) } hbase
      refine ⟨mem, ?_, ?_, ?_⟩
      · rw [saveAll, List.map_cons, effects, hwrite]
        exact hmem
      · intro other hother
        rcases List.mem_cons.mp hother with rfl | hother
        · -- What is stored later does not overwrite it.
          refine (hothers _ ?_).trans (Function.update_self _ _ _)
          intro later hlater heq
          have hsame := add_offset_inj hlt (hoffsets later (List.mem_cons_of_mem _ hlater)).2 heq
          exact hfresh (hsame ▸ List.mem_map_of_mem hlater)
        · exact hsaved other hother
      · intro a ha
        rw [hothers a fun other hother => ha other (List.mem_cons_of_mem _ hother)]
        exact Function.update_of_ne (ha entry List.mem_cons_self) _ _

theorem effects_restoreAll (base : Reg) (saved : List (Reg × Nat)) (hregs : (base :: saved.map Prod.fst).Nodup)
    (hoffsets : ∀ entry ∈ saved, entry.2 % 8 = 0) (m : Machine) (hbase : Aligned (m.reg base)) :
    ∃ reg, effects (restoreAll base saved) m = some { m with reg := reg } ∧
      (∀ entry ∈ saved, reg entry.1 = m.mem (m.reg base + BitVec.ofNat 64 entry.2)) ∧
      ∀ r, r ∉ saved.map Prod.fst → reg r = m.reg r := by
  induction saved generalizing m with
  | nil => exact ⟨m.reg, rfl, nofun, fun _ _ => rfl⟩
  | cons entry rest ih =>
      obtain ⟨hbaseFresh, hnodup⟩ := List.nodup_cons.mp hregs
      obtain ⟨hfresh, hnodup⟩ := List.nodup_cons.mp hnodup
      have hbaseNe : base ≠ entry.1 := fun h => hbaseFresh (h ▸ List.mem_cons_self)
      have hread : (Instr.load entry.2 base entry.1).effect m =
          some (m.setReg entry.1 (m.mem (m.reg base + BitVec.ofNat 64 entry.2))) :=
        congrArg (Option.map _) (Machine.read_aligned (hbase.add (hoffsets entry List.mem_cons_self)))
      have hkept := Machine.setReg_reg_of_ne (m := m) (v := m.mem (m.reg base + BitVec.ofNat 64 entry.2)) hbaseNe
      obtain ⟨reg, hreg, hrestored, hothers⟩ := ih
        (List.nodup_cons.mpr ⟨fun h => hbaseFresh (List.mem_cons_of_mem _ h), hnodup⟩)
        (fun other hother => hoffsets other (List.mem_cons_of_mem _ hother))
        (m.setReg entry.1 (m.mem (m.reg base + BitVec.ofNat 64 entry.2))) (by rwa [hkept])
      refine ⟨reg, ?_, ?_, ?_⟩
      · rw [restoreAll, List.map_cons, effects, hread]
        exact hreg
      · intro other hother
        rcases List.mem_cons.mp hother with rfl | hother
        · rw [hothers _ hfresh, Machine.setReg_reg_self]
        · rw [hrestored other hother, hkept]
          rfl
      · intro r hr
        rw [List.map_cons, List.mem_cons, not_or] at hr
        rw [hothers r hr.2, Machine.setReg_reg_of_ne hr.1]

end X86

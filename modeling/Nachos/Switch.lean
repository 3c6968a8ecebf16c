import Nachos.X86

/-! The context switch on the x86-64: `SWITCH` and `ThreadRoot` of `threads/switch.S`, with the offsets of
`threads/switch.h`. -/

namespace Nachos

open X86

/-- Where `SWITCH` finds the stack pointer and the other registers of a thread, from the beginning of the object. -/
def contextTable : List (Reg × Nat) :=
  [(.rsp, 0), (.rax, 8), (.rbx, 16), (.rcx, 24), (.rdx, 32), (.rbp, 40), (.rsi, 48), (.rdi, 56), (.r12, 64), (.r13, 72),
    (.r14, 80), (.r15, 88)]

/-- The offset `_PC`. -/
def pcOffset : Nat := 96

def machineStateSize : Nat := 32

/-- The size of the members `stackTop` and `machineState` of a thread. -/
def contextSize : Nat := 8 + 8 * machineStateSize

/-- `SWITCH`, where the variable `_rax_save` is at `raxSave`. -/
def switchCode (raxSave : X86.Word) : List Instr :=
  [.storeAt .rax raxSave,
    .mov .rdi .rax,
    .store .rbx 16 .rax,
    .store .rcx 24 .rax,
    .store .rdx 32 .rax,
    .store .rsi 48 .rax,
    .store .rdi 56 .rax,
    .store .r12 64 .rax,
    .store .r13 72 .rax,
    .store .r14 80 .rax,
    .store .r15 88 .rax,
    .store .rbp 40 .rax,
    .store .rsp 0 .rax,
    .loadAt raxSave .rbx,
    .store .rbx 8 .rax,
    .load 0 .rsp .rbx,
    .store .rbx 96 .rax,
    .mov .rsi .rax,
    .load 8 .rax .rbx,
    .storeAt .rbx raxSave,
    .load 16 .rax .rbx,
    .load 24 .rax .rcx,
    .load 32 .rax .rdx,
    .load 48 .rax .rsi,
    .load 56 .rax .rdi,
    .load 64 .rax .r12,
    .load 72 .rax .r13,
    .load 80 .rax .r14,
    .load 88 .rax .r15,
    .load 40 .rax .rbp,
    .load 0 .rax .rsp,
    .load 96 .rax .rax,
    .store .rax 0 .rsp,
    .loadAt raxSave .rax,
    .ret]

/-- `ThreadRoot`, with `InitialPC` in `rsi`, `InitialArg` in `rdx`, `WhenDonePC` in `rdi` and `StartupPC` in `rcx`. -/
def threadRootCode : List Instr :=
  [.push .rbp,
    .mov .rsp .rbp,
    .push .rdi,
    .push .rsi,
    .push .rdx,
    .call .rcx,
    .pop .rdi,
    .pop .rsi,
    .call .rsi,
    .pop .rdi,
    .call .rdi,
    .mov .rbp .rsp,
    .pop .rbp,
    .ret]

/-- The address is in these members of the object at `t`. -/
def InContext (t a : X86.Word) : Prop := ∃ k < contextSize, a = t + BitVec.ofNat 64 k

/-- The registers that are saved, without `rax`, in the order in which `SWITCH` stores them. -/
def storedRegs : List (Reg × Nat) :=
  [(.rbx, 16), (.rcx, 24), (.rdx, 32), (.rsi, 48), (.rdi, 56), (.r12, 64), (.r13, 72), (.r14, 80), (.r15, 88),
    (.rbp, 40), (.rsp, 0)]

section Switch

variable {code : Code} {raxSave a b t : X86.Word} {m m' : X86.Machine}

theorem inContext_of_lt {k : Nat} (hk : k < contextSize) : InContext t (t + BitVec.ofNat 64 k) := ⟨k, hk, rfl⟩

theorem contextTable_lt {entry : Reg × Nat} (h : entry ∈ contextTable) : entry.2 < pcOffset := by
  revert entry
  decide

theorem ne_of_inContext {x y : X86.Word} (hx : ¬ InContext t x) (hy : InContext t y) : x ≠ y := by
  rintro rfl
  exact hx hy

/-- The first half of `SWITCH` saves the registers of the thread that calls it. -/
theorem switch_saves (halign : Aligned (m.reg .rdi)) (hraxSave : Aligned raxSave) (hsp : Aligned (m.reg .rsp))
    (hfree : ¬ InContext (m.reg .rdi) raxSave) (hstack : ¬ InContext (m.reg .rdi) (m.reg .rsp))
    (hspSave : m.reg .rsp ≠ raxSave) :
    ∃ m', effects ((switchCode raxSave).take 17) m = some m' ∧
      (∀ entry ∈ contextTable, m'.mem (m.reg .rdi + BitVec.ofNat 64 entry.2) = m.reg entry.1) ∧
      m'.mem (m.reg .rdi + BitVec.ofNat 64 pcOffset) = m.mem (m.reg .rsp) ∧
      (∀ a, a ≠ raxSave → ¬ InContext (m.reg .rdi) a → m'.mem a = m.mem a) ∧
      ∀ r, r ≠ .rax → r ≠ .rbx → m'.reg r = m.reg r := by
  generalize ht : m.reg .rdi = t at *
  have hlt : ∀ k, k < contextSize → raxSave ≠ t + BitVec.ofNat 64 k :=
    fun k hk => ne_of_inContext hfree (inContext_of_lt hk)
  -- `rax` is saved, and points to the object.
  let m₁ : X86.Machine := { m with mem := Function.update m.mem raxSave (m.reg .rax) }.setReg .rax t
  have h₁ : effects [.storeAt .rax raxSave, .mov .rdi .rax] m = some m₁ := by
    refine effects_cons _ (X86.Machine.write_aligned hraxSave) ?_
    rw [effects, Instr.effect, ht]
    rfl
  have hreg₁ : ∀ r, r ≠ .rax → m₁.reg r = m.reg r := fun r hr => X86.Machine.setReg_reg_of_ne hr
  obtain ⟨mem, h₂, hsaved, hothers⟩ := effects_saveAll .rax storedRegs (by decide) m₁ halign
  have hbase : m₁.reg .rax = t := X86.Machine.setReg_reg_self
  rw [hbase] at hsaved hothers
  have hkeep : ∀ a, ¬ InContext t a → mem a = m₁.mem a := by
    intro a ha
    apply hothers a
    intro entry hentry
    refine ne_of_inContext ha (inContext_of_lt ?_)
    revert entry
    decide
  have hrax : mem raxSave = m.reg .rax := (hkeep _ hfree).trans (Function.update_self _ _ _)
  have htop : mem (m.reg .rsp) = m.mem (m.reg .rsp) :=
    (hkeep _ hstack).trans (Function.update_of_ne hspSave _ _)
  -- The old `rax` and the return address follow.
  let mem₃ : X86.Word → X86.Word := Function.update (Function.update mem (t + BitVec.ofNat 64 8) (m.reg .rax))
    (t + BitVec.ofNat 64 96) (m.mem (m.reg .rsp))
  let reg₃ : Reg → X86.Word := Function.update (Function.update m₁.reg .rbx (m.reg .rax)) .rbx (m.mem (m.reg .rsp))
  have htail : effects [.loadAt raxSave .rbx, .store .rbx 8 .rax, .load 0 .rsp .rbx, .store .rbx 96 .rax]
      { m₁ with mem := mem } = some ⟨reg₃, mem₃⟩ := by
    have hspNe : m.reg .rsp ≠ t + BitVec.ofNat 64 8 := ne_of_inContext hstack (inContext_of_lt (by decide))
    refine effects_cons ⟨Function.update m₁.reg .rbx (m.reg .rax), mem⟩ ?_ ?_
    · rw [Instr.effect, X86.Machine.read_aligned hraxSave]
      exact congrArg (fun v => some (X86.Machine.mk (Function.update m₁.reg .rbx v) mem)) hrax
    refine effects_cons ⟨Function.update m₁.reg .rbx (m.reg .rax),
      Function.update mem (t + BitVec.ofNat 64 8) (m.reg .rax)⟩ ?_ ?_
    · exact X86.Machine.write_aligned (halign.add rfl)
    refine effects_cons ⟨reg₃, Function.update mem (t + BitVec.ofNat 64 8) (m.reg .rax)⟩ ?_ ?_
    · have haddress : m.reg .rsp + BitVec.ofNat 64 0 = m.reg .rsp := BitVec.add_zero _
      show (X86.Machine.read _ (m.reg .rsp + BitVec.ofNat 64 0)).map _ = _
      rw [haddress, X86.Machine.read_aligned hsp]
      refine congrArg (fun v => some (X86.Machine.mk (Function.update _ .rbx v) _)) ?_
      exact (Function.update_of_ne hspNe _ _).trans htop
    refine effects_cons ⟨reg₃, mem₃⟩ ?_ rfl
    exact X86.Machine.write_aligned (halign.add rfl)
  refine ⟨⟨reg₃, mem₃⟩, ?_, ?_, Function.update_self _ _ _, ?_, ?_⟩
  · exact effects_then _ (effects_then _ h₁ h₂) htail
  · intro entry hentry
    have hne : ∀ k, k < 96 → k ≠ 8 → mem₃ (t + BitVec.ofNat 64 k) = mem (t + BitVec.ofNat 64 k) := by
      intro k hk hk8
      refine (Function.update_of_ne ?_ _ _).trans (Function.update_of_ne ?_ _ _)
      · intro heq
        have := add_offset_inj (by omega) (by decide) heq
        omega
      · intro heq
        exact hk8 (add_offset_inj (by omega) (by decide) heq)
    by_cases hrax : entry = (.rax, 8)
    · subst hrax
      refine (Function.update_of_ne ?_ _ _).trans (Function.update_self _ _ _)
      intro heq
      exact absurd (add_offset_inj (by decide) (by decide) heq) (by decide)
    · have hlisted : entry ∈ storedRegs ∧ entry.2 ≠ 8 ∧ entry.1 ≠ .rax := by
        revert entry
        decide
      show mem₃ _ = _
      rw [hne _ (contextTable_lt hentry) hlisted.2.1, hsaved entry hlisted.1, hreg₁ _ hlisted.2.2]
  · intro a haRax ha
    have hlater : mem₃ a = mem a := by
      refine (Function.update_of_ne ?_ _ _).trans (Function.update_of_ne ?_ _ _)
      · exact ne_of_inContext ha (inContext_of_lt (by decide))
      · exact ne_of_inContext ha (inContext_of_lt (by decide))
    exact hlater.trans ((hkeep a ha).trans (Function.update_of_ne haRax _ _))
  · intro r hrax hrbx
    exact (Function.update_of_ne hrbx _ _).trans ((Function.update_of_ne hrbx _ _).trans (hreg₁ r hrax))

/-- The second half restores those of the thread that runs next. -/
theorem switch_restores (halign : Aligned (m.reg .rsi)) (hraxSave : Aligned raxSave)
    (hsp : Aligned (m.mem (m.reg .rsi))) (hfree : ¬ InContext (m.reg .rsi) raxSave)
    (hspSave : m.mem (m.reg .rsi) ≠ raxSave) :
    ∃ m', effects (((switchCode raxSave).drop 17).take 17) m = some m' ∧
      (∀ entry ∈ contextTable, m'.reg entry.1 = m.mem (m.reg .rsi + BitVec.ofNat 64 entry.2)) ∧
      m'.mem (m.mem (m.reg .rsi)) = m.mem (m.reg .rsi + BitVec.ofNat 64 pcOffset) ∧
      (∀ a, a ≠ raxSave → a ≠ m.mem (m.reg .rsi) → m'.mem a = m.mem a) ∧
      ∀ r ∈ [Reg.r8, .r9, .r10, .r11], m'.reg r = m.reg r := by
  generalize ht : m.reg .rsi = t at *
  have hoffset : ∀ k, k < contextSize → t + BitVec.ofNat 64 k ≠ raxSave :=
    fun k hk => (ne_of_inContext hfree (inContext_of_lt hk)).symm
  have hzero : t + BitVec.ofNat 64 0 = t := BitVec.add_zero _
  -- The new `rax` is put aside.
  let mem₁ : X86.Word → X86.Word := Function.update m.mem raxSave (m.mem (t + BitVec.ofNat 64 8))
  let reg₁ : Reg → X86.Word := Function.update (Function.update m.reg .rax t) .rbx (m.mem (t + BitVec.ofNat 64 8))
  have h₁ : effects [.mov .rsi .rax, .load 8 .rax .rbx, .storeAt .rbx raxSave] m = some ⟨reg₁, mem₁⟩ := by
    refine effects_cons (m.setReg .rax t) (by rw [Instr.effect, ht]) ?_
    refine effects_cons ⟨reg₁, m.mem⟩ ?_ ?_
    · exact congrArg (Option.map _) (X86.Machine.read_aligned (halign.add rfl))
    · exact effects_cons _ (X86.Machine.write_aligned hraxSave) rfl
  have hmem₁ : ∀ a, a ≠ raxSave → mem₁ a = m.mem a := fun a ha => Function.update_of_ne ha _ _
  have hbase : (X86.Machine.mk reg₁ mem₁).reg .rax = t := rfl
  obtain ⟨reg, h₂, hrestored, hothers⟩ := effects_restoreAll .rax storedRegs (by decide)
    (by decide) ⟨reg₁, mem₁⟩ halign
  rw [hbase] at hrestored
  have hrsp : reg .rsp = m.mem t := by
    rw [hrestored (.rsp, 0) (by decide)]
    exact (hmem₁ _ (hoffset 0 (by decide))).trans (congrArg m.mem hzero)
  have hrax : reg .rax = t := hothers .rax (by decide)
  -- The return address goes to the stack, and `rax` gets its value.
  let mem₃ : X86.Word → X86.Word := Function.update mem₁ (m.mem t) (m.mem (t + BitVec.ofNat 64 96))
  let reg₃ : Reg → X86.Word := Function.update (Function.update reg .rax (m.mem (t + BitVec.ofNat 64 96))) .rax
    (m.mem (t + BitVec.ofNat 64 8))
  have htail : effects [.load 96 .rax .rax, .store .rax 0 .rsp, .loadAt raxSave .rax] ⟨reg, mem₁⟩ =
      some ⟨reg₃, mem₃⟩ := by
    refine effects_cons ⟨Function.update reg .rax (m.mem (t + BitVec.ofNat 64 96)), mem₁⟩ ?_ ?_
    · show (X86.Machine.read _ (reg .rax + BitVec.ofNat 64 96)).map _ = _
      rw [hrax, X86.Machine.read_aligned (halign.add rfl)]
      exact congrArg (fun v => some (X86.Machine.mk (Function.update reg .rax v) mem₁))
        (hmem₁ _ (hoffset 96 (by decide)))
    refine effects_cons ⟨Function.update reg .rax (m.mem (t + BitVec.ofNat 64 96)), mem₃⟩ ?_ ?_
    · have haddress : reg .rsp + BitVec.ofNat 64 0 = m.mem t := (BitVec.add_zero _).trans hrsp
      show X86.Machine.write _ (reg .rsp + BitVec.ofNat 64 0) _ = _
      rw [haddress]
      exact X86.Machine.write_aligned hsp
    refine effects_cons ⟨reg₃, mem₃⟩ ?_ rfl
    rw [Instr.effect, X86.Machine.read_aligned hraxSave]
    refine congrArg (fun v => some (X86.Machine.mk (Function.update _ .rax v) mem₃)) ?_
    exact (Function.update_of_ne hspSave.symm _ _).trans (Function.update_self _ _ _)
  refine ⟨⟨reg₃, mem₃⟩, effects_then _ (effects_then _ h₁ h₂) htail, ?_, Function.update_self _ _ _, ?_, ?_⟩
  · intro entry hentry
    by_cases hraxEntry : entry = (.rax, 8)
    · subst hraxEntry
      show reg₃ .rax = _
      exact Function.update_self Reg.rax _ _
    · have hlisted : entry ∈ storedRegs ∧ entry.1 ≠ .rax := by
        revert entry
        decide
      have hkept : reg₃ entry.1 = reg entry.1 :=
        (Function.update_of_ne hlisted.2 _ _).trans (Function.update_of_ne hlisted.2 _ _)
      show reg₃ entry.1 = _
      rw [hkept, hrestored entry hlisted.1]
      have hlt := contextTable_lt hentry
      exact hmem₁ _ (hoffset _ (by simp only [contextSize, machineStateSize, pcOffset] at *; omega))
  · intro a haRax ha
    exact (Function.update_of_ne ha _ _).trans (hmem₁ a haRax)
  · intro r hr
    have hscratch : r ≠ .rax ∧ r ≠ .rbx ∧ r ∉ storedRegs.map Prod.fst := by
      revert r
      decide
    have hkept : reg₃ r = reg r :=
      (Function.update_of_ne hscratch.1 _ _).trans (Function.update_of_ne hscratch.1 _ _)
    show reg₃ r = _
    rw [hkept, hothers r hscratch.2.2]
    exact (Function.update_of_ne hscratch.2.1 _ _).trans (Function.update_of_ne hscratch.1 _ _)

/-- What a call of `SWITCH` makes of the machine `m`. -/
structure Switched (raxSave : X86.Word) (m m' : X86.Machine) : Prop where
  saved : ∀ entry ∈ contextTable, m'.mem (m.reg .rdi + BitVec.ofNat 64 entry.2) = m.reg entry.1
  savedPC : m'.mem (m.reg .rdi + BitVec.ofNat 64 pcOffset) = m.mem (m.reg .rsp)
  restored : ∀ entry ∈ contextTable, entry.1 ≠ .rsp → m'.reg entry.1 = m.mem (m.reg .rsi + BitVec.ofNat 64 entry.2)
  rsp : m'.reg .rsp = m.mem (m.reg .rsi) + 8
  scratch : ∀ r ∈ [Reg.r8, .r9, .r10, .r11], m'.reg r = m.reg r
  top : m'.mem (m.mem (m.reg .rsi)) = m.mem (m.reg .rsi + BitVec.ofNat 64 pcOffset)
  others : ∀ a, a ≠ raxSave → ¬ InContext (m.reg .rdi) a → a ≠ m.mem (m.reg .rsi) → m'.mem a = m.mem a

/-- `SWITCH` saves the registers of one thread, restores those of another one, and returns to where that one has called
it. -/
theorem switch_runs (hcode : code.Holds a (switchCode raxSave) b) (hold : Aligned (m.reg .rdi))
    (hnew : Aligned (m.reg .rsi)) (hraxSave : Aligned raxSave) (hsp : Aligned (m.reg .rsp))
    (hnewSp : Aligned (m.mem (m.reg .rsi)))
    (hdisjoint : ∀ x, InContext (m.reg .rdi) x → ¬ InContext (m.reg .rsi) x)
    (hfreeOld : ¬ InContext (m.reg .rdi) raxSave) (hfreeNew : ¬ InContext (m.reg .rsi) raxSave)
    (hstack : ¬ InContext (m.reg .rdi) (m.reg .rsp)) (hspSave : m.reg .rsp ≠ raxSave)
    (hnewStack : ¬ InContext (m.reg .rdi) (m.mem (m.reg .rsi))) (hnewSave : m.mem (m.reg .rsi) ≠ raxSave) :
    ∃ m', Switched raxSave m m' ∧
      Runs code (m, a) (m', m.mem (m.reg .rsi + BitVec.ofNat 64 pcOffset)) := by
  obtain ⟨m₁, hsave, hsaved, hsavedPC, hkept, hregs⟩ := switch_saves hold hraxSave hsp hfreeOld hstack hspSave
  have hrsi : m₁.reg .rsi = m.reg .rsi := hregs .rsi (by decide) (by decide)
  -- The context of the new thread is as it was.
  have hcontext : ∀ k < contextSize,
      m₁.mem (m.reg .rsi + BitVec.ofNat 64 k) = m.mem (m.reg .rsi + BitVec.ofNat 64 k) := by
    intro k hk
    apply hkept
    · exact (ne_of_inContext hfreeNew (inContext_of_lt hk)).symm
    · exact fun hin => hdisjoint _ hin (inContext_of_lt hk)
  have hnewRsp : m₁.mem (m.reg .rsi) = m.mem (m.reg .rsi) := by
    have hzero := hcontext 0 (by decide)
    rwa [show m.reg .rsi + BitVec.ofNat 64 0 = m.reg .rsi from BitVec.add_zero _] at hzero
  obtain ⟨m₂, hrestore, hrestored, htop, hmem, hscratch⟩ :=
    switch_restores (m := m₁) (by rwa [hrsi]) hraxSave (by rwa [hrsi, hnewRsp]) (by rwa [hrsi]) (by rwa [hrsi, hnewRsp])
  rw [hrsi] at hrestored htop hmem
  rw [hnewRsp] at htop hmem
  have hrsp : m₂.reg .rsp = m.mem (m.reg .rsi) := by
    rw [hrestored (.rsp, 0) (by decide)]
    exact (hcontext 0 (by decide)).trans (congrArg m.mem (BitVec.add_zero _))
  refine ⟨m₂.setReg .rsp (m₂.reg .rsp + 8), ⟨?_, ?_, ?_, ?_, ?_, ?_, ?_⟩, ?_⟩
  · intro entry hentry
    have hlt := contextTable_lt hentry
    have hin : InContext (m.reg .rdi) (m.reg .rdi + BitVec.ofNat 64 entry.2) :=
      inContext_of_lt (by simp only [contextSize, machineStateSize, pcOffset] at *; omega)
    exact (hmem _ (ne_of_inContext hfreeOld hin).symm (ne_of_inContext hnewStack hin).symm).trans (hsaved entry hentry)
  · have hin : InContext (m.reg .rdi) (m.reg .rdi + BitVec.ofNat 64 pcOffset) := inContext_of_lt (by decide)
    exact (hmem _ (ne_of_inContext hfreeOld hin).symm (ne_of_inContext hnewStack hin).symm).trans hsavedPC
  · intro entry hentry hne
    rw [X86.Machine.setReg_reg_of_ne hne, hrestored entry hentry]
    have hlt := contextTable_lt hentry
    exact hcontext _ (by simp only [contextSize, machineStateSize, pcOffset] at *; omega)
  · rw [X86.Machine.setReg_reg_self, hrsp]
  · intro r hr
    have hr' : r ≠ .rsp ∧ r ≠ .rax ∧ r ≠ .rbx := by
      revert r
      decide
    rw [X86.Machine.setReg_reg_of_ne hr'.1, hscratch r hr, hregs r hr'.2.1 hr'.2.2]
  · exact htop.trans (hcontext _ (by decide))
  · intro x hx hin htop'
    exact (hmem x hx htop').trans (hkept x hx hin)
  · -- The two halves, and the return.
    have hmoves : effects ((switchCode raxSave).take 34) m = some m₂ :=
      effects_then ((switchCode raxSave).take 17) hsave hrestore
    obtain ⟨hbefore, hfetch⟩ := hcode.between 0 34 .ret rfl
    refine (hbefore.runs hmoves).tail ?_
    rw [step_eq hfetch, Instr.exec, X86.Machine.read_aligned (by rwa [hrsp])]
    refine congrArg (fun v => some (m₂.setReg .rsp (m₂.reg .rsp + 8), v)) ?_
    rw [hrsp, htop]
    exact hcontext _ (by decide)

end Switch

section ThreadRoot

variable {code : Code} {root rootEnd base : X86.Word} {i : Nat} {m : X86.Machine}

/-- `ThreadRoot` calls the startup function, with the others on the stack. -/
theorem threadRoot_starts (hcode : code.Holds root threadRootCode rootEnd) (hbase : Aligned base)
    (hi : i + 5 < 2 ^ 61) (hsp : m.reg .rsp = slot base (i + 5)) :
    ∃ m', Runs code (m, root) (m', m.reg .rcx) ∧ m'.reg .rsp = slot base i ∧ m'.mem (slot base i) = code.skip 6 root ∧
      m'.mem (slot base (i + 1)) = m.reg .rdx ∧ m'.mem (slot base (i + 2)) = m.reg .rsi ∧
      m'.mem (slot base (i + 3)) = m.reg .rdi ∧
      ∀ a, (∀ j < 5, a ≠ slot base (i + j)) → m'.mem a = m.mem a := by
  have ⟨hmovesAt, hcall⟩ : code.Holds root (threadRootCode.take 5) (code.skip 5 root) ∧
      code (code.skip 5 root) = some (.call .rcx, code.skip 6 root) := hcode.between 0 5 _ rfl
  let reg₁ : Reg → X86.Word := Function.update m.reg .rsp (slot base (i + 4))
  let mem₁ : X86.Word → X86.Word := Function.update m.mem (slot base (i + 4)) (m.reg .rbp)
  let reg₂ : Reg → X86.Word := Function.update reg₁ .rbp (slot base (i + 4))
  let reg₃ : Nat → Reg → X86.Word := fun j => Function.update reg₂ .rsp (slot base (i + j))
  have hreg : ∀ j r, r ≠ .rsp → r ≠ .rbp → reg₃ j r = m.reg r := fun j r hrsp hrbp =>
    (Function.update_of_ne hrsp _ _).trans ((Function.update_of_ne hrbp _ _).trans (Function.update_of_ne hrsp _ _))
  have hover : ∀ j k, Function.update (reg₃ j) .rsp (slot base (i + k)) = reg₃ k :=
    fun j k => Function.update_idem _ _ _
  have hrsp : ∀ j, reg₃ j .rsp = slot base (i + j) := fun j => Function.update_self Reg.rsp _ _
  have hpushed : ∀ j v (mem : X86.Word → X86.Word), (X86.Machine.mk (reg₃ (j + 1)) mem).pushed v =
      some ⟨reg₃ j, Function.update mem (slot base (i + j)) v⟩ := by
    intro j v mem
    exact (X86.Machine.pushed_slot hbase (hrsp (j + 1))).trans
      (congrArg (fun reg => some (X86.Machine.mk reg (Function.update mem (slot base (i + j)) v))) (hover _ _))
  have hpush : ∀ j r (mem : X86.Word → X86.Word), r ≠ .rsp → r ≠ .rbp → (Instr.push r).effect ⟨reg₃ (j + 1), mem⟩ =
      some ⟨reg₃ j, Function.update mem (slot base (i + j)) (m.reg r)⟩ := by
    intro j r mem hne hne'
    rw [Instr.effect, hpushed]
    exact congrArg (fun v => some (X86.Machine.mk (reg₃ j) (Function.update mem (slot base (i + j)) v)))
      (hreg _ r hne hne')
  let mem₂ := Function.update mem₁ (slot base (i + 3)) (m.reg .rdi)
  let mem₃ := Function.update mem₂ (slot base (i + 2)) (m.reg .rsi)
  let mem₄ := Function.update mem₃ (slot base (i + 1)) (m.reg .rdx)
  have hmoves : effects (threadRootCode.take 5) m = some ⟨reg₃ 1, mem₄⟩ := by
    refine effects_cons _ (X86.Machine.pushed_slot hbase hsp) ?_
    refine effects_cons ⟨reg₃ 4, mem₁⟩ ?_ ?_
    · have hrsp₁ : reg₁ .rsp = slot base (i + 4) := Function.update_self Reg.rsp _ _
      have hsame : reg₃ 4 = reg₂ :=
        Function.update_eq_self_iff.mpr (hrsp₁.symm.trans (Function.update_of_ne (by decide) _ _).symm)
      rw [hsame]
      exact congrArg (fun v => some (X86.Machine.mk (Function.update reg₁ .rbp v) mem₁)) hrsp₁
    refine effects_cons _ (hpush 3 .rdi mem₁ (by decide) (by decide)) ?_
    refine effects_cons _ (hpush 2 .rsi mem₂ (by decide) (by decide)) ?_
    exact effects_cons _ (hpush 1 .rdx mem₃ (by decide) (by decide)) rfl
  have hstep : step code (⟨reg₃ 1, mem₄⟩, code.skip 5 root) =
      some (⟨reg₃ 0, Function.update mem₄ (slot base i) (code.skip 6 root)⟩, m.reg .rcx) := by
    rw [step_eq hcall, Instr.exec, hpushed 0]
    exact congrArg (fun v => some (X86.Machine.mk _ _, v)) (hreg 1 .rcx (by decide) (by decide))
  have hne : ∀ j k, j < 5 → k < 5 → j ≠ k → slot base (i + j) ≠ slot base (i + k) :=
    fun j k hj hk h => slot_ne (by omega) (by omega) (by omega)
  refine ⟨_, (hmovesAt.runs hmoves).tail hstep, hrsp 0, Function.update_self _ _ _, ?_, ?_, ?_, ?_⟩
  · exact (Function.update_of_ne (hne 1 0 (by decide) (by decide) (by decide)) _ _).trans (Function.update_self _ _ _)
  · exact (Function.update_of_ne (hne 2 0 (by decide) (by decide) (by decide)) _ _).trans
      ((Function.update_of_ne (hne 2 1 (by decide) (by decide) (by decide)) _ _).trans (Function.update_self _ _ _))
  · exact (Function.update_of_ne (hne 3 0 (by decide) (by decide) (by decide)) _ _).trans
      ((Function.update_of_ne (hne 3 1 (by decide) (by decide) (by decide)) _ _).trans
        ((Function.update_of_ne (hne 3 2 (by decide) (by decide) (by decide)) _ _).trans (Function.update_self _ _ _)))
  · intro a ha
    exact (Function.update_of_ne (ha 0 (by decide)) _ _).trans ((Function.update_of_ne (ha 1 (by decide)) _ _).trans
      ((Function.update_of_ne (ha 2 (by decide)) _ _).trans ((Function.update_of_ne (ha 3 (by decide)) _ _).trans
        (Function.update_of_ne (ha 4 (by decide)) _ _))))

/-- When the startup function has returned, `ThreadRoot` calls the function of the thread with its argument. -/
theorem threadRoot_enters (hcode : code.Holds root threadRootCode rootEnd) (hbase : Aligned base)
    (hsp : m.reg .rsp = slot base (i + 1)) :
    ∃ m', Runs code (m, code.skip 6 root) (m', m.mem (slot base (i + 2))) ∧ m'.reg .rdi = m.mem (slot base (i + 1)) ∧
      m'.reg .rsp = slot base (i + 2) ∧ m'.mem = Function.update m.mem (slot base (i + 2)) (code.skip 9 root) := by
  have ⟨hmovesAt, hcall⟩ : code.Holds (code.skip 6 root) ((threadRootCode.drop 6).take 2) (code.skip 8 root) ∧
      code (code.skip 8 root) = some (.call .rsi, code.skip 9 root) := hcode.between 6 2 _ rfl
  let reg₁ : Reg → X86.Word :=
    Function.update (Function.update m.reg .rsp (slot base (i + 2))) .rdi (m.mem (slot base (i + 1)))
  let reg₂ : Reg → X86.Word :=
    Function.update (Function.update reg₁ .rsp (slot base (i + 3))) .rsi (m.mem (slot base (i + 2)))
  have hrsp₁ : reg₁ .rsp = slot base (i + 2) :=
    (Function.update_of_ne (by decide) _ _).trans (Function.update_self Reg.rsp _ _)
  have hrsp₂ : reg₂ .rsp = slot base (i + 3) :=
    (Function.update_of_ne (by decide) _ _).trans (Function.update_self Reg.rsp _ _)
  have hmoves : effects ((threadRootCode.drop 6).take 2) m = some ⟨reg₂, m.mem⟩ := by
    refine effects_cons ⟨reg₁, m.mem⟩ ?_ (effects_cons ⟨reg₂, m.mem⟩ ?_ rfl)
    · rw [Instr.effect, X86.Machine.read_slot hbase hsp, hsp, ← slot_succ]
      rfl
    · rw [Instr.effect, X86.Machine.read_slot hbase hrsp₁]
      refine congrArg some ?_
      show X86.Machine.mk (Function.update (Function.update reg₁ .rsp (reg₁ .rsp + 8)) .rsi _) m.mem = _
      rw [hrsp₁, ← slot_succ]
  let m' : X86.Machine :=
    ⟨Function.update reg₂ .rsp (slot base (i + 2)), Function.update m.mem (slot base (i + 2)) (code.skip 9 root)⟩
  have hrsp : m'.reg .rsp = slot base (i + 2) := Function.update_self Reg.rsp (slot base (i + 2)) reg₂
  refine ⟨m', (hmovesAt.runs hmoves).tail ?_, ?_, hrsp, rfl⟩
  · rw [step_eq hcall, Instr.exec, X86.Machine.pushed_slot hbase hrsp₂]
    have hrsi : reg₂ .rsi = m.mem (slot base (i + 2)) := Function.update_self Reg.rsi _ _
    exact congrArg (fun v => some (m', v)) hrsi
  · have hrdi : Reg.rdi ≠ .rsp ∧ Reg.rdi ≠ .rsi := by decide
    calc m'.reg .rdi = reg₂ .rdi := Function.update_of_ne hrdi.1 (slot base (i + 2)) reg₂
      _ = Function.update reg₁ .rsp (slot base (i + 3)) .rdi := Function.update_of_ne hrdi.2 _ _
      _ = reg₁ .rdi := Function.update_of_ne hrdi.1 _ _
      _ = m.mem (slot base (i + 1)) :=
        Function.update_self Reg.rdi _ (Function.update m.reg .rsp (slot base (i + 2)))

/-- When that one has returned, `ThreadRoot` calls the function that ends the thread. -/
theorem threadRoot_finishes (hcode : code.Holds root threadRootCode rootEnd) (hbase : Aligned base)
    (hsp : m.reg .rsp = slot base (i + 3)) :
    ∃ m', Runs code (m, code.skip 9 root) (m', m.mem (slot base (i + 3))) ∧ m'.reg .rsp = slot base (i + 3) ∧
      m'.mem = Function.update m.mem (slot base (i + 3)) (code.skip 11 root) := by
  have ⟨hmovesAt, hcall⟩ : code.Holds (code.skip 9 root) ((threadRootCode.drop 9).take 1) (code.skip 10 root) ∧
      code (code.skip 10 root) = some (.call .rdi, code.skip 11 root) := hcode.between 9 1 _ rfl
  let reg₁ : Reg → X86.Word :=
    Function.update (Function.update m.reg .rsp (slot base (i + 4))) .rdi (m.mem (slot base (i + 3)))
  have hrsp₁ : reg₁ .rsp = slot base (i + 4) :=
    (Function.update_of_ne (by decide) _ _).trans (Function.update_self Reg.rsp _ _)
  have hmoves : effects ((threadRootCode.drop 9).take 1) m = some ⟨reg₁, m.mem⟩ := by
    refine effects_cons ⟨reg₁, m.mem⟩ ?_ rfl
    rw [Instr.effect, X86.Machine.read_slot hbase hsp, hsp, ← slot_succ]
    rfl
  let m' : X86.Machine :=
    ⟨Function.update reg₁ .rsp (slot base (i + 3)), Function.update m.mem (slot base (i + 3)) (code.skip 11 root)⟩
  have hrsp : m'.reg .rsp = slot base (i + 3) := Function.update_self Reg.rsp (slot base (i + 3)) reg₁
  refine ⟨m', (hmovesAt.runs hmoves).tail ?_, hrsp, rfl⟩
  rw [step_eq hcall, Instr.exec, X86.Machine.pushed_slot hbase hrsp₁]
  have hrdi : reg₁ .rdi = m.mem (slot base (i + 3)) := Function.update_self Reg.rdi _ _
  exact congrArg (fun v => some (m', v)) hrdi

end ThreadRoot

end Nachos

import Nachos.BlockProgram

/-! A device that several threads use, one access at a time. A thread whose blocks nobody else writes computes what it
computes alone. -/

/-- An access to a device, with the block that is read. -/
inductive BlockAccess (Block : Type) where
  | read (n : Int) (block : Block)
  | write (n : Int) (block : Block)

namespace BlockAccess

variable {Block : Type}

/-- The block that is accessed. -/
def number : BlockAccess Block → Int
  | read n _ => n
  | write n _ => n

def Writes (a : BlockAccess Block) (n : Int) : Prop := ∃ block, a = write n block

end BlockAccess

namespace BlockDevice

variable {Block σ ι : Type}

/-- The blocks are cells of their own. -/
structure Lawful (device : BlockDevice Block σ) : Prop where
  read_same : ∀ s n block t, device.write s n block = some t → device.read t n = some block
  read_other : ∀ s n block t m, device.write s n block = some t → m ≠ n → device.read t m = device.read s m
  write_of_read : ∀ s n old block, device.read s n = some old → ∃ t, device.write s n block = some t
  read_of_write : ∀ s n block t, device.write s n block = some t → ∃ old, device.read s n = some old

/-- The device serves the accesses, which several users make, in their order. -/
inductive Serves (device : BlockDevice Block σ) : σ → List (ι × BlockAccess Block) → σ → Prop where
  | nil (s : σ) : Serves device s [] s
  | read {s t : σ} {u : ι} {n : Int} {block : Block} {rest : List (ι × BlockAccess Block)}
      (hread : device.read s n = some block) (hrest : Serves device s rest t) :
      Serves device s ((u, .read n block) :: rest) t
  | write {s s' t : σ} {u : ι} {n : Int} {block : Block} {rest : List (ι × BlockAccess Block)}
      (hwrite : device.write s n block = some s') (hrest : Serves device s' rest t) :
      Serves device s ((u, .write n block) :: rest) t

/-- The accesses of one user. -/
def accessesOf [DecidableEq ι] (u : ι) (history : List (ι × BlockAccess Block)) : List (BlockAccess Block) :=
  history.filterMap fun a => if a.1 = u then some a.2 else none

theorem accessesOf_self [DecidableEq ι] (u : ι) (a : BlockAccess Block) (rest : List (ι × BlockAccess Block)) :
    accessesOf u ((u, a) :: rest) = a :: accessesOf u rest := by
  unfold accessesOf
  rw [List.filterMap_cons, if_pos rfl]

theorem accessesOf_other [DecidableEq ι] {u v : ι} (h : v ≠ u) (a : BlockAccess Block)
    (rest : List (ι × BlockAccess Block)) : accessesOf u ((v, a) :: rest) = accessesOf u rest := by
  unfold accessesOf
  rw [List.filterMap_cons, if_neg h]

end BlockDevice

namespace BlockProgram

variable {Block σ ι α : Type}

/-- The program makes the accesses, and goes on as the second one. -/
inductive Performs : BlockProgram Block α → List (BlockAccess Block) → BlockProgram Block α → Prop where
  | nil (p : BlockProgram Block α) : Performs p [] p
  | read {n : Int} {k : Block → BlockProgram Block α} {block : Block} {rest : List (BlockAccess Block)}
      {q : BlockProgram Block α} (hrest : Performs (k block) rest q) : Performs (.read n k) (.read n block :: rest) q
  | write {n : Int} {k : BlockProgram Block α} {block : Block} {rest : List (BlockAccess Block)}
      {q : BlockProgram Block α} (hrest : Performs k rest q) :
      Performs (.write n block k) (.write n block :: rest) q

variable [DecidableEq ι] {device : BlockDevice Block σ} {s t s' : σ} {u : ι} {history : List (ι × BlockAccess Block)}
  {p q : BlockProgram Block α}

/-- A program whose blocks nobody else writes does among others what it does alone. -/
theorem run_undisturbed (hlawful : device.Lawful) (hserves : device.Serves s history t) (used : Int → Prop)
    (hused : ∀ a ∈ BlockDevice.accessesOf u history, used a.number)
    (hother : ∀ v a, (v, a) ∈ history → v ≠ u → ∀ n, used n → ¬a.Writes n)
    (hperforms : p.Performs (BlockDevice.accessesOf u history) q)
    (hagree : ∀ n, used n → device.read s' n = device.read s n) :
    ∃ t', p.run device s' = q.run device t' ∧ ∀ n, used n → device.read t' n = device.read t n := by
  induction hserves generalizing p s' with
  | nil s =>
      cases hperforms
      exact ⟨s', rfl, hagree⟩
  | @read s t v n block rest hread hrest ih =>
      have hother' : ∀ w a, (w, a) ∈ rest → w ≠ u → ∀ m, used m → ¬a.Writes m := fun w a ha =>
        hother w a (List.mem_cons_of_mem _ ha)
      by_cases hv : v = u
      · subst hv
        rw [BlockDevice.accessesOf_self] at hperforms hused
        cases hperforms with
        | read hperforms =>
            obtain ⟨t', hrun, hsame⟩ := ih (fun a ha => hused a (List.mem_cons_of_mem _ ha)) hother' hperforms hagree
            refine ⟨t', ?_, hsame⟩
            rw [run, hagree n (hused _ List.mem_cons_self), hread]
            exact hrun
      · rw [BlockDevice.accessesOf_other hv] at hperforms hused
        exact ih hused hother' hperforms hagree
  | @write s s₁ t v n block rest hwrite hrest ih =>
      have hother' : ∀ w a, (w, a) ∈ rest → w ≠ u → ∀ m, used m → ¬a.Writes m := fun w a ha =>
        hother w a (List.mem_cons_of_mem _ ha)
      by_cases hv : v = u
      · subst hv
        rw [BlockDevice.accessesOf_self] at hperforms hused
        have hn : used n := hused _ List.mem_cons_self
        cases hperforms with
        | write hperforms =>
            obtain ⟨old, hold⟩ := hlawful.read_of_write s n block s₁ hwrite
            obtain ⟨s₂, hwrite'⟩ := hlawful.write_of_read s' n old block ((hagree n hn).trans hold)
            have hagree' : ∀ m, used m → device.read s₂ m = device.read s₁ m := by
              intro m hm
              by_cases hmn : m = n
              · rw [hmn, hlawful.read_same _ _ _ _ hwrite', hlawful.read_same _ _ _ _ hwrite]
              · rw [hlawful.read_other _ _ _ _ m hwrite' hmn, hlawful.read_other _ _ _ _ m hwrite hmn, hagree m hm]
            obtain ⟨t', hrun, hsame⟩ := ih (fun a ha => hused a (List.mem_cons_of_mem _ ha)) hother' hperforms hagree'
            refine ⟨t', ?_, hsame⟩
            rw [run, hwrite']
            exact hrun
      · rw [BlockDevice.accessesOf_other hv] at hperforms hused
        refine ih hused hother' hperforms ?_
        intro m hm
        have hmn : m ≠ n := by
          rintro rfl
          exact hother v _ List.mem_cons_self hv m hm ⟨block, rfl⟩
        rw [hlawful.read_other _ _ _ _ m hwrite hmn, hagree m hm]

/-- The program accesses these blocks only. -/
def Within (used : Int → Prop) : BlockProgram Block α → Prop
  | .ret _ => True
  | .fail => True
  | .read n k => used n ∧ ∀ block, (k block).Within used
  | .write n _ k => used n ∧ k.Within used

omit [DecidableEq ι] in
theorem Within.bind {β : Type} {used : Int → Prop} {f : α → BlockProgram Block β} (hp : p.Within used)
    (hf : ∀ a, (f a).Within used) : (p >>= f).Within used := by
  show (p.bind f).Within used
  induction p with
  | ret a => exact hf a
  | fail => trivial
  | read n k ih => exact ⟨hp.1, fun block => ih block (hp.2 block)⟩
  | write n block k ih => exact ⟨hp.1, ih hp.2⟩

theorem Performs.within {used : Int → Prop} {accesses : List (BlockAccess Block)} (hperforms : p.Performs accesses q)
    (hwithin : p.Within used) : ∀ a ∈ accesses, used a.number := by
  induction hperforms with
  | nil p => exact nofun
  | read hrest ih =>
      intro a ha
      rcases List.mem_cons.mp ha with rfl | ha
      · exact hwithin.1
      · exact ih (hwithin.2 _) a ha
  | write hrest ih =>
      intro a ha
      rcases List.mem_cons.mp ha with rfl | ha
      · exact hwithin.1
      · exact ih hwithin.2 a ha

end BlockProgram

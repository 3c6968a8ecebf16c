import Mathlib.Data.List.Basic

/-! Programs that read and write the blocks of a device, one after another. A program may be run on any device, and it
may be stopped after any of its writes. -/

/-- A program that returns an `α`, or fails. -/
inductive BlockProgram (Block α : Type) where
  | ret (a : α)
  | fail
  | read (n : Int) (k : Block → BlockProgram Block α)
  | write (n : Int) (block : Block) (k : BlockProgram Block α)

/-- A device with blocks; an access to a block that it does not have fails. -/
structure BlockDevice (Block σ : Type) where
  read : σ → Int → Option Block
  write : σ → Int → Block → Option σ

namespace BlockProgram

variable {Block σ τ α β γ : Type}

def bind : BlockProgram Block α → (α → BlockProgram Block β) → BlockProgram Block β
  | .ret a, f => f a
  | .fail, _ => .fail
  | .read n k, f => .read n fun block => (k block).bind f
  | .write n block k, f => .write n block (k.bind f)

instance : Monad (BlockProgram Block) where
  pure := .ret
  bind := bind

/-- A value that may be missing. -/
def lift : Option α → BlockProgram Block α
  | some a => .ret a
  | none => .fail

/-- The result on a device, and the device afterwards. -/
def run (device : BlockDevice Block σ) : BlockProgram Block α → σ → Option (α × σ)
  | .ret a, s => some (a, s)
  | .fail, _ => none
  | .read n k, s => (device.read s n).bind fun block => (k block).run device s
  | .write n block k, s => (device.write s n block).bind (k.run device)

/-- The devices that a program leaves behind when it is stopped, before its first write and after each of them. -/
def points (device : BlockDevice Block σ) : BlockProgram Block α → σ → List σ
  | .ret _, s => [s]
  | .fail, s => [s]
  | .read n k, s =>
      match device.read s n with
      | some block => (k block).points device s
      | none => [s]
  | .write n block k, s =>
      match device.write s n block with
      | some t => s :: k.points device t
      | none => [s]

section Run

variable {device : BlockDevice Block σ} {s s' t : σ} {p : BlockProgram Block α} {f : α → BlockProgram Block β}

@[simp] theorem run_pure (a : α) : (pure a : BlockProgram Block α).run device s = some (a, s) := rfl

@[simp] theorem run_ret (a : α) : (.ret a : BlockProgram Block α).run device s = some (a, s) := rfl

@[simp] theorem run_fail : (.fail : BlockProgram Block α).run device s = none := rfl

@[simp] theorem run_lift (o : Option α) : (lift o : BlockProgram Block α).run device s = o.map (·, s) := by
  cases o with
  | none => rfl
  | some a => rfl

@[simp] theorem run_bind : (p >>= f).run device s = (p.run device s).bind fun (a, t) => (f a).run device t := by
  show (p.bind f).run device s = _
  induction p generalizing s with
  | ret a => rfl
  | fail => rfl
  | read n k ih =>
      rw [bind, run, run, Option.bind_assoc]
      congr 1
      funext block
      exact ih block
  | write n block k ih =>
      rw [bind, run, run, Option.bind_assoc]
      congr 1
      funext t
      exact ih

theorem end_mem_points {a : α} (h : p.run device s = some (a, t)) : t ∈ p.points device s := by
  induction p generalizing s with
  | ret b =>
      cases h
      exact List.mem_singleton.mpr rfl
  | fail => cases h
  | read n k ih =>
      obtain ⟨block, hread, hrun⟩ := Option.bind_eq_some_iff.mp h
      rw [points, hread]
      exact ih block hrun
  | write n block k ih =>
      obtain ⟨s₁, hwrite, hrun⟩ := Option.bind_eq_some_iff.mp h
      rw [points, hwrite]
      exact List.mem_cons_of_mem _ (ih hrun)

/-- A program of two parts is stopped in the first part, or in the second one. -/
theorem mem_points_bind (h : s' ∈ (p >>= f).points device s) :
    s' ∈ p.points device s ∨ ∃ a t, p.run device s = some (a, t) ∧ s' ∈ (f a).points device t := by
  change s' ∈ (p.bind f).points device s at h
  induction p generalizing s with
  | ret a => exact .inr ⟨a, s, rfl, h⟩
  | fail => exact .inl h
  | read n k ih =>
      rw [bind, points] at h
      rw [points, run]
      cases hread : device.read s n with
      | none =>
          rw [hread] at h
          exact .inl h
      | some block =>
          rw [hread] at h
          exact ih block h
  | write n block k ih =>
      rw [bind, points] at h
      rw [points, run]
      cases hwrite : device.write s n block with
      | none =>
          rw [hwrite] at h
          exact .inl h
      | some t =>
          rw [hwrite] at h
          rcases List.mem_cons.mp h with rfl | h
          · exact .inl List.mem_cons_self
          · rcases ih h with h | h
            · exact .inl (List.mem_cons_of_mem _ h)
            · exact .inr h

theorem mem_points_map {g : α → β} (h : s' ∈ (p >>= fun a => pure (g a)).points device s) :
    s' ∈ p.points device s := by
  rcases mem_points_bind h with h | ⟨a, t, hrun, h⟩
  · exact h
  · rw [List.mem_singleton.mp h]
    exact end_mem_points hrun

/-- A program that only reads. -/
def ReadOnly : BlockProgram Block α → Prop
  | .ret _ => True
  | .fail => True
  | .read _ k => ∀ block, (k block).ReadOnly
  | .write _ _ _ => False

theorem ReadOnly.bind (hp : p.ReadOnly) (hf : ∀ a, (f a).ReadOnly) : (p >>= f).ReadOnly := by
  show (p.bind f).ReadOnly
  induction p with
  | ret a => exact hf a
  | fail => trivial
  | read n k ih => exact fun block => ih block (hp block)
  | write n block k ih => exact hp.elim

theorem readOnly_lift (o : Option α) : (lift o : BlockProgram Block α).ReadOnly := by
  cases o with
  | none => trivial
  | some a => trivial

theorem ReadOnly.points (hp : p.ReadOnly) (h : s' ∈ p.points device s) : s' = s := by
  induction p with
  | ret a => exact List.mem_singleton.mp h
  | fail => exact List.mem_singleton.mp h
  | read n k ih =>
      rw [BlockProgram.points] at h
      cases hread : device.read s n with
      | none =>
          rw [hread] at h
          exact List.mem_singleton.mp h
      | some block =>
          rw [hread] at h
          exact ih block (hp block) h
  | write n block k ih => exact hp.elim

theorem ReadOnly.points_bind {a : α} (hp : p.ReadOnly) (hrun : p.run device s = some (a, t)) :
    (p >>= f).points device s = (f a).points device t := by
  show (p.bind f).points device s = _
  induction p with
  | ret b =>
      cases hrun
      rfl
  | fail => cases hrun
  | read n k ih =>
      obtain ⟨block, hread, hrun⟩ := Option.bind_eq_some_iff.mp hrun
      rw [BlockProgram.bind, BlockProgram.points, hread]
      exact ih block (hp block) hrun
  | write n block k ih => exact hp.elim

/-- What holds after every write holds wherever the program is stopped. -/
theorem points_induction {P : σ → Prop} (hwrite : ∀ s t n block, P s → device.write s n block = some t → P t)
    (hs : P s) (h : s' ∈ p.points device s) : P s' := by
  induction p generalizing s with
  | ret a =>
      rw [List.mem_singleton.mp h]
      exact hs
  | fail =>
      rw [List.mem_singleton.mp h]
      exact hs
  | read n k ih =>
      rw [BlockProgram.points] at h
      cases hread : device.read s n with
      | none =>
          rw [hread] at h
          rw [List.mem_singleton.mp h]
          exact hs
      | some block =>
          rw [hread] at h
          exact ih block hs h
  | write n block k ih =>
      rw [BlockProgram.points] at h
      cases hnext : device.write s n block with
      | none =>
          rw [hnext] at h
          rw [List.mem_singleton.mp h]
          exact hs
      | some t =>
          rw [hnext] at h
          rcases List.mem_cons.mp h with rfl | h
          · exact hs
          · exact ih (hwrite s t n block hs hnext) h

end Run

/-- A device that shows another one. -/
structure Refines (device : BlockDevice Block σ) (abstract : BlockDevice Block τ) (Inv : σ → Prop) (view : σ → τ) :
    Prop where
  read : ∀ s n, Inv s → device.read s n = abstract.read (view s) n
  write : ∀ s n block, Inv s → (device.write s n block).map view = abstract.write (view s) n block
  inv : ∀ s n block t, Inv s → device.write s n block = some t → Inv t

section Refines

variable {device : BlockDevice Block σ} {abstract : BlockDevice Block τ} {Inv : σ → Prop} {view : σ → τ} {s s' : σ}
  {p : BlockProgram Block α}

/-- A program does on a device what it does on the device that this one shows. -/
theorem Refines.run (h : Refines device abstract Inv view) (hs : Inv s) :
    (p.run device s).map (fun (a, t) => (a, view t)) = p.run abstract (view s) := by
  induction p generalizing s with
  | ret a => rfl
  | fail => rfl
  | read n k ih =>
      rw [BlockProgram.run, BlockProgram.run, ← h.read s n hs, Option.map_bind]
      congr 1
      funext block
      exact ih block hs
  | write n block k ih =>
      rw [BlockProgram.run, BlockProgram.run, ← h.write s n block hs]
      cases hwrite : device.write s n block with
      | none => rfl
      | some t => exact ih (h.inv s n block t hs hwrite)

theorem Refines.run_inv (h : Refines device abstract Inv view) (hs : Inv s) {a : α} {t : σ}
    (hrun : p.run device s = some (a, t)) : Inv t :=
  points_induction (fun s t n block hs => h.inv s n block t hs) hs (end_mem_points hrun)

/-- It is stopped where it would be stopped on that device. -/
theorem Refines.points (h : Refines device abstract Inv view) (hs : Inv s) :
    (p.points device s).map view = p.points abstract (view s) := by
  induction p generalizing s with
  | ret a => rfl
  | fail => rfl
  | read n k ih =>
      rw [BlockProgram.points, BlockProgram.points, ← h.read s n hs]
      cases device.read s n with
      | none => rfl
      | some block => exact ih block hs
  | write n block k ih =>
      rw [BlockProgram.points, BlockProgram.points, ← h.write s n block hs]
      cases hwrite : device.write s n block with
      | none => rfl
      | some t =>
          rw [Option.map_some, List.map_cons, ih (h.inv s n block t hs hwrite)]

end Refines

end BlockProgram

import Mathlib.Logic.Function.Basic

/-! Stacks of calls. A frame has a contract: the modes in which it may go on, and the modes in which it then returns
to the frame below it. Threads with stacks of their own take turns at one processor, and a thread that gets the
processor back goes on in the mode of the switch. Nothing here is about a particular program. -/

structure FrameContract (Frame Mode : Type) where
  pre : Frame → Mode → Prop
  post : Frame → Mode → Mode → Prop

namespace FrameContract

variable {Frame Mode Thread : Type} {contract : FrameContract Frame Mode}

/-- The frames may go on in this mode, one after the other, and the last one returns in a mode as desired. -/
def Runs (contract : FrameContract Frame Mode) : List Frame → Mode → (Mode → Prop) → Prop
  | [], m, goal => goal m
  | frame :: rest, m, goal => contract.pre frame m ∧ ∀ m', contract.post frame m m' → contract.Runs rest m' goal

variable {frame : Frame} {frames rest : List Frame} {m m' : Mode} {goal goal' : Mode → Prop}

theorem Runs.mono (h : contract.Runs frames m goal) (hgoal : ∀ m, goal m → goal' m) :
    contract.Runs frames m goal' := by
  induction frames generalizing m with
  | nil => exact hgoal m h
  | cons frame rest ih => exact ⟨h.1, fun m' hpost => ih (h.2 m' hpost)⟩

theorem runs_append :
    contract.Runs (frames ++ rest) m goal ↔ contract.Runs frames m fun m' => contract.Runs rest m' goal := by
  induction frames generalizing m with
  | nil => exact Iff.rfl
  | cons frame frames ih =>
      refine and_congr_right fun _ => ?_
      exact forall_congr' fun m' => imp_congr_right fun _ => ih

/-- A frame may be replaced by frames that keep its promise. -/
theorem Runs.replace (h : contract.Runs (frame :: rest) m goal)
    (hframes : contract.Runs frames m' (contract.post frame m)) :
    contract.Runs (frames ++ rest) m' goal :=
  runs_append.mpr (hframes.mono h.2)

/-- Every thread can go on, the current one in this mode and the others after a switch. -/
structure Resumable (contract : FrameContract Frame Mode) (switched : Thread → Mode) (stack : Thread → List Frame)
    (current : Thread) (m : Mode) : Prop where
  running : contract.Runs (stack current) m fun _ => True
  waiting : ∀ t, t ≠ current → contract.Runs (stack t) (switched t) fun _ => True

section Threads

variable [DecidableEq Thread] {switched : Thread → Mode} {stack stack' : Thread → List Frame} {current next : Thread}

/-- The current thread goes on; the stacks of the other threads may have changed too. -/
theorem Resumable.step (h : contract.Resumable switched stack current m) (hstack : stack current = frame :: rest)
    (hframes : contract.Runs frames m' (contract.post frame m))
    (hothers : ∀ t, t ≠ current → stack' t = stack t ∨ contract.Runs (stack' t) (switched t) fun _ => True) :
    contract.Resumable switched (Function.update stack' current (frames ++ rest)) current m' := by
  refine ⟨?_, ?_⟩
  · rw [Function.update_self]
    have hrunning := h.running
    rw [hstack] at hrunning
    exact hrunning.replace hframes
  · intro t ht
    rw [Function.update_of_ne ht]
    rcases hothers t ht with hsame | hruns
    · rw [hsame]
      exact h.waiting t ht
    · exact hruns

/-- The current thread gives the processor to a thread, which may be itself. -/
theorem Resumable.switch (h : contract.Resumable switched stack current m) (hstack : stack current = frame :: rest)
    (hframes : contract.Runs frames (switched current) (contract.post frame m)) :
    contract.Resumable switched (Function.update stack current (frames ++ rest)) next (switched next) := by
  have hall : ∀ t, contract.Runs (Function.update stack current (frames ++ rest) t) (switched t) fun _ => True := by
    intro t
    rcases eq_or_ne t current with rfl | ht
    · rw [Function.update_self]
      have hrunning := h.running
      rw [hstack] at hrunning
      exact hrunning.replace hframes
    · rw [Function.update_of_ne ht]
      exact h.waiting t ht
  exact ⟨hall next, fun t _ => hall t⟩

end Threads

end FrameContract

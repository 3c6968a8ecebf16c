import Mathlib.Logic.Relation

/-! Transition systems, their reachable states and forward simulations between them. Nothing here
is about a particular program. -/

/-- A set of initial states and a step relation. -/
structure TransitionSystem (State : Type) where
  init : State → Prop
  step : State → State → Prop

namespace TransitionSystem

variable {State Concrete Abstract : Type}

/-- The states of the runs. -/
inductive Reachable (system : TransitionSystem State) : State → Prop where
  | init {s : State} (h : system.init s) : Reachable system s
  | step {s t : State} (hs : Reachable system s) (hstep : system.step s t) : Reachable system t

/-- A predicate that holds initially and is preserved by the steps from reachable states holds of
every reachable state. -/
theorem Reachable.invariant {system : TransitionSystem State} {Inv : State → Prop}
    (hinit : ∀ s, system.init s → Inv s)
    (hstep : ∀ s t, system.Reachable s → Inv s → system.step s t → Inv t) {s : State}
    (h : system.Reachable s) : Inv s := by
  induction h with
  | init h => exact hinit _ h
  | step hs hst ih => exact hstep _ _ hs ih hst

theorem Reachable.steps {system : TransitionSystem State} {s t : State} (h : system.Reachable s)
    (hsteps : Relation.ReflTransGen system.step s t) : system.Reachable t := by
  induction hsteps with
  | refl => exact h
  | tail _ hstep ih => exact ih.step hstep

/-- An abstraction function under which every step of the concrete system is matched by finitely
many steps of the abstract one. The concrete state may be assumed reachable. -/
structure Simulation (concrete : TransitionSystem Concrete) (abstract : TransitionSystem Abstract)
    (abstraction : Concrete → Abstract) : Prop where
  init : ∀ c, concrete.init c → abstract.init (abstraction c)
  step : ∀ c d, concrete.Reachable c → concrete.step c d →
    Relation.ReflTransGen abstract.step (abstraction c) (abstraction d)

theorem Simulation.reachable {concrete : TransitionSystem Concrete}
    {abstract : TransitionSystem Abstract} {abstraction : Concrete → Abstract}
    (hsim : Simulation concrete abstract abstraction) {c : Concrete} (h : concrete.Reachable c) :
    abstract.Reachable (abstraction c) := by
  induction h with
  | init h => exact .init (hsim.init _ h)
  | step hs hstep ih => exact ih.steps (hsim.step _ _ hs hstep)

theorem Simulation.steps {concrete : TransitionSystem Concrete} {abstract : TransitionSystem Abstract}
    {abstraction : Concrete → Abstract} (hsim : Simulation concrete abstract abstraction) {c d : Concrete}
    (h : concrete.Reachable c) (hsteps : Relation.ReflTransGen concrete.step c d) :
    Relation.ReflTransGen abstract.step (abstraction c) (abstraction d) := by
  induction hsteps with
  | refl => exact .refl
  | tail hsteps hstep ih => exact ih.trans (hsim.step _ _ (h.steps hsteps) hstep)

end TransitionSystem

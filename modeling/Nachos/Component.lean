import Nachos.ThreadProgram

/-! Programs as components of a larger system: their semaphores get other names, their memory is a part of a larger
one, and their observations are told apart from those of other components. -/

structure Component (Sem Sem' σ σ' ω ω' : Type) where
  sem : Sem → Sem'
  get : σ' → σ
  put : σ → σ' → σ'
  observation : ω → ω'

variable {Sem Sem' σ σ' ρ ω ω' : Type}

/-- The program of a component in the larger system. -/
def Program.embed (component : Component Sem Sem' σ σ' ω ω') : Program Sem σ ρ ω → Program Sem' σ' ρ ω'
  | .ret => .ret
  | .semP x k => .semP (component.sem x) (k.embed component)
  | .semV x k => .semV (component.sem x) (k.embed component)
  | .tick k => .tick (k.embed component)
  | .yield k => .yield (k.embed component)
  | .act f k =>
      .act
        (fun t shared priv =>
          let result := f t (component.get shared) priv
          (component.put result.1 shared, result.2.1, result.2.2.map component.observation))
        fun t shared priv => (k t (component.get shared) priv).embed component
  | .newThread k => .newThread fun u => (k u).embed component
  | .start t body k => .start t (body.embed component) (k.embed component)
  | .finish => .finish
  | .halt => .halt
  | .abort => .abort

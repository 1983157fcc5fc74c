/-!
# Threads that wait for each other

A resumption is the rest of a run that works on a shared state: it is done, or it waits and can be
resumed with the state that it then finds. `Resumption.lockstep` composes threads: in each round every
thread runs up to its next wait, in order. Since a resumption is well-founded, so is the composition, and
`Resumption.finish` runs it to its end.
-/

namespace TensorNest

/-- The rest of a run over a state. -/
inductive Resumption (σ α : Type) where
  | done (result : α) (state : σ)
  | wait (state : σ) (resume : σ → Resumption σ α)

namespace Resumption

variable {σ α β ε : Type}

/-- Goes on with a result. -/
def bind (f : α → σ → Resumption σ β) : Resumption σ α → Resumption σ β
  | done a s => f a s
  | wait s resume => wait s fun t => (resume t).bind f

/-- Runs to the end, resuming every wait at once. -/
def finish : Resumption σ α → α × σ
  | done a s => (a, s)
  | wait s resume => (resume s).finish

/-- Two threads in lockstep: in each round the first runs up to its next wait, then the second. A
    failure of one of them ends both. -/
def both : Resumption σ (Except ε Unit) → (σ → Resumption σ (Except ε Unit)) →
    Resumption σ (Except ε Unit)
  | done (.error e) s, _ => done (.error e) s
  | done (.ok ()) s, second => second s
  | wait s resume, second =>
    match second s with
    | done (.error e) t => done (.error e) t
    | done (.ok ()) t => wait t resume
    | wait t resume' => wait t fun u => (resume u).both resume'

/-- Threads in lockstep, in order. -/
def lockstep : List (σ → Resumption σ (Except ε Unit)) → σ → Resumption σ (Except ε Unit)
  | [], s => done (.ok ()) s
  | thread :: threads, s => (thread s).both (lockstep threads)

end Resumption

/-- A run over a state that can wait. -/
def Suspension (σ α : Type) := σ → Resumption σ α

namespace Suspension

variable {σ α β : Type}

instance : Monad (Suspension σ) where
  pure a := fun s => .done a s
  bind x f := fun s => (x s).bind f

/-- Waits once. -/
def wait : Suspension σ Unit := fun s => .wait s fun t => .done () t

/-- A step that does not wait. -/
def step (x : StateM σ α) : Suspension σ α := fun s =>
  let (a, t) := x.run s
  .done a t

end Suspension

end TensorNest

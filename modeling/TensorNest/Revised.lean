/-!
# Revised terms

A step that rebuilds a term also tells whether it changed anything, where a term that did not change
is kept as it was given.
-/

namespace TensorNest

/-- A term after a step, and whether the step changed it. -/
structure Revised (α : Type) where
  term : α
  changed : Bool
  deriving Inhabited

/-- A term that a step left as it was. -/
def Revised.kept {α : Type} (a : α) : Revised α := ⟨a, false⟩

end TensorNest

import TensorNest.Expr.Build
import TensorNest.Expr.Visit
import TensorNest.Stmt.Rebuild

/-!
# Access to memory

The address of a region of a buffer becomes the address of its first element, and a choice between
values that read memory reads only for the value that is chosen.
-/

namespace TensorNest

namespace Expr

/-- The address of the first element in place of the address of a region. -/
def lowerAccess : Expr → Expr
  | e@(.call _ _ (hint :: data :: offset :: _) _ _ _) =>
    if e.isIntrinsic "xte_access_ptr" then
      pureIntrinsic .handle "xte_address_of" [.load hint.dtype data offset none]
    else e
  | e => e

/-- A choice that evaluates only one value, in place of a choice between values that read memory. -/
def guardSelect : Expr → Expr
  | e@(.select c t f) =>
    if t.hasLoad || f.hasLoad then intrinsic e.dtype "xte_if_then_else" [c, t, f] else e
  | e => e

end Expr

namespace Stmt

/-- Lowers the addresses of regions. -/
def lowerAccess (s : Stmt) : Stmt :=
  s.mapExprs (Expr.rebuild Expr.lowerAccess)

/-- Makes choices between values that read memory lazy. -/
def guardSelects (s : Stmt) : Stmt :=
  s.mapExprs (Expr.rebuild Expr.guardSelect)

end Stmt

end TensorNest

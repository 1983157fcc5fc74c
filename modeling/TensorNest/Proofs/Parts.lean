import TensorNest.Proofs.Execution
import TensorNest.Proofs.Meaning

/-! # Statements by their parts

A statement has expressions of its own, a variable that it binds, if it binds one, and bodies, in which the
variable is bound. Induction over statements and what is collected from them is stated by these parts, so
that it need not go through the kinds of statements. -/

namespace TensorNest

namespace Stmt

/-- The statements that a statement is put together from. -/
@[simp] def bodies : Stmt → List Stmt
  | bind _ _ body | attr _ _ _ body | assert _ _ body | loop _ _ _ _ body | allocate _ _ _ _ _ body
  | realize _ _ _ _ _ body => [body]
  | store .. | provide .. | prefetch .. | eval _ => []
  | seq ss => ss
  | branch _ onTrue onFalse => onTrue :: onFalse.toList

/-- The variable that a statement binds in its body. -/
@[simp] def binder? : Stmt → Option Var
  | bind v _ _ | loop v _ _ _ _ | allocate site v _ _ _ _ => some v
  | attr (.axis iv) key _ _ => if key == "thread_extent" || key == "virtual_thread" then some iv.var else none
  | _ => none

/-- The expressions of a statement that are in none of its bodies. -/
@[simp] def exprParts : Stmt → List Expr
  | bind _ e _ | attr _ _ e _ | eval e | branch e _ _ => [e]
  | assert cond message _ => [cond, message]
  | loop _ min extent _ _ => [min, extent]
  | store buffer value index pred => buffer :: value :: index :: pred.toList
  | provide _ _ value args => value :: args
  | allocate _ _ _ extents cond _ => extents ++ [cond]
  | realize _ _ _ bounds cond _ => (bounds.flatMap fun r => [r.min, r.extent]) ++ [cond]
  | prefetch _ _ _ bounds => bounds.flatMap fun r => [r.min, r.extent]
  | seq _ => []

/-- Induction on a statement from its bodies. -/
theorem induct_bodies {motive : Stmt → Prop} (step : ∀ s, (∀ b ∈ s.bodies, motive b) → motive s) (s : Stmt) : motive s := by
  induction s with
  | branch cond onTrue onFalse ih ihf => exact step _ (List.forall_mem_cons.mpr ⟨ih, fun b hb => ihf b (by simpa using hb)⟩)
  | seq ss ih => exact step _ ih
  | bind _ _ _ ih | attr _ _ _ _ ih | assert _ _ _ ih | loop _ _ _ _ _ ih | allocate _ _ _ _ _ _ ih
  | realize _ _ _ _ _ _ ih =>
    exact step _ (List.forall_mem_singleton.mpr ih)
  | store | provide | prefetch | eval => exact step _ (List.forall_mem_nil _)

@[simp] theorem filterMap_exprNodes (e : Expr) : (exprNodes e).filterMap Node.stmt? = [] := by
  simp [exprNodes, List.filterMap_map, Node.stmt?, Function.comp_def]

@[simp] theorem filterMap_exprsNodes (es : List Expr) : (exprsNodes es).filterMap Node.stmt? = [] := by
  simp [exprsNodes, List.filterMap_flatMap]

@[simp] theorem filterMap_rangesNodes (rs : List Range) : (rangesNodes rs).filterMap Node.stmt? = [] := by
  simp [rangesNodes, List.filterMap_flatMap]

theorem filterMap_ofStmts (ss : List Stmt) : (postorder.ofStmts ss).filterMap Node.stmt? = ss.flatMap stmts := by
  induction ss with
  | nil => rfl
  | cons s ss ih => rw [postorder.ofStmts, List.filterMap_append, ih, List.flatMap_cons, stmts]

/-- The statements in a statement are those in its bodies and itself. -/
theorem stmts_eq (s : Stmt) : s.stmts = s.bodies.flatMap stmts ++ [s] := by
  cases s with
  | branch cond onTrue onFalse => cases onFalse <;> simp [stmts, postorder, Node.stmt?]
  | _ => simp [stmts, postorder, guardNodes, Node.stmt?, filterMap_ofStmts]

/-- What holds of each statement in a statement holds of those in a body and of the statement itself. -/
theorem forall_mem_stmts {p : Stmt → Prop} {s : Stmt} :
    (∀ t ∈ s.stmts, p t) ↔ (∀ b ∈ s.bodies, ∀ t ∈ b.stmts, p t) ∧ p s := by
  rw [stmts_eq]
  simp only [List.mem_append, List.mem_flatMap, List.mem_singleton]
  constructor
  · exact fun h => ⟨fun b hb t ht => h t (Or.inl ⟨b, hb, ht⟩), h s (Or.inr rfl)⟩
  · rintro ⟨hbodies, hself⟩ t (⟨b, hb, ht⟩ | rfl)
    · exact hbodies b hb t ht
    · exact hself

@[simp] theorem exprsNodes_nil : exprsNodes [] = [] := rfl

@[simp] theorem exprsNodes_cons (e : Expr) (es : List Expr) : exprsNodes (e :: es) = exprNodes e ++ exprsNodes es :=
  List.flatMap_cons

@[simp] theorem exprsNodes_append (es es' : List Expr) : exprsNodes (es ++ es') = exprsNodes es ++ exprsNodes es' :=
  List.flatMap_append

theorem exprsNodes_ranges (rs : List Range) : exprsNodes (rs.flatMap fun r => [r.min, r.extent]) = rangesNodes rs := by
  simp [exprsNodes, rangesNodes, List.flatMap_assoc]

/-- The parts of a statement are those of its bodies, those of its expressions and the statement. -/
theorem mem_postorder {n : Node} {s : Stmt} :
    n ∈ s.postorder ↔ (∃ b ∈ s.bodies, n ∈ b.postorder) ∨ n ∈ exprsNodes s.exprParts ++ [Node.stmt s] := by
  have hall (ss : List Stmt) : n ∈ postorder.ofStmts ss ↔ ∃ b ∈ ss, n ∈ b.postorder := by
    induction ss with
    | nil => simp [postorder.ofStmts]
    | cons t ts ih => simp [postorder.ofStmts, ih]
  cases s with
  | branch cond onTrue onFalse => cases onFalse <;> simp [postorder, or_left_comm, or_assoc]
  | seq ss => simp [postorder, hall]
  | _ => simp [postorder, guardNodes, exprsNodes_ranges, or_left_comm]

end Stmt

end TensorNest

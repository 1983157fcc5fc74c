import TensorNest.Expr.Same
import TensorNest.Run.Eval

/-! # Sameness and likeness

A matching goes through two expressions side by side. Where its comparisons of variables, of operations and of numbers come
down to equality after a relabelling, so does the matching of whole expressions, whatever is nested in them, be it in the
combiner or in the domain of an axis of a reduction (`Matching.Decides.expr`).

Expressions without floating-point numbers are alike just if they agree after the numbers of variables and operations are
dropped (`Expr.alike_iff`), so that likeness is an equivalence. Those that are the same are equal, since the number of a
variable or of an operation stands for all that is known of it, if every constant is of the kind of its data type
(`Expr.same_iff`): an integer constant 1 is the same as a truth value of that type, without being alike. With floating-point
numbers neither holds: a constant that is no number is not the same as itself, and the two zeros are the same. -/

namespace TensorNest

/-- What is asked of the variables, the operations and the numbers of an expression, of a constant with its type. -/
structure Criterion where
  var : Var → Prop
  op : OpRef → Prop
  number : Number → DataType → Prop
  ordinal : Ordinal → Prop

namespace Criterion

mutual

/-- Whether all of an expression meets a criterion, the variables that it binds, its combiners and its axes included. -/
def expr (p : Criterion) : Expr → Prop
  | .var v => p.var v
  | .const x t => p.number x t
  | .str _ => True
  | .cast _ a | .not a | .broadcast a _ => p.expr a
  | .bin _ a b | .ramp a b _ => p.expr a ∧ p.expr b
  | .select c a b => p.expr c ∧ p.expr a ∧ p.expr b
  | .call _ _ args _ func i => p.exprs args ∧ (∀ f ∈ func, p.op f) ∧ p.ordinal i
  | .bind v a b => p.var v ∧ p.expr a ∧ p.expr b
  | .load _ a i g => p.expr a ∧ p.expr i ∧ p.guard g
  | .reduce r s x g _ => p.reducer r ∧ p.exprs s ∧ p.axes x ∧ p.guard g

/-- Whether all expressions of a list meet a criterion. -/
def exprs (p : Criterion) : List Expr → Prop
  | [] => True
  | a :: as => p.expr a ∧ p.exprs as

/-- Whether an optional expression meets a criterion. -/
def guard (p : Criterion) : Option Expr → Prop
  | none => True
  | some a => p.expr a

/-- Whether the bounds of a range meet a criterion. -/
def range (p : Criterion) : Range → Prop
  | ⟨a, b⟩ => p.expr a ∧ p.expr b

/-- Whether an optional range meets a criterion. -/
def domain (p : Criterion) : Option Range → Prop
  | none => True
  | some r => p.range r

/-- Whether an iteration variable and its domain meet a criterion. -/
def axis (p : Criterion) : IterVar → Prop
  | ⟨d, v, _, _⟩ => p.domain d ∧ p.var v

/-- Whether all iteration variables of a list meet a criterion. -/
def axes (p : Criterion) : List IterVar → Prop
  | [] => True
  | a :: as => p.axis a ∧ p.axes as

/-- Whether a reducer meets a criterion. -/
def reducer (p : Criterion) : Reducer → Prop
  | ⟨l, r, e, i⟩ => (∀ v ∈ l, p.var v) ∧ (∀ v ∈ r, p.var v) ∧ p.exprs e ∧ p.exprs i

end

end Criterion

/-- New labels for the variables and the operations of an expression. -/
structure Relabeling where
  var : Var → Var
  op : OpRef → OpRef

namespace Relabeling

/-- Every variable and operation keeps its label. -/
def none : Relabeling where
  var := id
  op := id

/-- The numbers of variables and operations are dropped, with what naming does not look at. -/
def anonymous : Relabeling where
  var v := { v with id := 0 }
  op f := { f with idx := 0, numOutputs := 0 }

mutual

/-- An expression with new labels, the variables that it binds, its combiners and its axes included. -/
def expr (r : Relabeling) : Expr → Expr
  | .var v => .var (r.var v)
  | .const x t => .const x t
  | .str s => .str s
  | .cast t a => .cast t (r.expr a)
  | .bin op a b => .bin op (r.expr a) (r.expr b)
  | .not a => .not (r.expr a)
  | .select c a b => .select (r.expr c) (r.expr a) (r.expr b)
  | .call t name args kind func i => .call t name (r.exprs args) kind (func.map r.op) i
  | .bind v a b => .bind (r.var v) (r.expr a) (r.expr b)
  | .load t a i g => .load t (r.expr a) (r.expr i) (r.guard g)
  | .ramp a b n => .ramp (r.expr a) (r.expr b) n
  | .broadcast a n => .broadcast (r.expr a) n
  | .reduce c s x g i => .reduce (r.reducer c) (r.exprs s) (r.axes x) (r.guard g) i

/-- Expressions with new labels. -/
def exprs (r : Relabeling) : List Expr → List Expr
  | [] => []
  | a :: as => r.expr a :: r.exprs as

/-- An optional expression with new labels. -/
def guard (r : Relabeling) : Option Expr → Option Expr
  | .none => .none
  | some a => some (r.expr a)

/-- A range with new labels. -/
def range (r : Relabeling) : Range → Range
  | ⟨a, b⟩ => ⟨r.expr a, r.expr b⟩

/-- An optional range with new labels. -/
def domain (r : Relabeling) : Option Range → Option Range
  | .none => .none
  | some d => some (r.range d)

/-- An iteration variable with new labels. -/
def axis (r : Relabeling) : IterVar → IterVar
  | ⟨d, v, kind, tag⟩ => ⟨r.domain d, r.var v, kind, tag⟩

/-- Iteration variables with new labels. -/
def axes (r : Relabeling) : List IterVar → List IterVar
  | [] => []
  | a :: as => r.axis a :: r.axes as

/-- A reducer with new labels. -/
def reducer (r : Relabeling) : Reducer → Reducer
  | ⟨lhs, rhs, e, i⟩ => ⟨lhs.map r.var, rhs.map r.var, r.exprs e, r.exprs i⟩

end

mutual

theorem none_expr : ∀ e : Expr, none.expr e = e
  | .var _ | .const .. | .str _ => rfl
  | .cast _ a | .not a | .broadcast a _ => by rw [expr, none_expr a]
  | .bin _ a b | .ramp a b _ => by rw [expr, none_expr a, none_expr b]
  | .select c a b => by rw [expr, none_expr c, none_expr a, none_expr b]
  | .call _ _ args _ func _ => by rw [expr, none_exprs args, show none.op = id from rfl, Option.map_id_apply]
  | .bind v a b => by rw [expr, none_expr a, none_expr b, show none.var v = v from rfl]
  | .load _ a i g => by rw [expr, none_expr a, none_expr i, none_guard g]
  | .reduce c s x g _ => by rw [expr, none_reducer c, none_exprs s, none_axes x, none_guard g]

theorem none_exprs : ∀ es : List Expr, none.exprs es = es
  | [] => rfl
  | a :: as => by rw [exprs, none_expr a, none_exprs as]

theorem none_guard : ∀ g : Option Expr, none.guard g = g
  | .none => rfl
  | some a => by rw [guard, none_expr a]

theorem none_domain : ∀ d : Option Range, none.domain d = d
  | .none => rfl
  | some ⟨a, b⟩ => by rw [domain, range, none_expr a, none_expr b]

theorem none_axes : ∀ x : List IterVar, none.axes x = x
  | [] => rfl
  | ⟨d, v, _, _⟩ :: as => by rw [axes, axis, none_domain d, none_axes as, show none.var v = v from rfl]

theorem none_reducer : ∀ c : Reducer, none.reducer c = c
  | ⟨l, r, e, i⟩ => by rw [reducer, none_exprs e, none_exprs i, show none.var = id from rfl, List.map_id, List.map_id]

end

end Relabeling

/-- Expressions of two kinds do not match. -/
theorem Matching.expr_of_ctorIdx_ne {k : Matching} {a b : Expr} (h : (a.ctorIdx == b.ctorIdx) = false) :
    k.expr a b = false := by
  refine Bool.eq_false_iff.mpr fun hmatch => beq_eq_false_iff_ne.mp h ?_
  unfold Matching.expr at hmatch
  split at hmatch
  all_goals first | rfl | cases hmatch

theorem Relabeling.ctorIdx_expr (r : Relabeling) (e : Expr) : (r.expr e).ctorIdx = e.ctorIdx := by
  cases e <;> simp only [Relabeling.expr] <;> rfl

/-- Where a criterion is met, a matching compares just what is left after a relabelling. -/
structure Matching.Decides (k : Matching) (r : Relabeling) (p : Criterion) : Prop where
  var {v w : Var} (hv : p.var v) (hw : p.var w) : k.var v w ↔ r.var v = r.var w
  op {f g : OpRef} (hf : p.op f) (hg : p.op g) : k.op f g ↔ r.op f = r.op g
  number {x y : Number} {t : DataType} (hx : p.number x t) (hy : p.number y t) : k.number x y ↔ x = y
  ordinal {i j : Ordinal} (hi : p.ordinal i) (hj : p.ordinal j) : k.ordinal i j ↔ i = j

namespace Matching.Decides

variable {k : Matching} {r : Relabeling} {p : Criterion}

theorem vars (h : k.Decides r p) : ∀ {vs ws : List Var}, (∀ v ∈ vs, p.var v) → (∀ w ∈ ws, p.var w) →
    (k.vars vs ws ↔ vs.map r.var = ws.map r.var)
  | [], [], _, _ | [], _ :: _, _, _ | _ :: _, [], _, _ => by simp [Matching.vars]
  | v :: vs, w :: ws, hv, hw => by
    obtain ⟨hv, hvs⟩ := List.forall_mem_cons.mp hv
    obtain ⟨hw, hws⟩ := List.forall_mem_cons.mp hw
    simp [Matching.vars, h.var hv hw, h.vars hvs hws]

theorem ops (h : k.Decides r p) {f g : Option OpRef} (hf : ∀ a ∈ f, p.op a) (hg : ∀ a ∈ g, p.op a) :
    k.ops f g ↔ f.map r.op = g.map r.op := by
  cases f <;> cases g
  · simp [Matching.ops]
  · simp [Matching.ops]
  · simp [Matching.ops]
  · simp [Matching.ops, h.op (hf _ rfl) (hg _ rfl)]

theorem apart {a b : Expr} (h : (a.ctorIdx == b.ctorIdx) = false) : k.expr a b ↔ r.expr a = r.expr b := by
  refine iff_of_false (by rw [Matching.expr_of_ctorIdx_ne h]; exact Bool.false_ne_true) fun heq =>
    beq_eq_false_iff_ne.mp h ?_
  rw [← r.ctorIdx_expr a, heq, r.ctorIdx_expr]

mutual

/-- Expressions match just if they are equal after the relabelling. -/
theorem expr (h : k.Decides r p) : ∀ {a b : Expr}, p.expr a → p.expr b → (k.expr a b ↔ r.expr a = r.expr b)
  | .var v, e, ha, he => by
    cases e with
    | var w => simpa [Matching.expr, Relabeling.expr] using h.var ha he
    | _ => exact apart rfl
  | .const x t, e, ha, he => by
    cases e with
    | const y u =>
      by_cases ht : t = u
      · subst ht
        simp [Matching.expr, Relabeling.expr, h.number ha he]
      · simp [Matching.expr, Relabeling.expr, ht]
    | _ => exact apart rfl
  | .str s, e, _, _ => by
    cases e with
    | str t => simp [Matching.expr, Relabeling.expr]
    | _ => exact apart rfl
  | .cast t a, e, ha, he => by
    cases e with
    | cast u b => simp [Matching.expr, Relabeling.expr, h.expr (a := a) (b := b) ha he]
    | _ => exact apart rfl
  | .bin op a c, e, ha, he => by
    cases e with
    | bin op' b d => simp [Matching.expr, Relabeling.expr, h.expr ha.1 he.1, h.expr ha.2 he.2, and_assoc]
    | _ => exact apart rfl
  | .not a, e, ha, he => by
    cases e with
    | not b => simp [Matching.expr, Relabeling.expr, h.expr (a := a) (b := b) ha he]
    | _ => exact apart rfl
  | .select c a d, e, ha, he => by
    cases e with
    | select c' b d' =>
      simp [Matching.expr, Relabeling.expr, h.expr ha.1 he.1, h.expr ha.2.1 he.2.1, h.expr ha.2.2 he.2.2, and_assoc]
    | _ => exact apart rfl
  | .call t name args kind func i, e, ha, he => by
    cases e with
    | call t' name' args' kind' func' i' =>
      simp [Matching.expr, Relabeling.expr, h.exprs ha.1 he.1, h.ops ha.2.1 he.2.1, h.ordinal ha.2.2 he.2.2, and_assoc]
    | _ => exact apart rfl
  | .bind v a c, e, ha, he => by
    cases e with
    | bind w b d =>
      simp [Matching.expr, Relabeling.expr, h.var ha.1 he.1, h.expr ha.2.1 he.2.1, h.expr ha.2.2 he.2.2, and_assoc]
    | _ => exact apart rfl
  | .load t a i g, e, ha, he => by
    cases e with
    | load u b j q =>
      simp [Matching.expr, Relabeling.expr, h.expr ha.1 he.1, h.expr ha.2.1 he.2.1, h.guards ha.2.2 he.2.2, and_assoc]
    | _ => exact apart rfl
  | .ramp a c n, e, ha, he => by
    cases e with
    | ramp b d n' => simp [Matching.expr, Relabeling.expr, h.expr ha.1 he.1, h.expr ha.2 he.2, and_assoc]
    | _ => exact apart rfl
  | .broadcast a n, e, ha, he => by
    cases e with
    | broadcast b n' => simp [Matching.expr, Relabeling.expr, h.expr (a := a) (b := b) ha he]
    | _ => exact apart rfl
  | .reduce c s x g i, e, ha, he => by
    cases e with
    | reduce c' s' x' g' i' =>
      simp [Matching.expr, Relabeling.expr, h.reducer ha.1 he.1, h.exprs ha.2.1 he.2.1, h.axes ha.2.2.1 he.2.2.1,
        h.guards ha.2.2.2 he.2.2.2, and_assoc]
    | _ => exact apart rfl

theorem exprs (h : k.Decides r p) : ∀ {as bs : List Expr}, p.exprs as → p.exprs bs →
    (k.exprs as bs ↔ r.exprs as = r.exprs bs)
  | [], [], _, _ | [], _ :: _, _, _ | _ :: _, [], _, _ => by simp [Matching.exprs, Relabeling.exprs]
  | _ :: _, _ :: _, ha, hb => by simp [Matching.exprs, Relabeling.exprs, h.expr ha.1 hb.1, h.exprs ha.2 hb.2]

theorem guards (h : k.Decides r p) : ∀ {a b : Option Expr}, p.guard a → p.guard b → (k.guards a b ↔ r.guard a = r.guard b)
  | none, none, _, _ | none, some _, _, _ | some _, none, _, _ => by simp [Matching.guards, Relabeling.guard]
  | some a, some b, ha, hb => by simp [Matching.guards, Relabeling.guard, h.expr (a := a) (b := b) ha hb]

theorem range (h : k.Decides r p) : ∀ {d e : Range}, p.range d → p.range e → (k.range d e ↔ r.range d = r.range e)
  | ⟨_, _⟩, ⟨_, _⟩, hd, he => by simp [Matching.range, Relabeling.range, h.expr hd.1 he.1, h.expr hd.2 he.2]

theorem domain (h : k.Decides r p) : ∀ {d e : Option Range}, p.domain d → p.domain e →
    (k.domain d e ↔ r.domain d = r.domain e)
  | none, none, _, _ | none, some _, _, _ | some _, none, _, _ => by simp [Matching.domain, Relabeling.domain]
  | some d, some e, hd, he => by simp [Matching.domain, Relabeling.domain, h.range (d := d) (e := e) hd he]

theorem axis (h : k.Decides r p) : ∀ {x y : IterVar}, p.axis x → p.axis y → (k.axis x y ↔ r.axis x = r.axis y)
  | ⟨_, _, _, _⟩, ⟨_, _, _, _⟩, hx, hy => by
    simp [Matching.axis, Relabeling.axis, h.domain hx.1 hy.1, h.var hx.2 hy.2, and_assoc]

theorem axes (h : k.Decides r p) : ∀ {xs ys : List IterVar}, p.axes xs → p.axes ys → (k.axes xs ys ↔ r.axes xs = r.axes ys)
  | [], [], _, _ | [], _ :: _, _, _ | _ :: _, [], _, _ => by simp [Matching.axes, Relabeling.axes]
  | _ :: _, _ :: _, hx, hy => by simp [Matching.axes, Relabeling.axes, h.axis hx.1 hy.1, h.axes hx.2 hy.2]

theorem reducer (h : k.Decides r p) : ∀ {c d : Reducer}, p.reducer c → p.reducer d →
    (k.reducer c d ↔ r.reducer c = r.reducer d)
  | ⟨_, _, _, _⟩, ⟨_, _, _, _⟩, hc, hd => by
    simp [Matching.reducer, Relabeling.reducer, h.vars hc.1 hd.1, h.vars hc.2.1 hd.2.1, h.exprs hc.2.2.1 hd.2.2.1,
      h.exprs hc.2.2.2 hd.2.2.2, and_assoc]

end

end Matching.Decides

/-- What is known of the variables and the operations of a program, by their numbers. -/
structure Directory where
  var : Nat → Var
  op : Nat → OpRef

/-- A variable or operation is the one that the directory has under its number, and a number is no floating-point number. -/
def Directory.criterion (D : Directory) : Criterion where
  var v := D.var v.id = v
  op f := D.op f.idx = f
  number x _ := x.isFloat = false
  ordinal _ := True

/-- Whether a constant of a data type is a truth value just if the type is that of truth values, and no
    floating-point number. -/
def Number.IsOf (x : Number) (t : DataType) : Prop :=
  match x with
  | .bool _ => t.isBool
  | .int _ => t.isBool = false
  | _ => False

/-- Moreover the kind of every constant is that of its data type, and outputs are numbered by integers. -/
def Directory.strict (D : Directory) : Criterion :=
  { D.criterion with
    number := Number.IsOf
    ordinal := fun i => ∃ n, i = .int n }

namespace Directory

variable (D : Directory)

theorem number_same_iff {x y : Number} (hx : x.isFloat = false) : x.same y ↔ x = y := by
  cases x with
  | bool b => cases y <;> simp [Number.same]
  | int n => cases y <;> simp [Number.same]
  | float | unknown => exact nomatch hx

theorem number_agrees_iff {x y : Number} {t : DataType} (hx : x.IsOf t) (hy : y.IsOf t) : x.agrees y ↔ x = y := by
  cases x with
  | bool b =>
    cases y with
    | bool c => cases b <;> cases c <;> simp [Number.agrees, Number.asInt?]
    | int => exact absurd hx (by simp [Number.IsOf, show t.isBool = false from hy])
    | float | unknown => exact hy.elim
  | int n =>
    cases y with
    | bool => exact absurd hy (by simp [Number.IsOf, show t.isBool = false from hx])
    | int m => simp [Number.agrees, Number.asInt?]
    | float | unknown => exact hy.elim
  | float | unknown => exact hx.elim

theorem identity_decides : Matching.identity.Decides .none D.strict where
  var hv hw := beq_iff_eq.trans ⟨fun heq => by rw [← hv, heq, hw], congrArg Var.id⟩
  op hf hg := beq_iff_eq.trans ⟨fun heq => by rw [← hf, heq, hg], congrArg OpRef.idx⟩
  number := number_agrees_iff
  ordinal := by
    rintro _ _ ⟨m, rfl⟩ ⟨n, rfl⟩
    simp [Matching.ordinal, Matching.identity]

theorem naming_decides : Matching.naming.Decides .anonymous D.criterion where
  var _ _ := by simp [Matching.naming, Relabeling.anonymous]
  op _ _ := by simp [Matching.naming, Relabeling.anonymous, and_comm]
  number hx _ := number_same_iff hx
  ordinal _ _ := by simp [Matching.ordinal, Matching.naming]

end Directory

namespace Expr

variable {D : Directory} {a b c : Expr}

/-- An expression without floating-point numbers, over the variables and operations of a directory. -/
def Plain (D : Directory) (e : Expr) : Prop :=
  D.criterion.expr e

/-- An expression whose constants are of the kind of their data type and whose outputs are numbered by integers, over the
    variables and operations of a directory. -/
def Strict (D : Directory) (e : Expr) : Prop :=
  D.strict.expr e

theorem same_iff (ha : a.Strict D) (hb : b.Strict D) : a.same b ↔ a = b := by
  have h := D.identity_decides.expr ha hb
  rwa [Relabeling.none_expr, Relabeling.none_expr] at h

theorem alike_iff (ha : a.Plain D) (hb : b.Plain D) :
    a.alike b ↔ Relabeling.anonymous.expr a = Relabeling.anonymous.expr b :=
  D.naming_decides.expr ha hb

/-- Likeness is an equivalence, and expressions that are the same are alike and have the same value in every environment and
    memory if their constants are of the kind of their data type. -/
theorem same_faithful (ha : a.Plain D) (hb : b.Plain D) (hc : c.Plain D) :
    (a.Strict D → b.Strict D → a.same b → a.alike b ∧ ∀ f env, a.eval f env = b.eval f env) ∧
      a.alike a ∧ (a.alike b → b.alike a) ∧ (a.alike b → b.alike c → a.alike c) := by
  rw [alike_iff ha ha, alike_iff ha hb, alike_iff hb ha, alike_iff hb hc, alike_iff ha hc]
  refine ⟨fun hsa hsb h => ?_, rfl, Eq.symm, Eq.trans⟩
  obtain rfl := (same_iff hsa hsb).mp h
  exact ⟨rfl, fun _ _ => rfl⟩

namespace Twins

def n : Var := ⟨0, "n", .int32⟩

/-- Another variable of the name and type of the first one. -/
def m : Var := ⟨1, "n", .int32⟩

def k : Var := ⟨2, "k", .int32⟩

def array : Var := ⟨3, "A", .handle⟩

def directory : Directory where
  var x := [n, m, k, array].getD x n
  op x := ⟨x, "", true, 1⟩

/-- The element at twice a number, and the number added to it. -/
def added (v : Var) : Expr :=
  .bind k (.bin .mul (.var v) (.int32 2)) (.bin .add (.load .int32 (.var array) (.var k) none) (.var v))

theorem plain_added {v : Var} (hv : directory.var v.id = v) : (added v).Plain directory :=
  ⟨rfl, ⟨hv, rfl⟩, ⟨rfl, rfl, trivial⟩, hv⟩

theorem strict_added {v : Var} (hv : directory.var v.id = v) : (added v).Strict directory :=
  ⟨rfl, ⟨hv, rfl⟩, ⟨rfl, rfl, trivial⟩, hv⟩

/-- One twin put for the other gives the expression of that twin, alike before and after. -/
theorem same_faithful_added : ((added m).subst [(m, .var n)]).alike (added n) ∧
    (∀ f env, ((added m).subst [(m, .var n)]).eval f env = (added n).eval f env) ∧
      (added n).alike ((added m).subst [(m, .var n)]) ∧ ((added m).subst [(m, .var n)]).alike (added m) := by
  have hn : (added n).Plain directory := plain_added rfl
  have hm : (added m).Plain directory := plain_added rfl
  have hput : ((added m).subst [(m, .var n)]).Plain directory := hn
  obtain ⟨hsame, -, hsymm, htrans⟩ := same_faithful hput hn hm
  obtain ⟨halike, heval⟩ := hsame (strict_added rfl) (strict_added rfl)
    ((same_iff (strict_added rfl) (strict_added rfl)).mpr rfl)
  exact ⟨halike, heval, hsymm halike, htrans halike ((alike_iff hn hm).mpr rfl)⟩

/-- A call of which the number of the output is given in one way or another. -/
def output (i : Ordinal) : Expr := .call .int32 "f" [] .external none i

/-- A truth value and the integer that it stands for are the same as the number of an output, and not alike. -/
theorem same_not_alike : (output (.flag true)).same (output 1) ∧ (output (.flag true)).alike (output 1) = false := by
  with_unfolding_all decide

end Twins

end Expr

end TensorNest

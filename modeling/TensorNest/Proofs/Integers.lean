import TensorNest.Proofs.IndexArithmetic
import TensorNest.Proofs.Meaning

/-! # Expressions over the integers

What expressions of integer scalars mean when integers have no bounds: `Expr.integer` is the value of an
expression, and `Expr.Defined` says that no divisor in it is 0. Truth values are the numbers 0 and 1.

`Expr.Typed` are the well-typed expressions: arithmetic, comparisons, connectives, choices and bindings over
integer variables and constants, casts between integer types included. The builders keep types and values:
what is built from expressions that evaluate to numbers evaluates to the result of the operation (`Expr.Evaluates`). -/

namespace TensorNest

/-! ### Values -/

/-- An operation on integers without bounds. Quotients are toward zero, and any number but 0 counts as true. -/
def BinOp.onInts (op : BinOp) (m n : Int) : Int :=
  match op with
  | .add => m + n
  | .sub => m - n
  | .mul => m * n
  | .div => m.tdiv n
  | .mod => m.tmod n
  | .min => Min.min m n
  | .max => Max.max m n
  | .eq => (decide (m = n)).toInt
  | .ne => (decide (m ≠ n)).toInt
  | .lt => (decide (m < n)).toInt
  | .le => (decide (m ≤ n)).toInt
  | .gt => (decide (m > n)).toInt
  | .ge => (decide (m ≥ n)).toInt
  | .and => (decide (m ≠ 0) && decide (n ≠ 0)).toInt
  | .or => (decide (m ≠ 0) || decide (n ≠ 0)).toInt

/-- Whether an operation divides by its second operand. -/
def BinOp.Divides (op : BinOp) : Prop :=
  op = .div ∨ op = .mod

instance : DecidablePred BinOp.Divides := fun _ => inferInstanceAs (Decidable (_ ∨ _))

/-- The reading of expressions over the integers. A cast keeps its number, and a mark of likelihood means its
    argument. -/
def Reading.integers : Reading Int where
  number x _ := x.asInt?.getD 0
  text _ := 0
  cast _ n := n
  binary op _ := op.onInts
  negate n := (decide (n = 0)).toInt
  choose _ c m n := if c = 0 then n else m
  call _ name _ _ ns := if name = "likely" then ns.headD 0 else 0
  load _ _ _ _ := 0
  ramp _ n _ _ := n
  broadcast _ n _ := n
  truth n := n != 0
  counter _ n := n
  toInt n := n

namespace Expr

/-- The value of an expression that reads no tensor. -/
def integer (e : Expr) (ρ : Valuation Int) : Int :=
  e.value .integers (fun _ _ _ => 0) ρ

/-- No divisor in an expression of scalars is 0. -/
def Defined : Expr → Valuation Int → Prop
  | cast _ a, ρ | not a, ρ => a.Defined ρ
  | bin op a b, ρ => a.Defined ρ ∧ b.Defined ρ ∧ (op.Divides → b.integer ρ ≠ 0)
  | select c a b, ρ => c.Defined ρ ∧ a.Defined ρ ∧ b.Defined ρ
  | call _ _ args .., ρ => ofList args ρ
  | bind v a b, ρ => a.Defined ρ ∧ b.Defined (Function.update ρ v.id (a.integer ρ))
  | _, _ => True
where
  /-- No divisor in any of several expressions is 0. -/
  ofList : List Expr → Valuation Int → Prop
    | [], _ => True
    | e :: es, ρ => e.Defined ρ ∧ ofList es ρ

section Values
variable {ρ : Valuation Int} {t : DataType} {a b c : Expr} {v : Var}

@[simp] theorem integer_var : (var v).integer ρ = ρ v.id := rfl

@[simp] theorem integer_const {x : Number} : (const x t).integer ρ = x.asInt?.getD 0 := rfl

@[simp] theorem integer_cast : (cast t a).integer ρ = a.integer ρ := rfl

@[simp] theorem integer_bin {op : BinOp} : (bin op a b).integer ρ = op.onInts (a.integer ρ) (b.integer ρ) := rfl

@[simp] theorem integer_not : (not a).integer ρ = (decide (a.integer ρ = 0)).toInt := rfl

@[simp] theorem integer_select :
    (select c a b).integer ρ = if c.integer ρ = 0 then b.integer ρ else a.integer ρ := rfl

@[simp] theorem integer_bind : (bind v a b).integer ρ = b.integer (Function.update ρ v.id (a.integer ρ)) := rfl

@[simp] theorem integer_likely : (call t "likely" [c] .pureIntrinsic none 0).integer ρ = c.integer ρ := rfl

end Values

end Expr

/-! ### Types -/

/-- The constants of a type, with the numbers that they stand for. -/
inductive DataType.Literal : DataType → Number → Int → Prop
  | int {t : DataType} (ht : t.IsIndex) (n : Int) : Literal t (.int n) n
  | bool (b : Bool) : Literal .bool (.bool b) b.toInt

/-- An operation takes two operands of a type to a result of a type. -/
inductive BinOp.Maps : BinOp → DataType → DataType → Prop
  | arith {op : BinOp} {t : DataType} (hop : op.isLogical = false) (ht : t.IsIndex) : Maps op t t
  | compare {op : BinOp} {t : DataType} (hop : op.isComparison) : Maps op t .bool
  | and : Maps .and .bool .bool
  | or : Maps .or .bool .bool

/-- The types of some variables, by their numbers. -/
abbrev Context := Nat → Option DataType

/-- A context with a new variable. -/
def Context.extend (Γ : Context) (v : Var) : Context :=
  Function.update Γ v.id (some v.dtype)

namespace Expr

/-- The well-typed expressions of integer scalars and truth values. -/
inductive Typed : Context → DataType → Expr → Prop
  | var {Γ : Context} {v : Var} (hv : Γ v.id = some v.dtype) (ht : v.dtype.IsIndex) : Typed Γ v.dtype (.var v)
  | const {Γ : Context} {t : DataType} {x : Number} {n : Int} (hx : t.Literal x n) : Typed Γ t (.const x t)
  | cast {Γ : Context} {t u : DataType} {a : Expr} (ht : t.IsIndex) (hu : u.IsIndex) (ha : Typed Γ u a) :
    Typed Γ t (.cast t a)
  | bin {Γ : Context} {op : BinOp} {t u : DataType} {a b : Expr} (hop : op.Maps t u) (ha : Typed Γ t a)
    (hb : Typed Γ t b) : Typed Γ u (.bin op a b)
  | not {Γ : Context} {a : Expr} (ha : Typed Γ .bool a) : Typed Γ .bool (.not a)
  | select {Γ : Context} {t : DataType} {c a b : Expr} (hc : Typed Γ .bool c) (ha : Typed Γ t a) (hb : Typed Γ t b) :
    Typed Γ t (.select c a b)
  | bind {Γ : Context} {t : DataType} {v : Var} {a b : Expr} (hv : v.dtype.IsIndex) (ha : Typed Γ v.dtype a)
    (hb : Typed (Γ.extend v) t b) : Typed Γ t (.bind v a b)
  | likely {Γ : Context} {c : Expr} (hc : Typed Γ .bool c) :
    Typed Γ .bool (.call .bool "likely" [c] .pureIntrinsic none 0)

end Expr

namespace DataType

theorem not_isIndex_bool : ¬ DataType.bool.IsIndex := fun h => nomatch h.isBool

namespace Literal

variable {t : DataType} {x y : Number} {m n : Int}

theorem asInt? (h : t.Literal x n) : x.asInt? = some n := by
  cases h with
  | int => rfl
  | bool b => cases b <;> rfl

theorem truthy (h : t.Literal x n) : x.truthy = decide (n ≠ 0) := by
  cases h with
  | int _ n => simp [Number.truthy, bne, beq_eq_decide]
  | bool b => cases b <;> rfl

theorem order (hx : t.Literal x m) (hy : t.Literal y n) : x.order? y = some (compare m n) := by
  cases hx with
  | int ht m =>
    cases hy with
    | int _ n => rfl
    | bool b => exact absurd ht not_isIndex_bool
  | bool a =>
    cases hy with
    | int ht n => exact absurd ht not_isIndex_bool
    | bool b => cases a <;> cases b <;> rfl

theorem lt (hx : t.Literal x m) (hy : t.Literal y n) : x.lt y = decide (m < n) := by
  simp only [Number.lt, hx.order hy, ← Int.compare_eq_lt]
  cases compare m n <;> rfl

theorem eq (hx : t.Literal x m) (hy : t.Literal y n) : x.eq y = decide (m = n) := by
  simp only [Number.eq, hx.order hy, ← Int.compare_eq_eq]
  cases compare m n <;> rfl

theorem le (hx : t.Literal x m) (hy : t.Literal y n) : x.le y = decide (m ≤ n) := by
  rw [Number.le, hx.lt hy, hx.eq hy, ← Bool.decide_or]
  exact decide_eq_decide.mpr (by omega)

theorem eq_int (hx : t.Literal x n) (ht : t.IsIndex) : x = .int n := by
  cases hx with
  | int => rfl
  | bool => exact absurd ht not_isIndex_bool

/-- A literal is a constant of its type as it is. -/
theorem ofNumber (h : t.Literal x n) : Expr.ofNumber x t = .ok (.const x t) := by
  cases h with
  | int ht n => exact Expr.ofNumber_int ht n
  | bool b => rfl

end Literal

end DataType

/-- Numbers that agree stand for the same integer. -/
theorem Number.asInt?_of_agrees {x y : Number} (h : x.agrees y) : x.asInt? = y.asInt? := by
  cases x <;> cases y <;> simp_all [Number.agrees, Number.same, Number.asInt?]

theorem toInt_eq_zero_or_one (b : Bool) : b.toInt = 0 ∨ b.toInt = 1 := by
  cases b
  · exact Or.inl rfl
  · exact Or.inr rfl

namespace BinOp

variable {op : BinOp} {t : DataType}

/-- A comparison depends on the difference of its sides. -/
theorem onInts_of_isComparison (h : op.isComparison) (m n : Int) :
    op.onInts m n = (Expr.compareDiff op (m - n)).toInt := by
  cases op with
  | eq => exact congrArg Bool.toInt (decide_eq_decide.mpr (by omega))
  | ne =>
    refine congrArg Bool.toInt (Eq.trans ?_ decide_not)
    exact decide_eq_decide.mpr (by omega)
  | lt | le | gt | ge => exact congrArg Bool.toInt (decide_eq_decide.mpr (by omega))
  | _ => cases h

theorem Maps.truth (h : op.Maps t .bool) (m n : Int) : op.onInts m n = 0 ∨ op.onInts m n = 1 := by
  cases h with
  | arith _ ht => exact absurd ht DataType.not_isIndex_bool
  | compare hop =>
    rw [onInts_of_isComparison hop]
    exact toInt_eq_zero_or_one _
  | and | or => exact toInt_eq_zero_or_one _

end BinOp

theorem truncDiv_eq (m n : Int) : truncDiv m n = m.tdiv n := by
  have hneg : ∀ k : Nat, ¬ 0 ≤ Int.negSucc k := fun k => Int.not_le.mpr (Int.negSucc_lt_zero k)
  have hpos : ∀ k : Nat, 0 ≤ Int.ofNat k := Int.natCast_nonneg
  cases m <;> cases n <;>
    simp only [truncDiv, hneg, hpos, if_true, eq_self, if_false, eq_iff_iff, iff_false, iff_true, not_true, Int.natAbs] <;>
    rfl

theorem truncMod_eq (m n : Int) : truncMod m n = m.tmod n := by
  rw [truncMod, truncDiv_eq, Int.tmod_def]

namespace Expr

section Typing
variable {Γ Γ' : Context} {ρ : Valuation Int} {t u : DataType} {a b e : Expr}

/-- The type of an expression is an index type or that of the truth values. -/
theorem Typed.kind (h : e.Typed Γ t) : t.IsIndex ∨ t = .bool := by
  induction h with
  | var _ ht => exact Or.inl ht
  | const hx =>
    cases hx with
    | int ht => exact Or.inl ht
    | bool => exact Or.inr rfl
  | cast ht => exact Or.inl ht
  | bin hop =>
    cases hop with
    | arith _ ht => exact Or.inl ht
    | _ => exact Or.inr rfl
  | not | likely => exact Or.inr rfl
  | select _ _ _ _ ih => exact ih
  | bind _ _ _ _ ih => exact ih

theorem Typed.dtype (h : e.Typed Γ t) : e.dtype = t := by
  induction h with
  | @bin _ op t u a b hop ha _ iha =>
    have hlanes : t.lanes = 1 := by
      obtain ht | rfl := ha.kind
      · exact ht.scalar
      · rfl
    cases hop with
    | arith hop => simp [Expr.dtype, hop, iha]
    | compare hop =>
      have hlogical : op.isLogical = true := by cases op <;> first | rfl | cases hop
      simp [Expr.dtype, hlogical, iha, DataType.withLanes, hlanes, DataType.bool]
    | and => simp [Expr.dtype, BinOp.isLogical, iha, DataType.withLanes, DataType.bool]
    | or => simp [Expr.dtype, BinOp.isLogical, iha, DataType.withLanes, DataType.bool]
  | not _ ih => exact ih
  | select _ _ _ _ ih => exact ih
  | bind _ _ _ _ ih => exact ih
  | _ => rfl

/-- A truth value is 0 or 1. -/
theorem Typed.truth (h : e.Typed Γ .bool) (ρ : Valuation Int) : e.integer ρ = 0 ∨ e.integer ρ = 1 := by
  generalize ht : DataType.bool = t at h
  induction h generalizing ρ with
  | var _ hindex | cast hindex => exact absurd (ht ▸ hindex) DataType.not_isIndex_bool
  | const hx =>
    cases hx with
    | int hindex => exact absurd (ht ▸ hindex) DataType.not_isIndex_bool
    | bool b => cases b <;> simp [Number.asInt?]
  | bin hop =>
    subst ht
    exact hop.truth _ _
  | not => exact toInt_eq_zero_or_one _
  | select _ _ _ _ iha ihb =>
    rw [integer_select]
    split
    · exact ihb ρ ht
    · exact iha ρ ht
  | bind _ _ _ _ ihb => exact ihb _ ht
  | likely _ ih => exact ih ρ rfl

/-- An expression is well-typed in every context that knows its free variables alike. -/
theorem Typed.mono (h : e.Typed Γ t) (hΓ : ∀ x ∈ e.freeIds, ∀ t, Γ x = some t → Γ' x = some t) : e.Typed Γ' t := by
  induction h generalizing Γ' with
  | var hv ht => exact .var (hΓ _ List.mem_cons_self _ hv) ht
  | const hx => exact .const hx
  | cast ht hu _ ih => exact .cast ht hu (ih hΓ)
  | bin hop _ _ iha ihb =>
    simp only [freeIds, List.forall_mem_append] at hΓ
    exact .bin hop (iha hΓ.1) (ihb hΓ.2)
  | not _ ih => exact .not (ih hΓ)
  | select _ _ _ ihc iha ihb =>
    simp only [freeIds, List.forall_mem_append] at hΓ
    exact .select (ihc hΓ.1.1) (iha hΓ.1.2) (ihb hΓ.2)
  | @bind Γ _ v _ b hv _ _ iha ihb =>
    simp only [freeIds, List.forall_mem_append] at hΓ
    refine .bind hv (iha hΓ.1) (ihb fun x hx => ?_)
    by_cases hxv : x = v.id
    · simp [Context.extend, hxv]
    · rw [Context.extend, Context.extend, Function.update_of_ne hxv, Function.update_of_ne hxv]
      exact hΓ.2 x (List.mem_filter.mpr ⟨hx, decide_eq_true hxv⟩)
  | likely _ ih =>
    refine .likely (ih fun x hx => hΓ x ?_)
    simpa [freeIds] using hx

/-- Expressions that are the same have the same value. -/
theorem Typed.integer_eq_of_same (ha : a.Typed Γ t) (hb : b.Typed Γ' u) (h : a.same b) (ρ : Valuation Int) :
    a.integer ρ = b.integer ρ := by
  unfold Expr.same at h
  induction ha generalizing Γ' u b ρ with
  | var =>
    cases hb <;> simp only [Matching.expr, Matching.identity, beq_iff_eq, reduceCtorEq] at h
    rw [integer_var, integer_var, h]
  | const =>
    cases hb <;> simp only [Matching.expr, Bool.and_eq_true, reduceCtorEq] at h
    rw [integer_const, integer_const, Number.asInt?_of_agrees h.2]
  | cast _ _ _ ih =>
    cases hb <;> simp only [Matching.expr, Bool.and_eq_true, reduceCtorEq] at h
    exact ih ‹_› h.2 ρ
  | bin _ _ _ iha ihb =>
    cases hb <;> simp only [Matching.expr, Bool.and_eq_true, beq_iff_eq, reduceCtorEq] at h
    rw [integer_bin, integer_bin, h.1.1, iha ‹_› h.1.2 ρ, ihb ‹_› h.2 ρ]
  | not _ ih =>
    cases hb <;> simp only [Matching.expr, reduceCtorEq] at h
    rw [integer_not, integer_not, ih ‹_› h ρ]
  | select _ _ _ ihc iha ihb =>
    cases hb <;> simp only [Matching.expr, Bool.and_eq_true, reduceCtorEq] at h
    rw [integer_select, integer_select, ihc ‹_› h.1.1 ρ, iha ‹_› h.1.2 ρ, ihb ‹_› h.2 ρ]
  | bind _ _ _ iha ihb =>
    cases hb <;> simp only [Matching.expr, Bool.and_eq_true, reduceCtorEq] at h
    have hid := beq_iff_eq.mp h.1.1
    rw [integer_bind, integer_bind, hid, iha ‹_› h.1.2 ρ, ihb ‹_› h.2]
  | likely _ ih =>
    cases hb <;> simp only [Matching.expr, Matching.exprs, Bool.and_eq_true, reduceCtorEq] at h
    exact ih ‹_› h.1.1.1.2.1 ρ

end Typing

/-! ### Building -/

section Binders
variable {t : DataType} {a b c : Expr} {v : Var} {op : BinOp}

@[simp] theorem boundVars_cast : (cast t a).boundVars = a.boundVars := by
  simp [boundVars, heads, postorder, head, Head.binders]

@[simp] theorem boundVars_bin : (bin op a b).boundVars = a.boundVars ++ b.boundVars := by
  simp [boundVars, heads, postorder, head, Head.binders]

@[simp] theorem boundVars_not : (not a).boundVars = a.boundVars := by
  simp [boundVars, heads, postorder, head, Head.binders]

@[simp] theorem boundVars_select : (select c a b).boundVars = c.boundVars ++ a.boundVars ++ b.boundVars := by
  simp [boundVars, heads, postorder, head, Head.binders]

@[simp] theorem boundVars_bind : (bind v a b).boundVars = a.boundVars ++ b.boundVars ++ [v.id] := by
  simp [boundVars, heads, postorder, head, Head.binders]

@[simp] theorem boundVars_likely : (call t "likely" [c] .pureIntrinsic none 0).boundVars = c.boundVars := by
  simp [boundVars, heads, postorder, head, Head.binders]

end Binders

/-- An expression of a type that binds only some variables evaluates to a number under a valuation, and no divisor in
    it is 0 as long as a condition holds. -/
structure Evaluates (Γ : Context) (B : List Nat) (H : Prop) (ρ : Valuation Int) (t : DataType) (e : Expr) (n : Int) :
    Prop where
  typed : e.Typed Γ t
  bound : ∀ x ∈ e.boundVars, x ∈ B
  value : e.integer ρ = n
  defined : H → e.Defined ρ

section Building
variable {Γ : Context} {B : List Nat} {H : Prop} {ρ : Valuation Int} {t u : DataType} {a b c e : Expr} {k m n : Int}
  {op : BinOp}

theorem Evaluates.dtype (h : Evaluates Γ B H ρ t e n) : e.dtype = t :=
  h.typed.dtype

theorem evaluates_literal {x : Number} (h : t.Literal x n) : Evaluates Γ B H ρ t (.const x t) n where
  typed := .const h
  bound := nofun
  value := by rw [integer_const, h.asInt?, Option.getD_some]
  defined _ := trivial

theorem evaluates_int (ht : t.IsIndex) (n : Int) : Evaluates Γ B H ρ t (.const (.int n) t) n :=
  evaluates_literal (.int ht n)

theorem evaluates_bool (b : Bool) : Evaluates Γ B H ρ .bool (bool b) b.toInt :=
  evaluates_literal (.bool b)

theorem Evaluates.literal {x : Number} (h : Evaluates Γ B H ρ t (.const x u) n) : u = t ∧ t.Literal x n := by
  cases h.typed with | const hx
  have hvalue := h.value
  rw [integer_const, hx.asInt?, Option.getD_some] at hvalue
  exact ⟨rfl, hvalue ▸ hx⟩

theorem Evaluates.truth (h : Evaluates Γ B H ρ .bool e n) : n = 0 ∨ n = 1 :=
  h.value ▸ h.typed.truth ρ

theorem Evaluates.cast (ht : t.IsIndex) (hu : u.IsIndex) (h : Evaluates Γ B H ρ u e n) :
    Evaluates Γ B H ρ t (.cast t e) n :=
  ⟨.cast ht hu h.typed, by rw [boundVars_cast]; exact h.bound, h.value, h.defined⟩

theorem Evaluates.bin (hop : op.Maps t u) (ha : Evaluates Γ B H ρ t a m) (hb : Evaluates Γ B H ρ t b n)
    (hn : H → op.Divides → n ≠ 0) : Evaluates Γ B H ρ u (.bin op a b) (op.onInts m n) where
  typed := .bin hop ha.typed hb.typed
  bound := by
    rw [boundVars_bin, List.forall_mem_append]
    exact ⟨ha.bound, hb.bound⟩
  value := by rw [integer_bin, ha.value, hb.value]
  defined h := ⟨ha.defined h, hb.defined h, fun hop => hb.value ▸ hn h hop⟩

theorem Evaluates.not (h : Evaluates Γ B H ρ .bool e n) : Evaluates Γ B H ρ .bool (.not e) (decide (n = 0)).toInt :=
  ⟨.not h.typed, by rw [boundVars_not]; exact h.bound, by rw [integer_not, h.value], h.defined⟩

theorem Evaluates.select (hc : Evaluates Γ B H ρ .bool c k) (ha : Evaluates Γ B H ρ t a m) (hb : Evaluates Γ B H ρ t b n) :
    Evaluates Γ B H ρ t (.select c a b) (if k = 0 then n else m) where
  typed := .select hc.typed ha.typed hb.typed
  bound := by
    rw [boundVars_select, List.forall_mem_append, List.forall_mem_append]
    exact ⟨⟨hc.bound, ha.bound⟩, hb.bound⟩
  value := by rw [integer_select, hc.value, ha.value, hb.value]
  defined h := ⟨hc.defined h, ha.defined h, hb.defined h⟩

theorem Evaluates.likely (h : Evaluates Γ B H ρ .bool c n) :
    Evaluates Γ B H ρ .bool (.call .bool "likely" [c] .pureIntrinsic none 0) n :=
  ⟨.likely h.typed, by rw [boundVars_likely]; exact h.bound, h.value, fun hd => ⟨h.defined hd, trivial⟩⟩

/-- The sides of an arithmetic operation denote numbers if the operation does. -/
theorem Evaluates.sides (ht : t.IsIndex) (h : Evaluates Γ B H ρ t (.bin op a b) k) :
    ∃ m n, Evaluates Γ B H ρ t a m ∧ Evaluates Γ B H ρ t b n ∧ k = op.onInts m n := by
  cases h.typed with | bin hop ha hb
  have hbound := h.bound
  rw [boundVars_bin, List.forall_mem_append] at hbound
  cases hop with
  | arith hop =>
    exact ⟨_, _, ⟨ha, hbound.1, rfl, fun hd => (h.defined hd).1⟩, ⟨hb, hbound.2, rfl, fun hd => (h.defined hd).2.1⟩,
      h.value.symm⟩
  | _ => exact absurd ht DataType.not_isIndex_bool

/-- Operations on constants are folded to the constant that the result is. -/
theorem gives_foldValue_literal {x y : Number} (hop : op.Maps t u) (hx : t.Literal x m) (hy : t.Literal y n) :
    Gives (foldValue op t.isInteger x y) (u.Literal · (op.onInts m n)) := by
  cases hop with
  | arith hop ht =>
    obtain rfl := hx.eq_int ht
    obtain rfl := hy.eq_int ht
    rw [ht.integer]
    cases op with
    | add | sub | mul => exact gives_ok (.int ht _)
    | div => exact gives_ok (by rw [truncDiv_eq]; exact .int ht _)
    | mod => exact gives_ok (by rw [truncMod_eq]; exact .int ht _)
    | min =>
      refine gives_ok ?_
      rw [Number.min, hy.lt hx]
      by_cases hlt : n < m
      · rw [decide_eq_true hlt, show BinOp.min.onInts m n = n from Int.min_eq_right (Int.le_of_lt hlt)]
        exact .int ht n
      · rw [decide_eq_false hlt, show BinOp.min.onInts m n = m from Int.min_eq_left (Int.not_lt.mp hlt)]
        exact .int ht m
    | max =>
      refine gives_ok ?_
      rw [Number.max, hx.lt hy]
      by_cases hlt : m < n
      · rw [decide_eq_true hlt, show BinOp.max.onInts m n = n from Int.max_eq_right (Int.le_of_lt hlt)]
        exact .int ht n
      · rw [decide_eq_false hlt, show BinOp.max.onInts m n = m from Int.max_eq_left (Int.not_lt.mp hlt)]
        exact .int ht m
    | _ => cases hop
  | compare hop =>
    cases op with
    | eq => exact gives_ok (by rw [hx.eq hy]; exact .bool _)
    | ne => exact gives_ok (by rw [hx.eq hy, ← decide_not]; exact .bool _)
    | lt => exact gives_ok (by rw [hx.lt hy]; exact .bool _)
    | le => exact gives_ok (by rw [hx.le hy]; exact .bool _)
    | gt => exact gives_ok (by rw [hy.lt hx]; exact .bool _)
    | ge => exact gives_ok (by rw [hy.le hx]; exact .bool _)
    | _ => cases hop
  | and => exact gives_ok (by rw [hx.truthy, hy.truthy]; exact .bool _)
  | or => exact gives_ok (by rw [hx.truthy, hy.truthy]; exact .bool _)

theorem Evaluates.fold (hop : op.Maps t u) (ha : Evaluates Γ B H ρ t a m) (hb : Evaluates Γ B H ρ t b n)
    (hn : H → op.Divides → n ≠ 0) : Gives (fold op a b) (Evaluates Γ B H ρ u · (op.onInts m n)) := by
  have hbin := Evaluates.bin hop ha hb hn
  unfold Expr.fold
  split
  · obtain ⟨rfl, hx⟩ := ha.literal
    obtain ⟨rfl, hy⟩ := hb.literal
    split
    · exact gives_ok hbin
    · refine (gives_foldValue_literal hop hx hy).bind fun z hz => ?_
      rw [hbin.dtype]
      exact ⟨_, hz.ofNumber, evaluates_literal hz⟩
  · exact gives_ok hbin

theorem Evaluates.arith (hop : op.Maps t u) (ha : Evaluates Γ B H ρ t a m) (hb : Evaluates Γ B H ρ t b n)
    (hn : H → op.Divides → n ≠ 0) : Gives (arith op a b) (Evaluates Γ B H ρ u · (op.onInts m n)) := by
  rw [Expr.arith, operands_of_dtype ha.dtype hb.dtype]
  exact ha.fold hop hb hn

/-- A choice that is made while building. -/
theorem evaluates_ite {p : Prop} [Decidable p] (ha : Evaluates Γ B H ρ t a m) (hb : Evaluates Γ B H ρ t b n) :
    Evaluates Γ B H ρ t (if decide p then a else b) (if p then m else n) := by
  by_cases hp : p
  · simpa only [hp, decide_true, if_true] using ha
  · simpa only [hp, decide_false, if_false, Bool.false_eq_true] using hb

theorem asBool_of_dtype (h : e.dtype = .bool) : asBool e = .ok e := by
  have hasBool : asBool e = if e.dtype.isBool then .ok e else ofInt 0 e.dtype.element >>= fun zero => ne e zero := rfl
  rw [hasBool, h]
  rfl

theorem Evaluates.logicalAnd (ha : Evaluates Γ B H ρ .bool a m) (hb : Evaluates Γ B H ρ .bool b n) :
    Gives (logicalAnd a b) (Evaluates Γ B H ρ .bool · (BinOp.and.onInts m n)) := by
  have hleft : BinOp.and.onInts m n = if m ≠ 0 then n else m := by
    obtain rfl | rfl := ha.truth <;> obtain rfl | rfl := hb.truth <;> rfl
  have hright : BinOp.and.onInts m n = if n ≠ 0 then m else n := by
    obtain rfl | rfl := ha.truth <;> obtain rfl | rfl := hb.truth <;> rfl
  rw [Expr.logicalAnd, asBool_of_dtype ha.dtype, asBool_of_dtype hb.dtype]
  dsimp only [Bind.bind, Except.bind]
  split
  · rw [ha.literal.2.truthy, hleft]
    exact gives_ok (evaluates_ite hb ha)
  · rw [hb.literal.2.truthy, hright]
    exact gives_ok (evaluates_ite ha hb)
  · exact gives_ok (ha.bin .and hb fun _ hdiv => nomatch hdiv)

theorem Evaluates.logicalOr (ha : Evaluates Γ B H ρ .bool a m) (hb : Evaluates Γ B H ρ .bool b n) :
    Gives (logicalOr a b) (Evaluates Γ B H ρ .bool · (BinOp.or.onInts m n)) := by
  have hleft : BinOp.or.onInts m n = if m ≠ 0 then m else n := by
    obtain rfl | rfl := ha.truth <;> obtain rfl | rfl := hb.truth <;> rfl
  have hright : BinOp.or.onInts m n = if n ≠ 0 then n else m := by
    obtain rfl | rfl := ha.truth <;> obtain rfl | rfl := hb.truth <;> rfl
  rw [Expr.logicalOr, asBool_of_dtype ha.dtype, asBool_of_dtype hb.dtype]
  dsimp only [Bind.bind, Except.bind]
  split
  · rw [ha.literal.2.truthy, hleft]
    exact gives_ok (evaluates_ite ha hb)
  · rw [hb.literal.2.truthy, hright]
    exact gives_ok (evaluates_ite hb ha)
  · exact gives_ok (ha.bin .or hb fun _ hdiv => nomatch hdiv)

theorem Evaluates.logicalNot (ha : Evaluates Γ B H ρ .bool a n) :
    Gives (logicalNot a) (Evaluates Γ B H ρ .bool · (decide (n = 0)).toInt) := by
  rw [Expr.logicalNot, asBool_of_dtype ha.dtype]
  dsimp only [Bind.bind, Except.bind]
  split
  · rw [ha.literal.2.truthy, decide_not, Bool.not_not]
    exact gives_ok (evaluates_bool _)
  · exact gives_ok ha.not

/-- The builder of an operation on sides of its type. -/
theorem Evaluates.binary (hop : op.Maps t u) (ha : Evaluates Γ B H ρ t a m) (hb : Evaluates Γ B H ρ t b n)
    (hn : H → op.Divides → n ≠ 0) : Gives (binary op a b) (Evaluates Γ B H ρ u · (op.onInts m n)) := by
  unfold Expr.binary
  split
  · cases hop with
    | arith hop => cases hop
    | compare hop => cases hop
    | and => exact ha.logicalAnd hb
  · cases hop with
    | arith hop => cases hop
    | compare hop => cases hop
    | or => exact ha.logicalOr hb
  · exact ha.arith hop hb hn

theorem Evaluates.choose (hc : Evaluates Γ B H ρ .bool c k) (ha : Evaluates Γ B H ρ t a m) (hb : Evaluates Γ B H ρ t b n) :
    Gives (choose c a b) (Evaluates Γ B H ρ t · (if k = 0 then n else m)) := by
  rw [Expr.choose, asBool_of_dtype hc.dtype, operands_of_dtype ha.dtype hb.dtype]
  dsimp only [Bind.bind, Except.bind]
  split
  · have hflip : (if k = 0 then n else m) = if k ≠ 0 then m else n := (ite_not ..).symm
    rw [hc.literal.2.truthy, hflip]
    exact gives_ok (evaluates_ite ha hb)
  · exact gives_ok (hc.select ha hb)

theorem Evaluates.castTo (ht : t.IsIndex) (hu : u.IsIndex) (h : Evaluates Γ B H ρ u e n) :
    Gives (castTo t e) (Evaluates Γ B H ρ t · n) := by
  unfold Expr.castTo
  rw [h.dtype]
  split
  · exact gives_ok (‹u = t› ▸ h)
  · split
    · obtain ⟨-, hx⟩ := h.literal
      obtain rfl := hx.eq_int hu
      rw [if_pos ht.scalar]
      exact ⟨_, ofNumber_int ht n, evaluates_int ht n⟩
    · exact gives_ok (h.cast ht hu)

end Building

end Expr

end TensorNest

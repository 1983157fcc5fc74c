import Mathlib.Tactic.Ring
import TensorNest.Proofs.Axes
import TensorNest.Proofs.Integers

/-! # The constants that simplification makes

Integer constants are put together without a bound while expressions are built and simplified, so that a constant of the
result need not be a number of its type any more. How large a constant can become is told by the expression: the
coefficients and the constant of its linear form add up to no more than its magnitude (`Expr.magnitude`), and none is
negative unless the expression subtracts or has a negative constant (`Expr.negative`). Where the magnitude of every part
stays within the type of the part (`Expr.Roomy`), the constants of the simplified expression are numbers of their types
(`Expr.simplify_representable`). -/

namespace TensorNest
open Expr

/-! ### Types -/

namespace DataType

variable {t : DataType} {m m' : Nat} {s s' : Bool} {n : Int}

/-- The integers of a type of some bits. -/
def Holds (t : DataType) (n : Int) : Prop :=
  if t.isUInt then 0 ≤ n ∧ n < 2 ^ t.bits else -2 ^ (t.bits - 1) ≤ n ∧ n < 2 ^ (t.bits - 1)

instance : Decidable (t.Holds n) :=
  inferInstanceAs (Decidable (if t.isUInt then 0 ≤ n ∧ n < 2 ^ t.bits else -2 ^ (t.bits - 1) ≤ n ∧ n < 2 ^ (t.bits - 1)))

/-- The greatest integer of a type. -/
def most (t : DataType) : Nat :=
  (if t.isUInt then 2 ^ t.bits else 2 ^ (t.bits - 1)) - 1

/-- A type has room for constants of a magnitude, for negative ones as well if there are any. -/
structure Room (t : DataType) (m : Nat) (s : Bool) : Prop where
  size : m ≤ t.most
  sign : t.isUInt → s = false

theorem Room.mono (h : t.Room m s) (hm : m' ≤ m) (hs : s = false → s' = false) : t.Room m' s' :=
  ⟨hm.trans h.size, fun ht => hs (h.sign ht)⟩

theorem Room.holds (h : t.Room m s) (hn : n.natAbs ≤ m) (hs : s = false → 0 ≤ n) : t.Holds n := by
  have hsize := hn.trans h.size
  have hpow (k : Nat) : ((2 ^ k : Nat) : Int) = 2 ^ k := by push_cast; rfl
  unfold most at hsize
  unfold Holds
  split
  · rw [if_pos ‹_›] at hsize
    have := hs (h.sign ‹_›)
    have := Nat.two_pow_pos t.bits
    rw [← hpow]
    omega
  · rw [if_neg ‹_›] at hsize
    have := Nat.two_pow_pos (t.bits - 1)
    rw [← hpow]
    omega

theorem elemType_integer {et : ElemType} (ht : t.IsIndex) (het : t.elemType = .ok et) :
    et = .int t.bits ∧ t.isUInt = false ∨ et = .uint t.bits ∧ t.isUInt = true := by
  unfold elemType at het
  rw [ht.isBool, if_neg Bool.false_ne_true] at het
  split at het
  · cases het
  · split at het <;> cases het
    exact .inl ⟨rfl, by rw [isUInt, ‹t.code = _›]; rfl⟩
  · split at het <;> cases het
    exact .inr ⟨rfl, by rw [isUInt, ‹t.code = _›]; rfl⟩
  · have hfloat : t.isFloat = true := by rw [isFloat, ‹t.code = _›]; rfl
    rw [ht.isFloat] at hfloat
    cases hfloat

/-- The integers of a type are those that its elements in memory can be. -/
theorem holds_iff {et : ElemType} (ht : t.IsIndex) (het : t.elemType = .ok et) : et.holds n ↔ t.Holds n := by
  have hpow (k : Nat) : ((Nat.pow 2 k : Nat) : Int) = 2 ^ k := Nat.cast_pow 2 k
  rw [ElemType.holds, Bool.and_eq_true, decide_eq_true_eq, decide_eq_true_eq, Holds]
  obtain ⟨rfl, hunsigned⟩ | ⟨rfl, hunsigned⟩ := elemType_integer ht het
  · rw [hunsigned, if_neg Bool.false_ne_true, ElemType.least, ElemType.greatest, hpow]
    omega
  · show 0 ≤ n ∧ n ≤ ((Nat.pow 2 t.bits : Nat) : Int) - 1 ↔ _
    rw [hunsigned, if_pos rfl, hpow]
    omega

/-- A constant of its type that is a number of the type. -/
def Represents (t : DataType) (x : Number) : Prop :=
  ∃ n, t.Literal x n ∧ t.Holds n

theorem Literal.represents {x : Number} (h : DataType.bool.Literal x n) : DataType.bool.Represents x := by
  refine ⟨n, h, ?_⟩
  cases h with
  | int ht => exact absurd ht not_isIndex_bool
  | bool b => cases b <;> decide

end DataType

/-! ### Linear forms -/

namespace Linear

variable {l r : Linear} {m n : Nat} {s s' s'' : Bool} {k d : Int} {e : Expr} {ts ls rs : List (Expr × Int)}

/-- The sum of the magnitudes of some coefficients. -/
def weight (ts : List (Expr × Int)) : Nat :=
  (ts.map fun p => p.2.natAbs).sum

@[simp] theorem weight_nil : weight [] = 0 := rfl

@[simp] theorem weight_cons {p : Expr × Int} : weight (p :: ts) = p.2.natAbs + weight ts := rfl

/-- The coefficients and the constant of a linear form add up to a magnitude at most, and only some forms have negative
    ones. -/
structure Modest (m : Nat) (s : Bool) (l : Linear) : Prop where
  size : weight l.terms + l.const.natAbs ≤ m
  sign : s = false → (∀ p ∈ l.terms, 0 ≤ p.2) ∧ 0 ≤ l.const

theorem Modest.mono (h : l.Modest m s) (hm : m ≤ n) (hs : s' = false → s = false) : l.Modest n s' :=
  ⟨h.size.trans hm, fun h' => h.sign (hs h')⟩

theorem modest_atom : (atom e).Modest 1 s :=
  ⟨le_rfl, fun _ => ⟨List.forall_mem_singleton.mpr Int.one_nonneg, le_rfl⟩⟩

theorem modest_ofConst (hs : s = false → 0 ≤ k) : (ofConst k).Modest k.natAbs s :=
  ⟨by simp [ofConst], fun h => ⟨List.forall_mem_nil _, hs h⟩⟩

/-- A coefficient is added to that of the same atom, or stands on its own. -/
theorem weight_addTerm : weight (addTerm e k ts) ≤ weight ts + k.natAbs := by
  induction ts with
  | nil => simp [addTerm]
  | cons p ts ih =>
    unfold addTerm
    split
    · have := Int.natAbs_add_le p.2 k
      simp only [weight_cons]
      omega
    · simp only [weight_cons]
      omega

theorem nonneg_addTerm (hk : 0 ≤ k) (hts : ∀ p ∈ ts, 0 ≤ p.2) : ∀ p ∈ addTerm e k ts, 0 ≤ p.2 := by
  induction ts with
  | nil => exact List.forall_mem_singleton.mpr hk
  | cons q ts ih =>
    obtain ⟨hq, hts⟩ := List.forall_mem_cons.mp hts
    unfold addTerm
    split
    · exact List.forall_mem_cons.mpr ⟨Int.add_nonneg hq hk, hts⟩
    · exact List.forall_mem_cons.mpr ⟨hq, ih hts⟩

theorem weight_addTerms : weight (rs.foldl (fun ts q => addTerm q.1 (k * q.2) ts) ls) ≤
    weight ls + k.natAbs * weight rs := by
  induction rs generalizing ls with
  | nil => simp
  | cons q rs ih =>
    calc weight ((q :: rs).foldl (fun ts q => addTerm q.1 (k * q.2) ts) ls)
      _ ≤ weight (addTerm q.1 (k * q.2) ls) + k.natAbs * weight rs := ih
      _ ≤ weight ls + (k * q.2).natAbs + k.natAbs * weight rs := Nat.add_le_add_right weight_addTerm _
      _ = weight ls + k.natAbs * weight (q :: rs) := by rw [weight_cons, Int.natAbs_mul]; ring

theorem nonneg_addTerms (hk : 0 ≤ k) (hls : ∀ p ∈ ls, 0 ≤ p.2) (hrs : ∀ p ∈ rs, 0 ≤ p.2) :
    ∀ p ∈ rs.foldl (fun ts q => addTerm q.1 (k * q.2) ts) ls, 0 ≤ p.2 := by
  induction rs generalizing ls with
  | nil => exact hls
  | cons q rs ih =>
    obtain ⟨hq, hrs⟩ := List.forall_mem_cons.mp hrs
    exact ih (nonneg_addTerm (Int.mul_nonneg hk hq) hls) hrs

/-- A product with no constant side is an atom. -/
theorem ofExpr_mul_of_ne {a b : Expr} (ha : ∀ x u, a ≠ .const x u) (hb : ∀ x u, b ≠ .const x u) :
    ofExpr (.bin .mul a b) = .ok (atom (.bin .mul a b)) := by
  unfold ofExpr
  split
  · exact absurd rfl (hb _ _)
  · exact absurd rfl (ha _ _)
  · rfl

theorem Modest.addScaled (hl : l.Modest m s) (hr : r.Modest n s') (hs : s'' = false → s = false ∧ s' = false ∧ 0 ≤ k) :
    (l.addScaled k r).Modest (m + k.natAbs * n) s'' where
  size := by
    have hterms : weight (l.addScaled k r).terms ≤ _ := weight_addTerms
    have hconst : (l.addScaled k r).const.natAbs ≤ l.const.natAbs + k.natAbs * r.const.natAbs :=
      (Int.natAbs_add_le ..).trans (by rw [Int.natAbs_mul])
    calc weight (l.addScaled k r).terms + (l.addScaled k r).const.natAbs
      _ ≤ (weight l.terms + k.natAbs * weight r.terms) + (l.const.natAbs + k.natAbs * r.const.natAbs) :=
        Nat.add_le_add hterms hconst
      _ = (weight l.terms + l.const.natAbs) + k.natAbs * (weight r.terms + r.const.natAbs) := by ring
      _ ≤ m + k.natAbs * n := Nat.add_le_add hl.size (Nat.mul_le_mul_left _ hr.size)
  sign h := by
    obtain ⟨hs, hs', hk⟩ := hs h
    exact ⟨nonneg_addTerms hk (hl.sign hs).1 (hr.sign hs').1,
      Int.add_nonneg (hl.sign hs).2 (Int.mul_nonneg hk (hr.sign hs').2)⟩

theorem Modest.scale (hl : l.Modest m s) (hs : s' = false → s = false ∧ 0 ≤ k) : (l.scale k).Modest (m * k.natAbs) s' where
  size := by
    have hterms (ts : List (Expr × Int)) : weight (ts.map fun p => (p.1, p.2 * k)) = weight ts * k.natAbs := by
      induction ts with
      | nil => simp
      | cons p ts ih => rw [List.map_cons, weight_cons, weight_cons, ih, Int.natAbs_mul, Nat.add_mul]
    show weight (l.terms.map _) + (l.const * k).natAbs ≤ _
    rw [hterms, Int.natAbs_mul, ← Nat.add_mul]
    exact Nat.mul_le_mul_right _ hl.size
  sign h := by
    obtain ⟨hs, hk⟩ := hs h
    exact ⟨List.forall_mem_map.mpr fun p hp => Int.mul_nonneg ((hl.sign hs).1 p hp) hk, Int.mul_nonneg (hl.sign hs).2 hk⟩

theorem Modest.quotient (hl : l.Modest m s) (hd : 0 ≤ d) : (l.quotient d).Modest m s where
  size := by
    have hterms (ts : List (Expr × Int)) : weight (ts.map fun p => (p.1, p.2 / d)) ≤ weight ts := by
      induction ts with
      | nil => exact le_rfl
      | cons p ts ih => exact Nat.add_le_add (Int.natAbs_ediv_le_natAbs ..) ih
    exact (Nat.add_le_add (hterms _) (Int.natAbs_ediv_le_natAbs ..)).trans hl.size
  sign h := ⟨List.forall_mem_map.mpr fun p hp => Int.ediv_nonneg ((hl.sign h).1 p hp) hd, Int.ediv_nonneg (hl.sign h).2 hd⟩

end Linear

/-! ### Magnitudes -/

namespace BinOp

/-- The magnitude of an operation on sides of some magnitudes. Products are ones at least, as they can stand as an atom. -/
def magnitude (op : BinOp) (m n : Nat) : Nat :=
  match op with
  | .add | .sub => m + n
  | .mul => Max.max 1 (m * n)
  | .div | .mod => Max.max 1 m
  | .min | .max => Max.max 1 (Max.max m n)
  | _ => 1

/-- Whether an operation can make negative constants, given whether its sides can. -/
def negative (op : BinOp) (s s' : Bool) : Bool :=
  match op with
  | .add | .mul | .div | .mod | .min | .max => s || s'
  | .sub => true
  | _ => false

variable {op : BinOp} {m n : Nat} {s s' : Bool} {k l : Int}

theorem natAbs_onInts_le (hop : op.isLogical = false) (hk : k.natAbs ≤ m) (hl : l.natAbs ≤ n) :
    (op.onInts k l).natAbs ≤ op.magnitude m n := by
  cases op with
  | add => exact (Int.natAbs_add_le k l).trans (Nat.add_le_add hk hl)
  | sub => exact (Int.natAbs_sub_le k l).trans (Nat.add_le_add hk hl)
  | mul =>
    refine le_max_of_le_right ?_
    rw [onInts, Int.natAbs_mul]
    exact Nat.mul_le_mul hk hl
  | div =>
    refine le_max_of_le_right ?_
    rw [onInts, Int.natAbs_tdiv]
    exact (Nat.div_le_self ..).trans hk
  | mod =>
    refine le_max_of_le_right ?_
    rw [onInts, Int.natAbs_tmod]
    exact (Nat.mod_le ..).trans hk
  | min | max =>
    simp only [onInts, magnitude]
    omega
  | _ => cases hop

theorem nonneg_onInts (hop : op.isLogical = false) (hs : op.negative s s' = false) (hk : s = false → 0 ≤ k)
    (hl : s' = false → 0 ≤ l) :
    0 ≤ op.onInts k l := by
  cases op with
  | sub => cases hs
  | add | mul | div | mod | min | max =>
    obtain ⟨hs, hs'⟩ := Bool.or_eq_false_iff.mp hs
    replace hk := hk hs
    replace hl := hl hs'
    first
    | exact Int.add_nonneg hk hl
    | exact Int.mul_nonneg hk hl
    | exact Int.tdiv_nonneg hk hl
    | exact Int.tmod_nonneg l hk
    | simp only [onInts]; omega
  | _ => cases hop

end BinOp

namespace Expr

/-- A bound of the constants that the simplification of an expression can make: sums add up, products multiply, and
    anything that can stay as it is counts as one at least. -/
def magnitude : Expr → Nat
  | const x _ => (x.asInt?.getD 0).natAbs
  | cast _ a => Max.max 1 a.magnitude
  | bin op a b => op.magnitude a.magnitude b.magnitude
  | select _ a b => Max.max 1 (Max.max a.magnitude b.magnitude)
  | _ => 1

/-- Whether the simplification of an expression can make negative constants. -/
def negative : Expr → Bool
  | const x _ => decide (x.asInt?.getD 0 < 0)
  | cast _ a => a.negative
  | bin op a b => op.negative a.negative b.negative
  | select _ a b => a.negative || b.negative
  | _ => false

/-- All constants in an expression are numbers of their types. -/
def Representable (e : Expr) : Prop :=
  ∀ x u, const x u ∈ e.postorder → u.Represents x

section Representable
variable {t u : DataType} {v : Var} {x : Number} {op : BinOp} {a b c e : Expr}

theorem representable_iff (hconst : ∀ x u, e ≠ const x u) : e.Representable ↔ ∀ a ∈ e.parts, a.Representable := by
  refine ⟨fun h a ha x u hx => h x u (postorder_subset ha hx), fun h x u hx => ?_⟩
  obtain ⟨a, ha, hx⟩ | hx := mem_postorder.mp hx
  · exact h a ha x u hx
  · exact absurd hx.symm (hconst x u)

@[simp] theorem representable_const : (const x u).Representable ↔ u.Represents x := by
  simp [Representable, postorder]

theorem representable_var : (var v).Representable := (representable_iff (e := var v) fun _ _ => nofun).mpr nofun

@[simp] theorem representable_cast : (cast t a).Representable ↔ a.Representable :=
  (representable_iff (e := cast t a) fun _ _ => nofun).trans (by simp [parts])

@[simp] theorem representable_bin : (bin op a b).Representable ↔ a.Representable ∧ b.Representable :=
  (representable_iff (e := bin op a b) fun _ _ => nofun).trans (by simp [parts])

@[simp] theorem representable_not : (not a).Representable ↔ a.Representable :=
  (representable_iff (e := not a) fun _ _ => nofun).trans (by simp [parts])

@[simp] theorem representable_select : (select c a b).Representable ↔ c.Representable ∧ a.Representable ∧ b.Representable :=
  (representable_iff (e := select c a b) fun _ _ => nofun).trans (by simp [parts])

@[simp] theorem representable_call {name : String} {args : List Expr} {kind : CallKind} {func : Option OpRef} {i : Int} :
    (call t name args kind func i).Representable ↔ ∀ a ∈ args, a.Representable :=
  representable_iff (e := call t name args kind func i) fun _ _ => nofun

@[simp] theorem representable_load {o : Option Expr} :
    (load t a b o).Representable ↔ a.Representable ∧ b.Representable ∧ ∀ p ∈ o, p.Representable :=
  (representable_iff (e := load t a b o) fun _ _ => nofun).trans (by simp [parts])

end Representable

section Evaluation
open Run
variable {t u : DataType} {et : ElemType} {n : Int} {x : Number} {e : Expr} {f : Frame} {env : Env}

/-- A constant of an integer type is evaluated to its number if it is one of the type, and fails otherwise. -/
theorem on_eval_const (ht : t.IsIndex) (het : t.elemType = .ok et) (m : Machine) :
    on ((const (.int n) t).eval f env) m = (if t.Holds n then .ok (.scalar et (.int n)) else .error .overflow, m) := by
  have hhandle : ¬ t.isHandle := by
    have := ht.integer
    simp only [DataType.isInteger, DataType.isInt, DataType.isUInt, DataType.isHandle, Bool.and_eq_true, Bool.or_eq_true,
      beq_iff_eq] at this ⊢
    rintro hhandle
    simp [hhandle] at this
  have hnumber : et.ofNumber (.int n) = if t.Holds n then .ok (.int n) else .error .overflow := by
    simp only [← DataType.holds_iff ht het]
    obtain ⟨rfl, -⟩ | ⟨rfl, -⟩ := DataType.elemType_integer ht het <;> rfl
  have hcast : (Value.number (.int n)).cast m.memory t =
      Value.ofNumeric <$> (Numeric.typed et <$> (Packed.one <$> et.ofNumber (.int n))) := by
    rw [Value.cast, if_neg hhandle, ht.element, het, ht.scalar]
    rfl
  show on (liftM ((Value.number (.int n)).cast m.memory t) : Run Value) m = _
  rw [hcast, hnumber]
  split <;> rfl

/-- The constants of an expression are evaluated to their numbers if they fit. -/
theorem Representable.hasValue (h : e.Representable) (hx : const x u ∈ e.postorder) (het : u.elemType = .ok et) :
    (const x u).HasValue env (.scalar et x) := fun f => eq_pure fun m => by
  obtain ⟨n, hliteral, hn⟩ := h x u hx
  cases hliteral with
  | int ht =>
    rw [on_eval_const ht het, if_pos hn]
  | bool b =>
    cases het
    cases b <;> rfl

end Evaluation

/-! ### Sizes -/

/-- An expression of a type that stays as it is in a linear form. -/
structure Atomic (t : DataType) (e : Expr) : Prop where
  dtype : e.dtype = t
  representable : e.Representable
  linear : Linear.ofExpr e = .ok (.atom e)

/-- An expression of a type whose constants fit. If it is an integer its linear form is of a magnitude at most. -/
structure Sized (t : DataType) (m : Nat) (s : Bool) (e : Expr) : Prop where
  kind : t.IsIndex ∨ t = .bool
  dtype : e.dtype = t
  representable : e.Representable
  linear : t.IsIndex → Gives (Linear.ofExpr e) fun l => l.Modest m s ∧ l.All (Atomic t)

section Sized
variable {t u : DataType} {m n : Nat} {s s' : Bool} {a b c e : Expr} {op : BinOp} {x : Number} {k : Int}

theorem Sized.mono (h : Sized t m s e) (hm : m ≤ n) (hs : s' = false → s = false) : Sized t n s' e :=
  ⟨h.kind, h.dtype, h.representable, fun ht => (h.linear ht).mono fun _ hl => ⟨hl.1.mono hm hs, hl.2⟩⟩

theorem Atomic.sized (h : Atomic t e) (ht : t.IsIndex) (hm : 1 ≤ m) : Sized t m s e where
  kind := .inl ht
  dtype := h.dtype
  representable := h.representable
  linear _ := ⟨_, h.linear, Linear.modest_atom.mono hm id, Linear.all_atom h⟩

/-- What is no sum, no difference and no product is an atom. -/
theorem sized_of_ofExpr (hkind : t.IsIndex ∨ t = .bool) (hdtype : e.dtype = t) (hrep : e.Representable)
    (hlinear : t.IsIndex → Linear.ofExpr e = .ok (.atom e)) (hm : t.IsIndex → 1 ≤ m) : Sized t m s e :=
  ⟨hkind, hdtype, hrep, fun ht => (Atomic.sized ⟨hdtype, hrep, hlinear ht⟩ ht (hm ht)).linear ht⟩

theorem sized_bool (hdtype : e.dtype = .bool) (hrep : e.Representable) : Sized .bool m s e :=
  ⟨.inr rfl, hdtype, hrep, fun ht => absurd ht DataType.not_isIndex_bool⟩

theorem sized_truth (hx : DataType.bool.Literal x k) : Sized .bool m s (.const x .bool) :=
  sized_bool rfl (representable_const.mpr hx.represents)

theorem sized_literal (hx : t.Literal x k) (hroom : t.Room m s) (hm : k.natAbs ≤ m) (hs : s = false → 0 ≤ k) :
    Sized t m s (.const x t) where
  kind := by
    cases hx with
    | int ht => exact .inl ht
    | bool => exact .inr rfl
  dtype := rfl
  representable := representable_const.mpr ⟨k, hx, hroom.holds hm hs⟩
  linear ht := by
    obtain rfl := hx.eq_int ht
    exact ⟨_, rfl, (Linear.modest_ofConst hs).mono hm id, List.forall_mem_nil _⟩

/-- A constant is a literal of its type, of the magnitude that its linear form has. -/
theorem Sized.literal (h : Sized t m s (.const x u)) :
    u = t ∧ ∃ k, t.Literal x k ∧ (t.IsIndex → k.natAbs ≤ m ∧ (s = false → 0 ≤ k)) := by
  obtain rfl : u = t := h.dtype
  obtain ⟨k, hx, -⟩ := representable_const.mp h.representable
  refine ⟨rfl, k, hx, fun ht => ?_⟩
  obtain rfl := hx.eq_int ht
  obtain ⟨l, hrun, hl, -⟩ := h.linear ht
  cases hrun
  exact ⟨by simpa [Linear.ofConst] using hl.size, fun hs => (hl.sign hs).2⟩

theorem dtype_bin (hop : op.Maps t u) (hkind : t.IsIndex ∨ t = .bool) (ha : a.dtype = t) : (bin op a b).dtype = u := by
  have hlanes : t.lanes = 1 := by
    obtain ht | rfl := hkind
    · exact ht.scalar
    · rfl
  cases hop with
  | arith hop => simp [Expr.dtype, hop, ha]
  | compare hop =>
    have hlogical : op.isLogical = true := by cases op <;> first | rfl | cases hop
    simp [Expr.dtype, hlogical, ha, DataType.withLanes, hlanes, DataType.bool]
  | and | or => simp [Expr.dtype, BinOp.isLogical, ha, DataType.withLanes, DataType.bool]

/-- Sums, differences and products with a constant are linear in the linear forms of their sides. -/
theorem Sized.bin (hop : op.Maps t u) (ha : Sized t m s a) (hb : Sized t n s' b) :
    Sized u (op.magnitude m n) (op.negative s s') (.bin op a b) where
  kind := by
    cases hop with
    | arith => exact ha.kind
    | _ => exact .inr rfl
  dtype := dtype_bin hop ha.kind ha.dtype
  representable := representable_bin.mpr ⟨ha.representable, hb.representable⟩
  linear ht := by
    cases hop with
    | arith hop =>
      have hatom (hrun : Linear.ofExpr (.bin op a b) = .ok (.atom (.bin op a b))) : Atomic t (.bin op a b) :=
        ⟨dtype_bin (.arith hop ht) ha.kind ha.dtype, representable_bin.mpr ⟨ha.representable, hb.representable⟩, hrun⟩
      cases op with
      | add =>
        refine (ha.linear ht).bind fun l hl => (hb.linear ht).bind fun r hr => gives_ok ⟨?_, hl.2.addScaled hr.2 1⟩
        refine (hl.1.addScaled hr.1 (k := 1) fun h => ?_).mono (Nat.add_le_add_left (Nat.one_mul n).le m) id
        exact ⟨(Bool.or_eq_false_iff.mp h).1, (Bool.or_eq_false_iff.mp h).2, Int.one_nonneg⟩
      | sub =>
        refine (ha.linear ht).bind fun l hl => (hb.linear ht).bind fun r hr => gives_ok ⟨?_, hl.2.addScaled hr.2 (-1)⟩
        have hdiff : (l.addScaled (-1) r).Modest (m + (-1 : Int).natAbs * n) true := hl.1.addScaled hr.1 nofun
        exact hdiff.mono (Nat.add_le_add_left (Nat.one_mul n).le m) nofun
      | mul =>
        unfold Linear.ofExpr
        split
        · obtain ⟨-, k, hx, hk⟩ := hb.literal
          obtain rfl := hx.eq_int ht
          refine (ha.linear ht).bind fun l hl => gives_ok ⟨?_, hl.2.scale k⟩
          refine (hl.1.scale fun h => ?_).mono (le_max_of_le_right (Nat.mul_le_mul_left m (hk ht).1)) id
          exact ⟨(Bool.or_eq_false_iff.mp h).1, (hk ht).2 (Bool.or_eq_false_iff.mp h).2⟩
        · obtain ⟨-, k, hx, hk⟩ := ha.literal
          obtain rfl := hx.eq_int ht
          refine (hb.linear ht).bind fun l hl => gives_ok ⟨?_, hl.2.scale k⟩
          refine (hl.1.scale fun h => ?_).mono (le_max_of_le_right ?_) id
          · exact ⟨(Bool.or_eq_false_iff.mp h).2, (hk ht).2 (Bool.or_eq_false_iff.mp h).1⟩
          · rw [Nat.mul_comm]
            exact Nat.mul_le_mul_right n (hk ht).1
        · rename_i hb' ha'
          have ha' : ∀ x u, a ≠ .const x u := by
            rintro x u rfl
            exact ha' x u rfl rfl HEq.rfl
          have hb' : ∀ x u, b ≠ .const x u := by
            rintro x u rfl
            exact hb' x u rfl rfl HEq.rfl
          have hatom := hatom (Linear.ofExpr_mul_of_ne ha' hb')
          exact gives_ok ⟨Linear.modest_atom.mono (le_max_left ..) id, Linear.all_atom hatom⟩
      | div | mod | min | max => exact ((hatom rfl).sized ht (le_max_left ..)).linear ht
      | _ => cases hop
    | _ => exact absurd ht DataType.not_isIndex_bool

end Sized

end Expr

/-! ### Writing linear forms -/

namespace Linear

variable {l : Linear} {t : DataType} {m : Nat} {s : Bool} {k : Int} {e : Expr} {ts : List (Expr × Int)} (ht : t.IsIndex)
include ht

theorem gives_ofInt_sized (hroom : t.Room m s) (hm : k.natAbs ≤ m) (hs : s = false → 0 ≤ k) :
    Gives (ofInt k t) (Sized t m s) :=
  ⟨_, ofNumber_int ht k, sized_literal (.int ht k) hroom hm hs⟩

/-- An atom times a constant. -/
theorem sized_scaled (he : Atomic t e) (hroom : t.Room m s) (hk : k ≠ 0) (hm : k.natAbs ≤ m) (hs : s = false → 0 ≤ k) :
    Gives (ofInt k t) fun c => Sized t m s (.bin .mul e c) := by
  have hroom' : t.Room k.natAbs s := hroom.mono hm id
  refine (gives_ofInt_sized ht hroom' le_rfl hs).mono fun c hc => ?_
  refine ((he.sized (s := false) ht le_rfl).bin (.arith rfl ht) hc).mono ?_ fun h => ?_
  · simp only [BinOp.magnitude]
    omega
  · rw [h]
    rfl

theorem gives_termExpr_sized (he : Atomic t e) (hroom : t.Room m s) (hk : k ≠ 0) (hm : k.natAbs ≤ m) :
    Gives (termExpr t e k) (Sized t m s) := by
  unfold termExpr
  split
  · exact gives_ok (he.sized ht (by omega))
  · obtain ⟨c, hc, he⟩ := sized_scaled ht he hroom (k := k.natAbs) (by omega) (by rwa [Int.natAbs_natCast]) fun _ =>
      by omega
    exact ⟨_, by rw [hc]; rfl, he⟩

/-- Each term adds the magnitude of its coefficient to the sum written so far. -/
theorem gives_sumTerms_sized (hts : ∀ p ∈ ts, Atomic t p.1) (hsign : s = false → ∀ p ∈ ts, 0 ≤ p.2)
    (hroom : t.Room (m + weight ts) s) {acc : Option Expr} (hacc : ∀ e ∈ acc, Sized t m s e) :
    Gives (sumTerms t acc ts) (∀ e ∈ ·, Sized t (m + weight ts) s e) := by
  induction ts generalizing acc m with
  | nil => exact gives_ok hacc
  | cons p ts ih =>
    obtain ⟨e, k⟩ := p
    obtain ⟨he, hts⟩ := List.forall_mem_cons.mp hts
    have hk (h : s = false) : 0 ≤ k := (List.forall_mem_cons.mp (hsign h)).1
    have hsum : m + weight ((e, k) :: ts) = m + k.natAbs + weight ts := by rw [weight_cons, Nat.add_assoc]
    rw [hsum] at hroom ⊢
    have ih {acc : Option Expr} (hacc : ∀ e ∈ acc, Sized t (m + k.natAbs) s e) :
        Gives (sumTerms t acc ts) (∀ e ∈ ·, Sized t (m + k.natAbs + weight ts) s e) :=
      ih hts (fun h => (List.forall_mem_cons.mp (hsign h)).2) hroom hacc
    have hnext {a : Expr} (ha : Sized t (m + k.natAbs) s a) :
        Gives (sumTerms t (some a) ts) (∀ e ∈ ·, Sized t (m + k.natAbs + weight ts) s e) :=
      ih fun b hb => Option.some.inj hb ▸ ha
    unfold sumTerms
    split
    · exact ih fun a ha => (hacc a ha).mono (Nat.le_add_right ..) id
    have hroom' : t.Room k.natAbs s := hroom.mono (by omega) id
    refine (gives_termExpr_sized ht he hroom' ‹_› le_rfl).bind fun term hterm => ?_
    cases acc with
    | none =>
      simp only
      split
      · exact hnext (hterm.mono (Nat.le_add_left ..) id)
      · exact (sized_scaled ht he hroom' ‹_› le_rfl hk).bind fun c hc => hnext (hc.mono (Nat.le_add_left ..) id)
    | some a =>
      have ha := hacc a rfl
      simp only
      split
      · exact hnext ((ha.bin (.arith rfl ht) hterm).mono le_rfl fun h => by rw [h]; rfl)
      · exact hnext ((ha.bin (.arith rfl ht) hterm).mono le_rfl fun h => absurd (hk h) (by omega))

/-- The expression of a linear form is of the magnitude of the form. -/
theorem gives_toExpr_sized (hl : l.Modest m s) (hatoms : l.All (Atomic t)) (hroom : t.Room m s) :
    Gives (l.toExpr t) (Sized t m s) := by
  have hroom' : t.Room (0 + weight l.terms) s := hroom.mono (by have := hl.size; omega) id
  unfold toExpr
  have hnone : ∀ e ∈ (none : Option Expr), Sized t 0 s e := fun _ => nofun
  refine (gives_sumTerms_sized ht hatoms (fun h => (hl.sign h).1) hroom' hnone).bind fun o ho => ?_
  have hconst : l.const.natAbs ≤ m := le_of_add_le_right hl.size
  cases o with
  | none => exact gives_ofInt_sized ht hroom hconst fun h => (hl.sign h).2
  | some a =>
    have ha := ho a rfl
    have hsum : 0 + weight l.terms + l.const.natAbs ≤ m := by rw [Nat.zero_add]; exact hl.size
    have hroom : t.Room l.const.natAbs s := hroom.mono hconst id
    simp only
    split
    · refine (gives_ofInt_sized ht hroom le_rfl fun h => (hl.sign h).2).bind fun c hc => gives_ok ?_
      exact (ha.bin (.arith rfl ht) hc).mono hsum fun h => by rw [h]; rfl
    split
    · refine (gives_ofInt_sized ht hroom (k := -l.const) (Int.natAbs_neg _).le fun _ => by omega).bind fun c hc =>
        gives_ok ?_
      exact (ha.bin (.arith rfl ht) hc).mono hsum fun h => absurd (hl.sign h).2 (by omega)
    · exact gives_ok (ha.mono (by omega) id)

end Linear

/-! ### Rules and builders -/

namespace Expr

variable {t u : DataType} {k m n : Nat} {r s s' : Bool} {a b c e : Expr} {op : BinOp}

theorem gives_constDiff?_sized (ha : Sized t m s a) (hb : Sized t n s' b) : Gives (constDiff? a b) fun _ => True := by
  unfold constDiff?
  rw [isIntScalar, isIntScalar, ha.dtype, hb.dtype]
  obtain ht | rfl := ha.kind
  · rw [ht.integer, ht.scalar]
    have hdiff : Sized t (BinOp.sub.magnitude m n) (BinOp.sub.negative s s') (.bin .sub a b) := ha.bin (.arith rfl ht) hb
    exact (hdiff.linear ht).bind fun l _ => gives_ok trivial
  · exact gives_ok trivial

theorem gives_divMod?_sized (ht : t.IsIndex) (hop : op.Divides) (ha : Sized t m s a) (hb : Sized t n s' b)
    (hroom : t.Room (op.magnitude m n) (op.negative s s')) :
    Gives (divMod? op a b) (∀ e ∈ ·, Sized t (op.magnitude m n) (op.negative s s') e) := by
  have hm : m ≤ op.magnitude m n := by obtain rfl | rfl := hop <;> exact le_max_right ..
  have hs (h : op.negative s s' = false) : s = false := by
    obtain rfl | rfl := hop <;> exact (Bool.or_eq_false_iff.mp h).1
  have hsome {e : Expr} (he : Sized t m s e) : ∀ e' ∈ some e, Sized t (op.magnitude m n) (op.negative s s') e' :=
    fun e' he' => Option.some.inj he' ▸ he.mono hm hs
  have hroom : t.Room m s := hroom.mono hm hs
  have hzero : Gives (ofInt 0 a.dtype) (Sized t m s) := by
    rw [ha.dtype]
    exact Linear.gives_ofInt_sized ht hroom (Nat.zero_le m) fun _ => le_rfl
  unfold divMod?
  split
  · obtain ⟨-, k, hx, -⟩ := hb.literal
    obtain rfl := hx.eq_int ht
    split
    · exact gives_ok fun _ => nofun
    have hpos : 0 ≤ k := by
      have := ‹¬ _›
      rw [hx.le (.int ht 0)] at this
      have := of_decide_eq_false (Bool.eq_false_of_not_eq_true this)
      omega
    refine Gives.bind (P := (k = ·)) ⟨k, rfl, rfl⟩ ?_
    rintro _ rfl
    split
    · split
      · exact gives_ok (hsome ha)
      · exact hzero.bind fun z hz => gives_ok (hsome hz)
    refine (ha.linear ht).bind fun l hl => ?_
    split
    · exact gives_ok fun _ => nofun
    split
    · exact hzero.bind fun z hz => gives_ok (hsome hz)
    · rw [ha.dtype]
      exact (Linear.gives_toExpr_sized ht (hl.1.quotient hpos) (hl.2.quotient k) hroom).bind fun e he => gives_ok (hsome he)
  · exact gives_ok fun _ => nofun

theorem gives_binRule?_sized (hop : op.Maps t u) (ha : Sized t m s a) (hb : Sized t n s' b)
    (hroom : u.Room (op.magnitude m n) (op.negative s s')) :
    Gives (binRule? op u a b) (∀ e ∈ ·, Sized u (op.magnitude m n) (op.negative s s') e) := by
  have hsome {e : Expr} (he : Sized u (op.magnitude m n) (op.negative s s') e) :
      ∀ e' ∈ some e, Sized u (op.magnitude m n) (op.negative s s') e' := fun e' he' => Option.some.inj he' ▸ he
  unfold binRule?
  cases hop with
  | arith hop ht =>
    rw [ht.integer, ht.scalar]
    have hlinear : Gives (do return some (← (← Linear.ofExpr (.bin op a b)).toExpr t))
        (∀ e ∈ ·, Sized t (op.magnitude m n) (op.negative s s') e) :=
      ((ha.bin (.arith hop ht) hb).linear ht).bind fun l hl =>
        (Linear.gives_toExpr_sized ht hl.1 hl.2 hroom).bind fun e he => gives_ok (hsome he)
    cases op with
    | add | sub | mul => exact hlinear
    | div => exact gives_divMod?_sized ht (.inl rfl) ha hb hroom
    | mod => exact gives_divMod?_sized ht (.inr rfl) ha hb hroom
    | min | max =>
      -- The result is one of the sides.
      have ha' : Sized t (Max.max 1 (Max.max m n)) (s || s') a := ha.mono (by omega) fun h => (Bool.or_eq_false_iff.mp h).1
      have hb' : Sized t (Max.max 1 (Max.max m n)) (s || s') b := hb.mono (by omega) fun h => (Bool.or_eq_false_iff.mp h).2
      refine (gives_constDiff?_sized ha hb).bind fun d _ => ?_
      cases d with
      | some d =>
        refine gives_ok (hsome ?_)
        simp only [reduceIte, reduceCtorEq]
        split
        · exact ha'
        · exact hb'
      | none =>
        refine gives_ok ?_
        split
        · exact hsome ha'
        · exact fun _ => nofun
    | _ => cases hop
  | compare hop =>
    cases op with
    | eq | ne | lt | le | gt | ge =>
      refine (gives_constDiff?_sized ha hb).bind fun d _ => ?_
      cases d with
      | some d => exact gives_ok (hsome (sized_truth (.bool _)))
      | none => exact gives_ok fun _ => nofun
    | _ => cases hop
  | and | or => exact gives_ok fun _ => nofun

/-- A folded constant is of the magnitude of the operation. -/
theorem Sized.fold (hop : op.Maps t u) (ha : Sized t m s a) (hb : Sized t n s' b)
    (hroom : u.Room (op.magnitude m n) (op.negative s s')) :
    Gives (fold op a b) (Sized u (op.magnitude m n) (op.negative s s')) := by
  have hbin := Sized.bin hop ha hb
  unfold Expr.fold
  split
  · obtain ⟨rfl, k, hx, hk⟩ := ha.literal
    obtain ⟨rfl, l, hy, hl⟩ := hb.literal
    split
    · exact gives_ok hbin
    · refine (gives_foldValue_literal hop hx hy).bind fun z hz => ?_
      rw [hbin.dtype]
      refine ⟨_, hz.ofNumber, ?_⟩
      cases hop with
      | arith hop ht =>
        obtain ⟨hkm, hks⟩ := hk ht
        obtain ⟨hln, hls⟩ := hl ht
        exact sized_literal hz hroom (BinOp.natAbs_onInts_le hop hkm hln) fun h => BinOp.nonneg_onInts hop h hks hls
      | _ => exact sized_truth hz
  · exact gives_ok hbin

theorem Sized.arith (hop : op.Maps t u) (ha : Sized t m s a) (hb : Sized t n s' b)
    (hroom : u.Room (op.magnitude m n) (op.negative s s')) :
    Gives (arith op a b) (Sized u (op.magnitude m n) (op.negative s s')) := by
  rw [Expr.arith, operands_of_dtype ha.dtype hb.dtype]
  exact ha.fold hop hb hroom

theorem Sized.logicalAnd (ha : Sized .bool m s a) (hb : Sized .bool n s' b) :
    Gives (logicalAnd a b) (Sized .bool (BinOp.and.magnitude m n) (BinOp.and.negative s s')) := by
  have ha' : Sized .bool (BinOp.and.magnitude m n) (BinOp.and.negative s s') a := sized_bool ha.dtype ha.representable
  have hb' : Sized .bool (BinOp.and.magnitude m n) (BinOp.and.negative s s') b := sized_bool hb.dtype hb.representable
  rw [Expr.logicalAnd, asBool_of_dtype ha.dtype, asBool_of_dtype hb.dtype]
  dsimp only [Bind.bind, Except.bind]
  split
  · refine gives_ok ?_
    split
    · exact hb'
    · exact ha'
  · refine gives_ok ?_
    split
    · exact ha'
    · exact hb'
  · exact gives_ok (ha.bin .and hb)

theorem Sized.logicalOr (ha : Sized .bool m s a) (hb : Sized .bool n s' b) :
    Gives (logicalOr a b) (Sized .bool (BinOp.or.magnitude m n) (BinOp.or.negative s s')) := by
  have ha' : Sized .bool (BinOp.or.magnitude m n) (BinOp.or.negative s s') a := sized_bool ha.dtype ha.representable
  have hb' : Sized .bool (BinOp.or.magnitude m n) (BinOp.or.negative s s') b := sized_bool hb.dtype hb.representable
  rw [Expr.logicalOr, asBool_of_dtype ha.dtype, asBool_of_dtype hb.dtype]
  dsimp only [Bind.bind, Except.bind]
  split
  · refine gives_ok ?_
    split
    · exact ha'
    · exact hb'
  · refine gives_ok ?_
    split
    · exact hb'
    · exact ha'
  · exact gives_ok (ha.bin .or hb)

theorem Sized.logicalNot (ha : Sized .bool m s a) : Gives (logicalNot a) (Sized .bool 1 false) := by
  rw [Expr.logicalNot, asBool_of_dtype ha.dtype]
  dsimp only [Bind.bind, Except.bind]
  split
  · exact gives_ok (sized_truth (.bool _))
  · exact gives_ok (sized_bool ha.dtype (representable_not.mpr ha.representable))

/-- The builder of an operation on sides of its type. -/
theorem Sized.binary (hop : op.Maps t u) (ha : Sized t m s a) (hb : Sized t n s' b)
    (hroom : u.Room (op.magnitude m n) (op.negative s s')) :
    Gives (binary op a b) (Sized u (op.magnitude m n) (op.negative s s')) := by
  unfold Expr.binary
  split
  · cases hop with
    | arith hop => cases hop
    | compare hop => cases hop
    | and => exact ha.logicalAnd hb
  · cases hop with
    | arith hop => cases hop
    | compare hop => cases hop
    | or => exact ha.logicalOr hb
  · exact ha.arith hop hb hroom

theorem Sized.choose (hc : Sized .bool k r c) (ha : Sized t m s a) (hb : Sized t n s' b) :
    Gives (choose c a b) (Sized t (Max.max 1 (Max.max m n)) (s || s')) := by
  have ha' : Sized t (Max.max 1 (Max.max m n)) (s || s') a := ha.mono (by omega) fun h => (Bool.or_eq_false_iff.mp h).1
  have hb' : Sized t (Max.max 1 (Max.max m n)) (s || s') b := hb.mono (by omega) fun h => (Bool.or_eq_false_iff.mp h).2
  rw [Expr.choose, asBool_of_dtype hc.dtype, operands_of_dtype ha.dtype hb.dtype]
  dsimp only [Bind.bind, Except.bind]
  split
  · refine gives_ok ?_
    split
    · exact ha'
    · exact hb'
  · have hrep := representable_select.mpr ⟨hc.representable, ha.representable, hb.representable⟩
    exact gives_ok (sized_of_ofExpr ha.kind ha.dtype hrep (fun _ => rfl) fun _ => le_max_left ..)

/-- A cast keeps the number of a constant. -/
theorem Sized.castTo (ht : t.IsIndex) (hu : u.IsIndex) (h : Sized u m s e) (hroom : t.Room (Max.max 1 m) s) :
    Gives (castTo t e) (Sized t (Max.max 1 m) s) := by
  unfold Expr.castTo
  rw [h.dtype]
  split
  · exact gives_ok (‹u = t› ▸ h.mono (le_max_right ..) id)
  · split
    · obtain ⟨-, k, hx, hk⟩ := h.literal
      obtain rfl := hx.eq_int hu
      rw [if_pos ht.scalar]
      exact Linear.gives_ofInt_sized ht hroom (le_max_of_le_right (hk hu).1) (hk hu).2
    · exact gives_ok (sized_of_ofExpr (.inl ht) rfl (representable_cast.mpr h.representable)
        (fun _ => rfl) fun _ => le_max_left ..)

theorem gives_simplifyBin_sized {x y : Revised Expr} (hop : op.Maps t u) (hx : Sized t m s x.term)
    (hy : Sized t n s' y.term)
    (hroom : u.Room (op.magnitude m n) (op.negative s s')) :
    Gives (simplifyBin op u x y) (Sized u (op.magnitude m n) (op.negative s s') ·.term) := by
  unfold simplifyBin
  refine (gives_binRule?_sized hop hx hy hroom).bind fun o ho => ?_
  cases o with
  | some e => exact gives_ok (ho e rfl)
  | none =>
    simp only
    split
    · exact gives_ok (hx.bin hop hy)
    · exact (hx.binary hop hy hroom).bind fun e he => gives_ok he

/-! ### Simplification -/

/-- Expressions of integers and truth values over variables and elements that are read, in which each operation leaves
    room for the constants that its simplification can make. What is read or called is told by its arguments. -/
inductive Roomy : DataType → Expr → Prop
  | var {v : Var} (hkind : v.dtype.IsIndex ∨ v.dtype = .bool) : Roomy v.dtype (.var v)
  | const {t : DataType} {x : Number} {n : Int} (hx : t.Literal x n)
    (hroom : t.Room (Expr.const x t).magnitude (Expr.const x t).negative) : Roomy t (.const x t)
  | cast {t u : DataType} {a : Expr} (ht : t.IsIndex) (hu : u.IsIndex) (ha : Roomy u a)
    (hroom : t.Room (Expr.cast t a).magnitude (Expr.cast t a).negative) : Roomy t (.cast t a)
  | bin {op : BinOp} {t u : DataType} {a b : Expr} (hop : op.Maps t u) (ha : Roomy t a) (hb : Roomy t b)
    (hroom : u.Room (Expr.bin op a b).magnitude (Expr.bin op a b).negative) : Roomy u (.bin op a b)
  | not {a : Expr} (ha : Roomy .bool a) : Roomy .bool (.not a)
  | select {t : DataType} {c a b : Expr} (hc : Roomy .bool c) (ha : Roomy t a) (hb : Roomy t b) : Roomy t (.select c a b)
  | likely {c : Expr} (hc : Roomy .bool c) : Roomy .bool (.call .bool "likely" [c] .pureIntrinsic none 0)
  | call {t : DataType} {name : String} {args : List Expr} {kind : CallKind} {func : Option OpRef} {i : Int} {u : Expr →
    DataType}
    (hkind : t.IsIndex ∨ t = .bool) (hname : name ≠ "likely") (hargs : ∀ a ∈ args, Roomy (u a) a) :
    Roomy t (.call t name args kind func i)
  | load {t u : DataType} {buffer : Var} {index : Expr} (hkind : t.IsIndex ∨ t = .bool) (hindex : Roomy u index) :
    Roomy t (.load t (.var buffer) index none)

theorem Roomy.sized (h : e.Roomy t) : Sized t e.magnitude e.negative e := by
  induction h with
  | var hkind => exact sized_of_ofExpr hkind rfl representable_var (fun _ => rfl) fun _ => le_rfl
  | const hx hroom =>
    simp only [magnitude, negative, hx.asInt?, Option.getD_some] at hroom ⊢
    exact sized_literal hx hroom le_rfl fun h => Int.not_lt.mp (of_decide_eq_false h)
  | cast ht _ _ _ ih =>
    exact sized_of_ofExpr (.inl ht) rfl (representable_cast.mpr ih.representable) (fun _ => rfl) fun _ => le_max_left ..
  | bin hop _ _ _ iha ihb => exact iha.bin hop ihb
  | not _ ih => exact sized_bool ih.dtype (representable_not.mpr ih.representable)
  | select _ _ _ ihc iha ihb =>
    have hrep := representable_select.mpr ⟨ihc.representable, iha.representable, ihb.representable⟩
    exact sized_of_ofExpr iha.kind iha.dtype hrep (fun _ => rfl) fun _ => le_max_left ..
  | likely _ ih => exact sized_bool rfl (representable_call.mpr (List.forall_mem_singleton.mpr ih.representable))
  | call hkind _ _ ih =>
    refine sized_of_ofExpr hkind rfl (representable_call.mpr fun a ha => ?_) (fun _ => rfl) fun _ => le_rfl
    exact (ih a ha).representable
  | load hkind _ ih =>
    refine sized_of_ofExpr hkind rfl (representable_load.mpr ?_) (fun _ => rfl) fun _ => le_rfl
    exact ⟨representable_var, ih.representable, fun _ => nofun⟩

theorem dtypeUnder_nil (e : Expr) : e.dtypeUnder [] = e.dtype := by
  induction e with
  | bin op a b iha ihb => simp [dtypeUnder, dtype, iha]
  | _ => simp_all [dtypeUnder, dtype, Subst.find?]

theorem gives_simplifyAll_representable {es : List Expr} (h : ∀ a ∈ es, Gives (a.simplifyUnder []) (·.term.Representable)) :
    Gives (simplifyUnder.onList [] es) (∀ a ∈ ·.1, a.Representable) := by
  induction es with
  | nil => exact gives_ok (List.forall_mem_nil _)
  | cons e es ih =>
    obtain ⟨he, hes⟩ := List.forall_mem_cons.mp h
    exact he.bind fun r hr => (ih hes).bind fun rs hrs => gives_ok (List.forall_mem_cons.mpr ⟨hr, hrs⟩)

/-- The simplified expression is of the magnitude of the expression. -/
theorem Roomy.gives_simplifyUnder (h : e.Roomy t) : Gives (e.simplifyUnder []) (Sized t e.magnitude e.negative ·.term) := by
  induction h with
  | var hkind => exact gives_ok (Roomy.var hkind).sized
  | const hx hroom => exact gives_ok (Roomy.const hx hroom).sized
  | cast ht hu _ hroom ih => exact ih.bind fun r hr => (hr.castTo ht hu hroom).bind fun e he => gives_ok he
  | @bin op t u a b hop ha _ hroom iha ihb =>
    refine iha.bind fun x hx => ihb.bind fun y hy => ?_
    rw [dtypeUnder_nil, dtype_bin hop ha.sized.kind ha.sized.dtype]
    exact gives_simplifyBin_sized hop hx hy hroom
  | not _ ih => exact ih.bind fun r hr => hr.logicalNot.bind fun e he => gives_ok he
  | select _ _ _ ihc iha ihb =>
    refine ihc.bind fun x hx => iha.bind fun y hy => ihb.bind fun z hz => ?_
    split
    · exact gives_ok (hy.mono (le_max_of_le_right (le_max_left ..)) fun h => (Bool.or_eq_false_iff.mp h).1)
    · exact (hx.choose hy hz).bind fun e he => gives_ok he
  | likely _ ih =>
    obtain ⟨⟨c, changed⟩, hrun, hr⟩ := ih
    refine ⟨_, by rw [simplifyUnder, simplifyUnder.onList, hrun]; rfl, ?_⟩
    unfold simplifyCall
    split
    · cases ‹Expr.call .. = _›
      exact sized_bool hr.dtype hr.representable
    · exact sized_bool rfl (representable_call.mpr (List.forall_mem_singleton.mpr hr.representable))
  | call hkind hname _ ih =>
    refine (gives_simplifyAll_representable fun a ha => (ih a ha).mono fun r hr => hr.representable).bind ?_
    rintro ⟨args, changed⟩ hargs
    refine gives_ok ?_
    unfold simplifyCall
    split
    · cases ‹Expr.call .. = _›
      exact absurd rfl hname
    · exact sized_of_ofExpr hkind rfl (representable_call.mpr hargs) (fun _ => rfl) fun _ => le_rfl
  | load hkind _ ih =>
    refine ih.bind fun r hr => gives_ok ?_
    refine sized_of_ofExpr hkind rfl (representable_load.mpr ?_) (fun _ => rfl) fun _ => le_rfl
    exact ⟨representable_var, hr.representable, fun _ => nofun⟩

section Room
variable {t u : DataType} {a b e : Expr} {op : BinOp}

/-- A builder with enough room makes no constant that is not a number of its type. -/
theorem Roomy.binary_representable (h : (Expr.bin op a b).Roomy u) :
    ∃ e', binary op a b = .ok e' ∧ e'.dtype = u ∧ e'.Representable := by
  cases h with
  | bin hop ha hb hroom => exact (ha.sized.binary hop hb.sized hroom).mono fun _ he => ⟨he.dtype, he.representable⟩

theorem Roomy.castTo_representable (h : (Expr.cast t a).Roomy t) :
    ∃ e', castTo t a = .ok e' ∧ e'.dtype = t ∧ e'.Representable := by
  cases h with
  | cast ht hu ha hroom => exact (ha.sized.castTo ht hu hroom).mono fun _ he => ⟨he.dtype, he.representable⟩

theorem Roomy.neg_representable (ht : t.IsIndex) (h : (Expr.bin .sub (.const (.int 0) t) a).Roomy t) :
    ∃ e', neg a = .ok e' ∧ e'.dtype = t ∧ e'.Representable := by
  have hdtype : a.dtype = t := by
    cases h with
    | bin hop _ hb =>
      cases hop with
      | arith => exact hb.sized.dtype
      | compare hop => cases hop
  have hneg : neg a = binary .sub (Expr.const (.int 0) t) a := by
    show (ofInt 0 a.dtype.element >>= fun zero => sub zero a) = _
    rw [hdtype, ht.element, ofInt, ofNumber_int ht]
    rfl
  rw [hneg]
  exact h.binary_representable

/-- The simplification of an expression with enough room makes no constant that is not a number of its type. -/
theorem simplify_representable (he : e.Roomy t) : ∃ e', e.simplify = .ok e' ∧ e'.dtype = t ∧ e'.Representable :=
  he.gives_simplifyUnder.bind fun _ hr => gives_ok ⟨hr.dtype, hr.representable⟩

end Room

namespace Sample

def uint8 : DataType := ⟨.uint, 8, 1⟩

def i : Var := ⟨1, "i", .int32⟩

/-- `A[i + 2]`, a byte. -/
def byte : Expr := .call uint8 "A" [.bin .add (.var i) (int32 2)] .tensorRead none 0

theorem byte_roomy : byte.Roomy uint8 := by
  have hint : DataType.int32.IsIndex := ⟨rfl, rfl⟩
  refine .call (u := fun _ => .int32) (.inl ⟨rfl, rfl⟩) (by decide) (List.forall_mem_singleton.mpr ?_)
  exact .bin (.arith rfl hint) (.var (v := i) (.inl hint)) (.const (.int hint 2) ⟨by decide, by decide⟩)
    ⟨by decide, by decide⟩

/-- Ten times a byte and five more is simplified within the bytes. -/
theorem scaled_representable : ∃ e', (bin .add (bin .mul byte (const (.int 10) uint8)) (const (.int 5) uint8)).simplify =
    .ok e' ∧
    e'.dtype = uint8 ∧ e'.Representable := by
  have hbyte : uint8.IsIndex := ⟨rfl, rfl⟩
  have hconst (n : Int) (hroom : uint8.Room n.natAbs (decide (n < 0))) : (const (.int n) uint8).Roomy uint8 :=
    .const (.int hbyte n) hroom
  refine simplify_representable (.bin (.arith rfl hbyte) (.bin (.arith rfl hbyte) byte_roomy (hconst 10 ?_) ?_)
    (hconst 5 ?_) ?_)
  all_goals exact ⟨by decide, by decide⟩

/-- A difference leaves no room in an unsigned type: its simplification makes a negative constant. -/
example : (bin .sub (const (.int 5) uint8) byte).simplify =
    .ok (.bin .add (.bin .mul byte (const (.int (-1)) uint8)) (const (.int 5) uint8)) := by
  rfl

end Sample

end Expr

end TensorNest

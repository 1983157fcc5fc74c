import TensorNest.Expr.Interval
import TensorNest.Proofs.Extents

/-! # Intervals of values

The interval of an expression has symbolic ends. It is sound under a valuation of all variables: as long as the
intervals given for some of the variables enclose their values, the interval computed for an expression encloses the
value of the expression (`Interval.Encloses`).

Each operation on intervals encloses what the operation makes of numbers that are enclosed: a sum or a difference by the
ends, a product by the least and the greatest product of two ends, a quotient by a constant with the ends in the order
that the sign of the constant asks for. By induction on the expression this is so of all arithmetic without remainders
(`Interval.eval?_encloses`).

The interval of a remainder takes a lower end that is no constant for one that is not negative. So it encloses
the remainder of a dividend with such an end only if this is not negative (`Interval.eval?_mod_iff`). -/

namespace TensorNest

/-! ### Products between products of ends -/

section Corners
variable {a₁ a₂ b₁ b₂ c l m n : Int}

/-- A factor between two others gives a product between theirs, in an order that depends on the sign of the other factor. -/
theorem le_mul_of_ends (hm₁ : a₁ ≤ m) (hm₂ : m ≤ a₂) (h₁ : l ≤ a₁ * c) (h₂ : l ≤ a₂ * c) : l ≤ m * c := by
  obtain hc | hc := Int.le_total 0 c
  · exact h₁.trans (Int.mul_le_mul_of_nonneg_right hm₁ hc)
  · exact h₂.trans (Int.mul_le_mul_of_nonpos_right hm₂ hc)

theorem mul_le_of_ends (hm₁ : a₁ ≤ m) (hm₂ : m ≤ a₂) (h₁ : a₁ * c ≤ l) (h₂ : a₂ * c ≤ l) : m * c ≤ l := by
  obtain hc | hc := Int.le_total 0 c
  · exact (Int.mul_le_mul_of_nonneg_right hm₂ hc).trans h₂
  · exact (Int.mul_le_mul_of_nonpos_right hm₁ hc).trans h₁

/-- What is below the four products of the ends of two intervals is below all products of numbers in them. -/
theorem le_mul_of_corners (hm₁ : a₁ ≤ m) (hm₂ : m ≤ a₂) (hn₁ : b₁ ≤ n) (hn₂ : n ≤ b₂)
    (h₁₁ : l ≤ a₁ * b₁) (h₁₂ : l ≤ a₁ * b₂) (h₂₁ : l ≤ a₂ * b₁) (h₂₂ : l ≤ a₂ * b₂) : l ≤ m * n := by
  have hleft : l ≤ m * b₁ := le_mul_of_ends hm₁ hm₂ h₁₁ h₂₁
  have hright : l ≤ m * b₂ := le_mul_of_ends hm₁ hm₂ h₁₂ h₂₂
  rw [Int.mul_comm] at hleft hright ⊢
  exact le_mul_of_ends hn₁ hn₂ hleft hright

theorem mul_le_of_corners (hm₁ : a₁ ≤ m) (hm₂ : m ≤ a₂) (hn₁ : b₁ ≤ n) (hn₂ : n ≤ b₂)
    (h₁₁ : a₁ * b₁ ≤ l) (h₁₂ : a₁ * b₂ ≤ l) (h₂₁ : a₂ * b₁ ≤ l) (h₂₂ : a₂ * b₂ ≤ l) : m * n ≤ l := by
  have hleft : m * b₁ ≤ l := mul_le_of_ends hm₁ hm₂ h₁₁ h₂₁
  have hright : m * b₂ ≤ l := mul_le_of_ends hm₁ hm₂ h₁₂ h₂₂
  rw [Int.mul_comm] at hleft hright ⊢
  exact mul_le_of_ends hn₁ hn₂ hleft hright

end Corners

/-! ### Ends -/

namespace Number

variable (m n : Int)

theorem truthy_int : (int n).truthy = decide (n ≠ 0) :=
  (DataType.Literal.int (t := .int32) ⟨rfl, rfl⟩ n).truthy

theorem le_int : (int m).le (int n) = decide (m ≤ n) :=
  (DataType.Literal.int (t := .int32) ⟨rfl, rfl⟩ m).le (.int ⟨rfl, rfl⟩ n)

theorem lt_int : (int m).lt (int n) = decide (m < n) :=
  (DataType.Literal.int (t := .int32) ⟨rfl, rfl⟩ m).lt (.int ⟨rfl, rfl⟩ n)

theorem eq_int : (int m).eq (int n) = decide (m = n) :=
  (DataType.Literal.int (t := .int32) ⟨rfl, rfl⟩ m).eq (.int ⟨rfl, rfl⟩ n)

end Number

namespace Expr

variable {Γ : Context} {ρ : Valuation Int} {t u : DataType} {a b e : Expr} {m n : Int} {op : BinOp}

/-- An integer scalar in which nothing is bound has a value, and no divisor in it is 0. -/
def Attains (Γ : Context) (ρ : Valuation Int) (e : Expr) (n : Int) : Prop :=
  ∃ t : DataType, t.IsIndex ∧ Evaluates Γ [] True ρ t e n

theorem Attains.value (h : e.Attains Γ ρ n) : e.integer ρ = n := by
  obtain ⟨t, -, h⟩ := h
  exact h.value

theorem Attains.defined (h : e.Attains Γ ρ n) : e.Defined ρ := by
  obtain ⟨t, -, h⟩ := h
  exact h.defined trivial

theorem attains_int (ht : t.IsIndex) (n : Int) : (const (.int n) t).Attains Γ ρ n :=
  ⟨t, ht, evaluates_int ht n⟩

/-- A constant that is an end is an integer. -/
theorem Attains.const {x : Number} (h : (const x u).Attains Γ ρ n) : x = .int n ∧ u.IsIndex := by
  obtain ⟨t, ht, h⟩ := h
  obtain ⟨rfl, hx⟩ := h.literal
  exact ⟨hx.eq_int ht, ht⟩

theorem Attains.arith (hop : op.isLogical = false) (ha : a.Attains Γ ρ m) (hb : b.Attains Γ ρ n) (hn : op.Divides → n ≠ 0) :
    Ensures (arith op a b) (Attains Γ ρ · (op.onInts m n)) := by
  obtain ⟨t, ht, ha⟩ := ha
  obtain ⟨u, hu, hb⟩ := hb
  refine (ha.operands ht hu hb).bind fun p ⟨w, hw, hx, hy⟩ => ?_
  exact fun e he => ⟨w, hw, (hx.fold (.arith hop hw) hy fun _ => hn).ensures e he⟩

/-- An operation that is no division. -/
theorem Attains.combine (hop : op.isLogical = false) (hdiv : ¬ op.Divides) (ha : a.Attains Γ ρ m) (hb : b.Attains Γ ρ n) :
    Ensures (Expr.arith op a b) (Attains Γ ρ · (op.onInts m n)) :=
  ha.arith hop hb (absurd · hdiv)

theorem Attains.castTo (ht : t.IsIndex) (h : e.Attains Γ ρ n) : Ensures (castTo t e) (Attains Γ ρ · n) := by
  obtain ⟨u, hu, h⟩ := h
  exact fun e' he' => ⟨t, ht, (h.castTo ht hu).ensures e' he'⟩

theorem Attains.simplify (h : e.Attains Γ ρ n) : Gives e.simplify (Attains Γ ρ · n) := by
  obtain ⟨t, ht, h⟩ := h
  have hnil : e.boundVars = [] := List.eq_nil_iff_forall_not_mem.mpr fun x hx => List.not_mem_nil (h.bound x hx)
  have hsimplify := gives_simplify_evaluates (H := True) (ρ := ρ) h.typed h.defined (by rw [hnil]; exact List.nodup_nil)
    (by rw [hnil]; exact List.forall_mem_nil _)
  rw [hnil, h.value] at hsimplify
  exact hsimplify.mono fun e' he' => ⟨t, ht, he'⟩

/-! ### Arithmetic -/

/-- Arithmetic on variables, constants and choices of index types, with casts between these. Of its remainders a
    condition on the sides holds. -/
inductive Arithmetic (Γ : Context) (P : Expr → Expr → Prop) : DataType → Expr → Prop
  | var {v : Var} (hv : Γ v.id = some v.dtype) (ht : v.dtype.IsIndex) : Arithmetic Γ P v.dtype (.var v)
  | const {t : DataType} (ht : t.IsIndex) (n : Int) : Arithmetic Γ P t (.const (.int n) t)
  | cast {t u : DataType} {a : Expr} (ht : t.IsIndex) (ha : Arithmetic Γ P u a) : Arithmetic Γ P t (.cast t a)
  | bin {t : DataType} {op : BinOp} {a b : Expr} (hop : op.isLogical = false) (hmod : op = .mod → P a b)
    (ha : Arithmetic Γ P t a) (hb : Arithmetic Γ P t b) : Arithmetic Γ P t (.bin op a b)
  | select {t : DataType} {c a b : Expr} (hc : c.Typed Γ .bool) (hbound : c.boundVars = []) (ha : Arithmetic Γ P t a)
    (hb : Arithmetic Γ P t b) : Arithmetic Γ P t (.select c a b)

section Arithmetic
variable {P : Expr → Expr → Prop}

theorem Arithmetic.isIndex (h : e.Arithmetic Γ P t) : t.IsIndex := by
  induction h with
  | var _ ht | const ht | cast ht => exact ht
  | bin _ _ _ _ ih | select _ _ _ _ ih => exact ih

theorem Arithmetic.typed (h : e.Arithmetic Γ P t) : e.Typed Γ t := by
  induction h with
  | var hv ht => exact .var hv ht
  | const ht n => exact .const (.int ht n)
  | cast ht ha ih => exact .cast ht ha.isIndex ih
  | bin hop _ ha _ iha ihb => exact .bin (.arith hop ha.isIndex) iha ihb
  | select hc _ _ _ iha ihb => exact .select hc iha ihb

theorem Arithmetic.boundVars (h : e.Arithmetic Γ P t) : e.boundVars = [] := by
  induction h with
  | var | const => rfl
  | cast _ _ ih => rw [boundVars_cast, ih]
  | bin _ _ _ _ iha ihb => rw [boundVars_bin, iha, ihb, List.append_nil]
  | select _ hbound _ _ iha ihb => rw [boundVars_select, hbound, iha, ihb, List.append_nil, List.append_nil]

theorem Arithmetic.evaluates (h : e.Arithmetic Γ P t) (hd : e.Defined ρ) : Evaluates Γ [] True ρ t e (e.integer ρ) := by
  refine ⟨h.typed, ?_, rfl, fun _ => hd⟩
  rw [h.boundVars]
  exact List.forall_mem_nil _

theorem Arithmetic.attains (h : e.Arithmetic Γ P t) (hd : e.Defined ρ) : e.Attains Γ ρ (e.integer ρ) :=
  ⟨t, h.isIndex, h.evaluates hd⟩

end Arithmetic

end Expr

/-! ### Operations on intervals -/

namespace Interval
open Expr

variable {Γ : Context} {ρ : Valuation Int} {t : DataType} {a b : Interval} {e : Expr} {l h m n : Int} {op : BinOp}
  {d : Domains}

/-- The ends of an interval have values, and a number is between them. -/
structure Encloses (Γ : Context) (ρ : Valuation Int) (i : Interval) (n : Int) : Prop where
  lower : ∃ l, i.lo.Attains Γ ρ l ∧ l ≤ n
  upper : ∃ h, i.hi.Attains Γ ρ h ∧ n ≤ h

theorem encloses_point (he : e.Attains Γ ρ n) : (point e).Encloses Γ ρ n :=
  ⟨⟨n, he, le_rfl⟩, n, he, le_rfl⟩

theorem Encloses.attains (he : (point e).Encloses Γ ρ n) : e.Attains Γ ρ n := by
  obtain ⟨⟨l, hl, hln⟩, h, hh, hnh⟩ := he
  obtain rfl : l = n := by
    have hsame : l = h := hl.value.symm.trans hh.value
    omega
  exact hl

/-- What encloses a number is built of ends on both sides of it. -/
theorem ensures_span {x y : Except Error Expr} (hx : Ensures x (Attains Γ ρ · l)) (hy : Ensures y (Attains Γ ρ · h))
    (hl : l ≤ n) (hh : n ≤ h) : Ensures (do return span (← x) (← y)) (Encloses Γ ρ · n) :=
  hx.bind fun _ hlo => hy.bind fun _ hhi => ensures_ok ⟨⟨l, hlo, hl⟩, h, hhi, hh⟩

theorem ensures_some {i : Interval} (hi : i.Encloses Γ ρ n) : Ensures (.ok (some i)) (∀ i ∈ ·, i.Encloses Γ ρ n) :=
  ensures_ok fun _ hj => Option.some.inj hj ▸ hi

theorem ensures_someSpan {x y : Except Error Expr} (hx : Ensures x (Attains Γ ρ · l)) (hy : Ensures y (Attains Γ ρ · h))
    (hl : l ≤ n) (hh : n ≤ h) : Ensures (do return some (span (← x) (← y))) (∀ i ∈ ·, i.Encloses Γ ρ n) :=
  hx.bind fun _ hlo => hy.bind fun _ hhi => ensures_some ⟨⟨l, hlo, hl⟩, h, hhi, hh⟩

theorem ensures_none : Ensures (.ok none) (∀ i ∈ ·, Encloses Γ ρ i n) :=
  ensures_ok fun _ => nofun

/-! ### Products -/

/-- Ends times a constant, exchanged if it is negative. -/
theorem Encloses.scale {c : Expr} {k : Int} (ha : a.Encloses Γ ρ m) (hc : c.Attains Γ ρ k) :
    Ensures (a.scale (.int k) c) (Encloses Γ ρ · (m * k)) := by
  obtain ⟨⟨l, hlo, hl⟩, h, hhi, hh⟩ := ha
  have hmul {x : Expr} {j : Int} (hx : x.Attains Γ ρ j) : Ensures (Expr.mul x c) (Attains Γ ρ · (j * k)) :=
    hx.combine rfl (by decide) hc
  unfold Interval.scale
  rw [Number.le_int]
  split
  · have hk : 0 ≤ k := of_decide_eq_true ‹_›
    exact ensures_span (hmul hlo) (hmul hhi) (Int.mul_le_mul_of_nonneg_right hl hk) (Int.mul_le_mul_of_nonneg_right hh hk)
  · have hk : k ≤ 0 := by
      have hneg : ¬ 0 ≤ k := by simpa using ‹¬ decide (0 ≤ k) = true›
      omega
    exact ensures_span (hmul hhi) (hmul hlo) (Int.mul_le_mul_of_nonpos_right hh hk) (Int.mul_le_mul_of_nonpos_right hl hk)

/-- Widening two ends by some expressions, one after the other, gives ends around the values of all of them. -/
theorem ensures_widen {ps : List Expr} {lo hi : Expr} (hps : ∀ p ∈ ps, p.Attains Γ ρ (p.integer ρ)) (hlo : lo.Attains Γ ρ l)
    (hhi : hi.Attains Γ ρ h) : Ensures (ps.foldlM (fun (lo, hi) p => do
      let lo ← Expr.minimum lo p
      let hi ← Expr.maximum hi p
      return (lo, hi)) (lo, hi)) fun r => ∃ l' h', r.1.Attains Γ ρ l' ∧ r.2.Attains Γ ρ h' ∧ l' ≤ l ∧ h ≤ h' ∧
        ∀ p ∈ ps, l' ≤ p.integer ρ ∧ p.integer ρ ≤ h' := by
  induction ps generalizing lo hi l h with
  | nil => exact ensures_ok ⟨l, h, hlo, hhi, le_rfl, le_rfl, List.forall_mem_nil _⟩
  | cons p ps ih =>
    obtain ⟨hp, hps⟩ := List.forall_mem_cons.mp hps
    rw [List.foldlM_cons]
    refine Ensures.bind (P := fun r => r.1.Attains Γ ρ (min l (p.integer ρ)) ∧ r.2.Attains Γ ρ (max h (p.integer ρ))) ?_ ?_
    · exact (hlo.combine rfl (by decide) hp).bind fun x hx => (hhi.combine rfl (by decide) hp).bind fun y hy =>
        ensures_ok ⟨hx, hy⟩
    · rintro ⟨x, y⟩ ⟨hx, hy⟩
      refine fun r hr => ?_
      obtain ⟨l', h', hl', hh', hle, hge, hall⟩ := ih hps hx hy r hr
      refine ⟨l', h', hl', hh', by omega, by omega, List.forall_mem_cons.mpr ⟨by omega, hall⟩⟩

theorem Encloses.hull (ha : a.Encloses Γ ρ m) (hb : b.Encloses Γ ρ n) : Ensures (hull a b) (Encloses Γ ρ · (m * n)) := by
  obtain ⟨⟨a₁, ha₁, hm₁⟩, a₂, ha₂, hm₂⟩ := ha
  obtain ⟨⟨b₁, hb₁, hn₁⟩, b₂, hb₂, hn₂⟩ := hb
  have hmul {x y : Expr} {j k : Int} (hx : x.Attains Γ ρ j) (hy : y.Attains Γ ρ k) :
      Ensures (Expr.mul x y) (Attains Γ ρ · (j * k)) :=
    hx.combine rfl (by decide) hy
  unfold Interval.hull
  refine (hmul ha₁ hb₁).bind fun p₁ h₁ => (hmul ha₁ hb₂).bind fun p₂ h₂ => (hmul ha₂ hb₁).bind fun p₃ h₃ =>
    (hmul ha₂ hb₂).bind fun p₄ h₄ => ?_
  have hall : ∀ p ∈ [p₂, p₃, p₄], p.Attains Γ ρ (p.integer ρ) := by
    simp only [List.forall_mem_cons, h₂.value, h₃.value, h₄.value]
    exact ⟨h₂, h₃, h₄, List.forall_mem_nil _⟩
  refine (ensures_widen hall h₁ h₁).bind fun r ⟨l, h, hl, hh, hle, hge, hcorners⟩ => ensures_ok ?_
  simp only [List.forall_mem_cons, h₂.value, h₃.value, h₄.value] at hcorners
  obtain ⟨⟨hl₂, hh₂⟩, ⟨hl₃, hh₃⟩, ⟨hl₄, hh₄⟩, -⟩ := hcorners
  exact ⟨⟨l, hl, le_mul_of_corners hm₁ hm₂ hn₁ hn₂ hle hl₂ hl₃ hl₄⟩,
    h, hh, mul_le_of_corners hm₁ hm₂ hn₁ hn₂ hge hh₂ hh₃ hh₄⟩

/-- A product, whichever of its factors are constants or points. -/
theorem Encloses.mul (ha : a.Encloses Γ ρ m) (hb : b.Encloses Γ ρ n) : Ensures (a.mul b) (Encloses Γ ρ · (m * n)) := by
  unfold Interval.mul
  split
  · obtain ⟨rfl, -⟩ := hb.attains.const
    exact ha.scale hb.attains
  · obtain ⟨rfl, -⟩ := ha.attains.const
    rw [Int.mul_comm]
    exact hb.scale ha.attains
  · exact (ha.attains.combine rfl (by decide) hb.attains).bind fun e he => ensures_ok (encloses_point he)
  · exact ha.hull hb

/-! ### Quotients -/

theorem tdiv_le_tdiv_of_neg {k : Int} (hk : k < 0) (hmn : m ≤ n) : n.tdiv k ≤ m.tdiv k := by
  have hneg : (-n).tdiv (-k) ≤ (-m).tdiv (-k) := Int.tdiv_le_tdiv (by omega) (by omega)
  rwa [Int.neg_tdiv_neg, Int.neg_tdiv_neg] at hneg

theorem constPoint?_eq_some {v : Number} (hb : b.constPoint? = some v) : ∃ u, b = point (.const v u) := by
  unfold constPoint? at hb
  split at hb
  · cases hb
    exact ⟨_, rfl⟩
  · cases hb

theorem constValue?_eq_some {x : Number} (he : e.constValue? = some x) : ∃ u, e = .const x u := by
  unfold constValue? at he
  split at he
  · cases he
    exact ⟨_, rfl⟩
  · cases he

/-- A quotient by a constant, if it is found. -/
theorem Encloses.div? (ht : t.IsIndex) (ha : a.Encloses Γ ρ m) (hb : b.Encloses Γ ρ n) :
    Ensures (divMod? .div t a b) (∀ i ∈ ·, i.Encloses Γ ρ (m.tdiv n)) := by
  unfold divMod?
  split
  · exact ensures_none
  obtain ⟨u, rfl⟩ := constPoint?_eq_some ‹_›
  obtain ⟨rfl, -⟩ := hb.attains.const
  obtain ⟨⟨l, hlo, hl⟩, h, hhi, hh⟩ := ha
  rw [Number.truthy_int, Number.lt_int, ht.integer]
  split
  · exact ensures_none
  have hn : n ≠ 0 := by simpa using ‹¬ (!decide (n ≠ 0)) = true›
  have hdiv {x : Expr} {j : Int} (hx : x.Attains Γ ρ j) :
      Ensures (Expr.div x (point (.const (.int n) u)).lo) (Attains Γ ρ · (j.tdiv n)) :=
    hx.arith rfl hb.attains fun _ => hn
  simp only [reduceCtorEq, if_false, Bool.not_true, Bool.false_eq_true]
  split
  · have hpos : 0 < n := of_decide_eq_true ‹_›
    exact ensures_someSpan (hdiv hlo) (hdiv hhi) (Int.tdiv_le_tdiv hpos hl) (Int.tdiv_le_tdiv hpos hh)
  · have hneg : n < 0 := by
      have hle : ¬ 0 < n := by simpa using ‹¬ decide (0 < n) = true›
      omega
    exact ensures_someSpan (hdiv hhi) (hdiv hlo) (tdiv_le_tdiv_of_neg hneg hh) (tdiv_le_tdiv_of_neg hneg hl)

/-! ### Arithmetic -/

/-- An operation on numbers that are enclosed, if it is no remainder. That of a remainder is apart. -/
theorem Encloses.arith? (ht : t.IsIndex) (ha : a.Encloses Γ ρ m) (hb : b.Encloses Γ ρ n)
    (hmod : op = .mod → Ensures (divMod? .mod t a b) (∀ i ∈ ·, i.Encloses Γ ρ (m.tmod n))) :
    Ensures (arith? op t a b) (∀ i ∈ ·, i.Encloses Γ ρ (op.onInts m n)) := by
  unfold Interval.arith?
  have ⟨⟨a₁, ha₁, hm₁⟩, a₂, ha₂, hm₂⟩ := ha
  have ⟨⟨b₁, hb₁, hn₁⟩, b₂, hb₂, hn₂⟩ := hb
  cases op with
  | add =>
    exact ensures_someSpan (ha₁.combine rfl (by decide) hb₁) (ha₂.combine rfl (by decide) hb₂) (Int.add_le_add hm₁ hn₁)
      (Int.add_le_add hm₂ hn₂)
  | sub =>
    exact ensures_someSpan (ha₁.combine rfl (by decide) hb₂) (ha₂.combine rfl (by decide) hb₁) (Int.sub_le_sub hm₁ hn₂)
      (Int.sub_le_sub hm₂ hn₁)
  | mul => exact (ha.mul hb).bind fun i hi => ensures_some hi
  | min =>
    exact ensures_someSpan (ha₁.combine rfl (by decide) hb₁) (ha₂.combine rfl (by decide) hb₂)
      (min_le_min hm₁ hn₁) (min_le_min hm₂ hn₂)
  | max =>
    exact ensures_someSpan (ha₁.combine rfl (by decide) hb₁) (ha₂.combine rfl (by decide) hb₂)
      (max_le_max hm₁ hn₁) (max_le_max hm₂ hn₂)
  | div => exact ha.div? ht hb
  | mod => exact hmod rfl
  | _ => exact ensures_none

theorem Encloses.castTo (ht : t.IsIndex) (ha : a.Encloses Γ ρ n) : Ensures (a.castTo t) (Encloses Γ ρ · n) := by
  cases a with
  | point e =>
    refine (ha.attains.castTo ht).bind fun x hx => ensures_ok ?_
    split
    · exact encloses_point hx
    · exact ⟨⟨n, hx, le_rfl⟩, n, hx, le_rfl⟩
  | span lo hi =>
    obtain ⟨⟨l, hlo, hl⟩, h, hhi, hh⟩ := ha
    exact ensures_span (hlo.castTo ht) (hhi.castTo ht) hl hh

/-! ### Remainders -/

section Remainder
variable {k : Int}

theorem tmod_natAbs (m k : Int) : m.tmod k = m.tmod k.natAbs := by
  obtain hk | hk := Int.natAbs_eq k
  · rw [← hk]
  · rw [hk, Int.natAbs_neg, Int.natAbs_natCast, Int.tmod_neg]

theorem tmod_bounds (m : Int) (hk : k ≠ 0) : -((k.natAbs : Int) - 1) ≤ m.tmod k ∧ m.tmod k ≤ k.natAbs - 1 := by
  have hlt : (m.tmod k).natAbs < k.natAbs := by
    rw [Int.natAbs_tmod]
    exact Nat.mod_lt _ (Int.natAbs_pos.mpr hk)
  omega

/-- Within one period the remainders are in the order of the dividends. -/
theorem tmod_between (hk : k ≠ 0) (hpos : 0 ≤ l) (hl : l ≤ m) (hh : m ≤ h) (hperiod : l.fdiv k.natAbs = h.fdiv k.natAbs) :
    l.fmod k.natAbs ≤ m.tmod k ∧ m.tmod k ≤ h.fmod k.natAbs := by
  have hc : (0 : Int) < k.natAbs := by omega
  rw [tmod_natAbs, Int.tmod_eq_emod_of_nonneg (by omega), Int.fmod_eq_emod_of_nonneg _ hc.le,
    Int.fmod_eq_emod_of_nonneg _ hc.le]
  rw [Int.fdiv_eq_ediv_of_nonneg _ hc.le, Int.fdiv_eq_ediv_of_nonneg _ hc.le] at hperiod
  have hlow : l / k.natAbs ≤ m / k.natAbs := Int.ediv_le_ediv hc hl
  have hhigh : m / k.natAbs ≤ h / k.natAbs := Int.ediv_le_ediv hc hh
  have hquot : m / k.natAbs = l / k.natAbs := by omega
  rw [Int.emod_def, Int.emod_def, Int.emod_def, hquot, ← hperiod]
  omega

/-- The interval of a remainder by `k`, if the lower end of the dividend `m` is `lo`: its ends are constants, and they
    are around the remainder unless the lower end is no constant and the remainder is negative. -/
def Remains (t : DataType) (lo : Expr) (m k : Int) (i : Interval) : Prop :=
  ∃ l h, i = span (.const (.int l) t) (.const (.int h) t) ∧ (l ≤ m.tmod k ∧ m.tmod k ≤ h ↔ lo.isConst ∨ 0 ≤ m.tmod k)

theorem gives_mod (ht : t.IsIndex) (ha : a.Encloses Γ ρ m) (hk : k ≠ 0) :
    ∃ lo, a.lo.simplify = .ok lo ∧ Gives (a.mod (.int k) t) (Remains t lo m k) := by
  obtain ⟨⟨l, hlo, hl⟩, h, hhi, hh⟩ := ha
  obtain ⟨lo, hlorun, hlo⟩ := hlo.simplify
  obtain ⟨hi, hhirun, hhi⟩ := hhi.simplify
  refine ⟨lo, hlorun, ?_⟩
  have hends {l h : Int} (hiff : l ≤ m.tmod k ∧ m.tmod k ≤ h ↔ lo.isConst ∨ 0 ≤ m.tmod k) :
      Gives (do return span (← Expr.ofNumber (.int l) t) (← Expr.ofNumber (.int h) t)) (Remains t lo m k) := by
    rw [ofNumber_int ht, ofNumber_int ht]
    exact gives_ok ⟨l, h, rfl, hiff⟩
  have hbounds := tmod_bounds m hk
  -- All remainders of one sign, or of both if the lower end is a negative constant.
  have hrest (negative : Bool) (hneg : negative = true → lo.isConst) (hpos : negative = false → lo.isConst → 0 ≤ l) :
      Gives (do
        let low ← Expr.ofInt (if negative then -((k.natAbs : Int) - 1) else 0) t
        return span low (← Expr.ofInt (k.natAbs - 1) t)) (Remains t lo m k) := by
    cases negative with
    | true => exact hends ⟨fun _ => Or.inl (hneg rfl), fun _ => hbounds⟩
    | false =>
      refine hends ⟨fun hin => Or.inr hin.1, fun hsome => ⟨?_, hbounds.2⟩⟩
      exact hsome.elim (fun hconst => Int.tmod_nonneg k ((hpos rfl hconst).trans hl)) id
  unfold Interval.mod
  refine Gives.bind (P := (k = ·)) ⟨k, rfl, rfl⟩ ?_
  rintro _ rfl
  refine Gives.bind (P := (lo = ·)) ⟨lo, hlorun, rfl⟩ ?_
  rintro _ rfl
  refine Gives.bind (P := (hi = ·)) ⟨hi, hhirun, rfl⟩ ?_
  rintro _ rfl
  dsimp only
  split
  · rename_i x y hx hy
    obtain ⟨u, rfl⟩ := constValue?_eq_some hx
    obtain ⟨v, rfl⟩ := constValue?_eq_some hy
    obtain ⟨rfl, -⟩ := hlo.const
    obtain ⟨rfl, -⟩ := hhi.const
    have hall := hrest ((Number.int l).lt (.int 0)) (fun _ => rfl) fun hlt _ => by
      rw [Number.lt_int] at hlt
      simpa using hlt
    rw [Number.le_int]
    split
    · have hpos : 0 ≤ l := of_decide_eq_true ‹_›
      refine Gives.bind (P := (((.int (l.fdiv k.natAbs), .int (l.fmod k.natAbs)) : Number × Number) = ·)) ⟨_, rfl, rfl⟩ ?_
      rintro _ rfl
      refine Gives.bind (P := (((.int (h.fdiv k.natAbs), .int (h.fmod k.natAbs)) : Number × Number) = ·)) ⟨_, rfl, rfl⟩ ?_
      rintro _ rfl
      dsimp only
      rw [Number.eq_int]
      split
      · have hbetween := tmod_between hk hpos hl hh (of_decide_eq_true ‹_›)
        exact hends ⟨fun _ => Or.inl rfl, fun _ => hbetween⟩
      · exact hall
    · exact hall
  · cases lo with
    | const x u =>
      obtain ⟨rfl, -⟩ := hlo.const
      refine hrest ((Number.int l).lt (.int 0)) (fun _ => rfl) fun hlt _ => ?_
      rw [Number.lt_int] at hlt
      simpa using hlt
    | _ => exact hrest false nofun fun _ => nofun

end Remainder

/-! ### Expressions -/

/-- The given intervals enclose the values of their variables. -/
def Domains.Enclose (Γ : Context) (ρ : Valuation Int) (d : Domains) : Prop :=
  ∀ v i, find? d v = some i → i.Encloses Γ ρ (ρ v.id)

theorem Domains.enclose_of_mem (hd : ∀ p ∈ d, p.2.Encloses Γ ρ (ρ p.1.id)) : d.Enclose Γ ρ := by
  intro v i hfind
  obtain ⟨p, hp, rfl⟩ := Option.map_eq_some_iff.mp hfind
  have hid : p.1.id = v.id := by simpa using List.find?_some hp
  exact hid ▸ hd p (List.mem_of_find?_eq_some hp)

section Soundness
variable {P : Expr → Expr → Prop} {u v : Expr} {lo hi : Expr}

/-- The interval of an expression encloses its value, if the intervals of its remainders enclose theirs. -/
theorem ensures_ofExpr? (he : e.Arithmetic Γ P t) (hd : e.Defined ρ) (hdom : d.Enclose Γ ρ)
    (hmod : ∀ {t : DataType} {u v : Expr} {a b : Interval}, t.IsIndex → P u v →
      (Expr.bin .mod u v).usesAny (d.map (·.1.id)) = true → ofExpr? d u = .ok (some a) →
      a.Encloses Γ ρ (u.integer ρ) → b.Encloses Γ ρ (v.integer ρ) →
      Ensures (divMod? .mod t a b) (∀ i ∈ ·, i.Encloses Γ ρ ((u.integer ρ).tmod (v.integer ρ)))) :
    Ensures (ofExpr? d e) (∀ i ∈ ·, i.Encloses Γ ρ (e.integer ρ)) := by
  induction he with
  | @var v hv ht =>
    refine ensures_some ?_
    cases hfind : find? d v with
    | none => exact encloses_point ((Arithmetic.var hv ht (P := P)).attains trivial)
    | some i => exact hdom v i hfind
  | const ht n =>
    unfold ofExpr?
    split
    · exact ensures_none
    · exact ensures_some (encloses_point (attains_int ht n))
  | cast ht ha ih =>
    unfold ofExpr?
    split
    · exact ensures_some (encloses_point ((Arithmetic.cast ht ha).attains hd))
    refine (ih hd).bind fun o ho => ?_
    cases o with
    | none => exact ensures_none
    | some i => exact ((ho i rfl).castTo ht).bind fun j hj => ensures_some hj
  | @bin t op u v hop hcond ha hb iha ihb =>
    have hbin := Arithmetic.bin hop hcond ha hb
    unfold ofExpr?
    split
    · exact ensures_some (encloses_point (hbin.attains hd))
    rename_i huses
    rw [hop, hbin.typed.dtype]
    refine Ensures.bind (P := fun o => ofExpr? d u = .ok o ∧ ∀ i ∈ o, i.Encloses Γ ρ (u.integer ρ))
      (fun o ho => ⟨ho, iha hd.1 o ho⟩) fun x hx => (ihb hd.2.1).bind fun y hy => ?_
    split
    · obtain ⟨hxrun, hx⟩ := hx
      refine (hx _ rfl).arith? ha.isIndex (hy _ rfl) fun hop => ?_
      subst hop
      exact hmod ha.isIndex (hcond rfl) (by simpa using huses) hxrun (hx _ rfl) (hy _ rfl)
    · exact ensures_none
  | @select t c u v hc hbound ha hb iha ihb =>
    unfold ofExpr?
    split
    · exact ensures_some (encloses_point ((Arithmetic.select hc hbound ha hb).attains hd))
    refine (iha hd.2.1).bind fun x hx => (ihb hd.2.2).bind fun y hy => ?_
    split
    · obtain ⟨⟨l, hlo, hl⟩, h, hhi, hh⟩ := hx _ rfl
      obtain ⟨⟨l', hlo', hl'⟩, h', hhi', hh'⟩ := hy _ rfl
      have hchoice : (Expr.select c u v).integer ρ = u.integer ρ ∨ (Expr.select c u v).integer ρ = v.integer ρ := by
        rw [integer_select]
        split
        · exact Or.inr rfl
        · exact Or.inl rfl
      refine ensures_someSpan (hlo.combine rfl (by decide) hlo') (hhi.combine rfl (by decide) hhi') ?_ ?_
      · show min l l' ≤ _
        omega
      · show _ ≤ max h h'
        omega
    · exact ensures_none

/-- What is evaluated are the simplified ends of an interval that is found. -/
theorem eval?_eq_some : eval? e d = .ok (some (lo, hi)) ↔
    ∃ i, ofExpr? d e = .ok (some i) ∧ i.lo.simplify = .ok lo ∧ i.hi.simplify = .ok hi := by
  refine ⟨fun hrun => ?_, fun ⟨i, hi, hlo, hhi⟩ => ?_⟩
  · obtain ⟨o, ho, hrun⟩ := bind_eq_ok.mp hrun
    cases o with
    | none => cases hrun
    | some i =>
      obtain ⟨l, hl, hrun⟩ := bind_eq_ok.mp hrun
      obtain ⟨h, hh, hrun⟩ := bind_eq_ok.mp hrun
      cases hrun
      exact ⟨i, ho, hl, hh⟩
  · exact bind_eq_ok.mpr ⟨some i, hi, bind_eq_ok.mpr ⟨_, hlo, bind_eq_ok.mpr ⟨_, hhi, rfl⟩⟩⟩

/-- Interval evaluation is sound: the ends that it gives for arithmetic without remainders have values, wherever the given
    intervals enclose their variables and no divisor is 0, and the value of the expression is between them. -/
theorem eval?_encloses (he : e.Arithmetic Γ (fun _ _ => False) t) (hd : e.Defined ρ) (hdom : d.Enclose Γ ρ)
    (hrun : eval? e d = .ok (some (lo, hi))) :
    (lo.Defined ρ ∧ lo.integer ρ ≤ e.integer ρ) ∧ hi.Defined ρ ∧ e.integer ρ ≤ hi.integer ρ := by
  obtain ⟨i, hirun, hlorun, hhirun⟩ := eval?_eq_some.mp hrun
  obtain ⟨⟨l, hl, hle⟩, h, hh, hge⟩ := ensures_ofExpr? he hd hdom (fun _ hfalse => hfalse.elim) _ hirun i rfl
  have hl := hl.simplify.ensures _ hlorun
  have hh := hh.simplify.ensures _ hhirun
  exact ⟨⟨hl.defined, hl.value ▸ hle⟩, hh.defined, hh.value ▸ hge⟩

namespace Sample

def x : Var := ⟨0, "x", .int32⟩

def y : Var := ⟨1, "y", .int32⟩

def p : Var := ⟨2, "p", .int32⟩

def q : Var := ⟨3, "q", .int32⟩

/-- `x` is between -2 and `p`, and `y` between `q` and 3. -/
def domains : Domains :=
  [(x, span (int32 (-2)) (.var p)), (y, span (.var q) (int32 3))]

/-- A valuation of `x`, `y`, `p` and `q`. -/
def valuation : Valuation Int := fun v => [3, -4, 4, -5].getD v 0

/-- The quotient by -2 of a product of two factors of any sign. -/
def quotient : Expr := .bin .div (.bin .mul (.var x) (.var y)) (int32 (-2))

theorem attains_var {v : Var} (hv : v.dtype = .int32) (ρ : Valuation Int) :
    (Expr.var v).Attains (fun _ => some .int32) ρ (ρ v.id) := by
  have ht : v.dtype.IsIndex := hv ▸ ⟨rfl, rfl⟩
  exact ⟨v.dtype, ht, .var (congrArg some hv.symm) ht, nofun, rfl, fun _ => trivial⟩

theorem isIndex_int32 : DataType.int32.IsIndex := ⟨rfl, rfl⟩

theorem quotient_encloses : ∃ lo hi, eval? quotient domains = .ok (some (lo, hi)) ∧
    (lo.Defined valuation ∧ lo.integer valuation ≤ 6) ∧ hi.Defined valuation ∧ 6 ≤ hi.integer valuation := by
  have hint := isIndex_int32
  have harith : quotient.Arithmetic (fun _ => some .int32) (fun _ _ => False) .int32 :=
    .bin rfl nofun (.bin rfl nofun (.var (v := x) rfl hint) (.var (v := y) rfl hint)) (.const hint (-2))
  have hdom : domains.Enclose (fun _ => some .int32) valuation := by
    refine Domains.enclose_of_mem (List.forall_mem_cons.mpr ⟨?_, List.forall_mem_singleton.mpr ?_⟩)
    · exact ⟨⟨-2, attains_int hint (-2), by decide⟩, 4, attains_var rfl _, by decide⟩
    · exact ⟨⟨-5, attains_var rfl _, by decide⟩, 3, attains_int hint 3, by decide⟩
  have hd : quotient.Defined valuation := ⟨⟨trivial, trivial, nofun⟩, trivial, fun _ => by decide⟩
  obtain ⟨lo, hi, hrun⟩ : ∃ lo hi, eval? quotient domains = .ok (some (lo, hi)) := ⟨_, _, by with_unfolding_all rfl⟩
  exact ⟨lo, hi, hrun, eval?_encloses harith hd hdom hrun⟩

end Sample

/-! ### Remainders of expressions -/

/-- A remainder whose interval encloses it: no variable with a given interval is used, or the lower end of the dividend is a
    constant, or the remainder is not negative. -/
def Settled (d : Domains) (ρ : Valuation Int) (u v : Expr) : Prop :=
  (Expr.bin .mod u v).usesAny (d.map (·.1.id)) = false ∨ (∃ lo hi, eval? u d = .ok (some (lo, hi)) ∧ lo.isConst) ∨
    0 ≤ (u.integer ρ).tmod (v.integer ρ)

/-- The lower end of an interval that is found is that of the evaluation. -/
theorem Settled.remains (hsettled : Settled d ρ u v) (huses : (Expr.bin .mod u v).usesAny (d.map (·.1.id)) = true)
    (hrun : ofExpr? d u = .ok (some a)) (hlo : a.lo.simplify = .ok lo) :
    lo.isConst ∨ 0 ≤ (u.integer ρ).tmod (v.integer ρ) := by
  obtain hunused | ⟨lo', hi', hevaluates, hconst⟩ | hpos := hsettled
  · rw [huses] at hunused
    cases hunused
  · obtain ⟨i, hi, hlo', -⟩ := eval?_eq_some.mp hevaluates
    obtain rfl := Option.some.inj (Except.ok.inj (hrun.symm.trans hi))
    obtain rfl := Except.ok.inj (hlo.symm.trans hlo')
    exact Or.inl hconst
  · exact Or.inr hpos

theorem Remains.encloses {k : Int} {i : Interval} (ht : t.IsIndex) (hi : Remains t lo m k i)
    (hsettled : lo.isConst ∨ 0 ≤ m.tmod k) :
    i.Encloses Γ ρ (m.tmod k) := by
  obtain ⟨l, h, rfl, hiff⟩ := hi
  obtain ⟨hl, hh⟩ := hiff.mpr hsettled
  exact ⟨⟨l, attains_int ht l, hl⟩, h, attains_int ht h, hh⟩

theorem divMod?_mod {c : Int} {w : DataType} (hc : c ≠ 0) :
    divMod? .mod t a (point (.const (.int c) w)) = a.mod (.int c) t >>= fun i => .ok (some i) := by
  unfold divMod?
  simp only [constPoint?, Number.truthy_int, hc, ne_eq, not_false_eq_true, decide_true, Bool.not_true, Bool.false_eq_true,
    if_false,
    if_true]
  rfl

/-- A remainder by a constant, if it is found and settled. -/
theorem Encloses.mod? (ht : t.IsIndex) (hsettled : Settled d ρ u v)
    (huses : (Expr.bin .mod u v).usesAny (d.map (·.1.id)) = true)
    (hrun : ofExpr? d u = .ok (some a)) (ha : a.Encloses Γ ρ (u.integer ρ)) (hb : b.Encloses Γ ρ (v.integer ρ)) :
    Ensures (divMod? .mod t a b) (∀ i ∈ ·, i.Encloses Γ ρ ((u.integer ρ).tmod (v.integer ρ))) := by
  unfold divMod?
  split
  · exact ensures_none
  obtain ⟨w, rfl⟩ := constPoint?_eq_some ‹_›
  obtain ⟨rfl, -⟩ := hb.attains.const
  rw [Number.truthy_int]
  split
  · exact ensures_none
  have hne : v.integer ρ ≠ 0 := by simpa using ‹¬ (!decide (v.integer ρ ≠ 0)) = true›
  obtain ⟨lo, hlo, hremains⟩ := gives_mod ht ha hne
  exact hremains.ensures.bind fun i hi => ensures_some (hi.encloses ht (hsettled.remains huses hrun hlo))

/-- The interval of a remainder by a constant is found with that of its dividend, and it encloses the remainder just if this
    is settled: a dividend whose lower end is symbolic counts as one that is not negative. -/
theorem eval?_mod_iff {c : Int} (ha : u.Arithmetic Γ (Settled d ρ) t) (hd : u.Defined ρ) (hdom : d.Enclose Γ ρ) (hc : c ≠ 0)
    (hrun : eval? u d = .ok (some (lo, hi))) :
    ∃ lo' hi', eval? (.bin .mod u (.const (.int c) t)) d = .ok (some (lo', hi')) ∧ lo'.Defined ρ ∧ hi'.Defined ρ ∧
      (lo'.integer ρ ≤ (u.integer ρ).tmod c ∧ (u.integer ρ).tmod c ≤ hi'.integer ρ ↔
        Settled d ρ u (.const (.int c) t)) := by
  obtain ⟨a, harun, hlorun, hhirun⟩ := eval?_eq_some.mp hrun
  have henc : a.Encloses Γ ρ (u.integer ρ) :=
    ensures_ofExpr? ha hd hdom (fun ht hsettled huses hrun hx hy => hx.mod? ht hsettled huses hrun hy) _ harun a rfl
  have ht := ha.isIndex
  let e : Expr := .bin .mod u (.const (.int c) t)
  cases huses : e.usesAny (d.map (·.1.id)) with
  | false =>
    have he : e.Attains Γ ρ ((u.integer ρ).tmod c) :=
      ⟨t, ht, (ha.evaluates hd).bin (.arith rfl ht) (evaluates_int ht c) fun _ _ => hc⟩
    have hpoint : ofExpr? d e = .ok (some (point e)) := by
      unfold e ofExpr?
      rw [huses]
      rfl
    obtain ⟨e', he', hattains⟩ := he.simplify
    refine ⟨e', e', eval?_eq_some.mpr ⟨_, hpoint, he', he'⟩, hattains.defined, hattains.defined, ?_⟩
    rw [hattains.value]
    exact ⟨fun _ => Or.inl huses, fun _ => ⟨le_rfl, le_rfl⟩⟩
  | true =>
    obtain ⟨lo', hlo', i, hi, l, h, rfl, hiff⟩ := gives_mod ht henc hc
    obtain rfl := Except.ok.inj (hlorun.symm.trans hlo')
    have hspan : ofExpr? d e = .ok (some (span (.const (.int l) t) (.const (.int h) t))) := by
      have hdtype : e.dtype = t := ha.typed.dtype
      unfold e ofExpr?
      rw [huses, harun, hdtype]
      show divMod? .mod t a (point (.const (.int c) t)) = _
      rw [divMod?_mod hc, hi]
      rfl
    refine ⟨.const (.int l) t, .const (.int h) t, eval?_eq_some.mpr ⟨_, hspan, rfl, rfl⟩, trivial, trivial, hiff.trans ?_⟩
    exact ⟨fun hsome => Or.inr (hsome.imp_left fun hconst => ⟨_, _, hrun, hconst⟩),
      fun hsettled => hsettled.remains huses harun hlorun⟩

namespace Sample

/-- `x` is between `q` and `q + 3`. -/
def window : Domains := [(x, span (.var q) (.bin .add (.var q) (int32 3)))]

/-- `x` and `q` are -3. -/
def below : Valuation Int := fun _ => -3

/-- Where `q` is negative, so is the remainder of `x`, which is outside of its interval then. -/
theorem remainder_outside : ∃ lo hi, eval? (.bin .mod (.var x) (int32 4)) window = .ok (some (lo, hi)) ∧
    ¬ (lo.integer below ≤ -3 ∧ -3 ≤ hi.integer below) := by
  have hint := isIndex_int32
  have hx : (Expr.var x).Arithmetic (fun _ => some .int32) (Settled window below) .int32 := .var (v := x) rfl hint
  have hq : (Expr.var q).Arithmetic (fun _ => some .int32) (Settled window below) .int32 := .var (v := q) rfl hint
  have hdom : window.Enclose (fun _ => some .int32) below := by
    have hend : (Expr.bin .add (.var q) (int32 3)).Arithmetic (fun _ => some .int32) (Settled window below) .int32 :=
      .bin rfl nofun hq (.const hint 3)
    exact Domains.enclose_of_mem (List.forall_mem_singleton.mpr
      ⟨⟨-3, hq.attains trivial, by decide⟩, 0, hend.attains ⟨trivial, trivial, nofun⟩, by decide⟩)
  have hrun : eval? (.var x) window = .ok (some (.var q, .bin .add (.var q) (int32 3))) := rfl
  obtain ⟨lo, hi, hmod, -, -, hiff⟩ := eval?_mod_iff (c := 4) hx trivial hdom (by decide) hrun
  refine ⟨lo, hi, hmod, fun henclosed => ?_⟩
  obtain hunused | ⟨lo', hi', hrun', hconst⟩ | hpos := hiff.mp henclosed
  · revert hunused
    decide
  · rw [hrun] at hrun'
    cases hrun'
    cases hconst
  · revert hpos
    decide

end Sample

end Soundness

end Interval

end TensorNest

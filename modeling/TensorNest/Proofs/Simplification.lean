import Mathlib.Tactic.Ring
import TensorNest.Proofs.Integers

/-! # Simplification keeps values

Simplification brings sums and products to linear form, divides linear forms exactly, decides comparisons by
constant differences, folds constants and carries out bindings. Each rule takes expressions that evaluate to
numbers to one that evaluates to the result (`Linear.Evaluates`, `Expr.gives_binRule?_evaluates`). So by induction
on the expression the simplified expression has the value of the expression under every valuation under
which no divisor is 0 (`Expr.simplify_sound`). -/

namespace TensorNest
open Expr

/-! ### Linear forms -/

namespace Linear

variable {Γ : Context} {B : List Nat} {H : Prop} {ρ : Valuation Int} {t : DataType} {l r : Linear} {e : Expr} {m n d : Int}

section Total
variable {f : Expr → Int} {ts us : List (Expr × Int)}

/-- The sum of some terms, given a value for each atom. -/
def total (f : Expr → Int) (ts : List (Expr × Int)) : Int :=
  (ts.map fun p => p.2 * f p.1).sum

@[simp] theorem total_nil : total f [] = 0 := rfl

@[simp] theorem total_cons {p : Expr × Int} : total f (p :: ts) = p.2 * f p.1 + total f ts := rfl

/-- Adding a multiple of an atom adds to the sum, if an earlier atom that is the same has the same value. -/
theorem total_addTerm (h : ∀ p ∈ ts, p.1.same e → f p.1 = f e) (k : Int) :
    total f (addTerm e k ts) = total f ts + k * f e := by
  induction ts with
  | nil => simp [addTerm]
  | cons p ts ih =>
    obtain ⟨hp, hts⟩ := List.forall_mem_cons.mp h
    unfold addTerm
    split
    · rw [total_cons, total_cons, ← hp ‹_›]
      ring
    · rw [total_cons, total_cons, ih hts]
      ring

theorem total_addTerms (h : ∀ p ∈ us ++ ts, ∀ q ∈ ts, p.1.same q.1 → f p.1 = f q.1) (k : Int) :
    total f (ts.foldl (fun us q => addTerm q.1 (k * q.2) us) us) = total f us + k * total f ts := by
  induction ts generalizing us with
  | nil => simp
  | cons q ts ih =>
    have hnext : ∀ p ∈ addTerm q.1 (k * q.2) us ++ ts, ∀ r ∈ ts, p.1.same r.1 → f p.1 = f r.1 := by
      intro p hp r hr
      obtain hp | hp := List.mem_append.mp hp
      · obtain heq | ⟨q', hq', heq⟩ := mem_addTerm hp
        · exact heq ▸ h q (by simp) r (by simp [hr])
        · exact heq ▸ h q' (by simp [hq']) r (by simp [hr])
      · exact h p (by simp [hp]) r (by simp [hr])
    rw [List.foldl_cons, ih hnext, total_addTerm fun p hp => h p (by simp [hp]) q (by simp), total_cons]
    ring

theorem total_scale (k : Int) : total f (ts.map fun p => (p.1, p.2 * k)) = total f ts * k := by
  induction ts with
  | nil => simp
  | cons p ts ih =>
    rw [List.map_cons, total_cons, total_cons, ih]
    ring

end Total

/-- The sum of the terms of a linear form. -/
def sum (ts : List (Expr × Int)) (ρ : Valuation Int) : Int :=
  (ts.map fun p => p.2 * p.1.integer ρ).sum

/-- The value of a linear form. -/
def integer (l : Linear) (ρ : Valuation Int) : Int :=
  sum l.terms ρ + l.const

@[simp] theorem sum_nil : sum [] ρ = 0 := rfl

@[simp] theorem sum_cons {p : Expr × Int} {ts : List (Expr × Int)} :
    sum (p :: ts) ρ = p.2 * p.1.integer ρ + sum ts ρ := rfl

/-- An expression that can be an atom of a linear form: it is of the type of the form, and no divisor in it is 0. -/
structure Atom (Γ : Context) (B : List Nat) (H : Prop) (ρ : Valuation Int) (t : DataType) (e : Expr) : Prop where
  typed : e.Typed Γ t
  bound : ∀ x ∈ e.boundVars, x ∈ B
  defined : H → e.Defined ρ

/-- A linear form over atoms of a type evaluates to a number. -/
structure Evaluates (Γ : Context) (B : List Nat) (H : Prop) (ρ : Valuation Int) (t : DataType) (l : Linear) (n : Int) :
    Prop where
  atoms : l.All (Atom Γ B H ρ t)
  value : l.integer ρ = n

theorem evaluates_atom (he : Expr.Evaluates Γ B H ρ t e n) : Evaluates Γ B H ρ t (atom e) n where
  atoms := all_atom ⟨he.typed, he.bound, he.defined⟩
  value := by simp [integer, atom, he.value]

theorem sum_addTerms {ls rs : List (Expr × Int)} (hls : ∀ p ∈ ls, Atom Γ B H ρ t p.1) (hrs : ∀ p ∈ rs, Atom Γ B H ρ t p.1)
    (k : Int) : sum (rs.foldl (fun ts q => addTerm q.1 (k * q.2) ts) ls) ρ = sum ls ρ + k * sum rs ρ :=
  total_addTerms (f := (·.integer ρ)) (fun p hp q hq hsame =>
    ((List.mem_append.mp hp).elim (hls p) (hrs p)).typed.integer_eq_of_same (hrs q hq).typed hsame ρ) k

theorem Evaluates.addScaled (hl : Evaluates Γ B H ρ t l m) (hr : Evaluates Γ B H ρ t r n) (k : Int) :
    Evaluates Γ B H ρ t (l.addScaled k r) (m + k * n) where
  atoms := hl.atoms.addScaled hr.atoms k
  value := by
    rw [← hl.value, ← hr.value]
    show sum (r.terms.foldl _ l.terms) ρ + (l.const + k * r.const) = sum l.terms ρ + l.const + k * (sum r.terms ρ + r.const)
    rw [sum_addTerms hl.atoms hr.atoms]
    ring

theorem Evaluates.scale (hl : Evaluates Γ B H ρ t l m) (k : Int) : Evaluates Γ B H ρ t (l.scale k) (m * k) where
  atoms := hl.atoms.scale k
  value := by
    have hsum : sum (l.terms.map fun p => (p.1, p.2 * k)) ρ = sum l.terms ρ * k := total_scale (f := (·.integer ρ)) k
    show sum (l.terms.map _) ρ + l.const * k = m * k
    rw [hsum, ← hl.value, integer, Int.add_mul]

/-- The quotient of a linear form by a number that divides it evaluates to the exact quotient. -/
theorem Evaluates.quotient (hl : Evaluates Γ B H ρ t l m) (hd : l.divisibleBy d) :
    ∃ q, m = d * q ∧ Evaluates Γ B H ρ t (l.quotient d) q := by
  simp only [divisibleBy, Bool.and_eq_true, beq_iff_eq, List.all_eq_true] at hd
  refine ⟨(l.quotient d).integer ρ, ?_, hl.atoms.quotient d, rfl⟩
  have hsum : ∀ ts : List (Expr × Int), (∀ p ∈ ts, p.2 % d = 0) →
      sum ts ρ = d * sum (ts.map fun p => (p.1, p.2 / d)) ρ := by
    intro ts hts
    induction ts with
    | nil => simp
    | cons p ts ih =>
      obtain ⟨hp, hts⟩ := List.forall_mem_cons.mp hts
      rw [List.map_cons, sum_cons, sum_cons, ih hts, Int.mul_add, ← Int.mul_assoc,
        Int.mul_ediv_cancel' (Int.dvd_of_emod_eq_zero hp)]
  rw [← hl.value]
  show sum l.terms ρ + l.const = d * (sum (l.terms.map _) ρ + l.const / d)
  rw [hsum l.terms hd.2, Int.mul_add, Int.mul_ediv_cancel' (Int.dvd_of_emod_eq_zero hd.1)]

/-- A linear form without atoms evaluates to its constant. -/
theorem Evaluates.const_eq (hl : Evaluates Γ B H ρ t l m) (hconst : l.isConst) : l.const = m := by
  have hsum : ∀ ts : List (Expr × Int), (∀ p ∈ ts, p.2 = 0) → sum ts ρ = 0 := by
    intro ts hts
    induction ts with
    | nil => rfl
    | cons p ts ih =>
      obtain ⟨hp, hts⟩ := List.forall_mem_cons.mp hts
      rw [sum_cons, hp, ih hts]
      omega
  rw [← hl.value, integer, hsum l.terms (by simpa [isConst] using hconst), Int.zero_add]

/-- The linear form of an expression evaluates to what the expression evaluates to. -/
theorem gives_ofExpr_evaluates (ht : t.IsIndex) (he : Expr.Evaluates Γ B H ρ t e n) :
    Gives (ofExpr e) (Evaluates Γ B H ρ t · n) := by
  induction e generalizing n with
  | const x u =>
    obtain ⟨rfl, hx⟩ := he.literal
    obtain rfl := hx.eq_int ht
    exact ⟨_, rfl, List.forall_mem_nil _, by simp [integer, ofConst]⟩
  | bin op a b iha ihb =>
    obtain ⟨k, m, ha, hb, rfl⟩ := he.sides ht
    cases op with
    | add =>
      refine (iha ha).bind fun l hl => (ihb hb).bind fun r hr => gives_ok ?_
      have hsum := hl.addScaled hr 1
      rwa [Int.one_mul] at hsum
    | sub =>
      refine (iha ha).bind fun l hl => (ihb hb).bind fun r hr => gives_ok ?_
      have hdiff := hl.addScaled hr (-1)
      rwa [Int.neg_one_mul, ← Int.sub_eq_add_neg] at hdiff
    | mul =>
      unfold ofExpr
      split
      · obtain rfl := hb.literal.2.eq_int ht
        exact (iha ha).bind fun l hl => gives_ok (hl.scale m)
      · obtain rfl := ha.literal.2.eq_int ht
        refine (ihb hb).bind fun l hl => gives_ok ?_
        rw [show BinOp.mul.onInts k m = m * k from Int.mul_comm k m]
        exact hl.scale k
      · exact gives_ok (evaluates_atom he)
    | _ => exact gives_ok (evaluates_atom he)
  | _ => exact gives_ok (evaluates_atom he)

section Writing

/-- The sum of the terms written so far; nothing is written for 0. -/
def Written (Γ : Context) (B : List Nat) (H : Prop) (ρ : Valuation Int) (t : DataType) (o : Option Expr) (n : Int) :
    Prop :=
  match o with
  | none => n = 0
  | some e => Expr.Evaluates Γ B H ρ t e n

variable (ht : t.IsIndex)
include ht

theorem gives_ofInt_evaluates (n : Int) : Gives (ofInt n t) (Expr.Evaluates Γ B H ρ t · n) :=
  ⟨_, ofNumber_int ht n, evaluates_int ht n⟩

theorem evaluates_arith {op : BinOp} (hop : op.isLogical = false) (hdiv : ¬ op.Divides) {a b : Expr}
    (ha : Expr.Evaluates Γ B H ρ t a m) (hb : Expr.Evaluates Γ B H ρ t b n) :
    Expr.Evaluates Γ B H ρ t (.bin op a b) (op.onInts m n) :=
  ha.bin (.arith hop ht) hb fun _ h => absurd h hdiv

/-- A term is written with the magnitude of its coefficient. -/
theorem gives_termExpr_evaluates (he : Expr.Evaluates Γ B H ρ t e n) (k : Int) :
    Gives (termExpr t e k) (Expr.Evaluates Γ B H ρ t · (n * k.natAbs)) := by
  unfold termExpr
  split
  · rw [‹k.natAbs = 1›]
    exact gives_ok (by simpa using he)
  · exact (gives_ofInt_evaluates ht _).bind fun c hc => gives_ok (evaluates_arith ht rfl (by decide) he hc)

/-- Terms are added to the sum written so far. -/
theorem gives_sumTerms_evaluates {ts : List (Expr × Int)} (hts : ∀ p ∈ ts, Atom Γ B H ρ t p.1) {acc : Option Expr}
    (hacc : Written Γ B H ρ t acc n) : Gives (sumTerms t acc ts) (Written Γ B H ρ t · (n + sum ts ρ)) := by
  induction ts generalizing acc n with
  | nil =>
    rw [sum_nil, Int.add_zero]
    exact gives_ok hacc
  | cons p ts ih =>
    obtain ⟨e, k⟩ := p
    obtain ⟨he, hts⟩ := List.forall_mem_cons.mp hts
    have he : Expr.Evaluates Γ B H ρ t e (e.integer ρ) := ⟨he.typed, he.bound, rfl, he.defined⟩
    rw [sum_cons, ← Int.add_assoc]
    -- Whatever is written next evaluates to the sum so far and the term.
    have hnext : ∀ {s : Expr} {x : Int}, Expr.Evaluates Γ B H ρ t s x → x = n + k * e.integer ρ →
        Gives (sumTerms t (some s) ts) (Written Γ B H ρ t · (n + k * e.integer ρ + sum ts ρ)) :=
      fun {s x} hs hx => ih hts (show Expr.Evaluates Γ B H ρ t s _ from hx ▸ hs)
    unfold sumTerms
    split
    · rw [‹k = 0›, Int.zero_mul, Int.add_zero]
      exact ih hts hacc
    refine (gives_termExpr_evaluates ht he k).bind fun term hterm => ?_
    cases acc with
    | none =>
      obtain rfl : n = 0 := hacc
      simp only
      split
      · refine hnext hterm ?_
        rw [Int.natAbs_of_nonneg (by omega)]
        ring
      · refine (gives_ofInt_evaluates ht k).bind fun c hc => hnext (evaluates_arith ht rfl (by decide) he hc) ?_
        show e.integer ρ * k = 0 + k * e.integer ρ
        ring
    | some s =>
      simp only
      split
      · refine hnext (evaluates_arith ht rfl (by decide) hacc hterm) ?_
        rw [Int.natAbs_of_nonneg (by omega)]
        show n + e.integer ρ * k = n + k * e.integer ρ
        ring
      · refine hnext (evaluates_arith ht rfl (by decide) hacc hterm) ?_
        rw [Int.ofNat_natAbs_of_nonpos (by omega)]
        show n - e.integer ρ * -k = n + k * e.integer ρ
        ring

theorem gives_toExpr_evaluates (hl : Evaluates Γ B H ρ t l n) : Gives (l.toExpr t) (Expr.Evaluates Γ B H ρ t · n) := by
  have hvalue : 0 + sum l.terms ρ + l.const = n := by rw [Int.zero_add, ← hl.value, integer]
  have hnone : Written Γ B H ρ t none 0 := rfl
  unfold toExpr
  refine (gives_sumTerms_evaluates ht hl.atoms hnone).bind fun o ho => ?_
  generalize 0 + sum l.terms ρ = x at ho hvalue
  obtain rfl := hvalue
  cases o with
  | none =>
    obtain rfl : x = 0 := ho
    rw [Int.zero_add]
    exact gives_ofInt_evaluates ht l.const
  | some s =>
    simp only
    split
    · exact (gives_ofInt_evaluates ht l.const).bind fun c hc => gives_ok (evaluates_arith ht rfl (by decide) ho hc)
    split
    · refine Gives.bind (P := (Expr.Evaluates Γ B H ρ t · (-l.const))) (gives_ofInt_evaluates ht _) fun c hc => gives_ok ?_
      have hsub : Expr.Evaluates Γ B H ρ t (.bin .sub s c) (x - -l.const) := evaluates_arith ht rfl (by decide) ho hc
      rwa [Int.sub_neg] at hsub
    · rw [show l.const = 0 by omega, Int.add_zero]
      exact gives_ok ho

end Writing

end Linear

/-! ### Rules -/

namespace Expr

variable {Γ : Context} {B : List Nat} {H : Prop} {ρ : Valuation Int} {t u : DataType} {a b : Expr} {m n : Int} {op : BinOp}

/-- The difference of two sides is found only if they are integers and it is a constant. -/
theorem gives_constDiff?_evaluates (ha : Evaluates Γ B H ρ t a m) (hb : Evaluates Γ B H ρ t b n) :
    Gives (constDiff? a b) (∀ d ∈ ·, m - n = d) := by
  unfold constDiff?
  rw [isIntScalar, isIntScalar, ha.dtype, hb.dtype]
  obtain ht | rfl := ha.typed.kind
  · rw [ht.integer, ht.scalar]
    have hdiff : Evaluates Γ B H ρ t (.bin .sub a b) (m - n) := Linear.evaluates_arith ht rfl (by decide) ha hb
    refine (Linear.gives_ofExpr_evaluates ht hdiff).bind fun l hl => gives_ok ?_
    split
    · exact fun d hd => (hl.const_eq ‹_›).symm.trans (Option.some.inj hd)
    · exact fun _ => nofun
  · exact gives_ok fun _ => nofun

/-- A linear form is divided exactly by a positive constant that divides it. -/
theorem gives_divMod?_evaluates (ht : t.IsIndex) (hop : op.Divides) (ha : Evaluates Γ B H ρ t a m)
    (hb : Evaluates Γ B H ρ t b n) :
    Gives (divMod? op a b) (∀ e ∈ ·, Evaluates Γ B H ρ t e (op.onInts m n)) := by
  have hsome : ∀ {e : Expr} {k : Int}, Evaluates Γ B H ρ t e k → op.onInts m n = k →
      ∀ e' ∈ some e, Evaluates Γ B H ρ t e' (op.onInts m n) := by
    rintro e k he rfl e' he'
    exact Option.some.inj he' ▸ he
  unfold divMod?
  split
  · obtain ⟨rfl, hx⟩ := hb.literal
    rw [hx.le (.int ht 0)]
    obtain rfl := hx.eq_int ht
    split
    · exact gives_ok fun _ => nofun
    have hpos : n ≠ 0 := by
      rintro rfl
      simp at *
    refine Gives.bind (P := (n = ·)) ⟨n, rfl, rfl⟩ ?_
    rintro _ rfl
    rw [ha.dtype]
    have hzero := Linear.gives_ofInt_evaluates (Γ := Γ) (B := B) (H := H) (ρ := ρ) ht 0
    split
    · obtain rfl : n = 1 := ‹_›
      obtain rfl | rfl := hop
      · exact gives_ok (hsome ha (Int.tdiv_one m))
      · exact hzero.bind fun z hz => gives_ok (hsome hz (Int.tmod_one m))
    refine (Linear.gives_ofExpr_evaluates ht ha).bind fun l hl => ?_
    split
    · exact gives_ok fun _ => nofun
    obtain ⟨q, rfl, hq⟩ := hl.quotient (by simpa using ‹¬ (!_) = true›)
    obtain rfl | rfl := hop
    · exact (Linear.gives_toExpr_evaluates ht hq).bind fun e he => gives_ok (hsome he (Int.mul_tdiv_cancel_left q hpos))
    · exact hzero.bind fun z hz => gives_ok (hsome hz (Int.mul_tmod_right n q))
  · exact gives_ok fun _ => nofun

theorem gives_binRule?_evaluates (hop : op.Maps t u) (ha : Evaluates Γ B H ρ t a m) (hb : Evaluates Γ B H ρ t b n) :
    Gives (binRule? op u a b) (∀ e ∈ ·, Evaluates Γ B H ρ u e (op.onInts m n)) := by
  have hsome : ∀ {e : Expr} {k : Int}, Evaluates Γ B H ρ u e k → op.onInts m n = k →
      ∀ e' ∈ some e, Evaluates Γ B H ρ u e' (op.onInts m n) := by
    rintro e k he rfl e' he'
    exact Option.some.inj he' ▸ he
  have heq (h : a.same b) : m = n := by
    rw [← ha.value, ← hb.value, ha.typed.integer_eq_of_same hb.typed h]
  unfold binRule?
  cases hop with
  | arith hop ht =>
    rw [ht.integer, ht.scalar]
    have hlinear : ¬ op.Divides → Gives (do return some (← (← Linear.ofExpr (.bin op a b)).toExpr t))
        (∀ e ∈ ·, Evaluates Γ B H ρ t e (op.onInts m n)) := fun hdiv =>
      (Linear.gives_ofExpr_evaluates ht (Linear.evaluates_arith ht hop hdiv ha hb)).bind fun l hl =>
        (Linear.gives_toExpr_evaluates ht hl).bind fun e he => gives_ok (hsome he rfl)
    cases op with
    | add | sub | mul => exact hlinear (by decide)
    | div => exact gives_divMod?_evaluates ht (Or.inl rfl) ha hb
    | mod => exact gives_divMod?_evaluates ht (Or.inr rfl) ha hb
    | min | max =>
      -- A constant difference decides which side it is; else only two equal sides are one.
      refine (gives_constDiff?_evaluates ha hb).bind fun d hd => ?_
      cases d with
      | some d =>
        have hdiff := hd d rfl
        refine gives_ok ?_
        simp only [reduceIte, reduceCtorEq]
        split
        · exact hsome ha (by simp only [BinOp.onInts]; omega)
        · exact hsome hb (by simp only [BinOp.onInts]; omega)
      | none =>
        refine gives_ok ?_
        split
        · have := heq ‹_›
          exact hsome ha (by simp only [BinOp.onInts]; omega)
        · exact fun _ => nofun
    | _ => cases hop
  | compare hop =>
    cases op with
    | eq | ne | lt | le | gt | ge =>
      refine (gives_constDiff?_evaluates ha hb).bind fun d hd => ?_
      cases d with
      | some d => exact gives_ok (hsome (evaluates_bool _) (by rw [BinOp.onInts_of_isComparison hop, hd d rfl]))
      | none => exact gives_ok fun _ => nofun
    | _ => cases hop
  | and | or => exact gives_ok fun _ => nofun

theorem gives_simplifyBin_evaluates {x y : Revised Expr} (hop : op.Maps t u) (hx : Evaluates Γ B H ρ t x.term m)
    (hy : Evaluates Γ B H ρ t y.term n) (hn : H → op.Divides → n ≠ 0) :
    Gives (simplifyBin op u x y) (Evaluates Γ B H ρ u ·.term (op.onInts m n)) := by
  unfold simplifyBin
  refine (gives_binRule?_evaluates hop hx hy).bind fun o ho => ?_
  cases o with
  | some e => exact gives_ok (ho e rfl)
  | none =>
    simp only
    split
    · exact gives_ok (hx.bin hop hy hn)
    · exact (hx.binary hop hy hn).bind fun e he => gives_ok he

/-- A mark of likelihood is kept or removed. -/
theorem evaluates_simplifyCall {c : Expr} (hc : Evaluates Γ B H ρ .bool c n) (changed : Bool) :
    Evaluates Γ B H ρ .bool (simplifyCall (.call .bool "likely" [c] .pureIntrinsic none 0) changed).term n := by
  unfold simplifyCall
  split
  · cases ‹Expr.call .. = _›
    exact hc
  · exact hc.likely

/-! ### Simplification -/

section Substituting
variable {Γ Δ : Context} {B : List Nat} {H : Prop} {ρ σ : Valuation Int} {s : Subst} {t : DataType} {e : Expr} {v : Var}
  {n : Int}

/-- What is put for a variable; the variable itself if nothing is. -/
def put (s : Subst) (v : Var) : Expr :=
  (s.find? v).getD (.var v)

/-- A substitution puts leaves for the variables of a context `Γ`, which denote the values of the variables
    under `σ` in terms of a context `Δ` and a valuation `ρ` of its variables. -/
def Carries (s : Subst) (Γ Δ : Context) (B : List Nat) (H : Prop) (ρ σ : Valuation Int) : Prop :=
  ∀ v : Var, Γ v.id = some v.dtype → v.dtype.IsIndex →
    (put s v).isLeaf ∧ Evaluates Δ B H ρ v.dtype (put s v) (σ v.id)

theorem carries_nil : Carries [] Γ Γ B H ρ ρ := fun _ hv ht =>
  ⟨rfl, .var hv ht, nofun, rfl, fun _ => trivial⟩

theorem put_of_unknown (hs : ∀ p ∈ s, v.id ≠ p.1.id) : put s v = .var v := by
  have hnone : s.find? v = none := by
    rw [Subst.find?, List.find?_eq_none.mpr fun p hp => by simpa using (hs p hp).symm]
    rfl
  rw [put, hnone, Option.getD_none]

/-- A leaf over a context has no variable that the context does not have. -/
theorem Typed.ne_of_leaf {w : Var} (h : (Expr.var w).Typed Δ t) (hv : Δ v.id = none) : w.id ≠ v.id := by
  cases h with | var hw
  intro heq
  rw [heq, hv] at hw
  cases hw

/-- A leaf evaluates to the same number when a variable is added to the context. -/
theorem Evaluates.extend_leaf (h : Evaluates Δ B H ρ t e n) (hleaf : e.isLeaf) (hv : Δ v.id = none) (m : Int) :
    Evaluates (Δ.extend v) B H (Function.update ρ v.id m) t e n := by
  cases e with
  | const => exact ⟨h.typed.mono fun _ => nofun, h.bound, h.value, fun _ => trivial⟩
  | var w =>
    have hne := h.typed.ne_of_leaf hv
    refine ⟨h.typed.mono fun x hx u hu => ?_, h.bound, ?_, fun _ => trivial⟩
    · obtain rfl := List.mem_singleton.mp hx
      rw [Context.extend, Function.update_of_ne hne]
      exact hu
    · rw [integer_var, Function.update_of_ne hne]
      exact h.value
  | _ => cases hleaf

theorem Evaluates.subst_leaf (h : Evaluates Δ B H ρ t e n) (hleaf : e.isLeaf) (hv : Δ v.id = none) (a : Expr) :
    e.subst [(v, a)] = e := by
  cases e with
  | const => rfl
  | var w => exact put_of_unknown (List.forall_mem_singleton.mpr (h.typed.ne_of_leaf hv))
  | _ => cases hleaf

/-- A substitution carries over to a binder that it does not know. -/
theorem Carries.extend (h : Carries s Γ Δ B H ρ σ) (hΔ : Δ v.id = none) (hs : ∀ p ∈ s, v.id ≠ p.1.id) (n : Int) :
    Carries s (Γ.extend v) (Δ.extend v) B H (Function.update ρ v.id n) (Function.update σ v.id n) := by
  intro w hw ht
  by_cases hid : w.id = v.id
  · rw [put_of_unknown (hid ▸ hs)]
    refine ⟨rfl, .var ?_ ht, nofun, ?_, fun _ => trivial⟩
    · rw [← hw, hid, Context.extend, Context.extend, Function.update_self, Function.update_self]
    · rw [integer_var, hid, Function.update_self, Function.update_self]
  · rw [Context.extend, Function.update_of_ne hid] at hw
    obtain ⟨hleaf, hevaluates⟩ := h w hw ht
    rw [Function.update_of_ne hid]
    exact ⟨hleaf, hevaluates.extend_leaf hleaf hΔ n⟩

theorem put_andThen (hs : ∀ p ∈ s, v.id ≠ p.1.id) (a : Expr) (w : Var) :
    put (andThen s v a) w = if w.id = v.id then a else ((s.find? w).map (·.subst [(v, a)])).getD (.var w) := by
  have hfind : (andThen s v a).find? w =
      ((s.find? w).map (·.subst [(v, a)])).or (if v.id = w.id then some a else none) := by
    simp only [andThen, Subst.find?, List.find?_append, List.find?_map, Option.map_or, Option.map_map]
    congr 1
    by_cases hid : v.id = w.id <;> simp [hid]
  rw [put, hfind]
  by_cases hid : w.id = v.id
  · have hnone : s.find? w = none := by
      rw [Subst.find?, List.find?_eq_none.mpr fun p hp => by simpa [hid] using (hs p hp).symm]
      rfl
    simp [hid, hnone]
  · rw [if_neg hid, if_neg (Ne.symm hid), Option.or_none]

/-- A binding of a leaf is added to a substitution. -/
theorem Carries.andThen (h : Carries s Γ Δ B H ρ σ) (hΔ : Δ v.id = none) (hs : ∀ p ∈ s, v.id ≠ p.1.id)
    (he : Evaluates Δ B H ρ v.dtype e n) (hleaf : e.isLeaf) :
    Carries (andThen s v e) (Γ.extend v) Δ B H ρ (Function.update σ v.id n) := by
  intro w hw ht
  rw [put_andThen hs]
  by_cases hid : w.id = v.id
  · rw [Context.extend, hid, Function.update_self] at hw
    rw [if_pos hid, hid, Function.update_self, ← Option.some.inj hw]
    exact ⟨hleaf, he⟩
  · rw [Context.extend, Function.update_of_ne hid] at hw
    obtain ⟨hput, hevaluates⟩ := h w hw ht
    have hsame : ((s.find? w).map (·.subst [(v, e)])).getD (.var w) = put s w := by
      unfold put at hput hevaluates ⊢
      cases hf : s.find? w with
      | none => rfl
      | some a =>
        rw [hf, Option.getD_some] at hput hevaluates
        exact hevaluates.subst_leaf hput hΔ e
    rw [if_neg hid, hsame, Function.update_of_ne hid]
    exact ⟨hput, hevaluates⟩

/-- The type of an expression under a substitution that keeps the types of variables is its type. -/
theorem Typed.dtypeUnder (he : e.Typed Γ t)
    (hs : ∀ v : Var, Γ v.id = some v.dtype → v.dtype.IsIndex → (put s v).dtype = v.dtype)
    (hbound : ∀ x ∈ e.boundVars, ∀ p ∈ s, x ≠ p.1.id) : e.dtypeUnder s = t := by
  induction he with
  | var hv ht => exact hs _ hv ht
  | const | cast | likely => rfl
  | @bin Γ op t u a b hop ha hb iha =>
    rw [boundVars_bin, List.forall_mem_append] at hbound
    have htype := (Typed.bin hop ha hb).dtype
    rw [Expr.dtype, ha.dtype] at htype
    rw [Expr.dtypeUnder, iha hs hbound.1, htype]
  | not _ ih =>
    rw [boundVars_not] at hbound
    exact ih hs hbound
  | select _ _ _ _ iha =>
    rw [boundVars_select, List.forall_mem_append, List.forall_mem_append] at hbound
    exact iha hs hbound.1.2
  | @bind Γ t v a b _ _ _ _ ihb =>
    rw [boundVars_bind, List.forall_mem_append, List.forall_mem_append, List.forall_mem_singleton] at hbound
    refine ihb (fun w hw ht => ?_) hbound.1.2
    by_cases hid : w.id = v.id
    · rw [put_of_unknown (hid ▸ hbound.2)]
      rfl
    · rw [Context.extend, Function.update_of_ne hid] at hw
      exact hs w hw ht

/-- Simplification under a substitution that carries one context over to another keeps the type and the value.
    The binders of the expression are distinct and unknown to the substitution. -/
theorem gives_simplifyUnder_evaluates (he : e.Typed Γ t) (hd : H → e.Defined σ) (hs : Carries s Γ Δ B H ρ σ)
    (hnodup : e.boundVars.Nodup) (hfresh : ∀ x ∈ e.boundVars, x ∈ B ∧ Δ x = none ∧ ∀ p ∈ s, x ≠ p.1.id) :
    Gives (e.simplifyUnder s) (Evaluates Δ B H ρ t ·.term (e.integer σ)) := by
  induction he generalizing Δ ρ σ s with
  | var hv ht => exact gives_ok (hs _ hv ht).2
  | const hx =>
    refine gives_ok ?_
    rw [integer_const, hx.asInt?]
    exact evaluates_literal hx
  | cast ht hu ha ih =>
    rw [boundVars_cast] at hnodup hfresh
    exact (ih hd hs hnodup hfresh).bind fun r hr => (hr.castTo ht hu).bind fun e he => gives_ok he
  | @bin Γ op t u a b hop ha hb iha ihb =>
    have htype : (Expr.bin op a b).dtypeUnder s = u :=
      (Typed.bin hop ha hb).dtypeUnder (fun v hv ht => (hs v hv ht).2.dtype) fun x hx => (hfresh x hx).2.2
    rw [boundVars_bin] at hnodup hfresh
    rw [List.nodup_append] at hnodup
    rw [List.forall_mem_append] at hfresh
    refine (iha (fun h => (hd h).1) hs hnodup.1 hfresh.1).bind fun x hx => ?_
    refine (ihb (fun h => (hd h).2.1) hs hnodup.2.1 hfresh.2).bind fun y hy => ?_
    rw [htype]
    exact gives_simplifyBin_evaluates hop hx hy fun h => (hd h).2.2
  | not ha ih =>
    rw [boundVars_not] at hnodup hfresh
    exact (ih hd hs hnodup hfresh).bind fun r hr => hr.logicalNot.bind fun e he => gives_ok he
  | @select Γ t c a b hc ha hb ihc iha ihb =>
    rw [boundVars_select] at hnodup hfresh
    rw [List.nodup_append, List.nodup_append] at hnodup
    rw [List.forall_mem_append, List.forall_mem_append] at hfresh
    refine (ihc (fun h => (hd h).1) hs hnodup.1.1 hfresh.1.1).bind fun x hx => ?_
    refine (iha (fun h => (hd h).2.1) hs hnodup.1.2.1 hfresh.1.2).bind fun y hy => ?_
    refine (ihb (fun h => (hd h).2.2) hs hnodup.2.1 hfresh.2).bind fun z hz => ?_
    split
    · have hsame : a.integer σ = b.integer σ := by
        rw [← hy.value, ← hz.value, hy.typed.integer_eq_of_same hz.typed ‹_›]
      rw [integer_select, hsame, ite_self, ← hsame]
      exact gives_ok hy
    · exact (hx.choose hy hz).bind fun e he => gives_ok he
  | @bind Γ t v a b hv ha hb iha ihb =>
    rw [boundVars_bind] at hnodup hfresh
    rw [List.nodup_append, List.nodup_append] at hnodup
    rw [List.forall_mem_append, List.forall_mem_append, List.forall_mem_singleton] at hfresh
    obtain ⟨⟨hfa, hfb⟩, hB, hΔ, hkeys⟩ := hfresh
    have hne : ∀ x ∈ b.boundVars, x ≠ v.id := fun x hx =>
      hnodup.2.2 x (List.mem_append_right _ hx) v.id List.mem_cons_self
    refine (iha (fun h => (hd h).1) hs hnodup.1.1 hfa).bind fun x hx => ?_
    split
    · -- A leaf is put for the variable in the body.
      refine (ihb (fun h => (hd h).2) (hs.andThen hΔ hkeys hx ‹_›) hnodup.1.2.1
        fun y hy => ⟨(hfb y hy).1, (hfb y hy).2.1, fun p hp => ?_⟩).bind fun r hr => gives_ok hr
      obtain hp | hp := List.mem_append.mp hp
      · obtain ⟨q, hq, rfl⟩ := List.mem_map.mp hp
        exact (hfb y hy).2.2 q hq
      · obtain rfl := List.mem_singleton.mp hp
        exact hne y hy
    · -- The binding stays, and the body is simplified under it.
      refine (ihb (fun h => (hd h).2) (hs.extend hΔ hkeys (a.integer σ)) hnodup.1.2.1
        fun y hy => ⟨(hfb y hy).1, ?_, (hfb y hy).2.2⟩).bind
        fun r hr => gives_ok ⟨.bind hv hx.typed hr.typed, ?_, ?_, fun h => ⟨hx.defined h, ?_⟩⟩
      · rw [Context.extend, Function.update_of_ne (hne y hy)]
        exact (hfb y hy).2.1
      · rw [boundVars_bind, List.forall_mem_append, List.forall_mem_append, List.forall_mem_singleton]
        exact ⟨⟨hx.bound, hr.bound⟩, hB⟩
      · rw [integer_bind, hx.value]
        exact hr.value
      · rw [hx.value]
        exact hr.defined h
  | likely hc ih =>
    rw [boundVars_likely] at hnodup hfresh
    obtain ⟨r, hrun, hr⟩ := ih (fun h => (hd h).1) hs hnodup hfresh
    refine ⟨_, ?_, evaluates_simplifyCall hr (r.changed || false)⟩
    rw [simplifyUnder, simplifyUnder.onList, hrun]
    rfl

end Substituting

section Soundness
variable {Γ : Context} {t : DataType} {e : Expr}

/-- Simplification of a well-typed expression in terms of the values of its free variables. -/
theorem gives_simplify_evaluates {H : Prop} {ρ : Valuation Int} (he : e.Typed Γ t) (hd : H → e.Defined ρ)
    (hnodup : e.boundVars.Nodup) (hapart : ∀ x ∈ e.boundVars, x ∉ e.freeIds) :
    Gives e.simplify (Evaluates Γ e.boundVars H ρ t · (e.integer ρ)) := by
  -- A binder is unknown to the context of the free variables.
  let Δ : Context := fun x => if x ∈ e.freeIds then Γ x else none
  have hΔ : e.Typed Δ t := he.mono fun x hx u hu => (if_pos hx).trans hu
  have hrun := gives_simplifyUnder_evaluates hΔ hd carries_nil hnodup fun x hx =>
    ⟨hx, if_neg (hapart x hx), List.forall_mem_nil _⟩
  refine hrun.bind fun r hr => gives_ok ⟨hr.typed.mono fun x _ u hu => ?_, hr.bound, hr.value, hr.defined⟩
  by_cases hx : x ∈ e.freeIds
  · exact (if_pos hx).symm.trans hu
  · exact absurd ((if_neg hx).symm.trans hu) (by nofun)

/-- A condition that simplification shows to hold is not 0. -/
theorem gives_canProve (he : e.Typed Γ t) (hnodup : e.boundVars.Nodup) (hapart : ∀ x ∈ e.boundVars, x ∉ e.freeIds)
    (ρ : Valuation Int) : Gives e.canProve (· = true → e.integer ρ ≠ 0) := by
  have hsimplify := gives_simplify_evaluates (H := False) (ρ := ρ) he False.elim hnodup hapart
  refine hsimplify.bind fun e' he' => ?_
  split
  · rw [he'.literal.2.truthy]
    exact gives_ok of_decide_eq_true
  · exact gives_ok nofun

/-- The simplifier is sound: a well-typed expression in which no variable is bound twice or both free and bound is
    simplified, and its value stays what it is wherever no divisor in it is 0. Hence a condition that is shown to hold
    holds there. -/
theorem simplify_sound (he : e.Typed Γ t) (hnodup : e.boundVars.Nodup) (hapart : ∀ x ∈ e.boundVars, x ∉ e.freeIds) :
    (∃ e', e.simplify = .ok e' ∧ ∀ ρ, e.Defined ρ → e'.Defined ρ ∧ e'.integer ρ = e.integer ρ) ∧
      ∃ b, e.canProve = .ok b ∧ (b = true → ∀ ρ, e.Defined ρ → e.integer ρ ≠ 0) := by
  have hsimplify (ρ) := gives_simplify_evaluates (H := e.Defined ρ) he id hnodup hapart
  have hprove := gives_canProve he hnodup hapart
  obtain ⟨e', hrun, -⟩ := hsimplify fun _ => 0
  obtain ⟨b, hcan, -⟩ := hprove fun _ => 0
  refine ⟨⟨e', hrun, fun ρ hρ => ?_⟩, b, hcan, fun hb ρ _ => ?_⟩
  · obtain ⟨e'', hrun', hevaluates⟩ := hsimplify ρ
    obtain rfl : e' = e'' := Except.ok.inj (hrun.symm.trans hrun')
    exact ⟨hevaluates.defined hρ, hevaluates.value⟩
  · obtain ⟨b', hcan', hholds⟩ := hprove ρ
    obtain rfl : b = b' := Except.ok.inj (hcan.symm.trans hcan')
    exact hholds hb

end Soundness

/-! ### A condition that is simplified away -/

namespace Sample

def x : Var := ⟨1, "x", .int32⟩

def y : Var := ⟨2, "y", .int32⟩

def w : Var := ⟨3, "w", .int32⟩

/-- The greater of a quotient and 2. -/
def bound : Expr := .bin .max (.bin .div (.var w) (.var y)) (int32 2)

/-- `let w = x in select(likely((w * 4 + y * 4) / 4 - w == y), max(w / y, 2) + 3 > max(w / y, 2), x / y < 0)` -/
def condition : Expr :=
  let sum := Expr.bin .add (.bin .mul (.var w) (int32 4)) (.bin .mul (.var y) (int32 4))
  .bind w (.var x)
    (.select (pureIntrinsic .bool "likely" [.bin .eq (.bin .sub (.bin .div sum (int32 4)) (.var w)) (.var y)])
      (.bin .gt (.bin .add bound (int32 3)) bound) (.bin .lt (.bin .div (.var x) (.var y)) (int32 0)))

theorem condition_typed : condition.Typed (fun _ => some .int32) .bool := by
  have hint : DataType.int32.IsIndex := ⟨rfl, rfl⟩
  have harith {op : BinOp} (hop : op.isLogical = false) : op.Maps .int32 .int32 := .arith hop hint
  have hconst {Γ : Context} (n : Int) : (int32 n).Typed Γ .int32 := .const (.int hint n)
  have hvar {Γ : Context} {v : Var} (hv : Γ v.id = some v.dtype) (ht : v.dtype = .int32) : (Expr.var v).Typed Γ .int32 :=
    ht ▸ .var hv (ht ▸ hint)
  -- All variables are integers, the bound one included.
  have hw : (Expr.var w).Typed (Context.extend (fun _ => some .int32) w) .int32 := hvar rfl rfl
  have hx : (Expr.var x).Typed (Context.extend (fun _ => some .int32) w) .int32 := hvar rfl rfl
  have hy : (Expr.var y).Typed (Context.extend (fun _ => some .int32) w) .int32 := hvar rfl rfl
  have hbound : bound.Typed (Context.extend (fun _ => some .int32) w) .int32 :=
    .bin (harith rfl) (.bin (harith rfl) hw hy) (hconst 2)
  refine .bind hint (hvar rfl rfl) (.select (.likely (.bin (.compare rfl) ?_ hy)) ?_ ?_)
  · refine .bin (harith rfl) (.bin (harith rfl) ?_ (hconst 4)) hw
    exact .bin (harith rfl) (.bin (harith rfl) hw (hconst 4)) (.bin (harith rfl) hy (hconst 4))
  · exact .bin (.compare rfl) (.bin (harith rfl) hbound (hconst 3)) hbound
  · exact .bin (.compare rfl) (.bin (harith rfl) hx hy) (hconst 0)

theorem simplify_condition :
    (∃ e', condition.simplify = .ok e' ∧ ∀ ρ, condition.Defined ρ → e'.Defined ρ ∧ e'.integer ρ = condition.integer ρ) ∧
      ∀ ρ : Valuation Int, ρ 2 ≠ 0 → condition.integer ρ ≠ 0 := by
  obtain ⟨hsimplify, b, hb, hholds⟩ := simplify_sound condition_typed (by decide) (by decide)
  have hproved : condition.canProve.toOption = some true := by decide +kernel
  rw [hb] at hproved
  refine ⟨hsimplify, fun ρ hρ => hholds (Option.some.inj hproved) ρ ?_⟩
  simp [condition, bound, x, y, w, int32, pureIntrinsic, callOf, Defined, Defined.ofList, BinOp.Divides, hρ, Number.asInt?]

end Sample

end Expr

end TensorNest

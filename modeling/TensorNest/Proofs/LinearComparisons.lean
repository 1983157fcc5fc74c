import Mathlib.Tactic.Linarith
import TensorNest.Proofs.Addressing
import TensorNest.Proofs.NormalForms

/-! # Linear comparisons are decided

A comparison of two sums of variables with constant coefficients holds for every assignment exactly if simplification
shows it (`Expr.canProve_linear`). The linear form of such an expression has its variables as atoms, each of them once,
so that a form whose value does not change has no coefficient but 0 (`Linear.isConst_of_constant`). An affine function
that stays on one side of 0 is constant (`Expr.eq_zero_of_compareDiff`), and sides whose difference is constant are
compared by it. If the sides are of two types, no variable is in both, so that the one that is cast is constant if the
difference is. -/

namespace TensorNest
open Expr

/-- An expression whose value is the same for all values of its variables. -/
def Expr.Constant (e : Expr) : Prop :=
  ∀ ρ : Valuation Int, e.integer ρ = e.integer fun _ => 0

namespace Expr

/-- Sums, differences and products of variables and constants of a type, one factor of each product being a constant. -/
inductive Affine (Γ : Context) (t : DataType) : Expr → Prop
  | var {v : Var} (hv : Γ v.id = some t) (ht : v.dtype = t) : Affine Γ t (.var v)
  | const (n : Int) : Affine Γ t (.const (.int n) t)
  | bin {op : BinOp} {a b : Expr} (hop : op = .add ∨ op = .sub ∨ op = .mul) (hmul : op = .mul → a.isConst ∨ b.isConst)
      (ha : Affine Γ t a) (hb : Affine Γ t b) : Affine Γ t (.bin op a b)

theorem exists_of_isConst {e : Expr} (h : e.isConst) : ∃ x u, e = .const x u := by
  cases e with
  | const x u => exact ⟨x, u, rfl⟩
  | _ => cases h

section Affine
variable {Γ : Context} {t u : DataType} {a b e : Expr} {op : BinOp} {ρ σ : Valuation Int} {k : Int}

theorem Affine.typed (ht : t.IsIndex) (h : e.Affine Γ t) : e.Typed Γ t := by
  induction h with
  | var hv htype =>
    subst htype
    exact .var hv ht
  | const n => exact .const (.int ht n)
  | bin hop _ _ _ iha ihb => exact .bin (.arith (by obtain rfl | rfl | rfl := hop <;> rfl) ht) iha ihb

theorem Affine.boundVars (h : e.Affine Γ t) : e.boundVars = [] := by
  induction h with
  | var | const => rfl
  | bin _ _ _ _ iha ihb => rw [boundVars_bin, iha, ihb, List.append_nil]

theorem Affine.evaluates (ht : t.IsIndex) (h : e.Affine Γ t) : Evaluates Γ [] False ρ t e (e.integer ρ) :=
  ⟨h.typed ht, by simp [h.boundVars], rfl, False.elim⟩

/-- The value along a line through the origin. -/
theorem Affine.integer_line (h : e.Affine Γ t) (ρ : Valuation Int) (k : Int) :
    e.integer (fun x => k * ρ x) = e.integer (fun _ => 0) + k * (e.integer ρ - e.integer fun _ => 0) := by
  induction h with
  | var => simp
  | const n => simp
  | @bin op a b hop hmul _ _ iha ihb =>
    simp only [integer_bin, iha, ihb]
    have hconst {e : Expr} (h : e.isConst) (ρ : Valuation Int) : e.integer ρ = e.integer fun _ => 0 := by
      obtain ⟨x, u, rfl⟩ := exists_of_isConst h
      rfl
    obtain rfl | rfl | rfl := hop
    · simp only [BinOp.onInts]
      ring
    · simp only [BinOp.onInts]
      ring
    · obtain ha | hb := hmul rfl
      · simp only [BinOp.onInts, hconst ha ρ]
        ring
      · simp only [BinOp.onInts, hconst hb ρ]
        ring

/-- The value depends on the variables of its type only. -/
theorem Affine.integer_congr (h : e.Affine Γ t) (hρ : ∀ x, Γ x = some t → ρ x = σ x) : e.integer ρ = e.integer σ := by
  induction h with
  | var hv => exact hρ _ hv
  | const => rfl
  | bin _ _ _ _ iha ihb => rw [integer_bin, integer_bin, iha, ihb]

/-- A line that stays on one side of 0 is level. -/
theorem eq_zero_of_compareDiff {c g : Int} (hop : op ∈ [BinOp.eq, .lt, .le, .gt, .ge])
    (h : ∀ k, compareDiff op (c + k * g) = true) : g = 0 := by
  -- Far out in the direction of the slope the line is above 0, and below 0 in the other one.
  by_contra hg
  have hsquare : 1 ≤ g * g := Int.add_one_le_of_lt (mul_self_pos.mpr hg)
  have habove : 0 < c + (g * (|c| + 1)) * g := by nlinarith [abs_nonneg c, neg_abs_le c]
  have hbelow : c + (-(g * (|c| + 1))) * g < 0 := by nlinarith [abs_nonneg c, le_abs_self c]
  have hup := h (g * (|c| + 1))
  have hdown := h (-(g * (|c| + 1)))
  generalize c + (g * (|c| + 1)) * g = x at habove hup
  generalize c + (-(g * (|c| + 1))) * g = y at hbelow hdown
  simp only [List.mem_cons, List.not_mem_nil, or_false] at hop
  obtain rfl | rfl | rfl | rfl | rfl := hop <;> simp only [compareDiff, beq_iff_eq, decide_eq_true_eq] at hup hdown <;>
    omega

end Affine

end Expr

/-! ### Linear forms over variables -/

namespace Linear

variable {Γ : Context} {t : DataType} {l r : Linear} {a b e : Expr} {op : BinOp} {ρ : Valuation Int} {n : Int}
  {ts us : List (Expr × Int)}

/-- A linear form over variables of a type, each of them once. -/
structure OverVars (Γ : Context) (t : DataType) (l : Linear) : Prop where
  vars : l.All fun e => ∃ v, e = .var v ∧ Γ v.id = some t ∧ v.dtype = t
  distinct : Distinct l.terms

theorem gives_ofExpr_affine (h : e.Affine Γ t) : Gives (ofExpr e) (OverVars Γ t) := by
  induction h with
  | @var v hv ht => exact gives_ok ⟨all_atom ⟨v, rfl, hv, ht⟩, List.pairwise_singleton ..⟩
  | const n => exact ⟨_, rfl, List.forall_mem_nil _, .nil⟩
  | @bin op a b hop hmul ha hb iha ihb =>
    obtain rfl | rfl | rfl := hop
    · exact iha.bind fun l hl => ihb.bind fun r hr => gives_ok ⟨hl.vars.addScaled hr.vars 1, hl.distinct.addTerms⟩
    · exact iha.bind fun l hl => ihb.bind fun r hr => gives_ok ⟨hl.vars.addScaled hr.vars (-1), hl.distinct.addTerms⟩
    · have hscale {l : Linear} (hl : l.OverVars Γ t) (n : Int) : (l.scale n).OverVars Γ t :=
        ⟨hl.vars.scale n, hl.distinct.map (· * n)⟩
      unfold ofExpr
      split
      · cases hb with | const n
        exact iha.bind fun l hl => gives_ok (hscale hl n)
      · cases ha with | const n
        exact ihb.bind fun l hl => gives_ok (hscale hl n)
      · rename_i hb' ha'
        cases ‹Expr.bin .mul _ _ = .bin .mul _ _›
        obtain hconst | hconst := hmul rfl <;> obtain ⟨x, u, rfl⟩ := exists_of_isConst hconst
        · exact (ha' _ _ rfl rfl HEq.rfl).elim
        · exact (hb' _ _ rfl rfl HEq.rfl).elim

/-- What is written for a form over variables is such a sum. -/
theorem gives_toExpr_affine (ht : t.IsIndex) (hl : l.OverVars Γ t) : Gives (l.toExpr t) (Affine Γ t) := by
  have hscaled {v : Var} (hv : Γ v.id = some t) (htype : v.dtype = t) (k : Int) :
      Affine Γ t (.bin .mul (.var v) (.const (.int k) t)) := .bin (by simp) (fun _ => .inr rfl) (.var hv htype) (.const k)
  have hterms : ∀ (ts : List (Expr × Int)) (acc : Option Expr),
      (∀ p ∈ ts, ∃ v, p.1 = .var v ∧ Γ v.id = some t ∧ v.dtype = t) →
      (∀ s ∈ acc, s.Affine Γ t) → Gives (sumTerms t acc ts) (∀ s ∈ ·, s.Affine Γ t) := by
    intro ts
    induction ts with
    | nil => exact fun acc _ hacc => gives_ok hacc
    | cons p ts ih =>
      intro acc hts hacc
      obtain ⟨⟨v, hv, hΓ, htype⟩, hrest⟩ := List.forall_mem_cons.mp hts
      obtain ⟨e, k⟩ := p
      obtain rfl : e = .var v := hv
      have hnext {s : Expr} (hs : s.Affine Γ t) : Gives (sumTerms t (some s) ts) (∀ s ∈ ·, s.Affine Γ t) :=
        ih _ hrest fun s' hs' => Option.some.inj hs' ▸ hs
      have hterm : Gives (termExpr t (.var v) k) (Affine Γ t) := by
        unfold termExpr
        split
        · exact gives_ok (.var hΓ htype)
        · exact ⟨_, by rw [ofInt_eq ht]; rfl, hscaled hΓ htype _⟩
      unfold sumTerms
      split
      · exact ih _ hrest hacc
      refine hterm.bind fun term hterm => ?_
      cases acc with
      | none =>
        simp only [ofInt_eq ht]
        split
        · exact hnext hterm
        · exact hnext (hscaled hΓ htype k)
      | some s => exact hnext (.bin (by split <;> simp) (by split <;> simp) (hacc s rfl) hterm)
  unfold toExpr
  refine (hterms l.terms none hl.vars (by simp)).bind fun o ho => ?_
  simp only [ofInt_eq ht]
  cases o with
  | none => exact gives_ok (.const _)
  | some s =>
    dsimp only
    split
    · exact gives_ok (.bin (by simp) (by simp) (ho s rfl) (.const _))
    split
    · exact gives_ok (.bin (by simp) (by simp) (ho s rfl) (.const _))
    · exact gives_ok (ho s rfl)

/-- A form without atoms is written as its constant. -/
theorem toExpr_of_isConst (ht : t.IsIndex) (h : l.isConst) : l.toExpr t = .ok (.const (.int l.const) t) := by
  have hterms : ∀ ts : List (Expr × Int), (∀ p ∈ ts, p.2 = 0) → sumTerms t none ts = .ok none := by
    intro ts hts
    induction ts with
    | nil => rfl
    | cons p ts ih =>
      obtain ⟨hp, hts⟩ := List.forall_mem_cons.mp hts
      rw [sumTerms, if_pos hp, ih hts]
  rw [toExpr, hterms l.terms (by simpa [isConst] using h)]
  exact ofInt_eq ht l.const

theorem sum_append : sum (us ++ ts) ρ = sum us ρ + sum ts ρ := by
  simp [sum]

/-- The value of a form over variables is its constant where they are 0. -/
theorem OverVars.integer_zero (hl : l.OverVars Γ t) : l.integer (fun _ => 0) = l.const := by
  have hsum : ∀ ts : List (Expr × Int), (∀ p ∈ ts, ∃ v, p.1 = .var v) → sum ts (fun _ => 0) = 0 := by
    intro ts hts
    induction ts with
    | nil => rfl
    | cons p ts ih =>
      obtain ⟨⟨v, hv⟩, hts⟩ := List.forall_mem_cons.mp hts
      rw [sum_cons, hv, ih hts, integer_var, Int.mul_zero, Int.zero_add]
  rw [integer, hsum l.terms fun p hp => (hl.vars p hp).imp fun _ h => h.1, Int.zero_add]

/-- A form over distinct variables of which the value does not change has no coefficient but 0. -/
theorem isConst_of_constant (hl : l.OverVars Γ t) (h : ∀ ρ, l.integer ρ = l.integer fun _ => 0) : l.isConst := by
  refine List.all_eq_true.mpr fun p hp => beq_iff_eq.mpr ?_
  obtain ⟨us, ts, hsplit⟩ := List.append_of_mem hp
  obtain ⟨v, hv, -⟩ := hl.vars p hp
  -- Where one variable is 1 and all others are 0 the sum is its coefficient.
  have hone : (Function.update (fun _ => 0) v.id 1 : Valuation Int) v.id = 1 := Function.update_self ..
  have hother (x : Nat) (hx : x ≠ v.id) : (Function.update (fun _ => 0) v.id 1 : Valuation Int) x = 0 :=
    Function.update_of_ne hx ..
  generalize (Function.update (fun _ => 0) v.id 1 : Valuation Int) = ρ at hone hother
  have hzero : ∀ qs : List (Expr × Int), (∀ q ∈ qs, ∃ w, q.1 = .var w ∧ w.id ≠ v.id) → sum qs ρ = 0 := by
    intro qs hqs
    induction qs with
    | nil => rfl
    | cons q qs ih =>
      obtain ⟨⟨w, hw, hne⟩, hqs⟩ := List.forall_mem_cons.mp hqs
      rw [sum_cons, hw, ih hqs, integer_var, hother w.id hne, Int.mul_zero, Int.zero_add]
  have hdistinct := hl.distinct
  rw [hsplit] at hdistinct
  obtain ⟨-, hright, hleft⟩ := List.pairwise_append.mp hdistinct
  have hdiffer {w w' : Var} (h : (Expr.var w).same (.var w') = false) : w.id ≠ w'.id := by
    simpa [Expr.same, Matching.expr, Matching.identity] using h
  have hus : sum us ρ = 0 := hzero us fun q hq => by
    obtain ⟨w, hw, -⟩ := hl.vars q (hsplit ▸ List.mem_append_left _ hq)
    have hne := hleft q hq p List.mem_cons_self
    rw [hw, hv] at hne
    exact ⟨w, hw, hdiffer hne⟩
  have hts : sum ts ρ = 0 := hzero ts fun q hq => by
    obtain ⟨w, hw, -⟩ := hl.vars q (hsplit ▸ List.mem_append_right _ (List.mem_cons_of_mem _ hq))
    have hne := (List.pairwise_cons.mp hright).1 q hq
    rw [hw, hv] at hne
    exact ⟨w, hw, (hdiffer hne).symm⟩
  have hvalue := h ρ
  rw [hl.integer_zero, integer, hsplit, sum_append, sum_cons, hus, hts, hv, integer_var, hone] at hvalue
  omega

end Linear

/-! ### Simplification -/

namespace Expr

variable {Γ : Context} {t u w : DataType} {a b e : Expr} {op : BinOp} {ρ σ : Valuation Int}

theorem Affine.integer_simplifyUnder (ht : t.IsIndex) (h : e.Affine Γ t) {r : Revised Expr}
    (hr : e.simplifyUnder [] = .ok r)
    (ρ : Valuation Int) : r.term.integer ρ = e.integer ρ := by
  have hevaluates := gives_simplifyUnder_evaluates (B := []) (H := False) (h.typed ht) False.elim (carries_nil (ρ := ρ))
    (by simp [h.boundVars]) (by simp [h.boundVars])
  exact (hevaluates.ensures r hr).value

/-- Sums, differences and products with a constant are simplified to such sums, and to a constant if their value does not
    change. -/
theorem Affine.gives_simplifyUnder (ht : t.IsIndex) (h : e.Affine Γ t) :
    Gives (e.simplifyUnder []) fun r => r.term.Affine Γ t ∧ (e.Constant → r.term.isConst) := by
  induction h with
  | @var v hv htype =>
    refine gives_ok ⟨.var hv htype, fun h => ?_⟩
    have hone := h fun _ => 1
    rw [integer_var, integer_var] at hone
    omega
  | const n => exact gives_ok ⟨.const n, fun _ => rfl⟩
  | @bin op a b hop hmul ha hb iha ihb =>
    have hab : Affine Γ t (Expr.bin op a b) := .bin hop hmul ha hb
    obtain ⟨x, hx, hxa, hxc⟩ := iha
    obtain ⟨y, hy, hyb, hyc⟩ := ihb
    have hconst {e : Expr} {r : Revised Expr} (hr : e.simplifyUnder [] = .ok r) (h : e.isConst) : r.term.isConst := by
      obtain ⟨n, u, rfl⟩ := exists_of_isConst h
      cases hr
      rfl
    have hxy : Affine Γ t (Expr.bin op x.term y.term) := .bin hop (fun h => (hmul h).imp (hconst hx) (hconst hy)) hxa hyb
    obtain ⟨l, hl, hvars⟩ := Linear.gives_ofExpr_affine hxy
    obtain ⟨e', he', haffine⟩ := Linear.gives_toExpr_affine ht hvars
    have hrun : (Expr.bin op a b).simplifyUnder [] = .ok ⟨e', true⟩ := by
      rw [simplifyUnder_bin hx hy, (hab.typed ht).dtype, simplifyBin, Linear.binRule?_linear ht hop, hl]
      dsimp only [Bind.bind, Except.bind]
      rw [he']
      rfl
    refine ⟨_, hrun, haffine, fun hc => ?_⟩
    -- The form has the value of the operation.
    have hvalue : ∀ ρ, l.integer ρ = (Expr.bin op a b).integer ρ := by
      intro ρ
      have hlinear := (Linear.gives_ofExpr_evaluates ht (hxy.evaluates ht (ρ := ρ))).ensures l hl
      rw [hlinear.value, integer_bin, integer_bin, ha.integer_simplifyUnder ht hx, hb.integer_simplifyUnder ht hy]
    have hl := Linear.isConst_of_constant hvars fun ρ => by rw [hvalue, hvalue, hc ρ]
    rw [Linear.toExpr_of_isConst ht hl] at he'
    cases he'
    rfl

/-! ### Sides -/

/-- A side of a comparison and what it is simplified to: its value is affine, and if it does not change the side becomes a
    constant. -/
structure Side (Γ : Context) (t : DataType) (e : Expr) (r : Revised Expr) : Prop where
  dtype : e.dtype = t
  simplified : e.simplifyUnder [] = .ok r
  typed : r.term.Typed Γ t
  value : ∀ ρ, r.term.integer ρ = e.integer ρ
  line : ∀ ρ k, e.integer (fun x => k * ρ x) = e.integer (fun _ => 0) + k * (e.integer ρ - e.integer fun _ => 0)
  const : e.Constant → r.term.isConst

theorem Affine.side (ht : t.IsIndex) (h : e.Affine Γ t) : ∃ r, Side Γ t e r ∧ r.term.Affine Γ t := by
  obtain ⟨r, hr, haffine, hconst⟩ := h.gives_simplifyUnder ht
  exact ⟨r, ⟨(h.typed ht).dtype, hr, haffine.typed ht, h.integer_simplifyUnder ht hr, h.integer_line, hconst⟩, haffine⟩

/-- A side that is brought to another type. -/
theorem Affine.side_cast (ht : t.IsIndex) (hu : u.IsIndex) (h : e.Affine Γ u) : ∃ r, Side Γ t (.cast t e) r := by
  obtain ⟨r, hr, haffine, hconst⟩ := h.gives_simplifyUnder hu
  have hcast (ρ) := (haffine.evaluates hu (ρ := ρ)).castTo ht hu
  obtain ⟨e', he', hevaluates⟩ := hcast fun _ => 0
  refine ⟨⟨e', true⟩, rfl, ?_, hevaluates.typed, fun ρ => ?_, h.integer_line, fun hc => ?_⟩
  · rw [simplifyUnder, hr]
    dsimp only [Bind.bind, Except.bind]
    rw [he']
    rfl
  · rw [((hcast ρ).ensures e' he').value, h.integer_simplifyUnder hu hr]
    rfl
  · obtain ⟨n, v, heq⟩ := exists_of_isConst (hconst hc)
    rw [heq] at haffine he'
    cases haffine
    unfold castTo at he'
    split at he'
    · cases he'
      rfl
    · dsimp only at he'
      rw [if_pos ht.scalar, ofNumber_int ht] at he'
      cases he'
      rfl

/-- The difference of two sides is found if their linear form has no atom. -/
theorem exists_constDiff? {l : Linear} (ht : t.IsIndex) (ha : a.dtype = t) (hb : b.dtype = t)
    (hl : Linear.ofExpr (bin .sub a b) = .ok l) (hconst : l.isConst) : ∃ d, constDiff? a b = .ok (some d) := by
  have hscalar : (a.isIntScalar && b.isIntScalar) = true := by simp [isIntScalar, ha, hb, ht.integer, ht.scalar]
  refine ⟨l.const, ?_⟩
  unfold constDiff?
  rw [if_pos hscalar, hl]
  dsimp only [Bind.bind, Except.bind]
  rw [if_pos hconst]
  rfl

theorem Typed.eq_const (ht : t.IsIndex) (he : e.Typed Γ t) (hconst : e.isConst) : ∃ n, e = .const (.int n) t := by
  obtain ⟨x, u, rfl⟩ := exists_of_isConst hconst
  cases he with | const hx
  exact ⟨_, by rw [hx.eq_int ht]⟩

/-- The difference of two constants is found. -/
theorem exists_constDiff?_of_isConst (ht : t.IsIndex) (ha : a.Typed Γ t) (hb : b.Typed Γ t) (hac : a.isConst)
    (hbc : b.isConst) :
    ∃ d, constDiff? a b = .ok (some d) := by
  obtain ⟨m, rfl⟩ := ha.eq_const ht hac
  obtain ⟨n, rfl⟩ := hb.eq_const ht hbc
  exact exists_constDiff? ht rfl rfl rfl rfl

theorem fold_of_not_const (h : ¬ (a.isConst ∧ b.isConst)) : fold op a b = .ok (bin op a b) := by
  unfold fold
  split
  · exact absurd ⟨rfl, rfl⟩ h
  · rfl

theorem isComparison_of_mem (hop : op ∈ [BinOp.eq, .lt, .le, .gt, .ge]) : op.isComparison := by
  simp only [List.mem_cons, List.not_mem_nil, or_false] at hop
  obtain rfl | rfl | rfl | rfl | rfl := hop <;> rfl

/-- A comparison is decided by the difference of its simplified sides. -/
theorem Side.canProve_bin {x y : Revised Expr} (ht : t.IsIndex) (hop : op.isComparison) (ha : Side Γ t a x)
    (hb : Side Γ t b y)
    {o : Option Int} (ho : constDiff? x.term y.term = .ok o) : (bin op a b).canProve = .ok (o.any (compareDiff op)) := by
  have hmaps : op.Maps t .bool := .compare hop
  have hrule : binRule? op .bool x.term y.term = .ok (o.map fun d => bool (compareDiff op d)) := by
    cases op with
    | eq | ne | lt | le | gt | ge =>
      unfold binRule?
      rw [ho]
      cases o <;> rfl
    | _ => cases hop
  have hdtype : (bin op a b).dtype = .bool := dtype_bin hmaps (.inl ht) ha.dtype
  rw [canProve, simplify, simplifyUnder_bin ha.simplified hb.simplified, hdtype, simplifyBin, hrule]
  cases o with
  | some d => rfl
  | none =>
    -- Two constants would have a constant difference.
    have hconst : ¬ (x.term.isConst ∧ y.term.isConst) := by
      rintro ⟨hx, hy⟩
      obtain ⟨d, hd⟩ := exists_constDiff?_of_isConst ht ha.typed hb.typed hx hy
      rw [hd] at ho
      cases ho
    have hbuilt : binary op x.term y.term = .ok (bin op x.term y.term) := by
      have harith : binary op x.term y.term = arith op x.term y.term := by cases op <;> first | rfl | cases hop
      rw [harith, arith, operands_of_dtype ha.typed.dtype hb.typed.dtype]
      exact fold_of_not_const hconst
    dsimp only [Bind.bind, Except.bind, Option.map]
    rw [hbuilt]
    cases !x.changed && !y.changed && !(x.term.isConst && y.term.isConst) <;> rfl

/-- A comparison is proved exactly if it holds for all values of the variables, given that the difference of the sides is
    found wherever it does not change. -/
theorem Side.canProve_iff {x y : Revised Expr} (ht : t.IsIndex) (hop : op ∈ [BinOp.eq, .lt, .le, .gt, .ge])
    (ha : Side Γ t a x)
    (hb : Side Γ t b y) (hcomplete : (bin .sub a b).Constant → ∃ d, constDiff? x.term y.term = .ok (some d)) :
    ∃ p, (bin op a b).canProve = .ok p ∧ (p = true ↔ ∀ ρ, compareDiff op (a.integer ρ - b.integer ρ) = true) := by
  have hcompares : op.isComparison := by
    simp only [List.mem_cons, List.not_mem_nil, or_false] at hop
    obtain rfl | rfl | rfl | rfl | rfl := hop <;> rfl
  have hdiff (ρ) := gives_constDiff?_evaluates (Γ := Γ) (B := x.term.boundVars ++ y.term.boundVars) (H := False) (ρ := ρ)
    ⟨ha.typed, fun _ => List.mem_append_left _, ha.value ρ, False.elim⟩ ⟨hb.typed, fun _ => List.mem_append_right _,
      hb.value ρ, False.elim⟩
  obtain ⟨o, ho, -⟩ := hdiff fun _ => 0
  refine ⟨_, ha.canProve_bin ht hcompares hb ho, ?_⟩
  cases o with
  | some d =>
    have heq (ρ) : a.integer ρ - b.integer ρ = d := (hdiff ρ).ensures _ ho d rfl
    simp [heq]
  | none =>
    refine ⟨nofun, fun hholds => ?_⟩
    -- The difference stays on one side of 0, so that it does not change.
    have hconstant : (bin .sub a b).Constant := by
      intro ρ
      have hlevel := eq_zero_of_compareDiff (c := a.integer (fun _ => 0) - b.integer fun _ => 0)
        (g := (a.integer ρ - a.integer fun _ => 0) - (b.integer ρ - b.integer fun _ => 0)) hop fun k => by
          have hk := hholds fun x => k * ρ x
          rw [ha.line, hb.line] at hk
          convert hk using 2
          ring
      simp only [integer_bin, BinOp.onInts]
      omega
    obtain ⟨d, hd⟩ := hcomplete hconstant
    rw [hd] at ho
    cases ho

/-- The same for the comparison that is built, which is a constant if both sides are. -/
theorem Side.canProve_fold {x y : Revised Expr} (ht : t.IsIndex) (hop : op ∈ [BinOp.eq, .lt, .le, .gt, .ge])
    (ha : Side Γ t a x)
    (hb : Side Γ t b y) (hcomplete : (bin .sub a b).Constant → ∃ d, constDiff? x.term y.term = .ok (some d)) :
    ∃ c p, fold op a b = .ok c ∧ c.canProve = .ok p ∧ (p = true ↔
      ∀ ρ, compareDiff op (a.integer ρ - b.integer ρ) = true) := by
  by_cases hconst : a.isConst ∧ b.isConst
  · have hside {e : Expr} {r : Revised Expr} (h : Side Γ t e r) (hc : e.isConst) : e.Typed Γ t := by
      obtain ⟨n, u, rfl⟩ := exists_of_isConst hc
      have htyped := h.typed
      cases h.simplified
      exact htyped
    obtain ⟨m, rfl⟩ := (hside ha hconst.1).eq_const ht hconst.1
    obtain ⟨n, rfl⟩ := (hside hb hconst.2).eq_const ht hconst.2
    have hmaps : op.Maps t .bool := .compare (isComparison_of_mem hop)
    obtain ⟨v, hv, hliteral⟩ := gives_foldValue_literal hmaps (.int ht m) (.int ht n)
    have hdivides : (op = .div || op = .mod) = false := by
      simp only [List.mem_cons, List.not_mem_nil, or_false] at hop
      obtain rfl | rfl | rfl | rfl | rfl := hop <;> rfl
    have hfold : fold op (.const (.int m) t) (.const (.int n) t) = .ok (.const v .bool) := by
      unfold fold
      dsimp only
      rw [hdivides, Bool.false_and, if_neg Bool.false_ne_true, hv, dtype_bin hmaps (.inl ht) rfl]
      exact hliteral.ofNumber
    refine ⟨_, v.truthy, hfold, rfl, ?_⟩
    rw [hliteral.truthy, BinOp.onInts_of_isComparison (isComparison_of_mem hop)]
    cases hd : compareDiff op (m - n) <;> simp [Number.asInt?, hd]
  · obtain ⟨p, hp, hiff⟩ := ha.canProve_iff ht hop hb hcomplete
    exact ⟨_, p, fold_of_not_const hconst, hp, hiff⟩

section Comparisons
variable (ht : t.IsIndex) (hop : op ∈ [BinOp.eq, .lt, .le, .gt, .ge])
include ht hop

/-- The linear form of the difference of two sums over the variables of one type has no atom if the difference does not
    change. -/
theorem Affine.canProve_fold (ha : a.Affine Γ t) (hb : b.Affine Γ t) :
    ∃ c p, fold op a b = .ok c ∧ c.canProve = .ok p ∧ (p = true ↔
      ∀ ρ, compareDiff op (a.integer ρ - b.integer ρ) = true) := by
  obtain ⟨x, hx, hxa⟩ := ha.side ht
  obtain ⟨y, hy, hyb⟩ := hb.side ht
  refine hx.canProve_fold ht hop hy fun hconstant => ?_
  have hxy : Affine Γ t (Expr.bin BinOp.sub x.term y.term) := .bin (by simp) nofun hxa hyb
  obtain ⟨l, hl, hvars⟩ := Linear.gives_ofExpr_affine hxy
  have hvalue (ρ) : l.integer ρ = (Expr.bin BinOp.sub a b).integer ρ := by
    have hlinear := (Linear.gives_ofExpr_evaluates ht (hxy.evaluates ht (ρ := ρ))).ensures l hl
    rw [hlinear.value, integer_bin, integer_bin, hx.value, hy.value]
  have hconst := Linear.isConst_of_constant hvars fun ρ => by rw [hvalue, hvalue, hconstant ρ]
  exact exists_constDiff? ht hx.typed.dtype hy.typed.dtype hl hconst

/-- Two sides with no variable in common: if their difference does not change, neither of them does. -/
theorem Side.canProve_fold_apart {x y : Revised Expr} (ha : Side Γ t a x) (hb : Side Γ t b y) (huw : u ≠ w)
    (hau : ∀ ρ σ : Valuation Int, (∀ z, Γ z = some u → ρ z = σ z) → a.integer ρ = a.integer σ)
    (hbw : ∀ ρ σ : Valuation Int, (∀ z, Γ z = some w → ρ z = σ z) → b.integer ρ = b.integer σ) :
    ∃ c p, fold op a b = .ok c ∧ c.canProve = .ok p ∧ (p = true ↔
      ∀ ρ, compareDiff op (a.integer ρ - b.integer ρ) = true) := by
  refine ha.canProve_fold ht hop hb fun hconstant => ?_
  simp only [Constant, integer_bin, BinOp.onInts] at hconstant
  have hxa : a.Constant := by
    intro ρ
    -- The variables of one side are changed, those of the other one are 0.
    have hchange := hconstant fun z => if Γ z = some u then ρ z else 0
    rw [hau _ ρ fun z hz => if_pos hz, hbw _ (fun _ => 0) fun z hz =>
      if_neg (by rw [hz]; exact fun h => huw (Option.some.inj h).symm)]
      at hchange
    omega
  have hyb : b.Constant := fun ρ => by
    have hchange := hconstant ρ
    rw [hxa ρ] at hchange
    omega
  exact exists_constDiff?_of_isConst ht ha.typed hb.typed (ha.const hxa) (hb.const hyb)

end Comparisons

/-! ### Comparisons of sides of two types -/

theorem combine_of_isSigned (ht : t.IsSigned) (hu : u.IsSigned) (l r : Bool) :
    DataType.combine t u l r = .ok t ∨ DataType.combine t u l r = .ok u := by
  obtain ⟨code, bits, lanes⟩ := t
  obtain ⟨code', bits', lanes'⟩ := u
  obtain ⟨rfl, rfl⟩ := ht
  obtain ⟨rfl, rfl⟩ := hu
  unfold DataType.combine
  simp only [DataType.isHandle, DataType.isFloat, DataType.withLanes]
  by_cases hbits : bits = bits'
  · rw [if_pos (by rw [hbits])]
    exact .inl rfl
  rw [if_neg fun h => hbits (congrArg DataType.bits h)]
  cases l <;> cases r
  · obtain h | h := Nat.le_total bits bits'
    · exact .inr (by simp [Nat.max_eq_right h])
    · exact .inl (by simp [Nat.max_eq_left h])
  · exact .inl rfl
  · exact .inr rfl
  · obtain h | h := Nat.le_total bits bits'
    · exact .inr (by simp [Nat.max_eq_right h])
    · exact .inl (by simp [Nat.max_eq_left h])

/-- A sum over the variables of a type is brought to another type as a constant or by a cast. -/
theorem Affine.coerce (hw : w.IsIndex) (hu : u.IsIndex) (h : e.Affine Γ u) : ∃ e', coerce e w = .ok e' ∧
    (∀ ρ, e'.integer ρ = e.integer ρ) ∧ (e'.Affine Γ w ∨ u ≠ w ∧ e' = .cast w e) := by
  unfold Expr.coerce
  rw [(h.typed hu).dtype]
  split
  · rename_i huw
    exact ⟨e, rfl, fun _ => rfl, .inl (huw ▸ h)⟩
  rename_i huw
  split
  · cases h with | const n
    rw [hw.element, ofNumber_int hw, hw.scalar]
    exact ⟨_, rfl, fun _ => rfl, .inl (.const n)⟩
  · rw [if_neg (by simp [hw.scalar])]
    exact ⟨_, rfl, fun _ => rfl, .inr ⟨huw, rfl⟩⟩

theorem Affine.canProve_arith (ht : t.IsSigned) (hu : u.IsSigned) (hop : op ∈ [BinOp.eq, .lt, .le, .gt, .ge])
    (ha : a.Affine Γ t)
    (hb : b.Affine Γ u) :
    ∃ c p, arith op a b = .ok c ∧ c.canProve = .ok p ∧ (p = true ↔
      ∀ ρ, compareDiff op (a.integer ρ - b.integer ρ) = true) := by
  have hsides : Expr.operands a b =
      DataType.combine a.dtype b.dtype (Operand.expr a).isConstLike (Operand.expr b).isConstLike >>=
      fun t => Expr.coerce a t >>= fun x => Expr.coerce b t >>= fun y => .ok (x, y) := rfl
  have hcommon := combine_of_isSigned ht hu (Operand.expr a).isConstLike (Operand.expr b).isConstLike
  have hself {e : Expr} {w : DataType} (he : e.dtype = w) : Expr.coerce e w = .ok e := by
    unfold Expr.coerce
    rw [if_pos he]
  have hta := (ha.typed ht.isIndex).dtype
  have hub := (hb.typed hu.isIndex).dtype
  rw [arith, hsides, hta, hub]
  obtain h | h := hcommon <;> rw [h] <;> dsimp only [Bind.bind, Except.bind]
  · -- The right side is brought to the type of the left one.
    obtain ⟨y, hy, hvalue, hyb | ⟨hne, rfl⟩⟩ := hb.coerce ht.isIndex hu.isIndex
    · rw [hself hta, hy]
      simpa only [hvalue] using ha.canProve_fold ht.isIndex hop hyb
    · obtain ⟨x, hx, -⟩ := ha.side ht.isIndex
      obtain ⟨y', hy'⟩ := hb.side_cast ht.isIndex hu.isIndex
      rw [hself hta, hy]
      exact hx.canProve_fold_apart ht.isIndex hop hy' hne.symm (fun _ _ => ha.integer_congr) fun _ _ => hb.integer_congr
  · obtain ⟨x, hx, hvalue, hxa | ⟨hne, rfl⟩⟩ := ha.coerce hu.isIndex ht.isIndex
    · rw [hself hub, hx]
      simpa only [hvalue] using hxa.canProve_fold hu.isIndex hop hb
    · obtain ⟨x', hx'⟩ := ha.side_cast hu.isIndex ht.isIndex
      obtain ⟨y, hy, -⟩ := hb.side hu.isIndex
      rw [hself hub, hx]
      exact hx'.canProve_fold_apart hu.isIndex hop hy hne (fun _ _ => ha.integer_congr) fun _ _ => hb.integer_congr

/-- A condition is built, and it is proved exactly if a proposition holds. -/
def Decides (built : Except Error Expr) (P : Prop) : Prop :=
  ∃ c p, built = .ok c ∧ c.canProve = .ok p ∧ (p = true ↔ P)

/-- Comparisons of linear expressions are decided: for sums, differences and products with a constant factor of
    variables and constants of signed types, a comparison other than `≠` is proved exactly if it holds for all integers
    as the values of the variables. -/
theorem canProve_linear (ht : t.IsSigned) (hu : u.IsSigned) (ha : a.Affine Γ t) (hb : b.Affine Γ u) :
    Decides (Expr.eq a b) (∀ ρ, a.integer ρ = b.integer ρ) ∧ Decides (Expr.lt a b) (∀ ρ, a.integer ρ < b.integer ρ) ∧
      Decides (Expr.le a b) (∀ ρ, a.integer ρ ≤ b.integer ρ) ∧ Decides (Expr.gt a b) (∀ ρ, b.integer ρ < a.integer ρ) ∧
      Decides (Expr.ge a b) (∀ ρ, b.integer ρ ≤ a.integer ρ) := by
  have hdecides {op : BinOp} {R : Int → Int → Prop} (hop : op ∈ [BinOp.eq, .lt, .le, .gt, .ge])
      (hR : ∀ m n, compareDiff op (m - n) = true ↔ R m n) :
      Decides (Expr.arith op a b) (∀ ρ, R (a.integer ρ) (b.integer ρ)) := by
    obtain ⟨c, p, hc, hp, hiff⟩ := ha.canProve_arith ht hu hop hb
    exact ⟨c, p, hc, hp, hiff.trans (forall_congr' fun ρ => hR _ _)⟩
  refine ⟨hdecides (by simp) fun m n => ?_, hdecides (by simp) fun m n => ?_, hdecides (by simp) fun m n => ?_,
    hdecides (R := fun m n => n < m) (by simp) fun m n => ?_, hdecides (R := fun m n => n ≤ m) (by simp) fun m n => ?_⟩ <;>
    simp only [compareDiff, beq_iff_eq, decide_eq_true_eq] <;> omega

namespace Sample

def k : Var := ⟨4, "k", .int64⟩

/-- The variable `x` is of the type `int32` and `k` of the type `int64`. -/
def widths : Context := fun i => if i = k.id then some .int64 else some .int32

/-- `(x + 3) * 2 - (x + x)` -/
def steps : Expr :=
  .bin .sub (.bin .mul (.bin .add (.var x) (int32 3)) (int32 2)) (.bin .add (.var x) (.var x))

/-- `k + 6 - k` -/
def shift : Expr :=
  .bin .sub (.bin .add (.var k) (.const (.int 6) .int64)) (.var k)

theorem steps_eq_shift : ∃ c, Expr.eq steps shift = .ok c ∧ c.canProve = .ok true := by
  have hx : Affine widths .int32 (.var x) := .var rfl rfl
  have hk : Affine widths .int64 (.var k) := .var rfl rfl
  have hsteps : Affine widths .int32 steps :=
    .bin (by simp) nofun (.bin (by simp) (fun _ => .inr rfl) (.bin (by simp) nofun hx (.const 3)) (.const 2))
      (.bin (by simp) nofun hx hx)
  have hshift : Affine widths .int64 shift := .bin (by simp) nofun (.bin (by simp) nofun hk (.const 6)) hk
  have hsame (ρ : Valuation Int) : steps.integer ρ = shift.integer ρ := by
    simp only [steps, shift, int32, integer_bin, integer_var, integer_const, BinOp.onInts, Number.asInt?, Option.getD_some]
    omega
  obtain ⟨c, p, hc, hp, hiff⟩ := (canProve_linear ⟨rfl, rfl⟩ ⟨rfl, rfl⟩ hsteps hshift).1
  exact ⟨c, hc, by rw [hp, hiff.mpr hsame]⟩

end Sample

end Expr

end TensorNest

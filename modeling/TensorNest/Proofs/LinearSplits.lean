import TensorNest.Proofs.LaneConsistency
import TensorNest.Proofs.Likeness
import TensorNest.Proofs.SplitPoints

/-! # Linear splits are exact

An integer expression is split into a multiple of a variable and a rest that does not use it, whatever its atoms are and
whatever values they have (`Expr.linearIn?_splits`). Atoms that are the same are put together, so that the values are
those of the expression if such atoms have one value. That they do is sure for atoms whose constants are of the kind of
their type (`Expr.uniform_of_strict`); two atoms that divide by the two zeros are the same and may differ. -/

namespace TensorNest

namespace Expr

variable {α : Expr → Int} {a b e : Expr} {v : Var} {D : Directory}

/-- The value of a nest of sums, differences and products of integers, given a value for everything else in it. -/
def valueAt (α : Expr → Int) : Expr → Int
  | .const (.int n) _ => n
  | .bin .add a b => a.valueAt α + b.valueAt α
  | .bin .sub a b => a.valueAt α - b.valueAt α
  | .bin .mul a b => a.valueAt α * b.valueAt α
  | e => α e

/-- The expressions that are not taken apart: all but constants, sums, differences and products with a constant. -/
def atoms : Expr → List Expr
  | .const .. => []
  | .bin .add a b | .bin .sub a b => a.atoms ++ b.atoms
  | .bin .mul a b => if b.isConst then a.atoms else if a.isConst then b.atoms else [.bin .mul a b]
  | e => [e]

/-- Whether an expression is neither a constant nor a sum, a difference or a product. -/
def isOpaque : Expr → Bool
  | .const .. | .bin .add .. | .bin .sub .. | .bin .mul .. => false
  | _ => true

/-- Integer scalars: constants, sums, differences and products of such, whatever their types, and any other expressions of
    integer types. -/
inductive IsPolynomial : Expr → Prop
  | const {t : DataType} (ht : t.IsIndex) (n : Int) : IsPolynomial (.const (.int n) t)
  | bin {op : BinOp} {a b : Expr} (hop : op = .add ∨ op = .sub ∨ op = .mul) (ha : IsPolynomial a) (hb : IsPolynomial b) :
    IsPolynomial (.bin op a b)
  | other {e : Expr} (he : e.isOpaque) (ht : e.dtype.IsIndex) : IsPolynomial e

/-- Expressions that are the same have the same value. -/
def Uniform (α : Expr → Int) (es : List Expr) : Prop :=
  ∀ a ∈ es, ∀ b ∈ es, a.same b → a.valueAt α = b.valueAt α

theorem Uniform.mono {es es' : List Expr} (h : Uniform α es) (hsub : es' ⊆ es) : Uniform α es' :=
  fun a ha b hb => h a (hsub ha) b (hsub hb)

theorem uniform_of_strict {es : List Expr} (h : ∀ a ∈ es, a.Strict D) : Uniform α es :=
  fun a ha b hb hsame => congrArg (valueAt α) ((same_iff (h a ha) (h b hb)).mp hsame)

theorem IsPolynomial.isIndex (h : e.IsPolynomial) : e.dtype.IsIndex := by
  induction h with
  | const ht => exact ht
  | bin hop _ _ iha => obtain rfl | rfl | rfl := hop <;> exact iha
  | other _ ht => exact ht

theorem IsPolynomial.eq_const (h : e.IsPolynomial) (hconst : e.isConst) : ∃ n t, e = .const (.int n) t := by
  obtain ⟨x, t, rfl⟩ := exists_of_isConst hconst
  cases h with
  | const _ n => exact ⟨n, t, rfl⟩
  | other he => cases he

/-- What is not taken apart has a value of its own and is its only atom. -/
theorem of_isOpaque (h : e.isOpaque) : (∀ α, e.valueAt α = α e) ∧ e.atoms = [e] ∧
    Linear.ofExpr e = .ok (Linear.atom e) := by
  cases e with
  | const => cases h
  | bin op =>
    cases op with
    | add | sub | mul => cases h
    | _ => exact ⟨fun _ => rfl, rfl, rfl⟩
  | _ => exact ⟨fun _ => rfl, rfl, rfl⟩

/-- The values of the variables give the other atoms values, too. -/
theorem IsPolynomial.valueAt_integer (h : e.IsPolynomial) (ρ : Valuation Int) : e.valueAt (·.integer ρ) = e.integer ρ := by
  induction h with
  | const => rfl
  | bin hop _ _ iha ihb => obtain rfl | rfl | rfl := hop <;> simp only [valueAt, iha, ihb, integer_bin, BinOp.onInts]
  | other he => exact (of_isOpaque he).1 _

end Expr

namespace Linear

variable {α : Expr → Int} {t : DataType} {e s : Expr} {l r : Linear} {v : Var} {c k : Int} {ts us : List (Expr × Int)}

/-- A linear form of an expression: its atoms are atoms of the expression, and it has the value of the expression wherever
    those atoms that are the same have the same value. -/
structure Represents (l : Linear) (e : Expr) : Prop where
  atoms : l.All (· ∈ e.atoms)
  value (α : Expr → Int) (hα : Expr.Uniform α e.atoms) : total (Expr.valueAt α) l.terms + l.const = e.valueAt α

theorem represents_atom (h : e.atoms = [e]) : (atom e).Represents e where
  atoms := all_atom (by rw [h]; exact List.mem_singleton_self e)
  value _ _ := by simp [atom]

theorem Represents.addScaled {a b : Expr} (hl : l.Represents a) (hr : r.Represents b) (k : Int)
    (hatoms : e.atoms = a.atoms ++ b.atoms) (hvalue : ∀ α, e.valueAt α = a.valueAt α + k * b.valueAt α) :
    (l.addScaled k r).Represents e where
  atoms := by
    rw [hatoms]
    refine All.addScaled (fun p hp => ?_) (fun p hp => ?_) k
    · exact List.mem_append_left _ (hl.atoms p hp)
    · exact List.mem_append_right _ (hr.atoms p hp)
  value α hα := by
    rw [hatoms] at hα
    have hmem : ∀ p ∈ l.terms ++ r.terms, p.1 ∈ a.atoms ++ b.atoms := fun p hp =>
      List.mem_append.mpr ((List.mem_append.mp hp).imp (hl.atoms p) (hr.atoms p))
    have hsum := total_addTerms (fun p hp q hq => hα p.1 (hmem p hp) q.1 (hmem q (List.mem_append_right _ hq))) k
    rw [hvalue, ← hl.value α (hα.mono (List.subset_append_left ..)), ← hr.value α (hα.mono (List.subset_append_right ..))]
    show total (Expr.valueAt α) (r.terms.foldl _ l.terms) + (l.const + k * r.const) = _
    rw [hsum]
    ring

theorem Represents.scale {a : Expr} (hl : l.Represents a) (k : Int) (hatoms : e.atoms = a.atoms)
    (hvalue : ∀ α, e.valueAt α = a.valueAt α * k) : (l.scale k).Represents e where
  atoms := hatoms ▸ hl.atoms.scale k
  value α hα := by
    rw [hvalue, ← hl.value α (hatoms ▸ hα)]
    show total (Expr.valueAt α) (l.terms.map _) + l.const * k = _
    rw [total_scale]
    ring

theorem ofExpr_const_mul {x : Number} {u : DataType} {b : Expr} (hb : b.isConst = false) :
    ofExpr (.bin .mul (.const x u) b) = ofExpr b >>= fun l => x.toInt >>= fun k => .ok (l.scale k) := by
  cases b with
  | const => cases hb
  | _ => rfl

theorem gives_ofExpr_represents (he : e.IsPolynomial) : Gives (ofExpr e) (·.Represents e) := by
  induction he with
  | const _ n => exact ⟨_, rfl, List.forall_mem_nil _, fun _ _ => by simp [ofConst, Expr.valueAt]⟩
  | other he =>
    rw [(Expr.of_isOpaque he).2.2]
    exact gives_ok (represents_atom (Expr.of_isOpaque he).2.1)
  | @bin op a b hop ha hb iha ihb =>
    obtain rfl | rfl | rfl := hop
    · refine iha.bind fun l hl => ihb.bind fun r hr => gives_ok (hl.addScaled hr 1 rfl fun α => ?_)
      rw [Expr.valueAt, Int.one_mul]
    · refine iha.bind fun l hl => ihb.bind fun r hr => gives_ok (hl.addScaled hr (-1) rfl fun α => ?_)
      rw [Expr.valueAt, Int.neg_one_mul, Int.sub_eq_add_neg]
    -- A product is taken apart if one of its sides is a constant.
    · by_cases hbc : b.isConst
      · obtain ⟨n, _, rfl⟩ := hb.eq_const hbc
        exact iha.bind fun l hl => gives_ok (hl.scale n rfl fun _ => rfl)
      by_cases hac : a.isConst
      · obtain ⟨n, _, rfl⟩ := ha.eq_const hac
        rw [ofExpr_const_mul (Bool.eq_false_of_not_eq_true hbc)]
        exact ihb.bind fun l hl => gives_ok (hl.scale n ((if_neg hbc).trans (if_pos rfl)) fun α => Int.mul_comm ..)
      · rw [ofExpr_mul_of_ne (by rintro x u rfl; exact hac rfl) (by rintro x u rfl; exact hbc rfl)]
        exact gives_ok (represents_atom ((if_neg hbc).trans (if_neg hac)))

/-! ### What is written -/

theorem uses_const {n : Number} : (Expr.const n t).uses v = false :=
  Expr.uses_eq_any rfl

theorem uses_bin {op : BinOp} {a b : Expr} (h : (Expr.bin op a b).uses v) : a.uses v ∨ b.uses v := by
  simpa [Expr.uses_eq_any (e := .bin op a b) rfl, Expr.parts] using h

/-- A multiple of an expression, which uses no other variables. -/
structure IsTerm (e : Expr) (k : Int) (s : Expr) : Prop where
  value (α : Expr → Int) : s.valueAt α = k * e.valueAt α
  uses (v : Var) (h : s.uses v) : e.uses v

/-- A sum that is written for terms and a constant: it has their value whatever the values of the atoms are, and it uses a
    variable only in an atom of which the coefficient is not 0. -/
structure IsSum (ts : List (Expr × Int)) (k : Int) (s : Expr) : Prop where
  value (α : Expr → Int) : s.valueAt α = total (Expr.valueAt α) ts + k
  uses (v : Var) (h : s.uses v) : ∃ p ∈ live ts, p.1.uses v

/-- What is written so far for some terms; nothing is written for 0. -/
def SumSoFar (ts : List (Expr × Int)) : Option Expr → Prop
  | none => ∀ α, total α ts = 0
  | some s => IsSum ts 0 s

theorem total_append : total α (us ++ ts) = total α us + total α ts := by
  simp [total]

theorem live_append : live (us ++ ts) = live us ++ live ts :=
  List.filter_append ..

theorem IsTerm.isSum (h : IsTerm e k s) (hk : k ≠ 0) (hus : ∀ α, total α us = 0) : IsSum (us ++ [(e, k)]) 0 s where
  value α := by simp [h.value, total_append, hus]
  uses v hv := ⟨(e, k), by simp [live, hk], h.uses v hv⟩

/-- A term is added to a sum or subtracted from it. -/
theorem IsSum.term {op : BinOp} {d : Int} {r : Expr} (hs : IsSum us 0 s) (hr : IsTerm e d r) (hk : k ≠ 0)
    (hop : op = .add ∧ d = k ∨ op = .sub ∧ d = -k) : IsSum (us ++ [(e, k)]) 0 (.bin op s r) where
  value α := by
    obtain ⟨rfl, rfl⟩ | ⟨rfl, rfl⟩ := hop <;> simp [Expr.valueAt, hs.value, hr.value, total_append]
  uses v hv := by
    obtain hv | hv := uses_bin hv
    · obtain ⟨p, hp, huses⟩ := hs.uses v hv
      exact ⟨p, live_append ▸ List.mem_append_left _ hp, huses⟩
    · exact ⟨(e, k), by simp [live, hk], hr.uses v hv⟩

theorem isTerm_scaled (k : Int) : IsTerm e k (.bin .mul e (.const (.int k) t)) where
  value _ := Int.mul_comm ..
  uses _ hv := (uses_bin hv).resolve_right (by simp [uses_const])

section Writing
variable (ht : t.IsIndex)
include ht

theorem gives_termExpr_isTerm (k : Int) : Gives (termExpr t e k) (IsTerm e k.natAbs) := by
  unfold termExpr
  split
  · rw [‹k.natAbs = 1›]
    exact gives_ok ⟨fun _ => (Int.one_mul _).symm, fun _ => id⟩
  · rw [ofInt_eq ht]
    exact gives_ok (isTerm_scaled _)

/-- Terms are added to what is written so far. -/
theorem SumSoFar.terms {acc : Option Expr} (h : SumSoFar us acc) : Gives (sumTerms t acc ts) (SumSoFar (us ++ ts)) := by
  induction ts generalizing acc us with
  | nil => exact gives_ok (by simpa using h)
  | cons p ts ih =>
    obtain ⟨e, k⟩ := p
    have hnext {acc : Option Expr} (h : SumSoFar (us ++ [(e, k)]) acc) :
        Gives (sumTerms t acc ts) (SumSoFar (us ++ (e, k) :: ts)) := by
      simpa using ih h
    unfold sumTerms
    split
    · refine hnext ?_
      subst k
      cases acc with
      | none => exact fun α => by simp [total_append, h α]
      | some s =>
        exact ⟨fun α => by simp [total_append, h.value α], fun v hv => by simpa [live] using h.uses v hv⟩
    · rename_i hk
      refine (gives_termExpr_isTerm ht k).bind fun term hterm => ?_
      cases acc with
      | none =>
        simp only [ofInt_eq ht]
        split
        · rw [Int.natAbs_of_nonneg (by omega)] at hterm
          exact hnext (hterm.isSum hk h)
        · exact hnext ((isTerm_scaled k).isSum hk h)
      | some s =>
        refine hnext (IsSum.term h hterm hk ?_)
        split
        · exact .inl ⟨rfl, by omega⟩
        · exact .inr ⟨rfl, by omega⟩

/-- What is written for a form has its value and uses only the variables of the atoms that are written. -/
theorem gives_toExpr_isSum (l : Linear) : Gives (l.toExpr t) (IsSum l.terms l.const) := by
  have hconst {op : BinOp} {s : Expr} {k c : Int} (hs : IsSum l.terms 0 s) (hop : op = .add ∧ c = k ∨ op = .sub ∧ c = -k) :
      IsSum l.terms k (.bin op s (.const (.int c) t)) := by
    refine ⟨fun α => ?_, fun v hv => hs.uses v ((uses_bin hv).resolve_right (by simp [uses_const]))⟩
    obtain ⟨rfl, rfl⟩ | ⟨rfl, rfl⟩ := hop <;> simp [Expr.valueAt, hs.value]
  have hnone : SumSoFar [] none := fun _ => rfl
  unfold toExpr
  simp only [ofInt_eq ht]
  refine (hnone.terms ht).bind fun o ho => ?_
  rw [List.nil_append] at ho
  cases o with
  | none =>
    exact gives_ok ⟨fun α => by simp [Expr.valueAt, ho (Expr.valueAt α)], fun v hv => by simp [uses_const] at hv⟩
  | some s =>
    have hs : IsSum l.terms 0 s := ho
    dsimp only
    split
    · exact gives_ok (hconst hs (.inl ⟨rfl, rfl⟩))
    split
    · exact gives_ok (hconst hs (.inr ⟨rfl, rfl⟩))
    · rw [show l.const = 0 by omega]
      exact gives_ok hs

end Writing

end Linear

namespace Expr

variable {e : Expr}

/-- A split of an integer expression succeeds. It gives a coefficient of the variable and a rest that does not use the
    variable, and whatever the values of the atoms are, if those that are the same have one value, the expression has
    the value of the multiple of the variable and the rest. No split is given only if an atom other than the variable
    uses it. -/
theorem linearIn?_splits (he : e.IsPolynomial) (v : Var) : Gives (e.linearIn? (some (.var v))) fun o =>
    (∀ p ∈ o, p.2.uses v = false ∧
      ∀ α, Uniform α (.var v :: e.atoms) → e.valueAt α = p.1 * α (.var v) + p.2.valueAt α) ∧
    (o = none → ∃ a ∈ e.atoms, ¬ a.same (.var v) ∧ a.uses v) := by
  obtain ⟨l, hl, hform⟩ := Linear.gives_ofExpr_represents he
  have hdistinct : Linear.Distinct l.terms := Linear.ensures_ofExpr_distinct e l hl
  let rest := l.terms.filter fun p => !p.1.same (.var v)
  obtain ⟨r, hr, hsum⟩ := Linear.gives_toExpr_isSum he.isIndex ⟨rest, l.const⟩
  have hrun : e.linearIn? (some (.var v)) =
      if ((Linear.live rest).map (·.1)).any (·.uses v) then .ok none else .ok (some (l.coefficient (.var v), r)) := by
    have htoExpr : Linear.toExpr { l with terms := rest } e.dtype = .ok r := hr
    unfold linearIn?
    rw [hl]
    dsimp only [Bind.bind, Except.bind, Option.any_some, Option.map_some, Option.getD_some]
    rw [htoExpr]
    rfl
  rw [hrun]
  split
  · rename_i hlive
    obtain ⟨p, hp, huses⟩ : ∃ p ∈ Linear.live rest, p.1.uses v := by simpa [List.any_eq_true] using hlive
    obtain ⟨hp, hne⟩ := List.mem_filter.mp (List.mem_of_mem_filter hp)
    exact gives_ok ⟨nofun, fun _ => ⟨p.1, hform.atoms p hp, by simpa using hne, huses⟩⟩
  · rename_i hlive
    refine gives_ok ⟨fun p hp => ?_, nofun⟩
    obtain rfl := Option.some.inj hp
    refine ⟨Bool.eq_false_iff.mpr fun huses => hlive ?_, fun α hα => ?_⟩
    · obtain ⟨p, hp, huses⟩ := hsum.uses v huses
      exact List.any_eq_true.mpr ⟨p.1, List.mem_map_of_mem hp, huses⟩
    · have hsplit := Linear.total_split (f := valueAt α) (v := v) hdistinct fun p hp =>
        hα p.1 (List.mem_cons_of_mem _ (hform.atoms p hp)) _ List.mem_cons_self
      rw [← hform.value α (hα.mono (List.subset_cons_self ..)), hsum.value, hsplit]
      exact Int.add_assoc ..

namespace Cancelled

def v : Var := ⟨0, "v", .int32⟩

def x : Var := ⟨1, "x", .int32⟩

def y : Var := ⟨2, "y", .int32⟩

def product : Expr := .bin .mul (.var x) (.var v)

/-- `x * v + (2 * v + y) - x * v` -/
def sum : Expr :=
  .bin .sub (.bin .add product (.bin .add (.bin .mul (int32 2) (.var v)) (.var y))) product

def directory : Directory where
  var i := [v, x, y].getD i v
  op i := ⟨i, "", true, 1⟩

/-- The product of the variable is cancelled, so that the sum is linear in the variable. -/
theorem sum_splits : sum.linearIn? (some (.var v)) = .ok (some (2, .var y)) ∧ (Expr.var y).uses v = false ∧
    ∀ α, sum.valueAt α = 2 * α (.var v) + (Expr.var y).valueAt α := by
  have hvar {w : Var} (hw : w.dtype.IsIndex) : (Expr.var w).IsPolynomial := .other rfl hw
  have hproduct : product.IsPolynomial := .bin (by simp) (hvar ⟨rfl, rfl⟩) (hvar ⟨rfl, rfl⟩)
  have htwice : (Expr.bin .mul (int32 2) (.var v)).IsPolynomial := .bin (by simp) (.const ⟨rfl, rfl⟩ 2) (hvar ⟨rfl, rfl⟩)
  have hsum : sum.IsPolynomial :=
    .bin (by simp) (.bin (by simp) hproduct (.bin (by simp) htwice (hvar ⟨rfl, rfl⟩))) hproduct
  have hstrict : ∀ a ∈ .var v :: sum.atoms, a.Strict directory := by
    have hatoms : sum.atoms = [product, .var v, .var y, product] := rfl
    have hpair : product.Strict directory := ⟨rfl, rfl⟩
    simp only [hatoms, List.forall_mem_cons]
    exact ⟨rfl, hpair, rfl, rfl, hpair, List.forall_mem_nil _⟩
  have hrun : sum.linearIn? (some (.var v)) = .ok (some (2, .var y)) := by with_unfolding_all rfl
  obtain ⟨o, ho, hsplit, -⟩ := linearIn?_splits hsum v
  obtain rfl : some (2, .var y) = o := Except.ok.inj (hrun.symm.trans ho)
  obtain ⟨huses, hvalue⟩ := hsplit _ rfl
  exact ⟨hrun, huses, fun α => hvalue α (uniform_of_strict hstrict)⟩

end Cancelled

end Expr

end TensorNest

import Mathlib.Tactic.Ring
import TensorNest.Lowering.Partition
import TensorNest.Proofs.LinearComparisons
import TensorNest.Proofs.Partitions

/-! # What split points are

A guard that compares index arithmetic holds exactly below its split point (`Expr.IsGuard.splitPoint?`). The point at
which a loop is split lies in the loop and not above the split points, and the numbers of iterations before and after it
make up the extent (`Stmt.ensures_splitBounds_amounts`). -/

namespace TensorNest

/-! ### Linear forms -/

namespace Linear

variable {Γ : Context} {t : DataType} {e : Expr} {v w : Var} {n : Int} {ν : Valuation Int} {ts : List (Expr × Int)}

theorem ensures_ofExpr_distinct (e : Expr) : Ensures (ofExpr e) fun l => Distinct l.terms := by
  have hatom (e : Expr) : Ensures (.ok (atom e)) fun l => Distinct l.terms := ensures_ok (List.pairwise_singleton ..)
  induction e with
  | const x t => exact (ensures_trivial (x := x.toInt)).bind fun k _ => ensures_ok List.Pairwise.nil
  | bin op a b iha ihb =>
    cases op with
    | add | sub => exact iha.bind fun l hl => ensures_trivial.bind fun r _ => ensures_ok hl.addTerms
    | mul =>
      unfold ofExpr
      split
      · exact iha.bind fun l hl => ensures_trivial.bind fun k _ => ensures_ok (hl.map (· * k))
      · exact ihb.bind fun l hl => ensures_trivial.bind fun k _ => ensures_ok (hl.map (· * k))
      · exact hatom _
    | _ => exact hatom _
  | _ => exact hatom _

theorem same_var_var : (Expr.var w).same (.var v) = (w.id == v.id) := by
  simp [Expr.same, Matching.expr, Matching.identity]

theorem same_var (h : e.same (.var v)) : ∃ w : Var, e = .var w ∧ w.id = v.id := by
  cases e with
  | var w => exact ⟨w, rfl, beq_iff_eq.mp (same_var_var.symm.trans h)⟩
  | _ => simp [Expr.same, Matching.expr] at h

/-- The value of a sum, with one variable split off. -/
theorem total_split {f : Expr → Int} (hts : Distinct ts) (hf : ∀ p ∈ ts, p.1.same (.var v) → f p.1 = f (.var v)) :
    total f ts =
    ((ts.find? fun p => p.1.same (.var v)).map (·.2)).getD 0 * f (.var v) + total f (ts.filter fun p =>
      !p.1.same (.var v)) := by
  induction ts with
  | nil => simp
  | cons p ts ih =>
    obtain ⟨hp, hts⟩ := List.pairwise_cons.mp hts
    obtain ⟨hvalue, hf⟩ := List.forall_mem_cons.mp hf
    cases hsame : p.1.same (.var v) with
    | true =>
      obtain ⟨w, hw, hid⟩ := same_var hsame
      -- No other term has the variable for its atom.
      have hrest : ts.filter (fun q => !q.1.same (.var v)) = ts := by
        refine List.filter_eq_self.mpr fun q hq => ?_
        cases hq' : q.1.same (.var v) with
        | false => rfl
        | true =>
          obtain ⟨u, hu, hid'⟩ := same_var hq'
          have hne := hp q hq
          simp [hw, hu, same_var_var, hid, hid'] at hne
      simp only [List.find?_cons, List.filter_cons, hsame, Bool.not_true, Bool.false_eq_true, if_false, hrest, total_cons,
        hvalue hsame]
      rfl
    | false =>
      simp only [List.find?_cons, List.filter_cons, hsame, Bool.not_false, if_true, total_cons, ih hts hf]
      ring

theorem sum_split (hts : Distinct ts) (v : Var) (ν : Valuation Int) : sum ts ν =
    ((ts.find? fun p => p.1.same (.var v)).map (·.2)).getD 0 * ν v.id + sum (ts.filter fun p => !p.1.same (.var v)) ν :=
  total_split (f := (·.integer ν)) hts fun p _ hsame => by
    obtain ⟨w, hw, hid⟩ := same_var hsame
    rw [hw, Expr.integer_var, Expr.integer_var, hid]

end Linear

/-! ### Guards -/

namespace Expr

variable {Γ : Context} {e c p : Expr} {v : Var} {m n : Int} {ν : Valuation Int}

theorem Amounts.neg (h : e.Amounts Γ ν n) : Ensures (neg e) (Amounts Γ ν · (-n)) := by
  obtain ⟨t, ht, h⟩ := h
  have hneg : Expr.neg e = ofInt 0 t.element >>= fun z => Expr.arith .sub z e := by rw [← h.dtype]; rfl
  rw [hneg, ht.element]
  have hzero : Ensures (ofInt 0 t) (Evaluates Γ [] False ν t · 0) := (Linear.gives_ofInt_evaluates ht 0).ensures
  refine hzero.bind fun z hz => ?_
  have hsub := Amounts.arith (rfl : BinOp.sub.isLogical = false) ⟨t, ht, hz⟩ ⟨t, ht, h⟩
  rwa [show BinOp.sub.onInts 0 n = -n from Int.zero_sub n] at hsub

/-- What is left of an index that is linear in a variable. -/
theorem Amounts.linearIn? (h : e.Amounts Γ ν n) (v : Var) : Ensures (e.linearIn? (some (.var v)))
    (∀ q ∈ ·, q.2.Amounts Γ ν (n - q.1 * ν v.id)) := by
  obtain ⟨t, ht, h⟩ := h
  unfold Expr.linearIn?
  intro o ho
  obtain ⟨l, hl, ho⟩ := bind_eq_ok.mp ho
  have hl' := (Linear.gives_ofExpr_evaluates ht h).ensures l hl
  have hsum := Linear.sum_split (Linear.ensures_ofExpr_distinct e l hl) v ν
  have hvalue := hl'.value
  rw [Linear.integer, hsum] at hvalue
  dsimp only at ho
  split at ho
  · cases ho
    rintro q ⟨⟩
  · obtain ⟨rest, hrest, ho⟩ := bind_eq_ok.mp ho
    cases ho
    rintro q hq
    obtain rfl := Option.some.inj hq
    rw [h.dtype] at hrest
    refine ⟨t, ht, (Linear.gives_toExpr_evaluates ht ⟨fun p hp => hl'.atoms p (List.mem_of_mem_filter hp),
      ?_⟩).ensures rest hrest⟩
    simp only [Linear.integer, Option.any_some, Option.map_some, Option.getD_some, Linear.coefficient]
    omega

/-- An index scalar in which nothing is bound. -/
structure Scalar (Γ : Context) (t : DataType) (e : Expr) : Prop where
  index : t.IsIndex
  typed : e.Typed Γ t
  unbound : e.boundVars = []

theorem Scalar.amounts {t : DataType} (h : e.Scalar Γ t) (ν : Valuation Int) : e.Amounts Γ ν (e.integer ν) :=
  ⟨t, h.index, h.typed, fun x hx => (h.unbound ▸ hx : x ∈ []), rfl, False.elim⟩

/-- A mark of likelihood on a comparison of indices. -/
def IsGuard (Γ : Context) (c : Expr) : Prop :=
  ∃ t a b, a.Scalar Γ t ∧ b.Scalar Γ t ∧ c = .call .bool "likely" [.bin .lt a b] .pureIntrinsic none 0

/-- A guard holds exactly below its split point. -/
theorem IsGuard.splitPoint? (h : c.IsGuard Γ) (hp : c.splitPoint? v = .ok (some p)) (ν : Valuation Int) :
    p.Amounts Γ ν (p.integer ν) ∧ c.integer ν = (decide (ν v.id < p.integer ν)).toInt := by
  obtain ⟨t, a, b, ha, hb, rfl⟩ := h
  have hpoint : Ensures ((Expr.call .bool "likely" [.bin .lt a b] .pureIntrinsic none 0).splitPoint? v)
      (∀ p ∈ ·, p.Amounts Γ ν (b.integer ν - a.integer ν + ν v.id)) := by
    unfold Expr.splitPoint?
    rw [if_neg (by simp [isIntrinsic])]
    refine ((ha.amounts ν).arith (rfl : BinOp.sub.isLogical = false) (hb.amounts ν)).bind fun d hd =>
      hd.simplify.ensures.bind fun s hs =>
      (hs.linearIn? v).bind fun o ho => ?_
    split
    · next rest =>
      refine (ho _ rfl).neg.bind fun e he => he.simplify.ensures.bind fun q hq => ensures_ok fun q' hq' => ?_
      obtain rfl := Option.some.inj hq'
      have hvalue : -(BinOp.sub.onInts (a.integer ν) (b.integer ν) - 1 * ν v.id) = b.integer ν - a.integer ν + ν v.id := by
        show -(a.integer ν - b.integer ν - 1 * ν v.id) = _
        ring
      exact hvalue ▸ hq
    · exact ensures_ok nofun
  have hamounts := hpoint _ hp p rfl
  refine ⟨hamounts.value ▸ hamounts, ?_⟩
  have hbelow : (a.integer ν < b.integer ν) ↔ ν v.id < p.integer ν := by
    rw [hamounts.value]
    omega
  rw [integer_likely, integer_bin]
  exact congrArg Bool.toInt (decide_eq_decide.mpr hbelow)

end Expr

/-! ### Bounds -/

namespace Stmt

variable {Γ : Context} {ν : Valuation Int} {min extent : Expr} {points : List Expr} {a n : Int}

/-- Where a loop from `a` over `n` values is split, if the least of its split points is `p`. -/
def cut (a n p : Int) : Int :=
  Max.max a (Min.min p (a + n))

theorem ensures_least {p : Expr} {P : Expr → Int} {ps : List Expr} {k : Int} (hp : p.Amounts Γ ν k)
    (hps : ∀ q ∈ ps, q.Amounts Γ ν (P q)) :
    Ensures (ps.foldlM (fun (p q : Expr) => Expr.minimum p q) p) fun e => ∃ k', e.Amounts Γ ν k' ∧ k' ≤ k ∧
      ∀ q ∈ ps, k' ≤ P q := by
  induction ps generalizing p k with
  | nil => exact ensures_ok ⟨k, hp, Int.le_refl k, List.forall_mem_nil _⟩
  | cons q ps ih =>
    obtain ⟨hq, hps⟩ := List.forall_mem_cons.mp hps
    rw [List.foldlM_cons]
    refine (hp.arith (rfl : BinOp.min.isLogical = false) hq).bind fun e he => ?_
    intro e' hrun
    obtain ⟨k', hk', hle, hall⟩ := ih he hps e' hrun
    have hmin : k' ≤ Min.min k (P q) := hle
    exact ⟨k', hk', by omega, List.forall_mem_cons.mpr ⟨by omega, hall⟩⟩

/-- The bounds of the two loops that a loop is split into. -/
theorem ensures_splitBounds_amounts (hmin : min.Amounts Γ ν a) (hextent : extent.Amounts Γ ν n) (hne : points ≠ [])
    {P : Expr → Int}
    (hpoints : ∀ p ∈ points, p.Amounts Γ ν (P p)) : Ensures (splitBounds min extent points) fun b =>
      ∃ k, (∀ p ∈ points, k ≤ P p) ∧ b.1.Amounts Γ ν (cut a n k) ∧ b.2.1.Amounts Γ ν (cut a n k - a) ∧
        b.2.2.Amounts Γ ν (a + n - cut a n k) := by
  obtain _ | ⟨p, ps⟩ := points
  · exact absurd rfl hne
  obtain ⟨hp, hps⟩ := List.forall_mem_cons.mp hpoints
  refine (ensures_least hp hps).bind fun e ⟨k, he, hle, hall⟩ => ?_
  refine (hmin.arith (rfl : BinOp.add.isLogical = false) hextent).bind fun stop hstop =>
    (he.arith (rfl : BinOp.min.isLogical = false) hstop).bind fun lower hlower => ?_
  refine (hmin.arith (rfl : BinOp.max.isLogical = false) hlower).bind fun raised hraised =>
    hraised.simplify.ensures.bind fun point hpoint => ?_
  refine (hpoint.arith (rfl : BinOp.sub.isLogical = false) hmin).bind fun d hd =>
    hd.simplify.ensures.bind fun first hfirst => ?_
  refine (hstop.arith (rfl : BinOp.sub.isLogical = false) hpoint).bind fun d hd =>
    hd.simplify.ensures.bind fun rest hrest => ?_
  exact ensures_ok ⟨k, List.forall_mem_cons.mpr ⟨hle, hall⟩, hpoint, hfirst, hrest⟩

end Stmt

end TensorNest

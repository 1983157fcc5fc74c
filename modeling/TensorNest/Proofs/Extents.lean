import Mathlib.Data.List.Nodup
import TensorNest.Proofs.Coordinates
import TensorNest.Proofs.Simplification

/-! # Extents and positions in terms of symbols

The ranges of the axes of a stage, and the values of the axes at a point of the leaf axes, are expressions. What is
built for them denotes integers in terms of symbols (`Expr.Amounts`), of index types that may differ. Extents are
sized by the relations as the domains of the axes require (`Ranges.ensures_deriveAll`, `Stage.Measured`), and the
values are computed back from those of the leaf axes (`AxisValues.ensures_recoverAll`, `Stage.Located`).

Computations on expressions may fail, on an expression of no scalar type for one. So what is said is about their
results, if they have any (`Ensures`). -/

namespace TensorNest

/-- The result of a computation, if it has one, has a property. -/
def Ensures {α : Type} (x : Except Error α) (P : α → Prop) : Prop :=
  ∀ a, x = .ok a → P a

section Ensures
variable {α β : Type} {x : Except Error α} {P : α → Prop} {Q : β → Prop}

theorem ensures_ok {a : α} (h : P a) : Ensures (.ok a) P := by
  rintro _ ⟨⟩
  exact h

theorem ensures_error {e : Error} : Ensures (.error e) P := fun _ => nofun

theorem Ensures.bind {f : α → Except Error β} (hx : Ensures x P) (hf : ∀ a, P a → Ensures (f a) Q) :
    Ensures (x >>= f) Q := by
  intro b hb
  obtain ⟨a, ha, hb⟩ := bind_eq_ok.mp hb
  exact hf a (hx a ha) b hb

theorem Gives.ensures (hx : Gives x P) : Ensures x P := by
  obtain ⟨a, rfl, ha⟩ := hx
  exact ensures_ok ha

end Ensures

/-! ### Scalars of mixed types -/

/-- Two index types combine to an index type, if at all. -/
theorem DataType.IsIndex.combine {t u : DataType} (ht : t.IsIndex) (hu : u.IsIndex) (l r : Bool) :
    Ensures (DataType.combine t u l r) IsIndex := by
  have hlanes {v : DataType} (hv : v.IsIndex) : v.withLanes (max t.lanes u.lanes) = v := by
    rw [ht.scalar, hu.scalar, DataType.withLanes]
    exact congrArg (DataType.mk v.code v.bits) hv.scalar.symm
  unfold DataType.combine
  simp only [hlanes ht, hlanes hu]
  split
  · exact ensures_ok ht
  split
  · exact ensures_error
  split
  · exact ensures_error
  split
  · exact ensures_ok hu
  split
  · exact ensures_ok ht
  split
  · exact ensures_ok ht
  split
  · exact ensures_ok hu
  split
  · rename_i hcode
    refine ensures_ok ⟨?_, by rw [ht.scalar, hu.scalar, max_self]⟩
    -- The wider of two types that are no truth values is none.
    obtain hle | hle := Nat.le_total t.bits u.bits
    · rw [Nat.max_eq_right hle, hcode]
      exact hu.integer
    · rw [Nat.max_eq_left hle]
      exact ht.integer
  · exact ensures_error

namespace Expr

section Mixed
variable {Γ : Context} {B : List Nat} {H : Prop} {ρ : Valuation Int} {t u : DataType} {a b e : Expr} {m n : Int}
  {op : BinOp}

theorem Evaluates.coerce (ht : t.IsIndex) (hu : u.IsIndex) (h : Evaluates Γ B H ρ u e n) :
    Gives (coerce e t) (Evaluates Γ B H ρ t · n) := by
  unfold Expr.coerce
  rw [h.dtype]
  split
  · exact gives_ok (‹u = t› ▸ h)
  · split
    · obtain ⟨-, hx⟩ := h.literal
      obtain rfl := hx.eq_int hu
      rw [ht.element, ht.scalar, ofNumber_int ht]
      exact gives_ok (evaluates_int ht n)
    · rw [if_neg (by simp [ht.scalar])]
      exact gives_ok (h.cast ht hu)

/-- Two sides of index types are brought to one index type. -/
theorem Evaluates.operands (ht : t.IsIndex) (hu : u.IsIndex) (ha : Evaluates Γ B H ρ t a m) (hb : Evaluates Γ B H ρ u b n) :
    Ensures (operands a b) fun p => ∃ w : DataType, w.IsIndex ∧ Evaluates Γ B H ρ w p.1 m ∧ Evaluates Γ B H ρ w p.2 n := by
  have hoperands : Expr.operands a b =
      DataType.combine a.dtype b.dtype (Operand.expr a).isConstLike (Operand.expr b).isConstLike >>=
      fun t => Expr.coerce a t >>= fun x => Expr.coerce b t >>= fun y => .ok (x, y) := rfl
  rw [hoperands, ha.dtype, hb.dtype]
  refine (ht.combine hu _ _).bind fun w hw => ?_
  refine (ha.coerce hw ht).ensures.bind fun x hx => (hb.coerce hw hu).ensures.bind fun y hy => ?_
  exact ensures_ok ⟨w, hw, hx, hy⟩

/-- The free variables of a well-typed expression are known. -/
theorem Typed.known (h : e.Typed Γ t) : ∀ x ∈ e.freeIds, Γ x ≠ none := by
  induction h with
  | var hv => simp [freeIds, hv]
  | const => simp [freeIds]
  | cast _ _ _ ih | not _ ih => exact ih
  | bin _ _ _ iha ihb => exact List.forall_mem_append.mpr ⟨iha, ihb⟩
  | select _ _ _ ihc iha ihb => exact List.forall_mem_append.mpr ⟨List.forall_mem_append.mpr ⟨ihc, iha⟩, ihb⟩
  | @bind Γ _ v _ _ _ _ _ iha ihb =>
    refine List.forall_mem_append.mpr ⟨iha, fun x hx => ?_⟩
    obtain ⟨hx, hne⟩ := List.mem_filter.mp hx
    have hknown := ihb x hx
    rwa [Context.extend, Function.update_of_ne (of_decide_eq_true hne)] at hknown
  | likely _ ih =>
    intro x hx
    exact ih x (by simpa [freeIds] using hx)

/-- A context and a valuation extend others. -/
def Extends (Γ Γ' : Context) (ρ ρ' : Valuation Int) : Prop :=
  ∀ x t, Γ x = some t → Γ' x = some t ∧ ρ' x = ρ x

theorem Evaluates.widen {Γ' : Context} {ρ' : Valuation Int} (h : Evaluates Γ B False ρ t e n) (hext : Extends Γ Γ' ρ ρ') :
    Evaluates Γ' B False ρ' t e n where
  typed := h.typed.mono fun x _ u hu => (hext x u hu).1
  bound := h.bound
  value := by
    rw [← h.value]
    refine value_congr (fun _ _ => rfl) fun x hx => ?_
    obtain ⟨u, hu⟩ := Option.ne_none_iff_exists'.mp (h.typed.known x hx)
    exact (hext x u hu).2
  defined := False.elim

end Mixed

/-- An integer scalar in which nothing is bound has a value. -/
def Amounts (Γ : Context) (ρ : Valuation Int) (e : Expr) (n : Int) : Prop :=
  ∃ t : DataType, t.IsIndex ∧ Evaluates Γ [] False ρ t e n

section Amounts
variable {Γ Γ' : Context} {ρ ρ' : Valuation Int} {a b c e : Expr} {m n : Int} {op : BinOp}

theorem Amounts.widen (h : e.Amounts Γ ρ n) (hext : Extends Γ Γ' ρ ρ') : e.Amounts Γ' ρ' n := by
  obtain ⟨t, ht, h⟩ := h
  exact ⟨t, ht, h.widen hext⟩

theorem amounts_var {v : Var} (hv : Γ v.id = some v.dtype) (ht : v.dtype.IsIndex) : (var v).Amounts Γ ρ (ρ v.id) :=
  ⟨v.dtype, ht, .var hv ht, nofun, rfl, False.elim⟩

theorem Amounts.value (h : e.Amounts Γ ρ n) : e.integer ρ = n := by
  obtain ⟨t, -, h⟩ := h
  exact h.value

theorem Amounts.arith (hop : op.isLogical = false) (ha : a.Amounts Γ ρ m) (hb : b.Amounts Γ ρ n) :
    Ensures (arith op a b) (Amounts Γ ρ · (op.onInts m n)) := by
  obtain ⟨t, ht, ha⟩ := ha
  obtain ⟨u, hu, hb⟩ := hb
  refine (ha.operands ht hu hb).bind fun p ⟨w, hw, hx, hy⟩ => ?_
  exact fun e he => ⟨w, hw, (hx.fold (.arith hop hw) hy False.elim).ensures e he⟩

theorem Amounts.compare (hop : op.isComparison) (ha : a.Amounts Γ ρ m) (hb : b.Amounts Γ ρ n) :
    Ensures (Expr.arith op a b) (Evaluates Γ [] False ρ .bool · (op.onInts m n)) := by
  obtain ⟨t, ht, ha⟩ := ha
  obtain ⟨u, hu, hb⟩ := hb
  refine (ha.operands ht hu hb).bind fun p ⟨w, hw, hx, hy⟩ => ?_
  exact (hx.fold (.compare hop) hy False.elim).ensures

/-- The quotient rounded up, as the builder computes it. -/
theorem Amounts.ceilDiv (ha : a.Amounts Γ ρ m) (hb : b.Amounts Γ ρ n) :
    Ensures (ceilDiv a b) (Amounts Γ ρ · ((m + (n - 1)).tdiv n)) := by
  obtain ⟨t, ht, ha⟩ := ha
  obtain ⟨u, hu, hb⟩ := hb
  have harith {op : BinOp} {x y : Expr} {k l : Int} (hop : op.isLogical = false) {w : DataType} (hw : w.IsIndex)
      (hx : Evaluates Γ [] False ρ w x k) (hy : Evaluates Γ [] False ρ w y l) :
      Ensures (Expr.arith op x y) (Evaluates Γ [] False ρ w · (op.onInts k l)) :=
    (hx.arith (.arith hop hw) hy False.elim).ensures
  refine (ha.operands ht hu hb).bind fun p ⟨w, hw, hx, hy⟩ => ?_
  have hone : Ensures (Expr.sub p.2 (1 : Int)) (Evaluates Γ [] False ρ w · (n - 1)) := by
    have hsub : Expr.sub p.2 (1 : Int) = Expr.operands p.2 (1 : Int) >>= fun q => Expr.fold .sub q.1 q.2 := rfl
    rw [hsub, operands_int hw hy.dtype]
    exact (hy.fold (.arith rfl hw) (evaluates_int hw 1) False.elim).ensures
  refine hone.bind fun c hc => (harith rfl hw hx hc).bind fun d hd => ?_
  exact fun e he => ⟨w, hw, harith rfl hw hd hy e he⟩

theorem Amounts.simplify (h : e.Amounts Γ ρ n) : Gives e.simplify (Amounts Γ ρ · n) := by
  obtain ⟨t, ht, h⟩ := h
  have hnil : e.boundVars = [] := List.eq_nil_iff_forall_not_mem.mpr fun x hx => List.not_mem_nil (h.bound x hx)
  have hsimplify := gives_simplify_evaluates (H := False) (ρ := ρ) h.typed False.elim (by rw [hnil]; exact List.nodup_nil)
    (by rw [hnil]; exact List.forall_mem_nil _)
  rw [hnil, h.value] at hsimplify
  exact hsimplify.mono fun e' he' => ⟨t, ht, he'⟩

/-- What is shown to divide divides. -/
theorem Amounts.divides (ha : a.Amounts Γ ρ m) (hb : b.Amounts Γ ρ n) :
    Ensures (Expr.mod a b >>= fun r => Expr.eq r (0 : Int) >>= canProve) (· = true → m.tmod n = 0) := by
  refine (ha.arith rfl hb).bind fun r ⟨t, ht, hr⟩ => ?_
  have heq : Ensures (Expr.eq r (0 : Int)) (Evaluates Γ [] False ρ .bool · (decide (m.tmod n = 0)).toInt) := by
    have harith : Expr.eq r (0 : Int) = Expr.operands r (0 : Int) >>= fun q => Expr.fold .eq q.1 q.2 := rfl
    rw [harith, operands_int ht hr.dtype]
    exact (hr.fold (.compare rfl) (evaluates_int ht 0) False.elim).ensures
  refine heq.bind fun c hc => ?_
  have hnil : c.boundVars = [] := List.eq_nil_iff_forall_not_mem.mpr fun x hx => List.not_mem_nil (hc.bound x hx)
  have hprove := gives_canProve hc.typed (by rw [hnil]; exact List.nodup_nil) (by rw [hnil]; exact List.forall_mem_nil _) ρ
  refine (hprove.mono fun proved hproved htrue => by_contra fun hne => hproved htrue ?_).ensures
  rw [hc.value, decide_eq_false hne]
  rfl

/-- A guard tells whether the one number is below the other. -/
theorem Amounts.guard (ha : a.Amounts Γ ρ m) (hb : b.Amounts Γ ρ n) :
    Ensures (Expr.lt a b >>= fun c => Expr.likely c) (Evaluates Γ [] False ρ .bool · (decide (m < n)).toInt) := by
  refine (ha.compare rfl hb).bind fun c hc => ?_
  rw [Expr.likely, asBool_of_dtype hc.dtype]
  dsimp only [Bind.bind, Except.bind]
  split
  · exact ensures_ok hc
  · refine ensures_ok ?_
    rw [hc.dtype]
    exact hc.likely

end Amounts

end Expr

/-! ### Sizes of derived axes -/

/-- The number of parts of size `k` that cover `m`. -/
def ceil (m k : Int) : Int :=
  (m + (k - 1)).tdiv k

section Ceil
variable {m k : Int} (hm : 0 ≤ m) (hk : 0 < k)
include hm hk

theorem ceil_eq : ceil m k = (m + (k - 1)) / k :=
  Int.tdiv_eq_ediv_of_nonneg (by omega)

theorem ceil_nonneg : 0 ≤ ceil m k := by
  rw [ceil_eq hm hk]
  exact Int.ediv_nonneg (by omega) (by omega)

theorem le_ceil_mul : m ≤ ceil m k * k := by
  have hrest := Int.emod_lt_of_pos (m + (k - 1)) hk
  have hsum := Int.ediv_mul_add_emod (m + (k - 1)) k
  rw [ceil_eq hm hk]
  omega

theorem ceil_mul_of_tmod (h : m.tmod k = 0) : ceil m k * k = m := by
  have hsum := Int.mul_tdiv_add_tmod m k
  rw [h, Int.add_zero] at hsum
  have hunique : (m + (k - 1)) / k = m.tdiv k ∧ (m + (k - 1)) % k = k - 1 :=
    (Int.ediv_emod_unique hk).mpr ⟨by omega, by omega, by omega⟩
  rw [ceil_eq hm hk, hunique.1, Int.mul_comm, hsum]

end Ceil

namespace Relation

variable {Γ : Context} {ρ : Valuation Int} {E E' : Nat → Int} {r : Relation}

/-- A relation is between axes of one sort. -/
def Over (P : IterVar → Prop) (r : Relation) : Prop :=
  ∀ iv ∈ r.sources ++ r.derived, P iv

/-- The factor or the number of parts of a split is positive. -/
def Positive (Γ : Context) (ρ : Valuation Int) : Relation → Prop
  | split _ _ _ factor nparts => ∀ d ∈ factor.orElse fun _ => nparts, ∃ k, d.Amounts Γ ρ k ∧ 0 < k
  | _ => True

/-- The extents of the axes that a relation derives, in terms of those that it starts from. -/
def Sized (Γ : Context) (ρ : Valuation Int) (E : Nat → Int) : Relation → Prop
  | split parent outer inner factor nparts => ∃ d k, (factor.orElse fun _ => nparts) = some d ∧ d.Amounts Γ ρ k ∧ 0 < k ∧
      ((E outer.id = ceil (E parent.id) k ∧ E inner.id = k) ∨ (E outer.id = k ∧ E inner.id = ceil (E parent.id) k))
  | fuse outer inner fused => E fused.id = E outer.id * E inner.id
  | rebase parent rebased => E rebased.id = E parent.id

theorem Sized.congr (h : r.Sized Γ ρ E) (hsources : ∀ iv ∈ r.sources, E' iv.id = E iv.id)
    (hderived : ∀ iv ∈ r.derived, E' iv.id = E iv.id) : r.Sized Γ ρ E' := by
  cases r with
  | split | fuse | rebase =>
    simp only [sources, derived, List.forall_mem_cons] at hsources hderived
    simpa only [Sized, hsources, hderived] using h

theorem Sized.widen {Γ' : Context} {ρ' : Valuation Int} (h : r.Sized Γ ρ E) (hext : Expr.Extends Γ Γ' ρ ρ') :
    r.Sized Γ' ρ' E := by
  cases r with
  | split parent outer inner factor nparts =>
    obtain ⟨d, k, hd, hk, hrest⟩ := h
    exact ⟨d, k, hd, hk.widen hext, hrest⟩
  | fuse | rebase => exact h

/-- A split covers its axis, whichever way it is sized. -/
theorem Sized.covers (h : r.Sized Γ ρ E) (hnonneg : ∀ iv ∈ r.sources, 0 ≤ E iv.id) : r.Covers E := by
  cases r with
  | split parent outer inner factor nparts =>
    obtain ⟨d, k, -, -, hk, ⟨ho, hi⟩ | ⟨ho, hi⟩⟩ := h
    · rw [Covers, ho, hi]
      exact le_ceil_mul (hnonneg parent List.mem_cons_self) hk
    · rw [Covers, ho, hi, Int.mul_comm]
      exact le_ceil_mul (hnonneg parent List.mem_cons_self) hk
  | fuse | rebase => exact h

/-- A split whose factor or number of parts divides the extent of its axis covers nothing else. -/
theorem Sized.exact {parent outer inner : IterVar} {factor nparts : Option Expr} {d : Expr} {k : Int}
    (h : (split parent outer inner factor nparts).Sized Γ ρ E) (hnonneg : 0 ≤ E parent.id)
    (hd : (factor.orElse fun _ => nparts) = some d) (hk : d.Amounts Γ ρ k) (hdivides : (E parent.id).tmod k = 0) :
    E outer.id * E inner.id = E parent.id := by
  obtain ⟨d', k', hd', hk', hpos, hsize⟩ := h
  obtain rfl := Option.some.inj (hd.symm.trans hd')
  obtain rfl : k = k' := hk.value.symm.trans hk'.value
  have hmul := ceil_mul_of_tmod hnonneg hpos hdivides
  obtain ⟨ho, hi⟩ | ⟨ho, hi⟩ := hsize
  · rw [ho, hi, hmul]
  · rw [ho, hi, Int.mul_comm, hmul]

end Relation

/-! ### Ranges -/

namespace Ranges

variable {Γ Γ' : Context} {ρ ρ' : Valuation Int} {E : Nat → Int} {m m' : Ranges} {iv : IterVar} {r : Relation} {n : Int}

/-- An axis has a range of an extent. -/
def HasExtent (Γ : Context) (ρ : Valuation Int) (m : Ranges) (iv : IterVar) (n : Int) : Prop :=
  ∃ x, m.get iv = .ok x ∧ x.extent.Amounts Γ ρ n

theorem HasExtent.widen (h : m.HasExtent Γ ρ iv n) (hext : Expr.Extends Γ Γ' ρ ρ') : m.HasExtent Γ' ρ' iv n := by
  obtain ⟨x, hx, hn⟩ := h
  exact ⟨x, hx, hn.widen hext⟩

theorem HasExtent.ensures (h : m.HasExtent Γ ρ iv n) : Ensures (m.get iv) (·.extent.Amounts Γ ρ n) := by
  obtain ⟨x, hx, hn⟩ := h
  rw [hx]
  exact ensures_ok hn

theorem hasExtent_insert_self {x : Range} (hx : x.extent.Amounts Γ ρ n) : (m.insert iv x).HasExtent Γ ρ iv n :=
  ⟨x, by rw [get_insert, if_pos rfl], hx⟩

theorem get_insert_of_ne {jv : IterVar} {x : Range} (h : iv.id ≠ jv.id) : (m.insert jv x).get iv = m.get iv := by
  rw [get_insert, if_neg h.symm]

theorem hasExtent_insert_of_ne {jv : IterVar} {x : Range} (h : iv.id ≠ jv.id) (hn : m.HasExtent Γ ρ iv n) :
    (m.insert jv x).HasExtent Γ ρ iv n := by
  rwa [HasExtent, get_insert_of_ne h]

theorem ensures_fromZero {e : Expr} (he : e.Amounts Γ ρ n) : Ensures (fromZero iv e) (·.extent.Amounts Γ ρ n) :=
  fun x hx => by
    obtain ⟨zero, -, hx⟩ := bind_eq_ok.mp hx
    cases hx
    exact he

/-- A relation sets the ranges of the axes that it derives, and no others. -/
theorem get_derive (hrun : m.derive r = .ok m') (hiv : ∀ jv ∈ r.derived, iv.id ≠ jv.id) : m'.get iv = m.get iv := by
  cases r with
  | split parent outer inner factor nparts =>
    simp only [Relation.derived, List.forall_mem_cons] at hiv
    obtain ⟨_, -, hrun⟩ := bind_eq_ok.mp hrun
    obtain ⟨_, -, hrun⟩ := bind_eq_ok.mp hrun
    obtain ⟨_, -, hrun⟩ := bind_eq_ok.mp hrun
    obtain ⟨_, -, hrun⟩ := bind_eq_ok.mp hrun
    obtain ⟨_, -, hrun⟩ := bind_eq_ok.mp hrun
    obtain ⟨_, -, hrun⟩ := bind_eq_ok.mp hrun
    cases hrun
    rw [get_insert_of_ne hiv.2.1, get_insert_of_ne hiv.1]
  | fuse outer inner fused =>
    obtain ⟨_, -, hrun⟩ := bind_eq_ok.mp hrun
    obtain ⟨_, -, hrun⟩ := bind_eq_ok.mp hrun
    obtain ⟨_, -, hrun⟩ := bind_eq_ok.mp hrun
    obtain ⟨_, -, hrun⟩ := bind_eq_ok.mp hrun
    obtain ⟨_, -, hrun⟩ := bind_eq_ok.mp hrun
    cases hrun
    exact get_insert_of_ne (hiv fused List.mem_cons_self)
  | rebase parent rebased =>
    obtain ⟨_, -, hrun⟩ := bind_eq_ok.mp hrun
    obtain ⟨_, -, hrun⟩ := bind_eq_ok.mp hrun
    cases hrun
    exact get_insert_of_ne (hiv rebased List.mem_cons_self)

theorem get_deriveAll {rs : List Relation} (hrun : rs.foldlM derive m = .ok m')
    (hiv : ∀ r ∈ rs, ∀ jv ∈ r.derived, iv.id ≠ jv.id) : m'.get iv = m.get iv := by
  induction rs generalizing m with
  | nil => rw [Except.ok.inj hrun]
  | cons r rs ih =>
    rw [List.foldlM_cons] at hrun
    obtain ⟨m₁, hr, hrun⟩ := bind_eq_ok.mp hrun
    obtain ⟨hiv, hivs⟩ := List.forall_mem_cons.mp hiv
    rw [ih hrun hivs, get_derive hr hiv]

/-- What a relation does to the extents: it sets those of the axes that it derives. -/
theorem ensures_derive (hmade : r.Made) (hpositive : r.Positive Γ ρ) (hdistinct : (r.derived.map (·.id)).Nodup)
    (hfresh : ∀ iv ∈ r.sources, ∀ jv ∈ r.derived, iv.id ≠ jv.id)
    (h : ∀ iv ∈ r.sources, m.HasExtent Γ ρ iv (E iv.id) ∧ 0 ≤ E iv.id) :
    Ensures (m.derive r) fun m' => ∃ E' : Nat → Int, (∀ x, (∀ iv ∈ r.derived, x ≠ iv.id) → E' x = E x) ∧
      (∀ iv ∈ r.derived, m'.HasExtent Γ ρ iv (E' iv.id) ∧ 0 ≤ E' iv.id) ∧ r.Sized Γ ρ E' := by
  cases r with
  | split parent outer inner factor nparts =>
    simp only [Relation.derived, Relation.sources, List.forall_mem_cons] at hfresh h ⊢
    have hne : outer.id ≠ inner.id := by simpa [Relation.derived] using hdistinct
    have hsized := hmade.sized _ _ _ _ _ rfl
    obtain ⟨d, k, hd, hk, hpos, hextents⟩ : ∃ d k, (factor.orElse fun _ => nparts) = some d ∧ d.Amounts Γ ρ k ∧ 0 < k ∧
        ∀ e : Expr, e.Amounts Γ ρ (E parent.id) → Ensures (Stage.splitExtents e factor nparts) fun p =>
          ∃ o i, p.1.Amounts Γ ρ o ∧ p.2.Amounts Γ ρ i ∧
            ((o = ceil (E parent.id) k ∧ i = k) ∨ (o = k ∧ i = ceil (E parent.id) k)) := by
      cases factor with
      | some f =>
        obtain ⟨k, hk, hpos⟩ := hpositive f rfl
        refine ⟨f, k, rfl, hk, hpos, fun e he => (he.ceilDiv hk).bind fun q hq => ensures_ok ?_⟩
        exact ⟨_, _, hq, hk, Or.inl ⟨rfl, rfl⟩⟩
      | none =>
        cases nparts with
        | some f =>
          obtain ⟨k, hk, hpos⟩ := hpositive f rfl
          refine ⟨f, k, rfl, hk, hpos, fun e he => (he.ceilDiv hk).bind fun q hq => ensures_ok ?_⟩
          exact ⟨_, _, hk, hq, Or.inr ⟨rfl, rfl⟩⟩
        | none => cases hsized
    refine h.1.1.ensures.bind fun x hx => (hextents x.extent hx).bind ?_
    rintro ⟨eo, ei⟩ ⟨o, i, heo, hei, hsize⟩
    refine heo.simplify.ensures.bind fun eo' heo' => (ensures_fromZero heo').bind fun ro hro => ?_
    refine hei.simplify.ensures.bind fun ei' hei' => (ensures_fromZero hei').bind fun ri hri => ensures_ok ?_
    have hnonneg := ceil_nonneg h.1.2 hpos
    refine ⟨Function.update (Function.update E outer.id o) inner.id i, fun x hx => ?_, ⟨?_, ?_, List.forall_mem_nil _⟩, ?_⟩
    · rw [Function.update_of_ne hx.2.1, Function.update_of_ne hx.1]
    · rw [Function.update_of_ne hne, Function.update_self]
      exact ⟨hasExtent_insert_of_ne hne (hasExtent_insert_self hro), by omega⟩
    · rw [Function.update_self]
      exact ⟨hasExtent_insert_self hri, by omega⟩
    · refine ⟨d, k, hd, hk, hpos, ?_⟩
      rw [Function.update_self, Function.update_of_ne hne, Function.update_self, Function.update_of_ne hfresh.1.2.1,
        Function.update_of_ne hfresh.1.1]
      exact hsize
  | fuse outer inner fused =>
    simp only [Relation.derived, Relation.sources, List.forall_mem_cons] at hfresh h ⊢
    refine h.1.1.ensures.bind fun x hx => h.2.1.1.ensures.bind fun y hy => (hx.arith rfl hy).bind fun e he => ?_
    refine he.simplify.ensures.bind fun e' he' => (ensures_fromZero he').bind fun z hz => ensures_ok ?_
    refine ⟨Function.update E fused.id (E outer.id * E inner.id), fun x hx => Function.update_of_ne hx.1 _ _,
      ⟨?_, List.forall_mem_nil _⟩, ?_⟩
    · rw [Function.update_self]
      exact ⟨hasExtent_insert_self hz, Int.mul_nonneg h.1.2 h.2.1.2⟩
    · rw [Relation.Sized, Function.update_self, Function.update_of_ne hfresh.1.1, Function.update_of_ne hfresh.2.1.1]
  | rebase parent rebased =>
    simp only [Relation.derived, Relation.sources, List.forall_mem_cons] at hfresh h ⊢
    refine h.1.1.ensures.bind fun x hx => (ensures_fromZero hx).bind fun z hz => ensures_ok ?_
    refine ⟨Function.update E rebased.id (E parent.id), fun x hx => Function.update_of_ne hx.1 _ _,
      ⟨?_, List.forall_mem_nil _⟩, ?_⟩
    · rw [Function.update_self]
      exact ⟨hasExtent_insert_self hz, h.1.2⟩
    · rw [Relation.Sized, Function.update_self, Function.update_of_ne hfresh.1.1]

/-- Relations in order give all axes extents that are sized by them. -/
theorem ensures_deriveAll {roots : List IterVar} {rs : List Relation} (hrs : Relation.Ordered roots rs)
    (hdistinct : ((Relation.axesOf roots rs).map (·.id)).Nodup) (hmade : ∀ r ∈ rs, r.Made)
    (hpositive : ∀ r ∈ rs, r.Positive Γ ρ) (h : ∀ iv ∈ roots, m.HasExtent Γ ρ iv (E iv.id) ∧ 0 ≤ E iv.id) :
    Ensures (rs.foldlM derive m) fun m' => ∃ E' : Nat → Int, (∀ iv ∈ roots, E' iv.id = E iv.id) ∧
      (∀ iv ∈ Relation.axesOf roots rs, m'.HasExtent Γ ρ iv (E' iv.id) ∧ 0 ≤ E' iv.id) ∧ ∀ r ∈ rs, r.Sized Γ ρ E' := by
  induction rs generalizing roots m E with
  | nil =>
    refine ensures_ok ⟨E, fun _ _ => rfl, ?_, List.forall_mem_nil _⟩
    rw [Relation.axesOf, List.flatMap_nil, List.append_nil]
    exact h
  | cons r rs ih =>
    rw [Relation.ordered_cons] at hrs
    rw [Relation.axesOf_cons] at hdistinct ⊢
    obtain ⟨hr, hmade⟩ := List.forall_mem_cons.mp hmade
    obtain ⟨hpos, hpositive⟩ := List.forall_mem_cons.mp hpositive
    have hnodup : ((roots ++ r.derived).map (·.id)).Nodup :=
      hdistinct.sublist ((List.sublist_append_left _ _).map _)
    rw [List.map_append, List.nodup_append] at hnodup
    have hfresh : ∀ iv ∈ roots, ∀ jv ∈ r.derived, iv.id ≠ jv.id := fun iv hiv jv hjv =>
      hnodup.2.2 _ (List.mem_map_of_mem hiv) _ (List.mem_map_of_mem hjv)
    rw [List.foldlM_cons]
    intro m' hrun
    obtain ⟨m₁, hstep, hrun⟩ := bind_eq_ok.mp hrun
    obtain ⟨E₁, hkeep, hderived, hsized⟩ := ensures_derive hr hpos hnodup.2.1 (fun iv hiv => hfresh iv (hrs.1 iv hiv))
      (fun iv hiv => h iv (hrs.1 iv hiv)) m₁ hstep
    have hold : ∀ iv ∈ roots, E₁ iv.id = E iv.id := fun iv hiv => hkeep _ (hfresh iv hiv)
    have hroots : ∀ iv ∈ roots, m₁.HasExtent Γ ρ iv (E₁ iv.id) ∧ 0 ≤ E₁ iv.id := by
      intro iv hiv
      rw [HasExtent, get_derive hstep (hfresh iv hiv), hold iv hiv]
      exact h iv hiv
    obtain ⟨E₂, hsame, hextents, hsizes⟩ :=
      ih hrs.2 hdistinct hmade hpositive (List.forall_mem_append.mpr ⟨hroots, hderived⟩) m' hrun
    have hsame := List.forall_mem_append.mp hsame
    refine ⟨E₂, fun iv hiv => (hsame.1 iv hiv).trans (hold iv hiv), hextents, List.forall_mem_cons.mpr ⟨?_, hsizes⟩⟩
    exact hsized.congr (fun iv hiv => hsame.1 iv (hrs.1 iv hiv)) hsame.2

end Ranges

/-! ### Values -/

namespace AxisValues

variable {Γ : Context} {ρ : Valuation Int} {E V : Nat → Int} {m m' : AxisValues} {ranges : Ranges} {iv : IterVar}
  {r : Relation}
  {n : Int}

/-- An axis has a value that amounts to a number. -/
def HasValue (Γ : Context) (ρ : Valuation Int) (m : AxisValues) (iv : IterVar) (n : Int) : Prop :=
  ∃ e, m.get iv = .ok e ∧ e.Amounts Γ ρ n

theorem HasValue.ensures (h : m.HasValue Γ ρ iv n) : Ensures (m.get iv) (·.Amounts Γ ρ n) := by
  obtain ⟨e, he, hn⟩ := h
  rw [he]
  exact ensures_ok hn

theorem hasValue_cons_self {e : Expr} (he : e.Amounts Γ ρ n) : HasValue Γ ρ ((iv.id, e) :: m) iv n :=
  ⟨e, by rw [get_cons, if_pos rfl], he⟩

theorem get_cons_of_ne {x : Nat} {e : Expr} (h : iv.id ≠ x) : get ((x, e) :: m) iv = m.get iv := by
  rw [get_cons, if_neg h.symm]

theorem hasValue_cons_of_ne {x : Nat} {e : Expr} (h : iv.id ≠ x) (hn : m.HasValue Γ ρ iv n) :
    HasValue Γ ρ ((x, e) :: m) iv n := by
  rwa [HasValue, get_cons_of_ne h]

/-- A relation sets the values of the axes that it starts from, and no others. -/
theorem get_recover (hrun : m.recover ranges r = .ok m') (hiv : ∀ jv ∈ r.sources, iv.id ≠ jv.id) :
    m'.get iv = m.get iv := by
  cases r with
  | split parent outer inner factor nparts =>
    obtain ⟨_, -, hrun⟩ := bind_eq_ok.mp hrun
    obtain ⟨_, -, hrun⟩ := bind_eq_ok.mp hrun
    obtain ⟨_, -, hrun⟩ := bind_eq_ok.mp hrun
    obtain ⟨_, -, hrun⟩ := bind_eq_ok.mp hrun
    obtain ⟨_, -, hrun⟩ := bind_eq_ok.mp hrun
    cases hrun
    exact get_cons_of_ne (hiv parent List.mem_cons_self)
  | fuse outer inner fused =>
    simp only [Relation.sources, List.forall_mem_cons] at hiv
    obtain ⟨_, -, hrun⟩ := bind_eq_ok.mp hrun
    obtain ⟨_, -, hrun⟩ := bind_eq_ok.mp hrun
    obtain ⟨_, -, hrun⟩ := bind_eq_ok.mp hrun
    obtain ⟨_, -, hrun⟩ := bind_eq_ok.mp hrun
    obtain ⟨_, -, hrun⟩ := bind_eq_ok.mp hrun
    cases hrun
    rw [get_cons_of_ne hiv.2.1, get_cons_of_ne hiv.1]
  | rebase parent rebased =>
    obtain ⟨_, -, hrun⟩ := bind_eq_ok.mp hrun
    cases hrun
    exact get_cons_of_ne (hiv parent List.mem_cons_self)

/-- What a relation does to the values: it computes those of the axes that it starts from. -/
theorem ensures_recover (hdistinct : (r.sources.map (·.id)).Nodup)
    (hfresh : ∀ iv ∈ r.sources, ∀ jv ∈ r.derived, iv.id ≠ jv.id)
    (hranges : ∀ iv ∈ r.sources ++ r.derived, ranges.HasExtent Γ ρ iv (E iv.id))
    (h : ∀ iv ∈ r.derived, m.HasValue Γ ρ iv (V iv.id)) :
    Ensures (m.recover ranges r) fun m' => ∃ V' : Nat → Int, (∀ x, (∀ iv ∈ r.sources, x ≠ iv.id) → V' x = V x) ∧
      (∀ iv ∈ r.sources, m'.HasValue Γ ρ iv (V' iv.id)) ∧ r.Recovers E V' := by
  cases r with
  | split parent outer inner factor nparts =>
    simp only [Relation.derived, Relation.sources, List.forall_mem_cons, List.cons_append,
      List.nil_append] at hfresh h hranges ⊢
    refine h.1.ensures.bind fun o ho => hranges.2.2.1.ensures.bind fun x hx =>
      (ho.arith rfl hx).bind fun scaled hscaled => ?_
    refine h.2.1.ensures.bind fun i hi => (hscaled.arith rfl hi).bind fun e he => ensures_ok ?_
    refine ⟨Function.update V parent.id (V outer.id * E inner.id + V inner.id), fun x hx => Function.update_of_ne hx.1 _ _,
      ⟨?_, List.forall_mem_nil _⟩, ?_⟩
    · rw [Function.update_self]
      exact hasValue_cons_self he
    · rw [Relation.Recovers, Function.update_self, Function.update_of_ne hfresh.1.1.symm,
        Function.update_of_ne hfresh.1.2.1.symm]
  | fuse outer inner fused =>
    simp only [Relation.derived, Relation.sources, List.forall_mem_cons, List.cons_append,
      List.nil_append] at hfresh h hranges ⊢
    have hne : outer.id ≠ inner.id := by simpa [Relation.sources] using hdistinct
    refine hranges.2.1.ensures.bind fun x hx => h.1.ensures.bind fun f hf => (hf.arith rfl hx).bind fun o ho => ?_
    refine h.1.ensures.bind fun f' hf' => (hf'.arith rfl hx).bind fun i hi => ensures_ok ?_
    refine ⟨Function.update (Function.update V outer.id ((V fused.id).tdiv (E inner.id))) inner.id
      ((V fused.id).tmod (E inner.id)), fun x hx => ?_, ⟨?_, ?_, List.forall_mem_nil _⟩, ?_⟩
    · rw [Function.update_of_ne hx.2.1, Function.update_of_ne hx.1]
    · rw [Function.update_of_ne hne, Function.update_self]
      exact hasValue_cons_of_ne hne (hasValue_cons_self ho)
    · rw [Function.update_self]
      exact hasValue_cons_self hi
    · rw [Relation.Recovers, Function.update_self, Function.update_of_ne hne, Function.update_self,
        Function.update_of_ne hfresh.2.1.1.symm, Function.update_of_ne hfresh.1.1.symm]
      exact ⟨rfl, rfl⟩
  | rebase parent rebased =>
    simp only [Relation.derived, Relation.sources, List.forall_mem_cons] at hfresh h ⊢
    refine h.1.ensures.bind fun e he => ensures_ok ?_
    refine ⟨Function.update V parent.id (V rebased.id), fun x hx => Function.update_of_ne hx.1 _ _,
      ⟨?_, List.forall_mem_nil _⟩, ?_⟩
    · rw [Function.update_self]
      exact hasValue_cons_self he
    · rw [Relation.Recovers, Function.update_self, Function.update_of_ne hfresh.1.1.symm]

/-- Relations in order give axes the values that they compute from those of the axes that nothing is derived from. This
    holds of all axes, and of those of one sort alone as long as no relation goes from one sort to the other. -/
theorem ensures_recoverAll {P : IterVar → Prop} {roots : List IterVar} {rs : List Relation}
    (hrs : Relation.Ordered roots rs)
    (hsorts : ∀ r ∈ rs, r.Over P ∨ r.Over (¬P ·))
    (hdistinct : ((Relation.axesOf roots rs).map (·.id)).Nodup) (honce : ((rs.flatMap Relation.sources).map (·.id)).Nodup)
    (hranges : ∀ iv ∈ Relation.axesOf roots rs, ranges.HasExtent Γ ρ iv (E iv.id))
    (h : ∀ iv ∈ Relation.axesOf roots rs, P iv → iv.id ∉ (rs.flatMap Relation.sources).map (·.id) →
      m.HasValue Γ ρ iv (V iv.id)) :
    Ensures (m.recoverAll ranges rs) fun m' => ∃ V' : Nat → Int,
      (∀ x ∉ (rs.flatMap Relation.sources).map (·.id), V' x = V x) ∧
      (∀ iv, iv.id ∉ (rs.flatMap Relation.sources).map (·.id) → m'.get iv = m.get iv) ∧
      (∀ iv ∈ Relation.axesOf roots rs, P iv → m'.HasValue Γ ρ iv (V' iv.id)) ∧
      ∀ r ∈ rs, r.Over P → r.Recovers E V' := by
  induction rs using List.reverseRecOn generalizing m V with
  | nil =>
    exact ensures_ok ⟨V, fun _ _ => rfl, fun _ _ => rfl, fun iv hiv hP => h iv hiv hP List.not_mem_nil,
      List.forall_mem_nil _⟩
  | append_singleton rs r ih =>
    rw [Relation.ordered_concat] at hrs
    rw [List.forall_mem_append, List.forall_mem_singleton] at hsorts
    rw [Relation.axesOf_concat] at hdistinct hranges h ⊢
    rw [List.map_append, List.nodup_append] at hdistinct
    simp only [List.flatMap_append, List.flatMap_singleton, List.map_append, List.mem_append, not_or] at h honce ⊢
    rw [List.nodup_append] at honce
    have hnew : ∀ iv ∈ Relation.axesOf roots rs, ∀ jv ∈ r.derived, iv.id ≠ jv.id := fun iv hiv jv hjv =>
      hdistinct.2.2 _ (List.mem_map_of_mem hiv) _ (List.mem_map_of_mem hjv)
    have hfresh : ∀ iv ∈ r.sources, ∀ jv ∈ r.derived, iv.id ≠ jv.id := fun iv hiv => hnew iv (hrs.2 iv hiv)
    -- Nothing is derived from the axes of the last relation, and from those that it starts from by no other one.
    have hderived : ∀ iv ∈ r.derived, iv.id ∉ (rs.flatMap Relation.sources).map (·.id) := by
      intro iv hiv hmem
      obtain ⟨jv, hjv, heq⟩ := List.mem_map.mp hmem
      exact hnew jv (hrs.1.mem_axesOf hjv) iv hiv heq
    have hsources : ∀ iv ∈ r.sources, iv.id ∉ (rs.flatMap Relation.sources).map (·.id) := fun iv hiv hmem =>
      honce.2.2 _ hmem _ (List.mem_map_of_mem hiv) rfl
    have hapart : ∀ iv ∈ r.derived, iv.id ∉ r.sources.map (·.id) := by
      intro iv hiv hmem
      obtain ⟨jv, hjv, heq⟩ := List.mem_map.mp hmem
      exact hfresh jv hjv iv hiv heq
    rw [recoverAll_concat]
    intro m' hrun
    obtain ⟨m₁, hstep, hrun⟩ := bind_eq_ok.mp hrun
    have hget : ∀ iv : IterVar, iv.id ∉ r.sources.map (·.id) → m₁.get iv = m.get iv := fun iv hiv =>
      get_recover hstep fun jv hjv heq => hiv (heq ▸ List.mem_map_of_mem hjv)
    obtain ⟨V₁, hkeep, hvalues, hrecovers⟩ : ∃ V₁ : Nat → Int, (∀ x ∉ r.sources.map (·.id), V₁ x = V x) ∧
        (∀ iv ∈ r.sources, P iv → m₁.HasValue Γ ρ iv (V₁ iv.id)) ∧
        (r.Over P → r.Recovers E V₁) := by
      obtain hall | hnone := hsorts.2
      · obtain ⟨V₁, hkeep, hvalues, hrecovers⟩ := ensures_recover honce.2.1 hfresh
          (List.forall_mem_append.mpr ⟨fun iv hiv => hranges iv (List.mem_append_left _ (hrs.2 iv hiv)),
            fun iv hiv => hranges iv (List.mem_append_right _ hiv)⟩)
          (fun iv hiv => h iv (Or.inr hiv) (hall iv (List.mem_append_right _ hiv))
            ⟨hderived iv hiv, hapart iv hiv⟩) m₁ hstep
        exact ⟨V₁, fun x hx => hkeep x fun iv hiv heq => hx (heq ▸ List.mem_map_of_mem hiv), fun iv hiv _ => hvalues iv hiv,
          fun _ => hrecovers⟩
      · have hother : ∀ iv ∈ r.sources, ¬P iv := fun iv hiv => hnone iv (List.mem_append_left _ hiv)
        refine ⟨V, fun _ _ => rfl, fun iv hiv hP => absurd hP (hother iv hiv), fun hall => ?_⟩
        cases r with
        | split | fuse | rebase => exact absurd (hall _ List.mem_cons_self) (hnone _ List.mem_cons_self)
    have hnext : ∀ iv ∈ Relation.axesOf roots rs, P iv → iv.id ∉ (rs.flatMap Relation.sources).map (·.id) →
        m₁.HasValue Γ ρ iv (V₁ iv.id) := by
      intro iv hiv hP hnot
      by_cases hmem : iv.id ∈ r.sources.map (·.id)
      · obtain ⟨jv, hjv, heq⟩ := List.mem_map.mp hmem
        obtain rfl : jv = iv := List.inj_on_of_nodup_map hdistinct.1 (hrs.2 jv hjv) hiv heq
        exact hvalues jv hjv hP
      · rw [HasValue, hget iv hmem, hkeep _ hmem]
        exact h iv (Or.inl hiv) hP ⟨hnot, hmem⟩
    obtain ⟨V₂, hsame, hgets, hall, hrs'⟩ := ih hrs.1 hsorts.1 hdistinct.1 honce.1
      (fun iv hiv => hranges iv (List.mem_append_left _ hiv)) hnext m' hrun
    refine ⟨V₂, fun x hx => (hsame x hx.1).trans (hkeep x hx.2), fun iv hiv => (hgets iv hiv.1).trans (hget iv hiv.2),
      fun iv hiv hP => ?_, ?_⟩
    · obtain hiv | hiv := hiv
      · exact hall iv hiv hP
      · rw [HasValue, hgets iv (hderived iv hiv), hget iv (hapart iv hiv), hsame _ (hderived iv hiv),
          hkeep _ (hapart iv hiv)]
        exact h iv (Or.inr hiv) hP ⟨hderived iv hiv, hapart iv hiv⟩
    · rintro q (hq | hq) hP
      · exact hrs' q hq hP
      · obtain rfl := List.mem_singleton.mp hq
        exact (hrecovers hP).congr (fun iv hiv => hsame _ (hsources iv hiv)) fun iv hiv => hsame _ (hderived iv hiv)

end AxisValues

/-! ### The axes of a stage -/

namespace Stage

variable {P : IterVar → Prop} {Γ Γ' : Context} {ρ ρ' : Valuation Int} {L E V : Nat → Int} {m : Ranges} {values : AxisValues}
  {st : Stage}

/-- The axes of a stage have ranges, of extents that its relations size. Those of the axes of its operation start
    somewhere. -/
structure Measured (Γ : Context) (ρ : Valuation Int) (L E : Nat → Int) (m : Ranges) (st : Stage) : Prop where
  consistent : st.Consistent
  extents : ∀ iv ∈ st.all, m.HasExtent Γ ρ iv (E iv.id)
  nonneg : ∀ iv ∈ st.all, 0 ≤ E iv.id
  sized : ∀ r ∈ st.relations, r.Sized Γ ρ E
  starts : ∀ iv ∈ st.op.rootAxes, ∃ x, m.get iv = .ok x ∧ x.min.Amounts Γ ρ (L iv.id)

/-- The relations of a stage do not go from axes of one sort to axes of the other. -/
def Sorts (P : IterVar → Prop) (st : Stage) : Prop :=
  ∀ r ∈ st.relations, r.Over P ∨ r.Over (¬P ·)

theorem sorts_all (st : Stage) : st.Sorts fun _ => True := fun _ _ => Or.inl fun _ _ => trivial

/-- The axes of one sort of a stage have values, which are those of the variables for the leaf axes and computed from them
    for the others. -/
structure Located (P : IterVar → Prop) (Γ : Context) (ρ : Valuation Int) (E V : Nat → Int) (values : AxisValues)
    (st : Stage) :
    Prop where
  leaves : ∀ leaf ∈ st.leaves, P leaf → V leaf.id = ρ leaf.id
  values : ∀ iv ∈ st.all, P iv → values.HasValue Γ ρ iv (V iv.id)
  recovers : ∀ r ∈ st.relations, r.Over P → r.Recovers E V

theorem get_ofLeaves (hdistinct : (st.leaves.map (·.id)).Nodup) {leaf : IterVar} (hleaf : leaf ∈ st.leaves) :
    (AxisValues.ofLeaves st).get leaf = .ok (.var (st.leafVar leaf)) := by
  have hentry : ((leaf.id, .var (st.leafVar leaf)) : Nat × Expr) ∈ AxisValues.ofLeaves st :=
    List.mem_reverse.mpr (List.mem_map.mpr ⟨leaf, hleaf, rfl⟩)
  obtain ⟨p, hp⟩ : ∃ p, (AxisValues.ofLeaves st).find? (·.1 == leaf.id) = some p :=
    Option.isSome_iff_exists.mp (List.find?_isSome.mpr ⟨_, hentry, beq_self_eq_true _⟩)
  obtain ⟨other, hother, rfl⟩ := List.mem_map.mp (List.mem_reverse.mp (List.mem_of_find?_eq_some hp))
  obtain rfl := List.inj_on_of_nodup_map hdistinct hother hleaf (by simpa using List.find?_some hp)
  rw [AxisValues.get, hp]

namespace Measured

theorem widen (h : st.Measured Γ ρ L E m) (hext : Expr.Extends Γ Γ' ρ ρ') : st.Measured Γ' ρ' L E m where
  consistent := h.consistent
  extents iv hiv := (h.extents iv hiv).widen hext
  nonneg := h.nonneg
  sized r hr := (h.sized r hr).widen hext
  starts iv hiv := by
    obtain ⟨x, hx, hmin⟩ := h.starts iv hiv
    exact ⟨x, hx, hmin.widen hext⟩

/-- The relations of a stage cover its axes. -/
theorem covers (h : st.Measured Γ ρ L E m) : ∀ r ∈ st.relations, r.Covers E := fun r hr =>
  (h.sized r hr).covers fun iv hiv => h.nonneg iv (h.consistent.mem_all hr (List.mem_append_left _ hiv))

/-- Variables for the leaf axes of a sort give all axes of the sort values. -/
theorem exists_located (h : st.Measured Γ ρ L E m) (hsorts : st.Sorts P)
    (hunbound : ∀ leaf ∈ st.leaves, st.thread? leaf = none)
    (hvars : ∀ leaf ∈ st.leaves, P leaf → Γ leaf.id = some leaf.dtype ∧ leaf.dtype.IsIndex) :
    Ensures (AxisValues.ofStage st m) fun values => ∃ V, st.Located P Γ ρ E V values := by
  have hdistinct := h.consistent.distinct
  rw [h.consistent.all] at hdistinct
  have hleaf : ∀ iv ∈ Relation.axesOf st.op.rootAxes st.relations, iv.id ∉ st.consumedIds → iv ∈ st.leaves :=
    fun iv hiv hnot => (h.consistent.leaves iv).mpr ⟨h.consistent.all ▸ hiv, hnot⟩
  intro values hrun
  obtain ⟨V, hkeep, -, hvalues, hrecovers⟩ := AxisValues.ensures_recoverAll h.consistent.ordered hsorts hdistinct
    h.consistent.once (fun iv hiv => h.extents iv (h.consistent.all ▸ hiv)) (fun iv hiv hP hnot => by
      have hmem := hleaf iv hiv hnot
      obtain ⟨hvar, htype⟩ := hvars iv hmem hP
      have hleafVar : st.leafVar iv = iv.var := by rw [leafVar, hunbound iv hmem]
      refine ⟨_, get_ofLeaves h.consistent.leavesDistinct hmem, ?_⟩
      rw [hleafVar]
      exact Expr.amounts_var hvar htype) values hrun
  refine ⟨V, fun leaf hleaf _ => hkeep _ ((h.consistent.leaves leaf).mp hleaf).2, fun iv hiv => hvalues iv ?_, hrecovers⟩
  exact h.consistent.all ▸ hiv

/-- The values of the axes of the operation are counted from where these start. -/
theorem ensures_rootValues (h : st.Measured Γ ρ L E m) (hvalues : AxisValues.ofStage st m = .ok values)
    (hlocated : st.Located P Γ ρ E V values) : Ensures (st.rootValues m) fun σ =>
      ∀ iv ∈ st.op.rootAxes, P iv → ∃ e, σ.find? iv.var = some e ∧ e.Amounts Γ ρ (L iv.id + V iv.id) := by
  intro σ hrun
  obtain ⟨values', hvalues', hrun⟩ := bind_eq_ok.mp hrun
  obtain rfl := Except.ok.inj (hvalues.symm.trans hvalues')
  obtain ⟨pairs, hpairs, hσ⟩ := bind_eq_ok.mp hrun
  obtain rfl := Except.ok.inj hσ
  obtain ⟨hfrom, hto⟩ := mem_mapM hpairs
  have hall : ∀ iv ∈ st.op.rootAxes, iv ∈ st.all := fun iv hiv => h.consistent.all ▸ List.mem_append_left _ hiv
  have hstep : ∀ iv ∈ st.op.rootAxes, Ensures (do
      let e ← Expr.add (← m.get iv).min (← values.get iv)
      return (iv.var, ← e.simplify)) fun p => p.1 = iv.var ∧ (P iv → p.2.Amounts Γ ρ (L iv.id + V iv.id)) := by
    intro iv hiv p hp
    obtain ⟨x, hx, hp⟩ := bind_eq_ok.mp hp
    obtain ⟨e, he, hp⟩ := bind_eq_ok.mp hp
    obtain ⟨sum, hsum, hp⟩ := bind_eq_ok.mp hp
    obtain ⟨e', he', hp⟩ := bind_eq_ok.mp hp
    cases hp
    refine ⟨rfl, fun hP => ?_⟩
    obtain ⟨x', hx', hmin⟩ := h.starts iv hiv
    obtain rfl := Except.ok.inj (hx'.symm.trans hx)
    have hamount := (hlocated.values iv (hall iv hiv) hP).ensures e he
    exact (hmin.arith rfl hamount sum hsum).simplify.ensures e' he'
  intro iv hiv hP
  obtain ⟨p, hp, hpair⟩ := hto iv hiv
  obtain ⟨q, hq⟩ : ∃ q, List.find? (fun q : Var × Expr => q.1.id == iv.var.id) (Subst.ofList pairs) = some q := by
    refine Option.isSome_iff_exists.mp (List.find?_isSome.mpr ⟨p, List.mem_reverse.mpr hp, ?_⟩)
    rw [(hstep iv hiv p hpair).1]
    exact beq_self_eq_true _
  obtain ⟨jv, hjv, hpair'⟩ := hfrom q (List.mem_reverse.mp (List.mem_of_find?_eq_some hq))
  obtain ⟨hvar, hsum⟩ := hstep jv hjv q hpair'
  have hid : jv.id = iv.id := by
    have hkey := List.find?_some hq
    rw [hvar] at hkey
    exact beq_iff_eq.mp hkey
  -- The axes of a stage are distinct, so that the value found is that of the axis itself.
  obtain rfl : jv = iv := List.inj_on_of_nodup_map h.consistent.distinct (hall jv hjv) (hall iv hiv) hid
  exact ⟨q.2, by rw [Subst.find?, hq, Option.map_some], hsum hP⟩

end Measured

end Stage

end TensorNest

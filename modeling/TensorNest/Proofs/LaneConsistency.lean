import TensorNest.Lowering.Vector
import TensorNest.Proofs.IndexArithmetic
import TensorNest.Proofs.Partitions

/-!
# The lanes of vectorized statements

Carrying out the vectorized loops of a statement of scalars gives a statement whose operands have lanes that
fit together: the two sides of an operation and the three parts of a choice have as many, ramps and
broadcasts are made of scalars, and a store has as many values as indices. No loop stays marked vectorized.

What widening gives for an expression is either the expression itself, which is a scalar, or an expression of
all lanes, and which of the two only depends on whether the expression uses the loop variable. A body that
holds vectors already is out of the reach of widening, and the connectives do not repeat a scalar side, so
wide loops are not nested and the sides of a connective both depend on the lane or both do not.
-/

namespace TensorNest

section Related
variable {α β : Type} {R : α → β → Prop} {as : List α} {bs : List β}

theorem exists_mem_right (h : List.Forall₂ R as bs) {a : α} (ha : a ∈ as) : ∃ b ∈ bs, R a b := by
  induction h with
  | nil => cases ha
  | cons hab _ ih =>
    rcases List.mem_cons.mp ha with rfl | ha
    · exact ⟨_, List.mem_cons_self, hab⟩
    · obtain ⟨b, hb, hr⟩ := ih ha
      exact ⟨b, List.mem_cons_of_mem _ hb, hr⟩

theorem exists_mem_left (h : List.Forall₂ R as bs) {b : β} (hb : b ∈ bs) : ∃ a ∈ as, R a b :=
  exists_mem_right h.flip hb

end Related

/-! ### Steps of widening -/

namespace Widen

variable {α β : Type} {x : Widen α} {P Q : α → Prop} {R : β → Prop}

/-- A step of widening does not fail, and what it gives has a property. -/
def Obtains (x : Widen α) (P : α → Prop) : Prop :=
  match x with
  | .ok a => P a
  | .error .scalar => True
  | .error (.error _) => False

theorem obtains_pure {a : α} (h : P a) : Obtains (pure a) P := h

theorem obtains_scalar : Obtains (throw .scalar : Widen α) P := trivial

theorem Obtains.bind {k : α → Widen β} (hx : Obtains x P) (hk : ∀ a, P a → Obtains (k a) R) : Obtains (x >>= k) R := by
  rcases x with (_ | e) | a
  · trivial
  · exact hx
  · exact hk a hx

theorem obtains_widening {y : Except Error α} (h : ∃ a, y = .ok a ∧ P a) : Obtains (widening y) P := by
  obtain ⟨a, rfl, ha⟩ := h
  exact ha

theorem obtains_mapM {α β : Type} {f : α → Widen β} {P : β → Prop} {as : List α} (h : ∀ a ∈ as, Obtains (f a) P) :
    Obtains (as.mapM f) fun bs => ∀ b ∈ bs, P b := by
  induction as with
  | nil => exact obtains_pure (by simp)
  | cons a as ih =>
    rw [List.mapM_cons]
    refine (h a (by simp)).bind fun b hb => (ih fun a' h' => h a' (by simp [h'])).bind fun bs hbs => obtains_pure ?_
    exact List.forall_mem_cons.mpr ⟨hb, hbs⟩

end Widen

open Widen

namespace Expr

variable {e a b c : Expr} {v : Var} {n : Int} {t : DataType}

/-! ### Lanes that fit together -/

/-- The parts of an expression have lanes that fit together. -/
def Aligned : Expr → Prop
  | bin _ a b => a.dtype.lanes = b.dtype.lanes
  | select c t f => c.dtype.lanes = t.dtype.lanes ∧ t.dtype.lanes = f.dtype.lanes
  | ramp base stride _ => base.dtype.lanes = 1 ∧ stride.dtype.lanes = 1
  | broadcast a _ => a.dtype.lanes = 1
  | _ => True

/-- Everywhere in an expression lanes fit together. -/
def LaneConsistent (e : Expr) : Prop :=
  ∀ p ∈ e.postorder, p.Aligned

theorem laneConsistent_iff : e.LaneConsistent ↔ (∀ a ∈ e.parts, a.LaneConsistent) ∧ e.Aligned := forall_mem_postorder

/-- A value of one lane, put together from operands of one type: what stands in a program before its loops
    are carried out on vectors. Vectors are not made yet. -/
def FormsScalar : Expr → Prop
  | const x t => t.lanes = 1 ∧ ∃ y, x.ofType t = .ok y
  | bin op a b => a.dtype = b.dtype ∧ a.dtype.isHandle = false ∧ (op = .and ∨ op = .or → a.dtype.isBool)
  | ramp .. | broadcast .. => False
  | e => e.dtype.lanes = 1

/-- An expression of scalars. -/
def OfScalars (e : Expr) : Prop :=
  ∀ p ∈ e.postorder, p.dtype.lanes = 1 ∧ p.FormsScalar

theorem ofScalars_iff : e.OfScalars ↔ (∀ a ∈ e.parts, a.OfScalars) ∧ e.dtype.lanes = 1 ∧ e.FormsScalar :=
  forall_mem_postorder

theorem OfScalars.lanes (h : e.OfScalars) : e.dtype.lanes = 1 := (ofScalars_iff.mp h).2.1

theorem OfScalars.part (h : e.OfScalars) (ha : a ∈ e.parts) : a.OfScalars := (ofScalars_iff.mp h).1 a ha

theorem OfScalars.laneConsistent (h : e.OfScalars) : e.LaneConsistent := by
  induction e using induct_parts with | step e ih
  refine laneConsistent_iff.mpr ⟨fun a ha => ih a ha (h.part ha), ?_⟩
  have hself := (ofScalars_iff.mp h).2.2
  cases e with
  | select c t f => exact ⟨by rw [(h.part (by simp [parts])).lanes, (h.part (by simp [parts])).lanes],
      by rw [(h.part (by simp [parts])).lanes, (h.part (by simp [parts])).lanes]⟩
  | bin op a b => exact congrArg DataType.lanes hself.1
  | ramp | broadcast => exact hself.elim
  | _ => trivial

/-- An expression depends on the lane of a variable in a way that widening follows: both sides of a connective
    or none, neither of which is a constant, and no mask or buffer. -/
def Even (v : Var) : Expr → Prop
  | var w => w.id = v.id → w.dtype = v.dtype
  | bin op a b => op = .and ∨ op = .or → a.isConst = false ∧ b.isConst = false ∧ a.uses v = b.uses v
  | load _ buffer _ pred => buffer.uses v = false ∧ ∀ p ∈ pred, p.uses v = false
  | _ => True

/-- Everywhere in an expression widening follows how it depends on the lane. -/
def Followed (v : Var) (e : Expr) : Prop :=
  ∀ p ∈ e.postorder, p.Even v

theorem followed_iff : e.Followed v ↔ (∀ a ∈ e.parts, a.Followed v) ∧ e.Even v := forall_mem_postorder

theorem Followed.part (h : e.Followed v) (ha : a ∈ e.parts) : a.Followed v := (followed_iff.mp h).1 a ha

/-! ### The variables that an expression uses -/

theorem uses_iff : e.uses v ↔ (∃ a ∈ e.parts, a.uses v) ∨ e.isVar v := by
  have hself : (∃ w, e.asVar? = some w ∧ w.id = v.id) ↔ e.isVar v := by
    cases e <;> simp [asVar?, isVar]
  simp only [uses, usesAny, vars, List.any_eq_true, List.mem_filterMap, List.contains_iff_mem, List.mem_singleton]
  rw [← hself]
  constructor
  · rintro ⟨w, ⟨p, hp, hw⟩, hid⟩
    rcases mem_postorder.mp hp with ⟨a, ha, hpa⟩ | rfl
    · exact .inl ⟨a, ha, w, ⟨p, hpa, hw⟩, hid⟩
    · exact .inr ⟨w, hw, hid⟩
  · rintro (⟨a, ha, w, ⟨p, hp, hw⟩, hid⟩ | ⟨w, hw, hid⟩)
    · exact ⟨w, ⟨p, mem_postorder.mpr (.inl ⟨a, ha, hp⟩), hw⟩, hid⟩
    · exact ⟨w, ⟨e, self_mem_postorder e, hw⟩, hid⟩

/-- Only its parts make an expression other than a variable use one. -/
theorem uses_eq_any (h : e.isVar v = false) : e.uses v = e.parts.any (·.uses v) := by
  rw [Bool.eq_iff_iff, uses_iff, h]
  simp

/-! ### Operations on operands of one type -/

section Operands
variable {j k : Int} {op : BinOp}

/-- The common type of operands of one type of which some are vectors. -/
theorem combine_withLanes (ht : t.isHandle = false) (hn : 1 < n) (hj : j = 1 ∨ j = n) (hk : k = 1 ∨ k = n)
    (hjk : j = n ∨ k = n)
    (p q : Bool) : DataType.combine (t.withLanes j) (t.withLanes k) p q = .ok (t.withLanes n) := by
  have hmax : max j k = n := by omega
  by_cases heq : j = k
  · obtain rfl : j = n := by omega
    subst heq
    simp [DataType.combine]
  · have hne : t.withLanes j ≠ t.withLanes k := fun h => heq (congrArg DataType.lanes h)
    have hh : ∀ l, (t.withLanes l).isHandle = false := fun _ => ht
    have hl : ∀ l, (t.withLanes l).lanes = l := fun _ => rfl
    have hf : ∀ l, (t.withLanes l).isFloat = t.isFloat := fun _ => rfl
    have hcode : ∀ l, (t.withLanes l).code = t.code := fun _ => rfl
    have hfit : (j != k && j != 1 && k != 1) = false := by
      rcases hj with rfl | rfl <;> rcases hk with rfl | rfl <;> simp_all
    simp only [DataType.combine, if_neg hne, hh, hl, hf, hcode, hmax, hfit]
    split_ifs <;> first | rfl | simp_all [DataType.withLanes]

theorem coerce_scalar (hconst : e.isConst = false) (he : e.dtype = t.element) (ht : 1 < t.lanes) :
    e.coerce t = .ok (broadcast e t.lanes) := by
  have hne : t.element ≠ t := fun h => by
    have : 1 = t.lanes := congrArg DataType.lanes h
    omega
  have hone : t.element.lanes = 1 := rfl
  cases e <;> simp_all [coerce, isConst]

/-- An operand of one type, brought to a number of lanes. -/
theorem coerce_withLanes (he : e.dtype = t.withLanes j) (hn : 1 < n) (hj : j = 1 ∨ j = n)
    (hconst : e.isConst → e.FormsScalar)
    (hlc : e.LaneConsistent) :
    ∃ e', e.coerce (t.withLanes n) = .ok e' ∧ e'.dtype = t.withLanes n ∧ e'.isConst = false ∧ e'.LaneConsistent := by
  have hbroadcast {a : Expr} (ha : a.LaneConsistent) (hone : a.dtype = t.withLanes 1) :
      (broadcast a n).dtype = t.withLanes n ∧ (broadcast a n).isConst = false ∧ (broadcast a n).LaneConsistent :=
    ⟨by rw [dtype, hone]; rfl, rfl, laneConsistent_iff.mpr ⟨by simpa [parts] using ha, congrArg DataType.lanes hone⟩⟩
  by_cases hvector : j = n
  · subst hvector
    refine ⟨e, if_pos he, he, ?_, hlc⟩
    cases e with
    | const x u =>
      have hu : u = t.withLanes j := he
      have hlanes : j = 1 := by simpa [hu, DataType.withLanes] using (hconst rfl).1
      omega
    | _ => rfl
  · obtain rfl : j = 1 := by omega
    have hne : t.withLanes 1 ≠ t.withLanes n := fun h => hvector (congrArg DataType.lanes h)
    by_cases hc : e.isConst
    · obtain ⟨x, rfl⟩ : ∃ x, e = const x (t.withLanes 1) := by
        cases e <;> simp_all [isConst, dtype]
      obtain ⟨-, y, hy⟩ := hconst rfl
      have hof : ofNumber x (t.withLanes n).element = .ok (const y (t.withLanes 1)) := by
        have : x.ofType (t.withLanes n).element = .ok y := hy
        rw [ofNumber, this]
        rfl
      refine ⟨broadcast (const y (t.withLanes 1)) n, ?_, hbroadcast (laneConsistent_iff.mpr ⟨by simp [parts], trivial⟩) rfl⟩
      have hlanes : (t.withLanes n).lanes = n := rfl
      simp only [coerce, dtype, if_neg hne, hof, hlanes]
      show Except.ok (if n = 1 then _ else _) = _
      rw [if_neg (by omega)]
    · exact ⟨broadcast e n, coerce_scalar (by simpa using hc) he hn, hbroadcast hlc he⟩

/-- Arithmetic and comparison on operands of one type of which some are vectors. -/
theorem binary_withLanes {e₁ e₂ : Expr} (hop : ¬(op = .and ∨ op = .or)) (ht : t.isHandle = false) (hn : 1 < n)
    (h₁ : e₁.dtype = t.withLanes j) (h₂ : e₂.dtype = t.withLanes k) (hj : j = 1 ∨ j = n) (hk : k = 1 ∨ k = n)
    (hjk : j = n ∨ k = n)
    (hc₁ : e₁.isConst → e₁.FormsScalar) (hc₂ : e₂.isConst → e₂.FormsScalar) (hlc₁ : e₁.LaneConsistent)
    (hlc₂ : e₂.LaneConsistent) :
    ∃ a b, binary op e₁ e₂ = .ok (bin op a b) ∧ (e₁.coerce (t.withLanes n) = .ok a ∧ e₂.coerce (t.withLanes n) = .ok b) ∧
      a.dtype = t.withLanes n ∧ b.dtype = t.withLanes n ∧ a.LaneConsistent ∧ b.LaneConsistent := by
  obtain ⟨a, ha, hta, hca, hla⟩ := coerce_withLanes h₁ hn hj hc₁ hlc₁
  obtain ⟨b, hb, htb, hcb, hlb⟩ := coerce_withLanes h₂ hn hk hc₂ hlc₂
  have hoperands : operands e₁ e₂ = .ok (a, b) := by
    have hcombine : ∀ p q, DataType.combine e₁.dtype e₂.dtype p q = .ok (t.withLanes n) := by
      rw [h₁, h₂]
      exact combine_withLanes ht hn hj hk hjk
    show (DataType.combine e₁.dtype e₂.dtype _ _ >>= fun u => coerce e₁ u >>= fun x => coerce e₂ u >>= fun y =>
      Except.ok (x, y)) = _
    rw [hcombine]
    show (coerce e₁ (t.withLanes n) >>= fun x => coerce e₂ (t.withLanes n) >>= fun y => Except.ok (x, y)) = _
    rw [ha, hb]
    rfl
  have hfold : fold op a b = .ok (bin op a b) := by
    cases a <;> first | rfl | simp [isConst] at hca
  refine ⟨a, b, ?_, ⟨ha, hb⟩, hta, htb, hla, hlb⟩
  have harith : arith op e₁ e₂ = .ok (bin op a b) := by
    rw [arith, hoperands]
    exact hfold
  cases op <;> simp_all [binary]

/-- A connective of truth values other than constants is made as it is. -/
theorem binary_connective (hop : op = .and ∨ op = .or) (ha : a.dtype.isBool) (hb : b.dtype.isBool) (hca : a.isConst = false)
    (hcb : b.isConst = false) : binary op a b = .ok (bin op a b) := by
  have hbool : ∀ {e : Expr}, e.dtype.isBool → asBool e = .ok e := fun {e} h => by
    show (if e.dtype.isBool then Except.ok e else _) = _
    rw [if_pos h]
  rcases hop with rfl | rfl
  · show (asBool a >>= fun x => asBool b >>= fun y => _) = _
    rw [hbool ha, hbool hb]
    cases a <;> cases b <;> first | rfl | simp [isConst] at hca hcb
  · show (asBool a >>= fun x => asBool b >>= fun y => _) = _
    rw [hbool ha, hbool hb]
    cases a <;> cases b <;> first | rfl | simp [isConst] at hca hcb

theorem toLanes_withLanes (he : e.dtype.lanes = j) (hj : j = 1 ∨ j = n) (hlc : e.LaneConsistent) :
    ∃ e', e.toLanes n = .ok e' ∧ e'.dtype.lanes = n ∧ e'.dtype = e.dtype.withLanes n ∧ e'.LaneConsistent := by
  by_cases hvector : e.dtype.lanes = n
  · exact ⟨e, if_pos hvector, hvector, by rw [← hvector]; rfl, hlc⟩
  · have hone : e.dtype.lanes = 1 := by omega
    exact ⟨broadcast e n, by simp [toLanes, hone, show (1 : Int) ≠ n by omega], rfl, rfl,
      laneConsistent_iff.mpr ⟨by simpa [parts] using hlc, hone⟩⟩

theorem foldl_max_lanes (hn : 1 < n) {es : List Expr} {start : Int} (hes : ∀ e ∈ es, e.dtype.lanes = 1 ∨ e.dtype.lanes = n)
    (hstart : start = 1 ∨ start = n) (h : start = n ∨ ∃ e ∈ es, e.dtype.lanes = n) :
    es.foldl (fun n e => max n e.dtype.lanes) start = n := by
  induction es generalizing start with
  | nil => simpa using h
  | cons e es ih =>
    have he := hes e (by simp)
    have hmax : max start e.dtype.lanes = 1 ∨ max start e.dtype.lanes = n := by
      rcases hstart with rfl | rfl <;> rcases he with he | he <;> rw [he] <;> omega
    refine ih (fun e' h => hes e' (by simp [h])) hmax ?_
    rcases h with rfl | ⟨e', hmem, hlanes⟩
    · refine .inl (?_ : max start e.dtype.lanes = start)
      rcases he with he | he <;> rw [he] <;> omega
    · rcases List.mem_cons.mp hmem with rfl | hmem
      · refine .inl (?_ : max start e'.dtype.lanes = n)
        rw [hlanes]
        rcases hstart with rfl | rfl <;> omega
      · exact .inr ⟨e', hmem, hlanes⟩

/-- The lanes of expressions of which some are vectors are those of the vectors. -/
theorem maxLanes_eq {es : List Expr} (hn : 1 < n) (hes : ∀ e ∈ es, e.dtype.lanes = 1 ∨ e.dtype.lanes = n)
    (hvector : ∃ e ∈ es, e.dtype.lanes = n) : maxLanes es = n := by
  cases es with
  | nil => simp at hvector
  | cons e es =>
    refine foldl_max_lanes hn (fun e' h => hes e' (List.mem_of_mem_tail h)) (hes e (by simp)) ?_
    obtain ⟨e', hmem, hlanes⟩ := hvector
    rcases List.mem_cons.mp hmem with rfl | hmem
    · exact .inl hlanes
    · exact .inr ⟨e', hmem, hlanes⟩

end Operands

/-! ### Widening expressions -/

/-- What widening gives for an expression of scalars: the expression itself, or one of all lanes. -/
structure Widened (v : Var) (n : Int) (e : Expr) (r : Revised Expr) : Prop where
  consistent : r.term.LaneConsistent
  changed : r.changed = e.uses v
  kept : r.changed = false → r.term = e
  vector : r.changed = true → r.term.dtype = e.dtype.withLanes n ∧ r.term.isConst = false

namespace Widened

variable {r : Revised Expr}

theorem of_kept (he : e.OfScalars) (huses : e.uses v = false) : Widened v n e (.kept e) :=
  ⟨he.laneConsistent, huses.symm, fun _ => rfl, fun h => Bool.noConfusion h⟩

theorem of_changed {e' : Expr} (hlc : e'.LaneConsistent) (huses : e.uses v = true) (ht : e'.dtype = e.dtype.withLanes n)
    (hconst : e'.isConst = false) : Widened v n e ⟨e', true⟩ :=
  ⟨hlc, huses.symm, fun h => Bool.noConfusion h, fun _ => ⟨ht, hconst⟩⟩

theorem dtype (h : Widened v n e r) (he : e.OfScalars) : r.term.dtype = e.dtype.withLanes (if r.changed then n else 1) := by
  cases hc : r.changed with
  | false =>
    rw [h.kept hc]
    simp [DataType.withLanes, ← he.lanes]
  | true => exact (h.vector hc).1

theorem lanes (h : Widened v n e r) (he : e.OfScalars) : r.term.dtype.lanes = 1 ∨ r.term.dtype.lanes = n := by
  rw [h.dtype he]
  cases r.changed <;> simp [DataType.withLanes]

theorem lanes_of_changed (h : Widened v n e r) (hc : r.changed = true) : r.term.dtype.lanes = n := by
  rw [(h.vector hc).1]
  rfl

theorem toLanes (h : Widened v n e r) (he : e.OfScalars) :
    ∃ e', r.term.toLanes n = .ok e' ∧ e'.dtype = e.dtype.withLanes n ∧ e'.LaneConsistent := by
  obtain ⟨e', hok, -, ht, hlc⟩ := toLanes_withLanes rfl (h.lanes he) h.consistent
  exact ⟨e', hok, by rw [ht, h.dtype he]; rfl, hlc⟩

theorem formsScalar_of_isConst (h : Widened v n e r) (he : e.OfScalars) (hconst : r.term.isConst) : r.term.FormsScalar := by
  cases hc : r.changed with
  | false => exact h.kept hc ▸ (ofScalars_iff.mp he).2.2
  | true => simp [(h.vector hc).2] at hconst

end Widened

section Widening
variable {l : Lanes}

/-- The values of a loop variable on the lanes, as a vector. -/
structure RampOf (l : Lanes) (n : Int) : Prop where
  one_lt : 1 < n
  consistent : l.ramp.LaneConsistent
  dtype : l.ramp.dtype = l.var.dtype.withLanes n
  not_const : l.ramp.isConst = false

theorem obtains_onList {es : List Expr} (hes : ∀ e ∈ es, Obtains (e.widen l) (Widened l.var n e)) :
    Obtains (widen.onList l es) fun r => r.2 = es.any (·.uses l.var) ∧ (r.2 = false → r.1 = es) ∧
      List.Forall₂ (fun e e' => ∃ b, Widened l.var n e ⟨e', b⟩) es r.1 := by
  induction es with
  | nil => exact obtains_pure ⟨rfl, fun _ => rfl, .nil⟩
  | cons e es ih =>
    rw [widen.onList]
    refine (hes e (by simp)).bind fun x hx => (ih fun e' h => hes e' (by simp [h])).bind fun xs hxs => obtains_pure ?_
    refine ⟨by simp [hx.changed, hxs.1], fun h => ?_, .cons ⟨_, hx⟩ hxs.2.2⟩
    simp only [Bool.or_eq_false_iff] at h
    rw [hx.kept h.1, hxs.2.1 h.2]

theorem obtains_widenCall {name : String} {kind : CallKind} {func : Option OpRef} {index : Ordinal} {args es : List Expr}
    (hn : 1 < n)
    (hargs : ∀ a ∈ args, a.OfScalars) (hes : List.Forall₂ (fun e e' => ∃ b, Widened v n e ⟨e', b⟩) args es)
    (huses : args.any (·.uses v) = true) :
    Obtains (widenCall t name es kind func index) fun e' =>
      e'.LaneConsistent ∧ e'.dtype = t.withLanes n ∧ e'.isConst = false := by
  have hlanes : ∀ e' ∈ es, (e'.dtype.lanes = 1 ∨ e'.dtype.lanes = n) ∧ e'.LaneConsistent := by
    intro e' he'
    obtain ⟨e, he, b, hb⟩ := exists_mem_left hes he'
    exact ⟨hb.lanes (hargs e he), hb.consistent⟩
  have hmax : maxLanes es = n := by
    refine maxLanes_eq hn (fun e' he' => (hlanes e' he').1) ?_
    obtain ⟨e, he, hu⟩ := List.any_eq_true.mp huses
    obtain ⟨e', he', b, hb⟩ := exists_mem_right hes he
    exact ⟨e', he', hb.lanes_of_changed (hb.changed.trans hu)⟩
  rw [widenCall, hmax]
  split_ifs
  · exact obtains_scalar
  · refine (obtains_mapM (P := LaneConsistent) fun e' he' => ?_).bind fun as has =>
      obtains_pure ⟨laneConsistent_iff.mpr ⟨has, trivial⟩, rfl, rfl⟩
    obtain ⟨a, ha, -, -, hla⟩ := toLanes_withLanes rfl (hlanes e' he').1 (hlanes e' he').2
    exact obtains_widening ⟨a, ha, hla⟩

/-- Widening an expression of scalars succeeds, or finds that it can not be written with vectors. -/
theorem obtains_widen (hl : RampOf l n) (he : e.OfScalars) (hf : e.Followed l.var) :
    Obtains (e.widen l) (Widened l.var n e) := by
  induction e with
  | var w =>
    rw [widen]
    split_ifs with h
    · have huses : (var w).uses l.var = true := uses_iff.mpr (.inr h)
      have ht : w.dtype = l.var.dtype := (followed_iff.mp hf).2 (by simpa using h)
      exact obtains_pure (.of_changed hl.consistent huses (hl.dtype.trans (by rw [dtype, ht])) hl.not_const)
    · exact obtains_pure (.of_kept he (by rw [uses_eq_any (by simpa [isVar] using h)]; rfl))
  | const | str => exact obtains_pure (.of_kept he (by rw [uses_eq_any rfl]; rfl))
  | cast t a iha =>
    rw [widen]
    have huses : (cast t a).uses l.var = a.uses l.var := by simp [uses_eq_any (e := cast t a) rfl, parts]
    refine (iha (he.part (by simp [parts])) (hf.part (by simp [parts]))).bind fun x hx => ?_
    split_ifs with hc
    · exact obtains_pure (.of_kept he (by rw [huses, ← hx.changed]; simpa using hc))
    · have hc : x.changed = true := by simpa using hc
      refine obtains_pure (.of_changed (laneConsistent_iff.mpr ⟨by simpa [parts] using hx.consistent, trivial⟩)
        (by rw [huses, ← hx.changed, hc]) ?_ rfl)
      rw [(hx.vector hc).1]
      rfl
  | bin op a b iha ihb =>
    have ha := he.part (a := a) (by simp [parts])
    have hb := he.part (a := b) (by simp [parts])
    have huses : (bin op a b).uses l.var =
      (a.uses l.var || b.uses l.var) := by simp [uses_eq_any (e := bin op a b) rfl, parts]
    obtain ⟨htypes, hhandle, hbool⟩ := (ofScalars_iff.mp he).2.2
    rw [widen]
    refine (iha ha (hf.part (by simp [parts]))).bind fun x hx => (ihb hb (hf.part (by simp [parts]))).bind fun y hy => ?_
    split_ifs with hc
    · exact obtains_pure (.of_kept he (by rw [huses, ← hx.changed, ← hy.changed]; simpa using hc))
    have hc : x.changed = true ∨ y.changed = true := by simpa [or_iff_not_imp_left] using hc
    have huses : (bin op a b).uses l.var = true := by rw [huses, ← hx.changed, ← hy.changed]; simpa using hc
    refine (obtains_widening (P := fun e' => e'.LaneConsistent ∧ e'.dtype = (bin op a b).dtype.withLanes n ∧
      e'.isConst = false) ?_).bind
      fun e' h => obtains_pure (.of_changed h.1 huses h.2.1 h.2.2)
    by_cases hop : op = .and ∨ op = .or
    · obtain ⟨hca, hcb, heven⟩ := (followed_iff.mp hf).2 hop
      have hxy : x.changed = y.changed := by rw [hx.changed, hy.changed, heven]
      have hcx : x.changed = true := by rcases hc with hc | hc <;> simp [hc, hxy]
      obtain ⟨hxt, hxc⟩ := hx.vector hcx
      obtain ⟨hyt, hyc⟩ := hy.vector (hxy ▸ hcx)
      have hb : b.dtype.isBool := htypes ▸ hbool hop
      refine ⟨_, binary_connective hop (by rw [hxt]; exact hbool hop) (by rw [hyt]; exact hb) hxc hyc, ?_, ?_, rfl⟩
      · exact laneConsistent_iff.mpr ⟨by simpa [parts] using ⟨hx.consistent, hy.consistent⟩, by rw [Aligned, hxt, hyt]; rfl⟩
      · rcases hop with rfl | rfl <;> simp [dtype, BinOp.isLogical, hxt, DataType.withLanes]
    · obtain ⟨p, q, hpq, -, hp, hq, hlp, hlq⟩ := binary_withLanes hop hhandle hl.one_lt (hx.dtype ha)
        (by rw [hy.dtype hb, htypes])
        (by cases x.changed <;> simp) (by cases y.changed <;> simp) (by rcases hc with hc | hc <;> simp [hc])
        (hx.formsScalar_of_isConst ha) (hy.formsScalar_of_isConst hb) hx.consistent hy.consistent
      refine ⟨_, hpq, laneConsistent_iff.mpr ⟨by simpa [parts] using ⟨hlp, hlq⟩, by rw [Aligned, hp, hq]⟩, ?_, rfl⟩
      rw [dtype, dtype, hp]
      split_ifs <;> rfl
  | not a iha =>
    rw [widen]
    have huses : (not a).uses l.var = a.uses l.var := by simp [uses_eq_any (e := not a) rfl, parts]
    refine (iha (he.part (by simp [parts])) (hf.part (by simp [parts]))).bind fun x hx => obtains_pure ⟨?_, ?_, ?_, ?_⟩
    · exact laneConsistent_iff.mpr ⟨by simpa [parts] using hx.consistent, trivial⟩
    · rw [huses, ← hx.changed]
    · exact fun h => congrArg not (hx.kept h)
    · exact fun h => ⟨(hx.vector h).1, rfl⟩
  | select c t f ihc iht ihf =>
    have hc := he.part (a := c) (by simp [parts])
    have ht := he.part (a := t) (by simp [parts])
    have hf' := he.part (a := f) (by simp [parts])
    have huses : (select c t f).uses l.var = (c.uses l.var || t.uses l.var || f.uses l.var) := by
      simp [uses_eq_any (e := select c t f) rfl, parts, Bool.or_assoc]
    rw [widen]
    refine (ihc hc (hf.part (by simp [parts]))).bind fun x hx => (iht ht (hf.part (by simp [parts]))).bind fun y hy =>
      (ihf hf' (hf.part (by simp [parts]))).bind fun z hz => ?_
    split_ifs with hkept
    · refine obtains_pure (.of_kept he ?_)
      rw [huses, ← hx.changed, ← hy.changed, ← hz.changed]
      simpa [and_assoc] using hkept
    have hany : x.changed = true ∨ y.changed = true ∨ z.changed = true := by
      by_contra h
      simp only [not_or, Bool.not_eq_true] at h
      simp [h] at hkept
    have huses : (select c t f).uses l.var = true := by
      rw [huses, ← hx.changed, ← hy.changed, ← hz.changed]
      simpa [or_assoc] using hany
    have hmax : maxLanes [x.term, y.term, z.term] = n := by
      refine maxLanes_eq hl.one_lt (by simpa using ⟨hx.lanes hc, hy.lanes ht, hz.lanes hf'⟩) ?_
      rcases hany with h | h | h
      · exact ⟨x.term, by simp, hx.lanes_of_changed h⟩
      · exact ⟨y.term, by simp, hy.lanes_of_changed h⟩
      · exact ⟨z.term, by simp, hz.lanes_of_changed h⟩
    obtain ⟨c', hc', hct, hcl⟩ := hx.toLanes hc
    obtain ⟨t', ht', htt, htl⟩ := hy.toLanes ht
    obtain ⟨f', hf', hft, hfl⟩ := hz.toLanes hf'
    rw [hmax]
    refine (obtains_widening ⟨_, hc', rfl⟩).bind fun _ hc'' => (obtains_widening ⟨_, ht', rfl⟩).bind fun _ ht'' =>
      (obtains_widening ⟨_, hf', rfl⟩).bind fun _ hf'' => ?_
    subst hc'' ht'' hf''
    refine obtains_pure (.of_changed (laneConsistent_iff.mpr ⟨by simpa [parts] using ⟨hcl, htl, hfl⟩, ?_⟩) huses htt rfl)
    exact ⟨by rw [hct, htt]; rfl, by rw [htt, hft]; rfl⟩
  | call t name args kind func index ih =>
    have hargs : ∀ a ∈ args, a.OfScalars := fun a ha => he.part ha
    have huses : (call t name args kind func index).uses l.var = args.any (·.uses l.var) := uses_eq_any rfl
    rw [widen]
    refine (obtains_onList fun a ha => ih a ha (hargs a ha) (hf.part ha)).bind fun xs hxs => ?_
    obtain ⟨es, changed⟩ := xs
    obtain ⟨hchanged, -, hes⟩ := hxs
    simp only at hchanged hes ⊢
    split_ifs with hkept
    · exact obtains_pure (.of_kept he (by rw [huses, ← hchanged]; simpa using hkept))
    have hany : args.any (·.uses l.var) = true := by
      rw [← hchanged]
      simpa using hkept
    exact (obtains_widenCall hl.one_lt hargs hes hany).bind fun e' h =>
      obtains_pure (.of_changed h.1 (huses.trans hany) h.2.1 h.2.2)
  | bind w value body ihv ihb =>
    have hv := he.part (a := value) (by simp [parts])
    have hb := he.part (a := body) (by simp [parts])
    have huses : (bind w value body).uses l.var = (value.uses l.var || body.uses l.var) := by
      simp [uses_eq_any (e := bind w value body) rfl, parts]
    rw [widen]
    refine (ihv hv (hf.part (by simp [parts]))).bind fun x hx => ?_
    by_cases hlanes : x.term.dtype.lanes = 1
    · have hcx : x.changed = false := by
        by_contra h
        have := hx.lanes_of_changed (by simpa using h)
        have := hl.one_lt
        omega
      rw [if_neg (by simpa using hlanes)]
      refine (ihb hb (hf.part (by simp [parts]))).bind fun y hy => obtains_pure ⟨?_, ?_, ?_, ?_⟩
      · exact laneConsistent_iff.mpr ⟨by simpa [parts] using ⟨hx.consistent, hy.consistent⟩, trivial⟩
      · rw [huses, ← hx.changed, ← hy.changed]
      · intro h
        simp only [Bool.or_eq_false_iff] at h
        rw [hx.kept h.1, hy.kept h.2]
      · intro h
        exact ⟨(hy.vector (by simpa [hcx] using h)).1, rfl⟩
    · rw [if_pos (by simpa using hlanes)]
      exact obtains_scalar
  | load t buffer index pred ihb ihi ihp =>
    have hi := he.part (a := index) (by simp [parts])
    obtain ⟨hbuffer, hpred⟩ := (followed_iff.mp hf).2
    have huses : (load t buffer index pred).uses l.var = index.uses l.var := by
      rw [uses_eq_any rfl]
      cases pred <;> simp_all [parts]
    rw [widen]
    refine (ihi hi (hf.part (by simp [parts]))).bind fun x hx => ?_
    split_ifs with hkept
    · exact obtains_pure (.of_kept he (by rw [huses, ← hx.changed]; simpa using hkept))
    · have hc : x.changed = true := by simpa using hkept
      refine obtains_pure (.of_changed (laneConsistent_iff.mpr ⟨?_, trivial⟩) (by rw [huses, ← hx.changed, hc]) ?_ rfl)
      · intro a ha
        rcases List.mem_cons.mp ha with rfl | ha
        · exact (he.part (by simp [parts])).laneConsistent
        rcases List.mem_cons.mp ha with rfl | ha
        · exact hx.consistent
        · exact (he.part (by simpa [parts] using .inr (.inr (by simpa using ha)))).laneConsistent
      · rw [dtype, hx.lanes_of_changed hc]
        rfl
  | ramp | broadcast => exact ((ofScalars_iff.mp he).2.2).elim
  | reduce combiner sources axes cond index _ _ ihs _ ihc =>
    have huses : (reduce combiner sources axes cond index).uses l.var =
        (sources.any (·.uses l.var) || cond.any (·.uses l.var)) := by
      rw [uses_eq_any rfl]
      cases cond <;> simp [parts]
    have hcond : Obtains (widen.onOption l cond) fun b => b = cond.any (·.uses l.var) := by
      cases cond with
      | none => exact obtains_pure rfl
      | some c =>
        refine (ihc c rfl (he.part (by simp [parts])) (hf.part (by simp [parts]))).bind fun x hx => obtains_pure ?_
        simp [hx.changed]
    rw [widen]
    refine (obtains_onList fun a ha => ihs a ha (he.part (by simp [parts, ha]))
      (hf.part (by simp [parts, ha]))).bind fun xs hxs => ?_
    refine hcond.bind fun b hb => ?_
    by_cases hchanged : (xs.2 || b) = true
    · obtain ⟨es, changed⟩ := xs
      simp only [hchanged, if_true]
      exact obtains_scalar
    · obtain ⟨es, changed⟩ := xs
      simp only [hchanged]
      refine obtains_pure (.of_kept he ?_)
      rw [huses, ← hxs.1, ← hb]
      simpa using hchanged

end Widening

end Expr

namespace Stmt

open Expr (RampOf obtains_widen obtains_onList)

variable {s : Stmt} {v : Var} {n : Int} {l : Lanes}

/-! ### Widening statements -/

/-- A loop that is still marked vectorized. -/
def IsVectorized : Stmt → Prop
  | loop _ _ _ .vectorized _ => True
  | _ => False

/-- A store has as many values as indices. -/
def StoreAligned : Stmt → Prop
  | store _ value index _ => value.dtype.lanes = index.dtype.lanes
  | _ => True

/-- Everywhere in a statement lanes fit together. -/
def LaneConsistent (s : Stmt) : Prop :=
  ∀ t ∈ s.stmts, (∀ e ∈ t.exprParts, e.LaneConsistent) ∧ t.StoreAligned

/-- All expressions of a statement are of scalars. -/
def OfScalars (s : Stmt) : Prop :=
  ∀ t ∈ s.stmts, ∀ e ∈ t.exprParts, e.OfScalars

/-- In all expressions of a statement widening follows how they depend on the lane. -/
def Followed (v : Var) (s : Stmt) : Prop :=
  ∀ t ∈ s.stmts, ∀ e ∈ t.exprParts, e.Followed v

/-- The lanes of a statement fit together, and no loop of it is marked vectorized. -/
def Finished (s : Stmt) : Prop :=
  ∀ t ∈ s.stmts, ((∀ e ∈ t.exprParts, e.LaneConsistent) ∧ t.StoreAligned) ∧ ¬ t.IsVectorized

theorem finished_iff : s.Finished ↔
    (∀ b ∈ s.bodies, b.Finished) ∧ ((∀ e ∈ s.exprParts, e.LaneConsistent) ∧ s.StoreAligned) ∧ ¬ s.IsVectorized :=
  forall_mem_stmts

theorem ofScalars_iff : s.OfScalars ↔ (∀ b ∈ s.bodies, b.OfScalars) ∧ ∀ e ∈ s.exprParts, e.OfScalars :=
  forall_mem_stmts

theorem followed_iff : s.Followed v ↔ (∀ b ∈ s.bodies, b.Followed v) ∧ ∀ e ∈ s.exprParts, e.Followed v :=
  forall_mem_stmts

theorem OfScalars.storeAligned (h : s.OfScalars) : s.StoreAligned := by
  cases s with
  | store buffer value index pred =>
    have hparts := (ofScalars_iff.mp h).2
    rw [StoreAligned, (hparts value (by simp)).lanes, (hparts index (by simp)).lanes]
  | _ => trivial

/-- A body of scalars whose expressions widening follows and in which no loop is marked vectorized. -/
structure Widenable (v : Var) (s : Stmt) : Prop where
  scalars : s.OfScalars
  followed : s.Followed v
  serial : ∀ t ∈ s.stmts, ¬ t.IsVectorized

theorem Widenable.body (h : s.Widenable v) {b : Stmt} (hb : b ∈ s.bodies) : b.Widenable v where
  scalars := (ofScalars_iff.mp h.scalars).1 b hb
  followed := (followed_iff.mp h.followed).1 b hb
  serial := (forall_mem_stmts.mp h.serial).1 b hb

theorem OfScalars.finished (h : s.OfScalars) (hserial : ∀ t ∈ s.stmts, ¬ t.IsVectorized) : s.Finished := by
  induction s using induct_bodies with | step s ih
  refine finished_iff.mpr ⟨fun b hb => ?_, ⟨fun e he => ?_, h.storeAligned⟩, (forall_mem_stmts.mp hserial).2⟩
  · exact ih b hb ((ofScalars_iff.mp h).1 b hb) ((forall_mem_stmts.mp hserial).1 b hb)
  · exact ((ofScalars_iff.mp h).2 e he).laneConsistent

theorem Widenable.finished (h : s.Widenable v) : s.Finished := h.scalars.finished h.serial

/-- What widening gives for a statement: lanes that fit together, or the statement itself. -/
structure Widened (s : Stmt) (r : Revised Stmt) : Prop where
  kept : r.changed = false → r.term = s
  finished : r.term.Finished

theorem obtains_scalarOnly (hs : s.Finished) {changed : Bool} : Obtains (widen.scalarOnly changed s) (Widened s) := by
  rw [widen.scalarOnly]
  split_ifs
  · exact obtains_scalar
  · exact obtains_pure ⟨fun _ => rfl, hs⟩

section Widening
variable (hl : RampOf l n)
include hl

theorem Widenable.obtains_expr (h : s.Widenable l.var) {e : Expr} (he : e ∈ s.exprParts) :
    Obtains (e.widen l) (Expr.Widened l.var n e) :=
  obtains_widen hl ((ofScalars_iff.mp h.scalars).2 e he) ((followed_iff.mp h.followed).2 e he)

theorem Widenable.obtains_exprs (h : s.Widenable l.var) (es : List Expr) (hes : ∀ e ∈ es, e ∈ s.exprParts) :
    Obtains (Expr.widen.onList l es) fun r => r.2 = es.any (·.uses l.var) ∧ (r.2 = false → r.1 = es) ∧
      List.Forall₂ (fun e e' => ∃ b, Expr.Widened l.var n e ⟨e', b⟩) es r.1 :=
  obtains_onList fun e he => h.obtains_expr hl (hes e he)

theorem obtains_widenRange {r : Range} (h : s.Widenable l.var) (hmin : r.min ∈ s.exprParts)
    (hextent : r.extent ∈ s.exprParts) :
    Obtains (widen.widenRange l r) fun r' => (r'.changed = false → r'.term = r) ∧
      r'.term.min.LaneConsistent ∧ r'.term.extent.LaneConsistent := by
  rw [widen.widenRange]
  refine (h.obtains_expr hl hmin).bind fun x hx => (h.obtains_expr hl hextent).bind fun y hy =>
    obtains_pure ⟨fun hc => ?_, hx.consistent, hy.consistent⟩
  simp only [Bool.or_eq_false_iff] at hc
  show (⟨x.term, y.term⟩ : Range) = r
  rw [hx.kept hc.1, hy.kept hc.2]
  cases r
  rfl

theorem obtains_widenRanges (rs : List Range) (h : s.Widenable l.var)
    (hrs : ∀ r ∈ rs, r.min ∈ s.exprParts ∧ r.extent ∈ s.exprParts) :
    Obtains (rs.mapM (widen.widenRange l)) fun rs' => (rs'.any (·.changed) = false → rs'.map (·.term) = rs) ∧
      ∀ e ∈ (rs'.map (·.term)).flatMap fun r => [r.min, r.extent], e.LaneConsistent := by
  induction rs with
  | nil => exact obtains_pure (by simp)
  | cons r rs ih =>
    rw [List.mapM_cons]
    refine (obtains_widenRange hl h (hrs r (by simp)).1 (hrs r (by simp)).2).bind fun r' hr' =>
      (ih fun r h => hrs r (by simp [h])).bind fun rs' hrs' => obtains_pure ⟨fun hc => ?_, ?_⟩
    · simp only [List.any_cons, Bool.or_eq_false_iff] at hc
      rw [List.map_cons, hr'.1 hc.1, hrs'.1 hc.2]
    · simpa using ⟨hr'.2.1, hr'.2.2, by simpa using hrs'.2⟩

theorem obtains_widen_stmt (h : s.Widenable l.var) : Obtains (s.widen l) (Widened s) := by
  induction s with
  | bind w value body ih =>
    rw [widen]
    exact (h.obtains_expr hl (by simp)).bind fun _ _ => (ih (h.body (by simp))).bind fun _ _ =>
      obtains_scalarOnly h.finished
  | attr subject key value body ih =>
    rw [widen]
    exact (h.obtains_expr hl (by simp)).bind fun _ _ => (ih (h.body (by simp))).bind fun _ _ =>
      obtains_scalarOnly h.finished
  | assert cond message body ih =>
    rw [widen]
    exact (h.obtains_expr hl (by simp)).bind fun _ _ => (h.obtains_expr hl (by simp)).bind fun _ _ =>
      (ih (h.body (by simp))).bind fun _ _ => obtains_scalarOnly h.finished
  | loop w min extent kind body ih =>
    rw [widen]
    exact (h.obtains_expr hl (by simp)).bind fun _ _ => (h.obtains_expr hl (by simp)).bind fun _ _ =>
      (ih (h.body (by simp))).bind fun _ _ => obtains_scalarOnly h.finished
  | store buffer value index pred =>
    have hparts := (ofScalars_iff.mp h.scalars).2
    rw [widen]
    refine (h.obtains_expr hl (e := value) (by simp)).bind fun x hx =>
      (h.obtains_expr hl (e := index) (by simp)).bind fun y hy => ?_
    split_ifs with hkept hone
    · exact obtains_pure ⟨fun _ => rfl, h.finished⟩
    · exact obtains_scalar
    · have hlanes : y.term.dtype.lanes = n := (hy.lanes (hparts index (by simp))).resolve_left hone
      obtain ⟨value', hvalue, ht, hlc⟩ := hx.toLanes (hparts value (by simp))
      rw [hlanes]
      refine (obtains_widening ⟨_, hvalue, rfl⟩).bind fun _ h' => obtains_pure ⟨fun hc => Bool.noConfusion hc, ?_⟩
      subst h'
      refine finished_iff.mpr ⟨by simp, ⟨fun e he => ?_, ?_⟩, id⟩
      · simp only [exprParts, List.mem_cons, Option.mem_toList] at he
        rcases he with rfl | rfl | rfl | he
        · exact (hparts e (by simp)).laneConsistent
        · exact hlc
        · exact hy.consistent
        · exact (hparts e (by simp [he])).laneConsistent
      · rw [StoreAligned, ht, hlanes]
        rfl
  | provide op output value args =>
    rw [widen]
    refine (h.obtains_expr hl (e := value) (by simp)).bind fun x hx =>
      (h.obtains_exprs hl args (by simp +contextual)).bind fun es hes =>
      obtains_pure ⟨fun hc => ?_, finished_iff.mpr ⟨by simp, ⟨?_, trivial⟩, id⟩⟩
    · simp only [Bool.or_eq_false_iff] at hc
      show provide op output x.term es.1 = _
      rw [hx.kept hc.1, hes.2.1 hc.2]
    · refine List.forall_mem_cons.mpr ⟨hx.consistent, fun e he => ?_⟩
      obtain ⟨_, -, b, hb⟩ := exists_mem_left hes.2.2 he
      exact hb.consistent
  | allocate site buffer dtype extents cond body ih =>
    rw [widen]
    refine (h.obtains_exprs hl extents (by simp +contextual)).bind fun _ _ => (h.obtains_expr hl (by simp)).bind fun _ _ =>
      (ih (h.body (by simp))).bind fun _ _ => obtains_scalarOnly h.finished
  | realize op output dtype bounds cond body ih =>
    rw [widen]
    refine (obtains_widenRanges hl bounds h ?_).bind fun rs hrs =>
      (h.obtains_expr hl (e := cond) (by simp)).bind fun y hy =>
      (ih (h.body (by simp))).bind fun z hz => obtains_pure ⟨fun hc => ?_,
        finished_iff.mpr ⟨by simpa using hz.finished, ⟨?_, trivial⟩, id⟩⟩
    · intro r hr
      simp only [exprParts, List.mem_append, List.mem_flatMap]
      exact ⟨.inl ⟨r, hr, by simp⟩, .inl ⟨r, hr, by simp⟩⟩
    · simp only [Bool.or_eq_false_iff] at hc
      show realize op output dtype (rs.map (·.term)) y.term z.term = _
      rw [hrs.1 hc.1.1, hy.kept hc.1.2, hz.kept hc.2]
    · exact List.forall_mem_append.mpr ⟨hrs.2, by simpa using hy.consistent⟩
  | prefetch op output dtype bounds =>
    rw [widen]
    refine (obtains_widenRanges hl bounds h ?_).bind fun rs hrs => obtains_pure ⟨fun hc => ?_,
      finished_iff.mpr ⟨by simp, ⟨hrs.2, trivial⟩, id⟩⟩
    · intro r hr
      simp only [exprParts, List.mem_flatMap]
      exact ⟨⟨r, hr, by simp⟩, ⟨r, hr, by simp⟩⟩
    · exact congrArg (prefetch op output dtype) (hrs.1 hc)
  | seq ss ih =>
    have hlist (ss : List Stmt) (ih : ∀ s ∈ ss, Obtains (s.widen l) (Widened s)) :
        Obtains (widen.onList l ss) fun r => (r.2 = false → r.1 = ss) ∧ ∀ t ∈ r.1, t.Finished := by
      induction ss with
      | nil => exact obtains_pure (by simp)
      | cons s ss ihs =>
        rw [widen.onList]
        refine (ih s (by simp)).bind fun x hx => (ihs fun t ht => ih t (by simp [ht])).bind fun xs hxs =>
          obtains_pure ⟨fun hc => ?_, ?_⟩
        · simp only [Bool.or_eq_false_iff] at hc
          rw [hx.kept hc.1, hxs.1 hc.2]
        · exact List.forall_mem_cons.mpr ⟨hx.finished, hxs.2⟩
    rw [widen]
    refine (hlist ss fun t ht => ih t ht (h.body (by simpa using ht))).bind fun r hr => obtains_pure ⟨fun hc => ?_, ?_⟩
    · exact congrArg seq (hr.1 hc)
    · exact finished_iff.mpr ⟨by simpa using hr.2, ⟨by simp, trivial⟩, id⟩
  | branch cond onTrue onFalse ih ihf =>
    cases onFalse with
    | none =>
      rw [widen]
      exact (h.obtains_expr hl (by simp)).bind fun _ _ => (ih (h.body (by simp))).bind fun _ _ =>
        obtains_scalarOnly h.finished
    | some onFalse =>
      rw [widen]
      exact (h.obtains_expr hl (by simp)).bind fun _ _ => (ih (h.body (by simp))).bind fun _ _ =>
        (ihf onFalse rfl (h.body (by simp))).bind fun _ _ => obtains_scalarOnly h.finished
  | eval e =>
    rw [widen]
    exact (h.obtains_expr hl (by simp)).bind fun _ _ => obtains_scalarOnly h.finished

end Widening

/-! ### Vectorized loops -/

/-- A loop that is carried out on vectors if its body can be: it is marked vectorized, of a constant extent above one. -/
def IsWide : Stmt → Prop
  | loop _ _ extent .vectorized _ => ∃ n, extent.constInt? = some n ∧ 1 < n
  | _ => False

/-- A wide loop has an integer variable of the type of its first value, which widening follows through its body, and no
    other wide loop is inside. -/
def WideLoopFits : Stmt → Prop
  | loop v min extent .vectorized body => (∃ n, extent.constInt? = some n ∧ 1 < n) →
      v.dtype = min.dtype ∧ min.dtype.isInteger ∧ body.Followed v ∧ ∀ t ∈ body.stmts, ¬ t.IsWide
  | _ => True

theorem finished_serial {min extent : Expr} {body : Stmt} (hmin : min.OfScalars) (hextent : extent.OfScalars)
    (hbody : body.Finished) :
    (loop v min extent .serial body).Finished :=
  finished_iff.mpr ⟨by simpa using hbody, ⟨by simpa using ⟨hmin.laneConsistent, hextent.laneConsistent⟩, trivial⟩, id⟩

theorem rampOf_loop {min : Expr} {n : Int} (hn : 1 < n) (hmin : min.OfScalars) (htype : v.dtype = min.dtype)
    (hint : min.dtype.isInteger) :
    ∃ one, Expr.ofInt 1 min.dtype = Except.ok one ∧ RampOf ⟨v, .ramp min one n⟩ n := by
  have hof : (Number.int 1).ofType min.dtype = .ok (.int 1) := by
    have hbool : min.dtype.isBool = false := by
      simp only [DataType.isInteger, Bool.and_eq_true, Bool.not_eq_true'] at hint
      exact hint.2
    have hfloat : min.dtype.isFloat = false := by
      simp only [DataType.isInteger, DataType.isInt, DataType.isUInt, Bool.and_eq_true, Bool.or_eq_true, beq_iff_eq] at hint
      rcases hint.1 with h | h <;> simp [DataType.isFloat, h]
    simp [Number.ofType, hbool, hfloat, hint, Number.toInt, Functor.map, Except.map]
  refine ⟨.const (.int 1) min.dtype.element, by rw [Expr.ofInt, Expr.ofNumber, hof]; rfl, hn, ?_, by rw [htype]; rfl, rfl⟩
  exact Expr.laneConsistent_iff.mpr ⟨by simpa [Expr.parts] using ⟨hmin.laneConsistent,
    Expr.laneConsistent_iff.mpr ⟨by simp [Expr.parts], trivial⟩⟩, hmin.lanes, rfl⟩

theorem vectorizeLoop_narrow {min extent : Expr} {body : Stmt} (h : ¬ ∃ n, extent.constInt? = some n ∧ 1 < n) :
    vectorizeLoop v min extent body = .ok (loop v min extent .serial body) := by
  rw [vectorizeLoop]
  cases hc : extent.constInt? with
  | none => rfl
  | some n => exact if_pos (by_contra fun hn => h ⟨n, hc, by omega⟩)

/-- A loop that is marked vectorized becomes a statement without such loops whose lanes fit together. -/
theorem vectorizeLoop_finished {min extent : Expr} {body : Stmt} (hmin : min.OfScalars) (hextent : extent.OfScalars)
    (hfinished : body.Finished)
    (hwide : (∃ n, extent.constInt? = some n ∧ 1 < n) → v.dtype = min.dtype ∧ min.dtype.isInteger ∧ body.Widenable v) :
    ∃ s', vectorizeLoop v min extent body = .ok s' ∧ s'.Finished := by
  have hserial := finished_serial (v := v) hmin hextent hfinished
  by_cases hn : ∃ n, extent.constInt? = some n ∧ 1 < n
  · obtain ⟨htype, hint, hbody⟩ := hwide hn
    obtain ⟨n, hc, hn⟩ := hn
    obtain ⟨one, hone, hramp⟩ := rampOf_loop (v := v) hn hmin htype hint
    have hw := obtains_widen_stmt hramp hbody
    have hbind (k : Expr → Except Error Stmt) : (Except.ok one >>= k) = k one := rfl
    rw [vectorizeLoop, hc]
    simp only
    rw [if_neg (by omega), hone, hbind]
    rcases hr : body.widen ⟨v, .ramp min one n⟩ with (_ | e) | r
    · exact ⟨_, rfl, hserial⟩
    · rw [hr] at hw
      exact hw.elim
    · rw [hr] at hw
      exact ⟨_, rfl, hw.finished⟩
  · exact ⟨_, vectorizeLoop_narrow hn, hserial⟩

/-- What carrying out vectorized loops gives for a statement: if there is no wide loop in it, only the kinds of loops
    change. -/
structure Vectorized (s s' : Stmt) : Prop where
  finished : s'.Finished
  same : (∀ t ∈ s.stmts, ¬ t.IsWide) → ∀ p : Expr → Prop, (∀ t ∈ s.stmts, ∀ e ∈ t.exprParts, p e) →
    ∀ t ∈ s'.stmts, ∀ e ∈ t.exprParts, p e

/-- The loops of the bodies are carried out first, then the loop that the statement is, if it is marked vectorized. -/
theorem vectorize_eq (s : Stmt) : ∃ g : Stmt → Except Error Stmt,
    s.vectorize = (s.bodies.mapM vectorize >>= fun bs => g (s.withBodies bs)) ∧
      (∀ v min extent body, g (loop v min extent .vectorized body) = vectorizeLoop v min extent body) ∧
      ∀ t, ¬ t.IsVectorized → g t = .ok t := by
  obtain ⟨g, hg, hloop, hother⟩ : ∃ g : Stmt → Except Error Stmt, vectorize = rebuildM pure g ∧
      (∀ v min extent body, g (loop v min extent .vectorized body) = vectorizeLoop v min extent body) ∧
        ∀ t, ¬ t.IsVectorized → g t = .ok t := by
    refine ⟨_, funext fun _ => rfl, fun _ _ _ _ => rfl, fun t ht => ?_⟩
    cases t with
    | loop v min extent kind body => cases kind <;> first | rfl | exact absurd trivial ht
    | _ => rfl
  exact ⟨g, by rw [hg, rebuildM_eq], hloop, hother⟩

theorem withBodies_marks {P : Stmt → Stmt → Prop} {bs : List Stmt} (h : List.Forall₂ P s.bodies bs) :
    ((s.withBodies bs).IsVectorized ↔ s.IsVectorized) ∧ ((s.withBodies bs).StoreAligned ↔ s.StoreAligned) := by
  cases s with
  | branch cond onTrue onFalse =>
    cases onFalse with
    | none =>
      cases h with | cons _ h
      cases h
      exact ⟨Iff.rfl, Iff.rfl⟩
    | some onFalse =>
      cases h with | cons _ h
      cases h with | cons _ h
      cases h
      exact ⟨Iff.rfl, Iff.rfl⟩
  | seq => exact ⟨Iff.rfl, Iff.rfl⟩
  | store | provide | prefetch | eval =>
    cases h
    exact ⟨Iff.rfl, Iff.rfl⟩
  | loop v min extent kind body =>
    cases h with | cons _ h
    cases h
    cases kind <;> exact ⟨Iff.rfl, Iff.rfl⟩
  | _ =>
    cases h with | cons _ h
    cases h
    exact ⟨Iff.rfl, Iff.rfl⟩

theorem exists_vectorized (hs : s.OfScalars) (hloops : ∀ t ∈ s.stmts, t.WideLoopFits) :
    ∃ s', s.vectorize = .ok s' ∧ s.Vectorized s' := by
  induction s using induct_bodies with | step s ih
  have hlist (ss : List Stmt) (h : ∀ b ∈ ss, ∃ b', b.vectorize = .ok b' ∧ b.Vectorized b') :
      ∃ bs, ss.mapM vectorize = .ok bs ∧ List.Forall₂ Vectorized ss bs := by
    induction ss with
    | nil => exact ⟨[], rfl, .nil⟩
    | cons b ss ihs =>
      obtain ⟨b', hb, hv⟩ := h b (by simp)
      obtain ⟨bs, hbs, hvs⟩ := ihs fun b hb => h b (by simp [hb])
      exact ⟨b' :: bs, by rw [List.mapM_cons, hb, hbs]; rfl, .cons hv hvs⟩
  have hscalars := ofScalars_iff.mp hs
  have hfits := forall_mem_stmts.mp hloops
  obtain ⟨bs, hok, hbs⟩ := hlist s.bodies fun b hb => ih b hb (hscalars.1 b hb) (hfits.1 b hb)
  have hsame (hwide : ∀ t ∈ s.stmts, ¬ t.IsWide) (p : Expr → Prop) (hp : ∀ t ∈ s.stmts, ∀ e ∈ t.exprParts, p e) :
      ∀ b ∈ bs, ∀ t ∈ b.stmts, ∀ e ∈ t.exprParts, p e := by
    intro b' hb'
    obtain ⟨b, hb, hv⟩ := exists_mem_left hbs hb'
    exact hv.same ((forall_mem_stmts.mp hwide).1 b hb) p ((forall_mem_stmts.mp hp).1 b hb)
  have hfinished : ∀ b ∈ bs, b.Finished := fun b' hb' => by
    obtain ⟨b, -, hv⟩ := exists_mem_left hbs hb'
    exact hv.finished
  obtain ⟨g, hrebuild, hloop, hother⟩ := vectorize_eq s
  rw [hrebuild, hok]
  show ∃ s', g (s.withBodies bs) = .ok s' ∧ s.Vectorized s'
  by_cases hvec : s.IsVectorized
  · cases s with
    | loop v min extent kind body =>
      cases kind with
      | vectorized =>
        obtain ⟨body', hv, rfl⟩ : ∃ body', body.Vectorized body' ∧ bs = [body'] := by
          cases hbs with | cons hv h
          cases h
          exact ⟨_, hv, rfl⟩
        have hmin := hscalars.2 min (by simp)
        have hextent := hscalars.2 extent (by simp)
        have hbody : (∃ n, extent.constInt? = some n ∧ 1 < n) → v.dtype = min.dtype ∧ min.dtype.isInteger ∧
          body'.Widenable v := by
          intro hn
          obtain ⟨htype, hint, hfollowed, hnarrow⟩ := hfits.2 hn
          exact ⟨htype, hint, hv.same hnarrow _ (hscalars.1 body (by simp)), hv.same hnarrow _ hfollowed,
            fun t ht => (hv.finished t ht).2⟩
        obtain ⟨s', hs', hfin⟩ := vectorizeLoop_finished (v := v) hmin hextent (hfinished body' (by simp)) hbody
        refine ⟨s', (hloop v min extent body').trans hs', hfin, fun hwide p hp => ?_⟩
        have hnarrow : ¬ ∃ n, extent.constInt? = some n ∧ 1 < n := (forall_mem_stmts.mp hwide).2
        obtain rfl : loop v min extent .serial body' = s' := Except.ok.inj ((vectorizeLoop_narrow hnarrow).symm.trans hs')
        refine forall_mem_stmts.mpr ⟨by simpa using hsame hwide p hp body' (by simp), ?_⟩
        exact (forall_mem_stmts.mp hp).2
      | _ => exact hvec.elim
    | _ => exact hvec.elim
  · refine ⟨_, hother _ (mt (withBodies_marks hbs).1.mp hvec), ?_, fun hwide p hp => ?_⟩
    · refine finished_iff.mpr ⟨by rwa [bodies_withBodies hbs], ⟨?_, (withBodies_marks hbs).2.mpr hs.storeAligned⟩,
        mt (withBodies_marks hbs).1.mp hvec⟩
      rw [exprParts_withBodies hbs]
      exact fun e he => (hscalars.2 e he).laneConsistent
    · refine forall_mem_stmts.mpr ⟨?_, ?_⟩
      · rw [bodies_withBodies hbs]
        exact hsame hwide p hp
      · rw [exprParts_withBodies hbs]
        exact (forall_mem_stmts.mp hp).2

/-- Vectorizing a statement of scalars succeeds if wide loops are not nested and widening follows how their bodies depend on
    the lane. The lanes of what it gives fit together, and none of its loops is marked vectorized. -/
theorem laneConsistent_vectorize (hs : s.OfScalars) (hloops : ∀ t ∈ s.stmts, t.WideLoopFits) :
    ∃ s', s.vectorize = .ok s' ∧ s'.LaneConsistent ∧ ∀ t ∈ s'.stmts, ¬ t.IsVectorized := by
  obtain ⟨s', hok, hv⟩ := exists_vectorized hs hloops
  exact ⟨s', hok, fun t ht => (hv.finished t ht).1, fun t ht => (hv.finished t ht).2⟩

/-! ### An example -/

namespace Doubling

def buffer : Var := ⟨0, "A", .handle⟩

def index : Var := ⟨1, "i", .int32⟩

/-- Stores the first even numbers in a buffer. -/
def loop : Stmt :=
  .loop index (.int32 0) (.int32 4) .vectorized (.store (.var buffer) (.bin .mul (.var index) (.int32 2)) (.var index) none)

theorem ofScalars_loop : loop.OfScalars := by
  have hint (n : Int) : (Expr.int32 n).OfScalars :=
    Expr.ofScalars_iff.mpr ⟨by simp [Expr.int32, Expr.parts], rfl, rfl, .int n, rfl⟩
  have hindex : (Expr.var index).OfScalars := Expr.ofScalars_iff.mpr ⟨by simp [Expr.parts], rfl, rfl⟩
  have hbuffer : (Expr.var buffer).OfScalars := Expr.ofScalars_iff.mpr ⟨by simp [Expr.parts], rfl, rfl⟩
  have hvalue : (Expr.bin .mul (.var index) (.int32 2)).OfScalars :=
    Expr.ofScalars_iff.mpr ⟨by simpa [Expr.parts] using ⟨hindex, hint 2⟩, rfl, rfl, rfl, by simp⟩
  have hstore : (store (.var buffer) (.bin .mul (.var index) (.int32 2)) (.var index) none).OfScalars :=
    ofScalars_iff.mpr ⟨by simp, by simpa using ⟨hbuffer, hvalue, hindex⟩⟩
  exact ofScalars_iff.mpr ⟨by simpa [loop] using hstore, by simpa [loop] using ⟨hint 0, hint 4⟩⟩

theorem wideLoopFits_loop : ∀ t ∈ loop.stmts, t.WideLoopFits := by
  refine forall_mem_stmts.mpr ⟨?_, fun _ => ⟨rfl, rfl, ?_, ?_⟩⟩
  · simp only [loop, bodies, List.forall_mem_singleton]
    exact forall_mem_stmts.mpr ⟨by simp, trivial⟩
  · refine followed_iff.mpr ⟨by simp, ?_⟩
    simp [Expr.Followed, Expr.postorder, Expr.Even, Expr.int32, buffer, index]
  · exact forall_mem_stmts.mpr ⟨by simp, id⟩

theorem vectorize_loop : ∃ s', loop.vectorize = .ok s' ∧ s'.LaneConsistent ∧ ∀ t ∈ s'.stmts, ¬ t.IsVectorized :=
  laneConsistent_vectorize ofScalars_loop wideLoopFits_loop

end Doubling

end Stmt

end TensorNest

import TensorNest.Expr.Simplify
import TensorNest.Proofs.Edit
import TensorNest.Proofs.Expression

/-! # Failures of builders

Expressions can fail to be built: two types do not combine, or a number is not one of a type. They never
fail because something was looked up and not found. `Keyed x` says that of a computation `x`. -/

namespace TensorNest

/-- A computation does not fail because something was looked up and not found. -/
def Keyed {α : Type} (x : Except Error α) : Prop :=
  ∀ e, x = .error e → e.category ≠ .key

section Keyed
variable {α β : Type} {x : Except Error α} {f : α → Except Error β}

theorem keyed_ok {a : α} : Keyed (.ok a) := nofun

theorem keyed_error {e : Error} (h : e.category ≠ .key) : Keyed (.error e : Except Error α) := by
  rintro e' ⟨⟩
  exact h

theorem Keyed.bind (hx : Keyed x) (hf : ∀ a, x = .ok a → Keyed (f a)) : Keyed (x >>= f) := by
  cases x with
  | error e =>
    rintro e' ⟨⟩
    exact hx e rfl
  | ok a => exact hf a rfl

theorem Keyed.map {f : α → β} (hx : Keyed x) : Keyed (f <$> x) := by
  cases x with
  | error e =>
    rintro e' ⟨⟩
    exact hx e rfl
  | ok a => exact keyed_ok

/-- A computation looks nothing up in vain, and its result, if it has one, has a property. -/
def Finds (x : Except Error α) (P : α → Prop) : Prop :=
  Keyed x ∧ ∀ a, x = .ok a → P a

theorem finds_ok {P : α → Prop} {a : α} (h : P a) : Finds (.ok a) P :=
  ⟨keyed_ok, fun _ heq => Except.ok.inj heq ▸ h⟩

theorem Finds.bind {P : α → Prop} {Q : β → Prop} (hx : Finds x P) (hf : ∀ a, P a → Finds (f a) Q) :
    Finds (x >>= f) Q := by
  refine ⟨hx.1.bind fun a ha => (hf a (hx.2 a ha)).1, fun b hb => ?_⟩
  obtain ⟨a, ha, hb⟩ := bind_eq_ok.mp hb
  exact (hf a (hx.2 a ha)).2 b hb

end Keyed

namespace Number

theorem keyed_toInt (v : Number) : Keyed v.toInt := by
  unfold toInt
  split
  · exact keyed_ok
  · exact keyed_ok
  · split
    · exact keyed_ok
    · split
      · exact keyed_error nofun
      · exact keyed_error nofun
  · exact keyed_error nofun

theorem keyed_toFloat (v : Number) : Keyed v.toFloat := by
  unfold toFloat
  split
  · exact keyed_ok
  · split
    · exact keyed_ok
    · exact keyed_error nofun
  · exact keyed_ok
  · exact keyed_ok

theorem keyed_ofType (t : DataType) (v : Number) : Keyed (v.ofType t) := by
  unfold ofType
  split
  · exact keyed_ok
  split
  · split
    · exact keyed_ok
    · exact v.keyed_toFloat.map
  split
  · exact v.keyed_toInt.map
  · exact keyed_error nofun

theorem keyed_lift {α : Type} {onInt : Int → Int → α} {onFloat : Float → Float → α} (x y : Number) :
    Keyed (lift onInt onFloat x y) := by
  unfold lift
  split
  · exact keyed_ok
  · exact x.keyed_toFloat.bind fun _ _ => y.keyed_toFloat.bind fun _ _ => keyed_ok

theorem keyed_div (integer : Bool) (x y : Number) : Keyed (x.div integer y) := by
  unfold div
  split
  · exact keyed_ok
  · exact x.keyed_toFloat.bind fun _ _ => y.keyed_toFloat.bind fun _ _ => keyed_ok

theorem keyed_mod (integer : Bool) (x y : Number) : Keyed (x.mod integer y) := by
  unfold mod
  split
  · exact keyed_ok
  · refine x.keyed_toFloat.bind fun _ _ => y.keyed_toFloat.bind fun _ _ => ?_
    simp only
    split
    · exact keyed_error nofun
    · exact keyed_ok

end Number

namespace Expr

/-! ### Builders -/

theorem keyed_ofNumber (v : Number) (t : DataType) : Keyed (ofNumber v t) :=
  (v.keyed_ofType t).bind fun _ _ => keyed_ok

theorem keyed_ofInt (n : Int) (t : DataType) : Keyed (ofInt n t) :=
  keyed_ofNumber _ t

/-- A type that is given by itself or not at all. -/
def Plainly : TypeSpec → Prop
  | .exact _ | .unspecified => True
  | _ => False

theorem keyed_convert (x : Operand) {spec : TypeSpec} (hspec : Plainly spec) : Keyed (convert x spec) := by
  have hnumber : ∀ (v : Number) (t : DataType), Keyed (do ofNumber v (← spec.orElse t)) := by
    intro v t
    cases spec with
    | exact t' => exact keyed_ofNumber v t'
    | unspecified => exact keyed_ofNumber v t
    | named _ => cases hspec
    | other _ _ => cases hspec
  unfold convert
  split
  · exact hnumber _ _
  · exact keyed_ok
  · exact keyed_ok
  · exact keyed_ok
  · exact hnumber _ _
  · split
    · exact hnumber _ _
    · exact keyed_error nofun
  · exact keyed_error nofun

theorem keyed_plainType (x y : Operand) : Keyed (plainType x y) := by
  have hplain : Plainly .unspecified := trivial
  refine (keyed_convert y hplain).bind fun a _ => ?_
  simp only
  split <;> exact keyed_ok

theorem plainly_of_plainType {x y : Operand} {spec : TypeSpec} (h : plainType x y = .ok spec) : Plainly spec := by
  obtain ⟨a, -, h⟩ := bind_eq_ok.mp h
  simp only at h
  split at h
  · cases h
    split <;> trivial
  · cases h
    split <;> trivial
  · cases h
    split <;> trivial
  · cases h
    trivial

theorem keyed_combine (l r : DataType) (lConst rConst : Bool) : Keyed (DataType.combine l r lConst rConst) := by
  unfold DataType.combine
  split
  · exact keyed_ok
  split
  · exact keyed_error nofun
  split
  · exact keyed_error nofun
  simp only
  split
  · exact keyed_ok
  split
  · exact keyed_ok
  split
  · exact keyed_ok
  split
  · exact keyed_ok
  split
  · exact keyed_ok
  · exact keyed_error nofun

theorem keyed_coerce (e : Expr) (t : DataType) : Keyed (coerce e t) := by
  unfold coerce
  split
  · exact keyed_ok
  split
  · exact (keyed_ofNumber _ _).bind fun _ _ => keyed_ok
  · split
    · exact keyed_ok
    · exact keyed_ok

theorem keyed_operands (x y : Operand) : Keyed (operands x y) := by
  have hplain : Plainly .unspecified := trivial
  have hcombined : ∀ (x y : Operand) (xConst yConst : Bool), Keyed (do
      let a ← convert x
      let b ← convert y
      let t ← DataType.combine a.dtype b.dtype xConst yConst
      return (← coerce a t, ← coerce b t)) := by
    intro x y xConst yConst
    refine (keyed_convert x hplain).bind fun a _ => (keyed_convert y hplain).bind fun b _ => ?_
    refine (keyed_combine _ _ _ _).bind fun t _ => (keyed_coerce a t).bind fun _ _ => ?_
    exact (keyed_coerce b t).bind fun _ _ => keyed_ok
  -- Each side is converted first if it is plain and the other one is not.
  have hside : ∀ x y : Operand, Keyed (do Operand.expr <$> convert x (← plainType x y)) := fun x y =>
    (keyed_plainType x y).bind fun _ hspec => (keyed_convert x (plainly_of_plainType hspec)).map
  have hsecond : ∀ (x y : Operand) (xConst yConst : Bool), Keyed (do
      let y ← if !y.isNode && x.isNode then Operand.expr <$> convert y (← plainType y x) else pure y
      let a ← convert x
      let b ← convert y
      let t ← DataType.combine a.dtype b.dtype xConst yConst
      return (← coerce a t, ← coerce b t)) := by
    intro x y xConst yConst
    simp only
    split
    · exact (keyed_plainType y x).bind fun spec hspec =>
        (keyed_convert y (plainly_of_plainType hspec)).map.bind fun y _ => hcombined x y _ _
    · exact hcombined x y _ _
  unfold operands
  simp only
  split
  · exact (keyed_plainType x y).bind fun spec hspec =>
      (keyed_convert x (plainly_of_plainType hspec)).map.bind fun x _ => hsecond x y _ _
  · exact hsecond x y _ _

theorem keyed_foldValue (op : BinOp) (integer : Bool) (x y : Number) : Keyed (foldValue op integer x y) := by
  cases op with
  | add | sub | mul => exact Number.keyed_lift x y
  | div => exact Number.keyed_div integer x y
  | mod => exact Number.keyed_mod integer x y
  | _ => exact keyed_ok

theorem keyed_fold (op : BinOp) (a b : Expr) : Keyed (fold op a b) := by
  unfold fold
  split
  · split
    · exact keyed_ok
    · exact (keyed_foldValue _ _ _ _).bind fun _ _ => keyed_ofNumber _ _
  · exact keyed_ok

theorem keyed_arith (op : BinOp) (x y : Operand) : Keyed (arith op x y) :=
  (keyed_operands x y).bind fun _ _ => keyed_fold op _ _

theorem keyed_asBool (x : Operand) : Keyed (asBool x) := by
  have hplain : Plainly .unspecified := trivial
  refine (keyed_convert x hplain).bind fun a _ => ?_
  split
  · exact keyed_ok
  · exact (keyed_ofInt _ _).bind fun _ _ => keyed_arith .ne _ _

theorem keyed_binary (op : BinOp) (x y : Operand) : Keyed (binary op x y) := by
  unfold binary
  split
  · refine (keyed_asBool x).bind fun a _ => (keyed_asBool y).bind fun b _ => ?_
    split <;> exact keyed_ok
  · refine (keyed_asBool x).bind fun a _ => (keyed_asBool y).bind fun b _ => ?_
    split <;> exact keyed_ok
  · exact keyed_arith op x y

theorem keyed_logicalNot (x : Operand) : Keyed (logicalNot x) := by
  refine (keyed_asBool x).bind fun a _ => ?_
  split <;> exact keyed_ok

theorem keyed_choose (c x y : Operand) : Keyed (choose c x y) := by
  refine (keyed_asBool c).bind fun c _ => (keyed_operands x y).bind fun ⟨t, f⟩ _ => ?_
  simp only
  split <;> exact keyed_ok

theorem keyed_castTo (t : DataType) (e : Expr) : Keyed (castTo t e) := by
  unfold castTo
  split
  · exact keyed_ok
  split
  · split
    · exact keyed_ofNumber _ _
    · exact keyed_ok
  · exact keyed_ok

theorem keyed_ceilDiv (x y : Operand) : Keyed (ceilDiv x y) :=
  (keyed_operands x y).bind fun _ _ => (keyed_arith .sub _ _).bind fun _ _ =>
    (keyed_arith .add _ _).bind fun _ _ => keyed_arith .div _ _

end Expr

/-! ### Linear forms -/

namespace Linear

theorem keyed_ofExpr (e : Expr) : Keyed (ofExpr e) := by
  induction e with
  | const v t => exact v.keyed_toInt.map
  | bin op a b iha ihb =>
    cases op with
    | add | sub => exact iha.bind fun _ _ => ihb.bind fun _ _ => keyed_ok
    | mul =>
      unfold ofExpr
      split
      · exact iha.bind fun _ _ => (Number.keyed_toInt _).bind fun _ _ => keyed_ok
      · exact ihb.bind fun _ _ => (Number.keyed_toInt _).bind fun _ _ => keyed_ok
      · exact keyed_ok
    | _ => exact keyed_ok
  | _ => exact keyed_ok

theorem keyed_termExpr (t : DataType) (e : Expr) (c : Int) : Keyed (termExpr t e c) := by
  unfold termExpr
  split
  · exact keyed_ok
  · exact (Expr.keyed_ofInt _ _).bind fun _ _ => keyed_ok

theorem keyed_sumTerms (t : DataType) (acc : Option Expr) (ts : List (Expr × Int)) : Keyed (sumTerms t acc ts) := by
  induction ts generalizing acc with
  | nil => exact keyed_ok
  | cons u ts ih =>
    obtain ⟨e, c⟩ := u
    rw [sumTerms]
    split
    · exact ih acc
    refine (keyed_termExpr t e c).bind fun term _ => ?_
    simp only
    split
    · split
      · exact ih _
      · exact (Expr.keyed_ofInt _ _).bind fun _ _ => ih _
    · exact ih _

theorem keyed_toExpr (l : Linear) (t : DataType) : Keyed (l.toExpr t) := by
  refine (keyed_sumTerms t none l.terms).bind fun r _ => ?_
  split
  · exact Expr.keyed_ofInt _ _
  · split
    · exact (Expr.keyed_ofInt _ _).bind fun _ _ => keyed_ok
    · split
      · exact (Expr.keyed_ofInt _ _).bind fun _ _ => keyed_ok
      · exact keyed_ok

end Linear

/-! ### Simplification -/

namespace Expr

theorem keyed_divMod? (op : BinOp) (a b : Expr) : Keyed (divMod? op a b) := by
  unfold divMod?
  split
  · split
    · exact keyed_ok
    refine (Number.keyed_toInt _).bind fun d _ => ?_
    split
    · split
      · exact keyed_ok
      · exact (keyed_ofInt _ _).bind fun _ _ => keyed_ok
    refine (Linear.keyed_ofExpr a).bind fun l _ => ?_
    split
    · exact keyed_ok
    split
    · exact (keyed_ofInt _ _).bind fun _ _ => keyed_ok
    · exact (Linear.keyed_toExpr _ _).bind fun _ _ => keyed_ok
  · exact keyed_ok

theorem keyed_constDiff? (a b : Expr) : Keyed (constDiff? a b) := by
  unfold constDiff?
  split
  · exact (Linear.keyed_ofExpr _).bind fun _ _ => keyed_ok
  · exact keyed_ok

theorem keyed_binRule? (op : BinOp) (t : DataType) (a b : Expr) : Keyed (binRule? op t a b) := by
  have hlinear : ∀ op, Keyed (do
      if t.isInteger && t.lanes == 1 then
        return some (← (← Linear.ofExpr (.bin op a b)).toExpr t)
      return none) := by
    intro op
    split
    · exact (Linear.keyed_ofExpr _).bind fun l _ => (l.keyed_toExpr t).bind fun _ _ => keyed_ok
    · exact keyed_ok
  unfold binRule?
  cases op with
  | add | sub | mul => exact hlinear _
  | div | mod =>
    simp only
    split
    · exact keyed_divMod? _ _ _
    · exact keyed_ok
  | and | or => exact keyed_ok
  | _ =>
    refine (keyed_constDiff? a b).bind fun d _ => ?_
    split <;> exact keyed_ok

theorem keyed_simplifyBin (op : BinOp) (t : DataType) (a b : Revised Expr) : Keyed (simplifyBin op t a b) := by
  refine (keyed_binRule? op t a.term b.term).bind fun r _ => ?_
  split
  · exact keyed_ok
  split
  · exact keyed_ok
  · exact (keyed_binary op _ _).bind fun _ _ => keyed_ok

theorem keyed_simplifyUnder (σ : Subst) (e : Expr) : Keyed (e.simplifyUnder σ) := by
  have onList : ∀ {σ : Subst} {es : List Expr}, (∀ e ∈ es, Keyed (e.simplifyUnder σ)) →
      Keyed (simplifyUnder.onList σ es) := by
    intro σ es hes
    induction es with
    | nil => exact keyed_ok
    | cons e es ih =>
      rw [List.forall_mem_cons] at hes
      exact hes.1.bind fun _ _ => (ih hes.2).bind fun _ _ => keyed_ok
  have onOption : ∀ {σ : Subst} {o : Option Expr}, (∀ e ∈ o, Keyed (e.simplifyUnder σ)) →
      Keyed (simplifyUnder.onOption σ o) := by
    intro σ o ho
    cases o with
    | none => exact keyed_ok
    | some e => exact (ho e rfl).bind fun _ _ => keyed_ok
  induction e generalizing σ with
  | var v => exact keyed_ok
  | const x t => exact keyed_ok
  | str s => exact keyed_ok
  | cast t a ih => exact (ih σ).bind fun _ _ => (keyed_castTo t _).bind fun _ _ => keyed_ok
  | bin op a b iha ihb => exact (iha σ).bind fun _ _ => (ihb σ).bind fun _ _ => keyed_simplifyBin op _ _ _
  | not a ih => exact (ih σ).bind fun _ _ => (keyed_logicalNot _).bind fun _ _ => keyed_ok
  | select c t f ihc iht ihf =>
    refine (ihc σ).bind fun _ _ => (iht σ).bind fun _ _ => (ihf σ).bind fun _ _ => ?_
    split
    · exact keyed_ok
    · exact (keyed_choose _ _ _).bind fun _ _ => keyed_ok
  | call t name args kind func i ih => exact (onList fun a ha => ih a ha σ).bind fun _ _ => keyed_ok
  | bind v a b iha ihb =>
    refine (iha σ).bind fun x _ => ?_
    split
    · exact (ihb _).bind fun _ _ => keyed_ok
    · exact (ihb σ).bind fun _ _ => keyed_ok
  | load t a b p iha ihb ihp =>
    exact (iha σ).bind fun _ _ => (ihb σ).bind fun _ _ => (onOption fun c hc => ihp c hc σ).bind fun _ _ => keyed_ok
  | ramp a b lanes iha ihb => exact (iha σ).bind fun _ _ => (ihb σ).bind fun _ _ => keyed_ok
  | broadcast a lanes ih => exact (ih σ).bind fun _ _ => keyed_ok
  | reduce c sources axes cond i _ _ ihs _ ihc =>
    exact (onList fun a ha => ihs a ha σ).bind fun _ _ => (onOption fun a ha => ihc a ha σ).bind fun _ _ => keyed_ok

theorem keyed_simplify (e : Expr) : Keyed e.simplify :=
  (keyed_simplifyUnder [] e).bind fun _ _ => keyed_ok

end Expr

end TensorNest

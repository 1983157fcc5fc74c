import TensorNest.Proofs.Extents

/-! # What is built keeps the properties of its parts

The builders put operands together by constants, casts, broadcasts, operations and choices. A property of expressions
that these keep (`Expr.Built`) holds of whatever is built from operands that have it. -/

namespace TensorNest

/-- Nothing is known of the result of a step. -/
theorem ensures_trivial {α : Type} {x : Except Error α} : Ensures x fun _ => True := fun _ _ => trivial

/-- What each step of a fold keeps, the fold keeps. -/
theorem ensures_foldlM {α β : Type} {I : β → Prop} {f : β → α → Except Error β} {l : List α} {b : β}
    (step : ∀ a ∈ l, ∀ b, I b → Ensures (f b a) I) (h : I b) : Ensures (l.foldlM f b) I := fun _ hrun =>
  foldlM_keeps (fun a ha {b b'} hb hf => step a ha b hb b' hf) h hrun

/-- What each step ensures holds of all results. -/
theorem ensures_mapM {α β : Type} {P : β → Prop} {f : α → Except Error β} {l : List α} (step : ∀ a ∈ l, Ensures (f a) P) :
    Ensures (l.mapM f) fun bs => ∀ b ∈ bs, P b := fun _ hrun b hb => by
  obtain ⟨a, ha, hf⟩ := (mem_mapM hrun).1 b hb
  exact step a ha b hf

/-- A property that constants and texts have, and that the builders keep. -/
class Expr.Built (P : Expr → Prop) : Prop where
  const {n : Number} {t : DataType} : P (.const n t)
  str {text : String} : P (.str text)
  cast {t : DataType} {a : Expr} : P a → P (.cast t a)
  bin {op : BinOp} {a b : Expr} : P a → P b → P (.bin op a b)
  not {a : Expr} : P a → P (.not a)
  select {c a b : Expr} : P c → P a → P b → P (.select c a b)
  broadcast {a : Expr} {lanes : Int} : P a → P (.broadcast a lanes)

/-- An operand that is an expression with a property, if it can be a part of an expression. -/
def Operand.Has (P : Expr → Prop) : Operand → Prop
  | .expr e => P e
  | .axis iv => P (.var iv.var)
  | _ => True

namespace Expr

variable {P : Expr → Prop} [Built P] {t : DataType} {a b e : Expr} {op : BinOp} {x y z : Operand}

theorem built_ofNumber {n : Number} : Ensures (ofNumber n t) P := fun e he => by
  obtain ⟨m, -, he⟩ := bind_eq_ok.mp he
  cases he
  exact Built.const

theorem built_convert {spec : TypeSpec} (hx : x.Has P) : Ensures (convert x spec) P := by
  unfold convert
  split
  · exact ensures_trivial.bind fun _ _ => built_ofNumber
  · exact ensures_ok hx
  · exact ensures_ok hx
  · exact ensures_ok Built.str
  · exact ensures_trivial.bind fun _ _ => built_ofNumber
  · split
    · exact ensures_trivial.bind fun _ _ => built_ofNumber
    · exact ensures_error
  · exact ensures_error

theorem built_converted {spec : TypeSpec} (hx : x.Has P) : Ensures (Operand.expr <$> convert x spec) (Operand.Has P) :=
  (built_convert hx).bind fun _ he => ensures_ok he

theorem built_coerce (h : P e) : Ensures (coerce e t) P := by
  unfold Expr.coerce
  split
  · exact ensures_ok h
  split
  · refine Ensures.bind (P := P) built_ofNumber fun s hs => ensures_ok ?_
    split
    · exact hs
    · exact Built.broadcast hs
  · split
    · refine ensures_ok (Built.broadcast ?_)
      split
      · exact h
      · exact Built.cast h
    · exact ensures_ok (Built.cast h)

theorem built_operands (hx : x.Has P) (hy : y.Has P) : Ensures (operands x y) fun p => P p.1 ∧ P p.2 := by
  -- Both sides are converted and brought to their common type.
  have hfinish {a b : Operand} (ha : a.Has P) (hb : b.Has P) : Ensures (do
      let e ← convert a
      let e' ← convert b
      let t ← DataType.combine e.dtype e'.dtype x.isConstLike y.isConstLike
      return (← Expr.coerce e t, ← Expr.coerce e' t)) fun p => P p.1 ∧ P p.2 :=
    (built_convert ha).bind fun e he => (built_convert hb).bind fun e' he' => ensures_trivial.bind fun t _ =>
      (built_coerce he).bind fun l hl => (built_coerce he').bind fun r hr => ensures_ok ⟨hl, hr⟩
  have hsecond {a : Operand} (ha : a.Has P) : Ensures (do
      let b : Operand ← if !y.isNode && a.isNode then Operand.expr <$> convert y (← plainType y a) else pure y
      let e ← convert a
      let e' ← convert b
      let t ← DataType.combine e.dtype e'.dtype x.isConstLike y.isConstLike
      return (← Expr.coerce e t, ← Expr.coerce e' t)) fun p => P p.1 ∧ P p.2 := by
    dsimp only
    split
    · exact ensures_trivial.bind fun _ _ => (built_converted hy).bind fun b hb => hfinish ha hb
    · exact hfinish ha hy
  unfold operands
  dsimp only
  split
  · exact ensures_trivial.bind fun _ _ => (built_converted hx).bind fun a ha => hsecond ha
  · exact hsecond hx

theorem built_fold (ha : P a) (hb : P b) : Ensures (fold op a b) P := by
  have hbin : P (.bin op a b) := Built.bin ha hb
  unfold Expr.fold
  split
  · split
    · exact ensures_ok hbin
    · exact ensures_trivial.bind fun _ _ => built_ofNumber
  · exact ensures_ok hbin

theorem built_arith (hx : x.Has P) (hy : y.Has P) : Ensures (arith op x y) P :=
  (built_operands hx hy).bind fun _ hp => built_fold hp.1 hp.2

theorem built_ceilDiv (hx : x.Has P) (hy : y.Has P) : Ensures (ceilDiv x y) P := by
  refine (built_operands hx hy).bind fun p hp => Ensures.bind (P := P)
    (built_arith (y := (1 : Int)) hp.2 trivial) fun a ha => ?_
  refine Ensures.bind (P := P) (built_arith (x := .expr p.1) (y := .expr a) hp.1 ha) fun b hb => ?_
  exact built_arith (x := .expr b) (y := .expr p.2) hb hp.2

theorem built_asBool (hx : x.Has P) : Ensures (asBool x) P := by
  refine (built_convert hx).bind fun e he => ?_
  split
  · exact ensures_ok he
  · exact Ensures.bind (P := P) built_ofNumber fun z hz => built_arith (x := .expr e) (y := .expr z) he hz

theorem built_logicalAnd (hx : x.Has P) (hy : y.Has P) : Ensures (logicalAnd x y) P := by
  refine (built_asBool hx).bind fun a ha => (built_asBool hy).bind fun b hb => ?_
  split
  · exact ensures_ok (by split <;> assumption)
  · exact ensures_ok (by split <;> assumption)
  · exact ensures_ok (Built.bin ha hb)

theorem built_logicalOr (hx : x.Has P) (hy : y.Has P) : Ensures (logicalOr x y) P := by
  refine (built_asBool hx).bind fun a ha => (built_asBool hy).bind fun b hb => ?_
  split
  · exact ensures_ok (by split <;> assumption)
  · exact ensures_ok (by split <;> assumption)
  · exact ensures_ok (Built.bin ha hb)

theorem built_logicalNot (hx : x.Has P) : Ensures (logicalNot x) P := by
  refine (built_asBool hx).bind fun a ha => ?_
  split
  · exact ensures_ok Built.const
  · exact ensures_ok (Built.not ha)

theorem built_binary (hx : x.Has P) (hy : y.Has P) : Ensures (binary op x y) P := by
  unfold binary
  split
  · exact built_logicalAnd hx hy
  · exact built_logicalOr hx hy
  · exact built_arith hx hy

theorem built_choose (hx : x.Has P) (hy : y.Has P) (hz : z.Has P) : Ensures (choose x y z) P := by
  refine (built_asBool hx).bind fun c hc => (built_operands hy hz).bind ?_
  rintro ⟨a, b⟩ ⟨ha, hb⟩
  dsimp only
  split
  · exact ensures_ok (by split <;> assumption)
  · exact ensures_ok (Built.select hc ha hb)

theorem built_castTo (h : P e) : Ensures (castTo t e) P := by
  unfold Expr.castTo
  split
  · exact ensures_ok h
  split
  · split
    · exact built_ofNumber
    · exact ensures_ok (Built.cast h)
  · exact ensures_ok (Built.cast h)

end Expr

end TensorNest

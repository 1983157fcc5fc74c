import TensorNest.Proofs.Builders

/-! # The types of what is built

Whatever the builders make from variables and numbers has operands of one type in every operation, truth values as
conditions and two branches of one type in every choice (`Construction.typed_expr`): both sides of an operation are
brought to their common type, which does not depend on their order. The connectives are the exception. They bring
their sides to truth values, but not to the same lanes, so that their sides have to have as many (`Construction.Even`). -/

namespace TensorNest

/-! ### Common types -/

namespace BinOp

/-- An operation on truth values. -/
def Connects (op : BinOp) : Prop :=
  op = .and ∨ op = .or

instance : DecidablePred Connects := fun _ => inferInstanceAs (Decidable (_ ∨ _))

/-- The type of the result of an operation on operands of a type. -/
def typeOn (op : BinOp) (t : DataType) : DataType :=
  if op.isLogical then DataType.bool.withLanes t.lanes else t

theorem lanes_typeOn (op : BinOp) (t : DataType) : (op.typeOn t).lanes = t.lanes := by
  rw [typeOn]
  split_ifs <;> rfl

end BinOp

theorem Expr.dtype_operation (op : BinOp) (a b : Expr) : (Expr.bin op a b).dtype = op.typeOn a.dtype := rfl

namespace DataType

variable {l r t u : DataType} {p q : Bool}

/-- Types of truth values differ in their lanes only. -/
theorem eq_of_isBool (ht : t.isBool) (hu : u.isBool) (h : t.lanes = u.lanes) : t = u := by
  simp only [isBool, Bool.and_eq_true, beq_iff_eq] at ht hu
  obtain ⟨code, bits, lanes⟩ := t
  obtain ⟨code', bits', lanes'⟩ := u
  simp_all

/-- The common type of two operands does not depend on their order. -/
theorem combine_comm (h : combine l r p q = .ok t) : combine r l q p = .ok t := by
  by_cases heq : l = r
  · subst heq
    rw [combine, if_pos rfl] at h ⊢
    exact h
  have hlanes : (r.lanes != l.lanes && r.lanes != 1 && l.lanes != 1) =
    (l.lanes != r.lanes && l.lanes != 1 && r.lanes != 1) := by
    rw [bne_comm, Bool.and_right_comm]
  rw [combine, if_neg heq] at h
  rw [combine, if_neg (Ne.symm heq), hlanes, Bool.or_comm r.isHandle l.isHandle, max_comm r.lanes l.lanes,
    max_comm r.bits l.bits]
  dsimp only at h ⊢
  split_ifs at h with hhandle hapart hl hr hlf hrf hcode <;> rw [if_neg hhandle, if_neg hapart]
  -- which side gives the type is told by the constants and the floating-point types, whatever the order
  all_goals
    cases p <;> cases q <;> cases hfl : l.isFloat <;> cases hfr : r.isFloat <;> simp_all

/-- A constant of one lane takes the type of the other operand, if that is a scalar or a vector. -/
theorem combine_element (hlanes : 1 ≤ t.lanes) (hq : q → t.lanes = 1) (h : combine t.element t true q = .ok u) : u = t := by
  by_cases hone : t.element = t
  · rw [combine, if_pos hone, hone] at h
    exact (Except.ok.inj h).symm
  have hq : q = false := by
    by_contra hconst
    refine hone ?_
    rw [element, ← hq (by simpa using hconst)]
    rfl
  have hmax : max t.element.lanes t.lanes = t.lanes := max_eq_right hlanes
  have hfloat : (t.isFloat || !t.element.isFloat) = true := Bool.or_not_self t.isFloat
  rw [combine, if_neg hone, hq, hmax, hfloat] at h
  dsimp only at h
  split_ifs at h
  · exact (Except.ok.inj h).symm
  all_goals simp_all

end DataType

namespace Expr

/-- The expression of an operand beside another one. -/
def beside (x y : Operand) : Except Error Expr := do
  if !x.isNode && y.isNode then convert x (← plainType x y) else convert x

/-- The type that the operands of an operation are brought to. -/
def commonType (x y : Operand) : Except Error DataType := do
  DataType.combine (← beside x y).dtype (← beside y x).dtype x.isConstLike y.isConstLike

variable {x y z : Operand} {t u : DataType} {a b e l r : Expr} {op : BinOp}

theorem commonType_comm (h : commonType x y = .ok t) : commonType y x = .ok t := by
  obtain ⟨a, ha, h⟩ := bind_eq_ok.mp h
  obtain ⟨b, hb, h⟩ := bind_eq_ok.mp h
  rw [commonType, ha, hb]
  exact DataType.combine_comm h

/-- The operands of an operation are the expressions of its sides, brought to the common type. -/
theorem operands_eq_ok (h : operands x y = .ok (l, r)) :
    ∃ a b t, beside x y = .ok a ∧ beside y x = .ok b ∧ commonType x y = .ok t ∧ coerce a t = .ok l ∧
      coerce b t = .ok r := by
  -- the operands that are converted may have become expressions already
  have hfinish {x' y' : Operand} (hx : ∀ a, convert x' = .ok a → beside x y = .ok a)
      (hy : ∀ b, convert y' = .ok b → beside y x = .ok b) (h : (do
        let a ← convert x'
        let b ← convert y'
        let t ← DataType.combine a.dtype b.dtype x.isConstLike y.isConstLike
        return (← coerce a t, ← coerce b t)) = Except.ok (l, r)) :
      ∃ a b t, beside x y = .ok a ∧ beside y x = .ok b ∧ commonType x y = .ok t ∧ coerce a t = .ok l ∧
        coerce b t = .ok r := by
    obtain ⟨a, ha, h⟩ := bind_eq_ok.mp h
    obtain ⟨b, hb, h⟩ := bind_eq_ok.mp h
    obtain ⟨t, ht, h⟩ := bind_eq_ok.mp h
    obtain ⟨l', hl, h⟩ := bind_eq_ok.mp h
    obtain ⟨r', hr, h⟩ := bind_eq_ok.mp h
    cases h
    exact ⟨a, b, t, hx a ha, hy b hb, by rw [commonType, hx a ha, hy b hb]; exact ht, hl, hr⟩
  have hconverted {x y x' : Operand} {s : TypeSpec} (hx : x.isNode = false) (hy : y.isNode = true)
      (hs : plainType x y = .ok s)
      (hx' : Operand.expr <$> convert x s = .ok x') (a : Expr) (ha : convert x' = .ok a) : beside x y = .ok a := by
    obtain ⟨e, he, hx'⟩ := bind_eq_ok.mp hx'
    cases hx'
    rw [beside, hx, hy]
    show (plainType x y >>= fun s => convert x s) = _
    rw [hs]
    exact he.trans ha
  have hplain {x y : Operand} (h : (!x.isNode && y.isNode) = false) (a : Expr) (ha : convert x = .ok a) :
      beside x y = .ok a := by
    rw [beside, h]
    exact ha
  unfold operands at h
  cases hx : x.isNode <;> cases hy : y.isNode <;>
    simp only [hx, hy, Bool.not_true, Bool.not_false, Bool.true_and, Bool.false_and, if_true, if_false,
      Bool.false_eq_true, pure_bind] at h
  · exact hfinish (hplain (by rw [hx, hy]; rfl)) (hplain (by rw [hx, hy]; rfl)) h
  · obtain ⟨s, hs, h⟩ := bind_eq_ok.mp h
    obtain ⟨x', hx', h⟩ := bind_eq_ok.mp h
    exact hfinish (hconverted hx hy hs hx') (hplain (by rw [hx, hy]; rfl)) h
  · obtain ⟨s, hs, h⟩ := bind_eq_ok.mp h
    obtain ⟨y', hy', h⟩ := bind_eq_ok.mp h
    exact hfinish (hplain (by rw [hx, hy]; rfl)) (hconverted hy hx hs hy') h
  · exact hfinish (hplain (by rw [hx, hy]; rfl)) (hplain (by rw [hx, hy]; rfl)) h

/-! ### Expressions of matching types -/

/-- The parts of an expression have types that go together: the two sides of an operation have one type, a choice is
    made by a truth value between two values of one type, connectives are made of truth values, and constants are
    scalars. -/
def Matched : Expr → Prop
  | const _ t => t.lanes = 1
  | bin op a b => a.dtype = b.dtype ∧ (op.Connects → a.dtype.isBool)
  | not a => a.dtype.isBool
  | select c a b => c.dtype.isBool ∧ a.dtype = b.dtype
  | _ => True

/-- Everywhere in an expression the types of the parts go together. -/
def Consistent (e : Expr) : Prop :=
  ∀ p ∈ e.postorder, p.Matched

theorem consistent_iff : e.Consistent ↔ (∀ a ∈ e.parts, a.Consistent) ∧ e.Matched := forall_mem_postorder

theorem Consistent.matched (h : e.Consistent) : e.Matched := (consistent_iff.mp h).2

theorem consistent_const {v : Number} (h : t.lanes = 1) : (const v t).Consistent :=
  consistent_iff.mpr ⟨List.forall_mem_nil _, h⟩

theorem Consistent.cast (h : e.Consistent) (t : DataType) : (cast t e).Consistent :=
  consistent_iff.mpr ⟨List.forall_mem_singleton.mpr h, trivial⟩

theorem Consistent.broadcast (h : e.Consistent) (n : Int) : (broadcast e n).Consistent :=
  consistent_iff.mpr ⟨List.forall_mem_singleton.mpr h, trivial⟩

theorem Consistent.not (h : e.Consistent) (hbool : e.dtype.isBool) : (not e).Consistent :=
  consistent_iff.mpr ⟨List.forall_mem_singleton.mpr h, hbool⟩

theorem Consistent.bin (ha : a.Consistent) (hb : b.Consistent) (h : a.dtype = b.dtype)
    (hop : op.Connects → a.dtype.isBool) :
    (bin op a b).Consistent :=
  consistent_iff.mpr ⟨List.forall_mem_cons.mpr ⟨ha, List.forall_mem_singleton.mpr hb⟩, h, hop⟩

theorem Consistent.select (he : e.Consistent) (ha : a.Consistent) (hb : b.Consistent) (hbool : e.dtype.isBool)
    (h : a.dtype = b.dtype) :
    (select e a b).Consistent :=
  consistent_iff.mpr ⟨List.forall_mem_cons.mpr ⟨he, List.forall_mem_cons.mpr ⟨ha, List.forall_mem_singleton.mpr hb⟩⟩,
    hbool, h⟩

theorem Consistent.call (h : e.Consistent) (t : DataType) (name : String) : (pureIntrinsic t name [e]).Consistent :=
  consistent_iff.mpr ⟨List.forall_mem_singleton.mpr h, trivial⟩

/-- A constant is a scalar. -/
theorem Consistent.lanes (h : e.Consistent) (hconst : e.isConst) : e.dtype.lanes = 1 := by
  cases e with
  | const => exact h.matched
  | _ => cases hconst

/-! ### Builders -/

theorem ensures_ofNumber {v : Number} : Ensures (ofNumber v t) fun e => e.Consistent ∧ e.dtype = t.element ∧ e.isConst :=
    fun e he => by
  obtain ⟨w, -, he⟩ := bind_eq_ok.mp he
  cases he
  exact ⟨consistent_const rfl, rfl, rfl⟩

theorem ensures_convert {spec : TypeSpec} (hx : x.Has Consistent) : Ensures (convert x spec) Consistent := by
  have hnumber {v : Number} {y : Except Error DataType} : Ensures (do ofNumber v (← y)) Consistent :=
    ensures_trivial.bind fun _ _ e he => (ensures_ofNumber e he).1
  unfold convert
  split
  · exact hnumber
  · exact ensures_ok hx
  · exact ensures_ok hx
  · exact ensures_ok (consistent_iff.mpr ⟨List.forall_mem_nil _, trivial⟩)
  · exact hnumber
  · split
    · exact hnumber
    · exact ensures_error
  · exact ensures_error

theorem ensures_beside (hx : x.Has Consistent) : Ensures (beside x y) Consistent := by
  unfold beside
  split
  · exact ensures_trivial.bind fun _ _ => ensures_convert hx
  · exact ensures_convert hx

/-- What is brought to a type has the type. -/
theorem ensures_coerce (h : e.Consistent) : Ensures (coerce e t) fun e' => e'.Consistent ∧ e'.dtype = t := by
  have hlanes {u : DataType} (hu : u = t.element) : u.withLanes t.lanes = t := by rw [hu]; rfl
  unfold coerce
  split
  · exact ensures_ok ⟨h, ‹_›⟩
  split
  · refine ensures_ofNumber.bind fun s hs => ensures_ok ?_
    split_ifs with hone
    · refine ⟨hs.1, ?_⟩
      rw [hs.2.1, DataType.element, ← hone]
      rfl
    · exact ⟨hs.1.broadcast _, hlanes hs.2.1⟩
  · split_ifs with hscalar helement
    · exact ensures_ok ⟨h.broadcast _, hlanes helement⟩
    · exact ensures_ok ⟨(h.cast _).broadcast _, hlanes rfl⟩
    · exact ensures_ok ⟨h.cast _, rfl⟩

/-- The sides of an operation have their common type. -/
theorem ensures_operands (hx : x.Has Consistent) (hy : y.Has Consistent) : Ensures (operands x y) fun p =>
    p.1.Consistent ∧ p.2.Consistent ∧ p.1.dtype = p.2.dtype ∧ commonType x y = .ok p.1.dtype := by
  rintro ⟨l, r⟩ h
  obtain ⟨a, b, t, ha, hb, ht, hl, hr⟩ := operands_eq_ok h
  obtain ⟨hl, hlt⟩ := ensures_coerce (ensures_beside hx a ha) l hl
  obtain ⟨hr, hrt⟩ := ensures_coerce (ensures_beside hy b hb) r hr
  exact ⟨hl, hr, hlt.trans hrt.symm, by rw [hlt]; exact ht⟩

theorem ensures_fold (hop : ¬op.Connects) (ha : a.Consistent) (hb : b.Consistent) (h : a.dtype = b.dtype) :
    Ensures (fold op a b) fun e => e.Consistent ∧ e.dtype = op.typeOn a.dtype := by
  have hbin : (bin op a b).Consistent ∧ (bin op a b).dtype = op.typeOn a.dtype := ⟨ha.bin hb h fun hc => absurd hc hop, rfl⟩
  unfold fold
  split
  · split
    · exact ensures_ok hbin
    · refine ensures_trivial.bind fun v _ e he => ?_
      obtain ⟨he, hdtype, -⟩ := ensures_ofNumber e he
      -- a constant is folded at the type of one lane, which is its own
      have hone := (op.lanes_typeOn _).trans (ha.lanes rfl)
      refine ⟨he, hdtype.trans ?_⟩
      rw [dtype_operation, DataType.element, ← hone]
      rfl
  · exact ensures_ok hbin

/-- The result of arithmetic and comparisons has the type that the operation has on the common type. -/
theorem ensures_arith (hop : ¬op.Connects) (hx : x.Has Consistent) (hy : y.Has Consistent) : Ensures (arith op x y) fun e =>
    e.Consistent ∧ ∃ t, commonType x y = .ok t ∧ e.dtype = op.typeOn t := by
  refine (ensures_operands hx hy).bind fun p hp e he => ?_
  obtain ⟨hl, hr, hdtype, hcommon⟩ := hp
  obtain ⟨he, htype⟩ := ensures_fold hop hl hr hdtype e he
  exact ⟨he, _, hcommon, htype⟩

/-- What is taken as a condition is a truth value. -/
theorem ensures_asBool (hx : x.Has Consistent) : Ensures (asBool x) fun e => e.Consistent ∧ e.dtype.isBool := by
  refine (ensures_convert hx).bind fun e he => ?_
  split_ifs with hbool
  · exact ensures_ok ⟨he, hbool⟩
  · refine ensures_ofNumber.bind fun zero hzero c hc => ?_
    obtain ⟨hc, t, -, hdtype⟩ := ensures_arith (x := .expr e) (y := .expr zero) (by decide) he hzero.1 c hc
    exact ⟨hc, by rw [hdtype]; rfl⟩

theorem isConst_eq (e : Expr) : e.isConst = e.constValue?.isSome := by
  cases e <;> rfl

/-- A connective of two conditions: a constant side decides or disappears. -/
def connective (op : BinOp) (p q : Expr) : Expr :=
  match p.constValue?, q.constValue? with
  | some v, _ => if v.truthy = decide (op = .and) then q else p
  | none, some w => if w.truthy = decide (op = .and) then p else q
  | none, none => .bin op p q

theorem binary_eq_arith (hop : ¬op.Connects) : binary op x y = arith op x y := by
  cases op <;> first | rfl | exact absurd (by decide) hop

theorem binary_connects (hop : op.Connects) :
    binary op x y = do
      let p ← asBool x
      let q ← asBool y
      return connective op p q := by
  have hor {v : Number} {p q : Expr} : (if v.truthy then p else q) = if v.truthy =
    decide (BinOp.or = .and) then q else p := by
    cases v.truthy <;> rfl
  rcases hop with rfl | rfl
  · show (asBool x >>= fun p => asBool y >>= fun q => _) = _
    refine bind_congr fun p => bind_congr fun q => ?_
    cases p <;> first | rfl | cases q <;> rfl
  · show (asBool x >>= fun p => asBool y >>= fun q => _) = _
    refine bind_congr fun p => bind_congr fun q => ?_
    cases p <;> first | exact congrArg Except.ok hor | cases q <;> first | rfl | exact congrArg Except.ok hor

section Connectives
variable {p q : Expr}

/-- A connective gives one of its sides, or an operation on both, which are no constants then. -/
theorem connective_cases (op : BinOp) (p q : Expr) : connective op p q = p ∨ connective op p q = q ∨
    connective op p q = .bin op p q ∧ p.isConst = false ∧ q.isConst = false := by
  rw [connective, isConst_eq, isConst_eq]
  cases p.constValue? with
  | some v =>
    dsimp only
    split_ifs
    · exact .inr (.inl rfl)
    · exact .inl rfl
  | none =>
    cases q.constValue? with
    | some w =>
      dsimp only
      split_ifs
      · exact .inl rfl
      · exact .inr (.inl rfl)
    | none => exact .inr (.inr ⟨rfl, rfl, rfl⟩)

/-- A connective of conditions of one type is one of this type. -/
theorem dtype_connective (hop : op.Connects) (h : p.dtype = q.dtype) (hq : q.dtype.isBool) :
    (connective op p q).dtype = q.dtype := by
  rcases connective_cases op p q with heq | heq | ⟨heq, -, -⟩
  · rw [heq, h]
  · rw [heq]
  · have hlogical : op.isLogical = true := by rcases hop with rfl | rfl <;> rfl
    rw [heq, dtype_operation, BinOp.typeOn, hlogical, if_pos rfl, h]
    exact DataType.eq_of_isBool rfl hq rfl

/-- The sides of a connective have as many lanes, unless one of them is a constant. -/
def EqualLanes (p q : Expr) : Prop :=
  p.isConst ∨ q.isConst ∨ p.dtype.lanes = q.dtype.lanes

/-- The type of a connective does not depend on the order of its sides. -/
theorem dtype_connective_comm (hop : op.Connects) (hp : p.Consistent) (hq : q.Consistent) (hpb : p.dtype.isBool)
    (hqb : q.dtype.isBool)
    (h : p.EqualLanes q) : (connective op p q).dtype = (connective op q p).dtype := by
  have hsame (hlanes : p.dtype.lanes = q.dtype.lanes) : (connective op p q).dtype = (connective op q p).dtype := by
    have hdtype : p.dtype = q.dtype := DataType.eq_of_isBool hpb hqb hlanes
    rw [dtype_connective hop hdtype hqb, dtype_connective hop hdtype.symm hpb, hdtype]
  cases hpv : p.constValue? with
  | some v =>
    cases hqw : q.constValue? with
    | some w =>
      have hconst {e : Expr} {u : Number} (he : e.Consistent) (hu : e.constValue? = some u) : e.dtype.lanes = 1 :=
        he.lanes (by rw [isConst_eq, hu]; rfl)
      exact hsame ((hconst hp hpv).trans (hconst hq hqw).symm)
    | none => rw [connective, connective, hpv, hqw]
  | none =>
    cases hqw : q.constValue? with
    | some w => rw [connective, connective, hpv, hqw]
    | none =>
      rw [EqualLanes, isConst_eq, isConst_eq, hpv, hqw] at h
      exact hsame (by simpa using h)

theorem consistent_connective (hp : p.Consistent) (hq : q.Consistent) (hpb : p.dtype.isBool) (hqb : q.dtype.isBool)
    (h : p.EqualLanes q) : (connective op p q).Consistent := by
  rcases connective_cases op p q with heq | heq | ⟨heq, hpc, hqc⟩
  · rwa [heq]
  · rwa [heq]
  · rw [EqualLanes, hpc, hqc] at h
    rw [heq]
    exact hp.bin hq (DataType.eq_of_isBool hpb hqb (by simpa using h)) fun _ => hpb

end Connectives

theorem ensures_binary (hx : x.Has Consistent) (hy : y.Has Consistent)
    (heven : op.Connects → ∀ p q, asBool x = .ok p → asBool y = .ok q → p.EqualLanes q) :
    Ensures (binary op x y) Consistent := by
  by_cases hop : op.Connects
  · rw [binary_connects hop]
    intro e he
    obtain ⟨p, hp, he⟩ := bind_eq_ok.mp he
    obtain ⟨q, hq, he⟩ := bind_eq_ok.mp he
    cases he
    obtain ⟨hpc, hpb⟩ := ensures_asBool hx p hp
    obtain ⟨hqc, hqb⟩ := ensures_asBool hy q hq
    exact consistent_connective hpc hqc hpb hqb (heven hop p q hp hq)
  · rw [binary_eq_arith hop]
    exact fun e he => (ensures_arith hop hx hy e he).1

theorem ensures_logicalNot (hx : x.Has Consistent) : Ensures (logicalNot x) Consistent := by
  refine (ensures_asBool hx).bind fun p hp => ?_
  split
  · exact ensures_ok (consistent_const rfl)
  · exact ensures_ok (hp.1.not hp.2)

theorem ensures_choose (hx : x.Has Consistent) (hy : y.Has Consistent) (hz : z.Has Consistent) :
    Ensures (choose x y z) fun e =>
    e.Consistent ∧ commonType y z = .ok e.dtype := by
  refine (ensures_asBool hx).bind fun c hc => (ensures_operands hy hz).bind fun p hp => ?_
  obtain ⟨ha, hb, hdtype, hcommon⟩ := hp
  dsimp only
  split
  · refine ensures_ok ?_
    split_ifs
    · exact ⟨ha, hcommon⟩
    · exact ⟨hb, hdtype ▸ hcommon⟩
  · exact ensures_ok ⟨hc.1.select ha hb hc.2 hdtype, hcommon⟩

theorem ensures_castTo (h : e.Consistent) : Ensures (castTo t e) Consistent := by
  unfold castTo
  split
  · exact ensures_ok h
  split
  · split
    · exact fun e he => (ensures_ofNumber e he).1
    · exact ensures_ok (h.cast _)
  · exact ensures_ok (h.cast _)

theorem ensures_likely (hx : x.Has Consistent) : Ensures (likely x) Consistent := by
  refine (ensures_asBool hx).bind fun p hp => ?_
  split
  · exact ensures_ok hp.1
  · exact ensures_ok (hp.1.call _ _)

theorem ensures_ceilDiv (hx : x.Has Consistent) (hy : y.Has Consistent) : Ensures (ceilDiv x y) Consistent := by
  have harith {op : BinOp} {x y : Operand} (hop : ¬op.Connects) (hx : x.Has Consistent) (hy : y.Has Consistent) :
      Ensures (arith op x y) Consistent := fun e he => (ensures_arith hop hx hy e he).1
  refine (ensures_operands hx hy).bind fun p hp => ?_
  refine (harith (x := .expr p.2) (y := (1 : Int)) (by decide) hp.2.1 trivial).bind fun a ha => ?_
  refine (harith (x := .expr p.1) (y := .expr a) (by decide) hp.1 ha).bind fun b hb => ?_
  exact harith (x := .expr b) (y := .expr p.2) (by decide) hb hp.2.1

/-- The negation of a scalar or vector has its type. -/
theorem ensures_negation (hx : x.Has Consistent) : Ensures (neg x) fun e =>
    e.Consistent ∧ ∀ a, convert x = .ok a → 1 ≤ a.dtype.lanes → e.dtype = a.dtype := by
  intro e he
  obtain ⟨a, ha, he⟩ := bind_eq_ok.mp he
  obtain ⟨zero, hzero, he⟩ := bind_eq_ok.mp he
  obtain ⟨hzc, hzt, hconst⟩ := ensures_ofNumber zero hzero
  have hac := ensures_convert hx a ha
  obtain ⟨hec, t, ht, htype⟩ := ensures_arith (x := .expr zero) (y := .expr a) (by decide) hzc hac e he
  refine ⟨hec, fun a' ha' hlanes => ?_⟩
  obtain rfl : a = a' := Except.ok.inj (ha.symm.trans ha')
  have hlike (e : Expr) : (Operand.expr e).isConstLike = e.isConst := by cases e <;> rfl
  have hcombine : DataType.combine a.dtype.element a.dtype true a.isConst = .ok t := by
    have ht : DataType.combine zero.dtype a.dtype (Operand.expr zero).isConstLike (Operand.expr a).isConstLike = .ok t := ht
    rwa [hlike, hlike, hzt, hconst] at ht
  exact htype.trans (DataType.combine_element hlanes hac.lanes hcombine)

theorem ensures_abs (hx : x.Has Consistent) (hlanes : ∀ a, convert x = .ok a → 1 ≤ a.dtype.lanes) :
    Ensures (abs x) Consistent := by
  intro e he
  obtain ⟨a, ha, he⟩ := bind_eq_ok.mp he
  have hac := ensures_convert hx a ha
  have hselect : Ensures (do return .select (← ge a (0 : Int)) a (← neg a)) Consistent := by
    refine (ensures_arith (x := .expr a) (y := (0 : Int))
      (show ¬BinOp.ge.Connects by decide) hac trivial).bind fun c hc => ?_
    refine (ensures_negation (x := .expr a) hac).bind fun n hn => ensures_ok ?_
    obtain ⟨hcc, t, -, hct⟩ := hc
    exact hcc.select hac hn.1 (by rw [hct]; rfl) (hn.2 a rfl (hlanes a ha)).symm
  split_ifs at he
  · cases he
    exact hac
  · split at he
    · exact (ensures_ofNumber e he).1
    · exact hselect e he
  · cases he
    exact hac.call _ _

end Expr

/-! ### Constructions -/

/-- How an expression is built from variables and numbers. -/
inductive Construction where
  | var (v : Var)
  | number (x : Number)
  | binary (op : BinOp) (a b : Construction)
  | not (a : Construction)
  | select (c a b : Construction)
  | neg (a : Construction)
  | abs (a : Construction)
  | cast (spec : TypeSpec) (a : Construction)
  | likely (a : Construction)
  | ceilDiv (a b : Construction)

namespace Construction

/-- What is built: numbers stay as they are until they become operands. -/
def operand : Construction → Except Error Operand
  | var v => .ok (.expr (.var v))
  | number x => .ok (.number x)
  | binary op a b => do return .expr (← Expr.binary op (← a.operand) (← b.operand))
  | not a => do return .expr (← Expr.logicalNot (← a.operand))
  | select c a b => do return .expr (← Expr.choose (← c.operand) (← a.operand) (← b.operand))
  | neg a => do return .expr (← Expr.neg (← a.operand))
  | abs a => do return .expr (← Expr.abs (← a.operand))
  | cast spec a => do return .expr (← Expr.castOperand spec (← a.operand))
  | likely a => do return .expr (← Expr.likely (← a.operand))
  | ceilDiv a b => do return .expr (← Expr.ceilDiv (← a.operand) (← b.operand))

/-- What is built, as an expression. -/
def expr (c : Construction) : Except Error Expr := do
  Expr.convert (← c.operand)

/-- The connectives are given conditions of as many lanes, unless one is a constant, and absolute values are taken of
    scalars and vectors, which have some lanes. -/
def Even : Construction → Prop
  | var _ | number _ => True
  | binary op a b => a.Even ∧ b.Even ∧ (op.Connects → ∀ x y, a.operand = .ok x → b.operand = .ok y →
      ∀ p q, Expr.asBool x = .ok p → Expr.asBool y = .ok q → p.EqualLanes q)
  | not a | neg a | cast _ a | likely a => a.Even
  | abs a => a.Even ∧ ∀ e, a.expr = .ok e → 1 ≤ e.dtype.lanes
  | select c a b => c.Even ∧ a.Even ∧ b.Even
  | ceilDiv a b => a.Even ∧ b.Even

variable {a b c : Construction} {op : BinOp} {x y : Operand} {e e' : Expr}

theorem operand_has (hc : c.Even) : Ensures c.operand (Operand.Has Expr.Consistent) := by
  have hbuilt {y : Except Error Expr} (h : Ensures y Expr.Consistent) :
      Ensures (do return .expr (← y)) (Operand.Has Expr.Consistent) :=
    h.bind fun _ he => ensures_ok he
  induction c with
  | var v => exact ensures_ok (Expr.consistent_iff.mpr ⟨List.forall_mem_nil _, trivial⟩)
  | number x => exact ensures_ok trivial
  | binary op a b iha ihb =>
    obtain ⟨ha, hb, heven⟩ := hc
    intro z hz
    obtain ⟨x, hx, hz⟩ := bind_eq_ok.mp hz
    obtain ⟨y, hy, hz⟩ := bind_eq_ok.mp hz
    exact hbuilt (Expr.ensures_binary (iha ha x hx) (ihb hb y hy) fun hop => heven hop x y hx hy) z hz
  | not a ih => exact (ih hc).bind fun x hx => hbuilt (Expr.ensures_logicalNot hx)
  | select c a b ihc iha ihb =>
    obtain ⟨hc, ha, hb⟩ := hc
    exact (ihc hc).bind fun x hx => (iha ha).bind fun y hy => (ihb hb).bind fun z hz =>
      hbuilt fun e he => (Expr.ensures_choose hx hy hz e he).1
  | neg a ih => exact (ih hc).bind fun x hx => hbuilt fun e he => (Expr.ensures_negation hx e he).1
  | abs a ih =>
    obtain ⟨ha, hlanes⟩ := hc
    intro z hz
    obtain ⟨x, hx, hz⟩ := bind_eq_ok.mp hz
    refine hbuilt (Expr.ensures_abs (ih ha x hx) fun e he => hlanes e ?_) z hz
    rw [expr, hx]
    exact he
  | cast spec a ih =>
    refine (ih hc).bind fun x hx => hbuilt (ensures_trivial.bind fun t _ => ?_)
    exact (Expr.ensures_convert hx).bind fun e he => Expr.ensures_castTo he
  | likely a ih => exact (ih hc).bind fun x hx => hbuilt (Expr.ensures_likely hx)
  | ceilDiv a b iha ihb => exact (iha hc.1).bind fun x hx => (ihb hc.2).bind fun y hy => hbuilt (Expr.ensures_ceilDiv hx hy)

theorem binary_expr (h : (binary op a b).expr = .ok e) :
    ∃ x y, a.operand = .ok x ∧ b.operand = .ok y ∧ Expr.binary op x y = .ok e := by
  obtain ⟨z, hz, h⟩ := bind_eq_ok.mp h
  obtain ⟨x, hx, hz⟩ := bind_eq_ok.mp hz
  obtain ⟨y, hy, hz⟩ := bind_eq_ok.mp hz
  obtain ⟨e', he', hz⟩ := bind_eq_ok.mp hz
  cases hz
  exact ⟨x, y, hx, hy, he'.trans h⟩

theorem select_expr (h : (select c a b).expr = .ok e) :
    ∃ z x y, c.operand = .ok z ∧ a.operand = .ok x ∧ b.operand = .ok y ∧ Expr.choose z x y = .ok e := by
  obtain ⟨w, hw, h⟩ := bind_eq_ok.mp h
  obtain ⟨z, hz, hw⟩ := bind_eq_ok.mp hw
  obtain ⟨x, hx, hw⟩ := bind_eq_ok.mp hw
  obtain ⟨y, hy, hw⟩ := bind_eq_ok.mp hw
  obtain ⟨e', he', hw⟩ := bind_eq_ok.mp hw
  cases hw
  exact ⟨z, x, y, hz, hx, hy, he'.trans h⟩

/-- Both orders of the operands of an operation give one type. -/
theorem dtype_binary_comm (hab : (binary op a b).Even) (h : (binary op a b).expr = .ok e)
    (h' : (binary op b a).expr = .ok e') :
    e'.dtype = e.dtype := by
  obtain ⟨x, y, hx, hy, he⟩ := binary_expr h
  obtain ⟨y', x', hy', hx', he'⟩ := binary_expr h'
  obtain rfl : x = x' := Except.ok.inj (hx.symm.trans hx')
  obtain rfl : y = y' := Except.ok.inj (hy.symm.trans hy')
  obtain ⟨ha, hb, heven⟩ := hab
  have hxc := operand_has ha x hx
  have hyc := operand_has hb y hy
  by_cases hop : op.Connects
  · rw [Expr.binary_connects hop] at he he'
    obtain ⟨p, hp, he⟩ := bind_eq_ok.mp he
    obtain ⟨q, hq, he⟩ := bind_eq_ok.mp he
    rw [hp, hq] at he'
    cases he
    cases he'
    obtain ⟨hpc, hpb⟩ := Expr.ensures_asBool hxc p hp
    obtain ⟨hqc, hqb⟩ := Expr.ensures_asBool hyc q hq
    exact (Expr.dtype_connective_comm hop hpc hqc hpb hqb (heven hop x y hx hy p q hp hq)).symm
  · rw [Expr.binary_eq_arith hop] at he he'
    obtain ⟨-, t, ht, hdtype⟩ := Expr.ensures_arith hop hxc hyc e he
    obtain ⟨-, u, hu, hdtype'⟩ := Expr.ensures_arith hop hyc hxc e' he'
    obtain rfl : t = u := Except.ok.inj ((Expr.commonType_comm ht).symm.trans hu)
    rw [hdtype, hdtype']

/-- What is built has operands of matching types everywhere. The type of an operation is the one that it has on the
    common type of its operands, which does not depend on their order, that of a connective on conditions of one type
    is this type, and that of a choice is the common type of its branches. An operation has the same type with its
    operands the other way round. -/
theorem typed_expr (hc : c.Even) (h : c.expr = .ok e) :
    e.Consistent ∧
    (∀ op a b x y, c = binary op a b → a.operand = .ok x → b.operand = .ok y →
      (¬op.Connects → ∃ t, Expr.commonType x y = .ok t ∧ Expr.commonType y x = .ok t ∧ e.dtype = op.typeOn t) ∧
      (op.Connects → ∃ p q, Expr.asBool x = .ok p ∧ Expr.asBool y = .ok q ∧ (p.dtype = q.dtype → e.dtype = p.dtype))) ∧
    (∀ d a b x y, c = select d a b → a.operand = .ok x → b.operand = .ok y → Expr.commonType x y = .ok e.dtype) ∧
    (∀ op a b e', c = binary op a b → (binary op b a).expr = .ok e' → e'.dtype = e.dtype) := by
  refine ⟨?_, ?_, ?_, ?_⟩
  · obtain ⟨x, hx, h⟩ := bind_eq_ok.mp h
    exact Expr.ensures_convert (operand_has hc x hx) e h
  · rintro op a b x y rfl hx hy
    obtain ⟨x', y', hx', hy', he⟩ := binary_expr h
    obtain rfl : x = x' := Except.ok.inj (hx.symm.trans hx')
    obtain rfl : y = y' := Except.ok.inj (hy.symm.trans hy')
    have hxc := operand_has hc.1 x hx
    have hyc := operand_has hc.2.1 y hy
    refine ⟨fun hop => ?_, fun hop => ?_⟩
    · rw [Expr.binary_eq_arith hop] at he
      obtain ⟨-, t, ht, hdtype⟩ := Expr.ensures_arith hop hxc hyc e he
      exact ⟨t, ht, Expr.commonType_comm ht, hdtype⟩
    · rw [Expr.binary_connects hop] at he
      obtain ⟨p, hp, he⟩ := bind_eq_ok.mp he
      obtain ⟨q, hq, he⟩ := bind_eq_ok.mp he
      cases he
      refine ⟨p, q, hp, hq, fun hpq => ?_⟩
      rw [Expr.dtype_connective hop hpq (Expr.ensures_asBool hyc q hq).2, hpq]
  · rintro d a b x y rfl hx hy
    obtain ⟨z, x', y', hz, hx', hy', he⟩ := select_expr h
    obtain rfl : x = x' := Except.ok.inj (hx.symm.trans hx')
    obtain rfl : y = y' := Except.ok.inj (hy.symm.trans hy')
    exact (Expr.ensures_choose (operand_has hc.1 z hz) (operand_has hc.2.1 x hx) (operand_has hc.2.2 y hy) e he).2
  · rintro op a b e' rfl h'
    exact dtype_binary_comm hc h h'

namespace Clamp

/-- Four integers, kept where they are from 0 to 7, and replaced by a number elsewhere. -/
def lanes : Construction := .var ⟨0, "v", ⟨.int, 32, 4⟩⟩
def inside : Construction := .binary .and (.binary .ge lanes (.number (.int 0))) (.binary .lt lanes (.number (.int 8)))
def clamp : Construction := .select inside lanes (.number (.int 7))

theorem even_clamp : clamp.Even := by
  refine ⟨⟨⟨trivial, trivial, nofun⟩, ⟨trivial, trivial, nofun⟩, fun _ x y hx hy p q hp hq => ?_⟩, trivial, trivial⟩
  obtain rfl := Except.ok.inj hx
  obtain rfl := Except.ok.inj hy
  obtain rfl := Except.ok.inj hp
  obtain rfl := Except.ok.inj hq
  exact .inr (.inr rfl)

theorem typed_clamp : clamp.Even ∧ ∃ e, clamp.expr = .ok e ∧ e.Consistent ∧ e.dtype = ⟨.int, 32, 4⟩ :=
  ⟨even_clamp, _, rfl, (typed_expr even_clamp rfl).1, rfl⟩

/-- A scalar condition in front of those of four lanes is not repeated: the conjunction has one lane. -/
example : (do return (← (binary .and (.var ⟨1, "p", .bool⟩) inside).expr).dtype) = Except.ok (ε := Error) DataType.bool :=
  rfl

end Clamp

end Construction

end TensorNest

import TensorNest.Expr.Simplify
import TensorNest.Proofs.Edit

/-! # Index arithmetic

Sums, products, quotients and extrema of variables and integer constants of one integer type
(`Expr.Index`). Whatever the builders and the simplifier do with such expressions succeeds and gives
such an expression again. -/

namespace TensorNest

/-- A computation succeeds, with a result that has a property. -/
def Gives {α : Type} (x : Except Error α) (P : α → Prop) : Prop :=
  ∃ a, x = .ok a ∧ P a

section Gives
variable {α β : Type} {x : Except Error α} {P Q : α → Prop}

theorem gives_ok {a : α} (h : P a) : Gives (.ok a) P :=
  ⟨a, rfl, h⟩

theorem Gives.bind {f : α → Except Error β} {R : β → Prop} (hx : Gives x P) (hf : ∀ a, P a → Gives (f a) R) :
    Gives (x >>= f) R := by
  obtain ⟨a, rfl, ha⟩ := hx
  exact hf a ha

/-- The first two of three steps are taken as one. -/
theorem Gives.bind_bind {γ : Type} {f : α → Except Error β} {g : β → Except Error γ} {S : β → Prop} {R : γ → Prop}
    (hx : Gives (x >>= f) S) (hg : ∀ b, S b → Gives (g b) R) : Gives (x >>= fun a => f a >>= g) R := by
  have hassoc : (x >>= fun a => f a >>= g) = (x >>= f) >>= g := by cases x <;> rfl
  rw [hassoc]
  exact hx.bind hg

theorem Gives.mono (hx : Gives x P) (h : ∀ a, P a → Q a) : Gives x Q := by
  obtain ⟨a, hxa, ha⟩ := hx
  exact ⟨a, hxa, h a ha⟩

end Gives

/-- A type that indices can have: of one integer. -/
structure DataType.IsIndex (t : DataType) : Prop where
  integer : t.isInteger = true
  scalar : t.lanes = 1

instance (t : DataType) : Decidable t.IsIndex :=
  decidable_of_iff (t.isInteger = true ∧ t.lanes = 1) ⟨fun h => ⟨h.1, h.2⟩, fun h => ⟨h.integer, h.scalar⟩⟩

namespace DataType.IsIndex

variable {t : DataType}

theorem element (h : t.IsIndex) : t.element = t := by
  rw [DataType.element, DataType.withLanes, ← h.scalar]

theorem isBool (h : t.IsIndex) : t.isBool = false := by
  have := h.integer
  simp only [DataType.isInteger, Bool.and_eq_true, Bool.not_eq_true'] at this
  exact this.2

theorem isFloat (h : t.IsIndex) : t.isFloat = false := by
  have := h.integer
  simp only [DataType.isInteger, DataType.isInt, DataType.isUInt, DataType.isFloat, Bool.and_eq_true,
    Bool.or_eq_true, beq_iff_eq] at this ⊢
  obtain ⟨hcode | hcode, -⟩ := this <;> rw [hcode] <;> rfl

theorem isHandle (h : t.IsIndex) : t.isHandle = false := by
  have := h.integer
  simp only [DataType.isInteger, DataType.isInt, DataType.isUInt, DataType.isHandle, Bool.and_eq_true,
    Bool.or_eq_true, beq_iff_eq] at this ⊢
  obtain ⟨hcode | hcode, -⟩ := this <;> rw [hcode] <;> rfl

end DataType.IsIndex

namespace Expr

/-- Arithmetic on variables and integer constants of a type. -/
inductive Index (t : DataType) : Expr → Prop
  | var {v : Var} (h : v.dtype = t) : Index t (.var v)
  | const (n : Int) : Index t (.const (.int n) t)
  | bin {op : BinOp} {a b : Expr} (hop : op.isLogical = false) (ha : Index t a) (hb : Index t b) : Index t (.bin op a b)

variable {t : DataType} {a b e : Expr}

theorem Index.dtype (h : e.Index t) : e.dtype = t := by
  induction h with
  | var h => exact h
  | const => rfl
  | bin hop _ _ ha => simp [Expr.dtype, hop, ha]

theorem Index.dtypeUnder (h : e.Index t) : e.dtypeUnder [] = t := by
  induction h with
  | var h => exact h
  | const => rfl
  | bin hop _ _ ha => simp [Expr.dtypeUnder, hop, ha]

/-- A property of index expressions of a type that is kept when they are taken apart and put together. Whatever is built
    from expressions that have it has it, too. -/
class IndexClosed (t : outParam DataType) (Q : Expr → Prop) : Prop where
  index {e : Expr} : Q e → e.Index t
  const (n : Int) : Q (.const (.int n) t)
  bin {op : BinOp} {a b : Expr} : op.isLogical = false → Q a → Q b → Q (.bin op a b)
  sides {op : BinOp} {a b : Expr} : Q (.bin op a b) → Q a ∧ Q b

instance : IndexClosed t (Index t) where
  index h := h
  const := .const
  bin := .bin
  sides h := by
    cases h with | bin hop ha hb
    exact ⟨ha, hb⟩

variable {Q : Expr → Prop} [IndexClosed t Q]

theorem IndexClosed.dtype (h : Q e) : e.dtype = t :=
  (index h).dtype

/-! ### Builders -/

theorem ofNumber_int (ht : t.IsIndex) (n : Int) : ofNumber (.int n) t = .ok (.const (.int n) t) := by
  have htype : (Number.int n).ofType t = .ok (.int n) := by
    simp [Number.ofType, ht.isBool, ht.isFloat, ht.integer, Number.toInt, Functor.map, Except.map]
  rw [ofNumber, htype, ht.element]
  rfl

theorem gives_ofInt (ht : t.IsIndex) (n : Int) : Gives (ofInt n t) Q :=
  ⟨_, ofNumber_int ht n, IndexClosed.const n⟩

theorem coerce_of_dtype (ha : a.dtype = t) : coerce a t = .ok a := by
  unfold coerce
  rw [if_pos ha]

/-- Two expressions of one type are brought to that type as they are. -/
theorem coerce_both (ha : a.dtype = t) (hb : b.dtype = t) (l r : Bool) :
    (DataType.combine a.dtype b.dtype l r >>= fun t => coerce a t >>= fun x => coerce b t >>= fun y =>
      Except.ok (x, y)) = .ok (a, b) := by
  rw [DataType.combine, ha, hb, if_pos rfl]
  show (coerce a t >>= fun x => coerce b t >>= fun y => Except.ok (x, y)) = _
  rw [coerce_of_dtype ha, coerce_of_dtype hb]
  rfl

/-- The sides of an operation on expressions of one type are taken as they are. -/
theorem operands_of_dtype (ha : a.dtype = t) (hb : b.dtype = t) : operands a b = .ok (a, b) :=
  coerce_both ha hb ..

/-- An integer beside an expression of an index type becomes a constant of that type. -/
theorem operands_int (ht : t.IsIndex) (ha : a.dtype = t) (n : Int) :
    operands a n = .ok (a, .const (.int n) t) := by
  have hconvert : (Operand.expr <$> convert (.number (.int n)) (.exact a.dtype.element)) =
      .ok (.expr (.const (.int n) t)) := by
    rw [ha, ht.element]
    show Operand.expr <$> ofNumber (.int n) t = _
    rw [ofNumber_int ht]
    rfl
  show ((Operand.expr <$> convert (.number (.int n)) (.exact a.dtype.element)) >>= fun b' => convert (.expr a) >>= fun x =>
    convert b' >>= fun y => DataType.combine x.dtype y.dtype _ _ >>= fun t => coerce x t >>= fun x =>
      coerce y t >>= fun y =>
      Except.ok (x, y)) = _
  rw [hconvert]
  exact coerce_both ha rfl ..

theorem gives_foldValue {op : BinOp} (hop : op.isLogical = false) (m n : Int) :
    Gives (foldValue op true (.int m) (.int n)) (∃ k, · = .int k) := by
  cases op with
  | add => exact gives_ok ⟨_, rfl⟩
  | sub => exact gives_ok ⟨_, rfl⟩
  | mul => exact gives_ok ⟨_, rfl⟩
  | div => exact gives_ok ⟨_, rfl⟩
  | mod => exact gives_ok ⟨_, rfl⟩
  | min =>
    refine gives_ok ?_
    unfold Number.min
    split
    · exact ⟨n, rfl⟩
    · exact ⟨m, rfl⟩
  | max =>
    refine gives_ok ?_
    unfold Number.max
    split
    · exact ⟨n, rfl⟩
    · exact ⟨m, rfl⟩
  | _ => cases hop

theorem gives_fold (ht : t.IsIndex) {op : BinOp} (hop : op.isLogical = false) (ha : Q a) (hb : Q b) :
    Gives (fold op a b) Q := by
  have hbin : Q (.bin op a b) := IndexClosed.bin hop ha hb
  unfold fold
  split
  · cases IndexClosed.index ha with | const m
    cases IndexClosed.index hb with | const n
    split
    · exact gives_ok hbin
    · rw [ht.integer]
      refine (gives_foldValue hop m n).bind ?_
      rintro _ ⟨k, rfl⟩
      rw [IndexClosed.dtype hbin]
      exact ⟨_, ofNumber_int ht k, IndexClosed.const k⟩
  · exact gives_ok hbin

theorem gives_arith (ht : t.IsIndex) {op : BinOp} (hop : op.isLogical = false) (ha : Q a) (hb : Q b) :
    Gives (arith op a b) Q := by
  rw [arith, operands_of_dtype (IndexClosed.dtype ha) (IndexClosed.dtype hb)]
  exact gives_fold ht hop ha hb

theorem gives_arith_int (ht : t.IsIndex) {op : BinOp} (hop : op.isLogical = false) (ha : Q a) (n : Int) :
    Gives (arith op a n) Q := by
  rw [arith, operands_int ht (IndexClosed.dtype ha)]
  exact gives_fold ht hop ha (IndexClosed.const n)

theorem gives_ceilDiv (ht : t.IsIndex) (ha : Q a) (hb : Q b) : Gives (ceilDiv a b) Q := by
  rw [ceilDiv, operands_of_dtype (IndexClosed.dtype ha) (IndexClosed.dtype hb)]
  refine (gives_arith_int ht rfl hb 1).bind fun c hc => ?_
  exact (gives_arith ht rfl ha hc).bind fun d hd => gives_arith ht rfl hd hb

end Expr

/-! ### Linear forms -/

namespace Linear
open Expr

variable {t : DataType} {l r : Linear} {Q : Expr → Prop}

/-- The atoms of a linear form have a property. -/
def All (Q : Expr → Prop) (l : Linear) : Prop :=
  ∀ p ∈ l.terms, Q p.1

theorem all_atom {e : Expr} (h : Q e) : (atom e).All Q :=
  List.forall_mem_singleton.mpr h

theorem mem_addTerm {e : Expr} {c : Int} {ts : List (Expr × Int)} {p : Expr × Int} (h : p ∈ addTerm e c ts) :
    p.1 = e ∨ ∃ q ∈ ts, p.1 = q.1 := by
  induction ts with
  | nil => exact Or.inl (List.mem_singleton.mp h ▸ rfl)
  | cons q ts ih =>
    unfold addTerm at h
    split at h
    · obtain heq | h := List.mem_cons.mp h
      · exact Or.inr ⟨_, List.mem_cons_self, heq ▸ rfl⟩
      · exact Or.inr ⟨p, List.mem_cons_of_mem _ h, rfl⟩
    · obtain heq | h := List.mem_cons.mp h
      · exact Or.inr ⟨_, List.mem_cons_self, heq ▸ rfl⟩
      · refine (ih h).imp_right fun ⟨q', hq', heq⟩ => ⟨q', List.mem_cons_of_mem _ hq', heq⟩

theorem All.addScaled (hl : l.All Q) (hr : r.All Q) (k : Int) : (l.addScaled k r).All Q := by
  obtain ⟨rs, c⟩ := r
  show ∀ p ∈ rs.foldl (fun ts q => addTerm q.1 (k * q.2) ts) l.terms, Q p.1
  have hl : ∀ p ∈ l.terms, Q p.1 := hl
  generalize l.terms = ls at hl
  induction rs generalizing ls with
  | nil => exact hl
  | cons q rs ih =>
    obtain ⟨hq, hr⟩ := List.forall_mem_cons.mp hr
    refine ih hr _ fun p hp => ?_
    obtain heq | ⟨q', hq', heq⟩ := mem_addTerm hp
    · exact heq ▸ hq
    · exact heq ▸ hl q' hq'

theorem All.scale (hl : l.All Q) (k : Int) : (l.scale k).All Q :=
  List.forall_mem_map.mpr hl

theorem All.quotient (hl : l.All Q) (d : Int) : (l.quotient d).All Q :=
  List.forall_mem_map.mpr hl

/-- The linear form of an index expression has such expressions as atoms. -/
theorem gives_ofExpr [IndexClosed t Q] {e : Expr} (h : Q e) : Gives (ofExpr e) (All Q) := by
  induction IndexClosed.index h with
  | var => exact gives_ok (all_atom h)
  | const n => exact ⟨_, rfl, List.forall_mem_nil _⟩
  | @bin op a b hop ha hb iha ihb =>
    obtain ⟨hQa, hQb⟩ := IndexClosed.sides h
    cases op with
    | add => exact (iha hQa).bind fun l hl => (ihb hQb).bind fun r hr => gives_ok (hl.addScaled hr 1)
    | sub => exact (iha hQa).bind fun l hl => (ihb hQb).bind fun r hr => gives_ok (hl.addScaled hr (-1))
    | mul =>
      unfold ofExpr
      split
      · cases hb with | const n
        exact (iha hQa).bind fun l hl => gives_ok (hl.scale n)
      · cases ha with | const n
        exact (ihb hQb).bind fun l hl => gives_ok (hl.scale n)
      · exact gives_ok (all_atom h)
    | _ => exact gives_ok (all_atom h)

variable [IndexClosed t Q]

theorem gives_termExpr (ht : t.IsIndex) {e : Expr} (he : Q e) (c : Int) : Gives (termExpr t e c) Q := by
  unfold termExpr
  split
  · exact gives_ok he
  · exact Gives.bind (P := Q) (gives_ofInt ht _) fun k hk => gives_ok (IndexClosed.bin rfl he hk)

theorem gives_sumTerms (ht : t.IsIndex) {ts : List (Expr × Int)} (hts : ∀ p ∈ ts, Q p.1) {acc : Option Expr}
    (hacc : ∀ e ∈ acc, Q e) : Gives (sumTerms t acc ts) (∀ e ∈ ·, Q e) := by
  induction ts generalizing acc with
  | nil => exact gives_ok hacc
  | cons p ts ih =>
    obtain ⟨e, c⟩ := p
    obtain ⟨he, hts⟩ := List.forall_mem_cons.mp hts
    unfold sumTerms
    split
    · exact ih hts hacc
    · refine (gives_termExpr ht he c).bind fun term hterm => ?_
      have hnext : ∀ next : Expr, Q next → Gives (sumTerms t (some next) ts) (∀ e ∈ ·, Q e) :=
        fun next hn => ih hts fun e' he' => Option.some.inj he' ▸ hn
      cases acc with
      | none =>
        simp only
        split
        · exact hnext term hterm
        · exact Gives.bind (P := Q) (gives_ofInt ht c) fun k hk => hnext _ (IndexClosed.bin rfl he hk)
      | some s => exact hnext _ (IndexClosed.bin (by split <;> rfl) (hacc s rfl) hterm)

theorem gives_toExpr (ht : t.IsIndex) (hl : l.All Q) : Gives (l.toExpr t) Q := by
  unfold toExpr
  have hnone : ∀ e ∈ (none : Option Expr), Q e := fun _ => nofun
  refine (gives_sumTerms ht hl hnone).bind fun o ho => ?_
  cases o with
  | none => exact gives_ofInt ht l.const
  | some s =>
    have hs := ho s rfl
    simp only
    split
    · exact Gives.bind (P := Q) (gives_ofInt ht _) fun k hk => gives_ok (IndexClosed.bin rfl hs hk)
    split
    · exact Gives.bind (P := Q) (gives_ofInt ht _) fun k hk => gives_ok (IndexClosed.bin rfl hs hk)
    · exact gives_ok hs

end Linear

/-! ### Simplification -/

namespace Expr

variable {t : DataType} {a b e : Expr} {Q : Expr → Prop}

theorem gives_constDiff? [IndexClosed t Q] (ha : Q a) (hb : Q b) : Gives (constDiff? a b) fun _ => True := by
  unfold constDiff?
  split
  · exact (Linear.gives_ofExpr (IndexClosed.bin (Q := Q) rfl ha hb)).bind fun l _ => gives_ok trivial
  · exact gives_ok trivial

variable [IndexClosed t Q]

theorem gives_divMod? (ht : t.IsIndex) (op : BinOp) (ha : Q a) (hb : Q b) :
    Gives (divMod? op a b) (∀ e ∈ ·, Q e) := by
  have hsome : ∀ {e : Expr}, Q e → ∀ e' ∈ some e, Q e' := fun he e' he' => Option.some.inj he' ▸ he
  unfold divMod?
  split
  · cases IndexClosed.index hb with | const n
    split
    · exact gives_ok fun _ => nofun
    refine Gives.bind (P := fun _ => True) ⟨n, rfl, trivial⟩ fun d _ => ?_
    rw [IndexClosed.dtype ha]
    split
    · split
      · exact gives_ok (hsome ha)
      · exact Gives.bind (P := Q) (gives_ofInt ht 0) fun z hz => gives_ok (hsome hz)
    refine (Linear.gives_ofExpr ha).bind fun l hl => ?_
    split
    · exact gives_ok fun _ => nofun
    split
    · exact Gives.bind (P := Q) (gives_ofInt ht 0) fun z hz => gives_ok (hsome hz)
    · exact (Linear.gives_toExpr ht (hl.quotient d)).bind fun q hq => gives_ok (hsome hq)
  · exact gives_ok fun _ => nofun

theorem gives_binRule? (ht : t.IsIndex) {op : BinOp} (hop : op.isLogical = false) (ha : Q a) (hb : Q b) :
    Gives (binRule? op t a b) (∀ e ∈ ·, Q e) := by
  have hsome : ∀ {e : Expr}, Q e → ∀ e' ∈ some e, Q e' := fun he e' he' => Option.some.inj he' ▸ he
  have hinteger : (t.isInteger && t.lanes == 1) = true := by simp [ht.integer, ht.scalar]
  have hlinear : Gives (do return some (← (← Linear.ofExpr (.bin op a b)).toExpr t)) (∀ e ∈ ·, Q e) :=
    (Linear.gives_ofExpr (IndexClosed.bin (Q := Q) hop ha hb)).bind fun l hl => (Linear.gives_toExpr ht hl).bind fun e he =>
      gives_ok (hsome he)
  have hside : ∀ c : Prop, [Decidable c] → Q (if c then a else b) := by
    intro c _
    split <;> assumption
  unfold binRule?
  simp only [hinteger]
  cases op with
  | add | sub | mul => exact hlinear
  | div => exact gives_divMod? ht .div ha hb
  | mod => exact gives_divMod? ht .mod ha hb
  | min | max =>
    -- A constant difference decides which side it is; else only two equal sides are one.
    refine (gives_constDiff? ha hb).bind fun d _ => ?_
    cases d with
    | some d => exact gives_ok (hsome (hside _))
    | none =>
      refine gives_ok ?_
      split
      · exact hsome ha
      · exact fun _ he => absurd he (Option.not_mem_none _)
  | _ => cases hop

theorem gives_simplifyBin (ht : t.IsIndex) {op : BinOp} (hop : op.isLogical = false) {x y : Revised Expr}
    (hx : Q x.term) (hy : Q y.term) : Gives (simplifyBin op t x y) (Q ·.term) := by
  unfold simplifyBin
  refine (gives_binRule? ht hop hx hy).bind fun o ho => ?_
  cases o with
  | some e => exact gives_ok (ho e rfl)
  | none =>
    simp only
    split
    · exact gives_ok (IndexClosed.bin hop hx hy)
    · refine Gives.bind (P := Q) ?_ fun e he => gives_ok he
      unfold binary
      split
      · cases hop
      · cases hop
      · exact gives_arith ht hop hx hy

/-- An index expression is simplified to an index expression. -/
theorem gives_simplify (ht : t.IsIndex) (h : Q e) : Gives e.simplify Q := by
  suffices Gives (e.simplifyUnder []) (Q ·.term) from this.bind fun r hr => gives_ok hr
  induction IndexClosed.index h with
  | var => exact gives_ok h
  | const n => exact gives_ok h
  | bin hop ha hb iha ihb =>
    obtain ⟨hQa, hQb⟩ := IndexClosed.sides h
    unfold simplifyUnder
    refine (iha hQa).bind fun x hx => (ihb hQb).bind fun y hy => ?_
    rw [(Index.bin hop ha hb).dtypeUnder]
    exact gives_simplifyBin ht hop hx hy

end Expr

end TensorNest

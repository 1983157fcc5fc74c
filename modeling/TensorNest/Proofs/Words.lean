import TensorNest.Proofs.Division

/-! # Words

Index expressions as a running program computes them. The numbers of a type are its elements in memory, and the result of
an operation is that of the arithmetic of the program in the type of the operands, which wraps at the width of the type
(`Reading.words`). So the values of index expressions are those that they evaluate to (`Expr.Typed.quiet_eval_words`). -/

namespace TensorNest

/-- The integer that an operand of one number is, and 0 for several. -/
def Numeric.toWord : Numeric → Int
  | .free x | .typed _ (.one x) => x.asInt?.getD 0
  | .typed _ (.many _) => 0

namespace DataType

/-- An integer as an operand of a type, converted to its elements. If memory has none of the type, it stays without a
    type. -/
def word (t : DataType) (n : Int) : Numeric :=
  match t.elemType with
  | .ok et => .typed et (.one (et.convert (.int n)))
  | .error _ => .free (.int n)

/-- Whether an integer is an element of a type. -/
def holdsWord (t : DataType) (n : Int) : Bool :=
  match t.elemType with
  | .ok et => et.holds n
  | .error _ => false

end DataType

/-- The reading of expressions by the arithmetic of a running program. -/
def Reading.words : Reading Int where
  number x t := (t.word (x.asInt?.getD 0)).toWord
  text _ := 0
  cast t n := (t.word n).toWord
  binary op t m n :=
    match arithmetic op t (t.word m) (t.word n) with
    | .ok r => r.toWord
    | .error _ => 0
  negate n := (decide (n = 0)).toInt
  choose t c m n := (t.word (if c = 0 then n else m)).toWord
  call _ name _ _ ns := if name = "likely" then ns.headD 0 else 0
  load _ _ _ _ := 0
  ramp _ n _ _ := n
  broadcast _ n _ := n
  truth n := n != 0
  counter t n := (t.word n).toWord
  toInt n := n

/-! ### The numbers of a type -/

section Types
variable {t u : DataType} {et : ElemType} {op : BinOp} {m n : Int}

theorem word_index (ht : t.IsIndex) (het : t.elemType = .ok et) (n : Int) :
    t.word n = .typed et (.one (.int (et.wrap n))) := by
  rw [DataType.word, het]
  show Numeric.typed et (.one (et.convert (.int n))) = _
  rw [(DataType.isInteger_elemType ht het).convert_int]

theorem toWord_index (ht : t.IsIndex) (het : t.elemType = .ok et) (n : Int) : (t.word n).toWord = et.wrap n := by
  rw [word_index ht het]
  rfl

theorem toWord_bool (b : Bool) : (Numeric.typed .bool (.one (.bool b))).toWord = b.toInt := by
  cases b <;> rfl

theorem exists_of_holdsWord (h : t.holdsWord n) : ∃ et, t.elemType = .ok et ∧ et.holds n := by
  unfold DataType.holdsWord at h
  split at h
  · exact ⟨_, ‹_›, h⟩
  · cases h

/-- A number of a type is the word of itself. -/
theorem toWord_of_holds (ht : t.IsIndex) (h : t.holdsWord n) : (t.word n).toWord = n := by
  obtain ⟨et, het, hn⟩ := exists_of_holdsWord h
  rw [toWord_index ht het, (DataType.isInteger_elemType ht het).wrap_of_holds hn]

/-- An operation that succeeds gives the word of its result. -/
theorem words_binary {r : Numeric} (h : arithmetic op t (t.word m) (t.word n) = .ok r) :
    Reading.words.binary op t m n = r.toWord := by
  simp only [Reading.words, h]

theorem words_arith (hop : op.isLogical = false) (ht : t.IsIndex) (hm : t.holdsWord m) (hn : t.holdsWord n)
    (hne : op.Divides → n ≠ 0) (hr : t.holdsWord (op.onInts m n)) : Reading.words.binary op t m n = op.onInts m n := by
  obtain ⟨et, het, hm⟩ := exists_of_holdsWord hm
  have hheld {k : Int} (hk : t.holdsWord k) : et.holds k := by
    obtain ⟨_, het', hk⟩ := exists_of_holdsWord hk
    exact Except.ok.inj (het.symm.trans het') ▸ hk
  have hint := DataType.isInteger_elemType ht het
  have hwrap {k : Int} (hk : et.holds k) : t.word k = .typed et (.one (.int k)) := by
    rw [word_index ht het, hint.wrap_of_holds hk]
  have hresult : arithmetic op t (t.word m) (t.word n) = .ok (.typed et (.one (.int (op.onInts m n)))) := by
    rw [hwrap hm, hwrap (hheld hn), BinOp.arithmetic_exact hop ht hint hm (hheld hn) hne (hheld hr)]
  exact words_binary hresult

/-- Comparisons and connectives are those of the integers. -/
theorem arithmetic_typed {u : DataType} (hop : op.isLogical) {x y : Number} (hx : x.asInt? = some m)
    (hy : y.asInt? = some n)
    (het : et.isFloat = false) :
    arithmetic op u (.typed et (.one x)) (.typed et (.one y)) = .ok (.typed .bool (.one (.bool (op.onInts m n != 0)))) := by
  have htruthy {z : Number} {k : Int} (hz : z.asInt? = some k) : z.truthy = (k != 0) := by
    cases z with
    | bool b => cases b <;> cases hz <;> rfl
    | int => cases hz; rfl
    | _ => cases hz
  have hcompare (hcompares : ElemType.compares op x y = (op.onInts m n != 0)) :
      Numeric.compare op (.typed et (.one x)) (.typed et (.one y)) =
        .ok (.typed .bool (.one (.bool (op.onInts m n != 0)))) := by
    simp only [Numeric.compare, Numeric.isFloat, het, Bool.or_self, Bool.false_eq_true, if_false]
    exact congrArg (fun b => Except.ok (Numeric.typed .bool (.one (.bool b)))) hcompares
  have hconnect {g : Bool → Bool → Bool} (hg : g x.truthy y.truthy = (op.onInts m n != 0)) :
      Numeric.connect g (.typed et (.one x)) (.typed et (.one y)) =
        .ok (.typed .bool (.one (.bool (op.onInts m n != 0)))) :=
    congrArg (fun b => Except.ok (Numeric.typed .bool (.one (.bool b)))) hg
  cases op with
  | and => exact hconnect (by rw [htruthy hx, htruthy hy]; simp only [BinOp.onInts]; grind)
  | or => exact hconnect (by rw [htruthy hx, htruthy hy]; simp only [BinOp.onInts]; grind)
  | eq | ne | lt | le | gt | ge =>
    refine hcompare ?_
    simp only [ElemType.compares, hx, hy, BinOp.onInts]
    grind
  | _ => cases hop

theorem words_compare (hop : op.isComparison) (ht : t.IsIndex) (hm : t.holdsWord m) (hn : t.holdsWord n) :
    Reading.words.binary op t m n = (op.onInts m n != 0).toInt := by
  obtain ⟨et, het, hm⟩ := exists_of_holdsWord hm
  obtain ⟨_, het', hn⟩ := exists_of_holdsWord hn
  obtain rfl : et = _ := Except.ok.inj (het.symm.trans het')
  have hint := DataType.isInteger_elemType ht het
  have hlogical : op.isLogical := by cases op <;> first | rfl | cases hop
  have hflag : arithmetic op t (t.word m) (t.word n) = .ok (.typed .bool (.one (.bool (op.onInts m n != 0)))) := by
    rw [word_index ht het, word_index ht het, hint.wrap_of_holds hm, hint.wrap_of_holds hn,
      arithmetic_typed hlogical rfl rfl hint.isFloat]
  rw [words_binary hflag, toWord_bool]

theorem words_logical (hop : op.isLogical) (b c : Bool) :
    Reading.words.binary op .bool b.toInt c.toInt = (op.onInts b.toInt c.toInt != 0).toInt := by
  have hword (b : Bool) : DataType.bool.word b.toInt = .typed .bool (.one (.bool b)) := by cases b <;> rfl
  have hnumber (b : Bool) : (Number.bool b).asInt? = some b.toInt := by cases b <;> rfl
  have hflag : arithmetic op .bool (DataType.bool.word b.toInt) (DataType.bool.word c.toInt) =
      .ok (.typed .bool (.one (.bool (op.onInts b.toInt c.toInt != 0)))) := by
    rw [hword, hword, arithmetic_typed hop (hnumber b) (hnumber c) rfl]
  rw [words_binary hflag, toWord_bool]

end Types

/-! ### Evaluation -/

/-- The values that are numbers of a type. -/
inductive Value.IsWord : DataType → Int → Value → Prop
  | index {t : DataType} {et : ElemType} {n : Int} (ht : t.IsIndex) (het : t.elemType = .ok et) (hn : et.wrap n = n) :
    IsWord t n (.ofNumeric (.typed et (.one (.int n))))
  | bool (b : Bool) : IsWord .bool b.toInt (.ofNumeric (.typed .bool (.one (.bool b))))

/-- The variables of a context, as far as they are bound, have numbers of their types. -/
def Env.Represents (Γ : Context) (π : Valuation Int) (env : Env) : Prop :=
  ∀ v x, Γ v.id = some v.dtype → env.get? v = some x → x.IsWord v.dtype (π v.id)

open Run

section Evaluation
variable {Γ : Context} {π : Valuation Int} {env : Env} {f : Frame} {t u : DataType} {et eu : ElemType} {op : BinOp}
  {m n k : Int} {x y c : Value} {a b : Numeric} {z : Number}

theorem Value.isWord_wrap (ht : t.IsIndex) (het : t.elemType = .ok et) (n : Int) :
    (Value.ofNumeric (.typed et (.one (.int (et.wrap n))))).IsWord t (et.wrap n) :=
  .index ht het (et.wrap_wrap n)

/-- A number of a type is the word of an integer, which the conversion to the type leaves. -/
theorem Value.IsWord.eq (h : x.IsWord t n) : x = .ofNumeric (t.word n) ∧ (t.word n).toWord = n ∧
    ∃ et z, t.elemType = .ok et ∧ t.word n = .typed et (.one z) ∧ et.isFloat = false ∧ z.asInt? = some n ∧
      et.convert z = z := by
  cases h with
  | @index _ et _ ht het hn =>
    have hint := DataType.isInteger_elemType ht het
    have hword : t.word n = .typed et (.one (.int n)) := by rw [word_index ht het, hn]
    refine ⟨by rw [hword], by rw [hword]; rfl, et, .int n, het, hword, hint.isFloat, rfl, ?_⟩
    rw [hint.convert_int, hn]
  | bool b => cases b <;> exact ⟨rfl, rfl, .bool, _, rfl, rfl, rfl, rfl, rfl⟩

theorem Value.IsWord.place_eq (h : x.IsWord t n) : place x = pure x := by
  obtain ⟨rfl, -, et, z, -, hz, -⟩ := h.eq
  rw [hz]
  rfl

theorem Value.IsWord.toInt_eq (h : x.IsWord t n) (ht : t.IsIndex) (m : Memory) : x.toInt m = .ok n := by
  cases h with
  | index => rfl
  | bool => exact absurd ht DataType.not_isIndex_bool

theorem Value.IsWord.truth_eq (h : x.IsWord .bool n) (m : Memory) : x.truth m = .ok (n != 0) := by
  obtain ⟨rfl, -⟩ := h.eq
  rfl

theorem quiet_convertTo_word (ht : t.lanes = 1) (het : t.elemType = .ok et) (z : Number) :
    Quiet (convertTo t (.ofNumeric (.typed eu (.one z)))) (· = .ofNumeric (.typed et (.one (et.convert z)))) := by
  refine quiet_get.bind fun m _ => quiet_lift fun y hy => ?_
  rw [cast_ofNumeric het, if_neg (by omega)] at hy
  cases hy
  rfl

theorem quiet_literal (h : t.Literal z n) : Quiet (convertTo t (.number z)) (·.IsWord t (t.word n).toWord) := by
  refine quiet_get.bind fun m _ => quiet_lift fun y hy => ?_
  replace hy : (Value.ofNumeric (.free z)).cast m.memory t = .ok y := hy
  cases h with
  | int ht =>
    cases het : t.elemType with
    | error e =>
      rw [Value.cast, ht.isHandle, ht.element, het] at hy
      cases hy
    | ok et =>
      have hint := DataType.isInteger_elemType ht het
      rw [cast_ofNumeric het, if_neg (by rw [ht.scalar]; omega), Numeric.cast, Numeric.lanesIn, hint.ofNumber_int] at hy
      split at hy
      · rename_i hn
        cases hy
        have hwrap := hint.wrap_of_holds hn
        rw [toWord_index ht het, hwrap]
        exact .index ht het hwrap
      · cases hy
  | bool b =>
    cases hy
    cases b
    · exact .bool false
    · exact .bool true

/-- Operations on numbers of a type. -/
theorem quiet_combine_words (hop : op.Maps t u) (hx : x.IsWord t m) (hy : y.IsWord t n) :
    Quiet (combine op t x y) (·.IsWord u (Reading.words.binary op t m n)) := by
  obtain ⟨rfl, -, et, z, het, hz, hfloat, hzm, -⟩ := hx.eq
  obtain ⟨rfl, -, eu, w, heu, hw, -, hwn, -⟩ := hy.eq
  obtain rfl : et = eu := Except.ok.inj (het.symm.trans heu)
  have hbinary : Reading.words.binary op t m n =
      match arithmetic op t (.typed et (.one z)) (.typed et (.one w)) with | .ok r => r.toWord | .error _ => 0 := by
    rw [← hz, ← hw]
    rfl
  rw [hz, hw, combine_ofNumeric, hbinary]
  have hlogical (hlogical : op.isLogical) (htruth : op.onInts m n = 0 ∨ op.onInts m n = 1) :
      Quiet (do
        let r ← (arithmetic op t (.typed et (.one z)) (.typed et (.one w)) : Except Error Numeric)
        if op.isLogical then pure (Value.ofNumeric r) else convertTo t (.ofNumeric r))
        (·.IsWord .bool (match arithmetic op t (.typed et (.one z))
          (.typed et (.one w)) with | .ok r => r.toWord | .error _ => 0)) := by
    rw [arithmetic_typed hlogical hzm hwn hfloat]
    show Quiet (if op.isLogical then _ else _) _
    rw [if_pos hlogical]
    refine quiet_pure ?_
    show Value.IsWord .bool (Numeric.toWord (.typed .bool (.one (.bool (op.onInts m n != 0))))) _
    rw [toWord_bool]
    exact .bool _
  cases hop with
  | arith hop ht =>
    have hint := DataType.isInteger_elemType ht het
    rw [word_index ht het] at hz hw
    cases hz
    cases hw
    obtain ⟨k, hk, -⟩ := BinOp.arithmetic_index hop ht hint (et.wrap m) (et.wrap n)
    rw [hk]
    show Quiet (if op.isLogical then _ else _) _
    rw [if_neg (by rw [hop]; exact Bool.false_ne_true)]
    refine (quiet_convertTo_word ht.scalar het _).mono fun v hv => ?_
    rw [hv, hint.convert_int, ElemType.wrap_wrap]
    exact Value.isWord_wrap ht het k
  | compare hop =>
    exact hlogical (by cases op <;> first | rfl | cases hop) ((BinOp.Maps.compare (t := .int32) hop).truth m n)
  | and => exact hlogical rfl (BinOp.Maps.and.truth m n)
  | or => exact hlogical rfl (BinOp.Maps.or.truth m n)

/-- A conversion to a type wraps. -/
theorem quiet_cast_word (ht : t.IsIndex) (hu : u.IsIndex) (hx : x.IsWord u n) :
    Quiet (convertTo t x) (·.IsWord t (t.word n).toWord) := by
  obtain ⟨rfl, hn, eu, z, heu, hz, -⟩ := hx.eq
  rw [toWord_index hu heu] at hn
  cases het : t.elemType with
  | error e =>
    refine quiet_get.bind fun m _ => quiet_lift fun y hy => ?_
    have hcast : (Value.ofNumeric (u.word n)).cast m.memory t = .error e := by
      rw [hz, Value.cast, ht.isHandle, ht.element, het]
      rfl
    rw [hcast] at hy
    cases hy
  | ok et =>
    have hint := DataType.isInteger_elemType ht het
    rw [word_index hu heu, hn]
    refine (quiet_convertTo_word ht.scalar het _).mono fun v hv => ?_
    rw [hv, hint.convert_int, toWord_index ht het]
    exact Value.isWord_wrap ht het n

theorem quiet_condition_word (hc : c.IsWord .bool n) : Quiet (condition c) (· = .typed .bool (.one (.bool (n != 0)))) := by
  obtain ⟨rfl, -⟩ := hc.eq
  refine quiet_get.bind fun m _ => ?_
  simp only [numeric_ofNumeric]
  exact quiet_pure rfl

/-- A choice between numbers of a type. -/
theorem quiet_chosen_words (ht : t.lanes = 1) (hc : c.IsWord .bool k) (hx : x.IsWord t m) (hy : y.IsWord t n) :
    Quiet (do convertTo t (← chosen c x y)) (·.IsWord t (Reading.words.choose t k m n)) := by
  have hresult : ∀ i, (Value.ofNumeric (t.word i)).IsWord t i → (t.word i).toWord = i := fun i hi => hi.eq.2.1
  obtain ⟨rfl, -, et, z, het, hz, -, hzm, hzc⟩ := hx.eq
  obtain ⟨rfl, -, eu, w, heu, hw, -, hwn, hwc⟩ := hy.eq
  obtain rfl : et = eu := Except.ok.inj (het.symm.trans heu)
  have hselect : Numeric.select (.typed .bool (.one (.bool (k != 0)))) (t.word m) (t.word n) =
      .ok (t.word (if k = 0 then n else m)) := by
    have hjoin : et.join et = et := by cases et <;> simp [ElemType.join]
    rw [hz, hw, Numeric.select]
    simp only [Numeric.joined, hjoin, Numeric.lanesIn, Packed.map, hzc, hwc]
    by_cases hk : k = 0
    · simp only [hk, if_true, hw]
      rfl
    · simp only [hk, if_false, hz]
      show Except.ok (Numeric.typed et (.one (if (k != 0) then z else w))) = _
      rw [if_pos (by simpa using hk)]
  have hchosen : Quiet (chosen c (.ofNumeric (t.word m)) (.ofNumeric (t.word n)))
      (· = .ofNumeric (t.word (if k = 0 then n else m))) := by
    refine quiet_get.bind fun m _ => ?_
    simp only [numeric_ofNumeric]
    refine (quiet_condition_word hc).bind fun p hp => ?_
    rw [hp, hselect]
    exact quiet_pure rfl
  refine hchosen.bind fun v hv => ?_
  have hword : (Value.ofNumeric (t.word (if k = 0 then n else m))).IsWord t (if k = 0 then n else m) := by
    split
    · exact hy
    · exact hx
  show Quiet _ fun v : Value => v.IsWord t (t.word (if k = 0 then n else m)).toWord
  rw [hv, hresult _ hword]
  obtain ⟨-, -, ev, y, hev, hy, -, -, hyc⟩ := hword.eq
  rw [hy]
  refine (quiet_convertTo_word ht hev y).mono fun v hv => ?_
  rw [hv, hyc, ← hy]
  exact hword

theorem Env.Represents.set {v : Var} (henv : env.Represents Γ π) (hx : x.IsWord v.dtype n) :
    (env.set v x).Represents (Γ.extend v) (π.assign [v] [n]) := by
  intro w y hw hy
  have hassign : π.assign [v] [n] = Function.update π v.id n := rfl
  by_cases hwv : w.id = v.id
  · have hself : (env.set v x).get? w = some x := (congrArg (List.lookup · (env.set v x)) hwv).trans Env.lookup_set_self
    rw [hself] at hy
    cases hy
    rw [Context.extend, hwv, Function.update_self] at hw
    rw [hassign, hwv, Function.update_self, ← Option.some.inj hw]
    exact hx
  · rw [Context.extend, Function.update_of_ne hwv] at hw
    rw [hassign, Function.update_of_ne hwv]
    exact henv w y hw (hy ▸ (Env.lookup_set hwv).symm)

/-- The variables of a context have their words also once a variable that it does not know is bound. -/
theorem Env.Represents.of_extend (h : env.Represents (Γ.extend v) (Function.update π v.id n)) (hv : Γ v.id = none) :
    env.Represents Γ π := by
  intro w y hw hy
  have hne : w.id ≠ v.id := by
    intro heq
    rw [heq, hv] at hw
    cases hw
  have hword := h w y (by rwa [Context.extend, Function.update_of_ne hne]) hy
  rwa [Function.update_of_ne hne] at hword

theorem Env.Represents.erase (h : env.Represents Γ π) (v : Var) : (env.erase v).Represents Γ π := by
  intro w y hw hy
  by_cases heq : w.id = v.id
  · rw [Env.get?, heq, Env.lookup_erase_self] at hy
    cases hy
  · exact h w y hw ((Env.lookup_erase heq).symm.trans hy)

/-- An index expression evaluates to the value that it has by the arithmetic of words, unless the evaluation fails. -/
theorem Expr.Typed.quiet_eval_words {e : Expr} {T : Contents Int} (h : e.Typed Γ t) (henv : env.Represents Γ π) :
    Quiet (e.eval f env) (·.IsWord t (e.value .words T π)) := by
  induction h generalizing env π with
  | @var Γ v hv ht =>
    unfold Expr.eval
    cases hx : env.get? v with
    | none => exact quiet_throw
    | some x => exact quiet_pure (henv v x hv hx)
  | @const Γ t z n hx =>
    refine (quiet_literal hx).mono fun v hv => ?_
    show v.IsWord t (t.word (z.asInt?.getD 0)).toWord
    rw [hx.asInt?]
    exact hv
  | @cast Γ t u a ht hu _ ih =>
    refine (ih henv).bind fun x hx => ?_
    exact quiet_cast_word ht hu hx
  | bin hop ha _ iha ihb =>
    refine (iha henv).bind fun x hx => (ihb henv).bind fun y hy => ?_
    rw [ha.dtype, value, ha.dtype]
    exact quiet_combine_words hop hx hy
  | @not Γ a _ ih =>
    refine (ih henv).bind fun x hx => (quiet_condition_word hx).bind fun p hp => quiet_pure ?_
    rw [hp]
    show (Value.ofNumeric (.typed .bool (.one (.bool !(a.value .words T π != 0))))).IsWord .bool
      (decide (a.value .words T π = 0)).toInt
    have hnot : (!(a.value .words T π != 0)) = decide (a.value .words T π = 0) := by simp [bne, beq_eq_decide]
    rw [hnot]
    exact .bool _
  | @select Γ t c a b _ ha _ ihc iha ihb =>
    refine (ihc henv).bind fun p hp => (iha henv).bind fun x hx => (ihb henv).bind fun y hy => ?_
    rw [ha.dtype, value, ha.dtype]
    have hscalar : t.lanes = 1 := by
      obtain ht | rfl := ha.kind
      · exact ht.scalar
      · rfl
    exact quiet_chosen_words hscalar hp hx hy
  | @bind Γ t v a b hv _ _ iha ihb =>
    refine (iha henv).bind fun x hx => ?_
    rw [hx.place_eq]
    exact (quiet_pure hx).bind fun y hy => ihb (henv.set hy)
  | @likely Γ c _ ih =>
    refine Quiet.bind (P := fun xs => ∃ y : Value, xs = [y] ∧ y.IsWord .bool (c.value .words T π))
      ((ih henv).bind fun x hx => quiet_pure ⟨x, rfl, hx⟩) fun xs hxs => ?_
    obtain ⟨y, rfl, hy⟩ := hxs
    exact quiet_pure hy

end Evaluation

end TensorNest

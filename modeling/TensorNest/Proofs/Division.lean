import TensorNest.Proofs.Magnitudes
import TensorNest.Proofs.Typing

/-! # Division while building and while running

Constants are divided by the quotient of their magnitudes (`truncDiv`), a running program divides by rounding
down and correcting the quotient, at the width of the type in every step (`ElemType.quotient`). Both are the
division toward zero, so that a folded quotient or remainder has the value of the node that was folded
(`Expr.division_agrees`). The remainder is right in a type even where the quotient is too large for it. -/

namespace TensorNest

/-! ### Correcting the quotient rounded down -/

/-- The quotient rounded down, and one more if there is a remainder and the signs differ. -/
def correctedQuotient (a b : Int) : Int :=
  let q := a.fdiv b
  if a - q * b ≠ 0 ∧ decide (a < 0) ≠ decide (b < 0) then q + 1 else q

section Unbounded
variable {a b : Int}

/-- The remainder of the quotient rounded down lies between zero and the divisor. -/
theorem fmod_between (hb : b ≠ 0) : (0 ≤ a.fmod b ∧ a.fmod b < b) ∨ (b < a.fmod b ∧ a.fmod b ≤ 0) := by
  rcases lt_or_gt_of_ne hb with hneg | hpos
  · have hlow : 0 ≤ (-a).fmod (-b) := Int.fmod_nonneg_of_pos _ (by omega)
    have hhigh : (-a).fmod (-b) < -b := Int.fmod_lt_of_pos _ (by omega)
    rw [Int.neg_fmod_neg] at hlow hhigh
    exact .inr (by omega)
  · exact .inl ⟨Int.fmod_nonneg_of_pos _ hpos, Int.fmod_lt_of_pos _ hpos⟩

theorem sub_fdiv_mul (a b : Int) : a - a.fdiv b * b = a.fmod b := by
  rw [Int.fmod_def, mul_comm]

/-- Rounding down falls short of the quotient toward zero by one where there is a remainder and the signs differ. -/
theorem correctedQuotient_eq (hb : b ≠ 0) : correctedQuotient a b = a.tdiv b := by
  have hdvd : a.fmod b = 0 ↔ b ∣ a := Int.dvd_iff_fmod_eq_zero.symm
  have htdiv := Int.tdiv_eq_fdiv (a := a) (b := b)
  rw [correctedQuotient, sub_fdiv_mul, htdiv]
  by_cases hmod : b ∣ a
  · simp [hdvd.mpr hmod, hmod]
  · have hne : a.fmod b ≠ 0 := mt hdvd.mp hmod
    have hzero : a ≠ 0 := fun h => hmod (h ▸ dvd_zero b)
    rcases lt_or_gt_of_ne hb with hneg | hpos <;> rcases lt_or_gt_of_ne hzero with hanegative | hapositive
    · simp [hne, hmod, hneg, hanegative, hneg.not_ge, hanegative.not_ge, Int.sign_eq_neg_one_of_neg hneg]
    · simp [hne, hmod, hneg, hapositive.le, hneg.not_ge, hapositive.not_gt]
    · simp [hne, hmod, hanegative, hpos.le, hanegative.not_ge, hpos.not_gt, Int.sign_eq_one_of_pos hpos]
    · simp [hne, hmod, hpos.le, hapositive.le, hpos.not_gt, hapositive.not_gt]

/-- The remainder of the division toward zero is nearer to zero than the divisor, on the side of the dividend. -/
theorem tmod_spec (a : Int) (hb : b ≠ 0) :
    a = a.tdiv b * b + a.tmod b ∧ (a.tmod b).natAbs < b.natAbs ∧ (a.tmod b = 0 ∨ (a.tmod b).sign = a.sign) := by
  refine ⟨by rw [mul_comm, Int.mul_tdiv_add_tmod], ?_, ?_⟩
  · rw [Int.natAbs_tmod]
    exact Nat.mod_lt _ (Int.natAbs_pos.mpr hb)
  · by_cases hdvd : b ∣ a
    · exact .inl (Int.tmod_eq_zero_of_dvd hdvd)
    · exact .inr (by rw [Int.sign_tmod, if_neg hdvd])

end Unbounded

/-! ### Division at the width of a type -/

namespace ElemType

variable {t : ElemType} {a b : Int}

/-- The integer types of some bits. -/
def IsInteger : ElemType → Prop
  | int bits | uint bits => 0 < bits
  | _ => False

theorem IsInteger.bits_pos (ht : t.IsInteger) : ∀ bits, t = .int bits ∨ t = .uint bits → 0 < bits := by
  rintro bits (rfl | rfl)
  · exact ht
  · exact ht

theorem IsInteger.isFloat (ht : t.IsInteger) : t.isFloat = false := by
  cases t with
  | float => exact ht.elim
  | _ => rfl

theorem IsInteger.wrap_of_holds (ht : t.IsInteger) (ha : t.holds a) : t.wrap a = a :=
  ElemType.wrap_of_holds ht.bits_pos ha ht.isFloat

theorem IsInteger.convert_int (ht : t.IsInteger) (a : Int) : t.convert (.int a) = .int (t.wrap a) := by
  cases t with
  | bool | float => exact ht.elim
  | _ => rfl

theorem IsInteger.dividing (ht : t.IsInteger) : t.dividing = t := by
  cases t with
  | bool | float => exact ht.elim
  | _ => rfl

theorem IsInteger.join_self (ht : t.IsInteger) : t.join t = t := by
  cases t with
  | bool | float => exact ht.elim
  | int bits | uint bits => simp [join]

theorem IsInteger.ofNumber_int (ht : t.IsInteger) (a : Int) :
    t.ofNumber (.int a) = if t.holds a then .ok (.int a) else .error .overflow := by
  cases t with
  | bool | float => exact ht.elim
  | _ => rfl

theorem IsInteger.wrap_sub_wrap (ht : t.IsInteger) (a b : Int) : t.wrap (a - t.wrap b) = t.wrap (a - b) := by
  cases t with
  | bool | float => exact ht.elim
  | int bits => exact Int.sub_bmod_bmod
  | uint bits => exact Int.sub_emod_emod ..

theorem IsInteger.wrap_wrap_mul (ht : t.IsInteger) (a b : Int) : t.wrap (t.wrap a * b) = t.wrap (a * b) := by
  cases t with
  | bool | float => exact ht.elim
  | int bits => exact Int.bmod_mul_bmod
  | uint bits => exact (Int.mod_modEq a _).mul_right b

theorem IsInteger.wrap_wrap_add_one (ht : t.IsInteger) (a : Int) : t.wrap (t.wrap a + 1) = t.wrap (a + 1) := by
  cases t with
  | bool | float => exact ht.elim
  | int bits => exact Int.bmod_add_bmod
  | uint bits => exact Int.emod_add_emod ..

/-- What lies between zero and an integer of a type is one of the type. -/
theorem IsInteger.holds_between (ht : t.IsInteger) (hb : t.holds b) {r : Int} (hr : (0 ≤ r ∧ r ≤ b) ∨ (b ≤ r ∧ r ≤ 0)) :
    t.holds r := by
  simp only [holds, Bool.and_eq_true, decide_eq_true_eq] at hb ⊢
  have hzero : t.least ≤ 0 ∧ 0 ≤ t.greatest := by
    cases t with
    | bool | float => exact ht.elim
    | int bits =>
      have := Nat.two_pow_pos (bits - 1)
      simp only [least, greatest, Nat.pow_eq]
      omega
    | uint bits =>
      have := Nat.two_pow_pos bits
      simp only [least, greatest, Nat.pow_eq]
      omega
  omega

/-- The correction of the quotient at the width of a type: its remainder is the exact one, since that is nearer to
    zero than the divisor. -/
theorem quotient_eq (ht : t.IsInteger) (hb : t.holds b) (hne : b ≠ 0) : t.quotient a b = t.wrap (a.tdiv b) := by
  have hrem : t.wrap (a - t.wrap (t.wrap (a.fdiv b) * b)) = a.fmod b := by
    rw [ht.wrap_wrap_mul, ht.wrap_sub_wrap, sub_fdiv_mul]
    refine ht.wrap_of_holds (ht.holds_between hb ?_)
    rcases fmod_between (a := a) hne with h | h
    · exact .inl ⟨h.1, h.2.le⟩
    · exact .inr ⟨h.1.le, h.2⟩
  rw [← correctedQuotient_eq hne, correctedQuotient, quotient, floorQuotient, if_neg hne, hrem, sub_fdiv_mul]
  by_cases hcorrect : a.fmod b ≠ 0 ∧ decide (a < 0) ≠ decide (b < 0)
  · rw [if_pos hcorrect, if_pos (by simpa using hcorrect), ht.wrap_wrap_add_one]
  · rw [if_neg hcorrect, if_neg (by simpa using hcorrect)]

theorem quot_int (ht : t.IsInteger) (hb : t.holds b) (hne : b ≠ 0) :
    t.quot (.int a) (.int b) = .ok (.int (t.wrap (a.tdiv b))) := by
  rw [quot, lift, quotient_eq ht hb hne, wrap_wrap]

/-- The remainder is that of the division toward zero, whether or not the type holds the quotient. -/
theorem rem_int (ht : t.IsInteger) (ha : t.holds a) (hb : t.holds b) (hne : b ≠ 0) :
    t.rem (.int a) (.int b) = .ok (.int (a.tmod b)) := by
  have hmod : t.holds (a.tmod b) := by
    refine ht.holds_between ha ?_
    have hbound : (a.tmod b).natAbs ≤ a.natAbs := by
      rw [Int.natAbs_tmod]
      exact Nat.mod_le ..
    rcases (tmod_spec a hne).2.2 with h | h
    · omega
    · rcases lt_trichotomy a 0 with ha | rfl | ha
      · rw [Int.sign_eq_neg_one_of_neg ha, Int.sign_eq_neg_one_iff_neg] at h
        omega
      · rw [Int.zero_tmod]
        omega
      · rw [Int.sign_eq_one_of_pos ha, Int.sign_eq_one_iff_pos] at h
        omega
  rw [rem, lift, quotient_eq ht hb hne, ht.wrap_wrap_mul, ht.wrap_sub_wrap, mul_comm, ← Int.tmod_def, ht.wrap_of_holds hmod]

end ElemType

/-! ### Division of constants -/

namespace DataType

variable {t : DataType} {et : ElemType}

theorem isInteger_elemType (ht : t.IsIndex) (het : t.elemType = .ok et) : et.IsInteger := by
  have hbits := TensorNest.bits_pos het t.bits
  rcases elemType_integer ht het with ⟨rfl, -⟩ | ⟨rfl, -⟩
  · exact hbits (.inl rfl)
  · exact hbits (.inr rfl)

end DataType

namespace BinOp

variable {op : BinOp} {t : DataType} {et : ElemType} {a b : Int}

/-- Folding divides the numbers. -/
theorem foldValue_divides (hop : op.Divides) (a b : Int) :
    Expr.foldValue op true (.int a) (.int b) = .ok (.int (op.onInts a b)) := by
  obtain rfl | rfl := hop
  · exact congrArg (Except.ok ∘ Number.int) (truncDiv_eq a b)
  · exact congrArg (Except.ok ∘ Number.int) (truncMod_eq a b)

/-- The arithmetic of a running program wraps at the width of the type. It is exact where the type holds the result. -/
theorem arithmetic_index (hop : op.isLogical = false) (ht : t.IsIndex) (het : et.IsInteger) (a b : Int) :
    ∃ k, arithmetic op t (.typed et (.one (.int a))) (.typed et (.one (.int b))) =
      .ok (.typed et (.one (.int (et.wrap k)))) ∧
      (et.holds a → et.holds b → (op.Divides → b ≠ 0) → et.holds (op.onInts a b) → et.wrap k = op.onInts a b) := by
  let x : Numeric := .typed et (.one (.int a))
  let y : Numeric := .typed et (.one (.int b))
  have hjoined : x.joined y = et := het.join_self
  have hlift {g : Number → Number → Except Error Number} {k : Int}
      (hg : g (.int (et.wrap a)) (.int (et.wrap b)) = .ok (.int (et.wrap k))) :
      Numeric.lift et g x y = .ok (.typed et (.one (.int (et.wrap k)))) := by
    simp only [x, y, Numeric.lift, Numeric.lanesIn, Packed.map, het.convert_int]
    show (g (.int (et.wrap a)) (.int (et.wrap b)) >>= fun z => _) >>= _ = _
    rw [hg]
    rfl
  -- All operations but divisions compute with the numbers as they are, and wrap once.
  have hplain {g : ElemType → Number → Number → Except Error Number} {f : Int → Int → Int}
      (hg : ∀ m n, g et (.int m) (.int n) = .ok (.int (et.wrap (f m n)))) (hf : f a b = op.onInts a b) :
      ∃ k, Numeric.lift (x.joined y) (g (x.joined y)) x y = .ok (.typed et (.one (.int (et.wrap k)))) ∧
        (et.holds a → et.holds b → (op.Divides → b ≠ 0) → et.holds (op.onInts a b) → et.wrap k = op.onInts a b) := by
    rw [hjoined]
    refine ⟨f (et.wrap a) (et.wrap b), hlift (hg _ _), fun ha hb _ hr => ?_⟩
    rw [het.wrap_of_holds ha, het.wrap_of_holds hb, hf, het.wrap_of_holds hr]
  cases op with
  | add => exact hplain (fun _ _ => rfl) rfl
  | sub => exact hplain (fun _ _ => rfl) rfl
  | mul => exact hplain (fun _ _ => rfl) rfl
  | min => exact hplain (g := ElemType.min) (fun _ _ => rfl) (by simp only [onInts]; omega)
  | max => exact hplain (g := ElemType.max) (fun _ _ => rfl) (by simp only [onInts]; omega)
  | div =>
    refine ⟨et.quotient (et.wrap a) (et.wrap b), ?_, fun ha hb hne hr => ?_⟩
    · rw [arithmetic, ht.isFloat, if_neg Bool.false_ne_true, Numeric.quot, hjoined, het.dividing]
      exact hlift rfl
    · rw [het.wrap_of_holds ha, het.wrap_of_holds hb, ElemType.quotient_eq het hb (hne (.inl rfl)), ElemType.wrap_wrap]
      exact het.wrap_of_holds hr
  | mod =>
    refine ⟨et.wrap a - et.wrap (et.quotient (et.wrap a) (et.wrap b) * et.wrap b), ?_, fun ha hb hne _ => ?_⟩
    · rw [arithmetic, ht.isFloat, if_neg Bool.false_ne_true, Numeric.rem, hjoined, het.dividing]
      exact hlift rfl
    · rw [het.wrap_of_holds ha, het.wrap_of_holds hb]
      exact Number.int.inj (Except.ok.inj (ElemType.rem_int het ha hb (hne (.inr rfl))))
  | _ => cases hop

/-- A running program computes exactly with the numbers of a type, as long as the type holds the results. -/
theorem arithmetic_exact (hop : op.isLogical = false) (ht : t.IsIndex) (het : et.IsInteger) (ha : et.holds a)
    (hb : et.holds b)
    (hne : op.Divides → b ≠ 0) (hr : et.holds (op.onInts a b)) :
    arithmetic op t (.typed et (.one (.int a))) (.typed et (.one (.int b))) =
      .ok (.typed et (.one (.int (op.onInts a b)))) := by
  obtain ⟨k, hk, hexact⟩ := arithmetic_index hop ht het a b
  rw [hk, hexact ha hb hne hr]

end BinOp

namespace Expr

variable {op : BinOp} {t : DataType} {et : ElemType} {a b n : Int} {f : Frame} {env : Env}

/-- A constant that its type holds has its value. -/
theorem eval_const_int (ht : t.IsIndex) (het : t.elemType = .ok et) (hn : et.holds n) :
    (const (.int n) t).eval f env = pure (.scalar et (.int n)) := by
  have hcast (m : Memory) : (Value.ofNumeric (.free (.int n))).cast m t = .ok (.scalar et (.int n)) := by
    rw [cast_ofNumeric het, if_neg (by rw [ht.scalar]; exact lt_irrefl 1), Numeric.cast, Numeric.lanesIn,
      (DataType.isInteger_elemType ht het).ofNumber_int, if_pos hn]
    rfl
  funext m
  show (liftM ((Value.ofNumeric (.free (.int n))).cast m.memory t) : Run Value) m = _
  rw [hcast]
  rfl

/-- Without a type of elements no constant has a value. -/
theorem eval_const_error {e : Error} (ht : t.IsIndex) (het : t.elemType = .error e) :
    (const (.int n) t).eval f env = throw e := by
  have hcast (m : Memory) : (Value.number (.int n)).cast m t = .error e := by
    rw [Value.cast, ht.isHandle, ht.element, het]
    rfl
  funext m
  show (liftM ((Value.number (.int n)).cast m.memory t) : Run Value) m = _
  rw [hcast]
  rfl

theorem eval_bin_error {x y : Expr} {e : Error} (hx : x.eval f env = throw e) : (bin op x y).eval f env = throw e := by
  unfold eval
  rw [hx]
  rfl

theorem eval_division (hop : op.Divides) (ht : t.IsIndex) (het : t.elemType = .ok et) (ha : et.holds a) (hb : et.holds b)
    (hne : b ≠ 0) (hr : et.holds (op.onInts a b)) :
    (bin op (const (.int a) t) (const (.int b) t)).eval f env = pure (.scalar et (.int (op.onInts a b))) := by
  have hinteger := DataType.isInteger_elemType ht het
  have hlogical : op.isLogical = false := by obtain rfl | rfl := hop <;> rfl
  have hcast (m : Memory) : (Value.ofNumeric (.typed et (.one (.int (op.onInts a b))))).cast m t =
      .ok (.scalar et (.int (op.onInts a b))) := by
    rw [cast_ofNumeric het, if_neg (by rw [ht.scalar]; exact lt_irrefl 1)]
    show Except.ok (Value.ofNumeric (.typed et (.one (et.convert (.int (op.onInts a b)))))) = _
    rw [hinteger.convert_int, hinteger.wrap_of_holds hr]
    rfl
  unfold eval
  rw [eval_const_int ht het ha, eval_const_int ht het hb]
  show combine op t (.ofNumeric (.typed et (.one (.int a)))) (.ofNumeric (.typed et (.one (.int b)))) = _
  rw [combine_ofNumeric, BinOp.arithmetic_exact hlogical ht hinteger ha hb (fun _ => hne) hr]
  show (if op.isLogical then _ else convertTo t (.ofNumeric (.typed et (.one (.int (op.onInts a b)))))) = _
  rw [hlogical, if_neg Bool.false_ne_true]
  funext m
  show (liftM ((Value.ofNumeric (.typed et (.one (.int (op.onInts a b))))).cast m.memory t) : Run Value) m = _
  rw [hcast]
  rfl

/-- A division of constants is folded, unless the divisor is zero. -/
theorem binary_divides (hop : op.Divides) (ht : t.IsIndex) {x y : Operand}
    (hxy : operands x y = .ok (const (.int a) t, const (.int b) t)) (hne : b ≠ 0) :
    binary op x y = .ok (const (.int (op.onInts a b)) t) := by
  have harith : binary op x y = arith op x y := by obtain rfl | rfl := hop <;> rfl
  have hdtype : (bin op (const (.int a) t) (const (.int b) t)).dtype = t := by obtain rfl | rfl := hop <;> rfl
  have htruthy : (Number.int b).truthy = true := by simpa [Number.truthy] using hne
  rw [harith, arith, hxy]
  show fold op (const (.int a) t) (const (.int b) t) = _
  rw [fold, htruthy, Bool.not_true, Bool.and_false, if_neg Bool.false_ne_true, ht.integer, BinOp.foldValue_divides hop,
    hdtype]
  exact ofNumber_int ht _

end Expr

/-- Division of constants and division at run time are both the division toward zero. Over the integers the quotient of
    the magnitudes and the corrected quotient agree, and so do the remainders; in an integer type the quotient is that
    integer if the type holds it, and the remainder is right in any case. So a quotient or remainder of two constants that
    is folded while it is built is evaluated to what the node itself is. -/
theorem division_agrees {a b : Int} (hb : b ≠ 0) :
    (truncDiv a b = a.tdiv b ∧ correctedQuotient a b = a.tdiv b ∧
      truncMod a b = a.tmod b ∧ a - correctedQuotient a b * b = a.tmod b) ∧
    (a = a.tdiv b * b + a.tmod b ∧ |a.tmod b| < |b| ∧ (a.tmod b = 0 ∨ (a.tmod b).sign = a.sign)) ∧
    (∀ t : ElemType, t.IsInteger → t.holds a → t.holds b →
      (t.holds (a.tdiv b) → t.quot (.int a) (.int b) = .ok (.int (a.tdiv b))) ∧
        t.rem (.int a) (.int b) = .ok (.int (a.tmod b))) ∧
    ∀ (op : BinOp) (t : DataType) (x y : Operand), op.Divides → t.IsIndex →
      Expr.operands x y = .ok (.const (.int a) t, .const (.int b) t) →
      t.Holds a → t.Holds b → t.Holds (op.onInts a b) →
      ∃ c, Expr.binary op x y = .ok c ∧ c = .const (.int (op.onInts a b)) t ∧ ∀ (f : Frame) (env : Env),
        c.eval f env = (Expr.bin op (.const (.int a) t) (.const (.int b) t)).eval f env ∧
        ∀ et, t.elemType = .ok et → c.eval f env = pure (.scalar et (.int (op.onInts a b))) := by
  obtain ⟨hsplit, hsmall, hsign⟩ := tmod_spec a hb
  refine ⟨⟨truncDiv_eq a b, correctedQuotient_eq hb, truncMod_eq a b, ?_⟩, ⟨hsplit, ?_, hsign⟩, ?_, ?_⟩
  · rw [correctedQuotient_eq hb, mul_comm, ← Int.tmod_def]
  · rw [Int.abs_eq_natAbs, Int.abs_eq_natAbs]
    exact Int.ofNat_lt.mpr hsmall
  · intro t ht htA htB
    refine ⟨fun hquot => ?_, ElemType.rem_int ht htA htB hb⟩
    rw [ElemType.quot_int ht htB hb, ht.wrap_of_holds hquot]
  · intro op t x y hop ht hxy htA htB htR
    refine ⟨_, Expr.binary_divides hop ht hxy hb, rfl, fun f env => ?_⟩
    cases het : t.elemType with
    | error e =>
      have hthrow {n : Int} : (Expr.const (.int n) t).eval f env = throw e := Expr.eval_const_error ht het
      exact ⟨hthrow.trans (Expr.eval_bin_error hthrow).symm, fun et h => nomatch h⟩
    | ok et =>
      have hholds {n : Int} (hn : t.Holds n) : et.holds n := (DataType.holds_iff ht het).mpr hn
      have hfolded : (Expr.const (.int _) t).eval f env = _ := Expr.eval_const_int ht het (hholds htR)
      refine ⟨hfolded.trans (Expr.eval_division hop ht het (hholds htA) (hholds htB) hb (hholds htR)).symm, fun et' h => ?_⟩
      obtain rfl : et = et' := Except.ok.inj h
      exact hfolded

namespace Division

/-- The type of integers of 8 bits. -/
def int8 : DataType := ⟨.int, 8, 1⟩

/-- `-7` by `2` is `-3` with the remainder `-1`, of which the remainder is folded here. -/
theorem division_agrees_neg_seven :
    truncDiv (-7) 2 = -3 ∧ correctedQuotient (-7) 2 = -3 ∧
      (ElemType.int 8).quot (.int (-7)) (.int 2) = .ok (.int (-3)) ∧
      ∃ c, Expr.binary .mod (Expr.const (.int (-7)) int8) (Expr.const (.int 2) int8) = .ok c ∧ ∀ (f : Frame) (env : Env),
        c.eval f env = (Expr.bin .mod (.const (.int (-7)) int8) (.const (.int 2) int8)).eval f env ∧
          c.eval f env = pure (.scalar (.int 8) (.int (-1))) := by
  obtain ⟨⟨hfold, hcorrected, -⟩, -, hwidth, hbuild⟩ := division_agrees (a := -7) (b := 2) (by decide)
  obtain ⟨hquot, -⟩ := hwidth (.int 8) (by decide : 0 < 8) (by decide) (by decide)
  have hoperands := Expr.operands_of_dtype (a := .const (.int (-7)) int8) (b := .const (.int 2) int8) rfl rfl
  obtain ⟨c, hc, -, hvalue⟩ := hbuild .mod int8 _ _ (.inr rfl) ⟨rfl, rfl⟩ hoperands (by decide) (by decide) (by decide)
  exact ⟨hfold, hcorrected, hquot (by decide), c, hc, fun f env => ⟨(hvalue f env).1, (hvalue f env).2 _ rfl⟩⟩

end Division

end TensorNest

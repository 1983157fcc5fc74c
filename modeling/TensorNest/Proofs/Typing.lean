import TensorNest.Proofs.Edit
import TensorNest.Proofs.Locality
import TensorNest.Proofs.Queries
import TensorNest.Proofs.Rounding

/-!
# Types of values

A value of a data type is made of as many numbers of its element type as the type has lanes, each as
conversion to the element type leaves it. The evaluation of a well-typed expression leaves the machine as it
is and, unless it fails, gives a value of the type of the expression (`WellTyped.quiet_eval`): operations
give as many lanes as their operands have, and their results are converted to the type of the expression.

Buffers are rows: a load at an index of some lanes reads as many elements. A call that is well-typed is one
of a mathematical function, the mark of a likely condition, or a choice that evaluates one branch.
-/

namespace TensorNest

/-! ### Steps that leave the machine as it is -/

namespace Run

variable {α β : Type} {x : Run α} {k : α → Run β} {P : α → Prop} {Q : β → Prop}

/-- A step leaves the machine as it is, and what it gives has a property. -/
def Quiet (x : Run α) (P : α → Prop) : Prop :=
  ∀ m, (on x m).2 = m ∧ ∀ a, (on x m).1 = .ok a → P a

theorem quiet_pure {a : α} (h : P a) : Quiet (pure a) P := fun _ => ⟨rfl, fun _ ha => Except.ok.inj ha ▸ h⟩

theorem quiet_throw {e : Error} : Quiet (throw e) P := by
  refine fun _ => ⟨rfl, fun a ha => ?_⟩
  have hne : Except.error e = Except.ok a := ha
  cases hne

theorem Quiet.bind (hx : Quiet x P) (hk : ∀ a, P a → Quiet (k a) Q) : Quiet (x >>= k) Q := by
  intro m
  obtain ⟨hm, ha⟩ := hx m
  rw [on_bind]
  rcases hr : on x m with ⟨_ | a, m'⟩
  · rw [hr] at hm
    exact ⟨hm, by simp⟩
  · rw [hr] at hm ha
    obtain rfl : m' = m := hm
    exact hk a (ha a rfl) m'

theorem Quiet.mono {P' : α → Prop} (hx : Quiet x P) (h : ∀ a, P a → P' a) : Quiet x P' :=
  fun m => ⟨(hx m).1, fun a ha => h a ((hx m).2 a ha)⟩

theorem quiet_get : Quiet (get : Run Machine) fun _ => True := fun _ => ⟨rfl, fun _ _ => trivial⟩

theorem quiet_lift {y : Except Error α} (h : ∀ a, y = .ok a → P a) : Quiet (liftM y) P := by
  rcases y with e | a
  · exact quiet_throw
  · exact quiet_pure (h a rfl)

end Run

open Run

/-! ### Lanes -/

namespace Packed

variable {α β : Type} {j k n : Int} {xs : Packed α} {ys : Packed β}

/-- Items in a number of lanes; one lane is a single item. -/
def HasLanes (n : Int) : Packed α → Prop
  | one _ => n = 1
  | many xs => 1 < n ∧ (xs.length : Int) = n

theorem HasLanes.pos (h : xs.HasLanes n) : 1 ≤ n := by
  cases xs with
  | one => exact h.ge
  | many => exact h.1.le

theorem HasLanes.map (h : xs.HasLanes n) (f : α → β) : (xs.map f).HasLanes n := by
  cases xs with
  | one => exact h
  | many xs => exact ⟨h.1, by simpa using h.2⟩

theorem length_of_mapM {f : α → Except Error β} {as : List α} {bs : List β} (h : as.mapM f = .ok bs) :
    bs.length = as.length := by
  induction as generalizing bs with
  | nil =>
    cases h
    rfl
  | cons a as ih =>
    rw [List.mapM_cons] at h
    obtain ⟨b, hb, h⟩ := bind_eq_ok.mp h
    obtain ⟨bs', hbs', h⟩ := bind_eq_ok.mp h
    cases h
    rw [List.length_cons, List.length_cons, ih hbs']

theorem HasLanes.mapM (h : xs.HasLanes n) {f : α → Except Error β} {ys : Packed β} (hf : xs.mapM f = .ok ys) :
    ys.HasLanes n := by
  cases xs with
  | one x =>
    obtain ⟨y, -, hy⟩ := bind_eq_ok.mp hf
    cases hy
    exact h
  | many xs =>
    obtain ⟨l, hl, hy⟩ := bind_eq_ok.mp hf
    cases hy
    exact ⟨h.1, by rw [length_of_mapM hl]; exact h.2⟩

/-- Items that go together lane by lane have the lanes of those that have more. -/
theorem HasLanes.zip (hx : xs.HasLanes j) (hy : ys.HasLanes k) {zs : Packed (α × β)} (h : xs.zip ys = .ok zs) :
    zs.HasLanes (max j k) := by
  cases xs with
  | one x =>
    obtain rfl : j = 1 := hx
    rw [max_eq_right hy.pos]
    cases ys with
    | one y =>
      cases h
      exact hy
    | many ys =>
      cases h
      exact ⟨hy.1, by simpa using hy.2⟩
  | many xs =>
    cases ys with
    | one y =>
      obtain rfl : k = 1 := hy
      rw [max_eq_left hx.1.le]
      rcases xs with _ | ⟨x, _ | ⟨x', xs⟩⟩ <;> (cases h; exact ⟨hx.1, by simpa using hx.2⟩)
    | many ys =>
      -- vectors have more than one lane, so that none of them is taken for a single item
      obtain ⟨hj, hxs⟩ := hx
      obtain ⟨hk, hys⟩ := hy
      obtain ⟨x, x', xs, rfl⟩ : ∃ x x' xs', xs = x :: x' :: xs' := by
        rcases xs with _ | ⟨x, _ | ⟨x', xs⟩⟩
        · simp at hxs; omega
        · simp at hxs; omega
        · exact ⟨x, x', xs, rfl⟩
      obtain ⟨y, y', ys, rfl⟩ : ∃ y y' ys', ys = y :: y' :: ys' := by
        rcases ys with _ | ⟨y, _ | ⟨y', ys⟩⟩
        · simp at hys; omega
        · simp at hys; omega
        · exact ⟨y, y', ys, rfl⟩
      simp only [Packed.zip] at h
      split_ifs at h with hlen
      cases h
      have hjk : j = k := by rw [← hxs, ← hys, hlen]
      subst hjk
      rw [max_self]
      refine ⟨hj, ?_⟩
      rw [List.length_zip, ← hlen, min_self]
      exact hxs

theorem length_of_spread {m : Nat} {l : List α} (h : xs.spread m = .ok l) : l.length = m := by
  rcases xs with x | _ | ⟨x, _ | ⟨x', xs⟩⟩
  · cases h
    simp
  · simp only [Packed.spread] at h
    split_ifs at h with hl
    cases h
    exact hl
  · cases h
    simp
  · simp only [Packed.spread] at h
    split_ifs at h with hl
    cases h
    exact hl

end Packed

namespace Numeric

variable {j k n : Int} {a b c r : Numeric} {t : ElemType}

/-- An operand has a number of lanes. -/
def HasLanes (n : Int) (a : Numeric) : Prop :=
  a.lanes.HasLanes n

theorem HasLanes.lanesIn (h : a.HasLanes n) {xs : Packed Number} (hxs : a.lanesIn t = .ok xs) : xs.HasLanes n := by
  cases a with
  | free x =>
    obtain ⟨y, -, hy⟩ := bind_eq_ok.mp hxs
    cases hy
    exact h
  | typed u ys =>
    cases hxs
    exact Packed.HasLanes.map h _

theorem HasLanes.lift (ha : a.HasLanes j) (hb : b.HasLanes k) {f : Number → Number → Except Error Number}
    (h : lift t f a b = .ok r) : r.HasLanes (Max.max j k) := by
  obtain ⟨xs, hxs, h⟩ := bind_eq_ok.mp h
  obtain ⟨ys, hys, h⟩ := bind_eq_ok.mp h
  obtain ⟨ps, hps, h⟩ := bind_eq_ok.mp h
  obtain ⟨zs, hzs, h⟩ := bind_eq_ok.mp h
  cases h
  exact ((ha.lanesIn hxs).zip (hb.lanesIn hys) hps).mapM hzs

theorem HasLanes.free {x : Number} (ha : (free x).HasLanes j) : j = 1 := ha

theorem hasLanes_map {x : Except Error Number} (h : Numeric.free <$> x = .ok r) : r.HasLanes 1 := by
  rcases x with _ | x
  · cases h
  · cases h
    exact rfl

theorem HasLanes.add (ha : a.HasLanes j) (hb : b.HasLanes k) (h : a.add b = .ok r) : r.HasLanes (Max.max j k) := by
  cases a with
  | free x =>
    cases b with
    | free y =>
      obtain rfl := ha.free
      obtain rfl := hb.free
      exact hasLanes_map h
    | typed u ys => exact ha.lift hb h
  | typed u xs => exact ha.lift hb h

theorem HasLanes.sub (ha : a.HasLanes j) (hb : b.HasLanes k) (h : a.sub b = .ok r) : r.HasLanes (Max.max j k) := by
  cases a with
  | free x =>
    cases b with
    | free y =>
      obtain rfl := ha.free
      obtain rfl := hb.free
      exact hasLanes_map h
    | typed u ys => exact ha.lift hb h
  | typed u xs => exact ha.lift hb h

theorem HasLanes.mul (ha : a.HasLanes j) (hb : b.HasLanes k) (h : a.mul b = .ok r) : r.HasLanes (Max.max j k) := by
  cases a with
  | free x =>
    cases b with
    | free y =>
      obtain rfl := ha.free
      obtain rfl := hb.free
      exact hasLanes_map h
    | typed u ys => exact ha.lift hb h
  | typed u xs => exact ha.lift hb h

theorem HasLanes.ratio (ha : a.HasLanes j) (hb : b.HasLanes k) (h : a.ratio b = .ok r) : r.HasLanes (Max.max j k) := by
  cases a with
  | free x =>
    cases b with
    | free y =>
      obtain rfl := ha.free
      obtain rfl := hb.free
      simp only [Numeric.ratio] at h
      split_ifs at h
      exact hasLanes_map h
    | typed u ys => exact ha.lift hb h
  | typed u xs => exact ha.lift hb h

theorem HasLanes.compare (ha : a.HasLanes j) (hb : b.HasLanes k) {op : BinOp} (h : a.compare op b = .ok r) :
    r.HasLanes (Max.max j k) := by
  simp only [Numeric.compare] at h
  split_ifs at h
  · obtain ⟨xs, hxs, h⟩ := bind_eq_ok.mp h
    obtain ⟨ys, hys, h⟩ := bind_eq_ok.mp h
    obtain ⟨ps, hps, h⟩ := bind_eq_ok.mp h
    cases h
    exact ((ha.lanesIn hxs).zip (hb.lanesIn hys) hps).map _
  · obtain ⟨ps, hps, h⟩ := bind_eq_ok.mp h
    cases h
    exact (Packed.HasLanes.zip ha hb hps).map _

theorem HasLanes.connect (ha : a.HasLanes j) (hb : b.HasLanes k) {f : Bool → Bool → Bool} (h : a.connect f b = .ok r) :
    r.HasLanes (Max.max j k) := by
  obtain ⟨ps, hps, h⟩ := bind_eq_ok.mp h
  cases h
  exact (Packed.HasLanes.zip ha hb hps).map _

theorem HasLanes.not (ha : a.HasLanes n) : a.not.HasLanes n := Packed.HasLanes.map ha _

/-- The result of an operation has the lanes of the operand that has more. -/
theorem HasLanes.arithmetic (ha : a.HasLanes j) (hb : b.HasLanes k) {op : BinOp} {u : DataType}
    (h : arithmetic op u a b = .ok r) :
    r.HasLanes (Max.max j k) := by
  cases op with
  | add => exact ha.add hb h
  | sub => exact ha.sub hb h
  | mul => exact ha.mul hb h
  | min | max => exact ha.lift hb h
  | div =>
    simp only [TensorNest.arithmetic] at h
    split_ifs at h
    · exact ha.ratio hb h
    · exact ha.lift hb h
  | mod =>
    simp only [TensorNest.arithmetic] at h
    split_ifs at h <;> exact ha.lift hb h
  | and | or => exact ha.connect hb h
  | _ => exact ha.compare hb h

theorem HasLanes.select (hc : c.HasLanes n) (ha : a.HasLanes j) (hb : b.HasLanes k) (h : c.select a b = .ok r) :
    r.HasLanes (Max.max n (Max.max j k)) := by
  obtain ⟨xs, hxs, h⟩ := bind_eq_ok.mp h
  obtain ⟨ys, hys, h⟩ := bind_eq_ok.mp h
  simp only at h
  rcases hz : (do c.lanes.zip (← xs.zip ys)) with _ | ps
  · rw [hz] at h
    cases h
  · rw [hz] at h
    cases h
    obtain ⟨qs, hqs, hps⟩ := bind_eq_ok.mp hz
    exact (Packed.HasLanes.zip hc ((ha.lanesIn hxs).zip (hb.lanesIn hys) hqs) hps).map _

/-- A ramp has as many lanes as it is made for. -/
theorem HasLanes.ramp (ha : a.HasLanes 1) (hb : b.HasLanes 1) (hn : 1 < n) (h : a.ramp b n = .ok r) : r.HasLanes n := by
  obtain ⟨s, hs, h⟩ := bind_eq_ok.mp h
  have hsteps : (typed (.int 64) (.many ((List.range n.toNat).map fun (i : Nat) => .int (i : Int)))).HasLanes n :=
    ⟨hn, by simp; omega⟩
  have := ha.add (hb.mul hsteps hs) h
  rwa [max_eq_right (by omega), max_eq_right (by omega)] at this

/-! ### Mathematical functions -/

theorem HasLanes.floatMap (ha : a.HasLanes n) {f : Float → Float} (h : a.floatMap f = .ok r) : r.HasLanes n := by
  obtain ⟨xs, hxs, h⟩ := bind_eq_ok.mp h
  cases h
  exact (ha.lanesIn hxs).map _

theorem HasLanes.map (ha : a.HasLanes n) {f : Int → Int} {g : Float → Float} (h : a.map f g = .ok r) : r.HasLanes n := by
  obtain ⟨xs, hxs, h⟩ := bind_eq_ok.mp h
  cases h
  exact (ha.lanesIn hxs).map _

theorem HasLanes.neg (ha : a.HasLanes n) (h : a.neg = .ok r) : r.HasLanes n := by
  cases a with
  | free x =>
    cases h
    exact ha
  | typed u xs => cases u <;> first | exact ha.map h | cases h

theorem HasLanes.sign (ha : a.HasLanes n) (h : a.sign = .ok r) : r.HasLanes n := by
  simp only [Numeric.sign] at h
  split at h
  · cases h
  · exact ha.map h

end Numeric

/-- A mathematical function gives as many lanes as its arguments have. -/
theorem MathFunction.hasLanes_apply {g : MathFunction} {as : List Numeric} {n : Int} (has : ∀ a ∈ as, a.HasLanes n)
    {r : Numeric}
    (h : g.apply as = .ok r) : r.HasLanes n := by
  have hone (x : Number) : (Numeric.free x).HasLanes 1 := rfl
  cases g <;> rcases as with _ | ⟨a, _ | ⟨b, _ | ⟨c, as⟩⟩⟩ <;> try cases h
  all_goals have ha := has a (by simp)
  case round.cons.nil =>
    obtain ⟨s, hs, h⟩ := bind_eq_ok.mp h
    obtain ⟨x, hx, h⟩ := bind_eq_ok.mp h
    obtain ⟨y, hy, h⟩ := bind_eq_ok.mp h
    obtain ⟨z, hz, h⟩ := bind_eq_ok.mp h
    have hy := (ha.map hx).add (hone _) hy
    rw [max_eq_left (Packed.HasLanes.pos ha)] at hy
    have := (ha.sign hs).mul (hy.map hz) h
    rwa [max_self] at this
  case sigmoid.cons.nil =>
    obtain ⟨x, hx, h⟩ := bind_eq_ok.mp h
    obtain ⟨y, hy, h⟩ := bind_eq_ok.mp h
    obtain ⟨z, hz, h⟩ := bind_eq_ok.mp h
    have hz := (hone (.int 1)).add ((ha.neg hx).floatMap hy) hz
    rw [max_eq_right (Packed.HasLanes.pos ha)] at hz
    have := (hone (.int 1)).ratio hz h
    rwa [max_eq_right (Packed.HasLanes.pos ha)] at this
  case popcount.cons.nil =>
    obtain ⟨xs, hxs, h⟩ := bind_eq_ok.mp h
    obtain ⟨ys, hys, h⟩ := bind_eq_ok.mp h
    cases h
    exact (ha.lanesIn hxs).mapM hys
  case pow.cons.cons.nil =>
    have := ha.lift (has b (by simp)) h
    rwa [max_self] at this
  all_goals first | exact ha.floatMap h | exact ha.map h

/-! ### Values of a type -/

/-- Memory can hold the elements of a data type. -/
def DataType.Numerical (t : DataType) : Prop :=
  ∃ et, t.elemType = .ok et

/-- A value of a data type: as many numbers of its element type as it has lanes. -/
def Value.HasType (t : DataType) (x : Value) : Prop :=
  ∃ et xs, t.elemType = .ok et ∧ x = .ofNumeric (.typed et xs) ∧ xs.HasLanes t.lanes ∧ ∀ y ∈ xs.toList, et.convert y = y

section Values
variable {t u : DataType} {et : ElemType} {x y : Value} {a r : Numeric} {m : Memory} {n : Int}

theorem numeric_ofNumeric (a : Numeric) (m : Memory) : (Value.ofNumeric a).numeric m = .ok a := by
  rcases a with _ | ⟨_, _ | _⟩ <;> rfl

/-- The numbers of a value of a type. -/
theorem Value.HasType.numeric (h : x.HasType t) :
    ∃ et xs, t.elemType = .ok et ∧ (∀ m, x.numeric m = .ok (.typed et xs)) ∧ xs.HasLanes t.lanes ∧
      ∀ y ∈ xs.toList, et.convert y = y := by
  obtain ⟨et, xs, het, rfl, hxs⟩ := h
  exact ⟨et, xs, het, numeric_ofNumeric _, hxs⟩

theorem Value.HasType.hasLanes (h : x.HasType t) : ∃ a, (∀ m, x.numeric m = .ok a) ∧ a.HasLanes t.lanes := by
  obtain ⟨et, xs, -, hx, hlanes, -⟩ := h.numeric
  exact ⟨_, hx, hlanes⟩

theorem toList_map {α β : Type} (f : α → β) (xs : Packed α) : (xs.map f).toList = xs.toList.map f := by
  cases xs <;> rfl

theorem not_isHandle (het : t.elemType = .ok et) : t.isHandle = false := by
  have hbool : DataType.isBool t = false ∨ t.code = .uint := by
    by_cases h : t.isBool
    · simp only [DataType.isBool, Bool.and_eq_true, beq_iff_eq] at h
      exact .inr h.1
    · exact .inl (by simpa using h)
  by_contra h
  have hcode : t.code = .handle := by simpa [DataType.isHandle] using h
  rcases hbool with hb | hb
  · simp [DataType.elemType, hb, hcode] at het
  · simp [hb] at hcode

/-- The elements of memory have some bits. -/
theorem bits_pos (het : t.elemType = .ok et) : ∀ bits, et = .int bits ∨ et = .uint bits → 0 < bits := by
  rintro bits hbits
  have hwidth {b : Nat} (hb : b ∈ intWidths) : 0 < b := by
    simp only [intWidths, List.mem_cons, List.not_mem_nil, or_false] at hb
    omega
  cases hbool : t.isBool with
  | true =>
    simp only [DataType.elemType, hbool, if_true, Except.ok.injEq] at het
    simp [← het] at hbits
  | false =>
    cases hcode : t.code with
    | handle => simp [DataType.elemType, hbool, hcode] at het
    | float =>
      simp only [DataType.elemType, hbool, hcode, Bool.false_eq_true, if_false] at het
      split_ifs at het
      cases het
      simp at hbits
    | int | uint =>
      simp only [DataType.elemType, hbool, hcode, Bool.false_eq_true, if_false] at het
      split_ifs at het with hmem
      cases het
      simp only [ElemType.int.injEq, ElemType.uint.injEq, reduceCtorEq, or_false, false_or] at hbits
      exact hbits ▸ hwidth (by simpa using hmem)

theorem ElemType.wrap_of_holds {n : Int} (hbits : ∀ bits, et = .int bits ∨ et = .uint bits → 0 < bits) (h : et.holds n)
    (hint : et.isFloat = false) : et.wrap n = n := by
  simp only [ElemType.holds, Bool.and_eq_true, decide_eq_true_eq] at h
  cases et with
  | bool =>
    simp only [ElemType.least, ElemType.greatest] at h
    have : n = 0 ∨ n = 1 := by omega
    rcases this with rfl | rfl <;> rfl
  | int bits =>
    obtain ⟨k, rfl⟩ : ∃ k, bits = k + 1 := ⟨bits - 1, by have := hbits bits (.inl rfl); omega⟩
    simp only [ElemType.least, ElemType.greatest, Nat.add_one_sub_one, Nat.pow_eq] at h
    rw [ElemType.wrap, Nat.pow_eq, pow_succ]
    exact Int.bmod_eq_of_le (by omega) (by omega)
  | uint bits =>
    simp only [ElemType.least, ElemType.greatest, Nat.pow_eq] at h
    rw [ElemType.wrap, Nat.pow_eq]
    exact Int.emod_eq_of_lt h.1 (by omega)
  | float bits => cases hint

/-- What a number is taken to in an integer type. -/
theorem ElemType.ofNumber_integer (hfloat : et.isFloat = false) (hbool : et ≠ .bool) {x y : Number}
    (h : et.ofNumber x = .ok y) :
    ∃ n, y = .int n ∧ (et.holds n ∨ et.wrap n = n) := by
  cases et with
  | bool => exact absurd rfl hbool
  | float => cases hfloat
  | int bits | uint bits =>
    obtain ⟨n, -, h⟩ := bind_eq_ok.mp h
    split_ifs at h with hholds
    all_goals first
      | (cases h; exact ⟨_, rfl, .inr (ElemType.wrap_wrap _ _)⟩)
      | (cases h; exact ⟨_, rfl, .inl hholds⟩)
      | (have hne : Except.error Error.overflow = Except.ok y := h; cases hne)

/-- A number that is taken to a type is one of the type. -/
theorem ElemType.convert_ofNumber (het : t.elemType = .ok et) {x y : Number} (h : et.ofNumber x = .ok y) :
    et.convert y = y := by
  have hint (hfloat : et.isFloat = false) (hbool : et ≠ .bool) : ∃ n, y = .int n ∧ et.wrap n = n := by
    obtain ⟨n, hy, hn⟩ := ElemType.ofNumber_integer hfloat hbool h
    exact ⟨n, hy, hn.elim (fun hn => ElemType.wrap_of_holds (bits_pos het) hn hfloat) id⟩
  cases et with
  | bool =>
    cases h
    rfl
  | float bits =>
    obtain ⟨z, -, hz⟩ := bind_eq_ok.mp h
    cases hz
    simp [ElemType.convert, Number.split, ElemType.rounded_rounded]
  | int bits | uint bits =>
    obtain ⟨n, rfl, hn⟩ := hint rfl (by simp)
    simp [ElemType.convert, Number.split, hn]

theorem cast_ofNumeric (het : t.elemType = .ok et) (a : Numeric) (m : Memory) : (Value.ofNumeric a).cast m t =
    if 1 < t.lanes then (do return Value.ofNumeric (← a.spread et t.lanes.toNat))
    else do return .ofNumeric (← a.cast et) := by
  rw [Value.cast, not_isHandle het, show t.element.elemType = .ok et from het]
  rcases a with _ | ⟨_, _ | _⟩ <;> rfl

theorem spread_eq_ok {b : Numeric} {k : Nat} (h : a.spread et k = .ok b) :
    ∃ xs : List Number, b = .typed et (.many (xs.map et.convert)) ∧ xs.length = k := by
  have hlist (xs : Packed Number) (h : (do return Numeric.typed et (.many ((← xs.spread k).map et.convert))) =
      Except.ok b) :
      ∃ xs : List Number, b = .typed et (.many (xs.map et.convert)) ∧ xs.length = k := by
    obtain ⟨l, hl, h⟩ := bind_eq_ok.mp h
    cases h
    exact ⟨l, rfl, Packed.length_of_spread hl⟩
  cases a with
  | typed u xs => exact hlist xs h
  | free x =>
    simp only [Numeric.spread] at h
    split_ifs at h
    · exact hlist (.one x) h
    · obtain ⟨xs, -, h⟩ := bind_eq_ok.mp h
      exact hlist _ h

/-- What conversion to a data type gives for numbers is a value of the type, if they have its lanes or it is a vector. -/
theorem hasType_cast (het : t.elemType = .ok et) (ha : a.HasLanes n) (hn : n = t.lanes ∨ 1 < t.lanes)
    (h : (Value.ofNumeric a).cast m t = .ok y) : y.HasType t := by
  rw [cast_ofNumeric het] at h
  split_ifs at h with hvector
  · obtain ⟨b, hb, h⟩ := bind_eq_ok.mp h
    cases h
    obtain ⟨xs, rfl, hlen⟩ := spread_eq_ok hb
    refine ⟨et, _, het, rfl, ⟨hvector, ?_⟩, ?_⟩
    · rw [List.length_map, hlen]
      omega
    · intro y hy
      obtain ⟨z, -, rfl⟩ := List.mem_map.mp hy
      exact et.convert_convert z
  · obtain ⟨b, hb, h⟩ := bind_eq_ok.mp h
    cases h
    obtain ⟨xs, hxs, hb⟩ := bind_eq_ok.mp hb
    cases hb
    have hlanes := ha.lanesIn hxs
    refine ⟨et, xs, het, rfl, by rcases hn with rfl | hn <;> first | exact hlanes | omega, ?_⟩
    cases a with
    | free x =>
      obtain ⟨z, hz, hxs⟩ := bind_eq_ok.mp hxs
      cases hxs
      simpa [Packed.toList] using ElemType.convert_ofNumber het hz
    | typed u ys =>
      cases hxs
      rw [toList_map]
      intro y hy
      obtain ⟨z, -, rfl⟩ := List.mem_map.mp hy
      exact et.convert_convert z

end Values

/-! ### Steps on values of a type -/

section Steps
variable {t u : DataType} {et : ElemType} {x y c : Value} {a : Numeric} {n k : Int} {f : Frame} {v : Expr}

theorem quiet_operand (hx : x.HasType t) : Quiet (operand x) (·.HasLanes t.lanes) := by
  obtain ⟨a, ha, hlanes⟩ := hx.hasLanes
  refine quiet_get.bind fun m _ => quiet_lift fun b hb => ?_
  rw [ha m.memory] at hb
  cases hb
  exact hlanes

theorem quiet_convertTo (ht : t.Numerical) (ha : a.HasLanes n) (hn : n = t.lanes ∨ 1 < t.lanes) :
    Quiet (convertTo t (.ofNumeric a)) (·.HasType t) := by
  obtain ⟨et, het⟩ := ht
  exact quiet_get.bind fun m _ => quiet_lift fun y hy => hasType_cast het ha hn hy

theorem quiet_condition (hx : x.HasType t) : Quiet (condition x) (·.HasLanes t.lanes) := by
  obtain ⟨a, ha, hlanes⟩ := hx.hasLanes
  refine quiet_get.bind fun m _ => ?_
  simp only [ha m.memory]
  exact quiet_pure hlanes

/-- An operand is made of truth values. -/
def Numeric.IsTruth (a : Numeric) : Prop :=
  ∃ xs : Packed Number, a = .typed .bool xs ∧ ∀ y ∈ xs.toList, ∃ b, y = .bool b

theorem isTruth_map {α : Type} (g : α → Bool) (ps : Packed α) :
    (Numeric.typed .bool (ps.map fun p => .bool (g p))).IsTruth := by
  refine ⟨_, rfl, ?_⟩
  rw [toList_map]
  intro y hy
  obtain ⟨p, -, rfl⟩ := List.mem_map.mp hy
  exact ⟨_, rfl⟩

theorem Numeric.IsTruth.hasType (h : a.IsTruth) (ha : a.HasLanes n) :
    (Value.ofNumeric a).HasType (DataType.bool.withLanes n) := by
  obtain ⟨xs, rfl, hxs⟩ := h
  refine ⟨.bool, xs, rfl, rfl, ha, fun y hy => ?_⟩
  obtain ⟨b, rfl⟩ := hxs y hy
  rfl

theorem isTruth_arithmetic {op : BinOp} (hop : op.isLogical) {a b r : Numeric} (h : arithmetic op u a b = .ok r) :
    r.IsTruth := by
  have hcompare {op : BinOp} (h : a.compare op b = .ok r) : r.IsTruth := by
    simp only [Numeric.compare] at h
    split_ifs at h
    · obtain ⟨xs, hxs, h⟩ := bind_eq_ok.mp h
      obtain ⟨ys, hys, h⟩ := bind_eq_ok.mp h
      obtain ⟨ps, hps, h⟩ := bind_eq_ok.mp h
      cases h
      exact isTruth_map _ _
    · obtain ⟨ps, hps, h⟩ := bind_eq_ok.mp h
      cases h
      exact isTruth_map _ _
  cases op with
  | and | or =>
    obtain ⟨ps, hps, h⟩ := bind_eq_ok.mp h
    cases h
    exact isTruth_map _ _
  | eq | ne | lt | le | gt | ge => exact hcompare h
  | _ => cases hop

/-- An operation on numbers. -/
theorem combine_ofNumeric (op : BinOp) (u : DataType) (a b : Numeric) : combine op u (.ofNumeric a) (.ofNumeric b) = (do
    let r ← arithmetic op u a b
    if op.isLogical then pure (.ofNumeric r) else convertTo u (.ofNumeric r)) := by
  rcases a with _ | ⟨_, _ | _⟩ <;> rcases b with _ | ⟨_, _ | _⟩ <;> cases op <;> rfl

theorem quiet_combine {op : BinOp} (hx : x.HasType t) (hy : y.HasType t) (hu : u.Numerical) (hlanes : u.lanes = t.lanes) :
    Quiet (combine op u x y) (·.HasType (if op.isLogical then DataType.bool.withLanes t.lanes else u)) := by
  obtain ⟨et, xs, -, rfl, hxs, -⟩ := hx
  obtain ⟨et', ys, -, rfl, hys, -⟩ := hy
  have ha : (Numeric.typed et xs).HasLanes t.lanes := hxs
  have hb : (Numeric.typed et' ys).HasLanes t.lanes := hys
  rw [combine_ofNumeric]
  refine (quiet_lift (P := fun r => r.HasLanes t.lanes ∧ (op.isLogical → r.IsTruth)) fun r hr =>
    ⟨?_, fun hop => isTruth_arithmetic hop hr⟩).bind
    fun r hr => ?_
  · have := ha.arithmetic hb hr
    rwa [max_self] at this
  · by_cases hop : op.isLogical
    · rw [if_pos hop, if_pos hop]
      exact quiet_pure ((hr.2 hop).hasType hr.1)
    · rw [if_neg hop, if_neg hop]
      exact quiet_convertTo hu hr.1 (.inl hlanes.symm)

theorem quiet_chosen (hc : c.HasType u) (hx : x.HasType t) (hy : y.HasType t) (hlanes : u.lanes = 1 ∨ u.lanes = t.lanes) :
    Quiet (chosen c x y) fun v => ∃ r, v = Value.ofNumeric r ∧ r.HasLanes t.lanes := by
  obtain ⟨a, ha, hal⟩ := hx.hasLanes
  obtain ⟨b, hb, hbl⟩ := hy.hasLanes
  refine quiet_get.bind fun m _ => ?_
  simp only [ha m.memory, hb m.memory]
  refine (quiet_condition hc).bind fun p hp => (quiet_lift (P := (·.HasLanes t.lanes)) fun r hr => ?_).bind fun r hr =>
    quiet_pure ⟨r, rfl, hr⟩
  have hr := hp.select hal hbl hr
  have hpos := Packed.HasLanes.pos hal
  rwa [max_self, max_eq_right (by omega)] at hr

end Steps

/-! ### Well-typed expressions -/

/-- The data types of the variables. -/
abbrev Signature := Nat → DataType

/-- A value that a variable of a data type can have: a number if it is a type of scalars. Arrays are rows. -/
structure Value.Fits (t : DataType) (x : Value) : Prop where
  number : t.Numerical → t.lanes = 1 → x.HasType t
  row : ∀ a, x = .array a → a.rank = 1

/-- The values of all variables fit their data types. -/
def Env.Fits (Γ : Signature) (env : Env) : Prop :=
  ∀ v x, env.get? v = some x → x.Fits (Γ v.id)

/-- Names of functions that work lane by lane. -/
def IsElementwise (name : String) : Prop :=
  name ≠ "xte_if_then_else" ∧ name ≠ "xte_address_of" ∧ Intrinsic.ofName? name = none ∧ (MathFunction.ofName? name).isSome

/-- An expression over variables of some data types whose parts have the data types and the lanes that go together. -/
inductive Expr.WellTyped (Γ : Signature) : Expr → Prop
  | var {v : Var} (h : Γ v.id = v.dtype) (ht : v.dtype.Numerical) (hlanes : v.dtype.lanes = 1) : WellTyped Γ (var v)
  | const {x : Number} {t : DataType} (ht : t.Numerical) (hlanes : t.lanes = 1) : WellTyped Γ (const x t)
  | cast {t : DataType} {a : Expr} (ha : WellTyped Γ a) (ht : t.Numerical)
    (hlanes : a.dtype.lanes = t.lanes ∨ 1 < t.lanes) :
    WellTyped Γ (cast t a)
  | bin {op : BinOp} {a b : Expr} (ha : WellTyped Γ a) (hb : WellTyped Γ b)
    (h : a.dtype = b.dtype) : WellTyped Γ (bin op a b)
  | not {a : Expr} (ha : WellTyped Γ a) (h : a.dtype.isBool) : WellTyped Γ (not a)
  | select {c a b : Expr} (hc : WellTyped Γ c) (ha : WellTyped Γ a) (hb : WellTyped Γ b) (h : a.dtype = b.dtype)
    (hlanes : c.dtype.lanes = 1 ∨ c.dtype.lanes = a.dtype.lanes) : WellTyped Γ (select c a b)
  | choice {c a b : Expr} {kind : CallKind} {func : Option OpRef} {index : Ordinal} (hkind : kind ≠ .tensorRead)
    (hc : WellTyped Γ c)
    (ha : WellTyped Γ a) (hb : WellTyped Γ b) (h : a.dtype = b.dtype) :
    WellTyped Γ (call a.dtype "xte_if_then_else" [c, a, b] kind func index)
  | likely {a : Expr} {kind : CallKind} {func : Option OpRef} {index : Ordinal} (hkind : kind ≠ .tensorRead)
    (ha : WellTyped Γ a) :
    WellTyped Γ (call a.dtype "likely" [a] kind func index)
  | call {t : DataType} {name : String} {args : List Expr} {kind : CallKind} {func : Option OpRef} {index : Ordinal}
    (hkind : kind ≠ .tensorRead) (hname : IsElementwise name) (hargs : ∀ a ∈ args, WellTyped Γ a) (ht : t.Numerical)
    (hlanes : ∀ a ∈ args, a.dtype.lanes = t.lanes) : WellTyped Γ (call t name args kind func index)
  | bind {v : Var} {value body : Expr} (hvalue : WellTyped Γ value) (h : Γ v.id = value.dtype)
    (hlanes : value.dtype.lanes = 1)
    (hbody : WellTyped Γ body) : WellTyped Γ (bind v value body)
  | load {t : DataType} {v : Var} {index : Expr} {pred : Option Expr} (hindex : WellTyped Γ index)
    (hbool : ¬index.dtype.isBool)
    (hlanes : index.dtype.lanes = t.lanes) (ht : t.Numerical) (hpred : ∀ p ∈ pred, WellTyped Γ p)
    (hmask : ∀ p ∈ pred, p.dtype.lanes = 1 ∨ p.dtype.lanes = t.lanes) : WellTyped Γ (load t (.var v) index pred)
  | ramp {base stride : Expr} {lanes : Int} (hbase : WellTyped Γ base) (hstride : WellTyped Γ stride)
    (h : base.dtype.lanes = 1)
    (h' : stride.dtype.lanes = 1) (hlanes : 1 < lanes) : WellTyped Γ (ramp base stride lanes)
  | broadcast {a : Expr} {lanes : Int} (ha : WellTyped Γ a) (h : a.dtype.lanes = 1) (hlanes : 1 < lanes) :
    WellTyped Γ (broadcast a lanes)

section Soundness
variable {Γ : Signature} {f : Frame} {env : Env} {e : Expr} {t : DataType} {et : ElemType} {x : Value} {v : Var} {n : Int}

theorem DataType.Numerical.withLanes (h : t.Numerical) (n : Int) : (t.withLanes n).Numerical := h

theorem DataType.numerical_bool (n : Int) : (DataType.bool.withLanes n).Numerical := ⟨.bool, rfl⟩

theorem Expr.WellTyped.numerical (h : e.WellTyped Γ) : e.dtype.Numerical := by
  induction h with
  | var _ ht _ => exact ht
  | const ht _ => exact ht
  | cast _ ht _ _ => exact ht
  | @bin op a b _ _ _ iha _ =>
    cases op <;> first | exact iha | exact DataType.numerical_bool _
  | not _ _ ih => exact ih
  | select _ _ _ _ _ _ iha _ => exact iha
  | choice _ _ _ _ _ _ iha _ => exact iha
  | likely _ _ ih => exact ih
  | call _ _ _ ht _ _ => exact ht
  | bind _ _ _ _ _ ih => exact ih
  | load _ _ _ ht _ _ _ _ => exact ht
  | ramp _ _ _ _ _ ih _ => exact ih.withLanes _
  | broadcast _ _ _ ih => exact ih.withLanes _

theorem DataType.eq_bool_of_isBool (h : t.isBool) : t = DataType.bool.withLanes t.lanes := by
  obtain ⟨code, bits, lanes⟩ := t
  simp only [DataType.isBool, Bool.and_eq_true, beq_iff_eq] at h
  obtain ⟨rfl, rfl⟩ := h
  rfl

/-- A number fits its data type. -/
theorem Value.HasType.fits (h : x.HasType t) : x.Fits t where
  number _ _ := h
  row a ha := by
    obtain ⟨_, _ | _, -, rfl, -⟩ := h <;> cases ha

theorem Env.Fits.set (henv : env.Fits Γ) (h : x.Fits (Γ v.id)) : (env.set v x).Fits Γ := by
  intro w y hy
  by_cases hw : w.id = v.id
  · have hself : (env.set v x).get? w = some x := (congrArg (List.lookup · (env.set v x)) hw).trans Env.lookup_set_self
    rw [hself] at hy
    cases hy
    exact hw ▸ h
  · exact henv w y (hy ▸ (Env.lookup_set hw).symm)

/-- A scalar is bound as it is. -/
theorem place_of_hasType (h : x.HasType t) (hlanes : t.lanes = 1) : place x = pure x := by
  obtain ⟨et, xs, -, rfl, hxs, -⟩ := h
  cases xs with
  | one y => rfl
  | many ys => exact absurd hlanes hxs.1.ne'

theorem quiet_place (h : x.HasType t) (hlanes : t.lanes = 1) : Quiet (place x) (·.HasType t) := by
  rw [place_of_hasType h hlanes]
  exact quiet_pure h

/-! Loads from rows. -/

theorem length_flatMap_elements (ws : List View) (h : ∀ w ∈ ws, w.rank = 0) (m : Memory) :
    (ws.flatMap fun w => w.elements m).length = ws.length := by
  induction ws with
  | nil => rfl
  | cons w ws ih =>
    have hw : (w.elements m).length = 1 := by
      have hrank := h w (by simp)
      simp only [View.rank, List.length_eq_zero_iff] at hrank
      simp [View.elements, View.addresses, hrank, View.addressesFrom]
    rw [List.flatMap_cons, List.length_append, ih fun w hw => h w (by simp [hw]), hw, List.length_cons, Nat.add_comm]

theorem rank_part {a w : View} {y : Number} (ha : a.rank = 1) (h : a.part y = .ok w) : w.rank = 0 := by
  obtain ⟨d, hd⟩ := List.length_eq_one_iff.mp ha
  cases y with
  | int i =>
    simp only [View.part, View.at?, hd] at h
    cases hs : a.strides with
    | nil => simp [hs] at h
    | cons s ss =>
      simp only [hs] at h
      split_ifs at h
      cases h
      rfl
  | _ => cases h

theorem forall_of_mapM {α β : Type} {g : α → Except Error β} {P : β → Prop} (hg : ∀ a b, g a = .ok b → P b) {xs : Packed α}
    {ys : Packed β} (h : xs.mapM g = .ok ys) : ∀ y ∈ ys.toList, P y := by
  cases xs with
  | one a =>
    obtain ⟨b, hb, h⟩ := bind_eq_ok.mp h
    cases h
    simpa [Packed.toList] using hg a b hb
  | many as =>
    obtain ⟨bs, hbs, h⟩ := bind_eq_ok.mp h
    cases h
    clear h
    induction as generalizing bs with
    | nil =>
      cases hbs
      simp [Packed.toList]
    | cons a as ih =>
      rw [List.mapM_cons] at hbs
      obtain ⟨b, hb, hbs⟩ := bind_eq_ok.mp hbs
      obtain ⟨bs', hbs', hbs⟩ := bind_eq_ok.mp hbs
      cases hbs
      intro y hy
      rcases List.mem_cons.mp hy with rfl | hy
      · exact hg a _ hb
      · exact ih bs' hbs' y hy

/-- An index other than one of truth values chooses by position. -/
theorem choose_of_ne_bool (a : View) {i : Numeric} (hbool : i.type ≠ .bool) : a.choose i = i.lanes.mapM a.part := by
  rcases i with (_ | _ | _ | _) | ⟨_ | _ | _ | _, _⟩ <;> first | rfl | exact absurd rfl hbool

/-- An index of some lanes chooses as many elements of a row. -/
theorem quiet_loadAt {a : View} {i : Numeric} (ha : a.rank = 1) (hi : i.HasLanes n) (hbool : i.type ≠ .bool) :
    Quiet (loadAt a i) fun y => ∃ r, y = .ofNumeric r ∧ r.HasLanes n := by
  refine quiet_get.bind fun m _ => (quiet_lift (P := fun ws => ws.HasLanes n ∧ ∀ w ∈ ws.toList, w.rank = 0) fun ws hws =>
    ?_).bind
    fun ws hws => ?_
  · rw [choose_of_ne_bool a hbool] at hws
    exact ⟨Packed.HasLanes.mapM hi hws, forall_of_mapM (fun _ _ h => rank_part ha h) hws⟩
  · obtain ⟨hlanes, hrank⟩ := hws
    cases ws with
    | one w =>
      have hw : w.rank = 0 := hrank w (by simp [Packed.toList])
      simp only [hw, if_true]
      exact quiet_pure ⟨.typed a.type (.one (m.memory.read w.storage w.offset)), rfl, hlanes⟩
    | many ws =>
      refine quiet_pure ⟨.typed a.type (.many (ws.flatMap fun w => w.elements m.memory)), rfl, hlanes.1, ?_⟩
      rw [length_flatMap_elements ws hrank, hlanes.2]

theorem elemType_ne_bool (het : t.elemType = .ok et) (hbool : ¬t.isBool) : et ≠ .bool := by
  rintro rfl
  cases hcode : t.code <;> simp [DataType.elemType, hbool, hcode] at het <;> (split_ifs at het; cases het)

/-- A value of a type other than that of truth values has numbers of another type. -/
theorem quiet_index (hx : x.HasType t) (hbool : ¬t.isBool) :
    Quiet (operand x) fun i => i.HasLanes t.lanes ∧ ∃ et xs, i = .typed et xs ∧ et ≠ .bool := by
  obtain ⟨et, xs, het, hnumeric, hlanes, -⟩ := hx.numeric
  refine quiet_get.bind fun m _ => quiet_lift fun i hi => ?_
  rw [hnumeric m.memory] at hi
  cases hi
  exact ⟨hlanes, et, xs, rfl, elemType_ne_bool het hbool⟩

theorem Numeric.type_select {a b c r : Numeric} (h : c.select a b = .ok r) : r.type = a.joined b := by
  obtain ⟨xs, hxs, h⟩ := bind_eq_ok.mp h
  obtain ⟨ys, hys, h⟩ := bind_eq_ok.mp h
  simp only at h
  rcases hz : (do c.lanes.zip (← xs.zip ys)) with _ | ps
  · rw [hz] at h
    cases h
  · rw [hz] at h
    cases h
    rfl

theorem quiet_loadFrom {u : DataType} {a : View} {buffer : Expr} {mask : Option Value} (ha : a.rank = 1)
    (hx : x.HasType u) (hbool : ¬u.isBool)
    (hmask : ∀ p ∈ mask, ∃ w, p.HasType w ∧ (w.lanes = 1 ∨ w.lanes = u.lanes)) :
    Quiet (loadFrom f buffer a x mask) fun y => ∃ r, y = .ofNumeric r ∧ r.HasLanes u.lanes := by
  have hload (i : Numeric) (hi : i.HasLanes u.lanes ∧ i.type ≠ .bool) :
      Quiet (do liftM (f.checkIndex buffer a i); loadAt a i) fun y => ∃ r, y = .ofNumeric r ∧ r.HasLanes u.lanes :=
    (quiet_lift (P := fun _ => True) fun _ _ => trivial).bind fun _ _ => quiet_loadAt ha hi.1 hi.2
  cases mask with
  | none =>
    refine (quiet_index hx hbool).bind fun i hi => hload i ⟨hi.1, ?_⟩
    obtain ⟨-, et, xs, rfl, het⟩ := hi
    exact het
  | some p =>
    obtain ⟨w, hp, hw⟩ := hmask p rfl
    refine (quiet_index hx hbool).bind fun i hi => (quiet_operand hp).bind fun c hc =>
      (quiet_lift (P := fun i => i.HasLanes u.lanes ∧ i.type ≠ .bool) fun r hr => ?_).bind hload
    have hlanes := hc.select hi.1 (show (Numeric.free (.int 0)).HasLanes 1 from rfl) hr
    have hpos := Packed.HasLanes.pos hi.1
    refine ⟨by rwa [max_eq_left hpos, max_eq_right (by omega)] at hlanes, ?_⟩
    obtain ⟨-, et, xs, rfl, het⟩ := hi
    rw [Numeric.type_select hr]
    cases et <;> first | exact absurd rfl het | simp [Numeric.joined, ElemType.joinNumber]

/-! ### Evaluation -/

theorem quiet_buffer (henv : env.Fits Γ) : Quiet (liftM (f.buffer env (.var v)) : Run View) fun a => a.rank = 1 := by
  refine quiet_lift fun a ha => ?_
  simp only [Frame.buffer] at ha
  cases hv : env.get? v with
  | none => simp [hv] at ha
  | some x =>
    cases x <;> simp only [hv] at ha <;> cases ha
    exact (henv v _ hv).row _ rfl

theorem quiet_evalAll {args : List Expr} (h : ∀ a ∈ args, Quiet (a.eval f env) (·.HasType a.dtype)) :
    Quiet (Expr.eval.evalAll f env args) fun xs => ∀ x ∈ xs, ∃ a ∈ args, x.HasType a.dtype := by
  induction args with
  | nil => exact quiet_pure (by simp)
  | cons a args ih =>
    refine (h a (by simp)).bind fun x hx => (ih fun a ha => h a (by simp [ha])).bind fun xs hxs => quiet_pure fun y hy => ?_
    rcases List.mem_cons.mp hy with rfl | hy
    · exact ⟨a, by simp, hx⟩
    · obtain ⟨b, hb, hyb⟩ := hxs y hy
      exact ⟨b, by simp [hb], hyb⟩

theorem quiet_operands {xs : List Value} (h : ∀ x ∈ xs, ∃ t, x.HasType t ∧ t.lanes = n) :
    Quiet (xs.mapM operand) fun as => ∀ a ∈ as, a.HasLanes n := by
  induction xs with
  | nil => exact quiet_pure (by simp)
  | cons x xs ih =>
    rw [List.mapM_cons]
    obtain ⟨t, hx, rfl⟩ := h x (by simp)
    refine (quiet_operand hx).bind fun a ha => (ih fun x hx => h x (by simp [hx])).bind fun as has => quiet_pure ?_
    simpa using ⟨ha, has⟩

theorem quiet_callNamed {name : String} {xs : List Value} (hname : IsElementwise name) (ht : t.Numerical)
    (h : ∀ x ∈ xs, ∃ u, x.HasType u ∧ u.lanes = t.lanes) : Quiet (callNamed f t name xs) (·.HasType t) := by
  obtain ⟨-, -, hnone, hsome⟩ := hname
  obtain ⟨g, hg⟩ := Option.isSome_iff_exists.mp hsome
  simp only [callNamed, hnone, hg]
  refine (quiet_operands h).bind fun as has => (quiet_lift (P := (·.HasLanes t.lanes)) fun r hr => ?_).bind fun r hr =>
    quiet_convertTo ht hr (.inl rfl)
  exact MathFunction.hasLanes_apply has hr

/-- The evaluation of a well-typed expression leaves the machine as it is and gives a value of the type of the
    expression. -/
theorem Expr.WellTyped.quiet_eval (h : e.WellTyped Γ) (henv : env.Fits Γ) : Quiet (e.eval f env) (·.HasType e.dtype) := by
  induction h generalizing env with
  | @var v h ht hlanes =>
    unfold Expr.eval
    cases hv : env.get? v with
    | none => exact quiet_throw
    | some x =>
      have hx := (henv v x hv).number
      rw [h] at hx
      exact quiet_pure (hx ht hlanes)
  | @const x t ht hlanes => exact quiet_convertTo (a := .free x) ht (n := 1) rfl (.inl hlanes.symm)
  | @cast t a _ ht hlanes ih =>
    refine (ih henv).bind fun x hx => ?_
    obtain ⟨et, xs, -, rfl, hxs, -⟩ := hx
    exact quiet_convertTo (a := .typed et xs) ht hxs hlanes
  | @bin op a b ha _ h iha ihb =>
    exact (iha henv).bind fun x hx => (ihb henv).bind fun y hy => quiet_combine hx (h ▸ hy) ha.numerical rfl
  | @not a _ h ih =>
    refine (ih henv).bind fun x hx => (quiet_condition hx).bind fun p hp => quiet_pure ?_
    have hp' := Numeric.IsTruth.hasType (isTruth_map (fun y => !y.truthy) p.lanes) hp.not
    rwa [← DataType.eq_bool_of_isBool h] at hp'
  | @select c a b _ ha _ h hlanes ihc iha ihb =>
    refine (ihc henv).bind fun p hp => (iha henv).bind fun x hx => (ihb henv).bind fun y hy =>
      (quiet_chosen hp hx (h ▸ hy) hlanes).bind fun r hr => ?_
    obtain ⟨r, rfl, hr⟩ := hr
    exact quiet_convertTo ha.numerical hr (.inl rfl)
  | @choice c a b kind func index hkind _ _ _ h ihc iha ihb =>
    show Quiet (if kind = .tensorRead then throw (.tensorAccess f.name _) else _) _
    rw [if_neg hkind]
    refine (ihc henv).bind fun p hp => quiet_get.bind fun m _ =>
      (quiet_lift (P := fun _ => True) fun _ _ => trivial).bind fun b _ => ?_
    cases b with
    | true => exact iha henv
    | false => exact (ihb henv).mono fun _ hy => h ▸ hy
  | @likely a kind func index hkind _ ih =>
    show Quiet (if kind = .tensorRead then throw (.tensorAccess f.name _) else _) _
    rw [if_neg hkind]
    refine Quiet.bind (P := fun xs => ∃ y : Value, xs = [y] ∧ y.HasType a.dtype)
      ((ih henv).bind fun x hx => quiet_pure ⟨x, rfl, hx⟩) fun xs hxs => ?_
    obtain ⟨y, rfl, hy⟩ := hxs
    exact quiet_pure hy
  | @call t name args kind func index hkind hname _ ht hlanes ih =>
    show Quiet (if kind = .tensorRead then throw (.tensorAccess f.name name) else _) _
    rw [if_neg hkind, if_neg (by simpa using hname.1), if_neg (by simpa using hname.2.1)]
    refine (quiet_evalAll fun a ha => ih a ha henv).bind fun xs hxs => quiet_callNamed hname ht fun x hx => ?_
    obtain ⟨a, ha, hax⟩ := hxs x hx
    exact ⟨a.dtype, hax, hlanes a ha⟩
  | @bind v value body _ h hlanes _ ihvalue ihbody =>
    refine (ihvalue henv).bind fun x hx => (quiet_place hx hlanes).bind fun y hy => ihbody (henv.set ?_)
    exact (h.symm ▸ hy : y.HasType (Γ v.id)).fits
  | @load t v index pred _ hbool hlanes ht hpred hmask ihindex ihpred =>
    have hevalMask : Quiet (Expr.eval.evalMask f env pred) fun q =>
        ∀ p ∈ q, ∃ w, Value.HasType w p ∧ (w.lanes = 1 ∨ w.lanes = t.lanes) := by
      cases pred with
      | none => exact quiet_pure (by simp)
      | some p => exact (ihpred p rfl henv).bind fun y hy => quiet_pure (by simpa using ⟨_, hy, hmask p rfl⟩)
    refine (quiet_buffer henv).bind fun a ha => (ihindex henv).bind fun i hi => hevalMask.bind fun q hq =>
      (quiet_loadFrom ha hi hbool (hlanes ▸ hq)).bind fun y hy => ?_
    obtain ⟨r, rfl, hr⟩ := hy
    exact quiet_convertTo ht hr (.inl hlanes)
  | @ramp base stride lanes hbase _ h h' hlanes ihbase ihstride =>
    refine (ihbase henv).bind fun x hx => (ihstride henv).bind fun y hy => (quiet_operand hx).bind fun a ha =>
      (quiet_operand hy).bind fun b hb =>
      (quiet_lift (P := (·.HasLanes lanes)) fun r hr => ?_).bind fun r hr =>
      quiet_convertTo (hbase.numerical.withLanes _) hr (.inl rfl)
    exact Numeric.HasLanes.ramp (h ▸ ha) (h' ▸ hb) hlanes hr
  | @broadcast a lanes ha h hlanes ih =>
    refine (ih henv).bind fun x hx => ?_
    obtain ⟨et, xs, -, rfl, hxs, -⟩ := hx
    exact quiet_convertTo (a := .typed et xs) (ha.numerical.withLanes _) hxs (.inr hlanes)

end Soundness

end TensorNest

import TensorNest.Lowering.Flatten
import TensorNest.Proofs.Execution
import TensorNest.Proofs.IndexArithmetic

/-! # Addresses of elements

The address of an element of a compact buffer is built by sums, differences and products of the indices,
the first indices of the region and the extents of the buffer. These operations do not fail on expressions
that are all signed or all unsigned, of whatever widths, beside signed constants (`Expr.IndexOf`); a constant
of an unsigned type would not combine with a signed one. Built of signed integers the address is built
without fail, and under an exact reading its value is the row-major offset of the element in the region, past
the offset of the buffer (`FlatEntry.gives_address`). -/

namespace TensorNest

variable {V : Type}

/-- A signed integer type of one lane. -/
structure DataType.IsSigned (t : DataType) : Prop where
  code : t.code = .int
  scalar : t.lanes = 1

theorem DataType.IsSigned.isIndex {t : DataType} (h : t.IsSigned) : t.IsIndex :=
  ⟨by simp [DataType.isInteger, DataType.isInt, DataType.isBool, h.code], h.scalar⟩

/-- The wider one of two index types of a code. -/
theorem DataType.isIndex_max {l r : DataType} (hl : l.IsIndex) (hr : r.IsIndex) (hcode : l.code = r.code) :
    IsIndex ⟨l.code, max l.bits r.bits, 1⟩ := by
  obtain hle | hle := Nat.le_total l.bits r.bits
  · rw [Nat.max_eq_right hle, hcode]
    exact ⟨hr.integer, rfl⟩
  · rw [Nat.max_eq_left hle]
    exact ⟨hl.integer, rfl⟩

/-- Whether a type of a code, of whatever width, can hold a number: an unsigned type holds none below 0. -/
def TypeCode.Holds (c : TypeCode) (n : Int) : Prop :=
  c = .int ∨ 0 ≤ n

theorem TypeCode.Holds.add {c : TypeCode} {m n : Int} (hm : c.Holds m) (hn : c.Holds n) : c.Holds (m + n) :=
  hm.elim Or.inl fun hm => hn.imp_right fun hn => Int.add_nonneg hm hn

theorem TypeCode.Holds.mul {c : TypeCode} {m n : Int} (hm : c.Holds m) (hn : c.Holds n) : c.Holds (m * n) :=
  hm.elim Or.inl fun hm => hn.imp_right fun hn => Int.mul_nonneg hm hn

/-- An exact reading that takes the numbers that types of a code hold for what they are. -/
def ExactReading.Reads (R : ExactReading V) (c : TypeCode) : Prop :=
  ∀ (t : DataType) (n : Int), t.code = c → c.Holds n →
    R.int? (R.number (.int n) t) = some n ∧ ∀ x : V, R.int? x = some n → R.int? (R.cast t x) = some n

theorem ExactReading.reads_int (R : ExactReading V) : R.Reads .int := fun _ _ ht _ =>
  ⟨R.int?_number _ ht, fun _ => R.int?_cast ht⟩

/-- Whether a number is an integer and no truth value. -/
def Number.isInt : Number → Bool
  | int _ => true
  | _ => false

namespace Expr

/-- An expression that can be an index: of a signed type of one lane, and an integer if it is a constant. -/
structure Integral (e : Expr) : Prop where
  type : e.dtype.IsSigned
  const : ∀ v t, e = .const v t → ∃ n, v = .int n

instance (e : Expr) : Decidable e.Integral :=
  decidable_of_iff ((e.dtype.code = .int ∧ e.dtype.lanes = 1) ∧ ∀ v ∈ e.constValue?, v.isInt) (by
    constructor
    · rintro ⟨⟨hcode, hlanes⟩, hconst⟩
      refine ⟨⟨hcode, hlanes⟩, fun v t heq => ?_⟩
      cases v with
      | int n => exact ⟨n, rfl⟩
      | _ => cases hconst _ (by rw [heq]; rfl)
    · rintro ⟨⟨hcode, hlanes⟩, hconst⟩
      refine ⟨⟨hcode, hlanes⟩, fun v hv => ?_⟩
      cases e with
      | const w t =>
        obtain ⟨n, rfl⟩ := hconst w t rfl
        obtain rfl := Option.some.inj hv
        rfl
      | _ => cases hv)

theorem integral_const (n : Int) {t : DataType} (ht : t.IsSigned) : (Expr.const (.int n) t).Integral :=
  ⟨ht, fun _ _ h => ⟨n, by cases h; rfl⟩⟩

theorem integral_of_not_const {e : Expr} (ht : e.dtype.IsSigned) (h : ∀ v t, e ≠ .const v t) : e.Integral :=
  ⟨ht, fun v t heq => absurd heq (h v t)⟩

/-- An expression that can be an index beside others: an integer constant of a signed type, as plain integers become
    one, or else of a type of a code that the others have. -/
structure IndexOf (c : TypeCode) (e : Expr) : Prop where
  type : e.dtype.IsIndex
  code : e.dtype.code = if e.isConst then .int else c
  const : ∀ v t, e = .const v t → ∃ n, v = .int n

theorem integral_iff_indexOf {e : Expr} : e.Integral ↔ e.IndexOf .int :=
  ⟨fun h => ⟨h.type.isIndex, h.type.code.trans (ite_self _).symm, h.const⟩,
    fun h => ⟨⟨h.code.trans (ite_self _), h.type.scalar⟩, h.const⟩⟩

theorem indexOf_const (c : TypeCode) (n : Int) {t : DataType} (ht : t.IsSigned) : (Expr.const (.int n) t).IndexOf c :=
  ⟨ht.isIndex, ht.code, fun _ _ h => ⟨n, by cases h; rfl⟩⟩

theorem isConst_of_ne_const {e : Expr} (h : ∀ v t, e ≠ .const v t) : e.isConst = false := by
  cases e with
  | const v t => exact absurd rfl (h v t)
  | _ => rfl

theorem isConstLike_expr (e : Expr) : Operand.isConstLike e = e.isConst := by
  cases e <;> rfl

section Builders
variable {R : ExactReading V} {c : TypeCode} {a b e : Expr} {t : DataType}

theorem integer?_const (R : ExactReading V) {m : Store V} {ρ : Valuation V} (ht : t.IsSigned) (n : Int) :
    (Expr.const (.int n) t).integer? R m ρ = some n :=
  R.int?_number n ht.code

/-- The common type of two indices: signed if both are constants, and of the code of the others if not. -/
theorem IndexOf.gives_combine (ha : a.IndexOf c) (hb : b.IndexOf c) :
    Gives (DataType.combine a.dtype b.dtype (Operand.isConstLike a) (Operand.isConstLike b)) fun t =>
      t.IsIndex ∧ t.code = if a.isConst && b.isConst then .int else c := by
  have hacode := ha.code
  have hbcode := hb.code
  unfold DataType.combine
  simp only [isConstLike_expr, ha.type.isHandle, hb.type.isHandle, ha.type.isFloat, hb.type.isFloat, ha.type.scalar,
    hb.type.scalar]
  split
  · rename_i heq
    refine gives_ok ⟨ha.type, ?_⟩
    cases hac : a.isConst
    · rwa [hac] at hacode
    · rwa [heq]
  · cases hac : a.isConst <;> cases hbc : b.isConst <;> rw [hac] at hacode <;> rw [hbc] at hbcode
    · have hcode := hacode.trans hbcode.symm
      simp only [hcode]
      exact gives_ok ⟨hcode ▸ DataType.isIndex_max ha.type hb.type hcode, hbcode⟩
    · exact gives_ok ⟨⟨ha.type.integer, rfl⟩, hacode⟩
    · exact gives_ok ⟨⟨hb.type.integer, rfl⟩, hbcode⟩
    · have hcode := hacode.trans hbcode.symm
      simp only [hcode]
      exact gives_ok ⟨hcode ▸ DataType.isIndex_max ha.type hb.type hcode, hbcode⟩

/-- What an index becomes as a side of an operation: an expression of the common type, a constant if it was one, with
    the value that the index has as far as types of the code hold it. -/
structure BroughtTo (R : ExactReading V) (c : TypeCode) (t : DataType) (e e' : Expr) : Prop where
  type : e'.dtype = t
  isConst : e'.isConst = e.isConst
  const : ∀ v u, e' = .const v u → ∃ n, v = .int n
  value : ∀ {m : Store V} {ρ : Valuation V} {n : Int}, c.Holds n → e.integer? R m ρ = some n →
    e'.integer? R m ρ = some n

theorem IndexOf.gives_coerce (he : e.IndexOf c) (hR : R.Reads c) (ht : t.IsIndex)
    (hcode : t.code = c ∨ e.isConst ∧ t.code = .int) : Gives (coerce e t) (BroughtTo R c t e) := by
  unfold coerce
  split
  · rename_i heq
    exact gives_ok ⟨heq, rfl, he.const, fun _ h => h⟩
  split
  · rename_i v u _
    obtain ⟨n, rfl⟩ := he.const v u rfl
    rw [ofNumber_int (by rw [ht.element]; exact ht), ht.element]
    refine gives_ok ?_
    rw [if_pos ht.scalar]
    refine ⟨rfl, rfl, fun _ _ h => ⟨n, by cases h; rfl⟩, fun {m ρ k} hk h => ?_⟩
    obtain rfl : n = k := Option.some.inj ((R.int?_number n he.code).symm.trans h)
    obtain hcode | ⟨-, hcode⟩ := hcode
    · exact (hR t n hcode hk).1
    · exact R.int?_number n hcode
  · rename_i hne
    have hconst : e.isConst = false := isConst_of_ne_const fun v u heq => hne v u heq
    have hlanes : (e.dtype.lanes = 1 && 1 < t.lanes) = false := by simp [ht.scalar]
    have hcode : t.code = c := hcode.resolve_right fun h => by rw [hconst] at h; cases h.1
    rw [hlanes]
    refine gives_ok ⟨rfl, hconst.symm, fun _ _ => nofun, fun {m ρ n} hn h => ?_⟩
    obtain ⟨x, hx, hxn⟩ := integer?_eq_some.mp h
    refine integer?_eq_some.mpr ⟨R.cast t x, ?_, (hR t n hcode hn).2 x hxn⟩
    rw [value?, hx]
    rfl

/-- The sides of an operation on indices are brought to their common type. -/
theorem IndexOf.gives_operands (ha : a.IndexOf c) (hb : b.IndexOf c) (hR : R.Reads c) : Gives (operands a b) fun p =>
    ∃ t, t.IsIndex ∧ (t.code = if a.isConst && b.isConst then .int else c) ∧ BroughtTo R c t a p.1 ∧
      BroughtTo R c t b p.2 := by
  refine (ha.gives_combine hb).bind fun t ⟨ht, hcode⟩ => ?_
  have hsides : t.code = c ∨ a.isConst ∧ b.isConst ∧ t.code = .int := by
    split at hcode
    · rename_i hconst
      rw [Bool.and_eq_true] at hconst
      exact Or.inr ⟨hconst.1, hconst.2, hcode⟩
    · exact Or.inl hcode
  refine (ha.gives_coerce hR ht (hsides.imp_right fun h => ⟨h.1, h.2.2⟩)).bind fun x hx => ?_
  refine (hb.gives_coerce hR ht (hsides.imp_right And.right)).bind fun y hy => ?_
  exact gives_ok ⟨t, ht, hcode, hx, hy⟩

/-- The sides of an operation on signed indices are signed indices. -/
theorem Integral.gives_operands (R : ExactReading V) (ha : a.Integral) (hb : b.Integral) :
    Gives (operands a b) fun p => p.1.Integral ∧ p.2.Integral := by
  refine ((integral_iff_indexOf.mp ha).gives_operands (integral_iff_indexOf.mp hb) R.reads_int).mono ?_
  rintro p ⟨t, ht, hcode, hx, hy⟩
  have ht : t.IsSigned := ⟨hcode.trans (ite_self _), ht.scalar⟩
  exact ⟨⟨hx.type.symm ▸ ht, hx.const⟩, ⟨hy.type.symm ▸ ht, hy.const⟩⟩

/-- An expression whose value is an operation on the values of two others, as far as types of a code hold these. -/
def Computes (R : ExactReading V) (c : TypeCode) (f : Int → Int → Int) (a b e : Expr) : Prop :=
  ∀ {m : Store V} {ρ : Valuation V} {i j : Int}, c.Holds i → c.Holds j → a.integer? R m ρ = some i →
    b.integer? R m ρ = some j → e.integer? R m ρ = some (f i j)

variable {op : BinOp} {f : Int → Int → Int}

/-- An operation on indices gives an index with the value of the operation. -/
theorem IndexOf.gives_arith (hop : op.isLogical = false) (hdiv : (op = .div || op = .mod) = false)
    (hfold : ∀ i j, foldValue op true (.int i) (.int j) = .ok (.int (f i j)))
    (hread : ∀ {t : DataType} {x y : V} {i j : Int}, R.int? x = some i → R.int? y = some j →
      R.int? (R.binary op t x y) = some (f i j))
    (ha : a.IndexOf c) (hb : b.IndexOf c) (hR : R.Reads c) :
    Gives (arith op a b) fun e => e.IndexOf c ∧ Computes R c f a b e := by
  refine (ha.gives_operands hb hR).bind fun p hp => ?_
  obtain ⟨x, y⟩ := p
  obtain ⟨t, ht, hcode, hx, hy⟩ := hp
  have hdtype : (Expr.bin op x y).dtype = t := by simp [Expr.dtype, hop, hx.type]
  rw [← hx.isConst, ← hy.isConst] at hcode
  simp only
  unfold fold
  split
  · rename_i v u w u'
    obtain ⟨i, rfl⟩ := hx.const v u rfl
    obtain ⟨j, rfl⟩ := hy.const w u' rfl
    obtain rfl : u = t := hx.type
    obtain rfl : u' = u := hy.type
    have hsigned : u'.IsSigned := ⟨hcode, ht.scalar⟩
    rw [hdiv, Bool.false_and, if_neg Bool.false_ne_true, ht.integer, hfold, hdtype]
    refine ⟨_, ofNumber_int ht _, indexOf_const c _ hsigned, fun {m ρ i' j'} hi hj hai hbj => ?_⟩
    have hai := hx.value hi hai
    have hbj := hy.value hj hbj
    rw [integer?_const R hsigned] at hai hbj
    rw [integer?_const R hsigned, Option.some.inj hai, Option.some.inj hbj]
  · rename_i hne
    have hnot : (x.isConst && y.isConst) = false := by
      cases x <;> cases y <;> first | rfl | exact absurd rfl (hne _ _ _ _ rfl)
    rw [hnot] at hcode
    refine gives_ok ⟨⟨hdtype ▸ ht, hdtype ▸ hcode, fun _ _ => Expr.noConfusion⟩, fun {m ρ i j} hi hj hai hbj => ?_⟩
    obtain ⟨xv, hxv, hxi⟩ := integer?_eq_some.mp (hx.value hi hai)
    obtain ⟨yv, hyv, hyj⟩ := integer?_eq_some.mp (hy.value hj hbj)
    refine integer?_eq_some.mpr ⟨R.binary op x.dtype xv yv, ?_, hread hxi hyj⟩
    rw [value?, hxv, hyv]
    rfl

theorem IndexOf.gives_add (ha : a.IndexOf c) (hb : b.IndexOf c) (hR : R.Reads c) :
    Gives (add a b) fun e => e.IndexOf c ∧ Computes R c (· + ·) a b e :=
  gives_arith rfl rfl (fun _ _ => rfl) R.int?_add ha hb hR

theorem IndexOf.gives_sub (ha : a.IndexOf c) (hb : b.IndexOf c) (hR : R.Reads c) :
    Gives (sub a b) fun e => e.IndexOf c ∧ Computes R c (· - ·) a b e :=
  gives_arith rfl rfl (fun _ _ => rfl) R.int?_sub ha hb hR

theorem IndexOf.gives_mul (ha : a.IndexOf c) (hb : b.IndexOf c) (hR : R.Reads c) :
    Gives (mul a b) fun e => e.IndexOf c ∧ Computes R c (· * ·) a b e :=
  gives_arith rfl rfl (fun _ _ => rfl) R.int?_mul ha hb hR

end Builders

/-- The integers that are the values of some expressions, the first one apart. -/
theorem mapM_integer?_cons {R : ExactReading V} {m : Store V} {ρ : Valuation V} {e : Expr} {es : List Expr}
    {l : List Int} : (e :: es).mapM (integer? R m ρ) = some l ↔
      ∃ i is, e.integer? R m ρ = some i ∧ es.mapM (integer? R m ρ) = some is ∧ l = i :: is := by
  simp only [List.mapM_cons, Option.bind_eq_bind, Option.bind_eq_some_iff, Option.pure_def, Option.some.injEq,
    exists_and_left, eq_comm (b := l)]

end Expr

/-- The indices of an element counted from the first ones of a region. -/
def Region.relative (r : Region) (p : List Int) : List Int :=
  List.zipWith (fun b i => i - b.1) r p

namespace FlatEntry
open Expr

variable {R : ExactReading V} {c : TypeCode} {entry : FlatEntry} {r : Region} {p : List Int}

/-- The buffer of a tensor of some number of dimensions: compact, laid out in signed integers. -/
structure Regular (entry : FlatEntry) (rank : Nat) : Prop where
  compact : entry.buffer.strides = []
  shape : entry.buffer.shape.length = rank
  extents : ∀ e ∈ entry.buffer.shape, e.Integral
  mins : entry.mins = [] ∨ entry.mins.length = rank
  starts : ∀ e ∈ entry.mins, e.Integral
  offset : entry.buffer.elemOffset.Integral

/-- The region that a buffer holds and the address of its first element. -/
structure Covers (R : ExactReading V) (m : Store V) (ρ : Valuation V) (entry : FlatEntry) (r : Region) (base : Int) :
    Prop where
  extents : entry.buffer.shape.mapM (integer? R m ρ) = some (r.map (·.2))
  starts : (entry.mins = [] ∧ ∀ b ∈ r, b.1 = 0) ∨ entry.mins.mapM (integer? R m ρ) = some (r.map (·.1))
  base : entry.buffer.elemOffset.integer? R m ρ = some base

theorem relative_of_zero (h : ∀ b ∈ r, b.1 = 0) (hlength : p.length = r.length) : r.relative p = p := by
  induction r generalizing p with
  | nil => exact (List.length_eq_zero_iff.mp hlength).symm
  | cons b r ih =>
    obtain _ | ⟨i, p⟩ := p
    · cases hlength
    · rw [List.forall_mem_cons] at h
      show (i - b.1) :: Region.relative r p = _
      rw [ih h.2 (Nat.succ.inj hlength), h.1, Int.sub_zero]

/-- Indices less the first ones of the region. -/
theorem gives_differences {args mins : List Expr} (hargs : ∀ a ∈ args, a.Integral) (hmins : ∀ e ∈ mins, e.Integral)
    (hlength : mins.length = args.length) :
    Gives ((args.zip mins).mapM fun ((a, lo) : Expr × Expr) => Operand.expr <$> sub a lo) fun l =>
      ∃ es : List Expr, l = es.map .expr ∧ es.length = args.length ∧ (∀ e ∈ es, e.Integral) ∧
        ∀ {m : Store V} {ρ : Valuation V} {r : Region} {p : List Int}, mins.mapM (integer? R m ρ) = some (r.map (·.1)) →
          args.mapM (integer? R m ρ) = some p → es.mapM (integer? R m ρ) = some (r.relative p) := by
  induction args generalizing mins with
  | nil =>
    obtain rfl := List.length_eq_zero_iff.mp hlength
    refine gives_ok ⟨[], rfl, rfl, List.forall_mem_nil _, fun {m ρ r p} hr hp => ?_⟩
    obtain rfl := Option.some.inj hp
    simp [Region.relative]
  | cons a args ih =>
    obtain _ | ⟨lo, mins⟩ := mins
    · cases hlength
    rw [List.forall_mem_cons] at hargs hmins
    rw [List.zip_cons_cons, List.mapM_cons]
    obtain ⟨e, he, heint, hval⟩ :=
      (integral_iff_indexOf.mp hargs.1).gives_sub (integral_iff_indexOf.mp hmins.1) R.reads_int
    obtain ⟨l, hl, es, rfl, hes, hint, hvals⟩ := ih hargs.2 hmins.2 (Nat.succ.inj hlength)
    refine ⟨(e :: es).map .expr, ?_, e :: es, rfl, congrArg Nat.succ hes,
      List.forall_mem_cons.mpr ⟨integral_iff_indexOf.mpr heint, hint⟩, fun {m ρ r p} hr hp => ?_⟩
    · simp only [he, hl]
      rfl
    · obtain ⟨i, is, hi, his, rfl⟩ := mapM_integer?_cons.mp hp
      obtain ⟨lo', los, hlo, hlos, heq⟩ := mapM_integer?_cons.mp hr
      obtain _ | ⟨b, r⟩ := r
      · cases heq
      obtain ⟨rfl, rfl⟩ := List.cons.inj heq
      exact mapM_integer?_cons.mpr ⟨i - b.1, Region.relative r is, hval (.inl rfl) (.inl rfl) hi hlo, hvals hlos his, rfl⟩

/-- The indices of an access relative to the region. -/
theorem gives_relative {args : List Expr} (h : entry.Regular args.length) (hargs : ∀ a ∈ args, a.Integral) :
    Gives (entry.relative args) fun l => ∃ es : List Expr, l = es.map .expr ∧ es.length = args.length ∧
      (∀ e ∈ es, e.Integral) ∧ ∀ {m : Store V} {ρ : Valuation V} {r : Region} {base : Int} {p : List Int},
        entry.Covers R m ρ r base → args.mapM (integer? R m ρ) = some p → p.length = r.length →
        es.mapM (integer? R m ρ) = some (r.relative p) := by
  unfold relative
  split
  · rename_i hempty
    rw [List.isEmpty_iff] at hempty
    refine gives_ok ⟨args, rfl, rfl, hargs, fun {m ρ r base p} hcovers hp hlength => ?_⟩
    obtain ⟨-, hzero⟩ | hstarts := hcovers.starts
    · rw [hp, relative_of_zero hzero hlength]
    · rw [hempty] at hstarts
      have hr := List.map_eq_nil_iff.mp (Option.some.inj hstarts).symm
      rw [hp, relative_of_zero (by simp [hr]) hlength]
  · rename_i hne
    rw [List.isEmpty_iff] at hne
    refine (gives_differences (R := R) hargs h.starts (h.mins.resolve_left hne)).mono fun l ⟨es, hl, hes, hint, hvals⟩ => ?_
    refine ⟨es, hl, hes, hint, fun {m ρ r base p} hcovers hp _ => hvals ?_ hp⟩
    exact hcovers.starts.resolve_left fun hmins => hne hmins.1

/-- The first dimension of a region, apart from the others. -/
theorem region_cons {d e : Expr} {ds es : List Expr} {m : Store V} {ρ : Valuation V} (hp : p.length = r.length)
    (hr : (d :: ds).mapM (integer? R m ρ) = some (r.map (·.2)))
    (hrel : (e :: es).mapM (integer? R m ρ) = some (r.relative p)) :
    ∃ b r' i p', r = b :: r' ∧ p = i :: p' ∧ p'.length = r'.length ∧
      d.integer? R m ρ = some b.2 ∧ ds.mapM (integer? R m ρ) = some (r'.map (·.2)) ∧
      e.integer? R m ρ = some (i - b.1) ∧ es.mapM (integer? R m ρ) = some (Region.relative r' p') := by
  obtain ⟨j, js, hj, hjs, heq⟩ := mapM_integer?_cons.mp hr
  obtain ⟨k, ks, hk, hks, heq'⟩ := mapM_integer?_cons.mp hrel
  obtain _ | ⟨b, r⟩ := r
  · cases heq
  obtain _ | ⟨i, p⟩ := p
  · cases hp
  obtain ⟨rfl, rfl⟩ := List.cons.inj heq
  obtain ⟨rfl, rfl⟩ := List.cons.inj heq'
  exact ⟨b, r, i, p, rfl, rfl, Nat.succ.inj hp, hj, hjs, hk, hks⟩

/-- Rows stored one after the other: what is left of the indices counts in the extents that are left. -/
theorem gives_rows {es ds : List Expr} (hR : R.Reads c) (hes : ∀ e ∈ es, e.IndexOf c) (hds : ∀ d ∈ ds, d.IndexOf c)
    (hlength : ds.length = es.length) {sum : Expr} (hsum : sum.IndexOf c) :
    Gives (((es.map Operand.expr).zip ds).foldlM (fun (sum : Expr) ((i, extent) : Operand × Expr) => do
        add (← mul sum extent) i) sum) fun e =>
      e.IndexOf c ∧ ∀ {m : Store V} {ρ : Valuation V} {r : Region} {p : List Int} {k : Int},
        sum.integer? R m ρ = some k → c.Holds k → p.length = r.length →
        ds.mapM (integer? R m ρ) = some (r.map (·.2)) → (∀ b ∈ r, c.Holds b.2) →
        es.mapM (integer? R m ρ) = some (r.relative p) → (∀ i ∈ r.relative p, c.Holds i) →
        e.integer? R m ρ = some (k * r.size + r.offset p) := by
  induction es generalizing ds sum with
  | nil =>
    obtain rfl := List.length_eq_zero_iff.mp hlength
    refine gives_ok ⟨hsum, fun {m ρ r p k} hk _ _ hr _ _ _ => ?_⟩
    obtain rfl := List.map_eq_nil_iff.mp (Option.some.inj hr).symm
    rw [hk, Region.size, Region.offset]
    · simp
    · exact fun _ _ _ _ _ h => absurd h (List.cons_ne_nil _ _).symm
  | cons e es ih =>
    obtain _ | ⟨d, ds⟩ := ds
    · cases hlength
    rw [List.forall_mem_cons] at hes hds
    rw [List.map_cons, List.zip_cons_cons, List.foldlM_cons]
    refine Gives.bind (P := fun sum' => sum'.IndexOf c ∧ ∀ {m : Store V} {ρ : Valuation V} {k i j : Int},
        c.Holds k → c.Holds j → c.Holds i → sum.integer? R m ρ = some k → d.integer? R m ρ = some j →
        e.integer? R m ρ = some i → sum'.integer? R m ρ = some (k * j + i)) ?_ fun sum' hstep => ?_
    · obtain ⟨x, hx, hxindex, hxval⟩ := hsum.gives_mul hds.1 hR
      obtain ⟨y, hy, hyindex, hyval⟩ := hxindex.gives_add hes.1 hR
      refine ⟨y, ?_, hyindex, fun hk hj hi hks hjs his => hyval (hk.mul hj) hi (hxval hk hj hks hjs) his⟩
      simp only [hx]
      exact hy
    · obtain ⟨hsum', hstep⟩ := hstep
      refine (ih hes.2 hds.2 (Nat.succ.inj hlength) hsum').mono fun x hx => ?_
      obtain ⟨hxindex, hxval⟩ := hx
      refine ⟨hxindex, fun {m ρ r p k} hks hk hp hr hextents hrel hindices => ?_⟩
      obtain ⟨b, r, q, p, rfl, rfl, hlength', hj, hjs, hi, his⟩ := region_cons hp hr hrel
      obtain ⟨hb, hextents⟩ := List.forall_mem_cons.mp hextents
      obtain ⟨hq, hindices⟩ := List.forall_mem_cons.mp hindices
      rw [hxval (hstep hk hb hq hks hj hi) ((hk.mul hb).add hq) hlength' hjs hextents his hindices, Region.size,
        Region.offset, Int.add_mul, Int.mul_assoc, Int.add_assoc]

/-- The place of an element among rows stored one after the other. -/
theorem gives_compactOffset {es shape : List Expr} (hR : R.Reads c) (hes : ∀ e ∈ es, e.IndexOf c)
    (hshape : ∀ d ∈ shape.tail, d.IndexOf c) (hlength : shape.length = es.length) :
    Gives (Buffer.compactOffset shape (es.map .expr)) fun e =>
      e.IndexOf c ∧ ∀ {m : Store V} {ρ : Valuation V} {r : Region} {p : List Int},
        p.length = r.length → shape.mapM (integer? R m ρ) = some (r.map (·.2)) → (∀ b ∈ r, c.Holds b.2) →
        es.mapM (integer? R m ρ) = some (r.relative p) → (∀ i ∈ r.relative p, c.Holds i) →
        e.integer? R m ρ = some (r.offset p) := by
  have hint32 : DataType.int32.IsSigned := ⟨rfl, rfl⟩
  obtain _ | ⟨e, es⟩ := es
  · obtain rfl := List.length_eq_zero_iff.mp hlength
    refine ⟨_, ofNumber_int hint32.isIndex 0, indexOf_const c 0 hint32, fun {m ρ r p} _ hr _ _ _ => ?_⟩
    obtain rfl := List.map_eq_nil_iff.mp (Option.some.inj hr).symm
    rw [integer?_const R hint32, Region.offset]
    exact fun _ _ _ _ _ h => absurd h (List.cons_ne_nil _ _).symm
  obtain _ | ⟨d, ds⟩ := shape
  · cases hlength
  rw [List.forall_mem_cons] at hes
  refine (gives_rows hR hes.2 hshape (Nat.succ.inj hlength) hes.1).mono fun x hx => ?_
  obtain ⟨hxindex, hxval⟩ := hx
  refine ⟨hxindex, fun {m ρ r p} hp hr hextents hrel hindices => ?_⟩
  obtain ⟨b, r, q, p, rfl, rfl, hlength', hj, hjs, hi, his⟩ := region_cons hp hr hrel
  obtain ⟨hq, hindices⟩ := List.forall_mem_cons.mp hindices
  exact hxval hi hq hlength' hjs (List.forall_mem_cons.mp hextents).2 his hindices

theorem eq_zero_of_isConstInt {e : Expr} {m : Store V} {ρ : Valuation V} {n : Int} (he : e.Integral)
    (hzero : e.isConstInt 0) (hn : e.integer? R m ρ = some n) : n = 0 := by
  unfold Expr.isConstInt constInt? at hzero
  split at hzero
  · rename_i v t
    obtain ⟨k, rfl⟩ := he.const v t rfl
    have ht : t.IsSigned := he.type
    rw [integer?_const R ht] at hn
    rw [ht.isIndex.integer] at hzero
    obtain rfl : k = 0 := by simpa [Number.asInt?] using hzero
    exact (Option.some.inj hn).symm
  · cases hzero

/-- The address of an element of a region is built without fail, and is its row-major offset in the region
    past the first address. -/
theorem gives_address {args : List Expr} (h : entry.Regular args.length) (hargs : ∀ a ∈ args, a.Integral) :
    Gives (do entry.buffer.offsetOf (← entry.relative args)) fun e =>
      e.Integral ∧ ∀ {m : Store V} {ρ : Valuation V} {r : Region} {base : Int} {p : List Int},
        entry.Covers R m ρ r base → args.mapM (integer? R m ρ) = some p → p.length = r.length →
        e.integer? R m ρ = some (base + r.offset p) := by
  refine (gives_relative (R := R) h hargs).bind fun l ⟨es, hl, hes, hint, hrel⟩ => ?_
  subst hl
  have hshape : entry.buffer.shape.length = es.length := h.shape.trans hes.symm
  unfold Buffer.offsetOf
  rw [List.length_map, hshape, h.compact]
  simp only [bne_self_eq_false, Bool.false_eq_true, if_false, List.isEmpty_nil, Bool.or_true, if_true]
  have hindex : ∀ e ∈ es, e.IndexOf .int := fun e he => integral_iff_indexOf.mp (hint e he)
  have hextents : ∀ d ∈ entry.buffer.shape.tail, d.IndexOf .int := fun d hd =>
    integral_iff_indexOf.mp (h.extents d (List.mem_of_mem_tail hd))
  refine (gives_compactOffset R.reads_int hindex hextents hshape).bind fun x ⟨hxindex, hxval⟩ => ?_
  have hplace {m : Store V} {ρ : Valuation V} {r : Region} {base : Int} {p : List Int} (hcovers : entry.Covers R m ρ r base)
      (hp : args.mapM (integer? R m ρ) = some p) (hlength : p.length = r.length) :
      x.integer? R m ρ = some (r.offset p) :=
    hxval hlength hcovers.extents (fun _ _ => Or.inl rfl) (hrel hcovers hp hlength) fun _ _ => Or.inl rfl
  split
  · rename_i hzero
    refine gives_ok ⟨integral_iff_indexOf.mpr hxindex, fun {m ρ r base p} hcovers hp hlength => ?_⟩
    have hbase := eq_zero_of_isConstInt h.offset hzero hcovers.base
    rw [hplace hcovers hp hlength, hbase, Int.zero_add]
  · refine (hxindex.gives_add (integral_iff_indexOf.mp h.offset) R.reads_int).mono fun y ⟨hyindex, hyval⟩ => ?_
    refine ⟨integral_iff_indexOf.mpr hyindex, fun {m ρ r base p} hcovers hp hlength => ?_⟩
    rw [hyval (.inl rfl) (.inl rfl) (hplace hcovers hp hlength) hcovers.base, Int.add_comm]

end FlatEntry

end TensorNest

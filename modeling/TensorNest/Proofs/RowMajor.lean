import Mathlib.Algebra.Ring.Int.Defs
import Mathlib.Data.Int.ConditionallyCompleteOrder
import Mathlib.Data.List.Lex
import Mathlib.Data.Set.Function
import Mathlib.Order.ConditionallyCompleteLattice.Basic
import Mathlib.Order.Interval.Set.Defs
import TensorNest.Proofs.Constraints
import TensorNest.Proofs.Flattening

/-! # Row-major layout

In a compact buffer the elements stand one after the other in the order of their indices, the last index counting
fastest. The offset of an element is built from the first dimension on, the strides that the prologue checks from the
last one on; both describe one layout (`Buffer.offsetOf_rowMajor`): the offset is the sum of the indices times the
strides, and it maps the indices of the elements onto the places from 0 on in lexicographic order. -/

namespace TensorNest

open Prologue (query)

/-! ### Regions -/

namespace Region

variable {r : Region} {p q : List Int} {n : Int} {ds : List Int}

theorem size_pos (h : ∀ b ∈ r, 0 < b.2) : 0 < r.size := by
  induction r with
  | nil => exact Int.one_pos
  | cons b r ih =>
    obtain ⟨hb, hr⟩ := List.forall_mem_cons.mp h
    exact Int.mul_pos hb (ih hr)

/-- Every place from 0 up to the number of elements is that of an element. -/
theorem exists_offset (h : ∀ b ∈ r, 0 < b.2) (hn : 0 ≤ n) (hlt : n < r.size) : ∃ p, r.contains p ∧ r.offset p = n := by
  induction r generalizing n with
  | nil =>
    rw [size] at hlt
    exact ⟨[], rfl, by rw [show n = 0 by omega]; rfl⟩
  | cons b r ih =>
    obtain ⟨lo, d⟩ := b
    obtain ⟨hd, hr⟩ := List.forall_mem_cons.mp h
    have hsize : 0 < size r := size_pos hr
    obtain ⟨p, hp, hoffset⟩ := ih hr (Int.emod_nonneg n hsize.ne') (Int.emod_lt_of_pos n hsize)
    have hrow : 0 ≤ n / size r := Int.ediv_nonneg hn hsize.le
    have hrows : n / size r < d := Int.ediv_lt_of_lt_mul hsize hlt
    refine ⟨(lo + n / size r) :: p, ?_, ?_⟩
    · simp only [contains, hp, Bool.and_true, Bool.and_eq_true, decide_eq_true_eq]
      omega
    · rw [offset, hoffset, add_sub_cancel_left, Int.ediv_mul_add_emod]

/-- Elements stand in lexicographic order. -/
theorem offset_strictMonoOn : StrictMonoOn r.offset {p | r.contains p} := by
  intro p hp q hq hlt
  induction r generalizing p q with
  | nil =>
    obtain rfl := List.length_eq_zero_iff.mp (length_of_contains hp)
    obtain rfl := List.length_eq_zero_iff.mp (length_of_contains hq)
    exact absurd hlt (lt_irrefl _)
  | cons b r ih =>
    obtain ⟨lo, d⟩ := b
    obtain _ | ⟨i, p⟩ := p
    · cases hp
    obtain _ | ⟨j, q⟩ := q
    · cases hq
    simp only [Set.mem_ofPred_eq, contains, Bool.and_eq_true] at hp hq
    rw [offset, offset]
    obtain hij | ⟨rfl, hrest⟩ := List.cons_lt_cons_iff.mp hlt
    · -- The rest of the first element stays within its row.
      have hp := offset_bounds hp.2
      have hq := offset_bounds hq.2
      have hrow : (i - lo + 1) * size r ≤ (j - lo) * size r := Int.mul_le_mul_of_nonneg_right (by omega) (by omega)
      rw [Int.add_mul, Int.one_mul] at hrow
      omega
    · have hnext := ih hp.2 hq.2 hrest
      omega

theorem offset_bijOn (h : ∀ b ∈ r, 0 < b.2) : Set.BijOn r.offset {p | r.contains p} (Set.Ico 0 r.size) where
  left := fun _ hp => offset_bounds hp
  right := ⟨fun _ hp _ hq => offset_injective hp hq, fun _ hn => exists_offset h hn.1 hn.2⟩

/-- The indices from 0 on below some extents. -/
def upTo (ds : List Int) : Region :=
  ds.map fun d => (0, d)

theorem size_upTo : (upTo ds).size = ds.prod := by
  induction ds with
  | nil => rfl
  | cons d ds ih => rw [List.prod_cons, ← ih]; rfl

theorem contains_upTo : (upTo ds).contains p ↔ List.Forall₂ (fun i d => 0 ≤ i ∧ i < d) p ds := by
  induction ds generalizing p with
  | nil => cases p <;> simp [upTo, contains]
  | cons d ds ih =>
    cases p with
    | nil => simp [upTo, contains]
    | cons i p =>
      rw [List.forall₂_cons, ← ih]
      simp [upTo, contains]

end Region

/-! ### Strides -/

/-- The strides of rows that are stored one after the other. -/
def rowStrides : List Int → List Int
  | [] => []
  | _ :: ds => ds.prod :: rowStrides ds

/-- The sum of indices times strides. -/
def dot (cs p : List Int) : Int :=
  (List.zipWith (· * ·) p cs).sum

theorem offset_upTo (ds p : List Int) : (Region.upTo ds).offset p = dot (rowStrides ds) p := by
  induction ds generalizing p with
  | nil => cases p <;> rfl
  | cons d ds ih =>
    cases p with
    | nil => rfl
    | cons i p =>
      show (i - 0) * (Region.upTo ds).size + (Region.upTo ds).offset p = i * ds.prod + dot (rowStrides ds) p
      rw [Int.sub_zero, Region.size_upTo, ih]

/-- The strides of a compact array of a shape, as they are built. -/
def shapeStrides : List Expr → Except Error (List Expr)
  | [] => .ok []
  | _ :: ds => do
    let s ← compactStride ds
    return s :: (← shapeStrides ds)

namespace Prologue

/-- Checks the stride of a dimension of an argument that is to be compact. -/
def checkStride (p : Prologue) (name : String) (b : Buffer) (i dim : Nat) (stride : Expr) : Except Error Prologue := do
  p.check (← Expr.eq (query .int32 "xte_arg_stride" [i, dim]) stride)
    (name ++ ": Argument " ++ b.name ++ ".strides: expected to be compact array")

/-- Checks all strides, from the last dimension on. -/
def checkStrides (p : Prologue) (name : String) (b : Buffer) (i : Nat) (strides : List Expr) : Except Error Prologue :=
  strides.zipIdx.foldrM (fun s p => p.checkStride name b i s.2 s.1) p

variable {p : Prologue} {name : String} {b : Buffer} {i : Nat}

/-- The dimensions of a shape from one on: their strides are checked, and the stride of the dimension before is built. -/
theorem foldrM_checkStride {ds ss : List Expr} {e : Expr} (k : Nat) (hss : shapeStrides ds = .ok ss)
    (he : compactStride ds = .ok e) :
    (ds.zipIdx k).foldrM (fun (d : Expr × Nat) (r : Prologue × Expr) => do
        let p ← r.1.checkStride name b i d.2 r.2
        return (p, ← Expr.mul r.2 d.1)) (p, .const (.int 1) .int32) =
      (ss.zipIdx k).foldrM (fun s p => p.checkStride name b i s.2 s.1) p >>= fun p => .ok (p, e) := by
  induction ds generalizing ss e k with
  | nil =>
    cases hss
    cases he
    rfl
  | cons d ds ih =>
    obtain ⟨s, hs, he⟩ := bind_eq_ok.mp he
    obtain ⟨s', hs', hss⟩ := bind_eq_ok.mp hss
    obtain rfl := Except.ok.inj (hs.symm.trans hs')
    obtain ⟨ss', hss', hss⟩ := bind_eq_ok.mp hss
    cases hss
    simp only [List.zipIdx_cons, List.foldrM_cons, ih (k + 1) hss' hs, bind_assoc]
    refine bind_congr fun p => ?_
    show (p.checkStride name b i k s >>= fun p => Expr.mul s d >>= fun e => Except.ok (p, e)) = _
    rw [he]
    rfl

/-- The strides that the prologue multiplies up, from the last dimension on, are those of the shape. -/
theorem checkCompact_eq {strides : List Expr} {total : Expr} (hstrides : shapeStrides b.shape = .ok strides)
    (htotal : compactStride b.shape = .ok total) : p.checkCompact name b i = p.checkStrides name b i strides := by
  have hrun : p.checkCompact name b i = (b.shape.zipIdx.foldrM (fun (d : Expr × Nat) (r : Prologue × Expr) => do
      let p ← r.1.checkStride name b i d.2 r.2
      return (p, ← Expr.mul r.2 d.1)) (p, .const (.int 1) .int32) >>= fun r => .ok r.1) := by
    simp only [checkStride, bind_assoc]
    rfl
  rw [hrun, foldrM_checkStride 0 hstrides htotal, bind_assoc]
  exact bind_pure (checkStrides p name b i strides)

end Prologue

theorem TypeCode.Holds.prod {c : TypeCode} {ns : List Int} (h : ∀ n ∈ ns, c.Holds n) : c.Holds ns.prod := by
  induction ns with
  | nil => exact Or.inr Int.one_nonneg
  | cons n ns ih =>
    obtain ⟨hn, hns⟩ := List.forall_mem_cons.mp h
    rw [List.prod_cons]
    exact hn.mul (ih hns)

theorem holds_dot {c : TypeCode} {ds p : List Int} (hds : ∀ d ∈ ds, c.Holds d) (hp : ∀ i ∈ p, c.Holds i) :
    c.Holds (dot (rowStrides ds) p) := by
  induction ds generalizing p with
  | nil => cases p <;> exact Or.inr (Int.le_refl _)
  | cons d ds ih =>
    cases p with
    | nil => exact Or.inr (Int.le_refl _)
    | cons i p =>
      obtain ⟨-, hds⟩ := List.forall_mem_cons.mp hds
      obtain ⟨hi, hp⟩ := List.forall_mem_cons.mp hp
      show c.Holds (i * ds.prod + dot (rowStrides ds) p)
      exact (hi.mul (.prod hds)).add (ih hds hp)

section Strides
variable {V : Type} {R : ExactReading V} {c : TypeCode} {ds : List Expr}
open Expr

theorem gives_compactStride (hR : R.Reads c) (hds : ∀ d ∈ ds, d.IndexOf c) : Gives (compactStride ds) fun e =>
    e.IndexOf c ∧ ∀ {m : Store V} {ρ : Valuation V} {ns : List Int}, ds.mapM (integer? R m ρ) = some ns →
      (∀ n ∈ ns, c.Holds n) → e.integer? R m ρ = some ns.prod := by
  have hint32 : DataType.int32.IsSigned := ⟨rfl, rfl⟩
  induction ds with
  | nil =>
    refine ⟨_, rfl, indexOf_const c 1 hint32, fun {m ρ ns} hns _ => ?_⟩
    cases hns
    exact integer?_const R hint32 1
  | cons d ds ih =>
    obtain ⟨hd, hds⟩ := List.forall_mem_cons.mp hds
    refine (ih hds).bind fun s ⟨hs, hsval⟩ => (hs.gives_mul hd hR).mono fun e ⟨he, heval⟩ => ?_
    refine ⟨he, fun {m ρ ns} hns hheld => ?_⟩
    obtain ⟨n, ns', hn, hns', rfl⟩ := mapM_integer?_cons.mp hns
    obtain ⟨hheld, hrest⟩ := List.forall_mem_cons.mp hheld
    rw [heval (.prod hrest) hheld (hsval hns' hrest) hn, List.prod_cons, Int.mul_comm]

/-- The strides of a shape are built without fail, and their values are those of rows stored one after the other. -/
theorem gives_shapeStrides (hR : R.Reads c) (hds : ∀ d ∈ ds, d.IndexOf c) : Gives (shapeStrides ds) fun ss =>
    ss.length = ds.length ∧ ∀ {m : Store V} {ρ : Valuation V} {ns : List Int}, ds.mapM (integer? R m ρ) = some ns →
      (∀ n ∈ ns, c.Holds n) → ss.mapM (integer? R m ρ) = some (rowStrides ns) := by
  induction ds with
  | nil =>
    refine gives_ok ⟨rfl, fun {m ρ ns} hns _ => ?_⟩
    cases hns
    rfl
  | cons d ds ih =>
    obtain ⟨hd, hds⟩ := List.forall_mem_cons.mp hds
    refine (gives_compactStride hR hds).bind fun s ⟨_, hs⟩ => (ih hds).bind fun ss ⟨hlength, hss⟩ => gives_ok ?_
    refine ⟨congrArg Nat.succ hlength, fun {m ρ ns} hns hheld => ?_⟩
    obtain ⟨n, ns', -, hns', rfl⟩ := mapM_integer?_cons.mp hns
    have hheld := (List.forall_mem_cons.mp hheld).2
    exact mapM_integer?_cons.mpr ⟨_, _, hs hns' hheld, hss hns' hheld, rfl⟩

end Strides

/-! ### Indices -/

/-- An integer of a signed type beside an expression that is no constant becomes a constant of its type. -/
theorem Expr.operands_const {a : Expr} (ha : a.dtype.IsIndex) (hconst : a.isConst = false) (n : Int) :
    operands a (Expr.const (.int n) .int32) = .ok (a, .const (.int n) a.dtype) := by
  by_cases htype : a.dtype = .int32
  · rw [htype]
    exact operands_of_dtype htype rfl
  · have hcombine : DataType.combine a.dtype .int32 (Operand.isConstLike a) true = .ok a.dtype := by
      rw [DataType.combine, if_neg htype, isConstLike_expr, hconst, ha.isHandle, ha.isFloat, ha.scalar]
      exact congrArg Except.ok ha.element
    have hcoerce : coerce (.const (.int n) .int32) a.dtype = .ok (.const (.int n) a.dtype) := by
      have hne : ¬(Expr.const (.int n) .int32).dtype = a.dtype := fun h => htype h.symm
      rw [coerce, if_neg hne, ofNumber_int (by rw [ha.element]; exact ha), ha.element]
      exact congrArg Except.ok (if_pos ha.scalar)
    show (DataType.combine a.dtype .int32 (Operand.isConstLike a) true >>= fun t => coerce a t >>= fun x =>
      coerce (.const (.int n) .int32) t >>= fun y => Except.ok (x, y)) = _
    rw [hcombine]
    show (coerce a a.dtype >>= fun x => coerce (.const (.int n) .int32) a.dtype >>= fun y => Except.ok (x, y)) = _
    rw [coerce_of_dtype rfl, hcoerce]
    rfl

namespace Operand

variable {V : Type} {R : ExactReading V} {m : Store V} {ρ : Valuation V} {c : TypeCode} {x : Operand} {t : DataType}
  {a : Expr}

/-- An operand that can be an index: a plain integer, index arithmetic, or an axis. -/
inductive IsIndex (c : TypeCode) : Operand → Prop
  | number (n : Int) : IsIndex c (.number (.int n))
  | expr {e : Expr} (he : e.IndexOf c) : IsIndex c (.expr e)
  | axis {iv : IterVar} (ht : iv.dtype.IsIndex) (hcode : iv.dtype.code = c) : IsIndex c (.axis iv)

/-- The expression that an index becomes, a plain integer as a constant of a type. -/
def beside (t : DataType) : Operand → Expr
  | .expr e => e
  | .axis iv => .var iv.var
  | .number v => .const v t
  | _ => default

/-- The integer that is the value of an index. -/
def integer? (R : ExactReading V) (m : Store V) (ρ : Valuation V) : Operand → Option Int
  | .number v => v.asInt?
  | x => (x.beside .int32).integer? R m ρ

theorem IsIndex.indexOf (h : x.IsIndex c) (ht : t.IsSigned) : (x.beside t).IndexOf c := by
  cases h with
  | number n => exact Expr.indexOf_const c n ht
  | expr he => exact he
  | axis hiv hcode => exact ⟨hiv, hcode, fun _ _ => nofun⟩

theorem IsIndex.integer?_beside (h : x.IsIndex c) (ht : t.IsSigned) :
    (x.beside t).integer? R m ρ = x.integer? R m ρ := by
  cases h with
  | number n => exact Expr.integer?_const R ht n
  | expr he => rfl
  | axis hiv hcode => rfl

theorem IsIndex.convert (h : x.IsIndex c) : Expr.convert x = .ok (x.beside .int32) := by
  cases h with
  | number n => rfl
  | expr he => rfl
  | axis hiv hcode => rfl

/-- Beside an expression an index becomes an expression: a plain integer becomes a constant of the type of a constant,
    and of a signed type beside any other expression. -/
theorem IsIndex.arith (h : x.IsIndex c) (ha : a.IndexOf c) (op : BinOp) :
    ∃ t : DataType, t.IsSigned ∧ Expr.arith op a x = Expr.arith op a (x.beside t) := by
  cases h with
  | number n =>
    cases hconst : a.isConst with
    | true =>
      have hcode := ha.code
      rw [hconst] at hcode
      refine ⟨a.dtype, ⟨hcode, ha.type.scalar⟩, ?_⟩
      have hsame : Expr.operands a (Expr.const (.int n) a.dtype) = .ok (a, .const (.int n) a.dtype) :=
        Expr.operands_of_dtype rfl rfl
      rw [Expr.arith, Expr.arith, Expr.operands_int ha.type rfl]
      show _ = Expr.operands a (Expr.const (.int n) a.dtype) >>= _
      rw [hsame]
    | false =>
      refine ⟨.int32, ⟨rfl, rfl⟩, ?_⟩
      rw [Expr.arith, Expr.arith, Expr.operands_int ha.type rfl]
      show _ = Expr.operands a (Expr.const (.int n) .int32) >>= _
      rw [Expr.operands_const ha.type hconst]
  | expr he => exact ⟨.int32, ⟨rfl, rfl⟩, rfl⟩
  | axis hiv hcode => exact ⟨.int32, ⟨rfl, rfl⟩, rfl⟩

variable {xs : List Operand} {ds : List Expr}

/-- What indices are beside the sums that they are added to: expressions of their values. -/
structure Become (R : ExactReading V) (c : TypeCode) (xs : List Operand) (es : List Expr) : Prop where
  length : es.length = xs.length
  indices : ∀ e ∈ es, e.IndexOf c
  values : ∀ {m : Store V} {ρ : Valuation V}, es.mapM (Expr.integer? R m ρ) = xs.mapM (integer? R m ρ)

theorem become_nil : Become R c [] [] := ⟨rfl, List.forall_mem_nil _, rfl⟩

theorem Become.cons {es : List Expr} (hx : x.IsIndex c) (ht : t.IsSigned) (h : Become R c xs es) :
    Become R c (x :: xs) (x.beside t :: es) where
  length := congrArg Nat.succ h.length
  indices := List.forall_mem_cons.mpr ⟨hx.indexOf ht, h.indices⟩
  values := by
    intro m ρ
    rw [List.mapM_cons, List.mapM_cons, hx.integer?_beside ht, h.values]

theorem exists_rows (hR : R.Reads c) (hxs : ∀ x ∈ xs, x.IsIndex c) (hds : ∀ d ∈ ds, d.IndexOf c)
    (hlength : ds.length = xs.length) {sum : Expr} (hsum : sum.IndexOf c) : ∃ es, Become R c xs es ∧
      (xs.zip ds).foldlM (fun (sum : Expr) ((i, extent) : Operand × Expr) => do Expr.add (← Expr.mul sum extent) i) sum =
        ((es.map Operand.expr).zip ds).foldlM (fun (sum : Expr) ((i, extent) : Operand × Expr) => do
          Expr.add (← Expr.mul sum extent) i) sum := by
  induction xs generalizing ds sum with
  | nil => exact ⟨[], become_nil, rfl⟩
  | cons x xs ih =>
    obtain _ | ⟨d, ds⟩ := ds
    · cases hlength
    obtain ⟨hx, hxs⟩ := List.forall_mem_cons.mp hxs
    obtain ⟨hd, hds⟩ := List.forall_mem_cons.mp hds
    obtain ⟨a, ha, haindex, -⟩ := hsum.gives_mul hd hR
    obtain ⟨t, ht, hbeside⟩ := hx.arith haindex .add
    obtain ⟨s, hs, hsindex, -⟩ := haindex.gives_add (hx.indexOf ht) hR
    obtain ⟨es, hes, heq⟩ := ih hxs hds (Nat.succ.inj hlength) hsindex
    refine ⟨x.beside t :: es, hes.cons hx ht, ?_⟩
    have hstep : Expr.add a x = .ok s := hbeside.trans hs
    simp only [List.map_cons, List.zip_cons_cons, List.foldlM_cons, ha]
    show (Expr.add a x >>= _) = (Expr.add a (x.beside t) >>= _)
    rw [hstep, hs]
    exact heq

/-- The rows at some indices are those at the expressions that they become. -/
theorem exists_compactOffset (hR : R.Reads c) (hxs : ∀ x ∈ xs, x.IsIndex c) (hds : ∀ d ∈ ds.tail, d.IndexOf c)
    (hlength : ds.length = xs.length) :
    ∃ es, Become R c xs es ∧ Buffer.compactOffset ds xs = Buffer.compactOffset ds (es.map .expr) := by
  have hint32 : DataType.int32.IsSigned := ⟨rfl, rfl⟩
  cases xs with
  | nil => exact ⟨[], become_nil, rfl⟩
  | cons x xs =>
    obtain ⟨hx, hxs⟩ := List.forall_mem_cons.mp hxs
    obtain _ | ⟨d, ds⟩ := ds
    · cases hlength
    obtain ⟨es, hes, heq⟩ := exists_rows hR hxs hds (Nat.succ.inj hlength) (hx.indexOf hint32)
    refine ⟨x.beside .int32 :: es, hes.cons hx hint32, ?_⟩
    show (Expr.convert x >>= _) = _
    rw [hx.convert]
    exact heq

end Operand

/-! ### Layout -/

theorem length_of_mapM_eq_some {α β : Type} {f : α → Option β} {as : List α} {bs : List β} (h : as.mapM f = some bs) :
    bs.length = as.length := by
  induction as generalizing bs with
  | nil => cases h; rfl
  | cons a as ih =>
    simp only [List.mapM_cons, Option.bind_eq_bind, Option.bind_eq_some_iff, Option.pure_def, Option.some.injEq] at h
    obtain ⟨b, -, bs', hbs, rfl⟩ := h
    rw [List.length_cons, List.length_cons, ih hbs]

namespace Buffer

variable {V : Type} {R : ExactReading V} {b : Buffer} {c : TypeCode} {xs : List Operand}
open Expr (integer?)

/-- The place of an element among the rows: the sum of its indices times the strides of the rows. -/
theorem gives_compactOffset {ds : List Expr} (hR : R.Reads c) (hds : ∀ d ∈ ds.tail, d.IndexOf c)
    (hxs : ∀ x ∈ xs, x.IsIndex c) (hrank : xs.length = ds.length) :
    Gives (compactOffset ds xs) fun e => e.IndexOf c ∧ ∀ {m : Store V} {ρ : Valuation V} {ns p : List Int},
      ds.mapM (integer? R m ρ) = some ns → (∀ n ∈ ns, c.Holds n) → xs.mapM (Operand.integer? R m ρ) = some p →
      (∀ i ∈ p, c.Holds i) → e.integer? R m ρ = some (dot (rowStrides ns) p) := by
  obtain ⟨es, hes, hsame⟩ := Operand.exists_compactOffset hR hxs hds hrank.symm
  rw [hsame]
  refine (FlatEntry.gives_compactOffset hR hes.indices hds (hrank.symm.trans hes.length.symm)).mono ?_
  rintro e ⟨heindex, heval⟩
  refine ⟨heindex, fun {m ρ ns p} hns hnheld hp hpheld => ?_⟩
  have hplength : p.length = (Region.upTo ns).length := by
    rw [length_of_mapM_eq_some hp, hrank, ← length_of_mapM_eq_some hns, Region.upTo, List.length_map]
  have hextents : (Region.upTo ns).map (·.2) = ns := (List.map_map ..).trans (List.map_id ns)
  have hrelative : (Region.upTo ns).relative p = p := FlatEntry.relative_of_zero (by simp [Region.upTo]) hplength
  rw [heval hplength (hextents.symm ▸ hns) (by simpa [Region.upTo] using hnheld)
    (hrelative.symm ▸ hes.values.trans hp) (hrelative.symm ▸ hpheld), offset_upTo]

/-- The offset of an element of a compact buffer is built without fail; it is the place among the rows where that of the
    buffer is 0. -/
theorem gives_offsetOf (hR : R.Reads c) (hcompact : b.strides = []) (hshape : ∀ d ∈ b.shape.tail, d.IndexOf c)
    (hoffset : b.elemOffset.isConstInt 0 ∨ b.elemOffset.IndexOf c) (hxs : ∀ x ∈ xs, x.IsIndex c)
    (hrank : xs.length = b.shape.length) :
    Gives (b.offsetOf xs) fun e => ∀ {m : Store V} {ρ : Valuation V} {ds p : List Int},
      b.shape.mapM (integer? R m ρ) = some ds → (∀ d ∈ ds, 0 < d) → xs.mapM (Operand.integer? R m ρ) = some p →
      (∀ i ∈ p, c.Holds i) → (b.elemOffset.isConstInt 0 ∨ b.elemOffset.integer? R m ρ = some 0) →
      e.integer? R m ρ = some (dot (rowStrides ds) p) := by
  unfold offsetOf
  rw [hrank, hcompact]
  simp only [bne_self_eq_false, Bool.false_eq_true, if_false, List.isEmpty_nil, Bool.or_true, if_true]
  refine (gives_compactOffset hR hshape hxs hrank).bind fun e ⟨heindex, heval⟩ => ?_
  have hplace {m : Store V} {ρ : Valuation V} {ds p : List Int} (hds : b.shape.mapM (integer? R m ρ) = some ds)
      (hpos : ∀ d ∈ ds, 0 < d) (hp : xs.mapM (Operand.integer? R m ρ) = some p) (hheld : ∀ i ∈ p, c.Holds i) :
      e.integer? R m ρ = some (dot (rowStrides ds) p) :=
    heval hds (fun d hd => Or.inr (hpos d hd).le) hp hheld
  split
  · exact gives_ok fun hds hpos hp hheld _ => hplace hds hpos hp hheld
  · rename_i hconst
    refine (heindex.gives_add (hoffset.resolve_left hconst) hR).mono fun e' ⟨_, hsum⟩ => ?_
    intro hds hpos hp hheld hzero
    have hdot : c.Holds (dot (rowStrides _) _) := holds_dot (fun d hd => Or.inr (hpos d hd).le) hheld
    exact (hsum hdot (.inr (Int.le_refl _)) (hplace hds hpos hp hheld) (hzero.resolve_left hconst)).trans
      (congrArg some (Int.add_zero _))

/-- A compact buffer is laid out in rows: the prologue checks strides that depend on the shape alone, and wherever the
    extents are positive and the offset of the buffer is 0, the offset of an element is the sum of its indices times the
    strides, which maps the indices of the elements one-to-one onto the places from 0 on, in lexicographic order. The
    constants among the extents and indices are of signed types, the rest of them all signed or all unsigned. -/
theorem offsetOf_rowMajor (hR : R.Reads c) (hcompact : b.strides = []) (hshape : ∀ d ∈ b.shape, d.IndexOf c) :
    ∃ strides : List Expr, strides.length = b.shape.length ∧
      (∀ (p : Prologue) (name : String) (i : Nat), p.checkCompact name b i = p.checkStrides name b i strides) ∧
      ∀ {m : Store V} {ρ : Valuation V} {ds : List Int}, b.shape.mapM (integer? R m ρ) = some ds → (∀ d ∈ ds, 0 < d) →
        strides.mapM (integer? R m ρ) = some (rowStrides ds) ∧
          (∀ (c' : TypeCode) (xs : List Operand) (p : List Int), R.Reads c' → (∀ d ∈ b.shape.tail, d.IndexOf c') →
            (b.elemOffset.isConstInt 0 ∨ b.elemOffset.IndexOf c' ∧ b.elemOffset.integer? R m ρ = some 0) →
            (∀ x ∈ xs, x.IsIndex c') → xs.length = b.shape.length → xs.mapM (Operand.integer? R m ρ) = some p →
            (∀ i ∈ p, c'.Holds i) → ∃ e, b.offsetOf xs = .ok e ∧ e.integer? R m ρ = some (dot (rowStrides ds) p)) ∧
          Set.BijOn (dot (rowStrides ds)) {p | List.Forall₂ (fun i d => 0 ≤ i ∧ i < d) p ds} (Set.Ico 0 ds.prod) ∧
          StrictMonoOn (dot (rowStrides ds)) {p | List.Forall₂ (fun i d => 0 ≤ i ∧ i < d) p ds} := by
  obtain ⟨strides, hstrides, hlength, hvalues⟩ := gives_shapeStrides hR hshape
  obtain ⟨total, htotal, -⟩ := gives_compactStride hR hshape
  refine ⟨strides, hlength, fun p name i => Prologue.checkCompact_eq hstrides htotal, fun {m ρ ds} hds hpos => ?_⟩
  have hdot : dot (rowStrides ds) = (Region.upTo ds).offset := funext fun p => (offset_upTo ds p).symm
  have hbox : {p | List.Forall₂ (fun i d => 0 ≤ i ∧ i < d) p ds} = {p | (Region.upTo ds).contains p} :=
    Set.ext fun p => Region.contains_upTo.symm
  refine ⟨hvalues hds fun d hd => Or.inr (hpos d hd).le, ?_, ?_, ?_⟩
  · intro c' xs p hR' htail hoffset hxs hrank hp hheld
    obtain ⟨e, he, hvalue⟩ := gives_offsetOf hR' hcompact htail (hoffset.imp_right And.left) hxs hrank
    exact ⟨e, he, hvalue hds hpos hp hheld (hoffset.imp_right And.right)⟩
  · rw [hdot, hbox, ← Region.size_upTo]
    exact Region.offset_bijOn (by simpa [Region.upTo] using hpos)
  · rw [hdot, hbox]
    exact Region.offset_strictMonoOn

namespace Fours

/-- A compact buffer of rows of four elements. -/
def rows (extent : Expr) (t : DataType) : Buffer :=
  ⟨⟨0, "B", .handle⟩, .float32, [extent, .const (.int 4) t], [], .const (.int 0) .int32, "B", "", (-1 : Int), (0 : Int)⟩

/-- As many rows as a variable of an unsigned type says. -/
def many : Buffer := rows (.var ⟨1, "n", ⟨.uint, 32, 1⟩⟩) .int32

def empty : Store Int := ⟨fun _ _ => none, fun _ _ => none⟩

theorem offsetOf_rowMajor_many : ∃ e, many.offsetOf [.number (.int 1), .number (.int 2)] = .ok e ∧
    e.integer? Stmt.Neighbours.reading empty (fun _ => 3) = some 6 ∧
      Set.BijOn (dot [4, 1]) {p | List.Forall₂ (fun i d => 0 ≤ i ∧ i < d) p [3, 4]} (Set.Ico 0 12) := by
  have hfour (c : TypeCode) : (Expr.const (.int 4) .int32).IndexOf c := Expr.indexOf_const c 4 ⟨rfl, rfl⟩
  have hshape : ∀ d ∈ many.shape, d.IndexOf .uint :=
    List.forall_mem_cons.mpr ⟨⟨⟨rfl, rfl⟩, rfl, fun _ _ => nofun⟩, List.forall_mem_singleton.mpr (hfour _)⟩
  have hreads : Stmt.Neighbours.reading.Reads .uint := fun _ _ _ _ => ⟨rfl, fun _ h => h⟩
  obtain ⟨strides, -, -, hlayout⟩ := offsetOf_rowMajor hreads (b := many) rfl hshape
  have hextents : many.shape.mapM (integer? Stmt.Neighbours.reading empty fun _ => 3) = some [3, 4] := rfl
  obtain ⟨-, hoffset, hbij, -⟩ := hlayout hextents (by decide)
  obtain ⟨e, he, hvalue⟩ := hoffset .int [.number (.int 1), .number (.int 2)] [1, 2] (ExactReading.reads_int _)
    (List.forall_mem_singleton.mpr (hfour _)) (.inl rfl)
    (List.forall_mem_cons.mpr ⟨.number 1, List.forall_mem_singleton.mpr (.number 2)⟩) rfl rfl fun _ _ => .inl rfl
  exact ⟨e, he, hvalue, hbij⟩

/-- Four rows, with constant extents of an unsigned type. -/
def unsigned : Buffer := rows (.const (.int 4) ⟨.uint, 32, 1⟩) ⟨.uint, 32, 1⟩

/-- Neither the offset of an element nor the strides are built of such extents: the constants that they are multiplied
    with are signed, and two constants do not adopt the type of each other. -/
theorem not_rowMajor_unsigned : unsigned.strides = [] ∧ (∀ d ∈ unsigned.shape, d.isConstInt 4) ∧
    unsigned.elemOffset.isConstInt 0 ∧
    unsigned.offsetOf [.number (.int 1), .number (.int 2)] = .error (.cannotCombine .int32 ⟨.uint, 32, 1⟩) ∧
      ({} : Prologue).checkCompact "f" unsigned 0 = .error (.cannotCombine .int32 ⟨.uint, 32, 1⟩) := by
  refine ⟨rfl, ?_, rfl, rfl, rfl⟩
  exact List.forall_mem_cons.mpr ⟨rfl, List.forall_mem_singleton.mpr rfl⟩

end Fours

end Buffer

end TensorNest

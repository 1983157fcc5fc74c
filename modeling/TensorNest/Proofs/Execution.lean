import Mathlib.Data.List.Forall2
import TensorNest.Proofs.Meaning
import TensorNest.Stmt.Visit

/-! # The execution of statements

What a statement does to the elements of tensors and to the cells of flat buffers. An element or a cell
that is not there can neither be read nor written, and then the statement has no execution: a tensor has
the elements of the region that is realized, a buffer the cells that are allocated. Both hold zeros at
first. All that a statement does it does in order, whatever the kinds of its loops are, and of a
conditional call only the chosen branch is evaluated.

As in the meaning of expressions, values are those of any type. A reading is exact if it computes with
integers as with integers of any size. -/

namespace TensorNest

/-- A reading that tells which values are integers and computes with these exactly. What the operations give does not
    depend on the type that they are carried out in. -/
structure ExactReading (V : Type) extends Reading V where
  int? : V → Option Int
  binary_any : ∀ (op : BinOp) (t u : DataType) (x y : V), binary op t x y = binary op u x y
  choose_any : ∀ (t u : DataType) (z x y : V), choose t z x y = choose u z x y
  ramp_any : ∀ (t u : DataType) (x y : V) (lanes : Int), ramp t x y lanes = ramp u x y lanes
  broadcast_any : ∀ (t u : DataType) (x : V) (lanes : Int), broadcast t x lanes = broadcast u x lanes
  int?_number : ∀ (n : Int) {t : DataType}, t.code = .int → int? (number (.int n) t) = some n
  int?_cast : ∀ {t : DataType} {x : V} {n : Int}, t.code = .int → int? x = some n → int? (cast t x) = some n
  int?_add : ∀ {t : DataType} {x y : V} {m n : Int}, int? x = some m → int? y = some n →
    int? (binary .add t x y) = some (m + n)
  int?_sub : ∀ {t : DataType} {x y : V} {m n : Int}, int? x = some m → int? y = some n →
    int? (binary .sub t x y) = some (m - n)
  int?_mul : ∀ {t : DataType} {x y : V} {m n : Int}, int? x = some m → int? y = some n →
    int? (binary .mul t x y) = some (m * n)

/-! ### Regions -/

/-- A region of indices: the first index and the number of indices of each dimension. -/
abbrev Region := List (Int × Int)

namespace Region

/-- The number of elements. -/
def size : Region → Int
  | [] => 1
  | (_, extent) :: r => extent * size r

/-- Whether a region has an element at some indices. -/
def contains : Region → List Int → Bool
  | [], [] => true
  | (min, extent) :: r, i :: p => decide (min ≤ i) && decide (i < min + extent) && contains r p
  | _, _ => false

/-- The place of an element if rows are stored one after the other. -/
def offset : Region → List Int → Int
  | (min, _) :: r, i :: p => (i - min) * size r + offset r p
  | _, _ => 0

variable {r : Region} {p q : List Int}

/-- The elements of a region stand inside as many cells as it has elements. -/
theorem offset_bounds (h : r.contains p) : 0 ≤ r.offset p ∧ r.offset p < r.size := by
  induction r generalizing p with
  | nil => exact ⟨Int.le_refl 0, Int.one_pos⟩
  | cons b r ih =>
    obtain ⟨lo, d⟩ := b
    obtain _ | ⟨i, p⟩ := p
    · cases h
    · simp only [contains, Bool.and_eq_true, decide_eq_true_eq] at h
      obtain ⟨⟨hlo, hhi⟩, hp⟩ := h
      obtain ⟨hnonneg, hlt⟩ := ih hp
      have hstart : 0 ≤ (i - lo) * size r := Int.mul_nonneg (by omega) (by omega)
      have hend : (i - lo + 1) * size r ≤ d * size r := Int.mul_le_mul_of_nonneg_right (by omega) (by omega)
      rw [Int.add_mul, Int.one_mul] at hend
      simp only [offset, size]
      omega

theorem eq_of_mul_add_eq {k a b x y : Int} (ha : 0 ≤ a) (hak : a < k) (hb : 0 ≤ b) (hbk : b < k)
    (h : x * k + a = y * k + b) : x = y ∧ a = b := by
  have hx : (x * k + a) / k = x := by
    rw [Int.add_comm, Int.add_mul_ediv_right _ _ (by omega), Int.ediv_eq_zero_of_lt ha hak, Int.zero_add]
  have hy : (y * k + b) / k = y := by
    rw [Int.add_comm, Int.add_mul_ediv_right _ _ (by omega), Int.ediv_eq_zero_of_lt hb hbk, Int.zero_add]
  obtain rfl : x = y := by rw [← hx, ← hy, h]
  exact ⟨rfl, by omega⟩

/-- Distinct elements of a region stand at distinct places. -/
theorem offset_injective (hp : r.contains p) (hq : r.contains q) (h : r.offset p = r.offset q) : p = q := by
  induction r generalizing p q with
  | nil =>
    obtain _ | _ := p
    · obtain _ | _ := q
      · rfl
      · cases hq
    · cases hp
  | cons b r ih =>
    obtain ⟨lo, d⟩ := b
    obtain _ | ⟨i, p⟩ := p
    · cases hp
    obtain _ | ⟨j, q⟩ := q
    · cases hq
    simp only [contains, Bool.and_eq_true] at hp hq
    obtain ⟨hp0, hp1⟩ := offset_bounds hp.2
    obtain ⟨hq0, hq1⟩ := offset_bounds hq.2
    obtain ⟨hij, hrest⟩ := eq_of_mul_add_eq hp0 hp1 hq0 hq1 h
    rw [ih hp.2 hq.2 hrest, show i = j by omega]

theorem length_of_contains (h : r.contains p) : p.length = r.length := by
  induction r generalizing p with
  | nil =>
    obtain _ | _ := p
    · rfl
    · cases h
  | cons b r ih =>
    obtain _ | ⟨i, p⟩ := p
    · cases h
    · simp only [contains, Bool.and_eq_true] at h
      rw [List.length_cons, ih h.2, List.length_cons]

end Region

/-! ### Memory -/

/-- The elements of tensors, by operation, output and indices, and the cells of buffers, by the number of
    the buffer's variable and the address, as far as they are there. -/
structure Store (V : Type) where
  tensor : Nat × Int → List Int → Option V
  cell : Nat → Int → Option V

variable {V : Type}

namespace Store

/-- Gives a tensor other elements. -/
def setTensor (m : Store V) (key : Nat × Int) (elements : List Int → Option V) : Store V :=
  { m with tensor := Function.update m.tensor key elements }

/-- Gives a buffer other cells. -/
def setBuffer (m : Store V) (b : Nat) (cells : Int → Option V) : Store V :=
  { m with cell := Function.update m.cell b cells }

/-- Sets an element, which has to be there. -/
def provide (m : Store V) (key : Nat × Int) (p : List Int) (x : V) : Option (Store V) :=
  if (m.tensor key p).isSome then some (m.setTensor key (Function.update (m.tensor key) p (some x))) else none

/-- Sets a cell, which has to be there. -/
def store (m : Store V) (b : Nat) (i : Int) (x : V) : Option (Store V) :=
  if (m.cell b i).isSome then some (m.setBuffer b (Function.update (m.cell b) i (some x))) else none

variable {m n : Store V} {key : Nat × Int} {b : Nat} {p : List Int} {i : Int} {x : V}

theorem provide_eq_some : m.provide key p x = some n ↔
    (m.tensor key p).isSome ∧ n = m.setTensor key (Function.update (m.tensor key) p (some x)) := by
  unfold provide
  split <;> rename_i h <;> simp [h, eq_comm (a := n)]

theorem store_eq_some : m.store b i x = some n ↔
    (m.cell b i).isSome ∧ n = m.setBuffer b (Function.update (m.cell b) i (some x)) := by
  unfold store
  split <;> rename_i h <;> simp [h, eq_comm (a := n)]

@[simp] theorem cell_setTensor (elements : List Int → Option V) : (m.setTensor key elements).cell = m.cell := rfl

@[simp] theorem tensor_setBuffer (cells : Int → Option V) : (m.setBuffer b cells).tensor = m.tensor := rfl

@[simp] theorem tensor_setTensor (elements : List Int → Option V) :
    (m.setTensor key elements).tensor key = elements := Function.update_self ..

theorem tensor_setTensor_of_ne {key' : Nat × Int} (h : key' ≠ key) (elements : List Int → Option V) :
    (m.setTensor key elements).tensor key' = m.tensor key' := Function.update_of_ne h ..

@[simp] theorem cell_setBuffer (cells : Int → Option V) : (m.setBuffer b cells).cell b = cells :=
  Function.update_self ..

theorem cell_setBuffer_of_ne {b' : Nat} (h : b' ≠ b) (cells : Int → Option V) :
    (m.setBuffer b cells).cell b' = m.cell b' := Function.update_of_ne h ..

end Store

/-! ### Expressions -/

namespace Expr

variable (R : ExactReading V) (m : Store V)

/-- The value of an expression. -/
@[simp] def value? : Expr → Valuation V → Option V
  | var v, ρ => some (ρ v.id)
  | const x t, _ => some (R.number x t)
  | str s, _ => some (R.text s)
  | cast t a, ρ => do
    let x ← a.value? ρ
    return R.cast t x
  | bin op a b, ρ => do
    let x ← a.value? ρ
    let y ← b.value? ρ
    return R.binary op a.dtype x y
  | not a, ρ => do
    let x ← a.value? ρ
    return R.negate x
  | select c a b, ρ => do
    let z ← c.value? ρ
    let x ← a.value? ρ
    let y ← b.value? ρ
    return R.choose a.dtype z x y
  | call _ _ args .tensorRead (some f) index, ρ => do
    let p ← integers args ρ
    m.tensor (f.idx, index.toInt) p
  | call t name args kind _ index, ρ =>
    if name == "xte_if_then_else" then branch args ρ
    else do
      let xs ← ofList args ρ
      return R.call t name kind index.toInt xs
  | bind v value body, ρ => do
    let x ← value.value? ρ
    body.value? (Function.update ρ v.id x)
  | load _ (var b) index none, ρ => do
    let x ← index.value? ρ
    let i ← R.int? x
    m.cell b.id i
  | ramp base stride lanes, ρ => do
    let x ← base.value? ρ
    let y ← stride.value? ρ
    return R.ramp base.dtype x y lanes
  | broadcast a lanes, ρ => do
    let x ← a.value? ρ
    return R.broadcast a.dtype x lanes
  | load .., _ | reduce .., _ => none
where
  /-- The values of expressions. -/
  ofList : List Expr → Valuation V → Option (List V)
    | [], _ => some []
    | e :: es, ρ => do
      let x ← e.value? ρ
      let xs ← ofList es ρ
      return x :: xs
  /-- The integers that are the values of expressions. -/
  integers : List Expr → Valuation V → Option (List Int)
    | [], _ => some []
    | e :: es, ρ => do
      let x ← e.value? ρ
      let i ← R.int? x
      let is ← integers es ρ
      return i :: is
  /-- The value of the branch that a condition chooses. -/
  branch : List Expr → Valuation V → Option V
    | [c, a, b], ρ => do
      let z ← c.value? ρ
      if R.truth z then a.value? ρ else b.value? ρ
    | _, _ => none

/-- The integer that is the value of an expression. -/
def integer? (ρ : Valuation V) (e : Expr) : Option Int := do
  let x ← e.value? R m ρ
  R.int? x

variable {R m} {ρ : Valuation V}

theorem integer?_eq_some {e : Expr} {i : Int} :
    e.integer? R m ρ = some i ↔ ∃ x, e.value? R m ρ = some x ∧ R.int? x = some i :=
  Option.bind_eq_some_iff

theorem integers_eq_mapM (es : List Expr) : value?.integers R m es ρ = es.mapM (integer? R m ρ) := by
  induction es with
  | nil => rfl
  | cons e es ih =>
    rw [value?.integers, ih, List.mapM_cons, integer?]
    simp only [Option.bind_eq_bind, Option.bind_assoc]

/-- Whatever value an expression has in one execution, another one has in another execution. -/
def Imitates (R : ExactReading V) (m : Store V) (ρ : Valuation V) (m' : Store V) (σ : Valuation V) (e e' : Expr) : Prop :=
  ∀ x, e.value? R m ρ = some x → e'.value? R m' σ = some x

section Imitates
variable {m' : Store V} {σ : Valuation V} {a b c a' b' c' : Expr}

theorem Imitates.integer? {i : Int} (h : Imitates R m ρ m' σ a a') (hi : a.integer? R m ρ = some i) :
    a'.integer? R m' σ = some i := by
  obtain ⟨x, hx, hxi⟩ := integer?_eq_some.mp hi
  exact integer?_eq_some.mpr ⟨x, h x hx, hxi⟩

theorem Imitates.integers {es es' : List Expr} {is : List Int} (h : List.Forall₂ (Imitates R m ρ m' σ) es es')
    (his : es.mapM (Expr.integer? R m ρ) = some is) : es'.mapM (Expr.integer? R m' σ) = some is := by
  induction h generalizing is with
  | nil => exact his
  | cons he _ ih =>
    simp only [List.mapM_cons, Option.bind_eq_bind, Option.bind_eq_some_iff] at his ⊢
    obtain ⟨i, hi, is', his', heq⟩ := his
    exact ⟨i, he.integer? hi, is', ih his', heq⟩

theorem Imitates.values {es es' : List Expr} {xs : List V} (h : List.Forall₂ (Imitates R m ρ m' σ) es es')
    (hxs : value?.ofList R m es ρ = some xs) : value?.ofList R m' es' σ = some xs := by
  induction h generalizing xs with
  | nil => exact hxs
  | cons he _ ih =>
    simp only [value?.ofList, Option.bind_eq_bind, Option.bind_eq_some_iff] at hxs ⊢
    obtain ⟨x, hx, xs', hxs', heq⟩ := hxs
    exact ⟨x, he x hx, xs', ih hxs', heq⟩

/-! An expression imitates another one if its parts do. -/

theorem imitates_cast (t : DataType) (h : Imitates R m ρ m' σ a a') :
    Imitates R m ρ m' σ (.cast t a) (.cast t a') := by
  intro x hx
  simp only [value?, Option.bind_eq_bind, Option.bind_eq_some_iff] at hx ⊢
  obtain ⟨y, hy, heq⟩ := hx
  exact ⟨y, h y hy, heq⟩

theorem imitates_bin (op : BinOp) (ha : Imitates R m ρ m' σ a a') (hb : Imitates R m ρ m' σ b b') :
    Imitates R m ρ m' σ (.bin op a b) (.bin op a' b') := by
  intro x hx
  simp only [value?, Option.bind_eq_bind, Option.bind_eq_some_iff] at hx ⊢
  obtain ⟨y, hy, z, hz, heq⟩ := hx
  rw [R.binary_any op a.dtype a'.dtype] at heq
  exact ⟨y, ha y hy, z, hb z hz, heq⟩

theorem imitates_not (h : Imitates R m ρ m' σ a a') : Imitates R m ρ m' σ (.not a) (.not a') := by
  intro x hx
  simp only [value?, Option.bind_eq_bind, Option.bind_eq_some_iff] at hx ⊢
  obtain ⟨y, hy, heq⟩ := hx
  exact ⟨y, h y hy, heq⟩

theorem imitates_select (hc : Imitates R m ρ m' σ c c') (ha : Imitates R m ρ m' σ a a')
    (hb : Imitates R m ρ m' σ b b') : Imitates R m ρ m' σ (.select c a b) (.select c' a' b') := by
  intro x hx
  simp only [value?, Option.bind_eq_bind, Option.bind_eq_some_iff] at hx ⊢
  obtain ⟨w, hw, y, hy, z, hz, heq⟩ := hx
  rw [R.choose_any a.dtype a'.dtype] at heq
  exact ⟨w, hc w hw, y, ha y hy, z, hb z hz, heq⟩

theorem imitates_ramp (lanes : Int) (ha : Imitates R m ρ m' σ a a') (hb : Imitates R m ρ m' σ b b') :
    Imitates R m ρ m' σ (.ramp a b lanes) (.ramp a' b' lanes) := by
  intro x hx
  simp only [value?, Option.bind_eq_bind, Option.bind_eq_some_iff] at hx ⊢
  obtain ⟨y, hy, z, hz, heq⟩ := hx
  rw [R.ramp_any a.dtype a'.dtype] at heq
  exact ⟨y, ha y hy, z, hb z hz, heq⟩

theorem imitates_broadcast (lanes : Int) (h : Imitates R m ρ m' σ a a') :
    Imitates R m ρ m' σ (.broadcast a lanes) (.broadcast a' lanes) := by
  intro x hx
  simp only [value?, Option.bind_eq_bind, Option.bind_eq_some_iff] at hx ⊢
  obtain ⟨y, hy, heq⟩ := hx
  rw [R.broadcast_any a.dtype a'.dtype] at heq
  exact ⟨y, h y hy, heq⟩

theorem imitates_bind (v : Var) (ha : Imitates R m ρ m' σ a a')
    (hb : ∀ x, Imitates R m (Function.update ρ v.id x) m' (Function.update σ v.id x) b b') :
    Imitates R m ρ m' σ (.bind v a b) (.bind v a' b') := by
  intro x hx
  simp only [value?, Option.bind_eq_bind, Option.bind_eq_some_iff] at hx ⊢
  obtain ⟨y, hy, hx⟩ := hx
  exact ⟨y, ha y hy, hb y x hx⟩

/-- A call that reads no tensor imitates another one if its arguments do; of a conditional call only those
    that are evaluated matter. -/
theorem imitates_call {t : DataType} {name : String} {kind : CallKind} {func : Option OpRef} {index : Ordinal}
    (hread : kind = .tensorRead → func = none) {args args' : List Expr}
    (h : List.Forall₂ (Imitates R m ρ m' σ) args args') :
    Imitates R m ρ m' σ (.call t name args kind func index) (.call t name args' kind func index) := by
  have hcall : ∀ (m : Store V) (ρ : Valuation V) (args : List Expr),
      (Expr.call t name args kind func index).value? R m ρ =
        if name == "xte_if_then_else" then value?.branch R m args ρ
        else do
          let xs ← value?.ofList R m args ρ
          return R.call t name kind index.toInt xs := by
    intro m ρ args
    rw [value?]
    rintro f rfl rfl
    exact absurd (hread rfl) (by simp)
  intro x hx
  rw [hcall] at hx ⊢
  split at hx
  · rename_i hname
    rw [if_pos hname]
    match args, args', h with
    | [_, _, _], _, .cons hc (.cons ha (.cons hb .nil)) =>
      simp only [value?.branch, Option.bind_eq_bind, Option.bind_eq_some_iff] at hx ⊢
      obtain ⟨z, hz, hx⟩ := hx
      refine ⟨z, hc z hz, ?_⟩
      split at hx
      · rename_i htrue
        rw [if_pos htrue]
        exact ha x hx
      · rename_i hfalse
        rw [if_neg hfalse]
        exact hb x hx
    | [], _, _ | [_], _, _ | [_, _], _, _ | _ :: _ :: _ :: _ :: _, _, _ => cases hx
  · rename_i hname
    rw [if_neg hname]
    simp only [Option.bind_eq_bind, Option.bind_eq_some_iff] at hx ⊢
    obtain ⟨xs, hxs, heq⟩ := hx
    exact ⟨xs, Imitates.values h hxs, heq⟩

end Imitates

theorem value?_load (hbare : ∀ b i, m.cell b i = none) (t : DataType) (buffer index : Expr) (pred : Option Expr) :
    (Expr.load t buffer index pred).value? R m ρ = none := by
  unfold value?
  split
  all_goals simp_all

/-- An expression that reads no tensor and whose variables have the same values under two valuations. -/
def Steady (ρ σ : Valuation V) (e : Expr) : Prop :=
  e.tensorReads = [] ∧ ∀ v ∈ e.vars, σ v.id = ρ v.id

theorem Steady.part {ρ σ : Valuation V} {a e : Expr} (h : e.Steady ρ σ) (ha : a ∈ e.parts) : a.Steady ρ σ :=
  ⟨List.eq_nil_of_subset_nil (h.1 ▸ tensorReads_subset ha),
    fun v hv => h.2 v (List.filterMap_subset _ (postorder_subset ha) hv)⟩

/-- Where no buffer has a cell, an expression that reads no tensor has its value in every execution in which
    its variables have the same values. -/
theorem Steady.imitates {m' : Store V} {σ : Valuation V} (hbare : ∀ b i, m.cell b i = none) {e : Expr}
    (h : e.Steady ρ σ) : Imitates R m ρ m' σ e e := by
  induction e generalizing ρ σ with
  | var v =>
    intro x hx
    rw [value?] at hx ⊢
    rw [h.2 v (by simp [vars, postorder, asVar?])]
    exact hx
  | const | str => exact fun x hx => hx
  | cast t a ih => exact imitates_cast t (ih (h.part (by simp [parts])))
  | bin op a b iha ihb => exact imitates_bin op (iha (h.part (by simp [parts]))) (ihb (h.part (by simp [parts])))
  | not a ih => exact imitates_not (ih (h.part (by simp [parts])))
  | select c a b ihc iha ihb =>
    exact imitates_select (ihc (h.part (by simp [parts]))) (iha (h.part (by simp [parts]))) (ihb (h.part (by simp [parts])))
  | call t name args kind func index ih =>
    refine imitates_call (fun hkind => ?_) (List.forall₂_same.mpr fun a ha => ih a ha (h.part ha))
    subst hkind
    cases func with
    | none => rfl
    | some f => exact absurd (h.1 ▸ mem_tensorReads_call t name args f index) List.not_mem_nil
  | bind v value body ihv ihb =>
    refine imitates_bind v (ihv (h.part (by simp [parts]))) fun x => ihb ?_
    have hbody : body.Steady ρ σ := h.part (by simp [parts])
    refine ⟨hbody.1, fun w hw => ?_⟩
    by_cases hwv : w.id = v.id
    · rw [hwv, Function.update_self, Function.update_self]
    · rw [Function.update_of_ne hwv, Function.update_of_ne hwv, hbody.2 w hw]
  | load t buffer index pred =>
    intro x hx
    rw [value?_load hbare] at hx
    cases hx
  | ramp a b lanes iha ihb => exact imitates_ramp lanes (iha (h.part (by simp [parts]))) (ihb (h.part (by simp [parts])))
  | broadcast a lanes ih => exact imitates_broadcast lanes (ih (h.part (by simp [parts])))
  | reduce =>
    intro x hx
    rw [value?] at hx
    cases hx

end Expr

/-! ### Statements -/

namespace Stmt

/-- Induction on a statement and on all statements in it. -/
@[elab_as_elim, induction_eliminator]
theorem induct {motive : Stmt → Prop}
    (bind : ∀ v value body, motive body → motive (.bind v value body))
    (attr : ∀ subject key value body, motive body → motive (.attr subject key value body))
    (assert : ∀ cond message body, motive body → motive (.assert cond message body))
    (loop : ∀ v min extent kind body, motive body → motive (.loop v min extent kind body))
    (store : ∀ buffer value index pred, motive (.store buffer value index pred))
    (provide : ∀ op output value args, motive (.provide op output value args))
    (allocate : ∀ site b dtype extents cond body, motive body → motive (.allocate site b dtype extents cond body))
    (realize : ∀ op output dtype bounds cond body, motive body → motive (.realize op output dtype bounds cond body))
    (prefetch : ∀ op output dtype bounds, motive (.prefetch op output dtype bounds))
    (seq : ∀ ss, (∀ s ∈ ss, motive s) → motive (.seq ss))
    (branch : ∀ cond onTrue onFalse, motive onTrue → (∀ s ∈ onFalse, motive s) → motive (.branch cond onTrue onFalse))
    (eval : ∀ e, motive (.eval e)) (s : Stmt) : motive s := by
  exact @Stmt.rec motive (fun ss => ∀ s ∈ ss, motive s) (fun o => ∀ s ∈ o, motive s)
    bind attr assert loop store provide allocate realize prefetch seq branch eval
    (List.forall_mem_nil _) (fun _ _ h hs => List.forall_mem_cons.mpr ⟨h, hs⟩)
    (fun _ h => nomatch h) (fun _ h _ hs => Option.mem_some.mp hs ▸ h) s

variable (R : ExactReading V) (external : Nat × Int → Bool)

/-- The region of some ranges. -/
def region? (m : Store V) (ρ : Valuation V) (bounds : List Range) : Option Region :=
  bounds.mapM fun r => do
    let min ← r.min.integer? R m ρ
    let extent ← r.extent.integer? R m ρ
    return (min, extent)

/-- The elements of a realized region, and nothing outside of it. -/
def zeros (t : DataType) (r : Region) (p : List Int) : Option V :=
  if r.contains p then some (R.number (.int 0) t) else none

/-- The cells of a buffer of a size. -/
def zeroCells (t : DataType) (size : Int) (i : Int) : Option V :=
  if 0 ≤ i ∧ i < size then some (R.number (.int 0) t) else none

/-- Executes a statement. The tensors for which `external` holds are given: realizing them opens nothing. -/
def run : Stmt → Valuation V → Store V → Option (Store V)
  | provide op output value args, ρ, m => do
    let x ← value.value? R m ρ
    let p ← args.mapM (·.integer? R m ρ)
    m.provide (op.idx, output) p x
  | store (.var b) value index none, ρ, m => do
    let x ← value.value? R m ρ
    let i ← index.integer? R m ρ
    m.store b.id i x
  | loop v min extent _ body, ρ, m => do
    let start ← min.integer? R m ρ
    let count ← extent.integer? R m ρ
    (List.range count.toNat).foldlM (fun m (k : Nat) =>
      body.run (Function.update ρ v.id (R.counter v.dtype (start + k))) m) m
  | realize op output t bounds _ body, ρ, m =>
    if external (op.idx, output) then body.run ρ m
    else do
      let r ← region? R m ρ bounds
      -- A region has no negative extents.
      if r.any (·.2 < 0) then none
      let n ← body.run ρ (m.setTensor (op.idx, output) (zeros R t r))
      return n.setTensor (op.idx, output) (m.tensor (op.idx, output))
  | allocate _ b t extents _ body, ρ, m => do
    let dims ← extents.mapM (·.integer? R m ρ)
    let size := dims.foldl (· * ·) 1
    if size < 0 then none
    let n ← body.run ρ (m.setBuffer b.id (zeroCells R t size))
    return n.setBuffer b.id (m.cell b.id)
  | attr _ "storage_scope" _ body, ρ, m => body.run ρ m
  | seq ss, ρ, m => runAll ss ρ m
  | branch cond onTrue none, ρ, m => do
    let c ← cond.value? R m ρ
    if R.truth c then onTrue.run ρ m else return m
  | branch cond onTrue (some onFalse), ρ, m => do
    let c ← cond.value? R m ρ
    if R.truth c then onTrue.run ρ m else onFalse.run ρ m
  | _, _, _ => none
where
  /-- Executes statements, one after the other. -/
  runAll : List Stmt → Valuation V → Store V → Option (Store V)
    | [], _, m => some m
    | s :: ss, ρ, m => do
      let n ← s.run ρ m
      runAll ss ρ n

end Stmt

end TensorNest

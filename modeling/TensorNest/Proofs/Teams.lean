import TensorNest.Lowering.Barrier
import TensorNest.Proofs.Execution
import TensorNest.Proofs.Readings
import TensorNest.Run.Suspension

/-! # Statements run by teams of threads

How a thread executes a statement beside others. It has elements and cells of its own, and shares the buffers whose
storage scope is that of shared memory: the first thread to come to an allocation fills such a buffer with zeros. A
barrier makes it wait. As before, an execution is missing where something is read or written that is not there. A thread
may be kept to some of the cells of shared buffers; the others are not there for it.

Values are those of a reading that computes with indices and truth values as with integers of any size. -/

namespace TensorNest

/-- A reading that computes with indices and truth values as with integers of any size, and tells which values are
    integers. -/
structure ScalarReading (V : Type) extends FaithfulReading V, ExactReading V where
  holds_all : ∀ (t : DataType) (n : Int), holds t n
  arith_all : ∀ {op : BinOp} {t : DataType}, op.isLogical = false → t.IsIndex → ∀ m n,
    binary op t (index m) (index n) = index (op.onInts m n)

/-- The integers read themselves. -/
def ScalarReading.integers : ScalarReading Int where
  toFaithfulReading := .integers
  holds_all _ _ := rfl
  arith_all _ _ _ _ := rfl
  int? := some
  binary_any _ _ _ _ _ := rfl
  choose_any _ _ _ _ _ := rfl
  ramp_any _ _ _ _ _ := rfl
  broadcast_any _ _ _ _ := rfl
  int?_number _ _ _ := rfl
  int?_cast _ h := h
  int?_add hx hy := by cases hx; cases hy; rfl
  int?_sub hx hy := by cases hx; cases hy; rfl
  int?_mul hx hy := by cases hx; cases hy; rfl

variable {V : Type}

/-- The buffers that threads share, as far as they are allocated. -/
abbrev Shared (V : Type) := Nat → Option (Int → Option V)

namespace Store

/-- What a thread sees: what it has of its own, and the cells of shared buffers that it may reach. -/
def beside (m : Store V) (reach : Nat → Int → Bool) (S : Shared V) : Store V :=
  { m with cell := fun b i =>
      match S b with
      | some cells => if reach b i then cells i else none
      | none => m.cell b i }

/-- Sets a cell that a thread sees. -/
def put (m : Store V) (reach : Nat → Int → Bool) (S : Shared V) (b : Nat) (i : Int) (x : V) : Option (Store V × Shared V) :=
  match S b with
  | some cells =>
    if reach b i ∧ (cells i).isSome then some (m, Function.update S b (some (Function.update cells i (some x)))) else none
  | none => do
    let m ← m.store b i x
    return (m, S)

variable {m : Store V} {reach : Nat → Int → Bool} {S : Shared V} {b : Nat} {cells : Int → Option V} {i : Int} {x : V}

theorem cell_beside_shared (hb : S b = some cells) (hi : reach b i = true) : (m.beside reach S).cell b i = cells i := by
  simp [beside, hb, hi]

theorem put_shared (hb : S b = some cells) (hi : reach b i = true) (hcell : (cells i).isSome) :
    m.put reach S b i x = some (m, Function.update S b (some (Function.update cells i (some x)))) := by
  rw [put, hb]
  exact if_pos ⟨hi, hcell⟩

theorem put_own (hb : S b = none) (hcell : (m.cell b i).isSome) :
    m.put reach S b i x = some (m.setBuffer b (Function.update (m.cell b) i (some x)), S) := by
  rw [put, hb, store, if_pos hcell]
  rfl

end Store

/-! ### Scalars -/

section Scalars
variable {R : ScalarReading V} {M : Store V} {Γ : Context} {ρ : Valuation Int} {π : Valuation V} {t : DataType} {e : Expr}
  {n : Int}

theorem ScalarReading.keeps_all (R : ScalarReading V) (t : DataType) (n : Int) : R.keeps t n := by
  rw [FaithfulReading.keeps, R.holds_all, Bool.or_true]

open FaithfulReading in
/-- An operation gives what it gives over the integers, divisions by 0 included. -/
theorem ScalarReading.binary_scalar {op : BinOp} {u : DataType} (hop : op.Maps t u) {m n : Int} (ht : t.IsIndex ∨ t = .bool)
    (hm : t = .bool → m = 0 ∨ m = 1) (hn : t = .bool → n = 0 ∨ n = 1) :
    R.binary op t (R.scalar t m) (R.scalar t n) = R.scalar u (op.onInts m n) := by
  by_cases hdiv : op.Divides
  · cases hop with
    | arith hop ht => rw [scalar_index ht, scalar_index ht, scalar_index ht, R.arith_all hop ht]
    | compare hop => obtain rfl | rfl := hdiv <;> cases hop
    | _ => obtain hdiv | hdiv := hdiv <;> cases hdiv
  · exact FaithfulReading.binary_scalar hop ht hm hn (R.keeps_all _ _) (R.keeps_all _ _) (fun h => absurd h hdiv)
      fun _ => R.keeps_all _ _

open FaithfulReading in
/-- A well-typed expression has the value that stands for its number, whatever is there to be read. -/
theorem Expr.Typed.value?_eq (h : e.Typed Γ t) (hρ : R.Represents Γ ρ π) :
    e.value? R.toExactReading M π = some (R.scalar t (e.integer ρ)) := by
  induction h generalizing ρ π with
  | var hv ht => rw [value?, hρ _ (by rw [hv]; exact Option.some_ne_none _), integer_var, scalar_index ht]
  | const hx =>
    rw [value?, integer_const, hx.asInt?, Option.getD_some]; exact congrArg some (number_literal hx (R.keeps_all _ _))
  | cast ht hu _ ih =>
    rw [value?, ih hρ, integer_cast, scalar_index hu, scalar_index ht]
    exact congrArg some (R.cast_index ht (R.holds_all _ _))
  | bin hop ha hb iha ihb =>
    rw [value?, iha hρ, ihb hρ, integer_bin, ha.dtype]
    exact congrArg some (R.binary_scalar hop ha.kind (fun heq => (heq ▸ ha).truth ρ) fun heq => (heq ▸ hb).truth ρ)
  | @not Γ a _ ih =>
    rw [value?, ih hρ, integer_not, scalar_bool, scalar_toInt]
    exact congrArg some ((R.negate_flag _).trans (congrArg R.flag (by by_cases ha : a.integer ρ = 0 <;> simp [ha])))
  | @select Γ t c a b _ ha _ ihc iha ihb =>
    rw [value?, ihc hρ, iha hρ, ihb hρ, integer_select, scalar_bool, ha.dtype]
    refine congrArg some ?_
    obtain ht | rfl := ha.kind
    · rw [scalar_index ht, scalar_index ht, scalar_index ht]
      refine (R.choose_index ht (R.holds_all _ _) (R.holds_all _ _)).trans ?_
      by_cases hc : c.integer ρ = 0 <;> simp [hc]
    · rw [scalar_bool, scalar_bool, scalar_bool]
      refine (R.choose_flag _ _ _).trans ?_
      by_cases hc : c.integer ρ = 0 <;> simp [hc]
  | @bind Γ t v a b hv _ _ iha ihb =>
    rw [value?, iha hρ, scalar_index hv, integer_bind]
    exact ihb (hρ.extend v _)
  | @likely Γ c _ ih =>
    have hcall : (Expr.call .bool "likely" [c] .pureIntrinsic none 0).value? R.toExactReading M π =
        (c.value? R.toExactReading M π).map fun x => R.call .bool "likely" .pureIntrinsic 0 [x] := by
      cases hc : c.value? R.toExactReading M π <;> simp [value?, value?.ofList, hc]
    rw [hcall, ih hρ, integer_likely, Option.map_some, R.likely]

theorem ScalarReading.int?_index (n : Int) : R.int? (R.index n) = some n := by
  have hint : DataType.int32.IsIndex := ⟨rfl, rfl⟩
  rw [← R.number_int hint (R.holds_all _ _)]
  exact R.int?_number n rfl

theorem Expr.Amounts.integer?_eq (h : e.Amounts Γ ρ n) (hρ : R.Represents Γ ρ π) :
    e.integer? R.toExactReading M π = some n := by
  obtain ⟨t, ht, h⟩ := h
  rw [integer?_eq_some]
  refine ⟨R.index n, ?_, ScalarReading.int?_index n⟩
  rw [h.typed.value?_eq hρ, FaithfulReading.scalar_index ht, h.value]

/-- A condition has a value that counts as true if and only if its number is not 0. -/
theorem Expr.Evaluates.truth?_eq {B : List Nat} {H : Prop} (h : Evaluates Γ B H ρ .bool e n) (hρ : R.Represents Γ ρ π) :
    ∃ c, e.value? R.toExactReading M π = some c ∧ R.truth c = decide (n ≠ 0) := by
  refine ⟨_, h.typed.value?_eq hρ, ?_⟩
  rw [FaithfulReading.scalar_bool, R.truth_flag, h.value]
  by_cases hn : n = 0 <;> simp [hn]

end Scalars

/-! ### Threads -/

/-- How a thread goes on with what it has of its own and with the shared buffers. It ends with what it then has of its own,
    unless it fails. -/
abbrev Course (V : Type) := Store V → Shared V → Resumption (Shared V) (Option (Store V))

/-- Goes on with something if it is there, and fails otherwise. -/
def orFail {α : Type} (S : Shared V) (o : Option α) (k : α → Resumption (Shared V) (Option (Store V))) :
    Resumption (Shared V) (Option (Store V)) :=
  match o with
  | some a => k a
  | none => .done none S

namespace Stmt

variable (R : ScalarReading V) (reach : Nat → Int → Bool)

/-- Executes a statement and goes on. The buffers of some variables are in shared memory; those of the others belong to the
    thread. The variable of a thread axis has the coordinate of the thread as its value. -/
def play : Stmt → List Nat → Valuation V → Course V → Course V
  | store (.var b) value index none, _, ρ, k => fun m S =>
    orFail S (value.value? R.toExactReading (m.beside reach S) ρ) fun x =>
      orFail S (index.integer? R.toExactReading (m.beside reach S) ρ) fun i =>
        orFail S (m.put reach S b.id i x) fun p => k p.1 p.2
  | bind v e body, shared, ρ, k => fun m S =>
    orFail S (e.value? R.toExactReading (m.beside reach S) ρ) fun x => body.play shared (Function.update ρ v.id x) k m S
  | assert cond _ body, shared, ρ, k => fun m S =>
    orFail S (cond.value? R.toExactReading (m.beside reach S) ρ) fun c =>
      if R.truth c then body.play shared ρ k m S else .done none S
  | branch cond onTrue none, shared, ρ, k => fun m S =>
    orFail S (cond.value? R.toExactReading (m.beside reach S) ρ) fun c =>
      if R.truth c then onTrue.play shared ρ k m S else k m S
  | branch cond onTrue (some onFalse), shared, ρ, k => fun m S =>
    orFail S (cond.value? R.toExactReading (m.beside reach S) ρ) fun c =>
      if R.truth c then onTrue.play shared ρ k m S else onFalse.play shared ρ k m S
  | loop v min extent _ body, shared, ρ, k => fun m S =>
    orFail S (min.integer? R.toExactReading (m.beside reach S) ρ) fun start =>
      orFail S (extent.integer? R.toExactReading (m.beside reach S) ρ) fun count =>
        (List.range count.toNat).foldr (fun (j : Nat) k =>
          body.play shared (Function.update ρ v.id (R.counter v.dtype (start + j))) k) k m S
  | attr (.axis iv) "thread_extent" extent body, shared, ρ, k => fun m S =>
    orFail S (R.int? (ρ iv.id)) fun c =>
      orFail S (extent.integer? R.toExactReading (m.beside reach S) ρ) fun n =>
        if c < n then body.play shared ρ k m S else k m S
  | attr (.var b) "storage_scope" scope body, shared, ρ, k =>
    body.play (match scope with | .str "shared" => b.id :: shared | _ => shared.filter (· != b.id)) ρ k
  | attr _ _ _ body, shared, ρ, k => body.play shared ρ k
  | allocate site b t extents _ body, shared, ρ, k => fun m S =>
    orFail S (extents.mapM (·.integer? R.toExactReading (m.beside reach S) ρ)) fun dims =>
      let size := dims.foldl (· * ·) 1
      if size < 0 then .done none S
      else if b.id ∈ shared then
        body.play shared ρ k m
          (if (S b.id).isSome then S else Function.update S b.id (some (zeroCells R.toExactReading t size)))
      else
        body.play shared ρ (fun n S => k (n.setBuffer b.id (m.cell b.id)) S)
          (m.setBuffer b.id (zeroCells R.toExactReading t size)) S
  | seq ss, shared, ρ, k => playAll ss shared ρ k
  | eval e, _, ρ, k =>
    if e.isIntrinsic "xte_storage_sync" then fun m S => .wait S fun S => k m S
    else fun m S => orFail S (e.value? R.toExactReading (m.beside reach S) ρ) fun _ => k m S
  | _, _, _, _ => fun _ S => .done none S
where
  /-- Executes statements, one after the other, and goes on. -/
  playAll : List Stmt → List Nat → Valuation V → Course V → Course V
    | [], _, _, k => k
    | s :: ss, shared, ρ, k => s.play shared ρ (playAll ss shared ρ k)

/-- A thread that executes a statement. -/
def thread (s : Stmt) (ρ : Valuation V) (m : Store V) : Shared V → Resumption (Shared V) (Option (Store V)) :=
  s.play R reach [] ρ (fun m S => .done (some m) S) m

variable {R reach} {shared : List Nat} {ρ : Valuation V} {k : Course V}

@[simp] theorem playAll_nil : play.playAll R reach [] shared ρ k = k := rfl

@[simp] theorem playAll_cons (s : Stmt) (ss : List Stmt) :
    play.playAll R reach (s :: ss) shared ρ k = s.play R reach shared ρ (play.playAll R reach ss shared ρ k) := rfl

@[simp] theorem play_seq (ss : List Stmt) : (seq ss).play R reach shared ρ k = play.playAll R reach ss shared ρ k := rfl

theorem playAll_append (ss ts : List Stmt) :
    play.playAll R reach (ss ++ ts) shared ρ k = play.playAll R reach ss shared ρ (play.playAll R reach ts shared ρ k) := by
  induction ss with
  | nil => rfl
  | cons s ss ih => rw [List.cons_append, playAll_cons, playAll_cons, ih]

theorem playAll_items (s : Stmt) : play.playAll R reach s.items shared ρ k = s.play R reach shared ρ k := by
  cases s <;> rfl

theorem playAll_flatMap_items (ss : List Stmt) :
    play.playAll R reach (ss.flatMap items) shared ρ k = play.playAll R reach ss shared ρ k := by
  induction ss generalizing k with
  | nil => rfl
  | cons s ss ih => rw [List.flatMap_cons, playAll_append, playAll_items, ih, playAll_cons]

/-- Statements put together are executed one after the other. -/
theorem play_ofList (ss : List Stmt) : (ofList ss).play R reach shared ρ k = play.playAll R reach ss shared ρ k := by
  have hblock : ∀ ts : List Stmt, (block ts).play R reach shared ρ k = play.playAll R reach ts shared ρ k := by
    intro ts
    match ts with
    | [] => rfl
    | [s] => rfl
    | s :: t :: ts => rfl
  rw [ofList, hblock, playAll_flatMap_items]

section Steps
variable {m : Store V} {S : Shared V} {b : Var} {s body : Stmt} {cond value index size : Expr}

theorem play_store {x : V} {i : Int} {m' : Store V} {S' : Shared V}
    (hvalue : value.value? R.toExactReading (m.beside reach S) ρ = some x)
    (hindex : index.integer? R.toExactReading (m.beside reach S) ρ = some i)
    (hput : m.put reach S b.id i x = some (m', S')) :
    (store (.var b) value index none).play R reach shared ρ k m S = k m' S' := by
  show orFail S (value.value? R.toExactReading (m.beside reach S) ρ) (fun x =>
    orFail S (index.integer? R.toExactReading (m.beside reach S) ρ) fun i => orFail S (m.put reach S b.id i x) fun p =>
      k p.1 p.2) = _
  simp only [hvalue, hindex, hput, orFail]

theorem play_branch {c : V} (hcond : cond.value? R.toExactReading (m.beside reach S) ρ = some c) :
    (branch cond s none).play R reach shared ρ k m S = if R.truth c then s.play R reach shared ρ k m S else k m S := by
  show orFail S (cond.value? R.toExactReading (m.beside reach S) ρ) (fun c =>
    if R.truth c then s.play R reach shared ρ k m S else k m S) = _
  simp only [hcond, orFail]

theorem play_barrier (scope : String) : (barrier scope).play R reach shared ρ k m S = Resumption.wait S fun S => k m S :=
  rfl

theorem play_shared : (attr (.var b) "storage_scope" (.str "shared") body).play R reach shared ρ k =
    body.play R reach (b.id :: shared) ρ k := rfl

/-- Memory that is shared is filled with zeros by the thread that comes first. -/
theorem play_allocate (site : Nat) (t : DataType) (cond : Expr) {n : Int} (hb : b.id ∈ shared)
    (hsize : size.integer? R.toExactReading (m.beside reach S) ρ = some n) (hn : 0 ≤ n) :
    (allocate site b t [size] cond body).play R reach shared ρ k m S = body.play R reach shared ρ k m
      (if (S b.id).isSome then S else Function.update S b.id (some (zeroCells R.toExactReading t n))) := by
  have hdims : [size].mapM (·.integer? R.toExactReading (m.beside reach S) ρ) = some [n] := by simp [hsize]
  have hproduct : [n].foldl (· * ·) 1 = n := Int.one_mul n
  show orFail S ([size].mapM (·.integer? R.toExactReading (m.beside reach S) ρ)) _ = _
  simp only [hdims, orFail, hproduct, if_neg (Int.not_lt.mpr hn), if_pos hb]

end Steps

end Stmt

end TensorNest

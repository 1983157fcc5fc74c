import TensorNest.Proofs.Ranks
import TensorNest.Proofs.Schedule
import TensorNest.Proofs.Teams

/-! # Statements that reduce across threads

What the statement for a reduction across threads consists of (`Stmt.treeReduction_inv`), and what a thread does in a
step of its tree: a thread that is active in the step replaces its value by the result of the combiner
(`ReductionRow.play_step`), and another one does nothing. The operands are put into the result of the combiner, so that
it has the value that it has for theirs (`Expr.imitates_subst`). -/

namespace TensorNest

/-! ### Operands -/

section Filling
variable {V : Type} {R : ExactReading V} {M : Store V} {s : Subst} {B : List Nat} {ρ ρ' : Valuation V} {e : Expr}

/-- No elements and no cells. -/
def Store.bare : Store V := ⟨fun _ _ => none, fun _ _ => none⟩

/-- A valuation gives the variables of a substitution the values of what is put for them, whatever values some variables
    have, and others the values that they have in another valuation. -/
structure Subst.Fills (R : ExactReading V) (M : Store V) (s : Subst) (B : List Nat) (ρ ρ' : Valuation V) : Prop where
  kept : ∀ x, (∀ p ∈ s, x ≠ p.1.id) → ρ' x = ρ x
  filled : ∀ p ∈ s, ∀ σ : Valuation V, (∀ x ∉ B, σ x = ρ x) → p.2.value? R M σ = some (ρ' p.1.id)

theorem Subst.Fills.update (h : s.Fills R M B ρ ρ') {b : Nat} (hb : b ∈ B) (hs : ∀ p ∈ s, b ≠ p.1.id) (x : V) :
    s.Fills R M B (Function.update ρ b x) (Function.update ρ' b x) where
  kept y hy := by
    by_cases hyb : y = b
    · rw [hyb, Function.update_self, Function.update_self]
    · rw [Function.update_of_ne hyb, Function.update_of_ne hyb, h.kept y hy]
  filled p hp σ hσ := by
    rw [Function.update_of_ne (hs p hp).symm]
    refine h.filled p hp σ fun y hy => ?_
    have hyb : y ≠ b := fun heq => hy (heq ▸ hb)
    rw [hσ y hy, Function.update_of_ne hyb]

/-- An expression that needs no memory for its value has it where something is put for its variables. -/
theorem Expr.imitates_subst (h : ∀ x ∈ e.boundVars, x ∈ B ∧ ∀ p ∈ s, x ≠ p.1.id) (hfills : s.Fills R M B ρ ρ') :
    Imitates R Store.bare ρ' M ρ e (e.subst s) := by
  have hpart : ∀ {a e : Expr}, (∀ x ∈ e.boundVars, x ∈ B ∧ ∀ p ∈ s, x ≠ p.1.id) → a ∈ e.parts →
      ∀ x ∈ a.boundVars, x ∈ B ∧ ∀ p ∈ s, x ≠ p.1.id := fun h ha x hx => h x (boundVars_subset ha hx)
  induction e generalizing ρ ρ' with
  | var v =>
    intro x hx
    rw [value?] at hx
    rw [subst, Subst.find?]
    cases hf : List.find? (·.1.id == v.id) s with
    | none =>
      have hnot := List.find?_eq_none.mp hf
      rw [← hx, hfills.kept v.id fun p hp heq => hnot p hp (by simp [heq])]
      rfl
    | some p =>
      have hid : p.1.id = v.id := by simpa using List.find?_some hf
      rw [← hx, ← hid]
      exact hfills.filled p (List.mem_of_find?_eq_some hf) ρ fun _ _ => rfl
  | const | str => exact fun x hx => hx
  | cast t a ih => exact imitates_cast t (ih (hpart h (by simp [parts])) hfills)
  | bin op a b iha ihb =>
    exact imitates_bin op (iha (hpart h (by simp [parts])) hfills) (ihb (hpart h (by simp [parts])) hfills)
  | not a ih => exact imitates_not (ih (hpart h (by simp [parts])) hfills)
  | select c a b ihc iha ihb =>
    exact imitates_select (ihc (hpart h (by simp [parts])) hfills) (iha (hpart h (by simp [parts])) hfills)
      (ihb (hpart h (by simp [parts])) hfills)
  | call t name args kind func index ih =>
    rw [subst, subst_onList]
    by_cases hread : kind = .tensorRead → func = none
    · refine imitates_call hread (List.forall₂_map_right_iff.mpr (List.forall₂_same.mpr fun a ha => ?_))
      exact ih a ha (hpart h ha) hfills
    · obtain ⟨rfl, hfunc⟩ := Classical.not_imp.mp hread
      obtain ⟨f, rfl⟩ := Option.ne_none_iff_exists'.mp hfunc
      intro x hx
      simp [value?, Store.bare] at hx
  | bind v value body ihv ihb =>
    have hv := h v.id (mem_boundVars.mpr ⟨_, head_mem_heads _, by simp [head, Head.binders]⟩)
    exact imitates_bind v (ihv (hpart h (by simp [parts])) hfills) fun x =>
      ihb (hpart h (by simp [parts])) (hfills.update hv.1 hv.2 x)
  | load t buffer index pred =>
    intro x hx
    rw [value?_load fun _ _ => rfl] at hx
    cases hx
  | ramp a b lanes iha ihb =>
    exact imitates_ramp lanes (iha (hpart h (by simp [parts])) hfills) (ihb (hpart h (by simp [parts])) hfills)
  | broadcast a lanes ih => exact imitates_broadcast lanes (ih (hpart h (by simp [parts])) hfills)
  | reduce =>
    intro x hx
    rw [value?] at hx
    cases hx

end Filling

/-- A combiner of one accumulator takes two values to the result of an operation. What its result binds is none of its
    operands. -/
structure Reducer.Computes {V : Type} (R : ScalarReading V) (combiner : Reducer) (x y : Var) (e : Expr)
    (op : V → V → V) : Prop where
  lhs : combiner.lhs = [x]
  rhs : combiner.rhs = [y]
  result : combiner.result = [e]
  distinct : x.id ≠ y.id
  free : ∀ v ∈ e.boundVars, v ≠ x.id ∧ v ≠ y.id
  value : ∀ (ρ : Valuation V) (a b : V),
    e.value? R.toExactReading Store.bare (Function.update (Function.update ρ x.id a) y.id b) = some (op a b)

/-- The result of a combiner for operands that are put into it. What it binds may have any values where the operands are. -/
theorem Reducer.Computes.value?_subst {V : Type} {R : ScalarReading V} {combiner : Reducer} {x y : Var} {result : Expr}
    {op : V → V → V}
    (h : combiner.Computes R x y result op) {M : Store V} {π : Valuation V} {first second : Expr} {a b : V}
    (ha : ∀ σ : Valuation V, (∀ v ∉ result.boundVars, σ v = π v) → first.value? R.toExactReading M σ = some a)
    (hb : ∀ σ : Valuation V, (∀ v ∉ result.boundVars, σ v = π v) → second.value? R.toExactReading M σ = some b) :
    (result.subst [(y, second), (x, first)]).value? R.toExactReading M π = some (op a b) := by
  refine Expr.imitates_subst (B := result.boundVars) (fun v hv => ⟨hv, ?_⟩) ?_ _ (h.value π a b)
  · exact List.forall_mem_cons.mpr ⟨(h.free v hv).2, List.forall_mem_cons.mpr ⟨(h.free v hv).1, List.forall_mem_nil _⟩⟩
  constructor
  · intro v hv
    obtain ⟨hy, hv⟩ := List.forall_mem_cons.mp hv
    obtain ⟨hx, -⟩ := List.forall_mem_cons.mp hv
    rw [Function.update_of_ne hy, Function.update_of_ne hx]
  · refine List.forall_mem_cons.mpr ⟨fun σ hσ => ?_, List.forall_mem_cons.mpr ⟨fun σ hσ => ?_, List.forall_mem_nil _⟩⟩
    · rw [Function.update_self]
      exact hb σ hσ
    · rw [Function.update_of_ne h.distinct, Function.update_self]
      exact ha σ hσ

/-! ### The statement -/

namespace Stmt.LowerReduction

variable {α β : Type} {st st' : ReductionState} {g g' : Graph} {b : β}

/-- A computation that lowers reductions succeeds. -/
def Yields (x : LowerReduction α) (st : ReductionState) (g : Graph) (a : α) (st' : ReductionState) (g' : Graph) : Prop :=
  (x.run st).Yields g (a, st') g'

theorem yields_pure {a b : α} : Yields (pure a) st g b st' g' ↔ a = b ∧ st = st' ∧ g = g' := by
  rw [Yields, StateT.run_pure, Build.yields_pure, Prod.mk.injEq, and_assoc]

theorem yields_bind {x : LowerReduction α} {f : α → LowerReduction β} :
    Yields (x >>= f) st g b st' g' ↔ ∃ a st₁ g₁, Yields x st g a st₁ g₁ ∧ Yields (f a) st₁ g₁ b st' g' := by
  rw [Yields, StateT.run_bind, Build.yields_bind]
  constructor
  · rintro ⟨⟨a, st₁⟩, g₁, hx, hf⟩
    exact ⟨a, st₁, g₁, hx, hf⟩
  · rintro ⟨a, st₁, g₁, hx, hf⟩
    exact ⟨(a, st₁), g₁, hx, hf⟩

theorem yields_get_bind {f : ReductionState → LowerReduction β} :
    Yields (get >>= f) st g b st' g' ↔ Yields (f st) st g b st' g' := Iff.rfl

theorem yields_modify_bind {f : ReductionState → ReductionState} {h : PUnit → LowerReduction β} :
    Yields (modify f >>= h) st g b st' g' ↔ Yields (h ⟨⟩) (f st) g b st' g' := Iff.rfl

theorem yields_build_bind {x : Build α} {f : α → LowerReduction β} :
    Yields (liftM x >>= f) st g b st' g' ↔ ∃ a g₁, x.Yields g a g₁ ∧ Yields (f a) st g₁ b st' g' := by
  have hrun : (liftM x >>= f : LowerReduction β).run st = x >>= fun a => (f a).run st := by
    rw [StateT.run_bind]
    exact bind_assoc x _ _
  rw [Yields, hrun, Build.yields_bind]
  rfl

theorem yields_ok_bind {x : Except Error α} {f : α → LowerReduction β} :
    Yields (liftM x >>= f) st g b st' g' ↔ ∃ a, x = .ok a ∧ Yields (f a) st g b st' g' := by
  have hlift : (liftM x : LowerReduction α) = liftM (liftM x : Build α) := rfl
  rw [hlift, yields_build_bind]
  simp only [Build.yields_liftExcept]
  constructor
  · rintro ⟨a, _, ⟨hx, rfl⟩, hf⟩
    exact ⟨a, hx, hf⟩
  · rintro ⟨a, hx, hf⟩
    exact ⟨a, g, ⟨hx, rfl⟩, hf⟩

theorem not_yields_throw_bind {e : Error} {f : α → LowerReduction β} : ¬ Yields (throw e >>= f) st g b st' g' := by
  have hlift : (throw e : LowerReduction α) = liftM (throw e : Build α) := rfl
  rw [hlift, yields_build_bind]
  rintro ⟨_, _, hthrow, -⟩
  exact Build.not_yields_throw hthrow

end Stmt.LowerReduction

/-- The parts of the statement for a reduction across threads. -/
structure TreeParts where
  index : Expr
  length : Int
  group : Expr
  groups : Int
  base : Expr
  slot : Expr
  scope : String
  first : Expr
  width : Nat
  steps : List Stmt
  zero : Expr
  size : Expr

namespace TreeParts

/-- The places of the reduction in a buffer. -/
def row (p : TreeParts) (buffer : Var) (t : DataType) : ReductionRow :=
  ⟨.var buffer, t, p.slot, p.base, p.index, p.length⟩

/-- The parts are what they are to be. -/
structure Built (p : TreeParts) (threads : ReductionThreads) (combiner : Reducer) (value cond identity result : Expr)
    (buffer : Var) :
    Prop where
  index : ThreadExtent.linearize threads.reduced = .ok (p.index, p.length)
  group : ThreadExtent.linearize threads.group = .ok (p.group, p.groups)
  base : (Expr.mul p.group p.length >>= (·.simplify)) = .ok p.base
  slot : (Expr.add p.base p.index >>= (·.simplify)) = .ok p.slot
  first : Expr.choose cond value identity = .ok p.first
  width : nextPow2 p.length = .ok p.width
  steps : (p.row buffer result.dtype).steps combiner result (.barrier p.scope) p.width.log2 = .ok p.steps
  zero : Expr.ofInt 0 .int32 = .ok p.zero
  size : Expr.ofInt (p.length * p.groups) .int32 = .ok p.size

/-- The statement. -/
def stmt (p : TreeParts) (buffer : Var) (t : DataType) (target : Expr) : Stmt :=
  .attr (.var buffer) "storage_scope" (.str "shared") (.allocate buffer.id buffer t [p.size] (Expr.bool true)
    (.ofList (.store (.var buffer) p.first p.slot none :: .barrier p.scope :: p.steps ++
      [.store target (.load t (.var buffer) p.base none) p.zero none, .barrier p.scope])))

end TreeParts

/-- What is known about a reduction that was lowered. -/
theorem Stmt.treeReduction_inv {name : String} {warp : Setting} {combiner : Reducer}
    {count value cond target result identity : Expr}
    {vars results identities : List Expr} {st st' : ReductionState} {g g' : Graph} {s : Stmt}
    (hresult : combiner.result = result :: results) (hidentity : combiner.identity = identity :: identities)
    (h : LowerReduction.Yields (treeReduction name warp combiner (count :: value :: cond :: target :: vars))
      st g s st' g') :
    ∃ threads, reductionThreads name st.regions ((vars.filterMap Expr.asVar?).map (·.id)).eraseDups = .ok threads ∧
      ∃ (buffer : Var) (p : TreeParts), buffer.id = g.next ∧ p.Built threads combiner value cond identity result buffer ∧
        s = p.stmt buffer result.dtype target := by
  unfold treeReduction at h
  simp only [hresult, hidentity] at h
  rw [LowerReduction.yields_get_bind, LowerReduction.yields_ok_bind] at h
  obtain ⟨threads, hthreads, h⟩ := h
  refine ⟨threads, hthreads, ?_⟩
  split at h
  · exact absurd h LowerReduction.not_yields_throw_bind
  simp only [LowerReduction.yields_ok_bind, LowerReduction.yields_pure, LowerReduction.yields_get_bind,
    LowerReduction.yields_modify_bind, LowerReduction.yields_build_bind, yields_freshVar] at h
  obtain ⟨⟨index, length⟩, hindex, ⟨group, groups⟩, hgroup, buffer, _, ⟨hbuffer, -⟩, product, hproduct, base, hbase, sum,
    hsum,
    slot, hslot, within, -, first, hfirst, width, hwidth, steps, hsteps, zero, hzero, size, hsize, rfl, -, -⟩ := h
  refine ⟨buffer, ⟨index, length, group, groups, base, slot, if within then "warp" else "shared", first, width, steps,
    zero, size⟩,
    congrArg Var.id hbuffer, ⟨hindex, hgroup, ?_, ?_, hfirst, hwidth, hsteps, hzero, hsize⟩, rfl⟩
  · rw [hproduct]
    exact hbase
  · rw [hsum]
    exact hslot

/-! ### Steps -/

namespace Expr

variable {Γ : Context} {ρ : Valuation Int} {t : DataType} {e : Expr} {n : Int}

theorem Evaluates.simplify (h : Evaluates Γ [] False ρ t e n) : Gives e.simplify (Evaluates Γ [] False ρ t · n) := by
  have hnil : e.boundVars = [] := List.eq_nil_iff_forall_not_mem.mpr fun x hx => List.not_mem_nil (h.bound x hx)
  have hsimplify := gives_simplify_evaluates (H := False) (ρ := ρ) h.typed False.elim (by rw [hnil]; exact List.nodup_nil)
    (by rw [hnil]; exact List.forall_mem_nil _)
  rwa [hnil, h.value] at hsimplify

end Expr

namespace ReductionRow

/-- The steps of a tree, each with a barrier after it. -/
def stepsOf (sync : Stmt) (step : Nat → Stmt) : Nat → List Stmt
  | 0 => []
  | k + 1 => step k :: sync :: stepsOf sync step k

theorem exists_steps {row : ReductionRow} {combiner : Reducer} {result : Expr} {sync : Stmt} {k : Nat} {ss : List Stmt}
    (h : row.steps combiner result sync k = .ok ss) :
    ∃ step : Nat → Stmt, (∀ j < k, row.step combiner result (2 ^ j : Nat) = .ok (step j)) ∧ ss = stepsOf sync step k := by
  have hcongr : ∀ {step step' : Nat → Stmt} (k : Nat), (∀ j < k, step j = step' j) →
    stepsOf sync step k = stepsOf sync step' k := by
    intro step step' k hsame
    induction k with
    | zero => rfl
    | succ k ih => rw [stepsOf, stepsOf, hsame k (Nat.lt_succ_self k), ih fun j hj => hsame j (Nat.lt_succ_of_lt hj)]
  induction k generalizing ss with
  | zero => exact ⟨fun _ => sync, fun j hj => absurd hj (Nat.not_lt_zero j), (Except.ok.inj h).symm⟩
  | succ k ih =>
    rw [steps] at h
    obtain ⟨s, hs, h⟩ := bind_eq_ok.mp h
    obtain ⟨rest, hrest, h⟩ := bind_eq_ok.mp h
    obtain rfl := Except.ok.inj h
    obtain ⟨step, hstep, rfl⟩ := ih hrest
    refine ⟨Function.update step k s, fun j hj => ?_, ?_⟩
    · obtain rfl | hjk := Nat.eq_or_lt_of_le (Nat.le_of_lt_succ hj)
      · rw [Function.update_self]
        exact hs
      · rw [Function.update_of_ne (Nat.ne_of_lt hjk)]
        exact hstep j hjk
    · rw [stepsOf, Function.update_self, hcongr k fun j hj => Function.update_of_ne (Nat.ne_of_lt hj) s step]

/-- The places of a reduction stand for numbers: the start of the row of a thread, and the place of the thread in it. -/
structure Places (row : ReductionRow) (Γ : Context) (ρ : Valuation Int) (start place : Int) : Prop where
  base : row.base.Amounts Γ ρ start
  slot : row.slot.Amounts Γ ρ (start + place)
  index : row.index.Amounts Γ ρ place

section Step
variable {row : ReductionRow} {Γ : Context} {ρ : Valuation Int} {start place : Int} {combiner : Reducer} {result : Expr}
  {x y : Var}

/-- What a step of the tree consists of. -/
theorem Places.ensures_step (h : row.Places Γ ρ start place) (hlhs : combiner.lhs = [x]) (hrhs : combiner.rhs = [y])
    (d : Int) :
    Ensures (row.step combiner result d) fun s => ∃ active other,
      s = .branch active (.store row.buffer (result.subst
        [(y, .load row.dtype row.buffer other none), (x, .load row.dtype row.buffer row.slot none)]) row.slot none) none ∧
      active.Evaluates Γ [] False ρ .bool (decide (place < d ∧ place + d < row.length)).toInt ∧
      other.Amounts Γ ρ (start + place + d) := by
  unfold step
  refine (h.slot.arith_int rfl d).bind fun other hother => ?_
  refine (h.index.compare_int rfl d).bind fun first hfirst => ?_
  refine (h.index.arith_int rfl d).bind fun further hfurther =>
    (hfurther.compare_int rfl row.length).bind fun inside hinside => ?_
  refine (hfirst.logicalAnd hinside).ensures.bind fun both hboth => hboth.simplify.ensures.bind fun active hactive => ?_
  refine ensures_ok ⟨active, other, ?_, ?_, hother⟩
  · rw [hlhs, hrhs]
    rfl
  · have hand : BinOp.and.onInts (BinOp.lt.onInts place d) (BinOp.lt.onInts (BinOp.add.onInts place d) row.length) =
        (decide (place < d ∧ place + d < row.length)).toInt := by
      by_cases hp : place < d <;> by_cases hq : place + d < row.length <;> simp [BinOp.onInts, hp, hq]
    rwa [hand] at hactive

section Play
variable {V : Type} {R : ScalarReading V} {op : V → V → V} {π : Valuation V} {reach : Nat → Int → Bool}
  {shared : List Nat} {k : Course V}
  {m : Store V} {S : Shared V} {b : Var} {cells : Int → Option V}

theorem value?_load_shared {t : DataType} {index : Expr} {n : Int} {v : V} (hindex : index.Amounts Γ ρ n)
    (hπ : R.Represents Γ ρ π)
    (hb : S b.id = some cells) (hreach : reach b.id n = true) (hv : cells n = some v) :
    (Expr.load t (.var b) index none).value? R.toExactReading (m.beside reach S) π = some v := by
  obtain ⟨i, hi, hin⟩ := Expr.integer?_eq_some.mp (hindex.integer?_eq (M := m.beside reach S) hπ)
  have hint : R.int? i = some n := hin
  have hcell : (m.beside reach S).cell b.id n = some v := (Store.cell_beside_shared hb hreach).trans hv
  simp only [Expr.value?, hi, Option.bind_eq_bind, Option.bind_some, hint, hcell]

/-- What a thread does in a step of the tree. -/
theorem Places.play_step (h : row.Places Γ ρ start place) (hcomputes : combiner.Computes R x y result op)
    (hapart : ∀ v ∈ result.boundVars, Γ v = none) (hbuffer : row.buffer = .var b) {d : Int} {s : Stmt}
    (hs : row.step combiner result d = .ok s) (hπ : R.Represents Γ ρ π) {v w : V} (hb : S b.id = some cells)
    (hreach : reach b.id (start + place) = true) (hv : cells (start + place) = some v)
    (hw : place < d ∧ place + d < row.length → reach b.id (start + place + d) = true ∧ cells (start + place + d) = some w) :
    s.play R reach shared π k m S = k m (if place < d ∧ place + d < row.length then
      Function.update S b.id (some (Function.update cells (start + place) (some (op v w)))) else S) := by
  obtain ⟨active, other, rfl, hactive, hother⟩ := h.ensures_step hcomputes.lhs hcomputes.rhs d s hs
  obtain ⟨c, hc, htruth⟩ := hactive.truth?_eq (M := m.beside reach S) hπ
  have hflag : R.truth c = decide (place < d ∧ place + d < row.length) := by
    rw [htruth]
    by_cases hd : place < d ∧ place + d < row.length <;> simp [hd]
  rw [Stmt.play_branch hc, hflag]
  by_cases hd : place < d ∧ place + d < row.length
  · obtain ⟨hfar, hw⟩ := hw hd
    have hknown : ∀ σ : Valuation V, (∀ v ∉ result.boundVars, σ v = π v) → R.Represents Γ ρ σ := fun σ hσ =>
      hπ.congr fun z hz => hσ z fun hbound => hz (hapart z hbound)
    have hvalue : (result.subst [(y, .load row.dtype (.var b) other none),
        (x, .load row.dtype (.var b) row.slot none)]).value?
        R.toExactReading (m.beside reach S) π = some (op v w) :=
      hcomputes.value?_subst (fun σ hσ => value?_load_shared h.slot (hknown σ hσ) hb hreach hv)
        fun σ hσ => value?_load_shared hother (hknown σ hσ) hb hfar hw
    rw [decide_eq_true hd, if_pos rfl, if_pos hd, hbuffer]
    exact Stmt.play_store hvalue (h.slot.integer?_eq hπ) (Store.put_shared hb hreach (by rw [hv]; rfl))
  · rw [decide_eq_false hd, if_neg Bool.false_ne_true, if_neg hd]

end Play

end Step

end ReductionRow

end TensorNest

import Mathlib.Data.List.Sort
import TensorNest.Proofs.Provisions
import TensorNest.Proofs.ReductionNests

/-! # Reductions compute folds

After any transforms that split, fuse, reorder or tile axes, the nest of a stage that reduces leaves the value of the
reduction at each point of the domain, if the arithmetic of indices is exact (`Schedule.computed_of_transforms`). An
element starts at the identity, once and before its first step, and then makes a step at each point of the axes of the
reduction at which the condition holds, once. Nothing else is written. The points are taken in an order that the
transforms lead to, so that the steps of the combiner have to commute. -/

namespace TensorNest

/-! ### Transforms of axes alone -/

/-- A transform that changes nothing but the axes of a stage. -/
def Stage.Transform.Reshapes : Stage.Transform → Prop
  | split .. | fuse _ | reorder _ | tile .. => True
  | parallel _ | vectorize _ | unroll _ | bind .. | bindGpu .. | computeInline | computeRoot | setScope _ | doubleBuffer
  | prefetch .. => False

theorem Stage.Transform.Reshapes.plain {t : Stage.Transform} (h : t.Reshapes) : t.Plain := by
  cases t <;> trivial

theorem Stage.Transform.Reshapes.place_eq {t : Stage.Transform} (h : t.Reshapes) (a : Attach) : t.place a = a := by
  cases t <;> first | rfl | exact h.elim

namespace Schedule

variable {s s' s₀ s₁ : Schedule} {g g' g₀ g₁ g₂ g₃ : Graph} {st : Stage}

/-- A transform that changes nothing but the axes of stages. -/
def Transform.Reshapes : Transform → Prop
  | onStage _ t => t.Reshapes
  | computeAt .. | cacheWrite .. | normalize => False

theorem Transform.Reshapes.plain {t : Transform} (h : t.Reshapes) : t.Plain := by
  cases t with
  | onStage id t => exact Stage.Transform.Reshapes.plain h
  | computeAt | cacheWrite | normalize => exact h.elim

/-- Every stage is computed on its own. -/
def Detached (s : Schedule) : Prop :=
  ∀ st ∈ s.stages, st.attach = .root

namespace Detached

theorem setStage (h : s.Detached) (hst : st.attach = .root) : (s.setStage st).Detached := fun t ht =>
  (mem_setStage ht).elim (fun heq => heq ▸ hst) (h t)

theorem transform (h : s.Detached) {t : Transform} (ht : t.Reshapes) {u : Unit} (hrun : t.run.Yields s g u s' g') :
    s'.Detached := by
  cases t with
  | onStage id t =>
    obtain ⟨st, st', hst, hstep, rfl⟩ := onStage_inv hrun
    refine h.setStage ?_
    rw [(Stage.Transform.steps hstep).fixed.2.1, Stage.Transform.Reshapes.place_eq ht]
    exact h st (mem_of_stage? hst).1
  | computeAt | cacheWrite | normalize => exact ht.elim

theorem redirectStage (h : s.Detached) {id : Nat} {u : Unit} (hrun : (redirectStage id).Yields s g u s' g') :
    s'.Detached := by
  obtain ⟨rfl, rfl⟩ | ⟨st, hst, -, rfl, rfl⟩ := redirectStage_inv hrun
  · exact h
  · exact setStage (s := s.setPlace g.ops.size id) h (h st (mem_of_stage? hst).1)

theorem rebaseStage (h : s.Detached) {id : Nat} {u : Unit} (hrun : (rebaseStage id).Yields s g u s' g') : s'.Detached := by
  refine rebaseStage_keeps (I := fun s _ => s.Detached) (fun {s g st pos leaf rebased} h hst _ _ _ t hmoved => ?_) h hrun
  obtain ⟨t, ht, rfl⟩ := List.mem_map.mp hmoved
  have hroot : (rebasedStage st pos leaf rebased).attach = .root := by
    rw [rebasedStage, h st (mem_of_stage? hst).1]
  show t.attach.moved id leaf rebased = .root
  rw [h.setStage hroot t ht]
  rfl

theorem normalize (h : s.Detached) {u : Unit} (hrun : normalize.Yields s g u s' g') : s'.Detached := by
  obtain ⟨-, rfl, rfl⟩ | ⟨s₁, g₁, s₂, -, h₁, h₂, rfl⟩ := normalize_inv hrun
  · exact h
  have hredirected : s₁.Detached := Edit.forM_keeps (I := fun s _ => s.Detached)
    (fun _ _ _ _ _ _ _ hs hstep => hs.redirectStage hstep) h h₁
  exact Edit.forM_keeps (I := fun s _ => s.Detached) (fun _ _ _ _ _ _ _ hs hstep => hs.rebaseStage hstep) hredirected h₂

theorem run (h : s.Detached) {ts : List Transform} (hts : ∀ t ∈ ts, t.Reshapes) {u : Unit}
    (hrun : (ts.forM Transform.run).Yields s g u s' g') : s'.Detached :=
  Edit.forM_keeps (I := fun s _ => s.Detached) (fun t hmem _ _ _ _ _ hs hstep => hs.transform (hts t hmem) hstep) h hrun

end Detached

end Schedule

/-- The axes of a stage are those of its operation and others with new numbers. -/
def Stage.Newer (n₀ n : Nat) (st : Stage) : Prop :=
  n₀ ≤ n ∧ ∀ iv ∈ st.all, iv.id ∈ st.op.rootAxes.map (·.id) ∨ n₀ ≤ iv.id

theorem Stage.newer_kept (n₀ : Nat) : Stage.Kept (Stage.Newer n₀) where
  attach _ h := h
  step {n n' st st'} h hstep := by
    have hsteps := hstep.steps
    refine ⟨Nat.le_trans h.1 hsteps.le, fun iv hiv => ?_⟩
    rw [hsteps.fixed.2.2.2]
    obtain hold | ⟨hnew, -⟩ := hsteps.grows.2 iv hiv
    · exact h.2 iv hold
    · exact Or.inr (Nat.le_trans h.1 hnew)
  rewrite {n st op} h haxes hreduce := by
    have hroots : op.rootAxes = st.op.rootAxes := by rw [Operation.rootAxes, haxes, hreduce]; rfl
    exact ⟨h.1, fun iv hiv => hroots ▸ h.2 iv hiv⟩
  cache {g st} id scope h := by
    have hnext : (Schedule.cachedGraph g scope st.op).next = g.next + st.op.rootAxes.length + st.op.axes.length := rfl
    exact ⟨by have := h.1; omega, fun iv hiv => Or.inl (List.mem_map_of_mem hiv)⟩
  copy {g st} scope h _ _ := by
    have hnext : (Schedule.cachedGraph g scope st.op).next = g.next + st.op.rootAxes.length + st.op.axes.length := rfl
    exact ⟨by have := h.1; omega, fun iv hiv => Or.inl (List.mem_map_of_mem (List.mem_append_left _ hiv))⟩

namespace Schedule

variable {s s' s₀ s₁ : Schedule} {g g' g₀ g₁ g₂ g₃ : Graph} {st : Stage} {V : Type} [Inhabited V] [DecidableEq V]

/-- What the nest of a stage that reduces is built from, after any transforms that split, fuse, reorder or tile axes. -/
theorem exists_reducing {outputs : List Operation} {ts : List Transform} {m : Ranges} {c : NestContext} {Γ : Context}
    {ρ : Valuation Int} {depth : Nat} {nest : Stmt}
    (hnum : g₀.Numbered) (hparted : g₀.Parted) (hwired : g₀.Wired) (hapart : g₀.Apart)
    (hout : ∀ o ∈ outputs, g₀.op? o.idx = some o) (hcreate : (create outputs).Yields g₀ s₀ g₁) (hts : ∀ t ∈ ts, t.Reshapes)
    (hrun : (ts.forM Transform.run).Yields s₀ g₁ () s₁ g₂) (hbounds : inferBounds.Yields s₁ g₂ m s g₃)
    (hc : NestContext.ofSchedule s m = .ok c) (hst : st ∈ s.stages) (hreduce : st.op.reduceAxes ≠ [])
    (hsymbols : st.Symbolic Γ ρ) (hold : g₃.next ≤ g.next) (hnest : (c.computeNest st (c.wrap depth st)).Yields g nest g') :
    ∃ L E σ dataGuards reduceGuards init g₄, st.Reducing Γ ρ L E c σ dataGuards reduceGuards ∧
      (∀ iv ∈ st.op.rootAxes, L iv.id = iv.start ρ ∧ E iv.id = iv.length ρ) ∧ c.attached = [] ∧ g₀.next ≤ g.next ∧
      (∀ leaf ∈ st.leaves, (leaf.id ∈ st.op.rootAxes.map (·.id) ∨ g₀.next ≤ leaf.id) ∧ leaf.id < g.next) ∧
      (c.initNest st (st.op.axes.map (NestContext.rootExpr σ)) dataGuards).Yields g init g₄ ∧
      (NestContext.wrapLoops (c.wrap depth st) (some (st.leaves.findIdx (·.kind == .reduction), init))
        (NestContext.guarded (dataGuards ++ reduceGuards) (NestContext.underCondition (NestContext.reductionOf st.op).2.2 σ
          (NestContext.provides st.op (st.op.axes.map (NestContext.rootExpr σ))
            (NestContext.updates st.op (st.op.axes.map (NestContext.rootExpr σ)) σ))))
        st.leaves).Yields g₄ nest g' := by
  have hplain : ∀ t ∈ ts, t.Plain := fun t ht => (hts t ht).plain
  obtain ⟨hdetached, hnewer⟩ : s.Detached ∧ ∀ st ∈ s.stages, st.Newer g₀.next g₃.next := by
    obtain ⟨rfl, huntouched, -⟩ := create_untouched (Q := fun o => g₀.op? o.idx = some o)
      (fun ho => (hwired.numbered ho).symm ▸ ho) hout hcreate
    have hinline : ∀ id, .onStage id .computeInline ∉ ts := fun id hmem => hplain _ hmem
    simp only [inferBounds, Edit.yields_bind, Edit.yields_get, Edit.yields_liftExcept] at hbounds
    obtain ⟨_, s₂, g₄, hnormal, _, _, _, ⟨rfl, rfl, rfl⟩, -, rfl, rfl⟩ := hbounds
    have hstart : s₀.Each (Stage.Newer g₁.next) g₁.next := fun st hst => ⟨⟨Nat.le_refl _, fun iv hiv =>
      Or.inl (List.mem_map_of_mem ((huntouched.axes st hst).1 ▸ hiv))⟩, fun hinlined => by
        rw [huntouched.root st hst] at hinlined
        cases hinlined⟩
    have hnewer := (hstart.transforms (Stage.newer_kept _) hinline hrun).normalize (Stage.newer_kept _) hnormal
    exact ⟨(Detached.run huntouched.root hts hrun).normalize hnormal, fun st hst => (hnewer st hst).1⟩
  have hroot := hdetached st hst
  have hattached : c.attached = [] := by
    rw [attached_ofSchedule hc]
    refine List.eq_nil_iff_forall_not_mem.mpr fun p hp => ?_
    obtain ⟨hmem, id, axis, hinside, -⟩ := mem_attachedPairs.mp hp
    rw [hdetached p.2 hmem] at hinside
    cases hinside
  obtain ⟨L, E, hdomain, -, -, hnumbered, hunbound, hlooping⟩ :=
    exists_looping hnum hparted hwired hapart hout hcreate hplain hrun
    hbounds hc hst hroot (NestContext.isCompute_of_computeNest hnest) hsymbols
  obtain ⟨σ, dataGuards, reduceGuards, init, g₄, -, hσ, hdata, hreduces, hinit, hloops⟩ :=
    NestContext.computeNest_reduce_inv hroot hunbound hreduce hnest
  have hreducing : st.Reducing Γ ρ L E c σ dataGuards reduceGuards := ⟨hlooping hσ hdata, hreduces⟩
  refine ⟨L, E, σ, dataGuards, reduceGuards, init, g₄, hreducing, hdomain, hattached,
    Nat.le_trans (hnewer st hst).1 hold, fun leaf hleaf => ?_, hinit, hloops⟩
  have hall := hreducing.leaves_subset hleaf
  exact ⟨(hnewer st hst).2 leaf hall, Nat.lt_of_lt_of_le (hnumbered leaf hall) hold⟩

namespace RowSums

open Bordered (extent int symbols atom? amounts_of_atom ends divisor isRoot eq_root)

def axis (id : Nat) (kind : IterKind) (extent : Expr) : IterVar :=
  ⟨some ⟨int 0, extent⟩, ⟨id, "i", .int32⟩, kind, ""⟩

def entry (i : Nat) : Expr := .var ⟨i, "i", .int32⟩

def input : Operation :=
  ⟨0, "A", "", [], .placeholder [.var extent, int 3] .int32⟩

def x : Expr := .var ⟨5, "x", .int32⟩

def y : Expr := .var ⟨6, "y", .int32⟩

/-- The entry `A[i, e]` of a row. -/
def entryAt (e : Expr) : Expr :=
  .call .int32 "A" [entry 1, e] .tensorRead (some input.ref) 0

/-- A reduction from 0. -/
def fromZero (step source : Expr) (cond : Option Expr) : Fold :=
  ⟨⟨5, "x", .int32⟩, [⟨6, "y", .int32⟩], step, int 0, [source], cond⟩

/-- The sum of the entries of a row but the one in the middle. -/
def sum : Fold := fromZero (.bin .add x y) (entryAt (entry 2)) (some (.bin .ne (entry 2) (int 1)))

def operation (rows : Expr) (f : Fold) : Operation :=
  ⟨1, "B", "", [], .compute [axis 1 .dataParallel rows] [f.body [axis 2 .reduction (int 3)]]⟩

section Run
variable (o : Operation) (run : Edit Schedule Unit)

def graph : Graph := { ops := #[some input, some o], next := 11 }

def start : Schedule :=
  match (create [o]).run.run (graph o) with
  | (.ok s, _) => s
  | _ => default

def outcome : (Except Error Unit × Schedule) × Graph := run.outcome (start o) (graph o)

def bounds : (Except Error Ranges × Schedule) × Graph := inferBounds.outcome (outcome o run).1.2 (outcome o run).2

def ranges : Ranges :=
  match (bounds o run).1.1 with
  | .ok m => m
  | .error _ => default

def context : NestContext :=
  match NestContext.ofSchedule (bounds o run).1.2 (ranges o run) with
  | .ok c => c
  | .error _ => ⟨[], [], []⟩

def stage : Stage := (bounds o run).1.2.stages.getLastD default

def built : Except Error Stmt × Graph :=
  (((context o run).computeNest (stage o run) ((context o run).wrap 1 (stage o run))).run.run (bounds o run).2).run

def nest : Stmt :=
  match (built o run).1 with
  | .ok s => s
  | .error _ => .noOp

end Run

section Yields
variable {o : Operation} {run : Edit Schedule Unit}

theorem bounds_yield (h : (bounds o run).1.1.isOk) :
    inferBounds.Yields (outcome o run).1.2 (outcome o run).2 (ranges o run) (bounds o run).1.2 (bounds o run).2 := by
  unfold ranges
  rcases hb : bounds o run with ⟨⟨e | m, s⟩, g⟩
  · rw [hb] at h
    cases h
  · exact hb

theorem context_ok (h : (NestContext.ofSchedule (bounds o run).1.2 (ranges o run)).isOk) :
    NestContext.ofSchedule (bounds o run).1.2 (ranges o run) = .ok (context o run) := by
  unfold context
  cases hc : NestContext.ofSchedule (bounds o run).1.2 (ranges o run) with
  | error e =>
    rw [hc] at h
    cases h
  | ok c => rfl

theorem nest_yields (h : (built o run).1.isOk) :
    ((context o run).computeNest (stage o run) ((context o run).wrap 1 (stage o run))).Yields (bounds o run).2 (nest o run)
      (built o run).2 := by
  unfold nest
  rcases hb : built o run with ⟨e | s, g⟩
  · rw [hb] at h
    cases h
  · exact hb

theorem stage_mem (h : (bounds o run).1.2.stages ≠ []) : stage o run ∈ (bounds o run).1.2.stages := by
  rw [stage, List.getLastD_eq_getLast?, List.getLast?_eq_some_getLast h]
  exact List.getLast_mem h

end Yields

def two : Operand := .number (.int 2)

/-- Rows and entries are split by two. Each part of the rows is gone through inside a part of the entries. -/
def transforms : List Transform :=
  [.onStage 1 (.split (Bordered.operand 1) two .nothing), .onStage 1 (.split (Bordered.operand 2) two .nothing),
    .onStage 1 (.reorder [Bordered.operand 11, Bordered.operand 13, Bordered.operand 12, Bordered.operand 14])]

theorem transforms_reshape : ∀ t ∈ transforms, t.Reshapes :=
  List.forall_mem_cons.mpr ⟨trivial, List.forall_mem_cons.mpr ⟨trivial, List.forall_mem_singleton.mpr trivial⟩⟩

/-- Reorders axes by a sort that unfolds. -/
def reorder (axes : List Operand) : Edit Stage Unit := do
  let s ← get
  let ivs ← s.legals .reorder axes
  if !decide (ivs.map (·.id)).Nodup then throw (.duplicateAxes s.name)
  let positions := (← s.leafIndices axes).insertionSort (· ≤ ·)
  set { s with leaves := Stage.place s.leaves (positions.zip ivs) }

theorem reorder_eq (axes : List Operand) : Stage.reorder axes = reorder axes := by
  unfold Stage.reorder reorder
  simp only [List.mergeSort_eq_insertionSort]

def run : Edit Schedule Unit := do
  onStage 1 (Stage.Transform.run (.split (Bordered.operand 1) two .nothing))
  onStage 1 (Stage.Transform.run (.split (Bordered.operand 2) two .nothing))
  onStage 1 (reorder [Bordered.operand 11, Bordered.operand 13, Bordered.operand 12, Bordered.operand 14])
  return ()

theorem run_eq : transforms.forM Transform.run = run := by
  unfold run
  rw [← reorder_eq]
  rfl

def rowSum : Operation := operation (.var extent) sum

theorem stage_op : (stage rowSum run).op = rowSum := by
  rfl

theorem graph_proper : (graph rowSum).Numbered ∧ (graph rowSum).Parted ∧ (graph rowSum).Wired ∧ (graph rowSum).Apart := by
  decide

theorem outputs_mem : ∀ o ∈ [rowSum], (graph rowSum).op? o.idx = some o := by
  intro o ho
  obtain rfl := List.mem_singleton.mp ho
  rfl

/-- The transforms succeed, the ranges are found, and the nest is built. -/
theorem succeeds : (outcome rowSum run).1.1.isOk ∧ (bounds rowSum run).1.1.isOk ∧
    (NestContext.ofSchedule (bounds rowSum run).1.2 (ranges rowSum run)).isOk ∧ (built rowSum run).1.isOk := by
  with_unfolding_all decide

theorem parts_stage : (stage rowSum run).op.rootAxes.map ends =
      [some (some (.inr 0), some (.inl 3)), some (some (.inr 0), some (.inr 3))] ∧
    (stage rowSum run).relations.map divisor = [some (some (.inr 2)), some (some (.inr 2))] ∧
    (∀ iv ∈ (stage rowSum run).all, symbols iv.id = none) ∧ ∀ iv ∈ (stage rowSum run).op.rootAxes, iv.dtype = .int32 := by
  decide

theorem symbolic_stage {ρ : Valuation Int} (hn : 0 ≤ ρ extent.id) : (stage rowSum run).Symbolic symbols ρ where
  apart := parts_stage.2.2.1
  typed iv hiv := parts_stage.2.2.2 iv hiv ▸ ⟨rfl, rfl⟩
  domains iv hiv := by
    have hmem := parts_stage.1 ▸ List.mem_map_of_mem (f := ends) hiv
    simp only [ends, List.mem_cons, List.not_mem_nil, or_false, Option.map_eq_some_iff, Prod.mk.injEq] at hmem
    obtain ⟨d, hd, hmin, hextent⟩ | ⟨d, hd, hmin, hextent⟩ := hmem
    · exact ⟨d, _, _, hd, amounts_of_atom ρ hmin, amounts_of_atom ρ hextent, hn⟩
    · exact ⟨d, _, _, hd, amounts_of_atom ρ hmin, amounts_of_atom ρ hextent, (by decide : (0 : Int) ≤ 3)⟩
  positive r hr := by
    have hmem := parts_stage.2.1 ▸ List.mem_map_of_mem (f := divisor) hr
    cases r with
    | split parent outer inner factor nparts =>
      intro d hd
      simp only [divisor, Option.mem_def.mp hd, Option.map_some, List.mem_cons, Option.some.injEq,
        List.not_mem_nil, or_false, or_self] at hmem
      exact ⟨_, amounts_of_atom ρ hmem, (by decide : (0 : Int) < 2)⟩
    | fuse | rebase => trivial

theorem sum_proper : sum.Proper symbols 11 rowSum where
  body := rfl
  arity := rfl
  older := by decide
  binders := by decide
  fixed := by decide
  closed := by decide
  unread := by decide
  types := by decide
  ownTypes := by decide

/-- Sums wrap at the width of their type. -/
theorem combine_sum (T : Contents Int) (π : Valuation Int) (a b : Int) :
    sum.combine FaithfulReading.words.toReading T π a [b] = (ElemType.int 32).wrap (a + b) := by
  have hword := word_index ⟨rfl, rfl⟩ (rfl : DataType.int32.elemType = .ok (.int 32))
  have hadd : arithmetic .add .int32 (DataType.int32.word a) (DataType.int32.word b) =
      .ok (.typed (.int 32) (.one (.int ((ElemType.int 32).wrap ((ElemType.int 32).wrap ((ElemType.int 32).wrap a) +
        (ElemType.int 32).wrap ((ElemType.int 32).wrap b)))))) := by
    rw [hword, hword]
    rfl
  calc sum.combine FaithfulReading.words.toReading T π a [b] =
        (ElemType.int 32).wrap ((ElemType.int 32).wrap ((ElemType.int 32).wrap a) +
          (ElemType.int 32).wrap ((ElemType.int 32).wrap b)) := words_binary hadd
    _ = (ElemType.int 32).wrap (a + b) := by
      simp only [ElemType.wrap, Int.bmod_bmod, Int.bmod_add_bmod, Int.add_bmod_bmod]

theorem sum_commutes (T : Contents Int) (π : Valuation Int) : sum.Commutes FaithfulReading.words.toReading T π := by
  rintro a us ws hus hws
  obtain ⟨u, rfl⟩ := List.length_eq_one_iff.mp hus
  obtain ⟨w, rfl⟩ := List.length_eq_one_iff.mp hws
  simp only [combine_sum, ElemType.wrap, Int.bmod_add_bmod]
  rw [Int.add_right_comm]

/-- `A[i, k] = 3 * i + k`, the output being 7 before it is written. -/
def contents : Contents Int := fun i _ idx =>
  if i = 0 then 3 * idx.headD 0 + idx.getLastD 0 else 7

/-- For three rows. -/
def values : Valuation Int := fun _ => 3

/-- What is put for the axes of a stage. -/
def rootValues (o : Operation) (run : Edit Schedule Unit) : Subst :=
  match (stage o run).rootValues (context o run).ranges with
  | .ok σ => σ
  | .error _ => []

/-- An axis is split. -/
def splitting (axis : Nat) (factor : Operand) : Edit Schedule Unit :=
  [Transform.onStage 1 (.split (Bordered.operand axis) factor .nothing)].forM Transform.run

section Miscomputed
variable (rows : Expr) (f : Fold) (axis : Nat) (factor : Operand) (R : FaithfulReading Int) (π : Valuation Int)

/-- The stage of a reduction of which an axis is split. -/
def splitStage : Stage := stage (operation rows f) (splitting axis factor)

/-- What its nest writes. -/
def splitWrites : List (Write Int) :=
  (nest (operation rows f) (splitting axis factor)).writes R.toReading π contents

/-- A reduction whose steps commute is miscomputed by the nest that it has after an axis is split. -/
def Miscomputed : Prop :=
  ((graph (operation rows f)).Numbered ∧ (graph (operation rows f)).Parted ∧ (graph (operation rows f)).Wired ∧
      (graph (operation rows f)).Apart) ∧
    ((outcome (operation rows f) (splitting axis factor)).1.1.isOk ∧
      (bounds (operation rows f) (splitting axis factor)).1.1.isOk ∧
      (built (operation rows f) (splitting axis factor)).1.isOk) ∧
    (∀ (T : Contents Int) (π : Valuation Int), f.Commutes R.toReading T π) ∧
    ¬ f.Computed R contents π (splitStage rows f axis factor).op (fun iv => ints (iv.start π) (iv.length π))
      (splitWrites rows f axis factor R π)

/-- The fold at an element. -/
def folded (x : List Int) : Int :=
  let o := (splitStage rows f axis factor).op
  ((points (o.reduceAxes.map fun iv => ints (iv.start π) (iv.length π))).filter fun k =>
    f.taken R.toReading contents (o.place R π (x ++ k))).foldl
      (fun a k => f.next R.toReading contents (o.place R π (x ++ k)) a) (f.identity.value R.toReading contents π)

variable {rows f axis factor R π}

/-- An element that does not hold its fold in the end shows that a reduction is miscomputed. -/
theorem miscomputed_of_ne {x : List Int} (hcommutes : ∀ (T : Contents Int) (π : Valuation Int), f.Commutes R.toReading T π)
    (hrun : ((graph (operation rows f)).Numbered ∧ (graph (operation rows f)).Parted ∧ (graph (operation rows f)).Wired ∧
        (graph (operation rows f)).Apart) ∧
      ((outcome (operation rows f) (splitting axis factor)).1.1.isOk ∧
        (bounds (operation rows f) (splitting axis factor)).1.1.isOk ∧
        (built (operation rows f) (splitting axis factor)).1.isOk) ∧
      contents.writeAll (splitWrites rows f axis factor R π) (splitStage rows f axis factor).op.idx 0 (x.map R.index) ≠
        folded rows f axis factor R π x)
    (hx : x ∈ points ((splitStage rows f axis factor).op.axes.map fun iv => ints (iv.start π) (iv.length π))) :
    Miscomputed rows f axis factor R π :=
  ⟨hrun.1, hrun.2.1, hcommutes, fun h => hrun.2.2 (h.value x hx)⟩

/-- Steps commute that add something to what is accumulated. -/
theorem commutes_of_add {T : Contents Int} {g : Int → Int} (hvars : f.vars.length = 1)
    (h : ∀ a b, f.combine R.toReading T π a [b] = a + g b) : f.Commutes R.toReading T π := by
  intro a us ws hus hws
  obtain ⟨u, rfl⟩ := List.length_eq_one_iff.mp (hus.trans hvars)
  obtain ⟨w, rfl⟩ := List.length_eq_one_iff.mp (hws.trans hvars)
  simp only [h]
  omega

end Miscomputed

/-- The sum of a row times its number, which the combiner mentions. -/
def scaled : Fold := fromZero (.bin .add x (.bin .mul y (entry 1))) (entryAt (entry 2)) none

/-- The sum of one entry three times, the axis being bound to its number. -/
def shadowing : Fold := fromZero (.bin .add x y) (.bind ⟨2, "i", .int32⟩ (int 7) (entryAt (entry 2))) none

/-- The sum of three sevens, the variable of the combiner being bound to each. -/
def renamed : Fold := fromZero (.bin .add x (.bind ⟨6, "y", .int32⟩ (int 7) y)) (entryAt (entry 2)) none

/-- The sum of a row, what the axis is split by being bound. -/
def capturing : Fold := fromZero (.bin .add x y) (.bind Bordered.factor (int 5) (entryAt (entry 2))) none

/-- A variable from outside. -/
def outside : Var := ⟨7, "z", .int32⟩

/-- The sum of one entry three times, a variable that its number mentions being bound in the combiner. -/
def caught : Fold := fromZero (.bin .add x (.bind outside (int 1) y)) (entryAt (.var outside)) none

/-- An expression as the reduction over one point in whose combiner it stands. -/
def inReducer (e : Expr) : Expr :=
  .reduce ⟨[⟨9, "p", .int32⟩], [⟨10, "q", .int32⟩], [.bin .add (.var ⟨9, "p", .int32⟩)
    (.bin .mul (.var ⟨10, "q", .int32⟩) e)], [int 0]⟩
    [int 1] [axis 8 .reduction (int 1)] none 0

/-- The sum of a row, whose axis stands in the combiner of another reduction. -/
def numbered : Fold := fromZero (.bin .add x y) (entryAt (inReducer (entry 2))) none

/-- The sum of a row, the variable of whose combiner stands in that of another reduction. -/
def nested : Fold := fromZero (.bin .add x (inReducer y)) (entryAt (entry 2)) none

/-- The sum of the entries whose number times a billion and a half is negative. -/
def negatives : Fold :=
  fromZero (.bin .add x y) (.select (.bin .lt (.bin .mul (entry 2) (int 1500000000)) (int 0)) (entryAt (entry 2))
    (int 0)) none

/-- What an axis is split by, in a wider type. -/
def wide : Operand := .expr (.var ⟨4, "k", .int64⟩)

/-- For rows whose number is the largest of its type. -/
def large : Valuation Int := fun _ => 2147483647

end RowSums
end Schedule
end TensorNest

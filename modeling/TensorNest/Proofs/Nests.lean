import Mathlib.Algebra.BigOperators.Group.Multiset.Basic
import Mathlib.Data.Multiset.Bind
import TensorNest.Proofs.Attachment
import TensorNest.Proofs.Parts
import TensorNest.Schedule.Nest

/-! # The nests of a schedule

The statement of a schedule nests the stages in one another: a stage is computed before the rest of the
body of each loop that it is attached to. What a statement provides is counted as a multiset, so that
neither loops nor the order of nests matter. A stage provides its outputs once, or twice if it is a
reduction, which also provides the first values of its outputs.

The loops of a nest are those of the leaf axes of its stage, but for the axes that the threads of a
reduction over threads do not share. If every stage is attached to one loop and the attachments form no
cycle (`Schedule.Nested`), the statement provides what each stage provides, and nothing else
(`Schedule.provisions_of_nested`). -/

namespace TensorNest

/-! ### What statements provide -/

namespace Stmt

/-- The output that a statement provides a value of. -/
@[simp] def provided? : Stmt → Option (Nat × Int)
  | provide op output _ _ => some (op.idx, output)
  | _ => none

/-- The outputs that are provided in a statement, once for each place. -/
def provisions (s : Stmt) : Multiset (Nat × Int) :=
  ↑(s.stmts.filterMap provided?)

theorem provisions_eq (s : Stmt) : s.provisions = (s.bodies.map provisions).sum + ↑s.provided?.toList := by
  have hbodies : ∀ ss : List Stmt, (↑((ss.flatMap stmts).filterMap provided?) : Multiset (Nat × Int)) =
      (ss.map provisions).sum := by
    intro ss
    induction ss with
    | nil => rfl
    | cons s ss ih =>
      rw [List.flatMap_cons, List.filterMap_append, ← Multiset.coe_add, ih, List.map_cons, List.sum_cons, provisions]
  have hself : [s].filterMap provided? = s.provided?.toList := by
    rw [List.filterMap_cons, List.filterMap_nil]
    cases s.provided? <;> rfl
  rw [provisions, stmts_eq, List.filterMap_append, ← Multiset.coe_add, hbodies, hself]

variable {v : Var} {value min extent cond e : Expr} {subject : Subject} {key : String} {kind : LoopKind}
  {site : Nat} {dtype : DataType} {extents args : List Expr} {bounds : List Range} {op : OpRef} {output : Int}
  {pred : Option Expr}
  {body : Stmt}

@[simp] theorem provisions_attr : (attr subject key value body).provisions = body.provisions := by
  simp [provisions_eq (attr subject key value body)]

@[simp] theorem provisions_loop : (loop v min extent kind body).provisions = body.provisions := by
  simp [provisions_eq (loop v min extent kind body)]

@[simp] theorem provisions_store : (store e value min pred).provisions = 0 := by
  simp [provisions_eq (store e value min pred)]

@[simp] theorem provisions_provide : (provide op output value args).provisions = {(op.idx, output)} := by
  simp [provisions_eq (provide op output value args)]

@[simp] theorem provisions_allocate : (allocate site v dtype extents cond body).provisions = body.provisions := by
  simp [provisions_eq (allocate site v dtype extents cond body)]

@[simp] theorem provisions_realize : (realize op output dtype bounds cond body).provisions = body.provisions := by
  simp [provisions_eq (realize op output dtype bounds cond body)]

@[simp] theorem provisions_seq {ss : List Stmt} : (seq ss).provisions = (ss.map provisions).sum := by
  simp [provisions_eq (seq ss)]

@[simp] theorem provisions_branch : (branch cond body none).provisions = body.provisions := by
  simp [provisions_eq (branch cond body none)]

@[simp] theorem provisions_eval : (eval e).provisions = 0 := by
  simp [provisions_eq (eval e)]

theorem sum_items (s : Stmt) : (s.items.map provisions).sum = s.provisions := by
  cases s <;> simp [items]

theorem provisions_block (ss : List Stmt) : (block ss).provisions = (ss.map provisions).sum := by
  match ss with
  | [] => simp [block, noOp]
  | [s] => simp [block]
  | s :: t :: ss => simp [block]

@[simp] theorem provisions_ofList (ss : List Stmt) : (ofList ss).provisions = (ss.map provisions).sum := by
  rw [ofList, provisions_block]
  induction ss with
  | nil => rfl
  | cons s ss ih => rw [List.flatMap_cons, List.map_append, List.sum_append, ih, sum_items, List.map_cons, List.sum_cons]

theorem bodies_subst (σ : Subst) (s : Stmt) : (s.subst σ).bodies = s.bodies.map (subst σ) := by
  cases s with
  | seq ss =>
    induction ss with
    | nil => rfl
    | cons s ss ih => exact congrArg (s.subst σ :: ·) ih
  | branch cond onTrue onFalse => cases onFalse <;> rfl
  | _ => rfl

theorem provided?_subst (σ : Subst) (s : Stmt) : (s.subst σ).provided? = s.provided? := by
  cases s with
  | branch cond onTrue onFalse => cases onFalse <;> rfl
  | _ => rfl

@[simp] theorem provisions_subst (σ : Subst) (s : Stmt) : (s.subst σ).provisions = s.provisions := by
  induction s using induct_bodies with
  | step s ih =>
    rw [provisions_eq, provisions_eq s, bodies_subst, provided?_subst, List.map_map]
    exact congrArg (fun l : List (Multiset (Nat × Int)) => l.sum + ↑s.provided?.toList) (List.map_congr_left ih)

end Stmt

/-! ### The nest of a stage -/

/-- The first `n` outputs of an operation. -/
def outputs (op : Operation) (n : Nat) : Multiset (Nat × Int) :=
  ↑((List.range n).map fun i : Nat => (op.idx, (i : Int)))

namespace Stage

/-- Whether the threads of a block share the reduction of a stage. -/
def sharesReduction (st : Stage) : Bool :=
  !st.op.reduceAxes.isEmpty && st.leaves.any fun leaf => leaf.kind == .reduction && st.isBound leaf

/-- The leaf axes whose loops are made around the body of a stage. What each thread reduces of a reduction
    over threads is reduced inside the body. -/
def loops (st : Stage) : List IterVar :=
  if st.sharesReduction then st.leaves.filter fun leaf => leaf.kind != .reduction || st.isBound leaf else st.leaves

/-- What the nest of a stage provides. A reduction that threads do not share provides its first values and
    then the values after each step. -/
def provisions (st : Stage) : Multiset (Nat × Int) :=
  if st.op.reduceAxes.isEmpty then outputs st.op st.op.body.length
  else if st.sharesReduction then outputs st.op 1
  else
    outputs st.op (NestContext.reductionOf st.op).1.identity.length +
      outputs st.op (NestContext.reductionOf st.op).1.result.length

/-- A stage that reduces has a reduction axis among its leaf axes, before which the reduction is started. -/
def Reduces (st : Stage) : Prop :=
  st.op.reduceAxes ≠ [] → ∃ leaf ∈ st.leaves, leaf.kind = .reduction

instance (st : Stage) : Decidable st.Reduces := inferInstanceAs (Decidable (_ → _))

theorem fst_of_mem_provisions {st : Stage} {p : Nat × Int} (h : p ∈ st.provisions) : p.1 = st.op.idx := by
  have houtputs : ∀ n, p ∈ outputs st.op n → p.1 = st.op.idx := by
    intro n hp
    obtain ⟨i, -, rfl⟩ := List.mem_map.mp (Multiset.mem_coe.mp hp)
    rfl
  unfold provisions at h
  split_ifs at h
  · exact houtputs _ h
  · exact houtputs _ h
  · exact (Multiset.mem_add.mp h).elim (houtputs _) (houtputs _)

theorem loops_sublist (st : Stage) : st.loops.Sublist st.leaves := by
  unfold loops
  split
  · exact List.filter_sublist
  · exact List.Sublist.refl _

end Stage

/-- What each step of a fold from the right adds, the fold adds. -/
theorem foldrM_adds {M α β : Type} [AddCommMonoid M] {f : α → β → Build β} (amount : β → M) (extra : α → M)
    {l : List α} (step : ∀ x ∈ l, ∀ {b g b' g'}, (f x b).Yields g b' g' → amount b' = extra x + amount b)
    {b b' : β} {g g' : Graph} (h : (l.foldrM f b).Yields g b' g') : amount b' = (l.map extra).sum + amount b := by
  induction l generalizing b' g' with
  | nil =>
    obtain ⟨rfl, -⟩ := Build.yields_pure.mp h
    simp
  | cons x l ih =>
    rw [List.foldrM_cons] at h
    obtain ⟨b₁, g₁, hl, hx⟩ := Build.yields_bind.mp h
    rw [step x List.mem_cons_self hx, ih (fun y hy => step y (List.mem_cons_of_mem x hy)) hl, List.map_cons, List.sum_cons,
      add_assoc]

theorem Build.length_mapM {α β : Type} {f : α → Build β} {l : List α} {ys : List β} {g g' : Graph}
    (h : (l.mapM f).Yields g ys g') : ys.length = l.length := by
  induction l generalizing ys g g' with
  | nil =>
    obtain ⟨rfl, -⟩ := Build.yields_pure.mp h
    rfl
  | cons x l ih =>
    rw [List.mapM_cons] at h
    obtain ⟨y, g₁, -, h⟩ := Build.yields_bind.mp h
    obtain ⟨ys, g₂, hys, h⟩ := Build.yields_bind.mp h
    obtain ⟨rfl, -⟩ := Build.yields_pure.mp h
    rw [List.length_cons, ih hys, List.length_cons]

namespace NestContext

variable {c : NestContext} {st : Stage} {g g' : Graph} {s body : Stmt}

@[simp] theorem provisions_guarded (guards : List Expr) (body : Stmt) :
    (guarded guards body).provisions = body.provisions := by
  induction guards with
  | nil => rfl
  | cons e es ih =>
    have hcons : guarded (e :: es) body = .branch e (guarded es body) none := rfl
    simp [hcons, ih]

@[simp] theorem provisions_underCondition (cond : Option Expr) (σ : Subst) (body : Stmt) :
    (underCondition cond σ body).provisions = body.provisions := by
  cases cond <;> simp [underCondition]

@[simp] theorem provisions_provides (op : Operation) (args values : List Expr) :
    (provides op args values).provisions = outputs op values.length := by
  have hzip : ∀ k, ((values.zipIdx k).map fun p => (Stmt.provide op.ref p.2 p.1 args).provisions).sum =
      (↑((List.range' k values.length).map fun i : Nat => (op.idx, (i : Int))) : Multiset (Nat × Int)) := by
    induction values with
    | nil => simp
    | cons v values ih =>
      intro k
      rw [List.zipIdx_cons, List.map_cons, List.sum_cons, ih, Stmt.provisions_provide, List.length_cons, List.range'_succ,
        List.map_cons, ← Multiset.cons_coe, Multiset.singleton_add]
      rfl
  rw [provides, Stmt.provisions_ofList, List.map_map, outputs, List.range_eq_range']
  exact hzip 0

/-- The loop of a leaf axis provides what its body provides. -/
theorem provisions_loop {leaf : IterVar} (h : c.loop st leaf body = .ok s) : s.provisions = body.provisions := by
  have hattrs : ∀ (ps : List (Subject × Expr)) (body : Stmt), (ps.foldl (fun body (p : Subject × Expr) =>
      Stmt.attr p.1 "prefetch_scope" p.2 body) body).provisions = body.provisions := by
    intro ps
    induction ps with
    | nil => exact fun body => rfl
    | cons p ps ih => exact fun body => (ih _).trans Stmt.provisions_attr
  obtain ⟨range, -, h⟩ := bind_eq_ok.mp h
  dsimp only at h
  split at h
  · cases h
    rw [Stmt.provisions_attr]
    exact hattrs _ body
  · obtain ⟨zero, -, h⟩ := bind_eq_ok.mp h
    cases h
    rw [Stmt.provisions_loop]
    exact hattrs _ body

theorem provisions_initNest {args guards : List Expr} (h : (c.initNest st args guards).Yields g s g') :
    s.provisions = outputs st.op (reductionOf st.op).1.identity.length := by
  simp only [initNest, Build.yields_bind, Build.yields_pure] at h
  obtain ⟨vars, g₁, -, init, g₂, hinit, rfl, -⟩ := h
  have hloops := foldrM_adds Stmt.provisions (fun _ => 0) (fun leaf _ b g b' g' hstep => by
    simp only [Build.yields_bind, Build.yields_pure] at hstep
    obtain ⟨zero, -, -, range, -, -, rfl, -⟩ := hstep
    simp) hinit
  simpa using hloops

theorem provisions_crossThreadBody {args dataGuards reduceGuards : List Expr} {σ : Subst}
    (h : (c.crossThreadBody st args dataGuards reduceGuards σ).Yields g s g') : s.provisions = outputs st.op 1 := by
  unfold crossThreadBody at h
  dsimp only at h
  split at h
  · simp at h
  simp only [Build.yields_bind, Build.yields_pure] at h
  obtain ⟨acc, g₁, -, result, g₂, -, share, g₃, hshare, -, -, -, rfl, -⟩ := h
  have hloops := foldrM_adds Stmt.provisions (fun _ => 0) (fun leaf _ b g b' g' hstep => by
    rw [provisions_loop (Build.yields_liftExcept.mp hstep).1, zero_add]) hshare
  simp at hloops
  simp [hloops, outputs]
  rfl

/-- What is placed before the loop at one of the positions from `k`. -/
def placed (first : Option (Nat × Stmt)) (k n : Nat) : Multiset (Nat × Int) :=
  first.elim 0 fun (p, t) => if k ≤ p ∧ p < k + n then t.provisions else 0

theorem sum_placed (first : Option (Nat × Stmt)) (extra : IterVar → Multiset (Nat × Int)) (leaves : List IterVar)
    (k : Nat) :
    ((leaves.zipIdx k).map fun x => extra x.1 + placed first x.2 1).sum =
    (leaves.map extra).sum + placed first k leaves.length := by
  induction leaves generalizing k with
  | nil => cases first <;> simp [placed]
  | cons leaf leaves ih =>
    rw [List.zipIdx_cons, List.map_cons, List.sum_cons, ih, List.map_cons, List.sum_cons, List.length_cons]
    have hsplit : placed first k 1 + placed first (k + 1) leaves.length = placed first k (leaves.length + 1) := by
      cases first with
      | none => rfl
      | some t =>
        simp only [placed, Option.elim]
        split_ifs <;> first | omega | simp
    rw [← hsplit, add_add_add_comm]

theorem provisions_wrapLoops {wrap : IterVar → Stmt → Build Stmt} {extra : IterVar → Multiset (Nat × Int)}
    {leaves : List IterVar} (hwrap : ∀ leaf ∈ leaves, ∀ {b g b' g'}, (wrap leaf b).Yields g b' g' →
      b'.provisions = extra leaf + b.provisions) {first : Option (Nat × Stmt)}
    (h : (wrapLoops wrap first body leaves).Yields g s g') :
    s.provisions = (leaves.map extra).sum + placed first 0 leaves.length + body.provisions := by
  rw [← sum_placed]
  refine foldrM_adds Stmt.provisions _ (fun x hx b g b' g' hstep => ?_) h
  obtain ⟨leaf, pos⟩ := x
  obtain ⟨t, g₁, ht, hstep⟩ := Build.yields_bind.mp hstep
  have hleaf := hwrap leaf (List.mem_of_getElem? (List.mem_zipIdx_iff_getElem?.mp hx)) ht
  cases first with
  | none =>
    obtain ⟨rfl, -⟩ := Build.yields_pure.mp hstep
    simpa [placed] using hleaf
  | some f =>
    obtain ⟨p, init⟩ := f
    obtain ⟨rfl, -⟩ := Build.yields_pure.mp hstep
    by_cases hp : p = pos
    · have hone : placed (some (p, init)) pos 1 = init.provisions := if_pos (by omega)
      simp only [hp, beq_self_eq_true, if_true, Stmt.provisions_ofList] at hone ⊢
      simp [hone, hleaf, add_left_comm, add_assoc]
    · have hone : placed (some (p, init)) pos 1 = 0 := if_neg (by omega)
      simpa [hp, hone] using hleaf

/-- The nest of a stage provides what the stage provides, and what is placed into its loops. -/
theorem provisions_computeNest {wrap : IterVar → Stmt → Build Stmt} {extra : IterVar → Multiset (Nat × Int)}
    (hwrap : ∀ leaf ∈ st.loops, ∀ {b g b' g'}, (wrap leaf b).Yields g b' g' → b'.provisions = extra leaf + b.provisions)
    (hreduces : st.Reduces) (h : (c.computeNest st wrap).Yields g s g') :
    s.provisions = st.provisions + (st.loops.map extra).sum := by
  unfold computeNest at h
  dsimp only at h
  split at h
  · simp at h
  simp only [Build.yields_bind, Build.yields_liftExcept] at h
  obtain ⟨values, g₁, -, σ, g₂, -, splits, g₃, -, domains, g₄, -, h⟩ := h
  by_cases hempty : st.op.reduceAxes.isEmpty
  · have hloops : st.loops = st.leaves := by simp [Stage.loops, Stage.sharesReduction, hempty]
    rw [if_pos hempty] at h
    obtain ⟨bodies, g₅, hbodies, h⟩ := Build.yields_bind.mp h
    rw [provisions_wrapLoops (hloops ▸ hwrap) h, hloops]
    simp [placed, Stage.provisions, hempty, Build.length_mapM hbodies, add_comm]
  rw [if_neg hempty] at h
  obtain ⟨reduceGuards, g₅, -, h⟩ := Build.yields_bind.mp h
  by_cases hshared : st.leaves.any fun leaf => leaf.kind == .reduction && st.isBound leaf
  · have hshares : st.sharesReduction := by simp [Stage.sharesReduction, hempty, hshared]
    rw [if_pos hshared] at h
    obtain ⟨body, g₆, hbody, h⟩ := Build.yields_bind.mp h
    have hloops : st.loops = st.leaves.filter fun leaf => leaf.kind != .reduction || st.isBound leaf := if_pos hshares
    rw [provisions_wrapLoops (hloops ▸ hwrap) h, provisions_crossThreadBody hbody, hloops]
    simp [placed, Stage.provisions, hempty, hshares, add_comm]
  · have hshares : st.sharesReduction = false := by simp [Stage.sharesReduction, hshared]
    have hloops : st.loops = st.leaves := by simp [Stage.loops, hshares]
    rw [if_neg hshared] at h
    obtain ⟨init, g₆, hinit, h⟩ := Build.yields_bind.mp h
    have hfirst : st.leaves.findIdx (·.kind == .reduction) < st.leaves.length := by
      obtain ⟨leaf, hleaf, hkind⟩ := hreduces (by simpa using hempty)
      exact List.findIdx_lt_length_of_exists ⟨leaf, hleaf, by simp [hkind]⟩
    have hplaced : placed (some (st.leaves.findIdx (·.kind == .reduction), init)) 0 st.leaves.length = init.provisions :=
      if_pos ⟨Nat.zero_le _, by omega⟩
    rw [provisions_wrapLoops (hloops ▸ hwrap) h, hplaced, provisions_initNest hinit, hloops, add_assoc, add_comm]
    simp [Stage.provisions, hempty, hshares, updates]

/-! ### The nests of all stages -/

/-- The stages that are computed in the loops of a stage. -/
def children (c : NestContext) (st : Stage) : Multiset Stage :=
  ↑(st.loops.flatMap c.attachedTo)

/-- The stages in the nest of a stage, to a depth: itself and those in the nests of its children. -/
def nested (c : NestContext) : Nat → Stage → Multiset Stage
  | 0, _ => 0
  | depth + 1, st => st ::ₘ (c.children st).bind (c.nested depth)

theorem sum_nested_succ (c : NestContext) (depth : Nat) (st : Stage) :
    ((c.nested (depth + 1) st).map Stage.provisions).sum = st.provisions +
      (st.loops.map fun leaf => ((c.attachedTo leaf).map fun child =>
        ((c.nested depth child).map Stage.provisions).sum).sum).sum := by
  rw [nested, children, Multiset.map_cons, Multiset.sum_cons, Multiset.map_bind, Multiset.sum_bind, Multiset.map_coe,
    Multiset.sum_coe, List.map_flatMap]
  congr 1
  induction st.loops with
  | nil => rfl
  | cons leaf loops ih => rw [List.flatMap_cons, List.sum_append, ih, List.map_cons, List.sum_cons]

@[simp] theorem provisions_realizations (op : Operation) (bounds : List Range) (outputs : List Nat) (body : Stmt) :
    (outputs.foldr (fun (i : Nat) s => Stmt.realize op.ref i (op.outputType i) bounds (Expr.bool true) s) body).provisions =
      body.provisions := by
  induction outputs with
  | nil => rfl
  | cons i outputs ih => rw [List.foldr_cons, Stmt.provisions_realize, ih]

/-- The nest of a stage, with those of the stages attached to its loops, provides what these stages provide. -/
theorem provisions_pipeline (hattached : ∀ p ∈ c.attached, p.2.Reduces) {depth : Nat} (hst : st.Reduces)
    {consumer : Option Stmt} (h : (c.pipeline depth st consumer).Yields g s g') :
    s.provisions = ((c.nested depth st).map Stage.provisions).sum + consumer.elim 0 Stmt.provisions := by
  induction depth generalizing st consumer s g g' with
  | zero => exact absurd h Build.not_yields_throw
  | succ depth ih =>
    unfold pipeline at h
    dsimp only at h
    obtain ⟨produce, g₁, hproduce, h⟩ := Build.yields_bind.mp h
    obtain ⟨bounds, g₂, -, h⟩ := Build.yields_bind.mp h
    obtain ⟨rfl, -⟩ := Build.yields_pure.mp h
    have hnest : produce.provisions = ((c.nested (depth + 1) st).map Stage.provisions).sum := by
      rw [sum_nested_succ]
      refine provisions_computeNest (fun leaf _ b g b' g' hstep => ?_) hst hproduce
      obtain ⟨inner, g₂, hinner, hloop⟩ := Build.yields_bind.mp hstep
      rw [provisions_loop (Build.yields_liftExcept.mp hloop).1]
      refine foldrM_adds Stmt.provisions _ (fun child hchild b g b' g' hstep => ?_) hinner
      obtain ⟨p, hp, rfl⟩ := List.mem_map.mp hchild
      exact ih (hattached p (List.mem_filter.mp hp).1) hstep
    cases consumer <;> split_ifs <;> simp [hnest]

/-- The stages in the nest of a stage and the children of these are the stages in the nests of its children. -/
theorem bind_children_nested (depth : Nat) (st : Stage) :
    (c.nested depth st).bind c.children = (c.children st).bind (c.nested depth) := by
  induction depth generalizing st with
  | zero => simp [nested]
  | succ depth ih =>
    calc (c.nested (depth + 1) st).bind c.children
        = c.children st + (c.children st).bind fun child => (c.nested depth child).bind c.children := by
          rw [nested, Multiset.cons_bind, Multiset.bind_assoc]
      _ = c.children st + (c.children st).bind fun child => (c.children child).bind (c.nested depth) := by simp only [ih]
      _ = (c.children st).bind (c.nested (depth + 1)) := by simp only [nested, Multiset.bind_cons, Multiset.map_id']

/-- If each of some stages is a root or the child of another one, once, then these are the stages in the nests of
    the roots, but for those that are nested deeper. -/
theorem eq_bind_nested {stages roots : Multiset Stage} (h : stages = roots + stages.bind c.children) (depth : Nat) :
    stages = roots.bind (c.nested depth) + (fun m : Multiset Stage => m.bind c.children)^[depth] stages := by
  induction depth with
  | zero => simp [nested]
  | succ depth ih =>
    rw [Function.iterate_succ_apply']
    calc stages = roots + stages.bind c.children := h
      _ = roots + (roots.bind (c.nested depth) + (fun m : Multiset Stage => m.bind c.children)^[depth] stages).bind
            c.children := by rw [← ih]
      _ = roots.bind (c.nested (depth + 1)) +
            ((fun m : Multiset Stage => m.bind c.children)^[depth] stages).bind c.children := by
          simp only [Multiset.add_bind, Multiset.bind_assoc, bind_children_nested, nested, Multiset.bind_cons,
            Multiset.map_id', add_assoc]

end NestContext

namespace Schedule

variable {s s' : Schedule} {c : NestContext} {g g' : Graph} {stmt : Stmt}

/-- The stages that have nests. -/
def computed (s : Schedule) : List Stage :=
  s.stages.filter fun st =>
    match st.attach with
    | .inlined => false
    | _ => st.op.isCompute

/-- The stages that are computed on their own. -/
def roots (s : Schedule) : List Stage :=
  s.stages.filter fun st =>
    match st.attach with
    | .root => st.op.isCompute
    | _ => false

/-- The attached stages, each with the number of the axis that it is attached to. -/
def attachedPairs (s : Schedule) : List (Nat × Stage) :=
  s.stages.filterMap fun st => st.attach.target?.map fun p => (p.2.id, st)

/-- One stage is attached to another one, by their numbers. -/
def Under (s : Schedule) (a b : Nat) : Prop :=
  ∃ st ∈ s.stages, st.id = a ∧ ∃ axis, st.attach = .inside b axis

/-- Every attached stage is attached to an axis that has one loop in the nests, which is a loop of the stage that it
    is attached to, and the attachments form no cycle. -/
structure Nested (s : Schedule) : Prop where
  distinct : (s.stages.map (·.id)).Nodup
  operations : (s.computed.map (·.op.idx)).Nodup
  leaves : ∀ st ∈ s.computed, st.leafIds.Nodup
  reduces : ∀ st ∈ s.computed, st.Reduces
  computes : ∀ st ∈ s.stages, st.attach.target?.isSome → st.op.isCompute
  looped : ∀ st ∈ s.stages, ∀ p ∈ st.attach.target?, ∃ q ∈ s.computed, q.id = p.1 ∧ p.2.id ∈ q.loops.map (·.id)
  apart : ∀ st ∈ s.stages, ∀ p ∈ st.attach.target?, ∀ q ∈ s.computed, p.2.id ∈ q.leafIds → q.id = p.1
  acyclic : ∀ a, ¬Relation.TransGen s.Under a a

/-- Attachments to later stages alone form no cycle. -/
theorem acyclic_of_lt (h : ∀ st ∈ s.stages, ∀ p ∈ st.attach.target?, st.id < p.1) (a : Nat) :
    ¬Relation.TransGen s.Under a a := by
  have hlt : ∀ {a b : Nat}, Relation.TransGen s.Under a b → a < b := by
    intro a b hab
    induction hab with
    | single hstep =>
      obtain ⟨st, hst, rfl, axis, hatt⟩ := hstep
      exact h st hst (_, axis) (Attach.target?_eq_some.mpr hatt)
    | tail _ hstep ih =>
      obtain ⟨st, hst, rfl, axis, hatt⟩ := hstep
      exact ih.trans (h st hst (_, axis) (Attach.target?_eq_some.mpr hatt))
  exact fun hcycle => Nat.lt_irrefl a (hlt hcycle)

theorem mem_attachedPairs {p : Nat × Stage} : p ∈ s.attachedPairs ↔
    p.2 ∈ s.stages ∧ ∃ id axis, p.2.attach = .inside id axis ∧ axis.id = p.1 := by
  obtain ⟨k, st⟩ := p
  simp only [attachedPairs, List.mem_filterMap, Option.map_eq_some_iff, Attach.target?_eq_some, Prod.mk.injEq]
  constructor
  · rintro ⟨st, hst, ⟨id, axis⟩, hatt, rfl, rfl⟩
    exact ⟨hst, id, axis, hatt, rfl⟩
  · rintro ⟨hst, id, axis, hatt, rfl⟩
    exact ⟨st, hst, (id, axis), hatt, rfl, rfl⟩

theorem attachments_eq {pairs : List (Nat × Stage)} (h : NestContext.attachments s = .ok pairs) :
    pairs = s.attachedPairs := by
  obtain ⟨ls, hls, h⟩ := bind_eq_ok.mp h
  cases h
  have hpairs : ls = s.stages.map fun st => (st.attach.target?.map fun p => (p.2.id, st)).toList := by
    refine mapM_eq_map (fun st _ xs hxs => ?_) hls
    cases hatt : st.attach with
    | inside id axis =>
      simp only [hatt] at hxs
      split at hxs
      · split at hxs
        · cases hxs
        · exact (Except.ok.inj hxs).symm
      · exact (Except.ok.inj hxs).symm
    | _ =>
      simp only [hatt] at hxs
      exact (Except.ok.inj hxs).symm
  rw [hpairs, ← List.flatMap_def, attachedPairs, List.filterMap_eq_flatMap_toList]

theorem attached_ofSchedule {m : Ranges} (h : NestContext.ofSchedule s m = .ok c) : c.attached = s.attachedPairs := by
  obtain ⟨pairs, hpairs, h⟩ := bind_eq_ok.mp h
  obtain ⟨domains, -, h⟩ := bind_eq_ok.mp h
  cases h
  exact attachments_eq hpairs

/-- What is found under keys that occur once is each thing once. -/
theorem flatMap_filter_perm {β : Type} {l : List (Nat × β)} {keys : List Nat} (h : ∀ p ∈ l, keys.count p.1 = 1) :
    (keys.flatMap fun k => l.filter (·.1 == k)).Perm l := by
  induction l with
  | nil => simp
  | cons p l ih =>
    obtain ⟨hp, hl⟩ := List.forall_mem_cons.mp h
    have hfirst : ∀ ks : List Nat, (ks.flatMap fun k => if p.1 == k then [p] else []) =
      List.replicate (ks.count p.1) p := by
      intro ks
      induction ks with
      | nil => rfl
      | cons k ks ihk =>
        rw [List.flatMap_cons, ihk, List.count_cons]
        by_cases hk : p.1 = k
        · simp [hk, List.replicate_succ]
        · simp [hk, Ne.symm hk]
    have hsplit : ∀ k, (p :: l).filter (·.1 == k) = (if p.1 == k then [p] else []) ++ l.filter (·.1 == k) := by
      intro k
      rw [List.filter_cons]
      split <;> rfl
    simp only [hsplit]
    refine (List.flatMap_append_perm keys _ _).symm.trans ?_
    rw [hfirst keys, hp]
    exact (ih hl).cons p

/-- The axis that a stage is attached to has one loop in all nests. -/
theorem Nested.count_loops (h : s.Nested) {p : Nat × Stage} (hp : p ∈ s.attachedPairs) :
    (s.computed.flatMap fun st => st.loops.map (·.id)).count p.1 = 1 := by
  obtain ⟨hst, id, axis, hatt, hkey⟩ := mem_attachedPairs.mp hp
  have htarget : (id, axis) ∈ p.2.attach.target? := Attach.target?_eq_some.mpr hatt
  obtain ⟨q, hq, hid, hloop⟩ := h.looped p.2 hst _ htarget
  have hnodup : (s.computed.map (·.id)).Nodup := h.distinct.sublist (List.filter_sublist.map _)
  obtain ⟨front, back, hsplit⟩ := List.append_of_mem hq
  have hnot : ∀ r ∈ front ++ back, p.1 ∉ r.loops.map (·.id) := by
    intro r hr hmem
    have hrq : r.id ≠ q.id := by
      rw [hsplit, List.map_append, List.map_cons, List.nodup_middle, List.nodup_cons] at hnodup
      exact fun heq => hnodup.1 (by rw [← List.map_append, ← heq]; exact List.mem_map_of_mem hr)
    have hrmem : r ∈ s.computed := by
      rw [hsplit]
      exact List.mem_append.mpr ((List.mem_append.mp hr).imp_right (List.mem_cons_of_mem q))
    refine hrq ((h.apart p.2 hst _ htarget r hrmem ?_).trans hid.symm)
    rw [hkey]
    exact (r.loops_sublist.map _).subset hmem
  have hone : (q.loops.map (·.id)).count p.1 = 1 :=
    List.count_eq_one_of_mem ((h.leaves q hq).sublist (q.loops_sublist.map _)) (hkey ▸ hloop)
  have hzero : ∀ l ⊆ front ++ back, (l.flatMap fun st => st.loops.map (·.id)).count p.1 = 0 := by
    intro l hl
    refine List.count_eq_zero.mpr fun hmem => ?_
    obtain ⟨r, hr, hmem⟩ := List.mem_flatMap.mp hmem
    exact hnot r (hl hr) hmem
  rw [hsplit, List.flatMap_append, List.flatMap_cons, List.count_append, List.count_append, hone,
    hzero front (List.subset_append_left _ _), hzero back (List.subset_append_right _ _)]

/-- The children of all stages are the attached stages. -/
theorem Nested.bind_children (h : s.Nested) (hc : c.attached = s.attachedPairs) :
    (↑s.computed : Multiset Stage).bind c.children = ↑(s.attachedPairs.map (·.2)) := by
  have hkeys : (s.computed.flatMap fun st => st.loops.flatMap c.attachedTo) =
      ((s.computed.flatMap fun st => st.loops.map (·.id)).flatMap fun k =>
        s.attachedPairs.filter (·.1 == k)).map (·.2) := by
    simp only [List.flatMap_assoc, List.map_flatMap, List.flatMap_map, ← hc]
    rfl
  have hbind : (↑s.computed : Multiset Stage).bind c.children =
    ↑(s.computed.flatMap fun st => st.loops.flatMap c.attachedTo) :=
    Multiset.coe_bind _ _
  rw [hbind, hkeys]
  exact Multiset.coe_eq_coe.mpr ((flatMap_filter_perm fun p hp => h.count_loops hp).map _)

theorem Nested.computed_eq (h : s.Nested) : (↑s.computed : Multiset Stage) = ↑s.roots + ↑(s.attachedPairs.map (·.2)) := by
  have hparts : ∀ l ⊆ s.stages,
      (l.filter fun st => match st.attach with | .inlined => false | _ => st.op.isCompute).Perm
        ((l.filter fun st => match st.attach with | .root => st.op.isCompute | _ => false) ++
          (l.filterMap fun st => st.attach.target?.map fun p => (p.2.id, st)).map (·.2)) := by
    intro l hl
    induction l with
    | nil => exact List.Perm.refl _
    | cons st l ih =>
      obtain ⟨hst, hl⟩ := List.cons_subset.mp hl
      have hrest := ih hl
      cases hatt : st.attach with
      | root =>
        by_cases hop : st.op.isCompute
        · simpa [List.filter_cons, List.filterMap_cons, hatt, hop, Attach.target?] using hrest
        · simpa [List.filter_cons, List.filterMap_cons, hatt, hop, Attach.target?] using hrest
      | inlined => simpa [List.filter_cons, List.filterMap_cons, hatt, Attach.target?] using hrest
      | inside id axis =>
        have hop := h.computes st hst (by rw [hatt]; rfl)
        simp only [List.filter_cons, List.filterMap_cons, hatt, hop, Attach.target?, Option.map_some, if_true,
          Bool.false_eq_true, if_false, List.map_cons]
        exact (hrest.cons st).trans List.perm_middle.symm
  rw [Multiset.coe_add]
  exact Multiset.coe_eq_coe.mpr (hparts s.stages (List.Subset.refl _))

/-- A child has a nest and is attached to the stage whose child it is. -/
theorem Nested.of_mem_children (h : s.Nested) (hc : c.attached = s.attachedPairs) {x y : Stage} (hy : y ∈ s.computed)
    (hx : x ∈ c.children y) : x ∈ s.computed ∧ s.Under x.id y.id := by
  obtain ⟨leaf, hleaf, hx⟩ := List.mem_flatMap.mp (Multiset.mem_coe.mp hx)
  obtain ⟨p, hp, rfl⟩ := List.mem_map.mp hx
  obtain ⟨hp, hkey⟩ := List.mem_filter.mp hp
  obtain ⟨hst, id, axis, hatt, haxis⟩ := mem_attachedPairs.mp (hc ▸ hp)
  have htarget : (id, axis) ∈ p.2.attach.target? := Attach.target?_eq_some.mpr hatt
  have hyid : y.id = id := by
    refine h.apart p.2 hst _ htarget y hy ?_
    rw [haxis, beq_iff_eq.mp hkey]
    exact List.mem_map_of_mem (y.loops_sublist.subset hleaf)
  refine ⟨List.mem_filter.mpr ⟨hst, ?_⟩, p.2, hst, rfl, axis, hyid ▸ hatt⟩
  rw [hatt]
  exact h.computes p.2 hst (by rw [hatt]; rfl)

/-- A stage that is nested `n` deep has `n` stages around it. -/
theorem Nested.exists_chain (h : s.Nested) (hc : c.attached = s.attachedPairs) {n : Nat} {x : Stage}
    (hx : x ∈ (fun m : Multiset Stage => m.bind c.children)^[n] ↑s.computed) :
    x ∈ s.computed ∧ ∃ ids : List Nat, ids.length = n ∧ (x.id :: ids).IsChain s.Under ∧
      x.id :: ids ⊆ s.stages.map (·.id) := by
  have hmem : ∀ {y : Stage}, y ∈ s.computed → y.id ∈ s.stages.map (·.id) := fun hy =>
    List.mem_map_of_mem (List.mem_filter.mp hy).1
  induction n generalizing x with
  | zero =>
    have hx : x ∈ s.computed := hx
    exact ⟨hx, [], rfl, List.isChain_singleton _, List.cons_subset.mpr ⟨hmem hx, List.nil_subset _⟩⟩
  | succ n ih =>
    rw [Function.iterate_succ_apply'] at hx
    obtain ⟨y, hy, hx⟩ := Multiset.mem_bind.mp hx
    obtain ⟨hy, ids, hlen, hchain, hids⟩ := ih hy
    obtain ⟨hx, hunder⟩ := h.of_mem_children hc hy hx
    exact ⟨hx, y.id :: ids, by rw [List.length_cons, hlen], List.isChain_cons_cons.mpr ⟨hunder, hchain⟩,
      List.cons_subset.mpr ⟨hmem hx, hids⟩⟩

/-- No stage is nested deeper than there are stages. -/
theorem Nested.iterate_eq_zero (h : s.Nested) (hc : c.attached = s.attachedPairs) :
    (fun m : Multiset Stage => m.bind c.children)^[s.stages.length + 1] ↑s.computed = 0 := by
  refine Multiset.eq_zero_of_forall_notMem fun x hx => ?_
  obtain ⟨-, ids, hlen, hchain, hids⟩ := h.exists_chain hc hx
  have hpairwise : (x.id :: ids).Pairwise (Relation.TransGen s.Under) :=
    List.isChain_iff_pairwise.mp (hchain.imp fun _ _ => Relation.TransGen.single)
  have hne : ∀ {a b : Nat}, Relation.TransGen s.Under a b → a ≠ b := by
    rintro a b hab rfl
    exact h.acyclic a hab
  have hnodup : (x.id :: ids).Nodup := hpairwise.imp hne
  have hle := hnodup.length_le_of_subset hids
  rw [List.length_cons, List.length_map, hlen] at hle
  omega

theorem Nested.provisions_nest (h : s.Nested) {m : Ranges} (hrun : (s.nest m).Yields g stmt g') :
    stmt.provisions = (s.computed.map Stage.provisions).sum := by
  simp only [nest, Build.yields_bind, Build.yields_liftExcept, Build.yields_pure] at hrun
  obtain ⟨c, g₁, ⟨hc, -⟩, body, g₂, hbody, rfl, -⟩ := hrun
  have hattached := attached_ofSchedule hc
  have hreduces : ∀ p ∈ c.attached, p.2.Reduces := by
    intro p hp
    obtain ⟨hst, id, axis, hatt, -⟩ := mem_attachedPairs.mp (hattached ▸ hp)
    refine h.reduces p.2 (List.mem_filter.mpr ⟨hst, ?_⟩)
    rw [hatt]
    exact h.computes p.2 hst (by rw [hatt]; rfl)
  have hnests : body.elim 0 Stmt.provisions = (s.roots.map fun st =>
      ((c.nested (s.stages.length + 1) st).map Stage.provisions).sum).sum := by
    have hroots := foldrM_adds (fun b : Option Stmt => b.elim 0 Stmt.provisions)
      (fun st => ((c.nested (s.stages.length + 1) st).map Stage.provisions).sum) (fun st hst b g b' g' hstep => ?_) hbody
    · exact hroots.trans (add_zero _)
    · obtain ⟨nest, g₃, hnest, hb⟩ := Build.yields_bind.mp hstep
      obtain ⟨rfl, -⟩ := Build.yields_pure.mp hb
      refine NestContext.provisions_pipeline hreduces (h.reduces st (List.mem_filter.mpr ?_)) hnest
      obtain ⟨hst, hroot⟩ := List.mem_filter.mp hst
      refine ⟨hst, ?_⟩
      cases hatt : st.attach <;> simp_all
  have hall : (↑s.computed : Multiset Stage) = (↑s.roots : Multiset Stage).bind (c.nested (s.stages.length + 1)) := by
    have hparts : (↑s.computed : Multiset Stage) = ↑s.roots + (↑s.computed : Multiset Stage).bind c.children := by
      rw [h.bind_children hattached]
      exact h.computed_eq
    have heq := NestContext.eq_bind_nested hparts (s.stages.length + 1)
    rwa [h.iterate_eq_zero hattached, add_zero] at heq
  calc (Stmt.ofList body.toList).provisions = body.elim 0 Stmt.provisions := by cases body <;> simp
    _ = ((↑s.roots : Multiset Stage).map fun st => ((c.nested (s.stages.length + 1) st).map Stage.provisions).sum).sum := by
        rw [hnests, Multiset.map_coe, Multiset.sum_coe]
    _ = (((↑s.roots : Multiset Stage).bind (c.nested (s.stages.length + 1))).map Stage.provisions).sum := by
        rw [Multiset.map_bind, Multiset.sum_bind]
    _ = (s.computed.map Stage.provisions).sum := by rw [← hall, Multiset.map_coe, Multiset.sum_coe]

theorem filter_provisions {idx : Nat} (l : List Stage) (hl : ∀ st ∈ l, st.op.idx ≠ idx) :
    ((l.map Stage.provisions).sum).filter (·.1 = idx) = 0 := by
  induction l with
  | nil => rfl
  | cons st l ih =>
    obtain ⟨hst, hl⟩ := List.forall_mem_cons.mp hl
    rw [List.map_cons, List.sum_cons, Multiset.filter_add, ih hl, add_zero]
    exact Multiset.filter_eq_nil.mpr fun p hp => Stage.fst_of_mem_provisions hp ▸ hst

/-- The statement of a schedule provides what the nests of the stages provide, and nothing else: what it provides
    of an operation is what one nest of its stage provides. -/
theorem provisions_of_nested {m : Ranges} (hrun : (realize m).Yields s g stmt s' g') (h : s'.Nested) :
    stmt.provisions = (s'.computed.map Stage.provisions).sum ∧
      ∀ st ∈ s'.computed, stmt.provisions.filter (·.1 = st.op.idx) = st.provisions := by
  simp only [realize, Edit.yields_bind, Edit.yields_get, Edit.yields_liftBuild] at hrun
  obtain ⟨_, s₁, g₁, -, _, _, _, ⟨rfl, rfl, rfl⟩, hnest, rfl⟩ := hrun
  have hall := h.provisions_nest hnest
  refine ⟨hall, fun st hst => ?_⟩
  obtain ⟨front, back, hsplit⟩ := List.append_of_mem hst
  have hnodup := h.operations
  rw [hsplit, List.map_append, List.map_cons, List.nodup_middle, List.nodup_cons, ← List.map_append] at hnodup
  have hother : ∀ r ∈ front ++ back, r.op.idx ≠ st.op.idx := fun r hr heq =>
    hnodup.1 (heq ▸ List.mem_map_of_mem hr)
  rw [hall, hsplit, List.map_append, List.sum_append, List.map_cons, List.sum_cons, Multiset.filter_add,
    Multiset.filter_add, filter_provisions front fun r hr => hother r (List.mem_append_left _ hr),
    filter_provisions back fun r hr => hother r (List.mem_append_right _ hr), zero_add, add_zero]
  exact Multiset.filter_eq_self.mpr fun p hp => Stage.fst_of_mem_provisions hp

/-! ### A chain of attached stages -/

namespace Chained

open Summed

/-- `D[j] = C[j] + C[j]`, where `C` sums up `B`. -/
def doubled : Operation :=
  ⟨3, "D", "", [], .compute [axis 6 0 .dataParallel] [.bin .add (read sums (int 6)) (read sums (int 6))]⟩

def graph : Graph := { ops := #[some input, some shifted, some sums, some doubled], next := 7 }

def start : Schedule :=
  match (create [doubled]).run.run graph with
  | (.ok s, _) => s
  | _ => default

/-- `B` is attached to the reduction axis of `C`, and `C` to the axis of `D`. -/
def chain : Schedule × Graph :=
  after .normalize (after (.computeAt 2 (some 3) (.axis (axis 6 0 .dataParallel))) (after attach (start, graph)))

def ranges : Ranges :=
  match (inferBounds.outcome chain.1 chain.2).1.1 with
  | .ok m => m
  | .error _ => default

def outcome : (Except Error Stmt × Schedule) × Graph :=
  (realize ranges).outcome chain.1 chain.2

def statement : Stmt :=
  match outcome.1.1 with
  | .ok stmt => stmt
  | .error _ => .noOp

theorem yields_statement : (realize ranges).Yields chain.1 chain.2 statement outcome.1.2 outcome.2 := by
  have hok : outcome.1.1.isOk := by decide +kernel
  unfold statement
  rcases h : outcome with ⟨⟨e | stmt, s⟩, g⟩
  · rw [h] at hok
    cases hok
  · exact h

theorem nested_chain : outcome.1.2.Nested where
  distinct := by decide
  operations := by decide
  leaves := by decide
  reduces := by decide
  computes := by decide
  looped := by decide
  apart := by decide
  acyclic := acyclic_of_lt (by decide)

theorem provisions_chain :
    outcome.1.2.computed.map (fun st => (st.op.name, st.attach.target?.map (·.1))) =
        [("B", some 2), ("C", some 3), ("D", none)] ∧
      statement.provisions = (outcome.1.2.computed.map Stage.provisions).sum ∧
      ∀ st ∈ outcome.1.2.computed, statement.provisions.filter (·.1 = st.op.idx) = st.provisions :=
  ⟨by decide +kernel, provisions_of_nested yields_statement nested_chain⟩

end Chained

end Schedule

end TensorNest

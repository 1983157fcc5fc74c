import TensorNest.Proofs.Integers
import TensorNest.Proofs.Nests

/-! # Running through nests

The points that the loops of a nest run through, one for each choice of a number for each loop. Inside the loops of a stage
stand the realizations of the stages that are attached to them (`NestContext.wrap`), which provide nothing of the stage
itself (`NestContext.spares_pipeline`). -/

namespace TensorNest

/-! ### Points -/

/-- The integers from `lo` on, `n` of them. -/
def ints (lo n : Int) : List Int :=
  (List.range n.toNat).map fun k : Nat => lo + k

theorem mem_ints {lo n x : Int} : x ∈ ints lo n ↔ lo ≤ x ∧ x < lo + n := by
  rw [ints, List.mem_map]
  constructor
  · rintro ⟨k, hk, rfl⟩
    have := List.mem_range.mp hk
    omega
  · rintro ⟨hlo, hlt⟩
    exact ⟨(x - lo).toNat, List.mem_range.mpr (by omega), by omega⟩

theorem nodup_ints (lo n : Int) : (ints lo n).Nodup :=
  List.nodup_range.map fun _ _ h => Int.ofNat_inj.mp (Int.add_left_cancel h)

theorem mem_points {α : Type} {ls : List (List α)} {p : List α} : p ∈ points ls ↔ List.Forall₂ (· ∈ ·) p ls := by
  induction ls generalizing p with
  | nil => simp [points]
  | cons xs ls ih =>
    simp only [points, List.mem_flatMap, List.mem_map, ih]
    constructor
    · rintro ⟨x, hx, q, hq, rfl⟩
      exact .cons hx hq
    · rintro (_ | ⟨hx, hq⟩)
      exact ⟨_, hx, _, hq, rfl⟩

theorem nodup_points {α : Type} {ls : List (List α)} (h : ∀ l ∈ ls, l.Nodup) : (points ls).Nodup := by
  induction ls with
  | nil => exact List.nodup_singleton _
  | cons xs ls ih =>
    obtain ⟨hxs, hls⟩ := List.forall_mem_cons.mp h
    rw [points, List.nodup_flatMap]
    refine ⟨fun x _ => (ih hls).map fun _ _ heq => (List.cons.inj heq).2, hxs.imp fun {x y} hne p hx hy => ?_⟩
    obtain ⟨_, -, rfl⟩ := List.mem_map.mp hx
    obtain ⟨_, -, heq⟩ := List.mem_map.mp hy
    exact hne (List.cons.inj heq).1.symm

/-! ### Stages attached to loops -/

namespace NestContext

variable {c : NestContext} {st : Stage} {g g' : Graph} {s body : Stmt} {leaf : IterVar}

/-- A statement provides no output of an operation. -/
def Spares (idx : Nat) (s : Stmt) : Prop :=
  ∀ p ∈ s.provisions, p.1 ≠ idx

theorem spares_outputs {op : Operation} {idx n : Nat} (hop : op.idx ≠ idx) : ∀ p ∈ outputs op n, p.1 ≠ idx := by
  intro p hp
  obtain ⟨i, -, rfl⟩ := List.mem_map.mp (Multiset.mem_coe.mp hp)
  exact hop

theorem foldrM_keeps {α β : Type} {I : β → Prop} {f : α → β → Build β} {l : List α}
    (step : ∀ x ∈ l, ∀ {b g b' g'}, I b → (f x b).Yields g b' g' → I b') {b b' : β} (hb : I b)
    (h : (l.foldrM f b).Yields g b' g') : I b' := by
  induction l generalizing b' g' with
  | nil =>
    obtain ⟨rfl, -⟩ := Build.yields_pure.mp h
    exact hb
  | cons x l ih =>
    rw [List.foldrM_cons] at h
    obtain ⟨b₁, g₁, hl, hx⟩ := Build.yields_bind.mp h
    exact step x List.mem_cons_self (ih (fun y hy => step y (List.mem_cons_of_mem x hy)) hl) hx

theorem spares_wrapLoops {idx : Nat} {wrap : IterVar → Stmt → Build Stmt} {leaves : List IterVar}
    (hwrap : ∀ leaf ∈ leaves, ∀ {b g b' g'}, Spares idx b → (wrap leaf b).Yields g b' g' → Spares idx b')
    {first : Option (Nat × Stmt)} (hfirst : ∀ p ∈ first, Spares idx p.2) (hbody : Spares idx body)
    (h : (wrapLoops wrap first body leaves).Yields g s g') : Spares idx s := by
  refine foldrM_keeps (fun x hx b g b' g' hb hstep => ?_) hbody h
  obtain ⟨leaf, pos⟩ := x
  obtain ⟨t, g₁, ht, hstep⟩ := Build.yields_bind.mp hstep
  have hleaf := hwrap leaf (List.mem_of_getElem? (List.mem_zipIdx_iff_getElem?.mp hx)) hb ht
  cases first with
  | none =>
    obtain ⟨rfl, -⟩ := Build.yields_pure.mp hstep
    exact hleaf
  | some q =>
    obtain ⟨rfl, -⟩ := Build.yields_pure.mp hstep
    split
    · intro p hp
      simp only [Stmt.provisions_ofList, List.map_cons, List.map_nil, List.sum_cons, List.sum_nil, add_zero] at hp
      exact (Multiset.mem_add.mp hp).elim (hfirst q rfl p) (hleaf p)
    · exact hleaf

/-- The nest of a stage of another operation provides no output, as long as its loops put none there. -/
theorem spares_computeNest {idx : Nat} (hop : st.op.idx ≠ idx) {wrap : IterVar → Stmt → Build Stmt}
    (hwrap : ∀ leaf, ∀ {b g b' g'}, Spares idx b → (wrap leaf b).Yields g b' g' → Spares idx b')
    (h : (c.computeNest st wrap).Yields g s g') : Spares idx s := by
  unfold computeNest at h
  dsimp only at h
  split at h
  · exact absurd h (by simp)
  simp only [Build.yields_bind, Build.yields_liftExcept] at h
  obtain ⟨values, g₁, -, σ, g₂, -, splits, g₃, -, domains, g₄, -, h⟩ := h
  split at h
  · obtain ⟨bodies, g₅, -, h⟩ := Build.yields_bind.mp h
    refine spares_wrapLoops (fun leaf _ _ _ _ _ hb hstep => hwrap leaf hb hstep) (by simp) (fun p hp => ?_) h
    rw [provisions_guarded, provisions_provides] at hp
    exact spares_outputs hop p hp
  obtain ⟨reduceGuards, g₅, -, h⟩ := Build.yields_bind.mp h
  split at h
  · obtain ⟨body, g₆, hbody, h⟩ := Build.yields_bind.mp h
    refine spares_wrapLoops (fun leaf _ _ _ _ _ hb hstep => hwrap leaf hb hstep) (by simp) (fun p hp => ?_) h
    rw [provisions_crossThreadBody hbody] at hp
    exact spares_outputs hop p hp
  · obtain ⟨init, g₆, hinit, h⟩ := Build.yields_bind.mp h
    refine spares_wrapLoops (fun leaf _ _ _ _ _ hb hstep => hwrap leaf hb hstep) (fun q hq p hp => ?_) (fun p hp => ?_) h
    · obtain rfl := Option.mem_some.mp hq
      rw [provisions_initNest hinit] at hp
      exact spares_outputs hop p hp
    · rw [provisions_guarded, provisions_underCondition, provisions_provides] at hp
      exact spares_outputs hop p hp

/-- The loop of a leaf axis around a body, before which the stages are computed that are attached to it. -/
def wrap (c : NestContext) (depth : Nat) (st : Stage) (leaf : IterVar) (body : Stmt) : Build Stmt := do
  let body ← (c.attachedTo leaf).foldrM (fun child s => c.pipeline depth child (some s)) body
  c.loop st leaf body

/-- The realization of a stage: its nest, followed by what consumes it. -/
def realization (st : Stage) (bounds : List Range) (produce : Stmt) (consumer : Option Stmt) : Stmt :=
  let produce := if st.doubleBuffered then .attr (.op st.op.ref) "double_buffer_scope" (Expr.int32 1) produce else produce
  let body := (List.range st.op.numOutputs).foldr (fun (i : Nat) s =>
    Stmt.realize st.op.ref i (st.op.outputType i) bounds (Expr.bool true) s) (Stmt.ofList (produce :: consumer.toList))
  if !st.scope.truthy then body else .attr (.op st.op.ref) "realize_scope" (.str st.scope.plainText) body

theorem provisions_realization {bounds : List Range} {produce : Stmt} {consumer : Option Stmt} :
    (realization st bounds produce consumer).provisions = produce.provisions + consumer.elim 0 Stmt.provisions := by
  unfold realization
  cases consumer <;> split_ifs <;> simp

theorem pipeline_inv {depth : Nat} {consumer : Option Stmt} (h : (c.pipeline (depth + 1) st consumer).Yields g s g') :
    ∃ produce bounds g₁, (c.computeNest st (c.wrap depth st)).Yields g produce g₁ ∧
      s = realization st bounds produce consumer := by
  unfold pipeline at h
  dsimp only at h
  obtain ⟨produce, g₁, hproduce, h⟩ := Build.yields_bind.mp h
  obtain ⟨bounds, g₂, -, h⟩ := Build.yields_bind.mp h
  obtain ⟨rfl, -⟩ := Build.yields_pure.mp h
  exact ⟨produce, bounds, g₁, hproduce, rfl⟩

/-- What is attached to a loop provides nothing if its realizations provide nothing. -/
theorem spares_wrap {idx depth : Nat} (hpipeline : ∀ p ∈ c.attached, ∀ {t g s g'}, Spares idx t →
      (c.pipeline depth p.2 (some t)).Yields g s g' → Spares idx s)
    (hbody : Spares idx body) (h : (c.wrap depth st leaf body).Yields g s g') : Spares idx s := by
  obtain ⟨inner, g₁, hinner, hloop⟩ := Build.yields_bind.mp h
  have hkept : Spares idx inner := by
    refine foldrM_keeps (fun child hchild b g b' g' hb hstep => ?_) hbody hinner
    obtain ⟨p, hp, rfl⟩ := List.mem_map.mp hchild
    exact hpipeline p (List.mem_filter.mp hp).1 hb hstep
  rwa [Spares, provisions_loop (Build.yields_liftExcept.mp hloop).1]

section Attached
variable {idx : Nat} (hattached : ∀ p ∈ c.attached, p.2.op.idx ≠ idx)
include hattached

/-- Stages of other operations provide nothing, nor do those that are attached to them. -/
theorem spares_pipeline {depth : Nat} (hop : st.op.idx ≠ idx) {consumer : Option Stmt}
    (hconsumer : ∀ t ∈ consumer, Spares idx t)
    (h : (c.pipeline depth st consumer).Yields g s g') : Spares idx s := by
  induction depth generalizing st consumer s g g' with
  | zero => exact absurd h Build.not_yields_throw
  | succ depth ih =>
    obtain ⟨produce, bounds, g₁, hproduce, rfl⟩ := pipeline_inv h
    have hspares : Spares idx produce := spares_computeNest hop (fun leaf _ _ _ _ hb hstep =>
      spares_wrap (fun p hp _ _ _ _ ht hrun => ih (hattached p hp) (fun u hu => Option.mem_some.mp hu ▸ ht) hrun) hb hstep)
      hproduce
    intro p hp
    rw [provisions_realization] at hp
    obtain hp | hp := Multiset.mem_add.mp hp
    · exact hspares p hp
    · cases consumer with
      | none => exact absurd hp (Multiset.notMem_zero p)
      | some t => exact hconsumer t rfl p hp

end Attached

end NestContext

end TensorNest

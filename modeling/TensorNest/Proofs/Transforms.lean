import TensorNest.Proofs.Copies
import TensorNest.Proofs.Stages

/-! # Transforms of a schedule

What the transforms of a schedule do to its stages, and how a schedule looks before any transform. The
loop that rebases the leaf axes of a stage is taken apart here once (`Schedule.rebaseStage_keeps`): each
step finds the leaf axis at its position. A property of stages that their steps keep is kept by any
transforms but inlining (`Schedule.Each.transforms`). -/

namespace TensorNest

/-- The axes of the operations of a graph have numbers that were given out. -/
def Graph.Numbered (g : Graph) : Prop :=
  ∀ {i o}, g.op? i = some o → ∀ iv ∈ o.rootAxes, iv.id < g.next

theorem Graph.numbered_iff {g : Graph} :
    g.Numbered ↔ ∀ i < g.ops.size, ∀ o ∈ g.op? i, ∀ iv ∈ o.rootAxes, iv.id < g.next :=
  ⟨fun h _ _ _ ho => h ho, fun h {_ _} ho => h _ (lt_size_of_op? ho) _ ho⟩

instance (g : Graph) : Decidable g.Numbered := decidable_of_iff _ Graph.numbered_iff.symm

/-- A property of stages, below the next number, that is kept by the steps of a stage and where a stage is attached,
    redirected or cached. -/
structure Stage.Kept (I : Nat → Stage → Prop) : Prop where
  attach : ∀ {n : Nat} {st : Stage} (attach : Attach), I n st → I n { st with attach }
  step : ∀ {n n' : Nat} {st st' : Stage}, I n st → Stage.Step n st n' st' → I n' st'
  rewrite : ∀ {n : Nat} {st : Stage} {op : Operation}, I n st → op.axes = st.op.axes → op.reduceAxes = st.op.reduceAxes →
    I n { st with op }
  cache : ∀ {g : Graph} {st : Stage} (id : Nat) (scope : Setting), I g.next st →
    I (Schedule.cachedGraph g scope st.op).next (Schedule.cacheStage id (Schedule.cacheOp g scope st.op) scope)
  copy : ∀ {g : Graph} {st : Stage} (scope : Setting), I g.next st → st.relations = [] → st.annotations = [] →
    let op := Schedule.copyOp g (Schedule.cacheOp g scope st.op) st.op
    I (Schedule.cachedGraph g scope st.op).next { st with op, all := op.axes, leaves := op.axes }

theorem Stage.Kept.raise {I : Nat → Stage → Prop} (K : Stage.Kept I) {n n' : Nat} {st : Stage} (h : I n st)
    (hn : n ≤ n') : I n' st :=
  K.step h (.note st.scope st.doubleBuffered hn .keep)

theorem Stage.Kept.steps {I : Nat → Stage → Prop} (K : Stage.Kept I) {n n' : Nat} {st st' : Stage} (h : I n st)
    (hsteps : Stage.Steps n st n' st') : I n' st' :=
  hsteps.keeps (fun h hstep => K.step h hstep) h

namespace Schedule
open Expr Operation

variable {s s' : Schedule} {g g' : Graph} {st : Stage}

/-- A transform of a schedule. -/
inductive Transform where
  | onStage (id : Nat) (t : Stage.Transform)
  | computeAt (id : Nat) (parent : Option Nat) (axis : Operand)
  | cacheWrite (target : OpRef) (scope : Setting)
  | normalize

/-- Makes a transform. -/
def Transform.run : Transform → Edit Schedule Unit
  | onStage id t => Schedule.onStage id t.run
  | computeAt id parent axis => Schedule.computeAt id parent axis
  | cacheWrite target scope => discard (Schedule.cacheWrite target scope)
  | normalize => Schedule.normalize

/-- What attaching does: the stage of a number is computed inside a leaf axis of another stage. -/
theorem computeAt_inv {id : Nat} {parent : Option Nat} {axis : Operand} {u : Unit}
    (h : (computeAt id parent axis).Yields s g u s' g') :
    ∃ st pid p iv, parent = some pid ∧ s.stage? id = some st ∧ s.stage? pid = some p ∧ p.id ≠ st.id ∧
      st.isOutput = false ∧ p.legal .computeAt axis = .ok iv ∧
      s' = s.setStage { st with attach := .inside p.id iv } ∧ g' = g := by
  unfold computeAt at h
  rw [Edit.yields_get_bind] at h
  split at h
  · rename_i st p hst hp
    obtain ⟨pid, hpid, hp⟩ := Option.bind_eq_some_iff.mp hp
    simp only at h
    split at h
    · exact absurd h Edit.not_yields_throw_bind
    split at h
    · exact absurd h Edit.not_yields_throw_bind
    rename_i hself hout
    rw [Edit.yields_liftExcept_bind] at h
    obtain ⟨iv, hiv, h⟩ := h
    obtain ⟨rfl, rfl⟩ := Edit.yields_set.mp h
    exact ⟨st, pid, p, iv, hpid, hst, hp, by simpa using hself, by simpa using hout, hiv, rfl, rfl⟩
  · exact absurd h Edit.not_yields_throw
  · exact absurd h Edit.not_yields_throw

/-! ### Stages of a schedule -/

theorem ids_setStage (s : Schedule) (st : Stage) :
    (s.setStage st).stages.map (·.id) = s.stages.map (·.id) := by
  rw [setStage, List.map_map]
  refine List.map_congr_left fun t _ => ?_
  simp only [Function.comp]
  split <;> simp_all

/-- The stage that was set is found by its number, if there was one. -/
theorem stage?_setStage_self {t : Stage} (h : s.stage? st.id = some t) : (s.setStage st).stage? st.id = some st := by
  rw [setStage, stage?_mapStages (by intro t; split <;> simp_all), h]
  simp [(mem_of_stage? h).2]

theorem mem_setStage_self {t : Stage} (ht : t ∈ s.stages) (hid : t.id = st.id) : st ∈ (s.setStage st).stages :=
  List.mem_map.mpr ⟨t, ht, by simp [hid]⟩

theorem nodup_insertBefore {new : Stage} {id : Nat} {l : List Stage} (hnew : ∀ t ∈ l, t.id ≠ new.id)
    (h : (l.map (·.id)).Nodup) : ((insertBefore new id l).map (·.id)).Nodup := by
  have hperm : (insertBefore new id l).Perm (new :: l) := by
    clear hnew h
    induction l with
    | nil => exact List.Perm.refl _
    | cons t l ih =>
      unfold insertBefore
      split
      · exact List.Perm.refl _
      · exact (ih.cons t).trans (List.Perm.swap new t l)
  rw [(hperm.map _).nodup_iff, List.map_cons, List.nodup_cons]
  refine ⟨fun hmem => ?_, h⟩
  obtain ⟨t, ht, heq⟩ := List.mem_map.mp hmem
  exact hnew t ht heq

theorem stage?_moveAttached (s : Schedule) (id j : Nat) (leaf rebased : IterVar) :
    (s.moveAttached id leaf rebased).stage? j =
      (s.stage? j).map fun st => { st with attach := st.attach.moved id leaf rebased } :=
  stage?_mapStages (by exact fun _ => rfl) j

/-! ### Operations of the stages -/

theorem reduceAxes_eq_nil {o : Operation} {e : Expr} {es : List Expr} (hbody : o.body = e :: es)
    (h : ∀ c sources axes cond i, e ≠ .reduce c sources axes cond i) : o.reduceAxes = [] := by
  unfold reduceAxes
  rw [hbody]
  split
  · rename_i heq
    exact absurd (List.cons.inj heq).1 (h _ _ _ _ _)
  · rfl

/-- A redirection puts no reduction for anything else if no stage is inlined. -/
theorem redirected_ne_reduce (hroot : ∀ st ∈ s.stages, st.attach ≠ .inlined) {e : Expr}
    (he : ∀ c sources axes cond i, e ≠ .reduce c sources axes cond i) :
    ∀ c sources axes cond i, s.redirected e ≠ .reduce c sources axes cond i := by
  intro c sources axes cond i heq
  obtain ⟨t, name, args, kind, func, k, rfl⟩ | ⟨hhead, -⟩ := redirected_cases s e
  · rw [redirected_call] at heq
    obtain hsame | ⟨t', name', args', f, k', st, -, hst, ⟨hin, -⟩ | hread⟩ :=
      redirectRead_cases s (.call t name (args.map s.redirected) kind func k)
    · rw [hsame] at heq
      cases heq
    · exact hroot st (mem_of_find? hst) hin
    · rw [hread] at heq
      cases heq
  · rw [heq] at hhead
    cases e with
    | reduce c' sources' axes' cond' i' => exact he _ _ _ _ _ rfl
    | _ => cases hhead

/-- A redirected operation has the axes of the operation if no stage is inlined. -/
theorem rootAxes_redirectedOp (hroot : ∀ st ∈ s.stages, st.attach ≠ .inlined) (g : Graph) (o : Operation) :
    (redirectedOp g s o).rootAxes = o.rootAxes := by
  have hbody : (redirectedOp g s o).body = o.body.map s.redirected := rfl
  suffices (redirectedOp g s o).reduceAxes = o.reduceAxes by
    rw [rootAxes, this, rootAxes]
    rfl
  cases hb : o.body with
  | nil =>
    rw [reduceAxes, reduceAxes, hbody, hb]
    rfl
  | cons e es =>
    by_cases he : ∃ c sources axes cond i, e = .reduce c sources axes cond i
    · obtain ⟨c, sources, axes, cond, i, rfl⟩ := he
      rw [reduceAxes, reduceAxes, hbody, hb, List.map_cons, redirected_reduce]
    · have he : ∀ c sources axes cond i, e ≠ .reduce c sources axes cond i :=
        fun c sources axes cond i heq => he ⟨c, sources, axes, cond, i, heq⟩
      rw [reduceAxes_eq_nil hb he,
        reduceAxes_eq_nil (hbody.trans (by rw [hb, List.map_cons])) (redirected_ne_reduce hroot he)]

/-- The operation of a cache is over copies of the axes. -/
theorem rootAxes_cacheOp (g : Graph) (scope : Setting) (o : Operation) :
    (cacheOp g scope o).rootAxes = copiesFrom g.next o.rootAxes := by
  have hbody : (cacheOp g scope o).body = [copiedBody g.next o] := rfl
  suffices (cacheOp g scope o).reduceAxes = copiesFrom (g.next + o.axes.length) o.reduceAxes by
    rw [rootAxes, this, rootAxes, ← copiesFrom_append]
    rfl
  unfold copiedBody at hbody
  split at hbody
  · rename_i hred
    rw [reduceAxes, hbody, reduceAxes_of_head hred]
  · rename_i hred
    rw [reduceAxes_of_not hred]
    refine reduceAxes_eq_nil hbody fun c sources axes cond i heq => ?_
    obtain ⟨v, hv⟩ | ⟨hhead, -⟩ := subst_cases (renames o.axes (copiesFrom g.next o.axes)) (o.body.headD default)
    · -- A variable is replaced by a variable.
      have hmem : Head.reduce c axes ∈ (subst (renames o.axes (copiesFrom g.next o.axes)) (.var v)).heads := by
        rw [← hv, heq]
        exact head_mem_heads (.reduce c sources axes cond i)
      obtain hmem | hmem := mem_heads_renames hmem
      · simp [heads, postorder, head] at hmem
      · cases hmem
    · rw [heq] at hhead
      revert hhead hred
      cases o.body.headD default with
      | reduce c' sources' axes' cond' i' => exact fun hred _ => hred _ _ _ _ _ rfl
      | _ => exact fun _ hhead => by cases hhead

theorem rootAxes_copyOp (g : Graph) (cache o : Operation) :
    (copyOp g cache o).rootAxes = (copyOp g cache o).axes :=
  List.append_nil _

/-! ### Rebasing -/

/-- Rebasing a leaf axis of a stage sets where the stage is computed, and is made of steps. -/
theorem steps_rebasedStage {pos n : Nat} {leaf rebased : IterVar} (hget : st.leaves[pos]? = some leaf)
    (hnew : rebased.id = n ∧ rebased.kind = leaf.kind ∧ rebased.dtype = leaf.dtype) :
      Stage.Steps n { st with attach := (rebasedStage st pos leaf rebased).attach }
      (n + 1) (rebasedStage st pos leaf rebased) := by
  refine .step (.relate (.rebase leaf rebased) (st.leaves.take pos ++ st.leaves.drop (pos + 1)) (Nat.le_succ n)
    (perm_around hget) ?_ ?_ ?_ (Relation.made_rebase hnew.2.1 hnew.2.2))
    (Stage.Step.note st.scope st.doubleBuffered (Nat.le_refl _) (.share (List.mem_append_right _ List.mem_cons_self))).steps
  · rw [set_around hget]
    exact List.perm_middle
  · simp [Relation.derived, hnew.1]
  · simp [Relation.derived]

/-- What rebasing the leaf axes of a stage keeps, if each step keeps it. A step rebases the leaf axis at a
    position of the stage as it is then. -/
theorem rebaseStage_keeps {I : Schedule → Graph → Prop} {id : Nat} {u : Unit}
    (step : ∀ {s : Schedule} {g : Graph} {st : Stage} {pos : Nat} {leaf rebased : IterVar}, I s g →
      s.stage? id = some st → st.leaves[pos]? = some leaf → needsRebase st leaf →
      rebased.id = g.next ∧ rebased.kind = leaf.kind ∧ rebased.dtype = leaf.dtype →
      I ((s.setStage (rebasedStage st pos leaf rebased)).moveAttached id leaf rebased) { g with next := g.next + 1 })
    (h : I s g) (hrun : (rebaseStage id).Yields s g u s' g') : I s' g' := by
  obtain ⟨rfl, rfl⟩ | ⟨st₀, hst₀, hrun⟩ := rebaseStage_inv hrun
  · exact h
  -- The leaf axes from the next position on are those from before.
  suffices ∀ (ls : List IterVar) (k : Nat) {s : Schedule} {g : Graph}, I s g →
      (∀ st, s.stage? id = some st → st.leaves.drop k = ls) →
      ((ls.zipIdx k).forM fun p => rebaseLeaf id p.2 p.1).Yields s g u s' g' → I s' g' from
    this st₀.leaves 0 h (fun st hst => by rw [List.drop_zero, Option.some.inj (hst.symm.trans hst₀)]) hrun
  clear h hst₀ hrun
  intro ls
  induction ls with
  | nil =>
    intro k s g h _ hrun
    rw [List.zipIdx_nil] at hrun
    obtain ⟨rfl, rfl⟩ := Edit.yields_forM_nil.mp hrun
    exact h
  | cons leaf ls ih =>
    intro k s g h hdrop hrun
    rw [List.zipIdx_cons] at hrun
    obtain ⟨s₁, g₁, hleaf, hrest⟩ := Edit.yields_forM_cons.mp hrun
    have htail : ∀ st, s.stage? id = some st → st.leaves.drop (k + 1) = ls := by
      intro st hst
      rw [← List.tail_drop, hdrop st hst, List.tail_cons]
    obtain ⟨rfl, rfl⟩ | ⟨st, zero, rebased, hst, hneeds, -, hrebased, rfl, rfl⟩ := rebaseLeaf_inv hleaf
    · exact ih (k + 1) h htail hrest
    · have hget : st.leaves[k]? = some leaf := by
        rw [← List.head?_drop, hdrop st hst, List.head?_cons]
      refine ih (k + 1) (step h hst hget hneeds (by rw [hrebased]; exact ⟨rfl, rfl, rfl⟩)) (fun t ht => ?_) hrest
      rw [stage?_moveAttached] at ht
      obtain ⟨t', ht', rfl⟩ := Option.map_eq_some_iff.mp ht
      obtain ⟨rfl, -⟩ | ⟨-, ht'⟩ := stage?_setStage ht'
      · show (st.leaves.set k rebased).drop (k + 1) = ls
        rw [List.drop_set_of_lt (Nat.lt_succ_self k)]
        exact htail st hst
      · exact htail t' ht'

/-! ### What is kept of each stage -/

/-- A property holds of each stage, and no stage is inlined. -/
def Each (I : Nat → Stage → Prop) (n : Nat) (s : Schedule) : Prop :=
  ∀ st ∈ s.stages, I n st ∧ st.attach ≠ .inlined

section Each
variable {I : Nat → Stage → Prop} {n n' : Nat}

theorem Each.raise (K : Stage.Kept I) (h : s.Each I n) (hn : n ≤ n') : s.Each I n' :=
  fun st hst => ⟨K.raise (h st hst).1 hn, (h st hst).2⟩

theorem Each.setStage (K : Stage.Kept I) (h : s.Each I n) (hn : n ≤ n') (hst : I n' st) (hatt : st.attach ≠ .inlined) :
    (s.setStage st).Each I n' := by
  intro t ht
  obtain rfl | ht := mem_setStage ht
  · exact ⟨hst, hatt⟩
  · exact h.raise K hn t ht

theorem Each.onStage (K : Stage.Kept I) (h : s.Each I g.next) {id : Nat} {t : Stage.Transform} (ht : t ≠ .computeInline)
    {u : Unit} (hrun : (onStage id t.run).Yields s g u s' g') : s'.Each I g'.next := by
  obtain ⟨st, st', hst, hstep, rfl⟩ := onStage_inv hrun
  obtain ⟨hI, hatt⟩ := h st (mem_of_stage? hst).1
  have hsteps := Stage.Transform.steps hstep
  refine h.setStage K hsteps.le (K.steps (K.attach _ hI) hsteps) ?_
  rw [hsteps.fixed.2.1]
  cases t with
  | computeInline => exact absurd rfl ht
  | computeRoot => nofun
  | _ => exact hatt

theorem Each.computeAt (K : Stage.Kept I) (h : s.Each I g.next) {id : Nat} {parent : Option Nat} {axis : Operand} {u : Unit}
    (hrun : (computeAt id parent axis).Yields s g u s' g') : s'.Each I g'.next := by
  obtain ⟨st, pid, p, iv, -, hst, -, -, -, -, rfl, rfl⟩ := computeAt_inv hrun
  exact h.setStage K (Nat.le_refl _) (K.attach _ (h st (mem_of_stage? hst).1).1) nofun

theorem Each.cacheWrite (K : Stage.Kept I) (h : s.Each I g.next) {target : OpRef} {scope : Setting} {t : Tensor}
    (hrun : (cacheWrite target scope).Yields s g t s' g') : s'.Each I g'.next := by
  obtain ⟨st, hst, -, -, hrel, hnotes, rfl, rfl⟩ := cacheWrite_inv hrun
  obtain ⟨hI, hatt⟩ := h st (mem_of_find? hst)
  have hnext : (cachedGraph g scope st.op).next = g.next + st.op.rootAxes.length + st.op.axes.length := rfl
  refine Each.setStage (s := (((s.insertStage _ st.id).setPlace _ _).setPlace _ _)) K (fun t ht => ?_)
    (Nat.le_refl _) (K.copy scope hI hrel hnotes) hatt
  obtain rfl | ht := mem_insertBefore ht
  · exact ⟨K.cache s.nextStage scope hI, nofun⟩
  · exact h.raise K (by omega) t ht

theorem Each.redirectStage (K : Stage.Kept I) (h : s.Each I g.next) {id : Nat} {u : Unit}
    (hrun : (redirectStage id).Yields s g u s' g') : s'.Each I g'.next := by
  obtain ⟨rfl, rfl⟩ | ⟨st, hst, -, rfl, rfl⟩ := redirectStage_inv hrun
  · exact h
  obtain ⟨hI, hatt⟩ := h st (mem_of_stage? hst).1
  have hroots : st.op.axes ++ (redirectedOp g s st.op).reduceAxes = st.op.axes ++ st.op.reduceAxes :=
    rootAxes_redirectedOp (fun t ht => (h t ht).2) g st.op
  exact Each.setStage (s := s.setPlace g.ops.size id) K h (Nat.le_refl _)
    (K.rewrite hI rfl (List.append_cancel_left hroots)) hatt

theorem Each.moveAttached (K : Stage.Kept I) (h : s.Each I n) (id : Nat) (leaf rebased : IterVar) :
    (s.moveAttached id leaf rebased).Each I n := by
  intro t ht
  obtain ⟨st, hst, rfl⟩ := List.mem_map.mp ht
  refine ⟨K.attach _ (h st hst).1, fun heq => (h st hst).2 ?_⟩
  revert heq
  unfold Attach.moved
  split
  · split <;> nofun
  · exact fun heq => heq

theorem Each.rebaseStage (K : Stage.Kept I) (h : s.Each I g.next) {id : Nat} {u : Unit}
    (hrun : (rebaseStage id).Yields s g u s' g') : s'.Each I g'.next := by
  refine rebaseStage_keeps (I := fun s g => s.Each I g.next) (fun {s g st pos leaf rebased} h hst hget _ hnew => ?_)
    h hrun
  obtain ⟨hI, hatt⟩ := h st (mem_of_stage? hst).1
  have hsteps := steps_rebasedStage hget hnew
  refine (h.setStage K hsteps.le (K.steps (K.attach _ hI) hsteps) ?_).moveAttached K id leaf rebased
  unfold rebasedStage
  split
  · nofun
  · exact hatt

theorem Each.normalize (K : Stage.Kept I) (h : s.Each I g.next) {u : Unit} (hrun : normalize.Yields s g u s' g') :
    s'.Each I g'.next := by
  obtain ⟨-, rfl, rfl⟩ | ⟨s₁, g₁, s₂, -, h₁, h₂, rfl⟩ := normalize_inv hrun
  · exact h
  have hredirected : s₁.Each I g₁.next := Edit.forM_keeps (I := fun s g => s.Each I g.next)
    (fun _ _ _ _ _ _ _ hs hstep => hs.redirectStage K hstep) h h₁
  exact Edit.forM_keeps (I := fun s g => s.Each I g.next)
    (fun _ _ _ _ _ _ _ hs hstep => hs.rebaseStage K hstep) hredirected h₂

theorem Each.transform (K : Stage.Kept I) (h : s.Each I g.next) {t : Transform} (ht : ∀ id, t ≠ .onStage id .computeInline)
    {u : Unit} (hrun : t.run.Yields s g u s' g') : s'.Each I g'.next := by
  cases t with
  | onStage id t => exact h.onStage K (fun heq => ht id (heq ▸ rfl)) hrun
  | computeAt id parent axis => exact h.computeAt K hrun
  | cacheWrite target scope =>
    obtain ⟨x, hrun⟩ := Edit.yields_discard.mp hrun
    exact h.cacheWrite K hrun
  | normalize => exact h.normalize K hrun

theorem Each.transforms (K : Stage.Kept I) (h : s.Each I g.next) {ts : List Transform}
    (hts : ∀ id, .onStage id .computeInline ∉ ts) {u : Unit} (hrun : (ts.forM Transform.run).Yields s g u s' g') :
    s'.Each I g'.next :=
  Edit.forM_keeps (I := fun s g => s.Each I g.next)
    (fun _ hmem _ _ _ _ _ hs hstep => hs.transform K (fun id heq => hts id (heq ▸ hmem)) hstep) h hrun

end Each

/-! ### Creation -/

/-- A schedule that no transform has changed. -/
structure Untouched (s : Schedule) : Prop where
  distinct : (s.stages.map (·.id)).Nodup
  stageIds : ∀ st ∈ s.stages, st.id < s.nextStage
  axes : ∀ st ∈ s.stages, st.all = st.op.rootAxes ∧ st.leaves = st.op.rootAxes ∧ st.relations = []
  notes : ∀ st ∈ s.stages, st.annotations = []
  root : ∀ st ∈ s.stages, st.attach = .root

theorem Untouched.addStage (h : s.Untouched) (op : Operation) : (s.addStage op).Untouched := by
  have hmem : ∀ st ∈ (s.addStage op).stages, st ∈ s.stages ∨ st = Stage.ofOperation s.nextStage op := by
    intro st hst
    simpa [Schedule.addStage] using hst
  refine ⟨?_, fun st hst => ?_, fun st hst => ?_, fun st hst => ?_, fun st hst => ?_⟩
  · rw [Schedule.addStage, stages_setPlace, List.map_append, List.nodup_append]
    refine ⟨h.distinct, List.pairwise_singleton _ _, fun x hx y hy => ?_⟩
    obtain ⟨st, hst, rfl⟩ := List.mem_map.mp hx
    obtain rfl := List.mem_singleton.mp hy
    exact Nat.ne_of_lt (h.stageIds st hst)
  · obtain hst | rfl := hmem st hst
    · exact Nat.lt_succ_of_lt (h.stageIds st hst)
    · exact Nat.lt_succ_self _
  · obtain hst | rfl := hmem st hst
    · exact h.axes st hst
    · exact ⟨rfl, rfl, rfl⟩
  · obtain hst | rfl := hmem st hst
    · exact h.notes st hst
    · rfl
  · obtain hst | rfl := hmem st hst
    · exact h.root st hst
    · rfl

theorem untouched_empty (outputs : List Operation) : ({ outputs } : Schedule).Untouched :=
  ⟨List.nodup_nil, List.forall_mem_nil _, List.forall_mem_nil _, List.forall_mem_nil _, List.forall_mem_nil _⟩

/-- A new schedule is untouched, and its stages compute operations of the graph or outputs. -/
theorem create_untouched {Q : Operation → Prop} {outputs : List Operation} (hQ : ∀ {i o}, g.op? i = some o → Q o)
    (hout : ∀ o ∈ outputs, Q o) (h : (create outputs).Yields g s g') :
    g' = g ∧ s.Untouched ∧ ∀ st ∈ s.stages, Q st.op := by
  obtain ⟨hg, s₁, ⟨hs, hops⟩, rfl⟩ := create_keeps (I := fun s => s.Untouched ∧ ∀ st ∈ s.stages, Q st.op) hQ
    (fun {s op} hop hs => ⟨hs.1.addStage op, fun st hst => by
      obtain hst | rfl : st ∈ s.stages ∨ st = Stage.ofOperation s.nextStage op := by
        simpa [Schedule.addStage] using hst
      · exact hs.2 st hst
      · exact hop⟩)
    ⟨untouched_empty outputs, List.forall_mem_nil _⟩ hout h
  refine ⟨hg, ⟨by rw [List.map_map]; exact hs.distinct, ?_, ?_, ?_, ?_⟩, ?_⟩
  · exact List.forall_mem_map.mpr hs.stageIds
  · exact List.forall_mem_map.mpr hs.axes
  · exact List.forall_mem_map.mpr hs.notes
  · exact List.forall_mem_map.mpr hs.root
  · exact List.forall_mem_map.mpr hops

end Schedule

end TensorNest

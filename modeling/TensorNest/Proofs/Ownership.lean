import TensorNest.Proofs.Extents
import TensorNest.Proofs.Reductions

/-! # Axes of one stage alone

The axes that transforms make belong to the stage that they are made for. As long as the operations of a graph share
no axis, neither do the stages (`Schedule.Settled`). So the ranges that are found for the axes of one stage are not
touched by those that are found for another one (`Schedule.exists_measured`).

The transforms are those that note nothing about axes: splitting, fusing, reordering and tiling, where a stage is
computed and stored, caches and normalization. No axis is bound to a thread axis then, whose range would be found
under the number of an axis that a caller has chosen. -/

namespace TensorNest

/-! ### Graphs whose operations share no axis -/

/-- The axes of an operation of a graph are distinct, and other than those of the other operations. -/
structure Graph.Apart (g : Graph) : Prop where
  distinct : ∀ {i o}, g.op? i = some o → (o.rootAxes.map (·.id)).Nodup
  apart : ∀ {i j o p}, g.op? i = some o → g.op? j = some p → i ≠ j → ∀ iv ∈ o.rootAxes, ∀ jv ∈ p.rootAxes, iv.id ≠ jv.id

theorem Graph.apart_iff {g : Graph} : g.Apart ↔ (∀ i < g.ops.size, ∀ o ∈ g.op? i, (o.rootAxes.map (·.id)).Nodup) ∧
    ∀ i < g.ops.size, ∀ o ∈ g.op? i, ∀ j < g.ops.size, ∀ p ∈ g.op? j, i ≠ j →
      ∀ iv ∈ o.rootAxes, ∀ jv ∈ p.rootAxes, iv.id ≠ jv.id := by
  constructor
  · exact fun h => ⟨fun i _ o ho => h.distinct ho, fun i _ o ho j _ p hp => h.apart ho hp⟩
  · exact fun h => ⟨fun ho => h.1 _ (lt_size_of_op? ho) _ ho,
      fun ho hp => h.2 _ (lt_size_of_op? ho) _ ho _ (lt_size_of_op? hp) _ hp⟩

set_option synthInstance.maxSize 1024 in
instance (g : Graph) : Decidable g.Apart := decidable_of_iff _ Graph.apart_iff.symm

/-! ### Transforms that note nothing about axes -/

namespace Stage

variable {st st' : Stage} {g g' : Graph} {n n' : Nat}

/-- A transform of a stage that notes nothing about axes and does not inline the stage. -/
def Transform.Plain : Transform → Prop
  | split .. | fuse _ | reorder _ | tile .. | computeRoot | setScope _ | doubleBuffer => True
  | parallel _ | vectorize _ | unroll _ | bind .. | bindGpu .. | computeInline | prefetch .. => False

instance : DecidablePred Transform.Plain := fun t => by
  cases t <;> first | exact .isTrue trivial | exact .isFalse not_false

theorem annotations_split {parent factor nparts : Operand} {p : IterVar × IterVar}
    (h : (split parent factor nparts).Yields st g p st' g') : st'.annotations = st.annotations := by
  obtain ⟨_, _, _, _, -, -, rfl, -⟩ := split_inv h
  rfl

theorem annotations_fusePairs {ivs : List IterVar} {outer fused : IterVar}
    (h : (ivs.foldlM fusePair outer).Yields st g fused st' g') : st'.annotations = st.annotations := by
  induction ivs generalizing st g outer with
  | nil =>
    rw [List.foldlM_nil, Edit.yields_pure] at h
    rw [h.2.1]
  | cons iv ivs ih =>
    rw [List.foldlM_cons, Edit.yields_bind] at h
    obtain ⟨mid, st₁, g₁, hfuse, h⟩ := h
    obtain ⟨rfl, -⟩ := fusePair_inv hfuse
    have hrest := ih h
    exact hrest

theorem annotations_reorder {axes : List Operand} {u : Unit} (h : (reorder axes).Yields st g u st' g') :
    st'.annotations = st.annotations := by
  obtain ⟨_, -, rfl, -⟩ := reorder_inv h
  rfl

theorem Transform.Plain.annotations {t : Transform} (ht : t.Plain) {u : Unit} (h : t.run.Yields st g u st' g') :
    st'.annotations = st.annotations := by
  cases t with
  | split parent factor nparts =>
    obtain ⟨p, h⟩ := Edit.yields_discard.mp h
    exact annotations_split h
  | fuse axes =>
    obtain ⟨iv, h⟩ := Edit.yields_discard.mp h
    obtain ⟨rfl, -⟩ | ⟨_, _, _, _, _, -, -, -, -, hpairs, rfl⟩ := fuse_inv h
    · rfl
    · have hsame := annotations_fusePairs hpairs
      exact hsame
  | reorder axes => exact annotations_reorder h
  | tile x y xFactor yFactor =>
    obtain ⟨ivs, h⟩ := Edit.yields_discard.mp h
    obtain ⟨_, _, _, _, _, _, _, _, -, -, hp, hq, horder⟩ := tile_inv h
    rw [annotations_reorder horder, annotations_split hq, annotations_split hp]
  | computeRoot | setScope | doubleBuffer =>
    obtain ⟨rfl, -⟩ := Edit.yields_modify.mp h
    rfl
  | _ => exact ht.elim

/-- Steps of a stage add axes of the numbers that are taken. -/
theorem Steps.grows (h : Steps n st n' st') :
    st.all ⊆ st'.all ∧ ∀ iv ∈ st'.all, iv ∈ st.all ∨ n ≤ iv.id ∧ iv.id < n' := by
  have hgrows : n ≤ n' ∧ st.all ⊆ st'.all ∧ ∀ iv ∈ st'.all, iv ∈ st.all ∨ n ≤ iv.id ∧ iv.id < n' := by
    refine h.keeps (I := fun k t => n ≤ k ∧ st.all ⊆ t.all ∧ ∀ iv ∈ t.all, iv ∈ st.all ∨ n ≤ iv.id ∧ iv.id < k)
      (fun {k t k' t'} ⟨hle, hsub, hnew⟩ hstep => ?_) ⟨Nat.le_refl n, fun _ h => h, fun _ h => Or.inl h⟩
    have hraise : k ≤ k' → ∀ iv ∈ t.all, iv ∈ st.all ∨ n ≤ iv.id ∧ iv.id < k' := fun hk iv hiv =>
      (hnew iv hiv).imp_right fun hlt => ⟨hlt.1, Nat.lt_of_lt_of_le hlt.2 hk⟩
    cases hstep with
    | note _ _ hk => exact ⟨Nat.le_trans hle hk, hsub, hraise hk⟩
    | permute => exact ⟨hle, hsub, hnew⟩
    | relate r rest hk _ _ hids =>
      refine ⟨Nat.le_trans hle hk, fun iv hiv => List.mem_append_left _ (hsub hiv), ?_⟩
      refine List.forall_mem_append.mpr ⟨hraise hk, fun iv hiv =>
        Or.inr ⟨Nat.le_trans hle (hids iv hiv).1, (hids iv hiv).2⟩⟩
  exact hgrows.2

end Stage

namespace Schedule

variable {s s' s₀ s₁ : Schedule} {g g' g₀ g₁ g₂ : Graph} {st : Stage} {n n' : Nat}

/-- A transform that notes nothing about axes and inlines no stage. -/
def Transform.Plain : Transform → Prop
  | onStage _ t => t.Plain
  | computeAt .. | cacheWrite .. | normalize => True

instance : DecidablePred Transform.Plain
  | .onStage _ t => inferInstanceAs (Decidable t.Plain)
  | .computeAt .. | .cacheWrite .. | .normalize => .isTrue trivial

/-- Nothing is noted about the axes of stages, and no two stages share an axis. -/
structure Settled (n : Nat) (s : Schedule) : Prop where
  distinct : (s.stages.map (·.id)).Nodup
  stageIds : ∀ st ∈ s.stages, st.id < s.nextStage
  plain : ∀ st ∈ s.stages, st.annotations = []
  visible : ∀ st ∈ s.stages, st.attach ≠ .inlined
  roots : ∀ st ∈ s.stages, st.op.rootAxes ⊆ st.all
  rootsDistinct : ∀ st ∈ s.stages, (st.op.rootAxes.map (·.id)).Nodup
  numbered : ∀ st ∈ s.stages, ∀ iv ∈ st.all, iv.id < n
  apart : ∀ st ∈ s.stages, ∀ t ∈ s.stages, t.id ≠ st.id → ∀ iv ∈ st.all, ∀ jv ∈ t.all, iv.id ≠ jv.id

namespace Settled

/-- The axes of a stage are other than those of another stage, and than those of new numbers. -/
theorem ne_of_mem (h : s.Settled n) {t u : Stage} (ht : t ∈ s.stages) (hu : u ∈ s.stages) (hne : u.id ≠ t.id)
    {iv jv : IterVar} (hiv : iv ∈ t.all ∨ n ≤ iv.id ∧ iv.id < n') (hjv : jv ∈ u.all) : iv.id ≠ jv.id := by
  obtain hold | ⟨hnew, -⟩ := hiv
  · exact h.apart t ht u hu hne iv hold jv hjv
  · exact Nat.ne_of_gt (Nat.lt_of_lt_of_le (h.numbered u hu jv hjv) hnew)

/-- A stage can be replaced by one over its axes and new ones. -/
theorem setStage (h : s.Settled n) (hn : n ≤ n') {t : Stage} (ht : t ∈ s.stages) (hid : st.id = t.id)
    (hplain : st.annotations = []) (hvisible : st.attach ≠ .inlined) (hroots : st.op.rootAxes ⊆ st.all)
    (hdistinct : (st.op.rootAxes.map (·.id)).Nodup) (hall : ∀ iv ∈ st.all, iv ∈ t.all ∨ n ≤ iv.id ∧ iv.id < n') :
    (s.setStage st).Settled n' := by
  have hother : ∀ u ∈ (s.setStage st).stages, u.id ≠ st.id → u ∈ s.stages := fun u hu hne =>
    (mem_setStage hu).resolve_left fun heq => hne (congrArg Stage.id heq)
  have heach {P : Stage → Prop} (hst : P st) (hs : ∀ u ∈ s.stages, P u) : ∀ u ∈ (s.setStage st).stages, P u := fun u hu =>
    (mem_setStage hu).elim (fun heq => heq ▸ hst) (hs u)
  refine ⟨by rw [ids_setStage]; exact h.distinct, heach (hid ▸ h.stageIds t ht) h.stageIds, heach hplain h.plain,
    heach hvisible h.visible, heach hroots h.roots, heach hdistinct h.rootsDistinct,
      heach (fun iv hiv => ?_) fun u hu iv hiv =>
      Nat.lt_of_lt_of_le (h.numbered u hu iv hiv) hn, heach (fun u hu hne iv hiv jv hjv => ?_) fun u hu => ?_⟩
  · obtain hold | hnew := hall iv hiv
    · exact Nat.lt_of_lt_of_le (h.numbered t ht iv hold) hn
    · exact hnew.2
  · exact h.ne_of_mem ht (hother u hu hne) (hid ▸ hne) (hall iv hiv) hjv
  · refine heach (fun hne iv hiv jv hjv heq => ?_) fun v hv => h.apart u hu v hv
    exact h.ne_of_mem ht hu (hid ▸ Ne.symm hne) (hall jv hjv) hiv heq.symm

theorem onStage (h : s.Settled g.next) {id : Nat} {t : Stage.Transform} (ht : t.Plain) {u : Unit}
    (hrun : (onStage id t.run).Yields s g u s' g') : s'.Settled g'.next := by
  obtain ⟨st, st', hst, hstep, rfl⟩ := onStage_inv hrun
  obtain ⟨hmem, rfl⟩ := mem_of_stage? hst
  have hsteps := Stage.Transform.steps hstep
  obtain ⟨hid, hatt, -, hop⟩ := hsteps.fixed
  obtain ⟨hsub, hnew⟩ := hsteps.grows
  refine h.setStage hsteps.le hmem hid ((ht.annotations hstep).trans (h.plain st hmem)) ?_ ?_ ?_ hnew
  · rw [hatt]
    cases t with
    | computeInline => exact ht.elim
    | computeRoot => nofun
    | _ => exact h.visible st hmem
  · rw [hop]
    exact fun iv hiv => hsub (h.roots st hmem hiv)
  · rw [hop]
    exact h.rootsDistinct st hmem

theorem computeAt (h : s.Settled g.next) {id : Nat} {parent : Option Nat} {axis : Operand} {u : Unit}
    (hrun : (computeAt id parent axis).Yields s g u s' g') : s'.Settled g'.next := by
  obtain ⟨st, pid, p, iv, -, hst, -, -, -, -, rfl, rfl⟩ := computeAt_inv hrun
  obtain ⟨hmem, -⟩ := mem_of_stage? hst
  exact h.setStage (Nat.le_refl _) hmem rfl (h.plain st hmem) nofun (h.roots st hmem) (h.rootsDistinct st hmem)
    fun iv hiv => Or.inl hiv

/-- A stage over new axes can be inserted under a new number. -/
theorem insertStage (h : s.Settled n) (hn : n ≤ n') {new : Stage} (hid : new.id = s.nextStage)
    (hplain : new.annotations = [])
    (hvisible : new.attach ≠ .inlined) (hroots : new.op.rootAxes ⊆ new.all) (hdistinct : (new.op.rootAxes.map (·.id)).Nodup)
    (hnew : ∀ iv ∈ new.all, n ≤ iv.id ∧ iv.id < n') (before : Nat) : (s.insertStage new before).Settled n' := by
  have hother : ∀ u ∈ (s.insertStage new before).stages, u.id ≠ new.id → u ∈ s.stages := fun u hu hne =>
    (mem_insertBefore hu).resolve_left fun heq => hne (congrArg Stage.id heq)
  have heach {P : Stage → Prop} (hst : P new) (hs : ∀ u ∈ s.stages, P u) : ∀ u ∈ (s.insertStage new before).stages, P u :=
    fun u hu => (mem_insertBefore hu).elim (fun heq => heq ▸ hst) (hs u)
  have hfresh : ∀ u ∈ s.stages, ∀ iv ∈ u.all, ∀ jv ∈ new.all, iv.id < jv.id := fun u hu iv hiv jv hjv =>
    Nat.lt_of_lt_of_le (h.numbered u hu iv hiv) (hnew jv hjv).1
  refine ⟨nodup_insertBefore (fun t ht => ?_) h.distinct, heach (hid ▸ Nat.lt_succ_self _) fun u hu =>
      Nat.lt_succ_of_lt (h.stageIds u hu), heach hplain h.plain, heach hvisible h.visible, heach hroots h.roots,
    heach hdistinct h.rootsDistinct, heach (fun iv hiv => (hnew iv hiv).2) fun u hu iv hiv =>
      Nat.lt_of_lt_of_le (h.numbered u hu iv hiv) hn, heach (fun u hu hne iv hiv jv hjv => ?_) fun u hu => ?_⟩
  · rw [hid]
    exact Nat.ne_of_lt (h.stageIds t ht)
  · exact Nat.ne_of_gt (hfresh u (hother u hu hne) jv hjv iv hiv)
  · exact heach (fun _ iv hiv jv hjv => Nat.ne_of_lt (hfresh u hu iv hiv jv hjv)) fun v hv => h.apart u hu v hv

theorem setPlace (h : s.Settled n) (i id : Nat) : (s.setPlace i id).Settled n :=
  ⟨h.distinct, h.stageIds, h.plain, h.visible, h.roots, h.rootsDistinct, h.numbered, h.apart⟩

theorem cacheWrite (h : s.Settled g.next) {target : OpRef} {scope : Setting} {t : Tensor}
    (hrun : (cacheWrite target scope).Yields s g t s' g') : s'.Settled g'.next := by
  obtain ⟨st, hst, -, -, -, hnotes, rfl, rfl⟩ := cacheWrite_inv hrun
  have hmem := mem_of_find? hst
  have hcacheAxes := rootAxes_cacheOp g scope st.op
  have hcopyAxes := rootAxes_copyOp g (cacheOp g scope st.op) st.op
  have hinsert : (s.insertStage (cacheStage s.nextStage (cacheOp g scope st.op) scope) st.id).Settled
      (g.next + st.op.rootAxes.length) := by
    refine h.insertStage (Nat.le_add_right _ _) rfl rfl (fun heq => by cases heq)
      (fun iv hiv => hiv) ?_ (fun iv hiv => ?_) st.id
    · rw [show (cacheStage s.nextStage (cacheOp g scope st.op) scope).op = cacheOp g scope st.op from rfl, hcacheAxes,
        ids_copiesFrom]
      exact List.nodup_range'
    · rw [show (cacheStage s.nextStage (cacheOp g scope st.op) scope).all = (cacheOp g scope st.op).rootAxes from rfl,
        hcacheAxes] at hiv
      exact mem_ids_copiesFrom.mp (List.mem_map_of_mem hiv)
  refine ((hinsert.setPlace _ _).setPlace _ _).setStage (Nat.le_add_right _ _) (mem_insertBefore_of_mem hmem) rfl hnotes
    (h.visible st hmem) ?_ ?_ fun iv hiv => Or.inr (mem_ids_copiesFrom.mp (List.mem_map_of_mem hiv))
  · rw [hcopyAxes]
    exact fun iv hiv => hiv
  · have hcopies : (copyOp g (cacheOp g scope st.op) st.op).axes =
      copiesFrom (g.next + st.op.rootAxes.length) st.op.axes := rfl
    rw [hcopyAxes, hcopies, ids_copiesFrom]
    exact List.nodup_range'

theorem redirectStage (h : s.Settled g.next) {id : Nat} {u : Unit} (hrun : (redirectStage id).Yields s g u s' g') :
    s'.Settled g'.next := by
  obtain ⟨rfl, rfl⟩ | ⟨st, hst, -, rfl, rfl⟩ := redirectStage_inv hrun
  · exact h
  obtain ⟨hmem, -⟩ := mem_of_stage? hst
  have hroots := rootAxes_redirectedOp h.visible g st.op
  refine (h.setPlace _ _).setStage (Nat.le_refl _) hmem rfl (h.plain st hmem) (h.visible st hmem) ?_ ?_
    fun iv hiv => Or.inl hiv
  · rw [hroots]
    exact h.roots st hmem
  · rw [hroots]
    exact h.rootsDistinct st hmem

/-- Stages can be attached anywhere. -/
theorem moveAttached (h : s.Settled n) (id : Nat) (leaf rebased : IterVar) :
    (s.moveAttached id leaf rebased).Settled n := by
  refine ⟨?_, List.forall_mem_map.mpr h.stageIds, List.forall_mem_map.mpr h.plain, ?_, List.forall_mem_map.mpr h.roots,
    List.forall_mem_map.mpr h.rootsDistinct, List.forall_mem_map.mpr h.numbered, ?_⟩
  · rw [Schedule.moveAttached, List.map_map]
    exact h.distinct
  · refine List.forall_mem_map.mpr fun st hst heq => h.visible st hst ?_
    revert heq
    simp only
    unfold Attach.moved
    split
    · split <;> nofun
    · exact fun heq => heq
  · exact List.forall_mem_map.mpr fun st hst => List.forall_mem_map.mpr (h.apart st hst)

theorem rebaseStage (h : s.Settled g.next) {id : Nat} {u : Unit} (hrun : (rebaseStage id).Yields s g u s' g') :
    s'.Settled g'.next := by
  refine rebaseStage_keeps (I := fun s g => s.Settled g.next) (fun {s g st pos leaf rebased} h hst hget _ hnew => ?_) h hrun
  obtain ⟨hmem, -⟩ := mem_of_stage? hst
  have hsteps := steps_rebasedStage hget hnew
  obtain ⟨hsub, hgrown⟩ := hsteps.grows
  have hset : (s.setStage (rebasedStage st pos leaf rebased)).Settled (g.next + 1) := by
    refine h.setStage hsteps.le hmem rfl ?_ ?_ (fun iv hiv => hsub (h.roots st hmem hiv)) (h.rootsDistinct st hmem) hgrown
    · rw [rebasedStage, h.plain st hmem]
      rfl
    · unfold rebasedStage
      split
      · nofun
      · exact h.visible st hmem
  exact hset.moveAttached id leaf rebased

theorem normalize (h : s.Settled g.next) {u : Unit} (hrun : normalize.Yields s g u s' g') : s'.Settled g'.next := by
  obtain ⟨-, rfl, rfl⟩ | ⟨s₁, g₁, s₂, -, h₁, h₂, rfl⟩ := normalize_inv hrun
  · exact h
  have hredirected : s₁.Settled g₁.next := Edit.forM_keeps (I := fun s g => s.Settled g.next)
    (fun _ _ _ _ _ _ _ hs hstep => hs.redirectStage hstep) h h₁
  have hrebased : s₂.Settled g'.next := Edit.forM_keeps (I := fun s g => s.Settled g.next)
    (fun _ _ _ _ _ _ _ hs hstep => hs.rebaseStage hstep) hredirected h₂
  exact ⟨hrebased.distinct, hrebased.stageIds, hrebased.plain, hrebased.visible, hrebased.roots, hrebased.rootsDistinct,
    hrebased.numbered, hrebased.apart⟩

theorem transform (h : s.Settled g.next) {t : Transform} (ht : t.Plain) {u : Unit} (hrun : t.run.Yields s g u s' g') :
    s'.Settled g'.next := by
  cases t with
  | onStage id t => exact h.onStage ht hrun
  | computeAt id parent axis => exact h.computeAt hrun
  | cacheWrite target scope =>
    obtain ⟨x, hrun⟩ := Edit.yields_discard.mp hrun
    exact h.cacheWrite hrun
  | normalize => exact h.normalize hrun

theorem run (h : s.Settled g.next) {ts : List Transform} (hts : ∀ t ∈ ts, t.Plain) {u : Unit}
    (hrun : (ts.forM Transform.run).Yields s g u s' g') : s'.Settled g'.next :=
  Edit.forM_keeps (I := fun s g => s.Settled g.next)
    (fun t hmem _ _ _ _ _ hs hstep => hs.transform (hts t hmem) hstep) h hrun

end Settled

/-- A new schedule is settled if it has one stage for each of some operations that share no axis. -/
theorem Untouched.settled (h : s.Untouched) (hnum : g.Numbered) (hapart : g.Apart)
    (hops : ∀ st ∈ s.stages, g.op? st.op.idx = some st.op) (hsingle : (s.stages.map (·.op.idx)).Nodup) :
    s.Settled g.next where
  distinct := h.distinct
  stageIds := h.stageIds
  plain := h.notes
  visible st hst := by
    rw [h.root st hst]
    nofun
  roots st hst iv hiv := (h.axes st hst).1 ▸ hiv
  rootsDistinct st hst := hapart.distinct (hops st hst)
  numbered st hst iv hiv := hnum (hops st hst) iv ((h.axes st hst).1 ▸ hiv)
  apart st hst t ht hne iv hiv jv hjv := by
    have hidx : st.op.idx ≠ t.op.idx := fun heq =>
      hne (congrArg Stage.id (List.inj_on_of_nodup_map hsingle hst ht heq)).symm
    exact hapart.apart (hops st hst) (hops t ht) hidx iv ((h.axes st hst).1 ▸ hiv) jv ((h.axes t ht).1 ▸ hjv)

end Schedule

/-! ### Ranges of one stage -/

namespace Ranges

variable {m : Ranges} {iv jv : IterVar} {axes : List IterVar}

theorem get_insertDomain_of_ne (h : iv.id ≠ jv.id) : (m.insertDomain jv).get iv = m.get iv := by
  unfold insertDomain
  split
  · exact get_insert_of_ne h
  · rfl

theorem get_insertDomains_of_ne (h : ∀ jv ∈ axes, iv.id ≠ jv.id) : (axes.foldl insertDomain m).get iv = m.get iv := by
  induction axes generalizing m with
  | nil => rfl
  | cons jv axes ih =>
    obtain ⟨hjv, haxes⟩ := List.forall_mem_cons.mp h
    rw [List.foldl_cons, ih haxes, get_insertDomain_of_ne hjv]

/-- Distinct axes get their domains. -/
theorem get_insertDomains (hdistinct : (axes.map (·.id)).Nodup) (hiv : iv ∈ axes) {d : Range} (hd : iv.dom = some d) :
    (axes.foldl insertDomain m).get iv = .ok d := by
  induction axes generalizing m with
  | nil => cases hiv
  | cons jv axes ih =>
    rw [List.map_cons, List.nodup_cons] at hdistinct
    rw [List.foldl_cons]
    obtain rfl | hiv := List.mem_cons.mp hiv
    · have hfresh : ∀ jv ∈ axes, iv.id ≠ jv.id := fun jv hjv heq => hdistinct.1 (heq ▸ List.mem_map_of_mem hjv)
      rw [get_insertDomains_of_ne hfresh, insertDomain, hd, get_insert, if_pos rfl]
    · exact ih hdistinct.2 hiv

end Ranges

namespace IterVar

/-- Where the domain of an axis starts, and how long it is. -/
def start (ρ : Valuation Int) (iv : IterVar) : Int :=
  (iv.dom.map (·.min.integer ρ)).getD 0

/-- The number of values in the domain of an axis. -/
def length (ρ : Valuation Int) (iv : IterVar) : Int :=
  (iv.dom.map (·.extent.integer ρ)).getD 0

/-- Something about distinct axes can be told by their numbers. -/
theorem exists_byId {axes : List IterVar} (hdistinct : (axes.map (·.id)).Nodup) (f : IterVar → Int) :
    ∃ F : Nat → Int, ∀ iv ∈ axes, F iv.id = f iv := by
  induction axes with
  | nil => exact ⟨fun _ => 0, List.forall_mem_nil _⟩
  | cons jv axes ih =>
    rw [List.map_cons, List.nodup_cons] at hdistinct
    obtain ⟨F, hF⟩ := ih hdistinct.2
    refine ⟨Function.update F jv.id (f jv), List.forall_mem_cons.mpr ⟨Function.update_self .., fun iv hiv => ?_⟩⟩
    have hne : iv.id ≠ jv.id := fun heq => hdistinct.1 (heq ▸ List.mem_map_of_mem hiv)
    rw [Function.update_of_ne hne, hF iv hiv]

end IterVar

/-- The domains of the axes of an operation, and the factors by which they are split, are integer scalars in terms of
    symbols, none of which is an axis. No domain is of a negative extent, and factors are positive. -/
structure Stage.Symbolic (Γ : Context) (ρ : Valuation Int) (st : Stage) : Prop where
  apart : ∀ iv ∈ st.all, Γ iv.id = none
  typed : ∀ iv ∈ st.op.rootAxes, iv.dtype.IsIndex
  domains : ∀ iv ∈ st.op.rootAxes, ∃ d lo n, iv.dom = some d ∧ d.min.Amounts Γ ρ lo ∧ d.extent.Amounts Γ ρ n ∧ 0 ≤ n
  positive : ∀ r ∈ st.relations, r.Positive Γ ρ

namespace Schedule

variable {s : Schedule} {st t : Stage} {n : Nat} {m m' : Ranges} {readers : List (Nat × Stage)} {iv : IterVar}

/-- The ranges of a stage of which nothing is noted: those of the axes of its operation, and the derived ones. -/
theorem addStageRanges_inv (hplain : t.annotations = []) (hrun : addStageRanges readers m t = .ok m') :
    t.op.isCompute = false ∧ m' = m ∨ ∃ m₁, rootRanges t readers m = .ok m₁ ∧
      (t.op.reduceAxes.foldl Ranges.insertDomain m₁).deriveAll t = .ok m' := by
  have hthread : ∀ leaf, t.thread? leaf = none := fun leaf => by
    rw [Stage.thread?, Stage.annotation?, hplain]
    rfl
  unfold addStageRanges at hrun
  split at hrun
  · rename_i hop
    exact Or.inl ⟨by simpa using hop, (Except.ok.inj hrun).symm⟩
  obtain ⟨m₁, hroots, hrun⟩ := bind_eq_ok.mp hrun
  obtain ⟨m₂, hderive, hrun⟩ := bind_eq_ok.mp hrun
  refine Or.inr ⟨m₁, hroots, ?_⟩
  rw [hderive]
  refine congrArg Except.ok (foldlM_keeps (I := fun m => m₂ = m) (fun leaf _ b b' hb hstep => ?_) rfl hrun)
  obtain ⟨r, -, hstep⟩ := bind_eq_ok.mp hstep
  rw [hthread leaf] at hstep
  exact hb.trans (Except.ok.inj hstep)

theorem get_inserts_of_ne {region : List (IterVar × Option Range)} (h : ∀ p ∈ region, iv.id ≠ p.1.id) :
    Ranges.get (region.foldl (fun m p => (p.2.map (m.insert p.1)).getD m) m) iv = m.get iv := by
  induction region generalizing m with
  | nil => rfl
  | cons p region ih =>
    obtain ⟨hp, hrest⟩ := List.forall_mem_cons.mp h
    rw [List.foldl_cons, ih hrest]
    obtain ⟨jv, _ | r⟩ := p
    · rfl
    · exact Ranges.get_insert_of_ne hp

theorem get_rootRanges_of_ne (h : ∀ jv ∈ t.op.axes, iv.id ≠ jv.id) (hrun : rootRanges t readers m = .ok m') :
    m'.get iv = m.get iv := by
  unfold rootRanges at hrun
  split at hrun
  · obtain ⟨region, hregion, hrun⟩ := bind_eq_ok.mp hrun
    cases hrun
    obtain ⟨reads, -, hregion⟩ := bind_eq_ok.mp hregion
    refine get_inserts_of_ne fun p hp => ?_
    obtain ⟨⟨jv, dim⟩, hjv, hstep⟩ := (mem_mapM hregion).1 p hp
    obtain ⟨r, -, hstep⟩ := bind_eq_ok.mp hstep
    cases hstep
    exact h jv (List.mem_of_getElem? (List.mem_zipIdx_iff_getElem?.mp hjv))
  · cases hrun
    exact Ranges.get_insertDomains_of_ne h

/-- The ranges of a stage are set for its axes alone. -/
theorem get_addStageRanges_of_ne (horderly : t.Orderly n) (hplain : t.annotations = []) (hroots : t.op.rootAxes ⊆ t.all)
    (h : ∀ jv ∈ t.all, iv.id ≠ jv.id) (hrun : addStageRanges readers m t = .ok m') : m'.get iv = m.get iv := by
  obtain ⟨-, rfl⟩ | ⟨m₁, hroot, hderive⟩ := addStageRanges_inv hplain hrun
  · rfl
  have hrelated : ∀ r ∈ t.relations, ∀ jv ∈ r.derived, iv.id ≠ jv.id := fun r hr jv hjv =>
    h jv (horderly.related r hr jv (List.mem_append_right _ hjv))
  rw [Ranges.get_deriveAll hderive hrelated,
    Ranges.get_insertDomains_of_ne fun jv hjv => h jv (hroots (List.mem_append_right _ hjv)),
    get_rootRanges_of_ne (fun jv hjv => h jv (hroots (List.mem_append_left _ hjv))) hroot]

/-- The ranges of the axes of a stage that is computed on its own, over axes of no other operation, are those that its
    relations size from the domains. -/
theorem exists_measured {Γ : Context} {ρ : Valuation Int} (hs : s.Settled n) (horderly : ∀ t ∈ s.stages, t.Orderly n)
    (hst : st ∈ s.stages) (hconsistent : st.Consistent) (hroot : st.attach = .root) (hcompute : st.op.isCompute)
    (hsymbols : st.Symbolic Γ ρ) (hrun : s.rangesOf = .ok m) :
    ∃ L E, (∀ iv ∈ st.op.rootAxes, L iv.id = iv.start ρ ∧ E iv.id = iv.length ρ) ∧ st.Measured Γ ρ L E m := by
  have hdistinct := hconsistent.distinct
  rw [hconsistent.all] at hdistinct
  have hrootsDistinct := hs.rootsDistinct st hst
  obtain ⟨L, hL⟩ := IterVar.exists_byId hrootsDistinct (IterVar.start ρ)
  obtain ⟨E₀, hE₀⟩ := IterVar.exists_byId hrootsDistinct (IterVar.length ρ)
  have hdomains : ∀ iv ∈ st.op.rootAxes, ∃ d, iv.dom = some d ∧ d.min.Amounts Γ ρ (L iv.id) ∧
      d.extent.Amounts Γ ρ (E₀ iv.id) ∧ 0 ≤ E₀ iv.id := by
    intro iv hiv
    obtain ⟨d, lo, k, hd, hmin, hextent, hk⟩ := hsymbols.domains iv hiv
    have hstart : L iv.id = lo := by rw [hL iv hiv, IterVar.start, hd, Option.map_some, Option.getD_some, hmin.value]
    have hlength : E₀ iv.id = k := by rw [hE₀ iv hiv, IterVar.length, hd, Option.map_some, Option.getD_some, hextent.value]
    rw [hstart, hlength]
    exact ⟨d, hd, hmin, hextent, hk⟩
  obtain ⟨readers, -, hrun⟩ := bind_eq_ok.mp hrun
  obtain ⟨front, back, hsplit⟩ := List.append_of_mem hst
  have hids := hs.distinct
  rw [hsplit, List.map_append, List.map_cons, List.nodup_middle, List.nodup_cons, ← List.map_append] at hids
  rw [hsplit, List.reverse_append, List.reverse_cons, List.append_assoc, List.singleton_append, List.foldlM_append] at hrun
  obtain ⟨m₁, -, hrun⟩ := bind_eq_ok.mp hrun
  rw [List.foldlM_cons] at hrun
  obtain ⟨m₂, hown, hrest⟩ := bind_eq_ok.mp hrun
  -- The stages that come before in the schedule, which come later here, have other axes.
  have hkept : ∀ iv ∈ st.all, m.get iv = m₂.get iv := by
    refine foldlM_keeps (I := fun m => ∀ iv ∈ st.all, m.get iv = m₂.get iv) (fun t ht b b' hb hstep iv hiv => ?_)
      (fun _ _ => rfl) hrest
    have htmem : t ∈ front := List.mem_reverse.mp ht
    have hts : t ∈ s.stages := hsplit ▸ List.mem_append_left _ htmem
    have hne : t.id ≠ st.id := fun heq => hids.1 (heq ▸ List.mem_map_of_mem (List.mem_append_left _ htmem))
    rw [get_addStageRanges_of_ne (horderly t hts) (hs.plain t hts) (hs.roots t hts)
      (hs.apart st hst t hts hne iv hiv) hstep]
    exact hb iv hiv
  obtain ⟨hfalse, -⟩ | ⟨m₃, hdoms, hderive⟩ := addStageRanges_inv (hs.plain st hst) hown
  · rw [hcompute] at hfalse
    cases hfalse
  have hm₃ : st.op.reduceAxes.foldl Ranges.insertDomain m₃ = st.op.rootAxes.foldl Ranges.insertDomain m₁ := by
    unfold rootRanges at hdoms
    rw [hroot] at hdoms
    rw [Operation.rootAxes, List.foldl_append, ← Except.ok.inj hdoms]
  have hget : ∀ iv ∈ st.op.rootAxes, ∀ d, iv.dom = some d →
    (st.op.reduceAxes.foldl Ranges.insertDomain m₃).get iv = .ok d := by
    intro iv hiv d hd
    rw [hm₃]
    exact Ranges.get_insertDomains hrootsDistinct hiv hd
  obtain ⟨E, hsame, hextents, hsized⟩ := Ranges.ensures_deriveAll hconsistent.ordered hdistinct (horderly st hst).made
    hsymbols.positive (fun iv hiv => by
      obtain ⟨d, hd, -, hextent, hk⟩ := hdomains iv hiv
      exact ⟨⟨d, hget iv hiv d hd, hextent⟩, hk⟩) m₂ hderive
  have hall : ∀ iv ∈ st.all, m.HasExtent Γ ρ iv (E iv.id) ∧ 0 ≤ E iv.id := fun iv hiv => by
    rw [Ranges.HasExtent, hkept iv hiv]
    exact hextents iv (hconsistent.all ▸ hiv)
  refine ⟨L, E, fun iv hiv => ⟨hL iv hiv, (hsame iv hiv).trans (hE₀ iv hiv)⟩, hconsistent, fun iv hiv => (hall iv hiv).1,
    fun iv hiv => (hall iv hiv).2, hsized, fun iv hiv => ?_⟩
  obtain ⟨d, hd, hmin, -⟩ := hdomains iv hiv
  have hfresh : ∀ r ∈ st.relations, ∀ jv ∈ r.derived, iv.id ≠ jv.id := by
    rw [Relation.axesOf, List.map_append, List.nodup_append] at hdistinct
    exact fun r hr jv hjv => hdistinct.2.2 _ (List.mem_map_of_mem hiv) _
      (List.mem_map_of_mem (List.mem_flatMap.mpr ⟨r, hr, hjv⟩))
  exact ⟨d, by rw [hkept iv (hs.roots st hst hiv), Ranges.get_deriveAll hderive hfresh, hget iv hiv d hd], hmin⟩

end Schedule

end TensorNest

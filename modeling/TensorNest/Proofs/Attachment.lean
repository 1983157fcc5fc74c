import Mathlib.Data.List.Nodup
import TensorNest.Proofs.Transforms
import TensorNest.Schedule.Bounds

/-! # Attached stages

A stage can be computed inside the loop of an axis of another stage. The axis has to be a leaf axis of
that stage when bounds are inferred, but nothing follows an axis that is split, fused or tiled, or whose
stage is computed into a cache, after something was attached to it. Transforms that leave such axes alone
(`Schedule.Spares`) keep every stage attached to a leaf axis, so that the position of each attachment is
found (`Schedule.attached_of_transforms`). -/

namespace TensorNest

/-- The number of the stage and the axis that an attached stage is attached to. -/
def Attach.target? : Attach → Option (Nat × IterVar)
  | .inside id axis => some (id, axis)
  | _ => none

theorem Attach.target?_eq_some {a : Attach} {p : Nat × IterVar} : a.target? = some p ↔ a = .inside p.1 p.2 := by
  cases a <;> simp [Attach.target?, Prod.ext_iff]

namespace Stage

variable {st st' : Stage} {g g' : Graph}

/-- The numbers of the leaf axes of a stage. -/
def leafIds (st : Stage) : List Nat :=
  st.leaves.map (·.id)

/-- The numbers of the axes among operands. -/
def axisIds (axes : List Operand) : List Nat :=
  axes.filterMap fun
    | .axis iv => some iv.id
    | _ => none

/-- The numbers of the axes that a transform puts others for. One axis alone is not fused. -/
def Transform.taken : Transform → List Nat
  | split parent _ _ => axisIds [parent]
  | fuse axes => if axes.length ≤ 1 then [] else axisIds axes
  | tile x y _ _ => axisIds [x, y]
  | _ => []

theorem mem_axisIds_of_leaf {axes : List Operand} {axis : Operand} {iv : IterVar} (haxis : axis ∈ axes)
    (h : st.leaf axis = .ok iv) : iv.id ∈ axisIds axes := by
  obtain ⟨i, hi, hget⟩ := leaf_inv h
  cases axis with
  | axis jv =>
    cases hfind : st.leaves.findIdx? (·.id == jv.id) with
    | none =>
      simp only [leafIndex, hfind] at hi
      cases hi
    | some k =>
      simp only [leafIndex, hfind] at hi
      obtain rfl := Except.ok.inj hi
      obtain ⟨hlt, hid, -⟩ := List.findIdx?_eq_some_iff_getElem.mp hfind
      obtain rfl : st.leaves[k] = iv := Option.some.inj ((List.getElem?_eq_getElem hlt).symm.trans hget)
      rw [beq_iff_eq.mp hid]
      exact List.mem_filterMap.mpr ⟨_, haxis, rfl⟩
  | _ => cases hi

theorem mem_axisIds_of_legals {action : Action} {axes : List Operand} {ivs : List IterVar}
    (h : st.legals action axes = .ok ivs) : ∀ iv ∈ ivs, iv.id ∈ axisIds axes := by
  intro iv hiv
  obtain ⟨axis, haxis, hlegal⟩ := (mem_mapM h).1 iv hiv
  exact mem_axisIds_of_leaf haxis (leaf_of_legal hlegal)

/-- Steps that leave the numbers of leaf axes. -/
def Leaves (taken : List Nat) (st st' : Stage) : Prop :=
  ∀ x ∈ st.leafIds, x ∉ taken → x ∈ st'.leafIds

theorem leaves_split {parent factor nparts : Operand} {p : IterVar × IterVar}
    (h : (split parent factor nparts).Yields st g p st' g') : Leaves (axisIds [parent]) st st' := by
  obtain ⟨iv, pos, f, n, hleaf, hget, rfl, -⟩ := split_inv h
  intro x hx hnot
  obtain ⟨jv, hjv, rfl⟩ := List.mem_map.mp hx
  rw [eq_around hget, List.mem_append, List.mem_cons] at hjv
  refine List.mem_map_of_mem ?_
  show jv ∈ splice st.leaves pos 1 [p.1, p.2]
  rw [splice, List.mem_append, List.mem_append]
  obtain hjv | rfl | hjv := hjv
  · exact Or.inl (Or.inl hjv)
  · exact absurd (mem_axisIds_of_leaf List.mem_cons_self hleaf) hnot
  · exact Or.inr hjv

theorem leaves_fuse {axes : List Operand} {fused : IterVar} (h : (fuse axes).Yields st g fused st' g') :
    Leaves (if axes.length ≤ 1 then [] else axisIds axes) st st' := by
  obtain ⟨rfl, -⟩ | ⟨outer, ivs, front, back, st₁, hlen, hlegal, -, hleaves, -, rfl⟩ := fuse_inv h
  · exact fun x hx _ => hx
  intro x hx hnot
  rw [if_neg (by omega)] at hnot
  obtain ⟨jv, hjv, rfl⟩ := List.mem_map.mp hx
  have hfused : jv ∉ outer :: ivs := fun hmem => hnot (mem_axisIds_of_legals hlegal jv hmem)
  refine List.mem_map_of_mem ?_
  show jv ∈ front ++ fused :: back
  rw [hleaves] at hjv
  simp only [List.mem_append, List.mem_cons] at hjv hfused ⊢
  tauto

theorem leaves_reorder {axes : List Operand} {u : Unit} (h : (reorder axes).Yields st g u st' g') : Leaves [] st st' := by
  obtain ⟨leaves, hperm, rfl, -⟩ := reorder_inv h
  exact fun x hx _ => (hperm.map (·.id)).mem_iff.mpr hx

theorem leaves_tile {x y xFactor yFactor : Operand} {ivs : List IterVar}
    (h : (tile x y xFactor yFactor).Yields st g ivs st' g') : Leaves (axisIds [x, y]) st st' := by
  obtain ⟨ix, iy, p, st₁, g₁, q, st₂, g₂, -, -, hp, hq, horder⟩ := tile_inv h
  intro z hz hnot
  have happend : axisIds ([x] ++ [y]) = axisIds [x] ++ axisIds [y] := List.filterMap_append
  rw [← List.singleton_append, happend, List.mem_append, not_or] at hnot
  exact leaves_reorder horder z (leaves_split hq z (leaves_split hp z hz hnot.1) hnot.2) List.not_mem_nil

theorem leaves_annotate (iv : IterVar) (f : Annotation → Annotation) : Leaves [] st (st.annotate iv f) := by
  obtain ⟨as, heq⟩ := st.annotate_eq iv f
  rw [heq]
  exact fun x hx _ => hx

/-- A transform keeps the leaf axes that it does not take. -/
theorem Transform.leaves {t : Transform} {u : Unit} (h : t.run.Yields st g u st' g') : Leaves t.taken st st' := by
  have hmark : ∀ {action kind axis}, (mark action kind axis).Yields st g u st' g' → Leaves [] st st' := by
    intro action kind axis h
    obtain ⟨iv, -, -, rfl, -⟩ := mark_inv h
    exact leaves_annotate iv _
  cases t with
  | split parent factor nparts =>
    obtain ⟨p, h⟩ := Edit.yields_discard.mp h
    exact leaves_split h
  | fuse axes =>
    obtain ⟨iv, h⟩ := Edit.yields_discard.mp h
    exact leaves_fuse h
  | reorder axes => exact leaves_reorder h
  | tile x y xFactor yFactor =>
    obtain ⟨ivs, h⟩ := Edit.yields_discard.mp h
    exact leaves_tile h
  | parallel axis => exact hmark h
  | vectorize axis => exact hmark h
  | unroll axis => exact hmark h
  | bind axis thread =>
    obtain ⟨t, iv, -, -, rfl, -⟩ := bind_inv h
    exact leaves_annotate iv _
  | bindGpu blocks threads =>
    obtain ⟨p, h⟩ := Edit.yields_discard.mp h
    obtain ⟨-, ⟨as, rfl⟩, -⟩ := bindGpu_inv h
    exact fun x hx _ => hx
  | computeInline =>
    obtain ⟨-, -, -, rfl, -⟩ := Schedule.computeInline_inv h
    exact fun x hx _ => hx
  | computeRoot | setScope | doubleBuffer =>
    obtain ⟨rfl, -⟩ := Edit.yields_modify.mp h
    exact fun x hx _ => hx
  | prefetch tensor axis offset =>
    obtain ⟨iv, -, e, rfl, -⟩ := prefetch_inv h
    exact fun x hx _ => leaves_annotate iv _ x (leaves_annotate iv _ x hx List.not_mem_nil) List.not_mem_nil

/-- The leaf axes of a stage have numbers below `n`. -/
def Numbered (n : Nat) (st : Stage) : Prop :=
  ∀ x ∈ st.leafIds, x < n

theorem Numbered.raise {n n' : Nat} (h : st.Numbered n) (hn : n ≤ n') : st.Numbered n' :=
  fun x hx => Nat.lt_of_lt_of_le (h x hx) hn

theorem Numbered.attach {n : Nat} (h : st.Numbered n) (attach : Attach) : Numbered n { st with attach } := h

theorem Numbered.steps {n n' : Nat} (h : st.Numbered n) (hsteps : Steps n st n' st') : st'.Numbered n' := by
  refine hsteps.keeps (I := Numbered) (fun {n st n' st'} h hstep => ?_) h
  cases hstep with
  | note scope doubleBuffered hn => exact h.raise hn
  | permute hperm => exact fun x hx => h x ((hperm.map (·.id)).mem_iff.mp hx)
  | relate r rest hn hsources hleaves hnew hdistinct =>
    intro x hx
    obtain ⟨iv, hiv, rfl⟩ := List.mem_map.mp hx
    obtain hiv | hiv := List.mem_append.mp (hleaves.mem_iff.mp hiv)
    · exact (hnew iv hiv).2
    · exact h.raise hn _ (List.mem_map_of_mem (hsources.mem_iff.mpr (List.mem_append_right _ hiv)))

end Stage

namespace Schedule

variable {s s' : Schedule} {n n' : Nat} {g g' : Graph} {st : Stage}

/-- The stage of a number has a leaf axis of a number. -/
def Holds (s : Schedule) (id x : Nat) : Prop :=
  ∃ p ∈ s.stages, p.id = id ∧ x ∈ p.leafIds

theorem Holds.setStage {id x : Nat} (h : s.Holds id x) (hst : st.id = id → x ∈ st.leafIds) :
    (s.setStage st).Holds id x := by
  obtain ⟨p, hp, rfl, hx⟩ := h
  refine ⟨_, List.mem_map_of_mem hp, ?_⟩
  split
  · rename_i heq
    have heq := (beq_iff_eq.mp heq).symm
    exact ⟨heq, hst heq⟩
  · exact ⟨rfl, hx⟩

theorem Holds.insertStage {id x : Nat} (h : s.Holds id x) (new : Stage) (before : Nat) :
    (s.insertStage new before).Holds id x := by
  obtain ⟨p, hp, hrest⟩ := h
  exact ⟨p, mem_insertBefore_of_mem hp, hrest⟩

theorem Holds.moveAttached {id x : Nat} (h : s.Holds id x) (j : Nat) (leaf rebased : IterVar) :
    (s.moveAttached j leaf rebased).Holds id x := by
  obtain ⟨p, hp, hrest⟩ := h
  exact ⟨_, List.mem_map_of_mem hp, hrest⟩

/-- Every stage that is attached is attached to a leaf axis of a stage. Stages have numbers of their own. -/
structure Attached (n : Nat) (s : Schedule) : Prop where
  distinct : (s.stages.map (·.id)).Nodup
  stageIds : ∀ st ∈ s.stages, st.id < s.nextStage
  numbered : ∀ st ∈ s.stages, st.Numbered n
  attached : ∀ st ∈ s.stages, ∀ id axis, st.attach = .inside id axis → s.Holds id axis.id

/-- No stage has the axis that it is attached to as a leaf axis of its own. -/
def Apart (s : Schedule) : Prop :=
  ∀ st ∈ s.stages, ∀ p ∈ st.attach.target?, p.2.id ∉ st.leafIds

theorem Apart.not_mem (h : s.Apart) (hst : st ∈ s.stages) {id : Nat} {axis : IterVar}
    (hatt : st.attach = .inside id axis) : axis.id ∉ st.leafIds :=
  h st hst (id, axis) (by rw [hatt]; rfl)

/-- What a transform must leave alone for what is attached to stay attached. Normalization gives new axes
    to a stage and to what is attached to it; it must not take an axis of an attached stage for the axis
    that the stage is attached to. -/
def Spares (s : Schedule) : Transform → Prop
  | .onStage id t => ∀ st ∈ s.stages, ∀ p ∈ st.attach.target?, p.1 = id → p.2.id ∉ t.taken
  | .computeAt .. => True
  | .cacheWrite target _ => ∀ cached ∈ s.find? target.idx, ∀ st ∈ s.stages, ∀ p ∈ st.attach.target?, p.1 ≠ cached.id
  | .normalize => s.normalized ∨ s.Apart

instance (s : Schedule) : DecidablePred s.Spares
  | .onStage .. | .cacheWrite .. => inferInstanceAs (Decidable (∀ _ ∈ _, _))
  | .computeAt .. => .isTrue trivial
  | .normalize => inferInstanceAs (Decidable (_ ∨ ∀ _ ∈ _, _))

theorem eq_of_stage? (h : s.Attached n) {p : Stage} (hp : p ∈ s.stages) (hst : s.stage? p.id = some st) : p = st := by
  obtain ⟨hmem, hid⟩ := mem_of_stage? hst
  exact List.inj_on_of_nodup_map h.distinct hp hmem hid.symm

/-- A stage can be replaced by one that has the same leaf axes or more. -/
theorem Attached.replaced (h : s.Attached n) {t : Stage} (ht : t ∈ s.stages) (st : Stage) (hid : st.id = t.id) {id x : Nat}
    (hholds : s.Holds id x) (hx : id = t.id → x ∈ t.leafIds → x ∈ st.leafIds) : (s.setStage st).Holds id x := by
  refine hholds.setStage fun heq => ?_
  obtain ⟨p, hp, rfl, hp'⟩ := hholds
  obtain rfl := List.inj_on_of_nodup_map h.distinct hp ht (heq.symm.trans hid)
  exact hx rfl hp'

theorem Attached.setStage (h : s.Attached n) (hn : n ≤ n') {t : Stage} (ht : t ∈ s.stages) (hid : st.id = t.id)
    (hnum : st.Numbered n') (hkept : ∀ u ∈ s.stages, ∀ id axis, u.attach = .inside id axis →
      (s.setStage st).Holds id axis.id)
    (hatt : ∀ id axis, st.attach = .inside id axis → (s.setStage st).Holds id axis.id) : (s.setStage st).Attached n' := by
  refine ⟨by rw [ids_setStage]; exact h.distinct, fun u hu => ?_, fun u hu => ?_, fun u hu => ?_⟩
  · obtain rfl | hu := mem_setStage hu
    · rw [hid]
      exact h.stageIds t ht
    · exact h.stageIds u hu
  · obtain rfl | hu := mem_setStage hu
    · exact hnum
    · exact (h.numbered u hu).raise hn
  · obtain rfl | hu := mem_setStage hu
    · exact hatt
    · exact hkept u hu

theorem Attached.onStage (h : s.Attached g.next) {id : Nat} {t : Stage.Transform} (hspares : s.Spares (.onStage id t))
    {u : Unit} (hrun : (onStage id t.run).Yields s g u s' g') : s'.Attached g'.next := by
  obtain ⟨st, st', hst, hstep, rfl⟩ := onStage_inv hrun
  obtain ⟨hmem, rfl⟩ := mem_of_stage? hst
  have hsteps := Stage.Transform.steps hstep
  obtain ⟨hid, hatt, -⟩ := hsteps.fixed
  have hkept : ∀ v ∈ s.stages, ∀ id axis, v.attach = .inside id axis → (s.setStage st').Holds id axis.id := by
    intro v hv id axis hv'
    refine h.replaced hmem st' hid (h.attached v hv id axis hv') fun heq hx => ?_
    exact Stage.Transform.leaves hstep axis.id hx (hspares v hv (id, axis) (by rw [hv']; rfl) heq)
  refine h.setStage hsteps.le hmem hid ?_ hkept fun id axis heq => hkept st hmem id axis ?_
  · exact ((h.numbered st hmem).attach _).steps hsteps
  · rw [hatt] at heq
    cases t with
    | computeInline => cases heq
    | computeRoot => cases heq
    | _ => exact heq

theorem Attached.computeAt (h : s.Attached g.next) {id : Nat} {parent : Option Nat} {axis : Operand} {u : Unit}
    (hrun : (computeAt id parent axis).Yields s g u s' g') : s'.Attached g'.next := by
  obtain ⟨st, pid, p, iv, -, hst, hp, -, -, hiv, rfl, rfl⟩ := computeAt_inv hrun
  obtain ⟨hmem, -⟩ := mem_of_stage? hst
  obtain ⟨hpmem, -⟩ := mem_of_stage? hp
  -- The leaf axes stay as they are.
  have hsame : ∀ {id x}, s.Holds id x → (s.setStage { st with attach := .inside p.id iv }).Holds id x :=
    fun hholds => h.replaced hmem { st with attach := .inside p.id iv } rfl hholds fun _ hx => hx
  refine h.setStage (Nat.le_refl _) hmem rfl (h.numbered st hmem)
    (fun v hv id axis hv' => hsame (h.attached v hv id axis hv'))
    fun id axis heq => ?_
  obtain ⟨rfl, rfl⟩ := Attach.inside.inj heq
  obtain ⟨i, -, hget⟩ := Stage.leaf_inv (Stage.leaf_of_legal hiv)
  exact hsame ⟨p, hpmem, rfl, List.mem_map_of_mem (List.mem_of_getElem? hget)⟩

/-- A stage of a new number can be inserted, if it is computed on its own. -/
theorem Attached.insertStage (h : s.Attached n) {new : Stage} (hid : new.id = s.nextStage) (hnum : new.Numbered n)
    (hroot : new.attach = .root) (before : Nat) : (s.insertStage new before).Attached n := by
  refine ⟨nodup_insertBefore (fun t ht => ?_) h.distinct, fun t ht => ?_, fun t ht => ?_, fun t ht id axis heq => ?_⟩
  · rw [hid]
    exact Nat.ne_of_lt (h.stageIds t ht)
  · show t.id < s.nextStage + 1
    obtain rfl | ht := mem_insertBefore ht
    · omega
    · exact Nat.lt_succ_of_lt (h.stageIds t ht)
  · obtain rfl | ht := mem_insertBefore ht
    · exact hnum
    · exact h.numbered t ht
  · obtain rfl | ht := mem_insertBefore ht
    · rw [hroot] at heq
      cases heq
    · exact (h.attached t ht id axis heq).insertStage new before

theorem Attached.raise (h : s.Attached n) (hn : n ≤ n') : s.Attached n' :=
  ⟨h.distinct, h.stageIds, fun st hst => (h.numbered st hst).raise hn, h.attached⟩

theorem Attached.cacheWrite (h : s.Attached g.next) {target : OpRef} {scope : Setting}
    (hspares : s.Spares (.cacheWrite target scope)) {t : Tensor} (hrun : (cacheWrite target scope).Yields s g t s' g') :
    s'.Attached g'.next := by
  obtain ⟨st, hst, -, -, -, -, rfl, rfl⟩ := cacheWrite_inv hrun
  have hmem := mem_of_find? hst
  have hnext : (cachedGraph g scope st.op).next = g.next + st.op.rootAxes.length + st.op.axes.length := rfl
  have hcache : (cacheStage s.nextStage (cacheOp g scope st.op) scope).Numbered (cachedGraph g scope st.op).next := by
    intro x hx
    rw [Stage.leafIds, cacheStage, Stage.ofOperation, rootAxes_cacheOp] at hx
    have := (mem_ids_copiesFrom.mp hx).2
    omega
  have hinsert : (s.insertStage (cacheStage s.nextStage (cacheOp g scope st.op) scope) st.id).Attached
      (cachedGraph g scope st.op).next := (h.raise (by omega)).insertStage rfl hcache rfl st.id
  -- Nothing is attached to the stage that gets new axes.
  have hkept : ∀ v ∈ s.stages, ∀ id axis, v.attach = .inside id axis → (cached g scope st s).Holds id axis.id := by
    intro v hv id axis heq
    refine Holds.setStage ((h.attached v hv id axis heq).insertStage _ st.id) fun hid => ?_
    exact (hspares st hst v hv (id, axis) (by rw [heq]; rfl) hid.symm).elim
  refine Attached.setStage (s := ((s.insertStage _ st.id).setPlace _ _).setPlace _ _)
    ⟨hinsert.distinct, hinsert.stageIds, hinsert.numbered, hinsert.attached⟩ (Nat.le_refl _)
    (mem_insertBefore_of_mem hmem) rfl ?_ ?_ (hkept st hmem)
  · intro x hx
    have := (mem_ids_copiesFrom.mp hx).2
    omega
  · intro v hv id axis heq
    obtain rfl | hv := mem_insertBefore hv
    · cases heq
    · exact hkept v hv id axis heq

theorem Attached.redirectStage (h : s.Attached g.next ∧ s.Apart) {id : Nat} {u : Unit}
    (hrun : (redirectStage id).Yields s g u s' g') : s'.Attached g'.next ∧ s'.Apart := by
  obtain ⟨rfl, rfl⟩ | ⟨st, hst, -, rfl, rfl⟩ := redirectStage_inv hrun
  · exact h
  obtain ⟨h, hapart⟩ := h
  obtain ⟨hmem, -⟩ := mem_of_stage? hst
  have hsame : ∀ v ∈ s.stages, ∀ j axis, v.attach = .inside j axis →
      ((s.setPlace g.ops.size id).setStage { st with op := redirectedOp g s st.op }).Holds j axis.id :=
    fun v hv j axis heq => h.replaced hmem { st with op := redirectedOp g s st.op } rfl (h.attached v hv j axis heq)
      fun _ hx => hx
  constructor
  · exact Attached.setStage (s := s.setPlace g.ops.size id)
      ⟨h.distinct, h.stageIds, h.numbered, h.attached⟩ (Nat.le_refl _) hmem
      rfl (h.numbered st hmem) hsame (hsame st hmem)
  · intro v hv
    obtain rfl | hv := mem_setStage hv
    · exact hapart st hmem
    · exact hapart v hv

/-- The axis that is rebased is no leaf axis any more, the new one is, and the others are as before. -/
theorem mem_leafIds_rebased {pos : Nat} {leaf rebased : IterVar} (hget : st.leaves[pos]? = some leaf) {x : Nat} :
    (x ∈ st.leafIds → x ≠ leaf.id → x ∈ (rebasedStage st pos leaf rebased).leafIds) ∧
      (x ∈ (rebasedStage st pos leaf rebased).leafIds → x = rebased.id ∨ x ∈ st.leafIds) ∧
      rebased.id ∈ (rebasedStage st pos leaf rebased).leafIds := by
  have hold : st.leafIds = (st.leaves.take pos).map (·.id) ++ leaf.id :: (st.leaves.drop (pos + 1)).map (·.id) := by
    rw [Stage.leafIds]
    nth_rewrite 1 [eq_around hget]
    simp
  have hnew : (rebasedStage st pos leaf rebased).leafIds =
      (st.leaves.take pos).map (·.id) ++ rebased.id :: (st.leaves.drop (pos + 1)).map (·.id) := by
    rw [Stage.leafIds, rebasedStage, set_around hget]
    simp
  rw [hold, hnew]
  simp only [List.mem_append, List.mem_cons]
  tauto

/-- Where a stage is attached after a leaf axis was replaced. -/
theorem moved_inv {a : Attach} {id j : Nat} {leaf rebased axis' : IterVar} (h : a.moved id leaf rebased = .inside j axis') :
    ∃ axis, a = .inside j axis ∧
      (j = id ∧ axis.id = leaf.id ∧ axis' = rebased ∨ ¬(j = id ∧ axis.id = leaf.id) ∧ axis' = axis) := by
  cases a with
  | inside k axis =>
    simp only [Attach.moved] at h
    split at h
    · rename_i heq
      obtain ⟨rfl, rfl⟩ := Attach.inside.inj h
      exact ⟨axis, rfl, Or.inl ⟨by simp_all, by simp_all, rfl⟩⟩
    · rename_i heq
      obtain ⟨rfl, rfl⟩ := Attach.inside.inj h
      exact ⟨axis, rfl, Or.inr ⟨by simpa using heq, rfl⟩⟩
  | root => cases h
  | inlined => cases h

/-- A stage stays attached where it is when one of its own leaf axes is rebased. -/
theorem Apart.rebasedStage_attach (h : s.Apart) (hst : st ∈ s.stages) {pos : Nat} {leaf rebased : IterVar}
    (hget : st.leaves[pos]? = some leaf) : (rebasedStage st pos leaf rebased).attach = st.attach := by
  unfold rebasedStage
  cases heq : st.attach with
  | inside j axis =>
    have hne : axis.id ≠ leaf.id := by
      intro heq'
      exact h.not_mem hst heq (heq' ▸ List.mem_map_of_mem (List.mem_of_getElem? hget))
    simp [hne]
  | _ => rfl

/-- Rebasing a leaf axis takes along what is attached to it. -/
theorem Attached.rebase (h : s.Attached g.next) (hapart : s.Apart) {id pos : Nat} {leaf rebased : IterVar}
    (hst : s.stage? id = some st) (hget : st.leaves[pos]? = some leaf) (hid : rebased.id = g.next) :
    ((s.setStage (rebasedStage st pos leaf rebased)).moveAttached id leaf rebased).Attached (g.next + 1) := by
  obtain ⟨hmem, rfl⟩ := mem_of_stage? hst
  have hholds : ∀ {j x}, s.Holds j x → ¬(j = st.id ∧ x = leaf.id) →
      (s.setStage (rebasedStage st pos leaf rebased)).Holds j x :=
    fun hj hne => h.replaced hmem (rebasedStage st pos leaf rebased) rfl hj fun heq hx =>
      (mem_leafIds_rebased hget).1 hx fun hx => hne ⟨heq, hx⟩
  have hself : (s.setStage (rebasedStage st pos leaf rebased)).Holds st.id rebased.id :=
    ⟨_, mem_setStage_self hmem rfl, rfl, (mem_leafIds_rebased (x := 0) hget).2.2⟩
  have hrebased : (rebasedStage st pos leaf rebased).Numbered (g.next + 1) := by
    intro x hx
    obtain rfl | hx := (mem_leafIds_rebased hget).2.1 hx
    · omega
    · exact Nat.lt_succ_of_lt (h.numbered st hmem x hx)
  refine ⟨?_, ?_, ?_, ?_⟩
  · rw [moveAttached, List.map_map]
    exact (ids_setStage s _).symm ▸ h.distinct
  · refine List.forall_mem_map.mpr fun u hu => ?_
    obtain rfl | hu := mem_setStage hu
    · exact h.stageIds st hmem
    · exact h.stageIds u hu
  · refine List.forall_mem_map.mpr fun u hu => ?_
    obtain rfl | hu := mem_setStage hu
    · exact hrebased
    · exact (h.numbered u hu).raise (Nat.le_succ _)
  · refine List.forall_mem_map.mpr fun u hu j axis' heq => Holds.moveAttached ?_ st.id leaf rebased
    obtain ⟨v, hv, hsame⟩ : ∃ v ∈ s.stages, u.attach = v.attach := by
      obtain rfl | hu := mem_setStage hu
      · exact ⟨st, hmem, hapart.rebasedStage_attach hmem hget⟩
      · exact ⟨u, hu, rfl⟩
    obtain ⟨axis, hax, ⟨rfl, -, rfl⟩ | ⟨hne, rfl⟩⟩ := moved_inv heq
    · exact hself
    · exact hholds (h.attached v hv j axis' (hsame ▸ hax)) hne

/-- The new axis is a leaf axis of one stage alone, and what is attached to it is attached to that stage. -/
theorem Apart.rebase (hapart : s.Apart) (h : s.Attached g.next) {id pos : Nat} {leaf rebased : IterVar}
    (hst : s.stage? id = some st) (hget : st.leaves[pos]? = some leaf) (hid : rebased.id = g.next) :
    ((s.setStage (rebasedStage st pos leaf rebased)).moveAttached id leaf rebased).Apart := by
  obtain ⟨hmem, rfl⟩ := mem_of_stage? hst
  have hleaf : leaf.id ∈ st.leafIds := List.mem_map_of_mem (List.mem_of_getElem? hget)
  refine List.forall_mem_map.mpr fun u hu p hp hmem' => ?_
  obtain ⟨j, axis'⟩ := p
  replace hmem' : axis'.id ∈ u.leafIds := hmem'
  have hmoved : u.attach.moved st.id leaf rebased = .inside j axis' := Attach.target?_eq_some.mp hp
  obtain ⟨axis, hax, hcase⟩ := moved_inv hmoved
  obtain rfl | hold := mem_setStage hu
  · rw [hapart.rebasedStage_attach hmem hget] at hax
    have hne := hapart.not_mem hmem hax
    obtain ⟨-, hid', -⟩ | ⟨-, rfl⟩ := hcase
    · exact hne (hid' ▸ hleaf)
    obtain hx | hx := (mem_leafIds_rebased hget).2.1 hmem'
    · obtain ⟨p, hp, -, hx'⟩ := h.attached st hmem j axis' hax
      have := h.numbered p hp _ hx'
      omega
    · exact hne hx
  · obtain ⟨-, -, rfl⟩ | ⟨-, rfl⟩ := hcase
    · have := h.numbered u hold _ hmem'
      omega
    · exact hapart.not_mem hold hax hmem'

theorem Attached.rebaseStage (h : s.Attached g.next ∧ s.Apart) {id : Nat} {u : Unit}
    (hrun : (rebaseStage id).Yields s g u s' g') : s'.Attached g'.next ∧ s'.Apart :=
  rebaseStage_keeps (I := fun s g => s.Attached g.next ∧ s.Apart)
    (fun h hst hget _ hnew => ⟨h.1.rebase h.2 hst hget hnew.1, h.2.rebase h.1 hst hget hnew.1⟩) h hrun

theorem Attached.normalize (h : s.Attached g.next) (hspares : s.Spares .normalize) {u : Unit}
    (hrun : normalize.Yields s g u s' g') : s'.Attached g'.next := by
  obtain ⟨-, rfl, rfl⟩ | ⟨s₁, g₁, s₂, hnorm, h₁, h₂, rfl⟩ := normalize_inv hrun
  · exact h
  have hapart : s.Apart := hspares.resolve_left (by simp [hnorm])
  have hredirected : s₁.Attached g₁.next ∧ s₁.Apart := Edit.forM_keeps (I := fun s g => s.Attached g.next ∧ s.Apart)
    (fun _ _ _ _ _ _ _ hs hstep => Attached.redirectStage hs hstep) ⟨h, hapart⟩ h₁
  have hrebased : s₂.Attached g'.next ∧ s₂.Apart := Edit.forM_keeps (I := fun s g => s.Attached g.next ∧ s.Apart)
    (fun _ _ _ _ _ _ _ hs hstep => Attached.rebaseStage hs hstep) hredirected h₂
  exact ⟨hrebased.1.distinct, hrebased.1.stageIds, hrebased.1.numbered, hrebased.1.attached⟩

theorem Attached.transform (h : s.Attached g.next) {t : Transform} (hspares : s.Spares t) {u : Unit}
    (hrun : t.run.Yields s g u s' g') : s'.Attached g'.next := by
  cases t with
  | onStage id t => exact h.onStage hspares hrun
  | computeAt id parent axis => exact h.computeAt hrun
  | cacheWrite target scope =>
    obtain ⟨x, hrun⟩ := Edit.yields_discard.mp hrun
    exact h.cacheWrite hspares hrun
  | normalize => exact h.normalize hspares hrun

/-- A run of transforms, each of which spares what is attached. -/
inductive SparingRun : Schedule → Graph → List Transform → Schedule → Graph → Prop
  | nil {s : Schedule} {g : Graph} : SparingRun s g [] s g
  | cons {s₁ s₂ s₃ : Schedule} {g₁ g₂ g₃ : Graph} {t : Transform} {ts : List Transform} (hspares : s₁.Spares t)
    (hstep : t.run.Yields s₁ g₁ () s₂ g₂) (hrest : SparingRun s₂ g₂ ts s₃ g₃) : SparingRun s₁ g₁ (t :: ts) s₃ g₃

theorem Attached.run {ts : List Transform} (hrun : SparingRun s g ts s' g') (h : s.Attached g.next) :
    s'.Attached g'.next := by
  induction hrun with
  | nil => exact h
  | cons hspares hstep _ ih => exact ih (h.transform hspares hstep)

theorem Untouched.attached (h : s.Untouched) (hlt : ∀ st ∈ s.stages, ∀ iv ∈ st.op.rootAxes, iv.id < n) :
    s.Attached n := by
  refine ⟨h.distinct, h.stageIds, fun st hst x hx => ?_, fun st hst id axis heq => ?_⟩
  · rw [Stage.leafIds, (h.axes st hst).2.1] at hx
    obtain ⟨iv, hiv, rfl⟩ := List.mem_map.mp hx
    exact hlt st hst iv hiv
  · rw [h.root st hst] at heq
    cases heq

/-- The position of every attachment is found in every stage. -/
theorem Attached.position_found (h : s.Attached n) (hst : st ∈ s.stages) {consumer : Stage} (hc : consumer ∈ s.stages) :
    ∃ position, attachPosition consumer st.attach = .ok position := by
  unfold Schedule.attachPosition
  split
  · rename_i id axis heq
    split
    · rename_i hid
      obtain ⟨p, hp, hpid, hx⟩ := h.attached st hst id axis heq
      obtain rfl := List.inj_on_of_nodup_map h.distinct hp hc (hpid.trans (beq_iff_eq.mp hid))
      obtain ⟨iv, hiv, heq⟩ := List.mem_map.mp hx
      cases hfind : p.leaves.findIdx? (·.id == axis.id) with
      | none => exact absurd heq (by simpa using List.findIdx?_eq_none_iff.mp hfind iv hiv)
      | some i => exact ⟨some i, rfl⟩
    · exact ⟨none, rfl⟩
  · exact ⟨none, rfl⟩

/-- Along transforms that spare what is attached, every attached stage is attached to a leaf axis of a
    stage, and the position of every attachment is found. -/
theorem attached_of_transforms {outputs : List Operation} {g₀ g₁ : Graph} {s₀ : Schedule} {ts : List Transform}
    (hnum : g₀.Numbered) (hout : ∀ o ∈ outputs, g₀.op? o.idx = some o) (hcreate : (create outputs).Yields g₀ s₀ g₁)
    (hrun : SparingRun s₀ g₁ ts s g) :
    (∀ st ∈ s.stages, ∀ id axis, st.attach = .inside id axis → ∃ p, s.stage? id = some p ∧ axis.id ∈ p.leafIds) ∧
      ∀ st ∈ s.stages, ∀ consumer ∈ s.stages, ∃ position, attachPosition consumer st.attach = .ok position := by
  obtain ⟨rfl, huntouched, hlt⟩ := create_untouched (Q := fun o => ∀ iv ∈ o.rootAxes, iv.id < g₀.next)
    (fun ho => hnum ho) (fun o ho => hnum (hout o ho)) hcreate
  have h := (huntouched.attached hlt).run hrun
  refine ⟨fun st hst id axis heq => ?_, fun st hst consumer hc => h.position_found hst hc⟩
  obtain ⟨p, hp, rfl, hx⟩ := h.attached st hst id axis heq
  obtain ⟨q, hq⟩ := exists_stage?.mpr ⟨p, hp, rfl⟩
  exact ⟨q, hq, eq_of_stage? h hp hq ▸ hx⟩

/-! ### A stage attached to a reduction -/

namespace Summed

/-- An axis over four values from `min`. -/
def axis (id : Nat) (min : Int) (kind : IterKind) : IterVar :=
  ⟨some ⟨.const (.int min) .int32, .const (.int 4) .int32⟩, ⟨id, "i", .int32⟩, kind, ""⟩

def int (id : Nat) : Expr := .var ⟨id, "i", .int32⟩

def read (o : Operation) (index : Expr) : Expr :=
  .call .int32 o.name [index] .tensorRead (some o.ref) 0

def input : Operation := ⟨0, "A", "", [], .placeholder [.const (.int 5) .int32] .int32⟩

/-- `B[i] = A[i] + i` -/
def shifted : Operation :=
  ⟨1, "B", "", [], .compute [axis 1 0 .dataParallel] [.bin .add (read input (int 1)) (int 1)]⟩

/-- `C[j] = sum of B[k] over k from 1` -/
def sums : Operation :=
  ⟨2, "C", "", [], .compute [axis 2 0 .dataParallel]
    [.reduce ⟨[⟨4, "x", .int32⟩], [⟨5, "y", .int32⟩], [.bin .add (int 4) (int 5)], [.const (.int 0) .int32]⟩
      [read shifted (int 3)] [axis 3 1 .reduction] none 0]⟩

def graph : Graph := { ops := #[some input, some shifted, some sums], next := 6 }

/-- The sums are split, `B` is attached to the reduction axis, and the axis is replaced. -/
def split : Transform := .onStage 2 (.split (.axis (axis 2 0 .dataParallel)) (.number (.int 2)) .nothing)

def attach : Transform := .computeAt 1 (some 2) (.axis (axis 3 1 .reduction))

def start : Schedule :=
  match (create [sums]).run.run graph with
  | (.ok s, _) => s
  | _ => default

/-- The schedule and the graph after a transform. -/
def after (t : Transform) (p : Schedule × Graph) : Schedule × Graph :=
  let r := t.run.outcome p.1 p.2
  (r.1.2, r.2)

def result : Schedule × Graph := after .normalize (after attach (after split (start, graph)))

theorem sparingRun_result : SparingRun start graph [split, attach, .normalize] result.1 result.2 := by
  refine .cons ?_ (Edit.yields_outcome ?_) (.cons ?_ (Edit.yields_outcome ?_) (.cons ?_ (Edit.yields_outcome ?_) .nil))
  all_goals decide

theorem graph_numbered : graph.Numbered := by decide

theorem outputs_sums : ∀ o ∈ [sums], graph.op? o.idx = some o := by
  intro o ho
  obtain rfl := List.mem_singleton.mp ho
  rfl

theorem attached_result :
    result.1.stages.map (fun st => (st.id, st.attach.target?.map fun p => (p.1, p.2.id))) =
        [(0, none), (1, some (2, 8)), (2, none)] ∧
      (∀ st ∈ result.1.stages, ∀ id axis, st.attach = .inside id axis →
        ∃ p, result.1.stage? id = some p ∧ axis.id ∈ p.leafIds) ∧
      ∀ st ∈ result.1.stages, ∀ consumer ∈ result.1.stages, ∃ position,
        attachPosition consumer st.attach = .ok position :=
  ⟨by decide +kernel, attached_of_transforms graph_numbered outputs_sums rfl sparingRun_result⟩

end Summed

end Schedule

end TensorNest

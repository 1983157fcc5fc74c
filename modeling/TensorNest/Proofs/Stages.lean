import Mathlib.Data.List.Perm.Basic
import TensorNest.Proofs.Schedule

/-! # Steps of a stage

What the transforms of a stage do to it. Apart from where a stage is computed, every transform is made
of a few kinds of steps (`Stage.Step`): what is noted about axes and storage is changed, leaf axes change
places, or a relation takes some leaf axes away and puts new axes there. `Stage.Transform.steps` takes
each transform apart, so that what every step keeps is kept by every transform. -/

namespace TensorNest

open List (Forall₂)

namespace Relation

/-- The axes that a relation starts from. -/
def sources : Relation → List IterVar
  | .split parent .. => [parent]
  | .fuse outer inner _ => [outer, inner]
  | .rebase parent _ => [parent]

/-- The axes that a relation derives. -/
def derived : Relation → List IterVar
  | .split _ outer inner .. => [outer, inner]
  | .fuse _ _ fused => [fused]
  | .rebase _ rebased => [rebased]

/-- What holds of every relation that a transform makes. New axes are of the kind and the type of the axis that they are
    derived from, or of the first one; only reduction axes are fused with reduction axes; and a split is by a factor or
    into a number of parts. -/
structure Made (r : Relation) : Prop where
  alike : ∀ iv ∈ r.derived, ∃ jv ∈ r.sources.head?, iv.kind = jv.kind ∧ iv.dtype = jv.dtype
  uniform : ∀ iv ∈ r.sources, ∀ jv ∈ r.sources, (iv.kind = .reduction ↔ jv.kind = .reduction)
  sized : ∀ parent outer inner factor nparts, r = .split parent outer inner factor nparts →
    factor.isSome = !nparts.isSome

theorem made_rebase {parent rebased : IterVar} (hkind : rebased.kind = parent.kind) (htype : rebased.dtype = parent.dtype) :
    (rebase parent rebased).Made where
  alike := List.forall_mem_singleton.mpr ⟨parent, rfl, hkind, htype⟩
  uniform := by simp [sources]
  sized := nofun

/-- The new axes of a relation run over a reduction if the axes that it starts from do. -/
theorem Made.kind_iff {r : Relation} (h : r.Made) {iv jv : IterVar} (hiv : iv ∈ r.derived) (hjv : jv ∈ r.sources) :
    iv.kind = .reduction ↔ jv.kind = .reduction := by
  obtain ⟨kv, hkv, hkind, -⟩ := h.alike iv hiv
  rw [hkind]
  exact h.uniform kv (List.mem_of_mem_head? hkv) jv hjv

end Relation

/-- What is noted about an axis lets its iterations run one after the other, or on the threads of a block. -/
structure Annotation.Serial (a : Annotation) : Prop where
  kind : a.kind ≠ some .parallelized ∧ a.kind ≠ some .vectorized
  thread : ∀ t ∈ a.thread, Stage.isThreadTag t.tag = true

/-! ### Lists -/

section Lists
variable {α : Type} {xs : List α} {p : Nat} {x y : α}

theorem eq_around (h : xs[p]? = some x) : xs = xs.take p ++ x :: xs.drop (p + 1) := by
  obtain ⟨hp, rfl⟩ := List.getElem?_eq_some_iff.mp h
  rw [← List.drop_eq_getElem_cons hp, List.take_append_drop]

theorem set_around (h : xs[p]? = some x) : xs.set p y = xs.take p ++ y :: xs.drop (p + 1) := by
  obtain ⟨hp, -⟩ := List.getElem?_eq_some_iff.mp h
  rw [List.set_eq_take_append_cons_drop, if_pos hp]

theorem perm_around (h : xs[p]? = some x) : xs.Perm (x :: (xs.take p ++ xs.drop (p + 1))) := by
  nth_rewrite 1 [eq_around h]
  exact List.perm_middle

/-- The items from a position on, read off one by one. -/
theorem eq_append_of_positions {ys : List α} {k : Nat}
    (h : Forall₂ (fun q y => xs[q]? = some y) ((List.range k).map (p + ·)) ys) :
    xs = xs.take p ++ (ys ++ xs.drop (p + k)) := by
  obtain ⟨hlen, hget⟩ := List.forall₂_iff_get.mp h
  rw [List.length_map, List.length_range] at hlen
  have hys : ys = (xs.drop p).take k := by
    refine List.ext_getElem? fun i => ?_
    rw [List.getElem?_take, List.getElem?_drop]
    split
    · rename_i hi
      have := hget i (by simpa using hi) (hlen ▸ hi)
      simp only [List.get_eq_getElem, List.getElem_map, List.getElem_range] at this
      rw [this, List.getElem?_eq_getElem]
    · exact List.getElem?_eq_none (by omega)
  rw [hys, ← List.drop_drop, List.take_append_drop, List.take_append_drop]

end Lists

namespace Stage

/-- Items put at distinct positions come in for those that were there. -/
theorem perm_place {xs us vs : List IterVar} {ps : List Nat} (hps : ps.Nodup)
    (hus : Forall₂ (fun p u => xs[p]? = some u) ps us) (hlen : ps.length = vs.length) :
    (place xs (ps.zip vs) ++ us).Perm (xs ++ vs) := by
  induction ps generalizing xs us vs with
  | nil =>
    obtain rfl := List.length_eq_zero_iff.mp hlen.symm
    cases hus
    exact List.Perm.refl _
  | cons p ps ih =>
    obtain _ | ⟨v, vs⟩ := vs
    · cases hlen
    obtain _ | ⟨hu, hus⟩ := hus
    rename_i u us
    rw [List.nodup_cons] at hps
    -- The other positions hold what they held before.
    have hrest : Forall₂ (fun q u => (xs.set p v)[q]? = some u) ps us := by
      refine List.forall₂_iff_get.mpr ⟨hus.length_eq, fun i h₁ h₂ => ?_⟩
      have hne : p ≠ ps.get ⟨i, h₁⟩ := fun heq => hps.1 (heq ▸ List.get_mem ..)
      rw [List.getElem?_set_ne hne]
      exact (List.forall₂_iff_get.mp hus).2 i h₁ h₂
    have hswap : (u :: xs.set p v).Perm (v :: xs) := by
      rw [set_around hu]
      nth_rewrite 3 [eq_around hu]
      exact (List.perm_middle.cons u).trans ((List.Perm.swap v u _).trans (List.perm_middle.symm.cons v))
    calc place xs ((p :: ps).zip (v :: vs)) ++ u :: us
        = place (xs.set p v) (ps.zip vs) ++ u :: us := rfl
      _ |>.Perm (u :: (place (xs.set p v) (ps.zip vs) ++ us)) := List.perm_middle
      _ |>.Perm (u :: (xs.set p v ++ vs)) := (ih hps.2 hrest (Nat.succ.inj hlen)).cons u
      _ |>.Perm (v :: (xs ++ vs)) := hswap.append_right vs
      _ |>.Perm (xs ++ v :: vs) := List.perm_middle.symm

variable {n n' n'' : Nat} {st st' st'' : Stage} {g g' : Graph}

/-! ### Leaf axes -/

theorem leaf_inv {axis : Operand} {iv : IterVar} (h : st.leaf axis = .ok iv) :
    ∃ i, st.leafIndex axis = .ok i ∧ st.leaves[i]? = some iv := by
  obtain ⟨i, hi, h⟩ := bind_eq_ok.mp h
  refine ⟨i, hi, ?_⟩
  cases hiv : st.leaves[i]? with
  | none =>
    rw [hiv] at h
    cases h
  | some jv =>
    rw [hiv] at h
    rw [Except.ok.inj h]

/-- What is a legal axis: a leaf axis of a kind that is not forbidden. -/
theorem legal_eq_ok {action : Action} {axis : Operand} {iv : IterVar} :
    st.legal action axis = .ok iv ↔ st.leaf axis = .ok iv ∧ st.kindOf iv ∉ action.forbidden := by
  rw [legal, bind_eq_ok]
  constructor
  · rintro ⟨jv, hjv, h⟩
    simp only at h
    split at h
    · cases h
    · rename_i hallowed
      obtain rfl := Except.ok.inj h
      exact ⟨hjv, by simpa using hallowed⟩
  · rintro ⟨hiv, hallowed⟩
    refine ⟨iv, hiv, ?_⟩
    rw [if_neg (by simpa using hallowed)]
    rfl

theorem leaf_of_legal {action : Action} {axis : Operand} {iv : IterVar} (h : st.legal action axis = .ok iv) :
    st.leaf axis = .ok iv :=
  (legal_eq_ok.mp h).1

/-- Legal axes stand at the positions that are found for them. -/
theorem positions_of_legals {action : Action} {axes : List Operand} {ivs : List IterVar} {ps : List Nat}
    (hivs : st.legals action axes = .ok ivs) (hps : st.leafIndices axes = .ok ps) :
    Forall₂ (fun p iv => st.leaves[p]? = some iv) ps ivs := by
  induction axes generalizing ivs ps with
  | nil =>
    cases hivs
    cases hps
    exact .nil
  | cons axis axes ih =>
    rw [legals, List.mapM_cons] at hivs
    obtain ⟨iv, hiv, hivs⟩ := bind_eq_ok.mp hivs
    obtain ⟨ivs', hivs', hivs⟩ := bind_eq_ok.mp hivs
    rw [leafIndices, List.mapM_cons] at hps
    obtain ⟨p, hp, hps⟩ := bind_eq_ok.mp hps
    obtain ⟨ps', hps', hps⟩ := bind_eq_ok.mp hps
    cases hivs
    cases hps
    obtain ⟨q, hq, hget⟩ := leaf_inv (leaf_of_legal hiv)
    obtain rfl : p = q := Except.ok.inj (hp.symm.trans hq)
    exact .cons hget (ih hivs' hps')

/-- Distinct axes stand at distinct positions. -/
theorem nodup_positions {xs ivs : List IterVar} {ps : List Nat} (h : Forall₂ (fun p iv => xs[p]? = some iv) ps ivs)
    (hivs : (ivs.map (·.id)).Nodup) : ps.Nodup := by
  induction h with
  | nil => exact List.nodup_nil
  | @cons p iv ps ivs hp hrest ih =>
    rw [List.map_cons, List.nodup_cons] at hivs
    refine List.nodup_cons.mpr ⟨fun hmem => ?_, ih hivs.2⟩
    obtain ⟨i, rfl⟩ := List.get_of_mem hmem
    have hi := (List.forall₂_iff_get.mp hrest).2 i i.isLt (hrest.length_eq ▸ i.isLt)
    obtain rfl := Option.some.inj (hp.symm.trans hi)
    exact hivs.1 (List.mem_map_of_mem (List.get_mem ..))

theorem leaf_of_splitArgs {parent factor nparts : Operand} {iv : IterVar} {e : Expr}
    (h : st.splitArgs parent factor nparts = .ok (iv, e)) : st.leaf parent = .ok iv := by
  obtain ⟨jv, hjv, h⟩ := bind_eq_ok.mp h
  simp only at h
  split at h
  · cases h
  suffices jv = iv from this ▸ leaf_of_legal hjv
  split at h
  · obtain ⟨_, -, hpair⟩ := bind_eq_ok.mp h
    exact (Prod.mk.inj (Except.ok.inj hpair)).1
  · obtain ⟨_, -, hpair⟩ := bind_eq_ok.mp h
    exact (Prod.mk.inj (Except.ok.inj hpair)).1

/-! ### Steps -/

/-- Annotations after a step: those before it, or with something new noted about a leaf axis, or with those of an axis
    noted about the axis that it was rebased to as well. -/
inductive Notes (st : Stage) : List (List Nat × Annotation) → Prop
  | keep : Notes st st.annotations
  | annotate {iv : IterVar} {f : Annotation → Annotation} (hiv : iv ∈ st.leaves)
      (hserial : iv.kind = .reduction → ∀ a : Annotation, a.Serial → (f a).Serial) : Notes st (st.annotate iv f).annotations
  | share {leaf rebased : IterVar} (h : .rebase leaf rebased ∈ st.relations) :
      Notes st (st.annotations.map fun (ids, a) => (if ids.contains leaf.id then rebased.id :: ids else ids, a))

/-- A step of a stage while the numbers from `n` to `n'` are taken. A relation takes leaf axes away and
    puts new ones there; the `rest` of the leaf axes stays. -/
inductive Step : Nat → Stage → Nat → Stage → Prop
  | note {n n' : Nat} {st : Stage} {annotations : List (List Nat × Annotation)} (scope : Setting)
    (doubleBuffered : Bool) (hn : n ≤ n') (hnotes : st.Notes annotations) :
    Step n st n' { st with annotations, scope, doubleBuffered }
  | permute {n : Nat} {st : Stage} {leaves : List IterVar} (hperm : leaves.Perm st.leaves) :
    Step n st n { st with leaves }
  | relate {n n' : Nat} {st : Stage} (r : Relation) (rest : List IterVar) {leaves : List IterVar} (hn : n ≤ n')
    (hsources : st.leaves.Perm (r.sources ++ rest)) (hleaves : leaves.Perm (r.derived ++ rest))
    (hnew : ∀ iv ∈ r.derived, n ≤ iv.id ∧ iv.id < n') (hdistinct : (r.derived.map (·.id)).Nodup) (hmade : r.Made) :
    Step n st n' { st with leaves, all := st.all ++ r.derived, relations := st.relations ++ [r] }

/-- Any number of steps of a stage. -/
inductive Steps : Nat → Stage → Nat → Stage → Prop
  | refl (n : Nat) (st : Stage) : Steps n st n st
  | step {n n' n'' : Nat} {st st' st'' : Stage} (h : Step n st n' st') (hs : Steps n' st' n'' st'') :
    Steps n st n'' st''

theorem Step.steps (h : Step n st n' st') : Steps n st n' st' := .step h (.refl ..)

theorem Steps.trans (h : Steps n st n' st') (h' : Steps n' st' n'' st'') : Steps n st n'' st'' := by
  induction h with
  | refl => exact h'
  | step hstep _ ih => exact .step hstep (ih h')

/-- What every step keeps is kept by any number of steps. -/
theorem Steps.keeps {I : Nat → Stage → Prop} (hs : Steps n st n' st')
    (step : ∀ {n st n' st'}, I n st → Step n st n' st' → I n' st') (h : I n st) : I n' st' := by
  induction hs with
  | refl => exact h
  | step hstep _ ih => exact ih (step h hstep)

theorem Steps.le (h : Steps n st n' st') : n ≤ n' := by
  refine h.keeps (I := fun k _ => n ≤ k) (fun hle hstep => ?_) (Nat.le_refl n)
  cases hstep with
  | note _ _ hn => exact Nat.le_trans hle hn
  | permute => exact hle
  | relate _ _ hn => exact Nat.le_trans hle hn

/-- Steps leave a stage its number, its place and its operation. -/
theorem Steps.fixed (h : Steps n st n' st') :
    st'.id = st.id ∧ st'.attach = st.attach ∧ st'.isOutput = st.isOutput ∧ st'.op = st.op := by
  refine h.keeps (I := fun _ t => t.id = st.id ∧ t.attach = st.attach ∧ t.isOutput = st.isOutput ∧ t.op = st.op)
    (fun hkept hstep => ?_) ⟨rfl, rfl, rfl, rfl⟩
  cases hstep <;> exact hkept

/-- What a split does: it relates a leaf axis to two new axes that take its place. -/
theorem split_inv {parent factor nparts : Operand} {p : IterVar × IterVar}
    (h : (split parent factor nparts).Yields st g p st' g') :
    ∃ iv pos f n, st.leaf parent = .ok iv ∧ st.leaves[pos]? = some iv ∧ st' = { st with
        leaves := splice st.leaves pos 1 [p.1, p.2]
        all := st.all ++ [p.1, p.2]
        relations := st.relations ++ [.split iv p.1 p.2 f n] } ∧ (Relation.split iv p.1 p.2 f n).Made ∧
      p.1.id = g.next ∧ p.2.id = g.next + 1 ∧ g' = { g with next := g.next + 2 } := by
  have hmade : ∀ {iv outer inner : IterVar} {e : Expr}, outer.kind = iv.kind ∧ outer.dtype = iv.dtype →
      inner.kind = iv.kind ∧ inner.dtype = iv.dtype → (Relation.split iv outer inner (if given factor then some e else none)
        (if given factor then none else some e)).Made := by
    intro iv outer inner e houter hinner
    refine ⟨List.forall_mem_cons.mpr ⟨⟨iv, rfl, houter⟩, List.forall_mem_singleton.mpr ⟨iv, rfl, hinner⟩⟩,
      by simp [Relation.sources], ?_⟩
    intro _ _ _ _ _ heq
    cases heq
    cases given factor <;> rfl
  unfold split at h
  rw [Edit.yields_get_bind, Edit.yields_liftExcept_bind] at h
  obtain ⟨⟨iv, value⟩, hargs, h⟩ := h
  have hleaf := leaf_of_splitArgs hargs
  obtain ⟨q, hq, hget⟩ := leaf_inv hleaf
  simp only at h
  split at h
  · simp only [Edit.yields_pure_bind, Edit.yields_freshVar_bind, Edit.yields_liftExcept_bind,
      Edit.yields_set_bind, Edit.yields_pure] at h
    obtain ⟨pos, hpos, rfl, rfl, rfl⟩ := h
    obtain rfl : pos = q := Except.ok.inj (hpos.symm.trans hq)
    exact ⟨iv, pos, _, _, hleaf, hget, rfl, hmade ⟨rfl, rfl⟩ ⟨rfl, rfl⟩, rfl, rfl, rfl⟩
  · simp only [Edit.yields_pure_bind, Edit.yields_freshVar_bind, Edit.yields_liftExcept_bind,
      Edit.yields_set_bind, Edit.yields_pure] at h
    obtain ⟨_, -, _, -, _, -, _, -, pos, hpos, rfl, rfl, rfl⟩ := h
    obtain rfl : pos = q := Except.ok.inj (hpos.symm.trans hq)
    exact ⟨iv, pos, _, _, hleaf, hget, rfl, hmade ⟨rfl, rfl⟩ ⟨rfl, rfl⟩, rfl, rfl, rfl⟩

theorem steps_split {parent factor nparts : Operand} {p : IterVar × IterVar}
    (h : (split parent factor nparts).Yields st g p st' g') : Steps g.next st g'.next st' := by
  obtain ⟨iv, pos, f, n, -, hget, rfl, hmade, houter, hinner, rfl⟩ := split_inv h
  refine (Step.relate (.split iv p.1 p.2 f n) (st.leaves.take pos ++ st.leaves.drop (pos + 1))
    (Nat.le_add_right ..) (perm_around hget) ?_ ?_ ?_ hmade).steps
  · rw [splice, List.append_assoc]
    exact List.perm_append_comm_assoc ..
  · simp [Relation.derived, houter, hinner]
  · simp [Relation.derived, houter, hinner]

theorem fusePair_inv {outer inner fused : IterVar} (h : (fusePair outer inner).Yields st g fused st' g') :
    st' = { st with relations := st.relations ++ [.fuse outer inner fused], all := st.all ++ [fused] } ∧
      (fused.kind = outer.kind ∧ fused.dtype = outer.dtype) ∧ fused.id = g.next ∧ g' = { g with next := g.next + 1 } := by
  unfold fusePair at h
  simp only at h
  split at h
  · simp only [Edit.yields_liftExcept_bind, Edit.yields_pure_bind, Edit.yields_freshVar_bind,
      Edit.yields_modify_bind, Edit.yields_pure] at h
    obtain ⟨_, -, _, -, _, -, rfl, rfl, rfl⟩ := h
    exact ⟨rfl, ⟨rfl, rfl⟩, rfl, rfl⟩
  · simp only [Edit.yields_pure_bind, Edit.yields_freshVar_bind, Edit.yields_modify_bind, Edit.yields_pure] at h
    obtain ⟨rfl, rfl, rfl⟩ := h
    exact ⟨rfl, ⟨rfl, rfl⟩, rfl, rfl⟩

/-- The leaf axes stay as they are while axes are fused one after the other. -/
theorem leaves_fusePairs {ivs : List IterVar} {outer fused : IterVar}
    (h : (ivs.foldlM fusePair outer).Yields st g fused st' g') : st'.leaves = st.leaves := by
  induction ivs generalizing st g outer with
  | nil =>
    rw [List.foldlM_nil, Edit.yields_pure] at h
    obtain ⟨-, rfl, -⟩ := h
    rfl
  | cons iv ivs ih =>
    rw [List.foldlM_cons, Edit.yields_bind] at h
    obtain ⟨mid, st₁, g₁, hfuse, h⟩ := h
    obtain ⟨rfl, -⟩ := fusePair_inv hfuse
    have hrest := ih h
    exact hrest

/-- Axes are fused one after the other. As if the leaf axes were put right each time, the fused
    axis stands in front of the axes that are still to be fused. -/
theorem steps_fusePairs (front back : List IterVar) {ivs : List IterVar} {outer fused : IterVar}
    (huniform : ∀ iv ∈ ivs, iv.kind = .reduction ↔ outer.kind = .reduction)
    (h : (ivs.foldlM fusePair outer).Yields st g fused st' g') :
    Steps g.next { st with leaves := front ++ outer :: (ivs ++ back) }
      g'.next { st' with leaves := front ++ fused :: back } := by
  induction ivs generalizing st g outer with
  | nil =>
    rw [List.foldlM_nil, Edit.yields_pure] at h
    obtain ⟨rfl, rfl, rfl⟩ := h
    exact .refl ..
  | cons iv ivs ih =>
    rw [List.foldlM_cons, Edit.yields_bind] at h
    obtain ⟨mid, st₁, g₁, hfuse, h⟩ := h
    obtain ⟨rfl, hmid, hid, rfl⟩ := fusePair_inv hfuse
    obtain ⟨hiv, hivs⟩ := List.forall_mem_cons.mp huniform
    refine .step ?_ (ih (by rw [hmid.1]; exact hivs) h)
    refine Step.relate (.fuse outer iv mid) (front ++ (ivs ++ back)) (Nat.le_add_right ..) ?_ List.perm_middle ?_ ?_ ?_
    · exact List.perm_middle.trans (List.perm_middle.cons outer)
    · simp [Relation.derived, hid]
    · simp [Relation.derived]
    · exact ⟨List.forall_mem_singleton.mpr ⟨outer, rfl, hmid⟩, by simp [Relation.sources, hiv], nofun⟩

/-- What fusing does: one axis stays as it is, several adjacent ones are fused one after the other, and
    what they become takes their place. -/
theorem fuse_inv {axes : List Operand} {fused : IterVar} (h : (fuse axes).Yields st g fused st' g') :
    (st' = st ∧ g' = g) ∨ ∃ outer ivs front back st₁, 1 < axes.length ∧ st.legals .fuse axes = .ok (outer :: ivs) ∧
      (∀ iv ∈ ivs, iv.kind = .reduction ↔ outer.kind = .reduction) ∧ st.leaves = front ++ outer :: (ivs ++ back) ∧
      (ivs.foldlM fusePair outer).Yields st g fused st₁ g' ∧ st' = { st₁ with leaves := front ++ fused :: back } := by
  unfold fuse at h
  rw [Edit.yields_get_bind] at h
  split at h
  · exact absurd h Edit.not_yields_throw
  · obtain ⟨-, rfl, rfl⟩ := Edit.yields_liftExcept.mp h
    exact Or.inl ⟨rfl, rfl⟩
  · simp only [Edit.yields_liftExcept_bind] at h
    obtain ⟨ivs, hivs, positions, hps, h⟩ := h
    have hpos := positions_of_legals hivs hps
    split at h
    · exact absurd h Edit.not_yields_throw_bind
    split at h
    · exact absurd h Edit.not_yields_throw_bind
    rename_i hnil hsingle hrange hkinds
    simp only [bne_iff_ne, ne_eq, Decidable.not_not] at hrange
    have hlen : 1 < axes.length := by
      match axes, hnil, hsingle with
      | [], hnil, _ => exact (hnil rfl).elim
      | [axis], _, hsingle => exact (hsingle axis rfl).elim
      | _ :: _ :: _, _, _ => exact Nat.succ_lt_succ (Nat.succ_pos _)
    obtain _ | ⟨outer, ivs⟩ := ivs
    · obtain rfl : positions = [] := by
        cases hpos
        rfl
      rw [List.headD_nil] at hrange
      exact absurd (List.map_eq_nil_iff.mp hrange.symm) (by simpa using hnil)
    have huniform : ∀ iv ∈ ivs, iv.kind = .reduction ↔ outer.kind = .reduction := by
      have hflags : ∀ iv ∈ ivs, (iv.kind == .reduction) = (outer.kind == .reduction) := by simpa using hkinds
      exact fun iv hiv => by simpa using Bool.eq_iff_iff.mp (hflags iv hiv)
    rw [hrange] at hpos
    generalize positions.headD 0 = start at hpos h
    rw [Edit.yields_bind] at h
    obtain ⟨fused', st₁, g₁, hpairs, h⟩ := h
    rw [Edit.yields_modify_bind, Edit.yields_pure] at h
    obtain ⟨rfl, rfl, rfl⟩ := h
    refine Or.inr ⟨outer, ivs, st.leaves.take start, st.leaves.drop (start + axes.length), st₁, hlen, hivs, huniform,
      eq_append_of_positions hpos, hpairs, ?_⟩
    rw [splice, leaves_fusePairs hpairs, List.append_assoc]
    rfl

theorem steps_fuse {axes : List Operand} {fused : IterVar} (h : (fuse axes).Yields st g fused st' g') :
    Steps g.next st g'.next st' := by
  obtain ⟨rfl, rfl⟩ | ⟨outer, ivs, front, back, st₁, -, -, huniform, hleaves, hpairs, rfl⟩ := fuse_inv h
  · exact .refl ..
  · have hsteps := steps_fusePairs front back huniform hpairs
    rw [← hleaves] at hsteps
    exact hsteps

/-- What reordering does: the leaf axes change places. -/
theorem reorder_inv {axes : List Operand} {u : Unit} (h : (reorder axes).Yields st g u st' g') :
    ∃ leaves, leaves.Perm st.leaves ∧ st' = { st with leaves } ∧ g' = g := by
  unfold reorder at h
  rw [Edit.yields_get_bind, Edit.yields_liftExcept_bind] at h
  obtain ⟨ivs, hivs, h⟩ := h
  simp only at h
  split at h
  · exact absurd h Edit.not_yields_throw_bind
  rename_i hdistinct
  simp only [Bool.not_eq_true', decide_eq_false_iff_not, Decidable.not_not] at hdistinct
  rw [Edit.yields_liftExcept_bind] at h
  obtain ⟨ps, hps, h⟩ := h
  obtain ⟨rfl, rfl⟩ := Edit.yields_set.mp h
  refine ⟨_, ?_, rfl, rfl⟩
  have hpos := positions_of_legals hivs hps
  obtain ⟨us, hus, hperm⟩ := List.perm_comp_forall₂ (List.mergeSort_perm ps _) hpos
  have hlen : (ps.mergeSort).length = ivs.length := by
    rw [List.length_mergeSort, hpos.length_eq]
  have hplace := perm_place ((List.mergeSort_perm ps _).nodup_iff.mpr (nodup_positions hpos hdistinct)) hus hlen
  exact (List.perm_append_right_iff ivs).mp ((hperm.append_left _).symm.trans hplace)

theorem steps_reorder {axes : List Operand} {u : Unit} (h : (reorder axes).Yields st g u st' g') :
    Steps g.next st g'.next st' := by
  obtain ⟨leaves, hperm, rfl, rfl⟩ := reorder_inv h
  exact (Step.permute hperm).steps

/-- What tiling does: two leaf axes of the stage are split and the leaf axes change places. -/
theorem tile_inv {x y xFactor yFactor : Operand} {ivs : List IterVar}
    (h : (tile x y xFactor yFactor).Yields st g ivs st' g') :
    ∃ ix iy p st₁ g₁ q st₂ g₂, st.leaf x = .ok ix ∧ st.leaf y = .ok iy ∧
      (split x xFactor .nothing).Yields st g p st₁ g₁ ∧ (split y yFactor .nothing).Yields st₁ g₁ q st₂ g₂ ∧
      (reorder [.axis p.1, .axis q.1, .axis p.2, .axis q.2]).Yields st₂ g₂ () st' g' := by
  unfold tile at h
  rw [Edit.yields_get_bind] at h
  simp only at h
  split at h
  · exact absurd h Edit.not_yields_throw_bind
  simp only [Edit.yields_check_bind] at h
  obtain ⟨⟨⟨ix, _⟩, hx⟩, ⟨⟨iy, _⟩, hy⟩, -, -, h⟩ := h
  rw [Edit.yields_bind] at h
  obtain ⟨p, st₁, g₁, hp, h⟩ := h
  rw [Edit.yields_bind] at h
  obtain ⟨q, st₂, g₂, hq, h⟩ := h
  rw [Edit.yields_bind] at h
  obtain ⟨⟨⟩, st₃, g₃, horder, h⟩ := h
  obtain ⟨-, rfl, rfl⟩ := Edit.yields_pure.mp h
  exact ⟨ix, iy, p, st₁, g₁, q, st₂, g₂, leaf_of_splitArgs hx, leaf_of_splitArgs hy, hp, hq, horder⟩

theorem steps_tile {x y xFactor yFactor : Operand} {ivs : List IterVar}
    (h : (tile x y xFactor yFactor).Yields st g ivs st' g') : Steps g.next st g'.next st' := by
  obtain ⟨ix, iy, p, st₁, g₁, q, st₂, g₂, -, -, hp, hq, horder⟩ := tile_inv h
  exact (steps_split hp).trans ((steps_split hq).trans (steps_reorder horder))

/-! ### Annotations -/

theorem annotate_eq (st : Stage) (iv : IterVar) (f : Annotation → Annotation) :
    ∃ annotations, st.annotate iv f = { st with annotations } := by
  unfold annotate
  split
  · exact ⟨_, rfl⟩
  · exact ⟨_, rfl⟩

/-- Something new can be noted about a leaf axis. -/
theorem steps_annotate {iv : IterVar} {f : Annotation → Annotation} (hn : n ≤ n') (hiv : iv ∈ st.leaves)
    (hserial : iv.kind = .reduction → ∀ a : Annotation, a.Serial → (f a).Serial) : Steps n st n' (st.annotate iv f) := by
  obtain ⟨as, heq⟩ := st.annotate_eq iv f
  have hnotes := Notes.annotate hiv hserial
  rw [heq] at hnotes ⊢
  exact (Step.note st.scope st.doubleBuffered hn hnotes).steps

theorem leaf_mem {axis : Operand} {iv : IterVar} (h : st.leaf axis = .ok iv) : iv ∈ st.leaves := by
  obtain ⟨i, -, hget⟩ := leaf_inv h
  exact List.mem_of_getElem? hget

theorem mark_inv {action : Action} {kind : IterKind} {axis : Operand} {u : Unit}
    (h : (mark action kind axis).Yields st g u st' g') :
    ∃ iv ∈ st.leaves, st.kindOf iv ∉ action.forbidden ∧ st' = st.annotate iv (fun a => { a with kind := some kind }) ∧
      g' = g := by
  unfold mark at h
  rw [Edit.yields_get_bind, Edit.yields_liftExcept_bind] at h
  obtain ⟨iv, hiv, h⟩ := h
  obtain ⟨rfl, rfl⟩ := Edit.yields_set.mp h
  obtain ⟨hleaf, hallowed⟩ := legal_eq_ok.mp hiv
  exact ⟨iv, leaf_mem hleaf, hallowed, rfl, rfl⟩

/-- An axis of a reduction can only be marked if its iterations stay in order. -/
theorem steps_mark {action : Action} {kind : IterKind} {axis : Operand} {u : Unit}
    (hkind : kind = .unrolled ∨ IterKind.threadIndex ∈ action.forbidden ∧ IterKind.reduction ∈ action.forbidden)
    (h : (mark action kind axis).Yields st g u st' g') : Steps g.next st g'.next st' := by
  obtain ⟨iv, hiv, hallowed, rfl, rfl⟩ := mark_inv h
  refine steps_annotate (Nat.le_refl _) hiv fun hred a ha => ?_
  obtain rfl | ⟨hthread, hreduction⟩ := hkind
  · exact ⟨⟨nofun, nofun⟩, ha.thread⟩
  · unfold kindOf at hallowed
    split at hallowed
    · exact absurd hthread hallowed
    · exact absurd (hred ▸ hreduction) hallowed

theorem bind_inv {axis thread : Operand} {u : Unit} (h : (bind axis thread).Yields st g u st' g') :
    ∃ t iv, iv ∈ st.leaves ∧ (iv.kind = .reduction → isThreadTag t.tag = true) ∧
      st' = st.annotate iv (fun a => { a with thread := some t }) ∧ g' = g := by
  unfold bind at h
  rw [Edit.yields_get_bind] at h
  split at h
  · rename_i t
    simp only at h
    split at h
    · exact absurd h Edit.not_yields_throw_bind
    rw [Edit.yields_liftExcept_bind] at h
    obtain ⟨iv, hiv, h⟩ := h
    split at h
    · exact absurd h Edit.not_yields_throw_bind
    rename_i htag
    obtain ⟨rfl, rfl⟩ := Edit.yields_set.mp h
    exact ⟨t, iv, leaf_mem (leaf_of_legal hiv), by simpa using htag, rfl, rfl⟩
  · exact absurd h Edit.not_yields_throw

theorem steps_bind {axis thread : Operand} {u : Unit} (h : (bind axis thread).Yields st g u st' g') :
    Steps g.next st g'.next st' := by
  obtain ⟨t, iv, hiv, htag, rfl, rfl⟩ := bind_inv h
  exact steps_annotate (Nat.le_refl _) hiv fun hred a ha => ⟨ha.kind, fun t' ht' => Option.some.inj ht' ▸ htag hred⟩

theorem prefetch_inv {tensor : Subject} {axis offset : Operand} {u : Unit}
    (h : (prefetch tensor axis offset).Yields st g u st' g') : ∃ iv ∈ st.leaves, ∃ e,
      st' = (st.annotate iv fun a => { a with prefetched := a.prefetched ++ [tensor] }).annotate iv
        (fun a => { a with prefetchOffsets := a.prefetchOffsets ++ [e] }) ∧ g' = g := by
  unfold prefetch at h
  simp only [Edit.yields_get_bind, Edit.yields_liftExcept_bind, Edit.yields_modify_bind, Edit.yields_modify] at h
  obtain ⟨iv, hiv, e, -, rfl, rfl⟩ := h
  exact ⟨iv, leaf_mem hiv, e, rfl, rfl⟩

theorem steps_prefetch {tensor : Subject} {axis offset : Operand} {u : Unit}
    (h : (prefetch tensor axis offset).Yields st g u st' g') : Steps g.next st g'.next st' := by
  obtain ⟨iv, hiv, e, rfl, rfl⟩ := prefetch_inv h
  refine Steps.trans (steps_annotate (Nat.le_refl _) hiv ?_) (steps_annotate (Nat.le_refl _) ?_ ?_)
  · exact fun _ a ha => ⟨ha.kind, ha.thread⟩
  rotate_left
  · exact fun _ a ha => ⟨ha.kind, ha.thread⟩
  obtain ⟨as, heq⟩ := st.annotate_eq iv fun a => { a with prefetched := a.prefetched ++ [tensor] }
  rw [heq]
  exact hiv

/-- What is kept when a leaf axis is bound to a thread axis is kept when axes are bound to a family. -/
theorem bindFamily_keeps {I : Stage → Prop} (step : ∀ {st iv t}, I st → iv ∈ st.leaves →
      (iv.kind = .reduction → isThreadTag t.tag = true) → I (st.annotate iv fun a => { a with thread := some t }))
    {family : String} {axes : List Operand} {ts : List IterVar} (h : I st)
    (hrun : (bindFamily family axes).Yields st g ts st' g') : I st' ∧ g.next ≤ g'.next ∧ g'.ops = g.ops := by
  unfold bindFamily at hrun
  generalize axes.zip (["z", "y", "x"].drop (3 - axes.length)) = l at hrun
  induction l generalizing st g ts with
  | nil =>
    rw [List.mapM_nil, Edit.yields_pure] at hrun
    obtain ⟨-, rfl, rfl⟩ := hrun
    exact ⟨h, Nat.le_refl _, rfl⟩
  | cons p l ih =>
    rw [List.mapM_cons, Edit.yields_bind] at hrun
    obtain ⟨t, st₁, g₁, hp, hrun⟩ := hrun
    rw [Edit.yields_bind] at hrun
    obtain ⟨ts', st₂, g₂, hl, hrun⟩ := hrun
    obtain ⟨-, rfl, rfl⟩ := Edit.yields_pure.mp hrun
    rw [Edit.yields_freshVar_bind, Edit.yields_bind] at hp
    obtain ⟨_, st₃, g₃, hbind, hp⟩ := hp
    obtain ⟨-, rfl, rfl⟩ := Edit.yields_pure.mp hp
    obtain ⟨t', iv, hiv, htag, rfl, rfl⟩ := bind_inv hbind
    obtain ⟨hI, hle, hops⟩ := ih (step h hiv htag) hl
    exact ⟨hI, Nat.le_trans (Nat.le_succ _) hle, hops⟩

theorem bindFamily_inv {family : String} {axes : List Operand} {ts : List IterVar}
    (h : (bindFamily family axes).Yields st g ts st' g') :
    Steps g.next st g'.next st' ∧ (∃ annotations, st' = { st with annotations }) ∧ g'.ops = g.ops := by
  obtain ⟨⟨hsteps, as, rfl⟩, hle, hops⟩ := bindFamily_keeps
    (I := fun s => Steps g.next st g.next s ∧ ∃ annotations, s = { st with annotations })
    (fun {s iv t} ⟨hsteps, as, heq⟩ hiv htag => by
      refine ⟨hsteps.trans (steps_annotate (Nat.le_refl _) hiv fun hred a ha =>
        ⟨ha.kind, fun t' ht' => Option.some.inj ht' ▸ htag hred⟩), ?_⟩
      obtain ⟨as', heq'⟩ := s.annotate_eq iv fun a => { a with thread := some t }
      exact ⟨as', by rw [heq', heq]⟩) ⟨.refl .., st.annotations, rfl⟩ h
  have hraise : Steps g.next { st with annotations := as } g'.next { st with annotations := as } :=
    (Step.note st.scope st.doubleBuffered hle .keep).steps
  exact ⟨hsteps.trans hraise, ⟨as, rfl⟩, hops⟩

theorem bindGpu_inv {blocks threads : List Operand} {p : List IterVar × List IterVar}
    (h : (bindGpu blocks threads).Yields st g p st' g') :
    Steps g.next st g'.next st' ∧ (∃ annotations, st' = { st with annotations }) ∧ g'.ops = g.ops := by
  unfold bindGpu at h
  rw [Edit.yields_get_bind] at h
  simp only at h
  split at h
  · exact absurd h Edit.not_yields_throw_bind
  split at h
  · exact absurd h Edit.not_yields_throw_bind
  rw [Edit.yields_liftExcept_bind] at h
  obtain ⟨ivs, -, h⟩ := h
  rw [Edit.yields_bind] at h
  obtain ⟨_, st₁, g₁, hcheck, h⟩ := h
  obtain ⟨-, rfl, rfl⟩ := Edit.yields_forM_check.mp hcheck
  rw [Edit.yields_bind] at h
  obtain ⟨bs, st₂, g₂, hblocks, h⟩ := h
  rw [Edit.yields_bind] at h
  obtain ⟨ts, st₃, g₃, hthreads, h⟩ := h
  obtain ⟨-, rfl, rfl⟩ := Edit.yields_pure.mp h
  obtain ⟨hsteps, ⟨as, rfl⟩, hops⟩ := bindFamily_inv hblocks
  obtain ⟨hsteps', ⟨as', rfl⟩, hops'⟩ := bindFamily_inv hthreads
  exact ⟨hsteps.trans hsteps', ⟨as', rfl⟩, hops'.trans hops⟩

/-! ### Transforms -/

/-- A transform of one stage. -/
inductive Transform where
  | split (parent factor nparts : Operand)
  | fuse (axes : List Operand)
  | reorder (axes : List Operand)
  | tile (x y xFactor yFactor : Operand)
  | parallel (axis : Operand)
  | vectorize (axis : Operand)
  | unroll (axis : Operand)
  | bind (axis thread : Operand)
  | bindGpu (blocks threads : List Operand)
  | computeInline
  | computeRoot
  | setScope (scope : Setting)
  | doubleBuffer
  | prefetch (tensor : Subject) (axis offset : Operand)

/-- Makes a transform. -/
def Transform.run : Transform → Edit Stage Unit
  | split parent factor nparts => discard (Stage.split parent factor nparts)
  | fuse axes => discard (Stage.fuse axes)
  | reorder axes => Stage.reorder axes
  | tile x y xFactor yFactor => discard (Stage.tile x y xFactor yFactor)
  | parallel axis => Stage.parallel axis
  | vectorize axis => Stage.vectorize axis
  | unroll axis => Stage.unroll axis
  | bind axis thread => Stage.bind axis thread
  | bindGpu blocks threads => discard (Stage.bindGpu blocks threads)
  | computeInline => Stage.computeInline
  | computeRoot => Stage.computeRoot
  | setScope scope => Stage.setScope scope
  | doubleBuffer => Stage.doubleBuffer
  | prefetch tensor axis offset => Stage.prefetch tensor axis offset

/-- Where a stage is computed after a transform. -/
def Transform.place : Transform → Attach → Attach
  | computeInline, _ => .inlined
  | computeRoot, _ => .root
  | _, attach => attach

/-- Every transform of a stage sets where the stage is computed, and is made of steps. -/
theorem Transform.steps {t : Transform} {u : Unit} (h : t.run.Yields st g u st' g') :
    Steps g.next { st with attach := t.place st.attach } g'.next st' := by
  cases t with
  | split parent factor nparts =>
    obtain ⟨p, h⟩ := Edit.yields_discard.mp h
    exact steps_split h
  | fuse axes =>
    obtain ⟨iv, h⟩ := Edit.yields_discard.mp h
    exact steps_fuse h
  | reorder axes => exact steps_reorder h
  | tile x y xFactor yFactor =>
    obtain ⟨ivs, h⟩ := Edit.yields_discard.mp h
    exact steps_tile h
  | parallel axis => exact steps_mark (Or.inr (by decide)) h
  | vectorize axis => exact steps_mark (Or.inr (by decide)) h
  | unroll axis => exact steps_mark (Or.inl rfl) h
  | bind axis thread => exact steps_bind h
  | bindGpu blocks threads =>
    obtain ⟨p, h⟩ := Edit.yields_discard.mp h
    exact (bindGpu_inv h).1
  | computeInline =>
    obtain ⟨-, -, -, rfl, rfl⟩ := Schedule.computeInline_inv h
    exact .refl ..
  | computeRoot =>
    obtain ⟨rfl, rfl⟩ := Edit.yields_modify.mp h
    exact .refl ..
  | setScope scope =>
    obtain ⟨rfl, rfl⟩ := Edit.yields_modify.mp h
    exact (Step.note scope st.doubleBuffered (Nat.le_refl _) .keep).steps
  | doubleBuffer =>
    obtain ⟨rfl, rfl⟩ := Edit.yields_modify.mp h
    exact (Step.note st.scope true (Nat.le_refl _) .keep).steps
  | prefetch tensor axis offset => exact steps_prefetch h

theorem ops_of_fusePairs {ivs : List IterVar} {outer fused : IterVar}
    (h : (ivs.foldlM fusePair outer).Yields st g fused st' g') : g'.ops = g.ops := by
  induction ivs generalizing st g outer with
  | nil =>
    rw [List.foldlM_nil, Edit.yields_pure] at h
    rw [h.2.2]
  | cons iv ivs ih =>
    rw [List.foldlM_cons, Edit.yields_bind] at h
    rcases h with ⟨mid, st₁, g₁, hfuse, h⟩
    rcases fusePair_inv hfuse with ⟨-, -, -, rfl⟩
    have hrest := ih h
    exact hrest

/-- No transform of a stage makes an operation. -/
theorem Transform.ops {t : Transform} {u : Unit} (h : t.run.Yields st g u st' g') : g'.ops = g.ops := by
  have hsplit : ∀ {parent factor nparts p st g st' g'}, (Stage.split parent factor nparts).Yields st g p st' g' →
      g'.ops = g.ops := by
    intro _ _ _ _ _ _ _ _ h
    rcases split_inv h with ⟨_, _, _, _, -, -, -, -, -, -, rfl⟩
    rfl
  cases t with
  | split parent factor nparts =>
    rcases Edit.yields_discard.mp h with ⟨p, h⟩
    exact hsplit h
  | fuse axes =>
    rcases Edit.yields_discard.mp h with ⟨iv, h⟩
    rcases fuse_inv h with ⟨-, rfl⟩ | ⟨_, _, _, _, _, -, -, -, -, hfuse, -⟩
    · rfl
    · exact ops_of_fusePairs hfuse
  | reorder axes =>
    rcases reorder_inv h with ⟨_, -, -, rfl⟩
    rfl
  | tile x y xFactor yFactor =>
    rcases Edit.yields_discard.mp h with ⟨ivs, h⟩
    rcases tile_inv h with ⟨_, _, _, _, _, _, _, _, -, -, hp, hq, horder⟩
    rcases reorder_inv horder with ⟨_, -, -, rfl⟩
    exact (hsplit hq).trans (hsplit hp)
  | parallel | vectorize | unroll =>
    rcases mark_inv h with ⟨_, -, -, -, rfl⟩
    rfl
  | bind axis thread =>
    rcases bind_inv h with ⟨_, _, -, -, -, rfl⟩
    rfl
  | bindGpu blocks threads =>
    rcases Edit.yields_discard.mp h with ⟨p, h⟩
    exact (bindGpu_inv h).2.2
  | computeInline =>
    rcases Schedule.computeInline_inv h with ⟨-, -, -, -, rfl⟩
    rfl
  | computeRoot | setScope | doubleBuffer =>
    rcases Edit.yields_modify.mp h with ⟨-, rfl⟩
    rfl
  | prefetch tensor axis offset =>
    rcases prefetch_inv h with ⟨_, -, _, -, rfl⟩
    rfl

end Stage

end TensorNest

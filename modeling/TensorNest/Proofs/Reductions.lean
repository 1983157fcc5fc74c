import Mathlib.Data.List.Nodup
import TensorNest.Proofs.Derivation

/-! # Axes of reductions

The iterations over an axis of a reduction depend on each other. They must not run at the same time, except on
the threads of a block, which combine their shares. Transforms make sure of this by the kinds of axes: new axes
are of the kind of those that they are derived from, and what an axis of a reduction may be marked as and bound
to is restricted.

That kinds can be trusted is an invariant of stages (`Stage.Orderly`), together with what is noted about the
axes of reductions. It holds after any transforms but inlining (`Schedule.orderly_of_transforms`), over
operations whose axes are told apart by their kinds. -/

namespace TensorNest

/-- The axes of an operation are told apart: those that it reduces over are of that kind, and its data axes are others. -/
structure Operation.Parted (o : Operation) : Prop where
  data : ∀ iv ∈ o.axes, iv.kind ≠ .reduction
  reduce : ∀ iv ∈ o.reduceAxes, iv.kind = .reduction
  apart : ∀ iv ∈ o.axes, ∀ jv ∈ o.reduceAxes, iv.id ≠ jv.id

instance (o : Operation) : Decidable o.Parted :=
  decidable_of_iff ((∀ iv ∈ o.axes, iv.kind ≠ .reduction) ∧ (∀ iv ∈ o.reduceAxes, iv.kind = .reduction) ∧
      ∀ iv ∈ o.axes, ∀ jv ∈ o.reduceAxes, iv.id ≠ jv.id)
    ⟨fun ⟨hdata, hreduce, hapart⟩ => ⟨hdata, hreduce, hapart⟩, fun ⟨hdata, hreduce, hapart⟩ => ⟨hdata, hreduce, hapart⟩⟩

/-- The operations of a graph have axes that are told apart. -/
def Graph.Parted (g : Graph) : Prop :=
  ∀ {i o}, g.op? i = some o → o.Parted

theorem Graph.parted_iff {g : Graph} : g.Parted ↔ ∀ i < g.ops.size, ∀ o ∈ g.op? i, o.Parted :=
  ⟨fun h _ _ _ ho => h ho, fun h {_ _} ho => h _ (lt_size_of_op? ho) _ ho⟩

instance (g : Graph) : Decidable g.Parted := decidable_of_iff _ Graph.parted_iff.symm

namespace Operation.Parted

variable {o : Operation} {iv jv : IterVar}

theorem kind_iff (h : o.Parted) (hiv : iv ∈ o.rootAxes) : iv.kind = .reduction ↔ iv ∈ o.reduceAxes := by
  refine ⟨fun hkind => ?_, h.reduce iv⟩
  exact (List.mem_append.mp hiv).resolve_left fun hdata => h.data iv hdata hkind

theorem not_both (h : o.Parted) (hiv : iv ∈ o.axes) : iv ∉ o.reduceAxes :=
  fun hred => h.data iv hiv (h.reduce iv hred)

/-- Axes of one number are of one sort. -/
theorem kind_of_id (h : o.Parted) (hiv : iv ∈ o.rootAxes) (hjv : jv ∈ o.rootAxes) (hid : iv.id = jv.id) :
    iv.kind = .reduction ↔ jv.kind = .reduction := by
  rw [h.kind_iff hiv, h.kind_iff hjv]
  obtain hiv | hiv := List.mem_append.mp hiv
  · obtain hjv | hjv := List.mem_append.mp hjv
    · exact iff_of_false (h.not_both hiv) (h.not_both hjv)
    · exact absurd hid (h.apart iv hiv jv hjv)
  · obtain hjv | hjv := List.mem_append.mp hjv
    · exact absurd hid.symm (h.apart jv hjv iv hiv)
    · exact iff_of_true hiv hjv

end Operation.Parted

namespace Stage

/-- An axis is derived from an axis of the operation of a stage, by any number of relations. -/
inductive DerivedFrom (st : Stage) (root : IterVar) : IterVar → Prop
  | root (h : root ∈ st.op.rootAxes) : st.DerivedFrom root root
  | step {r : Relation} {iv jv : IterVar} (hr : r ∈ st.relations) (hiv : iv ∈ r.sources) (hjv : jv ∈ r.derived)
      (h : st.DerivedFrom root iv) : st.DerivedFrom root jv

variable {st st' : Stage} {root iv : IterVar}

theorem DerivedFrom.mono (h : st.DerivedFrom root iv) (hroots : st.op.rootAxes ⊆ st'.op.rootAxes)
    (hrel : st.relations ⊆ st'.relations) : st'.DerivedFrom root iv := by
  induction h with
  | root h => exact .root (hroots h)
  | step hr hiv hjv _ ih => exact .step (hrel hr) hiv hjv ih

/-- The kinds of the axes of a stage tell which ones run over a reduction: each axis is derived from axes of the operation,
    by relations that keep kinds. Axes of one number, and axes that share an annotation, are of one sort; and what is noted
    about the axes of a reduction keeps their iterations in order. -/
structure Orderly (n : Nat) (st : Stage) : Prop where
  parted : st.op.Parted
  numbered : ∀ iv ∈ st.all, iv.id < n
  leaves : ∀ iv ∈ st.leaves, iv ∈ st.all
  rooted : ∀ iv ∈ st.all, ∃ root, st.DerivedFrom root iv
  made : ∀ r ∈ st.relations, r.Made
  related : ∀ r ∈ st.relations, ∀ iv ∈ r.sources ++ r.derived, iv ∈ st.all
  alike : ∀ iv ∈ st.all, ∀ jv ∈ st.all, iv.id = jv.id → (iv.kind = .reduction ↔ jv.kind = .reduction)
  noted : ∀ p ∈ st.annotations, ∀ x ∈ p.1, x < n
  shared : ∀ p ∈ st.annotations, ∀ iv ∈ st.all, ∀ jv ∈ st.all, iv.id ∈ p.1 → jv.id ∈ p.1 →
    (iv.kind = .reduction ↔ jv.kind = .reduction)
  serial : ∀ p ∈ st.annotations, ∀ iv ∈ st.all, iv.id ∈ p.1 → iv.kind = .reduction → p.2.Serial

theorem orderly_of_roots {n : Nat} (hparted : st.op.Parted) (hlt : ∀ iv ∈ st.op.rootAxes, iv.id < n)
    (hall : st.all = st.op.rootAxes) (hleaves : st.leaves = st.op.rootAxes) (hrel : st.relations = [])
    (hnotes : st.annotations = []) : st.Orderly n where
  parted := hparted
  numbered := hall ▸ hlt
  leaves := by simp [hleaves, hall]
  rooted iv hiv := ⟨iv, .root (hall ▸ hiv)⟩
  made := by simp [hrel]
  related := by simp [hrel]
  alike iv hiv jv hjv := hparted.kind_of_id (hall ▸ hiv) (hall ▸ hjv)
  noted := by simp [hnotes]
  shared := by simp [hnotes]
  serial := by simp [hnotes]

namespace Orderly

variable {n n' : Nat}

/-- An axis is of the kind of a reduction if an axis that it is derived from is one. -/
theorem kind_iff (h : st.Orderly n) (hderived : st.DerivedFrom root iv) :
    iv.kind = .reduction ↔ root ∈ st.op.reduceAxes := by
  induction hderived with
  | root hroot => exact h.parted.kind_iff hroot
  | step hr hiv hjv _ ih => exact ((h.made _ hr).kind_iff hjv hiv).trans ih

/-- Only where a stage is computed and how it is stored changes. -/
theorem of_same (h : st.Orderly n) (hn : n ≤ n') (hop : st'.op = st.op) (hall : st'.all = st.all)
    (hleaves : ∀ iv ∈ st'.leaves, iv ∈ st.leaves) (hrel : st'.relations = st.relations)
    (hnotes : st'.annotations = st.annotations) : st'.Orderly n' where
  parted := hop ▸ h.parted
  numbered iv hiv := Nat.lt_of_lt_of_le (h.numbered iv (hall ▸ hiv)) hn
  leaves iv hiv := hall ▸ h.leaves iv (hleaves iv hiv)
  rooted iv hiv := by
    obtain ⟨root, hroot⟩ := h.rooted iv (hall ▸ hiv)
    exact ⟨root, hroot.mono (by rw [hop]; exact fun _ h => h) (by rw [hrel]; exact fun _ h => h)⟩
  made := hrel ▸ h.made
  related := by rw [hrel, hall]; exact h.related
  alike := hall ▸ h.alike
  noted p hp x hx := Nat.lt_of_lt_of_le (h.noted p (hnotes ▸ hp) x hx) hn
  shared := by rw [hnotes, hall]; exact h.shared
  serial := by rw [hnotes, hall]; exact h.serial

/-- Other annotations, of which the same holds. -/
theorem renote (h : st.Orderly n) {annotations : List (List Nat × Annotation)}
    (hnoted : ∀ p ∈ annotations, ∀ x ∈ p.1, x < n)
    (hshared : ∀ p ∈ annotations, ∀ iv ∈ st.all, ∀ jv ∈ st.all, iv.id ∈ p.1 → jv.id ∈ p.1 →
      (iv.kind = .reduction ↔ jv.kind = .reduction))
    (hserial : ∀ p ∈ annotations, ∀ iv ∈ st.all, iv.id ∈ p.1 → iv.kind = .reduction → p.2.Serial) :
    Orderly n { st with annotations } := by
  refine ⟨h.parted, h.numbered, h.leaves, fun iv hiv => ?_, h.made, h.related, h.alike, hnoted, hshared, hserial⟩
  obtain ⟨root, hroot⟩ := h.rooted iv hiv
  exact ⟨root, hroot.mono (fun _ h => h) fun _ h => h⟩

/-- Something new is noted about a leaf axis, and about the axes that share its annotation. -/
theorem annotate (h : st.Orderly n) {axis : IterVar} {f : Annotation → Annotation} (haxis : axis ∈ st.leaves)
    (hserial : axis.kind = .reduction → ∀ a : Annotation, a.Serial → (f a).Serial) :
    Orderly n { st with annotations := (st.annotate axis f).annotations } := by
  have hall := h.leaves axis haxis
  unfold Stage.annotate
  split
  · -- The annotation of the axis is changed, and others stay as they are.
    refine h.renote (List.forall_mem_map.mpr h.noted) (List.forall_mem_map.mpr h.shared) ?_
    refine List.forall_mem_map.mpr fun p hp iv hiv hmem hkind => ?_
    simp only
    split
    · rename_i hcontains
      have haxiskind := (h.shared p hp iv hiv axis hall hmem (by simpa using hcontains)).mp hkind
      exact hserial haxiskind _ (h.serial p hp iv hiv hmem hkind)
    · exact h.serial p hp iv hiv hmem hkind
  · -- The axis had no annotation, and now has one of its own.
    refine h.renote (List.forall_mem_append.mpr ⟨h.noted, List.forall_mem_singleton.mpr fun x hx => ?_⟩)
      (List.forall_mem_append.mpr ⟨h.shared, List.forall_mem_singleton.mpr fun iv hiv jv hjv hi hj => ?_⟩)
      (List.forall_mem_append.mpr ⟨h.serial, List.forall_mem_singleton.mpr fun iv hiv hmem hkind => ?_⟩)
    · obtain rfl := List.mem_singleton.mp hx
      exact h.numbered axis hall
    · exact h.alike iv hiv jv hjv ((List.mem_singleton.mp hi).trans (List.mem_singleton.mp hj).symm)
    · exact hserial ((h.alike iv hiv axis hall (List.mem_singleton.mp hmem)).mp hkind) _ ⟨⟨nofun, nofun⟩, nofun⟩

/-- A rebased axis shares the annotation of the axis that it is derived from. -/
theorem share (h : st.Orderly n) {leaf rebased : IterVar} (hrel : .rebase leaf rebased ∈ st.relations) :
    Orderly n { st with annotations := st.annotations.map fun (ids, a) =>
      (if ids.contains leaf.id then rebased.id :: ids else ids, a) } := by
  have hleaf : leaf ∈ st.all := h.related _ hrel leaf List.mem_cons_self
  have hrebased : rebased ∈ st.all := h.related _ hrel rebased (by simp [Relation.derived])
  have hkind : rebased.kind = .reduction ↔ leaf.kind = .reduction :=
    (h.made _ hrel).kind_iff List.mem_cons_self List.mem_cons_self
  -- An axis of a new number stands for the axis that it was rebased from.
  have hstands : ∀ p ∈ st.annotations, ∀ iv ∈ st.all, iv.id ∈ (if p.1.contains leaf.id then rebased.id :: p.1 else p.1) →
      ∃ jv ∈ st.all, jv.id ∈ p.1 ∧ (iv.kind = .reduction ↔ jv.kind = .reduction) := by
    intro p hp iv hiv hmem
    split at hmem
    · rename_i hcontains
      obtain hid | hmem := List.mem_cons.mp hmem
      · exact ⟨leaf, hleaf, by simpa using hcontains, (h.alike iv hiv rebased hrebased hid).trans hkind⟩
      · exact ⟨iv, hiv, hmem, Iff.rfl⟩
    · exact ⟨iv, hiv, hmem, Iff.rfl⟩
  refine h.renote ?_ ?_ ?_
  · refine List.forall_mem_map.mpr fun p hp x hx => ?_
    simp only at hx
    split at hx
    · obtain rfl | hx := List.mem_cons.mp hx
      · exact h.numbered rebased hrebased
      · exact h.noted p hp x hx
    · exact h.noted p hp x hx
  · refine List.forall_mem_map.mpr fun p hp iv hiv jv hjv hi hj => ?_
    obtain ⟨iv', hiv', hi', hkind'⟩ := hstands p hp iv hiv hi
    obtain ⟨jv', hjv', hj', hkind''⟩ := hstands p hp jv hjv hj
    exact hkind'.trans ((h.shared p hp iv' hiv' jv' hjv' hi' hj').trans hkind''.symm)
  · refine List.forall_mem_map.mpr fun p hp iv hiv hmem hred => ?_
    obtain ⟨jv, hjv, hmem', hkind'⟩ := hstands p hp iv hiv hmem
    exact h.serial p hp jv hjv hmem' (hkind'.mp hred)

/-- New axes are related to leaf axes of their sort, and nothing is noted about them yet. -/
theorem relate (h : st.Orderly n) {r : Relation} {leaves rest : List IterVar} (hn : n ≤ n')
    (hsources : st.leaves.Perm (r.sources ++ rest)) (hleaves : leaves.Perm (r.derived ++ rest))
    (hnew : ∀ iv ∈ r.derived, n ≤ iv.id ∧ iv.id < n') (hdistinct : (r.derived.map (·.id)).Nodup) (hmade : r.Made) :
    Orderly n' { st with leaves, all := st.all ++ r.derived, relations := st.relations ++ [r] } := by
  have hsource : ∀ iv ∈ r.sources, iv ∈ st.all := fun iv hiv =>
    h.leaves iv (hsources.mem_iff.mpr (List.mem_append_left _ hiv))
  have hrest : ∀ iv ∈ rest, iv ∈ st.all := fun iv hiv =>
    h.leaves iv (hsources.mem_iff.mpr (List.mem_append_right _ hiv))
  have hsome : ∀ iv ∈ r.derived, ∃ jv, jv ∈ r.sources := fun iv hiv =>
    let ⟨jv, hjv, _⟩ := hmade.alike iv hiv
    ⟨jv, List.mem_of_mem_head? hjv⟩
  have hfresh : ∀ iv ∈ st.all, ∀ jv ∈ r.derived, iv.id ≠ jv.id := fun iv hiv jv hjv heq => by
    have := h.numbered iv hiv
    have := (hnew jv hjv).1
    omega
  have hunnoted : ∀ p ∈ st.annotations, ∀ iv ∈ r.derived, iv.id ∉ p.1 := fun p hp iv hiv hmem => by
    have := h.noted p hp _ hmem
    have := (hnew iv hiv).1
    omega
  have hold : ∀ p ∈ st.annotations, ∀ iv ∈ st.all ++ r.derived, iv.id ∈ p.1 → iv ∈ st.all := fun p hp iv hiv hmem =>
    (List.mem_append.mp hiv).resolve_right fun hder => hunnoted p hp iv hder hmem
  have hmono : ∀ {root iv}, st.DerivedFrom root iv →
      DerivedFrom { st with leaves, all := st.all ++ r.derived, relations := st.relations ++ [r] } root iv :=
    fun hroot => hroot.mono (fun _ h => h) fun _ h => List.mem_append_left _ h
  refine ⟨h.parted, ?_, fun iv hiv => ?_, ?_, ?_, ?_, fun iv hiv jv hjv hid => ?_, fun p hp x hx => ?_,
    fun p hp iv hiv jv hjv hi hj => ?_, fun p hp iv hiv hmem hkind => ?_⟩
  · exact List.forall_mem_append.mpr
      ⟨fun iv hiv => Nat.lt_of_lt_of_le (h.numbered iv hiv) hn, fun iv hiv => (hnew iv hiv).2⟩
  · obtain hiv | hiv := List.mem_append.mp (hleaves.mem_iff.mp hiv)
    · exact List.mem_append_right _ hiv
    · exact List.mem_append_left _ (hrest iv hiv)
  · refine List.forall_mem_append.mpr ⟨fun iv hiv => ?_, fun iv hiv => ?_⟩
    · obtain ⟨root, hroot⟩ := h.rooted iv hiv
      exact ⟨root, hmono hroot⟩
    · obtain ⟨jv, hjv⟩ := hsome iv hiv
      obtain ⟨root, hroot⟩ := h.rooted jv (hsource jv hjv)
      exact ⟨root, .step (List.mem_append_right _ List.mem_cons_self) hjv hiv (hmono hroot)⟩
  · exact List.forall_mem_append.mpr ⟨h.made, List.forall_mem_singleton.mpr hmade⟩
  · refine List.forall_mem_append.mpr ⟨fun q hq iv hiv => List.mem_append_left _ (h.related q hq iv hiv), ?_⟩
    refine List.forall_mem_singleton.mpr (List.forall_mem_append.mpr ⟨fun iv hiv => ?_, fun iv hiv => ?_⟩)
    · exact List.mem_append_left _ (hsource iv hiv)
    · exact List.mem_append_right _ hiv
  · obtain hiv | hiv := List.mem_append.mp hiv
    · obtain hjv | hjv := List.mem_append.mp hjv
      · exact h.alike iv hiv jv hjv hid
      · exact absurd hid (hfresh iv hiv jv hjv)
    · obtain hjv | hjv := List.mem_append.mp hjv
      · exact absurd hid.symm (hfresh jv hjv iv hiv)
      · rw [List.inj_on_of_nodup_map hdistinct hiv hjv hid]
  · exact Nat.lt_of_lt_of_le (h.noted p hp x hx) hn
  · exact h.shared p hp iv (hold p hp iv hiv hi) jv (hold p hp jv hjv hj) hi hj
  · exact h.serial p hp iv (hold p hp iv hiv hmem) hmem hkind

theorem step (h : st.Orderly n) (hstep : Step n st n' st') : st'.Orderly n' := by
  cases hstep with
  | note scope doubleBuffered hn hnotes =>
    cases hnotes with
    | keep => exact h.of_same hn rfl rfl (fun _ h => h) rfl rfl
    | annotate hiv hserial => exact (h.annotate hiv hserial).of_same hn rfl rfl (fun _ h => h) rfl rfl
    | share hrel => exact (h.share hrel).of_same hn rfl rfl (fun _ h => h) rfl rfl
  | permute hperm => exact h.of_same (Nat.le_refl _) rfl rfl (fun iv hiv => hperm.mem_iff.mp hiv) rfl rfl
  | relate r rest hn hsources hleaves hnew hdistinct hmade => exact h.relate hn hsources hleaves hnew hdistinct hmade

end Orderly

/-- Copies of axes are of the kinds of the axes. -/
theorem kind_copiesFrom {n : Nat} {ivs : List IterVar} (h : iv ∈ Schedule.copiesFrom n ivs) :
    ∃ jv ∈ ivs, iv.kind = jv.kind := by
  induction ivs generalizing n with
  | nil => cases h
  | cons jv ivs ih =>
    obtain rfl | h := List.mem_cons.mp h
    · exact ⟨jv, List.mem_cons_self, rfl⟩
    · obtain ⟨kv, hkv, hkind⟩ := ih h
      exact ⟨kv, List.mem_cons_of_mem _ hkv, hkind⟩

/-- The axes of a cache are told apart as those of the operation are. -/
theorem parted_cacheOp {o : Operation} (h : o.Parted) (g : Graph) (scope : Setting) :
    (Schedule.cacheOp g scope o).Parted := by
  have haxes : (Schedule.cacheOp g scope o).axes = Schedule.copiesFrom g.next o.axes := rfl
  have hreduce : (Schedule.cacheOp g scope o).reduceAxes = Schedule.copiesFrom (g.next + o.axes.length) o.reduceAxes := by
    have hroots := Schedule.rootAxes_cacheOp g scope o
    rw [Operation.rootAxes, haxes, Operation.rootAxes, ← Schedule.copiesFrom_append] at hroots
    exact List.append_cancel_left hroots
  refine ⟨fun iv hiv => ?_, fun iv hiv => ?_, fun iv hiv jv hjv => ?_⟩
  · obtain ⟨jv, hjv, hkind⟩ := kind_copiesFrom (haxes ▸ hiv)
    rw [hkind]
    exact h.data jv hjv
  · obtain ⟨jv, hjv, hkind⟩ := kind_copiesFrom (hreduce ▸ hiv)
    rw [hkind]
    exact h.reduce jv hjv
  · have := (Schedule.mem_ids_copiesFrom.mp (List.mem_map_of_mem (haxes ▸ hiv))).2
    have := (Schedule.mem_ids_copiesFrom.mp (List.mem_map_of_mem (hreduce ▸ hjv))).1
    omega

/-- The copy of a cache reduces over nothing. -/
theorem parted_copyOp {o : Operation} (h : o.Parted) (g : Graph) (cache : Operation) :
    (Schedule.copyOp g cache o).Parted := by
  refine ⟨fun iv hiv => ?_, fun iv hiv => (List.not_mem_nil hiv).elim, fun _ _ jv hjv => (List.not_mem_nil hjv).elim⟩
  obtain ⟨jv, hjv, hkind⟩ := kind_copiesFrom (show iv ∈ Schedule.copiesFrom _ o.axes from hiv)
  rw [hkind]
  exact h.data jv hjv

/-- Transforms keep stages orderly. -/
theorem orderly_kept : Kept Orderly where
  attach attach h := h.of_same (Nat.le_refl _) rfl rfl (fun _ h => h) rfl rfl
  step h hstep := h.step hstep
  rewrite {n st op} h haxes hreduce := by
    have hroots : op.rootAxes = st.op.rootAxes := by rw [Operation.rootAxes, haxes, hreduce, ← Operation.rootAxes]
    refine ⟨⟨haxes ▸ h.parted.data, hreduce ▸ h.parted.reduce, ?_⟩, h.numbered, h.leaves, fun iv hiv => ?_, h.made,
      h.related,
      h.alike, h.noted, h.shared, h.serial⟩
    · rw [haxes, hreduce]
      exact h.parted.apart
    · obtain ⟨root, hroot⟩ := h.rooted iv hiv
      exact ⟨root, hroot.mono (by rw [← hroots]; exact fun _ h => h) fun _ h => h⟩
  cache {g st} id scope h := by
    have hnext : (Schedule.cachedGraph g scope st.op).next = g.next + st.op.rootAxes.length + st.op.axes.length := rfl
    refine orderly_of_roots (parted_cacheOp h.parted g scope) (fun iv hiv => ?_) rfl rfl rfl rfl
    rw [show (Schedule.cacheStage id (Schedule.cacheOp g scope st.op) scope).op = Schedule.cacheOp g scope st.op from rfl,
      Schedule.rootAxes_cacheOp] at hiv
    have := (Schedule.mem_ids_copiesFrom.mp (List.mem_map_of_mem hiv)).2
    omega
  copy {g st} scope h hrel hnotes := by
    have hnext : (Schedule.cachedGraph g scope st.op).next = g.next + st.op.rootAxes.length + st.op.axes.length := rfl
    have hcopy := Schedule.rootAxes_copyOp g (Schedule.cacheOp g scope st.op) st.op
    refine orderly_of_roots (parted_copyOp h.parted g _) (fun iv hiv => ?_) hcopy.symm hcopy.symm hrel hnotes
    rw [show Operation.rootAxes _ = _ from hcopy] at hiv
    have := (Schedule.mem_ids_copiesFrom.mp (List.mem_map_of_mem hiv)).2
    omega

end Stage

namespace Schedule

variable {s s₀ : Schedule} {g g₀ g₁ : Graph} {st : Stage}

theorem Untouched.orderly {n : Nat} (h : s.Untouched)
    (hops : ∀ st ∈ s.stages, st.op.Parted ∧ ∀ iv ∈ st.op.rootAxes, iv.id < n) : s.Each Stage.Orderly n := by
  intro st hst
  obtain ⟨hall, hleaves, hrel⟩ := h.axes st hst
  obtain ⟨hparted, hlt⟩ := hops st hst
  refine ⟨Stage.orderly_of_roots hparted hlt hall hleaves hrel (h.notes st hst), ?_⟩
  rw [h.root st hst]
  nofun

/-- After any transforms but inlining, an axis of a stage is of the kind of reductions if and only if all axes of the
    operation that it is derived from are reduced over, and no axis is derived from both sorts. No leaf axis that is derived
    from an axis of a reduction is marked as parallel or vectorized, or bound to a thread axis that does not run over the
    threads of a block. -/
theorem orderly_of_transforms {outputs : List Operation} {ts : List Transform} (hnum : g₀.Numbered) (hparted : g₀.Parted)
    (hout : ∀ o ∈ outputs, g₀.op? o.idx = some o) (hcreate : (create outputs).Yields g₀ s₀ g₁)
    (hts : ∀ id, .onStage id .computeInline ∉ ts) (hrun : (ts.forM Transform.run).Yields s₀ g₁ () s g)
    (hst : st ∈ s.stages) :
    (∀ iv ∈ st.all, (∃ root, st.DerivedFrom root iv) ∧
      (iv.kind = .reduction ↔ ∀ root, st.DerivedFrom root iv → root ∈ st.op.reduceAxes) ∧
      ∀ root root', st.DerivedFrom root iv → st.DerivedFrom root' iv → root ∈ st.op.reduceAxes → root' ∉ st.op.axes) ∧
    ∀ leaf ∈ st.leaves, ∀ root ∈ st.op.reduceAxes, st.DerivedFrom root leaf → ∀ a ∈ st.annotation? leaf,
      a.kind ≠ some .parallelized ∧ a.kind ≠ some .vectorized ∧ ∀ t ∈ a.thread, t.tag.startsWith "threadIdx" = true := by
  obtain ⟨rfl, huntouched, hops⟩ := create_untouched
    (Q := fun o => o.Parted ∧ ∀ iv ∈ o.rootAxes, iv.id < g₀.next) (fun ho => ⟨hparted ho, hnum ho⟩)
    (fun o ho => ⟨hparted (hout o ho), hnum (hout o ho)⟩) hcreate
  have horderly := ((huntouched.orderly hops).transforms Stage.orderly_kept hts hrun st hst).1
  refine ⟨fun iv hiv => ?_, fun leaf hleaf root hroot hderived a ha => ?_⟩
  · obtain ⟨root₀, hroot₀⟩ := horderly.rooted iv hiv
    refine ⟨⟨root₀, hroot₀⟩, ⟨fun hkind root hroot => ?_, fun hall => ?_⟩, fun root root' hroot hroot' hred hdata => ?_⟩
    · exact (horderly.kind_iff hroot).mp hkind
    · exact (horderly.kind_iff hroot₀).mpr (hall root₀ hroot₀)
    · exact horderly.parted.not_both hdata ((horderly.kind_iff hroot').mp ((horderly.kind_iff hroot).mpr hred))
  · obtain ⟨p, hp, rfl⟩ := Option.map_eq_some_iff.mp ha
    have hmem : leaf.id ∈ p.1 := by simpa using List.find?_some hp
    have hserial := horderly.serial p (List.mem_of_find?_eq_some hp) leaf (horderly.leaves leaf hleaf) hmem
      ((horderly.kind_iff hderived).mpr hroot)
    exact ⟨hserial.kind.1, hserial.kind.2, hserial.thread⟩

/-! ### A reduction over threads -/

namespace Spread

open Tiled (graph sums operand number start graph_numbered outputs_sums start_yields)

def thread : IterVar :=
  ⟨none, ⟨6, "threadIdx.x", .int32⟩, .threadIndex, "threadIdx.x"⟩

/-- The reduction axis, which starts at 1, is rebased and split, and its inner part is bound to the threads of a block. The
    data axes are fused and marked as parallel. -/
def transforms : List Transform :=
  [.normalize, .onStage 1 (.split (operand 9) (number 2) .nothing), .onStage 1 (.bind (operand 11) (.axis thread)),
    .onStage 1 (.fuse [operand 1, operand 2]), .onStage 1 (.parallel (operand 12))]

def run : Edit Schedule Unit := transforms.forM Transform.run

def result : Schedule := (run.outcome start graph).1.2

def resultGraph : Graph := (run.outcome start graph).2

theorem run_spreads : run.Yields start graph () result resultGraph := by
  unfold result resultGraph
  exact Edit.yields_outcome (by decide +kernel)

theorem graph_parted : graph.Parted := by decide

theorem transforms_spread (id : Nat) : Transform.onStage id .computeInline ∉ transforms := by
  simp [transforms]

/-- The kinds of the leaf axes, the kinds that their marks give them and the tags of the threads that they are bound to. -/
def leafNotes (st : Stage) : List (IterKind × Option IterKind × Option String) :=
  st.leaves.map fun iv => (iv.kind, (st.annotation? iv).bind (·.kind), (st.annotation? iv).bind (·.thread.map (·.tag)))

theorem orderly_result :
    result.stages.map leafNotes = [[], [(.dataParallel, some .parallelized, none), (.reduction, none, none),
        (.reduction, none, some "threadIdx.x")]] ∧
      ∀ st ∈ result.stages, (∀ iv ∈ st.all, (∃ root, st.DerivedFrom root iv) ∧
          (iv.kind = .reduction ↔ ∀ root, st.DerivedFrom root iv → root ∈ st.op.reduceAxes) ∧
          ∀ root root', st.DerivedFrom root iv → st.DerivedFrom root' iv → root ∈ st.op.reduceAxes → root' ∉ st.op.axes) ∧
        ∀ leaf ∈ st.leaves, ∀ root ∈ st.op.reduceAxes, st.DerivedFrom root leaf → ∀ a ∈ st.annotation? leaf,
          a.kind ≠ some .parallelized ∧ a.kind ≠ some .vectorized ∧
            ∀ t ∈ a.thread, t.tag.startsWith "threadIdx" = true := by
  refine ⟨by decide +kernel, fun st hst => ?_⟩
  exact orderly_of_transforms graph_numbered graph_parted outputs_sums start_yields transforms_spread run_spreads hst

end Spread

end Schedule

end TensorNest

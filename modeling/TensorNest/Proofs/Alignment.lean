import TensorNest.Proofs.Coverage

/-! # Data axes beside axes of a reduction

The axes of a stage that reduces fall apart into those that come from the data axes of its operation and those that come
from the axes of the reduction, because no relation mixes the two. Each part is split and guarded as if it were alone
(`Stage.dataPart`), and so are both together (`Stage.flat`). A nest over all leaves therefore reaches each point of all
axes once (`all_once`), a nest over the data leaves reaches each data point once (`data_once`), and both agree where a
data point is (`reached_data`): where the update is, the start was at the same data leaves. -/

namespace TensorNest

/-- Variables have the values that they are given, if they are distinct. -/
theorem Valuation.map_assign_map {α V : Type} [Inhabited V] (as : List α) (f : α → Var)
    (hdistinct : ((as.map f).map (·.id)).Nodup) (xs : List V) (hlen : xs.length = as.length) (ρ : Valuation V) :
    (as.map fun a => ρ.assign (as.map f) xs (f a).id) = xs := by
  have hmap := map_assign hdistinct (h := by rw [List.length_map, hlen]) ρ
  rwa [List.map_map] at hmap

theorem points_append {α : Type} (ls ls' : List (List α)) :
    points (ls ++ ls') = (points ls).flatMap fun p => (points ls').map (p ++ ·) := by
  induction ls with
  | nil => simp [points]
  | cons xs ls ih =>
    simp only [List.cons_append, points, ih, List.flatMap_assoc, List.map_flatMap, List.flatMap_map, List.map_map]
    rfl

/-- Points can be gone through in two parts. -/
theorem flatMap_points_append {α β γ : Type} (xs ys : List γ) (d : γ → List α) (F : List α → List β) :
    (points ((xs ++ ys).map d)).flatMap F = (points (xs.map d)).flatMap fun p => (points (ys.map d)).flatMap fun q =>
    F (p ++ q) := by
  rw [List.map_append, points_append, List.flatMap_assoc]
  exact List.flatMap_congr fun p _ => List.flatMap_map ..

theorem append_mem_points {α : Type} {ls ls' : List (List α)} {x k : List α} (hx : x ∈ points ls) :
    x ++ k ∈ points (ls ++ ls') ↔ k ∈ points ls' := by
  simp only [points_append, List.mem_flatMap, List.mem_map]
  refine ⟨fun ⟨p, hp, q, hq, heq⟩ => ?_, fun hk => ⟨x, hx, k, hk, rfl⟩⟩
  obtain ⟨-, rfl⟩ := List.append_inj heq ((length_of_mem_points hp).trans (length_of_mem_points hx).symm)
  exact hq

/-- The points of intervals. -/
theorem mem_points_ints {α : Type} {axes : List α} {lo size : α → Int} {x : List Int} :
    x ∈ points (axes.map fun a => ints (lo a) (size a)) ↔
      List.Forall₂ (fun a k => lo a ≤ k ∧ k < lo a + size a) axes x := by
  rw [mem_points, List.forall₂_map_right_iff]
  simp only [mem_ints]
  exact ⟨List.Forall₂.flip, List.Forall₂.flip⟩

namespace Relation

variable {roots : List IterVar} {r : Relation} {rs : List Relation} {p : IterVar → Bool}

/-- Whether a relation starts from axes of a sort. -/
def starts (p : IterVar → Bool) (r : Relation) : Bool :=
  r.sources.all p

theorem Over.starts (h : r.Over (p · = true)) : r.starts p = true :=
  List.all_eq_true.mpr fun iv hiv => h iv (List.mem_append_left _ hiv)

theorem Over.not_starts (h : r.Over (¬p · = true)) : r.starts p = false := by
  have hnot : ∀ iv ∈ r.sources ++ r.derived, ¬p iv = true := h
  cases r with
  | split | fuse | rebase =>
    refine List.all_eq_false.mpr ⟨_, List.mem_cons_self, hnot _ List.mem_cons_self⟩

/-- The axes of a sort are the roots of the sort and what is derived from axes of the sort. -/
theorem axesOf_filter (hsorts : ∀ r ∈ rs, r.Over (p · = true) ∨ r.Over (¬p · = true)) :
    axesOf (roots.filter p) (rs.filter (starts p)) = (axesOf roots rs).filter p := by
  induction rs generalizing roots with
  | nil => simp [axesOf]
  | cons r rs ih =>
    obtain ⟨hr, hrs⟩ := List.forall_mem_cons.mp hsorts
    rw [axesOf_cons, ← ih hrs, List.filter_append]
    obtain hover | hover := hr
    · rw [List.filter_cons_of_pos hover.starts, axesOf_cons,
        List.filter_eq_self.mpr fun iv hiv => hover iv (List.mem_append_right _ hiv)]
    · rw [List.filter_cons_of_neg (by rw [hover.not_starts]; exact Bool.false_ne_true),
        List.filter_eq_nil_iff.mpr fun iv hiv => hover iv (List.mem_append_right _ hiv), List.append_nil]

theorem Ordered.filter (h : Ordered roots rs) (hsorts : ∀ r ∈ rs, r.Over (p · = true) ∨ r.Over (¬p · = true)) :
    Ordered (roots.filter p) (rs.filter (starts p)) := by
  induction rs generalizing roots with
  | nil => exact ordered_nil
  | cons r rs ih =>
    obtain ⟨hr, hrs⟩ := List.forall_mem_cons.mp hsorts
    rw [ordered_cons] at h
    have hrest := ih h.2 hrs
    rw [List.filter_append] at hrest
    obtain hover | hover := hr
    · rw [List.filter_eq_self.mpr fun iv hiv => hover iv (List.mem_append_right _ hiv)] at hrest
      rw [List.filter_cons_of_pos hover.starts, ordered_cons]
      exact ⟨fun iv hiv => List.mem_filter.mpr ⟨h.1 iv hiv, hover iv (List.mem_append_left _ hiv)⟩, hrest⟩
    · rw [List.filter_eq_nil_iff.mpr fun iv hiv => hover iv (List.mem_append_right _ hiv), List.append_nil] at hrest
      rwa [List.filter_cons_of_neg (by rw [hover.not_starts]; exact Bool.false_ne_true)]

/-- New axes of a relation that a transform makes are of the sort of those that it starts from. -/
theorem Made.sorts (h : r.Made) (b : Bool) :
    r.Over (fun iv => (iv.kind == .reduction) = b) ∨ r.Over fun iv => ¬(iv.kind == .reduction) = b := by
  obtain ⟨jv, hjv⟩ : ∃ jv, jv ∈ r.sources := by
    cases r with
    | split | fuse | rebase => exact ⟨_, List.mem_cons_self⟩
  have hsame : ∀ iv ∈ r.sources ++ r.derived, (iv.kind == .reduction) = (jv.kind == .reduction) := by
    refine List.forall_mem_append.mpr ⟨fun iv hiv => ?_, fun iv hiv => ?_⟩
    · exact Bool.eq_iff_iff.mpr (by simpa using h.uniform iv hiv jv hjv)
    · exact Bool.eq_iff_iff.mpr (by simpa using h.kind_iff hiv hjv)
  by_cases hb : (jv.kind == .reduction) = b
  · exact Or.inl fun iv hiv => (hsame iv hiv).trans hb
  · exact Or.inr fun iv hiv heq => hb ((hsame iv hiv).symm.trans heq)

end Relation

namespace Operation

/-- The data axes of an operation, as those of an operation that does not reduce. -/
def dataPart (o : Operation) : Operation :=
  { o with definition := .compute o.axes [] }

/-- All axes of an operation, as those of an operation that does not reduce. -/
def flat (o : Operation) : Operation :=
  { o with definition := .compute o.rootAxes [] }

theorem rootAxes_dataPart (o : Operation) : o.dataPart.rootAxes = o.axes :=
  List.append_nil _

theorem rootAxes_flat (o : Operation) : o.flat.rootAxes = o.rootAxes :=
  List.append_nil _

theorem Parted.filter_rootAxes {o : Operation} (h : o.Parted) : o.rootAxes.filter (·.kind != .reduction) = o.axes := by
  rw [rootAxes, List.filter_append, List.filter_eq_self.mpr fun iv hiv => by simpa using h.data iv hiv,
    List.filter_eq_nil_iff.mpr fun iv hiv => by simpa using h.reduce iv hiv, List.append_nil]

end Operation

namespace Stage

variable {Γ : Context} {ρ : Valuation Int} {L E V : Nat → Int} {m : Ranges} {values : AxisValues} {st : Stage}
  {c : NestContext}

/-- The data axes of a stage, as a stage of their own. -/
def dataPart (st : Stage) : Stage :=
  { st with
    op := st.op.dataPart
    leaves := st.leaves.filter (·.kind != .reduction)
    all := st.all.filter (·.kind != .reduction)
    relations := st.relations.filter (Relation.starts (·.kind != .reduction)) }

/-- A stage with all its axes, as the stage of an operation that does not reduce. -/
def flat (st : Stage) : Stage :=
  { st with op := st.op.flat }

/-- The relations of a stage go from data axes to data axes, and from axes of a reduction to such axes. -/
theorem sorts_of_made (hmade : ∀ r ∈ st.relations, r.Made) :
    ∀ r ∈ st.relations, r.Over (fun iv => (iv.kind != .reduction) = true) ∨
      r.Over fun iv => ¬(iv.kind != .reduction) = true := by
  intro r hr
  simpa [bne] using (hmade r hr).sorts false

theorem Consistent.flat (h : st.Consistent) : st.flat.Consistent := by
  obtain ⟨hall, hdistinct, hleavesDistinct, hleaves, honce, hordered⟩ := h
  rw [← Operation.rootAxes_flat] at hall hordered
  exact ⟨hall, hdistinct, hleavesDistinct, hleaves, honce, hordered⟩

theorem Measured.flat (h : st.Measured Γ ρ L E m) : st.flat.Measured Γ ρ L E m where
  consistent := h.consistent.flat
  extents := h.extents
  nonneg := h.nonneg
  sized := h.sized
  starts iv hiv := h.starts iv (Operation.rootAxes_flat st.op ▸ hiv)

theorem Consistent.dataPart (h : st.Consistent) (hparted : st.op.Parted) (hmade : ∀ r ∈ st.relations, r.Made) :
    st.dataPart.Consistent := by
  have hsorts := sorts_of_made hmade
  have hroots : st.dataPart.op.rootAxes = st.op.rootAxes.filter (·.kind != .reduction) :=
    (Operation.rootAxes_dataPart st.op).trans hparted.filter_rootAxes.symm
  have hids : st.dataPart.consumedIds.Sublist st.consumedIds :=
    (List.filter_sublist.flatMap _).map _
  refine ⟨?_, h.distinct.sublist (List.filter_sublist.map _), h.leavesDistinct.sublist (List.filter_sublist.map _),
    fun iv => ?_,
    h.once.sublist hids, ?_⟩
  · rw [hroots]
    exact (congrArg (List.filter _) h.all).trans (Relation.axesOf_filter hsorts).symm
  · have hconsumed : iv ∈ st.all → (iv.kind != .reduction) = true →
        (iv.id ∈ st.dataPart.consumedIds ↔ iv.id ∈ st.consumedIds) := by
      refine fun hiv hdata => ⟨fun hmem => hids.subset hmem, fun hmem => ?_⟩
      obtain ⟨jv, hjv, heq⟩ := List.mem_map.mp hmem
      obtain ⟨r, hr, hsource⟩ := List.mem_flatMap.mp hjv
      obtain rfl : jv = iv :=
        List.inj_on_of_nodup_map h.distinct (h.mem_all hr (List.mem_append_left _ hsource)) hiv heq
      have hover := (hsorts r hr).resolve_right fun hover => hover jv (List.mem_append_left _ hsource) hdata
      exact List.mem_map_of_mem (List.mem_flatMap.mpr ⟨r, List.mem_filter.mpr ⟨hr, hover.starts⟩, hsource⟩)
    show iv ∈ st.leaves.filter _ ↔ iv ∈ st.all.filter _ ∧ _
    rw [List.mem_filter, List.mem_filter, h.leaves, and_assoc, and_assoc]
    refine and_congr_right fun hiv => ?_
    rw [and_comm]
    exact and_congr_right fun hdata => not_congr (hconsumed hiv hdata).symm
  · rw [hroots]
    exact h.ordered.filter hsorts

theorem Measured.dataPart (h : st.Measured Γ ρ L E m) (hparted : st.op.Parted) (hmade : ∀ r ∈ st.relations, r.Made) :
    st.dataPart.Measured Γ ρ L E m where
  consistent := h.consistent.dataPart hparted hmade
  extents iv hiv := h.extents iv (List.mem_filter.mp hiv).1
  nonneg iv hiv := h.nonneg iv (List.mem_filter.mp hiv).1
  sized r hr := h.sized r (List.mem_filter.mp hr).1
  starts iv hiv := h.starts iv (List.mem_append_left _ (Operation.rootAxes_dataPart st.op ▸ hiv))

end Stage

/-! ### Where a nest is -/

namespace NestContext

/-- What is put for the axis of an operation. -/
def rootExpr (σ : Subst) (iv : IterVar) : Expr :=
  (σ.find? iv.var).getD (.var iv.var)

/-- Where a nest is along some axes: at the values of what is put for them, unless a guard does not hold. -/
def reached (σ : Subst) (guards : List Expr) (axes : List IterVar) (ρ : Valuation Int) : List (List Int) :=
  if ∀ e ∈ guards, e.integer ρ ≠ 0 then [axes.map fun iv => (rootExpr σ iv).integer ρ] else []

/-- Guards are conditions, and what is put for some axes are integer scalars, in terms of the variables that a context
    knows. -/
structure Placed (Γ : Context) (ρ : Valuation Int) (σ : Subst) (guards : List Expr) (axes : List IterVar) : Prop where
  guards : ∀ e ∈ guards, ∃ n, Expr.Evaluates Γ [] False ρ .bool e n
  axes : ∀ iv ∈ axes, ∃ n, (rootExpr σ iv).Amounts Γ ρ n

variable {Γ : Context} {ρ ρ' : Valuation Int} {σ : Subst} {guards : List Expr} {axes : List IterVar}

/-- Only the variables that the context knows matter. -/
theorem Placed.reached_congr (h : Placed Γ ρ σ guards axes) (hρ : ∀ x, Γ x ≠ none → ρ' x = ρ x) :
    reached σ guards axes ρ' = reached σ guards axes ρ := by
  have hvalue : ∀ {t : DataType} {e : Expr} {n : Int}, Expr.Evaluates Γ [] False ρ t e n → e.integer ρ' = e.integer ρ :=
    fun he => Expr.value_congr (fun _ _ => rfl) fun x hx => hρ x (he.typed.known x hx)
  have hguards : (∀ e ∈ guards, e.integer ρ' ≠ 0) ↔ ∀ e ∈ guards, e.integer ρ ≠ 0 := by
    refine forall₂_congr fun e he => ?_
    obtain ⟨n, hn⟩ := h.guards e he
    rw [hvalue hn]
  have haxes : (axes.map fun iv => (rootExpr σ iv).integer ρ') = axes.map fun iv => (rootExpr σ iv).integer ρ := by
    refine List.map_congr_left fun iv hiv => ?_
    obtain ⟨n, t, -, hn⟩ := h.axes iv hiv
    exact hvalue hn
  unfold reached
  rw [haxes]
  exact if_congr hguards rfl rfl

end NestContext

namespace Stage

open NestContext (rootExpr reached Placed)

variable {Γ : Context} {ρ : Valuation Int} {L E V : Nat → Int} {values : AxisValues} {st : Stage} {c : NestContext}
  {σ : Subst}
  {dataGuards reduceGuards : List Expr}

/-- What the nest of a stage is built from, if nothing is noted about its axes. -/
structure Looping (Γ : Context) (ρ : Valuation Int) (L E : Nat → Int) (c : NestContext) (st : Stage) (σ : Subst)
    (dataGuards : List Expr) : Prop where
  measured : st.Measured Γ ρ L E c.ranges
  parted : st.op.Parted
  made : ∀ r ∈ st.relations, r.Made
  plain : st.annotations = []
  typed : ∀ iv ∈ st.all, iv.dtype.IsIndex
  apart : ∀ iv ∈ st.all, Γ iv.id = none
  roots : st.rootValues c.ranges = .ok σ
  data : ∃ values, AxisValues.ofStage st c.ranges = .ok values ∧ c.splitGuards st values false = .ok dataGuards

/-- What the nest of a stage that reduces is built from, if nothing is noted about its axes. -/
structure Reducing (Γ : Context) (ρ : Valuation Int) (L E : Nat → Int) (c : NestContext) (st : Stage) (σ : Subst)
    (dataGuards reduceGuards : List Expr) : Prop extends st.Looping Γ ρ L E c σ dataGuards where
  reduce : ∃ values, AxisValues.ofStage st c.ranges = .ok values ∧ c.splitGuards st values true = .ok reduceGuards

namespace Looping

variable (h : st.Looping Γ ρ L E c σ dataGuards)
include h

theorem leaves_subset : st.leaves ⊆ st.all := fun leaf hleaf => ((h.measured.consistent.leaves leaf).mp hleaf).1

theorem thread_eq_none (leaf : IterVar) : st.thread? leaf = none := by
  rw [thread?, annotation?, h.plain]
  rfl

/-- The data leaf axes lead to the data axes of the operation. -/
theorem exists_data (q : List Int) : let ρ' := ρ.assign (st.dataPart.leaves.map (·.var)) q
    Placed (Γ.withAxes st.dataPart.leaves) ρ' σ dataGuards st.op.axes ∧
      ∃ V, st.dataPart.Provided L E ρ' (reached σ dataGuards st.op.axes ρ') V := by
  intro ρ'
  obtain ⟨values, hvalues, hguards⟩ := h.data
  have hdata : ∀ {iv : IterVar}, (iv.kind != .reduction) = true ↔ (iv.kind == .reduction) = false := by simp [bne]
  have hunknown : ∀ leaf ∈ st.dataPart.leaves, Γ leaf.id = none := fun leaf hleaf =>
    h.apart leaf (h.leaves_subset (List.mem_filter.mp hleaf).1)
  have hwide := h.measured.widen (extends_withAxes hunknown q)
  obtain ⟨V, hlocated⟩ := hwide.exists_located (fun r hr => (h.made r hr).sorts false) (fun leaf _ => h.thread_eq_none leaf)
    (fun leaf hleaf hP => ⟨withAxes_of_mem (h.measured.consistent.leavesDistinct.sublist (List.filter_sublist.map _))
      (List.mem_filter.mpr ⟨hleaf, hdata.mpr hP⟩), h.typed leaf (h.leaves_subset hleaf)⟩) values hvalues
  have hover : ∀ r ∈ st.dataPart.relations, r ∈ st.relations ∧ r.Over fun iv => (iv.kind == .reduction) = false := by
    intro r hr
    obtain ⟨hmem, hstarts⟩ := List.mem_filter.mp hr
    refine ⟨hmem, ((h.made r hmem).sorts false).resolve_right fun hnot => ?_⟩
    have hfalse := Relation.Over.not_starts (p := (·.kind != .reduction)) fun iv hiv heq => hnot iv hiv (hdata.mp heq)
    rw [hfalse] at hstarts
    cases hstarts
  obtain ⟨htyped, hfrom, hto⟩ := hwide.ensures_splitGuards hlocated dataGuards hguards
  have hroot : ∀ iv ∈ st.op.axes, (rootExpr σ iv).Amounts (Γ.withAxes st.dataPart.leaves) ρ' (L iv.id + V iv.id) := by
    intro iv hiv
    obtain ⟨e, he, hamount⟩ := hwide.ensures_rootValues hvalues hlocated σ h.roots iv (List.mem_append_left _ hiv)
      (by simpa using h.parted.data iv hiv)
    rwa [rootExpr, he, Option.getD_some]
  have hargs : (st.op.axes.map fun iv => (rootExpr σ iv).integer ρ') = st.op.axes.map fun iv => L iv.id + V iv.id :=
    List.map_congr_left fun iv hiv => (hroot iv hiv).value
  refine ⟨⟨htyped, fun iv hiv => ⟨_, hroot iv hiv⟩⟩, V, fun leaf hleaf => ?_, fun r hr => ?_, ?_, ?_, fun hwithin => ?_⟩
  · obtain ⟨hmem, hkind⟩ := List.mem_filter.mp hleaf
    exact hlocated.leaves leaf hmem (hdata.mp hkind)
  · exact hlocated.recovers r (hover r hr).1 (hover r hr).2
  all_goals rw [reached, hargs]
  · split
    · exact List.nodup_singleton _
    · exact List.nodup_nil
  · intro x hx
    split at hx
    · rename_i hall
      exact ⟨List.mem_singleton.mp hx, fun r hr => hfrom hall r (hover r hr).1 (hover r hr).2⟩
    · cases hx
  · rw [if_pos (hto fun iv hiv hkind => hwithin iv (List.mem_filter.mpr ⟨hiv, hdata.mpr hkind⟩))]
    exact List.mem_singleton_self _

/-- The data leaf axes run once through the data axes of the operation. -/
theorem data_once :
    let all := (points (st.dataPart.leaves.map fun leaf => ints 0 (E leaf.id))).flatMap fun q =>
      reached σ dataGuards st.op.axes (ρ.assign (st.dataPart.leaves.map (·.var)) q)
    all.Nodup ∧ ∀ x, x ∈ all ↔ List.Forall₂ (fun iv n => L iv.id ≤ n ∧ n < L iv.id + E iv.id) st.op.axes x :=
  (h.measured.dataPart h.parted h.made).provided_once (Operation.rootAxes_dataPart _) fun q => (h.exists_data q).2

/-- Where a nest is along the data axes is told by the data leaf axes alone. -/
theorem reached_data (p : List Int) : let ρ' := ρ.assign (st.leaves.map (·.var)) p
    reached σ dataGuards st.op.axes (ρ.assign (st.dataPart.leaves.map (·.var))
      (st.dataPart.leaves.map fun leaf => ρ' leaf.id)) =
      reached σ dataGuards st.op.axes ρ' := by
  intro ρ'
  have hsub : st.dataPart.leaves ⊆ st.leaves := List.filter_subset_self _
  have hnodup : ((st.dataPart.leaves.map (·.var)).map (·.id)).Nodup := by
    rw [IterVar.map_id_map_var]
    exact h.measured.consistent.leavesDistinct.sublist (List.filter_sublist.map _)
  refine ((h.exists_data _).1.reached_congr fun x hx => ?_).symm
  by_cases hmem : x ∈ st.dataPart.leaves.map (·.id)
  · obtain ⟨leaf, hleaf, rfl⟩ := List.mem_map.mp hmem
    have hmap := Valuation.map_assign_map _ _ hnodup (st.dataPart.leaves.map fun leaf => ρ' leaf.id) (List.length_map _) ρ
    exact (List.map_inj_left.mp hmap leaf hleaf).symm
  · rw [withAxes_of_not_mem hmem] at hx
    have hout : ∀ axes : List IterVar, axes ⊆ st.leaves → x ∉ (axes.map (·.var)).map (·.id) := by
      intro axes hsub hin
      rw [IterVar.map_id_map_var] at hin
      obtain ⟨leaf, hleaf, rfl⟩ := List.mem_map.mp hin
      exact hx (h.apart leaf (h.leaves_subset (hsub hleaf)))
    rw [Valuation.assign_of_not_mem (hout _ hsub)]
    exact Valuation.assign_of_not_mem (hout _ fun _ h => h) ρ p

/-- A leaf axis is one of the reduction. -/
theorem exists_reduction_leaf (hreduce : st.op.reduceAxes ≠ []) : ∃ leaf ∈ st.leaves, leaf.kind = .reduction := by
  by_contra hnone
  have hconsistent := h.measured.consistent
  have hdistinct := hconsistent.distinct
  have hall : ∀ iv ∈ Relation.axesOf st.op.rootAxes st.relations, ∀ jv ∈ st.all, jv.id = iv.id → jv.kind ≠ .reduction := by
    refine hconsistent.ordered.backward (by rwa [← hconsistent.all])
      (P := fun x => ∀ jv ∈ st.all, jv.id = x → jv.kind ≠ .reduction) (fun r hr hderived iv hiv jv hjv hid => ?_)
      fun iv hiv hnot jv hjv hid hkind => ?_
    · obtain rfl : jv = iv :=
        List.inj_on_of_nodup_map hdistinct hjv (hconsistent.mem_all hr (List.mem_append_left _ hiv)) hid
      obtain hdata | hreduction := (h.made r hr).sorts false
      · simpa using hdata jv (List.mem_append_left _ hiv)
      · obtain ⟨kv, hkv⟩ : ∃ kv, kv ∈ r.derived := by
          cases r <;> exact ⟨_, List.mem_cons_self⟩
        have hkind : kv.kind = .reduction := by simpa using hreduction kv (List.mem_append_right _ hkv)
        exact absurd hkind (hderived kv hkv kv (hconsistent.mem_all hr (List.mem_append_right _ hkv)) rfl)
    · obtain rfl : jv = iv := List.inj_on_of_nodup_map hdistinct hjv (hconsistent.all ▸ hiv) hid
      exact hnone ⟨jv, (hconsistent.leaves jv).mpr ⟨hjv, hnot⟩, hkind⟩
  obtain ⟨iv, hiv⟩ := List.exists_mem_of_ne_nil _ hreduce
  have hroot : iv ∈ Relation.axesOf st.op.rootAxes st.relations := List.mem_append_left _ (List.mem_append_right _ hiv)
  exact hall iv hroot iv (hconsistent.all ▸ hroot) rfl (h.parted.reduce iv hiv)

end Looping

namespace Reducing

variable (h : st.Reducing Γ ρ L E c σ dataGuards reduceGuards)
include h

/-- The leaf axes lead to all axes of the operation. -/
theorem exists_all (p : List Int) : let ρ' := ρ.assign (st.leaves.map (·.var)) p
    Placed (Γ.withAxes st.leaves) ρ' σ (dataGuards ++ reduceGuards) st.op.rootAxes ∧
      ∃ V, st.flat.Provided L E ρ' (reached σ (dataGuards ++ reduceGuards) st.op.rootAxes ρ') V := by
  intro ρ'
  obtain ⟨values, hvalues, hdata⟩ := h.data
  obtain ⟨values', hvalues', hreduce⟩ := h.reduce
  obtain rfl := Except.ok.inj (hvalues.symm.trans hvalues')
  have hwide := h.measured.widen (extends_withAxes (fun leaf hleaf => h.apart leaf (h.leaves_subset hleaf)) p)
  obtain ⟨V, hlocated⟩ := hwide.exists_located st.sorts_all (fun leaf _ => h.thread_eq_none leaf)
    (fun leaf hleaf _ => ⟨withAxes_of_mem h.measured.consistent.leavesDistinct hleaf, h.typed leaf (h.leaves_subset hleaf)⟩)
    values hvalues
  have hsort : ∀ b, st.Located (fun iv => (iv.kind == .reduction) = b) (Γ.withAxes st.leaves) ρ' E V values := fun b =>
    ⟨fun leaf hleaf _ => hlocated.leaves leaf hleaf trivial, fun iv hiv _ => hlocated.values iv hiv trivial,
      fun r hr _ => hlocated.recovers r hr fun _ _ => trivial⟩
  obtain ⟨htyped, hfrom, hto⟩ := hwide.ensures_splitGuards (hsort false) dataGuards hdata
  obtain ⟨htyped', hfrom', hto'⟩ := hwide.ensures_splitGuards (hsort true) reduceGuards hreduce
  have hroot : ∀ iv ∈ st.op.rootAxes, (rootExpr σ iv).Amounts (Γ.withAxes st.leaves) ρ' (L iv.id + V iv.id) := by
    intro iv hiv
    obtain ⟨e, he, hamount⟩ := hwide.ensures_rootValues hvalues hlocated σ h.roots iv hiv trivial
    rwa [rootExpr, he, Option.getD_some]
  have hargs : (st.op.rootAxes.map fun iv => (rootExpr σ iv).integer ρ') = st.flat.op.axes.map fun iv =>
    L iv.id + V iv.id :=
    List.map_congr_left fun iv hiv => (hroot iv hiv).value
  refine ⟨⟨List.forall_mem_append.mpr ⟨htyped, htyped'⟩, fun iv hiv => ⟨_, hroot iv hiv⟩⟩, V,
    fun leaf hleaf => hlocated.leaves leaf hleaf trivial, fun r hr => hlocated.recovers r hr fun _ _ => trivial, ?_, ?_,
    fun hwithin => ?_⟩
  all_goals rw [reached, hargs]
  · split
    · exact List.nodup_singleton _
    · exact List.nodup_nil
  · intro x hx
    split at hx
    · rename_i hall
      obtain ⟨hdatas, hreduces⟩ := List.forall_mem_append.mp hall
      refine ⟨List.mem_singleton.mp hx, fun r hr => ?_⟩
      obtain hover | hover := (h.made r hr).sorts false
      · exact hfrom hdatas r hr hover
      · exact hfrom' hreduces r hr fun iv hiv => by simpa using hover iv hiv
    · cases hx
  · rw [if_pos (List.forall_mem_append.mpr ⟨hto fun iv hiv _ => hwithin iv hiv, hto' fun iv hiv _ => hwithin iv hiv⟩)]
    exact List.mem_singleton_self _

/-- The leaf axes run once through all axes of the operation. -/
theorem all_once :
    let all := (points (st.leaves.map fun leaf => ints 0 (E leaf.id))).flatMap fun p =>
      reached σ (dataGuards ++ reduceGuards) st.op.rootAxes (ρ.assign (st.leaves.map (·.var)) p)
    all.Nodup ∧ ∀ x, x ∈ all ↔ List.Forall₂ (fun iv n => L iv.id ≤ n ∧ n < L iv.id + E iv.id) st.op.rootAxes x :=
  h.measured.flat.provided_once (Operation.rootAxes_flat _) fun p => (h.exists_all p).2

end Reducing

end Stage

end TensorNest

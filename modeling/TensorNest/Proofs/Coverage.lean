import TensorNest.Proofs.Creation
import TensorNest.Proofs.Ownership
import TensorNest.Proofs.Traversal

/-! # Points of leaf axes and of a domain

The guards of a nest are those of the splits that cover more than their axes (`Stage.Guards`). If the element at one
index is provided at each point of the leaf axes, unless a guard keeps the nest from that, then the points that are left
are those of the domain, each of which is provided once (`Stage.Measured.provided_once`). -/

namespace TensorNest

/-! ### Variables of axes -/

/-- A context that knows the variables of some axes as well. -/
def Context.withAxes (Γ : Context) (axes : List IterVar) : Context := fun x =>
  ((axes.find? (·.id == x)).map (·.dtype)).or (Γ x)

section WithAxes
variable {Γ : Context} {ρ : Valuation Int} {axes : List IterVar} {iv : IterVar} {x : Nat}

theorem withAxes_of_mem (hdistinct : (axes.map (·.id)).Nodup) (hiv : iv ∈ axes) :
    Γ.withAxes axes iv.id = some iv.dtype := by
  obtain ⟨jv, hjv⟩ : ∃ jv, axes.find? (·.id == iv.id) = some jv :=
    Option.isSome_iff_exists.mp (List.find?_isSome.mpr ⟨iv, hiv, beq_self_eq_true _⟩)
  obtain rfl := List.inj_on_of_nodup_map hdistinct (List.mem_of_find?_eq_some hjv) hiv (by simpa using List.find?_some hjv)
  rw [Context.withAxes, hjv, Option.map_some, Option.some_or]

theorem withAxes_of_not_mem (hx : x ∉ axes.map (·.id)) : Γ.withAxes axes x = Γ x := by
  have hnone : axes.find? (·.id == x) = none := List.find?_eq_none.mpr fun iv hiv heq =>
    hx (List.mem_map.mpr ⟨iv, hiv, by simpa using heq⟩)
  rw [Context.withAxes, hnone, Option.map_none, Option.none_or]

/-- Contexts know an axis as its variable. -/
theorem withAxes_cons (h : iv.id ∉ axes.map (·.id)) :
    Γ.withAxes (iv :: axes) = (Γ.extend iv.var).withAxes axes := by
  funext x
  by_cases hx : x = iv.id
  · subst hx
    have hself : Γ.extend iv.var iv.id = some iv.dtype := Function.update_self ..
    rw [withAxes_of_not_mem h, hself, Context.withAxes, List.find?_cons_of_pos (by simp), Option.map_some, Option.some_or]
  · have hne : ¬(iv.id == x) := fun heq => hx (beq_iff_eq.mp heq).symm
    have hother : Γ.extend iv.var x = Γ x := Function.update_of_ne hx ..
    rw [Context.withAxes, Context.withAxes, List.find?_cons_of_neg (by simpa using hne), hother]

/-- Values of axes that are no symbols leave the symbols as they are. -/
theorem extends_withAxes (hapart : ∀ iv ∈ axes, Γ iv.id = none) (p : List Int) :
    Expr.Extends Γ (Γ.withAxes axes) ρ (ρ.assign (axes.map (·.var)) p) := by
  intro x t hx
  have hnot : x ∉ axes.map (·.id) := by
    intro hmem
    obtain ⟨iv, hiv, rfl⟩ := List.mem_map.mp hmem
    rw [hapart iv hiv] at hx
    cases hx
  exact ⟨(withAxes_of_not_mem hnot).trans hx, Valuation.assign_of_not_mem (by rwa [IterVar.map_id_map_var]) ρ p⟩

end WithAxes

/-- The types of derived axes are those of roots. -/
theorem Relation.Ordered.forall_dtype {P : DataType → Prop} {roots : List IterVar} {rs : List Relation}
    (hrs : Ordered roots rs)
    (hmade : ∀ r ∈ rs, r.Made) (h : ∀ iv ∈ roots, P iv.dtype) : ∀ iv ∈ axesOf roots rs, P iv.dtype := by
  induction rs generalizing roots with
  | nil =>
    rw [axesOf, List.flatMap_nil, List.append_nil]
    exact h
  | cons r rs ih =>
    rw [ordered_cons] at hrs
    rw [axesOf_cons]
    obtain ⟨hr, hmade⟩ := List.forall_mem_cons.mp hmade
    refine ih hrs.2 hmade (List.forall_mem_append.mpr ⟨h, fun iv hiv => ?_⟩)
    obtain ⟨jv, hjv, -, htype⟩ := hr.alike iv hiv
    rw [htype]
    exact h jv (hrs.1 jv (List.mem_of_mem_head? hjv))

namespace Stage

variable {Γ : Context} {ρ : Valuation Int} {L E V : Nat → Int} {m : Ranges} {values : AxisValues} {st : Stage}
  {c : NestContext}

/-! ### Guards -/

/-- The guard of a split is missing only where the split covers nothing but its axis. -/
theorem Measured.ensures_splitGuard (h : st.Measured Γ ρ L E c.ranges) {parent outer inner : IterVar}
    {factor nparts : Option Expr} (hr : .split parent outer inner factor nparts ∈ st.relations)
    (hvalue : values.HasValue Γ ρ parent (V parent.id)) {b : Bool} (hkind : (parent.kind == .reduction) = b) : Ensures (do
      if (parent.kind == .reduction) != b then return []
      let extent := (← c.ranges.get parent).extent
      let divisor := (factor.orElse fun _ => nparts).getD extent
      if ← (← Expr.eq (← Expr.mod extent divisor) (0 : Int)).canProve then return []
      return [← Expr.likely (← Expr.lt (← values.get parent) extent)]) fun guards =>
        guards = [] ∧ E outer.id * E inner.id = E parent.id ∨
          ∃ e, guards = [e] ∧ Expr.Evaluates Γ [] False ρ .bool e (decide (V parent.id < E parent.id)).toInt := by
  have hall : parent ∈ st.all := h.consistent.mem_all hr List.mem_cons_self
  have hsized := h.sized _ hr
  obtain ⟨d, k, hd, hk, -⟩ := h.sized _ hr
  rw [hd, if_neg (by simpa using hkind)]
  refine (h.extents parent hall).ensures.bind fun x hx guards hrun => ?_
  obtain ⟨rest, hrest, hrun⟩ := bind_eq_ok.mp hrun
  obtain ⟨cond, hcond, hrun⟩ := bind_eq_ok.mp hrun
  obtain ⟨proved, hproved, hrun⟩ := bind_eq_ok.mp hrun
  cases hp : proved with
  | true =>
    have hdivides := hx.divides hk proved (bind_eq_ok.mpr ⟨rest, hrest, bind_eq_ok.mpr ⟨cond, hcond, hproved⟩⟩) hp
    rw [hp] at hrun
    exact Or.inl ⟨(Except.ok.inj hrun).symm, hsized.exact (h.nonneg parent hall) hd hk hdivides⟩
  | false =>
    rw [hp] at hrun
    obtain ⟨value, hval, hrun⟩ := bind_eq_ok.mp hrun
    obtain ⟨below, hbelow, hrun⟩ := bind_eq_ok.mp hrun
    obtain ⟨e, he, hrun⟩ := bind_eq_ok.mp hrun
    have hamounts := hvalue.ensures value hval
    exact Or.inr ⟨e, (Except.ok.inj hrun).symm, hamounts.guard hx e (bind_eq_ok.mpr ⟨below, hbelow, he⟩)⟩

/-- What guards of splits are to the positions along axes of one sort: truth values that hold if and only if no split of
    an axis of the sort leaves it, but for splits that cannot. -/
structure Guards (Γ : Context) (ρ : Valuation Int) (E V : Nat → Int) (b : Bool) (st : Stage)
    (guards : List Expr) : Prop where
  typed : ∀ e ∈ guards, ∃ n, Expr.Evaluates Γ [] False ρ .bool e n
  guarded : (∀ e ∈ guards, e.integer ρ ≠ 0) → ∀ r ∈ st.relations, r.Over (fun iv => (iv.kind == .reduction) = b) →
    r.Guarded E V
  holds : (∀ iv ∈ st.all, (iv.kind == .reduction) = b → iv.Within E V) → ∀ e ∈ guards, e.integer ρ ≠ 0

theorem Measured.ensures_splitGuards (h : st.Measured Γ ρ L E c.ranges) {b : Bool}
    (hlocated : st.Located (fun iv => (iv.kind == .reduction) = b) Γ ρ E V values) :
    Ensures (c.splitGuards st values b) (st.Guards Γ ρ E V b) := by
  intro guards hrun
  obtain ⟨lists, hlists, hrun⟩ := bind_eq_ok.mp hrun
  cases hrun
  obtain ⟨hfrom, hto⟩ := mem_mapM hlists
  have htruth : ∀ {p : Prop} [Decidable p], (decide p).toInt ≠ 0 ↔ p := fun {p} _ => by by_cases h : p <;> simp [h]
  have hmem : ∀ {parent outer inner factor nparts}, .split parent outer inner factor nparts ∈ st.relations →
    parent ∈ st.all :=
    fun hr => h.consistent.mem_all hr List.mem_cons_self
  -- Each guard is that of a split of an axis of the sort.
  have hguard : ∀ e ∈ lists.flatten, ∃ parent ∈ st.all, (parent.kind == .reduction) = b ∧
      Expr.Evaluates Γ [] False ρ .bool e (decide (V parent.id < E parent.id)).toInt := by
    intro e he
    obtain ⟨es, hes, he⟩ := List.mem_flatten.mp he
    obtain ⟨r, hr, hrun⟩ := hfrom es hes
    cases r with
    | split parent outer inner factor nparts =>
      by_cases hkind : (parent.kind == .reduction) = b
      · obtain ⟨rfl, -⟩ | ⟨e', rfl, hguard⟩ :=
          h.ensures_splitGuard hr (hlocated.values parent (hmem hr) hkind) hkind es hrun
        · cases he
        · obtain rfl := List.mem_singleton.mp he
          exact ⟨parent, hmem hr, hkind, hguard⟩
      · dsimp only at hrun
        rw [if_pos (by simpa using hkind)] at hrun
        cases hrun
        cases he
    | fuse | rebase =>
      cases hrun
      cases he
  refine ⟨fun e he => ?_, fun hguards r hr hover => ?_, fun hwithin e he => ?_⟩
  · obtain ⟨parent, -, -, hguard⟩ := hguard e he
    exact ⟨_, hguard⟩
  · obtain ⟨es, hes, hrun⟩ := hto r hr
    cases r with
    | split parent outer inner factor nparts =>
      have hkind := hover parent List.mem_cons_self
      obtain ⟨-, hexact⟩ | ⟨e, rfl, hguard⟩ :=
        h.ensures_splitGuard hr (hlocated.values parent (hmem hr) hkind) hkind es hrun
      · exact Or.inr hexact
      · have htrue := hguards e (List.mem_flatten.mpr ⟨_, hes, List.mem_singleton_self e⟩)
        rw [hguard.value, htruth] at htrue
        exact Or.inl htrue
    | fuse | rebase => trivial
  · obtain ⟨parent, hparent, hkind, hguard⟩ := hguard e he
    rw [hguard.value, htruth]
    exact (hwithin parent hparent hkind).2

/-! ### Points of the leaf axes and of the domain -/

/-- What is provided when the variables of the leaf axes have values: the element at the values of the axes of the
    operation, if no split leaves its axis. -/
structure Provided (st : Stage) (L E : Nat → Int) (ρ : Valuation Int) (xs : List (List Int)) (V : Nat → Int) : Prop where
  leaves : ∀ leaf ∈ st.leaves, V leaf.id = ρ leaf.id
  recovers : ∀ r ∈ st.relations, r.Recovers E V
  nodup : xs.Nodup
  only : ∀ x ∈ xs, x = st.op.axes.map (fun iv => L iv.id + V iv.id) ∧ ∀ r ∈ st.relations, r.Guarded E V
  always : (∀ iv ∈ st.all, iv.Within E V) → st.op.axes.map (fun iv => L iv.id + V iv.id) ∈ xs

/-- The points of the leaf axes. -/
theorem mem_points_leaves {leaves : List IterVar} {f : IterVar → Int} :
    leaves.map f ∈ points (leaves.map fun leaf => ints 0 (E leaf.id)) ↔
      ∀ leaf ∈ leaves, 0 ≤ f leaf ∧ f leaf < E leaf.id := by
  rw [mem_points, List.forall₂_map_left_iff, List.forall₂_map_right_iff, List.forall₂_same]
  simp only [mem_ints, zero_add]

/-- If at each point of the leaf axes the element at the point of the domain is provided that it belongs to, unless a
    split leaves its axis, then each point of the domain is provided once in all. -/
theorem Measured.provided_once (h : st.Measured Γ ρ L E m) (hroots : st.op.rootAxes = st.op.axes)
    {provided : Valuation Int → List (List Int)} (hprovided : ∀ p,
      ∃ V, st.Provided L E (ρ.assign (st.leaves.map (·.var)) p) (provided (ρ.assign (st.leaves.map (·.var)) p)) V) :
    let all := (points (st.leaves.map fun leaf => ints 0 (E leaf.id))).flatMap fun p =>
      provided (ρ.assign (st.leaves.map (·.var)) p)
    all.Nodup ∧ ∀ x, x ∈ all ↔ List.Forall₂ (fun iv n => L iv.id ≤ n ∧ n < L iv.id + E iv.id) st.op.axes x := by
  have hdistinct := h.consistent.distinct
  rw [h.consistent.all] at hdistinct
  have hleaf : ∀ iv ∈ Relation.axesOf st.op.rootAxes st.relations, iv.id ∉ st.consumedIds → iv ∈ st.leaves :=
    fun iv hiv hnot => (h.consistent.leaves iv).mpr ⟨h.consistent.all ▸ hiv, hnot⟩
  have hnonneg : ∀ iv ∈ Relation.axesOf st.op.rootAxes st.relations, 0 ≤ E iv.id := fun iv hiv =>
    h.nonneg iv (h.consistent.all ▸ hiv)
  have hvars : ((st.leaves.map (·.var)).map (·.id)).Nodup := by
    rw [IterVar.map_id_map_var]
    exact h.consistent.leavesDistinct
  -- A point of the leaf axes is the values that the variables have there.
  have hpoint : ∀ p ∈ points (st.leaves.map fun leaf => ints 0 (E leaf.id)),
      st.leaves.map (fun leaf => ρ.assign (st.leaves.map (·.var)) p leaf.id) = p := by
    intro p hp
    have hlength : p.length = (st.leaves.map (·.var)).length := by
      rw [length_of_mem_points hp, List.length_map, List.length_map]
    have hmap := Valuation.map_assign hvars hlength.symm ρ
    rwa [List.map_map] at hmap
  -- What is provided at a point is at positions along all axes.
  have hpositions : ∀ p ∈ points (st.leaves.map fun leaf => ints 0 (E leaf.id)), ∀ {V : Nat → Int},
      (∀ leaf ∈ st.leaves, V leaf.id = ρ.assign (st.leaves.map (·.var)) p leaf.id) → (∀ r ∈ st.relations, r.Recovers E V) →
      (∀ r ∈ st.relations, r.Guarded E V) →
      Relation.Positions E V (Relation.axesOf st.op.rootAxes st.relations) st.relations := by
    intro p hp V hleaves hrecovers hguarded
    have hwithin := mem_points_leaves.mp (hpoint p hp ▸ hp)
    refine Relation.positions_of_recovers h.consistent.ordered hdistinct h.covers hnonneg hrecovers hguarded
      fun iv hiv hnot => ?_
    have hmem := hleaf iv hiv hnot
    rw [IterVar.Within, hleaves iv hmem]
    exact hwithin iv hmem
  have hdomain : ∀ iv ∈ st.op.axes, iv ∈ Relation.axesOf st.op.rootAxes st.relations := fun iv hiv =>
    List.mem_append_left _ (hroots ▸ hiv)
  refine ⟨List.nodup_flatMap.mpr ⟨fun p hp => ?_, ?_⟩, fun x => ⟨fun hx => ?_, fun hx => ?_⟩⟩
  · obtain ⟨V, hV⟩ := hprovided p
    exact hV.nodup
  · -- The positions along the axes of the operation determine those along the leaf axes.
    refine (nodup_points ?_).pairwise_of_forall_ne fun p hp q hq hne x hxp hxq => hne ?_
    · exact List.forall_mem_map.mpr fun leaf _ => nodup_ints _ _
    obtain ⟨V, hV⟩ := hprovided p
    obtain ⟨W, hW⟩ := hprovided q
    obtain ⟨hx, hguarded⟩ := hV.only x hxp
    obtain ⟨hx', hguarded'⟩ := hW.only x hxq
    have hsame : ∀ iv ∈ st.op.rootAxes, V iv.id = W iv.id := by
      intro iv hiv
      have heq := List.map_inj_left.mp (hx.symm.trans hx') iv (hroots ▸ hiv)
      omega
    have hall := (hpositions p hp hV.leaves hV.recovers hguarded).eq_of_roots h.consistent.ordered
      (hpositions q hq hW.leaves hW.recovers hguarded') hsame
    rw [← hpoint p hp, ← hpoint q hq]
    refine List.map_congr_left fun leaf hmem => ?_
    rw [← hV.leaves leaf hmem, ← hW.leaves leaf hmem]
    exact hall leaf (h.consistent.all ▸ ((h.consistent.leaves leaf).mp hmem).1)
  · -- What is provided is in the domain.
    obtain ⟨p, hp, hx⟩ := List.mem_flatMap.mp hx
    obtain ⟨V, hV⟩ := hprovided p
    obtain ⟨rfl, hguarded⟩ := hV.only x hx
    have hwithin := (hpositions p hp hV.leaves hV.recovers hguarded).within
    rw [List.forall₂_map_right_iff, List.forall₂_same]
    intro iv hiv
    obtain ⟨hpos, hlt⟩ := hwithin iv (hdomain iv hiv)
    omega
  · -- A point of the domain has positions along all axes, so also along the leaf axes.
    have hmap : st.op.axes.map (fun iv => ρ.assign (st.op.axes.map (·.var)) x iv.id) = x := by
      have hnodup : ((st.op.axes.map (·.var)).map (·.id)).Nodup := by
        rw [IterVar.map_id_map_var, ← hroots]
        exact hdistinct.sublist ((List.sublist_append_left _ _).map _)
      have hlength : x.length = (st.op.axes.map (·.var)).length := by rw [List.length_map, hx.length_eq]
      have hmap := Valuation.map_assign hnodup hlength.symm ρ
      rwa [List.map_map] at hmap
    rw [← hmap, List.forall₂_map_right_iff, List.forall₂_same] at hx
    obtain ⟨W, hstart, hW⟩ := Relation.exists_positions h.consistent.ordered hdistinct h.covers hnonneg
      (W := fun i => ρ.assign (st.op.axes.map (·.var)) x i - L i) fun iv hiv => by
        obtain ⟨hlow, hhigh⟩ := hx iv (hroots ▸ hiv)
        exact ⟨sub_nonneg.mpr hlow, sub_lt_iff_lt_add'.mpr hhigh⟩
    have hp : st.leaves.map (fun leaf => W leaf.id) ∈ points (st.leaves.map fun leaf => ints 0 (E leaf.id)) :=
      mem_points_leaves.mpr fun leaf hmem => hW.within leaf (h.consistent.all ▸ ((h.consistent.leaves leaf).mp hmem).1)
    obtain ⟨V, hV⟩ := hprovided (st.leaves.map fun leaf => W leaf.id)
    have hsame := hW.eq_of_recovers h.consistent.ordered hdistinct hV.recovers fun iv hiv hnot => by
      have hmem := hleaf iv hiv hnot
      rw [hV.leaves iv hmem]
      exact List.map_inj_left.mp (hpoint _ hp) iv hmem
    refine List.mem_flatMap.mpr ⟨_, hp, ?_⟩
    have hmem := hV.always fun iv hiv => by
      rw [IterVar.Within, hsame iv (h.consistent.all ▸ hiv)]
      exact hW.within iv (h.consistent.all ▸ hiv)
    rw [← hmap]
    refine cast (congrArg (· ∈ _) ?_) hmem
    refine List.map_congr_left fun iv hiv => ?_
    rw [hsame iv (hdomain iv hiv), hstart iv (hroots ▸ hiv)]
    omega

end Stage

namespace NestContext

variable {Γ : Context} {ρ : Valuation Int} {L E : Nat → Int} {st : Stage} {c : NestContext} {g g' : Graph} {nest : Stmt}

theorem ranges_ofSchedule {s : Schedule} {m : Ranges} (h : ofSchedule s m = .ok c) : c.ranges = m := by
  obtain ⟨pairs, -, h⟩ := bind_eq_ok.mp h
  obtain ⟨domains, -, h⟩ := bind_eq_ok.mp h
  cases h
  rfl

/-- Only operations that compute have a nest. -/
theorem isCompute_of_computeNest {wrap : IterVar → Stmt → Build Stmt} (h : (c.computeNest st wrap).Yields g nest g') :
    st.op.isCompute := by
  unfold computeNest at h
  dsimp only at h
  split at h
  · simp at h
  · rename_i hcompute
    simpa using hcompute

/-- The nest of a stage on its own that does not reduce: its values under the guards of splits, inside the loops of
    its leaf axes. -/
theorem computeNest_inv {wrap : IterVar → Stmt → Build Stmt} (hroot : st.attach = .root) (hreduce : st.op.reduceAxes = [])
    (h : (c.computeNest st wrap).Yields g nest g') :
    st.op.isCompute ∧ ∃ values σ guards bodies g₁, AxisValues.ofStage st c.ranges = .ok values ∧
      st.rootValues c.ranges = .ok σ ∧ c.splitGuards st values false = .ok guards ∧ bodies.length = st.op.body.length ∧
      (wrapLoops wrap none (guarded guards (provides st.op
        (st.op.axes.map fun iv => (σ.find? iv.var).getD (.var iv.var)) bodies)) st.leaves).Yields g₁ nest g' := by
  unfold computeNest at h
  dsimp only at h
  split at h
  · simp at h
  rename_i hcompute
  simp only [Build.yields_bind, Build.yields_liftExcept] at h
  obtain ⟨values, g₁, ⟨hvalues, rfl⟩, σ, g₂, ⟨hσ, rfl⟩, splits, g₃, ⟨hsplits, rfl⟩, domains, g₄, ⟨hdomains, rfl⟩, h⟩ := h
  rw [if_pos (List.isEmpty_iff.mpr hreduce)] at h
  obtain ⟨bodies, g₅, hbodies, h⟩ := Build.yields_bind.mp h
  have hnone : domains = [] := by
    rw [domainGuards, hroot] at hdomains
    exact (Except.ok.inj hdomains).symm
  rw [hnone, List.append_nil] at h
  exact ⟨by simpa using hcompute, values, σ, splits, bodies, g₅, hvalues, hσ, hsplits, Build.length_mapM hbodies, h⟩

end NestContext

end TensorNest

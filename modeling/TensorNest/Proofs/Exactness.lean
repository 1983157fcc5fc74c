import TensorNest.Proofs.Alignment
import TensorNest.Proofs.Readings

/-! # Exact nests

The nest of a stage computes with indices in the extents of its loops, in its guards and in what it puts for the axes of
the operation. Whether all of that stays in its types can be told from the ranges of the stage, wherever the loops get
(`NestContext.exact`): guards stand one inside the other, so that one that does not hold keeps the nest from computing
what is further inside. Where a nest is exact, a faithful reading goes through the points of the leaf axes and finds
there the guards and the axes of the operation as the integers do (`Placed.guards_hold`, `Placed.map_value`). -/

namespace TensorNest

variable {V : Type} [Inhabited V] {R : FaithfulReading V} {π π' : Valuation V} {Γ : Context} {ρ : Valuation Int} {σ : Subst}
  {guards : List Expr} {axes leaves : List IterVar}

namespace FaithfulReading.Represents

/-- Axes have the values that stand for their numbers. -/
theorem withAxes (h : R.Represents Γ ρ π) {p : List Int} (hlen : p.length = leaves.length) :
    R.Represents (Γ.withAxes leaves) (ρ.assign (leaves.map (·.var)) p) (π.assign (leaves.map (·.var)) (p.map R.index)) := by
  have hassign : ∀ (vs : List Var) (p : List Int) (ρ : Valuation Int) (π : Valuation V) (x : Nat), p.length = vs.length →
      (x ∈ vs.map (·.id) ∨ π x = R.index (ρ x)) → π.assign vs (p.map R.index) x = R.index (ρ.assign vs p x) := by
    intro vs
    induction vs with
    | nil =>
      rintro p ρ π x - (hx | hx)
      · cases hx
      · exact hx
    | cons v vs ih =>
      rintro (_ | ⟨k, p⟩) ρ π x hlen hx
      · cases hlen
      refine ih p _ _ x (Nat.succ.inj hlen) ?_
      by_cases hv : x = v.id
      · exact Or.inr (by rw [hv, Function.update_self, Function.update_self]; rfl)
      · rw [Function.update_of_ne hv, Function.update_of_ne hv]
        exact hx.imp_left fun hx => (List.mem_cons.mp hx).resolve_left hv
  intro x hx
  refine hassign _ p ρ π x (hlen.trans (List.length_map _).symm) ?_
  by_cases hmem : x ∈ leaves.map (·.id)
  · exact Or.inl (by rwa [IterVar.map_id_map_var])
  · rw [withAxes_of_not_mem hmem] at hx
    exact Or.inr (h x hx)

omit [Inhabited V] in
/-- Symbols that are no axes keep their values while loops run. -/
theorem update (h : R.Represents Γ ρ π) {x : Nat} (hx : Γ x = none) (a : V) : R.Represents Γ ρ (Function.update π x a) := by
  refine h.congr fun y hy => Function.update_of_ne ?_ _ _
  rintro rfl
  exact hy hx

theorem assign (h : R.Represents Γ ρ π) {vs : List Var} (hvs : ∀ v ∈ vs, Γ v.id = none) (xs : List V) :
    R.Represents Γ ρ (π.assign vs xs) := by
  refine h.congr fun x hx => Valuation.assign_of_not_mem ?_ _ _
  rintro hmem
  obtain ⟨v, hv, rfl⟩ := List.mem_map.mp hmem
  exact hx (hvs v hv)

end FaithfulReading.Represents

/-- Whether an expression is exact is told by the numbers that the variables of its context have. -/
theorem Expr.Typed.exact_eq {t : DataType} {e : Expr} (h : e.Typed Γ t) (hρ : R.Represents Γ ρ π)
    (hρ' : R.Represents Γ ρ π') :
    e.exact R π = e.exact R π' :=
  Expr.exact_congr fun x hx => (hρ x (h.known x hx)).trans (hρ' x (h.known x hx)).symm

namespace NestContext

variable (c : NestContext) (R : FaithfulReading V) (π : Valuation V)

/-- Whether guards are exact that stand one inside the other, and whether something else is where all of them hold. -/
def guardsExact (inner : Bool) : List Expr → Bool
  | [] => inner
  | e :: es => e.exact R π && (!R.truth (e.value R.toReading .blank π) || guardsExact inner es)

/-- Whether guards are exact and what is put for axes inside. -/
def insideExact (σ : Subst) (guards : List Expr) (axes : List IterVar) : Bool :=
  guardsExact R π (axes.all fun iv => (rootExpr σ iv).exact R π) guards

/-- The numbers that the loop of a leaf axis runs through. -/
def counters (leaf : IterVar) : List Int :=
  match c.ranges.get leaf with
  | .ok r => ints 0 (r.extent.toInt R π)
  | .error _ => []

/-- Whether the extent of a leaf axis is exact, and the numbers are of its type that the loop runs through. -/
def loopExact (leaf : IterVar) : Bool :=
  match c.ranges.get leaf with
  | .ok r => r.extent.exact R π && (ints 0 (r.extent.toInt R π)).all (R.keeps leaf.dtype)
  | .error _ => false

/-- Whether loops are exact, and at each point what is inside. -/
def exactOver (σ : Subst) (guards : List Expr) (axes leaves : List IterVar) : Bool :=
  leaves.all (c.loopExact R π) && (points (leaves.map (c.counters R π))).all fun p =>
    insideExact R (π.assign (leaves.map (·.var)) (p.map R.index)) σ guards axes

/-- Whether all arithmetic of indices in the nest of a stage is exact: along the data axes, where a reduction starts,
    and along all axes. -/
def exact (st : Stage) : Except Error Bool := do
  let values ← AxisValues.ofStage st c.ranges
  let σ ← st.rootValues c.ranges
  let dataGuards ← c.splitGuards st values false
  let reduceGuards ← c.splitGuards st values true
  return c.exactOver R π σ dataGuards st.op.axes st.dataPart.leaves &&
    c.exactOver R π σ (dataGuards ++ reduceGuards) st.op.rootAxes st.leaves

variable {c R π}

/-- The parts of a nest that is exact, in numbers. -/
structure ExactOver (c : NestContext) (R : FaithfulReading V) (π : Valuation V) (σ : Subst) (guards : List Expr)
    (axes leaves : List IterVar) (E : Nat → Int) : Prop where
  extents : ∀ leaf ∈ leaves, ∀ r, c.ranges.get leaf = .ok r → r.extent.exact R π
  counters : ∀ leaf ∈ leaves, ∀ k ∈ ints 0 (E leaf.id), R.keeps leaf.dtype k
  inside : ∀ p ∈ points (leaves.map fun leaf => ints 0 (E leaf.id)),
    insideExact R (π.assign (leaves.map (·.var)) (p.map R.index)) σ guards axes

theorem ExactOver.of_exactOver {E : Nat → Int} (h : c.exactOver R π σ guards axes leaves) (hρ : R.Represents Γ ρ π)
    (hextents : ∀ leaf ∈ leaves, c.ranges.HasExtent Γ ρ leaf (E leaf.id)) :
    ExactOver c R π σ guards axes leaves E := by
  rw [exactOver, Bool.and_eq_true, List.all_eq_true, List.all_eq_true] at h
  obtain ⟨hloops, hpoints⟩ := h
  have hloop : ∀ leaf ∈ leaves, ∀ r, c.ranges.get leaf = .ok r → r.extent.exact R π ∧ r.extent.toInt R π = E leaf.id ∧
      ∀ k ∈ ints 0 (r.extent.toInt R π), R.keeps leaf.dtype k := by
    intro leaf hleaf r hr
    have hexact := hloops leaf hleaf
    rw [loopExact, hr] at hexact
    dsimp only at hexact
    rw [Bool.and_eq_true, List.all_eq_true] at hexact
    refine ⟨hexact.1, ?_, hexact.2⟩
    rw [Expr.toInt, ((hextents leaf hleaf).ensures r hr).value_eq hρ hexact.1, R.toInt_index]
  have hcounters : leaves.map (c.counters R π) = leaves.map fun leaf => ints 0 (E leaf.id) := by
    refine List.map_congr_left fun leaf hleaf => ?_
    obtain ⟨r, hr, -⟩ := hextents leaf hleaf
    rw [NestContext.counters, hr]
    dsimp only
    rw [(hloop leaf hleaf r hr).2.1]
  refine ⟨fun leaf hleaf r hr => (hloop leaf hleaf r hr).1, fun leaf hleaf k hk => ?_, hcounters ▸ hpoints⟩
  obtain ⟨r, hr, -⟩ := hextents leaf hleaf
  obtain ⟨-, hcount, hkeeps⟩ := hloop leaf hleaf r hr
  exact hkeeps k (hcount ▸ hk)

/-- A stage whose nest is exact is so in both of its parts. -/
theorem exact_inv {st : Stage} (h : c.exact R π st = .ok true) : ∃ values σ dataGuards reduceGuards,
    AxisValues.ofStage st c.ranges = .ok values ∧ st.rootValues c.ranges = .ok σ ∧
      c.splitGuards st values false = .ok dataGuards ∧ c.splitGuards st values true = .ok reduceGuards ∧
      c.exactOver R π σ dataGuards st.op.axes st.dataPart.leaves ∧
      c.exactOver R π σ (dataGuards ++ reduceGuards) st.op.rootAxes st.leaves := by
  obtain ⟨values, hvalues, h⟩ := bind_eq_ok.mp h
  obtain ⟨σ, hσ, h⟩ := bind_eq_ok.mp h
  obtain ⟨dataGuards, hdata, h⟩ := bind_eq_ok.mp h
  obtain ⟨reduceGuards, hreduce, h⟩ := bind_eq_ok.mp h
  have hboth := Except.ok.inj h
  rw [Bool.and_eq_true] at hboth
  exact ⟨values, σ, dataGuards, reduceGuards, hvalues, hσ, hdata, hreduce, hboth⟩

/-- Guards that are exact one after the other hold if and only if their numbers are not 0, and then what they guard is
    exact. -/
theorem Placed.guards_hold {T : Contents V} (h : Placed Γ ρ σ guards axes) (hρ : R.Represents Γ ρ π)
    (hexact : insideExact R π σ guards axes) :
    ((∀ e ∈ guards, R.truth (e.value R.toReading T π)) ↔ ∀ e ∈ guards, e.integer ρ ≠ 0) ∧
      ((∀ e ∈ guards, e.integer ρ ≠ 0) → ∀ iv ∈ axes, (rootExpr σ iv).exact R π) := by
  rw [← List.all_eq_true (p := fun iv => (rootExpr σ iv).exact R π)]
  rw [insideExact] at hexact
  generalize axes.all _ = inner at hexact ⊢
  have hguards := h.guards
  clear h
  induction guards with
  | nil => exact ⟨iff_of_true (List.forall_mem_nil _) (List.forall_mem_nil _), fun _ => hexact⟩
  | cons e es ih =>
    obtain ⟨⟨k, hk⟩, hguards⟩ := List.forall_mem_cons.mp hguards
    simp only [guardsExact, Bool.and_eq_true, Bool.or_eq_true, Bool.not_eq_true'] at hexact
    have htruth : ∀ T, R.truth (e.value R.toReading T π) = true ↔ e.integer ρ ≠ 0 := fun T => by
      rw [hk.truth_eq hρ hexact.1, decide_eq_true_iff]
    rw [List.forall_mem_cons, List.forall_mem_cons, htruth]
    by_cases he : e.integer ρ = 0
    · exact ⟨iff_of_false (fun hall => hall.1 he) fun hall => hall.1 he, fun hall => absurd he hall.1⟩
    · have hrest := hexact.2.resolve_left (by rw [(htruth _).mpr he]; exact Bool.noConfusion)
      obtain ⟨hiff, hinner⟩ := ih hrest hguards
      exact ⟨and_congr_right fun _ => hiff, fun hall => hinner hall.2⟩

theorem Placed.map_value {T : Contents V} (h : Placed Γ ρ σ guards axes) (hρ : R.Represents Γ ρ π)
    (hexact : ∀ iv ∈ axes, (rootExpr σ iv).exact R π) : (axes.map fun iv => (rootExpr σ iv).value R.toReading T π) =
      (axes.map fun iv => (rootExpr σ iv).integer ρ).map R.index := by
  rw [List.map_map]
  refine List.map_congr_left fun iv hiv => ?_
  obtain ⟨k, hk⟩ := h.axes iv hiv
  rw [hk.value_eq hρ (hexact iv hiv), Function.comp_apply, hk.value]

/-- What is put for axes mentions what is known. -/
theorem Placed.known (h : Placed Γ ρ σ guards axes) {iv : IterVar} (hiv : iv ∈ axes) {x : Nat}
    (hx : x ∈ (rootExpr σ iv).freeIds) : Γ x ≠ none := by
  obtain ⟨k, t, -, hk⟩ := h.axes iv hiv
  exact hk.typed.known x hx

/-- Whether guards and axes are exact is told by the numbers that the variables have. -/
theorem Placed.insideExact_eq (h : Placed Γ ρ σ guards axes) (hρ : R.Represents Γ ρ π) (hρ' : R.Represents Γ ρ π') :
    insideExact R π σ guards axes = insideExact R π' σ guards axes := by
  have haxes : (axes.all fun iv => (rootExpr σ iv).exact R π) = axes.all fun iv => (rootExpr σ iv).exact R π' := by
    rw [Bool.eq_iff_iff, List.all_eq_true, List.all_eq_true]
    refine forall₂_congr fun iv hiv => ?_
    obtain ⟨k, t, -, hk⟩ := h.axes iv hiv
    rw [hk.typed.exact_eq hρ hρ']
  rw [insideExact, insideExact, haxes]
  generalize axes.all _ = inner
  have hguards := h.guards
  clear h haxes
  induction guards with
  | nil => rfl
  | cons e es ih =>
    obtain ⟨⟨k, hk⟩, hguards⟩ := List.forall_mem_cons.mp hguards
    have hvalue : e.value R.toReading .blank π = e.value R.toReading .blank π' :=
      Expr.value_congr (fun _ _ => rfl) fun x hx => (hρ x (hk.typed.known x hx)).trans (hρ' x (hk.typed.known x hx)).symm
    rw [guardsExact, guardsExact, hk.typed.exact_eq hρ hρ', hvalue, ih hguards]

end NestContext

/-- The nest of a stage that reduces is exact in both of its parts. -/
theorem Stage.Reducing.exactOver {L E : Nat → Int} {c : NestContext} {st : Stage} {dataGuards reduceGuards : List Expr}
    (h : st.Reducing Γ ρ L E c σ dataGuards reduceGuards) (hρ : R.Represents Γ ρ π) (hexact : c.exact R π st = .ok true) :
    NestContext.ExactOver c R π σ dataGuards st.op.axes st.dataPart.leaves E ∧
      NestContext.ExactOver c R π σ (dataGuards ++ reduceGuards) st.op.rootAxes st.leaves E := by
  obtain ⟨values, σ', dataGuards', reduceGuards', hvalues, hσ, hdata, hreduce, hdataExact, hallExact⟩ :=
    NestContext.exact_inv hexact
  obtain ⟨values₁, hvalues₁, hdata₁⟩ := h.data
  obtain ⟨values₂, hvalues₂, hreduce₂⟩ := h.reduce
  obtain rfl := Except.ok.inj (hσ.symm.trans h.roots)
  obtain rfl := Except.ok.inj (hvalues.symm.trans hvalues₁)
  obtain rfl := Except.ok.inj (hvalues.symm.trans hvalues₂)
  obtain rfl := Except.ok.inj (hdata.symm.trans hdata₁)
  obtain rfl := Except.ok.inj (hreduce.symm.trans hreduce₂)
  have hextents : ∀ leaf ∈ st.leaves, c.ranges.HasExtent Γ ρ leaf (E leaf.id) := fun leaf hleaf =>
    h.measured.extents leaf (h.leaves_subset hleaf)
  exact ⟨.of_exactOver hdataExact hρ fun leaf hleaf => hextents leaf (List.mem_filter.mp hleaf).1,
    .of_exactOver hallExact hρ hextents⟩

end TensorNest

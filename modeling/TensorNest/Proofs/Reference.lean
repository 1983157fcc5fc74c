import TensorNest.Graph.Tensor
import TensorNest.Proofs.Meaning

/-! # The contents of tensors

The reference contents of the tensors of a graph: those of a placeholder are given, those of a compute
operation are the values of its body with the indices for its axes. An operation reads only operations
made before it, so that the contents are found in the order of the numbers (`contentsBefore`), and an
operation that is added later does not change them (`contents_of_grows`).

A graph is regular (`Graph.Regular`) if each variable plays one part: an axis, a variable bound in a
body or a parameter, which is bound nowhere. -/

namespace TensorNest

variable {V : Type} [Inhabited V]

/-- What the contents of tensors are found from: how expressions are read, the contents of the
    placeholders by their numbers, and the values of the parameters. -/
structure Model (V : Type) where
  reading : Reading V
  inputs : Nat → List V → V
  params : Valuation V

theorem itemAt?_of_lt {α : Type} {xs : List α} {i : Int} (h : 0 ≤ i) (hlt : i < xs.length) :
    ∃ x, itemAt? xs i = some x :=
  ⟨_, (if_pos h).trans (List.getElem?_eq_getElem (by omega))⟩

theorem itemAt?_map {α β : Type} (f : α → β) (xs : List α) (i : Int) :
    itemAt? (xs.map f) i = (itemAt? xs i).map f := by
  simp only [itemAt?, List.length_map, List.getElem?_map]
  split
  · rfl
  · split <;> rfl

namespace Operation

/-- The number of indices of the outputs. -/
def rank (o : Operation) : Nat :=
  match o.definition with
  | .placeholder shape _ => shape.length
  | .compute axes _ => axes.length

/-- The variables of the axes. -/
def axisVars (o : Operation) : List Var :=
  o.axes.map (·.var)

/-- The numbers of the variables of the axes. -/
def axisIds (o : Operation) : List Nat :=
  o.axes.map (·.id)

theorem map_id_axisVars (o : Operation) : o.axisVars.map (·.id) = o.axisIds :=
  IterVar.map_id_map_var o.axes

/-- The elements of an output, from the contents of the operations that are read. The axes stand for the indices, and what
    is done with them is done in the types of the axes. -/
def element (M : Model V) (T : Contents V) (o : Operation) (i : Int) (idx : List V) : V :=
  match o.definition with
  | .placeholder .. => M.inputs o.idx idx
  | .compute _ body =>
    ((itemAt? body i).map fun e => e.value M.reading T (M.params.assign o.axisVars idx)).getD default

section Compute
variable {o : Operation}

theorem rank_of_isCompute (h : o.isCompute) : o.rank = o.axisVars.length := by
  obtain ⟨idx, name, tag, attrs, _ | ⟨axes, body⟩⟩ := o
  · cases h
  · exact (List.length_map ..).symm

theorem numOutputs_of_isCompute (h : o.isCompute) : o.numOutputs = o.body.length := by
  obtain ⟨idx, name, tag, attrs, _ | ⟨axes, body⟩⟩ := o
  · cases h
  · rfl

theorem outputType_of_isCompute (h : o.isCompute) (k : Nat) :
    o.outputType k = ((o.body[k]?).map (·.dtype)).getD .float32 := by
  obtain ⟨idx, name, tag, attrs, _ | ⟨axes, body⟩⟩ := o
  · cases h
  · rfl

theorem element_of_isCompute {M : Model V} {T : Contents V} (h : o.isCompute) (i : Int)
    (idx : List V) : o.element M T i idx = ((itemAt? o.body i).map fun e =>
      e.value M.reading T (M.params.assign o.axisVars idx)).getD default := by
  obtain ⟨idx, name, tag, attrs, _ | ⟨axes, body⟩⟩ := o
  · cases h
  · rfl

end Compute

/-- The elements of an operation depend on the contents of what it reads. -/
theorem element_congr {M : Model V} {o : Operation} {T T' : Contents V}
    (h : ∀ e ∈ o.body, ∀ r ∈ e.allReads, T r.1 = T' r.1) : o.element M T = o.element M T' := by
  obtain ⟨idx, name, tag, attrs, _ | ⟨axes, body⟩⟩ := o
  · rfl
  · funext i xs
    simp only [element]
    cases hb : itemAt? body i with
    | none => rfl
    | some e => exact Expr.value_congr (h e (mem_of_itemAt? hb)) fun _ _ => rfl

end Operation

namespace Graph
variable (M : Model V)

/-- The contents of the operations of numbers below a bound. -/
def contentsBefore (g : Graph) : Nat → Contents V
  | 0, _ => fun _ _ => default
  | n + 1, i =>
    if i = n then
      match g.op? n with
      | some o => o.element M (g.contentsBefore n)
      | none => fun _ _ => default
    else g.contentsBefore n i

/-- The contents of the tensors of a graph. -/
def contents (g : Graph) : Contents V := fun i =>
  g.contentsBefore M (i + 1) i

variable {M}

theorem contentsBefore_of_lt {g : Graph} {n i : Nat} (h : i < n) :
    g.contentsBefore M n i = g.contents M i := by
  induction n with
  | zero => cases h
  | succ n ih =>
    by_cases hi : i = n
    · rw [hi, contents]
    · rw [contentsBefore, if_neg hi, ih (by omega)]

/-- A graph that has all operations of another one under the same numbers. -/
structure Grows (g g' : Graph) : Prop where
  size_le : g.ops.size ≤ g'.ops.size
  next_le : g.next ≤ g'.next
  kept : ∀ i < g.ops.size, g'.op? i = g.op? i

theorem Grows.refl (g : Graph) : g.Grows g := ⟨Nat.le_refl _, Nat.le_refl _, fun _ _ => rfl⟩

theorem Grows.trans {g g' g'' : Graph} (h : g.Grows g') (h' : g'.Grows g'') : g.Grows g'' where
  size_le := Nat.le_trans h.size_le h'.size_le
  next_le := Nat.le_trans h.next_le h'.next_le
  kept i hi := (h'.kept i (Nat.lt_of_lt_of_le hi h.size_le)).trans (h.kept i hi)

theorem lt_size_of_op? {g : Graph} {i : Nat} {o : Operation} (h : g.op? i = some o) :
    i < g.ops.size := by
  by_contra hi
  rw [op?, Array.getElem?_eq_none (by omega)] at h
  cases h

theorem Grows.op? {g g' : Graph} (h : g.Grows g') {i : Nat} {o : Operation} (hi : g.op? i = some o) :
    g'.op? i = some o :=
  (h.kept i (lt_size_of_op? hi)).trans hi

theorem Grows.contentsBefore {g g' : Graph} (h : g.Grows g') {n : Nat} (hn : n ≤ g.ops.size) :
    g'.contentsBefore M n = g.contentsBefore M n := by
  induction n with
  | zero => rfl
  | succ n ih =>
    funext i
    rw [Graph.contentsBefore, Graph.contentsBefore, ih (by omega), h.kept n (by omega)]

/-- Operations that are added do not change the contents of the others. -/
theorem contents_of_grows {g g' : Graph} (h : g.Grows g') {i : Nat} (hi : i < g.ops.size) :
    g'.contents M i = g.contents M i :=
  congrFun (h.contentsBefore hi) i

theorem op?_push (g : Graph) (o : Operation) (i : Nat) :
    ({ g with ops := g.ops.push (some o) } : Graph).op? i =
      if i = g.ops.size then some o else g.op? i := by
  simp only [op?, Array.getElem?_push]
  split <;> rfl

theorem grows_push (g : Graph) (o : Operation) : g.Grows { g with ops := g.ops.push (some o) } where
  size_le := by simp
  next_le := Nat.le_refl _
  kept i hi := by rw [op?_push, if_neg (Nat.ne_of_lt hi)]

/-- Whether a variable is an axis of an operation. -/
def IsAxis (g : Graph) (x : Nat) : Prop :=
  ∃ i o, g.op? i = some o ∧ x ∈ o.axisIds

/-- Whether a read names an output of an operation and has one index for each dimension. -/
def HasRead (g : Graph) (r : Nat × Int × Nat) : Prop :=
  ∃ p, g.op? r.1 = some p ∧ r.2.2 = p.rank ∧ 0 ≤ r.2.1 ∧ r.2.1 < p.numOutputs

instance (g : Graph) (x : Nat) : Decidable (g.IsAxis x) :=
  decidable_of_iff (∃ i < g.ops.size, ∃ o ∈ g.op? i, x ∈ o.axisIds)
    ⟨fun ⟨i, _, o, ho, hx⟩ => ⟨i, o, ho, hx⟩, fun ⟨i, o, ho, hx⟩ => ⟨i, lt_size_of_op? ho, o, ho, hx⟩⟩

instance (g : Graph) (r : Nat × Int × Nat) : Decidable (g.HasRead r) :=
  inferInstanceAs (Decidable (∃ p ∈ g.op? r.1, r.2.2 = p.rank ∧ 0 ≤ r.2.1 ∧ r.2.1 < p.numOutputs))

/-- Whether an output of an operation is of a type. -/
def HasType (g : Graph) (r : Nat × Int × DataType) : Prop :=
  ∃ p, g.op? r.1 = some p ∧ p.outputType r.2.1.toNat = r.2.2

instance (g : Graph) (r : Nat × Int × DataType) : Decidable (g.HasType r) :=
  inferInstanceAs (Decidable (∃ p ∈ g.op? r.1, p.outputType r.2.1.toNat = r.2.2))

theorem HasType.grows {g g' : Graph} {r : Nat × Int × DataType} (h : g.HasType r) (hg : g.Grows g') : g'.HasType r := by
  obtain ⟨p, hp, htype⟩ := h
  exact ⟨p, hg.op? hp, htype⟩

theorem HasRead.grows {g g' : Graph} {r : Nat × Int × Nat} (h : g.HasRead r) (hg : g.Grows g') :
    g'.HasRead r := by
  obtain ⟨p, hp, hrest⟩ := h
  exact ⟨p, hg.op? hp, hrest⟩

end Graph

/-- An operation fits into a graph with the parameters `P`: it reads outputs of earlier operations, with
    one index for each dimension; its body mentions only its axes and parameters, besides what is bound
    inside; what is bound inside is neither a parameter nor an axis of any operation; no combiner and no
    domain of an axis of a reduction mentions an axis of an operation; axes are mentioned in their types,
    and outputs are read in theirs. -/
structure Operation.Fits (g : Graph) (P : Nat → Prop) (o : Operation) : Prop where
  reads : ∀ e ∈ o.body, ∀ r ∈ e.allReads, g.HasRead r ∧ r.1 < o.idx
  closed : ∀ e ∈ o.body, ∀ x ∈ e.freeIds, x ∈ o.axisIds ∨ P x
  binders : ∀ e ∈ o.body, ∀ x ∈ e.boundVars, ¬P x ∧ ¬g.IsAxis x ∧ x < g.next
  fixed : ∀ e ∈ o.body, ∀ x ∈ e.opaqueVars, ¬g.IsAxis x ∧ x < g.next
  axes : ∀ x ∈ o.axisIds, ¬P x ∧ x < g.next
  types : ∀ e ∈ o.body, e.RespectsTypes o.axes
  readTypes : ∀ e ∈ o.body, ∀ r ∈ e.typedReads, g.HasType r

instance (g : Graph) (P : Nat → Prop) [DecidablePred P] (o : Operation) : Decidable (o.Fits g P) :=
  decidable_of_iff
    ((∀ e ∈ o.body, (∀ r ∈ e.allReads, g.HasRead r ∧ r.1 < o.idx) ∧
        (∀ x ∈ e.freeIds, x ∈ o.axisIds ∨ P x) ∧ (∀ x ∈ e.boundVars, ¬P x ∧ ¬g.IsAxis x ∧ x < g.next) ∧
          (∀ x ∈ e.opaqueVars, ¬g.IsAxis x ∧ x < g.next) ∧ e.RespectsTypes o.axes ∧ ∀ r ∈ e.typedReads, g.HasType r) ∧
      ∀ x ∈ o.axisIds, ¬P x ∧ x < g.next)
    ⟨fun h => ⟨fun e he => (h.1 e he).1, fun e he => (h.1 e he).2.1, fun e he => (h.1 e he).2.2.1,
      fun e he => (h.1 e he).2.2.2.1, h.2, fun e he => (h.1 e he).2.2.2.2.1, fun e he => (h.1 e he).2.2.2.2.2⟩,
    fun h => ⟨fun e he => ⟨h.reads e he, h.closed e he, h.binders e he, h.fixed e he, h.types e he, h.readTypes e he⟩,
      h.axes⟩⟩

/-- Every operation of a graph fits into it. -/
structure Graph.Regular (g : Graph) (P : Nat → Prop) : Prop where
  numbered : ∀ {i o}, g.op? i = some o → o.idx = i
  fits : ∀ {i o}, g.op? i = some o → o.Fits g P
  params : ∀ x, P x → x < g.next

namespace Graph
variable {M : Model V} {g : Graph} {P : Nat → Prop}

/-- Regularity is checked operation by operation. -/
theorem regular_iff : g.Regular P ↔
    (∀ i < g.ops.size, ∀ o ∈ g.op? i, o.idx = i ∧ o.Fits g P) ∧ ∀ x, P x → x < g.next := by
  constructor
  · exact fun h => ⟨fun i _ o ho => ⟨h.numbered ho, h.fits ho⟩, h.params⟩
  · exact fun h => ⟨fun ho => (h.1 _ (lt_size_of_op? ho) _ ho).1, fun ho => (h.1 _ (lt_size_of_op? ho) _ ho).2, h.2⟩

theorem isAxis_push {o : Operation} {x : Nat} :
    ({ g with ops := g.ops.push (some o) } : Graph).IsAxis x ↔ g.IsAxis x ∨ x ∈ o.axisIds := by
  constructor
  · rintro ⟨i, p, hp, hx⟩
    rw [op?_push] at hp
    split at hp
    · exact Or.inr (Option.some.inj hp ▸ hx)
    · exact Or.inl ⟨i, p, hp, hx⟩
  · rintro (⟨i, p, hp, hx⟩ | hx)
    · exact ⟨i, p, (grows_push g o).op? hp, hx⟩
    · exact ⟨g.ops.size, o, by rw [op?_push, if_pos rfl], hx⟩

/-- An operation can be added to a regular graph if it fits and its axes are axes already or occur
    nowhere in the graph. -/
theorem Regular.push (hg : g.Regular P) {o : Operation} (hidx : o.idx = g.ops.size) (ho : o.Fits g P)
    (hnew : ∀ x ∈ o.axisIds, g.IsAxis x ∨ ∀ p, (p = o ∨ ∃ i, g.op? i = some p) → ∀ e ∈ p.body,
      x ∉ e.boundVars ∧ x ∉ e.opaqueVars) :
    ({ g with ops := g.ops.push (some o) } : Graph).Regular P := by
  have hfits : ∀ p, (p = o ∨ ∃ i, g.op? i = some p) → p.Fits { g with ops := g.ops.push (some o) } P := by
    intro p hp
    have hpg : p.Fits g P := by
      obtain rfl | ⟨i, hi⟩ := hp
      · exact ho
      · exact hg.fits hi
    refine ⟨fun e he r hr => ?_, hpg.closed, fun e he x hx => ?_, fun e he x hx => ?_, hpg.axes,
      hpg.types, fun e he r hr => (hpg.readTypes e he r hr).grows (grows_push g o)⟩
    · obtain ⟨hread, hlt⟩ := hpg.reads e he r hr
      exact ⟨hread.grows (grows_push g o), hlt⟩
    · obtain ⟨hP, hax, hlt⟩ := hpg.binders e he x hx
      refine ⟨hP, fun h => ?_, hlt⟩
      obtain h | h := isAxis_push.mp h
      · exact hax h
      · exact (hnew x h).elim hax fun h => (h p hp e he).1 hx
    · obtain ⟨hax, hlt⟩ := hpg.fixed e he x hx
      refine ⟨fun h => ?_, hlt⟩
      obtain h | h := isAxis_push.mp h
      · exact hax h
      · exact (hnew x h).elim hax fun h => (h p hp e he).2 hx
  refine ⟨fun {i p} h => ?_, fun {i p} h => ?_, hg.params⟩
  · rw [op?_push] at h
    split at h
    · rename_i hi
      rw [hi, ← hidx, Option.some.inj h]
    · exact hg.numbered h
  · rw [op?_push] at h
    split at h
    · exact hfits p (Or.inl (Option.some.inj h).symm)
    · exact hfits p (Or.inr ⟨i, h⟩)

/-- Numbers can be taken without harm. -/
theorem Regular.raise (hg : g.Regular P) {n : Nat} (hn : g.next ≤ n) :
    ({ g with next := n } : Graph).Regular P where
  numbered := hg.numbered
  fits h := by
    have hf := hg.fits h
    refine ⟨hf.reads, hf.closed, fun e he x hx => ?_, fun e he x hx => ?_, fun x hx => ?_, hf.types, hf.readTypes⟩
    · obtain ⟨hP, hax, hlt⟩ := hf.binders e he x hx
      exact ⟨hP, hax, Nat.lt_of_lt_of_le hlt hn⟩
    · obtain ⟨hax, hlt⟩ := hf.fixed e he x hx
      exact ⟨hax, Nat.lt_of_lt_of_le hlt hn⟩
    · exact ⟨(hf.axes x hx).1, Nat.lt_of_lt_of_le (hf.axes x hx).2 hn⟩
  params x hx := Nat.lt_of_lt_of_le (hg.params x hx) hn

/-- A variable without a number yet occurs nowhere. -/
theorem Regular.unused (hg : g.Regular P) {x : Nat} (hx : g.next ≤ x) {i : Nat} {o : Operation}
    (ho : g.op? i = some o) {e : Expr} (he : e ∈ o.body) : x ∉ e.boundVars ∧ x ∉ e.opaqueVars := by
  refine ⟨fun h => ?_, fun h => ?_⟩
  · have := ((hg.fits ho).binders e he x h).2.2
    omega
  · have := ((hg.fits ho).fixed e he x h).2
    omega

/-- The contents of an operation are its elements, from the contents of the graph. -/
theorem Regular.contents_eq (hg : g.Regular P) {i : Nat} {o : Operation} (h : g.op? i = some o) :
    g.contents M i = o.element M (g.contents M) := by
  have hi := hg.numbered h
  rw [contents, contentsBefore, if_pos rfl, h]
  refine Operation.element_congr fun e he r hr => contentsBefore_of_lt ?_
  exact hi ▸ ((hg.fits h).reads e he r hr).2

/-- Two operations have outputs of the same types and contents. -/
def Alike (M : Model V) (g : Graph) (i j : Nat) : Prop :=
  ∃ o p, g.op? i = some o ∧ g.op? j = some p ∧ o.rank = p.rank ∧ o.numOutputs = p.numOutputs ∧
    o.outputType = p.outputType ∧ ∀ k idx, idx.length = p.rank → g.contents M i k idx = g.contents M j k idx

theorem Alike.refl {i : Nat} {o : Operation} (h : g.op? i = some o) : g.Alike M i i :=
  ⟨o, o, h, h, rfl, rfl, rfl, fun _ _ _ => rfl⟩

theorem Alike.symm {i j : Nat} (h : g.Alike M i j) : g.Alike M j i := by
  obtain ⟨o, p, ho, hp, hr, hn, ht, hc⟩ := h
  exact ⟨p, o, hp, ho, hr.symm, hn.symm, ht.symm, fun k idx hl => (hc k idx (hl.trans hr)).symm⟩

theorem Alike.trans {i j k : Nat} (h : g.Alike M i j) (h' : g.Alike M j k) : g.Alike M i k := by
  obtain ⟨o, p, ho, hp, hr, hn, ht, hc⟩ := h
  obtain ⟨p', q, hp', hq, hr', hn', ht', hc'⟩ := h'
  obtain rfl : p = p' := Option.some.inj (hp.symm.trans hp')
  exact ⟨o, q, ho, hq, hr.trans hr', hn.trans hn', ht.trans ht', fun n idx hl =>
    (hc n idx (hl.trans hr'.symm)).trans (hc' n idx hl)⟩

theorem Alike.grows {g' : Graph} {i j : Nat} (h : g.Alike M i j) (hg : g.Grows g') : g'.Alike M i j := by
  obtain ⟨o, p, ho, hp, hr, hn, ht, hc⟩ := h
  refine ⟨o, p, hg.op? ho, hg.op? hp, hr, hn, ht, fun k idx hl => ?_⟩
  rw [contents_of_grows hg (lt_size_of_op? ho), contents_of_grows hg (lt_size_of_op? hp)]
  exact hc k idx hl

end Graph

end TensorNest

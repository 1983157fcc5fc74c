import TensorNest.Proofs.Exactness

/-! # Reductions with one accumulator

A reduction to one value folds steps of its combiner over the points of its axes at which its condition holds
(`Fold.value_body`). In a nest the sources and the condition are valued where the nest is along the axes of the operation
(`Fold.Proper.value_subst`): what is put for the axes leads there. The combiner stays as it is, so that it has to do without
the axes. -/

namespace TensorNest

/-- The parts of a reduction whose combiner has one accumulator. -/
structure Fold where
  acc : Var
  vars : List Var
  step : Expr
  identity : Expr
  sources : List Expr
  cond : Option Expr

namespace Fold

/-- The reduction over some axes. -/
def body (f : Fold) (axes : List IterVar) : Expr :=
  .reduce ⟨[f.acc], f.vars, [f.step], [f.identity]⟩ f.sources axes f.cond 0

def exprs (f : Fold) : List Expr :=
  f.step :: f.identity :: (f.sources ++ f.cond.toList)

theorem step_mem_exprs (f : Fold) : f.step ∈ f.exprs := List.mem_cons_self

theorem identity_mem_exprs (f : Fold) : f.identity ∈ f.exprs := List.mem_cons_of_mem _ List.mem_cons_self

theorem mem_exprs {f : Fold} {e : Expr} (he : e ∈ f.sources ++ f.cond.toList) : e ∈ f.exprs :=
  List.mem_cons_of_mem _ (List.mem_cons_of_mem _ he)

/-- The variables of the combiner. -/
def own (f : Fold) : List Var :=
  f.acc :: f.vars

section Value
variable {V : Type} [Inhabited V] (f : Fold) (R : Reading V) (T : Contents V) (π : Valuation V)

/-- The combination of an accumulated value with values of the sources. -/
def combine (a : V) (us : List V) : V :=
  f.step.value R T (π.assign f.own (a :: us))

/-- The step at a point. -/
def next (a : V) : V :=
  f.combine R T π a (f.sources.map (·.value R T π))

/-- Whether a point is taken. -/
def taken : Bool :=
  f.cond.all fun c => R.truth (c.value R T π)

/-- Steps may be made in any order. -/
def Commutes : Prop :=
  ∀ a us ws, us.length = f.vars.length → ws.length = f.vars.length →
    f.combine R T π (f.combine R T π a us) ws = f.combine R T π (f.combine R T π a ws) us

variable {f R T π}

/-- A reduction makes a step at each point that is taken. -/
theorem value_body {axes : List IterVar} : (f.body axes).value R T π =
    ((points (Expr.value.domains R T axes π)).filter fun p => f.taken R T (π.assign (axes.map (·.var)) p)).foldl
      (fun a p => f.next R T (π.assign (axes.map (·.var)) p) a) (f.identity.value R T π) := by
  have hfold : ∀ (ps : List (List V)) (a : V), ps.foldl (fun acc p =>
      if (Expr.value.ofOption R T f.cond (π.assign (axes.map (·.var)) p)).all R.truth then
        Expr.value.combine R T ⟨[f.acc], f.vars, [f.step], [f.identity]⟩ (π.assign (axes.map (·.var)) p) acc
          (Expr.value.ofList R T f.sources (π.assign (axes.map (·.var)) p))
      else acc) [a] = [(ps.filter fun p => f.taken R T (π.assign (axes.map (·.var)) p)).foldl
        (fun a p => f.next R T (π.assign (axes.map (·.var)) p) a) a] := by
    intro ps
    induction ps with
    | nil => exact fun _ => rfl
    | cons p ps ih =>
      intro a
      have htaken : (Expr.value.ofOption R T f.cond (π.assign (axes.map (·.var)) p)).all R.truth =
          f.taken R T (π.assign (axes.map (·.var)) p) := by
        rw [Expr.value_ofOption, Option.all_map]
        rfl
      have hcombine : Expr.value.combine R T ⟨[f.acc], f.vars, [f.step], [f.identity]⟩ (π.assign (axes.map (·.var)) p) [a]
          (Expr.value.ofList R T f.sources (π.assign (axes.map (·.var)) p)) =
            [f.next R T (π.assign (axes.map (·.var)) p) a] := by
        rw [next, combine, Expr.value_ofList]
        rfl
      rw [List.foldl_cons, htaken, List.filter_cons]
      by_cases h : f.taken R T (π.assign (axes.map (·.var)) p)
      · rw [if_pos h, if_pos h, hcombine, ih, List.foldl_cons]
      · rw [if_neg h, if_neg h, ih]
  rw [body, Expr.value, Expr.value.start, Expr.value.ofList, Expr.value.ofList]
  dsimp only
  rw [hfold]
  rfl

end Value

end Fold

/-! ### Where a nest is -/

section Inside
variable {V : Type} [Inhabited V] {R : FaithfulReading V} {T : Contents V} {π π' : Valuation V} {Γ Γ' : Context}
  {ρ ρ' : Valuation Int} {σ : Subst} {guards : List Expr} {axes leaves : List IterVar} {n : Nat} {o : Operation}

/-- Inside a nest more is known than outside, but nothing else about the variables that are older than a number and no axes
    of the operation. -/
structure Inside (R : FaithfulReading V) (o : Operation) (n : Nat) (Γ : Context) (π : Valuation V) (Γ' : Context)
    (ρ' : Valuation Int) (π' : Valuation V) : Prop where
  represents : R.Represents Γ' ρ' π'
  same : ∀ x < n, x ∉ o.rootAxes.map (·.id) → π' x = π x
  unknown : ∀ x < n, x ∉ o.rootAxes.map (·.id) → Γ x = none → Γ' x = none

/-- The loops of leaf axes lead inside. -/
theorem FaithfulReading.Represents.inside (h : R.Represents Γ ρ π)
    (hleaves : ∀ leaf ∈ leaves, leaf.id ∈ o.rootAxes.map (·.id) ∨ n ≤ leaf.id)
    {p : List Int} (hlen : p.length = leaves.length) : Inside R o n Γ π (Γ.withAxes leaves)
      (ρ.assign (leaves.map (·.var)) p) (π.assign (leaves.map (·.var)) (p.map R.index)) := by
  have hout : ∀ x < n, x ∉ o.rootAxes.map (·.id) → x ∉ leaves.map (·.id) := by
    intro x hx hroot hmem
    obtain ⟨leaf, hleaf, rfl⟩ := List.mem_map.mp hmem
    exact (hleaves leaf hleaf).elim hroot fun hle => absurd hx (Nat.not_lt.mpr hle)
  refine ⟨h.withAxes hlen, fun x hx hroot => Valuation.assign_of_not_mem ?_ π _, fun x hx hroot hnone => ?_⟩
  · rw [IterVar.map_id_map_var]
    exact hout x hx hroot
  · rw [withAxes_of_not_mem (hout x hx hroot), hnone]

omit [Inhabited V] in
/-- Variables that are not known inside may have any values, if they are no older than the number. -/
theorem Inside.congr {π'' : Valuation V} {m : Nat} (h : Inside R o n Γ π Γ' ρ' π') (hn : n ≤ m)
    (hnew : ∀ x, m ≤ x → Γ' x = none)
    (hπ : ∀ x < m, π'' x = π' x) : Inside R o n Γ π Γ' ρ' π'' where
  represents := h.represents.congr fun x hx => hπ x (Nat.lt_of_not_le fun hle => hx (hnew x hle))
  same x hx hroot := (hπ x (Nat.lt_of_lt_of_le hx hn)).trans (h.same x hx hroot)
  unknown := h.unknown

namespace NestContext

/-- A substitution puts something for axes, of their types, and for nothing else. -/
def Puts (σ : Subst) (axes : List IterVar) : Prop :=
  ∀ p ∈ σ, ∃ iv ∈ axes, p = (iv.var, rootExpr σ iv) ∧ (rootExpr σ iv).dtype = iv.dtype

theorem Puts.valuation_eq (h : Puts σ axes) (hdistinct : (axes.map (·.id)).Nodup) : σ.valuation R.toReading T π =
    π.assign (axes.map (·.var)) (axes.map fun iv => (rootExpr σ iv).value R.toReading T π) := by
  have hmap := Valuation.map_assign_map axes (·.var) (by rwa [IterVar.map_id_map_var])
    (axes.map fun iv => (rootExpr σ iv).value R.toReading T π) (List.length_map _) π
  funext x
  by_cases hx : x ∈ axes.map (·.id)
  · obtain ⟨iv, hiv, rfl⟩ := List.mem_map.mp hx
    refine Eq.trans ?_ (List.map_inj_left.mp hmap iv hiv).symm
    rw [Subst.valuation, rootExpr, Subst.find?]
    cases hfind : List.find? (·.1.id == iv.id) σ with
    | none => rw [show List.find? (fun p : Var × Expr => p.1.id == iv.var.id) σ = none from hfind]; rfl
    | some p => rw [show List.find? (fun p : Var × Expr => p.1.id == iv.var.id) σ = some p from hfind]; rfl
  · rw [Valuation.assign_of_not_mem (by rwa [IterVar.map_id_map_var])]
    refine Subst.valuation_of_not_mem fun p hp heq => hx ?_
    obtain ⟨iv, hiv, rfl, -⟩ := h p hp
    exact heq ▸ List.mem_map_of_mem hiv

end NestContext

end Inside

namespace Operation

/-- The values of the variables at a point of all axes of an operation. -/
def place {V : Type} [Inhabited V] (o : Operation) (R : FaithfulReading V) (π : Valuation V) (p : List Int) : Valuation V :=
  π.assign (o.rootAxes.map (·.var)) (p.map R.index)

/-- What is read of the first output of an operation. -/
def readAt (o : Operation) (args : List Expr) : Expr :=
  .call (o.outputType 0) o.name args .tensorRead (some o.ref) 0

end Operation

/-! ### Variables that keep their parts -/

namespace Fold

open NestContext (rootExpr reached Placed Puts provides updates guarded underCondition)

/-- What the reduction of an operation mentions is older than a number, no variable is bound that is something else as
    well, and the combiner mentions no axis of the operation, which it does not read. Variables have the types of what
    they stand for. -/
structure Proper (f : Fold) (Γ : Context) (n : Nat) (o : Operation) : Prop where
  body : o.body = [f.body o.reduceAxes]
  arity : f.vars.length = f.sources.length
  older : ∀ e ∈ f.exprs, ∀ x ∈ e.freeIds ++ e.boundVars ++ e.opaqueVars, x < n
  binders : ∀ e ∈ f.exprs, ∀ x ∈ e.boundVars, Γ x = none ∧ x ∉ o.rootAxes.map (·.id) ∧ x ∉ f.own.map (·.id) ∧
    ∀ e' ∈ f.exprs, x ∉ e'.freeIds
  fixed : ∀ e ∈ f.exprs, ∀ x ∈ e.opaqueVars, x ∉ o.rootAxes.map (·.id) ∧ x ∉ f.own.map (·.id)
  closed : ∀ e ∈ [f.step, f.identity], ∀ x ∈ e.freeIds, x ∉ o.rootAxes.map (·.id)
  unread : ∀ e ∈ f.exprs, ∀ r ∈ e.allReads, r.1 ≠ o.idx
  types : ∀ e ∈ f.exprs, e.RespectsTypes o.rootAxes
  ownTypes : ∀ p ∈ f.own.zip (f.step :: f.sources), ∀ v ∈ f.step.vars, v.id = p.1.id → p.2.dtype = v.dtype

namespace Proper

variable {V : Type} [Inhabited V] {R : FaithfulReading V} {T T' : Contents V} {π π' : Valuation V} {Γ Γ' : Context}
  {ρ' : Valuation Int} {σ : Subst} {guards : List Expr} {n : Nat} {o : Operation} {f : Fold} {e : Expr} {a : V}
  {us : List V}

variable (h : f.Proper Γ n o)
include h

theorem outputType_eq : o.outputType 0 = f.step.dtype := by
  cases hdef : o.definition with
  | compute axes body =>
    have hbody : body = [f.body o.reduceAxes] := by
      have hbody := h.body
      rwa [Operation.body, hdef] at hbody
    rw [Operation.outputType, hdef]
    dsimp only
    rw [hbody]
    rfl
  | placeholder =>
    have hbody := h.body
    rw [Operation.body, hdef] at hbody
    cases hbody

theorem length_own : f.own.length = f.sources.length + 1 := by
  rw [own, List.length_cons, h.arity]

theorem lt_of_free (he : e ∈ f.exprs) {x : Nat} (hx : x ∈ e.freeIds) : x < n :=
  h.older e he x (List.mem_append_left _ (List.mem_append_left _ hx))

section Same
variable (hsame : ∀ x < n, x ∉ o.rootAxes.map (·.id) → π' x = π x) (hT : ∀ i ≠ o.idx, T' i = T i)
include hsame hT

/-- An expression has one value inside and outside, if the axes have the same values. -/
theorem value_assign (he : e ∈ f.exprs) (xs : List V) : e.value R.toReading T' (π'.assign (o.rootAxes.map (·.var)) xs) =
    e.value R.toReading T (π.assign (o.rootAxes.map (·.var)) xs) := by
  refine Expr.value_congr (fun r hr => hT _ (h.unread e he r hr)) fun x hx => Valuation.assign_congr (fun hroot => ?_) xs
  rw [IterVar.map_id_map_var] at hroot
  exact hsame x (h.lt_of_free he hx) hroot

/-- The combiner is the same inside and outside. -/
theorem combine_eq : f.combine R.toReading T' π' a us = f.combine R.toReading T π a us := by
  refine Expr.value_congr (fun r hr => hT _ (h.unread _ f.step_mem_exprs r hr)) fun x hx =>
    Valuation.assign_congr (fun _ => hsame x (h.lt_of_free f.step_mem_exprs hx) ?_) _
  exact h.closed _ List.mem_cons_self x hx

theorem identity_eq : f.identity.value R.toReading T' π' = f.identity.value R.toReading T π :=
  Expr.value_congr (fun r hr => hT _ (h.unread _ f.identity_mem_exprs r hr)) fun x hx =>
    hsame x (h.lt_of_free f.identity_mem_exprs hx) (h.closed _ (List.mem_cons_of_mem _ List.mem_cons_self) x hx)

end Same

omit [Inhabited V] in
/-- Nothing that is bound is known inside. -/
theorem unknown_of_bound (he : e ∈ f.exprs) (hin : Inside R o n Γ π Γ' ρ' π') {x : Nat} (hx : x ∈ e.boundVars) :
    Γ' x = none := by
  obtain ⟨hnone, hroot, -⟩ := h.binders e he x hx
  exact hin.unknown x (h.older e he x (List.mem_append_left _ (List.mem_append_right _ hx))) hroot hnone

omit [Inhabited V] in
/-- What is put for the axes can be put in the sources and in the condition. -/
theorem safe (he : e ∈ f.exprs) (hin : Inside R o n Γ π Γ' ρ' π') (hplaced : Placed Γ' ρ' σ guards o.rootAxes)
    (hputs : Puts σ o.rootAxes) : σ.Safe e where
  binders x hx p hp := by
    obtain ⟨iv, hiv, rfl, -⟩ := hputs p hp
    refine ⟨fun heq => (h.binders e he x hx).2.1 (heq ▸ List.mem_map_of_mem hiv), fun hfree => ?_⟩
    exact hplaced.known hiv hfree (h.unknown_of_bound he hin hx)
  fixed x hx p hp := by
    obtain ⟨iv, hiv, rfl, -⟩ := hputs p hp
    exact fun heq => (h.fixed e he x hx).1 (heq ▸ List.mem_map_of_mem hiv)
  typed v hv r hr := by
    obtain ⟨p, hp, hid, rfl⟩ := Expr.exists_of_find? hr
    obtain ⟨iv, hiv, rfl, htype⟩ := hputs p hp
    exact htype.trans (h.types e he v hv iv hiv hid.symm).symm

omit [Inhabited V] in
/-- Axes can be put for each other where they are new. -/
theorem safe_renaming {τ : Subst} (he : e ∈ f.exprs)
    (hτ : ∀ p ∈ τ, ((∃ iv ∈ o.rootAxes, p.1.id = iv.id ∧ p.2.dtype = iv.dtype) ∨ n ≤ p.1.id) ∧ ∀ x ∈ p.2.freeIds, n ≤ x) :
    τ.Safe e where
  binders x hx p hp := by
    have hlt := h.older e he x (List.mem_append_left _ (List.mem_append_right _ hx))
    refine ⟨?_, fun hfree => Nat.not_lt.mpr ((hτ p hp).2 x hfree) hlt⟩
    rintro rfl
    obtain ⟨iv, hiv, hid, -⟩ | hle := (hτ p hp).1
    · exact (h.binders e he _ hx).2.1 (hid ▸ List.mem_map_of_mem hiv)
    · exact Nat.not_lt.mpr hle hlt
  fixed x hx p hp := by
    have hlt := h.older e he x (List.mem_append_right _ hx)
    rintro rfl
    obtain ⟨iv, hiv, hid, -⟩ | hle := (hτ p hp).1
    · exact (h.fixed e he _ hx).1 (hid ▸ List.mem_map_of_mem hiv)
    · exact Nat.not_lt.mpr hle hlt
  typed v hv r hr := by
    obtain ⟨p, hp, hid, rfl⟩ := Expr.exists_of_find? hr
    obtain ⟨iv, hiv, hid', htype⟩ | hle := (hτ p hp).1
    · exact htype.trans (h.types e he v hv iv hiv (hid.symm.trans hid')).symm
    · have hlt : v.id < n := by
        obtain hfree | hbound := Expr.mem_vars_ids hv
        · exact h.older e he _ (List.mem_append_left _ (List.mem_append_left _ hfree))
        · exact h.older e he _ (List.mem_append_left _ (List.mem_append_right _ hbound))
      exact absurd (hid ▸ hle) (Nat.not_le.mpr hlt)

/-- Where something is put for the axes, the value is that at what is put. -/
theorem value_subst (hdistinct : (o.rootAxes.map (·.id)).Nodup) (he : e ∈ f.exprs) (hin : Inside R o n Γ π Γ' ρ' π')
    (hplaced : Placed Γ' ρ' σ guards o.rootAxes) (hputs : Puts σ o.rootAxes)
    (hexact : ∀ iv ∈ o.rootAxes, (rootExpr σ iv).exact R π') (hT : ∀ i ≠ o.idx, T' i = T i) :
    (e.subst σ).value R.toReading T' π' = e.value R.toReading T (π.assign (o.rootAxes.map (·.var))
      ((o.rootAxes.map fun iv => (rootExpr σ iv).integer ρ').map R.index)) := by
  rw [Expr.value_subst (h.safe he hin hplaced hputs), hputs.valuation_eq hdistinct, hplaced.map_value hin.represents hexact,
    h.value_assign hin.same hT he]

/-- Steps at points of the axes can be made in any order, if the steps of the combiner can. -/
theorem next_comm (hcommutes : f.Commutes R.toReading T π) (p q : List Int) (a : V) :
    f.next R.toReading T (o.place R π q) (f.next R.toReading T (o.place R π p) a) =
      f.next R.toReading T (o.place R π p) (f.next R.toReading T (o.place R π q) a) := by
  have hcombine : ∀ p a us, f.combine R.toReading T (o.place R π p) a us = f.combine R.toReading T π a us := by
    refine fun p a us => h.combine_eq (fun x _ hx => ?_) fun _ _ => rfl
    exact Valuation.assign_of_not_mem (by rwa [IterVar.map_id_map_var]) π _
  simp only [Fold.next, hcombine]
  exact hcommutes _ _ _ (by rw [List.length_map, h.arity]) (by rw [List.length_map, h.arity])

/-! ### The update -/

theorem reductionOf_eq : NestContext.reductionOf o = (⟨[f.acc], f.vars, [f.step], [f.identity]⟩, f.sources, f.cond) := by
  rw [NestContext.reductionOf, h.body]
  rfl

/-- The update is the step, in which the accumulator is what is read of the output. -/
theorem updates_eq (args : List Expr) (σ : Subst) : updates o args σ =
    [f.step.subst (Subst.ofList (f.own.zip (o.readAt args :: f.sources.map (·.subst σ))))] := by
  rw [updates, h.reductionOf_eq]
  simp only [List.zipIdx_cons, List.zipIdx_nil, List.map_cons, List.map_nil, List.singleton_append, own, List.zip_cons_cons,
    List.zip_map_right, Operation.readAt]
  rfl

section Update
variable (hdistinct : (o.rootAxes.map (·.id)).Nodup) (hin : Inside R o n Γ π Γ' ρ' π')
  (hplaced : Placed Γ' ρ' σ guards o.rootAxes)
  (hputs : Puts σ o.rootAxes)
include hin hplaced hputs

omit [Inhabited V] in
/-- What is read and the sources can be put in the step. -/
theorem safe_step :
    (Subst.ofList (f.own.zip (o.readAt (o.axes.map (rootExpr σ)) :: f.sources.map (·.subst σ)))).Safe f.step where
  binders x hx p hp := by
    have hunknown := h.unknown_of_bound f.step_mem_exprs hin hx
    obtain ⟨-, -, hown, hfree⟩ := h.binders _ f.step_mem_exprs x hx
    obtain ⟨hv, he⟩ := List.of_mem_zip (List.mem_reverse.mp hp)
    refine ⟨fun heq => hown (heq ▸ List.mem_map_of_mem hv), fun hmem => ?_⟩
    have hput : ∀ iv ∈ o.rootAxes, x ∉ (rootExpr σ iv).freeIds := fun iv hiv hmem => hplaced.known hiv hmem hunknown
    obtain heq | he := List.mem_cons.mp he
    · rw [heq, Operation.readAt, Expr.freeIds, Expr.mem_freeIds_ofList] at hmem
      obtain ⟨e, he, hmem⟩ := hmem
      obtain ⟨iv, hiv, rfl⟩ := List.mem_map.mp he
      exact hput iv (List.mem_append_left _ hiv) hmem
    · obtain ⟨e, he, heq⟩ := List.mem_map.mp he
      have hmem_exprs := mem_exprs (List.mem_append_left _ he)
      rw [← heq] at hmem
      obtain ⟨hmem, -⟩ | ⟨p, hp, hmem⟩ := Expr.mem_freeIds_subst (h.safe hmem_exprs hin hplaced hputs).fixed hmem
      · exact hfree e hmem_exprs hmem
      · obtain ⟨iv, hiv, rfl, -⟩ := hputs p hp
        exact hput iv hiv hmem
  fixed x hx p hp heq :=
    (h.fixed _ f.step_mem_exprs x hx).2 (heq ▸ List.mem_map_of_mem (List.of_mem_zip (List.mem_reverse.mp hp)).1)
  typed v hv r hr := by
    obtain ⟨p, hp, hid, rfl⟩ := Expr.exists_of_find? hr
    -- What is put has the type of the part that it stands for.
    obtain ⟨q, hq, hvar, htype⟩ : ∃ q ∈ f.own.zip (f.step :: f.sources), q.1 = p.1 ∧ q.2.dtype = p.2.dtype := by
      have hp := List.mem_reverse.mp hp
      rw [own, List.zip_cons_cons] at hp ⊢
      obtain rfl | hp := List.mem_cons.mp hp
      · exact ⟨_, List.mem_cons_self, rfl, h.outputType_eq.symm⟩
      · rw [List.zip_map_right] at hp
        obtain ⟨q, hq, rfl⟩ := List.mem_map.mp hp
        have hsource : q.2 ∈ f.exprs := mem_exprs (List.mem_append_left _ (List.of_mem_zip hq).2)
        exact ⟨q, List.mem_cons_of_mem _ hq, rfl, (Expr.dtype_subst (h.safe hsource hin hplaced hputs).typed).symm⟩
    rw [← htype]
    exact h.ownTypes q hq v hv (hid.symm.trans (congrArg Var.id hvar.symm))

include hdistinct

/-- The value of the update is that of the next step. -/
theorem value_update (hexact : ∀ iv ∈ o.rootAxes, (rootExpr σ iv).exact R π') (hT : ∀ i ≠ o.idx, T' i = T i) :
    (f.step.subst (Subst.ofList (f.own.zip (o.readAt (o.axes.map (rootExpr σ)) :: f.sources.map (·.subst σ))))).value
        R.toReading T' π' =
      f.next R.toReading T (o.place R π (o.rootAxes.map fun iv => (rootExpr σ iv).integer ρ'))
        (T' o.idx 0 ((o.axes.map fun iv => (rootExpr σ iv).integer ρ').map R.index)) := by
  have haxes : Placed Γ' ρ' σ guards o.axes := ⟨hplaced.guards, fun iv hiv => hplaced.axes iv (List.mem_append_left _ hiv)⟩
  have hread : (o.readAt (o.axes.map (rootExpr σ))).value R.toReading T' π' =
      T' o.idx 0 ((o.axes.map fun iv => (rootExpr σ iv).integer ρ').map R.index) := by
    rw [Operation.readAt, Expr.value, Expr.value_ofList, List.map_map,
      ← haxes.map_value hin.represents fun iv hiv => hexact iv (List.mem_append_left _ hiv)]
    rfl
  have hsources : (f.sources.map (·.subst σ)).map (·.value R.toReading T' π') = f.sources.map
      (·.value R.toReading T (o.place R π (o.rootAxes.map fun iv => (rootExpr σ iv).integer ρ'))) := by
    rw [List.map_map]
    exact List.map_congr_left fun e he =>
      h.value_subst hdistinct (mem_exprs (List.mem_append_left _ he)) hin hplaced hputs hexact hT
  rw [Expr.value_subst (h.safe_step hin hplaced hputs), Subst.valuation_ofList_zip (by rw [h.length_own]; simp),
    List.map_cons,
    hread, hsources]
  refine (h.combine_eq hin.same hT).trans (h.combine_eq (fun x _ hx => ?_) fun _ _ => rfl).symm
  exact Valuation.assign_of_not_mem (by rwa [IterVar.map_id_map_var]) π _

/-- The condition is tested at the place of the nest. -/
theorem taken_eq (hexact : ∀ iv ∈ o.rootAxes, (rootExpr σ iv).exact R π') (hT : ∀ i ≠ o.idx, T' i = T i) :
    (f.cond.all fun c => R.truth ((c.subst σ).value R.toReading T' π')) =
    f.taken R.toReading T (o.place R π (o.rootAxes.map fun iv => (rootExpr σ iv).integer ρ')) := by
  cases hc : f.cond with
  | none => rw [taken, hc]; rfl
  | some c =>
    have he : c ∈ f.exprs := mem_exprs (List.mem_append_right _ (by rw [hc]; exact List.mem_singleton_self c))
    rw [taken, hc, Option.all_some, Option.all_some, h.value_subst hdistinct he hin hplaced hputs hexact hT]
    rfl

end Update

end Proper

end Fold

end TensorNest

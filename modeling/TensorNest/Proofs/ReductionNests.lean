import TensorNest.Proofs.Folds

/-! # Nests of reductions

The nest of a reduction runs through the leaves down to the first one of the reduction, where the start stands beside
the rest: the start runs through the data leaves from there with variables of its own, under the guards of the data
axes, and the rest through all leaves from there, under all guards. Both write what events write
(`Reducing.writes_initNest`, `Reducing.writes_nest`). At each data point there is one start, which the steps follow
(`Reducing.events_at`), so that the nest computes the reduction (`Reducing.computed`). -/

namespace TensorNest

/-! ### The start of a reduction -/

/-- What is put for a variable, if the variables are distinct. -/
theorem Subst.find?_ofList_zip {vs : List Var} {es : List Expr} (hdistinct : (vs.map (·.id)).Nodup)
    (hlen : vs.length ≤ es.length) {v : Var} {e : Expr} (h : (v, e) ∈ vs.zip es) :
    (Subst.ofList (vs.zip es)).find? v = some e := by
  have hsub : ((vs.zip es).map fun p => p.1.id).Nodup := by
    rwa [← List.map_fst_zip hlen, List.map_map] at hdistinct
  obtain ⟨p, hp⟩ : ∃ p, List.find? (fun p : Var × Expr => p.1.id == v.id) (Subst.ofList (vs.zip es)) = some p :=
    Option.isSome_iff_exists.mp (List.find?_isSome.mpr ⟨_, List.mem_reverse.mpr h, beq_self_eq_true _⟩)
  have hkey := List.find?_some hp
  rw [beq_iff_eq] at hkey
  obtain rfl : p = (v, e) := List.inj_on_of_nodup_map hsub (List.mem_reverse.mp (List.mem_of_find?_eq_some hp)) h hkey
  rw [Subst.find?, hp, Option.map_some]

/-- What is put for axes, if it is variables. -/
theorem Subst.exists_of_mem_renaming {axes : List IterVar} {loopVar : IterVar → Var} {p : Var × Expr}
    (h : p ∈ Subst.ofList ((axes.map (·.var)).zip (axes.map fun iv => .var (loopVar iv)))) :
    ∃ iv ∈ axes, p = (iv.var, .var (loopVar iv)) := by
  rw [List.zip_map'] at h
  obtain ⟨iv, hiv, rfl⟩ := List.mem_map.mp (List.mem_reverse.mp h)
  exact ⟨iv, hiv, rfl⟩

namespace NestContext

/-- Each axis gets a variable of its own. -/
theorem freshVars_yields {leaves : List IterVar} {g g' : Graph} {vars : List Var}
    (h : (leaves.mapM fun leaf => freshVar (leaf.name ++ ".init") leaf.dtype : Build (List Var)).Yields g vars g') :
    vars.map (·.id) = List.range' g.next leaves.length ∧ vars.map (·.dtype) = leaves.map (·.dtype) := by
  induction leaves generalizing g g' vars with
  | nil =>
    obtain ⟨rfl, -⟩ := Build.yields_pure.mp h
    exact ⟨rfl, rfl⟩
  | cons leaf leaves ih =>
    rw [List.mapM_cons] at h
    obtain ⟨v, g₁, hv, h⟩ := Build.yields_bind.mp h
    obtain ⟨rest, g₂, hrest, h⟩ := Build.yields_bind.mp h
    obtain ⟨rfl, -⟩ := Build.yields_pure.mp h
    obtain ⟨rfl, rfl⟩ := yields_freshVar.mp hv
    obtain ⟨hids, htypes⟩ := ih hrest
    rw [List.map_cons, List.map_cons, List.map_cons, hids, htypes]
    exact ⟨rfl, rfl⟩

/-- The loop of a leaf axis in the start of a reduction. -/
theorem initLoop_inv {c : NestContext} {leaf : IterVar} {v : Var} {b s : Stmt} {g g' : Graph} (htype : leaf.dtype.IsIndex)
    (h : (do return .loop v (← Expr.ofInt 0 leaf.dtype) (← c.ranges.get leaf).extent .serial b : Build Stmt).Yields
      g s g') : ∃ r, c.ranges.get leaf = .ok r ∧ s = .loop v (.const (.int 0) leaf.dtype) r.extent .serial b := by
  simp only [Build.yields_bind, Build.yields_liftExcept, Build.yields_pure] at h
  obtain ⟨zero, _, ⟨hzero, -⟩, r, _, ⟨hr, -⟩, rfl, -⟩ := h
  obtain rfl := Except.ok.inj ((Expr.ofNumber_int htype 0).symm.trans hzero)
  exact ⟨r, hr, rfl⟩

section Substituted
variable {V : Type} [Inhabited V] [DecidableEq V] {R : FaithfulReading V} {T : Contents V} {π : Valuation V} {τ : Subst}

/-- Where something is put in a guarded assignment, that is written which is written with its values. -/
theorem writes_subst_guarded {op : Operation} {guards args : List Expr} {v : Expr} (hguards : ∀ e ∈ guards, τ.Safe e)
    (hargs : ∀ e ∈ args, τ.Safe e) (hv : τ.Safe v) :
      ((guarded guards (provides op args [v])).subst τ).writes R.toReading π T =
      (guarded guards (provides op args [v])).writes R.toReading (τ.valuation R.toReading T π) T := by
  induction guards with
  | nil =>
    have hone : provides op args [v] = .provide op.ref 0 v args := rfl
    have hvalues : (args.map (·.subst τ)).map (·.value R.toReading T π) =
        args.map (·.value R.toReading T (τ.valuation R.toReading T π)) := by
      rw [List.map_map]
      exact List.map_congr_left fun e he => Expr.value_subst (hargs e he) π
    rw [guarded, List.foldr_nil, hone, Stmt.subst, Stmt.writes_provide, Stmt.writes_provide, Expr.value_subst hv, hvalues]
  | cons e es ih =>
    obtain ⟨he, hes⟩ := List.forall_mem_cons.mp hguards
    have hcons : guarded (e :: es) (provides op args [v]) = .branch e (guarded es (provides op args [v])) none := rfl
    rw [hcons, Stmt.subst, Stmt.writes_branch_none, Stmt.writes_branch_none, Expr.value_subst he, ih hes]

/-- The loop of a leaf axis in the start of a reduction is one from 0, over another variable. -/
theorem writes_initLoop {Γ : Context} {ρ : Valuation Int} {c : NestContext} {leaf : IterVar} {v : Var} {b s : Stmt}
    {g g' : Graph}
    {k : Int} (htype : leaf.dtype.IsIndex) (hv : v.dtype = leaf.dtype) (hextent : c.ranges.HasExtent Γ ρ leaf k)
    (hρ : R.Represents Γ ρ (τ.valuation R.toReading T π)) (hsafe : ∀ r, c.ranges.get leaf = .ok r → τ.Safe r.extent)
    (hexact : ∀ r, c.ranges.get leaf = .ok r → r.extent.exact R (τ.valuation R.toReading T π))
    (hcounters : ∀ j ∈ ints 0 k, R.keeps leaf.dtype j)
    (h : (do return .loop v (← Expr.ofInt 0 leaf.dtype) (← c.ranges.get leaf).extent .serial b : Build Stmt).Yields
      g s g') : (s.subst τ).writes R.toReading π T =
      inTurn (fun j : Int => (b.subst τ).writes R.toReading (Function.update π v.id (R.index j))) (ints 0 k) T := by
  obtain ⟨r, hr, rfl⟩ := initLoop_inv htype h
  rw [Stmt.subst, Expr.subst]
  refine writes_loop_zero htype hv ?_ hcounters
  rw [Expr.value_subst (hsafe r hr), (hextent.ensures r hr).value_eq hρ (hexact r hr), R.toInt_index]

end Substituted

/-- The loops of the start of a reduction are over new variables, which are put for the leaf axes. -/
theorem initNest_inv {c : NestContext} {st : Stage} {args guards : List Expr} {g g' : Graph} {init : Stmt}
    (hplain : st.annotations = []) (hdistinct : ((initLeaves st).map (·.id)).Nodup)
    (h : (c.initNest st args guards).Yields g init g') : ∃ (loopVar : IterVar → Var) (s : Stmt) (g₁ : Graph),
      (((initLeaves st).map loopVar).map (·.id)).Nodup ∧ (∀ x ∈ ((initLeaves st).map loopVar).map (·.id), g.next ≤ x) ∧
      (∀ leaf ∈ initLeaves st, (loopVar leaf).dtype = leaf.dtype) ∧
      ((initLeaves st).foldrM (fun leaf s => do
        return .loop (loopVar leaf) (← Expr.ofInt 0 leaf.dtype) (← c.ranges.get leaf).extent .serial s)
          (guarded guards (provides st.op args (reductionOf st.op).1.identity)) : Build Stmt).Yields g₁ s g' ∧
      init = s.subst (Subst.ofList (((initLeaves st).map (·.var)).zip ((initLeaves st).map fun leaf =>
        .var (loopVar leaf)))) := by
  obtain ⟨vars, g₁, hvars, h⟩ := Build.yields_bind.mp h
  obtain ⟨s, g₂, hloops, h⟩ := Build.yields_bind.mp h
  obtain ⟨rfl, rfl⟩ := Build.yields_pure.mp h
  obtain ⟨hids, htypes⟩ := freshVars_yields hvars
  have hlen : (initLeaves st).length = vars.length := by simpa using (congrArg List.length htypes).symm
  have hthread : ∀ leaf, st.leafVar leaf = leaf.var := fun leaf => by
    rw [Stage.leafVar, Stage.thread?, Stage.annotation?, hplain]
    rfl
  have hput : Subst.ofList (((initLeaves st).zip vars).map fun p => (st.leafVar p.1, Expr.var p.2)) =
      Subst.ofList (((initLeaves st).map (·.var)).zip (vars.map Expr.var)) := by
    rw [List.zip_map]
    simp only [hthread]
    rfl
  rw [hput] at hloops ⊢
  simp only [hthread] at hloops
  have hloopVar : (initLeaves st).map (fun leaf =>
      (((Subst.ofList (((initLeaves st).map (·.var)).zip (vars.map Expr.var))).find?
      leaf.var).bind Expr.asVar?).getD leaf.var) = vars := by
    refine List.ext_getElem (by simpa using hlen) fun i hi hi' => ?_
    have hi'' : i < (initLeaves st).length := hlen ▸ hi'
    have hmem : ((initLeaves st)[i].var, Expr.var vars[i]) ∈ ((initLeaves st).map (·.var)).zip (vars.map Expr.var) :=
      List.mem_iff_getElem.mpr ⟨i, by simp [hi', hi''], by simp⟩
    rw [List.getElem_map, Subst.find?_ofList_zip (by rwa [IterVar.map_id_map_var]) (by simp [hlen]) hmem]
    rfl
  rw [← hloopVar] at hids
  refine ⟨_, s, g₁, ?_, fun x hx => ?_, ?_, hloops, ?_⟩
  · rw [hids]
    exact List.nodup_range'
  · rw [hids] at hx
    exact (List.mem_range'_1.mp hx).1
  · refine List.map_inj_left.mp (Eq.trans ?_ htypes)
    exact (List.map_map ..).symm.trans (congrArg (List.map (·.dtype)) hloopVar)
  · refine congrArg (fun es => s.subst (Subst.ofList (((initLeaves st).map (·.var)).zip es))) ?_
    exact (congrArg (List.map Expr.var) hloopVar.symm).trans (List.map_map ..)

end NestContext

/-! ### The nest of a reduction -/

namespace NestContext

variable {c : NestContext} {st : Stage} {σ : Subst} {m : Ranges} {g g' : Graph} {nest : Stmt}

/-- The values of the axes of an operation are put for these, if they are of their types. -/
theorem puts_rootValues (hdistinct : (st.op.rootAxes.map (·.id)).Nodup) (hkept : ∀ p ∈ σ, p.2.dtype = p.1.dtype)
    (h : st.rootValues m = .ok σ) : Puts σ st.op.rootAxes := by
  obtain ⟨values, -, h⟩ := bind_eq_ok.mp h
  obtain ⟨pairs, hpairs, hσ⟩ := bind_eq_ok.mp h
  obtain rfl := Except.ok.inj hσ
  obtain ⟨hfrom, -⟩ := mem_mapM hpairs
  have hkey : ∀ {iv : IterVar} {p : Var × Expr}, (do
      let e ← Expr.add (← m.get iv).min (← values.get iv)
      return (iv.var, ← e.simplify) : Except Error (Var × Expr)) = .ok p → p.1 = iv.var := by
    intro iv p hrun
    simp only [bind_eq_ok] at hrun
    obtain ⟨_, -, _, -, _, -, _, -, hrun⟩ := hrun
    cases hrun
    rfl
  intro p hp
  obtain ⟨iv, hiv, hrun⟩ := hfrom p (List.mem_reverse.mp hp)
  obtain ⟨q, hq⟩ : ∃ q, List.find? (fun q : Var × Expr => q.1.id == iv.var.id) (Subst.ofList pairs) = some q :=
    Option.isSome_iff_exists.mp (List.find?_isSome.mpr ⟨p, hp, by rw [hkey hrun]; exact beq_self_eq_true _⟩)
  obtain ⟨jv, hjv, hrun'⟩ := hfrom q (List.mem_reverse.mp (List.mem_of_find?_eq_some hq))
  have hid := List.find?_some hq
  rw [hkey hrun', beq_iff_eq] at hid
  -- The axes are distinct, so that the entry found is that of the axis itself.
  obtain rfl : jv = iv := List.inj_on_of_nodup_map hdistinct hjv hiv hid
  obtain rfl := Except.ok.inj (hrun.symm.trans hrun')
  have hput : p = (jv.var, rootExpr (Subst.ofList pairs) jv) := by
    rw [rootExpr, Subst.find?, hq]
    exact Prod.ext (hkey hrun) rfl
  have htype := hkept p hp
  rw [hput] at htype
  exact ⟨jv, hiv, hput, htype⟩

/-- What the nest of a stage on its own that reduces is, if nothing is bound. -/
theorem computeNest_reduce_inv {wrap : IterVar → Stmt → Build Stmt} (hroot : st.attach = .root)
    (hplain : st.annotations = [])
    (hreduce : st.op.reduceAxes ≠ []) (h : (c.computeNest st wrap).Yields g nest g') :
    ∃ σ dataGuards reduceGuards init g₁, st.op.isCompute ∧ st.rootValues c.ranges = .ok σ ∧
      (∃ values, AxisValues.ofStage st c.ranges = .ok values ∧ c.splitGuards st values false = .ok dataGuards) ∧
      (∃ values, AxisValues.ofStage st c.ranges = .ok values ∧ c.splitGuards st values true = .ok reduceGuards) ∧
      (c.initNest st (st.op.axes.map (rootExpr σ)) dataGuards).Yields g init g₁ ∧
      (wrapLoops wrap (some (st.leaves.findIdx (·.kind == .reduction), init)) (guarded (dataGuards ++ reduceGuards)
        (underCondition (reductionOf st.op).2.2 σ (provides st.op (st.op.axes.map (rootExpr σ))
          (updates st.op (st.op.axes.map (rootExpr σ)) σ)))) st.leaves).Yields g₁ nest g' := by
  have hbound : ∀ leaf, st.isBound leaf = false := fun leaf => by
    rw [Stage.isBound, Stage.thread?, Stage.annotation?, hplain]
    rfl
  unfold computeNest at h
  dsimp only at h
  split at h
  · simp at h
  rename_i hcompute
  simp only [Build.yields_bind, Build.yields_liftExcept] at h
  obtain ⟨values, g₁, ⟨hvalues, rfl⟩, σ, g₂, ⟨hσ, rfl⟩, splits, g₃, ⟨hsplits, rfl⟩, domains, g₄, ⟨hdomains, rfl⟩, h⟩ := h
  rw [if_neg (by simpa using hreduce)] at h
  obtain ⟨reduces, g₅, hlift, h⟩ := Build.yields_bind.mp h
  obtain ⟨hreduces, rfl⟩ := Build.yields_liftExcept.mp hlift
  rw [if_neg (by simp [hbound])] at h
  obtain ⟨init, g₅, hinit, h⟩ := Build.yields_bind.mp h
  have hnone : domains = [] := by
    rw [domainGuards, hroot] at hdomains
    exact (Except.ok.inj hdomains).symm
  rw [hnone, List.append_nil] at hinit h
  exact ⟨σ, splits, reduces, init, g₅, by simpa using hcompute, hσ, ⟨values, hvalues, hsplits⟩, ⟨values, hvalues, hreduces⟩,
    hinit, h⟩

/-- No stage is computed in the loops of a stage that no stage is attached to. -/
theorem wrap_of_unattached {depth : Nat} {leaf : IterVar} {b s : Stmt} (hattached : c.attached = [])
    (h : (c.wrap depth st leaf b).Yields g s g') : c.loop st leaf b = .ok s := by
  have hnone : c.attachedTo leaf = [] := by rw [attachedTo, hattached]; rfl
  rw [wrap, hnone, List.foldrM_nil] at h
  obtain ⟨b', g₁, hb, h⟩ := Build.yields_bind.mp h
  obtain ⟨rfl, -⟩ := Build.yields_pure.mp hb
  exact (Build.yields_liftExcept.mp h).1

end NestContext

namespace Stage.Reducing

open NestContext (rootExpr reached initLeaves provides guarded)

variable {V : Type} [Inhabited V] [DecidableEq V] {R : FaithfulReading V} {T T' : Contents V} {π : Valuation V}
  {Γ : Context}
  {ρ : Valuation Int} {L E : Nat → Int} {c : NestContext} {st : Stage} {σ : Subst} {dataGuards reduceGuards : List Expr}
  {f : Fold}
  {n : Nat} {g g' : Graph} {init : Stmt} {outer : List IterVar} {p : List Int}
  (h : st.Reducing Γ ρ L E c σ dataGuards reduceGuards) (hf : f.Proper Γ n st.op) (hρ : R.Represents Γ ρ π)
  (hleaves : ∀ leaf ∈ st.leaves, leaf.id ∈ st.op.rootAxes.map (·.id) ∨ n ≤ leaf.id)

include h hf hρ hleaves

/-- The start of a reduction goes through the data leaf axes inside the reduction. -/
theorem writes_initNest (hexact : NestContext.ExactOver c R π σ dataGuards st.op.axes st.dataPart.leaves E)
    (hn : n ≤ g.next)
    (hold : ∀ leaf ∈ st.leaves, leaf.id < g.next) (hnew : ∀ x, g.next ≤ x → Γ x = none)
    (hT : ∀ i ≠ st.op.idx, T' i = T i) (houter : st.dataPart.leaves = outer ++ initLeaves st)
    (hp : p ∈ points (outer.map fun leaf => ints 0 (E leaf.id)))
    (hinit : (c.initNest st (st.op.axes.map (rootExpr σ)) dataGuards).Yields g init g') :
    init.writes R.toReading (π.assign (outer.map (·.var)) (p.map R.index)) T' = played (f.act R T π st.op)
      ((points ((initLeaves st).map fun leaf => ints 0 (E leaf.id))).flatMap fun q =>
        (reached σ dataGuards st.op.axes (ρ.assign (st.dataPart.leaves.map (·.var)) (p ++ q))).map fun x =>
        (x, none)) T' := by
  have hdata : st.dataPart.leaves ⊆ st.leaves := List.filter_subset_self _
  have hinner : initLeaves st ⊆ st.dataPart.leaves := fun leaf hleaf => houter ▸ List.mem_append_right _ hleaf
  have hsub : initLeaves st ⊆ st.leaves := fun leaf hleaf => hdata (hinner hleaf)
  have hunknown : ∀ leaf ∈ st.leaves, Γ leaf.id = none := fun leaf hleaf => h.apart leaf (h.leaves_subset hleaf)
  have hdistinctData := (h.measured.dataPart h.parted h.made).consistent.leavesDistinct
  have hdistinct : ((initLeaves st).map (·.id)).Nodup := by
    have hleavesDistinct := hdistinctData
    rw [houter, List.map_append] at hleavesDistinct
    exact hleavesDistinct.of_append_right
  have hlen : p.length = outer.length := by simpa using length_of_mem_points hp
  obtain ⟨loopVar, s, g₁, hnodup, hbeyond, htypes, hloops, rfl⟩ := NestContext.initNest_inv h.plain hdistinct hinit
  generalize hτ : Subst.ofList (((initLeaves st).map (·.var)).zip ((initLeaves st).map fun leaf => .var (loopVar leaf))) = τ
  have hvaluation : ∀ (T : Contents V) (π : Valuation V), τ.valuation R.toReading T π =
      π.assign ((initLeaves st).map (·.var)) ((initLeaves st).map fun leaf => π (loopVar leaf).id) := by
    intro T π
    rw [← hτ, Subst.valuation_ofList_zip (by simp), List.map_map]
    rfl
  have hputs : ∀ r ∈ τ, ∃ leaf ∈ initLeaves st, r = (leaf.var, .var (loopVar leaf)) := fun r hr =>
    Subst.exists_of_mem_renaming (hτ ▸ hr)
  -- The new variables have the types of the leaf axes that they stand for.
  have hsafe : ∀ {ρ' : Valuation Int} {t : DataType} {e : Expr} {k : Int},
      Expr.Evaluates (Γ.withAxes st.dataPart.leaves) [] False ρ' t e k → τ.Safe e := by
    refine fun he => he.safe τ fun v r hv hr => ?_
    obtain ⟨q, hq, hid, rfl⟩ := Expr.exists_of_find? hr
    obtain ⟨leaf, hleaf, rfl⟩ := hputs q hq
    have hid : v.id = leaf.id := hid.symm
    rw [hid, withAxes_of_mem hdistinctData (hinner hleaf)] at hv
    exact (htypes leaf hleaf).trans (Option.some.inj hv)
  have hfresh : ∀ leaf ∈ initLeaves st, g.next ≤ (loopVar leaf).id := fun leaf hleaf =>
    hbeyond _ (List.mem_map_of_mem (List.mem_map_of_mem hleaf))
  have hout : ∀ x < g.next, x ∉ ((initLeaves st).map loopVar).map (·.id) := fun x hx hmem =>
    Nat.not_lt.mpr (hbeyond x hmem) hx
  rw [hf.reductionOf_eq] at hloops
  rw [NestContext.inTurn_foldrM (I := R.Represents Γ ρ) (E := E) (·.subst τ) ?_ ?_ hloops ?_]
  · refine inTurn_played (C := fun T' => ∀ i ≠ st.op.idx, T' i = T i) (fun e T' => f.act_keeps e) (fun q hq T' hT' => ?_) hT
    have hqlen : q.length = (initLeaves st).length := by simpa using length_of_mem_points hq
    have hplaced := (h.exists_data (p ++ q)).1
    have hpqlen : (p ++ q).length = st.dataPart.leaves.length := by rw [houter]; simp [hlen, hqlen]
    have hpq : p ++ q ∈ points (st.dataPart.leaves.map fun leaf => ints 0 (E leaf.id)) := by
      rw [houter, List.map_append]
      exact (append_mem_points hp).mpr hq
    have hinside := hρ.inside (fun leaf hleaf => hleaves leaf (hdata hleaf)) hpqlen
    have hvalues : ((initLeaves st).map fun leaf => (π.assign (outer.map (·.var)) (p.map R.index)).assign
        ((initLeaves st).map loopVar) (q.map R.index) (loopVar leaf).id) = q.map R.index := by
      exact Valuation.map_assign_map _ _ hnodup _ (by simp [hqlen]) _
    rw [NestContext.writes_subst_guarded, hvaluation, hvalues]
    · have hinside' : Inside R st.op n Γ π (Γ.withAxes st.dataPart.leaves)
          (ρ.assign (st.dataPart.leaves.map (·.var)) (p ++ q))
          (((π.assign (outer.map (·.var)) (p.map R.index)).assign ((initLeaves st).map loopVar) (q.map R.index)).assign
            ((initLeaves st).map (·.var)) (q.map R.index)) := by
        refine hinside.congr hn (fun x hx => ?_) fun x hx => ?_
        · rw [withAxes_of_not_mem, hnew x hx]
          intro hmem
          obtain ⟨leaf, hleaf, rfl⟩ := List.mem_map.mp hmem
          exact absurd (hold leaf (hdata hleaf)) (Nat.not_lt.mpr hx)
        · rw [houter, List.map_append, List.map_append, Valuation.assign_append (by simp [hlen])]
          exact Valuation.assign_congr (fun _ => Valuation.assign_of_not_mem (hout x hx) _ _) _
      refine hf.writes_start hinside' hT' hplaced ?_
      rw [hplaced.insideExact_eq hinside'.represents hinside.represents]
      exact hexact.inside _ hpq
    · intro e he
      obtain ⟨k, hk⟩ := hplaced.guards e he
      exact hsafe hk
    · intro e he
      obtain ⟨iv, hiv, rfl⟩ := List.mem_map.mp he
      obtain ⟨k, t, -, hk⟩ := hplaced.axes iv hiv
      exact hsafe hk
    · refine hf.safe_renaming f.identity_mem_exprs fun r hr => ?_
      obtain ⟨leaf, hleaf, rfl⟩ := hputs r hr
      refine ⟨(hleaves leaf (hsub hleaf)).imp_left fun hroot => ?_, fun x hx => ?_⟩
      · obtain ⟨iv, hiv, hid⟩ := List.mem_map.mp hroot
        have hmem : iv ∈ st.all := h.measured.consistent.all ▸ List.mem_append_left _ hiv
        obtain rfl := List.inj_on_of_nodup_map h.measured.consistent.distinct hmem (h.leaves_subset (hsub hleaf)) hid
        exact ⟨iv, hiv, rfl, htypes iv hleaf⟩
      · rw [Expr.freeIds, List.mem_singleton] at hx
        exact hx ▸ Nat.le_trans hn (hfresh leaf hleaf)
  · exact fun leaf hleaf π' k hπ' => hπ'.update (hnew _ (hfresh leaf hleaf)) _
  · intro leaf hleaf b g₂ b' g₃ hloop π' hπ' T'
    have hextent := h.measured.extents leaf (h.leaves_subset (hsub hleaf))
    have hput : R.Represents Γ ρ (τ.valuation R.toReading T' π') := by
      rw [hvaluation]
      refine hπ'.assign (fun v hv => ?_) _
      obtain ⟨leaf', hleaf', rfl⟩ := List.mem_map.mp hv
      exact hunknown leaf' (hsub hleaf')
    refine NestContext.writes_initLoop (h.typed leaf (h.leaves_subset (hsub hleaf))) (htypes leaf hleaf) hextent hput
      (fun r hr => ?_) (fun r hr => ?_) (hexact.counters leaf (hinner hleaf)) hloop
    · obtain ⟨t, -, hr'⟩ := hextent.ensures r hr
      refine hr'.safe τ fun v e hv he => ?_
      obtain ⟨q, hq, hid, rfl⟩ := Expr.exists_of_find? he
      obtain ⟨leaf', hleaf', rfl⟩ := hputs q hq
      have hid : v.id = leaf'.id := hid.symm
      rw [hid, hunknown leaf' (hsub hleaf')] at hv
      cases hv
    · obtain ⟨t, -, hr'⟩ := hextent.ensures r hr
      rw [← hr'.typed.exact_eq hρ hput]
      exact hexact.extents leaf (hinner hleaf) r hr
  · refine hρ.assign (fun v hv => ?_) _
    obtain ⟨leaf, hleaf, rfl⟩ := List.mem_map.mp hv
    exact hunknown leaf (hdata (houter ▸ List.mem_append_left _ hleaf))

end Stage.Reducing

namespace Stage

open NestContext (rootExpr reached initLeaves provides guarded)

variable {V : Type} [Inhabited V] [DecidableEq V] {R : FaithfulReading V} {T T' : Contents V} {π : Valuation V}
  {Γ : Context}
  {ρ : Valuation Int} {L E : Nat → Int} {c : NestContext} {st : Stage} {σ : Subst}
  {dataGuards guards reduceGuards : List Expr}
  {f : Fold} {n : Nat} {g g' : Graph} {nest : Stmt}

/-- The leaf axes outside the first axis of a reduction. -/
def outerLeaves (st : Stage) : List IterVar :=
  st.leaves.takeWhile (·.kind != .reduction)

/-- The leaf axes from the first axis of a reduction on. -/
def innerLeaves (st : Stage) : List IterVar :=
  st.leaves.dropWhile (·.kind != .reduction)

theorem outer_append_inner (st : Stage) : st.outerLeaves ++ st.innerLeaves = st.leaves :=
  List.takeWhile_append_dropWhile

theorem dataPart_leaves (st : Stage) : st.dataPart.leaves = st.outerLeaves ++ initLeaves st := by
  have houter : st.outerLeaves.filter (·.kind != .reduction) = st.outerLeaves :=
    List.filter_eq_self.mpr (List.all_eq_true.mp List.all_takeWhile)
  calc st.dataPart.leaves = (st.outerLeaves ++ st.innerLeaves).filter (·.kind != .reduction) := by
        rw [outer_append_inner]; rfl
    _ = st.outerLeaves ++ initLeaves st := by
        rw [List.filter_append, houter]; rfl

/-- Where the start of a reduction is, the outer leaf axes being at a point. -/
def starts (st : Stage) (E : Nat → Int) (σ : Subst) (guards : List Expr) (ρ : Valuation Int) (p : List Int) :
    List (List Int) :=
  (points ((initLeaves st).map fun leaf => ints 0 (E leaf.id))).flatMap fun q =>
    reached σ guards st.op.axes (ρ.assign (st.dataPart.leaves.map (·.var)) (p ++ q))

/-- Where the updates of a reduction are, the outer leaf axes being at a point. -/
def updates (st : Stage) (E : Nat → Int) (σ : Subst) (guards : List Expr) (ρ : Valuation Int) (p : List Int) :
    List (List Int) :=
  (points (st.innerLeaves.map fun leaf => ints 0 (E leaf.id))).flatMap fun q =>
    reached σ guards st.op.rootAxes (ρ.assign (st.leaves.map (·.var)) (p ++ q))

theorem flatMap_starts : (points (st.outerLeaves.map fun leaf => ints 0 (E leaf.id))).flatMap (st.starts E σ guards ρ) =
    (points (st.dataPart.leaves.map fun leaf => ints 0 (E leaf.id))).flatMap fun p =>
      reached σ guards st.op.axes (ρ.assign (st.dataPart.leaves.map (·.var)) p) := by
  have hparts := flatMap_points_append st.outerLeaves (initLeaves st) (fun leaf => ints 0 (E leaf.id)) fun p =>
    reached σ guards st.op.axes (ρ.assign (st.dataPart.leaves.map (·.var)) p)
  rw [← dataPart_leaves] at hparts
  exact hparts.symm

theorem flatMap_updates : (points (st.outerLeaves.map fun leaf => ints 0 (E leaf.id))).flatMap (st.updates E σ guards ρ) =
    (points (st.leaves.map fun leaf => ints 0 (E leaf.id))).flatMap fun p =>
      reached σ guards st.op.rootAxes (ρ.assign (st.leaves.map (·.var)) p) := by
  have hparts := flatMap_points_append st.outerLeaves st.innerLeaves (fun leaf => ints 0 (E leaf.id)) fun p =>
    reached σ guards st.op.rootAxes (ρ.assign (st.leaves.map (·.var)) p)
  rw [outer_append_inner] at hparts
  exact hparts.symm

/-- The events of the nest of a reduction. -/
def events (st : Stage) (E : Nat → Int) (σ : Subst) (dataGuards reduceGuards : List Expr) (ρ : Valuation Int) (f : Fold)
    (R : FaithfulReading V) (T : Contents V) (π : Valuation V) : List Event :=
  (points (st.outerLeaves.map fun leaf => ints 0 (E leaf.id))).flatMap fun p =>
    (st.starts E σ dataGuards ρ p).map (fun x => (x, none)) ++
      (f.steps R T π st.op (st.updates E σ (dataGuards ++ reduceGuards) ρ p)).map fun s => (s.1, some s.2)

theorem Looping.nodup_rootAxes (h : st.Looping Γ ρ L E c σ guards) : (st.op.rootAxes.map (·.id)).Nodup := by
  have hdistinct := h.measured.consistent.distinct
  rw [h.measured.consistent.all, Relation.axesOf, List.map_append] at hdistinct
  exact hdistinct.of_append_left

/-- In the nest of a reduction, the start stands before the loops of the inner leaf axes, inside those of the outer ones. -/
theorem Looping.around_start (h : st.Looping Γ ρ L E c σ guards) (hreduce : st.op.reduceAxes ≠ [])
    {wrap : IterVar → Stmt → Build Stmt} {init update : Stmt}
    (hloops : (NestContext.wrapLoops wrap (some (st.leaves.findIdx (·.kind == .reduction), init)) update st.leaves).Yields
      g nest g') : ∃ rest g₁, (st.innerLeaves.foldrM wrap update).Yields g rest g₁ ∧
        (st.outerLeaves.foldrM wrap (Stmt.ofList [init, rest])).Yields g₁ nest g' := by
  have hfirst : st.leaves.findIdx (·.kind == .reduction) = st.outerLeaves.length := by
    rw [outerLeaves, List.takeWhile_eq_take_findIdx_not]
    simp [List.findIdx_le_length, bne]
  have hinner : st.innerLeaves ≠ [] := by
    obtain ⟨leaf, hleaf, hkind⟩ := h.exists_reduction_leaf hreduce
    intro hnil
    rw [← outer_append_inner, hnil, List.append_nil] at hleaf
    have hdata := List.all_eq_true.mp List.all_takeWhile leaf hleaf
    simp [hkind] at hdata
  rw [hfirst, ← outer_append_inner st] at hloops
  exact NestContext.wrapLoops_first hinner hloops

namespace Reducing

variable (h : st.Reducing Γ ρ L E c σ dataGuards reduceGuards) (hf : f.Proper Γ n st.op) (hρ : R.Represents Γ ρ π)
  (hleaves : ∀ leaf ∈ st.leaves, leaf.id ∈ st.op.rootAxes.map (·.id) ∨ n ≤ leaf.id)
include h hf hρ hleaves

/-- The nest of a reduction writes what its events write. -/
theorem writes_nest (hdataExact : NestContext.ExactOver c R π σ dataGuards st.op.axes st.dataPart.leaves E)
    (hexact : NestContext.ExactOver c R π σ (dataGuards ++ reduceGuards) st.op.rootAxes st.leaves E)
    (hkept : ∀ p ∈ σ, p.2.dtype = p.1.dtype) (hreduce : st.op.reduceAxes ≠ []) (hattached : c.attached = [])
    (hn : n ≤ g.next)
    (hold : ∀ leaf ∈ st.leaves, leaf.id < g.next) (hnew : ∀ x, g.next ≤ x → Γ x = none) {g₁ : Graph} {init : Stmt}
    {depth : Nat}
    (hinit : (c.initNest st (st.op.axes.map (rootExpr σ)) dataGuards).Yields g init g₁)
    (hloops : (NestContext.wrapLoops (c.wrap depth st) (some (st.leaves.findIdx (·.kind == .reduction), init))
      (guarded (dataGuards ++ reduceGuards) (NestContext.underCondition (NestContext.reductionOf st.op).2.2 σ
        (provides st.op (st.op.axes.map (rootExpr σ)) (NestContext.updates st.op (st.op.axes.map (rootExpr σ)) σ))))
      st.leaves).Yields g₁ nest g') :
    nest.writes R.toReading π T = played (f.act R T π st.op) (st.events E σ dataGuards reduceGuards ρ f R T π) T := by
  have hsplit := outer_append_inner st
  obtain ⟨rest, g₂, hrest, houter⟩ := h.around_start hreduce hloops
  have hunknown : ∀ leaf ∈ st.leaves, Γ leaf.id = none := fun leaf hleaf => h.apart leaf (h.leaves_subset hleaf)
  have hkeep : ∀ leaf ∈ st.leaves, ∀ π (k : Int), R.Represents Γ ρ π →
    R.Represents Γ ρ (Function.update π leaf.id (R.index k)) :=
    fun leaf hleaf π k hπ => hπ.update (hunknown leaf hleaf) _
  have hwrap : ∀ leaf ∈ st.leaves, ∀ {b g b' g'}, (c.wrap depth st leaf b).Yields g b' g' → ∀ π, R.Represents Γ ρ π → ∀ T,
      b'.writes R.toReading π T =
        inTurn (fun k : Int => b.writes R.toReading (Function.update π leaf.id (R.index k))) (ints 0 (E leaf.id)) T := by
    intro leaf hleaf b g b' g' hloop π' hπ' T
    have hextent := h.measured.extents leaf (h.leaves_subset hleaf)
    refine NestContext.writes_loop h.plain (h.typed leaf (h.leaves_subset hleaf)) hextent hπ' (fun r hr => ?_)
      (hexact.counters leaf hleaf) (NestContext.wrap_of_unattached hattached hloop)
    obtain ⟨t, -, hr'⟩ := hextent.ensures r hr
    rw [← hr'.typed.exact_eq hρ hπ']
    exact hexact.extents leaf hleaf r hr
  have hroots := h.nodup_rootAxes
  have hplace : ∀ p : List Int, R.Represents Γ ρ (π.assign (st.outerLeaves.map (·.var)) (p.map R.index)) := by
    refine fun p => hρ.assign (fun v hv => ?_) _
    obtain ⟨leaf, hleaf, rfl⟩ := List.mem_map.mp hv
    exact hunknown leaf (hsplit ▸ List.mem_append_left _ hleaf)
  rw [NestContext.inTurn_foldrM (I := R.Represents Γ ρ) (E := E) (fun s => s)
    (fun leaf hleaf => hkeep leaf (hsplit ▸ List.mem_append_left _ hleaf))
    (fun leaf hleaf => hwrap leaf (hsplit ▸ List.mem_append_left _ hleaf)) houter hρ]
  refine inTurn_played (C := fun T' => ∀ i ≠ st.op.idx, T' i = T i) (fun e T' => f.act_keeps e) (fun p hp T' hT' => ?_)
    fun _ _ => rfl
  have hplen : p.length = st.outerLeaves.length := by simpa using length_of_mem_points hp
  have hstart := h.writes_initNest hf hρ hleaves hdataExact hn hold hnew hT' st.dataPart_leaves hp hinit
  have hstarted : ∀ i ≠ st.op.idx, T'.writeAll (init.writes R.toReading (π.assign (st.outerLeaves.map (·.var))
      (p.map R.index)) T') i =
      T i := by
    rw [hstart]
    exact holds_played (C := fun T' => ∀ i ≠ st.op.idx, T' i = T i) (fun e T' => f.act_keeps e) _ hT'
  have hupdate : ∀ T', (∀ i ≠ st.op.idx, T' i = T i) →
      rest.writes R.toReading (π.assign (st.outerLeaves.map (·.var)) (p.map R.index)) T' = played (f.act R T π st.op)
        ((f.steps R T π st.op (st.updates E σ (dataGuards ++ reduceGuards) ρ p)).map fun s => (s.1, some s.2)) T' := by
    intro T' hT'
    rw [NestContext.inTurn_foldrM (I := R.Represents Γ ρ) (E := E) (fun s => s)
      (fun leaf hleaf => hkeep leaf (hsplit ▸ List.mem_append_right _ hleaf))
      (fun leaf hleaf => hwrap leaf (hsplit ▸ List.mem_append_right _ hleaf)) hrest (hplace p), updates, Fold.steps_flatMap,
      List.map_flatMap]
    refine inTurn_played (C := fun T' => ∀ i ≠ st.op.idx, T' i = T i) (fun e T' => f.act_keeps e)
      (fun q hq T' hT' => ?_) hT'
    have hqlen : q.length = st.innerLeaves.length := by simpa using length_of_mem_points hq
    have hpqlen : (p ++ q).length = st.leaves.length := by
      rw [← hsplit, List.length_append, List.length_append, hplen, hqlen]
    have hinside := hρ.inside hleaves hpqlen
    have hpq : p ++ q ∈ points (st.leaves.map fun leaf => ints 0 (E leaf.id)) := by
      rw [← hsplit, List.map_append]
      exact (append_mem_points hp).mpr hq
    have hassign : (π.assign (st.outerLeaves.map (·.var)) (p.map R.index)).assign (st.innerLeaves.map (·.var))
        (q.map R.index) =
        π.assign (st.leaves.map (·.var)) ((p ++ q).map R.index) := by
      rw [← Valuation.assign_append (by simp [hplen]), ← List.map_append, ← List.map_append, hsplit]
    rw [hassign, hf.reductionOf_eq]
    exact hf.writes_update hinside hT' hroots (h.exists_all (p ++ q)).1 (NestContext.puts_rootValues hroots hkept h.roots)
      (hexact.inside _ hpq)
  rw [Stmt.writes_ofList, inTurn, inTurn, inTurn, List.append_nil, hupdate _ hstarted, hstart, played_append]
  rw [starts, List.map_flatMap]

omit hf hρ hleaves

/-- Where an update is, the start of the reduction has been. -/
theorem take_mem_starts {p v : List Int} (hp : p ∈ points (st.outerLeaves.map fun leaf => ints 0 (E leaf.id)))
    (hv : v ∈ st.updates E σ (dataGuards ++ reduceGuards) ρ p) :
    v.take st.op.axes.length ∈ st.starts E σ dataGuards ρ p := by
  obtain ⟨q, hq, hv⟩ := List.mem_flatMap.mp hv
  have hsplit := outer_append_inner st
  have hpq : p ++ q ∈ points (st.leaves.map fun leaf => ints 0 (E leaf.id)) := by
    rw [← hsplit, List.map_append]
    exact (append_mem_points hp).mpr hq
  have hmap := Valuation.map_assign_map st.leaves (·.var) (by
    rw [IterVar.map_id_map_var]
    exact h.measured.consistent.leavesDistinct) (p ++ q) (by simpa using length_of_mem_points hpq) ρ
  change st.leaves.map (fun leaf => ρ.assign (st.leaves.map (·.var)) (p ++ q) leaf.id) = p ++ q at hmap
  have hdata := h.reached_data (p ++ q)
  generalize ρ.assign (st.leaves.map (·.var)) (p ++ q) = ρ' at hv hmap hdata
  have houter : st.outerLeaves.map (fun leaf => ρ' leaf.id) = p := by
    rw [← hsplit, List.map_append] at hmap
    exact (List.append_inj hmap (by simpa using (length_of_mem_points hp).symm)).1
  have hinit : (initLeaves st).map (fun leaf => ρ' leaf.id) ∈ points ((initLeaves st).map fun leaf =>
    ints 0 (E leaf.id)) := by
    rw [← hmap] at hpq
    exact mem_points_leaves.mpr fun leaf hleaf => mem_points_leaves.mp hpq leaf
      (List.filter_subset_self _ (st.dataPart_leaves ▸ List.mem_append_right _ hleaf))
  refine List.mem_flatMap.mpr ⟨_, hinit, ?_⟩
  have hpoint : st.dataPart.leaves.map (fun leaf => ρ' leaf.id) = p ++ (initLeaves st).map fun leaf => ρ' leaf.id := by
    rw [dataPart_leaves, List.map_append, houter]
  simp only [hpoint] at hdata
  rw [hdata]
  unfold reached at hv ⊢
  split at hv
  · rename_i hguards
    rw [if_pos fun e he => hguards e (List.mem_append_left _ he), List.mem_singleton.mp hv, Operation.rootAxes,
      List.map_append,
      List.take_left' (List.length_map _)]
    exact List.mem_singleton_self _
  · cases hv

omit [DecidableEq V] in
/-- Each data point is started once, before its steps, which are made once at each point of the axes of the reduction
    that is taken. -/
theorem events_at {x : List Int} (hx : x ∈ points (st.op.axes.map fun iv => ints (L iv.id) (E iv.id))) :
    ∃ ks : List (List Int), (st.events E σ dataGuards reduceGuards ρ f R T π).filter (·.1 = x) =
      (x, none) :: ks.map (fun k => (x, some k)) ∧
      ks.Perm ((points (st.op.reduceAxes.map fun iv => ints (L iv.id) (E iv.id))).filter fun k =>
        f.taken R.toReading T (st.op.place R π (x ++ k))) := by
  obtain ⟨hnodup, honce⟩ := h.data_once
  obtain ⟨hnodup', honce'⟩ := h.all_once
  rw [← flatMap_starts] at hnodup
  have hmem : x ∈ (points (st.outerLeaves.map fun leaf => ints 0 (E leaf.id))).flatMap (st.starts E σ dataGuards ρ) := by
    rw [flatMap_starts]
    exact (honce x).mpr (mem_points_ints.mp hx)
  refine ⟨_, (filter_events hnodup hmem fun p hp s hs => ?_).trans ?_,
    Fold.perm_steps (fun iv => nodup_ints _ _) hnodup' (fun v => ?_) hx⟩
  · obtain ⟨v, hv, rfl⟩ := List.mem_map.mp hs
    exact h.take_mem_starts hp (List.mem_filter.mp hv).1
  · rw [← Fold.steps_flatMap, flatMap_updates, List.map_map]
    rfl
  · exact (honce' v).trans mem_points_ints.symm

omit [DecidableEq V] in
/-- Nothing happens outside the domain. -/
theorem mem_domain {e : Event} (he : e ∈ st.events E σ dataGuards reduceGuards ρ f R T π) :
    e.1 ∈ points (st.op.axes.map fun iv => ints (L iv.id) (E iv.id)) := by
  obtain ⟨p, hp, he⟩ := List.mem_flatMap.mp he
  have hstart : e.1 ∈ st.starts E σ dataGuards ρ p := by
    obtain he | he := List.mem_append.mp he
    · obtain ⟨x, hx, rfl⟩ := List.mem_map.mp he
      exact hx
    · obtain ⟨s, hs, rfl⟩ := List.mem_map.mp he
      obtain ⟨v, hv, rfl⟩ := List.mem_map.mp hs
      exact h.take_mem_starts hp (List.mem_filter.mp hv).1
  have hmem := List.mem_flatMap.mpr ⟨p, hp, hstart⟩
  rw [flatMap_starts] at hmem
  exact mem_points_ints.mpr ((h.data_once.2 e.1).mp hmem)

include hf

/-- What the events of a reduction write computes the reduction, if the steps of the combiner commute. -/
theorem computed (hcommutes : f.Commutes R.toReading T π) : f.Computed R T π st.op (fun iv => ints (L iv.id) (E iv.id))
    (played (f.act R T π st.op) (st.events E σ dataGuards reduceGuards ρ f R T π) T) := by
  refine ⟨fun w hw => ?_, fun x hx => ?_, fun x hx => ?_⟩
  · obtain ⟨e, he, T', rfl⟩ := mem_played hw
    exact ⟨e.1, h.mem_domain he, e.op_act T', e.output_act T', e.index_act T'⟩
  · obtain ⟨ks, hevents, hperm⟩ := h.events_at (f := f) (R := R) (T := T) (π := π) hx
    exact ⟨ks, hperm, (valuesAt_started hevents).1⟩
  · obtain ⟨ks, hevents, hperm⟩ := h.events_at (f := f) (R := R) (T := T) (π := π) hx
    exact (valuesAt_started hevents).2.trans (hperm.foldl_eq' (fun k _ k' _ a => hf.next_comm hcommutes _ _ a) _)

include hρ hleaves

/-- The nest of a reduction computes it over its domain, if the arithmetic of indices in it is exact. -/
theorem computed_nest (hexact : c.exact R π st = .ok true) (hkept : ∀ p ∈ σ, p.2.dtype = p.1.dtype)
    (hreduce : st.op.reduceAxes ≠ []) (hattached : c.attached = []) (hn : n ≤ g.next)
    (hold : ∀ leaf ∈ st.leaves, leaf.id < g.next) (hnew : ∀ x, g.next ≤ x → Γ x = none) {g₁ : Graph} {init : Stmt}
    {depth : Nat} (hinit : (c.initNest st (st.op.axes.map (rootExpr σ)) dataGuards).Yields g init g₁)
    (hloops : (NestContext.wrapLoops (c.wrap depth st) (some (st.leaves.findIdx (·.kind == .reduction), init))
      (guarded (dataGuards ++ reduceGuards) (NestContext.underCondition (NestContext.reductionOf st.op).2.2 σ
        (provides st.op (st.op.axes.map (rootExpr σ)) (NestContext.updates st.op (st.op.axes.map (rootExpr σ)) σ))))
      st.leaves).Yields g₁ nest g') (hcommutes : f.Commutes R.toReading T π)
    (hdomain : ∀ iv ∈ st.op.rootAxes, L iv.id = iv.start ρ ∧ E iv.id = iv.length ρ) :
    f.Computed R T π st.op (fun iv => ints (iv.start ρ) (iv.length ρ)) (nest.writes R.toReading π T) := by
  obtain ⟨hdataExact, hallExact⟩ := h.exactOver hρ hexact
  rw [h.writes_nest hf hρ hleaves hdataExact hallExact hkept hreduce hattached hn hold hnew hinit hloops]
  refine (h.computed hf hcommutes).congr fun iv hiv => ?_
  obtain ⟨hstart, hlength⟩ := hdomain iv hiv
  rw [hstart, hlength]

end Reducing

end Stage

end TensorNest

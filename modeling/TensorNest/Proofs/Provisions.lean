import TensorNest.Proofs.Exactness
import TensorNest.Proofs.Writes

/-! # Each point of a domain is provided once

The loops of the nest of a stage run through the points of its leaf axes. At each of these the nest provides the element
at one index, unless a guard keeps it from that (`Stage.Looping.indices_nest`), so that each point of the domain is
provided once. This holds for the nest of any stage on its own that does not reduce, after any transforms that note
nothing about axes, for all values of the symbols that the domains and the splits are given in, if the arithmetic of
indices is exact (`Schedule.provided_once_of_transforms`). -/

namespace TensorNest

section Indices
variable {V α : Type} [DecidableEq V] {key : Nat × Int} {T : Contents V} {ws us : List (Write V)}

/-- The indices of the elements of an output that are written, in order. -/
def indicesOf (key : Nat × Int) (ws : List (Write V)) : List (List V) :=
  (ws.filter fun w => (w.op, w.output) = key).map (·.index)

omit [DecidableEq V] in
theorem indicesOf_append : indicesOf key (ws ++ us) = indicesOf key ws ++ indicesOf key us := by
  rw [indicesOf, List.filter_append, List.map_append]
  rfl

omit [DecidableEq V] in
theorem indicesOf_eq_nil (h : ∀ w ∈ ws, (w.op, w.output) ≠ key) : indicesOf key ws = [] := by
  rw [indicesOf, List.filter_eq_nil_iff.mpr fun w hw => by simpa using h w hw, List.map_nil]

theorem indicesOf_inTurn {f : α → Contents V → List (Write V)} {F : α → List (List V)} {l : List α}
    (h : ∀ a ∈ l, ∀ T, indicesOf key (f a T) = F a) : indicesOf key (inTurn f l T) = l.flatMap F := by
  induction l generalizing T with
  | nil => rfl
  | cons a l ih =>
    obtain ⟨ha, hl⟩ := List.forall_mem_cons.mp h
    rw [inTurn, indicesOf_append, ha, ih hl, List.flatMap_cons]

theorem mem_inTurn {f : α → Contents V → List (Write V)} {l : List α} {w : Write V} (h : w ∈ inTurn f l T) :
    ∃ a ∈ l, ∃ T, w ∈ f a T := by
  induction l generalizing T with
  | nil => cases h
  | cons a l ih =>
    obtain h | h := List.mem_append.mp h
    · exact ⟨a, List.mem_cons_self, T, h⟩
    · obtain ⟨b, hb, T', hw⟩ := ih h
      exact ⟨b, List.mem_cons_of_mem _ hb, T', hw⟩

end Indices

namespace Stmt

variable {V : Type} [Inhabited V] [DecidableEq V] {R : Reading V} {key : Nat × Int} {π : Valuation V} {T : Contents V}
  {s body : Stmt}

/-- The indices at which a statement provides an output, in order. -/
def indices (R : Reading V) (key : Nat × Int) (s : Stmt) (π : Valuation V) (T : Contents V) : List (List V) :=
  indicesOf key (s.writes R π T)

omit [Inhabited V] [DecidableEq V] in
theorem mem_provisions_of_body {b : Stmt} (hb : b ∈ s.bodies) (h : key ∈ b.provisions) : key ∈ s.provisions := by
  obtain ⟨t, ht, hkey⟩ := List.mem_filterMap.mp (Multiset.mem_coe.mp h)
  refine Multiset.mem_coe.mpr ?_
  rw [stmts_eq]
  exact List.mem_filterMap.mpr ⟨t, List.mem_append_left _ (List.mem_flatMap.mpr ⟨b, hb, ht⟩), hkey⟩

/-- What a statement writes it provides. -/
theorem mem_provisions_of_mem_writes {w : Write V} (h : w ∈ s.writes R π T) : (w.op, w.output) ∈ s.provisions := by
  induction s generalizing π T with
  | provide op output value args =>
    obtain rfl := List.mem_singleton.mp h
    simp
  | loop v min extent kind body ih =>
    obtain ⟨k, -, T', hw⟩ := mem_inTurn h
    exact mem_provisions_of_body (by simp) (ih hw)
  | attr subject name value body ih =>
    rw [writes] at h
    cases hv : (attr subject name value body).binder? with
    | none =>
      rw [hv] at h
      exact mem_provisions_of_body (by simp) (ih h)
    | some v =>
      rw [hv] at h
      obtain ⟨k, -, T', hw⟩ := mem_inTurn h
      exact mem_provisions_of_body (by simp) (ih hw)
  | bind _ _ body ih | assert _ _ body ih | allocate _ _ _ _ _ body ih | realize _ _ _ _ _ body ih =>
    exact mem_provisions_of_body (by simp) (ih h)
  | branch cond onTrue onFalse ih ihf =>
    cases onFalse with
    | none =>
      rw [writes_branch_none] at h
      split at h
      · exact mem_provisions_of_body (by simp) (ih h)
      · cases h
    | some onFalse =>
      rw [writes] at h
      split at h
      · exact mem_provisions_of_body (by simp) (ih h)
      · exact mem_provisions_of_body (by simp) (ihf onFalse rfl h)
  | seq ss ih =>
    rw [writes_seq] at h
    obtain ⟨s, hs, T', hw⟩ := mem_inTurn h
    exact mem_provisions_of_body hs (ih s hs hw)
  | store | prefetch | eval => cases h

end Stmt

/-! ### Nests -/

namespace NestContext

variable {V : Type} [Inhabited V] [DecidableEq V] {R : FaithfulReading V} {key : Nat × Int} {π : Valuation V}
  {T : Contents V}
  {c : NestContext} {st : Stage} {g g' : Graph} {s body : Stmt} {leaf : IterVar}

theorem Spares.indicesOf_writes {R : Reading V} {idx : Nat} (h : Spares idx s) (hkey : key.1 = idx) :
    indicesOf key (s.writes R π T) = [] :=
  indicesOf_eq_nil fun w hw heq => h _ (Stmt.mem_provisions_of_mem_writes hw) (heq ▸ hkey)

/-- Each output of an operation is provided once by the statements that provide its values. -/
theorem indices_provides {R : Reading V} {op : Operation} {args values : List Expr} {i : Nat} {x : List V}
    (hi : i < values.length)
    (hargs : ∀ T, args.map (·.value R T π) = x) : (provides op args values).indices R (op.idx, i) π T = [x] := by
  have hone : ∀ p ∈ values.zipIdx, ∀ T, indicesOf ((op.idx, (i : Int)) : Nat × Int)
      ((Stmt.provide op.ref p.2 p.1 args).writes R π T) = if p.2 = i then [x] else [] := by
    intro p _ T
    have hkey : ((op.ref.idx, (p.2 : Int)) : Nat × Int) = (op.idx, (i : Int)) ↔ p.2 = i := by
      simp [Operation.ref]
    rw [Stmt.writes_provide, hargs, indicesOf, List.filter_singleton]
    by_cases hp : p.2 = i
    · rw [if_pos hp, decide_eq_true (hkey.mpr hp)]
      rfl
    · rw [if_neg hp, decide_eq_false (mt hkey.mp hp)]
      rfl
  have hzip : ∀ k ≤ i, i < k + values.length → (values.zipIdx k).flatMap (fun p => if p.2 = i then [x] else []) = [x] := by
    clear hi hone
    induction values with
    | nil =>
      intro k hk hlt
      rw [List.length_nil] at hlt
      omega
    | cons v values ih =>
      intro k hk hlt
      rw [List.zipIdx_cons, List.flatMap_cons]
      obtain rfl | hne := Nat.eq_or_lt_of_le hk
      · have hrest : (values.zipIdx (k + 1)).flatMap (fun p => if p.2 = k then [x] else []) = [] := by
          refine List.flatMap_eq_nil_iff.mpr fun p hp => if_neg ?_
          have hle := List.le_snd_of_mem_zipIdx hp
          omega
        rw [hrest, List.append_nil, if_pos rfl]
      · rw [if_neg (by omega), List.nil_append]
        exact ih (k + 1) hne (by rw [List.length_cons] at hlt; omega)
  rw [Stmt.indices, provides, Stmt.writes_ofList, inTurn_map, indicesOf_inTurn hone]
  exact hzip 0 (Nat.zero_le i) (by omega)

theorem writes_realizations {R : Reading V} (op : Operation) (bounds : List Range) (outputs : List Nat) (body : Stmt) :
    (outputs.foldr (fun (i : Nat) s => Stmt.realize op.ref i (op.outputType i) bounds (Expr.bool true) s) body).writes
      R π T = body.writes R π T := by
  induction outputs with
  | nil => rfl
  | cons i outputs ih => rw [List.foldr_cons, ← ih]; rfl

/-- The realization of a stage writes what its nest does, and then what consumes it. -/
theorem writes_realization {R : Reading V} (st : Stage) (bounds : List Range) (produce consumer : Stmt) :
    ∃ T', (realization st bounds produce (some consumer)).writes R π T =
      produce.writes R π T ++ consumer.writes R π T' := by
  refine ⟨T.writeAll (produce.writes R π T), ?_⟩
  have hattr : ∀ {subject : OpRef} {name : String} {value : Expr} {s : Stmt},
      (Stmt.attr (.op subject) name value s).writes R π T = s.writes R π T := by
    intro subject name value s
    rw [Stmt.writes]
    rfl
  have hproduce : (if st.doubleBuffered then Stmt.attr (.op st.op.ref) "double_buffer_scope" (Expr.int32 1) produce
      else produce).writes R π T = produce.writes R π T := by
    split_ifs
    · exact hattr
    · rfl
  have hbody : ∀ s : Stmt, (if !st.scope.truthy then s else
      Stmt.attr (.op st.op.ref) "realize_scope" (.str st.scope.plainText) s).writes R π T = s.writes R π T := by
    intro s
    split_ifs
    · rfl
    · exact hattr
  rw [realization, hbody, writes_realizations, Option.toList_some, Stmt.writes_ofList, inTurn, inTurn, inTurn, hproduce,
    List.append_nil]

/-- What is attached to a loop adds nothing to what its body provides of another operation. -/
theorem indices_wrap {R : Reading V} {idx : Nat} (hattached : ∀ p ∈ c.attached, p.2.op.idx ≠ idx) {depth : Nat}
    (h : (c.wrap depth st leaf body).Yields g s g') : ∃ inner, c.loop st leaf inner = .ok s ∧
      ∀ key π T, key.1 = idx → ∃ T', inner.indices R key π T = body.indices R key π T' := by
  obtain ⟨inner, g₁, hinner, hloop⟩ := Build.yields_bind.mp h
  refine ⟨inner, (Build.yields_liftExcept.mp hloop).1, ?_⟩
  refine foldrM_keeps (I := fun b => ∀ key π T, key.1 = idx → ∃ T', b.indices R key π T = body.indices R key π T')
    (fun child hchild b g b' g' hb hstep key π T hkey => ?_) (fun _ _ T _ => ⟨T, rfl⟩) hinner
  obtain ⟨p, hp, rfl⟩ := List.mem_map.mp hchild
  cases depth with
  | zero => exact absurd hstep Build.not_yields_throw
  | succ depth =>
    obtain ⟨produce, bounds, g₂, hproduce, rfl⟩ := pipeline_inv hstep
    have hspares : Spares idx produce := spares_computeNest (hattached p (List.mem_filter.mp hp).1)
      (fun leaf _ _ _ _ hb hstep => spares_wrap (fun q hq _ _ _ _ ht hrun =>
        spares_pipeline hattached (hattached q hq) (fun u hu => Option.mem_some.mp hu ▸ ht) hrun) hb hstep) hproduce
    obtain ⟨T₁, hwrites⟩ := writes_realization (R := R) (π := π) (T := T) p.2 bounds produce b
    obtain ⟨T₂, heq⟩ := hb key π T₁ hkey
    refine ⟨T₂, ?_⟩
    rw [Stmt.indices, hwrites, indicesOf_append, hspares.indicesOf_writes hkey, List.nil_append]
    exact heq

/-- Loops around a body run through the points of their extents. -/
theorem indices_foldrM {I : Valuation V → Prop} {E : Nat → Int} {wrap : IterVar → Stmt → Build Stmt} {leaves : List IterVar}
    {F : List Int → List (List V)} (hkeep : ∀ leaf ∈ leaves, ∀ π (k : Int), I π → I (Function.update π leaf.id (R.index k)))
    (hwrap : ∀ leaf ∈ leaves, ∀ {b g b' g'}, (wrap leaf b).Yields g b' g' → ∀ π, I π → ∀ F : Int → List (List V),
      (∀ k ∈ ints 0 (E leaf.id), ∀ T, b.indices R.toReading key (Function.update π leaf.id (R.index k)) T = F k) →
        ∀ T, b'.indices R.toReading key π T = (ints 0 (E leaf.id)).flatMap F)
    (h : (leaves.foldrM wrap body).Yields g s g') (hπ : I π)
    (hbody : ∀ p ∈ points (leaves.map fun leaf => ints 0 (E leaf.id)), ∀ T,
      body.indices R.toReading key (π.assign (leaves.map (·.var)) (p.map R.index)) T = F p) :
    s.indices R.toReading key π T = (points (leaves.map fun leaf => ints 0 (E leaf.id))).flatMap F := by
  induction leaves generalizing π T s g' F with
  | nil =>
    obtain ⟨rfl, -⟩ := Build.yields_pure.mp h
    simpa [points, Valuation.assign] using hbody [] (by simp [points]) T
  | cons leaf leaves ih =>
    rw [List.forall_mem_cons] at hkeep hwrap
    rw [List.foldrM_cons] at h
    obtain ⟨inner, g₁, hinner, hloop⟩ := Build.yields_bind.mp h
    rw [List.map_cons, points] at hbody ⊢
    rw [hwrap.1 hloop π hπ (fun k => (points (leaves.map fun leaf => ints 0 (E leaf.id))).flatMap fun p => F (k :: p)) ?_,
      List.flatMap_assoc]
    · exact List.flatMap_congr fun k _ => (List.flatMap_map ..).symm
    · intro k hk T
      refine ih hkeep.2 hwrap.2 hinner (hkeep.1 π k hπ) fun p hp T => ?_
      exact hbody (k :: p) (List.mem_flatMap.mpr ⟨k, hk, List.mem_map_of_mem hp⟩) T

end NestContext

/-- A number is in the domain of an axis. -/
def IterVar.Spans (ρ : Valuation Int) (iv : IterVar) (n : Int) : Prop :=
  iv.start ρ ≤ n ∧ n < iv.start ρ + iv.length ρ

instance (ρ : Valuation Int) (iv : IterVar) (n : Int) : Decidable (iv.Spans ρ n) := inferInstanceAs (Decidable (_ ∧ _))

namespace Stage.Looping

open NestContext (rootExpr reached guarded provides)

variable {V : Type} [Inhabited V] [DecidableEq V] {R : FaithfulReading V} {T : Contents V} {π : Valuation V} {Γ : Context}
  {ρ : Valuation Int} {L E : Nat → Int} {c : NestContext} {st : Stage} {σ : Subst} {guards bodies : List Expr}
  {g g' : Graph}
  {nest : Stmt}

/-- At each point of the leaf axes that the guards let through, the nest provides each output at the values of the axes
    of the operation, and it provides it nowhere else. -/
theorem indices_nest (h : st.Looping Γ ρ L E c σ guards) (hdata : st.dataPart.leaves = st.leaves) (hρ : R.Represents Γ ρ π)
    (hexact : NestContext.ExactOver c R π σ guards st.op.axes st.leaves E)
    (hattached : ∀ p ∈ c.attached, p.2.op.idx ≠ st.op.idx) {depth : Nat} {i : Nat} (hi : i < bodies.length)
    (hloops : (NestContext.wrapLoops (c.wrap depth st) none
        (guarded guards (provides st.op (st.op.axes.map (rootExpr σ)) bodies))
      st.leaves).Yields g nest g') :
    nest.indices R.toReading (st.op.idx, i) π T = ((points (st.leaves.map fun leaf => ints 0 (E leaf.id))).flatMap fun p =>
      reached σ guards st.op.axes (ρ.assign (st.leaves.map (·.var)) p)).map (·.map R.index) := by
  have hunknown : ∀ leaf ∈ st.leaves, Γ leaf.id = none := fun leaf hleaf => h.apart leaf (h.leaves_subset hleaf)
  rw [NestContext.wrapLoops_eq, NestContext.foldrM_wrapLoop (by simp)] at hloops
  rw [List.map_flatMap]
  refine NestContext.indices_foldrM (I := R.Represents Γ ρ) (fun leaf hleaf π k hπ => hπ.update (hunknown leaf hleaf) _)
    (fun leaf hleaf b g b' g' hwrap π' hπ' F hF T => ?_) hloops hρ fun p hp T => ?_
  · obtain ⟨inner, hloop, hinner⟩ := NestContext.indices_wrap (R := R.toReading) hattached hwrap
    have hextent := h.measured.extents leaf (h.leaves_subset hleaf)
    have hkept : ∀ r, c.ranges.get leaf = .ok r → r.extent.exact R π' := fun r hr => by
      obtain ⟨t, -, hr'⟩ := hextent.ensures r hr
      rw [← hr'.typed.exact_eq hρ hπ']
      exact hexact.extents leaf hleaf r hr
    rw [Stmt.indices, NestContext.writes_loop h.plain (h.typed leaf (h.leaves_subset hleaf)) hextent hπ' hkept
      (hexact.counters leaf hleaf) hloop]
    refine indicesOf_inTurn fun k hk T => ?_
    obtain ⟨T', heq⟩ := hinner (st.op.idx, i) (Function.update π' leaf.id (R.index k)) T rfl
    exact heq.trans (hF k hk T')
  · have hplaced := (h.exists_data p).1
    rw [hdata] at hplaced
    have hvalues : R.Represents (Γ.withAxes st.leaves) _ _ := hρ.withAxes (by simpa using length_of_mem_points hp)
    obtain ⟨hguards, hinside⟩ := hplaced.guards_hold (T := T) hvalues (hexact.inside p hp)
    rw [Stmt.indices, NestContext.writes_guarded, reached]
    by_cases hall : ∀ e ∈ guards, e.integer (ρ.assign (st.leaves.map (·.var)) p) ≠ 0
    · rw [if_pos (hguards.mpr hall), if_pos hall]
      refine NestContext.indices_provides hi fun T => ?_
      rw [List.map_map]
      exact hplaced.map_value hvalues (hinside hall)
    · rw [if_neg (mt hguards.mp hall), if_neg hall]
      rfl

/-- No leaf axis is one of a reduction where nothing is reduced over. -/
theorem leaves_dataPart (h : st.Looping Γ ρ L E c σ guards) {n : Nat} (horderly : st.Orderly n)
    (hreduce : st.op.reduceAxes = []) : st.dataPart.leaves = st.leaves := by
  refine List.filter_eq_self.mpr fun leaf hleaf => ?_
  obtain ⟨root, hderived⟩ := horderly.rooted leaf (h.leaves_subset hleaf)
  refine bne_iff_ne.mpr fun hkind => ?_
  have hmem := (horderly.kind_iff hderived).mp hkind
  rw [hreduce] at hmem
  cases hmem

/-- If the arithmetic of indices is exact, the nest provides each output once at each point of the domain. -/
theorem indices_once (h : st.Looping Γ ρ L E c σ guards) (hdata : st.dataPart.leaves = st.leaves)
    (hdomain : ∀ iv ∈ st.op.rootAxes, L iv.id = iv.start ρ ∧ E iv.id = iv.length ρ) (hρ : R.Represents Γ ρ π)
    (hexact : c.exact R π st = .ok true) (hattached : ∀ p ∈ c.attached, p.2.op.idx ≠ st.op.idx) {depth : Nat} {i : Nat}
    (hi : i < bodies.length)
    (hloops : (NestContext.wrapLoops (c.wrap depth st) none
        (guarded guards (provides st.op (st.op.axes.map (rootExpr σ)) bodies))
      st.leaves).Yields g nest g') :
    ∃ xs : List (List Int), nest.indices R.toReading (st.op.idx, i) π T = xs.map (·.map R.index) ∧ xs.Nodup ∧
      ∀ x, x ∈ xs ↔ List.Forall₂ (IterVar.Spans ρ) st.op.axes x := by
  obtain ⟨values, σ', guards', -, hofStage, hσ, hguards, -, hover, -⟩ := NestContext.exact_inv hexact
  obtain ⟨values', hofStage', hguards'⟩ := h.data
  obtain rfl := Except.ok.inj (h.roots.symm.trans hσ)
  obtain rfl := Except.ok.inj (hofStage.symm.trans hofStage')
  obtain rfl := Except.ok.inj (hguards'.symm.trans hguards)
  rw [hdata] at hover
  have hextents : ∀ leaf ∈ st.leaves, c.ranges.HasExtent Γ ρ leaf (E leaf.id) := fun leaf hleaf =>
    h.measured.extents leaf (h.leaves_subset hleaf)
  obtain ⟨hnodup, honce⟩ := h.data_once
  rw [hdata] at hnodup honce
  refine ⟨_, h.indices_nest hdata hρ (NestContext.ExactOver.of_exactOver hover hρ hextents) hattached hi hloops, hnodup,
    fun x => (honce x).trans ?_⟩
  rw [List.forall₂_iff_zip, List.forall₂_iff_zip]
  refine and_congr_right fun _ => forall₃_congr fun iv n hmem => ?_
  obtain ⟨hstart, hlength⟩ := hdomain iv (List.mem_append_left _ (List.of_mem_zip hmem).1)
  rw [hstart, hlength, IterVar.Spans]

end Stage.Looping

/-! ### Schedules -/

namespace Schedule

variable {s s₀ s₁ : Schedule} {g g' g₀ g₁ g₂ g₃ : Graph} {st : Stage} {V : Type} [Inhabited V] [DecidableEq V]

/-- After any transforms that note nothing about axes, the nest of a stage on its own is built from axes with numbers,
    its roots having their domains. No other stage that is attached to it is of its operation. -/
theorem exists_looping {outputs : List Operation} {ts : List Transform} {m : Ranges} {c : NestContext} {Γ : Context}
    {ρ : Valuation Int} (hnum : g₀.Numbered) (hparted : g₀.Parted) (hwired : g₀.Wired) (hapart : g₀.Apart)
    (hout : ∀ o ∈ outputs, g₀.op? o.idx = some o) (hcreate : (create outputs).Yields g₀ s₀ g₁) (hts : ∀ t ∈ ts, t.Plain)
    (hrun : (ts.forM Transform.run).Yields s₀ g₁ () s₁ g₂) (hbounds : inferBounds.Yields s₁ g₂ m s g₃)
    (hc : NestContext.ofSchedule s m = .ok c) (hst : st ∈ s.stages) (hroot : st.attach = .root) (hcompute : st.op.isCompute)
    (hsymbols : st.Symbolic Γ ρ) : ∃ L E, (∀ iv ∈ st.op.rootAxes, L iv.id = iv.start ρ ∧ E iv.id = iv.length ρ) ∧
      (∀ p ∈ c.attached, p.2.op.idx ≠ st.op.idx) ∧ st.Orderly g₃.next ∧ (∀ iv ∈ st.all, iv.id < g₃.next) ∧
      st.annotations = [] ∧
      ∀ {σ dataGuards}, st.rootValues c.ranges = .ok σ →
        (∃ values, AxisValues.ofStage st c.ranges = .ok values ∧ c.splitGuards st values false = .ok dataGuards) →
          st.Looping Γ ρ L E c σ dataGuards := by
  obtain ⟨rfl, huntouched, hops⟩ := create_untouched (Q := fun o => g₀.op? o.idx = some o)
    (fun ho => (hwired.numbered ho).symm ▸ ho) hout hcreate
  obtain ⟨s₀', hcreate', harranged, hsingle, -⟩ := create_builds hwired hout
  obtain rfl : s₀ = s₀' := Except.ok.inj (congrArg Prod.fst (hcreate.symm.trans hcreate'))
  have hinline : ∀ id, .onStage id .computeInline ∉ ts := fun id hmem => hts _ hmem
  simp only [inferBounds, Edit.yields_bind, Edit.yields_get, Edit.yields_liftExcept] at hbounds
  obtain ⟨_, s₂, g₄, hnormal, _, _, _, ⟨rfl, rfl, rfl⟩, hranges, rfl, rfl⟩ := hbounds
  have hsettled := ((huntouched.settled hnum hapart hops hsingle).run hts hrun).normalize hnormal
  have horderly := ((huntouched.orderly fun st hst => ⟨hparted (hops st hst), hnum (hops st hst)⟩).transforms
    Stage.orderly_kept hinline hrun).normalize Stage.orderly_kept hnormal
  have hcoherent := ((huntouched.coherent fun st hst => hnum (hops st hst)).transforms
    Stage.coherent_kept hinline hrun).normalize Stage.coherent_kept hnormal
  have hcurrent := ((harranged.run hrun).normalize hnormal).current
  have hconsistent := (hcoherent st hst).1.consistent (hsettled.rootsDistinct st hst)
  obtain ⟨L, E, hdomain, hmeasured⟩ := exists_measured hsettled (fun t ht =>
    (horderly t ht).1) hst hconsistent hroot hcompute
    hsymbols hranges
  rw [← NestContext.ranges_ofSchedule hc] at hmeasured
  have htyped : ∀ iv ∈ st.all, iv.dtype.IsIndex := by
    rw [hconsistent.all]
    exact hconsistent.ordered.forall_dtype (horderly st hst).1.made hsymbols.typed
  refine ⟨L, E, hdomain, fun p hp heq => ?_, (horderly st hst).1, hsettled.numbered st hst,
    hsettled.plain st hst, fun hσ hguards => ⟨hmeasured, (horderly st hst).1.parted, (horderly st hst).1.made,
      hsettled.plain st hst, htyped, hsymbols.apart, hσ, hguards⟩⟩
  obtain ⟨hmem, id, axis, hinside, -⟩ := mem_attachedPairs.mp (attached_ofSchedule hc ▸ hp)
  have hsame : p.2 = st := Option.some.inj ((hcurrent p.2 hmem).symm.trans (heq ▸ hcurrent st hst))
  rw [hsame, hroot] at hinside
  cases hinside

namespace Bordered

/-- The extent of an axis. -/
def extent : Var := ⟨3, "n", .int32⟩

/-- What the axis is split by. -/
def factor : Var := ⟨4, "k", .int32⟩

def int (n : Int) : Expr := .const (.int n) .int32

def axis (id : Nat) (min extent : Expr) : IterVar :=
  ⟨some ⟨min, extent⟩, ⟨id, "i", .int32⟩, .dataParallel, ""⟩

/-- `A[i, j] = i + j` for `n` values of `i` from 2 and three values of `j` from 1. -/
def inner : Operation :=
  ⟨0, "A", "", [], .compute [axis 1 (int 2) (.var extent), axis 2 (int 1) (int 3)]
    [.bin .add (.var ⟨1, "i", .int32⟩) (.var ⟨2, "i", .int32⟩)]⟩

def graph : Graph := { ops := #[some inner], next := 5 }

def start : Schedule :=
  match (create [inner]).run.run graph with
  | (.ok s, _) => s
  | _ => default

def operand (id : Nat) : Operand :=
  .axis (axis id (int 0) (int 0))

/-- The first axis is split by `k`, fused again and split into three parts. The second one is rebased. -/
def transforms : List Transform :=
  [.onStage 0 (.split (operand 1) (.expr (.var factor)) .nothing), .onStage 0 (.fuse [operand 5, operand 6]),
    .onStage 0 (.split (operand 7) .nothing (.number (.int 3)))]

def run : Edit Schedule Unit := transforms.forM Transform.run

def result : Schedule := (run.outcome start graph).1.2

def resultGraph : Graph := (run.outcome start graph).2

def bounds : (Except Error Ranges × Schedule) × Graph := inferBounds.outcome result resultGraph

def bounded : Schedule := bounds.1.2

def ranges : Ranges :=
  match bounds.1.1 with
  | .ok m => m
  | .error _ => default

def context : NestContext :=
  match NestContext.ofSchedule bounded ranges with
  | .ok c => c
  | .error _ => ⟨[], [], []⟩

def stage : Stage := bounded.stages.headD default

def built : Except Error Stmt × Graph :=
  ((context.computeNest stage (context.wrap 1 stage)).run.run bounds.2).run

def nest : Stmt :=
  match built.1 with
  | .ok s => s
  | .error _ => .noOp

theorem graph_proper : graph.Numbered ∧ graph.Parted ∧ graph.Wired ∧ graph.Apart := by
  decide

theorem outputs_inner : ∀ o ∈ [inner], graph.op? o.idx = some o := by
  intro o ho
  obtain rfl := List.mem_singleton.mp ho
  rfl

theorem start_yields : (create [inner]).Yields graph start graph := rfl

theorem transforms_plain : ∀ t ∈ transforms, t.Plain := by decide

/-- The transforms succeed, the ranges are found, and the nest is built. -/
theorem succeeds : (run.outcome start graph).1.1.isOk ∧ bounds.1.1.isOk ∧ (NestContext.ofSchedule bounded ranges).isOk ∧
    built.1.isOk ∧ bounded.stages.length = 1 := by
  with_unfolding_all decide

theorem run_borders : run.Yields start graph () result resultGraph :=
  Edit.yields_outcome succeeds.1

theorem bounds_yield : inferBounds.Yields result resultGraph ranges bounded bounds.2 := by
  have hok := succeeds.2.1
  unfold ranges bounded
  rcases h : bounds with ⟨⟨e | m, s⟩, g⟩
  · rw [h] at hok
    cases hok
  · exact h

theorem context_ok : NestContext.ofSchedule bounded ranges = .ok context := by
  have hok := succeeds.2.2.1
  unfold context
  cases h : NestContext.ofSchedule bounded ranges with
  | error e =>
    rw [h] at hok
    cases hok
  | ok c => rfl

theorem nest_yields : (context.computeNest stage (context.wrap 1 stage)).Yields bounds.2 nest built.2 := by
  have hok := succeeds.2.2.2.1
  unfold nest
  rcases h : built with ⟨e | s, g⟩
  · rw [h] at hok
    cases hok
  · exact h

theorem stage_mem : stage ∈ bounded.stages := by
  have hsingle := succeeds.2.2.2.2
  unfold stage
  cases h : bounded.stages with
  | nil =>
    rw [h] at hsingle
    cases hsingle
  | cons st rest => exact List.mem_cons_self

/-- The extent and the factor are symbols. -/
def symbols : Context := fun x => if x = 3 ∨ x = 4 then some .int32 else none

/-- The number of a symbol, or the value of a literal. -/
def atom? : Expr → Option (Nat ⊕ Int)
  | .var v => if symbols v.id = some v.dtype then some (.inl v.id) else none
  | .const (.int n) t => if t = .int32 then some (.inr n) else none
  | _ => none

theorem amounts_of_atom {e : Expr} {a : Nat ⊕ Int} (ρ : Valuation Int) (h : atom? e = some a) :
    e.Amounts symbols ρ (a.elim ρ id) := by
  have hint : DataType.int32.IsIndex := ⟨rfl, rfl⟩
  unfold atom? at h
  split at h
  · rename_i v
    split at h <;> cases h
    rename_i hv
    have htype : v.dtype = .int32 := by
      unfold symbols at hv
      split at hv
      · exact (Option.some.inj hv).symm
      · cases hv
    exact Expr.amounts_var hv (htype ▸ hint)
  · split at h <;> cases h
    rename_i n t ht
    subst ht
    exact ⟨.int32, hint, Expr.evaluates_int hint n⟩
  · cases h

/-- Where the domain of an axis starts, and its extent. -/
def ends (iv : IterVar) : Option (Option (Nat ⊕ Int) × Option (Nat ⊕ Int)) :=
  iv.dom.map fun d => (atom? d.min, atom? d.extent)

/-- What an axis is split by. -/
def divisor : Relation → Option (Option (Nat ⊕ Int))
  | .split _ _ _ factor nparts => (factor.orElse fun _ => nparts).map atom?
  | _ => none

def isRoot : Attach → Bool
  | .root => true
  | _ => false

theorem eq_root {a : Attach} (h : isRoot a = true) : a = .root := by
  cases a with
  | root => rfl
  | inlined | inside => cases h

theorem parts_stage : stage.op.rootAxes.map ends = [some (some (.inr 2), some (.inl 3)),
      some (some (.inr 1), some (.inr 3))] ∧
    stage.relations.map divisor = [some (some (.inl 4)), none, some (some (.inr 3)), none] ∧
    (∀ iv ∈ stage.all, symbols iv.id = none) ∧ (∀ iv ∈ stage.op.rootAxes, iv.dtype = .int32) ∧
    isRoot stage.attach ∧ stage.op.reduceAxes.isEmpty ∧ 0 < stage.op.numOutputs := by
  with_unfolding_all decide

theorem symbolic_stage {ρ : Valuation Int} (hn : 0 ≤ ρ extent.id) (hk : 0 < ρ factor.id) : stage.Symbolic symbols ρ where
  apart := parts_stage.2.2.1
  typed iv hiv := parts_stage.2.2.2.1 iv hiv ▸ ⟨rfl, rfl⟩
  domains iv hiv := by
    have hmem := parts_stage.1 ▸ List.mem_map_of_mem (f := ends) hiv
    simp only [ends, List.mem_cons, List.not_mem_nil, or_false, Option.map_eq_some_iff, Prod.mk.injEq] at hmem
    obtain ⟨d, hd, hmin, hextent⟩ | ⟨d, hd, hmin, hextent⟩ := hmem
    · exact ⟨d, _, _, hd, amounts_of_atom ρ hmin, amounts_of_atom ρ hextent, hn⟩
    · exact ⟨d, _, _, hd, amounts_of_atom ρ hmin, amounts_of_atom ρ hextent, (by decide : (0 : Int) ≤ 3)⟩
  positive r hr := by
    have hmem := parts_stage.2.1 ▸ List.mem_map_of_mem (f := divisor) hr
    cases r with
    | split parent outer inner factor nparts =>
      intro d hd
      simp only [divisor, Option.mem_def.mp hd, Option.map_some, List.mem_cons, Option.some.injEq, reduceCtorEq,
        List.not_mem_nil, or_false, false_or] at hmem
      obtain hatom | hatom := hmem
      · exact ⟨_, amounts_of_atom ρ hatom, hk⟩
      · exact ⟨_, amounts_of_atom ρ hatom, (by decide : (0 : Int) < 3)⟩
    | fuse | rebase => trivial

/-- For three values of `i`, split by two. -/
def values : Valuation Int := fun x => if x = 3 then 3 else 2

/-- For two values of `i`, split by the largest number of the type of the factor. -/
def large : Valuation Int := fun x => if x = 3 then 2 else 2147483647

end Bordered

end Schedule

end TensorNest

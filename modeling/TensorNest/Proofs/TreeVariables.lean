import TensorNest.Graph.Compute
import TensorNest.Proofs.Mentions
import TensorNest.Proofs.Scopes
import TensorNest.Proofs.ThreadReductions

/-! # The variables of reductions across threads

The combiner of a reduction stands in an attribute, where no traversal sees its variables, until the reduction is carried
out as a tree. The tree puts loads for the first accumulator and for the first value of the combiner. Its other variables
are left as they are (`Reducer.leftIds`), and nothing binds them there. -/

namespace TensorNest

/-! ### Statements -/

namespace Stmt

variable {S S' : Nat → Prop} {s : Stmt} {ss : List Stmt}

/-- Only some variables are free in a statement. -/
def FreeWithin (S : Nat → Prop) (s : Stmt) : Prop :=
  ∀ x ∈ s.freeIds, S x

/-- The variable that a statement binds is known in its bodies. -/
theorem freeWithin_iff : s.FreeWithin S ↔ (∀ e ∈ s.exprParts, ∀ x ∈ e.freeIds, S x) ∧
    ∀ b ∈ s.bodies, b.FreeWithin fun x => S x ∨ ∃ v ∈ s.binder?, x = v.id := by
  constructor
  · refine fun h => ⟨fun e he x hx => h x (mem_freeIds.mpr (.inl ⟨e, he, hx⟩)), fun b hb x hx => ?_⟩
    refine or_iff_not_imp_right.mpr fun hnot => ?_
    exact h x (mem_freeIds.mpr (.inr ⟨⟨b, hb, hx⟩, fun v hv heq => hnot ⟨v, hv, heq⟩⟩))
  · rintro ⟨hexprs, hbodies⟩ x hx
    obtain ⟨e, he, hx⟩ | ⟨⟨b, hb, hx⟩, hnot⟩ := mem_freeIds.mp hx
    · exact hexprs e he x hx
    · exact (hbodies b hb x hx).resolve_right fun ⟨v, hv, heq⟩ => hnot v hv heq

theorem freeWithin_seq : (seq ss).FreeWithin S ↔ ∀ s ∈ ss, s.FreeWithin S := by
  rw [freeWithin_iff]
  simp

theorem freeWithin_store {T : Nat → Prop} {buffer value index : Expr} (hb : buffer.Within S T) (hv : value.Within S T)
    (hi : index.Within S T) : (store buffer value index none).FreeWithin S :=
  freeWithin_iff.mpr ⟨by simpa using ⟨hb.free, hv.free, hi.free⟩, List.forall_mem_nil _⟩

theorem freeWithin_branch {T : Nat → Prop} {cond : Expr} (hc : cond.Within S T) (hs : s.FreeWithin S) :
    (branch cond s none).FreeWithin S :=
  freeWithin_iff.mpr ⟨by simpa using hc.free, by simpa using hs⟩

theorem freeWithin_attr {v : Var} {key : String} {value : Expr} (hv : ∀ x ∈ value.freeIds, S x) (hs : s.FreeWithin S) :
    (attr (.var v) key value s).FreeWithin S :=
  freeWithin_iff.mpr ⟨by simpa using hv, by simpa using hs⟩

theorem freeWithin_allocate {v : Var} {t : DataType} {size cond : Expr} (hsize : ∀ x ∈ size.freeIds, S x)
    (hcond : ∀ x ∈ cond.freeIds, S x) (hs : s.FreeWithin fun x => S x ∨ x = v.id) :
    (allocate site v t [size] cond s).FreeWithin S :=
  freeWithin_iff.mpr ⟨by simpa using ⟨hsize, hcond⟩, by simpa using hs⟩

theorem freeWithin_barrier (scope : String) : (barrier scope).FreeWithin S := nofun

theorem freeWithin_items (hs : s.FreeWithin S) : ∀ t ∈ s.items, t.FreeWithin S := by
  cases s with
  | seq ss => exact freeWithin_seq.mp hs
  | _ => exact List.forall_mem_singleton.mpr hs

theorem freeWithin_block (hss : ∀ s ∈ ss, s.FreeWithin S) : (block ss).FreeWithin S := by
  unfold block
  split
  · exact nofun
  · exact hss _ List.mem_cons_self
  · exact freeWithin_seq.mpr hss

theorem freeWithin_ofList (hss : ∀ s ∈ ss, s.FreeWithin S) : (ofList ss).FreeWithin S :=
  freeWithin_block fun t ht => by
    obtain ⟨s, hs, ht⟩ := List.mem_flatMap.mp ht
    exact freeWithin_items (hss s hs) t ht

/-- The combiner of a reduction across threads. -/
def combiner? : Stmt → Option Reducer
  | attr (.reducer combiner) "reduce_scope" _ _ => some combiner
  | _ => none

/-- The combiners of the reductions across threads in a statement. -/
def combiners (s : Stmt) : List Reducer :=
  s.stmts.filterMap combiner?

theorem mem_combiners {c : Reducer} : c ∈ s.combiners ↔ (∃ b ∈ s.bodies, c ∈ b.combiners) ∨ s.combiner? = some c := by
  simp only [combiners, stmts_eq s, List.filterMap_append, List.mem_append, List.filterMap_flatMap, List.mem_flatMap,
    List.mem_filterMap, List.mem_singleton, exists_eq_left]

end Stmt

/-! ### Combiners -/

namespace Reducer

variable {c : Reducer}

/-- The variables that the tree of a reduction puts loads for: the first accumulator and the first value. -/
def operandIds (c : Reducer) : List Nat :=
  (c.rhs.take 1 ++ c.lhs.take 1).map (·.id)

/-- The variables that the tree of a reduction leaves as they are: those of the first identity element, and those of the
    first result that are not put for or stand where no substitution reaches. -/
def leftIds (c : Reducer) : List Nat :=
  (c.identity.take 1).flatMap Expr.freeIds ++
    (c.result.take 1).flatMap fun e => e.freeIds.filter (· ∉ c.operandIds) ++ e.opaqueVars

/-- A combiner of one accumulator and one value mentions nothing else. -/
structure Plain (c : Reducer) : Prop where
  lhs : c.lhs.length = 1
  rhs : c.rhs.length = 1
  result : ∀ e ∈ c.result, e.Within (· ∈ c.operandIds) fun _ => False
  identity : ∀ e ∈ c.identity, e.Within (fun _ => False) fun _ => False

/-- The tree of a reduction with such a combiner leaves no variable. -/
theorem Plain.leftIds (h : c.Plain) : c.leftIds = [] := by
  refine List.eq_nil_iff_forall_not_mem.mpr fun x hx => ?_
  obtain hx | hx := List.mem_append.mp hx
  · obtain ⟨e, he, hx⟩ := List.mem_flatMap.mp hx
    exact (h.identity e (List.mem_of_mem_take he)).free x hx
  · obtain ⟨e, he, hx⟩ := List.mem_flatMap.mp hx
    have hwithin := h.result e (List.mem_of_mem_take he)
    obtain hx | hx := List.mem_append.mp hx
    · obtain ⟨hx, hnot⟩ := List.mem_filter.mp hx
      exact of_decide_eq_true hnot (hwithin.free x hx)
    · exact hwithin.hidden x hx

end Reducer

/-! ### Trees -/

section Tree
variable {S T : Nat → Prop} {name : String}

/-- The axes of the threads of a reduction are those of the regions around it. -/
theorem ensures_reductionThreads {regions : List ThreadRegion} (ids : List Nat) (hregions : ∀ r ∈ regions, S r.1.id) :
    Ensures (reductionThreads name regions ids) fun threads =>
      (∀ t ∈ threads.reduced, S t.axis.id) ∧ ∀ t ∈ threads.group, S t.axis.id := by
  refine ensures_foldlM (fun r hr threads ⟨hreduced, hgroup⟩ => ?_) ⟨List.forall_mem_nil _, List.forall_mem_nil _⟩
  have haxis : Ensures (constExtent name r) fun t => S t.axis.id := by
    refine ensures_trivial.bind fun extent _ => ?_
    split
    · exact ensures_ok (hregions r hr)
    · exact ensures_error
  split
  · refine haxis.bind fun t ht => ensures_ok ⟨List.forall_mem_append.mpr ⟨hreduced, List.forall_mem_singleton.mpr ht⟩,
      hgroup⟩
  split
  · refine haxis.bind fun t ht => ensures_ok ⟨hreduced,
      List.forall_mem_append.mpr ⟨hgroup, List.forall_mem_singleton.mpr ht⟩⟩
  · exact ensures_ok ⟨hreduced, hgroup⟩

open Expr

/-- The index of a thread mentions the axes that it is an index over. -/
theorem ensures_linearize_within {threads : List ThreadExtent} (hthreads : ∀ t ∈ threads, S t.axis.id) :
    Ensures (ThreadExtent.linearize threads) (·.1.Within S fun _ => False) := by
  have hzero : Ensures (ofInt 0 .int32) (Expr.Within S fun _ => False) := built_ofNumber
  refine hzero.bind fun zero hzero => ?_
  refine Ensures.bind (P := fun r : Expr × Int => r.1.Within S fun _ => False) ?_ ?_
  · refine ensures_foldlM (fun t ht r hr => ?_) hzero
    have hvar : Operand.Has (Expr.Within S fun _ => False) (.expr (.var t.axis.var)) :=
      within_var (hthreads t (List.mem_mergeSort.mp ht))
    refine (built_arith hvar (y := .number _) trivial).bind fun step hstep => ?_
    exact (built_arith (x := .expr _) (y := .expr _) hr hstep).bind fun index hindex => ensures_ok hindex
  · rintro ⟨index, total⟩ hindex
    exact (hindex.simplify fun _ => False.elim).bind fun e he => ensures_ok he

namespace ReductionRow

variable {row : ReductionRow} {combiner : Reducer} {result : Expr}

/-- The places of a reduction mention only some variables. -/
structure Within (S : Nat → Prop) (row : ReductionRow) : Prop where
  buffer : row.buffer.Within S fun _ => False
  slot : row.slot.Within S fun _ => False
  index : row.index.Within S fun _ => False

/-- A step of the tree mentions the variables of its places and those that the combiner leaves. -/
theorem Within.ensures_step (hrow : row.Within S) (hresult : ∀ x ∈ result.freeIds, x ∉ combiner.operandIds → S x)
    (hhidden : ∀ x ∈ result.opaqueVars, S x) (offset : Int) :
    Ensures (row.step combiner result offset) (Stmt.FreeWithin S) := by
  have hlt {a : Expr} (ha : a.Within S fun _ => False) (n : Int) : Ensures (Expr.lt a n) (Expr.Within S fun _ => False) :=
    built_arith (x := .expr _) (y := .number _) ha trivial
  have hadd {a : Expr} (ha : a.Within S fun _ => False) (n : Int) : Ensures (Expr.add a n) (Expr.Within S fun _ => False) :=
    built_arith (x := .expr _) (y := .number _) ha trivial
  have hwiden {a : Expr} (ha : a.Within S fun _ => False) : a.Within S S := ha.mono (fun _ => id) fun _ => False.elim
  unfold step
  refine (hadd hrow.slot offset).bind fun other hother => (hlt hrow.index offset).bind fun first hfirst => ?_
  refine (hadd hrow.index offset).bind fun further hfurther => (hlt hfurther row.length).bind fun inside hinside => ?_
  refine (built_logicalAnd (x := .expr _) (y := .expr _) hfirst hinside).bind fun both hboth => ?_
  refine (hboth.simplify fun _ => False.elim).bind fun active hactive => ensures_ok ?_
  have hload {i : Expr} (hi : i.Within S fun _ => False) : (load row.dtype row.buffer i none).Within S S :=
    within_load.mpr ⟨hwiden hrow.buffer, hwiden hi, fun _ => nofun⟩
  refine Stmt.freeWithin_branch hactive (Stmt.freeWithin_store (hwiden hrow.buffer) ?_ (hwiden hrow.slot))
  refine Within.subst (fun _ => id) (List.forall_mem_append.mpr ⟨List.forall_mem_map.mpr fun v hv => hload hother,
    List.forall_mem_map.mpr fun v hv => hload hrow.slot⟩) ⟨fun x hx => ?_, hhidden⟩
  by_cases hoperand : x ∈ combiner.operandIds
  · obtain ⟨v, hv, rfl⟩ := List.mem_map.mp hoperand
    refine .inr ((List.mem_append.mp hv).elim (fun hv => ?_) fun hv => ?_)
    · exact ⟨_, List.mem_append_left _ (List.mem_map_of_mem hv), rfl⟩
    · exact ⟨_, List.mem_append_right _ (List.mem_map_of_mem hv), rfl⟩
  · exact .inl (hresult x hx hoperand)

theorem Within.ensures_steps (hrow : row.Within S) (hresult : ∀ x ∈ result.freeIds, x ∉ combiner.operandIds → S x)
    (hhidden : ∀ x ∈ result.opaqueVars, S x) (scope : String) (k : Nat) :
    Ensures (row.steps combiner result (.barrier scope) k) (∀ s ∈ ·, s.FreeWithin S) := by
  induction k with
  | zero => exact ensures_ok (List.forall_mem_nil _)
  | succ k ih =>
    refine (hrow.ensures_step hresult hhidden _).bind fun s hs => ih.bind fun ss hss => ensures_ok ?_
    exact List.forall_mem_cons.mpr ⟨hs, List.forall_mem_cons.mpr ⟨Stmt.freeWithin_barrier scope, hss⟩⟩

end ReductionRow

namespace Stmt
open LowerReduction

variable {warp : Setting} {combiner : Reducer} {st st' : ReductionState} {g g' : Graph} {s s' : Stmt} {args : List Expr}

theorem regions_treeReduction (hrun : LowerReduction.Yields (treeReduction name warp combiner args) st g s st' g') :
    st'.regions = st.regions := by
  unfold treeReduction at hrun
  split at hrun
  · rw [yields_get_bind, yields_ok_bind] at hrun
    obtain ⟨threads, -, hrun⟩ := hrun
    split at hrun
    · exact absurd hrun not_yields_throw_bind
    simp only [yields_ok_bind, yields_pure, yields_get_bind, yields_modify_bind, yields_build_bind] at hrun
    obtain ⟨_, -, _, -, _, _, -, _, -, _, -, _, -, _, -, _, -, _, -, _, -, _, -, _, -, _, -, -, rfl, -⟩ := hrun
    rfl
  · exact absurd hrun Build.not_yields_throw

/-- The tree of a reduction mentions the variables of the reduction, the axes of the regions around it, and what the
    combiner leaves. -/
theorem freeWithin_treeReduction (hargs : ∀ a ∈ args, ∀ x ∈ a.freeIds, S x) (hregions : ∀ r ∈ st.regions, S r.1.id)
    (hleft : ∀ x ∈ combiner.leftIds, S x)
    (hrun : LowerReduction.Yields (treeReduction name warp combiner args) st g s st' g') : s.FreeWithin S := by
  obtain ⟨count, value, cond, target, vars, result, results, identity, identities, rfl, hresult, hidentity⟩ :
      ∃ count value cond target vars result results identity identities, args = count :: value :: cond :: target :: vars ∧
        combiner.result = result :: results ∧ combiner.identity = identity :: identities := by
    have hrun := hrun
    unfold treeReduction at hrun
    split at hrun
    · exact ⟨_, _, _, _, _, _, _, _, _, rfl, ‹_›, ‹_›⟩
    · exact absurd hrun Build.not_yields_throw
  obtain ⟨threads, hthreads, buffer, p, -, hbuilt, rfl⟩ := treeReduction_inv hresult hidentity hrun
  obtain ⟨hreduced, hgroup⟩ := ensures_reductionThreads _ hregions threads hthreads
  simp only [List.forall_mem_cons] at hargs
  obtain ⟨-, hvalue, hcond, htarget, -⟩ := hargs
  simp only [Reducer.leftIds, hresult, hidentity, List.take_succ_cons, List.take_zero, List.flatMap_cons, List.flatMap_nil,
    List.append_nil, List.forall_mem_append, List.mem_filter, decide_eq_true_iff, and_imp] at hleft
  obtain ⟨hleftIdentity, hleftResult, hleftHidden⟩ := hleft
  -- In the scope of the buffer it is known as well.
  let S' : Nat → Prop := fun x => S x ∨ x = buffer.id
  have hindex : p.index.Within S fun _ => False := ensures_linearize_within hreduced _ hbuilt.index
  have hgroup : p.group.Within S fun _ => False := ensures_linearize_within hgroup _ hbuilt.group
  have hbase : p.base.Within S fun _ => False :=
    (built_arith (x := .expr _) (y := .number _) hgroup trivial).bind (fun e he => he.simplify fun _ =>
      False.elim) _ hbuilt.base
  have hslot : p.slot.Within S fun _ => False :=
    (built_arith (x := .expr _) (y := .expr _) hbase hindex).bind (fun e he => he.simplify fun _ =>
      False.elim) _ hbuilt.slot
  have hplain {e : Expr} (he : ∀ x ∈ e.freeIds, S x) : e.Within S fun _ => True := ⟨he, fun _ _ => trivial⟩
  have hfirst : p.first.Within S fun _ => True :=
    built_choose (x := .expr _) (y := .expr _) (z := .expr _) (hplain hcond) (hplain hvalue)
      (hplain hleftIdentity) _ hbuilt.first
  have hinner {T : Nat → Prop} {e : Expr} (he : e.Within S T) : e.Within S' fun _ => True :=
    he.mono (fun _ => .inl) fun _ _ => trivial
  have hbuffer {T : Nat → Prop} : (Expr.var buffer).Within S' T := within_var (.inr rfl)
  have hrow : (p.row buffer result.dtype).Within S' :=
    ⟨hbuffer, hslot.mono (fun _ => .inl) fun _ => id, hindex.mono (fun _ => .inl) fun _ => id⟩
  have hsteps : ∀ s ∈ p.steps, s.FreeWithin S' := hrow.ensures_steps (fun x hx hnot => .inl (hleftResult x hx hnot))
    (fun x hx => .inl (hleftHidden x hx)) _ _ _ hbuilt.steps
  have hzero : p.zero.Within S' fun _ => True := built_ofNumber _ hbuilt.zero
  have hsize : p.size.Within S fun _ => True := built_ofNumber _ hbuilt.size
  refine freeWithin_attr nofun (freeWithin_allocate hsize.free nofun (freeWithin_ofList ?_))
  have hload : (Expr.load result.dtype (.var buffer) p.base none).Within S' fun _ => True :=
    within_load.mpr ⟨hbuffer, hinner hbase, fun _ => nofun⟩
  have hstart : (store (.var buffer) p.first p.slot none).FreeWithin S' :=
    freeWithin_store hbuffer (hinner hfirst) (hinner hslot)
  have hfinish : (store target (.load result.dtype (.var buffer) p.base none) p.zero none).FreeWithin S' :=
    freeWithin_store (hinner (hplain htarget)) hload hzero
  simp only [List.cons_append, List.forall_mem_cons, List.forall_mem_append]
  exact ⟨hstart, freeWithin_barrier _, hsteps, hfinish, freeWithin_barrier _, List.forall_mem_nil _⟩

/-- A step inside a region knows the region and leaves the regions as they are. -/
theorem regions_inRegion {α : Type} {region : ThreadRegion} {x : LowerReduction α} {a : α}
    (hrun : LowerReduction.Yields (inRegion region x) st g a st' g') :
    (∃ st₁ g₁, LowerReduction.Yields x { st with regions := st.regions ++ [region] } g a st₁ g₁) ∧
    st'.regions = st.regions := by
  unfold inRegion at hrun
  rw [yields_get_bind, yields_modify_bind, yields_bind] at hrun
  obtain ⟨b, st₁, g₁, hx, hrun⟩ := hrun
  rw [yields_modify_bind, yields_pure] at hrun
  obtain ⟨rfl, rfl, rfl⟩ := hrun
  exact ⟨⟨_, _, hx⟩, rfl⟩

/-- A statement is lowered to one that mentions only the variables that are free in it, the axes of the regions around
    it, and what the combiners in it leave. -/
def Lowers (regions : List ThreadRegion) (s s' : Stmt) : Prop :=
  ∀ S, s.FreeWithin S → (∀ r ∈ regions, S r.1.id) → (∀ c ∈ s.combiners, ∀ x ∈ c.leftIds, S x) → s'.FreeWithin S

section Lowers
variable {regions : List ThreadRegion} {b b' : Stmt} {ss ss' : List Stmt}

theorem lowers_refl (regions : List ThreadRegion) (s : Stmt) : Lowers regions s s := fun _ hs _ _ => hs

/-- In a body the variable that the statement binds is known as well. -/
theorem Lowers.body (h : Lowers regions b b') (hb : b ∈ s.bodies) (hs : s.FreeWithin S) (hregions : ∀ r ∈ regions, S r.1.id)
    (hleft : ∀ c ∈ s.combiners, ∀ x ∈ c.leftIds, S x) : b'.FreeWithin fun x => S x ∨ ∃ v ∈ s.binder?, x = v.id :=
  h _ ((freeWithin_iff.mp hs).2 b hb) (fun r hr => .inl (hregions r hr))
    fun c hc x hx => .inl (hleft c (mem_combiners.mpr (.inl ⟨b, hb, hc⟩)) x hx)

theorem Lowers.of_body (h : Lowers regions b b') (hexprs : s'.exprParts = s.exprParts) (hbinder : s'.binder? = s.binder?)
    (hbodies : s.bodies = [b]) (hbodies' : s'.bodies = [b']) : Lowers regions s s' := fun S hs hregions hleft => by
  rw [freeWithin_iff, hexprs, hbodies', hbinder, List.forall_mem_singleton]
  exact ⟨(freeWithin_iff.mp hs).1, h.body (hbodies ▸ List.mem_singleton_self b) hs hregions hleft⟩

/-- The axis of a region is bound in it. -/
theorem Lowers.of_region {iv : IterVar} {value : Expr} (h : Lowers (regions ++ [(iv, value)]) b b') :
    Lowers regions (attr (.axis iv) "thread_extent" value b) (attr (.axis iv) "thread_extent" value b') :=
      fun S hs hregions hleft => by
  obtain ⟨hexprs, hbodies⟩ := freeWithin_iff.mp hs
  refine freeWithin_iff.mpr ⟨hexprs, List.forall_mem_singleton.mpr (h _ (hbodies b List.mem_cons_self) ?_ ?_)⟩
  · exact List.forall_mem_append.mpr ⟨fun r hr => .inl (hregions r hr),
      List.forall_mem_singleton.mpr (.inr ⟨iv.var, by simp, rfl⟩)⟩
  · exact fun c hc x hx => .inl (hleft c (mem_combiners.mpr (.inl ⟨b, List.mem_cons_self, hc⟩)) x hx)

theorem lowers_seq (h : ∀ s' ∈ ss', ∃ s ∈ ss, Lowers regions s s') : Lowers regions (seq ss) (seq ss') :=
  fun S hs hregions hleft => by
    refine freeWithin_seq.mpr fun s' hs' => ?_
    obtain ⟨s, hmem, hlowers⟩ := h s' hs'
    simpa using hlowers.body (s := seq ss) hmem hs hregions hleft

theorem lowers_branch {cond : Expr} {o o' : Option Stmt} (h : Lowers regions b b')
    (ho : ∀ c' ∈ o', ∃ c ∈ o, Lowers regions c c') :
    Lowers regions (branch cond b o) (branch cond b' o') := fun S hs hregions hleft => by
  refine freeWithin_iff.mpr ⟨(freeWithin_iff.mp hs).1, List.forall_mem_cons.mpr ⟨?_, fun c' hc' => ?_⟩⟩
  · exact h.body (s := branch cond b o) List.mem_cons_self hs hregions hleft
  · obtain ⟨c, hc, hlowers⟩ := ho c' (Option.mem_toList.mp hc')
    exact hlowers.body (s := branch cond b o) (List.mem_cons_of_mem _ (Option.mem_toList.mpr hc)) hs hregions hleft

end Lowers

theorem lowers_onList {ss ss' : List Stmt} (ih : ∀ s ∈ ss, ∀ {st st' : ReductionState} {g g' : Graph} {s' : Stmt},
      LowerReduction.Yields (s.lowerReductions name warp) st g s' st' g' → Lowers st.regions s s' ∧
        st'.regions = st.regions)
    (hrun : LowerReduction.Yields (lowerReductions.onList name warp ss) st g ss' st' g') :
    (∀ s' ∈ ss', ∃ s ∈ ss, Lowers st.regions s s') ∧ st'.regions = st.regions := by
  induction ss generalizing st g ss' with
  | nil =>
    obtain ⟨rfl, rfl, rfl⟩ := yields_pure.mp hrun
    exact ⟨List.forall_mem_nil _, rfl⟩
  | cons s ss ihs =>
    rw [lowerReductions.onList, yields_bind] at hrun
    obtain ⟨s', st₁, g₁, hs, hrun⟩ := hrun
    obtain ⟨ss', st₂, g₂, hss, hrun⟩ := yields_bind.mp hrun
    obtain ⟨rfl, rfl, rfl⟩ := yields_pure.mp hrun
    obtain ⟨hhead, htail⟩ := List.forall_mem_cons.mp ih
    obtain ⟨hlowers, hregions⟩ := hhead hs
    obtain ⟨hall, hregions'⟩ := ihs htail hss
    rw [hregions] at hall hregions'
    refine ⟨List.forall_mem_cons.mpr ⟨⟨s, List.mem_cons_self, hlowers⟩, fun t ht => ?_⟩, hregions'⟩
    obtain ⟨u, hu, hlowers⟩ := hall t ht
    exact ⟨u, List.mem_cons_of_mem _ hu, hlowers⟩

/-- What lowering gives for a statement, and that it leaves the regions as they are. -/
theorem lowers_lowerReductions (hrun : LowerReduction.Yields (s.lowerReductions name warp) st g s' st' g') :
    Lowers st.regions s s' ∧ st'.regions = st.regions := by
  induction s generalizing st st' g g' s' with
  | bind _ _ _ ih | assert _ _ _ ih | loop _ _ _ _ _ ih | allocate _ _ _ _ _ _ ih | realize _ _ _ _ _ _ ih =>
    rw [lowerReductions, yields_bind] at hrun
    obtain ⟨b, st₁, g₁, hb, hrun⟩ := hrun
    obtain ⟨rfl, rfl, rfl⟩ := yields_pure.mp hrun
    obtain ⟨hlowers, hregions⟩ := ih hb
    exact ⟨hlowers.of_body rfl rfl rfl rfl, hregions⟩
  | attr subject key value body ih =>
    unfold lowerReductions at hrun
    split at hrun
    · rw [yields_bind] at hrun
      obtain ⟨b, st₁, g₁, hb, hrun⟩ := hrun
      obtain ⟨rfl, rfl, rfl⟩ := yields_pure.mp hrun
      obtain ⟨⟨st₂, g₂, hb⟩, hregions⟩ := regions_inRegion hb
      exact ⟨(ih hb).1.of_region, hregions⟩
    · rename_i combiner e
      have hkept (hrun : LowerReduction.Yields (pure (attr (.reducer combiner) "reduce_scope" value (eval e)))
          st g s' st' g') :
          Lowers st.regions (attr (.reducer combiner) "reduce_scope" value (eval e)) s' ∧ st'.regions = st.regions := by
        obtain ⟨rfl, rfl, rfl⟩ := yields_pure.mp hrun
        exact ⟨lowers_refl _ _, rfl⟩
      split at hrun
      · split at hrun
        · refine ⟨fun S hs hregions hleft => ?_, regions_treeReduction hrun⟩
          obtain ⟨-, hbody⟩ := freeWithin_iff.mp hs
          have hargs := (freeWithin_iff.mp (hbody _ List.mem_cons_self)).1 _ List.mem_cons_self
          refine freeWithin_treeReduction (fun a ha x hx =>
            ?_) hregions (hleft combiner (mem_combiners.mpr (.inr rfl))) hrun
          simpa using hargs x (Expr.mem_freeIds_ofList.mpr ⟨a, ha, hx⟩)
        · exact hkept hrun
      · exact hkept hrun
    · rw [yields_bind] at hrun
      obtain ⟨b, st₁, g₁, hb, hrun⟩ := hrun
      obtain ⟨rfl, rfl, rfl⟩ := yields_pure.mp hrun
      obtain ⟨hlowers, hregions⟩ := ih hb
      refine ⟨hlowers.of_body rfl ?_ rfl rfl, hregions⟩
      cases subject <;> rfl
  | seq ss ih =>
    rw [lowerReductions, yields_bind] at hrun
    obtain ⟨ss', st₁, g₁, hss, hrun⟩ := hrun
    obtain ⟨rfl, rfl, rfl⟩ := yields_pure.mp hrun
    exact (lowers_onList (fun s hs => ih s hs) hss).imp_left lowers_seq
  | branch cond onTrue onFalse ih ihf =>
    cases onFalse with
    | none =>
      rw [lowerReductions, yields_bind] at hrun
      obtain ⟨b, st₁, g₁, hb, hrun⟩ := hrun
      obtain ⟨rfl, rfl, rfl⟩ := yields_pure.mp hrun
      exact (ih hb).imp_left fun hlowers => lowers_branch hlowers fun _ => nofun
    | some c =>
      rw [lowerReductions, yields_bind] at hrun
      obtain ⟨b, st₁, g₁, hb, hrun⟩ := hrun
      obtain ⟨c', st₂, g₂, hc, hrun⟩ := yields_bind.mp hrun
      obtain ⟨rfl, rfl, rfl⟩ := yields_pure.mp hrun
      obtain ⟨hlowers, hregions⟩ := ih hb
      obtain ⟨hlowers', hregions'⟩ := ihf c rfl hc
      rw [hregions] at hlowers' hregions'
      exact ⟨lowers_branch hlowers fun d hd => ⟨c, rfl, Option.some.inj hd ▸ hlowers'⟩, hregions'⟩
  | store | provide | prefetch | eval =>
    obtain ⟨rfl, rfl, rfl⟩ := yields_pure.mp hrun
    exact ⟨lowers_refl _ _, rfl⟩

end Stmt

end Tree

/-! ### Functions -/

namespace Func

variable {f f' : Func} {warp : Setting} {g g' : Graph}

/-- What lowering leaves free in a function is free in it or left by one of its combiners. -/
theorem mem_freeIds_lowerReductions (hrun : (f.lowerReductions warp).Yields g f' g') :
    ∀ x ∈ f'.body.freeIds, x ∈ f.body.freeIds ∨ ∃ c ∈ f.body.combiners, x ∈ c.leftIds := by
  simp only [lowerReductions, Build.yields_bind, Build.yields_pure] at hrun
  obtain ⟨⟨body, st⟩, g₁, hbody, rfl, rfl⟩ := hrun
  obtain ⟨hlowers, -⟩ := Stmt.lowers_lowerReductions hbody
  exact hlowers (fun x => x ∈ f.body.freeIds ∨ ∃ c ∈ f.body.combiners, x ∈ c.leftIds) (fun x hx => .inl hx)
    (List.forall_mem_nil _) fun c hc x hx => .inr ⟨c, hc, hx⟩

/-- Lowering the reductions across threads of a function leaves no other variables free, as long as the combiners
    mention only their one accumulator and their one value. -/
theorem freeIds_lowerReductions_subset (hplain : ∀ c ∈ f.body.combiners, c.Plain)
    (hrun : (f.lowerReductions warp).Yields g f' g') :
    f'.body.freeIds ⊆ f.body.freeIds := fun x hx => by
  obtain hx | ⟨c, hc, hx⟩ := mem_freeIds_lowerReductions hrun x hx
  · exact hx
  · rw [(hplain c hc).leftIds] at hx
    cases hx

namespace Sample
open Stmt (attr)
open Stmt.Thirds

/-- The sum of the values of the threads of a block of three. -/
def total : Func where
  name := "total"
  params := []
  kind := .mixed
  body := attr (.axis (axis 2 "threadIdx.x")) "thread_extent" (int 3) <|
    attr (.reducer Stmt.Thirds.sum) "reduce_scope" (int 0) <| .eval <|
    .call .handle "xte_thread_allreduce" [int 1, own, Expr.bool true, .var target,
      .var (axis 2 "threadIdx.x").var] .intrinsic none 0

theorem yields_total : ∃ f' g', (total.lowerReductions (.number (.int 1))).Yields graph f' g' := by
  have hok : (((total.lowerReductions (.number (.int 1))).run.run graph).run).1.isOk := by
    decide +kernel
  rcases hrun : ((total.lowerReductions (.number (.int 1))).run.run graph).run with ⟨e | f', g'⟩
  · rw [hrun] at hok
    cases hok
  · exact ⟨f', g', hrun⟩

theorem plain_sum : Stmt.Thirds.sum.Plain where
  lhs := rfl
  rhs := rfl
  result := List.forall_mem_singleton.mpr (Expr.within_bin.mpr ⟨Expr.within_var (by decide), Expr.within_var (by decide)⟩)
  identity := List.forall_mem_singleton.mpr Expr.within_const

theorem freeIds_total : (∀ c ∈ total.body.combiners, c.Plain) ∧
    ∃ f' g', (total.lowerReductions (.number (.int 1))).Yields graph f' g' ∧ f'.body.freeIds ⊆ total.body.freeIds := by
  have hplain : ∀ c ∈ total.body.combiners, c.Plain := List.forall_mem_singleton.mpr plain_sum
  obtain ⟨f', g', hrun⟩ := yields_total
  exact ⟨hplain, f', g', hrun, freeIds_lowerReductions_subset hplain hrun⟩

end Sample

end Func

/-! ### Sums and extrema -/

section ReduceBy
variable {op : BinOp} {a b : String} {identity : DataType → Except Error Number} {source axes cond : Operand}
  {g g' : Graph} {e : Expr}

/-- A reduction has one accumulator, the result of its rule for the accumulator and the values, and its identity element. -/
theorem reduction_inv {combine : Rule Build} {n : Number} {spec : TypeSpec} {sources : Operand}
    (hrun : (reduction combine (.number n) spec sources axes cond).Yields g e g') :
    ∃ (vars : List Var) (value : Operand) (result : Expr) (t : DataType) (start : Expr) (es : List Expr)
      (ivs : List IterVar)
      (o : Option Expr) (g₁ g₂ : Graph), (combine.apply (vars.map .var)).Yields g₁ value g₂ ∧
      Expr.convert value = .ok result ∧ Expr.typedConst (.number n) (.exact t) = .ok start ∧
      e = .reduce ⟨vars.take 1, vars.drop 1, [result], [start]⟩ es ivs o 0 := by
  have hlift {α : Type} (x : Except Error α) : (lifted x : Build α) = liftM x := rfl
  have hself {α : Type} (x : Build α) : (liftM x : Build α) = x := rfl
  simp only [reduction, hlift, hself, Build.yields_bind, Build.yields_liftExcept] at hrun
  obtain ⟨t, _, -, es, _, -, ivs, _, -, _, _, -, vars, g₁, -, value, g₂, hvalue, result, _, ⟨hresult, rfl⟩, hrun⟩ := hrun
  split at hrun
  · simp at hrun
  simp only [Build.yields_bind, Build.yields_liftExcept] at hrun
  obtain ⟨start, _, ⟨hstart, rfl⟩, hrun⟩ := hrun
  split at hrun
  · simp at hrun
  simp only [Build.yields_bind, Build.yields_liftExcept, Build.yields_pure] at hrun
  obtain ⟨o, _, -, rfl, -⟩ := hrun
  exact ⟨vars, value, result, t, start, es, ivs, o, g₁, _, hvalue, hresult, hstart, rfl⟩

/-- The reductions by an operation have combiners that mention only their accumulator and their value. -/
theorem plain_reduceBy (hrun : (reduceBy op a b identity source axes cond).Yields g e g') :
    ∃ combiner es ivs o i, e = .reduce combiner es ivs o i ∧ combiner.Plain := by
  simp only [reduceBy, Build.yields_bind, Build.yields_liftExcept] at hrun
  obtain ⟨_, _, ⟨-, rfl⟩, first, _, ⟨-, rfl⟩, hrun⟩ := hrun
  obtain ⟨vars, value, result, t, start, es, ivs, o, g₁, g₂, hvalue, hresult, hstart, rfl⟩ := reduction_inv hrun
  refine ⟨_, _, _, _, _, rfl, ?_⟩
  obtain ⟨v, w, rfl⟩ : ∃ v w, vars = [v, w] := by
    rcases vars with _ | ⟨v, _ | ⟨w, _ | ⟨x, vars⟩⟩⟩
    · exact absurd hvalue Build.not_yields_throw
    · exact absurd hvalue Build.not_yields_throw
    · exact ⟨v, w, rfl⟩
    · exact absurd hvalue Build.not_yields_throw
  simp only [List.map_cons, List.map_nil, BinOp.rule, Build.yields_bind, Build.yields_liftExcept,
    Build.yields_pure] at hvalue
  obtain ⟨body, _, ⟨hbody, -⟩, rfl, -⟩ := hvalue
  obtain rfl : body = result := Except.ok.inj hresult
  refine ⟨rfl, rfl, List.forall_mem_singleton.mpr ?_, List.forall_mem_singleton.mpr (Expr.built_ofNumber _ hstart)⟩
  exact Expr.built_binary (x := .expr _) (y := .expr _) (Expr.within_var (by simp [Reducer.operandIds]))
    (Expr.within_var (by simp [Reducer.operandIds])) _ hbody

end ReduceBy

end TensorNest

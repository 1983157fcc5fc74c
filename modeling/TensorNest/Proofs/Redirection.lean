import TensorNest.Proofs.Reference
import TensorNest.Proofs.Schedule

/-! # Redirected expressions

A redirected read is led to an operation of the same contents, or replaced by a body with the indices
for the axes. A redirected expression has the value of the expression (`value_redirected`), unless a
variable that such a body binds occurs in the indices at which it is put, or an index has another type
than the axis that it is put for (`Schedule.Admits`). What it leaves free comes from the expression and
from the bodies (`mem_freeIds_redirected`). -/

namespace TensorNest

variable {V : Type} [Inhabited V]

/-- The body that is put for a read of an output of a stage. -/
def Stage.inlinedBody? (st : Stage) (i : Int) : Option Expr :=
  match st.attach with
  | .inlined => itemAt? st.op.body i
  | _ => none

theorem Stage.inlinedBody?_of_inlined {st : Stage} (h : st.attach = .inlined) (i : Int) :
    st.inlinedBody? i = itemAt? st.op.body i := by
  rw [inlinedBody?, h]

namespace Schedule
open Expr Operation

/-- A body that is put for a read binds no variable that occurs in the indices, and these have the types
    of the axes that they are put for. -/
def Admits (s : Schedule) (r : OpRef × Int × List Expr) : Prop :=
  ∀ st ∈ s.find? r.1.idx, ∀ b ∈ st.inlinedBody? r.2.1,
    (∀ x ∈ b.boundVars, ∀ a ∈ r.2.2, x ∉ (s.redirected a).freeIds) ∧
      ∀ p ∈ st.op.axisVars.zip r.2.2, p.2.dtype = p.1.dtype

instance (s : Schedule) (r : OpRef × Int × List Expr) : Decidable (s.Admits r) :=
  inferInstanceAs (Decidable (∀ st ∈ s.find? r.1.idx, ∀ b ∈ st.inlinedBody? r.2.1,
    (∀ x ∈ b.boundVars, ∀ a ∈ r.2.2, x ∉ (s.redirected a).freeIds) ∧
      ∀ p ∈ st.op.axisVars.zip r.2.2, p.2.dtype = p.1.dtype))

/-- The stages of a schedule compute operations of the graph, and an operation is led to one of the
    same contents. -/
structure Leads (M : Model V) (P : Nat → Prop) (g : Graph) (s : Schedule) : Prop where
  regular : g.Regular P
  ops : ∀ st ∈ s.stages, g.op? st.op.idx = some st.op
  inlined : ∀ st ∈ s.stages, st.attach = .inlined → st.op.isCompute
  places : ∀ {i st}, s.find? i = some st → g.Alike M i st.op.idx

section Redirected
variable {M : Model V} {P : Nat → Prop} {g : Graph} {s : Schedule}

/-- A body put for a read: it is the body of an operation with the indices for all its axes. -/
theorem Leads.inlined_body (L : Leads M P g s) {i : Nat} {st : Stage} {k : Int} {n : Nat}
    (hst : s.find? i = some st) (hin : st.attach = .inlined) (hread : g.HasRead (i, k, n)) :
    ∃ b, itemAt? st.op.body k = some b ∧ b ∈ st.op.body ∧ st.op.axisVars.length = n ∧
      (∀ t, g.HasType (i, k, t) → b.dtype = t) ∧ ∀ idx, idx.length = n → g.contents M i k idx =
        b.value M.reading (g.contents M) (M.params.assign st.op.axisVars idx) := by
  obtain ⟨p, hp, hn, hk0, hk⟩ := hread
  obtain ⟨o, q, ho, hq, hrank, hout, htype, hc⟩ := L.places hst
  have hst' := L.ops st (mem_of_find? hst)
  obtain rfl : p = o := Option.some.inj (hp.symm.trans ho)
  obtain rfl : q = st.op := Option.some.inj (hq.symm.trans hst')
  have hcomp := L.inlined st (mem_of_find? hst) hin
  rw [hout, numOutputs_of_isCompute hcomp] at hk
  obtain ⟨b, hb⟩ := itemAt?_of_lt hk0 hk
  have hlen : st.op.rank = n := hrank.symm.trans hn.symm
  refine ⟨b, hb, mem_of_itemAt? hb, (rank_of_isCompute hcomp).symm.trans hlen, fun t ht => ?_, fun idx hidx => ?_⟩
  · obtain ⟨p', hp', ht⟩ := ht
    obtain rfl : p = p' := Option.some.inj (hp.symm.trans hp')
    have hk' : st.op.body[k.toNat]? = some b := (if_pos hk0).symm.trans hb
    rw [htype, outputType_of_isCompute hcomp, hk'] at ht
    exact ht
  rw [hc k idx (hidx.trans hlen.symm), L.regular.contents_eq hst', element_of_isCompute hcomp, hb]
  rfl

/-- Putting indices for the axes of an operation of the graph replaces axes only. -/
theorem Leads.not_replaced (L : Leads M P g s) {st : Stage} (hst : st ∈ s.stages) {args : List Expr}
    {x : Nat} (hx : ¬g.IsAxis x) : ∀ p ∈ Subst.ofList (st.op.axisVars.zip args), x ≠ p.1.id := by
  rintro p hp rfl
  refine hx ⟨st.op.idx, st.op, L.ops st hst, ?_⟩
  rw [← st.op.map_id_axisVars]
  exact List.mem_map_of_mem (List.of_mem_zip (List.mem_reverse.mp hp)).1

/-- What is put for an axis in a body has the type in which the body mentions it. -/
theorem Leads.typed (L : Leads M P g s) {st : Stage} (hst : st ∈ s.stages) {b : Expr}
    (hb : b ∈ st.op.body) {args : List Expr}
    (htypes : ∀ p ∈ st.op.axisVars.zip args, p.2.dtype = p.1.dtype) {v : Var} (hv : v ∈ b.vars) {r : Expr}
    (hr : (Subst.ofList (st.op.axisVars.zip args)).find? v = some r) : r.dtype = v.dtype := by
  obtain ⟨p, hp, hid, rfl⟩ := exists_of_find? hr
  have hp' := List.mem_reverse.mp hp
  obtain ⟨iv, hiv, hvar⟩ := List.mem_map.mp (List.of_mem_zip hp').1
  have htype := (L.regular.fits (L.ops st hst)).types b hb v hv iv hiv (by rw [← hid, ← hvar]; rfl)
  rw [htypes p hp', htype, ← hvar]
  rfl

/-- The indices can be put for the axes of a body. -/
theorem Leads.safe (L : Leads M P g s) {st : Stage} (hst : st ∈ s.stages) {b : Expr}
    (hb : b ∈ st.op.body) {args : List Expr}
    (hcap : ∀ x ∈ b.boundVars, ∀ a ∈ args, x ∉ a.freeIds)
    (htypes : ∀ p ∈ st.op.axisVars.zip args, p.2.dtype = p.1.dtype) :
    (Subst.ofList (st.op.axisVars.zip args)).Safe b := by
  have hfits := L.regular.fits (L.ops st hst)
  refine ⟨fun x hx p hp => ⟨L.not_replaced hst (hfits.binders b hb x hx).2.1 p hp, ?_⟩, fun x hx =>
    L.not_replaced hst (hfits.fixed b hb x hx).1, fun v hv r hr => L.typed hst hb htypes hv hr⟩
  exact hcap x hx p.2 (List.of_mem_zip (List.mem_reverse.mp hp)).2

/-- The reads of an expression can be redirected: they are reads of the graph in their types, no parameter
    is bound around them, and the bodies put in are admitted. -/
structure Redirectable (P : Nat → Prop) (g : Graph) (s : Schedule) (e : Expr) : Prop where
  reads : ∀ r ∈ e.allReads, g.HasRead r
  types : ∀ r ∈ e.typedReads, g.HasType r
  bound : ∀ x ∈ e.boundVars, ¬P x
  admitted : ∀ r ∈ e.tensorReads, s.Admits r

theorem Redirectable.part {e a : Expr} (h : Redirectable P g s e) (ha : a ∈ e.parts) :
    Redirectable P g s a where
  reads r hr := h.reads r (allReads_subset ha hr)
  types r hr := h.types r (typedReads_subset ha hr)
  bound x hx := h.bound x (boundVars_subset ha hx)
  admitted r hr := h.admitted r (tensorReads_subset ha hr)

/-- The indices of an admitted read have the types of the axes after a redirection as well. -/
theorem dtype_of_mem_zip {vs : List Var} {args : List Expr} (h : ∀ p ∈ vs.zip args, p.2.dtype = p.1.dtype)
    (hargs : ∀ a ∈ args, (s.redirected a).dtype = a.dtype) :
    ∀ p ∈ vs.zip (args.map s.redirected), p.2.dtype = p.1.dtype := by
  rw [List.zip_map_right]
  intro p hp
  obtain ⟨q, hq, rfl⟩ := List.mem_map.mp hp
  exact (hargs q.2 (List.of_mem_zip hq).2).trans (h q hq)

/-- A redirected expression has the type of the expression. -/
theorem dtype_redirected (L : Leads M P g s) {e : Expr} (h : Redirectable P g s e) :
    (s.redirected e).dtype = e.dtype := by
  induction e with
  | call t name args kind func k ih =>
    rw [redirected_call]
    obtain heq | ⟨t', name', args', f, k', st, heq, hst, hcase⟩ :=
      redirectRead_cases s (call t name (args.map s.redirected) kind func k)
    · rw [heq]
      rfl
    obtain ⟨rfl, rfl, rfl, rfl, rfl, rfl⟩ := Expr.call.inj heq
    obtain ⟨hin, hcase⟩ | hcase := hcase
    · have hread : g.HasRead (f.idx, k.toInt, args.length) := h.reads _ (by simp [allReads, callReads])
      obtain ⟨b, hb, hmem, -, htype, -⟩ := L.inlined_body hst hin hread
      have hadm := h.admitted (f, k.toInt, args) (mem_tensorReads_call ..) st hst b
        (by rw [Stage.inlinedBody?_of_inlined hin, hb]; rfl)
      have htypes := dtype_of_mem_zip hadm.2 fun a ha => ih a ha (h.part ha)
      rw [hcase, hb, Option.getD_some, ← axisVars,
        dtype_subst fun v hv r hr => L.typed (mem_of_find? hst) hmem htypes hv hr]
      exact htype t (h.types _ (mem_typedReads.mpr ⟨_, head_mem_heads _, List.mem_singleton.mpr rfl⟩))
    · rw [hcase]
      rfl
  | bin op a b iha => simp only [redirected_bin, dtype, iha (h.part (by simp [parts]))]
  | not a ih => simp only [redirected_not, dtype, ih (h.part (by simp [parts]))]
  | broadcast a lanes ih => simp only [redirected_broadcast, dtype, ih (h.part (by simp [parts]))]
  | ramp a b lanes iha => simp only [redirected_ramp, dtype, iha (h.part (by simp [parts]))]
  | select c t f _ iht => simp only [redirected_select, dtype, iht (h.part (by simp [parts]))]
  | bind v a body _ ihb => simp only [redirected_bind, dtype, ihb (h.part (by simp [parts]))]
  | cast => rw [redirected_cast, dtype, dtype]
  | load => rw [redirected_load, dtype, dtype]
  | reduce => rw [redirected_reduce, dtype, dtype]
  | _ => rfl

/-- A redirected read keeps its value if its indices do. -/
theorem value_redirectRead (L : Leads M P g s) {t : DataType} {name : String} {args args' : List Expr}
    {kind : CallKind} {func : Option OpRef} {k : Ordinal} {ρ : Valuation V}
    (h : Redirectable P g s (call t name args kind func k)) (hargs' : args' = args.map s.redirected)
    (hargs : ∀ a ∈ args, (s.redirected a).value M.reading (g.contents M) ρ =
      a.value M.reading (g.contents M) ρ)
    (hρ : ∀ x, P x → ρ x = M.params x) :
    (s.redirectRead (call t name args' kind func k)).1.value M.reading (g.contents M) ρ =
      (call t name args kind func k).value M.reading (g.contents M) ρ := by
  have hvals : value.ofList M.reading (g.contents M) args' ρ =
      value.ofList M.reading (g.contents M) args ρ := by
    rw [hargs', value_ofList, value_ofList, List.map_map]
    exact List.map_congr_left hargs
  have hlen : args'.length = args.length := by rw [hargs', List.length_map]
  obtain heq | ⟨t', name', args'', f, k', st, heq, hst, hcase⟩ :=
    redirectRead_cases s (call t name args' kind func k)
  · rw [heq, value, value, hvals]
  obtain ⟨rfl, rfl, rfl, rfl, rfl, rfl⟩ := Expr.call.inj heq
  have hread : g.HasRead (f.idx, k.toInt, args.length) := h.reads _ (by simp [allReads, callReads])
  obtain ⟨hin, hcase⟩ | hcase := hcase
  · obtain ⟨b, hb, hmem, hrank, -, hc⟩ := L.inlined_body hst hin hread
    have hadm := h.admitted (f, k.toInt, args) (mem_tensorReads_call ..) st hst b
      (by rw [Stage.inlinedBody?_of_inlined hin, hb]; rfl)
    have hcap : ∀ x ∈ b.boundVars, ∀ a ∈ args', x ∉ a.freeIds := by
      intro x hx a' ha'
      rw [hargs'] at ha'
      obtain ⟨a, ha, rfl⟩ := List.mem_map.mp ha'
      exact hadm.1 x hx a ha
    have htypes : ∀ p ∈ st.op.axisVars.zip args', p.2.dtype = p.1.dtype :=
      hargs' ▸ dtype_of_mem_zip hadm.2 fun a ha => dtype_redirected L (h.part ha)
    have hsafe := L.safe (mem_of_find? hst) hmem hcap htypes
    rw [hcase, hb, Option.getD_some, ← axisVars, value_subst hsafe, Subst.valuation_ofList_zip (hrank.trans hlen.symm),
      ← value_ofList, hvals, value, callValue, hc _ (by simp)]
    refine value_congr (fun _ _ => rfl) fun x hx => Valuation.assign_congr (fun hax => hρ x ?_) _
    rw [map_id_axisVars] at hax
    exact ((L.regular.fits (L.ops st (mem_of_find? hst))).closed b hmem x hx).resolve_left hax
  · obtain ⟨o, q, ho, hq, hrk, -, -, hc⟩ := L.places hst
    obtain ⟨p, hp, hn, -⟩ := hread
    obtain rfl : p = o := Option.some.inj (hp.symm.trans ho)
    rw [hcase, value, value, hvals, callValue, callValue]
    refine (hc k.toInt _ ?_).symm
    rw [value_ofList, List.length_map, ← hrk]
    exact hn

/-- Redirected expressions keep their values, under valuations that give the parameters their values. -/
theorem value_redirected (L : Leads M P g s) {e : Expr} (h : Redirectable P g s e) {ρ : Valuation V}
    (hρ : ∀ x, P x → ρ x = M.params x) :
    (s.redirected e).value M.reading (g.contents M) ρ = e.value M.reading (g.contents M) ρ := by
  induction e generalizing ρ with
  | var | const | str => rfl
  | cast t a ih =>
    rw [redirected_cast, value, value, ih (h.part (by simp [parts])) hρ]
  | bin op a b iha ihb =>
    have ha := h.part (a := a) (by simp [parts])
    rw [redirected_bin, value, value, dtype_redirected L ha, iha ha hρ, ihb (h.part (by simp [parts])) hρ]
  | not a ih =>
    rw [redirected_not, value, value, ih (h.part (by simp [parts])) hρ]
  | select c t f ihc iht ihf =>
    have ht := h.part (a := t) (by simp [parts])
    rw [redirected_select, value, value, dtype_redirected L ht, ihc (h.part (by simp [parts])) hρ, iht ht hρ,
      ihf (h.part (by simp [parts])) hρ]
  | call t name args kind func k ih =>
    rw [redirected_call]
    exact value_redirectRead L h rfl (fun a ha => ih a ha (h.part ha) hρ) hρ
  | bind v a body iha ihb =>
    rw [redirected_bind, value, value, iha (h.part (by simp [parts])) hρ]
    refine ihb (h.part (by simp [parts])) fun x hx => ?_
    rw [Valuation.assign_of_not_mem, hρ x hx]
    rintro hv
    exact h.bound x (mem_boundVars.mpr ⟨_, head_mem_heads _, by simpa [head, Head.binders] using hv⟩) hx
  | load t buffer index pred ihb ihi ihp =>
    rw [redirected_load, value, value, ihb (h.part (by simp [parts])) hρ,
      ihi (h.part (by simp [parts])) hρ, value_ofOption, value_ofOption, Option.map_map]
    congr 1
    exact Option.map_congr fun p hp => ihp p hp (h.part (by simp [parts, hp])) hρ
  | ramp a b lanes iha ihb =>
    have ha := h.part (a := a) (by simp [parts])
    rw [redirected_ramp, value, value, dtype_redirected L ha, iha ha hρ, ihb (h.part (by simp [parts])) hρ]
  | broadcast a lanes ih =>
    have ha := h.part (a := a) (by simp [parts])
    rw [redirected_broadcast, value, value, dtype_redirected L ha, ih ha hρ]
  | reduce c sources axes cond index _ _ ihs _ ihc =>
    have hρ' : ∀ p x, P x → ρ.assign (axes.map (·.var)) p x = M.params x := by
      intro p x hx
      rw [Valuation.assign_of_not_mem, hρ x hx]
      rw [IterVar.map_id_map_var]
      exact fun hv => h.bound x (mem_boundVars.mpr ⟨_, head_mem_heads _, hv⟩) hx
    rw [redirected_reduce]
    refine value_reduce_congr rfl rfl (fun p _ => ?_) (fun p _ => ?_) (fun _ _ _ _ => rfl)
    · rw [value_ofOption, value_ofOption, Option.map_map]
      exact Option.map_congr fun e he => ihc e he (h.part (by simp_all [parts])) (hρ' p)
    · rw [value_ofList, value_ofList, List.map_map]
      exact List.map_congr_left fun e he => ihs e he (h.part (by simp [parts, he])) (hρ' p)

/-- A redirection brings in no free variables but parameters. -/
theorem mem_freeIds_redirected (L : Leads M P g s) {e : Expr} (hreads : ∀ r ∈ e.allReads, g.HasRead r)
    {x : Nat} (hx : x ∈ (s.redirected e).freeIds) : x ∈ e.freeIds ∨ P x := by
  induction e with
  | var | const | str => exact Or.inl hx
  | call t name args kind func k ih =>
    have hargs : (∃ a ∈ args.map s.redirected, x ∈ a.freeIds) →
        x ∈ (call t name args kind func k).freeIds ∨ P x := by
      rintro ⟨_, ha', hx⟩
      obtain ⟨a, ha, rfl⟩ := List.mem_map.mp ha'
      refine (ih a ha (fun r hr => hreads r (allReads_subset ha hr)) hx).imp_left fun h => ?_
      exact mem_freeIds_ofList.mpr ⟨a, ha, h⟩
    rw [redirected_call] at hx
    obtain heq | ⟨t', name', args', f, k', st, heq, hst, hcase⟩ :=
      redirectRead_cases s (call t name (args.map s.redirected) kind func k)
    · rw [heq] at hx
      exact hargs (mem_freeIds_ofList.mp hx)
    obtain ⟨rfl, rfl, rfl, rfl, rfl, rfl⟩ := Expr.call.inj heq
    have hread : g.HasRead (f.idx, k.toInt, args.length) := hreads _ (by simp [allReads, callReads])
    obtain ⟨hin, hcase⟩ | hcase := hcase
    · obtain ⟨b, hb, hmem, hrank, -, -⟩ := L.inlined_body hst hin hread
      have hst' := mem_of_find? hst
      have hfits := L.regular.fits (L.ops st hst')
      rw [hcase, hb, Option.getD_some, ← axisVars] at hx
      obtain ⟨hx, hfree⟩ | ⟨p, hp, hx⟩ := mem_freeIds_subst
        (fun y hy => L.not_replaced hst' (hfits.fixed b hmem y hy).1) hx
      · refine Or.inr ((hfits.closed b hmem x hx).resolve_left fun hax => ?_)
        -- Every axis is replaced, since there is an index for each.
        rw [← map_id_axisVars] at hax
        obtain ⟨v, hv, rfl⟩ := List.mem_map.mp hax
        have hzip : (st.op.axisVars.zip (args.map s.redirected)).map Prod.fst = st.op.axisVars :=
          List.map_fst_zip (by simp [hrank])
        rw [← hzip] at hv
        obtain ⟨p, hp, rfl⟩ := List.mem_map.mp hv
        exact hfree p (List.mem_reverse.mpr hp) rfl
      · exact hargs ⟨p.2, (List.of_mem_zip (List.mem_reverse.mp hp)).2, hx⟩
    · rw [hcase] at hx
      exact hargs (mem_freeIds_ofList.mp hx)
  | load t a b p iha ihb ihp =>
    have hparts := fun a ha r hr => hreads r (allReads_subset (a := a) ha hr)
    simp only [parts] at hparts
    simp only [redirected_load, freeIds, List.mem_append, mem_freeIds_ofOption, Option.mem_def,
      Option.map_eq_some_iff] at hx ihp ⊢
    grind
  | reduce c sources axes cond index _ _ ihs _ ihc =>
    have hparts := fun a ha r hr => hreads r (allReads_subset (a := a) ha hr)
    simp only [parts, List.mem_append, Option.mem_toList] at hparts
    simp only [redirected_reduce, freeIds, List.mem_append, List.mem_filter, mem_freeIds_ofList,
      mem_freeIds_ofOption, Option.mem_def, Option.map_eq_some_iff, List.mem_map] at hx ihc ⊢
    grind
  | bind v a b iha ihb =>
    have hparts := fun a ha r hr => hreads r (allReads_subset (a := a) ha hr)
    simp only [parts] at hparts
    simp only [redirected_bind, freeIds, List.mem_append, List.mem_filter] at hx ⊢
    grind
  | _ =>
    have hparts := fun a ha r hr => hreads r (allReads_subset (a := a) ha hr)
    simp only [parts] at hparts
    simp only [redirected_cast, redirected_bin, redirected_not, redirected_select, redirected_ramp,
      redirected_broadcast, freeIds, List.mem_append] at hx ⊢
    grind

/-- A redirection brings in no variables of the graph but parameters and bound ones. -/
theorem mem_vars_redirected (L : Leads M P g s) {e : Expr} (hreads : ∀ r ∈ e.allReads, g.HasRead r)
    {v : Var} (hv : v ∈ (s.redirected e).vars) : v ∈ e.vars ∨ P v.id ∨ ¬g.IsAxis v.id := by
  induction e using induct_parts with | step e ih
  have hparts : (∃ a ∈ e.parts.map s.redirected, v ∈ a.vars) → v ∈ e.vars ∨ P v.id ∨ ¬g.IsAxis v.id := by
    rintro ⟨_, hpart, hv⟩
    obtain ⟨a, ha, rfl⟩ := List.mem_map.mp hpart
    exact (ih a ha (fun r hr => hreads r (allReads_subset ha hr)) hv).imp_left (vars_subset ha ·)
  obtain ⟨t, name, args, kind, func, k, rfl⟩ | ⟨hhead, hsame⟩ := redirected_cases s e
  · rw [redirected_call] at hv
    obtain heq | ⟨t', name', args', f, k', st, heq, hst, hcase⟩ :=
      redirectRead_cases s (call t name (args.map s.redirected) kind func k)
    · rw [heq] at hv
      obtain hpart | hvar := mem_vars.mp hv
      · exact hparts hpart
      · cases hvar
    obtain ⟨rfl, rfl, rfl, rfl, rfl, rfl⟩ := Expr.call.inj heq
    obtain ⟨hin, hcase⟩ | hcase := hcase
    · have hread : g.HasRead (f.idx, k.toInt, args.length) := hreads _ (by simp [allReads, callReads])
      obtain ⟨b, hb, hmem, hrank, -, -⟩ := L.inlined_body hst hin hread
      have hfits := L.regular.fits (L.ops st (mem_of_find? hst))
      rw [hcase, hb, Option.getD_some, ← axisVars] at hv
      obtain ⟨hv, hnone⟩ | ⟨p, hp, hv⟩ := mem_vars_subst hv
      · obtain hfree | hbound := mem_vars_ids hv
        · obtain hax | hP := hfits.closed b hmem _ hfree
          · -- Every axis is replaced, since there is an index for each.
            rw [← map_id_axisVars] at hax
            obtain ⟨w, hw, hid⟩ := List.mem_map.mp hax
            have hzip : (st.op.axisVars.zip (args.map s.redirected)).map Prod.fst = st.op.axisVars :=
              List.map_fst_zip (by simp [hrank])
            rw [← hzip] at hw
            obtain ⟨p, hp, rfl⟩ := List.mem_map.mp hw
            have hnot := List.find?_eq_none.mp (Option.map_eq_none_iff.mp hnone) p (List.mem_reverse.mpr hp)
            exact absurd (beq_iff_eq.mpr hid) hnot
          · exact Or.inr (Or.inl hP)
        · exact Or.inr (Or.inr (hfits.binders b hmem _ hbound).2.1)
      · exact hparts ⟨p.2, (List.of_mem_zip (List.mem_reverse.mp hp)).2, hv⟩
    · rw [hcase] at hv
      obtain hpart | hvar := mem_vars.mp hv
      · exact hparts hpart
      · cases hvar
  · obtain hv | hvar := mem_vars.mp hv
    · exact hparts (hsame ▸ hv)
    · cases e with
      | var w => exact Or.inl hv
      | call => rw [hvar] at hhead; cases hhead
      | _ => simp at hvar

end Redirected

/-! ### Redirected operations -/

section Operations
variable {M : Model V} {P : Nat → Prop} {g g' : Graph} {s : Schedule}

theorem Leads.grows (L : Leads M P g s) (hg : g.Grows g') (hr : g'.Regular P) : Leads M P g' s where
  regular := hr
  ops st hst := hg.op? (L.ops st hst)
  inlined := L.inlined
  places h := (L.places h).grows hg

theorem redirectedOp_fits (L : Leads M P g s) {o : Operation} {i : Nat} (ho : g.op? i = some o) :
    (redirectedOp g s o).Fits g P := by
  have hfits := L.regular.fits ho
  have hreads : ∀ e ∈ o.body, ∀ r ∈ e.allReads, g.HasRead r := fun e he r hr => (hfits.reads e he r hr).1
  -- The heads come from the body, from bodies put in, or are reads led to operations of the graph.
  have hheads : ∀ e' ∈ (redirectedOp g s o).body, ∃ e ∈ o.body, e' = s.redirected e := by
    intro e' he'
    obtain ⟨e, he, rfl⟩ := List.mem_map.mp he'
    exact ⟨e, he, rfl⟩
  refine ⟨fun e' he' r hr => ?_, fun e' he' x hx => ?_, fun e' he' x hx => ?_, fun e' he' x hx => ?_, hfits.axes,
    fun e' he' v hv iv hiv hid => ?_, fun e' he' r hr => ?_⟩
  · obtain ⟨e, he, rfl⟩ := hheads e' he'
    have hread : g.HasRead r := by
      obtain ⟨d, hd, hr⟩ := mem_allReads.mp hr
      obtain hd | ⟨t, f, k, n, st, hcall, hst, ⟨-, b, hb, hd⟩ | rfl⟩ := headFrom_of_mem hd
      · exact hreads e he r (mem_allReads.mpr ⟨d, hd, hr⟩)
      · exact ((L.regular.fits (L.ops st (mem_of_find? hst))).reads b hb r (mem_allReads.mpr ⟨d, hd, hr⟩)).1
      · obtain ⟨p, hp, hn, hk⟩ := hreads e he (f.idx, k, n) (mem_allReads.mpr ⟨_, hcall, by simp [Head.reads, callReads]⟩)
        obtain ⟨p', q, hp', hq, hrank, hout, -⟩ := L.places hst
        obtain rfl : p = p' := Option.some.inj (hp.symm.trans hp')
        obtain rfl : r = (st.op.idx, k, n) := by simpa [Head.reads, callReads, ref] using hr
        exact ⟨q, hq, hn.trans hrank, hout ▸ hk⟩
    obtain ⟨p, hp, hrest⟩ := hread
    exact ⟨⟨p, hp, hrest⟩, Graph.lt_size_of_op? hp⟩
  · obtain ⟨e, he, rfl⟩ := hheads e' he'
    obtain hx | hx := mem_freeIds_redirected L (hreads e he) hx
    · exact hfits.closed e he x hx
    · exact Or.inr hx
  · obtain ⟨e, he, rfl⟩ := hheads e' he'
    obtain ⟨d, hd, hx⟩ := mem_boundVars.mp hx
    obtain hd | ⟨t, f, k, n, st, hcall, hst, ⟨-, b, hb, hd⟩ | rfl⟩ := headFrom_of_mem hd
    · exact hfits.binders e he x (mem_boundVars.mpr ⟨d, hd, hx⟩)
    · exact (L.regular.fits (L.ops st (mem_of_find? hst))).binders b hb x (mem_boundVars.mpr ⟨d, hd, hx⟩)
    · cases hx
  · obtain ⟨e, he, rfl⟩ := hheads e' he'
    obtain ⟨d, hd, hx⟩ := mem_opaqueVars.mp hx
    obtain hd | ⟨t, f, k, n, st, hcall, hst, ⟨-, b, hb, hd⟩ | rfl⟩ := headFrom_of_mem hd
    · exact hfits.fixed e he x (mem_opaqueVars.mpr ⟨d, hd, hx⟩)
    · exact (L.regular.fits (L.ops st (mem_of_find? hst))).fixed b hb x (mem_opaqueVars.mpr ⟨d, hd, hx⟩)
    · cases hx
  · obtain ⟨e, he, rfl⟩ := hheads e' he'
    have hax : v.id ∈ o.axisIds := hid ▸ List.mem_map_of_mem hiv
    obtain hv | hP | hnot := mem_vars_redirected L (hreads e he) hv
    · exact hfits.types e he v hv iv hiv hid
    · exact absurd hP (hfits.axes _ hax).1
    · exact absurd ⟨i, o, ho, hax⟩ hnot
  · obtain ⟨e, he, rfl⟩ := hheads e' he'
    obtain ⟨d, hd, hr⟩ := mem_typedReads.mp hr
    obtain hd | ⟨t, f, k, n, st, hcall, hst, ⟨-, b, hb, hd⟩ | rfl⟩ := headFrom_of_mem hd
    · exact hfits.readTypes e he r (mem_typedReads.mpr ⟨d, hd, hr⟩)
    · exact (L.regular.fits (L.ops st (mem_of_find? hst))).readTypes b hb r (mem_typedReads.mpr ⟨d, hd, hr⟩)
    · obtain rfl := List.mem_singleton.mp hr
      obtain ⟨p, hp, htype⟩ := hfits.readTypes e he (f.idx, k, t)
        (mem_typedReads.mpr ⟨_, hcall, List.mem_singleton.mpr rfl⟩)
      obtain ⟨p', q, hp', hq, -, -, hsame, -⟩ := L.places hst
      obtain rfl : p = p' := Option.some.inj (hp.symm.trans hp')
      exact ⟨q, hq, hsame ▸ htype⟩

/-- A redirected operation has the contents of the operation -/
theorem redirectedOp_alike (L : Leads M P g s) {o : Operation} {i : Nat} (ho : g.op? i = some o)
    (hcomp : o.isCompute) (hadm : ∀ e ∈ o.body, ∀ r ∈ e.tensorReads, s.Admits r) :
    let g' : Graph := { g with ops := g.ops.push (some (redirectedOp g s o)) }
    g'.Regular P ∧ g'.Alike M i g.ops.size := by
  intro g'
  have hreg : g'.Regular P := by
    refine L.regular.push rfl (redirectedOp_fits L ho) fun x hx => Or.inl ⟨i, o, ho, hx⟩
  have hgrow : g.Grows g' := g.grows_push _
  have L' := L.grows hgrow hreg
  have hnew : g'.op? g.ops.size = some (redirectedOp g s o) := by rw [Graph.op?_push, if_pos rfl]
  have hredirect : ∀ e ∈ o.body, Redirectable P g' s e := fun e he =>
    have hfits := hreg.fits (hgrow.op? ho)
    ⟨fun r hr => (hfits.reads e he r hr).1, hfits.readTypes e he, fun x hx => (hfits.binders e he x hx).1, hadm e he⟩
  refine ⟨hreg, o, redirectedOp g s o, hgrow.op? ho, hnew, ?_, ?_, ?_, fun k idx hidx => ?_⟩
  · rw [rank_of_isCompute hcomp]
    exact List.length_map ..
  · rw [numOutputs_of_isCompute hcomp]
    exact (List.length_map ..).symm
  · funext k
    rw [outputType_of_isCompute hcomp, outputType_of_isCompute (o := redirectedOp g s o) rfl]
    show _ = (((o.body.map s.redirected)[k]?).map (·.dtype)).getD .float32
    rw [List.getElem?_map, Option.map_map]
    refine congrArg (Option.getD · _) (Option.map_congr fun e he => ?_)
    exact (dtype_redirected L' (hredirect e (List.mem_of_getElem? he))).symm
  · rw [hreg.contents_eq hnew, hreg.contents_eq (hgrow.op? ho), element_of_isCompute hcomp,
      element_of_isCompute (o := redirectedOp g s o) rfl]
    have hbody : itemAt? (redirectedOp g s o).body k = (itemAt? o.body k).map s.redirected :=
      itemAt?_map s.redirected o.body k
    rw [hbody]
    cases hb : itemAt? o.body k with
    | none => rfl
    | some e =>
      have he := mem_of_itemAt? hb
      have hfits := hreg.fits (hgrow.op? ho)
      refine (value_redirected L' (hredirect e he) fun x hx => ?_).symm
      refine Valuation.assign_of_not_mem (fun hax => ?_) _ _
      rw [map_id_axisVars] at hax
      exact (hfits.axes x hax).1 hx

end Operations

end Schedule

end TensorNest

import Mathlib.Data.List.Nodup
import Mathlib.Tactic.Tauto
import TensorNest.Proofs.Reference
import TensorNest.Proofs.Schedule

/-! # Copied bodies

To compute an operation into a cache its body is copied over new axes (`Schedule.copiedBody`): the new
axes are put for the old ones in the sources and in the condition of a reduction, or in the whole body.
The copy has the value of the body (`value_copiedBody`) if the body does not bind its axes once more,
mentions them in their types and does not mention them where no substitution reaches: in combiners and in
domains of axes. -/

namespace TensorNest

variable {V : Type} [Inhabited V]

/-- The sources and the condition of a reduction do not bind its axes again and mention them in their
    types, and no combiner or domain of an axis in it mentions them. -/
def Expr.Rooted : Expr → Prop
  | .reduce c sources axes cond i =>
    (∀ a ∈ sources ++ cond.toList, ∀ x ∈ a.boundVars, x ∉ axes.map (·.id)) ∧
      (∀ x ∈ (Expr.reduce c sources axes cond i).opaqueVars, x ∉ axes.map (·.id)) ∧
        ∀ a ∈ sources ++ cond.toList, a.RespectsTypes axes
  | _ => True

instance : ∀ e : Expr, Decidable e.Rooted
  | .reduce .. => inferInstanceAs (Decidable (_ ∧ _))
  | .var _ | .const .. | .str _ | .cast .. | .bin .. | .not _ | .select .. | .call .. | .bind .. | .load ..
  | .ramp .. | .broadcast .. => .isTrue trivial

/-- The reductions that operations of a graph are can be copied. -/
def Graph.Rooted (g : Graph) : Prop :=
  ∀ {i o}, g.op? i = some o → ∀ e ∈ o.body, e.Rooted

theorem Graph.rooted_iff {g : Graph} :
    g.Rooted ↔ ∀ i < g.ops.size, ∀ o ∈ g.op? i, ∀ e ∈ o.body, e.Rooted :=
  ⟨fun h _ _ _ ho => h ho, fun h {_ _} ho => h _ (lt_size_of_op? ho) _ ho⟩

namespace Schedule
open Expr Operation

section Copies
variable {n : Nat} {ivs : List IterVar} {R : Reading V} {T : Contents V} {ρ : Valuation V}

theorem ids_copiesFrom (n : Nat) (ivs : List IterVar) :
    (copiesFrom n ivs).map (·.id) = List.range' n ivs.length := by
  induction ivs generalizing n with
  | nil => rfl
  | cons iv ivs ih => exact congrArg (n :: ·) (ih (n + 1))

theorem mem_ids_copiesFrom {x : Nat} :
    x ∈ (copiesFrom n ivs).map (·.id) ↔ n ≤ x ∧ x < n + ivs.length := by
  rw [ids_copiesFrom, List.mem_range'_1]

theorem copiesFrom_append (n : Nat) (ivs ivs' : List IterVar) :
    copiesFrom n ivs ++ copiesFrom (n + ivs.length) ivs' = copiesFrom n (ivs ++ ivs') := by
  induction ivs generalizing n with
  | nil => rfl
  | cons iv ivs ih =>
    simp only [copiesFrom, List.cons_append, List.length_cons, ← ih (n + 1)]
    rw [Nat.add_assoc, Nat.add_comm 1]

@[simp] theorem domains_copiesFrom : value.domains R T (copiesFrom n ivs) ρ = value.domains R T ivs ρ := by
  induction ivs generalizing n with
  | nil => rfl
  | cons iv ivs ih =>
    obtain ⟨_ | ⟨min, extent⟩, v, k, t⟩ := iv
    · exact congrArg _ ih
    · exact congrArg _ ih

@[simp] theorem freeIds_copiesFrom : freeIds.ofDomains (copiesFrom n ivs) = freeIds.ofDomains ivs := by
  induction ivs generalizing n with
  | nil => rfl
  | cons iv ivs ih =>
    obtain ⟨_ | ⟨min, extent⟩, v, k, t⟩ := iv
    · exact ih
    · exact congrArg (min.freeIds ++ extent.freeIds ++ ·) ih

@[simp] theorem allReads_copiesFrom : allReads.ofDomains (copiesFrom n ivs) = allReads.ofDomains ivs := by
  induction ivs generalizing n with
  | nil => rfl
  | cons iv ivs ih =>
    obtain ⟨_ | ⟨min, extent⟩, v, k, t⟩ := iv
    · exact ih
    · exact congrArg (min.allReads ++ extent.allReads ++ ·) ih

/-- Putting copies for axes gives the axes the values of the copies. -/
theorem valuation_renames (ivs : List IterVar) (n : Nat) (ρ : Valuation V) :
    (renames ivs (copiesFrom n ivs)).valuation R T ρ =
      ρ.assign (ivs.map (·.var)) (((copiesFrom n ivs).map (·.var)).map fun v => ρ v.id) := by
  rw [renames, Subst.valuation_ofList_zip (by simp [length_copiesFrom]), List.map_map, List.map_map]
  rfl

theorem nodup_copiesFrom (n : Nat) (ivs : List IterVar) :
    (((copiesFrom n ivs).map (·.var)).map (·.id)).Nodup := by
  rw [IterVar.map_id_map_var, ids_copiesFrom]
  exact List.nodup_range'

theorem mem_renames {ivs : List IterVar} {p : Var × Expr} (h : p ∈ renames ivs (copiesFrom n ivs)) :
    p.1.id ∈ ivs.map (·.id) ∧ ∃ iv ∈ copiesFrom n ivs, p.2 = .var iv.var := by
  obtain ⟨h₁, h₂⟩ := List.of_mem_zip (List.mem_reverse.mp h)
  obtain ⟨iv, hiv, heq⟩ := List.mem_map.mp h₂
  rw [← IterVar.map_id_map_var]
  exact ⟨List.mem_map_of_mem h₁, iv, hiv, heq.symm⟩

/-- Axes are replaced by copies of their types. -/
theorem dtype_of_mem_renames {p : Var × Expr} (h : p ∈ renames ivs (copiesFrom n ivs)) :
    ∃ iv ∈ ivs, p.1 = iv.var ∧ p.2.dtype = iv.dtype := by
  have hmem : p ∈ (ivs.map (·.var)).zip ((copiesFrom n ivs).map fun iv => .var iv.var) := List.mem_reverse.mp h
  clear h
  induction ivs generalizing n with
  | nil => cases hmem
  | cons iv ivs ih =>
    obtain rfl | hmem := List.mem_cons.mp hmem
    · exact ⟨iv, List.mem_cons_self, rfl, rfl⟩
    · obtain ⟨iv', hiv, hp⟩ := ih hmem
      exact ⟨iv', List.mem_cons_of_mem _ hiv, hp⟩

/-- Copies have different numbers. -/
theorem eq_of_mem_copiesFrom {iv iv' : IterVar} (h : iv ∈ copiesFrom n ivs) (h' : iv' ∈ copiesFrom n ivs)
    (hid : iv.id = iv'.id) : iv = iv' := by
  have hnd : ((copiesFrom n ivs).map (·.id)).Nodup := ids_copiesFrom n ivs ▸ List.nodup_range'
  exact List.inj_on_of_nodup_map hnd h h' hid

/-- Copies can be put for axes in an expression of which all variables have smaller numbers, if it
    neither binds the axes nor has them in a combiner or a domain, and mentions them in their types. -/
theorem safe_renames {e : Expr} (hb : ∀ x ∈ e.boundVars, x < n ∧ x ∉ ivs.map (·.id))
    (ho : ∀ x ∈ e.opaqueVars, x ∉ ivs.map (·.id)) (ht : e.RespectsTypes ivs) :
    (renames ivs (copiesFrom n ivs)).Safe e := by
  refine ⟨fun x hx p hp => ⟨?_, fun hfree => ?_⟩, fun x hx p hp => ?_, fun v hv r hr => ?_⟩
  · rintro rfl
    exact (hb _ hx).2 (mem_renames hp).1
  · obtain ⟨-, iv, hiv, hp⟩ := mem_renames hp
    rw [hp] at hfree
    obtain rfl : x = iv.id := List.mem_singleton.mp hfree
    have := (mem_ids_copiesFrom.mp (List.mem_map_of_mem hiv)).1
    have := (hb _ hx).1
    omega
  · rintro rfl
    exact ho _ hx (mem_renames hp).1
  · obtain ⟨p, hp, hid, rfl⟩ := exists_of_find? hr
    obtain ⟨iv, hiv, hvar, htype⟩ := dtype_of_mem_renames hp
    exact htype.trans (ht v hv iv hiv (by rw [← hid, hvar]; rfl)).symm

/-- Copies put for axes: an expression has the value that it has with the axes in place. -/
theorem value_renames {e : Expr} (hs : (renames ivs (copiesFrom n ivs)).Safe e)
    (hfree : ∀ x ∈ e.freeIds, x < n) {xs : List V} (hlen : ivs.length = xs.length) (ρ : Valuation V) :
    (e.subst (renames ivs (copiesFrom n ivs))).value R T (ρ.assign ((copiesFrom n ivs).map (·.var)) xs) =
      e.value R T (ρ.assign (ivs.map (·.var)) xs) := by
  rw [value_subst hs, valuation_renames, Valuation.map_assign (nodup_copiesFrom n ivs) (by simp [length_copiesFrom, hlen])]
  refine value_congr (fun _ _ => rfl) fun x hx => Valuation.assign_congr (fun _ => ?_) xs
  refine Valuation.assign_of_not_mem (fun hmem => ?_) ρ xs
  rw [IterVar.map_id_map_var] at hmem
  have := (mem_ids_copiesFrom.mp hmem).1
  have := hfree x hx
  omega

/-- A copied body has the value of the body. -/
theorem value_copiedBody {op : Operation} {e : Expr} (he : op.body.headD default = e)
    (hb : ∀ x ∈ e.boundVars, x < n ∧ x ∉ op.axisIds) (ho : ∀ x ∈ e.opaqueVars, x ∉ op.axisIds)
    (hf : ∀ x ∈ e.freeIds, x < n) (ht : e.RespectsTypes op.axes) (hroot : e.Rooted) {idx : List V}
    (hlen : op.axes.length = idx.length) (ρ : Valuation V) :
    (copiedBody n op).value R T (ρ.assign ((copiesFrom n op.axes).map (·.var)) idx) =
      e.value R T (ρ.assign op.axisVars idx) := by
  unfold copiedBody
  rw [he]
  split
  · rename_i c sources reduced cond index
    have hown : ∀ x ∈ (Head.reduce c reduced).opaqueVars, x ∉ op.axisIds ∧ x ∉ reduced.map (·.id) :=
      fun x hx => ⟨ho x (opaqueVars_head hx), hroot.2.1 x (opaqueVars_head hx)⟩
    have hlow : ∀ x ∈ (Head.reduce c reduced).opaqueVars, x < n := by
      intro x hx
      refine hf x ?_
      have hred := (hown x hx).2
      simp only [Head.opaqueVars, List.mem_append] at hx
      rw [mem_freeIds_reduce]
      tauto
    have hout : ∀ x ∈ (Head.reduce c reduced).opaqueVars,
        ρ.assign ((copiesFrom n op.axes).map (·.var)) idx x = ρ.assign op.axisVars idx x := by
      intro x hx
      rw [Valuation.assign_of_not_mem, Valuation.assign_of_not_mem]
      · rw [map_id_axisVars]
        exact (hown x hx).1
      · rw [IterVar.map_id_map_var, mem_ids_copiesFrom]
        have := hlow x hx
        omega
    have hvars : ∀ p : List V, (ρ.assign ((copiesFrom n op.axes).map (·.var)) idx).assign
        ((copiesFrom (n + op.axes.length) reduced).map (·.var)) p =
          ρ.assign ((copiesFrom n (op.axes ++ reduced)).map (·.var)) (idx ++ p) := by
      intro p
      rw [← Valuation.assign_append (by simp [length_copiesFrom, hlen]), ← List.map_append, copiesFrom_append]
    have hpart : ∀ a ∈ sources ++ cond.toList, ∀ p : List V, p.length = reduced.length →
        (a.subst (renames (op.axes ++ reduced) (copiesFrom n (op.axes ++ reduced)))).value R T
          (ρ.assign ((copiesFrom n (op.axes ++ reduced)).map (·.var)) (idx ++ p)) =
        a.value R T ((ρ.assign op.axisVars idx).assign (reduced.map (·.var)) p) := by
      intro a ha p hp
      have hapart : a ∈ (Expr.reduce c sources reduced cond index).parts := ha
      have hnot : ∀ x, x ∉ op.axisIds → x ∉ reduced.map (·.id) → x ∉ (op.axes ++ reduced).map (·.id) := by
        intro x h₁ h₂
        rw [List.map_append, List.mem_append, not_or]
        exact ⟨h₁, h₂⟩
      have hsafe : (renames (op.axes ++ reduced) (copiesFrom n (op.axes ++ reduced))).Safe a := by
        refine safe_renames (fun x hx => ?_) (fun x hx => ?_) fun v hv iv hiv => ?_
        · obtain ⟨hlt, hax⟩ := hb x (boundVars_subset hapart hx)
          exact ⟨hlt, hnot x hax (hroot.1 a ha x hx)⟩
        · have hx' := opaqueVars_subset hapart hx
          exact hnot x (ho x hx') (hroot.2.1 x hx')
        · obtain hiv | hiv := List.mem_append.mp hiv
          · exact ht v (vars_subset hapart hv) iv hiv
          · exact hroot.2.2 a ha v hv iv hiv
      rw [value_renames hsafe (fun x hx => ?_) (by simp [hlen, hp]), List.map_append,
        Valuation.assign_append (by simpa using hlen)]
      · rfl
      · by_cases hred : x ∈ reduced.map (·.id)
        · exact (hb x (mem_boundVars.mpr ⟨_, head_mem_heads _, hred⟩)).1
        · refine hf x ?_
          exact mem_freeIds_reduce.mpr (Or.inr ⟨Or.inr ⟨a, ha, hx⟩, hred⟩)
    simp only [copiesFrom_append]
    refine value_reduce_congr (start_eq fun x hx => hout x ?_) ?_ (fun p hp => ?_) (fun p hp => ?_)
      (fun p hp acc xs => combine_eq (fun x hx => ?_) acc xs)
    · exact List.mem_append_left _ (List.mem_append_left _ hx)
    · rw [domains_copiesFrom]
      exact domains_eq fun x hx => hout x (List.mem_append_right _ hx)
    · rw [hvars, value_ofOption, value_ofOption, Option.map_map]
      refine Option.map_congr fun a ha => hpart a ?_ p (hp.trans (length_copiesFrom ..))
      exact List.mem_append_right _ (Option.mem_toList.mpr ha)
    · rw [hvars, value_ofList, value_ofList, List.map_map]
      refine List.map_congr_left fun a ha => hpart a ?_ p (hp.trans (length_copiesFrom ..))
      exact List.mem_append_left _ ha
    · have hx' : x ∈ (Head.reduce c reduced).opaqueVars :=
        List.mem_append_left _ (List.mem_append_right _ hx)
      have hcopy : x ∉ ((copiesFrom (n + op.axes.length) reduced).map (·.var)).map (·.id) := by
        rw [IterVar.map_id_map_var, mem_ids_copiesFrom]
        have := hlow x hx'
        omega
      have hred : x ∉ (reduced.map (·.var)).map (·.id) := by
        rw [IterVar.map_id_map_var]
        exact (hown x hx').2
      rw [Valuation.assign_of_not_mem hcopy, Valuation.assign_of_not_mem hred, hout x hx']
  · exact value_renames (safe_renames hb ho ht) hf hlen ρ

/-- A copied body has the type of the body. -/
theorem dtype_copiedBody {op : Operation} {e : Expr} (he : op.body.headD default = e)
    (ht : e.RespectsTypes op.axes) : (copiedBody n op).dtype = e.dtype := by
  unfold copiedBody
  rw [he]
  split
  · rfl
  · refine dtype_subst fun v hv r hr => ?_
    obtain ⟨p, hp, hid, rfl⟩ := exists_of_find? hr
    obtain ⟨iv, hiv, hvar, htype⟩ := dtype_of_mem_renames hp
    exact htype.trans (ht v hv iv hiv (by rw [← hid, hvar]; rfl)).symm

/-- Every axis is replaced by its copy. -/
theorem not_mem_of_not_replaced {x : Nat} (h : ∀ p ∈ renames ivs (copiesFrom n ivs), x ≠ p.1.id) :
    x ∉ ivs.map (·.id) := by
  intro hx
  rw [← IterVar.map_id_map_var] at hx
  obtain ⟨v, hv, rfl⟩ := List.mem_map.mp hx
  have hzip : ((ivs.map (·.var)).zip ((copiesFrom n ivs).map fun iv => Expr.var iv.var)).map Prod.fst =
      ivs.map (·.var) := List.map_fst_zip (by simp [length_copiesFrom])
  rw [← hzip] at hv
  obtain ⟨p, hp, rfl⟩ := List.mem_map.mp hv
  exact h p (List.mem_reverse.mpr hp) rfl

theorem mem_heads_renames {ivs : List IterVar} {a : Expr} {h : Head}
    (hmem : h ∈ (a.subst (renames ivs (copiesFrom n ivs))).heads) : h ∈ a.heads ∨ h = .plain := by
  obtain ha | ⟨p, hp, ha⟩ := mem_heads_subst hmem
  · exact Or.inl ha
  · obtain ⟨-, iv, -, hp⟩ := mem_renames hp
    rw [hp] at ha
    exact Or.inr (List.mem_singleton.mp ha)

theorem mem_boundVars_renames {ivs : List IterVar} {a : Expr} {x : Nat}
    (hx : x ∈ (a.subst (renames ivs (copiesFrom n ivs))).boundVars) : x ∈ a.boundVars := by
  obtain ⟨h, hh, hx⟩ := mem_boundVars.mp hx
  obtain hh | rfl := mem_heads_renames hh
  · exact mem_boundVars.mpr ⟨h, hh, hx⟩
  · cases hx

theorem mem_vars_renames {ivs : List IterVar} {a : Expr} {v : Var}
    (hv : v ∈ (a.subst (renames ivs (copiesFrom n ivs))).vars) :
    v ∈ a.vars ∨ ∃ iv ∈ copiesFrom n ivs, v = iv.var := by
  obtain ⟨hv, -⟩ | ⟨p, hp, hv⟩ := mem_vars_subst hv
  · exact Or.inl hv
  · obtain ⟨-, iv, hiv, hp⟩ := mem_renames hp
    rw [hp] at hv
    exact Or.inr ⟨iv, hiv, mem_vars_var.mp hv⟩

/-- The variables of a copied body: those of the body and the new axes. -/
theorem mem_vars_copiedBody {op : Operation} {e : Expr} (he : op.body.headD default = e) {v : Var}
    (hv : v ∈ (copiedBody n op).vars) : v ∈ e.vars ∨ ∃ iv ∈ copiesFrom n op.rootAxes, v = iv.var := by
  unfold copiedBody at hv
  rw [he] at hv
  split at hv
  · rename_i c sources reduced cond index
    simp only [copiesFrom_append] at hv
    obtain ⟨a', ha', hv⟩ | hvar := mem_vars.mp hv
    · obtain ⟨a, ha, rfl⟩ : ∃ a ∈ sources ++ cond.toList,
          a.subst (renames (op.axes ++ reduced) (copiesFrom n (op.axes ++ reduced))) = a' := by
        simpa [parts, Option.toList_map, ← List.map_append] using ha'
      rw [rootAxes, reduceAxes_of_head he]
      exact (mem_vars_renames hv).imp_left fun hv =>
        vars_subset (e := .reduce c sources reduced cond index) ha hv
    · cases hvar
  · obtain hv | ⟨iv, hiv, hv⟩ := mem_vars_renames hv
    · exact Or.inl hv
    · refine Or.inr ⟨iv, ?_, hv⟩
      rw [rootAxes, ← copiesFrom_append]
      exact List.mem_append_left _ hiv

/-- A copied body mentions the new axes in their types. -/
theorem respectsTypes_copiedBody {op : Operation} {e : Expr} (he : op.body.headD default = e)
    (hlow : ∀ v ∈ e.vars, v.id < n) : (copiedBody n op).RespectsTypes (copiesFrom n op.rootAxes) := by
  intro v hv iv hiv hid
  obtain hv | ⟨iv', hiv', rfl⟩ := mem_vars_copiedBody he hv
  · have := hlow v hv
    have := (mem_ids_copiesFrom.mp (List.mem_map_of_mem hiv)).1
    omega
  · rw [eq_of_mem_copiesFrom hiv hiv' hid.symm]
    rfl

/-- The heads of a copied body: those of the body, but for new axes of its reduction. -/
theorem mem_heads_copiedBody {op : Operation} {e : Expr} (he : op.body.headD default = e) {h : Head}
    (hmem : h ∈ (copiedBody n op).heads) : h ∈ e.heads ∨ h = .plain ∨
      ∃ c reduced, e.head = .reduce c reduced ∧ op.reduceAxes = reduced ∧
        h = .reduce c (copiesFrom (n + op.axes.length) reduced) := by
  unfold copiedBody at hmem
  rw [he] at hmem
  split at hmem
  · rename_i c sources reduced cond index
    simp only [copiesFrom_append] at hmem
    rw [mem_heads] at hmem
    obtain ⟨a', ha', hmem⟩ | rfl := hmem
    · obtain ⟨a, ha, rfl⟩ : ∃ a ∈ sources ++ cond.toList,
          a.subst (renames (op.axes ++ reduced) (copiesFrom n (op.axes ++ reduced))) = a' := by
        simpa [parts, Option.toList_map, ← List.map_append] using ha'
      obtain ha₁ | rfl := mem_heads_renames hmem
      · exact Or.inl (heads_subset (e := .reduce c sources reduced cond index) ha ha₁)
      · exact Or.inr (Or.inl rfl)
    · exact Or.inr (Or.inr ⟨c, reduced, rfl, reduceAxes_of_head he, rfl⟩)
  · obtain hmem | rfl := mem_heads_renames hmem
    · exact Or.inl hmem
    · exact Or.inr (Or.inl rfl)

/-- The free variables of a copied body: the new axes, and those of the body that are no axes. -/
theorem mem_freeIds_copiedBody {op : Operation} {e : Expr} (he : op.body.headD default = e)
    (ho : ∀ x ∈ e.opaqueVars, x ∉ op.axisIds) (hroot : e.Rooted) {x : Nat}
    (hx : x ∈ (copiedBody n op).freeIds) :
    x ∈ (copiesFrom n op.axes).map (·.id) ∨ x ∈ e.freeIds ∧ x ∉ op.axisIds := by
  have hvar : ∀ {ivs a}, (∀ y ∈ a.opaqueVars, y ∉ ivs.map (·.id)) →
      x ∈ (Expr.subst (renames ivs (copiesFrom n ivs)) a).freeIds →
        x ∈ (copiesFrom n ivs).map (·.id) ∨ x ∈ a.freeIds ∧ x ∉ ivs.map (·.id) := by
    intro ivs a hfix ha
    obtain ⟨ha, hnot⟩ | ⟨p, hp, ha⟩ := mem_freeIds_subst
      (fun y hy p hp heq => hfix y hy (heq ▸ (mem_renames hp).1)) ha
    · exact Or.inr ⟨ha, not_mem_of_not_replaced hnot⟩
    · obtain ⟨-, iv, hiv, hp⟩ := mem_renames hp
      rw [hp] at ha
      obtain rfl : x = iv.id := List.mem_singleton.mp ha
      exact Or.inl (List.mem_map_of_mem hiv)
  unfold copiedBody at hx
  rw [he] at hx
  split at hx
  · rename_i c sources reduced cond index
    have hown : ∀ y ∈ (Head.reduce c reduced).opaqueVars, y ∉ op.axisIds ∧ y ∉ reduced.map (·.id) :=
      fun y hy => ⟨ho y (opaqueVars_head hy), hroot.2.1 y (opaqueVars_head hy)⟩
    simp only [Head.opaqueVars, List.forall_mem_append] at hown
    simp only [copiesFrom_append] at hx
    rw [mem_freeIds_reduce, freeIds_copiesFrom] at hx
    obtain (hx | hx) | ⟨hx | ⟨a', ha', hx⟩, hred⟩ := hx
    · exact Or.inr ⟨mem_freeIds_reduce.mpr (Or.inl (Or.inl hx)), (hown.1.1 x hx).1⟩
    · exact Or.inr ⟨mem_freeIds_reduce.mpr (Or.inl (Or.inr hx)), (hown.2 x hx).1⟩
    · obtain ⟨hax, hnot⟩ := hown.1.2 x hx
      exact Or.inr ⟨mem_freeIds_reduce.mpr (Or.inr ⟨Or.inl hx, hnot⟩), hax⟩
    · obtain ⟨a, ha, rfl⟩ : ∃ a ∈ sources ++ cond.toList,
          a.subst (renames (op.axes ++ reduced) (copiesFrom n (op.axes ++ reduced))) = a' := by
        simpa [Option.toList_map, ← List.map_append] using ha'
      have hfix : ∀ y ∈ a.opaqueVars, y ∉ (op.axes ++ reduced).map (·.id) := by
        intro y hy
        have hy' := opaqueVars_subset (e := .reduce c sources reduced cond index) ha hy
        rw [List.map_append, List.mem_append, not_or]
        exact ⟨ho y hy', hroot.2.1 y hy'⟩
      obtain hx | ⟨hx, hnot⟩ := hvar hfix hx
      · rw [← copiesFrom_append, List.map_append, List.mem_append] at hx
        exact Or.inl (hx.resolve_right hred)
      · rw [List.map_append, List.mem_append, not_or] at hnot
        exact Or.inr ⟨mem_freeIds_reduce.mpr (Or.inr ⟨Or.inr ⟨a, ha, hx⟩, hnot.2⟩), hnot.1⟩
  · exact hvar ho hx

theorem rooted_of_head {e : Expr} (h : ∀ c axes, e.head ≠ .reduce c axes) : e.Rooted := by
  cases e with
  | reduce c sources axes cond i => exact absurd rfl (h c axes)
  | _ => trivial

/-- A copied body can be copied once more. -/
theorem rooted_copiedBody {op : Operation} {e : Expr} (he : op.body.headD default = e)
    (hb : ∀ x ∈ e.boundVars, x < n) (ho : ∀ x ∈ (copiedBody n op).opaqueVars, x < n)
    (hlow : ∀ v ∈ e.vars, v.id < n) : (copiedBody n op).Rooted := by
  have htypes := respectsTypes_copiedBody he hlow
  revert ho htypes
  unfold copiedBody
  rw [he]
  split
  · rename_i c sources reduced cond index
    simp only [copiesFrom_append]
    refine fun ho htypes => ⟨fun a' ha' x hx hmem => ?_, fun x hx hmem => ?_, fun a' ha' v hv iv hiv => ?_⟩
    · obtain ⟨a, ha, rfl⟩ : ∃ a ∈ sources ++ cond.toList,
          a.subst (renames (op.axes ++ reduced) (copiesFrom n (op.axes ++ reduced))) = a' := by
        simpa [Option.toList_map, ← List.map_append] using ha'
      have hx' := boundVars_subset (e := .reduce c sources reduced cond index) ha (mem_boundVars_renames hx)
      have := hb x hx'
      have := (mem_ids_copiesFrom.mp hmem).1
      omega
    · have := ho x hx
      have := (mem_ids_copiesFrom.mp hmem).1
      omega
    · refine htypes v (vars_subset ha' hv) iv ?_
      rw [rootAxes, reduceAxes_of_head he, ← copiesFrom_append]
      exact List.mem_append_right _ hiv
  · rename_i hne
    intro _ _
    refine rooted_of_head fun c axes hhead => ?_
    obtain ⟨v, rfl⟩ | ⟨hsame, -⟩ := subst_cases (renames op.axes (copiesFrom n op.axes)) e
    · obtain hmem | hplain := mem_heads_renames (hhead ▸ head_mem_heads _)
      · cases List.mem_singleton.mp hmem
      · cases hplain
    · rw [hsame] at hhead
      cases e with
      | reduce c sources axes cond i => exact hne _ _ _ _ _ rfl
      | _ => cases hhead

end Copies

/-! ### Caches -/

section Caching
variable {M : Model V} {P : Nat → Prop} {g : Graph} {op : Operation}

theorem body_of_one_output (hcomp : op.isCompute) (hout : op.numOutputs = 1) :
    ∃ e, op.body = [e] := by
  rw [numOutputs_of_isCompute hcomp] at hout
  exact List.length_eq_one_iff.mp hout

/-- The variables bound in a copied body have the numbers of those of the body, or new ones after
    those of the new axes. -/
theorem mem_boundVars_copiedBody {n : Nat} {e : Expr} (he : op.body.headD default = e) {x : Nat}
    (hx : x ∈ (copiedBody n op).boundVars) : x ∈ e.boundVars ∨
      n + op.axes.length ≤ x ∧ x < n + op.rootAxes.length := by
  obtain ⟨h, hh, hx⟩ := mem_boundVars.mp hx
  obtain hh | rfl | ⟨c, reduced, -, hred, rfl⟩ := mem_heads_copiedBody he hh
  · exact Or.inl (mem_boundVars.mpr ⟨h, hh, hx⟩)
  · cases hx
  · have := mem_ids_copiesFrom.mp hx
    rw [rootAxes, List.length_append, hred]
    omega

theorem mem_opaqueVars_copiedBody {n : Nat} {e : Expr} (he : op.body.headD default = e) {x : Nat}
    (hx : x ∈ (copiedBody n op).opaqueVars) : x ∈ e.opaqueVars := by
  obtain ⟨h, hh, hx⟩ := mem_opaqueVars.mp hx
  obtain hh | rfl | ⟨c, reduced, hhead, -, rfl⟩ := mem_heads_copiedBody he hh
  · exact mem_opaqueVars.mpr ⟨h, hh, hx⟩
  · cases hx
  · rw [Head.opaqueVars, freeIds_copiesFrom] at hx
    exact opaqueVars_head (hhead ▸ hx)

theorem mem_allReads_copiedBody {n : Nat} {e : Expr} (he : op.body.headD default = e)
    {r : Nat × Int × Nat} (hr : r ∈ (copiedBody n op).allReads) : r ∈ e.allReads := by
  obtain ⟨h, hh, hr⟩ := mem_allReads.mp hr
  obtain hh | rfl | ⟨c, reduced, hhead, -, rfl⟩ := mem_heads_copiedBody he hh
  · exact mem_allReads.mpr ⟨h, hh, hr⟩
  · cases hr
  · rw [Head.reads, allReads_copiesFrom] at hr
    exact mem_allReads.mpr ⟨_, head_mem_heads e, hhead ▸ hr⟩

theorem mem_typedReads_copiedBody {n : Nat} {e : Expr} (he : op.body.headD default = e)
    {r : Nat × Int × DataType} (hr : r ∈ (copiedBody n op).typedReads) : r ∈ e.typedReads := by
  obtain ⟨h, hh, hr⟩ := mem_typedReads.mp hr
  obtain hh | rfl | ⟨c, reduced, -, -, rfl⟩ := mem_heads_copiedBody he hh
  · exact mem_typedReads.mpr ⟨h, hh, hr⟩
  · cases hr
  · cases hr

/-- The variables of an operation of a regular graph have numbers. -/
theorem lt_of_mem_vars (hg : g.Regular P) {i : Nat} (ho : g.op? i = some op) {e : Expr} (he : e ∈ op.body)
    {v : Var} (hv : v ∈ e.vars) : v.id < g.next := by
  have hfits := hg.fits ho
  obtain hv | hv := mem_vars_ids hv
  · obtain hv | hv := hfits.closed e he _ hv
    · exact (hfits.axes _ hv).2
    · exact hg.params _ hv
  · exact (hfits.binders e he _ hv).2.2

/-- A cache fits into the graph that has numbers for its axes. -/
theorem cacheOp_fits (scope : Setting) (hg : g.Regular P) {i : Nat} (ho : g.op? i = some op) (hcomp : op.isCompute)
    (hout : op.numOutputs = 1) (hroot : ∀ e ∈ op.body, e.Rooted) {m : Nat}
    (hm : g.next + op.rootAxes.length ≤ m) : (cacheOp g scope op).Fits { g with next := m } P := by
  obtain ⟨e, hbody⟩ := body_of_one_output hcomp hout
  have he : e ∈ op.body := by simp [hbody]
  have hhead : op.body.headD default = e := by simp [hbody]
  have hfits := hg.fits ho
  have hlen : op.axes.length ≤ op.rootAxes.length := by simp [rootAxes]
  have hax : ∀ x ∈ e.opaqueVars, x ∉ op.axisIds := fun x hx hmem =>
    (hfits.fixed e he x hx).1 ⟨i, op, ho, hmem⟩
  have hmem : ∀ e' ∈ (cacheOp g scope op).body, e' = copiedBody g.next op := fun e' he' =>
    List.mem_singleton.mp he'
  refine ⟨fun e' he' r hr => ?_, fun e' he' x hx => ?_, fun e' he' x hx => ?_, fun e' he' x hx => ?_, fun x hx => ?_,
    fun e' he' v hv iv hiv => ?_, fun e' he' r hr => ?_⟩
  · rw [hmem e' he'] at hr
    obtain ⟨p, hp, hrest⟩ := (hfits.reads e he r (mem_allReads_copiedBody hhead hr)).1
    exact ⟨⟨p, hp, hrest⟩, Graph.lt_size_of_op? hp⟩
  · rw [hmem e' he'] at hx
    obtain hx | ⟨hx, hnot⟩ := mem_freeIds_copiedBody hhead hax (hroot e he) hx
    · exact Or.inl hx
    · exact Or.inr ((hfits.closed e he x hx).resolve_left hnot)
  · rw [hmem e' he'] at hx
    obtain hx | ⟨hlo, hhi⟩ := mem_boundVars_copiedBody hhead hx
    · obtain ⟨hP, haxis, hlt⟩ := hfits.binders e he x hx
      exact ⟨hP, haxis, show x < m by omega⟩
    · refine ⟨fun hP => ?_, ?_, show x < m by omega⟩
      · have := hg.params x hP
        omega
      · rintro ⟨j, p, hp, hx⟩
        have := ((hg.fits hp).axes x hx).2
        omega
  · rw [hmem e' he'] at hx
    obtain ⟨haxis, hlt⟩ := hfits.fixed e he x (mem_opaqueVars_copiedBody hhead hx)
    exact ⟨haxis, show x < m by omega⟩
  · obtain ⟨hlo, hhi⟩ := mem_ids_copiesFrom.mp hx
    refine ⟨fun hP => ?_, show x < m by omega⟩
    have := hg.params x hP
    omega
  · rw [hmem e' he'] at hv
    refine respectsTypes_copiedBody hhead (fun w hw => lt_of_mem_vars hg ho he hw) v hv iv ?_
    rw [rootAxes, ← copiesFrom_append]
    exact List.mem_append_left _ hiv
  · rw [hmem e' he'] at hr
    exact hfits.readTypes e he r (mem_typedReads_copiedBody hhead hr)

/-- The graph with a cache, before the copy of it is added. -/
def withCache (g : Graph) (scope : Setting) (op : Operation) : Graph :=
  ⟨g.ops.push (some (cacheOp g scope op)), g.next + op.rootAxes.length + op.axes.length⟩

theorem withCache_regular (scope : Setting) (hg : g.Regular P) {i : Nat} (ho : g.op? i = some op) (hcomp : op.isCompute)
    (hout : op.numOutputs = 1) (hroot : ∀ e ∈ op.body, e.Rooted) :
    (withCache g scope op).Regular P := by
  obtain ⟨e, hbody⟩ := body_of_one_output hcomp hout
  have he : e ∈ op.body := by simp [hbody]
  have hhead : op.body.headD default = e := by simp [hbody]
  have hraised := hg.raise (n := g.next + op.rootAxes.length + op.axes.length) (by omega)
  refine hraised.push rfl (cacheOp_fits scope hg ho hcomp hout hroot (by omega)) fun x hx => Or.inr ?_
  obtain ⟨hlo, hhi⟩ := mem_ids_copiesFrom.mp hx
  rintro p (rfl | ⟨j, hp⟩) e' he'
  · rw [List.mem_singleton.mp he']
    refine ⟨fun hx => ?_, fun hx => ?_⟩
    · obtain hx | ⟨hlo', -⟩ := mem_boundVars_copiedBody hhead hx
      · exact (hg.unused hlo ho he).1 hx
      · omega
    · exact (hg.unused hlo ho he).2 (mem_opaqueVars_copiedBody hhead hx)
  · exact hg.unused hlo hp he'

theorem cachedGraph_eq (g : Graph) (scope : Setting) (op : Operation) : cachedGraph g scope op =
    { withCache g scope op with
      ops := (withCache g scope op).ops.push (some (copyOp g (cacheOp g scope op) op)) } := rfl

theorem cachedGraph_regular (scope : Setting) (hg : g.Regular P) {i : Nat} (ho : g.op? i = some op)
    (hcomp : op.isCompute) (hout : op.numOutputs = 1) (hroot : ∀ e ∈ op.body, e.Rooted) :
    (cachedGraph g scope op).Regular P := by
  obtain ⟨e, hbody⟩ := body_of_one_output hcomp hout
  have he : e ∈ op.body := by simp [hbody]
  have hhead : op.body.headD default = e := by simp [hbody]
  have hcache : (withCache g scope op).op? g.ops.size = some (cacheOp g scope op) :=
    (g.op?_push (cacheOp g scope op) _).trans (if_pos rfl)
  have hreg := withCache_regular scope hg ho hcomp hout hroot
  -- The body of the copy binds nothing and has no combiner.
  have hheads : ∀ e' ∈ (copyOp g (cacheOp g scope op) op).body, ∀ h ∈ e'.heads,
      h = .plain ∨ h = .call ((cacheOp g scope op).outputType 0) .tensorRead (some (cacheOp g scope op).ref) 0
        op.axes.length := by
    intro e' he' h hh
    rw [List.mem_singleton.mp he', mem_heads] at hh
    obtain ⟨a, ha, hh⟩ | rfl := hh
    · obtain ⟨iv, -, rfl⟩ := List.mem_map.mp ha
      exact Or.inl (List.mem_singleton.mp hh)
    · exact Or.inr (by simp [head, length_copiesFrom])
  have hnone : ∀ e' ∈ (copyOp g (cacheOp g scope op) op).body, ∀ x, x ∉ e'.boundVars ∧ x ∉ e'.opaqueVars := by
    intro e' he' x
    refine ⟨fun hx => ?_, fun hx => ?_⟩
    · obtain ⟨h, hh, hx⟩ := mem_boundVars.mp hx
      obtain rfl | rfl := hheads e' he' h hh <;> cases hx
    · obtain ⟨h, hh, hx⟩ := mem_opaqueVars.mp hx
      obtain rfl | rfl := hheads e' he' h hh <;> cases hx
  rw [cachedGraph_eq]
  refine hreg.push (Array.size_push _).symm ⟨fun e' he' r hr => ?_, fun e' he' x hx => ?_,
    fun e' he' x hx => absurd hx (hnone e' he' x).1, fun e' he' x hx => absurd hx (hnone e' he' x).2,
    fun x hx => ?_, fun e' he' v hv iv hiv hid => ?_, fun e' he' r hr => ?_⟩ fun x hx => Or.inr ?_
  · obtain ⟨h, hh, hr⟩ := mem_allReads.mp hr
    obtain rfl | rfl := hheads e' he' h hh
    · cases hr
    · obtain rfl := List.mem_singleton.mp hr
      exact ⟨⟨_, hcache, (length_copiesFrom ..).symm, Int.le_refl 0, Int.one_pos⟩, Nat.lt_succ_self _⟩
  · rw [List.mem_singleton.mp he', freeIds, mem_freeIds_ofList] at hx
    obtain ⟨a, ha, hx⟩ := hx
    obtain ⟨iv, hiv, rfl⟩ := List.mem_map.mp ha
    obtain rfl : x = iv.id := List.mem_singleton.mp hx
    exact Or.inl (List.mem_map_of_mem hiv)
  · obtain ⟨hlo, hhi⟩ := mem_ids_copiesFrom.mp hx
    refine ⟨fun hP => ?_, hhi⟩
    have := hg.params x hP
    omega
  · rw [List.mem_singleton.mp he'] at hv
    obtain ⟨a, ha, hv⟩ | hvar := mem_vars.mp hv
    · obtain ⟨iv', hiv', rfl⟩ := List.mem_map.mp ha
      rw [mem_vars_var.mp hv] at hid ⊢
      exact congrArg IterVar.dtype (eq_of_mem_copiesFrom hiv' hiv hid)
    · cases hvar
  · obtain ⟨h, hh, hr⟩ := mem_typedReads.mp hr
    obtain rfl | rfl := hheads e' he' h hh
    · cases hr
    · obtain rfl := List.mem_singleton.mp hr
      exact ⟨_, hcache, rfl⟩
  · obtain ⟨hlo, hhi⟩ := mem_ids_copiesFrom.mp hx
    rintro p (rfl | ⟨j, hp⟩) e' he'
    · exact hnone e' he' x
    · have hp' := (g.op?_push (cacheOp g scope op) j).symm.trans hp
      split at hp'
      · cases hp'
        rw [List.mem_singleton.mp he']
        refine ⟨fun hx => ?_, fun hx => ?_⟩
        · obtain hx | ⟨-, hlt⟩ := mem_boundVars_copiedBody hhead hx
          · exact (hg.unused (by omega) ho he).1 hx
          · omega
        · exact (hg.unused (by omega) ho he).2 (mem_opaqueVars_copiedBody hhead hx)
      · exact hg.unused (by omega) hp' he'

theorem grows_cachedGraph (g : Graph) (scope : Setting) (op : Operation) :
    g.Grows (cachedGraph g scope op) := by
  have h₁ : g.Grows (withCache g scope op) := by
    have h := g.grows_push (cacheOp g scope op)
    exact ⟨h.size_le, by simp [withCache]; omega, h.kept⟩
  exact h₁.trans (Graph.grows_push (withCache g scope op) (copyOp g (cacheOp g scope op) op))

theorem op?_cache (g : Graph) (scope : Setting) (op : Operation) :
    (cachedGraph g scope op).op? g.ops.size = some (cacheOp g scope op) :=
  (Graph.grows_push (withCache g scope op) (copyOp g (cacheOp g scope op) op)).op?
    ((g.op?_push (cacheOp g scope op) _).trans (if_pos rfl))

theorem op?_copy (g : Graph) (scope : Setting) (op : Operation) :
    (cachedGraph g scope op).op? (g.ops.size + 1) = some (copyOp g (cacheOp g scope op) op) :=
  (Graph.op?_push (withCache g scope op) (copyOp g (cacheOp g scope op) op) _).trans
    (if_pos (Array.size_push _).symm)

/-- The copy of a cache has the contents of the operation. -/
theorem copy_alike (scope : Setting) (hg : g.Regular P) {i : Nat} (ho : g.op? i = some op) (hcomp : op.isCompute)
    (hout : op.numOutputs = 1) (hroot : ∀ e ∈ op.body, e.Rooted) :
    (cachedGraph g scope op).Alike M i (g.ops.size + 1) := by
  obtain ⟨e, hbody⟩ := body_of_one_output hcomp hout
  have he : e ∈ op.body := by simp [hbody]
  have hhead : op.body.headD default = e := by simp [hbody]
  have hfits := hg.fits ho
  have hreg := cachedGraph_regular scope hg ho hcomp hout hroot
  have ho' := (grows_cachedGraph g scope op).op? ho
  have hrank : op.rank = op.axes.length := (rank_of_isCompute hcomp).trans (List.length_map ..)
  refine ⟨op, _, ho', op?_copy g scope op, ?_, hout, ?_, fun k idx hidx => ?_⟩
  · rw [hrank]
    exact (length_copiesFrom ..).symm
  · have htype : (cacheOp g scope op).outputType 0 = e.dtype := dtype_copiedBody hhead (hfits.types e he)
    funext k
    rw [outputType_of_isCompute hcomp, hbody]
    obtain _ | k := k
    · exact htype.symm
    · rfl
  · have hidx' : op.axes.length = idx.length := (hidx.trans (length_copiesFrom ..)).symm
    have hvals : ((copyOp g (cacheOp g scope op) op).axes.map fun iv => Expr.var iv.var).map
        (fun a => a.value M.reading ((cachedGraph g scope op).contents M)
          (M.params.assign (copyOp g (cacheOp g scope op) op).axisVars idx)) = idx := by
      have hassign : ((copiesFrom (g.next + op.rootAxes.length) op.axes).map (·.var)).map
          (fun v => M.params.assign (copyOp g (cacheOp g scope op) op).axisVars idx v.id) = idx :=
        Valuation.map_assign (nodup_copiesFrom ..) (by simp [length_copiesFrom, hidx']) M.params
      rw [List.map_map] at hassign ⊢
      exact hassign
    have hcache : (cachedGraph g scope op).contents M g.ops.size 0 idx =
        e.value M.reading ((cachedGraph g scope op).contents M) (M.params.assign op.axisVars idx) := by
      rw [hreg.contents_eq (op?_cache g scope op), element_of_isCompute (o := cacheOp g scope op) rfl]
      refine value_copiedBody hhead (fun x hx => ?_) (fun x hx hmem => ?_) (fun x hx => ?_) (hfits.types e he)
        (hroot e he) hidx' _
      · obtain ⟨-, hax, hlt⟩ := hfits.binders e he x hx
        exact ⟨hlt, fun hmem => hax ⟨i, op, ho, hmem⟩⟩
      · exact (hfits.fixed e he x hx).1 ⟨i, op, ho, hmem⟩
      · obtain hx | hx := hfits.closed e he x hx
        · exact (hfits.axes x hx).2
        · exact hg.params x hx
    rw [hreg.contents_eq ho', hreg.contents_eq (op?_copy g scope op), element_of_isCompute hcomp,
      element_of_isCompute (o := copyOp g (cacheOp g scope op) op) rfl, hbody]
    have hread : itemAt? (copyOp g (cacheOp g scope op) op).body k = (itemAt? [e] k).map fun _ =>
        .call ((cacheOp g scope op).outputType 0) (cacheOp g scope op).name
          ((copyOp g (cacheOp g scope op) op).axes.map fun iv => .var iv.var) .tensorRead
          (some (cacheOp g scope op).ref) 0 := by
      rw [← itemAt?_map]
      rfl
    rw [hread, Option.map_map]
    refine congrArg (Option.getD · default) (Option.map_congr fun e' he' => ?_)
    rw [List.mem_singleton.mp (mem_of_itemAt? he'), Function.comp_apply, value, callValue, value_ofList, hvals]
    exact hcache.symm

theorem op?_cachedGraph {scope : Setting} {op : Operation} {j : Nat} {p : Operation}
    (h : (cachedGraph g scope op).op? j = some p) :
    p = copyOp g (cacheOp g scope op) op ∨ p = cacheOp g scope op ∨ g.op? j = some p := by
  have h₁ := (Graph.op?_push (withCache g scope op) (copyOp g (cacheOp g scope op) op) j).symm.trans h
  split at h₁
  · exact Or.inl (Option.some.inj h₁).symm
  · have h₂ := (g.op?_push (cacheOp g scope op) j).symm.trans h₁
    split at h₂
    · exact Or.inr (Or.inl (Option.some.inj h₂).symm)
    · exact Or.inr (Or.inr h₂)

/-- Caches can be cached. -/
theorem rooted_cachedGraph (hg : g.Regular P) (hroot : g.Rooted) {op : Operation} {i : Nat}
    (ho : g.op? i = some op) (hcomp : op.isCompute) (hout : op.numOutputs = 1) (scope : Setting) :
    (cachedGraph g scope op).Rooted := by
  intro j p hp e' he'
  obtain rfl | rfl | hp := op?_cachedGraph hp
  · rw [List.mem_singleton.mp he']
    trivial
  · obtain ⟨e, hbody⟩ := body_of_one_output hcomp hout
    have he : e ∈ op.body := by simp [hbody]
    have hhead : op.body.headD default = e := by simp [hbody]
    rw [List.mem_singleton.mp he']
    refine rooted_copiedBody hhead (fun x hx => ((hg.fits ho).binders e he x hx).2.2) (fun x hx => ?_)
      fun v hv => lt_of_mem_vars hg ho he hv
    exact ((hg.fits ho).fixed e he x (mem_opaqueVars_copiedBody hhead hx)).2
  · exact hroot hp e' he'

end Caching

end Schedule

end TensorNest

import TensorNest.Lowering.Convention
import TensorNest.Proofs.Parts

/-! # Scopes

The variables that a statement uses outside of the scopes of their binders (`Stmt.freeIds`), beside those
that are found by going through the statement once, where a variable counts as bound from its binder on
(`Stmt.freeVars`). -/

namespace TensorNest

/-! ### Free and bound variables of statements -/

namespace Stmt

/-- The variables whose values a statement depends on. -/
def freeIds : Stmt → List Nat
  | bind v e body => e.freeIds ++ body.freeIds.filter (· ≠ v.id)
  | attr (.axis iv) key e body =>
    e.freeIds ++
      if key == "thread_extent" || key == "virtual_thread" then body.freeIds.filter (· ≠ iv.var.id) else body.freeIds
  | attr _ _ e body => e.freeIds ++ body.freeIds
  | assert cond message body => cond.freeIds ++ message.freeIds ++ body.freeIds
  | loop v min extent _ body => min.freeIds ++ extent.freeIds ++ body.freeIds.filter (· ≠ v.id)
  | store buffer value index pred =>
    buffer.freeIds ++ value.freeIds ++ index.freeIds ++ pred.toList.flatMap Expr.freeIds
  | provide _ _ value args => value.freeIds ++ args.flatMap Expr.freeIds
  | allocate site v _ extents cond body =>
    extents.flatMap Expr.freeIds ++ cond.freeIds ++ body.freeIds.filter (· ≠ v.id)
  | realize _ _ _ bounds cond body => ofBounds bounds ++ cond.freeIds ++ body.freeIds
  | prefetch _ _ _ bounds => ofBounds bounds
  | seq ss => ofStmts ss
  | branch cond onTrue none => cond.freeIds ++ onTrue.freeIds
  | branch cond onTrue (some onFalse) => cond.freeIds ++ onTrue.freeIds ++ onFalse.freeIds
  | eval e => e.freeIds
where
  /-- The free variables of ranges. -/
  ofBounds (bounds : List Range) : List Nat :=
    bounds.flatMap fun r => r.min.freeIds ++ r.extent.freeIds
  /-- The free variables of several statements. -/
  ofStmts : List Stmt → List Nat
    | [] => []
    | s :: ss => s.freeIds ++ ofStmts ss

theorem mem_freeIds_ofStmts {x : Nat} {ss : List Stmt} : x ∈ freeIds.ofStmts ss ↔ ∃ s ∈ ss, x ∈ s.freeIds := by
  induction ss with
  | nil => simp [freeIds.ofStmts]
  | cons s ss ih => simp [freeIds.ofStmts, ih]

/-- A variable is free in a statement if it is free in an expression of its own, or in a body and not bound
    there. -/
theorem mem_freeIds {x : Nat} {s : Stmt} : x ∈ s.freeIds ↔
    (∃ e ∈ s.exprParts, x ∈ e.freeIds) ∨ (∃ b ∈ s.bodies, x ∈ b.freeIds) ∧ ∀ v ∈ s.binder?, x ≠ v.id := by
  cases s with
  | attr subject key e body =>
    cases subject with
    | axis iv => by_cases hkey : key == "thread_extent" || key == "virtual_thread" <;> simp [freeIds, hkey]
    | _ => simp [freeIds]
  | branch cond onTrue onFalse => cases onFalse <;> simp [freeIds]
  | seq ss => simp [freeIds, mem_freeIds_ofStmts]
  | _ => simp [freeIds, freeIds.ofBounds, or_assoc] <;> grind

/-- The variables that the statements in a statement bind. -/
def binders (s : Stmt) : List Nat :=
  s.stmts.filterMap fun t => t.binder?.map (·.id)

/-- The variables that are bound anywhere in a statement. -/
def boundIds (s : Stmt) : List Nat :=
  s.stmts.flatMap fun t => t.binder?.toList.map (·.id) ++ t.exprParts.flatMap Expr.boundVars

/-- The free variables of the combiners and of the domains of axes in a statement. -/
def opaqueIds (s : Stmt) : List Nat :=
  s.stmts.flatMap fun t => t.exprParts.flatMap Expr.opaqueVars

theorem mem_boundIds {x : Nat} {s : Stmt} : x ∈ s.boundIds ↔
    (∃ b ∈ s.bodies, x ∈ b.boundIds) ∨ x ∈ s.binder?.toList.map (·.id) ∨ x ∈ s.exprParts.flatMap Expr.boundVars := by
  rw [boundIds, stmts_eq, List.flatMap_append, List.flatMap_assoc, List.flatMap_singleton, List.mem_append, List.mem_append,
    List.mem_flatMap]
  rfl

theorem mem_opaqueIds {x : Nat} {s : Stmt} : x ∈ s.opaqueIds ↔
    (∃ b ∈ s.bodies, x ∈ b.opaqueIds) ∨ x ∈ s.exprParts.flatMap Expr.opaqueVars := by
  rw [opaqueIds, stmts_eq, List.flatMap_append, List.flatMap_assoc, List.flatMap_singleton, List.mem_append,
    List.mem_flatMap]
  rfl

end Stmt

/-! ### Going through a statement -/

namespace Occurrences

variable {o o' o₁ o₂ : Occurrences} {free free' bound opaqueIds : List Nat}

/-- What going through something adds: all that it binds is bound, what is found free is free there and was not
    bound before, and what is free there is found, unless it was bound somewhere before or stands in a combiner or
    in the domain of an axis. -/
structure Adds (o o' : Occurrences) (free bound opaqueIds : List Nat) : Prop where
  mem_bound : ∀ x, x ∈ o'.bound ↔ x ∈ o.bound ∨ x ∈ bound
  kept : o.free ⊆ o'.free
  found : ∀ v ∈ o'.free, v ∈ o.free ∨ v.id ∈ free ∧ v.id ∉ o.bound
  missed : ∀ x ∈ free, x ∈ o'.free.map (·.id) ∨ x ∈ o'.bound ∨ x ∈ opaqueIds

theorem adds_refl (o : Occurrences) : o.Adds o [] [] [] where
  mem_bound x := by simp
  kept := List.Subset.refl _
  found v hv := Or.inl hv
  missed x hx := absurd hx List.not_mem_nil

theorem Adds.trans {free₁ free₂ bound₁ bound₂ opaque₁ opaque₂ : List Nat} (h₁ : o.Adds o₁ free₁ bound₁ opaque₁)
    (h₂ : o₁.Adds o₂ free₂ bound₂ opaque₂) : o.Adds o₂ (free₁ ++ free₂) (bound₁ ++ bound₂) (opaque₁ ++ opaque₂) where
  mem_bound x := by rw [h₂.mem_bound, h₁.mem_bound, List.mem_append, or_assoc]
  kept := List.Subset.trans h₁.kept h₂.kept
  found v hv := by
    rcases h₂.found v hv with hv | ⟨hfree, hbound⟩
    · rcases h₁.found v hv with hv | ⟨hfree, hbound⟩
      · exact Or.inl hv
      · exact Or.inr ⟨List.mem_append_left _ hfree, hbound⟩
    · exact Or.inr ⟨List.mem_append_right _ hfree, fun hx => hbound ((h₁.mem_bound _).mpr (Or.inl hx))⟩
  missed x hx := by
    rcases List.mem_append.mp hx with hx | hx
    · rcases h₁.missed x hx with hx | hx | hx
      · exact Or.inl (List.map_subset _ h₂.kept hx)
      · exact Or.inr (Or.inl ((h₂.mem_bound x).mpr (Or.inl hx)))
      · exact Or.inr (Or.inr (List.mem_append_left _ hx))
    · rcases h₂.missed x hx with hx | hx | hx
      · exact Or.inl hx
      · exact Or.inr (Or.inl hx)
      · exact Or.inr (Or.inr (List.mem_append_right _ hx))

/-- Variables are bound before what is in their scope. Some parts of a binder are gone through as if they were in its
    scope, too, so that a variable that is free in them alone is not found. -/
theorem Adds.of_binders {ids : List Nat} (h : Adds { o with bound := ids ++ o.bound } o' free bound opaqueIds)
    (hsub : ∀ x ∈ free', x ∈ free ∨ x ∈ opaqueIds) (hsup : ∀ x ∈ free, x ∉ ids → x ∈ free') :
    o.Adds o' free' (ids ++ bound) opaqueIds where
  mem_bound x := by
    rw [h.mem_bound]
    simp only [List.mem_append]
    tauto
  kept := h.kept
  found v hv := by
    rcases h.found v hv with hv | ⟨hfree, hbound⟩
    · exact Or.inl hv
    · obtain ⟨hids, hbound⟩ := not_or.mp (mt List.mem_append.mpr hbound)
      exact Or.inr ⟨hsup v.id hfree hids, hbound⟩
  missed x hx := by
    rcases hsub x hx with hx | hx
    · exact h.missed x hx
    · exact Or.inr (Or.inr hx)

theorem Adds.congr {bound' opaqueIds' : List Nat} (h : o.Adds o' free bound opaqueIds) (hfree : ∀ x, x ∈ free ↔ x ∈ free')
    (hbound : ∀ x, x ∈ bound ↔ x ∈ bound') (hhidden : ∀ x ∈ opaqueIds, x ∈ opaqueIds') :
    o.Adds o' free' bound' opaqueIds' where
  mem_bound x := by rw [h.mem_bound, hbound]
  kept := h.kept
  found v hv := (h.found v hv).imp_right fun ⟨hv, hnot⟩ => ⟨(hfree _).mp hv, hnot⟩
  missed x hx := (h.missed x ((hfree x).mpr hx)).imp_right (Or.imp_right (hhidden x))

/-- What each of some things adds, going through all of them adds. -/
theorem adds_foldl {α : Type} {step : Occurrences → α → Occurrences} {free bound opaqueIds : α → List Nat} {l : List α}
    (h : ∀ a ∈ l, ∀ o, Adds o (step o a) (free a) (bound a) (opaqueIds a)) (o : Occurrences) :
    o.Adds (l.foldl step o) (l.flatMap free) (l.flatMap bound) (l.flatMap opaqueIds) := by
  induction l generalizing o with
  | nil => exact adds_refl o
  | cons a l ih =>
    obtain ⟨ha, hl⟩ := List.forall_mem_cons.mp h
    rw [List.foldl_cons, List.flatMap_cons, List.flatMap_cons, List.flatMap_cons]
    exact (ha o).trans (ih hl _)

theorem adds_use (o : Occurrences) (v : Var) : o.Adds (o.use v) [v.id] [] [] := by
  unfold use
  split
  · rename_i hmet
    simp only [Bool.or_eq_true, List.contains_iff_mem, List.any_eq_true, beq_iff_eq] at hmet
    refine ⟨fun x => by simp, List.Subset.refl _, fun w hw => Or.inl hw, fun x hx => ?_⟩
    obtain rfl := List.mem_singleton.mp hx
    rcases hmet with hbound | ⟨w, hw, heq⟩
    · exact Or.inr (Or.inl hbound)
    · exact Or.inl (heq ▸ List.mem_map_of_mem hw)
  · rename_i hmet
    simp only [Bool.or_eq_true, List.contains_iff_mem, not_or] at hmet
    refine ⟨fun x => by simp, List.subset_append_left _ _, fun w hw => ?_, fun x hx => ?_⟩
    · rcases List.mem_append.mp hw with hw | hw
      · exact Or.inl hw
      · obtain rfl := List.mem_singleton.mp hw
        exact Or.inr ⟨List.mem_singleton_self _, hmet.1⟩
    · obtain rfl := List.mem_singleton.mp hx
      exact Or.inl (by simp)

@[simp] theorem exprs_eq_foldl (o : Occurrences) (es : List Expr) : expr.exprs o es = es.foldl expr o := by
  induction es generalizing o with
  | nil => rfl
  | cons e es ih => exact ih _

@[simp] theorem guard_eq_foldl (o : Occurrences) (p : Option Expr) : expr.guard o p = p.toList.foldl expr o := by
  cases p <;> rfl

@[simp] theorem stmts_eq_foldl (o : Occurrences) (ss : List Stmt) : stmt.stmts o ss = ss.foldl stmt o := by
  induction ss generalizing o with
  | nil => rfl
  | cons s ss ih => exact ih _

theorem foldl_bind (o : Occurrences) (axes : List IterVar) : axes.foldl (fun o iv => o.bind iv.var) o =
    { o with bound := (axes.map (·.id)).reverse ++ o.bound } := by
  induction axes generalizing o with
  | nil => rfl
  | cons iv axes ih =>
    rw [List.foldl_cons, ih, List.map_cons, List.reverse_cons, List.append_assoc]
    rfl

/-- An expression that is no variable is gone through by its parts, with what it binds bound before. -/
theorem expr_eq (o : Occurrences) {e : Expr} (h : ∀ v, e ≠ .var v) :
    o.expr e = e.parts.foldl expr { o with bound := e.head.binders.reverse ++ o.bound } := by
  cases e with
  | var v => exact absurd rfl (h v)
  | reduce combiner sources axes cond index => simp [expr, Expr.parts, Expr.head, Expr.Head.binders, foldl_bind]
  | bind v value body => rfl
  | _ => simp [expr, Expr.parts, Expr.head, Expr.Head.binders]

theorem stmt_eq (o : Occurrences) (s : Stmt) : o.stmt s = s.bodies.foldl stmt (s.exprParts.foldl expr
    { o with bound := s.binder?.toList.map (·.id) ++ o.bound }) := by
  cases s with
  | attr sub key e body =>
    cases sub with
    | axis iv => by_cases hkey : key == "thread_extent" || key == "virtual_thread" <;> simp [stmt, subject, bind, hkey]
    | _ => simp [stmt, subject]
  | branch cond onTrue onFalse => cases onFalse <;> simp [stmt]
  | _ => simp [stmt, ranges, bind, List.foldl_append, List.foldl_flatMap]

/-- A variable is free in a part and not bound by the head only if it is free in the expression. -/
theorem mem_freeIds_of_part {x : Nat} {a e : Expr} (ha : a ∈ e.parts) (hx : x ∈ a.freeIds) (hnot : x ∉ e.head.binders) :
    x ∈ e.freeIds := by
  cases e with
  | reduce combiner sources axes cond index => exact Expr.mem_freeIds_reduce.mpr (Or.inr ⟨Or.inr ⟨a, ha, hx⟩, hnot⟩)
  | bind v value body =>
    simp only [Expr.parts, List.mem_cons, List.not_mem_nil, or_false] at ha
    have hne : x ≠ v.id := by simpa [Expr.head, Expr.Head.binders] using hnot
    rcases ha with rfl | rfl <;> simp [Expr.freeIds, hx, hne]
  | _ => simp [Expr.parts] at ha <;> simp [Expr.freeIds] <;> grind

theorem parts_of_mem_freeIds {x : Nat} {e : Expr} (h : ∀ v, e ≠ .var v) (hx : x ∈ e.freeIds) :
    x ∈ e.parts.flatMap Expr.freeIds ∨ x ∈ e.head.opaqueVars := by
  cases e with
  | var v => exact absurd rfl (h v)
  | reduce combiner sources axes cond index =>
    simp only [Expr.head, Expr.Head.opaqueVars, Expr.parts, List.mem_append, List.mem_flatMap]
    rcases Expr.mem_freeIds_reduce.mp hx with (hx | hx) | ⟨hx | ⟨a, ha, hx⟩, -⟩
    · exact Or.inr (Or.inl (Or.inl hx))
    · exact Or.inr (Or.inr hx)
    · exact Or.inr (Or.inl (Or.inr hx))
    · exact Or.inl ⟨a, List.mem_append.mp ha, hx⟩
  | call | load => exact Or.inl (by simpa [Expr.parts, Expr.freeIds] using hx)
  | _ => simp [Expr.parts, Expr.freeIds] at hx ⊢ <;> tauto

theorem adds_expr (o : Occurrences) (e : Expr) : o.Adds (o.expr e) e.freeIds e.boundVars e.opaqueVars := by
  induction e using Expr.induct_parts generalizing o with
  | step e ih =>
    by_cases hvar : ∃ v, e = .var v
    · obtain ⟨v, rfl⟩ := hvar
      exact adds_use o v
    have hne : ∀ v, e ≠ .var v := fun v heq => hvar ⟨v, heq⟩
    rw [expr_eq o hne]
    have hparts := adds_foldl (fun a ha o => ih a ha o) { o with bound := e.head.binders.reverse ++ o.bound }
    have hheads : ∀ {f : Expr.Head → List Nat} {x : Nat}, x ∈ e.heads.flatMap f ↔
        x ∈ f e.head ∨ x ∈ e.parts.flatMap fun a => a.heads.flatMap f := by
      intro f x
      simp only [List.mem_flatMap, Expr.mem_heads (e := e)]
      grind
    have hhidden : ∀ x ∈ e.parts.flatMap Expr.opaqueVars, x ∈ e.opaqueVars := fun x hx => hheads.mpr (Or.inr hx)
    have hwhole := (hparts.congr (fun _ => Iff.rfl) (fun _ => Iff.rfl) hhidden).of_binders
      (fun x hx => (parts_of_mem_freeIds hne hx).imp_right Expr.opaqueVars_head) fun x hx hnot => by
        obtain ⟨a, ha, hx⟩ := List.mem_flatMap.mp hx
        exact mem_freeIds_of_part ha hx (by simpa using hnot)
    refine hwhole.congr (fun _ => Iff.rfl) (fun x => ?_) fun _ hx => hx
    rw [Expr.boundVars, hheads, List.mem_append, List.mem_reverse]
    rfl

theorem adds_stmt (o : Occurrences) (s : Stmt) : o.Adds (o.stmt s) s.freeIds s.boundIds s.opaqueIds := by
  induction s using Stmt.induct_bodies generalizing o with
  | step s ih =>
    rw [stmt_eq]
    have hexprs := adds_foldl (fun e (_ : e ∈ s.exprParts) o => adds_expr o e)
      { o with bound := s.binder?.toList.map (·.id) ++ o.bound }
    have hall := hexprs.trans (adds_foldl (fun b hb o => ih b hb o) _)
    have hsub : ∀ x ∈ s.freeIds, x ∈ s.exprParts.flatMap Expr.freeIds ++ s.bodies.flatMap Stmt.freeIds := by
      intro x hx
      rcases Stmt.mem_freeIds.mp hx with hx | ⟨hx, -⟩
      · exact List.mem_append_left _ (List.mem_flatMap.mpr hx)
      · exact List.mem_append_right _ (List.mem_flatMap.mpr hx)
    have hsup : ∀ x ∈ s.exprParts.flatMap Expr.freeIds ++ s.bodies.flatMap Stmt.freeIds,
        x ∉ s.binder?.toList.map (·.id) → x ∈ s.freeIds := by
      intro x hx hnot
      refine Stmt.mem_freeIds.mpr ((List.mem_append.mp hx).imp List.mem_flatMap.mp fun hx => ⟨List.mem_flatMap.mp hx, ?_⟩)
      rintro v hv rfl
      exact hnot (List.mem_map.mpr ⟨v, Option.mem_toList.mpr hv, rfl⟩)
    refine (hall.of_binders (fun x hx => Or.inl (hsub x hx)) hsup).congr (fun _ => Iff.rfl) (fun x => ?_) fun x hx => ?_
    · rw [Stmt.mem_boundIds, List.mem_append, List.mem_append, ← or_assoc, or_comm, List.mem_flatMap]
    · rw [Stmt.mem_opaqueIds]
      exact (List.mem_append.mp hx).symm.imp_left List.mem_flatMap.mp

end Occurrences

namespace Stmt

variable {s : Stmt}

/-- No variable is free in a statement that is also bound there, or that stands in a combiner or in the domain of
    an axis. -/
def Apart (s : Stmt) : Prop :=
  ∀ x ∈ s.freeIds, x ∉ s.boundIds ∧ x ∉ s.opaqueIds

instance (s : Stmt) : Decidable s.Apart := inferInstanceAs (Decidable (∀ _ ∈ _, _))

/-- What is found free is free. -/
theorem mem_freeIds_of_mem_freeVars {v : Var} (h : v ∈ s.freeVars) : v.id ∈ s.freeIds := by
  rcases (Occurrences.adds_stmt {} s).found v h with h | ⟨h, -⟩
  · cases h
  · exact h

/-- In a statement in which free variables are not bound, too, all of them are found. -/
theorem mem_freeVars_of_apart (h : s.Apart) {x : Nat} (hx : x ∈ s.freeIds) : x ∈ s.freeVars.map (·.id) := by
  obtain ⟨hbound, hhidden⟩ := h x hx
  rcases (Occurrences.adds_stmt {} s).missed x hx with hx | hx | hx
  · exact hx
  · rcases ((Occurrences.adds_stmt {} s).mem_bound x).mp hx with hx | hx
    · cases hx
    · exact absurd hx hbound
  · exact absurd hx hhidden

theorem freeVars_eq_nil_of_closed (h : s.freeIds = []) : s.freeVars = [] := by
  refine List.eq_nil_iff_forall_not_mem.mpr fun v hv => ?_
  have hmem := mem_freeIds_of_mem_freeVars hv
  rw [h] at hmem
  cases hmem

theorem freeVars_eq_nil_iff (h : s.Apart) : s.freeVars = [] ↔ s.freeIds = [] := by
  refine ⟨fun hvars => List.eq_nil_iff_forall_not_mem.mpr fun x hx => ?_, freeVars_eq_nil_of_closed⟩
  have hmem := mem_freeVars_of_apart h hx
  rw [hvars] at hmem
  cases hmem

end Stmt

end TensorNest

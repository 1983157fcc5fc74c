import Mathlib.Data.List.Forall2
import Mathlib.Data.Option.Defs
import Mathlib.Logic.Relation
import TensorNest.Lowering.Partition
import TensorNest.Proofs.Likeness
import TensorNest.Proofs.LinearComparisons
import TensorNest.Proofs.Mentions

/-! # Renaming a variable

A new variable is put for another one of its type. What the builders and the simplifier do does not depend on the names of
variables, so that they make of a renamed expression the renamed result, as long as the expression does not mention the new
variable and binds none of the two (`Expr.Renames.simplifyUnder`). Hence a guard keeps its split point, renamed
(`Expr.Renames.splitPoint?`). -/

namespace TensorNest

/-- A variable and one of its name and type that takes its place. -/
structure Renaming where
  old : Var
  new : Var
  name : new.name = old.name
  type : new.dtype = old.dtype

/-- Two steps fail alike, or their results are related. -/
def Mirrors {α β : Type} (P : α → β → Prop) : Except Error α → Except Error β → Prop
  | .ok a, .ok b => P a b
  | .error e, .error e' => e = e'
  | _, _ => False

section Mirrors
variable {α β γ δ : Type} {P : α → β → Prop} {Q : γ → δ → Prop} {x : Except Error α} {y : Except Error β}

theorem Mirrors.bind {k : α → Except Error γ} {k' : β → Except Error δ} (h : Mirrors P x y)
    (hk : ∀ a b, P a b → Mirrors Q (k a) (k' b)) : Mirrors Q (x >>= k) (y >>= k') := by
  cases x <;> cases y
  · exact h
  · exact h.elim
  · exact h.elim
  · exact hk _ _ h

/-- The same step, before steps that go alike. -/
theorem mirrors_bind_self {k : α → Except Error γ} {k' : α → Except Error δ} (hk : ∀ a, Mirrors Q (k a) (k' a)) :
    Mirrors Q (x >>= k) (x >>= k') := by
  cases x with
  | error e => exact rfl
  | ok a => exact hk a

/-- Steps that go alike and give the same. -/
theorem Mirrors.eq {x y : Except Error α} (h : Mirrors (fun a b => b = a) x y) : y = x := by
  cases x <;> cases y
  · exact congrArg Except.error (Eq.symm h)
  · exact h.elim
  · exact h.elim
  · exact congrArg Except.ok h

theorem Mirrors.of_ok {b : β} (h : Mirrors P x y) (hy : y = .ok b) : ∃ a, x = .ok a ∧ P a b := by
  subst hy
  cases x with
  | error e => exact h.elim
  | ok a => exact ⟨a, rfl, h⟩

end Mirrors

namespace Expr

/-- An expression and its form with the new variable in place of the old one. The expression does not mention the new
    variable and binds neither it nor the old one. -/
inductive Renames (r : Renaming) : Expr → Expr → Prop
  | old (hne : r.old.id ≠ r.new.id) : Renames r (var r.old) (var r.new)
  | other {v : Var} (hold : v.id ≠ r.old.id) (hnew : v.id ≠ r.new.id) : Renames r (var v) (var v)
  | const {x : Number} {t : DataType} : Renames r (const x t) (const x t)
  | str {text : String} : Renames r (str text) (str text)
  | cast {t : DataType} {a a' : Expr} (ha : Renames r a a') : Renames r (cast t a) (cast t a')
  | bin {op : BinOp} {a a' b b' : Expr} (ha : Renames r a a') (hb : Renames r b b') : Renames r (bin op a b) (bin op a' b')
  | not {a a' : Expr} (ha : Renames r a a') : Renames r (not a) (not a')
  | select {c c' a a' b b' : Expr} (hc : Renames r c c') (ha : Renames r a a') (hb : Renames r b b') :
    Renames r (select c a b) (select c' a' b')
  | call {t : DataType} {name : String} {args args' : List Expr} {kind : CallKind} {func : Option OpRef} {i : Ordinal}
    (hargs : List.Forall₂ (Renames r) args args') : Renames r (call t name args kind func i) (call t name args' kind func i)
  | bind {v : Var} {a a' b b' : Expr} (hold : v.id ≠ r.old.id) (hnew : v.id ≠ r.new.id) (ha : Renames r a a')
    (hb : Renames r b b') : Renames r (bind v a b) (bind v a' b')
  | load {t : DataType} {a a' i i' : Expr} {p p' : Option Expr} (ha : Renames r a a') (hi : Renames r i i')
    (hp : Option.Rel (Renames r) p p') : Renames r (load t a i p) (load t a' i' p')
  | ramp {a a' b b' : Expr} {lanes : Int} (ha : Renames r a a') (hb : Renames r b b') :
    Renames r (ramp a b lanes) (ramp a' b' lanes)
  | broadcast {a a' : Expr} {lanes : Int} (ha : Renames r a a') : Renames r (broadcast a lanes) (broadcast a' lanes)
  | reduce {combiner : Reducer} {es es' : List Expr} {axes : List IterVar} {c c' : Option Expr} {i : Int}
    (haxes : ∀ x ∈ axes.map (·.id), x ≠ r.old.id ∧ x ≠ r.new.id) (hes : List.Forall₂ (Renames r) es es')
    (hc : Option.Rel (Renames r) c c') : Renames r (reduce combiner es axes c i) (reduce combiner es' axes c' i)

section Renames
variable {r : Renaming} {t : DataType} {op : BinOp} {a a' b b' c c' e e' : Expr} {es es' : List Expr} {o o' : Option Expr}

theorem Renames.dtype_eq (h : e.Renames r e') : e'.dtype = e.dtype := by
  induction e generalizing e' with
  | var v =>
    cases h with
    | old => exact r.type
    | other => rfl
  | bin op a b iha _ =>
    cases h with | bin ha
    simp only [dtype, iha ha]
  | not a iha =>
    cases h with | not ha
    simp only [dtype, iha ha]
  | select c a b _ iha _ =>
    cases h with | select _ ha
    simp only [dtype, iha ha]
  | bind v a b _ ihb =>
    cases h with | bind _ _ _ hb
    simp only [dtype, ihb hb]
  | ramp a b lanes iha _ =>
    cases h with | ramp ha
    simp only [dtype, iha ha]
  | broadcast a lanes iha =>
    cases h with | broadcast ha
    simp only [dtype, iha ha]
  | _ =>
    cases h
    rfl

theorem Renames.isConst_eq (h : e.Renames r e') : e'.isConst = e.isConst := by
  cases h <;> rfl

theorem Renames.isLeaf_eq (h : e.Renames r e') : e'.isLeaf = e.isLeaf := by
  cases h <;> rfl

/-- Expressions are the same exactly if their renamed forms are. -/
theorem Renames.same_eq (ha : a.Renames r a') (hb : b.Renames r b') : a'.same b' = a.same b := by
  unfold same
  have hlist : ∀ {as as' bs bs' : List Expr}, (∀ a ∈ as, ∀ {a' b b'}, a.Renames r a' → b.Renames r b' →
      Matching.identity.expr a' b' = Matching.identity.expr a b) → List.Forall₂ (Renames r) as as' →
        List.Forall₂ (Renames r) bs bs' →
      Matching.identity.exprs as' bs' = Matching.identity.exprs as bs := by
    intro as as' bs bs' heq has hbs
    induction has generalizing bs bs' with
    | nil => cases hbs <;> simp [Matching.exprs]
    | cons ha _ ih =>
      obtain ⟨hfirst, hrest⟩ := List.forall_mem_cons.mp heq
      cases hbs with
      | nil => simp [Matching.exprs]
      | cons hb hbs => rw [Matching.exprs, Matching.exprs, hfirst ha hb, ih hrest hbs]
  have hguard : ∀ {p p' q q' : Option Expr}, (∀ a ∈ p, ∀ {a' b b'}, a.Renames r a' → b.Renames r b' →
      Matching.identity.expr a' b' = Matching.identity.expr a b) → Option.Rel (Renames r) p p' →
        Option.Rel (Renames r) q q' →
      Matching.identity.guards p' q' = Matching.identity.guards p q := by
    intro p p' q q' heq hp hq
    cases hp with
    | none => cases hq <;> simp [Matching.guards]
    | some ha =>
      cases hq with
      | none => simp [Matching.guards]
      | some hb => simpa only [Matching.guards] using heq _ rfl ha hb
  have hapart : ∀ {a a' b b' : Expr}, (a.ctorIdx == b.ctorIdx) = false → (a'.ctorIdx == b'.ctorIdx) = false →
      Matching.identity.expr a' b' = Matching.identity.expr a b := fun h h' =>
    (Matching.expr_of_ctorIdx_ne h').trans (Matching.expr_of_ctorIdx_ne h).symm
  induction a generalizing a' b b' with
  | var v =>
    cases ha with
    | old =>
      cases hb with
      | old => simp [Matching.expr, Matching.identity]
      | other hold hnew => simp [Matching.expr, Matching.identity, hold.symm, hnew.symm]
      | _ => exact hapart rfl rfl
    | other hold hnew =>
      cases hb with
      | old => simp [Matching.expr, Matching.identity, hold, hnew]
      | other => rfl
      | _ => exact hapart rfl rfl
  | const =>
    cases ha
    cases hb with
    | const => rfl
    | _ => exact hapart rfl rfl
  | str =>
    cases ha
    cases hb with
    | str => rfl
    | _ => exact hapart rfl rfl
  | cast t a iha =>
    cases ha with | cast ha
    cases hb with
    | cast hb => simp only [Matching.expr, iha ha hb]
    | _ => exact hapart rfl rfl
  | bin op a c iha ihc =>
    cases ha with | bin ha hc
    cases hb with
    | bin hb hd => simp only [Matching.expr, iha ha hb, ihc hc hd]
    | _ => exact hapart rfl rfl
  | not a iha =>
    cases ha with | not ha
    cases hb with
    | not hb => simp only [Matching.expr, iha ha hb]
    | _ => exact hapart rfl rfl
  | select c a d ihc iha ihd =>
    cases ha with | select hc ha hd
    cases hb with
    | select hc' hb hd' => simp only [Matching.expr, ihc hc hc', iha ha hb, ihd hd hd']
    | _ => exact hapart rfl rfl
  | call t name args kind func i ih =>
    cases ha with | call hargs
    cases hb with
    | call hargs' => simp only [Matching.expr, hlist (fun a ha => ih a ha) hargs hargs']
    | _ => exact hapart rfl rfl
  | bind v a c iha ihc =>
    cases ha with | bind _ _ ha hc
    cases hb with
    | bind _ _ hb hd => simp only [Matching.expr, iha ha hb, ihc hc hd]
    | _ => exact hapart rfl rfl
  | load t a i p iha ihi ihp =>
    cases ha with | load ha hi hp
    cases hb with
    | load hb hj hq => simp only [Matching.expr, iha ha hb, ihi hi hj, hguard (fun a ha => ihp a ha) hp hq]
    | _ => exact hapart rfl rfl
  | ramp a c lanes iha ihc =>
    cases ha with | ramp ha hc
    cases hb with
    | ramp hb hd => simp only [Matching.expr, iha ha hb, ihc hc hd]
    | _ => exact hapart rfl rfl
  | broadcast a lanes iha =>
    cases ha with | broadcast ha
    cases hb with
    | broadcast hb => simp only [Matching.expr, iha ha hb]
    | _ => exact hapart rfl rfl
  | reduce combiner es axes cond i _ _ ihs _ ihc =>
    cases ha with | reduce _ hes hc
    cases hb with
    | reduce _ hes' hc' =>
      simp only [Matching.expr, hlist (fun a ha => ihs a ha) hes hes', hguard (fun a ha => ihc a ha) hc hc']
    | _ => exact hapart rfl rfl

theorem Renames.parts (h : e.Renames r e') : List.Forall₂ (Renames r) e.parts e'.parts := by
  have hoption {o o' : Option Expr} (ho : Option.Rel (Renames r) o o') : List.Forall₂ (Renames r) o.toList o'.toList := by
    cases ho with
    | none => exact .nil
    | some ha => exact .cons ha .nil
  cases h with
  | old | other | const | str => exact .nil
  | cast ha | not ha | broadcast ha => exact .cons ha .nil
  | bin ha hb | bind _ _ ha hb | ramp ha hb => exact .cons ha (.cons hb .nil)
  | select hc ha hb => exact .cons hc (.cons ha (.cons hb .nil))
  | call hargs => exact hargs
  | load ha hi hp => exact .cons ha (.cons hi (hoption hp))
  | reduce _ hes hc => exact List.rel_append hes (hoption hc)

theorem Renames.head_eq (h : e.Renames r e') : e'.head = e.head := by
  cases h with
  | @call t _ _ _ kind func i hargs => exact congrArg (Head.call t kind func i.toInt) hargs.length_eq.symm
  | _ => rfl

/-- What holds of renamed parts exactly if something holds of the parts. -/
theorem Renames.exists_part_iff {p q : Expr → Prop} (h : e.Renames r e')
    (hpart : ∀ a ∈ e.parts, ∀ a', a.Renames r a' → (q a' ↔ p a)) : (∃ a ∈ e'.parts, q a) ↔ ∃ a ∈ e.parts, p a := by
  have hlist : ∀ {es es' : List Expr}, (∀ a ∈ es, ∀ a', a.Renames r a' → (q a' ↔ p a)) →
      List.Forall₂ (Renames r) es es' → ((∃ a ∈ es', q a) ↔ ∃ a ∈ es, p a) := by
    intro es es' hpart h
    induction h with
    | nil => simp
    | cons ha _ ih =>
      obtain ⟨hfirst, hrest⟩ := List.forall_mem_cons.mp hpart
      simp only [List.exists_mem_cons_iff, hfirst _ ha, ih hrest]
  exact hlist hpart h.parts

/-- What an expression binds, reads and reduces with stays. -/
theorem Renames.mem_heads_iff (h : e.Renames r e') {d : Head} : d ∈ e'.heads ↔ d ∈ e.heads := by
  induction e using induct_parts generalizing e' with
  | step e ih => rw [mem_heads, mem_heads (e := e), h.exists_part_iff fun a ha a' h => ih a ha h, h.head_eq]

theorem Renames.mem_boundVars_iff (h : e.Renames r e') {x : Nat} : x ∈ e'.boundVars ↔ x ∈ e.boundVars := by
  simp only [mem_boundVars, h.mem_heads_iff]

theorem mem_vars_iff {v : Var} : v ∈ e.vars ↔ (∃ a ∈ e.parts, v ∈ a.vars) ∨ e = var v := by
  have hvar (a : Expr) : a.asVar? = some v ↔ a = var v := by cases a <;> simp [asVar?]
  simp only [vars, List.mem_filterMap, hvar, exists_eq_right, mem_postorder (e := e), eq_comm (a := var v)]

/-- A renamed expression uses the new variable if the expression uses the old one, and what else the expression uses. -/
theorem Renames.mem_vars_iff {v : Var} (h : e.Renames r e') :
    v ∈ e'.vars ↔ (v = r.new ∧ ∃ w ∈ e.vars, w.id = r.old.id) ∨ v ∈ e.vars ∧ v.id ≠ r.old.id := by
  induction e using induct_parts generalizing e' with
  | step e ih =>
    by_cases hvar : ∃ w, e = var w
    · obtain ⟨w, rfl⟩ := hvar
      have hself (w : Var) : v ∈ (var w).vars ↔ v = w := List.mem_singleton
      have hany : (∃ u ∈ (var w).vars, u.id = r.old.id) ↔ w.id = r.old.id := by simp [vars, postorder, asVar?]
      rw [hself, hany]
      cases h with
      | old =>
        rw [hself]
        exact ⟨fun heq => .inl ⟨heq, rfl⟩, fun h => h.elim And.left fun h => absurd (congrArg Var.id h.1) h.2⟩
      | other hold =>
        rw [hself]
        exact ⟨fun heq => .inr ⟨heq, heq ▸ hold⟩, fun h => h.elim (fun h => absurd h.2 hold) And.left⟩
    · have hvar' : ∀ w, e' ≠ var w := by
        rintro w rfl
        cases h <;> exact hvar ⟨_, rfl⟩
      have hparts {a : Expr} (hne : ∀ w, a ≠ var w) (w : Var) : w ∈ a.vars ↔ ∃ b ∈ a.parts, w ∈ b.vars :=
        Expr.mem_vars_iff.trans (or_iff_left (hne w))
      rw [hparts hvar', h.exists_part_iff fun a ha a' h => ih a ha h]
      simp only [hparts fun w heq => hvar ⟨w, heq⟩]
      grind

/-- Where the old variable is not free, nothing is renamed. -/
theorem Renames.eq_self (h : e.Renames r e') (hfree : r.old.id ∉ e.freeIds) : e' = e := by
  have hlist : ∀ {es es' : List Expr}, (∀ a ∈ es, ∀ {a'}, a.Renames r a' → a' = a) → List.Forall₂ (Renames r) es es' →
    es' = es := by
    intro es es' ih h
    induction h with
    | nil => rfl
    | cons ha _ ih' =>
      obtain ⟨hfirst, hrest⟩ := List.forall_mem_cons.mp ih
      rw [hfirst ha, ih' hrest]
  have hoption : ∀ {o o' : Option Expr}, (∀ a ∈ o, ∀ {a'}, a.Renames r a' → a' = a) → Option.Rel (Renames r) o o' →
    o' = o := by
    rintro _ _ ih (ha | _)
    · rw [ih _ rfl ha]
    · rfl
  induction e generalizing e' with
  | var v =>
    cases h with
    | old => exact absurd (List.mem_singleton_self _) hfree
    | other => rfl
  | const => cases h; rfl
  | str => cases h; rfl
  | cast t a iha =>
    cases h with | cast ha
    rw [iha ha hfree]
  | bin op a b iha ihb =>
    cases h with | bin ha hb
    obtain ⟨hfirst, hsecond⟩ := not_or.mp (mt List.mem_append.mpr hfree)
    rw [iha ha hfirst, ihb hb hsecond]
  | not a iha =>
    cases h with | not ha
    rw [iha ha hfree]
  | select c a b ihc iha ihb =>
    cases h with | select hc ha hb
    simp only [freeIds, List.mem_append, not_or] at hfree
    rw [ihc hc hfree.1.1, iha ha hfree.1.2, ihb hb hfree.2]
  | call t name args kind func i ih =>
    cases h with | call hargs
    simp only [freeIds, mem_freeIds_ofList, not_exists, not_and] at hfree
    rw [hlist (fun a ha _ h => ih a ha h (hfree a ha)) hargs]
  | bind v a b iha ihb =>
    cases h with | bind hold hnew ha hb
    simp only [freeIds, List.mem_append, List.mem_filter, decide_eq_true_eq, not_or, not_and] at hfree
    rw [iha ha hfree.1, ihb hb fun hmem => hfree.2 hmem hold.symm]
  | load t a i p iha ihi ihp =>
    cases h with | load ha hi hp
    simp only [freeIds, List.mem_append, mem_freeIds_ofOption, not_or, not_exists, not_and] at hfree
    rw [iha ha hfree.1.1, ihi hi hfree.1.2, hoption (fun a ha _ h => ihp a ha h (hfree.2 a ha)) hp]
  | ramp a b lanes iha ihb =>
    cases h with | ramp ha hb
    obtain ⟨hfirst, hsecond⟩ := not_or.mp (mt List.mem_append.mpr hfree)
    rw [iha ha hfirst, ihb hb hsecond]
  | broadcast a lanes iha =>
    cases h with | broadcast ha
    rw [iha ha hfree]
  | reduce combiner es axes cond i _ _ ihs _ ihc =>
    cases h with | reduce haxes hes hc
    have hpart : ∀ a ∈ es ++ cond.toList, r.old.id ∉ a.freeIds := fun a ha hmem =>
      hfree (mem_freeIds_reduce.mpr (.inr ⟨.inr ⟨a, ha, hmem⟩, fun hmem => (haxes _ hmem).1 rfl⟩))
    rw [hlist (fun a ha _ h => ihs a ha h (hpart a (List.mem_append_left _ ha))) hes,
      hoption (fun a ha _ h => ihc a ha h (hpart a (List.mem_append_right _ (Option.mem_toList.mpr ha)))) hc]

/-- An expression that does not use the new variable, nor the number of the old one for another variable, and binds none of
    the two is renamed by a substitution. -/
theorem renames_subst (hvars : ∀ w ∈ e.vars, w.id ≠ r.new.id ∧ (w.id = r.old.id → w = r.old))
    (hbound : ∀ x ∈ e.boundVars, x ≠ r.old.id ∧ x ≠ r.new.id) : e.Renames r (e.subst [(r.old, .var r.new)]) := by
  induction e using induct_parts with
  | step e ih =>
    have hparts : ∀ a ∈ e.parts, a.Renames r (a.subst [(r.old, .var r.new)]) := fun a ha => ih a ha
      (fun w hw => hvars w (mem_vars_iff.mpr (.inl ⟨a, ha, hw⟩))) fun x hx => hbound x (boundVars_subset ha hx)
    have hlist {es : List Expr} (hes : ∀ a ∈ es, a.Renames r (a.subst [(r.old, .var r.new)])) :
        List.Forall₂ (Renames r) es (es.map (·.subst [(r.old, .var r.new)])) :=
      List.forall₂_map_right_iff.mpr (List.forall₂_same.mpr hes)
    have hoption {o : Option Expr} (ho : ∀ a ∈ o, a.Renames r (a.subst [(r.old, .var r.new)])) :
        Option.Rel (Renames r) o (o.map (·.subst [(r.old, .var r.new)])) := by
      cases o with
      | none => exact .none
      | some a => exact .some (ho a rfl)
    cases e with
    | var v =>
      obtain ⟨hnew, hsame⟩ := hvars v (List.mem_singleton_self v)
      by_cases hid : v.id = r.old.id
      · obtain rfl := hsame hid
        have hput : (var r.old).subst [(r.old, .var r.new)] = .var r.new := by simp [Expr.subst, Subst.find?]
        rw [hput]
        exact .old hnew
      · have hput : (var v).subst [(r.old, .var r.new)] = .var v := by simp [Expr.subst, Subst.find?, Ne.symm hid]
        rw [hput]
        exact .other hid hnew
    | const => exact .const
    | str => exact .str
    | cast t a => exact .cast (hparts a List.mem_cons_self)
    | not a => exact .not (hparts a List.mem_cons_self)
    | broadcast a => exact .broadcast (hparts a List.mem_cons_self)
    | bin op a b => exact .bin (hparts a (by simp [Expr.parts])) (hparts b (by simp [Expr.parts]))
    | ramp a b => exact .ramp (hparts a (by simp [Expr.parts])) (hparts b (by simp [Expr.parts]))
    | select c a b =>
      exact .select (hparts c (by simp [Expr.parts])) (hparts a (by simp [Expr.parts])) (hparts b (by simp [Expr.parts]))
    | call t name args kind func i =>
      rw [Expr.subst, subst_onList]
      exact .call (hlist hparts)
    | bind v a b =>
      obtain ⟨hold, hnew⟩ := hbound v.id (mem_boundVars.mpr ⟨_, head_mem_heads _, List.mem_singleton_self _⟩)
      exact .bind hold hnew (hparts a (by simp [Expr.parts])) (hparts b (by simp [Expr.parts]))
    | load t a i p =>
      rw [Expr.subst, subst_onOption]
      exact .load (hparts a (by simp [Expr.parts])) (hparts i (by simp [Expr.parts]))
        (hoption fun q hq => hparts q (by simp [Expr.parts, Option.mem_def.mp hq]))
    | reduce combiner es axes c i =>
      rw [Expr.subst, subst_onList, subst_onOption]
      refine .reduce (fun x hx => hbound x (mem_boundVars.mpr ⟨_, head_mem_heads _, hx⟩))
        (hlist fun a ha => hparts a (List.mem_append_left _ ha))
        (hoption fun a ha => hparts a (List.mem_append_right _ (Option.mem_toList.mpr ha)))

theorem Renames.ite {p : Prop} [Decidable p] (ha : a.Renames r a') (hb : b.Renames r b') :
    (if p then a else b).Renames r (if p then a' else b') := by
  split
  · exact ha
  · exact hb

/-! ### Texts -/

theorem Renames.bufferName_eq (h : e.Renames r e') : e'.bufferName = e.bufferName := by
  cases h with
  | old => exact r.name
  | _ => rfl

theorem Renames.text_eq (h : e.Renames r e') : e'.text = e.text := by
  have hlist : ∀ {es es' : List Expr}, (∀ a ∈ es, ∀ {a'}, a.Renames r a' → a'.text = a.text) →
      List.Forall₂ (Renames r) es es' →
      exprTexts es' = exprTexts es := by
    intro es es' ih h
    induction h with
    | nil => rfl
    | cons ha _ ih' =>
      obtain ⟨hfirst, hrest⟩ := List.forall_mem_cons.mp ih
      exact congrArg₂ List.cons (hfirst ha) (ih' hrest)
  have hoption : ∀ {o o' : Option Expr}, (∀ a ∈ o, ∀ {a'}, a.Renames r a' → a'.text = a.text) →
      Option.Rel (Renames r) o o' →
      guardText o' = guardText o ∧ whereText o' = whereText o := by
    rintro _ _ ih (ha | _)
    · exact ⟨congrArg (" if " ++ ·) (ih _ rfl ha), congrArg (", where=" ++ ·) (ih _ rfl ha)⟩
    · exact ⟨rfl, rfl⟩
  induction e generalizing e' with
  | var v =>
    cases h with
    | old => exact r.name
    | other => rfl
  | const => cases h; rfl
  | str => cases h; rfl
  | cast t a iha =>
    cases h with | cast ha
    exact congrArg (t.text ++ "(" ++ · ++ ")") (iha ha)
  | bin op a b iha ihb =>
    cases h with | bin ha hb
    exact congrArg₂ op.write (iha ha) (ihb hb)
  | not a iha =>
    cases h with | not ha
    exact congrArg ("!" ++ ·) (iha ha)
  | select c a b ihc iha ihb =>
    cases h with | @select _ c' _ a' _ b' hc ha hb
    show "select(" ++ c'.text ++ ", " ++ a'.text ++ ", " ++ b'.text ++ ")" = _
    rw [ihc hc, iha ha, ihb hb]
    rfl
  | call t name args kind func i ih =>
    cases h with | call hargs
    exact congrArg (fun texts => calleeText name func i ++ "(" ++ commaList texts ++ ")") (hlist ih hargs)
  | bind v a b iha ihb =>
    cases h with | bind _ _ ha hb
    exact congrArg₂ (fun x y => "(let " ++ v.name ++ " = " ++ x ++ " in " ++ y ++ ")") (iha ha) (ihb hb)
  | load t a i p _ ihi ihp =>
    cases h with | @load _ _ a' _ i' _ p' ha hi hp
    show a'.bufferName ++ "[" ++ i'.text ++ "]" ++ guardText p' = _
    rw [ha.bufferName_eq, ihi hi, (hoption ihp hp).1]
    rfl
  | ramp a b lanes iha ihb =>
    cases h with | ramp ha hb
    exact congrArg₂ (fun x y => "ramp(" ++ x ++ ", " ++ y ++ ", " ++ toString lanes ++ ")") (iha ha) (ihb hb)
  | broadcast a lanes iha =>
    cases h with | broadcast ha
    exact congrArg ("x" ++ toString lanes ++ "(" ++ · ++ ")") (iha ha)
  | reduce combiner es axes cond i _ _ ihs _ ihc =>
    cases h with | @reduce _ _ es' _ _ c' _ _ hes hc
    show "reduce(combiner=" ++ combiner.text ++ ", source=[" ++ commaList (exprTexts es') ++ "], axis=[" ++
      commaList (axisTexts axes) ++ "]" ++ whereText c' ++ ", value_index=" ++ toString i ++ ")" = _
    rw [hlist ihs hes, (hoption ihc hc).2]
    rfl

/-! ### Builders -/

theorem mirrors_ofNumber {n : Number} : Mirrors (Renames r) (ofNumber n t) (ofNumber n t) :=
  mirrors_bind_self fun _ => .const

theorem Renames.coerce (h : e.Renames r e') : Mirrors (Renames r) (e.coerce t) (e'.coerce t) := by
  have hbroadcast : (Expr.broadcast (if e.dtype = t.element then e else .cast t.element e) t.lanes).Renames r
      (.broadcast (if e'.dtype = t.element then e' else .cast t.element e') t.lanes) := by
    rw [h.dtype_eq]
    exact .broadcast (.ite h (.cast h))
  have hother : Mirrors (Renames r)
      (if e.dtype = t then .ok e else if e.dtype.lanes = 1 && 1 < t.lanes then
        .ok (.broadcast (if e.dtype = t.element then e else .cast t.element e) t.lanes) else .ok (.cast t e))
      (if e'.dtype = t then .ok e' else if e'.dtype.lanes = 1 && 1 < t.lanes then
        .ok (.broadcast (if e'.dtype = t.element then e' else .cast t.element e') t.lanes) else .ok (.cast t e')) := by
    rw [h.dtype_eq] at hbroadcast ⊢
    split
    · exact h
    split
    · exact hbroadcast
    · exact Renames.cast h
  cases h with
  | const =>
    unfold Expr.coerce
    split
    · exact Renames.const
    · refine Mirrors.bind (P := Renames r) mirrors_ofNumber fun s s' hs => ?_
      split
      · exact hs
      · exact Renames.broadcast hs
  | _ => exact hother

theorem Renames.operands (ha : a.Renames r a') (hb : b.Renames r b') :
    Mirrors (fun p q => p.1.Renames r q.1 ∧ p.2.Renames r q.2) (operands a b) (operands a' b') := by
  have hsides (a b : Expr) : Expr.operands a b = DataType.combine a.dtype b.dtype a.isConst b.isConst >>=
      fun t => Expr.coerce a t >>= fun x => Expr.coerce b t >>= fun y => .ok (x, y) := by
    have hconst (e : Expr) : (Operand.expr e).isConstLike = e.isConst := by cases e <;> rfl
    rw [← hconst, ← hconst]
    rfl
  rw [hsides, hsides, ha.dtype_eq, hb.dtype_eq, ha.isConst_eq, hb.isConst_eq]
  exact mirrors_bind_self fun t => ha.coerce.bind fun x x' hx => hb.coerce.bind fun y y' hy => ⟨hx, hy⟩

theorem Renames.fold (ha : a.Renames r a') (hb : b.Renames r b') : Mirrors (Renames r) (fold op a b) (fold op a' b') := by
  have hbin : (Expr.bin op a b).Renames r (.bin op a' b') := .bin ha hb
  by_cases hconst : a.isConst ∧ b.isConst
  · obtain ⟨x, t, rfl⟩ := exists_of_isConst hconst.1
    obtain ⟨y, u, rfl⟩ := exists_of_isConst hconst.2
    cases ha
    cases hb
    unfold Expr.fold
    dsimp only
    split
    · exact hbin
    · exact mirrors_bind_self fun _ => mirrors_ofNumber
  · have hconst' : ¬ (a'.isConst ∧ b'.isConst) := by rwa [ha.isConst_eq, hb.isConst_eq]
    rw [fold_of_not_const hconst, fold_of_not_const hconst']
    exact hbin

theorem Renames.arith (ha : a.Renames r a') (hb : b.Renames r b') : Mirrors (Renames r) (arith op a b) (arith op a' b') :=
  (ha.operands hb).bind fun _ _ h => h.1.fold h.2

theorem Renames.neg (h : e.Renames r e') : Mirrors (Renames r) (neg e) (neg e') := by
  have hneg (e : Expr) : Expr.neg e = ofInt 0 e.dtype.element >>= fun zero => sub zero e := rfl
  rw [hneg, hneg, h.dtype_eq]
  exact mirrors_ofNumber.bind fun z z' hz => hz.arith h

theorem Renames.asBool (h : e.Renames r e') : Mirrors (Renames r) (asBool e) (asBool e') := by
  have hasBool (e : Expr) : Expr.asBool e = if e.dtype.isBool then .ok e else ofInt 0 e.dtype.element >>= fun zero =>
    ne e zero := rfl
  rw [hasBool, hasBool, h.dtype_eq]
  split
  · exact h
  · exact mirrors_ofNumber.bind fun z z' hz => h.arith hz

theorem Renames.logicalNot (h : e.Renames r e') : Mirrors (Renames r) (logicalNot e) (logicalNot e') := by
  refine h.asBool.bind fun c c' hc => ?_
  have hnot : (Expr.not c).Renames r (.not c') := .not hc
  cases hc with
  | const => exact Renames.const
  | _ => exact hnot

/-- A case distinction on constant sides. -/
def onSides (a b : Expr) (left right : Number → Except Error Expr) (neither : Except Error Expr) : Except Error Expr :=
  match a, b with
  | .const x _, _ => left x
  | _, .const x _ => right x
  | _, _ => neither

theorem onSides_right {x : Number} {left right : Number → Except Error Expr} {neither : Except Error Expr}
    (h : ¬a.isConst) :
    onSides a (.const x t) left right neither = right x := by
  unfold onSides
  split
  · exact absurd rfl h
  · rename_i heq
    cases heq
    rfl
  · rename_i hne
    exact absurd rfl (hne x t)

theorem onSides_neither {left right : Number → Except Error Expr} {neither : Except Error Expr} (ha : ¬a.isConst)
    (hb : ¬b.isConst) :
    onSides a b left right neither = neither := by
  unfold onSides
  split
  · exact absurd rfl ha
  · exact absurd rfl hb
  · rfl

theorem Renames.onSides {left left' right right' : Number → Except Error Expr} {neither neither' : Except Error Expr}
    (ha : a.Renames r a')
    (hb : b.Renames r b') (hleft : ∀ x, Mirrors (Renames r) (left x) (left' x))
    (hright : ∀ x, Mirrors (Renames r) (right x) (right' x))
    (hneither : Mirrors (Renames r) neither neither') :
    Mirrors (Renames r) (Expr.onSides a b left right neither) (Expr.onSides a' b' left' right' neither') := by
  by_cases hconst : a.isConst
  · obtain ⟨x, t, rfl⟩ := exists_of_isConst hconst
    cases ha
    exact hleft x
  have hconst' : ¬a'.isConst := by rwa [ha.isConst_eq]
  by_cases hside : b.isConst
  · obtain ⟨x, t, rfl⟩ := exists_of_isConst hside
    cases hb
    rw [onSides_right hconst, onSides_right hconst']
    exact hright x
  · rw [onSides_neither hconst hside, onSides_neither hconst' (by rwa [hb.isConst_eq])]
    exact hneither

theorem Renames.logicalAnd (ha : a.Renames r a') (hb : b.Renames r b') :
    Mirrors (Renames r) (logicalAnd a b) (logicalAnd a' b') := by
  refine ha.asBool.bind fun x x' hx => hb.asBool.bind fun y y' hy => ?_
  have hleft (n : Number) : (if n.truthy then y else x).Renames r (if n.truthy then y' else x') := .ite hy hx
  have hright (n : Number) : (if n.truthy then x else y).Renames r (if n.truthy then x' else y') := .ite hx hy
  exact hx.onSides hy hleft hright (.bin hx hy)

theorem Renames.logicalOr (ha : a.Renames r a') (hb : b.Renames r b') :
    Mirrors (Renames r) (logicalOr a b) (logicalOr a' b') := by
  refine ha.asBool.bind fun x x' hx => hb.asBool.bind fun y y' hy => ?_
  have hleft (n : Number) : (if n.truthy then x else y).Renames r (if n.truthy then x' else y') := .ite hx hy
  have hright (n : Number) : (if n.truthy then y else x).Renames r (if n.truthy then y' else x') := .ite hy hx
  exact hx.onSides hy hleft hright (.bin hx hy)

theorem Renames.binary (ha : a.Renames r a') (hb : b.Renames r b') :
    Mirrors (Renames r) (binary op a b) (binary op a' b') := by
  cases op with
  | and => exact ha.logicalAnd hb
  | or => exact ha.logicalOr hb
  | _ => exact ha.arith hb

theorem Renames.choose (hc : c.Renames r c') (ha : a.Renames r a') (hb : b.Renames r b') :
    Mirrors (Renames r) (choose c a b) (choose c' a' b') := by
  refine hc.asBool.bind fun p p' hp => (ha.operands hb).bind fun x x' hx => ?_
  obtain ⟨x, y⟩ := x
  obtain ⟨x', y'⟩ := x'
  obtain ⟨hx, hy⟩ := hx
  have hselect : (Expr.select p x y).Renames r (.select p' x' y') := .select hp hx hy
  have hchosen (n : Number) : (if n.truthy then x else y).Renames r (if n.truthy then x' else y') := .ite hx hy
  cases hp with
  | const => exact hchosen _
  | _ => exact hselect

theorem Renames.castTo (h : e.Renames r e') : Mirrors (Renames r) (castTo t e) (castTo t e') := by
  have hother : Mirrors (Renames r) (if e.dtype = t then .ok e else .ok (.cast t e))
    (if e'.dtype = t then .ok e' else .ok (.cast t e')) := by
    rw [h.dtype_eq]
    split
    · exact h
    · exact Renames.cast h
  cases h with
  | const =>
    unfold Expr.castTo
    split
    · exact Renames.const
    dsimp only
    split
    · exact mirrors_ofNumber
    · exact Renames.cast .const
  | _ => exact hother

end Renames

end Expr

/-! ### Linear forms -/

namespace Linear
open Expr

variable {r : Renaming} {t : DataType} {e e' : Expr} {l l' m m' : Linear} {ts ts' us us' : List (Expr × Int)} {k : Int}

/-- A term of a linear form and the renamed one. -/
def RenamesTerm (r : Renaming) (p p' : Expr × Int) : Prop :=
  p.1.Renames r p'.1 ∧ p'.2 = p.2

/-- A linear form and the renamed one. -/
def Renames (r : Renaming) (l l' : Linear) : Prop :=
  List.Forall₂ (RenamesTerm r) l.terms l'.terms ∧ l'.const = l.const

theorem renames_atom (h : e.Renames r e') : Renames r (atom e) (atom e') := ⟨.cons ⟨h, rfl⟩ .nil, rfl⟩

theorem renames_addTerm (h : e.Renames r e') (k : Int) (hts : List.Forall₂ (RenamesTerm r) ts ts') :
    List.Forall₂ (RenamesTerm r) (addTerm e k ts) (addTerm e' k ts') := by
  induction hts with
  | nil => exact .cons ⟨h, rfl⟩ .nil
  | @cons p p' ts ts' hp hts ih =>
    obtain ⟨a, c⟩ := p
    obtain ⟨a', c'⟩ := p'
    obtain ⟨ha, rfl⟩ := hp
    rw [addTerm, addTerm, ha.same_eq h]
    split
    · exact .cons ⟨ha, rfl⟩ hts
    · exact .cons ⟨ha, rfl⟩ ih

theorem Renames.addScaled (hl : Renames r l l') (hm : Renames r m m') (k : Int) :
    Renames r (l.addScaled k m) (l'.addScaled k m') := by
  refine ⟨List.rel_foldl (fun ts ts' hts p p' hp => ?_) hl.1 hm.1, by rw [Linear.addScaled, Linear.addScaled, hl.2, hm.2]⟩
  rw [hp.2]
  exact renames_addTerm hp.1 _ hts

theorem Renames.map (hl : Renames r l l') (f : Int → Int) (c : Int) :
    Renames r ⟨l.terms.map fun t => (t.1, f t.2), c⟩ ⟨l'.terms.map fun t => (t.1, f t.2), c⟩ :=
  ⟨List.forall₂_map_left_iff.mpr (List.forall₂_map_right_iff.mpr (hl.1.imp fun _ _ h => ⟨h.1, congrArg f h.2⟩)), rfl⟩

theorem Renames.scale (hl : Renames r l l') (k : Int) : Renames r (l.scale k) (l'.scale k) := by
  rw [Linear.scale, Linear.scale, hl.2]
  exact hl.map (· * k) _

theorem Renames.quotient (hl : Renames r l l') (k : Int) : Renames r (l.quotient k) (l'.quotient k) := by
  rw [Linear.quotient, Linear.quotient, hl.2]
  exact hl.map (· / k) _

theorem Renames.coefficients_eq (hl : Renames r l l') : l'.terms.map (·.2) = l.terms.map (·.2) := by
  have hterms : ∀ {ts ts' : List (Expr × Int)}, List.Forall₂ (RenamesTerm r) ts ts' → ts'.map (·.2) = ts.map (·.2) := by
    intro ts ts' h
    induction h with
    | nil => rfl
    | cons h _ ih => rw [List.map_cons, List.map_cons, h.2, ih]
  exact hterms hl.1

theorem Renames.all_eq (hl : Renames r l l') (p : Int → Bool) :
    (l'.terms.all fun t => p t.2) = l.terms.all fun t => p t.2 := by
  have hall := congrArg (·.all p) hl.coefficients_eq
  simpa only [List.all_map, Function.comp_def] using hall

theorem Renames.isConst_eq (hl : Renames r l l') : l'.isConst = l.isConst :=
  hl.all_eq (· == 0)

theorem Renames.divisibleBy_eq (hl : Renames r l l') (d : Int) : l'.divisibleBy d = l.divisibleBy d := by
  rw [divisibleBy, divisibleBy, hl.2, hl.all_eq (· % d == 0)]

theorem mirrors_ofExpr (h : e.Renames r e') : Mirrors (Renames r) (ofExpr e) (ofExpr e') := by
  induction e generalizing e' with
  | const x u =>
    cases h
    exact mirrors_bind_self fun n => ⟨.nil, rfl⟩
  | bin op a b iha ihb =>
    have hatom := renames_atom h
    cases h with | bin ha hb
    cases op with
    | add => exact (iha ha).bind fun l l' hl => (ihb hb).bind fun m m' hm => hl.addScaled hm 1
    | sub => exact (iha ha).bind fun l l' hl => (ihb hb).bind fun m m' hm => hl.addScaled hm (-1)
    | mul =>
      have hscale {a a' : Expr} {x : Number} (h : Mirrors (Renames r) (ofExpr a) (ofExpr a')) :
          Mirrors (Renames r) (do return (← ofExpr a).scale (← x.toInt)) (do return (← ofExpr a').scale (← x.toInt)) :=
        h.bind fun l l' hl => mirrors_bind_self fun k => hl.scale k
      by_cases hright : b.isConst
      · obtain ⟨x, u, rfl⟩ := exists_of_isConst hright
        cases hb
        exact hscale (iha ha)
      by_cases hleft : a.isConst
      · obtain ⟨x, u, rfl⟩ := exists_of_isConst hleft
        cases ha
        cases hb with
        | const => exact absurd rfl hright
        | _ => exact hscale (ihb (by constructor <;> assumption))
      have hne {e : Expr} (h : ¬ e.isConst) (x : Number) (u : DataType) : e ≠ .const x u := fun heq => h (heq ▸ rfl)
      rw [ofExpr_mul_of_ne (hne hleft) (hne hright),
        ofExpr_mul_of_ne (hne (by rwa [ha.isConst_eq])) (hne (by rwa [hb.isConst_eq]))]
      exact hatom
    | _ => exact hatom
  | _ =>
    have hatom := renames_atom h
    cases h <;> exact hatom

theorem mirrors_termExpr (h : e.Renames r e') : Mirrors (Expr.Renames r) (termExpr t e k) (termExpr t e' k) := by
  unfold termExpr
  split
  · exact h
  · exact Mirrors.bind (P := Expr.Renames r) mirrors_ofNumber fun n n' hn => .bin h hn

theorem mirrors_sumTerms {acc acc' : Option Expr} (hacc : Option.Rel (Expr.Renames r) acc acc')
    (hts : List.Forall₂ (RenamesTerm r) ts ts') :
    Mirrors (Option.Rel (Expr.Renames r)) (sumTerms t acc ts) (sumTerms t acc' ts') := by
  induction hts generalizing acc acc' with
  | nil => exact hacc
  | @cons p p' ts ts' hp _ ih =>
    obtain ⟨a, c⟩ := p
    obtain ⟨a', c'⟩ := p'
    obtain ⟨ha, rfl⟩ := hp
    unfold sumTerms
    dsimp only
    split
    · exact ih hacc
    refine (mirrors_termExpr ha).bind fun x x' hx => ?_
    cases hacc with
    | none =>
      dsimp only
      split
      · exact ih (.some hx)
      · exact Mirrors.bind (P := Expr.Renames r) mirrors_ofNumber fun n n' hn => ih (.some (.bin ha hn))
    | some hs => exact ih (.some (.bin hs hx))

theorem Renames.toExpr (hl : Renames r l l') : Mirrors (Expr.Renames r) (l.toExpr t) (l'.toExpr t) := by
  unfold Linear.toExpr
  refine (mirrors_sumTerms .none hl.1).bind fun o o' ho => ?_
  rw [hl.2]
  cases ho with
  | none => exact mirrors_ofNumber
  | some hs =>
    have hconst {op : BinOp} {n : Int} : Mirrors (Expr.Renames r) (do return .bin op _ (← Expr.ofInt n t))
      (do return .bin op _ (← Expr.ofInt n t)) :=
      Mirrors.bind (P := Expr.Renames r) mirrors_ofNumber fun k k' hk => .bin hs hk
    dsimp only
    split
    · exact hconst
    split
    · exact hconst
    · exact hs

end Linear

/-! ### Simplification -/

namespace Expr

section Simplify
variable {r : Renaming} {t : DataType} {op : BinOp} {a a' b b' e e' : Expr} {v w : Var} {s s' : Subst}
  {x x' y y' : Revised Expr}

theorem Renames.constDiff?_eq (ha : a.Renames r a') (hb : b.Renames r b') : constDiff? a' b' = constDiff? a b := by
  have hform : Mirrors (Linear.Renames r) (Linear.ofExpr (.bin .sub a b)) (Linear.ofExpr (.bin .sub a' b')) :=
    Linear.mirrors_ofExpr (.bin ha hb)
  have hdiff : Mirrors (fun d d' : Option Int => d' = d)
      (Linear.ofExpr (.bin .sub a b) >>= fun l => .ok (if l.isConst then some l.const else none))
      (Linear.ofExpr (.bin .sub a' b') >>= fun l => .ok (if l.isConst then some l.const else none)) := by
    refine hform.bind fun l l' hl => ?_
    show (if l'.isConst then some l'.const else none) = if l.isConst then some l.const else none
    rw [hl.isConst_eq, hl.2]
  unfold constDiff? isIntScalar
  rw [ha.dtype_eq, hb.dtype_eq]
  split
  · exact hdiff.eq
  · rfl

theorem Renames.divMod? (ha : a.Renames r a') (hb : b.Renames r b') :
    Mirrors (Option.Rel (Renames r)) (divMod? op a b) (divMod? op a' b') := by
  have hsome {x x' : Except Error Expr} (hx : Mirrors (Renames r) x x') :
      Mirrors (Option.Rel (Renames r)) (do return some (← x)) (do return some (← x')) :=
    hx.bind fun e e' he => .some he
  cases hb with
  | const =>
    unfold Expr.divMod?
    rw [ha.dtype_eq]
    dsimp only
    split
    · exact Option.Rel.none
    refine mirrors_bind_self fun d => ?_
    split
    · split
      · exact Option.Rel.some ha
      · exact hsome mirrors_ofNumber
    refine (Linear.mirrors_ofExpr ha).bind fun l l' hl => ?_
    rw [hl.divisibleBy_eq]
    split
    · exact Option.Rel.none
    split
    · exact hsome mirrors_ofNumber
    · exact hsome (hl.quotient d).toExpr
  | _ => exact Option.Rel.none

theorem Renames.binRule? (ha : a.Renames r a') (hb : b.Renames r b') :
    Mirrors (Option.Rel (Renames r)) (binRule? op t a b) (binRule? op t a' b') := by
  have hlinear : Mirrors (Option.Rel (Renames r)) (do return some (← (← Linear.ofExpr (.bin op a b)).toExpr t))
      (do return some (← (← Linear.ofExpr (.bin op a' b')).toExpr t)) :=
    (Linear.mirrors_ofExpr (.bin ha hb)).bind fun l l' hl => hl.toExpr.bind fun e e' he => .some he
  unfold Expr.binRule?
  rw [ha.constDiff?_eq hb, ha.same_eq hb]
  cases op with
  | add | sub | mul =>
    dsimp only
    split
    · exact hlinear
    · exact Option.Rel.none
  | div | mod =>
    dsimp only
    split
    · exact ha.divMod? hb
    · exact Option.Rel.none
  | min | max =>
    refine mirrors_bind_self fun d => ?_
    split
    · exact Option.Rel.some (.ite ha hb)
    · split
      · exact Option.Rel.some ha
      · exact Option.Rel.none
  | and | or => exact Option.Rel.none
  | _ =>
    refine mirrors_bind_self fun d => ?_
    split
    · exact Option.Rel.some .const
    · exact Option.Rel.none

/-- A simplified expression and the renamed one. -/
def RenamesRevised (r : Renaming) (x x' : Revised Expr) : Prop :=
  x.term.Renames r x'.term ∧ x'.changed = x.changed

theorem RenamesRevised.simplifyBin (hx : RenamesRevised r x x') (hy : RenamesRevised r y y') :
    Mirrors (RenamesRevised r) (simplifyBin op t x y) (simplifyBin op t x' y') := by
  refine (hx.1.binRule? hy.1).bind fun o o' ho => ?_
  cases ho with
  | some he => exact ⟨he, rfl⟩
  | none =>
    rw [hx.2, hy.2, hx.1.isConst_eq, hy.1.isConst_eq]
    dsimp only
    split
    · exact ⟨.bin hx.1 hy.1, rfl⟩
    · exact (hx.1.binary hy.1).bind fun e e' he => ⟨he, rfl⟩

/-- Whether an expression is a mark of likelihood on a constant. -/
def marksConst : Expr → Bool
  | call _ name (a :: _) _ _ _ => name == "likely" && a.isConst
  | _ => false

theorem simplifyCall_of_not_marksConst {changed : Bool} (h : ¬ e.marksConst) : simplifyCall e changed = ⟨e, changed⟩ := by
  unfold Expr.simplifyCall
  split
  · exact absurd rfl h
  · rfl

theorem Renames.marksConst_eq (h : e.Renames r e') : e'.marksConst = e.marksConst := by
  cases h with
  | @call _ name _ _ _ _ _ hargs =>
    cases hargs with
    | nil => rfl
    | cons ha => exact congrArg (name == "likely" && ·) ha.isConst_eq
  | _ => rfl

theorem Renames.simplifyCall (h : e.Renames r e') (changed : Bool) :
    RenamesRevised r (simplifyCall e changed) (simplifyCall e' changed) := by
  by_cases hmarks : e.marksConst
  · unfold marksConst at hmarks
    split at hmarks
    · obtain ⟨hname, hconst⟩ := Bool.and_eq_true_iff.mp hmarks
      obtain rfl := beq_iff_eq.mp hname
      obtain ⟨x, u, rfl⟩ := exists_of_isConst hconst
      cases h with | call hargs
      cases hargs with | cons ha
      cases ha
      exact ⟨.const, rfl⟩
    · cases hmarks
  · have hmarks' : ¬ e'.marksConst := by rwa [h.marksConst_eq]
    rw [simplifyCall_of_not_marksConst hmarks, simplifyCall_of_not_marksConst hmarks']
    exact ⟨h, rfl⟩

/-- A substitution that leaves both variables alone, and the renamed one. -/
def RenamesSubst (r : Renaming) : Subst → Subst → Prop :=
  List.Forall₂ fun p p' => (p'.1 = p.1 ∧ p.1.id ≠ r.old.id ∧ p.1.id ≠ r.new.id) ∧ p.2.Renames r p'.2

theorem RenamesSubst.find? (hs : RenamesSubst r s s') (v : Var) : Option.Rel (Renames r) (s.find? v) (s'.find? v) := by
  induction hs with
  | nil => exact .none
  | @cons p p' s s' hp _ ih =>
    obtain ⟨⟨hkey, -⟩, hvalue⟩ := hp
    unfold Subst.find? at ih ⊢
    rw [List.find?_cons, List.find?_cons, hkey]
    split
    · exact .some hvalue
    · exact ih

/-- None of the two variables is put for. -/
theorem RenamesSubst.find?_eq_none (hs : RenamesSubst r s s') (hv : v.id = r.old.id ∨ v.id = r.new.id) :
    s.find? v = none ∧ s'.find? v = none := by
  induction hs with
  | nil => exact ⟨rfl, rfl⟩
  | @cons p p' s s' hp _ ih =>
    obtain ⟨⟨hkey, hold, hnew⟩, -⟩ := hp
    have hne : (p.1.id == v.id) = false := beq_eq_false_iff_ne.mpr fun heq =>
      hv.elim (fun h => hold (heq.trans h)) fun h => hnew (heq.trans h)
    unfold Subst.find? at ih ⊢
    rw [List.find?_cons, List.find?_cons, hkey, hne]
    exact ih

theorem Renames.subst (hs : RenamesSubst r s s') (h : e.Renames r e') : (e.subst s).Renames r (e'.subst s') := by
  have hlist : ∀ {es es' : List Expr}, (∀ a ∈ es, ∀ {a'}, a.Renames r a' → (a.subst s).Renames r (a'.subst s')) →
      List.Forall₂ (Renames r) es es' → List.Forall₂ (Renames r) (es.map (·.subst s)) (es'.map (·.subst s')) := by
    intro es es' ih h
    induction h with
    | nil => exact .nil
    | cons ha _ ih' =>
      obtain ⟨hfirst, hrest⟩ := List.forall_mem_cons.mp ih
      exact .cons (hfirst ha) (ih' hrest)
  have hoption : ∀ {o o' : Option Expr}, (∀ a ∈ o, ∀ {a'}, a.Renames r a' → (a.subst s).Renames r (a'.subst s')) →
      Option.Rel (Renames r) o o' → Option.Rel (Renames r) (o.map (·.subst s)) (o'.map (·.subst s')) := by
    rintro _ _ ih (ha | _)
    · exact .some (ih _ rfl ha)
    · exact .none
  induction e generalizing e' with
  | var v =>
    cases h with
    | old hne =>
      show ((s.find? r.old).getD (var r.old)).Renames r ((s'.find? r.new).getD (var r.new))
      rw [(hs.find?_eq_none (.inl rfl)).1, (hs.find?_eq_none (.inr rfl)).2]
      exact .old hne
    | other hold hnew =>
      have hfind := hs.find? v
      show ((s.find? v).getD (var v)).Renames r ((s'.find? v).getD (var v))
      revert hfind
      cases s.find? v <;> cases s'.find? v <;> rintro (ha | _)
      · exact .other hold hnew
      · exact ha
  | const => cases h; exact .const
  | str => cases h; exact .str
  | cast t a iha =>
    cases h with | cast ha
    exact .cast (iha ha)
  | bin op a b iha ihb =>
    cases h with | bin ha hb
    exact .bin (iha ha) (ihb hb)
  | not a iha =>
    cases h with | not ha
    exact .not (iha ha)
  | select c a b ihc iha ihb =>
    cases h with | select hc ha hb
    exact .select (ihc hc) (iha ha) (ihb hb)
  | call t name args kind func i ih =>
    cases h with | call hargs
    rw [Expr.subst, Expr.subst, subst_onList, subst_onList]
    exact .call (hlist ih hargs)
  | bind v a b iha ihb =>
    cases h with | bind hold hnew ha hb
    exact .bind hold hnew (iha ha) (ihb hb)
  | load t a i p iha ihi ihp =>
    cases h with | load ha hi hp
    rw [Expr.subst, Expr.subst, subst_onOption, subst_onOption]
    exact .load (iha ha) (ihi hi) (hoption ihp hp)
  | ramp a b lanes iha ihb =>
    cases h with | ramp ha hb
    exact .ramp (iha ha) (ihb hb)
  | broadcast a lanes iha =>
    cases h with | broadcast ha
    exact .broadcast (iha ha)
  | reduce combiner es axes cond i _ _ ihs _ ihc =>
    cases h with | reduce haxes hes hc
    rw [Expr.subst, Expr.subst, subst_onList, subst_onList, subst_onOption, subst_onOption]
    exact .reduce haxes (hlist ihs hes) (hoption ihc hc)

theorem Renames.dtypeUnder_eq (hs : RenamesSubst r s s') (h : e.Renames r e') : e'.dtypeUnder s' = e.dtypeUnder s := by
  induction e generalizing e' with
  | var v =>
    have hput := (h.subst hs).dtype_eq
    cases h <;> exact hput
  | bin op a b iha _ =>
    cases h with | bin ha
    simp only [dtypeUnder, iha ha]
  | not a iha =>
    cases h with | not ha
    simp only [dtypeUnder, iha ha]
  | select c a b _ iha _ =>
    cases h with | select _ ha
    simp only [dtypeUnder, iha ha]
  | bind v a b _ ihb =>
    cases h with | bind _ _ _ hb
    simp only [dtypeUnder, ihb hb]
  | ramp a b lanes iha _ =>
    cases h with | ramp ha
    simp only [dtypeUnder, iha ha]
  | broadcast a lanes iha =>
    cases h with | broadcast ha
    simp only [dtypeUnder, iha ha]
  | _ =>
    cases h
    rfl

theorem RenamesSubst.andThen (hs : RenamesSubst r s s') (hold : v.id ≠ r.old.id) (hnew : v.id ≠ r.new.id)
    (h : e.Renames r e') :
    RenamesSubst r (andThen s v e) (andThen s' v e') := by
  have hv : RenamesSubst r [(v, e)] [(v, e')] := .cons ⟨⟨rfl, hold, hnew⟩, h⟩ .nil
  refine List.rel_append ?_ hv
  exact List.forall₂_map_left_iff.mpr (List.forall₂_map_right_iff.mpr (hs.imp fun _ _ h => ⟨h.1, h.2.subst hv⟩))

/-- What the simplifier makes of a renamed expression is what it makes of the expression, renamed. -/
theorem Renames.simplifyUnder (hs : RenamesSubst r s s') (h : e.Renames r e') :
    Mirrors (RenamesRevised r) (e.simplifyUnder s) (e'.simplifyUnder s') := by
  have hlist : ∀ {s s' : Subst} {es es' : List Expr},
      (∀ a ∈ es, ∀ {a'}, a.Renames r a' → Mirrors (RenamesRevised r) (a.simplifyUnder s) (a'.simplifyUnder s')) →
      List.Forall₂ (Renames r) es es' → Mirrors (fun p p' => List.Forall₂ (Renames r) p.1 p'.1 ∧ p'.2 = p.2)
        (simplifyUnder.onList s es) (simplifyUnder.onList s' es') := by
    intro s s' es es' ih h
    induction h with
    | nil => exact ⟨.nil, rfl⟩
    | cons ha _ ih' =>
      obtain ⟨hfirst, hrest⟩ := List.forall_mem_cons.mp ih
      refine (hfirst ha).bind fun x x' hx => (ih' hrest).bind fun p p' hp => ⟨.cons hx.1 hp.1, ?_⟩
      rw [hx.2, hp.2]
  have hoption : ∀ {s s' : Subst} {o o' : Option Expr},
      (∀ a ∈ o, ∀ {a'}, a.Renames r a' → Mirrors (RenamesRevised r) (a.simplifyUnder s) (a'.simplifyUnder s')) →
      Option.Rel (Renames r) o o' → Mirrors (fun p p' => Option.Rel (Renames r) p.1 p'.1 ∧ p'.2 = p.2)
        (simplifyUnder.onOption s o) (simplifyUnder.onOption s' o') := by
    rintro s s' _ _ ih (ha | _)
    · exact (ih _ rfl ha).bind fun x x' hx => ⟨.some hx.1, hx.2⟩
    · exact ⟨.none, rfl⟩
  induction e generalizing e' s s' with
  | var v =>
    have hput := h.subst hs
    cases h <;> exact ⟨hput, rfl⟩
  | const => cases h; exact ⟨.const, rfl⟩
  | str => cases h; exact ⟨.str, rfl⟩
  | cast t a iha =>
    cases h with | cast ha
    exact (iha hs ha).bind fun x x' hx => hx.1.castTo.bind fun y y' hy => ⟨hy, rfl⟩
  | bin op a b iha ihb =>
    have hdtype := h.dtypeUnder_eq hs
    cases h with | bin ha hb
    unfold Expr.simplifyUnder
    rw [hdtype]
    exact (iha hs ha).bind fun x x' hx => (ihb hs hb).bind fun y y' hy => hx.simplifyBin hy
  | not a iha =>
    cases h with | not ha
    exact (iha hs ha).bind fun x x' hx => hx.1.logicalNot.bind fun y y' hy => ⟨hy, rfl⟩
  | select c a b ihc iha ihb =>
    cases h with | select hc ha hb
    refine (ihc hs hc).bind fun x x' hx => (iha hs ha).bind fun y y' hy => (ihb hs hb).bind fun z z' hz => ?_
    rw [hy.1.same_eq hz.1]
    split
    · exact ⟨hy.1, rfl⟩
    · exact (hx.1.choose hy.1 hz.1).bind fun w w' hw => ⟨hw, rfl⟩
  | call t name args kind func i ih =>
    cases h with | call hargs
    refine (hlist (fun a ha _ h => ih a ha hs h) hargs).bind fun p p' hp => ?_
    obtain ⟨es, changed⟩ := p
    obtain ⟨es', changed'⟩ := p'
    obtain ⟨hes, rfl⟩ := hp
    exact (Renames.call hes).simplifyCall _
  | bind v a b iha ihb =>
    cases h with | bind hold hnew ha hb
    refine (iha hs ha).bind fun x x' hx => ?_
    rw [hx.1.isLeaf_eq, hx.2]
    split
    · exact (ihb (hs.andThen hold hnew hx.1) hb).bind fun y y' hy => ⟨hy.1, rfl⟩
    · exact (ihb hs hb).bind fun y y' hy => ⟨.bind hold hnew hx.1 hy.1, by rw [hy.2]⟩
  | load t a i p iha ihi ihp =>
    cases h with | load ha hi hp
    refine (iha hs ha).bind fun x x' hx => (ihi hs hi).bind fun y y' hy =>
      (hoption (fun a ha _ h => ihp a ha hs h) hp).bind fun o o' ho => ?_
    exact ⟨.load hx.1 hy.1 ho.1, by rw [hx.2, hy.2, ho.2]⟩
  | ramp a b lanes iha ihb =>
    cases h with | ramp ha hb
    exact (iha hs ha).bind fun x x' hx => (ihb hs hb).bind fun y y' hy => ⟨.ramp hx.1 hy.1, by rw [hx.2, hy.2]⟩
  | broadcast a lanes iha =>
    cases h with | broadcast ha
    exact (iha hs ha).bind fun x x' hx => ⟨.broadcast hx.1, hx.2⟩
  | reduce combiner es axes cond i _ _ ihs _ ihc =>
    cases h with | reduce haxes hes hc
    refine (hlist (fun a ha _ h => ihs a ha hs h) hes).bind fun p p' hp =>
      (hoption (fun a ha _ h => ihc a ha hs h) hc).bind fun o o' ho => ?_
    exact ⟨.reduce haxes hp.1 ho.1, by rw [hp.2, ho.2]⟩

theorem Renames.simplify (h : e.Renames r e') : Mirrors (Renames r) e.simplify e'.simplify :=
  (h.simplifyUnder .nil).bind fun _ _ hx => hx.1

/-! ### Split points -/

/-- No use of another variable is gained or lost. -/
theorem Renames.uses_eq (hold : v.id ≠ r.old.id) (hnew : v.id ≠ r.new.id) (h : e.Renames r e') : e'.uses v = e.uses v := by
  have huses (a : Expr) : a.uses v ↔ ∃ w ∈ a.vars, w.id = v.id := by simp [uses, usesAny]
  refine Bool.eq_iff_iff.mpr ((huses e').trans (Iff.trans ?_ (huses e).symm))
  refine exists_congr fun w => and_congr_left fun hw => h.mem_vars_iff.trans ?_
  rw [hw]
  exact ⟨fun hmem => hmem.elim (fun hmem => absurd (hmem.1 ▸ hw) hnew.symm) And.left, fun hmem => .inr ⟨hmem, hold⟩⟩

theorem Renames.linearIn? (hold : v.id ≠ r.old.id) (hnew : v.id ≠ r.new.id) (h : e.Renames r e') :
    Mirrors (Option.Rel fun p p' => p'.1 = p.1 ∧ p.2.Renames r p'.2) (e.linearIn? (some (.var v)))
      (e'.linearIn? (some (.var v))) := by
  refine (Linear.mirrors_ofExpr h).bind fun l l' hl => ?_
  have hv : (var v).Renames r (var v) := .other hold hnew
  -- The atoms but the variable, and those of them that do not vanish.
  have hrest : List.Forall₂ (Linear.RenamesTerm r) (l.terms.filter fun t => !(some (var v)).any t.1.same)
      (l'.terms.filter fun t => !(some (var v)).any t.1.same) := by
    refine List.rel_filter (fun p p' hp => ?_) hl.1
    simp only [Option.any_some, hp.1.same_eq hv]
  have hlive : ∀ {ts ts' : List (Expr × Int)}, List.Forall₂ (Linear.RenamesTerm r) ts ts' →
      (((ts'.filter (·.2 != 0)).map (·.1)).any (·.uses v)) = ((ts.filter (·.2 != 0)).map (·.1)).any (·.uses v) := by
    intro ts ts' hts
    induction hts with
    | nil => rfl
    | @cons p p' _ _ hp _ ih =>
      rw [List.filter_cons, List.filter_cons, hp.2]
      split
      · rw [List.map_cons, List.map_cons, List.any_cons, List.any_cons, ih, hp.1.uses_eq hold hnew]
      · exact ih
  have hcoefficient : ∀ {ts ts' : List (Expr × Int)}, List.Forall₂ (Linear.RenamesTerm r) ts ts' →
      (ts'.find? fun t => t.1.same (var v)).map (·.2) = (ts.find? fun t => t.1.same (var v)).map (·.2) := by
    intro ts ts' hts
    induction hts with
    | nil => rfl
    | cons hp _ ih =>
      rw [List.find?_cons, List.find?_cons, hp.1.same_eq hv]
      split
      · exact congrArg some hp.2
      · exact ih
  have hform : Linear.Renames r { l with terms := l.terms.filter fun t => !(some (var v)).any t.1.same }
      { l' with terms := l'.terms.filter fun t => !(some (var v)).any t.1.same } := ⟨hrest, hl.2⟩
  dsimp only
  rw [hlive hrest, h.dtype_eq]
  split
  · exact Option.Rel.none
  · exact hform.toExpr.bind fun a a' ha => Option.Rel.some ⟨congrArg (·.getD 0) (hcoefficient hl.1), ha⟩

theorem Renames.isIntrinsic_eq (h : e.Renames r e') (name : String) : e'.isIntrinsic name = e.isIntrinsic name := by
  cases h <;> rfl

/-- A renamed condition has the split point of the condition, renamed. -/
theorem Renames.splitPoint? (hold : v.id ≠ r.old.id) (hnew : v.id ≠ r.new.id) (h : e.Renames r e') :
    Mirrors (Option.Rel (Renames r)) (e.splitPoint? v) (e'.splitPoint? v) := by
  have hnone : Mirrors (Option.Rel (Renames r)) (.ok none) (.ok none) := Option.Rel.none
  unfold Expr.splitPoint?
  rw [h.isIntrinsic_eq]
  split
  · exact hnone
  cases h with
  | call hargs =>
    cases hargs with
    | nil => exact hnone
    | cons ha =>
      cases ha with
      | @bin op _ _ _ _ ha hb =>
        cases op with
        | lt =>
          refine (ha.arith hb).bind fun d d' hd => hd.simplify.bind fun s s' hs =>
            (hs.linearIn? hold hnew).bind fun o o' ho => ?_
          cases ho with
          | none => exact hnone
          | @some p p' hp =>
            obtain ⟨k, rest⟩ := p
            obtain ⟨k', rest'⟩ := p'
            obtain ⟨rfl, hrest⟩ := hp
            by_cases hone : k' = 1
            · subst hone
              exact hrest.neg.bind fun n n' hn => hn.simplify.bind fun p p' hp => Option.Rel.some hp
            · split
              · next heq => exact absurd (Prod.mk.inj (Option.some.inj heq)).1 hone
              split
              · next heq => exact absurd (Prod.mk.inj (Option.some.inj heq)).1 hone
              exact hnone
        | _ => exact hnone
      | _ => exact hnone
  | _ => exact hnone

end Simplify

/-! ### Several renamings -/

/-- What an expression becomes when variables among some are renamed to others among them, one after the other. -/
def RenamedAmong (B : Nat → Prop) : Expr → Expr → Prop :=
  Relation.ReflTransGen fun e e' => ∃ r : Renaming, B r.old.id ∧ B r.new.id ∧ e.Renames r e'

section RenamedAmong
variable {B B' : Nat → Prop} {e e' : Expr} {v : Var}

theorem RenamedAmong.mono (h : RenamedAmong B e e') (hB : ∀ x, B x → B' x) : RenamedAmong B' e e' := by
  induction h with
  | refl => exact .refl
  | tail _ hstep ih =>
    obtain ⟨r, hold, hnew, hr⟩ := hstep
    exact ih.tail ⟨r, hB _ hold, hB _ hnew, hr⟩

/-- An expression in which none of the variables is free stays as it is. -/
theorem RenamedAmong.eq_self (h : RenamedAmong B e e') (hfree : ∀ x ∈ e.freeIds, ¬ B x) : e' = e := by
  induction h with
  | refl => rfl
  | tail _ hstep ih =>
    obtain ⟨r, hold, -, hr⟩ := hstep
    subst ih
    exact hr.eq_self fun hx => hfree _ hx hold

theorem RenamedAmong.mem_boundVars_iff (h : RenamedAmong B e e') {x : Nat} : x ∈ e'.boundVars ↔ x ∈ e.boundVars := by
  induction h with
  | refl => rfl
  | tail _ hstep ih =>
    obtain ⟨r, -, -, hr⟩ := hstep
    exact hr.mem_boundVars_iff.trans ih

theorem RenamedAmong.mem_vars (h : RenamedAmong B e e') (hv : v ∈ e'.vars) : B v.id ∨ v ∈ e.vars := by
  induction h with
  | refl => exact .inr hv
  | tail _ hstep ih =>
    obtain ⟨r, -, hnew, hr⟩ := hstep
    obtain ⟨rfl, -⟩ | ⟨hv, -⟩ := hr.mem_vars_iff.mp hv
    · exact .inl hnew
    · exact ih hv

/-- A split point on another variable is the split point before, renamed. -/
theorem RenamedAmong.splitPoint? (h : RenamedAmong B e e') (hv : ¬ B v.id) {o' : Option Expr}
    (hsplit : e'.splitPoint? v = .ok o') :
    ∃ o, e.splitPoint? v = .ok o ∧ Option.Rel (RenamedAmong B) o o' := by
  induction h generalizing o' with
  | refl =>
    refine ⟨o', hsplit, ?_⟩
    cases o' with
    | none => exact .none
    | some p => exact .some .refl
  | tail _ hstep ih =>
    obtain ⟨r, hold, hnew, hr⟩ := hstep
    obtain ⟨o, ho, hrel⟩ := (hr.splitPoint? (fun heq => hv (heq ▸ hold)) fun heq => hv (heq ▸ hnew)).of_ok hsplit
    obtain ⟨o₁, ho₁, hrel₁⟩ := ih ho
    refine ⟨o₁, ho₁, ?_⟩
    cases hrel₁ with
    | none => cases hrel; exact .none
    | some h => cases hrel with | some h' => exact .some (h.tail ⟨r, hold, hnew, h'⟩)

end RenamedAmong

end Expr

end TensorNest

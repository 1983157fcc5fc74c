import TensorNest.Expr.Rebuild
import TensorNest.Expr.Visit

/-! # Expressions: induction and walks

The induction principle of expressions, which reaches every expression inside an expression, those of
the combiner and of the axes of a reduction included. The walks over expressions (`subst`, `rebuildM`,
`postorder`) are written with companions on lists; here they are read as `map` and `flatMap`.

The head of an expression is what is not a part of it: the variable it binds, the tensor it reads, the
combiner and the axes it reduces with. A substitution leaves the heads of all parts as they are, so
that every head of the result is one of the expression or one of the expressions that were put in
(`mem_heads_subst`). -/

namespace TensorNest

theorem mem_of_itemAt? {α : Type} {xs : List α} {i : Int} {x : α} (h : itemAt? xs i = some x) :
    x ∈ xs := by
  unfold itemAt? at h
  split at h
  · exact List.mem_of_getElem? h
  · split at h
    · exact List.mem_of_getElem? h
    · cases h

namespace Expr

/-- Induction on an expression and on all expressions in it. -/
@[elab_as_elim, induction_eliminator]
theorem induct {motive : Expr → Prop}
    (var : ∀ v, motive (.var v))
    (const : ∀ x t, motive (.const x t))
    (str : ∀ s, motive (.str s))
    (cast : ∀ t a, motive a → motive (.cast t a))
    (bin : ∀ op a b, motive a → motive b → motive (.bin op a b))
    (not : ∀ a, motive a → motive (.not a))
    (select : ∀ c t f, motive c → motive t → motive f → motive (.select c t f))
    (call : ∀ t name args kind func index, (∀ a ∈ args, motive a) →
      motive (.call t name args kind func index))
    (bind : ∀ v value body, motive value → motive body → motive (.bind v value body))
    (load : ∀ t buffer index pred, motive buffer → motive index → (∀ p ∈ pred, motive p) →
      motive (.load t buffer index pred))
    (ramp : ∀ base stride lanes, motive base → motive stride → motive (.ramp base stride lanes))
    (broadcast : ∀ a lanes, motive a → motive (.broadcast a lanes))
    (reduce : ∀ combiner sources axes cond index, (∀ e ∈ combiner.result, motive e) →
      (∀ e ∈ combiner.identity, motive e) → (∀ e ∈ sources, motive e) →
      (∀ iv ∈ axes, ∀ r ∈ iv.dom, motive r.min ∧ motive r.extent) → (∀ c ∈ cond, motive c) →
      motive (.reduce combiner sources axes cond index)) (e : Expr) : motive e := by
  -- The recursor has a motive for each kind of list and record that expressions are kept in.
  exact @Expr.rec motive
    (fun r => motive r.min ∧ motive r.extent)
    (fun iv => ∀ r ∈ iv.dom, motive r.min ∧ motive r.extent)
    (fun c => (∀ e ∈ c.result, motive e) ∧ ∀ e ∈ c.identity, motive e)
    (fun es => ∀ e ∈ es, motive e)
    (fun o => ∀ e ∈ o, motive e)
    (fun ivs => ∀ iv ∈ ivs, ∀ r ∈ iv.dom, motive r.min ∧ motive r.extent)
    (fun o => ∀ r ∈ o, motive r.min ∧ motive r.extent)
    var const str cast bin not select call bind load ramp broadcast
    (fun c s a p i hc hs ha hp => reduce c s a p i hc.1 hc.2 hs ha hp)
    (fun _ _ hm he => ⟨hm, he⟩) (fun _ _ _ _ h => h) (fun _ _ _ _ hr hi => ⟨hr, hi⟩)
    (List.forall_mem_nil _) (fun _ _ h hs => List.forall_mem_cons.mpr ⟨h, hs⟩)
    (fun _ h => nomatch h) (fun _ h _ he => Option.mem_some.mp he ▸ h)
    (List.forall_mem_nil _) (fun _ _ h hs => List.forall_mem_cons.mpr ⟨h, hs⟩)
    (fun _ h => nomatch h) (fun _ h _ hr => Option.mem_some.mp hr ▸ h) e

/-! ### Companions on lists -/

@[simp] theorem subst_onList (s : Subst) (es : List Expr) : subst.onList s es = es.map (·.subst s) := by
  induction es with
  | nil => rfl
  | cons e es ih => exact congrArg (e.subst s :: ·) ih

@[simp] theorem subst_onOption (s : Subst) (o : Option Expr) :
    subst.onOption s o = o.map (·.subst s) := by
  cases o <;> rfl

@[simp] theorem postorder_ofList (es : List Expr) : postorder.ofList es = es.flatMap postorder := by
  induction es with
  | nil => rfl
  | cons e es ih => exact congrArg (e.postorder ++ ·) ih

@[simp] theorem mem_postorder_ofOption {n : Expr} {o : Option Expr} :
    n ∈ postorder.ofOption o ↔ ∃ e ∈ o, n ∈ e.postorder := by
  cases o with
  | none =>
    show n ∈ [] ↔ _
    simp
  | some e =>
    show n ∈ e.postorder ↔ _
    simp

/-- The immediate parts of an expression. -/
def parts : Expr → List Expr
  | var _ | const .. | str _ => []
  | cast _ a | not a | broadcast a _ => [a]
  | bin _ a b | ramp a b _ | bind _ a b => [a, b]
  | select c t f => [c, t, f]
  | call _ _ args .. => args
  | load _ buffer index pred => buffer :: index :: pred.toList
  | reduce _ sources _ cond _ => sources ++ cond.toList

/-- Induction on an expression from its immediate parts. -/
theorem induct_parts {motive : Expr → Prop} (step : ∀ e, (∀ a ∈ e.parts, motive a) → motive e)
    (e : Expr) : motive e := by
  induction e with
  | load _ _ _ pred ihb ihi ihp => exact step _ (by simpa [parts] using ⟨ihb, ihi, ihp⟩)
  | reduce _ _ _ cond _ _ _ ihs _ ihc =>
    refine step _ fun a ha => ?_
    obtain ha | ha := List.mem_append.mp ha
    · exact ihs a ha
    · exact ihc a (Option.mem_toList.mp ha)
  | _ => exact step _ (by simp_all [parts])

theorem mem_postorder {n e : Expr} : n ∈ e.postorder ↔ (∃ a ∈ e.parts, n ∈ a.postorder) ∨ n = e := by
  cases e <;> simp [postorder, parts] <;> grind

theorem self_mem_postorder (e : Expr) : e ∈ e.postorder :=
  mem_postorder.mpr (.inr rfl)

/-- What holds of every expression inside an expression holds of those inside its parts and of the expression itself. -/
theorem forall_mem_postorder {p : Expr → Prop} {e : Expr} :
    (∀ n ∈ e.postorder, p n) ↔ (∀ a ∈ e.parts, ∀ n ∈ a.postorder, p n) ∧ p e := by
  constructor
  · intro h
    exact ⟨fun a ha n hn => h n (mem_postorder.mpr (.inl ⟨a, ha, hn⟩)), h e (self_mem_postorder e)⟩
  · rintro ⟨hparts, hself⟩ n hn
    obtain ⟨a, ha, hn⟩ | rfl := mem_postorder.mp hn
    · exact hparts a ha n hn
    · exact hself

theorem postorder_subset {a e : Expr} (h : a ∈ e.parts) : a.postorder ⊆ e.postorder := fun _ hn =>
  mem_postorder.mpr (Or.inl ⟨a, h, hn⟩)

theorem tensorReads_subset {a e : Expr} (h : a ∈ e.parts) : a.tensorReads ⊆ e.tensorReads :=
  List.filterMap_subset _ (postorder_subset h)

theorem vars_subset {a e : Expr} (h : a ∈ e.parts) : a.vars ⊆ e.vars :=
  List.filterMap_subset _ (postorder_subset h)

@[simp] theorem mem_vars_var {v w : Var} : v ∈ (var w).vars ↔ v = w :=
  (List.mem_singleton : v ∈ [w] ↔ v = w)

theorem mem_vars {v : Var} {e : Expr} : v ∈ e.vars ↔ (∃ a ∈ e.parts, v ∈ a.vars) ∨ e = var v := by
  have hvar : ∀ a : Expr, a.asVar? = some v ↔ a = var v := fun a => by cases a <;> simp [asVar?]
  simp only [vars, List.mem_filterMap, hvar, exists_eq_right, mem_postorder (e := e), eq_comm (a := e)]

theorem mem_tensorReads_call (t : DataType) (name : String) (args : List Expr) (f : OpRef) (index : Ordinal) :
    (f, index.toInt, args) ∈ (call t name args .tensorRead (some f) index).tensorReads :=
  List.mem_filterMap.mpr ⟨_, self_mem_postorder _, rfl⟩

/-- An expression has the same type after a substitution that puts expressions of the types of the variables. -/
theorem dtype_subst {s : Subst} {e : Expr} (h : ∀ v ∈ e.vars, ∀ r, s.find? v = some r → r.dtype = v.dtype) :
    (e.subst s).dtype = e.dtype := by
  induction e with
  | var v =>
    rw [subst]
    cases hfind : s.find? v with
    | none => rfl
    | some r => exact h v (mem_vars_var.mpr rfl) r hfind
  | bin op a b iha =>
    have ha := iha fun v hv => h v (vars_subset (by simp [parts]) hv)
    simp only [subst, dtype, ha]
  | not a ih | broadcast a _ ih =>
    have ha := ih fun v hv => h v (vars_subset (by simp [parts]) hv)
    simp only [subst, dtype, ha]
  | select c a b _ iha | ramp a b _ iha =>
    have ha := iha fun v hv => h v (vars_subset (by simp [parts]) hv)
    simp only [subst, dtype, ha]
  | bind v a b _ ihb =>
    have hb := ihb fun v hv => h v (vars_subset (by simp [parts]) hv)
    simp only [subst, dtype, hb]
  | _ => rfl

/-! ### Rebuilding -/

section Rebuilding
variable (f : Expr → Expr)

theorem rebuildM_onList (es : List Expr) :
    rebuildM.onList (m := Id) (fun e => pure (f e)) es = es.map (·.rebuild f) := by
  induction es with
  | nil => rfl
  | cons e es ih => exact congrArg (_ :: ·) ih

theorem rebuildM_onOption (o : Option Expr) :
    rebuildM.onOption (m := Id) (fun e => pure (f e)) o = o.map (·.rebuild f) := by
  cases o <;> rfl

@[simp] theorem rebuild_var (v : Var) : (var v).rebuild f = f (var v) := rfl

@[simp] theorem rebuild_const (x : Number) (t : DataType) : (const x t).rebuild f = f (const x t) := rfl

@[simp] theorem rebuild_str (s : String) : (str s).rebuild f = f (str s) := rfl

@[simp] theorem rebuild_cast (t : DataType) (a : Expr) : (cast t a).rebuild f = f (cast t (a.rebuild f)) := rfl

@[simp] theorem rebuild_bin (op : BinOp) (a b : Expr) :
    (bin op a b).rebuild f = f (bin op (a.rebuild f) (b.rebuild f)) := rfl

@[simp] theorem rebuild_not (a : Expr) : (not a).rebuild f = f (not (a.rebuild f)) := rfl

@[simp] theorem rebuild_select (c t e : Expr) :
    (select c t e).rebuild f = f (select (c.rebuild f) (t.rebuild f) (e.rebuild f)) := rfl

@[simp] theorem rebuild_call (t : DataType) (name : String) (args : List Expr) (kind : CallKind)
    (func : Option OpRef) (index : Ordinal) : (call t name args kind func index).rebuild f =
      f (call t name (args.map (·.rebuild f)) kind func index) := by
  rw [← rebuildM_onList]
  rfl

@[simp] theorem rebuild_bind (v : Var) (a b : Expr) :
    (bind v a b).rebuild f = f (bind v (a.rebuild f) (b.rebuild f)) := rfl

@[simp] theorem rebuild_load (t : DataType) (a b : Expr) (p : Option Expr) :
    (load t a b p).rebuild f = f (load t (a.rebuild f) (b.rebuild f) (p.map (·.rebuild f))) := by
  rw [← rebuildM_onOption]
  rfl

@[simp] theorem rebuild_ramp (a b : Expr) (lanes : Int) :
    (ramp a b lanes).rebuild f = f (ramp (a.rebuild f) (b.rebuild f) lanes) := rfl

@[simp] theorem rebuild_broadcast (a : Expr) (lanes : Int) :
    (broadcast a lanes).rebuild f = f (broadcast (a.rebuild f) lanes) := rfl

@[simp] theorem rebuild_reduce (c : Reducer) (sources : List Expr) (axes : List IterVar)
    (cond : Option Expr) (index : Int) : (reduce c sources axes cond index).rebuild f =
      f (reduce c (sources.map (·.rebuild f)) axes (cond.map (·.rebuild f)) index) := by
  rw [← rebuildM_onList, ← rebuildM_onOption]
  rfl

variable {f} {τ : Type} {F : Expr → StateM τ Expr}

theorem run_rebuildM_onList (es : List Expr) (b : τ)
    (h : ∀ e ∈ es, ∀ b, ((e.rebuildM F).run b).1 = e.rebuild f) :
    ((rebuildM.onList F es).run b).1 = es.map (·.rebuild f) := by
  induction es generalizing b with
  | nil => rfl
  | cons e es ih =>
    rw [List.forall_mem_cons] at h
    rw [List.map_cons, ← h.1 b, ← ih _ h.2]
    rfl

theorem run_rebuildM_onOption (o : Option Expr) (b : τ)
    (h : ∀ e ∈ o, ∀ b, ((e.rebuildM F).run b).1 = e.rebuild f) :
    ((rebuildM.onOption F o).run b).1 = o.map (·.rebuild f) := by
  cases o with
  | none => rfl
  | some e => exact congrArg some (h e rfl b)

/-- A rebuilding that keeps a state gives the same expression as one that does not. -/
theorem run_rebuildM (hF : ∀ e b, ((F e).run b).1 = f e) (e : Expr) (b : τ) :
    ((e.rebuildM F).run b).1 = e.rebuild f := by
  induction e generalizing b with
  | var v => exact hF _ b
  | const x t => exact hF _ b
  | str s => exact hF _ b
  | cast t a ih =>
    rw [rebuild_cast, ← ih b]
    exact hF _ _
  | bin op x y ihx ihy =>
    rw [rebuild_bin, ← ihx b, ← ihy]
    exact hF _ _
  | not a ih =>
    rw [rebuild_not, ← ih b]
    exact hF _ _
  | select x y z ihx ihy ihz =>
    rw [rebuild_select, ← ihx b, ← ihy, ← ihz]
    exact hF _ _
  | call t name args kind func index ih =>
    rw [rebuild_call, ← run_rebuildM_onList args b ih]
    exact hF _ _
  | bind v x y ihx ihy =>
    rw [rebuild_bind, ← ihx b, ← ihy]
    exact hF _ _
  | load t x y p ihx ihy ihp =>
    rw [rebuild_load, ← ihx b, ← ihy, ← run_rebuildM_onOption p _ ihp]
    exact hF _ _
  | ramp x y lanes ihx ihy =>
    rw [rebuild_ramp, ← ihx b, ← ihy]
    exact hF _ _
  | broadcast a lanes ih =>
    rw [rebuild_broadcast, ← ih b]
    exact hF _ _
  | reduce c sources axes cond index _ _ ihs _ ihc =>
    rw [rebuild_reduce, ← run_rebuildM_onList sources b ihs, ← run_rebuildM_onOption cond _ ihc]
    exact hF _ _

end Rebuilding

/-! ### Heads -/

/-- What is not a part of an expression: what it reads or calls, as what type and with how many arguments,
    the variable that it binds, or the combiner and the axes of a reduction. -/
inductive Head where
  | call (dtype : DataType) (kind : CallKind) (func : Option OpRef) (index : Int) (arity : Nat)
  | bind (v : Var)
  | reduce (combiner : Reducer) (axes : List IterVar)
  | plain

/-- The head of an expression. -/
def head : Expr → Head
  | call t _ args kind func index => .call t kind func index.toInt args.length
  | bind v _ _ => .bind v
  | reduce combiner _ axes _ _ => .reduce combiner axes
  | _ => .plain

/-- The heads of an expression and of its parts. -/
def heads (e : Expr) : List Head :=
  e.postorder.map head

theorem mem_heads {h : Head} {e : Expr} : h ∈ e.heads ↔ (∃ a ∈ e.parts, h ∈ a.heads) ∨ h = e.head := by
  simp only [heads, List.mem_map, mem_postorder (e := e)]
  grind

theorem head_mem_heads (e : Expr) : e.head ∈ e.heads :=
  mem_heads.mpr (Or.inr rfl)

theorem heads_subset {a e : Expr} (h : a ∈ e.parts) : a.heads ⊆ e.heads :=
  List.map_subset head (postorder_subset h)

/-- A substitution replaces variables and goes on to the parts of anything else. -/
theorem subst_cases (s : Subst) (e : Expr) : (∃ v, e = var v) ∨
    ((e.subst s).head = e.head ∧ (e.subst s).parts = e.parts.map (·.subst s)) := by
  cases e with
  | var v => exact Or.inl ⟨v, rfl⟩
  | load _ _ _ pred => cases pred <;> exact Or.inr ⟨rfl, rfl⟩
  | reduce _ _ _ cond _ => cases cond <;> simp [subst, head, parts]
  | _ => simp [subst, head, parts]

theorem exists_of_find? {s : Subst} {v : Var} {r : Expr} (h : s.find? v = some r) : ∃ p ∈ s, p.1.id = v.id ∧ p.2 = r := by
  obtain ⟨p, hp, rfl⟩ := Option.map_eq_some_iff.mp h
  exact ⟨p, List.mem_of_find?_eq_some hp, by simpa using List.find?_some hp, rfl⟩

/-- The variables of the result are those that nothing is put for, and those of what is put. -/
theorem mem_vars_subst {s : Subst} {e : Expr} {v : Var} (h : v ∈ (e.subst s).vars) :
    (v ∈ e.vars ∧ s.find? v = none) ∨ ∃ p ∈ s, v ∈ p.2.vars := by
  induction e using induct_parts with | step e ih
  have hvar : ∀ w, v ∈ ((var w).subst s).vars → (v ∈ (var w).vars ∧ s.find? v = none) ∨ ∃ p ∈ s, v ∈ p.2.vars := by
    intro w h
    cases hf : s.find? w with
    | none =>
      obtain rfl : v = w := by simpa [subst, hf] using h
      exact Or.inl ⟨mem_vars_var.mpr rfl, hf⟩
    | some r =>
      obtain ⟨p, hp, -, rfl⟩ := exists_of_find? hf
      exact Or.inr ⟨p, hp, by simpa [subst, hf] using h⟩
  obtain ⟨w, rfl⟩ | ⟨-, hparts⟩ := subst_cases s e
  · exact hvar w h
  · obtain ⟨a', ha', hv⟩ | heq := mem_vars.mp h
    · obtain ⟨a, ha, rfl⟩ := List.mem_map.mp (hparts ▸ ha')
      exact (ih a ha hv).imp_left fun hv => ⟨vars_subset ha hv.1, hv.2⟩
    · cases e with
      | var w => exact hvar w h
      | _ => cases heq

/-- A substitution brings in no heads but those of the expressions that it puts. -/
theorem mem_heads_subst {s : Subst} {h : Head} {e : Expr} (hmem : h ∈ (e.subst s).heads) :
    h ∈ e.heads ∨ ∃ p ∈ s, h ∈ p.2.heads := by
  induction e using induct_parts with | step e ih
  obtain ⟨v, rfl⟩ | ⟨hhead, hparts⟩ := subst_cases s e
  · cases hf : s.find? v with
    | none => exact Or.inl (by simpa [subst, hf] using hmem)
    | some a =>
      obtain ⟨p, hp, rfl⟩ := Option.map_eq_some_iff.mp hf
      exact Or.inr ⟨p, List.mem_of_find?_eq_some hp, by simpa [subst, hf] using hmem⟩
  · rw [mem_heads, hparts, hhead] at hmem
    obtain ⟨_, hpart, hmem⟩ | rfl := hmem
    · obtain ⟨a, ha, rfl⟩ := List.mem_map.mp hpart
      exact (ih a ha hmem).imp_left fun h => heads_subset ha h
    · exact Or.inl e.head_mem_heads

end Expr

end TensorNest

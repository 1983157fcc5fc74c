import Mathlib.Data.List.Basic
import Mathlib.Logic.Function.Basic
import TensorNest.Proofs.Expression

/-! # The meaning of expressions

The value of an expression under a reading of its operations, a valuation of its variables and the
contents of the tensors that it reads. The values are those of any type: a reading says what the
operations do, so that what is proved here holds of integers as of floating-point numbers.

A reduction folds its combiner over the points of its axes, the first axis outermost, starting from
the identity elements and skipping the points at which its condition is false. The domains of the axes
and the identity are valued outside the reduction, the sources, the condition and the combiner inside.

The value depends on the free variables and on the tensors read (`value_congr`). Substitution into an
expression is valuation of the variables by the values of what is put for them (`value_subst`), unless
it is caught by a binder or meets a variable in a combiner or in the domain of an axis. -/

namespace TensorNest

/-- How the operations of expressions act on values. Operations are carried out in the type of their operands: of
    the first one, of the branches of a choice, of the start of a ramp. -/
structure Reading (V : Type) where
  number : Number → DataType → V
  text : String → V
  cast : DataType → V → V
  binary : BinOp → DataType → V → V → V
  negate : V → V
  choose : DataType → V → V → V → V
  call : DataType → String → CallKind → Int → List V → V
  load : DataType → V → V → Option V → V
  ramp : DataType → V → V → Int → V
  broadcast : DataType → V → Int → V
  truth : V → Bool
  counter : DataType → Int → V
  toInt : V → Int

/-- The values of the variables, by their numbers. -/
abbrev Valuation (V : Type) := Nat → V

/-- The elements of the outputs of the operations, by the number of the operation, the output and the
    index. -/
abbrev Contents (V : Type) := Nat → Int → List V → V

variable {V : Type} [Inhabited V]

namespace Valuation

/-- Gives variables new values. The last value of a variable counts, and a variable without one has
    the default value. -/
def assign (ρ : Valuation V) : List Var → List V → Valuation V
  | [], _ => ρ
  | v :: vs, xs => assign (Function.update ρ v.id (xs.headD default)) vs xs.tail

theorem assign_of_not_mem {x : Nat} {vs : List Var} (h : x ∉ vs.map (·.id)) (ρ : Valuation V)
    (xs : List V) : ρ.assign vs xs x = ρ x := by
  induction vs generalizing ρ xs with
  | nil => rfl
  | cons v vs ih =>
    simp only [List.map_cons, List.mem_cons, not_or] at h
    rw [assign, ih h.2, Function.update_of_ne h.1]

theorem assign_congr {x : Nat} {vs : List Var} {ρ σ : Valuation V} (h : x ∉ vs.map (·.id) → ρ x = σ x)
    (xs : List V) : ρ.assign vs xs x = σ.assign vs xs x := by
  induction vs generalizing ρ σ xs with
  | nil => exact h (by simp)
  | cons v vs ih =>
    refine ih (fun hx => ?_) xs.tail
    by_cases hv : x = v.id
    · simp [hv]
    · rw [Function.update_of_ne hv, Function.update_of_ne hv]
      exact h (by simp [hv, hx])

theorem assign_append {vs : List Var} {xs : List V} (h : vs.length = xs.length) (ρ : Valuation V)
    (ws : List Var) (ys : List V) : ρ.assign (vs ++ ws) (xs ++ ys) = (ρ.assign vs xs).assign ws ys := by
  induction vs generalizing ρ xs with
  | nil =>
    obtain rfl : xs = [] := List.length_eq_zero_iff.mp h.symm
    rfl
  | cons v vs ih =>
    obtain _ | ⟨x, xs⟩ := xs
    · cases h
    · exact ih (Nat.succ.inj h) _

/-- Distinct variables have the values that they are given. -/
theorem map_assign {vs : List Var} (hnd : (vs.map (·.id)).Nodup) {xs : List V}
    (h : vs.length = xs.length) (ρ : Valuation V) : (vs.map fun v => ρ.assign vs xs v.id) = xs := by
  induction vs generalizing ρ xs with
  | nil => exact (List.length_eq_zero_iff.mp h.symm).symm
  | cons v vs ih =>
    obtain _ | ⟨x, xs⟩ := xs
    · cases h
    · rw [List.map_cons, List.nodup_cons] at hnd
      rw [List.map_cons, assign, assign_of_not_mem hnd.1]
      exact congrArg₂ List.cons (Function.update_self ..) (ih hnd.2 (Nat.succ.inj h) _)

end Valuation

/-- All choices of one item from each list, the first list outermost. -/
def points {α : Type} : List (List α) → List (List α)
  | [] => [[]]
  | xs :: rest => xs.flatMap fun x => (points rest).map (x :: ·)

/-- The value of a call, from those of its arguments. -/
def callValue (R : Reading V) (T : Contents V) (t : DataType) (name : String) :
    CallKind → Option OpRef → Int → List V → V
  | .tensorRead, some f, index, xs => T f.idx index xs
  | kind, _, index, xs => R.call t name kind index xs

/-- The tensor that a call reads: the operation, the output and the number of indices. -/
def callReads (arity : Nat) : CallKind → Option OpRef → Int → List (Nat × Int × Nat)
  | .tensorRead, some f, index => [(f.idx, index, arity)]
  | _, _, _ => []

theorem length_of_mem_points {α : Type} {ls : List (List α)} {p : List α} (h : p ∈ points ls) :
    p.length = ls.length := by
  induction ls generalizing p with
  | nil => simp_all [points]
  | cons xs rest ih =>
    simp only [points, List.mem_flatMap, List.mem_map] at h
    obtain ⟨x, -, q, hq, rfl⟩ := h
    rw [List.length_cons, List.length_cons, ih hq]

theorem IterVar.map_id_map_var (axes : List IterVar) :
    (axes.map (·.var)).map (·.id) = axes.map (·.id) := by
  simp [IterVar.id]

namespace Expr

/-- The value of an expression. -/
def value (R : Reading V) (T : Contents V) : Expr → Valuation V → V
  | var v, ρ => ρ v.id
  | const x t, _ => R.number x t
  | str s, _ => R.text s
  | cast t a, ρ => R.cast t (a.value R T ρ)
  | bin op a b, ρ => R.binary op a.dtype (a.value R T ρ) (b.value R T ρ)
  | not a, ρ => R.negate (a.value R T ρ)
  | select c t f, ρ => R.choose t.dtype (c.value R T ρ) (t.value R T ρ) (f.value R T ρ)
  | call t name args kind func index, ρ => callValue R T t name kind func index.toInt (ofList args ρ)
  | bind v value body, ρ => body.value R T (ρ.assign [v] [value.value R T ρ])
  | load t buffer index pred, ρ =>
    R.load t (buffer.value R T ρ) (index.value R T ρ) (ofOption pred ρ)
  | ramp base stride lanes, ρ => R.ramp base.dtype (base.value R T ρ) (stride.value R T ρ) lanes
  | broadcast a lanes, ρ => R.broadcast a.dtype (a.value R T ρ) lanes
  | reduce combiner sources axes cond index, ρ =>
    let step acc p :=
      let σ := ρ.assign (axes.map (·.var)) p
      if (ofOption cond σ).all R.truth then combine combiner σ acc (ofList sources σ) else acc
    (itemAt? ((points (domains axes ρ)).foldl step (start combiner ρ)) index).getD default
where
  /-- The values of expressions. -/
  ofList : List Expr → Valuation V → List V
    | [], _ => []
    | e :: es, ρ => e.value R T ρ :: ofList es ρ
  /-- The value of an expression that may be missing. -/
  ofOption : Option Expr → Valuation V → Option V
    | none, _ => none
    | some e, ρ => some (e.value R T ρ)
  /-- The identity elements of a combiner. -/
  start : Reducer → Valuation V → List V
    | ⟨_, _, _, identity⟩, ρ => ofList identity ρ
  /-- A step of a combiner, from accumulators and the values of the sources. -/
  combine : Reducer → Valuation V → List V → List V → List V
    | ⟨lhs, rhs, result, _⟩, ρ, acc, xs => ofList result ((ρ.assign lhs acc).assign rhs xs)
  /-- The values that the axes run through. An axis of no domain has none. -/
  domains : List IterVar → Valuation V → List (List V)
    | [], _ => []
    | ⟨none, _, _, _⟩ :: axes, ρ => [] :: domains axes ρ
    | ⟨some ⟨min, extent⟩, v, _, _⟩ :: axes, ρ =>
      ((List.range (R.toInt (extent.value R T ρ)).toNat).map fun k : Nat =>
        R.counter v.dtype (R.toInt (min.value R T ρ) + k)) :: domains axes ρ

section Companions
variable (R : Reading V) (T : Contents V)

@[simp] theorem value_ofList (es : List Expr) (ρ : Valuation V) :
    value.ofList R T es ρ = es.map (·.value R T ρ) := by
  induction es with
  | nil => rfl
  | cons e es ih => simp [value.ofList, ih]

@[simp] theorem value_ofOption (o : Option Expr) (ρ : Valuation V) :
    value.ofOption R T o ρ = o.map (·.value R T ρ) := by
  cases o <;> rfl

end Companions

/-! ### Free and bound variables -/

/-- The variables whose values an expression depends on. -/
def freeIds : Expr → List Nat
  | var v => [v.id]
  | const .. | str _ => []
  | cast _ a | not a | broadcast a _ => a.freeIds
  | bin _ a b | ramp a b _ => a.freeIds ++ b.freeIds
  | select c t f => c.freeIds ++ t.freeIds ++ f.freeIds
  | call _ _ args .. => ofList args
  | bind v value body => value.freeIds ++ body.freeIds.filter (· ≠ v.id)
  | load _ buffer index pred => buffer.freeIds ++ index.freeIds ++ ofOption pred
  | reduce combiner sources axes cond _ =>
    ofIdentity combiner ++ ofDomains axes ++
      (ofResult combiner ++ ofList sources ++ ofOption cond).filter (· ∉ axes.map (·.id))
where
  /-- The free variables of expressions. -/
  ofList : List Expr → List Nat
    | [] => []
    | e :: es => e.freeIds ++ ofList es
  /-- The free variables of an expression that may be missing. -/
  ofOption : Option Expr → List Nat
    | none => []
    | some e => e.freeIds
  /-- The free variables of the identity elements of a combiner. -/
  ofIdentity : Reducer → List Nat
    | ⟨_, _, _, identity⟩ => ofList identity
  /-- The free variables of the result of a combiner, its own ones aside. -/
  ofResult : Reducer → List Nat
    | ⟨lhs, rhs, result, _⟩ => (ofList result).filter (· ∉ (lhs ++ rhs).map (·.id))
  /-- The free variables of the domains of axes. -/
  ofDomains : List IterVar → List Nat
    | [] => []
    | ⟨none, _, _, _⟩ :: axes => ofDomains axes
    | ⟨some ⟨min, extent⟩, _, _, _⟩ :: axes => min.freeIds ++ extent.freeIds ++ ofDomains axes

/-- The tensors that an expression reads, those read in combiners and in domains of axes included. -/
def allReads : Expr → List (Nat × Int × Nat)
  | var _ | const .. | str _ => []
  | cast _ a | not a | broadcast a _ => a.allReads
  | bin _ a b | ramp a b _ | bind _ a b => a.allReads ++ b.allReads
  | select c t f => c.allReads ++ t.allReads ++ f.allReads
  | call _ _ args kind func index => callReads args.length kind func index.toInt ++ ofList args
  | load _ buffer index pred => buffer.allReads ++ index.allReads ++ ofOption pred
  | reduce combiner sources axes cond _ =>
    ofReducer combiner ++ ofDomains axes ++ ofList sources ++ ofOption cond
where
  /-- The reads of expressions. -/
  ofList : List Expr → List (Nat × Int × Nat)
    | [] => []
    | e :: es => e.allReads ++ ofList es
  /-- The reads of an expression that may be missing. -/
  ofOption : Option Expr → List (Nat × Int × Nat)
    | none => []
    | some e => e.allReads
  /-- The reads of a combiner. -/
  ofReducer : Reducer → List (Nat × Int × Nat)
    | ⟨_, _, result, identity⟩ => ofList result ++ ofList identity
  /-- The reads of the domains of axes. -/
  ofDomains : List IterVar → List (Nat × Int × Nat)
    | [] => []
    | ⟨none, _, _, _⟩ :: axes => ofDomains axes
    | ⟨some ⟨min, extent⟩, _, _, _⟩ :: axes => min.allReads ++ extent.allReads ++ ofDomains axes

/-- The tensor that a head reads, with the type that it is read in. -/
def Head.typedReads : Head → List (Nat × Int × DataType)
  | .call t .tensorRead (some f) index _ => [(f.idx, index, t)]
  | _ => []

/-- The tensors that an expression reads in its parts, with the types that they are read in. -/
def typedReads (e : Expr) : List (Nat × Int × DataType) :=
  e.heads.flatMap Head.typedReads

/-- The variables that a head binds in the parts. -/
def Head.binders : Head → List Nat
  | .bind v => [v.id]
  | .reduce _ axes => axes.map (·.id)
  | _ => []

/-- The free variables of the combiner and of the domains of the axes of a reduction. No substitution
    reaches them. -/
def Head.opaqueVars : Head → List Nat
  | .reduce combiner axes =>
    freeIds.ofIdentity combiner ++ freeIds.ofResult combiner ++ freeIds.ofDomains axes
  | _ => []

/-- The variables that an expression or a part of it binds. -/
def boundVars (e : Expr) : List Nat :=
  e.heads.flatMap Head.binders

/-- The free variables of all combiners and domains of axes in an expression. -/
def opaqueVars (e : Expr) : List Nat :=
  e.heads.flatMap Head.opaqueVars

section Membership
variable {x : Nat} {r : Nat × Int × Nat}

@[simp] theorem mem_freeIds_ofList {es : List Expr} :
    x ∈ freeIds.ofList es ↔ ∃ e ∈ es, x ∈ e.freeIds := by
  induction es with
  | nil => simp [freeIds.ofList]
  | cons e es ih => simp [freeIds.ofList, ih]

@[simp] theorem mem_freeIds_ofOption {o : Option Expr} :
    x ∈ freeIds.ofOption o ↔ ∃ e ∈ o, x ∈ e.freeIds := by
  cases o <;> simp [freeIds.ofOption]

@[simp] theorem mem_freeIds_ofIdentity {c : Reducer} :
    x ∈ freeIds.ofIdentity c ↔ ∃ e ∈ c.identity, x ∈ e.freeIds := by
  cases c
  simp [freeIds.ofIdentity]

@[simp] theorem mem_freeIds_ofResult {c : Reducer} :
    x ∈ freeIds.ofResult c ↔
      (∃ e ∈ c.result, x ∈ e.freeIds) ∧ x ∉ c.lhs.map (·.id) ∧ x ∉ c.rhs.map (·.id) := by
  cases c
  simp [freeIds.ofResult]

@[simp] theorem mem_freeIds_ofDomains {axes : List IterVar} :
    x ∈ freeIds.ofDomains axes ↔
      ∃ iv ∈ axes, ∃ r ∈ iv.dom, x ∈ r.min.freeIds ∨ x ∈ r.extent.freeIds := by
  induction axes with
  | nil => simp [freeIds.ofDomains]
  | cons iv axes ih =>
    obtain ⟨_ | ⟨min, extent⟩, v, k, t⟩ := iv <;> simp [freeIds.ofDomains, ih, or_assoc]

theorem mem_freeIds_reduce {c : Reducer} {sources : List Expr} {axes : List IterVar}
    {cond : Option Expr} {index : Int} : x ∈ (reduce c sources axes cond index).freeIds ↔
      (x ∈ freeIds.ofIdentity c ∨ x ∈ freeIds.ofDomains axes) ∨
        (x ∈ freeIds.ofResult c ∨ ∃ a ∈ sources ++ cond.toList, x ∈ a.freeIds) ∧
          x ∉ axes.map (·.id) := by
  simp only [freeIds, List.mem_append, List.mem_filter, mem_freeIds_ofList, mem_freeIds_ofOption,
    Option.mem_toList, Option.mem_def, decide_eq_true_iff]
  grind

@[simp] theorem mem_allReads_ofList {es : List Expr} :
    r ∈ allReads.ofList es ↔ ∃ e ∈ es, r ∈ e.allReads := by
  induction es with
  | nil => simp [allReads.ofList]
  | cons e es ih => simp [allReads.ofList, ih]

@[simp] theorem mem_allReads_ofOption {o : Option Expr} :
    r ∈ allReads.ofOption o ↔ ∃ e ∈ o, r ∈ e.allReads := by
  cases o <;> simp [allReads.ofOption]

@[simp] theorem mem_allReads_ofReducer {c : Reducer} :
    r ∈ allReads.ofReducer c ↔ (∃ e ∈ c.result, r ∈ e.allReads) ∨ ∃ e ∈ c.identity, r ∈ e.allReads := by
  cases c
  simp [allReads.ofReducer]

@[simp] theorem mem_allReads_ofDomains {axes : List IterVar} :
    r ∈ allReads.ofDomains axes ↔
      ∃ iv ∈ axes, ∃ d ∈ iv.dom, r ∈ d.min.allReads ∨ r ∈ d.extent.allReads := by
  induction axes with
  | nil => simp [allReads.ofDomains]
  | cons iv axes ih =>
    obtain ⟨_ | ⟨min, extent⟩, v, k, t⟩ := iv <;> simp [allReads.ofDomains, ih, or_assoc]

@[simp] theorem mem_boundVars {e : Expr} : x ∈ e.boundVars ↔ ∃ h ∈ e.heads, x ∈ h.binders := by
  simp [boundVars]

@[simp] theorem mem_opaqueVars {e : Expr} : x ∈ e.opaqueVars ↔ ∃ h ∈ e.heads, x ∈ h.opaqueVars := by
  simp [opaqueVars]

@[simp] theorem mem_typedReads {e : Expr} {r : Nat × Int × DataType} : r ∈ e.typedReads ↔
  ∃ h ∈ e.heads, r ∈ h.typedReads := by
  simp [typedReads]

theorem boundVars_subset {a e : Expr} (h : a ∈ e.parts) : a.boundVars ⊆ e.boundVars := fun x hx => by
  obtain ⟨d, hd, hx⟩ := mem_boundVars.mp hx
  exact mem_boundVars.mpr ⟨d, heads_subset h hd, hx⟩

theorem opaqueVars_subset {a e : Expr} (h : a ∈ e.parts) : a.opaqueVars ⊆ e.opaqueVars := fun x hx => by
  obtain ⟨d, hd, hx⟩ := mem_opaqueVars.mp hx
  exact mem_opaqueVars.mpr ⟨d, heads_subset h hd, hx⟩

theorem typedReads_subset {a e : Expr} (h : a ∈ e.parts) : a.typedReads ⊆ e.typedReads := fun r hr => by
  obtain ⟨d, hd, hr⟩ := mem_typedReads.mp hr
  exact mem_typedReads.mpr ⟨d, heads_subset h hd, hr⟩

theorem opaqueVars_head {e : Expr} (h : x ∈ e.head.opaqueVars) : x ∈ e.opaqueVars :=
  mem_opaqueVars.mpr ⟨_, e.head_mem_heads, h⟩

end Membership

/-- The free variables of a part are free in the expression, unless it binds them. -/
theorem mem_freeIds_part {a e : Expr} {x : Nat} (ha : a ∈ e.parts) (hx : x ∈ a.freeIds) :
    x ∈ e.freeIds ∨ x ∈ e.head.binders := by
  cases e with
  | bind v value body => simp only [parts, freeIds, head, Head.binders] at ha ⊢; grind
  | reduce c sources axes cond index =>
    by_cases hbound : x ∈ axes.map (·.id)
    · exact Or.inr hbound
    · exact Or.inl (mem_freeIds_reduce.mpr (Or.inr ⟨Or.inr ⟨a, ha, hx⟩, hbound⟩))
  | call => exact Or.inl (mem_freeIds_ofList.mpr ⟨a, ha, hx⟩)
  | load t buffer index pred => simp only [parts, freeIds, mem_freeIds_ofOption, List.mem_append] at ha ⊢; grind
  | _ => simp only [parts, freeIds, List.mem_append] at ha ⊢; grind

/-- Each variable of an expression is free or bound in it. -/
theorem mem_vars_ids {e : Expr} {v : Var} (h : v ∈ e.vars) : v.id ∈ e.freeIds ∨ v.id ∈ e.boundVars := by
  induction e using induct_parts with | step e ih
  obtain ⟨a, ha, h⟩ | rfl := mem_vars.mp h
  · obtain hfree | hbound := ih a ha h
    · exact (mem_freeIds_part ha hfree).imp_right fun hx => mem_boundVars.mpr ⟨_, e.head_mem_heads, hx⟩
    · exact Or.inr (boundVars_subset ha hbound)
  · exact Or.inl List.mem_cons_self

/-- Variables with the numbers of axes have the types of these. -/
def RespectsTypes (axes : List IterVar) (e : Expr) : Prop :=
  ∀ v ∈ e.vars, ∀ iv ∈ axes, v.id = iv.id → v.dtype = iv.dtype

instance (axes : List IterVar) (e : Expr) : Decidable (e.RespectsTypes axes) :=
  inferInstanceAs (Decidable (∀ v ∈ e.vars, ∀ iv ∈ axes, v.id = iv.id → v.dtype = iv.dtype))

/-- The tensors that a head reads: that of a call, or those of a combiner and of domains of axes. -/
def Head.reads : Head → List (Nat × Int × Nat)
  | .call _ kind func index arity => callReads arity kind func index
  | .reduce combiner axes => allReads.ofReducer combiner ++ allReads.ofDomains axes
  | _ => []

theorem mem_allReads_parts {e : Expr} {r : Nat × Int × Nat} :
    r ∈ e.allReads ↔ (∃ a ∈ e.parts, r ∈ a.allReads) ∨ r ∈ e.head.reads := by
  cases e <;> simp [allReads, parts, head, Head.reads] <;> grind

theorem mem_allReads {e : Expr} {r : Nat × Int × Nat} :
    r ∈ e.allReads ↔ ∃ h ∈ e.heads, r ∈ h.reads := by
  induction e using induct_parts with | step e ih
  rw [mem_allReads_parts]
  simp only [mem_heads (e := e)]
  grind

theorem allReads_subset {a e : Expr} (h : a ∈ e.parts) : a.allReads ⊆ e.allReads := fun x hx => by
  obtain ⟨d, hd, hx⟩ := mem_allReads.mp hx
  exact mem_allReads.mpr ⟨d, heads_subset h hd, hx⟩

/-! ### Agreement -/

section Agreement
variable {R : Reading V} {T T' : Contents V} {ρ σ : Valuation V}

/-- Expressions keep their values from one valuation to another. -/
theorem value_ofList_congr {es : List Expr}
    (h : ∀ e ∈ es, e.value R T ρ = e.value R T' σ) :
    value.ofList R T es ρ = value.ofList R T' es σ := by
  simpa using h

theorem value_domains_congr {axes : List IterVar}
    (h : ∀ iv ∈ axes, ∀ r ∈ iv.dom, r.min.value R T ρ = r.min.value R T' σ ∧
      r.extent.value R T ρ = r.extent.value R T' σ) :
    value.domains R T axes ρ = value.domains R T' axes σ := by
  induction axes with
  | nil => rfl
  | cons iv axes ih =>
    obtain ⟨_ | ⟨min, extent⟩, v, k, t⟩ := iv
    · simp only [value.domains, ih fun iv hiv => h iv (List.mem_cons_of_mem _ hiv)]
    · obtain ⟨hmin, hextent⟩ := h _ List.mem_cons_self _ rfl
      simp only [value.domains, hmin, hextent, ih fun iv hiv => h iv (List.mem_cons_of_mem _ hiv)]

omit [Inhabited V] in
theorem callValue_congr {t : DataType} {name : String} {kind : CallKind} {func : Option OpRef}
    {index : Int} {xs : List V} (arity : Nat)
    (hT : ∀ r ∈ callReads arity kind func index, T r.1 = T' r.1) :
    callValue R T t name kind func index xs = callValue R T' t name kind func index xs := by
  unfold callReads at hT
  unfold callValue
  split <;> simp_all

theorem combine_congr {c : Reducer} (hr : ∀ e ∈ c.result, ∀ {ρ σ : Valuation V},
      (∀ x ∈ e.freeIds, ρ x = σ x) → e.value R T ρ = e.value R T' σ)
    (hρ : ∀ x ∈ freeIds.ofResult c, ρ x = σ x) (acc xs : List V) :
    value.combine R T c ρ acc xs = value.combine R T' c σ acc xs := by
  obtain ⟨lhs, rhs, result, identity⟩ := c
  refine value_ofList_congr fun e he => hr e he fun x hx => ?_
  refine Valuation.assign_congr (fun hrhs => Valuation.assign_congr (fun hlhs => hρ x ?_) acc) xs
  exact mem_freeIds_ofResult.mpr ⟨⟨e, he, hx⟩, hlhs, hrhs⟩

theorem length_domains (axes : List IterVar) (ρ : Valuation V) :
    (value.domains R T axes ρ).length = axes.length := by
  induction axes with
  | nil => rfl
  | cons iv axes ih => obtain ⟨_ | ⟨min, extent⟩, v, k, t⟩ := iv <;> simp [value.domains, ih]

/-- Reductions by one combiner agree if they start alike, run over the same values, and agree on the
    condition, the sources and the combiner at each point. -/
theorem value_reduce_congr {c : Reducer} {sources sources' : List Expr} {axes axes' : List IterVar}
    {cond cond' : Option Expr} {index : Int}
    (hstart : value.start R T c ρ = value.start R T' c σ)
    (hdomains : value.domains R T axes ρ = value.domains R T' axes' σ)
    (hcond : ∀ p, p.length = axes.length → value.ofOption R T cond (ρ.assign (axes.map (·.var)) p) =
      value.ofOption R T' cond' (σ.assign (axes'.map (·.var)) p))
    (hsources : ∀ p, p.length = axes.length → value.ofList R T sources (ρ.assign (axes.map (·.var)) p) =
      value.ofList R T' sources' (σ.assign (axes'.map (·.var)) p))
    (hcombine : ∀ p, p.length = axes.length → ∀ acc xs,
      value.combine R T c (ρ.assign (axes.map (·.var)) p) acc xs =
        value.combine R T' c (σ.assign (axes'.map (·.var)) p) acc xs) :
    (reduce c sources axes cond index).value R T ρ =
      (reduce c sources' axes' cond' index).value R T' σ := by
  simp only [value, hstart]
  rw [← hdomains]
  congr 2
  refine List.foldl_ext _ _ _ fun acc p hp => ?_
  have hlen : p.length = axes.length := (length_of_mem_points hp).trans (length_domains axes ρ)
  rw [hcond p hlen, hsources p hlen, hcombine p hlen]

/-- The value of an expression depends only on its free variables and on the tensors that it reads. -/
theorem value_congr {e : Expr} (hT : ∀ r ∈ e.allReads, T r.1 = T' r.1)
    (hρ : ∀ x ∈ e.freeIds, ρ x = σ x) : e.value R T ρ = e.value R T' σ := by
  induction e generalizing ρ σ with
  | var v => exact hρ v.id (by simp [freeIds])
  | const | str => rfl
  | cast t a ih => exact congrArg (R.cast t) (ih hT hρ)
  | bin op a b iha ihb =>
    simp only [allReads, freeIds, List.forall_mem_append] at hT hρ
    rw [value, value, iha hT.1 hρ.1, ihb hT.2 hρ.2]
  | not a ih => exact congrArg R.negate (ih hT hρ)
  | select c t f ihc iht ihf =>
    simp only [allReads, freeIds, List.forall_mem_append] at hT hρ
    rw [value, value, ihc hT.1.1 hρ.1.1, iht hT.1.2 hρ.1.2, ihf hT.2 hρ.2]
  | call t name args kind func index ih =>
    simp only [allReads, freeIds, List.forall_mem_append] at hT hρ
    have hargs : value.ofList R T args ρ = value.ofList R T' args σ :=
      value_ofList_congr fun a ha => ih a ha
        (fun r hr => hT.2 r (mem_allReads_ofList.mpr ⟨a, ha, hr⟩))
        (fun x hx => hρ x (mem_freeIds_ofList.mpr ⟨a, ha, hx⟩))
    rw [value, value, hargs]
    exact callValue_congr args.length hT.1
  | bind v a body iha ihb =>
    simp only [allReads, freeIds, List.forall_mem_append] at hT hρ
    rw [value, value, iha hT.1 hρ.1]
    refine ihb hT.2 fun x hx => Valuation.assign_congr (fun hv => hρ.2 x ?_) _
    simpa [hx] using hv
  | load t buffer index pred ihb ihi ihp =>
    simp only [allReads, freeIds, List.forall_mem_append] at hT hρ
    rw [value, value, ihb hT.1.1 hρ.1.1, ihi hT.1.2 hρ.1.2]
    cases pred with
    | none => rfl
    | some p => rw [value.ofOption, value.ofOption, ihp p rfl hT.2 hρ.2]
  | ramp base stride lanes ihb ihs =>
    simp only [allReads, freeIds, List.forall_mem_append] at hT hρ
    rw [value, value, ihb hT.1 hρ.1, ihs hT.2 hρ.2]
  | broadcast a lanes ih => exact congrArg (R.broadcast a.dtype · lanes) (ih hT hρ)
  | reduce c sources axes cond index ihr ihi ihs iha ihc =>
    simp only [allReads, freeIds, List.forall_mem_append] at hT hρ
    obtain ⟨⟨⟨hTc, hTd⟩, hTs⟩, hTo⟩ := hT
    obtain ⟨⟨hρi, hρd⟩, hρ⟩ := hρ
    have inside : ∀ p x, (x ∈ freeIds.ofResult c ∨ x ∈ freeIds.ofList sources ∨
        x ∈ freeIds.ofOption cond) →
        ρ.assign (axes.map (·.var)) p x = σ.assign (axes.map (·.var)) p x := by
      intro p x hx
      refine Valuation.assign_congr (fun hv => hρ x ?_) p
      rw [IterVar.map_id_map_var] at hv
      exact List.mem_filter.mpr ⟨by simpa only [List.mem_append, or_assoc] using hx, decide_eq_true hv⟩
    refine value_reduce_congr ?_ ?_ (fun p _ => ?_) (fun p _ => ?_) (fun p _ => combine_congr ?_ ?_)
    · obtain ⟨lhs, rhs, result, identity⟩ := c
      exact value_ofList_congr fun e he => ihi e he
        (fun r hr => hTc r (mem_allReads_ofReducer.mpr (Or.inr ⟨e, he, hr⟩)))
        (fun x hx => hρi x (mem_freeIds_ofIdentity.mpr ⟨e, he, hx⟩))
    · refine value_domains_congr fun iv hiv r hr => ⟨(iha iv hiv r hr).1 ?_ ?_, (iha iv hiv r hr).2 ?_ ?_⟩
      · exact fun q hq => hTd q (mem_allReads_ofDomains.mpr ⟨iv, hiv, r, hr, Or.inl hq⟩)
      · exact fun x hx => hρd x (mem_freeIds_ofDomains.mpr ⟨iv, hiv, r, hr, Or.inl hx⟩)
      · exact fun q hq => hTd q (mem_allReads_ofDomains.mpr ⟨iv, hiv, r, hr, Or.inr hq⟩)
      · exact fun x hx => hρd x (mem_freeIds_ofDomains.mpr ⟨iv, hiv, r, hr, Or.inr hx⟩)
    · cases cond with
      | none => rfl
      | some e => exact congrArg some (ihc e rfl hTo fun x hx => inside p x (Or.inr (Or.inr hx)))
    · exact value_ofList_congr fun e he => ihs e he
        (fun r hr => hTs r (mem_allReads_ofList.mpr ⟨e, he, hr⟩))
        (fun x hx => inside p x (Or.inr (Or.inl (mem_freeIds_ofList.mpr ⟨e, he, hx⟩))))
    · exact fun e he _ _ => ihr e he
        (fun r hr => hTc r (mem_allReads_ofReducer.mpr (Or.inl ⟨e, he, hr⟩)))
    · exact fun x hx => inside p x (Or.inl hx)
theorem start_eq {c : Reducer} (h : ∀ x ∈ freeIds.ofIdentity c, ρ x = σ x) :
    value.start R T c ρ = value.start R T c σ := by
  obtain ⟨lhs, rhs, result, identity⟩ := c
  exact value_ofList_congr fun e he => value_congr (fun _ _ => rfl) fun x hx =>
    h x (mem_freeIds_ofIdentity.mpr ⟨e, he, hx⟩)

theorem domains_eq {axes : List IterVar} (h : ∀ x ∈ freeIds.ofDomains axes, ρ x = σ x) :
    value.domains R T axes ρ = value.domains R T axes σ := by
  refine value_domains_congr fun iv hiv r hr =>
    ⟨value_congr (fun _ _ => rfl) fun x hx => h x ?_, value_congr (fun _ _ => rfl) fun x hx => h x ?_⟩
  · exact mem_freeIds_ofDomains.mpr ⟨iv, hiv, r, hr, Or.inl hx⟩
  · exact mem_freeIds_ofDomains.mpr ⟨iv, hiv, r, hr, Or.inr hx⟩

theorem combine_eq {c : Reducer} (h : ∀ x ∈ freeIds.ofResult c, ρ x = σ x) (acc xs : List V) :
    value.combine R T c ρ acc xs = value.combine R T c σ acc xs :=
  combine_congr (fun _ _ _ _ => value_congr fun _ _ => rfl) h acc xs

end Agreement

end Expr

/-! ### Substitution -/

namespace Subst
variable (R : Reading V) (T : Contents V) (s : Subst)

/-- The valuation in which the variables of a substitution have the values of what is put for them. -/
def valuation (ρ : Valuation V) : Valuation V := fun x =>
  ((List.find? (·.1.id == x) s).map (·.2.value R T ρ)).getD (ρ x)

/-- A substitution can be carried out in an expression: no variable that the expression binds is
    replaced or occurs in what is put, no variable of a combiner or of the domain of an axis is
    replaced, and what is put for a variable has its type. -/
structure Safe (e : Expr) : Prop where
  binders : ∀ x ∈ e.boundVars, ∀ p ∈ s, x ≠ p.1.id ∧ x ∉ p.2.freeIds
  fixed : ∀ x ∈ e.opaqueVars, ∀ p ∈ s, x ≠ p.1.id
  typed : ∀ v ∈ e.vars, ∀ r, s.find? v = some r → r.dtype = v.dtype

variable {R T s} {ρ : Valuation V}

theorem Safe.part {e a : Expr} (h : s.Safe e) (ha : a ∈ e.parts) : s.Safe a where
  binders x hx := h.binders x (Expr.boundVars_subset ha hx)
  fixed x hx := h.fixed x (Expr.opaqueVars_subset ha hx)
  typed v hv := h.typed v (Expr.vars_subset ha hv)

theorem valuation_of_not_mem {x : Nat} (h : ∀ p ∈ s, x ≠ p.1.id) : s.valuation R T ρ x = ρ x := by
  have hnone : List.find? (·.1.id == x) s = none :=
    List.find?_eq_none.mpr fun p hp => by simpa using (h p hp).symm
  simp [valuation, hnone]

/-- Variables that a substitution neither replaces nor puts can be given their values after it. -/
theorem valuation_assign {vs : List Var}
    (h : ∀ v ∈ vs, ∀ p ∈ s, v.id ≠ p.1.id ∧ v.id ∉ p.2.freeIds) (xs : List V) :
    s.valuation R T (ρ.assign vs xs) = (s.valuation R T ρ).assign vs xs := by
  funext x
  by_cases hx : x ∈ vs.map (·.id)
  · obtain ⟨v, hv, rfl⟩ := List.mem_map.mp hx
    rw [valuation_of_not_mem fun p hp => (h v hv p hp).1]
    exact Valuation.assign_congr (fun hn => absurd hx hn) xs
  · rw [Valuation.assign_of_not_mem hx]
    unfold valuation
    cases hf : List.find? (·.1.id == x) s with
    | none => exact Valuation.assign_of_not_mem hx ρ xs
    | some p =>
      refine Expr.value_congr (fun _ _ => rfl) fun y hy => Valuation.assign_of_not_mem ?_ ρ xs
      rintro hmem
      obtain ⟨v, hv, rfl⟩ := List.mem_map.mp hmem
      exact (h v hv p (List.mem_of_find?_eq_some hf)).2 hy

/-- Putting expressions for as many variables gives these the values of the expressions. -/
theorem valuation_ofList_zip {vs : List Var} {args : List Expr} (h : vs.length = args.length)
    (ρ : Valuation V) :
    (Subst.ofList (vs.zip args)).valuation R T ρ = ρ.assign vs (args.map (·.value R T ρ)) := by
  -- Values are taken in `ρ` throughout, while the variables are assigned one by one.
  suffices ∀ σ : Valuation V, (fun x => ((List.find? (·.1.id == x) (vs.zip args).reverse).map
      (·.2.value R T ρ)).getD (σ x)) = σ.assign vs (args.map (·.value R T ρ)) from this ρ
  induction vs generalizing args with
  | nil => intro σ; rfl
  | cons v vs ih =>
    intro σ
    obtain _ | ⟨a, args⟩ := args
    · cases h
    rw [Valuation.assign, List.map_cons, List.headD_cons, List.tail_cons, ← ih (by simpa using h)]
    funext x
    rw [List.zip_cons_cons, List.reverse_cons, List.find?_append]
    cases List.find? (·.1.id == x) (vs.zip args).reverse with
    | some p => rfl
    | none =>
      by_cases hx : v.id = x
      · simp [hx]
      · simp [hx, Function.update_of_ne (Ne.symm hx)]

end Subst

namespace Expr
variable {R : Reading V} {T : Contents V}

/-- Substitution is valuation. -/
theorem value_subst {s : Subst} {e : Expr} (h : s.Safe e) (ρ : Valuation V) :
    (e.subst s).value R T ρ = e.value R T (s.valuation R T ρ) := by
  induction e generalizing ρ with
  | var v =>
    rw [subst, Subst.find?, value, Subst.valuation]
    cases List.find? (·.1.id == v.id) s <;> rfl
  | const | str => rfl
  | cast t a ih => exact congrArg (R.cast t) (ih (h.part (by simp [parts])) ρ)
  | bin op a b iha ihb =>
    have ha := h.part (a := a) (by simp [parts])
    rw [subst, value, value, dtype_subst ha.typed, iha ha, ihb (h.part (by simp [parts]))]
  | not a ih => exact congrArg R.negate (ih (h.part (by simp [parts])) ρ)
  | select c t f ihc iht ihf =>
    have ht := h.part (a := t) (by simp [parts])
    rw [subst, value, value, dtype_subst ht.typed, ihc (h.part (by simp [parts])), iht ht,
      ihf (h.part (by simp [parts]))]
  | call t name args kind func index ih =>
    rw [subst, value, value, subst_onList, value_ofList, value_ofList, List.map_map]
    congr 1
    exact List.map_congr_left fun a ha => ih a ha (h.part ha) ρ
  | bind v a body iha ihb =>
    rw [subst, value, value, iha (h.part (by simp [parts])),
      ihb (h.part (by simp [parts])), Subst.valuation_assign]
    intro w hw p hp
    refine h.binders w.id (mem_boundVars.mpr ⟨_, head_mem_heads _, ?_⟩) p hp
    simpa [head, Head.binders] using congrArg Var.id (List.mem_singleton.mp hw)
  | load t buffer index pred ihb ihi ihp =>
    rw [subst, value, value, ihb (h.part (by simp [parts])),
      ihi (h.part (by simp [parts]))]
    cases pred with
    | none => rfl
    | some p =>
      rw [subst.onOption, value.ofOption, value.ofOption, ihp p rfl (h.part (by simp [parts]))]
  | ramp base stride lanes ihb ihs =>
    have hb := h.part (a := base) (by simp [parts])
    rw [subst, value, value, dtype_subst hb.typed, ihb hb, ihs (h.part (by simp [parts]))]
  | broadcast a lanes ih =>
    have ha := h.part (a := a) (by simp [parts])
    rw [subst, value, value, dtype_subst ha.typed, ih ha]
  | reduce c sources axes cond index _ _ ihs _ ihc =>
    have fixed : ∀ x ∈ (Head.reduce c axes).opaqueVars, ∀ p ∈ s, x ≠ p.1.id := fun x hx =>
      h.fixed x (opaqueVars_head hx)
    have inside : ∀ p, s.valuation R T (ρ.assign (axes.map (·.var)) p) =
        (s.valuation R T ρ).assign (axes.map (·.var)) p := by
      refine Subst.valuation_assign fun v hv p hp => ?_
      refine h.binders v.id (mem_boundVars.mpr ⟨_, head_mem_heads _, ?_⟩) p hp
      obtain ⟨iv, hiv, rfl⟩ := List.mem_map.mp hv
      exact List.mem_map_of_mem hiv
    simp only [Head.opaqueVars, List.forall_mem_append] at fixed
    rw [subst]
    refine value_reduce_congr ?_ ?_ (fun p _ => ?_) (fun p _ => ?_) (fun p _ acc xs => ?_)
    · exact start_eq fun x hx => (Subst.valuation_of_not_mem (fixed.1.1 x hx)).symm
    · exact domains_eq fun x hx => (Subst.valuation_of_not_mem (fixed.2 x hx)).symm
    · rw [← inside]
      cases cond with
      | none => rfl
      | some e =>
        rw [subst.onOption, value.ofOption, value.ofOption, ihc e rfl (h.part (by simp [parts]))]
    · rw [← inside, subst_onList, value_ofList, value_ofList, List.map_map]
      exact List.map_congr_left fun e he => ihs e he (h.part (List.mem_append_left _ he)) _
    · rw [← inside]
      exact combine_eq (fun x hx => (Subst.valuation_of_not_mem (fixed.1.2 x hx)).symm) acc xs

/-- A free variable of the result is one that is not replaced, or one of the expressions put. -/
theorem mem_freeIds_subst {s : Subst} {e : Expr} {x : Nat}
    (hfix : ∀ y ∈ e.opaqueVars, ∀ p ∈ s, y ≠ p.1.id) (h : x ∈ (e.subst s).freeIds) :
    (x ∈ e.freeIds ∧ ∀ p ∈ s, x ≠ p.1.id) ∨ ∃ p ∈ s, x ∈ p.2.freeIds := by
  induction e with
  | var v =>
    cases hf : s.find? v with
    | none =>
      have hnot := List.find?_eq_none.mp (Option.map_eq_none_iff.mp hf)
      simp only [subst, hf, Option.getD_none, freeIds, List.mem_singleton] at h
      subst h
      exact Or.inl ⟨by simp [freeIds], fun p hp => by simpa using (fun he => hnot p hp (by simpa using he.symm))⟩
    | some a =>
      obtain ⟨p, hp, rfl⟩ := Option.map_eq_some_iff.mp hf
      exact Or.inr ⟨p, List.mem_of_find?_eq_some hp, by simpa [subst, hf] using h⟩
  | const | str => simp [subst, freeIds] at h
  | call t name args kind func index ih =>
    simp only [subst, subst_onList, freeIds, mem_freeIds_ofList, List.mem_map] at h ⊢
    obtain ⟨_, ⟨a, ha, rfl⟩, h⟩ := h
    have := ih a ha (fun y hy => hfix y (opaqueVars_subset ha hy)) h
    grind
  | bind v a body iha ihb =>
    simp only [subst, freeIds, List.mem_append, List.mem_filter] at h ⊢
    have := iha (fun y hy => hfix y (opaqueVars_subset (by simp [parts]) hy))
    have := ihb (fun y hy => hfix y (opaqueVars_subset (by simp [parts]) hy))
    grind
  | load t buffer index pred ihb ihi ihp =>
    simp only [subst, subst_onOption, freeIds, List.mem_append, mem_freeIds_ofOption,
      Option.mem_def, Option.map_eq_some_iff] at h ihp ⊢
    have := ihb (fun y hy => hfix y (opaqueVars_subset (by simp [parts]) hy))
    have := ihi (fun y hy => hfix y (opaqueVars_subset (by simp [parts]) hy))
    have := fun p hp => ihp p hp (fun y hy => hfix y (opaqueVars_subset (by simp [parts, hp]) hy))
    grind
  | reduce c sources axes cond index _ _ ihs _ ihc =>
    have hown : ∀ y ∈ (Head.reduce c axes).opaqueVars, ∀ p ∈ s, y ≠ p.1.id := fun y hy =>
      hfix y (opaqueVars_head hy)
    simp only [Head.opaqueVars, List.forall_mem_append] at hown
    simp only [subst, subst_onList, subst_onOption, freeIds, List.mem_append, List.mem_filter,
      mem_freeIds_ofList, mem_freeIds_ofOption, Option.mem_def, Option.map_eq_some_iff,
      List.mem_map] at h ihc ⊢
    have := fun e he => ihs e he (fun y hy => hfix y (opaqueVars_subset (by simp [parts, he]) hy))
    have := fun e he => ihc e he (fun y hy => hfix y (opaqueVars_subset (by simp [parts, he]) hy))
    grind
  | _ =>
    have hparts := fun a ha y hy => hfix y (opaqueVars_subset (a := a) ha hy)
    simp only [parts] at hparts
    simp only [subst, freeIds, List.mem_append] at h ⊢
    grind

end Expr

end TensorNest

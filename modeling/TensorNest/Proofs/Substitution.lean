import TensorNest.Proofs.Evaluation
import TensorNest.Proofs.Partitions

/-! # Substitution

An expression in which expressions have been put for variables is related to the expression before it. Its free
variables are those that are not replaced and those of what is put for the others (`Expr.mem_freeIds_substituted`,
`Stmt.mem_freeIds_substituted`). Its value is the one that the expression has in an environment in which the variables
that are replaced have the values of what is put for them (`Expr.sameRun_eval`). Both hold as long as the substitution
leaves the variables that are bound inside (`Subst.Leaves`).

What is put for a variable is evaluated at each place where the variable stands, and perhaps never, where the
environment has its value once and for all: it has to be steady, so that it does not matter when it is evaluated
(`Subst.Steady`). The two runs are the same but for the texts of some errors, which name the variable of a buffer or
print an operand (`Subst.SameError`). -/

namespace TensorNest

namespace Subst

variable {σ : Subst} {x : Nat} {p q S : Nat → Prop}

/-- What is put for a variable, by its number. -/
def put? (σ : Subst) (x : Nat) : Option Expr :=
  (List.find? (fun p => p.1.id == x) σ).map (·.2)

theorem find?_eq_put? (σ : Subst) (v : Var) : σ.find? v = σ.put? v.id := rfl

theorem put?_single {v : Var} {a r : Expr} : put? [(v, a)] x = some r ↔ x = v.id ∧ r = a := by
  by_cases hx : v.id = x
  · simp [put?, hx, eq_comm]
  · simp [put?, hx, Ne.symm hx]

/-- A variable is neither replaced nor free in what is put for another one. -/
structure Leaves (σ : Subst) (x : Nat) : Prop where
  kept : σ.put? x = none
  unused : ∀ y r, σ.put? y = some r → x ∉ r.freeIds

theorem leaves_single {v : Var} {a : Expr} (hx : x ≠ v.id) (ha : x ∉ a.freeIds) : Leaves [(v, a)] x where
  kept := Option.eq_none_iff_forall_ne_some.mpr fun _ hr => hx (put?_single.mp hr).1
  unused _ _ hr := (put?_single.mp hr).2 ▸ ha

/-! ### Free variables -/

/-- A variable is free once a substitution has been carried out where some variables are free: it is one of them and is not
    replaced, or it is free in what is put for one of them. -/
def FreeAfter (σ : Subst) (p : Nat → Prop) (x : Nat) : Prop :=
  (p x ∧ σ.put? x = none) ∨ ∃ y, p y ∧ ∃ r, σ.put? y = some r ∧ x ∈ r.freeIds

theorem freeAfter_or : σ.FreeAfter (fun x => p x ∨ q x) x ↔ σ.FreeAfter p x ∨ σ.FreeAfter q x := by
  simp only [FreeAfter, or_and_right, exists_or]
  exact or_or_or_comm

theorem freeAfter_exists {α : Type} {c : α → Prop} {p : α → Nat → Prop} :
    σ.FreeAfter (fun x => ∃ a, c a ∧ p a x) x ↔ ∃ a, c a ∧ σ.FreeAfter (p a) x := by
  constructor
  · rintro (⟨⟨a, ha, hx⟩, hput⟩ | ⟨y, ⟨a, ha, hy⟩, hr⟩)
    · exact ⟨a, ha, .inl ⟨hx, hput⟩⟩
    · exact ⟨a, ha, .inr ⟨y, hy, hr⟩⟩
  · rintro ⟨a, ha, ⟨hx, hput⟩ | ⟨y, hy, hr⟩⟩
    · exact .inl ⟨⟨a, ha, hx⟩, hput⟩
    · exact .inr ⟨y, ⟨a, ha, hy⟩, hr⟩

/-- Variables that a substitution leaves can be bound after it. -/
theorem freeAfter_and_not (hS : ∀ x, S x → σ.Leaves x) : σ.FreeAfter (fun x => p x ∧ ¬S x) x ↔ σ.FreeAfter p x ∧ ¬S x := by
  constructor
  · rintro (⟨⟨hx, hnot⟩, hput⟩ | ⟨y, ⟨hy, -⟩, r, hr, hx⟩)
    · exact ⟨.inl ⟨hx, hput⟩, hnot⟩
    · exact ⟨.inr ⟨y, hy, r, hr, hx⟩, fun hSx => (hS x hSx).unused y r hr hx⟩
  · rintro ⟨⟨hx, hput⟩ | ⟨y, hy, r, hr, hx⟩, hnot⟩
    · exact .inl ⟨⟨hx, hnot⟩, hput⟩
    · exact .inr ⟨y, ⟨hy, fun hSy => nomatch (hS y hSy).kept.symm.trans hr⟩, r, hr, hx⟩

theorem freeAfter_of_kept (hp : ∀ x, p x → σ.put? x = none) : σ.FreeAfter p x ↔ p x := by
  constructor
  · rintro (⟨hx, -⟩ | ⟨y, hy, r, hr, -⟩)
    · exact hx
    · exact nomatch (hp y hy).symm.trans hr
  · exact fun hx => .inl ⟨hx, hp x hx⟩

/-- A substitution captures no variable in an expression, and replaces none that occurs in a combiner or in the domain of an
    axis, where it does not go. -/
structure Clear (σ : Subst) (e : Expr) : Prop where
  bound : ∀ x ∈ e.boundVars, σ.Leaves x
  hidden : ∀ x ∈ e.opaqueVars, σ.put? x = none

theorem Clear.part {e a : Expr} (h : σ.Clear e) (ha : a ∈ e.parts) : σ.Clear a where
  bound x hx := h.bound x (Expr.boundVars_subset ha hx)
  hidden x hx := h.hidden x (Expr.opaqueVars_subset ha hx)

end Subst

namespace Expr

variable {σ : Subst} {e : Expr} {x : Nat}

/-- The free variables of an expression after a substitution. -/
theorem mem_freeIds_substituted (h : σ.Clear e) : x ∈ (e.subst σ).freeIds ↔ σ.FreeAfter (· ∈ e.freeIds) x := by
  induction e generalizing x with
  | var v =>
    simp only [subst, Subst.find?_eq_put?, freeIds, List.mem_singleton, Subst.FreeAfter, exists_eq_left]
    cases hput : σ.put? v.id with
    | none => simp only [Option.getD_none, freeIds, List.mem_singleton]; grind
    | some a => simp only [Option.getD_some, Option.some.injEq, exists_eq_left']; grind
  | const | str => simp [subst, freeIds, Subst.FreeAfter]
  | call t name args kind func index ih =>
    simp only [subst, subst_onList, freeIds, mem_freeIds_ofList, List.mem_map, exists_exists_and_eq_and,
      Subst.freeAfter_exists]
    exact exists_congr fun a => and_congr_right fun ha => ih a ha (h.part ha)
  | bind v a body iha ihb =>
    have hv : σ.Leaves v.id := h.bound v.id (mem_boundVars.mpr ⟨_, head_mem_heads _, List.mem_singleton_self _⟩)
    simp only [subst, freeIds, List.mem_append, List.mem_filter, decide_eq_true_eq, Subst.freeAfter_or,
      iha (h.part (by simp [parts])), ihb (h.part (by simp [parts]))]
    rw [Subst.freeAfter_and_not]
    rintro x rfl
    exact hv
  | load t buffer index pred ihb ihi ihp =>
    simp only [subst, subst_onOption, freeIds, List.mem_append, mem_freeIds_ofOption, Subst.freeAfter_or,
      Subst.freeAfter_exists,
      ihb (h.part (by simp [parts])), ihi (h.part (by simp [parts]))]
    refine or_congr_right ?_
    cases pred with
    | none => simp
    | some p => simpa using ihp p rfl (h.part (by simp [parts]))
  | reduce c sources axes cond index _ _ ihs _ ihc =>
    have haxes : ∀ y, (∃ iv ∈ axes, iv.id = y) → σ.Leaves y := fun y hy =>
      h.bound y (mem_boundVars.mpr ⟨_, head_mem_heads _, List.mem_map.mpr hy⟩)
    have hown : ∀ y ∈ (Head.reduce c axes).opaqueVars, σ.put? y = none := fun y hy => h.hidden y (opaqueVars_head hy)
    simp only [Head.opaqueVars, List.forall_mem_append] at hown
    obtain ⟨⟨hidentity, hresult⟩, hdomains⟩ := hown
    have hparts : ∀ a ∈ sources ++ cond.toList, x ∈ (a.subst σ).freeIds ↔ σ.FreeAfter (· ∈ a.freeIds) x := by
      intro a ha
      rcases List.mem_append.mp ha with hmem | hmem
      · exact ihs a hmem (h.part ha)
      · exact ihc a (Option.mem_toList.mp hmem) (h.part ha)
    have hmap : (sources ++ cond.toList).map (·.subst σ) = sources.map (·.subst σ) ++ (cond.map (·.subst σ)).toList := by
      cases cond <;> simp
    simp only [subst, subst_onList, subst_onOption, mem_freeIds_reduce, ← hmap, List.mem_map, exists_exists_and_eq_and,
      Subst.freeAfter_or]
    rw [Subst.freeAfter_of_kept hidentity, Subst.freeAfter_of_kept hdomains, Subst.freeAfter_and_not haxes,
      Subst.freeAfter_or,
      Subst.freeAfter_of_kept hresult, Subst.freeAfter_exists]
    exact or_congr_right (and_congr_left' (or_congr_right (exists_congr fun a => and_congr_right fun ha => hparts a ha)))
  | cast _ a ih | not a ih | broadcast a _ ih => exact ih (h.part (by simp [parts]))
  | bin _ a b iha ihb | ramp a b _ iha ihb =>
    simp only [subst, freeIds, List.mem_append, Subst.freeAfter_or, iha (h.part (by simp [parts])),
      ihb (h.part (by simp [parts]))]
  | select c a b ihc iha ihb =>
    simp only [subst, freeIds, List.mem_append, Subst.freeAfter_or, ihc (h.part (by simp [parts])),
      iha (h.part (by simp [parts])),
      ihb (h.part (by simp [parts]))]

end Expr

namespace Stmt

variable {σ : Subst} {s : Stmt} {x : Nat}

/-- The free variables of a statement after a substitution. -/
theorem mem_freeIds_substituted (hbound : ∀ y ∈ s.boundIds, σ.Leaves y) (hhidden : ∀ y ∈ s.opaqueIds, σ.put? y = none) :
    x ∈ (s.subst σ).freeIds ↔ σ.FreeAfter (· ∈ s.freeIds) x := by
  induction s using induct_bodies generalizing x with
  | step s ih =>
    have hparts : ∀ e ∈ s.exprParts, x ∈ (e.subst σ).freeIds ↔ σ.FreeAfter (· ∈ e.freeIds) x := fun e he =>
      Expr.mem_freeIds_substituted ⟨fun y hy => hbound y (mem_boundIds.mpr (.inr (.inr (List.mem_flatMap.mpr ⟨e, he,
        hy⟩)))),
        fun y hy => hhidden y (mem_opaqueIds.mpr (.inr (List.mem_flatMap.mpr ⟨e, he, hy⟩)))⟩
    have hbodies : ∀ b ∈ s.bodies, x ∈ (b.subst σ).freeIds ↔ σ.FreeAfter (· ∈ b.freeIds) x := fun b hb =>
      ih b hb (fun y hy => hbound y (mem_boundIds.mpr (.inl ⟨b, hb, hy⟩)))
        fun y hy => hhidden y (mem_opaqueIds.mpr (.inl ⟨b, hb, hy⟩))
    have hbinder : ∀ y, (∃ v ∈ s.binder?, y = v.id) → σ.Leaves y := by
      rintro _ ⟨v, hv, rfl⟩
      exact hbound v.id (mem_boundIds.mpr (.inr (.inl (List.mem_map.mpr ⟨v, Option.mem_toList.mpr hv, rfl⟩))))
    have hnot (y : Nat) : (∀ v ∈ s.binder?, y ≠ v.id) ↔ ¬∃ v ∈ s.binder?, y = v.id := by simp
    obtain ⟨hexprs, hbinds, -⟩ := subst_parts σ s
    simp only [mem_freeIds (s := s), mem_freeIds (s := s.subst σ), hexprs, hbinds, bodies_subst, List.mem_map,
      exists_exists_and_eq_and, Subst.freeAfter_or, hnot]
    rw [Subst.freeAfter_and_not hbinder, Subst.freeAfter_exists, Subst.freeAfter_exists]
    exact or_congr (exists_congr fun e => and_congr_right (hparts e))
      (and_congr_left' (exists_congr fun b => and_congr_right (hbodies b)))

end Stmt

/-! ### Environments -/

namespace Subst

variable {σ : Subst} {f : Frame} {ρ env env' : Env} {v : Var} {a : Value} {x : Nat}

/-- An environment in which the variables that a substitution replaces have the values that what is put for them has in
    another one, and the others the values that they have there. What is put reads no memory and has its value on every
    machine. -/
structure Rebinds (σ : Subst) (f : Frame) (env env' : Env) : Prop where
  rest : ∀ x, σ.put? x = none → env'.lookup x = env.lookup x
  put : ∀ x r, σ.put? x = some r → r.hasLoad = false ∧ ∃ a, r.eval f env = pure a ∧ env'.lookup x = some a

/-- What is put reads no memory and has its value without an error, whatever the memory is. -/
def Steady (σ : Subst) (f : Frame) (env : Env) : Prop :=
  ∀ x r, σ.put? x = some r → r.hasLoad = false ∧ ∃ a, r.eval f env = pure a

theorem steady_single {v : Var} {r : Expr} (hload : r.hasLoad = false) (heval : ∃ a, r.eval f env = pure a) :
    Steady [(v, r)] f env := by
  intro x r' hr
  obtain ⟨-, rfl⟩ := put?_single.mp hr
  exact ⟨hload, heval⟩

/-- An environment updated with the values that what is put has there. What comes first in a substitution is put, so
    that it is the last to be set. -/
def update (σ : Subst) (f : Frame) (env : Env) : Env :=
  σ.foldr (fun p env' => match ((p.2.eval f env).on default).1 with
    | .ok a => env'.set p.1 a
    | .error _ => env') env

theorem lookup_update (h : ∀ r, σ.put? x = some r → ∃ a, r.eval f env = pure a) :
    (∀ r a, σ.put? x = some r → r.eval f env = pure a → (σ.update f env).lookup x = some a) ∧
      (σ.put? x = none → (σ.update f env).lookup x = env.lookup x) := by
  induction σ with
  | nil => exact ⟨nofun, fun _ => rfl⟩
  | cons p σ ih =>
    by_cases hp : p.1.id = x
    · have hput : put? (p :: σ) x = some p.2 := by simp [put?, hp]
      obtain ⟨a, heval⟩ := h p.2 hput
      have hupdate : update (p :: σ) f env = (update σ f env).set p.1 a := by
        rw [update, List.foldr_cons, heval]
        rfl
      rw [hput, hupdate, ← hp, Env.lookup_set_self]
      refine ⟨fun r b hr hb => ?_, nofun⟩
      obtain rfl := Option.some.inj hr
      exact congrArg (fun z : Run Value => (z.on default).1.toOption) (heval.symm.trans hb)
    · have hput : put? (p :: σ) x = put? σ x := by simp [put?, hp]
      have hupdate : (update (p :: σ) f env).lookup x = (update σ f env).lookup x := by
        rw [update, List.foldr_cons]
        split
        · exact Env.lookup_set (Ne.symm hp)
        · rfl
      rw [hput] at h ⊢
      rw [hupdate]
      exact ih h

theorem Steady.rebinds (h : σ.Steady f env) : σ.Rebinds f env (σ.update f env) where
  rest x hx := (lookup_update fun r hr => (h x r hr).2).2 hx
  put x r hr := by
    obtain ⟨hload, a, heval⟩ := h x r hr
    exact ⟨hload, a, heval, (lookup_update fun r hr => (h x r hr).2).1 r a hr heval⟩

/-- Such an environment, with given values of the variables that are replaced. -/
structure RebindsTo (σ : Subst) (f : Frame) (ρ env env' : Env) : Prop extends σ.Rebinds f env env' where
  fixed : ∀ x r, σ.put? x = some r → env'.lookup x = ρ.lookup x

theorem Rebinds.rebindsTo (h : σ.Rebinds f env env') : σ.RebindsTo f env' env env' where
  toRebinds := h
  fixed _ _ _ := rfl

/-- What is put keeps its value where a variable changes that the substitution leaves. -/
theorem Rebinds.change {env₁ env₁' : Env} (h : σ.Rebinds f env env') (hx : σ.Leaves x)
    (hsame : env₁'.lookup x = env₁.lookup x)
    (hother : ∀ y, y ≠ x → env₁.lookup y = env.lookup y) (hother' : ∀ y, y ≠ x → env₁'.lookup y = env'.lookup y) :
    σ.Rebinds f env₁ env₁' where
  rest y hy := by
    by_cases heq : y = x
    · rw [heq, hsame]
    · rw [hother y heq, hother' y heq, h.rest y hy]
  put y r hr := by
    obtain ⟨hload, a, heval, hlookup⟩ := h.put y r hr
    have hne : y ≠ x := fun heq => nomatch (heq ▸ hx.kept).symm.trans hr
    have hagree : ∀ z ∈ r.freeIds, env₁.Agree (f.missing ≠ f.missing) env z := fun z hz =>
      ⟨hother z fun heq => hx.unused y r hr (heq ▸ hz), fun hD => absurd rfl hD⟩
    exact ⟨hload, a, (Expr.eval_alike (c := f.coords) hagree).1.trans heval, (hother' y hne).trans hlookup⟩

theorem RebindsTo.set (h : σ.RebindsTo f ρ env env') (hv : σ.Leaves v.id) :
    σ.RebindsTo f ρ (env.set v a) (env'.set v a) where
  toRebinds := h.toRebinds.change hv (Env.lookup_set_self.trans Env.lookup_set_self.symm) (fun _ => Env.lookup_set)
    fun _ => Env.lookup_set
  fixed x r hr := (Env.lookup_set fun heq => nomatch (heq ▸ hv.kept).symm.trans hr).trans (h.fixed x r hr)

theorem RebindsTo.erase (h : σ.RebindsTo f ρ env env') (hv : σ.Leaves v.id) :
    σ.RebindsTo f ρ (env.erase v) (env'.erase v) where
  toRebinds := h.toRebinds.change hv (Env.lookup_erase_self.trans Env.lookup_erase_self.symm) (fun _ => Env.lookup_erase)
    fun _ => Env.lookup_erase
  fixed x r hr := (Env.lookup_erase fun heq => nomatch (heq ▸ hv.kept).symm.trans hr).trans (h.fixed x r hr)

end Subst

/-! ### Runs of the same -/

namespace Subst

variable {α β : Type} {σ : Subst} {f : Frame} {ρ env env' : Env}

/-- Errors of something and of what it becomes by a substitution: they are the same but for what their texts say of a
    buffer or of an operand. -/
inductive SameError (σ : Subst) (f : Frame) : Error → Error → Prop
  | refl (e : Error) : SameError σ f e e
  | unbound (b : Expr) :
    SameError σ f (f.failure (b.bufferName ++ " is not bound to a buffer"))
      (f.failure ((b.subst σ).bufferName ++ " is not bound to a buffer"))
  | outside (b : Expr) (index size : String) :
    SameError σ f (f.failure ("index " ++ index ++ " is out of bounds of " ++ b.bufferName ++ " of size " ++ size))
      (f.failure ("index " ++ index ++ " is out of bounds of " ++ (b.subst σ).bufferName ++ " of size " ++ size))
  | address (a : Expr) :
    SameError σ f (.assertion ("address of a non load: " ++ a.text))
      (.assertion ("address of a non load: " ++ (a.subst σ).text))

/-- Results of something and of what it becomes by a substitution. -/
inductive SameResult (σ : Subst) (f : Frame) : Except Error α → Except Error α → Prop
  | ok (a : α) : SameResult σ f (.ok a) (.ok a)
  | error {e e' : Error} (h : σ.SameError f e e') : SameResult σ f (.error e) (.error e')

theorem SameResult.refl (z : Except Error α) : σ.SameResult f z z := by
  cases z with
  | error e => exact .error (.refl e)
  | ok a => exact .ok a

/-- Runs that do the same to every machine and have the same result. -/
def SameRun (σ : Subst) (f : Frame) (x y : Run α) : Prop :=
  ∀ m, σ.SameResult f (x.on m).1 (y.on m).1 ∧ (x.on m).2 = (y.on m).2

theorem SameRun.refl (x : Run α) : σ.SameRun f x x := fun _ => ⟨.refl _, rfl⟩

theorem SameRun.bind {x y : Run α} {k k' : α → Run β} (h : σ.SameRun f x y) (hk : ∀ a, σ.SameRun f (k a) (k' a)) :
    σ.SameRun f (x >>= k) (y >>= k') := by
  intro m
  rw [Run.on_bind, Run.on_bind]
  obtain ⟨hresult, hmachine⟩ := h m
  generalize x.on m = p at hresult hmachine
  generalize y.on m = q at hresult hmachine
  obtain ⟨r, m₁⟩ := p
  obtain ⟨r', m₁'⟩ := q
  obtain rfl : m₁ = m₁' := hmachine
  cases hresult with
  | error he => exact ⟨.error he, rfl⟩
  | ok a => exact hk a m₁

theorem SameRun.then {x : Run α} {k k' : α → Run β} (hk : ∀ a, σ.SameRun f (k a) (k' a)) :
    σ.SameRun f (x >>= k) (x >>= k') :=
  (SameRun.refl x).bind hk

theorem sameRun_lift {z z' : Except Error α} (h : σ.SameResult f z z') : σ.SameRun f (liftM z) (liftM z') := by
  cases h with
  | error he => exact fun _ => ⟨.error he, rfl⟩
  | ok a => exact .refl _

/-! Buffers. -/

/-- A variable that has a value on every machine is bound to it. -/
theorem get?_of_eval {v : Var} {a : Value} (h : (Expr.var v).eval f env = pure a) : env.get? v = some a := by
  have hresult := congrArg (fun x : Run Value => (x.on default).1) h
  cases hget : env.get? v with
  | none =>
    simp only [Expr.eval, hget] at hresult
    cases hresult
  | some b =>
    simp only [Expr.eval, hget] at hresult
    exact congrArg some (Except.ok.inj hresult)

/-- A variable can stand as a buffer before a substitution: what is put for it is a variable, if its value is an array. -/
def Buffer (σ : Subst) (ρ : Env) (v : Var) : Prop :=
  ∀ r, σ.put? v.id = some r → (∃ w, r = .var w) ∨ ∀ a, ρ.get? v ≠ some (.array a)

theorem sameResult_buffer {b : Expr} (henv : σ.RebindsTo f ρ env env') (hb : ∀ v, b = .var v → σ.Buffer ρ v) :
    σ.SameResult f (f.buffer env' b) (f.buffer env (b.subst σ)) := by
  cases b with
  | var v =>
    have herror := SameError.unbound (σ := σ) (f := f) (.var v)
    cases hput : σ.put? v.id with
    | none =>
      have hget : env'.get? v = env.get? v := henv.rest v.id hput
      have hsubst : (Expr.var v).subst σ = .var v := by rw [Expr.subst, find?_eq_put?, hput]; rfl
      have hsame : f.buffer env' (.var v) = f.buffer env (.var v) := by simp only [Frame.buffer, hget]
      rw [hsubst, hsame]
      exact .refl _
    | some r =>
      have hsubst : (Expr.var v).subst σ = r := by rw [Expr.subst, find?_eq_put?, hput]; rfl
      rw [hsubst] at herror ⊢
      obtain ⟨-, a, heval, hlookup⟩ := henv.put v.id r hput
      have hget : env'.get? v = some a := hlookup
      cases r with
      | var w =>
        have hget' : env.get? w = some a := get?_of_eval heval
        cases a <;> simp only [Frame.buffer, hget, hget'] <;> first | exact .ok _ | exact .error herror
      | _ =>
        have harray : ∀ w, a ≠ .array w := by
          intro w haw
          obtain ⟨w', hw'⟩ | hno := hb v rfl _ hput
          · cases hw'
          · exact hno w ((henv.fixed v.id _ hput).symm.trans (haw ▸ hlookup))
        cases a with
        | array w => exact absurd rfl (harray w)
        | _ =>
          simp only [Frame.buffer, hget]
          exact .error herror
  | _ => exact .error (.unbound _)

/-- An index is checked alike, with a text for the buffer of each run. -/
theorem sameResult_checkIndex (b : Expr) (a : View) (i : Numeric) :
    σ.SameResult f (f.checkIndex b a i) (f.checkIndex (b.subst σ) a i) := by
  unfold Frame.checkIndex
  split
  · rename_i x _
    cases x.toInt with
    | error e => exact .refl _
    | ok n => exact .error (.outside b (toString n) (toString a.size))
  · exact .refl _

theorem sameRun_loadFrom (b : Expr) (a : View) (i : Value) (mask : Option Value) :
    σ.SameRun f (loadFrom f b a i mask) (loadFrom f (b.subst σ) a i mask) := by
  refine SameRun.then fun i => ?_
  have hload (i : Numeric) : σ.SameRun f (do f.checkIndex b a i; loadAt a i)
    (do f.checkIndex (b.subst σ) a i; loadAt a i) :=
    (sameRun_lift (sameResult_checkIndex b a i)).bind fun _ => .refl _
  cases mask with
  | none => exact hload i
  | some p => exact .then fun _ => .then fun i => hload i

theorem sameRun_storeTo (b : Expr) (a : View) (i x : Value) (mask : Option Value) :
    σ.SameRun f (storeTo f b a i x mask) (storeTo f (b.subst σ) a i x mask) := by
  refine SameRun.then fun i => ?_
  cases mask with
  | none => exact (sameRun_lift (sameResult_checkIndex b a i)).bind fun _ => .refl _
  | some p =>
    exact .then fun p => .then fun x => .then fun z => (sameRun_lift (sameResult_checkIndex b a z.1)).bind fun _ => .refl _

end Subst

/-! ### Values -/

namespace Subst

/-- A substitution can be carried out before an expression is evaluated: it captures no variable, what is put has the
    type of the variable, and a variable that stands as a buffer can do so. -/
structure Suits (σ : Subst) (ρ : Env) (e : Expr) : Prop where
  bound : ∀ x ∈ e.boundVars, σ.Leaves x
  typed : ∀ v ∈ e.vars, ∀ r, σ.put? v.id = some r → r.dtype = v.dtype
  buffers : ∀ t v i p, .load t (.var v) i p ∈ e.postorder → σ.Buffer ρ v

theorem Suits.part {σ : Subst} {ρ : Env} {e a : Expr} (h : σ.Suits ρ e) (ha : a ∈ e.parts) : σ.Suits ρ a where
  bound x hx := h.bound x (Expr.boundVars_subset ha hx)
  typed v hv := h.typed v (List.filterMap_subset _ (Expr.postorder_subset ha) hv)
  buffers t v i p hmem := h.buffers t v i p (Expr.postorder_subset ha hmem)

end Subst

namespace Expr

variable {σ : Subst} {f : Frame} {ρ env env' : Env} {e : Expr}

/-! Expressions with their parts. -/

theorem sameRun_evalAll {es : List Expr} (h : ∀ e ∈ es, σ.SameRun f (e.eval f env') ((e.subst σ).eval f env)) :
    σ.SameRun f (eval.evalAll f env' es) (eval.evalAll f env (es.map (·.subst σ))) := by
  induction es with
  | nil => exact .refl _
  | cons e es ih =>
    obtain ⟨he, hes⟩ := List.forall_mem_cons.mp h
    exact he.bind fun x => (ih hes).bind fun xs => .refl _

theorem sameRun_evalMask {pred : Option Expr} (h : ∀ p ∈ pred, σ.SameRun f (p.eval f env') ((p.subst σ).eval f env)) :
    σ.SameRun f (eval.evalMask f env' pred) (eval.evalMask f env (pred.map (·.subst σ))) := by
  cases pred with
  | none => exact .refl _
  | some p => exact (h p rfl).bind fun x => .refl _

theorem sameRun_branch {es : List Expr} (h : ∀ e ∈ es, σ.SameRun f (e.eval f env') ((e.subst σ).eval f env)) :
    σ.SameRun f (eval.branch f env' es) (eval.branch f env (es.map (·.subst σ))) := by
  match es with
  | [c, a, b] =>
    refine (h c (by simp)).bind fun p => .then fun m => .then fun truth => ?_
    split
    · exact h a (by simp)
    · exact h b (by simp)
  | [] | [_] | [_, _] => exact .refl _
  | _ :: _ :: _ :: _ :: _ => exact .refl _

theorem address_of_not_load {e : Expr} (he : e.isLoad = false) (es : List Expr) :
    eval.address f env (e :: es) = throw (.assertion ("address of a non load: " ++ e.text)) := by
  cases e with
  | load => cases he
  | _ => rfl

/-- What is no load has no address. -/
theorem sameRun_address (he : e.isLoad = false) (hsubst : (e.subst σ).isLoad = false) (es es' : List Expr) :
    σ.SameRun f (eval.address f env' (e :: es)) (eval.address f env (e.subst σ :: es')) := by
  rw [address_of_not_load he, address_of_not_load hsubst]
  exact fun _ => ⟨.error (.address e), rfl⟩

/-- After a substitution an expression has the value that it has where the variables that are replaced have the values
    of what is put for them. The address of an element is part of the induction: the call that asks for it looks into
    the load below it. -/
theorem sameRun_eval (h : σ.Suits ρ e) (henv : σ.RebindsTo f ρ env env') :
    σ.SameRun f (e.eval f env') ((e.subst σ).eval f env) ∧
      ∀ es es', σ.SameRun f (eval.address f env' (e :: es)) (eval.address f env (e.subst σ :: es')) := by
  induction e generalizing env env' with
  | var v =>
    have hunmapped : (var v).subst σ = (σ.put? v.id).getD (var v) := rfl
    cases hput : σ.put? v.id with
    | none =>
      have hget : env'.get? v = env.get? v := henv.rest v.id hput
      rw [hunmapped, hput]
      refine ⟨?_, fun es es' => .refl _⟩
      simp only [Option.getD_none, eval, hget]
      exact .refl _
    | some r =>
      obtain ⟨hload, a, heval, hlookup⟩ := henv.put v.id r hput
      have hget : env'.get? v = some a := hlookup
      have hr : (var v).subst σ = r := by rw [hunmapped, hput]; rfl
      refine ⟨?_, fun es es' => ?_⟩
      · rw [hr, heval]
        simp only [eval, hget]
        exact .refl _
      · -- what is put reads no memory, so that it does not become a load either
        refine sameRun_address rfl ?_ es es'
        rw [hr]
        exact Bool.eq_false_iff.mpr fun h => Bool.eq_false_iff.mp hload (List.any_eq_true.mpr ⟨r, self_mem_postorder r, h⟩)
  | const | str | reduce => exact ⟨.refl _, sameRun_address rfl rfl⟩
  | cast t a iha =>
    exact ⟨(iha (h.part (by simp [parts])) henv).1.bind fun x => .refl _, sameRun_address rfl rfl⟩
  | bin op a b iha ihb =>
    refine ⟨?_, sameRun_address rfl rfl⟩
    have ha := h.part (a := a) (by simp [parts])
    simp only [subst, eval, dtype_subst ha.typed]
    exact (iha ha henv).1.bind fun x => (ihb (h.part (by simp [parts])) henv).1.bind fun y => .refl _
  | not a iha =>
    exact ⟨(iha (h.part (by simp [parts])) henv).1.bind fun x => .refl _, sameRun_address rfl rfl⟩
  | select c a b ihc iha ihb =>
    refine ⟨?_, sameRun_address rfl rfl⟩
    have ha := h.part (a := a) (by simp [parts])
    simp only [subst, eval, dtype_subst ha.typed]
    exact (ihc (h.part (by simp [parts])) henv).1.bind fun p => (iha ha henv).1.bind fun x =>
      (ihb (h.part (by simp [parts])) henv).1.bind fun y => .refl _
  | call t name args kind func index ih =>
    refine ⟨?_, sameRun_address rfl rfl⟩
    have hall : ∀ a ∈ args, σ.SameRun f (a.eval f env') ((a.subst σ).eval f env) := fun a ha => (ih a ha (h.part ha) henv).1
    simp only [subst, subst_onList, eval_call]
    split_ifs
    · exact .refl _
    · exact sameRun_branch hall
    · cases args with
      | nil => exact .refl _
      | cons a as => exact (ih a List.mem_cons_self (h.part List.mem_cons_self) henv).2 as _
    · exact (sameRun_evalAll hall).bind fun xs => .refl _
  | bind v a b iha ihb =>
    refine ⟨?_, sameRun_address rfl rfl⟩
    have hv : σ.Leaves v.id := h.bound v.id (mem_boundVars.mpr ⟨_, head_mem_heads _, List.mem_singleton_self _⟩)
    exact (iha (h.part (by simp [parts])) henv).1.bind fun x => .then fun y =>
      (ihb (h.part (by simp [parts])) (henv.set hv)).1
  | load t b i p ihb ihi ihp =>
    have hbuffer : σ.SameResult f (f.buffer env' b) (f.buffer env (b.subst σ)) := by
      refine Subst.sameResult_buffer henv fun v hv => ?_
      subst hv
      exact h.buffers t v i p (self_mem_postorder _)
    have hindex := (ihi (h.part (by simp [parts])) henv).1
    have hmask : σ.SameRun f (eval.evalMask f env' p) (eval.evalMask f env (p.map (·.subst σ))) :=
      sameRun_evalMask fun q hq => (ihp q hq (h.part (by simp_all [parts])) henv).1
    refine ⟨?_, fun es es' => ?_⟩
    · simp only [subst, subst_onOption, eval]
      exact (Subst.sameRun_lift hbuffer).bind fun a => hindex.bind fun i => hmask.bind fun mask =>
        (Subst.sameRun_loadFrom b a i mask).bind fun x => .refl _
    · exact (Subst.sameRun_lift hbuffer).bind fun a => hindex.bind fun i => .refl _
  | ramp a b lanes iha ihb =>
    refine ⟨?_, sameRun_address rfl rfl⟩
    have ha := h.part (a := a) (by simp [parts])
    simp only [subst, eval, dtype_subst ha.typed]
    exact (iha ha henv).1.bind fun x => (ihb (h.part (by simp [parts])) henv).1.bind fun y => .refl _
  | broadcast a lanes iha =>
    refine ⟨?_, sameRun_address rfl rfl⟩
    have ha := h.part (a := a) (by simp [parts])
    simp only [subst, eval, dtype_subst ha.typed]
    exact (iha ha henv).1.bind fun x => .refl _

end Expr

end TensorNest

import TensorNest.Proofs.Regions
import TensorNest.Proofs.Renaming

/-! # Threads that follow each other

What an expression evaluates to does not depend on the names of variables: a renamed expression has the value of the
expression where the new variable has the value of the old one (`Expr.Renames.eval_eq`). -/

namespace TensorNest

/-! ### Environments -/

/-- The variable that a variable is renamed to, by their numbers. -/
def Renaming.at (r : Renaming) (x : Nat) : Nat :=
  if x = r.old.id then r.new.id else x

theorem Renaming.at_old (r : Renaming) : r.at r.old.id = r.new.id := if_pos rfl

theorem Renaming.at_of_ne {r : Renaming} {x : Nat} (h : x ≠ r.old.id) : r.at x = x := if_neg h

/-- The variable that a variable is renamed to by renamings one after the other. -/
def Renaming.along (rs : List Renaming) (x : Nat) : Nat :=
  rs.foldl (fun x r => r.at x) x

namespace Env

variable {env ρ : Env} {g g' : Nat → Nat} {v v' : Var} {a : Value} {x : Nat}

/-- An environment has the values of another one, under other names. -/
def Carries (g : Nat → Nat) (ρ env : Env) : Prop :=
  ∀ x a, ρ.lookup x = some a → env.lookup (g x) = some a

theorem carries_self (ρ : Env) : Carries id ρ ρ := fun _ _ => id

theorem Carries.lookup (h : Carries g ρ env) (hx : ρ.Has x) : env.lookup (g x) = ρ.lookup x := by
  obtain ⟨a, ha⟩ := has_iff_lookup.mp hx
  rw [ha, h x a ha]

/-- A new variable, and the one that stands for it. -/
structure Opens (g g' : Nat → Nat) (ρ : Env) (v v' : Var) : Prop where
  fresh : ¬ρ.Has v.id
  name : g' v.id = v'.id
  other : ∀ x, ρ.Has x → g' x = g x ∧ g x ≠ v'.id

theorem opens_self (hv : ¬ρ.Has v.id) : Opens id id ρ v v :=
  ⟨hv, rfl, fun _ hx => ⟨rfl, fun heq => hv (heq ▸ hx)⟩⟩

theorem Opens.carries_set (h : Opens g g' ρ v v') (henv : Carries g ρ env) : Carries g' (ρ.set v a) (env.set v' a) := by
  intro x b hx
  by_cases heq : x = v.id
  · subst heq
    rw [h.name, lookup_set_self]
    rwa [lookup_set_self] at hx
  · rw [lookup_set heq] at hx
    obtain ⟨hsame, hne⟩ := h.other x (has_of_lookup hx)
    rw [hsame, lookup_set hne]
    exact henv x b hx

theorem Opens.carries_of_set (h : Opens g g' ρ v v') (henv : Carries g' (ρ.set v a) env) : Carries g ρ env := by
  intro x b hx
  obtain ⟨hsame, -⟩ := h.other x (has_of_lookup hx)
  have hne : x ≠ v.id := fun heq => h.fresh (heq ▸ has_of_lookup hx)
  rw [← hsame]
  exact henv x b (by rwa [lookup_set hne])

theorem Opens.carries_erase (h : Opens g g' ρ v v') (henv : Carries g ρ env) : Carries g ρ (env.erase v') := by
  intro x b hx
  rw [lookup_erase (h.other x (has_of_lookup hx)).2]
  exact henv x b hx

/-- The values of some variables, under other names. -/
theorem exists_pullback (env : Env) (g : Nat → Nat) (xs : List Nat) : ∃ env' :
    Env, ∀ x ∈ xs, env'.lookup x = env.lookup (g x) := by
  induction xs with
  | nil => exact ⟨[], List.forall_mem_nil _⟩
  | cons x xs ih =>
    obtain ⟨env', henv'⟩ := ih
    let v : Var := ⟨x, "", .int32⟩
    cases hx : env.lookup (g x) with
    | some a =>
      refine ⟨env'.set v a, List.forall_mem_cons.mpr ⟨hx ▸ lookup_set_self (v := v), fun y hy => ?_⟩⟩
      by_cases heq : y = x
      · rw [heq, hx]
        exact lookup_set_self (v := v)
      · rw [lookup_set (v := v) heq, henv' y hy]
    | none =>
      refine ⟨env'.erase v, List.forall_mem_cons.mpr ⟨hx ▸ lookup_erase_self (v := v), fun y hy => ?_⟩⟩
      by_cases heq : y = x
      · rw [heq, hx]
        exact lookup_erase_self (v := v)
      · rw [lookup_erase (v := v) heq, henv' y hy]

end Env

/-! ### Renamed expressions -/

namespace Expr

variable {r : Renaming} {f : Frame} {env env' : Env} {e e' : Expr} {es es' : List Expr}

theorem Renames.get?_eq {v v' : Var} (h : (var v).Renames r (var v')) (hl : env'.lookup (r.at v.id) = env.lookup v.id) :
    env'.get? v' = env.get? v ∧ v'.name = v.name := by
  cases h with
  | old =>
    rw [r.at_old] at hl
    exact ⟨hl, r.name⟩
  | other hold =>
    rw [Renaming.at_of_ne hold] at hl
    exact ⟨hl, rfl⟩

theorem Renames.buffer_eq (h : e.Renames r e') (hl : ∀ x ∈ e.freeIds, env'.lookup (r.at x) = env.lookup x) :
    f.buffer env' e' = f.buffer env e := by
  have hname := h.bufferName_eq
  cases h with
  | old hne =>
    obtain ⟨hget, -⟩ := Renames.get?_eq (.old hne) (hl r.old.id List.mem_cons_self)
    simp only [Frame.buffer, hget, hname]
  | @other v hold hnew =>
    obtain ⟨hget, -⟩ := Renames.get?_eq (.other hold hnew) (hl v.id List.mem_cons_self)
    simp only [Frame.buffer, hget]
  | _ => rfl

theorem Renames.loadFrom_eq (h : e.Renames r e') : loadFrom f e' = loadFrom f e := by
  unfold loadFrom Frame.checkIndex
  rw [h.bufferName_eq]

theorem Renames.storeTo_eq (h : e.Renames r e') : storeTo f e' = storeTo f e := by
  unfold storeTo Frame.checkIndex
  rw [h.bufferName_eq]

theorem evalAll_congr (h : List.Forall₂ (fun e e' => e'.eval f env' = e.eval f env) es es') :
    eval.evalAll f env' es' = eval.evalAll f env es := by
  induction h with
  | nil => rfl
  | cons he _ ih => simp only [eval.evalAll, he, ih]

theorem evalBranch_congr (h : List.Forall₂ (fun e e' => e'.eval f env' = e.eval f env) es es') :
    eval.branch f env' es' = eval.branch f env es := by
  cases h with
  | nil => rfl
  | cons hc h =>
    cases h with
    | nil => rfl
    | cons ha h =>
      cases h with
      | nil => rfl
      | cons hb h =>
        cases h with
        | nil => simp only [eval.branch, hc, ha, hb]
        | cons hd h => simp only [eval.branch]

/-- The address that a renamed expression stands for, if its index has the value of before. -/
theorem Renames.address_eq (h : e.Renames r e') (hl : ∀ x ∈ e.freeIds, env'.lookup (r.at x) = env.lookup x)
    (hindex : ∀ t b i p, e = Expr.load t b i p → ∀ i', i.Renames r i' → i'.eval f env' = i.eval f env) :
    eval.address f env' (e' :: es') = eval.address f env (e :: es) := by
  have htext := h.text_eq
  cases h with
  | load hb hi =>
    simp only [freeIds, List.forall_mem_append] at hl
    simp only [eval.address, hb.buffer_eq hl.1.1, hindex _ _ _ _ rfl _ hi]
  | _ => simp only [eval.address, htext]

/-- A renamed expression has the value of the expression where the new variable has the value of the old one. -/
theorem Renames.eval_eq (h : e.Renames r e') (hl : ∀ x ∈ e.freeIds, env'.lookup (r.at x) = env.lookup x) :
    e'.eval f env' = e.eval f env := by
  suffices hboth : e'.eval f env' = e.eval f env ∧
      ∀ t b i p, e = Expr.load t b i p → ∀ i', i.Renames r i' → i'.eval f env' = i.eval f env from hboth.1
  induction e generalizing e' env env' with
  | var v =>
    have hlookup := hl v.id List.mem_cons_self
    refine ⟨?_, by rintro _ _ _ _ ⟨⟩⟩
    cases h with
    | old hne =>
      obtain ⟨hget, hname⟩ := Renames.get?_eq (.old hne) hlookup
      simp only [eval, hget, hname]
    | other hold hnew =>
      obtain ⟨hget, -⟩ := Renames.get?_eq (.other hold hnew) hlookup
      simp only [eval, hget]
  | const | str | reduce =>
    cases h
    exact ⟨rfl, by rintro _ _ _ _ ⟨⟩⟩
  | cast t a iha =>
    cases h with | cast ha
    exact ⟨by simp only [eval, (iha ha hl).1], by rintro _ _ _ _ ⟨⟩⟩
  | bin op a b iha ihb =>
    cases h with | bin ha hb
    simp only [freeIds, List.forall_mem_append] at hl
    exact ⟨by simp only [eval, (iha ha hl.1).1, (ihb hb hl.2).1, ha.dtype_eq], by rintro _ _ _ _ ⟨⟩⟩
  | not a iha =>
    cases h with | not ha
    exact ⟨by simp only [eval, (iha ha hl).1], by rintro _ _ _ _ ⟨⟩⟩
  | select c a b ihc iha ihb =>
    cases h with | select hc ha hb
    simp only [freeIds, List.forall_mem_append] at hl
    exact ⟨by simp only [eval, (ihc hc hl.1.1).1, (iha ha hl.1.2).1, (ihb hb hl.2).1, ha.dtype_eq], by rintro _ _ _ _ ⟨⟩⟩
  | call t name args kind func index ih =>
    cases h with | @call _ _ _ args' _ _ _ hargs
    have hfree : ∀ a ∈ args, ∀ x ∈ a.freeIds, env'.lookup (r.at x) = env.lookup x := fun a ha x hx =>
      hl x (mem_freeIds_ofList.mpr ⟨a, ha, hx⟩)
    have hall : List.Forall₂ (fun (e e' : Expr) => e'.eval f env' = e.eval f env) args args' :=
      ((List.forall₂_and_left _ _).mpr ⟨fun a ha => ha, hargs⟩).imp fun a a' h => (ih a h.1 h.2 (hfree a h.1)).1
    have haddress : eval.address f env' args' = eval.address f env args := by
      cases hargs with
      | nil => rfl
      | cons ha =>
        exact ha.address_eq (hfree _ List.mem_cons_self) (ih _ List.mem_cons_self ha (hfree _ List.mem_cons_self)).2
    exact ⟨by simp only [eval, evalAll_congr hall, evalBranch_congr hall, haddress], by rintro _ _ _ _ ⟨⟩⟩
  | bind v a b iha ihb =>
    cases h with | bind hold hnew ha hb
    simp only [freeIds, List.forall_mem_append] at hl
    have hbody : ∀ c : Value, ∀ x ∈ b.freeIds, (env'.set v c).lookup (r.at x) = (env.set v c).lookup x := by
      intro c x hx
      by_cases hxv : x = v.id
      · rw [hxv, Renaming.at_of_ne hold, Env.lookup_set_self, Env.lookup_set_self]
      · have hat : r.at x ≠ v.id := by
          by_cases hxold : x = r.old.id
          · rw [hxold, r.at_old]
            exact hnew.symm
          · rwa [Renaming.at_of_ne hxold]
        rw [Env.lookup_set hat, Env.lookup_set hxv]
        exact hl.2 x (List.mem_filter.mpr ⟨hx, by simpa using hxv⟩)
    exact ⟨by simp only [eval, (iha ha hl.1).1, fun c => (ihb hb (hbody c)).1], by rintro _ _ _ _ ⟨⟩⟩
  | load t b i p ihb ihi ihp =>
    cases h with | @load _ _ _ _ _ _ p' hb hi hp
    simp only [freeIds, List.forall_mem_append] at hl
    have hmask : eval.evalMask f env' p' = eval.evalMask f env p := by
      cases hp with
      | none => rfl
      | some hq => simp only [eval.evalMask, (ihp _ rfl hq hl.2).1]
    refine ⟨by simp only [eval, hb.buffer_eq hl.1.1, (ihi hi hl.1.2).1, hmask, hb.loadFrom_eq], ?_⟩
    rintro _ _ _ _ ⟨⟩ i' hi'
    exact (ihi hi' hl.1.2).1
  | ramp base stride lanes iha ihb =>
    cases h with | ramp ha hb
    simp only [freeIds, List.forall_mem_append] at hl
    exact ⟨by simp only [eval, (iha ha hl.1).1, (ihb hb hl.2).1, ha.dtype_eq], by rintro _ _ _ _ ⟨⟩⟩
  | broadcast a lanes iha =>
    cases h with | broadcast ha
    exact ⟨by simp only [eval, (iha ha hl).1, ha.dtype_eq], by rintro _ _ _ _ ⟨⟩⟩

/-! ### Renamings one after the other -/

/-- An expression stands for the same in one environment as another one in another environment. -/
structure Agrees (f : Frame) (env env' : Env) (e e' : Expr) : Prop where
  eval : e'.eval f env' = e.eval f env
  buffer : f.buffer env' e' = f.buffer env e
  store : storeTo f e' = storeTo f e
  intrinsic : ∀ name, e'.isIntrinsic name = e.isIntrinsic name

theorem agrees_of_lookup (h : ∀ x ∈ e.freeIds, env'.lookup x = env.lookup x) : Agrees f env env' e e := by
  have halike : ∀ x ∈ e.freeIds, env'.Agree (f.missing ≠ f.missing) env x := fun x hx => ⟨h x hx, fun hD => absurd rfl hD⟩
  exact ⟨(eval_alike (c := f.coords) halike).1, Frame.buffer_alike (c := f.coords) halike, rfl, fun _ => rfl⟩

theorem Agrees.trans {env₁ : Env} {e₁ : Expr} (h : Agrees f env env₁ e e₁) (h' : Agrees f env₁ env' e₁ e') :
    Agrees f env env' e e' :=
  ⟨h'.eval.trans h.eval, h'.buffer.trans h.buffer, h'.store.trans h.store,
    fun name => (h'.intrinsic name).trans (h.intrinsic name)⟩

theorem Renames.agrees (h : e.Renames r e') (hl : ∀ x ∈ e.freeIds, env'.lookup (r.at x) = env.lookup x) :
    Agrees f env env' e e' :=
  ⟨h.eval_eq hl, h.buffer_eq hl, h.storeTo_eq, h.isIntrinsic_eq⟩

/-- What an expression becomes when variables are renamed one after the other. -/
def Renamed : List Renaming → Expr → Expr → Prop
  | [], e, e' => e' = e
  | r :: rs, e, e' => ∃ e₁, e.Renames r e₁ ∧ Renamed rs e₁ e'

section Renamed
variable {rs : List Renaming}

theorem renamed_concat : Renamed (rs ++ [r]) e e' ↔ ∃ e₁, Renamed rs e e₁ ∧ e₁.Renames r e' := by
  induction rs generalizing e with
  | nil => simp [Renamed]
  | cons q rs ih => simp only [List.cons_append, Renamed, ih]; grind

theorem Renamed.agrees (h : Renamed rs e e') (hl : ∀ x ∈ e.freeIds, env'.lookup (Renaming.along rs x) = env.lookup x) :
    Agrees f env env' e e' := by
  induction rs generalizing e env with
  | nil =>
    obtain rfl : e' = e := h
    exact agrees_of_lookup hl
  | cons r rs ih =>
    obtain ⟨e₁, hr, hrs⟩ := h
    -- Between the first renaming and the others, the variables have the values that they have at the end.
    obtain ⟨env₁, henv₁⟩ := env'.exists_pullback (Renaming.along rs) (e₁.freeIds ++ e.freeIds.map r.at)
    rw [List.forall_mem_append, List.forall_mem_map] at henv₁
    exact (hr.agrees fun x hx => (henv₁.2 x hx).trans (hl x hx)).trans (ih hrs fun x hx => (henv₁.1 x hx).symm)

end Renamed

/-- An expression stands for what another one stands for, where the variables have their values under other names. -/
def Matches (f : Frame) (g : Nat → Nat) (ρ : Env) (e e' : Expr) : Prop :=
  ∀ env, Env.Carries g ρ env → Agrees f ρ env e e'

theorem Renamed.matches {rs : List Renaming} {ρ : Env} (h : Renamed rs e e') (hfree : ∀ x ∈ e.freeIds, ρ.Has x) :
    Matches f (Renaming.along rs) ρ e e' := fun _ henv => h.agrees fun x hx => henv.lookup (hfree x hx)

end Expr

/-! ### Threads -/

/-- A run can have a result. -/
def Run.May {α : Type} (x : Run α) (a : α) : Prop :=
  ∃ m m', Run.on x m = (.ok a, m')

namespace Thread

variable {α β : Type} {f : Frame} {ρ ρ' : Env} {g g' : Nat → Nat} {v v' : Var} {a : Value} {e e' : Expr}

/-- Two threads end alike: with the same result, and with the values that they had before. -/
structure Matched (g : Nat → Nat) (ρ : Env) (r r' : Except Error α × Local) : Prop where
  result : r.1 = r'.1
  left : ρ.Carries id r.2.env
  right : ρ.Carries g r'.2.env

/-- A thread does what another one does, and both end with some values if they start with others. -/
def Leads (g : Nat → Nat) (ρ : Env) (g' : Nat → Nat) (ρ' : Env) (x y : Thread α) : Prop :=
  ∀ l l' m, ρ.Carries id l.env → ρ.Carries g l'.env → (x.start l m).Rel (Matched g' ρ') (y.start l' m)

/-- A thread does what another one does, and both keep some values, the second one under other names. -/
abbrev Follows (g : Nat → Nat) (ρ : Env) (x y : Thread α) : Prop :=
  Leads g ρ g ρ x y

theorem Follows.bind {x y : Thread α} {k k' : α → Thread β} (h : Follows g ρ x y) (hk : ∀ a, Follows g ρ (k a) (k' a)) :
    Follows g ρ (x >>= k) (y >>= k') := by
  intro l l' m hl hl'
  rw [start_bind, start_bind]
  refine (h l l' m hl hl').bind fun r r' m' hr => ?_
  obtain ⟨r, l₁⟩ := r
  obtain ⟨r', l₁'⟩ := r'
  obtain rfl : r = r' := hr.result
  cases r with
  | error e => exact .done ⟨rfl, hr.left, hr.right⟩
  | ok a => exact hk a l₁ l₁' m' hr.left hr.right

theorem follows_done {r : Except Error α} {l l' : Local} {m : Machine} (hl : ρ.Carries id l.env)
    (hl' : ρ.Carries g l'.env) :
    (Resumption.done (r, l) m).Rel (Matched g ρ) (Resumption.done (r, l') m) :=
  .done ⟨rfl, hl, hl'⟩

theorem follows_pure (a : α) : Follows g ρ (pure a) (pure a) := fun _ _ _ => follows_done

theorem follows_throw (e : Error) : Follows g ρ (throw e : Thread α) (throw e) := fun _ _ _ => follows_done

theorem follows_lift (x : Except Error α) : Follows g ρ (liftM x : Thread α) (liftM x) := by
  cases x with
  | error e => exact fun _ _ _ => follows_done
  | ok a => exact fun _ _ _ => follows_done

theorem follows_await : Follows g ρ await await := fun _ _ _ hl hl' => .wait fun _ => follows_done hl hl'

theorem follows_ofRun_bind {x : Run α} {k k' : α → Thread β} (hk : ∀ a, x.May a → Follows g ρ (k a) (k' a)) :
    Follows g ρ (ofRun x >>= k) (ofRun x >>= k') := by
  intro l l' m hl hl'
  have hstart : ∀ l : Local, (ofRun x).start l m = .done ((Run.on x m).1, l) (Run.on x m).2 := fun _ => rfl
  rw [start_bind, start_bind, hstart, hstart]
  rcases hrun : Run.on x m with ⟨e | a, m'⟩
  · exact follows_done hl hl'
  · exact hk a ⟨m, m', hrun⟩ l l' m' hl hl'

theorem follows_ofRun (x : Run α) : Follows g ρ (ofRun x) (ofRun x) := fun _ _ _ => follows_done

theorem follows_ite {c : Prop} [Decidable c] {x x' y y' : Thread α} (h : c → Follows g ρ x x')
    (h' : ¬c → Follows g ρ y y') :
    Follows g ρ (if c then x else y) (if c then x' else y') := by
  by_cases hc : c
  · simpa only [if_pos hc] using h hc
  · simpa only [if_neg hc] using h' hc

theorem follows_get_bind {k k' : Local → Thread β} (h : ∀ l l' : Local, ρ.Carries id l.env → ρ.Carries g l'.env →
      Follows g ρ (k l) (k' l')) :
    Follows g ρ ((get : Thread Local) >>= k) ((get : Thread Local) >>= k') := fun l l' m hl hl' =>
  h l l' hl hl' l l' m hl hl'

/-- The steps that compute the value of an expression, as an integer and as a condition. -/
def count (f : Frame) (env : Env) (e : Expr) : Run Int := do
  let x ← e.eval f env
  x.toInt (← get).memory

def truth (f : Frame) (env : Env) (e : Expr) : Run Bool := do
  let x ← e.eval f env
  x.truth (← get).memory

section Values
variable {l : Local} {m : Machine}

theorem start_integer_eq (e : Expr) : (integer f e).start l m = (ofRun (count f l.env e)).start l m := by
  have hvalue : (value f e).start l m = .done ((Run.on (e.eval f l.env) m).1, l) (Run.on (e.eval f l.env) m).2 := rfl
  have hcount : (ofRun (count f l.env e)).start l m = .done ((Run.on (count f l.env e) m).1, l)
    (Run.on (count f l.env e) m).2 := rfl
  rw [integer, start_bind, hvalue, hcount, count, Run.on_bind]
  rcases Run.on (e.eval f l.env) m with ⟨_ | x, m'⟩ <;> rfl

theorem start_holds_eq (e : Expr) : (holds f e).start l m = (ofRun (truth f l.env e)).start l m := by
  have hvalue : (value f e).start l m = .done ((Run.on (e.eval f l.env) m).1, l) (Run.on (e.eval f l.env) m).2 := rfl
  have htruth : (ofRun (truth f l.env e)).start l m = .done ((Run.on (truth f l.env e) m).1, l)
    (Run.on (truth f l.env e) m).2 := rfl
  rw [holds, start_bind, hvalue, htruth, truth, Run.on_bind]
  rcases Run.on (e.eval f l.env) m with ⟨_ | x, m'⟩ <;> rfl

end Values

/-- A step that both threads compute alike from their variables. -/
theorem follows_step_bind {x y : Thread α} {r : Run α} {k k' : α → Thread β}
    (hx : ∀ l m, ρ.Carries id l.env → x.start l m = (ofRun r).start l m)
    (hy : ∀ l m, ρ.Carries g l.env → y.start l m = (ofRun r).start l m) (hk : ∀ a, r.May a → Follows g ρ (k a) (k' a)) :
    Follows g ρ (x >>= k) (y >>= k') := by
  intro l l' m hl hl'
  rw [start_bind, start_bind, hx l m hl, hy l' m hl', ← start_bind, ← start_bind]
  exact follows_ofRun_bind hk l l' m hl hl'

section Steps
variable (he : e.Matches f id ρ e) (he' : e.Matches f g ρ e')
include he he'

theorem follows_value_bind {k k' : Value → Thread β} (hk : ∀ x, (e.eval f ρ).May x → Follows g ρ (k x) (k' x)) :
    Follows g ρ (value f e >>= k) (value f e' >>= k') := by
  refine follows_step_bind (r := e.eval f ρ) (fun l m hl => ?_) (fun l m hl => ?_) hk
  · rw [← (he l.env hl).eval]
    rfl
  · rw [← (he' l.env hl).eval]
    rfl

theorem follows_integer_bind {k k' : Int → Thread β} (hk : ∀ n, (count f ρ e).May n → Follows g ρ (k n) (k' n)) :
    Follows g ρ (integer f e >>= k) (integer f e' >>= k') := by
  refine follows_step_bind (r := count f ρ e) (fun l m hl => ?_) (fun l m hl => ?_) hk
  · rw [start_integer_eq, count, count, (he l.env hl).eval]
  · rw [start_integer_eq, count, count, (he' l.env hl).eval]

theorem follows_holds_bind {k k' : Bool → Thread β} (hk : ∀ b, (truth f ρ e).May b → Follows g ρ (k b) (k' b)) :
    Follows g ρ (holds f e >>= k) (holds f e' >>= k') := by
  refine follows_step_bind (r := truth f ρ e) (fun l m hl => ?_) (fun l m hl => ?_) hk
  · rw [start_holds_eq, truth, truth, (he l.env hl).eval]
  · rw [start_holds_eq, truth, truth, (he' l.env hl).eval]

end Steps

theorem follows_product {es es' : List Expr} (h : List.Forall₂ (fun e e' => e.Matches f id ρ e ∧
      e.Matches f g ρ e') es es') (n : Int) :
    Follows g ρ (product f n es) (product f n es') := by
  induction h generalizing n with
  | nil => exact follows_pure n
  | cons he _ ih => exact follows_integer_bind he.1 he.2 fun k _ => ih (n * k)

theorem follows_forRange {x y : Int → Thread Unit} {first : Int} {n : Nat}
    (h : ∀ i, first ≤ i → i < first + n → Follows g ρ (x i) (y i)) :
    Follows g ρ (forRange x first n) (forRange y first n) := by
  induction n generalizing first with
  | zero => exact follows_pure ()
  | succ n ih => exact (h first (Int.le_refl _) (by omega)).bind fun _ => ih fun i hi hi' => h i (by omega) (by omega)

/-! Scopes of variables. -/

theorem Leads.ensuring {x y last last' : Thread Unit} (h : Follows g' ρ' x y) (hlast : Leads g' ρ' g ρ last last') :
    Leads g' ρ' g ρ (ensuring x last) (ensuring y last') := by
  intro l l' m hl hl'
  rw [start_ensuring, start_ensuring]
  refine (h l l' m hl hl').bind fun r r' m' hr => ?_
  refine (hlast r.2 r'.2 m' hr.left hr.right).bind fun t t' m'' ht => ?_
  obtain ⟨t, l₁⟩ := t
  obtain ⟨t', l₁'⟩ := t'
  obtain rfl : t = t' := ht.result
  cases t with
  | error e => exact .done ⟨rfl, ht.left, ht.right⟩
  | ok u => exact .done ⟨hr.result, ht.left, ht.right⟩

theorem leads_unbind (h : ρ.Opens id id v v) (h' : ρ.Opens g g' v v') : Leads g' (ρ.set v a) g ρ (unbind v) (unbind v') :=
  fun _ _ _ hl hl' => .done ⟨rfl, h.carries_erase (h.carries_of_set hl), h'.carries_erase (h'.carries_of_set hl')⟩

theorem follows_unbind (h : ρ.Opens id id v v) (h' : ρ.Opens g g' v v') : Follows g ρ (unbind v) (unbind v') :=
  fun _ _ _ hl hl' => .done ⟨rfl, h.carries_erase hl, h'.carries_erase hl'⟩

theorem leads_release (h : ρ.Opens id id v v) (h' : ρ.Opens g g' v v') :
    Leads g' (ρ.set v a) g ρ (release v) (release v') := by
  intro l l' m hl hl'
  have hvalue : l.env.get? v = some a := hl v.id a Env.lookup_set_self
  have hvalue' : l'.env.get? v' = some a := by
    have hlookup := hl' v.id a Env.lookup_set_self
    rwa [h'.name] at hlookup
  rw [start_release hvalue, start_release hvalue']
  exact .done ⟨rfl, h.carries_erase (h.carries_of_set hl), h'.carries_erase (h'.carries_of_set hl')⟩

/-- A scope over which a variable is bound. -/
theorem Follows.scope {x y last last' : Thread Unit} (h : Follows g' (ρ.set v a) x y) (hv : ρ.Opens id id v v)
    (hv' : ρ.Opens g g' v v')
    (hlast : Leads g' (ρ.set v a) g ρ last last') :
    Follows g ρ (Thread.bind v a >>= fun _ => Thread.ensuring x last)
      (Thread.bind v' a >>= fun _ => Thread.ensuring y last') :=
  fun _ _ m hl hl' => Leads.ensuring h hlast _ _ m (hv.carries_set hl) (hv'.carries_set hl')

/-- A step of a loop, in which its variable is bound and stays so. -/
theorem Follows.bound {x y : Thread Unit} (h : Follows g' (ρ.set v a) x y) (hv : ρ.Opens id id v v)
    (hv' : ρ.Opens g g' v v') :
    Follows g ρ (Thread.bind v a >>= fun _ => x) (Thread.bind v' a >>= fun _ => y) := fun _ _ m hl hl' =>
  (h _ _ m (hv.carries_set hl) (hv'.carries_set hl')).mono fun _ _ hr =>
    ⟨hr.result, hv.carries_of_set hr.left, hv'.carries_of_set hr.right⟩

end Thread

/-! ### Statements -/

namespace Env

/-- The values of the variables in the body of a statement that may bind a variable. -/
def enter (ρ : Env) : Option (Var × Value) → Env
  | none => ρ
  | some (v, a) => ρ.set v a

end Env

namespace Stmt

/-- Two statements of one kind with related expressions and related bodies. -/
inductive Alters (E : Expr → Expr → Prop) (B : Stmt → Stmt → Prop) : Stmt → Stmt → Prop
  | bind {v : Var} {e e' : Expr} {b b' : Stmt} (he : E e e') (hb : B b b') : Alters E B (bind v e b) (bind v e' b')
  | attr {subject : Subject} {key : String} {e e' : Expr} {b b' : Stmt} (he : E e e') (hb : B b b') :
    Alters E B (attr subject key e b) (attr subject key e' b')
  | assert {c c' e e' : Expr} {b b' : Stmt} (hc : E c c') (he : E e e') (hb : B b b') : Alters E B (assert c e b)
    (assert c' e' b')
  | loop {v : Var} {min min' extent extent' : Expr} {kind : LoopKind} {b b' : Stmt} (hmin : E min min')
    (hextent : E extent extent') (hb : B b b') : Alters E B (loop v min extent kind b) (loop v min' extent' kind b')
  | store {buffer buffer' value value' index index' : Expr} {p p' : Option Expr} (hbuffer : E buffer buffer')
    (hvalue : E value value') (hindex : E index index') (hp : Option.Rel E p p') :
    Alters E B (store buffer value index p) (store buffer' value' index' p')
  | provide {op : OpRef} {output : Int} {value value' : Expr} {args args' : List Expr} (hvalue : E value value')
    (hargs : List.Forall₂ E args args') : Alters E B (provide op output value args) (provide op output value' args')
  | allocate {site : Nat} {v : Var} {t : DataType} {extents extents' : List Expr} {c c' : Expr} {b b' : Stmt}
    (hextents : List.Forall₂ E extents extents') (hc : E c c') (hb : B b b') :
    Alters E B (allocate site v t extents c b) (allocate site v t extents' c' b')
  | realize {op : OpRef} {output : Int} {t : DataType} {bounds bounds' : List Range} {c c' : Expr} {b b' : Stmt}
    (hbounds : List.Forall₂ (fun x x' => E x.min x'.min ∧ E x.extent x'.extent) bounds bounds') (hc : E c c')
    (hb : B b b') :
    Alters E B (realize op output t bounds c b) (realize op output t bounds' c' b')
  | prefetch {op : OpRef} {output : Int} {t : DataType} {bounds bounds' : List Range}
    (hbounds : List.Forall₂ (fun x x' => E x.min x'.min ∧ E x.extent x'.extent) bounds bounds') :
    Alters E B (prefetch op output t bounds) (prefetch op output t bounds')
  | seq {ss ss' : List Stmt} (hss : List.Forall₂ B ss ss') : Alters E B (seq ss) (seq ss')
  | branch {c c' : Expr} {t t' : Stmt} {o o' : Option Stmt} (hc : E c c') (ht : B t t') (ho : Option.Rel B o o') :
    Alters E B (branch c t o) (branch c' t' o')
  | eval {e e' : Expr} (he : E e e') : Alters E B (eval e) (eval e')

/-- The bodies that a statement can come to where the variables have some values, with the variable that it binds there. -/
inductive Enters (f : Frame) (ρ : Env) : Stmt → Stmt → Option (Var × Value) → Prop
  | bind {v : Var} {e : Expr} {b : Stmt} {x a : Value} (hx : (e.eval f ρ).May x) (ha : (place x).May a) :
    Enters f ρ (bind v e b) b (some (v, a))
  | region {iv : IterVar} {e : Expr} {b : Stmt} {c : Nat} :
    Enters f ρ (attr (.axis iv) "thread_extent" e b) b (some (iv.var, .int32 c))
  | loop {v : Var} {min extent : Expr} {kind : LoopKind} {b : Stmt} {i start n : Int} {x : Value}
      (hstart : (Thread.count f ρ min).May start)
    (hn : (Thread.count f ρ extent).May n) (hlow : start ≤ i) (hhigh : i < start + n)
    (hx : (do place (← convertTo v.dtype (.number (.int i))) : Run Value).May x) :
    Enters f ρ (loop v min extent kind b) b (some (v, x))
  | allocate {site : Nat} {v : Var} {t : DataType} {extents : List Expr} {c : Expr} {b : Stmt} {a : View} :
    Enters f ρ (allocate site v t extents c b) b (some (v, .array a))
  | body {s b : Stmt} (hs : s.binder? = none) (hb : b ∈ s.bodies) : Enters f ρ s b none

variable {f : Frame} {g : Nat → Nat} {ρ : Env} {s s' : Stmt} {E : Expr → Expr → Prop} {B : Stmt → Stmt → Prop}

/-- A statement of one kind with another one does what that does, if its expressions stand for the same and its bodies
    do what the bodies of the other one do wherever that comes to them. On a device no buffer may be allocated, as
    threads find the buffers that they share by the statements that allocate them. -/
theorem Alters.follows (h : Alters E B s s') (hvirtual : s.isVirtual = false)
    (hdevice : f.coords.isSome → ∀ site v t extents c b, s ≠ Stmt.allocate site v t extents c b)
    (hE : ∀ e ∈ s.exprParts, ∀ e', E e e' → e.Matches f id ρ e ∧ e.Matches f g ρ e')
    (hv : ∀ v ∈ s.binder?, ρ.Opens id id v v ∧ ρ.Opens g g v v)
    (hB : ∀ b b' o, B b b' → Enters f ρ s b o → Thread.Follows g (ρ.enter o) (b.exec f) (b'.exec f)) :
    Thread.Follows g ρ (s.exec f) (s'.exec f) := by
  cases h with
  | @bind v e e' b b' he hb =>
    obtain ⟨hopen, hopen'⟩ := hv v rfl
    obtain ⟨hm, hm'⟩ := hE e (List.mem_singleton_self _) e' he
    unfold exec
    refine Thread.follows_value_bind hm hm' fun x hx => Thread.follows_ofRun_bind fun a ha => ?_
    exact (hB b b' _ hb (.bind hx ha)).scope hopen hopen' (Thread.leads_release hopen hopen')
  | @attr subject key e e' b b' he hb =>
    obtain ⟨hm, hm'⟩ := hE e (List.mem_singleton_self _) e' he
    unfold exec
    refine Thread.follows_ite (fun hkey => ?_) fun hstorage => Thread.follows_ite (fun hkey => ?_) fun hthread => ?_
    · obtain rfl := beq_iff_eq.mp hkey
      have hbody := hB b b' none hb (.body (by cases subject <;> rfl) (List.mem_singleton_self _))
      cases subject with
      | var v => exact fun l l' m hl hl' => hbody { l with scopes := _ } { l' with scopes := _ } m hl hl'
      | _ => exact hbody
    · obtain rfl := beq_iff_eq.mp hkey
      cases subject with
      | axis iv =>
        obtain ⟨hopen, hopen'⟩ := hv iv.var rfl
        refine (Thread.follows_lift _).bind fun c => Thread.follows_integer_bind hm hm' fun n _ =>
          Thread.follows_ite (fun _ => ?_) fun _ => Thread.follows_pure ()
        exact (hB b b' _ hb .region).scope hopen hopen' (Thread.leads_release hopen hopen')
      | _ => exact Thread.follows_throw _
    · refine hB b b' none hb (.body ?_ (List.mem_singleton_self _))
      cases subject with
      | axis iv =>
        have hkey : (key == "virtual_thread") = false := hvirtual
        simp [hthread, hkey]
      | _ => rfl
  | @assert c c' e e' b b' hc he hb =>
    obtain ⟨hm, hm'⟩ := hE c List.mem_cons_self c' hc
    obtain ⟨hn, hn'⟩ := hE e (by simp) e' he
    unfold exec
    refine Thread.follows_holds_bind hm hm' fun holds _ => ?_
    split
    · exact hB b b' none hb (.body rfl (List.mem_singleton_self _))
    · exact Thread.follows_value_bind hn hn' fun x _ => Thread.follows_ofRun _
  | @loop v min min' extent extent' kind b b' hmin hextent hb =>
    obtain ⟨hopen, hopen'⟩ := hv v rfl
    obtain ⟨hm, hm'⟩ := hE min List.mem_cons_self min' hmin
    obtain ⟨hn, hn'⟩ := hE extent (by simp) extent' hextent
    unfold exec
    refine Thread.follows_integer_bind hm hm' fun start hstart => Thread.follows_integer_bind hn hn' fun n hn => ?_
    refine Thread.Leads.ensuring (Thread.follows_forRange fun i hlow hhigh => ?_) (Thread.follows_unbind hopen hopen')
    refine Thread.follows_ofRun_bind fun x hx => ?_
    exact (hB b b' _ hb (.loop hstart hn hlow (by omega) hx)).bound hopen hopen'
  | @store buffer buffer' value value' index index' p p' hbuffer hvalue hindex hp =>
    obtain ⟨hm, hm'⟩ := hE buffer List.mem_cons_self buffer' hbuffer
    obtain ⟨hi, hi'⟩ := hE index (by simp) index' hindex
    obtain ⟨hx, hx'⟩ := hE value (by simp) value' hvalue
    unfold exec
    refine Thread.follows_get_bind fun l l' hl hl' => ?_
    have hstore : storeTo f buffer' = storeTo f buffer := (hm' _ hl').store
    rw [(hm _ hl).buffer, (hm' _ hl').buffer, hstore]
    refine (Thread.follows_lift _).bind fun a => Thread.follows_value_bind hi hi' fun i _ =>
      Thread.follows_value_bind hx hx' fun x _ => ?_
    cases hp with
    | none => exact Thread.follows_ofRun _
    | @some q q' hq =>
      obtain ⟨hq, hq'⟩ := hE q (by simp) q' hq
      exact Thread.follows_value_bind hq hq' fun mask _ => Thread.follows_ofRun _
  | provide | realize | prefetch => exact Thread.follows_throw _
  | @allocate site v t extents extents' c c' b b' hextents hc hb =>
    obtain ⟨hopen, hopen'⟩ := hv v rfl
    have hhost : f.coords.isSome = false := Bool.eq_false_iff.mpr fun h => hdevice h _ _ _ _ _ _ rfl
    -- On the host each allocation makes a buffer of its own.
    have hbuffer (s s' : Stmt) (e : ElemType) (size : Nat) :
        Thread.Follows g ρ (Thread.buffer f s v e size) (Thread.buffer f s' v e size) := by
      refine Thread.follows_get_bind fun l l' _ _ => ?_
      simp only [hhost, Bool.false_and, Bool.false_eq_true, if_false]
      exact Thread.follows_ofRun _
    unfold exec
    refine (Thread.follows_product ?_ _).bind fun size => (Thread.follows_lift _).bind fun e => ?_
    · exact ((List.forall₂_and_left _ _).mpr ⟨fun e he => he, hextents⟩).imp fun e e' h =>
        hE e (List.mem_append_left _ h.1) e' h.2
    have hrest := (hbuffer (Stmt.allocate site v t extents c b)
      (Stmt.allocate site v t extents' c' b') e size.toNat).bind fun a =>
      (hB b b' _ hb .allocate).scope hopen hopen' (Thread.leads_unbind (a := .array a) hopen hopen')
    split
    · exact (Thread.follows_throw _).bind fun _ => hrest
    · exact hrest
  | @seq ss ss' hss =>
    have hall : ∀ {ts ts' : List Stmt}, ts ⊆ ss → List.Forall₂ B ts ts' →
      Thread.Follows g ρ (exec.execAll f ts) (exec.execAll f ts') := by
      intro ts ts' hts h
      induction h with
      | nil => exact Thread.follows_pure ()
      | cons ht _ ih =>
        obtain ⟨hmem, hts⟩ := List.cons_subset.mp hts
        exact (hB _ _ none ht (.body rfl hmem)).bind fun _ => ih hts
    exact hall (List.Subset.refl ss) hss
  | @branch c c' t t' o o' hc ht ho =>
    obtain ⟨hm, hm'⟩ := hE c (List.mem_singleton_self _) c' hc
    unfold exec
    refine Thread.follows_holds_bind hm hm' fun holds _ => ?_
    split
    · exact hB t t' none ht (.body rfl List.mem_cons_self)
    · cases ho with
      | none => exact Thread.follows_pure ()
      | some ho => exact hB _ _ none ho (.body rfl (by simp))
  | @eval e e' he =>
    obtain ⟨hm, hm'⟩ := hE e (List.mem_singleton_self _) e' he
    intro l l' m hl hl'
    unfold exec
    rw [(hm' _ hl').intrinsic]
    split
    · exact Thread.follows_await l l' m hl hl'
    · exact Thread.follows_value_bind hm hm' (fun _ _ => Thread.follows_pure ()) l l' m hl hl'

end Stmt

end TensorNest

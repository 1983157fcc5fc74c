import TensorNest.Proofs.Scopes
import TensorNest.Run.Call

/-! # Runs and free variables

What a run does depends on the variables only by the values of the free ones: two threads that agree on these
run alike, through every wait, and agree on them again at the end. If they differ in what the request for a
variable without a value leads to, this makes no difference as long as the free variables have values. -/

namespace TensorNest

/-! ### Variables that have values -/

namespace Env

variable {env : Env} {x : Nat}

/-- A variable has a value. -/
def Has (env : Env) (x : Nat) : Prop :=
  x ∈ env.map (·.1)

theorem Has.get? {v : Var} (h : env.Has v.id) : ∃ a, env.get? v = some a := by
  refine Option.isSome_iff_exists.mp ?_
  obtain ⟨⟨k, a⟩, hp, rfl⟩ := List.mem_map.mp h
  simpa [Env.get?] using ⟨a, hp⟩

theorem has_erase {v : Var} : (env.erase v).Has x ↔ x ≠ v.id ∧ env.Has x := by
  simp only [Has, erase, List.mem_map, List.mem_filter, bne_iff_ne]
  grind

theorem has_set {v : Var} {a : Value} : (env.set v a).Has x ↔ x = v.id ∨ env.Has x := by
  have herase : (env.erase v).Has x ↔ x ≠ v.id ∧ env.Has x := has_erase
  simp only [Has, set, List.map_cons, List.mem_cons] at herase ⊢
  tauto

section Lookups
variable {v : Var} {a : Value}

theorem lookup_erase (h : x ≠ v.id) : (env.erase v).lookup x = env.lookup x := by
  induction env with
  | nil => rfl
  | cons d env ih =>
    obtain ⟨y, b⟩ := d
    rw [erase, List.filter_cons]
    by_cases hy : y = v.id
    · subst hy
      simp only [bne_self_eq_false, Bool.false_eq_true, if_false, List.lookup_cons, beq_false_of_ne h]
      exact ih
    · simp only [bne_iff_ne.mpr hy, if_true, List.lookup_cons]
      split
      · rfl
      · exact ih

theorem has_of_lookup (h : env.lookup x = some a) : env.Has x := by
  obtain ⟨l, l', rfl, -⟩ := List.lookup_eq_some_iff.mp h
  simp [Has]

theorem has_iff_lookup : env.Has x ↔ ∃ a, env.lookup x = some a :=
  ⟨fun h => Has.get? (v := ⟨x, "", .int32⟩) h, fun ⟨_, h⟩ => has_of_lookup h⟩

theorem lookup_set_self : (env.set v a).lookup v.id = some a := by
  simp [set]

theorem lookup_set (h : x ≠ v.id) : (env.set v a).lookup x = env.lookup x := by
  rw [set, List.lookup_cons, beq_false_of_ne h]
  exact lookup_erase h

theorem lookup_erase_self : (env.erase v).lookup v.id = none := by
  rw [List.lookup_eq_none_iff]
  intro p hp
  have hne : p.1 ≠ v.id := by simpa using (List.mem_filter.mp hp).2
  simpa using hne.symm

end Lookups

/-- Two environments have the same value for a variable; if `D` holds, it has one. -/
def Agree (D : Prop) (env env' : Env) (x : Nat) : Prop :=
  env.lookup x = env'.lookup x ∧ (D → env.Has x)

theorem Agree.set {D : Prop} {env' : Env} {v : Var} {a : Value} (h : x ≠ v.id → Agree D env env' x) :
    Agree D (env.set v a) (env'.set v a) x := by
  by_cases heq : x = v.id
  · subst heq
    exact ⟨lookup_set_self.trans lookup_set_self.symm, fun _ => has_set.mpr (Or.inl rfl)⟩
  · refine ⟨?_, fun hD => has_set.mpr (Or.inr ((h heq).2 hD))⟩
    rw [lookup_set heq, lookup_set heq, (h heq).1]

end Env

/-! ### Expressions -/

section Alike

variable {f : Frame} {env env' : Env} {u : String → Error} {c : Option (List (String × Nat))}

theorem Frame.buffer_alike {e : Expr} (h : ∀ x ∈ e.freeIds, env.Agree (u ≠ f.missing) env' x) :
    ({ f with missing := u, coords := c } : Frame).buffer env e = f.buffer env' e := by
  cases e with
  | var v =>
    obtain ⟨hlookup, hhas⟩ := h v.id (List.mem_singleton_self _)
    have hget : env.get? v = env'.get? v := hlookup
    cases hvalue : env'.get? v with
    | some a => cases a <;> simp [buffer, hget, hvalue, failure]
    | none =>
      by_cases hu : u = f.missing
      · simp [buffer, hget, hvalue, hu]
      · obtain ⟨a, ha⟩ := (hhas hu).get?
        rw [hget, hvalue] at ha
        cases ha
  | _ => rfl

namespace Expr

theorem evalAll_alike {es : List Expr} (h : ∀ e ∈ es, e.eval { f with missing := u, coords := c } env = e.eval f env') :
    eval.evalAll { f with missing := u, coords := c } env es = eval.evalAll f env' es := by
  induction es with
  | nil => rfl
  | cons e es ih =>
    obtain ⟨he, hes⟩ := List.forall_mem_cons.mp h
    simp only [eval.evalAll, he, ih hes]

theorem evalBranch_alike {es : List Expr} (h : ∀ e ∈ es, e.eval { f with missing := u, coords := c } env = e.eval f env') :
    eval.branch { f with missing := u, coords := c } env es = eval.branch f env' es := by
  match es with
  | [c, a, b] =>
    obtain ⟨hc, hes⟩ := List.forall_mem_cons.mp h
    obtain ⟨ha, hes⟩ := List.forall_mem_cons.mp hes
    obtain ⟨hb, -⟩ := List.forall_mem_cons.mp hes
    simp only [eval.branch, hc, ha, hb]
  | [] | [_] | [_, _] | _ :: _ :: _ :: _ :: _ => rfl

theorem callNamed_alike (t : DataType) (name : String) (args : List Value) :
    callNamed { f with missing := u, coords := c } t name args = callNamed f t name args := by
  unfold callNamed
  split
  · rename_i i _
    cases i <;> rfl
  · rfl

/-- The value of an expression, and the address that it stands for, depend on the variables by its free ones only. -/
theorem eval_alike {e : Expr} (h : ∀ x ∈ e.freeIds, env.Agree (u ≠ f.missing) env' x) :
    e.eval { f with missing := u, coords := c } env = e.eval f env' ∧
      ∀ es, eval.address { f with missing := u, coords := c } env (e :: es) = eval.address f env' (e :: es) := by
  induction e generalizing env env' with
  | var v =>
    obtain ⟨hlookup, hhas⟩ := h v.id (List.mem_singleton_self _)
    have hget : env.get? v = env'.get? v := hlookup
    refine ⟨?_, fun es => rfl⟩
    cases hvalue : env'.get? v with
    | some a => simp only [eval, hget, hvalue]
    | none =>
      by_cases hu : u = f.missing
      · simp only [eval, hget, hvalue, hu]
      · obtain ⟨a, ha⟩ := (hhas hu).get?
        rw [hget, hvalue] at ha
        cases ha
  | const x t => exact ⟨rfl, fun es => rfl⟩
  | str s => exact ⟨rfl, fun es => rfl⟩
  | cast t a iha => exact ⟨by simp only [eval, (iha h).1], fun es => rfl⟩
  | bin op a b iha ihb =>
    simp only [freeIds, List.forall_mem_append] at h
    exact ⟨by simp only [eval, (iha h.1).1, (ihb h.2).1], fun es => rfl⟩
  | not a iha => exact ⟨by simp only [eval, (iha h).1], fun es => rfl⟩
  | select c a b ihc iha ihb =>
    simp only [freeIds, List.forall_mem_append] at h
    exact ⟨by simp only [eval, (ihc h.1.1).1, (iha h.1.2).1, (ihb h.2).1], fun es => rfl⟩
  | call t name args kind func index ih =>
    have hargs : ∀ a ∈ args, ∀ x ∈ a.freeIds, env.Agree (u ≠ f.missing) env' x := fun a ha x hx =>
      h x (mem_freeIds_ofList.mpr ⟨a, ha, hx⟩)
    have hall : ∀ a ∈ args, a.eval { f with missing := u, coords := c } env = a.eval f env' :=
      fun a ha => (ih a ha (hargs a ha)).1
    have haddress : eval.address { f with missing := u, coords := c } env args = eval.address f env' args := by
      cases args with
      | nil => rfl
      | cons a as => exact (ih a List.mem_cons_self (hargs a List.mem_cons_self)).2 as
    exact ⟨by simp only [eval, evalAll_alike hall, evalBranch_alike hall, haddress, callNamed_alike], fun es => rfl⟩
  | bind v value body ihv ihb =>
    simp only [freeIds, List.forall_mem_append] at h
    have hbody : ∀ a : Value, ∀ x ∈ body.freeIds, (env.set v a).Agree (u ≠ f.missing) (env'.set v a) x := fun a x hx =>
      Env.Agree.set fun hne => h.2 x (List.mem_filter.mpr ⟨hx, by simpa using hne⟩)
    exact ⟨by simp only [eval, (ihv h.1).1, fun a => (ihb (hbody a)).1], fun es => rfl⟩
  | load t buffer index pred ihb ihi ihp =>
    simp only [freeIds, List.forall_mem_append] at h
    have hmask : eval.evalMask { f with missing := u, coords := c } env pred = eval.evalMask f env' pred := by
      cases pred with
      | none => rfl
      | some p => simp only [eval.evalMask, (ihp p rfl h.2).1]
    refine ⟨?_, fun es => ?_⟩
    · simp only [eval, Frame.buffer_alike h.1.1, (ihi h.1.2).1, hmask]
      rfl
    · simp only [eval.address, Frame.buffer_alike h.1.1, (ihi h.1.2).1]
  | ramp base stride lanes iha ihb =>
    simp only [freeIds, List.forall_mem_append] at h
    exact ⟨by simp only [eval, (iha h.1).1, (ihb h.2).1], fun es => rfl⟩
  | broadcast a lanes iha => exact ⟨by simp only [eval, (iha h).1], fun es => rfl⟩
  | reduce => exact ⟨rfl, fun es => rfl⟩

end Expr

end Alike

/-! ### Threads -/

namespace Resumption

variable {σ α β γ δ : Type} {P : α → Prop} {Q : β → Prop} {r : Resumption σ α}

/-- Whatever a run finds when it is resumed, its result has a property. -/
def Always (P : α → Prop) : Resumption σ α → Prop
  | done a _ => P a
  | wait _ resume => ∀ t, (resume t).Always P

theorem always_true (r : Resumption σ α) : r.Always fun _ => True := by
  induction r with
  | done a s => trivial
  | wait s resume ih => exact ih

theorem Always.mono {P' : α → Prop} (h : r.Always P) (hP : ∀ a, P a → P' a) : r.Always P' := by
  induction r with
  | done a s => exact hP a h
  | wait s resume ih => exact fun t => ih t (h t)

theorem bind_assoc (f : α → σ → Resumption σ β) (g : β → σ → Resumption σ γ) (r : Resumption σ α) :
    (r.bind f).bind g = r.bind fun a s => (f a s).bind g := by
  induction r with
  | done a s => rfl
  | wait s resume ih => exact congrArg (wait s) (funext ih)

theorem Always.bind {f : α → σ → Resumption σ β} (h : r.Always P) (hf : ∀ a s, P a → (f a s).Always Q) :
    (r.bind f).Always Q := by
  induction r with
  | done a s => exact hf a s h
  | wait s resume ih => exact fun t => ih t (h t)

/-- Two runs leave the same states at each wait and at the end, whatever they find when they are resumed, and their
    results are related. -/
inductive Rel (R : α → β → Prop) : Resumption σ α → Resumption σ β → Prop
  | done {a b s} (h : R a b) : Rel R (done a s) (done b s)
  | wait {s resume resume'} (h : ∀ t, Rel R (resume t) (resume' t)) : Rel R (wait s resume) (wait s resume')

section Rel
variable {R : α → β → Prop} {S : γ → δ → Prop} {r' : Resumption σ β}

theorem Rel.bind {f : α → σ → Resumption σ γ} {g : β → σ → Resumption σ δ} (h : r.Rel R r')
    (hf : ∀ a b s, R a b → (f a s).Rel S (g b s)) : (r.bind f).Rel S (r'.bind g) := by
  induction h with
  | done h => exact hf _ _ _ h
  | wait _ ih => exact .wait ih

theorem Rel.mono {R' : α → β → Prop} (h : r.Rel R r') (hR : ∀ a b, R a b → R' a b) : r.Rel R' r' := by
  induction h with
  | done h => exact .done (hR _ _ h)
  | wait _ ih => exact .wait ih

theorem Rel.always (h : r.Rel R r') (hP : ∀ a b, R a b → P a) : r.Always P := by
  induction h with
  | done h => exact hP _ _ h
  | wait _ ih => exact ih

theorem eq_of_rel {r' : Resumption σ α} (h : r.Rel Eq r') : r = r' := by
  induction h with
  | done h => rw [h]
  | wait _ ih => rw [funext ih]

end Rel

end Resumption

namespace Thread

variable {α β : Type} {D : Prop} {X Y Z : List Nat} {v : Var}

/-- The run of a thread from its own state and that of the machine. -/
def start (x : Thread α) (l : Local) (m : Machine) : Resumption Machine (Except Error α × Local) :=
  (x.run.run l : Suspension Machine (Except Error α × Local)) m

theorem start_bind (x : Thread α) (k : α → Thread β) (l : Local) (m : Machine) :
    (x >>= k).start l m = (x.start l m).bind fun r m' =>
      match r.1 with
      | .ok a => (k a).start r.2 m'
      | .error e => .done (.error e, r.2) m' := by
  show (x.start l m).bind _ = _
  congr 1
  funext r m'
  rcases r with ⟨_ | a, l'⟩ <;> rfl

theorem start_ensuring (x last : Thread Unit) (l : Local) (m : Machine) :
    (ensuring x last).start l m = (x.start l m).bind fun r m' => (last.start r.2 m').bind fun t m'' =>
      match t.1 with
      | .ok () => .done (r.1, t.2) m''
      | .error e => .done (.error e, t.2) m'' := by
  have hlift : start (ExceptT.lift x.run : Thread (Except Error Unit)) l m =
      (x.start l m).bind fun r m' => .done (Except.ok r.1, r.2) m' := rfl
  rw [ensuring, start_bind, hlift, Resumption.bind_assoc]
  congr 1
  funext r m'
  show (last >>= fun _ => (liftM r.1 : Thread Unit)).start r.2 m' = _
  rw [start_bind]
  congr 1
  funext t m''
  rcases t with ⟨_ | _, l'⟩
  · rfl
  · rcases r with ⟨_ | _, _⟩ <;> rfl

/-- Two threads end alike: with the same result, the same scopes and the same values of the variables `X`. If `D` holds
    and they have not failed, these have values. -/
structure Ends (D : Prop) (X : List Nat) (r r' : Except Error α × Local) : Prop where
  result : r.1 = r'.1
  scopes : r.2.scopes = r'.2.scopes
  same : ∀ i ∈ X, r.2.env.lookup i = r'.2.env.lookup i
  has : r.1.isOk → D → ∀ i ∈ X, r.2.env.Has i

/-- Two threads run alike if they agree on the variables `X` when they start. -/
def Alike (D : Prop) (X : List Nat) (x y : Thread α) : Prop :=
  ∀ (l l' : Local) (m : Machine), l.scopes = l'.scopes → (∀ i ∈ X, l.env.Agree D l'.env i) →
    (x.start l m).Rel (Ends D X) (y.start l' m)

theorem Alike.bind {x y : Thread α} {k k' : α → Thread β} (h : Alike D X x y) (hk : ∀ a, Alike D X (k a) (k' a)) :
    Alike D X (x >>= k) (y >>= k') := by
  intro l l' m hscopes hl
  rw [start_bind, start_bind]
  refine (h l l' m hscopes hl).bind fun r r' m' hr => ?_
  obtain ⟨r, l₁⟩ := r
  obtain ⟨r', l₁'⟩ := r'
  obtain rfl : r = r' := hr.result
  cases r with
  | error e => exact .done ⟨rfl, hr.scopes, hr.same, nofun⟩
  | ok a => exact hk a l₁ l₁' m' hr.scopes fun i hi => ⟨hr.same i hi, fun hD => hr.has rfl hD i hi⟩

theorem alike_done {r : Except Error α} {l l' : Local} {m : Machine} (hscopes : l.scopes = l'.scopes)
    (hl : ∀ i ∈ X, l.env.Agree D l'.env i) : (Resumption.done (r, l) m).Rel (Ends D X) (Resumption.done (r, l') m) :=
  .done ⟨rfl, hscopes, fun i hi => (hl i hi).1, fun _ hD i hi => (hl i hi).2 hD⟩

theorem alike_pure (a : α) : Alike D X (pure a) (pure a) := fun _ _ _ => alike_done

theorem alike_throw (e : Error) : Alike D X (throw e : Thread α) (throw e) := fun _ _ _ => alike_done

theorem alike_ofRun (x : Run α) : Alike D X (ofRun x) (ofRun x) := fun _ _ _ => alike_done

theorem alike_lift (x : Except Error α) : Alike D X (liftM x : Thread α) (liftM x) := by
  cases x with
  | error e => exact fun _ _ _ => alike_done
  | ok a => exact fun _ _ _ => alike_done

theorem alike_await : Alike D X await await := fun _ _ _ hscopes hl => .wait fun _ => alike_done hscopes hl

theorem alike_ite {c : Prop} [Decidable c] {x x' y y' : Thread α} (h : c → Alike D X x x') (h' : ¬c → Alike D X y y') :
    Alike D X (if c then x else y) (if c then x' else y') := by
  by_cases hc : c
  · simpa only [if_pos hc] using h hc
  · simpa only [if_neg hc] using h' hc

theorem alike_get_bind {k k' : Local → Thread β} (h : ∀ l l' : Local, l.scopes = l'.scopes →
    (∀ i ∈ X, l.env.Agree D l'.env i) → Alike D X (k l) (k' l')) :
    Alike D X ((get : Thread Local) >>= k) ((get : Thread Local) >>= k') := fun l l' m hscopes hl =>
  h l l' hscopes hl l l' m hscopes hl

theorem alike_scope {x y : Thread Unit} {id : Nat} {scope : String} (h : Alike D X x y) :
    Alike D X (modify (fun l : Local => { l with scopes := (id, scope) :: l.scopes }) >>= fun _ => x)
      (modify (fun l : Local => { l with scopes := (id, scope) :: l.scopes }) >>= fun _ => y) := by
  intro l l' m hscopes hl
  refine h { l with scopes := (id, scope) :: l.scopes } { l' with scopes := (id, scope) :: l'.scopes } m ?_ hl
  rw [hscopes]

theorem alike_forRange {x y : Int → Thread Unit} (h : ∀ i, Alike D X (x i) (y i)) (first : Int) (n : Nat) :
    Alike D X (forRange x first n) (forRange y first n) := by
  induction n generalizing first with
  | zero => exact alike_pure ()
  | succ n ih => exact (h first).bind fun _ => ih (first + 1)

/-! The ends of scopes. -/

/-- A state without a value for a variable that is otherwise as another. -/
structure Without (v : Var) (l l₁ : Local) : Prop where
  scopes : l₁.scopes = l.scopes
  self : l₁.env.lookup v.id = none
  other : ∀ i, i ≠ v.id → l₁.env.lookup i = l.env.lookup i

/-- A thread removes a variable; what it ends with depends on the values of the variables `Z`. -/
def Closes (v : Var) (Z : List Nat) (last : Thread Unit) : Prop :=
  ∀ (l l' : Local) (m : Machine), (∀ i ∈ Z, l.env.lookup i = l'.env.lookup i) →
    (last.start l m).Rel (fun r r' => r.1 = r'.1 ∧ Without v l r.2 ∧ Without v l' r'.2) (last.start l' m)

theorem without_erase (v : Var) (l : Local) : Without v l { l with env := l.env.erase v } :=
  ⟨rfl, Env.lookup_erase_self, fun _ hi => Env.lookup_erase hi⟩

theorem closes_unbind : Closes v Z (unbind v) := fun l l' _ _ => .done ⟨rfl, without_erase v l, without_erase v l'⟩

/-- A variable that has a value is removed. -/
theorem start_release {l : Local} {m : Machine} {a : Value} (h : l.env.get? v = some a) :
    (release v).start l m = .done (.ok (), { l with env := l.env.erase v }) m := by
  have hget : (get : Thread Local).start l m = .done (.ok l, l) m := rfl
  rw [release, start_bind, hget]
  simp only [Resumption.bind, h]
  rfl

theorem start_release_none {l : Local} {m : Machine} (h : l.env.get? v = none) :
    (release v).start l m = .done (.error (.missingKey v.name), l) m := by
  have hget : (get : Thread Local).start l m = .done (.ok l, l) m := rfl
  rw [release, start_bind, hget]
  simp only [Resumption.bind, h]
  rfl

theorem closes_release : Closes v [v.id] (release v) := by
  intro l l' m hl
  have hget : l.env.get? v = l'.env.get? v := hl v.id (List.mem_singleton_self _)
  cases hvalue : l'.env.get? v with
  | some a =>
    rw [start_release (hget.trans hvalue), start_release hvalue]
    exact .done ⟨rfl, without_erase v l, without_erase v l'⟩
  | none =>
    rw [start_release_none (hget.trans hvalue), start_release_none hvalue]
    exact .done ⟨rfl, ⟨rfl, hget.trans hvalue, fun _ _ => rfl⟩, ⟨rfl, hvalue, fun _ _ => rfl⟩⟩

theorem Alike.rel_ensuring {x y last : Thread Unit} (h : Alike D Y x y) (hlast : Closes v Z last) (hZ : Z ⊆ Y) (hX : X ⊆ Y)
    (hv : D → v.id ∉ X) {l l' : Local} {m : Machine} (hscopes : l.scopes = l'.scopes)
    (hl : ∀ i ∈ Y, l.env.Agree D l'.env i) :
    ((ensuring x last).start l m).Rel (Ends D X) ((ensuring y last).start l' m) := by
  rw [start_ensuring, start_ensuring]
  refine (h l l' m hscopes hl).bind fun r r' m' hr => ?_
  refine (hlast r.2 r'.2 m' fun i hi => hr.same i (hZ hi)).bind fun t t' m'' ht => ?_
  obtain ⟨hresult, hwithout, hwithout'⟩ := ht
  have hscopes' : t.2.scopes = t'.2.scopes := by rw [hwithout.scopes, hwithout'.scopes, hr.scopes]
  have hsame : ∀ i ∈ X, t.2.env.lookup i = t'.2.env.lookup i := by
    intro i hi
    by_cases heq : i = v.id
    · rw [heq, hwithout.self, hwithout'.self]
    · rw [hwithout.other i heq, hwithout'.other i heq, hr.same i (hX hi)]
  obtain ⟨t, l₁⟩ := t
  obtain ⟨t', l₁'⟩ := t'
  obtain rfl : t = t' := hresult
  cases t with
  | error e => exact .done ⟨rfl, hscopes', hsame, nofun⟩
  | ok u =>
    refine .done ⟨hr.result, hscopes', hsame, fun hok hD i hi => ?_⟩
    have hne : i ≠ v.id := fun heq => hv hD (heq ▸ hi)
    obtain ⟨a, ha⟩ := Env.has_iff_lookup.mp (hr.has hok hD i (hX hi))
    exact Env.has_of_lookup ((hwithout.other i hne).trans ha)

/-- A scope over which a variable is bound. -/
theorem Alike.scope {x y last : Thread Unit} (h : Alike D (v.id :: X) x y) (hlast : Closes v [v.id] last)
    (hv : D → v.id ∉ X)
    (a : Value) : Alike D X (Thread.bind v a >>= fun _ => Thread.ensuring x last) (Thread.bind v a >>= fun _ =>
      Thread.ensuring y last) := by
  intro l l' m hscopes hl
  have hbound : ∀ i ∈ v.id :: X, (l.env.set v a).Agree D (l'.env.set v a) i := fun i hi =>
    Env.Agree.set fun hne => hl i ((List.mem_cons.mp hi).resolve_left hne)
  exact h.rel_ensuring hlast (by simp) (List.subset_cons_self _ _) hv hscopes hbound

/-- A step of a loop, in which its variable is bound and stays so. -/
theorem Alike.bound {x y : Thread Unit} (h : Alike D (v.id :: X) x y) (a : Value) :
    Alike D X (Thread.bind v a >>= fun _ => x) (Thread.bind v a >>= fun _ => y) := by
  intro l l' m hscopes hl
  have hrel := h { l with env := l.env.set v a } { l' with env := l'.env.set v a } m hscopes fun i hi =>
    Env.Agree.set fun hne => hl i ((List.mem_cons.mp hi).resolve_left hne)
  exact hrel.mono fun r r' hr => ⟨hr.result, hr.scopes, fun i hi => hr.same i (List.mem_cons_of_mem _ hi),
    fun hok hD i hi => hr.has hok hD i (List.mem_cons_of_mem _ hi)⟩

/-! The steps of a statement. -/

section Steps

variable {f : Frame} {u : String → Error} {c : Option (List (String × Nat))}

theorem alike_value {e : Expr} (h : ∀ x ∈ e.freeIds, x ∈ X) :
    Alike (u ≠ f.missing) X (value { f with missing := u, coords := c } e) (value f e) := by
  refine alike_get_bind fun l l' _ hl => ?_
  rw [(Expr.eval_alike fun x hx => hl x (h x hx)).1]
  exact alike_ofRun _

theorem alike_holds {e : Expr} (h : ∀ x ∈ e.freeIds, x ∈ X) :
    Alike (u ≠ f.missing) X (holds { f with missing := u, coords := c } e) (holds f e) :=
  (alike_value h).bind fun _ => alike_ofRun _

theorem alike_integer {e : Expr} (h : ∀ x ∈ e.freeIds, x ∈ X) :
    Alike (u ≠ f.missing) X (integer { f with missing := u, coords := c } e) (integer f e) :=
  (alike_value h).bind fun _ => alike_ofRun _

theorem alike_product {es : List Expr} (h : ∀ e ∈ es, ∀ x ∈ e.freeIds, x ∈ X) (n : Int) :
    Alike (u ≠ f.missing) X (product { f with missing := u, coords := c } n es) (product f n es) := by
  induction es generalizing n with
  | nil => exact alike_pure n
  | cons e es ih =>
    obtain ⟨he, hes⟩ := List.forall_mem_cons.mp h
    exact (alike_integer he).bind fun k => ih hes (n * k)

theorem alike_buffer (hc : c.isSome = f.coords.isSome) (s : Stmt) (v : Var) (e : ElemType) (size : Nat) :
    Alike D X (buffer { f with missing := u, coords := c } s v e size) (buffer f s v e size) := by
  refine alike_get_bind fun l l' hscopes _ => ?_
  rw [hscopes, hc]
  exact alike_ofRun _

end Steps

end Thread

/-! ### Statements -/

namespace Stmt

/-- Whether a statement is a region of virtual threads, which has to be turned into a loop before it can run. -/
def isVirtual : Stmt → Bool
  | attr (.axis _) key _ _ => key == "virtual_thread"
  | _ => false

/-- No variable is bound anew in its own scope, and no region of virtual threads is left. -/
def Runnable (s : Stmt) : Prop :=
  ∀ t ∈ s.stmts, (∀ v ∈ t.binder?, ∀ b ∈ t.bodies, v.id ∉ b.binders) ∧ t.isVirtual = false

instance (s : Stmt) : Decidable s.Runnable := inferInstanceAs (Decidable (∀ _ ∈ _, _))

/-- The axis and the extent of a thread region. -/
def threadRegion? : Stmt → Option (IterVar × Expr)
  | attr (.axis iv) "thread_extent" extent _ => some (iv, extent)
  | _ => none

/-- The thread regions in a statement, inner ones first. -/
def threadRegions (s : Stmt) : List (IterVar × Expr) :=
  s.stmts.filterMap threadRegion?

variable {s : Stmt} {X : List Nat} {f : Frame} {u : String → Error} {c : Option (List (String × Nat))}

theorem Runnable.body {b : Stmt} (h : s.Runnable) (hb : b ∈ s.bodies) : b.Runnable :=
  (forall_mem_stmts.mp h).1 b hb

theorem mem_binders {x : Nat} : x ∈ s.binders ↔ (∃ b ∈ s.bodies, x ∈ b.binders) ∨ ∃ v ∈ s.binder?, v.id = x := by
  rw [binders, stmts_eq, List.filterMap_append, List.filterMap_flatMap, List.mem_append, List.mem_flatMap]
  simp [binders]

/-- Two runs of a statement that agree on its free variables are alike, also at different coordinates if the statement has
    no thread regions. If they differ in what a missing value leads to, the free variables have to have values, and must not
    lose them in the statement. -/
theorem alike_exec (hplain : ∀ t ∈ s.stmts, t.isVirtual = false) (hfree : ∀ x ∈ s.freeIds, x ∈ X)
    (hrun : u ≠ f.missing → s.Runnable ∧ ∀ x ∈ X, x ∉ s.binders) (hsome : c.isSome = f.coords.isSome)
    (hcoords : c ≠ f.coords → ∀ t ∈ s.stmts, t.threadRegion? = none) :
    Thread.Alike (u ≠ f.missing) X (s.exec { f with missing := u, coords := c }) (s.exec f) := by
  induction s using induct_bodies generalizing X with
  | step s ih =>
    have hown : ∀ e ∈ s.exprParts, ∀ x ∈ e.freeIds, x ∈ X := fun e he x hx => hfree x (mem_freeIds.mpr (Or.inl ⟨e, he, hx⟩))
    -- In its scope a variable has a value and is not bound anew.
    have hscope : ∀ v ∈ s.binder?, (u ≠ f.missing → v.id ∉ X) ∧ ∀ b ∈ s.bodies,
        Thread.Alike (u ≠ f.missing) (v.id :: X) (b.exec { f with missing := u, coords := c }) (b.exec f) := by
      intro v hv
      refine ⟨fun hD hx => (hrun hD).2 _ hx (mem_binders.mpr (Or.inr ⟨v, hv, rfl⟩)), fun b hb => ?_⟩
      refine ih b hb ((forall_mem_stmts.mp hplain).1 b hb) (fun x hx => ?_)
        (fun hD => ⟨(hrun hD).1.body hb, fun x hx => ?_⟩)
        fun hc => (forall_mem_stmts.mp (hcoords hc)).1 b hb
      · by_cases heq : x = v.id
        · exact heq ▸ List.mem_cons_self
        · refine List.mem_cons_of_mem _ (hfree x (mem_freeIds.mpr (Or.inr ⟨⟨b, hb, hx⟩, fun w hw => ?_⟩)))
          obtain rfl := Option.some.inj (hv.symm.trans hw)
          exact heq
      · rcases List.mem_cons.mp hx with rfl | hx
        · exact ((forall_mem_stmts.mp (hrun hD).1).2).1 v hv b hb
        · exact fun hx' => (hrun hD).2 x hx (mem_binders.mpr (Or.inl ⟨b, hb, hx'⟩))
    have hsame : s.binder? = none → ∀ b ∈ s.bodies,
        Thread.Alike (u ≠ f.missing) X (b.exec { f with missing := u, coords := c }) (b.exec f) := by
      intro hnone b hb
      refine ih b hb ((forall_mem_stmts.mp hplain).1 b hb)
        (fun x hx => hfree x (mem_freeIds.mpr (Or.inr ⟨⟨b, hb, hx⟩, fun w hw => ?_⟩)))
        (fun hD => ⟨(hrun hD).1.body hb, fun x hx hx' => (hrun hD).2 x hx (mem_binders.mpr (Or.inl ⟨b, hb, hx'⟩))⟩)
        fun hc => (forall_mem_stmts.mp (hcoords hc)).1 b hb
      rw [hnone] at hw
      cases hw
    cases s with
    | bind v e body =>
      obtain ⟨hv, hbody⟩ := hscope v rfl
      unfold exec
      refine (Thread.alike_value (hown e (List.mem_singleton_self _))).bind fun x => (Thread.alike_ofRun _).bind fun a => ?_
      exact (hbody body (List.mem_singleton_self _)).scope Thread.closes_release hv a
    | attr subject key e body =>
      unfold exec
      refine Thread.alike_ite (fun hkey => ?_) fun hstorage => Thread.alike_ite (fun hkey => ?_) fun hthread => ?_
      · obtain rfl := beq_iff_eq.mp hkey
        have hbody := hsame (by cases subject <;> rfl) body (List.mem_singleton_self _)
        cases subject with
        | var v => exact Thread.alike_scope hbody
        | _ => exact hbody
      · obtain rfl := beq_iff_eq.mp hkey
        cases subject with
        | axis iv =>
          obtain ⟨hv, hbody⟩ := hscope iv.var rfl
          have hsame : c = f.coords := by
            by_contra hc
            exact absurd (forall_mem_stmts.mp (hcoords hc)).2 (Option.some_ne_none _)
          subst hsame
          refine (Thread.alike_lift _).bind fun c =>
            (Thread.alike_integer (hown e (List.mem_singleton_self _))).bind fun n =>
            Thread.alike_ite (fun _ => ?_) fun _ => Thread.alike_pure ()
          exact (hbody body (List.mem_singleton_self _)).scope Thread.closes_release hv _
        | _ => exact Thread.alike_throw _
      · refine hsame ?_ body (List.mem_singleton_self _)
        cases subject with
        | axis iv =>
          have hvirtual : (key == "virtual_thread") = false := (forall_mem_stmts.mp hplain).2
          simp [hthread, hvirtual]
        | _ => rfl
    | assert cond message body =>
      unfold exec
      refine (Thread.alike_holds (hown cond List.mem_cons_self)).bind fun holds => ?_
      split
      · exact hsame rfl body (List.mem_singleton_self _)
      · exact (Thread.alike_value (hown message (by simp))).bind fun x => Thread.alike_ofRun _
    | loop v first extent kind body =>
      obtain ⟨hv, hbody⟩ := hscope v rfl
      unfold exec
      refine (Thread.alike_integer (hown first List.mem_cons_self)).bind fun start =>
        (Thread.alike_integer (hown extent (by simp))).bind fun count => ?_
      have hturns := Thread.alike_forRange (fun i =>
        (Thread.alike_ofRun (do place (← convertTo v.dtype (.number (.int i))))).bind
        fun a => (hbody body (List.mem_singleton_self _)).bound a) start count.toNat
      exact fun l l' m hscopes hl =>
        hturns.rel_ensuring (Z := []) Thread.closes_unbind nofun (List.Subset.refl X) hv hscopes hl
    | store buffer value index pred =>
      unfold exec
      refine Thread.alike_get_bind fun l l' _ hl => ?_
      rw [Frame.buffer_alike fun x hx => hl x (hown buffer List.mem_cons_self x hx)]
      refine (Thread.alike_lift _).bind fun a => (Thread.alike_value (hown index (by simp))).bind fun i =>
        (Thread.alike_value (hown value (by simp))).bind fun x => ?_
      cases pred with
      | none => exact Thread.alike_ofRun _
      | some p => exact (Thread.alike_value (hown p (by simp))).bind fun mask => Thread.alike_ofRun _
    | provide => exact Thread.alike_throw _
    | allocate site v t extents cond body =>
      obtain ⟨hv, hbody⟩ := hscope v rfl
      unfold exec
      refine (Thread.alike_product (fun e he => hown e (List.mem_append_left _ he)) _).bind fun size =>
        (Thread.alike_lift _).bind fun e => ?_
      have hrest : ∀ size : Int, Thread.Alike (u ≠ f.missing) X
          (do
            let a ← Thread.buffer { f with missing := u, coords := c } (allocate site v t extents cond body) v e size.toNat
            Thread.bind v (.array a)
            Thread.ensuring (body.exec { f with missing := u, coords := c }) (Thread.unbind v))
          (do
            let a ← Thread.buffer f (allocate site v t extents cond body) v e size.toNat
            Thread.bind v (.array a)
            Thread.ensuring (body.exec f) (Thread.unbind v)) := fun size =>
        (Thread.alike_buffer hsome _ v e _).bind fun a =>
        (hbody body (List.mem_singleton_self _)).scope Thread.closes_unbind hv _
      split
      · exact (Thread.alike_throw _).bind fun _ => hrest size
      · exact hrest size
    | realize => exact Thread.alike_throw _
    | prefetch => exact Thread.alike_throw _
    | seq ss =>
      have hall : ∀ ts ⊆ ss, Thread.Alike (u ≠ f.missing) X (exec.execAll { f with missing := u, coords := c } ts)
        (exec.execAll f ts) := by
        intro ts hts
        induction ts with
        | nil => exact Thread.alike_pure ()
        | cons t ts iht =>
          obtain ⟨ht, hts⟩ := List.cons_subset.mp hts
          exact (hsame rfl t ht).bind fun _ => iht hts
      exact hall ss (List.Subset.refl ss)
    | branch cond onTrue onFalse =>
      unfold exec
      refine (Thread.alike_holds (hown cond List.mem_cons_self)).bind fun holds => ?_
      split
      · exact hsame rfl onTrue List.mem_cons_self
      · cases onFalse with
        | none => exact Thread.alike_pure ()
        | some s => exact hsame rfl s (by simp)
    | eval e =>
      unfold exec
      split
      · exact Thread.alike_await
      · exact (Thread.alike_value (hown e (List.mem_singleton_self _))).bind fun _ => Thread.alike_pure ()

/-- The run of a statement depends on the values of its free variables only; if it has no thread regions, it is the same at
    all coordinates. -/
theorem alike_of_agree (hplain : ∀ t ∈ s.stmts, t.isVirtual = false) (hsome : c.isSome = f.coords.isSome)
    (hcoords : c ≠ f.coords → ∀ t ∈ s.stmts, t.threadRegion? = none) :
    Thread.Alike False s.freeIds (s.exec { f with coords := c }) (s.exec f) := by
  have halike := alike_exec (f := f) (u := f.missing) hplain (fun x hx => hx) (fun hD => absurd rfl hD) hsome hcoords
  simpa using halike

end Stmt

end TensorNest

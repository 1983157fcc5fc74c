import TensorNest.Proofs.Evaluation
import TensorNest.Proofs.TrackedThreads

/-! # Steps without effect

The value of an expression without impure calls only adds arrays to memory, copies that vectors and transposed arguments
are put into: it can be left out. So can a thread that has no deeds and leaves no variable behind (`Thread.Idle`). -/

namespace TensorNest

/-! ### Steps -/

namespace Run

variable {α β : Type} {x : Run α} {k : α → Run β}

/-- A step that does nothing to a machine but to add arrays, if it does not fail. -/
def Idle (x : Run α) : Prop := ∀ m a m₁, on x m = (.ok a, m₁) → m.Extends m₁

theorem idle_pure (a : α) : Idle (pure a) := by
  intro m b m₁ h
  cases h
  exact .refl m

theorem idle_throw (e : Error) : Idle (throw e : Run α) := by
  intro m a m₁ h
  have hne : Except.error e = Except.ok a := congrArg Prod.fst h
  cases hne

theorem Idle.bind (hx : Idle x) (hk : ∀ a, Idle (k a)) : Idle (x >>= k) := by
  intro m b m₂ h
  obtain ⟨a, m₁, ha, hb⟩ := on_bind_eq_ok.mp h
  exact (hx m a m₁ ha).trans (hk a m₁ b m₂ hb)

theorem idle_lift (z : Except Error α) : Idle (liftM z) := by
  cases z with
  | error e => exact idle_throw e
  | ok a => exact idle_pure a

theorem idle_get : Idle (get : Run Machine) := by
  intro m a m₁ h
  cases h
  exact .refl m

theorem compositional_idle : Compositional @Idle where
  result := idle_pure
  failure := idle_throw
  andThen := Idle.bind
  read hk _ := idle_get.bind hk
  grow {α change} h := by
    intro m a m₁ hrun
    cases hrun
    obtain ⟨cells, hcells⟩ := h m.memory
    exact ⟨cells, congrArg (fun c => { m with memory := c }) hcells⟩

end Run

open Run

theorem idle_convertTo (t : DataType) (x : Value) : Idle (convertTo t x) := compositional_idle.of_convertTo t x

theorem idle_place (x : Value) : Idle (place x) := compositional_idle.of_place x

/-- The value of an expression without impure calls only adds arrays. -/
theorem Expr.idle_eval {f : Frame} {e : Expr} (h : e.Pure) (env : Env) : Idle (e.eval f env) :=
  (compositional_idle.of_eval h.impurities env).1

/-! ### Threads -/

/-- A state has no values but those of another one and those of some variables. -/
def Local.Within (X : List Nat) (l₁ l : Local) : Prop :=
  ∀ k ∉ X, ∀ x, l₁.env.lookup k = some x → l.env.lookup k = some x

namespace Thread

variable {α β γ : Type} {X Y : List Nat} {P : α → Prop} {Q : β → Prop} {x : Thread α} {k : α → Thread β} {v : Var}
  {f : Frame} {e : Expr}

/-- A thread that does not wait. If it does not fail, its result has a property, and it has only added arrays and given
    values to some variables. -/
def Idle (X : List Nat) (P : α → Prop) (x : Thread α) : Prop :=
  ∀ l m, ∃ r l₁ m₁, x.start l m = .done (r, l₁) m₁ ∧ ∀ a, r = .ok a → P a ∧ m.Extends m₁ ∧ l₁.Within X l

theorem Idle.mono (h : Idle X P x) (hXY : X ⊆ Y) : Idle Y P x := by
  intro l m
  obtain ⟨r, l₁, m₁, hx, hok⟩ := h l m
  refine ⟨r, l₁, m₁, hx, fun a ha => ?_⟩
  obtain ⟨hP, hm, hl⟩ := hok a ha
  exact ⟨hP, hm, fun k hk => hl k fun hX => hk (hXY hX)⟩

theorem idle_pure {a : α} (ha : P a) : Idle X P (pure a) := by
  refine fun l m => ⟨.ok a, l, m, rfl, fun b hb => ?_⟩
  cases hb
  exact ⟨ha, .refl m, fun _ _ _ h => h⟩

theorem idle_throw {e : Error} : Idle X P (throw e : Thread α) := fun l m => ⟨.error e, l, m, rfl, fun _ h => by cases h⟩

theorem Idle.bind (hx : Idle X P x) (hk : ∀ a, P a → Idle X Q (k a)) : Idle X Q (x >>= k) := by
  intro l m
  obtain ⟨r, l₁, m₁, hx, hok⟩ := hx l m
  rw [start_bind, hx]
  cases r with
  | error e => exact ⟨.error e, l₁, m₁, rfl, fun _ h => by cases h⟩
  | ok a =>
    obtain ⟨hP, hm, hl⟩ := hok a rfl
    obtain ⟨r', l₂, m₂, hr', hok'⟩ := hk a hP l₁ m₁
    refine ⟨r', l₂, m₂, hr', fun b hb => ?_⟩
    obtain ⟨hQ, hm', hl'⟩ := hok' b hb
    exact ⟨hQ, hm.trans hm', fun k hk x hx => hl k hk x (hl' k hk x hx)⟩

theorem idle_result {z : Run α} (h : z.Idle) (hP : ∀ m a m₁, Run.on z m = (.ok a, m₁) → P a) : Idle X P (ofRun z) := by
  refine fun l m => ⟨(Run.on z m).1, l, (Run.on z m).2, rfl, fun a ha => ?_⟩
  exact ⟨hP m a _ (Prod.ext ha rfl), h m a _ (Prod.ext ha rfl), fun _ _ _ h => h⟩

theorem idle_ofRun {z : Run α} (h : z.Idle) : Idle X (fun _ => True) (ofRun z) := idle_result h fun _ _ _ _ => trivial

theorem idle_lift {z : Except Error α} : Idle X (fun _ => True) (liftM z : Thread α) := idle_ofRun (Run.idle_lift z)

theorem idle_get {k : Local → Thread β} (h : ∀ l, Idle X Q (k l)) : Idle X Q ((get : Thread Local) >>= k) :=
    fun l m => h l l m

theorem idle_modify {g : Local → Local} (h : ∀ l, (g l).Within X l) : Idle X (fun _ => True) (modify g : Thread PUnit) :=
  fun l m => ⟨.ok (), g l, m, rfl, fun _ _ => ⟨trivial, .refl m, h l⟩⟩

theorem idle_bind (a : Value) (hv : v.id ∈ X) : Idle X (fun _ => True) (Thread.bind v a) := by
  refine idle_modify fun l k hk x hx => ?_
  have hne : k ≠ v.id := fun heq => hk (heq ▸ hv)
  exact (Env.lookup_set hne).symm.trans hx

/-- The variables that a thread removes at its end need not be as before. -/
theorem Idle.closing {last : Thread Unit} (h : Idle [v.id] P x)
    (hlast : ∀ l m, ∃ t l₁, last.start l m = .done (t, l₁) m ∧ (t = .ok () → l₁ = { l with env := l.env.erase v })) :
    Idle [] P (closing x last) := by
  intro l m
  obtain ⟨r, l₁, m₁, hx, hok⟩ := h l m
  obtain ⟨t, l₂, ht, hend⟩ := hlast l₁ m₁
  rw [start_closing, hx]
  simp only [Resumption.bind, ht]
  cases t with
  | error e => exact ⟨.error e, l₂, m₁, rfl, fun _ h => by cases h⟩
  | ok u =>
    refine ⟨r, l₂, m₁, rfl, fun a ha => ?_⟩
    obtain ⟨hP, hm, hl⟩ := hok a ha
    refine ⟨hP, hm, fun k _ y hy => ?_⟩
    rw [hend rfl] at hy
    by_cases hk : k = v.id
    · subst hk
      rw [Env.lookup_erase_self] at hy
      cases hy
    · rw [Env.lookup_erase hk] at hy
      exact hl k (by simpa using hk) y hy

theorem removes_unbind (v : Var) (l : Local) (m : Machine) :
    ∃ t l₁, (unbind v).start l m = .done (t, l₁) m ∧ (t = .ok () → l₁ = { l with env := l.env.erase v }) :=
      ⟨_, _, rfl, fun _ => rfl⟩

theorem removes_release (v : Var) (l : Local) (m : Machine) :
    ∃ t l₁, (release v).start l m = .done (t, l₁) m ∧ (t = .ok () → l₁ = { l with env := l.env.erase v }) := by
  cases hv : l.env.get? v with
  | some a => exact ⟨_, _, start_release hv, fun _ => rfl⟩
  | none => exact ⟨_, _, start_release_none hv, fun h => by cases h⟩

/-- A scope over which a variable is bound. -/
theorem Idle.scope {x : Thread α} {last : Thread Unit} (h : Idle [] P x) (a : Value)
    (hlast : ∀ l m, ∃ t l₁, last.start l m = .done (t, l₁) m ∧ (t = .ok () → l₁ = { l with env := l.env.erase v })) :
    Idle [] P (Thread.bind v a >>= fun _ => Thread.closing x last) := by
  have hinside : Idle [v.id] P (Thread.bind v a >>= fun _ => x) :=
    (idle_bind a (List.mem_singleton_self _)).bind fun _ _ => h.mono (List.nil_subset _)
  intro l m
  have hstart : (Thread.bind v a >>= fun _ => Thread.closing x last).start l m =
      (Thread.closing (Thread.bind v a >>= fun _ => x) last).start l m := by
    rw [start_bind, start_closing, start_bind]
    exact start_closing x last { l with env := l.env.set v a } m
  rw [hstart]
  exact hinside.closing hlast l m

theorem idle_value (he : e.Pure) : Idle X (fun _ => True) (value f e) :=
    idle_get fun l => idle_ofRun (Expr.idle_eval he l.env)

theorem idle_integer (he : e.Pure) : Idle X (fun _ => True) (integer f e) :=
  (idle_value he).bind fun _ _ => idle_ofRun (Run.idle_get.bind fun _ => Run.idle_lift _)

theorem idle_holds (he : e.Pure) : Idle X (fun _ => True) (holds f e) :=
  (idle_value he).bind fun _ _ => idle_ofRun (Run.idle_get.bind fun _ => Run.idle_lift _)

theorem idle_product {es : List Expr} (h : ∀ e ∈ es, e.Pure) (n : Int) : Idle X (fun _ => True) (product f n es) := by
  induction es generalizing n with
  | nil => exact idle_pure trivial
  | cons e es ih =>
    obtain ⟨he, hes⟩ := List.forall_mem_cons.mp h
    exact (idle_integer he).bind fun k _ => ih hes (n * k)

/-- On the host each allocation makes a buffer of its own. -/
theorem idle_buffer (hhost : f.coords = none) (s : Stmt) (v : Var) (e : ElemType) (size : Nat) :
    Idle X (fun _ => True) (buffer f s v e size) := by
  have hzeros : Run.Idle (onMemory fun m => m.addZeros e size) :=
    Run.compositional_idle.grow fun m => ⟨#[Array.replicate size e.zero], rfl⟩
  refine idle_get fun l => idle_ofRun (Run.idle_get.bind fun m => ?_)
  simp only [hhost, Option.isSome_none, Bool.false_and]
  exact hzeros

theorem idle_deedsOfRange {x : Int → Thread (List Deed)} (h : ∀ i, Idle X (· = []) (x i)) (first : Int) (n : Nat) :
    Idle X (· = []) (deedsOfRange x first n) := by
  induction n generalizing first with
  | zero => exact idle_pure rfl
  | succ n ih => exact (h first).bind fun es hes => (ih (first + 1)).bind fun es' hes' => idle_pure (by rw [hes, hes']; rfl)

end Thread

end TensorNest

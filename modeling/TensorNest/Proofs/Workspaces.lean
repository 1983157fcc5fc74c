import TensorNest.Proofs.Evaluation
import TensorNest.Proofs.Launching
import TensorNest.Proofs.Records

/-! # Runs over workspaces

What a run without calls for workspaces does is the same whatever workspaces the machine holds, and it leaves them as
they are (`Run.Spares`). -/

namespace TensorNest

/-- A machine with other workspaces. -/
def Machine.holding (m : Machine) (w : List Nat) : Machine := { m with workspaces := w }

@[simp] theorem Machine.holding_workspaces (m : Machine) (w : List Nat) : (m.holding w).workspaces = w := rfl

/-! ### Steps -/

namespace Run

variable {α β : Type} {x : Run α} {k : α → Run β}

/-- A run to which the workspaces make no difference, and that leaves them as they are. -/
def Spares (x : Run α) : Prop := ∀ m w, on x (m.holding w) = ((on x m).1, (on x m).2.holding w)

theorem spares_onMemory (change : Memory → Memory × α) : Spares (onMemory change) := fun _ _ => rfl

theorem Spares.bind (hx : Spares x) (hk : ∀ a, Spares (k a)) : Spares (x >>= k) := by
  intro m w
  rw [on_bind, on_bind, hx m w]
  rcases on x m with ⟨_ | a, m'⟩
  · rfl
  · exact hk a m' w

theorem spares_get {k : Machine → Run β} (hk : ∀ m, Spares (k m)) (hsame : ∀ m m', m.memory = m'.memory → k m = k m') :
    Spares (get >>= k) := by
  intro m w
  have hget (m : Machine) : on (get >>= k) m = on (k m) m := rfl
  rw [hget, hget, hsame (m.holding w) m rfl, hk m m w]

theorem compositional_spares : Compositional @Spares where
  result _ _ _ := rfl
  failure _ _ _ := rfl
  andThen := Spares.bind
  read := spares_get
  grow _ := spares_onMemory _

theorem spares_lift (z : Except Error α) : Spares (liftM z) := compositional_spares.of_lift z

theorem spares_invoke (f : Frame) (e : Entry) (args : List Value) : Spares (f.invoke e args) := by
  intro m w
  have hrun (m : Machine) : on (f.invoke e args) m =
      (((f.call e args).run.run m.memory : Except Error Unit × Memory).1.map fun _ => .number (.int 0),
        { m with memory := ((f.call e args).run.run m.memory : Except Error Unit × Memory).2 }) := Func.on_invoke rfl
  rw [hrun, hrun]
  rfl

theorem spares_storeTo (f : Frame) (v : Expr) (a : View) (i x : Value) (mask : Option Value) :
    Spares (storeTo f v a i x mask) :=
  compositional_spares.of_storeTo spares_onMemory f v a i x mask

end Run

namespace Expr

/-- Of the impure calls only those of looked up functions are in an expression. -/
def Unlowered (e : Expr) : Prop :=
  e.Impurities fun _ name => name = "xte_call_packed_lowered"

theorem spares_callPacked (f : Frame) (t : DataType) (xs : List Value) :
    Run.Spares (callNamed f t "xte_call_packed_lowered" xs) := by
  have hcall : callNamed f t "xte_call_packed_lowered" xs = Intrinsic.callPacked.apply f t xs := rfl
  rw [hcall]
  rcases xs with _ | ⟨x, args⟩
  · exact Run.compositional_spares.failure _
  · cases x with
    | function e => exact Run.spares_invoke f e args
    | _ => exact Run.compositional_spares.failure _

theorem Unlowered.spares_eval {f : Frame} {e : Expr} (h : e.Unlowered) (env : Env) : Run.Spares (e.eval f env) := by
  refine (Run.compositional_spares.of_eval (f := f) (fun t name args kind func index hmem himpure xs => ?_) env).1
  rw [h t name args kind func index hmem himpure]
  exact spares_callPacked f t xs

end Expr

/-! ### Threads -/

theorem Resumption.Always.finish {σ α : Type} {P : α → Prop} {r : Resumption σ α} (h : r.Always P) : P r.finish.1 := by
  induction r with
  | done a s => exact h
  | wait s resume ih => exact ih s (h s)

namespace Thread

variable {α β : Type} {x y : Thread α} {k k' : α → Thread β} {f : Frame} {v : Var} {e : Expr} {l : Local} {m : Machine}

/-- How a thread ends if each wait is resumed at once. -/
def ends (x : Thread α) (l : Local) (m : Machine) : (Except Error α × Local) × Machine :=
  (x.start l m).finish

theorem ends_bind (x : Thread α) (k : α → Thread β) (l : Local) (m : Machine) :
    (x >>= k).ends l m =
      match x.ends l m with
      | ((.ok a, l'), m') => (k a).ends l' m'
      | ((.error e, l'), m') => ((.error e, l'), m') := by
  unfold ends
  rw [start_bind, Resumption.finish_bind]
  rcases (x.start l m).finish with ⟨⟨_ | a, l'⟩, m'⟩ <;> rfl

theorem ends_bind_ok {x : Thread α} {k : α → Thread β} {l l₂ : Local} {m m₂ : Machine} {b : β}
    (h : (x >>= k).ends l m = ((.ok b, l₂), m₂)) :
    ∃ a l₁ m₁, x.ends l m = ((.ok a, l₁), m₁) ∧ (k a).ends l₁ m₁ = ((.ok b, l₂), m₂) := by
  rw [ends_bind] at h
  rcases hx : x.ends l m with ⟨⟨_ | a, l₁⟩, m₁⟩
  · rw [hx] at h
    cases h
  · rw [hx] at h
    exact ⟨a, l₁, m₁, rfl, h⟩

theorem ends_lift (z : Except Error α) (l : Local) (m : Machine) : (liftM z : Thread α).ends l m = ((z, l), m) := by
  cases z <;> rfl

theorem ends_ensuring (x last : Thread Unit) (l : Local) (m : Machine) :
    (ensuring x last).ends l m =
      match last.ends (x.ends l m).1.2 (x.ends l m).2 with
      | ((.ok (), l'), m') => (((x.ends l m).1.1, l'), m')
      | ((.error e, l'), m') => ((.error e, l'), m') := by
  unfold ends
  rw [start_ensuring, Resumption.finish_bind, Resumption.finish_bind]
  rcases (last.start (x.start l m).finish.1.2 (x.start l m).finish.2).finish with ⟨⟨_ | a, l'⟩, m'⟩ <;> rfl

theorem ends_ofRun (x : Run α) (l : Local) (m : Machine) : (ofRun x).ends l m = (((Run.on x m).1, l), (Run.on x m).2) := rfl

/-- A thread to which the workspaces make no difference, and that leaves them as they are. -/
def Spares (x : Thread α) : Prop := ∀ l m w, x.ends l (m.holding w) = ((x.ends l m).1, (x.ends l m).2.holding w)

theorem spares_ofRun {x : Run α} (h : x.Spares) : Spares (ofRun x) := by
  intro l m w
  rw [ends_ofRun, ends_ofRun, h m w]

theorem spares_pure (a : α) : Spares (pure a) := fun _ _ _ => rfl

theorem spares_throw (e : Error) : Spares (throw e : Thread α) := fun _ _ _ => rfl

theorem spares_await : Spares await := fun _ _ _ => rfl

theorem spares_modify (g : Local → Local) : Spares (modify g : Thread PUnit) := fun _ _ _ => rfl

theorem spares_lift (z : Except Error α) : Spares (liftM z : Thread α) := spares_ofRun (Run.spares_lift z)

theorem spares_get {k : Local → Thread β} (h : ∀ l, Spares (k l)) : Spares ((get : Thread Local) >>= k) :=
    fun l m w => h l l m w

theorem Spares.bind (hx : Spares x) (hk : ∀ a, Spares (k a)) : Spares (x >>= k) := by
  intro l m w
  rw [ends_bind, ends_bind, hx l m w]
  rcases x.ends l m with ⟨⟨_ | a, l'⟩, m'⟩
  · rfl
  · exact hk a l' m' w

theorem spares_unbind (v : Var) : Spares (unbind v) := spares_modify _

theorem spares_release (v : Var) : Spares (release v) := by
  refine spares_get fun l => ?_
  split
  · exact spares_unbind v
  · exact spares_throw _

theorem spares_value (he : e.Unlowered) : Spares (value f e) := spares_get fun l => spares_ofRun (he.spares_eval l.env)

theorem spares_integer (he : e.Unlowered) : Spares (integer f e) :=
  (spares_value he).bind fun x => spares_ofRun (Run.spares_get (fun _ => Run.spares_lift _) fun _ _ h => by rw [h])

theorem spares_holds (he : e.Unlowered) : Spares (holds f e) :=
  (spares_value he).bind fun x => spares_ofRun (Run.spares_get (fun _ => Run.spares_lift _) fun _ _ h => by rw [h])

theorem spares_index (v : Var) (i : Int) : Spares (ofRun do place (← convertTo v.dtype (.number (.int i)))) :=
  spares_ofRun ((Run.compositional_spares.of_convertTo _ _).bind fun x => Run.compositional_spares.of_place x)

theorem spares_product {es : List Expr} (h : ∀ e ∈ es, e.Unlowered) (n : Int) : Spares (product f n es) := by
  induction es generalizing n with
  | nil => exact spares_pure n
  | cons e es ih =>
    obtain ⟨he, hes⟩ := List.forall_mem_cons.mp h
    exact (spares_integer he).bind fun k => ih hes (n * k)

/-- On the host each allocation makes a buffer of its own. -/
theorem ends_buffer (hhost : f.coords = none) (s : Stmt) (v : Var) (e : ElemType) (size : Nat) (l : Local) (m : Machine) :
    (buffer f s v e size).ends l m = ((.ok (m.memory.addZeros e size).2, l),
      { m with memory := (m.memory.addZeros e size).1 }) := by
  have hfresh : (ofRun (onMemory fun memory => memory.addZeros e size)).ends l m =
      ((.ok (m.memory.addZeros e size).2, l), { m with memory := (m.memory.addZeros e size).1 }) := rfl
  rw [← hfresh]
  unfold buffer
  simp only [hhost, Option.isSome_none, Bool.false_and]
  rfl

theorem spares_buffer (hhost : f.coords = none) (s : Stmt) (v : Var) (e : ElemType) (size : Nat) :
    Spares (buffer f s v e size) := by
  intro l m w
  rw [ends_buffer hhost, ends_buffer hhost]
  rfl

/-! Threads that hold more workspaces. -/

/-- From some state on a thread does what another one does with fewer workspaces: in between it may hold more, but at
    the end it has given them back, unless it has failed. -/
def Balances (l : Local) (m : Machine) (x y : Thread α) : Prop :=
  ∀ w, ∃ u, y.ends l (m.holding w) = ((x.ends l m).1, (x.ends l m).2.holding (u ++ w)) ∧ ((x.ends l m).1.1.isOk → u = [])

theorem Spares.balances (h : Spares x) : Balances l m x x := fun w => ⟨[], h l m w, fun _ => rfl⟩

theorem Balances.ends_ok {a : α} {l₁ : Local} {m₁ : Machine} {w : List Nat} (h : Balances l m x y)
    (hy : y.ends l (m.holding w) = ((.ok a, l₁), m₁)) : ∃ m₀, m₁ = m₀.holding w ∧ x.ends l m = ((.ok a, l₁), m₀) := by
  obtain ⟨u, hends, hok⟩ := h w
  obtain ⟨hx, rfl⟩ := Prod.mk.inj (hends.symm.trans hy)
  rw [hx] at hok
  obtain rfl := hok rfl
  exact ⟨_, rfl, Prod.ext hx rfl⟩

theorem Balances.bind (hx : Balances l m x y) (hk : ∀ a l' m', x.ends l m = ((.ok a, l'), m') →
      Balances l' m' (k a) (k' a)) :
    Balances l m (x >>= k) (y >>= k') := by
  intro w
  obtain ⟨u, hy, hok⟩ := hx w
  rw [ends_bind, ends_bind, hy]
  generalize x.ends l m = r at hok hk
  rcases r with ⟨⟨e | a, l'⟩, m'⟩
  · exact ⟨u, rfl, fun h => by cases h⟩
  · obtain rfl := hok rfl
    exact hk a l' m' rfl w

theorem Balances.ensuring {x y last : Thread Unit} (hx : Balances l m x y) (hlast : Spares last) :
    Balances l m (ensuring x last) (ensuring y last) := by
  intro w
  obtain ⟨u, hy, hok⟩ := hx w
  rw [ends_ensuring, ends_ensuring, hy]
  dsimp only
  rw [hlast]
  rcases last.ends (x.ends l m).1.2 (x.ends l m).2 with ⟨⟨e | a, l'⟩, m'⟩
  · exact ⟨u, rfl, fun h => by cases h⟩
  · exact ⟨u, rfl, hok⟩

theorem Balances.forRange {x y : Int → Thread Unit} {first : Int} {n : Nat}
    (h : ∀ k < n, ∀ l' m', (forRange x first k).ends l m = ((.ok (), l'), m') →
      Balances l' m' (x (first + k)) (y (first + k))) :
    Balances l m (forRange x first n) (forRange y first n) := by
  induction n generalizing first l m with
  | zero => exact (spares_pure ()).balances
  | succ n ih =>
    have hfirst : Balances l m (x first) (y first) := by simpa using h 0 n.succ_pos l m rfl
    refine hfirst.bind fun _ l₁ m₁ hx => ih fun k hk l' m' hturns => ?_
    have hnext := h (k + 1) (Nat.succ_lt_succ hk) l' m' (by rw [Thread.forRange, ends_bind, hx]; exact hturns)
    rwa [Int.natCast_succ, Int.add_comm k, ← Int.add_assoc] at hnext

end Thread

end TensorNest

import TensorNest.Proofs.Evaluation
import TensorNest.Proofs.Launching

/-! # Runs over shared buffers

On a device the machine keeps the buffers that threads share, each under the statement that allocates it. Only
allocations look there: what expressions evaluate to and what is stored is the same whatever buffers are shared
(`Run.Unshared`). An allocation finds its own buffer, since every statement matches itself (`Matching.Reflexive.stmt`).
-/

namespace TensorNest

/-- A machine with other shared buffers. -/
def Machine.sharing (m : Machine) (blocks launches : List (Stmt × View)) : Machine :=
  { m with blockBuffers := blocks, launchBuffers := launches }

namespace Run

variable {α β : Type} {x : Run α} {k : α → Run β}

/-- A run to which the shared buffers make no difference, and that leaves them as they are. -/
def Unshared (x : Run α) : Prop :=
  ∀ m blocks launches, on x (m.sharing blocks launches) = ((on x m).1, (on x m).2.sharing blocks launches)

theorem Unshared.keeps (h : Unshared x) (m : Machine) :
    (on x m).2.blockBuffers = m.blockBuffers ∧ (on x m).2.launchBuffers = m.launchBuffers := by
  have hself : (on x m).2 = (on x m).2.sharing m.blockBuffers m.launchBuffers :=
    congrArg Prod.snd (h m m.blockBuffers m.launchBuffers)
  rw [hself]
  exact ⟨rfl, rfl⟩

theorem unshared_onMemory (change : Memory → Memory × α) : Unshared (onMemory change) := fun _ _ _ => rfl

theorem Unshared.bind (hx : Unshared x) (hk : ∀ a, Unshared (k a)) : Unshared (x >>= k) := by
  intro m blocks launches
  rw [on_bind, on_bind, hx m blocks launches]
  rcases on x m with ⟨_ | a, m'⟩
  · rfl
  · exact hk a m' blocks launches

theorem unshared_get {k : Machine → Run β} (hk : ∀ m, Unshared (k m))
    (hsame : ∀ m blocks launches, k (m.sharing blocks launches) = k m) : Unshared (get >>= k) := by
  intro m blocks launches
  have hget (m : Machine) : on (get >>= k) m = on (k m) m := rfl
  rw [hget, hget, hsame, hk m m blocks launches]

theorem compositional_unshared : Compositional @Unshared where
  result _ _ _ _ := rfl
  failure _ _ _ _ := rfl
  andThen := Unshared.bind
  read hk hsame := unshared_get hk fun _ _ _ => hsame _ _ rfl
  grow _ := unshared_onMemory _

theorem unshared_storeTo (f : Frame) (v : Expr) (a : View) (i x : Value) (mask : Option Value) :
    Unshared (storeTo f v a i x mask) :=
  compositional_unshared.of_storeTo unshared_onMemory f v a i x mask

/-! Impure calls. -/

theorem unshared_workspaces (change : List Nat → List Nat) :
    Unshared (modify fun m => { m with workspaces := change m.workspaces } : Run PUnit) := fun _ _ _ => rfl

theorem unshared_allocate (nbytes code bits : Value) : Unshared (Frame.allocate nbytes code bits) := by
  have hP := compositional_unshared
  refine unshared_get (fun m => (hP.of_lift _).bind fun code => ?_) fun _ _ _ => rfl
  split
  · exact hP.failure _
  · refine (hP.of_lift _).bind fun bits => (hP.of_lift _).bind fun nbytes => (hP.of_lift _).bind fun e => ?_
    have hnew (n : Nat) : Unshared (do
        let v ← onMemory fun m => m.addZeros e n
        modify fun s => { s with workspaces := v.storage :: s.workspaces }
        return .array v : Run Value) :=
      (unshared_onMemory _).bind fun v => (unshared_workspaces (v.storage :: ·)).bind fun _ => hP.result _
    dsimp only
    split
    · exact (hP.failure _).bind fun _ => hnew _
    · exact hnew _

theorem unshared_free (f : Frame) (v : Value) : Unshared (f.free v) := by
  have hP := compositional_unshared
  unfold Frame.free
  split
  · rename_i a
    refine unshared_get (fun m => ?_) fun _ _ _ => rfl
    split
    · exact (unshared_workspaces (·.erase a.storage)).bind fun _ => hP.result _
    · exact hP.failure _
  · exact hP.failure _

theorem unshared_invoke (f : Frame) (e : Entry) (args : List Value) : Unshared (f.invoke e args) := by
  intro m blocks launches
  have hrun (m : Machine) : on (f.invoke e args) m =
      (((f.call e args).run.run m.memory : Except Error Unit × Memory).1.map fun _ => .number (.int 0),
        { m with memory := ((f.call e args).run.run m.memory : Except Error Unit × Memory).2 }) := Func.on_invoke rfl
  rw [hrun, hrun]
  rfl

theorem unshared_callNamed (f : Frame) (t : DataType) (name : String) (xs : List Value) :
    Unshared (callNamed f t name xs) := by
  have hP := compositional_unshared
  cases hi : Intrinsic.ofName? name with
  | none => exact hP.of_callNamed f t name (by rw [hi]; rfl) xs
  | some i =>
    have hcall : callNamed f t name xs = i.apply f t xs := by simp only [callNamed, hi]
    cases himpure : i.isImpure with
    | false => exact hP.of_callNamed f t name (by rw [hi]; exact himpure) xs
    | true =>
      rw [hcall]
      unfold Intrinsic.apply
      split
      case h_14 => exact unshared_allocate _ _ _
      case h_15 => exact unshared_free f _
      case h_18 => exact unshared_invoke f _ _
      case h_19 => exact (hP.of_function f _).bind fun e => unshared_invoke f e _
      case h_20 => exact hP.failure _
      all_goals cases himpure

end Run

/-- The value of an expression is the same whatever buffers are shared. -/
theorem Expr.unshared_eval (f : Frame) (e : Expr) (env : Env) : Run.Unshared (e.eval f env) :=
  (Run.compositional_unshared.of_eval (fun t name _ _ _ _ _ _ => Run.unshared_callNamed f t name) env).1

/-! ### Statements as keys -/

namespace Matching

/-- Every variable, operation, number and site matches itself, and what attributes are about is not looked at if it is
    no part of a program. -/
structure Reflexive (k : Matching) : Prop where
  var (v : Var) : k.var v v = true
  op (f : OpRef) : k.op f f = true
  number (x : Number) : k.number x x = true
  site (n : Nat) : k.site n n = true
  shallow : k.shallow = true

namespace Reflexive

variable {k : Matching}

theorem vars (h : k.Reflexive) (vs : List Var) : k.vars vs vs = true := by
  induction vs with
  | nil => rfl
  | cons v vs ih => rw [Matching.vars, h.var, ih, Bool.true_and]

theorem ops (h : k.Reflexive) (f : Option OpRef) : k.ops f f = true := by
  cases f
  · rfl
  · exact h.op _

theorem ordinal (i : Ordinal) : k.ordinal i i = true := by
  simp [Matching.ordinal]

mutual

/-- Every expression matches itself. -/
theorem expr (h : k.Reflexive) : ∀ e : Expr, k.expr e e = true
  | .var v => by simp [Matching.expr, h.var]
  | .const x _ => by simp [Matching.expr, h.number]
  | .str _ => by simp [Matching.expr]
  | .cast _ a | .not a | .broadcast a _ => by simp [Matching.expr, h.expr a]
  | .bin _ a b | .ramp a b _ => by simp [Matching.expr, h.expr a, h.expr b]
  | .select c a b => by simp [Matching.expr, h.expr c, h.expr a, h.expr b]
  | .call _ _ args _ func i => by simp [Matching.expr, h.exprs args, h.ops func, ordinal]
  | .bind v a b => by simp [Matching.expr, h.var v, h.expr a, h.expr b]
  | .load _ a i p => by simp [Matching.expr, h.expr a, h.expr i, h.guards p]
  | .reduce r s x c _ => by simp [Matching.expr, h.reducer r, h.exprs s, h.axes x, h.guards c]

theorem exprs (h : k.Reflexive) : ∀ es : List Expr, k.exprs es es = true
  | [] => by rw [Matching.exprs]
  | a :: as => by rw [Matching.exprs, h.expr a, h.exprs as, Bool.true_and]

theorem guards (h : k.Reflexive) : ∀ o : Option Expr, k.guards o o = true
  | none => by rw [Matching.guards]
  | some a => by rw [Matching.guards, h.expr a]

theorem range (h : k.Reflexive) : ∀ d : Range, k.range d d = true
  | ⟨a, b⟩ => by rw [Matching.range, h.expr a, h.expr b, Bool.true_and]

theorem domain (h : k.Reflexive) : ∀ d : Option Range, k.domain d d = true
  | none => by rw [Matching.domain]
  | some d => by rw [Matching.domain, h.range d]

theorem axis (h : k.Reflexive) : ∀ x : IterVar, k.axis x x = true
  | ⟨d, v, _, _⟩ => by simp [Matching.axis, h.domain d, h.var v]

theorem axes (h : k.Reflexive) : ∀ xs : List IterVar, k.axes xs xs = true
  | [] => by rw [Matching.axes]
  | x :: xs => by rw [Matching.axes, h.axis x, h.axes xs, Bool.true_and]

theorem reducer (h : k.Reflexive) : ∀ c : Reducer, k.reducer c c = true
  | ⟨l, r, e, i⟩ => by simp [Matching.reducer, h.vars l, h.vars r, h.exprs e, h.exprs i]

end

theorem ranges (h : k.Reflexive) (rs : List Range) : k.ranges rs rs = true := by
  induction rs with
  | nil => rfl
  | cons r rs ih => rw [Matching.ranges, h.range, ih, Bool.true_and]

theorem subject (h : k.Reflexive) : ∀ n : Subject, k.subject n n = true
  | .var v => h.var v
  | .axis iv => h.axis iv
  | .op f => h.op f
  | .tensor _ _ => by simp [Matching.subject]
  | .reducer r => h.reducer r
  | .other _ => by rw [Matching.subject, h.shallow, Bool.true_or]

/-- Every statement matches itself. -/
theorem stmt (h : k.Reflexive) (s : Stmt) : k.stmt s s = true := by
  induction s with
  | seq ss ih =>
    rw [Matching.stmt]
    induction ss with
    | nil => rfl
    | cons s ss ihs =>
      obtain ⟨hs, hss⟩ := List.forall_mem_cons.mp ih
      rw [Matching.stmt.stmts, hs, ihs hss, Bool.true_and]
  | branch c s o ih iho =>
    cases o with
    | none => simp [Matching.stmt, h.expr c, ih]
    | some t => simp [Matching.stmt, h.expr c, ih, iho t rfl]
  | _ => simp_all [Matching.stmt, h.expr, h.exprs, h.guards, h.ranges, h.var, h.op, h.subject, h.site]

end Reflexive

theorem exact_reflexive : exact.Reflexive where
  var _ := beq_self_eq_true _
  op _ := beq_self_eq_true _
  number x := by cases x <;> exact beq_self_eq_true _
  site _ := beq_self_eq_true _
  shallow := rfl

end Matching
end TensorNest

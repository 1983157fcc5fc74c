import TensorNest.Proofs.Parts
import TensorNest.Proofs.Queries

/-! # Steps of evaluation

Evaluation is put together of steps that read memory or add arrays to it. A property that such steps have and that
compositions keep is one of the value of every expression, if the calls of impure intrinsics in it have the property too
(`Run.Compositional.of_eval`). -/

namespace TensorNest

/-! ### Impure calls -/

/-- Whether an intrinsic does more than to give a value: it adds or gives back a workspace or calls a function. -/
def Intrinsic.isImpure : Intrinsic → Bool
  | allocWorkspace | freeWorkspace | callPacked | callDevice => true
  | _ => false

namespace Expr

/-- Whether an expression is an impure call. -/
def isImpureCall : Expr → Bool
  | call _ name .. => (Intrinsic.ofName? name).any (·.isImpure)
  | _ => false

/-- An expression contains no impure call. -/
def Pure (e : Expr) : Prop := ∀ a ∈ e.postorder, a.isImpureCall = false

instance (e : Expr) : Decidable e.Pure := inferInstanceAs (Decidable (∀ _ ∈ _, _))

/-- The type and the name of each impure call in an expression have a property. -/
def Impurities (P : DataType → String → Prop) (e : Expr) : Prop :=
  ∀ t name args kind func index, call t name args kind func index ∈ e.postorder →
    (Intrinsic.ofName? name).any (·.isImpure) = true → P t name

theorem Impurities.part {P : DataType → String → Prop} {e a : Expr} (h : e.Impurities P) (ha : a ∈ e.parts) :
    a.Impurities P :=
  fun _ _ _ _ _ _ hmem => h _ _ _ _ _ _ (postorder_subset ha hmem)

theorem Pure.impurities {P : DataType → String → Prop} {e : Expr} (h : e.Pure) : e.Impurities P :=
  fun _ _ _ _ _ _ hmem himpure => Bool.noConfusion ((h _ hmem).symm.trans himpure)

theorem eval_call {f : Frame} {env : Env} (t : DataType) (name : String) (args : List Expr) (kind : CallKind)
    (func : Option OpRef)
    (index : Ordinal) : (call t name args kind func index).eval f env =
      if kind = .tensorRead then throw (.tensorAccess f.name name)
      else if name == "xte_if_then_else" then eval.branch f env args
      else if name == "xte_address_of" then eval.address f env args
      else eval.evalAll f env args >>= callNamed f t name := rfl

end Expr

namespace Run

/-- A property of runs that results, failures and compositions have, and steps that read memory or add arrays to it. -/
structure Compositional (P : ∀ ⦃α : Type⦄, Run α → Prop) : Prop where
  result {α : Type} (a : α) : P (pure a : Run α)
  failure {α : Type} (e : Error) : P (throw e : Run α)
  andThen {α β : Type} {x : Run α} {k : α → Run β} (hx : P x) (hk : ∀ a, P (k a)) : P (x >>= k)
  read {β : Type} {k : Machine → Run β} (hk : ∀ m, P (k m))
    (hsame : ∀ m m', m.memory = m'.memory → k m = k m') : P (get >>= k)
  grow {α : Type} {change : Memory → Memory × α} (h : ∀ m, ∃ cells, (change m).1 = m ++ cells) : P (onMemory change)

namespace Compositional

variable {α β : Type} {P : ∀ ⦃α : Type⦄, Run α → Prop} (hP : Compositional P)
include hP

theorem of_lift (z : Except Error α) : P (liftM z : Run α) := by
  cases z with
  | error e => exact hP.failure e
  | ok a => exact hP.result a

theorem of_operand (x : Value) : P (operand x) := hP.read (fun _ => hP.of_lift _) fun _ _ h => by rw [h]

theorem of_convertTo (t : DataType) (x : Value) : P (convertTo t x) :=
    hP.read (fun _ => hP.of_lift _) fun _ _ h => by rw [h]

theorem of_place (x : Value) : P (place x) := by
  cases x with
  | vector t xs => exact hP.andThen (hP.grow fun m => ⟨#[xs.toArray], rfl⟩) fun _ => hP.result _
  | _ => exact hP.result _

theorem of_condition (c : Value) : P (condition c) := by
  refine hP.read (fun m => ?_) fun _ _ h => by simp only [h]
  dsimp only
  split
  · exact hP.result _
  · exact hP.andThen (hP.of_lift _) fun _ => hP.result _

theorem of_combine (op : BinOp) (t : DataType) (x y : Value) : P (combine op t x y) := by
  unfold combine
  have hresult (z : Value) : P (if op.isLogical then pure z else convertTo t z) := by
    split
    · exact hP.result _
    · exact hP.of_convertTo t z
  split
  · exact hP.andThen (hP.of_condition x) fun _ => hP.andThen (hP.of_condition y) fun _ =>
      hP.andThen (hP.of_lift _) fun _ => hP.result _
  · dsimp only
    split
    · exact hP.andThen (hP.of_lift _) fun z => hresult z
    · exact hP.andThen (hP.of_operand _) fun _ => hP.andThen (hP.of_operand _) fun _ => hP.andThen (hP.of_lift _) fun _ =>
        hresult _

theorem of_chosen (c x y : Value) : P (chosen c x y) := by
  refine hP.read (fun m => ?_) fun _ _ h => by simp only [h]
  dsimp only
  split
  · exact hP.andThen (hP.of_condition c) fun _ => hP.andThen (hP.of_lift _) fun _ => hP.result _
  · exact hP.andThen (hP.of_lift _) fun _ => hP.result _

theorem of_loadAt (a : View) (i : Numeric) : P (loadAt a i) := by
  refine hP.read (fun m => hP.andThen (hP.of_lift _) fun ws => ?_) fun _ _ h => by simp only [h]
  cases ws with
  | one w =>
    dsimp only
    split <;> exact hP.result _
  | many ws => exact hP.result _

theorem of_loadFrom (f : Frame) (v : Expr) (a : View) (x : Value) (mask : Option Value) : P (loadFrom f v a x mask) := by
  refine hP.andThen (hP.of_operand x) fun i => ?_
  have hload (i : Numeric) : P (do f.checkIndex v a i; loadAt a i) := hP.andThen (hP.of_lift _) fun _ => hP.of_loadAt a i
  cases mask with
  | none => exact hload i
  | some p => exact hP.andThen (hP.of_operand p) fun _ => hP.andThen (hP.of_lift _) fun i => hload i

/-! Stores. -/

section Stores
variable (hwrite : ∀ {α : Type} (change : Memory → Memory × α), P (onMemory change))
include hwrite

theorem of_storeParts (a : View) (ws : List View) (x : Numeric) (mismatch : List Int → Error) :
    P (storeParts a ws x mismatch) := by
  refine hP.andThen (hP.of_lift _) fun lanes => ?_
  split
  · exact hwrite _
  · exact hP.failure _

theorem of_storeAt (a : View) (i : Numeric) (x : Value) : P (storeAt a i x) := by
  refine hP.andThen (hP.of_lift _) fun ws => ?_
  cases ws with
  | one w =>
    dsimp only
    split
    · exact hP.read (fun m => hP.andThen (hP.of_lift _) fun y => hwrite _) fun _ _ h => by simp only [h]
    · exact hP.andThen (hP.of_operand x) fun y => hP.of_storeParts hwrite _ _ _ _
  | many ws => exact hP.andThen (hP.of_operand x) fun y => hP.of_storeParts hwrite _ _ _ _

/-- A store has a property that all changes of memory have. -/
theorem of_storeTo (f : Frame) (v : Expr) (a : View) (i x : Value) (mask : Option Value) : P (storeTo f v a i x mask) := by
  refine hP.andThen (hP.of_operand i) fun i => ?_
  cases mask with
  | none => exact hP.andThen (hP.of_lift _) fun _ => hP.of_storeAt hwrite a i x
  | some p =>
    exact hP.andThen (hP.of_operand p) fun p => hP.andThen (hP.of_operand x) fun y => hP.andThen (hP.of_lift _) fun z =>
      hP.andThen (hP.of_lift _) fun _ => hP.of_storeAt hwrite a z.1 _

end Stores

/-! Pure calls. -/

section Calls
variable (f : Frame)

theorem of_argAt (x : Value) : P (f.argAt x) := by
  refine hP.read (fun m => hP.andThen (hP.of_lift _) fun n => ?_) fun _ _ h => by simp only [h]
  split
  · exact hP.result _
  · exact hP.failure _

theorem of_arrayArg (x : Value) : P (f.arrayArg x) := by
  refine hP.andThen (hP.of_argAt f x) fun a => ?_
  split
  · exact hP.result _
  · exact hP.failure _

theorem of_axisOf (x y : Value) (g : View → List Int) : P (f.axisOf x y g) := by
  refine hP.andThen (hP.of_arrayArg f x) fun a => hP.read (fun m => hP.andThen (hP.of_lift _) fun d => ?_) fun _ _ h =>
    by simp only [h]
  dsimp only
  split
  · refine hP.andThen (hP.failure _) fun _ => ?_
    split
    · exact hP.result _
    · exact hP.failure _
  · split
    · exact hP.result _
    · exact hP.failure _

theorem of_function (x : Value) : P (f.function x) := by
  refine hP.read (fun m => ?_) fun _ _ h => by simp only [h]
  split
  · exact hP.of_lift _
  · exact hP.failure _

theorem of_flatten (v : View) : P (onMemory fun m => m.flatten v) := by
  refine hP.grow fun m => ?_
  unfold Memory.flatten Memory.reshape
  split
  · exact ⟨#[], by simp⟩
  · exact ⟨#[(v.elements m).toArray], rfl⟩

theorem of_apply (t : DataType) (i : Intrinsic) (hi : i.isImpure = false) (as : List Value) : P (i.apply f t as) := by
  unfold Intrinsic.apply
  split
  · exact hP.result _
  · exact hP.andThen (hP.of_arrayArg f _) fun _ => hP.andThen (hP.of_flatten _) fun _ => hP.result _
  · exact hP.andThen (hP.of_arrayArg f _) fun _ => hP.result _
  · exact hP.andThen (hP.of_arrayArg f _) fun _ => hP.result _
  · exact hP.andThen (hP.of_arrayArg f _) fun _ => hP.result _
  · exact hP.result _
  · exact hP.of_axisOf f _ _ _
  · exact hP.of_axisOf f _ _ _
  · exact hP.result _
  · exact hP.andThen (hP.of_argAt f _) fun _ => hP.of_convertTo t _
  · exact hP.result _
  · exact hP.result _
  · exact hP.result _
  · cases hi
  · cases hi
  · exact hP.andThen (hP.of_function f _) fun _ => hP.result _
  · exact hP.result _
  · cases hi
  · cases hi
  · exact hP.failure _

theorem of_callNamed (t : DataType) (name : String) (hname : (Intrinsic.ofName? name).any (·.isImpure) = false)
    (as : List Value) :
    P (callNamed f t name as) := by
  unfold callNamed
  split
  · rename_i i hi
    rw [hi] at hname
    exact hP.of_apply f t i hname as
  · split
    · have hoperands : P (as.mapM operand) := by
        induction as with
        | nil => exact hP.result _
        | cons x xs ih =>
          rw [List.mapM_cons]
          exact hP.andThen (hP.of_operand x) fun _ => hP.andThen ih fun _ => hP.result _
      exact hP.andThen hoperands fun _ => hP.andThen (hP.of_lift _) fun _ => hP.of_convertTo t _
    · exact hP.failure _

end Calls

/-! Expressions. -/

section Expressions
variable {f : Frame} {env : Env}

theorem of_evalAll {es : List Expr} (h : ∀ e ∈ es, P (e.eval f env)) : P (Expr.eval.evalAll f env es) := by
  induction es with
  | nil => exact hP.result _
  | cons e es ih =>
    obtain ⟨he, hes⟩ := List.forall_mem_cons.mp h
    exact hP.andThen he fun _ => hP.andThen (ih hes) fun _ => hP.result _

theorem of_evalMask {pred : Option Expr} (h : ∀ e ∈ pred, P (e.eval f env)) : P (Expr.eval.evalMask f env pred) := by
  cases pred with
  | none => exact hP.result _
  | some e => exact hP.andThen (h e rfl) fun _ => hP.result _

theorem of_branch {es : List Expr} (h : ∀ e ∈ es, P (e.eval f env)) : P (Expr.eval.branch f env es) := by
  rcases es with _ | ⟨c, _ | ⟨a, _ | ⟨b, _ | ⟨d, es⟩⟩⟩⟩
  · exact hP.failure _
  · exact hP.failure _
  · exact hP.failure _
  · refine hP.andThen (h c (by simp)) fun z => hP.read (fun m => hP.andThen (hP.of_lift _) fun p => ?_) fun _ _ h =>
      by simp only [h]
    split
    · exact h a (by simp)
    · exact h b (by simp)
  · exact hP.failure _

/-- The value of an expression has the property that its impure calls have, and so does the address that it stands for. -/
theorem of_eval {e : Expr} (h : e.Impurities fun t name => ∀ xs, P (callNamed f t name xs)) :
    ∀ env : Env, P (e.eval f env) ∧ ∀ es, P (Expr.eval.address f env (e :: es)) := by
  induction e with
  | var v =>
    refine fun env => ⟨?_, fun es => hP.failure _⟩
    simp only [Expr.eval]
    split
    · exact hP.result _
    · exact hP.failure _
  | const x t => exact fun env => ⟨hP.of_convertTo t _, fun es => hP.failure _⟩
  | str s => exact fun env => ⟨hP.result _, fun es => hP.failure _⟩
  | cast t a iha =>
    exact fun env => ⟨hP.andThen (iha (h.part (by simp [Expr.parts])) env).1 fun _ => hP.of_convertTo t _,
      fun es => hP.failure _⟩
  | bin op a b iha ihb =>
    exact fun env => ⟨hP.andThen (iha (h.part (by simp [Expr.parts])) env).1 fun x =>
      hP.andThen (ihb (h.part (by simp [Expr.parts])) env).1 fun y => hP.of_combine op a.dtype x y, fun es => hP.failure _⟩
  | not a iha =>
    exact fun env => ⟨hP.andThen (iha (h.part (by simp [Expr.parts])) env).1 fun x =>
      hP.andThen (hP.of_condition x) fun _ => hP.result _, fun es => hP.failure _⟩
  | select c a b ihc iha ihb =>
    refine fun env => ⟨?_, fun es => hP.failure _⟩
    exact hP.andThen (ihc (h.part (by simp [Expr.parts])) env).1 fun z =>
      hP.andThen (iha (h.part (by simp [Expr.parts])) env).1 fun x =>
      hP.andThen (ihb (h.part (by simp [Expr.parts])) env).1 fun y => hP.andThen (hP.of_chosen z x y) fun _ =>
        hP.of_convertTo a.dtype _
  | call t name args kind func index ih =>
    intro env
    have hall : ∀ a ∈ args, P (a.eval f env) := fun a ha => (ih a ha (h.part ha) env).1
    refine ⟨?_, fun es => hP.failure _⟩
    rw [Expr.eval_call]
    split_ifs
    · exact hP.failure _
    · exact hP.of_branch hall
    · cases args with
      | nil => exact hP.failure _
      | cons a as => exact (ih a List.mem_cons_self (h.part (by simp [Expr.parts])) env).2 as
    · refine hP.andThen (hP.of_evalAll hall) fun xs => ?_
      cases hname : (Intrinsic.ofName? name).any (·.isImpure) with
      | false => exact hP.of_callNamed f t name hname xs
      | true => exact h t name args kind func index (Expr.self_mem_postorder _) hname xs
  | bind v value body ihv ihb =>
    exact fun env => ⟨hP.andThen (ihv (h.part (by simp [Expr.parts])) env).1 fun x => hP.andThen (hP.of_place x) fun y =>
      (ihb (h.part (by simp [Expr.parts])) (env.set v y)).1, fun es => hP.failure _⟩
  | load t v index pred ihv ihi ihp =>
    refine fun env => ⟨?_, fun es => ?_⟩
    · exact hP.andThen (hP.of_lift _) fun a => hP.andThen (ihi (h.part (by simp [Expr.parts])) env).1 fun i =>
        hP.andThen (hP.of_evalMask fun e he => (ihp e he (h.part (by simp_all [Expr.parts])) env).1) fun mask =>
          hP.andThen (hP.of_loadFrom f v a i mask) fun x => hP.of_convertTo t x
    · exact hP.andThen (hP.of_lift _) fun a => hP.andThen (ihi (h.part (by simp [Expr.parts])) env).1 fun i => hP.result _
  | ramp base stride lanes iha ihb =>
    exact fun env => ⟨hP.andThen (iha (h.part (by simp [Expr.parts])) env).1 fun x =>
      hP.andThen (ihb (h.part (by simp [Expr.parts])) env).1 fun y => hP.andThen (hP.of_operand x) fun _ =>
        hP.andThen (hP.of_operand y) fun _ => hP.andThen (hP.of_lift _) fun _ => hP.of_convertTo _ _,
          fun es => hP.failure _⟩
  | broadcast a lanes iha =>
    exact fun env => ⟨hP.andThen (iha (h.part (by simp [Expr.parts])) env).1 fun x => hP.of_convertTo _ x,
      fun es => hP.failure _⟩
  | reduce => exact fun env => ⟨hP.failure _, fun es => hP.failure _⟩

end Expressions

end Compositional

end Run

end TensorNest

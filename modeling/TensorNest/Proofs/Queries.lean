import Mathlib.Algebra.Group.Nat.Defs
import TensorNest.Lowering.Convention
import TensorNest.Proofs.IndexArithmetic
import TensorNest.Proofs.Meaning
import TensorNest.Run.Call

/-! # Queries of arguments

A prologue asks for properties of the arguments and compares the answers with index arithmetic on the
variables that it has bound. A question has one answer on a machine and on all machines with more memory,
whatever the values of the variables are, or it is refused in all of them; index arithmetic on variables
with values of type `int32` has such a value or is too large for the type. -/

namespace TensorNest

/-- A machine with more memory. -/
def Machine.Extends (m m' : Machine) : Prop :=
  ∃ cells : Memory, m' = { m with memory := m.memory ++ cells }

namespace Machine.Extends

variable {m m' m'' : Machine}

theorem refl (m : Machine) : m.Extends m := ⟨#[], by simp⟩

theorem trans (h : m.Extends m') (h' : m'.Extends m'') : m.Extends m'' := by
  obtain ⟨cells, rfl⟩ := h
  obtain ⟨cells', rfl⟩ := h'
  exact ⟨cells ++ cells', by simp⟩

end Machine.Extends

/-! ### Steps with a result of their own -/

namespace Run

variable {α β : Type} {x : Run α} {k : α → Run β} {m : Machine} {a : α} {r : Except Error β} {e : Error}

/-- What a step does to a machine. -/
def on (x : Run α) (m : Machine) : Except Error α × Machine :=
  x.run.run m

theorem on_bind (x : Run α) (k : α → Run β) (m : Machine) :
    on (x >>= k) m =
      match on x m with
      | (.ok a, m') => on (k a) m'
      | (.error e, m') => (.error e, m') := by
  show ExceptT.bindCont k (on x m).1 (on x m).2 = _
  rcases on x m with ⟨_ | a, m'⟩ <;> rfl

theorem on_bind_eq_ok {m'' : Machine} {b : β} :
    on (x >>= k) m = (.ok b, m'') ↔ ∃ a m', on x m = (.ok a, m') ∧ on (k a) m' = (.ok b, m'') := by
  rw [on_bind]
  rcases on x m with ⟨_ | a, m'⟩ <;> simp

/-- What a step does that is given as a change of the machine with a result. -/
theorem on_step (step : Machine → Except Error α × Machine) (m : Machine) :
    on (do
      let (r, m') := step (← get)
      set m'
      liftM r) m = step m := by
  have hstep : on (do
      let (r, m') := step (← get)
      set m'
      liftM r) m = on (liftM (step m).1) (step m).2 := rfl
  rw [hstep]
  rcases step m with ⟨_ | _, _⟩ <;> rfl

/-- A step has one result on a machine and on all that extend it, and changes none of them. -/
def Settles (x : Run α) (m : Machine) (r : Except Error α) : Prop :=
  ∀ m', m.Extends m' → on x m' = (r, m')

theorem settles_pure (a : α) : Settles (pure a) m (.ok a) := fun _ _ => rfl

theorem settles_throw (e : Error) : Settles (throw e : Run α) m (.error e) := fun _ _ => rfl

theorem Settles.bind (hx : Settles x m (.ok a)) (hk : Settles (k a) m r) : Settles (x >>= k) m r := by
  intro m' hm
  rw [on_bind, hx m' hm]
  exact hk m' hm

theorem Settles.bind_error (hx : Settles x m (.error e)) : Settles (x >>= k) m (.error e) := by
  intro m' hm
  rw [on_bind, hx m' hm]

theorem Settles.unique {r r' : Except Error α} (h : Settles x m r) (h' : Settles x m r') : r = r' :=
  congrArg Prod.fst ((h m (.refl m)).symm.trans (h' m (.refl m)))

end Run

open Run

/-! ### Integers -/

/-- The integer types of queries and of the numbers that their answers are compared with, with the types of the elements
    that hold them. -/
inductive QueryType : DataType → ElemType → Prop
  | int32 : QueryType .int32 (.int 32)
  | uint8 : QueryType ⟨.uint, 8, 1⟩ (.uint 8)
  | uint16 : QueryType ⟨.uint, 16, 1⟩ (.uint 16)

variable {f : Frame} {env : Env} {m : Machine} {t : DataType} {et : ElemType}

theorem QueryType.isIndex (h : QueryType t et) : t.IsIndex := by
  cases h <;> exact ⟨rfl, rfl⟩

/-- A constant has its value, unless it is too large for its type. -/
theorem settles_const (h : QueryType t et) (n : Int) :
    Settles ((Expr.const (.int n) t).eval f env) m
      (if et.holds n then .ok (.scalar et (.int n)) else .error .overflow) := by
  have hnumber : et.ofNumber (.int n) = if et.holds n then .ok (.int n) else .error .overflow := by
    cases h <;> rfl
  intro m' _
  have hconvert : (Value.number (.int n)).cast m'.memory t =
      Value.ofNumeric <$> ((Numeric.typed et) <$> (Packed.one <$> et.ofNumber (.int n))) := by
    cases h <;> rfl
  show on (liftM ((Value.number (.int n)).cast m'.memory t) : Run Value) m' = _
  rw [hconvert, hnumber]
  split <;> rfl

theorem holds_int32 {n : Nat} (h : n < 2 ^ 31) : (ElemType.int 32).holds n := by
  have hpow : (Nat.pow 2 (32 - 1) : Nat) = 2 ^ 31 := rfl
  simp only [ElemType.holds, ElemType.least, ElemType.greatest, hpow, Bool.and_eq_true, decide_eq_true_eq]
  omega

theorem settles_int32 {n : Nat} (h : n < 2 ^ 31) : Settles ((Expr.int32 n).eval f env) m (.ok (.int32 n)) := by
  have hconst : Settles ((Expr.int32 n).eval f env) m _ := settles_const QueryType.int32 n
  rwa [if_pos (holds_int32 h)] at hconst

/-- Arithmetic on integers of a type gives an integer of the type. -/
theorem combine_int (h : QueryType t et) {op : BinOp} (hop : op.isLogical = false) (a b : Int) :
    ∃ n : Int, ∀ m, Settles (combine op t (.scalar et (.int a)) (.scalar et (.int b))) m (.ok (.scalar et (.int n))) := by
  cases op with
  | add | sub | mul | min | max | div | mod => cases h <;> exact ⟨_, fun _ _ _ => rfl⟩
  | _ => cases hop

/-- A comparison of integers, whatever types hold them. -/
theorem combine_eq {et' : ElemType} (ht : et.isFloat = false) (ht' : et'.isFloat = false) (u : DataType) (a b : Int) :
    Settles (combine .eq u (.scalar et (.int a)) (.scalar et' (.int b))) m (.ok (.scalar .bool (.bool (a == b)))) := by
  intro m' _
  have hcompare : Numeric.compare .eq (.typed et (.one (.int a))) (.typed et' (.one (.int b))) =
      .ok (.typed .bool (.one (.bool (a == b)))) := by
    simp only [Numeric.compare, Numeric.isFloat, ht, ht']
    rfl
  show on (liftM (Numeric.compare .eq (.typed et (.one (.int a))) (.typed et' (.one (.int b)))) >>= _) m' = _
  rw [hcompare]
  rfl

/-! ### Queries -/

open Prologue (query)

variable {p : String} {i : Intrinsic} {ns : List Nat}

theorem evalAll_int32 (h : ∀ n ∈ ns, n < 2 ^ 31) :
    Settles (Expr.eval.evalAll f env (ns.map fun (n : Nat) => Expr.int32 n)) m
      (.ok (ns.map fun (n : Nat) => .int32 n)) := by
  induction ns with
  | nil => exact settles_pure _
  | cons n ns ih =>
    obtain ⟨hn, hns⟩ := List.forall_mem_cons.mp h
    exact (settles_int32 hn).bind ((ih hns).bind (settles_pure _))

/-- The call of an intrinsic is its application to the values of the arguments. -/
theorem eval_intrinsic {args : List Expr} (hp : Intrinsic.ofName? p = some i) :
    (Expr.intrinsic t p args).eval f env = Expr.eval.evalAll f env args >>= fun xs => i.apply f t xs := by
  have hbranch : (p == "xte_if_then_else") = false := by
    refine beq_eq_false_iff_ne.mpr ?_
    rintro rfl
    cases hp
  have haddress : (p == "xte_address_of") = false := by
    refine beq_eq_false_iff_ne.mpr ?_
    rintro rfl
    cases hp
  have heval : (Expr.intrinsic t p args).eval f env = Expr.eval.evalAll f env args >>= fun xs => callNamed f t p xs := by
    simp [Expr.intrinsic, Expr.callOf, Expr.eval, hbranch, haddress]
  rw [heval]
  simp only [callNamed, hp]

theorem function_text {e : Entry} {name : String} {resolve : String → Except Error Entry}
    (hresolve : f.resolve = some resolve)
    (hname : resolve name = .ok e) : f.function (.text name) = pure e := by
  funext s
  simp only [Frame.function, hresolve, Value.shown, hname]
  rfl

/-- The answer to a query is that of its intrinsic. -/
theorem eval_query (hp : Intrinsic.ofName? p = some i) (h : ∀ n ∈ ns, n < 2 ^ 31) {m' : Machine} (hm : m.Extends m') :
    on ((query t p ns).eval f env) m' = on (i.apply f t (ns.map fun (n : Nat) => .int32 n)) m' := by
  rw [query, eval_intrinsic hp, on_bind, evalAll_int32 h m' hm]

/-- The caller of a function sees an error as a failure of the call. -/
def Error.FailsCall (e : Error) : Prop :=
  ∀ function, (e.atCall function).category = .callFailure

/-- An expression has a value, whatever the values of the variables are. -/
def Answers (f : Frame) (m : Machine) (q : Expr) (x : Value) : Prop :=
  ∀ env, Settles (q.eval f env) m (.ok x)

/-- An expression has no value, whatever the values of the variables are, and the call fails. -/
def Refuses (f : Frame) (m : Machine) (q : Expr) : Prop :=
  ∃ e : Error, e.FailsCall ∧ ∀ env, Settles (q.eval f env) m (.error e)

/-- An expression has a value with a property, whatever the values of the variables are; to find it may take more memory. -/
def Yields (f : Frame) (m : Machine) (q : Expr) (P : Value → Prop) : Prop :=
  ∀ env m', m.Extends m' → ∃ x m'', on (q.eval f env) m' = (.ok x, m'') ∧ m'.Extends m'' ∧ P x

/-- A value that an expression can have. -/
def Possible (f : Frame) (m : Machine) (q : Expr) (y : Value) : Prop :=
  ∃ env m' m'', m.Extends m' ∧ on (q.eval f env) m' = (.ok y, m'')

/-- An expression has an integer for its value, or none. -/
def Decides (f : Frame) (m : Machine) (q : Expr) (et : ElemType) : Option Int → Prop
  | some n => Answers f m q (.scalar et (.int n))
  | none => Refuses f m q

/-- The array that an argument is. -/
def Value.view? : Value → Option View
  | array a => some a
  | _ => none

/-- The extent of an axis that an array has. -/
def View.extent? (a : View) (d : Nat) : Option Int :=
  a.shape[d]?.map fun (n : Nat) => (n : Int)

/-- The stride of an axis that an array has. -/
def View.stride? (a : View) (d : Nat) : Option Int :=
  if d < a.rank then a.strides[d]? else none

theorem failsCall_failure (f : Frame) (diagnostic : String) : (f.failure diagnostic).FailsCall := fun _ => rfl

section Arguments

variable {k d : Nat} {v : Value}

theorem argAt_settles (hv : f.args[k]? = some v) : Settles (f.argAt (.int32 k)) m (.ok ((k : Int), v)) := by
  have hfound : (if 0 ≤ (k : Int) then f.args[(k : Int).toNat]? else none) = some v := by
    rw [if_pos (Int.natCast_nonneg k), Int.toNat_natCast, hv]
  intro m' _
  have hget : on (get : Run Machine) m' = (.ok m', m') := rfl
  have hposition : on (liftM ((Value.int32 k).toInt m'.memory) : Run Int) m' = (.ok (k : Int), m') := rfl
  simp only [Frame.argAt, on_bind, hget, hposition, hfound]
  rfl

theorem arrayArg_settles (hv : f.args[k]? = some v) :
    (∃ a, v.view? = some a ∧ Settles (f.arrayArg (.int32 k)) m (.ok ((k : Int), a))) ∨
      v.view? = none ∧ ∃ diagnostic, Settles (f.arrayArg (.int32 k)) m (.error (f.failure diagnostic)) := by
  unfold Frame.arrayArg
  cases v with
  | array a => exact Or.inl ⟨a, rfl, (argAt_settles hv).bind (settles_pure _)⟩
  | _ => exact Or.inr ⟨rfl, _, (argAt_settles hv).bind (settles_throw _)⟩

/-- An intrinsic that looks at an array decides what it decides for the array, and it refuses what is no array. -/
theorem decides_of_array {rest : Int × View → Run Value} {answer : View → Option Int} (hp : Intrinsic.ofName? p = some i)
    (hns : ∀ n ∈ ns, n < 2 ^ 31) (hv : f.args[k]? = some v)
    (happly : i.apply f t (ns.map fun (n : Nat) => .int32 n) = f.arrayArg (.int32 k) >>= rest)
    (hsome : ∀ a n, answer a = some n → Settles (rest (k, a)) m (.ok (.scalar et (.int n))))
    (hnone : ∀ a, answer a = none → ∃ e : Error, e.FailsCall ∧ Settles (rest (k, a)) m (.error e)) :
    Decides f m (query t p ns) et (v.view?.bind answer) := by
  have heval : ∀ {r}, Settles (f.arrayArg (.int32 k) >>= rest) m r → ∀ env, Settles ((query t p ns).eval f env) m r := by
    intro r hr env m' hm
    rw [eval_query hp hns hm, happly]
    exact hr m' hm
  rcases arrayArg_settles (m := m) hv with ⟨a, ha, harg⟩ | ⟨hv, diagnostic, harg⟩
  · rw [ha, Option.bind_some]
    cases hanswer : answer a with
    | some n => exact heval (harg.bind (hsome a n hanswer))
    | none =>
      obtain ⟨e, he, hrest⟩ := hnone a hanswer
      exact ⟨e, he, heval (harg.bind hrest)⟩
  · rw [hv, Option.bind_none]
    exact ⟨_, failsCall_failure f diagnostic, heval harg.bind_error⟩

theorem decides_axis {get : View → List Int} (hp : Intrinsic.ofName? p = some i) (hk : k < 2 ^ 31) (hd : d < 2 ^ 31)
    (hv : f.args[k]? = some v)
    (happly : i.apply f t [.int32 k, .int32 d] = f.axisOf (.int32 k) (.int32 d) get) :
    Decides f m (query t p [k, d]) (.int 32) (v.view?.bind fun a => if d < a.rank then (get a)[d]? else none) := by
  have hitem : ∀ a : View, itemAt? (get a) d = (get a)[d]? := fun a => by
    simp [itemAt?]
  refine decides_of_array hp (List.forall_mem_cons.mpr ⟨hk, List.forall_mem_singleton.mpr hd⟩) hv happly ?_ ?_
  · intro a n hn m' hm
    split at hn
    · rename_i hlt
      show on (ite ((a.rank : Int) ≤ d) _ _) m' = _
      rw [if_neg (by omega), hitem, hn]
      rfl
    · cases hn
  · intro a hn
    by_cases hlt : d < a.rank
    · rw [if_pos hlt] at hn
      refine ⟨.invalidOperand, fun _ => rfl, fun m' hm => ?_⟩
      show on (ite ((a.rank : Int) ≤ d) _ _) m' = _
      rw [if_neg (by omega), hitem, hn]
      rfl
    · refine ⟨_, failsCall_failure f
        ("arg" ++ toString (k : Int) ++ ".ndim is expected to be greater than " ++ toString (d : Int)),
        fun m' hm => ?_⟩
      show on (ite ((a.rank : Int) ≤ d) _ _) m' = _
      rw [if_pos (by omega)]
      rfl

/-- An intrinsic that gives an integer for any array. -/
theorem decides_property {value : View → Int} (hp : Intrinsic.ofName? p = some i) (hk : k < 2 ^ 31)
    (hv : f.args[k]? = some v)
    (happly : i.apply f t [.int32 k] =
      f.arrayArg (.int32 k) >>= fun r : Int × View => pure (.scalar et (.int (value r.2)))) :
    Decides f m (query t p [k]) et (v.view?.bind fun a => some (value a)) := by
  refine decides_of_array hp (List.forall_mem_singleton.mpr hk) hv happly (fun a n hn => ?_) fun a hn => nomatch hn
  obtain rfl := Option.some.inj hn
  exact settles_pure _

theorem decides_rank (hk : k < 2 ^ 31) (hv : f.args[k]? = some v) :
    Decides f m (query .int32 "xte_arg_ndim" [k]) (.int 32) (v.view?.bind fun a => some (a.rank : Int)) :=
  decides_property rfl hk hv rfl

theorem decides_code (hk : k < 2 ^ 31) (hv : f.args[k]? = some v) :
    Decides f m (query ⟨.uint, 8, 1⟩ "xte_arg_type_code" [k]) (.uint 8)
      (v.view?.bind fun a => some (a.type.dataType.code.toNat : Int)) :=
  decides_property rfl hk hv rfl

theorem decides_bits (hk : k < 2 ^ 31) (hv : f.args[k]? = some v) :
    Decides f m (query ⟨.uint, 8, 1⟩ "xte_arg_type_bits" [k]) (.uint 8)
      (v.view?.bind fun a => some (a.type.dataType.bits : Int)) :=
  decides_property rfl hk hv rfl

theorem decides_extent (hk : k < 2 ^ 31) (hd : d < 2 ^ 31) (hv : f.args[k]? = some v) :
    Decides f m (query .int32 "xte_arg_shape" [k, d]) (.int 32) (v.view?.bind fun a => a.extent? d) := by
  have hextent : ∀ a : View, a.extent? d = if d < a.rank then (a.shape.map fun (n : Nat) => (n : Int))[d]? else none := by
    intro a
    by_cases hlt : d < a.shape.length <;> simp [View.extent?, View.rank, hlt]
  simp only [hextent]
  exact decides_axis rfl hk hd hv rfl

theorem decides_stride (hk : k < 2 ^ 31) (hd : d < 2 ^ 31) (hv : f.args[k]? = some v) :
    Decides f m (query .int32 "xte_arg_stride" [k, d]) (.int 32) (v.view?.bind fun a => a.stride? d) :=
  decides_axis rfl hk hd hv rfl

/-- The elements of an array as one row, on a machine that extends another one. -/
def View.Row (a : View) (m : Machine) (x : Value) : Prop :=
  ∃ cells : Memory, x = .array (Memory.flatten (m.memory ++ cells) a).2

theorem extends_flatten (m : Machine) (a : View) : m.Extends { m with memory := (m.memory.flatten a).1 } := by
  unfold Memory.flatten Memory.reshape
  split
  · exact .refl m
  · exact ⟨#[(a.elements m.memory).toArray], by simp [Memory.addArray, Memory.add]⟩

theorem on_data {a : View} (hk : k < 2 ^ 31) (hv : f.args[k]? = some (.array a)) {m' : Machine} (hm : m.Extends m') :
    on ((query .handle "xte_arg_data" [k]).eval f env) m' =
      (.ok (.array (m'.memory.flatten a).2), { m' with memory := (m'.memory.flatten a).1 }) := by
  rw [eval_query rfl (List.forall_mem_singleton.mpr hk) hm]
  rcases arrayArg_settles (m := m) hv with ⟨a', ha, harg⟩ | ⟨hnone, -⟩
  · obtain rfl := Option.some.inj ha
    show on (f.arrayArg (.int32 k) >>= _) m' = _
    rw [on_bind, harg m' hm]
    rfl
  · cases hnone

theorem yields_data {a : View} (hk : k < 2 ^ 31) (hv : f.args[k]? = some (.array a)) :
    Yields f m (query .handle "xte_arg_data" [k]) (a.Row m) := by
  intro env m' hm
  refine ⟨_, _, on_data hk hv hm, extends_flatten m' a, ?_⟩
  obtain ⟨cells, rfl⟩ := hm
  exact ⟨cells, rfl⟩

theorem possible_data {a : View} (hk : k < 2 ^ 31) (hv : f.args[k]? = some (.array a)) {y : Value} :
    Possible f m (query .handle "xte_arg_data" [k]) y ↔ a.Row m y := by
  constructor
  · rintro ⟨env, m', m'', ⟨cells, rfl⟩, heval⟩
    rw [on_data hk hv ⟨cells, rfl⟩] at heval
    exact ⟨cells, (Except.ok.inj (congrArg Prod.fst heval)).symm⟩
  · rintro ⟨cells, rfl⟩
    exact ⟨[], { m with memory := m.memory ++ cells }, _, ⟨cells, rfl⟩, on_data hk hv ⟨cells, rfl⟩⟩

theorem refuses_data (hk : k < 2 ^ 31) (hv : f.args[k]? = some v) (hview : v.view? = none) :
    Refuses f m (query .handle "xte_arg_data" [k]) := by
  rcases arrayArg_settles (m := m) hv with ⟨a, ha, -⟩ | ⟨-, diagnostic, harg⟩
  · rw [hview] at ha
    cases ha
  · refine ⟨_, failsCall_failure f diagnostic, fun env m' hm => ?_⟩
    rw [eval_query rfl (List.forall_mem_singleton.mpr hk) hm]
    exact harg.bind_error m' hm

/-- A value becomes another one when it is converted to a type, also when there is more memory. -/
def Value.Becomes (m : Machine) (t : DataType) (x y : Value) : Prop :=
  ∀ m', m.Extends m' → x.cast m'.memory t = .ok y

theorem answers_value {y : Value} (hk : k < 2 ^ 31) (hv : f.args[k]? = some v) (hy : v.Becomes m t y) :
    Answers f m (query t "xte_arg_value" [k]) y := by
  intro env m' hm
  rw [eval_query rfl (List.forall_mem_singleton.mpr hk) hm]
  refine (argAt_settles hv).bind (r := .ok y) (fun m' hm => ?_) m' hm
  show on (liftM (v.cast m'.memory t)) m' = _
  rw [hy m' hm]
  rfl

theorem ofNumber_int32 {x y : Number} (h : (ElemType.int 32).ofNumber x = .ok y) : ∃ n, y = .int n := by
  unfold ElemType.ofNumber at h
  cases hx : x.toInt with
  | error e => simp [hx, bind, Except.bind] at h
  | ok n =>
    simp only [hx, bind, Except.bind] at h
    split at h
    · split at h
      · exact ⟨_, (Except.ok.inj h).symm⟩
      · cases h
    · split at h
      · exact ⟨_, (Except.ok.inj h).symm⟩
      · cases h

theorem convert_int32 (x : Number) : ∃ n, (ElemType.int 32).convert x = .int n := by
  unfold ElemType.convert
  cases x.split <;> exact ⟨_, rfl⟩

theorem cast_int32 {a : Numeric} {y : Value} (h : Value.ofNumeric <$> a.cast (.int 32) = .ok y)
    (hy : ∀ et xs, y ≠ .vector et xs) : ∃ n, y = .int32 n := by
  cases a with
  | free x =>
    cases hx : (ElemType.int 32).ofNumber x with
    | error e => simp [Numeric.cast, Numeric.lanesIn, hx, bind, Except.bind, Functor.map, Except.map] at h
    | ok z =>
      obtain ⟨n, rfl⟩ := ofNumber_int32 hx
      simp only [Numeric.cast, Numeric.lanesIn, hx, bind, Except.bind, Functor.map, Except.map] at h
      exact ⟨n, (Except.ok.inj h).symm⟩
  | typed t xs =>
    cases xs with
    | one x =>
      obtain ⟨n, hn⟩ := convert_int32 x
      refine ⟨n, ?_⟩
      rw [← Except.ok.inj h, Value.int32, ← hn]
      rfl
    | many xs => exact absurd (Except.ok.inj h).symm (hy _ _)

/-- What becomes a single value of type `int32` is an integer. -/
theorem Value.Becomes.int32 {x y : Value} (h : x.Becomes m .int32 y) (hy : ∀ et xs, y ≠ .vector et xs) :
    ∃ n, y = .int32 n := by
  have hcast : x.cast m.memory .int32 = .ok y := h m (.refl m)
  have hnumeric : ∀ r : Except Error Numeric, (r >>= fun a => a.cast (.int 32) >>= fun b => pure (Value.ofNumeric b)) =
      .ok y →
      ∃ n, y = .int32 n := by
    intro r hr
    cases r with
    | error e => cases hr
    | ok a => exact cast_int32 hr hy
  cases hx : x with
  | text s =>
    have hread : (Value.readElement (.int 32) s >>= fun z => pure (Value.scalar (.int 32) z)) = .ok y := by
      rw [← hcast, hx]
      rfl
    cases hs : Number.readInt s with
    | error e => simp [Value.readElement, hs, bind, Except.bind] at hread
    | ok n =>
      cases hz : (ElemType.int 32).ofNumber (.int n) with
      | error e => simp [Value.readElement, hs, hz, bind, Except.bind] at hread
      | ok z =>
        obtain ⟨k, rfl⟩ := ofNumber_int32 hz
        simp only [Value.readElement, hs, hz, bind, Except.bind] at hread
        exact ⟨k, (Except.ok.inj hread).symm⟩
  | nothing =>
    rw [hx] at hcast
    cases hcast
  | list xs =>
    have hlist : (Value.numbers xs >>= fun ns => ns.mapM (ElemType.int 32).ofNumber >>= fun zs =>
        pure (Value.vector (.int 32) zs)) = .ok y := by
      rw [← hcast, hx]
      rfl
    cases hns : Value.numbers xs with
    | error e => simp [hns, bind, Except.bind] at hlist
    | ok ns =>
      cases hzs : ns.mapM (ElemType.int 32).ofNumber with
      | error e => simp [hns, hzs, bind, Except.bind] at hlist
      | ok zs =>
        simp only [hns, hzs, bind, Except.bind] at hlist
        exact absurd (Except.ok.inj hlist).symm (hy _ _)
  | _ =>
    refine hnumeric (x.numeric m.memory) ?_
    rw [← hcast, hx]
    rfl

end Arguments

/-- A query that looks at no argument has the answer of its intrinsic. -/
theorem decides_fixed {n : Int} (hp : Intrinsic.ofName? p = some i) (hns : ∀ n ∈ ns, n < 2 ^ 31)
    (happly : i.apply f t (ns.map fun (n : Nat) => .int32 n) = pure (.scalar et (.int n))) :
    Decides f m (query t p ns) et (some n) := by
  intro env m' hm
  rw [eval_query hp hns hm, happly]
  rfl

/-! ### Comparisons with answers -/

section Comparisons

variable {a b c e q : Expr} {env' : Env}

/-- Index arithmetic on integers of its type gives an integer of the type, unless a constant in it is too large or a
    variable has no value. -/
theorem settles_index (h : QueryType t et) (he : e.Index t)
    (henv : ∀ x ∈ e.freeIds, ∀ y, env.lookup x = some y → ∃ n : Int, y = .scalar et (.int n)) :
    (∃ n : Int, ∀ m, Settles (e.eval f env) m (.ok (.scalar et (.int n)))) ∨
      ∃ x : Error, (x.FailsCall ∨ ∃ z ∈ e.freeIds, env.lookup z = none) ∧ ∀ m, Settles (e.eval f env) m (.error x) := by
  induction he with
  | @var v _ =>
    have hmem : v.id ∈ (Expr.var v).freeIds := List.mem_singleton_self _
    cases hget : env.get? v with
    | some y =>
      obtain ⟨n, rfl⟩ := henv v.id hmem y hget
      refine Or.inl ⟨n, fun m => ?_⟩
      simp only [Expr.eval, hget]
      exact settles_pure _
    | none =>
      refine Or.inr ⟨f.missing ("unbound variable " ++ v.name), Or.inr ⟨v.id, hmem, hget⟩, fun m => ?_⟩
      simp only [Expr.eval, hget]
      exact settles_throw _
  | const n =>
    by_cases hholds : et.holds n
    · exact Or.inl ⟨n, fun m => by simpa only [if_pos hholds] using settles_const h n⟩
    · exact Or.inr ⟨.overflow, Or.inl fun _ => rfl, fun m => by simpa only [if_neg hholds] using settles_const h n⟩
  | @bin op a b hop ha hb iha ihb =>
    simp only [Expr.freeIds, List.forall_mem_append] at henv
    have hlost : ∀ {c : Expr} {x : Error}, c = a ∨ c = b → (x.FailsCall ∨ ∃ z ∈ c.freeIds, env.lookup z = none) →
        x.FailsCall ∨ ∃ z ∈ (Expr.bin op a b).freeIds, env.lookup z = none := by
      rintro c x hc (hx | ⟨z, hz, hnone⟩)
      · exact Or.inl hx
      · refine Or.inr ⟨z, ?_, hnone⟩
        rcases hc with rfl | rfl
        · exact List.mem_append_left _ hz
        · exact List.mem_append_right _ hz
    rcases iha henv.1 with ⟨x, hx⟩ | ⟨x, hfail, hx⟩
    · rcases ihb henv.2 with ⟨y, hy⟩ | ⟨y, hfail, hy⟩
      · obtain ⟨n, hn⟩ := combine_int h hop x y
        refine Or.inl ⟨n, fun m => (hx m).bind ((hy m).bind ?_)⟩
        rw [ha.dtype]
        exact hn m
      · exact Or.inr ⟨y, hlost (Or.inr rfl) hfail, fun m => (hx m).bind (hy m).bind_error⟩
    · exact Or.inr ⟨x, hlost (Or.inl rfl) hfail, fun m => (hx m).bind_error⟩

/-- Index arithmetic looks at the values of its variables only. -/
theorem eval_index_congr (he : e.Index t) (henv : ∀ x ∈ e.freeIds, env.lookup x = env'.lookup x) :
    e.eval f env = e.eval f env' := by
  induction he with
  | @var v _ =>
    have hget : env.get? v = env'.get? v := henv v.id (by simp [Expr.freeIds])
    simp only [Expr.eval, hget]
  | const n => rfl
  | bin hop ha hb iha ihb =>
    simp only [Expr.freeIds, List.forall_mem_append] at henv
    simp only [Expr.eval, iha henv.1, ihb henv.2]

/-- A condition is true. -/
def Passes (f : Frame) (m : Machine) (env : Env) (c : Expr) : Prop :=
  Settles (c.eval f env) m (.ok (.scalar .bool (.bool true)))

/-- A condition is true or false, or the call fails, or else something is lost. -/
def Judged (f : Frame) (m : Machine) (env : Env) (lost : Prop) (c : Expr) : Prop :=
  (∃ b, Settles (c.eval f env) m (.ok (.scalar .bool (.bool b)))) ∨
    ∃ x : Error, (x.FailsCall ∨ lost) ∧ Settles (c.eval f env) m (.error x)

variable {lost : Prop}

/-- What a comparison of an answer with an expression comes to. -/
theorem judged_eq {n? : Option Int} {et' : ElemType} (hq : Decides f m q et n?) (hfloat : et.isFloat = false)
    (hfloat' : et'.isFloat = false) (he : (∃ n : Int, Settles (e.eval f env) m (.ok (.scalar et' (.int n)))) ∨
      ∃ x : Error, (x.FailsCall ∨ lost) ∧ Settles (e.eval f env) m (.error x)) :
    Judged f m env lost (.bin .eq q e) ∧ (Passes f m env (.bin .eq q e) ↔
      ∃ n, n? = some n ∧ Settles (e.eval f env) m (.ok (.scalar et' (.int n)))) := by
  cases n? with
  | none =>
    obtain ⟨x, hx, hq⟩ := hq
    have hrefused : Settles ((Expr.bin .eq q e).eval f env) m (.error x) := (hq env).bind_error
    refine ⟨Or.inr ⟨x, Or.inl hx, hrefused⟩, fun hpass => (nomatch hpass.unique hrefused), ?_⟩
    rintro ⟨n, hn, -⟩
    cases hn
  | some k =>
    rcases he with ⟨n, he⟩ | ⟨x, hx, he⟩
    · have hanswer : Settles ((Expr.bin .eq q e).eval f env) m (.ok (.scalar .bool (.bool (k == n)))) :=
        (hq env).bind (he.bind (combine_eq hfloat hfloat' _ k n))
      refine ⟨Or.inl ⟨_, hanswer⟩, fun hpass => ?_, ?_⟩
      · have htrue : (k == n) = true := by simpa using hanswer.unique hpass
        obtain rfl := beq_iff_eq.mp htrue
        exact ⟨k, rfl, he⟩
      · rintro ⟨k', hk, he'⟩
        obtain rfl := Option.some.inj hk
        have hkn : n = k := by simpa using he.unique he'
        subst hkn
        simpa [Passes] using hanswer
    · have hfail : Settles ((Expr.bin .eq q e).eval f env) m (.error x) := (hq env).bind he.bind_error
      refine ⟨Or.inr ⟨x, hx, hfail⟩, fun hpass => (nomatch hpass.unique hfail), ?_⟩
      rintro ⟨n, -, he'⟩
      cases he.unique he'

/-- A conjunction is true if both sides are. Both sides are always looked at. -/
theorem judged_and (ha : Judged f m env lost a) (hb : Judged f m env lost b) :
    Judged f m env lost (.bin .and a b) ∧ (Passes f m env (.bin .and a b) ↔ Passes f m env a ∧ Passes f m env b) := by
  rcases ha with ⟨x, ha⟩ | ⟨x, hx, ha⟩
  · rcases hb with ⟨y, hb⟩ | ⟨y, hy, hb⟩
    · have hboth : Settles ((Expr.bin .and a b).eval f env) m (.ok (.scalar .bool (.bool (x && y)))) :=
        ha.bind (hb.bind fun _ _ => rfl)
      refine ⟨Or.inl ⟨_, hboth⟩, fun hpass => ?_, ?_⟩
      · have htrue : (x && y) = true := by simpa using hboth.unique hpass
        obtain ⟨rfl, rfl⟩ := Bool.and_eq_true_iff.mp htrue
        exact ⟨ha, hb⟩
      · rintro ⟨ha', hb'⟩
        obtain rfl : x = true := by simpa using ha.unique ha'
        obtain rfl : y = true := by simpa using hb.unique hb'
        exact hboth
    · have hfail : Settles ((Expr.bin .and a b).eval f env) m (.error y) := ha.bind hb.bind_error
      refine ⟨Or.inr ⟨y, hy, hfail⟩, fun hpass => (nomatch hpass.unique hfail), ?_⟩
      rintro ⟨-, hb'⟩
      cases hb.unique hb'
  · have hfail : Settles ((Expr.bin .and a b).eval f env) m (.error x) := ha.bind_error
    refine ⟨Or.inr ⟨x, hx, hfail⟩, fun hpass => (nomatch hpass.unique hfail), ?_⟩
    rintro ⟨ha', -⟩
    cases ha.unique ha'

end Comparisons

end TensorNest

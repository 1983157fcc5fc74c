import TensorNest.Proofs.Tidiness

/-! # Tidied statements do the same -/

namespace TensorNest

variable {p q : Relocation} {f : Frame} {xs : List Value}

/-! ### Threads without deeds -/

/-- What has no effect can be left out. -/
theorem Thread.Idle.tracks {α β : Type} {P : α → Prop} {R : Relocation → α → β → Prop} {x : Thread α} {b : β}
    (h : Thread.Idle [] P x)
    (hR : ∀ a, P a → ∀ q, p.Extends q → R q a b) : Thread.Tracks False p R x (pure b) := by
  intro q hq l l' m m' hl hm
  obtain ⟨r, l₁, m₁, hx, hok⟩ := h l m
  rw [hx]
  cases r with
  | error e => exact .failed rfl
  | ok a =>
    obtain ⟨hP, hext, hwithin⟩ := hok a rfl
    refine .done (.refl q) (hm.of_extends hext) ⟨a, b, rfl, rfl, hR a hP q hq, fun k y hy => ?_, False.elim⟩
    exact hl.env k y (hwithin k (by simp) y hy)

/-! ### Negated conditions -/

theorem on_condition_of_ok {x : Value} {m : Machine} {c : Numeric} (h : x.numeric m.memory = .ok c) :
    Run.on (condition x) m = (.ok c, m) := by
  unfold condition
  rw [Run.on_bind, show Run.on get m = (.ok m, m) from rfl]
  dsimp only
  rw [h]
  rfl

theorem on_condition_of_error {x : Value} {m : Machine} {e : Error} {b : Bool} (h : x.numeric m.memory = .error e)
    (hb : x.truth m.memory = .ok b) : Run.on (condition x) m = (.ok (.free (.bool b)), m) := by
  unfold condition
  rw [Run.on_bind, show Run.on get m = (.ok m, m) from rfl]
  dsimp only
  rw [h, hb]
  rfl

/-- Only one number has a truth. -/
theorem truthy_of_one {ys : List Number} {b : Bool} (h : (match ys with
      | [y] => pure y.truthy
      | [] => throw .emptyTruth
      | _ => throw .ambiguousTruth : Except Error Bool) = .ok b) : ys.map (·.truthy) = [b] := by
  rcases ys with _ | ⟨y, _ | ⟨z, ys⟩⟩
  · cases h
  · cases h
    rfl
  · cases h

/-- The truth of a value that is no list is that of one number. -/
theorem on_condition {x x' : Value} {m : Machine} {b : Bool} (hx : x.Moved p x') (h : x'.truth m.memory = .ok b) :
    ∃ c : Numeric, Run.on (condition x') m = (.ok c, m) ∧ c.lanes.toList.map (·.truthy) = [b] := by
  cases hx with
  | number y => exact ⟨_, on_condition_of_ok rfl, truthy_of_one h⟩
  | scalar t y => exact ⟨_, on_condition_of_ok rfl, truthy_of_one h⟩
  | vector t ys => exact ⟨_, on_condition_of_ok rfl, truthy_of_one h⟩
  | array => exact ⟨_, on_condition_of_ok rfl, truthy_of_one h⟩
  | text | nothing | pointer | function | other => exact ⟨_, on_condition_of_error rfl h, rfl⟩

/-- The number of a negated condition is that of its negation. -/
theorem truth_not {c : Numeric} {b : Bool} (h : c.lanes.toList.map (·.truthy) = [b]) (m : Memory) :
    (Value.ofNumeric c.not).truth m = .ok !b := by
  cases hc : c.lanes with
  | one y =>
    rw [hc] at h
    cases h
    simp only [Numeric.not, hc]
    rfl
  | many ys =>
    rw [hc] at h
    obtain ⟨y, rfl, rfl⟩ := List.map_eq_singleton_iff.mp h
    simp only [Numeric.not, hc]
    rfl

namespace Thread

theorem ofRun_bind {α β : Type} (x : Run α) (k : α → Run β) :
    (ofRun (x >>= k) : Thread β) = ofRun x >>= fun a => ofRun (k a) := by
  funext l m
  have hstart {γ : Type} (z : Run γ) (l : Local) (m : Machine) :
      (ofRun z).start l m = .done ((Run.on z m).1, l) (Run.on z m).2 := rfl
  show (ofRun (x >>= k)).start l m = (ofRun x >>= fun a => ofRun (k a)).start l m
  rw [start_bind, hstart, hstart, Run.on_bind]
  rcases Run.on x m with ⟨_ | a, m₁⟩ <;> rfl

/-- A constant of a boolean type holds if its number counts as true. -/
theorem idle_holds_const {v : Number} {t : DataType} (ht : t.isBool = true) :
    Idle [] (· = v.truthy) (holds f (.const v t)) := by
  have hvalue : Idle [] (fun x : Value => ∀ m b, x.truth m = .ok b → b = v.truthy) (value f (.const v t)) := by
    refine idle_get fun l => idle_result (idle_convertTo t (.number v)) fun m x m₁ hx m' b hb => ?_
    have hcast : (Value.ofNumeric (.free v)).cast m.memory t = .ok x := congrArg Prod.fst hx
    have het : t.elemType = .ok .bool := by rw [DataType.elemType, if_pos ht]
    rw [cast_ofNumeric het] at hcast
    split at hcast
    · rename_i hlanes
      obtain ⟨c, hc, hcast⟩ := bind_eq_ok.mp hcast
      obtain ⟨ys, rfl, hlen⟩ := spread_eq_ok hc
      cases hcast
      -- There is no telling of several numbers.
      rcases ys with _ | ⟨y, _ | ⟨z, ys⟩⟩
      · cases hb
      · simp only [List.length_cons, List.length_nil] at hlen
        omega
      · cases hb
    · obtain ⟨c, hc, hcast⟩ := bind_eq_ok.mp hcast
      cases hc
      cases hcast
      cases hb
      rfl
  exact hvalue.bind fun x hx => idle_result (Run.idle_get.bind fun _ => Run.idle_lift _) fun m b m₁ hb =>
    hx m.memory b (congrArg Prod.fst hb)

theorem holds_bool (f : Frame) (b : Bool) : holds f (Expr.bool b) = pure b := by
  funext l m
  cases b <;> rfl

variable (hcall : Relocatable f.call) (hargs : ValuesMoved p f.args xs)
include hcall hargs

/-- The negation of a condition of a boolean type holds where the condition does not. -/
theorem tracks_negated {cond c : Expr} (hbool : cond.dtype.isBool = true) (hc : Expr.logicalNot cond = .ok c) :
    Tracks False p (fun _ b b' => b' = !b) (holds f cond) (holds { f with args := xs } c) := by
  have hasBool : Expr.asBool cond =
    if cond.dtype.isBool then .ok cond else Expr.ofInt 0 cond.dtype.element >>= fun zero => Expr.ne cond zero := rfl
  rw [Expr.logicalNot, hasBool, if_pos hbool] at hc
  by_cases hconst : ∃ v t, cond = .const v t
  · obtain ⟨v, t, rfl⟩ := hconst
    cases hc
    rw [holds_bool]
    exact (idle_holds_const hbool).tracks fun b hb _ _ => by rw [hb]
  · have hc : c = .not cond := by
      cases cond <;> first | exact absurd ⟨_, _, rfl⟩ hconst | exact (Except.ok.inj hc).symm
    subst hc
    have hnot (f : Frame) : holds f (.not cond) = value f cond >>= fun x =>
        ofRun (condition x >>= fun c => do (Value.ofNumeric c.not).truth (← get).memory) := by
      simp only [holds, value, Expr.eval, ofRun_bind, bind_assoc]
      rfl
    rw [hnot]
    refine (tracks_value hcall hargs cond).bind fun q x x' _ hx => tracks_ofRun ?_
    intro r hr m m' hm b m₁ hb
    have htruth : x'.truth m'.memory = .ok b := ((hx.mono hr).truth hm.memory).trans (congrArg Prod.fst hb)
    obtain ⟨n, hn, hnumber⟩ := on_condition hx htruth
    refine ⟨r, !b, m', .refl r, ?_, ?_, rfl⟩
    · rw [Run.on_bind, hn]
      exact congrArg (·, m') (truth_not hnumber m'.memory)
    · have hm₁ : m = m₁ := congrArg Prod.snd hb
      exact hm₁ ▸ hm

end Thread

/-! ### Statements -/

namespace Stmt

variable {s b : Stmt} {r : Revised Stmt}

/-- A sequence of tidied items has the deeds of those that are kept. -/
theorem record_tidySeq (f : Frame) (rs : List (Revised Stmt)) :
    (tidySeq rs).term.record f = record.recordAll f (keptItems rs) := by
  rcases tidySeq_cases rs with ⟨hkept, h⟩ | h
  · have hall : rs.filter (fun r => !r.term.isNoOp) = rs := List.filter_eq_self.mpr fun r hr => by simp [(hkept r hr).1]
    rw [h, keptItems, hall, record]
  · rw [h, record_ofList]

/-- What is left of a statement without effect has no deeds. -/
theorem record_of_isNoOp (h : s.tidied = .ok r) (hno : r.term.isNoOp = true) (f : Frame) : r.term.record f = pure [] := by
  have haround {g : Stmt → Stmt} (hg : ∀ b, (g b).isNoOp = false) {r : Revised Stmt} (h : (around g r).term.isNoOp = true) :
      (around g r).term.record f = pure [] := by
    rcases around_cases g r with ⟨-, hr⟩ | ⟨-, hr⟩
    · rw [hr]
      exact record_noOp f
    · rw [hr] at h
      exact absurd (h.symm.trans (hg _)) (by simp)
  revert hno
  refine tidied_induct (motive := fun _ r => r.term.isNoOp = true → r.term.record f = pure [])
    ?bind ?attr ?assert ?skip ?loop ?allocate ?realize ?seq ?branch ?eval ?leaf h
  case bind => exact fun v e b r _ _ => haround fun _ => rfl
  case attr => exact fun subject key e b r _ _ => haround fun _ => rfl
  case loop => exact fun v min extent kind b r _ _ _ => haround fun _ => rfl
  case allocate => exact fun site v t extents cond b r _ _ => haround fun _ => rfl
  case skip => exact fun v min extent kind b _ _ _ => record_noOp f
  case assert => exact fun cond message b r _ hno => by cases hno
  case realize => exact fun op output t bounds cond b r _ hno => by cases hno
  case seq =>
    intro ss rs _ _ hno
    have hall := isNoOp_tidySeq.mp hno
    have hnone : keptItems rs = [] := by
      refine List.eq_nil_iff_forall_not_mem.mpr fun t ht => ?_
      obtain ⟨r, hr, hkept, -⟩ := mem_keptItems.mp ht
      rw [hall r hr] at hkept
      cases hkept
    rw [record_tidySeq, hnone]
    rfl
  case branch =>
    intro cond onTrue onFalse r r' r₁ _ h _ _ hno
    rcases tidyBranch_cases h with ⟨-, -, rfl⟩ | ⟨-, t, c, -, -, -, rfl⟩ | ⟨-, rfl⟩
    · exact record_noOp f
    · cases hno
    · cases hno
  case eval =>
    intro e _ hno
    split at hno
    · rename_i he
      rw [if_pos he]
      exact record_noOp f
    · rename_i he
      exact absurd hno he
  case leaf =>
    intro s _ hs _ hno
    rw [hs] at hno
    cases hno

theorem Tracks.nothing (hs : s.Tracks False p f xs r.term) (h : s.tidied = .ok r) (hno : r.term.isNoOp = true) :
    Thread.Tracks False p DeedsMoved (s.record f) (pure []) := by
  unfold Tracks at hs
  rwa [record_of_isNoOp h hno] at hs

variable (hcall : Relocatable f.call) (hargs : ValuesMoved p f.args xs)

/-- A statement that nothing is left of has no deeds. -/
theorem tracks_nothing (h : s.tidied = .ok r) (hs : s.Tidyable f) (hno : r.term.isNoOp = true) :
    s.Tracks False p f xs r.term := by
  unfold Tracks
  rw [record_of_isNoOp h hno]
  exact (idle_of_tidied h hs hno).tracks fun es hes _ _ => by
    subst hes
    exact .nil

theorem tracks_around {g : Stmt → Stmt} (h : (g b).tidied = .ok (around g r)) (hs : (g b).Tidyable f)
    (hbody : (g b).Tracks False p f xs (g r.term)) : (g b).Tracks False p f xs (around g r).term := by
  rcases around_cases g r with ⟨-, hr⟩ | ⟨-, hr⟩
  · exact tracks_nothing h hs (by rw [hr]; rfl)
  · rw [hr]
    exact hbody

/-- The items that are kept have the deeds of all. -/
theorem tracks_keptItems {ss : List Stmt} {rs : List (Revised Stmt)}
    (h : List.Forall₂ (fun s r => s.tidied = .ok r ∧ s.Tracks False p f xs r.term) ss rs) :
    Thread.Tracks False p DeedsMoved (record.recordAll f ss) (record.recordAll { f with args := xs } (keptItems rs)) := by
  induction h with
  | nil => exact Thread.tracks_pure fun _ _ => .nil
  | @cons s r ss rs hr _ ih =>
    have happend := Thread.Tracks.append hr.2 ih
    by_cases hno : r.term.isNoOp
    · rw [record_of_isNoOp hr.1 hno] at happend
      simpa [keptItems, hno, record.recordAll] using happend
    · have hkept : keptItems (r :: rs) = r.term :: keptItems rs := by simp [keptItems, hno]
      rw [hkept]
      exact happend

include hcall hargs in
/-- A tidied statement does what the statement does. -/
theorem tracks_tidied (h : s.tidied = .ok r) : s.Tidyable f → s.Tracks False p f xs r.term := by
  refine tidied_induct (motive := fun s r => s.Tidyable f → s.Tracks False p f xs r.term)
    ?bind ?attr ?assert ?skip ?loop ?allocate ?realize ?seq ?branch ?eval ?leaf h
  case bind => exact fun v e b r h ih hs => tracks_around h hs (tracks_bind hcall hargs v e (ih (hs.body (by simp))))
  case attr =>
    exact fun subject key e b r h ih hs =>
      tracks_around h hs (tracks_attr hcall hargs subject key e (ih (hs.body (by simp))))
  case assert => exact fun cond message b r ih hs => tracks_assert hcall hargs cond message (ih (hs.body (by simp)))
  case skip => exact fun v min extent kind b h _ hs => tracks_nothing h hs rfl
  case loop =>
    exact fun v min extent kind b r h _ ih hs =>
      tracks_around h hs (tracks_loop hcall hargs v min extent kind (ih (hs.body (by simp))))
  case allocate =>
    exact fun site v t extents cond b r h ih hs => tracks_around h hs
      (tracks_allocate hcall hargs (.inl (hs.allocates rfl)) site v t extents cond (ih (hs.body (by simp))))
  case realize => exact fun op output t bounds cond b r _ _ => Thread.tracks_throw
  case seq =>
    intro ss rs _ hrs hs
    unfold Tracks
    rw [record_tidySeq, record]
    exact tracks_keptItems (hrs.imp fun s r h => ⟨h.2.1, h.2.2 (hs.body h.1)⟩)
  case branch =>
    intro cond onTrue onFalse r r' r₁ h hr₁ iht ihf hs
    have htrue := iht.2 (hs.body (by simp))
    rcases tidyBranch_cases hr₁ with ⟨-, -, rfl⟩ | ⟨hno, t, c, rfl, -, hc, rfl⟩ | ⟨-, rfl⟩
    · exact tracks_nothing h hs rfl
    · -- Only the other case has an effect: the condition is negated.
      cases ihf with | @some onFalse _ ihf
      have hbool : cond.dtype.isBool = true := (forall_mem_stmts.mp hs.conditions).2 cond rfl
      unfold Tracks record
      refine (Thread.tracks_negated hcall hargs hbool hc).bind fun q b b' hq hb => ?_
      subst hb
      cases b with
      | true => exact (htrue.nothing iht.1 hno).mono hq
      | false => exact Thread.Tracks.mono (ihf.2 (hs.body (by simp))) hq
    · refine tracks_branch hcall hargs cond htrue ?_
      cases ihf with
      | none => exact Thread.tracks_pure fun _ _ => .nil
      | @some onFalse t ihf =>
        have hfalse := ihf.2 (hs.body (by simp))
        by_cases hno : t.term.isNoOp
        · simpa [Option.filter, hno, record.otherwise] using hfalse.nothing ihf.1 hno
        · simp only [Option.filter, hno]
          exact hfalse
  case eval =>
    intro e h hs
    by_cases he : e.isConst
    · exact tracks_nothing h hs (by rw [if_pos he]; rfl)
    · rw [if_neg he]
      exact tracks_eval hcall hargs e
  case leaf =>
    intro s hbodies hno _ _
    cases s with
    | store buffer value index pred => exact tracks_store hcall hargs buffer value index pred
    | eval e => exact tracks_eval hcall hargs e
    | provide | prefetch => exact Thread.tracks_throw
    | seq ss =>
      cases hbodies
      cases hno
    | _ => cases hbodies

/-! ### Whole runs -/

/-- The state of a thread and a machine in which no value is a list, and arrays, workspaces and shared buffers are in
    memory. -/
structure Rooted (f : Frame) (l : Local) (m : Machine) : Prop where
  args : ValuesMoved (.below m.memory.size) f.args f.args
  env : l.env.Moved (.below m.memory.size) l.env
  machine : m.Moved (.below m.memory.size) m

namespace Leftovers

def array : Var := ⟨0, "A", .handle⟩

def i : Var := ⟨1, "i", .int32⟩

def n : Var := ⟨2, "n", .int32⟩

def flag : Var := ⟨3, "b", .bool⟩

def scratch : Var := ⟨4, "T", .handle⟩

def thread : IterVar := ⟨none, ⟨5, "threadIdx.x", .int32⟩, .threadIndex, "threadIdx.x"⟩

/-- The element of the array is set. -/
def set (x : Int) : Stmt := store (.var array) (.int32 x) (.int32 0) none

/-- A function for one thread that sets the element of an array. -/
def kernel : Func := { name := "k", params := [.var array], body := set 5, kind := .device, threadAxes := [thread] }

/-- A module of the host, and the one of the device that it imports. -/
def modules : Modules :=
  #[{ name := "host", target := "llvm", funcs := [], imports := [1] },
    { name := "device", target := "cuda", funcs := [kernel] }]

def frame (args : List Value) : Frame :=
  { name := "f", args, resolve := some (modules.resolve 0), call := modules.callWithin 2 }

def view : View := .whole 0 (.int 32) [1]

def host : Local := { env := (Env.set [] array (.array view)).set n (.int32 4) }

def machine : Machine := { memory := #[#[.int 0]] }

/-- Of a loop, a choice, an assertion, a sequence and an allocation, two stores and the assertion are left. -/
def mixed : Stmt :=
  seq [loop i (.int32 0) (.var n) .serial noOp, branch (.bin .lt (.var n) (.int32 3)) noOp (some (set 1)),
    assert (.bin .lt (.var n) (.int32 5)) (.str "n") noOp, seq [set 2, eval (.int32 7)],
      allocate 0 scratch .int32 [.var n] (.bool true) noOp]

/-- A loop that starts at the result of a call. -/
def calling : Stmt := loop i (.call .int32 "xte_call_device" [.str "k", .var array,
      .int32 1] .intrinsic none 0) (.int32 1) .serial noOp

/-- Each of two threads has a buffer of its own, which it reads before it sets it. -/
def isolated : Stmt :=
  attr (.axis thread) "thread_extent" (.int32 2) (seq [attr (.var scratch) "storage_scope" (.str "local") noOp,
    allocate 0 scratch .int32 [.int32 1] (.bool true)
      (seq [store (.var array) (.load .int32 (.var scratch) (.int32 0) none) (.var thread.var) none,
        store (.var scratch) (.int32 5) (.int32 0) none])])

/-- The array after a launch of two threads. -/
def launched (s : Stmt) : Option (Array Number) :=
  let last := (({ kernel with body := s }.launch {} [.array (.whole 0 (.int 32) [2]), .int32 2]).run.run #[#[.int 0,
    .int 0]] :
    Except Error Unit × Memory)
  last.2[0]?

/-- A text as a condition. -/
def textual : Stmt := branch (.str "abc") noOp (some (set 1))

/-- An integer as a condition, which is a text. -/
def named : Stmt := bind n (.str "abc") (branch (.var n) noOp (some (set 1)))

/-- A truth value as a condition, which is an argument. -/
def given : Stmt :=
  bind flag (.call .handle "xte_arg_value" [.int32 0] .intrinsic none 0) (branch (.var flag) noOp (some (set 1)))

/-- An assertion beside a sequence that holds another one. -/
def nested : Stmt := seq [assert (.bool true) (.str "") noOp, seq [seq [set 1, set 2], set 3]]

end Leftovers

end Stmt

end TensorNest

import TensorNest.Lowering.Unroll
import TensorNest.Proofs.Division
import TensorNest.Proofs.Moments
import TensorNest.Proofs.SubstitutedRuns

/-! # Unrolled loops -/

namespace TensorNest

/-! ### Counters -/

namespace Expr

variable {t : DataType} {et : ElemType} {f : Frame} {env : Env} {v : Var} {min x y : Expr} {a b k : Int}

theorem convertTo_int (ht : t.IsIndex) (het : t.elemType = .ok et) (n : Int) :
    convertTo t (.number (.int n)) = if et.holds n then pure (.scalar et (.int n)) else throw .overflow := by
  have hcast (m : Memory) : (Value.number (.int n)).cast m t =
      if et.holds n then .ok (.scalar et (.int n)) else .error .overflow := by
    show (Value.ofNumeric (.free (.int n))).cast m t = _
    rw [cast_ofNumeric het, if_neg (by rw [ht.scalar]; exact lt_irrefl 1), Numeric.cast, Numeric.lanesIn,
      (DataType.isInteger_elemType ht het).ofNumber_int]
    split <;> rfl
  funext m
  show (liftM ((Value.number (.int n)).cast m.memory t) : Run Value) m = _
  rw [hcast]
  split <;> rfl

/-- The value of the sum of two integers of a type, if it is one of the type. -/
theorem eval_sum (ht : t.IsIndex) (het : t.elemType = .ok et) (hx : x.dtype = t) (ha : et.holds a) (hb : et.holds b)
    (hab : et.holds (a + b)) (hxa : x.eval f env = pure (.scalar et (.int a)))
    (hyb : y.eval f env = pure (.scalar et (.int b))) :
    (bin .add x y).eval f env = pure (.scalar et (.int (a + b))) := by
  have hinteger := DataType.isInteger_elemType ht het
  have hconvert {n : Int} (hn : et.holds n) : et.convert (.int n) =
    .int n := by rw [hinteger.convert_int, hinteger.wrap_of_holds hn]
  have harith : arithmetic .add t (.typed et (.one (.int a))) (.typed et (.one (.int b))) =
    .ok (.typed et (.one (.int (a + b)))) := by
    simp only [arithmetic, Numeric.add, Numeric.joined, hinteger.join_self, Numeric.lift, Numeric.lanesIn, Packed.map,
      hconvert ha,
      hconvert hb]
    show Except.ok (Numeric.typed et (.one (.int (et.wrap (a + b))))) = _
    rw [hinteger.wrap_of_holds hab]
  have hcast (m : Memory) : (Value.ofNumeric (.typed et (.one (.int (a + b))))).cast m t =
    .ok (.scalar et (.int (a + b))) := by
    rw [cast_ofNumeric het, if_neg (by rw [ht.scalar]; exact lt_irrefl 1)]
    show Except.ok (Value.ofNumeric (.typed et (.one (et.convert (.int (a + b)))))) = _
    rw [hconvert hab]
    rfl
  unfold eval
  rw [hxa, hyb, hx]
  show combine .add t (.ofNumeric (.typed et (.one (.int a)))) (.ofNumeric (.typed et (.one (.int b)))) = _
  rw [combine_ofNumeric, harith]
  funext m
  show (liftM ((Value.ofNumeric (.typed et (.one (.int (a + b))))).cast m.memory t) : Run Value) m = _
  rw [hcast]
  rfl

/-- What stands for the variable of a loop in the copy of its body for an iteration. -/
def offset (v : Var) : Expr → Int → Expr
  | const (.int a) _, k => const (.int (a + k)) v.dtype
  | e, k => bin .add e (const (.int k) v.dtype)

/-- The first value of the counter of a loop is an expression of its type, and an integer if it is a constant. -/
structure Starts (v : Var) (min : Expr) : Prop where
  index : v.dtype.IsIndex
  typed : min.dtype = v.dtype
  literal : ∀ x t, min = const x t → ∃ a, x = .int a

section Offset
variable (h : min.Starts v)
include h

theorem Starts.offset_cases : (∃ a, min = const (.int a) v.dtype ∧ ∀ k, min.offset v k = const (.int (a + k)) v.dtype) ∨
    (min.isConst = false ∧ ∀ k, min.offset v k = bin .add min (const (.int k) v.dtype)) := by
  cases min with
  | const x t =>
    obtain ⟨a, rfl⟩ := h.literal x t rfl
    obtain rfl : t = v.dtype := h.typed
    exact .inl ⟨a, rfl, fun _ => rfl⟩
  | _ => exact .inr ⟨rfl, fun _ => rfl⟩

/-- The builders give the value of the counter in an iteration. -/
theorem Starts.add_offset (k : Int) : (do add min (← ofInt k v.dtype)) = Except.ok (min.offset v k) := by
  have hadd : (do add min (← ofInt k v.dtype)) = fold .add min (const (.int k) v.dtype) := by
    rw [ofInt, ofNumber_int h.index]
    show arith .add min (const (.int k) v.dtype) = _
    rw [arith, operands_of_dtype h.typed rfl]
    rfl
  rw [hadd]
  obtain ⟨a, rfl, hoffset⟩ | ⟨hconst, hoffset⟩ := h.offset_cases
  · rw [hoffset]
    show (do ofNumber (← foldValue .add v.dtype.isInteger (.int a) (.int k)) v.dtype) = _
    exact ofNumber_int h.index (a + k)
  · rw [hoffset]
    cases min with
    | const => cases hconst
    | _ => rfl

theorem Starts.dtype_offset (k : Int) : (min.offset v k).dtype = v.dtype := by
  obtain ⟨a, -, hoffset⟩ | ⟨-, hoffset⟩ := h.offset_cases
  · rw [hoffset]
    rfl
  · rw [hoffset]
    exact h.typed

/-- A copy depends on the first value of the counter only. -/
theorem Starts.parts_offset (k : Int) : (min.offset v k).head = .plain ∧ (∀ w, min.offset v k ≠ var w) ∧
    ∀ e ∈ (min.offset v k).parts, e = min ∨ e = const (.int k) v.dtype := by
  obtain ⟨a, -, hoffset⟩ | ⟨-, hoffset⟩ := h.offset_cases
  · rw [hoffset]
    exact ⟨rfl, nofun, List.forall_mem_nil _⟩
  · rw [hoffset]
    exact ⟨rfl, nofun, by simp [parts]⟩

theorem Starts.freeIds_offset (k : Int) : ∀ x ∈ (min.offset v k).freeIds, x ∈ min.freeIds := by
  obtain ⟨a, -, hoffset⟩ | ⟨-, hoffset⟩ := h.offset_cases <;> simp [hoffset, freeIds]

theorem Starts.hasLoad_offset (hload : min.hasLoad = false) (k : Int) : (min.offset v k).hasLoad = false := by
  obtain ⟨a, -, hoffset⟩ | ⟨-, hoffset⟩ := h.offset_cases
  · rw [hoffset]
    rfl
  · have hany : min.postorder.any isLoad = false := hload
    simp [hoffset, hasLoad, postorder, hany, isLoad]

/-- A copy evaluates what stands for the counter to the value that the counter has in the iteration. -/
theorem Starts.eval_offset (het : v.dtype.elemType = .ok et) (ha : et.holds a)
    (hmin : min.eval f env = pure (.scalar et (.int a)))
    (hk : min.isConst = false → et.holds k) (hak : et.holds (a + k)) :
    (min.offset v k).eval f env = pure (.scalar et (.int (a + k))) := by
  obtain ⟨b, rfl, hoffset⟩ | ⟨hconst, hoffset⟩ := h.offset_cases
  · have hb : et.holds b ∧ b = a := by
      have hconst : (const (.int b) v.dtype).eval f env = convertTo v.dtype (.number (.int b)) := rfl
      rw [hconst, convertTo_int h.index het] at hmin
      have hresult := congrArg (fun x : Run Value => (x.on default).1) hmin
      split at hresult
      · exact ⟨‹_›, by cases hresult; rfl⟩
      · cases hresult
    rw [hoffset, hb.2]
    exact eval_const_int h.index het hak
  · rw [hoffset]
    exact eval_sum h.index het h.typed ha (hk hconst) hak hmin (eval_const_int h.index het (hk hconst))

end Offset

/-- An expression binds certain variables only and mentions certain variables only. -/
structure Confined (X : Nat → Prop) (V : Var → Prop) (e : Expr) : Prop where
  bound : ∀ x ∈ e.boundVars, X x
  vars : ∀ w ∈ e.vars, V w

section Confined
variable {X : Nat → Prop} {V : Var → Prop} {e : Expr} {σ : Subst}

theorem confined_iff (hvar : ∀ w, e ≠ var w) : e.Confined X V ↔
    (∀ x ∈ e.head.binders, X x) ∧ ∀ a ∈ e.parts, a.Confined X V := by
  constructor
  · refine fun he => ⟨fun x hx => he.bound x (mem_boundVars.mpr ⟨_, head_mem_heads e, hx⟩),
      fun a ha => ⟨fun x hx => ?_, fun w hw => ?_⟩⟩
    · exact he.bound x (boundVars_subset ha hx)
    · exact he.vars w (mem_vars_iff.mpr (.inl ⟨a, ha, hw⟩))
  · refine fun ⟨hhead, hparts⟩ => ⟨fun x hx => ?_, fun w hw => ?_⟩
    · obtain ⟨d, hd, hx⟩ := mem_boundVars.mp hx
      obtain ⟨a, ha, hd⟩ | rfl := mem_heads.mp hd
      · exact (hparts a ha).bound x (mem_boundVars.mpr ⟨d, hd, hx⟩)
      · exact hhead x hx
    · obtain ⟨a, ha, hw⟩ | heq := mem_vars_iff.mp hw
      · exact (hparts a ha).vars w hw
      · exact absurd heq (hvar w)

theorem confined_const (x : Number) (t : DataType) : (const x t).Confined X V :=
  (confined_iff fun _ h => by cases h).mpr ⟨List.forall_mem_nil _, List.forall_mem_nil _⟩

theorem Confined.subst (he : e.Confined X V) (hσ : ∀ p ∈ σ, p.2.Confined X V) : (e.subst σ).Confined X V := by
  induction e using induct_parts with
  | step e ih =>
    by_cases hvar : ∃ w, e = var w
    · obtain ⟨w, rfl⟩ := hvar
      rw [Expr.subst]
      cases hput : σ.find? w with
      | none => exact he
      | some r =>
        obtain ⟨p, hp, rfl⟩ := Option.map_eq_some_iff.mp hput
        exact hσ p (List.mem_of_find?_eq_some hp)
    · have hvar (w : Var) : e ≠ var w := fun heq => hvar ⟨w, heq⟩
      obtain ⟨w, rfl⟩ | ⟨hhead, hparts⟩ := subst_cases σ e
      · exact absurd rfl (hvar w)
      obtain ⟨hbound, hall⟩ := (confined_iff hvar).mp he
      refine (confined_iff fun w heq => ?_).mpr ⟨fun x hx => hbound x (hhead ▸ hx), fun a ha => ?_⟩
      · cases e with
        | var w => exact hvar w rfl
        | _ => simp [Expr.subst] at heq
      · rw [hparts] at ha
        obtain ⟨b, hb, rfl⟩ := List.mem_map.mp ha
        exact ih b hb (hall b hb)

theorem Starts.confined_offset (h : min.Starts v) (hmin : min.Confined X V) (k : Int) : (min.offset v k).Confined X V := by
  obtain ⟨hhead, hvar, hparts⟩ := h.parts_offset k
  refine (confined_iff hvar).mpr ⟨fun x hx => (List.not_mem_nil (by rwa [hhead] at hx)).elim, fun a ha => ?_⟩
  obtain rfl | rfl := hparts a ha
  · exact hmin
  · exact confined_const _ _

end Confined

end Expr

namespace Stmt

/-- Statements of which the expressions are confined, and which bind certain variables and evaluate certain variables
    only. -/
def Confined (X : Nat → Prop) (V N : Var → Prop) (s : Stmt) : Prop :=
  ∀ t ∈ s.stmts, (∀ v ∈ t.binder?, X v.id) ∧ (∀ e ∈ t.exprParts, e.Confined X V) ∧ ∀ w, t = eval (.var w) → N w

section Confined
variable {X : Nat → Prop} {V N : Var → Prop} {s t : Stmt} {ss bs : List Stmt} {σ : Subst}

theorem confined_iff : s.Confined X V N ↔ (∀ b ∈ s.bodies, b.Confined X V N) ∧ (∀ v ∈ s.binder?, X v.id) ∧
    (∀ e ∈ s.exprParts, e.Confined X V) ∧ ∀ w, s = eval (.var w) → N w := forall_mem_stmts

theorem confined_seq : (seq ss).Confined X V N ↔ ∀ s ∈ ss, s.Confined X V N :=
  confined_iff.trans ⟨And.left, fun h => ⟨h, nofun, List.forall_mem_nil _, nofun⟩⟩

theorem confined_eval_const (x : Number) (t : DataType) : (eval (.const x t)).Confined X V N := by
  refine confined_iff.mpr ⟨List.forall_mem_nil _, fun v h => ?_, List.forall_mem_singleton.mpr (Expr.confined_const x t),
    fun w h => ?_⟩
  · cases h
  · cases h

theorem confined_ofList (h : ∀ s ∈ ss, s.Confined X V N) : (ofList ss).Confined X V N := by
  have hitems : ∀ t ∈ ss.flatMap items, t.Confined X V N := by
    intro t ht
    obtain ⟨s, hs, ht⟩ := List.mem_flatMap.mp ht
    obtain heq | heq := items_cases s
    · exact confined_seq.mp (heq ▸ h s hs) t ht
    · rw [heq] at ht
      exact List.mem_singleton.mp ht ▸ h s hs
  rw [ofList]
  generalize ss.flatMap items = ts at hitems
  rcases ts with _ | ⟨t, _ | ⟨u, ts⟩⟩
  · exact confined_eval_const _ _
  · exact hitems t List.mem_cons_self
  · exact confined_seq.mpr hitems

theorem subst_eq_eval {e' : Expr} (h : s.subst σ = eval e') : ∃ e, s = eval e ∧ e.subst σ = e' := by
  cases s with
  | eval e => exact ⟨e, rfl, eval.inj h⟩
  | branch cond onTrue onFalse => cases onFalse <;> cases h
  | _ => cases h

theorem withBodies_eq_eval {P : Stmt → Stmt → Prop} {e : Expr} (hbs : List.Forall₂ P s.bodies bs)
    (h : s.withBodies bs = eval e) :
    s = eval e := by
  have hnil : bs = [] := by rw [← bodies_withBodies hbs, h]; rfl
  subst hnil
  cases s with
  | seq ss => cases h
  | branch cond onTrue onFalse => cases hbs
  | _ => exact h

theorem Confined.subst (hs : s.Confined X V N) (hσ : ∀ p ∈ σ, p.2.Confined X V ∧ ∀ w, p.2 ≠ .var w) :
    (s.subst σ).Confined X V N := by
  induction s using induct_bodies with
  | step s ih =>
    obtain ⟨hbodies, hbinder, hparts, heval⟩ := confined_iff.mp hs
    obtain ⟨hexprs, hbinds, -⟩ := subst_parts σ s
    refine confined_iff.mpr ⟨?_, hbinds ▸ hbinder, ?_, fun w heq => ?_⟩
    · rw [bodies_subst, List.forall_mem_map]
      exact fun b hb => ih b hb (hbodies b hb)
    · rw [hexprs, List.forall_mem_map]
      exact fun e he => (hparts e he).subst fun p hp => (hσ p hp).1
    · obtain ⟨e, rfl, he⟩ := subst_eq_eval heq
      cases e with
      | var u =>
        rw [Expr.subst] at he
        cases hput : σ.find? u with
        | none =>
          rw [hput, Option.getD_none] at he
          exact heval w (congrArg _ he)
        | some r =>
          obtain ⟨p, hp, rfl⟩ := Option.map_eq_some_iff.mp hput
          rw [hput, Option.getD_some] at he
          exact absurd he ((hσ p (List.mem_of_find?_eq_some hp)).2 w)
      | _ => simp [Expr.subst] at he

theorem Confined.withBodies (hs : s.Confined X V N) {P : Stmt → Stmt → Prop} (hbs : List.Forall₂ P s.bodies bs)
    (h : ∀ b ∈ bs, b.Confined X V N) : (s.withBodies bs).Confined X V N := by
  obtain ⟨-, hbinder, hparts, heval⟩ := confined_iff.mp hs
  obtain ⟨hbodies', hparts', hbinder', -⟩ := withBodies_cases hbs
  refine confined_iff.mpr ⟨by rwa [hbodies'], hbinder' ▸ hbinder, hparts' ▸ hparts, fun w heq => heval w ?_⟩
  exact withBodies_eq_eval hbs heq

theorem mem_binders_subst {σ : Subst} {x : Nat} : x ∈ (s.subst σ).binders ↔ x ∈ s.binders := by
  induction s using induct_bodies with
  | step s ih =>
    rw [mem_binders, mem_binders (s := s), bodies_subst, (subst_parts σ s).2.1]
    simp only [List.mem_map, exists_exists_and_eq_and]
    exact or_congr_left (exists_congr fun b => and_congr_right fun hb => ih b hb)

theorem Confined.binders {X : Nat → Prop} {V N : Var → Prop} (h : s.Confined X V N) : ∀ x ∈ s.binders, X x := by
  intro x hx
  obtain ⟨t, ht, hx⟩ := List.mem_filterMap.mp hx
  obtain ⟨v, hv, rfl⟩ := Option.map_eq_some_iff.mp hx
  exact (h t ht).1 v hv

end Confined

/-! ### Unrolled statements -/

section Unrolled
variable {limits : UnrollLimits} {c c' : UnrollCount} {r : Revised Stmt} {s t : Stmt}

theorem unroll_bind_eq_ok {α β : Type} {x : Unroll α} {k : α → Unroll β} {b : β} :
    (x >>= k) c = .ok (b, c') ↔ ∃ a c₁, x c = .ok (a, c₁) ∧ k a c₁ = .ok (b, c') :=
  bind_eq_ok.trans ⟨fun ⟨(a, c₁), h⟩ => ⟨a, c₁, h⟩, fun ⟨a, c₁, h⟩ => ⟨(a, c₁), h⟩⟩

theorem copiesSingle_nonneg {n : Int} {b : Bool} (h : copiesSingle limits n = .ok b) (hb : b = true) : 0 ≤ n := by
  unfold copiesSingle at h
  split at h
  · cases h
    cases hb
  · omega

theorem autoUnrolls_nonneg {n : Int} {b : Bool} (h : autoUnrolls limits c n = .ok b) (hb : b = true) : 0 ≤ n := by
  by_contra hn
  have hneg : (decide (n < 0) || c.normal != 0) = true := by simp; omega
  unfold autoUnrolls at h
  rw [if_pos hneg] at h
  cases h
  cases hb

/-- Whether a loop of an extent is unrolled. -/
def unrollsLoop (limits : UnrollLimits) (c : UnrollCount) (kind : LoopKind) (n : Int) : Except Error Bool :=
  if kind = .serial then autoUnrolls limits c n else .ok (kind = .unrolled)

/-- Whether a loop that is unrolled or not is replaced by copies of its body. -/
def copiesLoop (limits : UnrollLimits) (unrolls : Bool) (n : Int) : Except Error Bool :=
  if unrolls && limits.explicit.truthy then .ok true else copiesSingle limits n

/-- What becomes of a loop. -/
def unrolledLoop (v : Var) (min extent : Expr) (kind : LoopKind) (b : Revised Stmt) (n : Int) (unrolls copied : Bool) :
    Except Error (Revised Stmt) :=
  if copied then do return ⟨← copies v min n.toNat b.term, true⟩
  else if unrolls && kind != .unrolled then .ok ⟨loop v min extent .unrolled b.term, true⟩
  else .ok ⟨loop v min extent kind b.term, b.changed⟩

theorem unrollLoop_eq (limits : UnrollLimits) (v : Var) (min extent : Expr) (kind : LoopKind) (b : Revised Stmt)
    (c : UnrollCount) :
    unrollLoop limits v min extent kind b c =
      let n := extent.constInt?.getD (-1)
      if kind = .unrolled && n < 0 then .error (.unrollSymbolic v.name)
      else do
        let unrolls ← unrollsLoop limits c kind n
        let copied ← copiesLoop limits unrolls n
        let r ← unrolledLoop v min extent kind b n unrolls copied
        return (r, if unrolls then { c with steps := c.steps * n, unrolled := c.unrolled + 1 }
          else { c with normal := c.normal + 1 }) := by
  dsimp only
  unfold unrollLoop unrollsLoop copiesLoop unrolledLoop
  have hget (k : UnrollCount → Unroll (Revised Stmt)) : (get >>= k) c = k c c := rfl
  rw [hget]
  dsimp only
  generalize extent.constInt?.getD (-1) = n
  split
  · rfl
  generalize copies v min n.toNat b.term = copied
  generalize limits.explicit.truthy = explicit
  generalize copiesSingle limits n = single
  generalize (kind != .unrolled) = other
  by_cases hserial : kind = .serial
  · rw [if_pos hserial, if_pos hserial]
    rcases autoUnrolls limits c n with e | unrolls
    · rfl
    cases unrolls <;> cases explicit <;> cases other <;> rcases single with e | _ | _ <;> rcases copied with e | t <;> rfl
  · rw [if_neg hserial, if_neg hserial]
    generalize decide (kind = .unrolled) = unrolls
    cases unrolls <;> cases explicit <;> cases other <;> rcases single with e | _ | _ <;> rcases copied with e | t <;> rfl

/-- Copies are made only where the extent is a constant that is not negative. -/
theorem copiesLoop_nonneg {kind : LoopKind} {n : Int} {unrolls : Bool} (hbad : ¬(kind = .unrolled ∧ n < 0))
    (hunrolls : unrollsLoop limits c kind n = .ok unrolls) (hcopied : copiesLoop limits unrolls n = .ok true) : 0 ≤ n := by
  unfold copiesLoop at hcopied
  split at hcopied
  · rename_i hand
    obtain ⟨rfl, -⟩ := Bool.and_eq_true_iff.mp hand
    unfold unrollsLoop at hunrolls
    split at hunrolls
    · exact autoUnrolls_nonneg hunrolls rfl
    · have hkind : kind = .unrolled := by simpa using Except.ok.inj hunrolls
      exact not_lt.mp fun hneg => hbad ⟨hkind, hneg⟩
  · exact copiesSingle_nonneg hcopied rfl

/-- A loop becomes the copies of its body, if its extent is a constant, or it stays a loop. -/
theorem unrollLoop_cases {v : Var} {min extent : Expr} {kind : LoopKind} {b : Revised Stmt}
    (h : unrollLoop limits v min extent kind b c = .ok (r, c')) :
    (∃ n, extent.constInt? = some n ∧ 0 ≤ n ∧ copies v min n.toNat b.term = .ok r.term ∧ r.changed = true) ∨
      ∃ kind', r.term = loop v min extent kind' b.term ∧ (r.changed = false → kind' = kind ∧ b.changed = false) := by
  rw [unrollLoop_eq] at h
  dsimp only at h
  split at h
  · cases h
  rename_i hbad
  obtain ⟨unrolls, hunrolls, h⟩ := bind_eq_ok.mp h
  obtain ⟨copied, hcopied, h⟩ := bind_eq_ok.mp h
  obtain ⟨r', hr, h⟩ := bind_eq_ok.mp h
  cases h
  unfold unrolledLoop at hr
  cases copied with
  | true =>
    obtain ⟨t, ht, h⟩ := bind_eq_ok.mp hr
    cases h
    have hnonneg := copiesLoop_nonneg (by simpa using hbad) hunrolls hcopied
    cases hextent : extent.constInt? with
    | none => simp [hextent] at hnonneg
    | some n =>
      rw [hextent] at hnonneg ht
      exact .inl ⟨n, rfl, hnonneg, ht, rfl⟩
  | false =>
    rw [if_neg Bool.false_ne_true] at hr
    split at hr
    · cases hr
      exact .inr ⟨_, rfl, nofun⟩
    · cases hr
      exact .inr ⟨_, rfl, fun hb => ⟨rfl, hb⟩⟩

/-- A statement is what another one becomes when its loops are unrolled. -/
def Unrolls (s t : Stmt) : Prop :=
  ∃ limits c c' r, s.unrolled limits c = .ok (r, c') ∧ r.term = t

/-- A statement that is executed as another one: a loop may be of another kind, and a sequence may be opened. -/
inductive Reshapes : Stmt → Stmt → Prop
  | self (s : Stmt) : Reshapes s s
  | mark {v : Var} {min extent : Expr} {kind kind' : LoopKind} {body : Stmt} : Reshapes (loop v min extent kind body)
    (loop v min extent kind' body)
  | flat (ss : List Stmt) : Reshapes (seq ss) (ofList ss)

theorem Reshapes.confined {X : Nat → Prop} {V N : Var → Prop} (h : Reshapes s t) (hs : s.Confined X V N) :
    t.Confined X V N := by
  cases h with
  | self => exact hs
  | mark =>
    obtain ⟨hbodies, hbinder, hparts, -⟩ := confined_iff.mp hs
    exact confined_iff.mpr ⟨hbodies, hbinder, hparts, nofun⟩
  | flat ss => exact confined_ofList (confined_seq.mp hs)

/-- What nothing has changed in is as it was. -/
theorem unrolled_unchanged (h : s.unrolled limits c = .ok (r, c')) (hr : r.changed = false) : r.term = s := by
  induction s generalizing c c' r with
  | bind v e body ih =>
    obtain ⟨b, c₁, hb, h⟩ := unroll_bind_eq_ok.mp h
    cases h
    exact congrArg (bind v e) (ih hb hr)
  | attr subject key e body ih =>
    obtain ⟨b, c₁, hb, h⟩ := unroll_bind_eq_ok.mp h
    cases h
    exact congrArg (attr subject key e) (ih hb hr)
  | assert cond message body ih =>
    obtain ⟨b, c₁, hb, h⟩ := unroll_bind_eq_ok.mp h
    cases h
    exact congrArg (assert cond message) (ih hb hr)
  | loop v min extent kind body ih =>
    obtain ⟨b, c₁, hb, h⟩ := unroll_bind_eq_ok.mp h
    obtain ⟨n, -, -, -, hchanged⟩ | ⟨kind', hterm, hkept⟩ := unrollLoop_cases h
    · rw [hr] at hchanged
      cases hchanged
    · obtain ⟨rfl, hb'⟩ := hkept hr
      rw [hterm, ih hb hb']
  | allocate site v t extents cond body ih =>
    obtain ⟨b, c₁, hb, h⟩ := unroll_bind_eq_ok.mp h
    cases h
    exact congrArg (allocate site v t extents cond) (ih hb hr)
  | realize op output t bounds cond body ih =>
    obtain ⟨b, c₁, hb, h⟩ := unroll_bind_eq_ok.mp h
    cases h
    exact congrArg (realize op output t bounds cond) (ih hb hr)
  | seq ss ih =>
    cases ss with
    | nil => cases h
    | cons s ss =>
      obtain ⟨first, c₁, -, h⟩ := unroll_bind_eq_ok.mp h
      obtain ⟨rest, c₂, -, h⟩ := unroll_bind_eq_ok.mp h
      split at h
      · cases h
        cases hr
      · cases h
        rfl
  | branch cond onTrue onFalse iht ihf =>
    cases onFalse with
    | none =>
      obtain ⟨t, c₁, ht, h⟩ := unroll_bind_eq_ok.mp h
      cases h
      rw [iht ht hr]
    | some onFalse =>
      obtain ⟨t, c₁, ht, h⟩ := unroll_bind_eq_ok.mp h
      obtain ⟨o, c₂, ho, h⟩ := unroll_bind_eq_ok.mp h
      cases h
      obtain ⟨ht', ho'⟩ := Bool.or_eq_false_iff.mp hr
      rw [iht ht ht', ihf onFalse rfl ho ho']
  | store | eval | provide | prefetch =>
    cases h
    rfl

theorem unrolls_onRest {ss : List Stmt} {rs : List (Revised Stmt)} (h : unrolled.onRest limits ss c = .ok (rs, c')) :
    List.Forall₂ (fun s r => ∃ c c', s.unrolled limits c = .ok (r, c')) ss rs := by
  induction ss generalizing c c' rs with
  | nil =>
    cases h
    exact .nil
  | cons s ss ih =>
    obtain ⟨_, _, hget, h⟩ := unroll_bind_eq_ok.mp h
    cases hget
    obtain ⟨_, _, hset, h⟩ := unroll_bind_eq_ok.mp h
    cases hset
    obtain ⟨x, c₁, hx, h⟩ := unroll_bind_eq_ok.mp h
    obtain ⟨_, _, hjoin, h⟩ := unroll_bind_eq_ok.mp h
    cases hjoin
    obtain ⟨xs, c₂, hxs, h⟩ := unroll_bind_eq_ok.mp h
    cases h
    exact .cons ⟨_, _, hx⟩ (ih hxs)

/-- The bodies of a statement are unrolled, and it is put together again, or it is a loop that becomes the copies of its
    body. -/
theorem Unrolls.cases (h : s.Unrolls t) : (∃ bs, List.Forall₂ Unrolls s.bodies bs ∧ Reshapes (s.withBodies bs) t) ∨
    ∃ v min extent kind body body' n, s = loop v min extent kind body ∧ body.Unrolls body' ∧ extent.constInt? = some n ∧
      0 ≤ n ∧
      copies v min n.toNat body' = .ok t := by
  obtain ⟨limits, c, c', r, h, rfl⟩ := h
  have hsingle {b : Stmt} {r : Revised Stmt} {c c' : UnrollCount} (h : b.unrolled limits c = .ok (r, c')) :
      List.Forall₂ Unrolls [b] [r.term] := .cons ⟨limits, c, c', r, h, rfl⟩ .nil
  cases s with
  | bind | attr | assert | allocate | realize =>
    obtain ⟨b, c₁, hb, h⟩ := unroll_bind_eq_ok.mp h
    cases h
    exact .inl ⟨_, hsingle hb, .self _⟩
  | loop v min extent kind body =>
    obtain ⟨b, c₁, hb, h⟩ := unroll_bind_eq_ok.mp h
    obtain ⟨n, hextent, hn, hcopies, -⟩ | ⟨kind', hterm, -⟩ := unrollLoop_cases h
    · exact .inr ⟨v, min, extent, kind, body, b.term, n, rfl, ⟨limits, c, c₁, b, hb, rfl⟩, hextent, hn, hcopies⟩
    · exact .inl ⟨_, hsingle hb, hterm ▸ .mark⟩
  | seq ss =>
    cases ss with
    | nil => cases h
    | cons s ss =>
      obtain ⟨first, c₁, hfirst, h⟩ := unroll_bind_eq_ok.mp h
      obtain ⟨rest, c₂, hrest, h⟩ := unroll_bind_eq_ok.mp h
      have hall : List.Forall₂ (fun s r => ∃ c c', s.unrolled limits c = .ok (r, c')) (s :: ss) (first :: rest) :=
        .cons ⟨_, _, hfirst⟩ (unrolls_onRest hrest)
      refine .inl ⟨(first :: rest).map (·.term), ?_, ?_⟩
      · exact List.forall₂_map_right_iff.mpr (hall.imp fun s r ⟨c, c', h⟩ => ⟨limits, c, c', r, h, rfl⟩)
      · split at h
        · cases h
          exact .flat _
        · rename_i hkept
          cases h
          have hunchanged : ∀ r ∈ first :: rest, r.changed = false := by simpa using hkept
          have hsame : List.Forall₂ Eq ((first :: rest).map (·.term)) (s :: ss) :=
            List.forall₂_map_left_iff.mpr (((List.forall₂_and_left _ _).mpr ⟨hunchanged, hall.flip⟩).imp
              fun r s ⟨hr, _, _, h⟩ => unrolled_unchanged h hr)
          rw [List.forall₂_eq_eq_eq] at hsame
          rw [hsame]
          exact .self _
  | branch cond onTrue onFalse =>
    cases onFalse with
    | none =>
      obtain ⟨t, c₁, ht, h⟩ := unroll_bind_eq_ok.mp h
      cases h
      exact .inl ⟨_, hsingle ht, .self _⟩
    | some onFalse =>
      obtain ⟨t, c₁, ht, h⟩ := unroll_bind_eq_ok.mp h
      obtain ⟨o, c₂, ho, h⟩ := unroll_bind_eq_ok.mp h
      cases h
      exact .inl ⟨[t.term, o.term], .cons ⟨limits, c, c₁, t, ht, rfl⟩ (hsingle ho), .self _⟩
  | store | eval | provide | prefetch =>
    cases h
    exact .inl ⟨[], .nil, .self _⟩

end Unrolled

/-! ### Bodies that can be copied -/

section Copies
variable {s t : Stmt} {v : Var} {min : Expr} {body : Stmt}

/-- The body of a loop can be copied: the first value of the counter reads no memory, the body binds neither the counter
    nor a variable of that value, and it evaluates more than the counter alone. -/
structure Copyable (v : Var) (min : Expr) (body : Stmt) : Prop extends min.Starts v where
  loads : min.hasLoad = false
  confined : body.Confined (fun x => x ≠ v.id ∧ x ∉ min.freeIds) (fun w => w.id = v.id → w.dtype = v.dtype) fun w =>
    w.id ≠ v.id

/-- A statement of which the loops can be unrolled: no sequence is empty, no variable is bound anew in its own scope,
    and the bodies of the loops that have a constant extent can be copied. -/
structure Unrollable (s : Stmt) : Prop where
  filled : seq [] ∉ s.stmts
  once : ∀ t ∈ s.stmts, ∀ v ∈ t.binder?, ∀ b ∈ t.bodies, v.id ∉ b.binders
  copyable : ∀ t ∈ s.stmts, ∀ v min extent kind body, t = loop v min extent kind body → 0 ≤ extent.constInt?.getD (-1) →
    Copyable v min body

theorem Unrollable.of_body {b : Stmt} (h : s.Unrollable) (hb : b ∈ s.bodies) : b.Unrollable where
  filled := fun hmem => h.filled (by rw [stmts_eq]; exact List.mem_append_left _ (List.mem_flatMap.mpr ⟨b, hb, hmem⟩))
  once := (forall_mem_stmts.mp h.once).1 b hb
  copyable := (forall_mem_stmts.mp h.copyable).1 b hb

theorem copies_eq (h : min.Starts v) (n : Nat) (body : Stmt) :
    copies v min n body = .ok (ofList ((List.range n).map fun (i : Nat) => body.subst [(v, min.offset v i)])) := by
  have hstep : (fun (i : Nat) =>
        (do return body.subst [(v, ← Expr.add min (← Expr.ofInt i v.dtype))] : Except Error Stmt)) =
      fun (i : Nat) => pure (body.subst [(v, min.offset v i)]) := by
    funext i
    refine (bind_assoc (Expr.ofInt i v.dtype) (fun k => Expr.add min k) fun value =>
      pure (body.subst [(v, value)])).symm.trans ?_
    rw [h.add_offset]
    rfl
  rw [copies, hstep, List.mapM_pure]
  rfl

/-- What confines the parts of a statement confines those of what it becomes when its loops are unrolled. -/
theorem Unrolls.confined {X : Nat → Prop} {V N : Var → Prop} (h : s.Unrolls t) (hs : s.Unrollable)
    (hconf : s.Confined X V N) :
    t.Confined X V N := by
  induction s using induct_bodies generalizing t with
  | step s ih =>
    have hbodies := (confined_iff.mp hconf).1
    obtain ⟨bs, hbs, hshape⟩ | ⟨v, min, extent, kind, body, body', n, rfl, hbody, hextent, hn, hcopies⟩ := h.cases
    · refine hshape.confined (hconf.withBodies hbs fun b' hb' => ?_)
      obtain ⟨b, hb, hunrolls⟩ := exists_of_forall₂ hbs b' hb'
      exact ih b hb hunrolls (hs.of_body hb) (hbodies b hb)
    · have hmem : body ∈ (loop v min extent kind body).bodies := List.mem_singleton_self _
      have hcopy : Copyable v min body := (forall_mem_stmts.mp hs.copyable).2 _ _ _ _ _ rfl (by rw [hextent]; exact hn)
      rw [copies_eq hcopy.toStarts] at hcopies
      cases hcopies
      refine confined_ofList (List.forall_mem_map.mpr fun i _ =>
        (ih body hmem hbody (hs.of_body hmem) (hbodies body hmem)).subst ?_)
      refine List.forall_mem_singleton.mpr ⟨?_, (hcopy.parts_offset i).2.1⟩
      exact hcopy.confined_offset ((confined_iff.mp hconf).2.2.1 min List.mem_cons_self) i

end Copies

/-! ### Failures -/

/-- A computation that fails in lowering if something is the case, and gives a result otherwise. -/
inductive Raises {α : Type} (P : Prop) : Except Error α → Prop
  | error {e : Error} (hP : P) (he : e.category = .lowering) : Raises P (.error e)
  | ok {a : α} (hP : ¬P) : Raises P (.ok a)

/-- A loop is marked to be unrolled in a statement, and its extent is not a constant integer that is not negative. -/
def Symbolic (s : Stmt) : Prop :=
  ∃ t ∈ s.stmts, ∃ v min extent body, t = loop v min extent .unrolled body ∧ ∀ n, extent.constInt? = some n → n < 0

/-- The limits of unrolling are numbers. -/
structure Numeric (limits : UnrollLimits) : Prop where
  step : ∃ x, limits.maxStep = .number x
  depth : ∃ x, limits.maxDepth = .number x
  extent : ∃ x, limits.maxExtent = .number x

section Failures
variable {α β : Type} {P P' : Prop} {z : Except Error α} {limits : UnrollLimits} {s : Stmt} {v : Var} {min extent : Expr}
  {kind : LoopKind}

theorem Raises.iff (h : Raises P z) (hP : P ↔ P') : Raises P' z := by
  rwa [← propext hP]

theorem Raises.bind {k : α → Except Error β} (h : Raises P z) (hk : ∀ a, z = .ok a → Raises P' (k a)) :
    Raises (P ∨ P') (z >>= k) := by
  cases h with
  | error hP he => exact .error (.inl hP) he
  | @ok a hP => exact (hk a rfl).iff (or_iff_right hP).symm

theorem Raises.done {k : α → Except Error β} (h : Raises P z) (hk : ∀ a, ∃ b, k a = .ok b) : Raises P (z >>= k) := by
  refine Raises.iff (P := P ∨ False) (h.bind fun a _ => ?_) (or_iff_left id)
  obtain ⟨b, hb⟩ := hk a
  exact hb ▸ .ok id

theorem symbolic_iff : s.Symbolic ↔ (∃ b ∈ s.bodies, b.Symbolic) ∨
    ∃ v min extent body, s = loop v min extent .unrolled body ∧ ∀ n, extent.constInt? = some n → n < 0 := by
  unfold Symbolic
  rw [stmts_eq]
  simp only [List.mem_append, List.mem_flatMap, List.mem_singleton, or_and_right, exists_or, exists_eq_left]
  exact or_congr_left ⟨fun ⟨t, ⟨b, hb, ht⟩, h⟩ => ⟨b, hb, t, ht, h⟩, fun ⟨b, hb, t, ht, h⟩ => ⟨t, ⟨b, hb, ht⟩, h⟩⟩

theorem symbolic_bodies (h : ∀ v min extent kind body, s ≠ loop v min extent kind body) :
    (∃ b ∈ s.bodies, b.Symbolic) ↔ s.Symbolic := by
  refine (symbolic_iff.trans (or_iff_left ?_)).symm
  rintro ⟨v, min, extent, body, heq, -⟩
  exact h v min extent .unrolled body heq

theorem getD_neg {n : Option Int} : n.getD (-1) < 0 ↔ ∀ k, n = some k → k < 0 := by
  cases n <;> simp

theorem Numeric.autoUnrolls_ok (h : Numeric limits) (c : UnrollCount) (n : Int) : ∃ b, autoUnrolls limits c n = .ok b := by
  obtain ⟨⟨step, hstep⟩, ⟨depth, hdepth⟩, ⟨extent, hextent⟩⟩ := h
  have hallows (x : Number) (k : Int) : (Setting.number x).allows k = .ok ((Number.int k).le x) := rfl
  unfold autoUnrolls
  split
  · exact ⟨false, rfl⟩
  · rw [hstep, hdepth, hextent, hallows, hallows, hallows]
    cases (Number.int c.unrolled).le depth with
    | false => exact ⟨false, rfl⟩
    | true =>
      cases (Number.int (n * c.steps)).le step with
      | false => exact ⟨_, rfl⟩
      | true => exact ⟨true, rfl⟩

theorem Numeric.copiesSingle_ok (h : Numeric limits) (n : Int) : ∃ b, copiesSingle limits n = .ok b := by
  obtain ⟨extent, hextent⟩ := h.extent
  unfold copiesSingle
  split
  · exact ⟨false, rfl⟩
  · rw [hextent]
    exact ⟨_, rfl⟩

theorem Numeric.raises_unrollLoop (h : Numeric limits) (hstarts : 0 ≤ extent.constInt?.getD (-1) → min.Starts v)
    (b : Revised Stmt)
    (c : UnrollCount) : Raises (kind = .unrolled ∧ extent.constInt?.getD (-1) <
      0) (unrollLoop limits v min extent kind b c) := by
  rw [unrollLoop_eq]
  dsimp only
  split
  · rename_i hbad
    exact .error (by simpa using hbad) rfl
  · rename_i hbad
    have hbad : ¬(kind = .unrolled ∧ extent.constInt?.getD (-1) < 0) := by simpa using hbad
    have hunrolls : ∃ u, unrollsLoop limits c kind (extent.constInt?.getD (-1)) = .ok u := by
      unfold unrollsLoop
      split
      · exact h.autoUnrolls_ok c _
      · exact ⟨_, rfl⟩
    obtain ⟨unrolls, hunrolls⟩ := hunrolls
    have hcopies : ∃ u, copiesLoop limits unrolls (extent.constInt?.getD (-1)) = .ok u := by
      unfold copiesLoop
      split
      · exact ⟨true, rfl⟩
      · exact h.copiesSingle_ok _
    obtain ⟨copied, hcopied⟩ := hcopies
    have hterm : ∃ r, unrolledLoop v min extent kind b (extent.constInt?.getD (-1)) unrolls copied = .ok r := by
      unfold unrolledLoop
      cases copied with
      | true =>
        rw [if_pos rfl, copies_eq (hstarts (copiesLoop_nonneg hbad hunrolls hcopied))]
        exact ⟨_, rfl⟩
      | false =>
        rw [if_neg Bool.false_ne_true]
        split <;> exact ⟨_, rfl⟩
    obtain ⟨r, hr⟩ := hterm
    rw [hunrolls]
    show Raises _ (copiesLoop limits unrolls _ >>= _)
    rw [hcopied]
    show Raises _ (unrolledLoop v min extent kind b _ unrolls copied >>= _)
    rw [hr]
    exact .ok hbad

theorem raises_onRest {ss : List Stmt}
    (hss : ∀ s ∈ ss, ∀ c, Raises s.Symbolic (s.unrolled limits c)) (c : UnrollCount) :
    Raises (∃ s ∈ ss, s.Symbolic) (unrolled.onRest limits ss c) := by
  induction ss generalizing c with
  | nil => exact .ok (by simp)
  | cons s ss ih =>
    have hrest (c : UnrollCount) : Raises (∃ s ∈ ss, s.Symbolic) (unrolled.onRest limits ss c) :=
      ih (fun s hs => hss s (List.mem_cons_of_mem _ hs)) c
    have hall : Raises (s.Symbolic ∨ ∃ s ∈ ss, s.Symbolic) (unrolled.onRest limits (s :: ss) c) :=
      (hss s List.mem_cons_self {}).bind fun (_, c₁) _ => (hrest (UnrollCount.join c c₁)).done fun _ => ⟨_, rfl⟩
    exact hall.iff (by simp)

/-- Unrolling fails exactly if a loop is marked that has no constant extent. -/
theorem Numeric.raises_unrolled (h : Numeric limits) (hs : s.Unrollable) (c : UnrollCount) :
    Raises s.Symbolic (s.unrolled limits c) := by
  induction s generalizing c with
  | bind | attr | assert | allocate | realize =>
    rename_i ih
    refine Raises.iff ?_ (symbolic_bodies nofun)
    exact ((ih (hs.of_body (List.mem_singleton_self _)) c).done fun _ => ⟨_, rfl⟩).iff (by simp)
  | loop v min extent kind body ih =>
    have hcopy : 0 ≤ extent.constInt?.getD (-1) → min.Starts v :=
      fun hn => ((forall_mem_stmts.mp hs.copyable).2 v min extent kind body rfl hn).toStarts
    have hall : Raises (body.Symbolic ∨ kind = .unrolled ∧ extent.constInt?.getD (-1) < 0)
        ((loop v min extent kind body).unrolled limits c) :=
      (ih (hs.of_body (List.mem_singleton_self _)) c).bind fun (b, c₁) _ => h.raises_unrollLoop hcopy b c₁
    refine hall.iff (Iff.trans (or_congr ?_ ⟨?_, ?_⟩) symbolic_iff.symm)
    · simp
    · rintro ⟨rfl, hneg⟩
      exact ⟨v, min, extent, body, rfl, getD_neg.mp hneg⟩
    · rintro ⟨_, _, _, _, heq, hneg⟩
      cases heq
      exact ⟨rfl, getD_neg.mpr hneg⟩
  | seq ss ih =>
    have hbody (s : Stmt) (hmem : s ∈ ss) (c : UnrollCount) : Raises s.Symbolic (s.unrolled limits c) :=
      ih s hmem (hs.of_body hmem) c
    refine Raises.iff ?_ (symbolic_bodies nofun)
    cases ss with
    | nil => exact absurd (by simp [stmts_eq]) hs.filled
    | cons s ss =>
      have hall : Raises (s.Symbolic ∨ ∃ s ∈ ss, s.Symbolic) ((seq (s :: ss)).unrolled limits c) := by
        refine (hbody s List.mem_cons_self c).bind fun (x, c₁) _ => ?_
        refine (raises_onRest (fun s hs => hbody s (List.mem_cons_of_mem _ hs)) c₁).done fun (xs, c₂) => ?_
        dsimp only
        split <;> exact ⟨_, rfl⟩
      exact hall.iff (by simp)
  | branch cond onTrue onFalse iht ihf =>
    refine Raises.iff ?_ (symbolic_bodies nofun)
    have htrue := iht (hs.of_body List.mem_cons_self) c
    cases onFalse with
    | none => exact (htrue.done fun _ => ⟨_, rfl⟩).iff (by simp)
    | some onFalse =>
      have hfalse (c : UnrollCount) := ihf onFalse rfl (hs.of_body (List.mem_cons_of_mem _ List.mem_cons_self)) c
      have hall : Raises (onTrue.Symbolic ∨ onFalse.Symbolic) ((branch cond onTrue (some onFalse)).unrolled limits c) :=
        htrue.bind fun (x, c₁) _ => (hfalse c₁).done fun _ => ⟨_, rfl⟩
      exact hall.iff (by simp)
  | store | eval | provide | prefetch =>
    exact Raises.iff (.ok (by simp)) (symbolic_bodies nofun)

end Failures

end Stmt

end TensorNest

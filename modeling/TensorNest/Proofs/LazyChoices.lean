import TensorNest.Lowering.Access
import TensorNest.Proofs.Evaluation
import TensorNest.Proofs.Typing

/-!
# Choices that evaluate one value

A choice between values evaluates both of them. Where one of them reads memory, `Stmt.guardSelects` puts a
conditional call for the choice, which evaluates the chosen value alone. A statement that runs without a
failure does the same after it (`Stmt.exec_guardSelects`), if the conditions of these choices are scalars
and their values are of the same type: what is not evaluated any more leaves the machine as it is, and the
chosen value is of its type already, so that no conversion is missed.

A choice with a condition on several lanes is different: the call asks for one truth value, and fails.
-/

namespace TensorNest

/-! ### Steps that do what other steps do -/

namespace Run

variable {α β : Type} {x y : Run α} {k k' : α → Run β} {P : α → Prop}

/-- A step does what another one does, unless that one fails. -/
def RefinedBy (x y : Run α) : Prop :=
  ∀ m a m', on x m = (.ok a, m') → on y m = (.ok a, m')

theorem RefinedBy.refl (x : Run α) : x.RefinedBy x := fun _ _ _ h => h

theorem refinedBy_throw {e : Error} : (throw e : Run α).RefinedBy y := by
  intro m a m' h
  have hne : Except.error e = Except.ok a := congrArg Prod.fst h
  cases hne

theorem RefinedBy.trans {z : Run α} (hxy : x.RefinedBy y) (hyz : y.RefinedBy z) : x.RefinedBy z :=
  fun m a m' h => hyz m a m' (hxy m a m' h)

theorem RefinedBy.bind (hx : x.RefinedBy y) (hk : ∀ a, (∃ m m', on x m = (.ok a, m')) → (k a).RefinedBy (k' a)) :
    (x >>= k).RefinedBy (y >>= k') := by
  intro m b m'' h
  obtain ⟨a, m', ha, hb⟩ := on_bind_eq_ok.mp h
  exact on_bind_eq_ok.mpr ⟨a, m', hx m a m' ha, hk a ⟨m, m', ha⟩ m' b m'' hb⟩

/-- A step that leaves the machine as it is gives a value with the property, and the next one goes on from it. -/
theorem Quiet.on_bind (hx : Quiet x P) {m m'' : Machine} {b : β} (h : on (x >>= k) m = (.ok b, m'')) :
    ∃ a, P a ∧ on x m = (.ok a, m) ∧ on (k a) m = (.ok b, m'') := by
  obtain ⟨a, m', ha, hb⟩ := on_bind_eq_ok.mp h
  obtain rfl : m' = m := by rw [← (hx m).1, ha]
  exact ⟨a, (hx m').2 a (congrArg Prod.fst ha), ha, hb⟩

end Run

open Run

/-! ### Choices between values of a type -/

section Values
variable {t u : DataType} {et : ElemType} {x y c : Value} {m m' : Machine}

theorem map_convert_of_forall {et : ElemType} {xs : List Number} (h : ∀ y ∈ xs, et.convert y = y) :
    xs.map et.convert = xs :=
  (List.map_congr_left h).trans (List.map_id' xs)

theorem Packed.map_convert_of_forall {et : ElemType} {xs : Packed Number} (h : ∀ y ∈ xs.toList, et.convert y = y) :
    xs.map et.convert = xs := by
  cases xs with
  | one x => exact congrArg Packed.one (h x (by simp [Packed.toList]))
  | many xs => exact congrArg Packed.many (TensorNest.map_convert_of_forall h)

theorem Packed.spread_of_hasLanes {xs : List Number} {n : Int} (h : (Packed.many xs).HasLanes n) :
    (Packed.many xs).spread n.toNat = .ok xs := by
  obtain ⟨hn, hlen⟩ := h
  rcases xs with _ | ⟨x, _ | ⟨x', xs⟩⟩
  · simp at hlen; omega
  · simp at hlen; omega
  · have hlen' : (x :: x' :: xs).length = n.toNat := by omega
    exact if_pos hlen'

/-- A value of a type stays as it is in the conversion to the type. -/
theorem convertTo_of_hasType (hx : x.HasType t) : on (convertTo t x) m = (.ok x, m) := by
  obtain ⟨et, xs, het, rfl, hlanes, hfixed⟩ := hx
  have hcast : (Value.ofNumeric (.typed et xs)).cast m.memory t = .ok (.ofNumeric (.typed et xs)) := by
    rw [cast_ofNumeric het]
    cases xs with
    | one y =>
      obtain hone : t.lanes = 1 := hlanes
      rw [if_neg (by omega)]
      exact congrArg (fun z => Except.ok (Value.scalar et z)) (hfixed y (by simp [Packed.toList]))
    | many ys =>
      have hspread : (Numeric.typed et (.many ys)).spread et t.lanes.toNat =
        .ok (.typed et (.many (ys.map et.convert))) := by
        simp only [Numeric.spread, pure_bind, Packed.spread_of_hasLanes hlanes]
        rfl
      rw [if_pos hlanes.1, hspread, @map_convert_of_forall et ys hfixed]
      rfl
  show on (liftM ((Value.ofNumeric (.typed et xs)).cast m.memory t)) m = _
  rw [hcast]
  rfl

theorem ElemType.join_self (et : ElemType) : et.join et = et := by
  cases et <;> simp [ElemType.join]

theorem Packed.zip_of_hasLanes {α β : Type} {xs : Packed α} {ys : Packed β} {n : Int} (hx : xs.HasLanes n)
    (hy : ys.HasLanes n) :
    ∃ ps, xs.zip ys = .ok ps ∧ ps.map (·.1) = xs ∧ ps.map (·.2) = ys := by
  cases xs with
  | one x =>
    obtain rfl : n = 1 := hx
    cases ys with
    | one y => exact ⟨_, rfl, rfl, rfl⟩
    | many ys => exact absurd hy.1 (lt_irrefl 1)
  | many xs =>
    cases ys with
    | one y =>
      obtain rfl : n = 1 := hy
      exact absurd hx.1 (lt_irrefl 1)
    | many ys =>
      obtain ⟨hn, hxs⟩ := hx
      obtain ⟨-, hys⟩ := hy
      have hlen : xs.length = ys.length := by omega
      refine ⟨.many (xs.zip ys), ?_, ?_, ?_⟩
      · rcases xs with _ | ⟨x, _ | ⟨x', xs⟩⟩
        · simp at hxs; omega
        · simp at hxs; omega
        · rcases ys with _ | ⟨y, _ | ⟨y', ys⟩⟩
          · simp at hlen
          · simp at hlen
          · exact if_pos hlen
      · exact congrArg Packed.many (List.map_fst_zip hlen.le)
      · exact congrArg Packed.many (List.map_snd_zip hlen.ge)

/-- A scalar condition chooses one of two values of a type as a whole. -/
theorem on_chosen {pe : ElemType} {z : Number} (hx : x.HasType t) (hy : y.HasType t) :
    on (chosen (.scalar pe z) x y) m = (.ok (if z.truthy then x else y), m) := by
  obtain ⟨et, xs, het, rfl, hxlanes, hxs⟩ := hx
  obtain ⟨et', ys, het', rfl, hylanes, hys⟩ := hy
  obtain rfl : et' = et := Except.ok.inj (het'.symm.trans het)
  have hselect : (Numeric.typed pe (.one z)).select (.typed et' xs) (.typed et' ys) =
      .ok (.typed et' (if z.truthy then xs else ys)) := by
    obtain ⟨ps, hps, hfst, hsnd⟩ := Packed.zip_of_hasLanes hxlanes hylanes
    have hzip : (Packed.one z).zip ps = .ok (ps.map fun p => (z, p)) := by cases ps <;> rfl
    have hmap : ((ps.map fun p => (z, p)).map fun p => if p.1.truthy then p.2.1 else p.2.2) =
      if z.truthy then xs else ys := by
      by_cases hz : z.truthy
      · rw [if_pos hz, ← hfst]
        cases ps <;> simp [Packed.map, hz]
      · rw [if_neg hz, ← hsnd]
        cases ps <;> simp [Packed.map, hz]
    have hbind {α β : Type} (a : α) (k : α → Except Error β) : (Except.ok a >>= k) = k a := rfl
    simp only [Numeric.select, Numeric.joined, ElemType.join_self, Numeric.lanesIn, Packed.map_convert_of_forall hxs,
      Packed.map_convert_of_forall hys, Numeric.lanes, hbind, hps, hzip]
    exact congrArg (fun zs => Except.ok (Numeric.typed et' zs)) hmap
  have hchosen : on (chosen (.scalar pe z) (.ofNumeric (.typed et' xs)) (.ofNumeric (.typed et' ys))) m =
      on (do return Value.ofNumeric (← (Numeric.typed pe (.one z)).select (.typed et' xs) (.typed et' ys))) m := by
    cases xs <;> cases ys <;> rfl
  rw [hchosen, hselect]
  split <;> rfl

end Values

/-! ### Expressions -/

namespace Expr

section Shape

theorem guardSelect_cases (c a b : Expr) : (select c a b).guardSelect =
    if a.hasLoad || b.hasLoad then call a.dtype "xte_if_then_else" [c, a, b] .intrinsic none 0 else select c a b := rfl

theorem parts_guarded (e : Expr) : (e.rebuild guardSelect).parts = e.parts.map (·.rebuild guardSelect) := by
  cases e with
  | select c a b =>
    rw [rebuild_select, guardSelect_cases]
    split <;> rfl
  | load t v i p => cases p <;> simp [guardSelect, parts]
  | reduce combiner sources axes cond index => cases cond <;> simp [guardSelect, parts]
  | _ => simp [guardSelect, parts]

theorem isLoad_guarded (e : Expr) : (e.rebuild guardSelect).isLoad = e.isLoad := by
  cases e with
  | select c a b =>
    rw [rebuild_select, guardSelect_cases]
    split <;> rfl
  | _ => simp [guardSelect, isLoad]

theorem hasLoad_eq (e : Expr) : e.hasLoad = (e.parts.any hasLoad || e.isLoad) := by
  rw [Bool.eq_iff_iff, hasLoad, List.any_eq_true, Bool.or_eq_true, List.any_eq_true]
  constructor
  · rintro ⟨n, hn, hload⟩
    rcases mem_postorder.mp hn with ⟨a, ha, hn⟩ | rfl
    · exact .inl ⟨a, ha, List.any_eq_true.mpr ⟨n, hn, hload⟩⟩
    · exact .inr hload
  · rintro (⟨a, ha, h⟩ | hload)
    · obtain ⟨n, hn, hload⟩ := List.any_eq_true.mp h
      exact ⟨n, postorder_subset ha hn, hload⟩
    · exact ⟨e, self_mem_postorder e, hload⟩

theorem hasLoad_guarded (e : Expr) : (e.rebuild guardSelect).hasLoad = e.hasLoad := by
  induction e using induct_parts with
  | step e ih =>
    rw [hasLoad_eq, hasLoad_eq e, parts_guarded, isLoad_guarded, List.any_map]
    congr 1
    rw [Bool.eq_iff_iff, List.any_eq_true, List.any_eq_true]
    exact exists_congr fun a => and_congr_right fun ha => by rw [Function.comp, ih a ha]

theorem dtype_guarded (e : Expr) : (e.rebuild guardSelect).dtype = e.dtype := by
  induction e with
  | bin op a b iha ihb => simp [guardSelect, dtype, iha]
  | select c a b ihc iha ihb =>
    rw [rebuild_select, guardSelect_cases]
    split <;> exact iha
  | _ => simp_all [guardSelect, dtype]

end Shape

variable {f : Frame} {Γ : Signature} {env : Env} {e : Expr}

/-- The values of an expression can be bound to a variable of a data type. -/
def FitsInto (f : Frame) (Γ : Signature) (t : DataType) (e : Expr) : Prop :=
  ∀ env : Env, env.Fits Γ → ∀ m x m', on (e.eval f env >>= place) m = (.ok x, m') → x.Fits t

/-- A well-typed scalar gives what a variable of its type can be bound to. -/
theorem WellTyped.fitsInto (he : e.WellTyped Γ) (hlanes : e.dtype.lanes = 1) : e.FitsInto f Γ e.dtype := by
  intro env henv m x m' h
  obtain ⟨y, hy, -, hplace⟩ := (he.quiet_eval henv).on_bind h
  rw [place_of_hasType hy hlanes] at hplace
  cases hplace
  exact hy.fits

/-- A choice that reads memory for a value has a scalar condition and two values of one type, and what is bound to a
    variable fits the variable. -/
def ChoosesOnce (f : Frame) (Γ : Signature) : Expr → Prop
  | select c a b =>
    a.hasLoad || b.hasLoad → c.WellTyped Γ ∧ c.dtype.lanes = 1 ∧ a.WellTyped Γ ∧ b.WellTyped Γ ∧ a.dtype = b.dtype
  | bind v value _ => value.FitsInto f Γ (Γ v.id)
  | _ => True

section Evaluation

theorem evalAll_refinedBy {es : List Expr} (h : ∀ e ∈ es, (e.eval f env).RefinedBy ((e.rebuild guardSelect).eval f env)) :
    (eval.evalAll f env es).RefinedBy (eval.evalAll f env (es.map (·.rebuild guardSelect))) := by
  induction es with
  | nil => exact .refl _
  | cons e es ih =>
    exact (h e (by simp)).bind fun x _ => (ih fun e he => h e (by simp [he])).bind fun xs _ => .refl _

theorem evalMask_refinedBy {p : Option Expr} (h : ∀ e ∈ p, (e.eval f env).RefinedBy ((e.rebuild guardSelect).eval f env)) :
    (eval.evalMask f env p).RefinedBy (eval.evalMask f env (p.map (·.rebuild guardSelect))) := by
  cases p with
  | none => exact .refl _
  | some e => exact (h e rfl).bind fun x _ => .refl _

theorem branch_refinedBy (es : List Expr) (h : ∀ e ∈ es, (e.eval f env).RefinedBy ((e.rebuild guardSelect).eval f env)) :
    (eval.branch f env es).RefinedBy (eval.branch f env (es.map (·.rebuild guardSelect))) := by
  rcases es with _ | ⟨c, _ | ⟨a, _ | ⟨b, _ | ⟨d, es⟩⟩⟩⟩
  · exact refinedBy_throw
  · exact refinedBy_throw
  · exact refinedBy_throw
  · refine (h c (by simp)).bind fun p _ => RefinedBy.bind (.refl _) fun m _ => RefinedBy.bind (.refl _) fun z _ => ?_
    cases z with
    | true => exact h a (by simp)
    | false => exact h b (by simp)
  · exact refinedBy_throw

theorem buffer_guarded {e : Expr} {a : View} (h : f.buffer env e = .ok a) : e.rebuild guardSelect = e := by
  cases e with
  | var v => rfl
  | _ => cases h

/-- A step that needs the buffer of a variable. -/
theorem buffer_refinedBy {α : Type} {v : Expr} {k k' : View → Run α}
    (hk : ∀ a, f.buffer env v = .ok a → (k a).RefinedBy (k' a)) :
    (liftM (f.buffer env v) >>= k).RefinedBy (liftM (f.buffer env (v.rebuild guardSelect)) >>= k') := by
  cases h : f.buffer env v with
  | error e => exact refinedBy_throw
  | ok a =>
    rw [buffer_guarded h, h]
    exact hk a h

/-- A conditional call evaluates its condition, and then one of its values. -/
theorem eval_choice {c a b : Expr} {kind : CallKind} (hkind : kind ≠ .tensorRead) (func : Option OpRef) (index : Ordinal)
    (t : DataType) :
    (call t "xte_if_then_else" [c, a, b] kind func index).eval f env = (do
      let p ← c.eval f env
      if ← p.truth (← get).memory then a.eval f env else b.eval f env) :=
  if_neg hkind

/-- A choice that reads memory for a value does not evaluate the other value after the rewriting. -/
theorem eval_guarded_select {c a b : Expr} (h : a.hasLoad || b.hasLoad) :
    ((select c a b).rebuild guardSelect).eval f env = (do
      let p ← (c.rebuild guardSelect).eval f env
      if ← p.truth (← get).memory then (a.rebuild guardSelect).eval f env else (b.rebuild guardSelect).eval f env) := by
  rw [rebuild_select, guardSelect_cases, hasLoad_guarded, hasLoad_guarded, if_pos h]
  exact eval_choice (by simp) none 0 _

/-- The chosen value alone is what the choice between both values gives. -/
theorem choice_refinedBy {c a b : Expr} {kind : CallKind} (hkind : kind ≠ .tensorRead) (func : Option OpRef)
    (index : Ordinal) (henv : env.Fits Γ)
    (hc : c.WellTyped Γ) (hlanes : c.dtype.lanes = 1) (ha : a.WellTyped Γ) (hb : b.WellTyped Γ) (h : a.dtype = b.dtype)
    (t : DataType) :
    ((select c a b).eval f env).RefinedBy ((call t "xte_if_then_else" [c, a, b] kind func index).eval f env) := by
  intro m r m' hr
  obtain ⟨p, hp, hpc, hr⟩ := (hc.quiet_eval henv).on_bind hr
  obtain ⟨x, hx, hxa, hr⟩ := (ha.quiet_eval henv).on_bind hr
  obtain ⟨y, hy, hyb, hr⟩ := (hb.quiet_eval henv).on_bind hr
  obtain ⟨pe, ps, -, rfl, hps, -⟩ := hp
  cases ps with
  | many zs => exact absurd hlanes hps.1.ne'
  | one z =>
    -- The value that the condition chooses is of the type of the choice already.
    have hresult : r = (if z.truthy then x else y) ∧ m' = m := by
      obtain ⟨w, m₁, hw, hr⟩ := on_bind_eq_ok.mp hr
      rw [Value.ofNumeric, on_chosen hx (h ▸ hy)] at hw
      cases hw
      have hv : (if z.truthy then x else y).HasType a.dtype := by
        split
        · exact hx
        · exact h ▸ hy
      rw [convertTo_of_hasType hv] at hr
      cases hr
      exact ⟨rfl, rfl⟩
    obtain ⟨rfl, rfl⟩ := hresult
    rw [eval_choice hkind, on_bind, hpc]
    show on (if z.truthy then a.eval f env else b.eval f env) m' = _
    split
    · exact hxa
    · exact hyb

theorem address_refinedBy {es : List Expr}
    (h : ∀ t v index pred, load t v index pred ∈ es →
      (index.eval f env).RefinedBy ((index.rebuild guardSelect).eval f env)) :
    (eval.address f env es).RefinedBy (eval.address f env (es.map (·.rebuild guardSelect))) := by
  cases es with
  | nil => exact refinedBy_throw
  | cons e es =>
    cases e with
    | load t v index pred =>
      rw [List.map_cons, rebuild_load]
      exact buffer_refinedBy fun a _ => (h t v index pred List.mem_cons_self).bind fun i _ => .refl _
    | _ => exact refinedBy_throw

/-- After the rewriting an expression has the value that it has before, if that does not fail. -/
theorem eval_refinedBy {e : Expr} (he : ∀ a ∈ e.postorder, a.ChoosesOnce f Γ) :
    ∀ env : Env, env.Fits Γ → (e.eval f env).RefinedBy ((e.rebuild guardSelect).eval f env) := by
  -- An address is that of a load, whose index is a part of a part: the induction is on all that is in the parts.
  suffices hall : ∀ e : Expr, ∀ n ∈ e.postorder, (∀ a ∈ n.postorder, a.ChoosesOnce f Γ) → ∀ env : Env, env.Fits Γ →
      (n.eval f env).RefinedBy ((n.rebuild guardSelect).eval f env) from hall e e (self_mem_postorder e) he
  intro e
  induction e using induct_parts with
  | step e ih =>
    intro n hn hn'
    rcases mem_postorder.mp hn with ⟨a, ha, hna⟩ | rfl
    · exact ih a ha n hna hn'
    intro env henv
    have hpart {env : Env} (henv : env.Fits Γ) {a : Expr} (ha : a ∈ n.parts) :
        (a.eval f env).RefinedBy ((a.rebuild guardSelect).eval f env) :=
      ih a ha a (self_mem_postorder a) (fun b hb => hn' b (postorder_subset ha hb)) env henv
    cases n with
    | var v => exact .refl _
    | const x t => exact .refl _
    | str s => exact .refl _
    | cast t a => exact (hpart henv (a := a) (by simp [parts])).bind fun x _ => .refl _
    | bin op a b =>
      refine (hpart henv (a := a) (by simp [parts])).bind fun x _ =>
        (hpart henv (a := b) (by simp [parts])).bind fun y _ => ?_
      show (combine op a.dtype x y).RefinedBy (combine op (a.rebuild guardSelect).dtype x y)
      rw [dtype_guarded]
      exact .refl _
    | not a => exact (hpart henv (a := a) (by simp [parts])).bind fun x _ => .refl _
    | select c a b =>
      rw [rebuild_select, guardSelect_cases, hasLoad_guarded, hasLoad_guarded, dtype_guarded]
      split
      · rename_i hload
        obtain ⟨hc, hlanes, ha, hb, h⟩ := hn' _ (self_mem_postorder _) hload
        refine (choice_refinedBy (show CallKind.intrinsic ≠ .tensorRead by simp) none 0 henv hc hlanes ha hb h
          a.dtype).trans ?_
        rw [eval_call, eval_call]
        exact branch_refinedBy [c, a, b] fun e he => hpart henv he
      · refine (hpart henv (a := c) (by simp [parts])).bind fun p _ =>
          (hpart henv (a := a) (by simp [parts])).bind fun x _ =>
          (hpart henv (a := b) (by simp [parts])).bind fun y _ => RefinedBy.bind (.refl _) fun v _ => ?_
        rw [dtype_guarded]
        exact .refl _
    | call t name args kind func index =>
      rw [rebuild_call]
      show ((call t name args kind func index).eval f env).RefinedBy
        ((call t name (args.map (·.rebuild guardSelect)) kind func index).eval f env)
      rw [eval_call, eval_call]
      split_ifs
      · exact refinedBy_throw
      · exact branch_refinedBy args fun e he => hpart henv he
      · refine address_refinedBy fun u v i p hmem => ?_
        have hi : i ∈ (load u v i p).postorder := postorder_subset (a := i) (by simp [parts]) (self_mem_postorder i)
        exact ih _ hmem i hi (fun b hb => hn' b (postorder_subset hmem (postorder_subset (a := i)
          (by simp [parts]) hb))) env henv
      · exact (evalAll_refinedBy fun e he => hpart henv he).bind fun xs _ => .refl _
    | bind v value body =>
      have heval (value body : Expr) : (bind v value body).eval f env = value.eval f env >>= place >>= fun x =>
        body.eval f (env.set v x) :=
        (bind_assoc _ _ _).symm
      rw [rebuild_bind]
      show ((bind v value body).eval f env).RefinedBy ((bind v (value.rebuild guardSelect)
        (body.rebuild guardSelect)).eval f env)
      rw [heval, heval]
      refine ((hpart henv (a := value) (by simp [parts])).bind fun x _ => .refl _).bind fun y hy => hpart (henv.set ?_)
        (a := body) (by simp [parts])
      obtain ⟨m, m', hy⟩ := hy
      exact hn' _ (self_mem_postorder _) env henv m y m' hy
    | load t v index pred =>
      rw [rebuild_load]
      refine buffer_refinedBy fun a ha => (hpart henv (a := index) (by simp [parts])).bind fun i _ =>
        (evalMask_refinedBy fun p hp => hpart henv (by simp_all [parts])).bind fun mask _ => ?_
      rw [buffer_guarded ha]
      exact .refl _
    | ramp base stride lanes =>
      refine (hpart henv (a := base) (by simp [parts])).bind fun x _ =>
        (hpart henv (a := stride) (by simp [parts])).bind fun y _ =>
        RefinedBy.bind (.refl _) fun a _ => RefinedBy.bind (.refl _) fun b _ => RefinedBy.bind (.refl _) fun r _ => ?_
      show (convertTo (base.dtype.withLanes lanes)
        (.ofNumeric r)).RefinedBy (convertTo ((base.rebuild guardSelect).dtype.withLanes lanes) _)
      rw [dtype_guarded]
      exact .refl _
    | broadcast a lanes =>
      refine (hpart henv (a := a) (by simp [parts])).bind fun x _ => ?_
      show (convertTo (a.dtype.withLanes lanes) x).RefinedBy (convertTo ((a.rebuild guardSelect).dtype.withLanes lanes) x)
      rw [dtype_guarded]
      exact .refl _
    | reduce => exact refinedBy_throw

end Evaluation

end Expr

/-! ### Threads -/

namespace Resumption

variable {σ α β ε : Type} {failed P : α → Prop} {failed' Q : β → Prop} {r r' : Resumption σ α}

/-- A run does what another one does, unless that one fails; its result has a property. -/
inductive RefinedBy (failed P : α → Prop) : Resumption σ α → Resumption σ α → Prop
  | failed {a s r'} (h : failed a) : RefinedBy failed P (done a s) r'
  | done {a s} (h : P a) : RefinedBy failed P (done a s) (done a s)
  | wait {s resume resume'} (h : ∀ t, RefinedBy failed P (resume t) (resume' t)) : RefinedBy failed P (wait s resume)
    (wait s resume')

theorem RefinedBy.bind {g g' : α → σ → Resumption σ β} (h : r.RefinedBy failed P r')
    (hfailed : ∀ a s r', failed a → (g a s).RefinedBy failed' Q r')
    (hdone : ∀ a s, P a → (g a s).RefinedBy failed' Q (g' a s)) :
    (r.bind g).RefinedBy failed' Q (r'.bind g') := by
  induction h with
  | failed h => exact hfailed _ _ _ h
  | done h => exact hdone _ _ h
  | wait _ ih => exact .wait ih

/-- What a run comes to when each wait is resumed at once. -/
theorem RefinedBy.finish (h : r.RefinedBy failed P r') (hr : ¬failed r.finish.1) : r'.finish = r.finish := by
  induction h with
  | failed h => exact absurd h hr
  | done => rfl
  | wait _ ih => exact ih _ hr

/-- A run without a failure does what another one does. -/
abbrev Covers (r r' : Resumption σ (Except ε Unit)) : Prop :=
  r.RefinedBy (·.isOk = false) (· = .ok ()) r'

theorem Covers.both {r r' : Resumption σ (Except ε Unit)} {k k' : σ → Resumption σ (Except ε Unit)} (h : r.Covers r')
    (hk : ∀ s, (k s).Covers (k' s)) : (r.both k).Covers (r'.both k') := by
  induction h generalizing k k' with
  | @failed a s r' ha =>
    cases a with
    | error e => exact .failed rfl
    | ok => cases ha
  | @done a s ha =>
    obtain rfl := ha
    exact hk s
  | @wait s resume resume' h ih =>
    have hs := hk s
    simp only [Resumption.both]
    generalize k s = q, k' s = q' at hs
    cases hs with
    | @failed a t _ ha =>
      cases a with
      | error e => exact .failed rfl
      | ok => cases ha
    | @done a t ha =>
      obtain rfl := ha
      exact .wait h
    | wait h' => exact .wait fun u => ih u h'

/-- Threads in lockstep do what other threads do in lockstep. -/
theorem covers_lockstep {threads threads' : List (σ → Resumption σ (Except ε Unit))}
    (h : List.Forall₂ (fun x y => ∀ s, (x s).Covers (y s)) threads threads') (s : σ) :
    (lockstep threads s).Covers (lockstep threads' s) := by
  induction h generalizing s with
  | nil => exact .done rfl
  | cons hx _ ih => exact (hx s).both ih

end Resumption

namespace Thread

variable {α β : Type} {Γ : Signature} {P : α → Prop} {Q : β → Prop} {x y : Thread α} {k k' : α → Thread β} {f : Frame}
  {v : Var}
  {e : Expr}

/-- The end of a thread that has not failed, where the values of its variables fit. -/
def Fine (Γ : Signature) (P : α → Prop) (r : Except Error α × Local) : Prop :=
  ∃ a, r.1 = .ok a ∧ P a ∧ r.2.env.Fits Γ

/-- A thread does what another one does where the values of its variables fit, unless that one fails. -/
def RefinedBy (Γ : Signature) (P : α → Prop) (x y : Thread α) : Prop :=
  ∀ l m, l.env.Fits Γ → (x.start l m).RefinedBy (fun r => r.1.isOk = false) (Fine Γ P) (y.start l m)

theorem refinedBy_pure {a : α} (ha : P a) : RefinedBy Γ P (pure a) (pure a) := fun _ _ hl => .done ⟨a, rfl, ha, hl⟩

theorem refinedBy_throw {e : Error} : RefinedBy Γ P (throw e) y := fun _ _ _ => .failed rfl

theorem RefinedBy.bind (hx : RefinedBy Γ P x y) (hk : ∀ a, P a → RefinedBy Γ Q (k a) (k' a)) :
    RefinedBy Γ Q (x >>= k) (y >>= k') := by
  intro l m hl
  rw [start_bind, start_bind]
  refine (hx l m hl).bind (fun r m r' h => ?_) fun r m h => ?_
  · obtain ⟨_ | a, l⟩ := r
    · exact .failed rfl
    · cases h
  · obtain ⟨r, l⟩ := r
    obtain ⟨a, rfl, ha, hl⟩ := h
    exact hk a ha l m hl

theorem refinedBy_ofRun {x y : Run α} (h : x.RefinedBy y) (hP : ∀ m a m', on x m = (.ok a, m') → P a) :
    RefinedBy Γ P (ofRun x) (ofRun y) := by
  intro l m hl
  have hstart (z : Run α) : (ofRun z).start l m = .done ((on z m).1, l) (on z m).2 := rfl
  rw [hstart, hstart]
  rcases hr : on x m with ⟨_ | a, m'⟩
  · exact .failed rfl
  · rw [h m a m' hr]
    exact .done ⟨a, rfl, hP m a m' hr, hl⟩

theorem refinedBy_lift {z : Except Error α} (h : ∀ a, z = .ok a → P a) : RefinedBy Γ P (liftM z : Thread α) (liftM z) := by
  cases z with
  | error e => exact refinedBy_throw
  | ok a => exact refinedBy_pure (h a rfl)

theorem RefinedBy.get {k k' : Local → Thread α} (h : ∀ l : Local, l.env.Fits Γ → RefinedBy Γ P (k l) (k' l)) :
    RefinedBy Γ P ((MonadState.get : Thread Local) >>= k) ((MonadState.get : Thread Local) >>= k') :=
      fun l m hl => h l hl l m hl

/-- A step on the variables after which their values fit. -/
theorem refinedBy_modify {g : Local → Local} (hg : ∀ l : Local, l.env.Fits Γ → (g l).env.Fits Γ) :
    RefinedBy Γ (fun _ => True) (modify g : Thread PUnit) (modify g) := fun l _ hl => .done ⟨_, rfl, trivial, hg l hl⟩

theorem refinedBy_set {a : Value} (ha : a.Fits (Γ v.id)) :
    RefinedBy Γ (fun _ => True) (Thread.bind v a) (Thread.bind v a) :=
  refinedBy_modify fun _ hl => hl.set ha

theorem fits_erase {env : Env} (henv : env.Fits Γ) : (env.erase v).Fits Γ := by
  intro w y hy
  by_cases hw : w.id = v.id
  · rw [Env.get?, hw, Env.lookup_erase_self] at hy
    cases hy
  · rw [Env.get?, Env.lookup_erase hw] at hy
    exact henv w y hy

theorem refinedBy_unbind : RefinedBy Γ (fun _ => True) (unbind v) (unbind v) := refinedBy_modify fun _ hl => fits_erase hl

theorem refinedBy_release : RefinedBy Γ (fun _ => True) (release v) (release v) := by
  refine RefinedBy.get fun l hl => ?_
  cases l.env.get? v with
  | none => exact refinedBy_throw
  | some a => exact refinedBy_unbind

theorem RefinedBy.ensuring {x y last : Thread Unit} (hx : RefinedBy Γ (fun _ => True) x y)
    (hlast : RefinedBy Γ (fun _ => True) last last)
    (hend : ∀ l m, ∃ r, last.start l m = .done r m) : RefinedBy Γ (fun _ => True) (ensuring x last) (ensuring y last) := by
  intro l m hl
  rw [start_ensuring, start_ensuring]
  refine (hx l m hl).bind (fun r m r' h => ?_) fun r m h => ?_
  · obtain ⟨_ | a, l⟩ := r
    · obtain ⟨⟨t, l'⟩, ht⟩ := hend l m
      simp only [ht, Resumption.bind]
      cases t <;> exact .failed rfl
    · cases h
  · obtain ⟨r, l⟩ := r
    obtain ⟨a, rfl, -, hl⟩ := h
    refine (hlast l m hl).bind (fun t m r' h => ?_) fun t m h => ?_
    · obtain ⟨_ | b, l⟩ := t
      · exact .failed rfl
      · cases h
    · obtain ⟨t, l⟩ := t
      obtain ⟨b, rfl, -, hl⟩ := h
      exact .done ⟨a, rfl, trivial, hl⟩

theorem refinedBy_forRange {x y : Int → Thread Unit} (h : ∀ i, RefinedBy Γ (fun _ => True) (x i) (y i)) (first : Int)
    (n : Nat) :
    RefinedBy Γ (fun _ => True) (forRange x first n) (forRange y first n) := by
  induction n generalizing first with
  | zero => exact refinedBy_pure trivial
  | succ n ih => exact (h first).bind fun _ _ => ih (first + 1)

theorem refinedBy_await : RefinedBy Γ (fun _ => True) await await :=
    fun _ _ hl => .wait fun _ => .done ⟨_, rfl, trivial, hl⟩

/-! The steps of a statement. -/

section Steps

/-- All that is in an expression chooses once. -/
abbrev Choosing (f : Frame) (Γ : Signature) (e : Expr) : Prop := ∀ a ∈ e.postorder, a.ChoosesOnce f Γ

theorem refinedBy_value (he : Choosing f Γ e) : RefinedBy Γ (fun _ =>
      True) (value f e) (value f (e.rebuild Expr.guardSelect)) :=
  RefinedBy.get fun l hl => refinedBy_ofRun (Expr.eval_refinedBy he l.env hl) fun _ _ _ _ => trivial

theorem refinedBy_holds (he : Choosing f Γ e) : RefinedBy Γ (fun _ =>
      True) (holds f e) (holds f (e.rebuild Expr.guardSelect)) :=
  (refinedBy_value he).bind fun _ _ => refinedBy_ofRun (.refl _) fun _ _ _ _ => trivial

theorem refinedBy_integer (he : Choosing f Γ e) : RefinedBy Γ (fun _ =>
      True) (integer f e) (integer f (e.rebuild Expr.guardSelect)) :=
  (refinedBy_value he).bind fun _ _ => refinedBy_ofRun (.refl _) fun _ _ _ _ => trivial

theorem refinedBy_product {es : List Expr} (h : ∀ e ∈ es, Choosing f Γ e) (n : Int) :
    RefinedBy Γ (fun _ => True) (product f n es) (product f n (es.map (·.rebuild Expr.guardSelect))) := by
  induction es generalizing n with
  | nil => exact refinedBy_pure trivial
  | cons e es ih => exact (refinedBy_integer (h e (by simp))).bind fun k _ => ih (fun e he => h e (by simp [he])) (n * k)

/-- A value that is bound to a variable. -/
theorem refinedBy_bind {k k' : Value → Thread Unit} {t : DataType} (he : Choosing f Γ e) (hgives : e.FitsInto f Γ t)
    (hk : ∀ y : Value, y.Fits t → RefinedBy Γ (fun _ => True) (k y) (k' y)) :
    RefinedBy Γ (fun _ => True) (value f e >>= fun x => ofRun (place x) >>= k)
      (value f (e.rebuild Expr.guardSelect) >>= fun x => ofRun (place x) >>= k') := by
  intro l m hl
  have hstart (e : Expr) (k : Value → Thread Unit) : (value f e >>= fun x => ofRun (place x) >>= k).start l m =
      (ofRun (e.eval f l.env >>= place) >>= k).start l m := by
    rw [start_bind, start_bind]
    show Resumption.bind _ (.done ((on (e.eval f l.env) m).1, l) (on (e.eval f l.env) m).2) =
      Resumption.bind _ (.done ((on (e.eval f l.env >>= place) m).1, l) (on (e.eval f l.env >>= place) m).2)
    rw [on_bind]
    rcases on (e.eval f l.env) m with ⟨_ | x, m'⟩
    · rfl
    · show (ofRun (place x) >>= k).start l m' = _
      rw [start_bind]
      rfl
  rw [hstart, hstart]
  exact RefinedBy.bind (P := fun y : Value => y.Fits t)
    (refinedBy_ofRun ((Expr.eval_refinedBy he l.env hl).bind fun _ _ => .refl _) (hgives l.env hl)) hk l m hl

/-- On the host each allocation makes a buffer of its own. -/
theorem refinedBy_buffer (hhost : f.coords = none) (s s' : Stmt) (v : Var) (et : ElemType) (size : Nat) :
    RefinedBy Γ (fun a => a.rank = 1) (buffer f s v et size) (buffer f s' v et size) := by
  refine RefinedBy.get fun l _ => ?_
  simp only [hhost, Option.isSome_none, Bool.false_and, Bool.false_eq_true, if_false]
  refine refinedBy_ofRun (.refl _) fun m a m' h => ?_
  have hfresh : on (do
      let _ ← (get : Run Machine)
      onMemory fun memory => memory.addZeros et size) m = (.ok (m.memory.addZeros et size).2, _) := rfl
  cases hfresh.symm.trans h
  rfl

/-- A scope in which a variable has a value that fits. -/
theorem RefinedBy.scope {x y last : Thread Unit} {a : Value} (h : RefinedBy Γ (fun _ => True) x y) (ha : a.Fits (Γ v.id))
    (hlast : RefinedBy Γ (fun _ => True) last last) (hend : ∀ l m, ∃ r, last.start l m = .done r m) :
    RefinedBy Γ (fun _ => True) (Thread.bind v a >>= fun _ => Thread.ensuring x last)
      (Thread.bind v a >>= fun _ => Thread.ensuring y last) :=
  (refinedBy_set ha).bind fun _ _ => h.ensuring hlast hend

theorem ends_unbind (l : Local) (m : Machine) : ∃ r, (unbind v).start l m = .done r m := ⟨_, rfl⟩

theorem ends_release (l : Local) (m : Machine) : ∃ r, (release v).start l m = .done r m := by
  cases h : l.env.get? v with
  | none => exact ⟨_, start_release_none h⟩
  | some a => exact ⟨_, start_release h⟩

end Steps

end Thread

/-! ### Statements -/

namespace Stmt

variable {f : Frame} {Γ : Signature} {s : Stmt} {l : Local}

/-- The variable of a statement gets values that fit it, the scope of a buffer is given by its name, and on a device no
    buffer is allocated, as threads find the buffers that they share by the statements that allocate them. -/
def BindsFitting (f : Frame) (Γ : Signature) : Stmt → Prop
  | bind v e _ => e.FitsInto f Γ (Γ v.id)
  | attr subject key e _ => (key = "storage_scope" → ∃ name, e = .str name) ∧
    (key = "thread_extent" → ∀ iv, subject = .axis iv → ∀ c, Thread.coordinate f iv = .ok c →
      (Value.int32 c).Fits (Γ iv.var.id))
  | loop v _ _ _ _ => Γ v.id = v.dtype
  | allocate site v _ _ _ _ => Γ v.id = .handle ∧ f.coords = none
  | _ => True

/-- The choices of a statement that read memory for a value have scalar conditions and values of one type, and its
    variables get values that fit them. -/
structure ChoosesOnce (f : Frame) (Γ : Signature) (s : Stmt) : Prop where
  choices : ∀ t ∈ s.stmts, ∀ e ∈ t.exprParts, ∀ a ∈ e.postorder, a.ChoosesOnce f Γ
  binds : ∀ t ∈ s.stmts, t.BindsFitting f Γ

theorem ChoosesOnce.own (h : s.ChoosesOnce f Γ) : ∀ e ∈ s.exprParts, Thread.Choosing f Γ e :=
    (forall_mem_stmts.mp h.choices).2

theorem ChoosesOnce.bind (h : s.ChoosesOnce f Γ) : s.BindsFitting f Γ := (forall_mem_stmts.mp h.binds).2

theorem ChoosesOnce.body (h : s.ChoosesOnce f Γ) {b : Stmt} (hb : b ∈ s.bodies) : b.ChoosesOnce f Γ :=
  ⟨(forall_mem_stmts.mp h.choices).1 b hb, (forall_mem_stmts.mp h.binds).1 b hb⟩

theorem row_of_place {x y : Value} {m m' : Machine} (hx : ∀ a, x ≠ .array a) (h : on (place x) m = (.ok y, m')) :
    ∀ a, y = .array a → a.rank = 1 := by
  rintro a rfl
  cases x with
  | vector et xs =>
    have hplace : on (place (.vector et xs)) m = (.ok (.array (m.memory.addArray et [xs.length] xs).2), _) := rfl
    cases hplace.symm.trans h
    rfl
  | array b => exact absurd rfl (hx b)
  | _ => cases h

/-- A counter of a loop fits the variable of the loop. -/
theorem counter_fits {t : DataType} {i : Int} {m m' : Machine} {y : Value}
    (h : on (convertTo t (.number (.int i)) >>= place) m = (.ok y, m')) :
    y.Fits t := by
  obtain ⟨x, m₁, hx, hy⟩ := on_bind_eq_ok.mp h
  have hcast : (Value.ofNumeric (.free (.int i))).cast m.memory t = .ok x := congrArg Prod.fst hx
  constructor
  · intro ht hlanes
    obtain ⟨et, het⟩ := ht
    have hxt : x.HasType t := hasType_cast het (show (Numeric.free (.int i)).HasLanes 1 from rfl) (.inl hlanes.symm) hcast
    rw [place_of_hasType hxt hlanes] at hy
    cases hy
    exact hxt
  · refine row_of_place ?_ hy
    rintro a rfl
    by_cases hhandle : t.isHandle
    · rw [Value.cast, if_pos hhandle] at hcast
      cases hcast
    · cases het : t.elemType with
      | error e =>
        rw [Value.cast, if_neg hhandle, show t.element.elemType = .error e from het] at hcast
        cases hcast
      | ok et =>
        rw [cast_ofNumeric het] at hcast
        split at hcast <;>
        · obtain ⟨r, -, hcast⟩ := bind_eq_ok.mp hcast
          rcases r with _ | ⟨_, _ | _⟩ <;> cases hcast

theorem guardSelects_seq (ss : List Stmt) : (seq ss).guardSelects = seq (ss.map guardSelects) := by
  have hlist (ss : List Stmt) : rebuildM.onList (m := Id) (fun e => pure (e.rebuild Expr.guardSelect)) pure ss =
    ss.map guardSelects := by
    induction ss with
    | nil => rfl
    | cons s ss ih => exact congrArg (_ :: ·) ih
  exact congrArg seq (hlist ss)

theorem guardSelects_store (buffer value index : Expr) (pred : Option Expr) : (store buffer value index pred).guardSelects =
    store (buffer.rebuild Expr.guardSelect) (value.rebuild Expr.guardSelect) (index.rebuild Expr.guardSelect)
      (pred.map (·.rebuild Expr.guardSelect)) := by
  cases pred <;> rfl

theorem guardSelects_allocate (v : Var) (t : DataType) (extents : List Expr) (cond : Expr) (body : Stmt) :
    (allocate site v t extents cond body).guardSelects =
      allocate site v t (extents.map (·.rebuild Expr.guardSelect)) (cond.rebuild Expr.guardSelect) body.guardSelects := by
  have hlist : (extents.mapM (m := Id) fun e => pure (e.rebuild Expr.guardSelect)) =
    extents.map (·.rebuild Expr.guardSelect) := List.mapM_pure ..
  exact congrArg (allocate site v t · _ _) hlist

theorem guardSelects_branch (cond : Expr) (onTrue : Stmt) (onFalse : Option Stmt) :
    (branch cond onTrue onFalse).guardSelects =
    branch (cond.rebuild Expr.guardSelect) onTrue.guardSelects (onFalse.map guardSelects) := by
  cases onFalse <;> rfl

theorem isIntrinsic_guarded {e : Expr} {name : String} (hname : name ≠ "xte_if_then_else") :
    (e.rebuild Expr.guardSelect).isIntrinsic name = e.isIntrinsic name := by
  cases e with
  | select c a b =>
    rw [Expr.rebuild_select, Expr.guardSelect_cases]
    split
    · simp [Expr.isIntrinsic, hname.symm]
    · rfl
  | _ => simp [Expr.guardSelect, Expr.isIntrinsic]

/-- After the rewriting a statement does what it does before, unless that fails. -/
theorem exec_refinedBy (hs : s.ChoosesOnce f Γ) : Thread.RefinedBy Γ (fun _ =>
      True) (s.exec f) (s.guardSelects.exec f) := by
  induction s with
  | bind v e body ih =>
    show Thread.RefinedBy Γ _ ((bind v e body).exec f) ((bind v (e.rebuild Expr.guardSelect) body.guardSelects).exec f)
    unfold exec
    exact Thread.refinedBy_bind (hs.own e (by simp)) hs.bind fun y hy =>
      (ih (hs.body (by simp))).scope hy Thread.refinedBy_release Thread.ends_release
  | attr subject key e body ih =>
    have hbody := ih (hs.body (by simp))
    show Thread.RefinedBy Γ _ ((attr subject key e body).exec f)
      ((attr subject key (e.rebuild Expr.guardSelect) body.guardSelects).exec f)
    unfold exec
    split_ifs with hscope hextent
    · obtain ⟨name, rfl⟩ := hs.bind.1 (by simpa using hscope)
      cases subject with
      | var v =>
        exact (Thread.refinedBy_modify (g := fun l => { l with scopes := (v.id, name) :: l.scopes }) fun _ hl =>
          hl).bind fun _ _ => hbody
      | _ => exact hbody
    · cases subject with
      | axis iv =>
        refine (Thread.refinedBy_lift (hs.bind.2 (by simpa using hextent) iv rfl)).bind fun c hc =>
          (Thread.refinedBy_integer (hs.own e (by simp))).bind fun n _ => ?_
        split
        · exact hbody.scope hc Thread.refinedBy_release Thread.ends_release
        · exact Thread.refinedBy_pure trivial
      | _ => exact Thread.refinedBy_throw
    · exact hbody
  | assert cond message body ih =>
    show Thread.RefinedBy Γ _ ((assert cond message body).exec f)
      ((assert (cond.rebuild Expr.guardSelect) (message.rebuild Expr.guardSelect) body.guardSelects).exec f)
    unfold exec
    refine (Thread.refinedBy_holds (hs.own cond (by simp))).bind fun b _ => ?_
    cases b with
    | true => exact ih (hs.body (by simp))
    | false =>
      exact (Thread.refinedBy_value (hs.own message (by simp))).bind fun x _ =>
        Thread.refinedBy_ofRun (.refl _) fun _ _ _ _ => trivial
  | loop v min extent kind body ih =>
    show Thread.RefinedBy Γ _ ((loop v min extent kind body).exec f)
      ((loop v (min.rebuild Expr.guardSelect) (extent.rebuild Expr.guardSelect) kind body.guardSelects).exec f)
    unfold exec
    have hv : Γ v.id = v.dtype := hs.bind
    refine (Thread.refinedBy_integer (hs.own min (by simp))).bind fun start _ =>
      (Thread.refinedBy_integer (hs.own extent (by simp))).bind
      fun count _ => (Thread.refinedBy_forRange (fun i =>
        ?_) start count.toNat).ensuring Thread.refinedBy_unbind Thread.ends_unbind
    refine (Thread.refinedBy_ofRun (.refl _) (P := fun y : Value => y.Fits (Γ v.id)) fun m y m' h =>
      hv ▸ counter_fits h).bind fun y hy =>
      (Thread.refinedBy_set hy).bind fun _ _ => ih (hs.body (by simp))
  | store buffer value index pred =>
    rw [guardSelects_store]
    unfold exec
    refine Thread.RefinedBy.get fun l _ => ?_
    cases hbuffer : f.buffer l.env buffer with
    | error e => exact Thread.refinedBy_throw
    | ok a =>
      rw [Expr.buffer_guarded hbuffer, hbuffer]
      refine (Thread.refinedBy_lift (P := fun _ => True) fun _ _ => trivial).bind fun a _ =>
        (Thread.refinedBy_value (hs.own index (by simp))).bind fun i _ =>
        (Thread.refinedBy_value (hs.own value (by simp))).bind fun x _ => ?_
      cases pred with
      | none => exact Thread.refinedBy_ofRun (.refl _) fun _ _ _ _ => trivial
      | some p =>
        exact (Thread.refinedBy_value (hs.own p (by simp))).bind fun mask _ =>
          Thread.refinedBy_ofRun (.refl _) fun _ _ _ _ => trivial
  | provide => exact Thread.refinedBy_throw
  | allocate site v t extents cond body ih =>
    obtain ⟨hv, hhost⟩ := hs.bind
    rw [guardSelects_allocate]
    unfold exec
    refine (Thread.refinedBy_product (fun e he => hs.own e (by simp [he])) _).bind fun size _ => 
      (Thread.refinedBy_lift (P := fun _ => True) fun _ _ => trivial).bind fun et _ => ?_
    have hrest : Thread.RefinedBy Γ (fun _ => True)
        (Thread.buffer f (allocate site v t extents cond body) v et size.toNat >>= fun a =>
          Thread.bind v (.array a) >>= fun _ =>
          Thread.ensuring (body.exec f) (Thread.unbind v))
        (Thread.buffer f (allocate site v t (extents.map (·.rebuild Expr.guardSelect))
          (cond.rebuild Expr.guardSelect) body.guardSelects) v et
          size.toNat >>= fun a => Thread.bind v (.array a) >>= fun _ => Thread.ensuring (body.guardSelects.exec f)
            (Thread.unbind v)) := by
      refine (Thread.refinedBy_buffer hhost _ _ v et size.toNat).bind fun a ha =>
        (ih (hs.body (by simp))).scope ⟨fun h => ?_, fun b hb => ?_⟩ Thread.refinedBy_unbind Thread.ends_unbind
      · rw [hv] at h
        obtain ⟨_, ⟨⟩⟩ := h
      · cases hb
        exact ha
    split
    · exact Thread.refinedBy_throw
    · exact hrest
  | realize => exact Thread.refinedBy_throw
  | prefetch => exact Thread.refinedBy_throw
  | seq ss ih =>
    rw [guardSelects_seq]
    have hall {ts : List Stmt} (hts : ∀ t ∈ ts, t ∈ ss) :
        Thread.RefinedBy Γ (fun _ => True) (exec.execAll f ts) (exec.execAll f (ts.map guardSelects)) := by
      induction ts with
      | nil => exact Thread.refinedBy_pure trivial
      | cons t ts ih' =>
        have ht := hts t (by simp)
        exact (ih t ht (hs.body ht)).bind fun _ _ => ih' fun t ht => hts t (by simp [ht])
    exact hall fun t ht => ht
  | branch cond onTrue onFalse ih ihf =>
    rw [guardSelects_branch]
    unfold exec
    refine (Thread.refinedBy_holds (hs.own cond (by simp))).bind fun b _ => ?_
    cases b with
    | true => exact ih (hs.body (by simp))
    | false =>
      cases onFalse with
      | none => exact Thread.refinedBy_pure trivial
      | some s => exact ihf s rfl (hs.body (by simp))
  | eval e =>
    show Thread.RefinedBy Γ _ ((eval e).exec f) ((eval (e.rebuild Expr.guardSelect)).exec f)
    unfold exec
    rw [isIntrinsic_guarded (by simp)]
    split
    · exact Thread.refinedBy_await
    · exact (Thread.refinedBy_value (hs.own e (by simp))).bind fun _ _ => Thread.refinedBy_pure trivial

/-- A statement that runs without a failure does the same after the rewriting: it leaves the same memory, if the
    conditions of the choices that read memory for a value are scalars, both values are of one type, and variables have
    values of their types. -/
theorem exec_guardSelects (hs : s.ChoosesOnce f Γ) (hl : l.env.Fits Γ) {m : Machine}
    (h : ((s.exec f).start l m).finish.1.1 = .ok ()) :
    ((s.guardSelects.exec f).start l m).finish = ((s.exec f).start l m).finish :=
  (exec_refinedBy hs l m hl).finish fun hfailed => by simp [h, Except.isOk, Except.toBool] at hfailed

namespace Shifted

def buffer : Var := ⟨0, "A", .handle⟩

def index : Var := ⟨1, "i", .int32⟩

def types : Signature := fun x => if x = buffer.id then .handle else .int32

def inside : Expr := .bin .lt (.var index) (.int32 1)

def next : Expr := .load .int32 (.var buffer) (.bin .add (.var index) (.int32 1)) none

/-- Moves the second element of a buffer to the front and puts sevens behind it. -/
def loop (n : Int) : Stmt :=
  .loop index (.int32 0) (.int32 n) .serial (store (.var buffer) (.select inside next (.int32 7)) (.var index) none)

def frame : Frame := { name := "shift", call := fun _ _ => pure () }

def row : View := ⟨0, .int 32, 0, [3], [1]⟩

def machine : Machine := { memory := #[#[.int 3, .int 5, .int 9]] }

theorem wellTyped_int (n : Int) : (Expr.int32 n).WellTyped types := .const ⟨_, rfl⟩ rfl

theorem wellTyped_index : (Expr.var index).WellTyped types := .var rfl ⟨_, rfl⟩ rfl

theorem wellTyped_next : next.WellTyped types :=
  .load (.bin wellTyped_index (wellTyped_int 1) rfl) (by decide) rfl ⟨_, rfl⟩ (by simp) (by simp)

theorem choosesOnce_loop (n : Int) : (loop n).ChoosesOnce frame types where
  choices := by
    refine forall_mem_stmts.mpr ⟨?_, ?_⟩
    · rw [loop, bodies, List.forall_mem_singleton]
      refine forall_mem_stmts.mpr ⟨by simp, ?_⟩
      have hselect : (Expr.select inside next (.int32 7)).ChoosesOnce frame types := fun _ =>
        ⟨.bin wellTyped_index (wellTyped_int 1) rfl, rfl, wellTyped_next, wellTyped_int 7, rfl⟩
      simp only [exprParts, List.forall_mem_cons, Option.toList_none]
      refine ⟨by simp [Expr.postorder, Expr.ChoosesOnce], ?_, by simp [Expr.postorder, Expr.ChoosesOnce]⟩
      intro a ha
      rcases Expr.mem_postorder.mp ha with ⟨b, hb, hab⟩ | rfl
      · simp only [Expr.parts, List.mem_cons, List.not_mem_nil, or_false] at hb
        rcases hb with rfl | rfl | rfl <;> revert a <;>
          simp [inside, next, Expr.int32, Expr.postorder, Expr.postorder.ofOption, Expr.ChoosesOnce]
      · exact hselect
    · simp [loop, Expr.int32, Expr.postorder, Expr.ChoosesOnce]
  binds := by
    refine forall_mem_stmts.mpr ⟨?_, rfl⟩
    rw [loop, bodies, List.forall_mem_singleton]
    exact forall_mem_stmts.mpr ⟨by simp, trivial⟩

theorem fits_row : Env.Fits types [(buffer.id, .array row)] := by
  intro v x hx
  by_cases hv : v.id = buffer.id
  · have hx : x = .array row := by
      simp only [Env.get?, List.lookup, hv, beq_self_eq_true, Option.some.injEq] at hx
      exact hx.symm
    subst hx
    refine ⟨fun ht => ?_, fun a ha => by cases ha; rfl⟩
    rw [hv] at ht
    obtain ⟨_, ⟨⟩⟩ := ht
  · have hv : (v.id == buffer.id) = false := beq_eq_false_iff_ne.mpr hv
    simp only [Env.get?, List.lookup, hv] at hx
    cases hx

theorem exec_loop : (((loop 2).guardSelects.exec frame).start { env := [(buffer.id,
      .array row)] } machine).finish.2.memory =
    #[#[.int 5, .int 7, .int 9]] :=
  (congrArg (·.2.memory) (exec_guardSelects (choosesOnce_loop 2) fits_row rfl)).trans rfl

/-- One step further the choice fails, as there is no next element; the rewritten loop does not ask for it. -/
example : (((loop 3).exec frame).start { env := [(buffer.id, .array row)] } machine).finish.1.1.isOk = false ∧
    (((loop 3).guardSelects.exec frame).start { env := [(buffer.id, .array row)] } machine).finish.2.memory =
      #[#[.int 5, .int 7, .int 7]] := ⟨rfl, rfl⟩

end Shifted

end Stmt

namespace Func

variable {g : Func} {f : Frame} {frames : List Frame} {Γ : Signature} {env : Env} {m : Machine}

theorem thread_covers (hs : g.body.ChoosesOnce f Γ) (henv : env.Fits Γ) (m : Machine) :
    (g.thread f env m).Covers ({ g with body := g.body.guardSelects : Func }.thread f env m) := by
  refine (Stmt.exec_refinedBy hs { env } m henv).bind (fun r _ _ h => .failed h) fun r _ h => ?_
  obtain ⟨_, ha, -⟩ := h
  exact .done ha

/-- The threads of a block that run without a failure do the same after the rewriting. -/
theorem lockstep_guardSelects (hs : ∀ f ∈ frames, g.body.ChoosesOnce f Γ) (henv : env.Fits Γ)
    (h : (Resumption.lockstep (frames.map fun f => g.thread f env) m).finish.1 = .ok ()) :
    (Resumption.lockstep (frames.map fun f => { g with body := g.body.guardSelects : Func }.thread f env) m).finish =
      (Resumption.lockstep (frames.map fun f => g.thread f env) m).finish := by
  have hthreads : List.Forall₂ (fun x y => ∀ m, Resumption.Covers (x m) (y m)) (frames.map fun f => g.thread f env)
      (frames.map fun f => { g with body := g.body.guardSelects : Func }.thread f env) :=
    List.forall₂_map_left_iff.mpr (List.forall₂_map_right_iff.mpr (List.forall₂_same.mpr fun f hf =>
      thread_covers (hs f hf) henv))
  exact (Resumption.covers_lockstep hthreads m).finish fun hfailed => by simp [h, Except.isOk, Except.toBool] at hfailed

end Func

end TensorNest

import TensorNest.Proofs.Closed
import TensorNest.Proofs.Constraints

/-! # The prologue of a function

A function runs its prologue before its body. If there are values of the variables under which all
arguments fit their parameters, the body runs with these values; if there are none, the call fails before
the body begins. -/

namespace TensorNest

open Run
open Prologue (query)

variable {Γ : Nat → DataType} {f : Frame} {m m' : Machine} {p : Prologue} {ids : List Nat} {C : Env → Prop}

/-! ### Running a prologue -/

namespace Thread

variable {l : Local} {e c : Expr} {v : Var} {x : Value} {err : Error} {body : Stmt} {message : String}

/-- Removes variables after a thread has ended, the last of them first. -/
def releasing (vs : List Var) (x : Thread Unit) : Thread Unit :=
  vs.foldr (fun v x => ensuring x (release v)) x

theorem start_value : (value f e).start l m = .done ((on (e.eval f l.env) m).1, l) (on (e.eval f l.env) m).2 := rfl

theorem exec_bind : (Stmt.bind v e body).exec f = (do
    let x ← value f e
    let y ← ofRun (place x)
    Thread.bind v y
    ensuring (body.exec f) (release v)) := rfl

theorem exec_assert : (Stmt.assert c (.str message) body).exec f = (do
    if ← holds f c then body.exec f
    else
      let x ← value f (.str message)
      ofRun do throw (f.failure (x.shown (← get).memory))) := rfl

theorem start_bind_ok (h : on (e.eval f l.env) m = (.ok x, m')) (hx : ∀ et xs, x ≠ .vector et xs) :
    ((Stmt.bind v e body).exec f).start l m =
      (ensuring (body.exec f) (release v)).start { l with env := l.env.set v x } m' := by
  have hplace : place x = pure x := by
    cases x with
    | vector et xs => exact absurd rfl (hx et xs)
    | _ => rfl
  rw [exec_bind, start_bind, start_value, h]
  show (ofRun (place x) >>= fun y => Thread.bind v y >>= fun _ => ensuring (body.exec f) (release v)).start l m' = _
  rw [hplace]
  rfl

theorem start_bind_error (h : on (e.eval f l.env) m = (.error err, m')) :
    ((Stmt.bind v e body).exec f).start l m = .done (.error err, l) m' := by
  rw [exec_bind, start_bind, start_value, h]
  rfl

theorem start_holds {b : Bool} (h : on (c.eval f l.env) m = (.ok (.scalar .bool (.bool b)), m)) :
    (holds f c).start l m = .done (.ok b, l) m := by
  show (value f c >>= _).start l m = _
  rw [start_bind, start_value, h]
  cases b <;> rfl

theorem start_assert_true (h : on (c.eval f l.env) m = (.ok (.scalar .bool (.bool true)), m)) :
    ((Stmt.assert c (.str message) body).exec f).start l m = (body.exec f).start l m := by
  rw [exec_assert, start_bind, start_holds h]
  rfl

theorem start_assert_false (h : on (c.eval f l.env) m = (.ok (.scalar .bool (.bool false)), m)) :
    ((Stmt.assert c (.str message) body).exec f).start l m = .done (.error (f.failure message), l) m := by
  rw [exec_assert, start_bind, start_holds h]
  rfl

theorem start_assert_error (h : on (c.eval f l.env) m = (.error err, m)) :
    ((Stmt.assert c (.str message) body).exec f).start l m = .done (.error err, l) m := by
  have hholds : (holds f c).start l m = .done (.error err, l) m := by
    show (value f c >>= _).start l m = _
    rw [start_bind, start_value, h]
    rfl
  rw [exec_assert, start_bind, hholds]
  rfl

theorem start_ensuring_congr {y z last : Thread Unit} {l' : Local} (h : y.start l m = z.start l' m') :
    (ensuring y last).start l m = (ensuring z last).start l' m' := by
  rw [start_ensuring, start_ensuring, h]

/-- A variable that is bound is removed, also after a failure. -/
theorem start_ensuring_error {y : Thread Unit} {l' : Local} (h : y.start l m = .done (.error err, l') m')
    (hv : l'.env.Has v.id) :
    (ensuring y (release v)).start l m = .done (.error err, { l' with env := l'.env.erase v }) m' := by
  obtain ⟨a, ha⟩ := hv.get?
  rw [start_ensuring, h]
  show ((release v).start l' m').bind _ = _
  rw [start_release ha]
  rfl

theorem start_releasing_congr {vs : List Var} {y z : Thread Unit} (h : y.start l m = z.start l m) :
    (releasing vs y).start l m = (releasing vs z).start l m := by
  induction vs with
  | nil => exact h
  | cons v vs ih => exact start_ensuring_congr ih

/-- After a failure, too, all variables are removed. -/
theorem start_releasing_error {vs : List Var} {y : Thread Unit} (hnodup : (vs.map (·.id)).Nodup)
    (hvs : ∀ v ∈ vs, l.env.Has v.id) (h : y.start l m = .done (.error err, l) m) :
    (releasing vs y).start l m =
      .done (.error err, { l with env := vs.foldr (fun v env => env.erase v) l.env }) m := by
  induction vs with
  | nil => exact h
  | cons v vs ih =>
    obtain ⟨hv, hvs⟩ := List.forall_mem_cons.mp hvs
    rw [List.map_cons, List.nodup_cons] at hnodup
    have hkept : ∀ ws : List Var, v.id ∉ ws.map (·.id) → (ws.foldr (fun w env => env.erase w) l.env).Has v.id := by
      intro ws hws
      induction ws with
      | nil => exact hv
      | cons w ws ihw =>
        rw [List.map_cons, List.mem_cons, not_or] at hws
        exact Env.has_erase.mpr ⟨hws.1, ihw hws.2⟩
    exact start_ensuring_error (ih hnodup.2 hvs) (hkept vs hnodup.1)

end Thread

open Thread

/-- Checks are done one after the other: all succeed, or the first that does not ends the call. -/
theorem start_checks {l : Local} {checks : List (Expr × String)} (hm : m.Extends m')
    (hjudged : ∀ c ∈ checks, Judged f m l.env False c.1) :
    ((∀ c ∈ checks, Passes f m l.env c.1) ∧ ∀ body : Stmt,
      ((checks.foldr (fun (c, msg) s => Stmt.assert c (.str msg) s) body).exec f).start l m' = (body.exec f).start l m') ∨
    (¬(∀ c ∈ checks, Passes f m l.env c.1) ∧ ∃ err : Error, err.FailsCall ∧ ∀ body : Stmt,
      ((checks.foldr (fun (c, msg) s => Stmt.assert c (.str msg) s) body).exec f).start l m' =
      .done (.error err, l) m') := by
  induction checks with
  | nil => exact Or.inl ⟨List.forall_mem_nil _, fun body => rfl⟩
  | cons c checks ih =>
    obtain ⟨c, msg⟩ := c
    obtain ⟨hc, hjudged⟩ := List.forall_mem_cons.mp hjudged
    simp only [List.foldr_cons, List.forall_mem_cons]
    rcases hc with ⟨b, hc⟩ | ⟨err, herr, hc⟩
    · cases b with
      | true =>
        rcases ih hjudged with ⟨hpass, hrun⟩ | ⟨hfail, err, herr, hrun⟩
        · exact Or.inl ⟨⟨hc, hpass⟩, fun body => (start_assert_true (hc m' hm)).trans (hrun body)⟩
        · exact Or.inr ⟨fun h => hfail h.2, err, herr, fun body => (start_assert_true (hc m' hm)).trans (hrun body)⟩
      | false =>
        refine Or.inr ⟨fun h => ?_, _, failsCall_failure f msg, fun body => start_assert_false (hc m' hm)⟩
        have hboth := hc.unique h.1
        simp at hboth
    · refine Or.inr ⟨fun h => (nomatch hc.unique h.1), err, herr.resolve_right id,
        fun body => start_assert_error (hc m' hm)⟩

/-- What is bound to a variable is found, or the call fails. -/
theorem Asked.on_cases {d : Var × Expr} (h : Asked Γ f m d) (env : Env) (hm : m.Extends m') :
    (Refuses f m d.2 ∧ ∃ err : Error, err.FailsCall ∧ on (d.2.eval f env) m' = (.error err, m')) ∨
      ∃ x m'', on (d.2.eval f env) m' = (.ok x, m'') ∧ m'.Extends m'' ∧ (∀ et xs, x ≠ .vector et xs) := by
  rcases h with h | ⟨y, hy, hsingle, -⟩ | ⟨-, hyields⟩
  · obtain ⟨err, herr, hall⟩ := h
    exact Or.inl ⟨⟨err, herr, hall⟩, err, herr, hall env m' hm⟩
  · exact Or.inr ⟨y, m', hy env m' hm, .refl m', hsingle⟩
  · obtain ⟨x, m'', hon, hm'', a, rfl⟩ := hyields env m' hm
    exact Or.inr ⟨_, m'', hon, hm'', fun et xs => nofun⟩

/-- Variables are bound one after the other, and removed in the opposite order after what comes then; or one of them
    can not be bound, which ends the call. -/
theorem start_defs {defs : List (Var × Expr)} (hnodup : (defs.map (·.1.id)).Nodup) (hasked : ∀ d ∈ defs, Asked Γ f m d)
    (hm : m.Extends m') (l : Local) :
    (∃ env m'', m.Extends m'' ∧ (∀ d ∈ defs, ∃ y, env.get? d.1 = some y ∧ Possible f m d.2 y) ∧
      (∀ x ∉ defs.map (·.1.id), env.lookup x = l.env.lookup x) ∧ ∀ body : Stmt,
        ((defs.foldr (fun (v, e) s => Stmt.bind v e s) body).exec f).start l m' =
          (releasing (defs.map (·.1)) (body.exec f)).start { l with env } m'') ∨
    ((∃ d ∈ defs, Refuses f m d.2) ∧ ∃ err : Error, err.FailsCall ∧ ∃ l' m'', m.Extends m'' ∧
      (∀ x, l.env.Has x → x ∉ defs.map (·.1.id) → l'.env.Has x) ∧ ∀ body : Stmt,
        ((defs.foldr (fun (v, e) s => Stmt.bind v e s) body).exec f).start l m' = .done (.error err, l') m'') := by
  induction defs generalizing l m' with
  | nil => exact Or.inl ⟨l.env, m', hm, List.forall_mem_nil _, fun _ _ => rfl, fun body => rfl⟩
  | cons d defs ih =>
    obtain ⟨v, e⟩ := d
    obtain ⟨hd, hasked⟩ := List.forall_mem_cons.mp hasked
    rw [List.map_cons, List.nodup_cons] at hnodup
    simp only [List.foldr_cons, List.map_cons, List.mem_cons, not_or]
    rcases hd.on_cases l.env hm with ⟨hrefuses, err, herr, hon⟩ | ⟨x, m₁, hon, hm₁, hx⟩
    · exact Or.inr ⟨⟨(v, e), Or.inl rfl, hrefuses⟩, err, herr, l, m', hm, fun x hx _ => hx,
        fun body => start_bind_error hon⟩
    · rcases ih hnodup.2 hasked (hm.trans hm₁) { l with env := l.env.set v x } with
        ⟨env, m'', hm'', hdefs, hrest, hrun⟩ | ⟨⟨d, hd, hrefuses⟩, err, herr, l', m'', hm'', hkept, hrun⟩
      · refine Or.inl ⟨env, m'', hm'', ?_, fun z hz => ?_, fun body => ?_⟩
        · rintro d (rfl | hd)
          · exact ⟨x, (hrest v.id hnodup.1).trans Env.lookup_set_self, l.env, m', m₁, hm, hon⟩
          · exact hdefs d hd
        · exact (hrest z hz.2).trans (Env.lookup_set hz.1)
        · rw [start_bind_ok hon hx]
          exact start_ensuring_congr (hrun body)
      · refine Or.inr ⟨⟨d, Or.inr hd, hrefuses⟩, err, herr, { l' with env := l'.env.erase v }, m'', hm'',
          fun z hz hne => ?_, fun body => ?_⟩
        · exact Env.has_erase.mpr ⟨hne.1, hkept z (Env.has_set.mpr (Or.inr hz)) hne.2⟩
        · rw [start_bind_ok hon hx]
          exact start_ensuring_error (hrun body) (hkept v.id (Env.has_set.mpr (Or.inl rfl)) hnodup.1)

/-! ### Variables of checks -/

namespace Expr

variable {t : DataType} {e : Expr}

/-- Nothing in an expression binds a variable. -/
def Binderless (e : Expr) : Prop :=
  ∀ h ∈ e.heads, h.binders = [] ∧ h.opaqueVars = []

theorem binderless_iff : e.Binderless ↔ (∀ a ∈ e.parts, a.Binderless) ∧ e.head.binders = [] ∧ e.head.opaqueVars = [] := by
  simp only [Binderless, mem_heads (e := e)]
  grind

theorem Index.binderless (h : e.Index t) : e.Binderless := by
  induction h with
  | var | const => exact binderless_iff.mpr ⟨by simp [parts], rfl, rfl⟩
  | bin hop _ _ iha ihb => exact binderless_iff.mpr ⟨by simpa [parts] using ⟨iha, ihb⟩, rfl, rfl⟩

theorem binderless_query {prop : String} {ns : List Nat} : (query t prop ns).Binderless := by
  refine binderless_iff.mpr ⟨fun a ha => ?_, rfl, rfl⟩
  obtain ⟨n, -, rfl⟩ := List.mem_map.mp ha
  exact (Index.const (t := .int32) n).binderless

end Expr

theorem Tests.binderless {c : Expr} (h : Tests f m c) : c.Binderless := by
  have hbin : ∀ {op : BinOp} {a b : Expr}, a.Binderless → b.Binderless → (Expr.bin op a b).Binderless :=
    fun ha hb => Expr.binderless_iff.mpr ⟨by simpa [Expr.parts] using ⟨ha, hb⟩, rfl, rfl⟩
  induction h with
  | const ht hq n => exact hbin Expr.binderless_query (Expr.Index.const n).binderless
  | index hq he => exact hbin Expr.binderless_query he.binderless
  | and _ _ iha ihb => exact hbin iha ihb

namespace Occurrences

variable {o : Occurrences} {e : Expr} {body : Stmt} {x : Nat}

theorem mem_bound_expr (he : e.Binderless) : x ∈ (o.expr e).bound ↔ x ∈ o.bound := by
  have hnone : x ∉ e.boundVars := by
    rintro hx
    obtain ⟨h, hh, hx⟩ := Expr.mem_boundVars.mp hx
    rw [(he h hh).1] at hx
    cases hx
  simp [(adds_expr o e).mem_bound, hnone]

/-- If nothing is found free, what is free in an expression has been bound. -/
theorem mem_bound_of_mem_freeIds (he : e.Binderless) (hfree : (o.expr e).free = []) (hx : x ∈ e.freeIds) : x ∈ o.bound := by
  rcases (adds_expr o e).missed x hx with hx | hx | hx
  · rw [hfree] at hx
    cases hx
  · exact (mem_bound_expr he).mp hx
  · obtain ⟨h, hh, hx⟩ := Expr.mem_opaqueVars.mp hx
    rw [(he h hh).2] at hx
    cases hx

theorem free_of_stmt {s : Stmt} (h : (o.stmt s).free = []) : o.free = [] :=
  List.eq_nil_of_subset_nil (h ▸ (adds_stmt o s).kept)

theorem bound_of_checks {checks : List (Expr × String)} (hchecks : ∀ c ∈ checks, c.1.Binderless)
    (hfree : (o.stmt (checks.foldr (fun (c, msg) s => Stmt.assert c (.str msg) s) body)).free = []) :
    ∀ c ∈ checks, ∀ x ∈ c.1.freeIds, x ∈ o.bound := by
  induction checks generalizing o with
  | nil => exact List.forall_mem_nil _
  | cons c checks ih =>
    obtain ⟨hc, hchecks⟩ := List.forall_mem_cons.mp hchecks
    have hrest : ((o.expr c.1).stmt (checks.foldr (fun (c, msg) s => Stmt.assert c (.str msg) s) body)).free = [] := hfree
    refine List.forall_mem_cons.mpr ⟨fun x hx => mem_bound_of_mem_freeIds hc (free_of_stmt hrest) hx, fun c' hc' x hx => ?_⟩
    exact (mem_bound_expr hc).mp (ih hchecks hrest c' hc' x hx)

theorem bound_of_defs {defs : List (Var × Expr)} {checks : List (Expr × String)} (hdefs : ∀ d ∈ defs, d.2.Binderless)
    (hchecks : ∀ c ∈ checks, c.1.Binderless)
    (hfree : (o.stmt (defs.foldr (fun (v, e) s => Stmt.bind v e s)
      (checks.foldr (fun (c, msg) s => Stmt.assert c (.str msg) s) body))).free = []) :
    ∀ c ∈ checks, ∀ x ∈ c.1.freeIds, x ∈ o.bound ∨ x ∈ defs.map (·.1.id) := by
  induction defs generalizing o with
  | nil => exact fun c hc x hx => Or.inl (bound_of_checks hchecks hfree c hc x hx)
  | cons d defs ih =>
    obtain ⟨hd, hdefs⟩ := List.forall_mem_cons.mp hdefs
    intro c hc x hx
    have hbound := ih (o := (o.bind d.1).expr d.2) hdefs hfree c hc x hx
    rw [mem_bound_expr hd] at hbound
    rw [List.map_cons, List.mem_cons]
    rcases hbound with hbound | hbound
    · exact (List.mem_cons.mp hbound).symm.imp_right Or.inl
    · exact Or.inr (Or.inr hbound)

end Occurrences

/-- The variables of the checks of a closed function are bound before the checks. -/
theorem Encodes.bound_of_closed {body : Stmt} (hp : Encodes Γ f m ids C p) (hclosed : (p.wrap body).freeVars = []) :
    ∀ c ∈ p.checks, ∀ x ∈ c.1.freeIds, x ∈ p.defs.map (·.1.id) := by
  have hdefs : ∀ d ∈ p.defs, d.2.Binderless := by
    intro d hd
    obtain ⟨t, prop, ns, heq⟩ := hp.queries d hd
    exact heq ▸ Expr.binderless_query
  intro c hc x hx
  rcases Occurrences.bound_of_defs hdefs (fun c hc => (hp.tests c hc).1.binderless) hclosed c hc x hx with hbound | hbound
  · cases hbound
  · exact hbound

/-! ### Arguments that fit -/

theorem Asked.int32 {d : Var × Expr} {y : Value} (h : Asked Γ f m d) (hint : Γ d.1.id = .int32) (hy : Possible f m d.2 y) :
    ∃ n, y = .int32 n := by
  rcases h with h | ⟨x, hx, -, hvalue⟩ | ⟨hhandle, -⟩
  · exact absurd hy h.not_possible
  · obtain rfl := hx.possible_iff.mp hy
    exact hvalue hint
  · rw [hint] at hhandle
    cases hhandle

/-- A variable that is no handle is bound to one value only. -/
theorem Asked.unique {d : Var × Expr} {x y : Value} (h : Asked Γ f m d) (hhandle : Γ d.1.id ≠ .handle)
    (hx : Possible f m d.2 x) (hy : Possible f m d.2 y) : x = y := by
  rcases h with h | ⟨z, hz, -⟩ | ⟨heq, -⟩
  · exact absurd hx h.not_possible
  · exact (hz.possible_iff.mp hx).trans (hz.possible_iff.mp hy).symm
  · exact absurd heq hhandle

/-- Values of the variables, of their types, under which all arguments fit their parameters. -/
def Assigns (Γ : Nat → DataType) (f : Frame) (m : Machine) (params : List Param) (env : Env) : Prop :=
  env.Typed Γ ∧ ∀ q ∈ params.zip f.args, q.1.Fits f m env q.2

namespace Prologue

/-- What comes after a prologue is run with some values of the variables; memory that was there before is unchanged. -/
def Enters (f : Frame) (m : Machine) (p : Prologue) (env : Env) : Prop :=
  ∃ m', m.Extends m' ∧ ∀ body : Stmt,
    ((p.wrap body).exec f).start {} m = (releasing (p.defs.map (·.1)) (body.exec f)).start { env } m'

/-- The call fails, and nothing is run after the prologue, whatever comes there. -/
def Rejects (f : Frame) (m : Machine) (p : Prologue) : Prop :=
  ∃ (err : Error) (l : Local) (m' : Machine), err.FailsCall ∧ m.Extends m' ∧ ∀ body : Stmt,
    ((p.wrap body).exec f).start {} m = .done (.error err, l) m'

end Prologue

/-- The values that a prologue binds, and no others. -/
structure Prologue.Bound (f : Frame) (m : Machine) (p : Prologue) (env : Env) : Prop where
  values : ∀ d ∈ p.defs, ∃ y, env.get? d.1 = some y ∧ Possible f m d.2 y
  only : ∀ x y, env.lookup x = some y → ∃ d ∈ p.defs, d.1.id = x ∧ Possible f m d.2 y

namespace Encodes

variable {env env' : Env} {body : Stmt}

theorem typed_of_bound (hp : Encodes Γ f m ids C p) (hbound : p.Bound f m env) : env.Typed Γ := by
  intro x hx y hy
  obtain ⟨d, hd, rfl, hpossible⟩ := hbound.only x y hy
  exact (hp.asked d hd).int32 hx hpossible

/-- Other values that are asked for are the same, except for those of handles. -/
theorem unique_of_bound (hp : Encodes Γ f m ids C p) (hbound : p.Bound f m env) (hholds : p.Holds f m env') {x : Nat}
    {y : Value}
    (hhandle : Γ x ≠ .handle) (hy : env.lookup x = some y) : env'.lookup x = some y := by
  obtain ⟨d, hd, rfl, hpossible⟩ := hbound.only x y hy
  obtain ⟨z, hz, hpossible'⟩ := hholds.1 d hd
  rw [(hp.asked d hd).unique hhandle hpossible hpossible']
  exact hz

theorem lookup_of_check (hp : Encodes Γ f m ids C p) (hclosed : (p.wrap body).freeVars = []) (hbound : p.Bound f m env)
    {c : Expr × String} (hc : c ∈ p.checks) {x : Nat} (hx : x ∈ c.1.freeIds) : ∃ y, env.lookup x = some y := by
  obtain ⟨d, hd, rfl⟩ := List.mem_map.mp (hp.bound_of_closed hclosed c hc x hx)
  obtain ⟨y, hy, -⟩ := hbound.values d hd
  exact ⟨y, hy⟩

/-- Once its variables are bound, a check succeeds or fails the call. -/
theorem judged_of_bound (hp : Encodes Γ f m ids C p) (hclosed : (p.wrap body).freeVars = []) (hbound : p.Bound f m env) :
    ∀ c ∈ p.checks, Judged f m env False c.1 := by
  intro c hc
  obtain ⟨htests, hvars⟩ := hp.tests c hc
  refine (htests.judged fun x hx => hp.typed_of_bound hbound x (hvars x hx)).mono ?_
  rintro ⟨x, hx, hnone⟩
  obtain ⟨y, hy⟩ := hp.lookup_of_check hclosed hbound hc hx
  rw [hnone] at hy
  cases hy

/-- If there are values that are asked for, the checks succeed with those that are bound. -/
theorem passes_of_bound (hp : Encodes Γ f m ids C p) (hclosed : (p.wrap body).freeVars = []) (hbound : p.Bound f m env)
    (henv' : env'.Typed Γ) (hholds : p.Holds f m env') : ∀ c ∈ p.checks, Passes f m env c.1 := by
  intro c hc
  obtain ⟨htests, hvars⟩ := hp.tests c hc
  refine htests.passes_congr (fun x hx => henv' x (hvars x hx)) (fun x hx => ?_) (hholds.2 c hc)
  obtain ⟨y, hy⟩ := hp.lookup_of_check hclosed hbound hc hx
  have hhandle : Γ x ≠ .handle := by
    rw [hvars x hx]
    decide
  rw [hy, hp.unique_of_bound hbound hholds hhandle hy]

/-- A prologue that is closed enters what comes next under the values that it asks for, or there are none and it
    rejects the call. -/
theorem enters_or_rejects (hp : Encodes Γ f m ids C p) (hclosed : (p.wrap body).freeVars = []) :
    (∃ env : Env, env.Typed Γ ∧ C env ∧ (∀ env' : Env, env'.Typed Γ → C env' → ∀ x y, Γ x ≠ .handle →
      env.lookup x = some y → env'.lookup x = some y) ∧ p.Enters f m env) ∨
    ((¬∃ env : Env, env.Typed Γ ∧ C env) ∧ p.Rejects f m) := by
  rcases start_defs hp.nodup hp.asked (.refl m) {} with
    ⟨env, m', hm', hdefs, hrest, hrun⟩ | ⟨⟨d, hd, hrefuses⟩, err, herr, l, m', hm', -, hrun⟩
  · have hbound : p.Bound f m env := by
      refine ⟨hdefs, fun x y hy => ?_⟩
      by_cases hx : x ∈ p.defs.map (·.1.id)
      · obtain ⟨d, hd, rfl⟩ := List.mem_map.mp hx
        obtain ⟨z, hz, hpossible⟩ := hdefs d hd
        obtain rfl := Option.some.inj (hz.symm.trans hy)
        exact ⟨d, hd, rfl, hpossible⟩
      · rw [hrest x hx] at hy
        cases hy
    have htyped := hp.typed_of_bound hbound
    rcases start_checks (l := { env }) hm' (hp.judged_of_bound hclosed hbound) with
      ⟨hpass, hchecks⟩ | ⟨hfail, err, herr, hchecks⟩
    · refine Or.inl ⟨env, htyped, (hp.holds env htyped).mp ⟨hdefs, hpass⟩, fun env' henv' hC x y => ?_, m', hm',
        fun body => ?_⟩
      · exact hp.unique_of_bound hbound ((hp.holds env' henv').mpr hC)
      · exact (hrun _).trans (start_releasing_congr (hchecks body))
    · have hnodup : ((p.defs.map (·.1)).map (·.id)).Nodup := by
        rw [List.map_map]
        exact hp.nodup
      have hhas : ∀ v ∈ p.defs.map (·.1), env.Has v.id := by
        intro v hv
        obtain ⟨d, hd, rfl⟩ := List.mem_map.mp hv
        obtain ⟨y, hy, -⟩ := hdefs d hd
        exact Env.has_of_lookup hy
      refine Or.inr ⟨?_, err, _, m', herr, hm', fun body =>
        (hrun _).trans (start_releasing_error hnodup hhas (hchecks body))⟩
      rintro ⟨env', henv', hC⟩
      exact hfail (hp.passes_of_bound hclosed hbound henv' ((hp.holds env' henv').mpr hC))
  · refine Or.inr ⟨?_, err, l, m', herr, hm', fun body => hrun _⟩
    rintro ⟨env', henv', hC⟩
    obtain ⟨y, -, hpossible⟩ := ((hp.holds env' henv').mpr hC).1 d hd
    exact hrefuses.not_possible hpossible

end Encodes

/-! ### Calls -/

/-- The frame in which a host function runs. -/
def Linkage.frame (l : Linkage) (name : String) (args : List Value) : Frame :=
  { name, args, resolve := l.resolve, call := l.call }

namespace Func

variable {body : Stmt} {name : String} {params : List Param} {restricted : Setting} {g : Func} {l : Linkage}
  {args : List Value} {memory : Memory}

theorem ofBody_eq {arguments : List Argument} (hargs : Prologue.ofArgs name arguments = .ok (p, params))
    (hg : ofBody body name arguments restricted = .ok g) :
    (p.wrap body).freeVars = [] ∧ g.body = p.wrap body ∧ g.name = name := by
  unfold ofBody at hg
  rw [hargs] at hg
  simp only [Bind.bind, Except.bind] at hg
  split at hg
  · rename_i hfree
    obtain rfl := Except.ok.inj hg
    exact ⟨hfree, rfl, rfl⟩
  · cases hg

theorem atCall_error {x : Effect Unit} {err : Error} {after : Memory} (h : x.run.run memory = (.error err, after)) :
    (x.atCall name).run.run memory = (.error (err.atCall name), after) := by
  unfold Effect.atCall
  simp only [tryCatch, tryCatchThe, MonadExceptOf.tryCatch, ExceptT.tryCatch, ExceptT.run, ExceptT.mk] at *
  rw [StateT.run_bind, h]
  rfl

/-- If the prologue rejects a call, the call fails, and the memory of the caller is unchanged. -/
theorem call_of_rejects (h : p.Rejects (l.frame g.name args) { memory }) (hbody : g.body = p.wrap body)
    (hkind : g.kind = .host) :
    ∃ (err : Error) (cells : Memory), err.category = .callFailure ∧
      ((g.runHost l args).atCall g.name).run.run memory = (.error err, memory ++ cells) := by
  obtain ⟨err, l', m', herr, ⟨cells, rfl⟩, hrun⟩ := h
  have hthread : g.thread (l.frame g.name args) [] { memory } = .done (.error err) { memory := memory ++ cells } := by
    show ((g.body.exec (l.frame g.name args)).start {} { memory }).bind _ = _
    rw [hbody, hrun body]
    rfl
  have hhost : (g.runHost l args).run.run memory = (.error err, memory ++ cells) := by
    unfold runHost Run.effect
    rw [hkind]
    show (fun r : Except Error Unit × Machine => ((set r.2.memory >>= fun _ => liftM r.1) : Effect Unit).run.run memory)
      ((fun r : Except Error Unit × Machine => ((set r.2 >>= fun _ => liftM r.1) : Run Unit).run.run { memory })
        (g.thread (l.frame g.name args) [] { memory }).finish) = _
    rw [hthread]
    rfl
  refine ⟨err.atCall g.name, cells, herr g.name, ?_⟩
  exact atCall_error hhost

/-- A call of a host function whose shapes, strides and offsets are index arithmetic on variables of type `int32` enters
    the body under the values of the variables under which all arguments fit, or there are no such values and it fails
    before the body begins. Only for handles are there several values under which the arguments fit. -/
theorem call_enters_or_rejects (hg : ofBody body name (params.map Param.argument) restricted = .ok g)
    (hkind : g.kind = .host)
    (hparams : ∀ a ∈ params, a.Regular Γ) (hnodup : (params.map (·.own.id)).Nodup) (hlength : args.length = params.length)
    (hcount : params.length < 2 ^ 31) (hcast : ∀ q ∈ params.zip args, q.1.Castable { memory } q.2) :
    ∃ p : Prologue, g.body = p.wrap body ∧
      ((∃ env, Assigns Γ (l.frame name args) { memory } params env ∧
        (∀ env', Assigns Γ (l.frame name args) { memory } params env' → ∀ x y, Γ x ≠ .handle →
          env.lookup x = some y → env'.lookup x = some y) ∧
        p.Enters (l.frame name args) { memory } env) ∨
      ((¬∃ env, Assigns Γ (l.frame name args) { memory } params env) ∧
        p.Rejects (l.frame name args) { memory } ∧
        ∃ (err : Error) (cells : Memory), err.category = .callFailure ∧
          ((g.runHost l args).atCall name).run.run memory = (.error err, memory ++ cells))) := by
  obtain ⟨⟨p, given⟩, hargs, hgiven, ids, hencodes⟩ :=
    Encodes.ofArgs (f := l.frame name args) name hparams hnodup hlength hcount hcast
  obtain ⟨hclosed, hbody, rfl⟩ := ofBody_eq hargs hg
  refine ⟨p, hbody, ?_⟩
  rcases hencodes.enters_or_rejects hclosed with ⟨env, htyped, hfits, hunique, henters⟩ | ⟨hnone, hrejects⟩
  · exact Or.inl ⟨env, ⟨htyped, hfits⟩, fun env' henv' => hunique env' henv'.1 henv'.2, henters⟩
  · exact Or.inr ⟨hnone, hrejects, call_of_rejects hrejects hbody hkind⟩

namespace Counted

def types (x : Nat) : DataType :=
  if x = array.data.id then .handle else .int32

def three : View := ⟨0, .int 32, 0, [3], [1]⟩

def cells : Memory := #[#[.int 7, .int 8, .int 9]]

/-- An array of three elements is counted up to three. -/
theorem enters_count : ∃ (p : Prologue) (env : Env), env.get? n = some (.int32 3) ∧
    p.Enters (({} : Linkage).frame "count" [.array three]) { memory := cells } env := by
  have hbuilt : ∃ g, ofBody count "count" ([.buffer array].map Param.argument) .nothing = .ok g ∧ g.kind = .host :=
    ⟨_, rfl, rfl⟩
  obtain ⟨g, hg, hkind⟩ := hbuilt
  have hregular : ∀ a ∈ [Param.buffer array], a.Regular types := by
    refine List.forall_mem_singleton.mpr
      { data := rfl, handle := rfl, bits := by decide, shape := ?_, strides := List.forall_mem_nil _, offset := ?_
        rank := by decide, axes := by decide }
    · exact List.forall_mem_singleton.mpr ⟨.var rfl, List.forall_mem_singleton.mpr rfl⟩
    · exact ⟨.const 0, List.forall_mem_nil _⟩
  have hcast : ∀ q ∈ [Param.buffer array].zip [Value.array three], q.1.Castable { memory := cells } q.2 :=
    List.forall_mem_singleton.mpr trivial
  obtain ⟨p, -, ⟨env, ⟨-, hfits⟩, -, henters⟩ | ⟨hnone, -⟩⟩ :=
    call_enters_or_rejects (l := {}) hg hkind hregular (by decide) rfl (by decide) hcast
  · obtain ⟨a, ha, hfits⟩ := hfits (.buffer array, .array three) (List.mem_singleton_self _)
    obtain rfl := Option.some.inj ha
    obtain ⟨k, hk, hn⟩ := hfits.shape (.var n, 0) (List.mem_singleton_self _)
    obtain rfl := Option.some.inj hk
    exact ⟨p, env, denotes_var.mp hn, henters⟩
  · refine absurd ⟨[(array.data.id, .array (Memory.flatten (cells ++ #[]) three).2), (n.id, .int32 3)], ?_, ?_⟩ hnone
    · intro x hx y hy
      rw [List.lookup_cons] at hy
      split at hy
      · rename_i heq
        rw [beq_iff_eq.mp heq] at hx
        cases hx
      · rw [List.lookup_cons] at hy
        split at hy
        · exact ⟨3, (Option.some.inj hy).symm⟩
        · cases hy
    · refine List.forall_mem_singleton.mpr ⟨three, rfl, ?_⟩
      exact
        { data := ⟨_, rfl, #[], rfl⟩
          rank := rfl
          type := ⟨rfl, rfl, rfl⟩
          shape := List.forall_mem_singleton.mpr ⟨3, rfl, denotes_var.mpr rfl⟩
          strides := fun j hj => by
            obtain rfl := Nat.lt_one_iff.mp hj
            exact ⟨_, 1, rfl, rfl, _, rfl, settles_int32 (by decide)⟩
          offset := ⟨_, rfl, settles_int32 (by decide)⟩ }

end Counted

end Func

end TensorNest

import TensorNest.Proofs.Bindings
import TensorNest.Proofs.Launching

/-! # Thread regions as loops

A statement in which each thread region is a loop over its extent (`Stmt.looped`) takes its steps in order
(`Stmt.Steps.takes_looped`), each at the coordinates that the variables of the loops stand for. A thread takes
in the same order those of the steps that are at its coordinates (`Stmt.Steps.takes`). -/

namespace TensorNest

namespace Run

variable {α β : Type} {run : α → Run Unit}

theorem forM_flatMap {g : β → List α} {l : List β} : (l.flatMap g).forM run = l.forM fun b => (g b).forM run := by
  induction l with
  | nil => rfl
  | cons b l ih =>
    have happend : ∀ l' : List α, (g b ++ l').forM run = ((g b).forM run >>= fun _ => l'.forM run) :=
      fun _ => List.forM_append
    rw [List.flatMap_cons, happend, ih]
    rfl

theorem forM_map {g : β → α} {l : List β} : (l.map g).forM run = l.forM fun b => run (g b) := by
  induction l with
  | nil => rfl
  | cons b l ih => exact congrArg (run (g b) >>= fun _ => ·) ih

end Run

/-! ### Values of expressions in a thread -/

/-- The values of an expression as a number and as a condition. -/
def Expr.HasCount (env : Env) (e : Expr) (n : Int) : Prop :=
  ∃ x, e.HasValue env x ∧ ∀ m, x.toInt m = .ok n

def Expr.HasTruth (env : Env) (e : Expr) (b : Bool) : Prop :=
  ∃ x, e.HasValue env x ∧ ∀ m, x.truth m = .ok b

theorem Expr.HasInt.hasCount {env : Env} {e : Expr} {n : Int} (h : e.HasInt env n) : e.HasCount env n :=
  ⟨_, h.1, fun _ => rfl⟩

namespace Thread

variable {sc : List (Nat × String)} {X : List Nat} {env : Env} {x y : Thread Unit} {a b : Run Unit} {v : Var} {f : Frame}
  {e : Expr} {l : Local} {m : Machine}

theorem start_hasValue {c : Value} (h : e.HasValue env c) (hl : ∀ i ∈ e.freeIds, l.env.lookup i = env.lookup i) :
    (value f e).start l m = .done (.ok c, l) m := by
  have hstart : (value f e).start l m = .done ((Run.on (e.eval f l.env) m).1, l) (Run.on (e.eval f l.env) m).2 := rfl
  rw [hstart, h.congr hl f]
  rfl

theorem start_hasCount {n : Int} (h : e.HasCount env n) (hl : ∀ i ∈ e.freeIds, l.env.lookup i = env.lookup i) :
    (integer f e).start l m = .done (.ok n, l) m := by
  obtain ⟨c, hvalue, hcount⟩ := h
  rw [integer, start_bind, start_hasValue hvalue hl]
  show Resumption.done ((Run.on (liftM (c.toInt m.memory) : Run Int) m).1, l)
    (Run.on (liftM (c.toInt m.memory) : Run Int) m).2 = _
  rw [hcount]
  rfl

theorem start_hasTruth {b : Bool} (h : e.HasTruth env b) (hl : ∀ i ∈ e.freeIds, l.env.lookup i = env.lookup i) :
    (holds f e).start l m = .done (.ok b, l) m := by
  obtain ⟨c, hvalue, htruth⟩ := h
  rw [holds, start_bind, start_hasValue hvalue hl]
  show Resumption.done ((Run.on (liftM (c.truth m.memory) : Run Bool) m).1, l)
    (Run.on (liftM (c.truth m.memory) : Run Bool) m).2 = _
  rw [htruth]
  rfl

/-! ### Threads that take steps -/

/-- A thread with some storage scopes does what a step does, and keeps the scopes and the values of the variables `X`. -/
def Takes (sc : List (Nat × String)) (X : List Nat) (env : Env) (x : Thread Unit) (a : Run Unit) : Prop :=
  ∀ l m, l.scopes = sc → (∀ i ∈ X, l.env.lookup i = env.lookup i) → ∃ r l' m', x.start l m = .done (r, l') m' ∧
    Run.on a m = (r, m') ∧ l'.scopes = sc ∧ ∀ i ∈ X, l'.env.lookup i = env.lookup i

theorem takes_pure : Takes sc X env (pure ()) (pure ()) := fun l m hscopes hl => ⟨_, l, m, rfl, rfl, hscopes, hl⟩

theorem Takes.bind (h : Takes sc X env x a) (h' : Takes sc X env y b) :
    Takes sc X env (x >>= fun _ => y) (a >>= fun _ => b) := by
  intro l m hscopes hl
  obtain ⟨r, l', m', hx, ha, hscopes', hl'⟩ := h l m hscopes hl
  rw [start_bind, hx, Run.on_bind, ha]
  cases r with
  | error e => exact ⟨_, l', m', rfl, rfl, hscopes', hl'⟩
  | ok u => exact h' l' m' hscopes' hl'

theorem Takes.value {c : Value} {k : Value → Thread Unit} (h : Takes sc X env (k c) a) (hc : e.HasValue env c)
    (hX : ∀ i ∈ e.freeIds, i ∈ X) :
    Takes sc X env (value f e >>= k) a := by
  intro l m hscopes hl
  rw [start_bind, start_hasValue hc fun i hi => hl i (hX i hi)]
  exact h l m hscopes hl

theorem Takes.integer {n : Int} {k : Int → Thread Unit} (h : Takes sc X env (k n) a) (hn : e.HasCount env n)
    (hX : ∀ i ∈ e.freeIds, i ∈ X) :
    Takes sc X env (integer f e >>= k) a := by
  intro l m hscopes hl
  rw [start_bind, start_hasCount hn fun i hi => hl i (hX i hi)]
  exact h l m hscopes hl

theorem Takes.holds {c : Bool} {k : Bool → Thread Unit} (h : Takes sc X env (k c) a) (hc : e.HasTruth env c)
    (hX : ∀ i ∈ e.freeIds, i ∈ X) :
    Takes sc X env (holds f e >>= k) a := by
  intro l m hscopes hl
  rw [start_bind, start_hasTruth hc fun i hi => hl i (hX i hi)]
  exact h l m hscopes hl

section Scopes

variable {c : Value}

theorem lookup_set_of_agree {env' : Env} (hl : ∀ i ∈ X, env'.lookup i = env.lookup i) :
    ∀ i ∈ v.id :: X, (env'.set v c).lookup i = (env.set v c).lookup i := by
  intro i hi
  by_cases heq : i = v.id
  · rw [heq, Env.lookup_set_self, Env.lookup_set_self]
  · rw [Env.lookup_set heq, Env.lookup_set heq]
    exact hl i ((List.mem_cons.mp hi).resolve_left heq)

/-- What a thread does while a variable is bound. -/
theorem Takes.bound (h : Takes sc (v.id :: X) (env.set v c) x a) (hv : v.id ∉ X) :
    Takes sc X env (Thread.bind v c >>= fun _ => x) a := by
  intro l m hscopes hl
  obtain ⟨r, l', m', hx, ha, hscopes', hl'⟩ := h { l with env := l.env.set v c } m hscopes (lookup_set_of_agree hl)
  refine ⟨r, l', m', hx, ha, hscopes', fun i hi => ?_⟩
  have hne : i ≠ v.id := fun heq => hv (heq ▸ hi)
  rw [hl' i (List.mem_cons_of_mem _ hi), Env.lookup_set hne]

theorem Takes.unbound (h : Takes sc X env x a) (hv : v.id ∉ X) : Takes sc X env (ensuring x (unbind v)) a := by
  intro l m hscopes hl
  obtain ⟨r, l', m', hx, ha, hscopes', hl'⟩ := h l m hscopes hl
  refine ⟨r, { l' with env := l'.env.erase v }, m', ?_, ha, hscopes', fun i hi => ?_⟩
  · have hunbind : (unbind v).start l' m' = .done (.ok (), { l' with env := l'.env.erase v }) m' := rfl
    rw [start_ensuring, hx]
    simp only [Resumption.bind, hunbind]
  · have hne : i ≠ v.id := fun heq => hv (heq ▸ hi)
    rw [Env.lookup_erase hne, hl' i hi]

/-- At the end of its scope a variable still has a value, so that it can be removed. -/
theorem Takes.scope (h : Takes sc (v.id :: X) (env.set v c) x a) (hv : v.id ∉ X) :
    Takes sc X env (Thread.bind v c >>= fun _ => ensuring x (release v)) a := by
  intro l m hscopes hl
  obtain ⟨r, l', m', hx, ha, hscopes', hl'⟩ := h { l with env := l.env.set v c } m hscopes (lookup_set_of_agree hl)
  have hvalue : l'.env.get? v = some c := (hl' v.id List.mem_cons_self).trans Env.lookup_set_self
  refine ⟨r, { l' with env := l'.env.erase v }, m', ?_, ha, hscopes', fun i hi => ?_⟩
  · show (ensuring x (release v)).start { l with env := l.env.set v c } m = _
    rw [start_ensuring, hx]
    simp only [Resumption.bind, start_release hvalue]
  · have hne : i ≠ v.id := fun heq => hv (heq ▸ hi)
    rw [Env.lookup_erase hne, hl' i (List.mem_cons_of_mem _ hi), Env.lookup_set hne]

end Scopes

/-- The turns of a loop. -/
theorem takes_forRange {turn : Int → Thread Unit} {n : Nat} {first : Int} {as : Nat → Run Unit}
    (h : ∀ i < n, Takes sc X env (turn (first + i)) (as i)) :
    Takes sc X env (forRange turn first n) ((List.range n).forM as) := by
  induction n generalizing first as with
  | zero => exact takes_pure
  | succ n ih =>
    have hzero : Takes sc X env (turn first) (as 0) := by simpa using h 0 (Nat.zero_lt_succ n)
    have hrest : Takes sc X env (forRange turn (first + 1) n) ((List.range n).forM fun i => as (i + 1)) := ih fun i hi => by
      have hturn := h (i + 1) (by omega)
      have hnext : first + ((i + 1 : Nat) : Int) = first + 1 + i := by omega
      rwa [hnext] at hturn
    have hrange : (List.range (n + 1)).forM as = (as 0 >>= fun _ => (List.range n).forM fun i => as (i + 1)) := by
      rw [List.range_succ_eq_map]
      exact congrArg (as 0 >>= fun _ => ·) Run.forM_map
    rw [hrange]
    exact hzero.bind hrest

end Thread


namespace Stmt

/-- Whether a statement is left as it is where threads run one after the other: it is no barrier, gives no storage scope and
    is no region of virtual threads. -/
def isPlain (s : Stmt) : Bool :=
  !s.isBarrier && !s.isScope && !s.isVirtual

/-- A statement can run where the variables `X` have values: none of them is bound in it, all its free ones are among them,
    and it is left as it is where threads run one after the other. -/
structure Fits (X : List Nat) (s : Stmt) : Prop where
  plain : ∀ t ∈ s.stmts, t.isPlain = true
  runnable : s.Runnable
  free : ∀ x ∈ s.freeIds, x ∈ X
  bound : ∀ x ∈ X, x ∉ s.binders

section Fits

variable {X : List Nat} {s b : Stmt} {v : Var} {e : Expr}

theorem Fits.own (h : s.Fits X) (he : e ∈ s.exprParts) : ∀ x ∈ e.freeIds, x ∈ X := fun x hx =>
  h.free x (mem_freeIds.mpr (Or.inl ⟨e, he, hx⟩))

theorem Fits.body (h : s.Fits X) (hnone : s.binder? = none) (hb : b ∈ s.bodies) : b.Fits X where
  plain := (forall_mem_stmts.mp h.plain).1 b hb
  runnable := h.runnable.body hb
  free x hx := h.free x (mem_freeIds.mpr (Or.inr ⟨⟨b, hb, hx⟩, fun v hv => by
    rw [hnone] at hv
    cases hv⟩))
  bound x hx hin := h.bound x hx (mem_binders.mpr (Or.inl ⟨b, hb, hin⟩))

theorem Fits.not_mem (h : s.Fits X) (hv : v ∈ s.binder?) : v.id ∉ X := fun hx =>
  h.bound v.id hx (mem_binders.mpr (Or.inr ⟨v, hv, rfl⟩))

theorem Fits.attr {subject : Subject} {key : String} (h : (attr subject key e b).Fits X) (hkey : key ≠ "thread_extent") :
    key ≠ "storage_scope" ∧ (Stmt.attr subject key e b).binder? = none := by
  constructor
  · rintro rfl
    have hplain := (forall_mem_stmts.mp h.plain).2
    simp [isPlain, isScope] at hplain
  · have hvirtual : (Stmt.attr subject key e b).isVirtual = false := ((forall_mem_stmts.mp h.runnable).2).2
    cases subject with
    | axis iv => simpa [hkey, isVirtual] using hvirtual
    | _ => rfl

theorem Fits.scope (h : s.Fits X) (hv : v ∈ s.binder?) (hb : b ∈ s.bodies) : b.Fits (v.id :: X) where
  plain := (forall_mem_stmts.mp h.plain).1 b hb
  runnable := h.runnable.body hb
  free x hx := by
    by_cases heq : x = v.id
    · exact heq ▸ List.mem_cons_self
    · refine List.mem_cons_of_mem _ (h.free x (mem_freeIds.mpr (Or.inr ⟨⟨b, hb, hx⟩, fun w hw => ?_⟩)))
      obtain rfl := Option.some.inj (hv.symm.trans hw)
      exact heq
  bound x hx := by
    rcases List.mem_cons.mp hx with rfl | hx
    · exact ((forall_mem_stmts.mp h.runnable).2).1 v hv b hb
    · exact fun hin => h.bound x hx (mem_binders.mpr (Or.inl ⟨b, hb, hin⟩))

end Fits

/-! ### The steps of a statement -/

/-- What a statement does if each thread region is a loop over its extent, step by step. Each step is taken at
    coordinates with one for each of some tags, in the frame for these coordinates. Loops, conditionals and bindings
    around thread regions depend on the variables alone. -/
inductive Steps (g : List (String × Nat) → Frame) (sc : List (Nat × String)) :
    List String → Stmt → List (String × Nat) → Env → List (List (String × Nat) × Run Unit) → Prop
  | step {s c env} (hregions : ∀ t ∈ s.stmts, t.threadRegion? = none) :
      Steps g sc [] s c env [(c, s.runThread (g c) { env, scopes := sc })]
  | idle {tags s c env} (hregions : ∀ t ∈ s.stmts, t.threadRegion? = none)
      (hidle : ∀ c, s.runThread (g c) { env, scopes := sc } = pure ()) : Steps g sc tags s c env []
  | region {tags iv extent body c env n L} (htag : iv.tag ∈ tags) (htype : iv.var.dtype = .int32) (hn : extent.HasInt env n)
      (h : ∀ i < n.toNat, Steps g sc (tags.erase iv.tag) body ((iv.tag, i) :: c) (env.set iv.var (.int32 i)) (L i)) :
      Steps g sc tags (.attr (.axis iv) "thread_extent" extent body) c env ((List.range n.toNat).flatMap L)
  | loop {tags v first extent kind body c env a n L} {xs : Nat → Value} (ha : first.HasCount env a)
      (hn : extent.HasCount env n)
      (hxs : ∀ i : Nat, i < n.toNat → (do place (← convertTo v.dtype (.number (.int (a + i)))) : Run Value) = pure (xs i))
      (h : ∀ i < n.toNat, Steps g sc tags body c (env.set v (xs i)) (L i)) :
      Steps g sc tags (.loop v first extent kind body) c env ((List.range n.toNat).flatMap L)
  | bind {tags v e body c env x L} (hx : e.HasValue env x) (hplaced : x.Placed)
      (h : Steps g sc tags body c (env.set v x) L) :
      Steps g sc tags (.bind v e body) c env L
  | attr {tags subject key e body c env L} (hkey : key ≠ "thread_extent") (h : Steps g sc tags body c env L) :
      Steps g sc tags (.attr subject key e body) c env L
  | assert {tags cond message body c env L} (hcond : cond.HasTruth env true) (h : Steps g sc tags body c env L) :
      Steps g sc tags (.assert cond message body) c env L
  | onTrue {tags cond body onFalse c env L} (hcond : cond.HasTruth env true) (h : Steps g sc tags body c env L) :
      Steps g sc tags (.branch cond body onFalse) c env L
  | onFalse {tags cond onTrue body c env L} (hcond : cond.HasTruth env false) (h : Steps g sc tags body c env L) :
      Steps g sc tags (.branch cond onTrue (some body)) c env L
  | neither {tags cond onTrue c env} (hcond : cond.HasTruth env false) : Steps g sc tags (.branch cond onTrue none) c env []
  | nil {tags c env} : Steps g sc tags (.seq []) c env []
  | cons {tags s ss c env L L'} (h : Steps g sc tags s c env L) (hs : Steps g sc tags (.seq ss) c env L') :
      Steps g sc tags (.seq (s :: ss)) c env (L ++ L')

open Thread

variable {f : Frame} {g : List (String × Nat) → Frame} {sc : List (Nat × String)} {s body : Stmt} {ss : List Stmt}
  {iv : IterVar} {c C : List (String × Nat)} {env : Env} {tags : List String}
  {X : List Nat} {L : List (List (String × Nat) × Run Unit)}

/-- A statement without thread regions is one step, the same at all coordinates. -/
theorem takes_runThread {c : Option (List (String × Nat))} (h : s.Fits X) (hregions : ∀ t ∈ s.stmts, t.threadRegion? = none)
    (hsome : c.isSome = f.coords.isSome) :
    Takes sc X env (s.exec { f with coords := c }) (s.runThread f { env, scopes := sc }) := by
  have hplain := h.plain
  simp only [isPlain, Bool.and_eq_true, Bool.not_eq_true'] at hplain
  intro l m hscopes hl
  obtain ⟨⟨r, l'⟩, m', hstart, hkept⟩ := straight_exec (S := True) { f with coords := c }
    (fun t ht => (hplain t ht).1.1) (fun _ t ht => (hplain t ht).1.2) l m
  have hvars := keeps_exec { f with coords := c } s l m
  rw [hstart] at hvars
  refine ⟨r, l', m', hstart, ?_, (hkept trivial).trans hscopes, fun i hi => ?_⟩
  · have halike := alike_of_agree (f := f) (c := c) (fun t ht => (hplain t ht).2) hsome
      (fun _ => hregions) l { env, scopes := sc } m hscopes fun i hi => ⟨hl i (h.free i hi), False.elim⟩
    obtain ⟨hends, hmachine⟩ := halike.finish
    rw [hstart] at hends hmachine
    rw [on_runThread, ← hends.result, ← hmachine]
    rfl
  · rcases hvars i List.not_mem_nil with heq | ⟨hmem, -⟩
    · exact heq.trans (hl i hi)
    · exact absurd hmem (h.bound i hi)

/-! ### Thread regions as loops -/

/-- A statement in which each thread region is a loop over its extent. -/
def looped : Stmt → Stmt
  | bind v e body => bind v e body.looped
  | attr subject key e body =>
    match subject, key == "thread_extent" with
    | .axis iv, true => loop iv.var (Expr.int32 0) e .serial body.looped
    | _, _ => attr subject key e body.looped
  | assert cond message body => assert cond message body.looped
  | loop v first extent kind body => loop v first extent kind body.looped
  | allocate site v t extents cond body => allocate site v t extents cond body.looped
  | realize op output t bounds cond body => realize op output t bounds cond body.looped
  | seq ss => seq (ofSeq ss)
  | branch cond onTrue none => branch cond onTrue.looped none
  | branch cond onTrue (some onFalse) => branch cond onTrue.looped (some onFalse.looped)
  | s => s
where
  /-- Statements in which each thread region is a loop. -/
  ofSeq : List Stmt → List Stmt
    | [] => []
    | s :: ss => s.looped :: ofSeq ss

theorem ofSeq_eq (ss : List Stmt) : looped.ofSeq ss = ss.map looped := by
  induction ss with
  | nil => rfl
  | cons s ss ih => rw [looped.ofSeq, ih, List.map_cons]

theorem looped_attr {subject : Subject} {key : String} {e : Expr} (h : ∀ iv, subject = .axis iv → key ≠ "thread_extent") :
    (attr subject key e body).looped = attr subject key e body.looped := by
  cases subject with
  | axis iv => simp [looped, h iv rfl]
  | _ => simp [looped]

/-- A statement without thread regions stays as it is. -/
theorem looped_eq_self (h : ∀ t ∈ s.stmts, t.threadRegion? = none) : s.looped = s := by
  induction s using induct_bodies with
  | step s ih =>
    obtain ⟨hbodies, hself⟩ := forall_mem_stmts.mp h
    have hsame : ∀ b ∈ s.bodies, b.looped = b := fun b hb => ih b hb (hbodies b hb)
    cases s with
    | attr subject key e body =>
      rw [looped_attr, hsame body (List.mem_singleton_self _)]
      rintro iv rfl rfl
      cases hself
    | seq ss =>
      rw [looped, ofSeq_eq]
      exact congrArg seq ((List.map_congr_left hsame).trans (List.map_id' ss))
    | branch cond onTrue onFalse =>
      have htrue := hsame onTrue List.mem_cons_self
      cases onFalse with
      | none => rw [looped, htrue]
      | some onFalse => rw [looped, htrue, hsame onFalse (by simp)]
    | bind v e body => rw [looped, hsame body (List.mem_singleton_self _)]
    | assert cond message body => rw [looped, hsame body (List.mem_singleton_self _)]
    | loop v first extent kind body => rw [looped, hsame body (List.mem_singleton_self _)]
    | allocate site v t extents cond body => rw [looped, hsame body (List.mem_singleton_self _)]
    | realize op output t bounds cond body => rw [looped, hsame body (List.mem_singleton_self _)]
    | _ => rfl

/-- Loops in place of thread regions bind the same variables. -/
theorem looped_parts (s : Stmt) : s.looped.bodies = s.bodies.map looped ∧ s.looped.binder? = s.binder? := by
  cases s with
  | attr subject key e body =>
    cases subject with
    | axis iv =>
      by_cases hkey : key = "thread_extent"
      · subst hkey
        exact ⟨rfl, rfl⟩
      · rw [looped_attr fun _ _ => hkey]
        exact ⟨rfl, rfl⟩
    | _ => exact ⟨rfl, rfl⟩
  | seq ss => exact ⟨ofSeq_eq ss, rfl⟩
  | branch cond onTrue onFalse => cases onFalse <;> exact ⟨rfl, rfl⟩
  | _ => exact ⟨rfl, rfl⟩

theorem binders_looped {x : Nat} (hx : x ∈ s.looped.binders) : x ∈ s.binders := by
  induction s using induct_bodies with
  | step s ih =>
    obtain ⟨hbodies, hbinder⟩ := looped_parts s
    rw [mem_binders, hbodies, hbinder] at hx
    rcases hx with ⟨b, hb, hx⟩ | hx
    · obtain ⟨b, hmem, rfl⟩ := List.mem_map.mp hb
      exact mem_binders.mpr (Or.inl ⟨b, hmem, ih b hmem hx⟩)
    · exact mem_binders.mpr (Or.inr hx)

/-- The thread regions and the bound variables of a statement are among those of another. -/
structure Within (b s : Stmt) : Prop where
  regions : b.threadRegions ⊆ s.threadRegions
  binders : b.binders ⊆ s.binders

theorem within_body {b : Stmt} (hb : b ∈ s.bodies) : b.Within s where
  regions := by
    refine List.filterMap_subset _ fun t ht => ?_
    rw [stmts_eq]
    exact List.mem_append_left _ (List.mem_flatMap.mpr ⟨b, hb, ht⟩)
  binders x hx := mem_binders.mpr (Or.inl ⟨b, hb, hx⟩)

theorem within_tail : (seq ss).Within (seq (s :: ss)) := by
  have hstmts : ∀ ss : List Stmt, (seq ss).stmts = ss.flatMap stmts ++ [seq ss] := fun ss => stmts_eq (seq ss)
  constructor
  · rw [threadRegions, threadRegions, hstmts, hstmts, List.flatMap_cons, List.filterMap_append, List.filterMap_append,
      List.filterMap_append]
    simp only [List.append_assoc, List.append_subset, List.subset_append_of_subset_right, List.subset_append_left, true_and]
    exact List.nil_subset _
  · rw [binders, binders, hstmts, hstmts, List.flatMap_cons, List.filterMap_append, List.filterMap_append,
      List.filterMap_append]
    simp

/-- The coordinates of a step are those of the statement and one for each tag. -/
theorem Steps.lookup_other (h : Steps g sc tags s c env L) (hnodup : tags.Nodup) {x : List (String × Nat) × Run Unit}
    (hx : x ∈ L)
    {t : String} (ht : t ∉ tags) : x.1.lookup t = c.lookup t := by
  induction h with
  | step hregions =>
    obtain rfl := List.mem_singleton.mp hx
    rfl
  | @region tags iv extent body c env n L htag htype hn h ih =>
    obtain ⟨i, hi, hx⟩ := List.mem_flatMap.mp hx
    have hne : t ≠ iv.tag := fun heq => ht (heq ▸ htag)
    rw [ih i (List.mem_range.mp hi) (hnodup.erase _) hx fun hin => ht (List.mem_of_mem_erase hin), List.lookup_cons,
      beq_false_of_ne hne]
  | loop ha hn hxs h ih =>
    obtain ⟨i, hi, hx⟩ := List.mem_flatMap.mp hx
    exact ih i (List.mem_range.mp hi) hnodup hx ht
  | bind hx' hplaced h ih => exact ih hnodup hx ht
  | attr hkey h ih => exact ih hnodup hx ht
  | assert hcond h ih => exact ih hnodup hx ht
  | onTrue hcond h ih => exact ih hnodup hx ht
  | onFalse hcond h ih => exact ih hnodup hx ht
  | cons h hs ih ihs =>
    rcases List.mem_append.mp hx with hx | hx
    · exact ih hnodup hx ht
    · exact ihs hnodup hx ht
  | idle | neither | nil => cases hx

/-- If the extents depend on variables with the same values throughout, the coordinate of a step for a tag is below the
    value of an extent of the tag. -/
theorem Steps.lookup_below {Y : List Nat} {env₀ : Env} (h : Steps g sc tags s c env L) (hnodup : tags.Nodup)
    (henv : ∀ y ∈ Y, env₀.lookup y = env.lookup y) (hY : ∀ r ∈ s.threadRegions, ∀ y ∈ r.2.freeIds, y ∈ Y)
    (hbound : ∀ y ∈ Y, y ∉ s.binders) {x : List (String × Nat) × Run Unit} (hx : x ∈ L) {t : String} (ht : t ∈ tags) :
    ∃ (i : Nat) (n : Int), x.1.lookup t = some i ∧ i < n ∧ n ∈ LaunchAxes.values env₀ s.threadRegions t := by
  -- The condition on the variables passes to a part, and what is found there holds for the whole.
  have hpart : ∀ {s b : Stmt}, b.Within s → (∀ r ∈ s.threadRegions, ∀ y ∈ r.2.freeIds, y ∈ Y) → (∀ y ∈ Y, y ∉ s.binders) →
      ((∀ r ∈ b.threadRegions, ∀ y ∈ r.2.freeIds, y ∈ Y) → (∀ y ∈ Y, y ∉ b.binders) →
        ∃ (i : Nat) (n : Int), x.1.lookup t = some i ∧ i < n ∧ n ∈ LaunchAxes.values env₀ b.threadRegions t) →
      ∃ (i : Nat) (n : Int), x.1.lookup t = some i ∧ i < n ∧ n ∈ LaunchAxes.values env₀ s.threadRegions t := by
    intro s b hb hY hbound hfound
    obtain ⟨i, n, hi, hlt, hn⟩ := hfound (fun r hr => hY r (hb.regions hr)) fun y hy hin => hbound y hy (hb.binders hin)
    exact ⟨i, n, hi, hlt, LaunchAxes.values_subset hb.regions t hn⟩
  have hset : ∀ {s : Stmt} {v : Var} {y : Value} {env : Env}, (∀ y ∈ Y, env₀.lookup y = env.lookup y) →
      (∀ y ∈ Y, y ∉ s.binders) →
      v ∈ s.binder? → ∀ z ∈ Y, env₀.lookup z = (env.set v y).lookup z := by
    intro s v y env henv hbound hv z hz
    have hne : z ≠ v.id := fun heq => hbound z hz (mem_binders.mpr (Or.inr ⟨v, hv, heq.symm⟩))
    rw [Env.lookup_set hne]
    exact henv z hz
  induction h with
  | step hregions => cases ht
  | @region tags iv extent body c env n L htag htype hn h ih =>
    obtain ⟨i, hi, hx⟩ := List.mem_flatMap.mp hx
    by_cases heq : t = iv.tag
    · have hr : (iv, extent) ∈ (Stmt.attr (.axis iv) "thread_extent" extent body).threadRegions := by
        rw [threadRegions, stmts_eq, List.filterMap_append]
        exact List.mem_append_right _ (List.mem_singleton_self _)
      have hself : x.1.lookup t = some i := by
        rw [(h i (List.mem_range.mp hi)).lookup_other (hnodup.erase _) hx (heq ▸ hnodup.not_mem_erase), heq,
          List.lookup_cons_self]
      have hlt := List.mem_range.mp hi
      exact ⟨i, n, hself, by omega, (iv, extent), hr, heq.symm, hn.1.congr fun y hy => henv y (hY _ hr y hy), hn.2⟩
    · exact hpart (within_body (List.mem_singleton_self _)) hY hbound fun hY' hbound' =>
        ih i (List.mem_range.mp hi) (hnodup.erase _)
          (hset henv hbound rfl) hY' hbound' hx ((List.mem_erase_of_ne heq).mpr ht)
  | loop ha hn hxs h ih =>
    obtain ⟨i, hi, hx⟩ := List.mem_flatMap.mp hx
    exact hpart (within_body (List.mem_singleton_self _)) hY hbound fun hY' hbound' =>
      ih i (List.mem_range.mp hi) hnodup (hset henv hbound rfl) hY' hbound' hx ht
  | bind hy hplaced h ih =>
    exact hpart (within_body (List.mem_singleton_self _)) hY hbound fun hY' hbound' =>
      ih hnodup (hset henv hbound rfl) hY' hbound' hx ht
  | attr hkey h ih =>
    exact hpart (within_body (List.mem_singleton_self _)) hY hbound fun hY' hbound' => ih hnodup henv hY' hbound' hx ht
  | assert hcond h ih =>
    exact hpart (within_body (List.mem_singleton_self _)) hY hbound fun hY' hbound' => ih hnodup henv hY' hbound' hx ht
  | onTrue hcond h ih =>
    exact hpart (within_body List.mem_cons_self) hY hbound fun hY' hbound' => ih hnodup henv hY' hbound' hx ht
  | onFalse hcond h ih =>
    exact hpart (within_body (List.mem_cons_of_mem _ (List.mem_singleton_self _))) hY hbound fun hY' hbound' =>
      ih hnodup henv hY' hbound' hx ht
  | cons h hs ih ihs =>
    rcases List.mem_append.mp hx with hx | hx
    · exact hpart (within_body List.mem_cons_self) hY hbound fun hY' hbound' => ih hnodup henv hY' hbound' hx ht
    · exact hpart within_tail hY hbound fun hY' hbound' => ihs hnodup henv hY' hbound' hx ht
  | idle | neither | nil => cases hx

/-! ### The steps of a thread -/

/-- Coordinates agree on tags. -/
def sameAt (T : List String) (C c : List (String × Nat)) : Bool :=
  T.all fun t => c.lookup t == C.lookup t

/-- Of a list made in parts for the numbers below a bound, only one of which is kept. -/
theorem filter_flatMap_range {α : Type} {p : α → Bool} {g : Nat → List α} {i : Nat} (n : Nat)
    (h : ∀ j < n, j ≠ i → ∀ x ∈ g j, p x = false) :
    ((List.range n).flatMap g).filter p = if i < n then (g i).filter p else [] := by
  induction n with
  | zero => rfl
  | succ n ih =>
    rw [List.range_succ, List.flatMap_append, List.filter_append, ih fun j hj => h j (Nat.lt_succ_of_lt hj)]
    simp only [List.flatMap_cons, List.flatMap_nil, List.append_nil]
    by_cases heq : n = i
    · subst heq
      simp
    · have hnone : (g n).filter p = [] := List.filter_eq_nil_iff.mpr fun x hx => by simp [h n (Nat.lt_succ_self n) heq x hx]
      rw [hnone, List.append_nil]
      have hiff : i < n ↔ i < n + 1 := by omega
      simp only [hiff]

theorem Fits.tail (h : (seq (s :: ss)).Fits X) : (seq ss).Fits X where
  plain := forall_mem_stmts.mpr ⟨fun b hb => (forall_mem_stmts.mp h.plain).1 b (List.mem_cons_of_mem s hb), rfl⟩
  runnable := forall_mem_stmts.mpr ⟨fun b hb => h.runnable.body (List.mem_cons_of_mem s hb), nofun, rfl⟩
  free x hx := by
    obtain ⟨⟨e, he, -⟩⟩ | ⟨⟨b, hb, hx⟩, -⟩ := mem_freeIds.mp hx
    · cases he
    · exact h.free x (mem_freeIds.mpr (Or.inr ⟨⟨b, List.mem_cons_of_mem s hb, hx⟩, nofun⟩))
  bound x hx hin := h.bound x hx (within_tail.binders hin)

/-! Of a statement with parts, each of which takes steps. -/

section Parts

variable {a : Run Unit} {v : Var} {e : Expr} {y : Value} {b : Bool}

theorem takes_bind (h : Takes sc (v.id :: X) (env.set v y) (body.exec f) a) (hy : e.HasValue env y) (hplaced : y.Placed)
    (hX : ∀ i ∈ e.freeIds, i ∈ X) (hv : v.id ∉ X) : Takes sc X env ((bind v e body).exec f) a := by
  have hbody : Takes sc X env (ofRun (place y) >>= fun y => Thread.bind v y >>= fun _ => ensuring (body.exec f)
    (release v)) a := by
    rw [hplaced]
    exact h.scope hv
  exact hbody.value hy hX

theorem takes_attr {subject : Subject} {key : String} (h : Takes sc X env (body.exec f) a) (hthread : key ≠ "thread_extent")
    (hstorage : key ≠ "storage_scope") : Takes sc X env ((attr subject key e body).exec f) a := by
  have hexec : (attr subject key e body).exec f = body.exec f := by simp [exec, hthread, hstorage]
  rwa [hexec]

theorem takes_assert {message : Expr} (h : Takes sc X env (body.exec f) a) (hcond : e.HasTruth env true)
    (hX : ∀ i ∈ e.freeIds, i ∈ X) : Takes sc X env ((assert e message body).exec f) a := by
  unfold exec
  refine Takes.holds ?_ hcond hX
  rwa [if_pos rfl]

theorem takes_branch {onTrue : Stmt} {onFalse : Option Stmt}
    (h : Takes sc X env (if b then onTrue.exec f else exec.otherwise f onFalse) a)
    (hcond : e.HasTruth env b) (hX : ∀ i ∈ e.freeIds, i ∈ X) : Takes sc X env ((branch e onTrue onFalse).exec f) a := by
  unfold exec
  exact Takes.holds h hcond hX

theorem takes_loop {first extent : Expr} {kind : LoopKind} {k n : Int} {xs : Nat → Value} {as : Nat → Run Unit}
    (h : ∀ i < n.toNat, Takes sc (v.id :: X) (env.set v (xs i)) (body.exec f) (as i))
    (hxs : ∀ i : Nat, i < n.toNat → (do place (← convertTo v.dtype (.number (.int (k + i)))) : Run Value) = pure (xs i))
    (hk : first.HasCount env k) (hn : extent.HasCount env n) (hfirst : ∀ i ∈ first.freeIds, i ∈ X)
    (hextent : ∀ i ∈ extent.freeIds, i ∈ X)
    (hv : v.id ∉ X) : Takes sc X env ((loop v first extent kind body).exec f) ((List.range n.toNat).forM as) := by
  unfold exec
  refine Takes.integer (Takes.integer (Takes.unbound (takes_forRange fun i hi => ?_) hv) hn hextent) hk hfirst
  have hturn : (ofRun (do place (← convertTo v.dtype (.number (.int (k + i))))) >>= fun y => Thread.bind v y >>= fun _ =>
      body.exec f) =
      (Thread.bind v (xs i) >>= fun _ => body.exec f) := by
    rw [hxs i hi]
    rfl
  show Takes sc X env (ofRun (do place (← convertTo v.dtype (.number (.int (k + i))))) >>= fun y =>
    Thread.bind v y >>= fun _ => body.exec f) _
  rw [hturn]
  exact (h i hi).bound hv

/-- A thread whose coordinate is below the extent of a region enters it. -/
theorem takes_region {extent : Expr} {i : Nat} {n : Int} (hn : extent.HasInt env n) (hi : C.lookup iv.tag = some i)
    (h : (i : Int) < n → Takes sc (iv.var.id :: X) (env.set iv.var (.int32 i)) (body.exec { f with coords := some C }) a)
    (hX : ∀ i ∈ extent.freeIds, i ∈ X) (hv : iv.var.id ∉ X) :
    Takes sc X env ((attr (.axis iv) "thread_extent" extent body).exec { f with coords := some C })
      (if (i : Int) < n then a else pure ()) := by
  have hcoordinate : coordinate { f with coords := some C } iv = .ok i := by simp [coordinate, hi]
  have hexec : (attr (.axis iv) "thread_extent" extent body).exec { f with coords := some C } =
      (do
        let c ← coordinate { f with coords := some C } iv
        let k ← integer { f with coords := some C } extent
        if (c : Int) < k then
          Thread.bind iv.var (.int32 c)
          ensuring (body.exec { f with coords := some C }) (release iv.var) : Thread Unit) := by
    simp [exec]
  rw [hexec, hcoordinate]
  refine Takes.integer ?_ hn.hasCount hX
  by_cases hlt : (i : Int) < n
  · rw [if_pos hlt, if_pos hlt]
    exact (h hlt).scope hv
  · rw [if_neg hlt, if_neg hlt]
    exact takes_pure

/-- A loop over the extent of a region. -/
theorem takes_looped_region {extent : Expr} {n : Int} {as : Nat → Run Unit} (htype : iv.var.dtype = .int32)
    (hn : extent.HasInt env n)
    (h : ∀ i < n.toNat, Takes sc (iv.var.id :: X) (env.set iv.var (.int32 i)) (body.exec f) (as i))
    (hX : ∀ i ∈ extent.freeIds, i ∈ X) (hv : iv.var.id ∉ X) :
    Takes sc X env ((loop iv.var (Expr.int32 0) extent .serial body).exec f) ((List.range n.toNat).forM as) := by
  have hzero : (Expr.int32 0).HasInt env 0 := Expr.hasInt_int32 (by decide)
  refine takes_loop h (fun i hi => ?_) hzero.hasCount hn.hasCount nofun hX hv
  have hholds : (ElemType.int 32).holds i := by
    have hbounds := holds_int32_iff.mp hn.2
    exact holds_int32_iff.mpr (by omega)
  have hnumber : (Expr.int32 i).HasInt [] i := Expr.hasInt_int32 hholds
  have hconst : convertTo .int32 (.number (.int i)) = pure (.int32 i) := hnumber.1 f
  rw [htype, Int.zero_add, hconst]
  rfl

end Parts

/-- A thread takes the steps at its coordinates. -/
theorem Steps.takes {T : List String} (h : Steps (fun c => { f with coords := some c }) sc tags s c env L)
    (hfits : s.Fits X) (hnodup : tags.Nodup)
    (hC : ∀ t ∈ T, ∃ i, C.lookup t = some i) (hT : tags ⊆ T) (hc : ∀ t ∈ T, t ∉ tags → c.lookup t = C.lookup t) :
    Takes sc X env (s.exec { f with coords := some C }) ((L.filter fun x => sameAt T C x.1).forM (·.2)) := by
  induction h generalizing X with
  | @step s c env hregions =>
    have hsame : sameAt T C c = true := List.all_eq_true.mpr fun t ht => by simp [hc t ht List.not_mem_nil]
    have hone : ([(c, s.runThread { f with coords := some c } { env, scopes := sc })].filter fun x =>
        sameAt T C x.1).forM (·.2) =
        s.runThread { f with coords := some c } { env, scopes := sc } := by
      rw [List.filter_cons, if_pos hsame]
      exact bind_pure_unit
    rw [hone]
    exact takes_runThread (f := { f with coords := some c }) hfits hregions rfl
  | @idle tags s c env hregions hidle =>
    have htakes : Takes sc X env (s.exec { f with coords := some C })
      (s.runThread { f with coords := some C } { env, scopes := sc }) :=
      takes_runThread (f := { f with coords := some C }) hfits hregions rfl
    rwa [hidle] at htakes
  | @region tags iv extent body c env n L htag htype hn h ih =>
    obtain ⟨i, hi⟩ := hC iv.tag (hT htag)
    have hother : ∀ j < n.toNat, j ≠ i → ∀ x ∈ L j, sameAt T C x.1 = false := by
      intro j hj hne x hx
      have hlookup : x.1.lookup iv.tag = some j := by
        rw [(h j hj).lookup_other (hnodup.erase _) hx hnodup.not_mem_erase, List.lookup_cons_self]
      refine List.all_eq_false.mpr ⟨iv.tag, hT htag, ?_⟩
      simp [hlookup, hi, hne]
    have hsteps : ((((List.range n.toNat).flatMap L).filter fun x => sameAt T C x.1).forM (·.2) : Run Unit) =
        if (i : Int) < n then ((L i).filter fun x => sameAt T C x.1).forM (·.2) else pure () := by
      rw [filter_flatMap_range n.toNat hother, apply_ite (List.forM · fun x : List (String × Nat) × Run Unit => x.2)]
      simp only [Int.lt_toNat]
      rfl
    rw [hsteps]
    refine takes_region hn hi (fun hlt => ?_) (hfits.own (List.mem_singleton_self _)) (hfits.not_mem rfl)
    refine ih i (Int.lt_toNat.mpr hlt) (hfits.scope rfl (List.mem_singleton_self _)) (hnodup.erase _)
      (fun t ht => hT (List.mem_of_mem_erase ht)) fun t ht hnot => ?_
    by_cases heq : t = iv.tag
    · rw [heq, hi, List.lookup_cons_self]
    · rw [List.lookup_cons, beq_false_of_ne heq]
      exact hc t ht fun hin => hnot ((List.mem_erase_of_ne heq).mpr hin)
  | @loop tags v first extent kind body c env a n L xs ha hn hxs h ih =>
    rw [List.filter_flatMap, Run.forM_flatMap]
    exact takes_loop (fun i hi => ih i hi (hfits.scope rfl (List.mem_singleton_self _)) hnodup hT hc) hxs ha hn
      (hfits.own List.mem_cons_self) (hfits.own (by simp)) (hfits.not_mem rfl)
  | bind hy hplaced h ih =>
    exact takes_bind (ih (hfits.scope rfl (List.mem_singleton_self _)) hnodup hT hc) hy hplaced
      (hfits.own (List.mem_singleton_self _)) (hfits.not_mem rfl)
  | @attr tags subject key e body c env L hkey h ih =>
    obtain ⟨hscope, hnone⟩ := hfits.attr hkey
    exact takes_attr (ih (hfits.body hnone (List.mem_singleton_self _)) hnodup hT hc) hkey hscope
  | assert hcond h ih =>
    exact takes_assert (ih (hfits.body rfl (List.mem_singleton_self _)) hnodup hT hc) hcond (hfits.own List.mem_cons_self)
  | onTrue hcond h ih =>
    exact takes_branch (b := true) (ih (hfits.body rfl List.mem_cons_self) hnodup hT hc) hcond
      (hfits.own (List.mem_singleton_self _))
  | onFalse hcond h ih =>
    exact takes_branch (b := false) (ih (hfits.body rfl (by simp)) hnodup hT hc) hcond
      (hfits.own (List.mem_singleton_self _))
  | neither hcond => exact takes_branch (b := false) takes_pure hcond (hfits.own (List.mem_singleton_self _))
  | nil => exact takes_pure
  | @cons tags s ss c env L L' h hs ih ihs =>
    have hexec : (seq (s :: ss)).exec { f with coords := some C } =
        (s.exec { f with coords := some C } >>= fun _ => (seq ss).exec { f with coords := some C }) := by
      simp [exec, exec.execAll]
    have hforM : ∀ {l l' : List (List (String × Nat) × Run Unit)},
      (l ++ l').forM (·.2) = (l.forM (·.2) >>= fun _ => l'.forM (·.2)) :=
      List.forM_append
    rw [hexec, List.filter_append, hforM]
    exact (ih (hfits.body rfl List.mem_cons_self) hnodup hT hc).bind (ihs hfits.tail hnodup hT hc)

/-- With loops in place of the thread regions all steps are taken, in order. -/
theorem Steps.takes_looped (h : Steps (fun _ => f) sc tags s c env L) (hfits : s.Fits X) :
    Takes sc X env (s.looped.exec f) (L.forM (·.2)) := by
  induction h generalizing X with
  | @step s c env hregions =>
    have hone : [(c, s.runThread f { env, scopes := sc })].forM (·.2) = s.runThread f { env, scopes := sc } :=
      bind_pure_unit
    rw [hone, looped_eq_self hregions]
    exact takes_runThread hfits hregions rfl
  | @idle tags s c env hregions hidle =>
    have htakes : Takes sc X env (s.exec f) (s.runThread f { env, scopes := sc }) := takes_runThread hfits hregions rfl
    rw [looped_eq_self hregions]
    rwa [hidle c] at htakes
  | @region tags iv extent body c env n L htag htype hn h ih =>
    rw [Run.forM_flatMap]
    exact takes_looped_region htype hn (fun i hi => ih i hi (hfits.scope rfl (List.mem_singleton_self _)))
      (hfits.own (List.mem_singleton_self _)) (hfits.not_mem rfl)
  | @loop tags v first extent kind body c env a n L xs ha hn hxs h ih =>
    rw [Run.forM_flatMap]
    exact takes_loop (fun i hi => ih i hi (hfits.scope rfl (List.mem_singleton_self _))) hxs ha hn
      (hfits.own List.mem_cons_self) (hfits.own (by simp)) (hfits.not_mem rfl)
  | bind hy hplaced h ih =>
    exact takes_bind (ih (hfits.scope rfl (List.mem_singleton_self _))) hy hplaced (hfits.own (List.mem_singleton_self _))
      (hfits.not_mem rfl)
  | @attr tags subject key e body c env L hkey h ih =>
    obtain ⟨hscope, hnone⟩ := hfits.attr hkey
    rw [looped_attr fun _ _ => hkey]
    exact takes_attr (ih (hfits.body hnone (List.mem_singleton_self _))) hkey hscope
  | assert hcond h ih =>
    exact takes_assert (ih (hfits.body rfl (List.mem_singleton_self _))) hcond (hfits.own List.mem_cons_self)
  | @onTrue tags cond body onFalse c env L hcond h ih =>
    have hbody := ih (hfits.body rfl List.mem_cons_self)
    have hcondX := hfits.own (List.mem_singleton_self cond)
    cases onFalse with
    | none => exact takes_branch (b := true) hbody hcond hcondX
    | some onFalse => exact takes_branch (b := true) hbody hcond hcondX
  | onFalse hcond h ih =>
    exact takes_branch (b := false) (ih (hfits.body rfl (by simp))) hcond (hfits.own (List.mem_singleton_self _))
  | neither hcond => exact takes_branch (b := false) takes_pure hcond (hfits.own (List.mem_singleton_self _))
  | nil => exact takes_pure
  | @cons tags s ss c env L L' h hs ih ihs =>
    have hexec : (seq (s :: ss)).looped.exec f = (s.looped.exec f >>= fun _ => (seq ss).looped.exec f) := by
      simp [looped, looped.ofSeq, exec, exec.execAll]
    have hforM : ∀ {l l' : List (List (String × Nat) × Run Unit)},
      (l ++ l').forM (·.2) = (l.forM (·.2) >>= fun _ => l'.forM (·.2)) :=
      List.forM_append
    rw [hexec, hforM]
    exact (ih (hfits.body rfl List.mem_cons_self)).bind (ihs hfits.tail)

/-- A thread of its own does what a step does. -/
theorem runThread_of_takes {a : Run Unit} (h : Takes sc X env (s.exec f) a) : s.runThread f { env, scopes := sc } = a := by
  funext m
  obtain ⟨r, l', m', hstart, hstep, -⟩ := h { env, scopes := sc } m rfl fun _ _ => rfl
  show Run.on (s.runThread f { env, scopes := sc }) m = Run.on a m
  rw [on_runThread, hstart, hstep]
  rfl

theorem binders_subset {s : Stmt} : s.binders ⊆ s.boundIds := by
  intro x hx
  obtain ⟨t, ht, hx⟩ := List.mem_filterMap.mp hx
  refine List.mem_flatMap.mpr ⟨t, ht, List.mem_append_left _ ?_⟩
  obtain ⟨v, hv, rfl⟩ := Option.map_eq_some_iff.mp hx
  exact List.mem_map_of_mem (Option.mem_toList.mpr hv)

/-- A thread of its own takes the steps at its coordinates. -/
theorem Steps.runThread_eq {T : List String} (h : Steps (fun c => { f with coords := some c }) sc tags s [] env L)
    (hfits : s.Fits X) (hnodup : tags.Nodup) (hC : ∀ t ∈ T, ∃ i, C.lookup t = some i) (hT : ∀ t, t ∈ tags ↔ t ∈ T) :
    s.runThread { f with coords := some C } { env, scopes := sc } = (L.filter fun x => sameAt T C x.1).forM (·.2) :=
  runThread_of_takes (h.takes hfits hnodup hC (fun t ht => (hT t).mp ht) fun t ht hnot => absurd ((hT t).mpr ht) hnot)

end Stmt

end TensorNest

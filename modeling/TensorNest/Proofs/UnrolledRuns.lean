import TensorNest.Proofs.Echoes
import TensorNest.Proofs.Unrolling

/-! # Runs of unrolled loops -/

namespace TensorNest

namespace Env

/-- Two environments have the same values. -/
def Same (ρ ρ' : Env) : Prop :=
  ∀ x, ρ'.lookup x = ρ.lookup x

theorem shares_same (v : Var) : Shares Same v where
  get _ _ h := h v.id
  set ρ ρ' a h x := by
    by_cases hx : x = v.id
    · rw [hx, lookup_set_self, lookup_set_self]
    · rw [lookup_set hx, lookup_set hx, h x]
  erase ρ ρ' h x := by
    by_cases hx : x = v.id
    · rw [hx, lookup_erase_self, lookup_erase_self]
    · rw [lookup_erase hx, lookup_erase hx, h x]

/-- Two environments have the same values but for the counter of a loop, which has a value in the first one only; the
    variables of the first value of the counter still have the values of before the loop. -/
structure Counting (v : Var) (min : Expr) (ρ₀ ρ ρ' : Env) : Prop where
  others : ∀ x, x ≠ v.id → ρ'.lookup x = ρ.lookup x
  unbound : ρ'.lookup v.id = none
  start : ∀ x ∈ min.freeIds, ρ'.lookup x = ρ₀.lookup x

theorem Counting.set {v : Var} {min : Expr} {ρ₀ ρ ρ' : Env} (h : Counting v min ρ₀ ρ ρ') (a : Value) :
    Same (ρ.set v a) (ρ'.set v a) := by
  intro x
  by_cases hx : x = v.id
  · rw [hx, lookup_set_self, lookup_set_self]
  · rw [lookup_set hx, lookup_set hx, h.others x hx]

end Env

theorem Expr.echoes_same (f : Frame) (e : Expr) : e.Echoes f Env.Same e where
  value _ _ m h := by
    rw [(agrees_of_lookup fun x _ => h x).eval]
    exact .refl _
  buffer _ _ h := by rw [(agrees_of_lookup fun x _ => h x).buffer]
  store _ _ _ _ _ := .refl _

namespace Stmt
open Thread

/-! ### Variables without values -/

section Unbound
variable {f : Frame} {l l₁ : Local} {m m₁ : Machine} {s b : Stmt} {x : Nat}

theorem unbound_of_keeps {α : Type} {V X : List Nat} {y : Thread α} {r : Except Error α} (h : Keeps V X y)
    (hy : y.ends l m = ((r, l₁), m₁)) (hx : x ∉ V) (hnone : l.env.lookup x = none) : l₁.env.lookup x = none := by
  have hend := (h l m).finish x hx
  have hfinish : (y.start l m).finish = ((r, l₁), m₁) := hy
  rw [hfinish] at hend
  exact hend.elim (fun heq => heq.trans hnone) And.right

/-- A variable without a value has none where the execution of a statement begins that of a body, unless the statement
    binds it. -/
theorem Begins.unbound (h : Begins f l m s b l₁ m₁) (hx : ∀ v ∈ s.binder?, x ≠ v.id) (hnone : l.env.lookup x = none) :
    l₁.env.lookup x = none := by
  have hset {env : Env} {v : Var} {a : Value} (hv : v ∈ s.binder?) (h : env.lookup x = none) :
      (env.set v a).lookup x = none :=
    (Env.lookup_set (hx v hv)).trans h
  have hnil : x ∉ ([] : List Nat) := List.not_mem_nil
  cases h with
  | bind he ha =>
    exact hset rfl (unbound_of_keeps (V := []) (X := []) (keeps_ofRun _) ha hnil
      (unbound_of_keeps (V := []) (X := []) (keeps_value _) he hnil hnone))
  | scope | attr => exact hnone
  | region hc hn => exact hset rfl (unbound_of_keeps (V := []) (X := []) (keeps_integer _) hn hnil hnone)
  | assert h | onTrue h | onFalse h => exact unbound_of_keeps (V := []) (X := []) (keeps_holds _) h hnil hnone
  | @turn v first extent kind body start count k a l₁ l₂ l₃ l₄ m₁ m₂ m₃ m₄ hstart hcount hk hturns ha =>
    have hv : x ∉ [v.id] := by simpa using hx v rfl
    have hturn : Keeps [v.id] b.binders (forRange (Stmt.turn f v b) start k) :=
      keeps_forRange (fun i => (keeps_ofRun _).bind fun a =>
      (keeps_bind a).bind fun _ => (keeps_exec f b).mono (List.nil_subset _) (List.Subset.refl _)) _ _
    have hfirst := unbound_of_keeps (V := []) (X := []) (keeps_integer _) hstart hnil hnone
    have hsecond := unbound_of_keeps (V := []) (X := []) (keeps_integer _) hcount hnil hfirst
    exact hset rfl (unbound_of_keeps (V := []) (X := []) (keeps_ofRun _) ha hnil (unbound_of_keeps hturn hturns hv hsecond))
  | allocate hsize he hsign ha =>
    exact hset rfl (unbound_of_keeps (V := []) (X := []) (keeps_buffer _ _ _ _) ha hnil
      (unbound_of_keeps (V := []) (X := []) (keeps_product _ _) hsize hnil hnone))
  | @seq ss ts b l₁ m₁ h =>
    have hkeeps := keeps_exec f (Stmt.seq ss)
    unfold exec at hkeeps
    exact unbound_of_keeps hkeeps h hnil hnone

end Unbound

/-! ### Runs -/

section Runs
variable {strict : Prop} {f : Frame} {l l' : Local} {m : Machine} {s t : Stmt} {v : Var} {min extent : Expr}
  {body body' : Stmt} {n : Int}

/-- The counter of a loop of some extent takes integers of its type, and so does the number of its turns unless the
    first value is a constant. -/
def Counts (f : Frame) (env : Env) (v : Var) (min extent : Expr) (n : Int) : Prop :=
  ∃ et a, v.dtype.elemType = .ok et ∧ et.holds a ∧ min.eval f env = pure (.scalar et (.int a)) ∧
    count f env extent = pure n ∧
    ∀ k, 0 ≤ k → k < n → et.holds (a + k) ∧ (min.isConst = false → et.holds k)

section Turns
variable {et : ElemType} {a : Int} {ρ₀ : Env} {k : Nat}

theorem Reshapes.record_eq (h : Reshapes s t) (f : Frame) : t.record f = s.record f := by
  cases h with
  | self => rfl
  | mark => rw [record_loop, record_loop]
  | flat ss =>
    rw [record_ofList, record]

theorem ends_index (htype : v.dtype.IsIndex) (het : v.dtype.elemType = .ok et) {i : Int} (hi : et.holds i) (l : Local)
    (m : Machine) :
    (ofRun do place (← convertTo v.dtype (.number (.int i)))).ends l m = ((.ok (.scalar et (.int i)), l), m) := by
  rw [Expr.convertTo_int htype het, if_pos hi]
  rfl

/-- At the end of a statement every variable has its value of before, or it is bound in the statement and has none. -/
theorem lookup_ends_record (f : Frame) (s : Stmt) (l : Local) (m : Machine) (x : Nat) :
    ((s.record f).ends l m).1.2.env.lookup x = l.env.lookup x ∨ x ∈ s.binders ∧
    ((s.record f).ends l m).1.2.env.lookup x = none := by
  have hsame : ((s.exec f).start l m).finish.1.2 = ((s.record f).ends l m).1.2 := by
    rw [start_exec, Resumption.finish_bind]
    rfl
  rw [← hsame]
  exact (keeps_exec f s l m).finish x List.not_mem_nil

/-- A turn of a loop does what the copy of its body for the turn does, if the unrolled body does what the body does. -/
theorem echoes_copy (hhost : f.coords = none) (hcopy : Copyable v min body)
    (hconf : body'.Confined (fun x => x ≠ v.id ∧ x ∉ min.freeIds)
      (fun w => w.id = v.id → w.dtype = v.dtype) fun w => w.id ≠ v.id)
    (het : v.dtype.elemType = .ok et) (ha : et.holds a) (hmin : min.eval f ρ₀ = pure (.scalar et (.int a)))
    (hk : min.isConst = false → et.holds k) (hak : et.holds (a + k)) (hl : Env.Counting v min ρ₀ l.env l'.env)
    (ih : Echoes strict Eq Env.Same { l with env := l.env.set v (.scalar et (.int (a + k))) }
      { l' with env := l'.env.set v (.scalar et (.int (a + k))) } m (body.record f) (body'.record f)) :
    Echoes strict Eq (Env.Counting v min ρ₀) l l' m (deedsOfTurn f v body (a + k))
      ((body'.subst [(v, min.offset v k)]).record f) := by
  let x : Value := .scalar et (.int (a + k))
  let σ : Subst := [(v, min.offset v k)]
  have hturn : (deedsOfTurn f v body (a + k)).ends l m = (body.record f).ends { l with env := l.env.set v x } m := by
    rw [deedsOfTurn, ends_bind, ends_index hcopy.index het hak]
    rfl
  have hvalue : (min.offset v k).eval f l'.env = pure x :=
    hcopy.toStarts.eval_offset het ha ((Expr.agrees_of_lookup hl.start).eval.trans hmin) hk hak
  have hput {y : Nat} {r : Expr} (hr : σ.put? y = some r) : y = v.id ∧ r = min.offset v k := Subst.put?_single.mp hr
  have hleaves {y : Nat} (hy : y ≠ v.id ∧ y ∉ min.freeIds) : σ.Leaves y :=
    Subst.leaves_single hy.1 fun hmem => hy.2 (hcopy.freeIds_offset k y hmem)
  have hrebinds : σ.Rebinds f l'.env (l'.env.set v x) := by
    refine ⟨fun y hy => Env.lookup_set fun heq => ?_, fun y r hr => ?_⟩
    · rw [heq, Subst.put?_single.mpr ⟨rfl, rfl⟩] at hy
      cases hy
    · obtain ⟨rfl, rfl⟩ := hput hr
      exact ⟨hcopy.hasLoad_offset hcopy.loads k, x, hvalue, Env.lookup_set_self⟩
  have hbuffer (w : Var) : σ.Buffer (l'.env.set v x) w := by
    intro r hr
    have hget : (l'.env.set v x).get? w = some (.scalar et (.int (a + k))) := by
      rw [Env.get?, (hput hr).1]
      exact Env.lookup_set_self
    refine .inr fun b hb => ?_
    rw [hget] at hb
    cases hb
  have hsuits : ∀ t ∈ body'.stmts, (∀ w ∈ t.binder?, σ.Leaves w.id) ∧ (∀ e ∈ t.exprParts, σ.Suits (l'.env.set v x) e) ∧
      ∀ w, t = eval (.var w) → σ.put? w.id = none := by
    intro t ht
    obtain ⟨hbinder, hparts, heval⟩ := hconf t ht
    refine ⟨fun w hw => hleaves (hbinder w hw), fun e he =>
      ⟨fun y hy => hleaves ((hparts e he).bound y hy), fun w hw r hr => ?_,
      fun _ w _ _ _ => hbuffer w⟩, fun w heq => Option.eq_none_iff_forall_ne_some.mpr fun r hr => heval w heq (hput hr).1⟩
    rw [(hput hr).2, hcopy.dtype_offset, (hparts e he).vars w hw (hput hr).1]
  have hsubst : Echoes strict Eq (fun ρ₁ ρ₁' =>
      σ.RebindsTo f (l'.env.set v x) ρ₁' ρ₁) { l' with env := l'.env.set v x } l' m
      (body'.record f) ((body'.subst σ).record f) := echoes_record_subst hhost hsuits hbuffer hrebinds.rebindsTo
  unfold Echoes
  rw [hturn]
  refine Echo.mono ((ih.trans hsubst).also (P := fun ρ' => ρ'.lookup v.id = none ∧
    ∀ y ∈ min.freeIds, ρ'.lookup y = ρ₀.lookup y) ?_)
    (fun _ _ => id) ?_
  · have hkept := lookup_ends_record f (body'.subst σ) l' m
    refine ⟨(hkept v.id).elim (fun heq => heq.trans hl.unbound) And.right, fun y hy => ?_⟩
    obtain heq | ⟨hmem, -⟩ := hkept y
    · exact heq.trans (hl.start y hy)
    · exact absurd hy (hconf.binders y (mem_binders_subst.mp hmem)).2
  · rintro ρ ρ' ⟨⟨ρ₁, hsame, hrest⟩, hunbound, hstart⟩
    refine ⟨fun y hy => ?_, hunbound, hstart⟩
    rw [← hsame y]
    refine (hrest.rest y (Option.eq_none_iff_forall_ne_some.mpr fun r hr => hy (hput hr).1)).symm

/-- Turns of a loop and statements one after the other. -/
theorem echoes_turns {R : Env → Env → Prop} {x : Int → Thread (List Deed)} {ts : Nat → Stmt} {first : Int} {n : Nat}
    (hR : R l.env l'.env)
    (h : ∀ k < n, ∀ es l₁ l₁' m₁, (deedsOfRange x first k).ends l m = ((.ok es, l₁), m₁) → R l₁.env l₁'.env →
      Echoes strict Eq R l₁ l₁' m₁ (x (first + k)) ((ts k).record f)) :
    Echoes strict Eq R l l' m (deedsOfRange x first n) (record.recordAll f ((List.range n).map ts)) := by
  induction n generalizing first ts l l' m with
  | zero => exact echoes_pure rfl hR
  | succ n ih =>
    have hfirst : Echoes strict Eq R l l' m (x first) ((ts 0).record f) := by simpa using h 0 n.succ_pos [] l l' m rfl hR
    rw [List.range_succ_eq_map, List.map_cons, List.map_map]
    refine hfirst.bind ?_
    rintro es _ l₁ l₁' m₁ hx - rfl hR₁
    refine (ih hR₁ fun k hk es' l₂ l₂' m₂ hturns hR₂ => ?_).bind ?_
    · have hnext := h (k + 1) (Nat.succ_lt_succ hk) (es ++ es') l₂ l₂' m₂ (by
        rw [Thread.deedsOfRange, ends_bind, hx]
        dsimp only
        rw [ends_bind, hturns]
        rfl) hR₂
      rwa [Int.natCast_succ, Int.add_comm k, ← Int.add_assoc] at hnext
    · rintro es' _ l₂ l₂' m₂ - - rfl hR₂
      exact echoes_pure rfl hR₂

end Turns

/-- A loop does what the copies of its body for its turns do, if the unrolled body does what the body does. -/
theorem echoes_loop {kind : LoopKind} (hhost : f.coords = none) (hcopy : Copyable v min body)
    (hconf : body'.Confined (fun x => x ≠ v.id ∧ x ∉ min.freeIds)
      (fun w => w.id = v.id → w.dtype = v.dtype) fun w => w.id ≠ v.id)
    (hcounts : Counts f l.env v min extent n) (hl : Env.Same l.env l'.env) (hfree : l.env.lookup v.id = none)
    (ih : ∀ l₁ l₁' m₁, Begins f l m (loop v min extent kind body) body l₁ m₁ → Env.Same l₁.env l₁'.env →
      Echoes strict Eq Env.Same l₁ l₁' m₁ (body.record f) (body'.record f)) :
    Echoes strict Eq Env.Same l l' m ((loop v min extent kind body).record f)
      ((ofList ((List.range n.toNat).map fun (i : Nat) => body'.subst [(v, min.offset v i)])).record f) := by
  obtain ⟨et, a, het, ha, hmin, hextent, hfits⟩ := hcounts
  have hinteger {e : Expr} {k : Int} (h : count f l.env e = pure k) : (integer f e).ends l m = ((.ok k, l), m) := by
    unfold ends
    rw [start_integer_eq, h]
    rfl
  have hstart : (integer f min).ends l m = ((.ok a, l), m) := hinteger (by rw [count, hmin]; rfl)
  have hcount : (integer f extent).ends l m = ((.ok n, l), m) := hinteger hextent
  rw [record_ofList, record_loop]
  unfold Echoes
  rw [ends_bind, hstart]
  dsimp only
  rw [ends_bind, hcount]
  have hturns : Echoes strict Eq (Env.Counting v min l.env) l l' m (deedsOfRange (deedsOfTurn f v body) a n.toNat)
      (record.recordAll f ((List.range n.toNat).map fun (i : Nat) => body'.subst [(v, min.offset v i)])) := by
    refine echoes_turns ⟨fun x _ => hl x, (hl v.id).trans hfree, fun x _ => hl x⟩ fun k hk es l₁ l₁' m₁ hbefore hR => ?_
    obtain ⟨hak, hkfits⟩ := hfits k (Int.natCast_nonneg k) (by omega)
    refine echoes_copy hhost hcopy hconf het ha hmin hkfits hak hR (ih _ _ m₁ ?_ (hR.set _))
    refine .turn hstart hcount hk ((erases_deedsOfRange (erases_deedsOfTurn f v body) a k).ends_ok hbefore) ?_
    exact ends_index hcopy.index het hak l₁ m₁
  refine hturns.closing_left fun ρ ρ' hR x => ?_
  by_cases hx : x = v.id
  · rw [hx, hR.unbound, Env.lookup_erase_self]
  · rw [Env.lookup_erase hx, hR.others x hx]

/-- Wherever the execution of a statement comes to a loop of a constant extent, the counter takes integers of its type. -/
def CountsThroughout (f : Frame) (l : Local) (m : Machine) (s : Stmt) : Prop :=
  ∀ W l₁ m₁ v min extent kind body n, Comes f l m s W (loop v min extent kind body) l₁ m₁ → extent.constInt? = some n →
    0 ≤ n →
    Counts f l₁.env v min extent n

/-- On the host a statement does what it becomes when its loops are unrolled. -/
theorem Unrolls.echoes (h : s.Unrolls t) (hs : s.Unrollable) (hhost : f.coords = none)
    (hfree : ∀ x ∈ s.binders, l.env.lookup x = none)
    (hcounts : CountsThroughout f l m s) (hl : Env.Same l.env l'.env) :
    Echoes strict Eq Env.Same l l' m (s.record f) (t.record f) := by
  induction s using induct_bodies generalizing t l l' m with
  | step s ih =>
    have hbody {b t : Stmt} {l₁ l₁' : Local} {m₁ : Machine} (hb : Begins f l m s b l₁ m₁) (hunrolls : b.Unrolls t)
        (hl : Env.Same l₁.env l₁'.env) : Echoes strict Eq Env.Same l₁ l₁' m₁ (b.record f) (t.record f) := by
      refine ih b hb.mem_bodies hunrolls (hs.of_body hb.mem_bodies) (fun x hx => ?_)
        (fun _ _ _ _ _ _ _ _ n hcomes => hcounts _ _ _ _ _ _ _ _ n (.enter hb hcomes)) hl
      have hself : s ∈ s.stmts := by rw [stmts_eq]; exact List.mem_append_right _ (List.mem_singleton_self _)
      refine hb.unbound (fun v hv heq => hs.once s hself v hv b hb.mem_bodies (heq ▸ hx)) (hfree x ?_)
      exact mem_binders.mpr (.inl ⟨b, hb.mem_bodies, hx⟩)
    obtain ⟨bs, hbs, hshape⟩ | ⟨v, min, extent, kind, body, body', n, rfl, hunrolls, hextent, hn, hcopies⟩ := h.cases
    · rw [hshape.record_eq]
      refine (alters_withBodies (E := Eq) hbs fun _ _ => rfl).echoes hhost hl (fun v _ => Env.shares_same v) ?_ ?_ ?_
      · rintro e _ _ rfl
        exact e.echoes_same f
      · rintro e _ _ rfl
        exact ⟨rfl, fun _ => rfl⟩
      · exact fun b b' l₁ l₁' m₁ hunrolls hb hR => hbody hb hunrolls hR
    · have hcopy : Copyable v min body := (forall_mem_stmts.mp hs.copyable).2 _ _ _ _ _ rfl (by rw [hextent]; exact hn)
      rw [copies_eq hcopy.toStarts] at hcopies
      cases hcopies
      refine echoes_loop hhost hcopy (hunrolls.confined (hs.of_body (List.mem_singleton_self _)) hcopy.confined)
        (hcounts [] l m v min extent kind body n .self hextent hn) hl (hfree v.id ?_) fun l₁ l₁' m₁ hb hl =>
        hbody hb hunrolls hl
      exact mem_binders.mpr (.inr ⟨v, rfl, rfl⟩)

/-- Unrolling fails in lowering if a loop is marked that has no constant extent. Otherwise it gives a statement that on
    the host does the same stores and evaluations, with the same values, and leaves the same memory, or fails as the
    statement does. -/
theorem unroll_cases {limits : UnrollLimits} (hlimits : Numeric limits) (hs : s.Unrollable) :
    (s.Symbolic → ∃ e, s.unroll limits = .error e ∧ e.category = .lowering) ∧
    (¬s.Symbolic → ∃ t, s.unroll limits = .ok t ∧
      ∀ f l m, f.coords = none → (∀ x ∈ s.binders, l.env.lookup x = none) → CountsThroughout f l m s →
        (t.outcome f l m).1.toOption = (s.outcome f l m).1.toOption ∧ (t.outcome f l m).2 = (s.outcome f l m).2) := by
  have hraises := hlimits.raises_unrolled hs {}
  have hunroll : s.unroll limits = s.unrolled limits {} >>= fun x => pure x.1.term := rfl
  rw [hunroll]
  generalize hz : s.unrolled limits {} = z at hraises
  cases hraises with
  | @error e hP he => exact ⟨fun _ => ⟨e, rfl, he⟩, fun hnone => absurd hP hnone⟩
  | @ok r hP =>
    refine ⟨fun hsome => absurd hsome hP, fun _ => ⟨r.1.term, rfl, fun f l m hhost hfree hcounts => ?_⟩⟩
    have hunrolls : s.Unrolls r.1.term := ⟨limits, {}, r.2, r.1, hz, rfl⟩
    have hechoes : Echoes True Eq Env.Same l l m (s.record f) (r.1.term.record f) :=
      hunrolls.echoes hs hhost hfree hcounts fun _ => rfl
    unfold Echoes ends at hechoes
    unfold outcome
    generalize ((s.record f).start l m).finish = x at hechoes
    generalize ((r.1.term.record f).start l m).finish = y at hechoes
    cases hechoes with
    | ok heq _ => exact ⟨heq ▸ rfl, rfl⟩
    | error _ => exact ⟨rfl, rfl⟩
    | lost h => exact absurd trivial h

end Runs

namespace Stepped

def i : Var := ⟨1, "i", .int32⟩

def j : Var := ⟨2, "j", .int32⟩

def n : Var := ⟨3, "n", .int32⟩

def array : Var := ⟨4, "A", .handle⟩

def set : Stmt := store (.var array) (.var i) (.var j) none

def row : Stmt := loop j (.int32 0) (.int32 2) .serial set

/-- Two elements of an array are set twice, first to a number and then to the next one. -/
def rows : Stmt := loop i (.var n) (.int32 2) .unrolled row

def frame : Frame := { name := "rows", call := fun _ _ => pure () }

def host : Local := { env := [(n.id, .scalar (.int 32) (.int 5)), (array.id, .array ⟨0, .int 32, 0, [2], [1]⟩)] }

theorem stmts_rows : rows.stmts = [set, row, rows] := rfl

theorem copyable_row : Copyable j (.int32 0) set where
  index := ⟨rfl, rfl⟩
  typed := rfl
  literal := by rintro _ _ ⟨⟩; exact ⟨0, rfl⟩
  loads := rfl
  confined := by
    have hset : ∀ e ∈ set.exprParts, (∀ x ∈ e.boundVars, x ≠ j.id ∧ x ∉ (Expr.int32 0).freeIds) ∧
      ∀ w ∈ e.vars, w.id = j.id → w.dtype = j.dtype := by decide
    exact confined_iff.mpr ⟨List.forall_mem_nil _, nofun, fun e he => ⟨(hset e he).1, (hset e he).2⟩, nofun⟩

theorem copyable_rows : Copyable i (.var n) row where
  index := ⟨rfl, rfl⟩
  typed := rfl
  literal := nofun
  loads := rfl
  confined := by
    have hall : ∀ t ∈ [set, row], ∀ e ∈ t.exprParts, (∀ x ∈ e.boundVars, x ≠ i.id ∧ x ∉ (Expr.var n).freeIds) ∧
      ∀ w ∈ e.vars, w.id = i.id → w.dtype = i.dtype := by decide
    intro t ht
    refine ⟨?_, fun e he => ⟨(hall t ht e he).1, (hall t ht e he).2⟩, ?_⟩
    · revert t ht
      exact (by decide : ∀ t ∈ [set, row], ∀ v ∈ t.binder?, v.id ≠ i.id ∧ v.id ∉ (Expr.var n).freeIds)
    · rintro w rfl
      have hmem : eval (.var w) ∈ [set, row] := ht
      simp [row, set] at hmem

theorem unrollable_rows : rows.Unrollable where
  filled := by
    rw [stmts_rows]
    simp [set, row, rows]
  once := by
    rw [stmts_rows]
    decide
  copyable := by
    rw [stmts_rows]
    simp only [List.forall_mem_cons]
    refine ⟨nofun, ?_, ?_, List.forall_mem_nil _⟩
    · rintro _ _ _ _ _ ⟨⟩ -
      exact copyable_row
    · rintro _ _ _ _ _ ⟨⟩ -
      exact copyable_rows

theorem counts_int32 {v : Var} {min : Expr} {k : Int} {env : Env} (hv : v.dtype = .int32) (hk : (ElemType.int 32).holds k)
    (hk' : (ElemType.int 32).holds (k + 1)) (hmin : min.eval frame env = pure (.scalar (.int 32) (.int k))) :
    Counts frame env v min (.int32 2) 2 := by
  refine ⟨.int 32, k, by rw [hv]; rfl, hk, hmin, ?_, fun x hx hlt => ?_⟩
  · have hextent : (Expr.int32 2).eval frame env = pure (.scalar (.int 32) (.int 2)) :=
      Expr.eval_const_int ⟨rfl, rfl⟩ rfl (by decide)
    rw [count, hextent]
    rfl
  · obtain rfl | rfl : x = 0 ∨ x = 1 := by omega
    · exact ⟨by rwa [Int.add_zero], fun _ => by decide⟩
    · exact ⟨hk', fun _ => by decide⟩

theorem countsThroughout_rows (m : Machine) : CountsThroughout frame host m rows := by
  intro W l₁ m₁ v min extent kind body k hcomes hextent hk
  cases hcomes with
  | self =>
    obtain rfl : 2 = k := Option.some.inj hextent
    exact counts_int32 (k := 5) rfl (by decide) (by decide) rfl
  | enter hb hcomes =>
    obtain rfl : _ = row := List.mem_singleton.mp hb.mem_bodies
    cases hcomes with
    | self =>
      obtain rfl : 2 = k := Option.some.inj hextent
      exact counts_int32 (k := 0) rfl (by decide) (by decide) (Expr.eval_const_int ⟨rfl, rfl⟩ rfl (by decide))
    | enter hb hcomes =>
      obtain rfl : _ = set := List.mem_singleton.mp hb.mem_bodies
      cases hcomes with
      | enter hb => exact absurd hb.mem_bodies List.not_mem_nil

theorem unroll_rows : ¬rows.Symbolic ∧ ∃ t, rows.unroll {} = .ok t ∧
    ∀ m, (t.outcome frame host m).1.toOption = (rows.outcome frame host m).1.toOption ∧
      (t.outcome frame host m).2 = (rows.outcome frame host m).2 := by
  have hlimits : Numeric {} := ⟨⟨_, rfl⟩, ⟨_, rfl⟩, ⟨_, rfl⟩⟩
  have hconst : ¬rows.Symbolic := by
    rintro ⟨t, ht, v, min, extent, body, rfl, hneg⟩
    simp only [stmts_rows, List.mem_cons, List.not_mem_nil, or_false] at ht
    obtain ht | ht | ht := ht <;> cases ht
    exact absurd (hneg 2 rfl) (by decide)
  obtain ⟨t, ht, hruns⟩ := (unroll_cases hlimits unrollable_rows).2 hconst
  exact ⟨hconst, t, ht, fun m => hruns frame host m rfl (by decide) (countsThroughout_rows m)⟩

end Stepped

end Stmt

end TensorNest

import Mathlib.Data.List.Forall2
import TensorNest.Lowering.HostCalls
import TensorNest.Proofs.Bindings
import TensorNest.Proofs.Moments
import TensorNest.Proofs.Prologue

/-! # Allocations in workspaces

Large allocations of a host function become bindings of workspaces, which are given back at the end of their bodies
(`Stmt.Moves`). As long as the number of bytes of each allocation is that of its elements (`Stmt.AllCounted`), a lowered
statement ends as the given one does and has given back all workspaces that it took (`Stmt.Moves.balances`), and in
between it holds those of the bindings that it is inside of (`Stmt.Moves.comes`). -/

namespace TensorNest

/-! ### Lowered expressions -/

namespace Expr

/-- What nothing in an expression is rebuilt by leaves the expression as it is. -/
theorem rebuild_self {f : Expr → Expr} {e : Expr} (h : ∀ a ∈ e.postorder, f a = a) : e.rebuild f = e := by
  have hmap {es : List Expr} (hes : ∀ a ∈ es, a.rebuild f = a) : es.map (·.rebuild f) = es :=
    (List.map_congr_left hes).trans (List.map_id' es)
  have hoption {o : Option Expr} (ho : ∀ a ∈ o, a.rebuild f = a) : o.map (·.rebuild f) = o := by
    cases o with
    | none => rfl
    | some a => exact congrArg some (ho a rfl)
  induction e using induct_parts with
  | step e ih =>
    have hself := h e (self_mem_postorder e)
    replace ih : ∀ a ∈ e.parts, a.rebuild f = a := fun a ha => ih a ha fun b hb => h b (postorder_subset ha hb)
    cases e with
    | call t name args kind func index =>
      have hargs : args.map (·.rebuild f) = args := hmap ih
      rw [rebuild_call, hargs, hself]
    | load t b i p =>
      rw [rebuild_load, ih b (by simp [parts]), ih i (by simp [parts]), hoption fun a ha => ih a (by simp_all [parts]),
        hself]
    | reduce c sources axes cond i =>
      rw [rebuild_reduce, hmap fun a ha => ih a (by simp_all [parts]), hoption fun a ha => ih a (by simp_all [parts]),
        hself]
    | var | const | str => exact hself
    | _ => simp_all [parts]

theorem Unlowered.lowerLaunches {e : Expr} (h : e.Unlowered) : e.lowerLaunches = e := by
  refine rebuild_self (f := lowerLaunch) fun a ha => ?_
  unfold lowerLaunch
  split
  · split
    · rename_i hlaunch
      obtain rfl := beq_iff_eq.mp (Bool.and_eq_true_iff.mp hlaunch).1
      have hname : "xte_call_device" = "xte_call_packed_lowered" := h _ _ _ _ _ _ ha rfl
      exact absurd hname (by decide)
    · rfl
  · rfl

end Expr

theorem Range.map_self {g : Expr → Expr} {r : Range} (h : ∀ e ∈ [r.min, r.extent], g e = e) :
    (⟨g r.min, g r.extent⟩ : Range) = r := by
  obtain ⟨min, extent⟩ := r
  rw [h min (by simp), h extent (by simp)]

/-! ### Lowered statements -/

/-- An expression has a value, whatever the variables and the machine are. -/
def Expr.AlwaysValued (e : Expr) : Prop := ∀ f env, ∃ x, e.eval f env = pure x

namespace Stmt

/-- The number of bytes of an allocation, as a call for a workspace takes it. -/
def byteCount (t : DataType) (extents : List Expr) : Except Error Expr := do
  Expr.castTo ⟨.int, 64, 1⟩ (← allocationBytes t extents)

/-- The call for a workspace with a number of bytes, for elements of a type. -/
def workspaceCall (d : Expr) (t : DataType) (bytes : Expr) : Expr :=
  .intrinsic .handle "xte_alloc_workspace" [d, bytes, .int32 t.code.toNat, .int32 t.bits]

/-- The call that gives back the workspace that a variable is bound to. -/
def freeCall (d : Expr) (v : Var) : Expr :=
  .intrinsic .int32 "xte_free_workspace" [d, .var v]

/-- A statement and what becomes of it when some of its allocations are moved to workspaces. -/
inductive Moves : Stmt → Stmt → Prop
  | kept {s : Stmt} {bs : List Stmt} (h : List.Forall₂ Moves s.bodies bs) : Moves s (s.withBodies bs)
  | moved {site : Nat} {v : Var} {t : DataType} {extents : List Expr} {cond d bytes : Expr} {body body' : Stmt}
      (hd : d.AlwaysValued)
      (hbytes : byteCount t extents = .ok bytes) (h : Moves body body') :
      Moves (allocate site v t extents cond body) (bind v (workspaceCall d t bytes) (ofList [body', eval (freeCall d v)]))

/-- A statement itself can be lowered: an allocation has a number of bytes, and a variable that its body does not bind,
    and a device type that is given is fixed. -/
def OwnHostable : Stmt → Prop
  | allocate _ v t extents _ body =>
    v.id ∉ body.binders ∧ t.bits < 2 ^ 31 ∧ ∃ bytes, byteCount t extents = .ok bytes ∧ bytes.Unlowered
  | attr _ "device_type" value _ => value.AlwaysValued
  | _ => True

/-- A statement can be lowered for the host: it has no calls for workspaces and no launches. -/
def Hostable (s : Stmt) : Prop :=
  ∀ t ∈ s.stmts, t.OwnHostable ∧ ∀ e ∈ t.exprParts, e.Unlowered

variable {s b b' : Stmt}

/-- A statement around a body of which allocations are moved. -/
theorem Moves.around (h : b.Moves b') (hs : s.bodies = [b]) : s.Moves (s.withBodies [b']) := .kept (hs ▸ .cons h .nil)

theorem moves_leaf (hs : s.bodies = []) : s.Moves s := by
  have hbodies : List.Forall₂ Moves s.bodies [] := by
    rw [hs]
    exact .nil
  have hkept : s.Moves (s.withBodies []) := .kept hbodies
  cases s with
  | seq ss =>
    obtain rfl : ss = [] := hs
    exact hkept
  | store | provide | prefetch | eval => exact hkept
  | _ => cases hs

theorem hostable_iff : s.Hostable ↔ (∀ b ∈ s.bodies, b.Hostable) ∧ s.OwnHostable ∧ ∀ e ∈ s.exprParts, e.Unlowered :=
    forall_mem_stmts

theorem Hostable.body (h : s.Hostable) (hb : b ∈ s.bodies) : b.Hostable := (hostable_iff.mp h).1 b hb

/-- A statement is lowered, from a context with a fixed device type, which stays. -/
def LowersForHost (s : Stmt) : Prop :=
  ∀ c : HostContext, c.deviceType.AlwaysValued → ∃ s' c', s.lowerHost.run c = .ok (s', c') ∧
    c'.deviceType = c.deviceType ∧ s.Moves s'

theorem makes_hostAllocate {site : Nat} {v : Var} {t : DataType} {extents : List Expr} {cond : Expr} {body body' : Stmt}
    {c : HostContext} (hc : c.deviceType.AlwaysValued)
    (hs : (allocate site v t extents cond body).OwnHostable) (h : body.Moves body') :
    ∃ s', hostAllocate c site v t extents cond body' = .ok s' ∧ (allocate site v t extents cond body).Moves s' := by
  have hbodies : List.Forall₂ Moves (allocate site v t extents cond body).bodies [body'] := .cons h .nil
  have hkept : (allocate site v t extents cond body).Moves (allocate site v t extents cond body') := .kept hbodies
  obtain ⟨-, -, bytes, hbytes, -⟩ := hs
  obtain ⟨n, hn, hcast⟩ := bind_eq_ok.mp hbytes
  have hworkspace : workspace c.deviceType v t n body' =
      .ok (bind v (workspaceCall c.deviceType t bytes) (ofList [body', eval (freeCall c.deviceType v)])) := by
    unfold workspace
    rw [hcast]
    rfl
  have hmoved : (allocate site v t extents cond body).Moves (bind v (workspaceCall c.deviceType t bytes)
    (ofList [body', eval (freeCall c.deviceType v)])) :=
    .moved hc hbytes h
  unfold hostAllocate
  dsimp only
  split
  · exact ⟨_, rfl, hkept⟩
  rw [hn]
  show ∃ s', Except.bind (.ok n) _ = .ok s' ∧ _
  dsimp only [Except.bind]
  split
  · split
    · exact ⟨_, rfl, hkept⟩
    · exact ⟨_, hworkspace, hmoved⟩
  · exact ⟨_, hworkspace, hmoved⟩

/-- A statement without bodies whose expressions are mapped to themselves. -/
theorem mapExprs_leaf {g : Expr → Expr} (hs : s.bodies = []) (h : ∀ e ∈ s.exprParts, g e = e) : s.mapExprs g = s := by
  have hall {es : List Expr} (hes : ∀ e ∈ es, g e = e) : es.mapM (m := Id) (fun e => pure (g e)) = es := by
    induction es with
    | nil => rfl
    | cons e es ih =>
      obtain ⟨he, hes⟩ := List.forall_mem_cons.mp hes
      rw [List.mapM_cons, he, ih hes]
      rfl
  have hranges {rs : List Range} (hrs : ∀ e ∈ rs.flatMap fun r => [r.min, r.extent], g e = e) :
      rs.mapM (m := Id) (mapRangeM fun e => pure (g e)) = rs := by
    induction rs with
    | nil => rfl
    | cons r rs ih =>
      rw [List.flatMap_cons, List.forall_mem_append] at hrs
      have hr : mapRangeM (m := Id) (fun e => pure (g e)) r = r := Range.map_self hrs.1
      rw [List.mapM_cons, hr, ih hrs.2]
      rfl
  cases s with
  | store buffer value index pred =>
    have hpred : mapGuardM (m := Id) (fun e => pure (g e)) pred = pred := by
      cases pred with
      | none => rfl
      | some p => exact congrArg some (h p (by simp))
    show store (g buffer) (g value) (g index) (mapGuardM (m := Id) (fun e => pure (g e)) pred) = _
    rw [h buffer (by simp), h value (by simp), h index (by simp), hpred]
  | provide op output value args =>
    obtain ⟨hvalue, hargs⟩ := List.forall_mem_cons.mp h
    exact congrArg₂ (provide op output) hvalue (hall hargs)
  | prefetch op output t bounds => exact congrArg (prefetch op output t) (hranges h)
  | eval e => exact congrArg eval (h e (by simp))
  | seq ss =>
    obtain rfl : ss = [] := hs
    rfl
  | _ => cases hs

theorem lowerHost_leaf {c : HostContext} (hs : s.bodies = []) :
    s.lowerHost.run c = .ok (s.mapExprs Expr.lowerLaunches, c) := by
  cases s with
  | seq ss =>
    obtain rfl : ss = [] := hs
    rfl
  | store | provide | prefetch | eval => rfl
  | _ => cases hs

theorem lowers (hs : s.Hostable) : s.LowersForHost := by
  induction s using induct_bodies with
  | step s ih =>
    obtain ⟨hbodies, hself, hexprs⟩ := hostable_iff.mp hs
    replace ih : ∀ b ∈ s.bodies, b.LowersForHost := fun b hb => ih b hb (hbodies b hb)
    have hexpr : ∀ e ∈ s.exprParts, e.lowerLaunches = e := fun e he => (hexprs e he).lowerLaunches
    have hok {α β : Type} (a : α) (g : α → Except Error β) : (Except.ok a >>= g) = g a := rfl
    intro c hc
    cases s with
    | bind v e body =>
      obtain ⟨b', c', hrun, hd, hb'⟩ := ih body (by simp) c hc
      refine ⟨_, c', ?_, hd, hb'.around rfl⟩
      simp [lowerHost, withBodies, hrun, hexpr e (by simp)]
    | attr subject key e body =>
      by_cases hkey : key = "device_type"
      · subst hkey
        obtain ⟨b', c', hrun, hd, hb'⟩ := ih body (by simp) { c with deviceType := e } hself
        refine ⟨_, { c' with deviceType := c.deviceType }, ?_, rfl, hb'.around rfl⟩
        simp [lowerHost, withBodies, hrun, hexpr e (by simp)]
      · obtain ⟨b', c', hrun, hd, hb'⟩ := ih body (by simp) { c with scopes := c.scopes.note subject key e } hc
        refine ⟨_, c', ?_, hd, hb'.around rfl⟩
        simp [lowerHost, withBodies, hrun, hexpr e (by simp), hkey]
    | assert cond message body =>
      obtain ⟨b', c', hrun, hd, hb'⟩ := ih body (by simp) c hc
      refine ⟨_, c', ?_, hd, hb'.around rfl⟩
      simp [lowerHost, withBodies, hrun, hexpr cond (by simp), hexpr message (by simp)]
    | loop v min extent kind body =>
      obtain ⟨b', c', hrun, hd, hb'⟩ := ih body (by simp) c hc
      refine ⟨_, c', ?_, hd, hb'.around rfl⟩
      simp [lowerHost, withBodies, hrun, hexpr min (by simp), hexpr extent (by simp)]
    | allocate site v t extents cond body =>
      obtain ⟨b', c', hrun, hd, hb'⟩ := ih body (by simp) c hc
      obtain ⟨s', hs', hmoves⟩ := makes_hostAllocate (c := c') (hd ▸ hc) hself hb'
      refine ⟨s', c', ?_, hd, hmoves⟩
      simp [lowerHost, hrun, hok, hs']
    | realize op output t bounds cond body =>
      obtain ⟨b', c', hrun, hd, hb'⟩ := ih body (by simp) c hc
      have hbounds : bounds.map (fun r => (⟨r.min.lowerLaunches, r.extent.lowerLaunches⟩ : Range)) = bounds := by
        refine (List.map_congr_left fun r hr => Range.map_self fun e he => ?_).trans (List.map_id bounds)
        exact hexpr e (List.mem_append_left _ (List.mem_flatMap.mpr ⟨r, hr, he⟩))
      refine ⟨_, c', ?_, hd, hb'.around rfl⟩
      simp [lowerHost, withBodies, hrun, hbounds, hexpr cond (by simp)]
    | seq ss =>
      have hall : ∀ ts ⊆ ss, ∀ c : HostContext, c.deviceType.AlwaysValued →
          ∃ ts' c', (lowerHost.onList ts).run c = .ok (ts', c') ∧ c'.deviceType = c.deviceType ∧
            List.Forall₂ Moves ts ts' := by
        intro ts hts
        induction ts with
        | nil => exact fun c _ => ⟨[], c, rfl, rfl, .nil⟩
        | cons t ts iht =>
          intro c hc
          obtain ⟨ht, hts⟩ := List.cons_subset.mp hts
          obtain ⟨t', c₁, hrun, hd, ht'⟩ := ih t ht c hc
          obtain ⟨ts', c₂, hrun', hd', hts'⟩ := iht hts c₁ (hd ▸ hc)
          refine ⟨t' :: ts', c₂, ?_, hd'.trans hd, .cons ht' hts'⟩
          simp [lowerHost.onList, hrun, hok, hrun']
      obtain ⟨ss', c', hrun, hd, hss'⟩ := hall ss (List.Subset.refl ss) c hc
      refine ⟨_, c', ?_, hd, .kept hss'⟩
      simp [lowerHost, withBodies, hrun]
    | branch cond onTrue onFalse =>
      obtain ⟨b', c₁, hrun, hd, hb'⟩ := ih onTrue (by simp) c hc
      cases onFalse with
      | none =>
        refine ⟨_, c₁, ?_, hd, hb'.around rfl⟩
        simp [lowerHost, withBodies, hrun, hexpr cond (by simp)]
      | some onFalse =>
        obtain ⟨b'', c₂, hrun', hd', hb''⟩ := ih onFalse (by simp) c₁ (hd ▸ hc)
        refine ⟨_, c₂, ?_, hd'.trans hd, .kept (.cons hb' (.cons hb'' .nil))⟩
        simp [lowerHost, withBodies, hrun, hok, hrun', hexpr cond (by simp)]
    | _ =>
      refine ⟨_, c, ?_, rfl, moves_leaf rfl⟩
      rw [lowerHost_leaf rfl, mapExprs_leaf rfl hexpr]

/-! ### Workspaces that are bound -/

section Calls
open Thread

variable {f : Frame} {env : Env} {d bytes : Expr} {t : DataType} {v : Var} {site : Nat} {a : View} {l : Local} {m : Machine}

/-- Adds a workspace of a number of elements. -/
def newWorkspace (t : DataType) (n : Int) : Run Value := do
  let e ← t.elemType
  if n < 0 then throw .negativeLength
  let a ← onMemory fun m => m.addZeros e n.toNat
  modify fun s => { s with workspaces := a.storage :: s.workspaces }
  return .array a

theorem eval_int32 {n : Int} (h : (ElemType.int 32).holds n) : (Expr.int32 n).eval f env = pure (.int32 n) := by
  funext m
  have hsettles : Run.Settles ((Expr.int32 n).eval f env) m _ := settles_const QueryType.int32 n
  rw [if_pos h] at hsettles
  exact hsettles m (.refl m)

theorem allocate_eq (t : DataType) (x : Value) :
    Frame.allocate x (.int32 t.code.toNat) (.int32 t.bits) =
      ((get : Run Machine) >>= fun m => (liftM (x.toInt m.memory) : Run Int) >>= fun n =>
        newWorkspace t.element (Int.fdiv n t.bytes)) := by
  have hcode : (if (0 : Int) ≤ t.code.toNat then TypeCode.ofNat? (t.code.toNat : Int).toNat else none) = some t.code := by
    cases t.code <;> rfl
  have hread (n : Int) (m : Memory) : (Value.int32 n).toInt m = .ok n := rfl
  have hlift {α : Type} (a : α) : (liftM (Except.ok a : Except Error α) : Run α) = pure a := rfl
  funext m
  unfold Frame.allocate newWorkspace
  simp only [hread, hcode, hlift, pure_bind]
  rfl

theorem eval_workspaceCall (hd : d.AlwaysValued) (ht : t.bits < 2 ^ 31) :
    (workspaceCall d t bytes).eval f env = (count f env bytes >>= fun n =>
      newWorkspace t.element (Int.fdiv n t.bytes)) := by
  obtain ⟨x, hx⟩ := hd f env
  have hcode : (Expr.int32 t.code.toNat).eval f env = pure (.int32 t.code.toNat) := eval_int32 (by cases t.code <;> decide)
  have hbits : (Expr.int32 t.bits).eval f env = pure (.int32 t.bits) := eval_int32 (holds_int32 ht)
  rw [workspaceCall, eval_intrinsic (i := .allocWorkspace) rfl]
  simp only [Expr.eval.evalAll, hx, hcode, hbits, pure_bind, bind_assoc, count]
  exact congrArg (Expr.eval f env bytes >>= ·) (funext (allocate_eq t))

theorem ends_workspaceCall (hd : d.AlwaysValued) (ht : t.bits < 2 ^ 31) (l : Local) (m : Machine) :
    (value f (workspaceCall d t bytes)).ends l m =
      (integer f bytes >>= fun n => ofRun (newWorkspace t.element (Int.fdiv n t.bytes))).ends l m := by
  have hvalue : (value f (workspaceCall d t bytes)).ends l m =
    (ofRun ((workspaceCall d t bytes).eval f l.env)).ends l m := rfl
  have hinteger : (integer f bytes).ends l m = (ofRun (count f l.env bytes)).ends l m :=
    congrArg Resumption.finish (start_integer_eq bytes)
  rw [hvalue, eval_workspaceCall hd ht, ends_bind, hinteger, ends_ofRun, ends_ofRun, Run.on_bind]
  rcases Run.on (count f l.env bytes) m with ⟨_ | n, m'⟩ <;> rfl

/-- The last workspace is given back by its variable. -/
theorem ends_freeCall (hd : d.AlwaysValued) (hv : l.env.get? v = some (.array a)) (w : List Nat) :
    ((eval (freeCall d v)).exec f).ends l (m.holding (a.storage :: w)) = ((.ok (), l), m.holding w) := by
  obtain ⟨x, hx⟩ := hd f l.env
  have hfree : Run.on (f.free (.array a)) (m.holding (a.storage :: w)) = (.ok (.number (.int 0)), m.holding w) := by
    have hheld : (a.storage :: w).contains a.storage = true := by simp
    have hgiven : (a.storage :: w).erase a.storage = w := List.erase_cons_head ..
    have hget (k : Machine → Run Value) (m : Machine) : Run.on (get >>= k) m = Run.on (k m) m := rfl
    unfold Frame.free
    rw [hget, Machine.holding_workspaces, if_pos hheld]
    exact congrArg (fun w => (Except.ok (Value.number (.int 0)), m.holding w)) hgiven
  have hvar : (Expr.var v).eval f l.env = pure (.array a) := by
    unfold Expr.eval
    rw [hv]
  have hcall : (freeCall d v).eval f l.env = f.free (.array a) := by
    rw [freeCall, eval_intrinsic (i := .freeWorkspace) rfl]
    simp only [Expr.eval.evalAll, hx, hvar, pure_bind]
    rfl
  have hexec : (eval (freeCall d v)).exec f = value f (freeCall d v) >>= fun _ => pure () := by
    unfold exec
    rfl
  have hvalue : (value f (freeCall d v)).ends l (m.holding (a.storage :: w)) =
    ((.ok (.number (.int 0)), l), m.holding w) := by
    have hrun : (value f (freeCall d v)).ends l (m.holding (a.storage :: w)) =
        (ofRun ((freeCall d v).eval f l.env)).ends l (m.holding (a.storage :: w)) := rfl
    rw [hrun, hcall, ends_ofRun, hfree]
  rw [hexec, ends_bind, hvalue]
  rfl

/-- The array of an allocation. -/
def allocated (f : Frame) (s : Stmt) (v : Var) (t : DataType) (extents : List Expr) : Thread View := do
  let size ← product f t.lanes extents
  let e ← t.element.elemType
  if size < 0 then throw .negativeLength else buffer f s v e size.toNat

/-- The array of a workspace. -/
def acquired (f : Frame) (e : Expr) : Thread Value := do
  let x ← value f e
  ofRun (place x)

variable {extents : List Expr} {cond : Expr} {body body' : Stmt} {l' : Local} {m' : Machine}

theorem exec_allocate_eq (f : Frame) (site : Nat) (v : Var) (t : DataType) (extents : List Expr) (cond : Expr)
    (body : Stmt) :
    (allocate site v t extents cond body).exec f =
      allocated f (allocate site v t extents cond body) v t extents >>= fun a =>
      Thread.bind v (.array a) >>= fun _ => ensuring (body.exec f) (unbind v) := by
  rw [exec, allocated]
  simp only [bind_assoc]
  refine congrArg _ (funext fun size => congrArg _ (funext fun e => ?_))
  split <;> rfl

theorem exec_bind_eq (f : Frame) (v : Var) (e : Expr) (body : Stmt) :
    (bind v e body).exec f = acquired f e >>= fun x => Thread.bind v x >>= fun _ => ensuring (body.exec f) (release v) := by
  rw [exec, acquired]
  simp only [bind_assoc]

/-- The allocation has the number of elements that its number of bytes gives. -/
def Counted (f : Frame) (l : Local) (m : Machine) : Stmt → Prop
  | allocate _ _ t extents _ _ => ∀ bytes, byteCount t extents = .ok bytes →
      (integer f bytes).ends l m = (product f t.lanes extents >>= fun n => pure (t.bytes * n)).ends l m
  | _ => True

theorem begins_allocate (h : (allocated f (allocate site v t extents cond body) v t extents).ends l m = ((.ok a, l'), m')) :
    Begins f l m (allocate site v t extents cond body) body { l' with env := l'.env.set v (.array a) } m' := by
  obtain ⟨size, l₁, m₁, hsize, h⟩ := ends_bind_ok h
  obtain ⟨e, l₂, m₂, he, h⟩ := ends_bind_ok h
  rw [ends_lift] at he
  obtain ⟨hlocal, rfl⟩ := Prod.mk.inj he
  obtain ⟨helem, rfl⟩ := Prod.mk.inj hlocal
  split at h
  · cases h
  · exact .allocate hsize helem (Int.not_lt.mp ‹_›) h

theorem on_newWorkspace {e : ElemType} (he : t.elemType = .ok e) (n : Int) (m : Machine) :
    Run.on (newWorkspace t n) m =
      if n < 0 then (.error .negativeLength, m)
      else
        let (memory, a) := m.memory.addZeros e n.toNat
        (.ok (.array a), { m with memory, workspaces := a.storage :: m.workspaces }) := by
  unfold newWorkspace
  rw [he]
  split <;> rfl

/-- A workspace is acquired as the array is allocated that it replaces. -/
theorem ends_acquired (hhost : f.coords = none) (hd : d.AlwaysValued) (ht : t.bits < 2 ^ 31)
    (hextents : ∀ e ∈ extents, e.Unlowered)
    (hbytes : byteCount t extents = .ok bytes) (hunlowered : bytes.Unlowered)
    (hcounted : (allocate site v t extents cond body).Counted f l m) (s : Stmt) (w : List Nat) :
    (acquired f (workspaceCall d t bytes)).ends l (m.holding w) =
      match (allocated f s v t extents).ends l m with
      | ((.ok a, l'), m') => ((.ok (.array a), l'), m'.holding (a.storage :: w))
      | ((.error e, l'), m') => ((.error e, l'), m'.holding w) := by
  have hsize : (integer f bytes).ends l (m.holding w) =
    (product f t.lanes extents >>= fun n => pure (t.bytes * n)).ends l (m.holding w) := by
    rw [spares_integer hunlowered, hcounted bytes hbytes, ((spares_product hextents _).bind fun n => spares_pure _)]
  have hcount (n : Int) : Int.fdiv (t.bytes * n) t.bytes = n := by
    have hbytes : (0 : Int) < t.bytes := Int.natCast_pos.mpr (Nat.lt_of_lt_of_le Nat.one_pos (Nat.le_max_left ..))
    rw [Int.fdiv_eq_ediv_of_nonneg _ hbytes.le, Int.mul_ediv_cancel_left _ hbytes.ne']
  unfold acquired allocated
  rw [ends_bind, ends_workspaceCall hd ht, ends_bind, hsize, ends_bind, ends_bind, spares_product hextents]
  rcases (product f t.lanes extents).ends l m with ⟨⟨_ | n, l₁⟩, m₁⟩
  · rfl
  have hpure : (pure (t.bytes * n) : Thread Int).ends l₁ (m₁.holding w) = ((.ok (t.bytes * n), l₁), m₁.holding w) := rfl
  dsimp only
  rw [hpure]
  dsimp only
  rw [hcount, ends_bind, ends_lift]
  rcases he : t.element.elemType with _ | e
  · unfold newWorkspace
    rw [he]
    rfl
  dsimp only
  rw [ends_ofRun, on_newWorkspace he]
  by_cases hn : n < 0
  · rw [if_pos hn, if_pos hn]
    rfl
  · rw [if_neg hn, if_neg hn, ends_buffer hhost]
    rfl

/-- At the end of a statement that does not bind a variable, that has its value. -/
theorem bound_at_end (hv : v.id ∉ body.binders) (ha : l.env.get? v = some (.array a)) :
    ((body.exec f).ends l m).1.2.env.get? v = some (.array a) := by
  rcases (keeps_exec f body l m).finish v.id List.not_mem_nil with heq | ⟨hmem, -⟩
  · exact heq.trans ha
  · exact absurd hmem hv

/-- A body in the scope of a variable is balanced if a workspace is given back at its end. -/
theorem ends_closed (hd : d.AlwaysValued) (hv : v.id ∉ body.binders) (ha : l.env.get? v = some (.array a))
    (hbody : Balances l m (body.exec f) (body'.exec f)) (w : List Nat) :
    ∃ u, (ensuring ((ofList [body', eval (freeCall d v)]).exec f) (release v)).ends l (m.holding (a.storage :: w)) =
      (((ensuring (body.exec f) (unbind v)).ends l m).1,
        ((ensuring (body.exec f) (unbind v)).ends l m).2.holding (u ++ w)) ∧
      (((ensuring (body.exec f) (unbind v)).ends l m).1.1.isOk → u = []) := by
  have hkept := bound_at_end (f := f) (m := m) hv ha
  have hrelease (l₁ : Local) (h : l₁.env.get? v = some (.array a)) (m₁ : Machine) :
      (release v).ends l₁ m₁ = (unbind v).ends l₁ m₁ := by
    have hget {k : Local → Thread Unit} : ((get : Thread Local) >>= k).ends l₁ m₁ = (k l₁).ends l₁ m₁ := rfl
    rw [release, hget, h]
  obtain ⟨u, hends, hok⟩ := hbody (a.storage :: w)
  rw [exec_then_eval, ends_ensuring, ends_ensuring, ends_bind, hends]
  generalize (body.exec f).ends l m = r at hkept hok
  rcases r with ⟨⟨e | _, l₁⟩, m₁⟩
  · -- After a failure the workspace is not given back.
    dsimp only
    rw [hrelease l₁ hkept]
    exact ⟨u ++ [a.storage], by rw [List.append_assoc]; rfl, fun h => by cases h⟩
  · obtain rfl := hok rfl
    dsimp only
    rw [List.nil_append, ends_freeCall hd hkept, hrelease l₁ hkept]
    exact ⟨[], rfl, fun _ => rfl⟩

theorem balances_moved (hhost : f.coords = none) (hd : d.AlwaysValued)
    (hself : (allocate site v t extents cond body).OwnHostable)
    (hextents : ∀ e ∈ extents, e.Unlowered) (hbytes : byteCount t extents = .ok bytes)
    (hcounted : (allocate site v t extents cond body).Counted f l m)
    (hbody : ∀ l' m', Begins f l m (allocate site v t extents cond body) body l' m' →
      Balances l' m' (body.exec f) (body'.exec f)) :
    Balances l m ((allocate site v t extents cond body).exec f)
      ((bind v (workspaceCall d t bytes) (ofList [body', eval (freeCall d v)])).exec f) := by
  obtain ⟨hv, hbits, bytes', hbytes', hunlowered⟩ := hself
  obtain rfl : bytes' = bytes := Except.ok.inj (hbytes'.symm.trans hbytes)
  intro w
  rw [exec_allocate_eq, exec_bind_eq, ends_bind, ends_bind,
    ends_acquired hhost hd hbits hextents hbytes hunlowered hcounted]
  rcases hallocated : (allocated f (allocate site v t extents cond body) v t extents).ends l m with ⟨⟨e | a, l₁⟩, m₁⟩
  · exact ⟨[], rfl, fun _ => rfl⟩
  · have hset : (l₁.env.set v (.array a)).get? v = some (.array a) := Env.lookup_set_self
    have hbalances := hbody _ _ (begins_allocate hallocated)
    exact ends_closed hd hv hset hbalances w

variable {bs : List Stmt}

theorem spares_leaf (hs : s.bodies = []) (hexprs : ∀ e ∈ s.exprParts, e.Unlowered) : Thread.Spares (s.exec f) := by
  cases s with
  | store buffer value index pred =>
    rw [exec]
    refine spares_get fun l => (spares_lift _).bind fun a => (spares_value (hexprs _ (by simp))).bind fun i =>
      (spares_value (hexprs _ (by simp))).bind fun x => ?_
    cases pred with
    | none => exact spares_ofRun (Run.spares_storeTo f buffer a i x none)
    | some p =>
      exact (spares_value (hexprs _ (by simp))).bind fun mask =>
        spares_ofRun (Run.spares_storeTo f buffer a i x (some mask))
  | eval e =>
    rw [exec]
    split
    · exact spares_await
    · exact (spares_value (hexprs e (by simp))).bind fun _ => spares_pure _
  | provide | prefetch =>
    rw [exec]
    exact spares_throw _
  | seq ss =>
    obtain rfl : ss = [] := hs
    exact spares_pure ()
  | _ => cases hs

theorem balances_execAll (ss ts : List Stmt) {us us' : List Stmt} {l₀ : Local} {m₀ : Machine}
    (hss : (exec.execAll f ss).ends l₀ m₀ = ((.ok (), l), m))
    (h : List.Forall₂ (fun b b' => ∀ l' m', Begins f l₀ m₀ (seq (ss ++ us ++ ts)) b l' m' →
      Balances l' m' (b.exec f) (b'.exec f)) us us') :
    Balances l m (exec.execAll f us) (exec.execAll f us') := by
  generalize hall : ss ++ us ++ ts = all at h
  induction h generalizing ss l m with
  | nil => exact (spares_pure ()).balances
  | @cons b b' us us' hb _ ih =>
    rw [exec.execAll, exec.execAll]
    have hbegins : Begins f l₀ m₀ (seq all) b l m := by
      rw [← hall, List.append_assoc]
      exact .seq hss
    refine Balances.bind (hb l m hbegins) fun _ l₁ m₁ hend => ?_
    have hnext : (exec.execAll f (ss ++ [b])).ends l₀ m₀ = ((.ok (), l₁), m₁) := by
      rw [execAll_append, ends_bind, hss]
      dsimp only
      rw [exec.execAll, ends_bind, hend]
      rfl
    exact ih (ss ++ [b]) hnext (by simpa using hall)

theorem balances_turns {first extent : Expr} {kind : LoopKind} {start count : Int} {l₁ l₂ : Local} {m₁ m₂ : Machine}
    (hstart : (integer f first).ends l m = ((.ok start, l₁), m₁))
    (hcount : (integer f extent).ends l₁ m₁ = ((.ok count, l₂), m₂))
    (hbody : ∀ l' m', Begins f l m (loop v first extent kind body) body l' m' → Balances l' m' (body.exec f) (body'.exec f))
    {k : Nat} (hk : k ≤ count.toNat) :
    Balances l₂ m₂ (forRange (turn f v body) start k) (forRange (turn f v body') start k) := by
  refine Balances.forRange fun i hi l₃ m₃ hturns => ?_
  exact (spares_index v _).balances.bind fun a l₄ m₄ ha => fun w =>
    hbody _ _ (.turn hstart hcount (Nat.lt_of_lt_of_le hi hk) hturns ha) w

theorem balances_scope {x : Value} {last : Thread Unit} (hlast : Thread.Spares last)
    (hbody : Balances { l with env := l.env.set v x } m (body.exec f) (body'.exec f)) :
    Balances l m (Thread.bind v x >>= fun _ => ensuring (body.exec f) last)
      (Thread.bind v x >>= fun _ => ensuring (body'.exec f) last) :=
  fun w => hbody.ensuring hlast w

/-- On the host an allocation does not depend on what it is the allocation of. -/
theorem ends_allocated (hhost : f.coords = none) (s s' : Stmt) (v : Var) (t : DataType) (extents : List Expr) (l : Local)
    (m : Machine) :
    (allocated f s v t extents).ends l m = (allocated f s' v t extents).ends l m := by
  unfold allocated
  rw [ends_bind, ends_bind]
  rcases (product f t.lanes extents).ends l m with ⟨⟨_ | size, l₁⟩, m₁⟩
  · rfl
  dsimp only
  rw [ends_bind, ends_bind, ends_lift]
  rcases t.element.elemType with _ | e
  · rfl
  dsimp only
  split
  · rfl
  · rw [ends_buffer hhost, ends_buffer hhost]

theorem spares_allocated (hhost : f.coords = none) (hextents : ∀ e ∈ extents, e.Unlowered) (s : Stmt) (v : Var)
    (t : DataType) :
    Thread.Spares (allocated f s v t extents) := by
  refine (spares_product hextents _).bind fun size => (spares_lift _).bind fun e => ?_
  split
  · exact spares_throw _
  · exact spares_buffer hhost s v e _

/-- On the host an attribute gives a scope, or it is only executed around its body, or it fails. -/
theorem exec_attr_cases (hhost : f.coords = none) (subject : Subject) (key : String) (e : Expr) :
    (∃ v, subject = .var v ∧ key = "storage_scope") ∨
    (key ≠ "thread_extent" ∧ (∀ v, subject = .var v → key ≠ "storage_scope") ∧
      ∀ b, (attr subject key e b).exec f = b.exec f) ∨
    (∃ error, ∀ b, (attr subject key e b).exec f = throw error) := by
  by_cases hregion : key = "thread_extent"
  · subst hregion
    refine .inr (.inr ?_)
    cases subject with
    | axis iv =>
      have hc : coordinate f iv = .error (f.failure ("thread region " ++ iv.tag ++ " outside of a device")) := by
        rw [coordinate, hhost]
      refine ⟨f.failure ("thread region " ++ iv.tag ++ " outside of a device"), fun b => ?_⟩
      rw [exec, hc]
      rfl
    | _ => exact ⟨.invalidOperand, fun _ => by simp [exec]⟩
  by_cases hscope : key = "storage_scope"
  · subst hscope
    cases subject with
    | var v => exact .inl ⟨v, rfl, rfl⟩
    | _ => exact .inr (.inl ⟨by decide, by simp, fun _ => by simp [exec]⟩)
  · refine .inr (.inl ⟨hregion, fun _ _ => hscope, fun b => ?_⟩)
    cases subject <;> simp only [exec, beq_iff_eq, hregion, hscope, if_false]

/-- A statement is balanced if its bodies are, whenever they begin. -/
theorem balances_kept (hhost : f.coords = none) (hexprs : ∀ e ∈ s.exprParts, e.Unlowered)
    (h : List.Forall₂ (fun b b' => ∀ l' m', Begins f l m s b l' m' → Balances l' m' (b.exec f) (b'.exec f)) s.bodies bs) :
    Balances l m (s.exec f) ((s.withBodies bs).exec f) := by
  have hbind {α : Type} {x : Thread α} {k k' : α → Thread Unit} (hx : Thread.Spares x)
      (hk : ∀ a l' m', x.ends l m = ((.ok a, l'), m') → Balances l' m' (k a) (k' a)) : Balances l m (x >>= k) (x >>= k') :=
    hx.balances.bind hk
  cases s with
  | bind v e body =>
    obtain _ | ⟨hbody, ⟨⟩⟩ := h
    simp only [withBodies]
    rw [exec, exec]
    refine hbind (spares_value (hexprs e (by simp))) fun x l₁ m₁ hx => ?_
    refine (spares_ofRun (Run.compositional_spares.of_place x)).balances.bind fun a l₂ m₂ ha => ?_
    exact balances_scope (spares_release v) (hbody _ _ (.bind hx ha))
  | attr subject key e body =>
    obtain _ | ⟨hbody, ⟨⟩⟩ := h
    rcases exec_attr_cases hhost subject key e with ⟨v, rfl, rfl⟩ | ⟨hregion, hscope, hexec⟩ | ⟨error, hexec⟩
    · exact fun w => hbody _ _ .scope w
    · simp only [withBodies, hexec]
      exact hbody _ _ (.attr hregion hscope)
    · simp only [withBodies, hexec]
      exact (spares_throw error).balances
  | assert cond message body =>
    obtain _ | ⟨hbody, ⟨⟩⟩ := h
    simp only [withBodies]
    rw [exec, exec]
    refine hbind (spares_holds (hexprs cond (by simp))) fun p l₁ m₁ hp => ?_
    cases p with
    | true => exact hbody _ _ (.assert hp)
    | false =>
      refine Spares.balances ((spares_value (hexprs message (by simp))).bind fun x => spares_ofRun ?_)
      exact Run.spares_get (fun _ => Run.compositional_spares.failure _) fun _ _ h => by rw [h]
  | loop v first extent kind body =>
    obtain _ | ⟨hbody, ⟨⟩⟩ := h
    simp only [withBodies]
    rw [exec, exec]
    refine hbind (spares_integer (hexprs first (by simp))) fun start l₁ m₁ hstart => ?_
    refine (spares_integer (hexprs extent (by simp))).balances.bind fun count l₂ m₂ hcount => ?_
    exact (balances_turns hstart hcount hbody (Nat.le_refl _)).ensuring (spares_unbind v)
  | allocate site v t extents cond body =>
    obtain _ | ⟨hbody, ⟨⟩⟩ := h
    simp only [withBodies]
    rw [exec_allocate_eq, exec_allocate_eq]
    have hextents : ∀ e ∈ extents, e.Unlowered := fun e he => hexprs e (by simp [he])
    intro w
    rw [ends_bind, ends_bind, spares_allocated hhost hextents,
      ends_allocated hhost (allocate site v t extents cond _) (allocate site v t extents cond body)]
    rcases hallocated : (allocated f (allocate site v t extents cond body) v t extents).ends l m with ⟨⟨e | a, l₁⟩, m₁⟩
    · exact ⟨[], rfl, fun _ => rfl⟩
    · exact balances_scope (spares_unbind v) (hbody _ _ (begins_allocate hallocated)) w
  | seq ss =>
    simp only [withBodies, exec]
    exact balances_execAll [] [] rfl (by rwa [List.append_nil])
  | branch cond onTrue onFalse =>
    cases onFalse with
    | none =>
      obtain _ | ⟨hbody, ⟨⟩⟩ := h
      simp only [withBodies]
      rw [exec, exec]
      refine hbind (spares_holds (hexprs cond (by simp))) fun p l₁ m₁ hp => ?_
      cases p with
      | true => exact hbody _ _ (.onTrue hp)
      | false => exact (spares_pure ()).balances
    | some onFalse =>
      obtain _ | ⟨hbody, _ | ⟨hbody', ⟨⟩⟩⟩ := h
      simp only [withBodies]
      rw [exec, exec]
      refine hbind (spares_holds (hexprs cond (by simp))) fun p l₁ m₁ hp => ?_
      cases p with
      | true => exact hbody _ _ (.onTrue hp)
      | false => exact hbody' _ _ (.onFalse hp)
  | realize =>
    obtain _ | ⟨hbody, ⟨⟩⟩ := h
    simp only [withBodies]
    rw [exec, exec]
    exact (spares_throw _).balances
  | _ => exact (spares_leaf rfl hexprs).balances

end Calls

/-! ### Runs with workspaces -/

section Runs
open Thread

variable {f : Frame} {l l' : Local} {m m' : Machine} {s' t' : Stmt} {W w : List Nat}

/-- Wherever a run of a statement comes to an allocation, that has the number of elements that its number of bytes gives. -/
def AllCounted (f : Frame) (l : Local) (m : Machine) (s : Stmt) : Prop :=
  ∀ W t l' m', Comes f l m s W t l' m' → t.Counted f l' m'

theorem AllCounted.body (h : s.AllCounted f l m) (hb : Begins f l m s b l' m') : b.AllCounted f l' m' :=
  fun _ _ _ _ hcomes => h _ _ _ _ (.enter hb hcomes)

theorem Moves.balances (hhost : f.coords = none) (h : s.Moves s') (hs : s.Hostable) (hcounted : s.AllCounted f l m) :
    Balances l m (s.exec f) (s'.exec f) := by
  induction s using induct_bodies generalizing s' l m with
  | step s ih =>
    -- A body is balanced in the states that it begins in; in others its allocations may not be counted.
    have hbody : ∀ b ∈ s.bodies, ∀ b', b.Moves b' → ∀ l' m', Begins f l m s b l' m' →
      Balances l' m' (b.exec f) (b'.exec f) :=
      fun b hb b' hmoves l' m' hbegins => ih b hb hmoves (hs.body hb) (hcounted.body hbegins)
    obtain ⟨-, hself, hexprs⟩ := hostable_iff.mp hs
    cases h with
    | kept h =>
      have hall := (List.forall₂_and_left _ _).mpr ⟨fun b hb => hb, h⟩
      exact balances_kept hhost hexprs (hall.imp fun b b' hb => hbody b hb.1 b' hb.2)
    | moved hd hbytes h =>
      exact balances_moved hhost hd hself (fun e he => hexprs e (by simp [he])) hbytes (hcounted _ _ _ _ .self)
        (hbody _ (by simp) _ h)

/-- With more workspaces a statement begins the bodies that take the place of those that it begins without them. -/
theorem begins_kept {bs : List Stmt} {b' : Stmt} {P : Stmt → Stmt → Prop} (hhost : f.coords = none)
    (hexprs : ∀ e ∈ s.exprParts, e.Unlowered)
    (h : List.Forall₂ (fun b b' => P b b' ∧ ∀ l' m', Begins f l m s b l' m' →
      Balances l' m' (b.exec f) (b'.exec f)) s.bodies bs)
    (hb : Begins f l (m.holding w) (s.withBodies bs) b' l' m') :
    ∃ b m₀, Begins f l m s b l' m₀ ∧ m' = m₀.holding w ∧ P b b' := by
  cases s with
  | bind v e body =>
    obtain _ | ⟨⟨hP, -⟩, ⟨⟩⟩ := h
    cases hb with | bind hx ha
    obtain ⟨m₁, rfl, hx'⟩ := (spares_value (hexprs e (by simp))).balances.ends_ok hx
    obtain ⟨m₂, rfl, ha'⟩ := (spares_ofRun (Run.compositional_spares.of_place _)).balances.ends_ok ha
    exact ⟨body, m₂, .bind hx' ha', rfl, hP⟩
  | attr subject key e body =>
    obtain _ | ⟨⟨hP, -⟩, ⟨⟩⟩ := h
    cases hb with
    | scope => exact ⟨body, m, .scope, rfl, hP⟩
    | attr hregion hscope => exact ⟨body, m, .attr hregion hscope, rfl, hP⟩
    | region hc =>
      rw [coordinate, hhost] at hc
      cases hc
  | assert cond message body =>
    obtain _ | ⟨⟨hP, -⟩, ⟨⟩⟩ := h
    cases hb with | assert hp
    obtain ⟨m₁, rfl, hp'⟩ := (spares_holds (hexprs cond (by simp))).balances.ends_ok hp
    exact ⟨body, m₁, .assert hp', rfl, hP⟩
  | loop v first extent kind body =>
    obtain _ | ⟨⟨hP, hbody⟩, ⟨⟩⟩ := h
    cases hb with | turn hstart hcount hk hturns ha
    obtain ⟨m₁, rfl, hstart'⟩ := (spares_integer (hexprs first (by simp))).balances.ends_ok hstart
    obtain ⟨m₂, rfl, hcount'⟩ := (spares_integer (hexprs extent (by simp))).balances.ends_ok hcount
    obtain ⟨m₃, rfl, hturns'⟩ := (balances_turns hstart' hcount' hbody hk.le).ends_ok hturns
    obtain ⟨m₄, rfl, ha'⟩ := (spares_index v _).balances.ends_ok ha
    exact ⟨body, m₄, .turn hstart' hcount' hk hturns' ha', rfl, hP⟩
  | allocate site v t extents cond body =>
    obtain _ | ⟨⟨hP, -⟩, ⟨⟩⟩ := h
    cases hb with | allocate hsize he hsign ha
    obtain ⟨m₁, rfl, hsize'⟩ := (spares_product (fun e he => hexprs e (by simp [he])) _).balances.ends_ok hsize
    obtain ⟨m₂, rfl, ha'⟩ := (spares_buffer hhost _ _ _ _).balances.ends_ok ha
    rw [ends_buffer hhost, ← ends_buffer hhost (allocate site v t extents cond body)] at ha'
    exact ⟨body, m₂, .allocate hsize' he hsign ha', rfl, hP⟩
  | seq ss =>
    cases hb with | @seq us' ts' _ _ _ hus'
    change List.Forall₂ _ ss _ at h
    have hbefore := List.forall₂_take_append _ _ _ h
    have hrest := List.forall₂_drop_append _ _ _ h
    generalize hdrop : ss.drop us'.length = us at hrest
    cases hrest with | @cons b _ ts _ hb
    obtain ⟨hP, -⟩ := hb
    have hss : ss.take us'.length ++ b :: ts = ss := by rw [← hdrop, List.take_append_drop]
    have hbalances : Balances l m (exec.execAll f (ss.take us'.length)) (exec.execAll f us') := by
      refine balances_execAll [] (b :: ts) rfl (hbefore.imp fun b b' hb => ?_)
      rw [List.nil_append, hss]
      exact hb.2
    obtain ⟨m₁, rfl, hus⟩ := hbalances.ends_ok hus'
    exact ⟨b, m₁, by rw [← hss]; exact .seq hus, rfl, hP⟩
  | branch cond onTrue onFalse =>
    have hholds : Thread.Spares (holds f cond) := spares_holds (hexprs cond (by simp))
    cases onFalse with
    | none =>
      obtain _ | ⟨⟨hP, -⟩, ⟨⟩⟩ := h
      cases hb with | onTrue hp
      obtain ⟨m₁, rfl, hp'⟩ := hholds.balances.ends_ok hp
      exact ⟨onTrue, m₁, .onTrue hp', rfl, hP⟩
    | some onFalse =>
      obtain _ | ⟨⟨hP, -⟩, _ | ⟨⟨hP', -⟩, ⟨⟩⟩⟩ := h
      cases hb with
      | onTrue hp =>
        obtain ⟨m₁, rfl, hp'⟩ := hholds.balances.ends_ok hp
        exact ⟨onTrue, m₁, .onTrue hp', rfl, hP⟩
      | onFalse hp =>
        obtain ⟨m₁, rfl, hp'⟩ := hholds.balances.ends_ok hp
        exact ⟨onFalse, m₁, .onFalse hp', rfl, hP'⟩
  | realize =>
    obtain _ | ⟨-, ⟨⟩⟩ := h
    cases hb
  | _ =>
    cases h
    cases hb

/-- A binding that takes the place of an allocation begins its body as the allocation does, with one more workspace. -/
theorem begins_moved {site : Nat} {v : Var} {t : DataType} {extents : List Expr} {cond d bytes : Expr}
    {body outer b' : Stmt} (hhost : f.coords = none)
    (hd : d.AlwaysValued) (hself : (allocate site v t extents cond body).OwnHostable)
    (hextents : ∀ e ∈ extents, e.Unlowered)
    (hbytes : byteCount t extents = .ok bytes) (hcounted : (allocate site v t extents cond body).Counted f l m)
    (hb : Begins f l (m.holding w) (bind v (workspaceCall d t bytes) outer) b' l' m') :
    b' = outer ∧ ∃ a m₀, l'.env.get? v = some (.array a) ∧ m' = m₀.holding (a.storage :: w) ∧
      Begins f l m (allocate site v t extents cond body) body l' m₀ := by
  obtain ⟨-, hbits, bytes', hbytes', hunlowered⟩ := hself
  obtain rfl : bytes' = bytes := Except.ok.inj (hbytes'.symm.trans hbytes)
  cases hb with | bind hx ha
  have hacquired := ends_acquired hhost hd hbits hextents hbytes hunlowered hcounted (allocate site v t extents cond body) w
  rw [acquired, ends_bind, hx] at hacquired
  dsimp only at hacquired
  rw [ha] at hacquired
  rcases hallocated : (allocated f (allocate site v t extents cond body) v t extents).ends l m with ⟨⟨e | a, l₁⟩, m₁⟩
  · rw [hallocated] at hacquired
    cases hacquired
  · rw [hallocated] at hacquired
    cases hacquired
    exact ⟨rfl, a, m₁, Env.lookup_set_self, rfl, begins_allocate hallocated⟩

theorem workspace?_unlowered (h : ∀ e ∈ s.exprParts, e.Unlowered) (l : Local) : s.workspace? l = none := by
  cases s with
  | bind v e body =>
    have hother : e.isIntrinsic "xte_alloc_workspace" = false := by
      cases e with
      | call t name args kind func index =>
        by_contra hcall
        obtain rfl : name = "xte_alloc_workspace" :=
          beq_iff_eq.mp (Bool.and_eq_true_iff.mp (Bool.eq_true_of_not_eq_false hcall)).1
        have hname : "xte_alloc_workspace" = "xte_call_packed_lowered" :=
          h _ (by simp) t _ args kind func index (Expr.self_mem_postorder _) rfl
        exact absurd hname (by decide)
      | _ => rfl
    simp only [workspace?, hother]
    rfl
  | _ => rfl

/-- A lowered statement gives back the workspace of a variable, the innermost one. -/
def GivesBack (t' : Stmt) (l' : Local) (W : List Nat) : Prop :=
  ∃ d v a W', t' = eval (freeCall d v) ∧ l'.env.get? v = some (.array a) ∧ W = a.storage :: W'

/-- Whatever a run with workspaces comes to, the machine holds the workspaces of the bindings around, and the run
    without them comes to a statement with the same variables and memory, except for where a workspace is given back. -/
theorem Moves.comes (hhost : f.coords = none) (h : s.Moves s') (hs : s.Hostable) (hcounted : s.AllCounted f l m)
    (hcomes : Comes f l (m.holding w) s' W t' l' m') :
    ∃ m₀, m' = m₀.holding (W ++ w) ∧ ((∃ t, Comes f l m s [] t l' m₀) ∨ GivesBack t' l' W) := by
  induction s using induct_bodies generalizing s' l m w W with
  | step s ih =>
    obtain ⟨hbodies, hself, hexprs⟩ := hostable_iff.mp hs
    have hown : ∀ l, s.workspace? l = none := workspace?_unlowered hexprs
    have henter {b : Stmt} {l₁ : Local} {m₁ : Machine} (hb : Begins f l m s b l₁ m₁) {t : Stmt} {l' : Local} {m₀ : Machine}
        (ht : Comes f l₁ m₁ b [] t l' m₀) : Comes f l m s [] t l' m₀ := by
      have hcomes := Comes.enter hb ht
      rwa [hown] at hcomes
    cases h with
    | @kept _ bs h =>
      have hnone : ∀ l, (s.withBodies bs).workspace? l = none := workspace?_unlowered (exprParts_withBodies h ▸ hexprs)
      have hall := (List.forall₂_and_left _ _).mpr ⟨fun b hb => hb, h⟩
      generalize hs' : s.withBodies bs = s' at hcomes hnone
      cases hcomes with
      | self => exact ⟨m, rfl, .inl ⟨s, .self⟩⟩
      | @enter _ l₁ _ _ m₁ _ _ b' _ W hbegins ht =>
        obtain ⟨b, m₀, hb, rfl, hmem, hmoves⟩ := begins_kept (P := fun b b' => b ∈ s.bodies ∧ b.Moves b') hhost hexprs
          (hall.imp fun b b' hb => ⟨hb, fun l' m' hbegins => hb.2.balances hhost (hbodies b hb.1)
            (hcounted.body hbegins)⟩) (hs' ▸ hbegins)
        rw [hnone, Option.toList_none, List.append_nil]
        obtain ⟨m₂, rfl, hmoment⟩ := ih b hmem hmoves (hbodies b hmem) (hcounted.body hb) ht
        exact ⟨m₂, rfl, hmoment.imp_left fun ⟨t, ht⟩ => ⟨t, henter hb ht⟩⟩
    | @moved _ v t extents cond d bytes body body' hd hbytes h =>
      have hextents : ∀ e ∈ extents, e.Unlowered := fun e he => hexprs e (by simp [he])
      have hv : v.id ∉ body.binders := hself.1
      cases hcomes with
      | self => exact ⟨m, rfl, .inl ⟨_, .self⟩⟩
      | @enter _ l₁ _ _ m₁ _ _ b' _ W hbegins ht =>
        obtain ⟨rfl, a, m₀, ha, rfl, hb⟩ := begins_moved hhost hd hself hextents hbytes (hcounted _ _ _ _ .self) hbegins
        have hworkspace : (bind v (workspaceCall d t bytes) (ofList [body', eval (freeCall d v)])).workspace? l₁ =
          some a.storage := by
          have halloc : (workspaceCall d t bytes).isIntrinsic "xte_alloc_workspace" = true := rfl
          simp only [workspace?, halloc, ha, if_true]
        rw [hworkspace, Option.toList_some, List.append_assoc]
        -- The beginning of the body, a moment inside of it, or the call at its end.
        rcases ht.then_eval with ⟨rfl, rfl, rfl⟩ | ht | ⟨rfl, rfl, hend⟩
        · exact ⟨m₀, rfl, .inl ⟨_, henter hb .self⟩⟩
        · obtain ⟨m₂, rfl, hmoment⟩ := ih body (by simp) h (hbodies body (by simp)) (hcounted.body hb) ht
          refine ⟨m₂, rfl, hmoment.imp (fun ⟨t, ht⟩ => ⟨t, henter hb ht⟩) ?_⟩
          rintro ⟨d, v, a, W', rfl, ha, rfl⟩
          exact ⟨d, v, a, _, rfl, ha, rfl⟩
        · obtain ⟨m₂, rfl, hend'⟩ := (h.balances hhost (hbodies body (by simp)) (hcounted.body hb)).ends_ok hend
          have hkept := bound_at_end (f := f) (m := m₀) hv ha
          rw [hend'] at hkept
          exact ⟨m₂, rfl, .inr ⟨d, v, a, [], rfl, hkept, rfl⟩⟩

end Runs

end Stmt

namespace Func
open Stmt

variable {f g : Func} {linkage : Linkage} {args : List Value} {memory : Memory} {device : Int}

theorem run_runHost (hkind : g.kind = .host) :
    (g.runHost linkage args).run.run memory =
      ((((g.body.exec (linkage.frame g.name args)).ends {} { memory }).1.1,
        ((g.body.exec (linkage.frame g.name args)).ends {} { memory }).2.memory) :
        Except Error Unit × Memory) := by
  have hthread : (g.thread (linkage.frame g.name args) [] { memory }).finish =
      (((g.body.exec (linkage.frame g.name args)).ends {} { memory }).1.1,
        ((g.body.exec (linkage.frame g.name args)).ends {} { memory }).2) := by
    show (((g.body.exec (linkage.frame g.name args)).start {} { memory }).bind _).finish = _
    rw [Resumption.finish_bind]
    rfl
  unfold runHost Run.effect
  rw [hkind]
  show (fun r : Except Error Unit × Machine => ((set r.2.memory >>= fun _ => liftM r.1) : Effect Unit).run.run memory)
    ((fun r : Except Error Unit × Machine => ((set r.2 >>= fun _ => liftM r.1) : Run Unit).run.run { memory })
      (g.thread (linkage.frame g.name args) [] { memory }).finish) = _
  rw [hthread]
  rcases (g.body.exec (linkage.frame g.name args)).ends {} { memory } with ⟨⟨_ | _, _⟩, _⟩ <;> rfl

/-- The body of a function with its device type stated. -/
def deviceBody (f : Func) (device : Int) : Stmt := attr (.other (.expr (.str f.name))) "device_type" (.int32 device) f.body

theorem hostable_deviceBody (hdevice : (ElemType.int 32).holds device) (hf : f.body.Hostable) :
    (f.deviceBody device).Hostable := by
  refine hostable_iff.mpr ⟨fun b hb => ?_, fun frame env => ⟨_, eval_int32 hdevice⟩, fun e he => ?_⟩
  · obtain rfl : b = f.body := by simpa [deviceBody] using hb
    exact hf
  · have hpure : (Expr.int32 device).Pure := fun a ha => by
      obtain rfl : a = .int32 device := List.mem_singleton.mp ha
      rfl
    obtain rfl : e = .int32 device := by simpa [deviceBody] using he
    exact hpure.impurities

theorem comes_deviceBody {frame : Frame} {l l' : Local} {m m' : Machine} {W : List Nat} {t : Stmt}
    (h : Comes frame l m (f.deviceBody device) W t l' m') :
    (t = f.deviceBody device ∧ W = [] ∧ l' = l ∧ m' = m) ∨ Comes frame l m f.body W t l' m' := by
  unfold deviceBody at h ⊢
  cases h with
  | self => exact .inl ⟨rfl, rfl, rfl, rfl⟩
  | enter hb ht =>
    cases hb
    exact .inr (by rwa [show workspace? _ _ = none from rfl, Option.toList_none, List.append_nil])

theorem lowers_deviceBody (hdevice : (ElemType.int 32).holds device) (hf : f.body.Hostable) :
    ∃ s, (f.bindDevice device >>= lowerHost) = .ok { f with body := s } ∧ (f.deviceBody device).Moves s := by
  have hvalue : Expr.ofInt device .int32 = .ok (.int32 device) := Expr.ofNumber_int QueryType.int32.isIndex device
  have hbound : f.bindDevice device = .ok { f with body := f.deviceBody device } := by
    rw [bindDevice, hvalue]
    rfl
  obtain ⟨s, c, hrun, -, hmoves⟩ := lowers (hostable_deviceBody hdevice hf) {} fun _ _ => ⟨_, eval_int32 rfl⟩
  refine ⟨s, bind_eq_ok.mpr ⟨_, hbound, ?_⟩, hmoves⟩
  unfold lowerHost
  exact bind_eq_ok.mpr ⟨(s, c), hrun, rfl⟩

/-- A call of a function has the result and the memory of a call of another one. Whatever it comes to, it holds exactly
    the workspaces of the bindings around, and the other function comes to a statement with the same variables and
    memory, except for where the innermost workspace is given back; if it does not fail, no workspace is left. -/
structure KeepsBalance (linkage : Linkage) (args : List Value) (memory : Memory) (f g : Func) : Prop where
  run : (g.runHost linkage args).run.run memory = (f.runHost linkage args).run.run memory
  left : ((g.body.exec (linkage.frame g.name args)).ends {} { memory }).1.1.isOk →
    ((g.body.exec (linkage.frame g.name args)).ends {} { memory }).2.workspaces = []
  moment (W : List Nat) (t : Stmt) (l : Local) (m : Machine)
    (h : Comes (linkage.frame g.name args) {} { memory } g.body W t l m) :
    m.workspaces = W ∧ ((∃ t₀ m₀, Comes (linkage.frame f.name args) {} { memory } f.body [] t₀ l m₀ ∧
      m₀.memory = m.memory) ∨ t.GivesBack l W)

/-- A function of the host is lowered, for a device type, and its calls keep the balance, as long as the numbers of
    bytes of its allocations are those of their elements. -/
theorem balanced_lowerHost (hdevice : (ElemType.int 32).holds device) (hkind : f.kind = .host) (hf : f.body.Hostable)
    (hcounted : f.body.AllCounted (linkage.frame f.name args) {} { memory }) :
    ∃ g, (f.bindDevice device >>= lowerHost) = .ok g ∧ KeepsBalance linkage args memory f g := by
  obtain ⟨s, hlower, hmoves⟩ := lowers_deviceBody hdevice hf
  have hs := hostable_deviceBody hdevice hf
  have hdevices : (f.deviceBody device).AllCounted (linkage.frame f.name args) {} { memory } := by
    intro W t l m hcomes
    rcases comes_deviceBody hcomes with ⟨rfl, -, -, -⟩ | hcomes
    · trivial
    · exact hcounted W t l m hcomes
  have hexec : (f.deviceBody device).exec (linkage.frame f.name args) = f.body.exec (linkage.frame f.name args) := rfl
  obtain ⟨u, hends, hok⟩ := hmoves.balances rfl hs hdevices []
  rw [hexec] at hends hok
  have hstart : ({ memory } : Machine).holding [] = { memory } := rfl
  rw [hstart, List.append_nil] at hends
  refine ⟨_, hlower, ?_, fun hsuccess => ?_, fun W t l m hcomes => ?_⟩
  · have hlowered : ({ f with body := s } : Func).kind = .host := hkind
    rw [run_runHost hlowered, run_runHost hkind, hends]
    rfl
  · rw [hends] at hsuccess ⊢
    rw [hok hsuccess]
    rfl
  · obtain ⟨m₀, rfl, hmoment⟩ := hmoves.comes rfl hs hdevices (w := []) hcomes
    refine ⟨List.append_nil W, hmoment.imp_left ?_⟩
    rintro ⟨t₀, hcomes⟩
    rcases comes_deviceBody hcomes with ⟨-, -, rfl, rfl⟩ | hcomes
    · exact ⟨f.body, _, .self, rfl⟩
    · exact ⟨t₀, m₀, hcomes, rfl⟩

namespace Scratch

def i : Var := ⟨1, "i", .int32⟩

def n : Var := ⟨2, "n", .int32⟩

def table : Var := ⟨3, "T", .handle⟩

def filled : Stmt := .store (.var table) (.var i) (.var i) none

/-- An array of a number of elements that only the run knows. -/
def scratch : Stmt := .allocate 0 table .int32 [.var n] (Expr.bool true) filled

def sized : Stmt := .bind n (Expr.int32 300) scratch

/-- A function that adds an array and gives it back, twice. -/
def host : Func where
  name := "fill"
  params := []
  body := .loop i (Expr.int32 0) (Expr.int32 2) .serial sized
  kind := .host

def bytes : Expr := .cast .int64 (.bin .mul (.var n) (.int32 4))

theorem byteCount_scratch : byteCount .int32 [.var n] = .ok bytes := rfl

theorem hostable_body : host.body.Hostable := by
  have hpure : ∀ t ∈ host.body.stmts, ∀ e ∈ t.exprParts, e.Pure := by decide
  have hbytes : bytes.Pure := by decide
  refine fun t ht => ⟨?_, fun e he => (hpure t ht e he).impurities⟩
  have hstmts : t ∈ [filled, scratch, sized, host.body] := ht
  simp only [List.mem_cons, List.not_mem_nil, or_false] at hstmts
  rcases hstmts with rfl | rfl | rfl | rfl
  · trivial
  · exact ⟨by decide, by decide, bytes, byteCount_scratch, hbytes.impurities⟩
  · trivial
  · trivial

theorem counted_sized (f : Frame) (l : Local) (m : Machine) : sized.AllCounted f l m := by
  rintro W t l' m' (_ | ⟨hb, ht⟩)
  · trivial
  cases hb with | bind hx ha
  cases hx
  cases ha
  rcases ht with _ | ⟨hb, ht⟩
  · rintro e he
    obtain rfl : bytes = e := Except.ok.inj (byteCount_scratch.symm.trans he)
    rfl
  · obtain rfl : _ = filled := by simpa [scratch] using hb.mem_bodies
    obtain rfl : t = filled := List.mem_singleton.mp ht.mem_stmts
    trivial

theorem counted_body (f : Frame) (l : Local) (m : Machine) : host.body.AllCounted f l m := by
  rintro W t l' m' (_ | ⟨hb, ht⟩)
  · trivial
  · cases hb
    exact counted_sized f _ _ _ _ _ _ ht

theorem balanced_host : (ElemType.int 32).holds 1 ∧ host.kind = .host ∧ host.body.Hostable ∧
    host.body.AllCounted (({} : Linkage).frame host.name []) {} { memory := #[] } ∧
    ∃ g, (host.bindDevice 1 >>= lowerHost) = .ok g ∧ KeepsBalance {} [] #[] host g :=
  ⟨rfl, rfl, hostable_body, counted_body _ _ _, balanced_lowerHost rfl rfl hostable_body (counted_body _ _ _)⟩

end Scratch

end Func

end TensorNest

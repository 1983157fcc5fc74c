import Mathlib.Data.List.Forall2
import TensorNest.Proofs.Axes
import TensorNest.Proofs.Blocks
import TensorNest.Proofs.Splitting

/-! # Launches

A kernel is launched with the variables that its region takes from outside and with one extent for each tag
of its thread regions. What is bound to its parameters are the values that the variables have on the host,
and the extents are found again by the tags. So without barriers the launch runs the region once for each
coordinate below the extents, each time with the variables of the host (`Func.launch_runs_serial`). -/

namespace TensorNest

/-- Simplification keeps the values of the extents of axes. -/
def LaunchAxes.Kept (env : Env) (axes : LaunchAxes) : Prop :=
  ∀ a ∈ axes, ∀ e, a.2.2.simplify = .ok e → ∀ n, a.2.2.HasInt env n → e.HasInt env n

/-- How the code of a module finds and calls functions. -/
def Modules.linkage (ms : Modules) (id depth : Nat) : Linkage :=
  { resolve := some (ms.resolve id), call := ms.callWithin depth }

/-- A value that a variable can be bound to as it is. -/
def Value.Placed (x : Value) : Prop :=
  place x = pure x

namespace Func

variable {d : Func} {env : Env}

/-! ### Parameters and extents of a launch -/

/-- The parameters that are bound to what variables have as their values have these values. -/
theorem bindParams_eq {vs : List Var} {xs : List Value} {X : List Nat}
    (h : List.Forall₂ (fun v x => env.get? v = some x ∧ x.Placed) vs xs)
    (bound : Env) (hX : ∀ i ∈ X, bound.lookup i = env.lookup i) :
    ∃ bound', bindParams (vs.map .var) xs bound = pure bound' ∧
      ∀ i ∈ X ++ vs.map (·.id), bound'.lookup i = env.lookup i := by
  induction h generalizing bound X with
  | nil => exact ⟨bound, rfl, by simpa using hX⟩
  | @cons v x vs xs hx _ ih =>
    obtain ⟨hvalue, hplaced⟩ := hx
    have hset : ∀ i ∈ X ++ [v.id], (bound.set v x).lookup i = env.lookup i := by
      intro i hi
      by_cases heq : i = v.id
      · subst heq
        exact Env.lookup_set_self.trans hvalue.symm
      · rw [Env.lookup_set heq]
        exact hX i ((List.mem_append.mp hi).resolve_right fun hi => heq (List.mem_singleton.mp hi))
    obtain ⟨bound', hrest, hbound⟩ := ih _ hset
    refine ⟨bound', ?_, by simpa using hbound⟩
    rw [List.map_cons, bindParams, show place x = pure x from hplaced, pure_bind, hrest]

theorem setExtent_append {tag : String} {n : Nat} {es : List (String × Nat)} (h : tag ∉ es.map (·.1)) :
    setExtent tag n es = es ++ [(tag, n)] := by
  induction es with
  | nil => rfl
  | cons e es ih =>
    obtain ⟨t, k⟩ := e
    obtain ⟨hne, hmem⟩ : ¬tag = t ∧ tag ∉ es.map (·.1) := by simpa using h
    simp [setExtent, ih hmem, Ne.symm hne]

/-- The extents of different tags. -/
theorem extents_eq {m : Memory} {axes : List IterVar} {ys : List Value} {ns : List Int} (es : List (String × Nat))
    (h : List.Forall₂ (fun y n => y.toInt m = .ok n) ys ns) (hlength : axes.length = ys.length)
    (hnodup : (es.map (·.1) ++ axes.map (·.tag)).Nodup) :
    (axes.zip ys).foldlM (fun es (p : IterVar × Value) => do
      let n ← (p.2.toInt m : Except Error Int)
      return setExtent p.1.tag n.toNat es) es =
        (pure (es ++ (axes.map (·.tag)).zip (ns.map Int.toNat)) : Run (List (String × Nat))) := by
  induction h generalizing axes es with
  | nil => simp
  | @cons y n ys ns hy _ ih =>
    cases axes with
    | nil => cases hlength
    | cons iv axes =>
      rw [List.map_cons, List.append_cons] at hnodup
      have hfresh : iv.tag ∉ es.map (·.1) := fun hmem =>
        (List.nodup_append.mp (List.nodup_append.mp hnodup).1).2.2 _ hmem _ (List.mem_singleton_self _) rfl
      have hstep : (do
          let n ← (y.toInt m : Except Error Int)
          return setExtent iv.tag n.toNat es : Run (List (String × Nat))) = pure (es ++ [(iv.tag, n.toNat)]) := by
        rw [hy]
        exact congrArg (pure : _ → Run _) (setExtent_append hfresh)
      rw [List.zip_cons_cons, List.foldlM_cons, hstep, pure_bind, ih _ (Nat.succ.inj hlength) (by simpa using hnodup)]
      simp

/-- What the caller of an effect sees of it. -/
theorem run_effect (x : Run Unit) (cells : Memory) : (Run.effect x).run.run cells =
    (((Run.on x { memory := cells }).1, (Run.on x { memory := cells }).2.memory) : Except Error Unit × Memory) := by
  have heffect : (Run.effect x).run.run cells = ((do
      set (Run.on x { memory := cells }).2.memory
      liftM (Run.on x { memory := cells }).1 : Effect Unit).run.run cells : Except Error Unit × Memory) := rfl
  rw [heffect]
  rcases Run.on x { memory := cells } with ⟨_ | _, _⟩ <;> rfl

/-- The frame in which a device function runs. -/
def deviceFrame (d : Func) (l : Linkage) : Frame :=
  { name := d.name, resolve := l.resolve, call := l.call }

/-- A launch of a device function without barriers runs its body once for each coordinate below the extents. -/
theorem launch_eq {l : Linkage} {vs : List Var} {xs ys : List Value} {ns : List Int} {m : Memory}
    (hbody : ∀ t ∈ d.body.stmts, t.isVirtual = false ∧ t.isBarrier = false) (hparams : d.params = vs.map .var)
    (hfree : ∀ i ∈ d.body.freeIds, i ∈ vs.map (·.id)) (hxs : List.Forall₂ (fun v x => env.get? v = some x ∧ x.Placed) vs xs)
    (hys : List.Forall₂ (fun y n => y.toInt m = .ok n) ys ns) (hlength : d.threadAxes.length = ys.length)
    (htags : (d.threadAxes.map (·.tag)).Nodup) :
    (d.launch l (xs ++ ys)).run.run m = ((Run.effect (d.body.runSerial (d.deviceFrame l) env
      ((d.threadAxes.map (·.tag)).zip (ns.map Int.toNat)))).run.run m : Except Error Unit × Memory) := by
  have hcount : d.params.length = xs.length := by rw [hparams, List.length_map, hxs.length_eq]
  obtain ⟨bound, hbind, hbound⟩ := bindParams_eq hxs [] (X := []) nofun
  have hserial : ∀ es, d.body.runSerial (d.deviceFrame l) env es = d.body.runSerial (d.deviceFrame l) bound es := fun es =>
    Stmt.runSerial_congr (fun t ht => (hbody t ht).1) (fun i hi => (hbound i (hfree i hi)).symm) es
  have hextents := extents_eq [] hys hlength (by simpa using htags)
  have htake : (xs ++ ys).take d.params.length = xs := by rw [hcount, List.take_left']; rfl
  have hdrop : (xs ++ ys).drop d.params.length = ys := by rw [hcount, List.drop_left']; rfl
  rw [hserial]
  have hlaunch : d.launch l (xs ++ ys) = Run.effect (do
      let m : Memory := (← get).memory
      let extents ← (d.threadAxes.zip ys).foldlM (fun es (p : IterVar × Value) => do
        let n ← (p.2.toInt m : Except Error Int)
        return setExtent p.1.tag n.toNat es) []
      let env ← bindParams d.params xs []
      (grid (extents.filter fun e => isBlockTag e.1)).forM fun block =>
        d.runBlock (d.deviceFrame l) env block (grid (extents.filter fun e => !isBlockTag e.1))) := by
    unfold launch
    rw [htake, hdrop, hcount, hlength]
    simp only [bne_self_eq_false, Bool.false_eq_true, if_false]
    rfl
  rw [hlaunch, run_effect, run_effect, Run.on_bind,
    show Run.on (get : Run Machine) { memory := m } = (.ok { memory := m }, { memory := m }) from rfl]
  simp only [hextents, hparams, hbind, pure_bind, runBlock_eq_forM fun t ht => (hbody t ht).2]
  rfl

/-! ### The launch of a kernel -/

/-- The tags of a region with the extents that its kernel is launched over. -/
def launchExtents (region : Stmt) : Except Error (List (String × Expr)) := do
  let axes ← LaunchAxes.ofStmt region
  let extents ← axes.mapM fun x => x.2.2.simplify
  return (axes.map (·.1)).zip extents

variable {F : Func} {region launch : Stmt} {n : Nat} {es : List (String × Expr)}

theorem mem_launchExtents (h : launchExtents region = .ok es) {axes : LaunchAxes}
    (haxes : LaunchAxes.ofStmt region = .ok axes) :
    ∀ e ∈ es, ∃ a ∈ axes, a.1 = e.1 ∧ a.2.2.simplify = .ok e.2 := by
  obtain ⟨axes', haxes', hmap⟩ := bind_eq_ok.mp h
  obtain rfl : axes = axes' := Except.ok.inj (haxes.symm.trans haxes')
  obtain ⟨extents, hextents, heq⟩ := bind_eq_ok.mp hmap
  cases heq
  clear haxes haxes' hmap h
  induction axes generalizing extents with
  | nil => exact nofun
  | cons a axes ih =>
    rw [List.mapM_cons] at hextents
    obtain ⟨y, hy, hrest⟩ := bind_eq_ok.mp hextents
    obtain ⟨ys, hys, heq⟩ := bind_eq_ok.mp hrest
    cases heq
    refine List.forall_mem_cons.mpr ⟨⟨a, List.mem_cons_self, rfl, hy⟩, fun e he => ?_⟩
    obtain ⟨a', ha', hsame⟩ := ih ys hys e he
    exact ⟨a', List.mem_cons_of_mem a ha', hsame⟩

/-- If simplification keeps the values of the extents, the value of the extent of a tag is the greatest one. -/
theorem greatest_launchExtents {env : Env} {axes : LaunchAxes} (h : launchExtents region = .ok es)
    (haxes : LaunchAxes.ofStmt region = .ok axes)
    (hkept : axes.Kept env) (hvalues : ∀ r ∈ region.threadRegions, r.2.Index .int32 ∧ ∃ n, r.2.HasInt env n) :
    ∀ e ∈ es, ∃ n, e.2.HasInt env n ∧ IsGreatest (LaunchAxes.values env region.threadRegions e.1) n := by
  intro e he
  obtain ⟨a, ha, htag, hsimplify⟩ := mem_launchExtents h haxes e he
  obtain ⟨-, n, hn, hgreatest⟩ := (LaunchAxes.collects_ofStmt haxes).greatest env hvalues a ha
  exact ⟨n, hkept a ha e.2 hsimplify n hn, htag ▸ hgreatest⟩

/-- What a kernel is launched with: the variables that its region takes from outside, and one extent for each tag of its
    regions. -/
theorem kernel_launches (h : F.kernel n region = .ok (d, launch)) (hes : launchExtents region = .ok es) :
    launch = .eval (launchCall d.name ((kernelParams region).map .var ++ es.map (·.2))) ∧
      d.threadAxes.map (·.tag) = es.map (·.1) ∧
      (es.map (·.1)).Nodup ∧ ∀ t, t ∈ es.map (·.1) ↔ t ∈ region.threadRegions.map (·.1.tag) := by
  obtain ⟨-, -, -, -, axes, extents, haxes, hextents, hthreads, hlaunch⟩ := kernel_eq h
  have heq : es = (axes.map (·.1)).zip extents := by
    rw [launchExtents, haxes] at hes
    have hzip : (axes.mapM fun x => x.2.2.simplify) >>= (fun extents => .ok ((axes.map (·.1)).zip extents)) = .ok es := hes
    rw [hextents] at hzip
    exact (Except.ok.inj hzip).symm
  have hlength : (axes.map (·.1)).length = extents.length := by rw [List.length_map, length_mapM hextents]
  have hfst : es.map (·.1) = axes.map (·.1) := heq ▸ List.map_fst_zip (Nat.le_of_eq hlength)
  have hsnd : es.map (·.2) = extents := heq ▸ List.map_snd_zip (Nat.le_of_eq hlength.symm)
  have hcollects := LaunchAxes.collects_ofStmt haxes
  rw [hfst, hsnd]
  refine ⟨hlaunch, ?_, hcollects.nodup, hcollects.complete⟩
  rw [hthreads, List.map_map]
  exact List.map_congr_left hcollects.tag

end Func

section Calls

variable {f : Frame} {env : Env} {name : String} {args : List Expr} {e : Entry} {resolve : String → Except Error Entry}

/-- A launch calls the function of its name. -/
theorem Expr.eval_launch (hresolve : f.resolve = some resolve) (hname : resolve name = .ok e) :
    (Func.launchCall name args).eval f env = (do
      let xs ← eval.evalAll f env args
      f.invoke e xs) := by
  have happly : ∀ xs, Intrinsic.callDevice.apply f .int32 (.text name :: xs) = f.invoke e xs := by
    intro xs
    show (do f.invoke (← f.function (.text name)) xs) = _
    rw [function_text hresolve hname, pure_bind]
  rw [Func.launchCall, eval_intrinsic (i := .callDevice) rfl, eval.evalAll]
  simp only [eval, pure_bind, bind_assoc, happly]

theorem Expr.evalAll_append (as bs : List Expr) : eval.evalAll f env (as ++ bs) = (do
    let xs ← eval.evalAll f env as
    let ys ← eval.evalAll f env bs
    return xs ++ ys) := by
  induction as with
  | nil => simp [eval.evalAll]
  | cons a as ih => simp [eval.evalAll, ih]

theorem Expr.length_evalAll {es : List Expr} {ys : List Value} {m m' : Machine}
    (h : Run.on (eval.evalAll f env es) m = (.ok ys, m')) :
    ys.length = es.length := by
  induction es generalizing ys m with
  | nil =>
    cases h
    rfl
  | cons e es ih =>
    obtain ⟨x, m₁, -, h⟩ := Run.on_bind_eq_ok.mp h
    obtain ⟨xs, m₂, hxs, heq⟩ := Run.on_bind_eq_ok.mp h
    cases heq
    rw [List.length_cons, ih hxs, List.length_cons]

theorem Expr.evalAll_eq {es : List Expr} {xs : List Value} (h : List.Forall₂ (HasValue env) es xs) :
    eval.evalAll f env es = pure xs := by
  induction h with
  | nil => rfl
  | cons hx _ ih => simp [eval.evalAll, hx f, ih]

theorem Expr.hasValue_var {v : Var} {x : Value} (h : env.get? v = some x) : (var v).HasValue env x := fun f => by
  simp [eval, h]

end Calls

namespace Func

variable {F d : Func} {region launch : Stmt} {n depth host id : Nat} {es : List (String × Expr)} {f : Frame} {l : Local}
  {m m' : Machine} {ms : Modules} {ys : List Value} {ks : List Int}

/-- An effect as a call, in which only the wording of a failure is another. -/
theorem run_atCall (name : String) (x : Effect Unit) (cells : Memory) : (x.atCall name).run.run cells =
    (((x.run.run cells : Except Error Unit × Memory).1.mapError (Error.atCall name),
      (x.run.run cells : Except Error Unit × Memory).2) : Except Error Unit × Memory) := by
  unfold Effect.atCall
  simp only [tryCatch, tryCatchThe, MonadExceptOf.tryCatch, ExceptT.tryCatch, ExceptT.run, ExceptT.mk] at *
  rw [StateT.run_bind]
  rcases (StateT.run x cells : Except Error Unit × Memory) with ⟨_ | _, _⟩ <;> rfl

theorem on_invoke {e : Entry} {args : List Value} {r : Except Error Unit} {cells : Memory}
    (h : (f.call e args).run.run m.memory = ((r, cells) : Except Error Unit × Memory)) :
    Run.on (f.invoke e args) m = (r.map fun _ => .number (.int 0), { m with memory := cells }) := by
  have hinvoke : Run.on (f.invoke e args) m =
      Run.on (do
        liftM ((f.call e args).run.run m.memory : Except Error Unit × Memory).1
        return .number (.int 0) : Run Value)
        { m with memory := ((f.call e args).run.run m.memory : Except Error Unit × Memory).2 } := rfl
  rw [hinvoke, h]
  cases r <;> rfl

open Run in
/-- A launch as a statement. -/
theorem start_launch {name : String} {args : List Expr} : ((Stmt.eval (launchCall name args)).exec f).start l m =
    .done ((on ((launchCall name args).eval f l.env) m).1.map fun _ => (), l)
      (on ((launchCall name args).eval f l.env) m).2 := by
  have hbarrier : (launchCall name args).isIntrinsic "xte_storage_sync" = false := by rfl
  unfold Stmt.exec
  rw [hbarrier]
  have hvalue : (Thread.value f (launchCall name args)).start l m =
      .done ((on ((launchCall name args).eval f l.env) m).1, l) (on ((launchCall name args).eval f l.env) m).2 := rfl
  show (Thread.value f (launchCall name args) >>= fun _ => pure ()).start l m = _
  rw [Thread.start_bind, hvalue]
  rcases (on ((launchCall name args).eval f l.env) m) with ⟨_ | _, _⟩ <;> rfl

theorem mem_kernelParams {v : Var} : v ∈ kernelParams region ↔ v ∈ region.freeVars := by
  simp only [kernelParams, List.mem_append, List.mem_filter, Bool.not_eq_true']
  cases v.dtype.isHandle <;> simp

open Run in
/-- Without barriers a launch runs the region once for each coordinate below its extents, with the variables of the host. -/
theorem launch_runs_serial (hkernel : F.kernel n region = .ok (d, launch)) (hes : launchExtents region = .ok es)
    (hapart : region.Apart) (hplain : ∀ t ∈ region.stmts, t.isVirtual = false ∧ t.isBarrier = false)
    (hresolve : f.resolve = some (ms.resolve host)) (hname : ms.resolve host d.name = .ok ⟨id, d⟩)
    (hcall : f.call = ms.callWithin (depth + 1)) (hvalues : ∀ v ∈ region.freeVars, ∃ x, l.env.get? v = some x ∧ x.Placed)
    (hextents : on (Expr.eval.evalAll f l.env (es.map (·.2))) m = (.ok ys, m'))
    (hints : List.Forall₂ (fun y k => y.toInt m'.memory = .ok k) ys ks) {r : Except Error Unit} {m₁ : Machine}
    (hrun : on (region.runSerial (d.deviceFrame (ms.linkage id depth)) l.env ((es.map (·.1)).zip (ks.map Int.toNat)))
      { memory := m'.memory } = (r, m₁)) :
    (launch.exec f).start l m = .done (r.mapError (Error.atCall d.name), l) { m' with memory := m₁.memory } := by
  obtain ⟨hlaunch, htags, hnodup, -⟩ := kernel_launches hkernel hes
  obtain ⟨-, hbody, hkind, hparams, -⟩ := kernel_eq hkernel
  let xs := (kernelParams region).map fun v => (l.env.get? v).getD .nothing
  have hxs : List.Forall₂ (fun v x => l.env.get? v = some x ∧ x.Placed) (kernelParams region) xs := by
    rw [List.forall₂_map_right_iff, List.forall₂_same]
    intro v hv
    obtain ⟨x, hx, hplaced⟩ := hvalues v (mem_kernelParams.mp hv)
    exact ⟨by rw [hx, Option.getD_some], by rwa [hx, Option.getD_some]⟩
  have hvars : List.Forall₂ (Expr.HasValue l.env) ((kernelParams region).map .var) xs :=
    List.forall₂_map_left_iff.mpr (hxs.imp fun v x hx => Expr.hasValue_var hx.1)
  have hargs : on (Expr.eval.evalAll f l.env ((kernelParams region).map .var ++ es.map (·.2))) m =
    (.ok (xs ++ ys), m') := by
    rw [Expr.evalAll_append, Expr.evalAll_eq hvars, pure_bind, on_bind, hextents]
    rfl
  have hcalled : f.call ⟨id, d⟩ (xs ++ ys) = (d.launch (ms.linkage id depth) (xs ++ ys)).atCall d.name := by
    rw [hcall, Modules.callWithin, if_pos hkind]
    rfl
  have hfree : ∀ i ∈ d.body.freeIds, i ∈ (kernelParams region).map (·.id) := by
    intro i hi
    obtain ⟨v, hv, rfl⟩ := List.mem_map.mp (Stmt.mem_freeVars_of_apart hapart (hbody ▸ hi))
    exact List.mem_map_of_mem (mem_kernelParams.mpr hv)
  have hlength : d.threadAxes.length = ys.length := by
    have hes : d.threadAxes.length = es.length := by simpa using congrArg List.length htags
    rw [hes, Expr.length_evalAll hextents, List.length_map]
  have hresult : (f.call ⟨id, d⟩ (xs ++ ys)).run.run m'.memory =
      ((r.mapError (Error.atCall d.name), m₁.memory) : Except Error Unit × Memory) := by
    rw [hcalled, run_atCall, launch_eq (hbody ▸ hplain) hparams hfree hxs hints hlength (htags ▸ hnodup), hbody, htags,
      run_effect, hrun]
  rw [hlaunch, start_launch, Expr.eval_launch hresolve hname, on_bind, hargs]
  simp only [on_invoke hresult]
  cases r <;> rfl

end Func

end TensorNest

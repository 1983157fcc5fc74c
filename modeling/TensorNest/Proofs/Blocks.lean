import TensorNest.Proofs.Locality
import TensorNest.Proofs.Queries

/-! # The threads of a block

A thread without barriers does not wait, so the threads of a block, which run in lockstep from barrier to
barrier, then run one after the other (`Func.runBlock_eq_forM`). -/

namespace TensorNest

/-! ### Threads that do not wait -/

namespace Thread

variable {α β : Type} {S : Prop}

/-- A thread never waits and, if `S` holds, leaves the storage scopes as they were. -/
def Straight (S : Prop) (x : Thread α) : Prop :=
  ∀ l m, ∃ r m', x.start l m = .done r m' ∧ (S → r.2.scopes = l.scopes)

theorem straight_ofRun (x : Run α) : Straight S (ofRun x) := fun _ _ => ⟨_, _, rfl, fun _ => rfl⟩

theorem straight_pure (a : α) : Straight S (pure a) := fun _ _ => ⟨_, _, rfl, fun _ => rfl⟩

theorem straight_throw (e : Error) : Straight S (throw e : Thread α) := fun _ _ => ⟨_, _, rfl, fun _ => rfl⟩

theorem straight_lift (x : Except Error α) : Straight S (liftM x : Thread α) := by
  cases x with
  | error e => exact straight_throw e
  | ok a => exact straight_pure a

theorem straight_bind (v : Var) (a : Value) : Straight S (bind v a) := fun _ _ => ⟨_, _, rfl, fun _ => rfl⟩

theorem straight_unbind (v : Var) : Straight S (unbind v) := fun _ _ => ⟨_, _, rfl, fun _ => rfl⟩

theorem straight_get_bind {k : Local → Thread β} (h : ∀ l, Straight S (k l)) : Straight S ((get : Thread Local) >>= k) :=
    fun l m =>
  h l l m

theorem straight_release (v : Var) : Straight S (release v) := by
  refine straight_get_bind fun l => ?_
  cases l.env.get? v with
  | some a => exact straight_unbind v
  | none => exact straight_throw _

theorem Straight.bind {x : Thread α} {k : α → Thread β} (h : Straight S x) (hk : ∀ a, Straight S (k a)) :
    Straight S (x >>= k) := by
  intro l m
  obtain ⟨⟨r, l'⟩, m', hx, hscopes⟩ := h l m
  rw [start_bind, hx]
  cases r with
  | error e => exact ⟨_, _, rfl, hscopes⟩
  | ok a =>
    obtain ⟨t, m'', ht, hscopes'⟩ := hk a l' m'
    exact ⟨t, m'', ht, fun hS => (hscopes' hS).trans (hscopes hS)⟩

theorem Straight.ensuring {x last : Thread Unit} (h : Straight S x) (hlast : Straight S last) :
    Straight S (ensuring x last) := by
  intro l m
  obtain ⟨r, m', hx, hscopes⟩ := h l m
  obtain ⟨⟨t, l'⟩, m'', ht, hscopes'⟩ := hlast r.2 m'
  have hend : S → l'.scopes = l.scopes := fun hS => (hscopes' hS).trans (hscopes hS)
  rw [start_ensuring, hx]
  simp only [Resumption.bind, ht]
  cases t with
  | error e => exact ⟨_, _, rfl, hend⟩
  | ok u => exact ⟨_, _, rfl, hend⟩

theorem straight_forRange {x : Int → Thread Unit} (h : ∀ i, Straight S (x i)) (first : Int) (n : Nat) :
    Straight S (forRange x first n) := by
  induction n generalizing first with
  | zero => exact straight_pure ()
  | succ n ih => exact (h first).bind fun _ => ih (first + 1)

section Steps
variable (f : Frame)

theorem straight_value (e : Expr) : Straight S (value f e) := straight_get_bind fun _ => straight_ofRun _

theorem straight_holds (e : Expr) : Straight S (holds f e) := (straight_value f e).bind fun _ => straight_ofRun _

theorem straight_integer (e : Expr) : Straight S (integer f e) := (straight_value f e).bind fun _ => straight_ofRun _

theorem straight_product (es : List Expr) (n : Int) : Straight S (product f n es) := by
  induction es generalizing n with
  | nil => exact straight_pure n
  | cons e es ih => exact (straight_integer f e).bind fun k => ih (n * k)

theorem straight_buffer (s : Stmt) (v : Var) (e : ElemType) (size : Nat) : Straight S (buffer f s v e size) :=
  straight_get_bind fun _ => straight_ofRun _

end Steps

end Thread

namespace Stmt

/-- Whether a statement is a barrier. -/
def isBarrier : Stmt → Bool
  | eval e => e.isIntrinsic "xte_storage_sync"
  | _ => false

/-- Whether a statement gives a storage scope. -/
def isScope : Stmt → Bool
  | attr _ key _ _ => key == "storage_scope"
  | _ => false

open Thread in
/-- A statement without barriers never waits. -/
theorem straight_exec {S : Prop} {s : Stmt} (f : Frame) (h : ∀ t ∈ s.stmts, t.isBarrier = false)
    (hS : S → ∀ t ∈ s.stmts, t.isScope = false) : Straight S (s.exec f) := by
  induction s using induct_bodies with
  | step s ih =>
    have hbodies : ∀ b ∈ s.bodies, Straight S (b.exec f) := fun b hb =>
      ih b hb ((forall_mem_stmts.mp h).1 b hb) fun hS' => (forall_mem_stmts.mp (hS hS')).1 b hb
    cases s with
    | bind v e body =>
      unfold exec
      refine (straight_value f e).bind fun x => (straight_ofRun _).bind fun a => (straight_bind _ _).bind fun _ => ?_
      exact (hbodies body (List.mem_singleton_self _)).ensuring (straight_release v)
    | attr subject key e body =>
      have hbody := hbodies body (List.mem_singleton_self _)
      unfold exec
      split
      · rename_i hkey
        cases subject with
        | var v =>
          have hnot : ¬S := fun hS' => absurd ((forall_mem_stmts.mp (hS hS')).2.symm.trans hkey) (by decide)
          intro l m
          obtain ⟨r, m', hr, -⟩ := hbody { l with scopes := (v.id, scopeName e) :: l.scopes } m
          exact ⟨r, m', hr, fun hS' => absurd hS' hnot⟩
        | _ => exact hbody
      · split
        · cases subject with
          | axis iv =>
            refine (straight_lift _).bind fun c => (straight_integer f e).bind fun n => ?_
            split
            · exact (straight_bind _ _).bind fun _ => hbody.ensuring (straight_release iv.var)
            · exact straight_pure ()
          | _ => exact straight_throw _
        · exact hbody
    | assert cond message body =>
      unfold exec
      refine (straight_holds f cond).bind fun holds => ?_
      split
      · exact hbodies body (List.mem_singleton_self _)
      · exact (straight_value f message).bind fun x => straight_ofRun _
    | loop v first extent kind body =>
      unfold exec
      refine (straight_integer f first).bind fun start => (straight_integer f extent).bind fun count => ?_
      refine Straight.ensuring (straight_forRange (fun i => ?_) start count.toNat) (straight_unbind v)
      exact (straight_ofRun _).bind fun a => (straight_bind _ _).bind fun _ => hbodies body (List.mem_singleton_self _)
    | store buffer value index pred =>
      unfold exec
      refine straight_get_bind fun l => (straight_lift _).bind fun a => (straight_value f index).bind fun i =>
        (straight_value f value).bind fun x => ?_
      cases pred with
      | none => exact straight_ofRun _
      | some p => exact (straight_value f p).bind fun mask => straight_ofRun _
    | provide => exact straight_throw _
    | allocate site v t extents cond body =>
      unfold exec
      refine (straight_product f extents _).bind fun size => (straight_lift _).bind fun e => ?_
      have hrest : ∀ size : Int, Straight S (do
          let a ← buffer f (allocate site v t extents cond body) v e size.toNat
          Thread.bind v (.array a)
          ensuring (body.exec f) (unbind v)) := fun size =>
        (straight_buffer f _ v e _).bind fun a => (straight_bind _ _).bind fun _ =>
          (hbodies body (List.mem_singleton_self _)).ensuring (straight_unbind v)
      split
      · exact (straight_throw _).bind fun _ => hrest size
      · exact hrest size
    | realize => exact straight_throw _
    | prefetch => exact straight_throw _
    | seq ss =>
      have hall : ∀ ts ⊆ ss, Straight S (exec.execAll f ts) := by
        intro ts hts
        induction ts with
        | nil => exact straight_pure ()
        | cons t ts iht =>
          obtain ⟨ht, hts⟩ := List.cons_subset.mp hts
          exact (hbodies t ht).bind fun _ => iht hts
      exact hall ss (List.Subset.refl ss)
    | branch cond onTrue onFalse =>
      unfold exec
      refine (straight_holds f cond).bind fun holds => ?_
      split
      · exact hbodies onTrue List.mem_cons_self
      · cases onFalse with
        | none => exact straight_pure ()
        | some s => exact hbodies s (by simp)
    | eval e =>
      have hbarrier : e.isIntrinsic "xte_storage_sync" = false := (forall_mem_stmts.mp h).2
      unfold exec
      rw [hbarrier]
      exact (straight_value f e).bind fun _ => straight_pure ()

end Stmt

/-! ### Threads of a block -/

namespace Resumption

theorem Rel.finish {σ α β : Type} {R : α → β → Prop} {r : Resumption σ α} {r' : Resumption σ β} (h : r.Rel R r') :
    R r.finish.1 r'.finish.1 ∧ r.finish.2 = r'.finish.2 := by
  induction h with
  | done h => exact ⟨h, rfl⟩
  | wait h ih => exact ih _

variable {σ ε : Type} {thread : σ → Resumption σ (Except ε Unit)} {threads : List (σ → Resumption σ (Except ε Unit))}
  {s s' : σ} {e : ε}

theorem finish_lockstep_ok (h : thread s = .done (.ok ()) s') :
    (lockstep (thread :: threads) s).finish = (lockstep threads s').finish := by
  rw [lockstep, h]
  rfl

theorem finish_lockstep_error (h : thread s = .done (.error e) s') :
    (lockstep (thread :: threads) s).finish = (.error e, s') := by
  rw [lockstep, h]
  rfl

end Resumption

namespace Stmt

/-- Runs a statement as a thread of its own. -/
def runThread (s : Stmt) (f : Frame) (l : Local) : Run Unit := do
  let (r, m) := ((s.exec f).start l (← get)).finish
  set m
  liftM r.1

theorem on_runThread (s : Stmt) (f : Frame) (l : Local) (m : Machine) :
    Run.on (s.runThread f l) m = (((s.exec f).start l m).finish.1.1, ((s.exec f).start l m).finish.2) :=
  Run.on_step (fun m => (((s.exec f).start l m).finish.1.1, ((s.exec f).start l m).finish.2)) m

/-- Runs a statement once for each coordinate below given extents, one after the other. The threads of a block share
    buffers. -/
def runSerial (s : Stmt) (f : Frame) (env : Env) (extents : List (String × Nat)) : Run Unit :=
  (Func.grid (extents.filter fun e => Func.isBlockTag e.1)).forM fun block => do
    modify fun m => { m with blockBuffers := [] }
    (Func.grid (extents.filter fun e => !Func.isBlockTag e.1)).forM fun coords =>
      s.runThread { f with coords := some (block ++ coords) } { env }

section Agreement

variable {s : Stmt} {f : Frame} {env env' : Env}

theorem runThread_congr {c : Option (List (String × Nat))} (hplain : ∀ t ∈ s.stmts, t.isVirtual = false)
    (h : ∀ i ∈ s.freeIds, env.lookup i = env'.lookup i) (hsome : c.isSome = f.coords.isSome)
    (hcoords : c ≠ f.coords → ∀ t ∈ s.stmts, t.threadRegion? = none) :
    s.runThread { f with coords := c } { env } = s.runThread f { env := env' } := by
  funext m
  obtain ⟨hends, hmachine⟩ := (alike_of_agree hplain hsome hcoords { env } { env := env' } m rfl fun i hi =>
    ⟨h i hi, False.elim⟩).finish
  show Run.on (s.runThread { f with coords := c } { env }) m = Run.on (s.runThread f { env := env' }) m
  rw [on_runThread, on_runThread, hends.result, hmachine]

theorem runSerial_congr (hplain : ∀ t ∈ s.stmts, t.isVirtual = false) (h : ∀ i ∈ s.freeIds, env.lookup i = env'.lookup i)
    (extents : List (String × Nat)) : s.runSerial f env extents = s.runSerial f env' extents := by
  have hsame : ∀ f : Frame, s.runThread f { env } = s.runThread f { env := env' } :=
    fun f => runThread_congr hplain h rfl fun hc => absurd rfl hc
  simp only [runSerial, hsame]

end Agreement

end Stmt

namespace Func

variable {d : Func} {f : Frame} {env : Env}

open Run in
/-- Without barriers the threads of a block run one after the other. -/
theorem runBlock_eq_forM (h : ∀ t ∈ d.body.stmts, t.isBarrier = false) (block : List (String × Nat))
    (threads : List (List (String × Nat))) : d.runBlock f env block threads = (do
      modify fun m => { m with blockBuffers := [] }
      threads.forM fun coords => d.body.runThread { f with coords := some (block ++ coords) } { env }) := by
  have hthreads : ∀ m : Machine, (Resumption.lockstep (threads.map fun coords =>
      d.thread { f with coords := some (block ++ coords) } env) m).finish =
        on (threads.forM fun coords => d.body.runThread { f with coords := some (block ++ coords) } { env }) m := by
    induction threads with
    | nil => exact fun m => rfl
    | cons coords threads ih =>
      intro m
      obtain ⟨r, m', hr, -⟩ := Stmt.straight_exec { f with coords := some (block ++ coords) } h False.elim { env } m
      have hthread : d.thread { f with coords := some (block ++ coords) } env m = .done r.1 m' := by
        show Resumption.bind _ ((d.body.exec _).start _ _) = _
        rw [hr]
        rfl
      have hrun : on (d.body.runThread { f with coords := some (block ++ coords) } { env }) m = (r.1, m') := by
        rw [Stmt.on_runThread, hr]
        rfl
      rw [List.map_cons, List.forM_eq_forM, List.forM_cons, on_bind, hrun]
      rcases r with ⟨e | u, l⟩
      · exact Resumption.finish_lockstep_error hthread
      · rw [Resumption.finish_lockstep_ok hthread]
        exact ih m'
  funext m
  exact (on_step (fun m => (Resumption.lockstep _ m).finish) { m with blockBuffers := [] }).trans (hthreads _)

end Func

end TensorNest

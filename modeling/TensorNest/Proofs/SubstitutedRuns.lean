import TensorNest.Proofs.SharedBuffers
import TensorNest.Proofs.Substitution

/-! # Runs of substituted statements

A statement in which expressions have been put for variables is executed as it is executed before where the variables
have the values of what is put for them (`Stmt.sameThread_exec`). The two threads go side by side: they stop at the same
barriers, and as long as the machine changes alike in between they go on alike (`Resumption.Mirrors`). The machines are
not quite the same, since buffers are shared under the allocations themselves, in which the substitution has been
carried out in one of them (`Machine.subst`).

Together with what is known of expressions and of free variables this is what a substitution is for
(`Subst.runs_updated`). -/

namespace TensorNest

/-! ### Suspended runs -/

namespace Resumption

variable {σ α β γ δ : Type} {I : σ → Prop} {φ : σ → σ} {R : α → β → Prop} {S : γ → δ → Prop}
  {r : Resumption σ α} {r' : Resumption σ β}

/-- Two runs with related results, the second one in the images of the states of the first one: they wait in such states
    as long as they are resumed in such states. -/
inductive Mirrors (I : σ → Prop) (φ : σ → σ) (R : α → β → Prop) : Resumption σ α → Resumption σ β → Prop
  | done {a b s} (hs : I s) (h : R a b) : Mirrors I φ R (done a s) (done b (φ s))
  | wait {s k k'} (hs : I s) (h : ∀ t, I t → Mirrors I φ R (k t) (k' (φ t))) : Mirrors I φ R (wait s k) (wait (φ s) k')

theorem Mirrors.bind {g : α → σ → Resumption σ γ} {g' : β → σ → Resumption σ δ} (h : r.Mirrors I φ R r')
    (hg : ∀ a b s, I s → R a b → (g a s).Mirrors I φ S (g' b (φ s))) : (r.bind g).Mirrors I φ S (r'.bind g') := by
  induction h with
  | done hs h => exact hg _ _ _ hs h
  | wait hs _ ih => exact .wait hs ih

end Resumption

/-! ### Allocations -/

namespace Stmt

variable {s t : Stmt} {A : List Stmt}

/-- The site of an allocation. -/
def site? : Stmt → Option Nat
  | allocate site .. => some site
  | _ => none

/-- The allocations in a statement. -/
def allocations (s : Stmt) : List Stmt :=
  s.stmts.filter (·.site?.isSome)

/-- Each statement of a list stands at a site of its own. -/
def Located (A : List Stmt) : Prop :=
  ∀ a ∈ A, ∀ b ∈ A, a.site? = b.site? → a = b

theorem located_of_nodup (h : (A.map (·.site?)).Nodup) : Located A := fun _ ha _ hb heq =>
  List.inj_on_of_nodup_map h ha hb heq

theorem site?_eq_of_exact (h : Matching.exact.stmt s t) : s.site? = t.site? := by
  unfold Matching.stmt at h
  split at h
  case h_7 =>
    simp only [Bool.and_eq_true, Matching.exact, beq_iff_eq] at h
    rw [site?, site?, h.1.1.1.1.1]
  all_goals first | rfl | cases h

theorem site?_subst (σ : Subst) (s : Stmt) : (s.subst σ).site? = s.site? := by
  cases s with
  | branch _ _ o => cases o <;> rw [subst] <;> rfl
  | _ =>
    rw [subst]
    rfl

/-- A substitution leaves it at that which of the statements at sites of their own match. -/
theorem Located.exact_subst (hA : Located A) (ht : t ∈ A) (hs : s ∈ A) (σ : Subst) :
    Matching.exact.stmt (t.subst σ) (s.subst σ) = Matching.exact.stmt t s := by
  by_cases hsite : t.site? = s.site?
  · obtain rfl := hA t ht s hs hsite
    rw [Matching.exact_reflexive.stmt, Matching.exact_reflexive.stmt]
  · have hput : Matching.exact.stmt (t.subst σ) (s.subst σ) = false := Bool.eq_false_iff.mpr fun h => hsite <| by
      rw [← site?_subst σ t, ← site?_subst σ s, site?_eq_of_exact h]
    rw [hput, Bool.eq_false_iff.mpr fun h => hsite (site?_eq_of_exact h)]

end Stmt

/-! ### Machines -/

namespace Machine

/-- A machine on which buffers are shared under allocations in which a substitution has been carried out. -/
def subst (σ : Subst) (m : Machine) : Machine :=
  m.sharing (m.blockBuffers.map fun b => (b.1.subst σ, b.2)) (m.launchBuffers.map fun b => (b.1.subst σ, b.2))

/-- On a device buffers are shared under some allocations only. -/
def Shares (f : Frame) (A : List Stmt) (m : Machine) : Prop :=
  f.coords.isSome → ∀ b ∈ m.blockBuffers ++ m.launchBuffers, b.1 ∈ A

end Machine

theorem Run.Unshared.on_subst {α : Type} {x : Run α} (h : x.Unshared) (σ : Subst) (m : Machine) :
    x.on (m.subst σ) = ((x.on m).1, (x.on m).2.subst σ) := by
  obtain ⟨hblocks, hlaunches⟩ := h.keeps m
  rw [Machine.subst, h, Machine.subst, hblocks, hlaunches]

theorem Run.Unshared.shares {α : Type} {x : Run α} {f : Frame} {A : List Stmt} {m : Machine} (h : x.Unshared)
    (hm : m.Shares f A) :
    (x.on m).2.Shares f A := by
  obtain ⟨hblocks, hlaunches⟩ := h.keeps m
  rwa [Machine.Shares, hblocks, hlaunches]

/-! ### Threads -/

namespace Subst

variable {α β : Type} {σ : Subst} {f : Frame} {ρ : Env} {A : List Stmt} {v : Var} {a : Value} {e : Expr}

/-- What a thread has of its own before a substitution, where the variables that are replaced have the values of what is
    put for them, and after it. -/
structure Locals (σ : Subst) (f : Frame) (ρ : Env) (l l' : Local) : Prop where
  env : σ.RebindsTo f ρ l'.env l.env
  scopes : f.coords.isSome → l.scopes = l'.scopes

/-- Two threads end alike. -/
structure Ends (σ : Subst) (f : Frame) (ρ : Env) (r r' : Except Error α × Local) : Prop where
  result : σ.SameResult f r.1 r'.1
  own : σ.Locals f ρ r.2 r'.2

/-- A thread does what another one does. -/
def SameThread (σ : Subst) (f : Frame) (ρ : Env) (A : List Stmt) (x y : Thread α) : Prop :=
  ∀ l l' m, σ.Locals f ρ l l' → m.Shares f A →
    (x.start l m).Mirrors (Machine.Shares f A) (Machine.subst σ) (σ.Ends f ρ) (y.start l' (m.subst σ))

theorem SameThread.bind {x y : Thread α} {k k' : α → Thread β} (h : σ.SameThread f ρ A x y)
    (hk : ∀ a, σ.SameThread f ρ A (k a) (k' a)) : σ.SameThread f ρ A (x >>= k) (y >>= k') := by
  intro l l' m hl hm
  rw [Thread.start_bind, Thread.start_bind]
  refine (h l l' m hl hm).bind fun r r' m' hm' hr => ?_
  obtain ⟨r, l₁⟩ := r
  obtain ⟨r', l₁'⟩ := r'
  obtain ⟨hresult, hown⟩ := hr
  cases hresult with
  | error he => exact .done hm' ⟨.error he, hown⟩
  | ok a => exact hk a l₁ l₁' m' hown hm'

theorem sameThread_lift {z z' : Except Error α} (h : σ.SameResult f z z') : σ.SameThread f ρ A (liftM z) (liftM z') := by
  cases h with
  | error he => exact fun _ _ _ hl hm => .done hm ⟨.error he, hl⟩
  | ok a => exact fun _ _ _ hl hm => .done hm ⟨.ok a, hl⟩

theorem sameThread_pure (a : α) : σ.SameThread f ρ A (pure a) (pure a) := fun _ _ _ hl hm => .done hm ⟨.ok a, hl⟩

theorem sameThread_throw (e : Error) : σ.SameThread f ρ A (throw e : Thread α) (throw e) := fun _ _ _ hl hm =>
  .done hm ⟨.refl _, hl⟩

theorem sameThread_step {x y : Run α} (h : ∀ m, m.Shares f A → σ.SameResult f (x.on m).1 (y.on (m.subst σ)).1 ∧
    (y.on (m.subst σ)).2 = (x.on m).2.subst σ ∧
    (x.on m).2.Shares f A) : σ.SameThread f ρ A (Thread.ofRun x) (Thread.ofRun y) := by
  intro l l' m hl hm
  have hstart (z : Run α) (l : Local) (m : Machine) : (Thread.ofRun z).start l m = .done ((z.on m).1, l) (z.on m).2 := rfl
  obtain ⟨hresult, hmachine, hshares⟩ := h m hm
  rw [hstart, hstart, hmachine]
  exact .done hshares ⟨hresult, hl⟩

theorem sameThread_ofRun {x y : Run α} (h : σ.SameRun f x y) (hy : y.Unshared) :
    σ.SameThread f ρ A (Thread.ofRun x) (Thread.ofRun y) := by
  refine sameThread_step fun m hm => ?_
  obtain ⟨hresult, hmachine⟩ := h m
  rw [hy.on_subst, hmachine]
  exact ⟨hresult, rfl, hy.shares hm⟩

theorem sameThread_await : σ.SameThread f ρ A Thread.await Thread.await := fun _ _ _ hl hm =>
  .wait hm fun _ ht => .done ht ⟨.ok (), hl⟩

theorem sameThread_ite {c : Prop} [Decidable c] {x x' y y' : Thread α} (h : c → σ.SameThread f ρ A x x')
    (h' : ¬c → σ.SameThread f ρ A y y') : σ.SameThread f ρ A (if c then x else y) (if c then x' else y') := by
  by_cases hc : c
  · simpa only [if_pos hc] using h hc
  · simpa only [if_neg hc] using h' hc

theorem sameThread_get_bind {k k' : Local → Thread β} (h : ∀ l l', σ.Locals f ρ l l' → σ.SameThread f ρ A (k l) (k' l')) :
    σ.SameThread f ρ A ((get : Thread Local) >>= k) ((get : Thread Local) >>= k') :=
      fun l l' m hl hm => h l l' hl l l' m hl hm

theorem sameThread_modify {g g' : Local → Local} (h : ∀ l l', σ.Locals f ρ l l' → σ.Locals f ρ (g l) (g' l')) :
    σ.SameThread f ρ A (modify g : Thread PUnit) (modify g') := fun l l' _ hl hm => .done hm ⟨.ok _, h l l' hl⟩

theorem SameThread.ensuring {x y last last' : Thread Unit} (h : σ.SameThread f ρ A x y)
    (hlast : σ.SameThread f ρ A last last') :
    σ.SameThread f ρ A (Thread.ensuring x last) (Thread.ensuring y last') := by
  intro l l' m hl hm
  rw [Thread.start_ensuring, Thread.start_ensuring]
  refine (h l l' m hl hm).bind fun r r' m' hm' hr => ?_
  refine (hlast r.2 r'.2 m' hr.own hm').bind fun t t' m'' hm'' ht => ?_
  obtain ⟨t, l₁⟩ := t
  obtain ⟨t', l₁'⟩ := t'
  obtain ⟨hresult, hown⟩ := ht
  cases hresult with
  | error he => exact .done hm'' ⟨.error he, hown⟩
  | ok u => exact .done hm'' ⟨hr.result, hown⟩

theorem sameThread_forRange {x y : Int → Thread Unit} (h : ∀ i, σ.SameThread f ρ A (x i) (y i)) (first : Int) (n : Nat) :
    σ.SameThread f ρ A (Thread.forRange x first n) (Thread.forRange y first n) := by
  induction n generalizing first with
  | zero => exact sameThread_pure ()
  | succ n ih => exact (h first).bind fun _ => ih (first + 1)

/-! Variables. -/

theorem sameThread_bind (hv : σ.Leaves v.id) (a : Value) : σ.SameThread f ρ A (Thread.bind v a) (Thread.bind v a) :=
  sameThread_modify fun _ _ hl => ⟨hl.env.set hv, hl.scopes⟩

theorem sameThread_unbind (hv : σ.Leaves v.id) : σ.SameThread f ρ A (Thread.unbind v) (Thread.unbind v) :=
  sameThread_modify fun _ _ hl => ⟨hl.env.erase hv, hl.scopes⟩

theorem sameThread_release (hv : σ.Leaves v.id) : σ.SameThread f ρ A (Thread.release v) (Thread.release v) := by
  refine sameThread_get_bind fun l l' hl => ?_
  have hget : l.env.get? v = l'.env.get? v := hl.env.rest v.id hv.kept
  rw [hget]
  split
  · exact sameThread_unbind hv
  · exact sameThread_throw _

theorem sameThread_scope (id : Nat) {scope scope' : String} (h : f.coords.isSome → scope' = scope) :
    σ.SameThread f ρ A (modify fun (l : Local) => { l with scopes := (id, scope) :: l.scopes } : Thread PUnit)
      (modify fun (l : Local) => { l with scopes := (id, scope') :: l.scopes }) :=
  sameThread_modify fun _ _ hl => ⟨hl.env, fun hdevice =>
    congrArg₂ (fun scope scopes => (id, scope) :: scopes) (h hdevice).symm (hl.scopes hdevice)⟩

/-! Expressions. -/

theorem sameThread_value (he : σ.Suits ρ e) : σ.SameThread f ρ A (Thread.value f e) (Thread.value f (e.subst σ)) :=
  sameThread_get_bind fun _ l' hl => sameThread_ofRun (Expr.sameRun_eval he hl.env).1 (Expr.unshared_eval f _ l'.env)

theorem sameThread_holds (he : σ.Suits ρ e) : σ.SameThread f ρ A (Thread.holds f e) (Thread.holds f (e.subst σ)) :=
  (sameThread_value he).bind fun _ => sameThread_ofRun (.refl _)
    (Run.unshared_get (fun _ => Run.compositional_unshared.of_lift _) fun _ _ _ => rfl)

theorem sameThread_integer (he : σ.Suits ρ e) : σ.SameThread f ρ A (Thread.integer f e) (Thread.integer f (e.subst σ)) :=
  (sameThread_value he).bind fun _ => sameThread_ofRun (.refl _)
    (Run.unshared_get (fun _ => Run.compositional_unshared.of_lift _) fun _ _ _ => rfl)

theorem sameThread_product {es : List Expr} (h : ∀ e ∈ es, σ.Suits ρ e) (n : Int) :
    σ.SameThread f ρ A (Thread.product f n es) (Thread.product f n (es.map (·.subst σ))) := by
  induction es generalizing n with
  | nil => exact sameThread_pure n
  | cons e es ih =>
    obtain ⟨he, hes⟩ := List.forall_mem_cons.mp h
    exact (sameThread_integer he).bind fun k => ih hes (n * k)

/-! Allocations. -/

theorem find?_subst {s : Stmt} {bs : List (Stmt × View)} (hA : Stmt.Located A) (hs : s ∈ A) (h : ∀ b ∈ bs, b.1 ∈ A) :
    ((bs.map fun b => (b.1.subst σ, b.2)).find? fun b => Matching.exact.stmt b.1 (s.subst σ)).map (·.2) =
      (bs.find? fun b => Matching.exact.stmt b.1 s).map (·.2) := by
  induction bs with
  | nil => rfl
  | cons b bs ih =>
    obtain ⟨hb, hbs⟩ := List.forall_mem_cons.mp h
    rw [List.map_cons, List.find?_cons, List.find?_cons, hA.exact_subst hb hs σ]
    split
    · rfl
    · exact ih hbs

theorem sameThread_buffer {s : Stmt} (hs : f.coords.isSome → s ∈ A ∧ Stmt.Located A) (v : Var) (e : ElemType) (size : Nat) :
    σ.SameThread f ρ A (Thread.buffer f s v e size) (Thread.buffer f (s.subst σ) v e size) := by
  refine sameThread_get_bind fun l l' hl => ?_
  have hfresh : Run.Unshared (onMemory fun memory => memory.addZeros e size) := Run.unshared_onMemory _
  by_cases hdevice : f.coords.isSome
  · obtain ⟨hmem, hA⟩ := hs hdevice
    rw [hl.scopes hdevice]
    refine sameThread_step fun m hm => ?_
    have hblocks : ((m.subst σ).blockBuffers.find? fun b => Matching.exact.stmt b.1 (s.subst σ)).map (·.2) =
        (m.blockBuffers.find? fun b => Matching.exact.stmt b.1 s).map (·.2) :=
      find?_subst hA hmem fun b hb => hm hdevice b (List.mem_append_left _ hb)
    have hlaunches : ((m.subst σ).launchBuffers.find? fun b => Matching.exact.stmt b.1 (s.subst σ)).map (·.2) =
        (m.launchBuffers.find? fun b => Matching.exact.stmt b.1 s).map (·.2) :=
      find?_subst hA hmem fun b hb => hm hdevice b (List.mem_append_right _ hb)
    have hget (k : Machine → Run View) (m : Machine) : (get >>= k).on m = (k m).on m := rfl
    have hadded : ∀ a : View, ∀ b ∈ (s, a) :: (m.blockBuffers ++ m.launchBuffers), b.1 ∈ A := fun a =>
      List.forall_mem_cons.mpr ⟨hmem, hm hdevice⟩
    rw [hget, hget]
    dsimp only
    split
    · rw [hblocks]
      generalize (m.blockBuffers.find? _).map _ = known
      cases known with
      | some a => exact ⟨.refl _, rfl, hm⟩
      | none => exact ⟨.refl _, rfl, fun _ => hadded _⟩
    · split
      · rw [hlaunches]
        generalize (m.launchBuffers.find? _).map _ = known
        cases known with
        | some a => exact ⟨.refl _, rfl, hm⟩
        | none => exact ⟨.refl _, rfl, fun _ b hb => hadded _ b (List.perm_middle.subset hb)⟩
      · exact ⟨by rw [hfresh.on_subst]; exact .refl _, by rw [hfresh.on_subst], hfresh.shares hm⟩
  · simp only [hdevice, Bool.false_and, Bool.false_eq_true, if_false]
    exact sameThread_ofRun (.refl _) (Run.unshared_get (fun _ => hfresh) fun _ _ _ => rfl)

end Subst

/-! ### Statements -/

namespace Subst

/-- A substitution can be carried out before a statement is executed, as far as its bodies are not concerned: it
    captures no variable and can be carried out in the expressions of the statement, a variable that stands as a buffer
    can do so, it makes no barrier of a variable, and on a device it leaves the names of storage scopes. -/
structure Admits (σ : Subst) (f : Frame) (ρ : Env) (s : Stmt) : Prop where
  binder : ∀ v ∈ s.binder?, σ.Leaves v.id
  parts : ∀ e ∈ s.exprParts, σ.Suits ρ e
  buffer : ∀ v value index pred, s = .store (.var v) value index pred → σ.Buffer ρ v
  barrier : ∀ v, s = .eval (.var v) → ∀ r, σ.put? v.id = some r → r.isIntrinsic "xte_storage_sync" = false
  scope : f.coords.isSome → ∀ v e body, s = .attr (.var v) "storage_scope" e body →
    Thread.scopeName (e.subst σ) = Thread.scopeName e

end Subst

namespace Stmt

variable {σ : Subst} {f : Frame} {ρ : Env} {A : List Stmt} {s : Stmt}

theorem isIntrinsic_subst {e : Expr} {name : String}
    (h : ∀ v, e = .var v → ∀ r, σ.put? v.id = some r → r.isIntrinsic name = false) :
    (e.subst σ).isIntrinsic name = e.isIntrinsic name := by
  cases e with
  | var v =>
    rw [Expr.subst, Subst.find?_eq_put?]
    cases hput : σ.put? v.id with
    | none => rfl
    | some r => exact h v rfl r hput
  | _ => rfl

/-- After a substitution a statement does what it does where the variables that are replaced have the values of what is
    put for them. -/
theorem sameThread_exec (h : ∀ t ∈ s.stmts, σ.Admits f ρ t ∧ (t.site?.isSome → f.coords.isSome → t ∈ A ∧ Located A)) :
    σ.SameThread f ρ A (s.exec f) ((s.subst σ).exec f) := by
  induction s using induct_bodies with
  | step s ih =>
    obtain ⟨hbodies, hown, hapart⟩ := forall_mem_stmts.mp h
    have hbody : ∀ b ∈ s.bodies, σ.SameThread f ρ A (b.exec f) ((b.subst σ).exec f) := fun b hb => ih b hb (hbodies b hb)
    cases s with
    | bind v e body =>
      have hv : σ.Leaves v.id := hown.binder v rfl
      unfold subst exec
      exact (Subst.sameThread_value (hown.parts e (List.mem_singleton_self _))).bind fun x =>
        (Subst.sameThread_ofRun (.refl _) (Run.compositional_unshared.of_place x)).bind fun a =>
          (Subst.sameThread_bind hv a).bind fun _ =>
            (hbody body (List.mem_singleton_self _)).ensuring (Subst.sameThread_release hv)
    | attr subject key e body =>
      have hinner := hbody body (List.mem_singleton_self _)
      unfold subst exec
      refine Subst.sameThread_ite (fun hkey => ?_) fun _ => Subst.sameThread_ite (fun hkey => ?_) fun _ => hinner
      · obtain rfl := beq_iff_eq.mp hkey
        cases subject with
        | var v => exact (Subst.sameThread_scope v.id fun hdevice => hown.scope hdevice v e body rfl).bind fun _ => hinner
        | _ => exact hinner
      · obtain rfl := beq_iff_eq.mp hkey
        cases subject with
        | axis iv =>
          have hv : σ.Leaves iv.var.id := hown.binder iv.var rfl
          refine (Subst.sameThread_lift (.refl _)).bind fun c =>
            (Subst.sameThread_integer (hown.parts e (List.mem_singleton_self _))).bind fun n =>
              Subst.sameThread_ite (fun _ => ?_) fun _ => Subst.sameThread_pure ()
          exact (Subst.sameThread_bind hv _).bind fun _ => hinner.ensuring (Subst.sameThread_release hv)
        | _ => exact Subst.sameThread_throw _
    | assert cond message body =>
      unfold subst exec
      refine (Subst.sameThread_holds (hown.parts cond List.mem_cons_self)).bind fun holds => ?_
      split
      · exact hbody body (List.mem_singleton_self _)
      · exact (Subst.sameThread_value (hown.parts message (by simp))).bind fun x => Subst.sameThread_ofRun (.refl _)
          (Run.unshared_get (fun _ => Run.compositional_unshared.failure _) fun _ _ _ => rfl)
    | loop v first extent kind body =>
      have hv : σ.Leaves v.id := hown.binder v rfl
      unfold subst exec
      refine (Subst.sameThread_integer (hown.parts first List.mem_cons_self)).bind fun start =>
        (Subst.sameThread_integer (hown.parts extent (by simp))).bind fun count => ?_
      refine (Subst.sameThread_forRange (fun i => ?_) start count.toNat).ensuring (Subst.sameThread_unbind hv)
      have hindex : Run.Unshared (do place (← convertTo v.dtype (.number (.int i)))) :=
        (Run.compositional_unshared.of_convertTo _ _).bind fun x => Run.compositional_unshared.of_place x
      exact (Subst.sameThread_ofRun (.refl _) hindex).bind fun a => (Subst.sameThread_bind hv a).bind fun _ =>
        hbody body (List.mem_singleton_self _)
    | store buffer value index pred =>
      unfold subst exec
      refine Subst.sameThread_get_bind fun l l' hl => ?_
      have hbuffer := Subst.sameResult_buffer (b := buffer) hl.env fun v hv => hown.buffer v value index pred (by rw [hv])
      refine (Subst.sameThread_lift hbuffer).bind fun a =>
        (Subst.sameThread_value (hown.parts index (by simp))).bind fun i =>
        (Subst.sameThread_value (hown.parts value (by simp))).bind fun x => ?_
      cases pred with
      | none => exact Subst.sameThread_ofRun (Subst.sameRun_storeTo _ _ _ _ _) (Run.unshared_storeTo _ _ _ _ _ _)
      | some p =>
        exact (Subst.sameThread_value (hown.parts p (by simp))).bind fun mask =>
          Subst.sameThread_ofRun (Subst.sameRun_storeTo _ _ _ _ _) (Run.unshared_storeTo _ _ _ _ _ _)
    | provide | realize | prefetch => exact Subst.sameThread_throw _
    | allocate site v t extents cond body =>
      have hv : σ.Leaves v.id := hown.binder v rfl
      have hrest (e : ElemType) (size : Int) := (Subst.sameThread_buffer (ρ := ρ) (hapart rfl) v e size.toNat).bind fun a =>
        (Subst.sameThread_bind hv (.array a)).bind fun _ =>
          (hbody body (List.mem_singleton_self _)).ensuring (Subst.sameThread_unbind hv)
      unfold exec
      refine (Subst.sameThread_product (fun e he => hown.parts e (List.mem_append_left _ he)) _).bind fun size =>
        (Subst.sameThread_lift (.refl _)).bind fun e => ?_
      split
      · exact (Subst.sameThread_throw _).bind fun _ => hrest e size
      · exact hrest e size
    | seq ss =>
      have hall : ∀ ts ⊆ ss, σ.SameThread f ρ A (exec.execAll f ts) (exec.execAll f (subst.onStmts σ ts)) := by
        intro ts hts
        induction ts with
        | nil => exact Subst.sameThread_pure ()
        | cons t ts iht =>
          obtain ⟨ht, hts⟩ := List.cons_subset.mp hts
          exact (hbody t ht).bind fun _ => iht hts
      exact hall ss (List.Subset.refl ss)
    | branch cond onTrue onFalse =>
      have hcond : σ.SameThread f ρ A (Thread.holds f cond) (Thread.holds f (cond.subst σ)) :=
        Subst.sameThread_holds (hown.parts cond List.mem_cons_self)
      cases onFalse with
      | none =>
        unfold subst exec
        refine hcond.bind fun holds => ?_
        split
        · exact hbody onTrue List.mem_cons_self
        · exact Subst.sameThread_pure ()
      | some onFalse =>
        unfold subst exec
        refine hcond.bind fun holds => ?_
        split
        · exact hbody onTrue List.mem_cons_self
        · exact hbody onFalse (by simp)
    | eval e =>
      unfold subst exec
      rw [isIntrinsic_subst fun v hv => hown.barrier v (by rw [hv])]
      split
      · exact Subst.sameThread_await
      · exact (Subst.sameThread_value (hown.parts e (List.mem_singleton_self _))).bind fun _ => Subst.sameThread_pure ()

end Stmt

/-! ### Substitution -/

namespace Subst

namespace Shifted

def i : Var := ⟨0, "i", .int32⟩

def n : Var := ⟨1, "n", .int32⟩

def array : Var := ⟨2, "A", .handle⟩

def j : Var := ⟨3, "j", .int32⟩

def shift : Subst := [(n, .bin .add (.var i) (.int32 1))]

def doubled : Expr := .bin .mul (.var n) (.int32 2)

def buffer : Var := ⟨5, "B", .handle⟩

/-- Numbers the elements of an array that the threads of a block share. -/
def fill (site : Nat) : Stmt :=
  .attr (.var buffer) "storage_scope" (.str "shared") (.allocate site buffer .int32 [.var n] (.const (.bool true) .bool)
    (.loop j (.int32 0) (.var n) .serial (.store (.var buffer) (.var j) (.var j) none)))

/-- Two arrays that are built alike. -/
def fills : Stmt := .seq [fill 6, fill 7]

def frame : Frame := { name := "shift", call := fun _ _ => pure () }

def device : Frame := { frame with coords := some [] }

def env : Env := [(i.id, .int32 2), (array.id, .array ⟨0, .int 32, 0, [3], [1]⟩)]

def machine : Machine := { memory := #[#[.int 7, .int 7, .int 7]] }

theorem put?_shift {x : Nat} {r : Expr} : shift.put? x = some r ↔ x = n.id ∧ r = .bin .add (.var i) (.int32 1) :=
  put?_single

theorem leaves_shift {x : Nat} (hx : x ≠ n.id) (hi : x ≠ i.id) : shift.Leaves x :=
  leaves_single hx (by simpa [Expr.freeIds, Expr.int32] using hi)

theorem steady_shift : shift.Steady device env :=
  steady_single rfl ⟨.int32 3, rfl⟩

theorem buffer_shift (v : Var) : shift.Buffer (shift.update device env) v := by
  intro r hr
  obtain ⟨hid, rfl⟩ := put?_shift.mp hr
  have hget : (shift.update device env).get? v = some (.int32 3) := by
    rw [Env.get?, hid]
    rfl
  refine .inr fun a ha => ?_
  rw [hget] at ha
  cases ha

theorem suits_shift {e : Expr} (hbound : e.boundVars = []) (hvars : ∀ v ∈ e.vars, v.id = n.id → v = n) :
    shift.Suits (shift.update device env) e where
  bound x hx := absurd (hbound ▸ hx) List.not_mem_nil
  typed v hv r hr := by
    obtain ⟨hid, rfl⟩ := put?_shift.mp hr
    rw [hvars v hv hid]
    rfl
  buffers _ v _ _ _ := buffer_shift v

/-- The substitution can be carried out in a statement that keeps its storage scope and evaluates no variable alone. -/
theorem admits_shift {s : Stmt} (hbinder : ∀ v ∈ s.binder?, v.id ≠ n.id ∧ v.id ≠ i.id)
    (hparts : ∀ e ∈ s.exprParts, e.boundVars = [] ∧ ∀ v ∈ e.vars, v.id = n.id → v = n) (heval : ∀ v, s ≠ .eval (.var v))
    (hscope : ∀ v e body, s = .attr (.var v) "storage_scope" e body → e = .str "shared") :
    shift.Admits device (shift.update device env) s where
  binder v hv := leaves_shift (hbinder v hv).1 (hbinder v hv).2
  parts e he := suits_shift (hparts e he).1 (hparts e he).2
  buffer v _ _ _ _ := buffer_shift v
  barrier v hv := absurd hv (heval v)
  scope _ v e body hs := by
    obtain rfl := hscope v e body hs
    rfl

theorem admits_fills : ∀ t ∈ fills.stmts, shift.Admits device (shift.update device env) t := by
  have hfill (site : Nat) : ∀ t ∈ (fill site).stmts, shift.Admits device (shift.update device env) t := by
    refine Stmt.forall_mem_stmts.mpr ⟨List.forall_mem_singleton.mpr (Stmt.forall_mem_stmts.mpr
      ⟨List.forall_mem_singleton.mpr (Stmt.forall_mem_stmts.mpr ⟨List.forall_mem_singleton.mpr (Stmt.forall_mem_stmts.mpr
        ⟨nofun, ?_⟩), ?_⟩), ?_⟩), ?_⟩
    · exact admits_shift nofun (by decide) nofun nofun
    · exact admits_shift (by decide) (by decide) nofun nofun
    · refine admits_shift ?_ (List.forall_mem_cons.mpr ⟨by decide, List.forall_mem_singleton.mpr (by decide)⟩) nofun nofun
      rintro v hv
      obtain rfl := Option.some.inj hv
      decide
    · refine admits_shift nofun (List.forall_mem_singleton.mpr (by decide)) nofun fun v e body h => ?_
      cases h
      rfl
  refine Stmt.forall_mem_stmts.mpr ⟨?_, admits_shift nofun nofun nofun nofun⟩
  exact List.forall_mem_cons.mpr ⟨hfill 6, List.forall_mem_singleton.mpr (hfill 7)⟩

def narrow : Subst := [(n, .const (.int 100) ⟨.int, 8, 1⟩)]

def rename : Subst := [(n, .var i)]

def hint : Subst := [(array, .pureIntrinsic .handle "likely" [.var array])]

def barrier : Subst := [(n, .intrinsic .int32 "xte_storage_sync" [.str "shared"])]

/-- The first element of an array. -/
def first (v : Var) : Expr := .load .int32 (.var v) (.int32 0) none

/-- A sum of as many numbers as a variable says. -/
def sum : Expr := .reduce ⟨[], [], [], [.int32 0]⟩ [.var j] [⟨some ⟨.int32 0, .var n⟩, j, .reduction, ""⟩] none 0

def scope : Var := ⟨4, "scope", .handle⟩

def share : Subst := [(scope, .str "shared")]

def allocation : Stmt := .allocate 0 buffer .int32 [.int32 1] (.const (.bool true) .bool) (.eval (.int32 0))

/-- Allocates a buffer in a storage scope that a variable names. -/
def hold : Stmt := .attr (.var buffer) "storage_scope" (.var scope) allocation

end Shifted

end Subst

end TensorNest

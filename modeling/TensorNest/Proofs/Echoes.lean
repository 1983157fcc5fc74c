import TensorNest.Proofs.Moments
import TensorNest.Proofs.SubstitutedRuns

/-! # Threads that echo each other

Two threads on the host, each run to its end from one machine, echo each other if they end on one machine, with related
results and related variables, or both with a failure, of which the texts may differ. A thread that is only wanted where
another one succeeds echoes it loosely: of a failure of the other one nothing is said. -/

namespace TensorNest

namespace Run

variable {α β : Type} {x y z : Run α} {m : Machine}

/-- Two runs from one machine that end on one machine, with one result or both with a failure. -/
structure Echoes (m : Machine) (x y : Run α) : Prop where
  result : (on y m).1.toOption = (on x m).1.toOption
  machine : (on y m).2 = (on x m).2

theorem Echoes.refl (x : Run α) : Echoes m x x := ⟨rfl, rfl⟩

theorem Echoes.cases (h : Echoes m x y) : (∃ a m', on x m = (.ok a, m') ∧ on y m = (.ok a, m')) ∨
    ∃ e e' m', on x m = (.error e, m') ∧ on y m = (.error e', m') := by
  obtain ⟨hresult, hmachine⟩ := h
  generalize on x m = r at hresult hmachine
  generalize on y m = r' at hresult hmachine
  obtain ⟨z, m'⟩ := r
  obtain ⟨z', m''⟩ := r'
  obtain rfl : m'' = m' := hmachine
  cases z with
  | error e =>
    cases z' with
    | error e' => exact .inr ⟨e, e', m'', rfl, rfl⟩
    | ok a => cases hresult
  | ok a =>
    cases z' with
    | error e' => cases hresult
    | ok a' =>
      obtain rfl := Option.some.inj hresult
      exact .inl ⟨a', m'', rfl, rfl⟩

end Run

theorem Subst.SameResult.toOption_eq {α : Type} {σ : Subst} {f : Frame} {z z' : Except Error α} (h : σ.SameResult f z z') :
    z'.toOption = z.toOption := by
  cases h <;> rfl

theorem Subst.SameRun.echoes {α : Type} {σ : Subst} {f : Frame} {x y : Run α} (h : σ.SameRun f x y) (m : Machine) :
    Run.Echoes m x y := by
  obtain ⟨hresult, hmachine⟩ := h m
  exact ⟨hresult.toOption_eq, hmachine.symm⟩

/-! ### Threads -/

namespace Thread

variable {α β γ δ : Type} {strict : Prop} {Q : α → β → Prop} {Q' : γ → δ → Prop} {R R' : Env → Env → Prop} {f : Frame}
  {l l' : Local}
  {m : Machine} {x : Thread α} {y : Thread β} {v : Var} {a : Value}

/-- Two ends of threads on one machine, with related results and related variables, or both with a failure. Unless the
    echo is strict, after a failure of the first thread any end will do. -/
inductive Echo (strict : Prop) (Q : α → β → Prop) (R : Env → Env → Prop) :
    (Except Error α × Local) × Machine → (Except Error β × Local) × Machine → Prop
  | ok {a b l l' m} (hQ : Q a b) (hR : R l.env l'.env) : Echo strict Q R ((.ok a, l), m) ((.ok b, l'), m)
  | error {e e' l l' m} (hR : R l.env l'.env) : Echo strict Q R ((.error e, l), m) ((.error e', l'), m)
  | lost {e l m r'} (h : ¬strict) : Echo strict Q R ((.error e, l), m) r'

/-- From states of their own on one machine, a thread does what another one does. -/
def Echoes (strict : Prop) (Q : α → β → Prop) (R : Env → Env → Prop) (l l' : Local) (m : Machine) (x : Thread α)
    (y : Thread β) : Prop :=
  Echo strict Q R (x.ends l m) (y.ends l' m)

theorem Echo.mono {Q₁ : α → β → Prop} {r : (Except Error α × Local) × Machine} {r' : (Except Error β × Local) × Machine}
    (h : Echo strict Q R r r') (hQ : ∀ a b, Q a b → Q₁ a b) (hR : ∀ ρ ρ', R ρ ρ' → R' ρ ρ') : Echo strict Q₁ R' r r' := by
  cases h with
  | ok h hl => exact .ok (hQ _ _ h) (hR _ _ hl)
  | error hl => exact .error (hR _ _ hl)
  | lost h => exact .lost h

/-- What is known of the variables at the end of the second thread can be added. -/
theorem Echoes.also {P : Env → Prop} (h : Echoes strict Q R l l' m x y) (hP : P (y.ends l' m).1.2.env) :
    Echoes strict Q (fun ρ ρ' => R ρ ρ' ∧ P ρ') l l' m x y := by
  unfold Echoes at h ⊢
  generalize x.ends l m = r at h
  generalize y.ends l' m = r' at h hP
  cases h with
  | ok h hl => exact .ok h ⟨hl, hP⟩
  | error hl => exact .error ⟨hl, hP⟩
  | lost h => exact .lost h

theorem Echoes.trans {l₁ : Local} {y₁ z : Thread α} {R₁ : Env → Env → Prop} {x : Thread α}
    (h : Echoes strict Eq R l l₁ m x y₁)
    (h' : Echoes strict Eq R₁ l₁ l' m y₁ z) : Echoes strict Eq (fun ρ ρ' => ∃ ρ₁, R ρ ρ₁ ∧ R₁ ρ₁ ρ') l l' m x z := by
  unfold Echoes at h h' ⊢
  generalize x.ends l m = r at h
  generalize y₁.ends l₁ m = r₁ at h h'
  generalize z.ends l' m = r' at h'
  cases h with
  | ok h hl =>
    cases h' with | ok h' hl'
    exact .ok (h.trans h') ⟨_, hl, hl'⟩
  | error hl =>
    cases h' with
    | error hl' => exact .error ⟨_, hl, hl'⟩
    | lost h => exact .lost h
  | lost h => exact .lost h

theorem Echoes.bind {k : α → Thread γ} {k' : β → Thread δ} (h : Echoes strict Q R l l' m x y)
    (hk : ∀ a b l₁ l₁' m₁, x.ends l m = ((.ok a, l₁), m₁) → y.ends l' m = ((.ok b, l₁'), m₁) → Q a b → R l₁.env l₁'.env →
      Echoes strict Q' R l₁ l₁' m₁ (k a) (k' b)) :
    Echoes strict Q' R l l' m (x >>= k) (y >>= k') := by
  unfold Echoes at h ⊢
  rw [ends_bind, ends_bind]
  generalize x.ends l m = r at h hk
  generalize y.ends l' m = r' at h hk
  cases h with
  | ok h hl => exact hk _ _ _ _ _ rfl rfl h hl
  | error hl => exact .error hl
  | lost h => exact .lost h

theorem echoes_pure {a : α} {b : β} (hQ : Q a b) (hR : R l.env l'.env) : Echoes strict Q R l l' m (pure a) (pure b) :=
    .ok hQ hR

theorem echoes_throw {e e' : Error} (hR : R l.env l'.env) : Echoes strict Q R l l' m (throw e) (throw e') := .error hR

theorem echoes_lift {z z' : Except Error α} (h : z'.toOption = z.toOption) (hR : R l.env l'.env) :
    Echoes strict Eq R l l' m (liftM z : Thread α) (liftM z') := by
  unfold Echoes
  rw [ends_lift, ends_lift]
  cases z <;> cases z' <;> simp only [Except.toOption] at h
  · exact .error hR
  · cases h
  · cases h
  · exact .ok (Option.some.inj h.symm) hR

theorem ends_lift_ok {z : Except Error α} {l₁ : Local} {m₁ : Machine} {a : α}
    (h : (liftM z : Thread α).ends l m = ((.ok a, l₁), m₁)) :
    z = .ok a ∧ l₁ = l ∧ m₁ = m := by
  rw [ends_lift] at h
  cases h
  exact ⟨rfl, rfl, rfl⟩

theorem echoes_ofRun {x y : Run α} (h : Run.Echoes m x y) (hR : R l.env l'.env) :
    Echoes strict Eq R l l' m (ofRun x) (ofRun y) := by
  unfold Echoes
  rw [ends_ofRun, ends_ofRun]
  obtain ⟨a, m', hx, hy⟩ | ⟨e, e', m', hx, hy⟩ := h.cases
  · rw [hx, hy]
    exact .ok rfl hR
  · rw [hx, hy]
    exact .error hR

theorem echoes_await (hR : R l.env l'.env) : Echoes strict Eq R l l' m await await := .ok rfl hR

theorem ends_get_bind (k : Local → Thread β) (l : Local) (m : Machine) :
    ((get : Thread Local) >>= k).ends l m = (k l).ends l m := rfl

/-! Deeds. -/

theorem ends_closing (x : Thread α) (last : Thread Unit) (l : Local) (m : Machine) :
    (closing x last).ends l m =
      match last.ends (x.ends l m).1.2 (x.ends l m).2 with
      | ((.ok (), l'), m') => (((x.ends l m).1.1, l'), m')
      | ((.error e, l'), m') => ((.error e, l'), m') := by
  unfold ends
  rw [start_closing, Resumption.finish_bind, Resumption.finish_bind]
  rcases (last.start (x.start l m).finish.1.2 (x.start l m).finish.2).finish with ⟨⟨_ | _, l'⟩, m'⟩ <;> rfl

theorem Echoes.closing {last last' : Thread Unit} (h : Echoes strict Q R' l l' m x y)
    (hlast : ∀ l₁ l₁' m₁, R' l₁.env l₁'.env → Echoes strict Eq R l₁ l₁' m₁ last last') :
    Echoes strict Q R l l' m (closing x last) (closing y last') := by
  unfold Echoes at h ⊢
  rw [ends_closing, ends_closing]
  generalize x.ends l m = r at h
  generalize y.ends l' m = r' at h
  cases h with
  | @ok a b l₁ l₁' m₁ h hl =>
    have hlast := hlast l₁ l₁' m₁ hl
    unfold Echoes at hlast
    dsimp only
    generalize last.ends l₁ m₁ = t at hlast
    generalize last'.ends l₁' m₁ = t' at hlast
    cases hlast with
    | ok _ hl => exact .ok h hl
    | error hl => exact .error hl
    | lost h => exact .lost h
  | @error e e' l₁ l₁' m₁ hl =>
    have hlast := hlast l₁ l₁' m₁ hl
    unfold Echoes at hlast
    dsimp only
    generalize last.ends l₁ m₁ = t at hlast
    generalize last'.ends l₁' m₁ = t' at hlast
    cases hlast with
    | ok _ hl => exact .error hl
    | error hl => exact .error hl
    | lost h => exact .lost h
  | @lost e l₁ m₁ _ h =>
    dsimp only
    rcases last.ends l₁ m₁ with ⟨⟨_ | _, _⟩, _⟩ <;> exact .lost h

/-- What is done with the deeds of one thread at its end need not be done with those of the other one. -/
theorem Echoes.closing_left (h : Echoes strict Q R' l l' m x y) (hR : ∀ ρ ρ', R' ρ ρ' → R (ρ.erase v) ρ') :
    Echoes strict Q R l l' m (Thread.closing x (unbind v)) y := by
  have hunbind (l : Local) (m : Machine) : (unbind v).ends l m = ((.ok (), { l with env := l.env.erase v }), m) := rfl
  unfold Echoes at h ⊢
  rw [ends_closing, hunbind]
  dsimp only
  generalize x.ends l m = r at h
  generalize y.ends l' m = r' at h
  cases h with
  | ok h hl => exact .ok h (hR _ _ hl)
  | error hl => exact .error (hR _ _ hl)
  | lost h => exact .lost h

theorem Erases.ends_ok {x : Thread α} {y : Thread Unit} {a : α} {l₁ : Local} {m₁ : Machine} (h : Erases x y)
    (hx : x.ends l m = ((.ok a, l₁), m₁)) : y.ends l m = ((.ok (), l₁), m₁) := by
  unfold ends at hx ⊢
  rw [h l m, Resumption.finish_bind, hx]
  rfl

/-- Deeds for a number of consecutive integers. -/
theorem Echoes.deedsOfRange {x y : Int → Thread (List Deed)} {first : Int} {n : Nat} (hR : R l.env l'.env)
    (h : ∀ k < n, ∀ es l₁ l₁' m₁, (deedsOfRange x first k).ends l m = ((.ok es, l₁), m₁) → R l₁.env l₁'.env →
      Echoes strict Eq R l₁ l₁' m₁ (x (first + k)) (y (first + k))) :
    Echoes strict Eq R l l' m (deedsOfRange x first n) (deedsOfRange y first n) := by
  induction n generalizing first l l' m with
  | zero => exact echoes_pure rfl hR
  | succ n ih =>
    have hfirst : Echoes strict Eq R l l' m (x first) (y first) := by simpa using h 0 n.succ_pos [] l l' m rfl hR
    refine hfirst.bind ?_
    rintro es _ l₁ l₁' m₁ hx - rfl hR₁
    refine (ih hR₁ fun k hk es' l₂ l₂' m₂ hturns hR₂ => ?_).bind ?_
    · have hnext := h (k + 1) (Nat.succ_lt_succ hk) (es ++ es') l₂ l₂' m₂ (by
        rw [Thread.deedsOfRange, ends_bind, hx]
        dsimp only
        rw [ends_bind, hturns]
        rfl) hR₂
      rwa [Int.natCast_succ, Int.add_comm k, ← Int.add_assoc] at hnext
    · rintro es' _ l₂ l₂' m₂ - - rfl hR₂
      exact echoes_pure rfl hR₂

end Thread

/-! ### Expressions -/

namespace Env

/-- Related environments have one value of a variable, and stay related where it is bound and removed. -/
structure Shares (R : Env → Env → Prop) (v : Var) : Prop where
  get : ∀ ρ ρ', R ρ ρ' → ρ'.get? v = ρ.get? v
  set : ∀ ρ ρ' a, R ρ ρ' → R (ρ.set v a) (ρ'.set v a)
  erase : ∀ ρ ρ', R ρ ρ' → R (ρ.erase v) (ρ'.erase v)

end Env

/-- An expression stands for another one where the variables are related. -/
structure Expr.Echoes (f : Frame) (R : Env → Env → Prop) (e e' : Expr) : Prop where
  value : ∀ ρ ρ' m, R ρ ρ' → Run.Echoes m (e.eval f ρ) (e'.eval f ρ')
  buffer : ∀ ρ ρ', R ρ ρ' → (f.buffer ρ' e').toOption = (f.buffer ρ e).toOption
  store : ∀ a i x mask m, Run.Echoes m (storeTo f e a i x mask) (storeTo f e' a i x mask)

namespace Thread

variable {strict : Prop} {R : Env → Env → Prop} {f : Frame} {l l' : Local} {m : Machine} {v : Var} {e e' : Expr}

section Values
variable (he : e.Echoes f R e') (hR : R l.env l'.env)
include he hR

theorem echoes_value : Echoes strict Eq R l l' m (value f e) (value f e') := echoes_ofRun (he.value _ _ m hR) hR

theorem echoes_holds : Echoes strict Eq R l l' m (holds f e) (holds f e') := by
  refine (echoes_value he hR).bind ?_
  rintro x _ l₁ l₁' m₁ - - rfl hR
  exact echoes_ofRun (.refl _) hR

theorem echoes_integer : Echoes strict Eq R l l' m (integer f e) (integer f e') := by
  refine (echoes_value he hR).bind ?_
  rintro x _ l₁ l₁' m₁ - - rfl hR
  exact echoes_ofRun (.refl _) hR

end Values

theorem echoes_product {es es' : List Expr} (h : List.Forall₂ (Expr.Echoes f R) es es') (n : Int) (hR : R l.env l'.env) :
    Echoes strict Eq R l l' m (product f n es) (product f n es') := by
  induction h generalizing n l l' m with
  | nil => exact echoes_pure rfl hR
  | cons he _ ih =>
    refine (echoes_integer he hR).bind ?_
    rintro k _ l₁ l₁' m₁ - - rfl hR
    exact ih (n * k) hR

theorem echoes_buffer (hhost : f.coords = none) (s s' : Stmt) (v : Var) (e : ElemType) (size : Nat) (hR : R l.env l'.env) :
    Echoes strict Eq R l l' m (buffer f s v e size) (buffer f s' v e size) := by
  unfold Echoes
  rw [ends_buffer hhost, ends_buffer hhost]
  exact .ok rfl hR

theorem echoes_bind {α β : Type} {Q : α → β → Prop} {k : Unit → Thread α} {k' : Unit → Thread β} {a : Value}
    (h : Echoes strict Q R { l with env := l.env.set v a } { l' with env := l'.env.set v a } m (k ()) (k' ())) :
    Echoes strict Q R l l' m (Thread.bind v a >>= k) (Thread.bind v a >>= k') := h

theorem echoes_unbind (hv : Env.Shares R v) (hR : R l.env l'.env) : Echoes strict Eq R l l' m (unbind v) (unbind v) :=
  .ok rfl (hv.erase _ _ hR)

theorem echoes_release (hv : Env.Shares R v) (hR : R l.env l'.env) : Echoes strict Eq R l l' m (release v) (release v) := by
  unfold Echoes release
  rw [ends_get_bind, ends_get_bind, hv.get _ _ hR]
  split
  · exact echoes_unbind hv hR
  · exact .error hR

end Thread

/-! ### Statements -/

namespace Stmt
open Thread

variable {strict : Prop} {R : Env → Env → Prop} {f : Frame} {l l' : Local} {m : Machine} {s s' : Stmt}
  {E : Expr → Expr → Prop}
  {B : Stmt → Stmt → Prop}

/-- The deeds of a turn of a loop. -/
def deedsOfTurn (f : Frame) (v : Var) (body : Stmt) (i : Int) : Thread (List Deed) := do
  let x ← ofRun do place (← convertTo v.dtype (.number (.int i)))
  Thread.bind v x
  body.record f

theorem record_loop (f : Frame) (v : Var) (min extent : Expr) (kind : LoopKind) (body : Stmt) :
    (loop v min extent kind body).record f =
    (do
      let start ← integer f min
      let count ← integer f extent
      closing (deedsOfRange (deedsOfTurn f v body) start count.toNat) (unbind v)) := by
  unfold record
  rfl

theorem erases_deedsOfTurn (f : Frame) (v : Var) (body : Stmt) (i : Int) :
    Erases (deedsOfTurn f v body i) (turn f v body i) :=
  .bind fun _ => .bind fun _ => erases_record f body

theorem erases_recordAll (f : Frame) (ss : List Stmt) : Erases (record.recordAll f ss) (exec.execAll f ss) := by
  have h := erases_record f (seq ss)
  unfold record exec at h
  exact h

theorem recordAll_singleton (f : Frame) (s : Stmt) : record.recordAll f [s] = s.record f := by
  simp [record.recordAll]

/-- A statement does what another one of its kind does, if its expressions stand for those of the other one and its
    bodies do what the bodies of the other one do wherever that comes to them. -/
theorem Alters.echoes (h : Alters E B s s') (hhost : f.coords = none) (hR : R l.env l'.env)
    (hv : ∀ v ∈ s.binder?, Env.Shares R v)
    (hE : ∀ e ∈ s.exprParts, ∀ e', E e e' → e.Echoes f R e')
    (heval : ∀ e e', s = Stmt.eval e → E e e' → e'.isConst = e.isConst ∧ ∀ name, e'.isIntrinsic name = e.isIntrinsic name)
    (hB : ∀ b b' l₁ l₁' m₁, B b b' → Begins f l m s b l₁ m₁ → R l₁.env l₁'.env →
      Echoes strict Eq R l₁ l₁' m₁ (b.record f) (b'.record f)) :
    Echoes strict Eq R l l' m (s.record f) (s'.record f) := by
  cases h with
  | @bind v e e' b b' he hb =>
    have hbinds := hv v rfl
    unfold record
    refine (echoes_value (hE e (List.mem_singleton_self _) e' he) hR).bind ?_
    rintro x _ l₁ l₁' m₁ hx - rfl hR
    refine (echoes_ofRun (.refl _) hR).bind ?_
    rintro a _ l₂ l₂' m₂ ha - rfl hR
    exact echoes_bind (Echoes.closing (hB b b' _ _ m₂ hb (.bind hx ha) (hbinds.set _ _ a hR)) fun _ _ _ hR =>
      echoes_release hbinds hR)
  | @attr subject key e e' b b' he hb =>
    unfold record
    by_cases hstorage : (key == "storage_scope") = true
    · rw [if_pos hstorage, if_pos hstorage]
      obtain rfl := beq_iff_eq.mp hstorage
      cases subject with
      | var v => exact hB b b' { l with scopes := _ } { l' with scopes := _ } m hb .scope hR
      | _ => exact hB b b' l l' m hb (.attr (by decide) (by rintro v ⟨⟩)) hR
    rw [if_neg hstorage, if_neg hstorage]
    by_cases hthread : (key == "thread_extent") = true
    · rw [if_pos hthread, if_pos hthread]
      obtain rfl := beq_iff_eq.mp hthread
      cases subject with
      | axis iv =>
        have hbinds := hv iv.var rfl
        refine (echoes_lift rfl hR).bind ?_
        rintro c _ l₁ l₁' m₁ hc - rfl hR₁
        obtain ⟨hcoordinate, rfl, rfl⟩ := ends_lift_ok hc
        refine (echoes_integer (hE e (List.mem_singleton_self _) e' he) hR₁).bind ?_
        rintro n _ l₂ l₂' m₂ hn - rfl hR
        split
        · rename_i hlt
          refine echoes_bind (Echoes.closing (hB b b' _ _ m₂ hb (.region hcoordinate hn hlt)
            (hbinds.set _ _ _ hR)) fun _ _ _ hR => ?_)
          exact echoes_release hbinds hR
        · exact echoes_pure rfl hR
      | _ => exact echoes_throw hR
    rw [if_neg hthread, if_neg hthread]
    exact hB b b' l l' m hb (.attr (by simpa using hthread) fun _ _ => by simpa using hstorage) hR
  | @assert c c' e e' b b' hc he hb =>
    unfold record
    refine (echoes_value (hE c List.mem_cons_self c' hc) hR).bind ?_
    rintro x _ l₁ l₁' m₁ hx - rfl hR
    refine (echoes_ofRun (.refl _) hR).bind ?_
    rintro truth _ l₂ l₂' m₂ htruth - rfl hR
    have hholds : (holds f c).ends l m = ((.ok truth, l₂), m₂) := by rw [holds, ends_bind, hx]; exact htruth
    split
    · rename_i heq
      subst heq
      refine (hB b b' l₂ l₂' m₂ hb (.assert hholds) hR).bind ?_
      rintro es _ l₃ l₃' m₃ - - rfl hR
      exact echoes_pure rfl hR
    · refine (echoes_value (hE e (by simp) e' he) hR).bind ?_
      rintro y _ l₃ l₃' m₃ - - rfl hR
      exact echoes_ofRun (.refl _) hR
  | @loop v min min' extent extent' kind b b' hmin hextent hb =>
    have hbinds := hv v rfl
    rw [record_loop, record_loop]
    refine (echoes_integer (hE min List.mem_cons_self min' hmin) hR).bind ?_
    rintro start _ l₁ l₁' m₁ hstart - rfl hR
    refine (echoes_integer (hE extent (by simp) extent' hextent) hR).bind ?_
    rintro count _ l₂ l₂' m₂ hcount - rfl hR
    refine Echoes.closing (Echoes.deedsOfRange hR fun k hk es l₃ l₃' m₃ hturns hR => ?_) fun _ _ _ hR =>
      echoes_unbind hbinds hR
    refine (echoes_ofRun (.refl _) hR).bind ?_
    rintro a _ l₄ l₄' m₄ ha - rfl hR
    exact hB b b' { l₄ with env := l₄.env.set v a } { l₄' with env := l₄'.env.set v a } m₄ hb
      (.turn hstart hcount hk ((erases_deedsOfRange (erases_deedsOfTurn f v b) start k).ends_ok hturns) ha)
      (hbinds.set _ _ a hR)
  | @store buffer buffer' value value' index index' p p' hbuffer hvalue hindex hp =>
    have hstore := hE buffer List.mem_cons_self buffer' hbuffer
    unfold record
    unfold Echoes
    rw [ends_get_bind, ends_get_bind]
    refine (echoes_lift (hstore.buffer _ _ hR) hR).bind ?_
    rintro a _ l₁ l₁' m₁ - - rfl hR
    refine (echoes_value (hE index (by simp) index' hindex) hR).bind ?_
    rintro i _ l₂ l₂' m₂ - - rfl hR
    refine (echoes_value (hE value (by simp) value' hvalue) hR).bind ?_
    rintro x _ l₃ l₃' m₃ - - rfl hR
    cases hp with
    | none =>
      refine (echoes_ofRun (hstore.store a i x none m₃) hR).bind ?_
      rintro _ _ l₄ l₄' m₄ - - rfl hR
      exact echoes_pure rfl hR
    | @some q q' hq =>
      refine (echoes_value (hE q (by simp) q' hq) hR).bind ?_
      rintro mask _ l₄ l₄' m₄ - - rfl hR
      refine (echoes_ofRun (hstore.store a i x (some mask) m₄) hR).bind ?_
      rintro _ _ l₅ l₅' m₅ - - rfl hR
      exact echoes_pure rfl hR
  | provide | realize | prefetch =>
    unfold record
    exact echoes_throw hR
  | @allocate site v t extents extents' c c' b b' hextents hc hb =>
    have hbinds := hv v rfl
    have hes : List.Forall₂ (Expr.Echoes f R) extents extents' :=
      ((List.forall₂_and_left _ _).mpr ⟨fun e he => he, hextents⟩).imp fun e e' h =>
      hE e (List.mem_append_left _ h.1) e' h.2
    unfold record
    refine (echoes_product hes t.lanes hR).bind ?_
    rintro size _ l₁ l₁' m₁ hsize - rfl hR
    refine (echoes_lift rfl hR).bind ?_
    rintro e _ l₂ l₂' m₂ he - rfl hR₂
    obtain ⟨htype, rfl, rfl⟩ := ends_lift_ok he
    split
    · exact .error hR₂
    · rename_i hsign
      refine (echoes_buffer hhost _ _ v e size.toNat hR₂).bind ?_
      rintro a _ l₃ l₃' m₃ ha - rfl hR
      refine echoes_bind (Echoes.closing (hB b b' _ _ m₃ hb (.allocate hsize htype (by omega) ha)
        (hbinds.set _ _ _ hR)) fun _ _ _ hR => ?_)
      exact echoes_unbind hbinds hR
  | @seq ss ss' hss =>
    have hall : ∀ done ts ts' es l₁ l₁' m₁, ss = done ++ ts → List.Forall₂ B ts ts' →
        (record.recordAll f done).ends l m = ((.ok es, l₁), m₁) → R l₁.env l₁'.env →
          Echoes strict Eq R l₁ l₁' m₁ (record.recordAll f ts) (record.recordAll f ts') := by
      intro done ts ts' es l₁ l₁' m₁ hsplit hts hdone hR
      induction hts generalizing done es l₁ l₁' m₁ with
      | nil => exact echoes_pure rfl hR
      | @cons t t' ts ts' ht _ ih =>
        have hexec : (exec.execAll f done).ends l m = ((.ok (), l₁), m₁) := (erases_recordAll f done).ends_ok hdone
        refine (hB t t' l₁ l₁' m₁ ht (hsplit ▸ .seq hexec) hR).bind ?_
        rintro es₁ _ l₂ l₂' m₂ hes - rfl hR
        refine (ih (done ++ [t]) (es ++ es₁) l₂ l₂' m₂ (by simp [hsplit]) ?_ hR).bind ?_
        · rw [recordAll_append, ends_bind, hdone]
          dsimp only
          rw [ends_bind, recordAll_singleton, hes]
          rfl
        · rintro es₂ _ l₃ l₃' m₃ - - rfl hR
          exact echoes_pure rfl hR
    unfold record
    exact hall [] ss ss' [] l l' m rfl hss rfl hR
  | @branch c c' t t' o o' hc ht ho =>
    unfold record
    refine (echoes_holds (hE c (List.mem_singleton_self _) c' hc) hR).bind ?_
    rintro truth _ l₁ l₁' m₁ hholds - rfl hR
    split
    · rename_i heq
      subst heq
      exact hB t t' l₁ l₁' m₁ ht (.onTrue hholds) hR
    · rename_i hne
      obtain rfl : truth = false := by simpa using hne
      cases ho with
      | none => exact echoes_pure rfl hR
      | some ho => exact hB _ _ l₁ l₁' m₁ ho (.onFalse hholds) hR
  | @eval e e' he =>
    obtain ⟨hconst, hintrinsic⟩ := heval e e' rfl he
    unfold record
    rw [hintrinsic, hconst]
    split
    · refine (echoes_await hR).bind ?_
      rintro _ _ l₁ l₁' m₁ - - rfl hR
      exact echoes_pure rfl hR
    · refine (echoes_value (hE e (List.mem_singleton_self _) e' he) hR).bind ?_
      rintro x _ l₁ l₁' m₁ - - rfl hR
      exact echoes_pure rfl hR

/-! ### Substitution -/

section Substitution
variable {σ : Subst} {ρ : Env} {v : Var} {e : Expr}

theorem Expr.echoes_subst (he : σ.Suits ρ e) (hbuffer : ∀ v, σ.Buffer ρ v) :
    e.Echoes f (fun ρ₁ ρ₁' => σ.RebindsTo f ρ ρ₁' ρ₁) (e.subst σ) where
  value _ _ m h := (Expr.sameRun_eval he h).1.echoes m
  buffer _ _ h := (Subst.sameResult_buffer h fun v _ => hbuffer v).toOption_eq
  store a i x mask m := (Subst.sameRun_storeTo e a i x mask).echoes m

theorem shares_rebindsTo (hv : σ.Leaves v.id) : Env.Shares (fun ρ₁ ρ₁' => σ.RebindsTo f ρ ρ₁' ρ₁) v where
  get _ _ h := (h.rest v.id hv.kept).symm
  set _ _ _ h := h.set hv
  erase _ _ h := h.erase hv

theorem alters_subst (σ : Subst) (s : Stmt) : Alters (fun e e' => e' = e.subst σ) (fun b b' => b' =
      b.subst σ) s (s.subst σ) := by
  have hself : s.withBodies s.bodies = s := by
    cases s with
    | branch cond onTrue onFalse => cases onFalse <;> rfl
    | _ => rfl
  have hrefl : List.Forall₂ Eq s.bodies s.bodies := List.forall₂_same.mpr fun _ _ => rfl
  have hsame : Alters Eq Eq s s := by
    have halters : Alters Eq Eq s (s.withBodies s.bodies) := alters_withBodies hrefl fun _ _ => rfl
    rwa [hself] at halters
  have halters : Alters (fun e e' => e' = e.subst σ) (fun b b' => b' = b.subst σ) s ((s.withBodies s.bodies).subst σ) :=
    hsame.rebuild hrefl (fun e _ e' he => by rw [he]) fun b _ b' hb b'' hb' => by rw [← hb', ← hb]
  rwa [hself] at halters

/-- On the host a statement does after a substitution what it does where the variables that are replaced have the values
    of what is put for them. -/
theorem echoes_record_subst (hhost : f.coords = none)
    (h : ∀ t ∈ s.stmts, (∀ v ∈ t.binder?, σ.Leaves v.id) ∧ (∀ e ∈ t.exprParts, σ.Suits ρ e) ∧
      ∀ v, t = eval (.var v) → σ.put? v.id = none)
    (hbuffer : ∀ v, σ.Buffer ρ v) (hl : σ.RebindsTo f ρ l'.env l.env) :
    Echoes strict Eq (fun ρ₁ ρ₁' => σ.RebindsTo f ρ ρ₁' ρ₁) l l' m (s.record f) ((s.subst σ).record f) := by
  induction s using induct_bodies generalizing l l' m with
  | step s ih =>
    obtain ⟨hbodies, hbinder, hparts, heval⟩ := forall_mem_stmts.mp h
    refine (alters_subst σ s).echoes hhost hl (fun v hv => shares_rebindsTo (hbinder v hv)) ?_ ?_ ?_
    · rintro e he _ rfl
      exact Expr.echoes_subst (hparts e he) hbuffer
    · rintro e _ rfl rfl
      refine ⟨?_, fun name => isIntrinsic_subst fun v hv r hr => nomatch (heval v (by rw [hv])).symm.trans hr⟩
      cases e with
      | var v => rw [Expr.subst, Subst.find?_eq_put?, heval v rfl, Option.getD_none]
      | _ => rfl
    · rintro b _ l₁ l₁' m₁ rfl hb hR
      exact ih b hb.mem_bodies (hbodies b hb.mem_bodies) hR

end Substitution

end Stmt

end TensorNest

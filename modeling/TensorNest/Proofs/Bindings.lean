import TensorNest.Proofs.Closed

/-! # What a run does to the variables

A statement that binds a variable removes it when it ends, and does not give back what the variable was
bound to before. So in a run of a statement, wherever it waits and whatever it then finds, a variable keeps
its value, or it is bound in the statement and has no value at the end (`Stmt.keeps_exec`). If no variable
that the statement binds had a value, all variables have the values of before (`Stmt.env_restored`); one that
had a value is lost by every statement that ends its scope (`Stmt.loses_binder`). -/

namespace TensorNest

namespace Thread

variable {α β : Type} {V W X Y Z : List Nat} {f : Frame} {v : Var}

/-- In a run of a thread, however it goes on and ends, the variables other than `V` keep their values, or
    they are among `X` and have no value at the end. -/
def Keeps (V X : List Nat) (x : Thread α) : Prop :=
  ∀ l m, (x.start l m).Always fun r => ∀ i ∉ V, r.2.env.lookup i = l.env.lookup i ∨ i ∈ X ∧ r.2.env.lookup i = none

theorem Keeps.mono {x : Thread α} (h : Keeps V X x) (hV : V ⊆ W) (hX : X ⊆ Y) : Keeps W Y x := by
  intro l m
  refine (h l m).mono fun r hr i hi => ?_
  rcases hr i (fun hmem => hi (hV hmem)) with heq | ⟨hmem, hnone⟩
  · exact Or.inl heq
  · exact Or.inr ⟨hX hmem, hnone⟩

theorem Keeps.bind {x : Thread α} {k : α → Thread β} (h : Keeps V X x) (hk : ∀ a, Keeps V X (k a)) :
    Keeps V X (x >>= k) := by
  intro l m
  rw [start_bind]
  refine (h l m).bind fun r m' hr => ?_
  rcases r with ⟨e | a, l'⟩
  · exact hr
  · refine (hk a l' m').mono fun t ht i hi => ?_
    rcases ht i hi with heq | hlost
    · rw [heq]
      exact hr i hi
    · exact Or.inr hlost

theorem keeps_pure (a : α) : Keeps V X (pure a) := fun _ _ _ _ => Or.inl rfl

theorem keeps_throw (e : Error) : Keeps V X (throw e : Thread α) := fun _ _ _ _ => Or.inl rfl

theorem keeps_ofRun (x : Run α) : Keeps V X (ofRun x) := fun _ _ _ _ => Or.inl rfl

theorem keeps_await : Keeps V X await := fun _ _ _ _ _ => Or.inl rfl

theorem keeps_lift (x : Except Error α) : Keeps V X (liftM x : Thread α) := by
  cases x with
  | error e => exact fun _ _ _ _ => Or.inl rfl
  | ok a => exact fun _ _ _ _ => Or.inl rfl

theorem keeps_get_bind {k : Local → Thread β} (h : ∀ l, Keeps V X (k l)) : Keeps V X ((get : Thread Local) >>= k) :=
  fun l m => h l l m

theorem keeps_value (e : Expr) : Keeps V X (value f e) :=
  keeps_get_bind fun _ => keeps_ofRun _

theorem keeps_holds (e : Expr) : Keeps V X (holds f e) :=
  (keeps_value e).bind fun _ => keeps_ofRun _

theorem keeps_integer (e : Expr) : Keeps V X (integer f e) :=
  (keeps_value e).bind fun _ => keeps_ofRun _

theorem keeps_product (n : Int) (es : List Expr) : Keeps V X (product f n es) := by
  induction es generalizing n with
  | nil => exact keeps_pure n
  | cons e es ih => exact (keeps_integer e).bind fun k => ih (n * k)

theorem keeps_buffer (s : Stmt) (v : Var) (e : ElemType) (size : Nat) : Keeps V X (buffer f s v e size) :=
  keeps_get_bind fun _ => keeps_ofRun _

theorem keeps_bind (a : Value) : Keeps (v.id :: V) X (bind v a) := by
  intro l m i hi
  have hne : i ≠ v.id := fun heq => hi (heq ▸ List.mem_cons_self)
  exact Or.inl (Env.lookup_set hne)

theorem keeps_forRange {x : Int → Thread Unit} (h : ∀ i, Keeps V X (x i)) (first : Int) (n : Nat) :
    Keeps V X (forRange x first n) := by
  induction n generalizing first with
  | zero => exact keeps_pure ()
  | succ n ih => exact (h first).bind fun _ => ih (first + 1)

/-! ### Ends of scopes -/

/-- At the end of its scope a variable has no value, however the scope ends. -/
theorem Keeps.always_ensuring {x last : Thread Unit} (h : Keeps (v.id :: V) X x) (hlast : Closes v Z last) (l : Local)
    (m : Machine) : ((ensuring x last).start l m).Always fun r => r.2.env.lookup v.id = none ∧
      ∀ i ∉ v.id :: V, r.2.env.lookup i = l.env.lookup i ∨ i ∈ X ∧ r.2.env.lookup i = none := by
  rw [start_ensuring]
  refine (h l m).bind fun r m' hr => ?_
  have hclosed : (last.start r.2 m').Always fun t => Without v r.2 t.2 :=
    (hlast r.2 r.2 m' fun _ _ => rfl).always fun t t' ht => ht.2.1
  refine hclosed.bind fun t m'' ht => ?_
  have hend : t.2.env.lookup v.id = none ∧
      ∀ i ∉ v.id :: V, t.2.env.lookup i = l.env.lookup i ∨ i ∈ X ∧ t.2.env.lookup i = none := by
    refine ⟨ht.self, fun i hi => ?_⟩
    have hne : i ≠ v.id := fun heq => hi (heq ▸ List.mem_cons_self)
    rw [ht.other i hne]
    exact hr i hi
  rcases t with ⟨e | a, l'⟩
  · exact hend
  · exact hend

theorem Keeps.ensuring {x last : Thread Unit} (h : Keeps (v.id :: V) X x) (hlast : Closes v Z last) :
    Keeps V (v.id :: X) (ensuring x last) := by
  intro l m
  refine (h.always_ensuring hlast l m).mono fun r hr i hi => ?_
  by_cases heq : i = v.id
  · rw [heq]
    exact Or.inr ⟨List.mem_cons_self, hr.1⟩
  · have hnot : i ∉ v.id :: V := by simp [heq, hi]
    exact (hr.2 i hnot).imp_right fun hlost => ⟨List.mem_cons_of_mem _ hlost.1, hlost.2⟩

/-- A scope over which a variable is bound. -/
theorem Keeps.scope {x last : Thread Unit} (h : Keeps (v.id :: V) X x) (hlast : Closes v Z last) (a : Value) :
    Keeps V (v.id :: X) (Thread.bind v a >>= fun _ => Thread.ensuring x last) := by
  intro l m
  have hstart : (Thread.bind v a >>= fun _ => Thread.ensuring x last).start l m =
      (Thread.ensuring x last).start { l with env := l.env.set v a } m := rfl
  rw [hstart]
  refine (h.always_ensuring hlast _ m).mono fun r hr i hi => ?_
  by_cases heq : i = v.id
  · rw [heq]
    exact Or.inr ⟨List.mem_cons_self, hr.1⟩
  · have hnot : i ∉ v.id :: V := by simp [heq, hi]
    have hset : (l.env.set v a).lookup i = l.env.lookup i := Env.lookup_set heq
    rw [← hset]
    exact (hr.2 i hnot).imp_right fun hlost => ⟨List.mem_cons_of_mem _ hlost.1, hlost.2⟩

/-- A thread that ends without a failure leaves a variable without a value. -/
def Loses (v : Var) (x : Thread α) : Prop :=
  ∀ l m, (x.start l m).Always fun r => r.1.isOk → r.2.env.lookup v.id = none

theorem loses_bind {x : Thread α} {k : α → Thread β} (h : ∀ a, Loses v (k a)) : Loses v (x >>= k) := by
  intro l m
  rw [start_bind]
  refine (Resumption.always_true (x.start l m)).bind fun r m' _ => ?_
  rcases r with ⟨e | a, l'⟩
  · exact fun hok => nomatch hok
  · exact h a l' m'

theorem Keeps.loses {x last : Thread Unit} (h : Keeps [v.id] X x) (hlast : Closes v Z last) :
    Loses v (Thread.ensuring x last) :=
  fun l m => (h.always_ensuring hlast l m).mono fun _ hr _ => hr.1

end Thread

/-! ### Statements -/

namespace Stmt
open Thread

variable {s : Stmt} {f : Frame} {l : Local} {m : Machine} {v : Var}

/-- In a run of a statement every variable keeps its value, or it is bound in the statement and has no
    value at the end. -/
theorem keeps_exec (f : Frame) (s : Stmt) : Keeps [] s.binders (s.exec f) := by
  induction s using induct_bodies with
  | step s ih =>
    have hbody : ∀ b ∈ s.bodies, ∀ V, Keeps V s.binders (b.exec f) := fun b hb V =>
      (ih b hb).mono (List.nil_subset V) fun x hx => mem_binders.mpr (Or.inl ⟨b, hb, hx⟩)
    have hown : ∀ v ∈ s.binder?, v.id :: s.binders ⊆ s.binders := fun v hv =>
      List.cons_subset.mpr ⟨mem_binders.mpr (Or.inr ⟨v, hv, rfl⟩), List.Subset.refl _⟩
    have hscope : ∀ v ∈ s.binder?, ∀ b ∈ s.bodies, ∀ {last : Thread Unit}, Closes v [v.id] last → ∀ a,
        Keeps [] s.binders (Thread.bind v a >>= fun _ => ensuring (b.exec f) last) := fun v hv b hb _ hlast a =>
      ((hbody b hb _).scope hlast a).mono (List.Subset.refl _) (hown v hv)
    cases s with
    | bind v e body =>
      unfold exec
      exact (keeps_value e).bind fun x => (keeps_ofRun _).bind fun a =>
        hscope v rfl body (by simp) closes_release a
    | attr subject key e body =>
      have hinner := hbody body (by simp) []
      unfold exec
      by_cases hstorage : (key == "storage_scope") = true
      · rw [if_pos hstorage]
        cases subject with
        | var v => exact fun l => hinner { l with scopes := (v.id, scopeName e) :: l.scopes }
        | _ => exact hinner
      rw [if_neg hstorage]
      by_cases hthread : (key == "thread_extent") = true
      · rw [if_pos hthread]
        cases subject with
        | axis iv =>
          have hv : iv.var ∈ (attr (.axis iv) key e body).binder? := by simp [hthread]
          refine (keeps_lift _).bind fun c => (keeps_integer e).bind fun n => ?_
          split
          · exact hscope iv.var hv body (by simp) closes_release _
          · exact keeps_pure ()
        | _ => exact keeps_throw _
      rw [if_neg hthread]
      exact hinner
    | assert cond message body =>
      unfold exec
      refine (keeps_holds cond).bind fun b => ?_
      split
      · exact hbody body (by simp) []
      · exact (keeps_value message).bind fun x => keeps_ofRun _
    | loop v first extent kind body =>
      unfold exec
      refine (keeps_integer first).bind fun start => (keeps_integer extent).bind fun count => ?_
      refine Keeps.mono (Keeps.ensuring (keeps_forRange (fun i => ?_) _ _) (closes_unbind (Z := []))) (List.Subset.refl _)
        (hown v rfl)
      exact (keeps_ofRun _).bind fun a => (keeps_bind a).bind fun _ => hbody body (by simp) _
    | store buffer value index pred =>
      unfold exec
      refine keeps_get_bind fun l => (keeps_lift _).bind fun a => (keeps_value index).bind fun i =>
        (keeps_value value).bind fun x => ?_
      cases pred with
      | none => exact keeps_ofRun _
      | some p => exact (keeps_value p).bind fun mask => keeps_ofRun _
    | allocate site v t extents cond body =>
      unfold exec
      refine (keeps_product _ _).bind fun size => (keeps_lift _).bind fun e => ?_
      have hrest := (keeps_buffer (f := f) (allocate site v t extents cond body) v e size.toNat).bind fun a =>
        hscope v rfl body (by simp) closes_unbind (.array a)
      split
      · exact (keeps_throw _).bind fun _ => hrest
      · exact hrest
    | provide | realize | prefetch => exact keeps_throw _
    | seq ss =>
      have hall : ∀ ts ⊆ ss, Keeps [] (seq ss).binders (exec.execAll f ts) := by
        intro ts hts
        induction ts with
        | nil => exact keeps_pure ()
        | cons t ts iht =>
          have ht : t ∈ ss := hts List.mem_cons_self
          exact (hbody t ht []).bind fun _ => iht fun u hu => hts (List.mem_cons_of_mem _ hu)
      exact hall ss (List.Subset.refl ss)
    | branch cond onTrue onFalse =>
      unfold exec
      refine (keeps_holds cond).bind fun b => ?_
      split
      · exact hbody onTrue (by simp) []
      · cases onFalse with
        | none => exact keeps_pure ()
        | some s => exact hbody s (by simp) []
    | eval e =>
      unfold exec
      split
      · exact keeps_await
      · exact (keeps_value e).bind fun _ => keeps_pure ()

/-- A binding, a loop and an allocation leave their variable without a value, whatever it was before. -/
theorem loses_binder (hv : v ∈ s.binder?) (hregion : ∀ iv key e body, s ≠ .attr (.axis iv) key e body) :
    Loses v (s.exec f) := by
  have hbody : ∀ b : Stmt, Keeps [v.id] b.binders (b.exec f) := fun b =>
    (keeps_exec f b).mono (List.nil_subset _) (List.Subset.refl _)
  cases s with
  | bind w e body =>
    obtain rfl : w = v := by simpa using hv
    unfold exec
    exact loses_bind fun x => loses_bind fun a => loses_bind fun _ => (hbody body).loses closes_release
  | loop w first extent kind body =>
    obtain rfl : w = v := by simpa using hv
    unfold exec
    refine loses_bind fun start => loses_bind fun count =>
      Keeps.loses (X := body.binders) (keeps_forRange (fun i => ?_) _ _) (closes_unbind (Z := []))
    exact (keeps_ofRun _).bind fun a => (keeps_bind a).bind fun _ => hbody body
  | allocate site w t extents cond body =>
    obtain rfl : w = v := by simpa using hv
    unfold exec
    have hrest : ∀ a, Loses w (Thread.bind w a >>= fun _ => ensuring (body.exec f) (unbind w)) := fun a =>
      loses_bind fun _ => (hbody body).loses (closes_unbind (Z := []))
    refine loses_bind fun size => loses_bind fun e => ?_
    split
    · exact loses_bind fun _ => loses_bind fun _ => hrest _
    · exact loses_bind fun _ => hrest _
  | attr subject key e body =>
    cases subject with
    | axis iv => exact absurd rfl (hregion iv key e body)
    | _ => simp at hv
  | _ => simp at hv

namespace Rebound
open Func.Counted

def frame : Frame := { name := "f", call := fun _ _ => throw .invalidOperand }

def twice : Stmt :=
  .bind i (Expr.int32 1) (.seq [.bind i (Expr.int32 2) (.eval (.var i)), .eval (.var i)])

-- The last use of `i` is in the scope of the first binding, which the end of the second one has removed.
example : (({ name := "f", params := [], body := twice, kind := .host } : Func).thread frame [] { memory := {} }).finish.1 =
    .error (.missingKey "i") := by rfl

end Rebound

/-- A statement that binds no variable that has a value, however it waits and ends, leaves every variable as it
    was. The value of an expression leaves them as they were in any case. -/
theorem env_restored (f : Frame) (h : ∀ x ∈ s.binders, l.env.lookup x = none) (m : Machine) :
    (((s.exec f).start l m).Always fun r => ∀ x, r.2.env.lookup x = l.env.lookup x) ∧
      ∀ e, ((value f e).start l m).Always fun r => r.2.env = l.env := by
  refine ⟨(keeps_exec f s l m).mono fun r hr x => ?_, fun e => rfl⟩
  rcases hr x List.not_mem_nil with heq | ⟨hx, hnone⟩
  · exact heq
  · rw [hnone, h x hx]

namespace Rebound
open Func.Counted

def env : Env := [(n.id, .int32 4)]

theorem count_restores : (∀ x ∈ count.binders, env.lookup x = none) ∧
    ((count.exec frame).start { env } { memory := {} }).Always fun r => ∀ x, r.2.env.lookup x = env.lookup x :=
  ⟨by decide, (env_restored (l := { env }) frame (by decide) { memory := {} }).1⟩

end Rebound

end Stmt

end TensorNest

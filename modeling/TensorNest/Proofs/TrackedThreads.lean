import TensorNest.Proofs.Records
import TensorNest.Proofs.Tracking

/-! # Threads on relocated machines

A thread that does not fail does the same where the arrays are elsewhere, from barrier to barrier, whatever the other
threads do in between (`Stmt.tracks_record`): its deeds are the same but for the places of the arrays. The other thread
may know values of more variables. -/

namespace TensorNest

variable {p q : Relocation}

/-! ### Suspended runs -/

namespace Resumption

variable {α β γ δ : Type} {failed : α → Prop} {failed' : γ → Prop} {R : Relocation → α → β → Prop}
  {S : Relocation → γ → δ → Prop}
  {r : Resumption Machine α} {r' : Resumption Machine β}

/-- Whatever a run does without a failure, another one does on a relocated machine: it waits at the same barriers, whatever
    the two runs find when they are resumed, as long as one is the other relocated, and its result is related. -/
inductive Tracks (failed : α → Prop) (R : Relocation → α → β → Prop) : Relocation → Resumption Machine α →
    Resumption Machine β → Prop
  | failed {p a m r'} (h : failed a) : Tracks failed R p (done a m) r'
  | done {p q a b m m'} (hpq : p.Extends q) (hm : m.Moved q m') (h : R q a b) : Tracks failed R p (done a m) (done b m')
  | wait {p q m m' k k'} (hpq : p.Extends q) (hm : m.Moved q m')
      (h : ∀ r t t', q.Extends r → t.Moved r t' → Tracks failed R r (k t) (k' t')) :
      Tracks failed R p (wait m k) (wait m' k')

theorem Tracks.weaken (h : r.Tracks failed R q r') (hpq : p.Extends q) : r.Tracks failed R p r' := by
  cases h with
  | failed h => exact .failed h
  | done hq hm h => exact .done (hpq.trans hq) hm h
  | wait hq hm h => exact .wait (hpq.trans hq) hm h

theorem Tracks.bind {g : α → Machine → Resumption Machine γ} {g' : β → Machine → Resumption Machine δ}
    (h : r.Tracks failed R p r')
    (hfailed : ∀ q a m r', failed a → (g a m).Tracks failed' S q r')
    (hdone : ∀ q a b m m', p.Extends q → m.Moved q m' → R q a b → (g a m).Tracks failed' S q (g' b m')) :
    (r.bind g).Tracks failed' S p (r'.bind g') := by
  induction h with
  | failed h => exact hfailed _ _ _ _ h
  | done hpq hm h => exact (hdone _ _ _ _ _ hpq hm h).weaken hpq
  | wait hpq hm _ ih =>
    exact .wait hpq hm fun r t t' hr ht => ih r t t' hr ht fun s a b m m' hs => hdone s a b m m' ((hpq.trans hr).trans hs)

/-- What a run comes to when each wait is resumed at once. -/
theorem Tracks.finish (h : r.Tracks failed R p r') (hr : ¬failed r.finish.1) :
    ∃ q, p.Extends q ∧ r.finish.2.Moved q r'.finish.2 ∧ R q r.finish.1 r'.finish.1 := by
  induction h with
  | failed h => exact absurd h hr
  | done hpq hm h => exact ⟨_, hpq, hm, h⟩
  | wait hpq hm _ ih =>
    obtain ⟨q, hq, hm', hR⟩ := ih _ _ _ (.refl _) hm hr
    exact ⟨q, hpq.trans hq, hm', hR⟩

end Resumption

/-! ### Threads -/

namespace Local

variable {D : Prop} {l l' : Local}

/-- The state of a thread, and one with the values of its variables where the arrays are elsewhere. If `D` holds the storage
    scopes are the same, too. -/
structure Moved (D : Prop) (p : Relocation) (l l' : Local) : Prop where
  env : l.env.Moved p l'.env
  scopes : D → l.scopes = l'.scopes

theorem Moved.mono (h : l.Moved D p l') (hpq : p.Extends q) : l.Moved D q l' := ⟨h.env.mono hpq, h.scopes⟩

end Local

namespace Thread

variable {α β γ δ : Type} {D : Prop} {R : Relocation → α → β → Prop} {S : Relocation → γ → δ → Prop} {x : Thread α}
  {y : Thread β}

/-- The ends of two threads: none has failed, and results and variables are related. -/
def Went (D : Prop) (R : Relocation → α → β → Prop) (q : Relocation) (r : Except Error α × Local)
    (r' : Except Error β × Local) : Prop :=
  ∃ a b, r.1 = .ok a ∧ r'.1 = .ok b ∧ R q a b ∧ r.2.Moved D q r'.2

/-- Whatever a thread does without a failure, another one does on a relocated machine. -/
def Tracks (D : Prop) (p : Relocation) (R : Relocation → α → β → Prop) (x : Thread α) (y : Thread β) : Prop :=
  ∀ q, p.Extends q → ∀ l l' m m', l.Moved D q l' → m.Moved q m' →
    (x.start l m).Tracks (fun r => r.1.isOk = false) (Went D R) q (y.start l' m')

theorem Tracks.mono (h : Tracks D p R x y) (hpq : p.Extends q) : Tracks D q R x y := fun r hr => h r (hpq.trans hr)

theorem Tracks.bind {k : α → Thread γ} {k' : β → Thread δ} (h : Tracks D p R x y)
    (hk : ∀ q a b, p.Extends q → R q a b → Tracks D q S (k a) (k' b)) : Tracks D p S (x >>= k) (y >>= k') := by
  intro q hq l l' m m' hl hm
  rw [start_bind, start_bind]
  refine (h q hq l l' m m' hl hm).bind (fun r a m r' ha => ?_) fun r a b m m' hr hm hab => ?_
  · obtain ⟨_ | a, l⟩ := a
    · exact .failed rfl
    · cases ha
  · obtain ⟨a, l₁⟩ := a
    obtain ⟨b, l₁'⟩ := b
    obtain ⟨a, b, rfl, rfl, hR, hl⟩ := hab
    exact hk r a b (hq.trans hr) hR r (.refl r) l₁ l₁' m m' hl hm

theorem tracks_pure {a : α} {b : β} (h : ∀ q, p.Extends q → R q a b) : Tracks D p R (pure a) (pure b) :=
  fun q hq _ _ _ _ hl hm => .done (.refl q) hm ⟨a, b, rfl, rfl, h q hq, hl⟩

theorem tracks_throw {e : Error} : Tracks D p R (throw e) y := fun _ _ _ _ _ _ _ _ => .failed rfl

theorem tracks_throw_bind {e : Error} {k : γ → Thread α} : Tracks D p R (throw e >>= k) y :=
    fun _ _ _ _ _ _ _ _ => .failed rfl

theorem tracks_ofRun {z : Run α} {z' : Run β} (h : z.Tracks p R z') : Tracks D p R (ofRun z) (ofRun z') := by
  intro q hq l l' m m' hl hm
  have hstart {γ : Type} (z : Run γ) (l : Local) (m : Machine) :
      (ofRun z).start l m = .done ((Run.on z m).1, l) (Run.on z m).2 := rfl
  rw [hstart, hstart]
  rcases hresult : Run.on z m with ⟨_ | a, m₁⟩
  · exact .failed rfl
  · obtain ⟨r, b, m₁', hr, hb, hm₁, hab⟩ := h q hq m m' hm a m₁ hresult
    rw [hb]
    exact .done hr hm₁ ⟨a, b, rfl, rfl, hab, hl.mono hr⟩

theorem tracks_lift {z : Except Error α} {z' : Except Error β}
    (h : ∀ a, z = .ok a → ∃ b, z' = .ok b ∧ ∀ q, p.Extends q → R q a b) :
    Tracks D p R (liftM z) (liftM z') := by
  cases z with
  | error e => exact tracks_throw
  | ok a =>
    obtain ⟨b, rfl, hR⟩ := h a rfl
    exact tracks_pure hR

theorem tracks_get {k : Local → Thread α} {k' : Local → Thread β}
    (h : ∀ q l l', p.Extends q → l.Moved D q l' → Tracks D q R (k l) (k' l')) :
    Tracks D p R ((get : Thread Local) >>= k) ((get : Thread Local) >>= k') :=
  fun q hq l l' m m' hl hm => h q l l' hq hl q (.refl q) l l' m m' hl hm

theorem tracks_modify {g g' : Local → Local} (h : ∀ q l l', p.Extends q → l.Moved D q l' → (g l).Moved D q (g' l')) :
    Tracks D p (fun _ _ _ => True) (modify g : Thread PUnit) (modify g') :=
  fun q hq l l' _ _ hl hm => .done (.refl q) hm ⟨⟨⟩, ⟨⟩, rfl, rfl, trivial, h q l l' hq hl⟩

theorem tracks_bind {a a' : Value} (v : Var) (ha : a.Moved p a') :
    Tracks D p (fun _ _ _ => True) (Thread.bind v a) (Thread.bind v a') :=
  tracks_modify fun _ _ _ hq hl => ⟨hl.env.set (ha.mono hq), hl.scopes⟩

theorem tracks_unbind (v : Var) : Tracks D p (fun _ _ _ => True) (unbind v) (unbind v) :=
  tracks_modify fun _ _ _ _ hl => ⟨hl.env.erase, hl.scopes⟩

theorem tracks_scope (id : Nat) (scope : String) :
    Tracks D p (fun _ _ _ => True) (modify fun l : Local => { l with scopes := (id, scope) :: l.scopes } : Thread PUnit)
      (modify fun l : Local => { l with scopes := (id, scope) :: l.scopes }) :=
  tracks_modify fun _ _ _ _ hl => ⟨hl.env, fun hD => congrArg ((id, scope) :: ·) (hl.scopes hD)⟩

theorem tracks_release (v : Var) : Tracks D p (fun _ _ _ => True) (release v) (release v) := by
  refine tracks_get fun q l l' _ hl => ?_
  cases hv : l.env.get? v with
  | none => exact tracks_throw
  | some a =>
    obtain ⟨a', ha', -⟩ := hl.env v.id a hv
    rw [show l'.env.get? v = some a' from ha']
    exact tracks_unbind v

theorem tracks_await : Tracks D p (fun _ _ _ => True) await await :=
  fun q _ _ _ _ _ hl hm => .wait (.refl q) hm fun r _ _ hr ht => .done (.refl r) ht ⟨(), (), rfl, rfl, trivial, hl.mono hr⟩

theorem Tracks.closing {last last' : Thread Unit} (h : Tracks D p R x y) (hlast : Tracks D p (fun _ _ _ => True) last last')
    (hend : ∀ l m, ∃ r, last.start l m = .done r m) (hR : ∀ q r a b, q.Extends r → R q a b → R r a b) :
    Tracks D p R (closing x last) (closing y last') := by
  intro q hq l l' m m' hl hm
  rw [start_closing, start_closing]
  refine (h q hq l l' m m' hl hm).bind (fun r a m r' ha => ?_) fun r a b m m' hr hm hab => ?_
  · obtain ⟨_ | a, l⟩ := a
    · obtain ⟨⟨t, l'⟩, ht⟩ := hend l m
      simp only [ht, Resumption.bind]
      cases t <;> exact .failed rfl
    · cases ha
  · obtain ⟨a, l₁⟩ := a
    obtain ⟨b, l₁'⟩ := b
    obtain ⟨a, b, rfl, rfl, hab, hl⟩ := hab
    refine (hlast r (hq.trans hr) l₁ l₁' m m' hl hm).bind (fun s t m r' ht => ?_) fun s t t' m m' hs hm htt => ?_
    · obtain ⟨_ | t, l⟩ := t
      · exact .failed rfl
      · cases ht
    · obtain ⟨t, l₂⟩ := t
      obtain ⟨t', l₂'⟩ := t'
      obtain ⟨_, _, rfl, rfl, -, hl⟩ := htt
      exact .done (.refl s) hm ⟨a, b, rfl, rfl, hR r s a b hs hab, hl⟩

/-! The steps of a statement. -/

section Steps

variable {f : Frame} {xs : List Value}

theorem tracks_value (hcall : Relocatable f.call) (hargs : ValuesMoved p f.args xs) (e : Expr) :
    Tracks D p Value.Moved (value f e) (value { f with args := xs } e) :=
  tracks_get fun q l l' hq hl => tracks_ofRun (tracks_eval hcall e q l.env l'.env (hargs.mono hq) hl.env).1

theorem tracks_integer (hcall : Relocatable f.call) (hargs : ValuesMoved p f.args xs) (e : Expr) :
    Tracks D p Run.Same (integer f e) (integer { f with args := xs } e) :=
  (tracks_value hcall hargs e).bind fun _ _ _ _ hx => tracks_ofRun (tracks_toInt hx)

theorem tracks_holds (hcall : Relocatable f.call) (hargs : ValuesMoved p f.args xs) (e : Expr) :
    Tracks D p Run.Same (holds f e) (holds { f with args := xs } e) :=
  (tracks_value hcall hargs e).bind fun _ _ _ _ hx => tracks_ofRun (tracks_truth hx)

theorem tracks_product (hcall : Relocatable f.call) (hargs : ValuesMoved p f.args xs) (es : List Expr) (n : Int) :
    Tracks D p Run.Same (product f n es) (product { f with args := xs } n es) := by
  induction es generalizing n p with
  | nil => exact tracks_pure fun _ _ => rfl
  | cons e es ih => exact (tracks_integer hcall hargs e).bind fun q k _ hq h => h ▸ ih (hargs.mono hq) (n * k)

/-- The shared buffer of an allocation. -/
theorem find?_shared {bs bs' : List (Stmt × View)} (h : List.Forall₂ (Machine.SharedMoved p) bs bs') (s : Stmt) :
    Option.Rel (View.Moved p) ((bs.find? fun b => Matching.exact.stmt b.1 s).map (·.2))
      ((bs'.find? fun b => Matching.exact.stmt b.1 s).map (·.2)) := by
  induction h with
  | nil => exact .none
  | @cons b b' bs bs' hb _ ih =>
    rw [List.find?_cons, List.find?_cons, ← hb.1]
    split
    · exact .some hb.2
    · exact ih

/-- Two allocations have related buffers: on the host each makes one of its own, and on a device they have to be the same
    allocation in the same scope. -/
theorem tracks_buffer {s s' : Stmt} (hshared : f.coords = none ∨ D ∧ s' = s) (v : Var) (e : ElemType) (size : Nat) :
    Tracks D p View.Moved (buffer f s v e size) (buffer { f with args := xs } s' v e size) := by
  refine tracks_get fun q l l' hq hl => tracks_ofRun (Run.tracks_get fun r m m' hr hm => ?_)
  have hfresh (s : Relocation) : Run.Tracks s View.Moved (onMemory fun m => m.addZeros e size)
    (onMemory fun m => m.addZeros e size) :=
    TensorNest.tracks_addZeros e size
  rcases hshared with hhost | ⟨hD, rfl⟩
  · simp only [hhost, Option.isSome_none, Bool.false_and]
    exact hfresh r
  rw [hl.scopes hD]
  dsimp only
  have hblock := find?_shared hm.blockBuffers s'
  have hlaunch := find?_shared hm.launchBuffers s'
  split
  · revert hblock
    generalize (m.blockBuffers.find? _).map _ = known
    generalize (m'.blockBuffers.find? _).map _ = known'
    rintro (h | _)
    · exact Run.tracks_pure fun t ht => View.Moved.mono h ht
    · refine (hfresh r).bind fun t a a' ht ha => ?_
      intro u hu m m' hm b m₁ hb
      cases hb
      exact ⟨u, _, _, .refl u, rfl, ⟨hm.memory, hm.workspaces, .cons ⟨rfl, ha.mono hu⟩ hm.blockBuffers, hm.launchBuffers⟩,
        ha.mono hu⟩
  · split
    · revert hlaunch
      generalize (m.launchBuffers.find? _).map _ = known
      generalize (m'.launchBuffers.find? _).map _ = known'
      rintro (h | _)
      · exact Run.tracks_pure fun t ht => View.Moved.mono h ht
      · refine (hfresh r).bind fun t a a' ht ha => ?_
        intro u hu m m' hm b m₁ hb
        cases hb
        exact ⟨u, _, _, .refl u, rfl, ⟨hm.memory, hm.workspaces, hm.blockBuffers,
          .cons ⟨rfl, ha.mono hu⟩ hm.launchBuffers⟩, ha.mono hu⟩
    · exact hfresh r

end Steps

end Thread

/-! ### Deeds -/

/-- A deed, and what it is where the arrays are elsewhere. -/
inductive Deed.Moved (p : Relocation) : Deed → Deed → Prop
  | stored {a a' : View} {i i' x x' : Value} {mask mask' : Option Value} (ha : a.Moved p a') (hi : i.Moved p i')
      (hx : x.Moved p x')
      (hmask : MaskMoved p mask mask') : Moved p (.stored a i x mask) (.stored a' i' x' mask')
  | evaluated {x x' : Value} (hx : x.Moved p x') : Moved p (.evaluated x) (.evaluated x')
  | asserted {x x' : Value} (hx : x.Moved p x') : Moved p (.asserted x) (.asserted x')
  | waited : Moved p .waited .waited

/-- Deeds, and what they are where the arrays are elsewhere. -/
abbrev DeedsMoved (p : Relocation) : List Deed → List Deed → Prop := List.Forall₂ (Deed.Moved p)

theorem DeedsMoved.mono {es es' : List Deed} (h : DeedsMoved p es es') (hpq : p.Extends q) : DeedsMoved q es es' := by
  refine h.imp fun e e' he => ?_
  cases he with
  | stored ha hi hx hmask =>
    refine .stored (ha.mono hpq) (hi.mono hpq) (hx.mono hpq) ?_
    cases hmask with
    | none => exact .none
    | some h => exact .some (h.mono hpq)
  | evaluated hx => exact .evaluated (hx.mono hpq)
  | asserted hx => exact .asserted (hx.mono hpq)
  | waited => exact .waited

/-! ### Statements -/

namespace Thread

variable {D : Prop} {x y : Int → Thread (List Deed)} {x₀ y₀ x₁ y₁ : Thread (List Deed)}

theorem Tracks.append (h : Tracks D p DeedsMoved x₀ y₀) (h' : Tracks D p DeedsMoved x₁ y₁) :
    Tracks D p DeedsMoved (x₀ >>= fun es => x₁ >>= fun es' => pure (es ++ es'))
      (y₀ >>= fun es => y₁ >>= fun es' => pure (es ++ es')) :=
  h.bind fun _ _ _ hq hes => (h'.mono hq).bind fun _ _ _ hr hes' => tracks_pure fun _ hs =>
    List.rel_append ((DeedsMoved.mono hes (hr.trans hs))) (DeedsMoved.mono hes' hs)

theorem tracks_deedsOfRange (h : ∀ i, Tracks D p DeedsMoved (x i) (y i)) (first : Int) (n : Nat) :
    Tracks D p DeedsMoved (deedsOfRange x first n) (deedsOfRange y first n) := by
  induction n generalizing first with
  | zero => exact tracks_pure fun _ _ => .nil
  | succ n ih => exact (h first).append (ih (first + 1))

/-- A scope over which a variable is bound. -/
theorem Tracks.scope {a a' : Value} (h : Tracks D p DeedsMoved x₀ y₀) (v : Var) (ha : a.Moved p a') {last : Thread Unit}
    (hlast : Tracks D p (fun _ _ _ => True) last last) (hend : ∀ l m, ∃ r, last.start l m = .done r m) :
    Tracks D p DeedsMoved (Thread.bind v a >>= fun _ => Thread.closing x₀ last)
      (Thread.bind v a' >>= fun _ => Thread.closing y₀ last) :=
  (tracks_bind v ha).bind fun _ _ _ hq _ => (h.mono hq).closing (hlast.mono hq) hend fun _ _ _ _ hr hes =>
  DeedsMoved.mono hes hr

end Thread

namespace Stmt

variable {D : Prop} {f : Frame} {xs : List Value} {s s' body body' : Stmt}

/-- Whatever a statement does without a failure, another one does on a relocated machine, where the arguments of the running
    function are relocated, too. -/
def Tracks (D : Prop) (p : Relocation) (f : Frame) (xs : List Value) (s s' : Stmt) : Prop :=
  Thread.Tracks D p DeedsMoved (s.record f) (s'.record { f with args := xs })

section Congruence

variable (hcall : Relocatable f.call) (hargs : ValuesMoved p f.args xs)
include hcall hargs

theorem tracks_bind (v : Var) (e : Expr) (h : body.Tracks D p f xs body') :
    (bind v e body).Tracks D p f xs (bind v e body') := by
  unfold Tracks record
  refine (Thread.tracks_value hcall hargs e).bind fun q x x' hq hx =>
    (Thread.tracks_ofRun (tracks_place hx)).bind fun r y y' hr hy => ?_
  exact Thread.Tracks.scope (Thread.Tracks.mono h (hq.trans hr)) v hy (Thread.tracks_release v) Thread.ends_release

theorem tracks_attr (subject : Subject) (key : String) (e : Expr) (h : body.Tracks D p f xs body') :
    (attr subject key e body).Tracks D p f xs (attr subject key e body') := by
  unfold Tracks record
  split_ifs
  · cases subject with
    | var v =>
      exact (Thread.tracks_scope v.id (Thread.scopeName e)).bind fun q _ _ hq _ => Thread.Tracks.mono h hq
    | _ => exact h
  · cases subject with
    | axis iv =>
      have hcoordinate : Thread.Tracks D p Run.Same (liftM (Thread.coordinate f iv) : Thread Nat)
          (liftM (Thread.coordinate { f with args := xs } iv)) := Thread.tracks_lift fun c hc => ⟨c, hc, fun _ _ => rfl⟩
      refine hcoordinate.bind fun q c _ hq h' =>
        h' ▸ (Thread.tracks_integer hcall (hargs.mono hq) e).bind fun r n _ hr h' => h' ▸ ?_
      split
      · exact Thread.Tracks.scope (Thread.Tracks.mono h (hq.trans hr)) iv.var (Value.moved_int32 _)
          (Thread.tracks_release iv.var)
          Thread.ends_release
      · exact Thread.tracks_pure fun _ _ => .nil
    | _ => exact Thread.tracks_throw
  · exact h

theorem tracks_assert (cond message : Expr) (h : body.Tracks D p f xs body') :
    (assert cond message body).Tracks D p f xs (assert cond message body') := by
  unfold Tracks record
  refine (Thread.tracks_value hcall hargs cond).bind fun q x x' hq hx =>
    (Thread.tracks_ofRun (tracks_truth hx)).bind fun r b _ hr h' => h' ▸ ?_
  split
  · refine (Thread.Tracks.mono h (hq.trans hr)).bind fun s es es' hs hes => Thread.tracks_pure fun t ht => ?_
    exact .cons (.asserted (hx.mono ((hr.trans hs).trans ht))) (DeedsMoved.mono hes ht)
  · refine (Thread.tracks_value hcall (hargs.mono (hq.trans hr)) message).bind fun s y y' hs hy => ?_
    exact fun _ _ _ _ _ _ _ _ => .failed rfl

theorem tracks_loop (v : Var) (min extent : Expr) (kind : LoopKind) (h : body.Tracks D p f xs body') :
    (loop v min extent kind body).Tracks D p f xs (loop v min extent kind body') := by
  unfold Tracks record
  refine (Thread.tracks_integer hcall hargs min).bind fun q start _ hq h' => h' ▸ ?_
  refine (Thread.tracks_integer hcall (hargs.mono hq) extent).bind fun r count _ hr h' => h' ▸ ?_
  refine (Thread.tracks_deedsOfRange (fun i => ?_) start count.toNat).closing (Thread.tracks_unbind v) Thread.ends_unbind
    fun _ _ _ _ hr hes => DeedsMoved.mono hes hr
  have hcounter : Run.Tracks r Value.Moved (do place (← convertTo v.dtype (.number (.int i))))
    (do place (← convertTo v.dtype (.number (.int i)))) :=
    (tracks_convertTo v.dtype (.number (.int i))).bind fun _ _ _ _ hx => tracks_place hx
  exact (Thread.tracks_ofRun hcounter).bind fun s y y' hs hy => (Thread.tracks_bind v hy).bind fun t _ _ ht _ =>
    Thread.Tracks.mono h (((hq.trans hr).trans hs).trans ht)

theorem tracks_store (buffer value index : Expr) (pred : Option Expr) :
    (store buffer value index pred).Tracks D p f xs (store buffer value index pred) := by
  unfold Tracks record
  refine Thread.tracks_get fun q l l' hq hl => ?_
  have hbuffer : Thread.Tracks D q View.Moved (liftM (f.buffer l.env buffer) : Thread View)
      (liftM (({ f with args := xs } : Frame).buffer l'.env buffer)) :=
      Thread.tracks_ofRun (TensorNest.tracks_buffer hl.env buffer)
  refine hbuffer.bind fun r a a' hr ha =>
    (Thread.tracks_value hcall (hargs.mono (hq.trans hr)) index).bind fun s i i' hs hi =>
    (Thread.tracks_value hcall (hargs.mono ((hq.trans hr).trans hs)) value).bind fun t x x' ht hx => ?_
  have ha := ha.mono (hs.trans ht)
  have hi := hi.mono ht
  cases pred with
  | none =>
    refine (Thread.tracks_ofRun (tracks_storeTo buffer ha hi hx .none)).bind fun u _ _ hu _ =>
      Thread.tracks_pure fun w hw => ?_
    exact .cons (.stored (ha.mono (hu.trans hw)) (hi.mono (hu.trans hw)) (hx.mono (hu.trans hw)) .none) .nil
  | some e =>
    refine (Thread.tracks_value hcall (hargs.mono (((hq.trans hr).trans hs).trans ht)) e).bind
      fun u mask mask' hu hmask => ?_
    refine (Thread.tracks_ofRun (tracks_storeTo buffer (ha.mono hu) (hi.mono hu) (hx.mono hu)
      (.some hmask))).bind fun w _ _ hw _ =>
      Thread.tracks_pure fun z hz => ?_
    have hext := (hu.trans hw).trans hz
    exact .cons (.stored (ha.mono hext) (hi.mono hext) (hx.mono hext) (.some (hmask.mono (hw.trans hz)))) .nil

theorem tracks_allocate (hshared : f.coords = none ∨ D ∧ body' = body) (site : Nat) (v : Var) (t : DataType)
    (extents : List Expr) (cond : Expr)
    (h : body.Tracks D p f xs body') :
    (allocate site v t extents cond body).Tracks D p f xs (allocate site v t extents cond body') := by
  unfold Tracks record
  have hshared' : f.coords = none ∨ D ∧ allocate site v t extents cond body' = allocate site v t extents cond body := by
    rcases hshared with hhost | ⟨hD, rfl⟩
    · exact .inl hhost
    · exact .inr ⟨hD, rfl⟩
  have helem : ∀ q, Thread.Tracks D q Run.Same (liftM t.element.elemType : Thread ElemType) (liftM t.element.elemType) :=
    fun q =>
    Thread.tracks_lift fun e he => ⟨e, he, fun _ _ => rfl⟩
  refine (Thread.tracks_product hcall hargs extents t.lanes).bind fun q size _ hq h' =>
    h' ▸ (helem q).bind fun r e _ hr h' => h' ▸ ?_
  split
  · exact Thread.tracks_throw_bind
  · refine (Thread.tracks_buffer hshared' v e size.toNat).bind fun s a a' hs ha => ?_
    exact Thread.Tracks.scope (Thread.Tracks.mono h ((hq.trans hr).trans hs)) v (.array ha)
      (Thread.tracks_unbind v) Thread.ends_unbind

theorem tracks_branch (cond : Expr) {onTrue onTrue' : Stmt} {onFalse onFalse' : Option Stmt}
    (h : onTrue.Tracks D p f xs onTrue')
    (h' : Thread.Tracks D p DeedsMoved (record.otherwise f onFalse) (record.otherwise { f with args := xs } onFalse')) :
    (branch cond onTrue onFalse).Tracks D p f xs (branch cond onTrue' onFalse') := by
  unfold Tracks record
  refine (Thread.tracks_holds hcall hargs cond).bind fun q b _ hq hb => hb ▸ ?_
  split
  · exact Thread.Tracks.mono h hq
  · exact h'.mono hq

theorem tracks_eval (e : Expr) : (eval e).Tracks D p f xs (eval e) := by
  unfold Tracks record
  split
  · exact Thread.tracks_await.bind fun _ _ _ _ _ => Thread.tracks_pure fun _ _ => .cons .waited .nil
  · refine (Thread.tracks_value hcall hargs e).bind fun q x x' _ hx => Thread.tracks_pure fun r hr => ?_
    split
    · exact .nil
    · exact .cons (.evaluated (hx.mono hr)) .nil

/-- A statement does the same on a relocated machine. -/
theorem tracks_self (hD : f.coords = none ∨ D) (s : Stmt) : s.Tracks D p f xs s := by
  induction s with
  | bind v e body ih => exact tracks_bind hcall hargs v e ih
  | attr subject key e body ih => exact tracks_attr hcall hargs subject key e ih
  | assert cond message body ih => exact tracks_assert hcall hargs cond message ih
  | loop v min extent kind body ih => exact tracks_loop hcall hargs v min extent kind ih
  | store buffer value index pred => exact tracks_store hcall hargs buffer value index pred
  | provide | realize | prefetch => exact Thread.tracks_throw
  | allocate site v t extents cond body ih =>
    exact tracks_allocate hcall hargs (hD.imp_right fun hD => ⟨hD, rfl⟩) site v t extents cond ih
  | seq ss ih =>
    have hall : ∀ ts ⊆ ss, Thread.Tracks D p DeedsMoved (record.recordAll f ts)
      (record.recordAll { f with args := xs } ts) := by
      intro ts hts
      induction ts with
      | nil => exact Thread.tracks_pure fun _ _ => .nil
      | cons t ts iht =>
        obtain ⟨ht, hts⟩ := List.cons_subset.mp hts
        exact Thread.Tracks.append (ih t ht) (iht hts)
    unfold Tracks record
    exact hall ss (List.Subset.refl ss)
  | branch cond onTrue onFalse iht ihf =>
    refine tracks_branch hcall hargs cond iht ?_
    cases onFalse with
    | none => exact Thread.tracks_pure fun _ _ => .nil
    | some s => exact ihf s rfl
  | eval e => exact tracks_eval hcall hargs e

end Congruence

end Stmt

end TensorNest

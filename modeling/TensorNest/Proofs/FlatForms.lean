import TensorNest.Module
import TensorNest.Proofs.Builders
import TensorNest.Proofs.Flattening
import TensorNest.Proofs.Parts

/-! # Flattening leaves nothing over tensors

A flattened statement provides, realizes and prefetches nothing, and its expressions read no tensors: each step gives a
flat statement and knows flat buffers afterwards (`Stmt.keeps_flattenWith`). Some expressions are taken over as they
are: the bounds and the condition of a realization, the bounds of a prefetch and the value of a request for double
buffering (`Stmt.kept`). So these must read no tensors. Then a backend rejects no part of the statement but a reduction
that was there before (`Func.unsupported_flatten`). -/

namespace TensorNest

/-! ### Flat expressions -/

namespace Expr

variable {r : Prop} {t : DataType} {a b c e : Expr}

/-- An expression reads no tensors, and it has reductions only if these are allowed. -/
def Flat (r : Prop) (e : Expr) : Prop :=
  ∀ a ∈ e.postorder, ∀ k ∈ (Node.expr a).unsupported?, k = "reduce" ∧ r

instance [Decidable r] (e : Expr) : Decidable (e.Flat r) :=
  inferInstanceAs (Decidable (∀ a ∈ e.postorder, ∀ k ∈ (Node.expr a).unsupported?, _))

theorem flat_iff : e.Flat r ↔ (∀ a ∈ e.parts, a.Flat r) ∧ ∀ k ∈ (Node.expr e).unsupported?, k = "reduce" ∧ r :=
  forall_mem_postorder

theorem Flat.mono {r' : Prop} (h : e.Flat r) (hr : r → r') : e.Flat r' := fun a ha k hk =>
  (h a ha k hk).imp_right hr

/-- An expression that is neither a call nor a reduction is flat if its parts are. -/
theorem flat_of_parts (h : ∀ a ∈ e.parts, a.Flat r) (hself : (Node.expr e).unsupported? = none) : e.Flat r :=
  flat_iff.mpr ⟨h, by simp [hself]⟩

theorem flat_var {v : Var} : (var v).Flat r := flat_of_parts (List.forall_mem_nil _) rfl

theorem flat_load {buffer : Var} (h : a.Flat r) : (load t (.var buffer) a none).Flat r :=
  flat_of_parts (List.forall_mem_cons.mpr ⟨flat_var, List.forall_mem_singleton.mpr h⟩) rfl

theorem flat_intrinsic {name : String} {args : List Expr} (h : ∀ a ∈ args, a.Flat r) : (intrinsic t name args).Flat r :=
  flat_of_parts h rfl

instance : Built (Flat r) where
  const := flat_of_parts (List.forall_mem_nil _) rfl
  str := flat_of_parts (List.forall_mem_nil _) rfl
  cast h := flat_of_parts (List.forall_mem_singleton.mpr h) rfl
  bin ha hb := flat_of_parts (List.forall_mem_cons.mpr ⟨ha, List.forall_mem_singleton.mpr hb⟩) rfl
  not h := flat_of_parts (List.forall_mem_singleton.mpr h) rfl
  select hc ha hb := flat_of_parts (List.forall_mem_cons.mpr ⟨hc,
    List.forall_mem_cons.mpr ⟨ha, List.forall_mem_singleton.mpr hb⟩⟩) rfl
  broadcast h := flat_of_parts (List.forall_mem_singleton.mpr h) rfl

end Expr

/-! ### Addresses -/

namespace Buffer
open Expr

variable {P : Expr → Prop} [Built P] {b : Buffer} {strides shape : List Expr} {is : List Operand}

theorem built_stridedOffset (hstrides : ∀ s ∈ strides, P s) (his : ∀ i ∈ is, i.Has P) :
    Ensures (stridedOffset strides is) P := by
  refine Ensures.bind (P := P) built_ofNumber fun z hz => ensures_foldlM (fun p hp sum hsum => ?_) hz
  obtain ⟨i, s⟩ := p
  have hmul : Ensures (mul i s) P := built_arith (his i (List.of_mem_zip hp).1) (hstrides s (List.of_mem_zip hp).2)
  exact hmul.bind fun product hproduct => built_arith (x := .expr sum) (y := .expr product) hsum hproduct

theorem built_compactOffset (hshape : ∀ d ∈ shape, P d) (his : ∀ i ∈ is, i.Has P) : Ensures (compactOffset shape is) P := by
  cases is with
  | nil => exact built_ofNumber
  | cons i is =>
    obtain ⟨hi, his⟩ := List.forall_mem_cons.mp his
    refine (built_convert hi).bind fun first hfirst => ensures_foldlM (fun p hp sum hsum => ?_) hfirst
    obtain ⟨i, d⟩ := p
    have hmul : Ensures (mul sum d) P :=
      built_arith (x := .expr sum) (y := .expr d) hsum (hshape d (List.mem_of_mem_drop (List.of_mem_zip hp).2))
    exact hmul.bind fun product hproduct => built_arith (x := .expr product) hproduct (his i (List.of_mem_zip hp).1)

/-- The layout of a buffer has a property. -/
structure Has (P : Expr → Prop) (b : Buffer) : Prop where
  shape : ∀ d ∈ b.shape, P d
  strides : ∀ s ∈ b.strides, P s
  elemOffset : P b.elemOffset

variable (hb : b.Has P)
include hb

theorem Has.offsetOf (his : ∀ i ∈ is, i.Has P) : Ensures (b.offsetOf is) P := by
  have hlast {offset : Expr} (h : P offset) :
      Ensures (if b.elemOffset.isConstInt 0 then pure offset else add offset b.elemOffset) P := by
    split
    · exact ensures_ok h
    · exact built_arith (x := .expr offset) (y := .expr b.elemOffset) h hb.elemOffset
  unfold Buffer.offsetOf
  dsimp only
  split
  · exact ensures_error
  split
  · exact (built_compactOffset hb.shape his).bind fun _ h => hlast h
  · exact (built_stridedOffset hb.strides his).bind fun _ h => hlast h

theorem Has.sizeOf : Ensures (sizeOf b.shape) P :=
  Ensures.bind (P := P) built_ofNumber fun _ hone => ensures_foldlM (fun d hd n hn =>
    built_arith (x := .expr n) (y := .expr d) hn (hb.shape d hd)) hone

end Buffer

/-- What is known of a tensor has a property. -/
structure FlatEntry.Has (P : Expr → Prop) (e : FlatEntry) : Prop where
  buffer : e.buffer.Has P
  mins : ∀ lo ∈ e.mins, P lo

theorem FlatEntry.Has.relative {P : Expr → Prop} [Expr.Built P] {e : FlatEntry} (he : e.Has P) {args : List Expr}
    (h : ∀ a ∈ args, P a) :
    Ensures (e.relative args) fun is => ∀ i ∈ is, i.Has P := by
  unfold FlatEntry.relative
  split
  · exact ensures_ok (List.forall_mem_map.mpr h)
  · refine ensures_mapM fun p hp => ?_
    obtain ⟨a, lo⟩ := p
    have hsub : Ensures (Expr.sub a lo) P :=
      Expr.built_arith (x := .expr a) (y := .expr lo) (h a (List.of_mem_zip hp).1) (he.mins lo (List.of_mem_zip hp).2)
    exact hsub.bind fun _ hd => ensures_ok hd

/-- What is known of all tensors has a property. -/
def FlatState.Has (P : Expr → Prop) (fs : FlatState) : Prop :=
  ∀ p ∈ fs.entries, p.2.Has P

theorem FlatState.Has.entry {P : Expr → Prop} {fs : FlatState} (h : fs.Has P) {op : OpRef} {output : Int} :
    Ensures (fs.entry op output) (FlatEntry.Has P) := by
  unfold FlatState.entry
  split
  · rename_i hfind
    exact ensures_ok (h _ (List.mem_of_find?_eq_some hfind))
  · exact ensures_error

/-! ### Expressions without their tensor reads -/

namespace Expr

variable {r : Prop} {e : Expr}

/-- Whether a head is that of a read of a tensor that names no operation. -/
def Head.isNameless : Head → Bool
  | .call _ .tensorRead none _ _ => true
  | _ => false

/-- Whether a head is that of a reduction. -/
def Head.isReduce : Head → Bool
  | .reduce _ _ => true
  | _ => false

/-- A head is that of no nameless read, and of a reduction only if these are allowed. -/
def Head.Ready (r : Prop) (h : Head) : Prop :=
  ¬h.isNameless ∧ (h.isReduce → r)

instance [Decidable r] (h : Head) : Decidable (h.Ready r) := inferInstanceAs (Decidable (_ ∧ _))

/-- What is made of an expression part by part has a property that what is made of new parts has. -/
theorem ensures_rebuildM {P : Expr → Prop} {f : Expr → Except Error Expr} {H : List Head}
    (step : ∀ a, a.head ∈ H → (∀ b ∈ a.parts, P b) → Ensures (f a) P) {e : Expr} (h : e.heads ⊆ H) :
    Ensures (e.rebuildM f) P := by
  have hlist {es : List Expr} (h : ∀ a ∈ es, Ensures (a.rebuildM f) P) : Ensures (rebuildM.onList f es) fun es' =>
      es'.length = es.length ∧ ∀ a ∈ es', P a := by
    induction es with
    | nil => exact ensures_ok ⟨rfl, List.forall_mem_nil _⟩
    | cons a es ih =>
      obtain ⟨ha, hes⟩ := List.forall_mem_cons.mp h
      exact ha.bind fun a' ha' => (ih hes).bind fun es' hes' =>
        ensures_ok ⟨congrArg Nat.succ hes'.1, List.forall_mem_cons.mpr ⟨ha', hes'.2⟩⟩
  have hoption {o : Option Expr} (h : ∀ a ∈ o, Ensures (a.rebuildM f) P) : Ensures (rebuildM.onOption f o) fun o' =>
      ∀ a ∈ o'.toList, P a := by
    cases o with
    | none => exact ensures_ok (List.forall_mem_nil _)
    | some a => exact (h a rfl).bind fun a' ha' => ensures_ok (List.forall_mem_singleton.mpr ha')
  have hpart {e a : Expr} (h : e.heads ⊆ H) (ha : a ∈ e.parts) : a.heads ⊆ H := fun _ hx => h (heads_subset ha hx)
  have hself {e : Expr} (h : e.heads ⊆ H) : e.head ∈ H := h (head_mem_heads e)
  induction e with
  | var | const | str => exact step _ (hself h :) (List.forall_mem_nil _)
  | cast t a ih =>
    exact (ih (hpart h (by simp [parts]))).bind fun a' ha => step _ (hself h :) (List.forall_mem_singleton.mpr ha)
  | not a ih =>
    exact (ih (hpart h (by simp [parts]))).bind fun a' ha => step _ (hself h :) (List.forall_mem_singleton.mpr ha)
  | broadcast a lanes ih =>
    exact (ih (hpart h (by simp [parts]))).bind fun a' ha => step _ (hself h :) (List.forall_mem_singleton.mpr ha)
  | bin op a b iha ihb =>
    refine (iha (hpart h (by simp [parts]))).bind fun a' ha => (ihb (hpart h (by simp [parts]))).bind fun b' hb =>
      step _ (hself h :) ?_
    exact List.forall_mem_cons.mpr ⟨ha, List.forall_mem_singleton.mpr hb⟩
  | ramp a b lanes iha ihb =>
    refine (iha (hpart h (by simp [parts]))).bind fun a' ha => (ihb (hpart h (by simp [parts]))).bind fun b' hb =>
      step _ (hself h :) ?_
    exact List.forall_mem_cons.mpr ⟨ha, List.forall_mem_singleton.mpr hb⟩
  | bind v a b iha ihb =>
    refine (iha (hpart h (by simp [parts]))).bind fun a' ha => (ihb (hpart h (by simp [parts]))).bind fun b' hb =>
      step _ (hself h :) ?_
    exact List.forall_mem_cons.mpr ⟨ha, List.forall_mem_singleton.mpr hb⟩
  | select c a b ihc iha ihb =>
    refine (ihc (hpart h (by simp [parts]))).bind fun c' hc => (iha (hpart h (by simp [parts]))).bind fun a' ha =>
      (ihb (hpart h (by simp [parts]))).bind fun b' hb => step _ (hself h :) ?_
    exact List.forall_mem_cons.mpr ⟨hc, List.forall_mem_cons.mpr ⟨ha, List.forall_mem_singleton.mpr hb⟩⟩
  | call t name args kind func index ih =>
    refine (hlist fun a ha => ih a ha (hpart h ha)).bind fun args' hargs => step _ ?_ hargs.2
    -- A call is told by the number of its arguments too.
    rw [head, hargs.1]
    exact hself h
  | load t buffer index pred ihb ihi ihp =>
    refine (ihb (hpart h (by simp [parts]))).bind fun b' hb => (ihi (hpart h (by simp [parts]))).bind fun i' hi => ?_
    refine (hoption fun p hp => ihp p hp
      (hpart h (List.mem_cons_of_mem _ (List.mem_cons_of_mem _ (Option.mem_toList.mpr hp))))).bind fun p' hp =>
        step _ (hself h :) ?_
    exact List.forall_mem_cons.mpr ⟨hb, List.forall_mem_cons.mpr ⟨hi, hp⟩⟩
  | reduce combiner sources axes cond index _ _ ihs _ ihc =>
    refine (hlist fun a ha => ihs a ha (hpart h (by simp [parts, ha]))).bind fun sources' hsources => ?_
    refine (hoption fun c hc => ihc c hc (hpart h (List.mem_append_right _ (Option.mem_toList.mpr hc)))).bind
      fun cond' hcond => step _ (hself h :) ?_
    exact List.forall_mem_append.mpr ⟨hsources.2, hcond⟩

/-- The buffers of the tensors that an expression reads take the place of the reads. -/
theorem flat_flatten {fs : FlatState} (hfs : fs.Has (Flat r)) (he : ∀ h ∈ e.heads, h.Ready r) :
    Ensures (e.flatten fs) (Flat r) := by
  refine ensures_rebuildM (fun a hhead hparts => ?_) fun _ hh => hh
  replace he := he _ hhead
  split
  · rename_i t name args f index
    refine hfs.entry.bind fun entry hentry => (hentry.relative hparts).bind fun is his => ?_
    exact (hentry.buffer.offsetOf his).bind fun off hoff => ensures_ok (flat_load hoff)
  · rename_i hread
    refine ensures_ok (flat_iff.mpr ⟨hparts, fun k hk => ?_⟩)
    cases a with
    | call t name args kind func index =>
      cases kind with
      | tensorRead =>
        cases func with
        | none => exact absurd rfl he.1
        | some f => exact absurd rfl (hread t name args f index)
      | _ => cases hk
    | reduce combiner sources axes cond index =>
      cases hk
      exact ⟨rfl, he.2 rfl⟩
    | _ => cases hk

end Expr

/-! ### Flat statements -/

namespace Stmt

variable {r : Prop} {s : Stmt}

/-- A statement provides, realizes and prefetches nothing and its expressions read no tensors; it has reductions only if
    these are allowed. -/
def Flat (r : Prop) (s : Stmt) : Prop :=
  ∀ n ∈ s.postorder, ∀ k ∈ n.unsupported?, k = "reduce" ∧ r

theorem flat_iff : s.Flat r ↔ (∀ b ∈ s.bodies, b.Flat r) ∧ (∀ e ∈ s.exprParts, e.Flat r) ∧
    ∀ k ∈ (Node.stmt s).unsupported?, k = "reduce" ∧ r := by
  have hexprs {n : Node} : n ∈ exprsNodes s.exprParts ↔ ∃ e ∈ s.exprParts, ∃ a ∈ e.postorder, Node.expr a = n := by
    simp [exprsNodes, exprNodes]
  simp only [Flat, mem_postorder (s := s), List.mem_append, List.mem_singleton, hexprs]
  constructor
  · exact fun h => ⟨fun b hb n hn => h n (.inl ⟨b, hb, hn⟩), fun e he a ha => h _ (.inr (.inl ⟨e, he, a, ha, rfl⟩)),
      h _ (.inr (.inr rfl))⟩
  · rintro ⟨hbodies, hexprs, hself⟩ n (⟨b, hb, hn⟩ | ⟨e, he, a, ha, rfl⟩ | rfl)
    · exact hbodies b hb n hn
    · exact hexprs e he a ha
    · exact hself

/-- A statement is flat if its bodies and expressions are, and it provides, realizes and prefetches nothing. -/
theorem flat_of_parts (hbodies : ∀ b ∈ s.bodies, b.Flat r) (hexprs : ∀ e ∈ s.exprParts, e.Flat r)
    (hself : (Node.stmt s).unsupported? = none) : s.Flat r :=
  flat_iff.mpr ⟨hbodies, hexprs, by simp [hself]⟩

/-- The expressions that flattening takes over. -/
def kept : Stmt → List Expr
  | attr (.op _) "double_buffer_scope" value _ => [value]
  | realize _ _ _ bounds cond _ => (bounds.flatMap fun r => [r.min, r.extent]) ++ [cond]
  | prefetch _ _ _ bounds => bounds.flatMap fun r => [r.min, r.extent]
  | _ => []

/-- A statement can be flattened to one with at most the reductions allowed: each read of a tensor is one of a named
    operation, and what is taken over is flat. -/
def Flattenable (r : Prop) (s : Stmt) : Prop :=
  ∀ t ∈ s.stmts, (∀ e ∈ t.exprParts, ∀ h ∈ e.heads, h.Ready r) ∧ ∀ e ∈ t.kept, e.Flat r

instance [Decidable r] (s : Stmt) : Decidable (s.Flattenable r) := inferInstanceAs (Decidable (∀ t ∈ s.stmts, _ ∧ _))

/-- What is ready by itself and in its bodies. -/
theorem flattenable_iff : s.Flattenable r ↔ (∀ b ∈ s.bodies, b.Flattenable r) ∧
    (∀ e ∈ s.exprParts, ∀ h ∈ e.heads, h.Ready r) ∧ ∀ e ∈ s.kept, e.Flat r :=
  forall_mem_stmts

/-! ### Prefetches of cache lines -/

variable {bounds : List Range} {vars : List Var} {lanes : Int}

theorem flat_prefetchIndices (hbounds : ∀ b ∈ bounds, b.min.Flat r) :
    Ensures (prefetchIndices lanes bounds vars) fun is => ∀ i ∈ is, i.Flat r := by
  refine ensures_mapM fun p hp => ?_
  obtain ⟨⟨b, v⟩, dim⟩ := p
  have hadd {e : Expr} (he : e.Flat r) : Ensures (Expr.add b.min e) (Expr.Flat r) :=
    Expr.built_arith (x := .expr b.min) (y := .expr e) (hbounds b (List.of_mem_zip (List.fst_mem_of_mem_zipIdx hp)).1) he
  dsimp only
  split
  · have hmul : Ensures (Expr.mul (.var v : Expr) lanes) (Expr.Flat r) :=
      Expr.built_arith (x := .expr (.var v)) (y := .number (.int lanes)) Expr.flat_var trivial
    exact hmul.bind fun step hstep => hadd hstep
  · exact hadd Expr.flat_var

theorem flat_prefetchLoops (hbounds : ∀ b ∈ bounds, b.extent.Flat r) (hs : s.Flat r) :
    Ensures (prefetchLoops lanes bounds vars s) (Flat r) := by
  unfold prefetchLoops
  generalize hl : (bounds.zip vars).zipIdx = l
  have hmem : ∀ p ∈ l, p.1.1.extent.Flat r := fun p hp =>
    hbounds _ (List.of_mem_zip (List.fst_mem_of_mem_zipIdx (hl ▸ hp))).1
  clear hl
  induction l with
  | nil => exact ensures_ok hs
  | cons p l ih =>
    obtain ⟨⟨b, v⟩, dim⟩ := p
    obtain ⟨hb, hl⟩ := List.forall_mem_cons.mp hmem
    have hloop {t : Stmt} (ht : t.Flat r) {extent : Expr} (he : extent.Flat r) :
        (loop v (Expr.int32 0) extent .serial t).Flat r :=
      flat_of_parts (List.forall_mem_singleton.mpr ht)
        (List.forall_mem_cons.mpr ⟨Expr.Built.const, List.forall_mem_singleton.mpr he⟩) rfl
    rw [List.foldrM_cons]
    refine (ih hl).bind fun t ht => ?_
    dsimp only
    split
    · have hdiv : Ensures (Expr.ceilDiv b.extent lanes) (Expr.Flat r) :=
        Expr.built_ceilDiv (x := .expr b.extent) (y := .number (.int lanes)) hb trivial
      exact hdiv.bind fun e he => ensures_ok (hloop ht he)
    · exact ensures_ok (hloop ht hb)

end Stmt

/-! ### Steps of flattening -/

/-- What a computation makes has a property. -/
def Build.Makes {α : Type} (x : Build α) (P : α → Prop) : Prop :=
  ∀ g a g', x.Yields g a g' → P a

section Makes
variable {α β : Type} {x : Build α} {P : α → Prop} {Q : β → Prop}

theorem Build.Makes.bind {f : α → Build β} (hx : x.Makes P) (hf : ∀ a, P a → (f a).Makes Q) : (x >>= f).Makes Q := by
  intro g b g' hrun
  obtain ⟨a, g₁, hxrun, hfrun⟩ := Build.yields_bind.mp hrun
  exact hf a (hx _ _ _ hxrun) _ _ _ hfrun

theorem Ensures.makes {x : Except Error α} (h : Ensures x P) : (liftM x : Build α).Makes P := fun _ a _ hrun =>
  h a (Build.yields_liftExcept.mp hrun).1

end Makes

/-- What a step of flattening makes has a property, if one of what is known holds before, and then it holds afterwards
    too. -/
def Flatten.Keeps {α : Type} (I : FlatState → Prop) (x : Flatten α) (P : α → Prop) : Prop :=
  ∀ fs g a fs' g', I fs → x.Yields fs g a fs' g' → I fs' ∧ P a

namespace Flatten

variable {α β : Type} {I : FlatState → Prop} {x : Flatten α} {P : α → Prop} {Q : β → Prop}

theorem keeps_pure {a : α} (h : P a) : Keeps I (pure a) P := by
  intro fs g b fs' g' hI hrun
  cases hrun
  exact ⟨hI, h⟩

theorem Keeps.bind {f : α → Flatten β} (hx : x.Keeps I P) (hf : ∀ a, P a → (f a).Keeps I Q) : (x >>= f).Keeps I Q := by
  intro fs g b fs' g' hI hrun
  obtain ⟨⟨a, fs₁⟩, g₁, hxrun, hfrun⟩ := Build.yields_bind.mp hrun
  obtain ⟨hI, ha⟩ := hx _ _ _ _ _ hI hxrun
  exact hf a ha _ _ _ _ _ hI hfrun

theorem keeps_get_bind {f : FlatState → Flatten β} (hf : ∀ fs, I fs → (f fs).Keeps I Q) : (get >>= f).Keeps I Q :=
  fun fs _ _ _ _ hI hrun => hf fs hI _ _ _ _ _ hI hrun

theorem keeps_modify_bind {m : FlatState → FlatState} {f : PUnit → Flatten β} (hm : ∀ fs, I fs → I (m fs))
    (hf : (f ⟨⟩).Keeps I Q) :
    (modify m >>= f).Keeps I Q := fun fs _ _ _ _ hI hrun => hf _ _ _ _ _ (hm fs hI) hrun

theorem keeps_lift {x : Except Error α} (h : Ensures x P) : Keeps I (liftM x) P := by
  intro fs g a fs' g' hI hrun
  cases x with
  | error e => cases hrun
  | ok b =>
    cases hrun
    exact ⟨hI, h _ rfl⟩

theorem keeps_liftBuild {x : Build α} (h : x.Makes P) : Keeps I (liftM x) P := by
  intro fs g a fs' g' hI hrun
  obtain ⟨b, g₁, hxrun, hrun⟩ := Build.yields_bind.mp hrun
  cases hrun
  exact ⟨hI, h _ _ _ hxrun⟩

theorem keeps_mapM {f : α → Flatten β} {l : List α} (h : ∀ a ∈ l, (f a).Keeps I Q) :
    (l.mapM f).Keeps I fun bs => ∀ b ∈ bs, Q b := by
  induction l with
  | nil => exact keeps_pure (List.forall_mem_nil _)
  | cons a l ih =>
    obtain ⟨ha, hl⟩ := List.forall_mem_cons.mp h
    rw [List.mapM_cons]
    exact ha.bind fun b hb => (ih hl).bind fun bs hbs => keeps_pure (List.forall_mem_cons.mpr ⟨hb, hbs⟩)

end Flatten

namespace Stmt
open Flatten

variable {r : Prop} {op : OpRef} {output : Int} {t : DataType} {bounds : List Range} {scope : String}
  {args : TensorBuffers} {line : Int}

theorem flat_regionBuffer (hbounds : ∀ b ∈ bounds, b.extent.Flat r) :
    (regionBuffer op output t bounds scope).Makes (Buffer.Has (Expr.Flat r)) := by
  intro g b g' hrun
  obtain ⟨b', hrun', hb⟩ := yields_regionBuffer op output t bounds scope g
  cases hrun.symm.trans hrun'
  refine ⟨fun d hd => ?_, fun d hd => ?_, ?_⟩
  · rw [hb.shape] at hd
    obtain ⟨range, hrange, rfl⟩ := List.mem_map.mp hd
    exact hbounds range hrange
  · rw [hb.strides] at hd
    cases hd
  · rw [hb.offset]
    exact Expr.Built.const

theorem flat_flattenPrefetch {entry : FlatEntry} (hentry : entry.Has (Expr.Flat r))
    (hbounds : ∀ b ∈ bounds, b.min.Flat r ∧ b.extent.Flat r) :
    (flattenPrefetch entry line t bounds).Makes (Flat r) := by
  have haccess {offset : Expr} (h : offset.Flat r) : Ensures (entry.buffer.accessPtr 1 offset) (Expr.Flat r) := by
    refine hentry.buffer.sizeOf.bind fun extent hextent =>
      Ensures.bind (P := Expr.Flat r) Expr.built_ofNumber fun element helement => ?_
    refine Ensures.bind (P := Expr.Flat r) (Expr.built_arith (x := .expr _)
      (y := .expr offset) hentry.buffer.elemOffset h) fun start hstart => ?_
    refine Ensures.bind (P := Expr.Flat r) Expr.built_ofNumber fun mask hmask => ensures_ok (Expr.flat_intrinsic ?_)
    simpa using ⟨helement, Expr.flat_var, hstart, hextent, hmask⟩
  have hsub {offset : Expr} (h : offset.Flat r) : Ensures (Expr.sub offset entry.buffer.elemOffset) (Expr.Flat r) :=
    Expr.built_arith (x := .expr offset) (y := .expr _) h hentry.buffer.elemOffset
  have hvars {x : Build (List Var)} : x.Makes fun _ => True := fun _ _ _ _ => trivial
  unfold flattenPrefetch
  refine hvars.bind fun vars _ => (flat_prefetchIndices fun b hb => (hbounds b hb).1).makes.bind fun is his => ?_
  refine (hentry.relative his).makes.bind fun relative hrelative =>
    (hentry.buffer.offsetOf hrelative).makes.bind fun offset hoffset => ?_
  refine (hsub hoffset).makes.bind fun start hstart => (haccess hstart).makes.bind fun ptr hptr => ?_
  refine (flat_prefetchLoops (fun b hb => (hbounds b hb).2) (flat_of_parts (List.forall_mem_nil _) ?_ rfl)).makes
  refine List.forall_mem_singleton.mpr (Expr.flat_intrinsic ?_)
  exact List.forall_mem_cons.mpr ⟨hptr, by simp [Expr.int32, Expr.Built.const]⟩

theorem keeps_flattenExpr {e : Expr} (he : ∀ h ∈ e.heads, h.Ready r) :
    (flattenExpr e).Keeps (FlatState.Has (Expr.Flat r)) (Expr.Flat r) :=
  keeps_get_bind fun _ hfs => keeps_lift (Expr.flat_flatten hfs he)

theorem keeps_entry {f : FlatEntry → Flatten Stmt} {P : Stmt → Prop}
    (h : ∀ entry : FlatEntry, entry.Has (Expr.Flat r) → (f entry).Keeps (FlatState.Has (Expr.Flat r)) P) :
    Flatten.Keeps (FlatState.Has (Expr.Flat r)) (do f (← (← get).entry op output)) P :=
  keeps_get_bind fun _ hfs => (keeps_lift hfs.entry).bind h

/-- A statement that is ready is flattened to a flat one, and the buffers known are flat. -/
theorem keeps_flattenWith (hargs : ∀ p ∈ args, p.2.Has (Expr.Flat r)) {s : Stmt} (hs : s.Flattenable r) :
    (s.flattenWith args line).Keeps (FlatState.Has (Expr.Flat r)) (Flat r) := by
  have hset {op : OpRef} {output : Int} {entry : FlatEntry} (h : entry.Has (Expr.Flat r)) (fs : FlatState)
      (hfs : fs.Has (Expr.Flat r)) :
      (fs.setEntry op output entry).Has (Expr.Flat r) := List.forall_mem_cons.mpr ⟨h, hfs⟩
  induction s with
  | bind v e body ih =>
    obtain ⟨hbody, hexprs, -⟩ := flattenable_iff.mp hs
    unfold flattenWith
    refine (keeps_flattenExpr (hexprs e (by simp))).bind fun e' he => (ih (hbody body (by simp))).bind fun b hb =>
      keeps_pure ?_
    exact flat_of_parts (by simpa using hb) (by simpa using he) rfl
  | attr subject key e body ih =>
    obtain ⟨hbody, hexprs, hkept⟩ := flattenable_iff.mp hs
    have hb := ih (hbody body (by simp))
    unfold flattenWith
    split
    · exact keeps_modify_bind (fun fs hfs => hfs) hb
    · refine keeps_entry fun entry _ => hb.bind fun b hb => keeps_pure (flat_of_parts (by simpa using hb) ?_ rfl)
      simpa [kept] using hkept
    · refine (keeps_flattenExpr (hexprs e (by simp))).bind fun e' he => hb.bind fun b hb => keeps_pure ?_
      exact flat_of_parts (by simpa using hb) (by simpa using he) rfl
  | assert cond message body ih =>
    obtain ⟨hbody, hexprs, -⟩ := flattenable_iff.mp hs
    unfold flattenWith
    refine (keeps_flattenExpr (hexprs cond (by simp))).bind fun c hc =>
      (keeps_flattenExpr (hexprs message (by simp))).bind fun m hm => ?_
    refine (ih (hbody body (by simp))).bind fun b hb => keeps_pure ?_
    exact flat_of_parts (by simpa using hb) (by simpa using ⟨hc, hm⟩) rfl
  | loop v min extent kind body ih =>
    obtain ⟨hbody, hexprs, -⟩ := flattenable_iff.mp hs
    unfold flattenWith
    refine (keeps_flattenExpr (hexprs min (by simp))).bind fun m hm =>
      (keeps_flattenExpr (hexprs extent (by simp))).bind fun x hx => ?_
    refine (ih (hbody body (by simp))).bind fun b hb => keeps_pure ?_
    exact flat_of_parts (by simpa using hb) (by simpa using ⟨hm, hx⟩) rfl
  | store buffer value index pred =>
    obtain ⟨-, hexprs, -⟩ := flattenable_iff.mp hs
    unfold flattenWith
    refine (keeps_flattenExpr (hexprs buffer (by simp))).bind fun b hb =>
      (keeps_flattenExpr (hexprs value (by simp))).bind fun v hv => ?_
    refine (keeps_flattenExpr (hexprs index (by simp))).bind fun i hi => ?_
    have hguard : (mapGuardM flattenExpr pred).Keeps (FlatState.Has (Expr.Flat r)) fun p :
        Option Expr => ∀ e ∈ p.toList, e.Flat r := by
      cases pred with
      | none => exact keeps_pure (List.forall_mem_nil _)
      | some p =>
        exact (keeps_flattenExpr (hexprs p (by simp))).bind fun p' hp => keeps_pure (List.forall_mem_singleton.mpr hp)
    refine hguard.bind fun p hp => keeps_pure (flat_of_parts (List.forall_mem_nil _) ?_ rfl)
    exact List.forall_mem_cons.mpr ⟨hb, List.forall_mem_cons.mpr ⟨hv, List.forall_mem_cons.mpr ⟨hi, hp⟩⟩⟩
  | provide op output value indices =>
    obtain ⟨-, hexprs, -⟩ := flattenable_iff.mp hs
    unfold flattenWith
    refine keeps_entry fun entry hentry => (keeps_flattenExpr (hexprs value (by simp))).bind fun v hv => ?_
    refine (keeps_mapM fun e he => keeps_flattenExpr (hexprs e (by simp [he]))).bind fun is his => keeps_lift ?_
    refine (hentry.relative his).bind fun relative hrelative =>
      (hentry.buffer.offsetOf hrelative).bind fun offset hoffset => ?_
    exact ensures_ok (flat_of_parts (List.forall_mem_nil _) (by simpa using ⟨Expr.flat_var, hv, hoffset⟩) rfl)
  | allocate site buffer t extents cond body ih =>
    obtain ⟨hbody, hexprs, -⟩ := flattenable_iff.mp hs
    unfold flattenWith
    refine (keeps_mapM fun e he => keeps_flattenExpr (hexprs e (by simp [he]))).bind fun xs hxs => ?_
    refine (keeps_flattenExpr (hexprs cond (by simp))).bind fun c hc => (ih (hbody body (by simp))).bind fun b hb =>
      keeps_pure ?_
    exact flat_of_parts (by simpa using hb) (List.forall_mem_append.mpr ⟨hxs, List.forall_mem_singleton.mpr hc⟩) rfl
  | realize op output t bounds cond body ih =>
    obtain ⟨hbody, -, hkept⟩ := flattenable_iff.mp hs
    have hb := ih (hbody body (by simp))
    obtain ⟨hbounds, hcond⟩ := List.forall_mem_append.mp hkept
    have hmin : ∀ b ∈ bounds, b.min.Flat r := fun b hb => hbounds _ (List.mem_flatMap.mpr ⟨b, hb, by simp⟩)
    have hextent : ∀ b ∈ bounds, b.extent.Flat r := fun b hb => hbounds _ (List.mem_flatMap.mpr ⟨b, hb, by simp⟩)
    unfold flattenWith
    refine Flatten.Keeps.bind (keeps_lift ensures_trivial) fun tensor _ => ?_
    split
    · rename_i b hfind
      obtain ⟨p, hp, rfl⟩ := Option.map_eq_some_iff.mp hfind
      exact keeps_modify_bind (hset ⟨hargs p (List.mem_of_find?_eq_some hp), List.forall_mem_nil _⟩) hb
    · refine keeps_get_bind fun fs _ => (keeps_liftBuild (flat_regionBuffer hextent)).bind fun b hbuffer => ?_
      refine keeps_modify_bind (hset ⟨hbuffer, List.forall_mem_map.mpr hmin⟩) (hb.bind fun body' hb => keeps_pure ?_)
      refine flat_of_parts (List.forall_mem_singleton.mpr ?_) (List.forall_mem_singleton.mpr Expr.Built.str) rfl
      refine flat_of_parts (List.forall_mem_singleton.mpr hb) (List.forall_mem_append.mpr ⟨?_, hcond⟩) rfl
      exact List.forall_mem_map.mpr hextent
  | prefetch op output t bounds =>
    obtain ⟨-, -, hkept⟩ := flattenable_iff.mp hs
    have hbounds : ∀ b ∈ bounds, b.min.Flat r ∧ b.extent.Flat r := fun b hb =>
      ⟨hkept _ (List.mem_flatMap.mpr ⟨b, hb, by simp⟩), hkept _ (List.mem_flatMap.mpr ⟨b, hb, by simp⟩)⟩
    unfold flattenWith
    exact keeps_entry fun entry hentry => keeps_liftBuild (flat_flattenPrefetch hentry hbounds)
  | seq ss ih =>
    obtain ⟨hbodies, -, -⟩ := flattenable_iff.mp hs
    have hall : (flattenWith.onList args line ss).Keeps (FlatState.Has (Expr.Flat r)) fun ss' => ∀ s ∈ ss', s.Flat r := by
      replace hbodies : ∀ s ∈ ss, s.Flattenable r := hbodies
      clear hs
      induction ss with
      | nil => exact keeps_pure (List.forall_mem_nil _)
      | cons s ss ihs =>
        obtain ⟨hs, hss⟩ := List.forall_mem_cons.mp hbodies
        obtain ⟨ih, ihss⟩ := List.forall_mem_cons.mp ih
        exact (ih hs).bind fun s' hs => (ihs ihss hss).bind fun ss' hss => keeps_pure (List.forall_mem_cons.mpr ⟨hs, hss⟩)
    unfold flattenWith
    exact hall.bind fun ss' hss => keeps_pure (flat_of_parts hss (List.forall_mem_nil _) rfl)
  | branch cond onTrue onFalse iht ihf =>
    obtain ⟨hbodies, hexprs, -⟩ := flattenable_iff.mp hs
    have hc := keeps_flattenExpr (hexprs cond (by simp))
    have ht := iht (hbodies onTrue (by simp))
    cases onFalse with
    | none =>
      unfold flattenWith
      refine hc.bind fun c hc => ht.bind fun t ht => keeps_pure ?_
      exact flat_of_parts (by simpa using ht) (by simpa using hc) rfl
    | some onFalse =>
      unfold flattenWith
      refine hc.bind fun c hc => ht.bind fun t ht => (ihf onFalse rfl (hbodies onFalse (by simp))).bind fun f hf =>
        keeps_pure ?_
      exact flat_of_parts (by simpa using ⟨ht, hf⟩) (by simpa using hc) rfl
  | eval e =>
    obtain ⟨-, hexprs, -⟩ := flattenable_iff.mp hs
    unfold flattenWith
    refine (keeps_flattenExpr (hexprs e (by simp))).bind fun e' he => keeps_pure ?_
    exact flat_of_parts (List.forall_mem_nil _) (by simpa using he) rfl

theorem mem_postorder_of_mem_stmts {s t : Stmt} {e a : Expr} (ht : t ∈ s.stmts) (he : e ∈ t.exprParts)
    (ha : a ∈ e.postorder) :
    Node.expr a ∈ s.postorder := by
  induction s using induct_bodies with
  | step s ih =>
    rw [stmts_eq] at ht
    rcases List.mem_append.mp ht with ht | ht
    · obtain ⟨b, hb, ht⟩ := List.mem_flatMap.mp ht
      exact mem_postorder.mpr (.inl ⟨b, hb, ih b hb ht⟩)
    · obtain rfl := List.mem_singleton.mp ht
      refine mem_postorder.mpr (.inr (List.mem_append_left _ (List.mem_flatMap.mpr ⟨e, he, List.mem_map_of_mem ha⟩)))

theorem kept_subset (s : Stmt) : s.kept ⊆ s.exprParts := by
  unfold kept
  split
  · exact List.Subset.refl _
  · exact List.Subset.refl _
  · exact List.Subset.refl _
  · exact List.nil_subset _

/-- The only reductions are those that are there. -/
theorem Flattenable.reductions {s : Stmt} (hs : s.Flattenable True) :
    s.Flattenable (∃ n ∈ s.postorder, n.unsupported? = some "reduce") := by
  refine fun t ht => ⟨fun e he h hh => ?_, fun e he a ha k hk => ?_⟩
  · obtain ⟨a, ha, rfl⟩ := List.mem_map.mp hh
    refine ⟨((hs t ht).1 e he _ hh).1, fun hreduce => ?_⟩
    cases a with
    | reduce => exact ⟨_, mem_postorder_of_mem_stmts ht he ha, rfl⟩
    | _ => cases hreduce
  · obtain ⟨rfl, -⟩ := (hs t ht).2 e he a ha k hk
    exact ⟨rfl, _, mem_postorder_of_mem_stmts ht (kept_subset t he) ha, hk⟩

end Stmt

theorem Func.mem_unsupported {f : Func} {k : String} : k ∈ f.unsupported ↔
    ∃ n ∈ f.body.postorder, n.unsupported? = some k := by
  rw [unsupported, List.mem_eraseDups, List.mem_filterMap]

/-- If nothing that is taken over reads a tensor, a function has nothing over tensors left when its body is flattened.
    What a backend rejects in it then is at most a reduction, which was there before, and without reductions it can be
    built. -/
theorem Func.unsupported_flatten {f : Func} {args : TensorBuffers} {line : Int} {g g' : Graph} {t : Stmt}
    (hargs : ∀ p ∈ args, p.2.Has (Expr.Flat False)) (hs : f.body.Flattenable True)
    (hrun : (f.body.flatten args line).Yields g t g') :
    (∀ k ∈ ({ f with body := t } : Func).unsupported, k = "reduce" ∧ k ∈ f.unsupported) ∧
      ("reduce" ∉ f.unsupported → ∀ target info, f.kind = (if info.isGpu then .device else .host) →
        Module.check target info { f with body := t } = .ok ()) := by
  have hflat : t.Flat (∃ n ∈ f.body.postorder, n.unsupported? = some "reduce") := by
    obtain ⟨⟨t', fs'⟩, g₁, hrun, hresult⟩ := Build.yields_bind.mp hrun
    cases hresult
    have hargs' : ∀ p ∈ args, p.2.Has (Expr.Flat (∃ n ∈ f.body.postorder, n.unsupported? = some "reduce")) := fun p hp =>
      ⟨fun d hd => ((hargs p hp).shape d hd).mono False.elim, fun d hd => ((hargs p hp).strides d hd).mono False.elim,
        (hargs p hp).elemOffset.mono False.elim⟩
    have hstart : (Stmt.flatStart args).Has (Expr.Flat (∃ n ∈ f.body.postorder, n.unsupported? = some "reduce")) :=
      List.forall_mem_map.mpr fun p hp => ⟨hargs' p hp, List.forall_mem_nil _⟩
    exact (Stmt.keeps_flattenWith hargs' hs.reductions _ _ _ _ _ hstart hrun).2
  have hunsupported : ∀ k ∈ ({ f with body := t } : Func).unsupported, k = "reduce" ∧ k ∈ f.unsupported := fun k hk => by
    obtain ⟨n, hn, hk⟩ := mem_unsupported.mp hk
    obtain ⟨rfl, hreduce⟩ := hflat n hn k hk
    exact ⟨rfl, mem_unsupported.mpr hreduce⟩
  refine ⟨hunsupported, fun hno target info hkind => ?_⟩
  have hnone : ({ f with body := t } : Func).unsupported = [] := List.eq_nil_iff_forall_not_mem.mpr fun k hk => by
    obtain ⟨rfl, hk⟩ := hunsupported k hk
    exact hno hk
  rw [Module.check, hnone, hkind]
  simp only [bne_self_eq_false, Bool.false_eq_true, if_false, List.isEmpty_nil, Bool.not_true]
  rfl

namespace Stmt.Gathered

def op (idx : Nat) (name : String) : OpRef := ⟨idx, name, true, 1⟩

def i : Expr := .var ⟨0, "i", .int32⟩

def read (o : OpRef) (index : Expr) : Expr := .call .int32 o.name [index] .tensorRead (some o) 0

def four : List Range := [⟨Expr.int32 0, Expr.int32 4⟩]

def forFour (body : Stmt) : Stmt := loop ⟨0, "i", .int32⟩ (Expr.int32 0) (Expr.int32 4) .serial body

/-- `T[i] = A[i] + 1`, then `B[i] = T[A[i]]`, with `T` over all four elements, prefetched. -/
def gather : Stmt :=
  realize (op 1 "T") 0 .int32 four (.const (.int 1) .bool)
    (seq [forFour (provide (op 1 "T") 0 (.bin .add (read (op 0 "A") i) (Expr.int32 1)) [i]),
      prefetch (op 1 "T") 0 .int32 four,
      forFour (provide (op 2 "B") 0 (read (op 1 "T") (read (op 0 "A") i)) [i])])

def buffer (id : Nat) (name : String) : Buffer :=
  ⟨⟨id, name, .handle⟩, .int32, [Expr.int32 4], [], Expr.int32 0, name, "", (-1 : Int), (0 : Int)⟩

def args : TensorBuffers := [(⟨op 0 "A", 0⟩, buffer 1 "A"), (⟨op 2 "B", 0⟩, buffer 2 "B")]

def graph : Graph := { ops := #[], next := 3 }

/-- The gathering function before its body is flattened. -/
def whole : Func :=
  { name := "whole", params := [.buffer (buffer 1 "A"), .buffer (buffer 2 "B")], body := gather, kind := .host }

/-- What flattening the body gives. -/
def flat : Stmt × Graph := match ((gather.flatten args 64).run.run graph).run with
  | (.ok t, g) => (t, g)
  | (_, g) => (seq [], g)

theorem flat_yields : (gather.flatten args 64).Yields graph flat.1 flat.2 := rfl

theorem gather_flattenable : gather.Flattenable True := by
  decide

theorem args_flat : ∀ p ∈ args, p.2.Has (Expr.Flat False) := by
  have hbuffer {id : Nat} {name : String} : (buffer id name).Has (Expr.Flat False) :=
    ⟨List.forall_mem_singleton.mpr Expr.Built.const, List.forall_mem_nil _, Expr.Built.const⟩
  exact List.forall_mem_cons.mpr ⟨hbuffer, List.forall_mem_singleton.mpr hbuffer⟩

/-- The flattened function can be built for a processor. -/
theorem supported_gather : Module.check "llvm" .cpu { whole with body := flat.1 } = .ok () :=
  (Func.unsupported_flatten (f := whole) args_flat gather_flattenable flat_yields).2 (by decide) "llvm" .cpu rfl

end Stmt.Gathered

end TensorNest

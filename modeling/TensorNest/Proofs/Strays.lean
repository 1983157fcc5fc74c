import TensorNest.Proofs.FlatForms
import TensorNest.Proofs.Partitions

/-! # Accesses outside of realizations

A tensor is accessed where it is read, written or prefetched and where double buffering is asked for it. An access
strays if it lies in no realization of the tensor, and the tensor is no argument (`Stmt.strays`). Flattening walks
through a statement and knows a tensor from its realization on, also after the end of it: it fails at the first access
to a tensor that it does not know (`Stmt.follows_flattenWith`). Such an access strays. So flattening fails just if an
access strays, as long as no tensor is accessed outside of its realizations only after one of them
(`Stmt.flatten_fails_iff_strays`). -/

namespace TensorNest

/-- The key of an output of an operation. -/
def OpRef.key (u : OpRef × Int) : Nat × Int := (u.1.idx, u.2)

/-- The outputs that an expression reads, in the order in which they are met. -/
def Expr.readOutputs (e : Expr) : List (OpRef × Int) :=
  e.tensorReads.map fun r => (r.1, r.2.1)

/-- What flattening comes to: an access to an output or the realization of one. -/
inductive Step where
  | access (u : OpRef × Int)
  | realize (key : Nat × Int)

namespace Step

/-- The accesses to outputs that are neither known nor realized on the way there. -/
def unmet : List (Nat × Int) → List Step → List (OpRef × Int)
  | _, [] => []
  | known, access u :: steps => if known.contains (OpRef.key u) then unmet known steps else u :: unmet known steps
  | known, realize key :: steps => unmet (key :: known) steps

/-- The outputs that are known afterwards. -/
def known : List (Nat × Int) → List Step → List (Nat × Int)
  | keys, [] => keys
  | keys, access _ :: steps => known keys steps
  | keys, realize key :: steps => known (key :: keys) steps

variable {keys : List (Nat × Int)} {steps steps' : List Step} {us us' : List (OpRef × Int)}

theorem unmet_append : unmet keys (steps ++ steps') = unmet keys steps ++ unmet (known keys steps) steps' := by
  induction steps generalizing keys with
  | nil => rfl
  | cons step steps ih =>
    cases step with
    | access u =>
      simp only [List.cons_append, unmet, known, ih]
      split <;> rfl
    | realize key => exact ih

theorem known_append : known keys (steps ++ steps') = known (known keys steps) steps' := by
  induction steps generalizing keys with
  | nil => rfl
  | cons step steps ih => cases step <;> exact ih

@[simp] theorem known_accesses : known keys (us.map access) = keys := by
  induction us with
  | nil => rfl
  | cons u us ih => exact ih

theorem unmet_accesses : unmet keys (us.map access) = us.filter fun u => !keys.contains (OpRef.key u) := by
  induction us with
  | nil => rfl
  | cons u us ih =>
    rw [List.map_cons, unmet, ih, List.filter_cons]
    by_cases h : OpRef.key u ∈ keys <;> simp [h]

/-- What is known stays so. -/
theorem known_subset : keys ⊆ known keys steps := by
  induction steps generalizing keys with
  | nil => exact List.Subset.refl _
  | cons step steps ih =>
    cases step with
    | access u => exact ih
    | realize key => exact fun k hk => ih (List.mem_cons_of_mem _ hk)

end Step

/-! ### Accesses of statements -/

namespace Stmt

/-- The outputs that a statement accesses outside of its bodies, in the order in which they are met. -/
def accesses (s : Stmt) : List (OpRef × Int) :=
  own s ++ s.exprParts.flatMap Expr.readOutputs
where
  /-- The output that a statement is for. -/
  own : Stmt → List (OpRef × Int)
    | provide op output _ _ | prefetch op output _ _ => [(op, output)]
    | attr (.op r) "double_buffer_scope" _ _ => [(r, 0)]
    | _ => []

/-- The output that a statement realizes. -/
def realized : Stmt → List (Nat × Int)
  | realize op output _ _ _ _ => [(op.idx, output)]
  | _ => []

/-- What flattening comes to at a statement, before its bodies. -/
def ownSteps (s : Stmt) : List Step :=
  s.accesses.map .access ++ s.realized.map .realize

/-- What flattening comes to in a statement. -/
def steps : Stmt → List Step
  | s@(bind _ _ body) | s@(attr _ _ _ body) | s@(assert _ _ body) | s@(loop _ _ _ _ body) | s@(allocate _ _ _ _ _ body)
  | s@(realize _ _ _ _ _ body) | s@(branch _ body none) => s.ownSteps ++ body.steps
  | s@(branch _ onTrue (some onFalse)) => s.ownSteps ++ (onTrue.steps ++ onFalse.steps)
  | s@(seq ss) => s.ownSteps ++ ofAll ss
  | s@(store ..) | s@(provide ..) | s@(prefetch ..) | s@(eval _) => s.ownSteps
where
  /-- What flattening comes to in several statements. -/
  ofAll : List Stmt → List Step
    | [] => []
    | s :: ss => s.steps ++ ofAll ss

/-- The accesses to outputs in a statement that lie in no realization of the output in it, nor in a scope. -/
def strays (scope : List (Nat × Int)) : Stmt → List (OpRef × Int)
  | s@(bind _ _ body) | s@(attr _ _ _ body) | s@(assert _ _ body) | s@(loop _ _ _ _ body) | s@(allocate _ _ _ _ _ body)
  | s@(branch _ body none) => outside s ++ body.strays scope
  | s@(realize op output _ _ _ body) => outside s ++ body.strays ((op.idx, output) :: scope)
  | s@(branch _ onTrue (some onFalse)) => outside s ++ (onTrue.strays scope ++ onFalse.strays scope)
  | s@(seq ss) => outside s ++ ofAll ss
  | s@(store ..) | s@(provide ..) | s@(prefetch ..) | s@(eval _) => outside s
where
  /-- What a statement accesses outside of a scope. -/
  outside (s : Stmt) : List (OpRef × Int) := s.accesses.filter fun u => !scope.contains (OpRef.key u)
  /-- The strays in several statements. -/
  ofAll : List Stmt → List (OpRef × Int)
    | [] => []
    | s :: ss => s.strays scope ++ ofAll ss

variable {s : Stmt} {scope keys : List (Nat × Int)} {u : OpRef × Int}

theorem steps_ofAll (ss : List Stmt) : steps.ofAll ss = ss.flatMap steps := by
  induction ss with
  | nil => rfl
  | cons s ss ih => rw [steps.ofAll, ih, List.flatMap_cons]

theorem steps_eq (s : Stmt) : s.steps = s.ownSteps ++ s.bodies.flatMap steps := by
  cases s with
  | branch cond onTrue onFalse => cases onFalse <;> simp [steps]
  | _ => simp [steps, steps_ofAll]

theorem strays_ofAll (ss : List Stmt) : strays.ofAll scope ss = ss.flatMap (strays scope) := by
  induction ss with
  | nil => rfl
  | cons s ss ih => rw [strays.ofAll, ih, List.flatMap_cons]

theorem strays_eq (s : Stmt) :
    s.strays scope = (s.accesses.filter fun u =>
      !scope.contains (OpRef.key u)) ++ s.bodies.flatMap (strays (s.realized ++ scope)) := by
  cases s with
  | branch cond onTrue onFalse => cases onFalse <;> simp [strays, strays.outside, realized]
  | _ => simp [strays, strays.outside, strays_ofAll, realized]

/-- An access to an output that is not known strays. -/
theorem unmet_subset_strays (hscope : scope ⊆ keys) : Step.unmet keys s.steps ⊆ s.strays scope := by
  induction s using induct_bodies generalizing scope keys with
  | step s ih =>
    have hbodies {bs : List Stmt} (hbs : bs ⊆ s.bodies) {keys' : List (Nat × Int)} (h : s.realized ++ scope ⊆ keys') :
        Step.unmet keys' (bs.flatMap steps) ⊆ bs.flatMap (strays (s.realized ++ scope)) := by
      induction bs generalizing keys' with
      | nil => exact List.Subset.refl _
      | cons b bs ihbs =>
        obtain ⟨hb, hbs⟩ := List.cons_subset.mp hbs
        rw [List.flatMap_cons, List.flatMap_cons, Step.unmet_append]
        refine List.append_subset.mpr ⟨fun u hu => List.mem_append_left _ (ih b hb h hu),
          fun u hu => List.mem_append_right _ ?_⟩
        exact ihbs hbs (fun k hk => Step.known_subset (h hk)) hu
    have hrealized (keys' : List (Nat × Int)) (ks : List (Nat × Int)) :
        Step.unmet keys' (ks.map .realize) = [] ∧ ∀ k, k ∈ ks ∨ k ∈ keys' → k ∈ Step.known keys' (ks.map .realize) := by
      induction ks generalizing keys' with
      | nil => simp [Step.unmet, Step.known]
      | cons k ks ihks =>
        refine ⟨(ihks _).1, fun k' hk' => (ihks (k :: keys')).2 k' ?_⟩
        simp only [List.mem_cons] at hk' ⊢
        tauto
    rw [steps_eq, strays_eq, Step.unmet_append, ownSteps, Step.unmet_append, Step.known_append, Step.known_accesses,
      (hrealized _ _).1,
      Step.unmet_accesses, List.append_nil]
    refine List.append_subset.mpr ⟨fun u hu => List.mem_append_left _ ?_, fun u hu => List.mem_append_right _ ?_⟩
    · simp only [List.mem_filter, Bool.not_eq_true', List.contains_eq_mem, decide_eq_false_iff_not] at hu ⊢
      exact ⟨hu.1, fun h => hu.2 (hscope h)⟩
    · exact hbodies (List.Subset.refl _) (fun k hk => (hrealized _ _).2 k ((List.mem_append.mp hk).imp_right (hscope ·))) hu

end Stmt

/-! ### Expressions -/

/-- The outputs that a buffer is known for. -/
def FlatState.keys (fs : FlatState) : List (Nat × Int) :=
  fs.entries.map (·.1)

/-- A type has a zero. -/
def DataType.HasZero (t : DataType) : Prop :=
  Gives (Expr.ofInt 0 t.element) fun _ => True

instance (t : DataType) : Decidable t.HasZero :=
  decidable_of_iff (Expr.ofInt 0 t.element).isOk (by
    unfold DataType.HasZero Gives
    cases Expr.ofInt 0 t.element with
    | error e => simp [Except.isOk, Except.toBool]
    | ok z => simp [Except.isOk, Except.toBool])

/-- The buffer of an output with some number of dimensions: laid out in signed integers, with elements of a type with a
    zero. -/
structure FlatEntry.Usable (e : FlatEntry) (rank : Nat) : Prop extends e.Regular rank where
  zero : e.buffer.dtype.HasZero

/-- All buffers known are usable for outputs with given numbers of dimensions. -/
def FlatState.Usable (rank : Nat × Int → Nat) (fs : FlatState) : Prop :=
  ∀ p ∈ fs.entries, p.2.Usable (rank p.1)

/-- A computation fails at the first of some accesses to an output without a buffer. Otherwise it gives what has a
    property. -/
def FlatState.Decides {α : Type} (fs : FlatState) (x : Except Error α) (us : List (OpRef × Int)) (P : α → Prop) : Prop :=
  ((us.filter fun u => !fs.keys.contains (OpRef.key u)) = [] ∧ Gives x P) ∨
    ∃ u rest, (us.filter fun u => !fs.keys.contains (OpRef.key u)) = u :: rest ∧ x = .error (.outsideRealize u.1.name)

namespace FlatState

variable {α β : Type} {fs : FlatState} {rank : Nat × Int → Nat} {x : Except Error α} {us us' : List (OpRef × Int)}
  {P : α → Prop} {Q : β → Prop}

theorem decides_of_gives (h : Gives x P) : fs.Decides x [] P := .inl ⟨rfl, h⟩

theorem decides_ok {a : α} (h : P a) : fs.Decides (.ok a) [] P := decides_of_gives (gives_ok h)

theorem Decides.bind {f : α → Except Error β} (hx : fs.Decides x us P) (hf : ∀ a, P a → fs.Decides (f a) us' Q) :
    fs.Decides (x >>= f) (us ++ us') Q := by
  unfold Decides
  rw [List.filter_append]
  obtain ⟨hus, a, rfl, ha⟩ | ⟨u, rest, hus, rfl⟩ := hx
  · rw [hus]
    exact hf a ha
  · rw [hus]
    exact .inr ⟨u, _, rfl, rfl⟩

/-- The buffer of an output. -/
theorem Usable.decides_entry (h : fs.Usable rank) (op : OpRef) (output : Int) :
    fs.Decides (fs.entry op output) [(op, output)] fun e => e.Usable (rank (op.idx, output)) := by
  have hkey : OpRef.key (op, output) ∈ fs.keys ↔ ∃ p ∈ fs.entries, p.1 = (op.idx, output) := by
    rw [keys, List.mem_map]
    rfl
  unfold FlatState.entry
  cases hfind : fs.entries.find? (·.1 == (op.idx, output)) with
  | none =>
    have hnot : OpRef.key (op, output) ∉ fs.keys := by
      rw [hkey]
      rintro ⟨p, hp, heq⟩
      exact List.find?_eq_none.mp hfind p hp (beq_iff_eq.mpr heq)
    exact .inr ⟨(op, output), [], by simp [hnot], rfl⟩
  | some p =>
    have hp := List.mem_of_find?_eq_some hfind
    have heq := List.find?_some hfind
    rw [beq_iff_eq] at heq
    have hmem : OpRef.key (op, output) ∈ fs.keys := hkey.mpr ⟨p, hp, heq⟩
    exact .inl ⟨by simp [hmem], _, rfl, heq ▸ h p hp⟩

end FlatState

namespace Expr

/-- An expression that has the type of another one, and is a constant only if that is the same constant. -/
structure Alike (e e' : Expr) : Prop where
  dtype : e'.dtype = e.dtype
  const : ∀ v t, e' = .const v t → e = .const v t

theorem Alike.integral {e e' : Expr} (h : e.Alike e') (he : e.Integral) : e'.Integral :=
  ⟨h.dtype ▸ he.type, fun v t heq => he.const v t (h.const v t heq)⟩

theorem alikes_integral {es es' : List Expr} (h : List.Forall₂ Alike es es') (hes : ∀ a ∈ es, a.Integral) :
    ∀ a ∈ es', a.Integral :=
  fun _ ha => by
    obtain ⟨b, hb, hab⟩ := exists_of_forall₂ h _ ha
    exact hab.integral (hes b hb)

/-- Each read in an expression has an integral index for each dimension. -/
def Addressed (rank : Nat × Int → Nat) (e : Expr) : Prop :=
  ∀ r ∈ e.tensorReads, r.2.2.length = rank (r.1.idx, r.2.1) ∧ ∀ a ∈ r.2.2, a.Integral

variable {rank : Nat × Int → Nat} {fs : FlatState} {e e' : Expr}

theorem postorder_eq (e : Expr) : e.postorder = e.parts.flatMap postorder ++ [e] := by
  cases e with
  | load t buffer index pred => cases pred <;> simp [postorder, postorder.ofOption, parts]
  | reduce combiner sources axes cond index => cases cond <;> simp [postorder, postorder.ofOption, parts]
  | _ => simp [postorder, parts]

theorem readOutputs_eq (h : ∀ t name args f index, e ≠ call t name args .tensorRead (some f) index) :
    e.readOutputs = e.parts.flatMap readOutputs := by
  simp only [readOutputs, tensorReads]
  rw [postorder_eq, List.filterMap_append, List.map_append, List.filterMap_flatMap, List.map_flatMap]
  refine (congrArg (_ ++ ·) (List.map_eq_nil_iff.mpr (List.filterMap_eq_nil_iff.mpr fun a ha =>
    ?_))).trans (List.append_nil _)
  rw [List.mem_singleton.mp ha]
  split
  · exact absurd rfl (h _ _ _ _ _)
  · rfl

theorem readOutputs_call {t : DataType} {name : String} {args : List Expr} {f : OpRef} {index : Ordinal} :
    (call t name args .tensorRead (some f) index).readOutputs = args.flatMap readOutputs ++ [(f, index.toInt)] := by
  simp only [readOutputs, tensorReads]
  rw [postorder_eq, List.filterMap_append, List.filterMap_flatMap, List.map_append, List.map_flatMap]
  rfl

theorem Addressed.part {a : Expr} (h : e.Addressed rank) (ha : a ∈ e.parts) : a.Addressed rank := fun r hr =>
  h r (tensorReads_subset ha hr)

/-- The address of an element of a usable buffer is built without fail. -/
theorem gives_load {entry : FlatEntry} {args : List Expr} (h : entry.Usable args.length) (hargs : ∀ a ∈ args, a.Integral)
    {t : DataType} :
    Gives (do entry.buffer.load (← entry.relative args) (.exact t)) fun e => e.dtype = t ∧ ∀ v u, e ≠ .const v u := by
  obtain ⟨off, hoff, -⟩ := FlatEntry.gives_address (R := Stmt.Neighbours.reading) h.toRegular hargs
  obtain ⟨l, hl, hoff⟩ := bind_eq_ok.mp hoff
  refine ⟨.load t (.var entry.buffer.data) off none, ?_, rfl, by rintro _ _ ⟨⟩⟩
  show (entry.relative args >>= fun l => entry.buffer.load l (.exact t)) = _
  rw [hl]
  show (entry.buffer.offsetOf l >>= fun off => Except.ok (Expr.load t (.var entry.buffer.data) off none)) = _
  rw [hoff]
  rfl

/-- Flattening an expression fails at the first read of an output without a buffer. -/
theorem decides_flatten (hfs : fs.Usable rank) (he : e.Addressed rank) :
    fs.Decides (e.flatten fs) e.readOutputs (Alike e) := by
  have hlist {f : Expr → Except Error Expr} {es : List Expr} (h : ∀ a ∈ es,
      fs.Decides (a.rebuildM f) a.readOutputs (Alike a)) :
      fs.Decides (rebuildM.onList f es) (es.flatMap readOutputs) (List.Forall₂ Alike es) := by
    induction es with
    | nil => exact FlatState.decides_ok .nil
    | cons a es ih =>
      obtain ⟨ha, hes⟩ := List.forall_mem_cons.mp h
      rw [List.flatMap_cons, ← List.append_nil (List.flatMap _ _)]
      exact ha.bind fun a' ha' => (ih hes).bind fun es' hes' => FlatState.decides_ok (.cons ha' hes')
  have hoption {f : Expr → Except Error Expr} {o : Option Expr} (h : ∀ a ∈ o,
      fs.Decides (a.rebuildM f) a.readOutputs (Alike a)) :
      fs.Decides (rebuildM.onOption f o) (o.toList.flatMap readOutputs) fun _ => True := by
    cases o with
    | none => exact FlatState.decides_ok trivial
    | some a =>
      rw [Option.toList_some, List.flatMap_cons, List.flatMap_nil]
      exact (h a rfl).bind fun a' _ => FlatState.decides_ok trivial
  unfold Expr.flatten
  induction e with
  | var v => exact FlatState.decides_ok ⟨rfl, fun _ _ => Expr.noConfusion⟩
  | const v t => exact FlatState.decides_ok ⟨rfl, fun _ _ h => h⟩
  | str s => exact FlatState.decides_ok ⟨rfl, fun _ _ => Expr.noConfusion⟩
  | cast t a ih =>
    rw [readOutputs_eq (by simp), parts, List.flatMap_cons, List.flatMap_nil]
    exact (ih (he.part (by simp [parts]))).bind fun a' ha => FlatState.decides_ok ⟨rfl, by rintro _ _ ⟨⟩⟩
  | not a ih =>
    rw [readOutputs_eq (by simp), parts, List.flatMap_cons, List.flatMap_nil]
    exact (ih (he.part (by simp [parts]))).bind fun a' ha => FlatState.decides_ok ⟨ha.dtype, by rintro _ _ ⟨⟩⟩
  | broadcast a lanes ih =>
    rw [readOutputs_eq (by simp), parts, List.flatMap_cons, List.flatMap_nil]
    exact (ih (he.part (by simp [parts]))).bind fun a' ha =>
      FlatState.decides_ok ⟨by simp only [Expr.dtype, ha.dtype], by rintro _ _ ⟨⟩⟩
  | bin op a b iha ihb =>
    rw [readOutputs_eq (by simp), parts, List.flatMap_cons, List.flatMap_cons, List.flatMap_nil]
    exact (iha (he.part (by simp [parts]))).bind fun a' ha => (ihb (he.part (by simp [parts]))).bind fun b' _ =>
      FlatState.decides_ok ⟨by simp only [Expr.dtype, ha.dtype], by rintro _ _ ⟨⟩⟩
  | ramp a b lanes iha ihb =>
    rw [readOutputs_eq (by simp), parts, List.flatMap_cons, List.flatMap_cons, List.flatMap_nil]
    exact (iha (he.part (by simp [parts]))).bind fun a' ha => (ihb (he.part (by simp [parts]))).bind fun b' _ =>
      FlatState.decides_ok ⟨by simp only [Expr.dtype, ha.dtype], by rintro _ _ ⟨⟩⟩
  | bind v a b iha ihb =>
    rw [readOutputs_eq (by simp), parts, List.flatMap_cons, List.flatMap_cons, List.flatMap_nil]
    exact (iha (he.part (by simp [parts]))).bind fun a' _ => (ihb (he.part (by simp [parts]))).bind fun b' hb =>
      FlatState.decides_ok ⟨hb.dtype, by rintro _ _ ⟨⟩⟩
  | select c a b ihc iha ihb =>
    rw [readOutputs_eq (by simp), parts, List.flatMap_cons, List.flatMap_cons, List.flatMap_cons, List.flatMap_nil]
    exact (ihc (he.part (by simp [parts]))).bind fun c' _ => (iha (he.part (by simp [parts]))).bind fun a' ha =>
      (ihb (he.part (by simp [parts]))).bind fun b' _ => FlatState.decides_ok ⟨ha.dtype, by rintro _ _ ⟨⟩⟩
  | call t name args kind func index ih =>
    have hargs := hlist fun a ha => ih a ha (he.part ha)
    by_cases hread : ∃ f, kind = .tensorRead ∧ func = some f
    · obtain ⟨f, rfl, rfl⟩ := hread
      obtain ⟨hrank, hintegral⟩ := he _ (mem_tensorReads_call ..)
      rw [readOutputs_call, ← List.append_nil [(f, index.toInt)]]
      refine hargs.bind fun args' hargs => (hfs.decides_entry f index.toInt).bind fun entry hentry =>
        FlatState.decides_of_gives ?_
      have hlength : args'.length = rank (f.idx, index.toInt) := hargs.length_eq.symm.trans hrank
      refine (gives_load (hlength ▸ hentry) (alikes_integral hargs hintegral)).mono fun e he => ?_
      exact ⟨he.1, fun v u heq => absurd heq (he.2 v u)⟩
    · rw [readOutputs_eq (fun t' name' args' f index' heq => by cases heq; exact hread ⟨f, rfl, rfl⟩),
        ← List.append_nil (List.flatMap _ _)]
      refine hargs.bind fun args' _ => ?_
      dsimp only
      split
      · rename_i heq
        cases heq
        exact absurd ⟨_, rfl, rfl⟩ hread
      · exact FlatState.decides_ok ⟨rfl, by rintro _ _ ⟨⟩⟩
  | load t buffer index pred ihb ihi ihp =>
    rw [readOutputs_eq (by simp), parts, List.flatMap_cons, List.flatMap_cons,
      ← List.append_nil (List.flatMap _ pred.toList)]
    refine (ihb (he.part (by simp [parts]))).bind fun b' _ => (ihi (he.part (by simp [parts]))).bind fun i' _ => ?_
    refine (hoption fun p hp => ihp p hp (he.part ?_)).bind fun p' _ => FlatState.decides_ok ⟨rfl, by rintro _ _ ⟨⟩⟩
    exact List.mem_cons_of_mem _ (List.mem_cons_of_mem _ (Option.mem_toList.mpr hp))
  | reduce combiner sources axes cond index _ _ ihs _ ihc =>
    rw [readOutputs_eq (by simp), parts, List.flatMap_append, ← List.append_nil (List.flatMap _ cond.toList)]
    refine (hlist fun a ha => ihs a ha (he.part (List.mem_append_left _ ha))).bind fun sources' _ => ?_
    refine (hoption fun c hc => ihc c hc (he.part ?_)).bind fun cond' _ => FlatState.decides_ok ⟨rfl, by rintro _ _ ⟨⟩⟩
    exact List.mem_append_right _ (Option.mem_toList.mpr hc)

end Expr

/-! ### Prefetches of cache lines -/

theorem gives_mapM {α β : Type} {P : β → Prop} {f : α → Except Error β} {l : List α} (h : ∀ a ∈ l, Gives (f a) P) :
    Gives (l.mapM f) fun bs => bs.length = l.length ∧ ∀ b ∈ bs, P b := by
  induction l with
  | nil => exact gives_ok ⟨rfl, List.forall_mem_nil _⟩
  | cons a l ih =>
    obtain ⟨ha, hl⟩ := List.forall_mem_cons.mp h
    rw [List.mapM_cons]
    exact ha.bind fun b hb => (ih hl).bind fun bs hbs =>
      gives_ok ⟨congrArg Nat.succ hbs.1, List.forall_mem_cons.mpr ⟨hb, hbs.2⟩⟩

theorem gives_foldlM {α β : Type} {I : β → Prop} {f : β → α → Except Error β} {l : List α} {b : β}
    (step : ∀ a ∈ l, ∀ b, I b → Gives (f b a) I) (h : I b) : Gives (l.foldlM f b) I := by
  induction l generalizing b with
  | nil => exact gives_ok h
  | cons a l ih =>
    obtain ⟨ha, hl⟩ := List.forall_mem_cons.mp step
    rw [List.foldlM_cons]
    exact (ha b h).bind fun b' hb => ih hl hb

namespace Expr

variable {op : BinOp} {a b : Expr}

/-- An operation on indices gives an index. -/
theorem gives_fold_integral (hop : op.isLogical = false) (ha : a.Integral) (hb : b.Integral) :
    Gives (fold op a b) Integral := by
  have hdtype : (bin op a b).dtype = a.dtype := by simp [Expr.dtype, hop]
  have hbin : (bin op a b).Integral := integral_of_not_const (hdtype ▸ ha.type) (by rintro _ _ ⟨⟩)
  unfold fold
  split
  · rename_i u t v t'
    split
    · exact gives_ok hbin
    obtain ⟨i, rfl⟩ := ha.const u t rfl
    obtain ⟨j, rfl⟩ := hb.const v t' rfl
    have ht : t.IsSigned := ha.type
    rw [ht.isIndex.integer, hdtype]
    refine (gives_foldValue hop i j).bind ?_
    rintro _ ⟨k, rfl⟩
    exact ⟨_, ofNumber_int ht.isIndex k, integral_const k ht⟩
  · exact gives_ok hbin

theorem gives_arith_integral (op : BinOp) (hop : op.isLogical = false) (ha : a.Integral) (hb : b.Integral) :
    Gives (arith op a b) Integral :=
  (ha.gives_operands Stmt.Neighbours.reading hb).bind fun _ hp => gives_fold_integral hop hp.1 hp.2

theorem gives_arith_integral_int (op : BinOp) (hop : op.isLogical = false) (ha : a.Integral) (n : Int) :
    Gives (arith op a n) Integral := by
  rw [arith, operands_int ha.type.isIndex rfl]
  exact gives_fold_integral hop ha (integral_const n ha.type)

theorem gives_ceilDiv_integral (ha : a.Integral) (n : Int) : Gives (ceilDiv a n) Integral := by
  have hn : (const (.int n) a.dtype).Integral := integral_const n ha.type
  rw [ceilDiv, operands_int ha.type.isIndex rfl]
  refine (gives_arith_integral_int .sub rfl hn 1).bind fun c hc => ?_
  exact (gives_arith_integral .add rfl ha hc).bind fun d hd => gives_arith_integral .div rfl hd hn

end Expr

/-- A range of integral bounds. -/
structure Range.Integral (r : Range) : Prop where
  min : r.min.Integral
  extent : r.extent.Integral

instance (rank : Nat × Int → Nat) (e : Expr) : Decidable (e.Addressed rank) :=
    inferInstanceAs (Decidable (∀ r ∈ e.tensorReads, _ ∧ _))

instance (r : Range) : Decidable r.Integral :=
  decidable_of_iff (r.min.Integral ∧ r.extent.Integral) ⟨fun h => ⟨h.1, h.2⟩, fun h => ⟨h.min, h.extent⟩⟩

/-- A computation on a graph gives what has a property. -/
def Build.Gives {α : Type} (x : Build α) (P : α → Prop) : Prop :=
  ∀ g, ∃ a g', x.Yields g a g' ∧ P a

section BuildGives
variable {α β : Type} {x : Build α} {P : α → Prop} {Q : β → Prop}

theorem Build.Gives.bind {f : α → Build β} (hx : x.Gives P) (hf : ∀ a, P a → (f a).Gives Q) : (x >>= f).Gives Q :=
    fun g => by
  obtain ⟨a, g₁, hxrun, ha⟩ := hx g
  obtain ⟨b, g₂, hfrun, hb⟩ := hf a ha g₁
  exact ⟨b, g₂, Build.yields_bind.mpr ⟨a, g₁, hxrun, hfrun⟩, hb⟩

theorem Gives.build {x : Except Error α} (h : TensorNest.Gives x P) : (liftM x : Build α).Gives P := fun g => by
  obtain ⟨a, rfl, ha⟩ := h
  exact ⟨a, g, Build.yields_liftExcept.mpr ⟨rfl, rfl⟩, ha⟩

end BuildGives

namespace Stmt

variable {bounds : List Range} {vars : List Var} {lanes : Int}

theorem gives_prefetchIndices (hbounds : ∀ r ∈ bounds, r.Integral) (hvars : ∀ v ∈ vars, v.dtype = .int32)
    (hlength : vars.length = bounds.length) :
    Gives (prefetchIndices lanes bounds vars) fun is => is.length = bounds.length ∧ ∀ i ∈ is, i.Integral := by
  refine (gives_mapM (P := Expr.Integral) fun p hp => ?_).mono fun is his => ⟨by simpa [hlength] using his.1, his.2⟩
  obtain ⟨⟨r, v⟩, dim⟩ := p
  have hzip := List.of_mem_zip (List.fst_mem_of_mem_zipIdx hp)
  have hv : (Expr.var v).Integral := Expr.integral_of_not_const (by rw [Expr.dtype, hvars v hzip.2]; exact ⟨rfl, rfl⟩)
    (by rintro _ _ ⟨⟩)
  have hmin := (hbounds r hzip.1).min
  dsimp only
  split
  · exact (Expr.gives_arith_integral_int .mul rfl hv lanes).bind fun e he => Expr.gives_arith_integral .add rfl hmin he
  · exact Expr.gives_arith_integral .add rfl hmin hv

theorem gives_prefetchLoops (hbounds : ∀ r ∈ bounds, r.Integral) (s : Stmt) :
    Gives (prefetchLoops lanes bounds vars s) fun _ => True := by
  unfold prefetchLoops
  generalize hl : (bounds.zip vars).zipIdx = l
  have hmem : ∀ p ∈ l, p.1.1.Integral := fun p hp => hbounds _ (List.of_mem_zip (List.fst_mem_of_mem_zipIdx (hl ▸ hp))).1
  clear hl
  induction l with
  | nil => exact gives_ok trivial
  | cons p l ih =>
    obtain ⟨⟨r, v⟩, dim⟩ := p
    obtain ⟨hr, hl⟩ := List.forall_mem_cons.mp hmem
    rw [List.foldrM_cons]
    refine (ih hl).bind fun t _ => ?_
    dsimp only
    split
    · exact (Expr.gives_ceilDiv_integral hr.extent lanes).bind fun e _ => gives_ok trivial
    · exact gives_ok trivial

theorem gives_flattenPrefetch {entry : FlatEntry} {line : Int} {t : DataType} (hentry : entry.Usable bounds.length)
    (hbounds : ∀ r ∈ bounds, r.Integral) :
    (flattenPrefetch entry line t bounds).Gives fun _ => True := by
  have hvars (l : List Nat) : (l.mapM fun i =>
      freshVar ("prefetch." ++ entry.buffer.name ++ "." ++ toString i)).Gives fun vs =>
      vs.length = l.length ∧ ∀ v ∈ vs, v.dtype = .int32 := by
    induction l with
    | nil => exact fun g => ⟨[], g, Build.yields_pure.mpr ⟨rfl, rfl⟩, rfl, List.forall_mem_nil _⟩
    | cons i l ih =>
      rw [List.mapM_cons]
      refine Build.Gives.bind (P := fun v => v.dtype = .int32)
        (fun g => ⟨_, _, yields_freshVar.mpr ⟨rfl, rfl⟩, rfl⟩) fun v hv => ?_
      refine ih.bind fun vs hvs g => ⟨_, g, Build.yields_pure.mpr ⟨rfl, rfl⟩, congrArg Nat.succ hvs.1,
        List.forall_mem_cons.mpr ⟨hv, hvs.2⟩⟩
  obtain ⟨hregular, hzero⟩ := hentry
  have hint32 (n : Int) : Gives (Expr.ofInt n .int32) Expr.Integral :=
    ⟨_, Expr.ofNumber_int (DataType.IsSigned.isIndex ⟨rfl, rfl⟩) n, Expr.integral_const n ⟨rfl, rfl⟩⟩
  have hsize : Gives (Buffer.sizeOf entry.buffer.shape) Expr.Integral := (hint32 1).bind fun one hone =>
    gives_foldlM (fun d hd n hn => Expr.gives_arith_integral .mul rfl hn (hregular.extents d hd)) hone
  have haccess {start : Expr} (h : start.Integral) : Gives (entry.buffer.accessPtr 1 start) fun _ => True :=
    hsize.bind fun extent _ => hzero.bind fun element _ =>
      (Expr.gives_arith_integral .add rfl hregular.offset h).bind fun start _ =>
      (hint32 1).bind fun mask _ => gives_ok trivial
  unfold flattenPrefetch
  refine (hvars (List.range bounds.length)).bind fun vars hvars => ?_
  refine (gives_prefetchIndices hbounds hvars.2 (hvars.1.trans List.length_range)).build.bind fun is his => ?_
  obtain ⟨offset, hoffset, hintegral, -⟩ := FlatEntry.gives_address (R := Neighbours.reading) (his.1 ▸ hregular) his.2
  obtain ⟨relative, hrelative, hoffset⟩ := bind_eq_ok.mp hoffset
  refine Build.Gives.bind (P := (· = relative)) (TensorNest.Gives.build ⟨_, hrelative, rfl⟩) ?_
  rintro _ rfl
  refine Build.Gives.bind (P := Expr.Integral) (TensorNest.Gives.build ⟨_, hoffset, hintegral⟩) fun offset hoffset => ?_
  refine (Expr.gives_arith_integral .sub rfl hoffset hregular.offset).build.bind fun start hstart => ?_
  exact (haccess hstart).build.bind fun ptr _ => (gives_prefetchLoops hbounds _).build

end Stmt

/-! ### Steps of flattening -/

/-- A computation on a graph fails with an error. -/
def Build.Fails {α : Type} (x : Build α) (g : Graph) (e : Error) : Prop :=
  ∃ g', (x.run.run g).run = (.error e, g')

namespace Build

variable {α β : Type} {x : Build α} {f : α → Build β} {g g' : Graph} {e : Error}

theorem Fails.bind (h : x.Fails g e) : (x >>= f).Fails g e := by
  obtain ⟨g', h⟩ := h
  refine ⟨g', ?_⟩
  simp only [ExceptT.run, StateT.run, Id.run] at h
  simp only [ExceptT.run, Bind.bind, ExceptT.bind, ExceptT.mk, StateT.bind, StateT.run, Id.run, h]
  rfl

theorem Yields.bind_fails {a : α} (hx : x.Yields g a g') (h : (f a).Fails g' e) : (x >>= f).Fails g e := by
  obtain ⟨g₁, h⟩ := h
  refine ⟨g₁, ?_⟩
  simp only [Yields, ExceptT.run, StateT.run, Id.run] at hx
  simp only [ExceptT.run, bind, ExceptT.bind, ExceptT.mk, StateT.bind, StateT.run, Id.run, hx]
  exact h

end Build

namespace Flatten

/-- Flattening fails with an error. -/
def Fails {α : Type} (x : Flatten α) (fs : FlatState) (g : Graph) (e : Error) : Prop :=
  Build.Fails (x.run fs) g e

/-- Flattening follows some steps: with usable buffers it fails at the first access that is not met, and otherwise it
    gives what has a property, and the outputs known are those after the steps. -/
def Follows {α : Type} (rank : Nat × Int → Nat) (x : Flatten α) (steps : List Step) (P : α → Prop) (fs : FlatState) :
    Prop :=
  ∀ g, fs.Usable rank →
    (Step.unmet fs.keys steps = [] ∧ ∃ a fs' g', x.Yields fs g a fs' g' ∧ P a ∧ fs'.Usable rank ∧
      fs'.keys = Step.known fs.keys steps) ∨
      ∃ u rest, Step.unmet fs.keys steps = u :: rest ∧ x.Fails fs g (.outsideRealize u.1.name)

variable {α β : Type} {rank : Nat × Int → Nat} {x : Flatten α} {steps steps' : List Step} {P : α → Prop} {Q : β → Prop}
  {fs : FlatState}

theorem follows_pure {a : α} (h : P a) : Follows rank (pure a) [] P fs :=
    fun g hfs => .inl ⟨rfl, a, fs, g, rfl, h, hfs, rfl⟩

theorem Follows.bind {f : α → Flatten β} (hx : Follows rank x steps P fs)
    (hf : ∀ a, P a → ∀ fs', Follows rank (f a) steps' Q fs') :
    Follows rank (x >>= f) (steps ++ steps') Q fs := by
  intro g hfs
  rw [Step.unmet_append, Step.known_append]
  obtain ⟨hunmet, a, fs₁, g₁, hyields, ha, hfs₁, hkeys⟩ | ⟨u, rest, hunmet, hfails⟩ := hx g hfs
  · rw [hunmet, List.nil_append, ← hkeys]
    obtain ⟨hunmet', b, fs₂, g₂, hyields', hb⟩ | ⟨u, rest, hunmet', hfails⟩ := hf a ha fs₁ g₁ hfs₁
    · exact .inl ⟨hunmet', b, fs₂, g₂, yields_bind hyields hyields', hb⟩
    · exact .inr ⟨u, rest, hunmet', Build.Yields.bind_fails hyields hfails⟩
  · rw [hunmet]
    exact .inr ⟨u, _, rfl, Build.Fails.bind hfails⟩

theorem follows_get_bind {f : FlatState → Flatten β} (h : Follows rank (f fs) steps Q fs) :
    Follows rank (get >>= f) steps Q fs := h

theorem follows_setScope_bind {f : PUnit → Flatten β} {op : OpRef} {scope : String}
    (h : ∀ fs', Follows rank (f ⟨⟩) steps Q fs') :
    Follows rank (modify (·.setScope op scope) >>= f) steps Q fs := fun g hfs => h (fs.setScope op scope) g hfs

theorem follows_setEntry_bind {f : PUnit → Flatten β} {op : OpRef} {output : Int} {entry : FlatEntry}
    (he : entry.Usable (rank (op.idx, output)))
    (h : ∀ fs', Follows rank (f ⟨⟩) steps Q fs') :
    Follows rank (modify (·.setEntry op output entry) >>= f) (.realize (op.idx, output) :: steps) Q fs := fun g hfs =>
  h (fs.setEntry op output entry) g (List.forall_mem_cons.mpr ⟨he, hfs⟩)

theorem follows_lift {x : Except Error α} {us : List (OpRef × Int)} (h : fs.Usable rank → fs.Decides x us P) :
    Follows rank (liftM x) (us.map .access) P fs := by
  intro g hfs
  rw [Step.unmet_accesses, Step.known_accesses]
  obtain ⟨hus, a, rfl, ha⟩ | ⟨u, rest, hus, rfl⟩ := h hfs
  · exact .inl ⟨hus, a, fs, g, yields_ok rfl, ha, hfs, rfl⟩
  · exact .inr ⟨u, rest, hus, g, rfl⟩

theorem follows_gives {x : Except Error α} (h : Gives x P) : Follows rank (liftM x) [] P fs := by
  have hlift : Follows rank (liftM x) (([] : List (OpRef × Int)).map .access) P fs :=
    follows_lift fun _ => FlatState.decides_of_gives h
  exact hlift

theorem follows_liftBuild {x : Build α} (h : x.Gives P) : Follows rank (liftM x) [] P fs := fun g hfs => by
  obtain ⟨a, g', hrun, ha⟩ := h g
  exact .inl ⟨rfl, a, fs, g', yields_build hrun, ha, hfs, rfl⟩

/-- A step without accesses comes first. -/
theorem Follows.bind_nil {f : α → Flatten β} (hx : Follows rank x [] P fs)
    (hf : ∀ a, P a → ∀ fs', Follows rank (f a) steps Q fs') :
    Follows rank (x >>= f) steps Q fs := hx.bind hf

theorem follows_flattenExpr {e : Expr} (he : e.Addressed rank) :
    Follows rank (flattenExpr e) (e.readOutputs.map .access) (Expr.Alike e) fs :=
  follows_get_bind (follows_lift fun hfs => Expr.decides_flatten hfs he)

theorem follows_flattenExprs {es : List Expr} (hes : ∀ e ∈ es, e.Addressed rank) (fs : FlatState) :
    Follows rank (es.mapM flattenExpr) ((es.flatMap Expr.readOutputs).map .access) (List.Forall₂ Expr.Alike es) fs := by
  induction es generalizing fs with
  | nil => exact follows_pure .nil
  | cons e es ih =>
    obtain ⟨he, hes⟩ := List.forall_mem_cons.mp hes
    rw [List.mapM_cons, List.flatMap_cons, List.map_append, ← List.append_nil (List.map _ (es.flatMap _))]
    exact (follows_flattenExpr he).bind fun e' he' fs => (ih hes fs).bind fun es' hes' fs => follows_pure (.cons he' hes')

end Flatten

/-! ### Statements -/

namespace Stmt
open Flatten

/-- The expressions that flattening does not look into. -/
def skipped : Stmt → List Expr
  | attr (.op _) "realize_scope" value _ => [value]
  | s => s.kept

/-- The indices of a statement itself, if it is for an output, are integral, one for each dimension. -/
def OwnAddressed (rank : Nat × Int → Nat) : Stmt → Prop
  | provide op output _ args => args.length = rank (op.idx, output) ∧ ∀ a ∈ args, a.Integral
  | realize op output t bounds _ _ =>
    (0 ≤ output ∧ output < op.numOutputs) ∧ bounds.length = rank (op.idx, output) ∧ (∀ r ∈ bounds, r.Integral) ∧ t.HasZero
  | prefetch op output _ bounds => bounds.length = rank (op.idx, output) ∧ ∀ r ∈ bounds, r.Integral
  | _ => True

instance (rank : Nat × Int → Nat) : (s : Stmt) → Decidable (s.OwnAddressed rank)
  | provide .. | realize .. | prefetch .. => inferInstanceAs (Decidable (_ ∧ _))
  | bind .. | attr .. | assert .. | loop .. | store .. | allocate .. | seq _ | branch .. | eval _ => isTrue trivial

/-- All accesses in a statement have an integral index for each dimension, and none is in an expression that is skipped. -/
def Addressed (rank : Nat × Int → Nat) (s : Stmt) : Prop :=
  ∀ t ∈ s.stmts, t.OwnAddressed rank ∧ (∀ e ∈ t.exprParts, e.Addressed rank) ∧ ∀ e ∈ t.skipped, e.tensorReads = []

instance (rank : Nat × Int → Nat) (s : Stmt) : Decidable (s.Addressed rank) :=
    inferInstanceAs (Decidable (∀ t ∈ s.stmts, _ ∧ _ ∧ _))

variable {rank : Nat × Int → Nat} {args : TensorBuffers}

theorem addressed_iff {s : Stmt} : s.Addressed rank ↔ (∀ b ∈ s.bodies, b.Addressed rank) ∧ s.OwnAddressed rank ∧
    (∀ e ∈ s.exprParts, e.Addressed rank) ∧ ∀ e ∈ s.skipped, e.tensorReads = [] := forall_mem_stmts

theorem makes_regionBuffer {op : OpRef} {output : Int} {t : DataType} {bounds : List Range} {scope : String} :
    (regionBuffer op output t bounds scope).Makes fun b => b.dtype = t := by
  have htrivial {α : Type} {x : Build α} : x.Makes fun _ => True := fun _ _ _ _ => trivial
  have hresolve : Ensures (TypeSpec.exact t).resolve (· = t) := ensures_ok rfl
  refine htrivial.bind fun data _ => htrivial.bind fun _ _ => htrivial.bind fun _ _ => hresolve.makes.bind ?_
  rintro _ rfl
  refine htrivial.bind fun shape _ => htrivial.bind fun strides _ => htrivial.bind fun offset _ g b g' hrun => ?_
  obtain ⟨rfl, -⟩ := Build.yields_pure.mp hrun
  rfl

theorem gives_regionBuffer {op : OpRef} {output : Int} {t : DataType} {bounds : List Range} {scope : String}
    (hbounds : ∀ r ∈ bounds, r.Integral)
    (ht : t.HasZero) : (regionBuffer op output t bounds scope).Gives fun b =>
    (FlatEntry.mk b (bounds.map (·.min))).Usable bounds.length := by
  intro g
  obtain ⟨b, hrun, hb⟩ := yields_regionBuffer op output t bounds scope g
  refine ⟨b, _, hrun, ⟨hb.strides, by simp [hb.shape], fun e he => ?_, .inr (by simp), fun e he => ?_, ?_⟩, ?_⟩
  · rw [hb.shape] at he
    obtain ⟨r, hr, rfl⟩ := List.mem_map.mp he
    exact (hbounds r hr).extent
  · obtain ⟨r, hr, rfl⟩ := List.mem_map.mp he
    exact (hbounds r hr).min
  · rw [hb.offset]
    exact Expr.integral_const 0 ⟨rfl, rfl⟩
  · exact (makes_regionBuffer g b _ hrun).symm ▸ ht

theorem readOutputs_skipped {es : List Expr} (h : ∀ e ∈ es, e.tensorReads = []) : es.flatMap Expr.readOutputs = [] :=
  List.flatMap_eq_nil_iff.mpr fun e he => by rw [Expr.readOutputs, h e he, List.map_nil]

/-- Flattening a statement follows its steps. -/
theorem follows_flattenWith (line : Int) (hargs : ∀ p ∈ args, (FlatEntry.mk p.2 []).Usable (rank p.1.key)) {s : Stmt}
    (hs : s.Addressed rank) (fs : FlatState) :
    Follows rank (s.flattenWith args line) s.steps (fun _ => True) fs := by
  induction s generalizing fs with
  | bind v e body ih =>
    obtain ⟨hbody, -, hexprs, -⟩ := addressed_iff.mp hs
    have hsteps : (Stmt.bind v e body).steps = e.readOutputs.map .access ++ (body.steps ++ []) := by
      simp [steps, ownSteps, accesses, accesses.own, realized]
    rw [hsteps]
    unfold flattenWith
    exact (follows_flattenExpr (hexprs e (by simp))).bind fun _ _ fs => (ih (hbody body (by simp)) fs).bind fun _ _ fs =>
      follows_pure trivial
  | attr subject key e body ih =>
    obtain ⟨hbody, -, hexprs, hskipped⟩ := addressed_iff.mp hs
    have hb := ih (hbody body (by simp))
    unfold flattenWith
    split
    · -- A request for a scope is dropped.
      have hread := readOutputs_skipped hskipped
      rename_i r
      have hsteps : (attr (.op r) "realize_scope" e body).steps = body.steps := by
        simpa [steps, ownSteps, accesses, accesses.own, realized, skipped] using hread
      rw [hsteps]
      exact follows_setScope_bind hb
    · have hread := readOutputs_skipped hskipped
      rename_i r
      have hsteps : (attr (.op r) "double_buffer_scope" e body).steps =
        [(r, (0 : Int))].map .access ++ (body.steps ++ []) := by
        simpa [steps, ownSteps, accesses, accesses.own, realized, skipped, kept] using hread
      rw [hsteps]
      exact follows_get_bind ((follows_lift fun hfs => hfs.decides_entry r 0).bind fun _ _ fs =>
        (hb fs).bind fun _ _ fs => follows_pure trivial)
    · rename_i hdouble
      have hown : accesses.own (attr subject key e body) = [] := by
        unfold accesses.own
        split
        · rename_i heq
          cases heq
        · rename_i heq
          cases heq
        · rename_i heq
          cases heq
          exact absurd rfl (hdouble _ rfl)
        · rfl
      have hsteps : (attr subject key e body).steps = e.readOutputs.map .access ++ (body.steps ++ []) := by
        simp [steps, ownSteps, accesses, hown, realized]
      rw [hsteps]
      exact (follows_flattenExpr (hexprs e (by simp))).bind fun _ _ fs => (hb fs).bind fun _ _ fs => follows_pure trivial
  | assert cond message body ih =>
    obtain ⟨hbody, -, hexprs, -⟩ := addressed_iff.mp hs
    have hsteps : (Stmt.assert cond message body).steps =
      cond.readOutputs.map .access ++ (message.readOutputs.map .access ++ (body.steps ++ [])) := by
      simp [steps, ownSteps, accesses, accesses.own, realized]
    rw [hsteps]
    unfold flattenWith
    exact (follows_flattenExpr (hexprs cond (by simp))).bind fun _ _ fs =>
      (follows_flattenExpr (hexprs message (by simp))).bind fun _ _ fs =>
      (ih (hbody body (by simp)) fs).bind fun _ _ fs => follows_pure trivial
  | loop v min extent kind body ih =>
    obtain ⟨hbody, -, hexprs, -⟩ := addressed_iff.mp hs
    have hsteps : (loop v min extent kind body).steps =
      min.readOutputs.map .access ++ (extent.readOutputs.map .access ++ (body.steps ++ [])) := by
      simp [steps, ownSteps, accesses, accesses.own, realized]
    rw [hsteps]
    unfold flattenWith
    exact (follows_flattenExpr (hexprs min (by simp))).bind fun _ _ fs =>
      (follows_flattenExpr (hexprs extent (by simp))).bind fun _ _ fs =>
      (ih (hbody body (by simp)) fs).bind fun _ _ fs => follows_pure trivial
  | store buffer value index pred =>
    obtain ⟨-, -, hexprs, -⟩ := addressed_iff.mp hs
    have hsteps : (store buffer value index pred).steps =
        buffer.readOutputs.map .access ++ (value.readOutputs.map .access ++
        (index.readOutputs.map .access ++ ((pred.toList.flatMap Expr.readOutputs).map .access ++ []))) := by
      simp [steps, ownSteps, accesses, accesses.own, realized]
    have hguard (fs : FlatState) : Follows rank (mapGuardM flattenExpr pred)
      ((pred.toList.flatMap Expr.readOutputs).map .access) (fun _ => True) fs := by
      cases pred with
      | none => exact follows_pure trivial
      | some p =>
        have hread : ((some p).toList.flatMap Expr.readOutputs).map Step.access = p.readOutputs.map .access ++ [] := by simp
        rw [hread]
        exact (follows_flattenExpr (hexprs p (by simp))).bind fun _ _ fs => follows_pure trivial
    rw [hsteps]
    unfold flattenWith
    exact (follows_flattenExpr (hexprs buffer (by simp))).bind fun _ _ fs =>
      (follows_flattenExpr (hexprs value (by simp))).bind fun _ _ fs =>
      (follows_flattenExpr (hexprs index (by simp))).bind fun _ _ fs => (hguard fs).bind fun _ _ fs => follows_pure trivial
  | provide op output value indices =>
    obtain ⟨-, ⟨hlength, hintegral⟩, hexprs, -⟩ := addressed_iff.mp hs
    have hsteps : (provide op output value indices).steps = [(op, output)].map .access ++ (value.readOutputs.map .access ++
        ((indices.flatMap Expr.readOutputs).map .access ++ [])) := by
      simp [steps, ownSteps, accesses, accesses.own, realized]
    rw [hsteps]
    unfold flattenWith
    refine follows_get_bind ((follows_lift fun hfs => hfs.decides_entry op output).bind fun entry hentry fs => ?_)
    refine (follows_flattenExpr (hexprs value (by simp))).bind fun value' _ fs => ?_
    refine (follows_flattenExprs (fun e he => hexprs e (by simp [he])) fs).bind fun indices' hindices fs => follows_gives ?_
    have hlength' : indices'.length = rank (op.idx, output) := hindices.length_eq.symm.trans hlength
    obtain ⟨offset, hoffset, -⟩ := FlatEntry.gives_address (R := Neighbours.reading) (hlength' ▸ hentry.toRegular)
      (Expr.alikes_integral hindices hintegral)
    obtain ⟨relative, hrelative, hoffset⟩ := bind_eq_ok.mp hoffset
    refine Gives.bind (P := (· = relative)) ⟨_, hrelative, rfl⟩ ?_
    rintro _ rfl
    exact Gives.bind (P := fun _ => True) (gives_ok trivial) fun v _ => Gives.bind (P := fun _ => True)
      ⟨_, hoffset, trivial⟩ fun _ _ => gives_ok trivial
  | allocate site buffer t extents cond body ih =>
    obtain ⟨hbody, -, hexprs, -⟩ := addressed_iff.mp hs
    have hsteps : (allocate site buffer t extents cond body).steps = (extents.flatMap Expr.readOutputs).map .access ++
        (cond.readOutputs.map .access ++ (body.steps ++ [])) := by
      simp [steps, ownSteps, accesses, accesses.own, realized]
    rw [hsteps]
    unfold flattenWith
    exact (follows_flattenExprs (fun e he => hexprs e (by simp [he])) fs).bind fun _ _ fs =>
      (follows_flattenExpr (hexprs cond (by simp))).bind fun _ _ fs =>
      (ih (hbody body (by simp)) fs).bind fun _ _ fs => follows_pure trivial
  | realize op output t bounds cond body ih =>
    obtain ⟨hbody, ⟨⟨hnonneg, hlt⟩, hlength, hbounds, ht⟩, -, hskipped⟩ := addressed_iff.mp hs
    have hb := ih (hbody body (by simp))
    have hread : (realize op output t bounds cond body).exprParts.flatMap Expr.readOutputs = [] :=
      readOutputs_skipped hskipped
    have hsteps : (realize op output t bounds cond body).steps = .realize (op.idx, output) :: body.steps := by
      rw [steps, ownSteps, accesses, hread]
      rfl
    have hof : TensorRef.of op output = .ok ⟨op, output.toNat⟩ := by
      unfold TensorRef.of
      rw [if_pos (by simp [hnonneg, hlt])]
    rw [hsteps]
    unfold flattenWith
    refine Follows.bind_nil (P := (· = ⟨op, output.toNat⟩)) (follows_gives ⟨_, hof, rfl⟩) ?_
    rintro _ rfl fs
    cases hfind : args.find? ⟨op, output.toNat⟩ with
    | some b =>
      obtain ⟨p, hp, rfl⟩ := Option.map_eq_some_iff.mp hfind
      have hsame := List.find?_some hp
      simp only [TensorRef.same, Bool.and_eq_true, beq_iff_eq] at hsame
      have hkey : p.1.key = (op.idx, output) := by rw [TensorRef.key, hsame.1, hsame.2, Int.toNat_of_nonneg hnonneg]
      exact follows_setEntry_bind (hkey ▸ hargs p (List.mem_of_find?_eq_some hp)) hb
    | none =>
      refine follows_get_bind ((follows_liftBuild (gives_regionBuffer hbounds ht)).bind_nil fun b hbuffer fs => ?_)
      rw [← List.append_nil body.steps]
      exact follows_setEntry_bind (hlength ▸ hbuffer) fun fs => (hb fs).bind fun _ _ fs => follows_pure trivial
  | prefetch op output t bounds =>
    obtain ⟨-, ⟨hlength, hbounds⟩, -, hskipped⟩ := addressed_iff.mp hs
    have hread : (prefetch op output t bounds).exprParts.flatMap Expr.readOutputs = [] := readOutputs_skipped hskipped
    have hsteps : (prefetch op output t bounds).steps = [(op, output)].map .access ++ [] := by
      rw [steps, ownSteps, accesses, hread]
      rfl
    rw [hsteps]
    unfold flattenWith
    refine follows_get_bind ((follows_lift fun hfs => hfs.decides_entry op output).bind fun entry hentry fs => ?_)
    exact follows_liftBuild (gives_flattenPrefetch (hlength ▸ hentry) hbounds)
  | seq ss ih =>
    obtain ⟨hbodies, -, -, -⟩ := addressed_iff.mp hs
    have hall (fs : FlatState) : Follows rank (flattenWith.onList args line ss) (steps.ofAll ss) (fun _ => True) fs := by
      replace hbodies : ∀ s ∈ ss, s.Addressed rank := hbodies
      clear hs
      induction ss generalizing fs with
      | nil => exact follows_pure trivial
      | cons s ss ihs =>
        obtain ⟨hs, hss⟩ := List.forall_mem_cons.mp hbodies
        obtain ⟨ih, ihss⟩ := List.forall_mem_cons.mp ih
        rw [steps.ofAll, ← List.append_nil (steps.ofAll ss)]
        exact (ih hs fs).bind fun _ _ fs => (ihs ihss fs hss).bind fun _ _ fs => follows_pure trivial
    have hsteps : (seq ss).steps = steps.ofAll ss ++ [] := by
      simp [steps, ownSteps, accesses, accesses.own, realized]
    rw [hsteps]
    unfold flattenWith
    exact (hall fs).bind fun _ _ fs => follows_pure trivial
  | branch cond onTrue onFalse iht ihf =>
    obtain ⟨hbodies, -, hexprs, -⟩ := addressed_iff.mp hs
    have hc : Follows rank (flattenExpr cond) (cond.readOutputs.map .access) (Expr.Alike cond) fs :=
      follows_flattenExpr (hexprs cond (by simp))
    have ht := iht (hbodies onTrue (by simp))
    cases onFalse with
    | none =>
      have hsteps : (branch cond onTrue none).steps = cond.readOutputs.map .access ++ (onTrue.steps ++ []) := by
        simp [steps, ownSteps, accesses, accesses.own, realized]
      rw [hsteps]
      unfold flattenWith
      exact hc.bind fun _ _ fs => (ht fs).bind fun _ _ fs => follows_pure trivial
    | some onFalse =>
      have hsteps : (branch cond onTrue (some onFalse)).steps =
        cond.readOutputs.map .access ++ (onTrue.steps ++ (onFalse.steps ++ [])) := by
        simp [steps, ownSteps, accesses, accesses.own, realized]
      rw [hsteps]
      unfold flattenWith
      exact hc.bind fun _ _ fs => (ht fs).bind fun _ _ fs =>
        (ihf onFalse rfl (hbodies onFalse (by simp)) fs).bind fun _ _ fs => follows_pure trivial
  | eval e =>
    obtain ⟨-, -, hexprs, -⟩ := addressed_iff.mp hs
    have hsteps : (eval e).steps = e.readOutputs.map .access ++ [] := by
      simp [steps, ownSteps, accesses, accesses.own, realized]
    rw [hsteps]
    unfold flattenWith
    exact (follows_flattenExpr (hexprs e (by simp))).bind fun _ _ fs => follows_pure trivial

/-- Flattening fails just if an access is not met, and then at the first such access, which strays. -/
theorem flatten_fails_iff_unmet (line : Int) (hargs : ∀ p ∈ args, (FlatEntry.mk p.2 []).Usable (rank p.1.key)) {s : Stmt}
    (hs : s.Addressed rank) (g : Graph) :
    ((∃ e, (s.flatten args line).Fails g e) ↔ Step.unmet (args.map (·.1.key)) s.steps ≠ []) ∧
      ∀ e, (s.flatten args line).Fails g e → ∃ u ∈ s.strays (args.map (·.1.key)), e = .outsideRealize u.1.name := by
  have hkeys : (flatStart args).keys = args.map (·.1.key) := List.map_map
  have husable : (flatStart args).Usable rank := List.forall_mem_map.mpr hargs
  obtain ⟨hunmet, t, fs, g', hyields, -⟩ | ⟨u, us, hunmet, hfails⟩ :=
    follows_flattenWith line hargs hs (flatStart args) g husable
  · have hnot (e : Error) : ¬(s.flatten args line).Fails g e := by
      rintro ⟨g₁, hfails⟩
      have hrun : (s.flatten args line).Yields g t g' := Build.yields_bind.mpr ⟨_, _, hyields, rfl⟩
      cases hrun.symm.trans hfails
    rw [hkeys] at hunmet
    exact ⟨⟨fun ⟨e, he⟩ => absurd he (hnot e), fun h => absurd hunmet h⟩, fun e he => absurd he (hnot e)⟩
  · have hrun : (s.flatten args line).Fails g (.outsideRealize u.1.name) := Build.Fails.bind hfails
    rw [hkeys] at hunmet
    refine ⟨⟨fun _ h => absurd (hunmet.symm.trans h) (List.cons_ne_nil u us), fun _ => ⟨_, hrun⟩⟩, fun e he => ⟨u, ?_, ?_⟩⟩
    · exact unmet_subset_strays (List.Subset.refl _) (hunmet ▸ List.mem_cons_self)
    · obtain ⟨g₁, hrun⟩ := hrun
      obtain ⟨g₂, he⟩ := he
      cases hrun.symm.trans he
      rfl

/-- If no output is accessed outside of its realizations only after one of them, flattening fails just if an access
    strays. -/
theorem flatten_fails_iff_strays (line : Int) (hargs : ∀ p ∈ args, (FlatEntry.mk p.2 []).Usable (rank p.1.key)) {s : Stmt}
    (hs : s.Addressed rank)
    (hfirst : ∀ u ∈ s.strays (args.map (·.1.key)), u ∈ Step.unmet (args.map (·.1.key)) s.steps) (g : Graph) :
    ((∃ e, (s.flatten args line).Fails g e) ↔ s.strays (args.map (·.1.key)) ≠ []) ∧
      ∀ e, (s.flatten args line).Fails g e → ∃ u ∈ s.strays (args.map (·.1.key)), e = .outsideRealize u.1.name := by
  obtain ⟨hiff, herror⟩ := flatten_fails_iff_unmet line hargs hs g
  refine ⟨hiff.trans ⟨fun h hstrays => h ?_, fun h hunmet => h ?_⟩, herror⟩
  · exact List.eq_nil_of_subset_nil (hstrays ▸ unmet_subset_strays (List.Subset.refl _))
  · exact List.eq_nil_of_subset_nil (hunmet ▸ hfirst)

end Stmt

namespace Stmt.Strayed

def op (idx : Nat) (name : String) : OpRef := ⟨idx, name, true, 1⟩

def zero : Expr := Expr.int32 0

def one : List Range := [⟨zero, Expr.int32 1⟩]

def read (o : OpRef) : Expr := .call .int32 o.name [zero] .tensorRead (some o) 0

/-- Five is put into a tensor of one element. -/
def put (o : OpRef) : Stmt := provide o 0 (Expr.int32 5) [zero]

def realizeT (body : Stmt) : Stmt := realize (op 1 "T") 0 .int32 one (.const (.int 1) .bool) body

def args : TensorBuffers :=
  [(⟨op 0 "A", 0⟩, ⟨⟨0, "A", .handle⟩, .int32, [Expr.int32 1], [], zero, "A", "", (-1 : Int), (0 : Int)⟩)]

def graph : Graph := { ops := #[], next := 1 }

/-- `A[0] = T[0]` where `T` is realized, and a prefetch of `U`, which is not. -/
def ahead : Stmt := seq [realizeT (seq [put (op 1 "T"), provide (op 0 "A") 0 (read (op 1 "T")) [zero]]),
      prefetch (op 2 "U") 0 .int32 one]

/-- `A[0] = T[0]` after the end of the realization of `T`. -/
def leaked : Stmt := seq [realizeT (put (op 1 "T")), provide (op 0 "A") 0 (read (op 1 "T")) [zero]]

theorem args_usable : ∀ p ∈ args, (FlatEntry.mk p.2 []).Usable 1 := by
  refine List.forall_mem_singleton.mpr ⟨⟨rfl, rfl, ?_, .inl rfl, List.forall_mem_nil _, ?_⟩, _, rfl, trivial⟩
  · exact List.forall_mem_singleton.mpr (Expr.integral_const 1 ⟨rfl, rfl⟩)
  · exact Expr.integral_const 0 ⟨rfl, rfl⟩

theorem ahead_addressed : ahead.Addressed fun _ => 1 := by
  decide

/-- The prefetch of `U` is rejected. -/
theorem ahead_fails : ∃ e, (ahead.flatten args 64).Fails graph e :=
  (flatten_fails_iff_strays 64 args_usable ahead_addressed (by decide) graph).1.mpr (by decide)

/-- A read after the end of the realization strays, but it is taken. -/
theorem leaked_taken : leaked.strays (args.map (·.1.key)) = [(op 1 "T", 0)] ∧
    ∃ t g', (leaked.flatten args 64).Yields graph t g' := by
  refine ⟨by decide, ?_⟩
  exact ⟨_, _, rfl⟩

end Stmt.Strayed

end TensorNest

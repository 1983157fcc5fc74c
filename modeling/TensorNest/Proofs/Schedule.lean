import TensorNest.Schedule.Normalize
import TensorNest.Proofs.Edit
import TensorNest.Proofs.Expression

/-! # Steps of a schedule

What is looked up in a schedule after a stage or a place was set, and what the steps of caching and of
normalization do to a schedule and to the graph: one inversion for each step. -/

namespace TensorNest

namespace Schedule
open Expr Operation

variable {s s' : Schedule} {g g' : Graph}

/-! ### Lookups -/

theorem mem_of_stage? {id : Nat} {st : Stage} (h : s.stage? id = some st) :
    st ∈ s.stages ∧ st.id = id := by
  refine ⟨List.mem_of_find?_eq_some h, ?_⟩
  simpa using List.find?_some h

theorem find?_eq_some {i : Nat} {st : Stage} :
    s.find? i = some st ↔ ∃ p, s.places.find? (·.1 == i) = some p ∧ s.stage? p.2 = some st := by
  simp [find?, Option.bind_eq_some_iff]

theorem mem_of_find? {i : Nat} {st : Stage} (h : s.find? i = some st) :
    st ∈ s.stages := by
  obtain ⟨p, -, hp⟩ := find?_eq_some.mp h
  exact (mem_of_stage? hp).1

@[simp] theorem stages_setPlace (i id : Nat) : (s.setPlace i id).stages = s.stages := rfl
@[simp] theorem nextStage_setPlace (i id : Nat) : (s.setPlace i id).nextStage = s.nextStage := rfl
@[simp] theorem places_setStage (st : Stage) : (s.setStage st).places = s.places := rfl
@[simp] theorem nextStage_setStage (st : Stage) : (s.setStage st).nextStage = s.nextStage := rfl

theorem mem_setStage {st t : Stage} (h : t ∈ (s.setStage st).stages) : t = st ∨ t ∈ s.stages := by
  obtain ⟨t', ht', rfl⟩ := List.mem_map.mp h
  split
  · exact Or.inl rfl
  · exact Or.inr ht'

theorem stage?_mapStages {f : Stage → Stage} (hid : ∀ st, (f st).id = st.id) (id : Nat) :
    ({ s with stages := s.stages.map f } : Schedule).stage? id = (s.stage? id).map f := by
  have hcomp : ((fun t : Stage => t.id == id) ∘ f) = fun t => t.id == id := by
    funext t
    simp [hid]
  rw [stage?, List.find?_map, hcomp]
  rfl

theorem find?_mapStages {f : Stage → Stage} (hid : ∀ st, (f st).id = st.id) (i : Nat) :
    ({ s with stages := s.stages.map f } : Schedule).find? i = (s.find? i).map f := by
  have hstage := stage?_mapStages (s := s) hid
  simp only [find?, hstage]
  cases s.places.find? (·.1 == i) <;> rfl

theorem stage?_setStage {st : Stage} {id : Nat} {t : Stage} (h : (s.setStage st).stage? id = some t) :
    (t = st ∧ st.id = id ∧ ∃ t', s.stage? id = some t') ∨ (st.id ≠ id ∧ s.stage? id = some t) := by
  rw [setStage, stage?_mapStages (by intro t; split <;> simp_all)] at h
  obtain ⟨t', ht', rfl⟩ := Option.map_eq_some_iff.mp h
  have hid := (mem_of_stage? ht').2
  by_cases hst : st.id = id
  · exact Or.inl ⟨by simp [hst, hid], hst, t', ht'⟩
  · refine Or.inr ⟨hst, ?_⟩
    rw [if_neg (by simpa [hid] using Ne.symm hst)]
    exact ht'

theorem find?_setPlace {i id j : Nat} {t : Stage} (h : (s.setPlace i id).find? j = some t) :
    (i = j ∧ s.stage? id = some t) ∨ s.find? j = some t := by
  obtain ⟨p, hp, ht⟩ := find?_eq_some.mp h
  rw [setPlace, List.find?_cons] at hp
  split at hp
  · rename_i hij
    cases hp
    exact Or.inl ⟨by simpa using hij, ht⟩
  · exact Or.inr (find?_eq_some.mpr ⟨p, hp, ht⟩)

/-! ### Redirected expressions -/

/-- An expression with all its reads redirected. -/
def redirected (s : Schedule) (e : Expr) : Expr :=
  (s.redirect e).1

theorem redirected_eq (s : Schedule) :
    s.redirected = (·.rebuild fun e => (s.redirectRead e).1) := by
  funext e
  refine run_rebuildM (fun e b => ?_) e false
  rcases s.redirectRead e with ⟨e', _ | _⟩ <;> rfl

/-- What a redirection does to one expression: nothing, or it puts a body for a read, or it leads a
    read to another operation. -/
theorem redirectRead_cases (s : Schedule) (e : Expr) : (s.redirectRead e).1 = e ∨
    ∃ t name args f i st, e = .call t name args .tensorRead (some f) i ∧ s.find? f.idx = some st ∧
      ((st.attach = .inlined ∧ (s.redirectRead e).1 =
          ((itemAt? st.op.body i.toInt).getD e).subst (Subst.ofList ((st.op.axes.map (·.var)).zip args))) ∨
        (s.redirectRead e).1 = .call t st.op.name args .tensorRead (some st.op.ref) i) := by
  unfold redirectRead
  split
  · rename_i t name args f i
    cases hst : s.find? f.idx with
    | none => exact Or.inl rfl
    | some st =>
      simp only
      split
      · rename_i hin
        exact Or.inr ⟨t, name, args, f, i, st, rfl, hst, Or.inl ⟨hin, rfl⟩⟩
      · split
        · exact Or.inl rfl
        · exact Or.inr ⟨t, name, args, f, i, st, rfl, hst, Or.inr rfl⟩
  · exact Or.inl rfl

section Parts
variable (s : Schedule)

@[simp] theorem redirected_var (v : Var) : s.redirected (var v) = var v := rfl
@[simp] theorem redirected_const (x : Number) (t : DataType) : s.redirected (const x t) = const x t := rfl
@[simp] theorem redirected_str (x : String) : s.redirected (str x) = str x := rfl

@[simp] theorem redirected_cast (t : DataType) (a : Expr) :
    s.redirected (cast t a) = cast t (s.redirected a) := by
  simp only [redirected_eq, rebuild_cast]
  rfl

@[simp] theorem redirected_bin (op : BinOp) (a b : Expr) :
    s.redirected (bin op a b) = bin op (s.redirected a) (s.redirected b) := by
  simp only [redirected_eq, rebuild_bin]
  rfl

@[simp] theorem redirected_not (a : Expr) : s.redirected (not a) = not (s.redirected a) := by
  simp only [redirected_eq, rebuild_not]
  rfl

@[simp] theorem redirected_select (c t f : Expr) : s.redirected (select c t f) =
    select (s.redirected c) (s.redirected t) (s.redirected f) := by
  simp only [redirected_eq, rebuild_select]
  rfl

@[simp] theorem redirected_call (t : DataType) (name : String) (args : List Expr) (kind : CallKind)
    (func : Option OpRef) (i : Ordinal) : s.redirected (call t name args kind func i) =
      (s.redirectRead (call t name (args.map s.redirected) kind func i)).1 := by
  simp only [redirected_eq, rebuild_call]

@[simp] theorem redirected_bind (v : Var) (a b : Expr) :
    s.redirected (bind v a b) = bind v (s.redirected a) (s.redirected b) := by
  simp only [redirected_eq, rebuild_bind]
  rfl

@[simp] theorem redirected_load (t : DataType) (a b : Expr) (p : Option Expr) :
    s.redirected (load t a b p) = load t (s.redirected a) (s.redirected b) (p.map s.redirected) := by
  simp only [redirected_eq, rebuild_load]
  rfl

@[simp] theorem redirected_ramp (a b : Expr) (lanes : Int) :
    s.redirected (ramp a b lanes) = ramp (s.redirected a) (s.redirected b) lanes := by
  simp only [redirected_eq, rebuild_ramp]
  rfl

@[simp] theorem redirected_broadcast (a : Expr) (lanes : Int) :
    s.redirected (broadcast a lanes) = broadcast (s.redirected a) lanes := by
  simp only [redirected_eq, rebuild_broadcast]
  rfl

@[simp] theorem redirected_reduce (c : Reducer) (sources : List Expr) (axes : List IterVar)
    (cond : Option Expr) (i : Int) : s.redirected (reduce c sources axes cond i) =
      reduce c (sources.map s.redirected) axes (cond.map s.redirected) i := by
  simp only [redirected_eq, rebuild_reduce]
  rfl

end Parts

/-- A redirection changes reads and goes on to the parts of anything else. -/
theorem redirected_cases (s : Schedule) (e : Expr) : (∃ t name args kind func k,
    e = call t name args kind func k) ∨
      ((s.redirected e).head = e.head ∧ (s.redirected e).parts = e.parts.map s.redirected) := by
  cases e with
  | call t name args kind func k => exact Or.inl ⟨t, name, args, kind, func, k, rfl⟩
  | load _ _ _ pred => cases pred <;> simp [head, parts]
  | reduce _ _ _ cond _ => cases cond <;> simp [head, parts]
  | _ => simp [head, parts]

/-- Where a head of a redirected expression comes from: the expression, or one of its reads, for which a
    body was put or which was led to another operation. -/
def HeadFrom (s : Schedule) (e : Expr) (h : Head) : Prop :=
  h ∈ e.heads ∨ ∃ t f k n st, .call t .tensorRead (some f) k n ∈ e.heads ∧ s.find? f.idx = some st ∧
    ((st.attach = .inlined ∧ ∃ b ∈ st.op.body, h ∈ b.heads) ∨ h = .call t .tensorRead (some st.op.ref) k n)

theorem HeadFrom.part {a e : Expr} {h : Head} (hh : HeadFrom s a h) (ha : a ∈ e.parts) :
    HeadFrom s e h := by
  obtain hh | ⟨t, f, k, n, st, hf, hrest⟩ := hh
  · exact Or.inl (heads_subset ha hh)
  · exact Or.inr ⟨t, f, k, n, st, heads_subset ha hf, hrest⟩

theorem headFrom_of_mem {e : Expr} {h : Head} (hmem : h ∈ (s.redirected e).heads) :
    HeadFrom s e h := by
  induction e using induct_parts with | step e ih
  have hparts : (∃ a ∈ e.parts.map s.redirected, h ∈ a.heads) → HeadFrom s e h := by
    rintro ⟨_, hpart, hh⟩
    obtain ⟨a, ha, rfl⟩ := List.mem_map.mp hpart
    exact (ih a ha hh).part ha
  obtain ⟨t, name, args, kind, func, k, rfl⟩ | ⟨hhead, hsame⟩ := redirected_cases s e
  · have hown : h = .call t kind func k.toInt (args.map s.redirected).length →
        HeadFrom s (call t name args kind func k) h := by
      rintro rfl
      rw [List.length_map]
      exact Or.inl (head_mem_heads _)
    rw [redirected_call] at hmem
    obtain heq | ⟨t', name', args', f, k', st, heq, hst, hcase⟩ :=
      redirectRead_cases s (call t name (args.map s.redirected) kind func k)
    · rw [heq, mem_heads] at hmem
      exact hmem.elim hparts hown
    obtain ⟨rfl, rfl, rfl, rfl, rfl, rfl⟩ := Expr.call.inj heq
    have hled := fun hh => (Or.inr ⟨t, f, k.toInt, args.length, st, head_mem_heads _, hst, hh⟩ :
      HeadFrom s (call t name args .tensorRead (some f) k) h)
    obtain ⟨hin, hcase⟩ | hcase := hcase
    · rw [hcase] at hmem
      obtain hh | ⟨p, hp, hh⟩ := mem_heads_subst hmem
      · cases hb : itemAt? st.op.body k.toInt with
        | none =>
          rw [hb, Option.getD_none, mem_heads] at hh
          exact hh.elim hparts hown
        | some b =>
          rw [hb, Option.getD_some] at hh
          exact hled (Or.inl ⟨hin, b, mem_of_itemAt? hb, hh⟩)
      · exact hparts ⟨p.2, (List.of_mem_zip (List.mem_reverse.mp hp)).2, hh⟩
    · rw [hcase, mem_heads] at hmem
      refine hmem.elim hparts fun hh => hled (Or.inr ?_)
      rw [hh, head, List.length_map]
  · rw [mem_heads, hsame, hhead] at hmem
    obtain hmem | rfl := hmem
    · exact hparts hmem
    · exact Or.inl e.head_mem_heads

/-- A schedule with a new stage before the stage of a number. -/
def insertStage (s : Schedule) (new : Stage) (id : Nat) : Schedule :=
  { s with stages := insertBefore new id s.stages, nextStage := s.nextStage + 1 }

theorem mem_insertBefore {new t : Stage} {id : Nat} {l : List Stage} (h : t ∈ insertBefore new id l) :
    t = new ∨ t ∈ l := by
  induction l with
  | nil => exact Or.inl (List.mem_singleton.mp h)
  | cons st l ih =>
    unfold insertBefore at h
    split at h
    · exact List.mem_cons.mp h
    · obtain rfl | h := List.mem_cons.mp h
      · exact Or.inr List.mem_cons_self
      · exact (ih h).imp_right (List.mem_cons_of_mem st)

theorem mem_insertBefore_self {new : Stage} {id : Nat} {l : List Stage} :
    new ∈ insertBefore new id l := by
  induction l with
  | nil => exact List.mem_singleton_self new
  | cons st l ih =>
    unfold insertBefore
    split
    · exact List.mem_cons_self
    · exact List.mem_cons_of_mem st ih

theorem mem_insertBefore_of_mem {new t : Stage} {id : Nat} {l : List Stage} (h : t ∈ l) :
    t ∈ insertBefore new id l := by
  induction l with
  | nil => cases h
  | cons st l ih =>
    unfold insertBefore
    split
    · exact List.mem_cons_of_mem new h
    · obtain rfl | h := List.mem_cons.mp h
      · exact List.mem_cons_self
      · exact List.mem_cons_of_mem st (ih h)

theorem find?_insertBefore {new : Stage} {id j : Nat} {l : List Stage} (h : new.id ≠ j) :
    (insertBefore new id l).find? (·.id == j) = l.find? (·.id == j) := by
  induction l with
  | nil => simp [insertBefore, h]
  | cons st l ih =>
    unfold insertBefore
    split
    · rw [List.find?_cons_of_neg (by simpa using h)]
    · rw [List.find?_cons, List.find?_cons, ih]

/-- A stage of a new number leaves the lookups of the others as they are. -/
theorem stage?_insertStage {new : Stage} {id j : Nat} (h : new.id ≠ j) :
    (s.insertStage new id).stage? j = s.stage? j :=
  find?_insertBefore h

/-- An operation is led to a stage. -/
def Found (s : Schedule) (i : Nat) : Prop :=
  ∃ st, s.find? i = some st

theorem exists_stage? {id : Nat} : (∃ st, s.stage? id = some st) ↔ ∃ st ∈ s.stages, st.id = id := by
  simp [stage?, ← Option.isSome_iff_exists, List.find?_isSome]

theorem Found.mapStages {f : Stage → Stage} (hid : ∀ st, (f st).id = st.id) {i : Nat} (h : s.Found i) :
    ({ s with stages := s.stages.map f } : Schedule).Found i := by
  obtain ⟨st, hst⟩ := h
  exact ⟨f st, by rw [find?_mapStages hid, hst]; rfl⟩

theorem Found.setStage {i : Nat} (h : s.Found i) (st : Stage) : (s.setStage st).Found i :=
  h.mapStages (by intro t; split <;> simp_all)

theorem Found.setPlace {i id j : Nat} (h : s.Found j) (hid : ∃ st, s.stage? id = some st) :
    (s.setPlace i id).Found j := by
  obtain ⟨st, hst⟩ := h
  obtain ⟨p, hp, hst⟩ := find?_eq_some.mp hst
  by_cases hij : i = j
  · obtain ⟨t, ht⟩ := hid
    exact ⟨t, find?_eq_some.mpr ⟨(i, id), by simp [Schedule.setPlace, hij], ht⟩⟩
  · exact ⟨st, find?_eq_some.mpr ⟨p, by simp [Schedule.setPlace, hij, hp], hst⟩⟩

theorem Found.insertStage {i : Nat} (h : s.Found i) (new : Stage) (id : Nat) :
    (s.insertStage new id).Found i := by
  obtain ⟨st, hst⟩ := h
  obtain ⟨p, hp, hst⟩ := find?_eq_some.mp hst
  obtain ⟨hmem, hid⟩ := mem_of_stage? hst
  obtain ⟨t, ht⟩ : ∃ t, (s.insertStage new id).stage? p.2 = some t :=
    exists_stage?.mpr ⟨st, mem_insertBefore_of_mem hmem, hid⟩
  exact ⟨t, find?_eq_some.mpr ⟨p, hp, ht⟩⟩

/-! ### Creation -/

/-- A schedule in which every operation has a stage of its own. -/
structure Fresh (g : Graph) (s : Schedule) : Prop where
  ops : ∀ st ∈ s.stages, g.op? st.op.idx = some st.op
  roots : ∀ st ∈ s.stages, st.attach = .root
  stageIds : ∀ st ∈ s.stages, st.id < s.nextStage
  placeIds : ∀ p ∈ s.places, p.2 < s.nextStage
  places : ∀ {i st}, s.find? i = some st → st.op.idx = i

theorem Fresh.addStage (h : Fresh g s) {op : Operation} (hop : g.op? op.idx = some op) :
    Fresh g (s.addStage op) := by
  have hmem : ∀ st ∈ (s.addStage op).stages, st ∈ s.stages ∨ st = Stage.ofOperation s.nextStage op := by
    intro st hst
    simpa [Schedule.addStage] using hst
  refine ⟨fun st hst => ?_, fun st hst => ?_, fun st hst => ?_, fun p hp => ?_, fun {i st} hi => ?_⟩
  · obtain hst | rfl := hmem st hst
    · exact h.ops st hst
    · exact hop
  · obtain hst | rfl := hmem st hst
    · exact h.roots st hst
    · rfl
  · obtain hst | rfl := hmem st hst
    · exact Nat.lt_succ_of_lt (h.stageIds st hst)
    · exact Nat.lt_succ_self _
  · obtain rfl | hp := List.mem_cons.mp hp
    · exact Nat.lt_succ_self _
    · exact Nat.lt_succ_of_lt (h.placeIds p hp)
  · obtain ⟨rfl, hst⟩ | hold := find?_setPlace hi
    · obtain ⟨hst, hid⟩ := mem_of_stage? hst
      obtain hst | rfl := hmem st hst
      · have := h.stageIds st hst
        have : st.id = s.nextStage := hid
        omega
      · rfl
    · obtain ⟨p, hp, hst⟩ := find?_eq_some.mp hold
      have hlt := h.placeIds p (List.mem_of_find?_eq_some hp)
      obtain ⟨hst', hid⟩ := mem_of_stage? hst
      refine h.places (find?_eq_some.mpr ⟨p, hp, ?_⟩)
      rw [stage?, List.find?_append] at hst
      cases hf : s.stages.find? (·.id == p.2) with
      | some t =>
        rw [hf, Option.some_or] at hst
        exact hf.trans hst
      | none =>
        rw [hf, Option.none_or] at hst
        obtain rfl := List.mem_singleton.mp (List.mem_of_find?_eq_some hst)
        have : s.nextStage = p.2 := hid
        omega

theorem Fresh.mapStages (h : Fresh g s) {f : Stage → Stage} (hid : ∀ st, (f st).id = st.id)
    (hop : ∀ st, (f st).op = st.op) (hatt : ∀ st, (f st).attach = st.attach) :
    Fresh g { s with stages := s.stages.map f } := by
  refine ⟨fun t ht => ?_, fun t ht => ?_, fun t ht => ?_, h.placeIds, fun {i t} hi => ?_⟩
  · obtain ⟨st, hst, rfl⟩ := List.mem_map.mp ht
    rw [hop]
    exact h.ops st hst
  · obtain ⟨st, hst, rfl⟩ := List.mem_map.mp ht
    rw [hatt]
    exact h.roots st hst
  · obtain ⟨st, hst, rfl⟩ := List.mem_map.mp ht
    rw [hid]
    exact h.stageIds st hst
  · rw [find?_mapStages hid] at hi
    obtain ⟨st, hst, rfl⟩ := Option.map_eq_some_iff.mp hi
    rw [hop]
    exact h.places hst

/-- What is kept when the stage of an operation is added is kept by a visit. -/
theorem visit_keeps {I : Schedule → Prop} {Q : Operation → Prop} (hQ : ∀ {i o}, g.op? i = some o → Q o)
    (hadd : ∀ {s op}, Q op → I s → I (s.addStage op)) {depth : Nat} {acc acc' : List Nat × Schedule}
    {op : Operation} (h : I acc.2) (hop : Q op) (hrun : visit g depth acc op = .ok acc') : I acc'.2 := by
  induction depth generalizing acc acc' op with
  | zero => exact Except.ok.inj hrun ▸ h
  | succ depth ih =>
    obtain ⟨visited, s⟩ := acc
    unfold Schedule.visit at hrun
    split at hrun
    · exact Except.ok.inj hrun ▸ h
    · obtain ⟨inputs, -, hrun⟩ := bind_eq_ok.mp hrun
      obtain ⟨acc₁, hfold, hrun⟩ := bind_eq_ok.mp hrun
      have hkeep : I acc₁.2 := by
        refine foldlM_keeps (I := fun acc => I acc.2) (fun t _ {b b'} hb hstep => ?_) h hfold
        split at hstep
        · rename_i producer hp
          exact ih hb (hQ hp) hstep
        · cases hstep
      cases hrun
      exact hadd hop hkeep

/-- What creation does: it visits the outputs and notes which stages are outputs. -/
theorem create_keeps {I : Schedule → Prop} {Q : Operation → Prop} (hQ : ∀ {i o}, g.op? i = some o → Q o)
    (hadd : ∀ {s op}, Q op → I s → I (s.addStage op)) {outputs : List Operation}
    (hempty : I { outputs := outputs }) (hout : ∀ o ∈ outputs, Q o) (h : (create outputs).Yields g s g') :
    g' = g ∧ ∃ s₁, I s₁ ∧ s = { s₁ with
      stages := s₁.stages.map fun st => { st with isOutput := outputs.any (·.idx == st.op.idx) } } := by
  simp only [create, Build.yields_bind, Build.yields_get, Build.yields_foldlM_lift, Build.yields_pure] at h
  obtain ⟨_, _, ⟨rfl, rfl⟩, acc, _, ⟨hfold, rfl⟩, rfl, rfl⟩ := h
  refine ⟨rfl, acc.2, ?_, rfl⟩
  refine foldlM_keeps (I := fun acc => I acc.2) (fun o ho {b b'} hb hstep => ?_) hempty hfold
  exact visit_keeps hQ hadd hb (hout o ho) hstep

theorem create_inv (hnum : ∀ {i o}, g.op? i = some o → o.idx = i) {outputs : List Operation}
    (hout : ∀ o ∈ outputs, g.op? o.idx = some o) (h : (create outputs).Yields g s g') :
    g' = g ∧ Fresh g s := by
  have hempty : Fresh g { outputs := outputs } := ⟨List.forall_mem_nil _, List.forall_mem_nil _,
    List.forall_mem_nil _, List.forall_mem_nil _, fun hi => by cases hi⟩
  obtain ⟨rfl, s₁, hfresh, rfl⟩ := create_keeps (I := Fresh g) (Q := fun o => g.op? o.idx = some o)
    (fun {i o} ho => by rw [hnum ho]; exact ho) (fun hop hs => hs.addStage hop) hempty hout h
  exact ⟨rfl, hfresh.mapStages (fun _ => rfl) (fun _ => rfl) fun _ => rfl⟩

/-! ### Normalization -/

/-- The operation of a stage with the reads of its body redirected. -/
def redirectedOp (g : Graph) (s : Schedule) (o : Operation) : Operation :=
  ⟨g.ops.size, o.name, o.tag, o.attrs, .compute o.axes (o.body.map s.redirected)⟩

/-- What redirecting a stage does: nothing, or the operation with its reads redirected takes the place
    of the operation. -/
theorem redirectStage_inv {id : Nat} {u : Unit} (h : (redirectStage id).Yields s g u s' g') :
    (s' = s ∧ g' = g) ∨ ∃ st, s.stage? id = some st ∧ st.op.isCompute ∧
      g' = { g with ops := g.ops.push (some (redirectedOp g s st.op)) } ∧
      s' = (s.setPlace g.ops.size id).setStage { st with op := redirectedOp g s st.op } := by
  simp only [redirectStage, Edit.yields_bind, Edit.yields_get] at h
  obtain ⟨_, _, _, ⟨rfl, rfl, rfl⟩, h⟩ := h
  cases hst : s.stage? id with
  | none =>
    rw [hst] at h
    obtain ⟨-, rfl, rfl⟩ := Edit.yields_pure.mp h
    exact Or.inl ⟨rfl, rfl⟩
  | some st =>
    simp only [hst] at h
    split at h
    · split at h
      · simp only [Edit.yields_bind, Edit.yields_liftBuild, Edit.yields_set] at h
        obtain ⟨o, s₁, g₁, ⟨ho, rfl⟩, rfl, rfl⟩ := h
        have hmap : (st.op.body.map s.redirect).map (·.1) = st.op.body.map s.redirected := by
          rw [List.map_map]
          rfl
        rw [hmap, withBody, addCompute, yields_addOperation] at ho
        obtain ⟨d, hd, rfl, rfl⟩ := ho
        split at hd
        · cases hd
        · cases hd
          exact Or.inr ⟨st, rfl, ‹_›, rfl, rfl⟩
      · obtain ⟨-, rfl, rfl⟩ := Edit.yields_pure.mp h
        exact Or.inl ⟨rfl, rfl⟩
    · obtain ⟨-, rfl, rfl⟩ := Edit.yields_pure.mp h
      exact Or.inl ⟨rfl, rfl⟩

/-- What rebasing a leaf axis does: nothing, or a new axis from zero takes its place. -/
theorem rebaseLeaf_inv {id pos : Nat} {leaf : IterVar} {u : Unit}
    (h : (rebaseLeaf id pos leaf).Yields s g u s' g') :
    (s' = s ∧ g' = g) ∨ ∃ st zero rebased, s.stage? id = some st ∧ needsRebase st leaf ∧
      Expr.ofInt 0 leaf.dtype = .ok zero ∧
      rebased = ⟨leaf.dom.map fun d => ⟨zero, d.extent⟩, ⟨g.next, leaf.name, leaf.dtype⟩, leaf.kind, ""⟩ ∧
      s' = (s.setStage (rebasedStage st pos leaf rebased)).moveAttached id leaf rebased ∧
      g' = { g with next := g.next + 1 } := by
  simp only [rebaseLeaf, Edit.yields_bind, Edit.yields_get] at h
  obtain ⟨_, _, _, ⟨rfl, rfl, rfl⟩, h⟩ := h
  cases hst : s.stage? id with
  | none =>
    rw [hst] at h
    obtain ⟨-, rfl, rfl⟩ := Edit.yields_pure.mp h
    exact Or.inl ⟨rfl, rfl⟩
  | some st =>
    simp only [hst] at h
    split at h
    · simp only [Edit.yields_bind, Edit.yields_liftExcept, Edit.yields_liftBuild, yields_freshVar,
        Edit.yields_set] at h
      obtain ⟨zero, _, _, ⟨hzero, rfl, rfl⟩, v, _, _, ⟨⟨rfl, rfl⟩, rfl⟩, rfl, rfl⟩ := h
      exact Or.inr ⟨st, zero, _, rfl, ‹_›, hzero, rfl, rfl, rfl⟩
    · obtain ⟨-, rfl, rfl⟩ := Edit.yields_pure.mp h
      exact Or.inl ⟨rfl, rfl⟩

/-- What rebasing a stage does: it rebases its leaf axes one after the other. -/
theorem rebaseStage_inv {id : Nat} {u : Unit} (h : (rebaseStage id).Yields s g u s' g') :
    (s' = s ∧ g' = g) ∨ ∃ st, s.stage? id = some st ∧
      (st.leaves.zipIdx.forM fun (leaf, pos) => rebaseLeaf id pos leaf).Yields s g u s' g' := by
  simp only [rebaseStage, Edit.yields_bind, Edit.yields_get] at h
  obtain ⟨_, _, _, ⟨rfl, rfl, rfl⟩, h⟩ := h
  cases hst : s.stage? id with
  | none =>
    rw [hst] at h
    obtain ⟨-, rfl, rfl⟩ := Edit.yields_pure.mp h
    exact Or.inl ⟨rfl, rfl⟩
  | some st =>
    rw [hst] at h
    exact Or.inr ⟨st, rfl, h⟩

/-- What normalization does: it redirects all stages, then rebases them. -/
theorem normalize_inv {u : Unit} (h : normalize.Yields s g u s' g') :
    (s.normalized ∧ s' = s ∧ g' = g) ∨ ∃ s₁ g₁ s₂, s.normalized = false ∧
      ((s.stages.map (·.id)).forM redirectStage).Yields s g () s₁ g₁ ∧
      ((s.stages.map (·.id)).forM rebaseStage).Yields s₁ g₁ () s₂ g' ∧
      s' = { s₂ with normalized := true } := by
  simp only [normalize, Edit.yields_bind, Edit.yields_get] at h
  obtain ⟨_, _, _, ⟨rfl, rfl, rfl⟩, h⟩ := h
  split at h
  · rename_i hnorm
    simp only [Edit.yields_bind, Edit.yields_modify] at h
    obtain ⟨⟨⟩, s₁, g₁, h₁, ⟨⟩, s₂, g₂, h₂, rfl, rfl⟩ := h
    exact Or.inr ⟨s₁, g₁, s₂, by simpa using hnorm, h₁, h₂, rfl⟩
  · rename_i hnorm
    obtain ⟨-, rfl, rfl⟩ := Edit.yields_pure.mp h
    exact Or.inl ⟨by simpa using hnorm, rfl, rfl⟩

/-! ### Stages -/

/-- What a change of one stage does. -/
theorem onStage_inv {α : Type} {id : Nat} {x : Edit Stage α} {a : α} (h : (onStage id x).Yields s g a s' g') :
    ∃ st st', s.stage? id = some st ∧ x.Yields st g a st' g' ∧ s' = s.setStage st' := by
  simp only [onStage, Edit.yields_bind, Edit.yields_get] at h
  obtain ⟨_, _, _, ⟨rfl, rfl, rfl⟩, h⟩ := h
  cases hst : s.stage? id with
  | none =>
    rw [hst] at h
    exact absurd h Edit.not_yields_throw
  | some st =>
    rw [hst] at h
    obtain ⟨st', hx, rfl⟩ := Edit.yields_onPart.mp h
    exact ⟨st, st', rfl, hx, rfl⟩

theorem computeInline_inv {st st' : Stage} {u : Unit} (h : Stage.computeInline.Yields st g u st' g') :
    st.op.isCompute ∧ st.op.reduceAxes = [] ∧ st.isOutput = false ∧ st' = { st with attach := .inlined } ∧ g' = g := by
  simp only [Stage.computeInline, Edit.yields_bind, Edit.yields_get] at h
  obtain ⟨_, _, _, ⟨rfl, rfl, rfl⟩, h⟩ := h
  split at h
  · simp only [Edit.yields_bind, Edit.not_yields_throw, false_and, exists_false] at h
  split at h
  · simp only [Edit.yields_bind, Edit.not_yields_throw, false_and, exists_false] at h
  rename_i hcomp hout
  obtain ⟨rfl, rfl⟩ := Edit.yields_set.mp h
  simp only [Bool.or_eq_true, Bool.not_eq_true', not_or, Bool.not_eq_false, List.isEmpty_iff,
    Bool.not_eq_true] at hcomp hout
  exact ⟨hcomp.1, hcomp.2, hout, rfl, rfl⟩

theorem output_eq_ok {o : Operation} {i : Nat} {x : Tensor} :
    o.output i = .ok x ↔ x = ⟨o, i⟩ ∧ i < o.numOutputs := by
  have hcond : (0 ≤ (i : Int) && (i : Int) < o.ref.numOutputs) = decide (i < o.numOutputs) := by
    simp [ref]
  simp only [output, TensorRef.of, hcond, bind_eq_ok]
  by_cases h : i < o.numOutputs
  · simp [h, pure, Except.pure, eq_comm]
  · simp [h]

theorem find?_of_stageOf {op : OpRef} {st : Stage} : s.stageOf op = .ok st ↔ s.find? op.idx = some st := by
  unfold stageOf
  split <;> simp_all

/-! ### Caching -/

/-- Copies of axes whose variables have the numbers from `n` on. -/
def copiesFrom (n : Nat) : List IterVar → List IterVar
  | [] => []
  | iv :: ivs => ⟨iv.dom, ⟨n, iv.name, iv.dtype⟩, iv.kind, ""⟩ :: copiesFrom (n + 1) ivs

theorem yields_copyAxis {iv iv' : IterVar} : (copyAxis iv).Yields g iv' g' ↔
    iv' = ⟨iv.dom, ⟨g.next, iv.name, iv.dtype⟩, iv.kind, ""⟩ ∧ g' = { g with next := g.next + 1 } := by
  simp only [copyAxis, Build.yields_bind, yields_freshVar, Build.yields_pure]
  grind

theorem yields_mapM_copyAxis {ivs ivs' : List IterVar} :
    (ivs.mapM copyAxis).Yields g ivs' g' ↔
      ivs' = copiesFrom g.next ivs ∧ g' = { g with next := g.next + ivs.length } := by
  induction ivs generalizing g g' ivs' with
  | nil =>
    simp only [List.mapM_nil, Build.yields_pure, copiesFrom, List.length_nil, Nat.add_zero]
    exact and_congr eq_comm eq_comm
  | cons iv ivs ih =>
    have hnext : g.next + (ivs.length + 1) = g.next + 1 + ivs.length := by omega
    simp only [List.mapM_cons, Build.yields_bind, yields_copyAxis, Build.yields_pure, ih,
      copiesFrom, List.length_cons, hnext]
    constructor
    · rintro ⟨_, _, ⟨rfl, rfl⟩, _, _, ⟨rfl, rfl⟩, rfl, rfl⟩
      exact ⟨rfl, rfl⟩
    · rintro ⟨rfl, rfl⟩
      exact ⟨_, _, ⟨rfl, rfl⟩, _, _, ⟨rfl, rfl⟩, rfl, rfl⟩

/-- Puts new axes for old ones. -/
def renames (olds news : List IterVar) : Subst :=
  Subst.ofList ((olds.map (·.var)).zip (news.map fun iv => .var iv.var))

/-- The body of an operation over new axes whose variables have the numbers from `n` on. -/
def copiedBody (n : Nat) (op : Operation) : Expr :=
  match op.body.headD default with
  | .reduce c sources reduced cond index =>
    let reduced' := copiesFrom (n + op.axes.length) reduced
    let σ := renames (op.axes ++ reduced) (copiesFrom n op.axes ++ reduced')
    .reduce c (sources.map (·.subst σ)) reduced' (cond.map (·.subst σ)) index
  | body => body.subst (renames op.axes (copiesFrom n op.axes))

theorem length_copiesFrom (n : Nat) (ivs : List IterVar) : (copiesFrom n ivs).length = ivs.length := by
  induction ivs generalizing n with
  | nil => rfl
  | cons iv ivs ih => simp [copiesFrom, ih]

theorem reduceAxes_of_head {op : Operation} {c : Reducer} {sources : List Expr} {axes : List IterVar}
    {cond : Option Expr} {index : Int} (h : op.body.headD default = .reduce c sources axes cond index) :
    op.reduceAxes = axes := by
  unfold reduceAxes
  cases hb : op.body with
  | nil =>
    rw [hb] at h
    cases h
  | cons e es =>
    rw [hb] at h
    rw [show e = _ from h]

theorem reduceAxes_of_not {op : Operation} (h : ∀ c sources axes cond index,
    op.body.headD default = .reduce c sources axes cond index → False) : op.reduceAxes = [] := by
  unfold reduceAxes
  split
  · rename_i hb
    exact (h _ _ _ _ _ (by rw [hb]; rfl)).elim
  · rfl

theorem copiedBody_of_head {op : Operation} {c : Reducer} {sources : List Expr} {axes : List IterVar}
    {cond : Option Expr} {index : Int} {n : Nat}
    (h : op.body.headD default = .reduce c sources axes cond index) :
    copiedBody n op =
      let axes' := copiesFrom (n + op.axes.length) axes
      let σ := renames (op.axes ++ axes) (copiesFrom n op.axes ++ axes')
      .reduce c (sources.map (·.subst σ)) axes' (cond.map (·.subst σ)) index := by
  unfold copiedBody
  rw [h]

theorem copiedBody_of_not {op : Operation} {n : Nat} (h : ∀ c sources axes cond index,
    op.body.headD default = .reduce c sources axes cond index → False) :
    copiedBody n op = (op.body.headD default).subst (renames op.axes (copiesFrom n op.axes)) := by
  unfold copiedBody
  split
  · exact absurd ‹_› (h _ _ _ _ _)
  · rfl

/-- What copying a body does: it takes numbers for the new axes. -/
theorem copyBody_inv {op : Operation} {axes : List IterVar} {e : Expr}
    (h : (copyBody op).Yields g (axes, e) g') : axes = copiesFrom g.next op.axes ∧
      e = copiedBody g.next op ∧ g' = { g with next := g.next + op.rootAxes.length } := by
  simp only [copyBody, Build.yields_bind, yields_mapM_copyAxis] at h
  obtain ⟨_, _, ⟨rfl, rfl⟩, h⟩ := h
  have hzip : ∀ (olds news : List IterVar), (olds.zip news).map (fun x => (x.1.var, Expr.var x.2.var)) =
      (olds.map (·.var)).zip (news.map fun iv => .var iv.var) := by
    intro olds news
    rw [List.zip_map]
    rfl
  split at h
  · rename_i c sources reduced cond index hbody
    simp only [Build.yields_bind, yields_mapM_copyAxis, Build.yields_pure] at h
    obtain ⟨_, _, ⟨rfl, rfl⟩, hpair, rfl⟩ := h
    obtain ⟨rfl, rfl⟩ := Prod.mk.inj hpair
    refine ⟨rfl, ?_, ?_⟩
    · rw [copiedBody_of_head hbody]
      simp only [renames, List.map_append, hzip]
      rw [List.zip_append (by simp [length_copiesFrom])]
    · simp [rootAxes, reduceAxes_of_head hbody, Nat.add_assoc]
  · rename_i hbody
    obtain ⟨hpair, rfl⟩ := Build.yields_pure.mp h
    obtain ⟨rfl, rfl⟩ := Prod.mk.inj hpair
    refine ⟨rfl, ?_, ?_⟩
    · rw [copiedBody_of_not hbody, hzip, renames]
    · simp [rootAxes, reduceAxes_of_not hbody]

/-- The operation that computes an operation into a cache. -/
def cacheOp (g : Graph) (scope : Setting) (op : Operation) : Operation :=
  ⟨g.ops.size, op.name ++ "." ++ scope.plainText, op.tag, op.attrs,
    .compute (copiesFrom g.next op.axes) [copiedBody g.next op]⟩

/-- The operation that copies the output of a cache, over new axes. -/
def copyOp (g : Graph) (cache op : Operation) : Operation :=
  let axes := copiesFrom (g.next + op.rootAxes.length) op.axes
  ⟨cache.idx + 1, op.name, op.tag, op.attrs, .compute axes
    [.call (cache.outputType 0) cache.name (axes.map fun iv => .var iv.var) .tensorRead (some cache.ref) 0]⟩

theorem asIndex_var {t : Tensor} {i : Nat} {v : Var} {e : Expr} (h : t.asIndex i (.expr (.var v)) = .ok e) :
    e = .var v := by
  simp only [Tensor.asIndex] at h
  split at h
  · exact (Except.ok.inj h).symm
  · cases h

/-- The indices of a read at variables are the variables. -/
theorem mapM_asIndex {t : Tensor} {l : List (Nat × Operand)} {ivs : List IterVar} {args : List Expr}
    (hl : l.map (·.2) = ivs.map fun iv => .expr (.var iv.var))
    (h : l.mapM (fun p => t.asIndex p.1 p.2) = .ok args) :
    args = ivs.map fun iv => .var iv.var := by
  induction l generalizing ivs args with
  | nil =>
    obtain rfl : ivs = [] := by simpa using hl.symm
    simpa [pure, Except.pure, eq_comm] using h
  | cons p l ih =>
    obtain _ | ⟨iv, ivs⟩ := ivs
    · cases hl
    obtain ⟨hp, hl⟩ := List.cons.inj hl
    replace hp : p.2 = .expr (.var iv.var) := hp
    rw [List.mapM_cons, bind_eq_ok] at h
    obtain ⟨a, ha, h⟩ := h
    rw [bind_eq_ok] at h
    obtain ⟨rest, hrest, h⟩ := h
    cases h
    rw [hp] at ha
    rw [asIndex_var ha, ih hl hrest, List.map_cons]

/-- A tensor read at variables. -/
theorem read_vars {t : Tensor} {ivs : List IterVar} {e : Expr}
    (h : t.read (ivs.map fun iv => .expr (.var iv.var)) = .ok e) :
    e = .call t.dtype t.op.name (ivs.map fun iv => .var iv.var) .tensorRead (some t.op.ref) (t.index : Int) := by
  unfold Tensor.read at h
  split at h
  · cases h
  · obtain ⟨args, hargs, h⟩ := bind_eq_ok.mp h
    cases h
    have hsnd : ∀ xs : List Operand, (xs.mapIdx fun i x => (i, x)).map (·.2) = xs := fun xs => by
      rw [List.mapIdx_eq_zipIdx_map, List.map_map]
      exact List.zipIdx_map_fst 0 xs
    rw [mapM_asIndex (hsnd _) hargs]

/-- The stage of a cache. -/
def cacheStage (id : Nat) (cache : Operation) (scope : Setting) : Stage :=
  { Stage.ofOperation id cache with scope }

/-- The schedule with a stage computed into a cache: the cache has a new stage, and the stage computes
    the copy. -/
def cached (g : Graph) (scope : Setting) (st : Stage) (s : Schedule) : Schedule :=
  let cache := cacheOp g scope st.op
  let copy := copyOp g cache st.op
  (((s.insertStage (cacheStage s.nextStage cache scope) st.id).setPlace cache.idx s.nextStage).setPlace
    copy.idx st.id).setStage { st with op := copy, all := copy.axes, leaves := copy.axes }

/-- The graph with a cache of an operation and a copy of the cache. -/
def cachedGraph (g : Graph) (scope : Setting) (op : Operation) : Graph :=
  let cache := cacheOp g scope op
  ⟨(g.ops.push (some cache)).push (some (copyOp g cache op)),
    g.next + op.rootAxes.length + op.axes.length⟩

/-- What caching does: it takes a stage that no transform has changed. -/
theorem cacheWrite_inv {target : OpRef} {scope : Setting} {t : Tensor}
    (h : (cacheWrite target scope).Yields s g t s' g') :
    ∃ st, s.find? target.idx = some st ∧ st.op.isCompute ∧ st.op.numOutputs = 1 ∧
      st.relations = [] ∧ st.annotations = [] ∧ g' = cachedGraph g scope st.op ∧
      s' = cached g scope st s := by
  unfold cacheWrite at h
  rw [Edit.yields_get_bind, Edit.yields_liftExcept_bind] at h
  obtain ⟨st, hst, h⟩ := h
  simp only at h
  split at h
  · exact absurd h Edit.not_yields_throw_bind
  rename_i hout
  split at h
  · exact absurd h Edit.not_yields_throw_bind
  rename_i hlate
  rw [Edit.yields_liftBuild_bind] at h
  obtain ⟨⟨axes, body⟩, g₁, hbody, h⟩ := h
  simp only [addCompute, Edit.yields_liftBuild_bind, yields_addOperation] at h
  obtain ⟨cache, _, ⟨d, hd, rfl, rfl⟩, h⟩ := h
  rw [Edit.yields_bind] at h
  obtain ⟨copyAxes, _, _, hcopies, h⟩ := h
  rw [Edit.yields_mapM_lift, yields_mapM_copyAxis] at hcopies
  obtain ⟨⟨rfl, rfl⟩, rfl⟩ := hcopies
  simp only [Edit.yields_liftExcept_bind, Edit.yields_liftBuild_bind, yields_addOperation,
    Edit.yields_modify_bind, Edit.yields_pure] at h
  obtain ⟨read, hread, copy, _, ⟨d', hd', rfl, rfl⟩, rfl, rfl, rfl⟩ := h
  obtain ⟨rfl, rfl, rfl⟩ := copyBody_inv hbody
  cases hd
  cases hd'
  obtain rfl := read_vars hread
  simp only [Bool.or_eq_true, Bool.not_eq_true', bne_iff_ne, ne_eq, not_or, Bool.not_eq_false,
    Decidable.not_not, List.isEmpty_iff] at hout hlate
  refine ⟨st, find?_of_stageOf.mp hst, hout.1, hout.2, hlate.1, hlate.2, ?_, ?_⟩
  · simp [cachedGraph, copyOp, cacheOp, Tensor.dtype]
  · simp [cached, insertStage, cacheStage, Stage.ofOperation, copyOp, cacheOp, Tensor.dtype, axes]

end Schedule

end TensorNest

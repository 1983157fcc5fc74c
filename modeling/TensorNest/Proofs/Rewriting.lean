import TensorNest.Proofs.Copies
import TensorNest.Proofs.Redirection
import TensorNest.Proofs.Words

/-! # Rewriting keeps the meaning of tensors

Caching, inlining and normalization replace the operations of a schedule by new ones and lead reads to
them. Each step keeps that what leads to a stage has the contents of what the stage computes
(`Schedule.Tracks`). So the contents of the tensor that now computes a tensor are those of the tensor
(`contents_tensorOf_of_rewriting`), for all contents of the placeholders. -/

namespace TensorNest

variable {V : Type} [Inhabited V]

namespace Schedule
open Expr Operation

section Steps
variable {M : Model V} {P : Nat → Prop} {g₀ g g' : Graph} {s₀ s s' : Schedule}

/-! ### Changes of a schedule -/

theorem Leads.setPlace (L : Leads M P g s) {i id : Nat}
    (h : ∀ st, s.stage? id = some st → g.Alike M i st.op.idx) : Leads M P g (s.setPlace i id) where
  regular := L.regular
  ops := L.ops
  inlined := L.inlined
  places hj := by
    obtain ⟨rfl, ht⟩ | hold := find?_setPlace hj
    · exact h _ ht
    · exact L.places hold

theorem Leads.setStage (L : Leads M P g s) {st : Stage} (hop : g.op? st.op.idx = some st.op)
    (hin : st.attach = .inlined → st.op.isCompute)
    (h : ∀ t, s.stage? st.id = some t → g.Alike M t.op.idx st.op.idx) :
    Leads M P g (s.setStage st) where
  regular := L.regular
  ops t ht := by
    obtain rfl | ht := mem_setStage ht
    · exact hop
    · exact L.ops t ht
  inlined t ht := by
    obtain rfl | ht := mem_setStage ht
    · exact hin
    · exact L.inlined t ht
  places hj := by
    obtain ⟨p, hp, ht⟩ := find?_eq_some.mp hj
    obtain ⟨rfl, hid, t', ht'⟩ | ⟨-, ht⟩ := stage?_setStage ht
    · exact (L.places (find?_eq_some.mpr ⟨p, hp, ht'⟩)).trans (h t' (hid ▸ ht'))
    · exact L.places (find?_eq_some.mpr ⟨p, hp, ht⟩)

theorem Leads.insertStage (L : Leads M P g s) {new : Stage} (hnew : new.id = s.nextStage)
    (hop : g.op? new.op.idx = some new.op) (hin : new.attach ≠ .inlined)
    (hplaces : ∀ p ∈ s.places, p.2 < s.nextStage) (id : Nat) : Leads M P g (s.insertStage new id) where
  regular := L.regular
  ops t ht := by
    obtain rfl | ht := mem_insertBefore ht
    · exact hop
    · exact L.ops t ht
  inlined t ht hatt := by
    obtain rfl | ht := mem_insertBefore ht
    · exact absurd hatt hin
    · exact L.inlined t ht hatt
  places hi := by
    obtain ⟨p, hp, ht⟩ := find?_eq_some.mp hi
    have hlt := hplaces p (List.mem_of_find?_eq_some hp)
    rw [stage?_insertStage (by omega)] at ht
    exact L.places (find?_eq_some.mpr ⟨p, hp, ht⟩)

/-- A schedule was rewritten from a schedule `s₀` over a graph `g₀`: the graph has grown, and what had a
    stage still leads to one. -/
structure Tracks (M : Model V) (P : Nat → Prop) (g₀ : Graph) (s₀ : Schedule) (g : Graph) (s : Schedule) :
    Prop extends Leads M P g s where
  grows : g₀.Grows g
  found : ∀ {i}, s₀.Found i → s.Found i
  stageIds : ∀ st ∈ s.stages, st.id < s.nextStage
  placeIds : ∀ p ∈ s.places, p.2 < s.nextStage

/-- A stage can be changed in all but its operation. -/
theorem Tracks.setStage (T : Tracks M P g₀ s₀ g s) {st st' : Stage} (hst : s.stage? st.id = some st)
    (hid : st'.id = st.id) (hop : st'.op = st.op) (hin : st'.attach = .inlined → st'.op.isCompute) :
    Tracks M P g₀ s₀ g (s.setStage st') := by
  have hmem := (mem_of_stage? hst).1
  refine ⟨T.toLeads.setStage (by rw [hop]; exact T.ops st hmem) hin fun t ht => ?_, T.grows,
    fun hi => (T.found hi).setStage st', fun t ht => ?_, T.placeIds⟩
  · rw [hid] at ht
    obtain rfl : st = t := Option.some.inj (hst.symm.trans ht)
    rw [hop]
    exact Graph.Alike.refl (T.ops st hmem)
  · obtain rfl | ht := mem_setStage ht
    · rw [hid]
      exact T.stageIds st hmem
    · exact T.stageIds t ht

theorem Tracks.mapStages (T : Tracks M P g₀ s₀ g s) {f : Stage → Stage} (hid : ∀ st, (f st).id = st.id)
    (hop : ∀ st, (f st).op = st.op) (hin : ∀ st, (f st).attach = .inlined → st.attach = .inlined) :
    Tracks M P g₀ s₀ g { s with stages := s.stages.map f } := by
  refine ⟨⟨T.regular, fun t ht => ?_, fun t ht hatt => ?_, fun {i t} hi => ?_⟩,
    T.grows, fun hi => (T.found hi).mapStages hid, fun t ht => ?_, T.placeIds⟩
  · obtain ⟨st, hst, rfl⟩ := List.mem_map.mp ht
    rw [hop]
    exact T.ops st hst
  · obtain ⟨st, hst, rfl⟩ := List.mem_map.mp ht
    rw [hop]
    exact T.inlined st hst (hin st hatt)
  · rw [find?_mapStages hid] at hi
    obtain ⟨st, hst, rfl⟩ := Option.map_eq_some_iff.mp hi
    rw [hop]
    exact T.places hst
  · obtain ⟨st, hst, rfl⟩ := List.mem_map.mp ht
    rw [hid]
    exact T.stageIds st hst

theorem Tracks.raise (T : Tracks M P g₀ s₀ g s) {n : Nat} (hn : g.next ≤ n) :
    Tracks M P g₀ s₀ { g with next := n } s := by
  have hgrow : g.Grows { g with next := n } := ⟨Nat.le_refl _, hn, fun _ _ => rfl⟩
  exact ⟨T.toLeads.grows hgrow (T.regular.raise hn), T.grows.trans hgrow, T.found, T.stageIds, T.placeIds⟩

/-! ### Steps of rewriting -/

/-- Redirecting a stage keeps the contents of all tensors. -/
theorem Tracks.redirectStage (T : Tracks M P g₀ s₀ g s) {id : Nat} {u : Unit}
    (hadm : ∀ st ∈ s.stage? id, ∀ e ∈ st.op.body, ∀ r ∈ e.tensorReads, s.Admits r)
    (h : (redirectStage id).Yields s g u s' g') : Tracks M P g₀ s₀ g' s' := by
  obtain ⟨rfl, rfl⟩ | ⟨st, hst, hcomp, rfl, rfl⟩ := redirectStage_inv h
  · exact T
  obtain ⟨hmem, rfl⟩ := mem_of_stage? hst
  obtain ⟨hreg, halike⟩ := redirectedOp_alike T.toLeads (T.ops st hmem) hcomp (hadm st hst)
  have hgrow := g.grows_push (redirectedOp g s st.op)
  have hplace : Leads M P _ (s.setPlace g.ops.size st.id) :=
    (T.toLeads.grows hgrow hreg).setPlace fun t ht => by
      obtain rfl : st = t := Option.some.inj (hst.symm.trans ht)
      exact halike.symm
  refine ⟨hplace.setStage ?_ (fun _ => rfl) fun t ht => ?_, T.grows.trans hgrow,
    fun hi => ((T.found hi).setPlace ⟨st, hst⟩).setStage _, fun t ht => ?_, fun p hp => ?_⟩
  · exact (Graph.op?_push g _ _).trans (if_pos rfl)
  · obtain rfl : st = t := Option.some.inj (hst.symm.trans ht)
    exact halike
  · obtain rfl | ht := mem_setStage ht
    · exact T.stageIds st hmem
    · exact T.stageIds t ht
  · obtain rfl | hp := List.mem_cons.mp hp
    · exact T.stageIds st hmem
    · exact T.placeIds p hp

/-- Caching keeps the contents of all tensors. -/
theorem Tracks.cacheWrite (T : Tracks M P g₀ s₀ g s) (hroot : g.Rooted)
    {target : OpRef} {scope : Setting} {t : Tensor}
    (h : (cacheWrite target scope).Yields s g t s' g') : Tracks M P g₀ s₀ g' s' := by
  obtain ⟨st, hst, hcomp, hout, -, -, rfl, rfl⟩ := cacheWrite_inv h
  obtain ⟨p, -, hstage⟩ := find?_eq_some.mp hst
  obtain ⟨hmem, hid⟩ := mem_of_stage? hstage
  rw [← hid] at hstage
  have hop := T.ops st hmem
  have hgrow := grows_cachedGraph g scope st.op
  have hreg := cachedGraph_regular scope T.regular hop hcomp hout (hroot hop)
  have halike := copy_alike (M := M) scope T.regular hop hcomp hout (hroot hop)
  have hlt := T.stageIds st hmem
  -- The cache has a stage of a new number; the stage of the operation is still found under its own.
  let new := cacheStage s.nextStage (cacheOp g scope st.op) scope
  let s₁ := s.insertStage new st.id
  have hst₁ : s₁.stage? st.id = some st := (stage?_insertStage (Nat.ne_of_gt hlt)).trans hstage
  have hcache : ∃ t, s₁.stage? s.nextStage = some t :=
    exists_stage?.mpr ⟨new, mem_insertBefore_self, rfl⟩
  have hst₂ : ∃ t, (s₁.setPlace g.ops.size s.nextStage).stage? st.id = some t := ⟨st, hst₁⟩
  have L₁ : Leads M P (cachedGraph g scope st.op) s₁ :=
    (T.toLeads.grows hgrow hreg).insertStage rfl (op?_cache g scope st.op) (by nofun) T.placeIds st.id
  have L₂ : Leads M P (cachedGraph g scope st.op) (s₁.setPlace g.ops.size s.nextStage) :=
    L₁.setPlace fun t ht => by
      obtain ⟨ht, hid⟩ := mem_of_stage? ht
      obtain rfl | ht := mem_insertBefore ht
      · exact Graph.Alike.refl (op?_cache g scope st.op)
      · have := T.stageIds t ht
        omega
  have L₃ : Leads M P (cachedGraph g scope st.op)
      ((s₁.setPlace g.ops.size s.nextStage).setPlace (g.ops.size + 1) st.id) :=
    L₂.setPlace fun t ht => by
      obtain rfl : st = t := Option.some.inj (hst₁.symm.trans ht)
      exact halike.symm
  refine ⟨L₃.setStage (op?_copy g scope st.op) (fun _ => rfl) fun t ht => ?_, T.grows.trans hgrow,
    fun hi => ((((T.found hi).insertStage _ _).setPlace hcache).setPlace hst₂).setStage _, fun t ht => ?_,
    fun p hp => ?_⟩
  · obtain rfl : st = t := Option.some.inj (hst₁.symm.trans ht)
    exact halike
  · show t.id < s.nextStage + 1
    obtain rfl | ht := mem_setStage ht
    · exact Nat.lt_succ_of_lt hlt
    · obtain rfl | ht := mem_insertBefore ht
      · exact Nat.lt_succ_self _
      · exact Nat.lt_succ_of_lt (T.stageIds t ht)
  · show p.2 < s.nextStage + 1
    obtain rfl | hp := List.mem_cons.mp hp
    · exact Nat.lt_succ_of_lt hlt
    obtain rfl | hp := List.mem_cons.mp hp
    · exact Nat.lt_succ_self _
    · exact Nat.lt_succ_of_lt (T.placeIds p hp)

theorem Tracks.rebaseLeaf (T : Tracks M P g₀ s₀ g s) {id pos : Nat} {leaf : IterVar} {u : Unit}
    (h : (rebaseLeaf id pos leaf).Yields s g u s' g') : Tracks M P g₀ s₀ g' s' := by
  obtain ⟨rfl, rfl⟩ | ⟨st, zero, rebased, hst, -, -, -, rfl, rfl⟩ := rebaseLeaf_inv h
  · exact T
  · obtain ⟨hmem, rfl⟩ := mem_of_stage? hst
    have hset : Tracks M P g₀ s₀ g (s.setStage (rebasedStage st pos leaf rebased)) := by
      refine T.setStage hst rfl rfl fun hatt => T.inlined st hmem ?_
      unfold rebasedStage at hatt
      simp only at hatt
      split at hatt
      · cases hatt
      · exact hatt
    refine (hset.mapStages ?_ ?_ ?_).raise (Nat.le_succ _)
    · exact fun _ => rfl
    · exact fun _ => rfl
    · intro t hatt
      unfold Attach.moved at hatt
      split at hatt
      · split at hatt <;> cases hatt
      · exact hatt

theorem Tracks.rebaseStage (T : Tracks M P g₀ s₀ g s) {id : Nat} {u : Unit}
    (h : (rebaseStage id).Yields s g u s' g') : Tracks M P g₀ s₀ g' s' := by
  obtain ⟨rfl, rfl⟩ | ⟨st, -, hrun⟩ := rebaseStage_inv h
  · exact T
  · exact Edit.forM_keeps (I := fun s g => Tracks M P g₀ s₀ g s) (fun _ _ _ _ _ _ _ hT hstep => hT.rebaseLeaf hstep) T hrun

/-! ### Runs of rewriting -/

/-- While some stages are redirected one after the other, all bodies put in are admitted. -/
inductive AdmitsAll : List Nat → Schedule → Graph → Prop where
  | nil {s : Schedule} {g : Graph} : AdmitsAll [] s g
  | cons {id : Nat} {ids : List Nat} {s : Schedule} {g : Graph}
      (admitted : ∀ st ∈ s.stage? id, ∀ e ∈ st.op.body, ∀ r ∈ e.tensorReads, s.Admits r)
      (rest : AdmitsAll ids ((redirectStage id).outcome s g).1.2 ((redirectStage id).outcome s g).2) :
      AdmitsAll (id :: ids) s g

theorem admitsAll_cons {id : Nat} {ids : List Nat} : AdmitsAll (id :: ids) s g ↔
    (∀ st ∈ s.stage? id, ∀ e ∈ st.op.body, ∀ r ∈ e.tensorReads, s.Admits r) ∧
      AdmitsAll ids ((redirectStage id).outcome s g).1.2 ((redirectStage id).outcome s g).2 :=
  ⟨fun | .cons h hrest => ⟨h, hrest⟩, fun h => .cons h.1 h.2⟩

instance : ∀ ids s g, Decidable (AdmitsAll ids s g)
  | [], _, _ => .isTrue .nil
  | id :: ids, s, g =>
    have := instDecidableAdmitsAll ids ((redirectStage id).outcome s g).1.2
      ((redirectStage id).outcome s g).2
    decidable_of_iff _ admitsAll_cons.symm

theorem Tracks.redirectStages (T : Tracks M P g₀ s₀ g s) {ids : List Nat} {u : Unit}
    (hadm : AdmitsAll ids s g) (h : (ids.forM Schedule.redirectStage).Yields s g u s' g') :
    Tracks M P g₀ s₀ g' s' := by
  induction ids generalizing s g with
  | nil =>
    obtain ⟨rfl, rfl⟩ := Edit.yields_forM_nil.mp h
    exact T
  | cons id ids ih =>
    obtain ⟨s₁, g₁, hid, hrest⟩ := Edit.yields_forM_cons.mp h
    obtain ⟨hadmitted, hadm'⟩ := admitsAll_cons.mp hadm
    refine ih (T.redirectStage hadmitted hid) ?_ hrest
    rw [show (Schedule.redirectStage id).outcome s g = ((.ok ⟨⟩, s₁), g₁) from hid] at hadm'
    exact hadm'

/-- Normalization keeps the contents of all tensors. -/
theorem Tracks.normalize (T : Tracks M P g₀ s₀ g s) {u : Unit} (hadm : AdmitsAll (s.stages.map (·.id)) s g)
    (h : normalize.Yields s g u s' g') : Tracks M P g₀ s₀ g' s' := by
  obtain ⟨-, rfl, rfl⟩ | ⟨s₁, g₁, s₂, -, h₁, h₂, rfl⟩ := normalize_inv h
  · exact T
  · have T₂ : Tracks M P g₀ s₀ g' s₂ :=
      Edit.forM_keeps (I := fun s g => Tracks M P g₀ s₀ g s) (fun _ _ _ _ _ _ _ hT hstep => hT.rebaseStage hstep)
        (T.redirectStages hadm h₁) h₂
    exact ⟨⟨T₂.regular, T₂.ops, T₂.inlined, T₂.places⟩, T₂.grows, T₂.found, T₂.stageIds, T₂.placeIds⟩

theorem Fresh.tracks (h : Fresh g s) (hg : g.Regular P) : Tracks M P g s g s where
  regular := hg
  ops := h.ops
  inlined st hst hatt := by
    rw [h.roots st hst] at hatt
    cases hatt
  places hi := by
    have hop := h.ops _ (mem_of_find? hi)
    rw [h.places hi] at hop ⊢
    exact Graph.Alike.refl hop
  grows := Graph.Grows.refl g
  found := id
  stageIds := h.stageIds
  placeIds := h.placeIds

end Steps

/-- A step that rewrites operations: an operation is computed into a cache, or a stage at each use. -/
inductive Rewriting where
  | cache (target : OpRef) (scope : Setting)
  | inline (stage : Nat)

/-- Takes a step of rewriting. -/
def Rewriting.run : Rewriting → Edit Schedule Unit
  | .cache target scope => discard (cacheWrite target scope)
  | .inline stage => onStage stage Stage.computeInline

section Runs
variable {M : Model V} {P : Nat → Prop} {g₀ g g' : Graph} {s₀ s s' : Schedule}

theorem Tracks.rewriting (T : Tracks M P g₀ s₀ g s) (hroot : g.Rooted) {r : Rewriting} {u : Unit}
    (h : r.run.Yields s g u s' g') : Tracks M P g₀ s₀ g' s' ∧ g'.Rooted := by
  cases r with
  | cache target scope =>
    obtain ⟨t, hrun, -⟩ := Edit.yields_map.mp h
    obtain ⟨st, hst, hcomp, hout, -, -, rfl, -⟩ := cacheWrite_inv hrun
    exact ⟨T.cacheWrite hroot hrun, rooted_cachedGraph T.regular hroot (T.ops st (mem_of_find? hst)) hcomp hout scope⟩
  | inline id =>
    obtain ⟨st, st', hst, hrun, rfl⟩ := onStage_inv h
    obtain ⟨hcomp, -, -, rfl, rfl⟩ := computeInline_inv hrun
    obtain ⟨-, rfl⟩ := mem_of_stage? hst
    have hset : Tracks M P g₀ s₀ _ (s.setStage { st with attach := .inlined }) :=
      T.setStage hst rfl rfl fun _ => hcomp
    exact ⟨hset, hroot⟩

end Runs

/-! ### A chain of inlined stages under two caches -/

namespace Example

/-- Inputs that hold their first index plus two. All free variables are three. -/
def model : Model Int := ⟨.words, fun _ idx => idx.headD 0 + 2, fun _ => 3⟩

def int (id : Nat) : Expr := .var ⟨id, "x", .int32⟩

def number (n : Int) : Expr := .const (.int n) .int32

/-- An axis that runs below the variable of number one. -/
def axis (id : Nat) (kind : IterKind) : IterVar :=
  ⟨some ⟨number 0, int 1⟩, ⟨id, "x", .int32⟩, kind, ""⟩

def read (o : Operation) (indices : List Expr) : Expr :=
  .call .int32 o.name indices .tensorRead (some o.ref) 0

/-- A source folded over an axis, from a start and with a step that joins the variables of numbers seven and eight. -/
def fold (start step source : Expr) (k : IterVar) : Expr :=
  .reduce ⟨[⟨7, "x", .int32⟩], [⟨8, "y", .int32⟩], [step], [start]⟩ [source] [k] none 0

/-- The sum of a source over the axis of number six. -/
def sum (source : Expr) : Expr :=
  fold (number 0) (.bin .add (int 7) (int 8)) source (axis 6 .reduction)

def input : Operation := ⟨0, "A", "", [], .placeholder [int 1] .int32⟩

/-- `B[i] = let x = A[i] in x * x + n` -/
def square : Operation :=
  ⟨1, "B", "", [], .compute [axis 2 .dataParallel]
    [.bind ⟨3, "x", .int32⟩ (read input [int 2]) (.bin .add (.bin .mul (int 3) (int 3)) (int 1))]⟩

/-- `C[j] = B[B[j]] + B[j + n]` -/
def gather : Operation :=
  ⟨2, "C", "", [], .compute [axis 4 .dataParallel]
    [.bin .add (read square [read square [int 4]]) (read square [.bin .add (int 4) (int 1)])]⟩

/-- `D[d] = sum of C[d] * A[k] over k` -/
def total : Operation :=
  ⟨3, "D", "", [], .compute [axis 5 .dataParallel]
    [sum (.bin .mul (read gather [int 5]) (read input [int 6]))]⟩

def graph : Graph := { ops := #[some input, some square, some gather, some total], next := 9 }

/-- The schedule of some operations. -/
def start (g : Graph) (outputs : List Operation) : Schedule :=
  match (create outputs).run.run g with
  | (.ok s, _) => s
  | _ => default

/-- Two stages are inlined, and the last one is cached twice. -/
def steps : List Rewriting :=
  [.inline 1, .inline 2, .cache total.ref "local", .cache total.ref "shared"]

def rewriting : Edit Schedule Unit := steps.forM Rewriting.run

def rewritten : Schedule := (rewriting.outcome (start graph [total]) graph).1.2

def rewrittenGraph : Graph := (rewriting.outcome (start graph [total]) graph).2

def normalized : Schedule := (normalize.outcome rewritten rewrittenGraph).1.2

def normalizedGraph : Graph := (normalize.outcome rewritten rewrittenGraph).2

theorem graph_regular : graph.Regular (· = 1) := by
  rw [Graph.regular_iff]
  refine ⟨by decide, ?_⟩
  rintro x rfl
  decide

theorem graph_rooted : graph.Rooted := by
  rw [Graph.rooted_iff]
  decide

/-- The steps and the normalization succeed, all bodies put in are admitted, and the sum is evaluated. -/
theorem evaluates : (rewriting.outcome (start graph [total]) graph).1.1.isOk ∧
    (normalize.outcome rewritten rewrittenGraph).1.1.isOk ∧
    AdmitsAll (rewritten.stages.map (·.id)) rewritten rewrittenGraph ∧ graph.contents model 3 0 [1] = 2142 := by
  decide +kernel

theorem rewriting_yields : rewriting.Yields (start graph [total]) graph () rewritten rewrittenGraph := by
  unfold rewritten rewrittenGraph
  exact Edit.yields_outcome evaluates.1

theorem normalize_yields : normalize.Yields rewritten rewrittenGraph () normalized normalizedGraph := by
  unfold normalized normalizedGraph
  exact Edit.yields_outcome evaluates.2.1

theorem outputs_total : ∀ o ∈ [total], graph.op? o.idx = some o := by
  intro o ho
  obtain rfl := List.mem_singleton.mp ho
  rfl

theorem start_yields : (create [total]).Yields graph (start graph [total]) graph := rfl

theorem start_total : (start graph [total]).tensorOf ⟨total.ref, 0⟩ = .ok ⟨total, 0⟩ := rfl

/-- The schedule and the graph after some steps and the normalization. -/
def ended (g : Graph) (o : Operation) (steps : List Rewriting) : (Except Error Unit × Schedule) × Graph :=
  (do steps.forM Rewriting.run; normalize : Edit Schedule Unit).outcome (start g [o]) g

/-- Rewriting succeeds, and an element of the tensor that computes an operation is another one than before. -/
def Changes (g : Graph) (o : Operation) (steps : List Rewriting) (i m n : Int) : Prop :=
  (ended g o steps).1.1.isOk ∧ g.contents model o.idx 0 [i] = m ∧
    ((ended g o steps).1.2.tensorOf ⟨o.ref, 0⟩).toOption.map
      (fun x => (ended g o steps).2.contents model x.op.idx x.index [i]) = some n

instance (g : Graph) (o : Operation) (steps : List Rewriting) (i m n : Int) : Decidable (Changes g o steps i m n) :=
  inferInstanceAs (Decidable (_ ∧ _ ∧ _))

/-- `B` of a body over the axis of number two -/
def first (body : Expr) : Operation :=
  ⟨1, "B", "", [], .compute [axis 2 .dataParallel] [body]⟩

/-- `B` at an index -/
def readFirst (index : Expr) : Expr := read (first (number 0)) [index]

/-- `C` of a body over the axis of number four -/
def second (body : Expr) : Operation :=
  ⟨2, "C", "", [], .compute [axis 4 .dataParallel] [body]⟩

/-- Caching an operation of number one changes it. -/
def CachingChanges (o : Operation) (i m n : Int) : Prop :=
  Changes ⟨#[some input, some o], 9⟩ o [.cache o.ref "local"] i m n

/-- Inlining an operation of number one changes an operation that reads it. -/
def InliningChanges (o p : Operation) (i m n : Int) : Prop :=
  let g : Graph := ⟨#[some input, some o, some p], 9⟩
  Changes g p (((start g [p]).find? o.idx).toList.map fun st => .inline st.id) i m n

instance (o : Operation) (i m n : Int) : Decidable (CachingChanges o i m n) :=
  inferInstanceAs (Decidable (Changes ..))

instance (o p : Operation) (i m n : Int) : Decidable (InliningChanges o p i m n) :=
  inferInstanceAs (Decidable (Changes ..))

def int8 : DataType := ⟨.int, 8, 1⟩

/-- An index of eight bits -/
def narrow : IterVar :=
  ⟨some ⟨.const (.int 0) int8, .const (.int 4) int8⟩, ⟨4, "x", int8⟩, .dataParallel, ""⟩

/-- `B[i] = i * 100` -/
def hundreds : Operation := first (.bin .mul (int 2) (number 100))

/-- `C[j] = B[j]` over an index of eight bits -/
def narrowed : Operation :=
  ⟨2, "C", "", [], .compute [narrow] [readFirst (.var narrow.var)]⟩

end Example

end Schedule

end TensorNest

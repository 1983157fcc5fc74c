import Mathlib.Logic.Relation
import TensorNest.Proofs.StageOrder

/-! # New schedules

The visit that makes a schedule goes down along the reads of the operations and adds the stage of an
operation after those of what the operation reads (`visit_builds`). On operations that read outputs of
earlier ones it succeeds: the schedule has one stage for each operation that the outputs depend on, and
these come before what reads them, after any transforms too (`ordered_of_transforms`). -/

namespace TensorNest

/-- An operation reads a tensor of another one. -/
def Graph.DependsOn (g : Graph) (o p : Operation) : Prop :=
  ∃ ts, o.inputs = .ok ts ∧ ∃ t ∈ ts, g.op? t.op.idx = some p

namespace Schedule
open Operation

variable {s s' : Schedule} {g g' : Graph} {n : Nat}

/-- An operation has a stage. -/
def Has (s : Schedule) (i : Nat) : Prop :=
  ∃ st ∈ s.stages, st.op.idx = i

/-- A schedule under construction over a graph: each of its operations has one stage. -/
structure Built (g : Graph) (s : Schedule) : Prop where
  fresh : Fresh g s
  arranged : s.Arranged g.ops.size
  single : (s.stages.map (·.op.idx)).Nodup

theorem has_addStage {op : Operation} {i : Nat} : (s.addStage op).Has i ↔ s.Has i ∨ op.idx = i := by
  simp [Has, Schedule.addStage, or_and_right, exists_or, Stage.ofOperation]

theorem Built.addStage (h : Built g s) {op : Operation} (hop : g.op? op.idx = some op) (hnew : ¬s.Has op.idx)
    (hreads : ∀ {f k}, op.Reads f k → 0 ≤ k ∧ k < f.numOutputs ∧ ∃ p ∈ s.stages, p.op.idx = f.idx ∧ k < p.op.numOutputs) :
    Built g (s.addStage op) := by
  have hids : ∀ t ∈ s.stages, t.id ≠ s.nextStage := fun t ht => Nat.ne_of_lt (h.arranged.stageIds t ht)
  have hlast : insertBefore (Stage.ofOperation s.nextStage op) s.nextStage s.stages =
      s.stages ++ [Stage.ofOperation s.nextStage op] := insertBefore_of_not_mem hids
  have heq : s.addStage op =
      (s.insertStage (Stage.ofOperation s.nextStage op) s.nextStage).setPlace op.idx s.nextStage := by
    unfold Schedule.insertStage
    rw [hlast]
    rfl
  refine ⟨h.fresh.addStage hop, ?_, ?_⟩
  · have hnone : s.find? op.idx = none := by
      cases hfind : s.find? op.idx with
      | none => rfl
      | some p => exact absurd ⟨p, mem_of_find? hfind, h.fresh.places hfind⟩ hnew
    rw [heq]
    refine h.arranged.insertStage rfl (Nat.le_refl _) (Graph.lt_size_of_op? hop) hnone fun {f k} hr => ?_
    rcases hreads hr with ⟨h0, hlt, p, hp, hidx, hk⟩
    refine ⟨h0, hlt, p, ?_, hk, ?_⟩
    · rw [← hidx]
      exact h.arranged.current p hp
    · have hp' : [p.id].Sublist (s.stages.map (·.id)) := List.singleton_sublist.mpr (List.mem_map_of_mem hp)
      unfold Before Schedule.insertStage
      rw [hlast, List.map_append]
      exact hp'.append (List.Sublist.refl _)
  · have hsingle : (s.stages.map (·.op.idx) ++ [op.idx]).Nodup := by
      refine List.nodup_append.mpr ⟨h.single, List.nodup_singleton _, ?_⟩
      rintro i hi j hj rfl
      rcases List.mem_map.mp hi with ⟨st, hst, hidx⟩
      exact hnew ⟨st, hst, hidx.trans (List.mem_singleton.mp hj)⟩
    simpa [Schedule.addStage, Stage.ofOperation] using hsingle

theorem DependsOn.below (hg : g.Wired) {o p : Operation} (ho : g.op? o.idx = some o)
    (h : Relation.ReflTransGen g.DependsOn o p) : g.op? p.idx = some p ∧ p.idx ≤ o.idx := by
  induction h with
  | refl => exact ⟨ho, Nat.le_refl _⟩
  | tail _ hstep ih =>
    rcases hstep with ⟨ts, hts, t, ht, hp⟩
    rcases inputs_of_reads fun hr => ⟨(hg.reads ih.1 hr).2.1, (hg.reads ih.1 hr).2.2.1⟩ with ⟨ts', hts', hsound, -⟩
    rcases Except.ok.inj (hts.symm.trans hts') with rfl
    have hlt := (hg.reads ih.1 (hsound t ht)).1
    have hidx := hg.numbered hp
    rw [hidx]
    exact ⟨hp, by omega⟩

/-- A visit under way: of the operations below the number `n`, those that were visited have stages, and
    only those. -/
structure Underway (g : Graph) (n : Nat) (acc : List Nat × Schedule) : Prop where
  built : Built g acc.2
  visited : ∀ i, acc.2.Has i → i ∈ acc.1
  done : ∀ i ∈ acc.1, i < n → acc.2.Has i

/-- What visits have added: they leave no operation that they visit without a stage, and add stages of
    operations in `Q` only. -/
structure Grown (Q : Operation → Prop) (acc acc' : List Nat × Schedule) : Prop where
  visited : acc.1 ⊆ acc'.1
  kept : ∀ i, acc.2.Has i → acc'.2.Has i
  seen : ∀ i ∈ acc'.1, i ∈ acc.1 ∨ acc'.2.Has i
  origin : ∀ st ∈ acc'.2.stages, st ∈ acc.2.stages ∨ Q st.op

section Visits
variable {Q Q' : Operation → Prop} {acc acc' acc'' : List Nat × Schedule}

theorem Grown.refl (Q : Operation → Prop) (acc : List Nat × Schedule) : Grown Q acc acc :=
  ⟨fun _ h => h, fun _ h => h, fun _ h => Or.inl h, fun _ h => Or.inl h⟩

theorem Grown.trans (h : Grown Q acc acc') (h' : Grown Q acc' acc'') : Grown Q acc acc'' := by
  refine ⟨fun _ hi => h'.visited (h.visited hi), fun i hi => h'.kept i (h.kept i hi), fun i hi => ?_, fun st hst => ?_⟩
  · rcases h'.seen i hi with hi | hi
    · exact (h.seen i hi).imp_right (h'.kept i)
    · exact Or.inr hi
  · rcases h'.origin st hst with hst | hst
    · exact h.origin st hst
    · exact Or.inr hst

theorem Grown.mono (h : Grown Q acc acc') (hQ : ∀ o, Q o → Q' o) : Grown Q' acc acc' :=
  ⟨h.visited, h.kept, h.seen, fun st hst => (h.origin st hst).imp_right (hQ st.op)⟩

/-- Visits one after the other, each of which succeeds and gives an operation a stage. -/
theorem foldlM_visits {α : Type} {l : List α} {f : List Nat × Schedule → α → Except Error (List Nat × Schedule)}
    {key : α → Nat} (step : ∀ x ∈ l, ∀ {acc}, Underway g n acc →
      ∃ acc', f acc x = .ok acc' ∧ Underway g n acc' ∧ Grown Q acc acc' ∧ acc'.2.Has (key x))
    (h : Underway g n acc) : ∃ acc', l.foldlM f acc = .ok acc' ∧ Underway g n acc' ∧ Grown Q acc acc' ∧
      ∀ x ∈ l, acc'.2.Has (key x) := by
  induction l generalizing acc with
  | nil => exact ⟨acc, rfl, h, Grown.refl Q acc, by simp⟩
  | cons x l ih =>
    rcases step x List.mem_cons_self h with ⟨acc₁, hx, h₁, hgrown, hhas⟩
    rcases ih (fun y hy => step y (List.mem_cons_of_mem x hy)) h₁ with ⟨acc₂, hl, h₂, hgrown', hall⟩
    refine ⟨acc₂, ?_, h₂, hgrown.trans hgrown', List.forall_mem_cons.mpr ⟨hgrown'.kept _ hhas, hall⟩⟩
    rw [List.foldlM_cons, hx]
    exact hl

/-- A visit of an operation that was not visited visits what the operation reads and then adds its stage. -/
theorem visit_succ {depth : Nat} {visited : List Nat} {op : Operation} (h : op.idx ∉ visited) :
    visit g (depth + 1) (visited, s) op = op.inputs >>= fun ts =>
      ts.foldlM (fun acc t => (g.op? t.op.idx).elim (.error (.missingKey (toString t.op.idx))) (visit g depth acc))
        (op.idx :: visited, s) >>= fun acc => .ok (acc.1, acc.2.addStage op) := by
  have hcontains : ¬visited.contains op.idx = true := by simpa using h
  rw [visit, if_neg hcontains]
  refine bind_congr fun ts => ?_
  congr 2
  funext acc t
  cases g.op? t.op.idx <;> rfl

/-- A visit of an operation succeeds and gives stages to the operation and to what it depends on. -/
theorem visit_builds (hg : g.Wired) {depth : Nat} {op : Operation} (hop : g.op? op.idx = some op)
    (hdepth : op.idx < depth) (hn : op.idx < n) (h : Underway g n acc) :
    ∃ acc', visit g depth acc op = .ok acc' ∧ Underway g n acc' ∧
      Grown (Relation.ReflTransGen g.DependsOn op) acc acc' ∧ acc'.2.Has op.idx := by
  induction depth generalizing n acc op with
  | zero => exact absurd hdepth (Nat.not_lt_zero _)
  | succ depth ih =>
    rcases acc with ⟨visited, s⟩
    by_cases hvis : op.idx ∈ visited
    · have hcontains : visited.contains op.idx = true := by simpa using hvis
      rw [visit, if_pos hcontains]
      exact ⟨_, rfl, h, Grown.refl _ _, h.done _ hvis hn⟩
    rw [visit_succ hvis]
    have hreads := fun {f k} (hr : op.Reads f k) => hg.reads hop hr
    rcases inputs_of_reads fun hr => ⟨(hreads hr).2.1, (hreads hr).2.2.1⟩ with ⟨ts, hts, hsound, hall⟩
    -- What is above `op` is being visited and has no stage yet; what `op` reads is below it.
    have hstart : Underway g op.idx (op.idx :: visited, s) := by
      refine ⟨h.built, fun i hi => List.mem_cons_of_mem _ (h.visited i hi), fun i hi hlt => ?_⟩
      rcases List.mem_cons.mp hi with rfl | hi
      · exact absurd hlt (Nat.lt_irrefl _)
      · exact h.done i hi (by omega)
    have hstep : ∀ t ∈ ts, ∀ {acc}, Underway g op.idx acc → ∃ acc',
        (g.op? t.op.idx).elim (.error (.missingKey (toString t.op.idx)))
        (visit g depth acc) = .ok acc' ∧ Underway g op.idx acc' ∧
        Grown (Relation.TransGen g.DependsOn op) acc acc' ∧ acc'.2.Has t.op.idx := by
      intro t ht acc hacc
      rcases hreads (hsound t ht) with ⟨hlt, -, -, p, hp, -⟩
      have hidx := hg.numbered hp
      have hp' : g.op? p.idx = some p := by rw [hidx]; exact hp
      rcases ih hp' (by omega) (by omega) hacc with ⟨acc', hvisit, hacc', hgrown, hhas⟩
      refine ⟨acc', ?_, hacc', hgrown.mono fun o ho => Relation.TransGen.head' ⟨ts, hts, t, ht, hp⟩ ho, hidx ▸ hhas⟩
      rw [hp]
      exact hvisit
    rcases foldlM_visits hstep hstart with ⟨⟨visited', s'⟩, hfold, hacc', hgrown, hinputs⟩
    have hnew : ¬s'.Has op.idx := by
      rintro ⟨st, hst, hidx⟩
      rcases hgrown.origin st hst with hold | hdepends
      · exact hvis (h.visited _ ⟨st, hold, hidx⟩)
      · rcases Relation.TransGen.head'_iff.mp hdepends with ⟨p, hstep, hrest⟩
        rcases hstep with ⟨ts', hts', t, ht, hp⟩
        rcases Except.ok.inj (hts.symm.trans hts') with rfl
        have hlt := (hreads (hsound t ht)).1
        have hpidx := hg.numbered hp
        have hle := (DependsOn.below hg (by rw [hpidx]; exact hp) hrest).2
        omega
    have hbuilt : Built g (s'.addStage op) := by
      refine hacc'.built.addStage hop hnew fun {f k} hr => ?_
      rcases hreads hr with ⟨-, h0, hk, p, hp, href⟩
      rcases hall hr with ⟨t, ht, hidx⟩
      rcases hinputs t ht with ⟨st, hst, hst'⟩
      have hstop := hacc'.built.fresh.ops st hst
      rw [hst', hidx, hp] at hstop
      refine ⟨h0, hk, st, hst, hst'.trans hidx, ?_⟩
      rw [← Option.some.inj hstop]
      rw [← href] at hk
      exact hk
    refine ⟨(visited', s'.addStage op), ?_, ⟨hbuilt, ?_, ?_⟩, ⟨?_, ?_, ?_, ?_⟩, has_addStage.mpr (Or.inr rfl)⟩
    · exact bind_eq_ok.mpr ⟨ts, hts, bind_eq_ok.mpr ⟨(visited', s'), hfold, rfl⟩⟩
    · intro i hi
      rcases has_addStage.mp hi with hi | rfl
      · exact hacc'.visited i hi
      · exact hgrown.visited List.mem_cons_self
    · intro i hi hlt
      rcases hgrown.seen i hi with hi | hi
      · rcases List.mem_cons.mp hi with rfl | hi
        · exact has_addStage.mpr (Or.inr rfl)
        · exact has_addStage.mpr (Or.inl (hgrown.kept i (h.done i hi hlt)))
      · exact has_addStage.mpr (Or.inl hi)
    · exact fun i hi => hgrown.visited (List.mem_cons_of_mem _ hi)
    · exact fun i hi => has_addStage.mpr (Or.inl (hgrown.kept i hi))
    · intro i hi
      rcases hgrown.seen i hi with hi | hi
      · rcases List.mem_cons.mp hi with rfl | hi
        · exact Or.inr (has_addStage.mpr (Or.inr rfl))
        · exact Or.inl hi
      · exact Or.inr (has_addStage.mpr (Or.inl hi))
    · intro st hst
      rcases List.mem_append.mp hst with hst | hst
      · exact (hgrown.origin st hst).imp_right Relation.TransGen.to_reflTransGen
      · rw [List.mem_singleton.mp hst]
        exact Or.inr Relation.ReflTransGen.refl

end Visits

/-- Of operations that read outputs of earlier ones a schedule can be made. It has one stage for each
    operation that the outputs depend on, and no other. -/
theorem create_builds (hg : g.Wired) {outputs : List Operation} (hout : ∀ o ∈ outputs, g.op? o.idx = some o) :
    ∃ s, (create outputs).Yields g s g ∧ s.Arranged g.ops.size ∧ (s.stages.map (·.op.idx)).Nodup ∧
      ∀ o, (∃ st ∈ s.stages, st.op = o) ↔ ∃ x ∈ outputs, Relation.ReflTransGen g.DependsOn x o := by
  have hempty : Underway g g.ops.size ([], { outputs := outputs }) := by
    refine ⟨⟨⟨?_, ?_, ?_, ?_, ?_⟩, ⟨?_, ?_, ?_, ?_, ?_⟩, ?_⟩, ?_, ?_⟩ <;> simp [Has, find?]
  have hstep : ∀ o ∈ outputs, ∀ {acc}, Underway g g.ops.size acc → ∃ acc', visit g (g.ops.size + 1) acc o = .ok acc' ∧
      Underway g g.ops.size acc' ∧ Grown (fun p => ∃ x ∈ outputs, Relation.ReflTransGen g.DependsOn x p) acc acc' ∧
      acc'.2.Has o.idx := by
    intro o ho acc hacc
    have hlt := Graph.lt_size_of_op? (hout o ho)
    rcases visit_builds hg (hout o ho) (Nat.lt_succ_of_lt hlt) hlt hacc with ⟨acc', hvisit, hacc', hgrown, hhas⟩
    exact ⟨acc', hvisit, hacc', hgrown.mono fun p hp => ⟨o, ho, hp⟩, hhas⟩
  rcases foldlM_visits hstep hempty with ⟨⟨visited, s⟩, hfold, hacc, hgrown, hall⟩
  have hbuilt : Built g s := hacc.built
  have hops : ∀ st ∈ s.stages, g.op? st.op.idx = some st.op := hbuilt.fresh.ops
  let result : Schedule := { s with
    stages := s.stages.map fun st => { st with isOutput := outputs.any (·.idx == st.op.idx) } }
  refine ⟨result, ?_, ?_, ?_, fun o => ⟨?_, ?_⟩⟩
  · simp only [create, Build.yields_bind, Build.yields_get, Build.yields_foldlM_lift, Build.yields_pure]
    exact ⟨g, g, ⟨rfl, rfl⟩, (visited, s), g, ⟨hfold, rfl⟩, rfl, rfl⟩
  · exact hbuilt.arranged.mapStages (fun _ => rfl) (fun _ _ => rfl) hbuilt.arranged.current fun st hst _ _ hr =>
      hbuilt.arranged.reads st hst hr
  · have hsingle := hbuilt.single
    simpa [result, Function.comp_def] using hsingle
  · rintro ⟨_, hmem, rfl⟩
    rcases List.mem_map.mp hmem with ⟨st, hst, rfl⟩
    rcases hgrown.origin st hst with hold | hdepends
    · cases hold
    · exact hdepends
  · rintro ⟨x, hx, hdepends⟩
    have hhas : s.Has o.idx := by
      induction hdepends with
      | refl => exact hall x hx
      | tail hrest hstep ih =>
        rcases ih with ⟨st, hst, hidx⟩
        rcases hstep with ⟨ts, hts, t, ht, hp⟩
        have hop := hops st hst
        rw [hidx, (DependsOn.below hg (hout x hx) hrest).1] at hop
        rcases Option.some.inj hop with rfl
        rcases inputs_of_reads fun hr => ⟨(hg.reads (hops st hst) hr).2.1, (hg.reads (hops st hst) hr).2.2.1⟩ with
          ⟨ts', hts', hsound, -⟩
        rcases Except.ok.inj (hts.symm.trans hts') with rfl
        rcases hbuilt.arranged.reads st hst (hsound t ht) with ⟨-, -, q, hq, -⟩
        refine ⟨q, mem_of_find? hq, ?_⟩
        rw [hbuilt.fresh.places hq, hg.numbered hp]
    rcases hhas with ⟨st, hst, hidx⟩
    have hop := hops st hst
    rw [hidx, (DependsOn.below hg (hout x hx) hdepends).1] at hop
    exact ⟨_, List.mem_map_of_mem hst, (Option.some.inj hop).symm⟩

/-- A new schedule has one stage for each operation that its outputs depend on, and no other; after any
    transforms, the stage that is found for what a stage reads comes before the stage. -/
theorem ordered_of_transforms (hg : g.Wired) {outputs : List Operation} (hout : ∀ o ∈ outputs, g.op? o.idx = some o) :
    ∃ s, (create outputs).Yields g s g ∧ (s.stages.map (·.op.idx)).Nodup ∧
      (∀ o, (∃ st ∈ s.stages, st.op = o) ↔ ∃ x ∈ outputs, Relation.ReflTransGen g.DependsOn x o) ∧
      ∀ (ts : List Transform) (s' : Schedule) (g' : Graph), (ts.forM Transform.run).Yields s g () s' g' → s'.Ordered := by
  rcases create_builds hg hout with ⟨s, hcreate, harranged, hsingle, hstages⟩
  refine ⟨s, hcreate, hsingle, hstages, fun ts s' g' hrun => ?_⟩
  exact (harranged.run hrun).ordered

/-! ### Two ways to the same input -/

namespace Diamond

/-- An axis over four values. -/
def axis (id : Nat) : IterVar :=
  ⟨some ⟨.const (.int 0) .int32, .const (.int 4) .int32⟩, ⟨id, "i", .int32⟩, .dataParallel, ""⟩

def read (o : Operation) (id : Nat) : Expr :=
  .call .int32 o.name [.var ⟨id, "i", .int32⟩] .tensorRead (some o.ref) 0

def input : Operation :=
  ⟨0, "A", "", [], .placeholder [.const (.int 4) .int32] .int32⟩

/-- `B[i] = A[i] + A[i]` -/
def doubled : Operation :=
  ⟨1, "B", "", [], .compute [axis 1] [.bin .add (read input 1) (read input 1)]⟩

/-- `C[i] = B[i] * A[i]` -/
def product : Operation :=
  ⟨2, "C", "", [], .compute [axis 2] [.bin .mul (read doubled 2) (read input 2)]⟩

/-- `D[i] = C[i] - B[i]` -/
def difference : Operation :=
  ⟨3, "D", "", [], .compute [axis 3] [.bin .sub (read product 3) (read doubled 3)]⟩

/-- `E[i] = C[i]`, on which `D` does not depend -/
def unused : Operation :=
  ⟨4, "E", "", [], .compute [axis 4] [read product 4]⟩

def graph : Graph :=
  { ops := #[some input, some doubled, some product, some difference, some unused], next := 5 }

/-- `C` and `D` are cached and `B` is inlined; once the schedule is normal, `C` is cached again. -/
def transforms : List Transform :=
  [.cacheWrite product.ref "local", .onStage 1 .computeInline, .cacheWrite difference.ref "shared", .normalize,
    .cacheWrite product.ref "shared"]

def start : Schedule :=
  match (create [difference]).run.run graph with
  | (.ok s, _) => s
  | _ => default

def run : Edit Schedule Unit := transforms.forM Transform.run

def result : Schedule := (run.outcome start graph).1.2

theorem run_yields : run.Yields start graph () result (run.outcome start graph).2 := by
  unfold result
  exact Edit.yields_outcome (by decide +kernel)

theorem graph_wired : graph.Wired := by decide

theorem outputs_difference : ∀ o ∈ [difference], graph.op? o.idx = some o := by
  intro o ho
  rw [List.mem_singleton.mp ho]
  rfl

theorem ordered_result :
    start.stages.map (·.op.name) = ["A", "B", "C", "D"] ∧
      result.stages.map (·.op.name) = ["A", "B", "C.local", "C.shared", "C", "D.shared", "D"] ∧ result.Ordered := by
  refine ⟨by decide +kernel, by decide +kernel, ?_⟩
  rcases ordered_of_transforms graph_wired outputs_difference with ⟨s, hcreate, -, -, hordered⟩
  have hstart : s = start := by
    have hsame : (create [difference]).Yields graph start graph := rfl
    have heq := hcreate.symm.trans hsame
    simpa using heq
  rw [hstart] at hordered
  exact hordered transforms result _ run_yields

end Diamond

end Schedule

end TensorNest

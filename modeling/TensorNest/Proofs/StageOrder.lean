import Mathlib.Data.List.Nodup
import TensorNest.Proofs.Transforms

/-! # The order of the stages

A new schedule has one stage for each operation that its outputs depend on: the visit that makes it goes
down along the reads, so that the stage of an operation is added after those of what it reads
(`visit_builds`). Transforms keep the order, told by the numbers of the stages (`Arranged`): a cache is put
right before the stage that copies it, and a redirected read leads to the stage that was found for the
read, or to one that is found for a read of that stage. -/

namespace TensorNest

/-- An operation reads an output of an operation in its body. -/
def Operation.Reads (o : Operation) (f : OpRef) (k : Int) : Prop :=
  ∃ e ∈ o.body, ∃ t n, Expr.Head.call t .tensorRead (some f) k n ∈ e.heads

/-- The operations of a graph have their numbers, and each reads outputs that earlier operations have. -/
structure Graph.Wired (g : Graph) : Prop where
  numbered : ∀ {i o}, g.op? i = some o → o.idx = i
  reads : ∀ {i o f k}, g.op? i = some o → o.Reads f k →
    f.idx < i ∧ 0 ≤ k ∧ k < f.numOutputs ∧ ∃ p, g.op? f.idx = some p ∧ p.ref = f

theorem Expr.mem_tensorReads {f : OpRef} {k : Int} {e : Expr} :
    (∃ args, (f, k, args) ∈ e.tensorReads) ↔ ∃ t n, Expr.Head.call t .tensorRead (some f) k n ∈ e.heads := by
  constructor
  · rintro ⟨args, h⟩
    rcases List.mem_filterMap.mp h with ⟨a, ha, hread⟩
    split at hread
    · cases hread
      exact ⟨_, args.length, List.mem_map.mpr ⟨_, ha, rfl⟩⟩
    · cases hread
  · rintro ⟨t, n, h⟩
    rcases List.mem_map.mp h with ⟨a, ha, hhead⟩
    cases a <;> cases hhead
    exact ⟨_, List.mem_filterMap.mpr ⟨_, ha, rfl⟩⟩

namespace Operation

variable {o : Operation}

theorem reads_iff {f : OpRef} {k : Int} : o.Reads f k ↔ ∃ args, (f, k, args) ∈ o.body.flatMap (·.tensorReads) := by
  simp only [Reads, ← Expr.mem_tensorReads, List.mem_flatMap]
  constructor
  · rintro ⟨e, he, args, h⟩
    exact ⟨args, e, he, h⟩
  · rintro ⟨args, e, he, h⟩
    exact ⟨e, he, args, h⟩

/-- The tensors found so far with that of a read. -/
def addRead (found : List TensorRef) (r : OpRef × Int × List Expr) : Except Error (List TensorRef) := do
  let t ← TensorRef.of r.1 r.2.1
  return if found.any (·.same t) then found else found ++ [t]

/-- A read of an output that there is adds a tensor of its operation, unless there is one. -/
theorem addRead_ok {found : List TensorRef} {r : OpRef × Int × List Expr} (hfound : ∀ t ∈ found, o.Reads t.op t.index)
    (hr : o.Reads r.1 r.2.1) (h0 : 0 ≤ r.2.1) (hlt : r.2.1 < r.1.numOutputs) :
    ∃ found', addRead found r = .ok found' ∧ found ⊆ found' ∧ (∀ t ∈ found', o.Reads t.op t.index) ∧
      ∃ t ∈ found', t.op.idx = r.1.idx := by
  have hof : TensorRef.of r.1 r.2.1 = .ok ⟨r.1, r.2.1.toNat⟩ := by simp [TensorRef.of, h0, hlt]
  unfold addRead
  rw [hof]
  by_cases hany : found.any (·.same ⟨r.1, r.2.1.toNat⟩) = true
  · rcases List.any_eq_true.mp hany with ⟨t, ht, hsame⟩
    have hidx : t.op.idx = r.1.idx ∧ t.index = r.2.1.toNat := by simpa [TensorRef.same] using hsame
    refine ⟨found, ?_, fun _ h => h, hfound, t, ht, hidx.1⟩
    show Except.ok (if _ then _ else _) = _
    rw [if_pos hany]
  · have hreads : o.Reads r.1 r.2.1.toNat := by rwa [Int.toNat_of_nonneg h0]
    refine ⟨found ++ [⟨r.1, r.2.1.toNat⟩], ?_, List.subset_append_left _ _, ?_, ⟨r.1, r.2.1.toNat⟩, by simp, rfl⟩
    · show Except.ok (if _ then _ else _) = _
      rw [if_neg hany]
    · intro t ht
      rcases List.mem_append.mp ht with ht | ht
      · exact hfound t ht
      · rw [List.mem_singleton.mp ht]
        exact hreads

/-- The inputs of an operation that reads only outputs that there are. -/
theorem inputs_of_reads (h : ∀ {f k}, o.Reads f k → 0 ≤ k ∧ k < f.numOutputs) :
    ∃ ts, o.inputs = .ok ts ∧ (∀ t ∈ ts, o.Reads t.op t.index) ∧ ∀ {f k}, o.Reads f k → ∃ t ∈ ts, t.op.idx = f.idx := by
  suffices ∀ (rs : List (OpRef × Int × List Expr)) (found : List TensorRef), (∀ r ∈ rs, o.Reads r.1 r.2.1) →
      (∀ t ∈ found, o.Reads t.op t.index) → ∃ ts, rs.foldlM addRead found = .ok ts ∧ found ⊆ ts ∧
        (∀ t ∈ ts, o.Reads t.op t.index) ∧ ∀ r ∈ rs, ∃ t ∈ ts, t.op.idx = r.1.idx by
    rcases this (o.body.flatMap (·.tensorReads)) [] (fun r hr => reads_iff.mpr ⟨r.2.2, hr⟩) (by simp) with
      ⟨ts, hts, -, hsound, hall⟩
    refine ⟨ts, hts, hsound, fun {f k} hr => ?_⟩
    rcases reads_iff.mp hr with ⟨args, hmem⟩
    exact hall _ hmem
  intro rs
  induction rs with
  | nil =>
    intro found _ hfound
    exact ⟨found, rfl, fun _ h => h, hfound, by simp⟩
  | cons r rs ih =>
    intro found hrs hfound
    rcases List.forall_mem_cons.mp hrs with ⟨hr, hrs⟩
    rcases addRead_ok hfound hr (h hr).1 (h hr).2 with ⟨found', hadd, hsub, hfound', t, ht, hidx⟩
    rcases ih found' hrs hfound' with ⟨ts, hts, hsub', hsound, hall⟩
    refine ⟨ts, ?_, fun t ht => hsub' (hsub ht), hsound, List.forall_mem_cons.mpr ⟨⟨t, hsub' ht, hidx⟩, hall⟩⟩
    rw [List.foldlM_cons, hadd]
    exact hts

end Operation

/-- Whether a graph is wired is checked read by read. -/
theorem Graph.wired_iff {g : Graph} : g.Wired ↔ ∀ i < g.ops.size, ∀ o ∈ g.op? i, o.idx = i ∧
    ∀ r ∈ o.body.flatMap (·.tensorReads), r.1.idx < i ∧ 0 ≤ r.2.1 ∧ r.2.1 < r.1.numOutputs ∧
      ∃ p ∈ g.op? r.1.idx, p.ref = r.1 := by
  constructor
  · intro h i _ o ho
    exact ⟨h.numbered ho, fun r hr => h.reads ho (Operation.reads_iff.mpr ⟨r.2.2, hr⟩)⟩
  · intro h
    refine ⟨fun ho => (h _ (lt_size_of_op? ho) _ ho).1, fun ho hr => ?_⟩
    rcases Operation.reads_iff.mp hr with ⟨args, hmem⟩
    exact (h _ (lt_size_of_op? ho) _ ho).2 _ hmem

instance (g : Graph) : Decidable g.Wired := decidable_of_iff _ Graph.wired_iff.symm

namespace Schedule
open Expr Operation

variable {s s' : Schedule} {g g' : Graph} {st : Stage} {n n' id : Nat}

/-! ### Positions -/

/-- The stage of the number `a` comes before that of the number `b`. -/
def Before (s : Schedule) (a b : Nat) : Prop :=
  [a, b].Sublist (s.stages.map (·.id))

/-- In a list without repetitions, what comes before an item is in front of it. -/
theorem mem_of_pair_sublist {α : Type} {a b : α} {l xs ys : List α} (hl : l = xs ++ b :: ys) (hnodup : l.Nodup)
    (h : [a, b].Sublist l) : a ∈ xs := by
  subst hl
  have hb : b ∉ xs ∧ b ∉ ys := by
    have hmid := List.nodup_middle.mp hnodup
    simpa using (List.nodup_cons.mp hmid).1
  rcases List.sublist_append_iff.mp h with ⟨l₁, l₂, heq, h₁, h₂⟩
  rcases l₁ with _ | ⟨x, l₁⟩
  · rw [List.nil_append] at heq
    subst heq
    cases h₂ with
    | cons _ h₂ => exact absurd (h₂.subset (by simp)) hb.2
    | cons_cons _ h₂ => exact absurd (h₂.subset (by simp)) hb.2
  · rw [List.cons_append] at heq
    rcases List.cons.inj heq with ⟨rfl, -⟩
    exact h₁.subset List.mem_cons_self

theorem Before.trans {a b c : Nat} (hnodup : (s.stages.map (·.id)).Nodup) (hab : s.Before a b) (hbc : s.Before b c) :
    s.Before a c := by
  have hc : c ∈ s.stages.map (·.id) := hbc.subset (by simp)
  rcases List.append_of_mem hc with ⟨xs, ys, hl⟩
  have hb := mem_of_pair_sublist hl hnodup hbc
  rcases List.append_of_mem hb with ⟨xs', ys', rfl⟩
  have ha := mem_of_pair_sublist (by simpa using hl) hnodup hab
  have hsub : [a].Sublist (xs' ++ b :: ys') := List.singleton_sublist.mpr (List.mem_append_left _ ha)
  have hpair : [a, c].Sublist ((xs' ++ b :: ys') ++ c :: ys) :=
    hsub.append (List.singleton_sublist.mpr List.mem_cons_self)
  rw [← hl] at hpair
  exact hpair

theorem insertBefore_eq (new : Stage) {l : List Stage} (h : ∃ t ∈ l, t.id = id) :
    ∃ xs t ys, t.id = id ∧ l = xs ++ t :: ys ∧ insertBefore new id l = xs ++ new :: t :: ys := by
  induction l with
  | nil => simp at h
  | cons t l ih =>
    by_cases ht : t.id = id
    · exact ⟨[], t, l, ht, rfl, by simp [insertBefore, ht]⟩
    · have hrest : ∃ t ∈ l, t.id = id := by simpa [ht] using h
      rcases ih hrest with ⟨xs, t', ys, hid, hl, hins⟩
      exact ⟨t :: xs, t', ys, hid, by simp [hl], by simp [insertBefore, ht, hins]⟩

/-- Where no stage has the number, the new stage is the last one. -/
theorem insertBefore_of_not_mem {new : Stage} {l : List Stage} (h : ∀ t ∈ l, t.id ≠ id) :
    insertBefore new id l = l ++ [new] := by
  induction l with
  | nil => rfl
  | cons t l ih =>
    rcases List.forall_mem_cons.mp h with ⟨ht, hl⟩
    simp [insertBefore, ht, ih hl]

theorem sublist_insertBefore (new : Stage) (id : Nat) (l : List Stage) : l.Sublist (insertBefore new id l) := by
  by_cases h : ∃ t ∈ l, t.id = id
  · rcases insertBefore_eq new h with ⟨xs, t, ys, -, hl, hins⟩
    rw [hins, hl]
    exact List.Sublist.append_left (List.sublist_cons_self _ _) xs
  · have hnot : ∀ t ∈ l, t.id ≠ id := by simpa using h
    rw [insertBefore_of_not_mem hnot]
    exact List.sublist_append_left _ _

theorem Before.insertStage {a b : Nat} (h : s.Before a b) (new : Stage) (id : Nat) :
    (s.insertStage new id).Before a b := by
  have hids : (s.stages.map (·.id)).Sublist ((s.insertStage new id).stages.map (·.id)) :=
    (sublist_insertBefore new id s.stages).map (·.id)
  exact List.Sublist.trans h hids

/-- A stage that is inserted comes between the stage of the number and what is before it. -/
theorem before_insertStage (hnodup : (s.stages.map (·.id)).Nodup) (new : Stage) (hid : ∃ t ∈ s.stages, t.id = id) :
    (s.insertStage new id).Before new.id id ∧ ∀ {a}, s.Before a id → (s.insertStage new id).Before a new.id := by
  rcases insertBefore_eq new hid with ⟨xs, t, ys, rfl, hl, hins⟩
  have hids : (s.insertStage new t.id).stages.map (·.id) = xs.map (·.id) ++ new.id :: t.id :: ys.map (·.id) := by
    simp [Schedule.insertStage, hins]
  constructor
  · unfold Before
    rw [hids]
    exact List.sublist_append_of_sublist_right (by simp)
  · intro a ha
    have ha : a ∈ xs.map (·.id) := mem_of_pair_sublist (by rw [hl, List.map_append, List.map_cons]) hnodup ha
    unfold Before
    rw [hids]
    exact (List.singleton_sublist.mpr ha).append (List.singleton_sublist.mpr List.mem_cons_self)

/-! ### What transforms keep -/

/-- A read in the operation of a stage names an output, and leads to a stage with that output before the
    stage. -/
def Provides (s : Schedule) (id : Nat) (f : OpRef) (k : Int) : Prop :=
  0 ≤ k ∧ k < f.numOutputs ∧ ∃ p, s.find? f.idx = some p ∧ k < p.op.numOutputs ∧ s.Before p.id id

/-- Stages have numbers of their own, places are noted for operations below the number `n`, the operation
    of a stage leads to the stage, and every read of it leads to a stage before. -/
structure Arranged (n : Nat) (s : Schedule) : Prop where
  distinct : (s.stages.map (·.id)).Nodup
  stageIds : ∀ st ∈ s.stages, st.id < s.nextStage
  placeIds : ∀ p ∈ s.places, p.1 < n ∧ p.2 < s.nextStage
  current : ∀ st ∈ s.stages, s.find? st.op.idx = some st
  reads : ∀ st ∈ s.stages, ∀ {f k}, st.op.Reads f k → s.Provides st.id f k

theorem find?_setPlace_self {i : Nat} : (s.setPlace i id).find? i = s.stage? id := by
  simp [find?, setPlace, stage?]

theorem find?_setPlace_of_ne {i j : Nat} (h : i ≠ j) : (s.setPlace i id).find? j = s.find? j := by
  simp [find?, setPlace, h, stage?]

theorem stage?_insertStage_self {new : Stage} (hnew : ∀ t ∈ s.stages, t.id ≠ new.id) :
    (s.insertStage new id).stage? new.id = some new := by
  have hfound : ∃ t, (s.insertStage new id).stage? new.id = some t := exists_stage?.mpr ⟨new, mem_insertBefore_self, rfl⟩
  rcases hfound with ⟨t, ht⟩
  rcases mem_of_stage? ht with ⟨hmem, hid⟩
  rcases mem_insertBefore hmem with rfl | hmem
  · exact ht
  · exact absurd hid (hnew t hmem)

theorem Arranged.lt_of_find? (h : s.Arranged n) {i : Nat} {p : Stage} (hp : s.find? i = some p) : i < n := by
  rcases find?_eq_some.mp hp with ⟨q, hq, -⟩
  have hidx : q.1 = i := by simpa using List.find?_some hq
  rw [← hidx]
  exact (h.placeIds q (List.mem_of_find?_eq_some hq)).1

theorem Provides.mapStages {u : Stage → Stage} (hid : ∀ t, (u t).id = t.id)
    (hout : ∀ t ∈ s.stages, (u t).op.numOutputs = t.op.numOutputs) {f : OpRef} {k : Int} (h : s.Provides id f k) :
    ({ s with stages := s.stages.map u } : Schedule).Provides id f k := by
  rcases h with ⟨h0, hlt, p, hp, hk, hbefore⟩
  refine ⟨h0, hlt, u p, ?_, ?_, ?_⟩
  · rw [find?_mapStages hid, hp]
    rfl
  · rw [hout p (mem_of_find? hp)]
    exact hk
  · have hids : (s.stages.map u).map (·.id) = s.stages.map (·.id) := by simp [hid]
    unfold Before at hbefore ⊢
    rw [hids, hid]
    exact hbefore

theorem Arranged.mapStages (h : s.Arranged n) {u : Stage → Stage} (hid : ∀ t, (u t).id = t.id)
    (hout : ∀ t ∈ s.stages, (u t).op.numOutputs = t.op.numOutputs)
    (hcurrent : ∀ t ∈ s.stages, s.find? (u t).op.idx = some t)
    (hreads : ∀ t ∈ s.stages, ∀ {f k}, (u t).op.Reads f k → s.Provides t.id f k) :
    ({ s with stages := s.stages.map u } : Schedule).Arranged n := by
  refine ⟨?_, ?_, h.placeIds, ?_, ?_⟩
  · have hids : (s.stages.map u).map (·.id) = s.stages.map (·.id) := by simp [hid]
    rw [hids]
    exact h.distinct
  · intro t ht
    rcases List.mem_map.mp ht with ⟨t', ht', rfl⟩
    rw [hid]
    exact h.stageIds t' ht'
  · intro t ht
    rcases List.mem_map.mp ht with ⟨t', ht', rfl⟩
    rw [find?_mapStages hid, hcurrent t' ht']
    rfl
  · intro t ht f k hr
    rcases List.mem_map.mp ht with ⟨t', ht', rfl⟩
    rw [hid]
    exact (hreads t' ht' hr).mapStages hid hout

/-- A stage can be replaced by one of the same number with as many outputs, to which its operation leads
    already, if what that reads leads to stages before. -/
theorem Arranged.setStage (h : s.Arranged n) {t : Stage} (ht : t ∈ s.stages) (hid : st.id = t.id)
    (hout : st.op.numOutputs = t.op.numOutputs) (hcurrent : s.find? st.op.idx = some t)
    (hreads : ∀ {f k}, st.op.Reads f k → s.Provides t.id f k) : (s.setStage st).Arranged n := by
  have hsame : ∀ {t' : Stage}, t' ∈ s.stages → t'.id = st.id → t' = t := fun ht' heq =>
    List.inj_on_of_nodup_map h.distinct ht' ht (heq.trans hid)
  refine h.mapStages (fun t' => ?_) (fun t' ht' => ?_) (fun t' ht' => ?_) (fun t' ht' {f k} hr => ?_)
  · by_cases heq : t'.id = st.id <;> simp [heq]
  · by_cases heq : t'.id = st.id
    · rcases hsame ht' heq with rfl
      simp [heq, hout]
    · simp [heq]
  · by_cases heq : t'.id = st.id
    · rcases hsame ht' heq with rfl
      simpa [heq] using hcurrent
    · simpa [heq] using h.current t' ht'
  · by_cases heq : t'.id = st.id
    · rcases hsame ht' heq with rfl
      exact hreads (by simpa [heq] using hr)
    · exact h.reads t' ht' (by simpa [heq] using hr)

/-- A stage that keeps its operation can change in all else. -/
theorem Arranged.sameOp (h : s.Arranged n) {t : Stage} (ht : t ∈ s.stages) (hid : st.id = t.id) (hop : st.op = t.op) :
    (s.setStage st).Arranged n := by
  have hcurrent : s.find? st.op.idx = some t := by
    rw [hop]
    exact h.current t ht
  refine h.setStage ht hid (by rw [hop]) hcurrent fun hr => ?_
  rw [hop] at hr
  exact h.reads t ht hr

theorem Provides.setPlace (h : s.Arranged n) {i j : Nat} (hi : n ≤ i) {f : OpRef} {k : Int} (hf : s.Provides id f k) :
    (s.setPlace i j).Provides id f k := by
  rcases hf with ⟨h0, hlt, p, hp, hrest⟩
  have hne : i ≠ f.idx := by
    have := h.lt_of_find? hp
    omega
  exact ⟨h0, hlt, p, by rw [find?_setPlace_of_ne hne]; exact hp, hrest⟩

/-- The place of a new operation can be noted. -/
theorem Arranged.setPlace (h : s.Arranged n) {i j : Nat} (hi : n ≤ i) (hj : j < s.nextStage) :
    (s.setPlace i j).Arranged (i + 1) := by
  refine ⟨h.distinct, h.stageIds, ?_, ?_, ?_⟩
  · intro p hp
    rcases List.mem_cons.mp hp with rfl | hp
    · exact ⟨Nat.lt_succ_self i, hj⟩
    · have := h.placeIds p hp
      exact ⟨by omega, this.2⟩
  · intro t ht
    have hcurrent := h.current t ht
    have hlt := h.lt_of_find? hcurrent
    rw [find?_setPlace_of_ne (by omega)]
    exact hcurrent
  · intro t ht f k hr
    exact (h.reads t ht hr).setPlace h hi

/-- A stage of a new number for a new operation can be inserted, if what it reads leads to stages that are
    then before it. -/
theorem Arranged.insertStage (h : s.Arranged n) {new : Stage} (hnew : new.id = s.nextStage) (hn : n ≤ n')
    (hop : new.op.idx < n') (hnone : s.find? new.op.idx = none)
    (hreads : ∀ {f k}, new.op.Reads f k → 0 ≤ k ∧ k < f.numOutputs ∧
      ∃ p, s.find? f.idx = some p ∧ k < p.op.numOutputs ∧ (s.insertStage new id).Before p.id new.id) :
    ((s.insertStage new id).setPlace new.op.idx new.id).Arranged n' := by
  have hids : ∀ t ∈ s.stages, t.id ≠ new.id := by
    intro t ht
    rw [hnew]
    exact Nat.ne_of_lt (h.stageIds t ht)
  have hfind : ∀ {i p}, s.find? i = some p →
      ((s.insertStage new id).setPlace new.op.idx new.id).find? i = some p := by
    intro i p hp
    have hne : new.op.idx ≠ i := by
      rintro rfl
      rw [hnone] at hp
      cases hp
    rcases find?_eq_some.mp hp with ⟨q, hq, hstage⟩
    have hqlt := (h.placeIds q (List.mem_of_find?_eq_some hq)).2
    rw [find?_setPlace_of_ne hne]
    refine find?_eq_some.mpr ⟨q, hq, ?_⟩
    rw [stage?_insertStage (by omega)]
    exact hstage
  refine ⟨nodup_insertBefore hids h.distinct, ?_, ?_, ?_, ?_⟩
  · intro t ht
    show t.id < s.nextStage + 1
    rcases mem_insertBefore ht with rfl | ht
    · omega
    · have := h.stageIds t ht
      omega
  · intro p hp
    show p.1 < n' ∧ p.2 < s.nextStage + 1
    rcases List.mem_cons.mp hp with rfl | hp
    · exact ⟨hop, by omega⟩
    · have := h.placeIds p hp
      omega
  · intro t ht
    rcases mem_insertBefore ht with rfl | ht
    · rw [find?_setPlace_self]
      exact stage?_insertStage_self hids
    · exact hfind (h.current t ht)
  · intro t ht f k hr
    rcases mem_insertBefore ht with rfl | ht
    · rcases hreads hr with ⟨h0, hlt, p, hp, hk, hbefore⟩
      exact ⟨h0, hlt, p, hfind hp, hk, hbefore⟩
    · rcases h.reads t ht hr with ⟨h0, hlt, p, hp, hk, hbefore⟩
      exact ⟨h0, hlt, p, hfind hp, hk, hbefore.insertStage new id⟩

/-! ### Steps -/

theorem reads_cacheOp {scope : Setting} {o : Operation} (hcomp : o.isCompute) (hout : o.numOutputs = 1) {f : OpRef}
    {k : Int} (h : (cacheOp g scope o).Reads f k) : o.Reads f k := by
  rcases body_of_one_output hcomp hout with ⟨e, hbody⟩
  have hhead : o.body.headD default = e := by simp [hbody]
  rcases h with ⟨e', he', u, m, hmem⟩
  rw [List.mem_singleton.mp he'] at hmem
  rcases mem_heads_copiedBody hhead hmem with hmem | hplain | ⟨c, reduced, -, -, hred⟩
  · exact ⟨e, by simp [hbody], u, m, hmem⟩
  · cases hplain
  · cases hred

theorem reads_copyOp {cache o : Operation} {f : OpRef} {k : Int} (h : (copyOp g cache o).Reads f k) :
    f = cache.ref ∧ k = 0 := by
  rcases h with ⟨e, he, u, m, hmem⟩
  rw [List.mem_singleton.mp he] at hmem
  rcases mem_heads.mp hmem with ⟨a, ha, hmem⟩ | hmem
  · -- The indices are variables.
    rcases List.mem_map.mp ha with ⟨iv, -, rfl⟩
    cases List.mem_singleton.mp hmem
  · cases hmem
    exact ⟨rfl, rfl⟩

theorem Arranged.cacheWrite (h : s.Arranged g.ops.size) {target : OpRef} {scope : Setting} {t : Tensor}
    (hrun : (cacheWrite target scope).Yields s g t s' g') : s'.Arranged g'.ops.size := by
  rcases cacheWrite_inv hrun with ⟨st, hst, hcomp, hout, -, -, rfl, rfl⟩
  let new := cacheStage s.nextStage (cacheOp g scope st.op) scope
  have hmem := mem_of_find? hst
  have hid := h.stageIds st hmem
  have hsize : (cachedGraph g scope st.op).ops.size = g.ops.size + 1 + 1 := by simp [cachedGraph]
  have hnone : s.find? g.ops.size = none := by
    cases hfind : s.find? g.ops.size with
    | none => rfl
    | some p => exact absurd (h.lt_of_find? hfind) (Nat.lt_irrefl _)
  have hcached : ((s.insertStage new st.id).setPlace g.ops.size s.nextStage).Arranged (g.ops.size + 1) := by
    have hnew : new.id = s.nextStage := rfl
    refine h.insertStage hnew (Nat.le_succ _) (Nat.lt_succ_self _) hnone fun hr => ?_
    rcases h.reads st hmem (reads_cacheOp hcomp hout hr) with ⟨h0, hlt, p, hp, hk, hbefore⟩
    exact ⟨h0, hlt, p, hp, hk, (before_insertStage h.distinct new ⟨st, hmem, rfl⟩).2 hbefore⟩
  have hplace := hcached.setPlace (i := g.ops.size + 1) (j := st.id) (Nat.le_refl _) (Nat.lt_succ_of_lt hid)
  rw [hsize]
  refine hplace.setStage (mem_insertBefore_of_mem hmem) rfl hout.symm ?_ fun {f k} hr => ?_
  · refine find?_setPlace_self.trans ?_
    have hst' := h.current st hmem
    rcases find?_eq_some.mp hst' with ⟨q, -, hq⟩
    rw [← (mem_of_stage? hq).2] at hq
    exact (stage?_insertStage (Nat.ne_of_gt hid)).trans hq
  · -- The copy reads the cache, whose stage is right before that of the copy.
    rcases reads_copyOp hr with ⟨rfl, rfl⟩
    have hnew : new ∈ (s.insertStage new st.id).stages := mem_insertBefore_self
    have hprovides :
        ((s.insertStage new st.id).setPlace g.ops.size s.nextStage).Provides st.id (cacheOp g scope st.op).ref 0 :=
      ⟨Int.le_refl 0, Int.zero_lt_one, new, hcached.current new hnew, Int.zero_lt_one,
        (before_insertStage h.distinct new ⟨st, hmem, rfl⟩).1⟩
    exact hprovides.setPlace hcached (Nat.le_refl _)

/-- A redirected read leads to the stage that was found for the read, or the read is one of a body put in
    and leads to a stage before that. -/
theorem Arranged.redirectStage (h : s.Arranged g.ops.size) {id : Nat} {u : Unit}
    (hrun : (redirectStage id).Yields s g u s' g') : s'.Arranged g'.ops.size := by
  rcases redirectStage_inv hrun with ⟨rfl, rfl⟩ | ⟨st, hst, hcomp, rfl, rfl⟩
  · exact h
  rcases mem_of_stage? hst with ⟨hmem, rfl⟩
  have hout : (redirectedOp g s st.op).numOutputs = st.op.numOutputs := by
    rw [numOutputs_of_isCompute hcomp]
    exact List.length_map ..
  have hreads : ∀ {f k}, (redirectedOp g s st.op).Reads f k → s.Provides st.id f k := by
    rintro f k ⟨e', he', u, m, hhead⟩
    rcases List.mem_map.mp he' with ⟨e, he, rfl⟩
    rcases headFrom_of_mem hhead with hhead | ⟨u', f', k', m', p, hhead', hp, hcase⟩
    · exact h.reads st hmem ⟨e, he, u, m, hhead⟩
    · have hled : s.Provides st.id f' k' := h.reads st hmem ⟨e, he, u', m', hhead'⟩
      rcases hled with ⟨h0, -, p', hp', hk, hbefore⟩
      rcases Option.some.inj (hp.symm.trans hp') with rfl
      rcases hcase with ⟨-, b, hb, hhead⟩ | heq
      · rcases h.reads p (mem_of_find? hp) ⟨b, hb, u, m, hhead⟩ with ⟨h0, hlt, q, hq, hk, hbefore'⟩
        exact ⟨h0, hlt, q, hq, hk, hbefore'.trans h.distinct hbefore⟩
      · cases heq
        exact ⟨h0, hk, p, h.current p (mem_of_find? hp), hk, hbefore⟩
  have hplace := h.setPlace (i := g.ops.size) (j := st.id) (Nat.le_refl _) (h.stageIds st hmem)
  have hsize : (g.ops.push (some (redirectedOp g s st.op))).size = g.ops.size + 1 := Array.size_push ..
  rw [hsize]
  exact hplace.setStage hmem rfl hout (find?_setPlace_self.trans hst) fun hr => (hreads hr).setPlace h (Nat.le_refl _)

theorem Arranged.rebaseStage (h : s.Arranged g.ops.size) {id : Nat} {u : Unit}
    (hrun : (rebaseStage id).Yields s g u s' g') : s'.Arranged g'.ops.size := by
  refine rebaseStage_keeps (I := fun s g => s.Arranged g.ops.size) (fun {s g st pos leaf rebased} h hst _ _ _ => ?_) h hrun
  have hset : (s.setStage (rebasedStage st pos leaf rebased)).Arranged g.ops.size :=
    h.sameOp (mem_of_stage? hst).1 rfl rfl
  exact hset.mapStages (fun _ => rfl) (fun _ _ => rfl) (fun t ht => hset.current t ht) fun t ht _ _ hr => hset.reads t ht hr

theorem Arranged.normalize (h : s.Arranged g.ops.size) {u : Unit} (hrun : normalize.Yields s g u s' g') :
    s'.Arranged g'.ops.size := by
  rcases normalize_inv hrun with ⟨-, rfl, rfl⟩ | ⟨s₁, g₁, s₂, -, h₁, h₂, rfl⟩
  · exact h
  have hredirected : s₁.Arranged g₁.ops.size := Edit.forM_keeps (I := fun s g => s.Arranged g.ops.size)
    (fun _ _ _ _ _ _ _ hs hstep => Arranged.redirectStage hs hstep) h h₁
  have hrebased : s₂.Arranged g'.ops.size := Edit.forM_keeps (I := fun s g => s.Arranged g.ops.size)
    (fun _ _ _ _ _ _ _ hs hstep => Arranged.rebaseStage hs hstep) hredirected h₂
  exact ⟨hrebased.distinct, hrebased.stageIds, hrebased.placeIds, hrebased.current, hrebased.reads⟩

theorem Arranged.transform (h : s.Arranged g.ops.size) {t : Transform} {u : Unit} (hrun : t.run.Yields s g u s' g') :
    s'.Arranged g'.ops.size := by
  cases t with
  | onStage id t =>
    rcases onStage_inv hrun with ⟨st, st', hst, hstep, rfl⟩
    have hfixed := (Stage.Transform.steps hstep).fixed
    rw [Stage.Transform.ops hstep]
    exact h.sameOp (mem_of_stage? hst).1 hfixed.1 hfixed.2.2.2
  | computeAt id parent axis =>
    rcases computeAt_inv hrun with ⟨st, _, _, _, -, hst, -, -, -, -, rfl, rfl⟩
    exact h.sameOp (mem_of_stage? hst).1 rfl rfl
  | cacheWrite target scope =>
    rcases Edit.yields_discard.mp hrun with ⟨x, hrun⟩
    exact h.cacheWrite hrun
  | normalize => exact h.normalize hrun

theorem Arranged.run {ts : List Transform} {u : Unit} (h : s.Arranged g.ops.size)
    (hrun : (ts.forM Transform.run).Yields s g u s' g') : s'.Arranged g'.ops.size :=
  Edit.forM_keeps (I := fun s g => s.Arranged g.ops.size) (fun _ _ _ _ _ _ _ hs hstep => Arranged.transform hs hstep) h hrun

/-- The stage that is found for a tensor that a stage reads comes before the stage. -/
def Ordered (s : Schedule) : Prop :=
  ∀ (j : Nat) (st : Stage), s.stages[j]? = some st → ∃ ts, st.op.inputs = .ok ts ∧
    ∀ t ∈ ts, ∃ i < j, ∃ p, s.stages[i]? = some p ∧ s.find? t.op.idx = some p

theorem Arranged.ordered (h : s.Arranged n) : s.Ordered := by
  intro j st hj
  have hmem := List.mem_of_getElem? hj
  have hnamed : ∀ {f k}, st.op.Reads f k → 0 ≤ k ∧ k < f.numOutputs := fun hr =>
    ⟨(h.reads st hmem hr).1, (h.reads st hmem hr).2.1⟩
  rcases inputs_of_reads hnamed with ⟨ts, hts, hsound, -⟩
  refine ⟨ts, hts, fun t ht => ?_⟩
  rcases h.reads st hmem (hsound t ht) with ⟨-, -, p, hp, -, hbefore⟩
  have hids : s.stages.map (·.id) = (s.stages.take j).map (·.id) ++ st.id :: (s.stages.drop (j + 1)).map (·.id) := by
    rw [← List.map_cons, ← List.map_append, ← eq_around hj]
  have hfront := mem_of_pair_sublist hids h.distinct hbefore
  rcases List.mem_map.mp hfront with ⟨q, hq, hid⟩
  have hqp : q = p := List.inj_on_of_nodup_map h.distinct (List.mem_of_mem_take hq) (mem_of_find? hp) hid
  rcases List.mem_take_iff_getElem.mp hq with ⟨i, hi, hget⟩
  refine ⟨i, by omega, p, ?_, hp⟩
  rw [← hqp, ← hget]
  exact List.getElem?_eq_getElem _

end Schedule

end TensorNest

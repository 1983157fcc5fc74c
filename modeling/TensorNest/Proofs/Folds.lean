import TensorNest.Proofs.Combiners
import TensorNest.Proofs.Writes

/-! # Events of a reduction

While a reduction runs, elements of the output start at the identity and make steps (`Event`). An element that starts
once, before its steps, takes the values of a fold one after the other (`valuesAt_started`). In a nest the update makes
a step where the nest is along all axes (`Fold.Proper.writes_update`), and the start begins where it is along the data
axes (`Fold.Proper.writes_start`). -/

namespace TensorNest

/-! ### Events of a reduction -/

/-- What happens to an element while a reduction runs: it gets the identity, or a step is made with the values at a point
    of the axes that are reduced over. -/
abbrev Event := List Int × Option (List Int)

section Events
variable {V : Type} [DecidableEq V] {R : FaithfulReading V} {idx : Nat} {start : List Int → V}
  {next : List Int → List Int → V → V} {T : Contents V} {x : List Int} {events : List Event}

/-- What an event writes to an element of the output of an operation. -/
def Event.act (R : FaithfulReading V) (idx : Nat) (start : List Int → V) (next : List Int → List Int → V → V) :
    Event → Contents V → Write V
  | (x, none), _ => ⟨idx, 0, x.map R.index, start x⟩
  | (x, some k), T => ⟨idx, 0, x.map R.index, next x k (T idx 0 (x.map R.index))⟩

omit [DecidableEq V] in
theorem Event.op_act (e : Event) (T : Contents V) : (e.act R idx start next T).op = idx := by
  obtain ⟨x, _ | k⟩ := e <;> rfl

omit [DecidableEq V] in
theorem Event.index_act (e : Event) (T : Contents V) : (e.act R idx start next T).index = e.1.map R.index := by
  obtain ⟨x, _ | k⟩ := e <;> rfl

omit [DecidableEq V] in
theorem Event.output_act (e : Event) (T : Contents V) : (e.act R idx start next T).output = 0 := by
  obtain ⟨x, _ | k⟩ := e <;> rfl

variable (R idx start next) in
/-- What the output holds at an element after an event. -/
theorem Event.write_act (e : Event) (T : Contents V) (x : List Int) :
    T.write (e.act R idx start next T) idx 0 (x.map R.index) =
      if e.1 = x then (e.act R idx start next T).value else T idx 0 (x.map R.index) := by
  have hindex : x.map R.index = e.1.map R.index ↔ e.1 = x :=
    (FaithfulReading.index_injective.list_map.eq_iff).trans eq_comm
  rw [Contents.write, Event.op_act, Event.index_act, Event.output_act]
  exact if_congr (by simp [hindex]) rfl rfl

/-- The values that are written to an element. -/
def valuesAt (R : FaithfulReading V) (x : List Int) (ws : List (Write V)) : List V :=
  (ws.filter fun w => w.index = x.map R.index).map (·.value)

theorem valuesAt_played_cons (e : Event) :
    valuesAt R x (played (Event.act R idx start next) (e :: events) T) =
      (if e.1 = x then [(e.act R idx start next T).value] else []) ++
        valuesAt R x (played (Event.act R idx start next) events (T.write (e.act R idx start next T))) := by
  have hindex : (e.act R idx start next T).index = x.map R.index ↔ e.1 = x := by
    rw [Event.index_act]
    exact FaithfulReading.index_injective.list_map.eq_iff
  rw [played_cons, valuesAt, List.filter_cons]
  by_cases he : e.1 = x
  · rw [if_pos (by simpa using hindex.mpr he), if_pos he]
    rfl
  · rw [if_neg (by simpa using fun h => he (hindex.mp h)), if_neg he]
    rfl

variable (R idx start next) in
/-- Steps at an element take what it holds one after the other. -/
theorem valuesAt_steps {ks : List (List Int)} (h : events.filter (·.1 = x) = ks.map fun k => (x, some k)) :
    T idx 0 (x.map R.index) :: valuesAt R x (played (Event.act R idx start next) events T) =
        ks.scanl (fun acc k => next x k acc) (T idx 0 (x.map R.index)) ∧
      T.writeAll (played (Event.act R idx start next) events T) idx 0 (x.map R.index) =
        ks.foldl (fun acc k => next x k acc) (T idx 0 (x.map R.index)) := by
  induction events generalizing ks T with
  | nil =>
    obtain rfl : ks = [] := List.map_eq_nil_iff.mp h.symm
    exact ⟨rfl, rfl⟩
  | cons e events ih =>
    rw [valuesAt_played_cons, played_cons]
    by_cases he : e.1 = x
    · rw [List.filter_cons_of_pos (by simpa using he)] at h
      obtain _ | ⟨k, ks⟩ := ks
      · cases h
      obtain ⟨rfl, hrest⟩ := List.cons.inj h
      have hheld := Event.write_act R idx start next (x, some k) T x
      rw [if_pos rfl] at hheld
      obtain ⟨hvalues, hfinal⟩ := ih (T := T.write (Event.act R idx start next (x, some k) T)) hrest
      rw [hheld] at hvalues hfinal
      rw [if_pos rfl, List.singleton_append, hvalues, List.scanl_cons, List.foldl_cons]
      exact ⟨rfl, hfinal⟩
    · rw [List.filter_cons_of_neg (by simpa using he)] at h
      have hheld := Event.write_act R idx start next e T x
      rw [if_neg he] at hheld
      have hrest := ih (T := T.write (e.act R idx start next T)) h
      rw [hheld] at hrest
      rw [if_neg he]
      exact hrest

/-- An element that starts and then makes steps takes the values of a fold. -/
theorem valuesAt_started {ks : List (List Int)}
    (h : events.filter (·.1 = x) = (x, none) :: ks.map fun k => (x, some k)) :
    valuesAt R x (played (Event.act R idx start next) events T) = ks.scanl (fun acc k => next x k acc) (start x) ∧
      T.writeAll (played (Event.act R idx start next) events T) idx 0 (x.map R.index) =
        ks.foldl (fun acc k => next x k acc) (start x) := by
  induction events generalizing T with
  | nil => cases h
  | cons e events ih =>
    have hheld := Event.write_act R idx start next e T x
    rw [valuesAt_played_cons, played_cons]
    by_cases he : e.1 = x
    · rw [List.filter_cons_of_pos (by simpa using he)] at h
      obtain ⟨rfl, hrest⟩ := List.cons.inj h
      rw [if_pos rfl] at hheld
      have hsteps := valuesAt_steps R idx start next (T := T.write (Event.act R idx start next (x, none) T)) hrest
      rw [hheld] at hsteps
      rw [if_pos rfl]
      exact hsteps
    · rw [List.filter_cons_of_neg (by simpa using he)] at h
      rw [if_neg he]
      exact ih h

/-- The events of an element: it starts where the nest is there along the data axes, which is once, and makes steps only
    there. -/
theorem filter_events {α : Type} {ps : List α} {starts : α → List (List Int)} {steps : α → List (List Int × List Int)}
    (hnodup : (ps.flatMap starts).Nodup) (hmem : x ∈ ps.flatMap starts) (hsteps : ∀ p ∈ ps, ∀ s ∈ steps p, s.1 ∈ starts p) :
    (ps.flatMap fun p => (starts p).map (fun x => ((x, none) : Event)) ++ (steps p).map fun s =>
      (s.1, some s.2)).filter (·.1 = x) =
      (x, none) :: ((ps.flatMap steps).filter (·.1 = x)).map fun s => (x, some s.2) := by
  have hnone : ∀ p ∈ ps, x ∉ starts p → (steps p).filter (·.1 = x) = [] := fun p hp hx =>
    List.filter_eq_nil_iff.mpr fun s hs heq => hx (of_decide_eq_true heq ▸ hsteps p hp s hs)
  have hstart : ∀ xs : List (List Int), (xs.map fun x => ((x, none) : Event)).filter (·.1 = x) =
      (xs.filter (· = x)).map fun x => (x, none) := fun xs => List.filter_map ..
  have hunstarted : ∀ xs : List (List Int), x ∉ xs → xs.filter (· = x) = [] := fun xs hx =>
    List.filter_eq_nil_iff.mpr fun y hy heq => hx (of_decide_eq_true heq ▸ hy)
  have hstep : ∀ ss : List (List Int × List Int), (ss.map fun s => ((s.1, some s.2) : Event)).filter (·.1 = x) =
      (ss.filter (·.1 = x)).map fun s => (x, some s.2) := by
    intro ss
    rw [List.filter_map]
    refine List.map_congr_left fun s hs => ?_
    have hs : s.1 = x := of_decide_eq_true (List.mem_filter.mp hs).2
    rw [hs]
  induction ps with
  | nil => cases hmem
  | cons p ps ih =>
    rw [List.flatMap_cons, List.nodup_append] at hnodup
    rw [List.flatMap_cons, List.mem_append] at hmem
    rw [List.forall_mem_cons] at hsteps hnone
    rw [List.flatMap_cons, List.flatMap_cons, List.filter_append, List.filter_append, List.filter_append, hstart, hstep,
      List.map_append]
    by_cases hx : x ∈ starts p
    · have hrest : ∀ q ∈ ps, x ∉ starts q := fun q hq hxq =>
        hnodup.2.2 x hx x (List.mem_flatMap.mpr ⟨q, hq, hxq⟩) rfl
      have hevents : (ps.flatMap fun p => (starts p).map (fun x => ((x, none) : Event)) ++
          (steps p).map fun s => (s.1, some s.2)).filter (·.1 = x) = [] := by
        rw [List.filter_flatMap, List.flatMap_eq_nil_iff]
        intro q hq
        rw [List.filter_append, hstart, hstep, hunstarted _ (hrest q hq), hnone.2 q hq (hrest q hq)]
        rfl
      have hnosteps : (ps.flatMap steps).filter (·.1 = x) = [] := by
        rw [List.filter_flatMap, List.flatMap_eq_nil_iff]
        exact fun q hq => hnone.2 q hq (hrest q hq)
      have hone : (starts p).filter (· = x) = [x] := by
        rw [List.filter_eq, List.count_eq_one_of_mem hnodup.1 hx, List.replicate_one]
      rw [hevents, hnosteps, hone]
      simp
    · rw [hunstarted _ hx, hnone.1 hx, ih hnodup.2.1 (hmem.resolve_left hx) hsteps.2 hnone.2]
      rfl

end Events

/-! ### What the parts of a nest write -/

namespace Fold

variable {V : Type} [Inhabited V] [DecidableEq V]

/-- What an event of a reduction writes, if other tensors hold what they hold before the nest. -/
def act (f : Fold) (R : FaithfulReading V) (T : Contents V) (π : Valuation V) (o : Operation) :
    Event → Contents V → Write V :=
  Event.act R o.idx (fun _ => f.identity.value R.toReading T π) fun x k a => f.next R.toReading T (o.place R π (x ++ k)) a

/-- Events leave other tensors as they are. -/
theorem act_keeps {f : Fold} {R : FaithfulReading V} {T T' : Contents V} {π : Valuation V} {o : Operation} (e : Event)
    (hT : ∀ i ≠ o.idx, T' i = T i) : ∀ i ≠ o.idx, T'.write (f.act R T π o e T') i = T i := by
  intro i hi
  rw [Contents.write_of_ne (by rwa [act, Event.op_act])]
  exact hT i hi

/-- The points of the axes of an operation that are taken, in two parts. -/
def steps (f : Fold) (R : FaithfulReading V) (T : Contents V) (π : Valuation V) (o : Operation) (ps : List (List Int)) :
    List (List Int × List Int) :=
  (ps.filter fun p => f.taken R.toReading T (o.place R π p)).map fun p => (p.take o.axes.length, p.drop o.axes.length)

omit [DecidableEq V] in
theorem steps_flatMap {α : Type} (f : Fold) (R : FaithfulReading V) (T : Contents V) (π : Valuation V) (o : Operation)
    (l : List α)
    (ps : α → List (List Int)) : f.steps R T π o (l.flatMap ps) = l.flatMap fun a => f.steps R T π o (ps a) := by
  simp only [steps, List.filter_flatMap, List.map_flatMap]

/-- What is written computes a reduction, the axes running through given numbers: it is in the domain; at each point
    there it goes from the identity by a step for each point of the axes of the reduction that is taken, once, in some
    order; and in the end the element is the fold of the steps at these points in their order, from the identity. -/
structure Computed (f : Fold) (R : FaithfulReading V) (T : Contents V) (π : Valuation V) (o : Operation)
    (d : IterVar → List Int)
    (ws : List (Write V)) : Prop where
  within : ∀ w ∈ ws, ∃ x ∈ points (o.axes.map d), w.op = o.idx ∧ w.output = 0 ∧ w.index = x.map R.index
  stepwise : ∀ x ∈ points (o.axes.map d), ∃ ks : List (List Int), ks.Perm ((points (o.reduceAxes.map d)).filter fun k =>
    f.taken R.toReading T (o.place R π (x ++ k))) ∧
      valuesAt R x ws = ks.scanl (fun a k => f.next R.toReading T (o.place R π (x ++ k)) a)
        (f.identity.value R.toReading T π)
  value : ∀ x ∈ points (o.axes.map d), T.writeAll ws o.idx 0 (x.map R.index) =
    ((points (o.reduceAxes.map d)).filter fun k =>
    f.taken R.toReading T (o.place R π (x ++ k))).foldl
      (fun a k => f.next R.toReading T (o.place R π (x ++ k)) a) (f.identity.value R.toReading T π)

theorem Computed.congr {f : Fold} {R : FaithfulReading V} {T : Contents V} {π : Valuation V} {o : Operation}
    {d d' : IterVar → List Int} {ws : List (Write V)} (h : f.Computed R T π o d ws) (hd : ∀ iv ∈ o.rootAxes, d iv = d' iv) :
    f.Computed R T π o d' ws := by
  have haxes : o.axes.map d = o.axes.map d' := List.map_congr_left fun iv hiv => hd iv (List.mem_append_left _ hiv)
  have hreduce : o.reduceAxes.map d = o.reduceAxes.map d' :=
    List.map_congr_left fun iv hiv => hd iv (List.mem_append_right _ hiv)
  obtain ⟨hwithin, hstepwise, hvalue⟩ := h
  rw [haxes] at hwithin hstepwise hvalue
  rw [hreduce] at hstepwise hvalue
  exact ⟨hwithin, hstepwise, hvalue⟩

omit [DecidableEq V] in
/-- If all points of the axes of an operation are given once, the steps at a data point are made at the points of the
    axes of the reduction that are taken. -/
theorem perm_steps {f : Fold} {R : FaithfulReading V} {T : Contents V} {π : Valuation V} {o : Operation}
    {d : IterVar → List Int}
    {all : List (List Int)} {x : List Int} (hd : ∀ iv, (d iv).Nodup) (hnodup : all.Nodup)
    (hall : ∀ v, v ∈ all ↔ v ∈ points (o.rootAxes.map d)) (hx : x ∈ points (o.axes.map d)) :
    (((f.steps R T π o all).filter (·.1 = x)).map (·.2)).Perm
      ((points (o.reduceAxes.map d)).filter fun k => f.taken R.toReading T (o.place R π (x ++ k))) := by
  have hlen : x.length = o.axes.length := by simpa using length_of_mem_points hx
  have hsplit : ∀ k, x ++ k ∈ all ↔ k ∈ points (o.reduceAxes.map d) := by
    intro k
    rw [hall, Operation.rootAxes, List.map_append]
    exact append_mem_points hx
  have hsteps : ((f.steps R T π o all).filter (·.1 = x)).map (·.2) =
      ((all.filter fun v => f.taken R.toReading T (o.place R π v)).filter fun v => v.take o.axes.length = x).map
        (·.drop o.axes.length) := by
    rw [steps, List.filter_map, List.map_map]
    rfl
  rw [hsteps]
  refine (List.perm_ext_iff_of_nodup ?_ ?_).mpr fun k => ?_
  · refine List.Nodup.map_on (fun v hv w hw heq => ?_) ((hnodup.filter _).filter _)
    have hv := of_decide_eq_true (List.mem_filter.mp hv).2
    have hw := of_decide_eq_true (List.mem_filter.mp hw).2
    rw [← List.take_append_drop o.axes.length v, ← List.take_append_drop o.axes.length w, hv, hw, heq]
  · refine (nodup_points ?_).filter _
    exact List.forall_mem_map.mpr fun iv _ => hd iv
  · simp only [List.mem_map, List.mem_filter, decide_eq_true_eq, ← hsplit]
    constructor
    · rintro ⟨v, ⟨⟨hv, htaken⟩, rfl⟩, rfl⟩
      rw [List.take_append_drop]
      exact ⟨hv, htaken⟩
    · rintro ⟨hv, htaken⟩
      exact ⟨x ++ k, ⟨⟨hv, htaken⟩, List.take_left' hlen⟩, List.drop_left' hlen⟩

namespace Proper

open NestContext (rootExpr reached Placed Puts insideExact provides updates guarded underCondition)

variable {R : FaithfulReading V} {T T' : Contents V} {π π' : Valuation V} {Γ Γ' : Context} {ρ' : Valuation Int} {σ : Subst}
  {guards : List Expr} {n : Nat} {o : Operation} {f : Fold} (h : f.Proper Γ n o) (hin : Inside R o n Γ π Γ' ρ' π')
  (hT : ∀ i ≠ o.idx, T' i = T i)
include h hin hT

/-- The update makes a step where the nest is, if that point is taken. -/
theorem writes_update (hdistinct : (o.rootAxes.map (·.id)).Nodup) (hplaced : Placed Γ' ρ' σ guards o.rootAxes)
    (hputs : Puts σ o.rootAxes) (hexact : insideExact R π' σ guards o.rootAxes) :
    (guarded guards (underCondition f.cond σ (provides o (o.axes.map (rootExpr σ))
        (updates o (o.axes.map (rootExpr σ)) σ)))).writes
        R.toReading π' T' =
      played (f.act R T π o) ((f.steps R T π o (reached σ guards o.rootAxes ρ')).map fun s => (s.1, some s.2)) T' := by
  obtain ⟨hhold, haxes⟩ := hplaced.guards_hold (T := T') hin.represents hexact
  rw [NestContext.writes_guarded, reached]
  by_cases hguards : ∀ e ∈ guards, e.integer ρ' ≠ 0
  · have haxes := haxes hguards
    have hdata : Placed Γ' ρ' σ guards o.axes := ⟨hplaced.guards,
      fun iv hiv => hplaced.axes iv (List.mem_append_left _ hiv)⟩
    have hsplit : (o.rootAxes.map fun iv => (rootExpr σ iv).integer ρ') =
        (o.axes.map fun iv => (rootExpr σ iv).integer ρ') ++ o.reduceAxes.map fun iv => (rootExpr σ iv).integer ρ' :=
      List.map_append
    have hargs : (o.axes.map (rootExpr σ)).map (·.value R.toReading T' π') =
        (o.axes.map fun iv => (rootExpr σ iv).integer ρ').map R.index := by
      rw [List.map_map, ← hdata.map_value hin.represents fun iv hiv => haxes iv (List.mem_append_left _ hiv)]
      rfl
    have hcond : ∀ s : Stmt, (underCondition f.cond σ s).writes R.toReading π' T' =
        if f.taken R.toReading T (o.place R π (o.rootAxes.map fun iv => (rootExpr σ iv).integer ρ')) then
          s.writes R.toReading π' T' else [] := by
      intro s
      rw [← h.taken_eq hdistinct hin hplaced hputs haxes hT]
      cases f.cond with
      | none => rfl
      | some c => exact Stmt.writes_branch_none
    rw [if_pos (hhold.mpr hguards), if_pos hguards, hcond, h.updates_eq, NestContext.writes_provides, hargs,
      h.value_update hdistinct hin hplaced hputs haxes hT, steps, List.filter_singleton]
    by_cases htaken : f.taken R.toReading T (o.place R π (o.rootAxes.map fun iv => (rootExpr σ iv).integer ρ'))
    · have hlength : (o.axes.map fun iv => (rootExpr σ iv).integer ρ').length = o.axes.length := List.length_map _
      rw [if_pos htaken, htaken, cond_true, List.map_singleton, List.map_singleton, hsplit, List.take_left' hlength,
        List.drop_left' hlength]
      rfl
    · rw [if_neg htaken, Bool.eq_false_of_not_eq_true htaken]
      rfl
  · rw [if_neg (mt hhold.mp hguards), if_neg hguards]
    rfl

/-- The start of the reduction writes the identity where the nest is. -/
theorem writes_start (hplaced : Placed Γ' ρ' σ guards o.axes) (hexact : insideExact R π' σ guards o.axes) :
    (guarded guards (provides o (o.axes.map (rootExpr σ)) [f.identity])).writes R.toReading π' T' =
      played (f.act R T π o) ((reached σ guards o.axes ρ').map fun x => (x, none)) T' := by
  obtain ⟨hhold, haxes⟩ := hplaced.guards_hold (T := T') hin.represents hexact
  rw [NestContext.writes_guarded, reached]
  by_cases hguards : ∀ e ∈ guards, e.integer ρ' ≠ 0
  · have hargs : (o.axes.map (rootExpr σ)).map (·.value R.toReading T' π') =
        (o.axes.map fun iv => (rootExpr σ iv).integer ρ').map R.index := by
      rw [List.map_map, ← hplaced.map_value hin.represents (haxes hguards)]
      rfl
    rw [if_pos (hhold.mpr hguards), if_pos hguards, NestContext.writes_provides, hargs, h.identity_eq hin.same hT]
    rfl
  · rw [if_neg (mt hhold.mp hguards), if_neg hguards]
    rfl

end Proper

end Fold

end TensorNest

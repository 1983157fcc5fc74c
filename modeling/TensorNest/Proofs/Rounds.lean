import Mathlib.Data.List.Perm.Basic
import Mathlib.Logic.Function.Basic
import TensorNest.Run.Suspension

/-! # Threads in rounds

Threads that share a state take turns: each runs up to its next wait, and a round is over when all have had their turn.
The order may be another one in each round. What the turns keep, whatever threads had theirs before, is kept by a round,
and what rounds make of it is carried from round to round (`Resumption.rounds_keep`). -/

namespace TensorNest

namespace Resumption

variable {σ α ι : Type}

/-- What is left of a thread: its result, or how it goes on. -/
inductive Rest (σ α : Type) where
  | ended (result : α)
  | waiting (resume : σ → Resumption σ α)

/-- A thread that has not ended runs up to its next wait. -/
def Rest.turn : Rest σ α → σ → Rest σ α × σ
  | ended a, s => (ended a, s)
  | waiting resume, s =>
    match resume s with
    | done a t => (ended a, t)
    | wait t resume => (waiting resume, t)

theorem Rest.turn_wait {resume resume' : σ → Resumption σ α} {s t : σ} (h : resume s = wait t resume') :
    (waiting resume).turn s = (waiting resume', t) := by
  rw [turn, h]

theorem Rest.turn_done {resume : σ → Resumption σ α} {s t : σ} {a : α} (h : resume s = done a t) :
    (waiting resume).turn s = (ended a, t) := by
  rw [turn, h]

variable [DecidableEq ι]

/-- A thread has its turn. -/
def takeTurn (c : (ι → Rest σ α) × σ) (i : ι) : (ι → Rest σ α) × σ :=
  (Function.update c.1 i ((c.1 i).turn c.2).1, ((c.1 i).turn c.2).2)

/-- A round: threads have their turns in an order. -/
def round (order : List ι) (c : (ι → Rest σ α) × σ) : (ι → Rest σ α) × σ :=
  order.foldl takeTurn c

/-- Several rounds, each in an order of its own. -/
def rounds (orders : List (List ι)) (c : (ι → Rest σ α) × σ) : (ι → Rest σ α) × σ :=
  orders.foldl (fun c order => round order c) c

section Keep
variable {threads : List ι} {ts next : ι → Rest σ α} {I : List ι → σ → Prop}

/-- If each turn goes from `ts` to `next` and keeps what depends on the threads that had their turn, so does a round. -/
theorem round_keeps (hturn : ∀ done s, ∀ i ∈ threads, i ∉ done → I done s → ∃ t, (ts i).turn s = (next i, t) ∧
      I (i :: done) t)
    {order done : List ι} (hnodup : order.Nodup) (hsub : order ⊆ threads) (hnot : ∀ i ∈ order, i ∉ done)
    {c : (ι → Rest σ α) × σ} (hc : ∀ i ∈ threads, c.1 i = if i ∈ done then next i else ts i) (hI : I done c.2) :
    (∀ i ∈ threads, (round order c).1 i = if i ∈ order ∨ i ∈ done then next i else ts i) ∧
      I (order.reverse ++ done) (round order c).2 := by
  induction order generalizing done c with
  | nil => exact ⟨fun i hi => by simpa [round] using hc i hi, hI⟩
  | cons i order ih =>
    obtain ⟨hi, hnodup⟩ := List.nodup_cons.mp hnodup
    obtain ⟨hmem, hsub⟩ := List.cons_subset.mp hsub
    obtain ⟨hidone, hnot⟩ := List.forall_mem_cons.mp hnot
    have hci : c.1 i = ts i := (hc i hmem).trans (if_neg hidone)
    obtain ⟨t, ht, hI'⟩ := hturn done c.2 i hmem hidone hI
    have hstep : takeTurn c i = (Function.update c.1 i (next i), t) := by rw [takeTurn, hci, ht]
    have hround : round (i :: order) c = round order (Function.update c.1 i (next i), t) := by
      rw [round, List.foldl_cons, hstep, round]
    have hnot : ∀ j ∈ order, j ∉ i :: done := fun j hj hjdone =>
      (List.mem_cons.mp hjdone).elim (fun heq => hi (heq ▸ hj)) (hnot j hj)
    have hc : ∀ j ∈ threads, Function.update c.1 i (next i) j = if j ∈ i :: done then next j else ts j := by
      intro j hj
      by_cases hji : j = i
      · simp [hji]
      · simp [hc j hj, hji]
    obtain ⟨hrests, hend⟩ := ih hnodup hsub hnot (c := (Function.update c.1 i (next i), t)) hc hI'
    rw [hround]
    refine ⟨fun j hj => (hrests j hj).trans ?_, by simpa using hend⟩
    simp only [List.mem_cons, or_assoc, or_left_comm]

end Keep

/-- Threads that get from stage to stage in each turn do so in rounds of any orders, if the turns of a round together lead
    from what a stage starts with to what the next one does. -/
theorem rounds_keep {threads : List ι} (hnodup : threads.Nodup) {ts : Nat → ι → Rest σ α} {I : Nat → List ι → σ → Prop}
    {n : Nat}
    (hturn : ∀ r < n, ∀ done s, ∀ i ∈ threads, i ∉ done → I r done s →
      ∃ t, (ts r i).turn s = (ts (r + 1) i, t) ∧ I r (i :: done) t)
    (hnext : ∀ r < n, ∀ done s, (∀ i ∈ threads, i ∈ done) → I r done s → I (r + 1) [] s)
    {orders : List (List ι)} (horders : ∀ order ∈ orders, order.Perm threads) {r : Nat} (hr : r + orders.length ≤ n)
    {c : (ι → Rest σ α) × σ} (hc : ∀ i ∈ threads, c.1 i = ts r i) (hI : I r [] c.2) :
    (∀ i ∈ threads, (rounds orders c).1 i = ts (r + orders.length) i) ∧ I (r + orders.length) [] (rounds orders c).2 := by
  induction orders generalizing r c with
  | nil => exact ⟨hc, hI⟩
  | cons order orders ih =>
    obtain ⟨hperm, horders⟩ := List.forall_mem_cons.mp horders
    rw [List.length_cons] at hr
    obtain ⟨hrests, hend⟩ := round_keeps (hturn r (by omega)) (hperm.nodup_iff.mpr hnodup) hperm.subset
      (fun i _ => List.not_mem_nil) (c := c) (fun i hi => (hc i hi).trans (if_neg List.not_mem_nil).symm) hI
    have hall : ∀ i ∈ threads, (round order c).1 i = ts (r + 1) i := fun i hi =>
      (hrests i hi).trans (if_pos (Or.inl (hperm.mem_iff.mpr hi)))
    have hstart := hnext r (by omega) _ _ (fun i hi => by simpa using hperm.mem_iff.mpr hi) hend
    obtain ⟨hfinal, hIfinal⟩ := ih horders (by omega) hall hstart
    rw [List.length_cons, Nat.add_comm orders.length 1, ← Nat.add_assoc]
    exact ⟨hfinal, hIfinal⟩

end Resumption

end TensorNest

import TensorNest.Proofs.Rounds
import TensorNest.Proofs.ThreadGroups

/-! # Reductions across threads

The threads of a block run the statement that a reduction across threads is lowered to, in rounds: each one up to its
next barrier, in any order. The first turn of a thread sets its cell of the shared buffer, each further one makes a step
of the tree, and the last one takes the result from the start of the row. In a step the cells that are read are not
written: a thread that takes the value of another one is among the first of its row, and the other one is not. So
whatever the order is, a step leads from the values before it to those after it (`TreeParts.Built.turn`), and in the end
each thread has the combination of the values of its group (`Stmt.treeReduction_combines`). -/

namespace TensorNest

open ThreadExtent

/-! ### The shared buffer -/

section Filled
variable {ι V : Type} {S₀ S : Shared V} {b : Nat} {team done : List ι} {slot : ι → Int} {x y : ι → V} {i : ι} {v : V}
  {cells : Int → Option V}

/-- The shared buffers are as before, but for one that holds the values of threads in their cells. -/
structure Filled (S₀ S : Shared V) (b : Nat) (team : List ι) (slot : ι → Int) (x : ι → V) : Prop where
  filled : ∃ cells, S b = some cells ∧ ∀ i ∈ team, cells (slot i) = some (x i)
  others : ∀ b' ≠ b, S b' = S₀ b'

theorem Filled.congr (h : Filled S₀ S b team slot x) (hxy : ∀ i ∈ team, x i = y i) : Filled S₀ S b team slot y where
  filled := by
    obtain ⟨cells, hcells, hx⟩ := h.filled
    exact ⟨cells, hcells, fun i hi => (hx i hi).trans (congrArg some (hxy i hi))⟩
  others := h.others

/-- A thread sets its cell. -/
theorem Filled.set (h : Filled S₀ S b team slot x) (hinjective : ∀ i ∈ team, ∀ j ∈ team, slot i = slot j → i = j)
    (hi : i ∈ team) (hb : S b = some cells) (hv : y i = v) (hxy : ∀ j ∈ team, j ≠ i → x j = y j) :
    Filled S₀ (Function.update S b (some (Function.update cells (slot i) (some v)))) b team slot y where
  filled := by
    obtain ⟨cells', hcells', hx⟩ := h.filled
    obtain rfl : cells' = cells := Option.some.inj (hcells'.symm.trans hb)
    refine ⟨_, Function.update_self .., fun j hj => ?_⟩
    by_cases hji : j = i
    · rw [hji, Function.update_self, hv]
    · rw [Function.update_of_ne fun heq => hji (hinjective j hj i hi heq), hx j hj, hxy j hj hji]
  others b' hb' := (Function.update_of_ne hb' ..).trans (h.others b' hb')

/-- While the buffer is being filled it is not there as long as no thread had its turn. Then it has the cells of all
    threads, and those of the threads that had their turn hold their values. -/
structure Filling (S₀ S : Shared V) (b : Nat) (team done : List ι) (slot : ι → Int) (x : ι → V) : Prop where
  cells : done = [] ∧ S b = none ∨
    ∃ cells, S b = some cells ∧ (∀ i ∈ team, (cells (slot i)).isSome) ∧ ∀ i ∈ done, cells (slot i) = some (x i)
  others : ∀ b' ≠ b, S b' = S₀ b'
  members : ∀ i ∈ done, i ∈ team

/-- When all threads had their turn the buffer is filled. -/
theorem Filling.filled (h : Filling S₀ S b team done slot x) (hall : ∀ i ∈ team, i ∈ done) (hi : i ∈ team) :
    Filled S₀ S b team slot x where
  filled := by
    obtain ⟨rfl, -⟩ | ⟨cells, hcells, -, hx⟩ := h.cells
    · cases hall i hi
    · exact ⟨cells, hcells, fun i hi => hx i (hall i hi)⟩
  others := h.others

/-- The first thread makes the cells, and each thread then sets its own. -/
theorem Filling.set (h : Filling S₀ S b team done slot x) (hinjective : ∀ i ∈ team, ∀ j ∈ team, slot i = slot j → i = j)
    (hi : i ∈ team) {new : Int → Option V} (hnew : ∀ i ∈ team, (new (slot i)).isSome) :
    ∃ cells, (if (S b).isSome then S else Function.update S b (some new)) b = some cells ∧ (cells (slot i)).isSome ∧
      (∀ b' ≠ b, (if (S b).isSome then S else Function.update S b (some new)) b' = S₀ b') ∧
      Filling S₀ (Function.update (if (S b).isSome then S else Function.update S b (some new)) b
        (some (Function.update cells (slot i) (some (x i))))) b team (i :: done) slot x := by
  have hothers : ∀ b' ≠ b, (if (S b).isSome then S else Function.update S b (some new)) b' = S₀ b' := by
    intro b' hb'
    split
    · exact h.others b' hb'
    · rw [Function.update_of_ne hb', h.others b' hb']
  obtain ⟨cells, hcells, hsome, hx⟩ : ∃ cells, (if (S b).isSome then S else Function.update S b (some new)) b = some cells ∧
      (∀ i ∈ team, (cells (slot i)).isSome) ∧ ∀ i ∈ done, cells (slot i) = some (x i) := by
    obtain ⟨rfl, hnone⟩ | ⟨cells, hcells, hsome, hx⟩ := h.cells
    · rw [hnone, if_neg (by simp), Function.update_self]
      exact ⟨new, rfl, hnew, List.forall_mem_nil _⟩
    · rw [hcells, if_pos (by simp)]
      exact ⟨cells, hcells, hsome, hx⟩
  refine ⟨cells, hcells, hsome i hi, hothers, Or.inr ⟨_, Function.update_self .., fun j hj => ?_, ?_⟩, fun b' hb' => ?_,
    List.forall_mem_cons.mpr ⟨hi, h.members⟩⟩
  · by_cases hji : slot j = slot i
    · rw [hji, Function.update_self]
      rfl
    · rw [Function.update_of_ne hji]
      exact hsome j hj
  · refine List.forall_mem_cons.mpr ⟨Function.update_self .., fun j hj => ?_⟩
    by_cases hji : j = i
    · rw [hji, Function.update_self]
    · rw [Function.update_of_ne fun heq => hji (hinjective j (h.members j hj) i hi heq), hx j hj]
  · rw [Function.update_of_ne hb', hothers b' hb']

variable [DecidableEq ι]

/-- Some threads have new values. -/
def mixed (done : List ι) (x y : ι → V) (i : ι) : V :=
  if i ∈ done then y i else x i

theorem mixed_nil : mixed [] x y i = x i :=
  if_neg List.not_mem_nil

theorem mixed_same : mixed done x x i = x i :=
  ite_self _

theorem mixed_cons_of_ne {j : ι} (h : j ≠ i) : mixed done x y j = mixed (i :: done) x y j := by
  simp [mixed, h]

end Filled

/-! ### The turns of the threads -/

/-- What a thread of a reduction starts with: it reaches the row of its group in a buffer, there is a cell for its
    result, and an expression has its initial value, whatever is in the buffer. -/
structure ReductionThreads.Starts {V : Type} [Inhabited V] (threads : ReductionThreads) (R : ScalarReading V)
    (π : Valuation V)
    (S₀ : Shared V) (buffer target : Nat) (first : Expr) (i : List Int × List Int) (reach : Nat → Int → Bool) (m : Store V)
    (initial : V) : Prop where
  reaches : ∀ n, threads.start i.2 ≤ n → n < threads.start i.2 + threads.length → reach buffer n = true
  cell : (m.cell target 0).isSome
  value : ∀ S : Shared V, (∀ b ≠ buffer, S b = S₀ b) →
    first.value? R.toExactReading (m.beside reach S) (threads.valuation R.toFaithfulReading π i) = some initial

namespace TreeParts.Built

variable {V : Type} [Inhabited V] {R : ScalarReading V} {op : V → V → V} {threads : ReductionThreads} {p : TreeParts}
  {combiner : Reducer} {value cond identity result : Expr} {x y buffer target : Var} {π : Valuation V}
  {reach : Nat → Int → Bool} {initial : List Int × List Int → V} {S₀ S : Shared V} {m : Store V} {K : Course V}
  {shared : List Nat} {i : List Int × List Int} {done : List (List Int × List Int)}
  (h : p.Built threads combiner value cond identity result buffer) (hproper : threads.Proper) (hi : i ∈ threads.all)
  (hstarts : threads.Starts R π S₀ buffer.id target.id p.first i reach m (initial i))
include h hproper hi hstarts

/-- A step of the tree. -/
theorem turn_step (hcomputes : combiner.Computes R x y result op)
    (hapart : ∀ v ∈ result.boundVars, threads.context v = none) (hnot : i ∉ done) {k r : Nat}
    {s : Stmt} (hs : (p.row buffer result.dtype).step combiner result ((2 ^ (k - (r + 1)) : Nat) : Int) = .ok s)
    (hS : Filled S₀ S buffer.id threads.all threads.slot
      (mixed done (threads.value op initial k r) (threads.value op initial k (r + 1)))) :
    ∃ S', s.play R reach shared (threads.valuation R.toFaithfulReading π i) K m S = K m S' ∧
      Filled S₀ S' buffer.id threads.all threads.slot
        (mixed (i :: done) (threads.value op initial k r) (threads.value op initial k (r + 1))) := by
  obtain ⟨cells, hb, hcells⟩ := hS.filled
  obtain ⟨hi1, hi2⟩ := ReductionThreads.mem_all.mp hi
  have hlt := hproper.rank_lt_length hi1
  have hlength : (p.row buffer result.dtype).length = threads.length := h.length_eq hproper
  have hown : cells (threads.slot i) = some (threads.value op initial k r i) :=
    (hcells i hi).trans (by rw [mixed, if_neg hnot])
  generalize hd : 2 ^ (k - (r + 1)) = d at hs
  -- The thread whose value is taken is not active itself, so that it has the same value before and after its turn.
  have hother : rank threads.reduced i.1 < d ∧ rank threads.reduced i.1 + d < threads.length →
      cells (threads.slot i + d) = some (threads.value op initial k r (threads.further i d)) := by
    intro hactive
    obtain ⟨hmem, hrank, hslot⟩ := hproper.further_mem hi hactive.2
    have hsame : threads.value op initial k (r + 1) (threads.further i d) =
      threads.value op initial k r (threads.further i d) :=
      ReductionThreads.value_inactive hd.symm (by omega)
    rw [← hslot, hcells _ hmem, mixed, hsame, ite_self]
  have hslot : threads.slot i = threads.start i.2 + rank threads.reduced i.1 := rfl
  refine ⟨_, (h.places hproper hi).play_step hcomputes hapart rfl hs (ReductionThreads.represents R.toFaithfulReading π hi)
    hb (hstarts.reaches _ (by omega) (by omega)) hown fun hactive =>
      ⟨hstarts.reaches _ (by omega) (by omega), hother (by omega)⟩, ?_⟩
  by_cases hactive : rank threads.reduced i.1 < d ∧ rank threads.reduced i.1 + d < threads.length
  · rw [if_pos (by omega)]
    refine hS.set (fun i hi j hj => hproper.slot_injective hi hj) hi hb ?_ fun j _ hji => mixed_cons_of_ne hji
    rw [mixed, if_pos List.mem_cons_self, hproper.value_active hd.symm hactive]
  · rw [if_neg (by omega)]
    refine hS.congr fun j _ => ?_
    by_cases hji : j = i
    · rw [hji, mixed, if_neg hnot, mixed, if_pos List.mem_cons_self, ReductionThreads.value_inactive hd.symm hactive]
    · exact mixed_cons_of_ne hji

/-- The first turn of a thread: it allocates the buffer, if it is the first one, and sets its cell. -/
theorem turn_start {t : DataType} {e : Expr} (hS : Filling S₀ S buffer.id threads.all done threads.slot initial) :
    ∃ S', (p.stmt buffer t e).play R reach [] (threads.valuation R.toFaithfulReading π i) K m S =
        Resumption.wait S' (fun S => Stmt.play.playAll R reach
          (p.steps ++ [.store e (.load t (.var buffer) p.base none) p.zero none, .barrier p.scope]) [buffer.id]
          (threads.valuation R.toFaithfulReading π i) K m S) ∧
      Filling S₀ S' buffer.id threads.all (i :: done) threads.slot initial := by
  obtain ⟨hi1, hi2⟩ := ReductionThreads.mem_all.mp hi
  have hlt := hproper.rank_lt_length hi1
  have hslot : threads.slot i = threads.start i.2 + rank threads.reduced i.1 := rfl
  have hπ := ReductionThreads.represents R.toFaithfulReading π hi
  have hplace : p.slot.Amounts threads.context (threads.numbers i) (threads.slot i) := (h.places hproper hi).slot
  have hsize : p.size.Amounts threads.context (threads.numbers i) (p.length * p.groups) := Expr.ensures_ofInt _ _ h.size
  have hbounds : ∀ j ∈ threads.all, 0 ≤ threads.slot j ∧ threads.slot j < p.length * p.groups := fun j hj => by
    rw [h.length_eq hproper, h.groups_eq hproper, hproper.length_eq]
    exact hproper.slot_bounds hj
  have hnew : ∀ j ∈ threads.all, (Stmt.zeroCells R.toExactReading t (p.length * p.groups) (threads.slot j)).isSome :=
    fun j hj => by
    rw [Stmt.zeroCells, if_pos (hbounds j hj)]
    rfl
  obtain ⟨cells, hb, hsome, hothers, hfilling⟩ := hS.set (fun i hi j hj => hproper.slot_injective hi hj) hi hnew
  refine ⟨_, ?_, hfilling⟩
  have hnonneg : 0 ≤ p.length * p.groups := by
    have := hbounds i hi
    omega
  rw [TreeParts.stmt, Stmt.play_shared, Stmt.play_allocate _ _ _ List.mem_cons_self (hsize.integer?_eq hπ) hnonneg,
    Stmt.play_ofList, List.cons_append, List.cons_append, Stmt.playAll_cons, Stmt.playAll_cons]
  have hcell := Store.put_shared (m := m) (x := initial i) hb (hstarts.reaches _ (by omega) (by omega)) hsome
  rw [Stmt.play_store (hstarts.value _ hothers) (hplace.integer?_eq hπ) hcell, Stmt.play_barrier]

/-- The last turn: a thread takes the result from the start of its row. -/
theorem turn_finish {t : DataType} {k r : Nat} (htarget : target.id ≠ buffer.id) (hown : S₀ target.id = none)
    (hS : Filled S₀ S buffer.id threads.all threads.slot (threads.value op initial k r)) :
    (Stmt.store (.var target) (.load t (.var buffer) p.base none) p.zero none).play R reach shared
        (threads.valuation R.toFaithfulReading π i) K m S =
      K (m.setBuffer target.id (Function.update (m.cell target.id) 0
        (some (threads.value op initial k r (threads.member 0, i.2))))) S := by
  obtain ⟨cells, hb, hcells⟩ := hS.filled
  obtain ⟨hmem, hrank⟩ := hproper.member_mem hproper.length_pos
  have hpos := hproper.length_pos
  have hπ := ReductionThreads.represents R.toFaithfulReading π hi
  have hfirst : threads.slot (threads.member 0, i.2) = threads.start i.2 := by
    rw [ReductionThreads.slot, hrank]
    exact Int.add_zero _
  have hvalue : cells (threads.start i.2) = some (threads.value op initial k r (threads.member 0, i.2)) := by
    rw [← hfirst]
    exact hcells _ (ReductionThreads.mem_all.mpr ⟨hmem, (ReductionThreads.mem_all.mp hi).2⟩)
  have hzero : p.zero.Amounts threads.context (threads.numbers i) 0 := Expr.ensures_ofInt _ _ h.zero
  have hload := ReductionRow.value?_load_shared (t := t) (m := m) (h.places hproper hi).base hπ hb
    (hstarts.reaches _ (by omega) (by omega)) hvalue
  exact Stmt.play_store hload (hzero.integer?_eq hπ) (Store.put_own ((hS.others _ htarget).trans hown) hstarts.cell)

end TreeParts.Built

/-! ### All turns -/

namespace TreeParts

variable {V : Type}

/-- A thread that has to make `j` steps before it takes the result. -/
def remaining (p : TreeParts) (R : ScalarReading V) (reach : Nat → Int → Bool) (ρ : Valuation V) (m : Store V)
    (buffer : Var)
    (t : DataType) (target : Expr) (step : Nat → Stmt) (j : Nat) (S : Shared V) :
    Resumption (Shared V) (Option (Store V)) :=
  Stmt.play.playAll R reach (ReductionRow.stepsOf (.barrier p.scope) step j ++
    [.store target (.load t (.var buffer) p.base none) p.zero none, .barrier p.scope]) [buffer.id] ρ
    (fun m S => .done (some m) S) m S

/-- What is left of a thread after some turns: it starts, makes `k` steps, takes the result and ends. -/
def rest (start : Shared V → Resumption (Shared V) (Option (Store V)))
    (remaining : Nat → Shared V → Resumption (Shared V) (Option (Store V))) (m : Store V) (k : Nat) :
    Nat → Resumption.Rest (Shared V) (Option (Store V))
  | 0 => .waiting start
  | r + 1 =>
    if r ≤ k then .waiting (remaining (k - r)) else if r = k + 1 then .waiting (.done (some m)) else .ended (some m)

section Rest
variable {start : Shared V → Resumption (Shared V) (Option (Store V))}
  {remaining : Nat → Shared V → Resumption (Shared V) (Option (Store V))} {m : Store V} {k r : Nat}

theorem rest_succ (h : r ≤ k) : rest start remaining m k (r + 1) = .waiting (remaining (k - r)) :=
  if_pos h

theorem rest_result : rest start remaining m k (k + 2) = .waiting (.done (some m)) := by
  rw [rest, if_neg (by omega), if_pos rfl]

theorem rest_end : rest start remaining m k (k + 3) = .ended (some m) := by
  rw [rest, if_neg (by omega), if_neg (by omega)]

end Rest

/-- The shared buffers in a round, when some threads had their turn. -/
def Between (threads : ReductionThreads) (op : V → V → V) (initial : List Int × List Int → V) (k : Nat) (S₀ : Shared V)
    (b : Nat) :
    Nat → List (List Int × List Int) → Shared V → Prop
  | 0, done, S => Filling S₀ S b threads.all done threads.slot initial
  | r + 1, done, S => Filled S₀ S b threads.all threads.slot
      (mixed done (threads.value op initial k (min r k)) (threads.value op initial k (min (r + 1) k)))

variable {R : ScalarReading V} {op : V → V → V} {threads : ReductionThreads} {p : TreeParts}
  {combiner : Reducer} {value cond identity result : Expr} {x y buffer target : Var} {π : Valuation V}
  {reach : Nat → Int → Bool} {initial : List Int × List Int → V} {S₀ S : Shared V} {m : Store V}
  {i : List Int × List Int} {done : List (List Int × List Int)} {step : Nat → Stmt} {k r : Nat}

/-- While the tree is being worked off, threads that had their turn have the values of after the step. -/
theorem between_step (hr : r < k) : Between threads op initial k S₀ buffer.id (r + 1) done S ↔
    Filled S₀ S buffer.id threads.all
    threads.slot (mixed done (threads.value op initial k r) (threads.value op initial k (r + 1))) := by
  rw [Between, Nat.min_eq_left (Nat.le_of_lt hr), Nat.min_eq_left hr]

/-- After the steps the values stay as they are. -/
theorem between_of_le (hr : k ≤ r) : Between threads op initial k S₀ buffer.id (r + 1) done S ↔
    Filled S₀ S buffer.id threads.all threads.slot (threads.value op initial k k) := by
  have hmixed : mixed done (threads.value op initial k k) (threads.value op initial k k) = threads.value op initial k k :=
    funext fun _ => mixed_same
  rw [Between, Nat.min_eq_right hr, Nat.min_eq_right (Nat.le_succ_of_le hr), hmixed]

/-- The turns of a round lead to the next one. -/
theorem between_next (hproper : threads.Proper) (hi : i ∈ threads.all) (hall : ∀ i ∈ threads.all, i ∈ done)
    (h : Between threads op initial k S₀ buffer.id r done S) : Between threads op initial k S₀ buffer.id (r + 1) [] S := by
  cases r with
  | zero =>
    refine (Filling.filled h hall hi).congr fun j hj => ?_
    rw [mixed_nil, Nat.zero_min, hproper.value_zero hj]
  | succ r =>
    refine Filled.congr h fun j hj => ?_
    rw [mixed_nil, mixed, if_pos (hall j hj)]

/-- What the turn of a thread makes of it and of the shared buffers. -/
theorem Built.turn [Inhabited V] (h : p.Built threads combiner value cond identity result buffer) (hproper : threads.Proper)
    (hcomputes : combiner.Computes R x y result op) (hapart : ∀ v ∈ result.boundVars, threads.context v = none)
    (hstep : ∀ j < k, (p.row buffer result.dtype).step combiner result ((2 ^ j : Nat) : Int) = .ok (step j))
    (hsteps : p.steps = ReductionRow.stepsOf (.barrier p.scope) step k) (hi : i ∈ threads.all) (hnot : i ∉ done)
    (hstarts : threads.Starts R π S₀ buffer.id target.id p.first i reach m (initial i))
    (htarget : target.id ≠ buffer.id) (hown : S₀ target.id = none) {m' : Store V} (hm' : m' = m.setBuffer target.id
      (Function.update (m.cell target.id) 0 (some (threads.value op initial k k (threads.member 0, i.2)))))
    (hr : r < k + 3) (hS : Between threads op initial k S₀ buffer.id r done S) :
    let ρ := threads.valuation R.toFaithfulReading π i
    let rest := rest ((p.stmt buffer result.dtype (.var target)).thread R reach ρ m)
      (p.remaining R reach ρ m buffer result.dtype (.var target) step) m' k
    ∃ S', (rest r).turn S = (rest (r + 1), S') ∧ Between threads op initial k S₀ buffer.id r (i :: done) S' := by
  intro ρ rest
  cases r with
  | zero =>
    obtain ⟨S', hturn, hS'⟩ := h.turn_start hproper hi hstarts hS
    rw [hsteps] at hturn
    refine ⟨S', ?_, hS'⟩
    rw [show rest 1 = _ from rest_succ (Nat.zero_le k)]
    exact Resumption.Rest.turn_wait hturn
  | succ r =>
    obtain hlt | rfl | rfl : r < k ∨ r = k ∨ r = k + 1 := by omega
    · rw [between_step hlt] at hS
      obtain ⟨S', hturn, hS'⟩ := h.turn_step hproper hi hstarts hcomputes hapart hnot (hstep (k - (r + 1)) (by omega)) hS
      refine ⟨S', ?_, (between_step hlt).mpr hS'⟩
      rw [show rest (r + 1) = _ from rest_succ (Nat.le_of_lt hlt), show rest (r + 1 + 1) = _ from rest_succ hlt]
      have hnext : k - r = k - (r + 1) + 1 := by omega
      refine Resumption.Rest.turn_wait ?_
      rw [remaining, hnext, ReductionRow.stepsOf, List.cons_append, List.cons_append, Stmt.playAll_cons,
        Stmt.playAll_cons, hturn,
        Stmt.play_barrier]
      rfl
    · rw [between_of_le (Nat.le_refl r)] at hS
      refine ⟨S, ?_, (between_of_le (Nat.le_refl r)).mpr hS⟩
      rw [show rest (r + 1) = _ from rest_succ (Nat.le_refl r), show rest (r + 1 + 1) = _ from rest_result]
      refine Resumption.Rest.turn_wait ?_
      rw [remaining, Nat.sub_self, ReductionRow.stepsOf, List.nil_append, Stmt.playAll_cons, Stmt.playAll_cons,
        h.turn_finish hproper hi hstarts htarget hown hS, Stmt.play_barrier, hm']
      rfl
    · rw [between_of_le (Nat.le_succ k)] at hS
      refine ⟨S, ?_, (between_of_le (Nat.le_succ k)).mpr hS⟩
      rw [show rest (k + 1 + 1) = _ from rest_result, show rest (k + 1 + 1 + 1) = _ from rest_end]
      exact Resumption.Rest.turn_done rfl

end TreeParts

section Run
variable {V : Type} [Inhabited V] {R : ScalarReading V} {op : V → V → V} [Std.Associative op] [Std.Commutative op]
  {name : String}
  {warp : Setting} {combiner : Reducer} {count value cond result identity first : Expr} {x y target : Var}
  {vars identities : List Expr}
  {regions : List ThreadRegion} {n : Nat} {st' : Stmt.ReductionState} {g g' : Graph} {s : Stmt} {threads : ReductionThreads}
  {π : Valuation V} {m : List Int × List Int → Store V} {S₀ : Shared V} {reach : List Int × List Int → Nat → Int → Bool}
  {initial : List Int × List Int → V}

/-- Threads that run the statement of a reduction across the axes around it come to their ends, in whatever order they
    have their turns between two barriers. Then each one has, in the cell for its result, the combination of the initial
    values of the threads of its group, each of them taken once. They need no cells of the shared buffer but those of
    the rows of their groups, and no two rows have a cell in common. -/
theorem Stmt.treeReduction_combines
    (hrun : LowerReduction.Yields (treeReduction name warp combiner (count :: value :: cond :: .var target :: vars))
      ⟨regions, n⟩ g s st' g')
    (hthreads : reductionThreads name regions ((vars.filterMap Expr.asVar?).map (·.id)).eraseDups = .ok threads)
    (hproper : threads.Proper) (hcomputes : combiner.Computes R x y result op)
    (hidentity : combiner.identity = identity :: identities)
    (hapart : ∀ t ∈ threads.axes, t.axis.id ∉ result.boundVars) (hfirst : Expr.choose cond value identity = .ok first)
    (hfresh : S₀ g.next = none) (htarget : target.id ≠ g.next) (hown : S₀ target.id = none)
    (hstarts : ∀ i ∈ threads.all, threads.Starts R π S₀ g.next target.id first i (reach i) (m i) (initial i)) :
    (∀ q ∈ coordinates threads.group, ∀ q' ∈ coordinates threads.group, q ≠ q' →
      threads.start q + threads.length ≤ threads.start q' ∨ threads.start q' + threads.length ≤ threads.start q) ∧
    ∃ k, ∀ orders : List (List (List Int × List Int)), orders.length = k → (∀ order ∈ orders, order.Perm threads.all) →
      ∀ i ∈ threads.all, ∃ v, combination op ((coordinates threads.reduced).map fun p => initial (p, i.2)) = some v ∧
        (Resumption.rounds orders
          (fun i => .waiting (s.thread R (reach i) (threads.valuation R.toFaithfulReading π i) (m i)), S₀)).1 i =
        .ended (some ((m i).setBuffer target.id (Function.update ((m i).cell target.id) 0 (some v)))) := by
  obtain ⟨threads', hthreads', buffer, p, hbuffer, hbuilt, rfl⟩ := treeReduction_inv hcomputes.result hidentity hrun
  obtain rfl : threads' = threads := Except.ok.inj (hthreads'.symm.trans hthreads)
  obtain rfl : p.first = first := Except.ok.inj (hbuilt.first.symm.trans hfirst)
  obtain ⟨step, hstep, hsteps⟩ := ReductionRow.exists_steps hbuilt.steps
  rw [← hbuffer] at hfresh htarget hstarts
  have hcontext : ∀ v ∈ result.boundVars, threads'.context v = none := by
    intro v hv
    refine withAxes_of_not_mem fun hmem => ?_
    rw [List.map_map] at hmem
    obtain ⟨t, ht, rfl⟩ := List.mem_map.mp hmem
    exact hapart t ht hv
  refine ⟨fun q hq q' hq' => hproper.rows_disjoint hq hq', p.width.log2 + 3, fun orders hlength horders i hi => ?_⟩
  have hall : some (threads'.value op initial p.width.log2 p.width.log2 (threads'.member 0, i.2)) = _ :=
    hproper.value_all (hbuilt.length_le hproper) i.2
  refine ⟨_, hall.symm, ?_⟩
  -- The stages of a thread, each of which its turn leads to the next one.
  let ts : Nat → List Int × List Int → Resumption.Rest (Shared V) (Option (Store V)) := fun r i =>
    let ρ := threads'.valuation R.toFaithfulReading π i
    TreeParts.rest ((p.stmt buffer result.dtype (.var target)).thread R (reach i) ρ (m i))
      (p.remaining R (reach i) ρ (m i) buffer result.dtype (.var target) step)
      ((m i).setBuffer target.id (Function.update ((m i).cell target.id) 0
        (some (threads'.value op initial p.width.log2 p.width.log2 (threads'.member 0, i.2))))) p.width.log2 r
  have hturn : ∀ r < p.width.log2 + 3, ∀ done S, ∀ i ∈ threads'.all, i ∉ done →
      TreeParts.Between threads' op initial p.width.log2 S₀ buffer.id r done S →
        ∃ S', (ts r i).turn S = (ts (r + 1) i, S') ∧
        TreeParts.Between threads' op initial p.width.log2 S₀ buffer.id r (i :: done) S' := fun r hr done S i hi hnot hS =>
    hbuilt.turn hproper hcomputes hcontext hstep hsteps hi hnot (hstarts i hi) htarget hown rfl hr hS
  have hempty : TreeParts.Between threads' op initial p.width.log2 S₀ buffer.id 0 [] S₀ :=
    ⟨Or.inl ⟨rfl, hfresh⟩, fun _ _ => rfl, List.forall_mem_nil _⟩
  have hkept := Resumption.rounds_keep ReductionThreads.nodup_all hturn
    (fun r _ done S hall hS => TreeParts.between_next hproper hi hall hS) horders (r := 0) (by omega)
    (c := (fun i => ts 0 i, S₀)) (fun i _ => rfl) hempty
  have hend := hkept.1 i hi
  rw [hlength, Nat.zero_add] at hend
  exact hend.trans TreeParts.rest_end

end Run

/-! ### Two groups of three threads -/

namespace Stmt.Thirds

def int (n : Int) : Expr := .const (.int n) .int32

def axis (id : Nat) (tag : String) : IterVar := ⟨none, ⟨id, "t", .int32⟩, .threadIndex, tag⟩

def regions : List ThreadRegion := [(axis 1 "threadIdx.y", int 2), (axis 2 "threadIdx.x", int 3)]

def threads : ReductionThreads := ⟨[⟨axis 2 "threadIdx.x", 3⟩], [⟨axis 1 "threadIdx.y", 2⟩]⟩

def x : Var := ⟨3, "x", .int32⟩

def y : Var := ⟨4, "y", .int32⟩

def sum : Reducer := ⟨[x], [y], [.bin .add (.var x) (.var y)], [int 0]⟩

/-- What a thread starts with: the number of its column and ten times that of its row. -/
def own : Expr := .bin .add (.var (axis 2 "threadIdx.x").var) (.bin .mul (int 10) (.var (axis 1 "threadIdx.y").var))

def target : Var := ⟨5, "B.local", .handle⟩

def reduction : LowerReduction Stmt :=
  treeReduction "f" (.number (.int 1)) sum [int 1, own, Expr.bool true, .var target, .var (axis 2 "threadIdx.x").var]

def graph : Graph := { next := 6 }

theorem yields : ∃ s st' g', LowerReduction.Yields reduction ⟨regions, 0⟩ graph s st' g' := by
  have hok : (((reduction.run ⟨regions, 0⟩).run.run graph).run).1.isOk := by
    decide +kernel
  rcases hrun : ((reduction.run ⟨regions, 0⟩).run.run graph).run with ⟨e | ⟨s, st'⟩, g'⟩
  · rw [hrun] at hok
    cases hok
  · exact ⟨s, st', g', hrun⟩

theorem proper : threads.Proper where
  distinct := by decide
  types := List.forall_mem_cons.mpr ⟨⟨rfl, rfl⟩, List.forall_mem_singleton.mpr ⟨rfl, rfl⟩⟩
  positive := by decide

theorem computes : sum.Computes ScalarReading.integers x y (.bin .add (.var x) (.var y)) (· + ·) where
  lhs := rfl
  rhs := rfl
  result := rfl
  distinct := by decide
  free := by decide
  value _ _ _ := rfl

/-- The value that a thread starts with. -/
def initial (i : List Int × List Int) : Int := i.1.headD 0 + 10 * i.2.headD 0

theorem value_own (M : Store Int) {i : List Int × List Int} (hi : i ∈ threads.all) :
    own.value? ScalarReading.integers.toExactReading M (threads.valuation .integers (fun _ => 0) i) = some (initial i) := by
  have hvalues : ∀ i ∈ threads.all, threads.valuation .integers (fun _ =>
      0) i 2 + 10 * threads.valuation .integers (fun _ => 0) i 1 =
      initial i := by decide
  exact congrArg some (hvalues i hi)

/-- Each thread has a cell for its result. -/
def store : Store Int := ⟨fun _ _ => none, fun b n => if b = 5 ∧ n = 0 then some 0 else none⟩

/-- Nothing is shared yet. -/
def unshared : Shared Int := fun _ => none

/-- Each thread is kept to its row of the buffer. -/
def ownRow (i : List Int × List Int) (b : Nat) (n : Int) : Bool :=
  b == 6 && decide (threads.start i.2 ≤ n ∧ n < threads.start i.2 + threads.length)

theorem threads_eq : reductionThreads "f" regions
    (([Expr.var (axis 2 "threadIdx.x").var].filterMap Expr.asVar?).map (·.id)).eraseDups = .ok threads := by
  with_unfolding_all rfl

/-- In any orders the threads of the first row get 3, and those of the second one 33. -/
theorem combined : ∃ s st' g', LowerReduction.Yields reduction ⟨regions, 0⟩ graph s st' g' ∧
    ∃ k, ∀ orders : List (List (List Int × List Int)), orders.length = k → (∀ order ∈ orders, order.Perm threads.all) →
      ∀ i ∈ threads.all, (Resumption.rounds orders (fun i => .waiting (s.thread .integers (ownRow i)
          (threads.valuation .integers (fun _ => 0) i) store), unshared)).1 i =
        .ended (some (store.setBuffer 5 (Function.update (store.cell 5) 0 (some (if i.2 = [0] then 3 else 33))))) := by
  obtain ⟨s, st', g', hrun⟩ := yields
  have hstarts : ∀ i ∈ threads.all, threads.Starts .integers (fun _ =>
    0) unshared graph.next target.id own i (ownRow i) store (initial i) :=
    fun i hi => ⟨fun n hlo hhi => by simpa [ownRow, graph] using ⟨hlo, hhi⟩, rfl, fun S _ => value_own _ hi⟩
  obtain ⟨-, k, hall⟩ := treeReduction_combines hrun threads_eq proper computes rfl (by decide) rfl rfl (by decide) rfl
    hstarts
  refine ⟨s, st', g', hrun, k, fun orders hlength horders i hi => ?_⟩
  have hsums : ∀ i ∈ threads.all, combination (· + ·) ((coordinates threads.reduced).map fun p => initial (p, i.2)) =
      some (if i.2 = [0] then 3 else 33) := by decide
  obtain ⟨v, hv, hend⟩ := hall orders hlength horders i hi
  obtain rfl := Option.some.inj ((hsums i hi).symm.trans hv)
  exact hend

end Stmt.Thirds

end TensorNest

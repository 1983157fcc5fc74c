import TensorNest.Lowering.ThreadReduction
import TensorNest.Proofs.Alignment

/-! # Numbering the threads of some axes

The threads of several axes are numbered with one index: the coordinates of a thread are the digits of its number, and
the extents of the axes their bases. Threads with distinct coordinates have distinct numbers, and all numbers below the
number of threads are taken (`ThreadExtent.map_rank`). `ThreadExtent.linearize` builds an expression for this number. -/

namespace TensorNest

theorem length_points {α : Type} (ls : List (List α)) : (points ls).length = (ls.map List.length).prod := by
  induction ls with
  | nil => rfl
  | cons xs ls ih => simp [points, List.length_flatMap, ih]

namespace ThreadExtent

/-- The number of threads. -/
def size (axes : List ThreadExtent) : Int :=
  (axes.map (·.extent)).prod

/-- The number of the thread with some coordinates, the first axis being the fastest. -/
def place : List ThreadExtent → Valuation Int → Int
  | [], _ => 0
  | t :: axes, ρ => ρ t.axis.id + t.extent * place axes ρ

/-- The coordinates of the threads. -/
def coordinates (axes : List ThreadExtent) : List (List Int) :=
  points (axes.map fun t => ints 0 t.extent)

/-- The variables of the axes. -/
def vars (axes : List ThreadExtent) : List Var :=
  axes.map (·.axis.var)

/-- The number of a thread among those of its axes. -/
def rank (axes : List ThreadExtent) (p : List Int) : Nat :=
  (place (axes.mergeSort notSlower) (Valuation.assign (fun _ => 0) (vars axes) p)).toNat

section Place
variable {t : ThreadExtent} {axes axes' : List ThreadExtent} {ρ ρ' : Valuation Int}

theorem size_cons : size (t :: axes) = t.extent * size axes :=
  List.prod_cons

theorem size_perm (h : axes.Perm axes') : size axes = size axes' :=
  (h.map _).prod_eq

theorem size_pos (h : ∀ t ∈ axes, 1 ≤ t.extent) : 0 < size axes := by
  induction axes with
  | nil => exact Int.one_pos
  | cons t axes ih =>
    obtain ⟨ht, haxes⟩ := List.forall_mem_cons.mp h
    rw [size_cons]
    exact Int.mul_pos (by omega) (ih haxes)

theorem place_bounds (h : ∀ t ∈ axes, 0 ≤ ρ t.axis.id ∧ ρ t.axis.id < t.extent) :
    0 ≤ place axes ρ ∧ place axes ρ < size axes := by
  induction axes with
  | nil => exact ⟨Int.le_refl 0, Int.one_pos⟩
  | cons t axes ih =>
    obtain ⟨ht, haxes⟩ := List.forall_mem_cons.mp h
    obtain ⟨hnonneg, hlt⟩ := ih haxes
    have hstart : 0 ≤ t.extent * place axes ρ := Int.mul_nonneg (by omega) hnonneg
    have hend : t.extent * (place axes ρ + 1) ≤ t.extent * size axes := Int.mul_le_mul_of_nonneg_left (by omega) (by omega)
    rw [Int.mul_add, Int.mul_one] at hend
    rw [place, size_cons]
    omega

theorem place_congr (h : ∀ t ∈ axes, ρ t.axis.id = ρ' t.axis.id) : place axes ρ = place axes ρ' := by
  induction axes with
  | nil => rfl
  | cons t axes ih =>
    obtain ⟨ht, haxes⟩ := List.forall_mem_cons.mp h
    rw [place, place, ht, ih haxes]

/-- Distinct coordinates give distinct numbers. -/
theorem place_injective (h : ∀ t ∈ axes, 0 ≤ ρ t.axis.id ∧ ρ t.axis.id < t.extent)
    (h' : ∀ t ∈ axes, 0 ≤ ρ' t.axis.id ∧ ρ' t.axis.id < t.extent) (heq : place axes ρ = place axes ρ') :
    ∀ t ∈ axes, ρ t.axis.id = ρ' t.axis.id := by
  induction axes with
  | nil => exact List.forall_mem_nil _
  | cons t axes ih =>
    obtain ⟨ht, haxes⟩ := List.forall_mem_cons.mp h
    obtain ⟨ht', haxes'⟩ := List.forall_mem_cons.mp h'
    have hsum : place axes ρ * t.extent + ρ t.axis.id = place axes ρ' * t.extent + ρ' t.axis.id := by
      rw [place, place] at heq
      rw [Int.mul_comm, Int.mul_comm (place axes ρ')]
      omega
    obtain ⟨hrest, hfirst⟩ := Region.eq_of_mul_add_eq ht.1 ht.2 ht'.1 ht'.2 hsum
    exact List.forall_mem_cons.mpr ⟨hfirst, ih haxes haxes' hrest⟩

end Place

section Rank
variable {axes : List ThreadExtent} {p q : List Int}

theorem length_of_mem_coordinates (hp : p ∈ coordinates axes) : (vars axes).length = p.length := by
  rw [length_of_mem_points hp, List.length_map, vars, List.length_map]

theorem map_id_vars : (vars axes).map (·.id) = axes.map (·.axis.id) := by
  rw [vars, List.map_map]
  rfl

theorem nodup_coordinates (axes : List ThreadExtent) : (coordinates axes).Nodup := by
  refine nodup_points fun l hl => ?_
  obtain ⟨t, -, rfl⟩ := List.mem_map.mp hl
  exact nodup_ints 0 t.extent

variable (hdistinct : (axes.map (·.axis.id)).Nodup)
include hdistinct

theorem map_assign_vars (hp : p ∈ coordinates axes) (ρ : Valuation Int) :
    axes.map (fun t => ρ.assign (vars axes) p t.axis.id) = p := by
  have hmap := Valuation.map_assign (by rwa [map_id_vars]) (length_of_mem_coordinates hp) ρ
  rwa [vars, List.map_map] at hmap

theorem assign_bounds (hp : p ∈ coordinates axes) (ρ : Valuation Int) :
    ∀ t ∈ axes, 0 ≤ ρ.assign (vars axes) p t.axis.id ∧ ρ.assign (vars axes) p t.axis.id < t.extent := by
  have hmem := mem_points.mp hp
  rw [List.forall₂_map_right_iff] at hmem
  nth_rewrite 1 [← map_assign_vars hdistinct hp ρ] at hmem
  rw [List.forall₂_map_left_iff, List.forall₂_same] at hmem
  intro t ht
  have := mem_ints.mp (hmem t ht)
  omega

/-- The number of a thread, whatever values other variables have. -/
theorem place_assign (hp : p ∈ coordinates axes) (ρ : Valuation Int) :
    place (axes.mergeSort notSlower) (ρ.assign (vars axes) p) = rank axes p := by
  have hperm := List.mergeSort_perm axes notSlower
  have hnonneg := (place_bounds fun t ht => assign_bounds hdistinct hp (fun _ => 0) t (hperm.mem_iff.mp ht)).1
  rw [rank, Int.toNat_of_nonneg hnonneg]
  refine place_congr fun t ht => Valuation.assign_congr (fun hx => ?_) p
  rw [map_id_vars] at hx
  exact absurd (List.mem_map.mpr ⟨t, hperm.mem_iff.mp ht, rfl⟩) hx

theorem rank_lt (hp : p ∈ coordinates axes) : (rank axes p : Int) < size axes := by
  have hperm := List.mergeSort_perm axes notSlower
  rw [← place_assign hdistinct hp fun _ => 0, ← size_perm hperm]
  exact (place_bounds fun t ht => assign_bounds hdistinct hp (fun _ => 0) t (hperm.mem_iff.mp ht)).2

theorem rank_injective (hp : p ∈ coordinates axes) (hq : q ∈ coordinates axes) (h : rank axes p = rank axes q) : p = q := by
  have hperm := List.mergeSort_perm axes notSlower
  have hplace : place (axes.mergeSort notSlower) (Valuation.assign (fun _ => 0) (vars axes) p) =
      place (axes.mergeSort notSlower) (Valuation.assign (fun _ => 0) (vars axes) q) := by
    rw [place_assign hdistinct hp, place_assign hdistinct hq, h]
  have hsame := place_injective (fun t ht => assign_bounds hdistinct hp _ t (hperm.mem_iff.mp ht))
    (fun t ht => assign_bounds hdistinct hq _ t (hperm.mem_iff.mp ht)) hplace
  rw [← map_assign_vars hdistinct hp fun _ => 0, ← map_assign_vars hdistinct hq fun _ => 0]
  exact List.map_congr_left fun t ht => hsame t (hperm.mem_iff.mpr ht)

omit hdistinct in
theorem length_coordinates (hpos : ∀ t ∈ axes, 1 ≤ t.extent) : ((coordinates axes).length : Int) = size axes := by
  rw [coordinates, length_points, List.map_map]
  induction axes with
  | nil => rfl
  | cons t axes ih =>
    obtain ⟨ht, haxes⟩ := List.forall_mem_cons.mp hpos
    have hextent : ((ints 0 t.extent).length : Int) = t.extent := by
      rw [ints, List.length_map, List.length_range]
      omega
    rw [size_cons, ← ih haxes, List.map_cons, List.prod_cons, Int.natCast_mul]
    exact congrArg (· * _) hextent

/-- The threads have all numbers below their number, each of them once. -/
theorem map_rank (hpos : ∀ t ∈ axes, 1 ≤ t.extent) :
    ((coordinates axes).map (rank axes)).Perm (List.range (size axes).toNat) := by
  have hnodup : ((coordinates axes).map (rank axes)).Nodup :=
    List.Nodup.map_on (fun p hp q hq h => rank_injective hdistinct hp hq h) (nodup_coordinates axes)
  have hsub : ((coordinates axes).map (rank axes)) ⊆ List.range (size axes).toNat := by
    intro n hn
    obtain ⟨p, hp, rfl⟩ := List.mem_map.mp hn
    have := rank_lt hdistinct hp
    exact List.mem_range.mpr (by omega)
  refine (hnodup.subperm hsub).perm_of_length_le ?_
  have := length_coordinates hpos
  rw [List.length_range, List.length_map]
  omega

end Rank

end ThreadExtent

/-! ### The index expression -/

namespace Expr

variable {Γ : Context} {ρ : Valuation Int} {e : Expr} {m : Int} {op : BinOp}

/-- An integer beside an integer scalar becomes a constant of its type. -/
theorem Amounts.arith_int (hop : op.isLogical = false) (h : e.Amounts Γ ρ m) (n : Int) :
    Ensures (Expr.arith op e n) (Amounts Γ ρ · (op.onInts m n)) := by
  obtain ⟨t, ht, h⟩ := h
  rw [Expr.arith, operands_int ht h.dtype]
  exact ((h.fold (.arith hop ht) (evaluates_int ht n) False.elim).mono fun _ he => ⟨t, ht, he⟩).ensures

theorem Amounts.compare_int (hop : op.isComparison) (h : e.Amounts Γ ρ m) (n : Int) :
    Ensures (Expr.arith op e n) (Evaluates Γ [] False ρ .bool · (op.onInts m n)) := by
  obtain ⟨t, ht, h⟩ := h
  rw [Expr.arith, operands_int ht h.dtype]
  exact (h.fold (.compare hop) (evaluates_int ht n) False.elim).ensures

theorem ensures_ofInt (n : Int) : Ensures (ofInt n .int32) (Amounts Γ ρ · n) := by
  have hint : DataType.int32.IsIndex := ⟨rfl, rfl⟩
  exact ((Linear.gives_ofInt_evaluates hint n).mono fun _ he => ⟨.int32, hint, he⟩).ensures

end Expr

namespace ThreadExtent

variable {Γ : Context} {ρ : Valuation Int} {axes : List ThreadExtent}

/-- What is added up counts the threads of the axes so far, and those of the further axes in multiples of their number. -/
theorem ensures_foldlM_linearize {index : Expr} {m : Int} (hindex : index.Amounts Γ ρ m) (total : Int)
    (hvars : ∀ t ∈ axes, Γ t.axis.id = some t.axis.dtype) (htypes : ∀ t ∈ axes, t.axis.dtype.IsIndex) :
    Ensures (axes.foldlM (fun (r : Expr × Int) t => do
      let step ← Expr.mul (.expr (.var t.axis.var)) r.2
      return (← Expr.add r.1 step, r.2 * t.extent)) (index, total))
      fun r => r.1.Amounts Γ ρ (m + total * place axes ρ) ∧ r.2 = total * size axes := by
  induction axes generalizing index m total with
  | nil => exact ensures_ok ⟨by simpa [place] using hindex, by simp [size]⟩
  | cons t axes ih =>
    obtain ⟨hvar, hvars⟩ := List.forall_mem_cons.mp hvars
    obtain ⟨htype, htypes⟩ := List.forall_mem_cons.mp htypes
    have hcoordinate : (Expr.var t.axis.var).Amounts Γ ρ (ρ t.axis.id) := Expr.amounts_var hvar htype
    rw [List.foldlM_cons]
    refine Ensures.bind (P := fun r => r.1.Amounts Γ ρ (m + ρ t.axis.id * total) ∧ r.2 = total * t.extent) ?_ fun r hr => ?_
    · refine (hcoordinate.arith_int rfl total).bind fun step hstep => (hindex.arith rfl hstep).bind fun next hnext => ?_
      exact ensures_ok ⟨hnext, rfl⟩
    · obtain ⟨next, count⟩ := r
      obtain ⟨hnext, rfl⟩ := hr
      have hmore := ih hnext (total * t.extent) hvars htypes
      rwa [Int.add_assoc, Int.mul_comm (ρ t.axis.id), Int.mul_assoc, ← Int.mul_add, ← place, Int.mul_assoc,
        ← size_cons] at hmore

/-- The index and the number of the threads of some axes. -/
theorem ensures_linearize (hvars : ∀ t ∈ axes, Γ t.axis.id = some t.axis.dtype)
    (htypes : ∀ t ∈ axes, t.axis.dtype.IsIndex) :
    Ensures (linearize axes) fun r => r.1.Amounts Γ ρ (place (axes.mergeSort notSlower) ρ) ∧ r.2 = size axes := by
  have hperm := List.mergeSort_perm axes notSlower
  refine (Expr.ensures_ofInt (Γ := Γ) (ρ := ρ) 0).bind fun zero hzero => ?_
  refine (ensures_foldlM_linearize hzero 1 (fun t ht => hvars t (hperm.mem_iff.mp ht))
    fun t ht => htypes t (hperm.mem_iff.mp ht)).bind fun r hr => ?_
  obtain ⟨index, total⟩ := r
  obtain ⟨hindex, rfl⟩ := hr
  refine hindex.simplify.ensures.bind fun index' hindex' => ensures_ok ⟨?_, ?_⟩
  · simpa using hindex'
  · rw [Int.one_mul, size_perm hperm]

end ThreadExtent

end TensorNest

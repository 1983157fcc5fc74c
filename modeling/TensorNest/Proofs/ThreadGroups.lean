import TensorNest.Proofs.Exactness
import TensorNest.Proofs.Trees
import TensorNest.Proofs.TreeStatements

/-! # The groups of a reduction across threads

A thread of a reduction has coordinates along the axes that are reduced over and along the others. The threads with the
same coordinates along the others are a group, and a row of the buffer is theirs. Each thread has a cell of its own in
the row of its group (`ReductionThreads.Proper.slot_injective`), the rows of two groups have no cell in common
(`ReductionThreads.Proper.rows_disjoint`), and all cells are inside the buffer (`ReductionThreads.Proper.slot_bounds`).
The places that `Stmt.treeReduction` builds stand for these cells (`TreeParts.Built.places`).

What the values of the threads are after the steps of the tree (`ReductionThreads.value`) follows from the tree over the
row: in the end the first thread of a group has the combination of what its threads had
(`ReductionThreads.Proper.value_all`). -/

namespace TensorNest

open ThreadExtent

/-! ### The threads -/

namespace ReductionThreads

variable {V : Type} [Inhabited V] (threads : ReductionThreads)

/-- The axes that a reduction goes over, followed by the others. -/
def axes : List ThreadExtent :=
  threads.reduced ++ threads.group

/-- The threads, by their coordinates along the axes that the reduction goes over and by those along the others. The threads
    with the same coordinates along the others are a group. -/
def all : List (List Int × List Int) :=
  coordinates threads.reduced ×ˢ coordinates threads.group

/-- The number of threads of a group. -/
def length : Nat :=
  (size threads.reduced).toNat

/-- Where the row of a group starts. -/
def start (q : List Int) : Int :=
  rank threads.group q * size threads.reduced

/-- The cell of a thread. -/
def slot (i : List Int × List Int) : Int :=
  threads.start i.2 + rank threads.reduced i.1

/-- The variables of the axes have the coordinates of a thread as their values. -/
def numbers (i : List Int × List Int) : Valuation Int :=
  Valuation.assign (fun _ => 0) (vars threads.axes) (i.1 ++ i.2)

/-- The values of the variables for a thread. -/
def valuation (R : FaithfulReading V) (π : Valuation V) (i : List Int × List Int) : Valuation V :=
  π.assign (vars threads.axes) ((i.1 ++ i.2).map R.index)

/-- The variables of the axes. -/
def context : Context :=
  Context.withAxes (fun _ => none) (threads.axes.map (·.axis))

/-- The axes differ from each other, have indices as coordinates and are not empty. -/
structure Proper : Prop where
  distinct : (threads.axes.map (·.axis.id)).Nodup
  types : ∀ t ∈ threads.axes, t.axis.dtype.IsIndex
  positive : ∀ t ∈ threads.axes, 1 ≤ t.extent

variable {threads} {i j : List Int × List Int} {q q' : List Int}

theorem mem_all : i ∈ threads.all ↔ i.1 ∈ coordinates threads.reduced ∧ i.2 ∈ coordinates threads.group :=
  List.mem_product

theorem nodup_all : threads.all.Nodup :=
  (nodup_coordinates _).product (nodup_coordinates _)

theorem numbers_eq (hi : i ∈ threads.all) : threads.numbers i =
    (Valuation.assign (fun _ => 0) (vars threads.reduced) i.1).assign (vars threads.group) i.2 := by
  have hvars : vars threads.axes =
    vars threads.reduced ++ vars threads.group := by rw [axes, vars, List.map_append, vars, vars]
  rw [numbers, hvars, Valuation.assign_append (length_of_mem_coordinates (mem_all.mp hi).1)]

/-- The variables of the axes stand for the coordinates of a thread. -/
theorem represents (R : FaithfulReading V) (π : Valuation V) (hi : i ∈ threads.all) :
    R.Represents threads.context (threads.numbers i) (threads.valuation R π i) := by
  have hnone : R.Represents (fun _ => none) (fun _ => 0) π := fun x hx => absurd rfl hx
  have hlength : (i.1 ++ i.2).length = (threads.axes.map (·.axis)).length := by
    obtain ⟨h1, h2⟩ := mem_all.mp hi
    have h1 := length_of_mem_coordinates h1
    have h2 := length_of_mem_coordinates h2
    rw [vars, List.length_map] at h1 h2
    rw [List.length_append, List.length_map, axes, List.length_append, h1, h2]
  have hboth := hnone.withAxes hlength
  rwa [List.map_map] at hboth

namespace Proper

variable (h : threads.Proper)
include h

theorem distinct_reduced : (threads.reduced.map (·.axis.id)).Nodup := by
  have := h.distinct
  rw [axes, List.map_append] at this
  exact this.of_append_left

theorem distinct_group : (threads.group.map (·.axis.id)).Nodup := by
  have := h.distinct
  rw [axes, List.map_append] at this
  exact this.of_append_right

theorem size_reduced : 0 < size threads.reduced :=
  size_pos fun t ht => h.positive t (List.mem_append_left _ ht)

theorem length_eq : (threads.length : Int) = size threads.reduced :=
  Int.toNat_of_nonneg (Int.le_of_lt h.size_reduced)

theorem length_pos : 0 < threads.length := by
  have := h.length_eq
  have := h.size_reduced
  omega

theorem rank_lt_length {p : List Int} (hp : p ∈ coordinates threads.reduced) : rank threads.reduced p < threads.length := by
  have := rank_lt h.distinct_reduced hp
  rw [← h.length_eq] at this
  omega

/-- Each place of a row belongs to a thread. -/
theorem exists_rank {n : Nat} (hn : n < threads.length) :
    ∃ p ∈ coordinates threads.reduced, rank threads.reduced p = n := by
  have hperm := map_rank h.distinct_reduced fun t ht => h.positive t (List.mem_append_left _ ht)
  exact List.mem_map.mp (hperm.mem_iff.mpr (List.mem_range.mpr hn))

/-- Threads have cells of their own. -/
theorem slot_injective (hi : i ∈ threads.all) (hj : j ∈ threads.all) (heq : threads.slot i = threads.slot j) : i = j := by
  obtain ⟨hi1, hi2⟩ := mem_all.mp hi
  obtain ⟨hj1, hj2⟩ := mem_all.mp hj
  have hlti := rank_lt h.distinct_reduced hi1
  have hltj := rank_lt h.distinct_reduced hj1
  obtain ⟨hrow, hplace⟩ := Region.eq_of_mul_add_eq (Int.natCast_nonneg _) hlti (Int.natCast_nonneg _) hltj heq
  exact Prod.ext (rank_injective h.distinct_reduced hi1 hj1 (Int.ofNat_inj.mp hplace))
    (rank_injective h.distinct_group hi2 hj2 (Int.ofNat_inj.mp hrow))

/-- Groups have rows of their own. -/
theorem rows_disjoint (hq : q ∈ coordinates threads.group) (hq' : q' ∈ coordinates threads.group) (hne : q ≠ q') :
    threads.start q + threads.length ≤ threads.start q' ∨ threads.start q' + threads.length ≤ threads.start q := by
  have hpos := h.size_reduced
  have hle : ∀ {m n : Nat}, m < n → (m : Int) * size threads.reduced + size threads.reduced ≤ n * size threads.reduced := by
    intro m n hmn
    have hnext : ((m : Int) + 1) * size threads.reduced ≤ n * size threads.reduced :=
      Int.mul_le_mul_of_nonneg_right (by omega) (by omega)
    rwa [Int.add_mul, Int.one_mul] at hnext
  rw [h.length_eq]
  obtain hlt | heq | hlt := Nat.lt_trichotomy (rank threads.group q) (rank threads.group q')
  · exact Or.inl (hle hlt)
  · exact absurd (rank_injective h.distinct_group hq hq' heq) hne
  · exact Or.inr (hle hlt)

/-- The cells of threads are those of a buffer with one cell for each thread. -/
theorem slot_bounds (hi : i ∈ threads.all) :
    0 ≤ threads.slot i ∧ threads.slot i < size threads.reduced * size threads.group := by
  obtain ⟨hi1, hi2⟩ := mem_all.mp hi
  have hpos := h.size_reduced
  have hplace := rank_lt h.distinct_reduced hi1
  have hrow := rank_lt h.distinct_group hi2
  have hend : (rank threads.group i.2 + 1 : Int) * size threads.reduced ≤ size threads.group * size threads.reduced :=
    Int.mul_le_mul_of_nonneg_right (by omega) (by omega)
  have hstart : 0 ≤ (rank threads.group i.2 : Int) * size threads.reduced := Int.mul_nonneg (by omega) (by omega)
  rw [Int.add_mul, Int.one_mul] at hend
  rw [slot, start, Int.mul_comm (size threads.reduced)]
  omega

theorem place_group (hi : i ∈ threads.all) :
    ThreadExtent.place (threads.group.mergeSort notSlower) (threads.numbers i) = rank threads.group i.2 := by
  rw [numbers_eq hi]
  exact place_assign h.distinct_group (mem_all.mp hi).2 _

theorem place_reduced (hi : i ∈ threads.all) :
    ThreadExtent.place (threads.reduced.mergeSort notSlower) (threads.numbers i) = rank threads.reduced i.1 := by
  rw [numbers_eq hi, ← place_assign h.distinct_reduced (mem_all.mp hi).1 fun _ => 0]
  refine place_congr fun t ht => Valuation.assign_of_not_mem (fun hmem => ?_) _ _
  have hdistinct := h.distinct
  rw [axes, List.map_append, List.nodup_append] at hdistinct
  rw [map_id_vars] at hmem
  exact hdistinct.2.2 _ (List.mem_map.mpr ⟨t, (List.mergeSort_perm _ _).mem_iff.mp ht, rfl⟩) _ hmem rfl

theorem context_eq (t : ThreadExtent) (ht : t ∈ threads.axes) : threads.context t.axis.id = some t.axis.dtype := by
  refine withAxes_of_mem ?_ (List.mem_map_of_mem ht)
  rw [List.map_map]
  exact h.distinct

end Proper

end ReductionThreads

/-! ### The places of the threads -/

namespace TreeParts.Built

variable {threads : ReductionThreads} {p : TreeParts} {combiner : Reducer} {value cond identity result : Expr}
  {buffer : Var}
  {i : List Int × List Int} (h : p.Built threads combiner value cond identity result buffer) (hproper : threads.Proper)
include h hproper

theorem reduced_eq (ρ : Valuation Int) :
    p.index.Amounts threads.context ρ (ThreadExtent.place (threads.reduced.mergeSort notSlower) ρ) ∧
    p.length = ThreadExtent.size threads.reduced :=
  ensures_linearize (fun t ht => hproper.context_eq t (List.mem_append_left _ ht))
    (fun t ht => hproper.types t (List.mem_append_left _ ht)) _ h.index

theorem group_eq (ρ : Valuation Int) :
    p.group.Amounts threads.context ρ (ThreadExtent.place (threads.group.mergeSort notSlower) ρ) ∧
    p.groups = ThreadExtent.size threads.group :=
  ensures_linearize (fun t ht => hproper.context_eq t (List.mem_append_right _ ht))
    (fun t ht => hproper.types t (List.mem_append_right _ ht)) _ h.group

theorem length_eq : p.length = threads.length := by
  rw [hproper.length_eq]
  exact (h.reduced_eq hproper fun _ => 0).2

theorem groups_eq : p.groups = ThreadExtent.size threads.group :=
  (h.group_eq hproper fun _ => 0).2

/-- A row is not longer than the power of two that the steps start from. -/
theorem length_le : threads.length ≤ 2 ^ p.width.log2 := by
  have hwidth := h.width
  have hpos := hproper.length_pos
  rw [h.length_eq hproper, nextPow2, if_neg (by omega), Nat.pow_eq] at hwidth
  obtain hwidth := Except.ok.inj hwidth
  rw [← hwidth, Nat.log2_two_pow]
  by_cases hone : (threads.length : Int) = 1
  · rw [if_pos hone]
    omega
  · rw [if_neg hone, Int.toNat_natCast]
    have := Nat.lt_log2_self (n := threads.length - 1)
    omega

/-- The expressions for the places of a thread stand for its row, its cell and its place in the row. -/
theorem places (hi : i ∈ threads.all) :
    (p.row buffer result.dtype).Places threads.context (threads.numbers i) (threads.start i.2)
    (rank threads.reduced i.1) := by
  obtain ⟨hindex, hlength⟩ := h.reduced_eq hproper (threads.numbers i)
  obtain ⟨hgroup, -⟩ := h.group_eq hproper (threads.numbers i)
  rw [hproper.place_reduced hi] at hindex
  rw [hproper.place_group hi] at hgroup
  have hbase : p.base.Amounts threads.context (threads.numbers i) (threads.start i.2) := by
    have hproduct : Ensures (Expr.mul p.group p.length)
      (Expr.Amounts threads.context (threads.numbers i) · (threads.start i.2)) := by
      rw [ReductionThreads.start, ← hlength]
      exact hgroup.arith_int rfl p.length
    exact (hproduct.bind fun e he => he.simplify.ensures) _ h.base
  have hsum : Ensures (Expr.add p.base p.index) (Expr.Amounts threads.context (threads.numbers i) · (threads.slot i)) :=
    hbase.arith rfl hindex
  exact ⟨hbase, (hsum.bind fun e he => he.simplify.ensures) _ h.slot, hindex⟩

end TreeParts.Built

/-! ### The values of the threads -/

namespace ReductionThreads

variable {V : Type} {threads : ReductionThreads} {op : V → V → V} {initial : List Int × List Int → V} {k r : Nat}
  {i : List Int × List Int} {p q : List Int}

/-- The coordinates that give a place in a row. -/
def member (threads : ReductionThreads) (n : Nat) : List Int :=
  ((coordinates threads.reduced).find? fun p => rank threads.reduced p == n).getD []

/-- The thread of the same group some places further in the row. -/
def further (threads : ReductionThreads) (i : List Int × List Int) (d : Nat) : List Int × List Int :=
  (threads.member (rank threads.reduced i.1 + d), i.2)

/-- The value of a thread after `r` of the `k` steps of a tree. -/
def value (threads : ReductionThreads) (op : V → V → V) (initial : List Int × List Int → V) (k r : Nat)
    (i : List Int × List Int) : V :=
  halved op threads.length k (fun n => initial (threads.member n, i.2)) r (rank threads.reduced i.1)

section Value
variable (h : threads.Proper)
include h

theorem Proper.member_mem {n : Nat} (hn : n < threads.length) :
    threads.member n ∈ coordinates threads.reduced ∧ rank threads.reduced (threads.member n) = n := by
  obtain ⟨p, hp, hrank⟩ := h.exists_rank hn
  obtain ⟨p', hfind⟩ := Option.isSome_iff_exists.mp
    (List.find?_isSome (p := fun p => rank threads.reduced p == n) |>.mpr ⟨p, hp, beq_iff_eq.mpr hrank⟩)
  rw [member, hfind, Option.getD_some]
  exact ⟨List.mem_of_find?_eq_some hfind, by simpa using List.find?_some hfind⟩

theorem Proper.member_rank (hp : p ∈ coordinates threads.reduced) : threads.member (rank threads.reduced p) = p := by
  obtain ⟨hmem, hrank⟩ := h.member_mem (h.rank_lt_length hp)
  exact rank_injective h.distinct_reduced hmem hp hrank

theorem Proper.value_zero (hi : i ∈ threads.all) : threads.value op initial k 0 i = initial i :=
  congrArg (fun p => initial (p, i.2)) (h.member_rank (mem_all.mp hi).1)

theorem Proper.further_mem {d : Nat} (hi : i ∈ threads.all) (hd : rank threads.reduced i.1 + d < threads.length) :
    threads.further i d ∈ threads.all ∧ rank threads.reduced (threads.further i d).1 = rank threads.reduced i.1 + d ∧
      threads.slot (threads.further i d) = threads.slot i + d := by
  obtain ⟨hmem, hrank⟩ := h.member_mem hd
  refine ⟨mem_all.mpr ⟨hmem, (mem_all.mp hi).2⟩, hrank, ?_⟩
  have hslot : threads.slot (threads.further i d) = threads.start i.2 + (rank threads.reduced i.1 + d : Nat) :=
    congrArg (fun n : Nat => threads.start i.2 + n) hrank
  rw [hslot, slot, Int.natCast_add, Int.add_assoc]

/-- A thread that is active in a step takes the value of another one as well. -/
theorem Proper.value_active {d : Nat} (hd : d = 2 ^ (k - (r + 1)))
    (hactive : rank threads.reduced i.1 < d ∧ rank threads.reduced i.1 + d < threads.length) :
    threads.value op initial k (r + 1) i = op (threads.value op initial k r i)
      (threads.value op initial k r (threads.further i d)) := by
  subst hd
  rw [value, halved, halve, if_pos hactive, value, value, further, (h.member_mem hactive.2).2]

omit h in
theorem value_inactive {d : Nat} (hd : d = 2 ^ (k - (r + 1)))
    (hinactive : ¬(rank threads.reduced i.1 < d ∧ rank threads.reduced i.1 + d < threads.length)) :
    threads.value op initial k (r + 1) i = threads.value op initial k r i := by
  subst hd
  rw [value, halved, halve, if_neg hinactive, value]

/-- In the end the first thread of a group has the combination of the values of all. -/
theorem Proper.value_all [Std.Associative op] [Std.Commutative op] (hk : threads.length ≤ 2 ^ k) (q : List Int) :
    some (threads.value op initial k k (threads.member 0, q)) =
      combination op ((coordinates threads.reduced).map fun p => initial (p, q)) := by
  have hperm := map_rank h.distinct_reduced fun t ht => h.positive t (List.mem_append_left _ ht)
  have hvalues : ((coordinates threads.reduced).map (rank threads.reduced)).map (fun n => initial (threads.member n, q)) =
      (coordinates threads.reduced).map fun p => initial (p, q) := by
    rw [List.map_map]
    exact List.map_congr_left fun p hp => congrArg (fun p => initial (p, q)) (h.member_rank hp)
  calc some (threads.value op initial k k (threads.member 0, q)) =
        some (halved op threads.length k (fun n => initial (threads.member n, q)) k 0) := by
        rw [value, (h.member_mem h.length_pos).2]
    _ = combination op ((List.range threads.length).map fun n => initial (threads.member n, q)) :=
      halved_all hk h.length_pos
    _ = combination op ((coordinates threads.reduced).map fun p => initial (p, q)) := by
        rw [← hvalues]
        exact combination_perm (hperm.map _).symm

end Value

end ReductionThreads

end TensorNest

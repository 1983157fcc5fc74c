import Mathlib.Algebra.Group.Nat.Defs
import Mathlib.Data.List.Nodup
import Mathlib.Data.List.Perm.Basic

/-! # Trees over rows of values

A row of values is combined by halving: with `d = 2 ^ j`, from a power of two that the row fits into down to 1, each of
the first `d` places takes the value `d` places further as well, if the row is that long. Before the step for `d` place
`n` holds the combination of the values whose places are `n` modulo `2 * d`, and after it of those whose places are `n`
modulo `d` (`halved_eq`). So the first place holds that of all values in the end, whatever the length of the row is
(`halved_all`). -/

namespace TensorNest

variable {V : Type} {op : V → V → V}

/-- The combination of values, each of them taken once. There is none of no values. -/
def combination (op : V → V → V) (xs : List V) : Option V :=
  (xs.map some).foldl (Option.merge op) none

section Combination
variable {xs ys : List V}

@[simp] theorem combination_singleton (x : V) : combination op [x] = some x := rfl

/-- The order of the values does not matter. -/
theorem combination_perm [Std.Associative op] [Std.Commutative op] (h : xs.Perm ys) :
    combination op xs = combination op ys :=
  (h.map some).foldl_op_eq

theorem combination_append [Std.Associative op] (xs ys : List V) :
    combination op (xs ++ ys) = Option.merge op (combination op xs) (combination op ys) := by
  calc combination op (xs ++ ys) = (ys.map some).foldl (Option.merge op) (combination op xs) := by
        rw [combination, List.map_append, List.foldl_append, combination]
    _ = (ys.map some).foldl (Option.merge op) (Option.merge op (combination op xs) none) := by rw [Option.merge_none_right]
    _ = Option.merge op (combination op xs) (combination op ys) := List.foldl_assoc

end Combination

/-- A step over a row: the first `d` places take the value `d` places further as well. -/
def halve (op : V → V → V) (length d : Nat) (c : Nat → V) (n : Nat) : V :=
  if n < d ∧ n + d < length then op (c n) (c (n + d)) else c n

/-- A row after the first `r` of the `k` steps. -/
def halved (op : V → V → V) (length k : Nat) (c : Nat → V) : Nat → Nat → V
  | 0 => c
  | r + 1 => halve op length (2 ^ (k - (r + 1))) (halved op length k c r)

/-- The places of a row that are some number modulo another one. -/
def strided (length d n : Nat) : List Nat :=
  (List.range length).filter (· % d = n)

section Strided
variable {length d n m : Nat}

theorem mem_strided : m ∈ strided length d n ↔ m < length ∧ m % d = n := by
  simp [strided]

theorem nodup_strided : (strided length d n).Nodup :=
  List.nodup_range.filter _

theorem strided_one : strided length 1 0 = List.range length :=
  List.filter_eq_self.mpr fun m _ => decide_eq_true (Nat.mod_one m)

/-- In a row that is not longer than the stride each place is alone. -/
theorem strided_of_le (hlength : length ≤ d) (hn : n < length) : (strided length d n).Perm [n] := by
  refine (List.perm_ext_iff_of_nodup nodup_strided (List.nodup_singleton n)).mpr fun m => ?_
  rw [mem_strided, List.mem_singleton]
  constructor
  · rintro ⟨hm, hmod⟩
    rwa [Nat.mod_eq_of_lt (Nat.lt_of_lt_of_le hm hlength)] at hmod
  · rintro rfl
    exact ⟨hn, Nat.mod_eq_of_lt (Nat.lt_of_lt_of_le hn hlength)⟩

/-- A number modulo `d` is one of two modulo `2 * d`. -/
theorem mod_eq_iff_mod_double (hn : n < d) : m % d = n ↔ m % (2 * d) = n ∨ m % (2 * d) = n + d := by
  have hdiv : m % (2 * d) % d = m % d := Nat.mod_mod_of_dvd m (Nat.dvd_mul_left d 2)
  have hlt : m % (2 * d) < 2 * d := Nat.mod_lt m (by omega)
  by_cases hsmall : m % (2 * d) < d
  · rw [Nat.mod_eq_of_lt hsmall] at hdiv
    omega
  · have hrest : m % (2 * d) % d = m % (2 * d) - d := by
      rw [Nat.mod_eq_sub_mod (Nat.not_lt.mp hsmall), Nat.mod_eq_of_lt (by omega)]
    omega

theorem strided_halve (hn : n < d) :
    (strided length d n).Perm (strided length (2 * d) n ++ strided length (2 * d) (n + d)) := by
  have hdisjoint : (strided length (2 * d) n).Disjoint (strided length (2 * d) (n + d)) := by
    intro m hm hm'
    have := (mem_strided.mp hm).2.symm.trans (mem_strided.mp hm').2
    omega
  refine (List.perm_ext_iff_of_nodup nodup_strided (nodup_strided.append nodup_strided hdisjoint)).mpr fun m => ?_
  rw [List.mem_append, mem_strided, mem_strided, mem_strided, mod_eq_iff_mod_double hn, and_or_left]

theorem strided_beyond (h : length ≤ n) : strided length d n = [] := by
  refine List.eq_nil_iff_forall_not_mem.mpr fun m hm => ?_
  obtain ⟨hm, hmod⟩ := mem_strided.mp hm
  have := Nat.mod_le m d
  omega

end Strided

section Halving
variable [Std.Associative op] [Std.Commutative op] {length k r n : Nat} {c : Nat → V}

/-- The first places hold the combinations of the values at their distance, which is halved in each step. -/
theorem halved_eq (hlength : length ≤ 2 ^ k) (hr : r ≤ k) (hn : n < 2 ^ (k - r)) (hnl : n < length) :
    some (halved op length k c r n) = combination op ((strided length (2 ^ (k - r)) n).map c) := by
  induction r generalizing n with
  | zero =>
    rw [Nat.sub_zero, combination_perm ((strided_of_le hlength hnl).map c)]
    exact (combination_singleton (c n)).symm
  | succ r ih =>
    have hdouble : 2 * 2 ^ (k - (r + 1)) = 2 ^ (k - r) := by
      rw [← Nat.pow_succ', ← Nat.sub_sub, Nat.succ_eq_add_one, Nat.sub_add_cancel (by omega)]
    have hhere := ih (n := n) (by omega) (by omega) hnl
    rw [combination_perm ((strided_halve hn).map c), List.map_append, combination_append, hdouble, ← hhere, halved, halve]
    by_cases hfurther : n + 2 ^ (k - (r + 1)) < length
    · rw [if_pos ⟨hn, hfurther⟩, ← ih (by omega) (by omega) hfurther]
      rfl
    · rw [if_neg fun h => hfurther h.2, strided_beyond (Nat.not_lt.mp hfurther)]
      rfl

/-- In the end the first place holds the combination of all values. -/
theorem halved_all (hlength : length ≤ 2 ^ k) (hpos : 0 < length) :
    some (halved op length k c k 0) = combination op ((List.range length).map c) := by
  have hone : 2 ^ (k - k) = 1 := by rw [Nat.sub_self, Nat.pow_zero]
  rw [halved_eq hlength (Nat.le_refl k) (by omega) hpos, hone, strided_one]

end Halving

/-- A row of three values: the first of its two steps adds the third to the first, and the second step the second. -/
example : (List.range 3).map (halved (· + ·) 3 2 (fun n => [5, 7, 11][n]!) 2) = [23, 7, 11] := by decide

end TensorNest

import Mathlib.Algebra.Ring.Int.Defs
import Mathlib.Order.Bounds.Basic
import Mathlib.Order.MinMax
import TensorNest.Lowering.Launch
import TensorNest.Proofs.Locality
import TensorNest.Proofs.Queries

/-! # The axes of a launch

A launch has one axis for each tag of its thread regions, whose extent is the maximum of the extents of the
regions of the tag. If the extents are index arithmetic with values on the host, the value of this maximum is
the greatest one (`LaunchAxes.collects_ofStmt`). -/

namespace TensorNest

open Run

theorem Run.eq_pure {α : Type} {x : Run α} {a : α} (h : ∀ m, on x m = (.ok a, m)) : x = pure a := funext h

/-! ### Values that do not depend on memory -/

theorem holds_int32_iff {n : Int} : (ElemType.int 32).holds n ↔ -2 ^ 31 ≤ n ∧ n < 2 ^ 31 := by
  have hhalf : (Nat.pow 2 (32 - 1) : Nat) = 2 ^ 31 := rfl
  simp only [ElemType.holds, ElemType.least, ElemType.greatest, hhalf, Bool.and_eq_true, decide_eq_true_eq]
  omega

theorem wrap_int32 {n : Int} (h : (ElemType.int 32).holds n) : (ElemType.int 32).wrap n = n := by
  have hpow : Nat.pow 2 32 = 2 ^ 32 := rfl
  obtain ⟨hlower, hupper⟩ := holds_int32_iff.mp h
  rw [ElemType.wrap, hpow]
  exact Int.bmod_eq_of_le (by omega) (by omega)

namespace Expr

variable {env env' : Env} {e a b : Expr} {x : Value} {m n : Int}

/-- An expression has a value, whichever function asks for it and whatever is in memory. -/
def HasValue (env : Env) (e : Expr) (x : Value) : Prop :=
  ∀ f : Frame, e.eval f env = pure x

/-- The value of an expression is an integer of type `int32`. -/
def HasInt (env : Env) (e : Expr) (n : Int) : Prop :=
  e.HasValue env (.int32 n) ∧ (ElemType.int 32).holds n

theorem HasValue.congr (h : e.HasValue env x) (henv : ∀ i ∈ e.freeIds, env'.lookup i = env.lookup i) :
    e.HasValue env' x := by
  intro f
  have hsame := (eval_alike (f := f) (u := f.missing) (c := f.coords) fun i hi => ⟨henv i hi, fun hD => absurd rfl hD⟩).1
  exact hsame.trans (h f)

theorem HasValue.unique {y : Value} (h : e.HasValue env x) (h' : e.HasValue env y) : x = y := by
  let f : Frame := { name := "", call := fun _ _ => pure () }
  have hsame : on (pure x) { memory := #[] } = on (pure y) { memory := #[] } := by rw [← h f, h' f]
  injection hsame with hx
  exact Except.ok.inj hx

theorem hasInt_int32 (h : (ElemType.int 32).holds n) : (Expr.int32 n).HasInt env n := by
  refine ⟨fun f => eq_pure fun m => ?_, h⟩
  have hconst : Settles ((Expr.int32 n).eval f env) m _ := settles_const QueryType.int32 n
  rw [if_pos h] at hconst
  exact hconst m (.refl m)

theorem hasInt_const {k : Int} (h : (const (.int n) .int32).HasInt env k) : n = k := by
  obtain ⟨h, hk⟩ := h
  let f : Frame := { name := "", call := fun _ _ => pure () }
  have hsettles : Settles ((const (.int n) .int32).eval f env) { memory := #[] } _ := settles_const QueryType.int32 n
  have hconst := hsettles _ (.refl _)
  rw [h f] at hconst
  split at hconst
  · cases hconst
    rfl
  · cases hconst

theorem combine_max (hm : (ElemType.int 32).holds m) (hn : (ElemType.int 32).holds n) :
    combine .max .int32 (.int32 m) (.int32 n) = pure (.int32 (max m n)) := by
  have hholds : (ElemType.int 32).holds (max m n) := by
    rcases max_choice m n with h | h <;> rwa [h]
  have hmax : (ElemType.int 32).max (.int ((ElemType.int 32).wrap m)) (.int ((ElemType.int 32).wrap n)) =
    .ok (.int (max m n)) := by
    have hgreater : (if n < m then m else n) = max m n := by
      split <;> omega
    rw [wrap_int32 hm, wrap_int32 hn]
    simp only [ElemType.max, ElemType.lift, hgreater, wrap_int32 hholds]
  have hcombine : combine .max .int32 (.int32 m) (.int32 n) =
      (liftM (Numeric.typed (.int 32) <$> (Packed.one <$>
        (ElemType.int 32).max (.int ((ElemType.int 32).wrap m)) (.int ((ElemType.int 32).wrap n)))) : Run Numeric) >>=
          fun v => convertTo .int32 (.ofNumeric v) := rfl
  have hconvert : convertTo .int32 (.int32 (max m n)) = pure (.int32 ((ElemType.int 32).wrap (max m n))) := rfl
  rw [hcombine, hmax]
  show convertTo .int32 (.int32 (max m n)) = _
  rw [hconvert, wrap_int32 hholds]

/-- The maximum of index arithmetic. -/
theorem hasInt_maximum (ha : a.Index .int32) (hb : b.Index .int32) (hm : a.HasInt env m) (hn : b.HasInt env n)
    (h : maximum a b = .ok e) : e.Index .int32 ∧ e.HasInt env (max m n) := by
  have hindex : (bin .max a b).Index .int32 := .bin rfl ha hb
  have hholds : (ElemType.int 32).holds (max m n) := by
    rcases max_choice m n with h | h <;> rw [h]
    · exact hm.2
    · exact hn.2
  rw [maximum, arith, operands_of_dtype ha.dtype hb.dtype] at h
  change fold .max a b = .ok e at h
  unfold fold at h
  split at h
  · cases ha with | const k
    cases hb with | const l
    have hmax : (Number.int k).max (.int l) = .int (max k l) := by
      have hcompare : (Number.int k).max (.int l) = if compare k l = .lt then .int l else .int k := by
        simp only [Number.max, Number.lt, Number.order?, Number.asInt?, Option.some_beq_some, beq_iff_eq]
      rw [hcompare]
      split
      · rename_i hlt
        rw [max_eq_right (Int.le_of_lt (compare_lt_iff_lt.mp hlt))]
      · rename_i hlt
        rw [max_eq_left (not_lt.mp fun h => hlt (compare_lt_iff_lt.mpr h))]
    obtain rfl := hasInt_const hm
    obtain rfl := hasInt_const hn
    change ofNumber ((Number.int k).max (.int l)) _ = _ at h
    rw [hmax] at h
    cases h
    exact ⟨.const _, hasInt_int32 hholds⟩
  · cases h
    refine ⟨hindex, fun f => ?_, hholds⟩
    simp only [eval, hm.1 f, hn.1 f, pure_bind, ha.dtype, combine_max hm.2 hn.2]

end Expr

/-! ### The axes of a launch -/

namespace LaunchAxes

variable {axes axes' : LaunchAxes} {iv : IterVar} {extent : Expr} {rs : List (IterVar × Expr)}

/-- The tag of a region is among the tags after it is added, once. -/
theorem map_insert (h : axes.insert iv extent = .ok axes') :
    axes'.map (·.1) = if iv.tag ∈ axes.map (·.1) then axes.map (·.1) else axes.map (·.1) ++ [iv.tag] := by
  induction axes generalizing axes' with
  | nil =>
    cases h
    rfl
  | cons a axes ih =>
    obtain ⟨tag, axis, e⟩ := a
    rw [insert] at h
    split at h
    · rename_i htag
      obtain ⟨e', -, heq⟩ := bind_eq_ok.mp h
      cases heq
      simp [beq_iff_eq.mp htag]
    · rename_i htag
      obtain ⟨rest, hrest, heq⟩ := bind_eq_ok.mp h
      cases heq
      have hne : iv.tag ≠ tag := fun heq => htag (beq_iff_eq.mpr heq.symm)
      rw [List.map_cons, ih hrest, List.map_cons]
      by_cases hmem : iv.tag ∈ axes.map (·.1)
      · rw [if_pos hmem, if_pos (List.mem_cons_of_mem _ hmem)]
      · rw [if_neg hmem, if_neg (by simp [hne, hmem]), List.cons_append]

/-- What is there after a region is added was there and has another tag, is new, or is of the same tag with the maximum
    of the extents. -/
theorem mem_insert (hnodup : (axes.map (·.1)).Nodup) (h : axes.insert iv extent = .ok axes') {a : String × IterVar × Expr}
    (ha : a ∈ axes') : a ∈ axes ∧ a.1 ≠ iv.tag ∨ iv.tag ∉ axes.map (·.1) ∧ a = (iv.tag, iv, extent) ∨
      ∃ axis, ∃ e e' : Expr, (iv.tag, axis, e) ∈ axes ∧ Expr.maximum e extent = .ok e' ∧ a = (iv.tag, axis, e') := by
  induction axes generalizing axes' with
  | nil =>
    cases h
    exact Or.inr (Or.inl ⟨List.not_mem_nil, List.mem_singleton.mp ha⟩)
  | cons b axes ih =>
    obtain ⟨tag, axis, e⟩ := b
    obtain ⟨hfresh, hrest⟩ := List.nodup_cons.mp hnodup
    rw [insert] at h
    split at h
    · rename_i htag
      obtain rfl := beq_iff_eq.mp htag
      obtain ⟨e', he', heq⟩ := bind_eq_ok.mp h
      cases heq
      rcases List.mem_cons.mp ha with rfl | ha
      · exact Or.inr (Or.inr ⟨axis, e, e', List.mem_cons_self, he', rfl⟩)
      · refine Or.inl ⟨List.mem_cons_of_mem _ ha, fun heq => hfresh ?_⟩
        show iv.tag ∈ axes.map (·.1)
        rw [← heq]
        exact List.mem_map_of_mem ha
    · rename_i htag
      obtain ⟨rest, hins, heq⟩ := bind_eq_ok.mp h
      cases heq
      have hne : tag ≠ iv.tag := fun heq => htag (beq_iff_eq.mpr heq)
      rcases List.mem_cons.mp ha with rfl | ha
      · exact Or.inl ⟨List.mem_cons_self, hne⟩
      · rcases ih hrest hins ha with ⟨ha, hne⟩ | ⟨hmem, rfl⟩ | ⟨axis', e₁, e', hold, he', rfl⟩
        · exact Or.inl ⟨List.mem_cons_of_mem _ ha, hne⟩
        · exact Or.inr (Or.inl ⟨by simp [hne.symm, hmem], rfl⟩)
        · exact Or.inr (Or.inr ⟨axis', e₁, e', List.mem_cons_of_mem _ hold, he', rfl⟩)

/-- The values of the extents of the thread regions of a tag. -/
def values (env : Env) (rs : List (IterVar × Expr)) (tag : String) : Set Int :=
  {n | ∃ r ∈ rs, r.1.tag = tag ∧ r.2.HasInt env n}

theorem values_subset {env : Env} {rs' : List (IterVar × Expr)} (h : rs ⊆ rs') (tag : String) :
    values env rs tag ⊆ values env rs' tag :=
  fun _ ⟨r, hr, hn⟩ => ⟨r, h hr, hn⟩

theorem values_append {env : Env} {n : Int} (h : extent.HasInt env n) (tag : String) :
    values env (rs ++ [(iv, extent)]) tag =
    if tag = iv.tag then {n} ∪ values env rs tag else values env rs tag := by
  have hvalue : ∀ k, extent.HasInt env k ↔ k = n := fun k => by
    refine ⟨fun hk => ?_, fun hk => hk ▸ h⟩
    have heq := hk.1.unique h.1
    cases heq
    rfl
  ext k
  split <;> simp_all [values, or_and_right, exists_or, or_comm, eq_comm]

/-- What is collected from thread regions: one axis for each of their tags, with an extent that has the greatest value of
    the tag if all extents are index arithmetic with values. -/
structure Collects (rs : List (IterVar × Expr)) (axes : LaunchAxes) : Prop where
  nodup : (axes.map (·.1)).Nodup
  tag : ∀ a ∈ axes, a.2.1.tag = a.1
  complete : ∀ t, t ∈ axes.map (·.1) ↔ t ∈ rs.map (·.1.tag)
  greatest : ∀ env, (∀ r ∈ rs, r.2.Index .int32 ∧ ∃ n, r.2.HasInt env n) →
    ∀ a ∈ axes, a.2.2.Index .int32 ∧ ∃ n, a.2.2.HasInt env n ∧ IsGreatest (values env rs a.1) n

theorem Collects.insert (h : Collects rs axes) (hinsert : axes.insert iv extent = .ok axes') :
    Collects (rs ++ [(iv, extent)]) axes' := by
  refine ⟨?_, fun a ha => ?_, fun t => ?_, fun env hvalues a ha => ?_⟩
  · rw [map_insert hinsert]
    split
    · exact h.nodup
    · rename_i hmem
      exact List.nodup_append.mpr ⟨h.nodup, by simp, fun t ht u hu heq => hmem (List.mem_singleton.mp hu ▸ heq ▸ ht)⟩
  · rcases mem_insert h.nodup hinsert ha with ⟨ha, -⟩ | ⟨-, rfl⟩ | ⟨axis, e, e', hold, -, rfl⟩
    · exact h.tag a ha
    · rfl
    · exact h.tag (iv.tag, axis, e) hold
  · rw [map_insert hinsert, List.map_append, List.mem_append, ← h.complete]
    split
    · rename_i hmem
      exact ⟨Or.inl, fun ht => ht.elim id fun ht => List.mem_singleton.mp ht ▸ hmem⟩
    · simp
  · obtain ⟨hrs, hnew⟩ := List.forall_mem_append.mp hvalues
    obtain ⟨hindex, n, hn⟩ := List.forall_mem_singleton.mp hnew
    rw [values_append hn]
    rcases mem_insert h.nodup hinsert ha with ⟨ha, hne⟩ | ⟨hmem, rfl⟩ | ⟨axis, e, e', hold, he', rfl⟩
    · rw [if_neg hne]
      exact h.greatest env hrs a ha
    · have hnone : values env rs iv.tag = ∅ := by
        refine Set.eq_empty_iff_forall_notMem.mpr fun k ⟨r, hr, htag, _⟩ => hmem ((h.complete _).mpr ?_)
        exact htag ▸ List.mem_map_of_mem hr
      rw [if_pos rfl, hnone, Set.union_empty]
      exact ⟨hindex, n, hn, isGreatest_singleton⟩
    · obtain ⟨he, k, hint, hk⟩ := h.greatest env hrs (iv.tag, axis, e) hold
      obtain ⟨hmax, hvalue⟩ := Expr.hasInt_maximum he hindex hint hn he'
      rw [if_pos rfl, max_comm] at *
      exact ⟨hmax, _, hvalue, isGreatest_singleton.union hk⟩

/-- The axes with that of one more thread region. -/
def add (axes : LaunchAxes) (r : IterVar × Expr) : Except Error LaunchAxes :=
  axes.insert r.1 r.2

theorem ofStmt_eq (s : Stmt) : ofStmt s = s.threadRegions.foldlM add [] := by
  rw [Stmt.threadRegions, List.foldlM_filterMap]
  unfold ofStmt
  congr 1
  funext axes t
  split
  · rfl
  · rename_i hother
    have hnone : t.threadRegion? = none := by
      unfold Stmt.threadRegion?
      split
      · exact absurd rfl (hother _ _ _)
      · rfl
    rw [hnone]

theorem Collects.foldlM (h : Collects rs axes) {rs' : List (IterVar × Expr)} (hfold : rs'.foldlM add axes = .ok axes') :
    Collects (rs ++ rs') axes' := by
  induction rs' generalizing rs axes with
  | nil =>
    cases hfold
    rwa [List.append_nil]
  | cons r rs' ih =>
    rw [List.foldlM_cons] at hfold
    obtain ⟨axes₁, hinsert, hrest⟩ := bind_eq_ok.mp hfold
    have hmore := ih (h.insert hinsert) hrest
    rwa [List.append_assoc] at hmore

theorem collects_ofStmt {s : Stmt} (h : ofStmt s = .ok axes) : Collects s.threadRegions axes := by
  rw [ofStmt_eq] at h
  have hnone : Collects [] [] := ⟨by simp, by simp, by simp, by simp⟩
  exact hnone.foldlM h

end LaunchAxes

end TensorNest

import TensorNest.Proofs.Derivation

/-! # Positions along axes

A relation ties the positions along the axes that it starts from to those along the axes that it derives
(`Relation.Ties`). Positions along the axes of an operation belong to positions along all axes, which they
determine (`Relation.exists_positions`, `Relation.Positions.eq_of_roots`). So do positions along the leaf axes:
what is computed back from them are the positions along all axes, as long as no split that covers more than its
axis leaves it (`Relation.positions_of_recovers`, `Relation.Positions.eq_of_recovers`). -/

namespace TensorNest

/-- A position along an axis is below the extent of the axis. -/
def IterVar.Within (E W : Nat → Int) (iv : IterVar) : Prop :=
  0 ≤ W iv.id ∧ W iv.id < E iv.id

namespace Relation

/-- What the extents of the axes of a relation are to each other: a split covers its axis, and a fused axis runs
    through the pairs of two axes. -/
def Covers (E : Nat → Int) : Relation → Prop
  | split parent outer inner _ _ => E parent.id ≤ E outer.id * E inner.id
  | fuse outer inner fused => E fused.id = E outer.id * E inner.id
  | rebase parent rebased => E rebased.id = E parent.id

/-- The positions along the axes of a relation belong together. -/
def Ties (E W : Nat → Int) : Relation → Prop
  | split parent outer inner _ _ => W parent.id = W outer.id * E inner.id + W inner.id
  | fuse outer inner fused => W fused.id = W outer.id * E inner.id + W inner.id
  | rebase parent rebased => W parent.id = W rebased.id

/-- The positions along the axes that a relation starts from are computed from those along the axes it derives. -/
def Recovers (E W : Nat → Int) : Relation → Prop
  | split parent outer inner _ _ => W parent.id = W outer.id * E inner.id + W inner.id
  | fuse outer inner fused => W outer.id = (W fused.id).tdiv (E inner.id) ∧ W inner.id = (W fused.id).tmod (E inner.id)
  | rebase parent rebased => W parent.id = W rebased.id

/-- The position along an axis that is split is below its extent, or the split covers nothing else. -/
def Guarded (E W : Nat → Int) : Relation → Prop
  | split parent outer inner _ _ => W parent.id < E parent.id ∨ E outer.id * E inner.id = E parent.id
  | _ => True

/-! ### One relation -/

variable {E W W' : Nat → Int} {r : Relation} {rs : List Relation} {roots : List IterVar}

/-- Two digits and the number that they make determine each other. -/
theorem digits_eq {o o' i i' b : Int} (hi : 0 ≤ i ∧ i < b) (hi' : 0 ≤ i' ∧ i' < b) (h : o * b + i = o' * b + i') :
    o = o' ∧ i = i' := by
  have hb : 0 < b := by omega
  have hunique {o i : Int} (hi : 0 ≤ i ∧ i < b) : (o * b + i) / b = o ∧ (o * b + i) % b = i :=
    (Int.ediv_emod_unique hb).mpr ⟨by rw [Int.mul_comm, Int.add_comm], hi⟩
  obtain ⟨hdiv, hmod⟩ := hunique (o := o) hi
  obtain ⟨hdiv', hmod'⟩ := hunique (o := o') hi'
  exact ⟨by rw [← hdiv, h, hdiv'], by rw [← hmod, h, hmod']⟩

/-- A number below the product of two extents makes two digits below them. -/
theorem digits_within {a b n : Int} (hb : 0 ≤ b) (hn : 0 ≤ n) (hlt : n < a * b) :
    (0 ≤ n / b ∧ n / b < a) ∧ (0 ≤ n % b ∧ n % b < b) ∧ n = n / b * b + n % b := by
  have hne : b ≠ 0 := by
    rintro rfl
    rw [Int.mul_zero] at hlt
    omega
  have hpos : 0 < b := by omega
  refine ⟨⟨Int.ediv_nonneg hn hb, (Int.ediv_lt_iff_lt_mul hpos).mpr hlt⟩, ?_, (Int.ediv_mul_add_emod n b).symm⟩
  exact ⟨Int.emod_nonneg n hne, Int.emod_lt_of_pos n hpos⟩

/-- Two digits below extents make a number below the product of these. -/
theorem number_within {a b o i : Int} (ho : 0 ≤ o ∧ o < a) (hi : 0 ≤ i ∧ i < b) :
    0 ≤ o * b + i ∧ o * b + i < a * b := by
  have hb : 0 ≤ b := by omega
  refine ⟨Int.add_nonneg (Int.mul_nonneg ho.1 hb) hi.1, ?_⟩
  calc o * b + i < o * b + b := Int.add_lt_add_left hi.2 _
    _ = (o + 1) * b := by rw [Int.add_mul, Int.one_mul]
    _ ≤ a * b := Int.mul_le_mul_of_nonneg_right (by omega) hb

/-- The positions along the axes that a relation starts from determine those along the axes that it derives. -/
theorem Ties.derived_eq (h : r.Ties E W) (h' : r.Ties E W') (hwithin : ∀ iv ∈ r.derived, iv.Within E W)
    (hwithin' : ∀ iv ∈ r.derived, iv.Within E W') (heq : ∀ iv ∈ r.sources, W iv.id = W' iv.id) :
    ∀ iv ∈ r.derived, W iv.id = W' iv.id := by
  cases r with
  | split parent outer inner factor nparts =>
    simp only [derived, sources, List.forall_mem_cons] at hwithin hwithin' heq ⊢
    obtain ⟨ho, hi⟩ := digits_eq hwithin.2.1 hwithin'.2.1 (h.symm.trans (heq.1.trans h'))
    exact ⟨ho, hi, List.forall_mem_nil _⟩
  | fuse outer inner fused =>
    simp only [derived, sources, List.forall_mem_cons] at heq ⊢
    refine ⟨?_, List.forall_mem_nil _⟩
    calc W fused.id = W outer.id * E inner.id + W inner.id := h
      _ = W' outer.id * E inner.id + W' inner.id := by rw [heq.1, heq.2.1]
      _ = W' fused.id := Eq.symm h'
  | rebase parent rebased =>
    simp only [derived, sources, List.forall_mem_cons] at heq ⊢
    exact ⟨Eq.symm h |>.trans (heq.1.trans h'), List.forall_mem_nil _⟩

/-- Positions belong together as long as they stay what they are along the axes of the relation. -/
theorem Ties.congr (h : r.Ties E W) (hsources : ∀ iv ∈ r.sources, W' iv.id = W iv.id)
    (hderived : ∀ iv ∈ r.derived, W' iv.id = W iv.id) : r.Ties E W' := by
  cases r with
  | split | fuse | rebase =>
    simp only [sources, derived, List.forall_mem_cons] at hsources hderived
    simpa only [Ties, hsources, hderived] using h

theorem Recovers.congr (h : r.Recovers E W) (hsources : ∀ iv ∈ r.sources, W' iv.id = W iv.id)
    (hderived : ∀ iv ∈ r.derived, W' iv.id = W iv.id) : r.Recovers E W' := by
  cases r with
  | split | fuse | rebase =>
    simp only [sources, derived, List.forall_mem_cons] at hsources hderived
    simpa only [Recovers, hsources, hderived] using h

/-- Positions below the extents of the axes that a relation starts from belong to positions below those of the axes
    that it derives. -/
theorem exists_ties (hcovers : r.Covers E) (hnonneg : ∀ iv ∈ r.derived, 0 ≤ E iv.id)
    (hdistinct : (r.derived.map (·.id)).Nodup) (hfresh : ∀ iv ∈ r.sources, ∀ jv ∈ r.derived, iv.id ≠ jv.id)
    (hwithin : ∀ iv ∈ r.sources, iv.Within E W) : ∃ W' : Nat → Int, (∀ x, (∀ iv ∈ r.derived, x ≠ iv.id) → W' x = W x) ∧
      (∀ iv ∈ r.derived, iv.Within E W') ∧ r.Ties E W' := by
  cases r with
  | split parent outer inner factor nparts =>
    simp only [derived, sources, List.forall_mem_cons] at hnonneg hfresh hwithin ⊢
    have hne : outer.id ≠ inner.id := by simpa [derived] using hdistinct
    have hlt : W parent.id < E outer.id * E inner.id := Int.lt_of_lt_of_le hwithin.1.2 hcovers
    obtain ⟨ho, hi, hnumber⟩ := digits_within hnonneg.2.1 hwithin.1.1 hlt
    refine ⟨Function.update (Function.update W outer.id (W parent.id / E inner.id)) inner.id (W parent.id % E inner.id),
      fun x hx => ?_, ⟨?_, ?_, List.forall_mem_nil _⟩, ?_⟩
    · rw [Function.update_of_ne hx.2.1, Function.update_of_ne hx.1]
    · rwa [IterVar.Within, Function.update_of_ne hne, Function.update_self]
    · rwa [IterVar.Within, Function.update_self]
    · rw [Ties, Function.update_self, Function.update_of_ne hne, Function.update_self,
        Function.update_of_ne hfresh.1.2.1, Function.update_of_ne hfresh.1.1]
      exact hnumber
  | fuse outer inner fused =>
    simp only [derived, sources, List.forall_mem_cons] at hfresh hwithin ⊢
    refine ⟨Function.update W fused.id (W outer.id * E inner.id + W inner.id), fun x hx => Function.update_of_ne hx.1 _ _,
      ⟨?_, List.forall_mem_nil _⟩, ?_⟩
    · rw [IterVar.Within, Function.update_self, show E fused.id = _ from hcovers]
      exact number_within hwithin.1 hwithin.2.1
    · rw [Ties, Function.update_self, Function.update_of_ne hfresh.1.1, Function.update_of_ne hfresh.2.1.1]
  | rebase parent rebased =>
    simp only [derived, sources, List.forall_mem_cons] at hfresh hwithin ⊢
    refine ⟨Function.update W rebased.id (W parent.id), fun x hx => Function.update_of_ne hx.1 _ _,
      ⟨?_, List.forall_mem_nil _⟩, ?_⟩
    · rw [IterVar.Within, Function.update_self, show E rebased.id = _ from hcovers]
      exact hwithin.1
    · rw [Ties, Function.update_self, Function.update_of_ne hfresh.1.1]

/-- Positions that are computed back from positions below the extents belong to these. They are below the extents
    themselves if no split leaves its axis. -/
theorem Recovers.ties (h : r.Recovers E W) (hcovers : r.Covers E) (hnonneg : ∀ iv ∈ r.sources, 0 ≤ E iv.id)
    (hguarded : r.Guarded E W) (hwithin : ∀ iv ∈ r.derived, iv.Within E W) :
    r.Ties E W ∧ ∀ iv ∈ r.sources, iv.Within E W := by
  cases r with
  | split parent outer inner factor nparts =>
    simp only [derived, sources, List.forall_mem_cons] at hwithin ⊢
    obtain ⟨hpos, hlt⟩ := number_within hwithin.1 hwithin.2.1
    rw [← show W parent.id = _ from h] at hpos hlt
    refine ⟨h, ⟨hpos, ?_⟩, List.forall_mem_nil _⟩
    obtain hguard | hexact := hguarded
    · exact hguard
    · rwa [hexact] at hlt
  | fuse outer inner fused =>
    simp only [derived, sources, List.forall_mem_cons] at hnonneg hwithin ⊢
    obtain ⟨ho, hi⟩ := h
    obtain ⟨hpos, hlt⟩ := hwithin.1
    rw [show E fused.id = _ from hcovers] at hlt
    rw [Int.tdiv_eq_ediv_of_nonneg hpos] at ho
    rw [Int.tmod_eq_emod_of_nonneg hpos] at hi
    obtain ⟨hwo, hwi, hnumber⟩ := digits_within hnonneg.2.1 hpos hlt
    rw [← ho] at hwo hnumber
    rw [← hi] at hwi hnumber
    exact ⟨hnumber, hwo, hwi, List.forall_mem_nil _⟩
  | rebase parent rebased =>
    simp only [derived, sources, List.forall_mem_cons] at hwithin ⊢
    refine ⟨h, ?_, List.forall_mem_nil _⟩
    rw [IterVar.Within, show W parent.id = _ from h, ← show E rebased.id = _ from hcovers]
    exact hwithin.1

/-- What is computed back from positions along the axes that a relation derives are the positions that they belong
    to. -/
theorem Recovers.sources_eq (h : r.Recovers E W') (hties : r.Ties E W) (hwithin : ∀ iv ∈ r.sources, iv.Within E W)
    (heq : ∀ iv ∈ r.derived, W' iv.id = W iv.id) : ∀ iv ∈ r.sources, W' iv.id = W iv.id := by
  cases r with
  | split parent outer inner factor nparts =>
    simp only [derived, sources, List.forall_mem_cons] at heq ⊢
    refine ⟨?_, List.forall_mem_nil _⟩
    rw [show W' parent.id = _ from h, heq.1, heq.2.1]
    exact Eq.symm hties
  | fuse outer inner fused =>
    simp only [derived, sources, List.forall_mem_cons] at hwithin heq ⊢
    obtain ⟨ho, hi⟩ := h
    obtain ⟨hwo, hwi, -⟩ := hwithin
    have hpos : 0 < E inner.id := Int.lt_of_le_of_lt hwi.1 hwi.2
    have hfused : 0 ≤ W fused.id := by
      rw [show W fused.id = _ from hties]
      exact (number_within hwo hwi).1
    obtain ⟨hdiv, hmod⟩ : W fused.id / E inner.id = W outer.id ∧ W fused.id % E inner.id = W inner.id :=
      (Int.ediv_emod_unique hpos).mpr ⟨by rw [Int.mul_comm, Int.add_comm]; exact Eq.symm hties, hwi⟩
    rw [heq.1, Int.tdiv_eq_ediv_of_nonneg hfused, hdiv] at ho
    rw [heq.1, Int.tmod_eq_emod_of_nonneg hfused, hmod] at hi
    exact ⟨ho, hi, List.forall_mem_nil _⟩
  | rebase parent rebased =>
    simp only [derived, sources, List.forall_mem_cons] at heq ⊢
    exact ⟨(show W' parent.id = _ from h).trans (heq.1.trans (Eq.symm hties)), List.forall_mem_nil _⟩

/-! ### Relations in order -/

/-- Positions along axes, below their extents, that relations tie to each other. -/
structure Positions (E W : Nat → Int) (axes : List IterVar) (rs : List Relation) : Prop where
  within : ∀ iv ∈ axes, iv.Within E W
  ties : ∀ r ∈ rs, r.Ties E W

/-- The positions along the roots determine those along all axes. -/
theorem Positions.eq_of_roots (hrs : Ordered roots rs) (h : Positions E W (axesOf roots rs) rs)
    (h' : Positions E W' (axesOf roots rs) rs) (heq : ∀ iv ∈ roots, W iv.id = W' iv.id) :
    ∀ iv ∈ axesOf roots rs, W iv.id = W' iv.id := by
  induction rs generalizing roots with
  | nil =>
    rw [axesOf, List.flatMap_nil, List.append_nil]
    exact heq
  | cons r rs ih =>
    rw [ordered_cons] at hrs
    rw [axesOf_cons] at h h' ⊢
    obtain ⟨hr, hties⟩ := List.forall_mem_cons.mp h.ties
    obtain ⟨hr', hties'⟩ := List.forall_mem_cons.mp h'.ties
    have hderived : ∀ iv ∈ r.derived, iv ∈ axesOf (roots ++ r.derived) rs := fun iv hiv =>
      List.mem_append_left _ (List.mem_append_right _ hiv)
    refine ih hrs.2 ⟨h.within, hties⟩ ⟨h'.within, hties'⟩ (List.forall_mem_append.mpr ⟨heq, ?_⟩)
    exact hr.derived_eq hr' (fun iv hiv => h.within iv (hderived iv hiv)) (fun iv hiv => h'.within iv (hderived iv hiv))
      fun iv hiv => heq iv (hrs.1 iv hiv)

/-- Positions along the roots, below their extents, belong to positions along all axes. -/
theorem exists_positions (hrs : Ordered roots rs) (hdistinct : ((axesOf roots rs).map (·.id)).Nodup)
    (hcovers : ∀ r ∈ rs, r.Covers E) (hnonneg : ∀ iv ∈ axesOf roots rs, 0 ≤ E iv.id)
    (hwithin : ∀ iv ∈ roots, iv.Within E W) :
    ∃ W' : Nat → Int, (∀ iv ∈ roots, W' iv.id = W iv.id) ∧ Positions E W' (axesOf roots rs) rs := by
  induction rs generalizing roots W with
  | nil =>
    refine ⟨W, fun _ _ => rfl, ?_, List.forall_mem_nil _⟩
    rw [axesOf, List.flatMap_nil, List.append_nil]
    exact hwithin
  | cons r rs ih =>
    rw [ordered_cons] at hrs
    rw [axesOf_cons] at hdistinct hnonneg ⊢
    obtain ⟨hr, hcovers⟩ := List.forall_mem_cons.mp hcovers
    have hsub : ∀ iv ∈ roots ++ r.derived, iv ∈ axesOf (roots ++ r.derived) rs := fun iv hiv => List.mem_append_left _ hiv
    have hnodup : ((roots ++ r.derived).map (·.id)).Nodup :=
      hdistinct.sublist ((List.sublist_append_left _ _).map _)
    rw [List.map_append, List.nodup_append] at hnodup
    have hfresh : ∀ iv ∈ roots, ∀ jv ∈ r.derived, iv.id ≠ jv.id := fun iv hiv jv hjv =>
      hnodup.2.2 _ (List.mem_map_of_mem hiv) _ (List.mem_map_of_mem hjv)
    obtain ⟨W₁, hkeep, hderived, hties⟩ := exists_ties hr
      (fun iv hiv => hnonneg iv (hsub iv (List.mem_append_right _ hiv))) hnodup.2.1
      (fun iv hiv => hfresh iv (hrs.1 iv hiv)) fun iv hiv => hwithin iv (hrs.1 iv hiv)
    have hold : ∀ iv ∈ roots, W₁ iv.id = W iv.id := fun iv hiv => hkeep _ (hfresh iv hiv)
    obtain ⟨W₂, hsame, hpositions⟩ := ih hrs.2 hdistinct hcovers hnonneg (W := W₁) (List.forall_mem_append.mpr
      ⟨fun iv hiv => by rw [IterVar.Within, hold iv hiv]; exact hwithin iv hiv, hderived⟩)
    have hsame := List.forall_mem_append.mp hsame
    refine ⟨W₂, fun iv hiv => (hsame.1 iv hiv).trans (hold iv hiv), hpositions.within,
      List.forall_mem_cons.mpr ⟨?_, hpositions.ties⟩⟩
    exact hties.congr (fun iv hiv => hsame.1 iv (hrs.1 iv hiv)) hsame.2

/-- What holds of the axes that nothing is derived from holds of all axes, if each relation brings it back from the axes
    that it derives to those that it starts from. -/
theorem Ordered.backward (hrs : Ordered roots rs) (hdistinct : ((axesOf roots rs).map (·.id)).Nodup) {P : Nat → Prop}
    (step : ∀ r ∈ rs, (∀ iv ∈ r.derived, P iv.id) → ∀ iv ∈ r.sources, P iv.id)
    (h : ∀ iv ∈ axesOf roots rs, iv.id ∉ (rs.flatMap sources).map (·.id) → P iv.id) : ∀ iv ∈ axesOf roots rs, P iv.id := by
  induction rs using List.reverseRecOn with
  | nil => exact fun iv hiv => h iv hiv List.not_mem_nil
  | append_singleton rs r ih =>
    rw [ordered_concat] at hrs
    rw [axesOf_concat] at hdistinct h ⊢
    rw [List.map_append, List.nodup_append] at hdistinct
    rw [List.forall_mem_append, List.forall_mem_singleton] at step
    simp only [List.flatMap_append, List.flatMap_singleton, List.map_append, List.mem_append, not_or] at h
    -- Nothing is derived from the axes of the last relation: no axis has the number of an earlier one.
    have hlast : ∀ iv ∈ r.derived, P iv.id := by
      have hnew : ∀ iv ∈ r.derived, ∀ jv ∈ axesOf roots rs, jv.id ≠ iv.id := fun iv hiv jv hjv =>
        hdistinct.2.2 _ (List.mem_map_of_mem hjv) _ (List.mem_map_of_mem hiv)
      refine fun iv hiv => h iv (Or.inr hiv) ⟨fun hmem => ?_, fun hmem => ?_⟩
      · obtain ⟨jv, hjv, heq⟩ := List.mem_map.mp hmem
        exact hnew iv hiv jv (hrs.1.mem_axesOf hjv) heq
      · obtain ⟨jv, hjv, heq⟩ := List.mem_map.mp hmem
        exact hnew iv hiv jv (hrs.2 jv hjv) heq
    refine List.forall_mem_append.mpr ⟨ih hrs.1 hdistinct.1 step.1 fun iv hiv hnot => ?_, hlast⟩
    by_cases hmem : iv.id ∈ r.sources.map (·.id)
    · obtain ⟨jv, hjv, heq⟩ := List.mem_map.mp hmem
      exact heq ▸ step.2 hlast jv hjv
    · exact h iv (Or.inl hiv) ⟨hnot, hmem⟩

/-- Positions that are computed back from positions along the axes that nothing is derived from are positions along all
    axes if no split leaves its axis. -/
theorem positions_of_recovers (hrs : Ordered roots rs) (hdistinct : ((axesOf roots rs).map (·.id)).Nodup)
    (hcovers : ∀ r ∈ rs, r.Covers E) (hnonneg : ∀ iv ∈ axesOf roots rs, 0 ≤ E iv.id)
    (hrecovers : ∀ r ∈ rs, r.Recovers E W) (hguarded : ∀ r ∈ rs, r.Guarded E W)
    (h : ∀ iv ∈ axesOf roots rs, iv.id ∉ (rs.flatMap sources).map (·.id) → iv.Within E W) :
    Positions E W (axesOf roots rs) rs := by
  have hties : ∀ r ∈ rs, (∀ iv ∈ r.derived, iv.Within E W) → r.Ties E W ∧ ∀ iv ∈ r.sources, iv.Within E W := fun r hr =>
    (hrecovers r hr).ties (hcovers r hr)
      (fun iv hiv => hnonneg iv (hrs.mem_axesOf (List.mem_flatMap.mpr ⟨r, hr, hiv⟩))) (hguarded r hr)
  have hwithin : ∀ iv ∈ axesOf roots rs, iv.Within E W :=
    hrs.backward hdistinct (P := fun x => 0 ≤ W x ∧ W x < E x) (fun r hr hderived => (hties r hr hderived).2) h
  refine ⟨hwithin, fun r hr => (hties r hr fun iv hiv => hwithin iv ?_).1⟩
  exact List.mem_append_right _ (List.mem_flatMap.mpr ⟨r, hr, hiv⟩)

/-- Positions that are computed back from some of the positions along all axes are these. -/
theorem Positions.eq_of_recovers (hrs : Ordered roots rs) (hdistinct : ((axesOf roots rs).map (·.id)).Nodup)
    (h : Positions E W (axesOf roots rs) rs) (hrecovers : ∀ r ∈ rs, r.Recovers E W')
    (heq : ∀ iv ∈ axesOf roots rs, iv.id ∉ (rs.flatMap sources).map (·.id) → W' iv.id = W iv.id) :
    ∀ iv ∈ axesOf roots rs, W' iv.id = W iv.id := by
  refine hrs.backward hdistinct (P := fun x => W' x = W x) (fun r hr hderived => ?_) heq
  refine (hrecovers r hr).sources_eq (h.ties r hr) (fun iv hiv => h.within iv ?_) hderived
  exact hrs.mem_axesOf (List.mem_flatMap.mpr ⟨r, hr, hiv⟩)

end Relation

end TensorNest

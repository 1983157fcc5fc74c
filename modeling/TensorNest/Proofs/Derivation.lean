import Mathlib.Data.List.Induction
import TensorNest.Proofs.IndexArithmetic
import TensorNest.Proofs.Lookups
import TensorNest.Proofs.Transforms
import TensorNest.Schedule.Bounds

/-! # How axes are derived

The axes of a stage are the axes of its operation and those that its relations derive. In a consistent
stage (`Stage.Consistent`) a relation derives axes from leaf axes of its time, so that the leaf axes are
the axes that nothing was derived from. Any transforms but inlining keep stages consistent. In a
consistent stage ranges are found for all axes, from the first relation to the last, and values for the
axes of the operation, from the last relation to the first: no axis is looked up that has none
(`Schedule.consistent_of_transforms`). -/

namespace TensorNest

/-! ### Relations in order -/

namespace Relation

/-- The axes that a stage has once relations are made, in the order in which they come. -/
def axesOf (roots : List IterVar) (rs : List Relation) : List IterVar :=
  roots ++ rs.flatMap derived

/-- Each relation starts from roots or from axes that earlier relations derive. -/
def Ordered (roots : List IterVar) (rs : List Relation) : Prop :=
  ∀ before r after, rs = before ++ r :: after → ∀ iv ∈ r.sources, iv ∈ axesOf roots before

variable {roots : List IterVar} {r : Relation} {rs : List Relation} {iv : IterVar}

theorem axesOf_cons : axesOf roots (r :: rs) = axesOf (roots ++ r.derived) rs := by
  rw [axesOf, axesOf, List.flatMap_cons, List.append_assoc]

theorem axesOf_concat : axesOf roots (rs ++ [r]) = axesOf roots rs ++ r.derived := by
  rw [axesOf, axesOf, List.flatMap_append, List.flatMap_singleton, List.append_assoc]

theorem ordered_nil : Ordered roots [] := by
  intro before r after heq
  exact absurd heq.symm (by simp)

theorem ordered_cons : Ordered roots (r :: rs) ↔ (∀ iv ∈ r.sources, iv ∈ roots) ∧ Ordered (roots ++ r.derived) rs := by
  constructor
  · refine fun h => ⟨fun iv hiv => ?_, fun before r' after heq iv hiv => ?_⟩
    · have hmem := h [] r rs rfl iv hiv
      rwa [axesOf, List.flatMap_nil, List.append_nil] at hmem
    · rw [← axesOf_cons]
      exact h (r :: before) r' after (by rw [heq, List.cons_append]) iv hiv
  · rintro ⟨hr, hrs⟩ before r' after heq iv hiv
    obtain _ | ⟨q, before⟩ := before
    · obtain ⟨rfl, rfl⟩ := List.cons.inj heq
      exact List.mem_append_left _ (hr iv hiv)
    · obtain ⟨rfl, rfl⟩ := List.cons.inj heq
      rw [axesOf_cons]
      exact hrs before r' after rfl iv hiv

theorem ordered_concat : Ordered roots (rs ++ [r]) ↔ Ordered roots rs ∧ ∀ iv ∈ r.sources, iv ∈ axesOf roots rs := by
  induction rs generalizing roots with
  | nil =>
    rw [List.nil_append, ordered_cons, axesOf, List.flatMap_nil, List.append_nil]
    exact ⟨fun h => ⟨ordered_nil, h.1⟩, fun h => ⟨h.2, ordered_nil⟩⟩
  | cons q rs ih => rw [List.cons_append, ordered_cons, ordered_cons, ih, axesOf_cons, and_assoc]

theorem Ordered.mem_axesOf (h : Ordered roots rs) (hiv : iv ∈ rs.flatMap sources) : iv ∈ axesOf roots rs := by
  obtain ⟨r, hr, hsource⟩ := List.mem_flatMap.mp hiv
  obtain ⟨before, after, rfl⟩ := List.append_of_mem hr
  have hmem := h before r after rfl iv hsource
  rw [axesOf, List.mem_append] at hmem ⊢
  rw [List.flatMap_append, List.mem_append]
  exact hmem.imp_right Or.inl

end Relation

/-- Relations whose factors are index expressions of a type, between axes of that type. -/
structure Relation.Indexed (t : DataType) (r : Relation) : Prop where
  derived : ∀ iv ∈ r.derived, iv.dtype = t
  factors : ∀ parent outer inner factor nparts, r = .split parent outer inner factor nparts →
    (∀ e ∈ factor, e.Index t) ∧ ∀ e ∈ nparts, e.Index t

/-- A way to assert a property of the result of a computation step by step. -/
structure Asserts {σ : Type} (G : Except Error σ → (σ → Prop) → Prop) : Prop where
  ok : ∀ {a : σ} {P : σ → Prop}, P a → G (.ok a) P
  bind : ∀ {x : Except Error σ} {f : σ → Except Error σ} {P Q : σ → Prop}, G x P → (∀ a, P a → G (f a) Q) → G (x >>= f) Q

theorem Asserts.mono {σ : Type} {G : Except Error σ → (σ → Prop) → Prop} (hG : Asserts G) {x : Except Error σ}
    {P Q : σ → Prop} (hx : G x P) (h : ∀ a, P a → Q a) : G x Q := by
  have hbind : (x >>= Except.ok) = x := by cases x <;> rfl
  rw [← hbind]
  exact hG.bind hx fun a ha => hG.ok (h a ha)

theorem asserts_finds {σ : Type} : Asserts (@Finds σ) := ⟨finds_ok, Finds.bind⟩

theorem asserts_gives {σ : Type} : Asserts (@Gives σ) := ⟨gives_ok, Gives.bind⟩

/-! ### Ranges from the first relation to the last -/

namespace Ranges

variable {m m' : Ranges} {iv : IterVar} {r : Relation} {t : DataType}

/-- What holds of the roots holds of all axes once relations in order are made, if each relation keeps it
    and brings it from the axes that it starts from to those that it derives. -/
theorem derive_ordered {G : Except Error Ranges → (Ranges → Prop) → Prop} (hG : Asserts G)
    {H : Ranges → IterVar → Prop} {roots : List IterVar} {rs : List Relation}
    (step : ∀ r ∈ rs, ∀ m : Ranges, (∀ iv ∈ r.sources, H m iv) →
      G (m.derive r) fun m' => (∀ iv, H m iv → H m' iv) ∧ ∀ iv ∈ r.derived, H m' iv)
    (hrs : Relation.Ordered roots rs) (h : ∀ iv ∈ roots, H m iv) :
    G (rs.foldlM derive m) fun m' => ∀ iv ∈ Relation.axesOf roots rs, H m' iv := by
  induction rs generalizing roots m with
  | nil =>
    refine hG.ok fun iv hiv => ?_
    rw [Relation.axesOf, List.flatMap_nil, List.append_nil] at hiv
    exact h iv hiv
  | cons r rs ih =>
    rw [Relation.ordered_cons] at hrs
    rw [List.forall_mem_cons] at step
    rw [List.foldlM_cons, Relation.axesOf_cons]
    refine hG.bind (step.1 m fun iv hiv => h iv (hrs.1 iv hiv)) fun m₁ ⟨hkeep, hnew⟩ => ih step.2 hrs.2 ?_
    exact List.forall_mem_append.mpr ⟨fun iv hiv => hkeep iv (h iv hiv), hnew⟩

/-- An axis has a range. -/
def Has (m : Ranges) (iv : IterVar) : Prop :=
  ∃ x, m.get iv = .ok x

/-- An axis has a range whose extent is an index expression. -/
def Indexed (t : DataType) (m : Ranges) (iv : IterVar) : Prop :=
  Gives (m.get iv) (·.extent.Index t)

theorem get_insert {x : Range} {jv : IterVar} :
    (m.insert jv x).get iv = if jv.id = iv.id then .ok x else m.get iv := by
  by_cases h : jv.id = iv.id <;> simp [get, find?, insert, h]

theorem has_insert {x : Range} {jv : IterVar} : (m.insert jv x).Has iv ↔ jv.id = iv.id ∨ m.Has iv := by
  by_cases h : jv.id = iv.id <;> simp [Has, get_insert, h]

theorem indexed_insert {x : Range} {jv : IterVar} (hx : x.extent.Index t) (h : jv.id = iv.id ∨ m.Indexed t iv) :
    (m.insert jv x).Indexed t iv := by
  rw [Indexed, get_insert]
  split
  · exact gives_ok hx
  · exact h.resolve_left ‹_›

theorem keyed_get (h : m.Has iv) : Keyed (m.get iv) := by
  obtain ⟨x, hx⟩ := h
  rw [hx]
  exact keyed_ok

theorem keyed_fromZero (iv : IterVar) (e : Expr) : Keyed (fromZero iv e) :=
  (Expr.keyed_ofInt 0 iv.dtype).bind fun _ _ => keyed_ok

theorem gives_fromZero (ht : t.IsIndex) (hiv : iv.dtype = t) {e : Expr} (he : e.Index t) :
    Gives (fromZero iv e) (·.extent.Index t) := by
  unfold fromZero
  rw [hiv]
  exact Gives.bind (P := Expr.Index t) (Expr.gives_ofInt ht 0) fun _ _ => gives_ok he

theorem keyed_splitExtents (e : Expr) (factor nparts : Option Expr) :
    Keyed (Stage.splitExtents e factor nparts) := by
  unfold Stage.splitExtents
  split
  · exact (Expr.keyed_ceilDiv _ _).bind fun _ _ => keyed_ok
  · exact (Expr.keyed_ceilDiv _ _).bind fun _ _ => keyed_ok
  · exact keyed_ok

theorem gives_splitExtents (ht : t.IsIndex) {e : Expr} (he : e.Index t) {factor nparts : Option Expr}
    (hf : ∀ f ∈ factor, f.Index t) (hn : ∀ n ∈ nparts, n.Index t) :
    Gives (Stage.splitExtents e factor nparts) fun p => p.1.Index t ∧ p.2.Index t := by
  unfold Stage.splitExtents
  split
  · exact (Expr.gives_ceilDiv ht he (hf _ rfl)).bind fun _ hq => gives_ok ⟨hq, hf _ rfl⟩
  · exact (Expr.gives_ceilDiv ht he (hn _ rfl)).bind fun _ hq => gives_ok ⟨hn _ rfl, hq⟩
  · exact gives_ok ⟨he, he⟩

/-- A relation finds the ranges of the axes that it starts from. -/
theorem keyed_derive (h : ∀ iv ∈ r.sources, m.Has iv) : Keyed (m.derive r) := by
  cases r with
  | split parent outer inner factor nparts =>
    refine (keyed_get (h parent List.mem_cons_self)).bind fun x _ => ?_
    refine (keyed_splitExtents _ _ _).bind fun p _ => ?_
    refine (Expr.keyed_simplify _).bind fun o _ => (keyed_fromZero _ _).bind fun ro _ => ?_
    exact (Expr.keyed_simplify _).bind fun i _ => (keyed_fromZero _ _).bind fun ri _ => keyed_ok
  | fuse outer inner fused =>
    rw [Relation.sources, List.forall_mem_cons, List.forall_mem_singleton] at h
    refine (keyed_get h.1).bind fun x _ => (keyed_get h.2).bind fun y _ => ?_
    refine (Expr.keyed_arith _ _ _).bind fun e _ => (Expr.keyed_simplify _).bind fun e' _ => ?_
    exact (keyed_fromZero _ _).bind fun z _ => keyed_ok
  | rebase parent rebased =>
    exact (keyed_get (h parent List.mem_cons_self)).bind fun x _ => (keyed_fromZero _ _).bind fun z _ => keyed_ok

/-- What a relation does: it sets the ranges of the axes that it derives. -/
theorem derive_inv (hrun : m.derive r = .ok m') : ∀ iv, m'.Has iv ↔ iv.id ∈ r.derived.map (·.id) ∨ m.Has iv := by
  intro iv
  cases r with
  | split parent outer inner factor nparts =>
    obtain ⟨_, -, hrun⟩ := bind_eq_ok.mp hrun
    obtain ⟨_, -, hrun⟩ := bind_eq_ok.mp hrun
    obtain ⟨_, -, hrun⟩ := bind_eq_ok.mp hrun
    obtain ⟨_, -, hrun⟩ := bind_eq_ok.mp hrun
    obtain ⟨_, -, hrun⟩ := bind_eq_ok.mp hrun
    obtain ⟨_, -, hrun⟩ := bind_eq_ok.mp hrun
    cases hrun
    simp only [Relation.derived, has_insert, List.map_cons, List.map_nil, List.mem_cons, List.not_mem_nil, or_false,
      eq_comm (b := iv.id)]
    tauto
  | fuse outer inner fused =>
    obtain ⟨_, -, hrun⟩ := bind_eq_ok.mp hrun
    obtain ⟨_, -, hrun⟩ := bind_eq_ok.mp hrun
    obtain ⟨_, -, hrun⟩ := bind_eq_ok.mp hrun
    obtain ⟨_, -, hrun⟩ := bind_eq_ok.mp hrun
    obtain ⟨_, -, hrun⟩ := bind_eq_ok.mp hrun
    cases hrun
    simp [Relation.derived, has_insert, eq_comm]
  | rebase parent rebased =>
    obtain ⟨_, -, hrun⟩ := bind_eq_ok.mp hrun
    obtain ⟨_, -, hrun⟩ := bind_eq_ok.mp hrun
    cases hrun
    simp [Relation.derived, has_insert, eq_comm]

theorem finds_derive (h : ∀ iv ∈ r.sources, m.Has iv) :
    Finds (m.derive r) fun m' => (∀ iv, m.Has iv → m'.Has iv) ∧ ∀ iv ∈ r.derived, m'.Has iv :=
  ⟨keyed_derive h, fun _ hrun => ⟨fun iv hiv => (derive_inv hrun iv).mpr (Or.inr hiv),
    fun iv hiv => (derive_inv hrun iv).mpr (Or.inl (List.mem_map_of_mem hiv))⟩⟩

/-- A relation between axes of an index type has ranges for the axes that it derives. -/
theorem gives_derive (ht : t.IsIndex) (hr : r.Indexed t) (h : ∀ iv ∈ r.sources, m.Indexed t iv) :
    Gives (m.derive r) fun m' => (∀ iv, m.Indexed t iv → m'.Indexed t iv) ∧ ∀ iv ∈ r.derived, m'.Indexed t iv := by
  have hderived := hr.derived
  cases r with
  | split parent outer inner factor nparts =>
    obtain ⟨hf, hn⟩ := hr.factors _ _ _ _ _ rfl
    simp only [Relation.derived, List.forall_mem_cons] at hderived ⊢
    refine Gives.bind (h parent List.mem_cons_self) fun x hx => ?_
    refine (gives_splitExtents ht hx hf hn).bind fun p hp => ?_
    refine (Expr.gives_simplify ht hp.1).bind fun o ho => (gives_fromZero ht hderived.1 ho).bind fun ro hro => ?_
    refine (Expr.gives_simplify ht hp.2).bind fun i hi => (gives_fromZero ht hderived.2.1 hi).bind fun ri hri => ?_
    refine gives_ok ⟨fun iv hiv => indexed_insert hri (Or.inr (indexed_insert hro (Or.inr hiv))), ?_, ?_,
      List.forall_mem_nil _⟩
    · exact indexed_insert hri (Or.inr (indexed_insert hro (Or.inl rfl)))
    · exact indexed_insert hri (Or.inl rfl)
  | fuse outer inner fused =>
    rw [Relation.sources, List.forall_mem_cons, List.forall_mem_singleton] at h
    simp only [Relation.derived, List.forall_mem_cons] at hderived ⊢
    refine Gives.bind h.1 fun x hx => Gives.bind h.2 fun y hy => ?_
    refine (Expr.gives_arith ht rfl hx hy).bind fun e he => (Expr.gives_simplify ht he).bind fun e' he' => ?_
    refine (gives_fromZero ht hderived.1 he').bind fun z hz => gives_ok ⟨fun iv hiv => ?_, ?_, List.forall_mem_nil _⟩
    · exact indexed_insert hz (Or.inr hiv)
    · exact indexed_insert hz (Or.inl rfl)
  | rebase parent rebased =>
    simp only [Relation.derived, List.forall_mem_cons] at hderived ⊢
    refine Gives.bind (h parent List.mem_cons_self) fun x hx => ?_
    refine (gives_fromZero ht hderived.1 hx).bind fun z hz => gives_ok ⟨fun iv hiv => ?_, ?_, List.forall_mem_nil _⟩
    · exact indexed_insert hz (Or.inr hiv)
    · exact indexed_insert hz (Or.inl rfl)

end Ranges

/-! ### Values from the last relation to the first -/

namespace AxisValues

variable {m m' : AxisValues} {ranges : Ranges} {iv : IterVar} {r : Relation} {t : DataType}

/-- Sets the values of the axes that relations derive others from, from the last relation to the first. -/
def recoverAll (m : AxisValues) (ranges : Ranges) (rs : List Relation) : Except Error AxisValues :=
  rs.reverse.foldlM (fun m r => m.recover ranges r) m

theorem recoverAll_concat (rs : List Relation) (r : Relation) :
    m.recoverAll ranges (rs ++ [r]) = m.recover ranges r >>= fun m => m.recoverAll ranges rs := by
  rw [recoverAll, List.reverse_append, List.reverse_singleton, List.singleton_append, List.foldlM_cons]
  rfl

/-- What holds of the axes that nothing is derived from holds of all axes once relations in order, of
    distinct axes, are gone through backwards, if each relation keeps it and brings it from the axes that
    it derives to those that it starts from. -/
theorem recover_ordered {G : Except Error AxisValues → (AxisValues → Prop) → Prop} (hG : Asserts G)
    {H : AxisValues → IterVar → Prop} (hid : ∀ {m iv jv}, H m iv → iv.id = jv.id → H m jv)
    {roots : List IterVar} {rs : List Relation}
    (step : ∀ r ∈ rs, ∀ m : AxisValues, (∀ iv ∈ r.derived, H m iv) →
      G (m.recover ranges r) fun m' => (∀ iv, H m iv → H m' iv) ∧ ∀ iv ∈ r.sources, H m' iv)
    (hrs : Relation.Ordered roots rs) (hdistinct : ((Relation.axesOf roots rs).map (·.id)).Nodup)
    (h : ∀ iv ∈ Relation.axesOf roots rs, iv.id ∉ (rs.flatMap Relation.sources).map (·.id) → H m iv) :
    G (m.recoverAll ranges rs) fun m' => (∀ iv, H m iv → H m' iv) ∧ ∀ iv ∈ Relation.axesOf roots rs, H m' iv := by
  induction rs using List.reverseRecOn generalizing m with
  | nil => exact hG.ok ⟨fun iv hiv => hiv, fun iv hiv => h iv hiv List.not_mem_nil⟩
  | append_singleton rs r ih =>
    rw [Relation.ordered_concat] at hrs
    rw [Relation.axesOf_concat] at hdistinct h ⊢
    rw [List.map_append, List.nodup_append] at hdistinct
    rw [List.forall_mem_append, List.forall_mem_singleton] at step
    -- Nothing is derived from the axes of the last relation: no axis has the number of an earlier one.
    have hlast : ∀ iv ∈ r.derived, H m iv := by
      refine fun iv hiv => h iv (List.mem_append_right _ hiv) fun hmem => ?_
      obtain ⟨jv, hjv, heq⟩ := List.mem_map.mp hmem
      rw [List.flatMap_append, List.flatMap_singleton, List.mem_append] at hjv
      exact hdistinct.2.2 _ (List.mem_map_of_mem (hjv.elim hrs.1.mem_axesOf (hrs.2 jv))) _ (List.mem_map_of_mem hiv) heq
    rw [recoverAll_concat]
    refine hG.bind (step.2 m hlast) fun m₁ ⟨hkeep, hnew⟩ => ?_
    have hnext : ∀ iv ∈ Relation.axesOf roots rs, iv.id ∉ (rs.flatMap Relation.sources).map (·.id) → H m₁ iv := by
      intro iv hiv hnot
      by_cases hmem : iv.id ∈ r.sources.map (·.id)
      · obtain ⟨jv, hjv, heq⟩ := List.mem_map.mp hmem
        exact hid (hnew jv hjv) heq
      · refine hkeep iv (h iv (List.mem_append_left _ hiv) ?_)
        rw [List.flatMap_append, List.flatMap_singleton, List.map_append, List.mem_append]
        exact fun hor => hor.elim hnot hmem
    refine hG.mono (ih step.1 hrs.1 hdistinct.1 hnext) fun m' ⟨hkeep', hall⟩ => ?_
    refine ⟨fun iv hiv => hkeep' iv (hkeep iv hiv), List.forall_mem_append.mpr ⟨hall, fun iv hiv => ?_⟩⟩
    exact hkeep' iv (hkeep iv (hlast iv hiv))

/-- An axis has a value. -/
def Has (m : AxisValues) (iv : IterVar) : Prop :=
  ∃ e, m.get iv = .ok e

/-- An axis has a value that is an index expression. -/
def Indexed (t : DataType) (m : AxisValues) (iv : IterVar) : Prop :=
  Gives (m.get iv) (Expr.Index t)

theorem get_cons {x : Nat} {e : Expr} : get ((x, e) :: m) iv = if x = iv.id then .ok e else m.get iv := by
  by_cases h : x = iv.id <;> simp [get, h]

/-- Values are found by the numbers of axes. -/
theorem get_of_id {jv : IterVar} {e : Expr} (h : m.get iv = .ok e) (hid : iv.id = jv.id) : m.get jv = .ok e := by
  unfold get at h ⊢
  rw [← hid]
  split at h
  · exact h
  · cases h

theorem has_cons {x : Nat} {e : Expr} : Has ((x, e) :: m) iv ↔ x = iv.id ∨ m.Has iv := by
  by_cases h : x = iv.id <;> simp [Has, get_cons, h]

theorem indexed_cons {x : Nat} {e : Expr} (he : e.Index t) (h : x = iv.id ∨ m.Indexed t iv) :
    Indexed t ((x, e) :: m) iv := by
  rw [Indexed, get_cons]
  split
  · exact gives_ok he
  · exact h.resolve_left ‹_›

theorem keyed_get (h : m.Has iv) : Keyed (m.get iv) := by
  obtain ⟨e, he⟩ := h
  rw [he]
  exact keyed_ok

/-- A relation finds the values and the ranges that it reads. -/
theorem keyed_recover (h : ∀ iv ∈ r.derived, m.Has iv) (hranges : ∀ iv ∈ r.sources ++ r.derived, ranges.Has iv) :
    Keyed (m.recover ranges r) := by
  cases r with
  | split parent outer inner factor nparts =>
    simp only [Relation.derived, Relation.sources, List.forall_mem_cons, List.cons_append, List.nil_append] at h hranges
    refine (keyed_get h.1).bind fun o _ => (Ranges.keyed_get hranges.2.2.1).bind fun x _ => ?_
    refine (Expr.keyed_arith _ _ _).bind fun scaled _ => (keyed_get h.2.1).bind fun i _ => ?_
    exact (Expr.keyed_arith _ _ _).bind fun e _ => keyed_ok
  | fuse outer inner fused =>
    simp only [Relation.derived, Relation.sources, List.forall_mem_cons, List.cons_append, List.nil_append] at h hranges
    refine (Ranges.keyed_get hranges.2.1).bind fun x _ => (keyed_get h.1).bind fun f _ => ?_
    refine (Expr.keyed_arith _ _ _).bind fun o _ => (keyed_get h.1).bind fun f' _ => ?_
    exact (Expr.keyed_arith _ _ _).bind fun i _ => keyed_ok
  | rebase parent rebased => exact (keyed_get (h rebased List.mem_cons_self)).bind fun e _ => keyed_ok

/-- What a relation does: it sets the values of the axes that it starts from. -/
theorem recover_inv (hrun : m.recover ranges r = .ok m') :
    ∀ iv, m'.Has iv ↔ iv.id ∈ r.sources.map (·.id) ∨ m.Has iv := by
  intro iv
  cases r with
  | split parent outer inner factor nparts =>
    obtain ⟨_, -, hrun⟩ := bind_eq_ok.mp hrun
    obtain ⟨_, -, hrun⟩ := bind_eq_ok.mp hrun
    obtain ⟨_, -, hrun⟩ := bind_eq_ok.mp hrun
    obtain ⟨_, -, hrun⟩ := bind_eq_ok.mp hrun
    obtain ⟨_, -, hrun⟩ := bind_eq_ok.mp hrun
    cases hrun
    simp [Relation.sources, has_cons, eq_comm]
  | fuse outer inner fused =>
    obtain ⟨_, -, hrun⟩ := bind_eq_ok.mp hrun
    obtain ⟨_, -, hrun⟩ := bind_eq_ok.mp hrun
    obtain ⟨_, -, hrun⟩ := bind_eq_ok.mp hrun
    obtain ⟨_, -, hrun⟩ := bind_eq_ok.mp hrun
    obtain ⟨_, -, hrun⟩ := bind_eq_ok.mp hrun
    cases hrun
    simp only [Relation.sources, has_cons, List.map_cons, List.map_nil, List.mem_cons, List.not_mem_nil, or_false,
      eq_comm (b := iv.id)]
    tauto
  | rebase parent rebased =>
    obtain ⟨_, -, hrun⟩ := bind_eq_ok.mp hrun
    cases hrun
    simp [Relation.sources, has_cons, eq_comm]

theorem finds_recover (h : ∀ iv ∈ r.derived, m.Has iv) (hranges : ∀ iv ∈ r.sources ++ r.derived, ranges.Has iv) :
    Finds (m.recover ranges r) fun m' => (∀ iv, m.Has iv → m'.Has iv) ∧ ∀ iv ∈ r.sources, m'.Has iv :=
  ⟨keyed_recover h hranges, fun _ hrun => ⟨fun iv hiv => (recover_inv hrun iv).mpr (Or.inr hiv),
    fun iv hiv => (recover_inv hrun iv).mpr (Or.inl (List.mem_map_of_mem hiv))⟩⟩

/-- A relation has values for the axes that it starts from if values and extents are index expressions. -/
theorem gives_recover (ht : t.IsIndex) (h : ∀ iv ∈ r.derived, m.Indexed t iv)
    (hranges : ∀ iv ∈ r.sources ++ r.derived, ranges.Indexed t iv) :
    Gives (m.recover ranges r) fun m' => (∀ iv, m.Indexed t iv → m'.Indexed t iv) ∧ ∀ iv ∈ r.sources, m'.Indexed t iv := by
  cases r with
  | split parent outer inner factor nparts =>
    simp only [Relation.derived, Relation.sources, List.forall_mem_cons, List.cons_append, List.nil_append] at h hranges ⊢
    refine Gives.bind h.1 fun o ho => Gives.bind hranges.2.2.1 fun x hx => ?_
    refine (Expr.gives_arith ht rfl ho hx).bind fun scaled hscaled => Gives.bind h.2.1 fun i hi => ?_
    refine (Expr.gives_arith ht rfl hscaled hi).bind fun e he => gives_ok ⟨fun iv hiv => ?_, ?_, List.forall_mem_nil _⟩
    · exact indexed_cons he (Or.inr hiv)
    · exact indexed_cons he (Or.inl rfl)
  | fuse outer inner fused =>
    simp only [Relation.derived, Relation.sources, List.forall_mem_cons, List.cons_append, List.nil_append] at h hranges ⊢
    refine Gives.bind hranges.2.1 fun x hx => Gives.bind h.1 fun f hf => ?_
    refine (Expr.gives_arith ht rfl hf hx).bind fun o ho => Gives.bind h.1 fun f' hf' => ?_
    refine (Expr.gives_arith ht rfl hf' hx).bind fun i hi => gives_ok ⟨fun iv hiv => ?_, ?_, ?_, List.forall_mem_nil _⟩
    · exact indexed_cons hi (Or.inr (indexed_cons ho (Or.inr hiv)))
    · exact indexed_cons hi (Or.inr (indexed_cons ho (Or.inl rfl)))
    · exact indexed_cons hi (Or.inl rfl)
  | rebase parent rebased =>
    simp only [Relation.derived, Relation.sources, List.forall_mem_cons] at h ⊢
    refine Gives.bind h.1 fun e he => gives_ok ⟨fun iv hiv => indexed_cons he (Or.inr hiv), ?_, List.forall_mem_nil _⟩
    exact indexed_cons he (Or.inl rfl)

end AxisValues

/-! ### Consistent stages -/

namespace Stage

variable {n n' : Nat} {st st' : Stage}

/-- The numbers of the axes that others are derived from, once for each relation. -/
def consumedIds (st : Stage) : List Nat :=
  (st.relations.flatMap Relation.sources).map (·.id)

/-- The axes of a stage are those of its operation and those that are derived, all distinct. An axis is
    a leaf axis as long as nothing is derived from it; that happens at most once, after it has come. -/
structure Consistent (st : Stage) : Prop where
  all : st.all = Relation.axesOf st.op.rootAxes st.relations
  distinct : (st.all.map (·.id)).Nodup
  leavesDistinct : (st.leaves.map (·.id)).Nodup
  leaves : ∀ iv, iv ∈ st.leaves ↔ iv ∈ st.all ∧ iv.id ∉ st.consumedIds
  once : st.consumedIds.Nodup
  ordered : Relation.Ordered st.op.rootAxes st.relations

/-- Ranges of the axes of the operation lead to ranges of all axes: none is looked up in vain, and in index
    arithmetic all are found. -/
structure PassesDown (st : Stage) : Prop where
  finds : ∀ m : Ranges, (∀ iv ∈ st.op.rootAxes, m.Has iv) → Finds (m.deriveAll st) (∀ iv ∈ st.all, ·.Has iv)
  gives : ∀ (t : DataType) (m : Ranges), t.IsIndex → (∀ r ∈ st.relations, r.Indexed t) →
    (∀ iv ∈ st.op.rootAxes, m.Indexed t iv) → Gives (m.deriveAll st) (∀ iv ∈ st.all, ·.Indexed t iv)

/-- Values of the leaf axes lead to values of the axes of the operation, under ranges of all axes: none is
    looked up in vain, and in index arithmetic all are found. -/
structure PassesUp (st : Stage) : Prop where
  finds : ∀ (m : AxisValues) (ranges : Ranges), (∀ iv ∈ st.all, ranges.Has iv) → (∀ iv ∈ st.leaves, m.Has iv) →
    Finds (m.recoverAll ranges st.relations) (∀ iv ∈ st.op.rootAxes, ·.Has iv)
  gives : ∀ (t : DataType) (m : AxisValues) (ranges : Ranges), t.IsIndex → (∀ iv ∈ st.all, ranges.Indexed t iv) →
    (∀ iv ∈ st.leaves, m.Indexed t iv) → Gives (m.recoverAll ranges st.relations) (∀ iv ∈ st.op.rootAxes, ·.Indexed t iv)

theorem Consistent.passesDown (h : st.Consistent) : st.PassesDown := by
  constructor
  · intro m hm
    rw [h.all]
    exact Ranges.derive_ordered asserts_finds (fun r _ m hr => Ranges.finds_derive hr) h.ordered hm
  · intro t m ht hindexed hm
    rw [h.all]
    exact Ranges.derive_ordered asserts_gives (fun r hr m hsources => Ranges.gives_derive ht (hindexed r hr) hsources)
      h.ordered hm

/-- The axes of the relations of a consistent stage are axes of the stage. -/
theorem Consistent.mem_all (h : st.Consistent) {r : Relation} (hr : r ∈ st.relations) {iv : IterVar}
    (hiv : iv ∈ r.sources ++ r.derived) : iv ∈ st.all := by
  rw [h.all]
  obtain hiv | hiv := List.mem_append.mp hiv
  · exact h.ordered.mem_axesOf (List.mem_flatMap.mpr ⟨r, hr, hiv⟩)
  · exact List.mem_append_right _ (List.mem_flatMap.mpr ⟨r, hr, hiv⟩)

theorem Consistent.passesUp (h : st.Consistent) : st.PassesUp := by
  have hdistinct := h.distinct
  rw [h.all] at hdistinct
  have hleaf : ∀ iv ∈ Relation.axesOf st.op.rootAxes st.relations, iv.id ∉ st.consumedIds → iv ∈ st.leaves :=
    fun iv hiv hnot => (h.leaves iv).mpr ⟨h.all ▸ hiv, hnot⟩
  have hroot : ∀ iv ∈ st.op.rootAxes, iv ∈ Relation.axesOf st.op.rootAxes st.relations :=
    fun iv hiv => List.mem_append_left _ hiv
  constructor
  · intro m ranges hranges hm
    refine asserts_finds.mono (AxisValues.recover_ordered asserts_finds (H := AxisValues.Has)
      (fun ⟨e, he⟩ hid => ⟨e, AxisValues.get_of_id he hid⟩) (fun r hr m hderived => ?_) h.ordered hdistinct
      fun iv hiv hnot => hm iv (hleaf iv hiv hnot)) fun m' hm' iv hiv => hm'.2 iv (hroot iv hiv)
    exact AxisValues.finds_recover hderived fun iv hiv => hranges iv (h.mem_all hr hiv)
  · intro t m ranges ht hranges hm
    refine asserts_gives.mono (AxisValues.recover_ordered asserts_gives (H := AxisValues.Indexed t)
      (fun ⟨e, he, hindex⟩ hid => ⟨e, AxisValues.get_of_id he hid, hindex⟩) (fun r hr m hderived => ?_) h.ordered
      hdistinct fun iv hiv hnot => hm iv (hleaf iv hiv hnot)) fun m' hm' iv hiv => hm'.2 iv (hroot iv hiv)
    exact AxisValues.gives_recover ht hderived fun iv hiv => hranges iv (h.mem_all hr hiv)

/-- The stage of an operation of distinct axes is consistent before any transform. -/
theorem consistent_of_roots (hall : st.all = st.op.rootAxes) (hleaves : st.leaves = st.op.rootAxes)
    (hrel : st.relations = []) (hroots : (st.op.rootAxes.map (·.id)).Nodup) : st.Consistent where
  all := by rw [hall, hrel, Relation.axesOf, List.flatMap_nil, List.append_nil]
  distinct := hall ▸ hroots
  leavesDistinct := hleaves ▸ hroots
  leaves := by simp [hleaves, hall, consumedIds, hrel]
  once := by simp [consumedIds, hrel]
  ordered := hrel ▸ Relation.ordered_nil

theorem Consistent.lt_of_consumed (h : st.Consistent) (hlt : ∀ iv ∈ st.all, iv.id < n) {x : Nat}
    (hx : x ∈ st.consumedIds) : x < n := by
  obtain ⟨iv, hiv, rfl⟩ := List.mem_map.mp hx
  exact hlt iv (h.all ▸ h.ordered.mem_axesOf hiv)

/-- A relation between leaf axes and new axes keeps a stage consistent. -/
theorem Consistent.relate (h : st.Consistent) (hlt : ∀ iv ∈ st.all, iv.id < n) {r : Relation} {leaves rest : List IterVar}
    (hsources : st.leaves.Perm (r.sources ++ rest)) (hleaves : leaves.Perm (r.derived ++ rest))
    (hnew : ∀ iv ∈ r.derived, n ≤ iv.id) (hdistinct : (r.derived.map (·.id)).Nodup) :
    Consistent { st with leaves, all := st.all ++ r.derived, relations := st.relations ++ [r] } := by
  have hold := hsources.map (·.id) |>.nodup_iff.mp h.leavesDistinct
  rw [List.map_append, List.nodup_append] at hold
  have hleaf : ∀ iv, iv ∈ r.sources ++ rest → iv ∈ st.leaves := fun iv => hsources.mem_iff.mpr
  have hrest : ∀ iv ∈ rest, iv ∈ st.all ∧ iv.id ∉ st.consumedIds := fun iv hiv =>
    (h.leaves iv).mp (hleaf iv (List.mem_append_right _ hiv))
  have hsrc : ∀ iv ∈ r.sources, iv ∈ st.all ∧ iv.id ∉ st.consumedIds := fun iv hiv =>
    (h.leaves iv).mp (hleaf iv (List.mem_append_left _ hiv))
  -- New axes have numbers that no axis has.
  have hapart : ∀ iv ∈ st.all, ∀ jv ∈ r.derived, iv.id ≠ jv.id := by
    intro iv hiv jv hjv
    have := hlt iv hiv
    have := hnew jv hjv
    omega
  have hconsumed : consumedIds { st with leaves, all := st.all ++ r.derived, relations := st.relations ++ [r] } =
      st.consumedIds ++ r.sources.map (·.id) := by
    simp [consumedIds]
  refine ⟨?_, ?_, ?_, fun iv => ?_, ?_, ?_⟩
  · show st.all ++ r.derived = Relation.axesOf st.op.rootAxes (st.relations ++ [r])
    rw [Relation.axesOf_concat, h.all]
  · rw [List.map_append, List.nodup_append]
    refine ⟨h.distinct, hdistinct, fun x hx y hy => ?_⟩
    obtain ⟨iv, hiv, rfl⟩ := List.mem_map.mp hx
    obtain ⟨jv, hjv, rfl⟩ := List.mem_map.mp hy
    exact hapart iv hiv jv hjv
  · rw [(hleaves.map _).nodup_iff, List.map_append, List.nodup_append]
    refine ⟨hdistinct, hold.2.1, fun x hx y hy => ?_⟩
    obtain ⟨jv, hjv, rfl⟩ := List.mem_map.mp hx
    obtain ⟨iv, hiv, rfl⟩ := List.mem_map.mp hy
    exact (hapart iv (hrest iv hiv).1 jv hjv).symm
  · rw [hconsumed, hleaves.mem_iff, List.mem_append, List.mem_append, List.mem_append, not_or]
    constructor
    · rintro (hiv | hiv)
      · refine ⟨Or.inr hiv, fun hmem => ?_, fun hmem => ?_⟩
        · have := h.lt_of_consumed hlt hmem
          have := hnew iv hiv
          omega
        · obtain ⟨jv, hjv, heq⟩ := List.mem_map.mp hmem
          exact hapart jv (hsrc jv hjv).1 iv hiv heq
      · refine ⟨Or.inl (hrest iv hiv).1, (hrest iv hiv).2, fun hmem => ?_⟩
        exact hold.2.2 _ hmem _ (List.mem_map_of_mem hiv) rfl
    · rintro ⟨hiv | hiv, hnot, hsrcs⟩
      · obtain hiv | hiv := List.mem_append.mp (hsources.mem_iff.mp ((h.leaves iv).mpr ⟨hiv, hnot⟩))
        · exact absurd (List.mem_map_of_mem hiv) hsrcs
        · exact Or.inr hiv
      · exact Or.inl hiv
  · rw [hconsumed, List.nodup_append]
    refine ⟨h.once, hold.1, fun x hx y hy heq => ?_⟩
    obtain ⟨iv, hiv, rfl⟩ := List.mem_map.mp hy
    exact (hsrc iv hiv).2 (heq ▸ hx)
  · exact Relation.ordered_concat.mpr ⟨h.ordered, fun iv hiv => h.all ▸ (hsrc iv hiv).1⟩

/-- A stage whose axes have numbers below `n`, consistent if the axes of its operation are distinct. -/
structure Coherent (n : Nat) (st : Stage) : Prop where
  numbered : ∀ iv ∈ st.all, iv.id < n
  consistent : (st.op.rootAxes.map (·.id)).Nodup → st.Consistent

theorem Coherent.raise (h : st.Coherent n) (hn : n ≤ n') : st.Coherent n' :=
  ⟨fun iv hiv => Nat.lt_of_lt_of_le (h.numbered iv hiv) hn, h.consistent⟩

/-- Where a stage is computed does not matter. -/
theorem Coherent.attach (h : st.Coherent n) (attach : Attach) : Coherent n { st with attach } :=
  ⟨h.numbered, fun hroots =>
    let c := h.consistent hroots
    ⟨c.all, c.distinct, c.leavesDistinct, c.leaves, c.once, c.ordered⟩⟩

theorem Coherent.step (h : st.Coherent n) (hstep : Step n st n' st') : st'.Coherent n' := by
  cases hstep with
  | note scope doubleBuffered hn =>
    refine ⟨(h.raise hn).numbered, fun hroots => ?_⟩
    have c := h.consistent hroots
    exact ⟨c.all, c.distinct, c.leavesDistinct, c.leaves, c.once, c.ordered⟩
  | permute hperm =>
    refine ⟨h.numbered, fun hroots => ?_⟩
    have c := h.consistent hroots
    refine ⟨c.all, c.distinct, ?_, fun iv => hperm.mem_iff.trans (c.leaves iv), c.once, c.ordered⟩
    exact (hperm.map _).nodup_iff.mpr c.leavesDistinct
  | relate r rest hn hsources hleaves hnew hdistinct =>
    refine ⟨List.forall_mem_append.mpr ⟨(h.raise hn).numbered, fun iv hiv => (hnew iv hiv).2⟩, fun hroots => ?_⟩
    exact (h.consistent hroots).relate h.numbered hsources hleaves (fun iv hiv => (hnew iv hiv).1) hdistinct

theorem Coherent.steps (h : st.Coherent n) (hsteps : Steps n st n' st') : st'.Coherent n' :=
  hsteps.keeps (I := Coherent) (fun h hstep => h.step hstep) h

/-- The operation of a stage can be replaced by one over the same axes. -/
theorem Coherent.rewrite (h : st.Coherent n) {op : Operation} (hop : op.rootAxes = st.op.rootAxes) :
    Coherent n { st with op } := by
  refine ⟨h.numbered, fun hroots => ?_⟩
  have c := h.consistent (hop ▸ hroots)
  exact ⟨by rw [hop]; exact c.all, c.distinct, c.leavesDistinct, c.leaves, c.once, by rw [hop]; exact c.ordered⟩

theorem coherent_of_roots (hall : st.all = st.op.rootAxes) (hleaves : st.leaves = st.op.rootAxes)
    (hrel : st.relations = []) (hlt : ∀ iv ∈ st.op.rootAxes, iv.id < n) : st.Coherent n :=
  ⟨hall ▸ hlt, consistent_of_roots hall hleaves hrel⟩

/-- Transforms keep stages coherent: both a cache and the copy of it are over new axes. -/
theorem coherent_kept : Kept Coherent where
  attach attach h := h.attach attach
  step h hstep := h.step hstep
  rewrite h haxes hreduce := h.rewrite (by rw [Operation.rootAxes, haxes, hreduce, ← Operation.rootAxes])
  cache {g st} id scope _ := by
    have hnext : (Schedule.cachedGraph g scope st.op).next = g.next + st.op.rootAxes.length + st.op.axes.length := rfl
    refine coherent_of_roots rfl rfl rfl fun iv hiv => ?_
    rw [show (Schedule.cacheStage id (Schedule.cacheOp g scope st.op) scope).op = Schedule.cacheOp g scope st.op from rfl,
      Schedule.rootAxes_cacheOp] at hiv
    have := (Schedule.mem_ids_copiesFrom.mp (List.mem_map_of_mem hiv)).2
    omega
  copy {g st} scope _ hrel _ := by
    have hnext : (Schedule.cachedGraph g scope st.op).next = g.next + st.op.rootAxes.length + st.op.axes.length := rfl
    have hcopy := Schedule.rootAxes_copyOp g (Schedule.cacheOp g scope st.op) st.op
    refine coherent_of_roots hcopy.symm hcopy.symm hrel fun iv hiv => ?_
    rw [show Operation.rootAxes _ = _ from hcopy] at hiv
    have := (Schedule.mem_ids_copiesFrom.mp (List.mem_map_of_mem hiv)).2
    omega

end Stage

/-! ### Consistent schedules -/

namespace Schedule

variable {s s' : Schedule} {n : Nat} {g g' : Graph} {st : Stage}

theorem Untouched.coherent (h : s.Untouched) (hlt : ∀ st ∈ s.stages, ∀ iv ∈ st.op.rootAxes, iv.id < n) :
    s.Each Stage.Coherent n := by
  intro st hst
  obtain ⟨hall, hleaves, hrel⟩ := h.axes st hst
  refine ⟨Stage.coherent_of_roots hall hleaves hrel (hlt st hst), ?_⟩
  rw [h.root st hst]
  nofun

/-- After any transforms but inlining, every stage over distinct axes is consistent: ranges of the axes of
    its operation reach all its axes, and values of its leaf axes reach the axes of its operation. -/
theorem consistent_of_transforms {outputs : List Operation} {g₀ g₁ : Graph} {s₀ : Schedule} {ts : List Transform}
    (hnum : g₀.Numbered) (hout : ∀ o ∈ outputs, g₀.op? o.idx = some o) (hcreate : (create outputs).Yields g₀ s₀ g₁)
    (hts : ∀ id, .onStage id .computeInline ∉ ts) (hrun : (ts.forM Transform.run).Yields s₀ g₁ () s g)
    (hst : st ∈ s.stages) (hroots : (st.op.rootAxes.map (·.id)).Nodup) :
    st.Consistent ∧ st.PassesDown ∧ st.PassesUp := by
  obtain ⟨rfl, huntouched, hlt⟩ := create_untouched (Q := fun o => ∀ iv ∈ o.rootAxes, iv.id < g₀.next)
    (fun ho => hnum ho) (fun o ho => hnum (hout o ho)) hcreate
  have hconsistent := ((huntouched.coherent hlt).transforms Stage.coherent_kept hts hrun st hst).1.consistent hroots
  exact ⟨hconsistent, hconsistent.passesDown, hconsistent.passesUp⟩

/-! ### A reduction, cached and tiled -/

namespace Tiled

/-- An axis over four values from `min`. -/
def axis (id : Nat) (min : Int) (kind : IterKind) : IterVar :=
  ⟨some ⟨.const (.int min) .int32, .const (.int 4) .int32⟩, ⟨id, "i", .int32⟩, kind, ""⟩

def input : Operation :=
  ⟨0, "A", "", [], .placeholder [.const (.int 5) .int32] .int32⟩

/-- `B[i, j] = sum of A[k] over k from 1` -/
def sums : Operation :=
  ⟨1, "B", "", [], .compute [axis 1 0 .dataParallel, axis 2 0 .dataParallel]
    [.reduce ⟨[⟨7, "x", .int32⟩], [⟨8, "y", .int32⟩], [.bin .add (.var ⟨7, "x", .int32⟩) (.var ⟨8, "y", .int32⟩)],
      [.const (.int 0) .int32]⟩ [.call .int32 "A" [.var ⟨3, "i", .int32⟩] .tensorRead (some input.ref) 0]
      [axis 3 1 .reduction] none 0]⟩

def graph : Graph := { ops := #[some input, some sums], next := 9 }

def operand (id : Nat) : Operand :=
  .axis (axis id 0 .dataParallel)

def number (n : Int) : Operand :=
  .number (.int n)

/-- The sums are computed into a cache, whose data axes are fused and split; the copy is tiled. -/
def transforms : List Transform :=
  [.cacheWrite sums.ref "local", .onStage 2 (.fuse [operand 9, operand 10]),
    .onStage 2 (.split (operand 14) (number 3) .nothing), .onStage 1 (.parallel (operand 12)), .normalize,
    .onStage 2 (.reorder [operand 17, operand 16]),
    .onStage 1 (.tile (operand 12) (operand 13) (number 2) (number 2))]

def start : Schedule :=
  match (create [sums]).run.run graph with
  | (.ok s, _) => s
  | _ => default

def run : Edit Schedule Unit := transforms.forM Transform.run

def result : Schedule := (run.outcome start graph).1.2

def resultGraph : Graph := (run.outcome start graph).2

theorem run_yields : run.Yields start graph () result resultGraph := by
  unfold result resultGraph
  exact Edit.yields_outcome (by decide +kernel)

theorem graph_numbered : graph.Numbered := by decide

theorem start_yields : (create [sums]).Yields graph start graph := rfl

theorem outputs_sums : ∀ o ∈ [sums], graph.op? o.idx = some o := by
  intro o ho
  obtain rfl := List.mem_singleton.mp ho
  rfl

theorem transforms_inline (id : Nat) : Transform.onStage id .computeInline ∉ transforms := by
  simp [transforms]

theorem roots_distinct : ∀ st ∈ result.stages, (st.op.rootAxes.map (·.id)).Nodup := by
  decide +kernel

theorem consistent_result :
    result.stages.map (fun st => (st.all.map (·.id), st.relations.length)) =
        [([], 0), ([9, 10, 11, 14, 15, 16, 17], 3), ([12, 13, 18, 19, 20, 21], 2)] ∧
      ∀ st ∈ result.stages, st.Consistent ∧ st.PassesDown ∧ st.PassesUp := by
  refine ⟨by decide +kernel, fun st hst => ?_⟩
  exact consistent_of_transforms graph_numbered outputs_sums start_yields transforms_inline run_yields hst
    (roots_distinct st hst)

end Tiled

end Schedule

end TensorNest

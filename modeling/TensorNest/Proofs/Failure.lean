import TensorNest.Proofs.Transforms

/-! # Failing transforms

A transform that fails leaves a stage as it was if all that can fail comes before the first change. Three
transforms go on computing after they have changed the stage (`Stage.Transform.Tears`): a prefetch notes
the tensor before its offset is read, a tiling has split the first axis when the second one cannot be split,
and a fusion of three axes or more has related the first two. All others, and these in any other case, leave
every stage as it was (`Schedule.unchanged_iff_of_fails`). -/

namespace TensorNest

/-- What ends in an error has no result. -/
theorem not_ok_of_error {α : Type} {x : Except Error α} {e : Error} (h : x = .error e) : ¬∃ a, x = .ok a := by
  subst h
  rintro ⟨a, ⟨⟩⟩

namespace Stage

variable {st st' : Stage} {g g' : Graph} {e : Error}

/-- Axes that can be fused: they stand next to each other, and all or none of them are reduced over. -/
def Fusible (st : Stage) (axes : List Operand) (ivs : List IterVar) : Prop :=
  st.legals .fuse axes = .ok ivs ∧
    (∃ start, st.leafIndices axes = .ok ((List.range axes.length).map (start + ·))) ∧
    ∃ reduced, ∀ iv ∈ ivs, (iv.kind == .reduction) = reduced

/-- What a transform has done before it can fail: the axis of a prefetch is a leaf axis; all that a tiling
    checks holds and its first axis can be split; the first two of three or more axes that can be fused
    are fused. -/
def Transform.Tears (st : Stage) (g : Graph) : Transform → Prop
  | prefetch _ axis _ => ∃ iv, st.leaf axis = .ok iv
  | tile x y xFactor yFactor =>
    sameAxis x y = false ∧ (∃ p, st.splitArgs x xFactor .nothing = .ok p) ∧ (∃ p, st.splitArgs y yFactor .nothing = .ok p) ∧
      (∃ iv, st.legal .reorder x = .ok iv) ∧ (∃ iv, st.legal .reorder y = .ok iv) ∧
      ∃ p st₁ g₁, (Stage.split x xFactor .nothing).Yields st g p st₁ g₁
  | fuse axes =>
    ∃ outer inner third rest, st.Fusible axes (outer :: inner :: third :: rest) ∧
      ∃ fused st₁ g₁, (fusePair outer inner).Yields st g fused st₁ g₁
  | _ => False

/-- How a transform that fails leaves a stage: as it was, or changed if the transform tears it. -/
inductive Left (torn : Prop) (st : Stage) : Stage → Prop
  | whole : ¬torn → Left torn st st
  | changed {st' : Stage} : torn → st' ≠ st → st'.id = st.id → Left torn st st'

theorem Left.unchanged_iff {torn : Prop} (h : Left torn st st') : st' = st ↔ ¬torn := by
  cases h with
  | whole h => exact iff_of_true rfl h
  | changed h hne _ => exact iff_of_false hne fun hnot => hnot h

theorem Left.id_eq {torn : Prop} (h : Left torn st st') : st'.id = st.id := by
  cases h with
  | whole => rfl
  | changed _ _ hid => exact hid

/-- A stage with more relations is another one. -/
theorem Left.longer {torn : Prop} (h : torn) (hlonger : st.relations.length < st'.relations.length)
    (hid : st'.id = st.id) : Left torn st st' :=
  .changed h (fun heq => Nat.lt_irrefl _ (heq ▸ hlonger)) hid

/-! ### Splitting and tiling -/

theorem split_fails {parent factor nparts : Operand} (h : (split parent factor nparts).Fails st g e st' g') :
    st' = st := by
  unfold split at h
  rw [Edit.fails_get_bind, Edit.fails_liftExcept_bind] at h
  obtain ⟨-, rfl, -⟩ | ⟨⟨iv, value⟩, -, h⟩ := h
  · rfl
  simp only at h
  split at h
  · simp only [Edit.fails_pure_bind, Edit.fails_freshVar_bind, Edit.fails_liftExcept_bind, Edit.fails_set_bind,
      Edit.not_fails_pure, and_false, exists_false, or_false] at h
    exact h.2.1.symm
  · simp only [Edit.fails_pure_bind, Edit.fails_freshVar_bind, Edit.fails_liftExcept_bind, Edit.fails_set_bind,
      Edit.not_fails_pure, and_false, exists_false, or_false] at h
    grind

theorem longer_split {parent factor nparts : Operand} {p : IterVar × IterVar}
    (h : (split parent factor nparts).Yields st g p st' g') :
    st.relations.length < st'.relations.length ∧ st'.id = st.id := by
  obtain ⟨iv, pos, f, n, -, -, rfl, -⟩ := split_inv h
  exact ⟨by simp, rfl⟩

theorem reorder_fails {axes : List Operand} (h : (reorder axes).Fails st g e st' g') : st' = st := by
  unfold reorder at h
  rw [Edit.fails_get_bind, Edit.fails_liftExcept_bind] at h
  obtain ⟨-, rfl, -⟩ | ⟨ivs, -, h⟩ := h
  · rfl
  simp only at h
  split at h
  · exact (Edit.fails_throw_bind.mp h).2.1.symm
  · obtain ⟨-, rfl, -⟩ | ⟨ps, -, h⟩ := Edit.fails_liftExcept_bind.mp h
    · rfl
    · exact absurd h Edit.not_fails_set

theorem tile_fails {x y xFactor yFactor : Operand} (h : (tile x y xFactor yFactor).Fails st g e st' g') :
    Left ((Transform.tile x y xFactor yFactor).Tears st g) st st' := by
  unfold tile at h
  rw [Edit.fails_get_bind] at h
  simp only at h
  split at h
  · rename_i hsame
    obtain ⟨-, rfl, -⟩ := Edit.fails_throw_bind.mp h
    exact .whole fun htears => absurd hsame (by simp [htears.1])
  rename_i hsame
  simp only [Edit.fails_check_bind] at h
  obtain ⟨hx, rfl, -⟩ | ⟨hx, h⟩ := h
  · exact .whole fun htears => not_ok_of_error hx htears.2.1
  obtain ⟨hy, rfl, -⟩ | ⟨hy, h⟩ := h
  · exact .whole fun htears => not_ok_of_error hy htears.2.2.1
  obtain ⟨hlx, rfl, -⟩ | ⟨hlx, h⟩ := h
  · exact .whole fun htears => not_ok_of_error hlx htears.2.2.2.1
  obtain ⟨hly, rfl, -⟩ | ⟨hly, h⟩ := h
  · exact .whole fun htears => not_ok_of_error hly htears.2.2.2.2.1
  obtain h | ⟨p, st₁, g₁, hp, h⟩ := Edit.fails_bind.mp h
  · obtain rfl := split_fails h
    exact .whole fun ⟨_, _, _, _, _, p, st₁, g₁, hp⟩ => Edit.not_yields_of_fails h hp
  -- The first axis is split: whatever fails then, the stage has a relation more.
  have htears : (Transform.tile x y xFactor yFactor).Tears st g :=
    ⟨by simpa using hsame, hx, hy, hlx, hly, p, st₁, g₁, hp⟩
  obtain ⟨hlonger, hid⟩ := longer_split hp
  obtain h | ⟨q, st₂, g₂, hq, h⟩ := Edit.fails_bind.mp h
  · obtain rfl := split_fails h
    exact .longer htears hlonger hid
  obtain ⟨hlonger', hid'⟩ := longer_split hq
  obtain h | ⟨_, _, _, _, h⟩ := Edit.fails_bind.mp h
  · obtain rfl := reorder_fails h
    exact .longer htears (Nat.lt_trans hlonger hlonger') (hid'.trans hid)
  · exact absurd h Edit.not_fails_pure

/-! ### Fusing -/

theorem fusePair_fails {outer inner : IterVar} (h : (fusePair outer inner).Fails st g e st' g') : st' = st := by
  unfold fusePair at h
  simp only at h
  split at h
  · simp only [Edit.fails_liftExcept_bind, Edit.fails_pure_bind, Edit.fails_freshVar_bind, Edit.fails_modify_bind,
      Edit.not_fails_pure, and_false, exists_false, or_false] at h
    grind
  · simp only [Edit.fails_pure_bind, Edit.fails_freshVar_bind, Edit.fails_modify_bind, Edit.not_fails_pure] at h

/-- A fusion of axes one after the other that fails has related those that were fused before. -/
theorem fusePairs_fails {ivs : List IterVar} {outer : IterVar} (h : (ivs.foldlM fusePair outer).Fails st g e st' g') :
    st.relations.length ≤ st'.relations.length ∧ st'.id = st.id := by
  induction ivs generalizing st g outer with
  | nil => exact absurd h Edit.not_fails_pure
  | cons iv ivs ih =>
    rw [List.foldlM_cons] at h
    obtain h | ⟨mid, st₁, g₁, hmid, h⟩ := Edit.fails_bind.mp h
    · obtain rfl := fusePair_fails h
      exact ⟨Nat.le_refl _, rfl⟩
    · obtain ⟨rfl, -⟩ := fusePair_inv hmid
      obtain ⟨hle, hid⟩ := ih h
      rw [List.length_append] at hle
      exact ⟨Nat.le_of_add_right_le hle, hid⟩

theorem length_legals {action : Action} {axes : List Operand} {ivs : List IterVar} (h : st.legals action axes = .ok ivs) :
    ivs.length = axes.length :=
  length_mapM h

/-- The positions of axes next to each other are those from the first one on. -/
theorem headD_positions {n start : Nat} (hn : 0 < n) : ((List.range n).map (start + ·)).headD 0 = start := by
  obtain ⟨k, rfl⟩ := Nat.exists_eq_succ_of_ne_zero (Nat.ne_of_gt hn)
  simp [List.range_succ_eq_map]

/-- All flags are alike if none differs from the first one. -/
theorem uniform_iff {flags : List Bool} :
    flags.any (· != flags.headD false) = false ↔ ∃ b, ∀ f ∈ flags, f = b := by
  cases flags with
  | nil => simp
  | cons b flags =>
    simp only [List.any_eq_false, List.headD_cons, bne_iff_ne, ne_eq, Decidable.not_not]
    refine ⟨fun h => ⟨b, h⟩, fun ⟨c, h⟩ f hf => ?_⟩
    rw [h f hf, h b List.mem_cons_self]

/-- A fusion that fails stops at its checks, or while it fuses axes that passed them. -/
theorem fuse_fails_inv {axes : List Operand} (h : (fuse axes).Fails st g e st' g') :
    (st' = st ∧ ∀ ivs, 1 < ivs.length → ¬st.Fusible axes ivs) ∨
      ∃ ivs, st.Fusible axes ivs ∧ (ivs.tail.foldlM fusePair (ivs.headD default)).Fails st g e st' g' := by
  unfold fuse at h
  rw [Edit.fails_get_bind] at h
  split at h
  · exact Or.inl ⟨(Edit.fails_throw.mp h).2.1.symm, fun ivs hlen hfusible => by
      rw [length_legals hfusible.1] at hlen; cases hlen⟩
  · exact Or.inl ⟨(Edit.fails_liftExcept.mp h).2.1.symm, fun ivs hlen hfusible => by
      rw [length_legals hfusible.1] at hlen; exact absurd hlen (Nat.lt_irrefl 1)⟩
  obtain ⟨hivs, rfl, -⟩ | ⟨ivs, hivs, h⟩ := Edit.fails_liftExcept_bind.mp h
  · exact Or.inl ⟨rfl, fun ivs _ hfusible => not_ok_of_error hivs ⟨ivs, hfusible.1⟩⟩
  obtain ⟨hps, rfl, -⟩ | ⟨positions, hps, h⟩ := Edit.fails_liftExcept_bind.mp h
  · exact Or.inl ⟨rfl, fun ivs _ ⟨_, ⟨start, hindices⟩, _⟩ => not_ok_of_error hps ⟨_, hindices⟩⟩
  simp only at h
  split at h
  · rename_i hrange
    refine Or.inl ⟨(Edit.fails_throw_bind.mp h).2.1.symm, fun ivs hlen ⟨hlegals, ⟨start, hindices⟩, _⟩ => ?_⟩
    have hcount := length_legals hlegals
    obtain rfl := Except.ok.inj (hps.symm.trans hindices)
    rw [headD_positions (by omega)] at hrange
    simp at hrange
  rename_i hrange
  simp only [bne_iff_ne, ne_eq, Decidable.not_not] at hrange
  split at h
  · rename_i hkinds
    refine Or.inl ⟨(Edit.fails_throw_bind.mp h).2.1.symm, fun ivs' _ ⟨hlegals, _, reduced, hreduced⟩ => ?_⟩
    obtain rfl := Except.ok.inj (hivs.symm.trans hlegals)
    exact absurd hkinds (Bool.eq_false_iff.mp (uniform_iff.mpr ⟨reduced, List.forall_mem_map.mpr hreduced⟩))
  rename_i hkinds
  obtain ⟨reduced, hreduced⟩ := uniform_iff.mp (Bool.eq_false_iff.mpr hkinds)
  obtain h | ⟨_, _, _, _, h⟩ := Edit.fails_bind.mp h
  · exact Or.inr ⟨ivs, ⟨hivs, ⟨_, hrange ▸ hps⟩, reduced, List.forall_mem_map.mp hreduced⟩, h⟩
  · simp only [Edit.fails_modify_bind, Edit.not_fails_pure] at h

theorem fuse_fails {axes : List Operand} (h : (fuse axes).Fails st g e st' g') :
    Left ((Transform.fuse axes).Tears st g) st st' := by
  obtain ⟨rfl, hchecks⟩ | ⟨ivs, hivs, h⟩ := fuse_fails_inv h
  · exact .whole fun ⟨_, _, _, _, hfusible, _⟩ => hchecks _ (by simp) hfusible
  have hsame : ∀ {ivs'}, st.Fusible axes ivs' → ivs' = ivs := fun h => Except.ok.inj (h.1.symm.trans hivs.1)
  match ivs, h with
  | [], h => exact absurd h Edit.not_fails_pure
  | [outer], h => exact absurd h Edit.not_fails_pure
  | [outer, inner], h =>
    obtain h | ⟨_, _, _, _, h⟩ := Edit.fails_bind.mp h
    · obtain rfl := fusePair_fails h
      exact .whole fun ⟨_, _, _, _, hfusible, _⟩ => by cases hsame hfusible
    · exact absurd h Edit.not_fails_pure
  | outer :: inner :: third :: rest, h =>
    obtain h | ⟨fused, st₁, g₁, hfused, h⟩ := Edit.fails_bind.mp h
    · obtain rfl := fusePair_fails h
      refine .whole fun ⟨_, _, _, _, hfusible, _, _, _, hyields⟩ => ?_
      cases hsame hfusible
      exact Edit.not_yields_of_fails h hyields
    · have htears : (Transform.fuse axes).Tears st g := ⟨outer, inner, third, rest, hivs, fused, st₁, g₁, hfused⟩
      obtain ⟨rfl, -⟩ := fusePair_inv hfused
      obtain ⟨hle, hid⟩ := fusePairs_fails h
      rw [List.length_append] at hle
      exact .longer htears hle hid

/-! ### Annotations -/

theorem mark_fails {action : Action} {kind : IterKind} {axis : Operand} (h : (mark action kind axis).Fails st g e st' g') :
    st' = st := by
  unfold mark at h
  rw [Edit.fails_get_bind] at h
  obtain ⟨-, rfl, -⟩ | ⟨iv, -, h⟩ := Edit.fails_liftExcept_bind.mp h
  · rfl
  · exact absurd h Edit.not_fails_set

theorem computeInline_fails (h : computeInline.Fails st g e st' g') : st' = st := by
  unfold computeInline at h
  rw [Edit.fails_get_bind] at h
  simp only at h
  split at h
  · exact (Edit.fails_throw_bind.mp h).2.1.symm
  split at h
  · exact (Edit.fails_throw_bind.mp h).2.1.symm
  · exact absurd h Edit.not_fails_set

/-- What is noted about an axis changes if a tensor to prefetch is added. -/
theorem annotate_prefetched_ne (st : Stage) (iv : IterVar) (tensor : Subject) :
    st.annotate iv (fun a => { a with prefetched := a.prefetched ++ [tensor] }) ≠ st := by
  intro heq
  have hannotations := congrArg Stage.annotations heq
  unfold annotate at hannotations
  split at hannotations
  · rename_i hfound
    obtain ⟨p, hp⟩ := Option.isSome_iff_exists.mp (Option.isSome_map.symm.trans hfound)
    have hsame := List.map_eq_map_iff.mp (hannotations.trans (List.map_id _).symm) p (List.mem_of_find?_eq_some hp)
    simp only [List.find?_some hp, if_true] at hsame
    have hlength := congrArg (·.2.prefetched.length) hsame
    simp at hlength
  · have hlength := congrArg List.length hannotations
    simp at hlength

theorem prefetch_fails {tensor : Subject} {axis offset : Operand} (h : (prefetch tensor axis offset).Fails st g e st' g') :
    Left ((Transform.prefetch tensor axis offset).Tears st g) st st' := by
  unfold prefetch at h
  rw [Edit.fails_get_bind] at h
  obtain ⟨hleaf, rfl, -⟩ | ⟨iv, hleaf, h⟩ := Edit.fails_liftExcept_bind.mp h
  · exact .whole (not_ok_of_error hleaf)
  rw [Edit.fails_modify_bind] at h
  obtain ⟨-, rfl, -⟩ | ⟨_, -, h⟩ := Edit.fails_liftExcept_bind.mp h
  · refine .changed ⟨iv, hleaf⟩ (annotate_prefetched_ne st iv tensor) ?_
    obtain ⟨as, heq⟩ := st.annotate_eq iv fun a => { a with prefetched := a.prefetched ++ [tensor] }
    rw [heq]
  · exact absurd h Edit.not_fails_modify

/-! ### Threads -/

/-- A leaf axis that can be bound to a thread axis of a tag. -/
def Bindable (st : Stage) (tag : String) (axis : Operand) : Prop :=
  ∃ iv, st.legal .bind axis = .ok iv ∧ (iv.kind = .reduction → isThreadTag tag)

theorem bind_fails {axis thread : Operand} (h : (bind axis thread).Fails st g e st' g') : st' = st := by
  unfold bind at h
  rw [Edit.fails_get_bind] at h
  split at h
  · simp only at h
    split at h
    · exact (Edit.fails_throw_bind.mp h).2.1.symm
    obtain ⟨-, rfl, -⟩ | ⟨iv, -, h⟩ := Edit.fails_liftExcept_bind.mp h
    · rfl
    split at h
    · exact (Edit.fails_throw_bind.mp h).2.1.symm
    · exact absurd h Edit.not_fails_set
  · exact (Edit.fails_throw.mp h).2.1.symm

/-- What can be bound is bound. -/
theorem not_bind_fails {t : IterVar} (ht : t.kind = .threadIndex) {axis : Operand} (hb : st.Bindable t.tag axis) :
    ¬(bind axis (.axis t)).Fails st g e st' g' := by
  obtain ⟨iv, hiv, htag⟩ := hb
  intro h
  unfold bind at h
  rw [Edit.fails_get_bind] at h
  simp only [ht, bne_self_eq_false, Bool.false_eq_true, if_false] at h
  obtain ⟨herr, -⟩ | ⟨jv, hjv, h⟩ := Edit.fails_liftExcept_bind.mp h
  · exact not_ok_of_error herr ⟨iv, hiv⟩
  obtain rfl := Except.ok.inj (hiv.symm.trans hjv)
  split at h
  · rename_i hred
    simp only [Bool.and_eq_true, decide_eq_true_eq, Bool.not_eq_true'] at hred
    rw [htag hred.1] at hred
    cases hred.2
  · exact absurd h Edit.not_fails_set

theorem annotation?_annotate (st : Stage) (iv jv : IterVar) (f : Annotation → Annotation) :
    (st.annotate iv f).annotation? jv = st.annotation? jv ∨
      ∃ a, (st.annotate iv f).annotation? jv = some (f a) := by
  unfold annotate
  split
  · have hcomp : ((fun p : List Nat × Annotation => p.1.contains jv.id) ∘
        fun p : List Nat × Annotation => (p.1, if p.1.contains iv.id then f p.2 else p.2)) =
        fun p => p.1.contains jv.id := rfl
    have hfind : annotation? { st with annotations := st.annotations.map fun p =>
        (p.1, if p.1.contains iv.id then f p.2 else p.2) } jv =
        (st.annotations.find? (·.1.contains jv.id)).map fun p => if p.1.contains iv.id then f p.2 else p.2 := by
      rw [annotation?, List.find?_map, hcomp, Option.map_map]
      rfl
    rw [hfind, annotation?]
    cases hp : st.annotations.find? (·.1.contains jv.id) with
    | none => exact Or.inl rfl
    | some p =>
      rw [Option.map_some, Option.map_some]
      split
      · exact Or.inr ⟨p.2, rfl⟩
      · exact Or.inl rfl
  · rw [annotation?, List.find?_append, annotation?]
    cases hp : st.annotations.find? (·.1.contains jv.id) with
    | some p => exact Or.inl rfl
    | none =>
      rw [Option.none_or, List.find?_singleton]
      split
      · exact Or.inr ⟨{}, rfl⟩
      · exact Or.inl rfl

/-- What can be bound stays so when other axes are bound: an axis that is bound counts as a thread axis. -/
theorem Bindable.annotate {tag : String} {axis : Operand} (h : st.Bindable tag axis) (iv t : IterVar) :
    Bindable (st.annotate iv fun a => { a with thread := some t }) tag axis := by
  obtain ⟨jv, hjv, htag⟩ := h
  obtain ⟨hleaf, hkind⟩ := legal_eq_ok.mp hjv
  refine ⟨jv, legal_eq_ok.mpr ⟨?_, ?_⟩, htag⟩
  · obtain ⟨as, heq⟩ := st.annotate_eq iv fun a => { a with thread := some t }
    rw [heq]
    exact hleaf
  · obtain hsame | ⟨a, ha⟩ := annotation?_annotate st iv jv fun a => { a with thread := some t }
    · rwa [kindOf, isBound, thread?, hsame]
    · rw [kindOf, isBound, thread?, ha]
      show IterKind.threadIndex ∉ Action.bind.forbidden
      decide

theorem not_bindFamily_fails {family : String} {axes : List Operand}
    (h : ∀ axis ∈ axes, ∀ suffix ∈ ["z", "y", "x"], st.Bindable (family ++ "." ++ suffix) axis) :
    ¬(bindFamily family axes).Fails st g e st' g' := by
  unfold bindFamily
  have hpairs : ∀ p ∈ axes.zip (["z", "y", "x"].drop (3 - axes.length)), st.Bindable (family ++ "." ++ p.2) p.1 := by
    intro p hp
    obtain ⟨haxis, hsuffix⟩ := List.of_mem_zip hp
    exact h p.1 haxis p.2 (List.mem_of_mem_drop hsuffix)
  clear h
  generalize axes.zip (["z", "y", "x"].drop (3 - axes.length)) = l at hpairs
  induction l generalizing st g with
  | nil => exact Edit.not_fails_pure
  | cons p l ih =>
    obtain ⟨axis, suffix⟩ := p
    rw [List.forall_mem_cons] at hpairs
    rw [List.mapM_cons]
    intro hfails
    obtain hfails | ⟨t, st₁, g₁, hyields, hfails⟩ := Edit.fails_bind.mp hfails
    · rw [Edit.fails_freshVar_bind, Edit.fails_bind] at hfails
      obtain hfails | ⟨_, _, _, _, hfails⟩ := hfails
      · exact not_bind_fails rfl hpairs.1 hfails
      · exact Edit.not_fails_pure hfails
    · obtain hfails | ⟨_, _, _, _, hfails⟩ := Edit.fails_bind.mp hfails
      · rw [Edit.yields_freshVar_bind, Edit.yields_bind] at hyields
        obtain ⟨_, st₂, g₂, hbind, hyields⟩ := hyields
        obtain ⟨-, rfl, -⟩ := Edit.yields_pure.mp hyields
        obtain ⟨t', iv, -, -, rfl, -⟩ := bind_inv hbind
        exact ih (fun q hq => (hpairs.2 q hq).annotate iv t') hfails
      · exact Edit.not_fails_pure hfails

/-- Axes that pass all checks are bound to blocks and threads. -/
theorem bindGpu_fails {blocks threads : List Operand} (h : (bindGpu blocks threads).Fails st g e st' g') : st' = st := by
  unfold bindGpu at h
  rw [Edit.fails_get_bind] at h
  simp only at h
  split at h
  · exact (Edit.fails_throw_bind.mp h).2.1.symm
  split at h
  · exact (Edit.fails_throw_bind.mp h).2.1.symm
  obtain ⟨-, rfl, -⟩ | ⟨ivs, hivs, h⟩ := Edit.fails_liftExcept_bind.mp h
  · rfl
  obtain hcheck | ⟨_, st₁, g₁, hcheck, hbind⟩ := Edit.fails_bind.mp h
  · exact Edit.fails_forM_check hcheck
  obtain ⟨hblocks, rfl, rfl⟩ := Edit.yields_forM_check.mp hcheck
  rw [legals, List.mapM_append] at hivs
  obtain ⟨bs, hbs, hivs⟩ := bind_eq_ok.mp hivs
  obtain ⟨ts, hts, hivs⟩ := bind_eq_ok.mp hivs
  obtain rfl := Except.ok.inj hivs
  rw [← length_mapM hbs, List.take_left] at hblocks
  -- No axis of a block is reduced over, and threads can run over any axis.
  obtain hbind | ⟨_, st₂, g₂, hfamily, hbind⟩ := Edit.fails_bind.mp hbind
  · refine absurd hbind (not_bindFamily_fails fun axis haxis suffix _ => ?_)
    obtain ⟨iv, hiv, hlegal⟩ := (mem_mapM hbs).2 axis haxis
    exact ⟨iv, hlegal, fun hred => absurd hred (hblocks iv hiv)⟩
  obtain hbind | ⟨_, _, _, _, hpure⟩ := Edit.fails_bind.mp hbind
  · refine absurd hbind (not_bindFamily_fails fun axis haxis suffix _ => ?_)
    obtain ⟨iv, -, hlegal⟩ := (mem_mapM hts).2 axis haxis
    exact (bindFamily_keeps (I := fun st => st.Bindable _ axis) (fun h _ _ => h.annotate _ _)
      ⟨iv, hlegal, fun _ => by simp [isThreadTag]⟩ hfamily).1
  · exact absurd hpure Edit.not_fails_pure

/-! ### All transforms -/

/-- A transform that fails leaves the stage as it was, but for those that go on after a change. -/
theorem Transform.left_of_fails {t : Transform} (h : t.run.Fails st g e st' g') : Left (t.Tears st g) st st' := by
  have hwhole : st' = st → Left False st st' := fun heq => heq ▸ .whole not_false
  cases t with
  | split parent factor nparts => exact hwhole (split_fails (Edit.fails_discard.mp h))
  | fuse axes => exact fuse_fails (Edit.fails_discard.mp h)
  | reorder axes => exact hwhole (reorder_fails h)
  | tile x y xFactor yFactor => exact tile_fails (Edit.fails_discard.mp h)
  | parallel axis => exact hwhole (mark_fails h)
  | vectorize axis => exact hwhole (mark_fails h)
  | unroll axis => exact hwhole (mark_fails h)
  | bind axis thread => exact hwhole (bind_fails h)
  | bindGpu blocks threads => exact hwhole (bindGpu_fails (Edit.fails_discard.mp h))
  | computeInline => exact hwhole (computeInline_fails h)
  | computeRoot => exact absurd h Edit.not_fails_modify
  | setScope scope => exact absurd h Edit.not_fails_modify
  | doubleBuffer => exact absurd h Edit.not_fails_modify
  | prefetch tensor axis offset => exact prefetch_fails h

end Stage

namespace Schedule

variable {s s' : Schedule} {g g' : Graph} {e : Error}

theorem computeAt_fails {id : Nat} {parent : Option Nat} {axis : Operand}
    (h : (computeAt id parent axis).Fails s g e s' g') : s' = s := by
  unfold computeAt at h
  rw [Edit.fails_get_bind] at h
  split at h
  · simp only at h
    split at h
    · exact (Edit.fails_throw_bind.mp h).2.1.symm
    split at h
    · exact (Edit.fails_throw_bind.mp h).2.1.symm
    obtain ⟨-, rfl, -⟩ | ⟨iv, -, h⟩ := Edit.fails_liftExcept_bind.mp h
    · rfl
    · exact absurd h Edit.not_fails_set
  · exact (Edit.fails_throw.mp h).2.1.symm
  · exact (Edit.fails_throw.mp h).2.1.symm

/-- What a failing change of one stage leaves: that stage as the change left it. -/
theorem onStage_fails {α : Type} {id : Nat} {x : Edit Stage α} (h : (onStage id x).Fails s g e s' g') :
    (s.stage? id = none ∧ s' = s) ∨ ∃ st st', s.stage? id = some st ∧ x.Fails st g e st' g' ∧ s' = s.setStage st' := by
  unfold onStage at h
  rw [Edit.fails_get_bind] at h
  split at h
  · rename_i st hst
    obtain ⟨st', hx, rfl⟩ := Edit.fails_onPart.mp h
    exact Or.inr ⟨st, st', hst, hx, rfl⟩
  · rename_i hnone
    exact Or.inl ⟨hnone, (Edit.fails_throw.mp h).2.1.symm⟩

/-- Transforms that change one stage, unlike those that make new operations. -/
def Transform.ofStage : Transform → Bool
  | .onStage .. | .computeAt .. => true
  | .cacheWrite .. | .normalize => false

/-- What a transform of one stage has done to it before it can fail. -/
def Tears (s : Schedule) (g : Graph) : Transform → Prop
  | .onStage id t => ∃ st, s.stage? id = some st ∧ t.Tears st g
  | _ => False

/-- A schedule with a stage replaced by one of the same number has the stages it had if these are the same. -/
theorem stage?_setStage_eq_iff {id : Nat} {st st' : Stage} (hst : s.stage? id = some st) (hid : st'.id = st.id) :
    (∀ j, (s.setStage st').stage? j = s.stage? j) ↔ st' = st := by
  have hst' : s.stage? st'.id = some st := by rw [hid, (mem_of_stage? hst).2, hst]
  constructor
  · intro h
    exact Option.some.inj ((stage?_setStage_self hst').symm.trans ((h st'.id).trans hst'))
  · rintro rfl j
    rw [setStage, stage?_mapStages (by intro t; split <;> simp_all)]
    cases ht : s.stage? j with
    | none => rfl
    | some t =>
      have hj := (mem_of_stage? ht).2
      by_cases htid : t.id = st'.id
      · obtain rfl := Option.some.inj (ht.symm.trans (by rw [← hj, htid, hst']))
        simp
      · simp [htid]

/-- A transform of one stage that fails leaves every stage as it was, if and only if it is not one of those
    that go on after a change. -/
theorem unchanged_iff_of_fails {t : Transform} (ht : t.ofStage) (h : t.run.Fails s g e s' g') :
    (∀ id, s'.stage? id = s.stage? id) ↔ ¬s.Tears g t := by
  cases t with
  | onStage id t =>
    obtain ⟨hnone, rfl⟩ | ⟨st, st', hst, hfails, rfl⟩ := onStage_fails h
    · refine iff_of_true (fun _ => rfl) fun ⟨st, hst, _⟩ => ?_
      rw [hnone] at hst
      cases hst
    · have hleft := Stage.Transform.left_of_fails hfails
      have htears : s.Tears g (.onStage id t) ↔ t.Tears st g :=
        ⟨fun ⟨st₁, hst₁, ht⟩ => Option.some.inj (hst₁.symm.trans hst) ▸ ht, fun ht => ⟨st, hst, ht⟩⟩
      rw [htears, stage?_setStage_eq_iff hst hleft.id_eq, hleft.unchanged_iff]
  | computeAt id parent axis =>
    obtain rfl := computeAt_fails h
    exact iff_of_true (fun _ => rfl) not_false
  | cacheWrite target scope => cases ht
  | normalize => cases ht

namespace Filled

def axis : IterVar :=
  ⟨some ⟨.const (.int 0) .int32, .const (.int 4) .int32⟩, ⟨0, "i", .int32⟩, .dataParallel, ""⟩

/-- `A[i] = 7` -/
def sevens : Operation := ⟨0, "A", "", [], .compute [axis] [.const (.int 7) .int32]⟩

def graph : Graph := { ops := #[some sevens], next := 1 }

def start : Schedule := addStage { outputs := [sevens] } sevens

def splitByZero : Transform := .onStage 0 (.split (.axis axis) (.number (.int 0)) .nothing)

def prefetchNowhere : Transform := .onStage 0 (.prefetch (.tensor sevens.ref 0) (.axis axis) .nothing)

/-- The schedule that a failing transform leaves. -/
def left (t : Transform) : Schedule := (t.run.outcome start graph).1.2

theorem fails_left {t : Transform} (h : (t.run.outcome start graph).1.1.isOk = false) :
    ∃ e, t.run.Fails start graph e (left t) (t.run.outcome start graph).2 :=
  Edit.fails_outcome h

/-- A split by zero leaves the stage as it was, a prefetch that is no number of iterations ahead does not. -/
theorem unchanged_splitByZero :
    (∀ id, (left splitByZero).stage? id = start.stage? id) ∧
      ¬∀ id, (left prefetchNowhere).stage? id = start.stage? id := by
  obtain ⟨e, hsplit⟩ := fails_left (t := splitByZero) (by decide +kernel)
  obtain ⟨e', hprefetch⟩ := fails_left (t := prefetchNowhere) (by decide +kernel)
  constructor
  · exact (unchanged_iff_of_fails rfl hsplit).mpr fun ⟨_, _, htears⟩ => htears
  · rw [unchanged_iff_of_fails rfl hprefetch]
    exact fun hnot => hnot ⟨_, rfl, axis, rfl⟩

end Filled

end Schedule

end TensorNest

import TensorNest.Lowering.Barrier
import TensorNest.Proofs.Trails

/-! # Barriers between writes and reads

Along a path through a thread region, a buffer that a statement writes is read by another one only after a barrier
(`Stmt.Separated`). A sequence keeps this because `written` holds whatever has been written since its last barrier
(`Stmt.separated_withBarriers`), and a loop because each turn ends with a barrier or no turn reads what another one
writes. A statement with bodies that takes an address is executed before its bodies, and no barrier is put between them,
so this asks that the bodies do not read what it takes the address of. -/

namespace TensorNest

/-! ### Accesses -/

namespace Accesses

variable {counts : Var → Bool} {s t b : Stmt} {x : Nat}

/-- What a statement accesses outside of its bodies. -/
def own (counts : Var → Bool) (s : Stmt) : Accesses :=
  (Stmt.exprsNodes s.exprParts ++ [Node.stmt s]).foldl (add counts) {}

theorem add_eq (a : Accesses) (n : Node) : add counts a n =
    ⟨(add counts {} n).reads ++ a.reads, (add counts {} n).writes ++ a.writes⟩ := by
  unfold add
  split
  · split <;> rfl
  · split <;> rfl
  · split <;> rfl
  · rfl

theorem mem_foldl_add (ns : List Node) (a : Accesses) :
    (x ∈ (ns.foldl (add counts) a).reads ↔ (∃ n ∈ ns, x ∈ (add counts {} n).reads) ∨ x ∈ a.reads) ∧
      (x ∈ (ns.foldl (add counts) a).writes ↔ (∃ n ∈ ns, x ∈ (add counts {} n).writes) ∨ x ∈ a.writes) := by
  induction ns generalizing a with
  | nil => simp
  | cons n ns ih =>
    rw [List.foldl_cons, (ih _).1, (ih _).2, add_eq]
    simp only [List.mem_append, List.mem_cons, exists_eq_or_imp, or_assoc, or_left_comm, and_self]

/-- A statement accesses what its bodies and what it does itself. -/
theorem mem_ofStmt : (x ∈ (ofStmt counts s).reads ↔ (∃ b ∈ s.bodies, x ∈ (ofStmt counts b).reads) ∨
      x ∈ (own counts s).reads) ∧
    (x ∈ (ofStmt counts s).writes ↔ (∃ b ∈ s.bodies, x ∈ (ofStmt counts b).writes) ∨ x ∈ (own counts s).writes) := by
  have hnil : x ∉ (({} : Accesses).reads) ∧ x ∉ (({} : Accesses).writes) := ⟨List.not_mem_nil, List.not_mem_nil⟩
  simp only [ofStmt, own, mem_foldl_add, hnil, or_false, Stmt.mem_postorder (s := s)]
  constructor
  all_goals
    constructor
    · rintro ⟨n, ⟨b, hb, hn⟩ | hn, hx⟩
      · exact .inl ⟨b, hb, n, hn, hx⟩
      · exact .inr ⟨n, hn, hx⟩
    · rintro (⟨b, hb, n, hn, hx⟩ | ⟨n, hn, hx⟩)
      · exact ⟨n, .inl ⟨b, hb, hn⟩, hx⟩
      · exact ⟨n, .inr hn, hx⟩

theorem own_subset (ht : t ∈ s.stmts) : (own counts t).reads ⊆ (ofStmt counts s).reads ∧
    (own counts t).writes ⊆ (ofStmt counts s).writes := by
  induction s using Stmt.induct_bodies with
  | step s ih =>
    rw [Stmt.stmts_eq] at ht
    rcases List.mem_append.mp ht with ht | ht
    · obtain ⟨b, hb, ht⟩ := List.mem_flatMap.mp ht
      exact ⟨fun x hx => mem_ofStmt.1.mpr (.inl ⟨b, hb, (ih b hb ht).1 hx⟩),
        fun x hx => mem_ofStmt.2.mpr (.inl ⟨b, hb, (ih b hb ht).2 hx⟩)⟩
    · obtain rfl := List.mem_singleton.mp ht
      exact ⟨fun x hx => mem_ofStmt.1.mpr (.inr hx), fun x hx => mem_ofStmt.2.mpr (.inr hx)⟩

/-- A statement with bodies accesses by itself what its expressions access. -/
theorem own_congr (hparts : t.exprParts = s.exprParts) (hs : s.bodies ≠ []) (ht : t.bodies ≠ []) :
    own counts t = own counts s := by
  have hlast {u : Stmt} (hu : u.bodies ≠ []) (a : Accesses) : add counts a (.stmt u) = a := by
    cases u with
    | store => exact absurd rfl hu
    | _ => rfl
  rw [own, own, List.foldl_append, List.foldl_append, hparts]
  simp only [List.foldl_cons, List.foldl_nil, hlast hs, hlast ht]

theorem overlap_eq_false {reads writes : List Nat} (h : ¬overlap reads writes) (hx : x ∈ writes) : x ∉ reads := fun hmem =>
  h (List.any_eq_true.mpr ⟨x, hmem, List.contains_iff_mem.mpr hx⟩)

end Accesses

namespace Stmt

variable {scope : String} {counts : Var → Bool} {s t b : Stmt} {ss ts p q : List Stmt} {x : Nat} {written : List Nat}
  {inside : Bool}

/-! ### Paths with barriers -/

/-- Along a path, a buffer is read only after a barrier. -/
def Guarded (scope : String) (counts : Var → Bool) (x : Nat) (p : List Stmt) : Prop :=
  ∀ p₁ s p₂, p = p₁ ++ s :: p₂ → x ∈ (Accesses.own counts s).reads → barrier scope ∈ p₁

/-- Along a path, a buffer that a statement has written is read by a later one only after a barrier between them. -/
def Separated (scope : String) (counts : Var → Bool) (p : List Stmt) : Prop :=
  ∀ p₁ s p₂, p = p₁ ++ s :: p₂ → ∀ x ∈ (Accesses.own counts s).writes, Guarded scope counts x p₂

theorem guarded_nil : Guarded scope counts x [] := by
  rintro (_ | ⟨t, p₁⟩) s p₂ h <;> cases h

theorem reads_barrier : (Accesses.own counts (barrier scope)).reads = [] := rfl

theorem writes_barrier : (Accesses.own counts (barrier scope)).writes = [] := rfl

theorem guarded_barrier : Guarded scope counts x (barrier scope :: p) := by
  rintro (_ | ⟨t, p₁⟩) s p₂ h hx
  · cases h
    rw [reads_barrier] at hx
    cases hx
  · cases h
    exact List.mem_cons_self

theorem Guarded.append (hp : Guarded scope counts x p) (hq : Guarded scope counts x q) :
    Guarded scope counts x (p ++ q) := by
  intro p₁ s p₂ heq hx
  obtain ⟨r, rfl, hr⟩ | ⟨r, rfl, hr⟩ := List.append_eq_append_iff.mp heq
  · exact List.mem_append_right _ (hq r s p₂ hr hx)
  · rcases r with _ | ⟨u, r⟩
    · cases hq [] s p₂ hr.symm hx
    · cases hr
      exact hp p₁ s r rfl hx

/-- What is not read is read only after a barrier. -/
theorem guarded_of_unread (h : ∀ s ∈ p, x ∉ (Accesses.own counts s).reads) : Guarded scope counts x p := fun _ s _ heq hx =>
  absurd hx (h s (heq ▸ List.mem_append_right _ List.mem_cons_self))

theorem separated_nil : Separated scope counts [] := by
  rintro (_ | ⟨t, p₁⟩) s p₂ h <;> cases h

theorem Separated.cons (hs : ∀ x ∈ (Accesses.own counts s).writes, Guarded scope counts x p)
    (h : Separated scope counts p) :
    Separated scope counts (s :: p) := by
  rintro (_ | ⟨t, p₁⟩) u p₂ heq
  · cases heq
    exact hs
  · cases heq
    exact h p₁ u p₂ rfl

theorem Separated.append (hp : Separated scope counts p) (hq : Separated scope counts q)
    (h : ∀ s ∈ p, ∀ x ∈ (Accesses.own counts s).writes, Guarded scope counts x q) : Separated scope counts (p ++ q) := by
  intro p₁ s p₂ heq x hx
  obtain ⟨r, rfl, hr⟩ | ⟨r, rfl, hr⟩ := List.append_eq_append_iff.mp heq
  · exact hq r s p₂ hr x hx
  · rcases r with _ | ⟨u, r⟩
    · exact hq [] s p₂ hr.symm x hx
    · cases hr
      exact (hp p₁ s r rfl x hx).append (h s (List.mem_append_right _ List.mem_cons_self) x hx)

/-- A path reads a buffer only where the statement reads it. -/
theorem Path.guarded (h : s.Path p) (hx : x ∉ (Accesses.ofStmt counts s).reads) : Guarded scope counts x p :=
  guarded_of_unread fun _ ht hread => hx ((Accesses.own_subset (h.mem_stmts ht)).1 hread)

theorem Path.mem_writes (h : s.Path p) (ht : t ∈ p) (hx : x ∈ (Accesses.own counts t).writes) :
    x ∈ (Accesses.ofStmt counts s).writes :=
  (Accesses.own_subset (h.mem_stmts ht)).2 hx

/-- A statement that executes at most one of its bodies keeps writes and reads apart if its bodies do and if they do not
    read what it writes itself. -/
theorem Path.separated_of_body (h : s.Path p) (hcourse : ∀ bs, s.Course bs → bs.length ≤ 1)
    (hbodies : ∀ b ∈ s.bodies, ∀ q, b.Path q → Separated scope counts q)
    (hown : ∀ b ∈ s.bodies, ∀ x ∈ (Accesses.own counts s).writes, x ∉ (Accesses.ofStmt counts b).reads) :
    Separated scope counts p := by
  obtain ⟨hbs, hps⟩ := h
  rename_i bs ps
  have hbody : Separated scope counts ps.flatten ∧ ∀ x ∈ (Accesses.own counts s).writes,
    Guarded scope counts x ps.flatten := by
    rcases hps with _ | ⟨hb, _ | _⟩
    · exact ⟨separated_nil, fun _ _ => guarded_nil⟩
    · have hmem := hbs.mem_bodies List.mem_cons_self
      rw [List.flatten_singleton]
      exact ⟨hbodies _ hmem _ hb, fun x hx => hb.guarded (hown _ hmem x hx)⟩
    · exact absurd (hcourse _ hbs) (by simp)
  unfold listed
  split
  · exact hbody.1
  · exact hbody.1.cons hbody.2

/-! ### Sequences -/

/-- The paths through statements that are executed one after the other. -/
def Paths (ss : List Stmt) (p : List Stmt) : Prop :=
  ∃ ps, List.Forall₂ Path ss ps ∧ p = ps.flatten

theorem paths_nil : Paths [] p ↔ p = [] := by
  simp [Paths]

theorem paths_cons : Paths (s :: ss) p ↔ ∃ q r, s.Path q ∧ Paths ss r ∧ p = q ++ r := by
  constructor
  · rintro ⟨_, _ | ⟨hq, hps⟩, rfl⟩
    exact ⟨_, _, hq, ⟨_, hps, rfl⟩, rfl⟩
  · rintro ⟨q, _, hq, ⟨ps, hps, rfl⟩, rfl⟩
    exact ⟨q :: ps, .cons hq hps, rfl⟩

theorem paths_append : Paths (ss ++ ts) p ↔ ∃ q r, Paths ss q ∧ Paths ts r ∧ p = q ++ r := by
  induction ss generalizing p with
  | nil => simp [paths_nil]
  | cons s ss ih =>
    simp only [List.cons_append, paths_cons, ih]
    constructor
    · rintro ⟨q, _, hq, ⟨r, r', hr, hr', rfl⟩, rfl⟩
      exact ⟨q ++ r, r', ⟨q, r, hq, hr, rfl⟩, hr', (List.append_assoc ..).symm⟩
    · rintro ⟨_, r', ⟨q, r, hq, hr, rfl⟩, hr', rfl⟩
      exact ⟨q, r ++ r', hq, ⟨r, r', hr, hr', rfl⟩, List.append_assoc ..⟩

theorem path_seq : (seq ss).Path p ↔ Paths ss p := by
  constructor
  · rintro ⟨⟨⟩, hps⟩
    exact ⟨_, hps, rfl⟩
  · rintro ⟨ps, hps, rfl⟩
    exact .through (.all rfl) hps

theorem paths_singleton : Paths [s] p ↔ s.Path p := by
  simp [paths_cons, paths_nil]

theorem paths_items : Paths s.items p ↔ s.Path p := by
  cases s with
  | seq ss => exact path_seq.symm
  | _ => exact paths_singleton

theorem paths_flatMap_items : Paths (ss.flatMap items) p ↔ Paths ss p := by
  induction ss generalizing p with
  | nil => rfl
  | cons s ss ih => simp only [List.flatMap_cons, paths_append, paths_items, paths_cons, ih]

/-- The paths through the statement that statements are put together to are those through the statements, if there are
    any. -/
theorem path_ofList (h : ss.flatMap items ≠ []) : (ofList ss).Path p ↔ Paths ss p := by
  rw [← paths_flatMap_items]
  unfold ofList
  generalize ss.flatMap items = ts at h ⊢
  rcases ts with _ | ⟨t, _ | ⟨t', ts⟩⟩
  · exact absurd rfl h
  · exact paths_singleton.symm
  · exact path_seq

theorem Path.of_noOp (h : noOp.Path p) : p = [noOp] := by
  rcases h with ⟨⟨⟩, _ | _⟩
  rfl

theorem separated_noOp : Separated scope counts [noOp] :=
  separated_nil.cons fun _ _ => guarded_nil

/-- `written` holds what may have been written since the last barrier. -/
theorem separated_withBarriers (hss : ∀ s ∈ ss, ∀ q, s.Path q → Separated scope counts q)
    (hp : Paths (withBarriers scope counts written ss) p) :
    Separated scope counts p ∧ ∀ x ∈ written, Guarded scope counts x p := by
  induction ss generalizing written p with
  | nil =>
    obtain rfl := paths_nil.mp hp
    exact ⟨separated_nil, fun _ _ => guarded_nil⟩
  | cons s ss ih =>
    obtain ⟨hs, hss⟩ := List.forall_mem_cons.mp hss
    unfold withBarriers at hp
    dsimp only at hp
    split at hp
    · obtain ⟨_, _, hbarrier, hitems, rfl⟩ := paths_cons.mp hp
      obtain ⟨q, r, hq, hr, rfl⟩ := paths_cons.mp hitems
      obtain ⟨hsep, hguard⟩ := ih hss hr
      rcases hbarrier with ⟨⟨⟩, _ | _⟩
      have hrest : Separated scope counts (q ++ r) := (hs q hq).append hsep fun t ht x hx => hguard x (hq.mem_writes ht hx)
      refine ⟨hrest.cons fun x hx => ?_, fun x _ => guarded_barrier⟩
      rw [writes_barrier] at hx
      cases hx
    · rename_i hoverlap
      obtain ⟨q, r, hq, hr, rfl⟩ := paths_cons.mp hp
      obtain ⟨hsep, hguard⟩ := ih hss hr
      refine ⟨(hs q hq).append hsep fun t ht x hx => hguard x (List.mem_append_left _ (hq.mem_writes ht hx)),
        fun x hx => ?_⟩
      exact (hq.guarded (Accesses.overlap_eq_false hoverlap hx)).append (hguard x (List.mem_append_right _ hx))

theorem length_le_withBarriers : ss.length ≤ (withBarriers scope counts written ss).length := by
  induction ss generalizing written with
  | nil => exact Nat.le_refl _
  | cons s ss ih =>
    unfold withBarriers
    dsimp only
    split
    · exact Nat.succ_le_succ (Nat.le_succ_of_le ih)
    · exact Nat.succ_le_succ ih

/-- A sequence that does not grow gets no barriers. -/
theorem withBarriers_eq_self (h : (withBarriers scope counts written ss).length = ss.length) :
    withBarriers scope counts written ss = ss := by
  induction ss generalizing written with
  | nil => rfl
  | cons s ss ih =>
    unfold withBarriers at h ⊢
    dsimp only at h ⊢
    split at h
    · have hle : ss.length ≤ (withBarriers scope counts (Accesses.ofStmt counts s).writes ss).length :=
        length_le_withBarriers
      simp only [List.length_cons] at h
      omega
    · rename_i hoverlap
      rw [if_neg hoverlap, ih (Nat.succ.inj h)]

theorem barrier_mem_withBarriers (h : withBarriers scope counts written ss ≠ ss) :
    barrier scope ∈ withBarriers scope counts written ss := by
  induction ss generalizing written with
  | nil => exact absurd rfl h
  | cons s ss ih =>
    unfold withBarriers at h ⊢
    dsimp only at h ⊢
    split
    · exact List.mem_cons_self
    · rename_i hoverlap
      rw [if_neg hoverlap] at h
      exact List.mem_cons_of_mem _ (ih fun hsame => h (congrArg _ hsame))

theorem subset_withBarriers : ss ⊆ withBarriers scope counts written ss := by
  induction ss generalizing written with
  | nil => exact List.Subset.refl []
  | cons s ss ih =>
    unfold withBarriers
    dsimp only
    split
    · exact List.subset_cons_of_subset _ (List.cons_subset_cons s ih)
    · exact List.cons_subset_cons s ih

/-! ### Statements with barriers -/

theorem onList_eq_map : synced.onList scope counts inside ss = ss.map (·.synced scope counts inside) := by
  induction ss with
  | nil => rfl
  | cons s ss ih => rw [synced.onList, ih, List.map_cons]

/-- A sequence gets barriers, or none of its items needs one and it stays a sequence. -/
theorem syncSeq_cases (scope : String) (counts : Var → Bool) (rs : List (Revised Stmt)) :
    syncSeq scope counts rs = .kept (seq (withBarriers scope counts [] (rs.map (·.term)))) ∨
      (syncSeq scope counts rs).term = ofList (withBarriers scope counts [] (rs.map (·.term))) ∧
        (barrier scope ∈ withBarriers scope counts [] (rs.map (·.term)) ∨ ∃ r ∈ rs, r.changed) := by
  unfold syncSeq
  dsimp only
  split
  · rename_i h
    rw [withBarriers_eq_self (of_decide_eq_true (Bool.and_eq_true_iff.mp h).1)]
    exact .inl rfl
  · rename_i h
    refine .inr ⟨rfl, ?_⟩
    by_cases hchanged : rs.any (·.changed)
    · exact .inr (List.any_eq_true.mp hchanged)
    · refine .inl (barrier_mem_withBarriers fun hsame => h ?_)
      rw [hsame, Bool.eq_false_of_not_eq_true hchanged]
      simp

theorem mem_withBarriers (h : t ∈ withBarriers scope counts written ss) : t = barrier scope ∨ t ∈ ss := by
  induction ss generalizing written with
  | nil => cases h
  | cons s ss ih =>
    unfold withBarriers at h
    dsimp only at h
    split at h
    · rcases List.mem_cons.mp h with rfl | h
      · exact .inl rfl
      · rcases List.mem_cons.mp h with rfl | h
        · exact .inr List.mem_cons_self
        · exact (ih h).imp_right (List.mem_cons_of_mem _)
    · rcases List.mem_cons.mp h with rfl | h
      · exact .inr List.mem_cons_self
      · exact (ih h).imp_right (List.mem_cons_of_mem _)

/-! Barriers read nothing. -/

theorem unread_seq (h : ∀ s ∈ ss, x ∉ (Accesses.ofStmt counts s).reads) : x ∉ (Accesses.ofStmt counts (seq ss)).reads := by
  rw [Accesses.mem_ofStmt.1]
  rintro (⟨s, hs, hx⟩ | hx)
  · exact h s hs hx
  · cases hx

theorem unread_items (h : x ∉ (Accesses.ofStmt counts s).reads) (ht : t ∈ s.items) :
    x ∉ (Accesses.ofStmt counts t).reads := by
  cases s with
  | seq ss => exact fun hx => h (Accesses.mem_ofStmt.1.mpr (.inl ⟨t, ht, hx⟩))
  | _ => rwa [List.mem_singleton.mp ht]

theorem unread_ofList (h : ∀ s ∈ ss, x ∉ (Accesses.ofStmt counts s).reads) :
    x ∉ (Accesses.ofStmt counts (ofList ss)).reads := by
  have hitems : ∀ t ∈ ss.flatMap items, x ∉ (Accesses.ofStmt counts t).reads := fun t ht => by
    obtain ⟨s, hs, ht⟩ := List.mem_flatMap.mp ht
    exact unread_items (h s hs) ht
  unfold ofList
  generalize ss.flatMap items = ts at hitems
  rcases ts with _ | ⟨t, _ | ⟨t', ts⟩⟩
  · exact List.not_mem_nil
  · exact hitems t List.mem_cons_self
  · exact unread_seq hitems

theorem unread_withBarriers (h : ∀ s ∈ ss, x ∉ (Accesses.ofStmt counts s).reads)
    (ht : t ∈ withBarriers scope counts written ss) :
    x ∉ (Accesses.ofStmt counts t).reads := by
  rcases mem_withBarriers ht with rfl | ht
  · exact List.not_mem_nil
  · exact h t ht

theorem unread_of_bodies (h : x ∉ (Accesses.ofStmt counts s).reads) (hparts : t.exprParts = s.exprParts)
    (hs : s.bodies ≠ [])
    (ht : t.bodies ≠ [])
    (hbodies : (∀ b ∈ s.bodies, x ∉ (Accesses.ofStmt counts b).reads) →
      ∀ b ∈ t.bodies, x ∉ (Accesses.ofStmt counts b).reads) : x ∉ (Accesses.ofStmt counts t).reads := by
  rw [Accesses.mem_ofStmt.1, not_or] at h ⊢
  rw [Accesses.own_congr hparts hs ht]
  refine ⟨?_, h.2⟩
  rintro ⟨b, hb, hx⟩
  exact hbodies (fun b hb hx => h.1 ⟨b, hb, hx⟩) b hb hx

theorem unread_of_body {b' : Stmt} (h : x ∉ (Accesses.ofStmt counts s).reads) (hparts : t.exprParts = s.exprParts)
    (hs : s.bodies = [b])
    (ht : t.bodies = [b']) (hb : x ∉ (Accesses.ofStmt counts b).reads → x ∉ (Accesses.ofStmt counts b').reads) :
    x ∉ (Accesses.ofStmt counts t).reads := by
  refine unread_of_bodies h hparts (hs ▸ List.cons_ne_nil b []) (ht ▸ List.cons_ne_nil b' []) fun hbodies => ?_
  rw [ht, List.forall_mem_singleton]
  rw [hs, List.forall_mem_singleton] at hbodies
  exact hb hbodies

/-- With barriers, a statement reads what it reads without them. -/
theorem unread_synced (h : x ∉ (Accesses.ofStmt counts s).reads) :
    x ∉ (Accesses.ofStmt counts (s.synced scope counts inside).term).reads := by
  induction s generalizing inside with
  | bind v value body ih | allocate site v t extents cond body ih | realize op output t bounds cond body ih =>
    exact unread_of_body h rfl rfl rfl fun hb => ih hb
  | attr subject key value body ih => exact unread_of_body h rfl rfl rfl fun hb => ih hb
  | assert cond message body ih => exact unread_of_body h rfl rfl rfl fun hb => ih hb
  | loop v min extent kind body ih =>
    unfold synced
    dsimp only
    split
    · unfold syncLoop
      dsimp only
      split
      · refine unread_of_body h rfl rfl rfl fun hb => ?_
        exact unread_ofList (List.forall_mem_cons.mpr ⟨ih hb, List.forall_mem_singleton.mpr List.not_mem_nil⟩)
      · exact unread_of_body h rfl rfl rfl fun hb => ih hb
    · exact unread_of_body h rfl rfl rfl fun hb => ih hb
  | seq ss ih =>
    have hitems : ∀ t ∈ (ss.map (·.synced scope counts inside)).map (·.term), x ∉ (Accesses.ofStmt counts t).reads := by
      intro t ht
      obtain ⟨r, hr, rfl⟩ := List.mem_map.mp ht
      obtain ⟨s, hs, rfl⟩ := List.mem_map.mp hr
      exact ih s hs fun hx => h (Accesses.mem_ofStmt.1.mpr (.inl ⟨s, hs, hx⟩))
    unfold synced
    dsimp only
    rw [onList_eq_map]
    split
    · rcases syncSeq_cases scope counts (ss.map (·.synced scope counts inside)) with hterm | ⟨hterm, -⟩
      · rw [hterm]
        exact unread_seq fun t => unread_withBarriers hitems
      · rw [hterm]
        exact unread_ofList fun t => unread_withBarriers hitems
    · exact unread_seq hitems
  | branch cond onTrue onFalse iht ihf =>
    cases onFalse with
    | none => exact unread_of_body h rfl rfl rfl fun hb => iht hb
    | some onFalse =>
      refine unread_of_bodies h rfl (List.cons_ne_nil _ _) (List.cons_ne_nil _ _) fun hb => ?_
      exact List.forall_mem_cons.mpr ⟨iht (hb _ List.mem_cons_self), List.forall_mem_singleton.mpr
        (ihf onFalse rfl (hb _ (List.mem_cons_of_mem _ List.mem_cons_self)))⟩
  | store | provide | prefetch | eval => exact h

/-- No statement takes an address, or writes in another way, before its bodies read the buffer. -/
def Direct (counts : Var → Bool) (s : Stmt) : Prop :=
  ∀ t ∈ s.stmts, ∀ b ∈ t.bodies, ∀ x ∈ (Accesses.own counts t).writes, x ∉ (Accesses.ofStmt counts b).reads

theorem Direct.body (h : s.Direct counts) (hb : b ∈ s.bodies) : b.Direct counts :=
  (forall_mem_stmts.mp h).1 b hb

theorem Direct.unread (h : s.Direct counts) (hb : b ∈ s.bodies) (hx : x ∈ (Accesses.own counts s).writes) :
    x ∉ (Accesses.ofStmt counts b).reads :=
  (forall_mem_stmts.mp h).2 b hb x hx

section Loops
variable {v : Var} {min extent : Expr} {kind : LoopKind} {body : Stmt}

/-- The paths through a loop are those through its turns. -/
theorem Path.of_loop (h : (loop v min extent kind body).Path p) :
    ∃ ps : List (List Stmt), (∀ q ∈ ps, body.Path q) ∧ p = loop v min extent kind body :: ps.flatten := by
  obtain ⟨hbs, hps⟩ := h
  rename_i bs ps
  refine ⟨ps, fun q hq => ?_, rfl⟩
  obtain ⟨b, hb, hpath⟩ := exists_of_forall₂ hps q hq
  rwa [List.mem_singleton.mp (hbs.mem_bodies hb)] at hpath

/-- The turns of a loop are apart if each of them ends with a barrier. -/
theorem separated_turns_of_barrier {ps : List (List Stmt)}
    (h : ∀ q ∈ ps, ∃ r, Separated scope counts r ∧ q = r ++ [barrier scope]) : Separated scope counts ps.flatten := by
  induction ps with
  | nil => exact separated_nil
  | cons q ps ih =>
    obtain ⟨⟨r, hr, rfl⟩, hps⟩ := List.forall_mem_cons.mp h
    rw [List.flatten_cons, List.append_assoc]
    refine hr.append ((ih hps).cons fun x hx => ?_) fun _ _ x _ => guarded_barrier
    rw [writes_barrier] at hx
    cases hx

/-- The turns of a loop are apart if none of them reads what one of them writes. -/
theorem separated_turns_of_unread {ps : List (List Stmt)} (h : ∀ q ∈ ps, body.Path q ∧ Separated scope counts q)
    (hbody : ∀ x ∈ (Accesses.ofStmt counts body).writes, x ∉ (Accesses.ofStmt counts body).reads) :
    Separated scope counts ps.flatten := by
  induction ps with
  | nil => exact separated_nil
  | cons q ps ih =>
    obtain ⟨⟨hq, hsep⟩, hps⟩ := List.forall_mem_cons.mp h
    refine hsep.append (ih hps) fun t ht x hx => guarded_of_unread fun u hu hread => ?_
    obtain ⟨r, hr, hu⟩ := List.mem_flatten.mp hu
    exact hbody x (hq.mem_writes ht hx) ((Accesses.own_subset ((hps r hr).1.mem_stmts hu)).1 hread)

theorem separated_syncLoop {r : Revised Stmt} (hr : ∀ q, r.term.Path q → Separated scope counts q)
    (hown : ∀ x ∈ (Accesses.own counts (loop v min extent kind body)).writes, x ∉ (Accesses.ofStmt counts r.term).reads)
    (hp : (syncLoop scope counts v min extent kind r).term.Path p) : Separated scope counts p := by
  have hsame (b : Stmt) : Accesses.own counts (loop v min extent kind b) =
    Accesses.own counts (loop v min extent kind body) :=
    Accesses.own_congr rfl (List.cons_ne_nil body []) (List.cons_ne_nil b [])
  unfold syncLoop at hp
  dsimp only at hp
  split at hp
  · obtain ⟨ps, hps, rfl⟩ := hp.of_loop
    have hunread : ∀ x ∉ (Accesses.ofStmt counts r.term).reads,
      x ∉ (Accesses.ofStmt counts (ofList [r.term, barrier scope])).reads :=
      fun x hx => unread_ofList (List.forall_mem_cons.mpr ⟨hx, List.forall_mem_singleton.mpr List.not_mem_nil⟩)
    have hne : [r.term, barrier scope].flatMap items ≠ [] := by simp [barrier, items]
    refine (separated_turns_of_barrier fun q hq => ?_).cons fun x hx => guarded_of_unread fun t ht hread => ?_
    · obtain ⟨q₁, q₂, hq₁, hq₂, rfl⟩ := paths_cons.mp ((path_ofList hne).mp (hps q hq))
      refine ⟨q₁, hr q₁ hq₁, ?_⟩
      rcases paths_singleton.mp hq₂ with ⟨⟨⟩, _ | _⟩
      rfl
    · obtain ⟨q, hq, ht⟩ := List.mem_flatten.mp ht
      exact hunread x (hown x (hsame _ ▸ hx)) ((Accesses.own_subset ((hps q hq).mem_stmts ht)).1 hread)
  · rename_i hoverlap
    obtain ⟨ps, hps, rfl⟩ := hp.of_loop
    refine (separated_turns_of_unread (fun q hq => ⟨hps q hq, hr q (hps q hq)⟩) fun x =>
      Accesses.overlap_eq_false hoverlap).cons
      fun x hx => guarded_of_unread fun t ht hread => ?_
    obtain ⟨q, hq, ht⟩ := List.mem_flatten.mp ht
    exact hown x (hsame _ ▸ hx) ((Accesses.own_subset ((hps q hq).mem_stmts ht)).1 hread)

end Loops

theorem Direct.separated_of_body {b' : Stmt} (hs : s.Direct counts) (hp : t.Path p) (hparts : t.exprParts = s.exprParts)
    (hbs : s.bodies = [b])
    (hbt : t.bodies = [b']) (hcourse : ∀ bs, t.Course bs → bs.length ≤ 1)
    (hunread : ∀ x ∉ (Accesses.ofStmt counts b).reads, x ∉ (Accesses.ofStmt counts b').reads)
    (hb' : ∀ q, b'.Path q → Separated scope counts q) : Separated scope counts p := by
  refine hp.separated_of_body hcourse ?_ ?_
  · rw [hbt]
    exact List.forall_mem_singleton.mpr hb'
  · rw [hbt, Accesses.own_congr hparts (hbs ▸ List.cons_ne_nil b []) (hbt ▸ List.cons_ne_nil b' [])]
    exact List.forall_mem_singleton.mpr fun x hx => hunread x (hs.unread (hbs ▸ List.mem_cons_self) hx)

/-- With barriers, whatever a path through a statement writes is read by another statement only after a barrier. -/
theorem separated_synced (h : s.Direct counts) (hp : (s.synced scope counts true).term.Path p) :
    Separated scope counts p := by
  induction s generalizing p with
  | bind v value body ih | assert cond message body ih | allocate site v t extents cond body ih
  | realize op output t bounds cond body ih =>
    refine h.separated_of_body hp rfl rfl rfl ?_ (fun x => unread_synced) fun q => ih (h.body List.mem_cons_self)
    rintro _ ⟨⟩
    exact Nat.le_refl 1
  | attr subject key value body ih =>
    refine h.separated_of_body hp rfl rfl rfl ?_ (fun x => unread_synced) fun q => ih (h.body List.mem_cons_self)
    rintro _ ⟨⟩
    · exact Nat.le_refl 1
    · exact Nat.zero_le 1
  | loop v min extent kind body ih =>
    exact separated_syncLoop (fun q => ih (h.body List.mem_cons_self))
      (fun x hx => unread_synced (h.unread List.mem_cons_self hx)) hp
  | seq ss ih =>
    have hitems : ∀ t ∈ (ss.map (·.synced scope counts true)).map (·.term), ∀ q, t.Path q → Separated scope counts q := by
      intro t ht q hq
      obtain ⟨r, hr, rfl⟩ := List.mem_map.mp ht
      obtain ⟨s, hs, rfl⟩ := List.mem_map.mp hr
      exact ih s hs (h.body hs) hq
    replace hp : (syncSeq scope counts (ss.map (·.synced scope counts true))).term.Path p := by rwa [← onList_eq_map]
    rcases syncSeq_cases scope counts (ss.map (·.synced scope counts true)) with hterm | ⟨hterm, -⟩
    · rw [hterm] at hp
      exact (separated_withBarriers hitems (path_seq.mp hp)).1
    · rw [hterm] at hp
      by_cases hne : (withBarriers scope counts [] ((ss.map (·.synced scope counts true)).map (·.term))).flatMap items = []
      · rw [ofList, hne] at hp
        rw [Path.of_noOp hp]
        exact separated_noOp
      · exact (separated_withBarriers hitems ((path_ofList hne).mp hp)).1
  | branch cond onTrue onFalse iht ihf =>
    have ht : ∀ q, (onTrue.synced scope counts true).term.Path q → Separated scope counts q :=
      fun q => iht (h.body List.mem_cons_self)
    cases onFalse with
    | none =>
      refine h.separated_of_body hp rfl rfl rfl ?_ (fun x => unread_synced) ht
      rintro _ (⟨⟨⟩⟩ | _ | _)
      · exact Nat.le_refl 1
      · exact Nat.zero_le 1
    | some onFalse =>
      have hmem : onFalse ∈ (branch cond onTrue (some onFalse)).bodies := List.mem_cons_of_mem _ List.mem_cons_self
      refine hp.separated_of_body ?_ ?_ ?_
      · rintro _ (⟨⟨⟩⟩ | _ | _) <;> exact Nat.le_refl 1
      · exact List.forall_mem_cons.mpr ⟨ht, List.forall_mem_singleton.mpr fun q => ihf onFalse rfl (h.body hmem)⟩
      · have hown : Accesses.own counts
            (branch cond (onTrue.synced scope counts true).term (some (onFalse.synced scope counts true).term)) =
            Accesses.own counts (branch cond onTrue (some onFalse)) :=
          Accesses.own_congr rfl (List.cons_ne_nil _ _) (List.cons_ne_nil _ _)
        exact List.forall_mem_cons.mpr ⟨fun x hx => unread_synced (h.unread List.mem_cons_self (hown ▸ hx)),
          List.forall_mem_singleton.mpr fun x hx => unread_synced (h.unread hmem (hown ▸ hx))⟩
  | store | provide | prefetch | eval =>
    refine hp.separated_of_body ?_ (List.forall_mem_nil _) (List.forall_mem_nil _)
    rintro _ ⟨⟩
    exact Nat.zero_le 1

/-! ### What the barriers leave as it is -/

/-- The statements that a statement consists of, the sequences among them opened. -/
def opened : Stmt → List Stmt
  | seq ss => all ss
  | s => [s]
where
  /-- The statements that several statements consist of. -/
  all : List Stmt → List Stmt
    | [] => []
    | s :: ss => s.opened ++ all ss

/-- Statements and the same ones with further barriers between them, at the start and at the end, and so on in their
    bodies. -/
inductive Gains (scope : String) : List Stmt → List Stmt → Prop
  | nil : Gains scope [] []
  | barrier {ss ts : List Stmt} (h : Gains scope ss ts) : Gains scope ss (Stmt.barrier scope :: ts)
  | cons {s : Stmt} {bs ss ts : List Stmt} (hbodies : List.Forall₂ (fun b b' => Gains scope b.opened b'.opened) s.bodies bs)
    (h : Gains scope ss ts) : Gains scope (s :: ss) (s.withBodies bs :: ts)

theorem opened_seq : (seq ss).opened = ss.flatMap opened := by
  show opened.all ss = _
  induction ss with
  | nil => rfl
  | cons s ss ih => rw [opened.all, ih, List.flatMap_cons]

theorem opened_items : s.items.flatMap opened = s.opened := by
  cases s with
  | seq ss => exact opened_seq.symm
  | _ => exact List.append_nil _

theorem flatMap_opened_items : (ss.flatMap items).flatMap opened = ss.flatMap opened := by
  rw [List.flatMap_assoc]
  simp only [opened_items]

theorem opened_ofList (h : ss.flatMap opened ≠ []) : (ofList ss).opened = ss.flatMap opened := by
  unfold ofList
  rw [← flatMap_opened_items] at h ⊢
  generalize ss.flatMap items = ts at h ⊢
  rcases ts with _ | ⟨t, _ | ⟨t', ts⟩⟩
  · exact absurd List.flatMap_nil h
  · exact (List.append_nil _).symm
  · exact opened_seq

theorem flatMap_opened_ne_nil {rs : List (Revised Stmt)} (hrs : ∀ r ∈ rs, r.changed → r.term.opened ≠ [])
    (hts : rs.map (·.term) ⊆ ts)
    (hsome : barrier scope ∈ ts ∨ ∃ r ∈ rs, r.changed) : ts.flatMap opened ≠ [] := by
  rcases hsome with hmem | ⟨r, hr, hchanged⟩
  · exact List.ne_nil_of_mem (List.mem_flatMap.mpr ⟨_, hmem, List.mem_singleton_self (barrier scope)⟩)
  · obtain ⟨t, ht⟩ := List.exists_mem_of_ne_nil _ (hrs r hr hchanged)
    exact List.ne_nil_of_mem (List.mem_flatMap.mpr ⟨_, hts (List.mem_map_of_mem hr), ht⟩)

/-- What changes is more than nothing. -/
theorem opened_ne_nil (h : (s.synced scope counts inside).changed) : (s.synced scope counts inside).term.opened ≠ [] := by
  induction s generalizing inside with
  | seq ss ih =>
    have hitems : ∀ r ∈ ss.map (·.synced scope counts inside), r.changed → r.term.opened ≠ [] := by
      intro r hr hchanged
      obtain ⟨s, hs, rfl⟩ := List.mem_map.mp hr
      exact ih s hs hchanged
    unfold synced at h ⊢
    dsimp only at h ⊢
    rw [onList_eq_map] at h ⊢
    split
    · rename_i hinside
      rw [if_pos hinside] at h
      rcases syncSeq_cases scope counts (ss.map (·.synced scope counts inside)) with hterm | ⟨hterm, hsome⟩
      · rw [hterm] at h
        cases h
      · have hne := flatMap_opened_ne_nil hitems subset_withBarriers hsome
        rwa [hterm, opened_ofList hne]
    · rename_i hinside
      rw [if_neg hinside] at h
      rw [opened_seq]
      have hsome : barrier scope ∈ (ss.map (·.synced scope counts inside)).map (·.term) ∨
        ∃ r ∈ ss.map (·.synced scope counts inside), r.changed :=
        .inr (List.any_eq_true.mp h)
      exact flatMap_opened_ne_nil hitems (List.Subset.refl _) hsome
  | branch cond onTrue onFalse => cases onFalse <;> exact List.cons_ne_nil _ _
  | loop v min extent kind body =>
    unfold synced syncLoop
    dsimp only
    split
    · split <;> exact List.cons_ne_nil _ _
    · exact List.cons_ne_nil _ _
  | _ => exact List.cons_ne_nil _ _

theorem gains_withBarriers (hss : ∀ s ∈ ss, ∀ {rs ts}, Gains scope rs ts →
      Gains scope (s.opened ++ rs) ((s.synced scope counts inside).term.opened ++ ts))
    {rs ts : List Stmt} (h : Gains scope rs ts) :
    Gains scope (ss.flatMap opened ++ rs)
      ((withBarriers scope counts written ((ss.map (·.synced scope counts inside)).map (·.term))).flatMap opened ++
        ts) := by
  induction ss generalizing written with
  | nil => exact h
  | cons s ss ih =>
    obtain ⟨hs, hss⟩ := List.forall_mem_cons.mp hss
    simp only [List.map_cons, withBarriers, List.flatMap_cons]
    split
    · simp only [List.flatMap_cons, List.append_assoc]
      exact .barrier (hs (ih hss))
    · simp only [List.flatMap_cons, List.append_assoc]
      exact hs (ih hss)

/-- Barriers are all that a statement gets; its sequences can be opened. -/
theorem gains_synced {rs ts : List Stmt} (h : Gains scope rs ts) :
    Gains scope (s.opened ++ rs) ((s.synced scope counts inside).term.opened ++ ts) := by
  have hopened {b : Stmt} (hb : ∀ {inside rs ts}, Gains scope rs ts →
      Gains scope (b.opened ++ rs) ((b.synced scope counts inside).term.opened ++ ts)) (inside : Bool) :
      Gains scope b.opened (b.synced scope counts inside).term.opened := by
    have h : Gains scope (b.opened ++ []) ((b.synced scope counts inside).term.opened ++ []) := hb .nil
    rwa [List.append_nil, List.append_nil] at h
  induction s generalizing inside rs ts with
  | bind v value body ih => exact Gains.cons (s := bind v value body) (.cons (hopened ih inside) .nil) h
  | attr subject key value body ih => exact Gains.cons (s := attr subject key value body) (.cons (hopened ih _) .nil) h
  | assert cond message body ih => exact Gains.cons (s := assert cond message body) (.cons (hopened ih inside) .nil) h
  | allocate site v t extents cond body ih =>
    exact Gains.cons (s := allocate site v t extents cond body) (.cons (hopened ih inside) .nil) h
  | realize op output t bounds cond body ih =>
    exact Gains.cons (s := realize op output t bounds cond body) (.cons (hopened ih inside) .nil) h
  | loop v min extent kind body ih =>
    have hkept : Gains scope ((loop v min extent kind body).opened ++ rs)
        ((loop v min extent kind (body.synced scope counts inside).term).opened ++ ts) :=
      Gains.cons (s := loop v min extent kind body) (.cons (hopened ih inside) .nil) h
    unfold synced
    dsimp only
    split
    · unfold syncLoop
      dsimp only
      split
      · have hbody : Gains scope body.opened (ofList [(body.synced scope counts inside).term, barrier scope]).opened := by
          rw [opened_ofList (by simp [barrier, opened]), ← List.append_nil body.opened]
          exact ih (.barrier .nil)
        exact Gains.cons (s := loop v min extent kind body) (.cons hbody .nil) h
      · exact hkept
    · exact hkept
  | seq ss ih =>
    have hkept : Gains scope (ss.flatMap opened ++ rs)
      (((ss.map (·.synced scope counts inside)).map (·.term)).flatMap opened ++ ts) := by
      induction ss with
      | nil => exact h
      | cons s ss ihs =>
        obtain ⟨hs, hss⟩ := List.forall_mem_cons.mp ih
        simp only [List.map_cons, List.flatMap_cons, List.append_assoc]
        exact hs (ihs hss)
    unfold synced
    dsimp only
    rw [opened_seq, onList_eq_map]
    split
    · rcases syncSeq_cases scope counts (ss.map (·.synced scope counts inside)) with hterm | ⟨hterm, hsome⟩
      · rw [hterm]
        show Gains scope _ ((seq _).opened ++ ts)
        rw [opened_seq]
        exact gains_withBarriers (fun s hs => ih s hs) h
      · have hitems : ∀ r ∈ ss.map (·.synced scope counts inside), r.changed → r.term.opened ≠ [] := by
          intro r hr hchanged
          obtain ⟨s, -, rfl⟩ := List.mem_map.mp hr
          exact opened_ne_nil hchanged
        rw [hterm, opened_ofList (flatMap_opened_ne_nil hitems subset_withBarriers hsome)]
        exact gains_withBarriers (fun s hs => ih s hs) h
    · show Gains scope _ ((seq _).opened ++ ts)
      rw [opened_seq]
      exact hkept
  | branch cond onTrue onFalse iht ihf =>
    cases onFalse with
    | none => exact Gains.cons (s := branch cond onTrue none) (.cons (hopened iht inside) .nil) h
    | some onFalse =>
      exact Gains.cons (s := branch cond onTrue (some onFalse))
        (.cons (hopened iht inside) (.cons (hopened (ihf onFalse rfl) inside) .nil)) h
  | store buffer value index pred => exact Gains.cons (s := store buffer value index pred) .nil h
  | provide op output value args => exact Gains.cons (s := provide op output value args) .nil h
  | prefetch op output t bounds => exact Gains.cons (s := prefetch op output t bounds) .nil h
  | eval e => exact Gains.cons (s := eval e) .nil h

/-! ### Thread regions -/

/-- The bodies of the outermost thread regions in a statement. -/
def outerRegions : Stmt → List Stmt
  | attr _ key _ body => if key == "thread_extent" then [body] else body.outerRegions
  | bind _ _ body | assert _ _ body | loop _ _ _ _ body | allocate _ _ _ _ _ body | realize _ _ _ _ _ body =>
    body.outerRegions
  | store .. | provide .. | prefetch .. | eval _ => []
  | seq ss => all ss
  | branch _ onTrue none => onTrue.outerRegions
  | branch _ onTrue (some onFalse) => onTrue.outerRegions ++ onFalse.outerRegions
where
  /-- The bodies of the outermost thread regions in statements. -/
  all : List Stmt → List Stmt
    | [] => []
    | s :: ss => s.outerRegions ++ all ss

/-- Barriers are put into the outermost thread regions. -/
theorem outerRegions_synced :
    (s.synced scope counts false).term.outerRegions = s.outerRegions.map fun r => (r.synced scope counts true).term := by
  induction s with
  | attr subject key value body ih =>
    simp only [synced, outerRegions, Bool.false_or]
    split
    · rename_i hkey
      rw [hkey]
      rfl
    · rename_i hkey
      rw [Bool.eq_false_of_not_eq_true hkey, ih]
  | seq ss ih =>
    have hall : ∀ ts ⊆ ss, outerRegions.all ((synced.onList scope counts false ts).map (·.term)) =
        (outerRegions.all ts).map fun r => (r.synced scope counts true).term := by
      intro ts hts
      induction ts with
      | nil => rfl
      | cons t ts iht =>
        obtain ⟨ht, hts⟩ := List.cons_subset.mp hts
        simp only [synced.onList, List.map_cons, outerRegions.all, List.map_append, ih t ht, iht hts]
    exact hall ss (List.Subset.refl ss)
  | branch cond onTrue onFalse iht ihf =>
    cases onFalse with
    | none => exact iht
    | some onFalse =>
      simp only [synced, outerRegions, List.map_append]
      exact congrArg₂ (· ++ ·) iht (ihf onFalse rfl)
  | bind _ _ _ ih | assert _ _ _ ih | loop _ _ _ _ _ ih | allocate _ _ _ _ _ _ ih | realize _ _ _ _ _ _ ih => exact ih
  | store | provide | prefetch | eval => rfl

end Stmt

/-- Along every path through an outermost thread region, what a statement writes in a buffer of the scope is read by a
    later one only after a barrier of the scope, and so it is along the trail of every run; barriers are all that a
    function gets. -/
theorem Func.separated_insertBarriers (scope : Setting) (f : Func)
    (h : ∀ r ∈ f.body.outerRegions, r.Direct ((StorageScopes.ofStmt f.body).isIn scope)) :
    (∀ r ∈ (f.insertBarriers scope).body.outerRegions,
      (∀ p, r.Path p → Stmt.Separated scope.plainText ((StorageScopes.ofStmt f.body).isIn scope) p) ∧
        ∀ frame, Thread.Returns (Stmt.Separated scope.plainText ((StorageScopes.ofStmt f.body).isIn scope))
          (r.trail frame)) ∧
      Stmt.Gains scope.plainText f.body.opened (f.insertBarriers scope).body.opened := by
  constructor
  · intro r hr
    obtain ⟨r, hmem, rfl⟩ := List.mem_map.mp (Stmt.outerRegions_synced ▸ hr)
    have hsep (p : List Stmt)
        (hp : (r.synced scope.plainText ((StorageScopes.ofStmt f.body).isIn scope) true).term.Path p) :=
      Stmt.separated_synced (h r hmem) hp
    exact ⟨hsep, fun frame l m => (Stmt.path_of_trail frame _ l m).mono fun a ha p hp => hsep p (ha p hp)⟩
  · have hgains : Stmt.Gains scope.plainText (f.body.opened ++ []) ((f.insertBarriers scope).body.opened ++ []) :=
      Stmt.gains_synced .nil
    rwa [List.append_nil, List.append_nil] at hgains

namespace Barriers

def shared : Var := ⟨0, "T", .handle⟩

def array : Var := ⟨1, "A", .handle⟩

def thread : IterVar := ⟨none, ⟨2, "threadIdx.x", .int32⟩, .threadIndex, "threadIdx.x"⟩

def turn : Var := ⟨3, "i", .int32⟩

def other : Var := ⟨4, "p", .handle⟩

/-- A function of two threads that share a buffer. -/
def kernel (body : Stmt) : Func where
  name := "k"
  params := [.var array]
  body := .attr (.var shared) "storage_scope" (.str "shared")
    (.allocate 0 shared .int32 [.int32 2] (.bool true) (.attr (.axis thread) "thread_extent" (.int32 2) body))
  kind := .device
  threadAxes := [thread]

/-- Each thread sets an element that another one reads. -/
def exchange : Stmt :=
  .seq [.store (.var shared) (.bin .add (.var thread.var) (.int32 1)) (.var thread.var) none,
    .store (.var array) (.load .int32 (.var shared) (.bin .sub (.int32 1) (.var thread.var)) none) (.var thread.var) none]

/-- Twice each thread sets an element that another one reads. -/
def repeated : Func := kernel (.loop turn (.int32 0) (.int32 2) .serial exchange)

/-- The variables of the shared buffers of the function. -/
def isShared : Var → Bool := (StorageScopes.ofStmt repeated.body).isIn (.text "shared")

theorem separated_repeated :
    (∀ r ∈ repeated.body.outerRegions, r.Direct isShared) ∧
    (∀ r ∈ (repeated.insertBarriers (.text "shared")).body.outerRegions, ∀ p, r.Path p →
      Stmt.Separated "shared" isShared p) ∧
    Stmt.Gains "shared" repeated.body.opened (repeated.insertBarriers (.text "shared")).body.opened := by
  have hdirect : ∀ r ∈ repeated.body.outerRegions, r.Direct isShared := by
    unfold Stmt.Direct
    decide
  obtain ⟨hsep, hgains⟩ := Func.separated_insertBarriers (.text "shared") repeated hdirect
  exact ⟨hdirect, fun r hr => (hsep r hr).1, hgains⟩

/-- The elements are set by another name of the buffer. -/
def aliased : Stmt :=
  .bind other (.var shared) (.seq [.store (.var other) (.bin .add (.var thread.var) (.int32 1)) (.var thread.var) none,
    .store (.var array) (.load .int32 (.var shared) (.bin .sub (.int32 1) (.var thread.var)) none) (.var thread.var) none])

/-- The address of an element is taken, and then the buffer is read. -/
def taken : Stmt :=
  .bind other (.call .handle "xte_address_of" [.load .int32 (.var shared) (.int32 0) none] .pureIntrinsic none 0)
    (.store (.var array) (.load .int32 (.var shared) (.var thread.var) none) (.var thread.var) none)

/-- The array after a launch. -/
def launched (f : Func) : Option (Array Number) :=
  let last := ((f.launch {} [.array (.whole 0 (.int 32) [2]), .int32 2]).run.run #[#[.int 0, .int 0]] :
    Except Error Unit × Memory)
  last.2[0]?

/-- No barrier follows what is written by another name of a buffer, or an address that is taken before a body. -/
theorem barriers_missed :
    (launched ((kernel exchange).insertBarriers (.text "shared")) = some #[.int 2, .int 1] ∧
      launched ((kernel aliased).insertBarriers (.text "shared")) = some #[.int 0, .int 1]) ∧
    (taken.synced "shared" isShared true).changed = false ∧ ¬taken.Direct isShared := by
  refine ⟨⟨?_, ?_⟩, rfl, ?_⟩
  · with_unfolding_all rfl
  · with_unfolding_all rfl
  · unfold Stmt.Direct
    decide

end Barriers

end TensorNest

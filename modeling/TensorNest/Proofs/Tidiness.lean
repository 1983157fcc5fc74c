import TensorNest.Proofs.Tidying

/-! # What is left of a statement

In what is left of a statement everything has an effect (`Stmt.effective_tidied`), and nothing more can be removed. -/

namespace TensorNest

namespace Stmt

variable {s b : Stmt} {r : Revised Stmt}

/-- What a statement holds directly has an effect, and a loop has some turns. -/
def Effective : Stmt → Prop
  | bind _ _ b | attr _ _ _ b | allocate _ _ _ _ _ b => b.isNoOp = false
  | loop _ _ extent _ b => b.isNoOp = false ∧ extent.isConstInt 0 = false
  | branch _ onTrue onFalse => onTrue.isNoOp = false ∧ ∀ b ∈ onFalse, b.isNoOp = false
  | seq ss => ∀ s ∈ ss, s.isNoOp = false
  | _ => True

theorem logicalNot_ok {cond : Expr} (h : cond.dtype.isBool = true) : ∃ c, Expr.logicalNot cond = .ok c := by
  have hasBool : Expr.asBool cond =
    if cond.dtype.isBool then .ok cond else Expr.ofInt 0 cond.dtype.element >>= fun zero => Expr.ne cond zero := rfl
  rw [Expr.logicalNot, hasBool, if_pos h]
  cases cond <;> exact ⟨_, rfl⟩

theorem tidyBranch_ok (cond : Expr) (r : Revised Stmt) (r' : Option (Revised Stmt))
    (h : r'.isSome → cond.dtype.isBool = true) :
    ∃ r₁, tidyBranch cond r r' = .ok r₁ := by
  unfold tidyBranch
  dsimp only
  split
  · split
    · exact ⟨_, rfl⟩
    · rename_i t hkept
      obtain ⟨c, hc⟩ := logicalNot_ok (h (by rw [(Option.filter_eq_some_iff.mp hkept).1]; rfl))
      rw [hc]
      exact ⟨_, rfl⟩
  · exact ⟨_, rfl⟩

/-- Conditions can be negated, if they are truth values; nothing else fails. -/
theorem tidied_ok (h : ∀ t ∈ s.stmts, ∀ c ∈ t.decided?, c.dtype.isBool = true) : ∃ r, s.tidied = .ok r := by
  induction s with
  | bind v e b ih | attr subject key e b ih | assert cond message b ih | allocate site v t extents cond b ih
  | realize op output t bounds cond b ih =>
    obtain ⟨r, hr⟩ := ih ((forall_mem_stmts.mp h).1 b (by simp))
    exact ⟨_, bind_eq_ok.mpr ⟨r, hr, rfl⟩⟩
  | loop v min extent kind b ih =>
    obtain ⟨r, hr⟩ := ih ((forall_mem_stmts.mp h).1 b (by simp))
    by_cases hextent : extent.isConstInt 0
    · exact ⟨nothing, bind_eq_ok.mpr ⟨r, hr, if_pos hextent⟩⟩
    · exact ⟨_, bind_eq_ok.mpr ⟨r, hr, if_neg hextent⟩⟩
  | store | provide | prefetch | eval => exact ⟨_, rfl⟩
  | seq ss ih =>
    have hall : ∀ ts ⊆ ss, ∃ rs, tidied.onList ts = .ok rs := by
      intro ts hts
      induction ts with
      | nil => exact ⟨[], rfl⟩
      | cons t ts iht =>
        obtain ⟨ht, hts⟩ := List.cons_subset.mp hts
        obtain ⟨r, hr⟩ := ih t ht ((forall_mem_stmts.mp h).1 t ht)
        obtain ⟨rs, hrs⟩ := iht hts
        exact ⟨r :: rs, bind_eq_ok.mpr ⟨r, hr, bind_eq_ok.mpr ⟨rs, hrs, rfl⟩⟩⟩
    obtain ⟨rs, hrs⟩ := hall ss (List.Subset.refl ss)
    exact ⟨tidySeq rs, bind_eq_ok.mpr ⟨rs, hrs, rfl⟩⟩
  | branch cond onTrue onFalse iht ihf =>
    obtain ⟨r, hr⟩ := iht ((forall_mem_stmts.mp h).1 onTrue (by simp))
    cases onFalse with
    | none =>
      obtain ⟨r₁, hr₁⟩ := tidyBranch_ok cond r none fun h => by cases h
      exact ⟨r₁, bind_eq_ok.mpr ⟨r, hr, hr₁⟩⟩
    | some t =>
      obtain ⟨r', hr'⟩ := ihf t rfl ((forall_mem_stmts.mp h).1 t (by simp))
      obtain ⟨r₁, hr₁⟩ := tidyBranch_ok cond r (some r') fun _ => (forall_mem_stmts.mp h).2 cond rfl
      exact ⟨r₁, bind_eq_ok.mpr ⟨r, hr, bind_eq_ok.mpr ⟨r', hr', hr₁⟩⟩⟩

/-- What a sequence of statements and sequences is put together to is not less effective. -/
theorem effective_ofList {ss : List Stmt} (h : ∀ s ∈ ss, ∀ t ∈ s.stmts, t.Effective) (hkept : ∀ s ∈ ss, s.isNoOp = false) :
    ∀ t ∈ (ofList ss).stmts, t.Effective := by
  have hitems : ∀ x ∈ ss.flatMap items, (∀ t ∈ x.stmts, t.Effective) ∧ x.isNoOp = false := by
    intro x hx
    obtain ⟨s, hs, hx⟩ := List.mem_flatMap.mp hx
    cases s with
    | seq ts => exact ⟨(forall_mem_stmts.mp (h _ hs)).1 x hx, (forall_mem_stmts.mp (h _ hs)).2 x hx⟩
    | _ =>
      obtain rfl := List.mem_singleton.mp hx
      exact ⟨h _ hs, hkept _ hs⟩
  rw [ofList]
  generalize ss.flatMap items = xs at hitems
  rcases xs with _ | ⟨x, _ | ⟨y, xs⟩⟩
  · exact forall_mem_stmts.mpr ⟨List.forall_mem_nil _, trivial⟩
  · exact (hitems x (List.mem_singleton_self x)).1
  · exact forall_mem_stmts.mpr ⟨fun b hb => (hitems b hb).1, fun b hb => (hitems b hb).2⟩

/-- Everything in what is left of a statement has an effect. -/
theorem effective_tidied (h : s.tidied = .ok r) : ∀ t ∈ r.term.stmts, t.Effective := by
  have hnothing : ∀ t ∈ nothing.term.stmts, t.Effective := forall_mem_stmts.mpr ⟨List.forall_mem_nil _, trivial⟩
  have haround {g : Stmt → Stmt} {r : Revised Stmt} (hbodies : (g r.term).bodies = [r.term])
      (hown : r.term.isNoOp = false → (g r.term).Effective) (ih : ∀ t ∈ r.term.stmts, t.Effective) :
      ∀ t ∈ (around g r).term.stmts, t.Effective := by
    rcases around_cases g r with ⟨-, hr⟩ | ⟨hno, hr⟩
    · rw [hr]
      exact hnothing
    · rw [hr]
      exact forall_mem_stmts.mpr ⟨by rw [hbodies]; exact List.forall_mem_singleton.mpr ih, hown hno⟩
  refine tidied_induct (motive := fun _ r => ∀ t ∈ r.term.stmts, t.Effective)
    ?bind ?attr ?assert ?skip ?loop ?allocate ?realize ?seq ?branch ?eval ?leaf h
  case bind => exact fun v e b r _ => haround rfl fun hno => hno
  case attr => exact fun subject key e b r _ => haround rfl fun hno => hno
  case loop => exact fun v min extent kind b r _ hextent => haround rfl fun hno => ⟨hno, hextent⟩
  case allocate => exact fun site v t extents cond b r _ => haround rfl fun hno => hno
  case skip => exact fun v min extent kind b _ _ => hnothing
  case assert =>
    exact fun cond message b r ih => forall_mem_stmts.mpr ⟨List.forall_mem_singleton.mpr ih, trivial⟩
  case realize =>
    exact fun op output t bounds cond b r ih => forall_mem_stmts.mpr ⟨List.forall_mem_singleton.mpr ih, trivial⟩
  case seq =>
    intro ss rs _ hrs
    have hall : ∀ r ∈ rs, ∀ t ∈ r.term.stmts, t.Effective :=
      ((List.forall₂_and_left rs ss).mp (hrs.flip.imp fun _ _ h => ⟨h.2.2, h.2.1⟩)).1
    rcases tidySeq_cases rs with ⟨hkept, h⟩ | h
    · rw [h]
      refine forall_mem_stmts.mpr ⟨fun t ht => ?_, fun t ht => ?_⟩
      · obtain ⟨r, hr, rfl⟩ := List.mem_map.mp ht
        exact hall r hr
      · obtain ⟨r, hr, rfl⟩ := List.mem_map.mp ht
        exact (hkept r hr).1
    · rw [h]
      refine effective_ofList (fun t ht => ?_) fun t ht => ?_
      · obtain ⟨r, hr, -, rfl⟩ := mem_keptItems.mp ht
        exact hall r hr
      · obtain ⟨r, hr, hno, rfl⟩ := mem_keptItems.mp ht
        exact hno
  case branch =>
    intro cond onTrue onFalse r r' r₁ _ h iht ihf
    have hfalse : ∀ t ∈ r', ∀ u ∈ t.term.stmts, u.Effective := by
      cases ihf with
      | none => exact fun t ht => by cases ht
      | some ih =>
        intro t ht
        cases ht
        exact ih.2
    rcases tidyBranch_cases h with ⟨-, -, rfl⟩ | ⟨-, t, c, rfl, hno, -, rfl⟩ | ⟨hno, rfl⟩
    · exact hnothing
    · exact forall_mem_stmts.mpr ⟨List.forall_mem_singleton.mpr (hfalse t rfl), hno, fun b hb => by cases hb⟩
    · have hother : ∀ b ∈ (r'.filter fun t => !t.term.isNoOp).map (·.term), (∀ t ∈ b.stmts, t.Effective) ∧
        b.isNoOp = false := by
        intro b hb
        obtain ⟨t, ht, rfl⟩ := Option.map_eq_some_iff.mp hb
        obtain ⟨ht, hno⟩ := Option.filter_eq_some_iff.mp ht
        exact ⟨hfalse t ht, by simpa using hno⟩
      refine forall_mem_stmts.mpr ⟨List.forall_mem_cons.mpr ⟨iht.2, fun b hb => ?_⟩, hno, fun b hb => (hother b hb).2⟩
      exact (hother b (Option.mem_toList.mp hb)).1
  case eval =>
    intro e _
    split
    · exact hnothing
    · exact forall_mem_stmts.mpr ⟨List.forall_mem_nil _, trivial⟩
  case leaf =>
    intro s hbodies hno _
    refine forall_mem_stmts.mpr ⟨by rw [hbodies]; exact List.forall_mem_nil _, ?_⟩
    cases s with
    | seq ss =>
      cases hbodies
      cases hno
    | store | provide | prefetch | eval => trivial
    | _ => cases hbodies

/-! ### Tidying again -/

/-- Whether a statement is a sequence. -/
@[simp] def isSeq : Stmt → Bool
  | seq _ => true
  | _ => false

theorem items_of_not_isSeq (h : s.isSeq = false) : s.items = [s] := by
  cases s with
  | seq => cases h
  | _ => rfl

/-- No item of an item of a sequence is a sequence. -/
def Shallow (s : Stmt) : Prop := ∀ t ∈ s.stmts, ∀ u ∈ t.items, ∀ w ∈ u.items, w.isSeq = false

instance (s : Stmt) : Decidable s.Shallow := inferInstanceAs (Decidable (∀ _ ∈ _, _))

theorem Shallow.body (h : s.Shallow) (hb : b ∈ s.bodies) : b.Shallow := (forall_mem_stmts.mp h).1 b hb

/-- A statement that tidying leaves as it is. -/
def Stable (s : Stmt) : Prop := ∃ c, s.tidied = .ok ⟨s, c⟩

theorem stable_noOp : noOp.Stable := ⟨true, rfl⟩

/-- What is unchanged is the same. -/
theorem term_eq_of_unchanged (h : s.tidied = .ok r) : r.changed = false → r.term = s := by
  have haround {g : Stmt → Stmt} {b : Stmt} {r : Revised Stmt} (ih : r.changed = false → r.term = b)
      (h : (around g r).changed = false) :
      (around g r).term = g b := by
    rcases around_cases g r with ⟨-, hr⟩ | ⟨-, hr⟩
    · rw [hr] at h
      cases h
    · rw [hr] at h ⊢
      exact congrArg g (ih h)
  refine tidied_induct (motive := fun s r => r.changed = false → r.term = s)
    ?bind ?attr ?assert ?skip ?loop ?allocate ?realize ?seq ?branch ?eval ?leaf h
  case bind => exact fun v e b r _ => haround
  case attr => exact fun subject key e b r _ => haround
  case loop => exact fun v min extent kind b r _ _ => haround
  case allocate => exact fun site v t extents cond b r _ => haround
  case skip => exact fun v min extent kind b _ _ h => by cases h
  case assert => exact fun cond message b r ih h => congrArg (assert cond message) (ih h)
  case realize => exact fun op output t bounds cond b r ih h => congrArg (realize op output t bounds cond) (ih h)
  case seq =>
    intro ss rs hwhole hrs hchanged
    rcases tidySeq_cases rs with ⟨hkept, h⟩ | h
    · rw [h]
      have hterms : List.Forall₂ (fun (s : Stmt) (r : Revised Stmt) => r.changed = false → r.term = s) ss rs :=
        hrs.imp fun _ _ h => h.2.2
      have hterms : rs.map (·.term) = ss := by
        clear h hrs hwhole hchanged
        induction hterms with
        | nil => rfl
        | cons hr _ ih =>
          obtain ⟨hr', hkept⟩ := List.forall_mem_cons.mp hkept
          rw [List.map_cons, hr hr'.2, ih hkept]
      exact congrArg seq hterms
    · rw [h] at hchanged
      cases hchanged
  case branch =>
    intro cond onTrue onFalse r r' r₁ _ h iht ihf hchanged
    rcases tidyBranch_cases h with ⟨-, -, rfl⟩ | ⟨-, t, c, -, -, -, rfl⟩ | ⟨-, rfl⟩
    · cases hchanged
    · cases hchanged
    · simp only [Bool.or_eq_false_iff, bne_eq_false_iff_eq] at hchanged
      obtain ⟨⟨htrue, hfalse⟩, hsome⟩ := hchanged
      cases ihf with
      | none => exact congrArg (branch cond · none) (iht.2 htrue)
      | @some t r' ihf =>
        have hkept : (some r').filter (fun t => !t.term.isNoOp) = some r' := by
          rw [Option.isSome_some, Option.isSome_iff_exists] at hsome
          obtain ⟨u, hu⟩ := hsome
          rw [hu, (Option.filter_eq_some_iff.mp hu).1]
        simp only [hkept, Option.map_some, iht.2 htrue, ihf.2 hfalse]
  case eval =>
    intro e _
    split
    · exact fun h => by cases h
    · exact fun _ => rfl
  case leaf => exact fun s _ _ _ _ => rfl

/-- What is left of a statement that is no sequence is none. -/
theorem isSeq_tidied (h : s.tidied = .ok r) : s.isSeq = false → r.term.isSeq = false := by
  have haround {g : Stmt → Stmt} (hg : ∀ b, (g b).isSeq = false) (r : Revised Stmt) : (around g r).term.isSeq = false := by
    rcases around_cases g r with ⟨-, hr⟩ | ⟨-, hr⟩
    · rw [hr]
      rfl
    · rw [hr]
      exact hg _
  refine tidied_induct (motive := fun s r => s.isSeq = false → r.term.isSeq = false)
    ?bind ?attr ?assert ?skip ?loop ?allocate ?realize ?seq ?branch ?eval ?leaf h
  case bind => exact fun v e b r _ _ _ => haround (fun _ => rfl) r
  case attr => exact fun subject key e b r _ _ _ => haround (fun _ => rfl) r
  case loop => exact fun v min extent kind b r _ _ _ _ => haround (fun _ => rfl) r
  case allocate => exact fun site v t extents cond b r _ _ _ => haround (fun _ => rfl) r
  case skip => exact fun v min extent kind b _ _ _ => rfl
  case assert => exact fun cond message b r _ _ => rfl
  case realize => exact fun op output t bounds cond b r _ _ => rfl
  case seq => exact fun ss rs _ _ hs => by cases hs
  case branch =>
    intro cond onTrue onFalse r r' r₁ _ h _ _ _
    rcases tidyBranch_cases h with ⟨-, -, rfl⟩ | ⟨-, t, c, -, -, -, rfl⟩ | ⟨-, rfl⟩ <;> rfl
  case eval =>
    intro e _ _
    split <;> rfl
  case leaf => exact fun s _ _ _ hs => hs

theorem flatMap_items_of_isSeq_eq_false {ss : List Stmt} (h : ∀ s ∈ ss, s.isSeq = false) : ss.flatMap items = ss := by
  induction ss with
  | nil => rfl
  | cons s ss ih =>
    obtain ⟨hs, hss⟩ := List.forall_mem_cons.mp h
    rw [List.flatMap_cons, ih hss, items_of_not_isSeq hs]
    rfl

theorem mem_items_block {ss : List Stmt} {x : Stmt} (h : ∀ s ∈ ss, s.isSeq = false) (hx : x ∈ (block ss).items) :
    x = noOp ∨ x ∈ ss := by
  rcases ss with _ | ⟨s, _ | ⟨s', ss⟩⟩
  · exact .inl (List.mem_singleton.mp hx)
  · rw [show block [s] = s from rfl, items_of_not_isSeq (h s (List.mem_singleton_self s))] at hx
    exact .inr hx
  · exact .inr hx

/-- What is left of a sequence without sequences is one, too. -/
theorem isSeq_items_tidied (h : s.tidied = .ok r) (hs : ∀ w ∈ s.items, w.isSeq = false) :
    ∀ x ∈ r.term.items, x.isSeq = false := by
  by_cases hseq : s.isSeq
  · cases s with
    | seq ss =>
      obtain ⟨rs, hrs, hr⟩ := bind_eq_ok.mp h
      cases hr
      have hterms : ∀ r ∈ rs, r.term.isSeq = false := by
        have hall := forall₂_of_onList hrs
        clear h hrs hseq
        induction hall with
        | nil => exact List.forall_mem_nil _
        | cons hr _ ih =>
          obtain ⟨hs, hss⟩ := List.forall_mem_cons.mp hs
          exact List.forall_mem_cons.mpr ⟨isSeq_tidied hr hs, ih hss⟩
      rcases tidySeq_cases rs with ⟨-, h⟩ | h
      · rw [h]
        intro x hx
        obtain ⟨r, hr, rfl⟩ := List.mem_map.mp hx
        exact hterms r hr
      · have hkept : ∀ x ∈ keptItems rs, x.isSeq = false := by
          intro x hx
          obtain ⟨r, hr, -, rfl⟩ := mem_keptItems.mp hx
          exact hterms r hr
        rw [h, ofList, flatMap_items_of_isSeq_eq_false hkept]
        intro x hx
        rcases mem_items_block hkept hx with rfl | hx
        · rfl
        · exact hkept x hx
    | _ => cases hseq
  · have hterm := isSeq_tidied h (by simpa using hseq)
    rw [items_of_not_isSeq hterm]
    exact List.forall_mem_singleton.mpr hterm

/-- Statements that stay as they are and have an effect stay as they are together, if none is a sequence. -/
theorem stable_block {ss : List Stmt} (h : ∀ s ∈ ss, s.isSeq = false ∧ s.isNoOp = false ∧ s.Stable) :
    (block ss).Stable := by
  have hseqs : ∀ s ∈ ss, s.isSeq = false := fun s hs => (h s hs).1
  have hlist : ∃ rs, tidied.onList ss = .ok rs ∧ rs.map (·.term) = ss ∧ keptItems rs = ss := by
    clear hseqs
    induction ss with
    | nil => exact ⟨[], rfl, rfl, rfl⟩
    | cons s ss ih =>
      obtain ⟨⟨-, hno, c, hc⟩, hss⟩ := List.forall_mem_cons.mp h
      obtain ⟨rs, hrs, hterms, hkept⟩ := ih hss
      refine ⟨⟨s, c⟩ :: rs, bind_eq_ok.mpr ⟨_, hc, bind_eq_ok.mpr ⟨rs, hrs, rfl⟩⟩, congrArg (s :: ·) hterms, ?_⟩
      simpa [keptItems, hno] using hkept
  rcases ss with _ | ⟨s, _ | ⟨s', ss⟩⟩
  · exact stable_noOp
  · exact (h s (List.mem_singleton_self s)).2.2
  · obtain ⟨rs, hrs, hterms, hkept⟩ := hlist
    have hwhole : (seq (s :: s' :: ss)).tidied = .ok (tidySeq rs) := bind_eq_ok.mpr ⟨rs, hrs, rfl⟩
    rcases tidySeq_cases rs with ⟨-, h⟩ | h
    · exact ⟨false, hwhole.trans (by rw [h, hterms]; rfl)⟩
    · exact ⟨true, hwhole.trans (by rw [h, hkept, ofList, flatMap_items_of_isSeq_eq_false hseqs])⟩

theorem stable_branch (cond : Expr) {onTrue : Stmt} {onFalse : Option Stmt} (htrue : onTrue.Stable)
    (hno : onTrue.isNoOp = false)
    (hfalse : ∀ t ∈ onFalse, t.Stable ∧ t.isNoOp = false) : (branch cond onTrue onFalse).Stable := by
  obtain ⟨c, hc⟩ := htrue
  cases onFalse with
  | none => exact ⟨_, bind_eq_ok.mpr ⟨_, hc, by simp only [tidyBranch, hno]; rfl⟩⟩
  | some t =>
    obtain ⟨⟨c', hc'⟩, hno'⟩ := hfalse t rfl
    have hbranch : tidyBranch cond ⟨onTrue, c⟩ (some ⟨t, c'⟩) = .ok ⟨branch cond onTrue (some t), c || c'⟩ := by
      simp [tidyBranch, Option.filter, hno, hno', pure, Except.pure]
    exact ⟨c || c', bind_eq_ok.mpr ⟨_, hc, bind_eq_ok.mpr ⟨_, hc', hbranch⟩⟩⟩

/-- What is left of a statement with an effect is made of items with an effect. -/
theorem isNoOp_of_mem_items (h : s.tidied = .ok r) (hno : r.term.isNoOp = false) :
    ∀ x ∈ r.term.items, x.isNoOp = false := by
  have heffective := (forall_mem_stmts.mp (effective_tidied h)).2
  revert hno heffective
  cases r.term with
  | seq ss => exact fun _ h => h
  | _ => exact fun hno _ => List.forall_mem_singleton.mpr hno

/-- What is left of a statement stays as it is, and so do the items of a sequence that is left. -/
theorem stable_tidied (h : s.tidied = .ok r) : s.Shallow → r.term.Stable ∧ ∀ x ∈ r.term.items, x.Stable := by
  have halone {t : Stmt} (hseq : t.isSeq = false) (ht : t.Stable) : t.Stable ∧ ∀ x ∈ t.items, x.Stable := by
    rw [items_of_not_isSeq hseq]
    exact ⟨ht, List.forall_mem_singleton.mpr ht⟩
  have hnothing : nothing.term.Stable ∧ ∀ x ∈ nothing.term.items, x.Stable := halone rfl stable_noOp
  have haround {g : Stmt → Stmt} {r : Revised Stmt} (hg : ∀ b, (g b).isSeq = false)
      (hstep : ∀ c, r.term.tidied = .ok ⟨r.term, c⟩ → (g r.term).tidied = .ok (around g ⟨r.term, c⟩)) (ih : r.term.Stable) :
      (around g r).term.Stable ∧ ∀ x ∈ (around g r).term.items, x.Stable := by
    rcases around_cases g r with ⟨-, hr⟩ | ⟨hno, hr⟩
    · rw [hr]
      exact hnothing
    · obtain ⟨c, hc⟩ := ih
      rw [hr]
      refine halone (hg _) ⟨c, (hstep c hc).trans ?_⟩
      rw [around, if_neg (by simpa using hno)]
  refine tidied_induct (motive := fun s r => s.Shallow → r.term.Stable ∧ ∀ x ∈ r.term.items, x.Stable)
    ?bind ?attr ?assert ?skip ?loop ?allocate ?realize ?seq ?branch ?eval ?leaf h
  case bind =>
    exact fun v e b r _ ih hs => haround (fun _ => rfl) (fun c hc => bind_eq_ok.mpr ⟨_, hc, rfl⟩) (ih (hs.body (by simp))).1
  case attr =>
    exact fun subject key e b r _ ih hs => haround (fun _ => rfl) (fun c hc => bind_eq_ok.mpr ⟨_, hc, rfl⟩)
      (ih (hs.body (by simp))).1
  case loop =>
    exact fun v min extent kind b r _ hextent ih hs => haround (fun _ => rfl)
      (fun c hc => bind_eq_ok.mpr ⟨_, hc, if_neg (by simpa using hextent)⟩) (ih (hs.body (by simp))).1
  case allocate =>
    exact fun site v t extents cond b r _ ih hs => haround (fun _ => rfl) (fun c hc => bind_eq_ok.mpr ⟨_, hc, rfl⟩)
      (ih (hs.body (by simp))).1
  case skip => exact fun v min extent kind b _ _ _ => hnothing
  case assert =>
    intro cond message b r ih hs
    obtain ⟨c, hc⟩ := (ih (hs.body (by simp))).1
    exact halone rfl ⟨c, bind_eq_ok.mpr ⟨_, hc, rfl⟩⟩
  case realize =>
    intro op output t bounds cond b r ih hs
    obtain ⟨c, hc⟩ := (ih (hs.body (by simp))).1
    exact halone rfl ⟨c, bind_eq_ok.mpr ⟨_, hc, rfl⟩⟩
  case seq =>
    intro ss rs hwhole hrs hs
    have hall : ∀ r ∈ rs, (r.term.Stable ∧ ∀ x ∈ r.term.items, x.Stable) ∧
        ∀ x ∈ r.term.items, x.isSeq = false ∧ (r.term.isNoOp = false → x.isNoOp = false) := by
      refine ((List.forall₂_and_left rs ss).mp (hrs.flip.imp fun r s h => ⟨?_, h.2.1⟩)).1
      obtain ⟨hmem, hr, hstable⟩ := h
      have hseqs := isSeq_items_tidied hr ((forall_mem_stmts.mp hs).2 s hmem)
      exact ⟨hstable (hs.body hmem), fun x hx => ⟨hseqs x hx, fun hno => isNoOp_of_mem_items hr hno x hx⟩⟩
    rcases tidySeq_cases rs with ⟨-, h⟩ | h
    · -- Nothing has changed, so tidying again does what it did.
      have hsame : (tidySeq rs).term = seq ss := term_eq_of_unchanged hwhole (by rw [h])
      refine ⟨⟨false, by rw [hsame, hwhole, ← hsame, h]⟩, ?_⟩
      rw [h]
      intro x hx
      obtain ⟨r, hr, rfl⟩ := List.mem_map.mp hx
      exact (hall r hr).1.1
    · -- The items that are kept are put together once more.
      have hitems : ∀ x ∈ (keptItems rs).flatMap items, x.isSeq = false ∧ x.isNoOp = false ∧ x.Stable := by
        intro x hx
        obtain ⟨t, ht, hx⟩ := List.mem_flatMap.mp hx
        obtain ⟨r, hr, hno, rfl⟩ := mem_keptItems.mp ht
        obtain ⟨hstable, hitem⟩ := hall r hr
        exact ⟨(hitem x hx).1, (hitem x hx).2 hno, hstable.2 x hx⟩
      rw [h, ofList]
      refine ⟨stable_block hitems, fun x hx => ?_⟩
      rcases mem_items_block (fun s hs => (hitems s hs).1) hx with rfl | hx
      · exact stable_noOp
      · exact (hitems x hx).2.2
  case branch =>
    intro cond onTrue onFalse r r' r₁ _ h iht ihf hs
    have htrue := (iht.2 (hs.body (by simp))).1
    have hfalse : ∀ t ∈ r', t.term.Stable := by
      cases ihf with
      | none => exact fun t ht => by cases ht
      | some ih =>
        intro t ht
        cases ht
        exact (ih.2 (hs.body (by simp))).1
    rcases tidyBranch_cases h with ⟨-, -, rfl⟩ | ⟨-, t, c, rfl, hno, -, rfl⟩ | ⟨hno, rfl⟩
    · exact hnothing
    · exact halone rfl (stable_branch c (hfalse t rfl) hno fun b hb => by cases hb)
    · refine halone rfl (stable_branch cond htrue hno fun b hb => ?_)
      obtain ⟨t, ht, rfl⟩ := Option.map_eq_some_iff.mp hb
      obtain ⟨ht, hno⟩ := Option.filter_eq_some_iff.mp ht
      exact ⟨hfalse t ht, by simpa using hno⟩
  case eval =>
    intro e _ _
    split
    · exact hnothing
    · rename_i he
      exact halone rfl ⟨false, by rw [tidied, if_neg he]; rfl⟩
  case leaf =>
    intro s hbodies hno h _
    refine halone ?_ ⟨false, h⟩
    cases s with
    | seq ss =>
      cases hbodies
      cases hno
    | _ => rfl

end Stmt

end TensorNest

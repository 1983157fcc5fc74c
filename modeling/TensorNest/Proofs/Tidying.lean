import TensorNest.Proofs.Idleness
import TensorNest.Proofs.Magnitudes
import TensorNest.Proofs.RelocatedCalls
import TensorNest.Stmt.Tidy

/-! # Statements without what has no effect -/

namespace TensorNest

namespace Stmt

/-- The value, the condition or the extents of a statement with bodies, which go with the statement. -/
@[simp] def headExprs : Stmt → List Expr
  | bind _ e _ | attr _ _ e _ => [e]
  | loop _ _ extent _ _ => [extent]
  | allocate _ _ _ extents _ _ => extents
  | branch cond _ _ => [cond]
  | _ => []

/-- The first value of the counter of a loop. -/
@[simp] def min? : Stmt → Option Expr
  | loop _ min _ _ _ => some min
  | _ => none

/-- The condition of a branch that has another case. -/
@[simp] def decided? : Stmt → Option Expr
  | branch cond _ (some _) => some cond
  | _ => none

/-- Whether a statement allocates a buffer. -/
@[simp] def isAllocation : Stmt → Bool
  | allocate .. => true
  | _ => false

/-- A statement from which something can be removed unseen: what goes has no impure call, the conditions of branches with
    another case are truth values, and no buffer is allocated on a device. -/
structure Tidyable (f : Frame) (s : Stmt) : Prop where
  harmless : ∀ t ∈ s.stmts, ∀ e ∈ t.headExprs, e.Pure
  minima : ∀ t ∈ s.stmts, ∀ e ∈ t.min?, e.Pure
  conditions : ∀ t ∈ s.stmts, ∀ c ∈ t.decided?, c.dtype.isBool = true
  host : f.coords = none ∨ ∀ t ∈ s.stmts, t.isAllocation = false

variable {f : Frame} {s b : Stmt} {r : Revised Stmt}

theorem Tidyable.body (h : s.Tidyable f) (hb : b ∈ s.bodies) : b.Tidyable f where
  harmless := (forall_mem_stmts.mp h.harmless).1 b hb
  minima := (forall_mem_stmts.mp h.minima).1 b hb
  conditions := (forall_mem_stmts.mp h.conditions).1 b hb
  host := h.host.imp_right fun h => (forall_mem_stmts.mp h).1 b hb

theorem Tidyable.own (h : s.Tidyable f) : ∀ e ∈ s.headExprs, e.Pure := (forall_mem_stmts.mp h.harmless).2

theorem Tidyable.min (h : s.Tidyable f) : ∀ e ∈ s.min?, e.Pure := (forall_mem_stmts.mp h.minima).2

theorem Tidyable.allocates (h : s.Tidyable f) (hs : s.isAllocation = true) : f.coords = none := by
  refine h.host.resolve_right fun h => ?_
  rw [(forall_mem_stmts.mp h).2] at hs
  cases hs

/-! ### What is removed -/

theorem isNoOp_all {ss : List Stmt} : isNoOp.all ss = true ↔ ∀ s ∈ ss, s.isNoOp = true := by
  induction ss with
  | nil => simp [isNoOp.all]
  | cons s ss ih => simp [isNoOp.all, ih]

theorem isNoOp_seq {ss : List Stmt} : (seq ss).isNoOp = true ↔ ∀ s ∈ ss, s.isNoOp = true := isNoOp_all

/-- A statement around a body that has no effect any more goes; around another one it stays. -/
theorem around_cases (g : Stmt → Stmt) (b : Revised Stmt) :
    b.term.isNoOp = true ∧ around g b = nothing ∨ b.term.isNoOp = false ∧ around g b = ⟨g b.term, b.changed⟩ := by
  unfold around
  cases h : b.term.isNoOp <;> simp

theorem forall₂_of_onList {ss : List Stmt} {rs : List (Revised Stmt)} (h : tidied.onList ss = .ok rs) :
    List.Forall₂ (fun s r => s.tidied = .ok r) ss rs := by
  induction ss generalizing rs with
  | nil =>
    cases h
    exact .nil
  | cons s ss ih =>
    obtain ⟨r, hr, h⟩ := bind_eq_ok.mp h
    obtain ⟨rs', hrs, h⟩ := bind_eq_ok.mp h
    cases h
    exact .cons hr (ih hrs)

/-- Induction along the tidying of a statement, from its bodies. -/
theorem tidied_induct {motive : Stmt → Revised Stmt → Prop}
    (bind : ∀ v e b r, (bind v e b).tidied = .ok (around (bind v e) r) → motive b r →
      motive (bind v e b) (around (bind v e) r))
    (attr : ∀ subject key e b r, (attr subject key e b).tidied = .ok (around (attr subject key e) r) → motive b r →
      motive (attr subject key e b) (around (attr subject key e) r))
    (assert : ∀ cond message b r, motive b r → motive (assert cond message b) ⟨assert cond message r.term, r.changed⟩)
    (skip : ∀ v min extent kind b, (loop v min extent kind b).tidied = .ok nothing → extent.isConstInt 0 = true →
      motive (loop v min extent kind b) nothing)
    (loop : ∀ v min extent kind b r, (loop v min extent kind b).tidied = .ok (around (loop v min extent kind) r) →
      extent.isConstInt 0 = false → motive b r → motive (loop v min extent kind b) (around (loop v min extent kind) r))
    (allocate : ∀ site v t extents cond b r, (allocate site v t extents cond b).tidied =
      .ok (around (allocate site v t extents cond) r) →
      motive b r → motive (allocate site v t extents cond b) (around (allocate site v t extents cond) r))
    (realize : ∀ op output t bounds cond b r, motive b r →
      motive (realize op output t bounds cond b) ⟨realize op output t bounds cond r.term, r.changed⟩)
    (seq : ∀ ss rs, (seq ss).tidied = .ok (tidySeq rs) →
      List.Forall₂ (fun s r => s ∈ ss ∧ s.tidied = .ok r ∧ motive s r) ss rs →
      motive (seq ss) (tidySeq rs))
    (branch : ∀ cond onTrue onFalse r r' r₁, (branch cond onTrue onFalse).tidied = .ok r₁ → tidyBranch cond r r' = .ok r₁ →
      onTrue.tidied = .ok r ∧ motive onTrue r → Option.Rel (fun s r => s.tidied = .ok r ∧ motive s r) onFalse r' →
        motive (branch cond onTrue onFalse) r₁)
    (eval : ∀ e, (eval e).tidied = .ok (if e.isConst then nothing else ⟨eval e, false⟩) →
      motive (eval e) (if e.isConst then nothing else ⟨eval e, false⟩))
    (leaf : ∀ s, s.bodies = [] → s.isNoOp = false → s.tidied = .ok ⟨s, false⟩ → motive s ⟨s, false⟩)
    {s : Stmt} {r : Revised Stmt} (h : s.tidied = .ok r) : motive s r := by
  induction s generalizing r with
  | bind v e b ih =>
    have hwhole := h
    obtain ⟨r', hr, h⟩ := bind_eq_ok.mp h
    cases h
    exact bind v e b r' hwhole (ih hr)
  | attr subject key e b ih =>
    have hwhole := h
    obtain ⟨r', hr, h⟩ := bind_eq_ok.mp h
    cases h
    exact attr subject key e b r' hwhole (ih hr)
  | assert cond message b ih =>
    obtain ⟨r', hr, h⟩ := bind_eq_ok.mp h
    cases h
    exact assert cond message b r' (ih hr)
  | loop v min extent kind b ih =>
    have hwhole := h
    obtain ⟨r', hr, h⟩ := bind_eq_ok.mp h
    split at h
    · rename_i hextent
      cases h
      exact skip v min extent kind b hwhole hextent
    · rename_i hextent
      cases h
      exact loop v min extent kind b r' hwhole (by simpa using hextent) (ih hr)
  | store buffer value index pred =>
    cases h
    exact leaf _ rfl rfl rfl
  | provide op output value args =>
    cases h
    exact leaf _ rfl rfl rfl
  | allocate site v t extents cond b ih =>
    have hwhole := h
    obtain ⟨r', hr, h⟩ := bind_eq_ok.mp h
    cases h
    exact allocate site v t extents cond b r' hwhole (ih hr)
  | realize op output t bounds cond b ih =>
    obtain ⟨r', hr, h⟩ := bind_eq_ok.mp h
    cases h
    exact realize op output t bounds cond b r' (ih hr)
  | prefetch op output t bounds =>
    cases h
    exact leaf _ rfl rfl rfl
  | seq ss ih =>
    have hwhole := h
    obtain ⟨rs, hrs, h⟩ := bind_eq_ok.mp h
    cases h
    have hall : ∀ ts ⊆ ss, ∀ rs, List.Forall₂ (fun s r => s.tidied = .ok r) ts rs →
        List.Forall₂ (fun s r => s ∈ ss ∧ s.tidied = .ok r ∧ motive s r) ts rs := by
      intro ts hts rs hrs
      induction hrs with
      | nil => exact .nil
      | cons hr _ iht =>
        obtain ⟨ht, hts⟩ := List.cons_subset.mp hts
        exact .cons ⟨ht, hr, ih _ ht hr⟩ (iht hts)
    exact seq ss rs hwhole (hall ss (List.Subset.refl ss) rs (forall₂_of_onList hrs))
  | branch cond onTrue onFalse iht ihf =>
    have hwhole := h
    cases onFalse with
    | none =>
      obtain ⟨r', hr, h⟩ := bind_eq_ok.mp h
      exact branch cond onTrue none r' none r hwhole h ⟨hr, iht hr⟩ .none
    | some s =>
      obtain ⟨r', hr, h⟩ := bind_eq_ok.mp h
      obtain ⟨r'', hr', h⟩ := bind_eq_ok.mp h
      exact branch cond onTrue (some s) r' (some r'') r hwhole h ⟨hr, iht hr⟩ (.some ⟨hr', ihf s rfl hr'⟩)
  | eval e =>
    have hr : r = if e.isConst then nothing else ⟨.eval e, false⟩ := (Except.ok.inj h).symm
    subst hr
    exact eval e h

theorem isNoOp_block {ss : List Stmt} : (block ss).isNoOp = true ↔ ∀ s ∈ ss, s.isNoOp = true := by
  rcases ss with _ | ⟨s, _ | ⟨s', ss⟩⟩
  · simp [block, noOp, isNoOp, Expr.isConst]
  · simp [block]
  · exact isNoOp_seq

theorem isNoOp_items : (∀ t ∈ s.items, t.isNoOp = true) ↔ s.isNoOp = true := by
  cases s with
  | seq ss => exact isNoOp_seq.symm
  | _ => simp [items]

theorem isNoOp_ofList {ss : List Stmt} : (ofList ss).isNoOp = true ↔ ∀ s ∈ ss, s.isNoOp = true := by
  rw [ofList, isNoOp_block]
  simp only [List.mem_flatMap, forall_exists_index, and_imp]
  exact ⟨fun h s hs => isNoOp_items.mp fun t ht => h t s hs ht, fun h t s hs ht => isNoOp_items.mpr (h s hs) t ht⟩

/-- The tidied items of a sequence that have an effect. -/
def keptItems (rs : List (Revised Stmt)) : List Stmt := (rs.filter fun r => !r.term.isNoOp).map (·.term)

theorem mem_keptItems {rs : List (Revised Stmt)} {t : Stmt} :
    t ∈ keptItems rs ↔ ∃ r ∈ rs, r.term.isNoOp = false ∧ r.term = t := by
  simp [keptItems, and_assoc]

/-- A sequence stays as it is if its items do and have an effect; otherwise those that have one are put together. -/
theorem tidySeq_cases (rs : List (Revised Stmt)) :
    (∀ r ∈ rs, r.term.isNoOp = false ∧ r.changed = false) ∧ tidySeq rs = ⟨seq (rs.map (·.term)), false⟩ ∨
      tidySeq rs = ⟨ofList (keptItems rs), true⟩ := by
  unfold tidySeq
  dsimp only
  split
  · rename_i h
    rw [Bool.and_eq_true, decide_eq_true_eq, List.length_filter_eq_length_iff] at h
    refine .inl ⟨fun r hr => ⟨by simpa using h.1 r hr, ?_⟩, rfl⟩
    have hunchanged : ∀ r ∈ rs, r.changed = false := by simpa using h.2
    exact hunchanged r hr
  · exact .inr rfl

theorem isNoOp_tidySeq {rs : List (Revised Stmt)} : (tidySeq rs).term.isNoOp = true ↔ ∀ r ∈ rs, r.term.isNoOp = true := by
  rcases tidySeq_cases rs with ⟨hkept, h⟩ | h
  · rw [h, isNoOp_seq]
    simp
  · rw [h, isNoOp_ofList]
    simp only [mem_keptItems, forall_exists_index, and_imp]
    refine ⟨fun hall r hr => ?_, fun hall t r hr hno _ => ?_⟩
    · by_contra hno
      exact hno (hall r.term r hr (by simpa using hno) rfl)
    · rw [hall r hr] at hno
      cases hno

/-- A branch goes if none of its cases has an effect, and is turned round if only the other one has. -/
theorem tidyBranch_cases {cond : Expr} {r₁ : Revised Stmt} {r' : Option (Revised Stmt)}
    (h : tidyBranch cond r r' = .ok r₁) :
    (r.term.isNoOp = true ∧ (∀ t ∈ r', t.term.isNoOp = true) ∧ r₁ = nothing) ∨
    (r.term.isNoOp = true ∧ ∃ t c, r' = some t ∧ t.term.isNoOp = false ∧ Expr.logicalNot cond = .ok c ∧
      r₁ = ⟨branch c t.term none, true⟩) ∨
    (r.term.isNoOp = false ∧ r₁ = ⟨branch cond r.term ((r'.filter fun t => !t.term.isNoOp).map (·.term)),
      r.changed || (r'.map (·.changed)).getD false || (r'.filter fun t => !t.term.isNoOp).isSome != r'.isSome⟩) := by
  unfold tidyBranch at h
  dsimp only at h
  split at h
  · rename_i hno
    split at h
    · rename_i hkept
      cases h
      exact .inl ⟨hno, by simpa [Option.filter_eq_none_iff] using hkept, rfl⟩
    · rename_i t hkept
      obtain ⟨c, hc, h⟩ := bind_eq_ok.mp h
      cases h
      obtain ⟨hr', ht⟩ := Option.filter_eq_some_iff.mp hkept
      exact .inr (.inl ⟨hno, t, c, hr', by simpa using ht, hc, rfl⟩)
  · rename_i hno
    cases h
    exact .inr (.inr ⟨by simpa using hno, rfl⟩)

theorem isNoOp_of_around {g : Stmt → Stmt} (hg : ∀ b, (g b).isNoOp = false) (h : (around g r).term.isNoOp = true) :
    r.term.isNoOp = true := by
  rcases around_cases g r with ⟨hr, -⟩ | ⟨-, hr⟩
  · exact hr
  · rw [hr] at h
    exact absurd (h.symm.trans (hg _)) (by simp)

/-! ### What is removed does nothing -/

/-- As an integer, a constant zero of an integer type is zero. -/
theorem eq_zero_of_isConstInt {e : Expr} {env : Env} {m m₁ : Machine} {m' : Memory} {x : Value} {n : Int}
    (he : e.isConstInt 0 = true) (hx : Run.on (e.eval f env) m = (.ok x, m₁)) (hn : x.toInt m' = .ok n) : n = 0 := by
  cases e with
  | const v t =>
    rw [Expr.isConstInt, Expr.constInt?] at he
    split at he
    · rename_i ht
      have hv : v.asInt? = some 0 := by simpa using he
      have hindex : t.element.IsIndex := ⟨ht, rfl⟩
      have hcast : (Value.number v).cast m.memory t = .ok x := congrArg Prod.fst hx
      have hhandle : ¬t.isHandle := by
        simp only [DataType.isInteger, DataType.isInt, DataType.isUInt, Bool.and_eq_true, Bool.or_eq_true, beq_iff_eq] at ht
        rcases ht.1 with hcode | hcode <;> simp [DataType.isHandle, hcode]
      rw [Value.cast, if_neg hhandle] at hcast
      obtain ⟨et, het, hcast⟩ := bind_eq_ok.mp hcast
      dsimp only at hcast
      split at hcast
      · obtain ⟨b, hb, hcast⟩ := bind_eq_ok.mp hcast
        obtain ⟨c, hc, hcast⟩ := bind_eq_ok.mp hcast
        obtain ⟨xs, rfl, -⟩ := spread_eq_ok hc
        cases hcast
        cases hn
      · obtain ⟨b, hb, hcast⟩ := bind_eq_ok.mp hcast
        obtain ⟨c, hc, hcast⟩ := bind_eq_ok.mp hcast
        obtain ⟨ys, hys, hc⟩ := bind_eq_ok.mp hc
        cases hb
        obtain ⟨y, hy, hys⟩ := bind_eq_ok.mp hys
        cases hys
        cases hc
        cases hcast
        have hzero : v.toInt = .ok 0 := by
          cases v <;> simp_all [Number.asInt?, Number.toInt]
        have hfloat : v.isFloat = false := by
          cases v <;> simp_all [Number.asInt?, Number.isFloat]
        have hy : y = .int 0 := by
          obtain ⟨rfl, -⟩ | ⟨rfl, -⟩ := DataType.elemType_integer hindex het <;>
          · simp only [ElemType.ofNumber, hzero, hfloat] at hy
            obtain ⟨_, hk, hy⟩ := bind_eq_ok.mp hy
            cases hk
            simp only [Bool.false_eq_true, if_false] at hy
            split at hy <;> cases hy
            rfl
        subst hy
        cases hn
        rfl
    · cases he
  | _ => cases he

open Thread in
theorem idle_zero {e : Expr} (he : e.isConstInt 0 = true) : Idle [] (· = 0) (integer f e) := by
  have hpure : e.Pure := by
    cases e with
    | const v t => simp [Expr.Pure, Expr.postorder, Expr.isImpureCall]
    | _ => cases he
  have hvalue : Idle [] (fun x : Value => ∀ m n, x.toInt m = .ok n → n = 0) (value f e) := idle_get fun l =>
    idle_result (Expr.idle_eval hpure l.env) fun m x m₁ hx m' n hn => eq_zero_of_isConstInt he hx hn
  refine hvalue.bind fun x hx => idle_result (Run.idle_get.bind fun _ => Run.idle_lift _) fun m n m₁ hn => ?_
  exact hx m.memory n (congrArg Prod.fst hn)

open Thread in
theorem idle_recordAll {ss : List Stmt} {rs : List (Revised Stmt)}
    (h : List.Forall₂ (fun s r => r.term.isNoOp = true → Idle [] (· = []) (s.record f)) ss rs)
    (hno : ∀ r ∈ rs, r.term.isNoOp = true) :
    Idle [] (· = []) (record.recordAll f ss) := by
  induction h with
  | nil => exact idle_pure rfl
  | cons hs _ ih =>
    obtain ⟨hr, hno⟩ := List.forall_mem_cons.mp hno
    exact (hs hr).bind fun es hes => (ih hno).bind fun es' hes' => idle_pure (by rw [hes, hes']; rfl)

open Thread in
/-- A statement that nothing is left of has no deeds, and only adds arrays. -/
theorem idle_of_tidied (h : s.tidied = .ok r) : s.Tidyable f → r.term.isNoOp = true →
    Thread.Idle [] (· = []) (s.record f) := by
  refine tidied_induct (motive := fun s r => s.Tidyable f → r.term.isNoOp = true → Thread.Idle [] (· = []) (s.record f))
    ?bind ?attr ?assert ?skip ?loop ?allocate ?realize ?seq ?branch ?eval ?leaf h
  case bind =>
    intro v e b r _ ih hs hno
    have hbody := isNoOp_of_around (fun _ => rfl) hno
    unfold record
    refine (idle_value (hs.own e (by simp))).bind fun x _ => (idle_ofRun (idle_place x)).bind fun a _ => ?_
    exact (ih (hs.body (by simp)) hbody).scope a (removes_release v)
  case attr =>
    intro subject key e b r _ ih hs hno
    have hbody := isNoOp_of_around (fun _ => rfl) hno
    have hidle := ih (hs.body (by simp)) hbody
    unfold record
    split_ifs
    · cases subject with
      | var v =>
        exact (idle_modify (g := fun l => { l with scopes := (v.id, scopeName e) :: l.scopes }) fun l k _ x hx =>
          hx).bind fun _ _ => hidle
      | _ => exact hidle
    · cases subject with
      | axis iv =>
        refine Idle.bind (P := fun _ => True) idle_lift fun c _ => (idle_integer (hs.own e (by simp))).bind fun n _ => ?_
        split
        · exact hidle.scope _ (removes_release iv.var)
        · exact idle_pure rfl
      | _ => exact idle_throw
    · exact hidle
  case assert =>
    intro cond message b r _ _ hno
    cases hno
  case skip =>
    intro v min extent kind b _ hextent hs _
    unfold record
    refine (idle_integer (hs.min min rfl)).bind fun start _ => (idle_zero hextent).bind fun count hzero => ?_
    subst hzero
    exact Idle.closing (idle_pure rfl) (removes_unbind v)
  case loop =>
    intro v min extent kind b r _ _ ih hs hno
    have hbody := isNoOp_of_around (fun _ => rfl) hno
    unfold record
    refine (idle_integer (hs.min min rfl)).bind fun start _ =>
      (idle_integer (hs.own extent (by simp))).bind fun count _ => ?_
    refine Idle.closing (idle_deedsOfRange (fun i => ?_) start count.toNat) (removes_unbind v)
    have hcounter : Run.Idle (do place (← convertTo v.dtype (.number (.int i)))) :=
      (idle_convertTo _ _).bind fun x => idle_place x
    exact (idle_ofRun hcounter).bind fun a _ => (idle_bind a (List.mem_singleton_self _)).bind fun _ _ =>
      (ih (hs.body (by simp)) hbody).mono (List.nil_subset _)
  case allocate =>
    intro site v t extents cond b r _ ih hs hno
    have hbody := isNoOp_of_around (fun _ => rfl) hno
    unfold record
    refine (idle_product (fun e he => hs.own e he) t.lanes).bind fun size _ =>
      Idle.bind (P := fun _ => True) idle_lift fun e _ => ?_
    have hrest : Idle [] (· = []) (Thread.buffer f (Stmt.allocate site v t extents cond b) v e size.toNat >>= fun a =>
        Thread.bind v (.array a) >>= fun _ => Thread.closing (b.record f) (Thread.unbind v)) :=
      (idle_buffer (hs.allocates rfl) _ v e _).bind fun a _ => (ih (hs.body (by simp)) hbody).scope _ (removes_unbind v)
    split
    · exact Idle.bind (P := fun _ => True) idle_throw fun _ _ => hrest
    · exact hrest
  case realize =>
    intro op output t bounds cond b r _ _ hno
    cases hno
  case seq =>
    intro ss rs _ hrs hs hno
    unfold record
    exact idle_recordAll (hrs.imp fun s r h => h.2.2 (hs.body h.1)) (isNoOp_tidySeq.mp hno)
  case branch =>
    intro cond onTrue onFalse r r' r₁ _ h iht ihf hs hno
    rcases tidyBranch_cases h with ⟨hr, hr', -⟩ | ⟨-, t, c, -, -, -, rfl⟩ | ⟨-, rfl⟩
    · unfold record
      refine (idle_holds (hs.own cond (by simp))).bind fun b _ => ?_
      split
      · exact iht.2 (hs.body (by simp)) hr
      · cases ihf with
        | none => exact idle_pure rfl
        | some ih => exact ih.2 (hs.body (by simp)) (hr' _ rfl)
    · cases hno
    · cases hno
  case eval =>
    intro e _ _ hno
    have he : e.isConst = true := by
      by_contra hconst
      rw [if_neg hconst] at hno
      exact hconst hno
    cases e with
    | const x t =>
      unfold record
      exact (idle_value (e := .const x t) (by simp [Expr.Pure, Expr.postorder, Expr.isImpureCall])).bind fun _ _ =>
        idle_pure rfl
    | _ => cases he
  case leaf =>
    intro s _ hs _ _ hno
    rw [hs] at hno
    cases hno

end Stmt

end TensorNest

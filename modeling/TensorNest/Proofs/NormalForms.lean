import TensorNest.Proofs.Mentions
import TensorNest.Proofs.Magnitudes

/-! # Simplified expressions are in normal form

A second simplification changes nothing (`Expr.simplify_idempotent`). An expression is *canonical* if simplification
leaves it and each of its parts as they are. The atoms of the linear form of a canonical expression are canonical and
differ from each other, so that the form is read back from the sum that is written for it, and that sum is written again
(`Linear.Writes`). The other rules give a side, a constant or an operation to which no rule applies. Where a node was kept
although a builder would fold it, none of its sides had changed, and none changes when it is simplified again. -/

namespace TensorNest
open Expr

theorem Ensures.and {α : Type} {x : Except Error α} {P Q : α → Prop} (hP : Ensures x P) (hQ : Ensures x Q) :
    Ensures x fun a => P a ∧ Q a := fun a ha => ⟨hP a ha, hQ a ha⟩

/-! ### Canonical expressions -/

namespace Expr

/-- Simplification leaves an expression as it is. -/
def Fixed (e : Expr) : Prop :=
  ∃ changed, e.simplifyUnder [] = .ok ⟨e, changed⟩

/-- Simplification leaves an expression and its parts as they are. -/
def Canonical (e : Expr) : Prop :=
  ∀ p ∈ e.postorder, p.Fixed

/-- A simplified expression is canonical, and if it was kept it will be kept. -/
structure Settled (r : Revised Expr) : Prop where
  canonical : r.term.Canonical
  kept : r.changed = false → r.term.simplifyUnder [] = .ok (.kept r.term)

variable {Γ : Context} {t u : DataType} {a b c e : Expr} {op : BinOp} {x y : Revised Expr}

theorem canonical_iff : e.Canonical ↔ (∀ a ∈ e.parts, a.Canonical) ∧ e.Fixed := forall_mem_postorder

theorem Canonical.fixed (h : e.Canonical) : e.Fixed :=
  (canonical_iff.mp h).2

theorem Canonical.part (h : e.Canonical) (ha : a ∈ e.parts) : a.Canonical :=
  (canonical_iff.mp h).1 a ha

theorem canonical_const {n : Number} : (const n t).Canonical :=
  canonical_iff.mpr ⟨List.forall_mem_nil _, false, rfl⟩

theorem canonical_var {v : Var} : (var v).Canonical :=
  canonical_iff.mpr ⟨List.forall_mem_nil _, false, rfl⟩

theorem canonical_of_isConst (h : e.isConst) : e.Canonical := by
  cases e with
  | const => exact canonical_const
  | _ => cases h

theorem settled_of_changed (h : e.Canonical) : Settled ⟨e, true⟩ :=
  ⟨h, nofun⟩

/-- An operation is simplified by what is done to its simplified sides. -/
theorem simplifyUnder_bin (ha : a.simplifyUnder [] = .ok x) (hb : b.simplifyUnder [] = .ok y) :
    (bin op a b).simplifyUnder [] = simplifyBin op (bin op a b).dtype x y := by
  rw [simplifyUnder, ha, hb, dtypeUnder_nil]
  rfl

/-- An operation on canonical sides is canonical if its rule writes it. -/
theorem canonical_of_binRule? (ha : a.Canonical) (hb : b.Canonical)
    (hrule : binRule? op (bin op a b).dtype a b = .ok (some (bin op a b))) : (bin op a b).Canonical := by
  obtain ⟨_, hx⟩ := ha.fixed
  obtain ⟨_, hy⟩ := hb.fixed
  refine canonical_iff.mpr ⟨by simp [parts, ha, hb], true, ?_⟩
  rw [simplifyUnder_bin hx hy, simplifyBin, hrule]
  rfl

end Expr

/-! ### Linear forms -/

namespace Linear

/-- An expression of a type that is canonical and stays as it is in a linear form. -/
structure CanonicalAtom (t : DataType) (e : Expr) : Prop where
  dtype : e.dtype = t
  canonical : e.Canonical
  linear : ofExpr e = .ok (atom e)

/-- Atoms with coefficients, no atom being the same as a later one. -/
def Distinct (ts : List (Expr × Int)) : Prop :=
  ts.Pairwise fun p q => p.1.same q.1 = false

/-- A linear form over canonical atoms that differ from each other. -/
structure Canonical (t : DataType) (l : Linear) : Prop where
  atoms : l.All (CanonicalAtom t)
  distinct : Distinct l.terms

/-- The terms that are written. -/
def live (ts : List (Expr × Int)) : List (Expr × Int) :=
  ts.filter fun p => p.2 != 0

variable {Γ : Context} {t : DataType} {l r : Linear} {a b e s : Expr} {op : BinOp} {k d n : Int} {ts us : List (Expr × Int)}

theorem addTerm_of_distinct (h : ∀ p ∈ ts, p.1.same e = false) : addTerm e k ts = ts ++ [(e, k)] := by
  induction ts with
  | nil => rfl
  | cons p ts ih =>
    obtain ⟨hp, hts⟩ := List.forall_mem_cons.mp h
    rw [addTerm, hp, ih hts]
    rfl

/-- A new atom is put at the end if none is the same. -/
theorem Distinct.addTerm (h : Distinct ts) : Distinct (addTerm e k ts) := by
  induction ts with
  | nil => exact List.pairwise_singleton ..
  | cons p ts ih =>
    obtain ⟨hp, hts⟩ := List.pairwise_cons.mp h
    unfold Linear.addTerm
    split
    · exact List.pairwise_cons.mpr ⟨hp, hts⟩
    · refine List.pairwise_cons.mpr ⟨fun q hq => ?_, ih hts⟩
      obtain heq | ⟨q', hq', heq⟩ := mem_addTerm hq
      · rw [heq]
        exact Bool.eq_false_iff.mpr ‹_›
      · rw [heq]
        exact hp q' hq'

theorem Distinct.addTerms (h : Distinct ts) : Distinct (us.foldl (fun ts q => Linear.addTerm q.1 (k * q.2) ts) ts) := by
  induction us generalizing ts with
  | nil => exact h
  | cons q us ih => exact ih h.addTerm

theorem Distinct.map (h : Distinct ts) (f : Int → Int) : Distinct (ts.map fun p => (p.1, f p.2)) :=
  List.pairwise_map.mpr h

theorem canonical_atom (he : CanonicalAtom t e) : (atom e).Canonical t :=
  ⟨all_atom he, List.pairwise_singleton ..⟩

theorem Canonical.addScaled (hl : l.Canonical t) (hr : r.Canonical t) (k : Int) : (l.addScaled k r).Canonical t :=
  ⟨hl.atoms.addScaled hr.atoms k, hl.distinct.addTerms⟩

theorem Canonical.scale (hl : l.Canonical t) (k : Int) : (l.scale k).Canonical t :=
  ⟨hl.atoms.scale k, hl.distinct.map (· * k)⟩

theorem Canonical.quotient (hl : l.Canonical t) (d : Int) : (l.quotient d).Canonical t :=
  ⟨hl.atoms.quotient d, hl.distinct.map (· / d)⟩

/-- The rule for sums, differences and products writes their linear form. -/
theorem binRule?_linear (ht : t.IsIndex) (hop : op = .add ∨ op = .sub ∨ op = .mul) :
    binRule? op t a b = ofExpr (.bin op a b) >>= fun l => l.toExpr t >>= fun e => .ok (some e) := by
  unfold binRule?
  rw [ht.integer, ht.scalar]
  obtain rfl | rfl | rfl := hop <;> rfl

theorem ensures_ofExpr_bin (ht : t.IsIndex) (hop : op = .add ∨ op = .sub ∨ op = .mul) (hdtype : a.dtype = t)
    (ha : a.Canonical) (hb : b.Canonical) (hla : Ensures (ofExpr a) (Canonical t))
    (hlb : Ensures (ofExpr b) (Canonical t)) :
    Ensures (ofExpr (.bin op a b)) (Canonical t) := by
  obtain rfl | rfl | rfl := hop
  · exact hla.bind fun l hl => hlb.bind fun r hr => ensures_ok (hl.addScaled hr 1)
  · exact hla.bind fun l hl => hlb.bind fun r hr => ensures_ok (hl.addScaled hr (-1))
  · by_cases hconst : (∃ x u, b = .const x u) ∨ ∃ x u, a = .const x u
    · unfold ofExpr
      split
      · exact hla.bind fun l hl => ensures_trivial.bind fun k _ => ensures_ok (hl.scale k)
      · exact hlb.bind fun l hl => ensures_trivial.bind fun k _ => ensures_ok (hl.scale k)
      · simp_all
    · push Not at hconst
      have hlinear := ofExpr_mul_of_ne hconst.2 hconst.1
      have htype : (Expr.bin .mul a b).dtype = t := hdtype
      rw [hlinear]
      refine ensures_ok (canonical_atom ⟨htype, canonical_of_binRule? ha hb ?_, hlinear⟩)
      rw [htype, binRule?_linear ht (by simp), hlinear]
      rfl

/-- The linear form of a canonical expression. -/
theorem ensures_ofExpr_canonical (ht : t.IsIndex) (he : e.Typed Γ t) (hcan : e.Canonical) :
    Ensures (ofExpr e) (Canonical t) := by
  have hself {e : Expr} (he : e.Typed Γ t) (hcan : e.Canonical) (hlinear : ofExpr e = .ok (atom e)) :
      Ensures (ofExpr e) (Canonical t) := hlinear ▸ ensures_ok (canonical_atom ⟨he.dtype, hcan, hlinear⟩)
  induction e with
  | const n u => exact (ensures_trivial (x := n.toInt)).bind fun k _ => ensures_ok ⟨List.forall_mem_nil _, .nil⟩
  | bin op a b iha ihb =>
    cases he with | bin hop ha hb
    cases hop with
    | arith hop =>
      have hca := hcan.part (a := a) (by simp [parts])
      have hcb := hcan.part (a := b) (by simp [parts])
      cases op with
      | add | sub | mul => exact ensures_ofExpr_bin ht (by simp) ha.dtype hca hcb (iha ha hca) (ihb hb hcb)
      | _ => exact hself (.bin (.arith hop ht) ha hb) hcan rfl
    | _ => exact absurd ht DataType.not_isIndex_bool
  | _ => exact hself he hcan rfl

/-! ### Sums that are written -/

/-- A sum that was written for some terms: it is canonical, the terms are read back from it, and it is what is written for
    them. -/
structure Writes (t : DataType) (ts : List (Expr × Int)) (s : Expr) : Prop where
  dtype : s.dtype = t
  canonical : s.Canonical
  linear : ofExpr s = .ok ⟨ts, 0⟩
  written : sumTerms t none ts = .ok (some s)

/-- What is written so far for some terms; nothing is written for no terms. -/
def WrittenFor (t : DataType) (ts : List (Expr × Int)) : Option Expr → Prop
  | none => ts = []
  | some s => Writes t ts s

theorem sumTerms_append (acc : Option Expr) (us ts : List (Expr × Int)) :
    sumTerms t acc (us ++ ts) = sumTerms t acc us >>= fun o => sumTerms t o ts := by
  induction us generalizing acc with
  | nil => rfl
  | cons p us ih =>
    obtain ⟨e, k⟩ := p
    simp only [List.cons_append, sumTerms, ih]
    split
    · rfl
    · rw [bind_assoc]
      refine bind_congr fun term => ?_
      cases acc with
      | none =>
        dsimp only
        split <;> simp only [bind_assoc]
      | some s => simp only [bind_assoc]

theorem writes_atom (he : CanonicalAtom t e) : Writes t [(e, 1)] e :=
  ⟨he.dtype, he.canonical, he.linear, rfl⟩

section Writing
variable (ht : t.IsIndex)
include ht

theorem ofInt_eq (k : Int) : ofInt k t = .ok (.const (.int k) t) :=
  ofNumber_int ht k

/-- A sum or a product with canonical sides is canonical if it is written for its terms. -/
theorem writes_bin (hop : op = .add ∨ op = .sub ∨ op = .mul) (hdtype : a.dtype = t) (ha : a.Canonical) (hb : b.Canonical)
    (hlinear : ofExpr (.bin op a b) = .ok ⟨ts, 0⟩) (hwritten : sumTerms t none ts = .ok (some (.bin op a b))) :
    Writes t ts (.bin op a b) := by
  have htype : (Expr.bin op a b).dtype = t := by obtain rfl | rfl | rfl := hop <;> exact hdtype
  refine ⟨htype, canonical_of_binRule? ha hb ?_, hlinear, hwritten⟩
  rw [htype, binRule?_linear ht hop, hlinear]
  show (toExpr ⟨ts, 0⟩ t >>= fun e => Except.ok (some e)) = _
  rw [toExpr, hwritten]
  rfl

theorem writes_scaled (he : CanonicalAtom t e) (hk : k ≠ 0) (hone : k ≠ 1) :
    Writes t [(e, k)] (.bin .mul e (.const (.int k) t)) := by
  refine writes_bin ht (by simp) he.dtype he.canonical canonical_const ?_ ?_
  · show (ofExpr e >>= fun l => Except.ok (l.scale k)) = _
    rw [he.linear]
    simp [Bind.bind, Except.bind, atom, scale]
  · simp only [sumTerms, if_neg hk, termExpr, ofInt_eq ht]
    by_cases hpos : 0 < k
    · have hnat : (k.natAbs : Int) = k := by omega
      simp only [if_neg (show ¬ k.natAbs = 1 by omega), if_pos hpos, hnat]
      rfl
    · simp only [if_neg hpos]
      split <;> rfl

theorem ensures_termExpr_writes (he : CanonicalAtom t e) (hk : k ≠ 0) :
    Ensures (termExpr t e k) (Writes t [(e, (k.natAbs : Int))]) := by
  unfold termExpr
  split
  · rw [‹k.natAbs = 1›]
    exact ensures_ok (writes_atom he)
  · rw [ofInt_eq ht]
    exact ensures_ok (writes_scaled ht he (by omega) (by omega))

/-- A term is added to what is written so far. -/
theorem WrittenFor.term {acc : Option Expr} (h : WrittenFor t us acc) (he : CanonicalAtom t e) (hk : k ≠ 0)
    (hnew : ∀ p ∈ us, p.1.same e = false) : Ensures (sumTerms t acc [(e, k)]) (WrittenFor t (us ++ [(e, k)])) := by
  cases acc with
  | none =>
    obtain rfl : us = [] := h
    by_cases hone : k = 1
    · subst hone
      exact ensures_ok (writes_atom he)
    · have hscaled := writes_scaled ht he hk hone
      rw [hscaled.written]
      exact ensures_ok hscaled
  | some s =>
    have hs : Writes t us s := h
    intro o ho
    have hwritten : sumTerms t none (us ++ [(e, k)]) = .ok o := by
      rw [sumTerms_append, hs.written]
      exact ho
    simp only [sumTerms, if_neg hk] at ho
    obtain ⟨term, hterm, ho⟩ := bind_eq_ok.mp ho
    have hterm := ensures_termExpr_writes ht he hk term hterm
    cases ho
    refine writes_bin ht (by split <;> simp) hs.dtype hs.canonical hterm.canonical ?_ hwritten
    split
    · have hsize : (k.natAbs : Int) = k := by omega
      show (ofExpr s >>= fun l => ofExpr term >>= fun r => Except.ok (l.addScaled 1 r)) = _
      rw [hs.linear, hterm.linear, hsize]
      simp [Bind.bind, Except.bind, addScaled, addTerm_of_distinct hnew]
    · have hsize : (k.natAbs : Int) = -k := by omega
      show (ofExpr s >>= fun l => ofExpr term >>= fun r => Except.ok (l.addScaled (-1) r)) = _
      rw [hs.linear, hterm.linear, hsize]
      simp [Bind.bind, Except.bind, addScaled, addTerm_of_distinct hnew]

/-- The terms of a form are written one after the other. -/
theorem ensures_sumTerms_writes {acc : Option Expr} (h : WrittenFor t us acc) (hts : ∀ p ∈ ts, CanonicalAtom t p.1)
    (hdistinct : Distinct (us ++ ts)) : Ensures (sumTerms t acc ts) (WrittenFor t (us ++ live ts)) := by
  induction ts generalizing acc us with
  | nil => exact ensures_ok (by simpa [live] using h)
  | cons p ts ih =>
    obtain ⟨e, k⟩ := p
    obtain ⟨he, hts⟩ := List.forall_mem_cons.mp hts
    by_cases hk : k = 0
    · have hrest : Distinct (us ++ ts) := hdistinct.sublist ((List.sublist_cons_self ..).append_left us)
      simp only [live, List.filter_cons, hk, sumTerms, bne_self_eq_false, if_true, Bool.false_eq_true, if_false]
      exact ih h hts hrest
    · have hnew : ∀ p ∈ us, p.1.same e = false := fun p hp =>
        (List.pairwise_append.mp hdistinct).2.2 p hp _ List.mem_cons_self
      rw [show (e, k) :: ts = [(e, k)] ++ ts from rfl, sumTerms_append]
      refine (h.term ht he hk hnew).bind fun o ho => ?_
      have hlive : us ++ live ([(e, k)] ++ ts) = us ++ [(e, k)] ++ live ts := by simp [live, hk]
      rw [hlive]
      exact ih ho hts (by simpa using hdistinct)

/-- What is written for a form of canonical atoms is canonical, and the form is read back from it but for the terms with
    coefficient 0. -/
theorem ensures_toExpr_canonical (hl : l.Canonical t) :
    Ensures (l.toExpr t) fun e => e.Canonical ∧ ofExpr e = .ok ⟨live l.terms, l.const⟩ := by
  unfold toExpr
  have hnone : WrittenFor t [] none := rfl
  refine (ensures_sumTerms_writes ht hnone hl.atoms hl.distinct).bind fun o ho => ?_
  rw [List.nil_append] at ho
  cases o with
  | none =>
    have hnil : live l.terms = [] := ho
    rw [hnil, ofInt_eq ht]
    exact ensures_ok ⟨canonical_const, rfl⟩
  | some s =>
    have hs : Writes t (live l.terms) s := ho
    -- The sum with a constant on its right is what is written for its form.
    have hconst {op : BinOp} {k : Int} (hop : op = .add ∨ op = .sub)
        (hlinear : ofExpr (.bin op s (.const (.int k) t)) = .ok ⟨live l.terms, l.const⟩)
        (hwritten : toExpr ⟨live l.terms, l.const⟩ t = .ok (.bin op s (.const (.int k) t))) :
        (Expr.bin op s (.const (.int k) t)).Canonical ∧
        ofExpr (.bin op s (.const (.int k) t)) = .ok ⟨live l.terms, l.const⟩ := by
      have htype : (Expr.bin op s (.const (.int k) t)).dtype = t := by obtain rfl | rfl := hop <;> exact hs.dtype
      refine ⟨canonical_of_binRule? hs.canonical canonical_const ?_, hlinear⟩
      rw [htype, binRule?_linear ht (by tauto), hlinear]
      show (toExpr ⟨live l.terms, l.const⟩ t >>= fun e => Except.ok (some e)) = _
      rw [hwritten]
      rfl
    have hwritten : toExpr ⟨live l.terms, l.const⟩ t = (if 0 < l.const then .ok (.bin .add s (.const (.int l.const) t))
        else if l.const < 0 then .ok (.bin .sub s (.const (.int (-l.const)) t)) else .ok s) := by
      rw [toExpr, hs.written]
      simp only [ofInt_eq ht]
      rfl
    simp only [ofInt_eq ht]
    split
    · refine ensures_ok (hconst (.inl rfl) ?_ (hwritten.trans (if_pos ‹_›)))
      show (ofExpr s >>= fun l' => Except.ok (l'.addScaled 1 (ofConst l.const))) = _
      rw [hs.linear]
      simp [Bind.bind, Except.bind, addScaled, ofConst]
    · split
      · refine ensures_ok (hconst (.inr rfl) ?_ (hwritten.trans ((if_neg ‹_›).trans (if_pos ‹_›))))
        show (ofExpr s >>= fun l' => Except.ok (l'.addScaled (-1) (ofConst (-l.const)))) = _
        rw [hs.linear]
        simp [Bind.bind, Except.bind, addScaled, ofConst]
      · rw [show l.const = 0 by omega]
        exact ensures_ok ⟨hs.canonical, hs.linear⟩

end Writing

end Linear

/-! ### Rules -/

namespace Expr

section Rules
variable {Γ : Context} {t u : DataType} {a b c e : Expr} {op : BinOp} {x y : Revised Expr}

theorem ensures_some_canonical (he : e.Canonical) : Ensures (.ok (some e)) (∀ e ∈ ·, e.Canonical) :=
  ensures_ok fun _ h => Option.some.inj h ▸ he

theorem ensures_none_canonical : Ensures (.ok none) (∀ e ∈ ·, Canonical e) :=
  ensures_ok fun _ => nofun

theorem ensures_ofInt_canonical {k : Int} : Ensures (ofInt k t) Canonical :=
  (ensures_trivial (x := (Number.int k).ofType t)).bind fun _ _ => ensures_ok canonical_const

theorem ensures_divMod?_canonical (ht : t.IsIndex) (ha : a.Typed Γ t) (hca : a.Canonical) :
    Ensures (divMod? op a b) (∀ e ∈ ·, e.Canonical) := by
  unfold divMod?
  split
  · split
    · exact ensures_none_canonical
    refine (ensures_trivial (x := Number.toInt _)).bind fun d _ => ?_
    split
    · split
      · exact ensures_some_canonical hca
      · exact ensures_ofInt_canonical.bind fun e he => ensures_some_canonical he
    refine (Linear.ensures_ofExpr_canonical ht ha hca).bind fun l hl => ?_
    split
    · exact ensures_none_canonical
    split
    · exact ensures_ofInt_canonical.bind fun e he => ensures_some_canonical he
    · rw [ha.dtype]
      exact (Linear.ensures_toExpr_canonical ht (hl.quotient d)).bind fun e he => ensures_some_canonical he.1
  · exact ensures_none_canonical

/-- What a rule gives for canonical sides is canonical. -/
theorem ensures_binRule?_canonical (hop : op.Maps t u) (ha : a.Typed Γ t) (hb : b.Typed Γ t) (hca : a.Canonical)
    (hcb : b.Canonical) : Ensures (binRule? op u a b) (∀ e ∈ ·, e.Canonical) := by
  cases hop with
  | arith hop ht =>
    have hlinear (hop : op = .add ∨ op = .sub ∨ op = .mul) : Ensures (binRule? op t a b) (∀ e ∈ ·, e.Canonical) := by
      rw [Linear.binRule?_linear ht hop]
      refine (Linear.ensures_ofExpr_bin ht hop ha.dtype hca hcb (Linear.ensures_ofExpr_canonical ht ha hca)
        (Linear.ensures_ofExpr_canonical ht hb hcb)).bind fun l hl => ?_
      exact (Linear.ensures_toExpr_canonical ht hl).bind fun e he => ensures_some_canonical he.1
    cases op with
    | add | sub | mul => exact hlinear (by simp)
    | div | mod =>
      unfold binRule?
      rw [ht.integer, ht.scalar]
      exact ensures_divMod?_canonical ht ha hca
    | min | max =>
      refine ensures_trivial.bind fun d _ => ?_
      cases d with
      | some d => exact ensures_some_canonical (by simp only [reduceIte, reduceCtorEq]; split <;> assumption)
      | none =>
        dsimp only
        split
        · exact ensures_some_canonical hca
        · exact ensures_none_canonical
    | _ => cases hop
  | compare hop =>
    cases op with
    | eq | ne | lt | le | gt | ge =>
      refine ensures_trivial.bind fun d _ => ?_
      split
      · exact ensures_some_canonical canonical_const
      · exact ensures_none_canonical
    | _ => cases hop
  | and | or => exact ensures_none_canonical

theorem ensures_fold_cases : Ensures (fold op a b) fun e => e = bin op a b ∨ e.isConst := by
  unfold fold
  split
  · split
    · exact ensures_ok (.inl rfl)
    · refine (ensures_trivial (x := foldValue ..)).bind fun z _ => ?_
      exact (ensures_trivial (x := z.ofType _)).bind fun _ _ => ensures_ok (.inr rfl)
  · exact ensures_ok (.inl rfl)

/-- A builder gives the operation, a constant or a side. -/
theorem ensures_binary_cases (hop : op.Maps t u) (ha : a.Typed Γ t) (hb : b.Typed Γ t) :
    Ensures (binary op a b) fun e => e = bin op a b ∨ e.isConst ∨ e = a ∨ e = b := by
  have hite {p : Bool} : (if p then a else b) = a ∨ (if p then a else b) = b := by cases p <;> simp
  have hside {e : Expr} (h : e = a ∨ e = b) : e = bin op a b ∨ e.isConst ∨ e = a ∨ e = b := .inr (.inr h)
  unfold Expr.binary
  split
  · cases hop with
    | arith hop | compare hop => cases hop
    | and =>
      rw [logicalAnd, asBool_of_dtype ha.dtype, asBool_of_dtype hb.dtype]
      dsimp only [Bind.bind, Except.bind]
      split
      · exact ensures_ok (hside (by split <;> simp))
      · exact ensures_ok (hside hite)
      · exact ensures_ok (.inl rfl)
  · cases hop with
    | arith hop | compare hop => cases hop
    | or =>
      rw [logicalOr, asBool_of_dtype ha.dtype, asBool_of_dtype hb.dtype]
      dsimp only [Bind.bind, Except.bind]
      split
      · exact ensures_ok (hside hite)
      · exact ensures_ok (hside (by split <;> simp))
      · exact ensures_ok (.inl rfl)
  · rw [arith, operands_of_dtype ha.dtype hb.dtype]
    exact fun e he => (ensures_fold_cases e he).imp_right .inl

/-- An operation on settled sides. -/
theorem ensures_simplifyBin_settled (hop : op.Maps t u) (ha : x.term.Typed Γ t) (hb : y.term.Typed Γ t) (hx : Settled x)
    (hy : Settled y) : Ensures (simplifyBin op u x y) Settled := by
  obtain ⟨a, ca⟩ := x
  obtain ⟨b, cb⟩ := y
  have htype : (bin op a b).dtype = u := (Typed.bin hop ha hb).dtype
  have hparts : ∀ p ∈ (bin op a b).parts, p.Canonical := by simp [parts, hx.canonical, hy.canonical]
  intro r hr
  unfold simplifyBin at hr
  obtain ⟨o, hrule, hr⟩ := bind_eq_ok.mp hr
  cases o with
  | some e =>
    cases hr
    exact settled_of_changed (ensures_binRule?_canonical hop ha hb hx.canonical hy.canonical _ hrule e rfl)
  | none =>
    have hrule : binRule? op u a b = .ok none := hrule
    dsimp only at hr
    split at hr
    · -- No side has changed, and none changes when it is simplified again.
      rename_i hkept
      cases hr
      obtain ⟨rfl, rfl⟩ : ca = false ∧ cb = false := by simp_all
      have hxa : a.simplifyUnder [] = .ok ⟨a, false⟩ := hx.kept rfl
      have hyb : b.simplifyUnder [] = .ok ⟨b, false⟩ := hy.kept rfl
      have hagain : (bin op a b).simplifyUnder [] = .ok (.kept (bin op a b)) := by
        rw [simplifyUnder_bin hxa hyb, htype, simplifyBin, hrule]
        exact if_pos hkept
      exact ⟨canonical_iff.mpr ⟨hparts, _, hagain⟩, fun _ => hagain⟩
    · obtain ⟨e, hbuilt, hr⟩ := bind_eq_ok.mp hr
      cases hr
      refine settled_of_changed ?_
      obtain rfl | hconst | rfl | rfl := ensures_binary_cases hop ha hb e hbuilt
      · obtain ⟨ca', hx'⟩ := hx.canonical.fixed
        obtain ⟨cb', hy'⟩ := hy.canonical.fixed
        refine canonical_iff.mpr ⟨hparts, ?_⟩
        unfold Fixed
        rw [simplifyUnder_bin hx' hy', htype, simplifyBin, hrule]
        dsimp only [Bind.bind, Except.bind]
        rw [hbuilt]
        split <;> exact ⟨_, rfl⟩
      · exact canonical_of_isConst hconst
      · exact hx.canonical
      · exact hy.canonical

end Rules

/-! ### Simplification -/

section Simplifying
variable {Γ : Context} {t : DataType} {a b c e : Expr} {x y : Revised Expr}

theorem settled_leaf (h : e.isLeaf) : Settled ⟨e, false⟩ := by
  cases e with
  | const => exact ⟨canonical_const, fun _ => rfl⟩
  | var => exact ⟨canonical_var, fun _ => rfl⟩
  | _ => cases h

/-- A conversion gives the expression, a constant or a cast. -/
theorem ensures_castTo_canonical (h : a.Canonical) : Ensures (castTo t a) Canonical := by
  have hcases : Ensures (castTo t a) fun e => e = a ∨ e.isConst ∨ e = cast t a := by
    unfold castTo
    split
    · exact ensures_ok (.inl rfl)
    split
    · split
      · exact (ensures_trivial (x := Number.ofType ..)).bind fun _ _ => ensures_ok (.inr (.inl rfl))
      · exact ensures_ok (.inr (.inr rfl))
    · exact ensures_ok (.inr (.inr rfl))
  intro e he
  obtain rfl | hconst | rfl := hcases e he
  · exact h
  · exact canonical_of_isConst hconst
  · obtain ⟨changed, hx⟩ := h.fixed
    refine canonical_iff.mpr ⟨List.forall_mem_singleton.mpr h, true, ?_⟩
    rw [simplifyUnder, hx]
    dsimp only [Bind.bind, Except.bind]
    rw [he]
    rfl

theorem ensures_logicalNot_canonical (ha : a.Typed Γ .bool) (h : a.Canonical) : Ensures (logicalNot a) Canonical := by
  have hcases : Ensures (logicalNot a) fun e => e.isConst ∨ e = not a := by
    rw [logicalNot, asBool_of_dtype ha.dtype]
    dsimp only [Bind.bind, Except.bind]
    split
    · exact ensures_ok (.inl rfl)
    · exact ensures_ok (.inr rfl)
  intro e he
  obtain hconst | rfl := hcases e he
  · exact canonical_of_isConst hconst
  · obtain ⟨changed, hx⟩ := h.fixed
    refine canonical_iff.mpr ⟨List.forall_mem_singleton.mpr h, true, ?_⟩
    rw [simplifyUnder, hx]
    dsimp only [Bind.bind, Except.bind]
    rw [he]
    rfl

/-- A choice between canonical values that differ. -/
theorem ensures_choose_canonical (hc : c.Typed Γ .bool) (ha : a.Typed Γ t) (hb : b.Typed Γ t) (hcc : c.Canonical)
    (hca : a.Canonical) (hcb : b.Canonical) (hdiffer : ¬ a.same b = true) : Ensures (choose c a b) Canonical := by
  have hcases : Ensures (choose c a b) fun e => e = a ∨ e = b ∨ e = select c a b := by
    rw [choose, asBool_of_dtype hc.dtype, operands_of_dtype ha.dtype hb.dtype]
    dsimp only [Bind.bind, Except.bind]
    split
    · exact ensures_ok (by split <;> simp)
    · exact ensures_ok (.inr (.inr rfl))
  intro e he
  obtain rfl | rfl | rfl := hcases e he
  · exact hca
  · exact hcb
  · obtain ⟨_, hx⟩ := hcc.fixed
    obtain ⟨_, hy⟩ := hca.fixed
    obtain ⟨_, hz⟩ := hcb.fixed
    refine canonical_iff.mpr ⟨by simp [parts, hcc, hca, hcb], true, ?_⟩
    rw [simplifyUnder, hx, hy, hz]
    dsimp only [Bind.bind, Except.bind]
    rw [if_neg hdiffer, he]
    rfl

/-- A mark of likelihood on a settled condition. -/
theorem settled_likely (h : Settled x) :
    Settled (simplifyCall (.call .bool "likely" [x.term] .pureIntrinsic none 0) (x.changed || false)) := by
  obtain ⟨a, changed⟩ := x
  have hagain {changed : Bool} (hconst : ∀ n u, a ≠ const n u) (hx : a.simplifyUnder [] = .ok ⟨a, changed⟩) :
      (call .bool "likely" [a] .pureIntrinsic none 0).simplifyUnder [] =
        .ok ⟨.call .bool "likely" [a] .pureIntrinsic none 0, changed⟩ := by
    rw [simplifyUnder, simplifyUnder.onList, hx]
    show Except.ok (simplifyCall (.call .bool "likely" [a] .pureIntrinsic none 0) (changed || false)) = _
    rw [Bool.or_false, simplifyCall]
    rintro _ n u _ _ _ _ ⟨⟩
    exact hconst n u rfl
  unfold simplifyCall
  split
  · cases ‹Expr.call .. = _›
    exact settled_of_changed canonical_const
  · rename_i hne
    have hconst : ∀ n u, a ≠ const n u := by
      rintro n u rfl
      exact hne _ _ _ _ _ _ _ rfl
    obtain ⟨_, hx⟩ := h.canonical.fixed
    refine ⟨canonical_iff.mpr ⟨List.forall_mem_singleton.mpr h.canonical, _, hagain hconst hx⟩, fun hchanged => ?_⟩
    exact hagain hconst (h.kept (by simpa using hchanged))

/-- A binding of a settled value that is no leaf. -/
theorem settled_bind {v : Var} (hx : Settled x) (hy : Settled y) (hleaf : ¬ x.term.isLeaf = true) :
    Settled ⟨bind v x.term y.term, x.changed || y.changed⟩ := by
  have hagain {p q : Bool} (hx : x.term.simplifyUnder [] = .ok ⟨x.term, p⟩)
      (hy : y.term.simplifyUnder [] = .ok ⟨y.term, q⟩) :
      (bind v x.term y.term).simplifyUnder [] = .ok ⟨bind v x.term y.term, p || q⟩ := by
    rw [simplifyUnder, hx]
    dsimp only [Bind.bind, Except.bind]
    rw [if_neg hleaf, hy]
    rfl
  obtain ⟨_, hfx⟩ := hx.canonical.fixed
  obtain ⟨_, hfy⟩ := hy.canonical.fixed
  refine ⟨canonical_iff.mpr ⟨by simp [parts, hx.canonical, hy.canonical], _, hagain hfx hfy⟩, fun hchanged => ?_⟩
  obtain ⟨hp, hq⟩ := Bool.or_eq_false_iff.mp hchanged
  exact hagain (hx.kept hp) (hy.kept hq)

variable {Δ : Context} {B : List Nat} {ρ σ : Valuation Int} {s : Subst}

/-- The simplified expression is settled. That its parts are well-typed follows from the values that they have. -/
theorem ensures_simplifyUnder_settled (he : e.Typed Γ t) (hs : Carries s Γ Δ B False ρ σ) (hnodup : e.boundVars.Nodup)
    (hfresh : ∀ x ∈ e.boundVars, x ∈ B ∧ Δ x = none ∧ ∀ p ∈ s, x ≠ p.1.id) : Ensures (e.simplifyUnder s) Settled := by
  induction he generalizing Δ ρ σ s with
  | var hv ht => exact ensures_ok (settled_leaf (hs _ hv ht).1)
  | const hx => exact ensures_ok (settled_leaf rfl)
  | cast ht hu ha ih =>
    rw [boundVars_cast] at hnodup hfresh
    exact (ih hs hnodup hfresh).bind fun r hr => (ensures_castTo_canonical hr.canonical).bind fun e he =>
      ensures_ok (settled_of_changed he)
  | @bin Γ op t u a b hop ha hb iha ihb =>
    have htype : (Expr.bin op a b).dtypeUnder s = u :=
      (Typed.bin hop ha hb).dtypeUnder (fun v hv ht => (hs v hv ht).2.dtype) fun x hx => (hfresh x hx).2.2
    rw [boundVars_bin] at hnodup hfresh
    rw [List.nodup_append] at hnodup
    rw [List.forall_mem_append] at hfresh
    have hta := gives_simplifyUnder_evaluates ha False.elim hs hnodup.1 hfresh.1
    have htb := gives_simplifyUnder_evaluates hb False.elim hs hnodup.2.1 hfresh.2
    refine (hta.ensures.and (iha hs hnodup.1 hfresh.1)).bind fun x hx => ?_
    refine (htb.ensures.and (ihb hs hnodup.2.1 hfresh.2)).bind fun y hy => ?_
    rw [htype]
    exact ensures_simplifyBin_settled hop hx.1.typed hy.1.typed hx.2 hy.2
  | not ha ih =>
    rw [boundVars_not] at hnodup hfresh
    have hta := gives_simplifyUnder_evaluates ha False.elim hs hnodup hfresh
    refine (hta.ensures.and (ih hs hnodup hfresh)).bind fun r hr => ?_
    exact (ensures_logicalNot_canonical hr.1.typed hr.2.canonical).bind fun e he => ensures_ok (settled_of_changed he)
  | @select Γ t c a b hc ha hb ihc iha ihb =>
    rw [boundVars_select] at hnodup hfresh
    rw [List.nodup_append, List.nodup_append] at hnodup
    rw [List.forall_mem_append, List.forall_mem_append] at hfresh
    have htc := gives_simplifyUnder_evaluates hc False.elim hs hnodup.1.1 hfresh.1.1
    have hta := gives_simplifyUnder_evaluates ha False.elim hs hnodup.1.2.1 hfresh.1.2
    have htb := gives_simplifyUnder_evaluates hb False.elim hs hnodup.2.1 hfresh.2
    refine (htc.ensures.and (ihc hs hnodup.1.1 hfresh.1.1)).bind fun x hx => ?_
    refine (hta.ensures.and (iha hs hnodup.1.2.1 hfresh.1.2)).bind fun y hy => ?_
    refine (htb.ensures.and (ihb hs hnodup.2.1 hfresh.2)).bind fun z hz => ?_
    split
    · exact ensures_ok (settled_of_changed hy.2.canonical)
    · exact (ensures_choose_canonical hx.1.typed hy.1.typed hz.1.typed hx.2.canonical hy.2.canonical hz.2.canonical
        ‹_›).bind fun e he => ensures_ok (settled_of_changed he)
  | @bind Γ t v a b hv ha hb iha ihb =>
    rw [boundVars_bind] at hnodup hfresh
    rw [List.nodup_append, List.nodup_append] at hnodup
    rw [List.forall_mem_append, List.forall_mem_append, List.forall_mem_singleton] at hfresh
    obtain ⟨⟨hfa, hfb⟩, hB, hΔ, hkeys⟩ := hfresh
    have hne : ∀ x ∈ b.boundVars, x ≠ v.id := fun x hx =>
      hnodup.2.2 x (List.mem_append_right _ hx) v.id List.mem_cons_self
    have hta := gives_simplifyUnder_evaluates ha False.elim hs hnodup.1.1 hfa
    refine (hta.ensures.and (iha hs hnodup.1.1 hfa)).bind fun x hx => ?_
    split
    · -- A leaf is put for the variable in the body.
      refine (ihb (hs.andThen hΔ hkeys hx.1 ‹_›) hnodup.1.2.1
        fun y hy => ⟨(hfb y hy).1, (hfb y hy).2.1, fun p hp => ?_⟩).bind fun r hr =>
          ensures_ok (settled_of_changed hr.canonical)
      obtain hp | hp := List.mem_append.mp hp
      · obtain ⟨q, hq, rfl⟩ := List.mem_map.mp hp
        exact (hfb y hy).2.2 q hq
      · obtain rfl := List.mem_singleton.mp hp
        exact hne y hy
    · -- The binding stays, and the body is simplified under it.
      refine (ihb (hs.extend hΔ hkeys (a.integer σ)) hnodup.1.2.1
        fun y hy => ⟨(hfb y hy).1, ?_, (hfb y hy).2.2⟩).bind fun r hr => ensures_ok (settled_bind hx.2 hr ‹_›)
      rw [Context.extend, Function.update_of_ne (hne y hy)]
      exact (hfb y hy).2.1
  | likely hc ih =>
    rw [boundVars_likely] at hnodup hfresh
    intro r hr
    obtain ⟨p, hargs, hr⟩ := bind_eq_ok.mp hr
    obtain ⟨x, hx, hargs⟩ := bind_eq_ok.mp hargs
    cases hargs
    cases hr
    exact settled_likely (ih hs hnodup hfresh x hx)

/-- A well-typed expression is the same as itself. -/
theorem Typed.same_self (he : e.Typed Γ t) : e.same e := by
  unfold Expr.same
  induction he with
  | const hx => cases hx <;> simp [Matching.expr, Matching.identity, Number.agrees, Number.asInt?]
  | _ => simp_all [Matching.expr, Matching.exprs, Matching.ops, Matching.ordinal, Matching.identity]

/-- The canonical form of a well-typed expression in which no variable is bound twice or both free and bound is a normal
    form: it is its own canonical form, the same as itself. -/
theorem simplify_idempotent (he : e.Typed Γ t) (hnodup : e.boundVars.Nodup) (hapart : ∀ x ∈ e.boundVars, x ∉ e.freeIds) :
    ∃ e', e.simplify = .ok e' ∧ e'.simplify = .ok e' ∧ e'.same e' := by
  obtain ⟨e', hrun, hevaluates⟩ := gives_simplify_evaluates (H := False) (ρ := fun _ => 0) he False.elim hnodup hapart
  -- A binder is unknown to the context of the free variables.
  let Δ : Context := fun x => if x ∈ e.freeIds then Γ x else none
  have hΔ : e.Typed Δ t := he.mono fun x hx u hu => (if_pos hx).trans hu
  have hsettled := ensures_simplifyUnder_settled (ρ := fun _ => 0) hΔ carries_nil hnodup fun x hx =>
    ⟨hx, if_neg (hapart x hx), List.forall_mem_nil _⟩
  obtain ⟨r, hr, heq⟩ := bind_eq_ok.mp hrun
  obtain rfl := Except.ok.inj heq
  obtain ⟨changed, hagain⟩ := (hsettled r hr).canonical.fixed
  refine ⟨r.term, hrun, ?_, hevaluates.typed.same_self⟩
  rw [simplify, hagain]
  rfl

end Simplifying

namespace Sample

/-- `let w = x + y * 2 - y in select(likely(w - x < y * 2), min(w * 3 - x, w / y), (w * 4 + 8) / 4)` -/
def choice : Expr :=
  .bind w (.bin .sub (.bin .add (.var x) (.bin .mul (.var y) (int32 2))) (.var y))
    (.select (pureIntrinsic .bool "likely" [.bin .lt (.bin .sub (.var w) (.var x)) (.bin .mul (.var y) (int32 2))])
      (.bin .min (.bin .sub (.bin .mul (.var w) (int32 3)) (.var x)) (.bin .div (.var w) (.var y)))
      (.bin .div (.bin .add (.bin .mul (.var w) (int32 4)) (int32 8)) (int32 4)))

theorem choice_typed : choice.Typed (fun _ => some .int32) .int32 := by
  have hint : DataType.int32.IsIndex := ⟨rfl, rfl⟩
  have harith {Γ : Context} {op : BinOp} {a b : Expr} (hop : op.isLogical = false) (ha : a.Typed Γ .int32)
      (hb : b.Typed Γ .int32) : (bin op a b).Typed Γ .int32 := .bin (.arith hop hint) ha hb
  have hconst {Γ : Context} (n : Int) : (int32 n).Typed Γ .int32 := .const (.int hint n)
  have hvar {Γ : Context} {v : Var} (hv : Γ v.id = some v.dtype) (ht : v.dtype = .int32) : (Expr.var v).Typed Γ .int32 :=
    ht ▸ .var hv (ht ▸ hint)
  have hw : (Expr.var w).Typed (Context.extend (fun _ => some .int32) w) .int32 := hvar rfl rfl
  have hx : (Expr.var x).Typed (Context.extend (fun _ => some .int32) w) .int32 := hvar rfl rfl
  have hy : (Expr.var y).Typed (Context.extend (fun _ => some .int32) w) .int32 := hvar rfl rfl
  have hvalue : (Expr.bin .sub (.bin .add (.var x) (.bin .mul (.var y) (int32 2)))
    (.var y)).Typed (fun _ => some .int32) .int32 :=
    harith rfl (harith rfl (hvar rfl rfl) (harith rfl (hvar rfl rfl) (hconst 2))) (hvar rfl rfl)
  refine .bind hint hvalue (.select (.likely ?_) ?_ ?_)
  · exact .bin (.compare rfl) (harith rfl hw hx) (harith rfl hy (hconst 2))
  · exact harith rfl (harith rfl (harith rfl hw (hconst 3)) hx) (harith rfl hw hy)
  · exact harith rfl (harith rfl (harith rfl hw (hconst 4)) (hconst 8)) (hconst 4)

theorem choice_idempotent : ∃ e', choice.simplify = .ok e' ∧ e'.simplify = .ok e' ∧ e'.same e' :=
  simplify_idempotent choice_typed (by decide) (by decide)

end Sample

end Expr

end TensorNest

import TensorNest.Proofs.Builders

/-! # The variables of what is built

What is built from operands mentions no variables but theirs. `Expr.Within` says which variables an expression mentions:
those that are free in it, and those that are free in the combiners and the domains of axes in it, which no substitution
reaches. The builders and the simplifier keep it; that a variable is put for by a binding is told from the substitution
that the simplifier carries along (`Expr.Within.simplifyUnder`). -/

namespace TensorNest

namespace Expr

variable {S S' T T' : Nat → Prop} {t : DataType} {a b c e : Expr} {v : Var} {op : BinOp}

/-- Only some variables are free in an expression, and only some in the combiners and the domains of axes in it. -/
structure Within (S T : Nat → Prop) (e : Expr) : Prop where
  free : ∀ x ∈ e.freeIds, S x
  hidden : ∀ x ∈ e.opaqueVars, T x

theorem Within.mono (h : e.Within S T) (hS : ∀ x, S x → S' x) (hT : ∀ x, T x → T' x) : e.Within S' T' :=
  ⟨fun x hx => hS x (h.free x hx), fun x hx => hT x (h.hidden x hx)⟩

theorem within_var (hv : S v.id) : (var v).Within S T where
  free := List.forall_mem_singleton.mpr hv
  hidden := nofun

theorem within_const {n : Number} : (const n t).Within S T := ⟨nofun, nofun⟩

theorem within_bool {p : Bool} : (bool p).Within S T := within_const

theorem mem_opaqueVars_iff {x : Nat} : x ∈ e.opaqueVars ↔ x ∈ e.head.opaqueVars ∨ ∃ a ∈ e.parts, x ∈ a.opaqueVars := by
  simp only [mem_opaqueVars, mem_heads (e := e)]
  grind

/-- The variables of an expression that binds nothing are those of its parts. -/
theorem within_iff (hfree : ∀ x, x ∈ e.freeIds ↔ ∃ a ∈ e.parts, x ∈ a.freeIds) (hhead : e.head.opaqueVars = []) :
    e.Within S T ↔ ∀ a ∈ e.parts, a.Within S T := by
  have hhidden : ∀ x, x ∈ e.opaqueVars ↔ ∃ a ∈ e.parts, x ∈ a.opaqueVars := fun x => by
    rw [mem_opaqueVars_iff, hhead]
    simp
  refine ⟨fun h a ha => ⟨fun x hx => h.free x ((hfree x).mpr ⟨a, ha, hx⟩),
    fun x hx => h.hidden x ((hhidden x).mpr ⟨a, ha, hx⟩)⟩,
    fun h => ⟨fun x hx => ?_, fun x hx => ?_⟩⟩
  · obtain ⟨a, ha, hx⟩ := (hfree x).mp hx
    exact (h a ha).free x hx
  · obtain ⟨a, ha, hx⟩ := (hhidden x).mp hx
    exact (h a ha).hidden x hx

@[simp] theorem within_cast : (cast t a).Within S T ↔ a.Within S T :=
  (within_iff (by simp [freeIds, parts]) rfl).trans (by simp [parts])

@[simp] theorem within_bin : (bin op a b).Within S T ↔ a.Within S T ∧ b.Within S T :=
  (within_iff (by simp [freeIds, parts]) rfl).trans (by simp [parts])

@[simp] theorem within_not : (not a).Within S T ↔ a.Within S T :=
  (within_iff (by simp [freeIds, parts]) rfl).trans (by simp [parts])

@[simp] theorem within_select : (select c a b).Within S T ↔ c.Within S T ∧ a.Within S T ∧ b.Within S T :=
  (within_iff (by simp [freeIds, parts]) rfl).trans (by simp [parts])

@[simp] theorem within_call {name : String} {args : List Expr} {kind : CallKind} {func : Option OpRef} {i : Ordinal} :
    (call t name args kind func i).Within S T ↔ ∀ a ∈ args, a.Within S T :=
  within_iff (by simp [freeIds, parts]) rfl

@[simp] theorem within_load {buffer index : Expr} {pred : Option Expr} :
    (load t buffer index pred).Within S T ↔ buffer.Within S T ∧ index.Within S T ∧ ∀ p ∈ pred, p.Within S T :=
  (within_iff (by simp [freeIds, parts]) rfl).trans (by simp [parts])

@[simp] theorem within_ramp {lanes : Int} : (ramp a b lanes).Within S T ↔ a.Within S T ∧ b.Within S T :=
  (within_iff (by simp [freeIds, parts]) rfl).trans (by simp [parts])

@[simp] theorem within_broadcast {lanes : Int} : (broadcast a lanes).Within S T ↔ a.Within S T :=
  (within_iff (by simp [freeIds, parts]) rfl).trans (by simp [parts])

theorem within_bind : (bind v a b).Within S T ↔ a.Within S T ∧ b.Within (fun x => S x ∨ x = v.id) T := by
  have hhidden : ∀ x, x ∈ (bind v a b).opaqueVars ↔ x ∈ a.opaqueVars ∨ x ∈ b.opaqueVars := fun x => by
    rw [mem_opaqueVars_iff]
    simp [head, Head.opaqueVars, parts]
  have hfree : ∀ x, x ∈ (bind v a b).freeIds ↔ x ∈ a.freeIds ∨ x ∈ b.freeIds ∧ x ≠ v.id := fun x => by simp [freeIds]
  constructor
  · refine fun h => ⟨⟨fun x hx => h.free x ((hfree x).mpr (.inl hx)), fun x hx => h.hidden x ((hhidden x).mpr (.inl hx))⟩,
      fun x hx => or_iff_not_imp_right.mpr fun hne => h.free x ((hfree x).mpr (.inr ⟨hx, hne⟩)),
      fun x hx => h.hidden x ((hhidden x).mpr (.inr hx))⟩
  · refine fun h => ⟨fun x hx => ?_, fun x hx => ((hhidden x).mp hx).elim (h.1.hidden x) (h.2.hidden x)⟩
    obtain hx | ⟨hx, hne⟩ := (hfree x).mp hx
    · exact h.1.free x hx
    · exact (h.2.free x hx).resolve_right hne

section Reduce
variable {combiner : Reducer} {sources : List Expr} {axes : List IterVar} {cond : Option Expr} {i : Int}

theorem Within.of_reduce (h : (reduce combiner sources axes cond i).Within S T) :
    (∀ x ∈ (Head.reduce combiner axes).opaqueVars, T x) ∧
      ∀ a ∈ sources ++ cond.toList, a.Within (fun x => S x ∨ x ∈ axes.map (·.id)) T := by
  refine ⟨fun x hx => h.hidden x (mem_opaqueVars_iff.mpr (.inl hx)), fun a ha => ⟨fun x hx => ?_, fun x hx => ?_⟩⟩
  · exact or_iff_not_imp_right.mpr fun hx' => h.free x (mem_freeIds_reduce.mpr (.inr ⟨.inr ⟨a, ha, hx⟩, hx'⟩))
  · exact h.hidden x (mem_opaqueVars_iff.mpr (.inr ⟨a, ha, hx⟩))

/-- The sources and the condition of a reduction may mention the axes as well. -/
theorem within_reduce (hhead : ∀ x ∈ (Head.reduce combiner axes).opaqueVars, S x ∧ T x)
    (hparts : ∀ a ∈ sources ++ cond.toList, a.Within (fun x => S x ∨ x ∈ axes.map (·.id)) T) :
    (reduce combiner sources axes cond i).Within S T where
  free x hx := by
    have hopaque : x ∈ freeIds.ofIdentity combiner ∨ x ∈ freeIds.ofResult combiner ∨ x ∈ freeIds.ofDomains axes → S x :=
      fun hx => (hhead x (by simpa only [Head.opaqueVars, List.mem_append, or_assoc] using hx)).1
    obtain (hx | hx) | ⟨hx | ⟨a, ha, hx⟩, hne⟩ := mem_freeIds_reduce.mp hx
    · exact hopaque (.inl hx)
    · exact hopaque (.inr (.inr hx))
    · exact hopaque (.inr (.inl hx))
    · exact ((hparts a ha).free x hx).resolve_right hne
  hidden x hx := by
    obtain hx | ⟨a, ha, hx⟩ := mem_opaqueVars_iff.mp hx
    · exact (hhead x hx).2
    · exact (hparts a ha).hidden x hx

end Reduce

/-! ### Substitution -/

section Subst
variable {s : Subst}

theorem within_put (hs : ∀ p ∈ s, p.2.Within S T) (hv : S v.id ∨ ∃ p ∈ s, v.id = p.1.id) : (put s v).Within S T := by
  unfold put
  cases hfind : s.find? v with
  | none =>
    have hnot := List.find?_eq_none.mp (Option.map_eq_none_iff.mp hfind)
    refine within_var (hv.resolve_right ?_)
    rintro ⟨p, hp, hid⟩
    exact hnot p hp (beq_iff_eq.mpr hid.symm)
  | some a =>
    obtain ⟨p, hp, rfl⟩ := Option.map_eq_some_iff.mp hfind
    exact hs p (List.mem_of_find?_eq_some hp)

/-- An expression may mention the variables that are put for, as long as they do not stand in a combiner or in the
    domain of an axis. -/
theorem Within.subst (hTS : ∀ x, T x → S x) (hs : ∀ p ∈ s, p.2.Within S T)
    (he : e.Within (fun x => S x ∨ ∃ p ∈ s, x = p.1.id) T) : (e.subst s).Within S T := by
  induction e generalizing S with
  | var v => exact within_put hs (he.free _ List.mem_cons_self)
  | const => exact within_const
  | str => exact ⟨nofun, nofun⟩
  | cast t a ih => exact within_cast.mpr (ih hTS hs (within_cast.mp he))
  | bin op a b iha ihb =>
    obtain ⟨ha, hb⟩ := within_bin.mp he
    exact within_bin.mpr ⟨iha hTS hs ha, ihb hTS hs hb⟩
  | not a ih => exact within_not.mpr (ih hTS hs (within_not.mp he))
  | select c a b ihc iha ihb =>
    obtain ⟨hc, ha, hb⟩ := within_select.mp he
    exact within_select.mpr ⟨ihc hTS hs hc, iha hTS hs ha, ihb hTS hs hb⟩
  | call t name args kind func index ih =>
    rw [Expr.subst, subst_onList, within_call, List.forall_mem_map]
    exact fun a ha => ih a ha hTS hs (within_call.mp he a ha)
  | bind v a b iha ihb =>
    obtain ⟨ha, hb⟩ := within_bind.mp he
    refine within_bind.mpr ⟨iha hTS hs ha, ihb (fun y hy => .inl (hTS y hy))
      (fun p hp => (hs p hp).mono (fun _ => .inl) fun _ => id)
      (hb.mono (fun y hy => ?_) fun _ => id)⟩
    tauto
  | load t buffer index pred ihb ihi ihp =>
    obtain ⟨hb, hi, hp⟩ := within_load.mp he
    rw [Expr.subst, subst_onOption, within_load]
    refine ⟨ihb hTS hs hb, ihi hTS hs hi, fun p hmem => ?_⟩
    obtain ⟨q, hq, rfl⟩ := Option.map_eq_some_iff.mp hmem
    exact ihp q hq hTS hs (hp q hq)
  | ramp a b lanes iha ihb =>
    obtain ⟨ha, hb⟩ := within_ramp.mp he
    exact within_ramp.mpr ⟨iha hTS hs ha, ihb hTS hs hb⟩
  | broadcast a lanes ih => exact within_broadcast.mpr (ih hTS hs (within_broadcast.mp he))
  | reduce combiner sources axes cond index _ _ ihs _ ihc =>
    obtain ⟨hhead, hparts⟩ := he.of_reduce
    have hTS' : ∀ y, T y → S y ∨ y ∈ axes.map (·.id) := fun y hy => .inl (hTS y hy)
    have hs' : ∀ p ∈ s, p.2.Within (fun y => S y ∨ y ∈ axes.map (·.id)) T :=
      fun p hp => (hs p hp).mono (fun _ => .inl) fun _ => id
    have hpart {a : Expr} (ha : a ∈ sources ++ cond.toList) :
        a.Within (fun y => (S y ∨ y ∈ axes.map (·.id)) ∨ ∃ p ∈ s, y = p.1.id) T :=
      (hparts a ha).mono (fun y hy => by tauto) fun _ => id
    rw [Expr.subst, subst_onList, subst_onOption]
    refine within_reduce (fun y hy => ⟨hTS y (hhead y hy), hhead y hy⟩)
      (List.forall_mem_append.mpr ⟨List.forall_mem_map.mpr ?_, ?_⟩)
    · exact fun a ha => ihs a ha hTS' hs' (hpart (List.mem_append_left _ ha))
    · intro a ha
      obtain ⟨b, hb, rfl⟩ := Option.map_eq_some_iff.mp (Option.mem_toList.mp ha)
      exact ihc b hb hTS' hs' (hpart (List.mem_append_right _ (Option.mem_toList.mpr hb)))

end Subst

end Expr

namespace Expr

theorem within_str {S T : Nat → Prop} {text : String} : (str text).Within S T := ⟨nofun, nofun⟩

/-- What is built from operands mentions what they mention. -/
instance {S T : Nat → Prop} : Built (Within S T) where
  const := within_const
  str := within_str
  cast := within_cast.mpr
  bin ha hb := within_bin.mpr ⟨ha, hb⟩
  not := within_not.mpr
  select hc ha hb := within_select.mpr ⟨hc, ha, hb⟩
  broadcast := within_broadcast.mpr

end Expr

/-! ### Linear forms -/

namespace Linear
open Expr

variable {S T : Nat → Prop} {t : DataType} {a b e : Expr} {l : Linear}

/-- The atoms of a linear form mention what the expression mentions. -/
theorem ensures_ofExpr (he : e.Within S T) : Ensures (ofExpr e) (All (Within S T)) := by
  induction e with
  | const x u => exact ensures_trivial.bind fun n _ => ensures_ok (List.forall_mem_nil _)
  | bin op a b iha ihb =>
    obtain ⟨ha, hb⟩ := within_bin.mp he
    cases op with
    | add => exact (iha ha).bind fun l hl => (ihb hb).bind fun r hr => ensures_ok (hl.addScaled hr 1)
    | sub => exact (iha ha).bind fun l hl => (ihb hb).bind fun r hr => ensures_ok (hl.addScaled hr (-1))
    | mul =>
      unfold ofExpr
      split
      · exact (iha ha).bind fun l hl => ensures_trivial.bind fun k _ => ensures_ok (hl.scale k)
      · exact (ihb hb).bind fun l hl => ensures_trivial.bind fun k _ => ensures_ok (hl.scale k)
      · exact ensures_ok (all_atom he)
    | _ => exact ensures_ok (all_atom he)
  | _ => exact ensures_ok (all_atom he)

theorem ensures_termExpr (he : e.Within S T) (c : Int) : Ensures (termExpr t e c) (Within S T) := by
  unfold termExpr
  split
  · exact ensures_ok he
  · exact Ensures.bind (P := Within S T) built_ofNumber fun k hk => ensures_ok (within_bin.mpr ⟨he, hk⟩)

theorem ensures_sumTerms {ts : List (Expr × Int)} (hts : ∀ p ∈ ts, p.1.Within S T) {acc : Option Expr}
    (hacc : ∀ e ∈ acc, e.Within S T) : Ensures (sumTerms t acc ts) (∀ e ∈ ·, e.Within S T) := by
  induction ts generalizing acc with
  | nil => exact ensures_ok hacc
  | cons p ts ih =>
    obtain ⟨e, c⟩ := p
    obtain ⟨he, hts⟩ := List.forall_mem_cons.mp hts
    have hnext : ∀ next : Expr, next.Within S T → Ensures (sumTerms t (some next) ts) (∀ e ∈ ·, e.Within S T) :=
      fun next hn => ih hts fun e' he' => Option.some.inj he' ▸ hn
    unfold sumTerms
    split
    · exact ih hts hacc
    refine (ensures_termExpr he c).bind fun term hterm => ?_
    cases acc with
    | none =>
      simp only
      split
      · exact hnext term hterm
      · exact Ensures.bind (P := Within S T) built_ofNumber fun k hk => hnext _ (within_bin.mpr ⟨he, hk⟩)
    | some s => exact hnext _ (within_bin.mpr ⟨hacc s rfl, hterm⟩)

theorem ensures_toExpr (hl : l.All (Within S T)) : Ensures (l.toExpr t) (Within S T) := by
  have hnone : ∀ e ∈ (none : Option Expr), e.Within S T := fun _ => nofun
  unfold toExpr
  refine (ensures_sumTerms hl hnone).bind fun o ho => ?_
  cases o with
  | none => exact built_ofNumber
  | some s =>
    have hconst {op : BinOp} {n : Int} : Ensures (do return .bin op s (← Expr.ofInt n t)) (Within S T) :=
      Ensures.bind (P := Within S T) built_ofNumber fun k hk => ensures_ok (within_bin.mpr ⟨ho s rfl, hk⟩)
    simp only
    split
    · exact hconst
    split
    · exact hconst
    · exact ensures_ok (ho s rfl)

end Linear

/-! ### Simplification -/

namespace Expr

variable {S T : Nat → Prop} {t : DataType} {a b e : Expr} {op : BinOp} {s : Subst}

theorem ensures_divMod? (ha : a.Within S T) : Ensures (divMod? op a b) (∀ e ∈ ·, e.Within S T) := by
  have hsome {x : Except Error Expr} (hx : Ensures x (Within S T)) :
      Ensures (do return some (← x)) (∀ e ∈ ·, e.Within S T) :=
    hx.bind fun e he => ensures_ok fun e' he' => Option.some.inj he' ▸ he
  have hnone : Ensures (.ok none) (∀ e ∈ ·, Within S T e) := ensures_ok fun _ => nofun
  unfold divMod?
  split
  · split
    · exact hnone
    refine ensures_trivial.bind fun d _ => ?_
    split
    · split
      · exact hsome (ensures_ok ha)
      · exact hsome built_ofNumber
    refine (Linear.ensures_ofExpr ha).bind fun l hl => ?_
    split
    · exact hnone
    split
    · exact hsome built_ofNumber
    · exact hsome (Linear.ensures_toExpr (hl.quotient d))
  · exact hnone

theorem ensures_binRule? (ha : a.Within S T) (hb : b.Within S T) : Ensures (binRule? op t a b) (∀ e ∈ ·, e.Within S T) := by
  have hnone : Ensures (.ok none) (∀ e ∈ ·, Within S T e) := ensures_ok fun _ => nofun
  have hsome {e : Expr} (he : e.Within S T) : Ensures (.ok (some e)) (∀ e ∈ ·, e.Within S T) :=
    ensures_ok fun e' he' => Option.some.inj he' ▸ he
  have hlinear : Ensures (do return some (← (← Linear.ofExpr (.bin op a b)).toExpr t)) (∀ e ∈ ·, e.Within S T) :=
    (Linear.ensures_ofExpr (within_bin.mpr ⟨ha, hb⟩)).bind fun l hl => (Linear.ensures_toExpr hl).bind fun e he => hsome he
  unfold binRule?
  cases op with
  | add | sub | mul => 
    dsimp only
    split
    · exact hlinear
    · exact hnone
  | div | mod =>
    dsimp only
    split
    · exact ensures_divMod? ha
    · exact hnone
  | min | max =>
    refine ensures_trivial.bind fun d _ => ?_
    split
    · exact hsome (by split <;> split <;> assumption)
    · refine ensures_ok ?_
      split
      · exact fun e' he' => Option.some.inj he' ▸ ha
      · exact fun _ => nofun
  | and | or => exact hnone
  | _ =>
    refine ensures_trivial.bind fun d _ => ?_
    split
    · exact hsome within_bool
    · exact hnone

theorem ensures_simplifyBin {x y : Revised Expr} (hx : x.term.Within S T) (hy : y.term.Within S T) :
    Ensures (simplifyBin op t x y) (·.term.Within S T) := by
  refine (ensures_binRule? hx hy).bind fun o ho => ?_
  split
  · exact ensures_ok (ho _ rfl)
  · split
    · exact ensures_ok (within_bin.mpr ⟨hx, hy⟩)
    · exact (built_binary (x := .expr _) (y := .expr _) hx hy).bind fun e he => ensures_ok he

theorem Within.simplifyCall (h : e.Within S T) (changed : Bool) : (simplifyCall e changed).term.Within S T := by
  unfold Expr.simplifyCall
  split
  · exact within_const
  · exact h

/-- What a substitution puts are leaves that mention only some variables. -/
def Leaves (S T : Nat → Prop) (s : Subst) : Prop :=
  ∀ p ∈ s, p.2.isLeaf ∧ p.2.Within S T

theorem Leaves.mono {S' : Nat → Prop} (hs : Leaves S T s) (hS : ∀ x, S x → S' x) : Leaves S' T s := fun p hp =>
  ⟨(hs p hp).1, (hs p hp).2.mono hS fun _ => id⟩

/-- The substitution of a variable by a leaf is added. -/
theorem Leaves.andThen {v : Var} (hs : Leaves S T s) (hleaf : a.isLeaf) (ha : a.Within S T) :
    Leaves S T (andThen s v a) := by
  refine List.forall_mem_append.mpr ⟨List.forall_mem_map.mpr fun p hp => ?_, List.forall_mem_singleton.mpr ⟨hleaf, ha⟩⟩
  obtain ⟨hp, hwithin⟩ := hs p hp
  dsimp only
  generalize p.2 = e at hp hwithin
  cases e with
  | const => exact ⟨rfl, within_const⟩
  | var w =>
    have hv : Leaves S T [(v, a)] := List.forall_mem_singleton.mpr ⟨hleaf, ha⟩
    refine ⟨?_, within_put (fun q hq => (hv q hq).2) (.inl (hwithin.free _ List.mem_cons_self))⟩
    show ((Subst.find? [(v, a)] w).getD (var w)).isLeaf
    cases hfind : Subst.find? [(v, a)] w with
    | none => rfl
    | some b =>
      obtain ⟨q, hq, rfl⟩ := Option.map_eq_some_iff.mp hfind
      exact (hv q (List.mem_of_find?_eq_some hq)).1
  | _ => cases hp

theorem ensures_simplifyAll {es : List Expr} (h : ∀ a ∈ es, Ensures (a.simplifyUnder s) (·.term.Within S T)) :
    Ensures (simplifyUnder.onList s es) (∀ a ∈ ·.1, a.Within S T) := by
  induction es with
  | nil => exact ensures_ok (List.forall_mem_nil _)
  | cons e es ih =>
    obtain ⟨he, hes⟩ := List.forall_mem_cons.mp h
    exact he.bind fun r hr => (ih hes).bind fun rs hrs => ensures_ok (List.forall_mem_cons.mpr ⟨hr, hrs⟩)

theorem ensures_simplifyIfAny {o : Option Expr} (h : ∀ a ∈ o, Ensures (a.simplifyUnder s) (·.term.Within S T)) :
    Ensures (simplifyUnder.onOption s o) (∀ a ∈ ·.1, a.Within S T) := by
  cases o with
  | none => exact ensures_ok fun _ => nofun
  | some e => exact (h e rfl).bind fun r hr => ensures_ok fun a ha => Option.some.inj ha ▸ hr

/-- Simplification under a substitution of leaves: the expression may mention the variables that are put for, as long as
    they do not stand in a combiner or in the domain of an axis. -/
theorem Within.simplifyUnder (hTS : ∀ x, T x → S x) (hs : Leaves S T s)
    (he : e.Within (fun x => S x ∨ ∃ p ∈ s, x = p.1.id) T) :
    Ensures (e.simplifyUnder s) (·.term.Within S T) := by
  induction e generalizing S s with
  | var v => exact ensures_ok (within_put (fun p hp => (hs p hp).2) (he.free _ List.mem_cons_self))
  | const => exact ensures_ok within_const
  | str => exact ensures_ok within_str
  | cast t a ih => exact (ih hTS hs (within_cast.mp he)).bind fun r hr => (built_castTo hr).bind fun e he => ensures_ok he
  | bin op a b iha ihb =>
    obtain ⟨ha, hb⟩ := within_bin.mp he
    exact (iha hTS hs ha).bind fun x hx => (ihb hTS hs hb).bind fun y hy => ensures_simplifyBin hx hy
  | not a ih =>
    exact (ih hTS hs (within_not.mp he)).bind fun r hr => (built_logicalNot (x := .expr _) hr).bind fun e he =>
      ensures_ok he
  | select c a b ihc iha ihb =>
    obtain ⟨hc, ha, hb⟩ := within_select.mp he
    refine (ihc hTS hs hc).bind fun x hx => (iha hTS hs ha).bind fun y hy => (ihb hTS hs hb).bind fun z hz => ?_
    split
    · exact ensures_ok hy
    · exact (built_choose (x := .expr _) (y := .expr _) (z := .expr _) hx hy hz).bind fun e he => ensures_ok he
  | call t name args kind func index ih =>
    refine (ensures_simplifyAll fun a ha => ih a ha hTS hs (within_call.mp he a ha)).bind ?_
    rintro ⟨args', changed⟩ hargs
    exact ensures_ok (Within.simplifyCall (within_call.mpr hargs) changed)
  | bind v a b iha ihb =>
    obtain ⟨ha, hb⟩ := within_bind.mp he
    refine (iha hTS hs ha).bind fun x hx => ?_
    split
    · -- The variable is put for, so that the body may mention it.
      refine (ihb hTS (hs.andThen ‹_› hx) (hb.mono ?_ fun _ => id)).bind fun r hr => ensures_ok hr
      rintro y ((hy | ⟨p, hp, rfl⟩) | rfl)
      · exact .inl hy
      · exact .inr ⟨_, List.mem_append_left _ (List.mem_map_of_mem hp), rfl⟩
      · exact .inr ⟨_, List.mem_append_right _ List.mem_cons_self, rfl⟩
    · refine (ihb (S := fun y => S y ∨ y = v.id) (fun y hy => .inl (hTS y hy)) (hs.mono fun _ => .inl)
        (hb.mono ?_ fun _ => id)).bind fun r hr => ensures_ok (within_bind.mpr ⟨hx, hr⟩)
      rintro y ((hy | hy) | hy)
      · exact .inl (.inl hy)
      · exact .inr hy
      · exact .inl (.inr hy)
  | load t buffer index pred ihb ihi ihp =>
    obtain ⟨hb, hi, hp⟩ := within_load.mp he
    refine (ihb hTS hs hb).bind fun x hx => (ihi hTS hs hi).bind fun y hy => ?_
    refine (ensures_simplifyIfAny fun p hmem => ihp p hmem hTS hs (hp p hmem)).bind fun o ho => ensures_ok ?_
    exact within_load.mpr ⟨hx, hy, ho⟩
  | ramp a b lanes iha ihb =>
    obtain ⟨ha, hb⟩ := within_ramp.mp he
    exact (iha hTS hs ha).bind fun x hx => (ihb hTS hs hb).bind fun y hy => ensures_ok (within_ramp.mpr ⟨hx, hy⟩)
  | broadcast a lanes ih =>
    exact (ih hTS hs (within_broadcast.mp he)).bind fun r hr => ensures_ok (within_broadcast.mpr hr)
  | reduce combiner sources axes cond index _ _ ihs _ ihc =>
    obtain ⟨hhead, hparts⟩ := he.of_reduce
    -- The axes are bound in the sources and in the condition.
    have hTS' : ∀ y, T y → S y ∨ y ∈ axes.map (·.id) := fun y hy => .inl (hTS y hy)
    have hs' : Leaves (fun y => S y ∨ y ∈ axes.map (·.id)) T s := hs.mono fun _ => .inl
    have hpart {a : Expr} (ha : a ∈ sources ++ cond.toList) :
        a.Within (fun y => (S y ∨ y ∈ axes.map (·.id)) ∨ ∃ p ∈ s, y = p.1.id) T :=
      (hparts a ha).mono (fun y hy => by tauto) fun _ => id
    refine (ensures_simplifyAll fun a ha => ihs a ha hTS' hs' (hpart (List.mem_append_left _ ha))).bind fun rs hrs => ?_
    refine (ensures_simplifyIfAny fun a ha =>
      ihc a ha hTS' hs' (hpart (List.mem_append_right _ (Option.mem_toList.mpr ha)))).bind
      fun o ho => ensures_ok (within_reduce (fun y hy => ⟨hTS y (hhead y hy), hhead y hy⟩) ?_)
    exact List.forall_mem_append.mpr ⟨hrs, fun a ha => ho a (Option.mem_toList.mp ha)⟩

/-- What simplification gives mentions no variable that the expression does not mention. -/
theorem Within.simplify (hTS : ∀ x, T x → S x) (he : e.Within S T) : Ensures e.simplify (Within S T) :=
  (he.mono (fun _ => .inl) fun _ => id).simplifyUnder hTS (List.forall_mem_nil _) |>.bind fun _ hr => ensures_ok hr

end Expr

end TensorNest

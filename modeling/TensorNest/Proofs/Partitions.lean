import TensorNest.Proofs.Nests
import TensorNest.Proofs.Regions
import TensorNest.Proofs.Renaming
import TensorNest.Proofs.TreeVariables

/-! # Partitioned loops and their scopes

A statement with partitioned loops is put together from the parts of the statement, a loop with guards from two loops
(`Stmt.partition_induct`). The bodies of the first loops are copies in which a new variable is put for that of the loop,
so that the conditions in the result are those of the statement, renamed. The bounds of the two loops are made of the
split points of the guards in the body: as long as none of these mentions a variable that is bound in the body, the
result depends on no variable that the statement does not depend on (`Stmt.freeIds_partition`). -/

namespace TensorNest

/-! ### Rebuilding statements by their bodies -/

namespace Stmt

/-- The condition of a branch. -/
@[simp] def condition? : Stmt → Option Expr
  | branch cond _ _ => some cond
  | _ => none

/-- A statement with other bodies. -/
def withBodies : Stmt → List Stmt → Stmt
  | bind v e _, [b] => bind v e b
  | attr subject key e _, [b] => attr subject key e b
  | assert cond message _, [b] => assert cond message b
  | loop v min extent kind _, [b] => loop v min extent kind b
  | allocate site v t extents cond _, [b] => allocate site v t extents cond b
  | realize op output t bounds cond _, [b] => realize op output t bounds cond b
  | seq _, bs => seq bs
  | branch cond _ none, [b] => branch cond b none
  | branch cond _ (some _), [b, b'] => branch cond b (some b')
  | s, _ => s

section Bodies
variable {s : Stmt} {bs : List Stmt} {P : Stmt → Stmt → Prop}

/-- A statement whose bodies are replaced by related ones is of the same kind, with the same expressions and the same
    binder. -/
theorem withBodies_cases (h : List.Forall₂ P s.bodies bs) : (s.withBodies bs).bodies = bs ∧
    (s.withBodies bs).exprParts = s.exprParts ∧ (s.withBodies bs).binder? = s.binder? ∧
      (s.withBodies bs).condition? = s.condition? := by
  cases s with
  | seq ss => exact ⟨rfl, rfl, rfl, rfl⟩
  | branch cond onTrue onFalse =>
    cases onFalse with
    | none =>
      cases h with | cons _ h
      cases h
      exact ⟨rfl, rfl, rfl, rfl⟩
    | some onFalse =>
      cases h with | cons _ h
      cases h with | cons _ h
      cases h
      exact ⟨rfl, rfl, rfl, rfl⟩
  | attr subject key e body =>
    cases h with | cons _ h
    cases h
    cases subject <;> exact ⟨rfl, rfl, rfl, rfl⟩
  | store | provide | prefetch | eval =>
    cases h
    exact ⟨rfl, rfl, rfl, rfl⟩
  | _ =>
    cases h with | cons _ h
    cases h
    exact ⟨rfl, rfl, rfl, rfl⟩

theorem bodies_withBodies (h : List.Forall₂ P s.bodies bs) : (s.withBodies bs).bodies = bs := (withBodies_cases h).1

theorem exprParts_withBodies (h : List.Forall₂ P s.bodies bs) : (s.withBodies bs).exprParts = s.exprParts :=
    (withBodies_cases h).2.1

theorem binder?_withBodies (h : List.Forall₂ P s.bodies bs) : (s.withBodies bs).binder? = s.binder? :=
    (withBodies_cases h).2.2.1

theorem condition?_withBodies (h : List.Forall₂ P s.bodies bs) : (s.withBodies bs).condition? = s.condition? :=
    (withBodies_cases h).2.2.2

/-- A statement of which only the statements are rebuilt is rebuilt from its bodies. -/
theorem rebuildM_eq {m : Type → Type} [Monad m] [LawfulMonad m] (g : Stmt → m Stmt) (s : Stmt) :
    s.rebuildM pure g = s.bodies.mapM (rebuildM pure g) >>= fun bs => g (s.withBodies bs) := by
  have hlist : ∀ ss : List Stmt, rebuildM.onList pure g ss = ss.mapM (rebuildM pure g) := by
    intro ss
    induction ss with
    | nil => rfl
    | cons s ss ih => rw [rebuildM.onList, ih, List.mapM_cons]
  have hpure {α : Type} (l : List α) : l.mapM (pure : α → m α) = pure l := by
    induction l with
    | nil => rfl
    | cons a l ih => simp [List.mapM_cons, ih]
  have hrange : (mapRangeM pure : Range → m Range) = pure := by
    funext r
    cases r
    simp [mapRangeM]
  cases s with
  | branch cond onTrue onFalse => cases onFalse <;> simp [rebuildM, withBodies]
  | store buffer value index pred => cases pred <;> simp [rebuildM, withBodies, mapGuardM]
  | seq ss => simp [rebuildM, withBodies, hlist]
  | _ => simp [rebuildM, withBodies, hrange, hpure]

end Bodies

end Stmt

theorem exists_of_forall₂ {α β : Type} {R : α → β → Prop} {l : List α} {l' : List β} (h : List.Forall₂ R l l') :
    ∀ b ∈ l', ∃ a ∈ l, R a b := by
  induction h with
  | nil => exact List.forall_mem_nil _
  | cons hb _ ih =>
    refine List.forall_mem_cons.mpr ⟨⟨_, List.mem_cons_self, hb⟩, fun b hb => ?_⟩
    obtain ⟨a, hmem, hab⟩ := ih b hb
    exact ⟨a, List.mem_cons_of_mem _ hmem, hab⟩

/-- What holds of each item of a list and what a computation makes of it, holds of all of them. -/
theorem forall₂_of_mapM {ε α β : Type} {f : α → Except ε β} {l : List α} {ys : List β} {P : α → β → Prop}
    (step : ∀ a ∈ l, ∀ b, f a = .ok b → P a b) (h : l.mapM f = .ok ys) : List.Forall₂ P l ys := by
  induction l generalizing ys with
  | nil =>
    cases h
    exact .nil
  | cons a l ih =>
    obtain ⟨hstep, hrest⟩ := List.forall_mem_cons.mp step
    rw [List.mapM_cons] at h
    obtain ⟨b, hb, h⟩ := bind_eq_ok.mp h
    obtain ⟨bs, hbs, h⟩ := bind_eq_ok.mp h
    cases h
    exact .cons (hstep b hb) (ih hrest hbs)

/-- What holds of each item of a list and what a computation makes of it, and goes on to hold when more numbers are
    given away, holds of all of them in the end. -/
theorem Build.yields_mapM {α β : Type} {f : α → Build β} {l : List α} {ys : List β} {g g' : Graph} {P : Nat → α → β → Prop}
    (mono : ∀ {m n a b}, m ≤ n → P m a b → P n a b)
    (step : ∀ a ∈ l, ∀ {h b h'}, g.next ≤ h.next → (f a).Yields h b h' → h.next ≤ h'.next ∧ P h'.next a b)
    (h : (l.mapM f).Yields g ys g') : g.next ≤ g'.next ∧ List.Forall₂ (P g'.next) l ys := by
  induction l generalizing g ys with
  | nil =>
    obtain ⟨rfl, rfl⟩ := yields_pure.mp h
    exact ⟨Nat.le_refl _, .nil⟩
  | cons a l ih =>
    obtain ⟨hstep, hrest⟩ := List.forall_mem_cons.mp step
    simp only [List.mapM_cons, yields_bind, yields_pure] at h
    obtain ⟨b, g₁, hb, bs, g₂, hbs, rfl, rfl⟩ := h
    obtain ⟨hle, hP⟩ := hstep (Nat.le_refl _) hb
    obtain ⟨hle', hall⟩ := ih (fun a ha {_ _ _} hle' hrun => hrest a ha (hle.trans hle') hrun) hbs
    exact ⟨hle.trans hle', .cons (mono hle' hP) hall⟩

namespace Stmt

/-! ### The cases of partitioning -/

/-- The bounds of the two loops that a loop is split into: where it is split and the numbers of iterations before and
    after. -/
def splitBounds (min extent : Expr) (points : List Expr) : Except Error (Expr × Expr × Expr) := do
  let point ← points.tail.foldlM (fun (p q : Expr) => Expr.minimum p q) (points.headD min)
  let stop ← Expr.add min extent
  let point ← (← Expr.maximum min (← Expr.minimum point stop)).simplify
  let first ← (← Expr.sub point min).simplify
  let rest ← (← Expr.sub stop point).simplify
  return (point, first, rest)

/-- The variable of number `k` that takes the place of a variable. -/
def replacement (v : Var) (k : Nat) : Renaming := ⟨v, ⟨k, v.name, v.dtype⟩, rfl, rfl⟩

/-- A loop without guards up to a point, over a new variable, and the loop from there on. -/
def splitAt (v : Var) (k : Nat) (min : Expr) (bounds : Expr × Expr × Expr) (kind : LoopKind) (unguarded body : Stmt) :
    Stmt :=
  seq [loop (replacement v k).new min bounds.2.1 kind (unguarded.subst [(v, .var (replacement v k).new)]),
    loop v bounds.1 bounds.2.2 kind body]

variable {s s' body : Stmt} {v : Var} {min extent : Expr} {kind : LoopKind} {points : List Expr} {g g' : Graph}
  {constLoops : Bool}

theorem yields_splitLoop (h : (splitLoop v min extent kind body points).Yields g s' g') : ∃ bounds unguarded,
    splitBounds min extent points = .ok bounds ∧ body.withoutGuards v = .ok unguarded ∧ g'.next = g.next + 1 ∧
      s' = splitAt v g.next min bounds kind unguarded body := by
  simp only [splitLoop, Build.yields_bind, Build.yields_foldlM_lift, Build.yields_liftExcept, yields_freshVar,
    Build.yields_pure] at h
  obtain ⟨p, _, ⟨hpoint, rfl⟩, stop, _, ⟨hstop, rfl⟩, lower, _, ⟨hlower, rfl⟩, raised, _, ⟨hraised, rfl⟩, point, _,
    ⟨hclamped, rfl⟩,
    unguarded, _, ⟨hunguarded, rfl⟩, _, _, ⟨rfl, rfl⟩, d, _, ⟨hd, rfl⟩, first, _, ⟨hfirst, rfl⟩, d', _, ⟨hd', rfl⟩, rest, _,
    ⟨hrest, rfl⟩, rfl, rfl⟩ := h
  refine ⟨(point, first, rest), unguarded, ?_, hunguarded, rfl, rfl⟩
  simp only [splitBounds, hpoint, hstop, hlower, hraised, hclamped, hd, hfirst, hd', hrest, Bind.bind, Except.bind]
  rfl

/-- A property of a statement and of what partitioning makes of it holds if it holds for each statement that keeps its
    kind once it holds for the bodies, and for a loop that is split once it holds for the body. The numbers below `n`
    are given away then, and those below `N` were before. -/
theorem partition_induct {N : Nat} {P : Nat → Stmt → Stmt → Prop}
    (mono : ∀ {m n : Nat} {s s' : Stmt}, m ≤ n → P m s s' → P n s s')
    (kept : ∀ {n : Nat} {s : Stmt} {bs : List Stmt}, List.Forall₂ (P n) s.bodies bs → P n s (s.withBodies bs))
    (split : ∀ {k : Nat} {v : Var} {min extent : Expr} {kind : LoopKind} {body body' unguarded : Stmt} {points : List Expr}
      {bounds : Expr × Expr × Expr}, N ≤ k → P k body body' → (extent.isConst = true → constLoops = true) →
      body'.splitPoints v = .ok points → points ≠ [] → splitBounds min extent points = .ok bounds →
      body'.withoutGuards v = .ok unguarded → P (k + 1) (loop v min extent kind body)
        (splitAt v k min bounds kind unguarded body'))
    (hN : N ≤ g.next) (hrun : (s.partition constLoops).Yields g s' g') : g.next ≤ g'.next ∧ P g'.next s s' := by
  induction s using induct_bodies generalizing g s' g' with
  | step s ih =>
    unfold partition at hrun
    rw [rebuildM_eq] at hrun
    obtain ⟨bs, g₁, hbs, hlast⟩ := Build.yields_bind.mp hrun
    obtain ⟨hle, hbodies⟩ := Build.yields_mapM (P := P) mono (fun b hb {_ _ _} hle hrun => ih b hb (hN.trans hle) hrun) hbs
    have hkept := kept hbodies
    cases s with
    | loop v min extent kind body =>
      cases hbodies with | @cons _ body' _ _ hbody hnil
      cases hnil
      simp only [withBodies] at hlast
      split at hlast
      · obtain ⟨rfl, rfl⟩ := Build.yields_pure.mp hlast
        exact ⟨hle, hkept⟩
      · next hsplits =>
        obtain ⟨points, _, hyields, hlast⟩ := Build.yields_bind.mp hlast
        obtain ⟨hpoints, rfl⟩ := Build.yields_liftExcept.mp hyields
        split at hlast
        · obtain ⟨rfl, rfl⟩ := Build.yields_pure.mp hlast
          exact ⟨hle, hkept⟩
        · next hne =>
          obtain ⟨bounds, unguarded, hbounds, hunguarded, hnext, rfl⟩ := yields_splitLoop hlast
          rw [hnext]
          refine ⟨by omega, split (hN.trans hle) hbody (fun hconst => ?_) hpoints hne hbounds hunguarded⟩
          simpa [hconst] using hsplits
    | seq ss =>
      obtain ⟨rfl, rfl⟩ := Build.yields_pure.mp hlast
      exact ⟨hle, hkept⟩
    | branch cond onTrue onFalse =>
      cases hbodies with | cons _ hbodies
      cases onFalse with
      | none =>
        cases hbodies
        obtain ⟨rfl, rfl⟩ := Build.yields_pure.mp hlast
        exact ⟨hle, hkept⟩
      | some onFalse =>
        cases hbodies with | cons _ hbodies
        cases hbodies
        obtain ⟨rfl, rfl⟩ := Build.yields_pure.mp hlast
        exact ⟨hle, hkept⟩
    | store | provide | prefetch | eval =>
      cases hbodies
      obtain ⟨rfl, rfl⟩ := Build.yields_pure.mp hlast
      exact ⟨hle, hkept⟩
    | _ =>
      cases hbodies with | cons _ hbodies
      cases hbodies
      obtain ⟨rfl, rfl⟩ := Build.yields_pure.mp hlast
      exact ⟨hle, hkept⟩

end Stmt

/-! ### Conditions -/

namespace Expr

variable {S T : Nat → Prop} {e cond : Expr} {v : Var} {x : Nat}

/-- A free variable that does not stand in a combiner or in the domain of an axis is used. -/
theorem uses_of_mem_freeIds (hx : x ∈ e.freeIds) : x ∈ e.opaqueVars ∨ ∃ w ∈ e.vars, w.id = x := by
  induction e using induct_parts with
  | step e ih =>
    by_cases hvar : ∃ w, e = var w
    · obtain ⟨w, rfl⟩ := hvar
      exact .inr ⟨w, mem_vars_iff.mpr (.inr rfl), (List.mem_singleton.mp hx).symm⟩
    · obtain hx | hx := Occurrences.parts_of_mem_freeIds (fun w heq => hvar ⟨w, heq⟩) hx
      · obtain ⟨a, ha, hx⟩ := List.mem_flatMap.mp hx
        obtain hx | ⟨w, hw, heq⟩ := ih a ha hx
        · exact .inl (opaqueVars_subset ha hx)
        · exact .inr ⟨w, mem_vars_iff.mpr (.inl ⟨a, ha, hw⟩), heq⟩
      · exact .inl (opaqueVars_head hx)

/-- A variable that is used is free or bound. -/
theorem mem_freeIds_or_boundVars (hv : v ∈ e.vars) : v.id ∈ e.freeIds ∨ v.id ∈ e.boundVars := by
  induction e using induct_parts with
  | step e ih =>
    obtain ⟨a, ha, hv⟩ | rfl := mem_vars_iff.mp hv
    · obtain hfree | hbound := ih a ha hv
      · by_cases hbinder : v.id ∈ e.head.binders
        · exact .inr (mem_boundVars.mpr ⟨_, head_mem_heads e, hbinder⟩)
        · exact .inl (Occurrences.mem_freeIds_of_part ha hfree hbinder)
      · exact .inr (boundVars_subset ha hbound)
    · exact .inl List.mem_cons_self

/-- Terms that vanish add nothing to a sum. -/
theorem sumTerms_filter (t : DataType) (acc : Option Expr) (ts : List (Expr × Int)) :
    Linear.sumTerms t acc (ts.filter (·.2 != 0)) = Linear.sumTerms t acc ts := by
  induction ts generalizing acc with
  | nil => rfl
  | cons p ts ih =>
    obtain ⟨e, c⟩ := p
    by_cases hc : c = 0
    · rw [List.filter_cons_of_neg (by simp [hc]), ih, Linear.sumTerms, if_pos hc]
    · rw [List.filter_cons_of_pos (by simp [hc]), Linear.sumTerms, Linear.sumTerms, if_neg hc, if_neg hc]
      simp only [ih]

theorem ensures_neg {x : Operand} (hx : x.Has (Expr.Within S T)) : Ensures (neg x) (Within S T) :=
  (built_convert hx).bind fun a ha => Ensures.bind (P := Within S T) built_ofNumber fun z hz =>
    built_arith (x := .expr z) (y := .expr a) hz ha

/-- What is left of an expression that is linear in a variable does not mention the variable. -/
theorem Within.linearIn? (hTS : ∀ x, T x → x ≠ v.id) (he : e.Within S T) :
    Ensures (e.linearIn? (some (var v))) (∀ p ∈ ·, p.2.Within (fun x => S x ∧ x ≠ v.id) T) := by
  unfold Expr.linearIn?
  refine (Linear.ensures_ofExpr he).bind fun l hl => ?_
  dsimp only
  split
  · exact ensures_ok nofun
  · next hlive =>
    refine Ensures.bind (P := Within (fun x => S x ∧ x ≠ v.id) T) ?_ fun rest hrest => ensures_ok fun p hp => ?_
    · rw [Linear.toExpr, ← sumTerms_filter]
      refine Linear.ensures_toExpr (l := ⟨_, l.const⟩) fun p hp => ?_
      have hmem := List.mem_of_mem_filter (List.mem_of_mem_filter hp)
      refine ⟨fun x hx => ⟨(hl p hmem).free x hx, ?_⟩, (hl p hmem).hidden⟩
      rintro rfl
      obtain hhidden | ⟨w, hw, heq⟩ := uses_of_mem_freeIds hx
      · exact hTS _ ((hl p hmem).hidden _ hhidden) rfl
      · refine hlive (List.any_eq_true.mpr ⟨p.1, List.mem_map_of_mem hp, ?_⟩)
        exact List.any_eq_true.mpr ⟨w, hw, by simp [heq]⟩
    · obtain rfl := Option.some.inj hp
      exact hrest

/-- A split point mentions what the condition mentions, but not the variable itself. -/
theorem Within.splitPoint? (hTS : ∀ x, T x → S x ∧ x ≠ v.id) (hcond : cond.Within S T) :
    Ensures (cond.splitPoint? v) (∀ p ∈ ·, p.Within (fun x => S x ∧ x ≠ v.id) T) := by
  have hnone : Ensures (.ok none) (∀ p ∈ ·, Expr.Within (fun x => S x ∧ x ≠ v.id) T p) := ensures_ok nofun
  unfold Expr.splitPoint?
  split
  · exact hnone
  split
  · next _ _ a b _ _ _ _ _ =>
    obtain ⟨ha, hb⟩ := within_bin.mp (within_call.mp hcond _ List.mem_cons_self)
    refine (built_arith (x := .expr a) (y := .expr b) ha hb).bind fun d hd =>
      (hd.simplify fun x hx => (hTS x hx).1).bind fun e he => ?_
    refine (he.linearIn? fun x hx => (hTS x hx).2).bind fun o ho => ?_
    split
    · next rest =>
      refine (ensures_neg (x := .expr rest) (ho _ rfl)).bind fun e he => (he.simplify hTS).bind fun p hp =>
        ensures_ok fun q hq => ?_
      obtain rfl := Option.some.inj hq
      exact hp
    · exact hnone
  · exact hnone

end Expr

namespace Stmt

section Conditions
variable {s s' : Stmt} {c : Expr} {v : Var} {σ : Subst} {x : Nat} {points : List Expr}

/-- The conditions of the branches in a statement. -/
def conditions (s : Stmt) : List Expr :=
  s.stmts.filterMap condition?

theorem mem_conditions : c ∈ s.conditions ↔ (∃ b ∈ s.bodies, c ∈ b.conditions) ∨ s.condition? = some c := by
  simp only [conditions, List.mem_filterMap]
  rw [stmts_eq]
  simp only [List.mem_append, List.mem_flatMap, List.mem_singleton]
  grind

theorem mem_conditions_loop {min extent : Expr} {kind : LoopKind} {body : Stmt} :
    c ∈ (loop v min extent kind body).conditions ↔ c ∈ body.conditions := by
  rw [mem_conditions]
  simp

theorem mem_conditions_seq {ss : List Stmt} : c ∈ (seq ss).conditions ↔ ∃ s ∈ ss, c ∈ s.conditions := by
  rw [mem_conditions]
  simp

theorem mem_opaqueIds_loop {min extent : Expr} {kind : LoopKind} {body : Stmt} :
    x ∈ (loop v min extent kind body).opaqueIds ↔ x ∈ body.opaqueIds ∨ x ∈ min.opaqueVars ∨ x ∈ extent.opaqueVars := by
  rw [mem_opaqueIds]
  simp

theorem mem_opaqueIds_seq {ss : List Stmt} : x ∈ (seq ss).opaqueIds ↔ ∃ s ∈ ss, x ∈ s.opaqueIds := by
  rw [mem_opaqueIds]
  simp

theorem mem_exprParts_of_condition? (h : s.condition? = some c) : c ∈ s.exprParts := by
  cases s with
  | branch cond => exact Option.some.inj h ▸ List.mem_cons_self
  | _ => exact nomatch h

theorem mem_opaqueIds_of_mem_conditions (hc : c ∈ s.conditions) (hx : x ∈ c.opaqueVars) : x ∈ s.opaqueIds := by
  obtain ⟨t, ht, hc⟩ := List.mem_filterMap.mp hc
  exact List.mem_flatMap.mpr ⟨t, ht, List.mem_flatMap.mpr ⟨c, mem_exprParts_of_condition? hc, hx⟩⟩

theorem mem_boundIds_of_mem_conditions (hc : c ∈ s.conditions) (hx : x ∈ c.boundVars) : x ∈ s.boundIds := by
  obtain ⟨t, ht, hc⟩ := List.mem_filterMap.mp hc
  exact List.mem_flatMap.mpr ⟨t, ht, List.mem_append_right _ (List.mem_flatMap.mpr ⟨c, mem_exprParts_of_condition? hc, hx⟩)⟩

/-- A variable that is free in a condition and that no statement binds is free. -/
theorem mem_freeIds_of_mem_conditions (hc : c ∈ s.conditions) (hx : x ∈ c.freeIds) (hnot : x ∉ s.binders) :
    x ∈ s.freeIds := by
  induction s using induct_bodies with
  | step s ih =>
    obtain ⟨b, hb, hc⟩ | hc := mem_conditions.mp hc
    · have hfree := ih b hb hc fun hmem => hnot (mem_binders.mpr (.inl ⟨b, hb, hmem⟩))
      exact mem_freeIds.mpr (.inr ⟨⟨b, hb, hfree⟩, fun v hv heq => hnot (mem_binders.mpr (.inr ⟨v, hv, heq.symm⟩))⟩)
    · exact mem_freeIds.mpr (.inl ⟨c, mem_exprParts_of_condition? hc, hx⟩)

/-- A free variable of a combiner or of the domain of an axis that is not bound is free. -/
theorem mem_freeIds_of_mem_opaqueIds (hx : x ∈ s.opaqueIds) (hnot : x ∉ s.boundIds) : x ∈ s.freeIds := by
  have hexpr : ∀ {e : Expr}, x ∈ e.opaqueVars → x ∉ e.boundVars → x ∈ e.freeIds := by
    intro e
    induction e using Expr.induct_parts with
    | step e ih =>
      intro hhidden hbound
      obtain hhidden | ⟨a, ha, hhidden⟩ := Expr.mem_opaqueVars_iff.mp hhidden
      · cases e with
        | reduce combiner sources axes cond i =>
          refine Expr.mem_freeIds_reduce.mpr ?_
          simp only [Expr.head, Expr.Head.opaqueVars, List.mem_append] at hhidden
          have haxes : x ∉ axes.map (·.id) := fun hmem => hbound (Expr.mem_boundVars.mpr ⟨_, Expr.head_mem_heads _, hmem⟩)
          tauto
        | _ => exact absurd hhidden List.not_mem_nil
      · exact Occurrences.mem_freeIds_of_part ha (ih a ha hhidden fun hmem => hbound (Expr.boundVars_subset ha hmem))
          fun hmem => hbound (Expr.mem_boundVars.mpr ⟨_, Expr.head_mem_heads e, hmem⟩)
  induction s using induct_bodies with
  | step s ih =>
    rw [mem_boundIds, not_or, not_or] at hnot
    obtain ⟨hbodies, hbinder, hexprs⟩ := hnot
    obtain ⟨b, hb, hx⟩ | hx := mem_opaqueIds.mp hx
    · refine mem_freeIds.mpr (.inr ⟨⟨b, hb, ih b hb hx fun hmem => hbodies ⟨b, hb, hmem⟩⟩, ?_⟩)
      rintro v hv rfl
      exact hbinder (List.mem_map_of_mem (Option.mem_toList.mpr hv))
    · obtain ⟨e, he, hx⟩ := List.mem_flatMap.mp hx
      exact mem_freeIds.mpr (.inl ⟨e, he, hexpr hx fun hmem => hexprs (List.mem_flatMap.mpr ⟨e, he, hmem⟩)⟩)

/-- The expressions and statements in a statement are its own expressions, what is in its bodies, and itself. -/
theorem postorder_eq (s : Stmt) :
    s.postorder = s.exprParts.flatMap exprNodes ++ s.bodies.flatMap postorder ++ [.stmt s] := by
  have hstmts : ∀ ss : List Stmt, postorder.ofStmts ss = ss.flatMap postorder := by
    intro ss
    induction ss with
    | nil => rfl
    | cons s ss ih => rw [postorder.ofStmts, ih, List.flatMap_cons]
  cases s with
  | branch cond onTrue onFalse => cases onFalse <;> simp [postorder]
  | _ => simp [postorder, hstmts, guardNodes, exprsNodes, rangesNodes, List.flatMap_assoc]

/-- The variables used in a statement are those used in its own expressions and in its bodies. -/
theorem vars_eq (s : Stmt) : s.vars = s.exprParts.flatMap Expr.vars ++ s.bodies.flatMap vars := by
  have hexpr (e : Expr) : ((exprNodes e).filterMap Node.expr?).filterMap Expr.asVar? = e.vars := by
    rw [exprNodes, List.filterMap_map]
    exact congrArg (List.filterMap Expr.asVar?) List.filterMap_some
  simp only [vars, exprs, postorder_eq s, List.filterMap_append, List.filterMap_flatMap, hexpr]
  exact List.append_nil _

theorem mem_vars : v ∈ s.vars ↔ (∃ e ∈ s.exprParts, v ∈ e.vars) ∨ ∃ b ∈ s.bodies, v ∈ b.vars := by
  rw [vars_eq, List.mem_append, List.mem_flatMap, List.mem_flatMap]

/-- A variable that is used is free or bound. -/
theorem mem_freeIds_or_boundIds (hv : v ∈ s.vars) : v.id ∈ s.freeIds ∨ v.id ∈ s.boundIds := by
  induction s using induct_bodies with
  | step s ih =>
    obtain ⟨e, he, hv⟩ | ⟨b, hb, hv⟩ := mem_vars.mp hv
    · refine (Expr.mem_freeIds_or_boundVars hv).imp (fun hx => mem_freeIds.mpr (.inl ⟨e, he, hx⟩)) fun hx => ?_
      exact mem_boundIds.mpr (.inr (.inr (List.mem_flatMap.mpr ⟨e, he, hx⟩)))
    · obtain hx | hx := ih b hb hv
      · by_cases hbinder : ∃ w ∈ s.binder?, v.id = w.id
        · obtain ⟨w, hw, heq⟩ := hbinder
          exact .inr (mem_boundIds.mpr (.inr (.inl (List.mem_map.mpr ⟨w, Option.mem_toList.mpr hw, heq.symm⟩))))
        · exact .inl (mem_freeIds.mpr (.inr ⟨⟨b, hb, hx⟩, fun w hw heq => hbinder ⟨w, hw, heq⟩⟩))
      · exact .inr (mem_boundIds.mpr (.inl ⟨b, hb, hx⟩))

theorem mem_vars_of_mem_conditions (hc : c ∈ s.conditions) (hv : v ∈ c.vars) : v ∈ s.vars := by
  induction s using induct_bodies with
  | step s ih =>
    obtain ⟨b, hb, hc⟩ | hc := mem_conditions.mp hc
    · exact mem_vars.mpr (.inr ⟨b, hb, ih b hb hc⟩)
    · exact mem_vars.mpr (.inl ⟨c, mem_exprParts_of_condition? hc, hv⟩)

/-- Each split point is one of a condition. -/
theorem exists_condition_of_mem_splitPoints (h : s.splitPoints v = .ok points) {p : Expr} (hp : p ∈ points) :
    ∃ c ∈ s.conditions, c.splitPoint? v = .ok (some p) := by
  obtain ⟨os, hos, hpoints⟩ := bind_eq_ok.mp h
  obtain rfl := Except.ok.inj hpoints
  obtain ⟨o, ho, rfl⟩ := List.mem_filterMap.mp hp
  obtain ⟨t, ht, hsplit⟩ := (mem_mapM hos).1 _ ho
  cases t with
  | branch cond => exact ⟨cond, List.mem_filterMap.mpr ⟨_, ht, rfl⟩, hsplit⟩
  | _ => exact nomatch hsplit

theorem mem_splitPoints (h : s.splitPoints v = .ok points) {p : Expr} (hc : c ∈ s.conditions)
    (hsplit : c.splitPoint? v = .ok (some p)) :
    p ∈ points := by
  obtain ⟨os, hos, hpoints⟩ := bind_eq_ok.mp h
  obtain rfl := Except.ok.inj hpoints
  obtain ⟨t, ht, hcondition⟩ := List.mem_filterMap.mp hc
  obtain ⟨o, ho, hrun⟩ := (mem_mapM hos).2 t ht
  cases t with
  | branch cond =>
    obtain rfl := Option.some.inj hcondition
    obtain rfl := Except.ok.inj (hsplit.symm.trans hrun)
    exact List.mem_filterMap.mpr ⟨_, ho, rfl⟩
  | _ => exact nomatch hcondition

end Conditions

/-! ### Substitution -/

section Subst
variable {s : Stmt} {σ : Subst} {x : Nat}

/-- A substitution leaves the kind of a statement as it is and goes on to its parts. -/
theorem subst_parts (σ : Subst) (s : Stmt) : (s.subst σ).exprParts = s.exprParts.map (·.subst σ) ∧
    (s.subst σ).binder? = s.binder? ∧ (s.subst σ).condition? = s.condition?.map (·.subst σ) := by
  cases s with
  | attr subject => cases subject <;> exact ⟨rfl, rfl, rfl⟩
  | branch cond onTrue onFalse => cases onFalse <;> exact ⟨rfl, rfl, rfl⟩
  | store _ _ _ pred => cases pred <;> exact ⟨rfl, rfl, rfl⟩
  | realize | prefetch => simp [subst, Range.subst, List.map_flatMap, List.flatMap_map]
  | _ => simp [subst]

theorem mem_conditions_subst {c' : Expr} (h : c' ∈ (s.subst σ).conditions) : ∃ c ∈ s.conditions, c' = c.subst σ := by
  induction s using induct_bodies with
  | step s ih =>
    rw [mem_conditions, bodies_subst, (subst_parts σ s).2.2] at h
    obtain ⟨_, hmem, hc⟩ | hc := h
    · obtain ⟨b, hb, rfl⟩ := List.mem_map.mp hmem
      obtain ⟨c, hc, heq⟩ := ih b hb hc
      exact ⟨c, mem_conditions.mpr (.inl ⟨b, hb, hc⟩), heq⟩
    · obtain ⟨c, hc, heq⟩ := Option.map_eq_some_iff.mp hc
      exact ⟨c, mem_conditions.mpr (.inr hc), heq.symm⟩

theorem mem_opaqueIds_subst (hσ : ∀ p ∈ σ, p.2.opaqueVars = []) (h : x ∈ (s.subst σ).opaqueIds) : x ∈ s.opaqueIds := by
  induction s using induct_bodies with
  | step s ih =>
    rw [mem_opaqueIds, bodies_subst, (subst_parts σ s).1] at h
    obtain ⟨_, hmem, hx⟩ | hx := h
    · obtain ⟨b, hb, rfl⟩ := List.mem_map.mp hmem
      exact mem_opaqueIds.mpr (.inl ⟨b, hb, ih b hb hx⟩)
    · obtain ⟨_, hmem, hx⟩ := List.mem_flatMap.mp hx
      obtain ⟨e, he, rfl⟩ := List.mem_map.mp hmem
      obtain ⟨d, hd, hx⟩ := Expr.mem_opaqueVars.mp hx
      obtain hd | ⟨p, hp, hd⟩ := Expr.mem_heads_subst hd
      · exact mem_opaqueIds.mpr (.inr (List.mem_flatMap.mpr ⟨e, he, Expr.mem_opaqueVars.mpr ⟨d, hd, hx⟩⟩))
      · exact absurd (Expr.mem_opaqueVars.mpr ⟨d, hd, hx⟩) (hσ p hp ▸ List.not_mem_nil)

/-- A free variable of the result is one that is not replaced, or one of the expressions put. -/
theorem mem_freeIds_subst (hfix : ∀ y ∈ s.opaqueIds, ∀ p ∈ σ, y ≠ p.1.id) (h : x ∈ (s.subst σ).freeIds) :
    (x ∈ s.freeIds ∧ ∀ p ∈ σ, x ≠ p.1.id) ∨ ∃ p ∈ σ, x ∈ p.2.freeIds := by
  induction s using induct_bodies with
  | step s ih =>
    rw [mem_freeIds, bodies_subst, (subst_parts σ s).1, (subst_parts σ s).2.1] at h
    obtain ⟨_, hmem, hx⟩ | ⟨⟨_, hmem, hx⟩, hbinder⟩ := h
    · obtain ⟨e, he, rfl⟩ := List.mem_map.mp hmem
      have hhidden : ∀ y ∈ e.opaqueVars, ∀ p ∈ σ, y ≠ p.1.id := fun y hy =>
        hfix y (mem_opaqueIds.mpr (.inr (List.mem_flatMap.mpr ⟨e, he, hy⟩)))
      exact (Expr.mem_freeIds_subst hhidden hx).imp_left fun ⟨hx, hnot⟩ => ⟨mem_freeIds.mpr (.inl ⟨e, he, hx⟩), hnot⟩
    · obtain ⟨b, hb, rfl⟩ := List.mem_map.mp hmem
      have hhidden : ∀ y ∈ b.opaqueIds, ∀ p ∈ σ, y ≠ p.1.id := fun y hy => hfix y (mem_opaqueIds.mpr (.inl ⟨b, hb, hy⟩))
      exact (ih b hb hhidden hx).imp_left fun ⟨hx, hnot⟩ => ⟨mem_freeIds.mpr (.inr ⟨⟨b, hb, hx⟩, hbinder⟩), hnot⟩

end Subst

/-! ### Statements without guards -/

section WithoutGuards
variable {s s' : Stmt} {v : Var} {x : Nat}

/-- Without its guards a statement is the statement with its bodies without theirs, or, for a guard, what is guarded. -/
theorem withoutGuards_cases (h : s.withoutGuards v = .ok s') :
    (∃ bs, List.Forall₂ (fun b b' => b.withoutGuards v = .ok b') s.bodies bs ∧ s' = s.withBodies bs) ∨
      ∃ cond p onTrue onFalse, s = branch cond onTrue onFalse ∧ cond.splitPoint? v = .ok (some p) ∧
        onTrue.withoutGuards v = .ok s' := by
  unfold withoutGuards at h
  rw [rebuildM_eq] at h
  obtain ⟨bs, hbs, hlast⟩ := bind_eq_ok.mp h
  have hbodies : List.Forall₂ (fun b b' => b.withoutGuards v = .ok b') s.bodies bs :=
    forall₂_of_mapM (fun b _ b' hb => hb) hbs
  cases s with
  | branch cond onTrue onFalse =>
    have hkept := hbodies
    cases hbodies with | @cons _ onTrue' _ bs htrue hrest
    obtain ⟨onFalse', hsame⟩ : ∃ onFalse', (branch cond onTrue onFalse).withBodies (onTrue' :: bs) =
      branch cond onTrue' onFalse' := by
      cases onFalse with
      | none =>
        cases hrest
        exact ⟨none, rfl⟩
      | some onFalse =>
        cases hrest with | @cons _ onFalse' _ _ _ hrest
        cases hrest
        exact ⟨some onFalse', rfl⟩
    rw [hsame] at hlast
    obtain ⟨o, ho, hlast⟩ := bind_eq_ok.mp hlast
    cases o with
    | some p =>
      cases hlast
      exact .inr ⟨cond, p, onTrue, onFalse, rfl, ho, htrue⟩
    | none =>
      cases hlast
      exact .inl ⟨_, hkept, hsame.symm⟩
  | seq ss =>
    cases hlast
    exact .inl ⟨bs, hbodies, rfl⟩
  | store | provide | prefetch | eval =>
    cases hbodies
    cases hlast
    exact .inl ⟨[], .nil, rfl⟩
  | _ =>
    have hkept := hbodies
    cases hbodies with | cons _ hbodies
    cases hbodies
    cases hlast
    exact .inl ⟨_, hkept, rfl⟩

/-- A property of a statement and of what removing its guards makes of it holds if it holds for each statement that is not
    removed once it holds for the bodies, and for a guard if it holds for what is guarded. -/
theorem withoutGuards_induct {P : Stmt → Stmt → Prop}
    (kept : ∀ {s : Stmt} {bs : List Stmt}, List.Forall₂ P s.bodies bs → P s (s.withBodies bs))
    (dropped : ∀ {cond p : Expr} {onTrue onTrue' : Stmt} {onFalse : Option Stmt}, P onTrue onTrue' →
      cond.splitPoint? v = .ok (some p) → P (branch cond onTrue onFalse) onTrue')
    (h : s.withoutGuards v = .ok s') : P s s' := by
  induction s using induct_bodies generalizing s' with
  | step s ih =>
    obtain ⟨bs, hbs, rfl⟩ | ⟨cond, p, onTrue, onFalse, rfl, hsplit, htrue⟩ := withoutGuards_cases h
    · exact kept (((List.forall₂_and_left _ _).mpr ⟨fun b hb => hb, hbs⟩).imp fun b b' ⟨hb, hrun⟩ => ih b hb hrun)
    · exact dropped (ih onTrue List.mem_cons_self htrue) hsplit

end WithoutGuards

/-! ### Scopes -/

section Scopes
variable {B : Nat → Prop} {n N k : Nat} {s s' body body' unguarded : Stmt} {bs : List Stmt} {v : Var} {min extent : Expr}
  {kind : LoopKind}
  {points : List Expr} {bounds : Expr × Expr × Expr} {constLoops : Bool} {g g' : Graph}

/-- A body of a loop over a variable that it does not bind and whose number no other variable has there. No split point
    of the conditions mentions a variable that a statement of the body binds. -/
structure Splits (v : Var) (body : Stmt) : Prop where
  unbound : v.id ∉ body.boundIds
  same : ∀ w ∈ body.vars, w.id = v.id → w = v
  outer : ∀ c ∈ body.conditions, ∀ p, c.splitPoint? v = .ok (some p) → ∀ x ∈ p.freeIds, x ∉ body.binders

/-- The loops of a statement can be split, its variables have numbers below `n`, and those that stand in combiners and
    in the domains of axes are not bound. -/
structure Splittable (n : Nat) (s : Stmt) : Prop where
  loops : ∀ {v min extent kind body}, loop v min extent kind body ∈ s.stmts → Splits v body
  apart : ∀ x ∈ s.opaqueIds, x ∉ s.boundIds
  numbered : ∀ x, x ∈ s.freeIds ∨ x ∈ s.boundIds → x < n

theorem Splittable.of_body {b : Stmt} (hs : s.Splittable n) (hb : b ∈ s.bodies) : b.Splittable n where
  loops ht := hs.loops (by rw [stmts_eq]; exact List.mem_append_left _ (List.mem_flatMap.mpr ⟨b, hb, ht⟩))
  apart x hx hmem := hs.apart x (mem_opaqueIds.mpr (.inl ⟨b, hb, hx⟩)) (mem_boundIds.mpr (.inl ⟨b, hb, hmem⟩))
  numbered x hx := by
    obtain hx | hx := hx
    · by_cases hbinder : ∃ w ∈ s.binder?, x = w.id
      · obtain ⟨w, hw, rfl⟩ := hbinder
        exact hs.numbered _ (.inr (mem_boundIds.mpr (.inr (.inl (List.mem_map_of_mem (Option.mem_toList.mpr hw))))))
      · exact hs.numbered x (.inl (mem_freeIds.mpr (.inr ⟨⟨b, hb, hx⟩, fun w hw heq => hbinder ⟨w, hw, heq⟩⟩)))
    · exact hs.numbered x (.inr (mem_boundIds.mpr (.inl ⟨b, hb, hx⟩)))

/-- A statement that comes from another one depends on nothing more, and its conditions are those of the other one, with
    variables among some renamed. -/
structure Narrows (B : Nat → Prop) (s s' : Stmt) : Prop where
  free : ∀ x ∈ s'.freeIds, x ∈ s.freeIds
  hidden : ∀ x ∈ s'.opaqueIds, x ∈ s.opaqueIds
  conditions : ∀ c' ∈ s'.conditions, ∃ c ∈ s.conditions, c.RenamedAmong B c'

theorem Narrows.mono {B' : Nat → Prop} (hB : ∀ x, B x → B' x) (h : s.Narrows B s') : s.Narrows B' s' where
  free := h.free
  hidden := h.hidden
  conditions c' hc' := by
    obtain ⟨c, hc, hrenamed⟩ := h.conditions c' hc'
    exact ⟨c, hc, hrenamed.mono hB⟩

/-- A statement that keeps its kind comes from one of which the bodies come from its bodies. -/
theorem narrows_withBodies (h : List.Forall₂ (Narrows B) s.bodies bs) : s.Narrows B (s.withBodies bs) := by
  have hmem := exists_of_forall₂ h
  constructor
  · intro x hx
    rw [mem_freeIds, bodies_withBodies h, exprParts_withBodies h, binder?_withBodies h] at hx
    obtain hx | ⟨⟨b', hb', hx⟩, hbinder⟩ := hx
    · exact mem_freeIds.mpr (.inl hx)
    · obtain ⟨b, hb, hnarrow⟩ := hmem b' hb'
      exact mem_freeIds.mpr (.inr ⟨⟨b, hb, hnarrow.free x hx⟩, hbinder⟩)
  · intro x hx
    rw [mem_opaqueIds, bodies_withBodies h, exprParts_withBodies h] at hx
    obtain ⟨b', hb', hx⟩ | hx := hx
    · obtain ⟨b, hb, hnarrow⟩ := hmem b' hb'
      exact mem_opaqueIds.mpr (.inl ⟨b, hb, hnarrow.hidden x hx⟩)
    · exact mem_opaqueIds.mpr (.inr hx)
  · intro c' hc'
    rw [mem_conditions, bodies_withBodies h, condition?_withBodies h] at hc'
    obtain ⟨b', hb', hc'⟩ | hc' := hc'
    · obtain ⟨b, hb, hnarrow⟩ := hmem b' hb'
      obtain ⟨c, hc, hrenamed⟩ := hnarrow.conditions c' hc'
      exact ⟨c, mem_conditions.mpr (.inl ⟨b, hb, hc⟩), hrenamed⟩
    · exact ⟨c', mem_conditions.mpr (.inr hc'), .refl⟩

/-- Without its guards a statement depends on nothing more, and its conditions are among those of before. -/
theorem narrows_withoutGuards (h : s.withoutGuards v = .ok s') : s.Narrows (fun _ => False) s' := by
  refine withoutGuards_induct (P := Narrows fun _ =>
    False) narrows_withBodies (fun {cond p onTrue onTrue' onFalse} htrue _ => ?_) h
  have hmem : onTrue ∈ (branch cond onTrue onFalse).bodies := List.mem_cons_self
  refine ⟨fun x hx => ?_, fun x hx => mem_opaqueIds.mpr (.inl ⟨onTrue, hmem, htrue.hidden x hx⟩), fun c' hc' => ?_⟩
  · exact mem_freeIds.mpr (.inr ⟨⟨onTrue, hmem, htrue.free x hx⟩, nofun⟩)
  · obtain ⟨c, hc, hrenamed⟩ := htrue.conditions c' hc'
    exact ⟨c, mem_conditions.mpr (.inl ⟨onTrue, hmem, hc⟩), hrenamed⟩

/-- The variables that are renamed when a statement is partitioned: those that it binds and the new ones. -/
def Renamable (N n : Nat) (s : Stmt) (x : Nat) : Prop :=
  x ∈ s.binders ∨ N ≤ x ∧ x < n

/-- The split point of a guard in the body of a loop mentions nothing that the loop does not mention. -/
theorem within_splitPoint {c p : Expr} (hs : (loop v min extent kind body).Splittable N) (hc : c ∈ body.conditions)
    (hsplit : c.splitPoint? v = .ok (some p)) :
    p.Within (· ∈ (loop v min extent kind body).freeIds) (· ∈ (loop v min extent kind body).opaqueIds) := by
  have hmem : body ∈ (loop v min extent kind body).bodies := List.mem_singleton_self _
  have hv : v.id ∈ (loop v min extent kind body).boundIds := mem_boundIds.mpr (.inr (.inl (List.mem_singleton_self _)))
  have hsplits := hs.loops (by rw [stmts_eq]; exact List.mem_append_right _ (List.mem_singleton_self _))
  have hhidden : ∀ x ∈ c.opaqueVars, x ∈ (loop v min extent kind body).opaqueIds := fun x hx =>
    mem_opaqueIds.mpr (.inl ⟨body, hmem, mem_opaqueIds_of_mem_conditions hc hx⟩)
  have hwithin : p.Within (fun x => (x ∈ c.freeIds ∨ x ∈ c.opaqueVars) ∧ x ≠ v.id) (· ∈ c.opaqueVars) := by
    refine Expr.Within.splitPoint? (fun x hx => ⟨.inr hx, ?_⟩) ⟨fun _ => .inl, fun _ => id⟩ _ hsplit _ rfl
    rintro rfl
    exact hs.apart _ (hhidden _ hx) hv
  refine ⟨fun x hx => ?_, fun x hx => hhidden x (hwithin.hidden x hx)⟩
  obtain ⟨hx', hne⟩ := hwithin.free x hx
  obtain hx' | hx' := hx'
  · have hbody := mem_freeIds_of_mem_conditions hc hx' (hsplits.outer c hc p hsplit x hx)
    exact mem_freeIds.mpr (.inr ⟨⟨body, hmem, hbody⟩, fun w hw => Option.some.inj hw ▸ hne⟩)
  · exact mem_freeIds_of_mem_opaqueIds (hhidden x hx') (hs.apart x (hhidden x hx'))

/-- A split point in the partitioned body of a loop is one of a condition in the body: none of its variables is renamed. -/
theorem exists_condition_of_narrows {p : Expr} (hs : (loop v min extent kind body).Splittable N)
    (h : body.Narrows (body.Renamable N k) body')
    (hpoints : body'.splitPoints v = .ok points) (hp : p ∈ points) :
    ∃ c ∈ body.conditions, c.splitPoint? v = .ok (some p) := by
  have hv : v.id ∈ (loop v min extent kind body).boundIds := mem_boundIds.mpr (.inr (.inl (List.mem_singleton_self _)))
  have hsplits := hs.loops (by rw [stmts_eq]; exact List.mem_append_right _ (List.mem_singleton_self _))
  obtain ⟨c', hc', hsplit'⟩ := exists_condition_of_mem_splitPoints hpoints hp
  obtain ⟨c, hc, hrenamed⟩ := h.conditions c' hc'
  have hnot : ¬ body.Renamable N k v.id := by
    rintro (hbinder | ⟨hle, -⟩)
    · exact hsplits.unbound (binders_subset hbinder)
    · exact Nat.not_le.mpr (hs.numbered _ (.inr hv)) hle
  obtain ⟨o, hsplit, hrel⟩ := hrenamed.splitPoint? hnot hsplit'
  cases hrel with | @some p₀ _ hrenamed
  obtain rfl := hrenamed.eq_self fun x hx => by
    rintro (hbinder | ⟨hle, -⟩)
    · exact hsplits.outer c hc p₀ hsplit x hx hbinder
    · exact Nat.not_le.mpr (hs.numbered x (.inl ((within_splitPoint hs hc hsplit).free x hx))) hle
  exact ⟨c, hc, hsplit⟩

/-- The split points in the body of a loop mention nothing that the loop does not mention. -/
theorem within_splitPoints (hs : (loop v min extent kind body).Splittable N) (h : body.Narrows (body.Renamable N k) body')
    (hpoints : body'.splitPoints v = .ok points) :
    ∀ p ∈ points, p.Within (· ∈ (loop v min extent kind body).freeIds) (· ∈ (loop v min extent kind body).opaqueIds) := by
  intro p hp
  obtain ⟨c, hc, hsplit⟩ := exists_condition_of_narrows hs h hpoints hp
  exact within_splitPoint hs hc hsplit

theorem ensures_splitBounds {S T : Nat → Prop} (hTS : ∀ x, T x → S x) (hmin : min.Within S T) (hextent : extent.Within S T)
    (hpoints : ∀ p ∈ points, p.Within S T) :
    Ensures (splitBounds min extent points) fun b => b.1.Within S T ∧ b.2.1.Within S T ∧ b.2.2.Within S T := by
  have harith {op : BinOp} {a b : Expr} (ha : a.Within S T) (hb : b.Within S T) :
      Ensures (Expr.arith op (.expr a) (.expr b)) (Expr.Within S T) :=
    Expr.built_arith (x := .expr a) (y := .expr b) ha hb
  have hhead : (points.headD min).Within S T := by
    cases points with
    | nil => exact hmin
    | cons p ps => exact hpoints p List.mem_cons_self
  refine (ensures_foldlM (fun p hp q hq =>
    harith hq (hpoints p (List.mem_of_mem_tail hp))) hhead).bind fun point hpoint => ?_
  refine (harith hmin hextent).bind fun stop hstop => (harith hpoint hstop).bind fun lower hlower => ?_
  refine (harith hmin hlower).bind fun raised hraised => (hraised.simplify hTS).bind fun point hpoint => ?_
  refine (harith hpoint hmin).bind fun d hd => (hd.simplify hTS).bind fun first hfirst => ?_
  exact (harith hstop hpoint).bind fun d hd => (hd.simplify hTS).bind fun rest hrest => ensures_ok ⟨hpoint, hfirst, hrest⟩

/-- A condition that is renamed when the body of a loop is partitioned takes a new variable in place of that of the loop. -/
theorem renames_of_renamedAmong {c c' : Expr} (hN : N ≤ k) (hv : v.id < N) (hbody : body.Splittable N)
    (hsplits : Splits v body)
    (hc : c ∈ body.conditions) (h : c.RenamedAmong (body.Renamable N k) c') :
    c'.Renames (replacement v k) (c'.subst [(v, .var (replacement v k).new)]) := by
  have hold : ∀ {x}, x ∈ body.freeIds ∨ x ∈ body.boundIds → x ≠ k :=
    fun hx heq => Nat.not_le.mpr (hbody.numbered _ hx) (heq ▸ hN)
  refine Expr.renames_subst (fun w hw => ?_) fun x hx => ?_
  · obtain (hbinder | ⟨hle, hlt⟩) | hw := h.mem_vars hw
    · exact ⟨hold (.inr (binders_subset hbinder)), fun heq => absurd (binders_subset hbinder) (heq ▸ hsplits.unbound)⟩
    · exact ⟨hlt.ne, fun heq => absurd hle (Nat.not_le.mpr (heq ▸ hv))⟩
    · have hused := mem_vars_of_mem_conditions hc hw
      exact ⟨hold (mem_freeIds_or_boundIds hused), hsplits.same w hused⟩
  · have hbound := mem_boundIds_of_mem_conditions hc (h.mem_boundVars_iff.mp hx)
    exact ⟨fun heq => hsplits.unbound (heq ▸ hbound), hold (.inr hbound)⟩

/-- A loop that is split where its body is partitioned. -/
theorem narrows_splitAt (hN : N ≤ k) (hs : (loop v min extent kind body).Splittable N)
    (h : body.Narrows (body.Renamable N k) body')
    (hpoints : body'.splitPoints v = .ok points) (hbounds : splitBounds min extent points = .ok bounds)
    (hunguarded : body'.withoutGuards v = .ok unguarded) :
    (loop v min extent kind body).Narrows ((loop v min extent kind body).Renamable N (k + 1))
    (splitAt v k min bounds kind unguarded body') := by
  set whole := loop v min extent kind body
  set copy := unguarded.subst [(v, .var (replacement v k).new)]
  have hmem : body ∈ whole.bodies := List.mem_singleton_self _
  have hv : v.id ∈ whole.boundIds := mem_boundIds.mpr (.inr (.inl (List.mem_singleton_self _)))
  have hsplits := hs.loops (v := v) (by rw [stmts_eq]; exact List.mem_append_right _ (List.mem_singleton_self _))
  have hpart : ∀ e ∈ whole.exprParts, e.Within (· ∈ whole.freeIds) (· ∈ whole.opaqueIds) := fun e he =>
    ⟨fun x hx => mem_freeIds.mpr (.inl ⟨e, he, hx⟩), fun x hx =>
      mem_opaqueIds.mpr (.inr (List.mem_flatMap.mpr ⟨e, he, hx⟩))⟩
  have hmin := hpart min List.mem_cons_self
  obtain ⟨hpoint, hfirst, hrest⟩ := ensures_splitBounds (fun x hx => mem_freeIds_of_mem_opaqueIds hx (hs.apart x hx)) hmin
    (hpart extent (List.mem_cons_of_mem _ List.mem_cons_self)) (within_splitPoints hs h hpoints) bounds hbounds
  have hprunes := narrows_withoutGuards hunguarded
  have hhidden : ∀ x ∈ body'.opaqueIds, x ∈ whole.opaqueIds :=
    fun x hx => mem_opaqueIds.mpr (.inl ⟨body, hmem, h.hidden x hx⟩)
  have hbody : ∀ x ∈ body'.freeIds, x ≠ v.id → x ∈ whole.freeIds := fun x hx hne =>
    mem_freeIds.mpr (.inr ⟨⟨body, hmem, h.free x hx⟩, fun w hw => Option.some.inj hw ▸ hne⟩)
  have hB : ∀ x, body.Renamable N k x → whole.Renamable N (k + 1) x := fun x hx =>
    hx.imp (fun hx => mem_binders.mpr (.inl ⟨body, hmem, hx⟩)) fun hx => ⟨hx.1, by omega⟩
  have hcopyFree : ∀ x ∈ copy.freeIds, x ∈ whole.freeIds ∨ x = k := by
    intro x hx
    have hfix : ∀ y ∈ unguarded.opaqueIds, ∀ p ∈ [(v, Expr.var (replacement v k).new)], y ≠ p.1.id := fun y hy =>
      List.forall_mem_singleton.mpr fun heq => hs.apart _ (hhidden _ (hprunes.hidden _ hy)) (heq ▸ hv)
    obtain ⟨hx, hne⟩ | ⟨p, hp, hx⟩ := mem_freeIds_subst hfix hx
    · exact .inl (hbody x (hprunes.free x hx) (hne _ (List.mem_singleton_self _)))
    · obtain rfl := List.mem_singleton.mp hp
      exact .inr (List.mem_singleton.mp hx)
  have hcopyConditions : ∀ c'' ∈ copy.conditions, ∃ c ∈ body.conditions,
    c.RenamedAmong (whole.Renamable N (k + 1)) c'' := by
    intro c'' hc''
    obtain ⟨c', hc', rfl⟩ := mem_conditions_subst hc''
    obtain ⟨c₁, hc₁, hsame⟩ := hprunes.conditions c' hc'
    obtain rfl := hsame.eq_self fun _ _ => id
    obtain ⟨c, hc, hrenamed⟩ := h.conditions c' hc₁
    exact ⟨c, hc, (hrenamed.mono hB).tail ⟨replacement v k, .inl (mem_binders.mpr (.inr ⟨v, rfl, rfl⟩)),
      .inr ⟨hN, Nat.lt_succ_self k⟩,
      renames_of_renamedAmong hN (hs.numbered _ (.inr hv)) (hs.of_body hmem) hsplits hc hrenamed⟩⟩
  refine ⟨?_, fun x hx => ?_, fun c' hc' => ?_⟩
  · have hfirst' : (loop (replacement v k).new min bounds.2.1 kind copy).FreeWithin (· ∈ whole.freeIds) :=
      freeWithin_iff.mpr ⟨List.forall_mem_cons.mpr ⟨hmin.free, List.forall_mem_singleton.mpr hfirst.free⟩,
        List.forall_mem_singleton.mpr fun x hx => (hcopyFree x hx).imp_right fun heq => ⟨_, rfl, heq⟩⟩
    have hrest' : (loop v bounds.1 bounds.2.2 kind body').FreeWithin (· ∈ whole.freeIds) :=
      freeWithin_iff.mpr ⟨List.forall_mem_cons.mpr ⟨hpoint.free, List.forall_mem_singleton.mpr hrest.free⟩,
        List.forall_mem_singleton.mpr fun x hx => or_iff_not_imp_right.mpr fun hne => hbody x hx fun heq =>
          hne ⟨v, rfl, heq⟩⟩
    exact freeWithin_seq.mpr (List.forall_mem_cons.mpr ⟨hfirst', List.forall_mem_singleton.mpr hrest'⟩)
  · simp only [splitAt, mem_opaqueIds_seq, mem_opaqueIds_loop, List.exists_mem_cons_iff, List.not_mem_nil, false_and,
      exists_false,
      or_false] at hx
    have hσ : ∀ p ∈ [(v, Expr.var (replacement v k).new)], p.2.opaqueVars = [] := List.forall_mem_singleton.mpr rfl
    obtain (hx | hx | hx) | hx | hx | hx := hx
    · exact hhidden x (hprunes.hidden x (mem_opaqueIds_subst hσ hx))
    · exact hmin.hidden x hx
    · exact hfirst.hidden x hx
    · exact hhidden x hx
    · exact hpoint.hidden x hx
    · exact hrest.hidden x hx
  · have hwhole {c : Expr} (hc : c ∈ body.conditions) : c ∈ whole.conditions := mem_conditions_loop.mpr hc
    simp only [splitAt, mem_conditions_seq, mem_conditions_loop, List.exists_mem_cons_iff, List.not_mem_nil, false_and,
      exists_false,
      or_false] at hc'
    obtain hc' | hc' := hc'
    · obtain ⟨c, hc, hrenamed⟩ := hcopyConditions c' hc'
      exact ⟨c, hwhole hc, hrenamed⟩
    · obtain ⟨c, hc, hrenamed⟩ := h.conditions c' hc'
      exact ⟨c, hwhole hc, hrenamed.mono hB⟩

/-- A statement that keeps its kind comes from one of which the bodies are partitioned. -/
theorem narrows_kept (h : List.Forall₂ (fun b b' => b.Narrows (b.Renamable N n) b') s.bodies bs) :
    s.Narrows (s.Renamable N n) (s.withBodies bs) := by
  refine narrows_withBodies (((List.forall₂_and_left _ _).mpr ⟨fun b hb => hb, h⟩).imp fun b b' ⟨hb, hnarrow⟩ => ?_)
  exact hnarrow.mono fun x hx => hx.imp_left fun hx => mem_binders.mpr (.inl ⟨b, hb, hx⟩)

/-- The statement that partitioning a statement gives depends on nothing more than the statement, if no split point of a
    guard in a loop mentions a variable that is bound in the body of the loop. -/
theorem freeIds_partition (hs : s.Splittable g.next) (hrun : (s.partition constLoops).Yields g s' g') :
    s'.freeIds ⊆ s.freeIds := by
  have hnarrow := (partition_induct (P := fun n s s' => s.Splittable g.next → s.Narrows (s.Renamable g.next n) s')
    (fun hn h hs => (h hs).mono fun x hx => hx.imp_right fun hx => ⟨hx.1, hx.2.trans_le hn⟩)
    (fun h hs => narrows_kept <| ((List.forall₂_and_left _ _).mpr ⟨fun b hb => hs.of_body hb, h⟩).imp fun _ _ ⟨hb, h⟩ =>
      h hb)
    (fun hN h _ hpoints _ hbounds hunguarded hs =>
      narrows_splitAt hN hs (h (hs.of_body (List.mem_singleton_self _))) hpoints hbounds hunguarded)
    (Nat.le_refl _) hrun).2 hs
  exact hnarrow.free

end Scopes

namespace Grouped

def n : Var := ⟨1, "n", .int32⟩

def outer : Var := ⟨2, "i.outer", .int32⟩

def inner : Var := ⟨3, "i.inner", .int32⟩

def index : Expr := .bin .add (.bin .mul (.var outer) (.int32 4)) (.var inner)

def guard : Expr := .call .bool "likely" [.bin .lt index (.var n)] .pureIntrinsic none 0

def set : Stmt := store (.var ⟨4, "A", .handle⟩) (.int32 0) index none

def rows : Stmt := loop inner (.int32 0) (.int32 4) .serial (branch guard set none)

/-- The elements of an array of length `n` are set in groups of four. -/
def groups : Stmt := loop outer (.int32 0) (.bin .div (.bin .add (.var n) (.int32 3)) (.int32 4)) .serial rows

def graph : Graph := { ops := #[], next := 5 }

theorem splittable_groups : groups.Splittable graph.next := by
  have hsplits (v : Var) (body : Stmt) (hunbound : v.id ∉ body.boundIds) (hsame : ∀ w ∈ body.vars, w.id = v.id → w = v)
      (houter : body.conditions.all fun c => (c.splitPoint? v).toOption.join.all fun p => p.freeIds.all fun x =>
        x ∉ body.binders) :
      body.Splits v := by
    refine ⟨hunbound, hsame, fun c hc p hp x hx => ?_⟩
    have hall := List.all_eq_true.mp houter c hc
    rw [hp] at hall
    exact of_decide_eq_true (List.all_eq_true.mp hall x hx)
  have hstmts : groups.stmts = [set, branch guard set none, rows, groups] := rfl
  have hfree : ∀ x ∈ groups.freeIds, x < graph.next := by decide
  have hbound : ∀ x ∈ groups.boundIds, x < graph.next := by decide
  refine ⟨fun {v min extent kind body} hmem => ?_, by decide, fun x hx => hx.elim (hfree x) (hbound x)⟩
  rw [hstmts] at hmem
  simp only [List.mem_cons, List.not_mem_nil, or_false] at hmem
  obtain h | h | h | h := hmem
  · exact nomatch h
  · exact nomatch h
  · obtain ⟨rfl, -, -, -, rfl⟩ := loop.inj h
    exact hsplits _ _ (by decide) (by decide) (by decide +kernel)
  · obtain ⟨rfl, -, -, -, rfl⟩ := loop.inj h
    exact hsplits _ _ (by decide) (by decide) (by decide +kernel)

theorem freeIds_groups : groups.Splittable graph.next ∧
    ∃ s' g', (groups.partition true).Yields graph s' g' ∧ s'.freeIds ⊆ groups.freeIds := by
  have hok : (((groups.partition true).run.run graph).run).1.isOk := by decide +kernel
  rcases hrun : ((groups.partition true).run.run graph).run with ⟨e | s', g'⟩
  · rw [hrun] at hok
    cases hok
  · exact ⟨splittable_groups, s', g', hrun, freeIds_partition splittable_groups hrun⟩

end Grouped

end Stmt

end TensorNest

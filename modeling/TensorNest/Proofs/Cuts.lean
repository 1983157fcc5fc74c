import TensorNest.Proofs.Following
import TensorNest.Proofs.Partitions

/-! # The cuts of a partitioned statement

Each statement in a partitioned statement stands for one of the statement that is partitioned (`Stmt.Cuts`): its loops
are split into one over a new variable and one over the old one, and where the variable is new the guards on the old one
are dropped. To copy a body once more is to rename one more variable in it (`Cuts.copied`), so that nested loops can be
split one after the other (`Stmt.cuts_partition`). -/

namespace TensorNest

/-! ### Renamings that go together -/

section Mirrors
variable {α β γ : Type} {P : α → β → Prop} {Q : β → γ → Prop} {R : α → γ → Prop} {x : Except Error α} {y : Except Error β}
  {z : Except Error γ}

theorem Mirrors.trans (h : Mirrors P x y) (h' : Mirrors Q y z) (hR : ∀ a b c, P a b → Q b c → R a c) : Mirrors R x z := by
  cases x <;> cases y <;> cases z <;> first | exact h.elim | exact h'.elim | skip
  · exact Eq.trans h h'
  · exact hR _ _ _ h h'

theorem mirrors_refl {P : α → α → Prop} (h : ∀ a, P a a) : Mirrors P x x := by
  cases x with
  | error e => exact rfl
  | ok a => exact h a

theorem Mirrors.to_ok {a : α} (h : Mirrors P x y) (hx : x = .ok a) : ∃ b, y = .ok b ∧ P a b := by
  subst hx
  cases y with
  | error e => exact h.elim
  | ok b => exact ⟨b, rfl, h⟩

end Mirrors

/-- A renaming can be followed by another one: it renames a different variable, and not to one that the other one
    mentions. -/
structure Renaming.Apart (r q : Renaming) : Prop where
  old : r.old.id ≠ q.old.id
  fresh : r.new.id ≠ q.old.id
  new : r.new.id ≠ q.new.id

namespace Expr

variable {r : Renaming} {rs : List Renaming} {e e' e₁ c c' p min min' extent extent' : Expr} {v : Var}
  {points points' : List Expr}

theorem Renames.eq_subst (h : e.Renames r e') : e' = e.subst [(r.old, .var r.new)] := by
  have hlist : ∀ {es es' : List Expr}, (∀ a ∈ es, ∀ {a'}, a.Renames r a' → a' = a.subst [(r.old, .var r.new)]) →
      List.Forall₂ (Renames r) es es' → es' = es.map (·.subst [(r.old, .var r.new)]) := by
    intro es es' ih h
    induction h with
    | nil => rfl
    | cons ha _ ih' =>
      obtain ⟨hfirst, hrest⟩ := List.forall_mem_cons.mp ih
      rw [hfirst ha, ih' hrest, List.map_cons]
  have hoption : ∀ {o o' : Option Expr}, (∀ a ∈ o, ∀ {a'}, a.Renames r a' → a' = a.subst [(r.old, .var r.new)]) →
      Option.Rel (Renames r) o o' → o' = o.map (·.subst [(r.old, .var r.new)]) := by
    rintro _ _ ih (ha | _)
    · rw [ih _ rfl ha, Option.map_some]
    · rfl
  induction e generalizing e' with
  | var v =>
    cases h with
    | old => simp [Expr.subst, Subst.find?]
    | other hold => simp [Expr.subst, Subst.find?, hold.symm]
  | const => cases h; rfl
  | str => cases h; rfl
  | cast t a iha =>
    cases h with | cast ha
    rw [iha ha, Expr.subst]
  | bin op a b iha ihb =>
    cases h with | bin ha hb
    rw [iha ha, ihb hb, Expr.subst]
  | not a iha =>
    cases h with | not ha
    rw [iha ha, Expr.subst]
  | select c a b ihc iha ihb =>
    cases h with | select hc ha hb
    rw [ihc hc, iha ha, ihb hb, Expr.subst]
  | call t name args kind func i ih =>
    cases h with | call hargs
    rw [hlist ih hargs, Expr.subst, subst_onList]
  | bind v a b iha ihb =>
    cases h with | bind _ _ ha hb
    rw [iha ha, ihb hb, Expr.subst]
  | load t a i p iha ihi ihp =>
    cases h with | load ha hi hp
    rw [iha ha, ihi hi, hoption ihp hp, Expr.subst, subst_onOption]
  | ramp a b lanes iha ihb =>
    cases h with | ramp ha hb
    rw [iha ha, ihb hb, Expr.subst]
  | broadcast a lanes iha =>
    cases h with | broadcast ha
    rw [iha ha, Expr.subst]
  | reduce combiner es axes cond i _ _ ihs _ ihc =>
    cases h with | reduce _ hes hc
    rw [hlist ihs hes, hoption ihc hc, Expr.subst, subst_onList, subst_onOption]

theorem Renamed.unique (h : Renamed rs e e') (h' : Renamed rs e e₁) : e₁ = e' := by
  induction rs generalizing e with
  | nil => exact Eq.trans h' (Eq.symm h)
  | cons r rs ih =>
    obtain ⟨a, hr, h⟩ := h
    obtain ⟨b, hr', h'⟩ := h'
    obtain rfl : b = a := hr'.eq_subst.trans hr.eq_subst.symm
    exact ih h h'

/-- An expression that does not mention the new variable, nor the number of the old one for another variable, and binds
    none of the two. -/
structure Admits (r : Renaming) (e : Expr) : Prop where
  vars : ∀ w ∈ e.vars, w.id ≠ r.new.id ∧ (w.id = r.old.id → w = r.old)
  bound : ∀ x ∈ e.boundVars, x ≠ r.old.id ∧ x ≠ r.new.id

/-- The variables of an expression can be renamed one after the other. -/
def Renamable (rs : List Renaming) (e : Expr) : Prop :=
  ∃ e', Renamed rs e e'

theorem renamable_of_admits (hrs : rs.Pairwise Renaming.Apart) (h : ∀ r ∈ rs, e.Admits r) : Renamable rs e := by
  induction rs generalizing e with
  | nil => exact ⟨e, rfl⟩
  | cons r rs ih =>
    obtain ⟨hapart, hrs⟩ := List.pairwise_cons.mp hrs
    obtain ⟨hr, h⟩ := List.forall_mem_cons.mp h
    have hrenames := renames_subst hr.vars hr.bound
    obtain ⟨e', he'⟩ := ih (e := e.subst [(r.old, .var r.new)]) hrs fun q hq => by
      refine ⟨fun w hw => ?_, fun x hx => (h q hq).bound x (hrenames.mem_boundVars_iff.mp hx)⟩
      obtain ⟨rfl, -⟩ | ⟨hw, -⟩ := hrenames.mem_vars_iff.mp hw
      · exact ⟨(hapart q hq).new, fun heq => absurd heq (hapart q hq).fresh⟩
      · exact (h q hq).vars w hw
    exact ⟨e', _, hrenames, he'⟩

/-- One more variable is renamed by a substitution. -/
theorem Renamed.concat (h : Renamed rs e e') (hr : Renamable (rs ++ [r]) e) :
    Renamed (rs ++ [r]) e (e'.subst [(r.old, .var r.new)]) := by
  obtain ⟨e'', h''⟩ := hr
  obtain ⟨e₁, h₁, hrenames⟩ := renamed_concat.mp h''
  obtain rfl := h.unique h₁
  rwa [← hrenames.eq_subst]

theorem Renamed.splitPoint? (h : Renamed rs c c') (hv : ∀ r ∈ rs, v.id ≠ r.old.id ∧ v.id ≠ r.new.id) :
    Mirrors (Option.Rel (Renamed rs)) (c.splitPoint? v) (c'.splitPoint? v) := by
  induction rs generalizing c with
  | nil =>
    obtain rfl : c' = c := h
    refine mirrors_refl fun o => ?_
    cases o with
    | none => exact .none
    | some p => exact .some rfl
  | cons r rs ih =>
    obtain ⟨c₁, hr, h⟩ := h
    obtain ⟨⟨hold, hnew⟩, hv⟩ := List.forall_mem_cons.mp hv
    refine (hr.splitPoint? hold hnew).trans (ih h hv) ?_
    rintro _ _ _ (hp | _) (hp' | _)
    · exact .some ⟨_, hp, hp'⟩
    · exact .none

theorem Renamable.splitPoint? (h : Renamable rs c) (hv : ∀ r ∈ rs, v.id ≠ r.old.id ∧ v.id ≠ r.new.id)
    (hp : c.splitPoint? v = .ok (some p)) :
    Renamable rs p := by
  obtain ⟨c', hc'⟩ := h
  obtain ⟨o, -, hrel⟩ := (hc'.splitPoint? hv).to_ok hp
  cases hrel with | some hrenamed
  exact ⟨_, hrenamed⟩

/-- The bounds of the two loops that a renamed loop is split into. -/
theorem Renames.splitBounds (hmin : min.Renames r min') (hextent : extent.Renames r extent')
    (hpoints : List.Forall₂ (Renames r) points points') :
    Mirrors (fun b b' => b.1.Renames r b'.1 ∧ b.2.1.Renames r b'.2.1 ∧ b.2.2.Renames r b'.2.2)
      (Stmt.splitBounds min extent points)
      (Stmt.splitBounds min' extent' points') := by
  have hleast : ∀ {e e' : Expr} {ps ps' : List Expr}, e.Renames r e' → List.Forall₂ (Renames r) ps ps' →
      Mirrors (Renames r) (ps.foldlM (fun (p q : Expr) => Expr.minimum p q) e)
        (ps'.foldlM (fun (p q : Expr) => Expr.minimum p q) e') := by
    intro e e' ps ps' he h
    induction h generalizing e e' with
    | nil => exact he
    | cons hp _ ih =>
      rw [List.foldlM_cons, List.foldlM_cons]
      exact (he.arith hp).bind fun _ _ hmin => ih hmin
  have hhead : (points.headD min).Renames r (points'.headD min') := by
    cases hpoints with
    | nil => exact hmin
    | cons hp => exact hp
  have htail : List.Forall₂ (Renames r) points.tail points'.tail := by
    cases hpoints with
    | nil => exact .nil
    | cons _ hps => exact hps
  refine (hleast hhead htail).bind fun p p' hp => (hmin.arith hextent).bind fun stop stop' hstop =>
    (hp.arith hstop).bind fun l l' hl => ?_
  refine (hmin.arith hl).bind fun a a' ha => ha.simplify.bind fun q q' hq => (hq.arith hmin).bind fun d d' hd => ?_
  exact hd.simplify.bind fun k k' hk => (hstop.arith hq).bind fun d d' hd => hd.simplify.bind fun m m' hm => ⟨hq, hk, hm⟩

theorem Renamable.splitBounds {bounds : Expr × Expr × Expr} (hmin : Renamable rs min) (hextent : Renamable rs extent)
    (hpoints : ∀ p ∈ points, Renamable rs p) (hb : Stmt.splitBounds min extent points = .ok bounds) :
    Renamable rs bounds.1 ∧ Renamable rs bounds.2.1 ∧ Renamable rs bounds.2.2 := by
  induction rs generalizing min extent points bounds with
  | nil => exact ⟨⟨_, rfl⟩, ⟨_, rfl⟩, ⟨_, rfl⟩⟩
  | cons r rs ih =>
    have hfirst {e : Expr} (h : Renamable (r :: rs) e) :
        e.Renames r (e.subst [(r.old, .var r.new)]) ∧ Renamable rs (e.subst [(r.old, .var r.new)]) := by
      obtain ⟨e', e₁, hr, h⟩ := h
      obtain rfl := hr.eq_subst
      exact ⟨hr, e', h⟩
    have hpoints' : List.Forall₂ (Renames r) points (points.map (·.subst [(r.old, .var r.new)])) :=
      List.forall₂_map_right_iff.mpr (List.forall₂_same.mpr fun p hp => (hfirst (hpoints p hp)).1)
    obtain ⟨bounds', hb', h₁, h₂, h₃⟩ := ((hfirst hmin).1.splitBounds (hfirst hextent).1 hpoints').to_ok hb
    obtain ⟨⟨q, hq⟩, ⟨k, hk⟩, ⟨m, hm⟩⟩ := ih (hfirst hmin).2 (hfirst hextent).2 (List.forall_mem_map.mpr fun p hp =>
      (hfirst (hpoints p hp)).2) hb'
    exact ⟨⟨q, _, h₁, hq⟩, ⟨k, _, h₂, hk⟩, ⟨m, _, h₃, hm⟩⟩

end Expr

/-! ### Statements that are cut -/

namespace Stmt

variable {r : Renaming} {rs : List Renaming} {s t t' body b : Stmt} {bs : List Stmt} {e c p : Expr} {N m n : Nat} {v : Var}
  {constLoops : Bool} {E E' : Expr → Expr → Prop} {B B' P : Stmt → Stmt → Prop} {σ : Subst}

/-- A statement that does not mention the new variable, nor the number of the old one for another variable, and binds
    none of the two. -/
structure Admits (r : Renaming) (s : Stmt) : Prop where
  vars : ∀ w ∈ s.vars, w.id ≠ r.new.id ∧ (w.id = r.old.id → w = r.old)
  bound : ∀ x ∈ s.boundIds, x ≠ r.old.id ∧ x ≠ r.new.id

theorem Admits.expr (h : s.Admits r) (he : e ∈ s.exprParts) : e.Admits r where
  vars w hw := h.vars w (mem_vars.mpr (.inl ⟨e, he, hw⟩))
  bound x hx := h.bound x (mem_boundIds.mpr (.inr (.inr (List.mem_flatMap.mpr ⟨e, he, hx⟩))))

theorem Admits.condition (h : s.Admits r) (hc : c ∈ s.conditions) : c.Admits r where
  vars w hw := h.vars w (mem_vars_of_mem_conditions hc hw)
  bound x hx := h.bound x (mem_boundIds_of_mem_conditions hc hx)

theorem Admits.of_body (h : s.Admits r) (hb : b ∈ s.bodies) : b.Admits r where
  vars w hw := h.vars w (mem_vars.mpr (.inr ⟨b, hb, hw⟩))
  bound x hx := h.bound x (mem_boundIds.mpr (.inl ⟨b, hb, hx⟩))

/-- The variable of a loop that can be split can be renamed in the body of the loop. -/
theorem Splits.admits (h : Splits r.old body) (hbody : body.Splittable N) (hr : N ≤ r.new.id) : body.Admits r where
  vars w hw := ⟨fun heq => Nat.not_lt.mpr hr (heq ▸ hbody.numbered _ (mem_freeIds_or_boundIds hw)), h.same w hw⟩
  bound _ hx := ⟨fun heq => h.unbound (heq ▸ hx), fun heq => Nat.not_lt.mpr hr (heq ▸ hbody.numbered _ (.inr hx))⟩

theorem Alters.bodies (h : Alters E B s t) : List.Forall₂ B s.bodies t.bodies := by
  cases h with
  | store | provide | prefetch | eval => exact .nil
  | seq hss => exact hss
  | branch _ ha ho =>
    refine .cons ha ?_
    cases ho with
    | none => exact .nil
    | some ho => exact .cons ho .nil
  | bind _ hb | attr _ hb | assert _ _ hb | loop _ _ hb | allocate _ _ hb | realize _ _ hb => exact .cons hb .nil

/-- A statement of which the bodies are replaced and in which expressions are put for variables alters what it altered. -/
theorem Alters.rebuild (h : Alters E B s t) (hbs : List.Forall₂ P t.bodies bs)
    (hE : ∀ e ∈ s.exprParts, ∀ e', E e e' → E' e (e'.subst σ))
    (hB : ∀ b ∈ s.bodies, ∀ b', B b b' → ∀ b'', P b' b'' → B' b (b''.subst σ)) :
    Alters E' B' s ((t.withBodies bs).subst σ) := by
  have hlist {es es' : List Expr} (hes : ∀ e ∈ es, e ∈ s.exprParts) (h : List.Forall₂ E es es') :
      List.Forall₂ E' es (es'.map (·.subst σ)) :=
    List.forall₂_map_right_iff.mpr (((List.forall₂_and_left _ _).mpr ⟨hes, h⟩).imp fun e e' h => hE e h.1 e' h.2)
  have hranges {xs xs' : List Range} (hxs : ∀ x ∈ xs, x.min ∈ s.exprParts ∧ x.extent ∈ s.exprParts)
      (h : List.Forall₂ (fun x x' => E x.min x'.min ∧ E x.extent x'.extent) xs xs') :
      List.Forall₂ (fun x x' => E' x.min x'.min ∧ E' x.extent x'.extent) xs (xs'.map (·.subst σ)) :=
    List.forall₂_map_right_iff.mpr (((List.forall₂_and_left _ _).mpr ⟨hxs, h⟩).imp fun x x' h =>
      ⟨hE _ h.1.1 _ h.2.1, hE _ h.1.2 _ h.2.2⟩)
  cases h with
  | bind he hb =>
    cases hbs with | cons hb' hbs
    cases hbs
    exact .bind (hE _ (by simp) _ he) (hB _ (by simp) _ hb _ hb')
  | attr he hb =>
    cases hbs with | cons hb' hbs
    cases hbs
    exact .attr (hE _ (by simp) _ he) (hB _ (by simp) _ hb _ hb')
  | assert hc he hb =>
    cases hbs with | cons hb' hbs
    cases hbs
    exact .assert (hE _ (by simp) _ hc) (hE _ (by simp) _ he) (hB _ (by simp) _ hb _ hb')
  | loop hmin hextent hb =>
    cases hbs with | cons hb' hbs
    cases hbs
    exact .loop (hE _ (by simp) _ hmin) (hE _ (by simp) _ hextent) (hB _ (by simp) _ hb _ hb')
  | store hbuffer hvalue hindex hp =>
    cases hbs
    refine .store (hE _ (by simp) _ hbuffer) (hE _ (by simp) _ hvalue) (hE _ (by simp) _ hindex) ?_
    cases hp with
    | none => exact .none
    | some hp => exact .some (hE _ (by simp) _ hp)
  | provide hvalue hargs =>
    cases hbs
    exact .provide (hE _ (by simp) _ hvalue) (hlist (by simp +contextual) hargs)
  | allocate hextents hc hb =>
    cases hbs with | cons hb' hbs
    cases hbs
    exact .allocate (hlist (by simp +contextual) hextents) (hE _ (by simp) _ hc) (hB _ (by simp) _ hb _ hb')
  | realize hbounds hc hb =>
    cases hbs with | cons hb' hbs
    cases hbs
    refine .realize (hranges (fun x hx => ?_) hbounds) (hE _ (by simp) _ hc) (hB _ (by simp) _ hb _ hb')
    exact ⟨List.mem_append_left _ (List.mem_flatMap.mpr ⟨x, hx, by simp⟩),
      List.mem_append_left _ (List.mem_flatMap.mpr ⟨x, hx, by simp⟩)⟩
  | prefetch hbounds =>
    cases hbs
    exact .prefetch (hranges (fun x hx => ⟨List.mem_flatMap.mpr ⟨x, hx, by simp⟩,
      List.mem_flatMap.mpr ⟨x, hx, by simp⟩⟩) hbounds)
  | @seq ss ss' hss =>
    have hall : ∀ {ss ss' bs : List Stmt}, (∀ b ∈ ss, ∀ b', B b b' → ∀ b'', P b' b'' → B' b (b''.subst σ)) →
        List.Forall₂ B ss ss' →
        List.Forall₂ P ss' bs → List.Forall₂ B' ss (subst.onStmts σ bs) := by
      intro ss ss' bs hB hss hbs
      induction hss generalizing bs with
      | nil =>
        cases hbs
        exact .nil
      | cons hb _ ih =>
        cases hbs with | cons hb' hbs
        obtain ⟨hfirst, hrest⟩ := List.forall_mem_cons.mp hB
        exact .cons (hfirst _ hb _ hb') (ih hrest hbs)
    exact .seq (hall hB hss hbs)
  | branch hc ha ho =>
    cases hbs with | cons ha' hbs
    cases ho with
    | none =>
      cases hbs
      exact .branch (hE _ (by simp) _ hc) (hB _ (by simp) _ ha _ ha') .none
    | some ho =>
      cases hbs with | cons ho' hbs
      cases hbs
      exact .branch (hE _ (by simp) _ hc) (hB _ (by simp) _ ha _ ha') (.some (hB _ (by simp) _ ho _ ho'))
  | eval he =>
    cases hbs
    exact .eval (hE _ (by simp) _ he)

theorem alters_withBodies (h : List.Forall₂ B s.bodies bs) (hE : ∀ e ∈ s.exprParts, E e e) :
    Alters E B s (s.withBodies bs) := by
  have hlist {es : List Expr} (h : ∀ e ∈ es, E e e) : List.Forall₂ E es es := List.forall₂_same.mpr h
  have hranges {rs : List Range} (h : ∀ e ∈ rs.flatMap fun r => [r.min, r.extent], E e e) :
      List.Forall₂ (fun x x' => E x.min x'.min ∧ E x.extent x'.extent) rs rs :=
    List.forall₂_same.mpr fun x hx => ⟨h _ (List.mem_flatMap.mpr ⟨x, hx, by simp⟩),
      h _ (List.mem_flatMap.mpr ⟨x, hx, by simp⟩)⟩
  cases s with
  | bind =>
    cases h with | cons hb h
    cases h
    exact .bind (hE _ (by simp)) hb
  | attr =>
    cases h with | cons hb h
    cases h
    exact .attr (hE _ (by simp)) hb
  | assert =>
    cases h with | cons hb h
    cases h
    exact .assert (hE _ (by simp)) (hE _ (by simp)) hb
  | loop =>
    cases h with | cons hb h
    cases h
    exact .loop (hE _ (by simp)) (hE _ (by simp)) hb
  | store buffer value index pred =>
    cases h
    refine .store (hE _ (by simp)) (hE _ (by simp)) (hE _ (by simp)) ?_
    cases pred with
    | none => exact .none
    | some p => exact .some (hE _ (by simp))
  | provide =>
    cases h
    exact .provide (hE _ (by simp)) (hlist fun e he => hE e (List.mem_cons_of_mem _ he))
  | allocate =>
    cases h with | cons hb h
    cases h
    exact .allocate (hlist fun e he => hE e (List.mem_append_left _ he)) (hE _ (by simp)) hb
  | realize =>
    cases h with | cons hb h
    cases h
    exact .realize (hranges fun e he => hE e (List.mem_append_left _ he)) (hE _ (by simp)) hb
  | prefetch =>
    cases h
    exact .prefetch (hranges hE)
  | seq ss => exact .seq h
  | branch c a o =>
    cases o with
    | none =>
      cases h with | cons ha h
      cases h
      exact .branch (hE _ (by simp)) ha .none
    | some o =>
      cases h with | cons ha h
      cases h with | cons ho h
      cases h
      exact .branch (hE _ (by simp)) ha (.some ho)
  | eval e =>
    cases h
    exact .eval (hE _ (by simp))

/-- A loop is split into two loops of some bounds, at the points where the guards on its variable in its body start to
    fail. -/
def CutAt (constLoops : Bool) (v : Var) (min extent : Expr) (body : Stmt) (bounds : Expr × Expr × Expr) : Prop :=
  (extent.isConst = true → constLoops = true) ∧ ∃ points, points ≠ [] ∧
    (∀ p, p ∈ points ↔ ∃ c ∈ body.conditions, c.splitPoint? v = .ok (some p)) ∧ splitBounds min extent points = .ok bounds

/-- What partitioning makes of a statement, with variables renamed. New variables have numbers from `N` on, below `n`. A
    statement keeps its kind, or it is a loop that is split at all guards on its variable, or a guard on a variable that is
    renamed, of which only what is guarded is left. -/
inductive Cuts (N n : Nat) (constLoops : Bool) : List Renaming → Stmt → Stmt → Prop
  | node {rs : List Renaming} {s t : Stmt} {B : Stmt → Stmt → Prop} (h : Alters (Expr.Renamed rs) B s t)
    (hB : ∀ b b', B b b' → Cuts N n constLoops rs b b') : Cuts N n constLoops rs s t
  | drop {rs : List Renaming} {r : Renaming} {c p : Expr} {onTrue t : Stmt} {onFalse : Option Stmt} (hr : r ∈ rs)
    (hc : c.splitPoint? r.old = .ok (some p)) (h : Cuts N n constLoops rs onTrue t) :
    Cuts N n constLoops rs (branch c onTrue onFalse) t
  | split {rs : List Renaming} {r : Renaming} {min extent min' point first last : Expr} {kind : LoopKind}
      {body copy rest : Stmt}
    {bounds : Expr × Expr × Expr} (hlow : N ≤ r.new.id) (hhigh : r.new.id < n) (hapart : ∀ q ∈ rs, r.Apart q)
    (hcut : CutAt constLoops r.old min extent body bounds) (hmin : Expr.Renamed rs min min')
    (hpoint : Expr.Renamed rs bounds.1 point)
    (hfirst : Expr.Renamed rs bounds.2.1 first) (hlast : Expr.Renamed rs bounds.2.2 last)
    (hcopy : Cuts N n constLoops (r :: rs) body copy)
    (hrest : Cuts N n constLoops rs body rest) :
    Cuts N n constLoops rs (loop r.old min extent kind body)
      (seq [loop r.new min' first kind copy, loop r.old point last kind rest])

theorem Cuts.mono (h : Cuts N m constLoops rs s t) (hn : m ≤ n) : Cuts N n constLoops rs s t := by
  induction h with
  | node h _ ih => exact .node h ih
  | drop hr hc _ ih => exact .drop hr hc ih
  | split hlow hhigh hapart hcut hmin hpoint hfirst hlast _ _ ihcopy ihrest =>
    exact .split hlow (hhigh.trans_le hn) hapart hcut hmin hpoint hfirst hlast ihcopy ihrest

/-- Where no variable is renamed, all conditions are left. -/
theorem Cuts.conditions (h : Cuts N n constLoops [] s t) (hc : c ∈ s.conditions) : c ∈ t.conditions := by
  generalize hrs : ([] : List Renaming) = rs at h
  induction h with
  | node h _ ih =>
    subst hrs
    obtain ⟨b, hb, hc⟩ | hc := mem_conditions.mp hc
    · obtain ⟨b', hb', hrel⟩ := exists_of_forall₂ h.bodies.flip b hb
      exact mem_conditions.mpr (.inl ⟨b', hb', ih b b' hrel hc rfl⟩)
    · cases h with
      | branch heq =>
        obtain rfl := heq
        exact mem_conditions.mpr (.inr hc)
      | _ => cases hc
  | drop hr =>
    subst hrs
    cases hr
  | split _ _ _ _ _ _ _ _ _ _ _ ihrest =>
    subst hrs
    exact mem_conditions_seq.mpr ⟨_, List.mem_cons_of_mem _ List.mem_cons_self,
      mem_conditions_loop.mpr (ihrest (mem_conditions_loop.mp hc) rfl)⟩

/-- A copy without the guards on a variable, and with a new variable in its place. -/
theorem Cuts.copied {m : Nat} (h : Cuts N n constLoops rs s t) (hs : s.Splittable N)
    (hrs : (rs ++ [r]).Pairwise Renaming.Apart)
    (hnumbers : ∀ q ∈ rs ++ [r], q.old.id < N ∧ N ≤ q.new.id) (hadmits : ∀ q ∈ rs ++ [r], s.Admits q) (hn : n ≤ r.new.id)
    (hm : r.new.id < m) (ht : t.withoutGuards r.old = .ok t') :
    Cuts N m constLoops (rs ++ [r]) s (t'.subst [(r.old, .var r.new)]) := by
  induction h generalizing t' with
  | @node rs s t B h hB ih =>
    obtain ⟨bs, hbs, rfl⟩ | ⟨c', p', onTrue', onFalse', rfl, hsplit, htrue⟩ := withoutGuards_cases ht
    · refine .node (h.rebuild hbs (fun e he e' hr => hr.concat (Expr.renamable_of_admits hrs fun q hq =>
        (hadmits q hq).expr he))
        fun b hb b' hb' b'' hrun => ?_) fun _ _ => id
      exact ih b b' hb' (hs.of_body hb) hrs hnumbers (fun q hq => (hadmits q hq).of_body hb) hrun
    · cases h with | @branch c _ onTrue _ onFalse _ hc ha ho
      have hv : ∀ q ∈ rs, r.old.id ≠ q.old.id ∧ r.old.id ≠ q.new.id := fun q hq =>
        ⟨((List.pairwise_append.mp hrs).2.2 q hq r (List.mem_singleton_self r)).old.symm, by
          have := (hnumbers r (List.mem_append_right _ (List.mem_singleton_self r))).1
          have := (hnumbers q (List.mem_append_left _ hq)).2
          omega⟩
      obtain ⟨o, ho, hrel⟩ := (hc.splitPoint? hv).of_ok hsplit
      cases hrel
      exact .drop (List.mem_append_right _ (List.mem_singleton_self r)) ho
        (ih _ _ ha (hs.of_body List.mem_cons_self) hrs hnumbers (fun q hq =>
          (hadmits q hq).of_body List.mem_cons_self) htrue)
  | drop hr hc _ ih =>
    exact .drop (List.mem_append_left _ hr) hc
      (ih (hs.of_body List.mem_cons_self) hrs hnumbers (fun q hq => (hadmits q hq).of_body List.mem_cons_self) ht)
  | @split rs q min extent _ _ _ _ kind body _ _ _ hlow hhigh hapart hcut hmin hpoint hfirst hlast _ _ ihcopy ihrest =>
    obtain ⟨-, points, -, hpoints, hbounds⟩ := id hcut
    obtain ⟨bs, hloops, rfl⟩ | ⟨_, _, _, _, heq, -⟩ := withoutGuards_cases ht
    swap
    · cases heq
    have hloop {v : Var} {min extent : Expr} {t t' : Stmt} (h : (loop v min extent kind t).withoutGuards r.old = .ok t') :
        ∃ u, t.withoutGuards r.old = .ok u ∧ t' = loop v min extent kind u := by
      obtain ⟨bs, hbodies, rfl⟩ | ⟨_, _, _, _, heq, -⟩ := withoutGuards_cases h
      · cases hbodies with | cons hb hnil
        cases hnil
        exact ⟨_, hb, rfl⟩
      · cases heq
    cases hloops with | cons hcopyLoop hloops
    cases hloops with | cons hrestLoop hnil
    cases hnil
    obtain ⟨copy, hcopy, rfl⟩ := hloop hcopyLoop
    obtain ⟨rest, hrest, rfl⟩ := hloop hrestLoop
    have hbody := hs.of_body (b := body) (List.mem_singleton_self _)
    have hv : q.old.id ∈ (loop q.old min extent kind body).boundIds :=
      mem_boundIds.mpr (.inr (.inl (List.mem_singleton_self _)))
    have hsplits := hs.loops (v := q.old) (by rw [stmts_eq]; exact List.mem_append_right _ (List.mem_singleton_self _))
    have hr : r ∈ rs ++ [r] := List.mem_append_right _ (List.mem_singleton_self r)
    have hbodyAdmits : ∀ r' ∈ rs ++ [r], body.Admits r' :=
      fun r' hr' => (hadmits r' hr').of_body (List.mem_singleton_self _)
    have happend : ∀ r' ∈ rs ++ [r], q.Apart r' := List.forall_mem_append.mpr ⟨hapart, List.forall_mem_singleton.mpr
      ⟨((hadmits r hr).bound _ hv).1, fun heq => Nat.not_lt.mpr hlow (heq ▸ (hnumbers r hr).1), (hhigh.trans_le hn).ne⟩⟩
    have hrenamable {e : Expr} (he : e ∈ (loop q.old min extent kind body).exprParts) : Expr.Renamable (rs ++ [r]) e :=
      Expr.renamable_of_admits hrs fun r' hr' => (hadmits r' hr').expr he
    have hrenamablePoints : ∀ p ∈ points, Expr.Renamable (rs ++ [r]) p := by
      intro p hp
      obtain ⟨c, hc, hsplit⟩ := (hpoints p).mp hp
      exact (Expr.renamable_of_admits hrs fun r' hr' => (hbodyAdmits r' hr').condition hc).splitPoint?
        (fun r' hr' => (hadmits r' hr').bound _ hv) hsplit
    obtain ⟨hpoint', hfirst', hlast'⟩ := Expr.Renamable.splitBounds (hrenamable List.mem_cons_self)
      (hrenamable (by simp)) hrenamablePoints hbounds
    refine .split hlow (hhigh.trans_le (hn.trans hm.le)) happend hcut (hmin.concat (hrenamable List.mem_cons_self))
      (hpoint.concat hpoint') (hfirst.concat hfirst') (hlast.concat hlast') ?_ (ihrest hbody hrs hnumbers hbodyAdmits hrest)
    exact ihcopy hbody (List.pairwise_cons.mpr ⟨happend, hrs⟩)
      (List.forall_mem_cons.mpr ⟨⟨hs.numbered _ (.inr hv), hlow⟩, hnumbers⟩)
      (List.forall_mem_cons.mpr ⟨hsplits.admits hbody hlow, hbodyAdmits⟩) hcopy

theorem cuts_partition {g g' : Graph} (hs : s.Splittable g.next) (hrun : (s.partition constLoops).Yields g t g') :
    Cuts g.next g'.next constLoops [] s t := by
  have hboth := (partition_induct
    (P := fun n s t => s.Splittable g.next → s.Narrows (s.Renamable g.next n) t ∧ Cuts g.next n constLoops [] s t)
    (fun {m n s t} hn h hs => ?_) (fun {n s bs} h hs => ?_)
    (fun {k v min extent kind body body' unguarded points bounds} hN h hconst hpoints hne hbounds hunguarded hs => ?_)
    (Nat.le_refl _) hrun).2 hs
  · exact hboth.2
  · exact ⟨(h hs).1.mono fun x hx => hx.imp_right fun hx => ⟨hx.1, hx.2.trans_le hn⟩, (h hs).2.mono hn⟩
  · have hbodies := ((List.forall₂_and_left _ _).mpr ⟨fun b hb => hs.of_body hb, h⟩).imp fun _ _ ⟨hb, h⟩ => h hb
    exact ⟨narrows_kept (hbodies.imp fun _ _ => And.left),
      .node (alters_withBodies hbodies fun _ _ => rfl) fun _ _ => And.right⟩
  · have hmem : body ∈ (loop v min extent kind body).bodies := List.mem_singleton_self _
    have hbody := hs.of_body hmem
    obtain ⟨hnarrow, hcuts⟩ := h hbody
    have hv : v.id < g.next := hs.numbered _ (.inr (mem_boundIds.mpr (.inr (.inl (List.mem_singleton_self _)))))
    have hsplits := hs.loops (v := v) (by rw [stmts_eq]; exact List.mem_append_right _ (List.mem_singleton_self _))
    have hcopy := hcuts.copied (r := replacement v k) (m := k + 1) hbody (List.pairwise_singleton _ _)
      (List.forall_mem_singleton.mpr ⟨hv, hN⟩) (List.forall_mem_singleton.mpr (hsplits.admits hbody hN)) (Nat.le_refl k)
      (Nat.lt_succ_self k) hunguarded
    refine ⟨narrows_splitAt hN hs hnarrow hpoints hbounds hunguarded,
      .split (r := replacement v k) hN (Nat.lt_succ_self k) nofun
      ⟨hconst, points, hne, fun p => ⟨exists_condition_of_narrows hs hnarrow hpoints, ?_⟩, hbounds⟩ rfl rfl rfl rfl hcopy
      (hcuts.mono (Nat.le_succ k))⟩
    rintro ⟨c, hc, hsplit⟩
    exact mem_splitPoints hpoints (hcuts.conditions hc) hsplit

end Stmt

end TensorNest

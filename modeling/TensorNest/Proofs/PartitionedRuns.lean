import TensorNest.Proofs.Cuts
import TensorNest.Proofs.Magnitudes
import TensorNest.Proofs.SplitPoints

/-! # Partitioned statements run like the statement

Wherever a statement is reached, what partitioning makes of it does what it does (`Stmt.Cuts.follows`): the first one of
the two loops that a loop is split into ends before any of the guards that it lacks would fail, and the two go through
the values of the loop. This needs guards and bounds that are index arithmetic over the variables alone, and that is
computed without overflow wherever execution comes to it (`Stmt.Ready`). -/

namespace TensorNest

/-! ### Integers in environments -/

namespace Value

/-- The integer that a number is. -/
def integer : Value → Int
  | number x | scalar _ x => x.asInt?.getD 0
  | _ => 0

/-- An integer that is converted to an integer type is a number of the type. -/
theorem cast_int {t : DataType} {i : Int} {x : Value} {m : Memory} (ht : t.IsIndex)
    (h : (number (.int i)).cast m t = .ok x) :
    ∃ et, t.elemType = .ok et ∧ x = scalar et (.int i) := by
  have hhandle : t.isHandle = false := by
    have hinteger := ht.integer
    simp only [DataType.isInteger, DataType.isInt, DataType.isUInt, DataType.isHandle, Bool.and_eq_true, Bool.or_eq_true,
      beq_iff_eq]
      at hinteger ⊢
    obtain ⟨hcode | hcode, -⟩ := hinteger <;> rw [hcode] <;> rfl
  have hofNumber {et : ElemType} {y : Number} (hint : et = .int t.bits ∨ et = .uint t.bits)
    (hy : et.ofNumber (.int i) = .ok y) : y = .int i := by
    have hnumber : et.ofNumber (.int i) = if et.holds i then .ok (.int i) else .error .overflow := by
      obtain rfl | rfl := hint <;> rfl
    rw [hnumber] at hy
    split at hy
    · exact (Except.ok.inj hy).symm
    · cases hy
  unfold cast at h
  rw [hhandle, if_neg Bool.false_ne_true, ht.element] at h
  obtain ⟨et, het, h⟩ := bind_eq_ok.mp h
  have hlanes : ¬ 1 < t.lanes := by rw [ht.scalar]; decide
  simp only [hlanes, if_false] at h
  obtain ⟨a, ha, h⟩ := bind_eq_ok.mp h
  cases ha
  obtain ⟨b, hb, h⟩ := bind_eq_ok.mp h
  obtain ⟨c, hc, hb⟩ := bind_eq_ok.mp hb
  obtain ⟨y, hy, hc⟩ := bind_eq_ok.mp hc
  cases hc
  cases hb
  cases h
  exact ⟨et, het, by rw [hofNumber ((DataType.elemType_integer ht het).imp And.left And.left) hy]; rfl⟩

end Value

namespace Env

/-- The integers that variables have for values. -/
def integers (env : Env) : Valuation Int := fun x => ((env.lookup x).map Value.integer).getD 0

end Env

namespace Expr

/-- An expression has in an environment the value that it has over the integers without bounds: none of its operations
    overflows. -/
def Exact (env : Env) (e : Expr) : Prop :=
  e.HasCount env (e.integer env.integers)

end Expr

theorem Run.may_pure {α : Type} (a : α) : (pure a : Run α).May a := ⟨{ memory := #[] }, _, rfl⟩

namespace Thread

variable {α β : Type} {f : Frame} {g : Nat → Nat} {ρ : Env} {v v' : Var} {n : Int} {e : Expr} {l : Local} {m : Machine}

theorem count_of_hasCount (h : e.HasCount ρ n) : count f ρ e = pure n := by
  obtain ⟨x, hx, hn⟩ := h
  funext m
  unfold count
  rw [hx f]
  show (liftM (x.toInt m.memory) : Run Int) m = _
  rw [hn]
  rfl

/-- The counter of a loop over an index variable has the value of the loop. -/
theorem integer_of_counter {t : DataType} {i : Int} {x : Value} (ht : t.IsIndex)
    (hx : (do place (← convertTo t (.number (.int i))) : Run Value).May x) : x.integer = i := by
  obtain ⟨m, m', hrun⟩ := hx
  obtain ⟨a, m₁, hconvert, hplace⟩ := Run.on_bind_eq_ok.mp hrun
  have hcast : (Value.number (.int i)).cast m.memory t = .ok a := congrArg Prod.fst hconvert
  obtain ⟨et, -, rfl⟩ := Value.cast_int ht hcast
  cases hplace
  rfl

theorem forRange_add (turn : Int → Thread Unit) (first : Int) (k n : Nat) (l : Local) (m : Machine) :
    (forRange turn first (k + n)).start l m = (forRange turn first k >>= fun _ =>
      forRange turn (first + k) n).start l m := by
  induction k generalizing first l m with
  | zero =>
    rw [Nat.zero_add, start_bind, Int.natCast_zero, Int.add_zero]
    rfl
  | succ k ih =>
    have hsucc (n : Nat) : forRange turn first (n + 1) = turn first >>= fun _ => forRange turn (first + 1) n := rfl
    rw [Nat.succ_add, hsucc, start_bind, start_bind, hsucc, start_bind, Resumption.bind_assoc]
    congr 1
    funext r m'
    rcases r with ⟨_ | _, l'⟩
    · rfl
    · dsimp only
      rw [ih, start_bind, Int.add_assoc, Int.add_comm 1 (k : Int), Int.natCast_succ]

theorem Leads.congr {g' : Nat → Nat} {ρ' : Env} {x x' y y' : Thread α} (h : Leads g ρ g' ρ' x' y')
    (hx : ∀ l m, ρ.Carries id l.env → x.start l m = x'.start l m)
    (hy : ∀ l m, ρ.Carries g l.env → y.start l m = y'.start l m) :
    Leads g ρ g' ρ' x y := fun l l' m hl hl' => hx l m hl ▸ hy l' m hl' ▸ h l l' m hl hl'

theorem start_bind_pure (x : Thread Unit) (l : Local) (m : Machine) : (x >>= fun _ => pure ()).start l m = x.start l m := by
  rw [start_bind]
  generalize x.start l m = r
  induction r with
  | done r m =>
    rcases r with ⟨_ | _, l⟩ <;> rfl
  | wait m resume ih => exact congrArg (Resumption.wait m) (funext ih)

/-- What comes first in a scope is done in a scope of its own. -/
theorem Follows.halves {x₁ x₂ y₁ y₂ : Thread Unit} (h₁ : Follows g ρ x₁ y₁) (h₂ : Follows g ρ (ensuring x₂ (unbind v)) y₂)
    (hv : ρ.Opens id id v v) (hnew : ∀ env, ρ.Carries g env → ρ.Carries g (env.erase v')) :
    Follows g ρ (ensuring (x₁ >>= fun _ => x₂) (unbind v)) (ensuring y₁ (unbind v') >>= fun _ => y₂) := by
  intro l l' m hl hl'
  have hunbind (v : Var) (l : Local) (m : Machine) : (unbind v).start l m =
    .done (.ok (), { l with env := l.env.erase v }) m := rfl
  rw [start_ensuring, start_bind, Resumption.bind_assoc, start_bind, start_ensuring, Resumption.bind_assoc]
  refine (h₁ l l' m hl hl').bind fun r r' m' hr => ?_
  obtain ⟨r, l₁⟩ := r
  obtain ⟨r', l₁'⟩ := r'
  obtain rfl : r = r' := hr.result
  cases r with
  | error e => exact .done ⟨rfl, hv.carries_erase hr.left, hnew _ hr.right⟩
  | ok u =>
    simp only [hunbind, Resumption.bind]
    have hlast := h₂ l₁ { l₁' with env := l₁'.env.erase v' } m' hr.left (hnew _ hr.right)
    rwa [start_ensuring] at hlast

end Thread

/-! ### Statements that execution comes to -/

namespace Stmt

variable {f : Frame} {ρ σ : Env} {s t b body : Stmt} {o : Option (Var × Value)} {Γ : Context} {N n : Nat}
  {constLoops : Bool} {v : Var}
  {min extent c p : Expr} {kind : LoopKind} {x : Nat}

theorem Enters.mem_bodies (h : Enters f ρ s b o) : b ∈ s.bodies := by
  cases h with
  | body _ hb => exact hb
  | _ => exact List.mem_singleton_self _

theorem Enters.binder? (h : Enters f ρ s b o) : o.map (·.1) = s.binder? := by
  cases h with
  | body hs => exact hs.symm
  | _ => rfl

/-- The execution of a statement where variables have some values can come to another one where they have some values. -/
inductive Reaches (f : Frame) : Env → Stmt → Env → Stmt → Prop
  | self {ρ : Env} {s : Stmt} : Reaches f ρ s ρ s
  | enter {ρ σ : Env} {s b t : Stmt} {o : Option (Var × Value)} (h : Enters f ρ s b o) (ht : Reaches f (ρ.enter o) b σ t) :
    Reaches f ρ s σ t

/-- The guards on the variables of loops are index arithmetic, and so are the bounds of the loops that have any. -/
def Indexed (Γ : Context) (s : Stmt) : Prop :=
  ∀ {v min extent kind body}, loop v min extent kind body ∈ s.stmts →
    ∀ c ∈ body.conditions, ∀ p, c.splitPoint? v = .ok (some p) →
    c.IsGuard Γ ∧ v.dtype.IsIndex ∧ (∃ t, min.Scalar Γ t) ∧ ∃ t, extent.Scalar Γ t

/-- The arithmetic of a guard does not overflow, nor that of the bounds of a loop and of the two that it is split into. -/
def Exact (Γ : Context) (constLoops : Bool) (ρ : Env) : Stmt → Prop
  | branch c _ _ => c.IsGuard Γ → c.HasTruth ρ (c.integer ρ.integers != 0)
  | loop v min extent _ body => ∀ bounds, CutAt constLoops v min extent body bounds →
    ∀ e ∈ [min, extent, bounds.1, bounds.2.1, bounds.2.2], e.Exact ρ
  | _ => True

/-- A statement that can be executed where variables have some values: its free variables have values and those that it
    binds have none, and wherever it comes to, guards and bounds do not overflow. -/
structure Ready (f : Frame) (Γ : Context) (constLoops : Bool) (N : Nat) (ρ : Env) (s : Stmt) : Prop where
  splittable : s.Splittable N
  runnable : s.Runnable
  host : f.coords.isSome → ∀ t ∈ s.stmts, ∀ site v u extents c b, t ≠ Stmt.allocate site v u extents c b
  indexed : s.Indexed Γ
  valued : ∀ x ∈ s.freeIds, ρ.Has x
  known : ∀ x, ρ.Has x → x < N ∧ x ∉ s.binders
  exact : ∀ σ t, Reaches f ρ s σ t → t.Exact Γ constLoops σ

section Ready

theorem has_enter : (ρ.enter o).Has x ↔ ρ.Has x ∨ ∃ v ∈ o.map (·.1), x = v.id := by
  cases o with
  | none => simp [Env.enter]
  | some p => simp [Env.enter, Env.has_set, or_comm]

variable (hs : s.Ready f Γ constLoops N ρ)
include hs

theorem Ready.fresh (hv : v ∈ s.binder?) : ¬ρ.Has v.id := fun h => (hs.known _ h).2 (mem_binders.mpr (.inr ⟨v, hv, rfl⟩))

theorem Ready.binder_lt (hv : v ∈ s.binder?) : v.id < N :=
  hs.splittable.numbered _ (.inr (mem_boundIds.mpr (.inr (.inl (List.mem_map_of_mem (Option.mem_toList.mpr hv))))))

theorem Ready.enter (hb : Enters f ρ s b o) : b.Ready f Γ constLoops N (ρ.enter o) where
  splittable := hs.splittable.of_body hb.mem_bodies
  runnable := hs.runnable.body hb.mem_bodies
  host hf := (forall_mem_stmts.mp (hs.host hf)).1 b hb.mem_bodies
  indexed hmem := hs.indexed (by
    rw [stmts_eq]
    exact List.mem_append_left _ (List.mem_flatMap.mpr ⟨b, hb.mem_bodies, hmem⟩))
  valued x hx := by
    rw [has_enter, hb.binder?]
    refine or_iff_not_imp_right.mpr fun hne => hs.valued x (mem_freeIds.mpr (.inr ⟨⟨b, hb.mem_bodies, hx⟩,
      fun v hv heq => hne ⟨v, hv, heq⟩⟩))
  known x hx := by
    rw [has_enter, hb.binder?] at hx
    obtain hx | ⟨v, hv, rfl⟩ := hx
    · exact ⟨(hs.known x hx).1, fun hmem => (hs.known x hx).2 (mem_binders.mpr (.inl ⟨b, hb.mem_bodies, hmem⟩))⟩
    · exact ⟨hs.binder_lt hv, ((forall_mem_stmts.mp hs.runnable).2).1 v hv b hb.mem_bodies⟩
  exact σ t ht := hs.exact σ t (.enter hb ht)

theorem Ready.lookup_enter (hb : Enters f ρ s b o) (hx : ρ.Has x) : (ρ.enter o).lookup x = ρ.lookup x := by
  cases o with
  | none => rfl
  | some p => exact Env.lookup_set fun heq => hs.fresh (Option.mem_def.mpr hb.binder?.symm) (heq ▸ hx)

omit hs in
/-- Wherever a statement comes to, the variables keep their values. -/
theorem Reaches.keeps (h : Reaches f ρ s σ t) (hs : s.Ready f Γ constLoops N ρ) :
    t.Ready f Γ constLoops N σ ∧ t ∈ s.stmts ∧ ∀ x, ρ.Has x → σ.lookup x = ρ.lookup x := by
  induction h with
  | self => exact ⟨hs, by rw [stmts_eq]; exact List.mem_append_right _ (List.mem_singleton_self _), fun _ _ => rfl⟩
  | enter hb _ ih =>
    obtain ⟨hready, hmem, hkeep⟩ := ih (hs.enter hb)
    refine ⟨hready, by rw [stmts_eq]; exact List.mem_append_left _ (List.mem_flatMap.mpr ⟨_, hb.mem_bodies, hmem⟩),
      fun x hx => ?_⟩
    rw [hkeep x (has_enter.mpr (.inl hx)), hs.lookup_enter hb hx]

end Ready

/-- A guard in the body of a loop holds wherever it is come to as long as the loop is below the split point. -/
theorem Ready.holds {y : Value} (hs : (loop v min extent kind body).Ready f Γ constLoops N ρ) (hc : c ∈ body.conditions)
    (hp : c.splitPoint? v = .ok (some p)) (henter : Enters f ρ (loop v min extent kind body) body (some (v, y)))
    (hy : y.integer < p.integer ρ.integers) {onTrue : Stmt} {onFalse : Option Stmt}
    (hreach : Reaches f (ρ.set v y) body σ (branch c onTrue onFalse)) :
    c.HasTruth σ true := by
  have hbody := hs.enter henter
  obtain ⟨hready, -, hkeep⟩ := hreach.keeps hbody
  obtain ⟨hguard, -⟩ := hs.indexed (by rw [stmts_eq]; exact List.mem_append_right _ (List.mem_singleton_self _)) c hc p hp
  have htruth : c.HasTruth σ (c.integer σ.integers != 0) := hready.exact σ _ .self hguard
  have hcounter : σ.integers v.id = y.integer := by
    rw [Env.integers, hkeep v.id (Env.has_set.mpr (.inl rfl)), Env.lookup_set_self]
    rfl
  have hpoint : p.integer σ.integers = p.integer ρ.integers := by
    refine Expr.value_congr (fun _ _ => rfl) fun x hx => ?_
    have hx : ρ.Has x := hs.valued x ((within_splitPoint hs.splittable hc hp).free x hx)
    rw [Env.integers, Env.integers, hkeep x (Env.has_set.mpr (.inr hx)), Env.lookup_set fun heq => hs.fresh rfl (heq ▸ hx)]
  rwa [(hguard.splitPoint? hp σ.integers).2, hcounter, hpoint, decide_eq_true hy] at htruth

/-! ### Runs -/

/-- A turn of a loop. -/
def turn (f : Frame) (v : Var) (body : Stmt) (i : Int) : Thread Unit := do
  let x ← Thread.ofRun do place (← convertTo v.dtype (.number (.int i)))
  Thread.bind v x
  body.exec f

theorem start_loop {a k : Int} {l : Local} {m : Machine} (hmin : Thread.count f l.env min = pure a)
    (hextent : Thread.count f l.env extent = pure k) :
    ((loop v min extent kind body).exec f).start l m =
      (Thread.ensuring (Thread.forRange (turn f v body) a k.toNat) (Thread.unbind v)).start l m := by
  have hdone (n : Int) : (Thread.ofRun (pure n)).start l m = .done (.ok n, l) m := rfl
  unfold exec
  rw [Thread.start_bind, Thread.start_integer_eq, hmin, hdone]
  dsimp only [Resumption.bind]
  rw [Thread.start_bind, Thread.start_integer_eq, hextent, hdone]
  rfl

theorem start_branch_of_true {onTrue : Stmt} {onFalse : Option Stmt} {l : Local} {m : Machine} (hc : c.HasTruth ρ true)
    (hl : ∀ x ∈ c.freeIds, l.env.lookup x = ρ.lookup x) :
    ((branch c onTrue onFalse).exec f).start l m = (onTrue.exec f).start l m := by
  have hexec : (branch c onTrue onFalse).exec f = Thread.holds f c >>= fun b =>
    if b then onTrue.exec f else exec.otherwise f onFalse := by
    rw [exec]
  rw [hexec, Thread.start_bind, Thread.start_hasTruth hc hl]
  rfl

section Along
variable {r : Renaming} {rs : List Renaming}

theorem along_of_ne (h : ∀ r ∈ rs, x ≠ r.old.id) : Renaming.along rs x = x := by
  induction rs with
  | nil => rfl
  | cons r rs ih =>
    obtain ⟨hr, h⟩ := List.forall_mem_cons.mp h
    show Renaming.along rs (r.at x) = x
    rw [Renaming.at_of_ne hr, ih h]

theorem along_cases (rs : List Renaming) (x : Nat) : Renaming.along rs x = x ∨
    ∃ r ∈ rs, Renaming.along rs x = r.new.id := by
  induction rs generalizing x with
  | nil => exact .inl rfl
  | cons r rs ih =>
    show Renaming.along rs (r.at x) = x ∨ _
    obtain h | ⟨q, hq, h⟩ := ih (r.at x)
    · by_cases hx : x = r.old.id
      · exact .inr ⟨r, List.mem_cons_self, h.trans (hx ▸ r.at_old)⟩
      · exact .inl (h.trans (Renaming.at_of_ne hx))
    · exact .inr ⟨q, List.mem_cons_of_mem _ hq, h⟩

/-- A variable that is bound and not renamed. -/
theorem opens_along (hrs : ∀ r ∈ rs, ρ.Has r.old.id ∧ N ≤ r.new.id) (hv : ¬ρ.Has v.id) (hlt : v.id < N) :
    ρ.Opens (Renaming.along rs) (Renaming.along rs) v v where
  fresh := hv
  name := along_of_ne fun r hr heq => hv (heq ▸ (hrs r hr).1)
  other x hx := by
    refine ⟨rfl, fun heq => ?_⟩
    obtain hsame | ⟨r, hr, hnew⟩ := along_cases rs x
    · exact hv ((hsame.symm.trans heq) ▸ hx)
    · have := (hrs r hr).2
      omega

/-- A variable that is bound and renamed to a new one. -/
theorem opens_new (hv : ¬ρ.Has r.old.id) (hnew : ∀ x, ρ.Has x → x ≠ r.new.id) (hapart : ∀ q ∈ rs, r.Apart q) :
    ρ.Opens (Renaming.along rs) (Renaming.along (r :: rs)) r.old r.new where
  fresh := hv
  name := by
    show Renaming.along rs (r.at r.old.id) = r.new.id
    rw [r.at_old, along_of_ne fun q hq => (hapart q hq).fresh]
  other x hx := by
    refine ⟨congrArg (Renaming.along rs) (Renaming.at_of_ne fun heq => hv (heq ▸ hx)), fun heq => ?_⟩
    obtain hsame | ⟨q, hq, hq'⟩ := along_cases rs x
    · exact hnew x hx (hsame ▸ heq)
    · exact (hapart q hq).new (heq ▸ hq')

end Along

theorem follows_turn {g g' : Nat → Nat} {v' : Var} {body' : Stmt} {i : Int} (htype : v'.dtype = v.dtype)
    (hv : ρ.Opens id id v v)
    (hv' : ρ.Opens g g' v v') (h : ∀ y, (do place (← convertTo v.dtype (.number (.int i))) : Run Value).May y →
      Thread.Follows g' (ρ.set v y) (body.exec f)
        (body'.exec f)) : Thread.Follows g ρ (turn f v body i) (turn f v' body' i) := by
  unfold turn
  rw [htype]
  exact Thread.follows_ofRun_bind fun y hy => (h y hy).bound hv hv'

/-- The loops that a loop is split into go from its first value to a point below the split points of the guards in its
    body, and from there to its last value. -/
theorem Ready.bounds {bounds : Expr × Expr × Expr} (hs : (loop v min extent kind body).Ready f Γ constLoops N ρ)
    (hcut : CutAt constLoops v min extent body bounds) :
      ∃ a n k, Thread.count f ρ min = pure a ∧ Thread.count f ρ extent = pure n ∧
      Thread.count f ρ bounds.1 = pure (cut a n k) ∧ Thread.count f ρ bounds.2.1 = pure (cut a n k - a) ∧
        Thread.count f ρ bounds.2.2 = pure (a + n - cut a n k) ∧ v.dtype.IsIndex ∧
          (∀ c ∈ body.conditions, ∀ p, c.splitPoint? v = .ok (some p) → k ≤ p.integer ρ.integers) ∧
            ∀ e ∈ [min, extent, bounds.1, bounds.2.1, bounds.2.2], ∀ x ∈ e.freeIds, ρ.Has x := by
  have hself : loop v min extent kind body ∈ (loop v min extent kind body).stmts := by
    rw [stmts_eq]
    exact List.mem_append_right _ (List.mem_singleton_self _)
  obtain ⟨-, points, hne, hpoints, hbounds⟩ := id hcut
  obtain ⟨p₀, hp₀⟩ := List.exists_mem_of_ne_nil points hne
  obtain ⟨c₀, hc₀, hsplit₀⟩ := (hpoints p₀).mp hp₀
  obtain ⟨-, hindex, ⟨t, hmin⟩, ⟨u, hextent⟩⟩ := hs.indexed hself c₀ hc₀ p₀ hsplit₀
  have hamounts : ∀ p ∈ points, p.Amounts Γ ρ.integers (p.integer ρ.integers) := by
    intro p hp
    obtain ⟨c, hc, hsplit⟩ := (hpoints p).mp hp
    exact ((hs.indexed hself c hc p hsplit).1.splitPoint? hsplit _).1
  obtain ⟨k, hk, hpoint, hfirst, hlast⟩ := ensures_splitBounds_amounts (hmin.amounts ρ.integers)
    (hextent.amounts ρ.integers) hne
    hamounts bounds hbounds
  have hexact := hs.exact ρ _ .self bounds hcut
  have hcount {e : Expr} (he : e ∈ [min, extent, bounds.1, bounds.2.1, bounds.2.2]) {n : Int} (hn : e.integer ρ.integers =
      n) :
      Thread.count f ρ e = pure n := hn ▸ Thread.count_of_hasCount (hexact e he)
  have hpart : ∀ e ∈ (loop v min extent kind body).exprParts,
      e.Within (· ∈ (loop v min extent kind body).freeIds) (· ∈ (loop v min extent kind body).opaqueIds) := fun e he =>
    ⟨fun x hx => mem_freeIds.mpr (.inl ⟨e, he, hx⟩), fun x hx =>
      mem_opaqueIds.mpr (.inr (List.mem_flatMap.mpr ⟨e, he, hx⟩))⟩
  obtain ⟨hwithin, hwithin', hwithin''⟩ := ensures_splitBounds (fun x hx =>
    mem_freeIds_of_mem_opaqueIds hx (hs.splittable.apart x hx))
    (hpart min List.mem_cons_self) (hpart extent (by simp)) (fun p hp => by
      obtain ⟨c, hc, hsplit⟩ := (hpoints p).mp hp
      exact within_splitPoint hs.splittable hc hsplit) bounds hbounds
  refine ⟨_, _, k, hcount (by simp) rfl, hcount (by simp) rfl, hcount (by simp) hpoint.value, hcount (by simp) hfirst.value,
    hcount (by simp) hlast.value, hindex, fun c hc p hsplit => hk p ((hpoints p).mpr ⟨c, hc, hsplit⟩), ?_⟩
  have hfree : ∀ e ∈ [min, extent, bounds.1, bounds.2.1, bounds.2.2], ∀ x ∈ e.freeIds,
    x ∈ (loop v min extent kind body).freeIds := by
    simp only [List.forall_mem_cons, List.not_mem_nil, false_implies, implies_true, and_true]
    exact ⟨(hpart min List.mem_cons_self).free, (hpart extent (by simp)).free, hwithin.free, hwithin'.free, hwithin''.free⟩
  exact fun e he x hx => hs.valued x (hfree e he x hx)

/-- What partitioning makes of a statement does what the statement does. -/
theorem Cuts.follows {rs : List Renaming} (h : Cuts N n constLoops rs s t) (hs : s.Ready f Γ constLoops N ρ)
    (hrs : ∀ r ∈ rs, ρ.Has r.old.id ∧ N ≤ r.new.id)
    (hguards : ∀ r ∈ rs, ∀ σ c onTrue onFalse p, Reaches f ρ s σ (branch c onTrue onFalse) →
      c.splitPoint? r.old = .ok (some p) → c.HasTruth σ true) :
    Thread.Follows (Renaming.along rs) ρ (s.exec f) (t.exec f) := by
  induction h generalizing ρ with
  | @node rs s t B h hB ih =>
    refine h.follows (forall_mem_stmts.mp hs.runnable).2.2 (fun hf => (forall_mem_stmts.mp (hs.host hf)).2)
      (fun e he e' hr => ?_) (fun v hv => ?_)
      fun b b' o hb henter => ?_
    · have hfree : ∀ x ∈ e.freeIds, ρ.Has x := fun x hx => hs.valued x (mem_freeIds.mpr (.inl ⟨e, he, hx⟩))
      have hself : Expr.Renamed [] e e := rfl
      exact ⟨hself.matches hfree, hr.matches hfree⟩
    · exact ⟨Env.opens_self (hs.fresh hv), opens_along hrs (hs.fresh hv) (hs.binder_lt hv)⟩
    · exact ih b b' hb (hs.enter henter) (fun r hr => ⟨has_enter.mpr (.inl (hrs r hr).1), (hrs r hr).2⟩)
        fun r hr σ c onTrue onFalse p hreach => hguards r hr σ c onTrue onFalse p (.enter henter hreach)
  | @drop rs r c p onTrue t onFalse hr hc _ ih =>
    have henter : Enters f ρ (branch c onTrue onFalse) onTrue none := .body rfl List.mem_cons_self
    have hrest := ih (hs.enter henter) hrs fun r hr σ c onTrue onFalse p hreach =>
      hguards r hr σ c onTrue onFalse p (.enter henter hreach)
    intro l l' m hl hl'
    rw [start_branch_of_true (hguards r hr ρ c onTrue onFalse p .self hc) fun x hx => ?_]
    · exact hrest l l' m hl hl'
    · exact hl.lookup (hs.valued x (mem_freeIds.mpr (.inl ⟨c, List.mem_singleton_self c, hx⟩)))
  | @split rs r min extent min' point first last kind body copy rest bounds hlow hhigh hapart hcut hmin hpoint hfirst hlast
      hcopy hrest ihcopy ihrest =>
    obtain ⟨a, k, q, hcountMin, hcountExtent, hcountPoint, hcountFirst, hcountLast, hindex, hbelow, hfree⟩ := hs.bounds hcut
    simp only [List.forall_mem_cons, List.not_mem_nil, false_implies, implies_true, and_true] at hfree
    obtain ⟨hfreeMin, hfreeExtent, hfreePoint, hfreeFirst, hfreeLast⟩ := hfree
    have hleft {e : Expr} {n : Int} (hfree : ∀ x ∈ e.freeIds, ρ.Has x)
        (hn : Thread.count f ρ e = pure n) {env : Env} (henv : ρ.Carries id env) :
        Thread.count f env e = pure n := by
      rw [Thread.count, (Expr.agrees_of_lookup fun x hx => henv.lookup (hfree x hx)).eval]
      exact hn
    have hright {e e' : Expr} {n : Int} (hr : Expr.Renamed rs e e') (hfree : ∀ x ∈ e.freeIds, ρ.Has x)
        (hn : Thread.count f ρ e = pure n)
        {env : Env} (henv : ρ.Carries (Renaming.along rs) env) : Thread.count f env e' = pure n := by
      rw [Thread.count, ((hr.matches hfree) env henv).eval]
      exact hn
    have hfresh : ¬ρ.Has r.old.id := hs.fresh rfl
    have hopen := opens_along hrs hfresh (hs.binder_lt rfl)
    have hopenNew := opens_new hfresh (fun x hx heq => Nat.not_lt.mpr hlow (heq ▸ (hs.known x hx).1)) hapart
    have hinside : ∀ i, a ≤ i → i < cut a k q → i < a + k ∧ i < q := by simp only [cut]; omega
    have hlengths : k.toNat = (cut a k q - a).toNat + (a + k - cut a k q).toNat := by simp only [cut]; omega
    have hstart : a + (cut a k q - a).toNat = cut a k q := by simp only [cut]; omega
    have hcover : ∀ i, cut a k q ≤ i → i < cut a k q + (a + k - cut a k q).toNat → a ≤ i ∧
      i < a + k := by simp only [cut]; omega
    have henter {i : Int} {y : Value} (hlow : a ≤ i) (hhigh : i < a + k)
        (hy : (do place (← convertTo r.old.dtype (.number (.int i))) : Run Value).May y) :
        Enters f ρ (loop r.old min extent kind body) body (some (r.old, y)) :=
      .loop (hcountMin ▸ Run.may_pure a) (hcountExtent ▸ Run.may_pure k) hlow hhigh hy
    have hcopyTurn : ∀ i, a ≤ i → i < a + (cut a k q - a).toNat →
        Thread.Follows (Renaming.along rs) ρ (turn f r.old body i) (turn f r.new copy i) := by
      intro i hi hi'
      obtain ⟨hhigh, hq⟩ := hinside i hi (hstart ▸ hi')
      refine follows_turn r.type (Env.opens_self hfresh) hopenNew fun y hy => ?_
      refine ihcopy (hs.enter (henter hi hhigh hy)) (List.forall_mem_cons.mpr ⟨⟨Env.has_set.mpr (.inl rfl), hlow⟩,
        fun r' hr' => ?_⟩)
        (List.forall_mem_cons.mpr ⟨?_, fun r' hr' σ c onTrue onFalse p hreach => ?_⟩)
      · exact ⟨Env.has_set.mpr (.inr (hrs r' hr').1), (hrs r' hr').2⟩
      · intro σ c onTrue onFalse p hreach hsplit
        obtain ⟨-, hmem, -⟩ := hreach.keeps (hs.enter (henter hi hhigh hy))
        have hc : c ∈ body.conditions := List.mem_filterMap.mpr ⟨_, hmem, rfl⟩
        refine hs.holds hc hsplit (henter hi hhigh hy) ?_ hreach
        exact Thread.integer_of_counter hindex hy ▸ hq.trans_le (hbelow c hc p hsplit)
      · exact hguards r' hr' σ c onTrue onFalse p (.enter (henter hi hhigh hy) hreach)
    have hrestTurn : ∀ i, cut a k q ≤ i → i < cut a k q + (a + k - cut a k q).toNat →
        Thread.Follows (Renaming.along rs) ρ (turn f r.old body i) (turn f r.old rest i) := by
      intro i hi hi'
      obtain ⟨hlow, hhigh⟩ := hcover i hi hi'
      refine follows_turn rfl (Env.opens_self hfresh) hopen fun y hy => ?_
      exact ihrest (hs.enter (henter hlow hhigh hy)) (fun r' hr' => ⟨Env.has_set.mpr (.inr (hrs r' hr').1), (hrs r' hr').2⟩)
        fun r' hr' σ c onTrue onFalse p hreach => hguards r' hr' σ c onTrue onFalse p (.enter (henter hlow hhigh hy) hreach)
    have hrestLoop := (Thread.Leads.ensuring (Thread.follows_forRange hrestTurn)
      (Thread.follows_unbind (Env.opens_self hfresh) hopen)).congr
      (y := (loop r.old point last kind rest).exec f >>= fun _ => pure ()) (fun _ _ _ => rfl) fun l m hl => by
        rw [Thread.start_bind_pure, start_loop (hright hpoint hfreePoint hcountPoint hl)
          (hright hlast hfreeLast hcountLast hl)]
    refine (Thread.Follows.halves (Thread.follows_forRange hcopyTurn) hrestLoop (Env.opens_self hfresh) fun _ =>
      hopenNew.carries_erase).congr
      (fun l m hl => ?_) fun l m hl => ?_
    · rw [start_loop (hleft hfreeMin hcountMin hl) (hleft hfreeExtent hcountExtent hl), Thread.start_ensuring,
        Thread.start_ensuring, hlengths,
        Thread.forRange_add, hstart]
    · show ((loop r.new min' first kind copy).exec f >>= fun _ =>
        ((loop r.old point last kind rest).exec f >>= fun _ => pure ())).start l m = _
      rw [Thread.start_bind, start_loop (hright hmin hfreeMin hcountMin hl) (hright hfirst hfreeFirst hcountFirst hl),
        ← Thread.start_bind]

/-- The statement that partitioning a statement gives does what the statement does, if the bounds of the loops with
    guards, and the guards, are index arithmetic over the variables alone that does not overflow, no split point of a
    guard in a loop mentions a variable that is bound in the body of the loop, and no variable is bound anew in its
    scope. -/
theorem exec_partition {g g' : Graph} {s' : Stmt} {l : Local} (hs : s.Ready f Γ constLoops g.next l.env)
    (hrun : (s.partition constLoops).Yields g s' g') (m : Machine) :
    ((s.exec f).start l m).Rel (Thread.Matched id l.env) ((s'.exec f).start l m) :=
  (cuts_partition hs.splittable hrun).follows hs (List.forall_mem_nil _)
  (List.forall_mem_nil _) l l m (Env.carries_self _) (Env.carries_self _)

namespace Padded

def i : Var := ⟨1, "i", .int32⟩

def array : Var := ⟨2, "A", .handle⟩

def guard : Expr := .call .bool "likely" [.bin .lt (.var i) (.int32 4)] .pureIntrinsic none 0

def set : Stmt := store (.var array) (.var i) (.var i) none

/-- The first four of six elements of an array are set. -/
def fill : Stmt := loop i (.int32 0) (.int32 6) .serial (branch guard set none)

def graph : Graph := { ops := #[], next := 3 }

def frame : Frame := { name := "fill", call := fun _ _ => pure () }

def host : Local := { env := [(array.id, .array ⟨0, .int 32, 0, [6], [1]⟩)] }

theorem splitPoint?_guard : guard.splitPoint? i = .ok (some (.int32 4)) := by with_unfolding_all rfl

/-- However often the guard is split at, the loop is split at 4. -/
theorem bounds_of_cutAt {bounds : Expr × Expr × Expr} (h : CutAt true i (.int32 0) (.int32 6)
      (branch guard set none) bounds) :
    bounds = (.int32 4, .int32 4, .int32 2) := by
  obtain ⟨-, points, hne, hpoints, hbounds⟩ := h
  have hall : ∀ p ∈ points, p = .int32 4 := by
    intro p hp
    obtain ⟨c, hc, hsplit⟩ := (hpoints p).mp hp
    obtain rfl : c = guard := List.mem_singleton.mp hc
    exact Option.some.inj (Except.ok.inj (hsplit.symm.trans splitPoint?_guard))
  have hleast : ∀ ps : List Expr, (∀ p ∈ ps, p = .int32 4) →
    ps.foldlM (fun (p q : Expr) => Expr.minimum p q) (.int32 4) = .ok (.int32 4) := by
    intro ps hps
    induction ps with
    | nil => rfl
    | cons p ps ih =>
      obtain ⟨hp, hrest⟩ := List.forall_mem_cons.mp hps
      rw [hp]
      exact ih hrest
  obtain _ | ⟨p, ps⟩ := points
  · exact absurd rfl hne
  obtain ⟨rfl, hps⟩ := List.forall_mem_cons.mp hall
  have hsame : splitBounds (.int32 0) (.int32 6) (.int32 4 :: ps) = splitBounds (.int32 0) (.int32 6) [.int32 4] := by
    unfold splitBounds
    rw [List.tail_cons, List.headD_cons, hleast ps hps]
    rfl
  rw [hsame] at hbounds
  exact (Except.ok.inj hbounds).symm

/-- Below the fourth element the guard holds, and from there on it does not. -/
theorem hasTruth_guard {n : Int} {env : Env} (hi : env.lookup i.id = some (.scalar (.int 32) (.int n))) :
    guard.HasTruth env (guard.integer env.integers != 0) := by
  have hlt : (guard.integer env.integers != 0) = decide (n < 4) := by
    have hvalue : guard.integer env.integers = (decide (n < 4)).toInt := by
      have hcounter : env.integers i.id = n := by rw [Env.integers, hi]; rfl
      exact hcounter ▸ rfl
    rw [hvalue]
    cases decide (n < 4) <;> rfl
  rw [hlt]
  refine ⟨.scalar .bool (.bool (decide (n < 4))), fun f => ?_, fun m => rfl⟩
  have hvar : (Expr.var i).eval f env = pure (.scalar (.int 32) (.int n)) := by
    have hget : env.get? i = some (.scalar (.int 32) (.int n)) := hi
    unfold Expr.eval
    rw [hget]
  have hbound : (Expr.int32 4).eval f env = pure (.scalar (.int 32) (.int 4)) := (Expr.hasInt_int32 (by decide)).1 f
  have hcompare : (Expr.bin .lt (.var i) (.int32 4)).eval f env = pure (.scalar .bool (.bool (decide (n < 4)))) := by
    unfold Expr.eval
    rw [hvar, hbound]
    rfl
  unfold guard Expr.eval
  rw [if_neg (by decide), if_neg (by decide), if_neg (by decide)]
  unfold Expr.eval.evalAll
  rw [hcompare]
  rfl

theorem splittable_fill : fill.Splittable graph.next := by
  have hstmts : fill.stmts = [set, branch guard set none, fill] := rfl
  have hfree : ∀ x ∈ fill.freeIds, x < graph.next := by decide
  have hbound : ∀ x ∈ fill.boundIds, x < graph.next := by decide
  refine ⟨fun {v min extent kind body} hmem => ?_, by decide, fun x hx => hx.elim (hfree x) (hbound x)⟩
  rw [hstmts] at hmem
  simp only [List.mem_cons, List.not_mem_nil, or_false] at hmem
  obtain h | h | h := hmem
  · exact nomatch h
  · exact nomatch h
  · obtain ⟨rfl, -, -, -, rfl⟩ := loop.inj h
    refine ⟨by decide, by decide, fun c hc p hp x hx => ?_⟩
    obtain rfl : c = guard := List.mem_singleton.mp hc
    obtain rfl := Option.some.inj (Except.ok.inj (hp.symm.trans splitPoint?_guard))
    exact absurd hx (List.not_mem_nil)

theorem ready_fill : fill.Ready frame (fun _ => some .int32) true graph.next host.env := by
  have hint : DataType.int32.IsIndex := ⟨rfl, rfl⟩
  have hscalar (n : Int) : (Expr.int32 n).Scalar (fun _ => some .int32) .int32 := ⟨hint, .const (.int hint n), rfl⟩
  have hguard : guard.IsGuard fun _ => some .int32 := ⟨.int32, .var i, .int32 4, ⟨hint, .var (v := i) rfl hint, rfl⟩,
    hscalar 4, rfl⟩
  have hcount (n : Int) (h : (ElemType.int 32).holds n) : (Expr.int32 n).Exact host.env := (Expr.hasInt_int32 h).hasCount
  constructor
  case splittable => exact splittable_fill
  case runnable => decide
  case host => nofun
  case indexed =>
    intro v min extent kind body hmem c hc p hp
    have hstmts : fill.stmts = [set, branch guard set none, fill] := rfl
    rw [hstmts] at hmem
    simp only [List.mem_cons, List.not_mem_nil, or_false] at hmem
    obtain h | h | h := hmem
    · exact nomatch h
    · exact nomatch h
    · obtain ⟨rfl, rfl, rfl, -, rfl⟩ := loop.inj h
      obtain rfl : c = guard := List.mem_singleton.mp hc
      exact ⟨hguard, hint, ⟨_, hscalar 0⟩, _, hscalar 6⟩
  case valued =>
    intro x hx
    obtain rfl : x = array.id := List.mem_singleton.mp hx
    exact Env.has_iff_lookup.mpr ⟨_, rfl⟩
  case known =>
    intro x hx
    obtain rfl : x = array.id := List.mem_singleton.mp hx
    decide
  case exact =>
    intro σ t hreach
    cases hreach with
    | self =>
      intro bounds hcut
      obtain rfl := bounds_of_cutAt hcut
      simp only [List.forall_mem_cons, List.not_mem_nil, false_implies, implies_true, and_true]
      exact ⟨hcount 0 (by decide), hcount 6 (by decide), hcount 4 (by decide), hcount 4 (by decide), hcount 2 (by decide)⟩
    | enter henter hreach =>
      cases henter with
      | body h => exact nomatch h
      | @loop _ _ _ _ _ n _ _ _ _ _ _ _ hx =>
        cases hreach with
        | self =>
          obtain ⟨m, m', hrun⟩ := hx
          obtain ⟨a, m₁, hconvert, hplace⟩ := Run.on_bind_eq_ok.mp hrun
          have hcast : (Value.number (.int n)).cast m.memory .int32 = .ok a := congrArg Prod.fst hconvert
          obtain ⟨et, het, rfl⟩ := Value.cast_int hint hcast
          obtain rfl : ElemType.int 32 = et := Except.ok.inj het
          cases hplace
          exact fun _ => hasTruth_guard Env.lookup_set_self
        | enter henter hreach =>
          cases henter with
          | body h hb =>
            obtain rfl : _ = set := List.mem_singleton.mp hb
            cases hreach with
            | self => trivial
            | enter henter =>
              cases henter with
              | body h hb => exact nomatch hb

theorem exec_fill : fill.Ready frame (fun _ => some .int32) true graph.next host.env ∧
    ∃ s' g', (fill.partition true).Yields graph s' g' ∧
    ∀ m, ((fill.exec frame).start host m).Rel (Thread.Matched id host.env) ((s'.exec frame).start host m) := by
  have hok : (((fill.partition true).run.run graph).run).1.isOk := by decide +kernel
  rcases hrun : ((fill.partition true).run.run graph).run with ⟨e | s', g'⟩
  · rw [hrun] at hok
    cases hok
  · exact ⟨ready_fill, s', g', hrun, exec_partition ready_fill hrun⟩

end Padded

end Stmt

end TensorNest

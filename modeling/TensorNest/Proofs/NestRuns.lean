import TensorNest.Proofs.Accumulation
import TensorNest.Proofs.Records

/-! # Nests that run

No program runs a provision: tensors have buffers by then. So what a nest lists (`Stmt.writes`) is held against its runs by
what is put for its provisions (`Stmt.fill`). If each statement that is put for a provision makes the write of that
provision, in whatever sense, then a run of the nest makes the writes that the nest lists by the arithmetic of words, one
after the other, unless the run fails (`Stmt.Nest.makes`). This needs no bound on the numbers: the list and the run wrap
alike. If the arithmetic of indices is exact, a run writes each point of a domain once
(`Schedule.makes_once_of_transforms`), or computes a reduction (`Schedule.makes_fold_of_transforms`). -/

namespace TensorNest

/-! ### What holds after a thread -/

namespace Thread

open Run (Quiet on)

variable {α β : Type} {P M : Local → Machine → Prop} {Q : α → Local → Machine → Prop} {x : Thread α} {v : Var}

/-- If a thread starts where something holds and ends without a failure, something holds of what it gives and leaves. -/
def Brings (P : Local → Machine → Prop) (x : Thread α) (Q : α → Local → Machine → Prop) : Prop :=
  ∀ l m, P l m → ∀ a l' m', (x.start l m).finish = ((.ok a, l'), m') → Q a l' m'

theorem Brings.mono {Q' : α → Local → Machine → Prop} (h : Brings P x Q) (hQ : ∀ a l m, Q a l m → Q' a l m) :
    Brings P x Q' :=
  fun l m hl a l' m' heq => hQ a l' m' (h l m hl a l' m' heq)

theorem brings_pure {a : α} (h : ∀ l m, P l m → Q a l m) : Brings P (pure a) Q := by
  intro l m hl b l' m' heq
  cases heq
  exact h l m hl

theorem Brings.bind {k : α → Thread β} {R : β → Local → Machine → Prop} (hx : Brings P x Q)
    (hk : ∀ a, Brings (Q a) (k a) R) : Brings P (x >>= k) R := by
  intro l m hl b l' m' h
  rw [start_bind, Resumption.finish_bind] at h
  rcases hr : (x.start l m).finish with ⟨⟨e | a, l₁⟩, m₁⟩
  · rw [hr] at h
    cases h
  · rw [hr] at h
    exact hk a l₁ m₁ (hx l m hl a l₁ m₁ hr) b l' m' h

/-- A first step that can give one thing only. -/
theorem Brings.bind_value {a : α} {k : α → Thread β} {R : β → Local → Machine → Prop}
    (hx : Brings P x fun b l m => b = a ∧ M l m) (hk : Brings M (k a) R) : Brings P (x >>= k) R := by
  refine hx.bind fun b l m hl => ?_
  obtain ⟨rfl, hl⟩ := hl
  exact hk l m hl

theorem Brings.ensuring {x last : Thread Unit} {Q : Unit → Local → Machine → Prop} (hx : Brings P x fun _ => M)
    (hlast : Brings M last Q) : Brings P (ensuring x last) Q := by
  intro l m hl a l' m' h
  rw [start_ensuring, Resumption.finish_bind, Resumption.finish_bind] at h
  rcases hr : (x.start l m).finish with ⟨⟨e | b, l₁⟩, m₁⟩ <;>
    rcases ht : (last.start l₁ m₁).finish with ⟨⟨e' | c, l₂⟩, m₂⟩ <;> simp only [hr, ht] at h <;> cases h
  exact hlast l₁ m₁ (hx l m hl b l₁ m₁ hr) c l' m' ht

/-- A step that leaves the machine as it is, computed from the variables of the thread. -/
theorem brings_of_quiet {y : Local → Run α} {p : α → Prop} (hx : ∀ l m, x.start l m = (ofRun (y l)).start l m)
    (hy : ∀ l m, P l m → Quiet (y l) p) : Brings P x fun a l m => p a ∧ P l m := by
  intro l m hl a l' m' h
  have hrun : (x.start l m).finish = (((on (y l) m).1, l), (on (y l) m).2) := by rw [hx]; rfl
  rw [hrun] at h
  obtain ⟨hsame, hvalue⟩ := hy l m hl m
  obtain ⟨hend, rfl⟩ := Prod.mk.inj h
  obtain ⟨hok, rfl⟩ := Prod.mk.inj hend
  exact ⟨hvalue a hok, hsame.symm ▸ hl⟩

theorem brings_bind {y : Value} {Q : Unit → Local → Machine → Prop} :
    Brings (fun l m => Q () { l with env := l.env.set v y } m) (Thread.bind v y) Q := by
  intro l m hl a l' m' h
  cases h
  exact hl

theorem brings_unbind {Q : Unit → Local → Machine → Prop} :
    Brings (fun l m => Q () { l with env := l.env.erase v } m) (unbind v) Q := by
  intro l m hl a l' m' h
  cases h
  exact hl

end Thread

/-! ### Writes that a run makes -/

/-- What has been written, told from the variables of a thread and from the machine. -/
abbrev Log := List (Write Int) → Local → Machine → Prop

/-- What a variable is bound to does not tell what has been written. -/
def Log.Ignores (J : Log) (x : Nat) : Prop :=
  ∀ ws l m env, (∀ y ≠ x, env.lookup y = l.env.lookup y) → J ws l m → J ws { l with env := env } m

/-- Something has been written, and the variables of a context have the words of a valuation. -/
structure Log.Stands (J : Log) (Γ : Context) (π : Valuation Int) (ws : List (Write Int)) (l : Local) (m : Machine) :
    Prop where
  env : l.env.Represents Γ π
  written : J ws l m

namespace Stmt

/-- Puts statements for the provisions in a statement. -/
def fill (leaf : OpRef → Int → Expr → List Expr → Stmt) : Stmt → Stmt
  | provide op output value args => leaf op output value args
  | bind v value body => bind v value (body.fill leaf)
  | attr subject key value body => attr subject key value (body.fill leaf)
  | assert cond message body => assert cond message (body.fill leaf)
  | loop v min extent kind body => loop v min extent kind (body.fill leaf)
  | allocate site v t extents cond body => allocate site v t extents cond (body.fill leaf)
  | realize op output t bounds cond body => realize op output t bounds cond (body.fill leaf)
  | branch cond onTrue none => branch cond (onTrue.fill leaf) none
  | branch cond onTrue (some onFalse) => branch cond (onTrue.fill leaf) (some (onFalse.fill leaf))
  | seq ss => seq (fillAll ss)
  | store v e index pred => store v e index pred
  | prefetch op output t bounds => prefetch op output t bounds
  | eval e => eval e
where
  fillAll : List Stmt → List Stmt
    | [] => []
    | s :: ss => s.fill leaf :: fillAll ss

/-- A run of a statement, with something put for its provisions, makes the writes that the statement lists, the tensors
    holding `T` before all of them. -/
def Makes (leaf : OpRef → Int → Expr → List Expr → Stmt) (f : Frame) (J : Log) (T : Contents Int) (Γ : Context)
    (π : Valuation Int) (s : Stmt) : Prop :=
  ∀ ws, Thread.Brings (J.Stands Γ π ws) ((s.fill leaf).exec f) fun _ =>
    J.Stands Γ π (ws ++ s.writes .words π (T.writeAll ws))

/-- If a statement is a provision, then what is put for it makes its write, wherever its indices are of types. -/
def Served (leaf : OpRef → Int → Expr → List Expr → Stmt) (f : Frame) (J : Log) (T : Contents Int) (s : Stmt) : Prop :=
  ∀ op output value args, s = provide op output value args → ∀ Γ π, (∀ a ∈ args, ∃ t, a.Typed Γ t) →
    s.Makes leaf f J T Γ π

/-- The statements of nests: provisions at indices of types, in loops over variables of their own and under conditions. -/
inductive Nest (X : Set Nat) : Context → Stmt → Prop
  | provide {Γ : Context} {op : OpRef} {output : Int} {value : Expr} {args : List Expr}
    (hargs : ∀ a ∈ args, ∃ t, a.Typed Γ t) : Nest X Γ (.provide op output value args)
  | loop {Γ : Context} {v : Var} {min extent : Expr} {kind : LoopKind} {t u : DataType} {body : Stmt} (hv : v.id ∈ X)
    (hnew : Γ v.id = none) (htype : v.dtype.IsIndex) (ht : t.IsIndex) (hmin : min.Typed Γ t) (hu : u.IsIndex)
    (hextent : extent.Typed Γ u) (hbody : Nest X (Γ.extend v) body) : Nest X Γ (.loop v min extent kind body)
  | branch {Γ : Context} {cond : Expr} {onTrue : Stmt} (hcond : cond.Typed Γ .bool) (hbody : Nest X Γ onTrue) :
    Nest X Γ (.branch cond onTrue none)
  | choice {Γ : Context} {cond : Expr} {onTrue onFalse : Stmt} (hcond : cond.Typed Γ .bool) (htrue : Nest X Γ onTrue)
    (hfalse : Nest X Γ onFalse) : Nest X Γ (.branch cond onTrue (some onFalse))
  | seq {Γ : Context} {ss : List Stmt} (h : ∀ s ∈ ss, Nest X Γ s) : Nest X Γ (.seq ss)
  | noOp {Γ : Context} : Nest X Γ noOp

end Stmt

/-! ### Steps of a run -/

namespace Thread

open Run (quiet_get quiet_lift)

variable {f : Frame} {J : Log} {Γ : Context} {π : Valuation Int} {ws : List (Write Int)} {t : DataType} {e : Expr}

theorem brings_value (he : e.Typed Γ t) (T : Contents Int) : Brings (J.Stands Γ π ws) (value f e) fun x l m =>
    x.IsWord t (e.value .words T π) ∧ J.Stands Γ π ws l m :=
  brings_of_quiet (y := fun l => e.eval f l.env) (fun _ _ => rfl) fun _ _ hl => he.quiet_eval_words hl.env

theorem brings_integer (he : e.Typed Γ t) (ht : t.IsIndex) (T : Contents Int) :
    Brings (J.Stands Γ π ws) (integer f e) fun n l m => n = e.value .words T π ∧ J.Stands Γ π ws l m := by
  refine (brings_value he T).bind fun x => (brings_of_quiet (y := fun _ => do x.toInt (← get).memory) (fun _ _ => rfl)
    fun l m hl => quiet_get.bind fun m' _ => quiet_lift fun n hn => ?_).mono fun n l m h => ⟨h.1, h.2.2⟩
  rw [hl.1.toInt_eq ht] at hn
  exact (Except.ok.inj hn).symm

theorem brings_holds (he : e.Typed Γ .bool) (T : Contents Int) : Brings (J.Stands Γ π ws) (holds f e) fun b l m =>
    b = Reading.words.truth (e.value .words T π) ∧ J.Stands Γ π ws l m := by
  refine (brings_value he T).bind fun x => (brings_of_quiet (y := fun _ => do x.truth (← get).memory) (fun _ _ => rfl)
    fun l m hl => quiet_get.bind fun m' _ => quiet_lift fun b hb => ?_).mono fun b l m h => ⟨h.1, h.2.2⟩
  rw [hl.1.truth_eq] at hb
  exact (Except.ok.inj hb).symm

/-- Steps for consecutive integers that each make their writes make them one after the other. -/
theorem brings_forRange {S : List (Write Int) → Local → Machine → Prop} {x : Int → Thread Unit} {T : Contents Int}
    {g : Int → Contents Int → List (Write Int)}
    (hx : ∀ k ws, Brings (S ws) (x k) fun _ => S (ws ++ g k (T.writeAll ws))) (first : Int) (n : Nat)
    (ws : List (Write Int)) : Brings (S ws) (forRange x first n) fun _ =>
      S (ws ++ inTurn g ((List.range n).map fun k : Nat => first + k) (T.writeAll ws)) := by
  induction n generalizing first ws with
  | zero =>
    refine brings_pure fun l m hl => ?_
    rwa [List.range_zero, List.map_nil, inTurn, List.append_nil]
  | succ n ih =>
    have hrange : (List.range (n + 1)).map (fun k : Nat => first + (k : Int)) =
        first :: (List.range n).map fun k : Nat => first + 1 + (k : Int) := by
      rw [List.range_succ_eq_map, List.map_cons, List.map_map]
      refine congrArg₂ List.cons (Int.add_zero first) (List.map_congr_left fun k _ => ?_)
      simp only [Function.comp_apply, Nat.succ_eq_add_one, Nat.cast_add, Nat.cast_one]
      omega
    rw [hrange, inTurn, ← List.append_assoc, ← Contents.writeAll_append]
    exact (hx first ws).bind fun _ => ih (first + 1) _

end Thread

namespace Stmt

open Thread Run

variable {leaf : OpRef → Int → Expr → List Expr → Stmt} {f : Frame} {J : Log} {T : Contents Int} {X : Set Nat}
  {Γ : Context} {π : Valuation Int} {v : Var} {min extent cond : Expr} {kind : LoopKind} {t u : DataType}
  {body onTrue onFalse : Stmt} {ss : List Stmt}

/-- One turn of a loop: the variable is bound to the word of the counter. -/
theorem Makes.turn (hJ : J.Ignores v.id) (hnew : Γ v.id = none) (htype : v.dtype.IsIndex)
    (hbody : ∀ π, body.Makes leaf f J T (Γ.extend v) π) (k : Int) (ws : List (Write Int)) :
    Brings (J.Stands Γ π ws) (do
      Thread.bind v (← ofRun do place (← convertTo v.dtype (.number (.int k))))
      (body.fill leaf).exec f) fun _ => J.Stands Γ π
        (ws ++ body.writes .words (Function.update π v.id (Reading.words.counter v.dtype k)) (T.writeAll ws)) := by
  have hword : Quiet (do place (← convertTo v.dtype (.number (.int k))))
      (·.IsWord v.dtype (Reading.words.counter v.dtype k)) := by
    refine (quiet_literal (.int htype k)).bind fun x hx => ?_
    rw [hx.place_eq]
    exact quiet_pure hx
  refine (brings_of_quiet (fun _ _ => rfl) fun _ _ _ => hword).bind fun x => ?_
  refine Brings.bind (Q := fun _ => J.Stands (Γ.extend v) (Function.update π v.id (Reading.words.counter v.dtype k)) ws) ?_
    fun _ => (hbody _ ws).mono fun _ l m hl => ⟨hl.env.of_extend hnew, hl.written⟩
  rintro l m ⟨hx, hl⟩
  exact brings_bind l m ⟨hl.env.set hx, hJ ws l m _ (fun y hy => Env.lookup_set hy) hl.written⟩

theorem Makes.loop (hJ : J.Ignores v.id) (hnew : Γ v.id = none) (htype : v.dtype.IsIndex) (ht : t.IsIndex)
    (hmin : min.Typed Γ t) (hu : u.IsIndex) (hextent : extent.Typed Γ u)
    (hbody : ∀ π, body.Makes leaf f J T (Γ.extend v) π) : (Stmt.loop v min extent kind body).Makes leaf f J T Γ π := by
  intro ws
  unfold fill exec
  refine (brings_integer hmin ht (T.writeAll ws)).bind_value ((brings_integer hextent hu (T.writeAll ws)).bind_value ?_)
  refine Brings.ensuring (brings_forRange (fun k ws => turn hJ hnew htype hbody k ws) _ _ ws) fun l m hl => ?_
  exact brings_unbind l m ⟨hl.env.erase v, hJ _ l m _ (fun y hy => Env.lookup_erase hy) hl.written⟩

theorem Makes.branch (hcond : cond.Typed Γ .bool) (hbody : onTrue.Makes leaf f J T Γ π) :
    (Stmt.branch cond onTrue none).Makes leaf f J T Γ π := by
  intro ws
  unfold fill exec
  refine (brings_holds hcond (T.writeAll ws)).bind_value ?_
  rw [writes_branch_none]
  split
  · exact hbody ws
  · exact brings_pure fun l m hl => (List.append_nil ws).symm ▸ hl

theorem Makes.choice (hcond : cond.Typed Γ .bool) (htrue : onTrue.Makes leaf f J T Γ π)
    (hfalse : onFalse.Makes leaf f J T Γ π) : (Stmt.branch cond onTrue (some onFalse)).Makes leaf f J T Γ π := by
  intro ws
  unfold fill exec writes
  refine (brings_holds hcond (T.writeAll ws)).bind_value ?_
  split
  · exact htrue ws
  · exact hfalse ws

theorem Makes.seq (h : ∀ s ∈ ss, s.Makes leaf f J T Γ π) : (Stmt.seq ss).Makes leaf f J T Γ π := by
  intro ws
  rw [writes_seq]
  show Brings _ (exec.execAll f (fill.fillAll leaf ss)) _
  induction ss generalizing ws with
  | nil =>
    refine brings_pure fun l m hl => ?_
    rwa [inTurn, List.append_nil]
  | cons s ss ih =>
    obtain ⟨hs, hss⟩ := List.forall_mem_cons.mp h
    rw [inTurn, ← List.append_assoc, ← Contents.writeAll_append]
    exact (hs ws).bind fun _ => ih hss _

theorem makes_noOp : noOp.Makes leaf f J T Γ π := by
  intro ws
  refine (brings_value (.const (.int ⟨rfl, rfl⟩ 0)) T).bind fun x => brings_pure fun l m hl => ?_
  have hnone : ws ++ noOp.writes .words π (T.writeAll ws) = ws := List.append_nil ws
  exact hnone.symm ▸ hl.2

/-- A run of a nest makes the writes that the nest lists, if what is put for each provision makes its own. -/
theorem Nest.makes {s : Stmt} (h : s.Nest X Γ) (hJ : ∀ x ∈ X, J.Ignores x) (hleaf : ∀ t ∈ s.stmts, t.Served leaf f J T)
    (π : Valuation Int) : s.Makes leaf f J T Γ π := by
  have hbodies {s : Stmt} (hleaf : ∀ t ∈ s.stmts, t.Served leaf f J T) :
      ∀ b ∈ s.bodies, ∀ t ∈ b.stmts, t.Served leaf f J T :=
    (forall_mem_stmts.mp hleaf).1
  induction h generalizing π with
  | provide hargs => exact (forall_mem_stmts.mp hleaf).2 _ _ _ _ rfl _ π hargs
  | loop hv hnew htype ht hmin hu hextent _ ih =>
    exact .loop (hJ _ hv) hnew htype ht hmin hu hextent (ih (hbodies hleaf _ (by simp)))
  | branch hcond _ ih => exact .branch hcond (ih (hbodies hleaf _ (by simp)) π)
  | choice hcond _ _ iht ihf =>
    exact .choice hcond (iht (hbodies hleaf _ (by simp)) π) (ihf (hbodies hleaf _ (by simp)) π)
  | seq _ ih => exact .seq fun s hs => ih s hs (hbodies hleaf s hs) π
  | noOp => exact makes_noOp

/-- Notes the operation of a provision among the storage scopes of the thread. -/
def mark (op : OpRef) (_ : Int) (_ : Expr) (_ : List Expr) : Stmt :=
  .attr (.var ⟨op.idx, op.name, .handle⟩) "storage_scope" (.str "global") (.seq [])

/-- So the storage scopes tell of which operations there have been provisions. -/
theorem served_mark (s : Stmt) : s.Served mark f (fun ws l _ => l.scopes.map (·.1) = (ws.map (·.op)).reverse) T := by
  rintro op output value args rfl Γ π - ws l m hl a l' m' h
  cases h
  refine ⟨hl.env, ?_⟩
  rw [List.map_cons, hl.written, List.map_append, List.reverse_append]
  rfl

theorem nest_items {s : Stmt} (h : s.Nest X Γ) : ∀ t ∈ s.items, t.Nest X Γ := by
  cases h with
  | seq h => exact h
  | provide hargs => exact List.forall_mem_singleton.mpr (.provide hargs)
  | loop hv hnew htype ht hmin hu hextent hbody =>
    exact List.forall_mem_singleton.mpr (.loop hv hnew htype ht hmin hu hextent hbody)
  | branch hcond hbody => exact List.forall_mem_singleton.mpr (.branch hcond hbody)
  | choice hcond htrue hfalse => exact List.forall_mem_singleton.mpr (.choice hcond htrue hfalse)
  | noOp => exact List.forall_mem_singleton.mpr .noOp

theorem nest_block (h : ∀ s ∈ ss, s.Nest X Γ) : (block ss).Nest X Γ := by
  rcases ss with _ | ⟨s, _ | ⟨t, ss⟩⟩
  · exact .noOp
  · exact h s List.mem_cons_self
  · exact .seq h

theorem nest_ofList (h : ∀ s ∈ ss, s.Nest X Γ) : (ofList ss).Nest X Γ :=
  nest_block fun t ht => by
    obtain ⟨s, hs, ht⟩ := List.mem_flatMap.mp ht
    exact nest_items (h s hs) t ht

end Stmt

/-! ### Nests of stages -/

section Contexts
variable {Γ : Context} {vs : List Var} {v : Var} {x : Nat}

theorem foldl_extend_of_not_mem (hx : x ∉ vs.map (·.id)) : vs.foldl Context.extend Γ x = Γ x := by
  induction vs generalizing Γ with
  | nil => rfl
  | cons w vs ih =>
    exact (ih (List.not_mem_of_not_mem_cons hx)).trans (Function.update_of_ne (List.ne_of_not_mem_cons hx) ..)

theorem foldl_extend_of_mem (hdistinct : (vs.map (·.id)).Nodup) (hv : v ∈ vs) :
    vs.foldl Context.extend Γ v.id = some v.dtype := by
  induction vs generalizing Γ with
  | nil => cases hv
  | cons w vs ih =>
    obtain ⟨hw, hdistinct⟩ := List.nodup_cons.mp hdistinct
    obtain rfl | hv := List.mem_cons.mp hv
    · exact (foldl_extend_of_not_mem hw).trans (Function.update_self ..)
    · exact ih hdistinct hv

/-- Contexts know axes as their variables. -/
theorem withAxes_eq_foldl {axes : List IterVar} (h : (axes.map (·.id)).Nodup) :
    Γ.withAxes axes = (axes.map (·.var)).foldl Context.extend Γ := by
  induction axes generalizing Γ with
  | nil => rfl
  | cons iv axes ih =>
    obtain ⟨hiv, hdistinct⟩ := List.nodup_cons.mp h
    rw [withAxes_cons hiv, ih hdistinct]
    rfl

end Contexts

namespace NestContext

variable {X : Set Nat} {Γ : Context} {ρ : Valuation Int} {body : Stmt}

theorem nest_guarded {guards : List Expr} (hguards : ∀ e ∈ guards, e.Typed Γ .bool) (hbody : body.Nest X Γ) :
    (guarded guards body).Nest X Γ := by
  induction guards with
  | nil => exact hbody
  | cons e es ih =>
    obtain ⟨he, hes⟩ := List.forall_mem_cons.mp hguards
    exact .branch he (ih hes)

theorem nest_provides {op : Operation} {args values : List Expr} (hargs : ∀ a ∈ args, ∃ t, a.Typed Γ t) :
    (provides op args values).Nest X Γ := by
  refine Stmt.nest_ofList (List.forall_mem_map.mpr fun p _ => ?_)
  exact .provide hargs

/-- Loops around a nest make a nest. Each loop may be over another variable than its leaf axis, and something may be put for
    variables in the loops and in the body. -/
theorem nest_foldrM {wrap : IterVar → Stmt → Build Stmt} {leaves : List IterVar} {s : Stmt}
    {g g' : Graph} (loopVar : IterVar → Var) (put : Stmt → Stmt)
    (hwrap : ∀ leaf ∈ leaves, ∀ {b g b' g'}, (wrap leaf b).Yields g b' g' → ∀ {Γ'}, Expr.Extends Γ Γ' ρ ρ →
      Γ' (loopVar leaf).id = none → (put b).Nest X (Γ'.extend (loopVar leaf)) → (put b').Nest X Γ')
    {Γ' : Context} (hext : Expr.Extends Γ Γ' ρ ρ) (hdistinct : ((leaves.map loopVar).map (·.id)).Nodup)
    (hnew : ∀ leaf ∈ leaves, Γ' (loopVar leaf).id = none)
    (hbody : (put body).Nest X ((leaves.map loopVar).foldl Context.extend Γ'))
    (h : (leaves.foldrM wrap body).Yields g s g') : (put s).Nest X Γ' := by
  induction leaves generalizing Γ' s g' with
  | nil =>
    obtain ⟨rfl, -⟩ := Build.yields_pure.mp h
    exact hbody
  | cons leaf leaves ih =>
    rw [List.foldrM_cons] at h
    obtain ⟨inner, g₁, hinner, hloop⟩ := Build.yields_bind.mp h
    rw [List.forall_mem_cons] at hwrap hnew
    obtain ⟨hfresh, hdistinct⟩ := List.nodup_cons.mp hdistinct
    have hwide : Expr.Extends Γ (Γ'.extend (loopVar leaf)) ρ ρ := by
      intro x t hx
      obtain ⟨hx, hsame⟩ := hext x t hx
      have hne : x ≠ (loopVar leaf).id := fun heq => by rw [heq, hnew.1] at hx; cases hx
      exact ⟨(Function.update_of_ne hne ..).trans hx, hsame⟩
    refine hwrap.1 hloop hext hnew.1 (ih hwrap.2 hwide hdistinct (fun jv hjv => ?_) hbody hinner)
    have hne : (loopVar jv).id ≠ (loopVar leaf).id := fun heq =>
      hfresh (List.mem_map.mpr ⟨_, List.mem_map_of_mem hjv, heq⟩)
    exact (Function.update_of_ne hne ..).trans (hnew.2 jv hjv)

end NestContext

namespace Stage.Looping

open NestContext (rootExpr guarded provides)

variable {Γ Γ' : Context} {ρ : Valuation Int} {L E : Nat → Int} {c : NestContext} {st : Stage} {σ : Subst}
  {guards bodies : List Expr} {g g' : Graph} {nest body : Stmt} {leaf : IterVar} {X : Set Nat}

/-- The loop of a leaf axis around a nest. -/
theorem nest_wrap (h : st.Looping Γ ρ L E c σ guards) (hattached : c.attached = []) {depth : Nat} (hleaf : leaf ∈ st.leaves)
    (hX : leaf.id ∈ X) (hloop : (c.wrap depth st leaf body).Yields g nest g') (hext : Expr.Extends Γ Γ' ρ ρ)
    (hnew : Γ' leaf.id = none) (hbody : body.Nest X (Γ'.extend leaf.var)) : nest.Nest X Γ' := by
  have hall := h.leaves_subset hleaf
  obtain ⟨r, kind, hr, rfl⟩ := NestContext.loop_inv h.plain (h.typed leaf hall)
    (NestContext.wrap_of_unattached hattached hloop)
  obtain ⟨u, hu, hextent⟩ := ((h.measured.extents leaf hall).widen hext).ensures r hr
  exact .loop hX hnew (h.typed leaf hall) (h.typed leaf hall) (.const (.int (h.typed leaf hall) 0)) hu hextent.typed hbody

/-- What is built for a stage on its own that does not reduce is a nest. -/
theorem nest_wrapLoops (h : st.Looping Γ ρ L E c σ guards) (hdata : st.dataPart.leaves = st.leaves)
    (hattached : c.attached = []) {depth : Nat}
    (hloops : (NestContext.wrapLoops (c.wrap depth st) none
        (guarded guards (provides st.op (st.op.axes.map (rootExpr σ)) bodies))
      st.leaves).Yields g nest g') (hX : ∀ leaf ∈ st.leaves, leaf.id ∈ X) : nest.Nest X Γ := by
  have hdistinct := h.measured.consistent.leavesDistinct
  rw [NestContext.wrapLoops_eq, NestContext.foldrM_wrapLoop (by simp)] at hloops
  refine NestContext.nest_foldrM (·.var) (fun s => s)
    (fun leaf hleaf _ _ _ _ hloop _ => h.nest_wrap hattached hleaf (hX leaf hleaf) hloop) (fun x t hx => ⟨hx, rfl⟩)
    (by rwa [IterVar.map_id_map_var]) (fun leaf hleaf => h.apart leaf (h.leaves_subset hleaf)) ?_ hloops
  rw [← withAxes_eq_foldl hdistinct]
  have hplaced := (h.exists_data []).1
  rw [hdata] at hplaced
  refine NestContext.nest_guarded (fun e he => ?_) (NestContext.nest_provides fun a ha => ?_)
  · obtain ⟨n, hn⟩ := hplaced.guards e he
    exact hn.typed
  · obtain ⟨iv, hiv, rfl⟩ := List.mem_map.mp ha
    obtain ⟨n, t, -, hn⟩ := hplaced.axes iv hiv
    exact ⟨t, hn.typed⟩

end Stage.Looping

/-! ### Nests of reductions -/

/-- What is put for the variables of a context is of their types in another one. -/
def Subst.Translates (τ : Subst) (Γ Γ' : Context) : Prop :=
  ∀ v : Var, Γ v.id = some v.dtype → v.dtype.IsIndex → ((τ.find? v).getD (.var v)).Typed Γ' v.dtype

theorem Expr.Typed.subst {Γ Γ' : Context} {τ : Subst} {t : DataType} {e : Expr} (h : e.Typed Γ t)
    (hbound : e.boundVars = []) (hτ : τ.Translates Γ Γ') : (e.subst τ).Typed Γ' t := by
  induction h with
  | var hv ht => exact hτ _ hv ht
  | const hx => exact .const hx
  | cast ht hu _ ih => exact .cast ht hu (ih (by rwa [boundVars_cast] at hbound) hτ)
  | bin hop _ _ iha ihb =>
    rw [boundVars_bin, List.append_eq_nil_iff] at hbound
    exact .bin hop (iha hbound.1 hτ) (ihb hbound.2 hτ)
  | not _ ih => exact .not (ih (by rwa [boundVars_not] at hbound) hτ)
  | select _ _ _ ihc iha ihb =>
    rw [boundVars_select, List.append_eq_nil_iff, List.append_eq_nil_iff] at hbound
    exact .select (ihc hbound.1.1 hτ) (iha hbound.1.2 hτ) (ihb hbound.2 hτ)
  | bind => simp [boundVars_bind] at hbound
  | likely _ ih => exact .likely (ih (by rwa [boundVars_likely] at hbound) hτ)

theorem Subst.translates_of_unknown {Γ Γ' : Context} {τ : Subst} (hτ : ∀ p ∈ τ, Γ p.1.id = none)
    (hΓ : ∀ x t, Γ x = some t → Γ' x = some t) : τ.Translates Γ Γ' := by
  intro v hv ht
  have hnone : τ.find? v = none := Option.eq_none_iff_forall_ne_some.mpr fun e he => by
    obtain ⟨p, hp, hid, -⟩ := Expr.exists_of_find? he
    rw [← hid, hτ p hp] at hv
    cases hv
  rw [hnone, Option.getD_none]
  exact .var (hΓ _ _ hv) ht

/-- New variables of the same types can be put for the variables of axes. -/
theorem Subst.translates_renaming {Γ : Context} {axes : List IterVar} {loopVar : IterVar → Var}
    (hdistinct : (axes.map (·.id)).Nodup) (hnodup : ((axes.map loopVar).map (·.id)).Nodup)
    (htypes : ∀ iv ∈ axes, (loopVar iv).dtype = iv.dtype) (hnew : ∀ x ∈ (axes.map loopVar).map (·.id), Γ x = none) :
    (Subst.ofList ((axes.map (·.var)).zip (axes.map fun iv => .var (loopVar iv)))).Translates
      ((axes.map (·.var)).foldl Context.extend Γ) ((axes.map loopVar).foldl Context.extend Γ) := by
  have hvars : ((axes.map (·.var)).map (·.id)).Nodup := by rwa [IterVar.map_id_map_var]
  intro v hv ht
  by_cases hmem : v.id ∈ (axes.map (·.var)).map (·.id)
  · rw [IterVar.map_id_map_var] at hmem
    obtain ⟨iv, hiv, hid⟩ := List.mem_map.mp hmem
    have hput : (iv.var, Expr.var (loopVar iv)) ∈ (axes.map (·.var)).zip (axes.map fun iv => .var (loopVar iv)) := by
      rw [List.zip_map']
      exact List.mem_map_of_mem hiv
    have hfind := Subst.find?_ofList_zip hvars (by simp) hput
    rw [Subst.find?, show iv.var.id = v.id from hid, ← Subst.find?] at hfind
    have htype : v.dtype = (loopVar iv).dtype := by
      have hknown := foldl_extend_of_mem (Γ := Γ) hvars (List.mem_map_of_mem (f := (·.var)) hiv)
      rw [htypes iv hiv]
      exact Option.some.inj (hv.symm.trans (hid ▸ hknown))
    rw [hfind, Option.getD_some, htype]
    exact .var (foldl_extend_of_mem hnodup (List.mem_map_of_mem hiv)) (htype ▸ ht)
  · rw [foldl_extend_of_not_mem hmem] at hv
    have hnone : (Subst.ofList ((axes.map (·.var)).zip (axes.map fun iv => .var (loopVar iv)))).find? v = none := by
      refine Option.eq_none_iff_forall_ne_some.mpr fun e he => hmem ?_
      obtain ⟨p, hp, hid, -⟩ := Expr.exists_of_find? he
      obtain ⟨iv, hiv, rfl⟩ := Subst.exists_of_mem_renaming hp
      exact List.mem_map.mpr ⟨_, List.mem_map_of_mem hiv, hid⟩
    rw [hnone, Option.getD_none]
    refine .var ((foldl_extend_of_not_mem fun hin => ?_).trans hv) ht
    rw [hnew _ hin] at hv
    cases hv

/-- Something can be put in a guarded assignment. -/
theorem NestContext.nest_subst_guarded {X : Set Nat} {Γ Γ' : Context} {τ : Subst} {op : Operation} {guards args : List Expr}
    {v : Expr} (hτ : τ.Translates Γ Γ') (hguards : ∀ e ∈ guards, e.Typed Γ .bool ∧ e.boundVars = [])
    (hargs : ∀ a ∈ args, ∃ t, a.Typed Γ t ∧ a.boundVars = []) :
    ((guarded guards (provides op args [v])).subst τ).Nest X Γ' := by
  induction guards with
  | nil =>
    refine .provide (List.forall_mem_map.mpr fun a ha => ?_)
    obtain ⟨t, ht, hbound⟩ := hargs a ha
    exact ⟨t, ht.subst hbound hτ⟩
  | cons e es ih =>
    obtain ⟨⟨he, hbound⟩, hes⟩ := List.forall_mem_cons.mp hguards
    exact .branch (he.subst hbound hτ) (ih hes)

namespace Stage

open NestContext (rootExpr initLeaves guarded provides underCondition)

variable {Γ Γ' : Context} {ρ : Valuation Int} {L E : Nat → Int} {c : NestContext} {st : Stage} {σ : Subst}
  {dataGuards reduceGuards : List Expr} {f : Fold} {n : Nat} {g g' g₁ : Graph} {nest init : Stmt} {X : Set Nat}

/-- Outside the variables of leaf axes, the outer ones add nothing to what is known. -/
theorem outer_eq {x : Nat} (hx : x ∉ st.leaves.map (·.id)) : (st.outerLeaves.map (·.var)).foldl Context.extend Γ x = Γ x :=
  foldl_extend_of_not_mem fun hmem => hx (by
    rw [IterVar.map_id_map_var] at hmem
    rw [← outer_append_inner st, List.map_append]
    exact List.mem_append_left _ hmem)

namespace Looping

variable (h : st.Looping Γ ρ L E c σ dataGuards)
include h

theorem extends_outer : Expr.Extends Γ ((st.outerLeaves.map (·.var)).foldl Context.extend Γ) ρ ρ := by
  refine fun x t hx => ⟨(outer_eq fun hmem => ?_).trans hx, rfl⟩
  obtain ⟨leaf, hleaf, rfl⟩ := List.mem_map.mp hmem
  rw [h.apart leaf (h.leaves_subset hleaf)] at hx
  cases hx

/-- The start of a reduction is a nest. -/
theorem nest_initNest {v : Expr} (hone : (NestContext.reductionOf st.op).1.identity = [v])
    (hold : ∀ leaf ∈ st.leaves, leaf.id < g.next) (hnew : ∀ x, g.next ≤ x → Γ x = none) (hX : ∀ x, g.next ≤ x → x ∈ X)
    (hinit : (c.initNest st (st.op.axes.map (rootExpr σ)) dataGuards).Yields g init g') :
    init.Nest X ((st.outerLeaves.map (·.var)).foldl Context.extend Γ) := by
  have hsub : initLeaves st ⊆ st.leaves := fun leaf hleaf =>
    List.filter_subset_self _ (st.dataPart_leaves ▸ List.mem_append_right st.outerLeaves hleaf)
  have hdistinctData := (h.measured.dataPart h.parted h.made).consistent.leavesDistinct
  have hdistinct : ((initLeaves st).map (·.id)).Nodup := by
    have hleavesDistinct := hdistinctData
    rw [st.dataPart_leaves, List.map_append] at hleavesDistinct
    exact hleavesDistinct.of_append_right
  obtain ⟨loopVar, s, g₁, hnodup, hbeyond, htypes, hloops, rfl⟩ := NestContext.initNest_inv h.plain hdistinct hinit
  have hfresh : ∀ leaf ∈ initLeaves st, g.next ≤ (loopVar leaf).id := fun leaf hleaf =>
    hbeyond _ (List.mem_map_of_mem (List.mem_map_of_mem hleaf))
  have hunnamed : ∀ x, g.next ≤ x → (st.outerLeaves.map (·.var)).foldl Context.extend Γ x = none := by
    refine fun x hx => (outer_eq fun hmem => ?_).trans (hnew x hx)
    obtain ⟨leaf, hleaf, rfl⟩ := List.mem_map.mp hmem
    exact Nat.not_lt.mpr hx (hold leaf hleaf)
  refine NestContext.nest_foldrM (ρ := ρ) loopVar (·.subst _) (fun leaf hleaf b g₂ b' g₃ hloop Γ' hext hinside hbody => ?_)
    h.extends_outer hnodup (fun leaf hleaf => hunnamed _ (hfresh leaf hleaf)) ?_ hloops
  · have hall := h.leaves_subset (hsub hleaf)
    obtain ⟨r, hr, rfl⟩ := NestContext.initLoop_inv (h.typed leaf hall) hloop
    obtain ⟨u, hu, hextent⟩ := (h.measured.extents leaf hall).ensures r hr
    have hindex : (loopVar leaf).dtype.IsIndex := (htypes leaf hleaf).symm ▸ h.typed leaf hall
    refine .loop (hX _ (hfresh leaf hleaf)) hinside hindex (h.typed leaf hall) (.const (.int (h.typed leaf hall) 0)) hu
      (hextent.typed.subst hextent.boundVars_eq ?_) hbody
    refine Subst.translates_of_unknown (fun p hp => ?_) fun x t hx => (hext x t hx).1
    obtain ⟨jv, hjv, rfl⟩ := Subst.exists_of_mem_renaming hp
    exact h.apart jv (h.leaves_subset (hsub hjv))
  · have hplaced := (h.exists_data []).1
    rw [withAxes_eq_foldl hdistinctData, st.dataPart_leaves, List.map_append, List.foldl_append] at hplaced
    rw [hone]
    have htranslates := Subst.translates_renaming hdistinct hnodup htypes fun x hx => hunnamed x (hbeyond x hx)
    refine NestContext.nest_subst_guarded htranslates (fun e he => ?_) fun a ha => ?_
    · obtain ⟨k, hk⟩ := hplaced.guards e he
      exact ⟨hk.typed, hk.boundVars_eq⟩
    · obtain ⟨iv, hiv, rfl⟩ := List.mem_map.mp ha
      obtain ⟨k, t, -, hk⟩ := hplaced.axes iv hiv
      exact ⟨t, hk.typed, hk.boundVars_eq⟩

end Looping

/-- What is put for axes is of their types where the nest is. -/
theorem translates_rootValues {ρ' : Valuation Int} {guards : List Expr} {axes : List IterVar}
    (hputs : NestContext.Puts σ axes) (hplaced : NestContext.Placed Γ' ρ' σ guards axes)
    (hdistinct : (axes.map (·.id)).Nodup) (hΓ : ∀ x t, Γ x = some t → Γ' x = some t) :
    σ.Translates (Γ.withAxes axes) Γ' := by
  intro v hv ht
  have hfound : ∀ e, σ.find? v = some e → ∃ iv ∈ axes, iv.id = v.id ∧ e = rootExpr σ iv ∧ e.dtype = iv.dtype := by
    intro e he
    obtain ⟨p, hp, hid, rfl⟩ := Expr.exists_of_find? he
    obtain ⟨iv, hiv, rfl, htype⟩ := hputs p hp
    exact ⟨iv, hiv, hid, rfl, htype⟩
  cases hfind : σ.find? v with
  | some e =>
    obtain ⟨iv, hiv, hid, rfl, htype⟩ := hfound e hfind
    obtain ⟨k, t, -, hk⟩ := hplaced.axes iv hiv
    rw [← hid, withAxes_of_mem hdistinct hiv] at hv
    rw [Option.getD_some, ← Option.some.inj hv, ← htype, hk.dtype]
    exact hk.typed
  | none =>
    by_cases hmem : v.id ∈ axes.map (·.id)
    · obtain ⟨iv, hiv, hid⟩ := List.mem_map.mp hmem
      obtain ⟨k, t, -, hk⟩ := hplaced.axes iv hiv
      have hself : rootExpr σ iv = .var iv.var := by
        rw [rootExpr, Subst.find?, show iv.var.id = v.id from hid, ← Subst.find?, hfind, Option.getD_none]
      have hknown : Γ' v.id = some iv.dtype := by
        have htyped := hk.typed
        rw [hself] at htyped
        rw [← hid]
        exact htyped.mem_vars rfl iv.var (by simp [Expr.vars, Expr.postorder, Expr.asVar?])
      rw [← hid, withAxes_of_mem hdistinct hiv] at hv
      exact .var (hknown.trans hv) ht
    · rw [withAxes_of_not_mem hmem] at hv
      exact .var (hΓ _ _ hv) ht

/-- What is built for a stage on its own that reduces is a nest, if its condition is a truth value computed from the
    axes. -/
theorem Reducing.nest_reduce (h : st.Reducing Γ ρ L E c σ dataGuards reduceGuards) (hf : f.Proper Γ n st.op)
    (hcond : ∀ e ∈ f.cond, e.Typed (Γ.withAxes st.op.rootAxes) .bool ∧ e.boundVars = [])
    (hkept : ∀ p ∈ σ, p.2.dtype = p.1.dtype) (hreduce : st.op.reduceAxes ≠ []) (hattached : c.attached = [])
    (hold : ∀ leaf ∈ st.leaves, leaf.id < g.next) (hnew : ∀ x, g.next ≤ x → Γ x = none) {depth : Nat}
    (hX : ∀ x, x ∈ st.leaves.map (·.id) ∨ g.next ≤ x → x ∈ X)
    (hinit : (c.initNest st (st.op.axes.map (rootExpr σ)) dataGuards).Yields g init g₁)
    (hloops : (NestContext.wrapLoops (c.wrap depth st) (some (st.leaves.findIdx (·.kind == .reduction), init))
      (guarded (dataGuards ++ reduceGuards) (underCondition (NestContext.reductionOf st.op).2.2 σ
        (provides st.op (st.op.axes.map (rootExpr σ)) (NestContext.updates st.op (st.op.axes.map (rootExpr σ)) σ))))
      st.leaves).Yields g₁ nest g') : nest.Nest X Γ := by
  obtain ⟨rest, g₂, hrest, houter⟩ := h.around_start hreduce hloops
  have hsplit := outer_append_inner st
  have hvars : ((st.outerLeaves.map (·.var)).map (·.id) ++ (st.innerLeaves.map (·.var)).map (·.id)).Nodup := by
    rw [← List.map_append, ← List.map_append, hsplit, IterVar.map_id_map_var]
    exact h.measured.consistent.leavesDistinct
  have hunknown : ∀ leaf ∈ st.leaves, Γ leaf.id = none := fun leaf hleaf => h.apart leaf (h.leaves_subset hleaf)
  have hroots := h.nodup_rootAxes
  have hwrap (leaf : IterVar) (hleaf : leaf ∈ st.leaves) {b b' : Stmt} {g g' : Graph}
      (hloop : (c.wrap depth st leaf b).Yields g b' g') {Γ' : Context} (hext : Expr.Extends Γ Γ' ρ ρ)
      (hnone : Γ' leaf.id = none) (hb : b.Nest X (Γ'.extend leaf.var)) : b'.Nest X Γ' :=
    h.nest_wrap hattached hleaf (hX _ (Or.inl (List.mem_map_of_mem hleaf))) hloop hext hnone hb
  have hplaced := (h.exists_all []).1
  have hbody : (guarded (dataGuards ++ reduceGuards) (underCondition f.cond σ
      (provides st.op (st.op.axes.map (rootExpr σ)) (NestContext.updates st.op (st.op.axes.map (rootExpr σ)) σ)))).Nest X
      (Γ.withAxes st.leaves) := by
    refine NestContext.nest_guarded (fun e he => ?_) ?_
    · obtain ⟨k, hk⟩ := hplaced.guards e he
      exact hk.typed
    have hprovides : (provides st.op (st.op.axes.map (rootExpr σ))
        (NestContext.updates st.op (st.op.axes.map (rootExpr σ)) σ)).Nest X (Γ.withAxes st.leaves) := by
      refine NestContext.nest_provides (List.forall_mem_map.mpr fun iv hiv => ?_)
      obtain ⟨k, t, -, hk⟩ := hplaced.axes iv (List.mem_append_left _ hiv)
      exact ⟨t, hk.typed⟩
    cases hc : f.cond with
    | none => exact hprovides
    | some e =>
      obtain ⟨he, hbound⟩ := hcond e hc
      have hputs := NestContext.puts_rootValues hroots hkept h.roots
      exact .branch (he.subst hbound (translates_rootValues hputs hplaced hroots fun x t hx =>
        (extends_withAxes (ρ := ρ) hunknown [] x t hx).1)) hprovides
  have hrestNest : rest.Nest X ((st.outerLeaves.map (·.var)).foldl Context.extend Γ) := by
    refine NestContext.nest_foldrM (·.var) (fun s => s)
      (fun leaf hleaf _ _ _ _ hloop _ => hwrap leaf (hsplit ▸ List.mem_append_right _ hleaf) hloop) h.extends_outer
      hvars.of_append_right (fun leaf hleaf => ?_) ?_ hrest
    · refine (foldl_extend_of_not_mem fun hmem => ?_).trans (hunknown leaf (hsplit ▸ List.mem_append_right _ hleaf))
      exact List.disjoint_of_nodup_append hvars hmem (List.mem_map_of_mem (List.mem_map_of_mem hleaf))
    · rw [← List.foldl_append, ← List.map_append, hsplit, ← withAxes_eq_foldl h.measured.consistent.leavesDistinct,
        hf.reductionOf_eq]
      exact hbody
  have hstart := h.nest_initNest (by rw [hf.reductionOf_eq]) hold hnew (fun x hx => hX x (Or.inr hx)) hinit
  refine NestContext.nest_foldrM (Γ := Γ) (ρ := ρ) (·.var) (fun s => s)
    (fun leaf hleaf _ _ _ _ hloop _ => hwrap leaf (hsplit ▸ List.mem_append_left _ hleaf) hloop) (fun x t hx => ⟨hx, rfl⟩)
    hvars.of_append_left (fun leaf hleaf => hunknown leaf (hsplit ▸ List.mem_append_left _ hleaf)) ?_ houter
  exact Stmt.nest_ofList (List.forall_mem_cons.mpr ⟨hstart, List.forall_mem_singleton.mpr hrestNest⟩)

end Stage

namespace Schedule

variable {s s₀ s₁ : Schedule} {g g' g₀ g₁ g₂ g₃ : Graph} {st : Stage}

/-- After any transforms that note nothing about axes, with no stage computed inside another one, let something be put for
    the provisions in the nest of a stage that does not reduce. If the arithmetic of indices is exact in the types that a
    program computes them in, then a run of the nest that does not fail has written each output once at each point of the
    domain, and nowhere else. -/
theorem makes_once_of_transforms {outputs : List Operation} {ts : List Transform} {m : Ranges} {c : NestContext}
    {Γ : Context} {ρ : Valuation Int} {depth : Nat} {nest : Stmt} {leaf : OpRef → Int → Expr → List Expr → Stmt} {f : Frame}
    {J : Log} {T : Contents Int} (hnum : g₀.Numbered) (hparted : g₀.Parted) (hwired : g₀.Wired) (hapart : g₀.Apart)
    (hout : ∀ o ∈ outputs, g₀.op? o.idx = some o)
    (hcreate : (create outputs).Yields g₀ s₀ g₁) (hts : ∀ t ∈ ts, t.Plain)
    (hrun : (ts.forM Transform.run).Yields s₀ g₁ () s₁ g₂) (hbounds : inferBounds.Yields s₁ g₂ m s g₃)
    (hc : NestContext.ofSchedule s m = .ok c) (hst : st ∈ s.stages) (hroot : st.attach = .root)
    (hattached : c.attached = []) (hreduce : st.op.reduceAxes = []) (hsymbols : st.Symbolic Γ ρ)
    (hnest : (c.computeNest st (c.wrap depth st)).Yields g nest g') (hexact : c.exact .words ρ st = .ok true)
    (hJ : ∀ leaf ∈ st.leaves, J.Ignores leaf.id) (hleaf : ∀ t ∈ nest.stmts, t.Served leaf f J T) :
    Thread.Brings (J.Stands Γ ρ []) ((nest.fill leaf).exec f) fun _ l m => ∃ ws, J.Stands Γ ρ ws l m ∧
      ∀ i < st.op.numOutputs, (indicesOf (st.op.idx, i) ws).Nodup ∧
        ∀ x, x ∈ indicesOf (st.op.idx, i) ws ↔ List.Forall₂ (IterVar.Spans ρ) st.op.axes x := by
  obtain ⟨hcompute, values, σ, guards, bodies, g₄, hofStage, hσ, hguards, hlength, hloops⟩ :=
    NestContext.computeNest_inv hroot hreduce hnest
  obtain ⟨L, E, hdomain, hattached', horderly, -, -, hlooping⟩ := exists_looping hnum hparted hwired hapart hout hcreate hts
    hrun hbounds hc hst hroot hcompute hsymbols
  have hnested := hlooping hσ ⟨values, hofStage, hguards⟩
  have hdata := hnested.leaves_dataPart horderly hreduce
  have hmem : ∀ leaf ∈ st.leaves, leaf.id ∈ {x | x ∈ st.leaves.map (·.id)} := fun leaf hleaf => List.mem_map_of_mem hleaf
  have hmakes := (hnested.nest_wrapLoops hdata hattached hloops hmem).makes (List.forall_mem_map.mpr hJ) hleaf ρ
  refine (hmakes []).mono fun _ l m hl => ⟨nest.writes .words ρ T, hl, fun i hi => ?_⟩
  rw [Operation.numOutputs_of_isCompute hcompute, ← hlength] at hi
  obtain ⟨xs, hxs, hnodup, honce⟩ := hnested.indices_once (R := .words) (π := ρ) (T := T) hdata hdomain
    (fun _ _ => rfl) hexact hattached' hi hloops
  have hindex : FaithfulReading.words.index = id := rfl
  rw [hindex, List.map_id_fun, List.map_id] at hxs
  have hindices : indicesOf (st.op.idx, (i : Int)) (nest.writes .words ρ T) = xs := hxs
  rw [hindices]
  exact ⟨hnodup, honce⟩

/-- After any transforms that split, fuse, reorder or tile axes, let something be put for the provisions in the nest of a
    stage that reduces, whose condition is a truth value computed from the axes. If the arithmetic of indices is exact in
    the types that a program computes them in, then a run of the nest that does not fail has computed the reduction. -/
theorem makes_fold_of_transforms {outputs : List Operation} {ts : List Transform} {m : Ranges} {c : NestContext}
    {Γ : Context} {ρ : Valuation Int} {f : Fold} {depth : Nat} {nest : Stmt} {leaf : OpRef → Int → Expr → List Expr → Stmt}
    {frame : Frame} {J : Log} {T : Contents Int} (hnum : g₀.Numbered) (hparted : g₀.Parted) (hwired : g₀.Wired)
    (hapart : g₀.Apart) (hout : ∀ o ∈ outputs, g₀.op? o.idx = some o) (hcreate : (create outputs).Yields g₀ s₀ g₁)
    (hts : ∀ t ∈ ts, t.Reshapes) (hrun : (ts.forM Transform.run).Yields s₀ g₁ () s₁ g₂)
    (hbounds : inferBounds.Yields s₁ g₂ m s g₃) (hc : NestContext.ofSchedule s m = .ok c) (hst : st ∈ s.stages)
    (hreduce : st.op.reduceAxes ≠ []) (hsymbols : st.Symbolic Γ ρ) (hold : g₃.next ≤ g.next)
    (hunnamed : ∀ x, g.next ≤ x → Γ x = none) (hnest : (c.computeNest st (c.wrap depth st)).Yields g nest g')
    (hproper : f.Proper Γ g₀.next st.op)
    (hcond : ∀ e ∈ f.cond, e.Typed (Γ.withAxes st.op.rootAxes) .bool ∧ e.boundVars = [])
    (hexact : c.exact .words ρ st = .ok true)
    (hkept : ∀ σ, st.rootValues c.ranges = .ok σ → ∀ p ∈ σ, p.2.dtype = p.1.dtype)
    (hcommutes : f.Commutes .words T ρ) (hJ : ∀ x, x ∈ st.leaves.map (·.id) ∨ g.next ≤ x → J.Ignores x)
    (hleaf : ∀ t ∈ nest.stmts, t.Served leaf frame J T) :
    Thread.Brings (J.Stands Γ ρ []) ((nest.fill leaf).exec frame) fun _ l m => ∃ ws, J.Stands Γ ρ ws l m ∧
      f.Computed .words T ρ st.op (fun iv => ints (iv.start ρ) (iv.length ρ)) ws := by
  have hvalues : FaithfulReading.words.Represents Γ ρ ρ := fun _ _ => rfl
  obtain ⟨L, E, σ, dataGuards, reduceGuards, init, g₄, hreducing, hdomain, hattached, hnext, hleaves, hinit, hloops⟩ :=
    exists_reducing hnum hparted hwired hapart hout hcreate hts hrun hbounds hc hst hreduce hsymbols hold hnest
  have hnumbered : ∀ leaf ∈ st.leaves, leaf.id < g.next := fun leaf hleaf => (hleaves leaf hleaf).2
  have hmakes := (hreducing.nest_reduce hproper hcond (hkept σ hreducing.roots) hreduce hattached hnumbered hunnamed
    (fun x hx => hx) hinit hloops).makes hJ hleaf ρ
  refine (hmakes []).mono fun _ l m hl => ⟨nest.writes .words ρ T, hl, ?_⟩
  exact hreducing.computed_nest (R := .words) hproper hvalues (fun leaf hleaf => (hleaves leaf hleaf).1) hexact
    (hkept σ hreducing.roots) hreduce hattached hnext hnumbered hunnamed hinit hloops hcommutes hdomain

end Schedule

end TensorNest

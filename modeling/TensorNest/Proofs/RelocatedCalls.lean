import TensorNest.Proofs.TrackedThreads

/-! # Calls do not depend on the places of arrays

A function of a module, on the host or on a device, does the same where the arrays are elsewhere
(`Modules.relocatable_callWithin`). -/

namespace TensorNest

variable {p q : Relocation}

/-! ### Threads in lockstep -/

namespace Resumption

variable {r r' : Resumption Machine (Except Error Unit)} {k k' : Machine → Resumption Machine (Except Error Unit)}

/-- A run that has not failed does the same on a relocated machine. -/
abbrev Keeps (p : Relocation) (r r' : Resumption Machine (Except Error Unit)) : Prop :=
  r.Tracks (·.isOk = false) (fun _ a b => a = .ok () ∧ b = .ok ()) p r'

theorem Keeps.both (h : r.Keeps p r') (hk : ∀ q m m', p.Extends q → m.Moved q m' → (k m).Keeps q (k' m')) :
    (r.both k).Keeps p (r'.both k') := by
  induction h generalizing k k' with
  | @failed p a m r' ha =>
    cases a with
    | error e => exact .failed rfl
    | ok => cases ha
  | done hpq hm ha =>
    obtain ⟨rfl, rfl⟩ := ha
    exact (hk _ _ _ hpq hm).weaken hpq
  | @wait p q m m' resume resume' hpq hm h ih =>
    have hs := hk q m m' hpq hm
    simp only [Resumption.both]
    generalize k m = x, k' m' = y at hs
    cases hs with
    | @failed _ a t _ ha =>
      cases a with
      | error e => exact .failed rfl
      | ok => cases ha
    | done hqr ht ha =>
      obtain ⟨rfl, rfl⟩ := ha
      exact .wait (hpq.trans hqr) ht fun r t t' hr ht => h r t t' (hqr.trans hr) ht
    | wait hqr ht h' =>
      refine .wait (hpq.trans hqr) ht fun r u u' hr hu => (ih r u u' (hqr.trans hr) hu) ?_
      exact fun s m m' hs hm => h' s m m' (hr.trans hs) hm

/-- Threads in lockstep do the same on a relocated machine. -/
theorem keeps_lockstep {threads threads' : List (Machine → Resumption Machine (Except Error Unit))}
    (h : List.Forall₂ (fun x y => ∀ q m m', p.Extends q → m.Moved q m' → (x m).Keeps q (y m')) threads threads') :
    ∀ q m m', p.Extends q → m.Moved q m' → (lockstep threads m).Keeps q (lockstep threads' m') := by
  induction h with
  | nil => exact fun q m m' _ hm => .done (.refl q) hm ⟨rfl, rfl⟩
  | cons hx _ ih => exact fun q m m' hq hm => (hx q m m' hq hm).both fun r t t' hr ht => ih r t t' (hq.trans hr) ht

end Resumption

/-! ### Functions -/

/-- A memory without workspaces and shared buffers, as a function finds it. -/
theorem Memory.Moved.machine {m m' : Memory} (h : m.Moved p m') : Machine.Moved p { memory := m } { memory := m' } :=
  ⟨h, .nil, .nil, .nil⟩

/-- What the caller of an effect sees. -/
theorem Run.Tracks.effect {x y : Run Unit} (h : x.Tracks p (fun _ _ _ => True) y) {m m' m₁ : Memory} (hm : m.Moved p m')
    (hx : (x.effect.run.run m : Except Error Unit × Memory) = (.ok (), m₁)) :
    ∃ q m₁', p.Extends q ∧ (y.effect.run.run m' : Except Error Unit × Memory) = (.ok (), m₁') ∧ m₁.Moved q m₁' := by
  rw [Func.run_effect] at hx
  cases hresult : Run.on x { memory := m } with
  | mk r s =>
    rw [hresult] at hx
    cases hx
    obtain ⟨q, _, s', hq, hs', hmoved, -⟩ := h p (.refl p) _ _ hm.machine () s hresult
    exact ⟨q, s'.memory, hq, by rw [Func.run_effect, hs'], hmoved.memory⟩

/-- A run to its end as a step. -/
theorem Run.tracks_finish {r r' : Machine → Resumption Machine (Except Error Unit)}
    (h : ∀ q m m', p.Extends q → m.Moved q m' → (r m).Keeps q (r' m')) :
    Run.Tracks p (fun _ _ _ => True)
      (do
        let (a, s) := (r (← get)).finish
        set s
        liftM a)
      (do
        let (a, s) := (r' (← get)).finish
        set s
        liftM a) := by
  intro q hq m m' hm u m₁ hu
  rw [Run.on_step (fun m => (r m).finish)] at hu
  rw [Run.on_step (fun m => (r' m).finish)]
  have hok : (r m).finish.1 = .ok u := congrArg Prod.fst hu
  obtain ⟨s, hs, hmoved, -, hok'⟩ := (h q m m' hq hm).finish (by rw [hok]; simp [Except.isOk, Except.toBool])
  have hm₁ : (r m).finish.2 = m₁ := congrArg Prod.snd hu
  exact ⟨s, (), (r' m').finish.2, hs, Prod.ext hok' rfl, hm₁ ▸ hmoved, trivial⟩

theorem Env.moved_nil {env : Env} : Env.Moved p [] env := fun _ _ h => by cases h

namespace Func

variable {g : Func} {f : Frame} {xs : List Value} {env env' : Env} {l : Linkage}

theorem thread_keeps (hcall : Relocatable f.call) (hargs : ValuesMoved p f.args xs) (henv : env.Moved p env') :
    ∀ q m m', p.Extends q → m.Moved q m' → (g.thread f env m).Keeps q (g.thread { f with args := xs } env' m') := by
  intro q m m' hq hm
  have hthread (f : Frame) (env : Env) (m : Machine) : g.thread f env m =
      ((g.body.record f).start { env } m).bind fun r t => .done (r.1.map fun _ => ()) t := by
    show ((g.body.exec f).start { env } m).bind _ = _
    rw [Stmt.start_exec, Resumption.bind_assoc]
    rfl
  rw [hthread, hthread]
  have hbody := Stmt.tracks_self (D := True) hcall (hargs.mono hq)
    (.inr trivial) g.body q (.refl q) { env } { env := env' } m m'
    ⟨henv.mono hq, fun _ => rfl⟩ hm
  refine hbody.bind (fun r a m r' ha => ?_) fun r a b m m' hr hm hab => ?_
  · obtain ⟨_ | a, l⟩ := a
    · exact .failed rfl
    · cases ha
  · obtain ⟨es, es', ha, hb, -, -⟩ := hab
    rw [ha, hb]
    exact .done (.refl r) hm ⟨rfl, rfl⟩

theorem relocatable_runHost (hcall : Relocatable l.call) (g : Func) : Relocatable fun _ xs => g.runHost l xs := by
  intro p e xs xs' m m' m₁ hxs hm hrun
  by_cases hkind : g.kind != .host
  · simp only [runHost, hkind, if_true] at hrun
    cases hrun
  · simp only [runHost, hkind, Bool.false_eq_true, if_false] at hrun ⊢
    exact Run.Tracks.effect (Run.tracks_finish fun q m m' hq hm =>
      thread_keeps (f := { name := g.name, args := xs, resolve := l.resolve, call := l.call }) hcall hxs
        Env.moved_nil q m m' hq hm) hm hrun

theorem tracks_bindParams (ps : List Param) {xs xs' : List Value} (hxs : ValuesMoved p xs xs') (henv : env.Moved p env') :
    Run.Tracks p Env.Moved (bindParams ps xs env) (bindParams ps xs' env') := by
  induction ps generalizing p xs xs' env env' with
  | nil => exact Run.tracks_pure fun q hq => henv.mono hq
  | cons param ps ih =>
    cases hxs with
    | nil => cases param <;> exact Run.tracks_pure fun q hq => henv.mono hq
    | cons hx hxs =>
      cases param with
      | var v => exact (tracks_place hx).bind fun q y y' hq hy => ih (ValuesMoved.mono hxs hq) ((henv.mono hq).set hy)
      | buffer b => exact ih hxs henv

theorem tracks_runBlock (hcall : Relocatable f.call) (henv : env.Moved p env') (hf : f.args = [])
    (block : List (String × Nat))
    (threads : List (List (String × Nat))) :
    Run.Tracks p (fun _ _ _ => True) (g.runBlock f env block threads) (g.runBlock f env' block threads) := by
  have hreset : Run.Tracks p (fun _ _ _ => True) (modify fun s : Machine => { s with blockBuffers := [] } : Run PUnit)
      (modify fun s : Machine => { s with blockBuffers := [] }) := by
    intro q hq m m' hm u m₁ hu
    cases hu
    exact ⟨q, _, _, .refl q, rfl, ⟨hm.memory, hm.workspaces, .nil, hm.launchBuffers⟩, trivial⟩
  refine hreset.bind fun q _ _ hq _ => Run.tracks_finish (Resumption.keeps_lockstep ?_)
  refine List.forall₂_map_left_iff.mpr (List.forall₂_map_right_iff.mpr (List.forall₂_same.mpr fun coords _ => ?_))
  have hargs : ValuesMoved q ({ f with coords := some (block ++ coords) } : Frame).args f.args := by
    rw [hf]
    exact .nil
  exact fun r m m' hr hm =>
    thread_keeps (f := { f with coords := some (block ++ coords) }) hcall hargs (henv.mono hq) r m m' hr hm

theorem tracks_extents {m m' : Memory} (hm : m.Moved p m') {axes : List IterVar} {xs xs' : List Value}
    (hxs : ValuesMoved p xs xs')
    (es : List (String × Nat)) :
    Run.Tracks p Run.Same
      ((axes.zip xs).foldlM (fun es (d : IterVar × Value) => do
        let n ← (d.2.toInt m : Except Error Int)
        return setExtent d.1.tag n.toNat es) es)
      ((axes.zip xs').foldlM (fun es (d : IterVar × Value) => do
        let n ← (d.2.toInt m' : Except Error Int)
        return setExtent d.1.tag n.toNat es) es) := by
  induction axes generalizing es xs xs' with
  | nil => exact Run.tracks_pure fun _ _ => rfl
  | cons iv axes ih =>
    cases hxs with
    | nil => exact Run.tracks_pure fun _ _ => rfl
    | cons hx hxs =>
      rw [List.zip_cons_cons, List.zip_cons_cons, List.foldlM_cons, List.foldlM_cons]
      refine Run.Tracks.bind (R := Run.Same) ?_ fun q es' _ hq h => h ▸ (ih hxs es').mono hq
      exact (Run.tracks_same (hx.toInt hm)).bind fun q n _ _ h => h ▸ Run.tracks_pure fun _ _ => rfl

theorem relocatable_launch (hcall : Relocatable l.call) (g : Func) : Relocatable fun _ xs => g.launch l xs := by
  intro p e xs xs' m m' m₁ hxs hm hrun
  have htake : ValuesMoved p (xs.take g.params.length) (xs'.take g.params.length) := List.forall₂_take _ hxs
  have hdrop : ValuesMoved p (xs.drop g.params.length) (xs'.drop g.params.length) := List.forall₂_drop _ hxs
  simp only [launch, htake.length_eq, hdrop.length_eq] at hrun ⊢
  split at hrun
  · cases hrun
  · rename_i hparams
    rw [if_neg hparams]
    split at hrun
    · cases hrun
    · rename_i hextents
      rw [if_neg hextents]
      refine Run.Tracks.effect (Run.tracks_get fun q m m' hq hm => ?_) hm hrun
      refine (tracks_extents hm.memory (ValuesMoved.mono hdrop hq) []).bind fun r es _ hr h => h ▸ ?_
      refine (tracks_bindParams g.params (ValuesMoved.mono htake (hq.trans hr)) Env.moved_nil).bind
        fun s env env' hs henv => ?_
      have hblocks (blocks : List (List (String × Nat))) (threads : List (List (String × Nat))) (f : Frame)
          (hf : f.args = [])
          (hcall : Relocatable f.call) : Run.Tracks s (fun _ _ _ => True) (blocks.forM fun block =>
            runBlock g f env block threads)
            (blocks.forM fun block => runBlock g f env' block threads) := by
        induction blocks with
        | nil => exact Run.tracks_pure fun _ _ => trivial
        | cons block blocks ih => exact (tracks_runBlock hcall henv hf block threads).bind fun t _ _ ht _ => ih.mono ht
      exact hblocks _ _ _ rfl hcall

end Func

/-- A function of a module does the same where the arrays are elsewhere. -/
theorem Modules.relocatable_callWithin (ms : Modules) (depth : Nat) : Relocatable (ms.callWithin depth) := by
  induction depth with
  | zero =>
    intro p e xs xs' m m' m₁ _ _ hrun
    cases hrun
  | succ depth ih =>
    -- A call succeeds where the effect of the function does; only the failures are worded anew.
    have hatCall {p : Relocation} {x y : Effect Unit} {name : String} {m m' m₁ : Memory}
        (h : (x.run.run m : Except Error Unit × Memory) = (.ok (), m₁) →
          ∃ q m₁', p.Extends q ∧ (y.run.run m' : Except Error Unit × Memory) = (.ok (), m₁') ∧ m₁.Moved q m₁')
        (hx : ((x.atCall name).run.run m : Except Error Unit × Memory) = (.ok (), m₁)) :
        ∃ q m₁', p.Extends q ∧ ((y.atCall name).run.run m' : Except Error Unit × Memory) = (.ok (), m₁') ∧
          m₁.Moved q m₁' := by
      rw [Func.run_atCall] at hx
      rcases hresult : (x.run.run m : Except Error Unit × Memory) with ⟨_ | _, m₂⟩
      · rw [hresult] at hx
        cases hx
      · rw [hresult] at hx
        cases hx
        obtain ⟨q, m₁', hq, hy, hmoved⟩ := h hresult
        exact ⟨q, m₁', hq, by rw [Func.run_atCall, hy]; rfl, hmoved⟩
    intro p e xs xs' m m' m₁ hxs hm hrun
    simp only [callWithin, hxs.length_eq] at hrun ⊢
    split at hrun
    · rename_i hkind
      rw [if_pos hkind]
      exact hatCall (Func.relocatable_launch ih e.func p e xs xs' m m' m₁ hxs hm) hrun
    · rename_i hkind
      rw [if_neg hkind]
      split at hrun
      · cases hrun
      · rename_i hcount
        rw [if_neg hcount]
        exact hatCall (Func.relocatable_runHost ih e.func p e xs xs' m m' m₁ hxs hm) hrun

end TensorNest

import Mathlib.Data.List.Nodup
import TensorNest.Proofs.Regions

/-! # The grid of a launch

A launch takes the steps of a region thread by thread, with loops in place of the thread regions they are
taken in another order. If steps of different threads commute, both do the same to the memory
(`Func.launch_runs_loops`). -/

namespace TensorNest

/-! ### Steps that commute -/

namespace Run

/-- Two steps do the same in either order. -/
def Commutes (a b : Run Unit) : Prop :=
  (a >>= fun _ => b) = (b >>= fun _ => a)

variable {α κ : Type} {run : α → Run Unit} {a : Run Unit} {l : List α}

theorem Commutes.symm {b : Run Unit} (h : Commutes a b) : Commutes b a := Eq.symm h

theorem forM_congr {run' : α → Run Unit} (h : ∀ x ∈ l, run x = run' x) : l.forM run = l.forM run' := by
  induction l with
  | nil => rfl
  | cons x l ih =>
    obtain ⟨hx, hl⟩ := List.forall_mem_cons.mp h
    show (run x >>= fun _ => l.forM run) = (run' x >>= fun _ => l.forM run')
    rw [hx, ih hl]

theorem commutes_forM (h : ∀ x ∈ l, Commutes a (run x)) : Commutes a (l.forM run) := by
  induction l with
  | nil =>
    show (a >>= fun _ => pure ()) = (pure () >>= fun _ => a)
    rw [pure_bind, bind_pure_unit]
  | cons x l ih =>
    obtain ⟨hx, hl⟩ := List.forall_mem_cons.mp h
    show (a >>= fun _ => run x >>= fun _ => l.forM run) = ((run x >>= fun _ => l.forM run) >>= fun _ => a)
    rw [← bind_assoc, hx, bind_assoc, ih hl, bind_assoc]

/-- The steps of one kind can be taken before those of the other kind if they commute with them. -/
theorem forM_split (p : α → Bool) (h : ∀ x ∈ l, ∀ y ∈ l, p x = true → p y = false → Commutes (run x) (run y)) :
    l.forM run = ((l.filter p).forM run >>= fun _ => (l.filter fun x => !p x).forM run) := by
  induction l with
  | nil => rfl
  | cons x l ih =>
    have hl := ih fun y hy z hz => h y (List.mem_cons_of_mem x hy) z (List.mem_cons_of_mem x hz)
    show (run x >>= fun _ => l.forM run) = _
    rw [hl, List.filter_cons, List.filter_cons]
    by_cases hp : p x = true
    · rw [if_pos hp, if_neg (by simp [hp]), ← bind_assoc]
      rfl
    · have hfalse : p x = false := by simpa using hp
      have hpast : Commutes (run x) ((l.filter p).forM run) := commutes_forM fun y hy => by
        obtain ⟨hy, hpy⟩ := List.mem_filter.mp hy
        exact (h y (List.mem_cons_of_mem x hy) x List.mem_cons_self hpy hfalse).symm
      rw [if_neg hp, if_pos (by simp [hfalse]), ← bind_assoc, hpast, bind_assoc]
      rfl

/-- If steps of different threads commute, each thread can take all its steps at once. -/
theorem forM_grouped [DecidableEq κ] (key : α → κ) {ks : List κ} (hnodup : ks.Nodup) (hall : ∀ x ∈ l, key x ∈ ks)
    (hcommute : ∀ x ∈ l, ∀ y ∈ l, key x ≠ key y → Commutes (run x) (run y)) :
    l.forM run = ks.forM fun k => (l.filter fun x => key x = k).forM run := by
  induction ks generalizing l with
  | nil =>
    obtain rfl : l = [] := List.eq_nil_iff_forall_not_mem.mpr fun x hx => List.not_mem_nil (hall x hx)
    rfl
  | cons k ks ih =>
    obtain ⟨hk, hks⟩ := List.nodup_cons.mp hnodup
    have hrest := ih (l := l.filter fun x => !decide (key x = k)) hks
      (fun x hx => by
        obtain ⟨hx, hne⟩ := List.mem_filter.mp hx
        exact (List.mem_cons.mp (hall x hx)).resolve_left (by simpa using hne))
      fun x hx y hy => hcommute x (List.mem_of_mem_filter hx) y (List.mem_of_mem_filter hy)
    have hsame : ∀ k' ∈ ks, (l.filter fun x => !decide (key x = k)).filter (fun x => key x = k') = l.filter fun x =>
      key x = k' := by
      intro k' hk'
      rw [List.filter_filter]
      refine List.filter_congr fun x _ => ?_
      by_cases hx : key x = k'
      · have hne : k' ≠ k := fun heq => hk (heq ▸ hk')
        simp [hx, hne]
      · simp [hx]
    rw [forM_split (fun x => key x = k) fun x hx y hy hpx hpy => hcommute x hx y hy (by
      have hxk : key x = k := by simpa using hpx
      have hyk : key y ≠ k := by simpa using hpy
      rw [hxk]
      exact hyk.symm), hrest]
    rw [forM_congr fun k' hk' => congrArg (List.forM · run) (hsame k' hk')]
    rfl

end Run

theorem Memory.write_comm {m : Memory} {s s' : Nat} {o o' : Int} {x y : Number} (h : s ≠ s' ∨ o.toNat ≠ o'.toNat) :
    (m.write s o x).write s' o' y = (m.write s' o' y).write s o x := by
  unfold write
  refine Array.ext (by simp) fun i hi hi' => ?_
  simp only [Array.getElem_modify]
  by_cases hs : s = i
  · by_cases hs' : s' = i
    · have ho : o.toNat ≠ o'.toNat := h.resolve_left fun hne => hne (hs.trans hs'.symm)
      simp only [hs, hs', if_true]
      exact Array.setIfInBounds_comm _ _ ho
    · simp [hs, hs']
  · simp [hs]

/-- A step that does not fail and changes nothing but memory. -/
def Run.Writing (a : Run Unit) : Prop :=
  ∃ change : Memory → Memory, ∀ m, on a m = (.ok (), { m with memory := change m.memory })

namespace Run

variable {a b : Run Unit}

theorem writing_pure : Writing (pure ()) := ⟨id, fun _ => rfl⟩

theorem Writing.bind (ha : a.Writing) (hb : b.Writing) : Writing (a >>= fun _ => b) := by
  obtain ⟨first, ha⟩ := ha
  obtain ⟨second, hb⟩ := hb
  refine ⟨second ∘ first, fun m => ?_⟩
  rw [on_bind, ha m]
  exact hb _

theorem writing_forM {α : Type} {run : α → Run Unit} {l : List α} (h : ∀ x ∈ l, Writing (run x)) :
    Writing (l.forM run) := by
  induction l with
  | nil => exact writing_pure
  | cons x l ih =>
    obtain ⟨hx, hl⟩ := List.forall_mem_cons.mp h
    exact hx.bind (ih hl)

/-- Writing an element. -/
def put (s : Nat) (o : Int) (x : Number) : Run Unit :=
  onMemory fun m => (m.write s o x, ())

theorem writing_put (s : Nat) (o : Int) (x : Number) : Writing (put s o x) := ⟨fun cells => cells.write s o x, fun _ => rfl⟩

theorem commutes_put {s s' : Nat} {o o' : Int} {x y : Number} (h : s ≠ s' ∨ o.toNat ≠ o'.toNat) :
    Commutes (put s o x) (put s' o' y) := by
  funext m
  have hleft : on (put s o x >>= fun _ => put s' o' y) m =
    (.ok (), { m with memory := (m.memory.write s o x).write s' o' y }) := rfl
  have hright : on (put s' o' y >>= fun _ => put s o x) m =
    (.ok (), { m with memory := (m.memory.write s' o' y).write s o x }) := rfl
  show on _ m = on _ m
  rw [hleft, hright, Memory.write_comm h]

end Run

/-! ### Coordinates -/

namespace Func

variable {es es' : List (String × Nat)} {C : List (String × Nat)}

theorem grid_append (es es' : List (String × Nat)) : grid (es ++ es') = (grid es).flatMap fun b =>
    (grid es').map (b ++ ·) := by
  induction es with
  | nil => simp [grid]
  | cons e es ih =>
    obtain ⟨t, n⟩ := e
    simp only [List.cons_append, grid, ih, List.flatMap_assoc, List.map_flatMap, List.flatMap_map, List.map_map]
    rfl

theorem nodup_grid (es : List (String × Nat)) : (grid es).Nodup := by
  induction es with
  | nil => simp [grid]
  | cons e es ih =>
    obtain ⟨t, n⟩ := e
    rw [grid, List.nodup_flatMap]
    refine ⟨fun i _ => ih.map fun c c' h => (List.cons.inj h).2,
      List.Pairwise.imp (fun {i j} hne c hc hc' => ?_) List.nodup_range⟩
    obtain ⟨b, -, rfl⟩ := List.mem_map.mp hc
    obtain ⟨b', -, heq⟩ := List.mem_map.mp hc'
    exact hne (Prod.mk.inj (List.cons.inj heq).1).2.symm

/-- Coordinates on the axes of given extents. -/
def onAxes (es : List (String × Nat)) (c : List (String × Nat)) : List (String × Nat) :=
  es.map fun e => (e.1, (c.lookup e.1).getD 0)

theorem lookup_onAxes {c : List (String × Nat)} {e : String × Nat} (he : e ∈ es) :
    (onAxes es c).lookup e.1 = some ((c.lookup e.1).getD 0) := by
  induction es with
  | nil => cases he
  | cons d es ih =>
    show ((d.1, (c.lookup d.1).getD 0) :: onAxes es c).lookup e.1 = _
    by_cases heq : e.1 = d.1
    · rw [heq, List.lookup_cons_self]
    · rw [List.lookup_cons, beq_false_of_ne heq]
      exact ih ((List.mem_cons.mp he).resolve_left fun hed => heq (congrArg (·.1) hed))

theorem onAxes_mem_grid {c : List (String × Nat)} (h : ∀ e ∈ es, (c.lookup e.1).getD 0 < e.2) : onAxes es c ∈ grid es := by
  induction es with
  | nil => simp [grid, onAxes]
  | cons e es ih =>
    obtain ⟨t, n⟩ := e
    obtain ⟨he, hes⟩ := List.forall_mem_cons.mp h
    exact List.mem_flatMap.mpr ⟨_, List.mem_range.mpr he, List.mem_map_of_mem (ih hes)⟩

theorem map_fst_of_mem_grid (h : C ∈ grid es) : C.map (·.1) = es.map (·.1) := by
  induction es generalizing C with
  | nil =>
    obtain rfl : C = [] := by simpa [grid] using h
    rfl
  | cons e es ih =>
    obtain ⟨t, n⟩ := e
    obtain ⟨i, -, hC⟩ := List.mem_flatMap.mp h
    obtain ⟨C', hC', rfl⟩ := List.mem_map.mp hC
    rw [List.map_cons, ih hC', List.map_cons]

/-- Coordinates of a grid are given by what they are on its axes. -/
theorem onAxes_of_mem_grid (hnodup : (es.map (·.1)).Nodup) (h : C ∈ grid es) : onAxes es C = C := by
  induction es generalizing C with
  | nil =>
    obtain rfl : C = [] := by simpa [grid] using h
    rfl
  | cons e es ih =>
    obtain ⟨t, n⟩ := e
    obtain ⟨hfresh, hnodup⟩ := List.nodup_cons.mp hnodup
    obtain ⟨i, -, hC⟩ := List.mem_flatMap.mp h
    obtain ⟨C', hC', rfl⟩ := List.mem_map.mp hC
    have hrest : onAxes es ((t, i) :: C') = onAxes es C' := List.map_congr_left fun e he => by
      have hne : e.1 ≠ t := fun heq => hfresh (List.mem_map.mpr ⟨e, he, heq⟩)
      rw [List.lookup_cons, beq_false_of_ne hne]
    show (t, (List.lookup t ((t, i) :: C')).getD 0) :: onAxes es ((t, i) :: C') = _
    rw [hrest, ih hnodup hC', List.lookup_cons_self, Option.getD_some]

theorem lookup_of_mem_grid (h : C ∈ grid es) {t : String} (ht : t ∈ es.map (·.1)) : ∃ i, C.lookup t = some i := by
  rw [← map_fst_of_mem_grid h] at ht
  have hsome : (C.lookup t).isSome := by
    obtain ⟨p, hp, rfl⟩ := List.mem_map.mp ht
    simpa using ⟨p.2, hp⟩
  exact Option.isSome_iff_exists.mp hsome

end Func

/-! ### Blocks and threads as one grid -/

namespace Stmt

open Run

variable {s : Stmt} {f : Frame} {env : Env} {tags : List String}

/-- The extents of blocks followed by those of the threads in them. -/
def launchOrder (extents : List (String × Nat)) : List (String × Nat) :=
  extents.filter (fun e => Func.isBlockTag e.1) ++ extents.filter fun e => !Func.isBlockTag e.1

theorem launchOrder_perm (extents : List (String × Nat)) : (launchOrder extents).Perm extents :=
  List.filter_append_perm _ extents

/-- A block forgets the buffers that the threads of the block before it shared. -/
def resetBlock : Run Unit :=
  modify fun m => { m with blockBuffers := [] }

theorem commutes_resetBlock {a : Run Unit} (h : a.Writing) : Commutes resetBlock a := by
  obtain ⟨change, h⟩ := h
  funext m
  have hreset : ∀ m, on resetBlock m = (.ok (), { m with blockBuffers := [] }) := fun _ => rfl
  show on (resetBlock >>= fun _ => a) m = on (a >>= fun _ => resetBlock) m
  rw [on_bind, on_bind, h m, hreset]
  show on a _ = on resetBlock _
  rw [h, hreset]

theorem on_resetBlock_bind {x : Run Unit} {m : Machine} (hm : m.blockBuffers = []) :
    on (resetBlock >>= fun _ => x) m = on x m := by
  have hsame : { m with blockBuffers := [] } = m := by rw [← hm]
  show on x { m with blockBuffers := [] } = on x m
  rw [hsame]

theorem forM_resetBlock {α : Type} {l : List α} {run : α → Run Unit} (h : ∀ x ∈ l, Commutes resetBlock (run x)) :
    (resetBlock >>= fun _ => l.forM fun x => resetBlock >>= fun _ => run x) = (resetBlock >>= fun _ => l.forM run) := by
  induction l with
  | nil => rfl
  | cons x l ih =>
    obtain ⟨hx, hl⟩ := List.forall_mem_cons.mp h
    have htwice : ∀ x : Run Unit, (resetBlock >>= fun _ => resetBlock >>= fun _ => x) = (resetBlock >>= fun _ => x) :=
      fun _ => rfl
    have hpast : ∀ y : Run Unit, (resetBlock >>= fun _ => run x >>= fun _ => y) =
      (run x >>= fun _ => resetBlock >>= fun _ => y) := by
      intro y
      rw [← bind_assoc, hx, bind_assoc]
    show (resetBlock >>= fun _ => (resetBlock >>= fun _ => run x) >>= fun _ => l.forM fun x => resetBlock >>= fun _ =>
      run x) =
      (resetBlock >>= fun _ => run x >>= fun _ => l.forM run)
    rw [bind_assoc, htwice, hpast, hpast, ih hl]

/-- Where nothing depends on the buffers that the threads of a block share, the threads of all blocks run one after the
    other. -/
theorem on_runSerial {extents : List (String × Nat)} {m : Machine} (hm : m.blockBuffers = [])
    (h : ∀ C ∈ Func.grid (launchOrder extents), Commutes resetBlock (s.runThread { f with coords := some C } { env })) :
    on (s.runSerial f env extents) m =
      on ((Func.grid (launchOrder extents)).forM fun C => s.runThread { f with coords := some C } { env }) m := by
  let blocks := Func.grid (extents.filter fun e => Func.isBlockTag e.1)
  let threads := Func.grid (extents.filter fun e => !Func.isBlockTag e.1)
  let run (C : List (String × Nat)) : Run Unit := s.runThread { f with coords := some C } { env }
  have hgrid : (Func.grid (launchOrder extents)).forM run = blocks.forM fun b => threads.forM fun c => run (b ++ c) := by
    rw [launchOrder, Func.grid_append, forM_flatMap]
    exact forM_congr fun b _ => forM_map
  have hblocks : ∀ b ∈ blocks, Commutes resetBlock (threads.forM fun c => run (b ++ c)) := by
    intro b hb
    refine commutes_forM fun c hc => h _ ?_
    rw [launchOrder, Func.grid_append]
    exact List.mem_flatMap.mpr ⟨b, hb, List.mem_map_of_mem hc⟩
  show on (blocks.forM fun b => resetBlock >>= fun _ => threads.forM fun c => run (b ++ c)) m =
    on ((Func.grid (launchOrder extents)).forM run) m
  rw [← on_resetBlock_bind hm, forM_resetBlock hblocks, on_resetBlock_bind hm, hgrid]

/-- Thread by thread all the steps are taken. -/
theorem Steps.forM_eq {X : List Nat} {L : List (List (String × Nat) × Run Unit)} {extents : List (String × Nat)}
    (h : Steps (fun c => { f with coords := some c }) [] tags s [] env L) (hfits : s.Fits X) (hnodup : tags.Nodup)
    (hextents : (extents.map (·.1)).Nodup)
    (htags : ∀ t, t ∈ tags ↔ t ∈ extents.map (·.1)) (hbelow : ∀ x ∈ L, ∀ e ∈ extents, ∃ i, x.1.lookup e.1 = some i ∧
      i < e.2)
    (hcommute : ∀ x ∈ L, ∀ y ∈ L, (∃ t, x.1.lookup t ≠ y.1.lookup t) → Commutes x.2 y.2) :
    L.forM (·.2) = (Func.grid extents).forM fun C => s.runThread { f with coords := some C } { env } := by
  rw [forM_grouped (fun x => Func.onAxes extents x.1) (Func.nodup_grid extents) (fun x hx => ?_) fun x hx y hy hne => ?_]
  · refine forM_congr fun C hC => ?_
    rw [h.runThread_eq hfits hnodup (fun t ht => Func.lookup_of_mem_grid hC ht) htags]
    congr 1
    refine List.filter_congr fun x hx => Bool.eq_iff_iff.mpr ?_
    rw [decide_eq_true_iff, sameAt, List.all_eq_true]
    refine ⟨fun heq t ht => ?_, fun hsame => ?_⟩
    · obtain ⟨e, he, rfl⟩ := List.mem_map.mp ht
      obtain ⟨i, hi, -⟩ := hbelow x hx e he
      rw [beq_iff_eq, ← heq, Func.lookup_onAxes he, hi, Option.getD_some]
    · rw [← Func.onAxes_of_mem_grid hextents hC]
      refine List.map_congr_left fun e he => ?_
      rw [beq_iff_eq.mp (hsame e.1 (List.mem_map_of_mem he))]
  · refine Func.onAxes_mem_grid fun e he => ?_
    obtain ⟨i, hi, hlt⟩ := hbelow x hx e he
    rwa [hi, Option.getD_some]
  · refine hcommute x hx y hy (by_contra fun hsame => hne ?_)
    refine List.map_congr_left fun e _ => ?_
    rw [not_exists.mp hsame e.1 |> not_not.mp]

end Stmt

/-! ### Launches as loops -/

namespace Func

open Run

variable {F d : Func} {region launch : Stmt} {n depth host id : Nat} {axes : LaunchAxes} {f : Frame} {l : Local}
  {m : Machine}
  {ms : Modules} {L : List (List (String × Nat) × Run Unit)}

/-- What lets the launch of a region do what the region does with loops in place of its thread regions, where the variables
    have some values: on the device and on the host it takes the same steps, and steps of different threads commute. -/
structure Launchable (region : Stmt) (host device : Frame) (l : Local) : Prop where
  plain : ∀ t ∈ region.stmts, t.isPlain = true
  runnable : region.Runnable
  apart : region.Apart
  unbound : ∀ x ∈ region.binders, l.env.lookup x = none
  values : ∀ v ∈ region.freeVars, ∃ x, l.env.get? v = some x ∧ x.Placed
  extents : ∀ r ∈ region.threadRegions, r.2.Index .int32 ∧ (∃ n, r.2.HasInt l.env n) ∧ ∀ x ∈ r.2.freeIds, x ∉ region.binders
  steps : ∃ axes L, LaunchAxes.ofStmt region = .ok axes ∧ axes.Kept l.env ∧
    Stmt.Steps (fun c => { device with coords := some c }) [] (axes.map (·.1)) region [] l.env L ∧
    Stmt.Steps (fun _ => host) l.scopes (axes.map (·.1)) region [] l.env L ∧
    ∀ x ∈ L, x.2.Writing ∧ ∀ y ∈ L, (∃ t, x.1.lookup t ≠ y.1.lookup t) → Commutes x.2 y.2

/-- The launch of a kernel does to the machine what its region does with a loop over its extent in place of each thread
    region, in the variables of the host. -/
theorem launch_runs_loops (hkernel : F.kernel n region = .ok (d, launch))
    (h : Launchable region f (d.deviceFrame (ms.linkage id depth)) l) (hresolve : f.resolve = some (ms.resolve host))
    (hname : ms.resolve host d.name = .ok ⟨id, d⟩) (hcall : f.call = ms.callWithin (depth + 1)) :
    ∃ l' m', (region.looped.exec f).start l m = .done (.ok (), l') m' ∧ l'.scopes = l.scopes ∧
      (∀ x, l'.env.lookup x = l.env.lookup x) ∧ (launch.exec f).start l m = .done (.ok (), l) m' := by
  obtain ⟨axes, L, haxes, hkept, hdevice, hhost, hwriting⟩ := h.steps
  obtain ⟨-, -, -, -, axes', extents, haxes', hsimplify, -, -⟩ := kernel_eq hkernel
  obtain rfl : axes = axes' := Except.ok.inj (haxes.symm.trans haxes')
  let es : List (String × Expr) := (axes.map (·.1)).zip extents
  have hes : launchExtents region = .ok es := by
    show (LaunchAxes.ofStmt region >>= fun axes => (axes.mapM fun x => x.2.2.simplify) >>= fun extents =>
      .ok ((axes.map (·.1)).zip extents)) = _
    rw [haxes]
    show ((axes.mapM fun x => x.2.2.simplify) >>= fun extents => .ok ((axes.map (·.1)).zip extents)) = _
    rw [hsimplify]
    rfl
  have hlength : axes.length = extents.length := (length_mapM hsimplify).symm
  have hfst : es.map (·.1) = axes.map (·.1) := List.map_fst_zip (by simp [hlength])
  have hnodup : (axes.map (·.1)).Nodup := (LaunchAxes.collects_ofStmt haxes).nodup
  have hgreatest := greatest_launchExtents hes haxes hkept fun r hr => ⟨(h.extents r hr).1, (h.extents r hr).2.1⟩
  choose! N hN hupper using hgreatest
  have hfits : region.Fits region.freeIds :=
    ⟨h.plain, h.runnable, fun x hx => hx, fun x hx hin => (h.apart x hx).1 (Stmt.binders_subset hin)⟩
  -- The extents have their values on the host before the launch.
  have hargs : List.Forall₂ (Expr.HasValue l.env) (es.map (·.2)) ((es.map N).map .int32) := by
    rw [List.map_map, List.forall₂_map_left_iff, List.forall₂_map_right_iff, List.forall₂_same]
    exact fun e he => (hN e he).1
  have hvalue : on (Expr.eval.evalAll f l.env (es.map (·.2))) m = (.ok ((es.map N).map .int32), m) := by
    rw [Expr.evalAll_eq hargs]
    rfl
  have hints : List.Forall₂ (fun (y : Value) (k : Int) => y.toInt m.memory = .ok k) ((es.map N).map .int32) (es.map N) := by
    rw [List.forall₂_map_left_iff, List.forall₂_same]
    exact fun _ _ => rfl
  have hplain : ∀ t ∈ region.stmts, t.isVirtual = false ∧ t.isBarrier = false := fun t ht => by
    have ht := h.plain t ht
    simp only [Stmt.isPlain, Bool.and_eq_true, Bool.not_eq_true'] at ht
    exact ⟨ht.2, ht.1.1⟩
  let grid : List (String × Nat) := es.map fun e => (e.1, (N e).toNat)
  have hzip : (es.map (·.1)).zip ((es.map N).map Int.toNat) = grid := by simp [grid, List.zip_map', Function.comp_def]
  have hperm := Stmt.launchOrder_perm grid
  have hgrid : grid.map (·.1) = axes.map (·.1) := by rw [← hfst]; simp [grid, Function.comp_def]
  have hmem : ∀ t, t ∈ axes.map (·.1) ↔ t ∈ (Stmt.launchOrder grid).map (·.1) := fun t => by
    rw [(hperm.map _).mem_iff, hgrid]
  have hdistinct : ((Stmt.launchOrder grid).map (·.1)).Nodup := by
    rw [(hperm.map _).nodup_iff, hgrid]
    exact hnodup
  have hbelow : ∀ x ∈ L, ∀ e ∈ Stmt.launchOrder grid, ∃ i, x.1.lookup e.1 = some i ∧ i < e.2 := by
    intro x hx e he
    obtain ⟨e, he', rfl⟩ := List.mem_map.mp (hperm.mem_iff.mp he)
    obtain ⟨i, n, hi, hlt, hn⟩ := hdevice.lookup_below (Y := region.threadRegions.flatMap (·.2.freeIds)) hnodup
      (fun _ _ => rfl) (fun r hr y hy => List.mem_flatMap.mpr ⟨r, hr, hy⟩)
      (fun y hy => by
        obtain ⟨r, hr, hy⟩ := List.mem_flatMap.mp hy
        exact (h.extents r hr).2.2 y hy)
      hx ((hmem _).mpr (List.mem_map_of_mem he))
    have hle := (hupper e he').2 hn
    exact ⟨i, hi, by simp only; omega⟩
  have hthreads := hdevice.forM_eq hfits hnodup hdistinct hmem hbelow fun x hx => (hwriting x hx).2
  obtain ⟨change, hchange⟩ := writing_forM fun x hx => (hwriting x hx).1
  have hserial : on (region.runSerial (d.deviceFrame (ms.linkage id depth)) l.env
      ((es.map (·.1)).zip ((es.map N).map Int.toNat)))
      { memory := m.memory } = (.ok (), { memory := change m.memory }) := by
    rw [hzip, Stmt.on_runSerial rfl fun C hC => ?_, ← hthreads, hchange]
    rw [hdevice.runThread_eq hfits hnodup (fun t ht => lookup_of_mem_grid hC ht) hmem]
    exact Stmt.commutes_resetBlock (writing_forM fun x hx => (hwriting x (List.mem_of_mem_filter hx)).1)
  obtain ⟨r, l', m', hstart, hsteps, hscopes, -⟩ := hhost.takes_looped hfits l m rfl fun _ _ => rfl
  rw [hchange] at hsteps
  obtain ⟨rfl, rfl⟩ := Prod.mk.inj hsteps
  have hvars := (Stmt.keeps_exec f region.looped l m)
  rw [hstart] at hvars
  refine ⟨l', _, hstart, hscopes, fun x => ?_, ?_⟩
  · rcases hvars x List.not_mem_nil with heq | ⟨hx, hnone⟩
    · exact heq
    · rw [hnone, h.unbound x (Stmt.binders_looped hx)]
  · exact launch_runs_serial hkernel hes h.apart hplain hresolve hname hcall h.values hvalue hints hserial

end Func

namespace Func.Unequal

open Run

def a : Var := ⟨1, "A", .handle⟩

def b : Var := ⟨2, "B", .handle⟩

def n : Var := ⟨3, "n", .int32⟩

def block : IterVar := ⟨none, ⟨4, "blockIdx.x", .int32⟩, .threadIndex, "blockIdx.x"⟩

def first : IterVar := ⟨none, ⟨5, "threadIdx.x", .int32⟩, .threadIndex, "threadIdx.x"⟩

def each : IterVar := ⟨none, ⟨6, "threadIdx.x", .int32⟩, .threadIndex, "threadIdx.x"⟩

def head : Stmt :=
  .store (.var a) (Expr.int32 7) (.var block.var) none

def row : Stmt :=
  .store (.var b) (Expr.int32 9) (.bin .add (.bin .mul (.var block.var) (Expr.int32 3)) (.var each.var)) none

/-- In each of `n` blocks one thread fills an element of `A` and three threads fill a row of `B`. -/
def region : Stmt :=
  .attr (.axis block) "thread_extent" (.var n) (.seq [
    .attr (.axis first) "thread_extent" (Expr.int32 1) head, .attr (.axis each) "thread_extent" (Expr.int32 3) row])

def mixed : Func := { name := "fill", params := [.var a, .var b, .var n], body := region, kind := .mixed }

/-- The kernel of the region and its launch. -/
def kernel : Func × Stmt :=
  match mixed.kernel 0 region with
  | .ok r => r
  | .error _ => default

def axes : LaunchAxes :=
  match LaunchAxes.ofStmt region with
  | .ok axes => axes
  | .error _ => []

def modules : Modules :=
  #[{ name := "host", target := "llvm", funcs := [], imports := [1] },
    { name := "device", target := "cuda", funcs := [kernel.1] }]

def frame : Frame :=
  { name := "fill", resolve := some (modules.resolve 0), call := modules.callWithin 1 }

def device : Frame :=
  kernel.1.deviceFrame (modules.linkage 1 0)

/-- Two elements for `A`, six for `B`, and 2 for `n`. -/
def host : Local :=
  { env := [(1, .array (.whole 0 (.int 32) [2])), (2, .array (.whole 1 (.int 32) [6])), (3, .int32 2)] }

def memory : Memory :=
  #[Array.replicate 2 (.int 0), Array.replicate 6 (.int 0)]

def inBlock (i : Nat) : Env :=
  host.env.set block.var (.int32 i)

/-- The step of a head and that of an element of a row. -/
def headStep (i : Nat) : List (String × Nat) × Run Unit :=
  ([("threadIdx.x", 0), ("blockIdx.x", i)], .put 0 i (.int 7))

def rowStep (i j : Nat) : List (String × Nat) × Run Unit :=
  ([("threadIdx.x", j), ("blockIdx.x", i)], .put 1 (i * 3 + j : Nat) (.int 9))

def steps : List (List (String × Nat) × Run Unit) :=
  (List.range 2).flatMap fun i => ((List.range 1).flatMap fun _ =>
    [headStep i]) ++ (((List.range 3).flatMap fun j => [rowStep i j]) ++ [])

theorem mem_steps {x : List (String × Nat) × Run Unit} :
    x ∈ steps ↔ ∃ i < 2, x = headStep i ∨ ∃ j < 3, x = rowStep i j := by
  simp [steps, List.mem_flatMap]

/-- The variables of the threads of a head and of a row. -/
def atHead (i : Nat) : Env :=
  (inBlock i).set first.var (.int32 (0 : Nat))

def atRow (i j : Nat) : Env :=
  (inBlock i).set each.var (.int32 j)

/-- The region takes its steps in each frame in which its threads do what these say. -/
theorem region_steps {g : List (String × Nat) → Frame}
    (hhead : ∀ i < 2, head.runThread (g (headStep i).1) { env := atHead i } = (headStep i).2)
    (hrow : ∀ i < 2, ∀ j < 3, row.runThread (g (rowStep i j).1) { env := atRow i j } = (rowStep i j).2) :
    Stmt.Steps g [] (axes.map (·.1)) region [] host.env steps := by
  have haxes : axes.map (·.1) = ["threadIdx.x", "blockIdx.x"] := by rfl
  have hn : (Expr.var n).HasInt host.env 2 := ⟨fun _ => rfl, by decide⟩
  rw [haxes]
  refine .region (n := 2) (by decide) rfl hn fun i hi => .cons ?_ (.cons ?_ .nil)
  · refine .region (n := 1) (by decide) rfl (Expr.hasInt_int32 (by decide)) fun j hj => ?_
    obtain rfl : j = 0 := Nat.lt_one_iff.mp hj
    have hstep : headStep i = ((headStep i).1, head.runThread (g (headStep i).1) { env := atHead i }) := by rw [hhead i hi]
    rw [hstep]
    exact .step (by decide)
  · refine .region (n := 3) (by decide) rfl (Expr.hasInt_int32 (by decide)) fun j hj => ?_
    have hstep : rowStep i j = ((rowStep i j).1,
      row.runThread (g (rowStep i j).1) { env := atRow i j }) := by rw [hrow i hi j hj]
    rw [hstep]
    exact .step (by decide)

theorem device_steps : Stmt.Steps (fun c =>
      { device with coords := some c }) [] (axes.map (·.1)) region [] host.env steps := by
  refine region_steps (fun i hi => ?_) fun i hi j hj => ?_
  · match i, hi with
    | 0, _ | 1, _ => rfl
  · match i, j, hi, hj with
    | 0, 0, _, _ | 0, 1, _, _ | 0, 2, _, _ | 1, 0, _, _ | 1, 1, _, _ | 1, 2, _, _ => rfl

theorem host_steps : Stmt.Steps (fun _ => frame) host.scopes (axes.map (·.1)) region [] host.env steps := by
  refine region_steps (fun i hi => ?_) fun i hi j hj => ?_
  · match i, hi with
    | 0, _ | 1, _ => rfl
  · match i, j, hi, hj with
    | 0, 0, _, _ | 0, 1, _, _ | 0, 2, _, _ | 1, 0, _, _ | 1, 1, _, _ | 1, 2, _, _ => rfl

theorem steps_commute : ∀ x ∈ steps, x.2.Writing ∧ ∀ y ∈ steps, (∃ t, x.1.lookup t ≠ y.1.lookup t) → Commutes x.2 y.2 := by
  intro x hx
  obtain ⟨i, hi, hx⟩ := mem_steps.mp hx
  refine ⟨?_, fun y hy ⟨t, ht⟩ => ?_⟩
  · rcases hx with rfl | ⟨j, hj, rfl⟩ <;> exact writing_put _ _ _
  · obtain ⟨i', hi', hy⟩ := mem_steps.mp hy
    rcases hx with rfl | ⟨j, hj, rfl⟩
    · rcases hy with rfl | ⟨j', hj', rfl⟩
      · have hne : i ≠ i' := by
          rintro rfl
          exact ht rfl
        exact commutes_put (Or.inr (by simpa using hne))
      · exact commutes_put (Or.inl (by decide))
    · rcases hy with rfl | ⟨j', hj', rfl⟩
      · exact commutes_put (Or.inl (by decide))
      · have hne : i * 3 + j ≠ i' * 3 + j' := by
          intro heq
          obtain rfl : i = i' := by omega
          obtain rfl : j = j' := by omega
          exact ht rfl
        exact commutes_put (Or.inr hne)

theorem launchable : Launchable region frame device host where
  plain := by decide
  runnable := by decide
  apart := by decide
  unbound := by decide
  values := by
    have hfree : region.freeVars = [n, a, b] := by rfl
    rw [hfree]
    exact List.forall_mem_cons.mpr ⟨⟨_, rfl, rfl⟩, List.forall_mem_cons.mpr ⟨⟨_, rfl, rfl⟩,
      List.forall_mem_singleton.mpr ⟨_, rfl, rfl⟩⟩⟩
  extents := by
    have hregions : region.threadRegions = [(first, Expr.int32 1), (each, Expr.int32 3), (block, .var n)] := by rfl
    rw [hregions]
    refine List.forall_mem_cons.mpr ⟨⟨.const 1, ⟨1, Expr.hasInt_int32 (by decide)⟩, nofun⟩, List.forall_mem_cons.mpr
      ⟨⟨.const 3, ⟨3, Expr.hasInt_int32 (by decide)⟩, nofun⟩,
        List.forall_mem_singleton.mpr ⟨.var rfl, ⟨2, fun _ => rfl, by decide⟩, by decide⟩⟩⟩
  steps := by
    have hkept : axes.Kept host.env := by
      have hsame : axes.map (fun a => a.2.2.simplify) = axes.map (fun a => .ok a.2.2) := by rfl
      intro a ha e he n hn
      rw [List.map_inj_left.mp hsame a ha] at he
      cases he
      exact hn
    exact ⟨axes, steps, by rfl, hkept, device_steps, host_steps, steps_commute⟩

theorem fill_loops : Launchable region frame device host ∧ ∃ l' m',
    (region.looped.exec frame).start host { memory } = .done (.ok (), l') m' ∧ l'.scopes = host.scopes ∧
      (∀ x, l'.env.lookup x = host.env.lookup x) ∧ (kernel.2.exec frame).start host { memory } =
      .done (.ok (), host) m' := by
  have hkernel : mixed.kernel 0 region = .ok (kernel.1, kernel.2) := by rfl
  have hname : modules.resolve 0 kernel.1.name = .ok ⟨1, kernel.1⟩ := by rfl
  exact ⟨launchable, launch_runs_loops hkernel launchable rfl hname rfl⟩

end Func.Unequal

end TensorNest

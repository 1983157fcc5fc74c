import Mathlib.Data.List.Nodup
import TensorNest.Proofs.Addressing
import TensorNest.Proofs.Edit

/-! # Flattening simulates

A statement over tensors, flattened, does to flat memory what it does to the tensors
(`Stmt.flatten_simulates`). Each tensor in scope has a placement: the buffer, the region that the buffer
holds and the address of its first element. Placed memory is related element by element (`Holds`), and
flattened code finds placements by the expressions of the buffers it knows (`Laid`); these depend on
variables that no binder in scope gives other values. -/

namespace TensorNest

variable {V : Type}

/-- The key of a tensor: its operation and output. -/
def TensorRef.key (t : TensorRef) : Nat × Int := (t.op.idx, t.index)

/-- The tensors that can be accessed at a place in a statement, each with its number of dimensions, and the
    variables that their layouts depend on. -/
structure Scope where
  ranks : List ((Nat × Int) × Nat)
  fixed : List Nat

namespace Scope

/-- The tensors that can be accessed. -/
def keys (sc : Scope) : List (Nat × Int) := sc.ranks.map (·.1)

/-- The variables in ranges. -/
def varsOf (bounds : List Range) : List Nat :=
  bounds.flatMap fun r => (r.min.vars ++ r.extent.vars).map (·.id)

/-- The scope inside the realization of a tensor. -/
def realize (sc : Scope) (key : Nat × Int) (bounds : List Range) : Scope :=
  ⟨(key, bounds.length) :: sc.ranks, varsOf bounds ++ sc.fixed⟩

theorem mem_keys {sc : Scope} {key : Nat × Int} {n : Nat} (h : (key, n) ∈ sc.ranks) : key ∈ sc.keys :=
  List.mem_map.mpr ⟨_, h, rfl⟩

end Scope

/-! ### Statements that can be flattened -/

namespace Expr

/-- The variables that an expression binds. -/
def binders (e : Expr) : List Var :=
  e.postorder.filterMap fun
    | bind v _ _ => some v
    | _ => none

/-- All tensors that an expression reads are in scope, with one integral index for each dimension, and the
    variables it binds are not ones that a layout depends on. -/
def Fits (sc : Scope) (e : Expr) : Prop :=
  (∀ r ∈ e.tensorReads, ((r.1.idx, r.2.1), r.2.2.length) ∈ sc.ranks ∧ ∀ a ∈ r.2.2, a.Integral) ∧
    ∀ v ∈ e.binders, v.id ∉ sc.fixed

instance (sc : Scope) (e : Expr) : Decidable (e.Fits sc) := inferInstanceAs (Decidable (_ ∧ _))

variable {sc : Scope} {a e : Expr}

theorem Fits.part (h : e.Fits sc) (ha : a ∈ e.parts) : a.Fits sc :=
  ⟨fun r hr => h.1 r (tensorReads_subset ha hr), fun v hv => h.2 v (List.filterMap_subset _ (postorder_subset ha) hv)⟩

theorem Fits.binder {v : Var} {value body : Expr} (h : (Expr.bind v value body).Fits sc) : v.id ∉ sc.fixed :=
  h.2 v (List.mem_filterMap.mpr ⟨_, self_mem_postorder _, rfl⟩)

end Expr

/-- The extents and the first indices of a range are integral and read no tensors. -/
structure Range.Plain (r : Range) : Prop where
  min : r.min.Integral
  extent : r.extent.Integral
  minReads : r.min.tensorReads = []
  extentReads : r.extent.tensorReads = []

instance (r : Range) : Decidable r.Plain :=
  decidable_of_iff ((r.min.Integral ∧ r.extent.Integral) ∧ r.min.tensorReads.isEmpty ∧ r.extent.tensorReads.isEmpty)
    ⟨fun ⟨⟨h₁, h₂⟩, h₃, h₄⟩ => ⟨h₁, h₂, List.isEmpty_iff.mp h₃, List.isEmpty_iff.mp h₄⟩,
      fun h => ⟨⟨h.min, h.extent⟩, List.isEmpty_iff.mpr h.minReads, List.isEmpty_iff.mpr h.extentReads⟩⟩

/-- Whether a statement is one over tensors that can be flattened: all accesses are in scope, no tensor is
    realized where it is in scope already, and no loop runs over a variable that a layout depends on. -/
def Stmt.fits (external : Nat × Int → Bool) : Stmt → Scope → Bool
  | provide op output value args, sc =>
    decide (((op.idx, output), args.length) ∈ sc.ranks) && decide (value.Fits sc) &&
      decide (∀ a ∈ args, a.Fits sc ∧ a.Integral)
  | loop v min extent _ body, sc =>
    decide (v.id ∉ sc.fixed) && decide (min.Fits sc) && decide (extent.Fits sc) && body.fits external sc
  | realize op output _ bounds _ body, sc =>
    decide (0 ≤ output ∧ output < op.numOutputs) &&
      if external (op.idx, output) then body.fits external sc
      else decide ((op.idx, output) ∉ sc.keys) && decide (∀ r ∈ bounds, r.Plain) &&
        body.fits external (sc.realize (op.idx, output) bounds)
  | seq ss, sc => all ss sc
  | branch cond onTrue none, sc => decide (cond.Fits sc) && onTrue.fits external sc
  | branch cond onTrue (some onFalse), sc =>
    decide (cond.Fits sc) && onTrue.fits external sc && onFalse.fits external sc
  | _, _ => false
where
  /-- Whether all of several statements can be flattened. -/
  all : List Stmt → Scope → Bool
    | [], _ => true
    | s :: ss, sc => s.fits external sc && all ss sc

/-! ### Placements -/

/-- Where the elements of a tensor are kept: in a buffer, in row order from an address on. -/
structure Placement where
  buffer : Nat
  region : Region
  base : Int

/-- The address of an element. -/
def Placement.address (l : Placement) (p : List Int) : Int :=
  l.base + l.region.offset p

theorem Placement.address_injective {l : Placement} {p q : List Int} (hp : l.region.contains p) (hq : l.region.contains q)
    (h : l.address p = l.address q) : p = q :=
  Region.offset_injective hp hq (Int.add_left_cancel h)

/-- The placements of tensors. -/
abbrev Placements := Nat × Int → Placement

/-- The buffer known for a tensor. -/
def FlatState.find? (s : FlatState) (key : Nat × Int) : Option FlatEntry :=
  (s.entries.find? (·.1 == key)).map (·.2)

/-- The buffers known for the tensors in scope have the placements of these, as long as the variables that
    the layouts depend on keep their values. Each tensor has a buffer of its own. -/
structure Laid (R : ExactReading V) (sc : Scope) (fs : FlatState) (ρ : Valuation V) (lay : Placements) : Prop where
  covers : ∀ key ∈ sc.keys, ∃ entry, fs.find? key = some entry ∧ entry.buffer.data.id = (lay key).buffer ∧
    ∀ (m : Store V) (σ : Valuation V), (∀ x ∈ sc.fixed, σ x = ρ x) →
      entry.Covers R m σ (lay key).region (lay key).base
  apart : ∀ key ∈ sc.keys, ∀ key' ∈ sc.keys, (lay key).buffer = (lay key').buffer → key = key'

/-- Flat memory holds the elements of the tensors in scope at their places. Other tensors have none. -/
structure Holds (sc : Scope) (lay : Placements) (m m' : Store V) : Prop where
  bare : ∀ b i, m.cell b i = none
  closed : ∀ key, key ∉ sc.keys → ∀ p, m.tensor key p = none
  held : ∀ key ∈ sc.keys, ∀ p x, m.tensor key p = some x →
    (lay key).region.contains p ∧ m'.cell (lay key).buffer ((lay key).address p) = some x

/-- What is known while a statement is flattened: a regular buffer for each tensor in scope, numbered before
    the next variable, and for the arguments the buffers given for them. -/
structure Knows (args : TensorBuffers) (sc : Scope) (fs : FlatState) (g : Graph) : Prop where
  found : ∀ key n, (key, n) ∈ sc.ranks → ∃ entry, fs.find? key = some entry ∧ entry.Regular n ∧
    entry.buffer.data.id < g.next
  given : ∀ t b, args.find? t = some b → t.key ∈ sc.keys ∧ fs.find? t.key = some ⟨b, []⟩

section Placed
variable {R : ExactReading V} {sc : Scope} {fs fs' : FlatState} {ρ σ : Valuation V} {lay : Placements}
  {m m' n n' : Store V} {args : TensorBuffers} {g g' : Graph}

theorem Laid.of_agree (h : Laid R sc fs ρ lay) (hagree : ∀ x ∈ sc.fixed, σ x = ρ x) : Laid R sc fs σ lay where
  covers key hkey := by
    obtain ⟨entry, hfind, hbuffer, hcovers⟩ := h.covers key hkey
    exact ⟨entry, hfind, hbuffer, fun m τ hτ => hcovers m τ fun x hx => (hτ x hx).trans (hagree x hx)⟩
  apart := h.apart

/-- A variable that no layout depends on can have any value. -/
theorem Laid.update (h : Laid R sc fs ρ lay) {v : Nat} (hv : v ∉ sc.fixed) (x : V) :
    Laid R sc fs (Function.update ρ v x) lay :=
  h.of_agree fun y hy => Function.update_of_ne (fun heq : y = v => hv (heq ▸ hy)) ..

theorem Laid.of_same (h : Laid R sc fs ρ lay) (hsame : ∀ key ∈ sc.keys, fs'.find? key = fs.find? key) :
    Laid R sc fs' ρ lay where
  covers key hkey := by
    rw [hsame key hkey]
    exact h.covers key hkey
  apart := h.apart

theorem Knows.of_same (h : Knows args sc fs g) (hsame : ∀ key ∈ sc.keys, fs'.find? key = fs.find? key)
    (hle : g.next ≤ g'.next) : Knows args sc fs' g' where
  found key k hkey := by
    rw [hsame key (Scope.mem_keys hkey)]
    obtain ⟨entry, hfind, hregular, hlt⟩ := h.found key k hkey
    exact ⟨entry, hfind, hregular, Nat.lt_of_lt_of_le hlt hle⟩
  given t b htb := by
    obtain ⟨hkey, hfind⟩ := h.given t b htb
    exact ⟨hkey, (hsame _ hkey).trans hfind⟩

end Placed

/-! ### Expressions -/

theorem FlatState.entry_eq_ok {s : FlatState} {op : OpRef} {output : Int} {entry : FlatEntry}
    (h : s.find? (op.idx, output) = some entry) : s.entry op output = .ok entry := by
  obtain ⟨p, hp, rfl⟩ := Option.map_eq_some_iff.mp h
  rw [FlatState.entry, hp]

/-- A flattened expression has the type of the expression and in flat memory its values. -/
structure Flattened (R : ExactReading V) (sc : Scope) (fs : FlatState) (e e' : Expr) : Prop where
  dtype : e'.dtype = e.dtype
  const : ∀ v t, e' = .const v t → e = .const v t
  value : ∀ {ρ : Valuation V} {lay : Placements} {m m' : Store V}, Laid R sc fs ρ lay → Holds sc lay m m' →
    Expr.Imitates R m ρ m' ρ e e'

namespace Flattened
open Expr

variable {R : ExactReading V} {sc : Scope} {fs : FlatState} {args : TensorBuffers} {g : Graph} {e e' : Expr}

theorem integral (h : Flattened R sc fs e e') (he : e.Integral) : e'.Integral :=
  ⟨h.dtype ▸ he.type, fun v t heq => he.const v t (h.const v t heq)⟩

theorem integrals {es es' : List Expr} (h : List.Forall₂ (Flattened R sc fs) es es') (hes : ∀ a ∈ es, a.Integral) :
    ∀ a ∈ es', a.Integral := by
  induction h with
  | nil => exact hes
  | cons he _ ih =>
    rw [List.forall_mem_cons] at hes ⊢
    exact ⟨he.integral hes.1, ih hes.2⟩

/-- Flattening several expressions. -/
theorem gives_list {P : Expr → Expr → Prop} {f : Expr → Except Error Expr} {es : List Expr}
    (h : ∀ e ∈ es, Gives (e.rebuildM f) (P e)) : Gives (rebuildM.onList f es) (List.Forall₂ P es) := by
  induction es with
  | nil => exact gives_ok .nil
  | cons e es ih =>
    rw [List.forall_mem_cons] at h
    exact h.1.bind fun e' he => (ih h.2).bind fun es' hes => gives_ok (.cons he hes)

/-- Flattening an expression that may be missing. -/
theorem gives_option {P : Expr → Expr → Prop} {f : Expr → Except Error Expr} {o : Option Expr}
    (h : ∀ e ∈ o, Gives (e.rebuildM f) (P e)) : Gives (rebuildM.onOption f o) fun _ => True := by
  cases o with
  | none => exact gives_ok trivial
  | some e => exact (h e rfl).bind fun e' _ => gives_ok trivial

/-- A tensor read becomes a load of the buffer of the tensor. -/
theorem gives_read (hk : Knows args sc fs g) {t : DataType} {name : String} {f : OpRef} {index : Ordinal}
    {es es' : List Expr}
    (hrank : ((f.idx, index.toInt), es.length) ∈ sc.ranks) (hes : ∀ a ∈ es, a.Integral)
    (h : List.Forall₂ (Flattened R sc fs) es es') :
    Gives (do
      let entry ← fs.entry f index.toInt
      entry.buffer.load (← entry.relative es') (.exact t))
      (Flattened R sc fs (.call t name es .tensorRead (some f) index)) := by
  obtain ⟨entry, hfind, hregular, -⟩ := hk.found _ _ hrank
  rw [FlatState.entry_eq_ok hfind]
  obtain ⟨off, hoff, -, haddress⟩ := FlatEntry.gives_address (R := R) (h.length_eq ▸ hregular) (integrals h hes)
  obtain ⟨l, hl, hoff⟩ := bind_eq_ok.mp hoff
  refine ⟨.load t (.var entry.buffer.data) off none, ?_, rfl, fun _ _ => nofun, fun {ρ lay m m'} hlaid hholds x hx => ?_⟩
  · show (entry.relative es' >>= fun l => entry.buffer.load l (.exact t)) = _
    rw [hl]
    show (entry.buffer.offsetOf l >>= fun off => Except.ok (Expr.load t (.var entry.buffer.data) off none)) = _
    rw [hoff]
    rfl
  simp only [value?, Option.bind_eq_bind, Option.bind_eq_some_iff, integers_eq_mapM] at hx
  obtain ⟨p, hp, hx⟩ := hx
  have hkey := Scope.mem_keys hrank
  obtain ⟨entry', hfind', hbuffer, hcovers⟩ := hlaid.covers _ hkey
  obtain rfl := Option.some.inj (hfind.symm.trans hfind')
  obtain ⟨hcontains, hcell⟩ := hholds.held _ hkey p x hx
  have hp' := Imitates.integers (h.imp fun _ _ hflat => hflat.value hlaid hholds) hp
  have hvalue := haddress (hcovers m' ρ fun _ _ => rfl) hp' (Region.length_of_contains hcontains)
  obtain ⟨y, hy, hyi⟩ := integer?_eq_some.mp hvalue
  simp only [value?, hy, hyi, Option.bind_eq_bind, Option.bind_some, hbuffer]
  exact hcell

/-- Flattening an expression whose accesses are in scope. -/
theorem gives_flatten (hk : Knows args sc fs g) (he : e.Fits sc) : Gives (e.flatten fs) (Flattened R sc fs e) := by
  unfold Expr.flatten
  induction e with
  | var v => exact gives_ok ⟨rfl, fun _ _ => Expr.noConfusion, fun _ _ _ hx => hx⟩
  | const v t => exact gives_ok ⟨rfl, fun _ _ heq => heq, fun _ _ _ hx => hx⟩
  | str s => exact gives_ok ⟨rfl, fun _ _ => Expr.noConfusion, fun _ _ _ hx => hx⟩
  | cast t a ih =>
    exact (ih (he.part (by simp [parts]))).bind fun a' ha => gives_ok ⟨rfl, fun _ _ => Expr.noConfusion, fun hlaid hholds =>
      imitates_cast t (ha.value hlaid hholds)⟩
  | bin op a b iha ihb =>
    refine (iha (he.part (by simp [parts]))).bind fun a' ha => (ihb (he.part (by simp [parts]))).bind fun b' hb => ?_
    exact gives_ok ⟨by simp only [Expr.dtype, ha.dtype], fun _ _ => Expr.noConfusion, fun hlaid hholds =>
      imitates_bin op (ha.value hlaid hholds) (hb.value hlaid hholds)⟩
  | not a ih =>
    exact (ih (he.part (by simp [parts]))).bind fun a' ha =>
      gives_ok ⟨ha.dtype, fun _ _ => Expr.noConfusion, fun hlaid hholds =>
      imitates_not (ha.value hlaid hholds)⟩
  | select c a b ihc iha ihb =>
    refine (ihc (he.part (by simp [parts]))).bind fun c' hc => (iha (he.part (by simp [parts]))).bind fun a' ha =>
      (ihb (he.part (by simp [parts]))).bind fun b' hb => ?_
    exact gives_ok ⟨ha.dtype, fun _ _ => Expr.noConfusion, fun hlaid hholds =>
      imitates_select (hc.value hlaid hholds) (ha.value hlaid hholds) (hb.value hlaid hholds)⟩
  | call t name es kind func index ih =>
    refine (gives_list fun a ha => ih a ha (he.part ha)).bind fun es' hes => ?_
    dsimp only
    split
    · rename_i heq
      cases heq
      obtain ⟨hrank, hintegral⟩ := he.1 _ (mem_tensorReads_call ..)
      exact gives_read hk hrank hintegral hes
    · rename_i hne
      refine gives_ok ⟨rfl, fun _ _ => Expr.noConfusion, fun hlaid hholds => imitates_call (fun hkind => ?_) ?_⟩
      · cases func with
        | none => rfl
        | some f =>
          subst hkind
          exact absurd rfl (hne t name es' f index)
      · exact hes.imp fun _ _ hflat => hflat.value hlaid hholds
  | bind v value body ihv ihb =>
    refine (ihv (he.part (by simp [parts]))).bind fun value' hv => (ihb (he.part (by simp [parts]))).bind fun body' hb => ?_
    exact gives_ok ⟨hb.dtype, fun _ _ => Expr.noConfusion, fun hlaid hholds =>
      imitates_bind v (hv.value hlaid hholds) fun x => hb.value (hlaid.update he.binder x) hholds⟩
  | load t buffer index pred ihb ihi ihp =>
    refine (ihb (he.part (by simp [parts]))).bind fun b' hb => (ihi (he.part (by simp [parts]))).bind fun i' hi => ?_
    refine (gives_option fun p hp => ihp p hp (he.part (by simpa [parts] using Or.inr (Or.inr hp)))).bind fun p' _ => ?_
    refine gives_ok ⟨rfl, fun _ _ => Expr.noConfusion, fun {ρ lay m m'} _ hholds x hx => ?_⟩
    rw [value?_load hholds.bare] at hx
    cases hx
  | ramp a b lanes iha ihb =>
    refine (iha (he.part (by simp [parts]))).bind fun a' ha => (ihb (he.part (by simp [parts]))).bind fun b' hb => ?_
    exact gives_ok ⟨by simp only [Expr.dtype, ha.dtype], fun _ _ => Expr.noConfusion, fun hlaid hholds =>
      imitates_ramp lanes (ha.value hlaid hholds) (hb.value hlaid hholds)⟩
  | broadcast a lanes ih =>
    exact (ih (he.part (by simp [parts]))).bind fun a' ha => gives_ok ⟨by simp only [Expr.dtype, ha.dtype],
      fun _ _ => Expr.noConfusion, fun hlaid hholds => imitates_broadcast lanes (ha.value hlaid hholds)⟩
  | reduce combiner sources axes cond index _ _ ihs _ ihc =>
    refine (gives_list fun a ha => ihs a ha (he.part (by simp [parts, ha]))).bind fun sources' _ => ?_
    refine (gives_option fun c hc => ihc c hc (he.part (by simpa [parts] using Or.inr hc))).bind fun cond' _ => ?_
    refine gives_ok ⟨rfl, fun _ _ => Expr.noConfusion, fun _ _ x hx => ?_⟩
    rw [value?] at hx
    cases hx

end Flattened

/-! ### Steps of flattening -/

namespace Flatten

/-- Flattening succeeds with the result `a` and leaves the buffers `fs'` and the graph `g'`. -/
def Yields {α : Type} (x : Flatten α) (fs : FlatState) (g : Graph) (a : α) (fs' : FlatState) (g' : Graph) : Prop :=
  Build.Yields (x.run fs) g (a, fs') g'

variable {α β : Type} {fs fs' : FlatState} {g g' : Graph}

theorem yields_pure (a : α) : (pure a : Flatten α).Yields fs g a fs g := rfl

theorem yields_bind {x : Flatten α} {f : α → Flatten β} {a : α} {b : β} {fs₁ : FlatState} {g₁ : Graph}
    (hx : x.Yields fs g a fs₁ g₁) (hf : (f a).Yields fs₁ g₁ b fs' g') : (x >>= f).Yields fs g b fs' g' :=
  Build.yields_bind.mpr ⟨(a, fs₁), g₁, hx, hf⟩

theorem yields_modify_bind {f : FlatState → FlatState} {x : PUnit → Flatten β} {b : β}
    (h : (x ⟨⟩).Yields (f fs) g b fs' g') : ((modify f : Flatten PUnit) >>= x).Yields fs g b fs' g' :=
  h

theorem yields_get_bind {x : FlatState → Flatten β} {b : β} (h : (x fs).Yields fs g b fs' g') :
    ((get : Flatten FlatState) >>= x).Yields fs g b fs' g' :=
  h

theorem yields_ok {x : Except Error α} {a : α} (h : x = .ok a) : (liftM x : Flatten α).Yields fs g a fs g := by
  subst h
  rfl

theorem yields_build {x : Build α} {a : α} (h : x.Yields g a g') : (liftM x : Flatten α).Yields fs g a fs g' :=
  Build.yields_bind.mpr ⟨a, g', h, rfl⟩

theorem yields_flattenExpr {e e' : Expr} (h : e.flatten fs = .ok e') : (flattenExpr e).Yields fs g e' fs g :=
  yields_get_bind (yields_ok h)

theorem yields_flattenExprs {P : Expr → Expr → Prop} {es : List Expr} (h : ∀ e ∈ es, Gives (e.flatten fs) (P e)) :
    ∃ es', (es.mapM flattenExpr).Yields fs g es' fs g ∧ List.Forall₂ P es es' := by
  induction es with
  | nil => exact ⟨[], rfl, .nil⟩
  | cons e es ih =>
    rw [List.forall_mem_cons] at h
    obtain ⟨e', he', hP⟩ := h.1
    obtain ⟨es', hes', hall⟩ := ih h.2
    rw [List.mapM_cons]
    exact ⟨e' :: es', yields_bind (yields_flattenExpr he') (yields_bind hes' (yields_pure _)), .cons hP hall⟩

end Flatten

theorem FlatState.find?_setEntry (fs : FlatState) (op : OpRef) (output : Int) (entry : FlatEntry) (key : Nat × Int) :
    (fs.setEntry op output entry).find? key = if key = (op.idx, output) then some entry else fs.find? key := by
  unfold FlatState.find? FlatState.setEntry
  rw [List.find?_cons]
  by_cases h : key = (op.idx, output)
  · simp [h]
  · rw [if_neg h, beq_false_of_ne (Ne.symm h)]

/-- The buffer made for a realized region: compact, with the first element in its first cell. -/
structure RegionBuffer (b : Buffer) (bounds : List Range) (g : Graph) : Prop where
  fresh : b.data.id = g.next
  shape : b.shape = bounds.map (·.extent)
  strides : b.strides = []
  offset : b.elemOffset = .const (.int 0) .int32

theorem Stmt.yields_regionBuffer (op : OpRef) (output : Int) (t : DataType) (bounds : List Range) (scope : String)
    (g : Graph) :
    ∃ b, (regionBuffer op output t bounds scope).Yields g b { g with next := g.next + 1 } ∧ RegionBuffer b bounds g := by
  have hshape : ∀ g₁ : Graph, Build.Yields ((bounds.map fun r => Operand.expr r.extent).mapM fun x =>
      liftM (Expr.convert x)) g₁
      (bounds.map (·.extent)) g₁ := by
    intro g₁
    induction bounds with
    | nil => rfl
    | cons r bounds ih =>
      rw [List.map_cons, List.mapM_cons]
      exact Build.yields_bind.mpr ⟨r.extent, g₁, rfl, Build.yields_bind.mpr ⟨_, g₁, ih, rfl⟩⟩
  refine ⟨⟨⟨g.next, op.outputName output, .handle⟩, t, bounds.map (·.extent), [], .const (.int 0) .int32,
    op.outputName output,
    scope, (-1 : Int), (0 : Int)⟩, ?_, ⟨rfl, rfl, rfl, rfl⟩⟩
  refine Build.yields_bind.mpr ⟨⟨g.next, op.outputName output, .handle⟩, _, rfl, ?_⟩
  refine Build.yields_bind.mpr ⟨_, _, rfl, Build.yields_bind.mpr ⟨.number (.int 0), _, rfl, ?_⟩⟩
  exact Build.yields_bind.mpr ⟨t, _, rfl, Build.yields_bind.mpr ⟨_, _, hshape _, rfl⟩⟩

/-! ### Memory -/

/-- What an execution over tensors and one over flat memory keep: the elements are held at their places, the
    same ones as before, and cells where no element is placed are as before. -/
structure Kept (sc : Scope) (lay : Placements) (m m' n n' : Store V) : Prop where
  holds : Holds sc lay n n'
  elements : ∀ key p, (n.tensor key p).isSome = (m.tensor key p).isSome
  spares : ∀ b i, (∀ key ∈ sc.keys, ∀ p, (m.tensor key p).isSome → (lay key).buffer = b → (lay key).address p ≠ i) →
    n'.cell b i = m'.cell b i

section Kept
variable {sc : Scope} {lay : Placements} {m m' n n' o o' : Store V}

theorem Kept.refl (h : Holds sc lay m m') : Kept sc lay m m' m m' :=
  ⟨h, fun _ _ => rfl, fun _ _ _ => rfl⟩

theorem Kept.trans (h : Kept sc lay m m' n n') (h' : Kept sc lay n n' o o') : Kept sc lay m m' o o' where
  holds := h'.holds
  elements key p := (h'.elements key p).trans (h.elements key p)
  spares b i hne := by
    rw [h'.spares b i fun key hkey p hp => hne key hkey p (h.elements key p ▸ hp), h.spares b i hne]

/-- An element is provided by a store at its address. -/
theorem Holds.provide (h : Holds sc lay m m')
    (hapart : ∀ key ∈ sc.keys, ∀ key' ∈ sc.keys, (lay key).buffer = (lay key').buffer → key = key')
    {key : Nat × Int} (hkey : key ∈ sc.keys) {p : List Int} {x : V} (hn : m.provide key p x = some n) :
    ∃ n', m'.store (lay key).buffer ((lay key).address p) x = some n' ∧ Kept sc lay m m' n n' := by
  obtain ⟨hsome, rfl⟩ := Store.provide_eq_some.mp hn
  obtain ⟨y, hy⟩ := Option.isSome_iff_exists.mp hsome
  obtain ⟨hp, hcell⟩ := h.held key hkey p y hy
  refine ⟨_, Store.store_eq_some.mpr ⟨by rw [hcell]; rfl, rfl⟩,
    ⟨h.bare, fun key' hkey' q => ?_, fun key' hkey' q z hz => ?_⟩,
    fun key' q => ?_, fun b i hne => ?_⟩
  · rw [Store.tensor_setTensor_of_ne fun heq : key' = key => hkey' (heq ▸ hkey)]
    exact h.closed key' hkey' q
  · by_cases heq : key' = key
    · subst heq
      rw [Store.tensor_setTensor] at hz
      rw [Store.cell_setBuffer]
      by_cases hqp : q = p
      · subst hqp
        rw [Function.update_self] at hz
        rw [Function.update_self]
        exact ⟨hp, hz⟩
      · rw [Function.update_of_ne hqp] at hz
        obtain ⟨hq, hcell'⟩ := h.held key' hkey q z hz
        refine ⟨hq, ?_⟩
        rw [Function.update_of_ne fun haddress => hqp (Placement.address_injective hq hp haddress)]
        exact hcell'
    · rw [Store.tensor_setTensor_of_ne heq] at hz
      rw [Store.cell_setBuffer_of_ne fun hbuffer => heq (hapart key' hkey' key hkey hbuffer)]
      exact h.held key' hkey' q z hz
  · by_cases heq : key' = key
    · subst heq
      rw [Store.tensor_setTensor]
      by_cases hqp : q = p
      · rw [hqp, Function.update_self, hy]
        rfl
      · rw [Function.update_of_ne hqp]
    · rw [Store.tensor_setTensor_of_ne heq]
  · by_cases heq : b = (lay key).buffer
    · subst heq
      rw [Store.cell_setBuffer, Function.update_of_ne fun hi => hne key hkey p hsome rfl hi.symm]
    · rw [Store.cell_setBuffer_of_ne heq]

end Kept

/-! ### Realizing a tensor -/

section Realize
variable {R : ExactReading V} {sc : Scope} {fs : FlatState} {ρ σ : Valuation V} {lay : Placements} {m m' n n' : Store V}
  {args : TensorBuffers} {g : Graph} {op : OpRef} {output : Int} {bounds : List Range} {r : Region} {b : Buffer}

/-- A tensor is not realized where it is in scope. -/
theorem Scope.ne_of_mem {key key' : Nat × Int} (hkey : key ∉ sc.keys) (hkey' : key' ∈ sc.keys) : key' ≠ key :=
  fun heq => hkey (heq ▸ hkey')

theorem Scope.mem_keys_realize {key key' : Nat × Int} :
    key' ∈ (sc.realize key bounds).keys ↔ key' = key ∨ key' ∈ sc.keys := by
  simp [Scope.keys, Scope.realize]

/-- The region of ranges is the region of the same ranges in other memory and under other values of other
    variables. -/
theorem integers_of_region? (hbare : ∀ b i, m.cell b i = none) (hplain : ∀ r ∈ bounds, r.Plain)
    (hr : Stmt.region? R m ρ bounds = some r) (m' : Store V) (hagree : ∀ x ∈ Scope.varsOf bounds, σ x = ρ x) :
    (bounds.map (·.min)).mapM (Expr.integer? R m' σ) = some (r.map (·.1)) ∧
      (bounds.map (·.extent)).mapM (Expr.integer? R m' σ) = some (r.map (·.2)) := by
  induction bounds generalizing r with
  | nil =>
    obtain rfl := Option.some.inj hr
    exact ⟨rfl, rfl⟩
  | cons a bounds ih =>
    rw [List.forall_mem_cons] at hplain
    simp only [Stmt.region?, List.mapM_cons, Option.bind_eq_bind, Option.bind_eq_some_iff, Option.pure_def,
      Option.some.injEq] at hr
    obtain ⟨_, ⟨lo, hlo, d, hd, rfl⟩, rs, hrs, rfl⟩ := hr
    have hvars : ∀ e : Expr, e = a.min ∨ e = a.extent → ∀ v ∈ e.vars, σ v.id = ρ v.id := by
      intro e he v hv
      refine hagree v.id (List.mem_flatMap.mpr ⟨a, List.mem_cons_self, List.mem_map_of_mem ?_⟩)
      obtain rfl | rfl := he
      · exact List.mem_append_left _ hv
      · exact List.mem_append_right _ hv
    have hmin : a.min.Steady ρ σ := ⟨hplain.1.minReads, hvars a.min (Or.inl rfl)⟩
    have hextent : a.extent.Steady ρ σ := ⟨hplain.1.extentReads, hvars a.extent (Or.inr rfl)⟩
    obtain ⟨hmins, hextents⟩ := ih hplain.2 hrs fun x hx => hagree x (by
      rw [Scope.varsOf, List.flatMap_cons]
      exact List.mem_append_right _ hx)
    exact ⟨Expr.mapM_integer?_cons.mpr ⟨lo, _, (hmin.imitates hbare).integer? hlo, hmins, rfl⟩,
      Expr.mapM_integer?_cons.mpr ⟨d, _, (hextent.imitates hbare).integer? hd, hextents, rfl⟩⟩

theorem Knows.realize (hk : Knows args sc fs g) (hkey : (op.idx, output) ∉ sc.keys) (hplain : ∀ r ∈ bounds, r.Plain)
    (hb : RegionBuffer b bounds g) : Knows args (sc.realize (op.idx, output) bounds)
      (fs.setEntry op output ⟨b, bounds.map (·.min)⟩) { g with next := g.next + 1 } where
  found key k hmem := by
    rw [FlatState.find?_setEntry]
    obtain heq | hmem := List.mem_cons.mp hmem
    · obtain ⟨rfl, rfl⟩ := Prod.mk.inj heq
      refine ⟨⟨b, bounds.map (·.min)⟩, if_pos rfl, ⟨hb.strides, ?_, ?_, Or.inr ?_, ?_, ?_⟩, ?_⟩
      · simp [hb.shape]
      · intro e he
        rw [hb.shape] at he
        obtain ⟨r, hr, rfl⟩ := List.mem_map.mp he
        exact (hplain r hr).extent
      · exact List.length_map ..
      · intro e he
        obtain ⟨r, hr, rfl⟩ := List.mem_map.mp he
        exact (hplain r hr).min
      · rw [hb.offset]
        exact Expr.integral_const 0 ⟨rfl, rfl⟩
      · rw [hb.fresh]
        exact Nat.lt_succ_self _
    · rw [if_neg (Scope.ne_of_mem hkey (Scope.mem_keys hmem))]
      obtain ⟨entry, hfind, hregular, hlt⟩ := hk.found key k hmem
      exact ⟨entry, hfind, hregular, Nat.lt_succ_of_lt hlt⟩
  given t c htc := by
    obtain ⟨ht, hfind⟩ := hk.given t c htc
    rw [FlatState.find?_setEntry, if_neg (Scope.ne_of_mem hkey ht)]
    exact ⟨Scope.mem_keys_realize.mpr (Or.inr ht), hfind⟩

/-- The buffer made for a region is none of those in scope, which are numbered before the next variable. -/
theorem Laid.fresh (h : Laid R sc fs ρ lay) (hk : Knows args sc fs g) (hb : RegionBuffer b bounds g) :
    ∀ key ∈ sc.keys, (lay key).buffer ≠ b.data.id := by
  intro key hkey
  obtain ⟨entry, hfind, hbuffer, -⟩ := h.covers key hkey
  obtain ⟨⟨_, k⟩, hmem, rfl⟩ := List.mem_map.mp hkey
  obtain ⟨entry', hfind', -, hlt⟩ := hk.found _ k hmem
  obtain rfl := Option.some.inj (hfind.symm.trans hfind')
  rw [← hbuffer, hb.fresh]
  exact Nat.ne_of_lt hlt

theorem Laid.realize (h : Laid R sc fs ρ lay) (hk : Knows args sc fs g)
    (hbare : ∀ b i, m.cell b i = none) (hplain : ∀ r ∈ bounds, r.Plain) (hr : Stmt.region? R m ρ bounds = some r)
    (hb : RegionBuffer b bounds g) :
    Laid R (sc.realize (op.idx, output) bounds) (fs.setEntry op output ⟨b, bounds.map (·.min)⟩) ρ
      (Function.update lay (op.idx, output) ⟨b.data.id, r, 0⟩) where
  covers key hmem := by
    rw [FlatState.find?_setEntry]
    by_cases heq : key = (op.idx, output)
    · subst heq
      rw [Function.update_self, if_pos rfl]
      refine ⟨_, rfl, rfl, fun m₁ σ hσ => ?_⟩
      obtain ⟨hmins, hextents⟩ := integers_of_region? hbare hplain hr m₁ fun x hx =>
        hσ x (List.mem_append_left _ hx)
      refine ⟨hb.shape ▸ hextents, Or.inr hmins, ?_⟩
      rw [hb.offset, Expr.integer?_const R ⟨rfl, rfl⟩]
    · rw [Function.update_of_ne heq, if_neg heq]
      obtain ⟨entry, hfind, hbuffer, hcovers⟩ := h.covers key ((Scope.mem_keys_realize.mp hmem).resolve_left heq)
      exact ⟨entry, hfind, hbuffer, fun m₁ σ hσ => hcovers m₁ σ fun x hx => hσ x (List.mem_append_right _ hx)⟩
  apart key hmem key' hmem' hsame := by
    have hfresh := h.fresh hk hb
    by_cases heq : key = (op.idx, output) <;> by_cases heq' : key' = (op.idx, output)
    · rw [heq, heq']
    · rw [heq, Function.update_self, Function.update_of_ne heq'] at hsame
      exact absurd hsame.symm (hfresh key' ((Scope.mem_keys_realize.mp hmem').resolve_left heq'))
    · rw [heq', Function.update_self, Function.update_of_ne heq] at hsame
      exact absurd hsame (hfresh key ((Scope.mem_keys_realize.mp hmem).resolve_left heq))
    · rw [Function.update_of_ne heq, Function.update_of_ne heq'] at hsame
      exact h.apart key ((Scope.mem_keys_realize.mp hmem).resolve_left heq) key'
        ((Scope.mem_keys_realize.mp hmem').resolve_left heq') hsame

/-- A realized region is held by the cells allocated for it. -/
theorem Holds.realize {key : Nat × Int} {c : Nat} (h : Holds sc lay m m')
    (hfresh : ∀ key' ∈ sc.keys, (lay key').buffer ≠ c) (t : DataType) :
    Holds (sc.realize key bounds) (Function.update lay key ⟨c, r, 0⟩) (m.setTensor key (Stmt.zeros R t r))
      (m'.setBuffer c (Stmt.zeroCells R t r.size)) where
  bare := h.bare
  closed key' hkey' p := by
    rw [Scope.mem_keys_realize, not_or] at hkey'
    rw [Store.tensor_setTensor_of_ne hkey'.1]
    exact h.closed key' hkey'.2 p
  held key' hkey' p x hx := by
    by_cases heq : key' = key
    · subst heq
      rw [Store.tensor_setTensor, Stmt.zeros] at hx
      split at hx
      · rename_i hp
        rw [Function.update_self, Store.cell_setBuffer]
        refine ⟨hp, ?_⟩
        show Stmt.zeroCells R t r.size (0 + r.offset p) = some x
        rw [Int.zero_add, Stmt.zeroCells, if_pos (Region.offset_bounds hp)]
        exact hx
      · cases hx
    · have hmem := (Scope.mem_keys_realize.mp hkey').resolve_left heq
      rw [Store.tensor_setTensor_of_ne heq] at hx
      rw [Function.update_of_ne heq, Store.cell_setBuffer_of_ne (hfresh key' hmem)]
      exact h.held key' hmem p x hx

/-- What is kept where a tensor is realized is kept when it is given up again. -/
theorem Kept.realize {key : Nat × Int} {c : Nat} {elements : List Int → Option V} {cells : Int → Option V}
    (h : Kept (sc.realize key bounds) (Function.update lay key ⟨c, r, 0⟩) (m.setTensor key elements)
      (m'.setBuffer c cells) n n') (hm : Holds sc lay m m') (hkey : key ∉ sc.keys)
    (hfresh : ∀ key' ∈ sc.keys, (lay key').buffer ≠ c) :
    Kept sc lay m m' (n.setTensor key (m.tensor key)) (n'.setBuffer c (m'.cell c)) where
  holds := {
    bare := h.holds.bare
    closed := by
      intro key' hkey' p
      by_cases heq : key' = key
      · rw [heq, Store.tensor_setTensor]
        exact hm.closed key hkey p
      · rw [Store.tensor_setTensor_of_ne heq]
        exact h.holds.closed key' (fun hmem => hkey' ((Scope.mem_keys_realize.mp hmem).resolve_left heq)) p
    held := by
      intro key' hkey' p x hx
      have heq := Scope.ne_of_mem hkey hkey'
      rw [Store.tensor_setTensor_of_ne heq] at hx
      have hheld := h.holds.held key' (Scope.mem_keys_realize.mpr (Or.inr hkey')) p x hx
      rw [Function.update_of_ne heq] at hheld
      rwa [Store.cell_setBuffer_of_ne (hfresh key' hkey')] }
  elements key' p := by
    by_cases heq : key' = key
    · rw [heq, Store.tensor_setTensor]
    · rw [Store.tensor_setTensor_of_ne heq, h.elements, Store.tensor_setTensor_of_ne heq]
  spares c' i hne := by
    by_cases heq : c' = c
    · rw [heq, Store.cell_setBuffer]
    · rw [Store.cell_setBuffer_of_ne heq, h.spares c' i, Store.cell_setBuffer_of_ne heq]
      intro key' hkey' p hp hbuffer
      by_cases hsame : key' = key
      · rw [hsame, Function.update_self] at hbuffer
        exact absurd hbuffer.symm heq
      · rw [Store.tensor_setTensor_of_ne hsame] at hp
        rw [Function.update_of_ne hsame] at hbuffer ⊢
        exact hne key' ((Scope.mem_keys_realize.mp hkey').resolve_left hsame) p hp hbuffer

end Realize

/-! ### Statements -/

/-- Whether a tensor is an argument. -/
def TensorBuffers.external (args : TensorBuffers) (key : Nat × Int) : Bool :=
  args.any (·.1.key == key)

theorem TensorBuffers.external_eq (args : TensorBuffers) (op : OpRef) {output : Int} (h : 0 ≤ output) :
    args.external (op.idx, output) = (args.find? ⟨op, output.toNat⟩).isSome := by
  have hsame : ∀ t : TensorRef, t.same ⟨op, output.toNat⟩ = (t.key == (op.idx, output)) := by
    intro t
    rw [Bool.eq_iff_iff]
    simp only [TensorRef.same, TensorRef.key, Bool.and_eq_true, beq_iff_eq, Prod.mk.injEq]
    omega
  rw [TensorBuffers.external, TensorBuffers.find?, Option.isSome_map, Bool.eq_iff_iff, List.any_eq_true, List.find?_isSome]
  simp only [hsame]

namespace Stmt

variable {R : ExactReading V} {args : TensorBuffers} {sc : Scope} {fs fs' : FlatState} {g g' : Graph} {line : Int}

/-- Whatever a statement does to tensors, another one does to flat memory. -/
def Simulates (R : ExactReading V) (args : TensorBuffers) (sc : Scope) (fs : FlatState) (s s' : Stmt) : Prop :=
  ∀ {ρ : Valuation V} {lay : Placements} {m m' n : Store V}, Laid R sc fs ρ lay → Holds sc lay m m' →
    s.run R args.external ρ m = some n → ∃ n', s'.run R args.external ρ m' = some n' ∧ Kept sc lay m m' n n'

-- The equations of the three walks are derived once, here, and not while the proofs below wait for them.
attribute [local simp] fits run flattenWith in
theorem Simulates.of_same {s s' : Stmt} (h : Simulates R args sc fs' s s')
    (hsame : ∀ key ∈ sc.keys, fs'.find? key = fs.find? key) : Simulates R args sc fs s s' :=
  fun hlaid hholds hn => h (hlaid.of_same hsame) hholds hn

theorem simulates_nil : Simulates R args sc fs (seq []) (seq []) := by
  intro ρ lay m m' n _ hholds hn
  obtain rfl := Option.some.inj hn
  exact ⟨m', rfl, Kept.refl hholds⟩

theorem simulates_cons {s s' : Stmt} {ss ss' : List Stmt} (hs : Simulates R args sc fs s s')
    (hss : Simulates R args sc fs (seq ss) (seq ss')) : Simulates R args sc fs (seq (s :: ss)) (seq (s' :: ss')) := by
  intro ρ lay m m' n hlaid hholds hn
  obtain ⟨n₁, hn₁, hn⟩ := Option.bind_eq_some_iff.mp hn
  obtain ⟨n₁', hn₁', hkept⟩ := hs hlaid hholds hn₁
  obtain ⟨n', hn', hkept'⟩ := hss hlaid hkept.holds hn
  exact ⟨n', Option.bind_eq_some_iff.mpr ⟨n₁', hn₁', hn'⟩, hkept.trans hkept'⟩

/-- A statement is flattened to one that simulates it, and the buffers of tensors in scope stay known. -/
structure FlattensTo (R : ExactReading V) (args : TensorBuffers) (line : Int) (sc : Scope) (fs : FlatState) (g : Graph)
    (s s' : Stmt) (fs' : FlatState) (g' : Graph) : Prop where
  yields : (s.flattenWith args line).Yields fs g s' fs' g'
  next : g.next ≤ g'.next
  same : ∀ key ∈ sc.keys, fs'.find? key = fs.find? key
  simulates : Simulates R args sc fs s s'

theorem provide_flattens {op : OpRef} {output : Int} {value : Expr} {indices : List Expr} (hk : Knows args sc fs g)
    (h : (provide op output value indices).fits args.external sc) :
    ∃ s' fs' g', FlattensTo R args line sc fs g (provide op output value indices) s' fs' g' := by
  simp only [fits, Bool.and_eq_true, decide_eq_true_eq] at h
  obtain ⟨⟨hrank, hvalue⟩, hindices⟩ := h
  obtain ⟨entry, hfind, hregular, -⟩ := hk.found _ _ hrank
  obtain ⟨value', hv, hflat⟩ := Flattened.gives_flatten (R := R) hk hvalue
  obtain ⟨indices', his, hflats⟩ := Flatten.yields_flattenExprs (g := g) fun a ha =>
    Flattened.gives_flatten (R := R) hk (hindices a ha).1
  obtain ⟨off, hoff, -, haddress⟩ := FlatEntry.gives_address (R := R) (hflats.length_eq ▸ hregular)
    (Flattened.integrals hflats fun a ha => (hindices a ha).2)
  obtain ⟨l, hl, hoff⟩ := bind_eq_ok.mp hoff
  refine ⟨.store (.var entry.buffer.data) value' off none, fs, g, ?_, Nat.le_refl _, fun _ _ => rfl,
    fun {ρ lay m m' n} hlaid hholds hn => ?_⟩
  · unfold flattenWith
    refine Flatten.yields_get_bind (Flatten.yields_bind (Flatten.yields_ok (FlatState.entry_eq_ok hfind)) ?_)
    refine Flatten.yields_bind (Flatten.yields_flattenExpr hv) (Flatten.yields_bind his (Flatten.yields_ok ?_))
    rw [hl]
    show (entry.buffer.offsetOf l >>= fun off => Except.ok (Stmt.store (.var entry.buffer.data) value' off none)) = _
    rw [hoff]
    rfl
  · simp only [run, Option.bind_eq_bind, Option.bind_eq_some_iff] at hn
    obtain ⟨x, hx, p, hp, hn⟩ := hn
    have hkey := Scope.mem_keys hrank
    obtain ⟨n', hn', hkept⟩ := hholds.provide hlaid.apart hkey hn
    obtain ⟨entry', hfind', hbuffer, hcovers⟩ := hlaid.covers _ hkey
    obtain rfl := Option.some.inj (hfind.symm.trans hfind')
    obtain ⟨y, hy⟩ := Option.isSome_iff_exists.mp (Store.provide_eq_some.mp hn).1
    have hp' := Expr.Imitates.integers (hflats.imp fun _ _ hflat => hflat.value hlaid hholds) hp
    have hvalue := haddress (hcovers m' ρ fun _ _ => rfl) hp' (Region.length_of_contains (hholds.held _ hkey p y hy).1)
    refine ⟨n', ?_, hkept⟩
    simp only [run, hflat.value hlaid hholds x hx, hvalue, Option.bind_eq_bind, Option.bind_some, hbuffer]
    exact hn'

/-- Runs of steps that keep something along each other. -/
theorem foldlM_along {α β : Type} {I : β → β → Prop} {f f' : β → α → Option β} {l : List α} {a a' b : β}
    (step : ∀ x, ∀ {a a' b}, I a a' → f a x = some b → ∃ b', f' a' x = some b' ∧ I b b') (h : I a a')
    (hrun : l.foldlM f a = some b) : ∃ b', l.foldlM f' a' = some b' ∧ I b b' := by
  induction l generalizing a a' with
  | nil =>
    obtain rfl := Option.some.inj hrun
    exact ⟨a', rfl, h⟩
  | cons x l ih =>
    rw [List.foldlM_cons] at hrun
    obtain ⟨c, hc, hrun⟩ := Option.bind_eq_some_iff.mp hrun
    obtain ⟨c', hc', hI⟩ := step x h hc
    obtain ⟨b', hb', hI'⟩ := ih hI hrun
    refine ⟨b', ?_, hI'⟩
    rw [List.foldlM_cons, hc']
    exact hb'

theorem simulates_loop {v : Var} {min min' extent extent' : Expr} {kind : LoopKind} {body body' : Stmt}
    (hv : v.id ∉ sc.fixed) (hmin : Flattened R sc fs min min') (hextent : Flattened R sc fs extent extent')
    (hbody : Simulates R args sc fs body body') :
    Simulates R args sc fs (loop v min extent kind body) (loop v min' extent' kind body') := by
  intro ρ lay m m' n hlaid hholds hn
  simp only [run, Option.bind_eq_bind, Option.bind_eq_some_iff] at hn
  obtain ⟨start, hstart, count, hcount, hn⟩ := hn
  obtain ⟨n', hn', hkept⟩ := foldlM_along (I := Kept sc lay m m') (fun k {a a' b} hkept hb => by
    obtain ⟨b', hb', hkept'⟩ := hbody (hlaid.update hv _) hkept.holds hb
    exact ⟨b', hb', hkept.trans hkept'⟩) (Kept.refl hholds) hn
  refine ⟨n', ?_, hkept⟩
  simp only [run, (hmin.value hlaid hholds).integer? hstart, (hextent.value hlaid hholds).integer? hcount,
    Option.bind_eq_bind, Option.bind_some]
  exact hn'

theorem loop_flattens {v : Var} {min extent : Expr} {kind : LoopKind} {body : Stmt} (hk : Knows args sc fs g)
    (h : (loop v min extent kind body).fits args.external sc)
    (ih : body.fits args.external sc → ∃ s' fs' g', FlattensTo R args line sc fs g body s' fs' g') :
    ∃ s' fs' g', FlattensTo R args line sc fs g (loop v min extent kind body) s' fs' g' := by
  simp only [fits, Bool.and_eq_true, decide_eq_true_eq] at h
  obtain ⟨⟨⟨hv, hmin⟩, hextent⟩, hfits⟩ := h
  obtain ⟨min', hmin', hmin⟩ := Flattened.gives_flatten (R := R) hk hmin
  obtain ⟨extent', hextent', hextent⟩ := Flattened.gives_flatten (R := R) hk hextent
  obtain ⟨body', fs', g', hbody⟩ := ih hfits
  refine ⟨loop v min' extent' kind body', fs', g', ?_, hbody.next, hbody.same,
    simulates_loop hv hmin hextent hbody.simulates⟩
  unfold flattenWith
  exact Flatten.yields_bind (Flatten.yields_flattenExpr hmin') (Flatten.yields_bind (Flatten.yields_flattenExpr hextent')
    (Flatten.yields_bind hbody.yields (Flatten.yields_pure _)))

/-- Statements one after the other. -/
theorem all_flatten {ss : List Stmt} (hk : Knows args sc fs g) (h : fits.all args.external ss sc)
    (ih : ∀ s ∈ ss, ∀ {fs g}, Knows args sc fs g → s.fits args.external sc →
      ∃ s' fs' g', FlattensTo R args line sc fs g s s' fs' g') :
    ∃ ss' fs' g', (flattenWith.onList args line ss).Yields fs g ss' fs' g' ∧ g.next ≤ g'.next ∧
      (∀ key ∈ sc.keys, fs'.find? key = fs.find? key) ∧ Simulates R args sc fs (seq ss) (seq ss') := by
  induction ss generalizing fs g with
  | nil => exact ⟨[], fs, g, rfl, Nat.le_refl _, fun _ _ => rfl, simulates_nil⟩
  | cons s ss ihs =>
    rw [List.forall_mem_cons] at ih
    simp only [fits.all, Bool.and_eq_true] at h
    obtain ⟨s', fs₁, g₁, hs⟩ := ih.1 hk h.1
    obtain ⟨ss', fs', g', hyields, hnext, hsame, hsim⟩ := ihs (hk.of_same hs.same hs.next) h.2 ih.2
    refine ⟨s' :: ss', fs', g', ?_, Nat.le_trans hs.next hnext, fun key hkey => (hsame key hkey).trans (hs.same key hkey),
      simulates_cons hs.simulates (hsim.of_same hs.same)⟩
    unfold flattenWith.onList
    exact Flatten.yields_bind hs.yields (Flatten.yields_bind hyields (Flatten.yields_pure _))

/-- A conditional without a second branch does nothing if the condition is false. -/
theorem run_branch_none (cond : Expr) (onTrue : Stmt) (external : Nat × Int → Bool) :
    (branch cond onTrue none).run R external = (branch cond onTrue (some (seq []))).run R external := by
  funext ρ m
  simp only [run, run.runAll]
  rfl

theorem simulates_branch {cond cond' : Expr} {t t' f f' : Stmt} (hcond : Flattened R sc fs cond cond')
    (ht : Simulates R args sc fs t t') (hf : Simulates R args sc fs f f') :
    Simulates R args sc fs (branch cond t (some f)) (branch cond' t' (some f')) := by
  intro ρ lay m m' n hlaid hholds hn
  simp only [run, Option.bind_eq_bind, Option.bind_eq_some_iff] at hn ⊢
  obtain ⟨c, hc, hn⟩ := hn
  have hc' := hcond.value hlaid hholds c hc
  by_cases htruth : R.truth c
  · rw [if_pos htruth] at hn
    obtain ⟨n', hn', hkept⟩ := ht hlaid hholds hn
    exact ⟨n', ⟨c, hc', by rw [if_pos htruth]; exact hn'⟩, hkept⟩
  · rw [if_neg htruth] at hn
    obtain ⟨n', hn', hkept⟩ := hf hlaid hholds hn
    exact ⟨n', ⟨c, hc', by rw [if_neg htruth]; exact hn'⟩, hkept⟩

theorem branch_flattens {cond : Expr} {onTrue : Stmt} {onFalse : Option Stmt} (hk : Knows args sc fs g)
    (h : (branch cond onTrue onFalse).fits args.external sc)
    (iht : ∀ {fs g}, Knows args sc fs g → onTrue.fits args.external sc →
      ∃ s' fs' g', FlattensTo R args line sc fs g onTrue s' fs' g')
    (ihf : ∀ s ∈ onFalse, ∀ {fs g}, Knows args sc fs g → s.fits args.external sc →
      ∃ s' fs' g', FlattensTo R args line sc fs g s s' fs' g') :
    ∃ s' fs' g', FlattensTo R args line sc fs g (branch cond onTrue onFalse) s' fs' g' := by
  cases onFalse with
  | none =>
    simp only [fits, Bool.and_eq_true, decide_eq_true_eq] at h
    obtain ⟨hcond, htrue⟩ := h
    obtain ⟨cond', hcond', hflat⟩ := Flattened.gives_flatten (R := R) hk hcond
    obtain ⟨t', fs', g', ht⟩ := iht hk htrue
    refine ⟨branch cond' t' none, fs', g', ?_, ht.next, ht.same, ?_⟩
    · unfold flattenWith
      exact Flatten.yields_bind (Flatten.yields_flattenExpr hcond') (Flatten.yields_bind ht.yields (Flatten.yields_pure _))
    · unfold Simulates
      rw [run_branch_none, run_branch_none]
      exact simulates_branch hflat ht.simulates simulates_nil
  | some onFalse =>
    simp only [fits, Bool.and_eq_true, decide_eq_true_eq] at h
    obtain ⟨⟨hcond, htrue⟩, hfalse⟩ := h
    obtain ⟨cond', hcond', hflat⟩ := Flattened.gives_flatten (R := R) hk hcond
    obtain ⟨t', fs₁, g₁, ht⟩ := iht hk htrue
    obtain ⟨f', fs', g', hf⟩ := ihf onFalse rfl (hk.of_same ht.same ht.next) hfalse
    refine ⟨branch cond' t' (some f'), fs', g', ?_, Nat.le_trans ht.next hf.next,
      fun key hkey => (hf.same key hkey).trans (ht.same key hkey),
      simulates_branch hflat ht.simulates (Simulates.of_same hf.simulates ht.same)⟩
    unfold flattenWith
    exact Flatten.yields_bind (Flatten.yields_flattenExpr hcond') (Flatten.yields_bind ht.yields
      (Flatten.yields_bind hf.yields (Flatten.yields_pure _)))

theorem size_eq_foldl (r : Region) (k : Int) : (r.map (·.2)).foldl (· * ·) k = k * r.size := by
  induction r generalizing k with
  | nil => exact (Int.mul_one k).symm
  | cons b r ih => rw [List.map_cons, List.foldl_cons, ih, Region.size, Int.mul_assoc]

theorem size_nonneg {r : Region} (h : r.any (·.2 < 0) = false) : 0 ≤ r.size := by
  induction r with
  | nil => exact Int.one_nonneg
  | cons b r ih =>
    simp only [List.any_cons, Bool.or_eq_false_iff, decide_eq_false_iff_not, Int.not_lt] at h
    exact Int.mul_nonneg h.1 (ih h.2)

/-- A realized tensor is kept in a buffer that is allocated for it. -/
theorem simulates_realize {op : OpRef} {output : Int} {t : DataType} {bounds : List Range} {cond : Expr} {body body' : Stmt}
    {b : Buffer} {subject : Subject} {scope : Expr} (hk : Knows args sc fs g)
    (hexternal : args.external (op.idx, output) = false)
    (hkey : (op.idx, output) ∉ sc.keys) (hplain : ∀ r ∈ bounds, r.Plain) (hb : RegionBuffer b bounds g)
    (hbody : Simulates R args (sc.realize (op.idx, output) bounds)
      (fs.setEntry op output ⟨b, bounds.map (·.min)⟩) body body') :
    Simulates R args sc fs (realize op output t bounds cond body)
      (attr subject "storage_scope" scope (allocate b.data.id b.data t (bounds.map (·.extent)) cond body')) := by
  intro ρ lay m m' n hlaid hholds hn
  simp only [run, hexternal, Bool.false_eq_true, if_false, Option.bind_eq_bind, Option.bind_eq_some_iff] at hn
  obtain ⟨r, hr, hn⟩ := hn
  split at hn
  · cases hn
  rename_i hnonneg
  have hfresh := hlaid.fresh hk hb
  obtain ⟨n₁, hn₁, hn⟩ := Option.bind_eq_some_iff.mp hn
  obtain rfl := Option.some.inj hn
  obtain ⟨n', hn', hkept⟩ := hbody (hlaid.realize hk hholds.bare hplain hr hb) (hholds.realize hfresh t) hn₁
  refine ⟨n'.setBuffer b.data.id (m'.cell b.data.id), ?_, hkept.realize hholds hkey hfresh⟩
  have hextents := (integers_of_region? hholds.bare hplain hr m' fun _ _ => rfl).2
  have hsize : ¬(r.map (·.2)).foldl (· * ·) 1 < 0 := by
    rw [size_eq_foldl, Int.one_mul]
    exact Int.not_lt.mpr (size_nonneg (by simpa using hnonneg))
  simp only [run, hextents, Option.bind_eq_bind, Option.bind_some, hsize, if_false]
  rw [size_eq_foldl, Int.one_mul, hn']
  rfl

theorem realize_flattens {op : OpRef} {output : Int} {t : DataType} {bounds : List Range} {cond : Expr} {body : Stmt}
    (hk : Knows args sc fs g) (h : (realize op output t bounds cond body).fits args.external sc)
    (ih : ∀ {sc fs g}, Knows args sc fs g → body.fits args.external sc →
      ∃ s' fs' g', FlattensTo R args line sc fs g body s' fs' g') :
    ∃ s' fs' g', FlattensTo R args line sc fs g (realize op output t bounds cond body) s' fs' g' := by
  simp only [fits, Bool.and_eq_true, decide_eq_true_eq] at h
  obtain ⟨⟨hnonneg, hlt⟩, h⟩ := h
  have hof : TensorRef.of op output = .ok ⟨op, output.toNat⟩ := by
    unfold TensorRef.of
    rw [if_pos (by simp [hnonneg, hlt])]
  have hexternal := args.external_eq op hnonneg
  cases hfind : args.find? ⟨op, output.toNat⟩ with
  | some b =>
    -- The buffer of an argument is known all along.
    rw [hfind] at hexternal
    rw [hexternal] at h
    obtain ⟨hmem, hknown⟩ := hk.given _ b hfind
    have hsame : ∀ key ∈ sc.keys, (fs.setEntry op output ⟨b, []⟩).find? key = fs.find? key := by
      intro key _
      rw [FlatState.find?_setEntry]
      split
      · rename_i heq
        rw [heq, ← hknown, TensorRef.key, Int.toNat_of_nonneg hnonneg]
      · rfl
    obtain ⟨s', fs', g', hbody⟩ := ih (hk.of_same hsame (Nat.le_refl _)) h
    refine ⟨s', fs', g', ?_, hbody.next, fun key hkey => (hbody.same key hkey).trans (hsame key hkey),
      fun {ρ lay m m' n} hlaid hholds hn => ?_⟩
    · unfold flattenWith
      refine Flatten.yields_bind (Flatten.yields_ok hof) ?_
      rw [hfind]
      exact Flatten.yields_modify_bind hbody.yields
    · rw [run, hexternal] at hn
      exact hbody.simulates (hlaid.of_same hsame) hholds hn
  | none =>
    rw [hfind] at hexternal
    rw [hexternal] at h
    simp only [Option.isSome_none, Bool.false_eq_true, if_false, Bool.and_eq_true, decide_eq_true_eq] at h
    obtain ⟨⟨hkey, hplain⟩, hfits⟩ := h
    obtain ⟨b, hyields, hb⟩ := yields_regionBuffer op output t bounds (fs.scopeOf op) g
    obtain ⟨body', fs', g', hbody⟩ := ih (hk.realize hkey hplain hb) hfits
    refine ⟨attr (.var b.data) "storage_scope" (.str (if (fs.scopeOf op).isEmpty then "global" else fs.scopeOf op))
      (allocate b.data.id b.data t (bounds.map (·.extent)) cond body'), fs', g', ?_,
      Nat.le_trans (Nat.le_succ _) hbody.next,
      fun key hmem => ?_, simulates_realize hk hexternal hkey hplain hb hbody.simulates⟩
    · unfold flattenWith
      refine Flatten.yields_bind (Flatten.yields_ok hof) ?_
      rw [hfind]
      refine Flatten.yields_get_bind (Flatten.yields_bind (Flatten.yields_build hyields) (Flatten.yields_modify_bind ?_))
      exact Flatten.yields_bind hbody.yields (Flatten.yields_pure _)
    · rw [hbody.same key (Scope.mem_keys_realize.mpr (Or.inr hmem)), FlatState.find?_setEntry,
        if_neg (Scope.ne_of_mem hkey hmem)]

/-- Every statement that fits is flattened to one that simulates it. -/
theorem flattens (R : ExactReading V) (line : Int) {s : Stmt} (hk : Knows args sc fs g) (h : s.fits args.external sc) :
    ∃ s' fs' g', FlattensTo R args line sc fs g s s' fs' g' := by
  induction s generalizing sc fs g with
  | provide => exact provide_flattens hk h
  | loop v min extent kind body ih => exact loop_flattens hk h (ih hk)
  | realize op output t bounds cond body ih => exact realize_flattens hk h fun hk h => ih hk h
  | branch cond onTrue onFalse iht ihf =>
    exact branch_flattens hk h (fun hk h => iht hk h) fun s hs _ _ hk h => ihf s hs hk h
  | seq ss ih =>
    obtain ⟨ss', fs', g', hyields, hnext, hsame, hsim⟩ := all_flatten hk h fun s hs _ _ hk h => ih s hs hk h
    refine ⟨seq ss', fs', g', ?_, hnext, hsame, hsim⟩
    unfold flattenWith
    exact Flatten.yields_bind hyields (Flatten.yields_pure _)
  | _ => cases h

end Stmt

/-! ### Arguments -/

/-- Memory in which nothing is there. -/
def Store.empty : Store V := ⟨fun _ _ => none, fun _ _ => none⟩

namespace TensorBuffers

/-- The scope of the arguments. -/
def scope (args : TensorBuffers) : Scope where
  ranks := args.map fun (t, b) => (t.key, b.shape.length)
  fixed := args.flatMap fun (_, b) => (b.elemOffset :: b.shape).flatMap fun e => e.vars.map (·.id)

/-- Distinct arguments have compact buffers of their own, whose extents and offsets are integral and read no
    tensors. -/
structure Compact (args : TensorBuffers) (g : Graph) : Prop where
  keys : (args.map (·.1.key)).Nodup
  buffers : (args.map (·.2.data.id)).Nodup
  numbered : ∀ p ∈ args, p.2.data.id < g.next
  strides : ∀ p ∈ args, p.2.strides = []
  integral : ∀ p ∈ args, ∀ e ∈ p.2.elemOffset :: p.2.shape, e.Integral
  reads : ∀ p ∈ args, ∀ e ∈ p.2.elemOffset :: p.2.shape, e.tensorReads = []

/-- The placements of arguments are those of their buffers: all of the shape, from the buffer's offset on. -/
def Placed (args : TensorBuffers) (R : ExactReading V) (ρ : Valuation V) (lay : Placements) : Prop :=
  ∀ p ∈ args, (lay p.1.key).buffer = p.2.data.id ∧
    FlatEntry.Covers R Store.empty ρ ⟨p.2, []⟩ (lay p.1.key).region (lay p.1.key).base

variable {args : TensorBuffers} {g : Graph} {R : ExactReading V} {ρ : Valuation V} {lay : Placements}

theorem find?_flatStart (h : args.Compact g) {p : TensorRef × Buffer} (hp : p ∈ args) :
    (Stmt.flatStart args).find? p.1.key = some ⟨p.2, []⟩ := by
  have hkeys := h.keys
  unfold FlatState.find? Stmt.flatStart
  clear h
  induction args with
  | nil => cases hp
  | cons q args ih =>
    rw [List.map_cons, List.find?_cons]
    rw [List.map_cons, List.nodup_cons] at hkeys
    obtain rfl | hp := List.mem_cons.mp hp
    · simp [TensorRef.key]
    · have hne : q.1.key ≠ p.1.key := fun heq => hkeys.1 (heq ▸ List.mem_map_of_mem hp)
      have hbeq : ((q.1.op.idx, (q.1.index : Int)) == p.1.key) = false := beq_false_of_ne hne
      rw [hbeq]
      exact ih hp hkeys.2

theorem mem_keys_scope {key : Nat × Int} : key ∈ args.scope.keys ↔ ∃ p ∈ args, p.1.key = key := by
  simp [scope, Scope.keys]

theorem knows_flatStart (h : args.Compact g) : Knows args args.scope (Stmt.flatStart args) g where
  found key k hmem := by
    obtain ⟨p, hp, heq⟩ := List.mem_map.mp hmem
    obtain ⟨rfl, rfl⟩ := Prod.mk.inj heq
    refine ⟨_, find?_flatStart h hp, ⟨h.strides p hp, rfl, fun e he => ?_, Or.inl rfl, List.forall_mem_nil _, ?_⟩,
      h.numbered p hp⟩
    · exact h.integral p hp e (List.mem_cons_of_mem _ he)
    · exact h.integral p hp _ List.mem_cons_self
  given t b htb := by
    obtain ⟨p, hp, rfl⟩ := Option.map_eq_some_iff.mp htb
    have hmem := List.mem_of_find?_eq_some hp
    have hkey : p.1.key = t.key := by
      have hsame := List.find?_some hp
      simp only [TensorRef.same, Bool.and_eq_true, beq_iff_eq] at hsame
      rw [TensorRef.key, TensorRef.key, hsame.1, hsame.2]
    rw [← hkey]
    exact ⟨mem_keys_scope.mpr ⟨p, hmem, rfl⟩, find?_flatStart h hmem⟩

theorem laid_flatStart (h : args.Compact g) (hplaced : args.Placed R ρ lay) :
    Laid R args.scope (Stmt.flatStart args) ρ lay where
  covers key hkey := by
    obtain ⟨p, hp, rfl⟩ := mem_keys_scope.mp hkey
    obtain ⟨hbuffer, hcovers⟩ := hplaced p hp
    refine ⟨_, find?_flatStart h hp, hbuffer.symm, fun m σ hσ => ?_⟩
    have hsteady : ∀ e ∈ p.2.elemOffset :: p.2.shape, e.Steady ρ σ := fun e he =>
      ⟨h.reads p hp e he, fun v hv => hσ v.id (List.mem_flatMap.mpr ⟨p, hp, List.mem_flatMap.mpr
        ⟨e, he, List.mem_map_of_mem hv⟩⟩)⟩
    have himitates : ∀ e ∈ p.2.elemOffset :: p.2.shape, Expr.Imitates R Store.empty ρ m σ e e := fun e he =>
      (hsteady e he).imitates fun _ _ => rfl
    exact ⟨Expr.Imitates.integers (List.forall₂_same.mpr fun e he =>
      himitates e (List.mem_cons_of_mem _ he)) hcovers.extents,
      hcovers.starts, (himitates _ List.mem_cons_self).integer? hcovers.base⟩
  apart key hkey key' hkey' hsame := by
    obtain ⟨p, hp, rfl⟩ := mem_keys_scope.mp hkey
    obtain ⟨q, hq, rfl⟩ := mem_keys_scope.mp hkey'
    rw [(hplaced p hp).1, (hplaced q hq).1] at hsame
    rw [List.inj_on_of_nodup_map h.buffers hp hq hsame]

end TensorBuffers

/-- Flattening succeeds, and what a statement does to tensors, flattened it does to flat memory: if the
    statement has an execution, which is to say that every access lies in the region of its tensor, then the
    flattened statement has one, that is every access lies in its buffer. It keeps the elements of the
    arguments at their row-major places and changes nothing else. The places of a region are those of a
    buffer of its size, each that of one element. -/
theorem Stmt.flatten_simulates (R : ExactReading V) (line : Int) {args : TensorBuffers} {s : Stmt} {g : Graph}
    (hargs : args.Compact g) (hs : s.fits args.external args.scope) :
    (∃ s' g', (s.flatten args line).Yields g s' g' ∧ ∀ {ρ lay m m' n}, args.Placed R ρ lay →
      Holds args.scope lay m m' → s.run R args.external ρ m = some n →
        ∃ n', s'.run R args.external ρ m' = some n' ∧ Kept args.scope lay m m' n n') ∧
    ∀ (r : Region) p, r.contains p → (0 ≤ r.offset p ∧ r.offset p < r.size) ∧
      ∀ q, r.contains q → r.offset q = r.offset p → q = p := by
  refine ⟨?_, fun r p hp => ⟨Region.offset_bounds hp, fun q hq heq => Region.offset_injective hq hp heq⟩⟩
  obtain ⟨s', fs', g', h⟩ := flattens R line (args.knows_flatStart hargs) hs
  refine ⟨s', g', Build.yields_bind.mpr ⟨(s', fs'), g', h.yields, rfl⟩, fun hplaced hholds hn => ?_⟩
  exact h.simulates (args.laid_flatStart hargs hplaced) hholds hn

/-! ### Sums of neighbours -/

namespace Stmt.Neighbours

/-- The reading of integers. -/
def reading : ExactReading Int where
  number x _ := match x with
    | .int n => n
    | _ => 0
  text _ := 0
  cast _ x := x
  binary op _ x y := match op with
    | .add => x + y
    | .sub => x - y
    | .mul => x * y
    | _ => 0
  negate x := if x = 0 then 1 else 0
  choose _ c x y := if c = 0 then y else x
  call _ _ _ _ _ := 0
  load _ _ _ _ := 0
  ramp _ x _ _ := x
  broadcast _ x _ := x
  truth x := x != 0
  counter _ i := i
  toInt x := x
  int? := some
  binary_any _ _ _ _ _ := rfl
  choose_any _ _ _ _ _ := rfl
  ramp_any _ _ _ _ _ := rfl
  broadcast_any _ _ _ _ := rfl
  int?_number _ _ _ := rfl
  int?_cast _ h := h
  int?_add h h' := by cases h; cases h'; rfl
  int?_sub h h' := by cases h; cases h'; rfl
  int?_mul h h' := by cases h; cases h'; rfl

def op (idx : Nat) (name : String) : OpRef := ⟨idx, name, true, 1⟩

def i : Expr := .var ⟨0, "i", .int32⟩

def next : Expr := .bin .add i (.const (.int 1) .int32)

def read (o : OpRef) (index : Expr) : Expr := .call .int32 o.name [index] .tensorRead (some o) 0

def forBoth (body : Stmt) : Stmt := loop ⟨0, "i", .int32⟩ (.const (.int 0) .int32) (.const (.int 2) .int32) .serial body

/-- `T[i + 1] = A[i] + A[i + 1]` over the region of two elements from 1 on, then `B[i] = T[i + 1]`. -/
def sums : Stmt :=
  realize (op 1 "T") 0 .int32 [⟨.const (.int 1) .int32, .const (.int 2) .int32⟩] (.const (.int 1) .bool)
    (seq [forBoth (provide (op 1 "T") 0 (.bin .add (read (op 0 "A") i) (read (op 0 "A") next)) [next]),
      forBoth (provide (op 2 "B") 0 (read (op 1 "T") next) [i])])

def buffer (id : Nat) (name : String) (extent offset : Int) : Buffer :=
  ⟨⟨id, name, .handle⟩, .int32, [.const (.int extent) .int32], [], .const (.int offset) .int32, name, "", (-1 : Int),
    (0 : Int)⟩

/-- `A` starts at the first cell of its buffer, `B` at the fifth. -/
def args : TensorBuffers := [(⟨op 0 "A", 0⟩, buffer 1 "A" 3 0), (⟨op 2 "B", 0⟩, buffer 2 "B" 2 4)]

def graph : Graph := { ops := #[], next := 3 }

def placements : Placements
  | (0, 0) => ⟨1, [(0, 3)], 0⟩
  | _ => ⟨2, [(0, 2)], 4⟩

def tensors : Store Int where
  tensor key p := match key with
    | (0, 0) => if Region.contains [(0, 3)] p then some (10 * (Region.offset [(0, 3)] p + 1)) else none
    | (2, 0) => if Region.contains [(0, 2)] p then some 0 else none
    | _ => none
  cell _ _ := none

def memory : Store Int where
  tensor _ _ := none
  cell b i := if b = 1 then some (10 * (i + 1)) else if b = 2 then some 0 else none

theorem args_compact : args.Compact graph where
  keys := by decide
  buffers := by decide
  numbered := by decide
  strides := by decide
  integral := by decide
  reads := by decide

theorem sums_fits : sums.fits args.external args.scope := by
  decide +kernel

theorem args_placed : args.Placed reading (fun _ => 0) placements := by
  simp only [TensorBuffers.Placed, args, List.forall_mem_cons, List.not_mem_nil, false_implies, implies_true, and_true]
  exact ⟨⟨rfl, rfl, Or.inl ⟨rfl, by decide⟩, rfl⟩, rfl, rfl, Or.inl ⟨rfl, by decide⟩, rfl⟩

theorem memory_holds : Holds args.scope placements tensors memory where
  bare _ _ := rfl
  closed key hkey p := by
    unfold tensors
    dsimp only
    split
    · exact absurd (by decide) hkey
    · exact absurd (by decide) hkey
    · rfl
  held key hkey p x hx := by
    obtain ⟨q, hq, rfl⟩ := TensorBuffers.mem_keys_scope.mp hkey
    simp only [args, List.mem_cons, List.not_mem_nil, or_false] at hq
    obtain rfl | rfl := hq
    · obtain ⟨hp, hx⟩ := Option.ite_none_right_eq_some.mp hx
      refine ⟨hp, hx ▸ ?_⟩
      simp [memory, placements, Placement.address, TensorRef.key, op]
    · obtain ⟨hp, hx⟩ := Option.ite_none_right_eq_some.mp hx
      exact ⟨hp, hx⟩

theorem sums_run : (sums.run reading args.external (fun _ => 0) tensors).map (fun n =>
      (n.tensor (2, 0) [0], n.tensor (2, 0) [1])) =
    some (some 30, some 50) := by
  decide +kernel

/-- The flattened sums leave 10 + 20 and 20 + 30 in the fifth and the sixth cell of the second buffer. -/
theorem flatten_sums_runs : ∃ s' g' n', (sums.flatten args 64).Yields graph s' g' ∧
    s'.run reading args.external (fun _ => 0) memory = some n' ∧ n'.cell 2 4 = some 30 ∧ n'.cell 2 5 = some 50 := by
  obtain ⟨⟨s', g', hyields, hsimulates⟩, -⟩ := flatten_simulates reading 64 args_compact sums_fits
  obtain ⟨n, hn, hvalues⟩ := Option.map_eq_some_iff.mp sums_run
  obtain ⟨h30, h50⟩ := Prod.mk.inj hvalues
  obtain ⟨n', hn', hkept⟩ := hsimulates args_placed memory_holds hn
  exact ⟨s', g', n', hyields, hn', (hkept.holds.held (2, 0) (by decide) [0] 30 h30).2,
    (hkept.holds.held (2, 0) (by decide) [1] 50 h50).2⟩

end Stmt.Neighbours

end TensorNest

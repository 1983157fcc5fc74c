import TensorNest.Proofs.Readings
import TensorNest.Proofs.Traversal

/-! # What nests write

A statement runs over values of any type: `Stmt.writes` lists what it writes to elements of tensors, in order, each
value being computed from what was written before. A loop runs through its range, whatever its kind, and the threads of
a region run one after the other.

What is written can be told in two steps: which events there are, and what an event writes, given what the tensors hold
(`played`). The events of a nest are those of its body at the points of its extents, in their order
(`NestContext.inTurn_foldrM`). -/

namespace TensorNest

/-- The assignment of a value to an element of a tensor: an output of an operation at an index. -/
structure Write (V : Type) where
  op : Nat
  output : Int
  index : List V
  value : V

section Writing
variable {V α β : Type} [DecidableEq V] {C : Contents V → Prop} {T : Contents V}

namespace Contents

/-- What tensors hold after a write. -/
def write (T : Contents V) (w : Write V) : Contents V := fun op output index =>
  if op = w.op ∧ output = w.output ∧ index = w.index then w.value else T op output index

/-- What tensors hold after writes, one after the other. -/
def writeAll (T : Contents V) (ws : List (Write V)) : Contents V :=
  ws.foldl write T

theorem writeAll_append (T : Contents V) (ws us : List (Write V)) :
    T.writeAll (ws ++ us) = (T.writeAll ws).writeAll us :=
  List.foldl_append

theorem write_of_ne {w : Write V} {op : Nat} (h : op ≠ w.op) : T.write w op = T op := by
  funext output index
  exact if_neg fun hw => h hw.1

end Contents

/-- What is written while a list is gone through. What is written for an item depends on what was written before. -/
def inTurn (f : α → Contents V → List (Write V)) : List α → Contents V → List (Write V)
  | [], _ => []
  | a :: l, T => f a T ++ inTurn f l (T.writeAll (f a T))

theorem inTurn_append (f : α → Contents V → List (Write V)) (l l' : List α) (T : Contents V) :
    inTurn f (l ++ l') T = inTurn f l T ++ inTurn f l' (T.writeAll (inTurn f l T)) := by
  induction l generalizing T with
  | nil => rfl
  | cons a l ih => rw [List.cons_append, inTurn, ih, inTurn, Contents.writeAll_append, List.append_assoc]

theorem inTurn_flatMap (f : β → Contents V → List (Write V)) (g : α → List β) (l : List α) (T : Contents V) :
    inTurn f (l.flatMap g) T = inTurn (fun a => inTurn f (g a)) l T := by
  induction l generalizing T with
  | nil => rfl
  | cons a l ih => rw [List.flatMap_cons, inTurn_append, ih, inTurn]

theorem inTurn_map (f : β → Contents V → List (Write V)) (g : α → β) (l : List α) (T : Contents V) :
    inTurn f (l.map g) T = inTurn (fun a => f (g a)) l T := by
  induction l generalizing T with
  | nil => rfl
  | cons a l ih => rw [List.map_cons, inTurn, ih, inTurn]

/-- Two ways to go through lists write the same if they do so for each item, as long as what the tensors hold satisfies a
    condition, which is kept. -/
theorem inTurn_congr {f g : α → Contents V → List (Write V)} {l : List α}
    (h : ∀ a ∈ l, ∀ T, C T → f a T = g a T ∧ C (T.writeAll (g a T))) (hT : C T) : inTurn f l T = inTurn g l T := by
  induction l generalizing T with
  | nil => rfl
  | cons a l ih =>
    obtain ⟨ha, hl⟩ := List.forall_mem_cons.mp h
    obtain ⟨heq, hkept⟩ := ha T hT
    rw [inTurn, inTurn, heq, ih hl hkept]

/-- What events write, one after the other. -/
def played (act : α → Contents V → Write V) (events : List α) (T : Contents V) : List (Write V) :=
  inTurn (fun e T => [act e T]) events T

section Played
variable {act : α → Contents V → Write V} (hact : ∀ e T, C T → C (T.write (act e T)))

theorem played_cons (act : α → Contents V → Write V) (e : α) (events : List α) (T : Contents V) :
    played act (e :: events) T = act e T :: played act events (T.write (act e T)) := rfl

theorem played_append (act : α → Contents V → Write V) (events events' : List α) (T : Contents V) :
    played act (events ++ events') T = played act events T ++ played act events' (T.writeAll (played act events T)) :=
  inTurn_append ..

/-- What is written is written by an event. -/
theorem mem_played {act : α → Contents V → Write V} {events : List α} {w : Write V} (h : w ∈ played act events T) :
    ∃ e ∈ events, ∃ T, w = act e T := by
  induction events generalizing T with
  | nil => cases h
  | cons e events ih =>
    rw [played_cons] at h
    obtain rfl | h := List.mem_cons.mp h
    · exact ⟨e, List.mem_cons_self, T, rfl⟩
    · obtain ⟨e', he', T', rfl⟩ := ih h
      exact ⟨e', List.mem_cons_of_mem _ he', T', rfl⟩

include hact

theorem holds_played (events : List α) (hT : C T) : C (T.writeAll (played act events T)) := by
  induction events generalizing T with
  | nil => exact hT
  | cons e events ih => exact ih (hact e T hT)

/-- What is written in turn is what the events of all items write, if for each item it is what its events write. -/
theorem inTurn_played {f : β → Contents V → List (Write V)} {events : β → List α} {l : List β}
    (h : ∀ x ∈ l, ∀ T, C T → f x T = played act (events x) T) (hT : C T) :
    inTurn f l T = played act (l.flatMap events) T := by
  rw [played, inTurn_flatMap]
  exact inTurn_congr (fun x hx T hT => ⟨h x hx T hT, holds_played hact (events x) hT⟩) hT

end Played

end Writing

/-! ### Statements -/

namespace Stmt

variable {V : Type} [Inhabited V] [DecidableEq V]

/-- What a statement writes to elements of tensors, in order. -/
def writes (R : Reading V) : Stmt → Valuation V → Contents V → List (Write V)
  | provide op output value args, π, T => [⟨op.idx, output, args.map (·.value R T π), value.value R T π⟩]
  | loop v min extent _ body, π, T =>
    inTurn (fun k : Int => body.writes R (Function.update π v.id (R.counter v.dtype k)))
      (ints (R.toInt (min.value R T π)) (R.toInt (extent.value R T π))) T
  | attr subject name value body, π, T =>
    ((attr subject name value body).binder?).elim (body.writes R π T) fun v =>
      inTurn (fun k : Int => body.writes R (Function.update π v.id (R.counter v.dtype k)))
        (ints 0 (R.toInt (value.value R T π))) T
  | bind v value body, π, T => body.writes R (Function.update π v.id (value.value R T π)) T
  | assert _ _ body, π, T | allocate _ _ _ _ _ body, π, T | realize _ _ _ _ _ body, π, T => body.writes R π T
  | branch cond onTrue none, π, T => if R.truth (cond.value R T π) then onTrue.writes R π T else []
  | branch cond onTrue (some onFalse), π, T =>
    if R.truth (cond.value R T π) then onTrue.writes R π T else onFalse.writes R π T
  | seq ss, π, T => ofStmts ss π T
  | store .., _, _ | prefetch .., _, _ | eval _, _, _ => []
where
  /-- What statements write, one after the other. -/
  ofStmts : List Stmt → Valuation V → Contents V → List (Write V)
    | [], _, _ => []
    | s :: ss, π, T => s.writes R π T ++ ofStmts ss π (T.writeAll (s.writes R π T))

variable {R : Reading V} {π : Valuation V} {T : Contents V} {s body : Stmt}

theorem writes_provide {op : OpRef} {output : Int} {value : Expr} {args : List Expr} :
    (provide op output value args).writes R π T = [⟨op.idx, output, args.map (·.value R T π), value.value R T π⟩] := rfl

theorem writes_for {v : Var} {min extent : Expr} {kind : LoopKind} : (loop v min extent kind body).writes R π T =
    inTurn (fun k : Int => body.writes R (Function.update π v.id (R.counter v.dtype k)))
      (ints (R.toInt (min.value R T π)) (R.toInt (extent.value R T π))) T := rfl

theorem writes_branch_none {cond : Expr} :
    (branch cond body none).writes R π T = if R.truth (cond.value R T π) then body.writes R π T else [] := rfl

@[simp] theorem writes_seq (ss : List Stmt) : (seq ss).writes R π T = inTurn (fun s => s.writes R π) ss T := by
  induction ss generalizing T with
  | nil => rfl
  | cons s ss ih =>
    calc (seq (s :: ss)).writes R π T = s.writes R π T ++ (seq ss).writes R π (T.writeAll (s.writes R π T)) := rfl
      _ = inTurn (fun s => s.writes R π) (s :: ss) T := by rw [ih, inTurn]

theorem inTurn_items (s : Stmt) : inTurn (fun s => s.writes R π) s.items T = s.writes R π T := by
  cases s <;> simp [items, inTurn]

theorem writes_block (ss : List Stmt) : (block ss).writes R π T = inTurn (fun s => s.writes R π) ss T := by
  match ss with
  | [] => rfl
  | [s] => simp [block, inTurn]
  | s :: t :: ss => simp [block]

theorem writes_ofList (ss : List Stmt) : (ofList ss).writes R π T = inTurn (fun s => s.writes R π) ss T := by
  rw [ofList, writes_block, inTurn_flatMap]
  exact inTurn_congr (C := fun _ => True) (fun s _ T _ => ⟨inTurn_items s, trivial⟩) trivial

end Stmt

/-! ### Nests -/

namespace NestContext

variable {V : Type} [Inhabited V] [DecidableEq V] {R : FaithfulReading V} {π : Valuation V} {T : Contents V}
  {c : NestContext}
  {st : Stage} {g g' : Graph} {s body : Stmt}

theorem writes_guarded (guards : List Expr) (body : Stmt) : (guarded guards body).writes R.toReading π T =
    if ∀ e ∈ guards, R.truth (e.value R.toReading T π) then body.writes R.toReading π T else [] := by
  induction guards with
  | nil => simp [guarded]
  | cons e es ih =>
    have hcons : guarded (e :: es) body = .branch e (guarded es body) none := rfl
    rw [hcons, Stmt.writes_branch_none, ih]
    by_cases he : R.truth (e.value R.toReading T π) <;> simp [he]

theorem writes_provides (op : Operation) (args : List Expr) (v : Expr) : (provides op args [v]).writes R.toReading π T =
    [⟨op.idx, 0, args.map (·.value R.toReading T π), v.value R.toReading T π⟩] := by
  rw [provides, Stmt.writes_ofList]
  simp [inTurn, Stmt.writes_provide, Operation.ref]

/-- A loop from 0 runs through numbers of its type. -/
theorem writes_loop_zero {t : DataType} {v : Var} {extent : Expr} {kind : LoopKind} {n : Int} (htype : t.IsIndex)
    (hv : v.dtype = t) (hcount : R.toInt (extent.value R.toReading T π) = n) (hcounters : ∀ k ∈ ints 0 n, R.keeps t k) :
    (Stmt.loop v (.const (.int 0) t) extent kind body).writes R.toReading π T =
      inTurn (fun k : Int => body.writes R.toReading (Function.update π v.id (R.index k))) (ints 0 n) T := by
  rw [Stmt.writes_for, hcount]
  have hheld : ∀ k ∈ ints 0 n, R.holds t k := fun k hk => FaithfulReading.keeps_index htype ▸ hcounters k hk
  -- Where the loop does not run, its start may not be a number of the type.
  by_cases hn : n ≤ 0
  · have hnone : ∀ lo, ints lo n = [] := fun lo => by rw [ints, Int.toNat_of_nonpos hn]; rfl
    rw [hnone, hnone, inTurn, inTurn]
  have hlow : R.toInt ((Expr.const (.int 0) t).value R.toReading T π) = 0 := by
    rw [Expr.value, R.number_int htype (hheld 0 (mem_ints.mpr (by omega))), R.toInt_index]
  rw [hlow]
  refine inTurn_congr (C := fun _ => True) (fun k hk T _ => ⟨?_, trivial⟩) trivial
  rw [hv, R.counter_index htype (hheld k hk)]

/-- The loop of a leaf axis that nothing is noted about. -/
theorem loop_inv {leaf : IterVar} (hnotes : st.annotations = []) (htype : leaf.dtype.IsIndex)
    (h : c.loop st leaf body = .ok s) :
    ∃ r kind, c.ranges.get leaf = .ok r ∧ s = .loop leaf.var (.const (.int 0) leaf.dtype) r.extent kind body := by
  obtain ⟨r, hr, h⟩ := bind_eq_ok.mp h
  have hnote : st.annotation? leaf = none := by rw [Stage.annotation?, hnotes]; rfl
  rw [hnote] at h
  obtain ⟨zero, hzero, h⟩ := bind_eq_ok.mp h
  obtain rfl := Except.ok.inj ((Expr.ofNumber_int htype 0).symm.trans hzero)
  cases h
  exact ⟨r, _, hr, rfl⟩

/-- The loop of a leaf axis that nothing is noted about is one from 0. -/
theorem writes_loop {Γ : Context} {ρ : Valuation Int} {leaf : IterVar} {n : Int} (hnotes : st.annotations = [])
    (htype : leaf.dtype.IsIndex) (hextent : c.ranges.HasExtent Γ ρ leaf n) (hρ : R.Represents Γ ρ π)
    (hexact : ∀ r, c.ranges.get leaf = .ok r → r.extent.exact R π) (hcounters : ∀ k ∈ ints 0 n, R.keeps leaf.dtype k)
    (h : c.loop st leaf body = .ok s) : s.writes R.toReading π T =
      inTurn (fun k : Int => body.writes R.toReading (Function.update π leaf.id (R.index k))) (ints 0 n) T := by
  obtain ⟨r, kind, hr, rfl⟩ := loop_inv hnotes htype h
  refine writes_loop_zero htype rfl ?_ hcounters
  rw [(hextent.ensures r hr).value_eq hρ (hexact r hr), R.toInt_index]

/-- Loops around a body run through the points of their extents. Each loop may be over another variable than its leaf axis,
    and something may be put for variables in the loops and in the body. -/
theorem inTurn_foldrM {I : Valuation V → Prop} {E : Nat → Int} {wrap : IterVar → Stmt → Build Stmt} {leaves : List IterVar}
    {loopVar : IterVar → Var} (put : Stmt → Stmt)
    (hkeep : ∀ leaf ∈ leaves, ∀ π (k : Int), I π → I (Function.update π (loopVar leaf).id (R.index k)))
    (hwrap : ∀ leaf ∈ leaves, ∀ {b g b' g'}, (wrap leaf b).Yields g b' g' → ∀ π, I π →
      ∀ T, (put b').writes R.toReading π T =
      inTurn (fun k : Int => (put b).writes R.toReading (Function.update π (loopVar leaf).id (R.index k)))
        (ints 0 (E leaf.id)) T)
    (h : (leaves.foldrM wrap body).Yields g s g') (hπ : I π) : (put s).writes R.toReading π T =
      inTurn (fun p : List Int => (put body).writes R.toReading (π.assign (leaves.map loopVar) (p.map R.index)))
        (points (leaves.map fun leaf => ints 0 (E leaf.id))) T := by
  induction leaves generalizing π T s g' with
  | nil =>
    obtain ⟨rfl, -⟩ := Build.yields_pure.mp h
    simp [points, inTurn, Valuation.assign]
  | cons leaf leaves ih =>
    rw [List.forall_mem_cons] at hkeep hwrap
    rw [List.foldrM_cons] at h
    obtain ⟨inner, g₁, hinner, hloop⟩ := Build.yields_bind.mp h
    rw [hwrap.1 hloop π hπ, List.map_cons, List.map_cons, points, inTurn_flatMap]
    refine inTurn_congr (C := fun _ => True) (fun k _ T _ => ⟨?_, trivial⟩) trivial
    rw [ih hkeep.2 hwrap.2 hinner (hkeep.1 π k hπ), inTurn_map]
    rfl

section First
variable {wrap : IterVar → Stmt → Build Stmt}

/-- Puts the loop of the leaf axis at a position around a body, and before it what belongs there. -/
def wrapLoop (wrap : IterVar → Stmt → Build Stmt) (first : Option (Nat × Stmt)) (p : IterVar × Nat) (body : Stmt) :
    Build Stmt := do
  let s ← wrap p.1 body
  match first with
  | some (pos, t) => return if pos == p.2 then Stmt.ofList [t, s] else s
  | none => return s

theorem wrapLoops_eq (wrap : IterVar → Stmt → Build Stmt) (first : Option (Nat × Stmt)) (body : Stmt)
    (leaves : List IterVar) :
    wrapLoops wrap first body leaves = leaves.zipIdx.foldrM (wrapLoop wrap first) body := rfl

/-- What belongs before another loop changes nothing. -/
theorem foldrM_wrapLoop {first : Option (Nat × Stmt)} {leaves : List IterVar} {k : Nat}
    (hfirst : ∀ q ∈ first, q.1 < k ∨ k + leaves.length ≤ q.1) :
    (leaves.zipIdx k).foldrM (wrapLoop wrap first) body = leaves.foldrM wrap body := by
  induction leaves generalizing k with
  | nil => rfl
  | cons leaf leaves ih =>
    have hstep : wrapLoop wrap first (leaf, k) = wrap leaf := by
      funext s
      obtain _ | ⟨pos, t⟩ := first
      · exact bind_pure _
      have hne : pos ≠ k := by
        have := hfirst _ rfl
        simp only [List.length_cons] at this
        omega
      simp only [wrapLoop, beq_eq_false_iff_ne.mpr hne, Bool.false_eq_true, if_false]
      exact bind_pure _
    rw [List.zipIdx_cons, List.foldrM_cons, List.foldrM_cons, hstep, ih fun q hq => ?_]
    have := hfirst q hq
    simp only [List.length_cons] at this
    omega

/-- What is put before the loop at a position stands between the loops outside and that loop. -/
theorem wrapLoops_first {outer inner : List IterVar} (hinner : inner ≠ []) {t : Stmt}
    (h : (wrapLoops wrap (some (outer.length, t)) body (outer ++ inner)).Yields g s g') :
    ∃ rest g₁, (inner.foldrM wrap body).Yields g rest g₁ ∧ (outer.foldrM wrap (Stmt.ofList [t, rest])).Yields g₁ s g' := by
  obtain ⟨leaf, inner, rfl⟩ := List.exists_cons_of_ne_nil hinner
  rw [wrapLoops_eq, List.zipIdx_append, List.foldrM_append, Nat.zero_add, List.zipIdx_cons, List.foldrM_cons] at h
  obtain ⟨s₁, g₁, h₁, houter⟩ := Build.yields_bind.mp h
  obtain ⟨s₂, g₂, h₂, hloop⟩ := Build.yields_bind.mp h₁
  obtain ⟨s₃, g₃, hwrap, hput⟩ := Build.yields_bind.mp hloop
  dsimp only at hput
  rw [if_pos (beq_self_eq_true _)] at hput
  obtain ⟨rfl, rfl⟩ := Build.yields_pure.mp hput
  rw [foldrM_wrapLoop (by rintro _ ⟨⟩; exact Or.inr (by omega))] at houter
  rw [foldrM_wrapLoop (by rintro _ ⟨⟩; exact Or.inl (by omega))] at h₂
  refine ⟨s₃, g₃, ?_, houter⟩
  rw [List.foldrM_cons]
  exact Build.yields_bind.mpr ⟨s₂, g₂, h₂, hwrap⟩

end First

end NestContext

end TensorNest

import TensorNest.Proofs.Partitions
import TensorNest.Proofs.Records

/-! # Paths through statements

A path lists the statements that are executed, each one before the statements of its bodies; sequences are not listed.
Paths are taken through the text alone: a loop has any number of turns, a condition holds or not, and a thread can be
left out of a thread region. `Stmt.trail` executes a statement and gives the statements that it comes to, and what it
gives is a path (`Stmt.path_of_trail`). -/

namespace TensorNest

namespace Thread

variable {α β : Type}

/-- The lists that a thread gives for a number of consecutive integers, one after the other. -/
def gather (turn : Int → Thread (List α)) (start : Int) : Nat → Thread (List α)
  | 0 => return []
  | n + 1 => do
    let xs ← turn start
    let ys ← gather turn (start + 1) n
    return xs ++ ys

theorem erases_gather {x : Int → Thread (List α)} {y : Int → Thread Unit} (h : ∀ i, Erases (x i) (y i)) (first : Int)
    (n : Nat) :
    Erases (gather x first n) (forRange y first n) := by
  induction n generalizing first with
  | zero => exact erases_pure []
  | succ n ih => exact (h first).then fun xs => (ih (first + 1)).map

/-- What a thread gives, if it does not fail, has a property, whatever it finds after its waits. -/
def Returns (P : α → Prop) (x : Thread α) : Prop :=
  ∀ l m, (x.start l m).Always fun r => ∀ a, r.1 = .ok a → P a

section Returns
variable {P : α → Prop} {Q : β → Prop} {x : Thread α} {last : Thread Unit}

theorem returns_pure {a : α} (h : P a) : Returns P (pure a) := by
  rintro l m b ⟨⟩
  exact h

theorem returns_throw {e : Error} : Returns P (throw e) := by
  rintro l m b ⟨⟩

theorem Returns.bind {k : α → Thread β} (h : Returns P x) (hk : ∀ a, P a → Returns Q (k a)) : Returns Q (x >>= k) := by
  intro l m
  rw [start_bind]
  refine (h l m).bind fun r m' hr => ?_
  rcases r with ⟨_ | a, l'⟩
  · rintro b ⟨⟩
  · exact hk a (hr a rfl) l' m'

/-- Whatever comes before, what comes last decides. -/
theorem returns_bind {k : α → Thread β} (hk : ∀ a, Returns Q (k a)) : Returns Q (x >>= k) :=
  Returns.bind (P := fun _ => True) (fun _ _ => (Resumption.always_true _).mono fun _ _ _ _ => trivial) fun a _ => hk a

theorem Returns.closing (h : Returns P x) : Returns P (closing x last) := by
  intro l m
  rw [start_closing]
  refine (h l m).bind fun r m' hr => (Resumption.always_true _).bind fun t m'' _ => ?_
  rcases t with ⟨_ | _, l'⟩
  · rintro b ⟨⟩
  · exact hr

theorem returns_gather {turn : Int → Thread (List α)} {P : List α → Prop} (h : ∀ i, Returns P (turn i)) (first : Int)
    (n : Nat) :
    Returns (fun xs => ∃ ls : List (List α), ls.length = n ∧ (∀ l ∈ ls, P l) ∧ xs = ls.flatten) (gather turn first n) := by
  induction n generalizing first with
  | zero => exact returns_pure ⟨[], rfl, List.forall_mem_nil _, rfl⟩
  | succ n ih =>
    refine (h first).bind fun xs hxs => (ih (first + 1)).bind ?_
    rintro _ ⟨ls, rfl, hls, rfl⟩
    exact returns_pure ⟨xs :: ls, rfl, List.forall_mem_cons.mpr ⟨hxs, hls⟩, rfl⟩

end Returns

end Thread

namespace Stmt

/-! ### Paths -/

/-- A statement as a path lists it. -/
def listed : Stmt → List Stmt
  | seq _ => []
  | s => [s]

/-- The bodies of a statement that one execution of it can come to, in order. -/
inductive Course : Stmt → List Stmt → Prop
  | all {s : Stmt} (h : s.condition? = none) : Course s s.bodies
  | turns {v : Var} {min extent : Expr} {kind : LoopKind} {body : Stmt} (n : Nat) :
    Course (loop v min extent kind body) (List.replicate n body)
  | skipped {subject : Subject} {key : String} {value : Expr} {body : Stmt} : Course (attr subject key value body) []
  | onTrue {cond : Expr} {onTrue : Stmt} {onFalse : Option Stmt} : Course (branch cond onTrue onFalse) [onTrue]
  | onFalse {cond : Expr} {onTrue : Stmt} {onFalse : Option Stmt} : Course (branch cond onTrue onFalse) onFalse.toList

/-- The paths through a statement. -/
inductive Path : Stmt → List Stmt → Prop
  | through {s : Stmt} {bs : List Stmt} {ps : List (List Stmt)} (hbs : s.Course bs) (hps : List.Forall₂ Path bs ps) :
    Path s (s.listed ++ ps.flatten)

variable {s t b : Stmt} {bs ss p : List Stmt} {f : Frame}

theorem Course.mem_bodies (h : s.Course bs) (hb : b ∈ bs) : b ∈ s.bodies := by
  cases h with
  | all => exact hb
  | turns n => exact List.mem_singleton.mpr (List.eq_of_mem_replicate hb)
  | skipped => cases hb
  | onTrue => exact List.mem_cons.mpr (.inl (List.mem_singleton.mp hb))
  | onFalse => exact List.mem_cons_of_mem _ hb

/-- A path stays in the statement. -/
theorem Path.mem_stmts (h : s.Path p) (ht : t ∈ p) : t ∈ s.stmts := by
  induction s using induct_bodies generalizing p with
  | step s ih =>
    rw [stmts_eq]
    obtain ⟨hbs, hps⟩ := h
    rcases List.mem_append.mp ht with ht | ht
    · refine List.mem_append_right _ ?_
      cases s with
      | seq => cases ht
      | _ => exact ht
    · obtain ⟨q, hq, ht⟩ := List.mem_flatten.mp ht
      obtain ⟨b, hb, hpath⟩ := exists_of_forall₂ hps q hq
      replace hb := hbs.mem_bodies hb
      exact List.mem_append_left _ (List.mem_flatMap.mpr ⟨b, hb, ih b hb hpath ht⟩)

theorem path_leaf (hlisted : s.listed = [s]) (hcond : s.condition? = none) (hbodies : s.bodies = []) : s.Path [s] := by
  have hcourse : s.Course [] := hbodies ▸ Course.all hcond
  have hpath := Path.through hcourse .nil
  rwa [hlisted] at hpath

/-- A path through a statement of which one body is executed. -/
theorem Path.step (h : b.Path p) (hlisted : s.listed = [s]) (hs : s.Course [b]) : s.Path (s :: p) := by
  have hpath := Path.through hs (.cons h .nil)
  rwa [hlisted, List.flatten_singleton] at hpath

/-! ### Trails -/

open Thread in
/-- Executes a statement and gives the statements that it comes to. -/
def trail (f : Frame) : Stmt → Thread (List Stmt)
  | s@(bind v e body) => do
    let x ← value f e
    Thread.bind v (← ofRun (place x))
    let p ← closing (body.trail f) (release v)
    return s :: p
  | s@(attr subject key e body) =>
    if key == "storage_scope" then do
      if let .var v := subject then
        modify fun l => { l with scopes := (v.id, scopeName e) :: l.scopes }
      let p ← body.trail f
      return s :: p
    else if key == "thread_extent" then
      match subject with
      | .axis iv => do
        let c ← coordinate f iv
        if (c : Int) < (← integer f e) then
          Thread.bind iv.var (.int32 c)
          let p ← closing (body.trail f) (release iv.var)
          return s :: p
        else return [s]
      | _ => throw .invalidOperand
    else do
      let p ← body.trail f
      return s :: p
  | s@(assert cond message body) => do
    if ← holds f cond then
      let p ← body.trail f
      return s :: p
    else
      let x ← value f message
      ofRun do throw (f.failure (x.shown (← get).memory))
  | s@(loop v first extent _ body) => do
    let start ← integer f first
    let count ← integer f extent
    let p ← closing
      (gather (fun i => do
        Thread.bind v (← ofRun do place (← convertTo v.dtype (.number (.int i))))
        body.trail f) start count.toNat)
      (unbind v)
    return s :: p
  | s@(store v e index pred) => do
    let a ← f.buffer (← get).env v
    let i ← value f index
    let x ← value f e
    match pred with
    | some p =>
      let mask ← value f p
      ofRun (storeTo f v a i x (some mask))
      return [s]
    | none =>
      ofRun (storeTo f v a i x none)
      return [s]
  | s@(allocate site v t extents _ body) => do
    let size ← product f t.lanes extents
    let e ← t.element.elemType
    if size < 0 then throw .negativeLength
    let a ← buffer f s v e size.toNat
    Thread.bind v (.array a)
    let p ← closing (body.trail f) (unbind v)
    return s :: p
  | seq ss => trailAll ss
  | s@(branch cond onTrue onFalse) => do
    let p ← if ← holds f cond then onTrue.trail f else otherwise onFalse
    return s :: p
  | s@(eval e) =>
    if e.isIntrinsic "xte_storage_sync" then do
      await
      return [s]
    else do
      let _ ← value f e
      return [s]
  | provide .. => throw (.stmtUnsupported f.name "provide")
  | realize .. => throw (.stmtUnsupported f.name "realize")
  | prefetch .. => throw (.stmtUnsupported f.name "prefetch")
where
  /-- Executes statements, one after the other, and gives the statements that they come to. -/
  trailAll : List Stmt → Thread (List Stmt)
    | [] => return []
    | s :: ss => do
      let p ← s.trail f
      let q ← trailAll ss
      return p ++ q
  /-- Executes the other branch of a conditional, if there is one, and gives the statements that it comes to. -/
  otherwise : Option Stmt → Thread (List Stmt)
    | none => return []
    | some s => s.trail f

open Thread in
/-- The statement is executed as if its trail was not kept. -/
theorem erases_trail (f : Frame) (s : Stmt) : Erases (s.trail f) (s.exec f) := by
  induction s with
  | bind v e body ih =>
    unfold trail exec
    exact .bind fun x => .bind fun a => .bind fun _ => ih.closing.map
  | attr subject key e body ih =>
    unfold trail exec
    split_ifs
    · cases subject with
      | var v => exact .bind fun _ => ih.map
      | _ => exact ih.map
    · cases subject with
      | axis iv =>
        refine .bind fun c => .bind fun n => ?_
        split
        · exact .bind fun _ => ih.closing.map
        · exact erases_pure _
      | _ => exact erases_throw _
    · exact ih.map
  | assert cond message body ih =>
    unfold trail exec
    refine .bind fun b => ?_
    split
    · exact ih.map
    · exact .bind fun y => fun _ _ => rfl
  | loop v first extent kind body ih =>
    unfold trail exec
    exact .bind fun start => .bind fun count => (erases_gather (fun i => .bind fun a => .bind fun _ => ih) _ _).closing.map
  | store v e index pred =>
    unfold trail exec
    refine .bind fun l => .bind fun a => .bind fun i => .bind fun x => ?_
    cases pred with
    | none => exact (erases_self _).map
    | some p => exact .bind fun mask => (erases_self _).map
  | provide => exact erases_throw _
  | allocate site v t extents cond body ih =>
    unfold trail exec
    refine .bind fun size => .bind fun e => ?_
    have hrest : Erases
        (do
          let a ← Thread.buffer f (allocate site v t extents cond body) v e size.toNat
          Thread.bind v (.array a)
          let p ← closing (body.trail f) (unbind v)
          return allocate site v t extents cond body :: p)
        (do
          let a ← Thread.buffer f (allocate site v t extents cond body) v e size.toNat
          Thread.bind v (.array a)
          ensuring (body.exec f) (unbind v)) := .bind fun a => .bind fun _ => ih.closing.map
    split
    · exact .bind fun _ => hrest
    · exact hrest
  | realize => exact erases_throw _
  | prefetch => exact erases_throw _
  | seq ss ih =>
    have hall : ∀ ts ⊆ ss, Erases (trail.trailAll f ts) (exec.execAll f ts) := by
      intro ts hts
      induction ts with
      | nil => exact erases_pure []
      | cons t ts iht =>
        obtain ⟨ht, hts⟩ := List.cons_subset.mp hts
        exact (ih t ht).then fun p => (iht hts).map
    unfold trail exec
    exact hall ss (List.Subset.refl ss)
  | branch cond onTrue onFalse iht ihf =>
    unfold trail exec
    refine .bind fun b => ?_
    split
    · exact iht.map
    · cases onFalse with
      | none => exact (erases_pure []).map
      | some s => exact (ihf s rfl).map
  | eval e =>
    unfold trail exec
    split
    · exact (erases_self _).map
    · exact .bind fun x => erases_pure _

/-- A run that keeps its trail does otherwise what the run does. -/
theorem start_exec_trail (f : Frame) (s : Stmt) (l : Local) (m : Machine) :
    (s.exec f).start l m = ((s.trail f).start l m).bind fun r m' => .done (r.1.map fun _ => (), r.2) m' :=
  erases_trail f s l m

open Thread in
/-- The statements that a run comes to are a path. -/
theorem path_of_trail (f : Frame) (s : Stmt) : Returns s.Path (s.trail f) := by
  induction s with
  | bind v e body ih =>
    unfold trail
    exact returns_bind fun x => returns_bind fun a => returns_bind fun _ => ih.closing.bind fun p hp =>
      returns_pure (hp.step rfl (.all rfl))
  | attr subject key e body ih =>
    have hpath {p : List Stmt} (hp : body.Path p) : (attr subject key e body).Path (attr subject key e body :: p) :=
      hp.step rfl (.all rfl)
    unfold trail
    split_ifs
    · cases subject with
      | var v => exact returns_bind fun _ => ih.bind fun p hp => returns_pure (hpath hp)
      | _ => exact ih.bind fun p hp => returns_pure (hpath hp)
    · cases subject with
      | axis iv =>
        refine returns_bind fun c => returns_bind fun n => ?_
        split
        · exact returns_bind fun _ => ih.closing.bind fun p hp => returns_pure (hpath hp)
        · exact returns_pure (Path.through .skipped .nil)
      | _ => exact returns_throw
    · exact ih.bind fun p hp => returns_pure (hpath hp)
  | assert cond message body ih =>
    unfold trail
    refine returns_bind fun b => ?_
    split
    · exact ih.bind fun p hp => returns_pure (hp.step rfl (.all rfl))
    · exact returns_bind fun x => by rintro l m p ⟨⟩
  | loop v first extent kind body ih =>
    unfold trail
    refine returns_bind fun start => returns_bind fun count =>
      (returns_gather (fun i => returns_bind fun a => returns_bind fun _ => ih) start count.toNat).closing.bind ?_
    rintro _ ⟨ps, hlength, hps, rfl⟩
    have hturns : List.Forall₂ Path (List.replicate ps.length body) ps :=
      List.forall₂_iff_get.mpr ⟨List.length_replicate, fun i h₁ h₂ => by
        simpa using hps _ (List.getElem_mem h₂)⟩
    exact returns_pure (.through (.turns ps.length) hturns)
  | store v e index pred =>
    unfold trail
    refine returns_bind fun l => returns_bind fun a => returns_bind fun i => returns_bind fun x => ?_
    cases pred with
    | none => exact returns_bind fun _ => returns_pure (path_leaf rfl rfl rfl)
    | some p => exact returns_bind fun mask => returns_bind fun _ => returns_pure (path_leaf rfl rfl rfl)
  | provide => exact returns_throw
  | allocate site v t extents cond body ih =>
    unfold trail
    have hrest (size : Int) (e : ElemType) : Returns (allocate site v t extents cond body).Path (do
        let a ← Thread.buffer f (allocate site v t extents cond body) v e size.toNat
        Thread.bind v (.array a)
        let p ← closing (body.trail f) (unbind v)
        return allocate site v t extents cond body :: p) :=
      returns_bind fun a => returns_bind fun _ => ih.closing.bind fun p hp => returns_pure (hp.step rfl (.all rfl))
    refine returns_bind fun size => returns_bind fun e => ?_
    split
    · exact returns_bind fun _ => hrest size e
    · exact hrest size e
  | realize => exact returns_throw
  | prefetch => exact returns_throw
  | seq ss ih =>
    have hall : ∀ ts ⊆ ss, Returns (fun p => ∃ ps, List.Forall₂ Path ts ps ∧ p = ps.flatten) (trail.trailAll f ts) := by
      intro ts hts
      induction ts with
      | nil => exact returns_pure ⟨[], .nil, rfl⟩
      | cons t ts iht =>
        obtain ⟨ht, hts⟩ := List.cons_subset.mp hts
        refine (ih t ht).bind fun p hp => (iht hts).bind ?_
        rintro _ ⟨ps, hps, rfl⟩
        exact returns_pure ⟨p :: ps, .cons hp hps, rfl⟩
    unfold trail
    intro l m
    refine (hall ss (List.Subset.refl ss) l m).mono ?_
    rintro ⟨r, l'⟩ h p rfl
    obtain ⟨ps, hps, rfl⟩ := h p rfl
    exact .through (.all rfl) hps
  | branch cond onTrue onFalse iht ihf =>
    unfold trail
    refine returns_bind fun b => ?_
    split
    · exact iht.bind fun p hp => returns_pure (hp.step rfl .onTrue)
    · cases onFalse with
      | none =>
        have hcourse : (branch cond onTrue none).Course [] := .onFalse
        exact returns_pure (.through hcourse .nil)
      | some s => exact (ihf s rfl).bind fun p hp => returns_pure (hp.step rfl .onFalse)
  | eval e =>
    unfold trail
    split
    · exact returns_bind fun _ => returns_pure (path_leaf rfl rfl rfl)
    · exact returns_bind fun x => returns_pure (path_leaf rfl rfl rfl)

end Stmt

end TensorNest

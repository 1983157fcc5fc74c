import TensorNest.Proofs.Locality

/-! # What a statement does, as a list of deeds

`Stmt.exec` leaves a machine and the variables of a thread; in what order a statement stored and evaluated is not to be seen
from these. `Stmt.record` executes a statement and gives the list of its deeds: each store with the array, the index, the
value and the mask, each evaluation with its value, each assertion with the value of its condition, and each barrier.
Evaluations of constants are no deeds. Otherwise it does what `Stmt.exec` does (`Stmt.start_exec`). -/

namespace TensorNest

theorem Resumption.bind_done {σ α : Type} (r : Resumption σ α) : r.bind .done = r := by
  induction r with
  | done a s => rfl
  | wait s resume ih => exact congrArg (wait s) (funext ih)

theorem Resumption.finish_bind {σ α β : Type} (r : Resumption σ α) (g : α → σ → Resumption σ β) :
    (r.bind g).finish = (g r.finish.1 r.finish.2).finish := by
  induction r with
  | done a s => rfl
  | wait s resume ih => exact ih s

/-- The laws of runs that can wait, and so those of threads. -/
instance {σ : Type} : LawfulMonad (Suspension σ) :=
  .mk' (Suspension σ) (fun x => funext fun s => Resumption.bind_done (x s)) (fun _ _ => rfl)
    fun x k k' => funext fun s => Resumption.bind_assoc k k' (x s)

/-- What a statement does that is not only for its own use. -/
inductive Deed where
  | stored (a : View) (index value : Value) (mask : Option Value)
  | evaluated (x : Value)
  | asserted (x : Value)
  | waited

namespace Thread

/-- Does something after a thread has ended, also by a failure, and gives what the thread has given. -/
def closing {α : Type} (body : Thread α) (last : Thread Unit) : Thread α := do
  let r ← ExceptT.lift body.run
  last
  liftM r

/-- The deeds of a thread for a number of consecutive integers. -/
def deedsOfRange (body : Int → Thread (List Deed)) (start : Int) : Nat → Thread (List Deed)
  | 0 => return []
  | n + 1 => do
    let es ← body start
    let es' ← deedsOfRange body (start + 1) n
    return es ++ es'

end Thread

open Thread in
/-- Executes a statement and gives its deeds. -/
def Stmt.record (f : Frame) : Stmt → Thread (List Deed)
  | bind v e body => do
    let x ← value f e
    Thread.bind v (← ofRun (place x))
    closing (body.record f) (release v)
  | attr subject key e body =>
    if key == "storage_scope" then do
      if let .var v := subject then
        modify fun l => { l with scopes := (v.id, scopeName e) :: l.scopes }
      body.record f
    else if key == "thread_extent" then
      match subject with
      | .axis iv => do
        let c ← coordinate f iv
        if (c : Int) < (← integer f e) then
          Thread.bind iv.var (.int32 c)
          closing (body.record f) (release iv.var)
        else return []
      | _ => throw .invalidOperand
    else body.record f
  | assert cond message body => do
    let x ← value f cond
    if ← ofRun do x.truth (← get).memory then
      let es ← body.record f
      return .asserted x :: es
    else
      let x ← value f message
      ofRun do throw (f.failure (x.shown (← get).memory))
  | loop v first extent _ body => do
    let start ← integer f first
    let count ← integer f extent
    closing
      (deedsOfRange (fun i => do
        Thread.bind v (← ofRun do place (← convertTo v.dtype (.number (.int i))))
        body.record f) start count.toNat)
      (unbind v)
  | store v e index pred => do
    let a ← f.buffer (← get).env v
    let i ← value f index
    let x ← value f e
    match pred with
    | some p =>
      let mask ← value f p
      ofRun (storeTo f v a i x (some mask))
      return [.stored a i x (some mask)]
    | none =>
      ofRun (storeTo f v a i x none)
      return [.stored a i x none]
  | allocate site v t extents cond body => do
    let size ← product f t.lanes extents
    let e ← t.element.elemType
    if size < 0 then throw .negativeLength
    let a ← buffer f (allocate site v t extents cond body) v e size.toNat
    Thread.bind v (.array a)
    closing (body.record f) (unbind v)
  | seq ss => recordAll ss
  | branch cond onTrue onFalse => do
    if ← holds f cond then onTrue.record f else otherwise onFalse
  | eval e =>
    if e.isIntrinsic "xte_storage_sync" then do
      await
      return [.waited]
    else do
      let x ← value f e
      return if e.isConst then [] else [.evaluated x]
  | provide .. => throw (.stmtUnsupported f.name "provide")
  | realize .. => throw (.stmtUnsupported f.name "realize")
  | prefetch .. => throw (.stmtUnsupported f.name "prefetch")
where
  /-- Executes statements, one after the other, and gives their deeds. -/
  recordAll : List Stmt → Thread (List Deed)
    | [] => return []
    | s :: ss => do
      let es ← s.record f
      let es' ← recordAll ss
      return es ++ es'
  /-- Executes the other branch of a conditional, if there is one, and gives its deeds. -/
  otherwise : Option Stmt → Thread (List Deed)
    | none => return []
    | some s => s.record f

namespace Thread

variable {α β γ δ : Type} {x x' : Thread α} {y : Thread β} {last : Thread Unit}

theorem start_closing (x : Thread α) (last : Thread Unit) (l : Local) (m : Machine) :
    (closing x last).start l m = (x.start l m).bind fun r m' => (last.start r.2 m').bind fun t m'' =>
      match t.1 with
      | .ok () => .done (r.1, t.2) m''
      | .error e => .done (.error e, t.2) m'' := by
  have hlift : start (ExceptT.lift x.run : Thread (Except Error α)) l m =
      (x.start l m).bind fun r m' => .done (Except.ok r.1, r.2) m' := rfl
  rw [closing, start_bind, hlift, Resumption.bind_assoc]
  congr 1
  funext r m'
  show (last >>= fun _ => (liftM r.1 : Thread α)).start r.2 m' = _
  rw [start_bind]
  congr 1
  funext t m''
  rcases t with ⟨_ | _, l'⟩
  · rfl
  · rcases r with ⟨_ | _, _⟩ <;> rfl

/-- The same run but for its result. -/
def Erases (x : Thread α) (y : Thread Unit) : Prop :=
  ∀ l m, y.start l m = (x.start l m).bind fun r m' => .done (r.1.map fun _ => (), r.2) m'

theorem erases_throw (e : Error) : Erases (throw e : Thread α) (throw e) := fun _ _ => rfl

theorem erases_pure (a : α) : Erases (pure a) (pure ()) := fun _ _ => rfl

theorem erases_self (y : Thread Unit) : Erases y y := by
  intro l m
  induction y.start l m with
  | done r m' =>
    rcases r with ⟨_ | _, l'⟩ <;> rfl
  | wait m' resume ih => exact congrArg (Resumption.wait m') (funext ih)

/-- The same step before two runs. -/
theorem Erases.bind {k : β → Thread α} {k' : β → Thread Unit} (h : ∀ b, Erases (k b) (k' b)) :
    Erases (y >>= k) (y >>= k') := by
  intro l m
  rw [start_bind, start_bind, Resumption.bind_assoc]
  congr 1
  funext r m'
  rcases r with ⟨_ | b, l'⟩
  · rfl
  · exact h b l' m'

/-- Two runs one after the other. -/
theorem Erases.then {k : α → Thread γ} {y y' : Thread Unit} (h : Erases x y) (hk : ∀ a, Erases (k a) y') :
    Erases (x >>= k) (y >>= fun _ => y') := by
  intro l m
  rw [start_bind, start_bind, h l m, Resumption.bind_assoc, Resumption.bind_assoc]
  congr 1
  funext r m'
  rcases r with ⟨_ | a, l'⟩
  · rfl
  · exact hk a l' m'

/-- What is made of the result does not count. -/
theorem Erases.map {g : α → γ} {y : Thread Unit} (h : Erases x y) : Erases (x >>= fun a => pure (g a)) y := by
  intro l m
  rw [start_bind, h l m, Resumption.bind_assoc]
  congr 1
  funext r m'
  rcases r with ⟨_ | a, l'⟩ <;> rfl

theorem Erases.closing {y : Thread Unit} (h : Erases x y) : Erases (closing x last) (ensuring y last) := by
  intro l m
  rw [start_closing, start_ensuring, h l m, Resumption.bind_assoc, Resumption.bind_assoc]
  congr 1
  funext r m'
  rw [Resumption.bind_assoc]
  show (last.start r.2 m').bind _ = _
  congr 1
  funext t m''
  rcases t with ⟨_ | _, _⟩ <;> rfl

theorem erases_deedsOfRange {x : Int → Thread (List Deed)} {y : Int → Thread Unit} (h : ∀ i, Erases (x i) (y i))
    (first : Int) (n : Nat) :
    Erases (deedsOfRange x first n) (forRange y first n) := by
  induction n generalizing first with
  | zero => exact erases_pure []
  | succ n ih => exact (h first).then fun es => (ih (first + 1)).map

end Thread

namespace Stmt

/-- The statement is executed as if its deeds were not recorded. -/
theorem erases_record (f : Frame) (s : Stmt) : Thread.Erases (s.record f) (s.exec f) := by
  induction s with
  | bind v e body ih =>
    unfold record exec
    exact .bind fun x => .bind fun a => .bind fun _ => ih.closing
  | attr subject key e body ih =>
    unfold record exec
    split_ifs
    · cases subject with
      | var v => exact .bind fun _ => ih
      | _ => exact ih
    · cases subject with
      | axis iv =>
        refine .bind fun c => .bind fun n => ?_
        split
        · exact .bind fun _ => ih.closing
        · exact Thread.erases_pure _
      | _ => exact Thread.erases_throw _
    · exact ih
  | assert cond message body ih =>
    unfold record exec
    rw [Thread.holds, bind_assoc]
    refine Thread.Erases.bind fun x => .bind fun b => ?_
    split
    · exact ih.map
    · exact .bind fun y => fun _ _ => rfl
  | loop v first extent kind body ih =>
    unfold record exec
    exact .bind fun start => .bind fun count => (Thread.erases_deedsOfRange (fun i => .bind fun a => .bind fun _ =>
      ih) _ _).closing
  | store v e index pred =>
    unfold record exec
    refine .bind fun l => .bind fun a => .bind fun i => .bind fun x => ?_
    cases pred with
    | none => exact (Thread.erases_self _).map
    | some p => exact .bind fun mask => (Thread.erases_self _).map
  | provide => exact Thread.erases_throw _
  | allocate site v t extents cond body ih =>
    unfold record exec
    refine .bind fun size => .bind fun e => ?_
    have hrest (size : Int) : Thread.Erases
        (do
          let a ← Thread.buffer f (allocate site v t extents cond body) v e size.toNat
          Thread.bind v (.array a)
          Thread.closing (body.record f) (Thread.unbind v))
        (do
          let a ← Thread.buffer f (allocate site v t extents cond body) v e size.toNat
          Thread.bind v (.array a)
          Thread.ensuring (body.exec f) (Thread.unbind v)) := .bind fun a => .bind fun _ => ih.closing
    split
    · exact .bind fun _ => hrest size
    · exact hrest size
  | realize => exact Thread.erases_throw _
  | prefetch => exact Thread.erases_throw _
  | seq ss ih =>
    have hall : ∀ ts ⊆ ss, Thread.Erases (record.recordAll f ts) (exec.execAll f ts) := by
      intro ts hts
      induction ts with
      | nil => exact Thread.erases_pure []
      | cons t ts iht =>
        obtain ⟨ht, hts⟩ := List.cons_subset.mp hts
        exact (ih t ht).then fun es => (iht hts).map
    unfold record exec
    exact hall ss (List.Subset.refl ss)
  | branch cond onTrue onFalse iht ihf =>
    unfold record exec
    refine .bind fun b => ?_
    split
    · exact iht
    · cases onFalse with
      | none => exact Thread.erases_pure []
      | some s => exact ihf s rfl
  | eval e =>
    unfold record exec
    split
    · exact (Thread.erases_self _).map
    · exact .bind fun x => Thread.erases_pure _

/-! The deeds of a sequence are those of its items. -/

theorem record_noOp (f : Frame) : noOp.record f = pure [] := rfl

theorem recordAll_append (f : Frame) (ss ts : List Stmt) :
    record.recordAll f (ss ++ ts) = do
      let es ← record.recordAll f ss
      let es' ← record.recordAll f ts
      return es ++ es' := by
  induction ss with
  | nil => simp [record.recordAll]
  | cons s ss ih => simp only [List.cons_append, record.recordAll, ih, bind_assoc, pure_bind, List.append_assoc]

theorem recordAll_items (f : Frame) (s : Stmt) : record.recordAll f s.items = s.record f := by
  have hone : record.recordAll f [s] = s.record f := by simp [record.recordAll]
  cases s with
  | seq ss => simp [items, record]
  | _ => exact hone

theorem recordAll_flatMap_items (f : Frame) (ss : List Stmt) :
    record.recordAll f (ss.flatMap items) = record.recordAll f ss := by
  induction ss with
  | nil => rfl
  | cons s ss ih => simp [record.recordAll, recordAll_append, recordAll_items, ih]

theorem record_block (f : Frame) (ss : List Stmt) : (block ss).record f = record.recordAll f ss := by
  rcases ss with _ | ⟨s, _ | ⟨s', ss⟩⟩
  · exact record_noOp f
  · simp [block, record.recordAll]
  · simp [block, record]

theorem record_ofList (f : Frame) (ss : List Stmt) : (ofList ss).record f = record.recordAll f ss := by
  rw [ofList, record_block, recordAll_flatMap_items]

/-- A statement is executed as if its deeds were not recorded. -/
theorem start_exec (f : Frame) (s : Stmt) (l : Local) (m : Machine) :
    (s.exec f).start l m = ((s.record f).start l m).bind fun r m' => .done (r.1.map fun _ => (), r.2) m' :=
  erases_record f s l m

/-- How the run of a statement ends if each barrier is passed at once: with its deeds, or with a failure, and with the
    memory. -/
def outcome (f : Frame) (s : Stmt) (l : Local) (m : Machine) : Except Error (List Deed) × Memory :=
  let last := ((s.record f).start l m).finish
  (last.1.1, last.2.memory)

/-- The run of a statement ends as if its deeds were not recorded. -/
theorem finish_exec (f : Frame) (s : Stmt) (l : Local) (m : Machine) :
    ((s.exec f).start l m).finish.1.1 = (s.outcome f l m).1.map (fun _ => ()) ∧
      ((s.exec f).start l m).finish.2.memory = (s.outcome f l m).2 := by
  rw [start_exec, Resumption.finish_bind]
  exact ⟨rfl, rfl⟩

end Stmt

end TensorNest

import TensorNest.Proofs.PartitionedRuns
import TensorNest.Proofs.Workspaces

/-! # Moments of a run

A run of a statement comes to the statements in it, one after the other, each time in some state (`Stmt.Comes`). Where
it comes to a statement, it is inside of the bindings around that, some of which hold workspaces. -/

namespace TensorNest

namespace Stmt
open Thread

/-- The execution of a statement begins the execution of one of its bodies, in some state. -/
inductive Begins (f : Frame) (l : Local) (m : Machine) : Stmt → Stmt → Local → Machine → Prop
  | bind {v : Var} {e : Expr} {body : Stmt} {x a : Value} {l₁ l₂ : Local} {m₁ m₂ : Machine} (hx : (value f e).ends l m =
      ((.ok x, l₁), m₁))
      (ha : (ofRun (place x)).ends l₁ m₁ = ((.ok a, l₂), m₂)) :
      Begins f l m (bind v e body) body { l₂ with env := l₂.env.set v a } m₂
  | scope {v : Var} {e : Expr} {body : Stmt} :
      Begins f l m (attr (.var v) "storage_scope" e body) body { l with scopes := (v.id, scopeName e) :: l.scopes } m
  | attr {subject : Subject} {key : String} {e : Expr} {body : Stmt} (hregion : key ≠ "thread_extent")
      (hscope : ∀ v, subject = .var v → key ≠ "storage_scope") : Begins f l m (attr subject key e body) body l m
  | region {iv : IterVar} {e : Expr} {body : Stmt} {c : Nat} {n : Int} {l₁ : Local} {m₁ : Machine} (hc : coordinate f iv =
      .ok c)
      (hn : (integer f e).ends l m = ((.ok n, l₁), m₁)) (hlt : (c : Int) < n) :
      Begins f l m (attr (.axis iv) "thread_extent" e body) body { l₁ with env := l₁.env.set iv.var (.int32 c) } m₁
  | assert {cond message : Expr} {body : Stmt} {l₁ : Local} {m₁ : Machine} (h : (holds f cond).ends l m =
      ((.ok true, l₁), m₁)) :
      Begins f l m (assert cond message body) body l₁ m₁
  | turn {v : Var} {first extent : Expr} {kind : LoopKind} {body : Stmt} {start count : Int} {k : Nat} {a : Value}
      {l₁ l₂ l₃ l₄ : Local}
      {m₁ m₂ m₃ m₄ : Machine} (hstart : (integer f first).ends l m = ((.ok start, l₁), m₁))
      (hcount : (integer f extent).ends l₁ m₁ = ((.ok count, l₂), m₂)) (hk : k < count.toNat)
      (hturns : (forRange (turn f v body) start k).ends l₂ m₂ = ((.ok (), l₃), m₃))
      (ha : (ofRun do place (← convertTo v.dtype (.number (.int (start + k))))).ends l₃ m₃ = ((.ok a, l₄), m₄)) :
      Begins f l m (loop v first extent kind body) body { l₄ with env := l₄.env.set v a } m₄
  | allocate {site : Nat} {v : Var} {t : DataType} {extents : List Expr} {cond : Expr} {body : Stmt} {size : Int}
      {e : ElemType} {a : View} {l₁ l₂ : Local}
      {m₁ m₂ : Machine} (hsize : (product f t.lanes extents).ends l m = ((.ok size, l₁), m₁))
      (he : t.element.elemType = .ok e)
      (hsign : 0 ≤ size) (ha : (buffer f (allocate site v t extents cond body) v e size.toNat).ends l₁ m₁ =
        ((.ok a, l₂), m₂)) :
      Begins f l m (allocate site v t extents cond body) body { l₂ with env := l₂.env.set v (.array a) } m₂
  | seq {ss ts : List Stmt} {b : Stmt} {l₁ : Local} {m₁ : Machine} (h : (exec.execAll f ss).ends l m = ((.ok (), l₁), m₁)) :
      Begins f l m (seq (ss ++ b :: ts)) b l₁ m₁
  | onTrue {cond : Expr} {onTrue : Stmt} {onFalse : Option Stmt} {l₁ : Local} {m₁ : Machine}
      (h : (holds f cond).ends l m = ((.ok true, l₁), m₁)) : Begins f l m (branch cond onTrue onFalse) onTrue l₁ m₁
  | onFalse {cond : Expr} {onTrue onFalse : Stmt} {l₁ : Local} {m₁ : Machine}
      (h : (holds f cond).ends l m = ((.ok false, l₁), m₁)) : Begins f l m (branch cond onTrue (some onFalse)) onFalse l₁ m₁

/-- The storage of the workspace that a statement binds its variable to, in a state in its scope. -/
def workspace? (l : Local) : Stmt → Option Nat
  | bind v e _ =>
    if e.isIntrinsic "xte_alloc_workspace" then
      match l.env.get? v with
      | some (.array a) => some a.storage
      | _ => none
    else none
  | _ => none

/-- The execution of a statement comes to a statement in some state, inside of bindings of some workspaces, the inner ones
    first. -/
inductive Comes (f : Frame) : Local → Machine → Stmt → List Nat → Stmt → Local → Machine → Prop
  | self {l : Local} {m : Machine} {s : Stmt} : Comes f l m s [] s l m
  | enter {l l₁ l' : Local} {m m₁ m' : Machine} {s b t : Stmt} {W : List Nat} (hb : Begins f l m s b l₁ m₁)
      (ht : Comes f l₁ m₁ b W t l' m') :
      Comes f l m s (W ++ (s.workspace? l₁).toList) t l' m'

variable {f : Frame} {s t b : Stmt} {l l' : Local} {m m' : Machine} {W : List Nat}

theorem Begins.mem_bodies (h : Begins f l m s b l' m') : b ∈ s.bodies := by
  cases h <;> simp

theorem Comes.mem_stmts (h : Comes f l m s W t l' m') : t ∈ s.stmts := by
  induction h with
  | self =>
    rw [stmts_eq]
    exact List.mem_append_right _ (List.mem_singleton_self _)
  | enter hb _ ih =>
    rw [stmts_eq]
    exact List.mem_append_left _ (List.mem_flatMap.mpr ⟨_, hb.mem_bodies, ih⟩)

/-! Sequences. -/

variable {e : Expr}

theorem execAll_append (f : Frame) (ss ts : List Stmt) :
    exec.execAll f (ss ++ ts) = exec.execAll f ss >>= fun _ => exec.execAll f ts := by
  induction ss with
  | nil => simp [exec.execAll]
  | cons s ss ih => simp only [List.cons_append, exec.execAll, ih, bind_assoc]

theorem execAll_items (f : Frame) (s : Stmt) : exec.execAll f s.items = s.exec f := by
  have hone : exec.execAll f [s] = s.exec f := by simp [exec.execAll]
  cases s with
  | seq ss => simp [items, exec]
  | _ => exact hone

theorem items_cases (s : Stmt) : s = seq s.items ∨ s.items = [s] := by
  cases s with
  | seq ss => exact .inl rfl
  | _ => exact .inr rfl

theorem exec_block (f : Frame) {ss : List Stmt} (h : ss ≠ []) : (block ss).exec f = exec.execAll f ss := by
  rcases ss with _ | ⟨s, _ | ⟨s', ss⟩⟩
  · exact absurd rfl h
  · simp [block, exec.execAll]
  · simp [block, exec]

theorem ofList_then_eval (b : Stmt) (e : Expr) : ofList [b, eval e] = block (b.items ++ [eval e]) := by
  simp [ofList, items]

/-- A statement is executed before an evaluation that is put after it. -/
theorem exec_then_eval (f : Frame) (b : Stmt) (e : Expr) :
    (ofList [b, eval e]).exec f = b.exec f >>= fun _ => (eval e).exec f := by
  rw [ofList_then_eval, exec_block f (by simp), execAll_append, execAll_items]
  simp [exec.execAll]

@[simp] theorem workspace?_seq (l : Local) (ss : List Stmt) : (seq ss).workspace? l = none := rfl

theorem Comes.item {ss ts : List Stmt} {l₁ : Local} {m₁ : Machine} (ht : Comes f l₁ m₁ b W t l' m')
    (hss : (exec.execAll f ss).ends l m = ((.ok (), l₁), m₁)) : Comes f l m (seq (ss ++ b :: ts)) W t l' m' := by
  have hbegins : Begins f l m (seq (ss ++ b :: ts)) b l₁ m₁ := .seq hss
  have hcomes := Comes.enter hbegins ht
  rwa [workspace?_seq, Option.toList_none, List.append_nil] at hcomes

theorem comes_eval (h : Comes f l m (eval e) W t l' m') : W = [] ∧ t = eval e ∧ l' = l ∧ m' = m := by
  cases h with
  | self => exact ⟨rfl, rfl, rfl, rfl⟩
  | enter hb => cases hb

/-- What is come to where an evaluation is put after a statement: the sequence of them, what the statement comes to, or the
    evaluation at the end of the statement. -/
theorem Comes.then_eval (h : Comes f l m (ofList [b, eval e]) W t l' m') :
    (W = [] ∧ l' = l ∧ m' = m) ∨ Comes f l m b W t l' m' ∨
    (W = [] ∧ t = eval e ∧ (b.exec f).ends l m = ((.ok (), l'), m')) := by
  rw [ofList_then_eval] at h
  rcases hitems : b.items with _ | ⟨s, ss⟩
  · rw [hitems] at h
    obtain ⟨rfl, rfl, rfl, rfl⟩ := comes_eval h
    exact .inr (.inr ⟨rfl, rfl, by rw [← execAll_items, hitems]; rfl⟩)
  have hseq : block (b.items ++ [eval e]) = seq (b.items ++ [eval e]) := by
    rw [hitems]
    cases ss <;> rfl
  rw [hseq] at h
  generalize hlist : b.items ++ [eval e] = us at h
  cases h with
  | self => exact .inl ⟨rfl, rfl, rfl⟩
  | enter hb ht =>
    rw [workspace?_seq, Option.toList_none, List.append_nil]
    cases hb with | @seq ss ts _ _ _ hss
    rcases List.eq_nil_or_concat ts with rfl | ⟨ts, z, rfl⟩
    · obtain ⟨rfl, hb'⟩ := List.append_inj' hlist rfl
      obtain rfl := List.singleton_inj.mp hb'
      obtain ⟨rfl, rfl, rfl, rfl⟩ := comes_eval ht
      exact .inr (.inr ⟨rfl, rfl, by rwa [execAll_items] at hss⟩)
    · rw [List.concat_eq_append, ← List.cons_append, ← List.append_assoc] at hlist
      obtain ⟨hsplit, -⟩ := List.append_inj' hlist rfl
      refine .inr (.inl ?_)
      rcases items_cases b with hb | hb
      · rw [hb, hsplit]
        exact ht.item hss
      · rw [hb] at hsplit
        obtain ⟨rfl, hsplit⟩ | ⟨_, -, hnil⟩ := List.cons_eq_append_iff.mp hsplit
        · obtain ⟨rfl, -⟩ := List.cons_eq_cons.mp hsplit
          cases hss
          exact ht
        · simp at hnil
end Stmt

end TensorNest

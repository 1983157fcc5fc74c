import TensorNest.Lowering.Convention
import TensorNest.Proofs.Locality

/-! # Closed functions

A function whose body has no free variables runs without asking for a variable that has no value: what the
failure of such a request would be makes no difference to the run. -/

namespace TensorNest

/-! ### Functions -/

namespace Func

variable {body : Stmt} {name : String} {args : List Argument} {restricted : Setting} {p : Prologue} {params : List Param}

/-- A closed body becomes a function. -/
theorem ofBody_of_closed (hargs : Prologue.ofArgs name args = .ok (p, params)) (h : (p.wrap body).freeIds = []) :
    ∃ g, ofBody body name args restricted = .ok g ∧ g.body = p.wrap body := by
  have hfree : (p.wrap body).freeVars = [] := Stmt.freeVars_eq_nil_of_closed h
  unfold ofBody
  rw [hargs]
  simp only [bind, Except.bind, hfree]
  exact ⟨_, rfl, rfl⟩

/-- A body with free variables is refused, and those that are found are named. -/
theorem ofBody_of_unbound (hargs : Prologue.ofArgs name args = .ok (p, params)) (h : (p.wrap body).freeVars ≠ []) :
    ofBody body name args restricted = .error (.unboundVars name ((p.wrap body).freeVars.map (·.name))) := by
  unfold ofBody
  rw [hargs]
  simp only [bind, Except.bind]
  rfl

/-- The body of a closed function never asks for a variable that has no value. -/
theorem thread_missing {g : Func} (hclosed : g.body.freeIds = []) (hrun : g.body.Runnable) (f : Frame) (u : String → Error)
    (m : Machine) : g.thread { f with missing := u } [] m = g.thread f [] m := by
  have halike : Thread.Alike (u ≠ f.missing) [] (g.body.exec { f with missing := u }) (g.body.exec f) :=
    Stmt.alike_exec (fun t ht => (hrun t ht).2) (by simp [hclosed]) (fun _ => ⟨hrun, by simp⟩) rfl fun hc => absurd rfl hc
  have hrel := halike { env := [] } { env := [] } m rfl (by simp)
  exact Resumption.eq_of_rel (hrel.bind fun r r' t hr => .done hr.result)

/-- Where no variable is bound anew in its own scope, and none is both free and bound, a body with its prologue either is
    closed, becomes a function and runs without asking for a variable that has no value, or it is refused with the names
    of all its free variables. -/
theorem ofBody_closed_or_unbound (hargs : Prologue.ofArgs name args = .ok (p, params)) (hapart : (p.wrap body).Apart)
    (hrun : (p.wrap body).Runnable) :
    (∃ g, ofBody body name args restricted = .ok g ∧ g.body = p.wrap body ∧ g.body.freeIds = [] ∧
      ∀ (f : Frame) (u : String → Error) (m : Machine), g.thread { f with missing := u } [] m = g.thread f [] m) ∨
    ∃ vs : List Var, ofBody body name args restricted = .error (.unboundVars name (vs.map (·.name))) ∧ vs ≠ [] ∧
      ∀ x, x ∈ vs.map (·.id) ↔ x ∈ (p.wrap body).freeIds := by
  by_cases hclosed : (p.wrap body).freeIds = []
  · obtain ⟨g, hg, hbody⟩ := ofBody_of_closed hargs hclosed
    rw [← hbody] at hclosed hrun
    exact Or.inl ⟨g, hg, hbody, hclosed, thread_missing hclosed hrun⟩
  · have hvars : (p.wrap body).freeVars ≠ [] := mt (Stmt.freeVars_eq_nil_iff hapart).mp hclosed
    refine Or.inr ⟨_, ofBody_of_unbound hargs hvars, hvars, fun x => ⟨fun hx => ?_, Stmt.mem_freeVars_of_apart hapart⟩⟩
    obtain ⟨v, hv, rfl⟩ := List.mem_map.mp hx
    exact Stmt.mem_freeIds_of_mem_freeVars hv

namespace Counted

def n : Var := ⟨1, "n", .int32⟩

def i : Var := ⟨2, "i", .int32⟩

/-- An array of `n` elements. -/
def array : Buffer :=
  { data := ⟨3, "A", .handle⟩, dtype := .int32, shape := [.var n], strides := [], elemOffset := Expr.int32 0, name := "A"
    scope := "global", alignment := .nothing, offsetFactor := .nothing }

/-- `A[i] = i` for all `i < n`. -/
def count : Stmt :=
  .loop i (Expr.int32 0) (.var n) .serial (.store (.var array.data) (.var i) (.var i) none)

def prologue : Prologue × List Param :=
  match Prologue.ofArgs "count" [.buffer array] with
  | .ok r => r
  | .error _ => ({}, [])

theorem closed_count : ∃ g, ofBody count "count" [.buffer array] .nothing = .ok g ∧ g.body.freeIds = [] ∧
    ∀ (f : Frame) (u : String → Error) (m : Machine), g.thread { f with missing := u } [] m = g.thread f [] m := by
  have hargs : Prologue.ofArgs "count" [.buffer array] = .ok (prologue.1, prologue.2) := rfl
  have hapart : (prologue.1.wrap count).Apart := by decide
  have hrun : (prologue.1.wrap count).Runnable := by decide
  rcases ofBody_closed_or_unbound hargs hapart hrun with ⟨g, hg, -, hclosed, hmissing⟩ | ⟨vs, -, hne, hvs⟩
  · exact ⟨g, hg, hclosed, hmissing⟩
  · obtain ⟨v, hv⟩ := List.exists_mem_of_ne_nil vs hne
    have hfree : (prologue.1.wrap count).freeIds = [] := by decide
    have hmem := (hvs v.id).mp (List.mem_map_of_mem hv)
    rw [hfree] at hmem
    cases hmem

end Counted

end Func

end TensorNest

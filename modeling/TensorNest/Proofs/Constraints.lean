import TensorNest.Proofs.Queries

/-! # The conditions of a prologue

A prologue is made of bindings of variables to answers and of checks, which compare answers with constants
and with index arithmetic. The checks are simplified when they are added; a comparison with an answer stays
one. What the prologue asks for (`Encodes`) is found parameter by parameter: the argument for a buffer has
to be an array of its rank and element type, with the extents, strides and offset that the expressions of
the buffer denote (`Buffer.Fits`); the one for a variable has to become its value (`Param.Fits`). -/

namespace TensorNest

open Run
open Prologue (query)

/-! ### Conditions after simplification -/

namespace Expr

variable {t : DataType} {p : String} {ns : List Nat} {e : Expr}

theorem simplify_query (hp : p ≠ "likely") : (query t p ns).simplifyUnder [] = .ok ⟨query t p ns, false⟩ := by
  have hargs : ∀ ns : List Nat, simplifyUnder.onList [] (ns.map fun (n : Nat) => int32 n) =
      .ok (ns.map fun (n : Nat) => int32 n, false) := by
    intro ns
    induction ns with
    | nil => rfl
    | cons n ns ih =>
      rw [List.map_cons, simplifyUnder.onList, ih]
      rfl
  show (simplifyUnder.onList [] (ns.map fun (n : Nat) => int32 n) >>= _) = _
  rw [hargs]
  show Except.ok (simplifyCall (.call t p _ .intrinsic none 0) false) = _
  unfold simplifyCall
  split
  · rename_i heq
    exact absurd (Expr.call.inj heq).2.1 hp
  · rfl

theorem same_query (he : e.Index t) : (query t p ns).same e = false := by
  cases he <;> simp [same, query, intrinsic, callOf, Matching.expr]

/-- What is added to a form that begins with an answer leaves the answer in it. -/
theorem addScaled_query {l r : Linear} {ts : List (Expr × Int)} (hl : l.terms = (query t p ns, 1) :: ts)
    (hr : r.All (Index t)) (k : Int) : ∃ ts', (l.addScaled k r).terms = (query t p ns, 1) :: ts' := by
  have hfold : ∀ (us : List (Expr × Int)) (ts : List (Expr × Int)), (∀ u ∈ us, u.1.Index t) →
      ∃ ts', us.foldl (fun ts u => Linear.addTerm u.1 (k * u.2) ts) ((query t p ns, 1) :: ts) =
        (query t p ns, 1) :: ts' := by
    intro us
    induction us with
    | nil => exact fun ts _ => ⟨ts, rfl⟩
    | cons u us ih =>
      intro ts hus
      obtain ⟨hu, hus⟩ := List.forall_mem_cons.mp hus
      obtain ⟨ts', hts'⟩ := ih (Linear.addTerm u.1 (k * u.2) ts) hus
      refine ⟨ts', ?_⟩
      rw [List.foldl_cons, Linear.addTerm, same_query hu]
      exact hts'
  obtain ⟨ts', hts'⟩ := hfold r.terms ts hr
  exact ⟨ts', by rw [Linear.addScaled, hl]; exact hts'⟩

/-- Nothing is known of an answer. -/
theorem constDiff?_query (he : e.Index t) : constDiff? (query t p ns) e = .ok none := by
  unfold constDiff?
  split
  · obtain ⟨r, hr, hindex⟩ := Linear.gives_ofExpr he
    obtain ⟨ts, hts⟩ := addScaled_query (l := Linear.atom (query t p ns)) rfl hindex (-1)
    have hform : Linear.ofExpr (.bin .sub (query t p ns) e) = .ok ((Linear.atom (query t p ns)).addScaled (-1) r) := by
      show (Linear.ofExpr e >>= fun r => Except.ok ((Linear.atom (query t p ns)).addScaled (-1) r)) = _
      rw [hr]
      rfl
    have hconst : ((Linear.atom (query t p ns)).addScaled (-1) r).isConst = false := by
      rw [Linear.isConst, hts, List.all_cons]
      rfl
    rw [hform]
    show Except.ok (if ((Linear.atom (query t p ns)).addScaled (-1) r).isConst then _ else none) = _
    rw [hconst]
    rfl
  · rfl

theorem arith_eq_query (he : e.dtype = t) : arith .eq (query t p ns) e = .ok (.bin .eq (query t p ns) e) := by
  rw [arith, operands_of_dtype (show (query t p ns).dtype = t from rfl) he]
  rfl

theorem arith_eq_query_int (ht : t.IsIndex) (n : Int) :
    arith .eq (query t p ns) n = .ok (.bin .eq (query t p ns) (.const (.int n) t)) := by
  rw [arith, operands_int ht (show (query t p ns).dtype = t from rfl)]
  rfl

/-- A comparison of an answer stays one; the other side is simplified. -/
theorem simplifyUnder_eq_query (hp : p ≠ "likely") {r : Revised Expr} (he : e.simplifyUnder [] = .ok r)
    (hr : r.term.Index t) :
    (Expr.bin .eq (query t p ns) e).simplifyUnder [] = .ok ⟨.bin .eq (query t p ns) r.term, r.changed⟩ := by
  have hrule : ∀ u, binRule? .eq u (query t p ns) r.term = .ok none := by
    intro u
    show (constDiff? (query t p ns) r.term >>= _) = _
    rw [constDiff?_query hr]
    rfl
  unfold simplifyUnder
  rw [simplify_query hp, he]
  show simplifyBin .eq _ ⟨query t p ns, false⟩ r = _
  unfold simplifyBin
  rw [hrule]
  show (if (!false && !r.changed && !((query t p ns).isConst && r.term.isConst)) = true then _ else _) = _
  cases r.changed with
  | false => rfl
  | true =>
    show (arith .eq (query t p ns) r.term >>= _) = _
    rw [arith_eq_query hr.dtype]
    rfl

/-- The comparison of an answer with index arithmetic, when it has been simplified. -/
theorem gives_simplify_eq {Q : Expr → Prop} [IndexClosed t Q] (ht : t.IsIndex) (hp : p ≠ "likely") (he : Q e) :
    Gives (Expr.bin .eq (query t p ns) e).simplify fun c =>
      ∃ e', e.simplify = .ok e' ∧ Q e' ∧ c = .bin .eq (query t p ns) e' := by
  obtain ⟨e', hsimplify, he'⟩ := gives_simplify ht he
  have hresult : (e.simplifyUnder [] >>= fun r => Except.ok r.term) = .ok e' := hsimplify
  cases hr : e.simplifyUnder [] with
  | error x =>
    rw [hr] at hresult
    cases hresult
  | ok r =>
    rw [hr] at hresult
    have hterm : r.term = e' := Except.ok.inj hresult
    refine ⟨.bin .eq (query t p ns) r.term, ?_, e', hsimplify, he', by rw [hterm]⟩
    unfold simplify
    rw [simplifyUnder_eq_query hp hr (hterm ▸ IndexClosed.index he')]
    rfl

theorem simplifyUnder_and {a b : Expr} (ha : a.simplifyUnder [] = .ok ⟨a, false⟩) (hb : b.simplifyUnder [] = .ok ⟨b, false⟩)
    (hconst : a.isConst = false) : (Expr.bin .and a b).simplifyUnder [] = .ok ⟨.bin .and a b, false⟩ := by
  unfold simplifyUnder
  rw [ha, hb]
  show simplifyBin .and ((Expr.bin .and a b).dtypeUnder []) ⟨a, false⟩ ⟨b, false⟩ = _
  unfold simplifyBin
  show (if (!false && !false && !(a.isConst && b.isConst)) = true then _ else _) = _
  rw [hconst]
  rfl

end Expr

variable {Γ : Nat → DataType} {f : Frame} {m : Machine} {env env' : Env} {p : Prologue} {ids : List Nat} {C D : Env → Prop}

/-! ### The meaning of a prologue -/

/-- The variables of type `int32` have no other values than those of this type. -/
def Env.Typed (Γ : Nat → DataType) (env : Env) : Prop :=
  ∀ x, Γ x = .int32 → ∀ y, env.lookup x = some y → ∃ n, y = .int32 n

/-- The canonical form of an expression has an integer for its value. -/
def Expr.Denotes (f : Frame) (m : Machine) (env : Env) (e : Expr) (n : Int) : Prop :=
  ∃ e', e.simplify = .ok e' ∧ Settles (e'.eval f env) m (.ok (.int32 n))

/-- Index arithmetic of type `int32` on variables of this type. -/
def Expr.Counts (Γ : Nat → DataType) (e : Expr) : Prop :=
  e.Index .int32 ∧ ∀ x ∈ e.freeIds, Γ x = .int32

instance : Expr.IndexClosed .int32 (Expr.Counts Γ) where
  index h := h.1
  const n := ⟨.const n, fun _ => nofun⟩
  bin hop ha hb := ⟨.bin hop ha.1 hb.1, List.forall_mem_append.mpr ⟨ha.2, hb.2⟩⟩
  sides h := by
    obtain ⟨hindex, hvars⟩ := h
    cases hindex with | bin hop ha hb
    obtain ⟨hvarsA, hvarsB⟩ := List.forall_mem_append.mp hvars
    exact ⟨⟨ha, hvarsA⟩, ⟨hb, hvarsB⟩⟩

namespace Prologue

/-- An assignment has the values that a prologue binds, and its checks succeed. -/
def Holds (f : Frame) (m : Machine) (env : Env) (p : Prologue) : Prop :=
  (∀ d ∈ p.defs, ∃ y, env.get? d.1 = some y ∧ Possible f m d.2 y) ∧ ∀ c ∈ p.checks, Passes f m env c.1

theorem binds_iff {v : Var} : p.binds v = true ↔ v.id ∈ p.defs.map (·.1.id) := by
  simp [binds]

end Prologue

theorem Answers.possible_iff {q : Expr} {x y : Value} (h : Answers f m q x) : Possible f m q y ↔ y = x := by
  constructor
  · rintro ⟨env, m', m'', hm, heval⟩
    exact (Except.ok.inj (congrArg Prod.fst ((h env m' hm).symm.trans heval))).symm
  · rintro rfl
    exact ⟨[], m, m, .refl m, h [] m (.refl m)⟩

theorem Refuses.not_possible {q : Expr} {y : Value} (h : Refuses f m q) : ¬Possible f m q y := by
  rintro ⟨env, m', m'', hm, heval⟩
  obtain ⟨x, -, hx⟩ := h
  cases (hx env m' hm).symm.trans heval

theorem Decides.possible_iff {q : Expr} {et : ElemType} {n? : Option Int} {y : Value} (h : Decides f m q et n?) :
    Possible f m q y ↔ ∃ n, n? = some n ∧ y = .scalar et (.int n) := by
  cases n? with
  | none =>
    refine ⟨fun hy => absurd hy h.not_possible, ?_⟩
    rintro ⟨n, hn, -⟩
    cases hn
  | some k =>
    rw [Answers.possible_iff h]
    constructor
    · rintro rfl
      exact ⟨k, rfl, rfl⟩
    · rintro ⟨n, hn, rfl⟩
      rw [Option.some.inj hn]

theorem denotes_var {v : Var} {n : Int} : (Expr.var v).Denotes f m env n ↔ env.get? v = some (.int32 n) := by
  have hself : (Expr.var v).simplify = .ok (.var v) := rfl
  constructor
  · rintro ⟨e', he', hvalue⟩
    obtain rfl := Except.ok.inj (hself.symm.trans he')
    have hon := hvalue m (.refl m)
    cases hget : env.get? v with
    | none =>
      simp only [Expr.eval, hget] at hon
      cases hon
    | some y =>
      simp only [Expr.eval, hget] at hon
      exact congrArg some (Except.ok.inj (congrArg Prod.fst hon))
  · intro hget
    refine ⟨.var v, hself, ?_⟩
    simp only [Expr.eval, hget]
    exact settles_pure _

/-! ### Conditions that are checked -/

/-- A condition of a prologue: a comparison of an answer with a constant or with index arithmetic, or some of these. -/
inductive Tests (f : Frame) (m : Machine) : Expr → Prop
  | const {t : DataType} {et : ElemType} {prop : String} {ns : List Nat} {n? : Option Int} (ht : QueryType t et)
      (hq : Decides f m (query t prop ns) et n?) (n : Int) : Tests f m (.bin .eq (query t prop ns) (.const (.int n) t))
  | index {prop : String} {ns : List Nat} {n? : Option Int} {e : Expr}
      (hq : Decides f m (query .int32 prop ns) (.int 32) n?) (he : e.Index .int32) :
      Tests f m (.bin .eq (query .int32 prop ns) e)
  | and {a b : Expr} (ha : Tests f m a) (hb : Tests f m b) : Tests f m (.bin .and a b)

theorem freeIds_query {t : DataType} {prop : String} {ns : List Nat} : (query t prop ns).freeIds = [] := by
  refine List.eq_nil_iff_forall_not_mem.mpr fun x hx => ?_
  obtain ⟨a, ha, hxa⟩ := Expr.mem_freeIds_ofList.mp hx
  obtain ⟨n, -, rfl⟩ := List.mem_map.mp ha
  cases hxa

theorem QueryType.isFloat {t : DataType} {et : ElemType} (h : QueryType t et) : et.isFloat = false := by
  cases h <;> rfl

/-- The comparison of an answer with index arithmetic on integers. -/
theorem judged_index {t : DataType} {et : ElemType} {prop : String} {ns : List Nat} {n? : Option Int} {e : Expr}
    (ht : QueryType t et) (hq : Decides f m (query t prop ns) et n?) (he : e.Index t)
    (henv : ∀ x ∈ e.freeIds, ∀ y, env.lookup x = some y → ∃ n : Int, y = .scalar et (.int n)) :
    Judged f m env (∃ z ∈ e.freeIds, env.lookup z = none) (.bin .eq (query t prop ns) e) ∧
      (Passes f m env (.bin .eq (query t prop ns) e) ↔
        ∃ n, n? = some n ∧ Settles (e.eval f env) m (.ok (.scalar et (.int n)))) := by
  refine judged_eq hq ht.isFloat ht.isFloat ?_
  rcases settles_index (f := f) ht he henv with ⟨n, hn⟩ | ⟨x, hx, hfail⟩
  · exact Or.inl ⟨n, hn m⟩
  · exact Or.inr ⟨x, hx, hfail m⟩

theorem Judged.mono {lost lost' : Prop} {c : Expr} (h : Judged f m env lost c) (himp : lost → lost') :
    Judged f m env lost' c := by
  rcases h with h | ⟨x, hx, hfail⟩
  · exact Or.inl h
  · exact Or.inr ⟨x, hx.imp_right himp, hfail⟩

/-- A condition on integers is true or false, or the call fails, unless a variable has no value. -/
theorem Tests.judged {c : Expr} (h : Tests f m c)
    (henv : ∀ x ∈ c.freeIds, ∀ y, env.lookup x = some y → ∃ n, y = .int32 n) :
    Judged f m env (∃ z ∈ c.freeIds, env.lookup z = none) c := by
  induction h with
  | const ht hq n =>
    simp only [Expr.freeIds, freeIds_query, List.nil_append]
    exact (judged_index ht hq (.const n) (List.forall_mem_nil _)).1
  | index hq he =>
    simp only [Expr.freeIds, freeIds_query, List.nil_append] at henv ⊢
    exact (judged_index .int32 hq he henv).1
  | @and a b _ _ iha ihb =>
    simp only [Expr.freeIds, List.forall_mem_append] at henv
    refine (judged_and ((iha henv.1).mono ?_) ((ihb henv.2).mono ?_)).1
    · rintro ⟨z, hz, hnone⟩
      exact ⟨z, List.mem_append_left _ hz, hnone⟩
    · rintro ⟨z, hz, hnone⟩
      exact ⟨z, List.mem_append_right _ hz, hnone⟩

theorem Tests.passes_and_iff {a b : Expr} (ha : Tests f m a) (hb : Tests f m b)
    (henv : ∀ x ∈ (Expr.bin .and a b).freeIds, ∀ y, env.lookup x = some y → ∃ n, y = .int32 n) :
    Passes f m env (.bin .and a b) ↔ Passes f m env a ∧ Passes f m env b := by
  simp only [Expr.freeIds, List.forall_mem_append] at henv
  have hjudgedA : Judged f m env True a := (ha.judged henv.1).mono fun _ => trivial
  exact (judged_and hjudgedA ((hb.judged henv.2).mono fun _ => trivial)).2

/-- Whether a condition is true depends on the values of its variables only. -/
theorem Tests.passes_congr {c : Expr} (h : Tests f m c)
    (henv : ∀ x ∈ c.freeIds, ∀ y, env.lookup x = some y → ∃ n, y = .int32 n)
    (hagree : ∀ x ∈ c.freeIds, env.lookup x = env'.lookup x) (hpass : Passes f m env c) : Passes f m env' c := by
  have henv' : ∀ x ∈ c.freeIds, ∀ y, env'.lookup x = some y → ∃ n, y = .int32 n :=
    fun x hx y hy => henv x hx y ((hagree x hx).trans hy)
  induction h with
  | const ht hq n =>
    have hvalue := (judged_index ht hq (.const n) (List.forall_mem_nil _)).2.mp hpass
    exact (judged_index ht hq (.const n) (List.forall_mem_nil _)).2.mpr hvalue
  | index hq he =>
    simp only [Expr.freeIds, freeIds_query, List.nil_append] at henv henv' hagree
    have hvalue := (judged_index .int32 hq he henv).2.mp hpass
    rw [eval_index_congr he hagree] at hvalue
    exact (judged_index .int32 hq he henv').2.mpr hvalue
  | @and a b ha hb iha ihb =>
    obtain ⟨hpassA, hpassB⟩ := (ha.passes_and_iff hb henv).mp hpass
    refine (ha.passes_and_iff hb henv').mpr ⟨?_, ?_⟩
    · simp only [Expr.freeIds, List.forall_mem_append] at henv henv' hagree
      exact iha henv.1 hagree.1 hpassA henv'.1
    · simp only [Expr.freeIds, List.forall_mem_append] at henv henv' hagree
      exact ihb henv.2 hagree.2 hpassB henv'.2

/-! ### Bindings and checks -/

/-- What a variable is bound to: an expression without a value, or one with a value of the type of the variable, or the
    elements of an array. -/
def Asked (Γ : Nat → DataType) (f : Frame) (m : Machine) (d : Var × Expr) : Prop :=
  Refuses f m d.2 ∨
    (∃ y, Answers f m d.2 y ∧ (∀ et xs, y ≠ .vector et xs) ∧ (Γ d.1.id = .int32 → ∃ n, y = .int32 n)) ∨
    (Γ d.1.id = .handle ∧ Yields f m d.2 fun y => ∃ a, y = .array a)

/-- A prologue asks for a condition on the values of the variables. `ids` are the variables that arguments stand for; all
    other variables that it binds are of type `int32`. -/
structure Encodes (Γ : Nat → DataType) (f : Frame) (m : Machine) (ids : List Nat) (C : Env → Prop)
    (p : Prologue) : Prop where
  nodup : (p.defs.map (·.1.id)).Nodup
  known : ∀ d ∈ p.defs, d.1.id ∈ ids ∨ Γ d.1.id = .int32
  asked : ∀ d ∈ p.defs, Asked Γ f m d
  queries : ∀ d ∈ p.defs, ∃ t prop ns, d.2 = query t prop ns
  tests : ∀ c ∈ p.checks, Tests f m c.1 ∧ ∀ x ∈ c.1.freeIds, Γ x = .int32
  holds : ∀ env : Env, env.Typed Γ → (p.Holds f m env ↔ C env)

namespace Encodes

theorem congr {C' : Env → Prop} (hp : Encodes Γ f m ids C p) (h : ∀ env : Env, env.Typed Γ → (C env ↔ C' env)) :
    Encodes Γ f m ids C' p :=
  { hp with holds := fun env henv => (hp.holds env henv).trans (h env henv) }

/-- A check whose simplified condition is a condition on integers. -/
theorem check (hp : Encodes Γ f m ids C p) (cond : Expr) (message : String)
    (hcond : Gives cond.simplify fun c => c.isConst = false ∧ Tests f m c ∧ (∀ x ∈ c.freeIds, Γ x = .int32) ∧
      ∀ env : Env, env.Typed Γ → (Passes f m env c ↔ D env)) :
    Gives (p.check cond message) (Encodes Γ f m ids fun env => C env ∧ D env) := by
  unfold Prologue.check
  refine hcond.bind fun c ⟨hconst, htests, hvars, hpasses⟩ => ?_
  have hbuilt : Encodes Γ f m ids (fun env => C env ∧ D env) { p with checks := p.checks ++ [(c, message)] } :=
    { nodup := hp.nodup
      known := hp.known
      asked := hp.asked
      queries := hp.queries
      tests := by
        intro c' hc'
        rcases List.mem_append.mp hc' with hc' | hc'
        · exact hp.tests c' hc'
        · obtain rfl := List.mem_singleton.mp hc'
          exact ⟨htests, hvars⟩
      holds := by
        intro env henv
        rw [← hp.holds env henv, ← hpasses env henv]
        simp only [Prologue.Holds, List.forall_mem_append, List.forall_mem_singleton, and_assoc] }
  cases c with
  | const => cases hconst
  | _ => exact gives_ok hbuilt

theorem passes_const {t : DataType} {et : ElemType} {prop : String} {ns : List Nat} {n? : Option Int} (ht : QueryType t et)
    (hq : Decides f m (query t prop ns) et n?) (n : Int) :
    Passes f m env (.bin .eq (query t prop ns) (.const (.int n) t)) ↔ n? = some n ∧ et.holds n := by
  have hconst : Settles ((Expr.const (.int n) t).eval f env) m _ := settles_const ht n
  rw [(judged_index ht hq (.const n) (List.forall_mem_nil _)).2]
  constructor
  · rintro ⟨k, hk, hvalue⟩
    have heq := hconst.unique hvalue
    split at heq
    · rename_i hholds
      have hnk : n = k := by simpa using heq
      exact ⟨hnk ▸ hk, hholds⟩
    · cases heq
  · rintro ⟨hn, hholds⟩
    exact ⟨n, hn, by simpa only [if_pos hholds] using hconst⟩

/-- The check of an answer against a constant. -/
theorem check_const (hp : Encodes Γ f m ids C p) {t : DataType} {et : ElemType} {prop : String} {ns : List Nat}
    {n? : Option Int} (ht : QueryType t et) (hprop : prop ≠ "likely") (hq : Decides f m (query t prop ns) et n?) (n : Int)
    (message : String) :
    Gives (Expr.eq (query t prop ns) n >>= fun c => p.check c message)
      (Encodes Γ f m ids fun env => C env ∧ n? = some n ∧ et.holds n) := by
  rw [Expr.eq, Expr.arith_eq_query_int ht.isIndex]
  refine hp.check (.bin .eq (query t prop ns) (.const (.int n) t)) message ?_
  have hsimplify : (Expr.bin .eq (query t prop ns) (.const (.int n) t)).simplify =
      .ok (.bin .eq (query t prop ns) (.const (.int n) t)) := by
    unfold Expr.simplify
    rw [Expr.simplifyUnder_eq_query (r := ⟨.const (.int n) t, false⟩) hprop rfl (.const n)]
    rfl
  refine ⟨_, hsimplify, rfl, .const ht hq n, ?_, fun env _ => passes_const ht hq n⟩
  simp [Expr.freeIds, freeIds_query]

/-- The check of an answer against index arithmetic. -/
theorem check_index (hp : Encodes Γ f m ids C p) {prop : String} {ns : List Nat} {n? : Option Int} {e : Expr}
    (hprop : prop ≠ "likely") (hq : Decides f m (query .int32 prop ns) (.int 32) n?) (he : e.Counts Γ) (message : String) :
    Gives (Expr.eq (query .int32 prop ns) e >>= fun c => p.check c message)
      (Encodes Γ f m ids fun env => C env ∧ ∃ n, n? = some n ∧ e.Denotes f m env n) := by
  rw [Expr.eq, Expr.arith_eq_query he.1.dtype]
  refine hp.check (.bin .eq (query .int32 prop ns) e) message ?_
  obtain ⟨c, hc, e', he', ⟨hindex, hvars⟩, rfl⟩ : Gives (Expr.bin .eq (query .int32 prop ns) e).simplify _ :=
    Expr.gives_simplify_eq QueryType.int32.isIndex hprop he
  refine ⟨_, hc, rfl, .index hq hindex, by simpa [Expr.freeIds, freeIds_query] using hvars, fun env henv => ?_⟩
  rw [(judged_index .int32 hq hindex fun x hx => henv x (hvars x hx)).2]
  refine exists_congr fun n => and_congr_right fun _ => ⟨fun hvalue => ⟨e', he', hvalue⟩, ?_⟩
  rintro ⟨e'', he'', hvalue⟩
  obtain rfl := Except.ok.inj (he'.symm.trans he'')
  exact hvalue

/-- A variable that is not bound yet is bound to an expression. -/
theorem define (hp : Encodes Γ f m ids C p) {v : Var} {t : DataType} {prop : String} {ns ids' : List Nat}
    (hfree : p.binds v = false) (hasked : Asked Γ f m (v, query t prop ns)) (hknown : v.id ∈ ids' ∨ Γ v.id = .int32)
    (hids : ∀ x ∈ ids, x ∈ ids') :
    Encodes Γ f m ids' (fun env => C env ∧ ∃ y, env.get? v = some y ∧ Possible f m (query t prop ns) y)
      { p with defs := p.defs ++ [(v, query t prop ns)] } where
  nodup := by
    rw [List.map_append, List.nodup_append]
    refine ⟨hp.nodup, by simp, fun x hx y hy => ?_⟩
    obtain rfl : y = v.id := by simpa using hy
    rintro rfl
    rw [Prologue.binds_iff.mpr hx] at hfree
    cases hfree
  known := by
    intro d hd
    rcases List.mem_append.mp hd with hd | hd
    · exact (hp.known d hd).imp_left (hids _)
    · obtain rfl := List.mem_singleton.mp hd
      exact hknown
  asked := by
    intro d hd
    rcases List.mem_append.mp hd with hd | hd
    · exact hp.asked d hd
    · obtain rfl := List.mem_singleton.mp hd
      exact hasked
  queries := by
    intro d hd
    rcases List.mem_append.mp hd with hd | hd
    · exact hp.queries d hd
    · obtain rfl := List.mem_singleton.mp hd
      exact ⟨t, prop, ns, rfl⟩
  tests := hp.tests
  holds := by
    intro env henv
    rw [← hp.holds env henv]
    simp only [Prologue.Holds, List.forall_mem_append, List.forall_mem_singleton]
    tauto

/-- The type of what is bound to a variable is that of the variable, so that nothing is converted. -/
theorem bind_eq {name prop what : String} {t : DataType} {ns : List Nat} {e : Expr} (he : e.dtype = t) :
    p.bind name e (query t prop ns) what =
      match e with
      | .var v =>
        if p.binds v then Expr.eq (query t prop ns) e >>= fun c =>
          p.check c (name ++ ": Argument " ++ what ++ " has an unsatisfied constraint")
        else .ok { p with defs := p.defs ++ [(v, query t prop ns)] }
      | _ => Expr.eq (query t prop ns) e >>= fun c =>
          p.check c (name ++ ": Argument " ++ what ++ " has an unsatisfied constraint") := by
  have hcast : Expr.castTo e.dtype (query t prop ns) = .ok (query t prop ns) := by
    rw [he]
    exact if_pos rfl
  unfold Prologue.bind
  rw [hcast]
  cases e <;> rfl

/-- An expression of type `int32` is bound or compared: either way it has the value that is asked for. -/
theorem bind_index (hp : Encodes Γ f m ids C p) {name prop what : String} {ns : List Nat} {n? : Option Int} {e : Expr}
    (hprop : prop ≠ "likely") (hq : Decides f m (query .int32 prop ns) (.int 32) n?) (he : e.Counts Γ) :
    Gives (p.bind name e (query .int32 prop ns) what)
      (Encodes Γ f m ids fun env => C env ∧ ∃ n, n? = some n ∧ e.Denotes f m env n) := by
  rw [bind_eq he.1.dtype]
  cases e with
  | var v =>
    simp only
    split
    · exact hp.check_index hprop hq he _
    · rename_i hfree
      have hint : Γ v.id = .int32 := he.2 v.id (List.mem_singleton_self _)
      have hasked : Asked Γ f m (v, query .int32 prop ns) := by
        cases n? with
        | none => exact Or.inl hq
        | some n => exact Or.inr (Or.inl ⟨_, hq, fun et xs => nofun, fun _ => ⟨n, rfl⟩⟩)
      refine gives_ok ((hp.define (Bool.eq_false_iff.mpr hfree) hasked (Or.inr hint) fun _ hx => hx).congr fun env _ => ?_)
      refine and_congr_right fun _ => ?_
      simp only [hq.possible_iff, denotes_var]
      constructor
      · rintro ⟨y, hget, n, hn, rfl⟩
        exact ⟨n, hn, hget⟩
      · rintro ⟨n, hn, hget⟩
        exact ⟨_, hget, n, hn, rfl⟩
  | _ => exact hp.check_index hprop hq he _

theorem mono (hp : Encodes Γ f m ids C p) {ids' : List Nat} (h : ∀ x ∈ ids, x ∈ ids') : Encodes Γ f m ids' C p :=
  { hp with known := fun d hd => (hp.known d hd).imp_left (h _) }

/-- A variable of another type is bound. -/
theorem bind_own (hp : Encodes Γ f m ids C p) {name prop what : String} {ns : List Nat} {v : Var} (hfree : v.id ∉ ids)
    (hother : Γ v.id ≠ .int32) (hasked : Asked Γ f m (v, query v.dtype prop ns)) :
    Gives (p.bind name (.var v) (query v.dtype prop ns) what)
      (Encodes Γ f m (v.id :: ids) fun env => C env ∧ ∃ y, env.get? v = some y ∧
        Possible f m (query v.dtype prop ns) y) := by
  have hbinds : p.binds v = false := by
    refine Bool.eq_false_iff.mpr fun hbound => ?_
    obtain ⟨d, hd, heq⟩ := List.mem_map.mp (Prologue.binds_iff.mp hbound)
    rcases hp.known d hd with hknown | hint
    · exact hfree (heq ▸ hknown)
    · exact hother (heq ▸ hint)
  rw [bind_eq (t := v.dtype) rfl]
  simp only [hbinds]
  exact gives_ok (hp.define hbinds hasked (Or.inl List.mem_cons_self) fun _ hx => List.mem_cons_of_mem _ hx)

/-- What is asked for by a step for each of some things is asked for by all steps. -/
theorem foldlM {α : Type} {step : Prologue → α → Except Error Prologue} {l : List α} {D : α → Env → Prop}
    (h : ∀ a ∈ l, ∀ {p C}, Encodes Γ f m ids C p → Gives (step p a) (Encodes Γ f m ids fun env => C env ∧ D a env))
    (hp : Encodes Γ f m ids C p) : Gives (l.foldlM step p) (Encodes Γ f m ids fun env => C env ∧ ∀ a ∈ l, D a env) := by
  induction l generalizing p C with
  | nil => exact gives_ok (hp.congr fun env _ => by simp)
  | cons a l ih =>
    obtain ⟨ha, hl⟩ := List.forall_mem_cons.mp h
    rw [List.foldlM_cons]
    refine (ha hp).bind fun p' hp' => (ih hl hp').mono fun p'' hp'' => hp''.congr fun env _ => ?_
    rw [List.forall_mem_cons, and_assoc]

/-- The properties of the dimensions of an argument. -/
theorem bindDims (hp : Encodes Γ f m ids C p) {name prop what : String} {k : Nat} {answer : Nat → Option Int}
    {es : List Expr}
    (hprop : prop ≠ "likely") (hq : ∀ d < 2 ^ 31, Decides f m (query .int32 prop [k, d]) (.int 32) (answer d))
    (hes : ∀ e ∈ es, e.Counts Γ) (hlength : es.length < 2 ^ 31) :
    Gives (p.bindDims name prop what k es) (Encodes Γ f m ids fun env => C env ∧
      ∀ q ∈ es.zipIdx, ∃ n, answer q.2 = some n ∧ q.1.Denotes f m env n) := by
  unfold Prologue.bindDims
  refine foldlM (fun q hmem p' C' hp' => ?_) hp
  obtain ⟨e, d⟩ := q
  have hget : es[d]? = some e := List.mem_zipIdx_iff_getElem?.mp hmem
  have hlt : d < es.length := (List.getElem?_eq_some_iff.mp hget).1
  exact hp'.bind_index hprop (hq d (Nat.lt_trans hlt hlength)) (hes e (List.mem_of_getElem? hget))

end Encodes

/-! ### Strides of compact arrays -/

/-- The number of elements of a shape, which is the stride of the dimension before it, as it is built. -/
def compactStride : List Expr → Except Error Expr
  | [] => Expr.ofInt 1 .int32
  | d :: ds => do Expr.mul (← compactStride ds) d

/-- The strides of an argument are those of a compact array of a shape, from a dimension on. -/
def Compact (f : Frame) (m : Machine) (env : Env) (stride? : Nat → Option Int) (k : Nat) (shape : List Expr) : Prop :=
  ∀ j < shape.length, ∃ e n, compactStride (shape.drop (j + 1)) = .ok e ∧ stride? (k + j) = some n ∧ e.Denotes f m env n

theorem compact_cons {stride? : Nat → Option Int} {k : Nat} {d : Expr} {ds : List Expr} :
    Compact f m env stride? k (d :: ds) ↔
      Compact f m env stride? (k + 1) ds ∧ ∃ e n, compactStride ds = .ok e ∧ stride? k = some n ∧ e.Denotes f m env n := by
  have hshift : ∀ j, k + (j + 1) = k + 1 + j := fun j => by omega
  constructor
  · intro h
    refine ⟨fun j hj => ?_, by simpa using h 0 (Nat.zero_lt_succ _)⟩
    have hnext := h (j + 1) (Nat.succ_lt_succ hj)
    rwa [List.drop_succ_cons, hshift] at hnext
  · rintro ⟨htail, hhead⟩ j hj
    cases j with
    | zero => simpa using hhead
    | succ j =>
      have hnext := htail j (Nat.lt_of_succ_lt_succ hj)
      rwa [List.drop_succ_cons, hshift]

/-- The check of a stride; the stride of the dimension before is the expected one times the extent. -/
theorem Encodes.check_stride (hp : Encodes Γ f m ids C p) {ns : List Nat} {n? : Option Int} {expected extent : Expr}
    (hq : Decides f m (query .int32 "xte_arg_stride" ns) (.int 32) n?) (hexpected : expected.Counts Γ)
    (hextent : extent.Counts Γ) (message : String) :
    Gives (do
        let p ← p.check (← Expr.eq (query .int32 "xte_arg_stride" ns) expected) message
        return (p, ← Expr.mul expected extent)) fun r =>
      (Expr.mul expected extent = .ok r.2 ∧ r.2.Counts Γ) ∧
        Encodes Γ f m ids (fun env => C env ∧ ∃ n, n? = some n ∧ expected.Denotes f m env n) r.1 := by
  refine (hp.check_index (by decide) hq hexpected _).bind_bind fun p' hp' => ?_
  obtain ⟨e, hmul, he⟩ : Gives (Expr.mul expected extent) (Expr.Counts Γ) :=
    Expr.gives_arith QueryType.int32.isIndex rfl hexpected hextent
  rw [hmul]
  exact gives_ok ⟨⟨rfl, he⟩, hp'⟩

/-- The checks of the strides of a compact array, from the last dimension to the first. -/
theorem Encodes.checkCompact (hp : Encodes Γ f m ids C p) {name : String} {k : Nat} {b : Buffer} {answer : Nat → Option Int}
    (hq : ∀ d < 2 ^ 31, Decides f m (query .int32 "xte_arg_stride" [k, d]) (.int 32) (answer d))
    (hshape : ∀ e ∈ b.shape, e.Counts Γ) (hlength : b.shape.length < 2 ^ 31) :
    Gives (p.checkCompact name b k) (Encodes Γ f m ids fun env => C env ∧ Compact f m env answer 0 b.shape) := by
  have hone : Expr.ofInt 1 .int32 = .ok (.const (.int 1) .int32) := Expr.ofNumber_int QueryType.int32.isIndex 1
  unfold Prologue.checkCompact
  rw [hone]
  -- What is known after some dimensions have been gone through, from the last one on.
  suffices hfold : ∀ (es : List Expr) (d : Nat), (∀ e ∈ es, e.Counts Γ) → d + es.length < 2 ^ 31 →
      Gives ((es.zipIdx d).foldrM _ (p, Expr.const (.int 1) .int32)) fun r =>
        (compactStride es = .ok r.2 ∧ r.2.Counts Γ) ∧
          Encodes Γ f m ids (fun env => C env ∧ Compact f m env answer d es) r.1 by
    exact (hfold b.shape 0 hshape (by simpa using hlength)).bind fun r hr => gives_ok hr.2
  intro es
  induction es with
  | nil =>
    intro d _ _
    refine gives_ok ⟨⟨hone, Expr.IndexClosed.const 1⟩, hp.congr fun env _ => ?_⟩
    simp [Compact]
  | cons e es ih =>
    intro d hes hd
    obtain ⟨he, hes⟩ := List.forall_mem_cons.mp hes
    rw [List.zipIdx_cons, List.foldrM_cons]
    have hlt : d < 2 ^ 31 ∧ d + 1 + es.length < 2 ^ 31 := by
      simp only [List.length_cons] at hd
      omega
    refine (ih (d + 1) hes hlt.2).bind ?_
    rintro ⟨p', expected⟩ ⟨⟨hstride, hexpected⟩, hp'⟩
    refine (hp'.check_stride (hq d hlt.1) hexpected he _).mono ?_
    rintro r ⟨⟨hmul, hnext⟩, hr⟩
    refine ⟨⟨by rw [compactStride, hstride]; exact hmul, hnext⟩, hr.congr fun env _ => ?_⟩
    rw [compact_cons, and_assoc]
    refine and_congr_right fun _ => and_congr_right fun _ => ⟨?_, ?_⟩
    · rintro ⟨n, hn⟩
      exact ⟨expected, n, hstride, hn⟩
    · rintro ⟨e', n, hbuilt, hn⟩
      obtain rfl := Except.ok.inj (hstride.symm.trans hbuilt)
      exact ⟨n, hn⟩

/-! ### Parameters -/

/-- The element type of an array is that of a buffer of one lane. -/
def View.HasType (a : View) (t : DataType) : Prop :=
  a.type.dataType.code = t.code ∧ a.type.dataType.bits = t.bits ∧ t.lanes = 1

/-- The condition on the answers to the queries of an element type. -/
def typeCondition (t : DataType) (k : Nat) : Expr :=
  .bin .and
    (.bin .and
      (.bin .eq (query ⟨.uint, 8, 1⟩ "xte_arg_type_code" [k]) (.const (.int t.code.toNat) ⟨.uint, 8, 1⟩))
      (.bin .eq (query ⟨.uint, 8, 1⟩ "xte_arg_type_bits" [k]) (.const (.int t.bits) ⟨.uint, 8, 1⟩)))
    (.bin .eq (query ⟨.uint, 16, 1⟩ "xte_arg_type_lanes" [k]) (.const (.int t.lanes) ⟨.uint, 16, 1⟩))

theorem typeCheck_eq (t : DataType) (k : Nat) : Prologue.typeCheck t k = .ok (typeCondition t k) := by
  unfold Prologue.typeCheck
  simp only [Expr.eq, Expr.arith_eq_query_int QueryType.uint8.isIndex, Expr.arith_eq_query_int QueryType.uint16.isIndex]
  rfl

theorem simplify_typeCondition (t : DataType) (k : Nat) : (typeCondition t k).simplify = .ok (typeCondition t k) := by
  have hconst : ∀ (u : DataType) (prop : String) (n : Int), prop ≠ "likely" →
      (Expr.bin .eq (query u prop [k]) (.const (.int n) u)).simplifyUnder [] =
        .ok ⟨.bin .eq (query u prop [k]) (.const (.int n) u), false⟩ := by
    intro u prop n hprop
    exact Expr.simplifyUnder_eq_query (r := ⟨.const (.int n) u, false⟩) hprop rfl (.const n)
  have hfirst := Expr.simplifyUnder_and (hconst ⟨.uint, 8, 1⟩ "xte_arg_type_code" t.code.toNat (by decide))
    (hconst ⟨.uint, 8, 1⟩ "xte_arg_type_bits" t.bits (by decide)) rfl
  unfold Expr.simplify typeCondition
  rw [Expr.simplifyUnder_and hfirst (hconst _ _ _ (by decide)) rfl]
  rfl

theorem code_toNat_inj {a b : TypeCode} (h : a.toNat = b.toNat) : a = b := by
  cases a <;> cases b <;> first | rfl | cases h

/-- The check of the element type of an argument. -/
theorem Encodes.check_type (hp : Encodes Γ f m ids C p) {k : Nat} {v : Value} {t : DataType} (hk : k < 2 ^ 31)
    (hv : f.args[k]? = some v) (ht : t.bits < 2 ^ 8) (message : String) :
    Gives (Prologue.typeCheck t k >>= fun c => p.check c message)
      (Encodes Γ f m ids fun env => C env ∧ ∃ a, v.view? = some a ∧ a.HasType t) := by
  have hcode := decides_code (m := m) hk hv
  have hbits := decides_bits (m := m) hk hv
  have hlanes : Decides f m (query ⟨.uint, 16, 1⟩ "xte_arg_type_lanes" [k]) (.uint 16) (some 1) :=
    decides_fixed rfl (List.forall_mem_singleton.mpr hk) rfl
  rw [typeCheck_eq]
  refine hp.check (typeCondition t k) message ⟨_, simplify_typeCondition t k, rfl, ?_, ?_, fun env _ => ?_⟩
  · exact .and (.and (.const .uint8 hcode _) (.const .uint8 hbits _)) (.const .uint16 hlanes _)
  · simp [typeCondition, Expr.freeIds, freeIds_query]
  · have hfirst : Tests f m _ := .and (.const .uint8 hcode (t.code.toNat : Int)) (.const .uint8 hbits (t.bits : Int))
    have hcodeHolds : (ElemType.uint 8).holds t.code.toNat := by cases t.code <;> decide
    have hbitsHolds : (ElemType.uint 8).holds t.bits := by
      refine Bool.and_eq_true_iff.mpr ⟨decide_eq_true (Int.natCast_nonneg _), decide_eq_true ?_⟩
      show (t.bits : Int) ≤ ((2 ^ 8 : Nat) : Int) - 1
      omega
    rw [typeCondition, hfirst.passes_and_iff (.const .uint16 hlanes _) (by simp [Expr.freeIds, freeIds_query]),
      Tests.passes_and_iff (.const .uint8 hcode _) (.const .uint8 hbits _) (by simp [Expr.freeIds, freeIds_query]),
      passes_const .uint8 hcode, passes_const .uint8 hbits, passes_const .uint16 hlanes]
    cases v.view? with
    | none => simp
    | some a =>
      simp only [Option.bind_some, Option.some.injEq, exists_eq_left', View.HasType, hcodeHolds, hbitsHolds, and_true,
        Int.natCast_inj]
      constructor
      · rintro ⟨⟨hcode, hbits⟩, hlanes, -⟩
        exact ⟨code_toNat_inj hcode, hbits, hlanes.symm⟩
      · rintro ⟨hcode, hbits, hlanes⟩
        exact ⟨⟨congrArg _ hcode, hbits⟩, hlanes.symm, by rw [hlanes]; rfl⟩

/-- What an array has to be for a buffer, under some values of the variables. -/
structure Buffer.Fits (f : Frame) (m : Machine) (env : Env) (b : Buffer) (a : View) : Prop where
  data : ∃ y, env.get? b.data = some y ∧ a.Row m y
  rank : a.rank = b.shape.length
  type : a.HasType b.dtype
  shape : ∀ q ∈ b.shape.zipIdx, ∃ n, a.extent? q.2 = some n ∧ q.1.Denotes f m env n
  strides : if b.strides.isEmpty then Compact f m env a.stride? 0 b.shape
    else ∀ q ∈ b.strides.zipIdx, ∃ n, a.stride? q.2 = some n ∧ q.1.Denotes f m env n
  offset : b.elemOffset.Denotes f m env 0

/-- What an argument has to be for a parameter, under some values of the variables. -/
def Param.Fits (f : Frame) (m : Machine) (env : Env) : Param → Value → Prop
  | .buffer b, x => ∃ a, x.view? = some a ∧ b.Fits f m env a
  | .var v, x => ∃ y, env.get? v = some y ∧ x.Becomes m v.dtype y

/-- A buffer whose shape, strides and offset are index arithmetic on variables of type `int32`. -/
structure Buffer.Regular (Γ : Nat → DataType) (b : Buffer) : Prop where
  data : Γ b.data.id = .handle
  handle : b.data.dtype = .handle
  bits : b.dtype.bits < 2 ^ 8
  shape : ∀ e ∈ b.shape, e.Counts Γ
  strides : ∀ e ∈ b.strides, e.Counts Γ
  offset : b.elemOffset.Counts Γ
  rank : b.shape.length < 2 ^ 31
  axes : b.strides.length < 2 ^ 31

namespace Param

/-- The variable that an argument stands for. -/
def own : Param → Var
  | .buffer b => b.data
  | .var v => v

/-- A parameter as it is given. -/
def argument : Param → Argument
  | .buffer b => .buffer b
  | .var v => .var v

/-- The types of the variables of a parameter. -/
def Regular (Γ : Nat → DataType) : Param → Prop
  | .buffer b => b.Regular Γ
  | .var v => Γ v.id = v.dtype

/-- A single value is given for a variable. -/
def Castable (m : Machine) : Param → Value → Prop
  | .buffer _, _ => True
  | .var v, x => ∃ y, x.Becomes m v.dtype y ∧ ∀ et xs, y ≠ .vector et xs

end Param

namespace Encodes

variable {k : Nat} {v : Value}

theorem eq_array {a : View} (h : v.view? = some a) : v = .array a := by
  cases v with
  | array a' => rw [Option.some.inj h]
  | _ => cases h

/-- What is asked of the argument for a buffer, item by item. -/
theorem fits_iff {b : Buffer} (hb : b.Regular Γ) (hk : k < 2 ^ 31) (hv : f.args[k]? = some v) :
    (∃ a, v.view? = some a ∧ b.Fits f m env a) ↔
      (∃ y, env.get? b.data = some y ∧ Possible f m (query .handle "xte_arg_data" [k]) y) ∧
      ((v.view?.bind fun a => some (a.rank : Int)) = some (b.shape.length : Int) ∧ (ElemType.int 32).holds b.shape.length) ∧
      (∃ a, v.view? = some a ∧ a.HasType b.dtype) ∧
      (∀ q ∈ b.shape.zipIdx, ∃ n, (v.view?.bind fun a => a.extent? q.2) = some n ∧ q.1.Denotes f m env n) ∧
      (if b.strides.isEmpty then Compact f m env (fun d => v.view?.bind fun a => a.stride? d) 0 b.shape
        else ∀ q ∈ b.strides.zipIdx, ∃ n, (v.view?.bind fun a => a.stride? q.2) = some n ∧ q.1.Denotes f m env n) ∧
      b.elemOffset.Denotes f m env 0 := by
  cases hview : v.view? with
  | none => simp
  | some a =>
    rw [eq_array hview] at hv
    simp only [possible_data hk hv, Option.bind_some, Option.some.injEq, exists_eq_left', Int.natCast_inj]
    constructor
    · rintro ⟨hdata, hrank, htype, hshape, hstrides, hoffset⟩
      exact ⟨hdata, ⟨hrank, holds_int32 hb.rank⟩, htype, hshape, hstrides, hoffset⟩
    · rintro ⟨hdata, ⟨hrank, -⟩, htype, hshape, hstrides, hoffset⟩
      exact ⟨hdata, hrank, htype, hshape, hstrides, hoffset⟩

theorem bind_buffer (hp : Encodes Γ f m ids C p) {name : String} {b : Buffer} (hb : b.Regular Γ) (hfree : b.data.id ∉ ids)
    (hk : k < 2 ^ 31) (hv : f.args[k]? = some v) :
    Gives (p.bindBuffer name b k)
      (Encodes Γ f m (b.data.id :: ids) fun env => C env ∧ ∃ a, v.view? = some a ∧ b.Fits f m env a) := by
  have hdata : Asked Γ f m (b.data, query b.data.dtype "xte_arg_data" [k]) := by
    rw [hb.handle]
    cases hview : v.view? with
    | none => exact Or.inl (refuses_data hk hv hview)
    | some a =>
      refine Or.inr (Or.inr ⟨hb.data, fun env m' hm => ?_⟩)
      obtain ⟨x, m'', hon, hm', cells, rfl⟩ := yields_data hk (eq_array hview ▸ hv) env m' hm
      exact ⟨_, m'', hon, hm', _, rfl⟩
  have hoffset : Decides f m (query .int32 "xte_arg_elem_offset" [k]) (.int 32) (some 0) :=
    decides_fixed rfl (List.forall_mem_singleton.mpr hk) rfl
  unfold Prologue.bindBuffer
  rw [← hb.handle]
  refine (hp.bind_own hfree (by rw [hb.data]; decide) hdata).bind fun p₁ hp₁ => ?_
  refine (hp₁.check_const .int32 (by decide) (decides_rank hk hv) _ _).bind_bind fun p₂ hp₂ => ?_
  refine (hp₂.check_type hk hv hb.bits _).bind_bind fun p₃ hp₃ => ?_
  refine (hp₃.bindDims (by decide) (fun d hd => decides_extent hk hd hv) hb.shape hb.rank).bind fun p₄ hp₄ => ?_
  have hlast : ∀ {p C}, Encodes Γ f m (b.data.id :: ids) C p →
      Gives (p.bind name b.elemOffset (query .int32 "xte_arg_elem_offset" [k]) (b.name ++ ".elem_offset"))
        (Encodes Γ f m (b.data.id :: ids) fun env => C env ∧ b.elemOffset.Denotes f m env 0) := fun hp =>
    (hp.bind_index (by decide) hoffset hb.offset).mono fun p' hp' => hp'.congr fun env _ => by simp
  split
  · rename_i hempty
    refine ((hp₄.checkCompact (fun d hd => decides_stride hk hd hv) hb.shape hb.rank).bind fun p₅ hp₅ => hlast hp₅).mono
      fun p' hp' => hp'.congr fun env _ => ?_
    rw [fits_iff hb hk hv, if_pos hempty, hb.handle]
    simp only [and_assoc]
  · rename_i hgiven
    refine ((hp₄.bindDims (by decide) (fun d hd => decides_stride hk hd hv) hb.strides hb.axes).bind fun p₅ hp₅ =>
      hlast hp₅).mono fun p' hp' => hp'.congr fun env _ => ?_
    rw [fits_iff hb hk hv, if_neg hgiven, hb.handle]
    simp only [and_assoc]

/-- A parameter asks its argument to fit. -/
theorem bind_param (hp : Encodes Γ f m ids C p) {name : String} {a : Param} (ha : a.Regular Γ) (hfree : a.own.id ∉ ids)
    (hk : k < 2 ^ 31) (hv : f.args[k]? = some v) (hcast : a.Castable m v) :
    Gives (p.bindParam name a k) (Encodes Γ f m (a.own.id :: ids) fun env => C env ∧ a.Fits f m env v) := by
  cases a with
  | buffer b => exact hp.bind_buffer ha hfree hk hv
  | var x =>
    obtain ⟨y, hy, hsingle⟩ := hcast
    have hanswer : Answers f m (query x.dtype "xte_arg_value" [k]) y := answers_value hk hv hy
    have hunique : ∀ y', v.Becomes m x.dtype y' ↔ y' = y := by
      intro y'
      constructor
      · exact fun hy' => Except.ok.inj ((hy' m (.refl m)).symm.trans (hy m (.refl m)))
      · rintro rfl
        exact hy
    by_cases hint : Γ x.id = .int32
    · have htype : x.dtype = .int32 := ha.symm.trans hint
      obtain ⟨n, rfl⟩ := Value.Becomes.int32 (htype ▸ hy) hsingle
      have hcounts : (Expr.var x).Counts Γ := ⟨.var htype, fun z hz => List.mem_singleton.mp hz ▸ hint⟩
      have hq : Decides f m (query .int32 "xte_arg_value" [k]) (.int 32) (some n) := htype ▸ hanswer
      refine Gives.mono (P := Encodes Γ f m ids _) (htype ▸ hp.bind_index (by decide) hq hcounts) fun p' hp' =>
        (hp'.mono fun _ hz => List.mem_cons_of_mem _ hz).congr fun env _ => ?_
      simp [Param.Fits, hunique, denotes_var]
    · refine (hp.bind_own hfree hint (Or.inr (Or.inl ⟨y, hanswer, hsingle, fun h => absurd h hint⟩))).mono
        fun p' hp' => hp'.congr fun env _ => ?_
      simp only [Param.Fits, Param.own, hunique, hanswer.possible_iff]

theorem bind_argument (hp : Encodes Γ f m ids C p) {name : String} {a : Param} (given : List Param) (ha : a.Regular Γ)
    (hfree : a.own.id ∉ ids) (hk : k < 2 ^ 31) (hv : f.args[k]? = some v) (hcast : a.Castable m v) :
    Gives (do
        let param ← a.argument.param name
        return (← p.bindParam name param k, given ++ [param])) fun r =>
      r.2 = given ++ [a] ∧ Encodes Γ f m (a.own.id :: ids) (fun env => C env ∧ a.Fits f m env v) r.1 := by
  have hparam : a.argument.param name = .ok a := by cases a <;> rfl
  rw [hparam]
  exact (hp.bind_param ha hfree hk hv hcast).bind fun p' hp' => gives_ok ⟨rfl, hp'⟩

theorem bind_params {name : String} {params : List Param} {vals : List Value} {given : List Param} {k : Nat}
    (hparams : ∀ a ∈ params, a.Regular Γ) (hnodup : (params.map (·.own.id)).Nodup) (hfree : ∀ a ∈ params, a.own.id ∉ ids)
    (hvals : f.args.drop k = vals) (hlength : vals.length = params.length) (hk : k + params.length < 2 ^ 31)
    (hcast : ∀ q ∈ params.zip vals, q.1.Castable m q.2) (hp : Encodes Γ f m ids C p) :
    Gives (((params.map Param.argument).zipIdx k).foldlM (fun ((p, given) : Prologue × List Param) (a, i) => do
        let param ← a.param name
        return (← p.bindParam name param i, given ++ [param])) (p, given)) fun r =>
      r.2 = given ++ params ∧
        ∃ ids', Encodes Γ f m ids' (fun env => C env ∧ ∀ q ∈ params.zip vals, q.1.Fits f m env q.2) r.1 := by
  induction params generalizing vals given k ids C p with
  | nil => exact gives_ok ⟨by simp, ids, hp.congr fun env _ => by simp⟩
  | cons a params ih =>
    cases vals with
    | nil => cases hlength
    | cons v vals =>
      obtain ⟨ha, hparams⟩ := List.forall_mem_cons.mp hparams
      obtain ⟨hafree, hfree⟩ := List.forall_mem_cons.mp hfree
      obtain ⟨hcastHead, hcast⟩ := List.forall_mem_cons.mp hcast
      rw [List.map_cons, List.nodup_cons] at hnodup
      have hv : f.args[k]? = some v := by
        rw [← List.head?_drop, hvals]
        rfl
      have hnext : f.args.drop (k + 1) = vals := by
        rw [← List.tail_drop, hvals]
        rfl
      have hfree' : ∀ b ∈ params, b.own.id ∉ a.own.id :: ids := by
        intro b hb hmem
        rcases List.mem_cons.mp hmem with heq | hmem
        · exact hnodup.1 (List.mem_map.mpr ⟨b, hb, heq⟩)
        · exact hfree b hb hmem
      simp only [List.length_cons] at hlength hk
      rw [List.map_cons, List.zipIdx_cons, List.foldlM_cons]
      refine (hp.bind_argument given ha hafree (by omega) hv hcastHead).bind ?_
      rintro ⟨p', _⟩ ⟨rfl, hp'⟩
      refine (ih hparams hnodup.2 hfree' hnext (by omega) (by omega) hcast hp').mono ?_
      rintro r ⟨hr, ids', hencodes⟩
      refine ⟨by simpa using hr, ids', hencodes.congr fun env _ => ?_⟩
      rw [List.zip_cons_cons, List.forall_mem_cons, and_assoc]

/-- The prologue of a function asks all arguments to fit. -/
theorem ofArgs (name : String) {params : List Param} (hparams : ∀ a ∈ params, a.Regular Γ)
    (hnodup : (params.map (·.own.id)).Nodup) (hlength : f.args.length = params.length) (hcount : params.length < 2 ^ 31)
    (hcast : ∀ q ∈ params.zip f.args, q.1.Castable m q.2) :
    Gives (Prologue.ofArgs name (params.map Param.argument)) fun r =>
      r.2 = params ∧ ∃ ids, Encodes Γ f m ids (fun env => ∀ q ∈ params.zip f.args, q.1.Fits f m env q.2) r.1 := by
  have hempty : Encodes Γ f m [] (fun _ => True) {} :=
    ⟨List.nodup_nil, List.forall_mem_nil _, List.forall_mem_nil _, List.forall_mem_nil _,
      List.forall_mem_nil _, fun env _ => ⟨fun _ => trivial, fun _ => ⟨List.forall_mem_nil _, List.forall_mem_nil _⟩⟩⟩
  have hnumber : Decides f m (query .int32 "xte_num_args" []) (.int 32) (some (f.args.length : Int)) :=
    decides_fixed rfl nofun rfl
  unfold Prologue.ofArgs
  refine (hempty.check_const .int32 (by decide) hnumber _ _).bind_bind fun p hp => ?_
  refine (bind_params hparams hnodup (fun _ _ => List.not_mem_nil)
    (k := 0) rfl hlength (by simpa using hcount) hcast hp).mono ?_
  rintro r ⟨hr, ids, henc⟩
  refine ⟨by simpa using hr, ids, henc.congr fun env _ => ?_⟩
  simp [hlength, holds_int32 hcount]

end Encodes

end TensorNest

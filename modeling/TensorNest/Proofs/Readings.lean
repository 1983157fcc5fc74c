import TensorNest.Proofs.Extents
import TensorNest.Proofs.Words

/-! # Faithful readings

Index expressions under a reading of expressions over any type of values. A reading is faithful if the type has the
integers and the truth values, and the reading computes with them as with integers as long as these are held by their
types. A well-typed expression then has the value that it has over the integers (`Expr.Typed.value_eq`), if no part of it
leaves its type (`Expr.exact`), whatever the tensors hold that other expressions read. -/

namespace TensorNest

/-- A reading that computes with truth values, and with indices as with the integers that a type holds. Nothing is said of
    results that are out of the type, nor of divisions by 0. -/
structure FaithfulReading (V : Type) extends Reading V where
  holds : DataType → Int → Bool
  index : Int → V
  flag : Bool → V
  number_int : ∀ {t : DataType} {n : Int}, t.IsIndex → holds t n → number (.int n) t = index n
  number_bool : ∀ b, number (.bool b) .bool = flag b
  cast_index : ∀ {t : DataType} {n : Int}, t.IsIndex → holds t n → cast t (index n) = index n
  arith : ∀ {op : BinOp} {t : DataType} {m n : Int}, op.isLogical = false → t.IsIndex → holds t m → holds t n →
    (op.Divides → n ≠ 0) → holds t (op.onInts m n) → binary op t (index m) (index n) = index (op.onInts m n)
  compare : ∀ {op : BinOp} {t : DataType} {m n : Int}, op.isComparison → t.IsIndex → holds t m → holds t n →
    binary op t (index m) (index n) = flag (op.onInts m n != 0)
  logical : ∀ {op : BinOp}, op.isLogical → ∀ a b, binary op .bool (flag a) (flag b) = flag (op.onInts a.toInt b.toInt != 0)
  negate_flag : ∀ b, negate (flag b) = flag !b
  choose_index : ∀ {t : DataType} {b : Bool} {m n : Int}, t.IsIndex → holds t m → holds t n →
    choose t (flag b) (index m) (index n) = index (if b then m else n)
  choose_flag : ∀ b c d, choose .bool (flag b) (flag c) (flag d) = flag (if b then c else d)
  likely : ∀ x, call .bool "likely" .pureIntrinsic 0 [x] = x
  truth_flag : ∀ b, truth (flag b) = b
  counter_index : ∀ {t : DataType} {n : Int}, t.IsIndex → holds t n → counter t n = index n
  toInt_index : ∀ n, toInt (index n) = n

namespace FaithfulReading

variable {V : Type} (R : FaithfulReading V)

/-- The value that stands for a number of an index type, or for the truth value that the number is. -/
def scalar (t : DataType) (n : Int) : V :=
  if t = .bool then R.flag (n != 0) else R.index n

/-- The variables of a context have the values that stand for their numbers. -/
def Represents (Γ : Context) (ρ : Valuation Int) (π : Valuation V) : Prop :=
  ∀ x, Γ x ≠ none → π x = R.index (ρ x)

variable {R} {Γ : Context} {ρ : Valuation Int} {π : Valuation V} {t : DataType} {n : Int}

theorem index_injective : Function.Injective R.index := fun m n h => by
  rw [← R.toInt_index m, h, R.toInt_index]

theorem scalar_index (ht : t.IsIndex) (n : Int) : R.scalar t n = R.index n := by
  refine if_neg ?_
  rintro rfl
  exact DataType.not_isIndex_bool ht

theorem scalar_bool (n : Int) : R.scalar .bool n = R.flag (n != 0) :=
  if_pos rfl

theorem toInt_bne_zero (b : Bool) : (b.toInt != 0) = b := by
  cases b <;> rfl

/-- A truth value is its own number. -/
theorem scalar_toInt (b : Bool) : R.scalar .bool b.toInt = R.flag b := by
  rw [scalar_bool, toInt_bne_zero]

variable (R) in
/-- Whether a number is one of a type, if that is an index type. -/
def keeps (t : DataType) (n : Int) : Bool :=
  !decide t.IsIndex || R.holds t n

theorem keeps_index (ht : t.IsIndex) : R.keeps t n = R.holds t n := by
  rw [keeps, decide_eq_true ht, Bool.not_true, Bool.false_or]

theorem keeps_bool : R.keeps .bool n := by
  rw [keeps, decide_eq_false DataType.not_isIndex_bool, Bool.not_false, Bool.true_or]

theorem number_literal {x : Number} (h : t.Literal x n) (hk : R.keeps t n) : R.number x t = R.scalar t n := by
  cases h with
  | int ht => rw [R.number_int ht (keeps_index ht ▸ hk), scalar_index ht]
  | bool b => rw [R.number_bool, scalar_toInt]

theorem binary_scalar {op : BinOp} {u : DataType} (hop : op.Maps t u) {m n : Int} (ht : t.IsIndex ∨ t = .bool)
    (hm : t = .bool → m = 0 ∨ m = 1) (hn : t = .bool → n = 0 ∨ n = 1) (hkm : R.keeps t m) (hkn : R.keeps t n)
    (hdiv : op.Divides → n ≠ 0) (hk : op.isLogical = false → R.keeps t (op.onInts m n)) :
    R.binary op t (R.scalar t m) (R.scalar t n) = R.scalar u (op.onInts m n) := by
  have hlogical (hop : op.isLogical) (hm : m = 0 ∨ m = 1) (hn : n = 0 ∨ n = 1) :
      R.binary op .bool (R.scalar .bool m) (R.scalar .bool n) = R.scalar .bool (op.onInts m n) := by
    rw [scalar_bool, scalar_bool, R.logical hop, scalar_bool]
    have hsame : ∀ k : Int, k = 0 ∨ k = 1 → (k != 0).toInt = k := by
      rintro _ (rfl | rfl) <;> rfl
    rw [hsame m hm, hsame n hn]
  cases hop with
  | arith hop ht =>
    rw [keeps_index ht] at hkm hkn
    have hk := keeps_index ht ▸ hk hop
    rw [scalar_index ht, scalar_index ht, scalar_index ht, R.arith hop ht hkm hkn hdiv hk]
  | compare hop =>
    obtain ht | rfl := ht
    · rw [keeps_index ht] at hkm hkn
      rw [scalar_index ht, scalar_index ht, scalar_bool, R.compare hop ht hkm hkn]
    · exact hlogical (by cases op <;> first | rfl | cases hop) (hm rfl) (hn rfl)
  | and => exact hlogical rfl (hm rfl) (hn rfl)
  | or => exact hlogical rfl (hm rfl) (hn rfl)

/-- The integers read expressions faithfully. -/
def integers : FaithfulReading Int where
  toReading := .integers
  holds _ _ := true
  index n := n
  flag b := b.toInt
  number_int _ _ := rfl
  number_bool b := by cases b <;> rfl
  cast_index _ _ := rfl
  arith _ _ _ _ _ _ := rfl
  compare {op _ m n} hop _ _ _ := by
    obtain h | h : op.onInts m n = 0 ∨ op.onInts m n = 1 := (BinOp.Maps.compare (t := .int32) hop).truth m n
    all_goals exact h.trans (by rw [h]; rfl)
  logical {op} hop a b := by
    obtain h | h : op.onInts a.toInt b.toInt = 0 ∨ op.onInts a.toInt b.toInt = 1 := by
      cases op <;> first | exact toInt_eq_zero_or_one _ | cases hop
    all_goals exact h.trans (by rw [h]; rfl)
  negate_flag b := by cases b <;> rfl
  choose_index {_ b _ _} _ _ _ := by cases b <;> rfl
  choose_flag b c d := by cases b <;> rfl
  likely _ := rfl
  truth_flag b := by cases b <;> rfl
  counter_index _ _ := rfl
  toInt_index _ := rfl

/-- The arithmetic of a running program reads expressions faithfully, with the numbers that its types hold. -/
def words : FaithfulReading Int where
  toReading := .words
  holds := DataType.holdsWord
  index n := n
  flag b := b.toInt
  number_int := toWord_of_holds
  number_bool b := by cases b <;> rfl
  cast_index := toWord_of_holds
  arith := words_arith
  compare := words_compare
  logical := words_logical
  negate_flag b := by cases b <;> rfl
  choose_index {_ b _ _} ht hm hn := by
    cases b
    · exact toWord_of_holds ht hn
    · exact toWord_of_holds ht hm
  choose_flag b c d := by cases b <;> cases c <;> cases d <;> rfl
  likely _ := rfl
  truth_flag b := by cases b <;> rfl
  counter_index := toWord_of_holds
  toInt_index _ := rfl

end FaithfulReading

/-! ### Exactness -/

/-- Contents of which nothing is known. -/
def Contents.blank {V : Type} [Inhabited V] : Contents V := fun _ _ _ => default

namespace Expr

variable {V : Type} [Inhabited V] (R : FaithfulReading V)

/-- The integer that an expression has as its value, if nothing is read. -/
def toInt (e : Expr) (π : Valuation V) : Int :=
  R.toInt (e.value R.toReading .blank π)

/-- Whether all parts of an index expression have values of their types, and no divisor is 0: the values of operations are
    those over the integers. -/
def exact : Expr → Valuation V → Bool
  | var v, π => R.keeps v.dtype ((var v).toInt R π)
  | const x t, _ => R.keeps t (x.asInt?.getD 0)
  | cast t a, π => a.exact π && R.keeps t (a.toInt R π)
  | bin op a b, π => a.exact π && b.exact π && (!decide op.Divides || b.toInt R π != 0) &&
    (op.isLogical || R.keeps a.dtype (op.onInts (a.toInt R π) (b.toInt R π)))
  | not a, π | broadcast a _, π => a.exact π
  | select c a b, π => c.exact π && a.exact π && b.exact π
  | ramp a b _, π => a.exact π && b.exact π
  | call _ _ args .., π => ofList args π
  | bind v a b, π => a.exact π && b.exact (π.assign [v] [a.value R.toReading .blank π])
  | str _, _ | load .., _ | reduce .., _ => true
where
  /-- Whether all of several expressions are exact. -/
  ofList : List Expr → Valuation V → Bool
    | [], _ => true
    | e :: es, π => e.exact π && ofList es π

@[simp] theorem exact_ofList (es : List Expr) (π : Valuation V) : exact.ofList R es π = es.all (·.exact R π) := by
  induction es with
  | nil => rfl
  | cons e es ih => rw [exact.ofList, ih, List.all_cons]

end Expr

section Value
variable {V : Type} [Inhabited V] {R : FaithfulReading V} {T : Contents V} {Γ Γ' : Context} {ρ ρ' : Valuation Int}
  {π : Valuation V}
  {t : DataType} {v : Var} {e : Expr} {n : Int}

omit [Inhabited V] in
/-- Only the variables of the context matter. -/
theorem FaithfulReading.Represents.congr {σ : Valuation V} (h : R.Represents Γ ρ π) (hσ : ∀ x, Γ x ≠ none → σ x = π x) :
    R.Represents Γ ρ σ := fun x hx =>
  (hσ x hx).trans (h x hx)

omit [Inhabited V] in
theorem FaithfulReading.Represents.extend (h : R.Represents Γ ρ π) (v : Var) (n : Int) :
    R.Represents (Γ.extend v) (Function.update ρ v.id n) (Function.update π v.id (R.index n)) := by
  intro x hx
  by_cases hxv : x = v.id
  · rw [hxv, Function.update_self, Function.update_self]
  · rw [Context.extend, Function.update_of_ne hxv] at hx
    rw [Function.update_of_ne hxv, Function.update_of_ne hxv, h x hx]

/-- A well-typed expression that is exact has the value that stands for its number, which is one of its type. -/
theorem Expr.Typed.value_and_keeps (h : e.Typed Γ t) (hρ : R.Represents Γ ρ π) (he : e.exact R π) :
    (∀ T, e.value R.toReading T π = R.scalar t (e.integer ρ)) ∧ R.keeps t (e.integer ρ) := by
  have htoInt : ∀ {a : Expr} {u : DataType} {k : Int}, u.IsIndex → (∀ T, a.value R.toReading T π = R.scalar u k) →
      a.toInt R π = k := by
    intro a u k hu ha
    rw [toInt, ha, FaithfulReading.scalar_index hu, R.toInt_index]
  induction h generalizing ρ π with
  | @var Γ v hv ht =>
    have hvalue : ∀ T, (Expr.var v).value R.toReading T π = R.scalar v.dtype ((Expr.var v).integer ρ) := fun T => by
      rw [value, hρ _ (by rw [hv]; exact Option.some_ne_none _), integer_var, FaithfulReading.scalar_index ht]
    rw [exact, htoInt ht hvalue] at he
    exact ⟨hvalue, he⟩
  | @const Γ t x n hx =>
    rw [exact, hx.asInt?, Option.getD_some] at he
    rw [integer_const, hx.asInt?, Option.getD_some]
    exact ⟨fun T => FaithfulReading.number_literal hx he, he⟩
  | @cast Γ t u a ht hu _ ih =>
    rw [exact, Bool.and_eq_true] at he
    obtain ⟨hvalue, -⟩ := ih hρ he.1 htoInt
    have hkeeps := htoInt hu hvalue ▸ he.2
    refine ⟨fun T => ?_, hkeeps⟩
    rw [value, hvalue, integer_cast, FaithfulReading.scalar_index hu, FaithfulReading.scalar_index ht,
      R.cast_index ht (FaithfulReading.keeps_index ht ▸ hkeeps)]
  | @bin Γ op t u a b hop ha hb iha ihb =>
    simp only [exact, Bool.and_eq_true, Bool.or_eq_true, Bool.not_eq_true', decide_eq_false_iff_not, bne_iff_ne] at he
    obtain ⟨⟨⟨hea, heb⟩, hdiv⟩, hkeeps⟩ := he
    obtain ⟨hva, hka⟩ := iha hρ hea htoInt
    obtain ⟨hvb, hkb⟩ := ihb hρ heb htoInt
    have hresult : op.isLogical = false → R.keeps t (op.onInts (a.integer ρ) (b.integer ρ)) := by
      intro hlogical
      obtain ht | rfl := ha.kind
      · rw [ha.dtype, htoInt ht hva, htoInt ht hvb] at hkeeps
        exact hkeeps.resolve_left (by rw [hlogical]; exact Bool.false_ne_true)
      · exact FaithfulReading.keeps_bool
    have hdivides : op.Divides → b.integer ρ ≠ 0 := by
      intro hdivides
      have ht : t.IsIndex := by
        obtain rfl | rfl := hdivides <;> cases hop <;> first | assumption | contradiction
      have hne := hdiv.resolve_left fun hnot => hnot hdivides
      rwa [htoInt ht hvb] at hne
    refine ⟨fun T => ?_, ?_⟩
    · rw [value, hva, hvb, integer_bin, ha.dtype]
      exact FaithfulReading.binary_scalar hop ha.kind (fun heq => (heq ▸ ha).truth ρ)
        (fun heq => (heq ▸ hb).truth ρ) hka hkb
        hdivides hresult
    · cases hop with
      | arith hop => exact hresult hop
      | _ => exact FaithfulReading.keeps_bool
  | @not Γ a _ ih =>
    obtain ⟨hvalue, -⟩ := ih hρ he htoInt
    refine ⟨fun T => ?_, FaithfulReading.keeps_bool⟩
    rw [value, hvalue, integer_not, FaithfulReading.scalar_bool, R.negate_flag, FaithfulReading.scalar_toInt]
    exact congrArg R.flag (by by_cases ha : a.integer ρ = 0 <;> simp [ha])
  | @select Γ t c a b _ ha hb ihc iha ihb =>
    simp only [exact, Bool.and_eq_true] at he
    obtain ⟨hvc, -⟩ := ihc hρ he.1.1 htoInt
    obtain ⟨hva, hka⟩ := iha hρ he.1.2 htoInt
    obtain ⟨hvb, hkb⟩ := ihb hρ he.2 htoInt
    refine ⟨fun T => ?_, ?_⟩
    · rw [value, hvc, hva, hvb, integer_select, FaithfulReading.scalar_bool, ha.dtype]
      obtain ht | rfl := ha.kind
      · rw [FaithfulReading.keeps_index ht] at hka hkb
        rw [FaithfulReading.scalar_index ht, FaithfulReading.scalar_index ht, FaithfulReading.scalar_index ht,
          R.choose_index ht hka hkb]
        by_cases hc : c.integer ρ = 0 <;> simp [hc]
      · rw [FaithfulReading.scalar_bool, FaithfulReading.scalar_bool, FaithfulReading.scalar_bool, R.choose_flag]
        by_cases hc : c.integer ρ = 0 <;> simp [hc]
    · rw [integer_select]
      split
      · exact hkb
      · exact hka
  | @bind Γ t v a b hv _ _ iha ihb =>
    rw [exact, Bool.and_eq_true] at he
    obtain ⟨hva, -⟩ := iha hρ he.1 htoInt
    have hassign : ∀ x : V, π.assign [v] [x] = Function.update π v.id x := fun _ => rfl
    have hbody := he.2
    rw [hassign, hva, FaithfulReading.scalar_index hv] at hbody
    obtain ⟨hvb, hkb⟩ := ihb (hρ.extend v _) hbody fun {a u k} hu ha => by
      rw [toInt, ha, FaithfulReading.scalar_index hu, R.toInt_index]
    refine ⟨fun T => ?_, hkb⟩
    rw [value, hassign, hva, FaithfulReading.scalar_index hv, integer_bind]
    exact hvb T
  | @likely Γ c _ ih =>
    rw [exact, exact_ofList, List.all_cons, List.all_nil, Bool.and_true] at he
    obtain ⟨hvalue, hkeeps⟩ := ih hρ he htoInt
    refine ⟨fun T => ?_, hkeeps⟩
    rw [value, integer_likely, ← hvalue T]
    exact R.likely _

/-- A well-typed expression has the value that stands for its number. -/
theorem Expr.Typed.value_eq (h : e.Typed Γ t) (hρ : R.Represents Γ ρ π) (he : e.exact R π) :
    e.value R.toReading T π = R.scalar t (e.integer ρ) :=
  (h.value_and_keeps hρ he).1 T

theorem Expr.Amounts.value_eq (h : e.Amounts Γ ρ n) (hρ : R.Represents Γ ρ π) (he : e.exact R π) :
    e.value R.toReading T π = R.index n := by
  obtain ⟨t, ht, h⟩ := h
  rw [h.typed.value_eq hρ he, FaithfulReading.scalar_index ht, h.value]

/-- A condition holds if and only if its number is not 0. -/
theorem Expr.Evaluates.truth_eq {B : List Nat} {H : Prop} (h : Evaluates Γ B H ρ .bool e n) (hρ : R.Represents Γ ρ π)
    (he : e.exact R π) : R.truth (e.value R.toReading T π) = decide (e.integer ρ ≠ 0) := by
  rw [h.typed.value_eq hρ he, FaithfulReading.scalar_bool, R.truth_flag]
  by_cases he : e.integer ρ = 0 <;> simp [he]

/-- Whether an expression is exact depends only on its free variables. -/
theorem Expr.exact_congr {σ : Valuation V} (h : ∀ x ∈ e.freeIds, π x = σ x) : e.exact R π = e.exact R σ := by
  have htoInt : ∀ {a : Expr} {π σ : Valuation V}, (∀ x ∈ a.freeIds, π x = σ x) → a.toInt R π = a.toInt R σ :=
    fun ha => congrArg R.toInt (value_congr (fun _ _ => rfl) ha)
  induction e generalizing π σ with
  | var v => rw [exact, exact, htoInt h]
  | const | str | load | reduce => rfl
  | cast t a ih => rw [exact, exact, ih h, htoInt (a := a) h]
  | bin op a b iha ihb =>
    simp only [freeIds, List.forall_mem_append] at h
    rw [exact, exact, iha h.1, ihb h.2, htoInt h.1, htoInt h.2]
  | not a ih | broadcast a _ ih => exact ih h
  | select c a b ihc iha ihb =>
    simp only [freeIds, List.forall_mem_append] at h
    rw [exact, exact, ihc h.1.1, iha h.1.2, ihb h.2]
  | ramp a b _ iha ihb =>
    simp only [freeIds, List.forall_mem_append] at h
    rw [exact, exact, iha h.1, ihb h.2]
  | call t name args kind func index ih =>
    rw [exact, exact, exact_ofList, exact_ofList, Bool.eq_iff_iff, List.all_eq_true, List.all_eq_true]
    refine forall₂_congr fun a ha => ?_
    rw [ih a ha fun x hx => h x (mem_freeIds_ofList.mpr ⟨a, ha, hx⟩)]
  | bind v a b iha ihb =>
    simp only [freeIds, List.forall_mem_append] at h
    rw [exact, exact, iha h.1, value_congr (fun _ _ => rfl) h.1]
    congr 1
    refine ihb fun x hx => Valuation.assign_congr (fun hv => h.2 x ?_) _
    simpa [hx] using hv

/-- Where nothing is bound, all variables of a well-typed expression are those of the context. -/
theorem Expr.Typed.mem_vars (h : e.Typed Γ t) (hbound : e.boundVars = []) : ∀ v ∈ e.vars, Γ v.id = some v.dtype := by
  induction h with
  | var hv => simpa [vars, postorder, asVar?] using hv
  | const => simp [vars, postorder, asVar?]
  | cast _ _ _ ih =>
    rw [boundVars_cast] at hbound
    simpa [vars, postorder, asVar?] using ih hbound
  | bin _ _ _ iha ihb =>
    rw [boundVars_bin, List.append_eq_nil_iff] at hbound
    have ha := iha hbound.1
    have hb := ihb hbound.2
    simp only [vars, postorder, List.filterMap_append, List.mem_append] at ha hb ⊢
    rintro v ((hv | hv) | hv)
    · exact ha v hv
    · exact hb v hv
    · simp [asVar?] at hv
  | not _ ih =>
    rw [boundVars_not] at hbound
    simpa [vars, postorder, asVar?] using ih hbound
  | select _ _ _ ihc iha ihb =>
    rw [boundVars_select, List.append_eq_nil_iff, List.append_eq_nil_iff] at hbound
    have hc := ihc hbound.1.1
    have ha := iha hbound.1.2
    have hb := ihb hbound.2
    simp only [vars, postorder, List.filterMap_append, List.mem_append] at hc ha hb ⊢
    rintro v (((hv | hv) | hv) | hv)
    · exact hc v hv
    · exact ha v hv
    · exact hb v hv
    · simp [asVar?] at hv
  | bind =>
    rw [boundVars_bind] at hbound
    simp at hbound
  | likely _ ih =>
    rw [boundVars_likely] at hbound
    simpa [vars, postorder, asVar?] using ih hbound

/-- No part of a well-typed expression is a reduction. -/
theorem Expr.Typed.opaqueVars_eq (h : e.Typed Γ t) : e.opaqueVars = [] := by
  induction h with
  | var | const => rfl
  | @cast Γ t u a _ _ _ ih =>
    have hparts : (Expr.cast t a).opaqueVars = a.opaqueVars := by simp [opaqueVars, heads, postorder, head, Head.opaqueVars]
    rw [hparts, ih]
  | @bin Γ op t u a b _ _ _ iha ihb =>
    have hparts : (Expr.bin op a b).opaqueVars = a.opaqueVars ++ b.opaqueVars := by
      simp [opaqueVars, heads, postorder, head, Head.opaqueVars]
    rw [hparts, iha, ihb, List.append_nil]
  | @not Γ a _ ih =>
    have hparts : (Expr.not a).opaqueVars = a.opaqueVars := by simp [opaqueVars, heads, postorder, head, Head.opaqueVars]
    rw [hparts, ih]
  | @select Γ t c a b _ _ _ ihc iha ihb =>
    have hparts : (Expr.select c a b).opaqueVars = c.opaqueVars ++ a.opaqueVars ++ b.opaqueVars := by
      simp [opaqueVars, heads, postorder, head, Head.opaqueVars]
    rw [hparts, ihc, iha, ihb, List.append_nil, List.append_nil]
  | @bind Γ t v a b _ _ _ iha ihb =>
    have hparts : (Expr.bind v a b).opaqueVars = a.opaqueVars ++ b.opaqueVars := by
      simp [opaqueVars, heads, postorder, head, Head.opaqueVars]
    rw [hparts, iha, ihb, List.append_nil]
  | @likely Γ c _ ih =>
    have hparts : (Expr.call .bool "likely" [c] .pureIntrinsic none 0).opaqueVars = c.opaqueVars := by
      simp [opaqueVars, heads, postorder, head, Head.opaqueVars]
    rw [hparts, ih]

theorem Expr.Evaluates.boundVars_eq {H : Prop} (h : Evaluates Γ [] H ρ t e n) : e.boundVars = [] :=
  List.eq_nil_iff_forall_not_mem.mpr fun x hx => List.not_mem_nil (h.bound x hx)

/-- Where nothing is bound, nothing catches what a substitution puts for variables of the context. -/
theorem Expr.Evaluates.safe {H : Prop} (h : Evaluates Γ [] H ρ t e n) (σ : Subst)
    (htyped : ∀ v r, Γ v.id = some v.dtype → σ.find? v = some r → r.dtype = v.dtype) : σ.Safe e where
  typed v hv r hr := htyped v r (h.typed.mem_vars h.boundVars_eq v hv) hr
  binders x hx := absurd (h.bound x hx) List.not_mem_nil
  fixed x hx := by
    rw [h.typed.opaqueVars_eq] at hx
    cases hx

end Value

end TensorNest

import Mathlib.Algebra.Group.Int.Defs
import Mathlib.Algebra.Group.Nat.Defs
import Mathlib.Tactic.SplitIfs
import TensorNest.DataType.Combine
import TensorNest.Expr.Basic

/-! # Names of data types

The name of a data type is read back as the type (`DataType.parse_text_iff`), for all types that come from names by
taking other lanes, one lane, or the truth values of a comparison (`DataType.Derived`), with two exceptions: the name
of a vector of truth values is the name of no type, and a count of lanes of more digits than an integer is read from
can not be read. Widths and counts are written in plain digits and read in those of any script. -/

namespace TensorNest

/-! ### Digits -/

namespace Text

variable {c : Char} {cs : List Char} {d n : Nat}

theorem digitValue?_of_isDigit (h : c.isDigit) : digitValue? c = some (c.toNat - '0'.toNat) := by
  have hrange := Char.isDigit_iff_toNat.mp h
  have hplain : (decide (0x30 ≤ c.toNat) && decide (c.toNat < 0x30 + 10)) = true := by
    simp only [Bool.and_eq_true, decide_eq_true_eq]
    exact ⟨hrange.1, Nat.lt_succ_of_le hrange.2⟩
  have hzeros : zeros = 0x30 :: zeros.tail := rfl
  rw [digitValue?, hzeros, List.find?_cons, hplain]
  rfl

theorem isDecimal_of_isDigit (h : c.isDigit) : isDecimal c := by
  rw [isDecimal, digitValue?_of_isDigit h]
  rfl

theorem digitValue?_lt (h : digitValue? c = some d) : d < 10 := by
  obtain ⟨z, hz, rfl⟩ := Option.map_eq_some_iff.mp h
  have := List.find?_some hz
  simp only [Bool.and_eq_true, decide_eq_true_eq] at this
  omega

theorem isDigit_of_mem_toDigits (h : c ∈ Nat.toDigits 10 n) : c.isDigit :=
  Nat.isDigit_of_mem_toDigits (by decide) (by decide) h

/-- The digits of a number are read as the number. -/
theorem readDigits?_toDigits (n : Nat) : readDigits? (Nat.toDigits 10 n) = some n := by
  have hfold : ∀ (cs : List Char) (m : Nat), (∀ c ∈ cs, c.isDigit) →
      cs.foldlM (fun n c => (digitValue? c).map (10 * n + ·)) m = some (Nat.ofDigitChars 10 cs m) := by
    intro cs
    induction cs with
    | nil => exact fun m _ => rfl
    | cons c cs ih =>
      intro m hcs
      rw [List.foldlM_cons, digitValue?_of_isDigit (hcs c List.mem_cons_self), Nat.ofDigitChars_cons]
      exact ih _ fun x hx => hcs x (List.mem_cons_of_mem c hx)
  have hne : (Nat.toDigits 10 n).isEmpty = false := List.isEmpty_eq_false_iff.mpr Nat.toDigits_ne_nil
  rw [readDigits?, hne, if_neg Bool.false_ne_true, hfold _ _ fun c hc => isDigit_of_mem_toDigits hc,
    Nat.ofDigitChars_ten_toDigits]

/-- What is read as a number consists of decimal digits, and is less than the power of ten with as many zeros. -/
theorem readDigits?_eq_some (h : readDigits? cs = some n) : (∀ c ∈ cs, isDecimal c) ∧ n < 10 ^ cs.length := by
  have hfold : ∀ (cs : List Char) (m n : Nat), cs.foldlM (fun n c => (digitValue? c).map (10 * n + ·)) m = some n →
      (∀ c ∈ cs, isDecimal c) ∧ n < (m + 1) * 10 ^ cs.length := by
    intro cs
    induction cs with
    | nil =>
      intro m n hn
      obtain rfl : m = n := Option.some.inj hn
      exact ⟨List.forall_mem_nil _, by simp⟩
    | cons c cs ih =>
      intro m n hn
      rw [List.foldlM_cons] at hn
      cases hc : digitValue? c with
      | none =>
        rw [hc] at hn
        cases hn
      | some d =>
        rw [hc] at hn
        obtain ⟨hcs, hlt⟩ := ih (10 * m + d) n hn
        refine ⟨List.forall_mem_cons.mpr ⟨by rw [isDecimal, hc]; rfl, hcs⟩, Nat.lt_of_lt_of_le hlt ?_⟩
        have hd := digitValue?_lt hc
        calc (10 * m + d + 1) * 10 ^ cs.length ≤ ((m + 1) * 10) * 10 ^ cs.length := Nat.mul_le_mul_right _ (by omega)
          _ = (m + 1) * 10 ^ (cs.length + 1) := by rw [Nat.mul_assoc, Nat.pow_succ']
  rw [readDigits?] at h
  split_ifs at h
  obtain ⟨hcs, hlt⟩ := hfold cs 0 n h
  exact ⟨hcs, by simpa using hlt⟩

end Text

/-! ### Runs of digits -/

section Runs
variable {α : Type} {p : α → Bool} {xs ys ds r : List α}

/-- What stands together between separators is part of one of the pieces. -/
theorem exists_mem_splitOnP (xs ys : List α) (h : ∀ d ∈ ds, p d = false) :
    ∃ r ∈ (xs ++ (ds ++ ys)).splitOnP p, ds.length ≤ r.length := by
  induction xs with
  | nil =>
    have hhead : ∃ r rs, (ds ++ ys).splitOnP p = r :: rs ∧ ds.length ≤ r.length := by
      induction ds with
      | nil =>
        obtain ⟨r, rs, hrs⟩ := List.exists_cons_of_ne_nil (List.splitOnP_ne_nil p ys)
        exact ⟨r, rs, hrs, Nat.zero_le _⟩
      | cons d ds ih =>
        obtain ⟨hd, hds⟩ := List.forall_mem_cons.mp h
        obtain ⟨r, rs, hrs, hlen⟩ := ih hds
        refine ⟨d :: r, rs, ?_, Nat.succ_le_succ hlen⟩
        rw [List.cons_append, List.splitOnP_cons_eq_if_modifyHead, hd, hrs, if_neg Bool.false_ne_true]
        rfl
    obtain ⟨r, rs, hrs, hlen⟩ := hhead
    exact ⟨r, by rw [List.nil_append, hrs]; exact List.mem_cons_self, hlen⟩
  | cons x xs ih =>
    obtain ⟨r, hr, hlen⟩ := ih
    rw [List.cons_append, List.splitOnP_cons_eq_if_modifyHead]
    split_ifs with hx
    · exact ⟨r, List.mem_cons_of_mem _ hr, hlen⟩
    · obtain ⟨q, qs, hqs⟩ := List.exists_cons_of_ne_nil (List.splitOnP_ne_nil p (xs ++ (ds ++ ys)))
      rw [hqs] at hr ⊢
      rcases List.mem_cons.mp hr with rfl | hr
      · exact ⟨x :: r, List.mem_cons_self, Nat.le_succ_of_le hlen⟩
      · exact ⟨r, List.mem_cons_of_mem _ hr, hlen⟩

/-- Separators in front add empty pieces only. -/
theorem mem_splitOnP_of_separators (h : ∀ x ∈ xs, p x) (hr : r ∈ (xs ++ ys).splitOnP p) : r = [] ∨ r ∈ ys.splitOnP p := by
  induction xs with
  | nil => exact .inr hr
  | cons x xs ih =>
    obtain ⟨hx, hxs⟩ := List.forall_mem_cons.mp h
    rw [List.cons_append, List.splitOnP_cons_eq_if_modifyHead, if_pos hx] at hr
    rcases List.mem_cons.mp hr with hr | hr
    · exact .inl hr
    · exact ih hxs hr

end Runs

/-! ### Written names -/

namespace DataType

variable {t : DataType} {s : String} {cs : List Char}

/-- The lanes at the end of a name. -/
def laneChars (lanes : Int) : List Char :=
  if lanes = 1 then [] else 'x' :: Nat.toDigits 10 lanes.toNat

/-- A name made of a code, a width and lanes. -/
def nameChars (t : DataType) : List Char :=
  t.code.text.toList ++ (Nat.toDigits 10 t.bits ++ laneChars t.lanes)

theorem toList_toString_int {n : Int} (hn : 0 ≤ n) : (toString n).toList = Nat.toDigits 10 n.toNat := by
  obtain ⟨k, rfl⟩ := Int.eq_ofNat_of_zero_le hn
  exact Nat.toList_repr

theorem toList_text (hhandle : t.isHandle = false) (hbool : t.isBool = false) (hlanes : 0 ≤ t.lanes) :
    t.text.toList = t.nameChars := by
  have hbase : t.baseText.toList = t.code.text.toList ++ Nat.toDigits 10 t.bits := by
    rw [baseText, hbool, if_neg Bool.false_ne_true, String.toList_append]
    exact congrArg _ Nat.toList_repr
  rw [text, hhandle, if_neg Bool.false_ne_true, nameChars, laneChars]
  by_cases hone : t.lanes = 1
  · rw [hone, beq_self_eq_true, if_pos rfl, if_pos rfl, List.append_nil, hbase]
  · rw [beq_eq_false_iff_ne.mpr hone, if_neg Bool.false_ne_true, if_neg hone, String.toList_append, String.toList_append,
      hbase,
      toList_toString_int hlanes, List.append_assoc, List.append_assoc]
    rfl

theorem ofWidth?_written (code : TypeCode) (bits : Nat) {lanes : Int} (hlanes : 0 ≤ lanes) :
    ofWidth? code (Nat.toDigits 10 bits ++ laneChars lanes) = some ⟨code, bits, lanes⟩ := by
  have hdigits : ∀ c ∈ Nat.toDigits 10 bits, (c != 'x') = true := by
    intro c hc
    have hdigit := Text.isDigit_of_mem_toDigits hc
    refine bne_iff_ne.mpr ?_
    rintro rfl
    cases hdigit
  rw [ofWidth?, List.takeWhile_append_of_pos hdigits, List.dropWhile_append_of_pos hdigits, laneChars]
  by_cases hone : lanes = 1
  · rw [if_pos hone, List.takeWhile_nil, List.append_nil, List.dropWhile_nil, hone]
    show (Text.readDigits? (Nat.toDigits 10 bits)).map _ = _
    rw [Text.readDigits?_toDigits]
    rfl
  · rw [if_neg hone, List.takeWhile_cons_of_neg (by simp), List.dropWhile_cons_of_neg (by simp), List.append_nil]
    show (Text.readDigits? (Nat.toDigits 10 bits) >>= fun b => Text.readDigits? (Nat.toDigits 10 lanes.toNat) >>= fun l =>
      some (⟨code, b, l⟩ : DataType)) = _
    rw [Text.readDigits?_toDigits, Text.readDigits?_toDigits]
    show some (⟨code, bits, lanes.toNat⟩ : DataType) = _
    rw [Int.toNat_of_nonneg hlanes]

theorem ofCodeAndWidth?_nameChars (hhandle : t.isHandle = false) (hlanes : 0 ≤ t.lanes) :
    ofCodeAndWidth? t.nameChars = some t := by
  obtain ⟨code, bits, lanes⟩ := t
  have hwidth := ofWidth?_written code bits hlanes
  cases code with
  | handle => cases hhandle
  | int | uint | float => simp [ofCodeAndWidth?, codeNames, nameChars, TypeCode.text, hwidth]

theorem mem_nameChars {c : Char} (hc : c ∈ t.nameChars) : c ∈ t.code.text.toList ∨ c.isDigit ∨ c = 'x' := by
  rcases List.mem_append.mp hc with hc | hc
  · exact .inl hc
  · refine .inr ?_
    rcases List.mem_append.mp hc with hc | hc
    · exact .inl (Text.isDigit_of_mem_toDigits hc)
    · rw [laneChars] at hc
      split_ifs at hc
      · cases hc
      · rcases List.mem_cons.mp hc with hc | hc
        · exact .inr hc
        · exact .inl (Text.isDigit_of_mem_toDigits hc)

theorem parse?_of_toList (hs : s.toList = t.nameChars) (hhandle : t.isHandle = false) (hlanes : 0 ≤ t.lanes) :
    parse? s = some t := by
  have hfirst : ∀ w : String, w = "handle" ∨ w = "bool" → s ≠ w := by
    -- the names of the two differ from all others in their first letter
    rintro w hw rfl
    obtain ⟨code, bits, lanes⟩ := t
    cases code with
    | handle => cases hhandle
    | int | uint | float => rcases hw with rfl | rfl <;> simp [nameChars, TypeCode.text] at hs
  have hend : (s.toList.getLast? == some '\n') = false := by
    refine beq_eq_false_iff_ne.mpr fun h => ?_
    rw [hs] at h
    obtain ⟨code, bits, lanes⟩ := t
    rcases mem_nameChars (List.mem_of_getLast? h) with h | h | h
    · cases code <;> simp [TypeCode.text] at h
    · cases h
    · cases h
  rw [parse?, beq_eq_false_iff_ne.mpr (hfirst _ (.inl rfl)), beq_eq_false_iff_ne.mpr (hfirst _ (.inr rfl)),
    if_neg Bool.false_ne_true,
    if_neg Bool.false_ne_true]
  show ofCodeAndWidth? (if (s.toList.getLast? == some '\n') = true then s.toList.dropLast else s.toList) = _
  rw [hend, if_neg Bool.false_ne_true, hs]
  exact ofCodeAndWidth?_nameChars hhandle hlanes

/-- A number that is written is read back if it has no more digits than an integer may have. -/
def Legible (n : Nat) : Prop :=
  n < 10 ^ Decimal.digitLimit

theorem length_toDigits_le {n : Nat} : (Nat.toDigits 10 n).length ≤ Decimal.digitLimit ↔ Legible n :=
  Nat.length_toDigits_le_iff (by decide) (by decide)

/-- No run of digits of a name is too long if its width and its lanes are not. -/
theorem runs_nameChars : (∀ r ∈ t.nameChars.splitOnP (!Text.isDecimal ·), r.length ≤ Decimal.digitLimit) ↔
    Legible t.bits ∧ (t.lanes = 1 ∨ Legible t.lanes.toNat) := by
  have hdigits (n : Nat) : ∀ c ∈ Nat.toDigits 10 n, (!Text.isDecimal c) = false := fun c hc => by
    rw [Text.isDecimal_of_isDigit (Text.isDigit_of_mem_toDigits hc), Bool.not_true]
  have hcode : ∀ c ∈ t.code.text.toList, (!Text.isDecimal c) = true := by
    rw [← List.all_eq_true]
    cases t.code <;> decide +kernel
  have hx : (!Text.isDecimal 'x') = true := by decide
  simp only [← length_toDigits_le]
  constructor
  · intro h
    refine ⟨?_, ?_⟩
    · obtain ⟨r, hr, hlen⟩ := exists_mem_splitOnP t.code.text.toList (laneChars t.lanes) (hdigits t.bits)
      exact Nat.le_trans hlen (h r hr)
    · by_cases hone : t.lanes = 1
      · exact .inl hone
      · have hlast := exists_mem_splitOnP (t.code.text.toList ++ (Nat.toDigits 10 t.bits ++ ['x'])) []
          (hdigits t.lanes.toNat)
        obtain ⟨r, hr, hlen⟩ := hlast
        refine .inr (Nat.le_trans hlen (h r ?_))
        rw [nameChars, laneChars, if_neg hone]
        simpa using hr
  · rintro ⟨hbits, hlanes⟩ r hr
    rcases mem_splitOnP_of_separators hcode hr with rfl | hr
    · exact Nat.zero_le _
    · rw [laneChars] at hr
      split_ifs at hr with hone
      · rw [List.append_nil, List.splitOnP_eq_singleton (hdigits _)] at hr
        rwa [List.mem_singleton.mp hr]
      · rw [List.splitOnP_append_cons_of_forall_mem (hdigits _) _ hx, List.splitOnP_eq_singleton (hdigits _)] at hr
        rcases List.mem_cons.mp hr with rfl | hr
        · exact hbits
        · rw [List.mem_singleton.mp hr]
          exact hlanes.resolve_left hone

/-- A name is read if its runs of digits are short enough. -/
theorem parse_eq_ok_iff : parse s = .ok t ↔
    parse? s = some t ∧ ∀ r ∈ s.toList.splitOnP (!Text.isDecimal ·), r.length ≤ Decimal.digitLimit := by
  have hshort : (s.toList.splitOnP (!Text.isDecimal ·)).find? (Decimal.digitLimit < ·.length) = none ↔
      ∀ r ∈ s.toList.splitOnP (!Text.isDecimal ·), r.length ≤ Decimal.digitLimit := by
    simp only [List.find?_eq_none, decide_eq_true_eq, Nat.not_lt]
  rw [← hshort, parse]
  split
  · rename_i hnone
    rw [hnone]
    exact ⟨nofun, fun h => nomatch h.1⟩
  · rename_i u hu
    rw [hu]
    split
    · rename_i hfind
      rw [hfind]
      exact ⟨nofun, fun h => nomatch h.2⟩
    · rename_i hfind
      rw [hfind]
      exact ⟨fun h => ⟨congrArg some (Except.ok.inj h), rfl⟩, fun h => congrArg Except.ok (Option.some.inj h.1)⟩

/-! ### Types that come from names -/

/-- The types that names and operations on them give: a type that is read, one with other lanes, the type of one lane,
    and the type of a comparison of operands of such a type. -/
inductive Derived : DataType → Prop
  | parsed {s : String} {t : DataType} (h : parse s = .ok t) : Derived t
  | withLanes {t : DataType} (h : Derived t) (n : Nat) : Derived (t.withLanes n)
  | element {t : DataType} (h : Derived t) : Derived t.element
  | comparison {op : BinOp} {a b : Expr} (hop : op.isComparison) (h : Derived a.dtype) : Derived (Expr.bin op a b).dtype

/-- What is known of a type that comes from a name: its lanes are counted, a handle has the width of handles, and any
    other width can be read. -/
structure Regular (t : DataType) : Prop where
  lanes : 0 ≤ t.lanes
  handle : t.isHandle → t.bits = 64
  bits : t.isHandle = false → Legible t.bits

theorem legible_iff {n : Nat} : Legible n ↔ (n : Int) < 10 ^ Decimal.digitLimit := by
  have hpow : ((10 ^ Decimal.digitLimit : Nat) : Int) = 10 ^ Decimal.digitLimit := Int.natCast_pow ..
  rw [Legible, ← hpow, Int.ofNat_lt]

theorem legible_of_digits {n : Nat} (h : (Nat.toDigits 10 n).length ≤ 2) : Legible n :=
  length_toDigits_le.mp (Nat.le_trans h (by decide))

theorem regular_of_ofWidth? {code : TypeCode} (hcode : code ≠ .handle) (h : ofWidth? code cs = some t) :
    0 ≤ t.lanes ∧ t.isHandle = false ∧ ∃ ds ys, cs = ds ++ ys ∧ Text.readDigits? ds = some t.bits := by
  have hhandle (b : Nat) (l : Int) : (⟨code, b, l⟩ : DataType).isHandle = false := beq_eq_false_iff_ne.mpr hcode
  have hsplit := (List.takeWhile_append_dropWhile (p := (· != 'x')) (l := cs)).symm
  rw [ofWidth?] at h
  split at h
  · obtain ⟨b, hb, rfl⟩ := Option.map_eq_some_iff.mp h
    exact ⟨Int.one_nonneg, hhandle _ _, _, _, hsplit, hb⟩
  · obtain ⟨b, hb, h⟩ := Option.bind_eq_some_iff.mp h
    obtain ⟨l, -, h⟩ := Option.bind_eq_some_iff.mp h
    cases h
    exact ⟨Int.natCast_nonneg l, hhandle _ _, _, _, hsplit, hb⟩

theorem regular_of_ofCodeAndWidth? (h : ofCodeAndWidth? cs = some t) :
    0 ≤ t.lanes ∧ t.isHandle = false ∧ ∃ xs ds ys, cs = xs ++ (ds ++ ys) ∧ Text.readDigits? ds = some t.bits := by
  obtain ⟨⟨name, code⟩, hmem, hwidth⟩ := List.exists_of_findSome?_eq_some h
  have hcode : code ≠ .handle := by
    simp only [codeNames, List.mem_cons, List.not_mem_nil, Prod.mk.injEq] at hmem
    rintro rfl
    simp at hmem
  dsimp only at hwidth
  split_ifs at hwidth with hname
  obtain ⟨rest, rfl⟩ := List.isPrefixOf_iff_prefix.mp hname
  rw [List.drop_left] at hwidth
  obtain ⟨hlanes, hhandle, ds, ys, rfl, hdigits⟩ := regular_of_ofWidth? hcode hwidth
  exact ⟨hlanes, hhandle, name, ds, ys, rfl, hdigits⟩

theorem regular_of_parse (h : parse s = .ok t) : t.Regular := by
  obtain ⟨hread, hruns⟩ := parse_eq_ok_iff.mp h
  rw [parse?] at hread
  split at hread
  · cases hread
    exact ⟨by decide, fun _ => rfl, nofun⟩
  · split at hread
    · cases hread
      exact ⟨by decide, nofun, fun _ => legible_of_digits (by decide)⟩
    · obtain ⟨hlanes, hhandle, xs, ds, ys, hcs, hdigits⟩ := regular_of_ofCodeAndWidth? hread
      obtain ⟨hdecimal, hlt⟩ := Text.readDigits?_eq_some hdigits
      -- at most one newline was cut off
      obtain ⟨zs, hs⟩ : ∃ zs, s.toList = xs ++ (ds ++ zs) := by
        split_ifs at hcs with hend
        · obtain ⟨ws, hws⟩ := List.getLast?_eq_some_iff.mp (beq_iff_eq.mp hend)
          rw [hws, List.dropLast_concat] at hcs
          exact ⟨ys ++ ['\n'], by rw [hws, hcs, List.append_assoc, List.append_assoc]⟩
        · exact ⟨ys, hcs⟩
      have hseparate : ∀ c ∈ ds, (!Text.isDecimal c) = false := fun c hc => by rw [hdecimal c hc, Bool.not_true]
      obtain ⟨r, hr, hlen⟩ := exists_mem_splitOnP xs zs hseparate
      rw [← hs] at hr
      have hbits : Legible t.bits :=
        Nat.lt_of_lt_of_le hlt (Nat.pow_le_pow_right (by decide) (Nat.le_trans hlen (hruns r hr)))
      refine ⟨hlanes, fun h => ?_, fun _ => hbits⟩
      rw [hhandle] at h
      cases h

theorem Derived.regular (h : t.Derived) : t.Regular := by
  induction h with
  | parsed h => exact regular_of_parse h
  | withLanes _ n ih => exact ⟨Int.natCast_nonneg n, ih.handle, ih.bits⟩
  | element _ ih => exact ⟨Int.one_nonneg, ih.handle, ih.bits⟩
  | @comparison op a b hop _ ih =>
    have hdtype : (Expr.bin op a b).dtype = DataType.bool.withLanes a.dtype.lanes := by
      cases op <;> first | rfl | cases hop
    have hone : Legible 1 := legible_of_digits (by decide)
    rw [hdtype]
    exact ⟨ih.lanes, nofun, fun _ => hone⟩

/-! ### Reading what was written -/

/-- The name of a vector of truth values is the name of no type. -/
theorem parse_text_bool (hbool : t.isBool) (hlanes : t.lanes ≠ 1) : parse t.text = .error (.unknownDataType t.text) := by
  have hhandle : t.isHandle = false := by
    simp only [isBool, Bool.and_eq_true, beq_iff_eq] at hbool
    rw [isHandle, hbool.1]
    rfl
  have htext : t.text = "bool" ++ "x" ++ toString t.lanes := by
    rw [text, hhandle, if_neg Bool.false_ne_true, beq_eq_false_iff_ne.mpr hlanes, if_neg Bool.false_ne_true, baseText,
      hbool, if_pos rfl]
  have hlist : t.text.toList = 'b' :: 'o' :: 'o' :: 'l' :: 'x' :: (toString t.lanes).toList := by
    rw [htext, String.toList_append]
    rfl
  have hne (w : String) (hw : w.toList.take 5 ≠ ['b', 'o', 'o', 'l', 'x']) : (t.text == w) = false := by
    refine beq_eq_false_iff_ne.mpr ?_
    rintro rfl
    rw [hlist] at hw
    exact hw rfl
  have hnone (cs : List Char) : ofCodeAndWidth? ('b' :: cs) = none := by
    simp [ofCodeAndWidth?, codeNames]
  have hread : parse? t.text = none := by
    rw [parse?, hne "handle" (by decide), hne "bool" (by decide), if_neg Bool.false_ne_true, if_neg Bool.false_ne_true,
      hlist]
    dsimp only
    split_ifs
    · exact hnone _
    · exact hnone _
  rw [parse, hread]

/-- The name of a type that comes from a name is read back as the type, unless it is a vector of truth values or its
    lanes have too many digits. Handles have one lane. -/
theorem parse_text_iff (h : t.Derived) (hhandle : t.isHandle → t.lanes = 1) :
    parse t.text = .ok t ↔ (t.isBool → t.lanes = 1) ∧ t.lanes < 10 ^ Decimal.digitLimit := by
  obtain ⟨hlanes, hwidth, hbits⟩ := h.regular
  have hlegible : Legible t.lanes.toNat ↔ t.lanes < 10 ^ Decimal.digitLimit := by
    rw [legible_iff, Int.toNat_of_nonneg hlanes]
  have hone : (1 : Int) < 10 ^ Decimal.digitLimit := legible_iff.mp (legible_of_digits (by decide))
  by_cases hh : t.isHandle
  · obtain ⟨code, bits, lanes⟩ := t
    obtain rfl : code = .handle := beq_iff_eq.mp hh
    obtain rfl := hwidth hh
    obtain rfl := hhandle hh
    exact ⟨fun _ => ⟨fun _ => rfl, hone⟩, fun _ => rfl⟩
  · have hh : t.isHandle = false := Bool.not_eq_true _ ▸ hh
    by_cases hb : t.isBool
    · by_cases hscalar : t.lanes = 1
      · obtain ⟨code, bits, lanes⟩ := t
        obtain ⟨rfl, rfl⟩ : code = .uint ∧ bits = 1 := by simpa [isBool] using hb
        obtain rfl := hscalar
        exact ⟨fun _ => ⟨fun _ => rfl, hone⟩, fun _ => rfl⟩
      · rw [parse_text_bool hb hscalar]
        exact ⟨nofun, fun h => absurd (h.1 hb) hscalar⟩
    · have hb : t.isBool = false := Bool.not_eq_true _ ▸ hb
      have htext := toList_text hh hb hlanes
      rw [parse_eq_ok_iff, htext, runs_nameChars, hlegible]
      constructor
      · rintro ⟨-, -, hl | hl⟩
        · exact ⟨fun _ => hl, hl ▸ hone⟩
        · exact ⟨fun h => absurd h (by rw [hb]; exact Bool.false_ne_true), hl⟩
      · rintro ⟨-, hl⟩
        exact ⟨parse?_of_toList htext hh hlanes, hbits hh, .inr hl⟩

namespace Quad

/-- Four single-precision numbers, and the comparison of two variables of this type. -/
def quad : DataType := DataType.float32.withLanes 4
def less : Expr := .bin .lt (.var ⟨0, "a", quad⟩) (.var ⟨1, "b", quad⟩)

theorem derived_quad : quad.Derived :=
  (Derived.parsed (s := "float32") rfl).withLanes 4

/-- The name of the type is read back; that of its comparisons is not. -/
theorem parse_text_quad : quad.Derived ∧ (quad.isHandle → quad.lanes = 1) ∧ parse quad.text = .ok quad ∧
    less.dtype.Derived ∧ parse less.dtype.text ≠ .ok less.dtype := by
  have hcompare : less.dtype.Derived := .comparison rfl derived_quad
  have hlanes : quad.lanes < 10 ^ Decimal.digitLimit := legible_iff.mp (legible_of_digits (n := 4) (by decide))
  refine ⟨derived_quad, nofun, (parse_text_iff derived_quad nofun).mpr ⟨nofun, hlanes⟩, hcompare, fun h => ?_⟩
  exact absurd (((parse_text_iff hcompare nofun).mp h).1 rfl) (by decide)

end Quad

end DataType

end TensorNest

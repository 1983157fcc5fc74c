import Mathlib
import TensorNest.Run.Element

/-!
# Rounding and conversion

Rounding to a format is exact on the values of the format, so that rounding twice is rounding once. A value
has one canonical significand and exponent in a format: `Format.nearest` gives it for a ratio that is such a
value, and the bits of a double are those of its canonical pair. The conversion of numbers to an element type
is idempotent then, whatever the type.

`toBits_ofBits` rests on `Float.Model.UnpackedFloat.pack_unpack`, which no narrower import of the library brings.
-/

namespace TensorNest

namespace Binary

variable {f : Format} {num den m : Nat} {e : Int}

/-! ### Division to the nearest integer -/

theorem divNearest_eq (hden : 0 < den) (h : (num : ℚ) / den = m) : divNearest num den = m := by
  have hq : num = m * den := by
    rw [div_eq_iff (by positivity)] at h
    exact_mod_cast h
  simp [divNearest, hq, Nat.mul_div_cancel _ hden, hden]

theorem divNearest_le (hden : 0 < den) (h : (num : ℚ) / den ≤ m) : divNearest num den ≤ m := by
  have hm : num ≤ m * den := by
    rw [div_le_iff₀ (by positivity)] at h
    exact_mod_cast h
  have hq : num / den ≤ m := (Nat.div_le_iff_le_mul_add_pred hden).mpr (by rw [Nat.mul_comm]; omega)
  have hstrict (hr : 0 < num % den) : num / den + 1 ≤ m := by
    rw [Nat.succ_le_iff, Nat.div_lt_iff_lt_mul hden]
    rcases hm.lt_or_eq with hlt | heq
    · exact hlt
    · simp [heq] at hr
  simp only [divNearest]
  split_ifs with h₁ h₂ h₃
  · exact hq
  · exact hstrict (by omega)
  · exact hq
  · exact hstrict (by omega)

theorem le_divNearest (hden : 0 < den) (h : (m : ℚ) ≤ num / den) : m ≤ divNearest num den := by
  have hm : m * den ≤ num := by
    rw [le_div_iff₀ (by positivity)] at h
    exact_mod_cast h
  have hq : m ≤ num / den := (Nat.le_div_iff_mul_le hden).mpr hm
  simp only [divNearest]
  split_ifs <;> omega

/-! ### The nearest value of a format -/

theorem two_zpow_le_ratio (hden : den ≠ 0) (d : Int) :
    (2 : ℚ) ^ d ≤ num / den ↔
      (if 0 ≤ d then den * Nat.pow 2 d.toNat ≤ num else den ≤ num * Nat.pow 2 (-d).toNat) := by
  have hpos : (0 : ℚ) < den := by positivity
  rw [le_div_iff₀ hpos]
  split_ifs with h
  · obtain ⟨k, rfl⟩ := Int.eq_ofNat_of_zero_le h
    rw [← Nat.cast_le (α := ℚ)]
    simp [mul_comm]
  · obtain ⟨k, hk⟩ := Int.eq_ofNat_of_zero_le (show 0 ≤ -d by omega)
    obtain rfl : d = -(k : Int) := by omega
    rw [← Nat.cast_le (α := ℚ), zpow_neg, inv_mul_le_iff₀ (by positivity)]
    simp [mul_comm]

/-- The unit that a ratio is rounded to is the one at which it has as many binary digits as the format, or
    the least one. -/
theorem unitExp_spec (f : Format) (hnum : num ≠ 0) (hden : den ≠ 0) :
    ∃ top : Int, (2 : ℚ) ^ (top - 1) ≤ num / den ∧ (num : ℚ) / den < 2 ^ top ∧
      f.unitExp num den = max f.minExp (top - f.precision) := by
  have hpos : (0 : ℚ) < den := by positivity
  have hnum₁ : (2 : ℚ) ^ (num.log2 : Int) ≤ num := by exact_mod_cast Nat.log2_self_le hnum
  have hnum₂ : (num : ℚ) < 2 ^ ((num.log2 : Int) + 1) := by exact_mod_cast Nat.lt_log2_self (n := num)
  have hden₁ : (2 : ℚ) ^ (den.log2 : Int) ≤ den := by exact_mod_cast Nat.log2_self_le hden
  have hden₂ : (den : ℚ) < 2 ^ ((den.log2 : Int) + 1) := by exact_mod_cast Nat.lt_log2_self (n := den)
  have hupper : (num : ℚ) / den < 2 ^ ((num.log2 : Int) - den.log2 + 1) := by
    rw [div_lt_iff₀ hpos, show (num.log2 : Int) - den.log2 + 1 = (num.log2 + 1) - den.log2 by ring, zpow_sub₀ two_ne_zero]
    calc (num : ℚ) < 2 ^ ((num.log2 : Int) + 1) := hnum₂
      _ = 2 ^ ((num.log2 : Int) + 1) / 2 ^ (den.log2 : Int) * 2 ^ (den.log2 : Int) := by
        rw [div_mul_cancel₀ _ (by positivity)]
      _ ≤ 2 ^ ((num.log2 : Int) + 1) / 2 ^ (den.log2 : Int) * den := by gcongr
  have hlower : (2 : ℚ) ^ ((num.log2 : Int) - den.log2 - 1) ≤ num / den := by
    rw [le_div_iff₀ hpos, show (num.log2 : Int) - den.log2 - 1 = num.log2 - (den.log2 + 1) by ring, zpow_sub₀ two_ne_zero]
    calc (2 : ℚ) ^ (num.log2 : Int) / 2 ^ ((den.log2 : Int) + 1) * den
        ≤ 2 ^ (num.log2 : Int) / 2 ^ ((den.log2 : Int) + 1) * 2 ^ ((den.log2 : Int) + 1) := by gcongr
      _ = 2 ^ (num.log2 : Int) := div_mul_cancel₀ _ (by positivity)
      _ ≤ num := hnum₁
  by_cases hle : (2 : ℚ) ^ ((num.log2 : Int) - den.log2) ≤ num / den
  · refine ⟨_, by simpa using hle, hupper, ?_⟩
    have hcond := (two_zpow_le_ratio hden _).mp hle
    simp only [Format.unitExp]
    split_ifs at hcond ⊢
    all_goals rfl
  · refine ⟨_, hlower, not_le.mp hle, ?_⟩
    have hcond := mt (two_zpow_le_ratio hden _).mpr hle
    simp only [Format.unitExp]
    split_ifs at hcond ⊢
    all_goals rfl

/-- The significand that a format gives a ratio is the nearest multiple of the unit. -/
theorem nearest_spec (f : Format) (hnum : num ≠ 0) (hden : den ≠ 0) :
    ∃ n d : Nat, 0 < d ∧ (n : ℚ) / d = num / den / 2 ^ f.unitExp num den ∧
      f.nearest num den =
        if f.maxExp < f.unitExp num den ∨ f.unitExp num den = f.maxExp ∧ divNearest n d = 2 ^ f.precision then none
        else some (divNearest n d, f.unitExp num den) := by
  by_cases hE : 0 ≤ f.unitExp num den
  · refine ⟨num, den * 2 ^ (f.unitExp num den).toNat, by positivity, ?_, by simp [Format.nearest, hnum, hE]⟩
    obtain ⟨k, hk⟩ := Int.eq_ofNat_of_zero_le hE
    simp [hk, div_div]
  · refine ⟨num * 2 ^ (-f.unitExp num den).toNat, den, by omega, ?_, by simp [Format.nearest, hnum, hE]⟩
    obtain ⟨k, hk⟩ := Int.eq_ofNat_of_zero_le (show 0 ≤ -f.unitExp num den by omega)
    rw [show f.unitExp num den = -(k : Int) by omega, zpow_neg, div_inv_eq_mul]
    simp [mul_div_right_comm]

/-! ### Canonical pairs -/

/-- The pair by which a format writes a value: the significand has all digits of the format, or the exponent
    is the least one. -/
structure Format.Canonical (f : Format) (m : Nat) (e : Int) : Prop where
  lt : m < 2 ^ f.precision
  minExp_le : f.minExp ≤ e
  le_maxExp : e ≤ f.maxExp
  full : 2 ^ (f.precision - 1) ≤ m ∨ e = f.minExp

/-- A format all values of which are doubles. -/
structure Format.WithinDouble (f : Format) : Prop where
  one_le_precision : 1 ≤ f.precision
  precision_le : f.precision ≤ 53
  le_minExp : -1074 ≤ f.minExp
  minExp_le_maxExp : f.minExp ≤ f.maxExp
  top_le : f.maxExp + f.precision ≤ 1024

theorem withinDouble_format (bits : Nat) : (ElemType.format bits).WithinDouble := by
  unfold ElemType.format
  split_ifs <;> constructor <;> decide

/-- A ratio that is a value of the format is rounded to the canonical pair of this value. -/
theorem Format.Canonical.nearest_eq (hc : f.Canonical m e) (hp : 1 ≤ f.precision) (hden : den ≠ 0)
    (hv : (num : ℚ) / den = m * 2 ^ e) : f.nearest num den = some (m, e) := by
  have hpos : (0 : ℚ) < den := by positivity
  rcases Nat.eq_zero_or_pos m with rfl | hm
  · have hnum : num = 0 := by
      have : (num : ℚ) = 0 := by simpa [hpos.ne'] using hv
      exact_mod_cast this
    have he : e = f.minExp := by
      rcases hc.full with h | h
      · exact absurd h (by simp)
      · exact h
    simp [Format.nearest, hnum, he]
  · have hnum : num ≠ 0 := by
      rintro rfl
      have : (m : ℚ) * 2 ^ e = 0 := by simpa using hv.symm
      have : (0 : ℚ) < m * 2 ^ e := by positivity
      linarith
    obtain ⟨top, hlower, hupper, hunit⟩ := unitExp_spec f hnum hden
    obtain ⟨n, d, hd, hratio, hnearest⟩ := nearest_spec f hnum hden
    have hlt : (m : ℚ) < 2 ^ (f.precision : Int) := by exact_mod_cast hc.lt
    have hunit' : max f.minExp (top - f.precision) = e := by
      rcases hc.full with hfull | rfl
      · -- the significand is full, so that its digits determine the unit
        have hfull' : (2 : ℚ) ^ ((f.precision : Int) - 1) ≤ m := by
          have : ((2 ^ (f.precision - 1) : Nat) : ℚ) ≤ m := by exact_mod_cast hfull
          rw [← Nat.cast_one, ← Nat.cast_sub hp, zpow_natCast]
          simpa using this
        have h₁ : (2 : ℚ) ^ (top - 1) < 2 ^ (f.precision + e : Int) := by
          calc (2 : ℚ) ^ (top - 1) ≤ m * 2 ^ e := hv ▸ hlower
            _ < 2 ^ (f.precision : Int) * 2 ^ e := by gcongr
            _ = 2 ^ (f.precision + e : Int) := (zpow_add₀ two_ne_zero _ _).symm
        have h₂ : (2 : ℚ) ^ ((f.precision : Int) - 1 + e) < 2 ^ top := by
          calc (2 : ℚ) ^ ((f.precision : Int) - 1 + e) = 2 ^ ((f.precision : Int) - 1) * 2 ^ e := zpow_add₀ two_ne_zero _ _
            _ ≤ m * 2 ^ e := by gcongr
            _ < 2 ^ top := hv ▸ hupper
        have h₁ := (zpow_lt_zpow_iff_right₀ (by norm_num : (1 : ℚ) < 2)).mp h₁
        have h₂ := (zpow_lt_zpow_iff_right₀ (by norm_num : (1 : ℚ) < 2)).mp h₂
        have := hc.minExp_le
        omega
      · have h₁ : (2 : ℚ) ^ (top - 1) < 2 ^ (f.precision + f.minExp : Int) := by
          calc (2 : ℚ) ^ (top - 1) ≤ m * 2 ^ f.minExp := hv ▸ hlower
            _ < 2 ^ (f.precision : Int) * 2 ^ f.minExp := by gcongr
            _ = 2 ^ (f.precision + f.minExp : Int) := (zpow_add₀ two_ne_zero _ _).symm
        have h₁ := (zpow_lt_zpow_iff_right₀ (by norm_num : (1 : ℚ) < 2)).mp h₁
        omega
    rw [hunit, hunit'] at hratio hnearest
    have hm' : divNearest n d = m := divNearest_eq hd <| by
      rw [hratio, hv, mul_div_assoc, div_self (by positivity), mul_one]
    rw [hnearest, hm', if_neg]
    have := hc.le_maxExp
    have := hc.lt
    omega

/-- What a format gives for a ratio is the value of a canonical pair. -/
theorem exists_canonical (hp : 1 ≤ f.precision) (hexp : f.minExp ≤ f.maxExp) (hden : den ≠ 0)
    (h : f.nearest num den = some (m, e)) :
    ∃ m' e', f.Canonical m' e' ∧ (m' : ℚ) * 2 ^ e' = m * 2 ^ e := by
  by_cases hnum : num = 0
  · obtain ⟨rfl, rfl⟩ : 0 = m ∧ f.minExp = e := by simpa [Format.nearest, hnum] using h
    exact ⟨0, f.minExp, ⟨by positivity, le_rfl, hexp, .inr rfl⟩, by simp⟩
  · obtain ⟨top, hlower, hupper, hunit⟩ := unitExp_spec f hnum hden
    obtain ⟨n, d, hd, hratio, hnearest⟩ := nearest_spec f hnum hden
    generalize f.unitExp num den = E at *
    rw [hnearest] at h
    split_ifs at h with hover
    push Not at hover
    obtain ⟨rfl, rfl⟩ : divNearest n d = m ∧ E = e := by simpa using h
    have hle : divNearest n d ≤ 2 ^ f.precision := divNearest_le hd <| by
      have hsplit : (2 : ℚ) ^ top = 2 ^ (top - E) * 2 ^ E := by rw [← zpow_add₀ two_ne_zero]; ring_nf
      have hbound : (2 : ℚ) ^ (top - E) ≤ 2 ^ (f.precision : Int) :=
        zpow_le_zpow_right₀ (by norm_num) (by omega)
      rw [hratio, div_le_iff₀ (by positivity)]
      calc (num : ℚ) / den ≤ 2 ^ (top - E) * 2 ^ E := hsplit ▸ hupper.le
        _ ≤ 2 ^ (f.precision : Int) * 2 ^ E := by gcongr
        _ = ((2 ^ f.precision : Nat) : ℚ) * 2 ^ E := by simp
    have hfull : 2 ^ (f.precision - 1) ≤ divNearest n d ∨ E = f.minExp := by
      by_cases hmin : E = f.minExp
      · exact .inr hmin
      refine .inl (le_divNearest hd ?_)
      have htop : top - 1 = ((f.precision - 1 : Nat) : Int) + E := by omega
      rw [hratio, le_div_iff₀ (by positivity)]
      calc ((2 ^ (f.precision - 1) : Nat) : ℚ) * 2 ^ E = 2 ^ (top - 1) := by
            rw [htop, zpow_add₀ two_ne_zero, zpow_natCast]; simp
        _ ≤ num / den := hlower
    rcases hle.lt_or_eq with hlt | heq
    · exact ⟨_, E, ⟨hlt, by omega, hover.1, hfull⟩, rfl⟩
    · -- a significand that is rounded up to a power of two has one digit more
      have hlt : E < f.maxExp := lt_of_le_of_ne hover.1 fun h => hover.2 h heq
      refine ⟨2 ^ (f.precision - 1), E + 1, ⟨Nat.pow_lt_pow_right (by norm_num) (by omega),
        by omega, by omega, .inl le_rfl⟩, ?_⟩
      obtain ⟨k, hk⟩ : ∃ k, f.precision = k + 1 := ⟨f.precision - 1, by omega⟩
      rw [heq, hk, zpow_add₀ two_ne_zero]
      simp [pow_succ]
      ring

/-- A value below `2 ^ 1024` with few digits has a canonical pair as a double. -/
theorem exists_canonical_double (m : Nat) (n : Nat) (hm : m < 2 ^ 53)
    (hlt : (m : ℚ) * 2 ^ ((n : Int) - 1074) < 2 ^ (1024 : Int)) :
    ∃ m' e', double.Canonical m' e' ∧ (m' : ℚ) * 2 ^ e' = m * 2 ^ ((n : Int) - 1074) := by
  induction n generalizing m with
  | zero => exact ⟨m, -1074, ⟨hm, le_rfl, by decide, .inr rfl⟩, by simp⟩
  | succ n ih =>
    by_cases hfull : 2 ^ 52 ≤ m
    · refine ⟨m, _, ⟨hm, by simp only [double]; omega, ?_, .inl hfull⟩, rfl⟩
      have hfull' : (2 : ℚ) ^ (52 : Int) ≤ m := by exact_mod_cast hfull
      have : (2 : ℚ) ^ (52 + (((n + 1 : Nat) : Int) - 1074)) < 2 ^ (1024 : Int) := by
        refine lt_of_le_of_lt ?_ hlt
        rw [zpow_add₀ two_ne_zero]
        gcongr
      have := (zpow_lt_zpow_iff_right₀ (by norm_num : (1 : ℚ) < 2)).mp this
      simp only [double]
      omega
    · have heq : ((2 * m : Nat) : ℚ) * 2 ^ ((n : Int) - 1074) = m * 2 ^ (((n + 1 : Nat) : Int) - 1074) := by
        rw [show (((n + 1 : Nat) : Int) - 1074) = (n - 1074) + 1 by push_cast; ring, zpow_add₀ two_ne_zero]
        push_cast
        ring
      obtain ⟨m', e', hc, hv⟩ := ih (2 * m) (by omega) (heq ▸ hlt)
      exact ⟨m', e', hc, hv.trans heq⟩

theorem Format.Canonical.exists_double (hf : f.WithinDouble) (hc : f.Canonical m e) :
    ∃ m' e', double.Canonical m' e' ∧ (m' : ℚ) * 2 ^ e' = m * 2 ^ e := by
  obtain ⟨n, hn⟩ := Int.eq_ofNat_of_zero_le (show 0 ≤ e + 1074 by have := hf.le_minExp; have := hc.minExp_le; omega)
  obtain rfl : e = (n : Int) - 1074 := by omega
  have hm : m < 2 ^ 53 := hc.lt.trans_le (Nat.pow_le_pow_right (by norm_num) hf.precision_le)
  refine exists_canonical_double m n hm ?_
  have hlt : (m : ℚ) < 2 ^ (f.precision : Int) := by exact_mod_cast hc.lt
  calc (m : ℚ) * 2 ^ ((n : Int) - 1074) < 2 ^ (f.precision : Int) * 2 ^ ((n : Int) - 1074) := by gcongr
    _ = 2 ^ (f.precision + ((n : Int) - 1074)) := (zpow_add₀ two_ne_zero _ _).symm
    _ ≤ 2 ^ (1024 : Int) := zpow_le_zpow_right₀ (by norm_num) (by have := hf.top_le; have := hc.le_maxExp; omega)

/-! ### The bits of doubles -/

theorem toBits_ofBits {b : UInt64} (h : b.toNat / 2 ^ 52 % 2048 ≠ 2047 ∨ b.toNat % 2 ^ 52 = 0) :
    (Float.ofBits b).toBits = b := by
  have hbits : (Float.ofBits b).toBits.toBitVec =
      Float.Model.UnpackedFloat.pack .binary64 (Float.Model.UnpackedFloat.unpack .binary64 b.toBitVec) := rfl
  have hnan : ¬ @Float.Model.UnpackedFloat.isNaNBits .binary64 b.toBitVec = true := by
    simp only [Float.Model.UnpackedFloat.isNaNBits, decide_eq_true_eq, not_and, not_not,
      Float.Model.UnpackedFloat.unpackExponent_def, Float.Model.UnpackedFloat.unpackMantissa_def]
    intro hexp
    have hexp := congrArg BitVec.toNat hexp
    apply BitVec.eq_of_toNat_eq
    simp [Nat.shiftRight_eq_div_pow] at hexp ⊢
    omega
  apply UInt64.toBitVec_inj.mp
  rw [hbits, Float.Model.UnpackedFloat.pack_unpack, if_neg hnan]

theorem toBits_ofMagnitude {s : Bool} {bits : Nat} (h : bits ≤ infinityBits) :
    (ofMagnitude s bits).toBits.toNat = if s then 2 ^ 63 + bits else bits := by
  have hinf : infinityBits = 2047 * 2 ^ 52 := rfl
  have hbits : (UInt64.ofNat (if s then Nat.pow 2 63 + bits else bits)).toNat = if s then 2 ^ 63 + bits else bits := by
    rw [UInt64.toNat_ofNat']
    simp only [Nat.pow_eq]
    split_ifs <;> omega
  rw [ofMagnitude, toBits_ofBits, hbits]
  rw [hbits]
  split_ifs <;> omega

/-- What a double stands for, by its sign, its exponent field and its fraction. -/
theorem decode_eq {x : Float} {s : Bool} {field frac : Nat} (hfield : field < 2048) (hfrac : frac < 2 ^ 52)
    (h : x.toBits.toNat = (if s then 2 ^ 63 else 0) + field * 2 ^ 52 + frac) :
    decode x =
      if field = 2047 then if frac = 0 then .infinite s else .notANumber
      else if field = 0 then .finite s frac (-1074)
      else .finite s (2 ^ 52 + frac) ((field : Int) - 1075) := by
  have hsign : decide (2 ^ 63 ≤ x.toBits.toNat) = s := by
    rw [h]
    cases s <;> simp <;> omega
  have hexp : x.toBits.toNat / 2 ^ 52 % 2048 = field := by
    rw [h]
    split_ifs <;> omega
  have hlow : x.toBits.toNat % 2 ^ 52 = frac := by
    rw [h]
    split_ifs <;> omega
  simp only [decode, Nat.pow_eq, hsign, hexp, hlow]

theorem decode_ofMagnitude (s : Bool) {bits field frac : Nat} (hfield : field < 2047) (hfrac : frac < 2 ^ 52)
    (hbits : bits = field * 2 ^ 52 + frac) :
    decode (ofMagnitude s bits) =
      if field = 0 then .finite s frac (-1074) else .finite s (2 ^ 52 + frac) ((field : Int) - 1075) := by
  have hinf : infinityBits = 2047 * 2 ^ 52 := rfl
  have hx : (ofMagnitude s bits).toBits.toNat = (if s then 2 ^ 63 else 0) + field * 2 ^ 52 + frac := by
    rw [toBits_ofMagnitude (by omega), hbits]
    split_ifs <;> omega
  rw [decode_eq (by omega) hfrac hx, if_neg (by omega)]

theorem decode_infinite (s : Bool) : decode (ofMagnitude s infinityBits) = .infinite s := by
  have hx : (ofMagnitude s infinityBits).toBits.toNat = (if s then 2 ^ 63 else 0) + 2047 * 2 ^ 52 + 0 := by
    rw [toBits_ofMagnitude le_rfl, show infinityBits = 2047 * 2 ^ 52 from rfl]
    split_ifs <;> omega
  rw [decode_eq (by omega) (by omega) hx]
  simp

/-- The bits of a double are those of its canonical pair. -/
theorem decode_doubleBits (s : Bool) (hc : double.Canonical m e) :
    decode (ofMagnitude s (doubleBits m e)) = .finite s m e := by
  obtain ⟨hlt, hmin, hmax, hfull⟩ := hc
  simp only [double, Nat.add_one_sub_one] at hlt hmin hmax hfull
  by_cases hsmall : m < 2 ^ 52
  · have hbits : doubleBits m e = 0 * 2 ^ 52 + m := by simp only [doubleBits, Nat.pow_eq, if_pos hsmall]; omega
    have he : e = -1074 := by omega
    rw [decode_ofMagnitude s (by omega) hsmall hbits, if_pos rfl, he]
  · have hbits : doubleBits m e = (e + 1075).toNat * 2 ^ 52 + (m - 2 ^ 52) := by
      simp only [doubleBits, Nat.pow_eq, if_neg hsmall]
    have hm : 2 ^ 52 + (m - 2 ^ 52) = m := by omega
    have he : ((e + 1075).toNat : Int) - 1075 = e := by omega
    rw [decode_ofMagnitude s (by omega) (by omega) hbits, if_neg (by omega), hm, he]

/-! ### Rounding is idempotent -/

theorem ofRatio_of_canonical (s : Bool) (hc : double.Canonical m e) (hden : den ≠ 0) (hv : (num : ℚ) / den = m * 2 ^ e) :
    Binary.ofRatio s num den = ofMagnitude s (doubleBits m e) := by
  rw [Binary.ofRatio, hc.nearest_eq (by decide) hden hv]

/-- A format gives the double of the value that it has rounded to. -/
theorem Format.ofRatio_of_nearest (s : Bool) (h : f.nearest num den = some (m, e)) {m' : Nat} {e' : Int}
    (hc : double.Canonical m' e') (hv : (m' : ℚ) * 2 ^ e' = m * 2 ^ e) :
    f.ofRatio s num den = ofMagnitude s (doubleBits m' e') := by
  simp only [Format.ofRatio, h]
  split_ifs with he
  · obtain ⟨k, rfl⟩ := Int.eq_ofNat_of_zero_le he
    exact ofRatio_of_canonical s hc one_ne_zero (by simp [hv])
  · obtain ⟨k, hk⟩ := Int.eq_ofNat_of_zero_le (show 0 ≤ -e by omega)
    obtain rfl : e = -(k : Int) := by omega
    exact ofRatio_of_canonical s hc (by simp) (by simp [hv, div_eq_mul_inv])

theorem ratio_of_decoded (m : Nat) (e : Int) :
    ((if 0 ≤ e then m * Nat.pow 2 e.toNat else m : Nat) : ℚ) / (if 0 ≤ e then 1 else Nat.pow 2 (-e).toNat : Nat) =
    m * 2 ^ e := by
  split_ifs with he
  · obtain ⟨k, rfl⟩ := Int.eq_ofNat_of_zero_le he
    simp
  · obtain ⟨k, hk⟩ := Int.eq_ofNat_of_zero_le (show 0 ≤ -e by omega)
    obtain rfl : e = -(k : Int) := by omega
    simp [div_eq_mul_inv]

/-- What a format gives for a ratio is rounded to itself. -/
theorem Format.round_ofRatio (hf : f.WithinDouble) (s : Bool) (hden : den ≠ 0) :
    f.round (f.ofRatio s num den) = f.ofRatio s num den := by
  cases h : f.nearest num den with
  | none =>
    have hinf : f.ofRatio s num den = ofMagnitude s infinityBits := by
      simp only [Format.ofRatio, h]
      cases s <;> rfl
    rw [hinf, Format.round, decode_infinite]
  | some p =>
    obtain ⟨m, e⟩ := p
    obtain ⟨m₁, e₁, hc₁, hv₁⟩ := exists_canonical hf.one_le_precision hf.minExp_le_maxExp hden h
    obtain ⟨m₂, e₂, hc₂, hv₂⟩ := hc₁.exists_double hf
    rw [Format.ofRatio_of_nearest s h hc₂ (hv₂.trans hv₁), Format.round, decode_doubleBits s hc₂]
    have hnearest := hc₁.nearest_eq hf.one_le_precision (by split_ifs <;> simp) ((ratio_of_decoded m₂ e₂).trans hv₂)
    exact Format.ofRatio_of_nearest s hnearest hc₂ hv₂

/-- Rounding twice is rounding once. -/
theorem Format.round_round (hf : f.WithinDouble) (x : Float) : f.round (f.round x) = f.round x := by
  cases h : decode x with
  | finite s m e =>
    have hx : f.round x =
        f.ofRatio s (if 0 ≤ e then m * Nat.pow 2 e.toNat else m) (if 0 ≤ e then 1 else Nat.pow 2 (-e).toNat) := by
      simp only [Format.round, h]
    rw [hx]
    exact Format.round_ofRatio hf s (by split_ifs <;> simp)
  | infinite s => simp [Format.round, h]
  | notANumber => simp [Format.round, h]

end Binary

/-! ### Conversion is idempotent -/

namespace ElemType
open Binary

variable (t : ElemType)

theorem wrap_wrap (n : Int) : t.wrap (t.wrap n) = t.wrap n := by
  cases t with
  | bool => simp only [wrap]; split_ifs <;> simp_all
  | int bits => simp [wrap, Int.bmod_bmod]
  | uint bits => simp [wrap]
  | float bits => rfl

theorem wrap_ofFloat (x : Float) : t.wrap (t.ofFloat x) = t.ofFloat x := by
  simp only [ofFloat]
  split
  · split_ifs <;> exact t.wrap_wrap _
  · exact t.wrap_wrap _

theorem rounded_float (bits : Nat) (x : Float) :
    (float bits).rounded x = if bits = 64 then x else (format bits).round x := by
  unfold rounded
  split <;> simp_all

theorem ofInteger_float (bits : Nat) (n : Int) :
    (float bits).ofInteger n = if bits = 16 then (format 16).round (single.ofInt n) else (format bits).ofInt n := by
  unfold ofInteger
  split <;> simp_all [format]

theorem rounded_rounded (bits : Nat) (x : Float) : (float bits).rounded ((float bits).rounded x) =
    (float bits).rounded x := by
  simp only [rounded_float]
  split_ifs
  · rfl
  · exact Format.round_round (withinDouble_format bits) x

theorem rounded_ofInteger (bits : Nat) (n : Int) : (float bits).rounded ((float bits).ofInteger n) =
    (float bits).ofInteger n := by
  simp only [rounded_float, ofInteger_float]
  split_ifs with hdouble hhalf hhalf
  · rfl
  · rfl
  · subst hhalf
    exact Format.round_round (withinDouble_format 16) _
  · exact Format.round_ofRatio (withinDouble_format bits) _ one_ne_zero

/-- Conversion to a type keeps what it has converted. -/
theorem convert_convert (x : Number) : t.convert (t.convert x) = t.convert x := by
  cases t with
  | bool => rfl
  | int bits | uint bits =>
    cases hx : x.split <;> simp only [convert, hx] <;> simp [Number.split, wrap_wrap, wrap_ofFloat]
  | float bits =>
    cases hx : x.split <;> simp only [convert, hx] <;> simp [Number.split, rounded_rounded, rounded_ofInteger]

end ElemType

end TensorNest

import Mathlib
import ValueMachine.Proofs.Documents.Numerals

/-! The integer casts of numbers. A float stands for a rational number, unless it is an infinity or not a
number, and both of its casts take the integer part: the one by wrapping what is no signed integer, the
other by wrapping what is negative. So the casts of a number have the same bits, wherever it lies. -/

namespace ValueMachine

open Float.Model

/-! ### Integer parts -/

/-- The integer part of a rational number, toward zero. -/
def integerPart (q : ℚ) : ℤ := if q < 0 then ⌈q⌉ else ⌊q⌋

section IntegerPart

variable {q : ℚ} {k : ℤ}

theorem integerPart_intCast (k : ℤ) : integerPart k = k := by
  rw [integerPart, Int.ceil_intCast, Int.floor_intCast, ite_self]

theorem integerPart_neg (q : ℚ) : integerPart (-q) = -integerPart q := by
  rcases lt_trichotomy q 0 with hq | rfl | hq
  · rw [integerPart, integerPart, if_neg (by linarith), if_pos hq, Int.floor_neg]
  · rfl
  · rw [integerPart, integerPart, if_pos (by linarith), if_neg (by linarith), Int.ceil_neg]

theorem integerPart_div (num den : ℕ) : integerPart (num / den) = (num / den : ℕ) := by
  rw [integerPart, if_neg (not_lt.2 (by positivity))]
  exact Rat.floor_natCast_div_natCast num den

theorem integerPart_nonpos (hq : q < 0) : integerPart q ≤ 0 := by
  rw [integerPart, if_pos hq]
  exact Int.ceil_le.2 (by exact_mod_cast hq.le)

theorem integerPart_nonneg (hq : 0 ≤ q) : 0 ≤ integerPart q := by
  rw [integerPart, if_neg (not_lt.2 hq)]
  exact Int.floor_nonneg.2 hq

/-- The integer part of a number is below a positive integer just if the number is. -/
theorem integerPart_lt_iff (hk : 0 < k) : integerPart q < k ↔ q < k := by
  by_cases hq : q < 0
  · have hcast : (0 : ℚ) < k := by exact_mod_cast hk
    exact ⟨fun _ => hq.trans hcast, fun _ => (integerPart_nonpos hq).trans_lt hk⟩
  · rw [integerPart, if_neg hq]
    exact Int.floor_lt

/-- The integer part of a mantissa with an exponent is a quotient of natural numbers. -/
theorem integerPart_scaled (m : ℕ) (e : ℤ) :
    integerPart (m * 2 ^ e) = ((ratio m e).1 / (ratio m e).2 : ℕ) := by
  rw [← integerPart_div]
  congr 1
  rw [ratio]
  split
  next he =>
    lift e to ℕ using he
    simp
  next he =>
    obtain ⟨n, rfl⟩ : ∃ n : ℕ, e = -n := ⟨(-e).toNat, by omega⟩
    simp [div_eq_mul_inv]

end IntegerPart

/-! ### The parts of a float -/

namespace FloatParts

section Fields

variable (b : BitVec 64)

theorem toNat_unpackSign :
    (@UnpackedFloat.unpackSign .binary64 b).toNat = b.toNat / 2 ^ 63 := by
  have hb : b.toNat < 2 ^ 64 := b.isLt
  rw [UnpackedFloat.unpackSign_def, BitVec.extractLsb'_toNat, Nat.shiftRight_eq_div_pow]
  show b.toNat / 2 ^ 63 % 2 ^ 1 = _
  omega

theorem toNat_unpackExponent :
    (@UnpackedFloat.unpackExponent .binary64 b).toNat = b.toNat / 2 ^ 52 % 2 ^ 11 := by
  rw [UnpackedFloat.unpackExponent_def, BitVec.extractLsb'_toNat, Nat.shiftRight_eq_div_pow]

theorem toNat_unpackMantissa :
    (@UnpackedFloat.unpackMantissa .binary64 b).toNat = b.toNat % 2 ^ 52 := by
  rw [UnpackedFloat.unpackMantissa_def, BitVec.extractLsb'_toNat, Nat.shiftRight_zero]

/-- The first bit of a negative float is one. -/
theorem beq_negative : (UnpackedFloat.Sign.ofBitVec (@UnpackedFloat.unpackSign .binary64 b)
    == .negative) = (b.toNat / 2 ^ 63 == 1) := by
  rw [← toNat_unpackSign]
  generalize @UnpackedFloat.unpackSign .binary64 b = s
  revert s
  decide

end Fields

/-- The parts of a float in the logical model of floats, which has zeros of their own. -/
def ofUnpacked : UnpackedFloat → FloatParts
  | .notANumber => nan
  | .infinity s => infinite (s == .negative)
  | .zero s => finite (s == .negative) 0 (-1074)
  | .finite s m e _ => finite (s == .negative) m e

/-- A float is taken apart as the logical model of floats unpacks it. -/
theorem of_eq_ofUnpacked (x : Float) : of x = ofUnpacked x.toModel.unpack := by
  let b := x.toBits.toBitVec
  have hparts : of x =
      let negative :=
        UnpackedFloat.Sign.ofBitVec (@UnpackedFloat.unpackSign .binary64 b) == .negative
      let field := (@UnpackedFloat.unpackExponent .binary64 b).toNat
      let fraction := (@UnpackedFloat.unpackMantissa .binary64 b).toNat
      if field = 2047 then if fraction = 0 then infinite negative else nan
      else if field = 0 then finite negative fraction (-1074)
      else finite negative (2 ^ 52 + fraction) (field - 1075) := by
    simp only [beq_negative, toNat_unpackExponent, toNat_unpackMantissa, of, ofBits, beq_iff_eq]
    rfl
  rw [hparts]
  show _ = ofUnpacked (UnpackedFloat.unpack .binary64 b)
  -- The cases are those of the logical model: infinity, not a number, zero, subnormal and normal.
  fun_cases UnpackedFloat.unpack .binary64 b with
  | case1 fraction field _ _ hfull hzero =>
    have hfield : field.toNat = 2047 := congrArg BitVec.toNat hfull
    have hfraction : fraction.toNat = 0 := congrArg BitVec.toNat hzero
    exact (if_pos hfield).trans (if_pos hfraction)
  | case2 fraction field hfull hzero =>
    have hfield : field.toNat = 2047 := congrArg BitVec.toNat hfull
    exact (if_pos hfield).trans (if_neg (BitVec.toNat_ne.1 hzero))
  | case3 fraction field _ _ hfull hempty hzero =>
    have hfield : field.toNat = 0 := congrArg BitVec.toNat hempty
    have hfraction : fraction.toNat = 0 := congrArg BitVec.toNat hzero
    refine (if_neg (BitVec.toNat_ne.1 hfull)).trans ((if_pos hfield).trans ?_)
    rw [hfraction]
    rfl
  | case4 fraction field e _ _ hfull hempty hzero =>
    have hfield : field.toNat = 0 := congrArg BitVec.toNat hempty
    have he : e + 1 = -1074 := by
      show (field.toNat : Int) - (1023 + 52) + 1 = -1074
      omega
    refine (if_neg (BitVec.toNat_ne.1 hfull)).trans ((if_pos hfield).trans ?_)
    rw [ofUnpacked, he]
  | case5 fraction field e _ _ hfull hempty =>
    have hmantissa : (1#1 ++ fraction).toNat = 2 ^ 52 + fraction.toNat := by
      rw [BitVec.toNat_append]
      exact (Nat.two_pow_add_eq_or_of_lt fraction.isLt 1).symm
    have he : e = field.toNat - 1075 := rfl
    refine (if_neg (BitVec.toNat_ne.1 hfull)).trans ((if_neg (BitVec.toNat_ne.1 hempty)).trans ?_)
    rw [ofUnpacked, hmantissa, he]

/-- A mantissa has at most 53 binary digits, and all of them unless the exponent is the least one. -/
theorem bounds_of_finite {x : Float} {negative : Bool} {m : ℕ} {e : ℤ}
    (hx : of x = finite negative m e) : m < 2 ^ 53 ∧ (2 ^ 52 ≤ m ∨ e = -1074) := by
  have hfraction : x.toBits.toNat % 2 ^ 52 < 2 ^ 52 := Nat.mod_lt _ (by decide)
  rw [of, ofBits] at hx
  split at hx
  · split at hx <;> cases hx
  split at hx
  · cases hx
    exact ⟨hfraction.trans (by decide), .inr rfl⟩
  · cases hx
    exact ⟨Nat.add_lt_add_left hfraction (2 ^ 52), .inl (Nat.le_add_right _ _)⟩

end FloatParts

/-! ### The number that a float stands for -/

namespace Binary64

variable {x c : Float} {q : ℚ}

/-- The rational number that a float stands for. Infinities and not-a-number stand for none. -/
def value? (x : Float) : Option ℚ :=
  match x.toModel.unpack with
  | .zero _ => some 0
  | .finite s m e _ => some (s.apply m * 2 ^ e)
  | _ => none

/-- A float without a number. -/
theorem unpack_of_value?_eq_none (hq : value? x = none) :
    x.toModel.unpack = .notANumber ∨ ∃ s, x.toModel.unpack = .infinity s := by
  rw [value?] at hq
  cases hx : x.toModel.unpack with
  | notANumber => exact .inl rfl
  | infinity s => exact .inr ⟨s, rfl⟩
  | zero s => rw [hx] at hq; cases hq
  | finite s m e hm => rw [hx] at hq; cases hq

/-- A float with a number. The mantissa of a zero is zero. -/
theorem exists_parts_of_value? (hq : value? x = some q) : ∃ (negative : Bool) (m : ℕ) (e : ℤ),
    FloatParts.of x = .finite negative m e ∧
      q = if negative then -(m * 2 ^ e : ℚ) else (m * 2 ^ e : ℚ) := by
  rw [FloatParts.of_eq_ofUnpacked]
  rw [value?] at hq
  cases hx : x.toModel.unpack with
  | notANumber => rw [hx] at hq; cases hq
  | infinity s => rw [hx] at hq; cases hq
  | zero s =>
    rw [hx] at hq
    cases hq
    refine ⟨_, _, _, rfl, ?_⟩
    rw [Nat.cast_zero, zero_mul, neg_zero, ite_self]
  | finite s m e hm =>
    rw [hx] at hq
    cases hq
    refine ⟨_, _, _, rfl, ?_⟩
    cases s with
    | positive => rfl
    | negative =>
      show ((-(m : ℤ) : ℤ) : ℚ) * 2 ^ e = -(m * 2 ^ e)
      rw [Int.cast_neg, neg_mul]
      rfl

/-- The integer part of a float is that of the number that it stands for. -/
theorem truncate?_eq (x : Float) : truncate? x = (value? x).map integerPart := by
  cases hq : value? x with
  | none =>
    rw [truncate?, FloatParts.of_eq_ofUnpacked]
    obtain hx | ⟨s, hx⟩ := unpack_of_value?_eq_none hq <;> (rw [hx]; rfl)
  | some q =>
    obtain ⟨negative, m, e, hparts, rfl⟩ := exists_parts_of_value? hq
    rw [truncate?, hparts]
    cases negative with
    | false => exact congrArg some (integerPart_scaled m e).symm
    | true =>
      show some (-_) = some (integerPart (-(m * 2 ^ e)))
      rw [integerPart_neg, integerPart_scaled]
      rfl

/-! ### Comparisons and conversions -/

theorem lt_iff_compare (x c : Float) :
    x < c ↔ x.toModel.unpack.compare c.toModel.unpack = some .lt := by
  show decide (x.toModel < c.toModel) = true ↔ _
  rw [decide_eq_true_iff]
  show UnpackedFloat.lt _ _ = true ↔ _
  rw [UnpackedFloat.lt]
  exact beq_iff_eq

/-- Mantissas of full length are compared by their exponents. -/
theorem lt_twoPow_of_bounds {m n : ℕ} {e : ℤ} (hm : m < 2 ^ 53) (hfull : 2 ^ 52 ≤ m ∨ e = -1074) :
    (m * 2 ^ e : ℚ) < 2 ^ (52 + n) ↔ e < n := by
  have hn : (2 : ℚ) ^ (52 + n) = 2 ^ 52 * 2 ^ (n : ℤ) := by rw [pow_add, zpow_natCast]
  constructor
  · intro hlt
    by_contra hle
    have hcast : (2 ^ 52 : ℚ) ≤ m := by exact_mod_cast hfull.resolve_right (by omega)
    have hpow : (2 : ℚ) ^ (n : ℤ) ≤ 2 ^ e := zpow_le_zpow_right₀ (by norm_num) (not_lt.1 hle)
    have hproduct : (2 : ℚ) ^ 52 * 2 ^ (n : ℤ) ≤ m * 2 ^ e := by gcongr
    linarith
  · intro hlt
    have hcast : (m : ℚ) < 2 ^ 53 := by exact_mod_cast hm
    have hpow : (2 : ℚ) ^ e ≤ 2 ^ ((n : ℤ) - 1) := zpow_le_zpow_right₀ (by norm_num) (by omega)
    calc (m * 2 ^ e : ℚ) < 2 ^ 53 * 2 ^ e := by gcongr
      _ ≤ 2 ^ 53 * 2 ^ ((n : ℤ) - 1) := by gcongr
      _ = 2 ^ (52 + n) := by rw [hn, zpow_sub_one₀ (by norm_num)]; ring

/-- A float is below a power of two without a fraction just if its number is. -/
theorem lt_twoPow_iff {n : ℕ} (hq : value? x = some q)
    (hc : c.toModel.unpack = .finite .positive (2 ^ 52) n (by decide)) :
    x < c ↔ q < 2 ^ (52 + n) := by
  have hparts := FloatParts.of_eq_ofUnpacked x
  have hpos : (0 : ℚ) < 2 ^ (52 + n) := by positivity
  rw [lt_iff_compare, hc]
  rw [value?] at hq
  cases hx : x.toModel.unpack with
  | notANumber => rw [hx] at hq; cases hq
  | infinity s => rw [hx] at hq; cases hq
  | zero s =>
    rw [hx] at hq
    cases hq
    exact ⟨fun _ => hpos, fun _ => rfl⟩
  | finite s m e hm =>
    rw [hx] at hq hparts
    cases hq
    cases s with
    | negative =>
      have hnonpos : ((-(m : ℤ) : ℤ) : ℚ) * 2 ^ e ≤ 0 := by
        push_cast
        rw [neg_mul]
        exact neg_nonpos.2 (by positivity)
      exact ⟨fun _ => hnonpos.trans_lt hpos, fun _ => rfl⟩
    | positive =>
      obtain ⟨hbound, hfull⟩ := FloatParts.bounds_of_finite hparts
      show some ((compare e n).then (compare m (2 ^ 52))) = some .lt ↔ (m * 2 ^ e : ℚ) < _
      rw [lt_twoPow_of_bounds hbound hfull, Option.some_inj, Ordering.then_eq_lt, compare_lt_iff_lt,
        compare_eq_iff_eq, compare_lt_iff_lt]
      omega

theorem lt_zero_iff (hq : value? x = some q) : x < 0 ↔ q < 0 := by
  rw [lt_iff_compare]
  rw [value?] at hq
  cases hx : x.toModel.unpack with
  | notANumber => rw [hx] at hq; cases hq
  | infinity s => rw [hx] at hq; cases hq
  | zero s =>
    rw [hx] at hq
    cases hq
    exact ⟨nofun, fun h => absurd h (lt_irrefl _)⟩
  | finite s m e hm =>
    rw [hx] at hq
    cases hq
    have hpos : (0 : ℚ) < m * 2 ^ e := by positivity
    cases s with
    | negative =>
      refine ⟨fun _ => ?_, fun _ => rfl⟩
      show ((-(m : ℤ) : ℤ) : ℚ) * 2 ^ e < 0
      push_cast
      linarith
    | positive => exact ⟨nofun, fun h => absurd h (not_lt.2 hpos.le)⟩

theorem mantissa_shiftRight (em : UnpackedFloat.ExtendedMantissa) (n : ℕ) :
    (em >>> n).mantissa = em.mantissa / 2 ^ n := by
  induction n with
  | zero => exact (Nat.div_one _).symm
  | succ n ih =>
    have hstep : (em >>> (n + 1)).mantissa = (em >>> n).mantissa / 2 := rfl
    rw [hstep, ih, Nat.div_div_eq_div_mul, pow_succ]

/-- The logical model of floats shifts the mantissa for its conversions to integers. -/
theorem roundToInt_eq (s : UnpackedFloat.Sign) (m : ℕ) (e : ℤ) :
    UnpackedFloat.roundToInt s m e = integerPart (s.apply m * 2 ^ e) := by
  have hshift : UnpackedFloat.roundToInt s m e =
      s.apply (m <<< (e - 0).toNat / 2 ^ (0 - (e - (e - 0).toNat)).toNat : ℕ) := by
    rw [← mantissa_shiftRight ⟨_, false, false⟩]
    rfl
  have hratio : m <<< (e - 0).toNat / 2 ^ (0 - (e - (e - 0).toNat)).toNat
      = (ratio m e).1 / (ratio m e).2 := by
    rw [ratio, Nat.shiftLeft_eq]
    split
    next he =>
      rw [Int.sub_zero, Int.toNat_of_nonneg he]
      simp
    next he =>
      rw [Int.sub_zero, Int.toNat_eq_zero.2 (by omega)]
      simp
  rw [hshift, hratio]
  cases s with
  | positive => exact (integerPart_scaled m e).symm
  | negative =>
    show -(((ratio m e).1 / (ratio m e).2 : ℕ) : ℤ) = integerPart ((-(m : ℤ) : ℤ) * 2 ^ e)
    rw [Int.cast_neg, neg_mul, integerPart_neg, ← integerPart_scaled]
    rfl

theorem toInt_unpack (hq : value? x = some q) (lo hi : ℤ) :
    x.toModel.unpack.toInt lo hi = integerPart q := by
  rw [value?] at hq
  cases hx : x.toModel.unpack with
  | notANumber => rw [hx] at hq; cases hq
  | infinity s => rw [hx] at hq; cases hq
  | zero s => rw [hx] at hq; cases hq; rfl
  | finite s m e hm => rw [hx] at hq; cases hq; exact roundToInt_eq s m e

theorem toInt64_eq_clamp (hq : value? x = some q) :
    x.toModel.toInt64 = Int64.ofIntClamp (integerPart q) :=
  congrArg Int64.ofIntClamp (toInt_unpack hq _ _)

theorem toUInt64_eq_clamp (hq : value? x = some q) :
    x.toUInt64 = UInt64.ofNatClamp (integerPart q).toNat :=
  congrArg (fun k => UInt64.ofNatClamp (Int.toNat k)) (toInt_unpack hq _ _)

theorem isNaN_of_value? (hq : value? x = some q) : x.isNaN = false := by
  rw [value?] at hq
  show x.toModel.unpack.isNaN = false
  cases hx : x.toModel.unpack with
  | notANumber => rw [hx] at hq; cases hq
  | _ => rfl

end Binary64

theorem ofIntClamp_eq {k : ℤ} (hk : k < 2 ^ 63) :
    Int64.ofIntClamp k = if k < -2 ^ 63 then Int64.minValue else Int64.ofInt k := by
  have hmin : Int64.minValue.toInt = -2 ^ 63 := rfl
  have hmax : Int64.maxValue.toInt = 2 ^ 63 - 1 := rfl
  by_cases hlow : k < -2 ^ 63
  · rw [if_pos hlow, Int64.ofIntClamp, dif_neg (by omega)]
  · rw [if_neg hlow, ← Int64.toInt_inj, Int64.toInt_ofIntClamp (by omega) (by omega),
      Int64.toInt_ofInt_of_le (by omega) hk]

theorem ofNatClamp_eq (n : ℕ) : UInt64.ofNatClamp n = UInt64.ofNat (min n (2 ^ 64 - 1)) := by
  have hsize : UInt64.size = 2 ^ 64 := rfl
  by_cases hn : n < UInt64.size
  · rw [← UInt64.toNat_inj, UInt64.toNat_ofNatClamp_of_lt hn, min_eq_left (by omega),
      UInt64.toNat_ofNat_of_lt' hn]
  · rw [UInt64.ofNatClamp, dif_neg hn, min_eq_right (by omega)]
    rfl

/-! ### The casts of a float -/

namespace Number

variable {x : Float} {q : ℚ}

theorem castSigned_of_value? (hq : Binary64.value? x = some q) : castSigned x =
    if integerPart q < -2 ^ 63 then Int64.minValue
    else if integerPart q < 2 ^ 64 then Int64.ofInt (integerPart q) else -1 := by
  have hk : Binary64.truncate? x = some (integerPart q) := by rw [Binary64.truncate?_eq, hq]; rfl
  obtain ⟨negative, m, e, hparts, -⟩ := Binary64.exists_parts_of_value? hq
  rw [castSigned, hparts]
  simp only [hk]
  rfl

theorem castUnsigned_of_value? (hq : Binary64.value? x = some q) : castUnsigned x =
    if integerPart q < 0 then
      (if integerPart q < -2 ^ 63 then Int64.minValue else Int64.ofInt (integerPart q)).toUInt64
    else UInt64.ofNat (min (integerPart q).toNat (2 ^ 64 - 1)) := by
  have hk : Binary64.truncate? x = some (integerPart q) := by rw [Binary64.truncate?_eq, hq]; rfl
  obtain ⟨negative, m, e, hparts, -⟩ := Binary64.exists_parts_of_value? hq
  rw [castUnsigned, hparts]
  simp only [hk]
  rfl

/-- The signed cast by comparisons of floats and conversions that clamp. -/
theorem castSigned_eq_clamped (x : Float) : castSigned x =
    if x.isNaN then 0
    else if x < 9223372036854775808 then x.toModel.toInt64
    else if x < 18446744073709551616 then x.toUInt64.toInt64
    else -1 := by
  cases hq : Binary64.value? x with
  | some q =>
    have hlow : x < 9223372036854775808 ↔ integerPart q < 2 ^ 63 :=
      (Binary64.lt_twoPow_iff (n := 11) hq rfl).trans (integerPart_lt_iff (by decide)).symm
    have hhigh : x < 18446744073709551616 ↔ integerPart q < 2 ^ 64 :=
      (Binary64.lt_twoPow_iff (n := 12) hq rfl).trans (integerPart_lt_iff (by decide)).symm
    rw [castSigned_of_value? hq, Binary64.isNaN_of_value? hq, if_neg Bool.false_ne_true,
      Binary64.toInt64_eq_clamp hq, Binary64.toUInt64_eq_clamp hq]
    simp only [hlow, hhigh]
    generalize integerPart q = k
    by_cases hsmall : k < 2 ^ 63
    · have hlarge : k < 2 ^ 64 := hsmall.trans (by decide)
      rw [if_pos hsmall, ofIntClamp_eq hsmall, if_pos hlarge]
    · lift k to ℕ using by omega
      rw [if_neg hsmall, if_neg (by omega)]
      refine ite_congr rfl (fun hlarge => ?_) fun _ => rfl
      rw [ofNatClamp_eq, Int.toNat_natCast, min_eq_left (by omega)]
      rfl
  | none =>
    have hisNaN : x.isNaN = x.toModel.unpack.isNaN := rfl
    have hsigned : x.toModel.toInt64 = x.toModel.unpack.toInt64 := rfl
    rw [castSigned, hisNaN, hsigned, FloatParts.of_eq_ofUnpacked]
    simp only [Binary64.lt_iff_compare x]
    obtain hx | ⟨s, hx⟩ := Binary64.unpack_of_value?_eq_none hq
    · rw [hx]
      rfl
    · rw [hx]
      cases s <;> rfl

/-- The unsigned cast by comparisons of floats and conversions that clamp. -/
theorem castUnsigned_eq_clamped (x : Float) : castUnsigned x =
    if x.isNaN then 0
    else if x < 0 then x.toModel.toInt64.toUInt64
    else x.toUInt64 := by
  cases hq : Binary64.value? x with
  | some q =>
    rw [castUnsigned_of_value? hq, Binary64.isNaN_of_value? hq, if_neg Bool.false_ne_true,
      Binary64.toInt64_eq_clamp hq, Binary64.toUInt64_eq_clamp hq]
    simp only [Binary64.lt_zero_iff hq]
    by_cases hnegative : q < 0
    · have hsmall : integerPart q < 2 ^ 63 := (integerPart_nonpos hnegative).trans_lt (by decide)
      rw [if_pos hnegative, ofIntClamp_eq hsmall]
      split
      · rfl
      · -- A negative fraction has the integer part zero, which is not negative any more.
        have hzero : integerPart q = 0 := le_antisymm (integerPart_nonpos hnegative) (by omega)
        rw [hzero]
        rfl
    · have hk : 0 ≤ integerPart q := integerPart_nonneg (not_lt.1 hnegative)
      rw [if_neg hnegative, if_neg (by omega), ofNatClamp_eq]
  | none =>
    have hisNaN : x.isNaN = x.toModel.unpack.isNaN := rfl
    have hsigned : x.toModel.toInt64 = x.toModel.unpack.toInt64 := rfl
    have hunsigned : x.toUInt64 = x.toModel.unpack.toUInt64 := rfl
    rw [castUnsigned, hisNaN, hsigned, hunsigned, FloatParts.of_eq_ofUnpacked]
    simp only [Binary64.lt_iff_compare x]
    obtain hx | ⟨s, hx⟩ := Binary64.unpack_of_value?_eq_none hq
    · rw [hx]
      rfl
    · rw [hx]
      cases s <;> rfl

/-! ### The bits of the casts -/

theorem toBitVec_castSigned (hq : Binary64.value? x = some q) (hholds : Wide.Holds (integerPart q)) :
    (castSigned x).toBitVec = BitVec.ofInt 64 (integerPart q) := by
  rw [castSigned_of_value? hq, if_neg (not_lt.2 hholds.1), if_pos hholds.2]
  rfl

/-- Both casts of a float have the same bits. -/
theorem toBitVec_casts (x : Float) : (castSigned x).toBitVec = (castUnsigned x).toBitVec := by
  cases hq : Binary64.value? x with
  | none =>
    rw [castSigned, castUnsigned, FloatParts.of_eq_ofUnpacked]
    obtain hx | ⟨s, hx⟩ := Binary64.unpack_of_value?_eq_none hq
    · rw [hx]
      rfl
    · rw [hx]
      cases s <;> rfl
  | some q =>
    rw [castSigned_of_value? hq, castUnsigned_of_value? hq]
    generalize integerPart q = k
    by_cases hnegative : k < 0
    · have hlarge : k < 2 ^ 64 := hnegative.trans (by decide)
      rw [if_pos hnegative, if_pos hlarge]
      rfl
    · lift k to ℕ using not_lt.1 hnegative
      rw [if_neg hnegative, if_neg (by omega), Int.toNat_natCast]
      by_cases hlarge : (k : ℤ) < 2 ^ 64
      · rw [if_pos hlarge, min_eq_left (by omega)]
        exact BitVec.ofInt_natCast 64 k
      · rw [if_neg hlarge, min_eq_right (by omega)]
        rfl

theorem toBitVec_whole (n : Wide) : n.toInt64.toBitVec = BitVec.ofInt 64 n.toInt ∧
    n.toUInt64.toBitVec = BitVec.ofInt 64 n.toInt := by
  cases n with
  | signed n => exact ⟨BitVec.ofInt_toInt.symm, BitVec.ofInt_toInt.symm⟩
  | unsigned n =>
    have hn : BitVec.ofInt 64 n.toNat = n.toBitVec :=
      (BitVec.ofInt_natCast 64 _).trans (BitVec.ofNat_toNat 64 n.toBitVec)
    exact ⟨hn.symm, hn.symm⟩

/-- The rational number that a number stands for. -/
def value? : Number → Option ℚ
  | whole n => some n.toInt
  | float x => Binary64.value? x

/-- Both casts of a number have the same bits, and where its integer part is an integer of 64 bits, signed
or unsigned, they are the bits of that. -/
theorem casts_agree (n : Number) : n.toInt64.toBitVec = n.toUInt64.toBitVec ∧
    ∀ q, n.value? = some q → Wide.Holds (integerPart q) →
      n.toUInt64.toBitVec = BitVec.ofInt 64 (integerPart q) := by
  cases n with
  | whole n =>
    obtain ⟨hsigned, hunsigned⟩ := toBitVec_whole n
    refine ⟨hsigned.trans hunsigned.symm, ?_⟩
    rintro _ ⟨⟩ -
    rw [integerPart_intCast]
    exact hunsigned
  | float x =>
    refine ⟨toBitVec_casts x, fun q hq hholds => ?_⟩
    exact (toBitVec_casts x).symm.trans (toBitVec_castSigned hq hholds)

/-- Ten quintillions are no signed integer. As a float they are cast to the bits of the unsigned one. -/
theorem casts_of_tenQuintillions :
    (float 1e19).value? = some (10 ^ 19) ∧ Wide.Holds (integerPart (10 ^ 19)) ∧
      (float 1e19).toInt64.toBitVec = BitVec.ofInt 64 (10 ^ 19) := by
  have hpart : integerPart (10 ^ 19) = 10 ^ 19 := by
    rw [← integerPart_intCast (10 ^ 19), Int.cast_pow, Int.cast_ofNat]
  have hholds : Wide.Holds (integerPart (10 ^ 19)) := by
    rw [hpart]
    exact ⟨by decide, by decide⟩
  have hvalue : (float 1e19).value? = some (10 ^ 19) := by
    show some (((4882812500000000 : ℤ) : ℚ) * 2 ^ (11 : ℤ)) = some (10 ^ 19)
    norm_num
  obtain ⟨hsame, hbits⟩ := casts_agree (float 1e19)
  refine ⟨hvalue, hholds, ?_⟩
  rw [hsame, hbits _ hvalue hholds, hpart]

end Number

end ValueMachine

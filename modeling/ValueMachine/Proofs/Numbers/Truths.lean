import Mathlib
import ValueMachine.Proofs.Numbers.Spellings

/-! Truth and text. A truth value is found slot by slot without writing a number, and a text prefers the
slots in an order of its own and rounds floats. The two agree: what is false is the empty text and the
digit zero, and no number but zero is written like that. -/

namespace ValueMachine

open Machine

/-! ### The float zero -/

namespace Binary64

/-- There are two zeros, and they equal each other. -/
theorem beq_zero_iff (x : Float) : (x == 0) = true ↔ x = 0 ∨ x = -0 := by
  have hpositive : (0 : Float) ≠ .nan := Float.beq_self_iff.1 rfl
  have hnegative : (-0 : Float) ≠ .nan := Float.beq_self_iff.1 rfl
  rw [Float.beq_iff_ne_nan_and_eq]
  constructor
  · rintro ⟨-, -, rfl | ⟨rfl, -⟩ | ⟨rfl, -⟩⟩
    · exact .inl rfl
    · exact .inl rfl
    · exact .inr rfl
  · rintro (rfl | rfl)
    · exact ⟨hpositive, hpositive, .inl rfl⟩
    · exact ⟨hnegative, hpositive, .inr (.inr ⟨rfl, rfl⟩)⟩

/-- A float is a zero when its exponent field and its fraction are. -/
theorem eq_zero_iff (x : Float) : x = 0 ∨ x = -0 ↔
    x.toBits.toNat / 2 ^ 52 % 2 ^ 11 = 0 ∧ x.toBits.toNat % 2 ^ 52 = 0 := by
  have hbits (y : Float) : x = y ↔ x.toBits.toNat = y.toBits.toNat := by
    rw [← Float.toBits_inj, ← UInt64.toNat_inj]
  have hlt : x.toBits.toNat < 2 ^ 64 := x.toBits.toNat_lt
  rw [hbits, hbits]
  show x.toBits.toNat = 0 ∨ x.toBits.toNat = 2 ^ 63 ↔ _
  omega

/-- A float equals zero when it is taken apart as one, of either sign. -/
theorem isZero_iff (x : Float) : isZero x = true ↔ (x == 0) = true := by
  rw [beq_zero_iff, eq_zero_iff, isZero, FloatParts.of, FloatParts.ofBits]
  show _ ↔ x.toBits.toNat / Nat.pow 2 52 % Nat.pow 2 11 = 0 ∧ x.toBits.toNat % Nat.pow 2 52 = 0
  generalize x.toBits.toNat / Nat.pow 2 52 % Nat.pow 2 11 = field
  generalize x.toBits.toNat % Nat.pow 2 52 = fraction
  simp only [beq_iff_eq]
  by_cases hfull : field = 2047
  · by_cases hfraction : fraction = 0 <;> simp [hfull, hfraction]
  · by_cases hzero : field = 0
    · cases fraction <;> simp [hzero]
    · obtain ⟨k, hk⟩ : ∃ k, Nat.pow 2 52 + fraction = k + 1 :=
        Nat.exists_eq_succ_of_ne_zero (by simp)
      simp [hfull, hzero, hk]

end Binary64

/-! ### Powers of ten -/

section Rounding

variable {num den : Nat}

theorem lt_pow_digitCount (n : Nat) : n < 10 ^ digitCount n :=
  (Nat.length_toDigits_le_iff (by decide) Nat.length_toDigits_pos).1 le_rfl

/-- A positive fraction is one at least, once it is scaled by the power of ten of its first digit. -/
theorem le_mul_pow_tenExponent (hnum : 0 < num) :
    den ≤ num * 10 ^ (-tenExponent num den).toNat := by
  unfold tenExponent
  split
  next hle => exact hle.trans (Nat.le_mul_of_pos_right num (Nat.pow_pos (by decide)))
  next =>
    have hpos : 0 < digitCount (den / num) := Nat.length_toDigits_pos
    have hdiv : den < num * 10 ^ digitCount (den / num) := by
      rw [mul_comm]
      exact (Nat.div_lt_iff_lt_mul hnum).1 (lt_pow_digitCount _)
    dsimp only
    split
    next hle =>
      have hpower : (-(1 - Int.ofNat (digitCount (den / num)))).toNat = digitCount (den / num) - 1 := by
        simp only [Int.ofNat_eq_natCast]
        omega
      rw [hpower]
      exact hle
    next =>
      have hpower : (-(-Int.ofNat (digitCount (den / num)))).toNat = digitCount (den / num) := by
        simp
      rw [hpower]
      exact hdiv.le

/-- Rounding to significant digits makes the power of ten larger by one at most. -/
theorem significant_snd_le (n num den : Nat) : (significant n num den).2 ≤ tenExponent num den + 1 := by
  rw [significant]
  split
  dsimp only
  split
  · exact le_rfl
  · exact (lt_add_one _).le

theorem roundDiv_pos (hden : 0 < den) (hle : den ≤ num) : 0 < roundDiv num den := by
  have hquotient : 0 < num / den := Nat.div_pos hle hden
  unfold roundDiv
  dsimp only
  split
  · exact Nat.succ_pos _
  · exact hquotient

end Rounding

/-! ### Texts of floats -/

namespace FloatText

variable {ds : List Char} {places d num den : Nat} {style : FloatStyle}

theorem ofDigitChars_padded (n k : Nat) : Nat.ofDigitChars 10 (padded n k) 0 = k := by
  rw [padded, Nat.ofDigitChars_append, Nat.ofDigitChars_replicate_zero, Nat.mul_zero,
    Nat.ofDigitChars_ten_toDigits]

/-- Decimals that leave nothing are zeros. -/
theorem ofDigitChars_of_decimals (h : decimals ds = []) : Nat.ofDigitChars 10 ds 0 = 0 := by
  have hnil : (ds.reverse.dropWhile (· == '0')).reverse = [] := by
    unfold decimals at h
    split at h
    next hnil => exact hnil
    next => cases h
  have hall := List.dropWhile_eq_nil_iff.1 (List.reverse_eq_nil_iff.1 hnil)
  have hzeros : ∀ c ∈ ds, c = '0' := fun c hc => beq_iff_eq.1 (hall c (List.mem_reverse.2 hc))
  rw [List.eq_replicate_of_mem hzeros, Nat.ofDigitChars_replicate_zero, Nat.mul_zero]

/-- In positional notation the digit zero alone stands for zero. -/
theorem eq_zero_of_positional (h : positional places d = ['0']) : d = 0 := by
  have hparts : Nat.toDigits 10 (d / Nat.pow 10 places) = ['0'] ∧
      decimals (if places == 0 then [] else padded places (d % Nat.pow 10 places)) = [] := by
    rcases List.append_eq_singleton_iff.1 h with hnil | hparts
    · exact absurd hnil.1 Nat.toDigits_ne_nil
    · exact hparts
  have hquotient : d / Nat.pow 10 places = 0 := by
    have hvalue := Nat.ofDigitChars_ten_toDigits (n := d / Nat.pow 10 places)
    rw [hparts.1] at hvalue
    exact hvalue.symm
  have hremainder : d % Nat.pow 10 places = 0 := by
    have hvalue := ofDigitChars_of_decimals hparts.2
    split at hvalue
    next hplaces =>
      rw [beq_iff_eq.1 hplaces]
      exact Nat.mod_one d
    next => rwa [ofDigitChars_padded] at hvalue
  rw [← Nat.div_add_mod d (Nat.pow 10 places), hquotient, hremainder, Nat.mul_zero]

theorem scientific_ne_zero (style : FloatStyle) (d : Nat) (k : Int) : scientific style d k ≠ ['0'] := by
  intro h
  have hletter : 'e' ∈ scientific style d k := by simp [scientific]
  rw [h] at hletter
  revert hletter
  decide

/-- A positive fraction is not written as zero, as long as there are two significant digits. -/
theorem magnitude_ne_zero (hstyle : 2 ≤ style.digits) (hnum : 0 < num) (hden : 0 < den) :
    magnitude style num den ≠ ['0'] := by
  have hexponent := significant_snd_le style.digits num den
  rw [magnitude]
  split
  next d k hsignificant =>
    rw [hsignificant] at hexponent
    split
    next =>
      intro h
      have hplaces : (-tenExponent num den).toNat ≤ (Int.ofNat style.digits - 1 - k).toNat := by
        simp only [Int.ofNat_eq_natCast]
        omega
      have hscaled : den ≤ num * Nat.pow 10 (Int.ofNat style.digits - 1 - k).toNat :=
        (le_mul_pow_tenExponent hnum).trans
          (Nat.mul_le_mul_left num (Nat.pow_le_pow_right (by decide) hplaces))
      exact (roundDiv_pos hden hscaled).ne' (eq_zero_of_positional h)
    next => exact scientific_ne_zero style d k

end FloatText

theorem ratio_pos {m : Nat} (hm : 0 < m) (e : Int) : 0 < (ratio m e).1 ∧ 0 < (ratio m e).2 := by
  unfold ratio
  split
  · exact ⟨Nat.mul_pos hm (Nat.pow_pos (by decide)), Nat.one_pos⟩
  · exact ⟨hm, Nat.pow_pos (by decide)⟩

/-- The float zero of either sign is written as the digit zero, and no other float is. -/
theorem floatText_eq_zero_iff (x : Float) : floatText .machine x = "0" ↔ (x == 0) = true := by
  have hlist {cs : List Char} (h : String.ofList cs = "0") : cs = ['0'] := by
    rw [← String.toList_ofList (l := cs), h]
    rfl
  rw [← Binary64.isZero_iff, floatText, Binary64.isZero]
  cases FloatParts.of x with
  | nan => simp [FloatStyle.machine]
  | infinite negative => cases negative <;> simp [FloatStyle.machine]
  | finite negative m e =>
    cases m with
    | zero => simp [FloatStyle.machine]
    | succ m =>
      obtain ⟨hnum, hden⟩ := ratio_pos m.succ_pos e
      have htext : FloatText.magnitude .machine (ratio (m + 1) e).1 (ratio (m + 1) e).2 ≠ ['0'] :=
        FloatText.magnitude_ne_zero (by decide) hnum hden
      refine iff_of_false (fun h => ?_) (by simp)
      cases negative with
      | false => exact htext (hlist h)
      | true => exact absurd (hlist h) (by simp)

/-! ### Truth values -/

/-- An empty text is no number. -/
theorem Number.ofBytes?_nil : Number.ofBytes? [] = none := by
  by_contra hsome
  obtain ⟨w, s, -, hbytes⟩ := Numeral.exists_of_isSome (Option.isSome_iff_ne_none.2 hsome)
  obtain ⟨b, bs, hmagnitude, -⟩ := Scan.magnitude_head w.magnitude
  simp [Numeral.bytes, hmagnitude] at hbytes

theorem Bytes.ofText_eq_zero_iff {s : String} : ofText s = [48] ↔ s = "0" := by
  have hzero : ofText "0" = [48] := ofText_eq "0"
  rw [← hzero]
  exact ⟨fun h => ofText_injective h, congrArg ofText⟩

theorem Wide.toInt_eq_zero_iff (w : Wide) : w.toInt = 0 ↔ w = .signed 0 ∨ w = .unsigned 0 := by
  cases w with
  | signed n => simp [Wide.toInt, ← Int64.toInt_inj]
  | unsigned n => simp [Wide.toInt, ← UInt64.toNat_inj]

theorem Wide.text_eq_zero_iff (w : Wide) : w.text = "0" ↔ w.toInt = 0 := by
  constructor
  · intro h
    have hread := Number.ofBytes?_decimal w.holds_toInt
    have hzero := Number.ofBytes?_decimal (n := 0) (Wide.holds_toInt (.signed 0))
    rw [← toString_eq_decimal] at hread hzero
    have htext : toString w.toInt = toString (0 : Int) := h
    rw [htext, hzero] at hread
    have hwide : Wide.ofInt 0 = Wide.ofInt w.toInt := by simpa using hread
    rw [← Wide.toInt_ofInt w.holds_toInt, ← hwide]
    rfl
  · intro h
    rw [Wide.text, h]
    rfl

namespace Scalar

variable {s : Scalar} {t : ByteText}

/-- The text of a number is not empty. -/
theorem Numeric.bytes_ne_nil (hs : s.Numeric) (ht : s.plainText? = some t) : t.bytes ≠ [] := by
  obtain ⟨t', n, ht', hread, -⟩ := hs.plainText?
  rw [ht, Option.some_inj] at ht'
  rintro hnil
  rw [← ht', hnil, Number.ofBytes?_nil] at hread
  cases hread

/-- A number is false when it is zero. -/
theorem truth_of_int (htext : s.text = none) {w : Wide} (hint : s.int = some w) :
    s.truth = false ↔ w.toInt = 0 := by
  rw [truth, htext, hint, Wide.toInt_eq_zero_iff]
  simp only [Bool.and_eq_false_iff, bne_eq_false_iff_eq]

theorem truth_of_float (htext : s.text = none) (hint : s.int = none) {x : Float}
    (hfloat : s.float = some x) : s.truth = false ↔ (x == 0) = true := by
  rw [truth, htext, hint, hfloat]
  simp only [bne, Bool.not_eq_false']

/-- A scalar that has a text of its own is false when this text is. -/
theorem truth_plainText (ht : s.plainText? = some t) :
    s.truth = false ↔ t.bytes = [] ∨ t.bytes = [48] := by
  obtain ⟨int, float, text, target⟩ := s
  cases text with
  | some text =>
    obtain rfl : text = t := Option.some_inj.1 ht
    simp [truth, or_iff_not_imp_left]
  | none =>
    cases int with
    | some w =>
      have hne := Numeric.bytes_ne_nil ⟨rfl, .inl rfl⟩ ht
      obtain rfl : ⟨Bytes.ofText w.text, false⟩ = t := Option.some_inj.1 ht
      rw [truth_of_int rfl rfl, or_iff_right hne, Bytes.ofText_eq_zero_iff, Wide.text_eq_zero_iff]
    | none =>
      cases float with
      | some x =>
        have hne := Numeric.bytes_ne_nil ⟨rfl, .inr rfl⟩ ht
        obtain rfl : ⟨Bytes.ofText (floatText .machine x), false⟩ = t := Option.some_inj.1 ht
        rw [truth_of_float rfl rfl rfl, or_iff_right hne, Bytes.ofText_eq_zero_iff,
          floatText_eq_zero_iff]
      | none =>
        cases target with
        | some target => cases ht
        | none =>
          obtain rfl : ⟨[], false⟩ = t := Option.some_inj.1 ht
          simp [truth]

/-- A scalar that has none is true, and refers to another value. -/
theorem truth_of_plainText_eq_none (ht : s.plainText? = none) :
    s.truth = true ∧ ∃ target, s.target = some target := by
  obtain ⟨_ | w, _ | x, _ | text, _ | target⟩ := s
  all_goals first | exact ⟨rfl, _, rfl⟩ | cases ht

end Scalar

namespace Machine

variable {m : Machine} {h : Handle} {s : Scalar}

/-- The text of a reference has two parentheses, and so it is true. -/
theorem two_le_length_referenceText (m : Machine) (h : Handle) :
    2 ≤ (Bytes.ofText (m.referenceText h)).length := by
  have hsize : 2 ≤ (m.referenceText h).utf8ByteSize := by
    have hopen : "(".utf8ByteSize = 1 := rfl
    have hclose : ")".utf8ByteSize = 1 := rfl
    unfold referenceText
    split <;> (simp only [String.utf8ByteSize_append]; omega)
  rw [Bytes.ofText_eq]
  exact hsize

/-- Truth follows the text: a scalar is false exactly when its text is empty or the digit zero,
whatever slots it has. -/
theorem truth_follows_text (hs : m.ReadsAs h s) : ∃ b t, truth h m = .ok b m ∧
    text h m = .ok t m ∧ (b = false ↔ t.bytes = [] ∨ t.bytes = [48]) := by
  refine ⟨s.truth, m.textAt h, hs.truth, hs.text, ?_⟩
  cases ht : s.plainText? with
  | some t =>
    have hat : m.textAt h = t := by
      rw [textAt, hs.scalar?]
      simp only [ht]
    rw [hat]
    exact Scalar.truth_plainText ht
  | none =>
    obtain ⟨htrue, target, htarget⟩ := Scalar.truth_of_plainText_eq_none ht
    have hat : m.textAt h = ⟨Bytes.ofText (m.referenceText target), false⟩ := by
      rw [textAt, hs.scalar?]
      simp only [ht, htarget]
    have hlength := two_le_length_referenceText m target
    rw [hat, htrue]
    refine iff_of_false (by decide) fun hbytes => ?_
    have hshort : (Bytes.ofText (m.referenceText target)).length ≤ 1 := by
      rcases hbytes with hnil | hzero
      · exact (congrArg List.length hnil).trans_le (Nat.zero_le 1)
      · exact (congrArg List.length hzero).le
    omega

/-- The slots of the negative zero. -/
def negativeZero : Scalar := .ofFloat (-0)

/-- The negative zero is false, and its text is the digit zero without a sign. -/
theorem negativeZero_truth :
    (holdingScalar negativeZero).ReadsAs fresh.heap.next negativeZero ∧ ∃ t,
      truth fresh.heap.next (holdingScalar negativeZero) = .ok false (holdingScalar negativeZero) ∧
      text fresh.heap.next (holdingScalar negativeZero) = .ok t (holdingScalar negativeZero) ∧
      (t.bytes = [] ∨ t.bytes = [48]) := by
  have hreads := readsAs_holdingScalar negativeZero
  have hfalse : negativeZero.truth = false := rfl
  obtain ⟨b, t, htruth, htext, hiff⟩ := truth_follows_text hreads
  have hb : b = false := by
    have hread := hreads.truth
    rw [htruth, hfalse] at hread
    cases hread
    rfl
  subst hb
  exact ⟨hreads, t, htruth, htext, hiff.1 rfl⟩

end Machine

end ValueMachine

import Mathlib.Data.List.Infix
import ValueMachine.Proofs.Numbers.Numerals

/-! The reading of numbers in text. What is read is a numeral at the front of the bytes, and it is the
longest one: nothing that is a numeral goes beyond it. -/

namespace ValueMachine

namespace Scan

variable {b c : UInt8} {bs cs ds us r x y : Bytes} {negative : Bool}

/-! ### Classes of bytes -/

/-- The end of the bytes or white space, where every number ends. -/
def Halts (r : Bytes) : Prop := ∀ b ∈ r.head?, isSpace b = true

theorem halts_nil : Halts [] := nofun

theorem AreSpaces.halts (h : AreSpaces r) : Halts r := fun b hb => h b (List.mem_of_mem_head? hb)

/-- A byte that is no white space and no sign. -/
def Begins (b : UInt8) : Prop := isSpace b = false ∧ b ≠ 45 ∧ b ≠ 43

theorem eq_of_isSpace (hb : isSpace b = true) : b = 32 ∨ b = 9 ∨ b = 10 ∨ b = 12 ∨ b = 13 := by
  simpa [isSpace, or_assoc] using hb

theorem isDigit_of_isSpace (hb : isSpace b = true) : isDigit b = false := by
  rcases eq_of_isSpace hb with rfl | rfl | rfl | rfl | rfl <;> rfl

theorem ne_of_isDigit (hb : isDigit b = true) (hc : isDigit c = false) : b ≠ c := by
  rintro rfl
  rw [hb] at hc
  cases hc

theorem begins_of_isDigit (hb : isDigit b = true) : Begins b := by
  refine ⟨?_, ne_of_isDigit hb rfl, ne_of_isDigit hb rfl⟩
  rw [← Bool.not_eq_true]
  intro hspace
  rw [isDigit_of_isSpace hspace] at hb
  cases hb

/-! ### Digits -/

theorem areDigits_takeWhile (bs : Bytes) : AreDigits (bs.takeWhile isDigit) :=
  fun _ hd => List.mem_takeWhile_imp hd

theorem AreDigits.takeWhile_append (hds : AreDigits ds) (r : Bytes) :
    (ds ++ r).takeWhile isDigit = ds ++ r.takeWhile isDigit := List.takeWhile_append_of_pos hds

theorem AreDigits.dropWhile_append (hds : AreDigits ds) (r : Bytes) :
    (ds ++ r).dropWhile isDigit = r.dropWhile isDigit := List.dropWhile_append_of_pos hds

theorem takeWhile_of_head (hb : isDigit b = false) : (b :: bs).takeWhile isDigit = [] :=
  List.takeWhile_cons_of_neg (by simp [hb])

theorem dropWhile_of_head (hb : isDigit b = false) : (b :: bs).dropWhile isDigit = b :: bs :=
  List.dropWhile_cons_of_neg (by simp [hb])

theorem Halts.takeWhile (hr : Halts r) : r.takeWhile isDigit = [] := by
  cases r with
  | nil => rfl
  | cons b r => exact takeWhile_of_head (isDigit_of_isSpace (hr b rfl))

theorem Halts.dropWhile (hr : Halts r) : r.dropWhile isDigit = r := by
  cases r with
  | nil => rfl
  | cons b r => exact dropWhile_of_head (isDigit_of_isSpace (hr b rfl))

/-! ### Signs, fractions and exponents -/

/-- What may follow a sign that is left out. -/
theorem sign_of_ne (hminus : ∀ cs, bs ≠ 45 :: cs) (hplus : ∀ cs, bs ≠ 43 :: cs) :
    sign bs = (false, bs) := by
  rw [sign]
  · exact fun r h => hminus r h
  · exact fun r h => hplus r h

theorem sign_bytes (s : Option Sign) (hb : b ≠ 45 ∧ b ≠ 43) :
    sign (Sign.bytes s ++ b :: bs) = (Sign.negates s, b :: bs) := by
  rcases s with _ | _ | _
  · exact sign_of_ne (fun _ h => hb.1 (List.cons.inj h).1) fun _ h => hb.2 (List.cons.inj h).1
  · rfl
  · rfl

/-- A sign is read off the front of the bytes. -/
theorem exists_sign (bs : Bytes) : ∃ s : Option Sign,
    bs = Sign.bytes s ++ (sign bs).2 ∧ (sign bs).1 = Sign.negates s := by
  fun_cases sign bs with
  | case1 r => exact ⟨some .minus, rfl, rfl⟩
  | case2 r => exact ⟨some .plus, rfl, rfl⟩
  | case3 r => exact ⟨none, rfl, rfl⟩

variable {whole f : Bytes}

/-- A fraction reaches over all digits that follow it. -/
theorem fraction_pointed (hf : AreDigits f) (hne : whole ++ f ≠ []) (x : Bytes) :
    fraction whole (46 :: (f ++ x)) = (some (f ++ x.takeWhile isDigit), x.dropWhile isDigit) := by
  have hsome : ¬(whole.isEmpty && (f ++ x.takeWhile isDigit).isEmpty) = true := by
    simp only [Bool.and_eq_true, List.isEmpty_iff, List.append_eq_nil_iff]
    exact fun h => hne (by rw [h.1, h.2.1]; rfl)
  simp only [fraction, hf.takeWhile_append, hf.dropWhile_append, if_neg hsome]

theorem fraction_of_ne (whole : Bytes) (hb : b ≠ 46) : fraction whole (b :: bs) = (none, b :: bs) := by
  rw [fraction]
  exact fun r h => hb (List.cons.inj h).1

theorem Halts.fraction (hr : Halts r) (whole : Bytes) : fraction whole r = (none, r) := by
  cases r with
  | nil => rfl
  | cons b r =>
    refine fraction_of_ne whole ?_
    rintro rfl
    cases hr 46 rfl

/-- A fraction is read off the front of the bytes. -/
theorem exists_fraction (whole bs : Bytes) : ∃ o : Option Bytes,
    bs = Decimal.pointed o ++ (fraction whole bs).2 ∧ (fraction whole bs).1 = o ∧
      (∀ f ∈ o, AreDigits f) ∧ (o ≠ none → whole ++ o.getD [] ≠ []) := by
  fun_cases fraction whole bs with
  | case1 r digits hempty =>
    exact ⟨none, rfl, rfl, nofun, fun h => absurd rfl h⟩
  | case2 r digits hsome =>
    refine ⟨some digits, ?_, rfl, ?_, fun _ hnil => hsome ?_⟩
    · simp [Decimal.pointed, digits]
    · rintro f ⟨⟩
      exact areDigits_takeWhile r
    · obtain ⟨hwhole, hdigits⟩ := List.append_eq_nil_iff.1 hnil
      rw [Option.getD_some] at hdigits
      simp [hwhole, hdigits]
  | case3 r _ => exact ⟨none, rfl, rfl, nofun, fun h => absurd rfl h⟩

theorem exponent_of_ne (hb : b ≠ 101 ∧ b ≠ 69) : exponent (b :: bs) = (none, b :: bs) := by
  rw [exponent, if_neg (by simp [hb])]

theorem Halts.exponent (hr : Halts r) : exponent r = (none, r) := by
  cases r with
  | nil => rfl
  | cons b r =>
    refine exponent_of_ne ⟨?_, ?_⟩ <;> rintro rfl
    · cases hr 101 rfl
    · cases hr 69 rfl

/-- An exponent reaches over all digits that follow it. -/
theorem exponent_bytes (e : Exponent) (r : Bytes) : exponent (e.bytes ++ r) =
    (some (if Sign.negates e.sign then -(digitsValue (e.digits ++ r.takeWhile isDigit) : Int)
      else digitsValue (e.digits ++ r.takeWhile isDigit)), r.dropWhile isDigit) := by
  have hletter : (e.letter == 101 || e.letter == 69) = true := by
    rw [Exponent.letter]
    cases e.capital <;> rfl
  have hsign : sign (Sign.bytes e.sign ++ e.digits ++ r) = (Sign.negates e.sign, e.digits ++ r) := by
    obtain ⟨d, ds, hds⟩ := List.exists_cons_of_ne_nil e.digits_ne_nil
    have hd : isDigit d = true := e.areDigits d (by simp [hds])
    rw [List.append_assoc, hds]
    exact sign_bytes e.sign (begins_of_isDigit hd).2
  have hsome : ¬(e.digits ++ r.takeWhile isDigit).isEmpty = true := by
    simp [e.digits_ne_nil]
  simp only [Exponent.bytes, List.cons_append, exponent, if_pos hletter, hsign,
    e.areDigits.takeWhile_append, e.areDigits.dropWhile_append, if_neg hsome]
  rfl

/-- An exponent is read off the front of the bytes. -/
theorem exists_exponent (bs : Bytes) : ∃ o : Option Exponent,
    bs = Decimal.scaled o ++ (exponent bs).2 ∧ (exponent bs).1 = o.map (·.value) := by
  fun_cases exponent bs with
  | case1 b r hletter negative digits hsign ds hempty => exact ⟨none, rfl, rfl⟩
  | case2 b r hletter negative digits hsign ds hsome n =>
    obtain ⟨s, hbytes, hnegates⟩ := exists_sign r
    rw [hsign] at hbytes hnegates
    obtain rfl : negative = Sign.negates s := hnegates
    have hb : (if b == 69 then 69 else 101 : UInt8) = b := by
      rw [Bool.or_eq_true, beq_iff_eq, beq_iff_eq] at hletter
      rcases hletter with rfl | rfl <;> rfl
    refine ⟨some ⟨b == 69, s, ds, areDigits_takeWhile digits, by simpa using hsome⟩, ?_, rfl⟩
    simp only [Decimal.scaled, Exponent.bytes, Exponent.letter, hb, List.cons_append, List.append_assoc,
      ds, List.takeWhile_append_dropWhile]
    rw [← hbytes]
  | case3 b r hletter => exact ⟨none, rfl, rfl⟩
  | case4 => exact ⟨none, rfl, rfl⟩

end Scan

end ValueMachine

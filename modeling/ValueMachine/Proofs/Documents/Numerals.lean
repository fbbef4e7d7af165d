import Mathlib.Data.List.TakeWhile
import ValueMachine.Proofs.Documents.Encoding
import ValueMachine.Source.Expr

/-! Decimal numerals. The digits of a natural number, with or without a minus sign before them, are
read as the integer that they write, as long as 64 bits hold it. -/

namespace ValueMachine

theorem Bytes.ofText_minus (s : String) : Bytes.ofText ("-" ++ s) = 45 :: Bytes.ofText s := by
  rw [ofText_eq, ofText_eq, String.toByteArray_append]
  simp
  rfl

theorem Char.toNat_of_isDigit {c : Char} (hc : c.isDigit = true) : 48 ≤ c.toNat ∧ c.toNat ≤ 57 := by
  simp only [Char.isDigit, Bool.and_eq_true, decide_eq_true_eq, ge_iff_le,
    UInt32.le_iff_toNat_le] at hc
  exact hc

namespace Scan

variable {c : Char} {cs : List Char}

theorem encode_digit (hc : c.isDigit = true) : String.utf8EncodeChar c = [UInt8.ofNat c.toNat] := by
  have hle : c.val.toNat ≤ 127 := (Char.toNat_of_isDigit hc).2.trans (by decide)
  simp only [String.utf8EncodeChar, if_pos hle]
  rfl

theorem toNat_digit (hc : c.isDigit = true) : (UInt8.ofNat c.toNat).toNat = c.toNat := by
  have := Char.toNat_of_isDigit hc
  rw [UInt8.toNat_ofNat']
  omega

/-- Digits are bytes of their own. -/
theorem ofText_digits (hcs : ∀ c ∈ cs, c.isDigit = true) :
    Bytes.ofText (String.ofList cs) = cs.map fun c => UInt8.ofNat c.toNat := by
  rw [Bytes.ofText_ofList]
  induction cs with
  | nil => rfl
  | cons c cs ih =>
    rw [List.flatMap_cons, encode_digit (hcs c (List.mem_cons_self ..)),
      ih fun c hc => hcs c (List.mem_cons_of_mem _ hc), List.map_cons, List.singleton_append]

theorem isDigit_digit (hc : c.isDigit = true) : isDigit (UInt8.ofNat c.toNat) = true := by
  have := Char.toNat_of_isDigit hc
  simp only [isDigit, UInt8.le_iff_toNat_le, toNat_digit hc, Bool.and_eq_true, decide_eq_true_eq]
  exact this

theorem digitsValue_digits (hcs : ∀ c ∈ cs, c.isDigit = true) :
    digitsValue (cs.map fun c => UInt8.ofNat c.toNat) = Nat.ofDigitChars 10 cs 0 := by
  have hfold (n : Nat) : (cs.map fun c => UInt8.ofNat c.toNat).foldl
      (fun n d => n * 10 + (d.toNat - 48)) n = Nat.ofDigitChars 10 cs n := by
    induction cs generalizing n with
    | nil => rfl
    | cons c cs ih =>
      rw [List.map_cons, List.foldl_cons, ih fun c hc => hcs c (List.mem_cons_of_mem _ hc),
        Nat.ofDigitChars_cons, toNat_digit (hcs c (List.mem_cons_self ..)), Nat.mul_comm]
      rfl
  exact hfold 0

theorem special_of_digit {d : UInt8} {ds : Bytes} (hd : isDigit d = true) :
    special (d :: ds) = none := by
  simp only [isDigit, Bool.and_eq_true, decide_eq_true_eq, UInt8.le_iff_toNat_le] at hd
  have hle : d.toNat ≤ 57 := hd.2
  have hlower : lower d = d := by
    rw [lower, if_neg]
    simp only [Bool.and_eq_true, decide_eq_true_eq, UInt8.le_iff_toNat_le, not_and]
    intro h
    have : 65 ≤ d.toNat := h
    omega
  have hother (b : UInt8) (bs : Bytes) (hb : 57 < b.toNat) (ws : Bytes) :
      (b :: bs).isPrefixOf (d :: ws) = false := by
    rw [List.isPrefixOf_cons_cons]
    have hne : b ≠ d := fun h => by rw [h] at hb; omega
    simp [hne]
  have hword : ((d :: ds).take 8).map lower = d :: (ds.take 7).map lower := by
    rw [List.take_succ_cons, List.map_cons, hlower]
  have hinfinity : Bytes.ofText "infinity" = 105 :: [110, 102, 105, 110, 105, 116, 121] := by
    rw [Bytes.ofText_eq]; rfl
  have hinf : Bytes.ofText "inf" = 105 :: [110, 102] := by rw [Bytes.ofText_eq]; rfl
  have hnan : Bytes.ofText "nan" = 110 :: [97, 110] := by rw [Bytes.ofText_eq]; rfl
  simp only [special, hword, hinfinity, hinf, hnan, hother 105 _ (by decide),
    hother 110 _ (by decide), Bool.false_eq_true, if_false]

/-- Digits, with or without a minus sign, are an integer as a whole. -/
theorem number?_digits {ds : Bytes} (hne : ds ≠ []) (hds : ∀ d ∈ ds, isDigit d = true)
    (negative : Bool) : number? (if negative then 45 :: ds else ds)
      = some (integer negative (digitsValue ds), []) := by
  have htake : ds.takeWhile isDigit = ds := List.takeWhile_eq_self_iff.2 hds
  have hdrop : ds.dropWhile isDigit = [] := List.dropWhile_eq_nil_iff.2 hds
  cases ds with
  | nil => exact absurd rfl hne
  | cons d rest =>
    have hd := hds d (List.mem_cons_self ..)
    have hsign : sign ((if negative then 45 :: d :: rest else d :: rest).dropWhile isSpace)
        = (negative, d :: rest) := by
      cases negative
      · simp only [isDigit, Bool.and_eq_true, decide_eq_true_eq, UInt8.le_iff_toNat_le] at hd
        have h48 : 48 ≤ d.toNat := hd.1
        have hne (b : UInt8) (hb : b.toNat < 48) : d ≠ b := fun h => by rw [h] at h48; omega
        have hspace : isSpace d = false := by
          simp [isSpace, hne 32 (by decide), hne 9 (by decide), hne 10 (by decide),
            hne 12 (by decide), hne 13 (by decide)]
        simp only [Bool.false_eq_true, if_false]
        rw [List.dropWhile_cons_of_neg (by simp [hspace]), sign]
        · exact fun r hr => hne 45 (by decide) (List.cons.inj hr).1
        · exact fun r hr => hne 43 (by decide) (List.cons.inj hr).1
      · rfl
    simp only [number?, hsign, special_of_digit hd, htake, hdrop, fraction, List.isEmpty_cons,
      Bool.false_and, Bool.false_eq_true, if_false, exponent, Option.isNone_none, Bool.and_self,
      if_true]

end Scan

/-- The 64-bit integer of a value that one has. -/
def Wide.ofInt (n : Int) : Wide :=
  if n < 0 then signed (Int64.ofInt n) else ofUInt64 (UInt64.ofNat n.toNat)

/-- The integers that 64 bits hold, signed or unsigned. -/
def Wide.Holds (n : Int) : Prop := -2 ^ 63 ≤ n ∧ n < 2 ^ 64

theorem Wide.toInt_ofInt {n : Int} (hn : Wide.Holds n) : (Wide.ofInt n).toInt = n := by
  obtain ⟨hlo, hhi⟩ := hn
  unfold ofInt
  split
  next h => exact Int64.toInt_ofInt_of_le hlo (by omega)
  next h =>
    have hsize : n.toNat < 2 ^ 64 := by omega
    have hword : (UInt64.ofNat n.toNat).toNat = n.toNat := by
      rw [UInt64.toNat_ofNat']
      omega
    unfold ofUInt64
    split
    next hsmall =>
      rw [hword] at hsmall
      have hsmall : n.toNat < 2 ^ 63 := hsmall
      show (UInt64.ofNat n.toNat).toBitVec.toInt = n
      have hbits : (UInt64.ofNat n.toNat).toBitVec.toNat = n.toNat := hword
      have hpow : (UInt64.ofNat n.toNat).toNat < 2 ^ 63 := by rwa [hword]
      rw [BitVec.toInt_eq_toNat_of_lt (by rw [hbits]; omega), hbits]
      omega
    next =>
      show ((UInt64.ofNat n.toNat).toNat : Int) = n
      rw [hword]
      omega

/-- An integer beyond the signed ones is its own unsigned reading. -/
theorem Wide.toUInt64_ofInt {n : Int} (hlo : 2 ^ 63 ≤ n) (hhi : n < 2 ^ 64) :
    ((Wide.ofInt n).toUInt64.toNat : Int) = n := by
  have hword : (UInt64.ofNat n.toNat).toNat = n.toNat := by
    rw [UInt64.toNat_ofNat']
    omega
  have hbig : ¬(UInt64.ofNat n.toNat).toNat < Nat.pow 2 63 := by
    rw [hword]
    show ¬n.toNat < 2 ^ 63
    omega
  rw [ofInt, if_neg (by omega), ofUInt64, if_neg hbig, toUInt64, hword]
  omega

/-- An integer in its normal form goes into a value as it is. -/
theorem Scalar.ofNumber_ofUInt64 (n : UInt64) :
    ofNumber (.whole (.ofUInt64 n)) = ofWide (.ofUInt64 n) := by
  by_cases hn : n.toNat < Nat.pow 2 63
  · rw [Wide.ofUInt64, if_pos hn, ofNumber, ofInt64]
  · have hlarge : Wide.ofUInt64 n = .unsigned n := if_neg hn
    rw [hlarge, ofNumber, ofUInt64, hlarge]

theorem Scalar.ofNumber_ofInt (i : Int) : ofNumber (.whole (.ofInt i)) = ofWide (.ofInt i) := by
  rw [Wide.ofInt]
  split
  · rw [ofNumber, ofInt64]
  · exact ofNumber_ofUInt64 _

/-- The digits of an integer without its sign. -/
def decimal (n : Int) : List Char := Nat.toDigits 10 n.natAbs

theorem isDigit_of_mem_decimal {n : Int} {c : Char} (hc : c ∈ decimal n) : c.isDigit = true :=
  Nat.isDigit_of_mem_toDigits (by decide) (by decide) hc

theorem decimal_ne_nil (n : Int) : decimal n ≠ [] := Nat.toDigits_ne_nil

/-- An integer that 64 bits hold is read back from its digits and its sign. -/
theorem Number.ofBytes?_decimal {n : Int} (hn : Wide.Holds n) :
    Number.ofBytes? (Bytes.ofText (if n < 0 then "-" ++ String.ofList (decimal n)
      else String.ofList (decimal n))) = some (.whole (Wide.ofInt n)) := by
  obtain ⟨hlo, hhi⟩ := hn
  have hdigit (c : Char) (hc : c ∈ decimal n) := isDigit_of_mem_decimal hc
  have hvalue : Scan.digitsValue ((decimal n).map fun c => UInt8.ofNat c.toNat) = n.natAbs := by
    rw [Scan.digitsValue_digits hdigit]
    exact Nat.ofDigitChars_ten_toDigits
  have hne : ((decimal n).map fun c => UInt8.ofNat c.toNat) ≠ [] := by
    simpa using decimal_ne_nil n
  have hdigits : ∀ d ∈ (decimal n).map fun c => UInt8.ofNat c.toNat, Scan.isDigit d = true := by
    intro d hd
    obtain ⟨c, hc, rfl⟩ := List.mem_map.1 hd
    exact Scan.isDigit_digit (hdigit c hc)
  have hread := Scan.number?_digits hne hdigits (decide (n < 0))
  have hbytes : Bytes.ofText (if n < 0 then "-" ++ String.ofList (decimal n)
      else String.ofList (decimal n)) = if decide (n < 0) = true
        then 45 :: (decimal n).map fun c => UInt8.ofNat c.toNat
        else (decimal n).map fun c => UInt8.ofNat c.toNat := by
    simp only [decide_eq_true_eq]
    split
    · rw [Bytes.ofText_minus, Scan.ofText_digits hdigit]
    · exact Scan.ofText_digits hdigit
  have hinteger : Scan.integer (decide (n < 0)) n.natAbs = .whole (Wide.ofInt n) := by
    unfold Scan.integer Wide.ofInt
    by_cases h : n < 0
    · have hle : n.natAbs ≤ Nat.pow 2 63 := by
        show n.natAbs ≤ 2 ^ 63
        omega
      have hneg : -(n.natAbs : Int) = n := by omega
      simp only [h, decide_true, if_true, if_pos hle, hneg]
    · have habs : n.natAbs = n.toNat := by omega
      have hlt : n.toNat < UInt64.size := by
        show n.toNat < 2 ^ 64
        omega
      simp only [h, decide_false, Bool.false_eq_true, if_false, habs, if_pos hlt]
  rw [hbytes, Number.ofBytes?, hread, hvalue, hinteger]
  rfl

end ValueMachine

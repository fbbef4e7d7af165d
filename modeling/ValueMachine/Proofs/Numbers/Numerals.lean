import ValueMachine.Proofs.Documents.Numerals

/-! The language of numbers in text. A numeral is white space, a sign if there is one, and then a
special word in any case or decimal digits, with a point and an exponent if there are any. Each numeral
has one value: integers of 64 bits are exact, and everything else is a float. -/

namespace ValueMachine

instance (n : Int) : Decidable (Wide.Holds n) :=
  inferInstanceAs (Decidable (-2 ^ 63 ≤ n ∧ n < 2 ^ 64))

/-- An integer where there is one that 64 bits hold, and a float otherwise. -/
def Number.exactOr (n? : Option Int) (x : Float) : Number :=
  match n? with
  | some n => if Wide.Holds n then .whole (.ofInt n) else .float x
  | none => .float x

namespace Number

variable {n? : Option Int} {n : Int} {x : Float}

theorem exactOr_of_holds (hn : Wide.Holds n) : exactOr (some n) x = .whole (.ofInt n) := if_pos hn

theorem exactOr_of_beyond (h : ∀ n, n? = some n → ¬Wide.Holds n) : exactOr n? x = .float x := by
  cases n? with
  | none => rfl
  | some n => exact if_neg (h n rfl)

end Number

/-- An integer is unsigned when it is beyond the signed ones. -/
theorem Wide.isUnsigned_ofInt {n : Int} (hn : Wide.Holds n) :
    (Wide.ofInt n).isUnsigned = true ↔ 2 ^ 63 ≤ n := by
  obtain ⟨-, hhi⟩ := hn
  have hpow : Nat.pow 2 63 = 2 ^ 63 := rfl
  have hword : (UInt64.ofNat n.toNat).toNat = n.toNat % 2 ^ 64 := UInt64.toNat_ofNat'
  simp only [ofInt, ofUInt64, hpow, hword]
  split
  · simp only [isUnsigned, Bool.false_eq_true, false_iff]
    omega
  · split
    · simp only [isUnsigned, Bool.false_eq_true, false_iff]
      omega
    · simp only [isUnsigned, true_iff]
      omega

/-! ### The parts of a numeral -/

/-- A sign before a number or an exponent. -/
inductive Sign where
  | plus
  | minus
  deriving DecidableEq, Repr

namespace Sign

def byte : Sign → UInt8
  | plus => 43
  | minus => 45

/-- The bytes of a sign that may be left out. -/
def bytes (s : Option Sign) : Bytes := (s.map byte).toList

/-- Whether a number with this sign, if any, is negated. -/
def negates (s : Option Sign) : Bool := s = some minus

end Sign

/-- A number that is not written in digits. -/
inductive Special where
  | inf
  | infinity
  | nan
  deriving DecidableEq, Repr

namespace Special

def text : Special → String
  | inf => "inf"
  | infinity => "infinity"
  | nan => "nan"

/-- Whether bytes spell the word, in any case. -/
def IsSpelled (s : Special) (bs : Bytes) : Prop := bs.map Scan.lower = Bytes.ofText s.text

def float : Special → Float
  | inf | infinity => Float.ofBits 0x7ff0000000000000
  | nan => Float.ofBits 0x7ff8000000000000

end Special

/-- Bytes that are all decimal digits. -/
def Scan.AreDigits (bs : Bytes) : Prop := ∀ d ∈ bs, Scan.isDigit d = true

/-- Bytes that are all white space. -/
def Scan.AreSpaces (bs : Bytes) : Prop := ∀ b ∈ bs, Scan.isSpace b = true

instance (bs : Bytes) : Decidable (Scan.AreDigits bs) :=
  decidable_of_iff (bs.all Scan.isDigit = true) List.all_eq_true

instance (bs : Bytes) : Decidable (Scan.AreSpaces bs) :=
  decidable_of_iff (bs.all Scan.isSpace = true) List.all_eq_true

/-- A power of ten: its letter, a sign if there is one, and at least one digit. -/
structure Exponent where
  capital : Bool
  sign : Option Sign
  digits : Bytes
  areDigits : Scan.AreDigits digits
  digits_ne_nil : digits ≠ []

namespace Exponent

def letter (e : Exponent) : UInt8 := if e.capital then 69 else 101

def bytes (e : Exponent) : Bytes := e.letter :: (Sign.bytes e.sign ++ e.digits)

def value (e : Exponent) : Int :=
  if Sign.negates e.sign then -Scan.digitsValue e.digits else Scan.digitsValue e.digits

end Exponent

/-- A number in digits: those before the point, those after it if there is a point, and an exponent if
there is one. There is a digit on one side of the point. -/
structure Decimal where
  whole : Bytes
  fraction : Option Bytes
  exponent : Option Exponent
  wholeDigits : Scan.AreDigits whole
  fractionDigits : ∀ f ∈ fraction, Scan.AreDigits f
  digits_ne_nil : whole ++ fraction.getD [] ≠ []

namespace Decimal

/-- The bytes of a fraction that may be left out. -/
def pointed : Option Bytes → Bytes
  | some f => 46 :: f
  | none => []

/-- The bytes of an exponent that may be left out. -/
def scaled : Option Exponent → Bytes
  | some e => e.bytes
  | none => []

def bytes (d : Decimal) : Bytes := d.whole ++ pointed d.fraction ++ scaled d.exponent

/-- The integer that a number in digits alone writes. -/
def integer? (negative : Bool) (d : Decimal) : Option Int :=
  match d.fraction, d.exponent with
  | none, none =>
    some (if negative then -Scan.digitsValue d.whole else Scan.digitsValue d.whole)
  | _, _ => none

/-- The float that is nearest to the number. -/
def float (negative : Bool) (d : Decimal) : Float :=
  let decimals := d.fraction.getD []
  Binary64.ofDecimal negative (Scan.digitsValue (d.whole ++ decimals))
    ((d.exponent.map (·.value)).getD 0 - decimals.length)

def value (negative : Bool) (d : Decimal) : Number := .exactOr (d.integer? negative) (d.float negative)

end Decimal

/-- What follows the sign of a number. -/
inductive Magnitude where
  | special (s : Special) (spelling : Bytes) (h : s.IsSpelled spelling)
  | decimal (d : Decimal)

namespace Magnitude

def bytes : Magnitude → Bytes
  | special _ spelling _ => spelling
  | decimal d => d.bytes

def integer? (negative : Bool) : Magnitude → Option Int
  | special .. => none
  | decimal d => d.integer? negative

def float (negative : Bool) : Magnitude → Float
  | special s _ _ => if negative then -s.float else s.float
  | decimal d => d.float negative

def value (negative : Bool) (m : Magnitude) : Number :=
  .exactOr (m.integer? negative) (m.float negative)

end Magnitude

/-- A number in text. -/
structure Numeral where
  space : Bytes
  sign : Option Sign
  magnitude : Magnitude
  areSpaces : Scan.AreSpaces space

namespace Numeral

def bytes (w : Numeral) : Bytes := w.space ++ (Sign.bytes w.sign ++ w.magnitude.bytes)

/-- The integer that a numeral of a sign and digits alone writes. -/
def integer? (w : Numeral) : Option Int := w.magnitude.integer? (Sign.negates w.sign)

/-- The float that is nearest to the number. -/
def float (w : Numeral) : Float := w.magnitude.float (Sign.negates w.sign)

def value (w : Numeral) : Number := .exactOr w.integer? w.float

/-- A numeral at the front of a byte string, and none there is longer. -/
structure Longest (w : Numeral) (bs : Bytes) : Prop where
  isPrefix : w.bytes <+: bs
  length_le : ∀ v : Numeral, v.bytes <+: bs → v.bytes.length ≤ w.bytes.length

end Numeral

end ValueMachine

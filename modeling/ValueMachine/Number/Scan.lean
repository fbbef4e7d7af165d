import ValueMachine.Text.Bytes
import ValueMachine.Number.Basic

/-! Numbers in text. A number is an optional sign and then `inf`, `infinity` or `nan` in any case,
or digits with an optional point, digits and exponent. The lenient reading takes the longest
number at the front; the strict one wants nothing but white space around it. -/

namespace ValueMachine

namespace Scan

/-- ASCII white space. -/
def isSpace (b : UInt8) : Bool := b == 32 || b == 9 || b == 10 || b == 12 || b == 13

def isDigit (b : UInt8) : Bool := 48 ≤ b && b ≤ 57

/-- The number written by decimal digits. -/
def digitsValue (ds : Bytes) : Nat := ds.foldl (fun n d => n * 10 + (d.toNat - 48)) 0

def lower (b : UInt8) : UInt8 := if 65 ≤ b && b ≤ 90 then b + 32 else b

/-- A sign and what follows it. -/
def sign : Bytes → Bool × Bytes
  | 45 :: r => (true, r)
  | 43 :: r => (false, r)
  | r => (false, r)

/-- A special word at the front: its value and its length. -/
def special (bs : Bytes) : Option (Float × Nat) :=
  let word := (bs.take 8).map lower
  let infinity : Float := Float.ofBits 0x7ff0000000000000
  if (Bytes.ofText "infinity").isPrefixOf word then some (infinity, 8)
  else if (Bytes.ofText "inf").isPrefixOf word then some (infinity, 3)
  else if (Bytes.ofText "nan").isPrefixOf word then some (Float.ofBits 0x7ff8000000000000, 3)
  else none

/-- The integer with this sign and magnitude, a float where no 64-bit integer has its value. -/
def integer (negative : Bool) (m : Nat) : Number :=
  if negative then
    if m ≤ Nat.pow 2 63 then .whole (.signed (Int64.ofInt (-m)))
    else .float (Binary64.ofDecimal true m 0)
  else if m < UInt64.size then .whole (Wide.ofUInt64 (UInt64.ofNat m))
  else .float (Binary64.ofDecimal false m 0)

/-- A point and the digits after it, where there are digits on either side. -/
def fraction (whole : Bytes) : Bytes → Option Bytes × Bytes
  | 46 :: r =>
    let digits := r.takeWhile isDigit
    if whole.isEmpty && digits.isEmpty then (none, 46 :: r)
    else (some digits, r.dropWhile isDigit)
  | r => (none, r)

/-- An exponent with at least one digit. -/
def exponent (bs : Bytes) : Option Int × Bytes :=
  match bs with
  | b :: r =>
    if b == 101 || b == 69 then
      let (negative, digits) := sign r
      let ds := digits.takeWhile isDigit
      if ds.isEmpty then (none, bs)
      else
        let n := Int.ofNat (digitsValue ds)
        (some (if negative then -n else n), digits.dropWhile isDigit)
    else (none, bs)
  | [] => (none, bs)

/-- The longest number at the front of a byte string, after white space, and what follows it. -/
def number? (bs : Bytes) : Option (Number × Bytes) :=
  let (negative, unsigned) := sign (bs.dropWhile isSpace)
  match special unsigned with
  | some (x, n) => some (.float (if negative then -x else x), unsigned.drop n)
  | none =>
    let whole := unsigned.takeWhile isDigit
    let (frac, afterFraction) := fraction whole (unsigned.dropWhile isDigit)
    if whole.isEmpty && frac.isNone then none
    else
      let (exp, rest) := exponent afterFraction
      if frac.isNone && exp.isNone then some (integer negative (digitsValue whole), rest)
      else
        let decimals := frac.getD []
        let value := Binary64.ofDecimal negative (digitsValue (whole ++ decimals))
          (exp.getD 0 - Int.ofNat decimals.length)
        some (.float value, rest)

end Scan

namespace Number

/-- The number at the front of a byte string, zero where there is none. -/
def ofPrefix (bs : Bytes) : Number :=
  match Scan.number? bs with
  | some (n, _) => n
  | none => .whole (.signed 0)

/-- The number that a byte string is as a whole. -/
def ofBytes? (bs : Bytes) : Option Number :=
  match Scan.number? bs with
  | some (n, rest) => if rest.all Scan.isSpace then some n else none
  | none => none

end Number

end ValueMachine

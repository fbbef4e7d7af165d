/-! Floats taken apart into integers. A finite float is `± mantissa · 2 ^ exponent`, so its
truncation, its comparison with a power of two and its rounding to decimal digits are exact
arithmetic on natural numbers. -/

namespace ValueMachine

/-- The parts of a float. -/
inductive FloatParts where
  | nan
  | infinite (negative : Bool)
  | finite (negative : Bool) (mantissa : Nat) (exponent : Int)

namespace FloatParts

/-- The parts of the float with these bits. -/
def ofBits (bits : UInt64) : FloatParts :=
  let n := bits.toNat
  let negative := n / Nat.pow 2 63 == 1
  let field := n / Nat.pow 2 52 % Nat.pow 2 11
  let fraction := n % Nat.pow 2 52
  if field == 2047 then
    if fraction == 0 then infinite negative else nan
  else if field == 0 then finite negative fraction (-1074)
  else finite negative (Nat.pow 2 52 + fraction) (Int.ofNat field - 1075)

/-- The parts of a float. -/
def of (x : Float) : FloatParts := ofBits x.toBits

end FloatParts

/-- `m · 2 ^ e` as a fraction. -/
def ratio (m : Nat) (e : Int) : Nat × Nat :=
  if 0 ≤ e then (m * Nat.pow 2 e.toNat, 1) else (m, Nat.pow 2 (-e).toNat)

/-- `(num / den) · 10 ^ k` as a fraction. -/
def scaleTen (num den : Nat) (k : Int) : Nat × Nat :=
  if 0 ≤ k then (num * Nat.pow 10 k.toNat, den) else (num, den * Nat.pow 10 (-k).toNat)

/-- The quotient rounded to the nearest integer, a half to the even one. -/
def roundDiv (num den : Nat) : Nat :=
  let q := num / den
  let twice := 2 * (num % den)
  if twice > den || (twice == den && q % 2 == 1) then q + 1 else q

/-- How many decimal digits a number has. -/
def digitCount (n : Nat) : Nat := (Nat.toDigits 10 n).length

/-- The `k` with `10 ^ k ≤ num / den < 10 ^ (k + 1)`, for a positive fraction. -/
def tenExponent (num den : Nat) : Int :=
  if den ≤ num then Int.ofNat (digitCount (num / den)) - 1
  else
    let k := digitCount (den / num)
    if den ≤ num * Nat.pow 10 (k - 1) then 1 - Int.ofNat k else - Int.ofNat k

/-- A positive fraction rounded to `n` significant digits: the digits as one number, and the
power of ten of the first of them. -/
def significant (n num den : Nat) : Nat × Int :=
  let k := tenExponent num den
  let (a, b) := scaleTen num den (Int.ofNat n - 1 - k)
  let d := roundDiv a b
  if d == Nat.pow 10 n then (Nat.pow 10 (n - 1), k + 1) else (d, k)

namespace Binary64

/-- Zero of either sign. -/
def isZero (x : Float) : Bool :=
  match FloatParts.of x with
  | .finite _ 0 _ => true
  | _ => false

/-- The integer part of a finite float, toward zero. -/
def truncate? (x : Float) : Option Int :=
  match FloatParts.of x with
  | .finite negative m e =>
    let (num, den) := ratio m e
    let n := Int.ofNat (num / den)
    some (if negative then -n else n)
  | _ => none

/-- The float nearest to `± m · 10 ^ e`. Exponents far outside the range of floats are cut off
before any power is taken. -/
def ofDecimal (negative : Bool) (m : Nat) (e : Int) : Float :=
  let size := Int.ofNat (digitCount m) + e
  let x : Float :=
    if m == 0 || size < -330 then 0
    else if size > 310 then Float.ofBits 0x7ff0000000000000
    else if 0 ≤ e then Float.ofScientific m false e.toNat
    else Float.ofScientific m true (-e).toNat
  if negative then -x else x

end Binary64

end ValueMachine

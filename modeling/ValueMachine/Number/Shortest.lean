import ValueMachine.Number.Binary64

/-! The fewest decimal digits that read back as a float. The reals that round to a float form an
interval around it, closed where the mantissa is even; on the decimal grids of 1, 2, … 17 digits
the first one with a point inside gives the digits, and of two such points the nearer. -/

namespace ValueMachine

/-- The interval of reals that round to `m · 2 ^ e`, as fourfold numerators over one denominator:
lower end, value, upper end, denominator. -/
def roundingInterval (m : Nat) (e : Int) : Nat × Nat × Nat × Nat :=
  let (num, den) := ratio 1 e
  let below := if m == Nat.pow 2 52 && e > -1074 then 1 else 2
  ((4 * m - below) * num, 4 * m * num, (4 * m + 2) * num, 4 * den)

/-- The better of the two grid points around a value, if one lies in the interval. -/
def gridPoint? (even : Bool) (lo v hi den : Nat) (k : Int) : Option Nat :=
  let (a, b) := scaleTen v den (-k)
  let floor := a / b
  let inside (n : Nat) : Bool :=
    let (x, y) := scaleTen n 1 k
    let (l, h) := (lo * y, hi * y)
    if even then l ≤ x * den && x * den ≤ h else l < x * den && x * den < h
  let low := floor > 0 && inside floor
  let high := inside (floor + 1)
  if low && high then
    if 2 * (a % b) < b || (2 * (a % b) == b && floor % 2 == 0) then some floor else some (floor + 1)
  else if low then some floor
  else if high then some (floor + 1)
  else none

/-- Digits and power of ten of the last digit: the value is `d · 10 ^ k`. -/
def shortestDecimal (m : Nat) (e : Int) : Nat × Int :=
  let (lo, v, hi, den) := roundingInterval m e
  let top := tenExponent v den
  let grids := (List.range 17).filterMap fun i =>
    let k := top - Int.ofNat i
    (gridPoint? (m % 2 == 0) lo v hi den k).map (·, k)
  grids.headD (v / den, 0)

/-- Strips trailing zeros, at most `fuel` of them. -/
def stripZeros : Nat → Nat → Int → Nat × Int
  | 0, d, k => (d, k)
  | fuel + 1, d, k => if d != 0 && d % 10 == 0 then stripZeros fuel (d / 10) (k + 1) else (d, k)

end ValueMachine

import ValueMachine.Number.Basic

/-! The text of a float: fifteen significant digits without trailing zeros, positional for the
powers of ten from -4 to 14 and with an exponent of two digits or more beyond. -/

namespace ValueMachine

/-- How floats are written: the number of significant digits, the powers of ten between which the
notation is positional, the least number of exponent digits, and three words. -/
structure FloatStyle where
  digits : Nat
  lowest : Int
  beyond : Int
  exponentDigits : Nat
  nan : String
  infinity : String
  zero : String

/-- The machine's own style. -/
def FloatStyle.machine : FloatStyle := ⟨15, -4, 15, 2, "NaN", "Inf", "0"⟩

namespace FloatText

/-- A number with at least `n` digits. -/
def padded (n m : Nat) : List Char :=
  let ds := Nat.toDigits 10 m
  List.replicate (n - ds.length) '0' ++ ds

/-- Decimals without trailing zeros, after a point where any are left. -/
def decimals (ds : List Char) : List Char :=
  match (ds.reverse.dropWhile (· == '0')).reverse with
  | [] => []
  | kept => '.' :: kept

/-- One digit, its decimals, and the power of ten. -/
def scientific (style : FloatStyle) (d : Nat) (k : Int) : List Char :=
  let ds := padded style.digits d
  ds.take 1 ++ decimals (ds.drop 1) ++ ['e', if k < 0 then '-' else '+']
    ++ padded style.exponentDigits k.natAbs

/-- `d / 10 ^ places` in positional notation. -/
def positional (places d : Nat) : List Char :=
  Nat.toDigits 10 (d / Nat.pow 10 places)
    ++ decimals (if places == 0 then [] else padded places (d % Nat.pow 10 places))

/-- The text of a positive fraction. -/
def magnitude (style : FloatStyle) (num den : Nat) : List Char :=
  let (d, k) := significant style.digits num den
  if style.lowest ≤ k && k < style.beyond then
    let places := (Int.ofNat style.digits - 1 - k).toNat
    positional places (roundDiv (num * Nat.pow 10 places) den)
  else scientific style d k

end FloatText

/-- The text of a float. -/
def floatText (style : FloatStyle) (x : Float) : String :=
  let signed (negative : Bool) (s : List Char) : String :=
    String.ofList (if negative then '-' :: s else s)
  match FloatParts.of x with
  | .nan => style.nan
  | .infinite negative => signed negative style.infinity.toList
  | .finite negative m e =>
    if m == 0 then style.zero
    else
      let (num, den) := ratio m e
      signed negative (FloatText.magnitude style num den)

end ValueMachine

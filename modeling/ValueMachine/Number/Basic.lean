import ValueMachine.Number.Binary64

/-! Numbers as the machine reads them: a signed or unsigned 64-bit integer or a float, with the
two integer casts. Both casts of a float go through its integer part: it wraps while it fits one
of the two integer types and is clamped beyond. -/

namespace ValueMachine

/-- A 64-bit integer, signed or unsigned. -/
inductive Wide where
  | signed (n : Int64)
  | unsigned (n : UInt64)
  deriving DecidableEq, Repr

namespace Wide

/-- The signed form of an unsigned integer where it has one. -/
def ofUInt64 (n : UInt64) : Wide :=
  if n.toNat < Nat.pow 2 63 then signed n.toInt64 else unsigned n

def toInt : Wide → Int
  | signed n => n.toInt
  | unsigned n => n.toNat

/-- The same 64 bits, read as signed. -/
def toInt64 : Wide → Int64
  | signed n => n
  | unsigned n => n.toInt64

/-- The same 64 bits, read as unsigned. -/
def toUInt64 : Wide → UInt64
  | signed n => n.toUInt64
  | unsigned n => n

def toFloat : Wide → Float
  | signed n => n.toFloat
  | unsigned n => n.toFloat

def isUnsigned : Wide → Bool
  | signed _ => false
  | unsigned _ => true

/-- The decimal digits, with a minus sign where the integer is negative. -/
def text (w : Wide) : String := toString w.toInt

end Wide

/-- A numeric reading. -/
inductive Number where
  | whole (n : Wide)
  | float (x : Float)

namespace Number

/-- The signed cast of a float: not a number is zero, an integer part from `2 ^ 63` up to `2 ^ 64`
keeps its 64 bits, and what is larger than both types becomes all ones. -/
def castSigned (x : Float) : Int64 :=
  match FloatParts.of x with
  | .nan => 0
  | .infinite negative => if negative then Int64.minValue else -1
  | .finite .. =>
    match Binary64.truncate? x with
    | none => 0
    | some n =>
      if n < Int64.minValue.toInt then Int64.minValue
      else if n < UInt64.size then Int64.ofInt n
      else -1

/-- The unsigned cast of a float: a negative one goes through the signed range, a large one is
clamped. -/
def castUnsigned (x : Float) : UInt64 :=
  match FloatParts.of x with
  | .nan => 0
  | .infinite negative =>
    if negative then Int64.minValue.toUInt64 else UInt64.ofNat (UInt64.size - 1)
  | .finite .. =>
    match Binary64.truncate? x with
    | none => 0
    | some n =>
      if n < 0 then (if n < Int64.minValue.toInt then Int64.minValue else Int64.ofInt n).toUInt64
      else UInt64.ofNat (min n.toNat (UInt64.size - 1))

/-- Signed reading. -/
def toInt64 : Number → Int64
  | whole n => n.toInt64
  | float x => castSigned x

/-- Unsigned reading. -/
def toUInt64 : Number → UInt64
  | whole n => n.toUInt64
  | float x => castUnsigned x

/-- Float reading. -/
def toFloat : Number → Float
  | whole n => n.toFloat
  | float x => x

end Number

end ValueMachine

import ValueMachine.Host.Failure

/-! Strict readings, which fail where the machine itself would fall back to zero or the empty text.
A number is a scalar with a numeric slot, or a text that is a number as a whole. -/

namespace ValueMachine

/-- The integer types of host code. -/
inductive IntType where
  | i8 | i16 | i32 | i64 | isize
  | u8 | u16 | u32 | u64 | usize
  deriving DecidableEq, Repr

namespace IntType

def name : IntType → String
  | i8 => "i8"
  | i16 => "i16"
  | i32 => "i32"
  | i64 => "i64"
  | isize => "isize"
  | u8 => "u8"
  | u16 => "u16"
  | u32 => "u32"
  | u64 => "u64"
  | usize => "usize"

def isSigned : IntType → Bool
  | i8 | i16 | i32 | i64 | isize => true
  | u8 | u16 | u32 | u64 | usize => false

def bits : IntType → Nat
  | i8 | u8 => 8
  | i16 | u16 => 16
  | i32 | u32 => 32
  | i64 | isize | u64 | usize => 64

def least (t : IntType) : Int := if t.isSigned then -Int.ofNat (Nat.pow 2 (t.bits - 1)) else 0

def greatest (t : IntType) : Int :=
  Int.ofNat (Nat.pow 2 (if t.isSigned then t.bits - 1 else t.bits)) - 1

/-- Whether an integer is of the type. -/
def contains (t : IntType) (n : Int) : Bool := t.least ≤ n && n ≤ t.greatest

end IntType

/-- The signed integer that a number is, the fraction of a float cut off. -/
def Number.toSigned? : Number → Option Int
  | .whole n => if IntType.i64.contains n.toInt then some n.toInt else none
  | .float x => (Binary64.truncate? x).filter IntType.i64.contains

/-- The unsigned integer that a number is, the fraction of a float cut off. A negative float is
none. -/
def Number.toUnsigned? : Number → Option Int
  | .whole n => if IntType.u64.contains n.toInt then some n.toInt else none
  | .float x => if x ≥ 0 then (Binary64.truncate? x).filter IntType.u64.contains else none

namespace Strict

open Machine

/-- The number that a value is; `want` names the type that was asked for. -/
def number (h : Handle) (want : String) : Bridge Number := do
  unless ← isDefined h do Failure.about h .unexpectedUndefined
  let m ← get
  if m.kind h ≠ .scalar || m.isReference h then Failure.about h (.notNumber · want)
  else if m.hasInt h || m.hasFloat h then Machine.number h
  else if m.hasText h then
    match Number.ofBytes? (← Machine.text h).bytes with
    | some n => return n
    | none => Failure.about h (.notNumber · want)
  else Failure.about h (.notNumber · want)

/-- The signed integer that a value is. -/
def signed (h : Handle) : Bridge Int := do
  match (← number h "i64").toSigned? with
  | some n => return n
  | none => Failure.about h (.notNumber · "i64")

/-- The unsigned integer that a value is. -/
def unsigned (h : Handle) : Bridge Int := do
  match (← number h "u64").toUnsigned? with
  | some n => return n
  | none => Failure.about h (.notNumber · "u64")

/-- The integer of a type that a value is. -/
def integer (t : IntType) (h : Handle) : Bridge Int := do
  let n ← if t.isSigned then signed h else unsigned h
  if t.contains n then return n else Failure.about h (.notNumber · t.name)

/-- The float that a value is. -/
def float (h : Handle) : Bridge Float := do return (← number h "f64").toFloat

/-- The byte text of a defined scalar that is no reference. -/
def text (h : Handle) : Bridge ByteText := do
  unless ← isDefined h do Failure.about h .unexpectedUndefined
  let m ← get
  if m.kind h ≠ .scalar || m.isReference h then Failure.about h .notStringOrNumber
  else Machine.text h

/-- The text of a defined scalar that is no reference, read leniently. -/
def string (h : Handle) : Bridge String := do return (← text h).bytes.toText

end Strict

end ValueMachine

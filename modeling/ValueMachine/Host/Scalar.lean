import ValueMachine.Host.HostType

/-! Scalars in the hands of host code: assignment, equality by text, and readings that an undefined
scalar passes over. -/

namespace ValueMachine.HostScalar

open Machine

/-- A new scalar with a host value. -/
def make (d : Datum) : Run Held := do adopt (← d.toValue)

/-- Read a scalar as a type. -/
def get (t : HostType) (v : Held) : Bridge t.Value := Bridge.onOwner v (t.read .share v.handle)

/-- Assign a host value. A fresh value is made for it and released again. -/
def assign (v : Held) (d : Datum) : Run Unit :=
  onInterpreter v.owner do
    let fresh ← d.toValue
    Machine.assign v.handle fresh
    Run.change (·.release fresh)

/-- Store new slots. -/
def put (v : Held) (s : Scalar) : Run Unit := onInterpreter v.owner (store v.handle s)

/-- Make a scalar a reference to what another handle holds. -/
def refer (v target : Held) : Run Unit :=
  onInterpreter v.owner (storeReference v.handle target.handle)

/-- A new reference to what a handle holds. -/
def reference (target : Held) : Run Held :=
  onInterpreter target.owner do adopt (← newReference target.handle)

/-- Whether two scalars have the same text. -/
def equal (v w : Held) : Run Bool := do
  let a ← onInterpreter v.owner (text v.handle)
  let b ← onInterpreter w.owner (text w.handle)
  return a.bytes == b.bytes

/-- The hash of a scalar's text; equal scalars have the same. -/
def keyHash (v : Held) : Run UInt32 := do
  return (← onInterpreter v.owner (text v.handle)).bytes.keyHash

/-- Read a defined scalar, and give nothing for an undefined one. -/
def map (v : Held) (read : Handle → Bridge α) : Bridge (Option α) :=
  Bridge.onOwner v do
    if ← isDefined v.handle then return some (← read v.handle) else return none

/-- Read a defined scalar as a type, and give a default for an undefined one. -/
def orElse (t : HostType) (v : Held) (fallback : t.Value) : Bridge t.Value := do
  return (← map v (t.read .share)).getD fallback

end ValueMachine.HostScalar

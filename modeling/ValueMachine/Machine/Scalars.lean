import ValueMachine.Machine.Hooks
import ValueMachine.Machine.Kind
import ValueMachine.Number.Text

/-! Readings of values, copies and assignment. Every reading runs the read hooks first; what is no
scalar reads as the address or the reference text of itself. -/

namespace ValueMachine

/-- The text of a scalar that is no reference: text, integer, float, in this order. -/
def Scalar.plainText? (s : Scalar) : Option ByteText :=
  match s.text, s.int, s.float, s.target with
  | some t, _, _, _ => some t
  | none, some n, _, _ => some ⟨Bytes.ofText n.text, false⟩
  | none, none, some x, _ => some ⟨Bytes.ofText (floatText .machine x), false⟩
  | none, none, none, none => some ⟨[], false⟩
  | none, none, none, some _ => none

namespace Machine

/-- The text of a value as it stands. -/
def textAt (m : Machine) (h : Handle) : ByteText :=
  match m.scalar? h with
  | some s =>
    match s.plainText?, s.target with
    | some t, _ => t
    | none, some target => ⟨Bytes.ofText (m.referenceText target), false⟩
    | none, none => ⟨[], false⟩
  | none => ⟨Bytes.ofText (m.referenceText h), false⟩

/-- Whether a value is defined as it stands. What is no scalar always is. -/
def definedAt (m : Machine) (h : Handle) : Bool :=
  match m.body h with
  | .scalar s => s.isDefined
  | .freed => false
  | _ => true

/-- The truth value of a value as it stands. -/
def truthAt (m : Machine) (h : Handle) : Bool :=
  match m.body h with
  | .scalar s => s.truth
  | .freed => false
  | _ => true

/-- The number of a value as it stands. -/
def numberAt (m : Machine) (h : Handle) : Number :=
  match m.scalar? h with
  | some s => s.number
  | none => .whole (.unsigned h.address)

def isDefined (h : Handle) : Run Bool := do
  runReadHooks h
  Run.look (·.definedAt h)

/-- The numeric reading. -/
def number (h : Handle) : Run Number := do
  runReadHooks h
  Run.look (·.numberAt h)

/-- The byte text with its flag. -/
def text (h : Handle) : Run ByteText := do
  runReadHooks h
  Run.look (·.textAt h)

/-- The text, read leniently. -/
def string (h : Handle) : Run String := do return (← text h).bytes.toText

def truth (h : Handle) : Run Bool := do
  runReadHooks h
  Run.look (·.truthAt h)

/-- The slots of a scalar for a copy, which owns a count on the target. -/
def copySlots (h : Handle) : Run Scalar := do
  runReadHooks h
  match ← Run.look (·.scalar? h) with
  | some s =>
    Run.change fun m => s.owned.foldl retain m
    return s
  | none => raise .copyOfNonScalar

/-- A new scalar with the slots of another. -/
def newCopy (h : Handle) : Run Handle := do
  let s ← copySlots h
  modifyGet (·.alloc (.scalar s))

/-- Assign the value of `src` to `dst`. -/
def assign (dst src : Handle) : Run Unit := do
  if dst = src then return
  store dst (← copySlots src)

/-- A new scalar. -/
def newScalar (s : Scalar) : Run Handle := modifyGet (·.alloc (.scalar s))

/-- A new reference, with a count of its own on the target. -/
def newReference (target : Handle) : Run Handle := do
  Run.change (·.retain target)
  newScalar (.ofTarget target)

/-- Make a scalar a reference, with a count of its own on the target. -/
def storeReference (h target : Handle) : Run Unit := do
  Run.change (·.retain target)
  store h (.ofTarget target)

/-- Raise a value as an exception. -/
def raiseValue (err : Handle) : Run α := do
  let slot ← modifyGet (·.errorSlot)
  assign slot err
  throw .raised

end Machine

end ValueMachine

import ValueMachine.Heap.Slots
import ValueMachine.Machine.Scalars

/-! Arrays in the heap. Storing adopts the caller's count, taking out hands one over, and looking
borrows. The machine gives up where a sequence of slots, of an array or of the stack, would become
longer than any can be. -/

namespace ValueMachine.Machine

/-! ### Room for slots -/

/-- The most slots that a sequence can have. -/
def slotLimit : Nat := Nat.pow 2 60 - 1

/-- Give up unless a sequence can have `n` slots. -/
def checkRoom (n : Nat) : Run Unit :=
  if n > slotLimit then throw (.aborted (some "capacity overflow")) else pure ()

/-- Give up unless a sequence can have a slot at an index, or the index has no successor among the
64-bit words. -/
def checkIndex (index : Nat) : Run Unit :=
  if index + 1 < UInt64.size then checkRoom (index + 1)
  else throw (.aborted (some "attempt to add with overflow"))

/-- Overwrite a place of the stack, which grows up to it. -/
def stackPut (index : Nat) (h : Handle) : Run Unit := do
  checkIndex index
  Run.change (·.putAt index h)

/-! ### Arrays -/

/-- Replace the slots of an array and give a result. -/
def onSlots (h : Handle) (f : Slots → α × Slots) : Run α := do
  match (← Run.look (·.body h)).array? with
  | some xs =>
    let (a, ys) := f xs
    Run.change (·.setBody h (.array ys))
    return a
  | none => raise .notArray

/-- The slots of an array. -/
def slots (h : Handle) : Run Slots := do
  match (← Run.look (·.body h)).array? with
  | some xs => return xs
  | none => raise .notArray

def newArray : Run Handle := modifyGet (·.alloc (.array []))

def arrayLength (h : Handle) : Run Nat := do return (← slots h).length

/-- Make sure that an array can have some slots in all. -/
def arrayReserve (h : Handle) (n : Nat) : Run Unit := do
  let _ ← slots h
  checkRoom n

/-- Make sure that an array can have a slot at an index. -/
def arrayExtend (h : Handle) (index : Nat) : Run Unit := do
  let _ ← slots h
  checkIndex index

/-- Store a value at an index, adopting its count; the former value's count goes to the caller. -/
def arrayStore (h : Handle) (i : Int) (value : Handle) : Run (Option Handle) := do
  match Slots.place? (← slots h).length i with
  | some p =>
    arrayReserve h (p + 1)
    onSlots h (Slots.put · p value)
  | none =>
    Run.change (·.release value)
    raise .notCreatable

/-- The value at an index. -/
def arrayFetch? (h : Handle) (i : Int) : Run (Option Handle) := do
  return (← slots h).fetch? i

/-- The value at an index, created as an undefined scalar where it is missing. -/
def arrayFetchOrNew (h : Handle) (i : Int) : Run Handle := do
  match ← arrayFetch? h i with
  | some found => return found
  | none =>
    let fresh ← newScalar .undefined
    match ← arrayStore h i fresh with
    | some former => Run.change (·.release former)
    | none => pure ()
    return fresh

/-- Take the value at an index out; its count goes to the caller. -/
def arrayTake (h : Handle) (i : Int) : Run (Option Handle) := onSlots h (Slots.take · i)

def arrayHas (h : Handle) (i : Int) : Run Bool := do return (← slots h).has i

def arrayPush (h value : Handle) : Run Unit :=
  onSlots h fun xs => ((), xs ++ [some value])

def arrayPop (h : Handle) : Run (Option Handle) := onSlots h Slots.pop

def arrayShift (h : Handle) : Run (Option Handle) := onSlots h Slots.shift

/-- Holes in front. -/
def arrayUnshift (h : Handle) (n : Nat) : Run Unit := do
  checkRoom ((← slots h).length + n)
  onSlots h fun xs => ((), xs.unshift n)

/-- Release every element. -/
def arrayClear (h : Handle) : Run Unit := do
  let xs ← onSlots h fun xs => (xs, [])
  Run.change (·.releaseAll (xs.filterMap id))

end ValueMachine.Machine

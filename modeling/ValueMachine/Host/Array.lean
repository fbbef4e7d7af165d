import ValueMachine.Host.HostType

/-! Arrays in the hands of host code. An element is shared: what is assigned to it is seen in the
array. A negative index counts from the end and cannot reach before the first element. -/

namespace ValueMachine.HostArray

open Machine

/-- Hold an element that may be missing. -/
def holdSome (found : Option Handle) : Run (Option Held) :=
  match found with
  | some h => some <$> hold h
  | none => pure none

/-- Hold what was taken out, if anything was. -/
def adoptSome (taken : Option Handle) : Run (Option Held) :=
  match taken with
  | some h => some <$> adopt h
  | none => pure none

def size (a : Held) : Run Nat := onInterpreter a.owner (arrayLength a.handle)

/-- Make sure that the array can have some elements in all. -/
def reserve (a : Held) (n : Nat) : Run Unit := onInterpreter a.owner (arrayReserve a.handle n)

/-- The element at an index. -/
def get? (a : Held) (i : Int) : Run (Option Held) :=
  onInterpreter a.owner do holdSome (← arrayFetch? a.handle i)

/-- The element at an index, or a new undefined scalar. -/
def getOrUndefined (a : Held) (i : Int) : Run Held :=
  onInterpreter a.owner do
    match ← arrayFetch? a.handle i with
    | some h => hold h
    | none => holdNew .undefined

/-- The element at an index; a missing one is a failure. -/
def elementAt (a : Held) (i : Int) : Bridge Held := do
  match ← Bridge.ofRun (get? a i) with
  | some v => return v
  | none => Bridge.fail (.elementMissing i)

/-- The element at an index, read as a type. -/
def fetch (t : HostType) (a : Held) (i : Int) : Bridge (Option t.Value) :=
  Bridge.onOwner a do
    match ← Bridge.ofRun (arrayFetch? a.handle i) with
    | some h => return some (← t.read .share h)
    | none => return none

/-- Fail for an index before the first element. -/
def checkCreatable (a : Held) (i : Int) : Bridge Unit := do
  if i < 0 && i.natAbs > (← Bridge.ofRun (size a)) then Bridge.fail (.elementMissing i)

/-- The element at an index, created where it is missing. -/
def lvalue (a : Held) (i : Int) : Bridge Held := do
  checkCreatable a i
  Bridge.ofRun (onInterpreter a.owner do hold (← arrayFetchOrNew a.handle i))

/-- Store a fresh value at an index. -/
def set (a : Held) (i : Int) (d : Datum) : Bridge Unit := do
  checkCreatable a i
  Bridge.ofRun (onInterpreter a.owner do
    match ← arrayStore a.handle i (← d.toValue) with
    | some former => Run.change (·.release former)
    | none => pure ())

/-- Take the element at an index out. -/
def delete? (a : Held) (i : Int) : Run (Option Held) :=
  onInterpreter a.owner do adoptSome (← arrayTake a.handle i)

def contains (a : Held) (i : Int) : Run Bool := onInterpreter a.owner (arrayHas a.handle i)

/-- Append a fresh value. -/
def push (a : Held) (d : Datum) : Run Unit :=
  onInterpreter a.owner do arrayPush a.handle (← d.toValue)

def pop? (a : Held) : Run (Option Held) :=
  onInterpreter a.owner do adoptSome (← arrayPop a.handle)

def shift? (a : Held) : Run (Option Held) :=
  onInterpreter a.owner do adoptSome (← arrayShift a.handle)

/-- Put a fresh value in front. -/
def unshift (a : Held) (d : Datum) : Run Unit :=
  onInterpreter a.owner do
    let fresh ← d.toValue
    arrayUnshift a.handle 1
    let _ ← arrayStore a.handle 0 fresh

def clear (a : Held) : Run Unit := onInterpreter a.owner (arrayClear a.handle)

/-- The element that an iteration comes to at a position: nothing beyond the present end, and a new
undefined scalar for a hole. -/
def step (a : Held) (position : Nat) : Run (Option Held) := do
  if position < (← size a) then some <$> getOrUndefined a (Int.ofNat position) else return none

/-- The elements, each read as a type. -/
def toList (t : HostType) (a : Held) : Bridge (List t.Value) :=
  Bridge.onOwner a (Reading.vector (t.read .share) t.held a.handle)

/-- A new array of fresh values. -/
def ofList (items : List Datum) : Run Held := do
  let a ← adopt (← newArray)
  (items.forM fun d => push a d).otherwise (·.drop a)
  return a

end ValueMachine.HostArray

import ValueMachine.Host.Array
import ValueMachine.Host.Scalar

/-! Hashes in the hands of host code. A key is a text, or a scalar that is read as one; a missing
key is told apart from one with an undefined value. -/

namespace ValueMachine.HostHash

open Machine HostArray

def size (h : Held) : Run Nat := onInterpreter h.owner (hashLength h.handle)

/-- The value under a key. -/
def get? (h : Held) (key : String) : Run (Option Held) :=
  onInterpreter h.owner do holdSome (← hashFetch? h.handle (Bytes.ofText key))

/-- The value under a key, read as a type. -/
def fetch (t : HostType) (h : Held) (key : String) : Bridge (Option t.Value) :=
  Bridge.onOwner h do
    match ← Bridge.ofRun (hashFetch? h.handle (Bytes.ofText key)) with
    | some found => return some (← t.read .share found)
    | none => return none

/-- The value under a key, created where it is missing. -/
def lvalue (h : Held) (key : String) : Run Held :=
  onInterpreter h.owner do hold (← hashFetchOrNew h.handle (Bytes.ofText key))

/-- Store a fresh value under a key. -/
def set (h : Held) (key : String) (d : Datum) : Run Unit :=
  onInterpreter h.owner do hashPut h.handle (Bytes.ofText key) (← d.toValue)

/-- Take a key out. -/
def delete? (h : Held) (key : String) : Run (Option Held) :=
  onInterpreter h.owner do adoptSome (← hashTake h.handle (Bytes.ofText key))

/-- Store a fresh value, or take the key out where there is none. -/
def assign (h : Held) (key : String) (d : Option Datum) : Run Unit :=
  match d with
  | some d => set h key d
  | none => onInterpreter h.owner do
    match ← hashTake h.handle (Bytes.ofText key) with
    | some former => Run.change (·.release former)
    | none => pure ()

def contains (h : Held) (key : String) : Run Bool :=
  onInterpreter h.owner (hashHas h.handle (Bytes.ofText key))

/-- The value under a scalar key. -/
def getEntry? (h key : Held) : Run (Option Held) :=
  onInterpreter h.owner do holdSome (← hashFetch? h.handle (← text key.handle).bytes)

/-- Store a fresh value under a scalar key. The value is made before the key is read. -/
def setEntry (h key : Held) (d : Datum) : Run Unit :=
  onInterpreter h.owner do
    let fresh ← d.toValue
    hashPut h.handle (← text key.handle).bytes fresh

/-- Take a scalar key out. -/
def deleteEntry? (h key : Held) : Run (Option Held) :=
  onInterpreter h.owner do adoptSome (← hashTake h.handle (← text key.handle).bytes)

def containsEntry (h key : Held) : Run Bool :=
  onInterpreter h.owner do hashHas h.handle (← text key.handle).bytes

def clear (h : Held) : Run Unit := onInterpreter h.owner (hashClear h.handle)

/-- The keys, without the hash's own cursor. -/
def keys (h : Held) : Run (List String) :=
  onInterpreter h.owner do return (← hashEntries h.handle).map (·.1.toText)

/-- The entries that the hash's own cursor still comes to, each value held. -/
def rest (h : Held) : Nat → Run (List (Bytes × Held))
  | 0 => pure []
  | fuel + 1 => do
    match ← hashNext h.handle with
    | none => return []
    | some (key, found) =>
      let v ← hold found
      return (key, v) :: (← rest h fuel)

/-- The entries by the hash's own cursor, which starts anew. -/
def entries (h : Held) : Run (List (Bytes × Held)) :=
  onInterpreter h.owner do rest h ((← hashStart h.handle) + 1)

/-- The entries, each value read as a type. -/
def toMap (t : HostType) (h : Held) : Bridge (List (String × t.Value)) :=
  Bridge.onOwner h (Reading.textMap (t.read .share) t.held h.handle)

/-- A new hash of fresh values. -/
def ofPairs (pairs : List (String × Datum)) : Run Held := do
  let h ← adopt (← newHash)
  (pairs.forM fun (key, d) => set h key d).otherwise (·.drop h)
  return h

/-- Store the values of a flat list of keys and values. -/
def setAll (h : Held) : List Held → Run Unit
  | key :: v :: more => do
    setEntry h key (.scalar v)
    setAll h more
  | _ => pure ()

/-- A new hash of a flat list of keys and values. -/
def ofList (items : List Held) : Bridge Held := do
  if items.length % 2 = 1 then Bridge.fail .oddElements
  let h ← Bridge.ofRun (do adopt (← newHash))
  Bridge.ofRun ((setAll h items).otherwise (·.drop h))
  return h

/-- How a value is wrapped: in a reference to itself, or to a container of it. -/
inductive Wrapping where
  | reference
  | array
  | hash
  deriving DecidableEq, Repr

/-- A reference to a value or to a new container of it. -/
def wrap (v : Held) : Wrapping → Run Held
  | .reference => HostScalar.reference v
  | .array => do referTo (← HostArray.ofList [.scalar v])
  | .hash => do referTo (← ofPairs [("k", .scalar v)])
where
  referTo (container : Held) : Run Held := do
    let w ← HostScalar.reference container
    Run.change (·.drop container)
    return w

/-- A value wrapped some times, which is given up. -/
def nest (w : Wrapping) : Nat → Held → Run Held
  | 0, v => return v
  | n + 1, v => do
    let outer ← wrap v w
    Run.change (·.drop v)
    nest w n outer

end ValueMachine.HostHash

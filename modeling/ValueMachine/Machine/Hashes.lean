import ValueMachine.Heap.Table
import ValueMachine.Machine.Arrays

/-! Hashes in the heap, with the same rules of ownership as arrays, and duplicates of values. -/

namespace ValueMachine.Machine

/-- Replace the table of a hash and give a result. -/
def onTable (h : Handle) (f : Table → α × Table) : Run α := do
  match (← Run.look (·.body h)).hash? with
  | some t =>
    let (a, u) := f t
    Run.change (·.setBody h (.hash u))
    return a
  | none => raise .notHash

/-- The table of a hash. -/
def table (h : Handle) : Run Table := do
  match (← Run.look (·.body h)).hash? with
  | some t => return t
  | none => raise .notHash

def newHash : Run Handle := modifyGet (·.alloc (.hash .empty))

def hashLength (h : Handle) : Run Nat := do return (← table h).size

def hashFetch? (h : Handle) (key : Bytes) : Run (Option Handle) := do return (← table h).get? key

/-- Store a value under a key, adopting its count; the former value's count goes to the caller. -/
def hashStore (h : Handle) (key : Bytes) (value : Handle) : Run (Option Handle) :=
  onTable h fun t => (t.get? key, t.insert key value)

/-- The value under a key, created as an undefined scalar where it is missing. -/
def hashFetchOrNew (h : Handle) (key : Bytes) : Run Handle := do
  match ← hashFetch? h key with
  | some found => return found
  | none =>
    let fresh ← newScalar .undefined
    let _ ← hashStore h key fresh
    return fresh

/-- Take a key out; its value's count goes to the caller. -/
def hashTake (h : Handle) (key : Bytes) : Run (Option Handle) :=
  onTable h fun t => (t.get? key, t.erase key)

def hashHas (h : Handle) (key : Bytes) : Run Bool := do return (← hashFetch? h key).isSome

/-- Release every entry and end the iteration. -/
def hashClear (h : Handle) : Run Unit := do
  let t ← onTable h fun t => (t, .empty)
  Run.change (·.releaseAll (t.entries.map (·.2)))

/-- Start the iteration, and count the entries. -/
def hashStart (h : Handle) : Run Nat := onTable h fun t => (t.size, t.start)

/-- The next entry of the iteration. -/
def hashNext (h : Handle) : Run (Option (Bytes × Handle)) := onTable h Table.step

def hashEntries (h : Handle) : Run (List (Bytes × Handle)) := do return (← table h).entries

/-- Store a value whose count is adopted, and release the former one. -/
def hashPut (h : Handle) (key : Bytes) (value : Handle) : Run Unit := do
  match ← hashStore h key value with
  | some former => Run.change (·.release former)
  | none => pure ()

/-- A copy of an array, element by element. -/
def copyArray (h : Handle) : Run Handle := do
  let copy ← newArray
  (← slots h).zipIdx.forM fun
    | (some item, i) => do let _ ← arrayStore copy (Int.ofNat i) (← newCopy item)
    | (none, _) => pure ()
  return copy

/-- A copy of a hash, entry by entry. -/
def copyHash (h : Handle) : Run Handle := do
  let copy ← newHash
  (← hashEntries h).forM fun (key, item) => do hashPut copy key (← newCopy item)
  return copy

/-- A duplicate of a value: a scalar by its slots, a container one level deep. What cannot be
duplicated is shared. -/
def duplicate (h : Handle) : Run Handle := do
  match ← Run.look (·.kind h) with
  | .array => copyArray h
  | .hash => copyHash h
  | .code | .format | .io =>
    Run.change (·.retain h)
    return h
  | .scalar | .unknown => newCopy h

end ValueMachine.Machine

import ValueMachine.Host.Closure
import ValueMachine.Json.Basic

/-! Values as JSON documents and back. References are followed and classes ignored; a value of no
form that a document has becomes its description. Containers become references to new ones. -/

namespace ValueMachine.Document

open Machine

/-- The failure of a value nested too deeply. -/
def tooDeep : Failure := .host "value nested too deeply for JSON" []

/-- How deep references and containers may be nested. -/
def maxDepth : Nat := 512

/-- The document of a scalar that is no reference. -/
def ofScalar (h : Handle) : Bridge Json := do
  if ← isDefined h then
    let m ← get
    if m.hasInt h then
      match ← Bridge.ofRun (Strict.signed h).run with
      | .ok n => return .int n
      | .error f =>
        Run.change (·.dropAll f.held)
        return .int (← number h).toUInt64.toNat
    else if m.hasFloat h && !m.hasText h then return finite (← number h).toFloat
    else return .text (← string h)
  else return .null
where
  /-- A float that is no finite number is null. -/
  finite (x : Float) : Json :=
    match FloatParts.of x with
    | .finite .. => .float x
    | _ => .null

/-- The documents of the elements of an array from an index on. The length is looked up at each
step, and a hole is a new undefined value. -/
def ofElements (convert : Handle → Bridge Json) (array : Handle) : Nat → Nat → Bridge (List Json)
  | 0, _ => pure []
  | fuel + 1, i => do
    let xs ← slots array
    if i < xs.length then
      let item ← match (xs[i]?).join with
        | some h => Bridge.ofRun (hold h)
        | none => Bridge.ofRun (holdNew .undefined)
      let j ← Bridge.releasing [item] (convert item.handle)
      return j :: (← ofElements convert array fuel (i + 1))
    else return []

/-- The fields for the entries that the cursor of a hash still comes to. -/
def ofEntries (convert : Handle → Bridge Json) (hash : Handle) :
    Nat → Bridge (List (String × Json))
  | 0 => pure []
  | fuel + 1 => do
    match ← Bridge.ofRun (hashNext hash) with
    | none => return []
    | some (key, h) =>
      let item ← Bridge.ofRun (hold h)
      let j ← Bridge.releasing [item] (convert item.handle)
      return (key.toText, j) :: (← ofEntries convert hash fuel)

/-- The document of a value, with at most `depth` more levels. -/
def ofValueWithin : Nat → Handle → Bridge Json
  | 0, _ => Bridge.fail tooDeep
  | depth + 1, h => do
    match ← Bridge.look (·.kind h) with
    | .array => do
      let array ← Bridge.ofRun (hold h)
      Bridge.releasing [array] do
        let n := (← slots h).length
        return .list (← ofElements (ofValueWithin depth) h (n + 1) 0)
    | .hash => do
      let hash ← Bridge.ofRun (hold h)
      Bridge.releasing [hash] do
        let n ← Bridge.ofRun (hashStart h)
        return .ofFields (← ofEntries (ofValueWithin depth) h (n + 1))
    | .scalar =>
      match ← Bridge.look (·.target? h) with
      | some target => do
        let held ← Bridge.ofRun (hold target)
        Bridge.releasing [held] (ofValueWithin depth target)
      | none => ofScalar h
    | .code | .format | .io | .unknown => return .text (← describe h)

/-- The document of a value. -/
def ofValue (h : Handle) : Bridge Json := ofValueWithin (maxDepth + 1) h

mutual

/-- Hold a new scalar for a document. -/
def toHeld : Json → Run Held
  | .null => holdNew .undefined
  | .bool b => holdNew (.ofBool b)
  | .int n =>
    if n < 0 then holdNew (.ofInt64 (Int64.ofInt n))
    else holdNew (.ofUInt64 (UInt64.ofNat n.toNat))
  | .float x => holdNew (.ofFloat x)
  | .text s => holdNew (.ofText s)
  | .list items => do
    let array ← adopt (← newArray)
    pushAll array.handle items
    referTo array
  | .object fields => do
    let hash ← adopt (← newHash)
    putAll hash.handle fields
    referTo hash

/-- Append a copy of the scalar for each document. -/
def pushAll (array : Handle) : List Json → Run Unit
  | [] => pure ()
  | j :: rest => do
    let v ← toHeld j
    arrayPush array (← newCopy v.handle)
    Run.change (·.drop v)
    pushAll array rest

/-- Put a copy of the scalar for each field. -/
def putAll (hash : Handle) : List (String × Json) → Run Unit
  | [] => pure ()
  | (key, j) :: rest => do
    let v ← toHeld j
    hashPut hash (Bytes.ofText key) (← newCopy v.handle)
    Run.change (·.drop v)
    putAll hash rest

/-- Hold a reference to a held container, which is given up. -/
def referTo (v : Held) : Run Held := do
  let reference ← adopt (← newReference v.handle)
  Run.change (·.drop v)
  return reference

end

end ValueMachine.Document

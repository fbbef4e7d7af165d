import ValueMachine.Host.Any

/-! Types of host code and the reading of a value as one of them. A borrowed value is shared and a
temporary one duplicated where the result keeps it. Containers are read element by element, and one
that cannot be read gives up all that was read before it. -/

namespace ValueMachine

/-- A type of host code. -/
inductive HostType where
  | bool
  | int (t : IntType)
  | float
  | single
  | string
  | option (t : HostType)
  | vec (t : HostType)
  /-- A map from texts. -/
  | map (t : HostType)
  | value
  | scalar
  | array
  | hash
  | sub
  | object
  | any
  | named (c : NamedClass)
  /-- A shared host instance of a class. -/
  | bridged (className : String)

/-- Whether a value that the result keeps is shared or duplicated. -/
inductive Mode where
  | share
  | copy
  deriving DecidableEq, Repr

namespace HostType

/-- The values of a type. -/
@[reducible] def Value : HostType → Type
  | bool => Bool
  | int _ => Int
  | float => Float
  | single => Float32
  | string => String
  | option t => Option t.Value
  | vec t => List t.Value
  | map t => List (String × t.Value)
  | value | scalar | array | hash | sub | object | named _ => Held
  | any => Any
  | bridged _ => InstanceId

/-- The counts that a value of a type holds. -/
def held : (t : HostType) → t.Value → List Held
  | option t, v => (Option.toList v).flatMap t.held
  | vec t, vs => List.flatMap t.held vs
  | map t, ps => List.flatMap (fun p => t.held p.2) ps
  | value, v | scalar, v | array, v | hash, v | sub, v | object, v | named _, v => [v]
  | any, a => Any.held a
  | bool, _ | int _, _ | float, _ | single, _ | string, _ | bridged _, _ => []

end HostType

namespace Reading

open Machine

/-- Hold a borrowed value in a mode. -/
def keep (mode : Mode) (h : Handle) : Run Held :=
  match mode with
  | .share => hold h
  | .copy => holdCopy h

/-- The container or sub that a value is or refers to, held. -/
def container (kind : Kind) (h : Handle) : Bridge Held := do
  let m ← get
  let inner := (m.target? h).getD h
  if m.kind inner = kind then hold inner else Failure.about h (.unexpectedKind · kind)

/-- The scalar that a value is. -/
def scalar (mode : Mode) (h : Handle) : Bridge Held := do
  if (← Bridge.look (·.kind h)) = .scalar then keep mode h
  else Failure.about h (.unexpectedKind · .scalar)

/-- The object that a held scalar refers to; a failure takes the scalar over. -/
def objectOf (v : Held) : Bridge Held := do
  if ← Bridge.look (·.isObject v.handle) then return v else Bridge.fail (.notObject v)

/-- The object that a value refers to. -/
def object (mode : Mode) (h : Handle) : Bridge Held := do objectOf (← scalar mode h)

/-- The object of a class that a value refers to. -/
def named (mode : Mode) (c : NamedClass) (h : Handle) : Bridge Held := do
  let v ← object mode h
  let fits ← Bridge.ofRun ((isDerivedFrom v.handle c.className).otherwise (·.drop v))
  if fits then return v else Bridge.fail (.unexpectedClass v c.className)

/-- The host instance of a class that a value stands for. -/
def bridged (className : String) (h : Handle) : Bridge InstanceId := do
  let m ← get
  if !m.isObject h then Failure.about h .notObject
  else match m.bridgedInstance? h with
    | none => Failure.about h .notWrapped
    | some i =>
      if m.instanceClass i = className then return i
      else Failure.about h (.unexpectedClass · className)

/-- Read a missing element as a new undefined value, which is given up again. -/
def hole (read : Handle → Bridge α) : Bridge α := do
  let v ← holdNew .undefined
  Bridge.releasing [v] (read v.handle)

/-- Read slots from an index on. A failure tells the index of the element. -/
def slots (read : Handle → Bridge α) (heldBy : α → List Held) : Nat → Slots → Bridge (List α)
  | _, [] => pure []
  | i, slot :: rest => do
    let a ← Bridge.atArgument i (match slot with
      | some h => read h
      | none => hole read)
    let as ← Bridge.guarding (heldBy a) (slots read heldBy (i + 1) rest)
    return a :: as

/-- Read entries. -/
def entries (read : Handle → Bridge α) (heldBy : α → List Held) :
    List (Bytes × Handle) → Bridge (List (String × α))
  | [] => pure []
  | (key, h) :: rest => do
    let a ← read h
    let ps ← Bridge.guarding (heldBy a) (entries read heldBy rest)
    return (key.toText, a) :: ps

/-- A map of the pairs, in the order of the keys' bytes: the last value of a key stays and the
others are given up. -/
def mapOf (heldBy : α → List Held) (pairs : List (String × α)) : Run (List (String × α)) := do
  let lost := pairs.zipIdx.filter fun (p, i) => (pairs.drop (i + 1)).any (·.1 == p.1)
  Run.change (·.dropAll (lost.flatMap fun p => heldBy p.1.2))
  return Keyed.latest pairs

/-- Read the elements of a held array. -/
def vector (read : Handle → Bridge α) (heldBy : α → List Held) (array : Handle) :
    Bridge (List α) := do
  slots read heldBy 0 (← Machine.slots array)

/-- Read the entries of a held hash. -/
def textMap (read : Handle → Bridge α) (heldBy : α → List Held) (hash : Handle) :
    Bridge (List (String × α)) := do
  mapOf heldBy (← entries read heldBy (← hashEntries hash))

end Reading

namespace HostType

open Machine

/-- Read a value as a type. -/
def read (mode : Mode) : (t : HostType) → Handle → Bridge t.Value
  | bool, h => truth h
  | int t, h => Strict.integer t h
  | float, h => Strict.float h
  | single, h => do return (← Strict.float h).toFloat32
  | string, h => Strict.string h
  | option t, h => do
    if ← isDefined h then return some (← t.read mode h) else return none
  | vec t, h => do
    let array ← Reading.container .array h
    Bridge.releasing [array] (Reading.vector (t.read .share) t.held array.handle)
  | map t, h => do
    let hash ← Reading.container .hash h
    Bridge.releasing [hash] (Reading.textMap (t.read .share) t.held hash.handle)
  | value, h => Reading.keep mode h
  | scalar, h => Reading.scalar mode h
  | array, h => Reading.container .array h
  | hash, h => Reading.container .hash h
  | sub, h => Reading.container .code h
  | object, h => Reading.object mode h
  | any, h => do
    let v ← Reading.keep mode h
    Bridge.ofRun ((classify v).otherwise (·.drop v))
  | named c, h => Reading.named mode c h
  | bridged c, h => Reading.bridged c h

/-- The value of a type for an argument that was not passed: none for an option, and otherwise a
failure. -/
def missing (position : Nat) : (t : HostType) → Bridge t.Value
  | option _ => pure none
  | _ => Bridge.fail (.noArgument position)

end HostType

end ValueMachine

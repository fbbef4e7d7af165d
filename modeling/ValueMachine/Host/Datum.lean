import ValueMachine.Host.Strict

/-! Host values given to the machine. As a value to store each becomes a fresh scalar, a container
becoming a reference to a new one; as an argument a held scalar is passed itself, so that it can be
assigned through. -/

namespace ValueMachine

/-- A host value to be given to the machine. -/
inductive Datum where
  | absent
  | bool (b : Bool)
  | signed (n : Int64)
  | unsigned (n : UInt64)
  | float (x : Float)
  | text (s : String)
  | list (items : List Datum)
  | map (pairs : List (String × Datum))
  /-- A held value of any kind. -/
  | held (v : Held)
  /-- A held scalar. -/
  | scalar (v : Held)
  /-- A shared host instance. -/
  | shared (i : InstanceId)

/-- Induction over host values, in which those of a container come before it. -/
@[elab_as_elim]
theorem Datum.induction {motive : Datum → Prop} (absent : motive absent)
    (bool : ∀ b, motive (bool b)) (signed : ∀ n, motive (signed n))
    (unsigned : ∀ n, motive (unsigned n)) (float : ∀ x, motive (float x))
    (text : ∀ s, motive (text s)) (list : ∀ items, (∀ d ∈ items, motive d) → motive (list items))
    (map : ∀ pairs, (∀ p ∈ pairs, motive p.2) → motive (map pairs))
    (held : ∀ v, motive (held v)) (scalar : ∀ v, motive (scalar v))
    (shared : ∀ i, motive (shared i)) (d : Datum) : motive d :=
  @rec motive (fun items => ∀ d ∈ items, motive d) (fun pairs => ∀ p ∈ pairs, motive p.2)
    (fun p => motive p.2) absent bool signed unsigned float text list map held scalar shared
    nofun (fun _ _ hd hrest => List.forall_mem_cons.2 ⟨hd, hrest⟩)
    nofun (fun _ _ hp hrest => List.forall_mem_cons.2 ⟨hp, hrest⟩) (fun _ _ hd => hd) d

/-- The host instance with this number. -/
def Machine.instance? (m : Machine) (i : InstanceId) : Option Instance := m.instances[i.number]?

/-- The class of a host instance. -/
def Machine.instanceClass (m : Machine) (i : InstanceId) : String :=
  ((m.instance? i).map (·.className)).getD ""

namespace HookTable

/-- The hooks of a value that stands for a host instance: its release gives back a claim. -/
def bridge : HookTable := ⟨"bridge", [], [], [.unclaim]⟩

end HookTable

/-- The type of hooks that extensions attach. -/
def Magic.extension : UInt8 := 126

namespace Datum

open Machine

/-- An integer of a type. -/
def ofInteger (t : IntType) (n : Int) : Datum :=
  if t.isSigned then signed (Int64.ofInt n) else unsigned (UInt64.ofNat n.toNat)

/-- A fresh value for a held one: a copy of a scalar, and a reference to what is none. -/
def freshOf (v : Held) : Run Handle := do
  if (← Run.look (·.kind v.handle)) = .scalar then newCopy v.handle else newReference v.handle

/-- A new object that stands for a host instance and holds one claim on it. -/
def objectOf (i : InstanceId) : Run Handle := do
  Run.change (·.claim i)
  let className ← Run.look (·.instanceClass i)
  let h ← newScalar .undefined
  storeObject h (some className) i.identity.toInt64
  match ← Run.look (·.target? h) with
  | some target => Run.change (·.attach target ⟨Magic.extension, .bridge, i.identity⟩)
  | none => pure ()
  return h

mutual

/-- A fresh value, with a count for the caller. -/
def toValue : Datum → Run Handle
  | absent => newScalar .undefined
  | bool b => newScalar (.ofBool b)
  | signed n => newScalar (.ofInt64 n)
  | unsigned n => newScalar (.ofUInt64 n)
  | float x => newScalar (.ofFloat x)
  | text s => newScalar (.ofText s)
  | list items => do
    let array ← newArray
    (pushItems array items).otherwise (·.release array)
    newScalar (.ofTarget array)
  | map pairs => do
    let hash ← newHash
    (putPairs hash pairs).otherwise (·.release hash)
    newScalar (.ofTarget hash)
  | held v => freshOf v
  | scalar v => freshOf v
  | shared i => objectOf i

/-- Append fresh values to an array. -/
def pushItems (array : Handle) : List Datum → Run Unit
  | [] => pure ()
  | d :: rest => do
    arrayPush array (← d.toValue)
    pushItems array rest

/-- Put fresh values into a hash. -/
def putPairs (hash : Handle) : List (String × Datum) → Run Unit
  | [] => pure ()
  | (key, d) :: rest => do
    hashPut hash (Bytes.ofText key) (← d.toValue)
    putPairs hash rest

end

/-- A value to pass as an argument, with a count for the caller. -/
def toArgument : Datum → Run Handle
  | held v => do
    if (← Run.look (·.kind v.handle)) = .scalar then
      Run.change (·.retain v.handle)
      return v.handle
    else freshOf v
  | scalar v => do
    Run.change (·.retain v.handle)
    return v.handle
  | d => d.toValue

/-- The pairs of a map: the last value of each key, in the order of the keys' bytes. -/
def ofPairs (pairs : List (String × Datum)) : Datum := map (Keyed.latest pairs)

end Datum

end ValueMachine

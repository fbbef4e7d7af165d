import ValueMachine.Host.Datum

/-! Values classified as they cross into host code: by kind, and objects by what the host knows of
their class. An object that stands for a host instance is told by its hooks; an object of a
registered class is wrapped in the host type registered for it. -/

namespace ValueMachine

/-- A classified value. One of a registered class holds two counts, its own and the one of the
wrapping host type. -/
inductive Any where
  | scalar (v : Held)
  | array (v : Held)
  | hash (v : Held)
  | sub (v : Held)
  | object (v : Held)
  | registered (v : Held) (type : NamedClass)
  | bridged (v : Held) (i : InstanceId)
  | other (v : Held)

namespace Any

/-- The value itself. -/
def value : Any → Held
  | scalar v | array v | hash v | sub v | object v | registered v _ | bridged v _ | other v => v

/-- The counts that it holds. -/
def held : Any → List Held
  | registered v _ => [v, v]
  | a => [a.value]

/-- The name of the class of values. -/
def name : Any → String
  | scalar _ => "Scalar"
  | array _ => "Array"
  | hash _ => "Hash"
  | sub _ => "Sub"
  | object _ => "Object"
  | registered _ _ => "Registered"
  | bridged _ _ => "Bridged"
  | other _ => "Other"

def isObject : Any → Bool
  | object _ | registered _ _ | bridged _ _ => true
  | _ => false

end Any

namespace Machine

/-- The instance that the claims know by a word. -/
def claimed? (m : Machine) (word : UInt64) : Option InstanceId :=
  (m.claims.find? (·.1.identity = word)).map (·.1)

/-- The host instance that an object stands for. -/
def bridgedInstance? (m : Machine) (object : Handle) : Option InstanceId := do
  let referent ← m.target? object
  let g ← m.findMagic referent Magic.extension .bridge
  m.claimed? g.word

/-- Register a host type for its class, in place of an earlier one. -/
def register (m : Machine) (type : NamedClass) : Machine :=
  { m with classes := m.classes.filter (·.1 != type.className) ++ [(type.className, type)] }

/-- The host type registered for a class. -/
def registered? (m : Machine) (className : String) : Option NamedClass :=
  (m.classes.find? (·.1 == className)).map (·.2)

/-- The host type for an object, if one is registered for its very class. An expected class has to
be the registered one or an ancestor of it. -/
def resolve (object : Handle) (expected : Option String) : Run (Option NamedClass) := do
  match ← Run.look fun m => m.registered? ((m.objectClass object).getD "") with
  | none => return none
  | some type =>
    match expected with
    | none => return some type
    | some c =>
      if type.className = c then return some type
      else if ← isStrictSubclass type.className c then return some type
      else return none

/-- Classify a held value. -/
def classify (v : Held) : Run Any := do
  let m ← get
  match m.kind v.handle with
  | .array => return .array v
  | .hash => return .hash v
  | .code => return .sub v
  | .format | .io | .unknown => return .other v
  | .scalar =>
    if !m.isObject v.handle then return .scalar v
    else match m.bridgedInstance? v.handle with
      | some i => return .bridged v i
      | none =>
        match ← resolve v.handle none with
        | some type => return .registered (← share v) type
        | none => return .object v

end Machine

end ValueMachine

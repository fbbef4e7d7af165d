import ValueMachine.Machine.State

/-! Kinds of values and what can be seen of a value without reading it: its type tag, its target,
its class. A scalar's tag tells which slots are valid. -/

namespace ValueMachine

/-- The kinds of values. -/
inductive Kind where
  | scalar
  | array
  | hash
  | code
  | format
  | io
  | unknown
  deriving DecidableEq, Repr

namespace Kind

/-- The kind with a type tag. The tags up to 10 are all scalars. -/
def ofTag (tag : Nat) : Kind :=
  if tag ≤ 10 then scalar
  else match tag with
    | 11 => array
    | 12 => hash
    | 13 => code
    | 14 => format
    | 15 => io
    | _ => unknown

def name : Kind → String
  | scalar => "SCALAR"
  | array => "ARRAY"
  | hash => "HASH"
  | code => "CODE"
  | format => "FORMAT"
  | io => "IO"
  | unknown => "UNKNOWN"

end Kind

/-- The tag of a scalar without hooks and class: which of its slots are valid, a target counting
as an integer. -/
def Scalar.tag (s : Scalar) : Nat :=
  match s.int.isSome || s.target.isSome, s.float.isSome, s.text.isSome with
  | _, true, true => 6
  | true, true, false => 6
  | true, false, true => 5
  | false, false, true => 3
  | false, true, false => 2
  | true, false, false => 1
  | false, false, false => 0

/-- The type tag of a value. -/
def Cell.tag (c : Cell) : Nat :=
  match c.body with
  | .scalar s => if c.className.isSome || !c.magic.isEmpty then 7 else s.tag
  | .array _ => 11
  | .hash _ => 12
  | .code _ => 13
  | .format => 14
  | .io => 15
  | .freed => 0

namespace Machine

def tag (m : Machine) (h : Handle) : Nat := (m.cell h).tag

def kind (m : Machine) (h : Handle) : Kind := .ofTag (m.tag h)

/-- The slots of a scalar. -/
def scalar? (m : Machine) (h : Handle) : Option Scalar := (m.body h).scalar?

/-- What a reference refers to. -/
def target? (m : Machine) (h : Handle) : Option Handle := (m.scalar? h).bind (·.target)

def hasInt (m : Machine) (h : Handle) : Bool := ((m.scalar? h).bind (·.int)).isSome

/-- Whether the integer slot holds an unsigned integer. -/
def hasUnsigned (m : Machine) (h : Handle) : Bool :=
  (((m.scalar? h).bind (·.int)).map (·.isUnsigned)).getD false

def hasFloat (m : Machine) (h : Handle) : Bool := ((m.scalar? h).bind (·.float)).isSome

def hasText (m : Machine) (h : Handle) : Bool := ((m.scalar? h).bind (·.text)).isSome

def isReference (m : Machine) (h : Handle) : Bool := (m.target? h).isSome

def hasUtf8 (m : Machine) (h : Handle) : Bool :=
  (((m.scalar? h).bind (·.text)).map (·.utf8)).getD false

/-- The class that a value is blessed into. -/
def classOf (m : Machine) (h : Handle) : Option String := (m.cell h).className

/-- The class of what a reference refers to. -/
def objectClass (m : Machine) (h : Handle) : Option String := (m.target? h).bind m.classOf

def isObject (m : Machine) (h : Handle) : Bool := (m.objectClass h).isSome

/-- The reference type of a referent. -/
def referentType (m : Machine) (h : Handle) : String :=
  match m.kind h with
  | .array => "ARRAY"
  | .hash => "HASH"
  | .code => "CODE"
  | .format => "FORMAT"
  | .io => "IO"
  | .scalar | .unknown => if m.isReference h then "REF" else "SCALAR"

/-- The class of a referent where it has one, its reference type otherwise. -/
def objectType (m : Machine) (h : Handle) : String := (m.classOf h).getD (m.referentType h)

/-- The code of a sub. -/
def code? (m : Machine) (h : Handle) : Option Code := (m.body h).code?

/-- The qualified name of a named sub. -/
def subName (m : Machine) (h : Handle) : Option String := (m.code? h).bind (·.name)

/-- The text of a reference to a value: the class, if any, the reference type and the address. -/
def referenceText (m : Machine) (h : Handle) : String :=
  let address := "(" ++ addressText h.address.toNat ++ ")"
  match m.classOf h with
  | some c => c ++ "=" ++ m.referentType h ++ address
  | none => m.referentType h ++ address

end Machine

end ValueMachine

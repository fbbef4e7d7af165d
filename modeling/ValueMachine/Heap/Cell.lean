import ValueMachine.Number.Scan
import ValueMachine.Text.Bytes

/-! What a heap cell holds. A scalar has four slots that are valid independently of each other; an
array owns its elements and leaves holes; a hash owns its entries and has one cursor. A cell also
carries hooks and the class it is blessed into. -/

namespace ValueMachine

/-- A place in the heap. -/
structure Handle where
  index : Nat
  deriving DecidableEq, Repr

/-- The number that stands for a handle where a number is asked for. -/
def Handle.address (h : Handle) : UInt64 := UInt64.ofNat (0x550000000000 + 64 * h.index)

/-- A byte string with its UTF-8 flag. -/
structure ByteText where
  bytes : Bytes
  utf8 : Bool
  deriving DecidableEq, Repr

/-- A text is flagged where it leaves ASCII. -/
def ByteText.ofText (s : String) : ByteText :=
  let bytes := Bytes.ofText s
  ⟨bytes, !bytes.isAscii⟩

/-- The slots of a scalar. The target slot owns one count on its referent. -/
structure Scalar where
  int : Option Wide
  float : Option Float
  text : Option ByteText
  target : Option Handle

namespace Scalar

def undefined : Scalar := ⟨none, none, none, none⟩

def ofWide (n : Wide) : Scalar := { undefined with int := some n }

def ofInt64 (n : Int64) : Scalar := ofWide (.signed n)

def ofUInt64 (n : UInt64) : Scalar := ofWide (.ofUInt64 n)

def ofFloat (x : Float) : Scalar := { undefined with float := some x }

def ofByteText (t : ByteText) : Scalar := { undefined with text := some t }

def ofText (s : String) : Scalar := ofByteText (.ofText s)

def ofTarget (h : Handle) : Scalar := { undefined with target := some h }

def ofNumber : Number → Scalar
  | .whole (.signed n) => ofInt64 n
  | .whole (.unsigned n) => ofUInt64 n
  | .float x => ofFloat x

/-- The canonical truth values fill three slots: `1` with its text, and `0` with the empty text. -/
def ofBool (b : Bool) : Scalar :=
  if b then ⟨some (.signed 1), some 1, some ⟨[49], false⟩, none⟩
  else ⟨some (.signed 0), some 0, some ⟨[], false⟩, none⟩

def isDefined (s : Scalar) : Bool :=
  s.int.isSome || s.float.isSome || s.text.isSome || s.target.isSome

/-- The numeric reading takes the first valid slot: integer, float, text, target. -/
def number (s : Scalar) : Number :=
  match s.int, s.float, s.text, s.target with
  | some n, _, _, _ => .whole n
  | none, some x, _, _ => .float x
  | none, none, some t, _ => .ofPrefix t.bytes
  | none, none, none, some h => .whole (.unsigned h.address)
  | none, none, none, none => .whole (.signed 0)

/-- The truth value takes the first valid slot: text, integer, float, target. False are the empty
text, the text `0` and the number zero. -/
def truth (s : Scalar) : Bool :=
  match s.text, s.int, s.float with
  | some t, _, _ => !(t.bytes.isEmpty || t.bytes == [48])
  | none, some n, _ => n != .signed 0 && n != .unsigned 0
  | none, none, some x => x != 0
  | none, none, none => s.target.isSome

/-- The handle that a scalar owns a count on. -/
def owned (s : Scalar) : List Handle := s.target.toList

end Scalar

/-- What a read hook does. -/
inductive ReadAction where
  /-- Note the read in the log. -/
  | record (label : String)
  /-- Store the next number of the machine's counter into the value. -/
  | tick
  deriving DecidableEq, Repr

/-- What a release hook does. -/
inductive FreeAction where
  /-- Note the release in the log. -/
  | record (label : String)
  /-- Fetch or create a global scalar and attach the same hooks to it. -/
  | revive (name : String)
  /-- Give back one claim on a host instance. -/
  | unclaim
  /-- Take a count on the dying value and release it again. -/
  | touch
  deriving DecidableEq, Repr

/-- A table of hooks, run before a read, after a write and at the release. -/
structure HookTable where
  name : String
  onRead : List ReadAction
  onWrite : List String
  onFree : List FreeAction
  deriving DecidableEq, Repr

/-- A record of hooks on a value: its type, its table, and a word for the hooks' own use. -/
structure Magic where
  type : UInt8
  table : HookTable
  word : UInt64
  deriving DecidableEq, Repr

/-- How the body of a code value is run. -/
inductive Entry where
  /-- A native body that works on the argument stack itself. -/
  | routine (name : String)
  /-- The entry of host closures: it unpacks the arguments for the closure in the payload. -/
  | closure
  deriving DecidableEq, Repr

/-- What is attached to a code value. -/
inductive Payload where
  /-- A host closure, with the handles it has captured. Each is a wrapper of the interpreter on
  which the closure is given up, so that its count goes back there. A closure over the wrappers of
  another interpreter is not described. -/
  | closure (name : String) (captures : List Handle)
  /-- Something that is no closure. -/
  | foreign
  deriving DecidableEq, Repr

/-- A code value: a sub with its name and the file it comes from. -/
structure Code where
  name : Option String
  file : String
  entry : Option Entry
  payload : Option Payload

/-- The handles that a payload owns a count on. -/
def Payload.owned : Payload → List Handle
  | .closure _ captures => captures
  | .foreign => []

/-- A hash: its entries, and the keys that the cursor has still to visit. -/
structure Table where
  entries : List (Bytes × Handle)
  cursor : Option (List Bytes)

/-- The body of a cell. -/
inductive Body where
  | scalar (s : Scalar)
  | array (items : List (Option Handle))
  | hash (t : Table)
  | code (c : Code)
  | format
  | io
  | freed

namespace Body

/-- The handles that a body owns a count on. -/
def owned : Body → List Handle
  | scalar s => s.owned
  | array items => items.filterMap id
  | hash t => t.entries.map (·.2)
  | code c => (c.payload.map Payload.owned).getD []
  | format | io | freed => []

def scalar? : Body → Option Scalar
  | scalar s => some s
  | _ => none

def array? : Body → Option (List (Option Handle))
  | array items => some items
  | _ => none

def hash? : Body → Option Table
  | hash t => some t
  | _ => none

def code? : Body → Option Code
  | code c => some c
  | _ => none

def isFreed : Body → Bool
  | freed => true
  | _ => false

end Body

/-- A heap cell. -/
structure Cell where
  count : Nat
  immortal : Bool
  body : Body
  magic : List Magic
  className : Option String

namespace Cell

/-- A new cell belongs to whoever made it. -/
def fresh (body : Body) : Cell := ⟨1, false, body, [], none⟩

/-- A cell whose value is gone. -/
def freed : Cell := ⟨0, false, .freed, [], none⟩

end Cell

end ValueMachine

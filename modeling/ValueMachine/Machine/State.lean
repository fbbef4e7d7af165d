import ValueMachine.Heap.Basic
import ValueMachine.Heap.Pile

/-! The state of the machine: one heap, and the interpreters that work on it. Every operation acts
on the interpreter in focus; the others wait beside it. -/

namespace ValueMachine

/-- How many values a caller wants. -/
inductive Want where
  | void
  | scalar
  | list
  deriving DecidableEq, Repr

namespace Want

/-- The two bits of a context in the flags of a call. -/
def bits : Want → Nat
  | void => 1
  | scalar => 2
  | list => 3

/-- The context in the flags of a call; no bits stand for scalar context. -/
def ofBits (flags : Nat) : Want :=
  match flags % 4 with
  | 1 => void
  | 3 => list
  | _ => scalar

def name : Want → String
  | void => "void"
  | scalar => "scalar"
  | list => "list"

end Want

/-- The place of an interpreter, by which it is known. Once the interpreter there is freed, another
one can come to the same place. -/
structure InterpId where
  number : Nat
  deriving DecidableEq, Repr

/-- The place of the first interpreter. -/
def InterpId.first : InterpId := ⟨1⟩

/-- The globals of one name, each with one count of its own. -/
structure Glob where
  scalar : Option Handle
  array : Option Handle
  hash : Option Handle
  code : Option Handle

namespace Glob

def empty : Glob := ⟨none, none, none, none⟩

/-- The handles that a glob owns a count on. -/
def owned (g : Glob) : List Handle :=
  [g.scalar, g.array, g.hash, g.code].filterMap id

end Glob

/-- One of the four places of a glob. -/
inductive Sigil where
  | scalar
  | array
  | hash
  | code
  deriving DecidableEq, Repr

def Glob.get (g : Glob) : Sigil → Option Handle
  | .scalar => g.scalar
  | .array => g.array
  | .hash => g.hash
  | .code => g.code

def Glob.set (g : Glob) (s : Sigil) (h : Handle) : Glob :=
  match s with
  | .scalar => { g with scalar := some h }
  | .array => { g with array := some h }
  | .hash => { g with hash := some h }
  | .code => { g with code := some h }

/-- A step of a module's initialiser. -/
inductive BootStep where
  /-- Define a sub whose body is a host closure. -/
  | define (name : String) (closure : String)
  /-- Raise an exception with this text. -/
  | fail (message : String)
  /-- Load another module. -/
  | require (name : String)
  /-- Evaluate source text and ignore its outcome. -/
  | evaluate (source : String)

/-- A module's initialiser, with the handles it has captured: wrappers of the interpreter on which
the module is loadable, whose counts go back there when it no longer is. -/
structure Module where
  steps : List BootStep
  captures : List Handle

/-- The stage of an interpreter's life. -/
inductive Phase where
  | constructed
  | running
  | destructing
  deriving DecidableEq, Repr

/-- The state of one interpreter. A scope remembers the floor of the temporaries that its first
raising has put aside. -/
structure Interp where
  stack : Pile Handle
  marks : Pile Nat
  contexts : Pile Want
  temps : Pile Handle
  floor : Nat
  scopes : Pile (Option Nat)
  symbols : List (String × Glob)
  modules : List (String × Module)
  loaded : List String
  error : Option Handle
  live : Nat
  phase : Phase
  destructLevel : Nat
  undefined : Handle
  yes : Handle
  no : Handle

/-- A host instance: its class, its state, and how many owners it has on the host's side besides
the machine's own map. -/
structure Instance where
  className : String
  value : Int64
  holders : Nat

/-- A host instance's number. -/
structure InstanceId where
  number : Nat
  deriving DecidableEq, Repr

/-- The word that identifies an instance. -/
def InstanceId.identity (i : InstanceId) : UInt64 := UInt64.ofNat (0x7e0000000008 + 16 * i.number)

/-- A host type that stands for a class. -/
structure NamedClass where
  name : String
  className : String
  deriving DecidableEq, Repr

/-- What has been noted: reads and writes of watched values in order, releases of watched values,
and the starts of module initialisers. -/
structure Log where
  access : List String
  freed : List String
  boots : List String

/-- The heap, the interpreters, and what they share: which are alive, which is the first and which
the current one, the claims on host instances, the registered host types, the log, and a counter. -/
structure Machine where
  heap : Heap
  interp : Interp
  here : InterpId
  others : List (InterpId × Interp)
  alive : List InterpId
  main : Option InterpId
  current : Option InterpId
  instances : List Instance
  claims : List (InstanceId × Nat)
  classes : List (String × NamedClass)
  log : Log
  ticks : Nat

namespace Interp

/-- An interpreter with nothing in it. -/
def blank (undefined yes no : Handle) : Interp :=
  ⟨.empty, .empty, .empty, .empty, 0, .empty, [], [], [], none, 0, .constructed, 1, undefined, yes, no⟩

/-- The context of the innermost running sub. -/
def want (i : Interp) : Want := i.contexts.top?.getD .void

end Interp

namespace Machine

/-- A machine without interpreters. The one in focus is a stand-in that nothing refers to, where no
interpreter comes. -/
def empty : Machine :=
  { heap := .empty
    interp := .blank ⟨0⟩ ⟨0⟩ ⟨0⟩
    here := ⟨0⟩
    others := []
    alive := []
    main := none
    current := none
    instances := []
    claims := []
    classes := []
    log := ⟨[], [], []⟩
    ticks := 0 }

def isAlive (m : Machine) (i : InterpId) : Bool := m.alive.contains i

/-- The cell at a handle. -/
def cell (m : Machine) (h : Handle) : Cell := m.heap.get h

def body (m : Machine) (h : Handle) : Body := (m.cell h).body

def onHeap (m : Machine) (f : Heap → Heap) : Machine := { m with heap := f m.heap }

def onInterp (m : Machine) (f : Interp → Interp) : Machine := { m with interp := f m.interp }

def setBody (m : Machine) (h : Handle) (b : Body) : Machine :=
  m.onHeap (·.update h ({ · with body := b }))

/-- Note a read or a write. -/
def noteAccess (m : Machine) (event : String) : Machine :=
  { m with log := { m.log with access := m.log.access ++ [event] } }

/-- Note a release. -/
def noteFreed (m : Machine) (event : String) : Machine :=
  { m with log := { m.log with freed := m.log.freed ++ [event] } }

/-- Forget the reads, writes and releases noted so far. -/
def clearLog (m : Machine) : Machine := { m with log := { m.log with access := [], freed := [] } }

/-- Put another interpreter into focus. -/
def focus (m : Machine) (i : InterpId) : Machine :=
  if i = m.here then m
  else match m.others.find? (·.1 = i) with
    | some (_, other) =>
      { m with
        interp := other
        here := i
        others := (m.here, m.interp) :: m.others.filter (·.1 ≠ i) }
    | none => m

end Machine

end ValueMachine

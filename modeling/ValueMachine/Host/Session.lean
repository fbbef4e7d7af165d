import ValueMachine.Host.Embedded
import ValueMachine.Host.Scalar
import ValueMachine.Host.Stock

/-! A session: what a host program keeps from one request to the next. Values are kept in named
registers, interpreters by number and host instances by name; one of the interpreters is in use.
What a request has changed before it ends without an answer stays changed. -/

namespace ValueMachine

structure Session where
  machine : Machine
  registers : List (String × Held)
  interpreters : List (Int × Embedded)
  /-- How many interpreters have been asked for. Each comes to a place of its own. -/
  places : Nat
  inUse : Int
  instances : List (String × InstanceId)
  /-- Values that the request in progress has made for itself. -/
  pending : List Held

/-- What a request asks of a session that it cannot give. -/
inductive Misuse where
  | noRegister (name : String)
  | ownerGone (register : String)
  | noInterpreter
  | noInstance
  | unknown (what name : String)
  deriving DecidableEq, Repr

namespace Misuse

def message : Misuse → String
  | noRegister name => "no register " ++ name
  | ownerGone register => "register " ++ register ++ " belongs to a dropped interpreter"
  | noInterpreter => "no interpreter"
  | noInstance => "no host object"
  | unknown what name => "unknown " ++ what ++ " " ++ name

end Misuse

/-- How a request ends without an answer. -/
inductive Ending where
  | exit (e : Exit)
  | failed (f : Failure)
  | misused (m : Misuse)

instance : Inhabited Ending := ⟨.misused .noInterpreter⟩

/-- A request to a session. -/
abbrev Request := ExceptT Ending (StateM Session)

namespace Request

/-- Run an operation of the machine. -/
def run (x : Run α) : Request α := do
  let s ← get
  match x s.machine with
  | .ok a machine =>
    set { s with machine }
    return a
  | .error e machine =>
    set { s with machine }
    throw (.exit e)

/-- Run an operation across the boundary. -/
def bridge (x : Bridge α) : Request α := do
  match ← run x.run with
  | .ok a => return a
  | .error f => throw (.failed f)

def look (f : Machine → α) : Request α := do return f (← get).machine

def change (f : Machine → Machine) : Request Unit := run (Run.change f)

def misuse (m : Misuse) : Request α := throw (.misused m)

/-! ### Registers -/

/-- The value in a register. -/
def register (name : String) : Request Held := do
  let s ← get
  match s.registers.lookup name with
  | none => misuse (.noRegister name)
  | some v => if s.machine.isAlive v.owner then return v else misuse (.ownerGone name)

/-- The value of a kind in a register. -/
def ofKind (k : Kind) (name : String) : Request Held := do
  let v ← register name
  if (← look (·.kind v.handle)) = k then return v
  else throw (.failed (.unexpectedKind (← run (Machine.share v)) k))

/-- The object that a register refers to. -/
def object (name : String) : Request Held := do
  let v ← ofKind .scalar name
  if ← look (·.isObject v.handle) then return v
  else throw (.failed (.notObject (← run (Machine.share v))))

/-- Put a held value into a register in place of the former one, or give it up. -/
def keep (into : Option String) (v : Held) : Request Unit := do
  match into with
  | none => change (·.drop v)
  | some name =>
    let former := (← get).registers.lookup name
    modify fun s => { s with registers := (name, v) :: s.registers.filter (·.1 != name) }
    change (·.dropAll former.toList)

/-- Clear a register. -/
def discard (name : String) : Request Unit := do
  match (← get).registers.lookup name with
  | none => misuse (.noRegister name)
  | some v =>
    modify fun s => { s with registers := s.registers.filter (·.1 != name) }
    change (·.drop v)

/-- Give a value up when the request ends. -/
def untilEnd (v : Held) : Request Held := do
  modify fun s => { s with pending := v :: s.pending }
  return v

/-! ### Interpreters -/

/-- The interpreter with a number. -/
def interpreter (number : Int) : Request Embedded := do
  match (← get).interpreters.lookup number with
  | some e => return e
  | none => misuse .noInterpreter

/-- The interpreter in use, which comes into focus. -/
def inUse : Request Embedded := do
  let e ← interpreter (← get).inUse
  change (·.focus e.id)
  return e

/-- Start an interpreter, which comes into use in place of the one that had its number. The answer
is whether its modules could be loaded. -/
def startInterpreter (number : Int) (s : Settings) : Request Bool := do
  modify fun s => { s with places := s.places + 1 }
  match ← run (Embedded.start Stock.library ⟨(← get).places⟩ s).run with
  | .ok e =>
    let former := (← get).interpreters.lookup number
    modify fun s =>
      { s with
        interpreters := (number, e) :: s.interpreters.filter (·.1 != number)
        inUse := number }
    former.forM fun f => change f.drop
    return true
  | .error f =>
    change (·.dropAll f.held)
    return false

/-- Use the interpreter of another number, if there is one, and make it the current one if asked
to. -/
def use (number : Int) (makeCurrent : Bool) : Request Unit := do
  modify ({ · with inUse := number })
  if makeCurrent then
    let e ← interpreter number
    change ({ · with current := some e.id })

/-- Give the interpreter of a number up, if there is one. Its number stays in use. -/
def dropInterpreter (number : Int) : Request Unit := do
  let e? := (← get).interpreters.lookup number
  modify fun s => { s with interpreters := s.interpreters.filter (·.1 != number) }
  e?.forM fun e => change e.drop

/-! ### Host instances -/

/-- The host instance of a name. -/
def instanceNamed (name : String) : Request InstanceId := do
  match (← get).instances.lookup name with
  | some i => return i
  | none => misuse .noInstance

/-- Give the host instance of a name up, if there is one. -/
def dropInstance (name : String) : Request Unit := do
  let i? := (← get).instances.lookup name
  modify fun s => { s with instances := s.instances.filter (·.1 != name) }
  i?.forM fun i => change (Stock.disown i)

/-- Make a host instance that the session owns, in place of the one that had its name. -/
def newInstance (name className : String) (value : Int64) : Request Unit := do
  dropInstance name
  let i ← run (modifyGet (Stock.newInstance className value 1))
  modify fun s => { s with instances := (name, i) :: s.instances }

end Request

namespace Session

/-- The number of an interpreter. -/
def numberOf (s : Session) (i : InterpId) : Option Int :=
  (s.interpreters.find? (·.2.id == i)).map (·.1)

/-- The values alive on the interpreter in use. -/
def live? (s : Session) : Option Nat :=
  (s.interpreters.lookup s.inUse).map fun e => (s.machine.focus e.id).interp.live

/-- A session with one interpreter, in which the subs of the stock are installed if asked for. -/
def start (settings : Settings) (withStock : Bool) : Option Session := do
  let classes := (Machine.empty.register Stock.animal).register Stock.cat
  let s : Session := ⟨classes, [], [], 0, 0, [], []⟩
  let request : Request Bool := do
    let started ← Request.startInterpreter 0 settings
    if started && withStock then Request.run Stock.installAll
    return started
  match ExceptT.run request s with
  | (.ok true, s) => some s
  | _ => none

/-- Give up what the request in progress has made for itself. -/
def endRequest (s : Session) : Session :=
  { s with machine := s.machine.dropAll s.pending, pending := [] }

/-- Give the registers up in the order of their names. -/
def dropRegisters (s : Session) : Session :=
  { s with
    machine := s.machine.dropAll ((Keyed.sorted s.registers).map (·.2))
    registers := [] }

/-- Give the interpreters up, the highest number first. -/
def dropInterpreters (s : Session) : Session :=
  let ordered := s.interpreters.mergeSort fun a b => b.1 ≤ a.1
  { s with machine := ordered.foldl (fun m (_, e) => e.drop m) s.machine, interpreters := [] }

end Session

end ValueMachine

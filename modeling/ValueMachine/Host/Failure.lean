import ValueMachine.Host.Held

/-! Failures at the boundary between host code and the machine. A failure about a value holds that
value, and its message describes the value as it is when the message is asked for. -/

namespace ValueMachine

/-- Why an operation across the boundary failed. -/
inductive Failure where
  /-- An exception on the machine's side; the value is a copy of `$@`. -/
  | died (value : Held)
  | noArgument (position : Nat)
  | arity (expected got : Nat)
  | unexpectedUndefined (value : Held)
  | unexpectedKind (value : Held) (want : Kind)
  | notNumber (value : Held) (want : String)
  | notStringOrNumber (value : Held)
  | notReference (value : Held)
  | notObject (value : Held)
  | notWrapped (value : Held)
  | unexpectedClass (value : Held) (want : String)
  | elementMissing (index : Int)
  | oddElements
  | argument (index : Nat) (source : Failure)
  /-- An error of host code: its message, and the causes behind it. -/
  | host (message : String) (causes : List String)

/-- An operation across the boundary. -/
abbrev Bridge := ExceptT Failure Run

namespace Failure

/-- The failure of an argument, told by its position once. -/
def atArgument (index : Nat) : Failure → Failure
  | noArgument p => noArgument p
  | argument i source => argument i source
  | f => argument index f

/-- The values that a failure holds. -/
def held : Failure → List Held
  | died v | unexpectedUndefined v | unexpectedKind v _ | notNumber v _ | notStringOrNumber v
  | notReference v | notObject v | notWrapped v | unexpectedClass v _ => [v]
  | argument _ source => source.held
  | noArgument _ | arity _ _ | elementMissing _ | oddElements | host _ _ => []

private def described (v : Held) (text : String → String) : Run String := do
  return text (← Machine.onInterpreter v.owner (Machine.describe v.handle))

/-- A text without the line ends at its end. -/
def trimLines (s : String) : String :=
  String.ofList (s.toList.reverse.dropWhile (· == '\n')).reverse

/-- The message of a failure. -/
def message : Failure → Run String
  | died v => do
    return trimLines (← Machine.onInterpreter v.owner (Machine.string v.handle))
  | noArgument p => return "no argument on the stack at position " ++ toString p
  | arity expected got =>
    return "too many arguments: expected at most " ++ toString expected ++ ", got " ++ toString got
  | unexpectedUndefined _ => return "unexpected undef"
  | unexpectedKind v want => described v fun d => "expected " ++ want.name ++ ", got " ++ d
  | notNumber v want => described v (· ++ " is not a number representable as " ++ want)
  | notStringOrNumber v => described v (· ++ " is not a string or a number")
  | notReference v => described v (· ++ " is not a reference")
  | notObject v => described v (· ++ " is not an object")
  | notWrapped v => described v (· ++ " does not wrap a host object")
  | unexpectedClass v want => described v (· ++ " is not an instance of " ++ want)
  | elementMissing i => return "no element at index " ++ toString i
  | oddElements => return "odd number of elements in hash assignment"
  | argument i source => do
    return "argument " ++ toString i ++ ": " ++ (← source.message)
  | host message _ => return message

end Failure

namespace Bridge

/-- An operation of the machine, which does not fail. -/
def ofRun (x : Run α) : Bridge α := ExceptT.lift x

/-- A reading of the state. -/
def look (f : Machine → α) : Bridge α := ofRun (Run.look f)

/-- Fail. -/
def fail (f : Failure) : Bridge α := throw f

/-- The outcome of an operation as a value. -/
def outcome (x : Bridge α) : Run (Except Failure α) := x.run

/-- Run an operation, and give handles up whatever its outcome. -/
def releasing (vs : List Held) (x : Bridge α) : Bridge α :=
  ExceptT.mk (x.run.always (·.dropAll vs))

/-- Run an operation, and give handles up if it ends without a result. -/
def guarding (vs : List Held) (x : Bridge α) : Bridge α := ExceptT.mk do
  match ← x.run.otherwise (·.dropAll vs) with
  | .ok a => return .ok a
  | .error f =>
    Run.change (·.dropAll vs)
    return .error f

/-- Run an operation with another interpreter in focus. -/
def onInterpreter (i : InterpId) (x : Bridge α) : Bridge α :=
  ExceptT.mk (Machine.onInterpreter i x.run)

/-- Run an operation with the interpreter of a held value in focus. -/
def onOwner (v : Held) (x : Bridge α) : Bridge α := onInterpreter v.owner x

/-- Tell a failure by the position of an argument. -/
def atArgument (index : Nat) (x : Bridge α) : Bridge α := ExceptT.mk do
  match ← x.run with
  | .ok a => return .ok a
  | .error f => return .error (f.atArgument index)

end Bridge

namespace Failure

/-- Fail about a borrowed value, which the failure holds. -/
def about (h : Handle) (f : Held → Failure) : Bridge α := do
  Bridge.fail (f (← Machine.hold h))

end Failure

end ValueMachine

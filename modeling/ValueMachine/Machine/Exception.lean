import ValueMachine.Machine.Stack

/-! Exceptions. A fault is the machine's own reason to raise one; its text goes into `$@`. An
operation of the machine keeps its changes when it ends by an exception. -/

namespace ValueMachine

/-- Why the machine raises an exception of its own. -/
inductive Fault where
  | notArray
  | notHash
  | notCode
  | notReferenceTo (kind : String)
  | notCreatable
  | copyOfNonScalar
  | readOnly
  | notScalar
  | blessOfNonReference
  | blessWithoutArguments
  | recursiveInheritance (className : String)
  | undefinedSub (name : String)
  | methodWithoutInvocant (method : String)
  | methodOnUnblessed (method : String)
  | noMethod (method className : String)
  | noModule (name : String)
  | syntaxError (near : String)
  | unterminatedString
  | unterminatedWords
  | withoutBody (name : String)
  /-- The text is the host's or the program's own. -/
  | said (message : String)
  deriving DecidableEq, Repr

namespace Fault

/-- The text of a fault. -/
def message : Fault → String
  | notArray => "Not an ARRAY reference"
  | notHash => "Not a HASH reference"
  | notCode => "Not a CODE reference"
  | notReferenceTo kind => "Not an " ++ kind ++ " reference\n"
  | notCreatable => "Modification of non-creatable array value attempted"
  | copyOfNonScalar => "Can't copy a non-scalar value into a scalar"
  | readOnly => "Modification of a read-only value attempted"
  | notScalar => "Modification of a non-scalar value attempted"
  | blessOfNonReference => "Can't bless non-reference value"
  | blessWithoutArguments => "Not enough arguments for bless\n"
  | recursiveInheritance c => "Recursive inheritance detected in package '" ++ c ++ "'"
  | undefinedSub name => "Undefined subroutine &" ++ name ++ " called"
  | methodWithoutInvocant method =>
    "Can't call method \"" ++ method ++ "\" without a package or object reference"
  | methodOnUnblessed method => "Can't call method \"" ++ method ++ "\" on unblessed reference"
  | noMethod method c =>
    "Can't locate object method \"" ++ method ++ "\" via package \"" ++ c ++ "\""
  | noModule name =>
    "Can't locate " ++ Qualified.path name ++ ".pm in @INC (you may need to install the "
      ++ name ++ " module)"
  | syntaxError near => "syntax error at (eval) line 1, near \"" ++ near ++ "\"\n"
  | unterminatedString => "Can't find string terminator\n"
  | unterminatedWords => "Can't find string terminator for qw\n"
  | withoutBody name => "native sub " ++ name ++ " has no body\n"
  | said message => message

end Fault

/-- How an operation ends without a result. -/
inductive Exit where
  /-- An exception was raised, and its value is in `$@`. -/
  | raised
  /-- Host code gave up, with a message if it left one. -/
  | aborted (message : Option String)
  /-- Calls were nested too deeply to go on. -/
  | exhausted
  deriving DecidableEq, Repr

/-- An operation of the machine. -/
abbrev Run := EStateM Exit Machine

namespace Run

/-- A change that cannot fail. -/
def change (f : Machine → Machine) : Run Unit := modify f

/-- A reading of the state. -/
def look (f : Machine → α) : Run α := do return f (← get)

/-- The outcome of an operation as a value. -/
def attempt (x : Run α) : Run (Except Exit α) := fun m =>
  match x m with
  | .ok a m => .ok (.ok a) m
  | .error e m => .ok (.error e) m

/-- Go on with an outcome. -/
def ofExcept : Except Exit α → Run α
  | .ok a => pure a
  | .error e => throw e

/-- Run an operation, and make a change whatever its outcome. -/
def always (x : Run α) (f : Machine → Machine) : Run α := do
  let outcome ← x.attempt
  change f
  ofExcept outcome

/-- Run an operation, and make a change if it ends without a result. -/
def otherwise (x : Run α) (f : Machine → Machine) : Run α := do
  match ← x.attempt with
  | .ok a => pure a
  | .error e =>
    change f
    throw e

end Run

namespace Machine

/-- The hooks after a write note it. -/
def noteWrite (m : Machine) (h : Handle) : Machine :=
  (m.cell h).magic.foldl (fun m g =>
    g.table.onWrite.foldl (fun m label => m.noteAccess (event label g)) m) m

/-- Store into a scalar that can be changed: the slots are replaced, the former target is released,
and the write hooks note it. -/
def replaceScalar (m : Machine) (h : Handle) (former new : Scalar) : Machine :=
  ((m.setBody h (.scalar new)).releaseAll former.owned).noteWrite h

/-- Put a scalar into `$@`. -/
def setError (m : Machine) (s : Scalar) : Machine :=
  let (slot, m) := m.errorSlot
  match m.body slot with
  | .scalar former => m.replaceScalar slot former s
  | _ => m

/-- Put a message into `$@`. The message is a temporary of its own first. -/
def setErrorText (m : Machine) (message : String) : Machine :=
  let s := Scalar.ofText message
  (m.allocMortal (.scalar s)).2.setError s

end Machine

/-- Raise an exception. -/
def raise (f : Fault) : Run α := do
  Run.change (·.setErrorText f.message)
  throw .raised

end ValueMachine

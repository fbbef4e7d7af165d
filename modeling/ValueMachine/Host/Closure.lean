import ValueMachine.Host.Call
import ValueMachine.Source.Eval

/-! Host closures as bodies of subs. A closure is given the arguments of a call and returns values
or fails; whatever goes wrong in it, a failure or host code that gives up, is raised as an
exception where the sub was called. -/

namespace ValueMachine

/-- The arguments of a call and the context that it was made in. -/
structure Arguments where
  handles : List Handle
  want : Want

/-- A host closure. Its results carry a count each for the caller. -/
abbrev Closure := Reentry → Arguments → Bridge (List Handle)

/-- Values for each of some types. -/
@[reducible] def Parameters : List HostType → Type
  | [] => Unit
  | t :: ts => t.Value × Parameters ts

/-- The counts that parameters hold. -/
def Parameters.held : (ts : List HostType) → Parameters ts → List Held
  | [], _ => []
  | t :: ts, (v, vs) => t.held v ++ Parameters.held ts vs

namespace Arguments

/-- The argument at a position, read as a type. A failure tells the position. -/
def read (args : Arguments) (t : HostType) (position : Nat) : Bridge t.Value :=
  Bridge.atArgument position (match args.handles[position]? with
    | some h => t.read .copy h
    | none => HostType.missing position t)

/-- The arguments from a position on, read as types. -/
def readAll (args : Arguments) : (ts : List HostType) → Nat → Bridge (Parameters ts)
  | [], _ => pure ()
  | t :: ts, position => do
    let v ← args.read t position
    let vs ← Bridge.guarding (t.held v) (args.readAll ts (position + 1))
    return (v, vs)

/-- Fail if there are more arguments than `arity`. -/
def checkArity (args : Arguments) (arity : Nat) : Bridge Unit :=
  if args.handles.length > arity then Bridge.fail (.arity arity args.handles.length) else pure ()

/-- Hold a copy of each handle. -/
def copiesOf : List Handle → Run (List Held)
  | [] => pure []
  | h :: rest => do
    let v ← Machine.holdCopy h
    let vs ← (copiesOf rest).otherwise (·.drop v)
    return v :: vs

end Arguments

namespace Closure

/-- A closure with parameters of given types, whose results are given as host values. The parameters
are given up when it ends; what it passes on it holds once more. -/
def typed (ts : List HostType) (body : Reentry → Parameters ts → Bridge (List Datum)) : Closure :=
  fun r args => do
    args.checkArity ts.length
    let vs ← args.readAll ts 0
    Bridge.releasing (Parameters.held ts vs) do
      let results ← body r vs
      Bridge.ofRun (results.mapM Datum.toValue)

/-- A closure of any number of arguments, which are copied for it and given up when it ends. Its
results are held for the caller. -/
def variadic (body : Reentry → List Held → Want → Bridge (List Held)) : Closure :=
  fun r args => do
    let vs ← Arguments.copiesOf args.handles
    let results ← Bridge.releasing vs (body r vs args.want)
    return results.map (·.handle)

end Closure

/-- The bodies that subs can have, by name. -/
structure Library where
  routines : String → Option (Reentry → Handle → Run Unit)
  closures : String → Option Closure

namespace Library

open Machine

/-- The name of a sub in messages. -/
def subName (m : Machine) (sub : Handle) : String := (m.subName sub).getD "__ANON__"

/-- The closure that a sub carries. -/
def closure? (lib : Library) (m : Machine) (sub : Handle) : Option Closure :=
  match (m.code? sub).bind (·.payload) with
  | some (.closure name _) => lib.closures name
  | _ => none

/-- Replace the arguments above a mark by results, which become temporaries. -/
def putResults (mark : Nat) (results : List Handle) : Run Unit := do
  Run.change (·.truncate mark)
  results.forM fun h => Run.change fun m => (m.mortal h).push h

/-- Raise a failure of the sub of this name. The value of an exception that came from the machine is
raised again as it is. -/
def raiseFailure (name : String) : Failure → Run Unit
  | .died v => do
    Run.change (·.mortal v.handle)
    raiseValue v.handle
  | f => do
    let message ← f.message.otherwise (·.dropAll f.held)
    (raise (.said (Failure.trimLines (name ++ ": " ++ message) ++ "\n")) : Run Unit).otherwise
      (·.dropAll f.held)

/-- The entry of closures: it takes the mark off, runs the closure on the arguments above it, and
puts the results in their place. -/
def enterClosure (lib : Library) (r : Reentry) (sub : Handle) : Run Unit := do
  let m ← get
  let mark := m.topMark
  let args : Arguments := ⟨m.above mark, m.interp.want⟩
  let name := subName m sub
  Run.change (·.dropMark)
  match lib.closure? m sub with
  | none => raise (.withoutBody name)
  | some body =>
    match ← (body r args).run.attempt with
    | .ok (.ok results) => putResults mark results
    | .ok (.error f) => raiseFailure name f
    | .error (.aborted message) =>
      raise (.said (name ++ " panicked: " ++ message.getD "unknown panic" ++ "\n"))
    | .error e => throw e

/-- Run the body of a sub. A routine that the library lacks only takes its mark off. -/
def run (lib : Library) (r : Reentry) (entry : Entry) (sub : Handle) : Run Unit :=
  match entry with
  | .closure => lib.enterClosure r sub
  | .routine name =>
    match lib.routines name with
    | some body => body r sub
    | none => Run.change (·.dropMark)

/-- Make a host closure a sub, and hold it. A named one belongs to its glob as well. -/
def install (name : Option String) (closure : String) : Run Held := do
  let sub ← modifyGet (·.newSub name .closure "host" (some (.closure closure [])))
  if name.isSome then hold sub else adopt sub

/-- Make a routine a sub that comes from a file, and hold it. A named one belongs to its glob as
well. -/
def installRoutine (name : Option String) (routine file : String) : Run Held := do
  let sub ← modifyGet (·.newSub name (.routine routine) file none)
  if name.isSome then hold sub else adopt sub

/-- Run one step of a module's initialiser. -/
def boot (r : Reentry) : BootStep → Run Unit
  | .define name closure => do
    let v ← install (some name) closure
    Run.change (·.drop v)
  | .fail message => raise (.said message)
  | .require name => r.require name
  | .evaluate source => do
    match ← (Host.callVoid r (.source source) []).run with
    | .ok () => pure ()
    | .error f => Run.change (·.dropAll f.held)

/-- What running code can start, to a nesting of at most `depth` calls. -/
def reentry (lib : Library) : Nat → Reentry
  | 0 =>
    { call := fun _ _ => throw .exhausted
      evaluate := fun _ _ => throw .exhausted
      require := fun _ => throw .exhausted }
  | depth + 1 =>
    { call := fun target flags =>
        callWith (fun e sub => lib.run (lib.reentry depth) e sub) target flags
      evaluate := fun source want => Source.evaluate (lib.reentry depth) source want
      require := fun name => requireWith (fun step => boot (lib.reentry depth) step) name }

/-- How deep calls may be nested. -/
def maxNesting : Nat := 1000000

/-- What host code can start. -/
def calls (lib : Library) : Reentry := lib.reentry maxNesting

end Library

end ValueMachine

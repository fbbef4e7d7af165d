import ValueMachine.Host.HostType

/-! Calls from host code into the machine. A call opens a scope of its own, passes its arguments as
temporaries, traps exceptions, and collects its results before the temporaries of the scope are
released. A true `$@` afterwards makes it fail. -/

namespace ValueMachine

/-- What a call from host code invokes. -/
inductive Target where
  /-- A code value or a reference to one. -/
  | sub (h : Handle)
  | name (name : String)
  /-- A method of the first argument. -/
  | method (name : String)
  /-- Source text, which takes no arguments. -/
  | source (text : String)

namespace Target

def takesArguments : Target → Bool
  | source _ => false
  | _ => true

/-- Start a target with the arguments above the top mark, trapping exceptions. -/
def run (r : Reentry) (want : Want) : Target → Run Nat
  | sub h => r.call h (.trapping want)
  | name n => r.callName n (.trapping want)
  | method n => r.callMethod n (.trapping want)
  | source text => r.evaluate text want

end Target

namespace Host

open Machine

/-- Pass an argument: a temporary on the stack. -/
def pass (d : Datum) : Run Unit := do
  let h ← d.toArgument
  Run.change fun m => (m.mortal h).push h

/-- The outcome of a call that has left `count` results: a failure with a copy of `$@` where it is
true, and otherwise what is collected from the results. -/
def outcome (count : Nat) (collect : List Handle → Bridge α) : Run (Except Failure α) := do
  let error ← modifyGet (·.errorSlot)
  if ← truth error then
    return .error (.died (← holdCopy error))
  else collect (← Run.look (·.top count))

/-- Call a target. -/
def call (r : Reentry) (target : Target) (args : List Datum) (want : Want)
    (collect : List Handle → Bridge α) : Bridge α := ExceptT.mk do
  Run.change (·.enter.saveTemps)
  let base ← Run.look (·.height)
  if target.takesArguments then
    Run.change (·.pushMark)
    args.forM pass
  let count ← target.run r want
  let result ← outcome count collect
  Run.change fun m => (m.truncate base).freeTemps.leave
  return result

/-- Hold a copy of each result. -/
def collectList : List Handle → Bridge (List Held)
  | [] => pure []
  | h :: rest => do
    let v ← Reading.scalar .copy h
    let vs ← Bridge.guarding [v] (collectList rest)
    return v :: vs

/-- Read the last result as a type. -/
def collectScalar (t : HostType) (results : List Handle) : Bridge t.Value :=
  match results.getLast? with
  | some h => t.read .copy h
  | none => Bridge.fail (.noArgument 0)

/-- Collect nothing. -/
def collectNothing (_ : List Handle) : Bridge Unit := pure ()

/-- Call in scalar context, and read the result as a type. -/
def callScalar (r : Reentry) (t : HostType) (target : Target) (args : List Datum) :
    Bridge t.Value :=
  call r target args .scalar (collectScalar t)

/-- Call in a context, and hold copies of the results. -/
def callList (r : Reentry) (target : Target) (args : List Datum) (want : Want) :
    Bridge (List Held) :=
  call r target args want collectList

/-- Call in void context. -/
def callVoid (r : Reentry) (target : Target) (args : List Datum) : Bridge Unit :=
  call r target args .void collectNothing

/-- Load a module by source text. -/
def require (r : Reentry) (module : String) : Bridge Unit :=
  callVoid r (.source ("require " ++ module)) []

/-- Call a constructor of a class, whose result has to be an object. -/
def construct (r : Reentry) (className constructor : String) (args : List Datum) : Bridge Held := do
  Reading.objectOf (← callScalar r .scalar (.method constructor) (.text className :: args))

end Host

end ValueMachine

import ValueMachine.Machine.Classes

/-! Calls of subs. The arguments lie above the top mark; a call takes the mark off, leaves as many
results as its context wants and, where it traps exceptions, cuts the stacks back to where it
began. -/

namespace ValueMachine

/-- How a call is made. -/
structure CallFlags where
  want : Want
  /-- Drop the results and the temporaries of the call. -/
  discard : Bool
  /-- Trap an exception and leave it in `$@`. -/
  trap : Bool
  /-- Take no mark off: the call has no arguments. -/
  noArguments : Bool
  /-- The target is the name of a method of the first argument. -/
  method : Bool
  deriving DecidableEq, Repr

namespace CallFlags

/-- The flags of a call as bits. -/
def ofBits (flags : Nat) : CallFlags :=
  ⟨.ofBits flags, flags.testBit 2, flags.testBit 3, flags.testBit 4, flags.testBit 6⟩

/-- A plain call. -/
def plain (want : Want) : CallFlags := ⟨want, false, false, false, false⟩

/-- A call that traps exceptions. -/
def trapping (want : Want) : CallFlags := ⟨want, false, true, false, false⟩

end CallFlags

/-- What a running body can start in turn: a call of a value, the evaluation of source text, and
the load of a module. -/
structure Reentry where
  call : Handle → CallFlags → Run Nat
  evaluate : String → Want → Run Nat
  require : String → Run Unit

namespace Machine

/-- Run a body as a trap rooted at a height of the stack: `$@` is cleared, and an exception cuts the
stacks back, which leaves the shared undefined value in scalar context and nothing otherwise. -/
def trapped (root : Nat) (want : Want) (body : Run Nat) : Run Nat := do
  let frame ← Run.look (·.frame root)
  Run.change (·.setError (.ofByteText ⟨[], false⟩))
  match ← body.attempt with
  | .ok count => return count
  | .error .raised =>
    Run.change (·.unwind frame)
    if want = .scalar then
      Run.change fun m => m.push m.interp.undefined
      return 1
    else return 0
  | .error e => throw e

/-- The sub that a target denotes: code itself, a reference to code, or the name of a sub. -/
def resolveSub (target : Handle) : Run Handle := do
  match ← Run.look (·.kind target) with
  | .code => return target
  | .array | .hash | .format | .io => raise .notCode
  | .scalar | .unknown =>
    match ← Run.look (·.target? target) with
    | some referent =>
      if (← Run.look (·.kind referent)) = .code then return referent else raise .notCode
    | none =>
      let name ← string target
      match ← Run.look (·.global? .code name) with
      | some sub => return sub
      | none => raise (.undefinedSub (Qualified.qualify name))

/-- The class that a method is looked for in: the class of an object, or a class name. -/
def invocantClass (method : String) (invocant : Handle) : Run String := do
  match ← Run.look (·.objectClass invocant) with
  | some c => return c
  | none =>
    if ← Run.look (·.isReference invocant) then raise (.methodOnUnblessed method)
    else
      let name ← string invocant
      if name.isEmpty then raise (.methodWithoutInvocant method) else return name

/-- The sub that a method name denotes for the argument at a mark. A name with a package is the
name of a sub. -/
def resolveMethod (target : Handle) (mark : Nat) : Run Handle := do
  let method ← string target
  if Qualified.hasPackage method.toList then resolveSub target
  else match (← Run.look (·.interp.stack)).get? mark with
    | none => raise (.methodWithoutInvocant method)
    | some invocant =>
      let c ← invocantClass method invocant
      match ← findMethod c method with
      | some sub => return sub
      | none => raise (.noMethod method c)

/-- Run the body of a sub on the arguments above a mark. The sub is kept, and its context is in
force, until the body ends in whatever way. -/
def invoke (body : Entry → Handle → Run Unit) (target : Handle) (mark : Nat) (flags : CallFlags) :
    Run Nat := do
  let sub ← if flags.method then resolveMethod target mark else resolveSub target
  match (← Run.look (·.code? sub)).bind (·.entry) with
  | none => raise (.undefinedSub ((← Run.look (·.subName sub)).getD "__ANON__"))
  | some entry =>
    Run.change fun m => (m.onInterp fun i =>
      { i with marks := i.marks.push mark, contexts := i.contexts.push flags.want }).retain sub
    (body entry sub).always fun m =>
      (m.onInterp fun i => { i with contexts := i.contexts.pop }).release sub
    modifyGet (·.settle mark flags.want)

/-- Call a target with the arguments above the top mark, and count the results that it leaves from
that mark on. -/
def callWith (body : Entry → Handle → Run Unit) (target : Handle) (flags : CallFlags) :
    Run Nat := do
  let mark ← Run.look fun m => if flags.noArguments then m.height else m.topMark
  unless flags.noArguments do Run.change (·.dropMark)
  if flags.discard then Run.change (·.enter.saveTemps)
  let run := invoke body target mark flags
  let count ← if flags.trap then trapped mark flags.want run else run
  if flags.discard then
    Run.change fun m => (m.truncate mark).freeTemps.leave
    return 0
  else return count

/-- Load a module once: `boot` runs its initialiser, which is noted. -/
def requireWith (boot : BootStep → Run Unit) (name : String) : Run Unit := do
  let i ← Run.look (·.interp)
  if i.loaded.contains name then return
  match i.modules.find? (·.1 == name) with
  | some (_, module) =>
    Run.change fun m => { m with log := { m.log with boots := m.log.boots ++ [name] } }
    module.steps.forM boot
    Run.change fun m => m.onInterp fun i =>
      { i with loaded := if i.loaded.contains name then i.loaded else i.loaded ++ [name] }
  | none => raise (.noModule name)

/-- Make a module loadable, in place of an earlier one of the same name. -/
def registerModule (m : Machine) (name : String) (module : Module) : Machine :=
  let former := (m.interp.modules.find? (·.1 == name)).map (·.2)
  (m.onInterp fun i =>
    { i with modules := i.modules.filter (·.1 != name) ++ [(name, module)] }).releaseAll
      ((former.map (·.captures)).getD [])

def moduleLoaded (m : Machine) (name : String) : Bool := m.interp.loaded.contains name

end Machine

namespace Reentry

/-- Call a sub by name. The name is a temporary of its own. -/
def callName (r : Reentry) (name : String) (flags : CallFlags) : Run Nat := do
  let target ← modifyGet (·.allocMortal (.scalar (.ofText name)))
  r.call target flags

/-- Call a method of the first argument. -/
def callMethod (r : Reentry) (name : String) (flags : CallFlags) : Run Nat :=
  r.callName name { flags with method := true }

end Reentry

end ValueMachine

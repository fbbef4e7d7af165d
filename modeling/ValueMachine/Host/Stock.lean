import ValueMachine.Host.Routine

/-! A stock of host closures: arithmetic and text, errors of every kind, calls back into the
machine, echoes of each host type, subs of any number of arguments, and methods of host classes. -/

namespace ValueMachine.Stock

open Machine

/-! ### Host classes -/

def animal : NamedClass := ⟨"Animal", "Zoo::Animal"⟩

def cat : NamedClass := ⟨"Cat", "Zoo::Cat"⟩

def rock : NamedClass := ⟨"Rock", "Zoo::Rock"⟩

/-- Another host type for the class of animals. -/
def beast : NamedClass := ⟨"Beast", "Zoo::Animal"⟩

def counterClass : String := "Host::Counter"

def meterClass : String := "Host::Meter"

/-- A new host instance, with a number of owners on the host's side. -/
def newInstance (className : String) (value : Int64) (holders : Nat) (m : Machine) :
    InstanceId × Machine :=
  (⟨m.instances.length⟩, { m with instances := m.instances ++ [⟨className, value, holders⟩] })

/-- One owner less on the host's side. -/
def disown (i : InstanceId) (m : Machine) : Machine :=
  { m with instances := m.instances.modify i.number fun o => { o with holders := o.holders - 1 } }

/-- Add to the value of a host instance. -/
def addTo (i : InstanceId) (n : Int64) (m : Machine) : Machine :=
  { m with instances := m.instances.modify i.number fun o => { o with value := o.value + n } }

def valueOf (i : InstanceId) (m : Machine) : Int64 := ((m.instance? i).map (·.value)).getD 0

/-! ### Hooks and modules -/

/-- The hook tables by name. A table of another name has no hooks. -/
def hooks : String → HookTable
  | "count" => ⟨"count", [.record "get"], ["set"], [.record "free"]⟩
  | "tick" => ⟨"tick", [.tick], [], []⟩
  | "phoenix" => ⟨"phoenix", [], [], [.revive "phoenix"]⟩
  | name => ⟨name, [], [], []⟩

/-- The initialisers of modules by kind; the text is what is loaded or evaluated. -/
def bootSteps (kind text : String) : List BootStep :=
  match kind with
  | "subs" => [.define "Mod::answer" "answer"]
  | "croaks" => [.fail "boot failed\n"]
  | "chain" => [.require text]
  | "evals" => [.evaluate text]
  | _ => []

/-! ### Parts of closures -/

abbrev integer : HostType := .int .i64

/-- A closure with one result. -/
def one (ts : List HostType) (body : Parameters ts → Bridge Datum) : Closure :=
  .typed ts fun _ vs => do return [← body vs]

def signed (n : Int) : Datum := .signed (Int64.ofInt n)

def optional : Option Int → Datum
  | some n => signed n
  | none => .absent

/-- Host code that gives up. -/
def giveUp (message : Option String) : Bridge α := Bridge.ofRun (throw (.aborted message))

def hostError (message : String) : Bridge α := Bridge.fail (.host message [])

/-- Run an operation with the current interpreter in focus. -/
def onCurrent (x : Bridge α) : Bridge α := do
  let m ← get
  match m.current.filter m.isAlive with
  | some i => Bridge.onInterpreter i x
  | none => hostError "no interpreter"

/-- A sum that has to fit 64 bits. -/
def checkedSum (a b : Int) : Bridge Int :=
  if IntType.i64.contains (a + b) then pure (a + b)
  else giveUp (some "attempt to add with overflow")

/-! ### Plain subs -/

def add : Closure := one [integer, integer] fun (a, b, _) =>
  pure (.signed (Int64.ofInt a + Int64.ofInt b))

def sum3 : Closure := one [integer, integer, integer] fun (a, b, c, _) => do
  return signed (← checkedSum (← checkedSum a b) c)

def sum4 : Closure := one (List.replicate 4 (.int .i32)) fun (a, b, c, d, _) =>
  pure (signed ((a : Int) + b + c + d))

def sum5 : Closure := one (List.replicate 5 (.int .u16)) fun (a, b, c, d, e, _) =>
  pure (.unsigned (UInt64.ofNat (Int.toNat ((a : Int) + b + c + d + e))))

def opt3 : Closure :=
  one [.option integer, .option .string, .option .float] fun (a, b, c, _) =>
    let shown (present : Bool) : String := if present then "true" else "false"
    pure (.text (shown (Option.isSome a) ++ "|" ++ shown (Option.isSome b) ++ "|"
      ++ shown (Option.isSome c)))

def greet : Closure := one [.string, .option .string] fun (name, greeting, _) =>
  pure (.text (Option.getD greeting "hello" ++ ", " ++ name))

def div : Closure := one [integer, integer] fun (a, b, _) =>
  if (b : Int) = 0 then hostError "division by zero" else pure (signed (Int.tdiv a b))

def range : Closure := .typed [integer] fun _ (n, _) =>
  pure ((List.range (Int.toNat n)).map fun i => signed (Int.ofNat i))

def setArg : Closure := one [.scalar] fun (v, _) => do
  let n ← Strict.signed (Held.handle v)
  Bridge.ofRun (store (Held.handle v) (.ofInt64 0))
  return signed (n + 1)

/-! ### Errors -/

def raiseNamed (name : String) : Bridge Datum :=
  match name with
  | "odd" => Bridge.fail .oddElements
  | "element" => Bridge.fail (.elementMissing (-7))
  | "noarg" => Bridge.fail (.noArgument 3)
  | "arity" => Bridge.fail (.arity 2 9)
  | "argarg" => Bridge.fail ((Failure.oddElements.atArgument 4).atArgument 5)
  | "undef" => do Bridge.fail (.unexpectedUndefined (← holdNew .undefined))
  | "died" => do Bridge.fail (.died (← holdNew (.ofText "raised\n")))
  | name => hostError ("raise " ++ name)

def rethrow : Closure := one [.scalar] fun (v, _) => do Bridge.fail (.died (← share v))

/-! ### Calls back into the machine -/

def pcall : Closure := .typed [.sub] fun r (f, _) => do
  let f : Held := f
  let called := Bridge.onOwner f (Host.callList r (.sub f.handle) [] .void)
  match ← Bridge.ofRun called.outcome with
  | .ok results =>
    Bridge.ofRun (Run.change (·.dropAll results))
    return [.text "fine"]
  | .error failure =>
    let message ← Bridge.ofRun (failure.message.always (·.dropAll failure.held))
    return [.text ("caught: " ++ message)]

/-- A closure whose one result is held and is given up after it has been passed on. -/
def passing (ts : List HostType) (body : Reentry → Parameters ts → Bridge Held) : Closure :=
  fun r args => do
    args.checkArity ts.length
    let vs ← args.readAll ts 0
    let v ← Bridge.releasing (Parameters.held ts vs) (body r vs)
    Bridge.releasing [v] do
      let h ← Bridge.ofRun (Datum.scalar v).toValue
      return [h]

def evalStr : Closure := passing [.string] fun r (source, _) =>
  onCurrent (Host.callScalar r .scalar (.source source) [])

def recurse : Closure := .typed [integer] fun r (n, _) => do
  let n : Int := n
  if n ≤ 0 then return [signed 0]
  else
    let below : Int ← onCurrent (Host.callScalar r integer (.name "recurse") [signed (n - 1)])
    return [signed (below + 1)]

def twice : Closure := .typed [.sub, integer] fun r (f, x, _) => do
  let f : Held := f
  let call (x : Int) : Bridge Int :=
    Bridge.onOwner f (Host.callScalar r integer (.sub f.handle) [signed x])
  return [signed (← call (← call x))]

/-! ### Echoes -/

/-- What a value of a type is as a host value to be given back. -/
def echoed : (t : HostType) → t.Value → Datum
  | .bool, b => .bool b
  | .int t, n => .ofInteger t n
  | .float, x => .float x
  | .single, x => .float (Float32.toFloat x)
  | .string, s => .text s
  | .option t, v => match (v : Option t.Value) with
    | some v => echoed t v
    | none => .absent
  | .vec t, vs => .list (List.map (echoed t) vs)
  | .map t, ps => .map (List.map (fun p => (p.1, echoed t p.2)) ps)
  | .value, v | .array, v | .hash, v | .sub, v => .held v
  | .scalar, v | .object, v | .named _, v => .scalar v
  | .any, a => .held (Any.value a)
  | .bridged _, i => .shared i

/-- The closure that returns its one argument of a type. -/
def echo (t : HostType) : Closure := one [t] fun (v, _) => pure (echoed t v)

/-! ### Any number of arguments -/

/-- The text of a truth value. -/
def shownBool (b : Bool) : String := if b then "true" else "false"

def probe : Closure := fun _ args => do
  args.checkArity 2
  let second ← args.read (.option integer) 1
  let copies ← Arguments.copiesOf args.handles
  let last ← newScalar (.ofText (toString args.handles.length ++ " "
    ++ shownBool args.handles.isEmpty ++ " " ++ args.want.name ++ " "
    ++ shownBool (Option.isSome second)))
  return copies.map (·.handle) ++ [last]

def ctx : Closure := .variadic fun _ args want => do
  let n ← holdNew (.ofInt64 (Int64.ofNat args.length))
  return [n, ← holdNew (.ofText want.name)]

def passAll : Closure := .variadic fun _ args _ => Bridge.ofRun (args.mapM share)

def rev : Closure := .variadic fun _ args _ => Bridge.ofRun (args.reverse.mapM share)

def argSum : Closure := .variadic fun _ args _ => do
  let sum ← args.foldlM (fun sum v => do return sum + Int64.ofInt (← Strict.signed v.handle)) 0
  return [← holdNew (.ofInt64 sum)]

def anyKind : Closure := .variadic fun _ args _ => do
  args.mapM fun v => do
    let any ← Bridge.ofRun (classify (← share v))
    Bridge.releasing any.held (Bridge.ofRun (holdNew (.ofText any.name)))

def apply : Closure := .variadic fun r args want => do
  match args with
  | [] => hostError "apply needs a sub"
  | first :: rest =>
    let f : Held ← HostType.read .share .sub first.handle
    Bridge.releasing [f] <|
      Bridge.onOwner f (Host.callList r (.sub f.handle) (rest.map .scalar) want)

/-! ### Methods -/

def counterNew : Closure := one [.string, .option integer] fun (_, start, _) => do
  return .shared (← modifyGet (newInstance counterClass (Int64.ofInt (Option.getD start 0)) 0))

def counterIncr : Closure := one [.bridged counterClass, .option integer] fun (i, amount, _) => do
  Run.change (addTo i (Int64.ofInt (Option.getD amount 1)))
  return .signed (← Bridge.look (valueOf i))

def counterValue : Closure := one [.bridged counterClass] fun (i, _) => do
  return .signed (← Bridge.look (valueOf i))

def blessNew : Closure := passing [.string, .option integer] fun _ (className, field, _) => do
  let hash ← newHash
  hashPut hash (Bytes.ofText "field") (← (optional field).toValue)
  let object ← holdNew (.ofTarget hash)
  Bridge.ofRun (bless object.handle className)
  return object

def classOfObject : Closure := one [.object] fun (v, _) => do
  return .text ((← Bridge.look (·.objectClass (Held.handle v))).getD "")

def field : Closure := one [.hash, .option integer] fun (hash, new, _) => do
  let hash : Held := hash
  match (new : Option Int) with
  | some n => hashPut hash.handle (Bytes.ofText "field") (← (signed n).toValue)
  | none => pure ()
  match ← Bridge.ofRun (hashFetch? hash.handle (Bytes.ofText "field")) with
  | some h => return optional (← HostType.read .share (.option integer) h)
  | none => return .absent

/-- The plain closures by name. -/
def subs : List (String × Closure) :=
  [("answer", one [] fun _ => pure (signed 42)), ("add", add), ("sum3", sum3), ("sum4", sum4),
    ("sum5", sum5), ("opt3", opt3), ("greet", greet), ("div", div),
    ("fails", one [] fun _ => hostError "disk on fire"),
    ("fails_ctx", one [] fun _ => Bridge.fail (.host "saving state" ["disk full"])),
    ("fails_nl", one [] fun _ => hostError "line one\nline two\n\n"),
    ("panics", one [] fun _ => giveUp (some "unreachable state")),
    ("panics_string", one [integer] fun (n, _) => giveUp (some ("state " ++ toString (n : Int)))),
    ("panics_any", one [] fun _ => giveUp none),
    ("rethrow", rethrow),
    ("abc", .typed [] fun _ _ => pure [.text "a", .text "b", .text "c"]),
    ("pair", .typed [] fun _ _ => pure [signed 1, .text "two"]),
    ("quad", .typed [] fun _ _ =>
      pure [.bool true, .float 2.5, .absent, .list [.unsigned 1, .unsigned 2]]),
    ("unit", .typed [] fun _ _ => pure []),
    ("range", range), ("pcall", pcall), ("eval_str", evalStr), ("recurse", recurse),
    ("twice", twice), ("set_arg", setArg),
    ("raise", one [.string] fun (name, _) => raiseNamed name),
    ("echo_bool", echo .bool), ("echo_i8", echo (.int .i8)), ("echo_u8", echo (.int .u8)),
    ("echo_f64", echo .float), ("echo_string", echo .string), ("echo_opt", echo (.option integer)),
    ("echo_vec", echo (.vec integer)), ("echo_map", echo (.map integer)),
    ("echo_scalar", echo .scalar), ("echo_value", echo .value), ("echo_array", echo .array),
    ("echo_hash", echo .hash), ("echo_sub", echo .sub), ("echo_object", echo .object),
    ("echo_animal", echo (.named animal)), ("echo_counter", echo (.bridged counterClass)),
    ("probe", probe), ("ctx", ctx), ("args", passAll), ("rev", rev), ("arg_sum", argSum),
    ("any_kind", anyKind), ("apply", apply)]

/-- The closures for methods by name. -/
def methods : List (String × Closure) :=
  [("counter_new", counterNew), ("counter_incr", counterIncr), ("counter_value", counterValue),
    ("bless_new", blessNew), ("not_object", one [.string] fun _ => pure (signed 7)),
    ("class_of", classOfObject), ("field", field),
    ("sides4", one [.object] fun _ => pure (signed 4))]

/-- The library of the stock. -/
def library : Library where
  routines := (List.lookup · Routine.named)
  closures := (List.lookup · (subs ++ methods))

/-- Make a closure or a routine of the stock a sub, and hold it. -/
def install (name : Option String) (kind : String) : Run Held :=
  if (Routine.named.lookup kind).isSome then Library.installRoutine name kind "raw.c"
  else Library.install name kind

/-- Install every plain closure and every routine under its own name. -/
def installAll : Run Unit :=
  (subs.map (·.1) ++ Routine.named.map (·.1)).forM fun kind => do
    let v ← install (some kind) kind
    Run.change (·.drop v)

end ValueMachine.Stock

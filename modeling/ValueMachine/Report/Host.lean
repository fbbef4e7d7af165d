import ValueMachine.Host.Session
import ValueMachine.Host.Shown
import ValueMachine.Report.Value

/-! Reports on what host code gets from the machine: classified values, results of host types,
failures, subs, host instances and settings. -/

namespace ValueMachine.Report

open Machine

/-- The value of a host instance of a class. -/
def valueIn (m : Machine) (className : String) (i : InstanceId) : Json :=
  if m.instanceClass i = className then integer (Stock.valueOf i m).toInt else .null

/-- What a classified object tells about its class. -/
def classFields (m : Machine) : Any → List (String × Json)
  | .object v => [("class", objectClass m v.handle)]
  | .registered v t =>
    [("class", text t.className), ("object_class", objectClass m v.handle),
      ("downcast", bools ([Stock.animal, Stock.cat, Stock.rock].map (t == ·)))]
  | .bridged v i =>
    [("class", objectClass m v.handle), ("counter", valueIn m Stock.counterClass i),
      ("meter", valueIn m Stock.meterClass i)]
  | .scalar _ | .array _ | .hash _ | .sub _ | .other _ => []

/-- A classified value. -/
def any (a : Any) : Run Json := do
  let h := a.value.handle
  let defined ← onInterpreter a.value.owner (isDefined h)
  let m ← get
  return .object ([("is", .text a.name), ("kind", .text (m.kind h).name),
    ("defined", .bool defined), ("integer", .bool (m.hasInt h)), ("string", .bool (m.hasText h)),
    ("ref", .bool (m.isReference h)), ("object", .bool a.isObject)] ++ classFields m a)

/-- The view of a held value under the name of its wrapper. -/
def wrapped (name : String) (v : Held) : Run Json := do return .object [(name, ← view v.handle)]

/-- A result of a host type. -/
def result : (t : HostType) → t.Value → Run Json
  | .bool, b => return .bool b
  | .int _, n => return integer n
  | .float, x => return float x
  | .single, x => return single x
  | .string, s => return text s
  | .option t, v =>
    match (v : Option t.Value) with
    | some v => do return .object [("some", ← result t v)]
    | none => return .null
  | .vec t, vs => do return .list (← List.mapM (result t) vs)
  | .map t, ps => do
    return .list (← List.mapM (fun p => do return Json.list [text p.1, ← result t p.2]) ps)
  | .value, v => wrapped "value" v
  | .scalar, v => wrapped "scalar" v
  | .array, v => wrapped "array" v
  | .hash, v => wrapped "hash" v
  | .sub, v => wrapped "sub" v
  | .object, v => wrapped "object" v
  | .any, a => do return .object [("any", ← any a)]
  | .named _, v => do
    let m ← get
    return .object [("named", objectClass m (Held.handle v))]
  | .bridged c, i => do
    let m ← get
    return .object [(if c = Stock.counterClass then "counter" else "meter", valueIn m c i)]

/-- The entries of a hash in order. The values are given up. -/
def entries (ps : List (Bytes × Held)) : Run Json := do
  let ordered := ps.mergeSort fun a b => Bytes.le a.1 b.1
  let out ← ordered.mapM fun (key, v) => do return Json.list [bytes key, ← view v.handle]
  Run.change (·.dropAll (ps.map (·.2)))
  return .list out

/-- The name of the cause of a failure. -/
def causeName : Failure → String
  | .died _ => "Died"
  | .noArgument _ => "NoArgumentOnStack"
  | .arity _ _ => "ArityMismatch"
  | .unexpectedUndefined _ => "UnexpectedUndef"
  | .unexpectedKind _ _ => "UnexpectedValueType"
  | .notNumber _ _ => "NotNumber"
  | .notStringOrNumber _ => "NotStringOrNumber"
  | .notReference _ => "NotReference"
  | .notObject _ => "NotObject"
  | .notWrapped _ => "NotWrappedObject"
  | .unexpectedClass _ _ => "UnexpectedObjectType"
  | .elementMissing _ => "ElementNotExists"
  | .oddElements => "OddElementsHash"
  | .argument _ _ => "Argument"
  | .host _ _ => "Host"

/-- A failure: its cause, its message, and the value that it is about. -/
def failure (f : Failure) : Run (List (String × Json)) := do
  let message ← f.message
  let more ← match f with
    | .argument i source => do pure [("index", count i), ("source", .object (← failure source))]
    | .notNumber v want => do pure [("value", ← view v.handle), ("want", .text want)]
    | f => f.held.mapM fun v => do return ("value", ← view v.handle)
  return [("error", .text (causeName f)), ("message", text message)] ++ more

/-- A failure, whose values are given up. -/
def failed (f : Failure) : Run (List (String × Json)) := do
  let fields ← failure f
  Run.change (·.dropAll f.held)
  return fields

/-- What an operation gives, or its failure. -/
def outcome (f : α → Json) (x : Bridge α) : Run Json := do
  match ← x.run with
  | .ok a => return f a
  | .error e => return .object (← failed e)

/-- A sub. Of the files that subs come from only one is named. -/
def sub (m : Machine) (h : Handle) : Json :=
  let file := ((m.code? h).map (·.file)).getD ""
  .object [("name", optional text (m.subName h)),
    ("file", .text (if file = "" then "empty" else if file = "raw.c" then file else "set")),
    ("defined", .bool (m.hasBody h)), ("debug", text (Shown.sub m h))]

/-- A host instance: the claims on it, its owners, of which the map of claims is one, and its
value. -/
def hostInstance (m : Machine) (i : InstanceId) : Json :=
  let claims := m.claimsOn i
  let holders := ((m.instance? i).map (·.holders)).getD 0
  .object [("claims", count claims), ("strong", count (holders + min claims 1)),
    ("value", integer (Stock.valueOf i m).toInt)]

def settings (s : Settings) : List (String × Json) :=
  [("script_name", .text s.scriptName), ("preload", .list (s.preload.map .text)),
    ("stack_reserve", integer s.stackReserve), ("destruct_level", count s.destructLevel),
    ("warn_on_leaks", .bool s.warnOnLeaks)]

/-- What hooks have noted, if anything: reads and writes in order, and releases sorted. -/
def events (m : Machine) : List (String × Json) :=
  let texts (ss : List String) : Json := .list (ss.map .text)
  if m.log.access.isEmpty && m.log.freed.isEmpty then []
  else [("events", .list [texts m.log.access, texts (sorted m.log.freed)])]

end ValueMachine.Report

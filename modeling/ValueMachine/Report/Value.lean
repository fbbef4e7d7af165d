import ValueMachine.Host.Datum
import ValueMachine.Report.Basic

/-! Reports on values. A view is taken without reading, so that no hooks run; an inspection reads.
-/

namespace ValueMachine.Report

open Machine

/-- Whether an integer is the word of a host instance. -/
def isIdentity (m : Machine) (w : Wide) : Bool :=
  (List.range m.instances.length).any fun i => w.toInt = (InstanceId.identity ⟨i⟩).toNat

/-- Whether the value under a handle is watched, so that a view does not go into it. -/
def isWatched (c : Cell) : Bool := c.magic.any fun g => !g.table.onRead.isEmpty

/-- A field that is left out where there is nothing to tell. -/
def field (name : String) (j : Option Json) : List (String × Json) := j.toList.map (name, ·)

/-- The slots of a scalar. The float of a scalar with an integer is not told. -/
def scalarFields (m : Machine) (inner : Handle → Json) (s : Scalar) : List (String × Json) :=
  field "undef" (if s.isDefined then none else some (.bool true))
    ++ field "i" (s.int.map fun w => .text (if isIdentity m w then "addr" else w.text))
    ++ field "n" (s.float.map fun x => if s.int.isSome then .bool true else float x)
    ++ field "p" (s.text.map fun t => bytes t.bytes)
    ++ field "utf8" ((s.text.filter (·.utf8)).map fun _ => .bool true)
    ++ field "r" (s.target.map inner)

/-- The content of a body. -/
def bodyFields (m : Machine) (inner : Handle → Json) : Body → List (String × Json)
  | .array xs => [("a", .list (xs.map (optional inner)))]
  | .hash t =>
    let entries := t.entries.mergeSort fun a b => Bytes.le a.1 b.1
    [("h", .list (entries.map fun (key, h) => .list [bytes key, inner h]))]
  | .code k => [("code", optional text k.name), ("body", .bool k.entry.isSome)]
  | .format => [("format", .bool true)]
  | .io => [("io", .bool true)]
  | .scalar s => scalarFields m inner s
  | .freed => [("undef", .bool true)]

/-- A view of a value below those of a path, to at most some more levels. A value of the path is
told by the number of levels back to it. -/
def viewWithin (m : Machine) : Nat → List Handle → Handle → Json
  | fuel, path, h =>
    match path.idxOf? h, fuel with
    | some k, _ => .object [("cycle", count (k + 1))]
    | none, 0 => .object [("deep", .bool true)]
    | none, fuel + 1 =>
      let c := m.cell h
      if isWatched c then .object [("magical", .bool true)]
      else .object (bodyFields m (viewWithin m fuel (h :: path)) c.body
        ++ field "class" (c.className.map text))

/-- How many levels a view goes down. -/
def levels : Nat := 24

/-- A view of a value. -/
def viewAt (m : Machine) (h : Handle) : Json := viewWithin m levels [] h

def view (h : Handle) : Run Json := Run.look (viewAt · h)

def views (hs : List Handle) : Run Json := do return .list (← hs.mapM view)

def byteText (t : ByteText) : Json := .list [.text t.bytes.toHex, .bool t.utf8]

/-- What can be seen of a scalar's slots; the first and the last are readings. -/
def flags (h : Handle) : Run (List Bool) := do
  let defined ← isDefined h
  let m ← get
  return [defined, m.hasInt h, m.hasFloat h, m.hasText h, m.hasUtf8 h, m.isReference h,
    m.isObject h, ← truth h]

/-- The class that a reference refers to. -/
def objectClass (m : Machine) (h : Handle) : Json := optional text (m.objectClass h)

/-- Tell something, or that it is an address. -/
def shielded (address : Bool) (x : Run Json) : Run Json := do
  let j ← x
  return if address then .text "addr" else j

/-- All that can be told of a value. The readings of an address are made and not told. -/
def inspection (h : Handle) : Run Json := do
  let m ← get
  let kind := m.kind h
  let stands := (((m.scalar? h).bind (·.int)).map (isIdentity m)).getD false
  let reading (f : Number → Json) : Run Json :=
    shielded (kind ≠ .scalar || m.isReference h || stands) (f <$> Machine.number h)
  let description ← shielded stands (text <$> describe h)
  let flags ← flags h
  let signed ← reading fun n => integer n.toInt64.toInt
  let unsigned ← reading fun n => integer n.toUInt64.toNat
  let real ← reading fun n => float n.toFloat
  let string ← shielded stands (do return bytes (← Machine.text h).bytes)
  let number ← reading number
  return .object
    [("rc", count (m.cell h).count), ("tag", count (m.tag h)), ("kind", .text kind.name),
      ("reftype", text (m.referentType h)), ("obtype", text (m.objectType h)),
      ("describe", description), ("flags", bools (flags ++ [m.hasUnsigned h])), ("iv", signed),
      ("uv", unsigned), ("nv", real), ("pv", string), ("num", number), ("class", objectClass m h),
      ("casts", bools [kind = .array, kind = .hash, kind = .code]), ("show", ← view h)]

end ValueMachine.Report

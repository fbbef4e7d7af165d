import ValueMachine.Json.Basic
import ValueMachine.Json.Reader
import ValueMachine.Text.Qualified
import ValueMachine.Text.Property

/-! The settings of an interpreter: their check, their reading from JSON and their text. -/

namespace ValueMachine

/-- The settings of an interpreter. -/
structure Settings where
  /-- The value of `$0`. -/
  scriptName : String
  /-- The modules to load at the start, in order. -/
  preload : List String
  /-- Places of the argument stack to reserve. -/
  stackReserve : Nat
  /-- How much is released at the end: nothing global at level zero. -/
  destructLevel : Nat
  /-- Whether to warn of values that outlive the interpreter. -/
  warnOnLeaks : Bool
  deriving DecidableEq, Repr

/-- Why settings are refused. -/
inductive SettingsError where
  | destructLevel (level : Nat)
  | moduleName (name : String)
  | emptyScriptName
  deriving DecidableEq, Repr

namespace SettingsError

def message : SettingsError → String
  | destructLevel level => "destruct level " ++ toString level ++ " is out of range (0-2)"
  | moduleName name => "invalid module name " ++ Text.quote name
  | emptyScriptName => "script name is empty"

end SettingsError

namespace Settings

/-- What holds where nothing else is set. -/
def standard : Settings := ⟨"perlbridge", [], 128, 1, true⟩

/-- The first error of settings: an empty script name, a level above two, or the first name that is
no module's. -/
def error? (s : Settings) : Option SettingsError :=
  if s.scriptName.isEmpty then some .emptyScriptName
  else if s.destructLevel > 2 then some (.destructLevel s.destructLevel)
  else (s.preload.find? (!Qualified.isModuleName ·)).map .moduleName

/-- The settings as a document. -/
def toJson (s : Settings) : Json :=
  .object
    [("script_name", .text s.scriptName), ("preload", .list (s.preload.map .text)),
      ("stack_reserve", .int s.stackReserve), ("destruct_level", .int s.destructLevel),
      ("warn_on_leaks", .bool s.warnOnLeaks)]

/-- The names of the settings, in order. -/
def names : List String :=
  ["script_name", "preload", "stack_reserve", "destruct_level", "warn_on_leaks"]

/-- A list of texts. -/
def texts? : RawJson → Option (List String)
  | .list items => items.mapM fun
    | .text s => s
    | _ => none
  | _ => none

/-- The settings with one of them read from a document. -/
def set? (s : Settings) (name : String) (j : RawJson) : Option Settings :=
  match name, j with
  | "script_name", .text t => t.map ({ s with scriptName := · })
  | "preload", j => (texts? j).map ({ s with preload := · })
  | "stack_reserve", .number n => n.map ({ s with stackReserve := · })
  | "destruct_level", .number n => (n.filter (· < 256)).map ({ s with destructLevel := · })
  | "warn_on_leaks", .bool b => some { s with warnOnLeaks := b }
  | _, _ => none

/-- Read fields one after the other. A setting is given once at most, and other fields are passed
over. -/
def ofFields (s : Settings) (seen : List String) :
    List (Option String × RawJson) → Option Settings
  | [] => some s
  | (none, _) :: _ => none
  | (some name, j) :: rest =>
    if names.contains name then
      if seen.contains name then none
      else (s.set? name j).bind fun s => ofFields s (name :: seen) rest
    else ofFields s seen rest

/-- Read the settings from a document: an object, or a list in the order of the names. What is not
given stays as it is by default. -/
def ofRaw? : RawJson → Option Settings
  | .object fields => ofFields standard [] fields
  | .list items =>
    if items.length ≤ names.length then
      (names.zip items).foldlM (fun s (name, j) => s.set? name j) standard
    else none
  | _ => none

/-- Read the settings from the bytes of a file. -/
def ofBytes? (bs : Bytes) : Option Settings := (RawJson.ofBytes? bs).bind ofRaw?

end Settings

end ValueMachine

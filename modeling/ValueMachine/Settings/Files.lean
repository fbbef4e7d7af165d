import ValueMachine.Settings.Basic
import ValueMachine.Settings.Place

/-! Settings in files. Settings are written to a second file first, which then takes the place of
the former one, so that no reader meets a part of them. -/

namespace ValueMachine

/-- The files of a directory by name, and files above it by the paths that lead to them. -/
abbrev Directory := List (String × Bytes)

namespace Directory

/-- What a file goes by. -/
def key (path : String) (given : Bool) (name : String) : String := if given then name else path

def get? (d : Directory) (key : String) : Option Bytes := (d.find? (·.1 == key)).map (·.2)

def put (d : Directory) (key : String) (content : Bytes) : Directory :=
  d.filter (·.1 != key) ++ [(key, content)]

def remove (d : Directory) (key : String) : Directory := d.filter (·.1 != key)

/-- The names of the files in the directory itself. -/
def names (d : Directory) : List String := (d.map (·.1)).filter fun key => !key.toList.contains '/'

/-- The content of the file that a path leads to. -/
def read? (d : Directory) (path : String) : Option Bytes :=
  match Place.ofPath path with
  | .entry given name false => d.get? (key path given name)
  | _ => none

/-- Whether a path leads to something. -/
def has (d : Directory) (path : String) : Bool :=
  match Place.ofPath path with
  | .directory _ => true
  | .entry .. | .nowhere => (d.read? path).isSome

end Directory

/-- Why settings could not be loaded or written. -/
inductive FileError where
  | refused (e : SettingsError)
  | read (path : String)
  | deserialize
  | create (path : String)
  | rename (path : String)
  deriving DecidableEq, Repr

namespace FileError

def message : FileError → String
  | refused e => e.message
  | read path => "Failed to read config: " ++ Text.quote path
  | deserialize => "Failed to deserialize config"
  | create path => "Failed to create temp file: " ++ Text.quote (FileName.temporaryPath path)
  | rename path =>
    "Failed to rename " ++ Text.quote (FileName.temporaryPath path) ++ " to " ++ Text.quote path

end FileError

namespace Settings

/-- Check settings. -/
def checked (s : Settings) : Except FileError Settings :=
  match s.error? with
  | some e => .error (.refused e)
  | none => .ok s

/-- Read and check the settings of a file. -/
def load (d : Directory) (path : String) : Except FileError Settings :=
  match d.read? path with
  | some content =>
    match ofBytes? content with
    | some s => s.checked
    | none => .error .deserialize
  | none => .error (.read path)

/-- Put a content where a path leads, by way of the second file. -/
def replaceAt (d : Directory) (path : String) (content : Bytes) :
    Except FileError Unit × Directory :=
  match Place.ofPath path with
  | .directory _ | .nowhere => (.error (.create path), d)
  | .entry given name marked =>
    let second := FileName.temporary name
    let temporary := Directory.key (FileName.temporaryPath path) given second
    if second.utf8ByteSize > Place.nameLimit then (.error (.create path), d)
    else if marked || name.utf8ByteSize > Place.nameLimit then
      (.error (.rename path), d.put temporary content)
    else (.ok (), (d.remove temporary).put (Directory.key path given name) content)

/-- Check settings and write them to a file. -/
def write (s : Settings) (d : Directory) (path : String) : Except FileError Unit × Directory :=
  match s.checked with
  | .ok s => replaceAt d path (Bytes.ofText s.toJson.pretty)
  | .error e => (.error e, d)

/-- The settings of a file, the standard ones where nothing is at its path. -/
def effective (d : Directory) (path : String) : Except FileError Settings :=
  if d.has path then load d path else .ok standard

end Settings

end ValueMachine

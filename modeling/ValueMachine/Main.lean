import ValueMachine.CommandLine
import ValueMachine.Host.Stock

/-! The program: it runs a command line on the settings' file in the current directory. -/

open ValueMachine

/-- The settings' file of a command, if there is one. -/
def settingsFile (args : List String) : IO Directory := do
  match (CommandLine.parse args).bind (·.path?) with
  | none => return []
  | some path =>
    match Place.ofPath path with
    | .entry given name false =>
      let key := Directory.key path given name
      try
        let content ← IO.FS.readBinFile key
        return [(key, content.toList)]
      catch _ => return []
    | _ => return []

def main (args : List String) : IO UInt32 := do
  let files ← settingsFile args
  let answer := CommandLine.run Stock.library files args
  for (name, content) in answer.files do
    if files.get? name != some content then IO.FS.writeBinFile name ⟨content.toArray⟩
  IO.print answer.out
  IO.eprint answer.err
  return UInt32.ofNat answer.code

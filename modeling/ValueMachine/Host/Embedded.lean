import ValueMachine.Host.Document
import ValueMachine.Settings.Files

/-! Interpreters owned by the host. One is current when it has started; when it is given up, the one
that was current when it started becomes current again if it still lives, or whichever has come to its
place. -/

namespace ValueMachine

/-- An interpreter owned by the host, with the place of the one that was current when it started. -/
structure Embedded where
  id : InterpId
  previous : Option InterpId
  settings : Settings

namespace Embedded

open Machine

/-- Start an interpreter at a place. It comes into focus and, if its stack can have the slots asked
for, becomes current. -/
def boot (place : InterpId) (s : Settings) : Run Embedded := do
  Run.change (·.allocInterp place)
  Run.change (·.construct)
  setArguments [s.scriptName]
  Run.change fun m =>
    { (m.start.onInterp ({ · with destructLevel := s.destructLevel })) with
      alive := place :: m.alive }
  checkRoom s.stackReserve
  Run.change ({ · with current := some place })
  return ⟨place, none, s⟩

/-- Give an interpreter up. Whether the one is alive that was current when it started, is asked of the
place alone: if another one has come there, that one becomes current. -/
def drop (e : Embedded) (m : Machine) : Machine :=
  let m := (m.focus e.id).destruct
  let m := { m with alive := m.alive.filter (· ≠ e.id) }
  let m := m.freeInterp
  match e.previous.filter m.isAlive with
  | some previous => { m with current := some previous }
  | none => m

/-- Start an interpreter at a place and load its modules. If one of them fails the interpreter is given
up. -/
def start (lib : Library) (place : InterpId) (s : Settings) : Bridge Embedded := do
  let previous ← Bridge.look (·.current)
  let booted ← Bridge.ofRun (boot place s)
  let e := { booted with previous }
  let loading : Bridge Unit := s.preload.forM fun module => Host.require lib.calls module
  ExceptT.mk do
    match ← loading.run with
    | .ok () => return .ok e
    | .error f =>
      Run.change (drop e)
      return .error f

/-- The debugging text of an interpreter. -/
def shown (e : Embedded) : String :=
  "EmbeddedPerl \x7b perl: PerlInterpreter(" ++ addressText (0x560000000000 + 4096 * e.id.number)
    ++ "), script_name: " ++ Text.quote e.settings.scriptName ++ " \x7d"

end Embedded

end ValueMachine

import ValueMachine.Machine.Lifecycle
import ValueMachine.Text.Property

/-! Handles that host code holds. Each holds one count on its value for as long as it is kept, and
remembers the interpreter that it came from; once that interpreter is gone, giving the handle up
leaves the value alone. -/

namespace ValueMachine

/-- A handle with a count of its own, and the interpreter that it belongs to. -/
structure Held where
  handle : Handle
  owner : InterpId
  deriving DecidableEq, Repr

namespace Machine

/-- Make a change with another interpreter in focus. -/
def within (m : Machine) (i : InterpId) (f : Machine → Machine) : Machine :=
  (f (m.focus i)).focus m.here

/-- Run an operation with another interpreter in focus. -/
def onInterpreter (i : InterpId) (x : Run α) : Run α := do
  let back ← Run.look (·.here)
  Run.change (·.focus i)
  x.always (·.focus back)

/-- Give a held handle up. -/
def drop (m : Machine) (v : Held) : Machine :=
  if m.isAlive v.owner then m.within v.owner (·.release v.handle) else m

def dropAll (m : Machine) (vs : List Held) : Machine := vs.foldl drop m

/-- Hold a handle whose count is handed over. -/
def adopt (h : Handle) : Run Held := do return ⟨h, ← Run.look (·.here)⟩

/-- Hold a borrowed handle, with a count of its own. -/
def hold (h : Handle) : Run Held := do
  Run.change (·.retain h)
  adopt h

/-- Hold a duplicate of a borrowed handle. -/
def holdCopy (h : Handle) : Run Held := do adopt (← duplicate h)

/-- Hold a new scalar. -/
def holdNew (s : Scalar) : Run Held := do adopt (← newScalar s)

/-- Hold what a held handle holds once more. -/
def share (v : Held) : Run Held := do
  Run.change (·.retain v.handle)
  return v

/-- The description of a value for diagnostics: `undef`, a quoted string, a number, or a reference
text. -/
def describe (h : Handle) : Run String := do
  match ← Run.look (·.kind h) with
  | .scalar =>
    if ← isDefined h then
      if ← Run.look fun m => m.hasText h && !m.isReference h then
        return Text.quote (← string h)
      else string h
    else return "undef"
  | kind =>
    return kind.name ++ "(" ++ addressText h.address.toNat ++ ")"

end Machine

end ValueMachine

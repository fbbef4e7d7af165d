import ValueMachine.Machine.State
import ValueMachine.Text.Qualified

/-! New values and the symbol table. A new value belongs to whoever asked for it and counts as live
on the interpreter in focus; a global's value belongs to its glob. -/

namespace ValueMachine.Machine

/-- A new value. -/
def alloc (m : Machine) (b : Body) : Handle × Machine :=
  (m.heap.next,
    { m with
      heap := m.heap.push (.fresh b)
      interp := { m.interp with live := m.interp.live + 1 } })

/-- A shared value that is neither counted nor changed. -/
def allocImmortal (m : Machine) (s : Scalar) : Handle × Machine :=
  (m.heap.next, m.onHeap (·.push { Cell.fresh (.scalar s) with immortal := true }))

/-- One more count on a value. -/
def retain (m : Machine) (h : Handle) : Machine :=
  if (m.cell h).immortal then m
  else m.onHeap (·.update h fun c => { c with count := c.count + 1 })

/-- The glob of a qualified name. -/
def glob? (m : Machine) (name : String) : Option Glob :=
  (m.interp.symbols.find? (·.1 == name)).map (·.2)

/-- Change the glob of a qualified name, made where it is missing. -/
def updateGlob (m : Machine) (name : String) (f : Glob → Glob) : Machine :=
  m.onInterp fun i =>
    if i.symbols.any (·.1 == name) then
      { i with symbols := i.symbols.map fun (n, g) => if n == name then (n, f g) else (n, g) }
    else { i with symbols := i.symbols ++ [(name, f .empty)] }

/-- A global, if it exists. -/
def global? (m : Machine) (sigil : Sigil) (name : String) : Option Handle :=
  (m.glob? (Qualified.qualify name)).bind (·.get sigil)

/-- What a missing global is created as. A sub is declared without a body. -/
def newGlobalBody (sigil : Sigil) (name : String) : Body :=
  match sigil with
  | .scalar => .scalar .undefined
  | .array => .array []
  | .hash => .hash ⟨[], none⟩
  | .code => .code ⟨some (Qualified.qualify name), "", none, none⟩

/-- A global, created where it is missing. -/
def global (m : Machine) (sigil : Sigil) (name : String) : Handle × Machine :=
  match m.global? sigil name with
  | some h => (h, m)
  | none =>
    let (h, m) := m.alloc (newGlobalBody sigil name)
    (h, m.updateGlob (Qualified.qualify name) (·.set sigil h))

/-- The error variable `$@`, created where it is missing. -/
def errorSlot (m : Machine) : Handle × Machine :=
  match m.interp.error with
  | some h => (h, m)
  | none =>
    let (h, m) := m.global .scalar "@"
    (h, m.onInterp ({ · with error := some h }))

end ValueMachine.Machine

import ValueMachine.Machine.Release

/-! The argument stack with its marks, and the temporaries with their scopes. -/

namespace ValueMachine.Machine

def push (m : Machine) (h : Handle) : Machine :=
  m.onInterp fun i => { i with stack := i.stack.push h }

def pushAll (m : Machine) (hs : List Handle) : Machine :=
  m.onInterp fun i => { i with stack := i.stack.pushAll hs }

def height (m : Machine) : Nat := m.interp.stack.height

/-- The stack from a height to the top. -/
def above (m : Machine) (n : Nat) : List Handle := m.interp.stack.above n

/-- The top `n` values. -/
def top (m : Machine) (n : Nat) : List Handle := m.above (m.height - n)

def truncate (m : Machine) (n : Nat) : Machine :=
  m.onInterp fun i => { i with stack := i.stack.cut n }

@[simp] theorem height_push (m : Machine) (h : Handle) : (m.push h).height = m.height + 1 := by
  simp [push, height, onInterp]

/-- Overwrite a place of the stack, which grows by the shared undefined value. -/
def putAt (m : Machine) (n : Nat) (h : Handle) : Machine :=
  m.onInterp fun i =>
    let grown := i.stack.pushAll (List.replicate (n + 1 - i.stack.height) i.undefined)
    { i with stack := grown.set n h }

/-- Remember the height of the stack as the start of an argument list. -/
def pushMark (m : Machine) : Machine :=
  m.onInterp fun i => { i with marks := i.marks.push i.stack.height }

def topMark (m : Machine) : Nat := m.interp.marks.top?.getD 0

def dropMark (m : Machine) : Machine := m.onInterp fun i => { i with marks := i.marks.pop }

/-- Hand a count over to the temporaries. -/
def mortal (m : Machine) (h : Handle) : Machine :=
  m.onInterp fun i => { i with temps := i.temps.push h }

/-- A new value that belongs to the temporaries. -/
def allocMortal (m : Machine) (b : Body) : Handle × Machine :=
  let (h, m) := m.alloc b
  (h, m.mortal h)

/-- Open a scope. -/
def enter (m : Machine) : Machine := m.onInterp fun i => { i with scopes := i.scopes.push none }

/-- Raise the floor to the top of the temporaries; the innermost scope puts the first floor that is
raised in it aside. -/
def saveTemps (m : Machine) : Machine :=
  m.onInterp fun i =>
    { i with
      scopes := if i.scopes.top? = some none then i.scopes.pop.push (some i.floor) else i.scopes
      floor := i.temps.height }

/-- Release the temporaries above the floor, newest first. -/
def freeTemps (m : Machine) : Machine :=
  let freed := m.interp.temps.downTo m.interp.floor
  (m.onInterp fun i => { i with temps := i.temps.cut i.floor }).releaseAll freed

/-- Close a scope, and restore the floor that it put aside. -/
def leave (m : Machine) : Machine :=
  m.onInterp fun i =>
    { i with
      scopes := i.scopes.pop
      floor := (i.scopes.top?.join).getD i.floor }

/-- How far the stacks reach. -/
structure Frame where
  height : Nat
  marks : Nat
  contexts : Nat
  scopes : Nat
  floor : Nat

/-- The present frame, with its root at a height of the stack. -/
def frame (m : Machine) (root : Nat) : Frame :=
  ⟨root, m.interp.marks.height, m.interp.contexts.height, m.interp.scopes.height, m.interp.floor⟩

/-- Cut the stacks back to a frame. The temporaries stay. -/
def unwind (m : Machine) (f : Frame) : Machine :=
  m.onInterp fun i =>
    { i with
      stack := i.stack.cut f.height
      marks := i.marks.cut f.marks
      contexts := i.contexts.cut f.contexts
      scopes := i.scopes.cut f.scopes
      floor := f.floor }

/-- Cut the results of a call above a mark to what its caller wants, and count them. -/
def settle (m : Machine) (mark : Nat) (want : Want) : Nat × Machine :=
  let results := m.above mark
  match want with
  | .void => (0, m.truncate mark)
  | .scalar => (1, (m.truncate mark).push (results.getLast?.getD m.interp.undefined))
  | .list => (results.length, m)

end ValueMachine.Machine

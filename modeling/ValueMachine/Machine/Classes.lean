import ValueMachine.Machine.Hashes
import ValueMachine.Machine.Subs

/-! Classes. The parents of a class are listed in the array `ISA` of its package; inheritance and
the search for methods go through them depth first, at most a hundred links deep. -/

namespace ValueMachine.Machine

/-- Bless what a reference refers to into a class. -/
def bless (h : Handle) (className : String) : Run Unit := do
  match ← Run.look (·.target? h) with
  | some target => Run.change (·.onHeap (·.update target ({ · with className := some className })))
  | none => raise .blessOfNonReference

/-- Make a scalar a reference to a new integer, blessed where a class is given. -/
def storeObject (h : Handle) (className : Option String) (n : Int64) : Run Unit := do
  let target ← newScalar (.ofInt64 n)
  store h (.ofTarget target)
  match className with
  | some c => bless h c
  | none => pure ()

/-- The parents of a class. -/
def parents (className : String) : Run (List String) := do
  match ← Run.look (·.global? .array (className ++ "::ISA")) with
  | some isa => ((← slots isa).filterMap id).mapM string
  | none => return []

/-- The most links of a chain of parents. -/
def maxLinks : Nat := 100

/-- Whether a class is another or inherits from it, within `n` more links. -/
def derivesWithin (ancestor : String) : Nat → String → Run Bool
  | 0, c => if c = ancestor then pure true else raise (.recursiveInheritance c)
  | n + 1, c =>
    if c = ancestor then pure true
    else do (← parents c).anyM (derivesWithin ancestor n)

/-- Whether a class is another or inherits from it. -/
def derives (c ancestor : String) : Run Bool := derivesWithin ancestor (maxLinks + 1) c

/-- Whether a class inherits from another and is not that one itself. -/
def isStrictSubclass (c ancestor : String) : Run Bool :=
  if c = ancestor then pure false else derives c ancestor

/-- Whether an object, a plain reference's type or a class name derives from a class. -/
def isDerivedFrom (h : Handle) (ancestor : String) : Run Bool := do
  match ← Run.look (·.target? h) with
  | some target =>
    match ← Run.look (·.classOf target) with
    | some c => derives c ancestor
    | none => return (← Run.look (·.referentType target)) = ancestor
  | none => derives (← string h) ancestor

/-- The sub of a class with this name, if it has a body. -/
def ownMethod? (m : Machine) (className method : String) : Option Handle :=
  (m.global? .code (className ++ "::" ++ method)).filter m.hasBody

/-- The method that a class has of its own or inherits, within `n` more links. -/
def findMethodWithin (method : String) : Nat → String → Run (Option Handle)
  | 0, c => raise (.recursiveInheritance c)
  | n + 1, c => do
    match ← Run.look (·.ownMethod? c method) with
    | some sub => return some sub
    | none => (← parents c).findSomeM? (findMethodWithin method n)

/-- The method that a class has of its own or inherits. -/
def findMethod (className method : String) : Run (Option Handle) :=
  findMethodWithin method (maxLinks + 1) className

/-- Make a class inherit from others, in order. -/
def setParents (className : String) (ancestors : List String) : Run Unit := do
  let isa ← modifyGet (·.global .array (className ++ "::ISA"))
  arrayClear isa
  ancestors.forM fun a => do arrayPush isa (← newScalar (.ofText a))

end ValueMachine.Machine

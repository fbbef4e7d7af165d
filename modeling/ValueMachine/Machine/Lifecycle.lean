import ValueMachine.Machine.Calls

/-! The life of an interpreter: it is allocated, constructed, told its program name, run, torn down
and freed. -/

namespace ValueMachine.Machine

/-- A new interpreter at a place, which comes into focus. Where it comes is not for the machine to
say, and may be where one was that has been freed. The first one while none lives is the main one. -/
def allocInterp (m : Machine) (place : InterpId) : Machine :=
  let (undefined, m) := m.allocImmortal .undefined
  let (yes, m) := m.allocImmortal (.ofBool true)
  let (no, m) := m.allocImmortal (.ofBool false)
  { m with
    others := (m.here, m.interp) :: m.others
    interp := .blank undefined yes no
    here := place
    main := m.main <|> some place }

/-- Set up the error variable. -/
def construct (m : Machine) : Machine :=
  let (slot, m) := m.global .scalar "@"
  let m := match m.body slot with
    | .scalar former => m.replaceScalar slot former (.ofByteText ⟨[], false⟩)
    | _ => m
  m.onInterp ({ · with error := some slot, phase := .constructed })

/-- The program name where no argument gives one. -/
def defaultScriptName : String := "perlbridge"

/-- Record the program name and its arguments: the first is the value of `$0` and the others are
pushed onto `@ARGV`. -/
def setArguments (args : List String) : Run Unit := do
  let program ← modifyGet (·.global .scalar "0")
  store program (.ofText (args.head?.getD defaultScriptName))
  let argv ← modifyGet (·.global .array "ARGV")
  args.tail.forM fun a => do arrayPush argv (← newScalar (.ofText a))

/-- Enter the running phase. -/
def start (m : Machine) : Machine := m.onInterp ({ · with phase := .running })

/-- One round of the release of globals. -/
def releaseGlobals (m : Machine) : Machine :=
  let globs := m.interp.symbols
  let m := m.onInterp ({ · with symbols := [], error := none })
  (m.releaseAll (globs.flatMap (·.2.owned))).freeTemps

/-- Rounds of the release of globals, until none is left or the rounds run out. A release hook may
create globals again. -/
def releaseGlobalsWithin : Nat → Machine → Machine
  | 0, m => m
  | n + 1, m =>
    if m.interp.symbols.isEmpty then m else releaseGlobalsWithin n m.releaseGlobals

/-- The most rounds of the release of globals. -/
def globalRounds : Nat := 16

/-- Tear an interpreter down: the stacks are emptied and the temporaries released, and unless the
destruct level is zero, all globals and modules too. What is still referred to from outside stays.
-/
def destruct (m : Machine) : Machine :=
  let m := m.onInterp ({ · with
    phase := .destructing
    stack := .empty, marks := .empty, contexts := .empty, scopes := .empty, floor := 0 })
  let m := m.freeTemps
  if m.interp.destructLevel = 0 then m
  else
    let m := releaseGlobalsWithin globalRounds m
    let captured := m.interp.modules.flatMap (·.2.captures)
    (m.onInterp ({ · with error := none, modules := [] })).releaseAll captured

/-- Give an interpreter up that has been torn down. It is neither main nor current any more. -/
def freeInterp (m : Machine) : Machine :=
  let m := { m with
    main := if m.main = some m.here then none else m.main
    current := if m.current = some m.here then none else m.current }
  match m.others with
  | (id, interp) :: rest => { m with interp, here := id, others := rest }
  | [] => m

end ValueMachine.Machine

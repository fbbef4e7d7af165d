import ValueMachine.Report.Host

/-! The life of an interpreter from its allocation to its end, reported stage by stage: what is
alive, what the stages leave in `$@` and on the stack, and what survives. -/

namespace ValueMachine.Report

open Machine

/-- One evaluation of source text. -/
structure Evaluation where
  source : String
  want : Want
  /-- Open a scope for it, and release its temporaries. -/
  inScope : Bool
  /-- Hold the results beyond the end of the interpreter. -/
  hold : Bool
  /-- Leave the results on the stack. -/
  leave : Bool

/-- What happens in a life. -/
structure Life where
  /-- The program name and its arguments, if they are recorded at all. -/
  arguments : Option (List String)
  /-- Whether a native routine is defined with them. -/
  withRoutine : Bool
  running : Bool
  current : Bool
  evaluations : List Evaluation
  /-- A global that is made again whenever it is released. -/
  phoenix : Option String
  destructLevel : Option Nat
  /-- The globals that are looked for after the end. -/
  after : List String

namespace Life

/-- A stage and what is told of it. -/
def stage (name : String) (facts : List Json) : Json := .list (.text name :: facts)

def alive : Run Json := Run.look fun m => count m.interp.live

def error : Run Json := do view (← modifyGet (·.errorSlot))

def fact (f : Machine → Bool) : Run Json := Run.look fun m => .bool (f m)

/-- The interpreter is allocated and set up. -/
def birth (place : InterpId) : Run (List Json) := do
  Run.change (·.allocInterp place)
  let allocated := stage "alloc" [← alive, ← fact (·.interp.phase = .destructing),
    ← fact (·.main = some place), ← fact (·.current.isSome)]
  Run.change (·.construct)
  return [allocated, stage "construct" [← alive, ← error]]

/-- The routine that a program's arguments can bring with them. -/
def routineName : String := "Boot::three"

def recordArguments (withRoutine : Bool) (arguments : List String) : Run (List Json) := do
  setArguments arguments
  if withRoutine then
    let v ← Library.installRoutine (some routineName) "raw_three" "raw.c"
    Run.change (·.release v.handle)
  let global (s : Sigil) (name : String) : Run Json := do view (← modifyGet (·.global s name))
  let defined (m : Machine) : Bool := ((m.global? .code routineName).map m.hasBody).getD false
  let live ← alive
  let program ← global .scalar "0"
  let rest ← global .array "ARGV"
  return [stage "parse" [count 0, live, program, rest, ← fact defined]]

/-- Evaluate source text, and give the results that are held. -/
def evaluate (e : Evaluation) : Run (Json × List Handle) := do
  if e.inScope then Run.change (·.enter.saveTemps)
  let base ← Run.look (·.height)
  let n ← Stock.library.calls.evaluate e.source e.want
  let results ← Run.look (·.top n)
  let shown ← views results
  let held := if e.hold then results else []
  Run.change fun m => held.foldl retain m
  unless e.leave do Run.change (·.truncate base)
  if e.inScope then Run.change (·.freeTemps.leave)
  return (stage "eval" [count n, shown, ← error, ← alive], held)

/-- The interpreter is torn down, what was held is given up, and the interpreter is freed. -/
def death (after : List String) (held : List Handle) : Run (List Json) := do
  Run.change (·.destruct)
  let m ← get
  let destroyed := stage "destruct" [count 0, ← alive, ← fact (·.interp.phase = .destructing),
    count m.height, bools (after.map fun name => (m.global? .scalar name).isSome)]
  Run.change (·.releaseAll held)
  let looked ← if after.isEmpty then pure [] else do pure [stage "errsv" [← error, ← alive]]
  let released := stage "released" [← alive]
  Run.change (·.freeInterp)
  let freed := stage "free" [← fact (·.current.isSome), ← fact (·.main.isSome)]
  return destroyed :: looked ++ [released, freed]

/-- The report on a life. -/
def report (l : Life) : Run Json := do
  let place := InterpId.first
  let first ← birth place
  let recorded ← match l.arguments with
    | some args => recordArguments l.withRoutine args
    | none => pure []
  let started ← if l.running then do
      Run.change (·.start)
      pure [stage "run" [count 0, ← alive]]
    else pure []
  if l.current then Run.change ({ · with current := some place })
  let evaluated ← l.evaluations.mapM evaluate
  match l.phoenix with
  | some name =>
    let h ← modifyGet (·.global .scalar name)
    Run.change (·.attach h ⟨Magic.extension, Stock.hooks "phoenix", 1⟩)
  | none => pure ()
  match l.destructLevel with
  | some n => Run.change (·.onInterp ({ · with destructLevel := n }))
  | none => pure ()
  let last ← death l.after (evaluated.flatMap (·.2))
  let stages := first ++ recorded ++ started ++ evaluated.map (·.1) ++ last
  return .object (("log", .list stages) :: events (← get))

end Life

end ValueMachine.Report

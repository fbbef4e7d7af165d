import ValueMachine.Host.Closure

/-! Native routines, which work on the argument stack themselves. Each takes its mark off. -/

namespace ValueMachine.Routine

open Machine

/-- Take the mark off. -/
def takeMark : Run Nat := do
  let mark ← Run.look (·.topMark)
  Run.change (·.dropMark)
  return mark

/-- Replace the arguments above a mark by new temporaries. -/
def answer (mark : Nat) (results : List Scalar) : Run Unit := do
  Run.change (·.truncate mark)
  results.forM fun s => Run.change fun m =>
    let (h, m) := m.allocMortal (.scalar s)
    m.push h

/-- Leave three numbers. -/
def three (_ : Reentry) (_ : Handle) : Run Unit := do
  answer (← takeMark) [.ofInt64 1, .ofInt64 2, .ofInt64 3]

/-- Raise an exception. -/
def dies (_ : Reentry) (_ : Handle) : Run Unit := do
  let _ ← takeMark
  raise (.said "boom\n")

/-- Leave the number of arguments, the bits of the context, and the sub's name. -/
def info (_ : Reentry) (sub : Handle) : Run Unit := do
  let mark ← takeMark
  let m ← get
  answer mark
    [.ofInt64 (Int64.ofNat (m.above mark).length), .ofInt64 (Int64.ofNat m.interp.want.bits),
      .ofText ((m.subName sub).getD "anon")]

/-- Assign through the first argument, and leave the arguments. -/
def assigns (_ : Reentry) (_ : Handle) : Run Unit := do
  let mark ← takeMark
  match (← Run.look (·.above mark)).head? with
  | some h => store h (.ofInt64 99)
  | none => pure ()

/-- Leave the arguments. -/
def identity (_ : Reentry) (_ : Handle) : Run Unit := do
  let _ ← takeMark

/-- Leave nothing. -/
def nothing (_ : Reentry) (_ : Handle) : Run Unit := do
  answer (← takeMark) []

/-- Give up. -/
def givesUp (_ : Reentry) (_ : Handle) : Run Unit := do
  let _ ← takeMark
  throw (.aborted (some "raw panic"))

/-- The routines by name. -/
def named : List (String × (Reentry → Handle → Run Unit)) :=
  [("raw_three", three), ("raw_dies", dies), ("raw_info", info), ("raw_alias", assigns),
    ("raw_id", identity), ("raw_none", nothing), ("raw_panics", givesUp)]

end ValueMachine.Routine

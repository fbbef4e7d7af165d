import ValueMachine.Proofs.Calls.Conversions
import ValueMachine.Host.Closure

/-! Closures in a plain manner: how their parameters are read, and what their results become. A
closure has a manner that its body has. -/

namespace ValueMachine.Manner.Drops

open Bridge Machine

variable {M : Manner}

theorem checkArity (hM : M.Drops) (args : Arguments) (arity : Nat) :
    Moves M (args.checkArity arity) :=
  .ite (hM.failure (by simp)) (.pure ())

theorem missing (hM : M.Drops) (position : Nat) (t : HostType) : Moves M (HostType.missing position t) := by
  cases t
  case option t => exact .pure none
  all_goals exact hM.failure (by simp)

theorem readArgument (hM : M.Drops) (args : Arguments) (t : HostType) (position : Nat) :
    Moves M (args.read t position) := by
  refine Moves.atArgument position ?_
  split
  next h _ => exact hM.read .copy t h
  next => exact hM.missing position t

theorem readAll (hM : M.Drops) (args : Arguments) :
    (ts : List HostType) → (position : Nat) → Moves M (args.readAll ts position)
  | [], _ => .pure ()
  | t :: ts, position =>
    (hM.readArgument args t position).bind fun _ =>
      ((hM.readAll args ts (position + 1)).guarding (hM.dropAll _)).bind fun _ => .pure _

theorem copiesOf (hM : M.Drops) : (hs : List Handle) → Run.Moves M (Arguments.copiesOf hs)
  | [] => .pure _
  | h :: rest =>
    (hM.holdCopy h).bind fun v =>
      ((hM.copiesOf rest).otherwise fun m => hM.drop m v).bind fun _ => .pure _

/-- A closure with typed parameters has the manner of its body. -/
theorem typed (hM : M.Drops) (hvalue : ∀ d : Datum, d.toValue.Moves M) {r : Reentry}
    (ts : List HostType) {body : Reentry → Parameters ts → Bridge (List Datum)}
    (hbody : ∀ vs, Moves M (body r vs)) (args : Arguments) :
    Moves M (Closure.typed ts body r args) := by
  refine (hM.checkArity args _).bind fun _ => (hM.readAll args ts 0).bind fun vs => ?_
  refine Moves.releasing ?_ (hM.dropAll _)
  exact (hbody vs).bind fun results => .ofRun (Run.Moves.mapM hvalue results)

/-- A closure of any number of arguments has the manner of its body. -/
theorem variadic (hM : M.Drops) {r : Reentry}
    {body : Reentry → List Held → Want → Bridge (List Held)}
    (hbody : ∀ vs want, Moves M (body r vs want)) (args : Arguments) :
    Moves M (Closure.variadic body r args) := by
  refine (Moves.ofRun (hM.copiesOf args.handles)).bind fun vs => ?_
  exact ((hbody vs args.want).releasing (hM.dropAll _)).bind fun results => .pure _

end ValueMachine.Manner.Drops

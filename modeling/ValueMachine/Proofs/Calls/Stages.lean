import ValueMachine.Proofs.Run
import ValueMachine.Host.Closure

/-! The stages of a call, one after the other: the sub is resolved, its body runs, what the body
leaves is settled, and around them a trap and the scope of the call are opened and closed. -/

namespace ValueMachine

namespace Machine

/-- Run the body of a sub on the arguments above a mark, with its context in force. -/
def enterSub (body : Entry → Handle → Run Unit) (mark : Nat) (want : Want) (entry : Entry)
    (sub : Handle) : Run Unit := do
  Run.change fun m => (m.onInterp fun i =>
    { i with marks := i.marks.push mark, contexts := i.contexts.push want }).retain sub
  (body entry sub).always fun m =>
    (m.onInterp fun i => { i with contexts := i.contexts.pop }).release sub

/-- Call a sub that has been resolved. -/
def callResolved (body : Entry → Handle → Run Unit) (mark : Nat) (flags : CallFlags)
    (sub : Handle) : Run Nat := do
  match (← Run.look (·.code? sub)).bind (·.entry) with
  | none => raise (.undefinedSub ((← Run.look (·.subName sub)).getD "__ANON__"))
  | some entry =>
    enterSub body mark flags.want entry sub
    modifyGet (·.settle mark flags.want)

theorem invoke_eq (body : Entry → Handle → Run Unit) (target : Handle) (mark : Nat)
    (flags : CallFlags) : invoke body target mark flags
      = (if flags.method then resolveMethod target mark else resolveSub target)
          >>= callResolved body mark flags := by
  rw [invoke]
  split <;> rfl

/-- A call from its mark on, trapped or not. -/
def callAt (body : Entry → Handle → Run Unit) (target : Handle) (flags : CallFlags) (mark : Nat) :
    Run Nat :=
  if flags.trap then trapped mark flags.want (invoke body target mark flags)
  else invoke body target mark flags

/-- A call from its mark on, in a scope of its own where its results are dropped. -/
def callScoped (body : Entry → Handle → Run Unit) (target : Handle) (flags : CallFlags)
    (mark : Nat) : Run Nat :=
  if flags.discard then do
    Run.change (·.enter.saveTemps)
    let _ ← callAt body target flags mark
    Run.change fun m => (m.truncate mark).freeTemps.leave
    return 0
  else callAt body target flags mark

theorem callWith_eq (body : Entry → Handle → Run Unit) (target : Handle) (flags : CallFlags) :
    callWith body target flags =
      if flags.noArguments then (do
        let mark ← Run.look (·.height)
        callScoped body target flags mark)
      else (do
        let mark ← Run.look (·.topMark)
        Run.change (·.dropMark)
        callScoped body target flags mark) := by
  obtain ⟨want, discard, trap, noArguments, method⟩ := flags
  cases discard <;> cases trap <;> cases noArguments <;> simp [callWith, callScoped, callAt]

/-- The end of a trap whose body has raised an exception. -/
def caught (frame : Frame) (want : Want) (m : Machine) : EStateM.Result Exit Machine Nat :=
  if want = .scalar then .ok 1 ((m.unwind frame).push m.interp.undefined)
  else .ok 0 (m.unwind frame)

/-- How a trap ends by how its body ends. -/
theorem trapped_apply (root : Nat) (want : Want) (body : Run Nat) (m : Machine) :
    trapped root want body m = match body (m.setError (.ofByteText ⟨[], false⟩)) with
      | .ok n m' => .ok n m'
      | .error .raised m' => caught (m.frame root) want m'
      | .error e m' => .error e m' := by
  simp only [trapped, Run.look_bind, Run.change_bind]
  rw [Run.bind_apply, Run.attempt]
  cases body (m.setError (.ofByteText ⟨[], false⟩)) with
  | ok n m' => rfl
  | error e m' =>
    cases e
    case raised =>
      simp only [Run.change_bind, caught]
      split <;> rfl
    all_goals rfl

end Machine

namespace Source

/-- Take the results of a call off the stack. -/
def takeResults (mark count : Nat) : Run (List Handle) := do
  let results ← Run.look (·.top count)
  Run.change (·.truncate mark)
  return results

theorem call_eq (r : Reentry) (name : String) (args : List Handle) (want : Want)
    (isMethod : Bool) : call r name args want isMethod = (do
      let mark ← Run.look (·.height)
      Run.change fun m => m.pushMark.pushAll args
      let count ← r.callName name { CallFlags.plain want with method := isMethod }
      takeResults mark count) := by
  cases isMethod <;> rfl

end Source

namespace Host

open Machine

/-- Pass the arguments of a call, if its target takes any, and start the target. -/
def start (r : Reentry) (target : Target) (args : List Datum) (want : Want) : Run Nat :=
  if target.takesArguments then do
    Run.change (·.pushMark)
    args.forM pass
    target.run r want
  else target.run r want

/-- What a call does in its scope: the target runs, and its results are collected. -/
def inScope (r : Reentry) (target : Target) (args : List Datum) (want : Want)
    (collect : List Handle → Bridge α) : Run (Except Failure α) := do
  let count ← start r target args want
  outcome count collect

/-- A call ends as what it does in its scope, which it closes if that returns. -/
theorem call_apply (r : Reentry) (target : Target) (args : List Datum) (want : Want)
    (collect : List Handle → Bridge α) (m : Machine) : (call r target args want collect).run m =
      match inScope r target args want collect m.enter.saveTemps with
      | .ok result m' => .ok result (m'.truncate m.height).freeTemps.leave
      | .error e m' => .error e m' := by
  have hcall : (call r target args want collect).run = (do
      Run.change (·.enter.saveTemps)
      let base ← Run.look (·.height)
      let result ← inScope r target args want collect
      Run.change fun m => (m.truncate base).freeTemps.leave
      return result) := by
    cases target <;> simp [call, inScope, start, Target.takesArguments, ExceptT.run, ExceptT.mk]
  rw [hcall, Run.change_bind, Run.look_bind, Run.bind_apply]
  cases inScope r target args want collect m.enter.saveTemps <;> rfl

end Host

namespace Library

open Machine

/-- What the end of a closure amounts to where its sub was called. -/
def concluded (name : String) (mark : Nat) : Except Exit (Except Failure (List Handle)) → Run Unit
  | .ok (.ok results) => putResults mark results
  | .ok (.error f) => raiseFailure name f
  | .error (.aborted message) =>
    raise (.said (name ++ " panicked: " ++ message.getD "unknown panic" ++ "\n"))
  | .error e => throw e

theorem enterClosure_apply (lib : Library) (r : Reentry) (sub : Handle) (m : Machine) :
    lib.enterClosure r sub m =
      (match lib.closure? m sub with
        | none => raise (.withoutBody (subName m sub))
        | some body =>
          (body r ⟨m.above m.topMark, m.interp.want⟩).run.attempt
            >>= concluded (subName m sub) m.topMark) m.dropMark := by
  show (match lib.closure? m sub with
    | none => _
    | some body => _ : Run Unit) m.dropMark = _
  cases lib.closure? m sub with
  | none => rfl
  | some body =>
    refine congrFun (bind_congr fun ended => ?_) _
    rcases ended with (_ | _ | _) | (_ | _) <;> rfl

end Library

end ValueMachine

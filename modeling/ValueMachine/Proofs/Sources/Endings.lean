import ValueMachine.Proofs.Custody.Calls
import ValueMachine.Proofs.Exceptions.Crossing
import ValueMachine.Proofs.Sources.Scanning
import ValueMachine.Proofs.Sources.Structure

/-! How the evaluation of a source text ends, whatever the text is. Its characters and tokens are
read to an end and not beyond it. What they mean comes to results, or to an exception that is
trapped, unless a sub or an initialiser that runs in between ends in another way. -/

namespace ValueMachine

open Machine

/-! ### The ways to stop -/

/-- A custody that asks nothing of the machine, and allows some ways to stop besides exceptions. -/
def Custody.stopping (S : Exit → Machine → Prop) : Custody where
  Holds _ _ := True
  Stops e m := e = .raised ∨ S e m

theorem Custody.stopping_lawful (S : Exit → Machine → Prop) : (Custody.stopping S).Lawful where
  mono _ _ := trivial
  raised _ := .inl rfl
  alloc _ _ := trivial
  set _ _ _ := trivial
  onInterp _ _ := trivial
  aside _ _ _ _ := trivial
  focus _ _ := trivial
  owned _ _ := trivial
  places _ := trivial

/-- An operation that stops in these ways only. -/
theorem Run.Honours.stopping {α : Type} {S : Exit → Machine → Prop} {held : List Handle}
    {o : α → List Handle} {x : Run α} (hx : ∀ {e m m'}, x m = .error e m' → S e m') :
    x.Honours (Custody.stopping S) held o := by
  intro m _
  cases hr : x m with
  | ok a m' => exact trivial
  | error e m' => exact ⟨.inr (hx hr), trivial⟩

theorem Run.Honours.error {α : Type} {S : Exit → Machine → Prop} {held : List Handle}
    {o : α → List Handle} {x : Run α} {e : Exit} {m m' : Machine}
    (hx : x.Honours (Custody.stopping S) held o) (hr : x m = .error e m') (he : e ≠ .raised) :
    S e m' := by
  have hend := hx m trivial
  rw [hr] at hend
  exact hend.1.resolve_left he

namespace Library

variable {lib : Library} {depth : Nat} {e : Exit} {m m' : Machine}

/-- The body of a sub or a step of an initialiser ends without a result. -/
def BodyStops (lib : Library) (depth : Nat) (e : Exit) : Prop :=
  (∃ entry sub m m', lib.run (lib.reentry depth) entry sub m = .error e m') ∨
  ∃ step m m', boot (lib.reentry depth) step m = .error e m'

/-- A call ends without a result only where the body of a sub does. -/
theorem bodyStops_of_call {target : Handle} {flags : CallFlags}
    (hr : (lib.reentry (depth + 1)).call target flags m = .error e m') (he : e ≠ .raised) :
    lib.BodyStops depth e := by
  have hC := Custody.stopping_lawful fun e _ => lib.BodyStops depth e
  refine Run.Honours.error (hC.callWith (fun entry {sub held} _ => ?_) (fun h => h)
    (List.mem_singleton_self target) flags) hr he
  exact Run.Honours.stopping fun hr => .inl ⟨entry, sub, _, _, hr⟩

theorem bodyStops_of_require {name : String}
    (hr : (lib.reentry (depth + 1)).require name m = .error e m') (he : e ≠ .raised) :
    lib.BodyStops depth e := by
  have hC := Custody.stopping_lawful fun e _ => lib.BodyStops depth e
  have hstep (step : BootStep) : (boot (lib.reentry depth) step).Honours
      (Custody.stopping fun e _ => lib.BodyStops depth e) [] noHandles :=
    Run.Honours.stopping fun hr => .inr ⟨step, _, _, hr⟩
  exact Run.Honours.error (hC.requireWith hstep name) hr he

end Library

namespace Source

variable {r : Reentry} {e : Exit} {m m' : Machine} {source : String} {want : Want}

/-- A call or the load of a module has ended so. -/
def Stopped (r : Reentry) (e : Exit) (m' : Machine) : Prop :=
  (∃ target flags m, r.call target flags m = .error e m') ∨ ∃ name m, r.require name m = .error e m'

/-- The results of a source text are stopped only by a call or by the load of a module. -/
theorem stopped_of_results {root : Nat} (hr : results r source root want m = .error e m')
    (he : e ≠ .raised) : Stopped r e m' := by
  have hC := Custody.stopping_lawful (Stopped r)
  have hserves : (Custody.stopping (Stopped r)).Serves r :=
    ⟨fun flags _ => Run.Honours.stopping fun hr => .inl ⟨_, flags, _, hr⟩,
      fun name => Run.Honours.stopping fun hr => .inr ⟨name, _, hr⟩⟩
  have hresults : (results r source root want).Honours (Custody.stopping (Stopped r)) [] noHandles := by
    refine Run.Honours.bind hC (hC.values hserves source want []) fun _ => ?_
    refine Run.Honours.andThen hC (Run.Honours.change fun _ => trivial) fun _ => ?_
    exact Run.Honours.modifyGet fun _ => trivial
  exact hresults.error hr he

end Source

/-! ### Results on the stack -/

/-- An operation leaves as many values on the stack as it counts. -/
def Run.Counted (x : Run Nat) : Prop := ∀ {m n m'}, x m = .ok n m' → n ≤ m'.height

namespace Machine

theorem length_top {m : Machine} {n : Nat} (hn : n ≤ m.height) : (m.top n).length = n := by
  have hheight : m.interp.stack.toList.length = m.height := Pile.length_toList _
  rw [top, above, Pile.above_eq_drop, List.length_drop, hheight]
  omega

theorem settle_le_height (m : Machine) (mark : Nat) (want : Want) :
    (m.settle mark want).1 ≤ (m.settle mark want).2.height := by
  cases want with
  | void => exact Nat.zero_le _
  | scalar =>
    show 1 ≤ ((m.truncate mark).push _).height
    rw [height_push]
    omega
  | list =>
    show (m.above mark).length ≤ m.height
    have hheight : m.interp.stack.toList.length = m.height := Pile.length_toList _
    rw [above, Pile.above_eq_drop, List.length_drop, hheight]
    omega

theorem caught_counted {frame : Frame} {want : Want} {m m' : Machine} {n : Nat}
    (hr : caught frame want m = .ok n m') : n ≤ m'.height := by
  unfold caught at hr
  split at hr
  · cases hr
    rw [height_push]
    omega
  · cases hr
    exact Nat.zero_le _

theorem trapped_counted {x : Run Nat} (hx : x.Counted) (root : Nat) (want : Want) :
    (trapped root want x).Counted := by
  intro m n m' hr
  rw [trapped_apply] at hr
  split at hr
  next hok =>
    cases hr
    exact hx hok
  next => exact caught_counted hr
  next => cases hr

theorem callResolved_counted (body : Entry → Handle → Run Unit) (mark : Nat) (flags : CallFlags)
    (sub : Handle) : (callResolved body mark flags sub).Counted := by
  intro m n m' hr
  rw [callResolved, Run.look_bind] at hr
  cases hentry : (m.code? sub).bind (·.entry) with
  | none => rw [hentry] at hr; cases hr
  | some entry =>
    rw [hentry] at hr
    obtain ⟨_, m₁, -, hsettle⟩ := Run.bind_ok hr
    cases hsettle
    exact settle_le_height m₁ mark flags.want

theorem callWith_counted (body : Entry → Handle → Run Unit) (target : Handle) (flags : CallFlags) :
    (callWith body target flags).Counted := by
  have hinvoke (mark : Nat) : (invoke body target mark flags).Counted := by
    intro m n m' hr
    rw [invoke_eq] at hr
    obtain ⟨sub, m₁, -, hsub⟩ := Run.bind_ok hr
    exact callResolved_counted body mark flags sub hsub
  have hat (mark : Nat) : (callAt body target flags mark).Counted := by
    unfold callAt
    split
    · exact trapped_counted (hinvoke mark) mark flags.want
    · exact hinvoke mark
  have hscoped (mark : Nat) : (callScoped body target flags mark).Counted := by
    unfold callScoped
    split
    · intro m n m' hr
      obtain ⟨_, m₁, -, hr⟩ := Run.bind_ok hr
      obtain ⟨_, m₂, -, hr⟩ := Run.bind_ok hr
      obtain ⟨_, m₃, -, hr⟩ := Run.bind_ok hr
      cases hr
      exact Nat.zero_le _
    · exact hat mark
  intro m n m' hr
  rw [callWith_eq] at hr
  split at hr
  · exact hscoped _ hr
  · exact hscoped _ hr

end Machine

theorem Source.results_counted (r : Reentry) (source : String) (root : Nat) (want : Want) :
    (Source.results r source root want).Counted := by
  intro m n m' hr
  obtain ⟨values, m₁, -, hr⟩ := Run.bind_ok hr
  cases hr
  exact settle_le_height _ root want

/-! ### Evaluation -/

namespace Source

/-- A text is read to its end and not beyond, its characters as well as its tokens. -/
structure Bounded (source : String) : Prop where
  /-- Every place that the reading of the tokens comes to is in the text. -/
  places : ∀ {rest}, Lexer.Comes source.toList rest → rest <:+ source.toList
  /-- The longest jump ahead inside a token, that of an escape. -/
  jumps : ∀ cs, (Lexer.hexEscape cs).2 ≤ cs.length + 1
  /-- The tokens do not depend on how many steps are allowed. -/
  tokens : ∀ {fuel}, source.length ≤ fuel →
    Lexer.tokensWithin fuel source.toList = Source.tokens source
  /-- Each part of the reader of expressions leaves an end of its tokens. -/
  leaves : ∀ fuel, Parser.Leaves fuel
  /-- No statement depends on how many steps are allowed. -/
  statements : ∀ {ts fuel}, 5 * ts.length + 5 ≤ fuel →
    Parser.statementWithin fuel ts = Parser.statement ts

theorem bounded (source : String) : Bounded source where
  places := Lexer.Comes.suffix
  jumps := Lexer.hexEscape_le
  tokens hfuel := Lexer.tokensWithin_eq (by rw [String.length_toList]; exact hfuel)
    (by rw [String.length_toList])
  leaves := Parser.leaves
  statements := Parser.statementWithin_eq

/-- The right end of an evaluation that starts in a machine. What it counts is on the stack: the
results of the text, or what a trap leaves of an exception. Otherwise a call or the load of a module
has been stopped. -/
def Concludes (r : Reentry) (source : String) (want : Want) (m : Machine) :
    EStateM.Result Exit Machine Nat → Prop
  | .ok n m' => (m'.top n).length = n ∧
      (results r source m.height want m.cleared = .ok n m' ∨
        ∃ m₁, results r source m.height want m.cleared = .error .raised m₁ ∧
          caught (m.frame m.height) want m₁ = .ok n m')
  | .error e m' => e ≠ .raised ∧ Stopped r e m'

theorem evaluate_concludes (r : Reentry) (source : String) (want : Want) (m : Machine) :
    Concludes r source want m (evaluate r source want m) := by
  have heval : evaluate r source want m
      = trapped m.height want (results r source m.height want) m := rfl
  rw [heval, trapped_apply]
  split
  next n m' hr => exact ⟨length_top (results_counted r source _ want hr), .inl hr⟩
  next m₁ hr =>
    show Concludes r source want m (caught (m.frame m.height) want m₁)
    cases hcaught : caught (m.frame m.height) want m₁ with
    | ok n m' => exact ⟨length_top (caught_counted hcaught), .inr ⟨m₁, hr, hcaught⟩⟩
    | error e m' =>
      unfold caught at hcaught
      split at hcaught <;> cases hcaught
  next e m' he hr => exact ⟨he, stopped_of_results hr he⟩

end Source

/-- The evaluation of any source text, in any context and any state: the text is read to an end, and
the evaluation yields results or traps an exception, and leaves on the stack what it counts. It ends
otherwise only where the body of a sub or a step of an initialiser does. What the calls in between
count is on the stack as well. -/
theorem Library.evaluation_concludes (lib : Library) (depth : Nat) (source : String) (want : Want)
    (m : Machine) :
    Source.Bounded source ∧
    Source.Concludes (lib.reentry (depth + 1)) source want m
      ((lib.reentry (depth + 2)).evaluate source want m) ∧
    (∀ {target flags m₁ n m₂}, (lib.reentry (depth + 1)).call target flags m₁ = .ok n m₂ →
      (m₂.top n).length = n) ∧
    ∀ {e m'}, Source.Stopped (lib.reentry (depth + 1)) e m' → e ≠ .raised → lib.BodyStops depth e := by
  refine ⟨Source.bounded source, Source.evaluate_concludes _ source want m, fun hr => ?_, ?_⟩
  · exact length_top (callWith_counted _ _ _ hr)
  · rintro e m' (⟨target, flags, m₁, hr⟩ | ⟨name, m₁, hr⟩) he
    · exact bodyStops_of_call hr he
    · exact bodyStops_of_require hr he

end ValueMachine

import ValueMachine.Proofs.Calls.Detached
import ValueMachine.Proofs.Calls.Disciplined

/-! Calls in a manner that looks neither into interpreters nor at the end of an operation. What a call
runs has the manner if the bodies of subs have it, at every nesting and across the boundary, and so
has the start of an interpreter with its modules. -/

namespace ValueMachine

open Machine

/-- A detached manner of all that happens to values, across the boundary and when modules boot. -/
structure Manner.Overall (M : Manner) : Prop extends M.Detached where
  claim : ∀ m i, M.returns m (m.claim i)
  attach : ∀ m h w, M.returns m (m.attach h ⟨Magic.extension, .bridge, w⟩)
  drop : ∀ m v, M.returns m (m.drop v)
  cross : ∀ {α : Type} (i : InterpId) {x : Run α}, x.Moves M → (onInterpreter i x).Moves M
  noteBoot : ∀ m name, M.returns m { m with log := { m.log with boots := m.log.boots ++ [name] } }

variable {M : Manner} {r : Reentry} {α : Type}

namespace Manner.Overall

open Run

theorem stores (hM : M.Overall) : M.Stores where
  toPlain := hM.plain
  store h _ hs := hM.stepwise.store h _ hs
  claim := hM.claim
  attach := hM.attach

theorem crosses (hM : M.Overall) : M.Crosses where
  toPlain := hM.plain
  fail m _ := hM.fails.2 (M.refl m)
  drop m v := hM.cleans.2 (hM.drop m v)
  cross := hM.cross

theorem dropAll (hM : M.Overall) (vs : List Held) (m : Machine) : M.returns m (m.dropAll vs) :=
  M.returns_of_cleans (hM.crosses.dropAll vs m)

/-- An operation across the boundary has the manner whether it fails or not. -/
theorem outcome (hM : M.Overall) {x : Bridge α} : x.Moves M ↔ Run.Moves M x.run := by
  refine forall_congr' fun m => ?_
  rcases x.run m with (_ | _) | _
  · exact hM.fails
  · rfl
  · rfl

theorem attempt (hM : M.Overall) {x : Run α} (hx : x.Moves M) : x.attempt.Moves M := by
  intro m
  have hend := hx m
  rw [Run.attempt]
  cases hr : x m with
  | ok a m' => rw [hr] at hend; exact hend
  | error e m' => rw [hr] at hend; exact hM.exits.1 hend

theorem settle (hM : M.Overall) (m : Machine) (mark : Nat) (want : Want) :
    M.returns m (m.settle mark want).2 := by
  cases want
  case list => exact M.refl m
  all_goals exact hM.ofInterp rfl

/-! ### Calls of subs -/

theorem trapped (hM : M.Overall) (root : Nat) (want : Want) {body : Run Nat}
    (hbody : body.Moves M) : (trapped root want body).Moves M := by
  refine (Moves.look _).bind fun frame => (Moves.change fun m => hM.setError m _).bind fun _ =>
    (hM.attempt hbody).bind fun ended => ?_
  rcases ended with (_ | _ | _) | count
  · refine (Moves.change fun m => hM.onInterp m _).bind fun _ => .ite ?_ (.pure 0)
    exact (Moves.change fun m => hM.onInterp m _).bind fun _ => .pure 1
  · exact hM.throws _
  · exact hM.throws _
  · exact .pure count

theorem invoke (hM : M.Overall) {body : Entry → Handle → Run Unit}
    (hbody : ∀ entry sub, (body entry sub).Moves M) (target : Handle) (mark : Nat)
    (flags : CallFlags) : (invoke body target mark flags).Moves M := by
  rw [invoke_eq]
  refine Moves.bind (.ite (hM.plain.resolveMethod target mark) (hM.plain.resolveSub target))
    fun sub => (Moves.look _).bind fun code => ?_
  cases code.bind (·.entry) with
  | none => exact (Moves.look _).bind fun _ => hM.raise _
  | some entry =>
    refine Moves.bind ?_ fun _ => Moves.modifyGet fun m => hM.settle m mark _
    refine (Moves.change fun m => M.trans (hM.onInterp m _) (hM.retain _ sub)).bind
      fun _ => (hbody entry sub).always fun m => ?_
    exact hM.cleans.2 (M.trans (hM.onInterp m _) (hM.releaseAll _ [sub]))

theorem callWith (hM : M.Overall) {body : Entry → Handle → Run Unit}
    (hbody : ∀ entry sub, (body entry sub).Moves M) (target : Handle) (flags : CallFlags) :
    (callWith body target flags).Moves M := by
  have hat (mark : Nat) : (callAt body target flags mark).Moves M :=
    .ite (hM.trapped mark _ (hM.invoke hbody target mark flags))
      (hM.invoke hbody target mark flags)
  have hscoped (mark : Nat) : (callScoped body target flags mark).Moves M := by
    refine .ite ?_ (hat mark)
    refine (Moves.change fun m => hM.ofInterp rfl).bind fun _ => (hat mark).bind fun _ =>
      (Moves.change fun m => ?_).bind fun _ => .pure 0
    exact M.trans (hM.onInterp m _) (M.trans (hM.freeTemps _) (hM.onInterp _ _))
  rw [callWith_eq]
  refine .ite ((Moves.look _).bind hscoped) ((Moves.look _).bind fun mark => ?_)
  exact (Moves.change fun m => hM.onInterp m _).bind fun _ => hscoped mark

end Manner.Overall

/-- What running bodies start has a manner. -/
structure Reentry.Moves (M : Manner) (r : Reentry) : Prop where
  call : ∀ target flags, (r.call target flags).Moves M
  evaluate : ∀ source want, (r.evaluate source want).Moves M
  require : ∀ name, (r.require name).Moves M

namespace Manner.Overall

open Run

theorem callName (hM : M.Overall) (hr : r.Moves M) (name : String) (flags : CallFlags) :
    (r.callName name flags).Moves M :=
  (Moves.modifyGet fun m => hM.allocMortal m (by simp)).bind fun target => hr.call target flags

theorem sourceCall (hM : M.Overall) (hr : r.Moves M) (name : String) (args : List Handle)
    (want : Want) (isMethod : Bool) : (Source.call r name args want isMethod).Moves M := by
  rw [Source.call_eq]
  exact (Moves.look _).bind fun mark => (Moves.change fun m => hM.ofInterp rfl).bind fun _ =>
    (hM.callName hr name _).bind fun count => (Moves.look _).bind fun results =>
      (Moves.change fun m => hM.onInterp m _).bind fun _ => .pure results

theorem evaluates (hM : M.Overall) (hr : r.Moves M) : M.Evaluates (fun _ => True) r where
  toPlain := hM.plain
  assign _ h _ := hM.assign _ h _
  clear _ _ := hM.stepwise.store _ _ (by simp) _
  raiseReference _ := hM.raiseValue _ _
  call := hM.sourceCall hr
  require := hr.require

theorem evaluate (hM : M.Overall) (hr : r.Moves M) (source : String) (want : Want) :
    (Source.evaluate r source want).Moves M := by
  refine (Moves.look _).bind fun root => hM.trapped root want ?_
  refine ((hM.evaluates hr).values (Source.assignsOnly_true source) want).bind fun results => ?_
  exact (Moves.change fun m => hM.onInterp m _).bind fun _ =>
    .modifyGet fun m => hM.settle m root want

/-! ### Calls from host code -/

/-- A call from host code has the manner, whatever it invokes and however it collects results. -/
theorem hostCall (hM : M.Overall) (hr : r.Moves M) (target : Target) (args : List Datum)
    (want : Want) {collect : List Handle → Bridge α} (hc : ∀ hs, (collect hs).Moves M) :
    (Host.call r target args want collect).Moves M := by
  have hpass (d : Datum) : (Host.pass d).Moves M :=
    (hM.stores.gives.toArgument d).bind fun h => .change fun m => hM.ofInterp rfl
  have hrun : (target.run r want).Moves M := by
    cases target with
    | sub h => exact hr.call h _
    | name n => exact hM.callName hr n _
    | method n => exact hM.callName hr n _
    | source text => exact hr.evaluate text want
  have hstart : (Host.start r target args want).Moves M :=
    .ite ((Moves.change fun m => hM.onInterp m _).bind fun _ =>
      (Moves.forM hpass args).bind fun _ => hrun) hrun
  have houtcome (count : Nat) : (Host.outcome count collect).Moves M := by
    refine (Moves.modifyGet hM.errorSlot).bind fun slot =>
      (hM.plain.truth slot).bind fun t => .ite ?_ ?_
    · exact (hM.crosses.holdCopy slot).bind fun v => .pure _
    · exact (Moves.look _).bind fun hs => hM.outcome.1 (hc hs)
  refine hM.outcome.2 fun m => ?_
  have hopen : M.returns m m.enter.saveTemps := hM.ofInterp rfl
  have hscope := M.ends_of_returns hopen ((hstart.bind houtcome) m.enter.saveTemps)
  rw [Host.call_apply, Host.inScope]
  cases hs : (Host.start r target args want >>= fun n => Host.outcome n collect) m.enter.saveTemps
    with
  | error e m₁ => rw [hs] at hscope; exact hscope
  | ok result m₁ =>
    rw [hs] at hscope
    refine M.trans hscope ?_
    exact M.trans (hM.onInterp m₁ _) (M.trans (hM.freeTemps _) (hM.onInterp _ _))

end Manner.Overall

/-! ### Libraries -/

/-- The bodies of a library have a manner, if what they start has it. -/
structure Library.Moves (M : Manner) (lib : Library) : Prop where
  routines : ∀ {name body}, lib.routines name = some body → ∀ r : Reentry, r.Moves M →
    ∀ sub, (body r sub).Moves M
  closures : ∀ {name closure}, lib.closures name = some closure → ∀ r : Reentry, r.Moves M →
    ∀ args, (closure r args).Moves M

namespace Manner.Overall

open Run

variable {lib : Library}

theorem raiseFailure (hM : M.Overall) (name : String) (f : Failure) :
    (Library.raiseFailure name f).Moves M := by
  have hdrop (m : Machine) : M.cleans m (m.dropAll f.held) := hM.cleans.2 (hM.dropAll f.held m)
  have htell : (do
      let message ← f.message.otherwise (·.dropAll f.held)
      (ValueMachine.raise (.said (Failure.trimLines (name ++ ": " ++ message) ++ "\n")) :
        Run Unit).otherwise (·.dropAll f.held)).Moves M :=
    ((hM.crosses.message f).otherwise hdrop).bind fun _ => (hM.raise _).otherwise hdrop
  cases f
  case died v =>
    exact (Moves.change fun m => hM.onInterp m _).bind fun _ => hM.raiseValue v.handle
  all_goals exact htell

theorem enterClosure (hM : M.Overall) (hlib : lib.Moves M) (hr : r.Moves M) (sub : Handle) :
    (lib.enterClosure r sub).Moves M := by
  intro m
  have hdrop : M.returns m m.dropMark := hM.onInterp m _
  rw [Library.enterClosure_apply]
  refine M.ends_of_returns hdrop ?_
  cases hc : lib.closure? m sub with
  | none => exact hM.raise _ _
  | some closure =>
    obtain ⟨name, hname⟩ : ∃ name, lib.closures name = some closure := by
      unfold Library.closure? at hc
      split at hc
      next name _ _ => exact ⟨name, hc⟩
      next => cases hc
    have hclosure := hM.outcome.1 (hlib.closures hname r hr ⟨m.above m.topMark, m.interp.want⟩)
    refine Moves.bind (hM.attempt hclosure) (fun ended => ?_) _
    rcases ended with (_ | _ | _) | f | results
    · exact hM.throws _
    · exact hM.raise _
    · exact hM.throws _
    · exact hM.raiseFailure _ f
    · exact (Moves.change fun m => hM.onInterp m _).bind fun _ =>
        .forM (fun h => .change fun m => hM.ofInterp rfl) results

theorem run (hM : M.Overall) (hlib : lib.Moves M) (hr : r.Moves M) (entry : Entry) (sub : Handle) :
    (lib.run r entry sub).Moves M := by
  cases entry with
  | closure => exact hM.enterClosure hlib hr sub
  | routine name =>
    simp only [Library.run]
    cases hb : lib.routines name with
    | none => exact .change fun m => hM.onInterp m _
    | some body => exact hlib.routines hb r hr sub

theorem boot (hM : M.Overall) (hr : r.Moves M) (step : BootStep) :
    (Library.boot r step).Moves M := by
  cases step with
  | define name closure =>
    refine ((Moves.modifyGet fun m => hM.newSub m _ _ _ _).bind fun sub => hM.crosses.hold sub).bind
      fun v => .change fun m => hM.drop m v
  | fail message => exact hM.raise _
  | require name => exact hr.require name
  | evaluate source =>
    have hcall : (Host.callVoid r (.source source) []).Moves M :=
      hM.hostCall hr (.source source) [] .void fun _ => .pure ()
    refine Moves.bind (hM.outcome.1 hcall) fun ended => ?_
    cases ended with
    | ok u => exact .pure u
    | error f => exact .change (hM.dropAll f.held)

theorem requireWith (hM : M.Overall) {boot : BootStep → Run Unit} (hboot : ∀ s, (boot s).Moves M)
    (name : String) : (requireWith boot name).Moves M := by
  unfold Machine.requireWith
  refine (Moves.look _).bind fun i => .ite (.pure ()) ?_
  split
  next module _ =>
    exact (Moves.change fun m => hM.noteBoot m name).bind fun _ =>
      (Moves.forM hboot module.steps).bind fun _ => .change fun m => hM.onInterp m _
  next => exact hM.raise _

/-- What running code can start has the manner at every nesting. -/
theorem reentry (hM : M.Overall) (hlib : lib.Moves M) (depth : Nat) :
    (lib.reentry depth).Moves M := by
  induction depth with
  | zero => exact ⟨fun _ _ => hM.throws _, fun _ _ => hM.throws _, fun _ => hM.throws _⟩
  | succ depth ih =>
    exact {
      call := hM.callWith (hM.run hlib ih)
      evaluate := hM.evaluate ih
      require := hM.requireWith (hM.boot ih) }

end Manner.Overall

/-! ### A library whose bodies have the manner -/

namespace Manner.Overall

open Run

/-- The native routines have the manner. -/
theorem named (hM : M.Overall) {name : String} {body : Reentry → Handle → Run Unit}
    (hb : Routine.named.lookup name = some body) (r : Reentry) (sub : Handle) :
    (body r sub).Moves M :=
  hM.stores.routine (fun m => hM.onInterp m _) (fun m _ => hM.onInterp m _)
    (fun m _ => hM.onInterp m _) hb r sub

/-- The closure that evaluates a text and passes its failure on. -/
theorem relay (hM : M.Overall) (hr : r.Moves M) (args : Arguments) :
    (Closure.relay r args).Moves M :=
  Closure.moves_relay hM.crosses.toDrops hM.stores.gives.toValue
    (fun text => hM.hostCall hr (.source text) [] .scalar (hM.crosses.collectScalar .string)) args

/-- The closure that evaluates a text and says whether that has failed. -/
theorem rescue (hM : M.Overall) (hr : r.Moves M) (args : Arguments) :
    (Closure.rescue r args).Moves M :=
  Closure.moves_rescue hM.crosses.toDrops hM.stores.gives.toValue (fun text => hM.outcome.1
    (hM.hostCall hr (.source text) [] .void Manner.Drops.collectNothing)) args

theorem relays (hM : M.Overall) : Library.relays.Moves M where
  routines hb r _ sub := hM.named hb r sub
  closures hc r hr args := by
    rcases Library.closures_relays hc with rfl | rfl
    · exact hM.relay hr args
    · exact hM.rescue hr args

end Manner.Overall

end ValueMachine

import ValueMachine.Proofs.Calls.Nesting
import ValueMachine.Proofs.Calls.Overall

/-! Calls that are properly nested. A trap and the scope of a call are closed by what returns, and so the
calls of subs, the evaluation of source text and calls from host code are properly nested where the
bodies of subs are. In whole runs of this kind the floors are in order. -/

namespace ValueMachine

open Machine Opening Course

variable {m m' m₁ : Machine} {r : Reentry} {α : Type}

namespace Manner

/-! ### Operations that call nothing -/

theorem settled_stepwise : settled.Stepwise where
  alloc := steady_stepwise.alloc
  retain := steady_stepwise.retain
  releaseAll := steady_stepwise.releaseAll
  replaceScalar := steady_stepwise.replaceScalar
  noteAccess := steady_stepwise.noteAccess
  tick := steady_stepwise.tick
  raise m f := steady_setErrorText m f.message
  mortal := steady_stepwise.mortal
  global := steady_stepwise.global
  setArray := steady_stepwise.setArray
  setHash := steady_stepwise.setHash
  name := steady_stepwise.name

theorem settled_crosses : settled.Crosses where
  toPlain := settled_stepwise.plain
  fail m _ := settled.refl m
  drop := steady_drop
  cross {α} i x hx m := by
    have hend := hx (m.focus i)
    simp only [onInterpreter, Run.look_bind, Run.change_bind, Run.always_apply]
    cases hr : x (m.focus i) with
    | ok a m₁ =>
      rw [hr] at hend
      exact Everywhere.focus i hend
    | error e m₁ =>
      rw [hr] at hend
      exact Everywhere.focus i hend

theorem nested_of_settled {x : Run α} (hx : x.Moves settled) : x.Moves nested := by
  intro m
  have h := hx m
  cases hr : x m with
  | ok a m' => rw [hr] at h; exact nested_of_steady h
  | error e m' => rw [hr] at h; exact fun o => ⟨[], nested_of_steady h o⟩

theorem nested_raise (f : Fault) : (ValueMachine.raise f : Run α).Moves nested :=
  nested_of_settled fun m => steady_setErrorText m f.message

theorem nested_assign (dst src : Handle) : (Machine.assign dst src).Moves nested :=
  nested_of_settled (settled_stepwise.assign dst src)

theorem nested_stores : nested.Stores where
  alloc m _ h := nested_of_steady (steady_plain.alloc m h)
  newCopy h := nested_of_settled (settled_crosses.newCopy h)
  retain m h := nested_of_steady (steady_plain.retain m h)
  mortal m h := nested_of_steady (steady_plain.mortal m h)
  global m s name := nested_of_steady (steady_plain.global m s name)
  setArray ys h := nested_of_steady (steady_plain.setArray ys h)
  setHash u h := nested_of_steady (steady_plain.setHash u h)
  name m h c := nested_of_steady (steady_plain.name m h c)
  release m h := nested_of_steady (steady_plain.release m h)
  raise m f _ := nested_raise (α := Unit) f m
  readHooks h := nested_of_settled (settled_crosses.readHooks h)
  store h _ hs := nested_of_settled (settled_stepwise.store h _ hs)
  claim m i := nested_of_steady (steady_stores.claim m i)
  attach m h w := nested_of_steady (steady_stores.attach m h w)

theorem nested_drops : nested.Drops where
  toPlain := nested_stores.toPlain
  fail m _ := nested.refl m
  drop m v := nested_of_steady (steady_drop m v)

theorem nested_raiseValue (h : Handle) : (raiseValue h : Run α).Moves nested :=
  (Run.Moves.modifyGet fun m => nested_of_still (Still.errorSlot m)).bind fun slot =>
    (nested_assign slot h).bind fun _ => nested_throws .raised

theorem nested_message (f : Failure) : f.message.Moves nested :=
  nested_of_settled (settled_crosses.message f)

/-- An operation across the boundary is properly nested whether it fails or not. -/
theorem nested_outcome {x : Bridge α} : x.Moves nested ↔ Run.Moves nested x.run := by
  refine forall_congr' fun m => ?_
  rcases x.run m with (_ | _) | _ <;> rfl

theorem nested_dropMark (m : Machine) : nested.returns m m.dropMark := nested_work rfl rfl rfl rfl

theorem nested_truncate (m : Machine) (n : Nat) : nested.returns m (m.truncate n) :=
  nested_work rfl rfl rfl rfl

theorem nested_push (m : Machine) (h : Handle) : nested.returns m (m.push h) :=
  nested_work rfl rfl rfl rfl

theorem nested_settle (m : Machine) (mark : Nat) (want : Want) :
    nested.returns m (m.settle mark want).2 := by
  cases want with
  | void => exact nested_truncate m mark
  | scalar => exact nested.trans (nested_truncate m mark) (nested_push _ _)
  | list => exact nested.refl m

/-! ### Scopes and traps -/

/-- What exits leaves open what was opened before it. -/
theorem nested_exits_opened {e : Exit} {opening : Opening}
    (hopen : ∀ o, Steps ⟨m, o⟩ ⟨m₁, opening :: o⟩) (h : nested.exits e m₁ m') :
    nested.exits e m m' := by
  intro o
  obtain ⟨inner, hinner⟩ := h (opening :: o)
  refine ⟨inner ++ [opening], (hopen o).trans ?_⟩
  rw [List.append_assoc]
  exact hinner

theorem steps_opened (m : Machine) (o : List Opening) :
    Steps ⟨m, o⟩ ⟨m.enter.saveTemps, scope (some m.interp.temps.toList) :: o⟩ :=
  .tail (.single (.enter m o)) (.saveTemps m.enter o)

/-- The scope of a call is closed when what runs in it returns. -/
theorem nested_scope (h : nested.returns m.enter.saveTemps m₁) (mark : Nat) :
    nested.returns m (m₁.truncate mark).freeTemps.leave := by
  intro o
  have hclose : Steps ⟨m₁, scope (some m.interp.temps.toList) :: o⟩
      ⟨(m₁.truncate mark).freeTemps.leave, o⟩ :=
    (nested_truncate m₁ mark _).trans ((steps_freeTemps _ _).tail (.leave _ _ o))
  exact (steps_opened m o).trans ((h _).trans hclose)

/-- A trap catches what has been opened in it. -/
theorem nested_trapped (root : Nat) (want : Want) {body : Run Nat} (hbody : body.Moves nested) :
    (trapped root want body).Moves nested := by
  intro m
  have htrap (o : List Opening) : Steps ⟨m, o⟩
      ⟨m.setError (.ofByteText ⟨[], false⟩), trap (m.frame root) :: o⟩ :=
    .head (.trap m o root) (nested_of_still (Still.setError m _) _)
  have hend := hbody (m.setError (.ofByteText ⟨[], false⟩))
  rw [trapped_apply]
  cases hr : body (m.setError (.ofByteText ⟨[], false⟩)) with
  | ok n m₁ =>
    rw [hr] at hend
    exact fun o => (htrap o).trans ((hend _).tail (.complete m₁ _ o))
  | error e m₁ =>
    rw [hr] at hend
    cases e
    case raised =>
      have hunwound : nested.returns m (m₁.unwind (m.frame root)) := by
        intro o
        obtain ⟨inner, hinner⟩ := hend (trap (m.frame root) :: o)
        exact (htrap o).trans (hinner.tail (.unwind m₁ inner _ o))
      simp only [caught]
      split
      · exact nested.trans hunwound (nested_push _ _)
      · exact hunwound
    all_goals exact nested_exits_opened htrap hend

/-! ### Calls of subs -/

section

open Run

variable {body : Entry → Handle → Run Unit}

theorem nested_invoke (hbody : ∀ entry sub, (body entry sub).Moves nested) (target : Handle)
    (mark : Nat) (flags : CallFlags) : (invoke body target mark flags).Moves nested := by
  have hentered (m : Machine) : nested.returns m (m.onInterp fun i => { i with
      marks := i.marks.push mark, contexts := i.contexts.push flags.want }) :=
    nested_work rfl rfl rfl rfl
  have hended (m : Machine) : nested.returns m
      (m.onInterp fun i => { i with contexts := i.contexts.pop }) := nested_work rfl rfl rfl rfl
  rw [invoke_eq]
  refine Moves.bind (.ite (nested_stores.resolveMethod target mark) (nested_stores.resolveSub target))
    fun sub => (Moves.look _).bind fun code => ?_
  cases code.bind (·.entry) with
  | none => exact (Moves.look _).bind fun _ => nested_raise _
  | some entry =>
    refine Moves.bind ?_ fun _ => Moves.modifyGet fun m => nested_settle m mark _
    refine (Moves.change fun m => nested.trans (hentered m) (nested_of_still (Still.retain _ sub))).bind
      fun _ => (hbody entry sub).always fun m => ?_
    exact nested.trans (hended m) (nested_of_still (Still.release _ sub))

theorem nested_callWith (hbody : ∀ entry sub, (body entry sub).Moves nested) (target : Handle)
    (flags : CallFlags) : (callWith body target flags).Moves nested := by
  have hat (mark : Nat) : (callAt body target flags mark).Moves nested :=
    .ite (nested_trapped mark _ (nested_invoke hbody target mark flags))
      (nested_invoke hbody target mark flags)
  have hscoped (mark : Nat) : (callScoped body target flags mark).Moves nested := by
    refine .ite (fun m => ?_) (hat mark)
    have hend := hat mark m.enter.saveTemps
    rw [Run.change_bind, Run.bind_apply]
    cases hr : callAt body target flags mark m.enter.saveTemps with
    | ok n m₁ => rw [hr] at hend; exact nested_scope hend mark
    | error e m₁ => rw [hr] at hend; exact nested_exits_opened (steps_opened m) hend
  rw [callWith_eq]
  refine .ite ((Moves.look _).bind hscoped) ((Moves.look _).bind fun mark => ?_)
  exact (Moves.change nested_dropMark).bind fun _ => hscoped mark

end

end Manner

/-! ### Source text and calls from host code -/

namespace Reentry.Moves

open Run Manner

variable (hr : r.Moves nested)

include hr

theorem nested_callName (name : String) (flags : CallFlags) :
    (r.callName name flags).Moves nested :=
  (Moves.modifyGet fun m => nested.trans (nested_of_steady (steady_alloc m _))
    (nested_stores.mortal _ _)).bind fun target => hr.call target flags

theorem nested_sourceCall (name : String) (args : List Handle) (want : Want) (isMethod : Bool) :
    (Source.call r name args want isMethod).Moves nested := by
  have hpushed (m : Machine) : nested.returns m (m.pushMark.pushAll args) :=
    nested_work rfl rfl rfl rfl
  rw [Source.call_eq]
  exact (Moves.look _).bind fun mark => (Moves.change hpushed).bind fun _ =>
    (hr.nested_callName name _).bind fun count => (Moves.look _).bind fun results =>
      (Moves.change fun m => nested_truncate m _).bind fun _ => .pure results

theorem nested_evaluates : nested.Evaluates (fun _ => True) r where
  toPlain := nested_stores.toPlain
  assign _ h _ := nested_assign _ h _
  clear _ _ := nested_stores.store _ (by simp) _
  raiseReference _ := nested_raiseValue _ _
  call := hr.nested_sourceCall
  require := hr.require

theorem nested_evaluate (source : String) (want : Want) :
    (Source.evaluate r source want).Moves nested := by
  have hpushed (results : List Handle) (m : Machine) : nested.returns m (m.pushAll results) :=
    nested_work rfl rfl rfl rfl
  refine (Moves.look _).bind fun root => nested_trapped root want ?_
  refine (hr.nested_evaluates.values (Source.assignsOnly_true source) want).bind fun results => ?_
  exact (Moves.change (hpushed results)).bind fun _ => .modifyGet fun m => nested_settle m root want

/-- A call from host code is properly nested if the collecting of its results is. -/
theorem nested_hostCall (target : Target) (args : List Datum) (want : Want)
    {collect : List Handle → Bridge α} (hc : ∀ hs, (collect hs).Moves nested) :
    (Host.call r target args want collect).Moves nested := by
  have hmarked (m : Machine) : nested.returns m m.pushMark := nested_work rfl rfl rfl rfl
  have hpass (d : Datum) : (Host.pass d).Moves nested :=
    (nested_stores.gives.toArgument d).bind fun h => .change fun m =>
      nested.trans (nested_stores.mortal m h) (nested_push _ h)
  have hrun : (target.run r want).Moves nested := by
    cases target with
    | sub h => exact hr.call h _
    | name n => exact hr.nested_callName n _
    | method n => exact hr.nested_callName n _
    | source text => exact hr.evaluate text want
  have hstart : (Host.start r target args want).Moves nested :=
    .ite ((Moves.change hmarked).bind fun _ => (Moves.forM hpass args).bind fun _ => hrun) hrun
  have houtcome (count : Nat) : (Host.outcome count collect).Moves nested := by
    refine (Moves.modifyGet fun m => nested_of_still (Still.errorSlot m)).bind fun slot =>
      (nested_stores.truth slot).bind fun t => .ite ?_ ?_
    · exact (nested_drops.holdCopy slot).bind fun v => .pure _
    · exact (Moves.look _).bind fun hs => nested_outcome.1 (hc hs)
  refine nested_outcome.2 fun m => ?_
  have hscope := (hstart.bind houtcome) m.enter.saveTemps
  rw [Host.call_apply, Host.inScope]
  cases hs : (Host.start r target args want >>= fun n => Host.outcome n collect) m.enter.saveTemps
    with
  | error e m₁ => rw [hs] at hscope; exact nested_exits_opened (steps_opened m) hscope
  | ok result m₁ => rw [hs] at hscope; exact nested_scope hscope m.height

end Reentry.Moves

/-! ### Libraries -/

namespace Library

open Run Manner

variable {lib : Library}

theorem nested_raiseFailure (name : String) (f : Failure) : (raiseFailure name f).Moves nested := by
  have hdrop (m : Machine) : nested.cleans m (m.dropAll f.held) := nested_drops.dropAll f.held m
  have htell : (do
      let message ← f.message.otherwise (·.dropAll f.held)
      (raise (.said (Failure.trimLines (name ++ ": " ++ message) ++ "\n")) : Run Unit).otherwise
        (·.dropAll f.held)).Moves nested :=
    ((nested_message f).otherwise hdrop).bind fun _ => (nested_raise _).otherwise hdrop
  cases f
  case died v =>
    exact (Moves.change fun m => nested_stores.mortal m v.handle).bind fun _ =>
      nested_raiseValue v.handle
  all_goals exact htell

/-- The end of a closure is properly nested, whether the closure has returned, failed or exited. -/
theorem nested_concluded (name : String) (mark : Nat)
    (ended : Except Exit (Except Failure (List Handle))) : (concluded name mark ended).Moves nested := by
  rcases ended with (_ | _ | _) | f | results
  · exact nested_throws _
  · exact nested_raise _
  · exact nested_throws _
  · exact nested_raiseFailure _ f
  · exact (Moves.change fun m => nested_truncate m mark).bind fun _ =>
      .forM (fun h => .change fun m => nested.trans (nested_stores.mortal m h) (nested_push _ h)) results

theorem nested_enterClosure (hlib : lib.Moves nested) (hr : r.Moves nested) (sub : Handle) :
    (lib.enterClosure r sub).Moves nested := by
  intro m
  rw [enterClosure_apply]
  refine nested.ends_of_returns (nested_dropMark m) ?_
  cases hc : lib.closure? m sub with
  | none => exact nested_raise _ _
  | some closure =>
    obtain ⟨name, hname⟩ := exists_closures hc
    have hclosure := nested_outcome.1 (hlib.closures hname r hr ⟨m.above m.topMark, m.interp.want⟩)
    have hend := hclosure m.dropMark
    show nested.Ends m.dropMark ((_ >>= concluded (subName m sub) m.topMark) m.dropMark)
    rw [Run.bind_apply, Run.attempt]
    cases hrun : (closure r ⟨m.above m.topMark, m.interp.want⟩).run m.dropMark with
    | ok ended m₁ =>
      rw [hrun] at hend
      exact nested.ends_of_returns hend (nested_concluded _ _ _ m₁)
    | error e m₁ =>
      -- What a closure that exits has opened is left open to the trap that catches its exception.
      rw [hrun] at hend
      cases e with
      | aborted message =>
        exact nested.exits_cleans hend (nested_of_steady (steady_setErrorText m₁ _))
      | raised | exhausted => exact hend

theorem nested_run (hlib : lib.Moves nested) (hr : r.Moves nested) (entry : Entry) (sub : Handle) :
    (lib.run r entry sub).Moves nested := by
  cases entry with
  | closure => exact nested_enterClosure hlib hr sub
  | routine name =>
    simp only [Library.run]
    cases hb : lib.routines name with
    | none => exact .change nested_dropMark
    | some body => exact hlib.routines hb r hr sub

theorem nested_boot (hr : r.Moves nested) (step : BootStep) : (boot r step).Moves nested := by
  cases step with
  | define name closure =>
    exact ((Moves.modifyGet fun m => nested_of_still (Still.newSub m _ _ _ _)).bind
      fun sub => nested_drops.hold sub).bind fun v => .change fun m => nested_drops.drop m v
  | fail message => exact nested_raise _
  | require name => exact hr.require name
  | evaluate source =>
    have hcall : (Host.callVoid r (.source source) []).Moves nested :=
      hr.nested_hostCall (.source source) [] .void fun _ => .pure ()
    refine Moves.bind (nested_outcome.1 hcall) fun ended => ?_
    cases ended with
    | ok u => exact .pure u
    | error f => exact .change fun m => nested_drops.dropAll f.held m

theorem nested_requireWith {step : BootStep → Run Unit} (hstep : ∀ s, (step s).Moves nested)
    (name : String) : (requireWith step name).Moves nested := by
  unfold requireWith
  refine (Moves.look _).bind fun i => .ite (.pure ()) ?_
  split
  next module _ =>
    refine (Moves.change fun m => ?_).bind fun _ =>
      (Moves.forM hstep module.steps).bind fun _ => .change fun m => ?_
    all_goals exact nested_of_still ⟨rfl, rfl, rfl⟩
  next => exact nested_raise _

/-- What running code can start is properly nested at every depth. -/
theorem nested_reentry (hlib : lib.Moves nested) (depth : Nat) : (lib.reentry depth).Moves nested := by
  induction depth with
  | zero => exact ⟨fun _ _ => nested_throws _, fun _ _ => nested_throws _, fun _ => nested_throws _⟩
  | succ depth ih =>
    exact {
      call := nested_callWith (nested_run hlib ih)
      evaluate := ih.nested_evaluate
      require := nested_requireWith (nested_boot ih) }

/-! ### A library whose bodies are properly nested -/

theorem nested_relay (hr : r.Moves nested) (args : Arguments) :
    (Closure.relay r args).Moves nested :=
  Closure.moves_relay nested_drops nested_stores.gives.toValue (fun text =>
    hr.nested_hostCall (.source text) [] .scalar (nested_drops.collectScalar .string)) args

theorem nested_rescue (hr : r.Moves nested) (args : Arguments) :
    (Closure.rescue r args).Moves nested :=
  Closure.moves_rescue nested_drops nested_stores.gives.toValue (fun text => nested_outcome.1
    (hr.nested_hostCall (.source text) [] .void Manner.Drops.collectNothing)) args

theorem nested_relays : Library.relays.Moves nested where
  routines hb r _ sub :=
    nested_stores.routine nested_dropMark nested_truncate nested_push hb r sub
  closures hc r hr args := by
    rcases closures_relays hc with rfl | rfl
    · exact nested_relay hr args
    · exact nested_rescue hr args

/-- A call from host code has closed what it opened when it returns, and what an exit leaves open
stands before what was open at its start. -/
theorem hostCall_steps (hlib : lib.Moves nested) (depth : Nat) (target : Target) (args : List Datum)
    (want : Want) {collect : List Handle → Bridge α} (hc : ∀ hs, (collect hs).Moves nested)
    (m : Machine) (o : List Opening) :
    match (Host.call (lib.reentry depth) target args want collect).run m with
    | .ok _ m' => Steps ⟨m, o⟩ ⟨m', o⟩
    | .error _ m' => ∃ inner, Steps ⟨m, o⟩ ⟨m', inner ++ o⟩ := by
  have hcall := (nested_reentry hlib depth).nested_hostCall target args want hc
  have hend := nested_outcome.1 hcall m
  cases hr : (Host.call (lib.reentry depth) target args want collect).run m with
  | ok result m' =>
    rw [hr] at hend
    exact hend o
  | error e m' =>
    rw [hr] at hend
    exact hend o

end Library

/-! ### Whole runs -/

namespace Course

variable {m₀ : Machine} {o : List Opening}

/-- Scopes and traps that are properly nested keep the floors in order, from whatever machine that has
them in order. What has come since the floor was raised is freed, the newest first, and nothing older,
also by a freeing that takes one temporary after the other. The end of a scope restores the floor that
was in force before it, and so does the unwinding to a trap. Calls from host code run in this way, if
the bodies of subs do: a call has closed what it opened when it returns, and what an exit leaves open
is left to the traps around it. -/
theorem floors_in_order (h₀ : m₀.interp.toStacks.Ordered) (hsteps : Steps ⟨m₀, []⟩ ⟨m, o⟩) :
    m.interp.toStacks.Ordered ∧
    (∃ made, m.interp.toStacks.temps = sheltered m₀.interp.toStacks o ++ made ∧
      m.freeTemps = (m.cutTemps (sheltered m₀.interp.toStacks o).length).releaseAll made.reverse ∧
      (m.interp.floor < m.interp.temps.height → ∃ older newest, made = older ++ [newest] ∧
        m.freeNewest
          = (m.cutTemps (sheltered m₀.interp.toStacks o ++ older).length).release newest)) ∧
    (∀ m' temps, Steps ⟨m, o⟩ ⟨m', scope temps :: o⟩ → m'.leave.interp.floor = m.interp.floor) ∧
    (∀ m' inner frame, Steps ⟨m, o⟩ ⟨m', inner ++ trap frame :: o⟩ →
      (m'.unwind frame).interp.floor = m.interp.floor) ∧
    ∀ (lib : Library) (depth : Nat) (target : Target) (args : List Datum) (want : Want) {α : Type}
      (collect : List Handle → Bridge α), lib.Moves Manner.nested →
      (∀ hs, (collect hs).Moves Manner.nested) →
      match (Host.call (lib.reentry depth) target args want collect).run m with
      | .ok _ m' => Steps ⟨m, o⟩ ⟨m', o⟩
      | .error _ m' => ∃ inner, Steps ⟨m, o⟩ ⟨m', inner ++ o⟩ := by
  have hnested := hsteps.nested (.start h₀)
  refine ⟨hnested.ordered h₀, hnested.frees, fun m' temps hinner => ?_,
    fun m' inner frame hinner => ?_, fun lib depth target args want _ collect hlib hc =>
      Library.hostCall_steps hlib depth target args want hc m o⟩
  · exact (hinner.nested hnested).leave.floor.trans hnested.floor.symm
  · exact (hinner.nested hnested).unwind.floor.trans hnested.floor.symm

/-- A new machine with a temporary. -/
def outside : Machine := fresh.mortal fresh.interp.undefined

/-- With a scope in which the floor was raised before another temporary came. -/
def inside : Machine := outside.enter.saveTemps.mortal fresh.interp.undefined

/-- In a hook of that temporary, which has opened a scope and raised the floor again. -/
def inHook : Machine := inside.freeNewest.enter.saveTemps

/-- What is open within a trap when the hook runs. -/
def hookOpenings : List Opening :=
  [scope (some [fresh.interp.undefined]), freeing, scope (some [fresh.interp.undefined])]

/-- The hook calls back and evaluates a text, which closes what it opens. An exception in the hook ends
two scopes and a freeing, and the floor is the one from outside. -/
theorem floor_of_inHook : fresh.interp.toStacks.Ordered ∧ Steps ⟨fresh, []⟩ ⟨outside, []⟩ ∧
    Steps ⟨outside, []⟩ ⟨inHook, hookOpenings ++ [trap (outside.frame 0)]⟩ ∧
    inHook.interp.toStacks.Ordered ∧ inHook.interp.floor = 1 ∧
    (inHook.unwind (outside.frame 0)).interp.floor = 0 ∧
    ∃ m', (Host.callVoid (Library.relays.reentry 1) (.source "7") []).run inHook = .ok (.ok ()) m' ∧
      Steps ⟨inHook, hookOpenings ++ [trap (outside.frame 0)]⟩
        ⟨m', hookOpenings ++ [trap (outside.frame 0)]⟩ := by
  have hfresh : fresh.interp.toStacks.Ordered := ⟨List.Pairwise.nil, nofun, Nat.le_refl 0⟩
  have houtside : Steps ⟨fresh, []⟩ ⟨outside, []⟩ := .single (.mortal _ _ _)
  have hinside : Steps ⟨outside, []⟩
      ⟨inside, [scope (some [fresh.interp.undefined]), trap (outside.frame 0)]⟩ :=
    .tail (.tail (.tail (.single (.trap _ _ 0)) (.enter _ _)) (.saveTemps _ _)) (.mortal _ _ _)
  have hhook : Steps ⟨outside, []⟩ ⟨inHook, hookOpenings ++ [trap (outside.frame 0)]⟩ :=
    .tail (.tail (.tail (.tail hinside (.free _ _)) (.next _ (by decide))) (.enter _ _))
      (.saveTemps _ _)
  obtain ⟨-, -, -, hunwound, -⟩ := floors_in_order hfresh houtside
  obtain ⟨hordered, -, -, -, hcalls⟩ := floors_in_order hfresh (houtside.trans hhook)
  have hcall := hcalls Library.relays 1 (.source "7") [] .void Host.collectNothing
    Library.nested_relays fun _ => .pure ()
  have hseven : (Host.callVoid (Library.relays.reentry 1) (.source "7") []).run.Yields inHook
      fun r _ => r.toOption.isSome := by decide +kernel
  obtain ⟨_ | _, m', hrun, hok⟩ := hseven.exists_ok
  · cases hok
  · rw [Host.callVoid] at hrun
    rw [hrun] at hcall
    exact ⟨hfresh, houtside, hhook, hordered, rfl, hunwound inHook hookOpenings _ hhook, m', hrun,
      hcall⟩

end Course

end ValueMachine

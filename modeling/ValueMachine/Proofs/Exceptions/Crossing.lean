import ValueMachine.Proofs.Calls.Verdicts
import ValueMachine.Proofs.Exceptions.Bearing
import ValueMachine.Proofs.Ownership.Inspection
import ValueMachine.Proofs.Ownership.Reachable

/-! Exceptions that cross boundaries. A call from host code fails with a copy of what was thrown, and
a closure that passes this failure on raises the copy again where its sub was called. So what was
first put into `$@` arrives unchanged, through however many closures it passes, and what it refers
to is kept. -/

namespace ValueMachine

open Machine Manner

namespace Machine

variable {m m' : Machine} {held held' : List Handle} {h : Handle} {s : Scalar} {α : Type}

theorem Orderly.holdCopy {v : Held} (hm : m.Orderly held) (hf : m.isFreed h = false)
    (hr : holdCopy h m = .ok v m') : m.Settles m' (v.handle :: held) := by
  obtain ⟨k, m₁, hcopy, hadopt⟩ := Run.bind_ok hr
  cases hadopt
  exact hm.duplicate hf hcopy

/-- The end of the scope of a call. -/
theorem Orderly.close (hm : m.Orderly held) (n : Nat) :
    m.Settles (m.truncate n).freeTemps.leave held := by
  have hcut : m.Settles (m.truncate n) held := hm.settles_of_eq rfl rfl rfl rfl rfl rfl
  have hfree := hcut.trans hcut.orderly.freeTemps
  exact hfree.trans hfree.orderly.leave

/-- The machine in which a trap runs its body. -/
def cleared (m : Machine) : Machine := m.setError (.ofByteText ⟨[], false⟩)

/-- The arguments of the call that has the top mark. -/
def arguments (m : Machine) : Arguments := ⟨m.above m.topMark, m.interp.want⟩

/-- The machine in which the body of a sub is run. -/
def called (m : Machine) (mark : Nat) (want : Want) (sub : Handle) : Machine :=
  (m.onInterp fun i =>
    { i with marks := i.marks.push mark, contexts := i.contexts.push want }).retain sub

/-- The machine in which the body of a sub has ended. -/
def left (m : Machine) (sub : Handle) : Machine :=
  (m.onInterp fun i => { i with contexts := i.contexts.pop }).release sub

theorem Sound.drifts_called {P : Promise} (hm : m.Sound P) (mark : Nat) (want : Want)
    (sub : Handle) : m.Drifts (m.called mark want sub) := by
  have hpush : m.Drifts (m.onInterp fun i =>
      { i with marks := i.marks.push mark, contexts := i.contexts.push want }) :=
    drifts_still (by rfl) hm
  exact hpush.trans (.retain hpush.tame sub)

theorem Sound.called {P : Promise} (hm : m.Sound P) (mark : Nat) (want : Want) (sub : Handle) :
    (m.called mark want sub).Sound P :=
  hm.drifts (hm.drifts_called mark want sub)

/-- A body that ends without a result ends the call of its sub. -/
theorem callResolved_error {body : Entry → Handle → Run Unit} {mark : Nat} {flags : CallFlags}
    {sub : Handle} {entry : Entry} {e : Exit} (hentry : (m.code? sub).bind (·.entry) = some entry)
    (hbody : body entry sub (m.called mark flags.want sub) = .error e m') :
    callResolved body mark flags sub m = .error e (m'.left sub) := by
  have henter : enterSub body mark flags.want entry sub m = .error e (m'.left sub) := by
    show (body entry sub).always (·.left sub) (m.called mark flags.want sub) = _
    rw [Run.always_apply, hbody]
  rw [callResolved, Run.look_bind, hentry]
  show (enterSub body mark flags.want entry sub >>= _) m = _
  rw [Run.bind_apply, henter]

namespace Bears

variable (hm : m.Bears s held)

include hm

/-- A step that touches no value. -/
theorem still (h : holdings m' = holdings m)
    (owned : (m'.interp.temps, m'.interp.live, m'.others, m'.here)
      = (m.interp.temps, m.interp.live, m.others, m.here)) : m'.Bears s held :=
  hm.of_fit (drifts_still h hm.sound) (hm.toFit.still h owned)

theorem errorTrue_eq : m.errorTrue = s.truth := by
  obtain ⟨h, hh, hb⟩ := hm.error
  rw [errorTrue_of_handle hh, truthAt_of_scalar hb]

/-- The trap cuts the stacks back. -/
theorem caught (frame : Frame) (want : Want) :
    ∃ n m', Machine.caught frame want m = .ok n m' ∧ m'.Bears s held := by
  unfold Machine.caught
  split
  · exact ⟨1, _, rfl, hm.still rfl rfl⟩
  · exact ⟨0, _, rfl, hm.still rfl rfl⟩

/-- The call fails with a copy of what was thrown. -/
theorem outcome (hs : s.truth = true) (count : Nat) (collect : List Handle → Bridge α) :
    ∃ v m', Host.outcome count collect m = .ok (.error (.died v)) m' ∧
      m'.Bears s (v.handle :: held) ∧ m'.body v.handle = .scalar s := by
  obtain ⟨log, hread⟩ := hm.sound.outcome_apply count collect
  obtain ⟨hslot, hh⟩ := hm.toFit.errorSlot
  have hbears : m.errorSlot.2.Bears s held := hm.of_fit hm.sound.errorSlot hslot
  have hlogged : ({ m.errorSlot.2 with log := log } : Machine).Bears s held := hbears.still rfl rfl
  have hh₁ : ({ m.errorSlot.2 with log := log } : Machine).errorHandle? = some m.errorSlot.1 := hh
  generalize ({ m.errorSlot.2 with log := log } : Machine) = m₁ at hlogged hread hh₁
  have hb : m₁.body m.errorSlot.1 = .scalar s := by
    obtain ⟨h, hh', hb⟩ := hlogged.error
    cases hh₁.symm.trans hh'
    exact hb
  have hf : m₁.isFreed m.errorSlot.1 = false := by rw [isFreed, hb]; rfl
  obtain ⟨v, m', hcopy, hd, -, hb'⟩ := hlogged.sound.holdCopy hb
  have hfit : m'.Fit (v.handle :: held) := hlogged.step hd fun lost ho => ho.holdCopy hf hcopy
  refine ⟨v, m', ?_, hlogged.of_fit hd hfit, hb'⟩
  rw [hread, if_pos (hm.errorTrue_eq.trans hs), Run.bind_apply, hcopy]
  rfl

theorem close (n : Nat) : (m.truncate n).freeTemps.leave.Bears s held := by
  have hd := drifts_close hm.sound n
  exact hm.of_fit hd (hm.toFit.step hd fun lost ho => ho.close n)

theorem dropAll {vs : List Held} (hperm : held.Perm (vs.map (·.handle) ++ held')) :
    (m.dropAll vs).Bears s held' :=
  hm.of_fit (drifts_dropAll hm.sound vs) (hm.toFit.perm hperm).dropAll

end Bears

end Machine

namespace Library

variable {lib : Library} {depth : Nat} {target : Target} {args : List Datum} {want : Want}
  {m m' m₁ m₂ : Machine} {s : Scalar} {held : List Handle} {sub : Handle} {r : Reentry} {α : Type}

/-- Where an exception arrives at the own body of a call from host code, the call fails with a copy
of what was thrown, and it is still there. -/
theorem BodyEnds.dies (hbody : lib.BodyEnds depth target args want m (.error .raised m₂))
    (hm₂ : m₂.Bears s held) (hs : s.truth = true) (collect : List Handle → Bridge α) :
    ∃ v m', (Host.call (lib.reentry (depth + 1)) target args want collect).run m
        = .ok (.error (.died v)) m' ∧
      m'.Bears s (v.handle :: held) ∧ m'.body v.handle = .scalar s := by
  obtain ⟨root, body, m₁, hopen, hrun⟩ := hbody
  obtain ⟨n, m₃, hcaught, hm₃⟩ := hm₂.caught (m₁.frame root) want
  obtain ⟨v, m₄, hout, hm₄, hb⟩ := hm₃.outcome hs n collect
  have hclose := hm₄.close m.height
  refine ⟨v, _, ?_, hclose, ?_⟩
  · rw [Host.call_apply, inScope_eq, Run.bind_apply, hopen]
    simp only [Run.bind_apply, trapped_apply, hrun, hcaught, hout]
  · exact body_of_drifts (drifts_close hm₄.sound _) hb (hclose.not_isFreed List.mem_cons_self)

/-- The own body of a call of a sub is the closure that the sub carries. -/
theorem bodyEnds_of_closure {p : Nat × Run Nat}
    (hopen : lib.openCall depth (.sub sub) args want m = .ok p m₁)
    (hkind : m₁.cleared.kind sub = .code)
    (hentry : (m₁.cleared.code? sub).bind (·.entry) = some .closure)
    (hraise : lib.enterClosure (lib.reentry depth) sub (m₁.cleared.called p.1 want sub)
      = .error .raised m₂) :
    lib.BodyEnds depth (.sub sub) args want m (.error .raised (m₂.left sub)) := by
  obtain ⟨m₀, htarget⟩ := openCall_ok hopen
  refine ⟨p.1, p.2, m₁, hopen, ?_⟩
  cases htarget
  show invoke _ sub m₀.topMark (.trapping want) m₀.dropMark.cleared = _
  generalize m₀.dropMark.cleared = m₃ at hkind hentry hraise ⊢
  have hresolve : resolveSub sub m₃ = .ok sub m₃ := by
    rw [resolveSub, Run.look_bind, hkind]
    rfl
  let body := fun entry sub => lib.run (lib.reentry depth) entry sub
  have hresolved : callResolved body m₀.topMark (.trapping want) sub m₃
      = .error .raised (m₂.left sub) := callResolved_error hentry hraise
  show invoke body sub m₀.topMark (.trapping want) m₃ = _
  rw [invoke_eq, if_neg (by simp [CallFlags.trapping]), Run.bind_apply, hresolve]
  exact hresolved

/-- The own body of an evaluation of source text are its values. -/
theorem bodyEnds_of_source {text : String} {e : Exit}
    (hvalues : Source.values (lib.reentry depth) text want m.enter.saveTemps.cleared
      = .error e m₂) :
    lib.BodyEnds depth (.source text) args want m (.error e m₂) := by
  refine ⟨_, _, m.enter.saveTemps, rfl, ?_⟩
  show Source.results _ _ _ _ m.enter.saveTemps.cleared = _
  rw [Source.results, Run.bind_apply, hvalues]

/-- The closure of a sub is run on the arguments above the top mark, and ends in a way. -/
def ClosureEnds (lib : Library) (r : Reentry) (sub : Handle) (m : Machine)
    (result : EStateM.Result Exit Machine (Except Failure (List Handle))) : Prop :=
  ∃ closure, lib.closure? m sub = some closure ∧
    (closure r m.arguments).run m.dropMark = result

theorem ClosureEnds.enterClosure_apply (ended : Except Exit (Except Failure (List Handle)))
    (hends : lib.ClosureEnds r sub m (match ended with
      | .ok a => .ok a m₁
      | .error e => .error e m₁)) :
    lib.enterClosure r sub m = concluded (subName m sub) m.topMark ended m₁ := by
  obtain ⟨closure, hclosure, hrun⟩ := hends
  rw [Library.enterClosure_apply, hclosure]
  show ((closure r m.arguments).run.attempt >>= concluded _ _) m.dropMark = _
  rw [Run.bind_apply, Run.attempt, hrun]
  cases ended <;> rfl

/-- A failure that is passed on is raised again where the sub was called. -/
theorem ClosureEnds.raises_of_died {v : Held}
    (hends : lib.ClosureEnds r sub m (.ok (.error (.died v)) m₁))
    (hm₁ : m₁.Bears s (v.handle :: held)) (hb : m₁.body v.handle = .scalar s) :
    ∃ m', lib.enterClosure r sub m = .error .raised m' ∧ m'.Bears s held := by
  have hmortal : (m₁.mortal v.handle).Bears s held :=
    hm₁.of_fit (drifts_still (by rfl) hm₁.sound)
      (hm₁.step (drifts_still (by rfl) hm₁.sound) fun _ ho => Orderly.mortal ho)
  obtain ⟨m', hraise, hm'⟩ := hmortal.raiseValue (α := Unit) (h := v.handle) (s := s) hb
  refine ⟨m', ?_, hm'⟩
  rw [ClosureEnds.enterClosure_apply (.ok (.error (.died v))) hends]
  exact hraise

theorem raiseFailure_apply {f : Failure} {name message : String} (hf : ∀ v, f ≠ .died v)
    (hmessage : f.message m = .ok message m₁) : raiseFailure name f m = .error .raised
      ((m₁.setErrorText (Failure.trimLines (name ++ ": " ++ message) ++ "\n")).dropAll f.held) := by
  have htell : raiseFailure name f = (do
      let message ← f.message.otherwise (·.dropAll f.held)
      (raise (.said (Failure.trimLines (name ++ ": " ++ message) ++ "\n")) : Run Unit).otherwise
        (·.dropAll f.held)) := by
    cases f
    case died v => exact absurd rfl (hf v)
    all_goals rfl
  rw [htell, Run.bind_apply, Run.otherwise_apply, hmessage]
  rfl

/-- Any other failure is raised as a message, which names the sub. -/
theorem ClosureEnds.raises_of_failed {f : Failure} {message : String}
    (hends : lib.ClosureEnds r sub m (.ok (.error f) m₁)) (hf : ∀ v, f ≠ .died v)
    (hm₁ : m₁.Fit (f.held.map (·.handle) ++ held)) (hmessage : f.message m₁ = .ok message m₂) :
    ∃ m', lib.enterClosure r sub m = .error .raised m' ∧
      m'.Bears (.ofText (Failure.trimLines (subName m sub ++ ": " ++ message) ++ "\n")) held := by
  obtain ⟨_, _, hr, hheap, hinterp, horder⟩ := leaves_message f m₁ hm₁.sound.tame
  cases hmessage.symm.trans hr
  have hd : m₁.Drifts m₂ :=
    drifts_still (by rw [holdings, holdings, hheap, hinterp]) hm₁.sound
  have hm₂ : m₂.Fit (f.held.map (·.handle) ++ held) := by
    obtain ⟨lost, ho⟩ := hm₁.orderly
    exact hm₁.of_drifts hd ⟨lost, horder _ ho⟩ (.of_heap_eq hheap)
  refine ⟨_, ?_, (hm₂.setErrorText _).dropAll (.refl _)⟩
  rw [ClosureEnds.enterClosure_apply (.ok (.error f)) hends]
  exact raiseFailure_apply hf hmessage

/-- A closure that passes on what a call fails with raises what the body of the call has thrown. -/
theorem BodyEnds.relays {vs : List Held} {collect : List Handle → Bridge α}
    (hbody : lib.BodyEnds depth target args want m₁ (.error .raised m₂))
    (hm₂ : m₂.Bears s (vs.map (·.handle) ++ held)) (hs : s.truth = true)
    (hpasses : ∀ f m₃, (Host.call (lib.reentry (depth + 1)) target args want collect).run m₁
      = .ok (.error f) m₃ → lib.ClosureEnds r sub m (.ok (.error f) (m₃.dropAll vs))) :
    ∃ m', lib.enterClosure r sub m = .error .raised m' ∧ m'.Bears s held := by
  obtain ⟨v, m₃, hcall, hm₃, hb⟩ := hbody.dies hm₂ hs collect
  have hgiven : (m₃.dropAll vs).Bears s (v.handle :: held) := hm₃.dropAll List.perm_middle.symm
  have hb' : (m₃.dropAll vs).body v.handle = .scalar s :=
    body_of_drifts (drifts_dropAll hm₃.sound vs) hb (hgiven.not_isFreed List.mem_cons_self)
  exact (hpasses _ _ hcall).raises_of_died hgiven hb'

/-- A panic is raised as a message, which names the sub. -/
theorem ClosureEnds.raises_of_panicked {message : Option String}
    (hends : lib.ClosureEnds r sub m (.error (.aborted message) m₁)) (hm₁ : m₁.Fit held) :
    ∃ m', lib.enterClosure r sub m = .error .raised m' ∧
      m'.Bears (.ofText (subName m sub ++ " panicked: "
        ++ message.getD "unknown panic" ++ "\n")) held := by
  refine ⟨_, ?_, hm₁.setErrorText _⟩
  rw [ClosureEnds.enterClosure_apply (.error (.aborted message)) hends]
  rfl

end Library

namespace Closure

/-- A closure with typed parameters passes on what its body fails with, once it has given its
parameters up. -/
theorem typed_fails {ts : List HostType} {body : Reentry → Parameters ts → Bridge (List Datum)}
    {r : Reentry} {args : Arguments} {vs : Parameters ts} {f : Failure} {m m₁ m₂ : Machine}
    (harity : args.handles.length ≤ ts.length)
    (hread : (args.readAll ts 0).run m = .ok (.ok vs) m₁)
    (hbody : (body r vs).run m₁ = .ok (.error f) m₂) :
    (typed ts body r args).run m = .ok (.error f) (m₂.dropAll (Parameters.held ts vs)) := by
  have hsteps : (do
      let results ← body r vs
      Bridge.ofRun (results.mapM Datum.toValue) : Bridge (List Handle)).run m₁
        = .ok (.error f) m₂ := by
    rw [Bridge.bind_apply, hbody]
  have hreleased : (Bridge.releasing (Parameters.held ts vs) (do
      let results ← body r vs
      Bridge.ofRun (results.mapM Datum.toValue))).run m₁
        = .ok (.error f) (m₂.dropAll (Parameters.held ts vs)) := by
    show Run.always _ _ m₁ = _
    rw [Run.always_apply, hsteps]
  rw [typed, Arguments.checkArity, if_neg (by omega), pure_bind, Bridge.bind_apply, hread]
  exact hreleased

end Closure

/-! ### What is thrown -/

namespace Source

variable {m m₁ : Machine} {held : List Handle} {h : Handle} {s : Scalar} {α : Type}

/-- The text of `die` with arguments of these texts. -/
def dyingText (texts : List String) : String :=
  let message := if (String.join texts).isEmpty then "Died" else String.join texts
  if message.endsWith "\n" then message else message ++ " at (eval) line 1.\n"

theorem truth_dyingText (texts : List String) : (Scalar.ofText (dyingText texts)).truth = true :=
  Manner.Evaluates.telling_die _

/-- A single reference is thrown as it is. -/
theorem die_of_reference (hm : m.Fit held) (hb : m.body h = .scalar s)
    (hr : m.isReference h = true) :
    ∃ m', (die [h] : Run α) m = .error .raised m' ∧ m'.Bears s held := by
  obtain ⟨m', hraise, hm'⟩ := hm.raiseValue (α := PUnit) hb
  refine ⟨m', ?_, hm'⟩
  simp only [die, Run.look_bind, hr, if_true]
  rw [Run.bind_apply, hraise]

/-- Other arguments are thrown as their text. -/
theorem die_of_texts {args : List Handle} {texts : List String} (hm : m.Fit held)
    (hargs : ∀ h, args = [h] → m.isReference h = false)
    (htexts : args.mapM string m = .ok texts m₁) :
    ∃ m', (die args : Run α) m = .error .raised m' ∧
      m'.Bears (.ofText (dyingText texts)) held := by
  obtain ⟨_, log, hr⟩ := Run.Reads.mapM Run.Reads.string args m hm.sound.tame
  cases htexts.symm.trans hr
  have hm₁ : ({ m with log := log } : Machine).Fit held := hm.still rfl rfl
  refine ⟨_, ?_, hm₁.setErrorText _⟩
  have hsay : (do
      let texts ← args.mapM string
      raise (.said (dyingText texts)) : Run α) m
        = .error .raised (({ m with log := log } : Machine).setErrorText (dyingText texts)) := by
    rw [Run.bind_apply, htexts]
    rfl
  rw [← hsay]
  match args with
  | [] => rfl
  | [single] =>
    simp only [die, Run.look_bind, hargs single rfl]
    rfl
  | _ :: _ :: _ => rfl

/-- A text of one statement that dies. -/
theorem values_of_die {r : Reentry} {want : Want} {text : String} {items : Items} {e : Exit}
    {args : List Handle} {m₂ : Machine}
    (hread : (tokens text).toOption.map statements = some [⟨.die items, .done⟩])
    (heval : items.eval r m = .ok args m₁)
    (hdie : (die args : Run (List Handle)) m₁ = .error e m₂) :
    values r text want m = .error e m₂ := by
  obtain ⟨ts, hts, hstatements⟩ : ∃ ts, tokens text = .ok ts ∧
      statements ts = [⟨.die items, .done⟩] := by
    cases ht : tokens text with
    | error f => rw [ht] at hread; cases hread
    | ok ts =>
      rw [ht] at hread
      exact ⟨ts, rfl, Option.some.inj hread⟩
  have hhead : (Expr.die items).eval r want m = .error e m₂ := by
    rw [Expr.eval, Run.bind_apply, heval]
    exact hdie
  rw [values, hts]
  show evalStatements r want (statements ts) m = _
  rw [hstatements, evalStatements, Statement.eval, Run.bind_apply, hhead]

end Source

namespace Library

variable {lib : Library} {s : Scalar} {held : List Handle} {m : Machine}

/-- An exception, with these slots, has been thrown and is on its way in the machine, past so many
closures that have passed it on; these counts are held outside meanwhile. -/
inductive Arrives (lib : Library) (s : Scalar) : Nat → List Handle → Machine → Prop
  /-- `die` has thrown a reference. -/
  | thrown {α : Type} {m held h} (fit : m.Fit held) (body : m.body h = .scalar s)
      (reference : m.isReference h = true) :
      Arrives lib s 0 held ((Source.die [h] : Run α).final m)
  /-- `die` has thrown a text. -/
  | told {α : Type} {m m₁ held args texts} (fit : m.Fit held)
      (noReference : ∀ h, args = [h] → m.isReference h = false)
      (read : args.mapM string m = .ok texts m₁) (slots : s = .ofText (Source.dyingText texts)) :
      Arrives lib s 0 held ((Source.die args : Run α).final m)
  /-- A closure has failed of its own. -/
  | failed {m m₁ m₂ held f r sub message} (ends : lib.ClosureEnds r sub m (.ok (.error f) m₁))
      (own : ∀ v, f ≠ .died v) (fit : m₁.Fit (f.held.map (·.handle) ++ held))
      (text : f.message m₁ = .ok message m₂)
      (slots : s = .ofText (Failure.trimLines (subName m sub ++ ": " ++ message) ++ "\n")) :
      Arrives lib s 0 held ((lib.enterClosure r sub).final m)
  /-- A closure has panicked. -/
  | panicked {m m₁ held message r sub}
      (ends : lib.ClosureEnds r sub m (.error (.aborted message) m₁)) (fit : m₁.Fit held)
      (slots : s = .ofText (subName m sub ++ " panicked: "
        ++ message.getD "unknown panic" ++ "\n")) :
      Arrives lib s 0 held ((lib.enterClosure r sub).final m)
  /-- It leaves a sub that was kept. -/
  | returned {n m held sub} (inner : Arrives lib s n (sub :: held) m) :
      Arrives lib s n held (m.left sub)
  /-- It ends the body of a call from a closure, which passes on what the call fails with once it
  has given up what it holds. -/
  | relayed {n m m₁ m₂ held vs sub depth target args want} {α : Type}
      {collect : List Handle → Bridge α}
      (inner : Arrives lib s n (vs.map (·.handle) ++ held) m₂)
      (body : lib.BodyEnds depth target args want m₁ (.error .raised m₂))
      (passesOn : ∀ f m₃, (Host.call (lib.reentry (depth + 1)) target args want collect).run m₁
        = .ok (.error f) m₃ →
          lib.ClosureEnds (lib.reentry (depth + 1)) sub m (.ok (.error f) (m₃.dropAll vs))) :
      Arrives lib s (n + 1) held ((lib.enterClosure (lib.reentry (depth + 1)) sub).final m)

/-- What has been thrown is in the error variable, and is true, wherever it arrives. -/
theorem Arrives.bears {n : Nat} (h : lib.Arrives s n held m) :
    m.Bears s held ∧ s.truth = true := by
  induction h with
  | thrown fit body reference =>
    obtain ⟨m', hdie, hm'⟩ := Source.die_of_reference fit body reference
    obtain ⟨-, htell⟩ := fit.sound.tells_of_isReference reference
    exact ⟨Run.final_of_error hdie ▸ hm', htell s body⟩
  | told fit noReference read slots =>
    subst slots
    obtain ⟨m', hdie, hm'⟩ := Source.die_of_texts fit noReference read
    exact ⟨Run.final_of_error hdie ▸ hm', Source.truth_dyingText _⟩
  | failed ends own fit text slots =>
    subst slots
    obtain ⟨m', hraise, hm'⟩ := ends.raises_of_failed own fit text
    exact ⟨Run.final_of_error hraise ▸ hm', Scalar.truth_ofText_line _⟩
  | panicked ends fit slots =>
    subst slots
    obtain ⟨m', hraise, hm'⟩ := ends.raises_of_panicked fit
    exact ⟨Run.final_of_error hraise ▸ hm', Scalar.truth_ofText_line _⟩
  | @returned n m held sub _ ih =>
    refine ⟨?_, ih.2⟩
    have hpop : (m.onInterp fun i => { i with contexts := i.contexts.pop }).Bears s (sub :: held) :=
      ih.1.still rfl rfl
    exact hpop.of_fit (.release hpop.sound.tame hpop.sound.bounded sub) hpop.toFit.release
  | relayed _ body passesOn ih =>
    obtain ⟨m', hraise, hm'⟩ := body.relays ih.1 ih.2 passesOn
    exact ⟨Run.final_of_error hraise ▸ hm', ih.2⟩

end Library

namespace Holding

variable {s s' : Holding}

theorem Steps.orderly (hsteps : Steps s s') (hs : s.machine.Orderly s.host) :
    s'.machine.Orderly s'.host := by
  induction hsteps with
  | refl => exact hs
  | tail _ hstep ih =>
    obtain ⟨op, hlends, hallowed, back, rest, hhost, hrun, hback⟩ := hstep
    exact hback ▸ (op.settles (ih.perm hhost) hlends hallowed hrun).orderly

/-- What a value refers to is there for as long as the value refers to it. -/
theorem Steps.not_isFreed_of_target (hsteps : Steps s s') (hs : s.machine.Orderly s.host)
    {h t : Handle} (ht : s'.machine.target? h = some t) : s'.machine.isFreed t = false := by
  obtain ⟨slots, hslots, ht⟩ := Option.bind_eq_some_iff.1 ht
  have hb := scalar?_eq_some.1 hslots
  refine (hsteps.orderly hs).not_isFreed_of_mem_owned (h := h) ?_
  rw [hb]
  simp [Body.owned, Scalar.owned, ht]

end Holding

namespace Library

/-- An exception crosses any number of closures unchanged. Where it arrives at the own body of the
outermost call from host code, that call fails with a value that has exactly the slots that were
thrown, and what a thrown reference refers to is there for as long as the value refers to it. -/
theorem arriving_dies {lib : Library} {s : Scalar} {n depth : Nat} {held : List Handle}
    {target : Target} {args : List Datum} {want : Want} {m m₂ : Machine}
    (harrives : lib.Arrives s n held m₂)
    (hbody : lib.BodyEnds depth target args want m (.error .raised m₂)) {α : Type}
    (collect : List Handle → Bridge α) :
    ∃ v m', (Host.call (lib.reentry (depth + 1)) target args want collect).run m
        = .ok (.error (.died v)) m' ∧
      m'.body v.handle = .scalar s ∧
      ∃ lost, m'.Orderly (v.handle :: held ++ lost) ∧
        ∀ later, Holding.Steps ⟨m', v.handle :: held ++ lost⟩ later →
          ∀ t, later.machine.target? v.handle = some t → later.machine.isFreed t = false := by
  obtain ⟨hm₂, htrue⟩ := harrives.bears
  obtain ⟨v, m', hcall, hm', hb⟩ := hbody.dies hm₂ htrue collect
  obtain ⟨lost, ho⟩ := hm'.orderly
  exact ⟨v, m', hcall, hb, lost, ho, fun later hsteps t ht => hsteps.not_isFreed_of_target ho ht⟩

/-- The arguments of `die` in a text that throws a reference to a new array. -/
def newArrayItems : Source.Items := .cons (.newArray .done) .done

/-- A single reference is about to be thrown. -/
def Throwing (held : List Handle) (args : List Handle) (m : Machine) : Prop :=
  args.length = 1 ∧ (∀ h ∈ args, m.isReference h = true) ∧ m.Orderly held ∧
    m.errorHandle?.any (fun h => !(m.cell h).immortal) = true

instance (held args : List Handle) (m : Machine) : Decidable (Throwing held args m) := by
  unfold Throwing
  infer_instance

/-- The closure that runs source text is entered with a text that throws a reference. -/
theorem relaying_throws :
    (relayer.openCall 2 (.sub ⟨4⟩) [.text "die []"] .void).Yields relaying fun p m₁ =>
      (m₁.cleared.kind ⟨4⟩ = .code ∧ (m₁.cleared.code? ⟨4⟩).bind (·.entry) = some .closure ∧
        ((m₁.cleared.called p.1 .void ⟨4⟩).code? ⟨4⟩).bind (·.payload)
          = some (.closure "relay" []) ∧
        (m₁.cleared.called p.1 .void ⟨4⟩).arguments.handles.length ≤ 1) ∧
      Run.Yields ((m₁.cleared.called p.1 .void ⟨4⟩).arguments.read .string 0).run
          (m₁.cleared.called p.1 .void ⟨4⟩).dropMark fun (ended : Except Failure String) m₂ =>
        ended.toOption = some "die []" ∧
        (newArrayItems.eval (relayer.reentry 1)).Yields m₂.enter.saveTemps.cleared
          (Throwing [⟨4⟩]) := by
  decide +kernel

theorem relaying_sound_of_throws {p : Nat × Run Nat} {m₁ m₂ m₃ : Machine} {text : String}
    {args : List Handle} {P : Promise}
    (hopen : relayer.openCall 2 (.sub ⟨4⟩) [.text "die []"] .void relaying = .ok p m₁)
    (hread : ((m₁.cleared.called p.1 .void ⟨4⟩).arguments.read .string 0).run
      (m₁.cleared.called p.1 .void ⟨4⟩).dropMark = .ok (.ok text) m₂)
    (heval : newArrayItems.eval (relayer.reentry 1) m₂.enter.saveTemps.cleared = .ok args m₃) :
    m₃.Sound P := by
  have hopened : (relayer.openCall 2 (.sub ⟨4⟩) [.text "die []"] .void).Moves (minding P False) :=
    openCall_moves relayer 2 (.sub ⟨4⟩) _ .void
  have hm₁ : m₁.Sound P := (hopened.ok hopen (relaying_sound P)).1
  have hcleared : m₁.cleared.Sound P := hm₁.clear.1
  have hcalled : ((m₁.cleared.called p.1 .void ⟨4⟩).dropMark).Sound P :=
    (hcleared.called _ _ _).drifts (drifts_still (by rfl) (hcleared.called _ _ _))
  have hm₂ : m₂.Sound P := by
    have hdrops : (minding P False).Drops := minding_drops
    have hend := hdrops.readArgument (m₁.cleared.called p.1 .void ⟨4⟩).arguments .string 0
      (m₁.cleared.called p.1 .void ⟨4⟩).dropMark
    rw [hread] at hend
    exact (hend hcalled).1
  have hstart : m₂.enter.saveTemps.Sound P := hm₂.drifts (drifts_still (by rfl) hm₂)
  have hevaluates : (minding P False).Evaluates (Promise.Free False) (relayer.reentry 1) :=
    minding_evaluates (reentry_minds (relayer_minds P) 1) False.elim
  have hitems := hevaluates.items newArrayItems
    (by simp [newArrayItems, Source.Items.AssignsOnly, Source.Expr.AssignsOnly])
  exact (hitems.ok heval hstart.clear.1).1

/-- A reference that source text has thrown passes the closure that runs the text, and arrives at
the call of the closure. -/
theorem relaying_dies_of_thrown : ∃ s t m₂, s.target = some t ∧ relayer.Arrives s 1 [] m₂ ∧
    relayer.BodyEnds 2 (.sub ⟨4⟩) [.text "die []"] .void relaying (.error .raised m₂) ∧
    ∃ v m', (Host.callVoid (relayer.reentry 3) (.sub ⟨4⟩) [.text "die []"]).run relaying
        = .ok (.error (.died v)) m' ∧ m'.target? v.handle = some t ∧ m'.isFreed t = false := by
  obtain ⟨p, m₁, hopen, ⟨hkind, hentry, hpayload, harity⟩, hread⟩ := relaying_throws.exists_ok
  obtain ⟨ended, m₃, hread, htext, heval⟩ := hread.exists_ok
  obtain ⟨args, m₄, heval, hone, hreference, horderly, hslot⟩ := heval.exists_ok
  obtain ⟨h, rfl⟩ := List.length_eq_one_iff.1 hone
  obtain ⟨text, rfl⟩ : ∃ text, ended = .ok text := by
    cases ended with
    | error f => cases htext
    | ok text => exact ⟨text, rfl⟩
  cases htext
  have hfit : m₄.Fit [⟨4⟩] := by
    obtain ⟨k, hk, hi⟩ := (Option.any_eq_true _ _).1 hslot
    exact ⟨relaying_sound_of_throws hopen hread heval, ⟨[], horderly⟩, k, hk, by simpa using hi⟩
  have hreference := hreference h List.mem_cons_self
  obtain ⟨t, ht⟩ := Option.isSome_iff_exists.1 hreference
  obtain ⟨s, hs, hst⟩ := Option.bind_eq_some_iff.1 ht
  have hb := scalar?_eq_some.1 hs
  -- the text throws the reference in the closure
  obtain ⟨m₅, hdie, -⟩ := Source.die_of_reference (α := List Handle) hfit hb hreference
  have hthrown : relayer.Arrives s 0 (List.map Held.handle [] ++ [⟨4⟩]) m₅ :=
    Run.final_of_error hdie ▸ Arrives.thrown (α := List Handle) hfit hb hreference
  have hsource : relayer.BodyEnds 1 (.source "die []") [] .scalar m₃ (.error .raised m₅) :=
    bodyEnds_of_source (Source.values_of_die (by rfl) heval hdie)
  -- the closure passes the failure on
  have hpasses : ∀ f m', (Host.call (relayer.reentry 2) (.source "die []") [] .scalar
      (Host.collectScalar .string)).run m₃ = .ok (.error f) m' →
      relayer.ClosureEnds (relayer.reentry 2) ⟨4⟩ (m₁.cleared.called p.1 .void ⟨4⟩)
        (.ok (.error f) (m'.dropAll [])) := by
    intro f m' hcall
    have hargs : ((m₁.cleared.called p.1 .void ⟨4⟩).arguments.readAll [.string] 0).run
        (m₁.cleared.called p.1 .void ⟨4⟩).dropMark = .ok (.ok ("die []", ())) m₃ := by
      rw [Arguments.readAll, Bridge.bind_apply, hread]
      rfl
    have hanswer : (do return [Datum.text (← Host.callScalar (relayer.reentry 2) .string
        (.source "die []") [])] : Bridge (List Datum)).run m₃ = .ok (.error f) m' := by
      rw [Bridge.bind_apply, Host.callScalar, hcall]
    refine ⟨Closure.relay, ?_, Closure.typed_fails harity hargs hanswer⟩
    rw [Library.closure?, hpayload]
    rfl
  have hrelayed := Arrives.relayed hthrown hsource hpasses
  obtain ⟨m₆, hraise, -⟩ := hsource.relays hthrown.bears.1 hthrown.bears.2 hpasses
  rw [Run.final_of_error hraise] at hrelayed
  have hbody := bodyEnds_of_closure hopen hkind hentry hraise
  obtain ⟨v, m', hcall, hv, lost, -, hlater⟩ :=
    arriving_dies hrelayed.returned hbody Host.collectNothing
  have htarget : m'.target? v.handle = some t := by
    rw [target?, scalar?_eq_some.2 hv]
    exact hst
  exact ⟨s, t, _, hst, hrelayed.returned, hbody, v, m', hcall, htarget, hlater _ .refl t htarget⟩

end Library

end ValueMachine

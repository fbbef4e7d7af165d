import ValueMachine.Proofs.Calls.Closures
import ValueMachine.Proofs.Calls.HostCalls
import ValueMachine.Proofs.Ownership.Holders
import ValueMachine.Host.Routine

/-! Libraries whose bodies keep to their own part of the stacks. With such a library calls are
balanced at every nesting, and calls from host code restore the stacks. The native routines keep to
their part, and so do closures that run source text. -/

namespace ValueMachine

open Stacks Machine Manner

variable {m : Machine} {b : Stacks} {r : Reentry}

/-! ### Libraries -/

/-- The bodies of a library keep to their own part of the stacks: routines take their mark off and
leave results in place of their arguments, closures leave the stacks as they are. They may count on
the same of what they start. -/
structure Library.Disciplined (lib : Library) : Prop where
  routines : ∀ {name body}, lib.routines name = some body → ∀ r : Reentry, r.Balanced →
    ∀ ⦃m b args⦄ (sub : Handle), m.interp.toStacks = b.withArguments args →
      Lands b (fun _ s => ∃ n, b.Left n s) m (body r sub m)
  closures : ∀ {name closure}, lib.closures name = some closure → ∀ r : Reentry, r.Balanced →
    ∀ args, (closure r args).Moves atHome

namespace Library

variable {lib : Library}

theorem putResults_lands (results : List Handle) {vs : List Handle}
    (hm : m.interp.toStacks = b.topped vs) :
    Lands b (fun _ s => ∃ n, b.Left n s) m (putResults b.values.length results m) := by
  refine (pushes_lands (fun h m b n hm => ?_) results (truncate_left hm)).of_here rfl
  have hmortal : m.interp.toStacks.Kept (m.mortal h).interp.toStacks := by
    rw [toStacks_mortal]
    exact ⟨rfl, rfl, rfl, rfl, List.prefix_append _ _, rfl⟩
  exact ⟨rfl, n + 1, push_left (hm.kept hmortal) h⟩

theorem raiseFailure_moves (name : String) (f : Failure) : (raiseFailure name f).Moves atHome := by
  have hdrop (m : Machine) : atHome.cleans m (m.dropAll f.held) := atHome_drops.dropAll f.held m
  have htell : (do
      let message ← f.message.otherwise (·.dropAll f.held)
      (raise (.said (Failure.trimLines (name ++ ": " ++ message) ++ "\n")) : Run Unit).otherwise
        (·.dropAll f.held)).Moves atHome :=
    ((atHome_message f).otherwise hdrop).bind fun _ => (atHome_raise _).otherwise hdrop
  cases f
  case died v =>
    exact (Run.Moves.change fun m => atHome_stores.mortal m v.handle).bind fun _ =>
      atHome_raiseValue v.handle
  all_goals exact htell

/-- The end of a closure that has kept the stacks. -/
theorem concluded_lands (name : String) (ended : Except Failure (List Handle)) {args : List Handle}
    (hm : (b.topped args).Kept m.interp.toStacks) :
    Lands b (fun _ s => ∃ n, b.Left n s) m (concluded name b.values.length (.ok ended) m) := by
  obtain ⟨b₁, hb₁, hs₁⟩ := hm.of_topped
  cases ended with
  | ok results =>
    rw [← hb₁.values]
    refine ((putResults_lands results hs₁).lower hb₁.grown).mono fun _ s h => ?_
    obtain ⟨n, hn⟩ := h
    exact ⟨n, hb₁.left hn⟩
  | error f =>
    refine (atHome_lands (raiseFailure_moves name f) ((b.grown_topped args).trans hm.grown)).mono
      fun _ s h => ⟨args.length, args, rfl, hm.trans h⟩

/-- The closure of a sub is one of the library. -/
theorem exists_closures {sub : Handle} {closure : Closure} (hc : lib.closure? m sub = some closure) :
    ∃ name, lib.closures name = some closure := by
  unfold Library.closure? at hc
  split at hc
  next name _ _ => exact ⟨name, hc⟩
  next => cases hc

theorem enterClosure_lands (hlib : lib.Disciplined) (hr : r.Balanced) (sub : Handle)
    {args : List Handle} (hm : m.interp.toStacks = b.withArguments args) :
    Lands b (fun _ s => ∃ n, b.Left n s) m (lib.enterClosure r sub m) := by
  have hdrop := dropMark_of_withArguments hm
  have hhere : m.dropMark.here = m.here := rfl
  rw [enterClosure_apply, topMark_of_withArguments hm]
  refine Lands.of_here ?_ hhere
  cases hc : lib.closure? m sub with
  | none => exact raise_lands _ (hdrop ▸ b.grown_topped args)
  | some closure =>
    obtain ⟨name, hname⟩ := exists_closures hc
    have hclosure := hlib.closures hname r hr ⟨m.above b.values.length, m.interp.want⟩
    have hend := atHome_iff.1 (atHome_outcome.1 hclosure) m.dropMark
    rw [hdrop] at hend
    show Lands b _ m.dropMark ((_ >>= concluded (subName m sub) b.values.length) m.dropMark)
    rw [Run.bind_apply, Run.attempt]
    cases hrun : (closure r ⟨m.above b.values.length, m.interp.want⟩).run m.dropMark with
    | ok ended m₁ =>
      rw [hrun] at hend
      exact (concluded_lands _ ended hend.2).of_here hend.1
    | error e m₁ =>
      rw [hrun] at hend
      have hb : b.Grown m₁.interp.toStacks := (b.grown_topped args).trans hend.2
      cases e with
      | aborted message => exact (raise_lands _ hb).of_here hend.1
      | raised | exhausted => exact ⟨hend.1, hb⟩

theorem answersCalls (hlib : lib.Disciplined) (hr : r.Balanced) :
    AnswersCalls fun entry sub => lib.run r entry sub := by
  intro m b args entry sub hm
  cases entry with
  | closure => exact enterClosure_lands hlib hr sub hm
  | routine name =>
    simp only [run]
    cases hb : lib.routines name with
    | none =>
      refine ⟨rfl, args.length, args, rfl, ?_⟩
      rw [dropMark_of_withArguments hm]
      exact .refl _
    | some body => exact hlib.routines hb r hr sub hm

theorem boot_moves (hr : r.Balanced) (step : BootStep) : (boot r step).Moves atHome := by
  cases step with
  | define name closure =>
    have hnew (m : Machine) :
        atHome.returns m (m.newSub name .closure "host" (some (.closure closure []))).2 :=
      atHome_of_returns (Still.newSub m _ _ _ _).returns
    exact ((Run.Moves.modifyGet hnew).bind fun sub => atHome_drops.hold sub).bind fun v =>
      Run.Moves.change fun m => atHome_drops.drop m v
  | fail message => exact atHome_raise _
  | require name => exact hr.require name
  | evaluate source =>
    have hcall : (Host.callVoid r (.source source) []).Moves atHome :=
      hr.hostCall (.source source) [] .void fun _ => .pure ()
    refine Run.Moves.bind (atHome_outcome.1 hcall) fun ended => ?_
    cases ended with
    | ok u => exact .pure u
    | error f => exact Run.Moves.change fun m => atHome_drops.dropAll f.held m

theorem require_moves {step : BootStep → Run Unit} (hstep : ∀ s, (step s).Moves atHome)
    (name : String) : (requireWith step name).Moves atHome := by
  unfold requireWith
  refine (Run.Moves.look _).bind fun i => .ite (.pure ()) ?_
  split
  next module _ =>
    refine (Run.Moves.change fun m => ?_).bind fun _ =>
      (Run.Moves.forM hstep module.steps).bind fun _ => Run.Moves.change fun m => ?_
    all_goals exact atHome_of_returns (Still.returns ⟨rfl, rfl, rfl⟩)
  next => exact atHome_raise _

/-- What running code can start is balanced at every nesting. -/
theorem reentry_balanced (hlib : lib.Disciplined) (depth : Nat) : (lib.reentry depth).Balanced := by
  induction depth with
  | zero =>
    exact ⟨fun m b args _ _ _ hm => ⟨rfl, hm ▸ b.grown_withArguments args⟩,
      fun m _ _ _ => ⟨rfl, .refl _⟩, fun m _ _ => ⟨rfl, .refl _⟩, fun _ m => ⟨rfl, .refl _⟩⟩
  | succ depth ih =>
    exact {
      call := fun _ _ _ target _ hflags hm =>
        callWith_lands (answersCalls hlib ih) target hflags hm
      callBare := fun _ target _ hflags => callWith_bare_lands (answersCalls hlib ih) target hflags
      evaluate := fun m source want => ih.evaluate_lands source want m
      require := require_moves (boot_moves ih) }

end Library

namespace Routine

variable {args : List Handle}

/-- A routine has taken its mark off. -/
theorem takeMark_lands {f : Nat → Run Unit} (hm : m.interp.toStacks = b.withArguments args)
    (hf : ∀ m, m.interp.toStacks = b.topped args →
      Lands b (fun _ s => ∃ n, b.Left n s) m (f b.values.length m)) :
    Lands b (fun _ s => ∃ n, b.Left n s) m ((takeMark >>= f) m) := by
  have htake : takeMark m = .ok b.values.length m.dropMark := by
    rw [← topMark_of_withArguments hm]
    rfl
  rw [Run.bind_apply, htake]
  exact (hf m.dropMark (dropMark_of_withArguments hm)).of_here rfl

theorem answer_lands (results : List Scalar) (hm : m.interp.toStacks = b.topped args) :
    Lands b (fun _ s => ∃ n, b.Left n s) m (answer b.values.length results m) := by
  refine (pushes_lands (fun s m b n hm => ?_) results (truncate_left hm)).of_here rfl
  have hmortal : m.interp.toStacks.Kept (m.allocMortal (.scalar s)).2.interp.toStacks :=
    (atHome.trans (atHome_of_returns (steady_alloc m _)) (atHome_stores.mortal _ _)).2
  exact ⟨rfl, n + 1, push_left (hm.kept hmortal) _⟩

theorem left_topped (hm : m.interp.toStacks = b.topped args) :
    ∃ n, b.Left n m.interp.toStacks :=
  ⟨args.length, args, rfl, by rw [hm]; exact .refl _⟩

/-- The arguments stay as results. -/
theorem assigns_lands (hm : m.interp.toStacks = b.topped args) (target : Option Handle) :
    Lands b (fun _ s => ∃ n, b.Left n s) m ((match target with
      | some h => store h (.ofInt64 99)
      | none => pure () : Run Unit) m) := by
  cases target with
  | none => exact ⟨rfl, left_topped hm⟩
  | some h =>
    refine (atHome_lands (atHome_stores.store h (by simp)) (hm ▸ b.grown_topped args)).mono fun _ s hs => ?_
    obtain ⟨n, hn⟩ := left_topped hm
    exact ⟨n, hn.kept hs⟩

/-- The native routines one by one. -/
theorem named_cases {name : String} {body : Reentry → Handle → Run Unit}
    (hb : named.lookup name = some body) : body = three ∨ body = dies ∨ body = info ∨
      body = assigns ∨ body = identity ∨ body = nothing ∨ body = givesUp := by
  obtain ⟨before, after, hnamed, -⟩ := List.lookup_eq_some_iff.1 hb
  have hmem : (name, body) ∈ named := by
    rw [hnamed]
    exact List.mem_append_right before List.mem_cons_self
  simp only [named, List.mem_cons, Prod.mk.injEq, List.not_mem_nil, or_false] at hmem
  exact hmem.imp And.right <| .imp And.right <| .imp And.right <| .imp And.right <|
    .imp And.right <| .imp And.right And.right

/-- The native routines take their mark off and leave results in place of their arguments. -/
theorem named_lands {name : String} {body : Reentry → Handle → Run Unit}
    (hb : named.lookup name = some body) (r : Reentry) (sub : Handle)
    (hm : m.interp.toStacks = b.withArguments args) :
    Lands b (fun _ s => ∃ n, b.Left n s) m (body r sub m) := by
  rcases named_cases hb with rfl | rfl | rfl | rfl | rfl | rfl | rfl
  · exact takeMark_lands hm fun m hm => answer_lands _ hm
  · exact takeMark_lands hm fun m hm => raise_lands _ (hm ▸ b.grown_topped args)
  · exact takeMark_lands hm fun m hm => answer_lands _ hm
  · exact takeMark_lands hm fun m hm => assigns_lands hm _
  · exact takeMark_lands hm fun m hm => ⟨rfl, left_topped hm⟩
  · exact takeMark_lands hm fun m hm => answer_lands _ hm
  · exact takeMark_lands hm fun m hm => ⟨rfl, hm ▸ b.grown_topped args⟩

end Routine

/-- The native routines have a manner that leaves the stack of values and the marks to them. -/
theorem Manner.Stores.routine {M : Manner} (hM : M.Stores) (hdrop : ∀ m, M.returns m m.dropMark)
    (hcut : ∀ m n, M.returns m (m.truncate n)) (hpush : ∀ m h, M.returns m (m.push h)) {name : String}
    {body : Reentry → Handle → Run Unit} (hb : Routine.named.lookup name = some body) (r : Reentry)
    (sub : Handle) : (body r sub).Moves M := by
  have htake {f : Nat → Run Unit} (hf : ∀ mark, (f mark).Moves M) :
      (Routine.takeMark >>= f).Moves M :=
    ((Run.Moves.look _).bind fun mark =>
      (Run.Moves.change hdrop).bind fun _ => .pure mark).bind hf
  have hanswer (mark : Nat) {results : List Scalar}
      (hproper : ∀ s ∈ results, s.Formed ∧ s.Normal := by simp) :
      (Routine.answer mark results).Moves M := by
    refine (Run.Moves.change fun m => hcut m mark).bind fun _ =>
      .forM_mem fun s hs => .change fun m => ?_
    exact M.trans (hM.alloc m (Body.proper_scalar.2 (hproper s hs)))
      (M.trans (hM.mortal _ _) (hpush _ _))
  rcases Routine.named_cases hb with rfl | rfl | rfl | rfl | rfl | rfl | rfl
  · exact htake fun mark => hanswer mark
  · exact htake fun _ m => hM.raise m (.said "boom\n") (Scalar.truth_ofText_of_two_le (by decide))
  · exact htake fun mark => Run.Moves.get.bind fun m => hanswer mark
  · refine htake fun mark => (Run.Moves.look _).bind fun args => ?_
    cases args.head? with
    | some h => exact hM.store h (by simp)
    | none => exact .pure ()
  · exact htake fun _ => .pure ()
  · exact htake fun mark => hanswer mark
  · exact htake fun _ => .giveUp (by simp)

namespace Closure

/-- Run source text and answer with its result. -/
def relay : Closure := typed [.string] fun r (source, _) => do
  return [Datum.text (← Host.callScalar r .string (.source source) [])]

/-- Run source text and tell whether it has failed. -/
def rescue : Closure := typed [.string] fun r (source, _) => do
  match ← Bridge.ofRun (Host.callVoid r (.source source) []).outcome with
  | .ok () => return [Datum.bool true]
  | .error f =>
    Bridge.ofRun (Run.change (·.dropAll f.held))
    return [Datum.bool false]

section

variable {M : Manner} (hM : M.Drops) (hvalue : ∀ d : Datum, d.toValue.Moves M)

include hM hvalue

theorem moves_relay (hcall : ∀ text, (Host.callScalar r .string (.source text) []).Moves M)
    (args : Arguments) : (relay r args).Moves M := by
  refine hM.typed hvalue _ (fun vs => ?_) args
  exact (hcall vs.1).bind fun s => .pure [Datum.text s]

theorem moves_rescue (hcall : ∀ text, (Host.callVoid r (.source text) []).run.Moves M)
    (args : Arguments) : (rescue r args).Moves M := by
  refine hM.typed hvalue _ (fun vs => ?_) args
  refine Bridge.Moves.bind (.ofRun (hcall vs.1)) fun ended => ?_
  cases ended with
  | ok u => exact .pure [Datum.bool true]
  | error f =>
    exact (Bridge.Moves.ofRun (.change fun m => M.returns_of_cleans (hM.dropAll f.held m))).bind
      fun _ => .pure [Datum.bool false]

end

theorem relay_moves (hr : r.Balanced) (args : Arguments) : (relay r args).Moves atHome :=
  moves_relay atHome_drops atHome_stores.gives.toValue
    (fun text => hr.hostCall (.source text) [] .scalar (atHome_drops.collectScalar .string)) args

theorem rescue_moves (hr : r.Balanced) (args : Arguments) : (rescue r args).Moves atHome :=
  moves_rescue atHome_drops atHome_stores.gives.toValue (fun text => atHome_outcome.1
    (hr.hostCall (.source text) [] .void Manner.Drops.collectNothing)) args

end Closure

namespace Library

/-- The native routines, and closures that run source text. -/
def relays : Library where
  routines := (List.lookup · Routine.named)
  closures := (List.lookup · [("relay", Closure.relay), ("rescue", Closure.rescue)])

theorem closures_relays {name : String} {closure : Closure}
    (hc : relays.closures name = some closure) :
    closure = Closure.relay ∨ closure = Closure.rescue := by
  obtain ⟨before, after, hnamed, -⟩ := List.lookup_eq_some_iff.1 hc
  have hmem : (name, closure) ∈ [("relay", Closure.relay), ("rescue", Closure.rescue)] := by
    rw [hnamed]
    exact List.mem_append_right before List.mem_cons_self
  simp only [List.mem_cons, Prod.mk.injEq, List.not_mem_nil, or_false] at hmem
  exact hmem.imp And.right And.right

theorem relays_disciplined : relays.Disciplined where
  routines hb r _ _ _ _ sub hm := Routine.named_lands hb r sub hm
  closures hc r hr args := by
    rcases closures_relays hc with rfl | rfl
    · exact Closure.relay_moves hr args
    · exact Closure.rescue_moves hr args

/-- Calls from host code restore the stacks, whatever they invoke, whatever happens in them and
however deep calls are nested, with any way to collect the results that keeps the stacks. The ways
to collect one result, all of them and none do. -/
theorem hostCalls_restore {lib : Library} (hlib : lib.Disciplined) (depth : Nat) (target : Target)
    (args : List Datum) (want : Want) :
    (∀ {α : Type} {collect : List Handle → Bridge α}, (∀ hs, (collect hs).Moves atHome) →
      Host.Restores (lib.reentry depth) target args want collect) ∧
    (∀ t, Host.Restores (lib.reentry depth) target args .scalar (Host.collectScalar t)) ∧
    Host.Restores (lib.reentry depth) target args want Host.collectList ∧
    Host.Restores (lib.reentry depth) target args .void Host.collectNothing := by
  have hr := reentry_balanced hlib depth
  refine ⟨fun hc => hr.restores target args want hc, fun t => ?_, ?_, ?_⟩
  · exact hr.restores target args .scalar (atHome_drops.collectScalar t)
  · exact hr.restores target args want atHome_drops.collectList
  · exact hr.restores target args .void Manner.Drops.collectNothing

/-- An interpreter with a sub that runs source text. -/
def relaying : Machine :=
  (fresh.newSub (some "relay") .closure "host" (some (.closure "relay" []))).2

/-- A call of a closure that runs source text in turn restores the stacks. -/
theorem relaying_restored : relays.Disciplined ∧ ∃ v before m',
    (Host.callList (relays.reentry 4) (.name "relay") [.signed 3] .list).run relaying
      = .ok (.ok [v]) m' ∧ relaying.Restored before m' := by
  have hone : (Host.callList (relays.reentry 4) (.name "relay") [.signed 3] .list).run.Yields relaying
      fun r _ => (r.map List.length).toOption = some 1 := by decide +kernel
  have hrestores := (hostCalls_restore relays_disciplined 4 (.name "relay") [.signed 3] .list).2.2.1
  obtain ⟨_ | vs, m', hrun, hlen⟩ := hone.exists_ok
  · cases hlen
  · obtain ⟨before, -, hbefore⟩ := hrestores relaying _ m' hrun
    obtain ⟨v, rfl⟩ := List.length_eq_one_iff.1 (Option.some.inj hlen)
    exact ⟨relays_disciplined, v, before, m', hrun, hbefore⟩

end Library

end ValueMachine

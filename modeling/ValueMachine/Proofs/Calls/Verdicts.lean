import ValueMachine.Proofs.Calls.Outcomes

/-! The verdict on a call from host code. The call runs a body of its own in a trap, and whether it
fails with an exception is not decided by how that body ends but by the truth of `$@` afterwards.
A body that completes normally makes the call fail where a nested trap has left a true value there,
and a body that raises lets the call return where the value that it has raised is false. -/

namespace ValueMachine

open Machine Manner

variable {m m' : Machine} {P : Promise} {quiet : Prop} {α : Type}

/-- Source text that is called assigns to globals of a kind only. -/
def Target.AssignsOnly (free : String → Prop) : Target → Prop
  | .source text => Source.AssignsOnly free text
  | _ => True

namespace Library

/-- A sub is about to be called: the height at which its trap is rooted, and the body in the trap. -/
def openSub (lib : Library) (depth : Nat) (flags : CallFlags) (target : Handle) :
    Run (Nat × Run Nat) := do
  let mark ← Run.look (·.topMark)
  Run.change (·.dropMark)
  return (mark, invoke (fun e sub => lib.run (lib.reentry depth) e sub) target mark flags)

/-- A target is about to be started. -/
def openTarget (lib : Library) (depth : Nat) (want : Want) : Target → Run (Nat × Run Nat)
  | .sub h => lib.openSub depth (.trapping want) h
  | .name n => do
    let h ← modifyGet (·.allocMortal (.scalar (.ofText n)))
    lib.openSub depth (.trapping want) h
  | .method n => do
    let h ← modifyGet (·.allocMortal (.scalar (.ofText n)))
    lib.openSub depth { CallFlags.trapping want with method := true } h
  | .source text => do
    let root ← Run.look (·.height)
    return (root, Source.results (lib.reentry depth) text root want)

/-- A call from host code has opened its scope and passed its arguments. -/
def openCall (lib : Library) (depth : Nat) (target : Target) (args : List Datum) (want : Want) :
    Run (Nat × Run Nat) := do
  Run.change (·.enter.saveTemps)
  if target.takesArguments then
    Run.change (·.pushMark)
    args.forM Host.pass
  lib.openTarget depth want target

/-- The own body of a call from host code is run, with a cleared `$@`, and ends in a way. -/
def BodyEnds (lib : Library) (depth : Nat) (target : Target) (args : List Datum) (want : Want)
    (m : Machine) (r : EStateM.Result Exit Machine Nat) : Prop :=
  ∃ root body m₁, lib.openCall depth target args want m = .ok (root, body) m₁ ∧
    body (m₁.setError (.ofByteText ⟨[], false⟩)) = r

variable {lib : Library} {depth : Nat} {target : Target} {args : List Datum} {want : Want}

theorem targetRun_eq (lib : Library) (depth : Nat) (target : Target) (want : Want) :
    target.run (lib.reentry (depth + 1)) want
      = lib.openTarget depth want target >>= fun p => trapped p.1 want p.2 := by
  have hsub (h : Handle) (method : Bool) :
      (lib.reentry (depth + 1)).call h { CallFlags.trapping want with method := method }
        = lib.openSub depth { CallFlags.trapping want with method := method } h
          >>= fun p => trapped p.1 want p.2 := by
    show callWith _ _ _ = _
    rw [callWith_eq]
    simp [openSub, CallFlags.trapping, callScoped, callAt]
  cases target with
  | sub h => exact hsub h false
  | name n =>
    show (modifyGet _ >>= fun h => (lib.reentry (depth + 1)).call h _ : Run Nat) = _
    simp only [openTarget, bind_assoc]
    exact bind_congr fun h => hsub h false
  | method n =>
    show (modifyGet _ >>= fun h => (lib.reentry (depth + 1)).call h _ : Run Nat) = _
    simp only [openTarget, bind_assoc]
    exact bind_congr fun h => hsub h true
  | source text => rfl

/-- A call from host code: it is opened, its body is run in a trap, and the outcome is read off. -/
theorem inScope_eq (lib : Library) (depth : Nat) (target : Target) (args : List Datum)
    (want : Want) (collect : List Handle → Bridge α) (m : Machine) :
    Host.inScope (lib.reentry (depth + 1)) target args want collect m.enter.saveTemps
      = (lib.openCall depth target args want >>= fun p =>
          trapped p.1 want p.2 >>= fun count => Host.outcome count collect) m := by
  rw [Host.inScope, Host.start, targetRun_eq]
  cases target <;> simp [openCall, Target.takesArguments]

/-! ### The body of a call -/

theorem openSub_moves (lib : Library) (depth : Nat) (flags : CallFlags) (h : Handle) :
    (lib.openSub depth flags h).Moves (minding P quiet) :=
  (Run.Moves.look _).bind fun _ =>
    (Run.Moves.change fun _ => minding_returns (drifts_still (by rfl))).bind fun _ => .pure _

theorem openCall_moves (lib : Library) (depth : Nat) (target : Target) (args : List Datum)
    (want : Want) : (lib.openCall depth target args want).Moves (minding P quiet) := by
  have hnamed (n : String) : (modifyGet (·.allocMortal (.scalar (.ofText n))) : Run Handle).Moves
      (minding P quiet) := Run.Moves.modifyGet fun m => minding_returns fun hm => by
    have halloc : m.Drifts (m.alloc (.scalar (.ofText n))).2 := .alloc hm.tame (by simp)
    exact halloc.trans (drifts_still (by rfl) (hm.drifts halloc))
  have htarget : (lib.openTarget depth want target).Moves (minding P quiet) := by
    cases target with
    | sub h => exact openSub_moves lib depth _ h
    | name n => exact (hnamed n).bind fun h => openSub_moves lib depth _ h
    | method n => exact (hnamed n).bind fun h => openSub_moves lib depth _ h
    | source text => exact (Run.Moves.look _).bind fun root => .pure _
  refine (Run.Moves.change fun _ => minding_returns (drifts_still (by rfl))).bind fun _ => ?_
  have hpass : (do Run.change (·.pushMark); args.forM Host.pass : Run Unit).Moves
      (minding P quiet) :=
    (Run.Moves.change fun _ => minding_returns (drifts_still (by rfl))).bind fun _ =>
      Run.Moves.forM Reentry.Minds.pass args
  cases target
  case source text => exact htarget
  all_goals exact hpass.bind fun _ => htarget

theorem openTarget_ok {p : Nat × Run Nat} (hlib : lib.Minds P) (hquiet : quiet → P.quiet)
    (htarget : target.AssignsOnly (Promise.Free quiet))
    (hopen : lib.openTarget depth want target m = .ok p m') : p.2.Moves (minding P quiet) := by
  have hr := reentry_minds hlib depth
  have hsub {flags : CallFlags} {h : Handle} {m : Machine}
      (hopen : lib.openSub depth flags h m = .ok p m') : p.2.Moves (minding P quiet) := by
    cases hopen
    exact invoke_moves (fun entry sub => minding_loosen (run_moves hlib hr entry sub) hquiet) h _ flags
  cases target with
  | sub h => exact hsub hopen
  | name n => exact hsub (m := (m.allocMortal (.scalar (.ofText n))).2) hopen
  | method n => exact hsub (m := (m.allocMortal (.scalar (.ofText n))).2) hopen
  | source text =>
    cases hopen
    exact hr.sourceResults hquiet htarget _ want

theorem openCall_ok {p : Nat × Run Nat} (hopen : lib.openCall depth target args want m = .ok p m') :
    ∃ m₁, lib.openTarget depth want target m₁ = .ok p m' := by
  rw [openCall, Run.change_bind] at hopen
  cases target
  case source text => exact ⟨_, hopen⟩
  all_goals
    obtain ⟨_, m₁, -, hopen⟩ := Run.bind_ok hopen
    obtain ⟨_, m₂, -, hopen⟩ := Run.bind_ok hopen
    exact ⟨m₂, hopen⟩

/-- The body of a call is run in a sound machine, and ends as the promise says. -/
theorem BodyEnds.minds {r : EStateM.Result Exit Machine Nat} (hlib : lib.Minds P)
    (hquiet : quiet → P.quiet) (htarget : target.AssignsOnly (Promise.Free quiet)) (hm : m.Sound P)
    (hbody : lib.BodyEnds depth target args want m r) :
    ∃ m₁ : Machine, m₁.Sound P ∧ m₁.errorTrue = false ∧ (minding P quiet).Ends m₁ r := by
  obtain ⟨root, body, m₁, hopen, rfl⟩ := hbody
  obtain ⟨m₀, htargeted⟩ := openCall_ok hopen
  have hmoves : (lib.openCall depth target args want).Moves (minding P quiet) :=
    openCall_moves lib depth target args want
  have hm₁ := hmoves.ok hopen hm
  exact ⟨_, hm₁.1.clear.1, hm₁.1.clear.2, openTarget_ok hlib hquiet htarget htargeted _⟩

/-- What completes leaves its results to be collected. -/
theorem BodyEnds.inScope_of_ok {n : Nat} {m₂ : Machine}
    (hbody : lib.BodyEnds depth target args want m (.ok n m₂)) (collect : List Handle → Bridge α) :
    Host.inScope (lib.reentry (depth + 1)) target args want collect m.enter.saveTemps
      = Host.outcome n collect m₂ := by
  obtain ⟨root, body, m₁, hopen, hbody⟩ := hbody
  rw [inScope_eq, Run.bind_apply, hopen]
  simp only [Run.bind_apply, trapped_apply, hbody]

/-- The trap turns a raised exception into a return. -/
theorem BodyEnds.inScope_of_raised {m₂ : Machine} (hm₂ : m₂.Sound P)
    (hbody : lib.BodyEnds depth target args want m (.error .raised m₂))
    (collect : List Handle → Bridge α) : ∃ n m₃,
    Host.inScope (lib.reentry (depth + 1)) target args want collect m.enter.saveTemps
      = Host.outcome n collect m₃ ∧ m₃.Sound P ∧ m₃.errorTrue = m₂.errorTrue := by
  obtain ⟨root, body, m₁, hopen, hbody⟩ := hbody
  rw [inScope_eq, Run.bind_apply, hopen]
  by_cases hwant : want = .scalar
  · simp only [Run.bind_apply, trapped_apply, hbody, caught, if_pos hwant]
    exact ⟨1, _, rfl, hm₂.drifts (drifts_still (by rfl) hm₂), rfl⟩
  · simp only [Run.bind_apply, trapped_apply, hbody, caught, if_neg hwant]
    exact ⟨0, _, rfl, hm₂.drifts (drifts_still (by rfl) hm₂), rfl⟩

theorem BodyEnds.inScope_of_error {e : Exit} {m₂ : Machine} (he : e ≠ .raised)
    (hbody : lib.BodyEnds depth target args want m (.error e m₂))
    (collect : List Handle → Bridge α) :
    Host.inScope (lib.reentry (depth + 1)) target args want collect m.enter.saveTemps
      = .error e m₂ := by
  obtain ⟨root, body, m₁, hopen, hbody⟩ := hbody
  rw [inScope_eq, Run.bind_apply, hopen]
  cases e with
  | raised => exact absurd rfl he
  | _ => simp only [Run.bind_apply, trapped_apply, hbody]

end Library

/-! ### The verdict -/

/-- A call from host code fails with an exception. -/
def Host.Dies (r : Reentry) (target : Target) (args : List Datum) (want : Want)
    (collect : List Handle → Bridge α) (m : Machine) : Prop :=
  ∃ v m', (Host.call r target args want collect).run m = .ok (.error (.died v)) m'

/-- Failures are those of the boundary itself. -/
def Manner.boundary : Manner where
  returns _ _ := True
  exits _ _ _ := True
  fails f _ _ := ∀ v, f ≠ .died v
  cleans _ _ := True
  refl _ := trivial
  trans _ _ := trivial
  returns_of_cleans _ := trivial
  cleans_refl _ := trivial
  cleans_trans _ _ := trivial
  gives_up _ _ _ := trivial
  exits_of_returns _ _ := trivial
  exits_cleans _ _ := trivial
  fails_of_returns _ h := h
  fails_cleans h _ := h
  fails_atArgument {_ _ f} i h v hv := by cases f <;> cases hv

theorem Manner.boundary_drops : boundary.Drops where
  alloc _ _ _ := trivial
  newCopy h m := by cases newCopy h m <;> trivial
  retain _ _ := trivial
  mortal _ _ := trivial
  global _ _ _ := trivial
  setArray _ _ := trivial
  setHash _ _ := trivial
  name _ _ _ := trivial
  release _ _ := trivial
  raise _ _ _ := trivial
  readHooks h m := by cases runReadHooks h m <;> trivial
  fail _ hf := hf
  drop _ _ := trivial

namespace Host

/-- The truth of `$@` decides, whichever way the results are collected. -/
theorem dies_iff {r : Reentry} {target : Target} {args : List Datum} {want : Want}
    {collect : List Handle → Bridge α} (hc : ∀ hs, (collect hs).Moves boundary) {n : Nat}
    {m₂ : Machine} (hm₂ : m₂.Sound P)
    (hscope : inScope r target args want collect m.enter.saveTemps = outcome n collect m₂) :
    Dies r target args want collect m ↔ m₂.errorTrue = true := by
  obtain ⟨htrue, hfalse⟩ := hm₂.outcome n collect
  unfold Dies
  rw [call_apply, hscope]
  constructor
  · rintro ⟨v, m', hcall⟩
    by_contra hq
    obtain ⟨m₃, hout, -⟩ := hfalse (by simpa using hq)
    have hend := hc (m₃.top n) m₃
    rw [hout] at hcall
    rcases hr : (collect (m₃.top n)).run m₃ with (f | a) | e
    all_goals rw [hr] at hcall hend; cases hcall
    exact hend v rfl
  · intro hq
    obtain ⟨v, m₃, hout, -⟩ := htrue hq
    exact ⟨v, _, by rw [hout]⟩

/-- A call in void context that does not fail with an exception returns. -/
theorem returns_of_not_true {r : Reentry} {target : Target} {args : List Datum} {want : Want}
    {n : Nat} {m₂ : Machine} (hm₂ : m₂.Sound P)
    (hscope : inScope r target args want collectNothing m.enter.saveTemps
      = outcome n collectNothing m₂) (hq : m₂.errorTrue = false) :
    ∃ m', (call r target args want collectNothing).run m = .ok (.ok ()) m' := by
  obtain ⟨m₃, hout, -⟩ := (hm₂.outcome n collectNothing).2 hq
  rw [call_apply, hscope, hout]
  exact ⟨_, rfl⟩

end Host

namespace Library

variable {lib : Library} {depth : Nat} {target : Target}

/-- A call from host code whose own body has completed fails with an exception exactly where that
body has left a true `$@`, whichever way the results are collected. Bodies and modules that leave a
false `$@` false, and a program that does not assign to it, leave it false. -/
theorem completed_dies_iff (hlib : lib.Minds P) (depth : Nat)
    (htarget : target.AssignsOnly (Promise.Free P.quiet)) (args : List Datum) (want : Want)
    (hm : m.Sound P) {n : Nat} {m₂ : Machine}
    (hbody : lib.BodyEnds depth target args want m (.ok n m₂)) :
    (∀ {α : Type} {collect : List Handle → Bridge α}, (∀ hs, (collect hs).Moves boundary) →
      (Host.Dies (lib.reentry (depth + 1)) target args want collect m ↔ m₂.errorTrue = true)) ∧
    (∀ t, Host.Dies (lib.reentry (depth + 1)) target args want (Host.collectScalar t) m
      ↔ m₂.errorTrue = true) ∧
    (Host.Dies (lib.reentry (depth + 1)) target args want Host.collectList m
      ↔ m₂.errorTrue = true) ∧
    (Host.Dies (lib.reentry (depth + 1)) target args want Host.collectNothing m
      ↔ m₂.errorTrue = true) ∧
    (P.quiet → m₂.errorTrue = false) := by
  obtain ⟨m₁, hm₁, hclear, hend⟩ := hbody.minds hlib id htarget hm
  obtain ⟨hm₂, hquiet⟩ := hend hm₁
  have hiff {α : Type} {collect : List Handle → Bridge α}
      (hc : ∀ hs, (collect hs).Moves boundary) :=
    Host.dies_iff hc hm₂ (hbody.inScope_of_ok collect)
  exact ⟨hiff, fun t => hiff (boundary_drops.collectScalar t), hiff boundary_drops.collectList,
    hiff Manner.Drops.collectNothing, fun hq => hquiet hq hclear⟩

/-- A closure that runs source text completes, and the call of it does not fail. -/
theorem relaying_not_dies : relayer.Minds ⟨True, False⟩ ∧ relaying.Sound ⟨True, False⟩ ∧ ∃ n m₂,
    relayer.BodyEnds 3 (.name "relay") [.signed 3] .list relaying (.ok n m₂) ∧
      ¬Host.Dies (relayer.reentry 4) (.name "relay") [.signed 3] .list Host.collectList relaying := by
  refine ⟨relayer_minds _, relaying_sound _, ?_⟩
  have hends : (relayer.openCall 3 (.name "relay") [.signed 3] .list).Yields relaying fun p m₁ =>
      p.2.Yields (m₁.setError (.ofByteText ⟨[], false⟩)) fun _ _ => True := by decide +kernel
  obtain ⟨p, m₁, hopen, hends⟩ := hends.exists_ok
  obtain ⟨n, m₂, hrun, -⟩ := hends.exists_ok
  have hbody : relayer.BodyEnds 3 (.name "relay") [.signed 3] .list relaying (.ok n m₂) :=
    ⟨p.1, p.2, m₁, hopen, hrun⟩
  have hfree : (Target.name "relay").AssignsOnly (Promise.Free True) := trivial
  obtain ⟨-, -, hiff, -, hquiet⟩ := completed_dies_iff (relayer_minds ⟨True, False⟩) 3 hfree
    [.signed 3] .list (relaying_sound _) hbody
  refine ⟨n, m₂, hbody, fun hdies => ?_⟩
  rw [hiff, hquiet trivial] at hdies
  cases hdies

/-- What goes wrong in the closure of a sub is raised where the sub is called, and is there to be
read in `$@` unless it is an exception of the machine with a false value. -/
def Reports (lib : Library) (r : Reentry) (sub : Handle) (m : Machine) : Prop :=
  ∀ closure, lib.closure? m sub = some closure →
    match (closure r ⟨m.above m.topMark, m.interp.want⟩).run m.dropMark with
    | .ok (.ok _) _ => True
    | .ok (.error f) m₁ => ∃ m', lib.enterClosure r sub m = .error .raised m' ∧
      ((∀ v, f = .died v → m₁.Tells v.handle) → m'.Loud)
    | .error (.aborted _) _ => ∃ m', lib.enterClosure r sub m = .error .raised m' ∧ m'.Loud
    | .error e m₁ => lib.enterClosure r sub m = .error e m₁

theorem reports (hlib : lib.Minds P) {r : Reentry} (hr : r.Minds P) (hm : m.Sound P)
    (sub : Handle) : lib.Reports r sub m := by
  intro closure hc
  have hend := closures_moves hlib hr hc ⟨m.above m.topMark, m.interp.want⟩ m.dropMark
  have hm₀ : m.dropMark.Sound P := hm.drifts (drifts_still (by rfl) hm)
  have hentered : lib.enterClosure r sub m =
      ((closure r ⟨m.above m.topMark, m.interp.want⟩).run.attempt
        >>= concluded (subName m sub) m.topMark) m.dropMark := by
    rw [enterClosure_apply, hc]
  rw [hentered, Run.bind_apply, Run.attempt]
  rcases hrun : (closure r ⟨m.above m.topMark, m.interp.want⟩).run m.dropMark with (f | a) | e
  all_goals rename_i m₁; rw [hrun] at hend
  · obtain ⟨m', hr, -, hl⟩ := raiseFailure_raises (hend hm₀).1 (subName m sub) f
    exact ⟨m', hr, hl⟩
  · trivial
  · cases e with
    | aborted message =>
      have hraise := Sound.raise (hend hm₀).1 (f := .said (subName m sub ++ " panicked: "
        ++ message.getD "unknown panic" ++ "\n")) (Scalar.truth_ofText_line _)
      exact ⟨_, rfl, hraise.2⟩
    | raised => rfl
    | exhausted => rfl

/-- Whatever goes wrong in a closure is raised. Where an exception arrives at the own body of a call
from host code, the call fails exactly if the value that was raised is true, whichever way the
results are collected, and returns in void context if it is false; no other exit is stopped. Bodies
and modules that raise true values only leave a true `$@`, unless it has been freed. -/
theorem raised_dies_iff (hlib : lib.Minds P) (depth : Nat) (target : Target) (args : List Datum)
    (want : Want) :
    (∀ sub m, m.Sound P → lib.Reports (lib.reentry depth) sub m) ∧
    (∀ {m e m₂}, m.Sound P → lib.BodyEnds depth target args want m (.error e m₂) →
      if e = .raised then
        (∀ {α : Type} {collect : List Handle → Bridge α}, (∀ hs, (collect hs).Moves boundary) →
          (Host.Dies (lib.reentry (depth + 1)) target args want collect m
            ↔ m₂.errorTrue = true)) ∧
        (∀ t, Host.Dies (lib.reentry (depth + 1)) target args want (Host.collectScalar t) m
          ↔ m₂.errorTrue = true) ∧
        (Host.Dies (lib.reentry (depth + 1)) target args want Host.collectList m
          ↔ m₂.errorTrue = true) ∧
        (Host.Dies (lib.reentry (depth + 1)) target args want Host.collectNothing m
          ↔ m₂.errorTrue = true) ∧
        (m₂.errorTrue = false → ∃ m', (Host.call (lib.reentry (depth + 1)) target args want
          Host.collectNothing).run m = .ok (.ok ()) m') ∧
        (P.loud → m₂.Loud)
      else ∀ {α : Type} (collect : List Handle → Bridge α),
        (Host.call (lib.reentry (depth + 1)) target args want collect).run m = .error e m₂) := by
  refine ⟨fun sub m hm => reports hlib (reentry_minds hlib depth) hm sub, fun {m e m₂} hm hbody => ?_⟩
  split
  next he =>
    subst he
    have hfree : target.AssignsOnly (Promise.Free False) := by
      have htrue : Promise.Free False = fun _ => True := funext fun _ => by simp [Promise.Free]
      cases target with
      | source text => exact htrue ▸ Source.assignsOnly_true text
      | _ => trivial
    obtain ⟨m₁, hm₁, -, hend⟩ := hbody.minds hlib False.elim hfree hm
    obtain ⟨hm₂, hloud⟩ := hend hm₁
    have hiff {α : Type} {collect : List Handle → Bridge α}
        (hc : ∀ hs, (collect hs).Moves boundary) :
        Host.Dies (lib.reentry (depth + 1)) target args want collect m ↔ m₂.errorTrue = true := by
      obtain ⟨n, m₃, hscope, hm₃, hsame⟩ := hbody.inScope_of_raised hm₂ collect
      exact hsame ▸ Host.dies_iff hc hm₃ hscope
    refine ⟨hiff, fun t => hiff (boundary_drops.collectScalar t), hiff boundary_drops.collectList,
      hiff Manner.Drops.collectNothing, fun hq => ?_, fun hl => hloud hl rfl⟩
    obtain ⟨n, m₃, hscope, hm₃, hsame⟩ := hbody.inScope_of_raised hm₂ Host.collectNothing
    exact Host.returns_of_not_true hm₃ hscope (hsame.trans hq)
  next he =>
    intro α collect
    rw [Host.call_apply, hbody.inScope_of_error he collect]

/-- A closure that misses an argument fails, and so does the call around it. -/
theorem relaying_dies : relayer.Minds ⟨False, True⟩ ∧ relaying.Sound ⟨False, True⟩ ∧ ∃ m₂,
    relayer.BodyEnds 3 (.source "relay()") [] .void relaying (.error .raised m₂) ∧
      Host.Dies (relayer.reentry 4) (.source "relay()") [] .void Host.collectNothing relaying := by
  refine ⟨relayer_minds _, relaying_sound _, ?_⟩
  have hends : (relayer.openCall 3 (.source "relay()") [] .void).Yields relaying fun p m₁ =>
      p.2.Raises (m₁.setError (.ofByteText ⟨[], false⟩)) (·.errorTrue = true) := by decide +kernel
  obtain ⟨p, m₁, hopen, hends⟩ := hends.exists_ok
  obtain ⟨m₂, hrun, htrue⟩ := hends.exists_error
  have hbody : relayer.BodyEnds 3 (.source "relay()") [] .void relaying (.error .raised m₂) :=
    ⟨p.1, p.2, m₁, hopen, hrun⟩
  have hraised := (raised_dies_iff (relayer_minds ⟨False, True⟩) 3 (.source "relay()") []
    .void).2 (relaying_sound _) hbody
  rw [if_pos rfl] at hraised
  exact ⟨m₂, hbody, hraised.2.2.2.1.2 htrue⟩

end Library

end ValueMachine

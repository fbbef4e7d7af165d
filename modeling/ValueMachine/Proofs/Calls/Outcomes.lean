import ValueMachine.Proofs.Calls.Disciplined
import ValueMachine.Proofs.Calls.Promises

/-! The outcome of a call from host code. It is read off `$@` alone: a true one makes the call fail
with a copy of it, and a false one makes it return what is collected from the results, however the
body of the call has ended. -/

namespace ValueMachine

open Machine Manner

variable {m m' : Machine} {P : Promise} {quiet : Prop} {r : Reentry} {α : Type}

namespace Machine

variable {h : Handle} {s : Scalar}

/-- Looking for the error variable does not change its truth. -/
theorem Sound.errorTrue_errorSlot (hm : m.Sound P) : m.errorSlot.2.errorTrue = m.errorTrue := by
  cases hq : m.errorTrue with
  | false => exact hm.quiet hm.errorSlot hq
  | true =>
    have hheap : m.errorSlot.2.heap = m.heap := by
      unfold Machine.errorSlot
      cases m.interp.error with
      | some h => rfl
      | none =>
        cases hh : m.global? .scalar "@" with
        | some h => simp only [Machine.global, hh]; rfl
        | none => rw [errorTrue, errorHandle?, hh] at hq; cases hq
    obtain ⟨h, hh⟩ : ∃ h, m.errorHandle? = some h := by
      cases hh : m.errorHandle? with
      | some h => exact ⟨h, rfl⟩
      | none => rw [errorTrue, hh] at hq; cases hq
    rw [errorTrue_of_handle hh] at hq
    rw [errorTrue_of_handle (hm.errorSlot.keeps hh), ← hq, truthAt, truthAt, body, body, cell, cell,
      hheap]

theorem kind_of_scalar (hb : m.body h = .scalar s) : m.kind h = .scalar := by
  have htag : m.tag h ≤ 10 := by
    rw [tag, Cell.tag, show (m.cell h).body = .scalar s from hb]
    simp only [Scalar.tag]
    split
    · decide
    · split <;> decide
  show Kind.ofTag (m.tag h) = .scalar
  exact if_pos htag

theorem kind_of_array {xs : Slots} (hb : m.body h = .array xs) : m.kind h = .array := by
  have hcell : (m.cell h).body = .array xs := hb
  rw [kind, tag, Cell.tag, hcell]
  rfl

theorem kind_of_hash {t : Table} (hb : m.body h = .hash t) : m.kind h = .hash := by
  have hcell : (m.cell h).body = .hash t := hb
  rw [kind, tag, Cell.tag, hcell]
  rfl

/-- A held copy has the slots of the scalar that it is a copy of. -/
theorem Sound.holdCopy (hm : m.Sound P) (hb : m.body h = .scalar s) :
    ∃ v m', holdCopy h m = .ok v m' ∧ m.Drifts m' ∧ v.handle.index < m'.heap.size ∧
      m'.body v.handle = .scalar s := by
  rcases hm.copySlots h with ⟨s', m₁, hb', hcopy, hd⟩ | ⟨hno, -⟩
  · cases hb.symm.trans hb'
    have hs : (Body.scalar s).Formed := Body.formed_scalar.2 (hm.tame.formed h s hb)
    have hdup : duplicate h m = .ok m₁.heap.next (m₁.alloc (.scalar s)).2 := by
      simp only [duplicate, Run.look_bind, kind_of_scalar hb, newCopy]
      rw [Run.bind_apply, hcopy]
      rfl
    refine ⟨⟨m₁.heap.next, m₁.here⟩, _, ?_, hd.trans (.alloc hd.tame hs), ?_, ?_⟩
    · rw [Machine.holdCopy, Run.bind_apply, hdup]
      rfl
    · show m₁.heap.size < (m₁.heap.push (.fresh (.scalar s))).size
      rw [Heap.size_push]
      exact Nat.lt_succ_self _
    · simp [alloc, body, cell, Cell.fresh]
  · exact absurd hb (hno s)

theorem Sound.truthAt_errorSlot (hm : m.Sound P) (log : Log) :
    ({ m.errorSlot.2 with log := log } : Machine).truthAt m.errorSlot.1 = m.errorTrue := by
  rw [← hm.errorTrue_errorSlot, errorTrue_of_handle hm.errorHandle?_errorSlot]
  rfl

/-- The truth of `$@` decides on an outcome. -/
theorem Sound.outcome_apply (hm : m.Sound P) (count : Nat) (collect : List Handle → Bridge α) :
    ∃ log, Host.outcome count collect m = (if m.errorTrue then do
      return .error (.died (← Machine.holdCopy m.errorSlot.1))
      else (do collect (← Run.look (·.top count)) : Run (Except Failure α)))
        { m.errorSlot.2 with log := log } := by
  obtain ⟨log, hlog⟩ := runReadHooks_eq hm.errorSlot.tame m.errorSlot.1
  refine ⟨log, ?_⟩
  rw [Host.outcome, Run.modifyGet_bind, Run.bind_apply, truth, Run.bind_apply, hlog]
  simp only [Run.look_apply]
  rw [hm.truthAt_errorSlot log]

/-- Reading `$@` off. -/
theorem Sound.outcome (hm : m.Sound P) (count : Nat) (collect : List Handle → Bridge α) :
    (m.errorTrue = true → ∃ v m', Host.outcome count collect m = .ok (.error (.died v)) m' ∧
      m.Drifts m' ∧ m'.Tells v.handle) ∧
    (m.errorTrue = false → ∃ m', Host.outcome count collect m = (collect (m'.top count)).run m' ∧
      m.Drifts m') := by
  have hslot := hm.errorSlot
  have hh := hm.errorHandle?_errorSlot
  obtain ⟨log, hread⟩ := hm.outcome_apply count collect
  let m₂ : Machine := { m.errorSlot.2 with log := log }
  have hd : m.Drifts m₂ := hslot.trans (drifts_log hslot.tame log)
  have htruth : m₂.truthAt m.errorSlot.1 = m.errorTrue := hm.truthAt_errorSlot log
  rw [hread]
  constructor
  · intro ht
    obtain ⟨s, hb⟩ : ∃ s, m₂.body m.errorSlot.1 = .scalar s := by
      refine ((hm.drifts hd).slot hh).resolve_left fun hb => ?_
      rw [← htruth, truthAt_of_freed hb] at ht
      cases ht
    obtain ⟨v, m', hcopy, hd', hlt, hb'⟩ := (hm.drifts hd).holdCopy hb
    refine ⟨v, m', ?_, hd.trans hd', hlt, fun s' hs' => ?_⟩
    · rw [if_pos ht, Run.bind_apply, hcopy]
      rfl
    · rw [hb'] at hs'
      cases hs'
      rw [← truthAt_of_scalar hb, htruth, ht]
  · intro hf
    exact ⟨m₂, by rw [if_neg (by simp [hf])]; rfl, hd⟩

end Machine

namespace Manner

theorem minding_concludes {x : EStateM.Result Exit Machine (Except Failure α)}
    (h : m.Sound P → (minding P quiet).Concludes m x) : (minding P quiet).Concludes m x := by
  rcases x with (f | a) | e
  · exact fun hm => h hm hm
  · exact fun hm => h hm hm
  · exact fun hm => h hm hm

end Manner

/-! ### Calls from host code -/

namespace Reentry.Minds

theorem pass (d : Datum) : (Host.pass d).Moves (minding P quiet) :=
  (minding_gives.toArgument d).bind fun _ => Run.Moves.change fun _ => minding_returns (drifts_still (by rfl))

theorem targetRun (hr : r.Minds P) (target : Target) (want : Want) :
    (target.run r want).Moves (minding P False) := by
  have hname (name : String) (flags : CallFlags) :
      (r.callName name flags).Moves (minding P False) := by
    refine Run.Moves.bind (fun m => minding_returns fun hm => ?_) fun target =>
      hr.trapping target flags
    have halloc : m.Drifts (m.alloc (.scalar (.ofText name))).2 := .alloc hm.tame (by simp)
    exact halloc.trans (drifts_still (by rfl) (hm.drifts halloc))
  cases target with
  | sub h => exact hr.trapping h _
  | name n => exact hname n _
  | method n => exact hname n _
  | source text => exact hr.evaluate text want

theorem start (hr : r.Minds P) (target : Target) (args : List Datum) (want : Want) :
    (Host.start r target args want).Moves (minding P False) := by
  refine .ite ?_ (hr.targetRun target want)
  exact (Run.Moves.change fun m => minding_returns (drifts_still (by rfl))).bind fun _ =>
    (Run.Moves.forM pass args).bind fun _ => hr.targetRun target want

/-- A call from host code returns only where it has found `$@` false, however often a nested trap
has left it true in between. -/
theorem hostCall (hr : r.Minds P) (target : Target) (args : List Datum) (want : Want)
    {collect : List Handle → Bridge α} (hc : ∀ hs, (collect hs).Moves (minding P quiet)) :
    (Host.call r target args want collect).Moves (minding P quiet) := by
  refine fun m => minding_concludes fun hm => ?_
  have hm₀ : m.enter.saveTemps.Sound P := hm.drifts (drifts_still (by rfl) hm)
  have hstart := hr.start target args want m.enter.saveTemps
  rw [Host.call_apply, Host.inScope, Run.bind_apply]
  cases hs : Host.start r target args want m.enter.saveTemps with
  | error e m₁ =>
    rw [hs] at hstart
    exact fun _ => hstart hm₀
  | ok count m₁ =>
    rw [hs] at hstart
    have hm₁ := (hstart hm₀).1
    obtain ⟨htrue, hfalse⟩ := hm₁.outcome count collect
    cases hq : m₁.errorTrue with
    | true =>
      obtain ⟨v, m₂, hout, hd, ht⟩ := htrue hq
      have hclose := drifts_close (hm₁.drifts hd) m.height
      simp only [hout]
      refine fun _ => ⟨(hm₁.drifts hd).drifts hclose, fun _ w hw => ?_⟩
      cases hw
      exact ht.drifts hclose.heap
    | false =>
      obtain ⟨m₂, hout, hd⟩ := hfalse hq
      have hm₂ := hm₁.drifts hd
      have hend := hc (m₂.top count) m₂
      simp only [hout]
      rcases hr : (collect (m₂.top count)).run m₂ with (f | a) | e
      all_goals rename_i m₃; rw [hr] at hend; have hm₃ := (hend hm₂).1
      · refine fun _ => ⟨hm₃.drifts (drifts_close hm₃ _), fun hloud v hv => ?_⟩
        exact ((hend hm₂).2 hloud v hv).drifts (drifts_close hm₃ _).heap
      · refine fun _ => ⟨hm₃.drifts (drifts_close hm₃ _), fun hquiet _ => ?_⟩
        exact hm₃.quiet (drifts_close hm₃ _) ((hend hm₂).2 hquiet (hm₁.quiet hd hq))
      · exact fun _ => hend hm₂

end Reentry.Minds

/-! ### Libraries -/

/-- The bodies of a library keep a promise, counting on the same of what they start. -/
structure Library.Minds (lib : Library) (P : Promise) : Prop where
  routines : ∀ {name body}, lib.routines name = some body → ∀ r : Reentry, r.Minds P →
    ∀ sub, (body r sub).Moves (minding P P.quiet)
  closures : ∀ {name closure}, lib.closures name = some closure → ∀ r : Reentry, r.Minds P →
    ∀ args, (closure r args).Moves (minding P P.quiet)

/-- A line of text is true. -/
theorem Scalar.truth_ofText_line (s : String) : (Scalar.ofText (s ++ "\n")).truth = true := by
  refine truth_ofText (fun h => ?_) fun h => ?_
  · have := congrArg String.toList h
    simp at this
  · have := congrArg String.toList h
    simp [List.append_eq_singleton_iff] at this

namespace Library

variable {lib : Library}

theorem putResults_moves (mark : Nat) (results : List Handle) :
    (putResults mark results).Moves (minding P quiet) :=
  (Run.Moves.change fun _ => minding_returns (drifts_still (by rfl))).bind fun _ =>
    Run.Moves.forM (fun _ => Run.Moves.change fun _ => minding_returns (drifts_still (by rfl))) results

/-- A failure of a closure is raised; the value of an exception that came from the machine is raised
as it is, whether it is true or not. -/
theorem raiseFailure_raises (hm : m.Sound P) (name : String) (f : Failure) :
    ∃ m', raiseFailure name f m = .error .raised m' ∧ m'.Sound P ∧
      ((∀ v, f = .died v → m.Tells v.handle) → m'.Loud) := by
  have htold (hf : ∀ v, f ≠ .died v) : ∃ m', (do
      let message ← f.message.otherwise (·.dropAll f.held)
      (raise (.said (Failure.trimLines (name ++ ": " ++ message) ++ "\n")) : Run Unit).otherwise
        (·.dropAll f.held)) m = .error .raised m' ∧ m'.Sound P ∧ m'.Loud := by
    obtain ⟨text, m₁, hr, hheap, hinterp, -⟩ := leaves_message f m hm.tame
    have hm₁ : m₁.Sound P :=
      hm.drifts (drifts_still (by rw [holdings, holdings, hheap, hinterp]) hm)
    obtain ⟨hm₂, hl⟩ := hm₁.raise (f := .said (Failure.trimLines (name ++ ": " ++ text) ++ "\n"))
      (Scalar.truth_ofText_line _)
    have hd := minding_drops.dropAll (M := minding P False) f.held _ hm₂
    refine ⟨_, ?_, hm₂.drifts hd, hm₂.loud hd hl⟩
    rw [Run.bind_apply, Run.otherwise_apply, hr]
    rfl
  cases f
  case died v =>
    have hmortal : (m.mortal v.handle).Sound P := hm.drifts (drifts_still (by rfl) hm)
    obtain ⟨m', hr, hm', hl⟩ := hmortal.raiseValue (α := Unit) v.handle
    exact ⟨m', hr, hm', fun ht => hl (ht v rfl)⟩
  all_goals
    obtain ⟨m', hr, hm', hl⟩ := htold (by simp)
    exact ⟨m', hr, hm', fun _ => hl⟩

/-- What a closure ends with is told where its sub was called. -/
theorem concluded_ends (name : String) (mark : Nat) {m₀ : Machine}
    {x : EStateM.Result Exit Machine (Except Failure (List Handle))} (hm₀ : m₀.Sound P)
    (hend : (minding P quiet).Concludes m₀ x) :
    (minding P quiet).Ends m₀ (match x with
      | .ok ended m => concluded name mark (.ok ended) m
      | .error e m => concluded name mark (.error e) m) := by
  rcases x with (f | results) | e
  all_goals rename_i m
  · obtain ⟨m', hr, hm', hl⟩ := raiseFailure_raises (hend hm₀).1 name f
    simp only [concluded, hr]
    exact fun _ => ⟨hm', fun hloud _ => hl fun v hv => (hend hm₀).2 hloud v hv⟩
  · exact (minding P quiet).ends_of_returns hend (putResults_moves mark results m)
  · cases e with
    | aborted message =>
      obtain ⟨hm', hl⟩ := Sound.raise (hend hm₀).1 (f := .said (name ++ " panicked: "
        ++ message.getD "unknown panic" ++ "\n")) (Scalar.truth_ofText_line _)
      exact fun _ => ⟨hm', fun _ _ => hl⟩
    | raised => exact hend
    | exhausted => exact hend

theorem closures_moves (hlib : lib.Minds P) {r : Reentry} (hr : r.Minds P) {sub : Handle}
    {closure : Closure} (hc : lib.closure? m sub = some closure) (args : Arguments) :
    (closure r args).Moves (minding P P.quiet) := by
  unfold Library.closure? at hc
  split at hc
  · exact hlib.closures hc r hr args
  · cases hc

theorem enterClosure_moves (hlib : lib.Minds P) {r : Reentry} (hr : r.Minds P) (sub : Handle) :
    (lib.enterClosure r sub).Moves (minding P P.quiet) := by
  refine fun m => minding_ends fun hm => ?_
  have hdrop : m.Drifts m.dropMark := drifts_still (by rfl) hm
  have hm₀ := hm.drifts hdrop
  rw [enterClosure_apply]
  refine (minding P P.quiet).ends_of_returns (minding_returns fun _ => hdrop) ?_
  cases hc : lib.closure? m sub with
  | none => exact minding_plain.fault (by simp) m.dropMark
  | some closure =>
    have hend := concluded_ends (subName m sub) m.topMark hm₀
      (closures_moves hlib hr hc ⟨m.above m.topMark, m.interp.want⟩ m.dropMark)
    show (minding P P.quiet).Ends m.dropMark (((closure r _).run.attempt >>= _) m.dropMark)
    rw [Run.bind_apply, Run.attempt]
    cases hrun : (closure r ⟨m.above m.topMark, m.interp.want⟩).run m.dropMark <;>
      (rw [hrun] at hend; exact hend)

theorem run_moves (hlib : lib.Minds P) {r : Reentry} (hr : r.Minds P) (entry : Entry)
    (sub : Handle) : (lib.run r entry sub).Moves (minding P P.quiet) := by
  cases entry with
  | closure => exact enterClosure_moves hlib hr sub
  | routine name =>
    simp only [Library.run]
    cases hb : lib.routines name with
    | some body => exact hlib.routines hb r hr sub
    | none => exact Run.Moves.change fun m => minding_returns (drifts_still (by rfl))

theorem boot_minds {r : Reentry} (hr : r.Minds P) {step : BootStep} (hstep : step.Minds P) :
    (boot r step).Moves (minding P P.quiet) := by
  cases step with
  | define name closure =>
    have hnew (m : Machine) : (minding P P.quiet).returns m
        (m.newSub name .closure "host" (some (.closure closure []))).2 :=
      minding_returns fun hm => .newSub hm.tame hm.bounded _ _ _ _
    exact ((Run.Moves.modifyGet hnew).bind fun sub => minding_drops.hold sub).bind fun v =>
      Run.Moves.change fun m => (minding P P.quiet).returns_of_cleans (minding_drops.drop m v)
  | fail message => exact minding_raise (.said message) hstep
  | require name => exact hr.require name
  | evaluate source =>
    have hcall : (Host.callVoid r (.source source) []).Moves (minding P False) :=
      hr.hostCall (.source source) [] .void fun _ => .pure ()
    -- the failure is ignored, so only a promise that is not quiet can be kept
    suffices hboot : (boot r (.evaluate source)).Moves (minding P False) from
      minding_loosen hboot hstep
    refine fun m => minding_ends fun hm => ?_
    have hend := hcall m
    show (minding P False).Ends m (((Host.callVoid r (.source source) []).run >>= _) m)
    rw [Run.bind_apply]
    rcases hr : (Host.callVoid r (.source source) []).run m with (f | a) | e
    all_goals rename_i m₁; rw [hr] at hend
    · have hd := minding_drops.dropAll (M := minding P False) f.held _ (hend hm).1
      exact fun _ => ⟨(hend hm).1.drifts hd, False.elim⟩
    · exact hend
    · exact hend

theorem require_minds {step : BootStep → Run Unit}
    (hstep : ∀ s : BootStep, s.Minds P → (step s).Moves (minding P quiet)) (name : String) :
    (requireWith step name).Moves (minding P quiet) := by
  refine fun m => minding_ends fun hm => ?_
  simp only [requireWith, Run.look_bind]
  split
  · exact Run.Moves.pure () m
  · cases hfind : m.interp.modules.find? (·.1 == name) with
    | none => exact minding_plain.fault (by simp) m
    | some found =>
      obtain ⟨n, module⟩ := found
      have hsteps := hm.modules _ (List.mem_of_find?_eq_some hfind)
      refine ((Run.Moves.change fun m => minding_returns (drifts_still (by rfl))).bind fun _ =>
        Run.Moves.bind (.forM_mem ?_) fun _ =>
          Run.Moves.change fun m => minding_returns (drifts_still (by rfl))) m
      exact fun s hs => hstep s (hsteps s hs)

/-- What running code can start keeps the promise of its library at every nesting. -/
theorem reentry_minds (hlib : lib.Minds P) (depth : Nat) : (lib.reentry depth).Minds P := by
  induction depth with
  | zero =>
    have hgive {α : Type} (quiet : Prop) : (throw .exhausted : Run α).Moves (minding P quiet) :=
      .giveUp (by simp)
    exact ⟨fun _ _ _ => hgive _, fun _ _ => hgive _, fun _ _ => hgive _, fun _ => hgive _⟩
  | succ depth ih =>
    have hrun (entry : Entry) (sub : Handle) := run_moves hlib ih entry sub
    exact {
      call := fun target flags hflags =>
        callWith_moves hrun target fun htrap => by rw [hflags] at htrap; cases htrap
      trapping := fun target flags =>
        callWith_moves (fun entry sub => minding_loosen (hrun entry sub) False.elim) target
          fun _ => id
      evaluate := ih.evaluates
      require := require_minds fun s hs => boot_minds ih hs }

/-! ### A library that runs source text -/

/-- A library with one closure, which runs source text and passes on what goes wrong in it. -/
def relayer : Library where
  routines _ := none
  closures name := if name = "relay" then some Closure.relay else none

/-- What goes wrong is passed on, so any promise is kept. -/
theorem relayer_minds (P : Promise) : relayer.Minds P where
  routines hb := by cases hb
  closures {name closure} hc r hr args := by
    simp only [relayer] at hc
    split at hc
    · cases hc
      refine minding_drops.typed minding_gives.toValue _ (fun vs => ?_) args
      have hcall : (Host.callScalar r .string (.source vs.1) []).Moves (minding P P.quiet) :=
        hr.hostCall (.source vs.1) [] .scalar (minding_drops.collectScalar .string)
      exact Bridge.Moves.bind hcall fun text => .pure [Datum.text text]
    · cases hc

theorem relaying_sound (P : Promise) : relaying.Sound P :=
  (sound_fresh P).drifts (.newSub (sound_fresh P).tame (sound_fresh P).bounded _ _ _ _)

end Library

end ValueMachine

import ValueMachine.Proofs.Calls.Closures
import ValueMachine.Proofs.Calls.Evaluation
import ValueMachine.Proofs.Calls.Minding
import ValueMachine.Proofs.Calls.Stages

/-! Calls under a promise about the error variable. Where the bodies of subs keep the promise, so do
the calls of subs and the evaluation of source text, at every nesting. A trap keeps only half of it:
it returns where its body has raised, with the exception left in `$@`. -/

namespace ValueMachine

open Machine Manner

variable {m m' : Machine} {P : Promise} {quiet quiet' : Prop} {α : Type}

/-- What running bodies start keeps a promise. What traps exceptions may leave a true `$@`. -/
structure Reentry.Minds (r : Reentry) (P : Promise) : Prop where
  call : ∀ target flags, flags.trap = false → (r.call target flags).Moves (minding P P.quiet)
  trapping : ∀ target flags, (r.call target flags).Moves (minding P False)
  evaluate : ∀ source want, (r.evaluate source want).Moves (minding P False)
  require : ∀ name, (r.require name).Moves (minding P P.quiet)

namespace Manner

theorem minding_loosen {x : Run α} (hx : x.Moves (minding P quiet)) (h : quiet' → quiet) :
    x.Moves (minding P quiet') := by
  intro m
  have hend := hx m
  cases hr : x m with
  | ok a m' =>
    rw [hr] at hend
    exact fun hm => ⟨(hend hm).1, fun hquiet => (hend hm).2 (h hquiet)⟩
  | error e m' => rw [hr] at hend; exact hend

end Manner

namespace Machine

/-! ### Calls of subs -/

theorem Sound.clear (hm : m.Sound P) : (m.setError (.ofByteText ⟨[], false⟩)).Sound P ∧
    (m.setError (.ofByteText ⟨[], false⟩)).errorTrue = false := by
  obtain ⟨hclear, herror⟩ := hm.setError (s := .ofByteText ⟨[], false⟩) (by simp)
  exact ⟨hclear, herror.quiet rfl⟩

theorem drifts_settle (hm : m.Sound P) (mark : Nat) (want : Want) :
    m.Drifts (m.settle mark want).2 := by
  cases want <;> exact drifts_still (by rfl) hm

theorem drifts_releaseAll (hm : m.Sound P) (hd : m.Drifts m') (hs : List Handle) :
    m.Drifts (m'.releaseAll hs) :=
  hd.trans (.releaseAll hd.tame (hm.bounded.drifts hd) hs)

theorem drifts_freeTemps (hm : m.Sound P) : m.Drifts m.freeTemps :=
  drifts_releaseAll hm (drifts_still (by rfl) hm) _

/-- The end of a scope. -/
theorem drifts_close (hm : m.Sound P) (n : Nat) :
    m.Drifts (m.truncate n).freeTemps.leave := by
  have hcut : m.Drifts (m.truncate n) := drifts_still (by rfl) hm
  have hfree := drifts_freeTemps (hm.drifts hcut)
  exact hcut.trans (hfree.trans (drifts_still (by rfl) ((hm.drifts hcut).drifts hfree)))

variable {body : Entry → Handle → Run Unit}

theorem enterSub_moves (hbody : ∀ entry sub, (body entry sub).Moves (minding P quiet)) (mark : Nat)
    (want : Want) (entry : Entry) (sub : Handle) :
    (enterSub body mark want entry sub).Moves (minding P quiet) := by
  refine (Run.Moves.change fun m => minding_returns fun hm => ?_).bind fun _ =>
    (hbody entry sub).always fun m hm => ?_
  · have hpush : m.Drifts (m.onInterp fun i =>
        { i with marks := i.marks.push mark, contexts := i.contexts.push want }) := drifts_still (by rfl) hm
    exact hpush.trans (.retain hpush.tame sub)
  · have hpop : m.Drifts (m.onInterp fun i => { i with contexts := i.contexts.pop }) :=
      drifts_still (by rfl) hm
    exact hpop.trans (.release hpop.tame (hm.bounded.drifts hpop) sub)

theorem invoke_moves (hbody : ∀ entry sub, (body entry sub).Moves (minding P quiet))
    (target : Handle) (mark : Nat) (flags : CallFlags) :
    (invoke body target mark flags).Moves (minding P quiet) := by
  rw [invoke_eq]
  refine Run.Moves.bind (.ite (minding_plain.resolveMethod target mark)
    (minding_plain.resolveSub target)) fun sub => (Run.Moves.look _).bind fun entry => ?_
  cases entry.bind (·.entry) with
  | none => exact (Run.Moves.look _).bind fun _ => minding_plain.fault (by simp)
  | some entry =>
    refine (enterSub_moves hbody mark flags.want entry sub).bind fun _ => ?_
    exact Run.Moves.modifyGet fun m => minding_returns fun hm => drifts_settle hm mark flags.want

/-- A trap swallows the exception that its body has raised, but not the value in `$@`. -/
theorem trapped_moves {run : Run Nat} (hrun : run.Moves (minding P quiet)) (root : Nat)
    (want : Want) : (trapped root want run).Moves (minding P False) := by
  refine fun m => minding_ends fun hm => ?_
  have hclear := hm.clear.1
  have hend := hrun (m.setError (.ofByteText ⟨[], false⟩))
  rw [trapped_apply]
  cases hr : run (m.setError (.ofByteText ⟨[], false⟩)) with
  | ok n m₁ =>
    rw [hr] at hend
    exact fun _ => ⟨(hend hclear).1, False.elim⟩
  | error e m₁ =>
    rw [hr] at hend
    cases e with
    | raised =>
      have hm₁ := (hend hclear).1
      simp only [caught]
      split
      · exact fun _ => ⟨hm₁.drifts (drifts_still (by rfl) hm₁), False.elim⟩
      · exact fun _ => ⟨hm₁.drifts (drifts_still (by rfl) hm₁), False.elim⟩
    | aborted message => exact fun _ => ⟨(hend hclear).1, fun _ he => by cases he⟩
    | exhausted => exact fun _ => ⟨(hend hclear).1, fun _ he => by cases he⟩

theorem callWith_moves (hbody : ∀ entry sub, (body entry sub).Moves (minding P quiet))
    (target : Handle) {flags : CallFlags} (hflags : flags.trap = true → ¬quiet) :
    (callWith body target flags).Moves (minding P quiet) := by
  have hat (mark : Nat) : (callAt body target flags mark).Moves (minding P quiet) := by
    rw [callAt]
    split
    next htrap =>
      exact minding_loosen (trapped_moves (invoke_moves hbody target mark flags) mark flags.want)
        (hflags htrap)
    next => exact invoke_moves hbody target mark flags
  have hscoped (mark : Nat) : (callScoped body target flags mark).Moves (minding P quiet) := by
    rw [callScoped]
    split
    · refine (Run.Moves.change fun m => minding_returns (drifts_still (by rfl))).bind fun _ =>
        (hat mark).bind fun _ => (Run.Moves.change fun m => ?_).bind fun _ => .pure 0
      exact minding_returns fun hm => drifts_close hm mark
    · exact hat mark
  rw [callWith_eq]
  refine .ite ((Run.Moves.look _).bind hscoped) ((Run.Moves.look _).bind fun mark => ?_)
  exact (Run.Moves.change fun m => minding_returns (drifts_still (by rfl))).bind fun _ => hscoped mark

/-! ### Source text -/

/-- A reference is true. -/
theorem Sound.tells_of_isReference (hm : m.Sound P) {h : Handle} (hr : m.isReference h = true) :
    m.Tells h := by
  obtain ⟨target, ht⟩ := Option.isSome_iff_exists.1 hr
  obtain ⟨s, hs, hst⟩ := Option.bind_eq_some_iff.1 ht
  have hb := scalar?_eq_some.1 hs
  obtain ⟨hint, hfloat, htext⟩ := hm.tame.formed h s hb (by rw [hst]; rfl)
  refine ⟨index_lt_of_scalar hb, fun s' hs' => ?_⟩
  rw [hb] at hs'
  cases hs'
  simp [Scalar.truth, hint, hfloat, htext, hst]

end Machine

namespace Reentry.Minds

variable {r : Reentry}

theorem callName (hr : r.Minds P) (name : String) {flags : CallFlags} (hflags : flags.trap = false) :
    (r.callName name flags).Moves (minding P P.quiet) := by
  refine Run.Moves.bind (fun m => minding_returns fun hm => ?_) fun target => hr.call target flags hflags
  have halloc : m.Drifts (m.alloc (.scalar (.ofText name))).2 := .alloc hm.tame (by simp)
  exact halloc.trans (drifts_still (by rfl) (hm.drifts halloc))

theorem sourceCall (hr : r.Minds P) (name : String) (args : List Handle) (want : Want)
    (isMethod : Bool) : (Source.call r name args want isMethod).Moves (minding P P.quiet) := by
  rw [Source.call_eq]
  refine (Run.Moves.look _).bind fun mark =>
    (Run.Moves.change fun m => minding_returns (drifts_still (by rfl))).bind fun _ =>
      (hr.callName name (by rfl)).bind fun count => (Run.Moves.look _).bind fun results => ?_
  exact (Run.Moves.change fun m => minding_returns (drifts_still (by rfl))).bind fun _ => .pure results

end Reentry.Minds

/-- The names of globals that may be assigned to: other than `$@`, where quiet is asked for. -/
def Promise.Free (quiet : Prop) (name : String) : Prop :=
  quiet → Qualified.qualify name ≠ Qualified.qualify "@"

namespace Manner

variable {name : String}

/-- A global with a free name is not the error variable. -/
theorem ne_of_free (hfree : Promise.Free quiet name) {h : Handle}
    (hname : m.global? .scalar name = some h) (hquiet : quiet) (hm : m.Sound P) :
    m.errorHandle? ≠ some h :=
  fun hh => hfree hquiet (hm.apart hname hh)

theorem minding_assign (hfree : Promise.Free quiet name) {dst : Handle} (src : Handle)
    (hname : m.global? .scalar name = some dst) : (minding P quiet).Ends m (assign dst src m) := by
  rw [Machine.assign]
  split
  · exact Run.Moves.pure () m
  · refine minding_ends fun hm => ?_
    rw [Run.bind_apply]
    rcases hm.copySlots src with ⟨s, m₁, hb, hcopy, hd⟩ | ⟨-, m₁, hcopy, hm₁, hl⟩
    · rw [hcopy]
      refine (minding P quiet).ends_of_returns (minding_returns fun _ => hd) ?_
      exact minding_store (hm.tame.formed src s hb) (ne_of_free hfree (hd.keeps hname))
    · rw [hcopy]
      exact minding_raises hm₁ fun _ => hl

theorem minding_evaluates {r : Reentry} (hr : r.Minds P) (hquiet : quiet → P.quiet) :
    (minding P quiet).Evaluates (Promise.Free quiet) r where
  toPlain := minding_plain
  assign m h hfree := minding_assign hfree h (global_global? m .scalar _)
  clear m hfree := minding_store (by simp) (ne_of_free hfree (global_global? m .scalar _))
  raiseReference {m h} hr := minding_ends fun hm => by
    obtain ⟨m', hraise, hm', hl⟩ := hm.raiseValue (α := PUnit) h
    rw [hraise]
    exact minding_raises hm' fun _ => hl (hm.tells_of_isReference hr)
  call name args want isMethod := minding_loosen (hr.sourceCall name args want isMethod) hquiet
  require name := minding_loosen (hr.require name) hquiet

end Manner

/-- The values of a source text, put on the stack and settled as its results. -/
def Source.results (r : Reentry) (source : String) (root : Nat) (want : Want) : Run Nat := do
  let results ← Source.values r source want
  Run.change (·.pushAll results)
  modifyGet (·.settle root want)

namespace Reentry.Minds

variable {r : Reentry}

theorem sourceResults (hr : r.Minds P) (hquiet : quiet → P.quiet) {source : String}
    (hs : Source.AssignsOnly (Promise.Free quiet) source) (root : Nat) (want : Want) :
    (Source.results r source root want).Moves (minding P quiet) := by
  refine ((minding_evaluates hr hquiet).values hs want).bind fun results => ?_
  refine (Run.Moves.change fun m => minding_returns (drifts_still (by rfl))).bind fun _ => ?_
  exact Run.Moves.modifyGet fun m => minding_returns fun hm => drifts_settle hm root want

/-- Source text that is evaluated may assign to `$@`. -/
theorem evaluates (hr : r.Minds P) (source : String) (want : Want) :
    (Source.evaluate r source want).Moves (minding P False) := by
  have hfree : Promise.Free False = fun _ => True := funext fun _ => by simp [Promise.Free]
  have hresults (root : Nat) : (Source.results r source root want).Moves (minding P False) :=
    hr.sourceResults False.elim (hfree ▸ Source.assignsOnly_true source) root want
  exact (Run.Moves.look _).bind fun root => trapped_moves (hresults root) root want

end Reentry.Minds

end ValueMachine

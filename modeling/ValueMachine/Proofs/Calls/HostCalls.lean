import ValueMachine.Proofs.Calls.Balanced

/-! Calls from host code restore the stacks. Whatever a call invokes and however it ends, as long as
it returns the stacks are as they were before, and the temporaries made in it have been released. -/

namespace ValueMachine

open Stacks Machine Manner

variable {m m' : Machine} {b : Stacks} {r : Reentry} {α : Type}

/-- What began in `m` and had come to `before` has ended in `m'` with all stacks as they were. The
temporaries that were left above those of `m` have been released last, each once and the newest
first, and none of those of `m` with them. -/
structure Machine.Restored (m before m' : Machine) : Prop where
  here : m'.here = m.here
  same : m'.interp.toStacks = m.interp.toStacks
  released : ∃ made, before.interp.toStacks.temps = m.interp.toStacks.temps ++ made ∧
    m' = (((before.truncate m.height).cutTemps m.interp.temps.height).releaseAll made.reverse).leave

/-- A call from host code that returns, with results or with a failure, restores the stacks. -/
def Host.Restores (r : Reentry) (target : Target) (args : List Datum) (want : Want)
    (collect : List Handle → Bridge α) : Prop :=
  ∀ m result m', (Host.call r target args want collect).run m = .ok result m' →
    ∃ before, Host.inScope r target args want collect m.enter.saveTemps = .ok result before ∧
      m.Restored before m'

namespace Reentry.Balanced

theorem pass_lands (d : Datum) {vs : List Handle}
    (hm : m.interp.toStacks = b.withArguments vs) :
    Lands b (fun _ s => ∃ b' vs', b.Kept b' ∧ s = b'.withArguments vs') m (Host.pass d m) := by
  refine (atHome_lands (atHome_stores.gives.toArgument d) (hm ▸ b.grown_withArguments vs)).bind
    fun h m₁ _ hm₁ => ?_
  obtain ⟨b₁, hb₁, hs₁⟩ := (hm ▸ hm₁).of_withArguments
  refine ⟨rfl, { b₁ with temps := b₁.temps ++ [h] }, vs ++ [h], ?_, ?_⟩
  · exact hb₁.trans ⟨rfl, rfl, rfl, rfl, List.prefix_append _ _, rfl⟩
  · show ((m₁.mortal h).push h).interp.toStacks = _
    rw [toStacks_push, toStacks_mortal, hs₁]
    simp [withArguments]

theorem passAll_lands (ds : List Datum) {vs : List Handle}
    (hm : m.interp.toStacks = b.withArguments vs) :
    Lands b (fun _ s => ∃ b' vs', b.Kept b' ∧ s = b'.withArguments vs') m
      (ds.forM Host.pass m) := by
  induction ds generalizing m b vs with
  | nil => exact ⟨rfl, b, vs, .refl b, hm⟩
  | cons d ds ih =>
    refine (pass_lands d hm).bind fun _ m₁ _ h => ?_
    obtain ⟨b₁, vs₁, hb₁, hs₁⟩ := h
    refine ((ih hs₁).lower hb₁.grown).mono fun _ s h => ?_
    obtain ⟨b₂, vs₂, hb₂, hs₂⟩ := h
    exact ⟨b₂, vs₂, hb₁.trans hb₂, hs₂⟩

/-- A target that takes arguments takes them off the stack again. -/
theorem target_lands (hr : r.Balanced) {target : Target} (ht : target.takesArguments = true)
    (want : Want) {vs : List Handle} (hm : m.interp.toStacks = b.withArguments vs) :
    Lands b (fun n => b.Left n) m (target.run r want m) := by
  cases target with
  | sub h => exact hr.call h _ rfl hm
  | name n => exact hr.callName_lands n _ rfl hm
  | method n => exact hr.callName_lands n _ rfl hm
  | source text => cases ht

theorem start_lands (hr : r.Balanced) (target : Target) (args : List Datum) (want : Want)
    (m : Machine) : Lands m.interp.toStacks (fun n => m.interp.toStacks.Left n) m
      (Host.start r target args want m) := by
  cases ht : target.takesArguments with
  | true =>
    rw [Host.start, if_pos ht, Run.change_bind]
    refine ((passAll_lands args (toStacks_pushMark m)).bind fun _ m₁ _ h => ?_).of_here rfl
    obtain ⟨b₁, vs, hb₁, hs₁⟩ := h
    exact ((hr.target_lands ht want hs₁).lower hb₁.grown).mono fun n s h => hb₁.left h
  | false =>
    rw [Host.start, if_neg (by simp [ht])]
    cases target with
    | source text => exact hr.evaluate m text want
    | _ => cases ht

theorem outcome_moves {collect : List Handle → Bridge α} (hc : ∀ hs, (collect hs).Moves atHome)
    (count : Nat) : (Host.outcome count collect).Moves atHome := by
  have hslot (m : Machine) : atHome.returns m m.errorSlot.2 :=
    atHome_of_returns (Still.errorSlot m).returns
  refine (Run.Moves.modifyGet hslot).bind fun slot => ?_
  refine (atHome_stores.truth slot).bind fun t => .ite ?_ ?_
  · exact (atHome_drops.holdCopy slot).bind fun v => .pure _
  · exact (Run.Moves.look _).bind fun hs => atHome_outcome.1 (hc hs)

/-- The scope of a call ends with its results on top. -/
theorem inScope_lands (hr : r.Balanced) (target : Target) (args : List Datum) (want : Want)
    {collect : List Handle → Bridge α} (hc : ∀ hs, (collect hs).Moves atHome) (m : Machine) :
    Lands m.interp.toStacks (fun _ s => ∃ n, m.interp.toStacks.opened.Left n s) m
      (Host.inScope r target args want collect m.enter.saveTemps) := by
  have hstart := hr.start_lands target args want m.enter.saveTemps
  rw [toStacks_opened] at hstart
  refine ((hstart.lower (grown_opened _)).bind fun n m₁ _ h => ?_).of_here rfl
  exact (atHome_lands (outcome_moves hc n) ((grown_opened _).trans h.grown)).mono
    fun _ s hs => ⟨n, h.kept hs⟩

/-- A call that returns closes the scope that it has opened. -/
theorem restores (hr : r.Balanced) (target : Target) (args : List Datum) (want : Want)
    {collect : List Handle → Bridge α} (hc : ∀ hs, (collect hs).Moves atHome) :
    Host.Restores r target args want collect := by
  intro m result m' hcall
  have hscope := hr.inScope_lands target args want hc m
  rw [Host.call_apply] at hcall
  cases hs : Host.inScope r target args want collect m.enter.saveTemps with
  | error e m₁ =>
    rw [hs] at hcall
    cases hcall
  | ok result₁ m₁ =>
    rw [hs] at hcall hscope
    cases hcall
    obtain ⟨hhere, n, hleft⟩ := hscope
    obtain ⟨made, hmade, hclose, hsame, hhere'⟩ := close_scope hleft
    rw [height_eq]
    refine ⟨m₁, rfl, hhere'.trans hhere, hsame, made, hmade, ?_⟩
    rw [hclose, height_eq, Interp.height_temps]

/-- A call from host code keeps the stacks, so it may stand in a closure. -/
theorem hostCall (hr : r.Balanced) (target : Target) (args : List Datum) (want : Want)
    {collect : List Handle → Bridge α} (hc : ∀ hs, (collect hs).Moves atHome) :
    (Host.call r target args want collect).Moves atHome := by
  refine atHome_outcome.2 fun m => ?_
  cases hcall : (Host.call r target args want collect).run m with
  | ok result m' =>
    obtain ⟨_, _, hrestored⟩ := hr.restores target args want hc m result m' hcall
    exact ⟨hrestored.here, hrestored.same ▸ .refl _⟩
  | error e m' =>
    have hscope := hr.inScope_lands target args want hc m
    rw [Host.call_apply] at hcall
    cases hs : Host.inScope r target args want collect m.enter.saveTemps with
    | ok result m₁ =>
      rw [hs] at hcall
      cases hcall
    | error e₁ m₁ =>
      rw [hs] at hcall hscope
      cases hcall
      exact hscope

end Reentry.Balanced

end ValueMachine

import ValueMachine.Proofs.Calls.Floors
import ValueMachine.Proofs.Calls.HostCalls
import ValueMachine.Proofs.Calls.Settling

/-! Operations that are properly nested. The machine frees temporaries as the loop over them does, one
after the other, because a release looks at no temporaries. An operation is properly nested where it
closes what it opens, if it returns, and closes nothing else, if it exits. -/

namespace ValueMachine

open Machine Opening Course

/-! ### Releases beside other temporaries -/

namespace Machine

/-- Other temporaries in the interpreter in focus. -/
def onTemps (m : Machine) (f : Pile Handle → Pile Handle) : Machine :=
  m.onInterp fun i => { i with temps := f i.temps }

section

variable (f : Pile Handle → Pile Handle)

theorem updateGlob_onTemps (m : Machine) (name : String) (g : Glob → Glob) :
    (m.onTemps f).updateGlob name g = (m.updateGlob name g).onTemps f := by
  cases hname : m.interp.symbols.any (·.1 == name) with
  | true => simp only [updateGlob, onTemps, onInterp, hname, if_true]
  | false => simp only [updateGlob, onTemps, onInterp, hname, Bool.false_eq_true, if_false]

theorem global_onTemps (m : Machine) (s : Sigil) (name : String) :
    (m.onTemps f).global s name = ((m.global s name).1, (m.global s name).2.onTemps f) := by
  have hglobal : (m.onTemps f).global? s name = m.global? s name := rfl
  rw [Machine.global, Machine.global, hglobal]
  cases m.global? s name with
  | some h => rfl
  | none =>
    exact congrArg (Prod.mk m.heap.next) (updateGlob_onTemps f (m.alloc (newGlobalBody s name)).2 _ _)

theorem retain_onTemps (m : Machine) (h : Handle) : (m.onTemps f).retain h = (m.retain h).onTemps f := by
  rw [Machine.retain, Machine.retain, apply_ite (onTemps · f)]
  rfl

/-- The hooks of a dying value leave the temporaries alone. -/
theorem runFreeHooks_onTemps {drop : Handle → Machine → Machine}
    (hdrop : ∀ h m, drop h (m.onTemps f) = (drop h m).onTemps f) (h : Handle) (records : List Magic)
    (m : Machine) :
    runFreeHooks drop h records (m.onTemps f) = (runFreeHooks drop h records m).onTemps f := by
  have haction (m : Machine) (g : Magic) (a : FreeAction) :
      runFreeAction drop h g (m.onTemps f) a = (runFreeAction drop h g m a).onTemps f := by
    cases a with
    | record label => rfl
    | revive name =>
      have hnote : (m.onTemps f).noteFreed (event name g)
          = (m.noteFreed (event name g)).onTemps f := rfl
      simp only [runFreeAction, hnote, global_onTemps]
      rfl
    | unclaim => rfl
    | touch => rw [runFreeAction, runFreeAction, retain_onTemps, hdrop]
  exact List.foldl_hom (onTemps · f) fun m g => List.foldl_hom (onTemps · f) fun m a => haction m g a

theorem releaseWithin_onTemps (fuel : Nat) (h : Handle) (m : Machine) :
    releaseWithin fuel h (m.onTemps f) = (releaseWithin fuel h m).onTemps f := by
  induction fuel generalizing h m with
  | zero => rfl
  | succ fuel ih =>
    have hcell : (m.onTemps f).cell h = m.cell h := rfl
    simp only [releaseWithin, hcell]
    split
    · rfl
    split
    · rfl
    · have hset : (m.onTemps f).onHeap (·.set h { m.cell h with count := 0, magic := [] })
          = (m.onHeap (·.set h { m.cell h with count := 0, magic := [] })).onTemps f := rfl
      have hrest (owned : List Handle) (m : Machine) :
          owned.foldl (fun m k => releaseWithin fuel k m) (m.onTemps f)
            = (owned.foldl (fun m k => releaseWithin fuel k m) m).onTemps f :=
        List.foldl_hom (onTemps · f) fun m k => ih k m
      have hvacate (m : Machine) : (m.onTemps f).vacate h = (m.vacate h).onTemps f := rfl
      rw [hset, runFreeHooks_onTemps f ih, hvacate]
      exact hrest _ _

theorem release_onTemps (m : Machine) (h : Handle) :
    (m.onTemps f).release h = (m.release h).onTemps f :=
  releaseWithin_onTemps f _ h m

end

variable {m : Machine}

/-- Where temporaries lie above the floor, the newest is freed first. -/
theorem freeTemps_freeNewest (above : m.interp.floor < m.interp.temps.height) :
    m.freeNewest.freeTemps = m.freeTemps := by
  let below := m.interp.toStacks.temps.take m.interp.floor
  have hbelow : m.interp.floor = below.length := by
    rw [m.interp.height_temps] at above
    exact (List.length_take_of_le above.le).symm
  obtain ⟨made, hmade⟩ : below <+: m.interp.toStacks.temps := List.take_prefix _ _
  rcases List.eq_nil_or_concat made with rfl | ⟨older, newest, rfl⟩
  · rw [m.interp.height_temps, ← hmade, List.append_nil, hbelow] at above
    exact absurd above (lt_irrefl _)
  · rw [List.concat_eq_append] at hmade
    have hsplit : m.interp.toStacks.temps = below ++ older ++ [newest] := by
      rw [← hmade, List.append_assoc]
    have htemps : m.freeNewest.interp.toStacks.temps = below ++ older := by
      rw [toStacks_freeNewest, hsplit, List.dropLast_concat]
    have hfloor : m.freeNewest.interp.floor = below.length :=
      (congrArg Stacks.floor (toStacks_freeNewest m)).trans hbelow
    have hpile : (m.interp.temps.cut (below ++ older).length).cut below.length
        = m.interp.temps.cut below.length := by
      apply Pile.toList_injective
      rw [Pile.toList_cut, Pile.toList_cut, Pile.toList_cut, List.take_take, List.length_append,
        min_eq_left (Nat.le_add_right _ _)]
    have hcut : m.freeNewest.cutTemps below.length = (m.cutTemps below.length).release newest :=
      calc m.freeNewest.cutTemps below.length
        _ = ((m.cutTemps (below ++ older).length).release newest).cutTemps below.length := by
          rw [freeNewest_eq hsplit]
        _ = ((m.cutTemps (below ++ older).length).cutTemps below.length).release newest :=
          (release_onTemps (·.cut below.length) _ newest).symm
        _ = (m.cutTemps below.length).release newest := by simp only [cutTemps, onInterp, hpile]
    rw [freeTemps_eq htemps hfloor, freeTemps_eq hmade.symm hbelow, hcut, List.reverse_concat]
    rfl

theorem freeTemps_of_le (reached : m.interp.temps.height ≤ m.interp.floor) : m.freeTemps = m := by
  have hnone : m.interp.temps.downTo m.interp.floor = [] := by
    rw [Pile.downTo, Nat.sub_eq_zero_of_le reached, List.take_zero]
  have hcut : m.interp.temps.cut m.interp.floor = m.interp.temps := by
    apply Pile.toList_injective
    rw [Pile.toList_cut, List.take_of_length_le (by rwa [Pile.length_toList])]
  rw [freeTemps, hnone]
  simp only [onInterp, hcut]
  rfl

end Machine

/-! ### Courses that close what they open -/

namespace Course

variable {m m' m₁ : Machine} {o : List Opening}

/-- A freeing takes one temporary after the other until the floor is reached. -/
theorem steps_freeing (m : Machine) (o : List Opening) :
    Steps ⟨m, freeing :: o⟩ ⟨m.freeTemps, o⟩ := by
  induction hn : m.interp.temps.height - m.interp.floor generalizing m with
  | zero =>
    have reached : m.interp.temps.height ≤ m.interp.floor := Nat.sub_eq_zero_iff_le.1 hn
    rw [freeTemps_of_le reached]
    exact .single (.freed o reached)
  | succ n ih =>
    have above : m.interp.floor < m.interp.temps.height := by omega
    have hfloor : m.freeNewest.interp.floor = m.interp.floor :=
      congrArg Stacks.floor (toStacks_freeNewest m)
    have hheight : m.freeNewest.interp.temps.height = m.interp.temps.height - 1 := by
      rw [Interp.height_temps, toStacks_freeNewest, List.length_dropLast, ← m.interp.height_temps]
    rw [← freeTemps_freeNewest above]
    exact .head (.next o above) (ih m.freeNewest (by omega))

theorem steps_freeTemps (m : Machine) (o : List Opening) : Steps ⟨m, o⟩ ⟨m.freeTemps, o⟩ :=
  .head (.free m o) (steps_freeing m o)

/-- Temporaries that have come on top have been registered one after the other. -/
theorem steps_of_kept (here : m'.here = m.here) (hk : m.interp.toStacks.Kept m'.interp.toStacks)
    (o : List Opening) : Steps ⟨m, o⟩ ⟨m', o⟩ := by
  obtain ⟨new, hnew⟩ := hk.temps
  induction new generalizing m with
  | nil =>
    rw [List.append_nil] at hnew
    exact .single (.work o here hk.scopes hnew.symm hk.floor)
  | cons h new ih =>
    have hstacks := toStacks_mortal m h
    have htemps : (m.mortal h).interp.toStacks.temps ++ new = m'.interp.toStacks.temps := by
      rw [hstacks, ← hnew, List.append_assoc]
      rfl
    refine .head (.mortal m o h) (ih here ⟨?_, ?_, ?_, ?_, ⟨new, htemps⟩, ?_⟩ htemps)
    · rw [hk.values, hstacks]
    · rw [hk.marks, hstacks]
    · rw [hk.contexts, hstacks]
    · rw [hk.scopes, hstacks]
    · rw [hk.floor, hstacks]

end Course

namespace Manner

/-- What returns has closed all that it has opened, and what exits has closed nothing else. -/
def nested : Manner where
  returns m m' := ∀ o, Steps ⟨m, o⟩ ⟨m', o⟩
  exits _ m m' := ∀ o, ∃ inner, Steps ⟨m, o⟩ ⟨m', inner ++ o⟩
  fails _ m m' := ∀ o, Steps ⟨m, o⟩ ⟨m', o⟩
  cleans m m' := ∀ o, Steps ⟨m, o⟩ ⟨m', o⟩
  refl _ _ := .refl
  trans h h' o := (h o).trans (h' o)
  returns_of_cleans h := h
  cleans_refl _ _ := .refl
  cleans_trans h h' o := (h o).trans (h' o)
  gives_up _ _ _ _ := ⟨[], .refl⟩
  exits_of_returns h h' o := by
    obtain ⟨inner, hinner⟩ := h' o
    exact ⟨inner, (h o).trans hinner⟩
  exits_cleans h h' o := by
    obtain ⟨inner, hinner⟩ := h o
    exact ⟨inner, hinner.trans (h' _)⟩
  fails_of_returns h h' o := (h o).trans (h' o)
  fails_cleans h h' o := (h o).trans (h' o)
  fails_atArgument _ h := h

/-! ### Operations without calls -/

section

variable {m m' : Machine} {α : Type}

theorem nested_of_atHome (h : atHome.returns m m') : nested.returns m m' := steps_of_kept h.1 h.2

theorem nested_of_steady (h : steady.returns m m') : nested.returns m m' :=
  nested_of_atHome (atHome_of_returns h)

theorem nested_of_still (h : Still m m') : nested.returns m m' := nested_of_steady h.returns

/-- What is done to the stack, the marks and the contexts. -/
theorem nested_work (here : m'.here = m.here)
    (scopes : m'.interp.toStacks.scopes = m.interp.toStacks.scopes)
    (temps : m'.interp.toStacks.temps = m.interp.toStacks.temps)
    (floor : m'.interp.floor = m.interp.floor) : nested.returns m m' :=
  fun o => .single (.work o here scopes temps floor)

theorem nested_throws (e : Exit) : (throw e : Run α).Moves nested := fun _ _ => ⟨[], .refl⟩

end

/-- Stacks are kept in every interpreter, however an operation ends. -/
def settled : Manner := .uniform steady.refl steady.trans

end Manner

end ValueMachine

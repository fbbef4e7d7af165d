import ValueMachine.Proofs.Calls.Balance
import ValueMachine.Proofs.Calls.Stages

/-! Balanced calls. Where the bodies of subs take their marks off and leave results in place of
their arguments, so do the calls of subs, trapped or not, and the evaluation of source text keeps
the stacks. -/

namespace ValueMachine

open Stacks Machine

variable {m : Machine} {b s : Stacks} {args : List Handle}

/-- The bodies of subs that leave results in place of the arguments of their call. -/
def AnswersCalls (body : Entry → Handle → Run Unit) : Prop :=
  ∀ ⦃m b args⦄ (entry : Entry) (sub : Handle), m.interp.toStacks = b.withArguments args →
    Lands b (fun _ s => ∃ n, b.Left n s) m (body entry sub m)

/-- What running bodies start leaves results as it counts them, and keeps the stacks below. -/
structure Reentry.Balanced (r : Reentry) : Prop where
  call : ∀ ⦃m b args⦄ (target : Handle) (flags : CallFlags), flags.noArguments = false →
    m.interp.toStacks = b.withArguments args →
      Lands b (fun n => b.Left n) m (r.call target flags m)
  callBare : ∀ ⦃m⦄ (target : Handle) (flags : CallFlags), flags.noArguments = true →
    Lands m.interp.toStacks (fun n => m.interp.toStacks.Left n) m (r.call target flags m)
  evaluate : ∀ m source want,
    Lands m.interp.toStacks (fun n => m.interp.toStacks.Left n) m (r.evaluate source want m)
  require : ∀ name, (r.require name).Moves Manner.atHome

namespace Stacks

/-- In a scope of its own whose temporaries are told apart. -/
def opened (b : Stacks) : Stacks :=
  { b with scopes := b.scopes ++ [some b.floor], floor := b.temps.length }

theorem grown_opened (b : Stacks) : b.Grown b.opened :=
  ⟨List.prefix_rfl, List.prefix_rfl, List.prefix_rfl, List.prefix_append _ _, List.prefix_rfl⟩

end Stacks

namespace Machine

open Manner

/-! ### Scopes -/

theorem toStacks_opened (m : Machine) :
    m.enter.saveTemps.interp.toStacks = m.interp.toStacks.opened := by
  have htop : (m.interp.scopes.push none).top? = some none := rfl
  simp [enter, saveTemps, onInterp, Interp.toStacks, opened, htop, ← Pile.length_toList]

@[simp] theorem toStacks_leave (m : Machine) : m.leave.interp.toStacks
    = { m.interp.toStacks with
        scopes := m.interp.toStacks.scopes.dropLast
        floor := (m.interp.toStacks.scopes.getLast?.join).getD m.interp.toStacks.floor } := by
  simp [leave, onInterp, Interp.toStacks, Pile.top?_eq]

theorem toStacks_entered (m : Machine) (mark : Nat) (want : Want) :
    (m.onInterp fun i => { i with
      marks := i.marks.push mark, contexts := i.contexts.push want }).interp.toStacks
    = { m.interp.toStacks with
        marks := m.interp.toStacks.marks ++ [mark]
        contexts := m.interp.toStacks.contexts ++ [want] } := by
  simp [onInterp, Interp.toStacks]

theorem toStacks_contextEnded (m : Machine) :
    (m.onInterp fun i => { i with contexts := i.contexts.pop }).interp.toStacks
      = { m.interp.toStacks with contexts := m.interp.toStacks.contexts.dropLast } := by
  simp [onInterp, Interp.toStacks]

/-- The machine without the temporaries above a height. -/
def cutTemps (m : Machine) (n : Nat) : Machine :=
  m.onInterp fun i => { i with temps := i.temps.cut n }

@[simp] theorem toStacks_cutTemps (m : Machine) (n : Nat) : (m.cutTemps n).interp.toStacks
    = { m.interp.toStacks with temps := m.interp.toStacks.temps.take n } := by
  simp [cutTemps, onInterp, Interp.toStacks, Pile.toList_cut]

theorem freeTemps_eq {made : List Handle} {temps : List Handle}
    (ht : m.interp.toStacks.temps = temps ++ made) (hf : m.interp.floor = temps.length) :
    m.freeTemps = (m.cutTemps temps.length).releaseAll made.reverse := by
  have hmade : m.interp.temps.downTo temps.length = made.reverse := by
    have h := m.interp.temps.above_eq_drop temps.length
    rw [show m.interp.temps.toList = temps ++ made from ht, List.drop_left] at h
    rw [← h, Pile.above, List.reverse_reverse]
  rw [freeTemps, hf, hmade]
  simp only [cutTemps, onInterp, hf]

/-- The end of a scope: what has come on top is taken off, and the temporaries made in the scope,
no others, are released, the newest first. -/
theorem close_scope (hm : b.opened.Left n m.interp.toStacks) :
    ∃ made, m.interp.toStacks.temps = b.temps ++ made ∧
      (m.truncate b.values.length).freeTemps.leave
        = (((m.truncate b.values.length).cutTemps b.temps.length).releaseAll made.reverse).leave ∧
      (m.truncate b.values.length).freeTemps.leave.interp.toStacks = b ∧
      (m.truncate b.values.length).freeTemps.leave.here = m.here := by
  obtain ⟨results, -, hk⟩ := hm
  obtain ⟨made, hmade⟩ : b.temps <+: m.interp.toStacks.temps := hk.temps
  have hfree := freeTemps_eq (m := m.truncate b.values.length) hmade.symm hk.floor
  have hstill := Still.releaseAll ((m.truncate b.values.length).cutTemps b.temps.length) made.reverse
  refine ⟨made, hmade.symm, by rw [hfree], ?_, by rw [hfree]; exact hstill.here⟩
  rw [hfree, toStacks_leave, hstill.same]
  simp [hk.values, hk.marks, hk.contexts, hk.scopes, ← hmade, opened, topped]

/-! ### Calls of subs -/

section

variable {body : Entry → Handle → Run Unit}

theorem enterSub_lands (hbody : AnswersCalls body) (want : Want) (entry : Entry) (sub : Handle)
    (hm : m.interp.toStacks = b.topped args) :
    Lands b (fun _ s => ∃ n, b.Left n s) m (enterSub body b.values.length want entry sub m) := by
  let b₁ : Stacks := { b with contexts := b.contexts ++ [want] }
  let m₁ := (m.onInterp fun i => { i with
    marks := i.marks.push b.values.length, contexts := i.contexts.push want }).retain sub
  have hm₁ : m₁.interp.toStacks = b₁.withArguments args := by
    refine (Still.retain _ sub).same.trans ?_
    rw [toStacks_entered, hm]
    rfl
  have hhere : m₁.here = m.here := (Still.retain _ sub).here
  have hend := hbody entry sub hm₁
  show Lands b _ m (((body entry sub).always _) m₁)
  rw [Run.always_apply]
  cases hr : body entry sub m₁ with
  | ok u m₂ =>
    rw [hr] at hend
    obtain ⟨hhere₂, n, results, hn, hk⟩ := hend
    refine ⟨(Still.release _ sub).here.trans (hhere₂.trans hhere), n, results, hn, ?_⟩
    rw [(Still.release _ sub).same, toStacks_contextEnded]
    exact ⟨hk.values, hk.marks, by simp [hk.contexts, b₁, topped], hk.scopes, hk.temps, hk.floor⟩
  | error e m₂ =>
    rw [hr] at hend
    obtain ⟨hhere₂, hk⟩ := hend
    refine ⟨(Still.release _ sub).here.trans (hhere₂.trans hhere), ?_⟩
    rw [(Still.release _ sub).same, toStacks_contextEnded]
    refine ⟨hk.values, hk.marks, ?_, hk.scopes, hk.temps⟩
    obtain ⟨above, habove⟩ := hk.contexts
    simp only [← habove, b₁, List.append_assoc]
    rw [List.dropLast_append_of_ne_nil (by simp)]
    exact List.prefix_append _ _

theorem callResolved_lands (hbody : AnswersCalls body) (flags : CallFlags) (sub : Handle)
    (hm : m.interp.toStacks = b.topped args) :
    Lands b (fun n => b.Left n) m (callResolved body b.values.length flags sub m) := by
  simp only [callResolved, Run.look_bind]
  cases (m.code? sub).bind (·.entry) with
  | none => exact raise_lands _ (hm ▸ b.grown_topped args)
  | some entry =>
    refine (enterSub_lands hbody flags.want entry sub hm).bind fun _ m₁ _ h => ?_
    obtain ⟨n, results, -, hk⟩ := h
    obtain ⟨b₁, hb₁, hs₁⟩ := hk.of_topped
    rw [← hb₁.values]
    exact ⟨by cases flags.want <;> rfl, hb₁.left (settle_left hs₁ flags.want)⟩

theorem invoke_lands (hbody : AnswersCalls body) (target : Handle) (flags : CallFlags)
    (hm : m.interp.toStacks = b.topped args) :
    Lands b (fun n => b.Left n) m (invoke body target b.values.length flags m) := by
  have hresolve : (if flags.method then resolveMethod target b.values.length
      else resolveSub target : Run Handle).Moves atHome :=
    .ite (atHome_stores.resolveMethod target _) (atHome_stores.resolveSub target)
  rw [invoke_eq]
  refine (atHome_lands hresolve (hm ▸ b.grown_topped args)).bind fun sub m₁ _ hm₁ => ?_
  obtain ⟨b₁, hb₁, hs₁⟩ := (hm ▸ hm₁).of_topped
  rw [← hb₁.values]
  exact ((callResolved_lands hbody flags sub hs₁).lower hb₁.grown).mono fun n s h => hb₁.left h

/-- A trap whose body leaves results leaves results however its body ends. -/
theorem trapped_lands {run : Run Nat} (want : Want) (hm : m.interp.toStacks = b.topped args)
    (hrun : ∀ {m b}, m.interp.toStacks = b.topped args → b.values.length = root →
      Lands b (fun n => b.Left n) m (run m))
    (hroot : b.values.length = root) : Lands b (fun n => b.Left n) m (trapped root want run m) := by
  subst hroot
  have hclear := Still.setError m (.ofByteText ⟨[], false⟩)
  have hend := hrun (hclear.same.trans hm) rfl
  rw [trapped_apply]
  cases hr : run (m.setError (.ofByteText ⟨[], false⟩)) with
  | ok n m₁ =>
    rw [hr] at hend
    exact ⟨hend.1.trans hclear.here, hend.2⟩
  | error e m₁ =>
    rw [hr] at hend
    cases e
    case raised =>
      have hcut := unwind_frame hm hend.2
      have hhere : m₁.here = m.here := hend.1.trans hclear.here
      simp only [caught]
      split
      · refine ⟨hhere, ⟨[(m₁.unwind (m.frame b.values.length)).interp.undefined], rfl, ?_⟩⟩
        rw [toStacks_push]
        exact hcut.topped _
      · exact ⟨hhere, [], rfl, by rw [topped_nil]; exact hcut⟩
    all_goals exact ⟨hend.1.trans hclear.here, hend.2⟩

theorem callAt_lands (hbody : AnswersCalls body) (target : Handle) (flags : CallFlags)
    (hm : m.interp.toStacks = b.topped args) :
    Lands b (fun n => b.Left n) m (callAt body target flags b.values.length m) := by
  rw [callAt]
  split
  · refine trapped_lands flags.want hm (fun {m b'} hm' hb' => ?_) rfl
    rw [← hb']
    exact invoke_lands hbody target flags hm'
  · exact invoke_lands hbody target flags hm

theorem callScoped_lands (hbody : AnswersCalls body) (target : Handle) (flags : CallFlags)
    (hm : m.interp.toStacks = b.topped args) :
    Lands b (fun n => b.Left n) m (callScoped body target flags b.values.length m) := by
  rw [callScoped]
  split
  · have hopen : m.enter.saveTemps.interp.toStacks = b.opened.topped args := by
      rw [toStacks_opened, hm]
      rfl
    have hcall := (callAt_lands hbody target flags hopen).lower b.grown_opened
    rw [Run.change_bind]
    refine (hcall.bind fun n m₁ _ hm₁ => ?_).of_here rfl
    obtain ⟨-, -, -, hend, hhere⟩ := close_scope hm₁
    refine ⟨hhere, [], rfl, ?_⟩
    show (b.topped []).Kept (m₁.truncate b.values.length).freeTemps.leave.interp.toStacks
    rw [topped_nil, hend]
    exact .refl b
  · exact callAt_lands hbody target flags hm

/-- A call leaves results in place of the mark and the arguments above it. -/
theorem callWith_lands (hbody : AnswersCalls body) (target : Handle) {flags : CallFlags}
    (hflags : flags.noArguments = false) (hm : m.interp.toStacks = b.withArguments args) :
    Lands b (fun n => b.Left n) m (callWith body target flags m) := by
  rw [callWith_eq, if_neg (by simp [hflags])]
  simp only [Run.look_bind, Run.change_bind, topMark_of_withArguments hm]
  exact callScoped_lands hbody target flags (dropMark_of_withArguments hm)

/-- A call without arguments leaves results on top. -/
theorem callWith_bare_lands (hbody : AnswersCalls body) (target : Handle) {flags : CallFlags}
    (hflags : flags.noArguments = true) :
    Lands m.interp.toStacks (fun n => m.interp.toStacks.Left n) m (callWith body target flags m) := by
  rw [callWith_eq, if_pos hflags]
  simp only [Run.look_bind, height_eq]
  exact callScoped_lands hbody target flags (topped_nil _).symm

end

end Machine

/-! ### The evaluation of source text -/

namespace Reentry.Balanced

open Manner

variable {r : Reentry}

theorem callName_lands (hr : r.Balanced) (name : String) (flags : CallFlags)
    (hflags : flags.noArguments = false) (hm : m.interp.toStacks = b.withArguments args) :
    Lands b (fun n => b.Left n) m (r.callName name flags m) := by
  let b₁ : Stacks := { b with temps := b.temps ++ [m.heap.next] }
  have hb₁ : b.Kept b₁ := ⟨rfl, rfl, rfl, rfl, List.prefix_append _ _, rfl⟩
  have hm₁ : (m.allocMortal (.scalar (.ofText name))).2.interp.toStacks
      = b₁.withArguments args := by
    show ((m.alloc (.scalar (.ofText name))).2.mortal m.heap.next).interp.toStacks = _
    rw [toStacks_mortal, show (m.alloc _).2.interp.toStacks = _ from hm]
    rfl
  rw [Reentry.callName, Run.modifyGet_bind]
  exact (((hr.call _ flags hflags hm₁).lower hb₁.grown).mono fun n s h => hb₁.left h).of_here rfl

/-- A call in source text takes its results off again. -/
theorem sourceCall (hr : r.Balanced) (name : String) (args : List Handle) (want : Want)
    (isMethod : Bool) : (Source.call r name args want isMethod).Moves atHome := by
  rw [atHome_iff]
  intro m
  have hm : (m.pushMark.pushAll args).interp.toStacks = m.interp.toStacks.withArguments args := by
    rw [toStacks_pushAll, toStacks_pushMark]
    simp [withArguments]
  have hcall := hr.callName_lands name { CallFlags.plain want with method := isMethod } rfl hm
  rw [Source.call_eq]
  simp only [Run.look_bind, Run.change_bind, height_eq]
  exact (hcall.of_here rfl).bind fun n m₁ _ h => ⟨rfl, truncate_kept h⟩

theorem evaluates (hr : r.Balanced) : atHome.Evaluates (fun _ => True) r where
  toPlain := atHome_stores.toPlain
  assign _ h _ := atHome_assign _ h _
  clear _ _ := atHome_stores.store _ (by simp) _
  raiseReference _ := atHome_raiseValue _ _
  call := hr.sourceCall
  require := hr.require

/-- The evaluation of source text leaves its results, or an exception in `$@`. -/
theorem evaluate_lands (hr : r.Balanced) (source : String) (want : Want) (m : Machine) :
    Lands m.interp.toStacks (fun n => m.interp.toStacks.Left n) m (Source.evaluate r source want m) := by
  rw [Source.evaluate, Run.look_bind, height_eq]
  refine trapped_lands want (topped_nil _).symm (fun {m b} hm hb => ?_) rfl
  rw [topped_nil] at hm
  subst hm
  rw [← hb]
  have hvalues := hr.evaluates.values (Source.assignsOnly_true source) want
  refine (atHome_lands hvalues (.refl _)).bind fun results m₁ _ hm₁ => ?_
  have hpush : (m₁.pushAll results).interp.toStacks = m₁.interp.toStacks.topped results :=
    toStacks_pushAll m₁ results
  rw [Run.change_bind, ← hm₁.values]
  exact ⟨by cases want <;> rfl, hm₁.left (settle_left hpush want)⟩

end Reentry.Balanced

end ValueMachine

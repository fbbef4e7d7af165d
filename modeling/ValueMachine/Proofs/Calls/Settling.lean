import ValueMachine.Proofs.Calls.Disciplined
import ValueMachine.Proofs.Exceptions.Crossing

/-! What a call leaves of the results of its sub. The closure of a sub is run on the arguments of the
call; its results take their place, and the context of the call keeps all of them, the last one or
none. -/

namespace ValueMachine

open Stacks Machine Manner

variable {m m₁ m₂ : Machine} {b : Stacks} {args results : List Handle} {sub target : Handle}
  {mark : Nat} {want : Want} {flags : CallFlags}

/-- What a context takes of some results: all of them, the last one, or nothing. Where there is none,
a scalar context takes an undefined value. -/
def Want.take (want : Want) (undefined : Handle) (results : List Handle) : List Handle :=
  match want with
  | .void => []
  | .scalar => [results.getLast?.getD undefined]
  | .list => results

theorem Pile.toList_injective {α : Type} {p q : Pile α} (h : p.toList = q.toList) : p = q := by
  obtain ⟨items, height, hp⟩ := p
  obtain ⟨items', height', hq⟩ := q
  obtain rfl : items = items' := List.reverse_injective h
  subst hp hq
  rfl

namespace Machine

theorem top_of_topped (hm : m.interp.toStacks = b.topped args) : m.top args.length = args := by
  rw [top, above_eq, height_eq, hm]
  simp [topped]

/-! ### The results of a closure -/

/-- Results are put in the place of what lies above a mark, and belong to the temporaries. -/
def answered (m : Machine) (mark : Nat) (results : List Handle) : Machine :=
  results.foldl (fun m h => (m.mortal h).push h) (m.truncate mark)

theorem toStacks_pushResults (results : List Handle) (m : Machine) :
    (results.foldl (fun m h => (m.mortal h).push h) m).interp.toStacks =
      { m.interp.toStacks with
        values := m.interp.toStacks.values ++ results
        temps := m.interp.toStacks.temps ++ results } := by
  induction results generalizing m with
  | nil => simp
  | cons h results ih =>
    rw [List.foldl_cons, ih, toStacks_push, toStacks_mortal]
    simp

theorem undefined_answered (m : Machine) (mark : Nat) (results : List Handle) :
    (m.answered mark results).interp.undefined = m.interp.undefined := by
  have hpush (results : List Handle) (m : Machine) :
      (results.foldl (fun m h => (m.mortal h).push h) m).interp.undefined
        = m.interp.undefined := by
    induction results generalizing m with
    | nil => rfl
    | cons h results ih => exact ih _
  exact hpush results _

/-- What lies above the place of the arguments are the results. -/
theorem toStacks_answered (hm : (b.topped args).Kept m.interp.toStacks) (results : List Handle) :
    ∃ b', b.Kept b' ∧ (m.answered b.values.length results).interp.toStacks = b'.topped results := by
  obtain ⟨b₁, hb₁, hs⟩ := hm.of_topped
  have hcut : (m.truncate b.values.length).interp.toStacks = b₁ := by
    rw [toStacks_truncate, hs, ← hb₁.values]
    simp [topped]
  refine ⟨{ b₁ with temps := b₁.temps ++ results }, ?_, ?_⟩
  · exact hb₁.trans ⟨rfl, rfl, rfl, rfl, List.prefix_append _ _, rfl⟩
  · rw [answered, toStacks_pushResults, hcut]
    rfl

/-- A release does not change which value stands for no result. -/
theorem undefined_keptByRelease (h : Handle) :
    KeptByRelease (fun m => m.interp.undefined = h) fun _ => True where
  records _ _ _ _ _ := trivial
  lower _ _ hm := hm
  strip _ _ hm := hm
  noteFreed _ _ hm := hm
  revive m name _ hm _ _ := by
    obtain ⟨symbols, live, hi⟩ := (Fades.global m .scalar name).interp
    show (m.global .scalar name).2.interp.undefined = h
    rw [hi]
    exact hm
  unclaim _ _ hm := hm
  touch _ k _ hm _ _ := by
    unfold Machine.retain
    split <;> exact hm
  vacate _ _ hm := hm

theorem undefined_left (m : Machine) (sub : Handle) :
    (m.left sub).interp.undefined = m.interp.undefined :=
  (undefined_keptByRelease _).release sub rfl

theorem toStacks_left (m : Machine) (sub : Handle) : (m.left sub).interp.toStacks =
    { m.interp.toStacks with contexts := m.interp.toStacks.contexts.dropLast } := by
  rw [left, (Still.release _ sub).same, toStacks_contextEnded]

theorem settle_topped (hm : m.interp.toStacks = b.topped results) (want : Want) :
    (m.settle b.values.length want).1 = (want.take m.interp.undefined results).length ∧
      (m.settle b.values.length want).2.interp.toStacks
        = b.topped (want.take m.interp.undefined results) := by
  have habove : m.above b.values.length = results := by
    rw [above_eq, hm]
    simp [topped]
  have hcut : (m.truncate b.values.length).interp.toStacks = b := by
    rw [toStacks_truncate, hm]
    simp [topped]
  cases want with
  | void => exact ⟨rfl, by rw [Want.take, topped_nil]; exact hcut⟩
  | scalar =>
    refine ⟨rfl, ?_⟩
    show ((m.truncate b.values.length).push _).interp.toStacks = _
    rw [toStacks_push, hcut, habove]
    rfl
  | list =>
    refine ⟨?_, hm⟩
    show (m.above b.values.length).length = _
    rw [habove]
    rfl

/-- A closure has ended with results, its sub has been left, and the results have been settled. -/
def returned (m : Machine) (mark : Nat) (want : Want) (sub : Handle) (results : List Handle) :
    Machine :=
  (((m.answered mark results).left sub).settle mark want).2

/-- A call has come back from the closure of its sub, with what its context takes of the results on
top of the stacks of its caller. -/
theorem returned_spec (want : Want)
    (hm : ({ b with contexts := b.contexts ++ [want] }.topped args).Kept m.interp.toStacks)
    (sub : Handle) (results : List Handle) :
    (((m.answered b.values.length results).left sub).settle b.values.length want).1
        = (want.take m.interp.undefined results).length ∧
      ∃ b', b.Kept b' ∧ (m.returned b.values.length want sub results).interp.toStacks
        = b'.topped (want.take m.interp.undefined results) := by
  obtain ⟨b₁, hb₁, hs⟩ := toStacks_answered hm results
  let b₂ : Stacks := { b₁ with contexts := b.contexts }
  have hleft : ((m.answered b.values.length results).left sub).interp.toStacks
      = b₂.topped results := by
    rw [toStacks_left, hs]
    simp [topped, b₂, hb₁.contexts]
  have hb₂ : b.Kept b₂ := ⟨hb₁.values, hb₁.marks, rfl, hb₁.scopes, hb₁.temps, hb₁.floor⟩
  have hsettle := settle_topped hleft want
  rw [undefined_left, undefined_answered, hb₂.values] at hsettle
  exact ⟨hsettle.1, b₂, hb₂, hsettle.2⟩

theorem withStack_eq {p : Pile Handle} (hp : p.toList = m.interp.stack.toList) :
    (m.onInterp fun i => { i with stack := p }) = m := by
  obtain rfl := Pile.toList_injective hp
  rfl

/-- Results that are taken off and put back are settled as they were. -/
theorem settle_again {undefined : Handle}
    (hm : m.interp.toStacks = b.topped (want.take undefined results)) :
    ((m.truncate b.values.length).pushAll (want.take undefined results)).settle b.values.length want
      = ((want.take undefined results).length, m) := by
  have hvalues : m.interp.stack.toList = b.values ++ want.take undefined results :=
    congrArg Stacks.values hm
  have hcut : (m.interp.stack.cut b.values.length).toList = b.values := by
    rw [Pile.toList_cut, hvalues]
    exact List.take_left
  have hput : ((m.interp.stack.cut b.values.length).pushAll (want.take undefined results)).toList
      = m.interp.stack.toList := by
    rw [Pile.toList_pushAll, hcut, hvalues]
  have hback : (m.truncate b.values.length).pushAll (want.take undefined results) = m :=
    withStack_eq hput
  have habove : m.above b.values.length = want.take undefined results := by
    rw [above_eq, hm]
    simp [topped]
  rw [hback]
  cases want with
  | void =>
    have hcut' : m.truncate b.values.length = m := hback
    exact congrArg (Prod.mk 0) hcut'
  | scalar =>
    have hpush : (m.truncate b.values.length).push (results.getLast?.getD undefined) = m := hback
    simp only [settle, habove]
    exact congrArg (Prod.mk 1) hpush
  | list => exact Prod.ext (congrArg List.length habove) rfl

/-! ### Calls of closures -/

/-- A call takes its mark off, clears `$@` if it traps exceptions, and looks for its sub. -/
def arrive (target : Handle) (flags : CallFlags) : Run Handle := do
  let mark ← Run.look (·.topMark)
  Run.change fun m => if flags.trap then m.dropMark.cleared else m.dropMark
  if flags.method then resolveMethod target mark else resolveSub target

theorem callResolved_ok {body : Entry → Handle → Run Unit} {entry : Entry}
    (hentry : (m.code? sub).bind (·.entry) = some entry)
    (hbody : body entry sub (m.called mark flags.want sub) = .ok () m₂) :
    callResolved body mark flags sub m = .ok ((m₂.left sub).settle mark flags.want).1
      ((m₂.left sub).settle mark flags.want).2 := by
  have henter : enterSub body mark flags.want entry sub m = .ok () (m₂.left sub) := by
    show (body entry sub).always (·.left sub) (m.called mark flags.want sub) = _
    rw [Run.always_apply, hbody]
  rw [callResolved, Run.look_bind, hentry]
  exact Run.bind_of_ok henter

/-- A call whose sub has been found and has run settles what the sub has left. -/
theorem callWith_ok {body : Entry → Handle → Run Unit} {entry : Entry}
    (hbare : flags.noArguments = false) (hdiscard : flags.discard = false)
    (harrive : arrive target flags m = .ok sub m₁)
    (hentry : (m₁.code? sub).bind (·.entry) = some entry)
    (hbody : body entry sub (m₁.called m.topMark flags.want sub) = .ok () m₂) :
    callWith body target flags m = .ok ((m₂.left sub).settle m.topMark flags.want).1
      ((m₂.left sub).settle m.topMark flags.want).2 := by
  have hinvoke {m₀ : Machine} (hfind : (if flags.method then resolveMethod target m.topMark
      else resolveSub target : Run Handle) m₀ = .ok sub m₁) :
      invoke body target m.topMark flags m₀ = .ok ((m₂.left sub).settle m.topMark flags.want).1
        ((m₂.left sub).settle m.topMark flags.want).2 := by
    rw [invoke_eq, Run.bind_of_ok hfind]
    exact callResolved_ok hentry hbody
  rw [callWith_eq, if_neg (by simp [hbare])]
  show callScoped body target flags m.topMark m.dropMark = _
  rw [callScoped, if_neg (by simp [hdiscard]), callAt]
  rw [arrive, Run.look_bind, Run.change_bind] at harrive
  split
  next htrap =>
    rw [if_pos htrap] at harrive
    have hrun : invoke body target m.topMark flags m.dropMark.cleared = _ := hinvoke harrive
    unfold cleared at hrun
    rw [trapped_apply, hrun]
  next htrap =>
    rw [if_neg htrap] at harrive
    exact hinvoke harrive

end Machine

namespace Library

variable {lib : Library} {depth : Nat} {r : Reentry}

theorem putResults_apply (mark : Nat) (results : List Handle) (m : Machine) :
    putResults mark results m = .ok () (m.answered mark results) := by
  have hpush (results : List Handle) (m : Machine) :
      (results.forM fun h => Run.change fun m => (m.mortal h).push h : Run Unit) m
        = .ok () (results.foldl (fun m h => (m.mortal h).push h) m) := by
    induction results generalizing m with
    | nil => rfl
    | cons h results ih => exact ih _
  exact hpush results _

theorem ClosureEnds.enterClosure_ok (hends : lib.ClosureEnds r sub m (.ok (.ok results) m₁)) :
    lib.enterClosure r sub m = .ok () (m₁.answered m.topMark results) := by
  rw [ClosureEnds.enterClosure_apply (.ok (.ok results)) hends]
  exact putResults_apply m.topMark results m₁

/-- A sub that has been found is run with a closure, on the arguments above a mark, and the closure
returns results. -/
def Answers (lib : Library) (depth mark : Nat) (want : Want) (sub : Handle) (results : List Handle)
    (m m' : Machine) : Prop :=
  (m.code? sub).bind (·.entry) = some .closure ∧
    lib.ClosureEnds (lib.reentry depth) sub (m.called mark want sub) (.ok (.ok results) m')

end Library

namespace Machine

theorem toStacks_called (m : Machine) (mark : Nat) (want : Want) (sub : Handle) :
    (m.called mark want sub).interp.toStacks =
      { m.interp.toStacks with
        marks := m.interp.toStacks.marks ++ [mark]
        contexts := m.interp.toStacks.contexts ++ [want] } := by
  rw [called, (Still.retain _ sub).same, toStacks_entered]

/-- The closure of a sub sees the arguments of the call and its context. -/
theorem arguments_called (hm : m.interp.toStacks = b.topped args) (want : Want) (sub : Handle) :
    (m.called b.values.length want sub).arguments = ⟨args, want⟩ := by
  have hs := toStacks_called m b.values.length want sub
  have hcalled : (m.called b.values.length want sub).interp.toStacks
      = { b with contexts := b.contexts ++ [want] }.withArguments args := by
    rw [hs, hm]
    rfl
  have hwant : (m.called b.values.length want sub).interp.want = want := by
    rw [Interp.want, Pile.top?_eq, show (m.called b.values.length want sub).interp.contexts.toList
      = b.contexts ++ [want] from congrArg Stacks.contexts hcalled]
    simp
  rw [arguments, hwant, topMark_of_withArguments hcalled, above_eq, hcalled]
  simp [withArguments]

/-! ### Values at the end of a call -/

/-- What holds of a machine before results are put on the stack holds afterwards. -/
theorem answered_induction {C : Machine → Prop} {mark : Nat} (hcut : C (m.truncate mark))
    (hput : ∀ h ∈ results, ∀ m, C m → C ((m.mortal h).push h)) : C (m.answered mark results) :=
  List.foldlRecOn (motive := C) results _ hcut fun m hm h hh => hput h hh m hm

theorem Sound.drifts_returned {P : Promise} (hm : m.Sound P) (mark : Nat) (want : Want)
    (sub : Handle) (results : List Handle) : m.Drifts (m.returned mark want sub results) := by
  have hsame : holdings (m.answered mark results) = holdings m :=
    answered_induction (C := fun m' => holdings m' = holdings m) rfl fun _ _ _ hm => hm
  have hanswered : m.Drifts (m.answered mark results) := drifts_still hsame hm
  have hm₁ := hm.drifts hanswered
  have hpop : (m.answered mark results).Drifts ((m.answered mark results).onInterp fun i =>
      { i with contexts := i.contexts.pop }) := drifts_still (by rfl) hm₁
  have hleft : (m.answered mark results).Drifts ((m.answered mark results).left sub) :=
    hpop.trans (.release hpop.tame (hm₁.bounded.drifts hpop) sub)
  exact (hanswered.trans hleft).trans (drifts_settle (hm₁.drifts hleft) mark want)

/-- The temporaries take over the counts of the results, and the sub is given up. -/
theorem Orderly.returned {held : List Handle} (hm : m.Orderly (results ++ sub :: held)) (mark : Nat)
    (want : Want) : (m.returned mark want sub results).Orderly held := by
  have hput (results : List Handle) {m : Machine} (hm : m.Orderly (results ++ sub :: held)) :
      (results.foldl (fun m h => (m.mortal h).push h) m).Orderly (sub :: held) := by
    induction results generalizing m with
    | nil => exact hm
    | cons h results ih =>
      have hpush : ((m.mortal h).push h).Orderly (results ++ sub :: held) :=
        (Orderly.mortal hm).orderly.congr rfl rfl rfl rfl rfl
      exact ih hpush
  have hcut : (m.truncate mark).Orderly (results ++ sub :: held) := hm.congr rfl rfl rfl rfl rfl
  have hpop : ((m.answered mark results).onInterp fun i =>
      { i with contexts := i.contexts.pop }).Orderly (sub :: held) :=
    (hput results hcut).congr rfl rfl rfl rfl rfl
  have hleft : ((m.answered mark results).left sub).Orderly held := hpop.release.orderly
  cases want <;> exact hleft.congr rfl rfl rfl rfl rfl

theorem temps_returned (m : Machine) (mark : Nat) (want : Want) (sub : Handle)
    (results : List Handle) : (m.returned mark want sub results).interp.toStacks.temps
      = m.interp.toStacks.temps ++ results := by
  have hleft : ((m.answered mark results).left sub).interp.toStacks.temps
      = m.interp.toStacks.temps ++ results := by
    rw [toStacks_left, answered, toStacks_pushResults, toStacks_truncate]
  cases want <;> exact hleft

end Machine

namespace Library

variable {lib : Library} {depth : Nat}

/-- A call whose sub has been found and whose closure returns results comes back with what its
context takes of them. -/
theorem call_answers (hlib : lib.Disciplined) (hm : m.interp.toStacks = b.withArguments args)
    (harrive : arrive target flags m = .ok sub m₁)
    (hbare : flags.noArguments = false) (hdiscard : flags.discard = false)
    (hanswers : lib.Answers depth b.values.length flags.want sub results m₁ m₂) :
    (m₁.called b.values.length flags.want sub).arguments = ⟨args, flags.want⟩ ∧
      (lib.reentry (depth + 1)).call target flags m
        = .ok (flags.want.take m₂.interp.undefined results).length
          (m₂.returned b.values.length flags.want sub results) ∧
      ∃ b', b.Kept b' ∧ (m₂.returned b.values.length flags.want sub results).interp.toStacks
        = b'.topped (flags.want.take m₂.interp.undefined results) := by
  have hmark : m.topMark = b.values.length := topMark_of_withArguments hm
  obtain ⟨b₁, hb₁, hs₁⟩ : ∃ b₁, b.Kept b₁ ∧ m₁.interp.toStacks = b₁.topped args := by
    have hdrop := dropMark_of_withArguments hm
    have hresolve : (if flags.method then resolveMethod target m.topMark else resolveSub target :
        Run Handle).Moves atHome :=
      .ite (atHome_stores.resolveMethod target _) (atHome_stores.resolveSub target)
    have hopen : (if flags.trap then m.dropMark.cleared else m.dropMark).interp.toStacks
        = b.topped args := by
      split
      · exact (Still.setError m.dropMark _).same.trans hdrop
      · exact hdrop
    rw [arrive, Run.look_bind, Run.change_bind] at harrive
    have hkept : (b.topped args).Kept m₁.interp.toStacks := hopen ▸ (hresolve.ok harrive).2
    exact hkept.of_topped
  obtain ⟨hentry, hends⟩ := hanswers
  have hcalled : (m₁.called b.values.length flags.want sub).interp.toStacks
      = { b₁ with contexts := b₁.contexts ++ [flags.want] }.withArguments args := by
    rw [toStacks_called, hs₁, ← hb₁.values]
    rfl
  have hclosed : ({ b₁ with contexts := b₁.contexts ++ [flags.want] }.topped args).Kept
      m₂.interp.toStacks := by
    obtain ⟨closure, hclosure, hrun⟩ := hends
    obtain ⟨name, hname⟩ := exists_closures hclosure
    have hmoves := hlib.closures hname (lib.reentry depth) (reentry_balanced hlib depth)
      (m₁.called b.values.length flags.want sub).arguments
    have hend := atHome_iff.1 (atHome_outcome.1 hmoves)
      (m₁.called b.values.length flags.want sub).dropMark
    rw [hrun, dropMark_of_withArguments hcalled] at hend
    exact hend.2
  have hbody : lib.run (lib.reentry depth) .closure sub (m₁.called m.topMark flags.want sub)
      = .ok () (m₂.answered m.topMark results) := by
    have hrun := hends.enterClosure_ok
    rw [topMark_of_withArguments hcalled] at hrun
    rw [hmark, ← hb₁.values] at *
    exact hrun
  have hcall : callWith (fun e sub => lib.run (lib.reentry depth) e sub) target flags m = _ :=
    callWith_ok hbare hdiscard harrive hentry hbody
  obtain ⟨hcount, b₂, hb₂, hs₂⟩ := returned_spec flags.want hclosed sub results
  rw [hmark, ← hb₁.values, hcount] at hcall
  have harguments := arguments_called hs₁ flags.want sub
  rw [hb₁.values] at harguments hcall hs₂
  exact ⟨harguments, hcall, b₂, hb₁.trans hb₂, hs₂⟩

end Library

end ValueMachine

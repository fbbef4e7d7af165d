import ValueMachine.Proofs.Custody.Boundary

/-! Calls from host code and the bodies of subs in a custody. Host code that uses only the handles it
is given does what the custody allows, and so does all that the machine runs, at every nesting. -/

namespace ValueMachine

open Machine Run

/-- What host code starts does what a custody allows. -/
structure Custody.Attends (C : Custody) (r : Reentry) : Prop extends C.Serves r where
  evaluate : ∀ {held} source want, (r.evaluate source want).Honours C held noHandles

/-- The handles of a target. -/
def Target.handles : Target → List Handle
  | .sub h => [h]
  | _ => []

/-- The bodies of a library use only the handles that they are given and those that they find from
there on. -/
structure Library.Careful (C : Custody) (lib : Library) : Prop where
  routines : ∀ {name body}, lib.routines name = some body → ∀ {r : Reentry}, C.Attends r →
    ∀ {sub held}, sub ∈ held → (body r sub).Honours C held noHandles
  closures : ∀ {name closure}, lib.closures name = some closure → ∀ {r : Reentry}, C.Attends r →
    ∀ {args : Arguments} {held}, args.handles ⊆ held →
      (closure r args).run.Honours C held (handlesOf id)

namespace Custody.Liberal

variable {C : Custody} {held : List Handle} {h : Handle} {α : Type} {o : α → List Handle}
  {r : Reentry} {lib : Library}

variable (hL : C.Liberal)

include hL

/-! ### Calls from host code -/

theorem callName (hr : C.Attends r) (name : String) (flags : CallFlags) :
    (r.callName name flags).Honours C held noHandles :=
  Honours.bind hL.toLawful (o := ([·]))
    (Honours.modifyGet fun hm => hL.allocMortal (List.nil_subset _) hm)
    fun _ => hr.call flags List.mem_cons_self

theorem targetRun (hr : C.Attends r) {target : Target} (ht : target.handles ⊆ held) (want : Want) :
    (target.run r want).Honours C held noHandles := by
  cases target with
  | sub h => exact hr.call _ (ht (List.mem_singleton_self h))
  | name n => exact hL.callName hr n _
  | method n => exact hL.callName hr n _
  | source text => exact hr.evaluate text want

theorem start (hr : C.Attends r) {target : Target} (ht : target.handles ⊆ held)
    {args : List Datum} (hargs : ∀ d ∈ args, d.handles ⊆ held) (want : Want) :
    (Host.start r target args want).Honours C held noHandles := by
  have hC := hL.toLawful
  refine Honours.ite ?_ (hL.targetRun hr ht want)
  refine Honours.andThen hC (Honours.change fun hm => hC.pushMark hm) fun _ => ?_
  refine Honours.andThen hC (Honours.forM_mem hC fun d hd => hL.pass (hargs d hd)) fun _ => ?_
  exact hL.targetRun hr ht want

theorem outcome {collect : List Handle → Bridge α}
    (hcollect : ∀ {results held'}, results ⊆ held' →
      (collect results).run.Honours C held' (handlesOf o)) (count : Nat) :
    (Host.outcome count collect).Honours C held (handlesOf o) := by
  have hC := hL.toLawful
  refine Honours.bind hC (o := ([·])) (Honours.modifyGet fun hm => hC.errorSlot hm) fun slot => ?_
  refine Honours.andThen hC (hC.truth List.mem_cons_self) fun t => Honours.ite ?_ ?_
  · exact Honours.bind hC (hL.holdCopy List.mem_cons_self) fun v =>
      Honours.pure hC (List.subset_append_left _ _)
  · exact Honours.bind hC (o := id) (Honours.lookUp hC fun m => m.above_subset_places _) fun _ =>
      hcollect (List.subset_append_left _ _)

theorem hostCall (hr : C.Attends r) {target : Target} (ht : target.handles ⊆ held)
    {args : List Datum} (hargs : ∀ d ∈ args, d.handles ⊆ held) (want : Want)
    {collect : List Handle → Bridge α}
    (hcollect : ∀ {results held'}, results ⊆ held' →
      (collect results).run.Honours C held' (handlesOf o)) :
    (Host.call r target args want collect).run.Honours C held (handlesOf o) := by
  intro m hm
  have hscope := Honours.andThen hL.toLawful (hL.start hr ht hargs want)
    (fun count => hL.outcome hcollect count) _ (hL.enter hm)
  rw [Host.call_apply, Host.inScope]
  cases hs : (Host.start r target args want >>= fun n => Host.outcome n collect) m.enter.saveTemps
    with
  | error e m₁ => rw [hs] at hscope; exact hscope
  | ok result m₁ =>
    rw [hs] at hscope
    exact hL.close m.height hscope

/-! ### Bodies of subs -/

theorem raiseFailure (name : String) (f : Failure) (hf : f.held.map (·.handle) ⊆ held) :
    (Library.raiseFailure name f).Honours C held noHandles := by
  have hC := hL.toLawful
  have hdrop {m : Machine} (hm : C.Holds held m) : C.Holds held (m.dropAll f.held) :=
    hC.dropAll hf hm
  have htell : Honours C held noHandles (do
      let message ← f.message.otherwise (·.dropAll f.held)
      (ValueMachine.raise (.said (Failure.trimLines (name ++ ": " ++ message) ++ "\n")) :
        Run Unit).otherwise (·.dropAll f.held) : Run Unit) :=
    Honours.andThen hC (hL.otherwise (hL.message f hf) hdrop) fun _ =>
      hL.otherwise (Honours.raise hC _) hdrop
  cases f
  case died v =>
    have hv : v.handle ∈ held := hf (by simp [Failure.held])
    exact Honours.andThen hC (Honours.change fun hm => hC.mortal hv hm) fun _ => hC.raiseValue hv
  all_goals exact htell

theorem putResults (mark : Nat) {results : List Handle} (hsub : results ⊆ held) :
    (Library.putResults mark results).Honours C held noHandles := by
  have hC := hL.toLawful
  refine Honours.andThen hC (Honours.change fun hm => hC.truncate mark hm) fun _ => ?_
  exact Honours.forM_mem hC fun h hh => Honours.change fun hm =>
    hC.push (hsub hh) (hC.mortal (hsub hh) hm)

theorem enterClosure (hlib : lib.Careful C) (hr : C.Attends r) (sub : Handle) :
    (lib.enterClosure r sub).Honours C held noHandles := by
  have hC := hL.toLawful
  intro m hm
  rw [Library.enterClosure_apply]
  cases hclosure : lib.closure? m sub with
  | none => exact Honours.raise hC _ _ (hC.aloof (fun _ => rfl) hm)
  | some closure =>
    obtain ⟨name, hname⟩ : ∃ name, lib.closures name = some closure := by
      unfold Library.closure? at hclosure
      split at hclosure
      next name _ _ => exact ⟨name, hclosure⟩
      next => cases hclosure
    have hargs : m.above m.topMark ⊆ m.interp.places ++ held :=
      List.subset_append_of_subset_left _ (m.above_subset_places _)
    have hrun : Honours C (m.interp.places ++ held) noHandles
        ((closure r ⟨m.above m.topMark, m.interp.want⟩).run.attempt
          >>= Library.concluded (Library.subName m sub) m.topMark) :=
      hL.attempt (hlib.closures hname hr hargs) (fun ended => ?_) fun e => ?_
    · exact hC.ends_mono (List.subset_append_right _ _)
        (hrun _ (hC.aloof (fun _ => rfl) (hC.places hm)))
    · rcases ended with f | results
      · exact hL.raiseFailure _ f (List.subset_append_left _ _)
      · exact hL.putResults _ (List.subset_append_left _ _)
    · rcases e with _ | message | _
      · exact hL.throw _
      · exact Honours.raise hC _
      · exact hL.throw _

theorem run (hlib : lib.Careful C) (hr : C.Attends r) (entry : Entry) {sub : Handle}
    (hsub : sub ∈ held) : (lib.run r entry sub).Honours C held noHandles := by
  cases entry with
  | closure => exact hL.enterClosure hlib hr sub
  | routine name =>
    simp only [Library.run]
    cases hb : lib.routines name with
    | none => exact Honours.change fun hm => hL.aloof (fun _ => rfl) hm
    | some body => exact hlib.routines hb hr hsub

/-! ### Every nesting -/

/-- A named sub is put into its glob, and the former one is released. -/
theorem installSub (hh : h ∈ held) (name : String) {m : Machine} (hm : C.Holds held m) :
    C.Holds held (m.installSub name h) := by
  have hformer : (m.global? .code name).toList ⊆ m.interp.places ++ held := by
    refine List.subset_append_of_subset_left _ fun k hk => ?_
    exact Custody.Lawful.mem_places_of_global? (Option.mem_toList.1 hk)
  exact hL.mono (List.subset_append_right _ _) (hL.releaseAll hformer
    (hL.updateGlob_set (List.mem_append_right _ hh) _ .code (hL.places hm)))

theorem install (name closure : String) :
    (Library.install (some name) closure).Honours C held fun v => [v.handle] := by
  refine Honours.bind hL.toLawful (o := ([·])) (Honours.modifyGet fun {m} hm => ?_)
    fun sub => hL.hold List.mem_cons_self
  exact hL.installSub List.mem_cons_self name (hL.alloc (List.nil_subset _) hm)

theorem boot (hr : C.Attends r) (step : BootStep) : (Library.boot r step).Honours C held noHandles := by
  have hC := hL.toLawful
  cases step with
  | define name closure =>
    refine Honours.bind hC (hL.install name closure) fun v => ?_
    exact Honours.change fun hm => hC.drop List.mem_cons_self hm
  | fail message => exact Honours.raise hC _
  | require name => exact hr.require name
  | evaluate source =>
    have hcall : (Host.callVoid r (.source source) []).run.Honours C held (handlesOf noHandles) :=
      hL.hostCall hr (List.nil_subset _) (by simp) .void fun _ =>
        Honours.pure hC (List.nil_subset _)
    refine Honours.widen hC (w := noHandles) (Honours.bind hC hcall fun ended => ?_)
      fun _ => List.nil_subset _
    cases ended with
    | ok u => exact Honours.pure hC (List.nil_subset _)
    | error f => exact Honours.change fun hm => hC.dropAll (List.subset_append_left _ _) hm

theorem evaluate (hr : C.Attends r) (source : String) (want : Want) :
    (Source.evaluate r source want).Honours C held noHandles := by
  have hC := hL.toLawful
  refine Honours.andThen hC (Honours.look _) fun root => hC.trapped ?_ root want
  refine Honours.bind hC (hC.values hr.toServes source want held) fun values => ?_
  refine Honours.andThen hC (Honours.change fun hm => hC.pushAll (List.subset_append_left _ _) hm)
    fun _ => ?_
  exact Honours.modifyGet fun hm => hC.settle root want hm

/-- What the machine runs does what a custody allows, at every nesting. -/
theorem reentry (hlib : lib.Careful C) (depth : Nat) : C.Attends (lib.reentry depth) := by
  have hC := hL.toLawful
  induction depth with
  | zero => exact ⟨⟨fun _ _ => hL.throw _, fun _ => hL.throw _⟩, fun _ _ => hL.throw _⟩
  | succ depth ih =>
    have hcall {target : Handle} {held : List Handle} (flags : CallFlags) (ht : target ∈ held) :
        ((lib.reentry (depth + 1)).call target flags).Honours C held noHandles :=
      hC.callWith (fun entry {_ _} hsub => hL.run hlib ih entry hsub) (fun _ => hL.stops _ _) ht flags
    exact ⟨⟨hcall, fun name => hC.requireWith (fun step => hL.boot ih step) name⟩,
      fun source want => hL.evaluate ih source want⟩

end Custody.Liberal

end ValueMachine

import ValueMachine.Host.Stock
import ValueMachine.Proofs.Calls.Routes
import ValueMachine.Proofs.Ownership.Assignments

/-! What a call yields. Whichever way a sub is called, its closure is run on the arguments of the call
in the context that was asked for; and where it returns results, and `$@` is not true then, the call
yields all of them, the last one or none, as the context wants. -/

namespace ValueMachine

open Stacks Machine Manner Source

variable {m m' m₁ m₂ : Machine} {P : Promise} {lib : Library} {depth : Nat} {want : Want}
  {sub : Handle} {hs results : List Handle} {r : Reentry}

/-! ### Operations after which `$@` is not true -/

/-- What returns leaves a sound machine, with a false `$@` where quiet is asked for. -/
def Machine.Hushes {α : Type} (P : Promise) (quiet : Prop) (x : Run α) : Prop :=
  ∀ m a m', m.Sound P → x m = .ok a m' → m'.Sound P ∧ (quiet → m'.errorTrue = false)

namespace Machine.Hushes

variable {α β : Type} {quiet : Prop} {x : Run α} {f : α → Run β}

theorem cleared (hx : x.Moves (minding P quiet)) :
    Hushes P quiet (Run.change (·.cleared) >>= fun _ => x) := by
  intro m a m' hm hr
  obtain ⟨hm', hquiet⟩ := hx.ok hr hm.clear.1
  exact ⟨hm', fun hq => hquiet hq hm.clear.2⟩

theorem bind (hx : Hushes P quiet x) (hf : ∀ a, (f a).Moves (minding P quiet)) :
    Hushes P quiet (x >>= f) := by
  intro m b m' hm hr
  obtain ⟨a, m₁, ha, hb⟩ := Run.bind_ok hr
  obtain ⟨hm₁, hquiet⟩ := hx m a m₁ hm ha
  obtain ⟨hm', hquiet'⟩ := (hf a).ok hb hm₁
  exact ⟨hm', fun hq => hquiet' hq (hquiet hq)⟩

theorem after (hx : x.Moves (minding P quiet)) (hf : ∀ a, Hushes P quiet (f a)) :
    Hushes P quiet (x >>= f) := by
  intro m b m' hm hr
  obtain ⟨a, m₁, ha, hb⟩ := Run.bind_ok hr
  exact hf a m₁ b m' (hx.ok ha hm).1 hb

end Machine.Hushes

namespace Route

variable {quiet : Prop} {route : Route}

/-- The expressions of a text assign to these globals only. -/
def AssignsOnly (free : String → Prop) : Route → Prop
  | host _ _ => True
  | named _ _ args => args.AssignsOnly free
  | invoked _ invocant _ args => invocant.AssignsOnly free ∧ args.AssignsOnly free

theorem assignsOnly_free (route : Route) : route.AssignsOnly (Promise.Free False) := by
  have hfree : Promise.Free False = fun _ => True := funext fun _ => by simp [Promise.Free]
  rw [hfree]
  cases route with
  | host => trivial
  | named _ _ args => exact args.assignsOnly_true
  | invoked _ invocant _ args => exact ⟨invocant.assignsOnly_true, args.assignsOnly_true⟩

theorem putArguments_moves (hs : List Handle) : (do
    Run.change fun m => m.pushMark.pushAll hs
    return hs : Run (List Handle)).Moves (minding P quiet) :=
  (Run.Moves.change fun _ => minding_returns (drifts_still (by rfl))).bind fun _ => .pure hs

theorem passed_moves (d : Datum) : (passed d).Moves (minding P quiet) :=
  (minding_gives.toArgument d).bind fun h =>
    (Run.Moves.change fun _ => minding_returns (drifts_still (by rfl))).bind fun _ => .pure h

theorem resolve_moves (target : Handle) (method : Bool) (mark : Nat) :
    (if method then resolveMethod target mark else resolveSub target : Run Handle).Moves
      (minding P quiet) :=
  .ite (minding_plain.resolveMethod target mark) (minding_plain.resolveSub target)

/-- A call that traps exceptions clears `$@` itself. -/
theorem arrive_hushes (target : Handle) {flags : CallFlags} (htrap : flags.trap = true) :
    Hushes P quiet (arrive target flags) := by
  apply Hushes.after (Run.Moves.look _)
  intro mark m a m' hm hr
  simp only [htrap, if_true, Run.change_bind] at hr
  have hdrop : m.Drifts m.dropMark := drifts_still (by rfl) hm
  exact Hushes.cleared (resolve_moves target _ mark) m.dropMark a m' (hm.drifts hdrop) hr

theorem arrive_moves (target : Handle) {flags : CallFlags} (htrap : flags.trap = false) :
    (arrive target flags).Moves (minding P quiet) := by
  refine (Run.Moves.look _).bind fun mark => Run.Moves.bind (Run.Moves.change fun m => ?_) fun _ =>
    resolve_moves target _ mark
  rw [if_neg (by simp [htrap])]
  exact minding_returns (drifts_still (by rfl))

/-- A call is made up to the body of its sub. The evaluation of a text clears `$@` before the
arguments, and a call from host code when they have been passed. -/
theorem arrival_hushes (hlib : lib.Minds P) (hquiet : quiet → P.quiet)
    (hfree : route.AssignsOnly (Promise.Free quiet)) :
    Hushes P quiet (route.arrival lib depth want) := by
  have hevaluates := minding_evaluates (Library.reentry_minds hlib (depth + 1)) hquiet
  have hcall {x : Run (List Handle)} (htext : route.nesting = 2) (hx : Hushes P quiet x) :
      Hushes P quiet (x >>= fun hs => do
        let sub ← arrive (← route.callee.aim) (route.flags want)
        return (hs, sub)) :=
    hx.bind fun hs => route.callee.aim_moves.bind fun target =>
      (arrive_moves target (by simp [Route.flags, htext])).bind fun sub => .pure (hs, sub)
  apply Hushes.after (Run.Moves.change fun _ => minding_returns (drifts_still (by rfl)))
  intro _
  cases route with
  | host callee args =>
    have hpass : (pass (lib.reentry (depth + 1)) want (host callee args)).Moves (minding P quiet) :=
      (Run.Moves.change fun _ => minding_returns (drifts_still (by rfl))).bind fun _ =>
        Run.Moves.mapM passed_moves args
    exact .after hpass fun hs => .after callee.aim_moves fun target =>
      (arrive_hushes target rfl).bind fun sub => .pure (hs, sub)
  | named text name args =>
    exact hcall rfl (.cleared ((hevaluates.items args hfree).bind putArguments_moves))
  | invoked text invocant name args =>
    refine hcall rfl (.cleared ?_)
    exact (hevaluates.expr invocant hfree.1 want).bind fun vs =>
      (hevaluates.lastOrUndefined vs).bind fun h =>
        (hevaluates.items args hfree.2).bind fun hs => putArguments_moves (h :: hs)

/-- The closure of a sub ends in a sound machine, with a false `$@` where quiet is promised and
nothing in the text assigns to it. -/
theorem sound_of_answers (hlib : lib.Minds P) (hquiet : quiet → P.quiet)
    (hfree : route.AssignsOnly (Promise.Free quiet)) (hm : m.Sound P)
    (harrival : route.arrival lib depth want m = .ok (hs, sub) m₁) {mark : Nat}
    (hanswers : lib.Answers depth mark want sub results m₁ m₂) :
    m₂.Sound P ∧ (quiet → m₂.errorTrue = false) := by
  obtain ⟨hm₁, hfalse⟩ := arrival_hushes hlib hquiet hfree _ _ _ hm harrival
  obtain ⟨-, closure, hclosure, hrun⟩ := hanswers
  have hcalled : m₁.Drifts (m₁.called mark want sub) := hm₁.drifts_called mark want sub
  have hdrop : (m₁.called mark want sub).Drifts (m₁.called mark want sub).dropMark :=
    drifts_still (by rfl) (hm₁.drifts hcalled)
  have hend := Library.closures_moves hlib (Library.reentry_minds hlib depth) hclosure
    (m₁.called mark want sub).arguments (m₁.called mark want sub).dropMark
  rw [hrun] at hend
  obtain ⟨hm₂, hfalse'⟩ := hend (hm₁.drifts (hcalled.trans hdrop))
  exact ⟨hm₂, fun hq => hfalse' (hquiet hq) (hm₁.quiet (hcalled.trans hdrop) (hfalse hq))⟩

end Route

/-- Where `$@` is not true, the results are collected, in whichever way. -/
theorem Machine.Sound.outcome_collects (hm : m.Sound P) (hq : m.errorTrue = false) :
    ∃ m', m.Drifts m' ∧ m'.interp.toStacks = m.interp.toStacks ∧
      (∀ held, m.Orderly held → m'.Orderly held) ∧
      ∀ {α : Type} (count : Nat) (collect : List Handle → Bridge α),
        Host.outcome count collect m = (collect (m'.top count)).run m' := by
  obtain ⟨log, hlog⟩ := runReadHooks_eq hm.errorSlot.tame m.errorSlot.1
  refine ⟨{ m.errorSlot.2 with log := log }, hm.errorSlot.trans (drifts_log hm.errorSlot.tame log),
    (Still.errorSlot m).same, fun held ho => ho.errorSlot.orderly.congr rfl rfl rfl rfl rfl,
    fun count collect => ?_⟩
  rw [Host.outcome, Run.modifyGet_bind, Run.bind_apply, truth, Run.bind_apply, hlog]
  simp only [Run.look_apply]
  rw [hm.truthAt_errorSlot log, hq]
  rfl

/-- A call from host code gives these results to its collector, whichever that is, and closes its
scope when the collector has returned. -/
def Host.Collects (r : Reentry) (target : Target) (args : List Datum) (want : Want) (m : Machine)
    (results : List Handle) (m' : Machine) : Prop :=
  ∀ {α : Type} (collect : List Handle → Bridge α), (Host.call r target args want collect).run m =
    match (collect results).run m' with
    | .ok result m'' => .ok result (m''.truncate m.height).freeTemps.leave
    | .error e m'' => .error e m''

namespace Route

/-- Where a call arrives at the closure of a sub, the closure is run on the arguments of the call in
the context that was asked for. Where it returns results, and `$@` is not true then, the call yields
what the context takes of them, in their order. They have their values still, and what was given to
the call by count is not freed. -/
def Delivers (lib : Library) (depth : Nat) (want : Want) (m : Machine) (route : Route) : Prop :=
  ∀ {hs sub results m₁ m₂}, route.arrival lib depth want m = .ok (hs, sub) m₁ →
    lib.Answers depth m.height want sub results m₁ m₂ → m₂.errorTrue = false →
    (m₁.called m.height want sub).arguments = ⟨hs, want⟩ ∧
      ∃ m₃, Host.Collects (lib.reentry (depth + route.nesting)) route.target route.args want m
          (want.take m₂.interp.undefined results) m₃ ∧
        (∀ h s, m₂.body h = .scalar s → m₃.body h = .scalar s ∨ m₃.isFreed h = true) ∧
        ∀ held, m₂.Orderly (results ++ sub :: held) → ∀ h ∈ results, m₃.isFreed h = false

theorem delivers {route : Route} (hlib : lib.Disciplined) (hminds : lib.Minds P) (hm : m.Sound P)
    (hreads : route.Reads) (depth : Nat) (want : Want) : route.Delivers lib depth want m := by
  intro hs sub results m₁ m₂ harrival hanswers hq
  obtain ⟨hm₂, -⟩ := sound_of_answers hminds False.elim route.assignsOnly_free hm harrival hanswers
  have hdrifts := hm₂.drifts_returned m.height want sub results
  obtain ⟨harguments, hstart, b, hstacks⟩ := start_ok hlib hreads harrival hanswers
  obtain ⟨m₃, hd, hsame, horderly, hcollect⟩ :=
    (hm₂.drifts hdrifts).outcome_collects (hm₂.quiet hdrifts hq)
  refine ⟨harguments, m₃, fun collect => ?_, fun h s hb => ?_, fun held ho h hh => ?_⟩
  · have htop : m₃.top (want.take m₂.interp.undefined results).length
        = want.take m₂.interp.undefined results := top_of_topped (hsame.trans hstacks)
    rw [Host.call_apply, Host.inScope, Run.bind_of_ok hstart, hcollect]
    generalize m₃.top _ = taken at htop ⊢
    subst htop
    rfl
  · have hbody := body_drifts (hdrifts.trans hd).heap (h := h) (index_lt_of_scalar hb)
    rw [hb] at hbody
    exact hbody.of_scalar.imp id fun hf => by rw [isFreed, hf]; rfl
  · have htemps : h ∈ m₃.interp.temps.toList := by
      have hall : m₃.interp.toStacks.temps = m₂.interp.toStacks.temps ++ results := by
        rw [hsame, temps_returned]
      show h ∈ m₃.interp.toStacks.temps
      rw [hall]
      exact List.mem_append_right _ hh
    have howned : h ∈ m₃.interp.owned := by
      simp only [Interp.owned, List.mem_append]
      exact .inl (.inr htemps)
    exact (horderly _ (ho.returned m.height want)).not_isFreed_of_inUse
      (.interp List.mem_cons_self howned)

end Route

namespace Library

/-- Where the closure of a native sub returns results and leaves no true `$@`, a call of the sub yields
what its context takes of them, whether the call is one of code, of a name or of a method from host
code, or a source text that calls the name or the method. Subs that leave a false `$@` false, and
arguments that do not assign to it, leave it so. The name of a sub with plain documents in parentheses
is such a text unless the name has a meaning of its own, and so is the name of a class, an arrow and
the name of a method with plain documents in parentheses. -/
theorem calls_deliver (hlib : lib.Disciplined) (hminds : lib.Minds P) (depth : Nat) (want : Want) :
    (∀ {m : Machine} {route : Route}, m.Sound P → route.Reads → route.Delivers lib depth want m) ∧
    (∀ {m m₁ m₂ : Machine} {route : Route} {hs results : List Handle} {sub : Handle}, P.quiet →
      m.Sound P → route.AssignsOnly (Promise.Free P.quiet) →
        route.arrival lib depth want m = .ok (hs, sub) m₁ →
          lib.Answers depth m.height want sub results m₁ m₂ → m₂.errorTrue = false) ∧
    (∀ {name : String} {args : List Json} {n : Nat}, IsWord name → name ∉ ownWords →
      (Json.list args).Plain n →
        (Route.named (callText name args) name (Json.exprItems args)).Reads) ∧
    (∀ {className name : String} {args : List Json} {n : Nat}, IsWord className →
      className ≠ "qw" → className ≠ "my" → IsWord name → name ≠ "qw" → (Json.list args).Plain n →
        (Route.invoked (methodText className name args) (.string className) name
          (Json.exprItems args)).Reads) := by
  refine ⟨fun hm hreads => Route.delivers hlib hminds hm hreads depth want, ?_, reads_callText,
    reads_methodText⟩
  intro m m₁ m₂ route hs results sub hq hm hfree harrival hanswers
  exact (Route.sound_of_answers hminds id hfree hm harrival hanswers).2 hq

/-! ### A closure that gives its arguments back -/

/-- A library with one closure, which returns copies of its arguments. -/
def givingBack : Library where
  routines _ := none
  closures name := if name = "args" then some Stock.passAll else none

/-- An interpreter with that closure as a sub. -/
def backed : Machine :=
  (fresh.newSub (some "args") .closure "host" (some (.closure "args" []))).2

theorem givingBack_moves {M : Manner} (hM : M.Drops) {name : String} {closure : Closure}
    (hc : givingBack.closures name = some closure) (r : Reentry) (args : Arguments) :
    (closure r args).Moves M := by
  simp only [givingBack] at hc
  split at hc
  · cases hc
    exact hM.variadic (fun vs _ => .ofRun (Run.Moves.mapM hM.share vs)) args
  · cases hc

theorem givingBack_disciplined : givingBack.Disciplined where
  routines hb := by cases hb
  closures hc r _ args := givingBack_moves atHome_drops hc r args

theorem givingBack_minds (P : Promise) : givingBack.Minds P where
  routines hb := by cases hb
  closures hc r _ args := givingBack_moves minding_drops hc r args

theorem backed_sound (P : Promise) : backed.Sound P :=
  (sound_fresh P).drifts (.newSub (sound_fresh P).tame (sound_fresh P).bounded _ _ _ _)

/-- A call arrives at the closure, which gives so many values back, and leaves `$@` true or not. -/
def GivesBack (route : Route) (count : Nat) (failed : Bool) : Prop :=
  (route.arrival givingBack 0 .list).Yields backed fun p m₁ =>
    let m := m₁.called backed.height .list p.2
    (m₁.code? p.2).bind (·.entry) = some .closure ∧
      (m.code? p.2).bind (·.payload) = some (.closure "args" []) ∧
      (Stock.passAll (givingBack.reentry 0) m.arguments).run.Yields m.dropMark fun ended m₂ =>
        ended.toOption.map (·.length) = some count ∧ m₂.errorTrue = failed

instance (route : Route) (count : Nat) (failed : Bool) : Decidable (GivesBack route count failed) := by
  unfold GivesBack
  infer_instance

theorem GivesBack.answers {route : Route} {count : Nat} {failed : Bool}
    (h : GivesBack route count failed) : ∃ hs sub results m₁ m₂,
      route.arrival givingBack 0 .list backed = .ok (hs, sub) m₁ ∧
      givingBack.Answers 0 backed.height .list sub results m₁ m₂ ∧ results.length = count ∧
      m₂.errorTrue = failed := by
  obtain ⟨⟨hs, sub⟩, m₁, harrival, hentry, hpayload, hyields⟩ := h.exists_ok
  obtain ⟨ended, m₂, hrun, hcount, herror⟩ := hyields.exists_ok
  cases ended with
  | error f => cases hcount
  | ok results =>
    have hclosure : givingBack.closure? (m₁.called backed.height .list sub) sub
        = some Stock.passAll := by
      rw [closure?, hpayload]
      rfl
    exact ⟨hs, sub, results, m₁, m₂, harrival, ⟨hentry, _, hclosure, hrun⟩,
      Option.some_injective _ hcount, herror⟩

/-- The closure is called by name from host code and from a source text. -/
theorem backed_delivers : givingBack.Disciplined ∧ givingBack.Minds ⟨True, False⟩ ∧
    backed.Sound ⟨True, False⟩ ∧
    (∃ results m₃, results.length = 2 ∧ Host.Collects (givingBack.reentry 1) (.name "args")
      [.signed 3, .text "x"] .list backed results m₃) ∧
    (∃ results m₃, results.length = 2 ∧ Host.Collects (givingBack.reentry 2)
      (.source "args(3, 'x')") [] .list backed results m₃) := by
  obtain ⟨hdelivers, hquiet, hreads, -⟩ :=
    calls_deliver givingBack_disciplined (givingBack_minds ⟨True, False⟩) 0 .list
  have hargs : (Json.list [.int 3, .text "x"]).Plain 1 := by
    refine .list fun j hj => ?_
    rcases List.mem_cons.1 hj with rfl | hj
    · exact .int ⟨by decide, by decide⟩
    · rw [List.mem_singleton.1 hj]
      exact .text
  have htext := hreads (by decide +kernel : IsWord "args") (by decide) hargs
  have hhost : GivesBack (.host (.sub "args") [.signed 3, .text "x"]) 2 false := by decide +kernel
  have hsource : GivesBack (.named (callText "args" [.int 3, .text "x"]) "args"
      (Json.exprItems [.int 3, .text "x"])) 2 false := by decide +kernel
  refine ⟨givingBack_disciplined, givingBack_minds _, backed_sound _, ?_, ?_⟩
  · obtain ⟨hs, sub, results, m₁, m₂, harrival, hanswers, hcount, -⟩ := hhost.answers
    have hread : (Route.host (.sub "args") [.signed 3, .text "x"]).Reads := trivial
    have hfree : (Route.host (.sub "args") [.signed 3, .text "x"]).AssignsOnly
        (Promise.Free True) := trivial
    have hq := hquiet trivial (backed_sound _) hfree harrival hanswers
    obtain ⟨-, m₃, hcollects, -⟩ := hdelivers (backed_sound _) hread harrival hanswers hq
    exact ⟨results, m₃, hcount, hcollects⟩
  · obtain ⟨hs, sub, results, m₁, m₂, harrival, hanswers, hcount, hq⟩ := hsource.answers
    obtain ⟨-, m₃, hcollects, -⟩ := hdelivers (backed_sound _) htext harrival hanswers hq
    exact ⟨results, m₃, hcount, hcollects⟩

/-! ### An exception that was assigned -/

/-- A text that calls the closure on the value of an assignment to `$@`. -/
def assigning : Route :=
  .named "args($@ = 'x')" "args" (.cons (.assign "@" (.string "x")) .done)

theorem assigning_reads : assigning.Reads := by
  have hstatements : statements [.word "args", .mark .openParen, .scalar "@", .mark .equals,
      .string "x", .mark .closeParen]
      = [⟨.call "args" (.cons (.assign "@" (.string "x")) .done), .done⟩] := by
    refine statements_of_item (by decide) (by decide)
      (item_word (by decide) ?_ (Parser.arrows_ends trivial))
    simp [Parser.wordTerm, Parser.items, Parser.item, Parser.term, Parser.skipMy, Parser.arrows,
      Parser.finish, Parser.atClose]
  have htokens : tokens "args($@ = 'x')" = .ok [.word "args", .mark .openParen, .scalar "@",
      .mark .equals, .string "x", .mark .closeParen] := by decide +kernel
  exact ⟨_, htokens, hstatements⟩

theorem assigning_fails : (Host.call (givingBack.reentry 2) assigning.target assigning.args .list
    Host.collectNothing).run.Yields backed fun ended _ => ended.toOption = none := by
  decide +kernel

/-- A `$@` that was assigned counts as an exception at the end of a call, though nothing was raised:
the closure returns its argument, and the call fails with it. -/
theorem assigned_error_fails : assigning.Reads ∧ ¬ ∀ {hs sub results m₁ m₂},
    assigning.arrival givingBack 0 .list backed = .ok (hs, sub) m₁ →
      givingBack.Answers 0 backed.height .list sub results m₁ m₂ →
        ∃ m₃, Host.Collects (givingBack.reentry 2) assigning.target assigning.args .list backed
          (Want.list.take m₂.interp.undefined results) m₃ := by
  refine ⟨assigning_reads, fun hcollected => ?_⟩
  have hassigns : GivesBack assigning 1 true := by decide +kernel
  obtain ⟨hs, sub, results, m₁, m₂, harrival, hanswers, -⟩ := hassigns.answers
  obtain ⟨m₃, hcollects⟩ := hcollected harrival hanswers
  obtain ⟨ended, m', hrun, hended⟩ := assigning_fails.exists_ok
  have hends := hcollects Host.collectNothing
  rw [hrun] at hends
  cases hends
  cases hended

end Library

end ValueMachine

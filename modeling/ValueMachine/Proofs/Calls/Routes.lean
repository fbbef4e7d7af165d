import ValueMachine.Proofs.Calls.Settling
import ValueMachine.Proofs.Sources.Callings

/-! The ways to call a sub. Host code calls code, a sub by name or a method of its first argument, and
source text that is evaluated calls a sub by name or a method of its invocant. By each of them the
closure of the sub is run on the same arguments in the context that was asked for, and the call
yields what that context takes of its results. -/

namespace ValueMachine

open Stacks Machine Manner Source

variable {m m' m₁ m₂ m₃ m₄ : Machine} {b : Stacks} {P : Promise} {quiet : Prop} {lib : Library}
  {depth : Nat} {want : Want} {sub : Handle} {hs results : List Handle} {r : Reentry} {α : Type}

/-! ### The sub of a call -/

/-- What is called. -/
inductive Callee where
  /-- Code, or a reference to it. -/
  | code (h : Handle)
  | sub (name : String)
  /-- A method of the first argument. -/
  | method (name : String)

namespace Callee

def target : Callee → Target
  | .code h => .sub h
  | .sub name => .name name
  | .method name => .method name

def isMethod : Callee → Bool
  | .method _ => true
  | _ => false

/-- The value that a call is made with. A name is a temporary. -/
def aim : Callee → Run Handle
  | .code h => pure h
  | .sub name | .method name => modifyGet (·.allocMortal (.scalar (.ofText name)))

theorem run_eq (callee : Callee) (r : Reentry) (want : Want) : callee.target.run r want =
    callee.aim >>= fun h => r.call h { CallFlags.trapping want with method := callee.isMethod } := by
  cases callee <;> rfl

theorem aim_moves (callee : Callee) : callee.aim.Moves (minding P quiet) := by
  have hnamed (name : String) : (modifyGet (·.allocMortal (.scalar (.ofText name))) :
      Run Handle).Moves (minding P quiet) := Run.Moves.modifyGet fun m => minding_returns fun hm => by
    have halloc : m.Drifts (m.alloc (.scalar (.ofText name))).2 := .alloc hm.tame (by simp)
    exact halloc.trans (drifts_still (by rfl) (hm.drifts halloc))
  cases callee with
  | code h => exact .pure h
  | sub name | method name => exact hnamed name

/-- The arguments stay where they are. -/
theorem aim_ok {callee : Callee} {h : Handle} {args : List Handle}
    (hm : m.interp.toStacks = b.withArguments args) (hr : callee.aim m = .ok h m') :
    ∃ b', b.Kept b' ∧ m'.interp.toStacks = b'.withArguments args := by
  have hmoves : callee.aim.Moves atHome := by
    cases callee with
    | code h => exact .pure h
    | sub name | method name =>
      exact Run.Moves.modifyGet fun m => atHome.trans (atHome_of_returns (steady_alloc m _))
        (atHome_stores.mortal _ _)
  exact (hm ▸ (hmoves.ok hr).2).of_withArguments

end Callee

/-! ### The ways to call -/

/-- A way to call a sub: from host code, or by the evaluation of a source text. -/
inductive Route where
  | host (callee : Callee) (args : List Datum)
  /-- The text is a call by name. -/
  | named (text name : String) (args : Items)
  /-- The text is a call of a method. -/
  | invoked (text : String) (invocant : Expr) (name : String) (args : Items)

namespace Route

/-- What host code calls. -/
def target : Route → Target
  | host callee _ => callee.target
  | named text _ _ | invoked text _ _ _ => .source text

def args : Route → List Datum
  | host _ args => args
  | _ => []

def callee : Route → Callee
  | host callee _ => callee
  | named _ name _ => .sub name
  | invoked _ _ name _ => .method name

/-- How deep the closure of the sub is nested in the call. -/
def nesting : Route → Nat
  | host _ _ => 1
  | _ => 2

/-- The text is the call that it stands for. -/
def Reads : Route → Prop
  | host _ _ => True
  | named text name args => Source.Reads text (.call name args)
  | invoked text invocant name args => Source.Reads text (.method invocant name args)

/-- How the sub is called. The evaluation of a text is a trap as a whole. -/
def flags (route : Route) (want : Want) : CallFlags :=
  { CallFlags.plain want with
    trap := route.nesting = 1
    method := route.callee.isMethod }

/-- Pass an argument of host code. -/
def passed (d : Datum) : Run Handle := do
  let h ← d.toArgument
  Run.change fun m => (m.mortal h).push h
  return h

/-- The arguments of the call are put above a mark. The invocant of a method is the first. -/
def pass (r : Reentry) (want : Want) : Route → Run (List Handle)
  | host _ args => do
    Run.change (·.pushMark)
    args.mapM passed
  | named _ _ args => do
    Run.change (·.cleared)
    let hs ← args.eval r
    Run.change fun m => m.pushMark.pushAll hs
    return hs
  | invoked _ invocant _ args => do
    Run.change (·.cleared)
    let h ← lastOrUndefined (← invocant.eval r want)
    let hs ← args.eval r
    Run.change fun m => m.pushMark.pushAll (h :: hs)
    return h :: hs

/-- A call from host code is made up to the body of the sub: the arguments of the sub, and the sub
itself. -/
def arrival (lib : Library) (depth : Nat) (want : Want) (route : Route) :
    Run (List Handle × Handle) := do
  Run.change (·.enter.saveTemps)
  let hs ← route.pass (lib.reentry (depth + 1)) want
  let target ← route.callee.aim
  let sub ← arrive target (route.flags want)
  return (hs, sub)

/-! ### The arguments -/

theorem pass_eq (d : Datum) : Host.pass d = passed d >>= fun _ => pure () := by
  simp [Host.pass, passed]

theorem forM_pass {args : List Datum} (hr : args.mapM passed m = .ok hs m') :
    args.forM Host.pass m = .ok () m' := by
  induction args generalizing m hs with
  | nil =>
    cases hr
    rfl
  | cons d args ih =>
    rw [List.mapM_cons] at hr
    obtain ⟨h, m₁, hd, hr₁⟩ := Run.bind_ok hr
    obtain ⟨rest, m₂, hrest, hr₂⟩ := Run.bind_ok hr₁
    cases hr₂
    have hpass : Host.pass d m = .ok () m₁ := by
      rw [pass_eq, Run.bind_of_ok hd]
      rfl
    show (Host.pass d >>= fun _ => args.forM Host.pass) m = _
    rw [Run.bind_of_ok hpass]
    exact ih hrest

theorem passAll_ok {args : List Datum} {vs : List Handle}
    (hm : m.interp.toStacks = b.withArguments vs) (hr : args.mapM passed m = .ok hs m') :
    ∃ b', b.Kept b' ∧ m'.interp.toStacks = b'.withArguments (vs ++ hs) := by
  induction args generalizing m b vs hs with
  | nil =>
    cases hr
    exact ⟨b, .refl b, by rw [List.reverse_nil, List.append_nil]; exact hm⟩
  | cons d args ih =>
    rw [List.mapM_cons] at hr
    obtain ⟨h, m₁, hd, hr₁⟩ := Run.bind_ok hr
    obtain ⟨rest, m₂, hrest, hr₂⟩ := Run.bind_ok hr₁
    cases hr₂
    obtain ⟨k, m₃, hvalue, hput⟩ := Run.bind_ok hd
    cases hput
    have hkept : (b.withArguments vs).Kept m₃.interp.toStacks :=
      hm ▸ ((atHome_stores.gives.toArgument d).ok hvalue).2
    obtain ⟨b₃, hb₃, hs₃⟩ := hkept.of_withArguments
    let b₁ : Stacks := { b₃ with temps := b₃.temps ++ [h] }
    have hb₁ : b.Kept b₁ := hb₃.trans ⟨rfl, rfl, rfl, rfl, List.prefix_append _ _, rfl⟩
    have hs₁ : ((m₃.mortal h).push h).interp.toStacks = b₁.withArguments (vs ++ [h]) := by
      rw [toStacks_push, toStacks_mortal, hs₃]
      simp [withArguments, b₁]
    obtain ⟨b₂, hb₂, hs₂⟩ := ih hs₁ hrest
    refine ⟨b₂, hb₁.trans hb₂, ?_⟩
    rw [hs₂, List.append_assoc]
    rfl

theorem pushArguments_ok {m₀ : Machine} (hm : m₀.cleared.interp.toStacks.Kept m.interp.toStacks)
    (hs : List Handle) : m₀.interp.toStacks.Kept m.interp.toStacks ∧
      (m.pushMark.pushAll hs).interp.toStacks = m.interp.toStacks.withArguments hs := by
  have hclear : m₀.cleared.interp.toStacks = m₀.interp.toStacks := (Still.setError m₀ _).same
  refine ⟨hclear ▸ hm, ?_⟩
  rw [toStacks_pushAll, toStacks_pushMark]
  simp [withArguments]

/-- The arguments of the call lie above a mark, in their order. -/
theorem pass_ok (hbal : r.Balanced) {route : Route} (hr : route.pass r want m = .ok hs m') :
    ∃ b, m.interp.toStacks.Kept b ∧ m'.interp.toStacks = b.withArguments hs := by
  have hitems (es : Items) : (es.eval r).Moves atHome :=
    hbal.evaluates.items es es.assignsOnly_true
  cases route with
  | host callee args => exact passAll_ok (toStacks_pushMark m) hr
  | named text name args =>
    rw [pass, Run.change_bind] at hr
    obtain ⟨vs, m₁, hargs, hr₁⟩ := Run.bind_ok hr
    cases hr₁
    exact ⟨_, pushArguments_ok ((hitems args).ok hargs).2 hs⟩
  | invoked text invocant name args =>
    rw [pass, Run.change_bind] at hr
    obtain ⟨vs, m₁, hbase, hr₁⟩ := Run.bind_ok hr
    obtain ⟨h, m₂, hlast, hr₂⟩ := Run.bind_ok hr₁
    obtain ⟨rest, m₃, hargs, hr₃⟩ := Run.bind_ok hr₂
    cases hr₃
    have hinvocant := (hbal.evaluates.expr invocant invocant.assignsOnly_true want).ok hbase
    have hkept := atHome.trans (atHome.trans hinvocant ((hbal.evaluates.lastOrUndefined vs).ok hlast))
      ((hitems args).ok hargs)
    exact ⟨_, pushArguments_ok hkept.2 (h :: rest)⟩

end Route

/-! ### Calls in source text -/

namespace Source

variable {text name : String} {e : Expr} {target undefined : Handle}

/-- A call in source text takes its results off the stack. -/
theorem call_ok (isMethod : Bool) {callee : Callee} (hcallee : callee = if isMethod then .method name else .sub name)
    (haim : callee.aim (m.pushMark.pushAll hs) = .ok target m₁)
    (hcall : r.call target { CallFlags.plain want with method := isMethod } m₁
      = .ok results.length m₂) (hm₂ : m₂.interp.toStacks = b.topped results) :
    call r name hs want isMethod m = .ok results (m₂.truncate m.height) := by
  have hname : r.callName name { CallFlags.plain want with method := isMethod }
      (m.pushMark.pushAll hs) = .ok results.length m₂ := by
    have heq : r.callName name { CallFlags.plain want with method := isMethod }
        = callee.aim >>= fun h => r.call h { CallFlags.plain want with method := isMethod } := by
      subst hcallee
      cases isMethod <;> rfl
    rw [heq, Run.bind_of_ok haim, hcall]
  rw [call_eq, Run.look_bind, Run.change_bind, Run.bind_of_ok hname, takeResults, Run.look_bind,
    Run.change_bind, top_of_topped hm₂]
  rfl

/-- A text of one expression puts its values back on the stack, where they are settled as they were. -/
theorem evaluate_ok (hreads : Reads text e)
    (heval : e.eval r want m.cleared
      = .ok (want.take undefined results) (m₂.truncate b.values.length))
    (hm : m.height = b.values.length) (hm₂ : m₂.interp.toStacks = b.topped (want.take undefined results)) :
    evaluate r text want m = .ok (want.take undefined results).length m₂ := by
  have hvalues : values r text want m.cleared
      = .ok (want.take undefined results) (m₂.truncate b.values.length) := by
    rw [hreads.values_eq, heval]
  have hbody : (do
      let results ← values r text want
      Run.change (·.pushAll results)
      modifyGet (·.settle m.height want) : Run Nat) m.cleared
        = .ok (want.take undefined results).length m₂ := by
    rw [Run.bind_of_ok hvalues, Run.change_bind, Run.modifyGet_apply, hm, settle_again hm₂]
  unfold cleared at hbody
  rw [evaluate, Run.look_bind, trapped_apply, hbody]

variable {args : Items} {invocant : Expr} {h : Handle} {vs : List Handle}

/-- A text that is a call by name. -/
theorem named_ok (hreads : Reads text (.call name args)) (hargs : args.eval r m.cleared = .ok hs m₁)
    (hkept : m₁.height = m.height)
    (haim : (Callee.sub name).aim (m₁.pushMark.pushAll hs) = .ok target m₂)
    (hcall : r.call target (.plain want) m₂ = .ok (want.take undefined results).length m')
    (hheight : m.height = b.values.length)
    (hm' : m'.interp.toStacks = b.topped (want.take undefined results)) :
    evaluate r text want m = .ok (want.take undefined results).length m' := by
  have hcalled : call r name hs want false m₁
      = .ok (want.take undefined results) (m'.truncate m₁.height) :=
    call_ok false rfl haim hcall hm'
  refine evaluate_ok hreads ?_ hheight hm'
  rw [Expr.eval, Run.bind_of_ok hargs, hcalled, hkept, hheight]

/-- A text that is a call of a method. -/
theorem invoked_ok (hreads : Reads text (.method invocant name args))
    (hinvocant : invocant.eval r want m.cleared = .ok vs m₃)
    (hlast : lastOrUndefined vs m₃ = .ok h m₄) (hargs : args.eval r m₄ = .ok hs m₁)
    (hkept : m₁.height = m.height)
    (haim : (Callee.method name).aim (m₁.pushMark.pushAll (h :: hs)) = .ok target m₂)
    (hcall : r.call target { CallFlags.plain want with method := true } m₂
      = .ok (want.take undefined results).length m')
    (hheight : m.height = b.values.length)
    (hm' : m'.interp.toStacks = b.topped (want.take undefined results)) :
    evaluate r text want m = .ok (want.take undefined results).length m' := by
  have hcalled : call r name (h :: hs) want true m₁
      = .ok (want.take undefined results) (m'.truncate m₁.height) :=
    call_ok true rfl haim hcall hm'
  refine evaluate_ok hreads ?_ hheight hm'
  rw [Expr.eval, Run.bind_of_ok hinvocant, Run.bind_of_ok hlast, Run.bind_of_ok hargs, hcalled,
    hkept, hheight]

end Source

/-! ### The results of a call -/

namespace Route

variable {callee : Callee} {args : List Datum} {target : Handle} {n : Nat}

theorem host_ok (hargs : args.mapM passed m.pushMark = .ok hs m₁)
    (haim : callee.aim m₁ = .ok target m₂)
    (hcall : r.call target { CallFlags.trapping want with method := callee.isMethod } m₂ = .ok n m') :
    Host.start r callee.target args want m = .ok n m' := by
  have htakes : callee.target.takesArguments = true := by cases callee <;> rfl
  rw [Host.start, if_pos htakes, Run.change_bind, Run.bind_of_ok (forM_pass hargs), Callee.run_eq,
    Run.bind_of_ok haim, hcall]

/-- A call that arrives at a closure runs it on its arguments, in the context that was asked for, and
where the closure returns results the call has what the context takes of them on top of the stack. -/
theorem start_ok {route : Route} (hlib : lib.Disciplined) (hreads : route.Reads)
    (harrival : route.arrival lib depth want m = .ok (hs, sub) m₁)
    (hanswers : lib.Answers depth m.height want sub results m₁ m₂) :
    (m₁.called m.height want sub).arguments = ⟨hs, want⟩ ∧
      Host.start (lib.reentry (depth + route.nesting)) route.target route.args want m.enter.saveTemps
        = .ok (want.take m₂.interp.undefined results).length (m₂.returned m.height want sub results) ∧
      ∃ b : Stacks, (m₂.returned m.height want sub results).interp.toStacks
        = b.topped (want.take m₂.interp.undefined results) := by
  have hbal := Library.reentry_balanced hlib (depth + 1)
  have hitems (es : Items) : (es.eval (lib.reentry (depth + 1))).Moves atHome :=
    hbal.evaluates.items es es.assignsOnly_true
  rw [arrival, Run.change_bind] at harrival
  obtain ⟨vs, m₃, hpass, hr₁⟩ := Run.bind_ok harrival
  obtain ⟨target, m₄, haim, hr₂⟩ := Run.bind_ok hr₁
  obtain ⟨_, _, harrive, hr₃⟩ := Run.bind_ok hr₂
  cases hr₃
  obtain ⟨b₃, hb₃, hs₃⟩ := pass_ok hbal hpass
  obtain ⟨b₄, hb₄, hs₄⟩ := Callee.aim_ok hs₃ haim
  have hheight : m.height = b₄.values.length := by
    rw [(hb₃.trans hb₄).values, ← height_eq]
    rfl
  have hkept {m₀ : Machine} (h : atHome.returns m.enter.saveTemps.cleared m₀) :
      m₀.height = m.enter.saveTemps.height := by
    have hclear := (Still.setError m.enter.saveTemps (.ofByteText ⟨[], false⟩)).same
    rw [height_eq, h.2.values, cleared, hclear, ← height_eq]
  rw [hheight] at hanswers ⊢
  obtain ⟨harguments, hcall, b₅, hb₅, hs₅⟩ := Library.call_answers hlib hs₄ harrive rfl rfl hanswers
  refine ⟨harguments, ?_, b₅, hs₅⟩
  rw [← hb₅.values] at hheight
  cases route with
  | host callee args => exact host_ok hpass haim hcall
  | named text name args =>
    rw [pass, Run.change_bind] at hpass
    obtain ⟨vs, m₅, hargs, hr⟩ := Run.bind_ok hpass
    cases hr
    exact Source.named_ok hreads hargs (hkept ((hitems args).ok hargs)) haim hcall hheight hs₅
  | invoked text invocant name args =>
    rw [pass, Run.change_bind] at hpass
    obtain ⟨vs, m₅, hinvocant, hr⟩ := Run.bind_ok hpass
    obtain ⟨h, m₆, hlast, hr⟩ := Run.bind_ok hr
    obtain ⟨rest, m₇, hargs, hr⟩ := Run.bind_ok hr
    cases hr
    have hmoves := atHome.trans (atHome.trans
      ((hbal.evaluates.expr invocant invocant.assignsOnly_true want).ok hinvocant)
      ((hbal.evaluates.lastOrUndefined vs).ok hlast)) ((hitems args).ok hargs)
    exact Source.invoked_ok hreads hinvocant hlast hargs (hkept hmoves) haim hcall hheight hs₅

end Route

end ValueMachine

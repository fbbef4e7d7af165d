import ValueMachine.Proofs.Custody.Values
import ValueMachine.Source.Eval

/-! The evaluation of source text in a custody: whatever the text, it finds its values in the
machine or makes them. What it calls and loads does what the custody allows by assumption. -/

namespace ValueMachine

open Machine Run Source

/-- What running code starts does what a custody allows. -/
structure Custody.Serves (C : Custody) (r : Reentry) : Prop where
  call : ∀ {target held} flags, target ∈ held → (r.call target flags).Honours C held noHandles
  require : ∀ {held} name, (r.require name).Honours C held noHandles

theorem owned_ofBool (b : Bool) {held : List Handle} : (Scalar.ofBool b).owned ⊆ held := by
  cases b <;> exact List.nil_subset _

theorem owned_ofNumber (n : Number) {held : List Handle} : (Scalar.ofNumber n).owned ⊆ held := by
  rcases n with (_ | _) | _ <;> exact List.nil_subset _

namespace Custody.Lawful

section

variable {C : Custody} {held : List Handle} {h : Handle} {s : Scalar} {r : Reentry}
  {args values : List Handle}

variable (hC : C.Lawful)

include hC

/-! ### Steps of expressions -/

theorem temporary (hs : s.owned ⊆ held := by exact List.nil_subset _) :
    (temporary s).Honours C held ([·]) :=
  Honours.modifyGet fun hm => hC.allocMortal hs hm

theorem oneTemporary (hs : s.owned ⊆ held := by exact List.nil_subset _) :
    (do return [← Source.temporary s] : Run (List Handle)).Honours C held id :=
  Honours.bind hC (hC.temporary hs) fun _ => Honours.pure hC (List.subset_append_left _ _)

theorem lastOrUndefined (hv : values ⊆ held) :
    (lastOrUndefined values).Honours C held ([·]) := by
  unfold Source.lastOrUndefined
  cases hl : values.getLast? with
  | some h => exact Honours.pure hC (by simpa using hv (List.mem_of_getLast? hl))
  | none => exact hC.temporary

theorem orUndefined {o : Option Handle} (ho : o.toList ⊆ held) :
    (orUndefined o).Honours C held ([·]) := by
  cases o with
  | some h => exact Honours.pure hC ho
  | none => exact hC.temporary

theorem referentOf (hh : h ∈ held) (kind : Kind) :
    (referentOf kind h).Honours C held ([·]) := by
  refine Honours.bind hC (hC.lookTarget hh) fun target => ?_
  cases target with
  | none => exact Honours.raise hC _
  | some target =>
    refine Honours.andThen hC (Honours.look _) fun _ => Honours.ite ?_ (Honours.raise hC _)
    exact Honours.pure hC (List.subset_append_left _ _)

theorem elementOf (hh : h ∈ held) (hv : values ⊆ held) :
    (elementOf h values).Honours C held ([·]) := by
  have hfetch (i : Int) : Honours C held ([·]) (do
      let array ← Source.referentOf .array h
      Source.orUndefined (← Machine.arrayFetch? array i) : Run Handle) :=
    Honours.bind hC (hC.referentOf hh .array) fun _ =>
      Honours.bind hC (hC.arrayFetch? List.mem_cons_self i) fun _ =>
        hC.orUndefined (List.subset_append_left _ _)
  cases values with
  | nil => exact Honours.andThen hC (Honours.pure hC (List.nil_subset _)) hfetch
  | cons k _ =>
    have hnumber := Honours.andThen hC (hC.number (hv List.mem_cons_self)) fun n =>
      Honours.pure hC (a := n.toInt64.toInt) (o := noHandles) (List.nil_subset held)
    exact Honours.andThen hC hnumber hfetch

theorem entryOf (hh : h ∈ held) (key : Bytes) : (entryOf h key).Honours C held ([·]) :=
  Honours.bind hC (hC.referentOf hh .hash) fun _ =>
    Honours.bind hC (hC.hashFetch? List.mem_cons_self key) fun _ =>
      hC.orUndefined (List.subset_append_left _ _)

theorem keyOf (hv : values ⊆ held) : (keyOf values).Honours C held noHandles := by
  cases values with
  | nil => exact Honours.pure hC (List.nil_subset _)
  | cons k _ =>
    exact Honours.andThen hC (hC.text (hv List.mem_cons_self)) fun _ =>
      Honours.pure hC (List.nil_subset _)

theorem arrayOf (hv : values ⊆ held) : (arrayOf values).Honours C held ([·]) := by
  refine Honours.bind hC (o := ([·]))
    (Honours.modifyGet fun hm => hC.alloc (List.nil_subset _) hm) fun array => ?_
  refine Honours.andThen hC (Honours.forM_mem hC fun k hk => ?_) fun _ => hC.temporary (by simp [Scalar.owned, Scalar.ofTarget])
  refine Honours.bind hC (hC.newCopy (List.mem_cons_of_mem _ (hv hk))) fun _ => ?_
  exact hC.arrayPush (by simp) (by simp)

theorem putPairs (hh : h ∈ held) (hv : values ⊆ held) :
    (putPairs h values).Honours C held noHandles := by
  fun_induction Source.putPairs h values generalizing held with
  | case1 key value rest ih =>
    refine Honours.andThen hC (hC.text (hv (by simp))) fun _ => ?_
    refine Honours.bind hC (hC.newCopy (hv (by simp))) fun v => ?_
    refine Honours.andThen hC (hC.hashPut (by simp [hh]) (by simp) _) fun _ => ?_
    exact ih (by simp [hh]) fun k hk => List.mem_append_right _ (hv (by simp [hk]))
  | case2 key =>
    refine Honours.andThen hC (hC.text (hv (by simp))) fun _ => ?_
    refine Honours.bind hC (hC.newScalar (List.nil_subset _)) fun _ => ?_
    exact hC.hashPut (by simp [hh]) (by simp) _
  | case3 => exact Honours.pure hC (List.nil_subset _)

theorem hashOf (hv : values ⊆ held) : (hashOf values).Honours C held ([·]) := by
  refine Honours.bind hC (o := ([·]))
    (Honours.modifyGet fun hm => hC.alloc (List.nil_subset _) hm) fun hash => ?_
  refine Honours.andThen hC (hC.putPairs List.mem_cons_self fun k hk => ?_) fun _ =>
    hC.temporary (by simp [Scalar.owned, Scalar.ofTarget])
  exact List.mem_cons_of_mem _ (hv hk)

theorem elementsOf (name : String) (want : Want) :
    (elementsOf name want).Honours C held id := by
  have hend (elements : List Handle) (held : List Handle) (hsub : elements ⊆ held) :
      Honours C held id (
        if want = .scalar then
          do return [← Source.temporary (.ofInt64 (Int64.ofNat elements.length))]
        else return elements : Run (List Handle)) :=
    Honours.ite hC.oneTemporary (Honours.pure hC hsub)
  refine Honours.bind hC (hC.lookGlobal _ _) fun array => ?_
  cases array with
  | none =>
    exact Honours.bind hC (o := id) (Honours.pure hC (List.nil_subset _)) fun elements =>
      hend elements _ (List.subset_append_left _ _)
  | some array =>
    refine Honours.bind hC (hC.slots List.mem_cons_self) fun xs => ?_
    refine Honours.bind hC (Honours.mapM_mem hC (p := ([·])) fun o ho held' hsub => ?_)
      fun elements => hend _ _ (by simp)
    have ho (k : Handle) (hk : k ∈ o.toList) : k ∈ Slots.owned xs :=
      List.mem_filterMap.2 ⟨o, ho, by simpa using hk⟩
    exact hC.orUndefined fun k hk => hsub (List.mem_append_left _ (ho k hk))

theorem die {α : Type} {o : α → List Handle} (hv : values ⊆ held) :
    (die values : Run α).Honours C held o := by
  have hsay : Honours C held o (do
      let message := String.join (← values.mapM Machine.string)
      let message := if message.isEmpty then "Died" else message
      ValueMachine.raise (.said (if message.endsWith "\n" then message
        else message ++ " at (eval) line 1.\n")) : Run α) := by
    refine Honours.bind hC (Honours.mapM_mem hC (p := noHandles) fun k hk _ hsub =>
      hC.string (hsub (hv hk))) fun _ => Honours.raise hC _
  match values with
  | [] => exact hsay
  | [single] =>
    refine Honours.andThen hC (Honours.look _) fun isRef => Honours.ite ?_ hsay
    exact Honours.andThen hC (hC.raiseValue (hv List.mem_cons_self)) fun _ => hsay
  | _ :: _ :: _ => exact hsay

theorem blessArguments (hv : values ⊆ held) :
    (blessArguments values).Honours C held id := by
  cases values with
  | nil => exact Honours.raise hC _
  | cons target rest =>
    have htarget : target ∈ held := hv List.mem_cons_self
    have hclass (c : String) : Honours C held id (do
        Machine.bless target c
        return [target] : Run (List Handle)) :=
      Honours.andThen hC (hC.bless htarget c) fun _ => Honours.pure hC (by simpa using htarget)
    cases rest with
    | nil => exact Honours.andThen hC (Honours.pure hC (a := "main") (List.nil_subset _)) hclass
    | cons c _ => exact Honours.andThen hC (hC.string (hv (by simp))) hclass

theorem typeOfFirst (values : List Handle) : (typeOfFirst values).Honours C held ([·]) :=
  Honours.andThen hC (Honours.look _) fun _ => hC.temporary

/-- A call takes its results off the stack. -/
theorem call (hr : C.Serves r) (name : String) (hv : values ⊆ held) (want : Want)
    (isMethod : Bool) : (call r name values want isMethod).Honours C held id := by
  have hcall (flags : CallFlags) : (r.callName name flags).Honours C held noHandles :=
    Honours.bind hC (o := ([·])) (Honours.modifyGet fun hm => hC.allocMortal (List.nil_subset _) hm)
      fun _ => Honours.widen hC (hr.call flags List.mem_cons_self) fun _ => List.nil_subset _
  have htake (mark count : Nat) : Honours C held id (do
      let results ← Run.look (·.top count)
      Run.change (·.truncate mark)
      return results : Run (List Handle)) :=
    Honours.bind hC (Honours.lookUp hC fun m => m.above_subset_places _) fun _ =>
      Honours.andThen hC (Honours.change fun hm => hC.truncate mark hm) fun _ =>
        Honours.pure hC (List.subset_append_left _ _)
  refine Honours.andThen hC (Honours.look _) fun mark => ?_
  refine Honours.andThen hC (Honours.change fun hm => hC.pushAll hv (hC.pushMark hm)) fun _ => ?_
  exact Honours.ite (Honours.andThen hC (hcall _) (htake mark))
    (Honours.andThen hC (hcall _) (htake mark))

/-- The last value of an expression is looked into. -/
theorem onLast {x : Run (List Handle)} {f : Handle → Run (List Handle)}
    (hx : x.Honours C held id)
    (hf : ∀ {target held'}, target ∈ held' → (f target).Honours C held' id) :
    (do f (← Source.lastOrUndefined (← x)) : Run (List Handle)).Honours C held id :=
  Honours.bind hC hx fun _ =>
    Honours.bind hC (hC.lastOrUndefined (List.subset_append_left _ _)) fun _ =>
      hf List.mem_cons_self

end

variable {C : Custody} {r : Reentry}

/-! ### Expressions and statements -/

mutual

/-- The evaluation of an expression, case by case: its parts come before it. -/
theorem expr (hC : C.Lawful) (hr : C.Serves r) : (e : Expr) → ∀ want held, (e.eval r want).Honours C held id
  | .number _, _, _ => by
    rw [Expr.eval]
    exact hC.oneTemporary (owned_ofNumber _)
  | .string _, _, _ | .undefined, _, _ => by
    rw [Expr.eval]
    exact hC.oneTemporary
  | .words list, _, _ => by
    rw [Expr.eval]
    exact Honours.widen hC (Honours.mapM_mem hC (p := ([·])) fun w _ _ _ => hC.temporary) (by simp)
  | .scalar name, _, _ => by
    rw [Expr.eval]
    exact Honours.bind hC (o := ([·])) (Honours.modifyGet fun hm => hC.global .scalar name hm)
      fun _ => Honours.pure hC (List.subset_append_left _ _)
  | .array name, want, _ => by
    rw [Expr.eval]
    exact hC.elementsOf name want
  | .arrayReference name, _, _ => by
    rw [Expr.eval]
    refine Honours.bind hC (o := ([·])) (Honours.modifyGet fun hm => hC.global .array name hm)
      fun array => ?_
    refine Honours.andThen hC (Honours.change fun hm => hC.retain List.mem_cons_self hm) fun _ => ?_
    exact hC.oneTemporary (by simp [Scalar.owned, Scalar.ofTarget])
  | .reference e, _, held => by
    rw [Expr.eval]
    refine Honours.bind hC (hC.expr hr e .list held) fun values => ?_
    refine Honours.widen hC (Honours.mapM_mem hC (p := ([·])) fun k hk held' hsub => ?_) (by simp)
    have hmem : k ∈ held' := hsub (List.mem_append_left _ hk)
    refine Honours.andThen hC (Honours.change fun hm => hC.retain hmem hm) fun _ => ?_
    exact hC.temporary (by simpa [Scalar.owned, Scalar.ofTarget] using hmem)
  | .newArray es, _, held => by
    rw [Expr.eval]
    refine Honours.bind hC (hC.items hr es held) fun values => ?_
    exact Honours.bind hC (hC.arrayOf (List.subset_append_left _ _)) fun _ =>
      Honours.pure hC (List.subset_append_left _ _)
  | .newHash es, _, held => by
    rw [Expr.eval]
    refine Honours.bind hC (hC.items hr es held) fun values => ?_
    exact Honours.bind hC (hC.hashOf (List.subset_append_left _ _)) fun _ =>
      Honours.pure hC (List.subset_append_left _ _)
  | .group es, _, held => by
    rw [Expr.eval]
    exact hC.items hr es held
  | .assign name e, _, held => by
    rw [Expr.eval]
    refine Honours.bind hC (hC.expr hr e .scalar held) fun values => ?_
    refine Honours.bind hC (o := ([·])) (Honours.modifyGet fun hm => hC.global .scalar name hm)
      fun slot => ?_
    have hslot : slot ∈ [slot] ++ (id values ++ held) := List.mem_cons_self
    cases hl : values.getLast? with
    | some k =>
      have hk : k ∈ id values ++ held := List.mem_append_left _ (List.mem_of_getLast? hl)
      exact Honours.andThen hC (hC.assign hslot (List.mem_cons_of_mem _ hk)) fun _ =>
        Honours.pure hC (by simp)
    | none =>
      exact Honours.andThen hC (hC.store hslot (List.nil_subset _)) fun _ =>
        Honours.pure hC (by simp)
  | .element base index, want, held => by
    rw [Expr.eval]
    refine hC.onLast (hC.expr hr base want held) fun {_ held'} ht => ?_
    refine Honours.bind hC (hC.items hr index held') fun _ => ?_
    exact Honours.bind hC (hC.elementOf (List.mem_append_right _ ht) (List.subset_append_left _ _))
      fun _ => Honours.pure hC (List.subset_append_left _ _)
  | .entry base key, want, held => by
    rw [Expr.eval]
    refine hC.onLast (hC.expr hr base want held) fun {_ held'} ht => ?_
    refine Honours.bind hC (hC.items hr key held') fun _ => ?_
    refine Honours.andThen hC (hC.keyOf (List.subset_append_left _ _)) fun _ => ?_
    exact Honours.bind hC (hC.entryOf (List.mem_append_right _ ht) _) fun _ =>
      Honours.pure hC (List.subset_append_left _ _)
  | .namedEntry base key, want, held => by
    rw [Expr.eval]
    exact hC.onLast (hC.expr hr base want held) fun ht =>
      Honours.bind hC (hC.entryOf ht _) fun _ => Honours.pure hC (List.subset_append_left _ _)
  | .method base name args, want, held => by
    rw [Expr.eval]
    refine hC.onLast (hC.expr hr base want held) fun {target held'} ht => ?_
    refine Honours.bind hC (hC.items hr args held') fun values => hC.call hr name ?_ want true
    exact List.cons_subset.2 ⟨List.mem_append_right _ ht, List.subset_append_left _ _⟩
  | .badArrow base near, want, held => by
    rw [Expr.eval]
    exact hC.onLast (hC.expr hr base want held) fun _ => Honours.raise hC _
  | .die args, _, held => by
    rw [Expr.eval]
    exact Honours.bind hC (hC.items hr args held) fun _ => hC.die (List.subset_append_left _ _)
  | .bless args, _, held => by
    rw [Expr.eval]
    exact Honours.bind hC (hC.items hr args held) fun _ =>
      hC.blessArguments (List.subset_append_left _ _)
  | .refType args, _, held => by
    rw [Expr.eval]
    exact Honours.bind hC (hC.items hr args held) fun values =>
      Honours.bind hC (hC.typeOfFirst values) fun _ => Honours.pure hC (List.subset_append_left _ _)
  | .isDefined args, _, held => by
    rw [Expr.eval]
    refine Honours.bind hC (hC.items hr args held) fun values => ?_
    cases values with
    | nil =>
      exact Honours.andThen hC (Honours.pure hC (a := false) (List.nil_subset _)) fun b =>
        hC.oneTemporary (owned_ofBool b)
    | cons k _ =>
      exact Honours.andThen hC (hC.isDefined List.mem_cons_self) fun b =>
        hC.oneTemporary (owned_ofBool b)
  | .require name, _, held => by
    rw [Expr.eval]
    exact Honours.andThen hC (hr.require name) fun _ => hC.oneTemporary (owned_ofBool true)
  | .call name args, want, held => by
    rw [Expr.eval]
    exact Honours.bind hC (hC.items hr args held) fun _ =>
      hC.call hr name (List.subset_append_left _ _) want false
  | .bareword name, want, held => by
    rw [Expr.eval]
    exact Honours.andThen hC (Honours.look _) fun _ =>
      Honours.ite (hC.call hr name (List.nil_subset _) want false) hC.oneTemporary
  | .fault near, _, _ => by
    rw [Expr.eval]
    exact Honours.raise hC _

theorem items (hC : C.Lawful) (hr : C.Serves r) : (es : Items) → ∀ held, (es.eval r).Honours C held id
  | .done, _ => by
    rw [Items.eval]
    exact Honours.pure hC (List.nil_subset _)
  | .cons e rest, held => by
    rw [Items.eval]
    refine Honours.bind hC (hC.expr hr e .list held) fun values => ?_
    exact Honours.bind hC (hC.items hr rest _) fun _ => Honours.pure hC (by simp)
  | .fault near, _ => by
    rw [Items.eval]
    exact Honours.raise hC _

end

theorem statement (hC : C.Lawful) (hr : C.Serves r) (s : Statement) (want : Want)
    (held : List Handle) : (s.eval r want).Honours C held id :=
  Honours.bind hC (hC.expr hr s.head want held) fun _ =>
    Honours.bind hC (hC.items hr s.tail _) fun _ => Honours.pure hC (by simp)

theorem evalStatements (hC : C.Lawful) (hr : C.Serves r) (want : Want) :
    (ss : List Statement) → ∀ held, (evalStatements r want ss).Honours C held id
  | [], _ => Honours.pure hC (List.nil_subset _)
  | [last], held => hC.statement hr last want held
  | s :: t :: rest, held =>
    Honours.widen hC (Honours.bind hC (hC.statement hr s .void held) fun _ =>
      hC.evalStatements hr want (t :: rest) _) fun _ => List.subset_append_left _ _

/-- The values of any source text. -/
theorem values (hC : C.Lawful) (hr : C.Serves r) (source : String) (want : Want)
    (held : List Handle) : (values r source want).Honours C held id := by
  unfold Source.values
  cases tokens source with
  | error f => exact Honours.raise hC f
  | ok ts => exact hC.evalStatements hr want _ held

end Custody.Lawful

end ValueMachine

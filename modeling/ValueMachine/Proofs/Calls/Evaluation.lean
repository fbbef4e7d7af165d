import ValueMachine.Proofs.Calls.Values
import ValueMachine.Source.Eval

/-! The evaluation of source text in a plain manner. What it calls and loads has the manner by
assumption, and so have the assignments to its globals. -/

namespace ValueMachine

open Machine

namespace Source

mutual

/-- Every global that an expression assigns to has a name of a kind. -/
def Expr.AssignsOnly (free : String → Prop) : Expr → Prop
  | .assign name e => free name ∧ e.AssignsOnly free
  | .reference e | .namedEntry e _ | .badArrow e _ => e.AssignsOnly free
  | .newArray es | .newHash es | .group es | .die es | .bless es | .refType es | .isDefined es
  | .call _ es => es.AssignsOnly free
  | .element e es | .entry e es | .method e _ es => e.AssignsOnly free ∧ es.AssignsOnly free
  | .number _ | .string _ | .words _ | .scalar _ | .array _ | .arrayReference _ | .undefined
  | .require _ | .bareword _ | .fault _ => True

def Items.AssignsOnly (free : String → Prop) : Items → Prop
  | .cons e rest => e.AssignsOnly free ∧ rest.AssignsOnly free
  | .done | .fault _ => True

end

def Statement.AssignsOnly (free : String → Prop) (s : Statement) : Prop :=
  s.head.AssignsOnly free ∧ s.tail.AssignsOnly free

/-- Every global that a source text assigns to has a name of a kind. -/
def AssignsOnly (free : String → Prop) (source : String) : Prop :=
  ∀ ts, tokens source = .ok ts → ∀ s ∈ statements ts, s.AssignsOnly free

mutual

theorem Expr.assignsOnly_true : (e : Expr) → e.AssignsOnly fun _ => True
  | .assign _ e => ⟨trivial, e.assignsOnly_true⟩
  | .reference e | .namedEntry e _ | .badArrow e _ => by
    rw [Expr.AssignsOnly]
    exact e.assignsOnly_true
  | .newArray es | .newHash es | .group es | .die es | .bless es | .refType es | .isDefined es
  | .call _ es => by
    rw [Expr.AssignsOnly]
    exact es.assignsOnly_true
  | .element e es | .entry e es | .method e _ es => ⟨e.assignsOnly_true, es.assignsOnly_true⟩
  | .number _ | .string _ | .words _ | .scalar _ | .array _ | .arrayReference _ | .undefined
  | .require _ | .bareword _ | .fault _ => trivial

theorem Items.assignsOnly_true : (es : Items) → es.AssignsOnly fun _ => True
  | .cons e rest => ⟨e.assignsOnly_true, rest.assignsOnly_true⟩
  | .done | .fault _ => trivial

end

theorem assignsOnly_true (source : String) : AssignsOnly (fun _ => True) source :=
  fun _ _ s _ => ⟨s.head.assignsOnly_true, s.tail.assignsOnly_true⟩

end Source

/-- A manner in which source text is evaluated. -/
structure Manner.Evaluates (M : Manner) (free : String → Prop) (r : Reentry) : Prop
    extends M.Plain where
  /-- A global is made and assigned to. -/
  assign : ∀ {name : String} (m : Machine) (h : Handle), free name →
    M.Ends (m.global .scalar name).2
      (Machine.assign (m.global .scalar name).1 h (m.global .scalar name).2)
  clear : ∀ {name : String} (m : Machine), free name →
    M.Ends (m.global .scalar name).2
      (Machine.store (m.global .scalar name).1 .undefined (m.global .scalar name).2)
  raiseReference : ∀ {m : Machine} {h : Handle}, m.isReference h = true →
    M.Ends m ((raiseValue h : Run PUnit) m)
  call : ∀ name args want isMethod, (Source.call r name args want isMethod).Moves M
  require : ∀ name, (r.require name).Moves M

namespace Manner.Evaluates

open Run Source

variable {M : Manner} {free : String → Prop} {r : Reentry}

theorem temporary (hM : M.Evaluates free r) (s : Scalar) (hs : s.Formed ∧ s.Normal := by simp) :
    Moves M (temporary s) :=
  fun m => M.trans (hM.alloc m (Body.proper_scalar.2 hs)) (hM.mortal _ _)

theorem oneTemporary (hM : M.Evaluates free r) (s : Scalar) (hs : s.Formed ∧ s.Normal := by simp) :
    Moves M (do return [← Source.temporary s] : Run (List Handle)) :=
  (hM.temporary s hs).bind fun _ => .pure _

theorem lastOrUndefined (hM : M.Evaluates free r) (values : List Handle) :
    Moves M (lastOrUndefined values) := by
  unfold Source.lastOrUndefined
  cases values.getLast? with
  | some h => exact .pure h
  | none => exact hM.temporary _

theorem orUndefined (hM : M.Evaluates free r) (o : Option Handle) :
    Moves M (orUndefined o) := by
  cases o with
  | some h => exact .pure h
  | none => exact hM.temporary _

theorem referentOf (hM : M.Evaluates free r) (kind : Kind) (h : Handle) :
    Moves M (referentOf kind h) := by
  refine (Moves.look _).bind fun target => ?_
  cases target with
  | some target => exact (Moves.look _).bind fun _ => .ite (.pure _) (hM.fault (by simp))
  | none => exact hM.fault (by simp)

theorem elementOf (hM : M.Evaluates free r) (base : Handle) (index : List Handle) :
    Moves M (elementOf base index) := by
  have hfetch (i : Int) : Moves M (do
      let array ← Source.referentOf .array base
      Source.orUndefined (← Machine.arrayFetch? array i) : Run Handle) :=
    (hM.referentOf .array base).bind fun array =>
      (hM.arrayFetch? array i).bind fun o => hM.orUndefined o
  cases index with
  | nil => exact (Moves.pure _).bind hfetch
  | cons h _ => exact ((hM.number h).map _).bind hfetch

theorem entryOf (hM : M.Evaluates free r) (base : Handle) (key : Bytes) :
    Moves M (entryOf base key) :=
  (hM.referentOf .hash base).bind fun hash => (hM.hashFetch? hash key).bind fun o =>
    hM.orUndefined o

theorem keyOf (hM : M.Evaluates free r) (values : List Handle) : Moves M (keyOf values) := by
  cases values with
  | nil => exact .pure _
  | cons h _ => exact (hM.text h).bind fun _ => .pure _

theorem arrayOf (hM : M.Evaluates free r) (values : List Handle) : Moves M (arrayOf values) := by
  refine Moves.bind (fun m => hM.alloc m (by simp [Body.Proper])) fun array => ?_
  refine Moves.bind (.forM (fun h => ?_) values) fun _ => hM.temporary _
  exact (hM.newCopy h).bind fun v => hM.arrayPush array v

theorem putPairs (hM : M.Evaluates free r) (hash : Handle) (values : List Handle) :
    Moves M (putPairs hash values) := by
  fun_induction Source.putPairs hash values with
  | case1 key value rest ih =>
    exact (hM.text key).bind fun k => (hM.newCopy value).bind fun v =>
      (hM.hashPut hash k.bytes v).bind fun _ => ih
  | case2 key =>
    exact (hM.text key).bind fun k => (hM.newScalar _).bind fun v => hM.hashPut hash k.bytes v
  | case3 => exact .pure _

theorem hashOf (hM : M.Evaluates free r) (values : List Handle) : Moves M (hashOf values) :=
  Moves.bind (fun m => hM.alloc m (by simp [Body.Proper])) fun hash =>
    (hM.putPairs hash values).bind fun _ => hM.temporary _

theorem elementsOf (hM : M.Evaluates free r) (name : String) (want : Want) :
    Moves M (elementsOf name want) := by
  have hend (elements : List Handle) : Moves M (
      if want = .scalar then do return [← Source.temporary (.ofInt64 (Int64.ofNat elements.length))]
      else return elements : Run (List Handle)) := .ite (hM.oneTemporary _) (.pure _)
  refine (Moves.look _).bind fun array => ?_
  cases array with
  | some array => exact (hM.slots array).bind fun xs => (Moves.mapM hM.orUndefined xs).bind hend
  | none => exact (Moves.pure _).bind hend

/-- The text of `die` is true. -/
theorem telling_die (message : String) :
    (Fault.said (if message.endsWith "\n" then message
      else message ++ " at (eval) line 1.\n")).Telling := by
  show (Scalar.ofText _).truth = true
  split
  next h => exact Scalar.truth_ofText_of_endsWith h
  next =>
    refine Scalar.truth_ofText_of_two_le ?_
    show 2 ≤ (message ++ " at (eval) line 1.\n").utf8ByteSize
    rw [String.utf8ByteSize_append]
    exact Nat.le_add_left_of_le (by decide)

theorem die {α : Type} (hM : M.Evaluates free r) (args : List Handle) :
    Moves M (die args : Run α) := by
  have hsay : Moves M (do
      let message := String.join (← args.mapM Machine.string)
      let message := if message.isEmpty then "Died" else message
      ValueMachine.raise (.said (if message.endsWith "\n" then message
        else message ++ " at (eval) line 1.\n")) : Run α) :=
    (Moves.mapM hM.string args).bind fun texts m => hM.raise m _ (telling_die _)
  match args with
  | [] => exact (Moves.pure ()).bind fun _ => hsay
  | [single] =>
    intro m
    by_cases hr : m.isReference single = true
    · simp only [Source.die, Run.look_bind, hr, if_true]
      exact M.ends_bind (hM.raiseReference hr) fun _ m' _ => hsay m'
    · simp only [Source.die, Run.look_bind, hr]
      exact hsay m
  | _ :: _ :: _ => exact (Moves.pure ()).bind fun _ => hsay

theorem blessArguments (hM : M.Evaluates free r) (args : List Handle) :
    Moves M (blessArguments args) := by
  cases args with
  | nil => exact hM.fault (by simp)
  | cons target rest =>
    cases rest with
    | nil =>
      exact (Moves.pure "main").bind fun c => (hM.bless target c).bind fun _ => .pure _
    | cons c _ =>
      exact (hM.string c).bind fun c => (hM.bless target c).bind fun _ => .pure _

theorem typeOfFirst (hM : M.Evaluates free r) (args : List Handle) :
    Moves M (typeOfFirst args) :=
  (Moves.look _).bind fun _ => hM.temporary _

mutual

/-- The evaluation of an expression, case by case: its parts come before it. -/
theorem expr (hM : M.Evaluates free r) :
    (e : Expr) → e.AssignsOnly free → ∀ want, Moves M (e.eval r want)
  | .number _, _, _ | .string _, _, _ | .undefined, _, _ => by
    rw [Expr.eval]
    exact hM.oneTemporary _
  | .words list, _, _ => by
    rw [Expr.eval]
    exact .mapM (fun w => hM.temporary _) list
  | .scalar name, _, _ => by
    rw [Expr.eval]
    exact Moves.bind (fun m => hM.global m .scalar name) fun _ => .pure _
  | .array name, _, want => by
    rw [Expr.eval]
    exact hM.elementsOf name want
  | .arrayReference name, _, _ => by
    rw [Expr.eval]
    refine Moves.bind (fun m => hM.global m .array name) fun array => ?_
    exact (Moves.change fun m => hM.retain m array).bind fun _ => hM.oneTemporary _
  | .reference e, he, _ => by
    rw [Expr.AssignsOnly] at he
    rw [Expr.eval]
    refine (hM.expr e he .list).bind fun values => .mapM (fun h => ?_) values
    exact (Moves.change fun m => hM.retain m h).bind fun _ => hM.temporary _
  | .newArray es, he, _ => by
    rw [Expr.AssignsOnly] at he
    rw [Expr.eval]
    exact (hM.items es he).bind fun values => (hM.arrayOf values).bind fun _ => .pure _
  | .newHash es, he, _ => by
    rw [Expr.AssignsOnly] at he
    rw [Expr.eval]
    exact (hM.items es he).bind fun values => (hM.hashOf values).bind fun _ => .pure _
  | .group es, he, _ => by
    rw [Expr.AssignsOnly] at he
    rw [Expr.eval]
    exact hM.items es he
  | .assign name e, he, _ => by
    rw [Expr.eval]
    refine (hM.expr e he.2 .scalar).bind fun values m => ?_
    refine M.ends_of_returns (hM.global m .scalar name) ?_
    cases values.getLast? with
    | some h => exact M.ends_bind (hM.assign m h he.1) fun _ m' _ => Moves.pure _ m'
    | none => exact M.ends_bind (hM.clear m he.1) fun _ m' _ => Moves.pure _ m'
  | .element base index, he, want => by
    rw [Expr.eval]
    refine (hM.expr base he.1 want).bind fun values => (hM.lastOrUndefined values).bind fun t => ?_
    exact (hM.items index he.2).bind fun is => (hM.elementOf t is).bind fun _ => .pure _
  | .entry base key, he, want => by
    rw [Expr.eval]
    refine (hM.expr base he.1 want).bind fun values => (hM.lastOrUndefined values).bind fun t => ?_
    exact (hM.items key he.2).bind fun ks => (hM.keyOf ks).bind fun k =>
      (hM.entryOf t k).bind fun _ => .pure _
  | .namedEntry base key, he, want => by
    rw [Expr.AssignsOnly] at he
    rw [Expr.eval]
    exact (hM.expr base he want).bind fun values => (hM.lastOrUndefined values).bind fun t =>
      (hM.entryOf t _).bind fun _ => .pure _
  | .method base name args, he, want => by
    rw [Expr.eval]
    exact (hM.expr base he.1 want).bind fun values => (hM.lastOrUndefined values).bind fun t =>
      (hM.items args he.2).bind fun hs => hM.call name (t :: hs) want true
  | .badArrow base near, he, want => by
    rw [Expr.AssignsOnly] at he
    rw [Expr.eval]
    exact (hM.expr base he want).bind fun values => (hM.lastOrUndefined values).bind fun _ =>
      hM.fault (by simp)
  | .die args, he, _ => by
    rw [Expr.AssignsOnly] at he
    rw [Expr.eval]
    exact (hM.items args he).bind fun hs => hM.die hs
  | .bless args, he, _ => by
    rw [Expr.AssignsOnly] at he
    rw [Expr.eval]
    exact (hM.items args he).bind fun hs => hM.blessArguments hs
  | .refType args, he, _ => by
    rw [Expr.AssignsOnly] at he
    rw [Expr.eval]
    exact (hM.items args he).bind fun hs => (hM.typeOfFirst hs).bind fun _ => .pure _
  | .isDefined args, he, _ => by
    rw [Expr.AssignsOnly] at he
    rw [Expr.eval]
    refine (hM.items args he).bind fun hs => ?_
    cases hs with
    | nil => exact (Moves.pure false).bind fun b => hM.oneTemporary _
    | cons h _ => exact (hM.isDefined h).bind fun b => hM.oneTemporary _
  | .require name, _, _ => by
    rw [Expr.eval]
    exact (hM.require name).bind fun _ => hM.oneTemporary _
  | .call name args, he, want => by
    rw [Expr.AssignsOnly] at he
    rw [Expr.eval]
    exact (hM.items args he).bind fun hs => hM.call name hs want false
  | .bareword name, _, want => by
    rw [Expr.eval]
    exact (Moves.look _).bind fun _ => .ite (hM.call name [] want false) (hM.oneTemporary _)
  | .fault near, _, _ => by
    rw [Expr.eval]
    exact hM.fault (by simp)

theorem items (hM : M.Evaluates free r) :
    (es : Items) → es.AssignsOnly free → Moves M (es.eval r)
  | .done, _ => by
    rw [Items.eval]
    exact .pure _
  | .cons e rest, he => by
    rw [Items.eval]
    exact (hM.expr e he.1 .list).bind fun values => (hM.items rest he.2).bind fun _ => .pure _
  | .fault near, _ => by
    rw [Items.eval]
    exact hM.fault (by simp)

end

theorem evalStatements (hM : M.Evaluates free r) (want : Want) (ss : List Statement)
    (hs : ∀ s ∈ ss, s.AssignsOnly free) : Moves M (evalStatements r want ss) := by
  have hone {s : Statement} (hs : s.AssignsOnly free) (want : Want) :
      Moves M (s.eval r want) :=
    (hM.expr s.head hs.1 want).bind fun values => (hM.items s.tail hs.2).bind fun _ => .pure _
  fun_induction Source.evalStatements r want ss with
  | case1 => exact .pure _
  | case2 last => exact hone (hs last (List.mem_singleton_self _)) want
  | case3 s rest _ ih =>
    refine (hone (hs s (List.mem_cons_self ..)) .void).bind fun _ => ih fun t ht => ?_
    exact hs t (List.mem_cons_of_mem _ ht)

/-- The values of a source text that assigns to free globals only. -/
theorem values (hM : M.Evaluates free r) {source : String} (hs : AssignsOnly free source)
    (want : Want) : Moves M (values r source want) := by
  unfold Source.values
  cases ht : tokens source with
  | error f => exact fun m => hM.raise m f (telling_of_tokens ht)
  | ok ts => exact hM.evalStatements want _ (hs ts ht)

end Manner.Evaluates

end ValueMachine

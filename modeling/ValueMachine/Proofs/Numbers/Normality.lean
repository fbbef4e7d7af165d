import ValueMachine.Proofs.Calls.Overall
import ValueMachine.Proofs.Instances.Claims

/-! The normal form of integers. A scalar holds an unsigned integer only where no signed one has its
value: what operations set is so, and whatever host code and programs do with values, in any order
and whatever its end, sets nothing else. -/

namespace ValueMachine

open Machine

/-- The slots that operations set. -/
inductive Scalar.Settable : Scalar → Prop
  | undefined : Settable .undefined
  | signed (n : Int64) : Settable (.ofInt64 n)
  | unsigned (n : UInt64) : Settable (.ofUInt64 n)
  | float (x : Float) : Settable (.ofFloat x)
  | text (t : ByteText) : Settable (.ofByteText t)
  | target (h : Handle) : Settable (.ofTarget h)
  | truth (b : Bool) : Settable (.ofBool b)

theorem Scalar.Settable.normal {s : Scalar} (hs : s.Settable) : s.Normal := by
  cases hs <;> simp

namespace Machine

/-- The integer of every scalar is in its normal form. -/
def Normal (m : Machine) : Prop := ∀ ⦃h s⦄, m.body h = .scalar s → s.Normal

namespace Normal

variable {m m' : Machine} {s : Scalar} {b : Body} {c : Cell}

theorem empty : Normal .empty := fun h s hs => by
  rw [body, cell] at hs
  cases hs

theorem congr (hm : m.Normal) (heap : m'.heap = m.heap) : m'.Normal := fun h s hs =>
  hm (h := h) (by rwa [body, cell, ← heap])

theorem set (hm : m.Normal) (h : Handle) (hc : ∀ s, c.body = .scalar s → s.Normal) :
    (m.onHeap (·.set h c)).Normal := fun k s hs => by
  rw [body, cell, heap_onHeap, Heap.get_set] at hs
  split at hs
  · exact hc s hs
  · exact hm hs

/-- The body of the cell stays. -/
theorem keep (hm : m.Normal) (h : Handle) (hc : c.body = m.body h) :
    (m.onHeap (·.set h c)).Normal :=
  hm.set h fun _ hs => hm (h := h) (hc ▸ hs)

theorem push (hm : m.Normal) (heap : m'.heap = m.heap.push c)
    (hc : ∀ s, c.body = .scalar s → s.Normal) : m'.Normal := fun k s hs => by
  rw [body, cell, heap, Heap.get_push] at hs
  split at hs
  · exact hc s hs
  · exact hm hs

theorem known (hm : m.Normal) (hs : s.Known m) : s.Normal := hs.elim id fun ⟨_, hb⟩ => hm hb

theorem retain (hm : m.Normal) (h : Handle) : (m.retain h).Normal := by
  unfold Machine.retain
  split
  · exact hm
  · exact hm.keep h rfl

theorem alloc (hm : m.Normal) (hb : b.Known m) : (m.alloc b).2.Normal :=
  hm.push rfl fun s hs => hm.known (hb s hs)

theorem global (hm : m.Normal) (s : Sigil) (name : String) : (m.global s name).2.Normal := by
  unfold Machine.global
  split
  · exact hm
  · refine (hm.alloc (b := newGlobalBody s name) (Body.Proper.known ?_ m)).congr rfl
    cases s <;> simp [newGlobalBody, Body.Proper]

theorem keptByRelease : KeptByRelease Normal fun _ => True where
  records _ _ _ _ _ := trivial
  lower _ h hm := hm.keep h rfl
  strip _ h hm := hm.keep h rfl
  noteFreed _ _ hm := hm.congr rfl
  revive _ name _ hm _ _ := (hm.global .scalar name).keep _ rfl
  unclaim _ _ hm := hm.congr rfl
  touch _ h _ hm _ _ := hm.retain h
  vacate _ h hm := (hm.set (c := .freed) h nofun).congr rfl

theorem focus (hm : m.Normal) (i : InterpId) : (m.focus i).Normal := by
  refine hm.congr ?_
  unfold Machine.focus
  split
  · rfl
  · split <;> rfl

end Normal

end Machine

namespace Manner

/-- Integers stay in their normal form, however an operation ends. -/
def normal : Manner :=
  .uniform (R := fun m m' => m.Normal → m'.Normal) (fun _ => id) fun h h' hm => h' (h hm)

theorem normal_overall : normal.Overall where
  exits := .rfl
  fails := .rfl
  cleans := .rfl
  onInterp _ _ hm := hm.congr rfl
  alloc _ _ hb hm := hm.alloc hb
  retain _ h hm := hm.retain h
  setBody hb _ _ hm := hm.set _ fun s hs => hm.known (hb s hs)
  name _ h _ hm := hm.keep h rfl
  releaseAll _ hs hm := Normal.keptByRelease.releaseAll hs hm
  noteAccess _ _ hm := hm.congr rfl
  tick _ hm := hm.congr rfl
  claim m i hm := by
    unfold Machine.claim
    split <;> exact hm.congr rfl
  attach _ h _ hm := hm.keep h rfl
  drop m v hm := by
    unfold Machine.drop
    split
    · exact (Normal.keptByRelease.releaseAll [v.handle] (hm.focus v.owner)).focus m.here
    · exact hm
  cross {α} i x hx m := by
    have hend := hx (m.focus i)
    simp only [onInterpreter, Run.look_bind, Run.change_bind, Run.always_apply]
    cases hr : x (m.focus i) <;>
      (rw [hr] at hend; exact fun hm => Normal.focus (hend (hm.focus i)) m.here)
  noteBoot _ _ hm := hm.congr rfl

theorem normal_placeless : normal.Placeless where
  toDetached := normal_overall.toDetached
  ofHeap heap _ hm := hm.congr heap
  allocImmortal _ _ hs hm := hm.push rfl fun _ hb => Body.scalar.inj hb ▸ hs

end Manner

/-! ### Every course of undertakings -/

/-- What host code undertakes, with what programs do in its calls. -/
inductive Undertaking where
  | deal (d : Dealing)
  /-- Make a new value from host data. -/
  | make (d : Datum)
  | read (mode : Mode) (t : HostType) (h : Handle)
  /-- Make a sub whose body is in the library. -/
  | install (name : Option String) (closure : String)
  | installRoutine (name : Option String) (routine file : String)
  /-- Call, and hold copies of the results. -/
  | call (target : Target) (args : List Datum) (want : Want)
  /-- Call, and read the result as a type. -/
  | ask (t : HostType) (target : Target) (args : List Datum)
  /-- Start an interpreter at a place and load its modules. -/
  | start (place : InterpId) (s : Settings)

namespace Undertaking

variable {lib : Library} {m : Machine}

/-- The machine after an undertaking, whatever its end. -/
def leaves (lib : Library) : Undertaking → Machine → Machine
  | deal d => d.leaves
  | make d => d.toValue.final
  | read mode t h => (t.read mode h).run.final
  | install name closure => (Library.install name closure).final
  | installRoutine name routine file => (Library.installRoutine name routine file).final
  | call target args want => (Host.callList lib.calls target args want).run.final
  | ask t target args => (Host.callScalar lib.calls t target args).run.final
  | start place s => (Embedded.start lib place s).run.final

/-- The slots that host code sets by itself are those that operations set. -/
def Sound : Undertaking → Prop
  | deal (.operate (.onScalar (.newScalar s))) | deal (.operate (.onScalar (.store _ s))) => s.Settable
  | _ => True

theorem moves_operation {op : Operation} (hop : (deal (.operate op)).Sound) :
    op.run.Moves .normal := by
  refine Manner.normal_overall.operation op ?_
  cases op with
  | onScalar op =>
    cases op with
    | newScalar s => exact fun m hm => hm.alloc (Body.known_scalar.2 (.inl hop.normal))
    | store h s =>
      exact fun _ hm => hm.set h fun _ hb => Body.scalar.inj hb ▸ Scalar.Settable.normal hop
    | attach h g => exact fun m hm => hm.keep h rfl
    | detach h type table => exact fun m hm => hm.keep h rfl
    | _ => trivial
  | _ => trivial

theorem moves_start (hlib : lib.Moves .normal) (place : InterpId) (s : Settings) :
    (Embedded.start lib place s).run.Moves .normal := by
  have hM := Manner.normal_overall
  have hload (module : String) : (Host.require lib.calls module).Moves .normal :=
    hM.hostCall (hM.reentry hlib _) _ [] .void fun _ => .pure ()
  refine hM.outcome.1 ((Bridge.Moves.look _).bind fun previous =>
    (Bridge.Moves.ofRun (Manner.normal_placeless.boot place s)).bind fun booted => hM.outcome.2 ?_)
  refine Run.Moves.bind (hM.outcome.1 (.forM hload s.preload)) fun ended => ?_
  cases ended with
  | ok _ => exact .pure _
  | error f =>
    exact (Run.Moves.change (Manner.normal_placeless.giveUp _)).bind fun _ => .pure _

/-- What an undertaking does to values keeps integers in their normal form. -/
theorem leaves_normal (hlib : lib.Moves .normal) {u : Undertaking} (hu : u.Sound) (hm : m.Normal) :
    (u.leaves lib m).Normal := by
  have hM := Manner.normal_overall
  have hcalls : lib.calls.Moves .normal := hM.reentry hlib _
  have hfinal {α : Type} {x : Run α} (hx : x.Moves .normal) : (x.final m).Normal := hM.final hx m hm
  have hhold (name : Option String) (sub : Handle) :
      (if name.isSome then hold sub else adopt sub).Moves .normal :=
    .ite (hM.crosses.hold sub) (Manner.Holds.adopt sub)
  cases u with
  | deal d =>
    cases d with
    | convert i => exact hfinal (hM.stores.objectOf i)
    | operate op => exact hfinal (moves_operation hu)
    | drop v => exact hM.drop m v hm
    | boot place s => exact hfinal (Manner.normal_placeless.boot place s)
    | focus i => exact hm.focus i
    | giveUp e => exact Manner.normal_placeless.giveUp e m hm
    | onInstances f => exact hm.congr rfl
  | make d => exact hfinal (hM.stores.gives.toValue d)
  | read mode t h => exact hfinal (hM.outcome.1 (hM.crosses.read mode t h))
  | install name closure =>
    exact hfinal ((Run.Moves.modifyGet fun m => hM.newSub m _ _ _ _).bind (hhold name))
  | installRoutine name routine file =>
    exact hfinal ((Run.Moves.modifyGet fun m => hM.newSub m _ _ _ _).bind (hhold name))
  | call target args want =>
    exact hfinal (hM.outcome.1 (hM.hostCall hcalls target args want hM.crosses.collectList))
  | ask t target args =>
    exact hfinal (hM.outcome.1 (hM.hostCall hcalls target args .scalar (hM.crosses.collectScalar t)))
  | start place s => exact hfinal (moves_start hlib place s)

end Undertaking

namespace Machine

/-- The machines that undertakings lead to, one after the other, from one without values. -/
def Reached (lib : Library) : Machine → Prop :=
  Relation.ReflTransGen (fun m m' => ∃ u : Undertaking, u.Sound ∧ m' = u.leaves lib m) .empty

theorem Reached.normal {lib : Library} {m : Machine} (hm : m.Reached lib)
    (hlib : lib.Moves .normal) : m.Normal := by
  induction hm with
  | refl => exact .empty
  | tail _ hstep ih =>
    obtain ⟨u, hu, rfl⟩ := hstep
    exact u.leaves_normal hlib hu ih

end Machine

end ValueMachine

import ValueMachine.Host.Embedded
import ValueMachine.Proofs.Calls.Conversions
import ValueMachine.Proofs.Ownership.Reachable

/-! Manners that do not look into interpreters. What an interpreter does on its own parts is nothing to
such a manner, and neither is how an operation ends. So every operation of the runtime has it, and so
has the life of an interpreter, if the few steps have it that change values. -/

namespace ValueMachine

open Machine

/-! ### Stores -/

/-- Write hooks only note what they have seen. -/
theorem Manner.noteWrite {M : Manner} (hnote : ∀ m event, M.returns m (m.noteAccess event))
    (m : Machine) (h : Handle) : M.returns m (m.noteWrite h) :=
  List.foldlRecOn (motive := M.returns m) _ _ (M.refl m) fun _ hm g _ =>
    List.foldlRecOn (motive := M.returns m) g.table.onWrite _ hm fun m₁ hm label _ =>
      M.trans hm (hnote m₁ (event label g))

/-- After the body has been set, a store releases and notes. -/
theorem Manner.replaceBody {M : Manner} (hrelease : ∀ m hs, M.returns m (m.releaseAll hs))
    (hnote : ∀ m event, M.returns m (m.noteAccess event)) {m : Machine} {h : Handle}
    {former new : Scalar} (hset : M.returns m (m.setBody h (.scalar new))) :
    M.returns m (m.replaceScalar h former new) :=
  M.trans hset (M.trans (hrelease _ _) (M.noteWrite hnote _ h))

/-- A manner that looks neither into interpreters nor at the end of an operation. -/
structure Manner.Detached (M : Manner) : Prop where
  exits : ∀ {e m m'}, M.exits e m m' ↔ M.returns m m'
  fails : ∀ {f m m'}, M.fails f m m' ↔ M.returns m m'
  cleans : ∀ {m m'}, M.cleans m m' ↔ M.returns m m'
  onInterp : ∀ m f, M.returns m (m.onInterp f)
  alloc : ∀ m {b}, b.Known m → M.returns m (m.alloc b).2
  retain : ∀ m h, M.returns m (m.retain h)
  setBody : ∀ {m h b}, b.Known m → m.isFreed h = false → b.isFreed = false →
    M.returns m (m.setBody h b)
  name : ∀ m h c, M.returns m (m.onHeap (·.update h ({ · with className := some c })))
  releaseAll : ∀ m hs, M.returns m (m.releaseAll hs)
  noteAccess : ∀ m event, M.returns m (m.noteAccess event)
  tick : ∀ m, M.returns m { m with ticks := m.ticks + 1 }

namespace Manner.Detached

open Run

variable {M : Manner} {α : Type}

/-- Only the interpreter in focus has changed. -/
theorem ofInterp (hM : M.Detached) {m m' : Machine} (h : m' = { m with interp := m'.interp }) :
    M.returns m m' := by
  rw [h]
  exact hM.onInterp m fun _ => m'.interp

/-- The machine after an operation, whatever its end. -/
theorem final (hM : M.Detached) {x : Run α} (hx : x.Moves M) (m : Machine) :
    M.returns m (x.final m) := by
  have hend := hx m
  unfold Run.final
  cases hr : x m with
  | ok a m' => rw [hr] at hend; exact hend
  | error e m' => rw [hr] at hend; exact hM.exits.1 hend

/-! ### Globals, the error variable and exceptions -/

theorem global (hM : M.Detached) (m : Machine) (s : Sigil) (name : String) :
    M.returns m (m.global s name).2 := by
  unfold Machine.global
  split
  · exact M.refl m
  · refine M.trans (hM.alloc m (b := newGlobalBody s name) (Body.Proper.known ?_ m)) (hM.ofInterp rfl)
    cases s <;> simp [newGlobalBody, Body.Proper]

theorem replaceScalar (hM : M.Detached) {m : Machine} {h : Handle} {former new : Scalar}
    (hs : new.Known m) (hb : m.body h = .scalar former) :
    M.returns m (m.replaceScalar h former new) :=
  M.replaceBody hM.releaseAll hM.noteAccess
    (hM.setBody (Body.known_scalar.2 hs) (by rw [isFreed, hb]; rfl) rfl)

theorem errorSlot (hM : M.Detached) (m : Machine) : M.returns m m.errorSlot.2 := by
  unfold Machine.errorSlot
  split
  · exact M.refl m
  · exact M.trans (hM.global m .scalar "@") (hM.ofInterp rfl)

theorem setError (hM : M.Detached) (m : Machine) (s : Scalar) (hs : s.Normal := by simp) :
    M.returns m (m.setError s) := by
  unfold Machine.setError
  refine M.trans (hM.errorSlot m) ?_
  cases hb : m.errorSlot.2.body m.errorSlot.1 with
  | scalar former => simp only [hb]; exact hM.replaceScalar (.inl hs) hb
  | _ => simp only [hb]; exact M.refl _

theorem allocMortal (hM : M.Detached) (m : Machine) {b : Body} (hb : b.Proper) :
    M.returns m (m.allocMortal b).2 :=
  M.trans (hM.alloc m (hb.known m)) (hM.ofInterp rfl)

theorem stepwise (hM : M.Detached) : M.Stepwise where
  alloc := hM.alloc
  retain := hM.retain
  mortal m _ := hM.onInterp m _
  global := hM.global
  setArray _ hb := hM.setBody nofun (by rw [isFreed, hb]; rfl) rfl
  setHash _ hb := hM.setBody nofun (by rw [isFreed, hb]; rfl) rfl
  name := hM.name
  releaseAll m hs := hM.cleans.2 (hM.releaseAll m hs)
  replaceScalar := hM.replaceScalar
  noteAccess := hM.noteAccess
  tick := hM.tick
  raise m _ := hM.exits.2 (M.trans (hM.allocMortal m (by simp)) (hM.setError _ _))

theorem plain (hM : M.Detached) : M.Plain := hM.stepwise.plain

theorem raise (hM : M.Detached) (f : Fault) : (ValueMachine.raise f : Run α).Moves M :=
  fun m => hM.stepwise.raise m f

theorem throws (hM : M.Detached) (e : Exit) : (throw e : Run α).Moves M :=
  fun m => hM.exits.2 (M.refl m)

theorem assign (hM : M.Detached) (dst src : Handle) : (Machine.assign dst src).Moves M :=
  hM.stepwise.assign dst src

theorem raiseValue (hM : M.Detached) (h : Handle) : (Machine.raiseValue h : Run α).Moves M :=
  (Moves.modifyGet hM.errorSlot).bind fun slot => (hM.assign slot h).bind fun _ => hM.throws _

end Manner.Detached

/-! ### The operations of the runtime -/

variable {M : Manner} {α : Type}

theorem Run.Moves.handing {x : Run α} (hx : x.Moves M) (back : α → List Handle) :
    (handing x back).Moves M :=
  hx.bind fun _ => .pure _

namespace Manner.Plain

open Run

theorem arrayReserve (hM : M.Plain) (h : Handle) (n : Nat) : Moves M (arrayReserve h n) :=
  (hM.slots h).bind fun _ => checkRoom n

theorem arrayExtend (hM : M.Plain) (h : Handle) (index : Nat) : Moves M (arrayExtend h index) := by
  refine (hM.slots h).bind fun _ => ?_
  unfold checkIndex
  exact .ite (checkRoom _) (.giveUp (by simp))

theorem arrayFetchOrNew (hM : M.Plain) (h : Handle) (i : Int) :
    Moves M (arrayFetchOrNew h i) := by
  refine (hM.arrayFetch? h i).bind fun found => ?_
  cases found with
  | some found => exact .pure found
  | none =>
    refine (hM.newScalar _).bind fun fresh => (hM.arrayStore h i fresh).bind fun former => ?_
    cases former with
    | some former => exact (hM.drop former).bind fun _ => .pure fresh
    | none => exact (Moves.pure _).bind fun _ => .pure fresh

theorem releaseAll (hM : M.Plain) (hs : List Handle) : Moves M (change (·.releaseAll hs)) := by
  intro m
  show M.returns m (m.releaseAll hs)
  exact List.foldlRecOn (motive := M.returns m) hs _ (M.refl m)
    fun m' hm' h _ => M.trans hm' (M.returns_of_cleans (hM.release m' h))

theorem arrayClear (hM : M.Plain) (h : Handle) : Moves M (arrayClear h) :=
  (hM.onSlots h _).bind fun _ => hM.releaseAll _

theorem hashFetchOrNew (hM : M.Plain) (h : Handle) (key : Bytes) :
    Moves M (hashFetchOrNew h key) := by
  refine (hM.hashFetch? h key).bind fun found => ?_
  cases found with
  | some found => exact .pure found
  | none => exact (hM.newScalar _).bind fun fresh => (hM.onTable h _).bind fun _ => .pure fresh

theorem hashClear (hM : M.Plain) (h : Handle) : Moves M (hashClear h) :=
  (hM.onTable h _).bind fun _ => hM.releaseAll _

/-- Every operation on arrays is plain. -/
theorem arrayOperation (hM : M.Plain) (op : ArrayOperation) : Moves M op.run := by
  cases op with
  | newArray =>
    have hnew : Moves M newArray := fun m => hM.alloc m (by simp [Body.Proper])
    exact .handing hnew _
  | length h => exact .handing ((hM.slots h).bind fun _ => .pure _) _
  | reserve h n => exact .handing (hM.arrayReserve h n) _
  | extend h index => exact .handing (hM.arrayExtend h index) _
  | store h i value => exact .handing (hM.arrayStore h i value) _
  | fetch h i => exact .handing (hM.arrayFetch? h i) _
  | fetchOrNew h i => exact .handing (hM.arrayFetchOrNew h i) _
  | take h i => exact .handing (hM.onSlots h _) _
  | has h i => exact .handing ((hM.slots h).bind fun _ => .pure _) _
  | push h value => exact .handing (hM.arrayPush h value) _
  | pop h => exact .handing (hM.onSlots h _) _
  | shift h => exact .handing (hM.onSlots h _) _
  | unshift h n =>
    have hunshift : Moves M (arrayUnshift h n) :=
      (hM.slots h).bind fun xs => (checkRoom (xs.length + n)).bind fun _ => hM.onSlots h _
    exact .handing hunshift _
  | clear h => exact .handing (hM.arrayClear h) _

/-- Every operation on hashes is plain. -/
theorem hashOperation (hM : M.Plain) (op : HashOperation) : Moves M op.run := by
  cases op with
  | newHash =>
    have hnew : Moves M newHash := fun m => hM.alloc m (by simp [Body.Proper])
    exact .handing hnew _
  | length h => exact .handing ((hM.table h).bind fun _ => .pure _) _
  | fetch h key => exact .handing (hM.hashFetch? h key) _
  | fetchOrNew h key => exact .handing (hM.hashFetchOrNew h key) _
  | store h key value => exact .handing (hM.onTable h _) _
  | take h key => exact .handing (hM.onTable h _) _
  | has h key => exact .handing ((hM.hashFetch? h key).bind fun _ => .pure _) _
  | clear h => exact .handing (hM.hashClear h) _
  | start h => exact .handing (hM.onTable h _) _
  | next h => exact .handing (hM.onTable h _) _
  | entries h => exact .handing (hM.hashEntries h) _

end Manner.Plain

/-- The slots that an operation sets, and the record that it attaches or detaches, fit a manner. -/
def Operation.Fits (M : Manner) : Operation → Prop
  | .onScalar (.newScalar s) => ∀ m, M.returns m (m.alloc (.scalar s)).2
  | .onScalar (.store h s) => ∀ {m former}, m.body h = .scalar former →
    M.returns m (m.setBody h (.scalar s))
  | .onScalar (.attach h g) => ∀ m, M.returns m (m.attach h g)
  | .onScalar (.detach h type table) => ∀ m, M.returns m (m.detach h type table)
  | _ => True

namespace Manner.Stepwise

open Run

variable {M : Manner}

/-- A store of slots that fit. -/
theorem storeOf (hM : M.Stepwise) {h : Handle} {s : Scalar} (hs : ∀ {m former},
    m.body h = .scalar former → M.returns m (m.setBody h (.scalar s))) :
    (Machine.store h s).Moves M :=
  fun _ => hM.storeEnds h fun hb =>
    M.replaceBody (fun m ks => M.returns_of_cleans (hM.releaseAll m ks)) hM.noteAccess (hs hb)

theorem storeObject (hM : M.Stepwise) (h : Handle) (className : Option String) (n : Int64) :
    (Machine.storeObject h className n).Moves M := by
  refine (hM.plain.newScalar _).bind fun target => (hM.store h _).bind fun _ => ?_
  cases className with
  | some c => exact hM.plain.bless h c
  | none => exact .pure _

/-- Every operation on scalars is a sequence of small steps, if its slots and records fit. -/
theorem scalarOperation (hM : M.Stepwise) (op : ScalarOperation)
    (ho : (Operation.onScalar op).Fits M) : op.run.Moves M := by
  have hP := hM.plain
  cases op with
  | newScalar s =>
    have hnew : (Machine.newScalar s).Moves M := ho
    exact .handing hnew _
  | newReference target => exact .handing (hP.newReference target) _
  | newCopy h => exact .handing (hP.newCopy h) _
  | duplicate h => exact .handing (hP.duplicate h) _
  | retain h => exact .handing (.change fun m => hM.retain m h) _
  | release h => exact .handing (hP.drop h) _
  | store h s => exact .handing (hM.storeOf ho) _
  | storeReference h target =>
    exact .handing ((Moves.change fun m => hM.retain m target).bind fun _ => hM.store h _) _
  | storeObject h className n => exact .handing (hM.storeObject h className n) _
  | assign dst src => exact .handing (hM.assign dst src) _
  | bless h className => exact .handing (hP.bless h className) _
  | attach h g => exact .handing (.change ho) _
  | detach h type table => exact .handing (.change ho) _
  | isDefined h => exact .handing (hP.isDefined h) _
  | number h => exact .handing (hP.number h) _
  | text h => exact .handing (hP.text h) _
  | truth h => exact .handing (hP.truth h) _

end Manner.Stepwise

namespace Manner.Detached

open Run

variable {M : Manner}

theorem installSub (hM : M.Detached) (m : Machine) (name : String) (h : Handle) :
    M.returns m (m.installSub name h) :=
  M.trans (hM.onInterp m _) (hM.releaseAll _ _)

theorem newSub (hM : M.Detached) (m : Machine) (name : Option String) (entry : Entry)
    (file : String) (payload : Option Payload) :
    M.returns m (m.newSub name entry file payload).2 := by
  cases name with
  | none => exact hM.alloc m (by simp [Body.Known])
  | some n => exact M.trans (hM.alloc m (by simp [Body.Known])) (hM.installSub _ n _)

theorem setPayload (hM : M.Detached) (m : Machine) (h : Handle) (p : Payload) :
    M.returns m (m.setPayload h p) := by
  unfold Machine.setPayload
  cases hc : m.code? h with
  | none => exact M.refl m
  | some c =>
    have hthere : m.isFreed h = false := by
      rw [Machine.code?] at hc
      rw [isFreed]
      cases hb : m.body h <;> rw [hb] at hc <;> first | rfl | cases hc
    exact M.trans (hM.setBody (by simp [Body.Known]) hthere rfl) (hM.releaseAll _ _)

theorem freeTemps (hM : M.Detached) (m : Machine) : M.returns m m.freeTemps :=
  M.trans (hM.onInterp m _) (hM.releaseAll _ _)

theorem holderOperation (hM : M.Detached) (op : HolderOperation) : op.run.Moves M := by
  cases op with
  | global s name => exact .handing (.modifyGet fun m => hM.global m s name) _
  | errorSlot => exact .handing (.modifyGet hM.errorSlot) _
  | newSub name entry file payload =>
    exact .handing (.modifyGet fun m => hM.newSub m name entry file payload) _
  | installSub name h => exact .handing (.change fun m => hM.installSub m name h) _
  | setPayload h p => exact .handing (.change fun m => hM.setPayload m h p) _
  | mortal h => exact .handing (.change fun m => hM.onInterp m _) _
  | enter => exact .handing (.change fun m => hM.onInterp m _) _
  | saveTemps => exact .handing (.change fun m => hM.onInterp m _) _
  | freeTemps => exact .handing (.change hM.freeTemps) _
  | leave => exact .handing (.change fun m => hM.onInterp m _) _

/-- Every operation of the runtime has a detached manner that its records fit. -/
theorem operation (hM : M.Detached) (op : Operation) (ho : op.Fits M) : op.run.Moves M := by
  cases op with
  | onScalar op => exact hM.stepwise.scalarOperation op ho
  | onArray op => exact hM.plain.arrayOperation op
  | onHash op => exact hM.plain.hashOperation op
  | onHolder op => exact hM.holderOperation op

/-! ### The life of an interpreter -/

theorem construct (hM : M.Detached) (m : Machine) : M.returns m m.construct := by
  unfold Machine.construct
  refine M.trans (hM.global m .scalar "@") ?_
  cases hb : (m.global .scalar "@").2.body (m.global .scalar "@").1 with
  | scalar former =>
    simp only [hb]
    exact M.trans (hM.replaceScalar (.inl (by simp)) hb) (hM.onInterp _ _)
  | _ => simp only [hb]; exact hM.onInterp _ _

theorem setArguments (hM : M.Detached) (args : List String) : (setArguments args).Moves M := by
  refine Moves.bind (.modifyGet fun m => hM.global m .scalar "0") fun program =>
    (hM.stepwise.store program _).bind fun _ => ?_
  refine Moves.bind (.modifyGet fun m => hM.global m .array "ARGV") fun argv => ?_
  exact .forM (fun a => (hM.plain.newScalar _).bind fun v => hM.plain.arrayPush argv v) _

theorem releaseGlobalsWithin (hM : M.Detached) (n : Nat) (m : Machine) :
    M.returns m (releaseGlobalsWithin n m) := by
  induction n generalizing m with
  | zero => exact M.refl m
  | succ n ih =>
    rw [Machine.releaseGlobalsWithin]
    split
    · exact M.refl m
    · have hround : M.returns m m.releaseGlobals :=
        M.trans (hM.onInterp m _) (M.trans (hM.releaseAll _ _) (hM.freeTemps _))
      exact M.trans hround (ih _)

theorem destruct (hM : M.Detached) (m : Machine) : M.returns m m.destruct := by
  unfold Machine.destruct
  dsimp only
  split
  · exact M.trans (hM.onInterp m _) (hM.freeTemps _)
  · exact M.trans (M.trans (hM.onInterp m _) (hM.freeTemps _))
      (M.trans (hM.releaseGlobalsWithin _ _) (M.trans (hM.onInterp _ _) (hM.releaseAll _ _)))

end Manner.Detached

/-- A detached manner that looks at values and claims alone, on whatever interpreter they are. -/
structure Manner.Placeless (M : Manner) : Prop extends M.Detached where
  ofHeap : ∀ {m m'}, m'.heap = m.heap → m'.claims = m.claims → M.returns m m'
  allocImmortal : ∀ m {s}, s.Normal → M.returns m (m.allocImmortal s).2

namespace Manner.Placeless

open Run

variable {M : Manner}

theorem focus (hM : M.Placeless) (m : Machine) (i : InterpId) : M.returns m (m.focus i) := by
  refine hM.ofHeap (heap_focus m i) ?_
  unfold Machine.focus
  split
  · rfl
  · split <;> rfl

theorem allocInterp (hM : M.Placeless) (m : Machine) (place : InterpId) :
    M.returns m (m.allocInterp place) := by
  have hundefined := hM.allocImmortal m Scalar.normal_undefined
  have htruth (b : Bool) (m : Machine) := hM.allocImmortal m (Scalar.normal_ofBool b)
  exact M.trans hundefined (M.trans (htruth true _) (M.trans (htruth false _) (hM.ofHeap rfl rfl)))

theorem boot (hM : M.Placeless) (place : InterpId) (s : Settings) :
    (Embedded.boot place s).Moves M := by
  refine Moves.bind (.change fun m => hM.allocInterp m place) fun _ =>
    (Moves.change hM.construct).bind fun _ => (hM.setArguments _).bind fun _ => ?_
  have hstart (m : Machine) : M.returns m
      { (m.start.onInterp ({ · with destructLevel := s.destructLevel })) with
        alive := place :: m.alive } := hM.ofHeap rfl rfl
  have hcurrent (m : Machine) : M.returns m { m with current := some place } := hM.ofHeap rfl rfl
  exact (Moves.change hstart).bind fun _ => (Plain.checkRoom _).bind fun _ =>
    (Moves.change hcurrent).bind fun _ => .pure _

theorem giveUp (hM : M.Placeless) (e : Embedded) (m : Machine) : M.returns m (e.drop m) := by
  have hfree (m : Machine) : M.returns m m.freeInterp := by
    unfold Machine.freeInterp
    refine hM.ofHeap ?_ ?_ <;> cases m.others <;> rfl
  have hdead (m : Machine) : M.returns m { m with alive := m.alive.filter (· ≠ e.id) } :=
    hM.ofHeap rfl rfl
  unfold Embedded.drop
  refine M.trans (hM.focus m e.id) (M.trans (hM.destruct _) (M.trans (hdead _) ?_))
  refine M.trans (hfree _) ?_
  dsimp only
  split <;> exact hM.ofHeap rfl rfl

end Manner.Placeless

end ValueMachine

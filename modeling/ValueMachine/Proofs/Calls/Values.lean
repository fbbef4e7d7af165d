import ValueMachine.Proofs.Calls.Manner
import ValueMachine.Proofs.Calls.Telling
import ValueMachine.Proofs.Ownership.Duplicates

/-! The operations on values in a plain manner: one that allows new values, counts, temporaries and
globals, new contents of containers, readings, releases on the way out, and exceptions whose text
is true. -/

namespace ValueMachine

open Machine

namespace Scalar

/-- A reference has no slot beside its target. -/
def Formed (s : Scalar) : Prop := s.target.isSome → s.int = none ∧ s.float = none ∧ s.text = none

theorem formed_of_target {s : Scalar} (h : s.target = none) : s.Formed := fun hs => by
  simp [h] at hs

@[simp] theorem formed_undefined : undefined.Formed := formed_of_target rfl

@[simp] theorem formed_ofInt64 (n : Int64) : (ofInt64 n).Formed := formed_of_target rfl

@[simp] theorem formed_ofUInt64 (n : UInt64) : (ofUInt64 n).Formed := formed_of_target rfl

@[simp] theorem formed_ofFloat (x : Float) : (ofFloat x).Formed := formed_of_target rfl

@[simp] theorem formed_ofByteText (t : ByteText) : (ofByteText t).Formed := formed_of_target rfl

@[simp] theorem formed_ofText (s : String) : (ofText s).Formed := formed_of_target rfl

@[simp] theorem formed_ofTarget (h : Handle) : (ofTarget h).Formed := fun _ => ⟨rfl, rfl, rfl⟩

@[simp] theorem formed_ofNumber (n : Number) : (ofNumber n).Formed := by
  rcases n with (_ | _) | _ <;> exact formed_of_target rfl

@[simp] theorem formed_ofBool (b : Bool) : (ofBool b).Formed := by
  cases b <;> exact formed_of_target rfl

/-- The integer of a scalar is unsigned only where no signed one has its value. -/
def Normal (s : Scalar) : Prop := ∀ n, s.int = some (.unsigned n) → 2 ^ 63 ≤ n.toNat

theorem normal_of_int {s : Scalar} (h : s.int = none) : s.Normal := fun n hn => by
  simp [h] at hn

@[simp] theorem normal_undefined : undefined.Normal := normal_of_int rfl

@[simp] theorem normal_ofInt64 (n : Int64) : (ofInt64 n).Normal := nofun

@[simp] theorem normal_ofUInt64 (n : UInt64) : (ofUInt64 n).Normal := fun u hu => by
  have hslot : Wide.ofUInt64 n = .unsigned u := Option.some_inj.1 hu
  rw [Wide.ofUInt64] at hslot
  split at hslot
  next => cases hslot
  next hbig =>
    cases hslot
    exact Nat.le_of_not_lt hbig

@[simp] theorem normal_ofFloat (x : Float) : (ofFloat x).Normal := normal_of_int rfl

@[simp] theorem normal_ofByteText (t : ByteText) : (ofByteText t).Normal := normal_of_int rfl

@[simp] theorem normal_ofText (s : String) : (ofText s).Normal := normal_of_int rfl

@[simp] theorem normal_ofTarget (h : Handle) : (ofTarget h).Normal := normal_of_int rfl

@[simp] theorem normal_ofNumber (n : Number) : (ofNumber n).Normal := by
  rcases n with (n | n) | x
  · exact normal_ofInt64 n
  · exact normal_ofUInt64 n
  · exact normal_ofFloat x

@[simp] theorem normal_ofBool (b : Bool) : (ofBool b).Normal := by
  cases b <;> exact nofun

/-- The slots of a scalar are set by an operation, or they are there already. -/
def Known (m : Machine) (s : Scalar) : Prop := s.Normal ∨ ∃ h, m.body h = .scalar s

end Scalar

/-- What a value holds as a scalar is formed. -/
def Body.Formed (b : Body) : Prop := ∀ s, b = .scalar s → s.Formed

@[simp] theorem Body.formed_scalar {s : Scalar} : (Body.scalar s).Formed ↔ s.Formed := by
  simp [Body.Formed]

/-- What a new value holds as a scalar is formed, and set by an operation. -/
def Body.Proper (b : Body) : Prop := ∀ s, b = .scalar s → s.Formed ∧ s.Normal

@[simp] theorem Body.proper_scalar {s : Scalar} : (Body.scalar s).Proper ↔ s.Formed ∧ s.Normal := by
  simp [Body.Proper]

/-- What a value holds as a scalar is known. -/
def Body.Known (m : Machine) (b : Body) : Prop := ∀ s, b = .scalar s → s.Known m

theorem Body.Proper.formed {b : Body} (hb : b.Proper) : b.Formed := fun s hs => (hb s hs).1

theorem Body.Proper.known {b : Body} (hb : b.Proper) (m : Machine) : b.Known m :=
  fun s hs => .inl (hb s hs).2

@[simp] theorem Body.known_scalar {m : Machine} {s : Scalar} : (Body.scalar s).Known m ↔ s.Known m := by
  simp [Body.Known]

/-- A manner that allows the steps of which readings consist. -/
structure Manner.Looks (M : Manner) : Prop where
  alloc : ∀ m {b}, b.Proper → M.returns m (m.alloc b).2
  retain : ∀ m h, M.returns m (m.retain h)
  release : ∀ m h, M.cleans m (m.release h)
  raise : ∀ m (f : Fault), f.Telling → M.exits .raised m (m.setErrorText f.message)
  readHooks : ∀ h, (runReadHooks h).Moves M

/-- A manner that allows the steps of which operations on values consist. -/
structure Manner.Plain (M : Manner) : Prop extends M.Looks where
  newCopy : ∀ h, (newCopy h).Moves M
  mortal : ∀ m h, M.returns m (m.mortal h)
  global : ∀ m s name, M.returns m (m.global s name).2
  setArray : ∀ {m h xs} ys, m.body h = .array xs → M.returns m (m.setBody h (.array ys))
  setHash : ∀ {m h t} u, m.body h = .hash t → M.returns m (m.setBody h (.hash u))
  name : ∀ m h c, M.returns m (m.onHeap (·.update h ({ · with className := some c })))

theorem Manner.retainAll {M : Manner} (hretain : ∀ m h, M.returns m (m.retain h)) (hs : List Handle)
    (m : Machine) : M.returns m (hs.foldl Machine.retain m) := by
  induction hs generalizing m with
  | nil => exact M.refl m
  | cons h rest ih => exact M.trans (hretain m h) (ih _)

/-- A manner that allows the small steps of which stores and readings consist. -/
structure Manner.Glances (M : Manner) : Prop where
  alloc : ∀ m {b}, b.Known m → M.returns m (m.alloc b).2
  retain : ∀ m h, M.returns m (m.retain h)
  releaseAll : ∀ m hs, M.cleans m (m.releaseAll hs)
  replaceScalar : ∀ {m h former new}, new.Known m → m.body h = .scalar former →
    M.returns m (m.replaceScalar h former new)
  noteAccess : ∀ m event, M.returns m (m.noteAccess event)
  tick : ∀ m, M.returns m { m with ticks := m.ticks + 1 }
  raise : ∀ m (f : Fault), M.exits .raised m (m.setErrorText f.message)

/-- A manner that allows the small steps of which stores, readings and copies consist. -/
structure Manner.Stepwise (M : Manner) : Prop extends M.Glances where
  mortal : ∀ m h, M.returns m (m.mortal h)
  global : ∀ m s name, M.returns m (m.global s name).2
  setArray : ∀ {m h xs} ys, m.body h = .array xs → M.returns m (m.setBody h (.array ys))
  setHash : ∀ {m h t} u, m.body h = .hash t → M.returns m (m.setBody h (.hash u))
  name : ∀ m h c, M.returns m (m.onHeap (·.update h ({ · with className := some c })))

namespace Manner.Glances

open Run

variable {M : Manner}

theorem storeEnds (hM : M.Glances) (h : Handle) {s : Scalar} {m : Machine}
    (hs : ∀ {former}, m.body h = .scalar former → M.returns m (m.replaceScalar h former s)) :
    M.Ends m (Machine.store h s m) := by
  simp only [Machine.store, Run.look_bind]
  split
  · exact M.ends_of_returns (M.returns_of_cleans (hM.releaseAll m s.owned)) (hM.raise _ .readOnly)
  · cases hb : (m.cell h).body with
    | scalar former => exact hs hb
    | _ => exact hM.raise m .notScalar

theorem storeKnown (hM : M.Glances) (h : Handle) {s : Scalar} {m : Machine} (hs : s.Known m) :
    M.Ends m (Machine.store h s m) :=
  hM.storeEnds h fun hb => hM.replaceScalar hs hb

theorem store (hM : M.Glances) (h : Handle) (s : Scalar) (hs : s.Normal := by simp) :
    Moves M (store h s) :=
  fun _ => hM.storeKnown h (.inl hs)

theorem readAction (hM : M.Glances) (h : Handle) (g : Magic) (a : ReadAction) :
    Moves M (runReadAction h g a) := by
  cases a with
  | record label => exact .change fun m => hM.noteAccess m _
  | tick => exact (Moves.change hM.tick).bind fun _ => (Moves.look _).bind fun _ => hM.store h _

theorem readHooks (hM : M.Glances) (h : Handle) : Moves M (runReadHooks h) :=
  (Moves.look _).bind fun _ => .forM (fun g => .forM (hM.readAction h g) _) _

theorem looks (hM : M.Glances) : M.Looks where
  alloc m _ hb := hM.alloc m (hb.known m)
  retain := hM.retain
  release m h := hM.releaseAll m [h]
  raise m f _ := hM.raise m f
  readHooks := hM.readHooks

end Manner.Glances

namespace Manner.Stepwise

open Run

variable {M : Manner}

theorem copySlots (hM : M.Stepwise) (h : Handle) : Moves M (copySlots h) := by
  refine (hM.readHooks h).bind fun _ => (Moves.look _).bind fun s => ?_
  cases s with
  | some s => exact (Moves.change fun m => retainAll hM.retain s.owned m).bind fun _ => .pure s
  | none => exact fun m => hM.raise m _

/-- The copied slots are still those of the value. -/
theorem known_copySlots {h : Handle} {s : Scalar} {m m' : Machine}
    (hr : Machine.copySlots h m = .ok s m') : s.Known m' := by
  obtain ⟨_, m₁, -, hcopy⟩ := Run.bind_ok hr
  simp only [Run.look_bind] at hcopy
  cases hs : m₁.scalar? h with
  | none => rw [hs] at hcopy; cases hcopy
  | some s' =>
    rw [hs] at hcopy
    cases hcopy
    exact .inr ⟨h, (body_retainAll m₁ s.owned h).trans (body_of_scalar? hs)⟩

theorem newCopy (hM : M.Stepwise) (h : Handle) : Moves M (newCopy h) := fun m =>
  M.ends_bind (hM.copySlots h m) fun _ m' hr => hM.alloc m' (Body.known_scalar.2 (known_copySlots hr))

theorem assign (hM : M.Stepwise) (dst src : Handle) : Moves M (assign dst src) :=
  .ite (.pure ()) fun m => M.ends_bind (hM.copySlots src m) fun _ _ hr =>
    hM.storeKnown dst (known_copySlots hr)

theorem plain (hM : M.Stepwise) : M.Plain where
  toLooks := hM.looks
  newCopy := hM.newCopy
  mortal := hM.mortal
  global := hM.global
  setArray := hM.setArray
  setHash := hM.setHash
  name := hM.name

end Manner.Stepwise

namespace Manner.Looks

open Run

variable {M : Manner} {α : Type}

theorem fault (hM : M.Looks) {f : Fault} (hf : ∀ t, f ≠ .said t) : Moves M (ValueMachine.raise f : Run α) :=
  fun m => hM.raise m f (Fault.telling hf)

theorem drop (hM : M.Looks) (h : Handle) : Moves M (Run.change (·.release h)) :=
  fun m => M.returns_of_cleans (hM.release m h)

/-! ### Scalars -/

theorem reading (hM : M.Looks) (h : Handle) (f : Machine → α) :
    Moves M (do runReadHooks h; Run.look f : Run α) :=
  (hM.readHooks h).bind fun _ => .look f

theorem isDefined (hM : M.Looks) (h : Handle) : Moves M (isDefined h) := hM.reading h _

theorem number (hM : M.Looks) (h : Handle) : Moves M (number h) := hM.reading h _

theorem text (hM : M.Looks) (h : Handle) : Moves M (text h) := hM.reading h _

theorem truth (hM : M.Looks) (h : Handle) : Moves M (truth h) := hM.reading h _

theorem string (hM : M.Looks) (h : Handle) : Moves M (string h) :=
  (hM.text h).bind fun _ => .pure _

theorem newScalar (hM : M.Looks) (s : Scalar) (hs : s.Formed ∧ s.Normal := by simp) :
    Moves M (newScalar s) :=
  fun m => hM.alloc m (Body.proper_scalar.2 hs)

/-! ### Containers -/

theorem slots (hM : M.Looks) (h : Handle) : Moves M (slots h) := by
  refine (Moves.look _).bind fun b => ?_
  cases b.array? with
  | some xs => exact .pure xs
  | none => exact hM.fault (by simp)

theorem table (hM : M.Looks) (h : Handle) : Moves M (table h) := by
  refine (Moves.look _).bind fun b => ?_
  cases b.hash? with
  | some t => exact .pure t
  | none => exact hM.fault (by simp)

theorem arrayFetch? (hM : M.Looks) (h : Handle) (i : Int) : Moves M (arrayFetch? h i) :=
  (hM.slots h).bind fun _ => .pure _

theorem hashFetch? (hM : M.Looks) (h : Handle) (key : Bytes) : Moves M (hashFetch? h key) :=
  (hM.table h).bind fun _ => .pure _

theorem hashEntries (hM : M.Looks) (h : Handle) : Moves M (hashEntries h) :=
  (hM.table h).bind fun _ => .pure _

/-! ### Classes -/

theorem parents (hM : M.Looks) (className : String) : Moves M (parents className) := by
  refine (Moves.look _).bind fun isa => ?_
  cases isa with
  | some isa => exact (hM.slots isa).bind fun _ => .mapM hM.string _
  | none => exact .pure _

theorem derivesWithin (hM : M.Looks) (ancestor : String) (n : Nat) (c : String) :
    Moves M (derivesWithin ancestor n c) := by
  induction n generalizing c with
  | zero => exact .ite (.pure _) (hM.fault (by simp))
  | succ n ih => exact .ite (.pure _) ((hM.parents c).bind fun _ => .anyM ih _)

theorem isDerivedFrom (hM : M.Looks) (h : Handle) (ancestor : String) :
    Moves M (isDerivedFrom h ancestor) := by
  refine (Moves.look _).bind fun target => ?_
  cases target with
  | none => exact (hM.string h).bind fun c => hM.derivesWithin ancestor _ c
  | some target =>
    refine (Moves.look _).bind fun c => ?_
    cases c with
    | some c => exact hM.derivesWithin ancestor _ c
    | none => exact (Moves.look _).bind fun _ => .pure _

end Manner.Looks

namespace Manner.Plain

open Run

variable {M : Manner} {α β : Type}

/-! ### Scalars -/

theorem newReference (hM : M.Plain) (target : Handle) : Moves M (newReference target) :=
  (Moves.change fun m => hM.retain m target).bind fun _ => hM.newScalar _

/-! ### Containers -/

theorem onSlots (hM : M.Plain) (h : Handle) (f : Slots → α × Slots) :
    Moves M (onSlots h f) := by
  intro m
  simp only [Machine.onSlots, Run.look_bind]
  cases hb : m.body h with
  | array xs => exact hM.setArray _ hb
  | _ => exact hM.fault (by simp) m

theorem onTable (hM : M.Plain) (h : Handle) (f : Table → α × Table) :
    Moves M (onTable h f) := by
  intro m
  simp only [Machine.onTable, Run.look_bind]
  cases hb : m.body h with
  | hash t => exact hM.setHash _ hb
  | _ => exact hM.fault (by simp) m

theorem arrayPush (hM : M.Plain) (h value : Handle) : Moves M (arrayPush h value) :=
  hM.onSlots h _

theorem checkRoom (n : Nat) : Moves M (checkRoom n) := by
  unfold Machine.checkRoom
  exact .ite (.giveUp (by simp)) (.pure _)

theorem arrayStore (hM : M.Plain) (h : Handle) (i : Int) (value : Handle) :
    Moves M (arrayStore h i value) := by
  refine (hM.slots h).bind fun xs => ?_
  cases Slots.place? xs.length i with
  | some p =>
    exact ((hM.slots h).bind fun _ => checkRoom (p + 1)).bind fun _ => hM.onSlots h _
  | none => exact (hM.drop value).bind fun _ => hM.fault (by simp)

theorem hashPut (hM : M.Plain) (h : Handle) (key : Bytes) (value : Handle) :
    Moves M (hashPut h key value) := by
  refine (hM.onTable h _).bind fun former => ?_
  cases former with
  | some former => exact hM.drop former
  | none => exact .pure _

theorem copyArray (hM : M.Plain) (h : Handle) : Moves M (copyArray h) := by
  refine Moves.bind (fun m => hM.alloc m (by simp [Body.Proper])) fun copy =>
    (hM.slots h).bind fun xs => ?_
  refine Moves.bind (.forM (fun slot => ?_) _) fun _ => .pure copy
  obtain ⟨_ | item, i⟩ := slot
  · exact .pure _
  · exact (hM.newCopy item).bind fun v => (hM.arrayStore copy _ v).bind fun _ => .pure _

theorem copyHash (hM : M.Plain) (h : Handle) : Moves M (copyHash h) := by
  refine Moves.bind (fun m => hM.alloc m (by simp [Body.Proper])) fun copy =>
    (hM.hashEntries h).bind fun es => ?_
  refine Moves.bind (.forM (fun e => ?_) _) fun _ => .pure copy
  exact (hM.newCopy e.2).bind fun v => hM.hashPut copy e.1 v

theorem duplicate (hM : M.Plain) (h : Handle) : Moves M (duplicate h) := by
  refine (Moves.look _).bind fun kind => ?_
  have hshare : Moves M (do Run.change (·.retain h); return h : Run Handle) :=
    (Moves.change fun m => hM.retain m h).bind fun _ => .pure h
  cases kind
  case array => exact hM.copyArray h
  case hash => exact hM.copyHash h
  case scalar => exact hM.newCopy h
  case unknown => exact hM.newCopy h
  all_goals exact hshare

/-! ### Classes -/

theorem bless (hM : M.Plain) (h : Handle) (className : String) :
    Moves M (bless h className) := by
  refine (Moves.look _).bind fun target => ?_
  cases target with
  | some target => exact .change fun m => hM.name m target className
  | none => exact hM.fault (by simp)

theorem findMethodWithin (hM : M.Plain) (method : String) (n : Nat) (c : String) :
    Moves M (findMethodWithin method n c) := by
  induction n generalizing c with
  | zero => exact hM.fault (by simp)
  | succ n ih =>
    refine (Moves.look _).bind fun sub => ?_
    cases sub with
    | some sub => exact .pure _
    | none => exact (hM.parents c).bind fun _ => .findSomeM? ih _

/-! ### Targets of calls -/

theorem resolveSub (hM : M.Plain) (target : Handle) : Moves M (resolveSub target) := by
  refine (Moves.look _).bind fun kind => ?_
  cases kind
  case code => exact .pure target
  -- a reference to a sub, or the name of one
  case scalar | unknown =>
    refine (Moves.look _).bind fun referent => ?_
    cases referent with
    | some referent => exact (Moves.look _).bind fun _ => .ite (.pure _) (hM.fault (by simp))
    | none =>
      refine (hM.string target).bind fun name => (Moves.look _).bind fun sub => ?_
      cases sub with
      | some sub => exact .pure sub
      | none => exact hM.fault (by simp)
  all_goals exact hM.fault (by simp)

theorem invocantClass (hM : M.Plain) (method : String) (invocant : Handle) :
    Moves M (invocantClass method invocant) := by
  refine (Moves.look _).bind fun c => ?_
  cases c with
  | some c => exact .pure c
  | none =>
    refine (Moves.look _).bind fun isRef => .ite (hM.fault (by simp)) ?_
    exact (hM.string invocant).bind fun _ => .ite (hM.fault (by simp)) (.pure _)

theorem resolveMethod (hM : M.Plain) (target : Handle) (mark : Nat) :
    Moves M (resolveMethod target mark) := by
  refine (hM.string target).bind fun method => .ite (hM.resolveSub target) ?_
  refine (Moves.look _).bind fun stack => ?_
  cases stack.get? mark with
  | none => exact hM.fault (by simp)
  | some invocant =>
    refine (hM.invocantClass method invocant).bind fun c => ?_
    refine (hM.findMethodWithin method _ c).bind fun sub => ?_
    cases sub with
    | some sub => exact .pure sub
    | none => exact hM.fault (by simp)

end Manner.Plain

end ValueMachine

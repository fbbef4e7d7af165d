import ValueMachine.Proofs.Calls.Values
import ValueMachine.Host.Call

/-! Conversions at the boundary in a plain manner: host values given to the machine, and values read
as host types. What a reading has held it gives up again where it fails. -/

namespace ValueMachine

open Machine

/-- A manner that allows stores into any value and host instances as objects. -/
structure Manner.Stores (M : Manner) : Prop extends M.Plain where
  store : ∀ h {s}, s.Normal → (store h s).Moves M
  claim : ∀ m i, M.returns m (m.claim i)
  attach : ∀ m h w, M.returns m (m.attach h ⟨Magic.extension, .bridge, w⟩)

/-- A manner in which host values are given to the machine. -/
structure Manner.Gives (M : Manner) : Prop extends M.Plain where
  object : ∀ i, (Datum.objectOf i).Moves M

/-- A manner in which values are looked at for a while: held handles are given up, and operations fail
at the boundary itself. -/
structure Manner.Holds (M : Manner) : Prop extends M.Looks where
  fail : ∀ {f} m, (∀ v, f ≠ .died v) → M.fails f m m
  drop : ∀ m v, M.cleans m (m.drop v)

/-- A manner in which values are copied as well. -/
structure Manner.Drops (M : Manner) : Prop extends M.Plain, M.Holds

/-- A manner in which other interpreters come into focus for a while. -/
structure Manner.Crosses (M : Manner) : Prop extends M.Drops where
  cross : ∀ {α : Type} (i : InterpId) {x : Run α}, x.Moves M → (onInterpreter i x).Moves M

/-! ### Host values as arguments -/

namespace Manner.Stores

open Run

variable {M : Manner}

theorem storeObject (hM : M.Stores) (h : Handle) (className : Option String) (n : Int64) :
    Moves M (storeObject h className n) := by
  refine (hM.newScalar _).bind fun target => (hM.store h (by simp)).bind fun _ => ?_
  cases className with
  | some c => exact hM.bless h c
  | none => exact .pure _

theorem objectOf (hM : M.Stores) (i : InstanceId) : Moves M (Datum.objectOf i) := by
  refine (Moves.change fun m => hM.claim m i).bind fun _ => (Moves.look _).bind fun c => ?_
  refine (hM.newScalar _).bind fun h => (hM.storeObject h _ _).bind fun _ => ?_
  refine (Moves.look _).bind fun target => ?_
  cases target with
  | some target => exact (Moves.change fun m => hM.attach m target _).bind fun _ => .pure h
  | none => exact (Moves.pure ()).bind fun _ => .pure h

theorem gives (hM : M.Stores) : M.Gives := ⟨hM.toPlain, hM.objectOf⟩

end Manner.Stores

namespace Manner.Gives

open Run

variable {M : Manner}

theorem freshOf (hM : M.Gives) (v : Held) : Moves M (Datum.freshOf v) :=
  (Moves.look _).bind fun _ => .ite (hM.newCopy _) (hM.newReference _)

theorem pushItems (hM : M.Gives) (array : Handle) {items : List Datum}
    (hitems : ∀ d ∈ items, Moves M d.toValue) : Moves M (Datum.pushItems array items) := by
  induction items with
  | nil =>
    rw [Datum.pushItems]
    exact .pure _
  | cons d rest ih =>
    obtain ⟨hd, hrest⟩ := List.forall_mem_cons.1 hitems
    rw [Datum.pushItems]
    exact hd.bind fun v => (hM.arrayPush array v).bind fun _ => ih hrest

theorem putPairs (hM : M.Gives) (hash : Handle) {pairs : List (String × Datum)}
    (hpairs : ∀ p ∈ pairs, Moves M p.2.toValue) : Moves M (Datum.putPairs hash pairs) := by
  induction pairs with
  | nil =>
    rw [Datum.putPairs]
    exact .pure _
  | cons p rest ih =>
    obtain ⟨hp, hrest⟩ := List.forall_mem_cons.1 hpairs
    rw [Datum.putPairs]
    exact hp.bind fun v => (hM.hashPut hash _ v).bind fun _ => ih hrest

theorem toValue (hM : M.Gives) (d : Datum) : Moves M d.toValue := by
  induction d using Datum.induction with
  | absent | bool _ | signed _ | unsigned _ | float _ | text _ =>
    rw [Datum.toValue]
    exact hM.newScalar _
  | list items ih =>
    rw [Datum.toValue]
    refine Moves.bind (fun m => hM.alloc m (by simp [Body.Proper])) fun array => ?_
    exact ((hM.pushItems array ih).otherwise fun m => hM.release m array).bind fun _ =>
      hM.newScalar _
  | map pairs ih =>
    rw [Datum.toValue]
    refine Moves.bind (fun m => hM.alloc m (by simp [Body.Proper])) fun hash => ?_
    exact ((hM.putPairs hash ih).otherwise fun m => hM.release m hash).bind fun _ =>
      hM.newScalar _
  | held v | scalar v =>
    rw [Datum.toValue]
    exact hM.freshOf v
  | shared i =>
    rw [Datum.toValue]
    exact hM.object i

theorem toArgument (hM : M.Gives) (d : Datum) : Moves M d.toArgument := by
  have hshare (h : Handle) : Moves M (do Run.change (·.retain h); return h : Run Handle) :=
    (Moves.change fun m => hM.retain m h).bind fun _ => .pure h
  cases d
  case held v => exact (Moves.look _).bind fun _ => .ite (hshare _) (hM.freshOf v)
  case scalar v => exact hshare _
  all_goals exact hM.toValue _

end Manner.Gives

/-! ### Values as host types -/

namespace Manner.Holds

open Bridge

variable {M : Manner} {α : Type}

theorem dropAll (hM : M.Holds) (vs : List Held) (m : Machine) : M.cleans m (m.dropAll vs) := by
  induction vs generalizing m with
  | nil => exact M.cleans_refl m
  | cons v rest ih => exact M.cleans_trans (hM.drop m v) (ih _)

theorem adopt (h : Handle) : Run.Moves M (adopt h) := (Run.Moves.look _).bind fun _ => .pure _

theorem hold (hM : M.Holds) (h : Handle) : Run.Moves M (hold h) :=
  (Run.Moves.change fun m => hM.retain m h).bind fun _ => adopt h

theorem keepShared (hM : M.Holds) (h : Handle) : Run.Moves M (Reading.keep .share h) := hM.hold h

theorem share (hM : M.Holds) (v : Held) : Run.Moves M (share v) :=
  (Run.Moves.change fun m => hM.retain m v.handle).bind fun _ => .pure v

theorem failure (hM : M.Holds) {f : Failure} (hf : ∀ v, f ≠ .died v) :
    Moves M (Bridge.fail f : Bridge α) :=
  .fail fun m => hM.fail m hf

theorem about (hM : M.Holds) (h : Handle) (f : Held → Failure)
    (hf : ∀ v w, f v ≠ .died w) : Moves M (Failure.about h f : Bridge α) :=
  (Moves.ofRun (hM.hold h)).bind fun v => hM.failure (hf v)

theorem get : Moves M (MonadState.get : Bridge Machine) := .ofRun .get

theorem strictNumber (hM : M.Holds) (h : Handle) (want : String) :
    Moves M (Strict.number h want) := by
  refine (Moves.ofRun (hM.isDefined h)).bind fun b => ?_
  cases b
  case' false => refine (hM.about h _ (by simp)).bind fun _ => ?_
  -- whether or not it is defined, it is read as the number it holds or its text is
  all_goals
    refine get.bind fun m => .ite (hM.about h _ (by simp)) (.ite (.ofRun (hM.number h)) (.ite ?_
      (hM.about h _ (by simp))))
    refine (Moves.ofRun (hM.text h)).bind fun t => ?_
    cases Number.ofBytes? t.bytes with
    | some n => exact .pure n
    | none => exact hM.about h _ (by simp)

theorem strictSigned (hM : M.Holds) (h : Handle) : Moves M (Strict.signed h) := by
  refine (hM.strictNumber h _).bind fun n => ?_
  cases n.toSigned? with
  | some n => exact .pure n
  | none => exact hM.about h _ (by simp)

theorem strictUnsigned (hM : M.Holds) (h : Handle) : Moves M (Strict.unsigned h) := by
  refine (hM.strictNumber h _).bind fun n => ?_
  cases n.toUnsigned? with
  | some n => exact .pure n
  | none => exact hM.about h _ (by simp)

theorem strictInteger (hM : M.Holds) (t : IntType) (h : Handle) :
    Moves M (Strict.integer t h) := by
  have hcheck (n : Int) : Moves M (if t.contains n then return n
      else Failure.about h (.notNumber · t.name) : Bridge Int) :=
    .ite (.pure n) (hM.about h _ (by simp))
  unfold Strict.integer
  by_cases ht : t.isSigned = true
  · simp only [ht, if_true]
    exact (hM.strictSigned h).bind hcheck
  · simp only [ht]
    exact (hM.strictUnsigned h).bind hcheck

theorem strictFloat (hM : M.Holds) (h : Handle) : Moves M (Strict.float h) :=
  (hM.strictNumber h _).bind fun _ => .pure _

theorem strictText (hM : M.Holds) (h : Handle) : Moves M (Strict.text h) := by
  have hread : Moves M (do
      let m ← MonadState.get
      if m.kind h ≠ .scalar || m.isReference h then Failure.about h .notStringOrNumber
      else Machine.text h : Bridge ByteText) :=
    get.bind fun m => .ite (hM.about h _ (by simp)) (.ofRun (hM.text h))
  refine (Moves.ofRun (hM.isDefined h)).bind fun b => ?_
  cases b with
  | true => exact hread
  | false => exact (hM.about h _ (by simp)).bind fun _ => hread

theorem strictString (hM : M.Holds) (h : Handle) : Moves M (Strict.string h) :=
  (hM.strictText h).bind fun _ => .pure _

theorem container (hM : M.Holds) (kind : Kind) (h : Handle) :
    Moves M (Reading.container kind h) :=
  get.bind fun _ => .ite (.ofRun (hM.hold _)) (hM.about h _ (by simp))

theorem scalar (hM : M.Holds) {mode : Mode} (hkeep : ∀ h, Run.Moves M (Reading.keep mode h))
    (h : Handle) : Moves M (Reading.scalar mode h) :=
  (Moves.look _).bind fun _ => .ite (.ofRun (hkeep h)) (hM.about h _ (by simp))

theorem objectOf (hM : M.Holds) (v : Held) : Moves M (Reading.objectOf v) :=
  (Moves.look _).bind fun _ => .ite (.pure v) (hM.failure (by simp))

theorem object (hM : M.Holds) {mode : Mode} (hkeep : ∀ h, Run.Moves M (Reading.keep mode h))
    (h : Handle) : Moves M (Reading.object mode h) :=
  (hM.scalar hkeep h).bind fun v => hM.objectOf v

theorem named (hM : M.Holds) {mode : Mode} (hkeep : ∀ h, Run.Moves M (Reading.keep mode h))
    (c : NamedClass) (h : Handle) : Moves M (Reading.named mode c h) := by
  refine (hM.object hkeep h).bind fun v => ?_
  have hderives : Run.Moves M ((isDerivedFrom v.handle c.className).otherwise (·.drop v)) :=
    (hM.isDerivedFrom v.handle _).otherwise fun m => hM.drop m v
  exact (Moves.ofRun hderives).bind fun fits => .ite (.pure v) (hM.failure (by simp))

theorem bridged (hM : M.Holds) (className : String) (h : Handle) :
    Moves M (Reading.bridged className h) := by
  refine get.bind fun m => .ite (hM.about h _ (by simp)) ?_
  cases m.bridgedInstance? h with
  | none => exact hM.about h _ (by simp)
  | some i => exact .ite (.pure i) (hM.about h _ (by simp))

theorem hole (hM : M.Holds) {read : Handle → Bridge α} (hr : ∀ h, Moves M (read h)) :
    Moves M (Reading.hole read) :=
  (Moves.ofRun ((hM.newScalar _).bind adopt)).bind fun v =>
    (hr v.handle).releasing fun m => hM.dropAll [v] m

theorem readSlots (hM : M.Holds) {read : Handle → Bridge α} (hr : ∀ h, Moves M (read h))
    (heldBy : α → List Held) (i : Nat) (xs : Slots) :
    Moves M (Reading.slots read heldBy i xs) := by
  induction xs generalizing i with
  | nil => exact .pure _
  | cons slot rest ih =>
    refine (Moves.atArgument i ?_).bind fun a =>
      ((ih (i + 1)).guarding fun m => hM.dropAll (heldBy a) m).bind fun _ => .pure _
    cases slot with
    | some h => exact hr h
    | none => exact hM.hole hr

theorem readEntries (hM : M.Holds) {read : Handle → Bridge α} (hr : ∀ h, Moves M (read h))
    (heldBy : α → List Held) (es : List (Bytes × Handle)) :
    Moves M (Reading.entries read heldBy es) := by
  induction es with
  | nil => exact .pure _
  | cons e rest ih =>
    refine (hr e.2).bind fun a => ?_
    exact (ih.guarding fun m => hM.dropAll (heldBy a) m).bind fun _ => .pure _

theorem vector (hM : M.Holds) {read : Handle → Bridge α} (hr : ∀ h, Moves M (read h))
    (heldBy : α → List Held) (array : Handle) : Moves M (Reading.vector read heldBy array) :=
  (Moves.ofRun (hM.slots array)).bind fun xs => hM.readSlots hr heldBy 0 xs

theorem textMap (hM : M.Holds) {read : Handle → Bridge α} (hr : ∀ h, Moves M (read h))
    (heldBy : α → List Held) (hash : Handle) : Moves M (Reading.textMap read heldBy hash) := by
  refine (Moves.ofRun (hM.hashEntries hash)).bind fun es => ?_
  refine (hM.readEntries hr heldBy es).bind fun ps => .ofRun ?_
  exact (Run.Moves.change fun m => M.returns_of_cleans (hM.dropAll _ m)).bind fun _ => .pure _

theorem resolve (hM : M.Holds) (object : Handle) (expected : Option String) :
    Run.Moves M (resolve object expected) := by
  refine (Run.Moves.look _).bind fun type => ?_
  cases type with
  | none => exact .pure _
  | some type =>
    cases expected with
    | none => exact .pure _
    | some c =>
      refine .ite (.pure _) (Run.Moves.bind ?_ fun b => .ite (.pure _) (.pure _))
      unfold isStrictSubclass
      exact .ite (.pure _) (hM.derivesWithin c _ _)

theorem classify (hM : M.Holds) (v : Held) : Run.Moves M (classify v) := by
  refine Run.Moves.get.bind fun m => ?_
  cases m.kind v.handle
  case scalar =>
    refine .ite (.pure _) ?_
    cases m.bridgedInstance? v.handle with
    | some i => exact .pure _
    | none =>
      refine (hM.resolve v.handle none).bind fun type => ?_
      cases type with
      | some type => exact (hM.share v).bind fun _ => .pure _
      | none => exact .pure _
  all_goals exact .pure _

/-- Every reading as a host type has the manner, if the keeping of a value has it. -/
theorem readAs (hM : M.Holds) {mode : Mode} (hkeep : ∀ h, Run.Moves M (Reading.keep mode h))
    (t : HostType) (h : Handle) : Moves M (t.read mode h) := by
  induction t generalizing mode h with
  | bool => exact .ofRun (hM.truth h)
  | int t => exact hM.strictInteger t h
  | float => exact hM.strictFloat h
  | single => exact (hM.strictFloat h).bind fun _ => .pure _
  | string => exact hM.strictString h
  | option t ih =>
    exact (Moves.ofRun (hM.isDefined h)).bind fun _ =>
      .ite ((ih hkeep h).bind fun _ => .pure _) (.pure _)
  | vec t ih =>
    exact (hM.container .array h).bind fun array =>
      (hM.vector (ih hM.keepShared) t.held array.handle).releasing fun m => hM.dropAll [array] m
  | map t ih =>
    exact (hM.container .hash h).bind fun hash =>
      (hM.textMap (ih hM.keepShared) t.held hash.handle).releasing fun m => hM.dropAll [hash] m
  | value => exact .ofRun (hkeep h)
  | scalar => exact hM.scalar hkeep h
  | array => exact hM.container .array h
  | hash => exact hM.container .hash h
  | sub => exact hM.container .code h
  | object => exact hM.object hkeep h
  | any =>
    exact (Moves.ofRun (hkeep h)).bind fun v =>
      .ofRun ((hM.classify v).otherwise fun m => hM.drop m v)
  | named c => exact hM.named hkeep c h
  | bridged c => exact hM.bridged c h

theorem describe (hM : M.Holds) (h : Handle) : Run.Moves M (describe h) := by
  refine (Run.Moves.look _).bind fun kind => ?_
  cases kind
  case scalar =>
    refine (hM.isDefined h).bind fun _ => .ite ?_ (.pure _)
    refine (Run.Moves.look _).bind fun _ => .ite ?_ (hM.string h)
    exact (hM.string h).bind fun _ => .pure _
  all_goals exact .pure _

end Manner.Holds

namespace Manner.Drops

open Bridge

variable {M : Manner} {α : Type}

theorem holdCopy (hM : M.Drops) (h : Handle) : Run.Moves M (holdCopy h) :=
  (hM.duplicate h).bind Holds.adopt

theorem keep (hM : M.Drops) (mode : Mode) (h : Handle) : Run.Moves M (Reading.keep mode h) := by
  cases mode with
  | share => exact hM.hold h
  | copy => exact hM.holdCopy h

/-- Every reading as a host type has the manner. -/
theorem read (hM : M.Drops) (mode : Mode) (t : HostType) (h : Handle) : Moves M (t.read mode h) :=
  hM.readAs (hM.keep mode) t h

/-! ### Collectors -/

theorem collectNothing (results : List Handle) : Moves M (Host.collectNothing results) := .pure ()

theorem collectList (hM : M.Drops) (results : List Handle) :
    Moves M (Host.collectList results) := by
  induction results with
  | nil => exact .pure _
  | cons h rest ih =>
    exact (hM.scalar (hM.keep .copy) h).bind fun v =>
      (ih.guarding fun m => hM.dropAll [v] m).bind fun _ => .pure _

theorem collectScalar (hM : M.Drops) (t : HostType) (results : List Handle) :
    Moves M (Host.collectScalar t results) := by
  unfold Host.collectScalar
  cases results.getLast? with
  | some h => exact hM.read .copy t h
  | none => exact hM.failure (by simp)

end Manner.Drops

theorem Manner.Crosses.message {M : Manner} (hM : M.Crosses) (f : Failure) :
    Run.Moves M f.message := by
  have hdescribed (v : Held) (text : String → String) :
      Run.Moves M (do return text (← onInterpreter v.owner (Machine.describe v.handle))) :=
    (hM.cross v.owner (hM.describe v.handle)).bind fun _ => .pure _
  induction f with
  | died v => exact (hM.cross v.owner (hM.string v.handle)).bind fun _ => .pure _
  | unexpectedKind v _ | notNumber v _ | notStringOrNumber v | notReference v | notObject v
  | notWrapped v | unexpectedClass v _ => exact hdescribed v _
  | argument i source ih => exact ih.bind fun _ => .pure _
  | _ => exact .pure _

end ValueMachine

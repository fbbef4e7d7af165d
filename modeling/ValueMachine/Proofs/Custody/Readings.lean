import ValueMachine.Proofs.Custody.Boundary
import ValueMachine.Proofs.Documents.Keyed
import ValueMachine.Host.Closure

/-! Readings of values by host code, and closures with parameters, in a custody. What a reading keeps
comes into the hands of host code; where it fails, so does the value that its failure holds. -/

namespace ValueMachine

open Machine

variable {C : Custody} {held : List Handle} {h : Handle} {α β : Type} {o : α → List Handle}
  {o' : β → List Handle}

/-- The values of a failure do not depend on the argument that it is told by. -/
theorem Failure.held_atArgument (i : Nat) (f : Failure) : (f.atArgument i).held = f.held := by
  cases f <;> rfl

/-- What is done may depend on the state. -/
theorem Run.Honours.get {f : Machine → Run α} (hf : ∀ m, (f m).Honours C held o) :
    (get >>= f : Run α).Honours C held o := fun m hm => hf m m hm

namespace Bridge

variable {x : Bridge α} {f : α → Bridge β} {vs : List Held}

/-- An operation across the boundary does what a custody allows. It hands out what its result or its
failure holds. -/
def Honours (C : Custody) (held : List Handle) (o : α → List Handle) (x : Bridge α) : Prop :=
  x.run.Honours C held (handlesOf o)

namespace Honours

variable (hL : C.Liberal)

include hL

theorem pure {a : α} (ha : o a ⊆ held) : (Pure.pure a : Bridge α).Honours C held o :=
  Run.Honours.pure hL.toLawful (o := handlesOf o) (a := .ok a) ha

theorem bind (hx : x.Honours C held o) (hf : ∀ a, (f a).Honours C (o a ++ held) o') :
    (x >>= f).Honours C held o' := by
  refine Run.Honours.bind hL.toLawful hx fun ended => ?_
  cases ended with
  | ok a => exact hf a
  | error e =>
    exact Run.Honours.pure hL.toLawful (o := handlesOf o') (a := .error e)
      (List.subset_append_left _ _)

theorem andThen (hx : x.Honours C held noHandles) (hf : ∀ a, (f a).Honours C held o') :
    (x >>= f).Honours C held o' :=
  bind hL hx fun a => hf a

theorem ofRun {x : Run α} (hx : Run.Honours C held o x) : (Bridge.ofRun x).Honours C held o :=
  Run.Honours.bind hL.toLawful hx fun a =>
    Run.Honours.pure hL.toLawful (o := handlesOf o) (a := .ok a) (List.subset_append_left _ _)

theorem look (g : Machine → α) : (Bridge.look g).Honours C held noHandles :=
  ofRun hL (Run.Honours.look g)

omit hL in
theorem get {f : Machine → Bridge α} (hf : ∀ m, (f m).Honours C held o) :
    (get >>= f).Honours C held o := fun m hm => hf m m hm

omit hL in
theorem ite {c : Prop} [Decidable c] {y : Bridge α} (hx : x.Honours C held o)
    (hy : y.Honours C held o) : (if c then x else y).Honours C held o := by
  split
  · exact hx
  · exact hy

theorem fail {e : Failure} (he : e.held.map (·.handle) ⊆ held) :
    (Bridge.fail e : Bridge α).Honours C held o :=
  Run.Honours.pure hL.toLawful (o := handlesOf o) (a := .error e) he

/-- A failure about a value in hand. -/
theorem about {e : Held → Failure} (hh : h ∈ held) (he : ∀ v, (e v).held = [v]) :
    (Failure.about h e : Bridge α).Honours C held o := by
  refine bind hL (ofRun hL (hL.hold hh)) fun v => fail hL ?_
  rw [he v]
  exact List.subset_append_left _ _

theorem releasing (hx : x.Honours C held o) (hvs : vs.map (·.handle) ⊆ held) :
    (Bridge.releasing vs x).Honours C held o :=
  Run.Honours.always hx
    (fun hsub hm => hL.dropAll (List.Subset.trans hvs hsub) hm) fun _ => hL.stops _ _

theorem guarding (hx : x.Honours C held o) (hvs : vs.map (·.handle) ⊆ held) :
    (Bridge.guarding vs x).Honours C held o := by
  refine Run.Honours.bind hL.toLawful (hL.otherwise hx (hL.dropAll hvs)) fun ended => ?_
  cases ended with
  | ok a =>
    exact Run.Honours.pure hL.toLawful (o := handlesOf o) (a := .ok a) (List.subset_append_left _ _)
  | error e =>
    refine Run.Honours.andThen hL.toLawful (Run.Honours.change fun hm => ?_) fun _ => ?_
    · exact hL.dropAll (List.subset_append_of_subset_right _ hvs) hm
    · exact Run.Honours.pure hL.toLawful (o := handlesOf o) (a := .error e)
        (List.subset_append_left _ _)

theorem atArgument (i : Nat) (hx : x.Honours C held o) :
    (Bridge.atArgument i x).Honours C held o := by
  refine Run.Honours.bind hL.toLawful hx fun ended => ?_
  cases ended with
  | ok a =>
    exact Run.Honours.pure hL.toLawful (o := handlesOf o) (a := .ok a) (List.subset_append_left _ _)
  | error e =>
    refine Run.Honours.pure hL.toLawful (o := handlesOf o) (a := .error (e.atArgument i)) ?_
    rw [handlesOf, Failure.held_atArgument]
    exact List.subset_append_left _ _

end Honours

end Bridge

namespace Custody.Liberal

open Bridge

variable (hL : C.Liberal)

include hL

/-! ### Strict readings -/

theorem strictNumber (hh : h ∈ held) (want : String) :
    (Strict.number h want).Honours C held noHandles := by
  have hC := hL.toLawful
  have hnot : Honours C held noHandles (Failure.about h (.notNumber · want) : Bridge Number) :=
    Honours.about hL hh fun _ => rfl
  refine Honours.andThen hL (.ofRun hL (hC.isDefined hh)) fun b => ?_
  cases b
  case' false => refine Honours.andThen hL (Honours.about hL hh fun _ => rfl) fun _ => ?_
  -- whether or not it is defined, it is read as the number it holds or its text is
  all_goals
    refine Honours.get fun m => .ite hnot (.ite (.ofRun hL (hC.number hh)) (.ite ?_ hnot))
    refine Honours.andThen hL (.ofRun hL (hC.text hh)) fun t => ?_
    cases Number.ofBytes? t.bytes with
    | some n => exact .pure hL (List.nil_subset _)
    | none => exact hnot

theorem strictSigned (hh : h ∈ held) : (Strict.signed h).Honours C held noHandles := by
  refine Honours.andThen hL (hL.strictNumber hh _) fun n => ?_
  cases n.toSigned? with
  | some n => exact .pure hL (List.nil_subset _)
  | none => exact Honours.about hL hh fun _ => rfl

theorem strictUnsigned (hh : h ∈ held) : (Strict.unsigned h).Honours C held noHandles := by
  refine Honours.andThen hL (hL.strictNumber hh _) fun n => ?_
  cases n.toUnsigned? with
  | some n => exact .pure hL (List.nil_subset _)
  | none => exact Honours.about hL hh fun _ => rfl

theorem strictInteger (hh : h ∈ held) (t : IntType) :
    (Strict.integer t h).Honours C held noHandles := by
  have hcheck (n : Int) : Honours C held noHandles (if t.contains n then return n
      else Failure.about h (.notNumber · t.name) : Bridge Int) :=
    .ite (.pure hL (List.nil_subset _)) (Honours.about hL hh fun _ => rfl)
  unfold Strict.integer
  by_cases ht : t.isSigned = true
  · simp only [ht, if_true]
    exact Honours.andThen hL (hL.strictSigned hh) hcheck
  · simp only [ht]
    exact Honours.andThen hL (hL.strictUnsigned hh) hcheck

theorem strictFloat (hh : h ∈ held) : (Strict.float h).Honours C held noHandles :=
  Honours.andThen hL (hL.strictNumber hh _) fun _ => .pure hL (List.nil_subset _)

theorem strictString (hh : h ∈ held) : (Strict.string h).Honours C held noHandles := by
  have hC := hL.toLawful
  have hread : Honours C held noHandles (do
      let m ← get
      if m.kind h ≠ .scalar || m.isReference h then Failure.about h .notStringOrNumber
      else Machine.text h : Bridge ByteText) :=
    Honours.get fun m => .ite (Honours.about hL hh fun _ => rfl) (.ofRun hL (hC.text hh))
  have htext : (Strict.text h).Honours C held noHandles := by
    refine Honours.andThen hL (.ofRun hL (hC.isDefined hh)) fun b => ?_
    cases b with
    | true => exact hread
    | false => exact Honours.andThen hL (Honours.about hL hh fun _ => rfl) fun _ => hread
  exact Honours.andThen hL htext fun _ => .pure hL (List.nil_subset _)

/-! ### Classes -/

theorem derivesWithin (ancestor : String) (n : Nat) (c : String) :
    (derivesWithin ancestor n c).Honours C held noHandles := by
  have hC := hL.toLawful
  have hyes : (Pure.pure true : Run Bool).Honours C held noHandles :=
    Run.Honours.pure hC (List.nil_subset _)
  induction n generalizing c with
  | zero => exact .ite hyes (.raise hC _)
  | succ n ih =>
    exact .ite hyes (.andThen hC (hC.parents c) fun cs => .anyM hC ih cs)

theorem isDerivedFrom (hh : h ∈ held) (ancestor : String) :
    (isDerivedFrom h ancestor).Honours C held noHandles := by
  have hC := hL.toLawful
  refine .andThen hC (.look _) fun target => ?_
  cases target with
  | none => exact .andThen hC (hC.string hh) fun c => hL.derivesWithin ancestor _ c
  | some target =>
    refine .andThen hC (.look _) fun c => ?_
    cases c with
    | some c => exact hL.derivesWithin ancestor _ c
    | none => exact .andThen hC (.look _) fun _ => .pure hC (List.nil_subset _)

theorem resolve (object : Handle) (expected : Option String) :
    (resolve object expected).Honours C held noHandles := by
  have hC := hL.toLawful
  have hpure (type : Option NamedClass) : (Pure.pure type : Run _).Honours C held noHandles :=
    Run.Honours.pure hC (List.nil_subset _)
  refine .andThen hC (.look _) fun type => ?_
  cases type with
  | none => exact hpure _
  | some type =>
    cases expected with
    | none => exact hpure _
    | some c =>
      refine .ite (hpure _) (.andThen hC ?_ fun _ => .ite (hpure _) (hpure _))
      exact .ite (.pure hC (List.nil_subset _)) (hL.derivesWithin c _ _)

/-! ### Held values -/

theorem hashEntries (hh : h ∈ held) :
    (hashEntries h).Honours C held fun es => es.map (·.2) :=
  .bind hL.toLawful (hL.table hh) fun _ => .pure hL.toLawful (List.subset_append_left _ _)

theorem keep (hh : h ∈ held) (mode : Mode) :
    (Reading.keep mode h).Honours C held fun v => [v.handle] := by
  cases mode with
  | share => exact hL.hold hh
  | copy => exact hL.holdCopy hh

/-- A container in hand or the one that a reference in hand refers to. -/
theorem container (hh : h ∈ held) (kind : Kind) :
    (Reading.container kind h).Honours C held fun v => [v.handle] := by
  intro m hm
  have htarget : C.Holds ((m.target? h).toList ++ held) m := hL.toLawful.lookTarget hh m hm
  have hinner : (m.target? h).getD h ∈ (m.target? h).toList ++ held := by
    cases m.target? h <;> simp [hh]
  refine hL.ends_mono (List.subset_append_right (m.target? h).toList held) ?_
  have hread : Honours C ((m.target? h).toList ++ held) (fun v => [v.handle])
      (if m.kind ((m.target? h).getD h) = kind then Bridge.ofRun (Machine.hold ((m.target? h).getD h))
        else Failure.about h (.unexpectedKind · kind) : Bridge Held) :=
    .ite (.ofRun hL (hL.hold hinner)) (.about hL (List.mem_append_right _ hh) fun _ => rfl)
  exact hread m htarget

theorem readScalar (hh : h ∈ held) (mode : Mode) :
    (Reading.scalar mode h).Honours C held fun v => [v.handle] :=
  Honours.andThen hL (.look hL _) fun _ =>
    .ite (.ofRun hL (hL.keep hh mode)) (Honours.about hL hh fun _ => rfl)

theorem readObject (hh : h ∈ held) (mode : Mode) :
    (Reading.object mode h).Honours C held fun v => [v.handle] := by
  refine Honours.bind hL (hL.readScalar hh mode) fun v => ?_
  refine Honours.andThen hL (.look hL _) fun _ => .ite ?_ ?_
  · exact .pure hL (List.subset_append_left _ _)
  · exact .fail hL (List.subset_append_left _ _)

theorem readNamed (hh : h ∈ held) (mode : Mode) (c : NamedClass) :
    (Reading.named mode c h).Honours C held fun v => [v.handle] := by
  refine Honours.bind hL (hL.readObject hh mode) fun v => ?_
  have hv : v.handle ∈ [v.handle] ++ held := by simp
  refine Honours.andThen hL (.ofRun hL ?_) fun fits => .ite ?_ ?_
  · exact hL.otherwise (hL.isDerivedFrom hv _) (hL.drop hv)
  · exact .pure hL (List.subset_append_left _ _)
  · exact .fail hL (List.subset_append_left _ _)

theorem readBridged (hh : h ∈ held) (className : String) :
    (Reading.bridged className h).Honours C held noHandles := by
  refine Honours.get fun m => .ite (Honours.about hL hh fun _ => rfl) ?_
  cases m.bridgedInstance? h with
  | none => exact Honours.about hL hh fun _ => rfl
  | some i => exact .ite (.pure hL (List.nil_subset _)) (Honours.about hL hh fun _ => rfl)

/-- A classified value holds a count or two on what was classified. -/
theorem classify {v : Held} (hv : v.handle ∈ held) :
    (classify v).Honours C held fun a => a.held.map (·.handle) := by
  have hC := hL.toLawful
  have hpure (a : Any) (ha : a.held = [v]) :
      (Pure.pure a : Run Any).Honours C held fun a => a.held.map (·.handle) :=
    Run.Honours.pure hC (by rw [ha]; simpa using hv)
  refine Run.Honours.get fun m => ?_
  cases m.kind v.handle
  case scalar =>
    refine .ite (hpure _ rfl) ?_
    cases m.bridgedInstance? v.handle with
    | some i => exact hpure _ rfl
    | none =>
      refine .andThen hC (hL.resolve v.handle none) fun type => ?_
      cases type with
      | none => exact hpure _ rfl
      | some type =>
        have hshare : (share v).Honours C held fun w => [w.handle] :=
          .andThen hC (.change fun hm => hC.retain hv hm) fun _ => .pure hC (by simpa using hv)
        exact .bind hC hshare fun w => .pure hC (by simp [Any.held])
  all_goals exact hpure _ rfl

/-! ### Containers -/

section Containers

variable {read : Handle → Bridge α} {heldBy : α → List Held}

variable (hread : ∀ {h held}, h ∈ held →
  (read h).Honours C held fun a => (heldBy a).map (·.handle))

include hread

theorem hole : (Reading.hole read).Honours C held fun a => (heldBy a).map (·.handle) := by
  have hC := hL.toLawful
  have hnew : (holdNew .undefined).Honours C held fun v => [v.handle] :=
    .bind hC (hC.newScalar (List.nil_subset _)) fun h =>
      .andThen hC (.look _) fun _ => .pure hC (by simp)
  refine Honours.bind hL (.ofRun hL hnew) fun v => .releasing hL ?_ (List.subset_append_left _ _)
  exact hread (List.mem_append_left _ List.mem_cons_self)

theorem readSlots (i : Nat) {xs : Slots} (hxs : Slots.owned xs ⊆ held) :
    (Reading.slots read heldBy i xs).Honours C held fun as => (as.flatMap heldBy).map (·.handle) := by
  induction xs generalizing i held with
  | nil => exact .pure hL (List.nil_subset _)
  | cons slot rest ih =>
    have hrest : Slots.owned rest ⊆ held := fun k hk => hxs (by
      obtain ⟨o, ho, rfl⟩ := List.mem_filterMap.1 hk
      exact List.mem_filterMap.2 ⟨_, List.mem_cons_of_mem _ ho, rfl⟩)
    refine Honours.bind hL (o := fun a => (heldBy a).map (·.handle)) (.atArgument hL i ?_) fun a => ?_
    · cases slot with
      | none => exact hL.hole hread
      | some h => exact hread (hxs (by simp [Slots.owned]))
    refine Honours.bind hL (.guarding hL (ih (i + 1) ?_) (List.subset_append_left _ _)) fun as => ?_
    · exact List.subset_append_of_subset_right _ hrest
    · exact .pure hL (by simp)

theorem readEntries {es : List (Bytes × Handle)} (hes : es.map (·.2) ⊆ held) :
    (Reading.entries read heldBy es).Honours C held
      fun ps => (ps.flatMap fun p => heldBy p.2).map (·.handle) := by
  induction es generalizing held with
  | nil => exact .pure hL (List.nil_subset _)
  | cons e rest ih =>
    have hsub := List.cons_subset.1 hes
    refine Honours.bind hL (hread hsub.1) fun a => ?_
    refine Honours.bind hL (.guarding hL (ih ?_) (List.subset_append_left _ _)) fun ps => ?_
    · exact List.subset_append_of_subset_right _ hsub.2
    · exact .pure hL (by simp)

theorem readVector (hh : h ∈ held) :
    (Reading.vector read heldBy h).Honours C held fun as => (as.flatMap heldBy).map (·.handle) :=
  Honours.bind hL (.ofRun hL (hL.slots hh)) fun _ =>
    hL.readSlots hread 0 (List.subset_append_left _ _)

omit hread in
/-- A map of pairs in hand gives up the pairs that it does not have. -/
theorem mapOf {pairs : List (String × α)}
    (hpairs : (pairs.flatMap fun p => heldBy p.2).map (·.handle) ⊆ held) :
    (Reading.mapOf heldBy pairs).Honours C held
      fun ps => (ps.flatMap fun p => heldBy p.2).map (·.handle) := by
  have hC := hL.toLawful
  have hheld {p : String × α} {v : Held} (hp : p ∈ pairs) (hv : v ∈ heldBy p.2) : v.handle ∈ held :=
    hpairs (List.mem_map_of_mem (List.mem_flatMap.2 ⟨p, hp, hv⟩))
  refine .andThen hC (.change fun hm => hC.dropAll ?_ hm) fun _ => .pure hC ?_
  all_goals
    intro k hk
    obtain ⟨v, hv, rfl⟩ := List.mem_map.1 hk
    obtain ⟨p, hp, hv⟩ := List.mem_flatMap.1 hv
  · exact hheld (List.fst_mem_of_mem_zipIdx (List.mem_of_mem_filter hp)) hv
  · exact hheld (Keyed.mem_of_mem_latest hp) hv

theorem readTextMap (hh : h ∈ held) : (Reading.textMap read heldBy h).Honours C held
    fun ps => (ps.flatMap fun p => heldBy p.2).map (·.handle) := by
  refine Honours.bind hL (.ofRun hL (hL.hashEntries hh)) fun es => ?_
  refine Honours.bind hL (hL.readEntries hread (List.subset_append_left _ _)) fun ps => ?_
  exact .ofRun hL (hL.mapOf (List.subset_append_left _ _))

end Containers

/-! ### Types -/

/-- A value in hand is read as a type. -/
theorem read (hh : h ∈ held) (mode : Mode) (t : HostType) :
    (t.read mode h).Honours C held fun v => (t.held v).map (·.handle) := by
  have hC := hL.toLawful
  induction t generalizing mode h held with
  | bool => exact .ofRun hL (hC.truth hh)
  | int t => exact hL.strictInteger hh t
  | float => exact hL.strictFloat hh
  | single => exact .andThen hL (hL.strictFloat hh) fun _ => .pure hL (List.nil_subset _)
  | string => exact hL.strictString hh
  | option t ih =>
    refine Honours.andThen hL (.ofRun hL (hC.isDefined hh)) fun _ => .ite ?_ ?_
    · exact .bind hL (ih hh mode) fun v => .pure hL (by simp [HostType.held])
    · exact .pure hL (List.nil_subset _)
  | vec t ih =>
    refine Honours.bind hL (hL.container hh .array) fun array => ?_
    refine .releasing hL ?_ (List.subset_append_left _ _)
    exact hL.readVector (fun hh => ih hh .share) (List.mem_append_left _ List.mem_cons_self)
  | map t ih =>
    refine Honours.bind hL (hL.container hh .hash) fun hash => ?_
    refine .releasing hL ?_ (List.subset_append_left _ _)
    exact hL.readTextMap (fun hh => ih hh .share) (List.mem_append_left _ List.mem_cons_self)
  | value => exact .ofRun hL (hL.keep hh mode)
  | scalar => exact hL.readScalar hh mode
  | array => exact hL.container hh .array
  | hash => exact hL.container hh .hash
  | sub => exact hL.container hh .code
  | object => exact hL.readObject hh mode
  | any =>
    refine Honours.bind hL (.ofRun hL (hL.keep hh mode)) fun v => .ofRun hL ?_
    have hv : v.handle ∈ [v.handle] ++ held := by simp
    exact hL.otherwise (hL.classify hv) (hL.drop hv)
  | named c => exact hL.readNamed hh mode c
  | bridged c => exact hL.readBridged hh c

/-! ### Parameters -/

variable {args : Arguments}

theorem readArgument (hargs : args.handles ⊆ held) (t : HostType) (position : Nat) :
    (args.read t position).Honours C held fun v => (t.held v).map (·.handle) := by
  refine .atArgument hL position ?_
  split
  next h hat => exact hL.read (hargs (List.mem_of_getElem? hat)) .copy t
  next =>
    cases t
    case option t => exact .pure hL (List.nil_subset _)
    all_goals exact .fail hL (List.nil_subset _)

theorem readAll (hargs : args.handles ⊆ held) (ts : List HostType) (position : Nat) :
    (args.readAll ts position).Honours C held fun vs => (Parameters.held ts vs).map (·.handle) := by
  induction ts generalizing held position with
  | nil => exact .pure hL (List.nil_subset _)
  | cons t ts ih =>
    refine Honours.bind hL (hL.readArgument hargs t position) fun v => ?_
    refine Honours.bind hL (.guarding hL (ih ?_ (position + 1)) (List.subset_append_left _ _))
      fun vs => ?_
    · exact List.subset_append_of_subset_right _ hargs
    · exact .pure hL (by simp [Parameters.held])

/-! ### Closures -/

/-- A closure with typed parameters uses what it is given and what its body finds. -/
theorem typed {r : Reentry} (ts : List HostType)
    {body : Reentry → Parameters ts → Bridge (List Datum)}
    (hbody : ∀ {vs held}, (Parameters.held ts vs).map (·.handle) ⊆ held →
      (body r vs).Honours C held (·.flatMap Datum.handles)) (hargs : args.handles ⊆ held) :
    (Closure.typed ts body r args).Honours C held id := by
  refine Honours.andThen hL (.ite (.fail hL (List.nil_subset _)) (.pure hL (List.nil_subset _)))
    fun _ => ?_
  refine Honours.bind hL (hL.readAll hargs ts 0) fun vs => ?_
  refine .releasing hL ?_ (List.subset_append_left _ _)
  refine Honours.bind hL (hbody (List.subset_append_left _ _)) fun results => .ofRun hL ?_
  refine .widen hL.toLawful (w := (·.flatMap ([·]))) ?_ fun hs => by simp
  refine .mapM_mem hL.toLawful fun d hd held' hsub => hL.toValue d (List.Subset.trans ?_ hsub)
  exact fun k hk => List.mem_append_left _ (List.mem_flatMap.2 ⟨d, hd, hk⟩)

end Custody.Liberal

end ValueMachine

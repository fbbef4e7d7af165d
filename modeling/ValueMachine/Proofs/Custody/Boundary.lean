import ValueMachine.Proofs.Custody.Calls
import ValueMachine.Proofs.Ownership.Duplicates

/-! What crosses the boundary in a custody: host values given to the machine, duplicates, held
handles and failures. Where a sequence has no room the machine gives up, which the custody has to
allow. -/

namespace ValueMachine

open Machine Run

/-- A custody that allows every way to stop. -/
structure Custody.Liberal (C : Custody) : Prop extends C.Lawful where
  stops : ∀ e m, C.Stops e m

mutual

/-- The handles in a host value. -/
def Datum.handles : Datum → List Handle
  | .held v | .scalar v => [v.handle]
  | .list items => Datum.handlesOfItems items
  | .map pairs => Datum.handlesOfPairs pairs
  | _ => []

def Datum.handlesOfItems : List Datum → List Handle
  | [] => []
  | d :: rest => d.handles ++ Datum.handlesOfItems rest

def Datum.handlesOfPairs : List (String × Datum) → List Handle
  | [] => []
  | (_, d) :: rest => d.handles ++ Datum.handlesOfPairs rest

end

/-- The handles that the outcome of an operation across the boundary holds. -/
def handlesOf {α : Type} (o : α → List Handle) : Except Failure α → List Handle
  | .ok a => o a
  | .error f => f.held.map (·.handle)

/-- What a store displaces and leaves was there or is what was stored. -/
theorem Slots.subset_put (xs : Slots) (p : Nat) (h : Handle) :
    (xs.put p h).1.toList ++ Slots.owned (xs.put p h).2 ⊆ Slots.owned xs ++ [h] := by
  intro k hk
  have hcount := Slots.count_owned_put xs h k p
  have hpos := List.count_pos_iff.2 hk
  refine List.count_pos_iff.1 ?_
  rw [List.count_append] at hpos ⊢
  omega

namespace Custody.Liberal

variable {C : Custody} {held : List Handle} {h k : Handle} {α β : Type} {o : α → List Handle}

variable (hL : C.Liberal)

include hL

theorem throw (e : Exit) : (throw e : Run α).Honours C held o := fun m hm => ⟨hL.stops e m, hm⟩

/-- The outcome of an operation is looked at. -/
theorem attempt {x : Run α} {f : Except Exit α → Run β} {o' : β → List Handle}
    (hx : x.Honours C held o) (hok : ∀ a, (f (.ok a)).Honours C (o a ++ held) o')
    (herror : ∀ e, (f (.error e)).Honours C held o') :
    (x.attempt >>= f).Honours C held o' := by
  intro m hm
  have hend := hx m hm
  rw [bind_apply, Run.attempt]
  cases hr : x m with
  | error e m₁ =>
    rw [hr] at hend
    exact herror e m₁ hend.2
  | ok a m₁ =>
    rw [hr] at hend
    exact hL.ends_mono (List.subset_append_right _ _) (hok a m₁ hend)

/-- What is done on the way out. -/
theorem otherwise {x : Run α} {g : Machine → Machine} (hx : x.Honours C held o)
    (hg : ∀ {m}, C.Holds held m → C.Holds held (g m)) : (x.otherwise g).Honours C held o := by
  intro m hm
  have hend := hx m hm
  rw [otherwise_apply]
  cases hr : x m with
  | ok a m₁ => rw [hr] at hend; exact hend
  | error e m₁ =>
    rw [hr] at hend
    exact ⟨hL.stops _ _, hg hend.2⟩

/-- Another interpreter comes into focus for a while. -/
theorem onInterpreter {x : Run α} (hx : x.Honours C held o) (i : InterpId) :
    (onInterpreter i x).Honours C held o := by
  have hC := hL.toLawful
  refine Honours.andThen hC (Honours.look _) fun back => ?_
  refine Honours.andThen hC (Honours.change fun hm => hC.focus i hm) fun _ => ?_
  exact Honours.always hx (fun _ hm => hC.focus back hm) fun _ => hL.stops _ _

/-! ### Duplicates -/

theorem checkRoom (n : Nat) : (checkRoom n).Honours C held noHandles :=
  Honours.ite (hL.throw _) (Honours.pure hL.toLawful (List.nil_subset _))

theorem arrayStore (hh : h ∈ held) (hk : k ∈ held) (i : Int) :
    (arrayStore h i k).Honours C held Option.toList := by
  have hC := hL.toLawful
  refine Honours.bind hC (hC.slots hh) fun xs => ?_
  have hh' : h ∈ Slots.owned xs ++ held := List.mem_append_right _ hh
  have hk' : k ∈ Slots.owned xs ++ held := List.mem_append_right _ hk
  cases Slots.place? xs.length i with
  | none =>
    exact Honours.andThen hC (Honours.change fun hm => hC.release hk' hm) fun _ =>
      Honours.raise hC _
  | some p =>
    have hroom : (arrayReserve h (p + 1)).Honours C (Slots.owned xs ++ held) noHandles :=
      Honours.bind hC (hC.slots hh') fun _ => hL.checkRoom _
    refine Honours.andThen hC hroom fun _ => hC.onSlots hh' fun ys => ?_
    refine List.Subset.trans (ys.subset_put p k) (List.append_subset.2 ?_)
    exact ⟨List.subset_append_left _ _, List.subset_append_of_subset_right _ (by simpa using hk')⟩

theorem copyArray (hh : h ∈ held) : (copyArray h).Honours C held ([·]) := by
  have hC := hL.toLawful
  refine Honours.bind hC (o := ([·]))
    (Honours.modifyGet fun hm => hC.alloc (List.nil_subset _) hm) fun copy => ?_
  refine Honours.bind hC (hC.slots (List.mem_cons_of_mem _ hh)) fun xs => ?_
  refine Honours.andThen hC (Honours.forM_mem hC fun slot hslot => ?_) fun _ =>
    Honours.pure hC (by simp)
  obtain ⟨_ | item, i⟩ := slot
  · exact Honours.pure hC (List.nil_subset _)
  · have hitem : item ∈ Slots.owned xs := by
      have hmem := (List.mem_zipIdx' hslot).2
      exact List.mem_filterMap.2 ⟨some item, hmem ▸ List.getElem_mem _, rfl⟩
    refine Honours.bind hC (hC.newCopy (List.mem_append_left _ hitem)) fun v => ?_
    exact Honours.bind hC (hL.arrayStore (by simp) (by simp) _) fun _ =>
      Honours.pure hC (List.nil_subset _)

theorem copyHash (hh : h ∈ held) : (copyHash h).Honours C held ([·]) := by
  have hC := hL.toLawful
  refine Honours.bind hC (o := ([·]))
    (Honours.modifyGet fun hm => hC.alloc (List.nil_subset _) hm) fun copy => ?_
  have hentries : (hashEntries h).Honours C ([copy] ++ held) fun es => es.map (·.2) :=
    Honours.bind hC (hC.table (List.mem_cons_of_mem _ hh)) fun t =>
      Honours.pure hC (List.subset_append_left _ _)
  refine Honours.bind hC hentries fun es => ?_
  refine Honours.andThen hC (Honours.forM_mem hC fun e he => ?_) fun _ =>
    Honours.pure hC (by simp)
  have hitem : e.2 ∈ es.map (·.2) := List.mem_map_of_mem he
  refine Honours.bind hC (hC.newCopy (List.mem_append_left _ hitem)) fun v => ?_
  exact hC.hashPut (by simp) (by simp) _

theorem duplicate (hh : h ∈ held) : (duplicate h).Honours C held ([·]) := by
  have hC := hL.toLawful
  have hshare : Honours C held ([·]) (do Run.change (·.retain h); return h : Run Handle) :=
    Honours.andThen hC (Honours.change fun hm => hC.retain hh hm) fun _ =>
      Honours.pure hC (by simpa using hh)
  refine Honours.andThen hC (Honours.look _) fun kind => ?_
  cases kind
  case array => exact hL.copyArray hh
  case hash => exact hL.copyHash hh
  case scalar => exact hC.newCopy hh
  case unknown => exact hC.newCopy hh
  all_goals exact hshare

theorem hold (hh : h ∈ held) : (hold h).Honours C held fun v => [v.handle] := by
  have hC := hL.toLawful
  refine Honours.andThen hC (Honours.change fun hm => hC.retain hh hm) fun _ => ?_
  exact Honours.andThen hC (Honours.look _) fun _ => Honours.pure hC (by simpa using hh)

theorem holdCopy (hh : h ∈ held) : (holdCopy h).Honours C held fun v => [v.handle] := by
  have hC := hL.toLawful
  refine Honours.bind hC (hL.duplicate hh) fun k => ?_
  exact Honours.andThen hC (Honours.look _) fun _ => Honours.pure hC (by simp)

/-! ### Host values -/

theorem freshOf {v : Held} (hv : v.handle ∈ held) : (Datum.freshOf v).Honours C held ([·]) := by
  have hC := hL.toLawful
  refine Honours.andThen hC (Honours.look _) fun _ => Honours.ite (hC.newCopy hv) ?_
  refine Honours.andThen hC (Honours.change fun hm => hC.retain hv hm) fun _ => ?_
  exact hC.newScalar (by simpa [Scalar.owned, Scalar.ofTarget] using hv)

theorem objectOf (i : InstanceId) : (Datum.objectOf i).Honours C held ([·]) := by
  have hC := hL.toLawful
  refine Honours.andThen hC (Honours.change fun {m} hm => ?_) fun _ => ?_
  · unfold Machine.claim
    split
    · exact hC.aside m.log m.ticks _ hm
    · exact hC.aside m.log m.ticks _ hm
  refine Honours.andThen hC (Honours.look _) fun c => ?_
  refine Honours.bind hC (hC.newScalar (List.nil_subset _)) fun h => ?_
  have hstore : (storeObject h (some c) i.identity.toInt64).Honours C ([h] ++ held) noHandles := by
    refine Honours.bind hC (hC.newScalar (List.nil_subset _)) fun target => ?_
    refine Honours.andThen hC (hC.store (by simp) (by simp [Scalar.owned, Scalar.ofTarget]))
      fun _ => hC.bless (by simp) c
  refine Honours.andThen hC hstore fun _ => ?_
  refine Honours.bind hC (hC.lookTarget List.mem_cons_self) fun target => ?_
  cases target with
  | none => exact Honours.pure hC (by simp)
  | some target =>
    exact Honours.andThen hC (Honours.change fun hm => hC.attach List.mem_cons_self _ hm) fun _ =>
      Honours.pure hC (by simp)

theorem pushItems {array : Handle} {items : List Datum} (hitems : ∀ d ∈ items,
      ∀ {held : List Handle}, d.handles ⊆ held → d.toValue.Honours C held ([·]))
    (ha : array ∈ held) (hd : Datum.handlesOfItems items ⊆ held) :
    (Datum.pushItems array items).Honours C held noHandles := by
  induction items generalizing held with
  | nil =>
    rw [Datum.pushItems]
    exact Honours.pure hL.toLawful (List.nil_subset _)
  | cons d rest ih =>
    obtain ⟨hvalue, hrest⟩ := List.forall_mem_cons.1 hitems
    rw [Datum.handlesOfItems] at hd
    have hsub := List.append_subset.1 hd
    rw [Datum.pushItems]
    refine Honours.bind hL.toLawful (hvalue hsub.1) fun v => ?_
    refine Honours.andThen hL.toLawful (hL.arrayPush (by simp [ha]) (by simp)) fun _ => ?_
    exact ih hrest (by simp [ha]) (List.subset_append_of_subset_right _ hsub.2)

theorem putPairs {hash : Handle} {pairs : List (String × Datum)} (hpairs : ∀ p ∈ pairs,
      ∀ {held : List Handle}, p.2.handles ⊆ held → p.2.toValue.Honours C held ([·]))
    (ha : hash ∈ held) (hd : Datum.handlesOfPairs pairs ⊆ held) :
    (Datum.putPairs hash pairs).Honours C held noHandles := by
  induction pairs generalizing held with
  | nil =>
    rw [Datum.putPairs]
    exact Honours.pure hL.toLawful (List.nil_subset _)
  | cons p rest ih =>
    obtain ⟨hvalue, hrest⟩ := List.forall_mem_cons.1 hpairs
    rw [Datum.handlesOfPairs] at hd
    have hsub := List.append_subset.1 hd
    rw [Datum.putPairs]
    refine Honours.bind hL.toLawful (hvalue hsub.1) fun v => ?_
    refine Honours.andThen hL.toLawful (hL.hashPut (by simp [ha]) (by simp) _) fun _ => ?_
    exact ih hrest (by simp [ha]) (List.subset_append_of_subset_right _ hsub.2)

theorem toValue (d : Datum) {held : List Handle} (hd : d.handles ⊆ held) :
    d.toValue.Honours C held ([·]) := by
  induction d using Datum.induction generalizing held with
  | absent | signed _ | unsigned _ | float _ | text _ =>
    rw [Datum.toValue]
    exact hL.newScalar (List.nil_subset _)
  | bool b =>
    rw [Datum.toValue]
    exact hL.newScalar (owned_ofBool b)
  | list items ih =>
    rw [Datum.handles] at hd
    rw [Datum.toValue]
    refine Honours.bind hL.toLawful (o := ([·]))
      (Honours.modifyGet fun hm => hL.alloc (List.nil_subset _) hm) fun array => ?_
    refine Honours.andThen hL.toLawful (hL.otherwise (hL.pushItems ih List.mem_cons_self
      (List.subset_append_of_subset_right _ hd)) fun hm => hL.release List.mem_cons_self hm)
      fun _ => hL.newScalar (by simp [Scalar.owned, Scalar.ofTarget])
  | map pairs ih =>
    rw [Datum.handles] at hd
    rw [Datum.toValue]
    refine Honours.bind hL.toLawful (o := ([·]))
      (Honours.modifyGet fun hm => hL.alloc (List.nil_subset _) hm) fun hash => ?_
    refine Honours.andThen hL.toLawful (hL.otherwise (hL.putPairs ih List.mem_cons_self
      (List.subset_append_of_subset_right _ hd)) fun hm => hL.release List.mem_cons_self hm)
      fun _ => hL.newScalar (by simp [Scalar.owned, Scalar.ofTarget])
  | held v | scalar v =>
    rw [Datum.toValue]
    exact hL.freshOf (hd (by simp [Datum.handles]))
  | shared i =>
    rw [Datum.toValue]
    exact hL.objectOf i

theorem toArgument {d : Datum} (hd : d.handles ⊆ held) : d.toArgument.Honours C held ([·]) := by
  have hshare (v : Held) (hv : v.handle ∈ held) :
      Honours C held ([·]) (do Run.change (·.retain v.handle); return v.handle : Run Handle) :=
    Honours.andThen hL.toLawful (Honours.change fun hm => hL.retain hv hm) fun _ =>
      Honours.pure hL.toLawful (by simpa using hv)
  cases d
  case held v =>
    have hv : v.handle ∈ held := hd (by simp [Datum.handles])
    exact Honours.andThen hL.toLawful (Honours.look _) fun _ =>
      Honours.ite (hshare v hv) (hL.freshOf hv)
  case scalar v => exact hshare v (hd (by simp [Datum.handles]))
  all_goals exact hL.toValue _ hd

theorem pass {d : Datum} (hd : d.handles ⊆ held) : (Host.pass d).Honours C held noHandles :=
  Honours.bind hL.toLawful (hL.toArgument hd) fun _ =>
    Honours.change fun hm => hL.push List.mem_cons_self (hL.mortal List.mem_cons_self hm)

/-! ### Messages -/

theorem describe (hh : h ∈ held) : (describe h).Honours C held noHandles := by
  have hC := hL.toLawful
  have hpure (s : String) : (Pure.pure s : Run String).Honours C held noHandles :=
    Honours.pure hC (List.nil_subset _)
  refine Honours.andThen hC (Honours.look _) fun kind => ?_
  cases kind
  case scalar =>
    refine Honours.andThen hC (hC.isDefined hh) fun _ => Honours.ite ?_ (hpure _)
    refine Honours.andThen hC (Honours.look _) fun _ => Honours.ite ?_ (hC.string hh)
    exact Honours.andThen hC (hC.string hh) fun _ => hpure _
  all_goals exact hpure _

theorem message (f : Failure) (hf : f.held.map (·.handle) ⊆ held) :
    f.message.Honours C held noHandles := by
  have hC := hL.toLawful
  have hpure (s : String) : (Pure.pure s : Run String).Honours C held noHandles :=
    Honours.pure hC (List.nil_subset _)
  have hdescribed (v : Held) (text : String → String) (hv : v.handle ∈ held) :
      Honours C held noHandles
        (do return text (← Machine.onInterpreter v.owner (Machine.describe v.handle)) : Run String) :=
    Honours.andThen hC (hL.onInterpreter (hL.describe hv) _) fun _ => hpure _
  induction f with
  | died v =>
    exact Honours.andThen hC (hL.onInterpreter (hC.string (hf (by simp [Failure.held]))) _)
      fun _ => hpure _
  | unexpectedKind v _ | notNumber v _ | notStringOrNumber v | notReference v | notObject v
  | notWrapped v | unexpectedClass v _ => exact hdescribed v _ (hf (by simp [Failure.held]))
  | argument i source ih => exact Honours.andThen hC (ih hf) fun _ => hpure _
  | _ => exact hpure _

end Custody.Liberal

end ValueMachine

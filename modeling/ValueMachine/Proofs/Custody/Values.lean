import ValueMachine.Proofs.Custody.Steps
import ValueMachine.Proofs.Ownership.Containers

/-! The operations on values in a custody. Each works on handles that are in hand and hands out what
it has found or made. -/

namespace ValueMachine

open Machine Run

theorem Slots.mem_owned_of_fetch? {xs : Slots} {i : Int} {h : Handle}
    (hf : xs.fetch? i = some h) : h ∈ Slots.owned xs := by
  obtain ⟨p, -, hp⟩ := Option.bind_eq_some_iff.1 hf
  exact List.mem_filterMap.2 ⟨some h, List.mem_of_getElem? (Option.join_eq_some_iff.1 hp), rfl⟩

theorem Table.mem_of_get? {t : Table} {key : Bytes} {h : Handle} (hg : t.get? key = some h) :
    h ∈ t.entries.map (·.2) := by
  obtain ⟨front, back, hsplit, -⟩ := List.lookup_eq_some_iff.1 hg
  simp [hsplit]

/-- What a store under a key displaces and leaves was there or is what was stored. -/
theorem Table.subset_insert (t : Table) (key : Bytes) (h : Handle) :
    (t.get? key).toList ++ (t.insert key h).entries.map (·.2) ⊆ t.entries.map (·.2) ++ [h] := by
  intro k hk
  have hcount := Table.count_put t.entries key h k
  have hpos := List.count_pos_iff.2 hk
  refine List.count_pos_iff.1 ?_
  rw [List.count_append] at hpos ⊢
  simp only [Table.insert, Table.get?] at hpos
  omega

namespace Custody.Lawful

variable {C : Custody} {held : List Handle} {h k : Handle} {s : Scalar} {α : Type}

variable (hC : C.Lawful)

include hC

/-! ### Scalars -/

theorem store (hh : h ∈ held) (hs : s.owned ⊆ held) :
    (store h s).Honours C held noHandles := by
  intro m hm
  simp only [Machine.store, Run.look_bind]
  split
  · exact Honours.raise hC .readOnly _ (hC.releaseAll hs hm)
  · cases hb : (m.cell h).body with
    | scalar former => exact hC.replaceScalar hh hb hs hm
    | _ => exact Honours.raise hC .notScalar _ hm

theorem readAction (hh : h ∈ held) (g : Magic) (a : ReadAction) :
    (runReadAction h g a).Honours C held noHandles := by
  cases a with
  | record label => exact Honours.change fun hm => hC.noteAccess _ hm
  | tick =>
    refine Honours.andThen hC (Honours.change fun {m} hm => hC.aside m.log _ m.claims hm)
      fun _ => ?_
    exact Honours.andThen hC (Honours.look _) fun _ => hC.store hh (List.nil_subset _)

theorem readHooks (hh : h ∈ held) : (runReadHooks h).Honours C held noHandles :=
  Honours.andThen hC (Honours.look _) fun _ =>
    Honours.forM_mem hC fun g _ => Honours.forM_mem hC fun a _ => hC.readAction hh g a

theorem reading (hh : h ∈ held) (f : Machine → α) :
    (do runReadHooks h; Run.look f : Run α).Honours C held noHandles :=
  Honours.andThen hC (hC.readHooks hh) fun _ => Honours.look f

theorem isDefined (hh : h ∈ held) : (isDefined h).Honours C held noHandles := hC.reading hh _

theorem number (hh : h ∈ held) : (number h).Honours C held noHandles := hC.reading hh _

theorem text (hh : h ∈ held) : (text h).Honours C held noHandles := hC.reading hh _

theorem truth (hh : h ∈ held) : (truth h).Honours C held noHandles := hC.reading hh _

theorem string (hh : h ∈ held) : (string h).Honours C held noHandles :=
  Honours.andThen hC (hC.text hh) fun _ => Honours.pure hC (List.nil_subset _)

/-- What a value in hand is a reference to. -/
theorem lookTarget (hh : h ∈ held) :
    (Run.look (·.target? h)).Honours C held Option.toList := by
  refine Honours.lookFor fun {m} hm => hC.mono ?_ (hC.owned hh hm)
  refine List.append_subset.2 ⟨?_, List.subset_append_right _ _⟩
  cases hb : m.body h <;> simp [Machine.target?, Machine.scalar?, hb, Body.scalar?, Body.owned,
    Scalar.owned]

theorem copySlots (hh : h ∈ held) : (copySlots h).Honours C held Scalar.owned := by
  refine Honours.andThen hC (hC.readHooks hh) fun _ => ?_
  refine Honours.bind hC (o := fun o => o.elim [] Scalar.owned)
    (Honours.lookFor fun {m} hm => hC.mono ?_ (hC.owned hh hm)) fun o => ?_
  · refine List.append_subset.2 ⟨?_, List.subset_append_right _ _⟩
    cases hb : m.body h <;> simp [Machine.scalar?, hb, Body.scalar?, Body.owned]
  · cases o with
    | none => exact Honours.raise hC _
    | some s =>
      have hs : s.owned ⊆ s.owned ++ held := List.subset_append_left _ _
      exact Honours.andThen hC (Honours.change fun hm => hC.retainAll hs hm) fun _ =>
        Honours.pure hC hs

theorem newScalar (hs : s.owned ⊆ held) : (newScalar s).Honours C held ([·]) :=
  Honours.modifyGet fun hm => hC.alloc hs hm

theorem newCopy (hh : h ∈ held) : (newCopy h).Honours C held ([·]) :=
  Honours.bind hC (hC.copySlots hh) fun _ =>
    Honours.modifyGet fun hm => hC.alloc (List.subset_append_left _ _) hm

theorem assign (hh : h ∈ held) (hk : k ∈ held) : (assign h k).Honours C held noHandles := by
  unfold Machine.assign
  refine Honours.ite (Honours.pure hC (List.nil_subset _)) ?_
  exact Honours.bind hC (hC.copySlots hk) fun _ =>
    hC.store (List.mem_append_right _ hh) (List.subset_append_left _ _)

theorem raiseValue (hh : h ∈ held) {out : α → List Handle} :
    (raiseValue h : Run α).Honours C held out := by
  refine Honours.bind hC (o := ([·])) (Honours.modifyGet fun hm => hC.errorSlot hm) fun slot => ?_
  refine Honours.andThen hC (hC.assign List.mem_cons_self (List.mem_cons_of_mem _ hh)) fun _ => ?_
  exact fun _ hm => ⟨hC.raised _, hm⟩

/-! ### Containers -/

theorem slots (hh : h ∈ held) : (slots h).Honours C held Slots.owned := by
  refine Honours.bind hC (o := fun b => b.owned)
    (Honours.lookFor fun {m} hm => hC.owned hh hm) fun b => ?_
  cases b with
  | array xs => exact Honours.pure hC (List.subset_append_left _ _)
  | _ => exact Honours.raise hC _

theorem table (hh : h ∈ held) :
    (table h).Honours C held fun t => t.entries.map (·.2) := by
  refine Honours.bind hC (o := fun b => b.owned)
    (Honours.lookFor fun {m} hm => hC.owned hh hm) fun b => ?_
  cases b with
  | hash t => exact Honours.pure hC (List.subset_append_left _ _)
  | _ => exact Honours.raise hC _

/-- The slots of an array change; what is handed out and what is put in come from its slots or from
hand. -/
theorem onSlots {f : Slots → α × Slots} {out : α → List Handle} (hh : h ∈ held)
    (hf : ∀ xs, out (f xs).1 ++ Slots.owned (f xs).2 ⊆ Slots.owned xs ++ held) :
    (onSlots h f).Honours C held out := by
  intro m hm
  simp only [Machine.onSlots, Run.look_bind]
  cases hb : m.body h with
  | array xs =>
    have howned := hC.owned hh hm
    rw [hb] at howned
    have hsub := List.append_subset.1 (hf xs)
    have hset := hC.setBody (b := .array (f xs).2) (List.mem_append_right _ hh)
      (List.subset_append_of_subset_right _ hsub.2) howned
    exact hC.mono (List.append_subset.2 ⟨hsub.1, List.subset_append_right _ _⟩) hset
  | _ => exact Honours.raise hC _ _ hm

theorem onTable {f : Table → α × Table} {out : α → List Handle} (hh : h ∈ held)
    (hf : ∀ t, out (f t).1 ++ (f t).2.entries.map (·.2) ⊆ t.entries.map (·.2) ++ held) :
    (onTable h f).Honours C held out := by
  intro m hm
  simp only [Machine.onTable, Run.look_bind]
  cases hb : m.body h with
  | hash t =>
    have howned := hC.owned hh hm
    rw [hb] at howned
    have hsub := List.append_subset.1 (hf t)
    have hset := hC.setBody (b := .hash (f t).2) (List.mem_append_right _ hh)
      (List.subset_append_of_subset_right _ hsub.2) howned
    exact hC.mono (List.append_subset.2 ⟨hsub.1, List.subset_append_right _ _⟩) hset
  | _ => exact Honours.raise hC _ _ hm

theorem arrayPush (hh : h ∈ held) (hk : k ∈ held) :
    (arrayPush h k).Honours C held noHandles := by
  refine hC.onSlots hh fun xs => ?_
  simp only [noHandles, Slots.owned, List.nil_append, List.filterMap_append]
  exact List.append_subset.2 ⟨List.subset_append_left _ _,
    List.subset_append_of_subset_right _ (by simpa using hk)⟩

theorem arrayFetch? (hh : h ∈ held) (i : Int) :
    (arrayFetch? h i).Honours C held Option.toList := by
  refine Honours.bind hC (hC.slots hh) fun xs => Honours.pure hC ?_
  cases hf : Slots.fetch? xs i with
  | none => exact List.nil_subset _
  | some k => exact List.subset_append_of_subset_left _ (by simpa using Slots.mem_owned_of_fetch? hf)

theorem hashFetch? (hh : h ∈ held) (key : Bytes) :
    (hashFetch? h key).Honours C held Option.toList := by
  refine Honours.bind hC (hC.table hh) fun t => Honours.pure hC ?_
  cases hf : t.get? key with
  | none => exact List.nil_subset _
  | some k => exact List.subset_append_of_subset_left _ (by simpa using Table.mem_of_get? hf)

theorem hashPut (hh : h ∈ held) (hk : k ∈ held) (key : Bytes) :
    (hashPut h key k).Honours C held noHandles := by
  refine Honours.bind hC (o := Option.toList) (hC.onTable hh fun t => ?_) fun former => ?_
  · refine List.Subset.trans (t.subset_insert key k) (List.append_subset.2 ?_)
    exact ⟨List.subset_append_left _ _, List.subset_append_of_subset_right _ (by simpa using hk)⟩
  · cases former with
    | none => exact Honours.pure hC (List.nil_subset _)
    | some former => exact Honours.change fun hm => hC.release List.mem_cons_self hm

/-! ### Classes -/

theorem bless (hh : h ∈ held) (className : String) :
    (bless h className).Honours C held noHandles := by
  refine Honours.bind hC (hC.lookTarget hh) fun target => ?_
  cases target with
  | none => exact Honours.raise hC _
  | some target =>
    exact Honours.change fun hm =>
      hC.update (f := ({ · with className := some className })) List.mem_cons_self rfl hm

/-- A global that is there. -/
theorem lookGlobal (sigil : Sigil) (name : String) :
    (Run.look (·.global? sigil name)).Honours C held Option.toList := by
  refine Honours.lookUp hC fun m => ?_
  cases hg : m.global? sigil name with
  | none => exact List.nil_subset _
  | some h => simpa using mem_places_of_global? hg

theorem parents (className : String) : (parents className).Honours C held noHandles := by
  refine Honours.bind hC (hC.lookGlobal _ _) fun isa => ?_
  cases isa with
  | none => exact Honours.pure hC (List.nil_subset _)
  | some isa =>
    refine Honours.bind hC (hC.slots List.mem_cons_self) fun xs => ?_
    refine Honours.widen hC (w := (·.flatMap noHandles)) ?_ fun _ => List.nil_subset _
    refine Honours.mapM_mem hC fun h hh held' hsub => hC.string (hsub (List.mem_append_left _ hh))

theorem findMethodWithin (method : String) (n : Nat) (c : String) :
    (findMethodWithin method n c).Honours C held Option.toList := by
  induction n generalizing c with
  | zero => exact Honours.raise hC _
  | succ n ih =>
    refine Honours.bind hC (o := Option.toList) (Honours.lookUp hC fun m => ?_) fun sub => ?_
    · cases ho : m.ownMethod? c method with
      | none => exact List.nil_subset _
      | some sub => simpa using mem_places_of_global? (Option.filter_eq_some_iff.1 ho).1
    · cases sub with
      | some sub => exact Honours.pure hC (List.subset_append_left _ _)
      | none =>
        exact Honours.andThen hC (hC.parents c) fun _ => Honours.findSomeM? hC rfl ih _

/-! ### Targets of calls -/

theorem resolveSub (hh : h ∈ held) : (resolveSub h).Honours C held ([·]) := by
  have hsame : (Pure.pure h : Run Handle).Honours C held ([·]) :=
    Honours.pure hC (by simpa using hh)
  refine Honours.andThen hC (Honours.look _) fun kind => ?_
  cases kind
  case code => exact hsame
  -- a reference to a sub, or the name of one
  case scalar | unknown =>
    refine Honours.bind hC (hC.lookTarget hh) fun referent => ?_
    cases referent with
    | some referent =>
      refine Honours.andThen hC (Honours.look _) fun _ => Honours.ite ?_ (Honours.raise hC _)
      exact Honours.pure hC (List.subset_append_left _ _)
    | none =>
      refine Honours.andThen hC (hC.string hh) fun name => ?_
      refine Honours.bind hC (hC.lookGlobal _ _) fun sub => ?_
      cases sub with
      | some sub => exact Honours.pure hC (List.subset_append_left _ _)
      | none => exact Honours.raise hC _
  all_goals exact Honours.raise hC _

theorem invocantClass (hh : h ∈ held) (method : String) :
    (invocantClass method h).Honours C held noHandles := by
  refine Honours.andThen hC (Honours.look _) fun c => ?_
  cases c with
  | some c => exact Honours.pure hC (List.nil_subset _)
  | none =>
    refine Honours.andThen hC (Honours.look _) fun _ => Honours.ite (Honours.raise hC _) ?_
    exact Honours.andThen hC (hC.string hh) fun _ =>
      Honours.ite (Honours.raise hC _) (Honours.pure hC (List.nil_subset _))

theorem resolveMethod (hh : h ∈ held) (mark : Nat) :
    (resolveMethod h mark).Honours C held ([·]) := by
  refine Honours.andThen hC (hC.string hh) fun method => Honours.ite (hC.resolveSub hh) ?_
  refine Honours.bind hC (o := Pile.toList) (Honours.lookUp hC fun m k hk => ?_) fun stack => ?_
  · simp [Interp.places, hk]
  · cases hs : stack.get? mark with
    | none => exact Honours.raise hC _
    | some invocant =>
      have hmem : invocant ∈ stack.toList := by
        rw [Pile.get?_eq] at hs
        exact List.mem_of_getElem? hs
      refine Honours.andThen hC (hC.invocantClass (List.mem_append_left _ hmem) method) fun c => ?_
      refine Honours.bind hC (hC.findMethodWithin method _ c) fun sub => ?_
      cases sub with
      | some sub => exact Honours.pure hC (List.subset_append_left _ _)
      | none => exact Honours.raise hC _

end Custody.Lawful

end ValueMachine

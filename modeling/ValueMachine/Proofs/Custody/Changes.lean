import ValueMachine.Proofs.Calls.ErrorVariable

/-! What operations get at. An operation is given some handles, finds others in the machine, and
hands out handles in turn. A custody says what stays true of the machine as long as only such
handles are used; it is lawful if it allows the few changes of which all operations consist. The
other changes of the machine are made of these. -/

namespace ValueMachine

open Machine

/-- The handles in an interpreter. -/
def Interp.places (i : Interp) : List Handle :=
  i.owned ++ i.stack.toList ++ i.error.toList ++ [i.undefined, i.yes, i.no]

theorem Machine.above_subset_places (m : Machine) (n : Nat) : m.above n ⊆ m.interp.places := by
  intro k hk
  rw [above, Pile.above_eq_drop] at hk
  simp [Interp.places, List.mem_of_mem_drop hk]

/-- What is kept while operations run. -/
structure Custody where
  /-- The machine is right, with these handles in hand. -/
  Holds : List Handle → Machine → Prop
  /-- An operation may end so without a result. -/
  Stops : Exit → Machine → Prop

/-- A custody that allows the changes of which all operations consist. -/
structure Custody.Lawful (C : Custody) : Prop where
  mono : ∀ {held held' m}, held' ⊆ held → C.Holds held m → C.Holds held' m
  raised : ∀ m, C.Stops .raised m
  alloc : ∀ {held m b}, b.owned ⊆ held → C.Holds held m →
    C.Holds (m.heap.next :: held) (m.alloc b).2
  set : ∀ {held m h c}, h ∈ held → c.body.owned ⊆ (m.body h).owned ++ held → C.Holds held m →
    C.Holds held (m.onHeap (·.set h c))
  onInterp : ∀ {held m f}, (f m.interp).places ⊆ m.interp.places ++ held → C.Holds held m →
    C.Holds held (m.onInterp f)
  /-- The log, the counter and the claims on host instances are no places of values. -/
  aside : ∀ {held m} log ticks claims, C.Holds held m →
    C.Holds held { m with log := log, ticks := ticks, claims := claims }
  focus : ∀ {held m} i, C.Holds held m → C.Holds held (m.focus i)
  /-- What a value in hand owns can be taken in hand. -/
  owned : ∀ {held m h}, h ∈ held → C.Holds held m → C.Holds ((m.body h).owned ++ held) m
  places : ∀ {held m}, C.Holds held m → C.Holds (m.interp.places ++ held) m

namespace Custody.Lawful

variable {C : Custody} {held hs : List Handle} {m : Machine} {h k : Handle} {b : Body} {s : Scalar}

variable (hC : C.Lawful)

include hC

theorem of_mem (hm : C.Holds (k :: held) m) : C.Holds held m :=
  hC.mono (List.subset_cons_self k held) hm

/-- A handle that is in the interpreter is taken in hand. -/
theorem find (hk : k ∈ m.interp.places) (hm : C.Holds held m) : C.Holds (k :: held) m := by
  refine hC.mono (fun j hj => ?_) (hC.places hm)
  rcases List.mem_cons.1 hj with rfl | hj
  · exact List.mem_append_left _ hk
  · exact List.mem_append_right _ hj

/-! ### Values and temporaries -/

/-- A change of a cell other than that of its body. -/
theorem update (hh : h ∈ held) {f : Cell → Cell} (hf : (f (m.cell h)).body = (m.cell h).body)
    (hm : C.Holds held m) : C.Holds held (m.onHeap (·.update h f)) :=
  hC.set (c := f (m.cell h)) hh (by rw [hf]; exact List.subset_append_left _ _) hm

theorem setBody (hh : h ∈ held) (hb : b.owned ⊆ (m.body h).owned ++ held)
    (hm : C.Holds held m) : C.Holds held (m.setBody h b) :=
  hC.set (c := { m.cell h with body := b }) hh hb hm

theorem retain (hh : h ∈ held) (hm : C.Holds held m) : C.Holds held (m.retain h) := by
  unfold Machine.retain
  split
  · exact hm
  · exact hC.update hh rfl hm

theorem retainAll (hsub : hs ⊆ held) (hm : C.Holds held m) :
    C.Holds held (hs.foldl Machine.retain m) :=
  List.foldlRecOn (motive := fun m => C.Holds held m) hs _ hm
    fun _ hm _ hk => hC.retain (hsub hk) hm

theorem attach (hh : h ∈ held) (g : Magic) (hm : C.Holds held m) : C.Holds held (m.attach h g) :=
  hC.update hh rfl hm

theorem mortal (hh : h ∈ held) (hm : C.Holds held m) : C.Holds held (m.mortal h) := by
  refine hC.onInterp (fun k hk => ?_) hm
  simp only [Interp.places, Interp.owned, Pile.toList_push, List.mem_append, List.mem_singleton]
    at hk ⊢
  rcases hk with ((((hk | hk | rfl) | hk) | hk) | hk) | hk <;> simp [*]

theorem allocMortal (hb : b.owned ⊆ held) (hm : C.Holds held m) :
    C.Holds ((m.allocMortal b).1 :: held) (m.allocMortal b).2 :=
  hC.mortal List.mem_cons_self (hC.alloc hb hm)

theorem noteAccess (event : String) (hm : C.Holds held m) : C.Holds held (m.noteAccess event) :=
  hC.aside _ _ _ hm

/-! ### The stacks -/

/-- The stack is cut or handles in hand are pushed; the other places stay. -/
theorem onStack {f : Interp → Interp} (hstack : ∀ i, (f i).stack.toList ⊆ i.stack.toList ++ held)
    (hm : C.Holds held m) (howned : ∀ i, (f i).owned = i.owned := by intros; rfl)
    (hrest : ∀ i, (f i).error = i.error ∧ (f i).undefined = i.undefined ∧ (f i).yes = i.yes
      ∧ (f i).no = i.no := by intros; exact ⟨rfl, rfl, rfl, rfl⟩) : C.Holds held (m.onInterp f) := by
  refine hC.onInterp (fun k hk => ?_) hm
  obtain ⟨herror, hundefined, hyes, hno⟩ := hrest m.interp
  simp only [Interp.places, howned, herror, hundefined, hyes, hno, List.mem_append] at hk ⊢
  rcases hk with ((hk | hk) | hk) | hk
  · simp [hk]
  · rcases List.mem_append.1 (hstack _ hk) with hk | hk <;> simp [hk]
  · simp [hk]
  · simp [hk]

theorem pushAll (hsub : hs ⊆ held) (hm : C.Holds held m) : C.Holds held (m.pushAll hs) := by
  refine hC.onStack (fun i => ?_) hm
  rw [Pile.toList_pushAll]
  exact List.append_subset.2 ⟨List.subset_append_left _ _,
    List.subset_append_of_subset_right _ hsub⟩

theorem push (hh : h ∈ held) (hm : C.Holds held m) : C.Holds held (m.push h) := by
  have hsub : [h] ⊆ held := by simpa using hh
  exact hC.pushAll hsub hm

theorem pushMark (hm : C.Holds held m) : C.Holds held m.pushMark :=
  hC.onStack (fun _ => List.subset_append_left _ _) hm

theorem truncate (n : Nat) (hm : C.Holds held m) : C.Holds held (m.truncate n) := by
  refine hC.onStack (fun i => ?_) hm
  rw [Pile.toList_cut]
  exact List.subset_append_of_subset_left _ (List.take_subset _ _)

/-! ### Globals -/

omit hC in
theorem mem_owned_set {g : Glob} {sigil : Sigil} (hk : k ∈ (g.set sigil h).owned) :
    k ∈ g.owned ∨ k = h := by
  have hcount := g.count_owned_set sigil h k
  have hpos := List.count_pos_iff.2 hk
  by_cases hkh : k = h
  · exact .inr hkh
  · refine .inl (List.count_pos_iff.1 ?_)
    rw [List.count_singleton, if_neg (by simpa using Ne.symm hkh)] at hcount
    omega

omit hC in
theorem mem_setSymbol {symbols : List (String × Glob)} {name : String} {sigil : Sigil}
    (hk : k ∈ (setSymbol symbols name sigil h).flatMap (·.2.owned)) :
    k ∈ symbols.flatMap (·.2.owned) ∨ k = h := by
  obtain ⟨p, hp, hk⟩ := List.mem_flatMap.1 hk
  unfold setSymbol at hp
  split at hp
  · obtain ⟨q, hq, rfl⟩ := List.mem_map.1 hp
    have hstay (hk : k ∈ q.2.owned) : k ∈ symbols.flatMap (·.2.owned) :=
      List.mem_flatMap.2 ⟨q, hq, hk⟩
    dsimp only at hk
    split at hk
    · exact (mem_owned_set hk).imp_left hstay
    · exact .inl (hstay hk)
  · rcases List.mem_append.1 hp with hp | hp
    · exact .inl (List.mem_flatMap.2 ⟨p, hp, hk⟩)
    · rw [List.mem_singleton.1 hp] at hk
      exact (mem_owned_set hk).imp_left fun hk => by simp [Glob.empty, Glob.owned] at hk

theorem updateGlob_set (hh : h ∈ held) (name : String) (sigil : Sigil) (hm : C.Holds held m) :
    C.Holds held (m.updateGlob name (·.set sigil h)) := by
  rw [Machine.updateGlob_set]
  refine hC.onInterp (fun k hk => ?_) hm
  simp only [Interp.places, Interp.owned, List.mem_append] at hk ⊢
  rcases hk with ((((hk | hk) | hk) | hk) | hk) | hk
  · rcases mem_setSymbol hk with hk | rfl <;> simp [*]
  all_goals simp [*]

omit hC in
theorem mem_places_of_global? {sigil : Sigil} {name : String}
    (hg : m.global? sigil name = some h) : h ∈ m.interp.places := by
  obtain ⟨p, hp, -, hs⟩ := mem_of_global? hg
  have hglob : h ∈ p.2.owned :=
    List.mem_filterMap.2 ⟨some h, by rw [← hs]; cases sigil <;> simp [Glob.get], rfl⟩
  have hmem : h ∈ m.interp.symbols.flatMap (·.2.owned) := List.mem_flatMap.2 ⟨p, hp, hglob⟩
  simp [Interp.places, Interp.owned, hmem]

theorem global (sigil : Sigil) (name : String) (hm : C.Holds held m) :
    C.Holds ((m.global sigil name).1 :: held) (m.global sigil name).2 := by
  cases hg : m.global? sigil name with
  | some h =>
    simp only [Machine.global, hg]
    exact hC.find (mem_places_of_global? hg) hm
  | none =>
    rw [global_of_none hg]
    exact hC.updateGlob_set List.mem_cons_self _ _
      (hC.alloc (by cases sigil <;> simp [newGlobalBody, Body.owned, Scalar.undefined, Scalar.owned]) hm)

theorem errorSlot (hm : C.Holds held m) : C.Holds (m.errorSlot.1 :: held) m.errorSlot.2 := by
  unfold Machine.errorSlot
  cases he : m.interp.error with
  | some h => exact hC.find (by simp [Interp.places, he]) hm
  | none =>
    have hslot := hC.global .scalar "@" hm
    show C.Holds ((m.global .scalar "@").1 :: held) ((m.global .scalar "@").2.onInterp
      ({ · with error := some (m.global .scalar "@").1 }))
    refine hC.onInterp (fun k hk => ?_) hslot
    simp only [Interp.places, Interp.owned, Option.toList_some, List.mem_append,
      List.mem_cons, List.not_mem_nil, or_false] at hk ⊢
    tauto

/-! ### Releases -/

/-- The hooks of a dying value run while it is in hand. -/
theorem runFreeHooks {drop : Handle → Machine → Machine} (hh : h ∈ held)
    (hdrop : ∀ {m}, C.Holds held m → C.Holds held (drop h m)) (records : List Magic)
    (hm : C.Holds held m) : C.Holds held (runFreeHooks drop h records m) := by
  refine List.foldlRecOn (motive := fun m => C.Holds held m) records _ hm fun m hm g _ => ?_
  refine List.foldlRecOn (motive := fun m => C.Holds held m) g.table.onFree _ hm fun m hm a _ => ?_
  cases a with
  | record label => exact hC.aside _ _ _ hm
  | revive name =>
    have hnoted : C.Holds held (m.noteFreed (event name g)) := hC.aside _ m.ticks m.claims hm
    exact hC.of_mem (hC.attach List.mem_cons_self g (hC.global .scalar name hnoted))
  | unclaim => exact hC.aside _ _ _ hm
  | touch => exact hdrop (hC.retain hh hm)

theorem vacate (hh : h ∈ held) (hm : C.Holds held m) : C.Holds held (m.vacate h) :=
  hC.onInterp (fun _ hk => List.mem_append_left _ hk)
    (hC.set (c := .freed) hh (by simp [Cell.freed, Body.owned]) hm)

theorem releaseWithin (fuel : Nat) (hh : h ∈ held) (hm : C.Holds held m) :
    C.Holds held (releaseWithin fuel h m) := by
  induction fuel generalizing h held m with
  | zero => exact hm
  | succ fuel ih =>
    have hstay (c : Cell) (hc : c.body = (m.cell h).body) :
        C.Holds held (m.onHeap (·.set h c)) :=
      hC.set hh (by rw [hc]; exact List.subset_append_left _ _) hm
    simp only [Machine.releaseWithin]
    split
    · exact hm
    split
    · exact hstay _ rfl
    · have hhooks := hC.runFreeHooks hh (fun hm => ih hh hm) (m.cell h).magic
        (hstay { m.cell h with count := 0, magic := [] } rfl)
      revert hhooks
      generalize Machine.runFreeHooks _ h _ _ = m₁
      intro hhooks
      -- what the dying value owned is in hand until it is released in turn
      have howned := hC.vacate (List.mem_append_right _ hh) (hC.owned hh hhooks)
      refine hC.mono (List.subset_append_right (m₁.body h).owned held) ?_
      exact List.foldlRecOn (motive := fun m => C.Holds ((m₁.body h).owned ++ held) m) _ _ howned
        fun m hm k hk => ih (List.mem_append_left _ hk) hm

theorem release (hh : h ∈ held) (hm : C.Holds held m) : C.Holds held (m.release h) :=
  hC.releaseWithin _ hh hm

theorem releaseAll (hsub : hs ⊆ held) (hm : C.Holds held m) : C.Holds held (m.releaseAll hs) :=
  List.foldlRecOn (motive := fun m => C.Holds held m) hs _ hm
    fun _ hm _ hk => hC.release (hsub hk) hm

theorem drop {v : Held} (hv : v.handle ∈ held) (hm : C.Holds held m) : C.Holds held (m.drop v) := by
  unfold Machine.drop
  split
  · exact hC.focus _ (hC.release hv (hC.focus _ hm))
  · exact hm

theorem dropAll {vs : List Held} (hsub : vs.map (·.handle) ⊆ held) (hm : C.Holds held m) :
    C.Holds held (m.dropAll vs) :=
  List.foldlRecOn (motive := fun m => C.Holds held m) vs _ hm
    fun _ hm _ hv => hC.drop (hsub (List.mem_map_of_mem hv)) hm

/-! ### Stores and exceptions -/

theorem noteWrite (h : Handle) (hm : C.Holds held m) : C.Holds held (m.noteWrite h) := by
  obtain ⟨log, hlog⟩ := m.noteWrite_eq h
  rw [hlog]
  exact hC.aside log m.ticks m.claims hm

theorem replaceScalar {former : Scalar} (hh : h ∈ held) (hb : m.body h = .scalar former)
    (hs : s.owned ⊆ held) (hm : C.Holds held m) : C.Holds held (m.replaceScalar h former s) := by
  have hformer : C.Holds (former.owned ++ held) m := by
    have howned := hC.owned hh hm
    rwa [hb] at howned
  have hset := hC.setBody (b := .scalar s) (List.mem_append_right former.owned hh)
    (fun k hk => List.mem_append_right _ (List.mem_append_right _ (hs hk))) hformer
  exact hC.mono (List.subset_append_right _ _)
    (hC.noteWrite h (hC.releaseAll (List.subset_append_left _ _) hset))

theorem setError (hs : s.owned ⊆ held) (hm : C.Holds held m) : C.Holds held (m.setError s) := by
  have hslot := hC.errorSlot hm
  unfold Machine.setError
  simp only []
  split
  next former hb =>
    exact hC.of_mem (hC.replaceScalar List.mem_cons_self hb (List.subset_cons_of_subset _ hs) hslot)
  next => exact hC.of_mem hslot

theorem setErrorText (message : String) (hm : C.Holds held m) :
    C.Holds held (m.setErrorText message) := by
  have hnone : (Scalar.ofText message).owned = [] := rfl
  have hmortal := hC.allocMortal (b := .scalar (.ofText message)) (by simp [Body.owned, hnone]) hm
  exact hC.of_mem (hC.setError (by simp [hnone]) hmortal)

end Custody.Lawful

end ValueMachine

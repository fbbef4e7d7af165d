import ValueMachine.Proofs.Ownership.Scalars

/-! The holders of values beside the heap: temporaries, the globs of subs, and the error variable.
A new interpreter holds nothing but its own error variable. -/

namespace ValueMachine.Machine

variable {m m' : Machine} {held : List Handle} {h k : Handle}

/-! ### Temporaries -/

theorem perm_downTo_cut {α : Type} (p : Pile α) (n : Nat) :
    (p.downTo n ++ (p.cut n).toList).Perm p.toList := by
  have habove : (p.downTo n).Perm (p.toList.drop n) := by
    rw [← Pile.above_eq_drop]
    exact (List.reverse_perm _).symm
  rw [Pile.toList_cut]
  have hswap := (habove.append_right (p.toList.take n)).trans List.perm_append_comm
  rwa [List.take_append_drop] at hswap

theorem Orderly.freeTemps (hm : m.Orderly held) : m.Settles m.freeTemps held := by
  have hcut : m.Settles (m.onInterp fun i => { i with temps := i.temps.cut i.floor })
      (m.interp.temps.downTo m.interp.floor ++ held) := by
    refine hm.onInterp _ (fun k => ?_) hm.names_focus rfl
    have := (perm_downTo_cut m.interp.temps m.interp.floor).count_eq k
    simp only [Interp.owned, List.count_append] at this ⊢
    omega
  exact hcut.trans (Orderly.releaseAll _ hcut.orderly)

theorem Orderly.enter (hm : m.Orderly held) : m.Settles m.enter held :=
  hm.settles_of_eq rfl rfl rfl rfl rfl rfl

theorem Orderly.saveTemps (hm : m.Orderly held) : m.Settles m.saveTemps held :=
  hm.settles_of_eq rfl rfl rfl rfl rfl rfl

theorem Orderly.leave (hm : m.Orderly held) : m.Settles m.leave held :=
  hm.settles_of_eq rfl rfl rfl rfl rfl rfl

/-! ### Another interpreter in focus -/

theorem perm_cons_filter {β : Type} {xs : List (InterpId × β)} (hn : (xs.map (·.1)).Nodup)
    {p : InterpId × β} (hp : p ∈ xs) : xs.Perm (p :: xs.filter (·.1 ≠ p.1)) := by
  induction xs with
  | nil => cases hp
  | cons q rest ih =>
    rw [List.map_cons, List.nodup_cons] at hn
    rcases List.mem_cons.1 hp with rfl | hp
    · have hrest : rest.filter (·.1 ≠ p.1) = rest := by
        refine List.filter_eq_self.2 fun r hr => ?_
        have hne : r.1 ≠ p.1 := fun he => hn.1 (he ▸ List.mem_map_of_mem hr)
        simpa using hne
      rw [List.filter_cons_of_neg (by simp), hrest]
    · have hne : q.1 ≠ p.1 := fun he => hn.1 (he ▸ List.mem_map_of_mem hp)
      rw [List.filter_cons_of_pos (by simpa using hne)]
      exact ((ih hn.2 hp).cons q).trans (List.Perm.swap p q _)

/-- Which interpreter is in focus is no matter of who is there. -/
theorem perm_interps_focus (hids : (m.interps.map (·.1)).Nodup) (i : InterpId) :
    (m.focus i).interps.Perm m.interps := by
  unfold Machine.focus
  split
  · exact .refl _
  next hi =>
    cases hfind : m.others.find? (·.1 = i) with
    | none => exact .refl _
    | some found =>
      obtain rfl : found.1 = i := by simpa using List.find?_some hfind
      have hothers := perm_cons_filter (List.nodup_cons.1 hids).2 (List.mem_of_find?_eq_some hfind)
      exact (List.Perm.swap ..).trans (hothers.symm.cons _)

/-- Nor is it one of ownership. -/
theorem Orderly.focus (hm : m.Orderly held) (i : InterpId) : (m.focus i).Orderly held := by
  have hids : (m.interps.map (·.1)).Nodup := hm.ids
  have hperm := perm_interps_focus hids i
  have hids' : ((m.focus i).interps.map (·.1)).Nodup := (hperm.map (·.1)).nodup_iff.2 hids
  have hheap := heap_focus m i
  have howners (h : Handle) : (m.focus i).owners h = m.owners h := by
    have howned := (hperm.flatMap_right fun p => p.2.owned).count_eq h
    simp only [interps, List.flatMap_cons, List.count_append] at howned
    rw [owners, owners, hheap]
    omega
  exact {
    count_eq := fun h => by simpa only [cell, hheap, howners] using hm.count_eq h
    freed_iff := fun h => by simpa only [cell, body, isFreed, hheap] using hm.freed_iff h
    shared := fun h => by simpa only [cell, body, isFreed, hheap] using hm.shared h
    harmless := by simpa only [Harmless, cell, hheap] using hm.harmless
    keyed := fun h => by simpa only [body, cell, hheap] using hm.keyed h
    names := fun k hk => hm.names k ((hperm.map (·.2)).mem_iff.1 hk)
    ids := hids' }

/-! ### Subs -/

theorem Orderly.installSub (name : String) (hm : m.Orderly (h :: held)) :
    m.Settles (m.installSub name h) held := by
  have hset := hm.updateGlob (Qualified.qualify name) .code
  exact hset.trans (Orderly.releaseAll _ hset.orderly)

/-- The handles that the payload of a code value owns. -/
def captured (payload : Option Payload) : List Handle := (payload.map Payload.owned).getD []

/-- A new sub adopts what its payload owns. It belongs to its glob, or to the caller. -/
theorem Orderly.newSub (name : Option String) (entry : Entry) (file : String)
    (payload : Option Payload) (hm : m.Orderly (captured payload ++ held)) :
    m.Settles (m.newSub name entry file payload).2
      ((if name.isSome then [] else [(m.newSub name entry file payload).1]) ++ held) := by
  have halloc := Orderly.alloc (.code ⟨name.map Qualified.qualify, file, some entry, payload⟩)
    hm rfl
  cases name with
  | none => exact halloc
  | some n => exact halloc.trans (halloc.orderly.installSub n)

theorem Orderly.setPayload (p : Payload) (hm : m.Orderly (p.owned ++ held))
    (hc : (m.code? h).isSome = true) : m.Settles (m.setPayload h p) held := by
  obtain ⟨c, hcode⟩ := Option.isSome_iff_exists.1 hc
  have hb : m.body h = .code c := by
    simp only [code?] at hcode
    cases hb : m.body h with
    | code c' => rw [hb] at hcode; cases hcode; rfl
    | _ => rw [hb] at hcode; cases hcode
  have hset : m.Settles (m.setBody h (.code { c with payload := some p }))
      (captured c.payload ++ held) := by
    refine hm.setBody _ (by rw [isFreed, hb]; rfl) rfl fun k => ?_
    rw [hb]
    simp only [Body.owned, captured, List.count_append, Option.map_some, Option.getD_some]
    omega
  simp only [Machine.setPayload, hcode]
  exact hset.trans (Orderly.releaseAll _ hset.orderly)

/-! ### The error variable -/

theorem Orderly.errorSlot (hm : m.Orderly held) : m.Settles m.errorSlot.2 held := by
  unfold Machine.errorSlot
  split
  · exact .refl hm
  · have hglobal := hm.global .scalar "@"
    exact hglobal.trans (hglobal.orderly.settles_of_eq rfl rfl rfl rfl rfl rfl)

/-! ### A new interpreter -/

/-- A shared value is not counted. -/
theorem living_allocImmortal (m : Machine) (s : Scalar) :
    (m.allocImmortal s).2.living = m.living := by
  ext k
  simp only [mem_living, Machine.allocImmortal, isFreed, body, cell, heap_onHeap, Heap.get_push]
  split
  next hk => simp [hk, Cell.freed, Body.isFreed]
  next => rfl

theorem Orderly.allocImmortal (s : Scalar) (hs : s.owned = []) (hm : m.Orderly held) :
    m.Settles (m.allocImmortal s).2 held where
  orderly := {
    count_eq := fun k hk => by
      have hck := hm.count_eq k
      simp only [Machine.allocImmortal, onHeap, cell, owners, Heap.get_push, Heap.owners_push,
        Cell.fresh, Body.owned, hs, List.count_nil] at hk hck ⊢
      split at hk
      next => cases hk
      next hkn =>
        simp only [hkn, if_false]
        exact hck hk
    freed_iff := fun k hk hd => by
      simp only [Machine.allocImmortal, cell, isFreed, body, heap_onHeap, Heap.get_push] at hk ⊢
      split at hk
      next => cases hk
      next hkn =>
        simp only [hkn, if_false]
        exact hm.freed_iff k hk hd
    shared := fun k hk => by
      simp only [Machine.allocImmortal, cell, isFreed, body, heap_onHeap, Heap.get_push] at hk ⊢
      split
      next => rfl
      next hkn =>
        simp only [hkn, if_false] at hk
        exact hm.shared k hk
    harmless := fun k => by
      simp only [Machine.allocImmortal, cell, heap_onHeap, Heap.get_push]
      split
      · simp [Cell.fresh]
      · exact hm.harmless k
    keyed := fun k => by
      simp only [Machine.allocImmortal, body, cell, heap_onHeap, Heap.get_push]
      split
      · trivial
      · exact hm.keyed k
    names := hm.names
    ids := hm.ids }
  counts := .of_eq (m.living_allocImmortal s) rfl rfl rfl
  ages := {
    size_le := by simp [Machine.allocImmortal]
    isFreed := fun k hk hf => by
      have hkn := ne_next_of_lt hk
      simp only [Machine.allocImmortal, isFreed, body, cell, heap_onHeap, Heap.get_push, hkn,
        if_false] at hf ⊢
      exact hf
    immortal := fun k hk => by
      simp only [Machine.allocImmortal, cell, heap_onHeap, Heap.get_push, ne_next_of_lt hk,
        if_false] }

theorem orderly_empty : Machine.empty.Orderly [] where
  count_eq h _ := by simp [cell, owners, Machine.empty, Heap.empty, Heap.get, Heap.owners,
    Interp.owned, Interp.blank, Cell.freed]
  freed_iff h _ _ := by simp [cell, isFreed, body, Machine.empty, Heap.empty, Heap.get, Cell.freed,
    Body.isFreed]
  shared h hi := by simp [cell, Machine.empty, Heap.empty, Heap.get, Cell.freed] at hi
  harmless h := by simp [cell, Machine.empty, Heap.empty, Heap.get, Cell.freed]
  keyed h := by simp [body, cell, Machine.empty, Heap.empty, Heap.get, Cell.freed, Body.Keyed]
  names := by simp [Machine.empty, Interp.blank]
  ids := by simp [Machine.empty]

/-- A machine with one interpreter that has just been constructed. -/
def fresh : Machine := (Machine.empty.allocInterp .first).construct

theorem owned_blank (undefined yes no : Handle) : (Interp.blank undefined yes no).owned = [] := rfl

/-- An interpreter comes to a vacant place, and no value with it. -/
theorem Orderly.allocInterp (hm : m.Orderly held) {place : InterpId}
    (hplace : place ∉ m.here :: m.others.map (·.1)) :
    (m.allocInterp place).Orderly held ∧ (m.allocInterp place).living = m.living := by
  have h₁ := hm.allocImmortal .undefined rfl
  have h₂ := h₁.orderly.allocImmortal (.ofBool true) rfl
  have h₃ := h₂.orderly.allocImmortal (.ofBool false) rfl
  have hall := h₁.trans (h₂.trans h₃)
  refine ⟨{ hall.orderly with count_eq := fun h hh => ?_, names := fun i hi => ?_, ids := ?_ }, ?_⟩
  · have hcount := hall.orderly.count_eq h hh
    simp only [owners, Machine.allocInterp, Machine.allocImmortal, onHeap, List.flatMap_cons,
      List.count_append] at hcount ⊢
    rw [owned_blank, List.count_nil]
    exact hcount.trans (by omega)
  · rcases List.mem_cons.1 hi with rfl | hi
    · exact List.nodup_nil
    · exact hm.names i hi
  · exact List.nodup_cons.2 ⟨hplace, hm.ids⟩
  · exact (living_allocImmortal _ _).trans
      ((living_allocImmortal _ _).trans (living_allocImmortal _ _))

theorem Orderly.construct (hm : m.Orderly held) : m.Settles m.construct held := by
  have hglobal := hm.global .scalar "@"
  have hconstructed {n : Machine} (hn : m.Settles n held) :
      m.Settles (n.onInterp fun i =>
        { i with error := some (m.global .scalar "@").1, phase := .constructed }) held :=
    hn.trans (hn.orderly.settles_of_eq rfl rfl rfl rfl rfl rfl)
  refine hconstructed ?_
  split
  next former hb =>
    exact hglobal.trans
      (Orderly.replaceScalar (s := .ofByteText ⟨[], false⟩) hglobal.orderly hb)
  next => exact hglobal

theorem orderly_fresh : fresh.Orderly [] ∧ fresh.Tally := by
  have hfirst : InterpId.first ∉ Machine.empty.here :: Machine.empty.others.map (·.1) := by decide
  obtain ⟨horderly, hliving⟩ := orderly_empty.allocInterp hfirst
  have hconstruct := horderly.construct
  have htally : (Machine.empty.allocInterp .first).Tally := by
    rw [Tally, ← card_living, hliving, card_living]
    rfl
  exact ⟨hconstruct.orderly, hconstruct.tally htally⟩

end ValueMachine.Machine

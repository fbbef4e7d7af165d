import ValueMachine.Proofs.Ownership.Owners

/-! What the elementary changes of the machine do to the owners of values. Each keeps the machine in
order, and says which counts pass from the outside into the machine and back. -/

namespace ValueMachine

theorem Glob.count_owned_set (g : Glob) (s : Sigil) (h k : Handle) :
    (g.set s h).owned.count k + (g.get s).toList.count k = g.owned.count k + [h].count k := by
  have hc (o : Option Handle) (rest : List (Option Handle)) :
      ((o :: rest).filterMap id).count k = o.toList.count k + (rest.filterMap id).count k := by
    cases o <;> simp [List.count_cons]
    omega
  cases s <;> simp only [Glob.owned, Glob.set, Glob.get, hc, List.filterMap_nil, List.count_nil,
    Option.toList_some] <;> omega

theorem Glob.get_set (g : Glob) (s s' : Sigil) (h : Handle) :
    (g.set s h).get s' = if s' = s then some h else g.get s' := by
  cases s <;> cases s' <;> rfl

namespace Machine

variable {m m' : Machine} {held held' : List Handle} {dying dying' : Option Handle} {h : Handle}

@[simp] theorem heap_onHeap (m : Machine) (f : Heap → Heap) : (m.onHeap f).heap = f m.heap := rfl

@[simp] theorem heap_onInterp (m : Machine) (f : Interp → Interp) :
    (m.onInterp f).heap = m.heap := rfl

@[simp] theorem heap_focus (m : Machine) (i : InterpId) : (m.focus i).heap = m.heap := by
  unfold focus
  split
  · rfl
  · split <;> rfl

/-- A cell may change its count if the counts that its value owns and those outside make up for it. -/
theorem Orderly.set (hm : m.Orderly held dying) (c : Cell) (hs : h.index < m.heap.size)
    (hi : c.immortal = (m.cell h).immortal)
    (hc : ∀ k, (m.cell k).immortal = false →
      (if k = h then c.count else 0) + held.count k + (m.body h).owned.count k
        = (if k = h then (m.cell h).count else 0) + held'.count k + c.body.owned.count k)
    (hf : c.immortal = false → some h ≠ dying' → (c.body.isFreed = true ↔ c.count = 0))
    (hb : c.immortal = true → c.body.isFreed = false)
    (hg : ∀ g ∈ c.magic, FreeAction.touch ∉ g.table.onFree) (hk : c.body.Keyed)
    (hd : ∀ k, k ≠ h → some k ≠ dying' → some k ≠ dying) :
    (m.onHeap (·.set h c)).Orderly held' dying' where
  count_eq k hk := by
    have howners := m.heap.owners_set hs c k
    have hck := hc k
    simp only [cell, owners, body, Heap.get_set, onHeap] at hk hck ⊢
    by_cases hkh : k = h
    · subst hkh
      simp only [hs, and_self, if_true] at hk hck ⊢
      have := hm.count_eq k (by rw [← hi, hk])
      simp only [cell, owners] at this
      have := hck (by rw [hi] at hk; exact hk)
      omega
    · simp only [hkh, false_and, if_false] at hk hck ⊢
      have := hm.count_eq k hk
      simp only [cell, owners] at this
      have := hck hk
      omega
  freed_iff k hk hkd := by
    simp only [cell, isFreed, body, heap_onHeap, Heap.get_set] at hk ⊢
    by_cases hkh : k = h
    · subst hkh
      simp only [hs, and_self, if_true] at hk ⊢
      exact hf hk hkd
    · simp only [hkh, false_and, if_false] at hk ⊢
      exact hm.freed_iff k hk (hd k hkh hkd)
  shared k hk := by
    simp only [cell, isFreed, body, heap_onHeap, Heap.get_set] at hk ⊢
    by_cases hkh : k = h
    · subst hkh
      simp only [hs, and_self, if_true] at hk ⊢
      exact hb hk
    · simp only [hkh, false_and, if_false] at hk ⊢
      exact hm.shared k hk
  harmless k := by
    simp only [cell, heap_onHeap, Heap.get_set]
    split
    · exact hg
    · exact hm.harmless k
  keyed k := by
    simp only [body, cell, heap_onHeap, Heap.get_set]
    split
    · exact hk
    · exact hm.keyed k
  names := hm.names
  ids := hm.ids

/-- A cell that stays what it is changes neither the living nor what is freed. -/
theorem ages_set (c : Cell) (hi : c.immortal = (m.cell h).immortal)
    (hf : m.isFreed h = true → c.body.isFreed = true) :
    m.Ages (m.onHeap (·.set h c)) where
  size_le := by simp
  isFreed k _ hk := by
    simp only [isFreed, body, cell, heap_onHeap, Heap.get_set] at hk hf ⊢
    split
    next hkh => rw [hkh.1] at hk; exact hf hk
    next => exact hk
  immortal k _ := by
    simp only [cell, heap_onHeap, Heap.get_set] at hi ⊢
    split
    next hkh => rw [hkh.1]; exact hi
    next => rfl

theorem counts_set (c : Cell) (hi : c.immortal = (m.cell h).immortal)
    (hf : c.body.isFreed = m.isFreed h) : m.Counts (m.onHeap (·.set h c)) := by
  refine .of_eq (Finset.ext fun k => ?_) rfl rfl rfl
  rw [mem_living, mem_living]
  simp only [isFreed, body, cell, heap_onHeap, Heap.get_set] at hi hf ⊢
  split
  next hk => rw [hk.1, hi, hf]
  next => rfl

/-- A change of a living cell that keeps it alive. -/
theorem Orderly.settles_set (hm : m.Orderly held) (c : Cell) (hh : m.isFreed h = false)
    (hi : c.immortal = (m.cell h).immortal) (hb : c.body.isFreed = false)
    (hc : ∀ k, (m.cell k).immortal = false →
      (if k = h then c.count else 0) + held.count k + (m.body h).owned.count k
        = (if k = h then (m.cell h).count else 0) + held'.count k + c.body.owned.count k)
    (hn : c.immortal = false → c.count ≠ 0)
    (hg : ∀ g ∈ c.magic, FreeAction.touch ∉ g.table.onFree) (hk : c.body.Keyed) :
    m.Settles (m.onHeap (·.set h c)) held' where
  orderly := hm.set c (index_lt_of_not_isFreed hh) hi hc
    (fun hci _ => by simp [hb, hn hci]) (fun _ => hb) hg hk (fun _ _ _ => by simp)
  counts := counts_set c hi (by rw [hb, hh])
  ages := ages_set c hi (by rw [hh]; simp)

/-- A value that is not freed has a count. -/
theorem Orderly.count_ne_zero (hm : m.Orderly held) (hf : m.isFreed h = false)
    (hi : (m.cell h).immortal = false) : (m.cell h).count ≠ 0 := by
  intro hz
  rw [(hm.freed_iff h hi (by simp)).2 hz] at hf
  cases hf

/-- What is owned somewhere is not freed. -/
theorem Orderly.not_isFreed_of_owned (hm : m.Orderly held) (ho : m.owners h + held.count h ≠ 0) :
    m.isFreed h = false := by
  by_contra hf
  rw [Bool.not_eq_false] at hf
  have hi : (m.cell h).immortal = false := by
    by_contra hi
    rw [Bool.not_eq_false] at hi
    rw [hm.shared h hi] at hf
    cases hf
  rw [← hm.count_eq h hi] at ho
  exact ho ((hm.freed_iff h hi (by simp)).1 hf)

/-- What is held outside is not freed. -/
theorem Orderly.not_isFreed_of_mem (hm : m.Orderly held) (hh : h ∈ held) : m.isFreed h = false := by
  have := List.count_pos_iff.2 hh
  exact hm.not_isFreed_of_owned (by omega)

theorem Orderly.retain (hm : m.Orderly held) (hf : m.isFreed h = false) :
    m.Settles (m.retain h) (h :: held) := by
  unfold Machine.retain
  split
  next hi =>
    refine ⟨{ hm with count_eq := fun k hk => ?_ }, .refl m, .refl m⟩
    have hkh : k ≠ h := fun e => by rw [e, hi] at hk; cases hk
    rw [hm.count_eq k hk, List.count_cons_of_ne (Ne.symm hkh)]
  next hi =>
    refine hm.settles_set _ hf rfl hf (fun k _ => ?_) (fun _ => by simp) (hm.harmless h)
      (hm.keyed h)
    by_cases hkh : k = h
    · subst hkh
      simp only [if_true, List.count_cons_self, body, cell]
      omega
    · simp [hkh, List.count_cons_of_ne (Ne.symm hkh), body, cell]

/-- A value may get another body if what that owns is made up for outside. -/
theorem Orderly.setBody (b : Body) (hm : m.Orderly held) (hf : m.isFreed h = false)
    (hb : b.isFreed = false)
    (hc : ∀ k, b.owned.count k + held'.count k = (m.body h).owned.count k + held.count k)
    (hk : b.Keyed := by trivial) : m.Settles (m.setBody h b) held' := by
  refine hm.settles_set _ hf rfl hb (fun k _ => ?_) (hm.count_ne_zero hf) (hm.harmless h) hk
  have := hc k
  simp only [cell]
  omega

/-- Hooks and class of a value are no matter of ownership. -/
theorem Orderly.decorate (hm : m.Orderly held dying) (magic : List Magic → List Magic)
    (className : Option String → Option String)
    (hg : ∀ g ∈ magic (m.cell h).magic, FreeAction.touch ∉ g.table.onFree) :
    m.Settles (m.onHeap (·.update h fun c =>
      { c with magic := magic c.magic, className := className c.className })) held dying := by
  by_cases hs : h.index < m.heap.size
  · refine ⟨hm.set _ hs rfl (fun k _ => rfl) (fun hi hd => hm.freed_iff h hi hd) (hm.shared h) hg
      (hm.keyed h) (fun _ _ h => h), counts_set _ rfl rfl, ages_set _ rfl fun hf => hf⟩
  · have heap : (m.onHeap (·.update h fun c =>
        { c with magic := magic c.magic, className := className c.className })) = m := by
      simp only [onHeap, Heap.update]
      rw [m.heap.set_of_size_le _ (by omega)]
    rw [heap]
    exact .refl hm

theorem body_alloc (m : Machine) (b : Body) (hk : h ≠ m.heap.next) :
    (m.alloc b).2.body h = m.body h := by
  simp [Machine.alloc, body, cell, Heap.get_push, hk]

theorem ne_next_of_lt (hs : h.index < m.heap.size) : h ≠ m.heap.next := by
  rintro rfl
  exact lt_irrefl _ hs

theorem next_not_mem_living (m : Machine) : m.heap.next ∉ m.living :=
  fun hmem => Nat.lt_irrefl _ (index_lt_of_mem_living hmem)

theorem living_alloc (m : Machine) {b : Body} (hb : b.isFreed = false) :
    (m.alloc b).2.living = insert m.heap.next m.living := by
  ext k
  simp only [Finset.mem_insert, mem_living, Machine.alloc, isFreed, body, cell, Heap.get_push]
  split
  next hk => simpa [hk, Cell.fresh] using hb
  next hk => simp [hk]

/-- A new value belongs to the outside, which gives the counts that it owns. -/
theorem Orderly.alloc (b : Body) (hm : m.Orderly (b.owned ++ held) dying) (hb : b.isFreed = false)
    (hk : b.Keyed := by trivial) :
    m.Settles (m.alloc b).2 ((m.alloc b).1 :: held) dying where
  orderly := {
    count_eq := fun k hk => by
      have hnext := hm.count_eq m.heap.next
      have hck := hm.count_eq k
      simp only [Machine.alloc, cell, owners, Heap.get_push, Heap.owners_push, List.count_append,
        Heap.get_next] at hk hnext hck ⊢
      have := hnext rfl
      simp only [Cell.freed] at this
      by_cases hkn : k = m.heap.next
      · subst hkn
        simp only [if_true, Cell.fresh, List.count_cons_self, Interp.owned] at this ⊢
        omega
      · simp only [hkn, if_false] at hk ⊢
        rw [hck hk, List.count_cons_of_ne (Ne.symm hkn)]
        simp only [Cell.fresh, Interp.owned]
        omega
    freed_iff := fun k hk hd => by
      simp only [Machine.alloc, cell, isFreed, body, Heap.get_push] at hk ⊢
      split
      next => simp [Cell.fresh, hb]
      next hkn =>
        simp only [hkn, if_false] at hk
        exact hm.freed_iff k hk hd
    shared := fun k hk => by
      simp only [Machine.alloc, cell, isFreed, body, Heap.get_push] at hk ⊢
      split at hk
      next hkn => simp [Cell.fresh] at hk
      next hkn =>
        simp only [hkn, if_false]
        exact hm.shared k hk
    harmless := fun k => by
      simp only [Machine.alloc, cell, Heap.get_push]
      split
      · simp [Cell.fresh]
      · exact hm.harmless k
    keyed := fun k => by
      simp only [Machine.alloc, body, cell, Heap.get_push]
      split
      · exact hk
      · exact hm.keyed k
    names := fun i hi => by
      rcases List.mem_cons.1 hi with rfl | hi
      · exact hm.names m.interp (List.mem_cons_self ..)
      · exact hm.names i (List.mem_cons_of_mem _ hi)
    ids := hm.ids }
  counts := ⟨rfl, rfl, fun _ => by
    have hlive : (m.alloc b).2.interp.live = m.interp.live + 1 := rfl
    rw [living_alloc m hb, Finset.card_insert_of_notMem m.next_not_mem_living, hlive]
    omega⟩
  ages := {
    size_le := by simp [Machine.alloc]
    isFreed := fun k hk hf => by
      have hkn := ne_next_of_lt hk
      simp only [Machine.alloc, isFreed, body, cell, Heap.get_push, hkn, if_false] at hf ⊢
      exact hf
    immortal := fun k hk => by
      simp only [Machine.alloc, cell, Heap.get_push, ne_next_of_lt hk, if_false] }

/-- A change of the interpreter in focus that takes over counts from the outside, or gives some back. -/
theorem Orderly.onInterp (hm : m.Orderly held dying) (f : Interp → Interp)
    (hc : ∀ k, (f m.interp).owned.count k + held'.count k = m.interp.owned.count k + held.count k)
    (hn : ((f m.interp).symbols.map (·.1)).Nodup) (hl : (f m.interp).live = m.interp.live) :
    m.Settles (m.onInterp f) held' dying where
  orderly := {
    count_eq := fun k hk => by
      have := hm.count_eq k hk
      have := hc k
      simp only [cell, owners, Machine.onInterp] at *
      omega
    freed_iff := hm.freed_iff
    shared := hm.shared
    harmless := hm.harmless
    keyed := hm.keyed
    names := fun i hi => by
      rcases List.mem_cons.1 hi with rfl | hi
      · exact hn
      · exact hm.names i (List.mem_cons_of_mem _ hi)
    ids := hm.ids }
  counts := .of_eq rfl hl rfl rfl
  ages := .of_heap_eq rfl

theorem Orderly.names_focus (hm : m.Orderly held dying) : (m.interp.symbols.map (·.1)).Nodup :=
  hm.names m.interp (List.mem_cons_self ..)

/-- The temporaries take a count over. -/
theorem Orderly.mortal (hm : m.Orderly (h :: held) dying) :
    m.Settles (m.mortal h) held dying := by
  refine hm.onInterp _ (fun k => ?_) hm.names_focus rfl
  simp only [Interp.owned, Pile.toList_push, List.count_append, List.count_cons, List.count_nil]
  omega

/-! ### Globals -/

/-- The symbol table after a slot of a glob was set. -/
def setSymbol (symbols : List (String × Glob)) (name : String) (s : Sigil) (h : Handle) :
    List (String × Glob) :=
  if symbols.any (·.1 == name) then
    symbols.map fun (n, g) => if n == name then (n, g.set s h) else (n, g)
  else symbols ++ [(name, Glob.empty.set s h)]

theorem updateGlob_set (m : Machine) (name : String) (s : Sigil) (h : Handle) :
    m.updateGlob name (·.set s h)
      = m.onInterp fun i => { i with symbols := setSymbol i.symbols name s h } := by
  simp only [updateGlob, onInterp, setSymbol]
  split <;> rfl

theorem nodup_setSymbol (symbols : List (String × Glob)) (name : String) (s : Sigil) (h : Handle)
    (hn : (symbols.map (·.1)).Nodup) : ((setSymbol symbols name s h).map (·.1)).Nodup := by
  unfold setSymbol
  split
  next =>
    have hmap : (symbols.map fun (n, g) => if n == name then (n, g.set s h) else (n, g)).map (·.1)
        = symbols.map (·.1) := by
      rw [List.map_map]
      refine List.map_congr_left fun p _ => ?_
      simp only [Function.comp_apply]
      split <;> rfl
    rwa [hmap]
  next ha =>
    rw [List.map_append, List.nodup_append]
    refine ⟨hn, by simp, ?_⟩
    intro a hmem b hb
    simp only [List.map_cons, List.map_nil, List.mem_singleton] at hb
    subst hb
    rintro rfl
    apply ha
    obtain ⟨p, hp, rfl⟩ := List.mem_map.1 hmem
    exact List.any_eq_true.2 ⟨p, hp, by simp⟩

theorem count_owned_setSymbol (symbols : List (String × Glob)) (name : String) (s : Sigil)
    (h k : Handle) (hn : (symbols.map (·.1)).Nodup) :
    ((setSymbol symbols name s h).flatMap (·.2.owned)).count k
        + (((symbols.find? (·.1 == name)).map (·.2)).bind (·.get s)).toList.count k
      = (symbols.flatMap (·.2.owned)).count k + [h].count k := by
  have empty : (Glob.empty.set s h).owned = [h] := by cases s <;> rfl
  unfold setSymbol
  split
  next ha =>
    induction symbols with
    | nil => simp at ha
    | cons p rest ih =>
      obtain ⟨n, g⟩ := p
      simp only [List.map_cons, List.nodup_cons] at hn
      by_cases hname : n = name
      · subst hname
        -- the name is not among the others, which stay
        have hrest : rest.map (fun p : String × Glob =>
            if p.1 == n then (p.1, p.2.set s h) else (p.1, p.2)) = rest := by
          refine (List.map_congr_left fun p hp => ?_).trans (List.map_id rest)
          have : p.1 ≠ n := fun e => hn.1 (e ▸ List.mem_map_of_mem hp)
          simp [this]
        have := Glob.count_owned_set g s h k
        simp only [List.map_cons, List.flatMap_cons, List.count_append, hrest, beq_self_eq_true,
          if_true, List.find?_cons_of_pos, Option.map_some, Option.bind_some]
        omega
      · have hany : rest.any (·.1 == name) = true := by simpa [hname] using ha
        have := ih hn.2 hany
        simp only [List.map_cons, List.flatMap_cons, List.count_append, beq_iff_eq, hname,
          if_false, not_false_eq_true, List.find?_cons_of_neg] at this ⊢
        omega
  next ha =>
    have hfind : symbols.find? (·.1 == name) = none := by
      rw [List.find?_eq_none]
      intro p hp hpn
      exact ha (List.any_eq_true.2 ⟨p, hp, hpn⟩)
    simp only [hfind, Option.map_none, Option.bind_none, Option.toList_none, List.count_nil,
      List.flatMap_append, List.flatMap_cons, List.flatMap_nil, List.append_nil,
      List.count_append, empty, Nat.add_zero]

/-- A glob takes a count over and gives the one of its former value back. -/
theorem Orderly.updateGlob (name : String) (s : Sigil) (hm : m.Orderly (h :: held) dying) :
    m.Settles (m.updateGlob name (·.set s h))
      (((m.glob? name).bind (·.get s)).toList ++ held) dying := by
  rw [updateGlob_set]
  refine hm.onInterp _ (fun k => ?_) (nodup_setSymbol _ _ _ _ hm.names_focus) rfl
  have := count_owned_setSymbol m.interp.symbols name s h k hm.names_focus
  simp only [Interp.owned, glob?, List.count_append, List.count_cons, List.count_nil] at this ⊢
  omega

theorem find?_map_symbol (symbols : List (String × Glob)) (q name : String) (f : Glob → Glob) :
    ((symbols.map fun (n, g) => if n == q then (n, f g) else (n, g)).find? (·.1 == name)).map (·.2)
      = ((symbols.find? (·.1 == name)).map (·.2)).map fun g => if name = q then f g else g := by
  induction symbols with
  | nil => rfl
  | cons p rest ih =>
    obtain ⟨n, g⟩ := p
    by_cases hn : n = name
    · subst hn
      by_cases hq : n = q <;> simp [hq]
    · by_cases hq : n = q
      · subst hq
        simp only [List.map_cons, if_true, beq_iff_eq, hn, not_false_eq_true,
          List.find?_cons_of_neg]
        simpa using ih
      · simp only [List.map_cons, beq_iff_eq, hq, if_false, hn, not_false_eq_true,
          List.find?_cons_of_neg]
        simpa using ih

theorem glob?_updateGlob (m : Machine) (q name : String) (f : Glob → Glob) :
    (m.updateGlob q f).glob? name
      = if name = q then some (f ((m.glob? q).getD .empty)) else m.glob? name := by
  simp only [Machine.updateGlob, onInterp, glob?]
  split
  next ha =>
    obtain ⟨p, hp, hpq⟩ := List.any_eq_true.1 ha
    rw [find?_map_symbol]
    split
    next hn =>
      subst hn
      obtain ⟨r, hr⟩ : ∃ r, m.interp.symbols.find? (·.1 == name) = some r :=
        Option.isSome_iff_exists.1 (List.find?_isSome.2 ⟨p, hp, hpq⟩)
      simp [hr]
    next hn => simp [Function.comp_def]
  next ha =>
    have hfind : m.interp.symbols.find? (·.1 == q) = none := by
      rw [List.find?_eq_none]
      intro p hp hpn
      exact ha (List.any_eq_true.2 ⟨p, hp, hpn⟩)
    rw [List.find?_append]
    split
    next hn => subst hn; simp [hfind]
    next hn =>
      have : List.find? (fun p : String × Glob => p.1 == name) [(q, f Glob.empty)] = none := by
        simp [Ne.symm hn]
      rw [this, Option.or_none]

/-- Globals that are there stay when another one is made. -/
theorem global?_global (m : Machine) (s s' : Sigil) (name name' : String) (h : Handle)
    (hg : m.global? s name = some h) : (m.global s' name').2.global? s name = some h := by
  unfold Machine.global
  split
  next => exact hg
  next hnone =>
    simp only [global?, glob?_updateGlob] at hg hnone ⊢
    rw [show ∀ n, (m.alloc (newGlobalBody s' name')).2.glob? n = m.glob? n from fun _ => rfl]
    split
    next hq =>
      rw [hq] at hg
      obtain ⟨g, hg', hs⟩ := Option.bind_eq_some_iff.1 hg
      have hss : s ≠ s' := by
        rintro rfl
        rw [hg] at hnone
        cases hnone
      simp [hg', Glob.get_set, hss, hs]
    next => exact hg

/-- A global is found or made, and belongs to its glob. -/
theorem Orderly.global (s : Sigil) (name : String) (hm : m.Orderly held dying) :
    m.Settles (m.global s name).2 held dying := by
  unfold Machine.global
  split
  next => exact .refl hm
  next hg =>
    have hnew : (newGlobalBody s name).owned = [] := by cases s <;> rfl
    have hfreed : (newGlobalBody s name).isFreed = false := by cases s <;> rfl
    have hkeyed : (newGlobalBody s name).Keyed := by
      cases s
      case hash => exact List.nodup_nil
      all_goals trivial
    have hm' : m.Orderly ((newGlobalBody s name).owned ++ held) dying := by rwa [hnew]
    have halloc := hm'.alloc (newGlobalBody s name) hfreed hkeyed
    have hset := halloc.orderly.updateGlob (Qualified.qualify name) s
    have hformer : ((m.alloc (newGlobalBody s name)).2.glob? (Qualified.qualify name)).bind
        (·.get s) = none := hg
    rw [hformer] at hset
    exact halloc.trans hset

end Machine

end ValueMachine

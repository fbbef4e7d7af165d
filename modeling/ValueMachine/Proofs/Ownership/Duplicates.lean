import ValueMachine.Proofs.Ownership.Containers

/-! Duplicates of values. A copy of a container takes a copy of each of its values, and the hooks
that reading them runs can change neither the copy nor what is already in it. -/

namespace ValueMachine.Machine

variable {m m' m₁ m₂ m₃ : Machine} {held : List Handle} {h k : Handle} {s : Scalar} {u : Unit}
  {o : Option Handle}

/-! ### Counts that are taken -/

/-- One more count on a value changes nothing else. -/
theorem exists_cell_retain (m : Machine) (h k : Handle) :
    ∃ n, (m.retain h).cell k = { m.cell k with count := n } := by
  unfold Machine.retain
  split
  · exact ⟨_, rfl⟩
  · simp only [cell, heap_onHeap, Heap.update, Heap.get_set]
    split
    next hk => exact ⟨_, by rw [hk.1]⟩
    next => exact ⟨_, rfl⟩

theorem body_retain (m : Machine) (h k : Handle) : (m.retain h).body k = m.body k := by
  obtain ⟨n, hn⟩ := m.exists_cell_retain h k
  rw [body, hn]
  rfl

theorem cell_retain_of_ne (hk : k ≠ h) : (m.retain h).cell k = m.cell k := by
  unfold retain
  split
  · rfl
  · exact Heap.get_set_ne _ _ _ _ hk

theorem next_retain (m : Machine) (h : Handle) : (m.retain h).heap.next = m.heap.next := by
  unfold retain
  split
  · rfl
  · exact congrArg Handle.mk (Array.size_setIfInBounds ..)

theorem exists_cell_retainAll (m : Machine) (hs : List Handle) (k : Handle) :
    ∃ n, (hs.foldl retain m).cell k = { m.cell k with count := n } := by
  refine List.foldlRecOn (motive := fun m' : Machine => ∃ n, m'.cell k = { m.cell k with count := n })
    hs _ ⟨_, rfl⟩ fun m₁ h₁ j _ => ?_
  obtain ⟨n, hn⟩ := h₁
  obtain ⟨n', hn'⟩ := m₁.exists_cell_retain j k
  exact ⟨n', by rw [hn', hn]⟩

theorem body_retainAll (m : Machine) (hs : List Handle) (k : Handle) :
    (hs.foldl retain m).body k = m.body k := by
  obtain ⟨n, hn⟩ := m.exists_cell_retainAll hs k
  rw [body, hn]
  rfl

theorem cell_retainAll_of_notMem {hs : List Handle} (hk : k ∉ hs) :
    (hs.foldl retain m).cell k = m.cell k :=
  List.foldlRecOn (motive := fun m' : Machine => m'.cell k = m.cell k) hs _ rfl
    fun _ hm' _ hj => (cell_retain_of_ne (ne_of_mem_of_not_mem hj hk).symm).trans hm'

theorem next_retainAll (m : Machine) (hs : List Handle) :
    (hs.foldl retain m).heap.next = m.heap.next :=
  List.foldlRecOn (motive := fun m' => m'.heap.next = m.heap.next) hs _ rfl
    fun m' hm' j _ => (next_retain m' j).trans hm'

/-! ### One other body -/

/-- Only one value may have another body now; the other ones stay or are freed. -/
structure Spares (h : Handle) (m m' : Machine) : Prop where
  size_le : m.heap.size ≤ m'.heap.size
  body : ∀ k, k ≠ h → k.index < m.heap.size → m'.body k = m.body k ∨ m'.body k = .freed

namespace Spares

theorem refl (h : Handle) (m : Machine) : Spares h m m := ⟨le_rfl, fun _ _ _ => .inl rfl⟩

theorem trans (h₁ : Spares h m₁ m₂) (h₂ : Spares h m₂ m₃) : Spares h m₁ m₃ where
  size_le := h₁.size_le.trans h₂.size_le
  body k hk hs := by
    rcases h₂.body k hk (hs.trans_le h₁.size_le) with hb | hb
    · rw [hb]
      exact h₁.body k hk hs
    · exact .inr hb

theorem of_fades (hm : m.Fades m') : Spares h m m' := ⟨hm.size_le, fun k _ hs => hm.body k hs⟩

theorem of_heap_eq (heap : m'.heap = m.heap) : Spares h m m' :=
  ⟨by rw [heap], fun _ _ _ => .inl (by rw [Machine.body, cell, heap]; rfl)⟩

theorem setBody (m : Machine) (h : Handle) (b : Body) : Spares h m (m.setBody h b) where
  size_le := by simp [Machine.setBody, Heap.update]
  body k hk _ := by
    left
    simp only [Machine.setBody, Machine.body, cell, heap_onHeap, Heap.update, Heap.get_set]
    rw [if_neg (by tauto)]

/-- A value that is still there has its body. -/
theorem body_eq (hm : Spares h m m') (hk : k ≠ h) (hs : k.index < m.heap.size)
    (hf : m'.isFreed k = false) : m'.body k = m.body k := by
  rcases hm.body k hk hs with hb | hb
  · exact hb
  · rw [isFreed, hb] at hf
    cases hf

end Spares

theorem Spares.retain (m : Machine) (k : Handle) : Spares h m (m.retain k) where
  size_le := (congrArg Handle.index (next_retain m k)).ge
  body j _ _ := .inl (body_retain m k j)

/-- Releases leave bodies as they are or free them, whatever the hooks. -/
theorem spares_keptByRelease (h : Handle) (m : Machine) :
    KeptByRelease (Spares h m) fun _ => True where
  records _ _ _ _ _ := trivial
  lower m' k hm := hm.trans (.of_fades (.set m' k _ (.inl rfl) (Nat.sub_le ..)))
  strip m' k hm := hm.trans (.of_fades (.set m' k _ (.inl rfl) (Nat.zero_le _)))
  noteFreed _ _ hm := hm.trans (.of_heap_eq rfl)
  revive m' name _ hm _ _ := hm.trans (.of_fades
    ((Fades.global m' .scalar name).trans (.update _ _ _ (fun _ => rfl) fun _ => rfl)))
  unclaim _ _ hm := hm.trans (.of_heap_eq rfl)
  touch m' k _ hm _ _ := hm.trans (.retain m' k)
  vacate m' k hm :=
    (hm.trans (.of_fades (.set m' k .freed (.inr rfl) (Nat.zero_le _)))).trans (.of_heap_eq rfl)

theorem Spares.replaceScalar (m : Machine) (h : Handle) (former s : Scalar) :
    Spares h m (m.replaceScalar h former s) := by
  have hrelease := (spares_keptByRelease h m).releaseAll former.owned (.setBody m h (.scalar s))
  obtain ⟨log, hlog⟩ := ((m.setBody h (.scalar s)).releaseAll former.owned).noteWrite_eq h
  rw [Machine.replaceScalar, hlog]
  exact hrelease.trans (.of_heap_eq rfl)

theorem spares_store (hr : store h s m = .ok u m') : Spares h m m' := by
  obtain ⟨former, -, -, rfl⟩ := store_ok hr
  exact .replaceScalar m h former s

theorem Orderly.spares_runReadHooks (hm : m.Orderly held) (hr : Machine.runReadHooks h m = .ok u m') :
    Spares h m m' := by
  simp only [Machine.runReadHooks, Run.look_bind] at hr
  refine (Run.forM_ok (fun _ m' => m.Settles m' held ∧ Spares h m m')
    (fun g _ m₁ m₂ h₁ hg => ?_) ⟨.refl hm, .refl h m⟩ hr).2
  refine Run.forM_ok (fun _ m' => m.Settles m' held ∧ Spares h m m')
    (fun a _ m₁ m₂ h₁ ha => ?_) h₁ hg
  refine ⟨h₁.1.trans (h₁.1.orderly.runReadAction ha), h₁.2.trans ?_⟩
  cases a with
  | record label =>
    cases ha
    exact .of_heap_eq rfl
  | tick =>
    simp only [Machine.runReadAction, Run.change_bind, Run.look_bind] at ha
    have hcount : Spares h m₁ { m₁ with ticks := m₁.ticks + 1 } := .of_heap_eq rfl
    exact hcount.trans (spares_store ha)

theorem spares_retainAll (hs : List Handle) : Spares h m (hs.foldl retain m) :=
  List.foldlRecOn (motive := fun m' => Spares h m m') hs _ (.refl h m) fun m₁ h₁ j _ =>
    h₁.trans (.retain m₁ j)

theorem Orderly.spares_copySlots (hm : m.Orderly held) (hr : Machine.copySlots h m = .ok s m') :
    Spares h m m' := by
  obtain ⟨_, m₁, hhooks, hslots⟩ := Run.bind_ok hr
  have h₁ := hm.spares_runReadHooks hhooks
  simp only [Run.look_bind] at hslots
  cases hs : m₁.scalar? h with
  | none => rw [hs] at hslots; cases hslots
  | some s' =>
    rw [hs] at hslots
    cases hslots
    exact h₁.trans (spares_retainAll _)

theorem Orderly.spares_newCopy (hm : m.Orderly held) (hr : Machine.newCopy h m = .ok k m') :
    Spares h m m' := by
  obtain ⟨s, m₁, hcopy, halloc⟩ := Run.bind_ok hr
  cases halloc
  exact (hm.spares_copySlots hcopy).trans
    ⟨by simp, fun k _ hs => .inl (body_alloc _ _ (ne_next_of_lt hs))⟩

/-- What an invariant of the copying of an array says: the items from some place on are left, and
the copy has no slot there yet. -/
structure Copying (m : Machine) (held : List Handle) (copy : Handle) (items : Slots)
    (rest : List (Option Handle × Nat)) (m' : Machine) : Prop where
  settles : m.Settles m' (copy :: held)
  room : ∃ (n : Nat) (xs : Slots), rest = (items.drop n).zipIdx n ∧ m'.body copy = .array xs
    ∧ xs.length ≤ n

namespace Copying

variable {copy item : Handle} {items : Slots} {i : Nat} {rest : List (Option Handle × Nat)}

/-- The slot that comes next. -/
theorem head (hc : Copying m held copy items ((o, i) :: rest) m₁) :
    ∃ tail, items.drop i = o :: tail ∧ rest = (items.drop (i + 1)).zipIdx (i + 1)
      ∧ ∃ xs : Slots, m₁.body copy = .array xs ∧ xs.length ≤ i := by
  obtain ⟨-, n, xs, hrest, hb, hn⟩ := hc
  cases hdrop : items.drop n with
  | nil => rw [hdrop] at hrest; cases hrest
  | cons o' tail =>
    rw [hdrop, List.zipIdx_cons] at hrest
    obtain ⟨hslot, rfl⟩ := List.cons.inj hrest
    cases hslot
    refine ⟨tail, hdrop, ?_, xs, hb, hn⟩
    rw [← List.tail_drop, hdrop, List.tail_cons]

theorem hole (hc : Copying m held copy items ((none, i) :: rest) m₁) :
    Copying m held copy items rest m₁ := by
  obtain ⟨tail, -, hrest, xs, hb, hn⟩ := hc.head
  exact ⟨hc.settles, i + 1, xs, hrest, hb, by omega⟩

theorem value {v : Handle} (hitems : ∀ k ∈ Slots.owned items, k ≠ copy)
    (hc : Copying m held copy items ((some item, i) :: rest) m₁)
    (hcopy : newCopy item m₁ = .ok v m₂) (hstore : arrayStore copy i v m₂ = .ok o m₃) :
    Copying m held copy items rest m₃ := by
  obtain ⟨tail, hdrop, hrest, xs, hb, hn⟩ := hc.head
  have hsettles := hc.settles
  have h₂ := hsettles.orderly.newCopy hcopy
  have h₃ := h₂.orderly.arrayStore hstore
  have hmem : some item ∈ items := List.mem_of_mem_drop (hdrop ▸ List.mem_cons_self ..)
  have hne : copy ≠ item := (hitems item (List.mem_filterMap.2 ⟨_, hmem, rfl⟩)).symm
  have hlive : m₂.isFreed copy = false := h₂.orderly.not_isFreed_of_mem (by simp)
  have hs : copy.index < m₁.heap.size := index_lt_of_not_isFreed (by rw [isFreed, hb]; rfl)
  have hb₂ := (hsettles.orderly.spares_newCopy hcopy).body_eq hne hs hlive
  obtain ⟨ys, p, hb₃, hp, ho, hm'⟩ := arrayStore_ok hstore
  rw [hb₂, hb] at hb₃
  cases hb₃
  obtain rfl : i = p := by
    simp only [Slots.place?, Int.natCast_nonneg, if_true, Int.toNat_natCast] at hp
    exact Option.some.inj hp
  -- the place is beyond the slots of the copy, and so nothing is displaced
  obtain rfl : o = none := by
    rw [ho, Slots.put, List.getElem?_eq_none hn]
    rfl
  refine ⟨hsettles.trans (h₂.trans h₃), i + 1, (Slots.put xs i v).2, hrest, ?_, ?_⟩
  · rw [hm']
    exact congrArg Cell.body (Heap.get_set_self _ _ _ (index_lt_of_not_isFreed hlive))
  · rw [Slots.length_put]
    omega

end Copying

theorem Orderly.copyArray {copy : Handle} (hm : m.Orderly held)
    (hr : copyArray h m = .ok copy m') : m.Settles m' (copy :: held) := by
  obtain ⟨new, m₁, halloc, hr₁⟩ := Run.bind_ok hr
  obtain ⟨items, m₂, hslots, hr₂⟩ := Run.bind_ok hr₁
  obtain ⟨_, m₃, hloop, hr₃⟩ := Run.bind_ok hr₂
  cases hr₃
  cases halloc
  obtain ⟨hb, rfl⟩ := slots_ok hslots
  have h₁ : m.Settles (m.alloc (.array [])).2 (m.heap.next :: held) := Orderly.alloc _ hm rfl
  have hnew : (m.alloc (.array [])).2.body m.heap.next = .array [] := by
    simp [Machine.alloc, body, cell, Cell.fresh]
  have hitems : ∀ k ∈ Slots.owned items, k ≠ m.heap.next := by
    intro k hk
    by_cases hh : h = m.heap.next
    · subst hh
      cases hb.symm.trans hnew
      cases hk
    · have hold : k ∈ (m.body h).owned := by
        rw [← body_alloc m (.array []) hh]
        exact hb ▸ hk
      exact ne_next_of_lt (hm.index_lt_of_mem_owned hold)
  refine (Run.forM_ok (fun rest m' => Copying m held m.heap.next items rest m')
    (fun slot _ _ _ hc hslot => ?_) ⟨h₁, 0, [], rfl, hnew, le_rfl⟩ hloop).settles
  obtain ⟨_ | item, i⟩ := slot
  · cases hslot
    exact hc.hole
  · obtain ⟨v, m₁, hcopy, hslot₁⟩ := Run.bind_ok hslot
    obtain ⟨o, m₂, hstore, hslot₂⟩ := Run.bind_ok hslot₁
    cases hslot₂
    exact hc.value hitems hcopy hstore

theorem Orderly.copyHash {copy : Handle} (hm : m.Orderly held)
    (hr : copyHash h m = .ok copy m') : m.Settles m' (copy :: held) := by
  obtain ⟨new, m₁, halloc, hr₁⟩ := Run.bind_ok hr
  obtain ⟨entries, m₂, hentries, hr₂⟩ := Run.bind_ok hr₁
  obtain ⟨_, m₃, hloop, hr₃⟩ := Run.bind_ok hr₂
  cases hr₃
  obtain ⟨t, m₄, htable, hr₄⟩ := Run.bind_ok hentries
  cases hr₄
  cases halloc
  obtain ⟨-, rfl⟩ := table_ok htable
  have h₁ : m.Settles (m.alloc (.hash .empty)).2 (m.heap.next :: held) :=
    Orderly.alloc _ hm rfl List.nodup_nil
  refine Run.forM_ok (fun _ m' => m.Settles m' (m.heap.next :: held)) (fun e _ m₁ m₂ h₁ he => ?_)
    h₁ hloop
  obtain ⟨v, m₃, hcopy, hput⟩ := Run.bind_ok he
  have h₂ := h₁.orderly.newCopy hcopy
  exact h₁.trans (h₂.trans (h₂.orderly.hashPut hput))

/-- A duplicate of a value that is there belongs to the caller. -/
theorem Orderly.duplicate (hm : m.Orderly held) (hf : m.isFreed h = false)
    (hr : duplicate h m = .ok k m') : m.Settles m' (k :: held) := by
  simp only [Machine.duplicate, Run.look_bind] at hr
  cases hkind : m.kind h <;> rw [hkind] at hr
  case array => exact hm.copyArray hr
  case hash => exact hm.copyHash hr
  case scalar => exact hm.newCopy hr
  case unknown => exact hm.newCopy hr
  all_goals
    cases hr
    exact hm.retain hf

end ValueMachine.Machine

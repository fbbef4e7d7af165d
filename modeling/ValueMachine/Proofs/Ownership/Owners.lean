import Mathlib.Tactic
import ValueMachine.Machine.Lifecycle

/-! Who owns a value. The owners of a value are the places that hold one count on it: target slots,
array slots, hash entries, captured handles, globals and temporaries, of every interpreter. A state
is orderly if the count of every value is the number of its owners, in the machine and outside, and
a value is freed exactly when it has none. -/

namespace ValueMachine

namespace Heap

/-- The places in the heap that own a value. -/
def owners (H : Heap) (h : Handle) : Nat := (H.cells.toList.flatMap (·.body.owned)).count h

/-- The values that are neither shared nor freed. -/
def living (H : Heap) : Nat := H.cells.toList.countP fun c => !c.immortal && !c.body.isFreed

theorem get_of_size_le (H : Heap) {h : Handle} (hs : H.size ≤ h.index) : H.get h = .freed := by
  simp only [size] at hs
  simp [get, Array.getD_eq_getD_getElem?, Array.getElem?_eq_none hs]

theorem get_eq_getElem (H : Heap) {h : Handle} (hs : h.index < H.cells.toList.length) :
    H.get h = H.cells.toList[h.index] := by
  simp only [Array.length_toList] at hs
  simp [get, Array.getD_eq_getD_getElem?, hs]

theorem set_of_size_le (H : Heap) {h : Handle} (c : Cell) (hs : H.size ≤ h.index) :
    H.set h c = H := by
  simp only [size] at hs
  simp [set, Array.setIfInBounds, Nat.not_lt.2 hs]

theorem get_set (H : Heap) (h k : Handle) (c : Cell) :
    (H.set h c).get k = if k = h ∧ h.index < H.size then c else H.get k := by
  by_cases hk : k = h
  · subst hk
    by_cases hs : k.index < H.size
    · rw [get_set_self H k c hs, if_pos ⟨rfl, hs⟩]
    · rw [set_of_size_le H c (by omega), if_neg (by tauto)]
  · rw [get_set_ne H h k c hk, if_neg (by tauto)]

theorem get_push (H : Heap) (k : Handle) (c : Cell) :
    (H.push c).get k = if k = H.next then c else H.get k := by
  split
  next hk => rw [hk, get_push_next]
  next hk => rw [get_push_ne H k c hk]

@[simp] theorem get_next (H : Heap) : H.get H.next = .freed :=
  get_of_size_le H le_rfl

/-- The cells around a place. -/
theorem exists_split (H : Heap) {h : Handle} (hs : h.index < H.size) :
    ∃ before after, H.cells.toList = before ++ H.get h :: after ∧
      ∀ c, (H.set h c).cells.toList = before ++ c :: after := by
  have hlen : h.index < H.cells.toList.length := by simpa [size] using hs
  refine ⟨H.cells.toList.take h.index, H.cells.toList.drop (h.index + 1), ?_, fun c => ?_⟩
  · rw [get_eq_getElem H hlen, List.getElem_cons_drop, List.take_append_drop]
  · rw [set, Array.toList_setIfInBounds, List.set_eq_take_append_cons_drop, if_pos hlen]

/-- Overwriting a cell replaces the places that the former body owned by those of the new one. -/
theorem owners_set (H : Heap) {h : Handle} (hs : h.index < H.size) (c : Cell) (k : Handle) :
    (H.set h c).owners k + (H.get h).body.owned.count k = H.owners k + c.body.owned.count k := by
  obtain ⟨before, after, hcells, hset⟩ := H.exists_split hs
  simp only [owners, hset c]
  rw [hcells]
  simp only [List.flatMap_append, List.flatMap_cons, List.count_append]
  omega

theorem owners_pos (H : Heap) {h k : Handle} (hk : k ∈ (H.get h).body.owned) :
    0 < H.owners k := by
  have hs : h.index < H.cells.toList.length := by
    by_contra hs
    rw [H.get_of_size_le (by simpa [size] using hs)] at hk
    cases hk
  refine List.count_pos_iff.2 (List.mem_flatMap.2 ⟨H.get h, ?_, hk⟩)
  rw [H.get_eq_getElem hs]
  exact List.getElem_mem hs

theorem owners_push (H : Heap) (c : Cell) (k : Handle) :
    (H.push c).owners k = H.owners k + c.body.owned.count k := by
  simp [owners, push, List.count_append]

end Heap

/-- The handles that an interpreter owns a count on. -/
def Interp.owned (i : Interp) : List Handle :=
  i.symbols.flatMap (·.2.owned) ++ i.temps.toList ++ i.modules.flatMap (·.2.captures)

/-- A hash has a key once. -/
def Body.Keyed : Body → Prop
  | .hash t => t.keys.Nodup
  | _ => True

namespace Machine

/-- The places in the machine that own a value. -/
def owners (m : Machine) (h : Handle) : Nat :=
  m.heap.owners h + m.interp.owned.count h + (m.others.flatMap (·.2.owned)).count h

/-- The interpreters with their numbers, the one in focus first. -/
def interps (m : Machine) : List (InterpId × Interp) := (m.here, m.interp) :: m.others

/-- Whether a value is gone. -/
def isFreed (m : Machine) (h : Handle) : Bool := (m.body h).isFreed

/-- The values that are neither shared nor freed. -/
def living (m : Machine) : Finset Handle :=
  ((Finset.range m.heap.size).image Handle.mk).filter fun h =>
    (m.cell h).immortal = false ∧ m.isFreed h = false

/-- The values that live on the interpreter in focus are all values alive. -/
def Tally (m : Machine) : Prop := m.heap.living = m.interp.live

/-- No release hook touches the dying value. -/
def Harmless (m : Machine) : Prop :=
  ∀ h, ∀ g ∈ (m.cell h).magic, FreeAction.touch ∉ g.table.onFree

/-- The machine and the counts held outside of it are in order, but for a value that is dying: its
count is gone and its body is still there. -/
structure Orderly (m : Machine) (held : List Handle) (dying : Option Handle := none) : Prop where
  /-- The count of a value is the number of its owners. -/
  count_eq : ∀ h, (m.cell h).immortal = false → (m.cell h).count = m.owners h + held.count h
  /-- A value without a count is freed. -/
  freed_iff : ∀ h, (m.cell h).immortal = false → some h ≠ dying →
    (m.isFreed h = true ↔ (m.cell h).count = 0)
  /-- Shared values stay. -/
  shared : ∀ h, (m.cell h).immortal = true → m.isFreed h = false
  harmless : m.Harmless
  keyed : ∀ h, (m.body h).Keyed
  /-- A name has one glob. -/
  names : ∀ i ∈ m.interp :: m.others.map (·.2), (i.symbols.map (·.1)).Nodup
  /-- An interpreter is there once. -/
  ids : (m.here :: m.others.map (·.1)).Nodup

/-- What is freed stays freed, what is shared stays shared, and places stay. -/
structure Ages (m m' : Machine) : Prop where
  size_le : m.heap.size ≤ m'.heap.size
  isFreed : ∀ h, h.index < m.heap.size → m.isFreed h = true → m'.isFreed h = true
  immortal : ∀ h, h.index < m.heap.size → (m'.cell h).immortal = (m.cell h).immortal

/-- Only the interpreter in focus counts. It counts the values that come and those that go, as long as
it counts no fewer than go. -/
structure Counts (m m' : Machine) : Prop where
  others : m'.others = m.others
  here : m'.here = m.here
  living_eq : m.living.card ≤ m.interp.live + (m.living ∩ m'.living).card →
    m'.living.card + m.interp.live = m'.interp.live + m.living.card

/-- A machine comes from another in order, with these counts held outside. -/
structure Settles (m m' : Machine) (held : List Handle) (dying : Option Handle := none) : Prop where
  orderly : m'.Orderly held dying
  counts : m.Counts m'
  ages : m.Ages m'

variable {m m' m₁ m₂ m₃ : Machine} {h : Handle}

/-- What a body in the heap owns has an owner. -/
theorem owners_pos_of_mem_owned (m : Machine) {k : Handle} (hk : k ∈ (m.body h).owned) :
    0 < m.owners k := by
  have := m.heap.owners_pos hk
  simp only [owners]
  omega

theorem index_lt_of_not_isFreed (hf : m.isFreed h = false) : h.index < m.heap.size := by
  by_contra hs
  rw [isFreed, body, cell, m.heap.get_of_size_le (by omega)] at hf
  cases hf

/-! ### The living -/

theorem mem_living : h ∈ m.living ↔ (m.cell h).immortal = false ∧ m.isFreed h = false := by
  rw [living, Finset.mem_filter]
  refine and_iff_right_of_imp fun hh => Finset.mem_image_of_mem Handle.mk (Finset.mem_range.2 ?_)
  exact index_lt_of_not_isFreed hh.2

theorem index_lt_of_mem_living (hh : h ∈ m.living) : h.index < m.heap.size :=
  index_lt_of_not_isFreed (mem_living.1 hh).2

theorem living_congr (heap : m'.heap = m.heap) : m'.living = m.living := by
  ext h
  rw [mem_living, mem_living, isFreed, isFreed, body, body, cell, cell, heap]

theorem card_living (m : Machine) : m.living.card = m.heap.living := by
  have hcells : m.heap.cells.toList = (List.range m.heap.size).map fun i => m.cell ⟨i⟩ := by
    refine List.ext_getElem (by simp [Heap.size]) fun i hi _ => ?_
    rw [List.getElem_map, List.getElem_range, cell, m.heap.get_eq_getElem hi]
  have hinj : Function.Injective Handle.mk := fun i j hij => by injection hij
  rw [Heap.living, hcells, List.countP_map, List.countP_eq_length_filter,
    ← List.toFinset_card_of_nodup (List.nodup_range.filter _),
    ← Finset.card_image_of_injective _ hinj]
  congr 1
  ext h
  simp only [mem_living, Finset.mem_image, List.mem_toFinset, List.mem_filter, List.mem_range,
    Function.comp_apply, Bool.and_eq_true, Bool.not_eq_true']
  constructor
  · exact fun hh => ⟨h.index, ⟨index_lt_of_not_isFreed hh.2, hh⟩, rfl⟩
  · rintro ⟨i, ⟨-, hi⟩, rfl⟩
    exact hi

namespace Ages

theorem refl (m : Machine) : m.Ages m := ⟨le_rfl, fun _ _ h => h, fun _ _ => rfl⟩

theorem trans (h : m₁.Ages m₂) (h' : m₂.Ages m₃) : m₁.Ages m₃ :=
  ⟨h.size_le.trans h'.size_le,
    fun k hk hf => h'.isFreed k (hk.trans_le h.size_le) (h.isFreed k hk hf),
    fun k hk => (h'.immortal k (hk.trans_le h.size_le)).trans (h.immortal k hk)⟩

theorem of_heap_eq (h : m'.heap = m.heap) : m.Ages m' :=
  ⟨by rw [h], fun k _ hf => by rwa [Machine.isFreed, body, cell, h],
    fun k _ => by rw [cell, cell, h]⟩

/-- A value of old that is living has been living all the time. -/
theorem mem_living (ha : m.Ages m') (hs : h.index < m.heap.size) (hh : h ∈ m'.living) :
    h ∈ m.living := by
  obtain ⟨hi, hf⟩ := Machine.mem_living.1 hh
  rw [Machine.mem_living, ← ha.immortal h hs]
  refine ⟨hi, ?_⟩
  by_contra hfreed
  rw [ha.isFreed h hs (by simpa using hfreed)] at hf
  cases hf

end Ages

namespace Counts

theorem of_eq (living : m'.living = m.living) (live : m'.interp.live = m.interp.live)
    (others : m'.others = m.others) (here : m'.here = m.here) : m.Counts m' where
  others := others
  here := here
  living_eq _ := by rw [living, live, Nat.add_comm]

theorem refl (m : Machine) : m.Counts m := of_eq rfl rfl rfl rfl

theorem trans (h : m₁.Counts m₂) (h' : m₂.Counts m₃) (ha : m₁.Ages m₂) (ha' : m₂.Ages m₃) :
    m₁.Counts m₃ where
  others := h'.others.trans h.others
  here := h'.here.trans h.here
  living_eq hle := by
    have hstay : m₁.living ∩ m₃.living ⊆ m₂.living := fun k hk => by
      obtain ⟨hk₁, hk₃⟩ := Finset.mem_inter.1 hk
      exact ha'.mem_living ((index_lt_of_mem_living hk₁).trans_le ha.size_le) hk₃
    have hfirst := Finset.card_le_card (Finset.subset_inter Finset.inter_subset_left hstay)
    have hsecond := Finset.card_le_card (Finset.subset_inter hstay Finset.inter_subset_right)
    have := h.living_eq (by omega)
    have := h'.living_eq (by omega)
    omega

theorem tally (h : m.Counts m') (ht : m.Tally) : m'.Tally := by
  unfold Tally at ht ⊢
  rw [← card_living] at ht ⊢
  have := h.living_eq (by omega)
  omega

end Counts

namespace Settles

variable {held held' : List Handle} {dying dying' : Option Handle}

theorem tally (h : m₁.Settles m₂ held dying) (ht : m₁.Tally) : m₂.Tally := h.counts.tally ht

theorem refl (h : m₁.Orderly held dying) : m₁.Settles m₁ held dying := ⟨h, .refl m₁, .refl m₁⟩

theorem trans (h : m₁.Settles m₂ held dying) (h' : m₂.Settles m₃ held' dying') :
    m₁.Settles m₃ held' dying' :=
  ⟨h'.orderly, h.counts.trans h'.counts h.ages h'.ages, h.ages.trans h'.ages⟩

end Settles

namespace Orderly

variable {held held' : List Handle} {dying : Option Handle}

theorem index_lt_of_owners_ne_zero (hm : m.Orderly held dying)
    (ho : m.owners h + held.count h ≠ 0) : h.index < m.heap.size := by
  by_contra hs
  have hc : m.cell h = .freed := m.heap.get_of_size_le (by omega)
  have := hm.count_eq h (by rw [hc]; rfl)
  rw [hc] at this
  exact ho this.symm

/-- Only how often each handle is held outside matters. -/
theorem perm (hm : m.Orderly held dying) (hp : held.Perm held') : m.Orderly held' dying :=
  { hm with count_eq := fun h hi => by rw [hm.count_eq h hi, hp.count_eq h] }

/-- What is no part of the heap, of the owned handles and of the symbol tables does not matter. -/
theorem congr (hm : m.Orderly held dying) (heap : m'.heap = m.heap)
    (owned : m'.interp.owned = m.interp.owned) (symbols : m'.interp.symbols = m.interp.symbols)
    (others : m'.others = m.others) (here : m'.here = m.here) : m'.Orderly held dying where
  count_eq h := by simpa only [cell, owners, heap, owned, others] using hm.count_eq h
  freed_iff h := by simpa only [cell, body, isFreed, heap] using hm.freed_iff h
  shared h := by simpa only [cell, body, isFreed, heap] using hm.shared h
  harmless := by simpa only [Harmless, cell, heap] using hm.harmless
  keyed h := by simpa only [body, cell, heap] using hm.keyed h
  names := by
    intro i hi
    rw [others] at hi
    rcases List.mem_cons.1 hi with rfl | hi
    · rw [symbols]
      exact hm.names _ (List.mem_cons_self ..)
    · exact hm.names _ (List.mem_cons_of_mem _ hi)
  ids := by rw [here, others]; exact hm.ids

theorem index_lt_of_mem_owned (hm : m.Orderly held dying) {h k : Handle}
    (hk : k ∈ (m.body h).owned) : k.index < m.heap.size := by
  have := m.owners_pos_of_mem_owned hk
  exact hm.index_lt_of_owners_ne_zero (by omega)

theorem settles_of_eq (hm : m.Orderly held dying) (heap : m'.heap = m.heap)
    (owned : m'.interp.owned = m.interp.owned) (symbols : m'.interp.symbols = m.interp.symbols)
    (live : m'.interp.live = m.interp.live) (others : m'.others = m.others)
    (here : m'.here = m.here) : m.Settles m' held dying :=
  ⟨hm.congr heap owned symbols others here, .of_eq (living_congr heap) live others here,
    .of_heap_eq heap⟩

end Orderly

theorem Settles.perm {held held' : List Handle} {dying : Option Handle}
    (h : m.Settles m' held dying) (hp : held.Perm held') : m.Settles m' held' dying :=
  { h with orderly := h.orderly.perm hp }

end Machine

end ValueMachine

import ValueMachine.Proofs.Custody.Calls

/-! The custody of all values but some, which are set aside. Nothing in the machine refers to those,
and their cells stay as they are, as long as the other values are used. Where nothing is set aside,
this says that every handle in the machine denotes a place of the heap. -/

namespace ValueMachine

namespace Machine

/-- A value, a global, a stack or another part of an interpreter refers to a handle. -/
def Refers (m : Machine) (h : Handle) : Prop :=
  (∃ k, h ∈ (m.body k).owned) ∨ h ∈ m.interp.places ∨ ∃ p ∈ m.others, h ∈ p.2.places

/-- Every handle in the machine denotes a place of the heap. -/
def Closed (m : Machine) : Prop := ∀ h, m.Refers h → h.index < m.heap.size

/-- A handle of a place that is not set aside. -/
def Usable (m : Machine) (aside : List (Handle × Cell)) (h : Handle) : Prop :=
  h.index < m.heap.size ∧ ∀ c, (h, c) ∉ aside

/-- Some cells are set aside. The handles in the machine and those in hand are of other places. -/
structure Apart (floor : Nat) (aside : List (Handle × Cell)) (held : List Handle) (m : Machine) :
    Prop where
  /-- The heap has grown to this size. -/
  floor_le : floor ≤ m.heap.size
  held : ∀ {h}, h ∈ held → m.Usable aside h
  refers : ∀ {h}, m.Refers h → m.Usable aside h
  within : ∀ {h c}, (h, c) ∈ aside → h.index < m.heap.size
  kept : ∀ {h c}, (h, c) ∈ aside → m.cell h = c
  above : ∀ {h c}, (h, c) ∈ aside → floor ≤ h.index
  nodup : (aside.map (·.1)).Nodup

variable {m m' : Machine} {floor : Nat} {aside : List (Handle × Cell)} {held held' : List Handle}
  {h : Handle} {b : Body}

theorem Apart.not_refers {c : Cell} (hm : m.Apart floor aside held) (ha : (h, c) ∈ aside) :
    ¬ m.Refers h := fun hr => (hm.refers hr).2 c ha

theorem Closed.apart (hm : m.Closed) (hheld : ∀ h ∈ held, h.index < m.heap.size) :
    m.Apart m.heap.size [] held where
  floor_le := le_rfl
  held hh := ⟨hheld _ hh, fun _ => List.not_mem_nil⟩
  refers hr := ⟨hm _ hr, fun _ => List.not_mem_nil⟩
  within ha := absurd ha List.not_mem_nil
  kept ha := absurd ha List.not_mem_nil
  above ha := absurd ha List.not_mem_nil
  nodup := List.nodup_nil

/-- What the machine refers to is taken in hand. -/
theorem Apart.hold (hm : m.Apart floor aside held) (hr : ∀ h ∈ held', m.Refers h) :
    m.Apart floor aside (held' ++ held) :=
  { hm with
    held := fun hh => (List.mem_append.1 hh).elim (fun hh => hm.refers (hr _ hh)) hm.held }

theorem Apart.closed (hm : m.Apart floor aside held) : m.Closed := fun _ hr => (hm.refers hr).1

/-- The heap stays, and no handles come into the machine but those in hand. -/
theorem Apart.of_heap_eq (hm : m.Apart floor aside held) (heap : m'.heap = m.heap)
    (hsub : held' ⊆ held) (hr : ∀ {h}, m'.Refers h → m.Refers h ∨ h ∈ held) :
    m'.Apart floor aside held' := by
  have husable {h : Handle} (h' : m.Usable aside h) : m'.Usable aside h := ⟨heap ▸ h'.1, h'.2⟩
  constructor
  · rw [heap]
    exact hm.floor_le
  · exact fun hh => husable (hm.held (hsub hh))
  · intro h hh
    rcases hr hh with hh | hh
    · exact husable (hm.refers hh)
    · exact husable (hm.held hh)
  · rw [heap]
    exact hm.within
  · intro h c ha
    rw [cell, heap]
    exact hm.kept ha
  · exact hm.above
  · exact hm.nodup

end Machine

open Machine

/-- Custody of all values but those set aside. -/
def Custody.apart (floor : Nat) (aside : List (Handle × Cell)) : Custody where
  Holds held m := m.Apart floor aside held
  Stops _ _ := True

variable {m m' : Machine} {floor : Nat} {aside : List (Handle × Cell)} {held held' : List Handle}
  {h : Handle} {b : Body}

/-- A cell in hand changes to what refers to handles in hand only. -/
theorem Machine.Apart.set {c : Cell} (hm : m.Apart floor aside held) (hh : h ∈ held)
    (hc : c.body.owned ⊆ (m.body h).owned ++ held) :
    (m.onHeap (·.set h c)).Apart floor aside held := by
  have husable {k : Handle} (hk : m.Usable aside k) :
      (m.onHeap (·.set h c)).Usable aside k := by
    refine ⟨?_, hk.2⟩
    rw [heap_onHeap, Heap.size_set]
    exact hk.1
  constructor
  · rw [heap_onHeap, Heap.size_set]
    exact hm.floor_le
  · exact fun hk => husable (hm.held hk)
  · rintro k (⟨j, hk⟩ | hk)
    · simp only [body, cell, heap_onHeap, Heap.get_set] at hk
      split at hk
      · rcases List.mem_append.1 (hc hk) with hk | hk
        · exact husable (hm.refers (.inl ⟨h, hk⟩))
        · exact husable (hm.held hk)
      · exact husable (hm.refers (.inl ⟨j, hk⟩))
    · exact husable (hm.refers (.inr hk))
  · rw [heap_onHeap, Heap.size_set]
    exact hm.within
  · intro k c' ha
    have hne : k ≠ h := fun e => (hm.held hh).2 c' (e ▸ ha)
    simp only [cell, heap_onHeap, Heap.get_set, hne, false_and, if_false]
    exact hm.kept ha
  · exact hm.above
  · exact hm.nodup

/-- What refers to something after a new value has been made. -/
theorem Machine.Refers.of_alloc {k : Handle} (hr : (m.alloc b).2.Refers k) :
    m.Refers k ∨ k ∈ b.owned := by
  rcases hr with ⟨j, hk⟩ | hk
  · by_cases hj : j = m.heap.next
    · subst hj
      simp only [body, cell, Machine.alloc, Heap.get_push, if_true, Cell.fresh] at hk
      exact .inr hk
    · rw [body_alloc m b hj] at hk
      exact .inl (.inl ⟨j, hk⟩)
  · exact .inl (.inr hk)

theorem Machine.Apart.alloc (hm : m.Apart floor aside held) (hb : b.owned ⊆ held) :
    (m.alloc b).2.Apart floor aside (m.heap.next :: held) := by
  have hsize : (m.alloc b).2.heap.size = m.heap.size + 1 := Heap.size_push _ _
  have husable {k : Handle} (hk : m.Usable aside k) : (m.alloc b).2.Usable aside k :=
    ⟨by have := hk.1; omega, hk.2⟩
  constructor
  · have := hm.floor_le
    omega
  · intro k hk
    rcases List.mem_cons.1 hk with rfl | hk
    · refine ⟨?_, fun c ha => Nat.lt_irrefl _ (hm.within ha)⟩
      rw [hsize]
      exact Nat.lt_succ_self _
    · exact husable (hm.held hk)
  · intro k hk
    rcases hk.of_alloc with hk | hk
    · exact husable (hm.refers hk)
    · exact husable (hm.held (hb hk))
  · intro k c ha
    have := hm.within ha
    omega
  · intro k c ha
    have hne : k ≠ m.heap.next := fun e => Nat.lt_irrefl _ (e ▸ hm.within ha)
    rw [← hm.kept ha]
    simp only [cell, Machine.alloc, Heap.get_push, if_neg hne]
  · exact hm.above
  · exact hm.nodup

/-- A new value is set aside. -/
theorem Machine.Apart.allocAside (hm : m.Apart floor aside held) (hb : b.owned ⊆ held) :
    (m.alloc b).2.Apart floor ((m.heap.next, .fresh b) :: aside) held := by
  have halloc := hm.alloc hb
  have hold {k : Handle} (hk : m.Usable aside k) :
      (m.alloc b).2.Usable ((m.heap.next, .fresh b) :: aside) k := by
    refine ⟨?_, fun c ha => ?_⟩
    · have hsize : (m.alloc b).2.heap.size = m.heap.size + 1 := Heap.size_push _ _
      have := hk.1
      omega
    · rcases List.mem_cons.1 ha with ha | ha
      · have hnext : k = m.heap.next := congrArg Prod.fst ha
        exact Nat.lt_irrefl _ (hnext ▸ hk.1)
      · exact hk.2 c ha
  constructor
  · exact halloc.floor_le
  · exact fun hk => hold (hm.held hk)
  · intro k hk
    rcases hk.of_alloc with hk | hk
    · exact hold (hm.refers hk)
    · exact hold (hm.held (hb hk))
  · intro k c ha
    rcases List.mem_cons.1 ha with ha | ha
    · cases ha
      exact (halloc.held List.mem_cons_self).1
    · exact halloc.within ha
  · intro k c ha
    rcases List.mem_cons.1 ha with ha | ha
    · cases ha
      simp [cell, Machine.alloc, Heap.get_push]
    · exact halloc.kept ha
  · intro k c ha
    rcases List.mem_cons.1 ha with ha | ha
    · cases ha
      exact hm.floor_le
    · exact hm.above ha
  · refine List.nodup_cons.2 ⟨fun hnext => ?_, hm.nodup⟩
    obtain ⟨⟨k, c⟩, ha, rfl⟩ := List.mem_map.1 hnext
    exact Nat.lt_irrefl _ (hm.within ha)

theorem Machine.Refers.of_focus {i : InterpId} (hr : (m.focus i).Refers h) : m.Refers h := by
  unfold Machine.focus at hr
  split at hr
  · exact hr
  · split at hr
    next j other hfind =>
      have hmem := List.mem_of_find?_eq_some hfind
      rcases hr with hr | hr | ⟨p, hp, hr⟩
      · exact .inl hr
      · exact .inr (.inr ⟨_, hmem, hr⟩)
      · rcases List.mem_cons.1 hp with rfl | hp
        · exact .inr (.inl hr)
        · exact .inr (.inr ⟨p, List.mem_of_mem_filter hp, hr⟩)
    next => exact hr

theorem Custody.apart_lawful (floor : Nat) (aside : List (Handle × Cell)) :
    (Custody.apart floor aside).Lawful where
  mono hsub hm := hm.of_heap_eq rfl hsub .inl
  raised _ := trivial
  alloc hb hm := hm.alloc hb
  set hh hc hm := hm.set hh hc
  onInterp hf hm := hm.of_heap_eq rfl (List.Subset.refl _) fun hr => by
    rcases hr with hr | hr | hr
    · exact .inl (.inl hr)
    · exact (List.mem_append.1 (hf hr)).imp_left fun hr => .inr (.inl hr)
    · exact .inl (.inr (.inr hr))
  aside _ _ _ hm := hm.of_heap_eq rfl (List.Subset.refl _) .inl
  focus i hm := hm.of_heap_eq (heap_focus _ i) (List.Subset.refl _) fun hr => .inl hr.of_focus
  owned _ hm := hm.hold fun _ hk => .inl ⟨_, hk⟩
  places hm := hm.hold fun _ hk => .inr (.inl hk)

end ValueMachine

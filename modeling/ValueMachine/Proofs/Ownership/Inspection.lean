import ValueMachine.Proofs.Ownership.Owners

/-! Whether a machine is in order can be computed. Everything beyond the heap is freed and owns
nothing, so only the places in the heap need to be inspected. -/

namespace ValueMachine

instance (b : Body) : Decidable b.Keyed :=
  match b with
  | .hash t => inferInstanceAs (Decidable t.keys.Nodup)
  | .scalar _ | .array _ | .code _ | .format | .io | .freed => inferInstanceAs (Decidable True)

namespace Machine

variable {m : Machine} {held : List Handle} {h : Handle}

/-- The handles that the machine owns a count on, as often as it does. -/
def referred (m : Machine) : List Handle :=
  m.heap.cells.toList.flatMap (·.body.owned) ++ m.interp.owned ++ m.others.flatMap (·.2.owned)

theorem count_referred (m : Machine) (h : Handle) : m.referred.count h = m.owners h := by
  simp only [referred, owners, Heap.owners, List.count_append]

/-- A value is in order. -/
def Regular (m : Machine) (held : List Handle) (h : Handle) : Prop :=
  ((m.cell h).immortal = false → (m.cell h).count = m.owners h + held.count h ∧
    (m.isFreed h = true ↔ (m.cell h).count = 0)) ∧
  ((m.cell h).immortal = true → m.isFreed h = false) ∧
  (∀ g ∈ (m.cell h).magic, FreeAction.touch ∉ g.table.onFree) ∧ (m.body h).Keyed

instance : Decidable (m.Regular held h) := by unfold Regular; infer_instance

theorem Regular.of_size_le (hs : m.heap.size ≤ h.index)
    (hlt : ∀ k ∈ m.referred ++ held, k.index < m.heap.size) : m.Regular held h := by
  have hcell : m.cell h = .freed := m.heap.get_of_size_le hs
  have hnone : h ∉ m.referred ++ held := fun hmem => by
    have := hlt h hmem
    omega
  have hcount := List.count_eq_zero.2 hnone
  rw [List.count_append, count_referred] at hcount
  refine ⟨fun _ => ⟨by rw [hcell, hcount]; rfl, ?_⟩, ?_, ?_, ?_⟩
  all_goals simp [isFreed, body, hcell, Cell.freed, Body.isFreed, Body.Keyed]

theorem orderly_iff : m.Orderly held ↔
    (∀ k ∈ m.referred ++ held, k.index < m.heap.size) ∧
    (∀ i ∈ List.range m.heap.size, m.Regular held ⟨i⟩) ∧
    (∀ i ∈ m.interp :: m.others.map (·.2), (i.symbols.map (·.1)).Nodup) ∧
    (m.here :: m.others.map (·.1)).Nodup := by
  constructor
  · intro hm
    refine ⟨fun k hk => hm.index_lt_of_owners_ne_zero ?_, fun i _ => ?_, hm.names, hm.ids⟩
    · have := List.count_pos_iff.2 hk
      rw [List.count_append, count_referred] at this
      omega
    · exact ⟨fun hi => ⟨hm.count_eq _ hi, hm.freed_iff _ hi (by simp)⟩, hm.shared _, hm.harmless _,
        hm.keyed _⟩
  · rintro ⟨hlt, hcells, hnames, hids⟩
    have hregular (h : Handle) : m.Regular held h := by
      rcases Nat.lt_or_ge h.index m.heap.size with hs | hs
      · exact hcells h.index (List.mem_range.2 hs)
      · exact .of_size_le hs hlt
    exact {
      count_eq := fun h hi => ((hregular h).1 hi).1
      freed_iff := fun h hi _ => ((hregular h).1 hi).2
      shared := fun h => (hregular h).2.1
      harmless := fun h => (hregular h).2.2.1
      keyed := fun h => (hregular h).2.2.2
      names := hnames
      ids := hids }

instance : Decidable (m.Orderly held) := decidable_of_iff _ orderly_iff.symm

end Machine

end ValueMachine

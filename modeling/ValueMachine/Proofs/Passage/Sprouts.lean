import ValueMachine.Proofs.Passage.Groves

/-! New values. A machine sprouts when values are made in it and the others stay as they are; a
container is filled tree by tree. Once the root of a new tree is given up, the machine is as it was
but for places that nothing is in any more. -/

namespace ValueMachine.Machine

variable {m m₁ m₂ m' : Machine} {h k a : Handle} {b b' : Body} {s : Scalar}
  {hs ks places places' : List Handle} {f : Form} {fs gs : List Form}

/-- A machine in which values have been made: each is at a new place and has one count, and all
others are as they were. -/
structure Sprouts (m m' : Machine) (places : List Handle) : Prop where
  rest : m' = { m with heap := m'.heap, interp := { m.interp with live := m'.interp.live } }
  live : m'.interp.live = m.interp.live + places.length
  size_le : m.heap.size ≤ m'.heap.size
  cell : ∀ k ∉ places, m'.cell k = m.cell k
  new : ∀ k ∈ places, m.heap.size ≤ k.index
  one : ∀ k ∈ places, (m'.cell k).count = 1
  nodup : places.Nodup

/-- A machine with every value as it was. Its heap may have grown by places that were given up. -/
structure Regained (m m' : Machine) : Prop where
  rest : m' = { m with heap := m'.heap }
  cell : ∀ k, m'.cell k = m.cell k

theorem Regained.live (h : m.Regained m') : m'.interp.live = m.interp.live := by rw [h.rest]

theorem cell_of_size_le (hs : m.heap.size ≤ h.index) : m.cell h = .freed :=
  m.heap.get_of_size_le hs

theorem cell_setBody_ne (b : Body) (hk : k ≠ h) : (m.setBody h b).cell k = m.cell k :=
  Heap.get_set_ne _ _ _ _ hk

theorem cell_setBody (b : Body) (hs : h.index < m.heap.size) :
    (m.setBody h b).cell h = { m.cell h with body := b } :=
  Heap.get_set_self _ _ _ hs

theorem cell_alloc_ne (b : Body) (hk : k ≠ m.heap.next) : (m.alloc b).2.cell k = m.cell k :=
  Heap.get_push_ne _ _ _ hk

theorem cell_alloc (m : Machine) (b : Body) : (m.alloc b).2.cell m.heap.next = .fresh b :=
  Heap.get_push_next _ _

theorem Bare.fresh (hc : m.cell h = .fresh b) : m.Bare h b where
  body := congrArg Cell.body hc
  counted := congrArg Cell.immortal hc
  count_ne_zero := by rw [hc]; exact Nat.one_ne_zero
  magic := congrArg Cell.magic hc

theorem Bare.setBody (hb : m.Bare h b) (b' : Body) : (m.setBody h b').Bare h b' where
  body := body_setBody b' hb.index_lt
  counted := by rw [cell_setBody b' hb.index_lt]; exact hb.counted
  count_ne_zero := by rw [cell_setBody b' hb.index_lt]; exact hb.count_ne_zero
  magic := by rw [cell_setBody b' hb.index_lt]; exact hb.magic

/-- A grove stays where its cells do. -/
theorem Grove.congr_cell (hg : m.Grove hs fs places) (hcell : ∀ k ∈ places, m'.cell k = m.cell k) :
    m'.Grove hs fs places :=
  hg.congr fun k hk => hcell k hk ▸ .refl _

namespace Sprouts

/-- The place of a new value is in the heap. -/
theorem index_lt (hm : m.Sprouts m' places) (hk : k ∈ places) : k.index < m'.heap.size := by
  by_contra hs
  have hone := hm.one k hk
  rw [cell_of_size_le (Nat.not_lt.1 hs)] at hone
  cases hone

/-- A value of old is at none of the new places. -/
theorem notMem_of_lt (hm : m.Sprouts m' places) (hs : k.index < m.heap.size) : k ∉ places :=
  fun hk => absurd (hm.new k hk) (Nat.not_le.2 hs)

/-- The interpreter in focus lives on. -/
theorem alive (hm : m.Sprouts m' places) (hlive : m.isAlive m.here) : m'.isAlive m'.here := by
  rw [hm.rest]
  exact hlive

theorem trans (hm : m.Sprouts m₁ places) (hm₁ : m₁.Sprouts m₂ places') :
    m.Sprouts m₂ (places ++ places') where
  rest := hm₁.rest.trans (congrArg (fun x : Machine =>
    { x with heap := m₂.heap, interp := { x.interp with live := m₂.interp.live } }) hm.rest)
  live := by rw [hm₁.live, hm.live, List.length_append, Nat.add_assoc]
  size_le := hm.size_le.trans hm₁.size_le
  cell k hk := by
    obtain ⟨hk, hk'⟩ := not_or.1 (List.mem_append.not.1 hk)
    rw [hm₁.cell k hk', hm.cell k hk]
  new k hk := by
    rcases List.mem_append.1 hk with hk | hk
    · exact hm.new k hk
    · exact hm.size_le.trans (hm₁.new k hk)
  one k hk := by
    rcases List.mem_append.1 hk with hk | hk
    · rw [hm₁.cell k (hm₁.notMem_of_lt (hm.index_lt hk))]
      exact hm.one k hk
    · exact hm₁.one k hk
  nodup := List.nodup_append.2 ⟨hm.nodup, hm₁.nodup, fun k hk k' hk' he =>
    hm₁.notMem_of_lt (hm.index_lt hk) (he ▸ hk')⟩

theorem perm (hm : m.Sprouts m' places) (hp : places.Perm places') : m.Sprouts m' places' where
  rest := hm.rest
  live := by rw [hm.live, hp.length_eq]
  size_le := hm.size_le
  cell k hk := hm.cell k (hp.mem_iff.not.2 hk)
  new k hk := hm.new k (hp.mem_iff.2 hk)
  one k hk := hm.one k (hp.mem_iff.2 hk)
  nodup := hp.nodup_iff.1 hm.nodup

theorem alloc (m : Machine) (b : Body) : m.Sprouts (m.alloc b).2 [m.heap.next] where
  rest := rfl
  live := rfl
  size_le := by simp [Machine.alloc]
  cell k hk := cell_alloc_ne b (List.mem_singleton.not.1 hk)
  new k hk := by cases List.mem_singleton.1 hk; exact le_rfl
  one k hk := by cases List.mem_singleton.1 hk; rw [cell_alloc]; rfl
  nodup := List.nodup_singleton _

/-- A new value may change. -/
theorem setBody (hm : m.Sprouts m' places) (ha : a ∈ places) (b : Body) :
    m.Sprouts (m'.setBody a b) places where
  rest := congrArg (fun x : Machine => { x with heap := (m'.setBody a b).heap }) hm.rest
  live := hm.live
  size_le := by simpa [Machine.setBody, onHeap, Heap.update] using hm.size_le
  cell k hk := by rw [cell_setBody_ne b (ne_of_mem_of_not_mem ha hk).symm, hm.cell k hk]
  new := hm.new
  one k hk := by
    by_cases hka : k = a
    · subst hka
      rw [cell_setBody b (hm.index_lt hk)]
      exact hm.one k hk
    · rw [cell_setBody_ne b hka]
      exact hm.one k hk
  nodup := hm.nodup

/-- A new value may go again. -/
theorem vacate (hm : m.Sprouts m' (h :: places)) : m.Sprouts (m'.vacate h) places where
  rest := congrArg (fun x : Machine => { x with
    heap := (m'.vacate h).heap, interp := { x.interp with live := m'.interp.live - 1 } }) hm.rest
  live := by
    have := hm.live
    simp only [List.length_cons] at this
    simp only [Machine.vacate, onInterp, onHeap]
    omega
  size_le := by simpa [Machine.vacate, onHeap, onInterp] using hm.size_le
  cell k hk := by
    by_cases hkh : k = h
    · subst hkh
      rw [cell_of_size_le (hm.new k List.mem_cons_self)]
      exact Heap.get_set_self _ _ _ (hm.index_lt List.mem_cons_self)
    · rw [cell_vacate_of_ne hkh, hm.cell k (by simp [hkh, hk])]
  new k hk := hm.new k (List.mem_cons_of_mem _ hk)
  one k hk := by
    rw [cell_vacate_of_ne (ne_of_mem_of_not_mem hk (List.nodup_cons.1 hm.nodup).1)]
    exact hm.one k (List.mem_cons_of_mem _ hk)
  nodup := (List.nodup_cons.1 hm.nodup).2

theorem vacateAll (hm : m.Sprouts m' places) : m.Regained (places.foldl Machine.vacate m') := by
  induction places generalizing m' with
  | nil =>
    have hlive : m'.interp.live = m.interp.live := hm.live
    refine ⟨hm.rest.trans ?_, fun k => hm.cell k List.not_mem_nil⟩
    rw [hlive]
    rfl
  | cons h places ih => exact ih hm.vacate

end Sprouts

/-! ### Trees -/

/-- A new tree of a form has been made. -/
def Planted (m m' : Machine) (h : Handle) (f : Form) : Prop :=
  ∃ places, m.Sprouts m' (h :: places) ∧ m'.Grove [h] [f] (h :: places)

/-- A new container has been made, and the new trees in it. -/
def Bed (m m' : Machine) (a : Handle) (b : Body) (ks : List Handle) (fs : List Form) : Prop :=
  ∃ places, m.Sprouts m' (a :: places) ∧ m'.Bare a b ∧ m'.Grove ks fs places

theorem Bed.alloc (m : Machine) (b : Body) : m.Bed (m.alloc b).2 m.heap.next b [] [] :=
  ⟨[], .alloc m b, .fresh (cell_alloc m b), .nil⟩

/-- One more tree is put into the container. -/
theorem Bed.plant (hm : m.Bed m₁ a b ks fs) (hk : m₁.Planted m₂ k f) (b' : Body) :
    m.Bed (m₂.setBody a b') a b' (ks ++ [k]) (fs ++ [f]) := by
  obtain ⟨places, hsprouts, ha, hg⟩ := hm
  obtain ⟨places', hsprouts', hg'⟩ := hk
  have hall := hsprouts.trans hsprouts'
  have ha' : m₂.Bare a b := ha.congr (hsprouts'.cell a (hsprouts'.notMem_of_lt ha.index_lt))
  have hold := hg.congr_cell fun j hj =>
    hsprouts'.cell j (hsprouts'.notMem_of_lt (hg.index_lt hj))
  have hn := (List.nodup_cons.1 hall.nodup).1
  exact ⟨_, hall.setBody (by simp) b', ha'.setBody b', (hold.append hg').congr_cell fun j hj =>
    cell_setBody_ne b' (ne_of_mem_of_not_mem hj hn)⟩

/-- A tree that is made beside it leaves a container as it is. -/
theorem Bed.body_planted (hm : m.Bed m₁ a b ks fs) (hk : m₁.Planted m₂ k f) : m₂.body a = b := by
  obtain ⟨_, -, ha, -⟩ := hm
  obtain ⟨_, hsprouts, -⟩ := hk
  have hcell := hsprouts.cell a (hsprouts.notMem_of_lt ha.index_lt)
  exact (congrArg Cell.body hcell).trans ha.body

theorem Bed.here (hm : m.Bed m' a b ks fs) : m'.here = m.here := by
  obtain ⟨_, hsprouts, -⟩ := hm
  rw [hsprouts.rest]

theorem Bed.alive (hm : m.Bed m' a b ks fs) (hlive : m.isAlive m.here) : m'.isAlive m'.here := by
  obtain ⟨_, hsprouts, -⟩ := hm
  exact hsprouts.alive hlive

/-- A reference to the container completes the tree. -/
theorem Bed.refer (hm : m.Bed m' a b ks fs)
    (hf : ∀ {m' : Machine} {h places}, m'.Bare h (.scalar (.ofTarget a)) → m'.Bare a b →
      m'.Grove ks fs places → m'.Grove [h] [f] (h :: a :: places)) :
    m.Planted (m'.alloc (.scalar (.ofTarget a))).2 m'.heap.next f := by
  obtain ⟨places, hsprouts, ha, hg⟩ := hm
  have hall := hsprouts.trans (.alloc m' (.scalar (.ofTarget a)))
  have hkeep {j : Handle} (hj : j.index < m'.heap.size) :
      (m'.alloc (.scalar (.ofTarget a))).2.cell j = m'.cell j :=
    cell_alloc_ne _ (ne_next_of_lt hj)
  exact ⟨a :: places, hall.perm (List.perm_append_singleton _ _), hf (.fresh (cell_alloc m' _))
    (ha.congr (hkeep ha.index_lt)) (hg.congr_cell fun j hj => hkeep (hg.index_lt hj))⟩

theorem Bed.array (hm : m.Bed m' a (.array (ks.map some)) ks fs) :
    m.Planted (m'.alloc (.scalar (.ofTarget a))).2 m'.heap.next (.array fs) :=
  hm.refer fun hb ha hg => by simpa using Grove.array hb ha hg .nil

theorem Bed.table {keys : List Bytes} {cursor : Option (List Bytes)}
    (hm : m.Bed m' a (.hash ⟨keys.zip ks, cursor⟩) ks fs) (hlen : keys.length = ks.length) :
    m.Planted (m'.alloc (.scalar (.ofTarget a))).2 m'.heap.next (.table keys fs) :=
  hm.refer fun hb ha hg => by simpa using Grove.table hb ha hlen hg .nil

namespace Planted

theorem alloc (m : Machine) (hs : s.target = none) :
    m.Planted (m.alloc (.scalar s)).2 m.heap.next (.scalar s) :=
  ⟨[], .alloc m _, .scalar (.fresh (cell_alloc m _)) hs .nil⟩

theorem here (hm : m.Planted m' h f) : m'.here = m.here := by
  obtain ⟨places, hsprouts, -⟩ := hm
  rw [hsprouts.rest]

theorem alive (hm : m.Planted m' h f) (hlive : m.isAlive m.here) : m'.isAlive m'.here := by
  obtain ⟨_, hsprouts, -⟩ := hm
  exact hsprouts.alive hlive

end Planted

theorem drop_eq {v : Held} (hlive : m.isAlive m.here) (hv : v.owner = m.here)
    (hhere : (m.release v.handle).here = m.here) : m.drop v = m.release v.handle := by
  rw [drop, hv, if_pos hlive, within, focus_self rfl, focus_self hhere]

/-- Once its root is given up, a new tree is gone. -/
theorem Planted.drop (hm : m.Planted m' h f) (hlive : m.isAlive m.here) :
    m.Regained (m'.drop ⟨h, m.here⟩) := by
  obtain ⟨places, hsprouts, hg⟩ := hm
  have hrelease := hg.release_eq hsprouts.nodup hsprouts.one
  have hback := hsprouts.vacateAll
  have hhere : m'.here = m.here := by rw [hsprouts.rest]
  have hhere' : (m'.release h).here = m'.here := by
    rw [hrelease, hback.rest, hhere]
  rw [drop_eq (hsprouts.alive hlive) hhere.symm hhere', hrelease]
  exact hback

end ValueMachine.Machine

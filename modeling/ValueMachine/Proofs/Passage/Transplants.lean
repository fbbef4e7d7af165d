import ValueMachine.Host.Document
import ValueMachine.Proofs.Documents.Making
import ValueMachine.Proofs.Passage.Readings

/-! Transplants. A tree that stands by itself goes into a container: the container gets a copy of its
root, and the root is given up. For a moment the two share what is below, and in the end the tree has
only another root. -/

namespace ValueMachine

open Machine

namespace Heap

variable {H : Heap} {h k : Handle} {c d : Cell}

/-- Writes at two places do not disturb each other. -/
theorem set_comm (hk : h ≠ k) (c d : Cell) : (H.set h c).set k d = (H.set k d).set h c := by
  have hindex : h.index ≠ k.index := fun he => hk (by cases h; cases k; simp_all)
  exact congrArg Heap.mk (Array.setIfInBounds_comm c d hindex)

theorem set_set (H : Heap) (h : Handle) (c d : Cell) : (H.set h c).set h d = H.set h d :=
  congrArg Heap.mk (Array.setIfInBounds_setIfInBounds c)

theorem set_get (H : Heap) (h : Handle) : H.set h (H.get h) = H := by
  refine congrArg Heap.mk (Array.ext (by simp) fun i _ hi => ?_)
  rw [Array.getElem_setIfInBounds hi]
  split
  next he => simp [get, he, Array.getD_eq_getD_getElem?, hi]
  next => rfl

theorem set_push (hs : h.index < H.size) (c d : Cell) : (H.set h c).push d = (H.push d).set h c := by
  simp only [size] at hs
  simp only [set, push, Array.setIfInBounds, Array.size_push, Array.set_push, hs, dif_pos,
    Nat.lt_succ_of_lt hs]

end Heap

namespace Machine

variable {m m₁ m₂ m' : Machine} {h k t a : Handle} {b b' c : Body} {s : Scalar}
  {ks places : List Handle} {f : Form} {fs : List Form}

/-! ### One count more for a while -/

theorem Bare.alloc (ht : m.Bare t c) (b : Body) : (m.alloc b).2.Bare t c :=
  ht.congr (cell_alloc_ne b (ne_next_of_lt ht.index_lt))

theorem Bare.setBody_ne (ht : m.Bare t c) (hta : t ≠ a) (b : Body) : (m.setBody a b).Bare t c :=
  ht.congr (cell_setBody_ne b hta)

theorem Bare.vacate (ht : m.Bare t c) (hth : t ≠ h) : (m.vacate h).Bare t c :=
  ht.congr (cell_vacate_of_ne hth)

theorem Bare.alloc_retain (ht : m.Bare t c) (b : Body) :
    ((m.retain t).alloc b).2 = (m.alloc b).2.retain t := by
  have hcell : (m.heap.push (.fresh b)).get t = m.heap.get t := cell_alloc_ne b (ne_next_of_lt ht.index_lt)
  rw [ht.retain_eq, (ht.alloc b).retain_eq]
  simp only [Machine.alloc, onHeap, Heap.update, hcell, Heap.set_push ht.index_lt]

theorem Bare.setBody_retain (ht : m.Bare t c) (hta : t ≠ a) (b : Body) :
    (m.retain t).setBody a b = (m.setBody a b).retain t := by
  rw [ht.retain_eq, (ht.setBody_ne hta b).retain_eq]
  simp only [Machine.setBody, onHeap, Heap.update, Heap.get_set_ne _ _ _ _ hta,
    Heap.get_set_ne _ _ _ _ hta.symm, Heap.set_comm hta]

theorem Bare.vacate_retain (ht : m.Bare t c) (hth : t ≠ h) :
    (m.retain t).vacate h = (m.vacate h).retain t := by
  rw [ht.retain_eq, (ht.vacate hth).retain_eq]
  simp only [Machine.vacate, onHeap, onInterp, Heap.update, Heap.get_set_ne _ _ _ _ hth,
    Heap.set_comm hth]

/-- What has been counted once more is released to what it was. -/
theorem Bare.releaseWithin_retain (ht : m.Bare t c) (fuel : Nat) :
    releaseWithin (fuel + 1) t (m.retain t) = m := by
  have hne := ht.count_ne_zero
  have hback : (⟨(m.cell t).count + 1 - 1, false, (m.cell t).body, (m.cell t).magic,
      (m.cell t).className⟩ : Cell) = m.heap.get t := by
    rw [Nat.add_sub_cancel, ← ht.counted]
    rfl
  rw [releaseWithin, ht.cell_retain]
  simp only [ht.counted, Nat.succ_ne_zero, decide_false, Bool.or_false, Bool.false_eq_true, if_false]
  rw [if_pos (by omega), hback, ht.retain_eq]
  simp only [onHeap, Heap.update, Heap.set_set, Heap.set_get]

/-- What has been held once more is given back. -/
theorem Bare.drop_retain (ht : m.Bare t c) (hlive : m.isAlive m.here) :
    (m.retain t).drop ⟨t, m.here⟩ = m := by
  have hrelease : (m.retain t).release t = m := ht.releaseWithin_retain _
  rw [drop_eq (alive_retain t hlive) (m.here_retain t).symm (by rw [hrelease, m.here_retain]), hrelease]

/-- A scalar that was copied and is given up leaves what it refers to as it was. -/
theorem Bare.release_copied (hb : m.Bare h (.scalar s)) (hone : (m.cell h).count = 1)
    (howned : ∀ t ∈ s.owned, t ≠ h ∧ ∃ c, m.Bare t c) :
    (s.owned.foldl Machine.retain m).release h = m.vacate h := by
  cases ht : s.target with
  | none =>
    have hnone : s.owned = [] := by simp [Scalar.owned, ht]
    rw [hnone, List.foldl_nil, release, hb.releaseWithin_eq hone]
    show s.owned.foldl _ _ = _
    rw [hnone, List.foldl_nil]
  | some t =>
    have hsome : s.owned = [t] := by simp [Scalar.owned, ht]
    obtain ⟨hth, c, hc⟩ := howned t (by simp [hsome])
    have hone' : ((m.retain t).cell h).count = 1 := by rwa [cell_retain_of_ne hth.symm]
    rw [hsome, List.foldl_cons, List.foldl_nil, release, (hb.retain t).releaseWithin_eq hone',
      hc.vacate_retain hth]
    show s.owned.foldl _ _ = _
    rw [hsome, List.foldl_cons, List.foldl_nil]
    exact (hc.vacate hth).releaseWithin_retain _

/-! ### A new root -/

theorem vacate_setBody (hah : a ≠ h) (b : Body) :
    (m.setBody a b).vacate h = (m.vacate h).setBody a b := by
  simp only [Machine.vacate, Machine.setBody, onHeap, onInterp, Heap.update,
    Heap.get_set_ne _ _ _ _ hah, Heap.set_comm hah]

/-- What a tree has besides its root stays when it gets a new root with the same slots. -/
theorem Grove.root (hg : m.Grove [h] [f] (h :: places)) : ∃ s, m.Bare h (.scalar s) ∧
    (∀ t ∈ s.owned, t ∈ places) ∧ ∀ ⦃m' : Machine⦄ ⦃k : Handle⦄, m'.Bare k (.scalar s) →
      (∀ j ∈ places, m'.cell j = m.cell j) → m'.Grove [k] [f] (k :: places) := by
  cases hg with
  | scalar hb ht hrest =>
    cases hrest
    refine ⟨_, hb, by simp [Scalar.owned, ht], fun m' k hk _ => .scalar hk ht .nil⟩
  | @array _ a ks _ _ _ inner outer hb ha hitems hrest =>
    refine ⟨_, hb, by simp [Scalar.owned, Scalar.ofTarget], fun m' k hk hcell => ?_⟩
    cases hrest
    exact .array hk (ha.congr (hcell a (by simp)))
      (hitems.congr_cell fun j hj => hcell j (by simp [hj])) .nil
  | @table _ a _ ks _ _ _ inner outer _ hb ha hlen hitems hrest =>
    refine ⟨_, hb, by simp [Scalar.owned, Scalar.ofTarget], fun m' k hk hcell => ?_⟩
    cases hrest
    exact .table hk (ha.congr (hcell a (by simp))) hlen
      (hitems.congr_cell fun j hj => hcell j (by simp [hj])) .nil

/-- A new tree gets a new root, and the former one goes. -/
theorem Planted.replant (hk : m.Planted m' h f) (hb : m'.Bare h (.scalar s)) :
    m.Planted ((m'.alloc (.scalar s)).2.vacate h) m'.heap.next f := by
  obtain ⟨places, hsprouts, hg⟩ := hk
  obtain ⟨s', hb', -, hroot⟩ := hg.root
  cases hb.body.symm.trans hb'.body
  have hlt := hsprouts.index_lt List.mem_cons_self
  have hnext : m'.heap.next ≠ h := (ne_next_of_lt hlt).symm
  have hall := hsprouts.trans (.alloc m' (.scalar s))
  have hperm : (h :: places ++ [m'.heap.next]).Perm (h :: m'.heap.next :: places) :=
    (List.perm_append_singleton _ _).cons h
  refine ⟨places, (hall.perm hperm).vacate, hroot ?_ fun j hj => ?_⟩
  · exact (Bare.fresh (cell_alloc m' _)).vacate hnext
  · have hjh : j ≠ h := ne_of_mem_of_not_mem hj (List.nodup_cons.1 hsprouts.nodup).1
    rw [cell_vacate_of_ne hjh, cell_alloc_ne _ (ne_next_of_lt (hsprouts.index_lt (by simp [hj])))]

theorem rest_retain (m : Machine) (h : Handle) : m.retain h = { m with heap := (m.retain h).heap } := by
  unfold retain
  split <;> rfl

theorem rest_retainAll (m : Machine) (hs : List Handle) :
    hs.foldl Machine.retain m = { m with heap := (hs.foldl Machine.retain m).heap } :=
  List.foldlRecOn (motive := fun m' => m' = { m with heap := m'.heap }) hs _ rfl
    fun m' hm' t _ => (rest_retain m' t).trans
      (congrArg (fun x : Machine => { x with heap := (m'.retain t).heap }) hm')

theorem Bare.newCopy_apply (hb : m.Bare h (.scalar s)) :
    newCopy h m = .ok m.heap.next ((s.owned.foldl Machine.retain m).alloc (.scalar s)).2 := by
  have hslots : copySlots h m = .ok s (s.owned.foldl Machine.retain m) := by
    rw [copySlots, Run.bind_of_ok hb.readHooks, Run.look_bind, hb.scalar?]
    rfl
  rw [newCopy, Run.bind_of_ok hslots, ← next_retainAll m s.owned]
  rfl

/-- What a scalar refers to may be counted after the copy is made and put into a container. -/
theorem retain_copied (howned : ∀ t ∈ s.owned, t ≠ a ∧ ∃ c, m.Bare t c) (b b' : Body) :
    ((s.owned.foldl Machine.retain m).alloc b).2.setBody a b'
      = s.owned.foldl Machine.retain ((m.alloc b).2.setBody a b') := by
  cases ht : s.target with
  | none =>
    have hnone : s.owned = [] := by simp [Scalar.owned, ht]
    rw [hnone]
    rfl
  | some t =>
    have hsome : s.owned = [t] := by simp [Scalar.owned, ht]
    obtain ⟨hta, c, hc⟩ := howned t (by simp [hsome])
    rw [hsome, List.foldl_cons, List.foldl_nil, List.foldl_cons, List.foldl_nil, hc.alloc_retain b,
      (hc.alloc b).setBody_retain hta]

/-- A container gets a copy of the root of a new tree, and the root is given up. -/
theorem Bed.transplant (hm : m.Bed m₁ a b ks fs) (hk : m₁.Planted m₂ h f)
    (hlive : m₁.isAlive m₁.here) {put : Handle → Run Unit} {b' : Handle → Body}
    (hput : ∀ k m, m.body a = b → put k m = .ok () (m.setBody a (b' k))) :
    ∃ k m₃, (do put (← newCopy h); Run.change (·.drop ⟨h, m₁.here⟩) : Run Unit) m₂ = .ok () m₃ ∧
      m.Bed m₃ a (b' k) (ks ++ [k]) (fs ++ [f]) := by
  have ha := hm.body_planted hk
  have hback := hk
  obtain ⟨places, hsprouts, hg⟩ := hback
  obtain ⟨s, hb, howned, -⟩ := hg.root
  have hbed := hm
  obtain ⟨_, -, ha₁, -⟩ := hbed
  have hnew {j : Handle} (hj : j ∈ h :: places) : j ≠ a := by
    rintro rfl
    exact hsprouts.notMem_of_lt ha₁.index_lt hj
  have hbelow {t : Handle} (ht : t ∈ s.owned) : t ≠ h ∧ t ≠ a ∧ ∃ c, m₂.Bare t c :=
    ⟨ne_of_mem_of_not_mem (howned t ht) (List.nodup_cons.1 hsprouts.nodup).1,
      hnew (by simp [howned t ht]), hg.bare (by simp [howned t ht])⟩
  have hah : a ≠ h := (hnew List.mem_cons_self).symm
  let m₃ := (m₂.alloc (.scalar s)).2.setBody a (b' m₂.heap.next)
  have hput₃ : put m₂.heap.next ((s.owned.foldl Machine.retain m₂).alloc (.scalar s)).2
      = .ok () (s.owned.foldl Machine.retain m₃) := by
    have hane : a ≠ (s.owned.foldl Machine.retain m₂).heap.next := by
      rw [next_retainAll]
      exact ne_next_of_lt (ha₁.index_lt.trans_le hsprouts.size_le)
    have hbody : ((s.owned.foldl Machine.retain m₂).alloc (.scalar s)).2.body a = b := by
      rw [body, cell_alloc_ne _ hane]
      exact (body_retainAll m₂ s.owned a).trans ha
    rw [hput _ _ hbody, retain_copied fun t ht => (hbelow ht).2]
  have hrelease : (s.owned.foldl Machine.retain m₃).release h = m₃.vacate h := by
    refine ((hb.alloc _).setBody_ne hah.symm _).release_copied ?_ fun t ht => ?_
    · rw [cell_setBody_ne _ hah.symm,
        cell_alloc_ne _ (ne_next_of_lt (hsprouts.index_lt List.mem_cons_self))]
      exact hsprouts.one h List.mem_cons_self
    · obtain ⟨hth, hta, c, hc⟩ := hbelow ht
      exact ⟨hth, c, (hc.alloc _).setBody_ne hta _⟩
  have hdrop : (s.owned.foldl Machine.retain m₃).drop ⟨h, m₁.here⟩ = m₃.vacate h := by
    have hrest := rest_retainAll m₃ s.owned
    have hhere : m₃.here = m₁.here := hk.here
    have hhere' : (s.owned.foldl Machine.retain m₃).here = m₁.here := by rw [hrest, hhere]
    have hlive' : (s.owned.foldl Machine.retain m₃).isAlive m₁.here = true := by
      rw [hrest]
      exact hk.here ▸ hk.alive hlive
    rw [drop_eq (hhere' ▸ hlive') hhere'.symm (by rw [hrelease, hhere']; exact hhere), hrelease]
  refine ⟨m₂.heap.next, m₃.vacate h, ?_, ?_⟩
  · rw [Run.bind_of_ok hb.newCopy_apply, Run.bind_of_ok hput₃, Run.change_apply, hdrop]
  · rw [vacate_setBody hah]
    exact hm.plant (hk.replant hb) _

end Machine

end ValueMachine

import ValueMachine.Proofs.Calls.Outcomes
import ValueMachine.Proofs.Ownership.Assignments

/-! Values that are no scalars. Nothing that is done to them makes them scalars, so what is stored
into them is refused for good. A duplicate is a new copy of a scalar, or no scalar. -/

namespace ValueMachine

open Machine

variable {m m' m₁ m₂ m₃ : Machine} {h k : Handle}

namespace Machine

/-- What is no scalar does not become one. -/
structure Unconverted (m m' : Machine) : Prop where
  size_le : m.heap.size ≤ m'.heap.size
  scalar? : ∀ k, k.index < m.heap.size → m.scalar? k = none → m'.scalar? k = none

namespace Unconverted

theorem refl (m : Machine) : m.Unconverted m := ⟨le_rfl, fun _ _ hk => hk⟩

theorem trans (h₁ : m₁.Unconverted m₂) (h₂ : m₂.Unconverted m₃) : m₁.Unconverted m₃ :=
  ⟨h₁.size_le.trans h₂.size_le, fun k hs hk =>
    h₂.scalar? k (hs.trans_le h₁.size_le) (h₁.scalar? k hs hk)⟩

theorem of_body (size_le : m.heap.size ≤ m'.heap.size)
    (hb : ∀ k, k.index < m.heap.size → m'.body k = m.body k ∨ (m'.body k).scalar? = none) :
    m.Unconverted m' where
  size_le := size_le
  scalar? k hs hk := by
    rcases hb k hs with hb | hb
    · rwa [Machine.scalar?, hb]
    · exact hb

theorem of_fades (hm : m.Fades m') : m.Unconverted m' := of_body hm.size_le fun k hs =>
  (hm.body k hs).imp_right fun hb => by rw [hb]; rfl

theorem of_heap_eq (heap : m'.heap = m.heap) : m.Unconverted m' :=
  of_body (by rw [heap]) fun k _ => .inl (by rw [body, body, cell, cell, heap])

theorem alloc (m : Machine) (b : Body) : m.Unconverted (m.alloc b).2 :=
  of_body (by simp [Machine.alloc]) fun _ hs => .inl (body_alloc m b (ne_next_of_lt hs))

theorem setBody (m : Machine) (h : Handle) {b : Body} (hb : b.scalar? = none) :
    m.Unconverted (m.setBody h b) := by
  refine of_body (by simp [Machine.setBody, Heap.update]) fun k hs => ?_
  by_cases hk : k = h
  · right
    rw [hk, body_setBody _ (hk ▸ hs)]
    exact hb
  · exact .inl (body_setBody_ne _ hk)

theorem retain (m : Machine) (h : Handle) : m.Unconverted (m.retain h) :=
  of_body (Spares.retain (h := h) m h).size_le fun k _ => .inl (body_retain m h k)

theorem releaseAll (m : Machine) (hs : List Handle) : m.Unconverted (m.releaseAll hs) := by
  have hspares := (spares_keptByRelease m.heap.next m).releaseAll hs (.refl _ m)
  refine of_body hspares.size_le fun k hk => ?_
  exact (hspares.body k (ne_next_of_lt hk) hk).imp_right fun hb => by rw [hb]; rfl

theorem replaceScalar {former : Scalar} (hb : m.body h = .scalar former) (s : Scalar) :
    m.Unconverted (m.replaceScalar h former s) where
  size_le := (Spares.replaceScalar m h former s).size_le
  scalar? k hs hk := by
    have hne : k ≠ h := by
      rintro rfl
      rw [Machine.scalar?, hb] at hk
      cases hk
    rcases (Spares.replaceScalar m h former s).body k hne hs with hb' | hb'
    · rwa [Machine.scalar?, hb']
    · rw [Machine.scalar?, hb']
      rfl

theorem setErrorText (m : Machine) (message : String) : m.Unconverted (m.setErrorText message) := by
  have hnew : m.Unconverted (m.allocMortal (.scalar (.ofText message))).2 :=
    (alloc m _).trans (of_heap_eq rfl)
  refine hnew.trans ?_
  show (m.allocMortal _).2.Unconverted ((m.allocMortal _).2.setError _)
  generalize (m.allocMortal (.scalar (.ofText message))).2 = m₁
  have hslot : m₁.Unconverted m₁.errorSlot.2 := by
    unfold Machine.errorSlot
    split
    · exact refl m₁
    · exact (of_fades (Fades.global m₁ .scalar "@")).trans (of_heap_eq rfl)
  refine hslot.trans ?_
  cases hb : m₁.errorSlot.2.body m₁.errorSlot.1 with
  | scalar former =>
    simp only [Machine.setError, hb]
    exact replaceScalar hb _
  | _ =>
    simp only [Machine.setError, hb]
    exact refl _

end Unconverted

end Machine

/-- What is no scalar stays what it is. -/
def Manner.unconverting : Manner := .uniform Machine.Unconverted.refl Machine.Unconverted.trans

theorem Manner.unconverting_stepwise : unconverting.Stepwise where
  alloc m {b} _ := Unconverted.alloc m b
  retain := Unconverted.retain
  mortal _ _ := .of_heap_eq rfl
  global m s name := .of_fades (Fades.global m s name)
  setArray _ _ := .setBody _ _ rfl
  setHash _ _ := .setBody _ _ rfl
  name m h _ := .of_fades (.update m h _ (fun _ => rfl) fun _ => rfl)
  releaseAll := Unconverted.releaseAll
  replaceScalar _ hb := .replaceScalar hb _
  noteAccess _ _ := .of_heap_eq rfl
  tick _ := .of_heap_eq rfl
  raise m f := .setErrorText m f.message

namespace Machine

theorem scalar?_of_kind (hk : m.kind h ≠ .scalar) : m.scalar? h = none := by
  cases hb : m.body h with
  | scalar s => exact absurd (kind_of_scalar hb) hk
  | _ => rw [Machine.scalar?, hb]; rfl

/-- A new container that is filled is no scalar. -/
theorem Unconverted.of_filled {b : Body} (hb : b.scalar? = none)
    (hm : (m.alloc b).2.Unconverted m') : m'.scalar? m.heap.next = none := by
  refine hm.scalar? _ ?_ ?_
  · exact (Heap.size_push m.heap (.fresh b)).symm ▸ Nat.lt_succ_self _
  · rw [Machine.scalar?, body, cell]
    simpa [Machine.alloc, Cell.fresh] using hb

theorem copyArray_scalar? (hr : copyArray h m = .ok k m') : m'.scalar? k = none := by
  have hM := Manner.unconverting_stepwise.plain
  obtain ⟨copy, m₁, halloc, hr₁⟩ := Run.bind_ok hr
  obtain ⟨xs, m₂, hslots, hr₂⟩ := Run.bind_ok hr₁
  obtain ⟨_, m₃, hloop, hr₃⟩ := Run.bind_ok hr₂
  cases hr₃
  cases halloc
  refine Unconverted.of_filled rfl (((hM.slots h).ok hslots).trans (Run.Moves.ok (M := .unconverting) (.forM (fun slot => ?_) _) hloop))
  obtain ⟨_ | item, i⟩ := slot
  · exact .pure _
  · exact (hM.newCopy item).bind fun v => (hM.arrayStore _ _ v).bind fun _ => .pure _

theorem copyHash_scalar? (hr : copyHash h m = .ok k m') : m'.scalar? k = none := by
  have hM := Manner.unconverting_stepwise.plain
  obtain ⟨copy, m₁, halloc, hr₁⟩ := Run.bind_ok hr
  obtain ⟨es, m₂, hentries, hr₂⟩ := Run.bind_ok hr₁
  obtain ⟨_, m₃, hloop, hr₃⟩ := Run.bind_ok hr₂
  cases hr₃
  cases halloc
  refine Unconverted.of_filled rfl (((hM.hashEntries h).ok hentries).trans (Run.Moves.ok (M := .unconverting) (.forM (fun e => ?_) _) hloop))
  exact (hM.newCopy e.2).bind fun v => hM.hashPut _ e.1 v

/-- A duplicate is a new copy of a scalar, or it is no scalar. -/
theorem duplicate_cases (hr : duplicate h m = .ok k m') :
    newCopy h m = .ok k m' ∨ m'.scalar? k = none := by
  rw [duplicate, Run.look_bind] at hr
  cases hkind : m.kind h <;> rw [hkind] at hr
  case scalar => exact .inl hr
  case unknown => exact .inl hr
  case array => exact .inr (copyArray_scalar? hr)
  case hash => exact .inr (copyHash_scalar? hr)
  all_goals
    cases hr
    right
    rw [Machine.scalar?, body_retain]
    exact scalar?_of_kind (by simp [hkind])

end Machine

end ValueMachine

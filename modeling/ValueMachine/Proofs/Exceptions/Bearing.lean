import ValueMachine.Proofs.Calls.Outcomes
import ValueMachine.Proofs.Ownership.Duplicates

/-! Machines in which an exception is on its way. Its value is in the error variable, which owns a
count on what was thrown, and every other count is accounted for; so whatever is released while the
exception passes, its value stays. -/

namespace ValueMachine

open Manner

namespace Machine

variable {m m' : Machine} {held held' : List Handle} {h k : Handle} {s : Scalar} {α : Type}

/-! ### Machines in order -/

/-- A machine whose error variable can be written and whose counts are accounted for: by owners in
the machine, by what is held outside, and by what host code has forgotten. -/
structure Fit (m : Machine) (held : List Handle) : Prop where
  sound : m.Sound ⟨False, False⟩
  orderly : ∃ lost, m.Orderly (held ++ lost)
  slot : ∃ h, m.errorHandle? = some h ∧ (m.cell h).immortal = false

/-- An exception is on its way, with these slots in the error variable. -/
structure Bears (m : Machine) (s : Scalar) (held : List Handle) : Prop extends Fit m held where
  error : ∃ h, m.errorHandle? = some h ∧ m.body h = .scalar s

/-- A value that is not freed has drifted nowhere. -/
theorem body_of_drifts (hd : m.Drifts m') (hb : m.body h = .scalar s) (hf : m'.isFreed h = false) :
    m'.body h = .scalar s := by
  have hdrift := body_drifts hd.heap (index_lt_of_scalar hb)
  refine (Body.Drifts.of_scalar (hb ▸ hdrift)).resolve_right fun hfreed => ?_
  rw [isFreed, hfreed] at hf
  cases hf

theorem owners_pos_of_global {sigil : Sigil} {name : String} (hg : m.global? sigil name = some h) :
    0 < m.owners h := by
  obtain ⟨p, hp, -, hs⟩ := mem_of_global? hg
  have hglob : h ∈ p.2.owned :=
    List.mem_filterMap.2 ⟨some h, by rw [← hs]; cases sigil <;> simp [Glob.get], rfl⟩
  have hmem : h ∈ m.interp.owned :=
    List.mem_append_left _ (List.mem_append_left _ (List.mem_flatMap.2 ⟨p, hp, hglob⟩))
  have := List.count_pos_iff.2 hmem
  simp only [owners]
  omega

namespace Fit

theorem perm (hm : m.Fit held) (hp : held.Perm held') : m.Fit held' := by
  obtain ⟨lost, ho⟩ := hm.orderly
  exact ⟨hm.sound, ⟨lost, ho.perm (hp.append_right lost)⟩, hm.slot⟩

/-- A count that is held may be forgotten. -/
theorem forget (hm : m.Fit (held ++ held')) : m.Fit held' := by
  obtain ⟨lost, ho⟩ := hm.orderly
  refine ⟨hm.sound, ⟨held ++ lost, ho.perm ?_⟩, hm.slot⟩
  rw [← List.append_assoc]
  exact List.perm_append_comm.append_right lost

theorem not_isFreed (hm : m.Fit held) (hh : h ∈ held) : m.isFreed h = false := by
  obtain ⟨lost, ho⟩ := hm.orderly
  exact ho.not_isFreed_of_mem (List.mem_append_left _ hh)

theorem errorSlot_scalar (hm : m.Fit held) (hh : m.errorHandle? = some h) :
    ∃ s, m.body h = .scalar s := by
  obtain ⟨lost, ho⟩ := hm.orderly
  refine (hm.sound.slot hh).resolve_left fun hfreed => ?_
  have hf := ho.not_isFreed_of_owned (h := h) (by have := owners_pos_of_global hh; omega)
  rw [isFreed, hfreed] at hf
  cases hf

theorem of_drifts (hm : m.Fit held) (hd : m.Drifts m') (ho : ∃ lost, m'.Orderly (held' ++ lost))
    (hages : m.Ages m') : m'.Fit held' := by
  obtain ⟨h, hh, hi⟩ := hm.slot
  refine ⟨hm.sound.drifts hd, ho, h, hd.keeps hh, ?_⟩
  rw [hages.immortal h (hm.sound.bounded _ _ hh), hi]

/-- A step that writes no scalar. -/
theorem step (hm : m.Fit held) (hd : m.Drifts m')
    (ho : ∀ lost, m.Orderly (held ++ lost) → m.Settles m' (held' ++ lost)) : m'.Fit held' := by
  obtain ⟨lost, horderly⟩ := hm.orderly
  have hsettles := ho lost horderly
  exact hm.of_drifts hd ⟨lost, hsettles.orderly⟩ hsettles.ages

/-- A step that touches no value. -/
theorem still (hm : m.Fit held) (h : holdings m' = holdings m)
    (owned : (m'.interp.temps, m'.interp.live, m'.others, m'.here)
      = (m.interp.temps, m.interp.live, m.others, m.here)) : m'.Fit held := by
  have hd := drifts_still h hm.sound
  simp only [holdings, Prod.mk.injEq] at h owned
  obtain ⟨heap, symbols, -, modules⟩ := h
  obtain ⟨temps, live, others, here⟩ := owned
  exact hm.step hd fun lost ho => ho.settles_of_eq heap
    (by simp only [Interp.owned, symbols, modules, temps]) symbols live others here

theorem release (hm : m.Fit (h :: held)) : (m.release h).Fit held :=
  hm.step (.release hm.sound.tame hm.sound.bounded h) fun _ ho => Orderly.release ho

/-- A held handle is given up, or its count forgotten if its interpreter is gone. -/
theorem drop {v : Held} (hm : m.Fit (v.handle :: held)) : (m.drop v).Fit held := by
  obtain ⟨lost, ho⟩ := hm.orderly
  have hd := drifts_drop hm.sound v
  cases halive : m.isAlive v.owner with
  | true =>
    have hrelease : (m.focus v.owner).Settles _ (held ++ lost) := Orderly.release (ho.focus v.owner)
    have hdrop : m.drop v = ((m.focus v.owner).release v.handle).focus m.here := by
      rw [Machine.drop, if_pos halive]
      rfl
    refine hm.of_drifts hd ⟨lost, hdrop ▸ hrelease.orderly.focus _⟩ ?_
    rw [hdrop]
    have hfirst : m.Ages (m.focus v.owner) := .of_heap_eq (heap_focus m _)
    exact hfirst.trans (hrelease.ages.trans (.of_heap_eq (heap_focus _ _)))
  | false =>
    have hdrop : m.drop v = m := by rw [Machine.drop, if_neg (by simp [halive])]
    rw [hdrop]
    exact forget (show m.Fit ([v.handle] ++ held) from hm)

theorem dropAll {vs : List Held} (hm : m.Fit (vs.map (·.handle) ++ held)) :
    (m.dropAll vs).Fit held := by
  induction vs generalizing m with
  | nil => exact hm
  | cons v rest ih => exact ih hm.drop

end Fit

theorem drifts_dropAll {P : Promise} (hm : m.Sound P) (vs : List Held) :
    m.Drifts (m.dropAll vs) := by
  induction vs generalizing m with
  | nil => exact .refl hm.tame
  | cons v rest ih =>
    have hd := drifts_drop hm v
    exact hd.trans (ih (hm.drifts hd))

namespace Bears

/-- What was thrown stays in the error variable over steps that write no scalar. -/
theorem of_fit (hm : m.Bears s held) (hd : m.Drifts m') (hm' : m'.Fit held') :
    m'.Bears s held' := by
  obtain ⟨h, hh, hb⟩ := hm.error
  have hh' := hd.keeps hh
  obtain ⟨s', hb'⟩ := hm'.errorSlot_scalar hh'
  exact ⟨hm', h, hh', body_of_drifts hd hb (by rw [isFreed, hb']; rfl)⟩

end Bears

/-! ### Raising -/

namespace Fit

/-- The slot of the error variable is looked up where it is not known yet. -/
theorem errorSlot (hm : m.Fit held) : m.errorSlot.2.Fit held ∧
    m.errorSlot.2.errorHandle? = some m.errorSlot.1 :=
  ⟨hm.step hm.sound.errorSlot fun _ ho => ho.errorSlot, hm.sound.errorHandle?_errorSlot⟩

theorem not_immortal (hm : m.Fit held) (hh : m.errorHandle? = some h) :
    (m.cell h).immortal = false := by
  obtain ⟨k, hk, hi⟩ := hm.slot
  cases hh.symm.trans hk
  exact hi

theorem heap_errorSlot (hm : m.Fit held) : m.errorSlot.2.heap = m.heap := by
  obtain ⟨h, hh, -⟩ := hm.slot
  unfold Machine.errorSlot
  cases m.interp.error with
  | some h => rfl
  | none =>
    simp only [Machine.global, show m.global? .scalar "@" = some h from hh]
    rfl

/-- The error variable is written in place. -/
theorem replaceError (hm : m.Fit (s.owned ++ held)) (hs : s.Formed)
    (hh : m.errorHandle? = some h) {former : Scalar} (hb : m.body h = .scalar former) :
    (m.replaceScalar h former s).Bears s held := by
  obtain ⟨lost, ho⟩ := hm.orderly
  have hreplace : m.Settles (m.replaceScalar h former s) (held ++ lost) :=
    Orderly.replaceScalar (by rwa [← List.append_assoc]) hb
  have hd := hm.sound.replaceScalar_drifts hs hb
  have hh' : (m.replaceScalar h former s).errorHandle? = some h := hd.keeps hh
  have hfit : (m.replaceScalar h former s).Fit held := by
    refine ⟨hm.sound.replaceScalar hs hb, ⟨lost, hreplace.orderly⟩, h, hh', ?_⟩
    rw [hreplace.ages.immortal h (index_lt_of_scalar hb), hm.not_immortal hh]
  refine ⟨hfit, h, hh', body_of_drifts hd (body_setBody _ (index_lt_of_scalar hb)) ?_⟩
  obtain ⟨s', hb'⟩ := hfit.errorSlot_scalar hh'
  rw [isFreed, hb']
  rfl

/-- A scalar is put into the error variable. -/
theorem setError (hm : m.Fit (s.owned ++ held)) (hs : s.Formed) : (m.setError s).Bears s held := by
  obtain ⟨hslot, hh⟩ := hm.errorSlot
  obtain ⟨former, hb⟩ := hslot.errorSlot_scalar hh
  rw [Machine.setError]
  simp only [hb]
  exact replaceError hslot hs hh hb

/-- A message is put into the error variable. -/
theorem setErrorText (hm : m.Fit held) (message : String) :
    (m.setErrorText message).Bears (.ofText message) held := by
  let m₁ := (m.alloc (.scalar (.ofText message))).2
  have halloc : m.Drifts m₁ := .alloc hm.sound.tame (by simp)
  have hfresh : m₁.Fit ((m.alloc (.scalar (.ofText message))).1 :: held) :=
    hm.step halloc fun _ ho => Orderly.alloc (.scalar (.ofText message)) ho rfl
  have hmortal : (m.allocMortal (.scalar (.ofText message))).2.Fit held :=
    hfresh.step (drifts_still (by rfl) hfresh.sound) fun _ ho => Orderly.mortal ho
  exact hmortal.setError (by simp)

/-- A value is raised. -/
theorem raiseValue (hm : m.Fit held) (hb : m.body h = .scalar s) :
    ∃ m', (raiseValue h : Run α) m = .error .raised m' ∧ m'.Bears s held := by
  obtain ⟨hslot, hh⟩ := hm.errorSlot
  have hheap := hm.heap_errorSlot
  generalize herror : m.errorSlot = found at hslot hh hheap
  obtain ⟨slot, m₁⟩ := found
  have hb₁ : m₁.body h = .scalar s := by rwa [body, cell, hheap]
  have hraise : (Machine.raiseValue h : Run α) m
      = ((assign slot h >>= fun _ => throw .raised : Run α) m₁) := by
    rw [Machine.raiseValue, Run.modifyGet_bind, herror]
  rw [hraise, Machine.assign]
  split
  next he =>
    -- the value of `$@` is raised again as it stands
    exact ⟨m₁, rfl, hslot, slot, hh, he ▸ hb₁⟩
  next =>
    rcases hslot.sound.copySlots h with ⟨s', m₂, hb', hcopy, hd⟩ | ⟨hno, -⟩
    · cases hb₁.symm.trans hb'
      have hm₂ : m₂.Fit (s.owned ++ held) := hslot.step hd fun lost ho => by
        rw [List.append_assoc]
        exact ho.copySlots hcopy
      have hh₂ := hd.keeps hh
      obtain ⟨former, hf⟩ := hm₂.errorSlot_scalar hh₂
      have hi₂ := hm₂.not_immortal hh₂
      have hstore : store slot s m₂ = .ok () (m₂.replaceScalar slot former s) := by
        rw [body] at hf
        simp only [Machine.store, Run.look_bind, hi₂, hf, Bool.false_eq_true, if_false,
          Run.change_apply]
      refine ⟨_, ?_, hm₂.replaceError (hslot.sound.tame.formed h s hb₁) hh₂ hf⟩
      simp only [Run.bind_apply, hcopy, hstore, Run.throw_apply]
    · exact absurd hb₁ (hno s)

end Fit

end Machine

end ValueMachine

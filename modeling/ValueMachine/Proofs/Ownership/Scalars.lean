import ValueMachine.Proofs.Ownership.Release
import ValueMachine.Proofs.Run
import ValueMachine.Machine.Classes

/-! The operations on scalars. A store adopts the counts of the new slots and releases those of the
former ones; a copy takes counts of its own; a reading may store, where a hook says so. -/

namespace ValueMachine.Machine

variable {m m' : Machine} {held : List Handle} {h : Handle} {s : Scalar} {u : Unit}

/-- Write hooks only write the log. -/
theorem noteWrite_eq (m : Machine) (h : Handle) : ∃ log, m.noteWrite h = { m with log := log } := by
  refine List.foldlRecOn (motive := fun m' => ∃ log, m' = { m with log := log }) _ _
    ⟨m.log, rfl⟩ fun m₁ h₁ g _ => ?_
  refine List.foldlRecOn (motive := fun m' => ∃ log, m' = { m with log := log }) _ _ h₁
    fun m₂ h₂ label _ => ?_
  obtain ⟨log, rfl⟩ := h₂
  exact ⟨_, rfl⟩

theorem Orderly.noteWrite (hm : m.Orderly held) : m.Settles (m.noteWrite h) held := by
  obtain ⟨log, hlog⟩ := m.noteWrite_eq h
  rw [hlog]
  exact hm.settles_of_eq rfl rfl rfl rfl rfl rfl

/-- A scalar that is overwritten gives up what it has owned. -/
theorem Orderly.setScalar {former : Scalar} (hm : m.Orderly (s.owned ++ held))
    (hb : m.body h = .scalar former) :
    m.Settles (m.setBody h (.scalar s)) (former.owned ++ held) := by
  refine hm.setBody (.scalar s) (by rw [isFreed, hb]; rfl) rfl fun k => ?_
  rw [hb]
  simp only [Body.owned, List.count_append]
  omega

theorem Orderly.replaceScalar {former : Scalar} (hm : m.Orderly (s.owned ++ held))
    (hb : m.body h = .scalar former) : m.Settles (m.replaceScalar h former s) held := by
  have hset := hm.setScalar hb
  have hrelease := Orderly.releaseAll former.owned hset.orderly
  exact hset.trans (hrelease.trans hrelease.orderly.noteWrite)

/-- What a store that returns has done. -/
theorem store_ok (hr : store h s m = .ok u m') :
    ∃ former, m.body h = .scalar former ∧ (m.cell h).immortal = false
      ∧ m' = m.replaceScalar h former s := by
  simp only [store, Run.look_bind] at hr
  split at hr
  next => cases hr
  next hi =>
    rw [Bool.not_eq_true] at hi
    cases hb : (m.cell h).body with
    | scalar former =>
      rw [hb] at hr
      cases hr
      exact ⟨former, hb, hi, rfl⟩
    | _ => rw [hb] at hr; cases hr

theorem Orderly.store (hm : m.Orderly (s.owned ++ held)) (hr : store h s m = .ok u m') :
    m.Settles m' held := by
  obtain ⟨former, hb, -, rfl⟩ := store_ok hr
  exact hm.replaceScalar hb

/-! ### Readings -/

theorem Orderly.runReadAction {g : Magic} {a : ReadAction} (hm : m.Orderly held)
    (hr : runReadAction h g a m = .ok u m') : m.Settles m' held := by
  cases a with
  | record label =>
    cases hr
    exact hm.settles_of_eq rfl rfl rfl rfl rfl rfl
  | tick =>
    simp only [Machine.runReadAction, Run.change_bind, Run.look_bind] at hr
    have htick : m.Settles { m with ticks := m.ticks + 1 } held :=
      hm.settles_of_eq rfl rfl rfl rfl rfl rfl
    exact htick.trans (Orderly.store (s := .ofInt64 _) htick.orderly hr)

theorem Orderly.runReadHooks (hm : m.Orderly held) (hr : runReadHooks h m = .ok u m') :
    m.Settles m' held := by
  simp only [Machine.runReadHooks, Run.look_bind] at hr
  refine Run.forM_ok (fun _ m' => m.Settles m' held) (fun g _ m₁ m₂ h₁ hg => ?_) (.refl hm) hr
  refine Run.forM_ok (fun _ m' => m.Settles m' held) (fun a _ m₁ m₂ h₁ ha => ?_) h₁ hg
  exact h₁.trans (h₁.orderly.runReadAction ha)

/-- A reading: hooks, and a look at what is there then. -/
theorem Orderly.reading {α : Type} {f : Machine → α} {a : α} (hm : m.Orderly held)
    (hr : (do Machine.runReadHooks h; Run.look f : Run α) m = .ok a m') : m.Settles m' held := by
  obtain ⟨_, m₁, hhooks, hlook⟩ := Run.bind_ok hr
  cases hlook
  exact hm.runReadHooks hhooks

/-! ### Copies -/

theorem Orderly.foldl_retain {hs : List Handle} (hm : m.Orderly held)
    (hf : ∀ k ∈ hs, m.isFreed k = false) : m.Settles (hs.foldl Machine.retain m) (hs ++ held) := by
  induction hs generalizing m held with
  | nil => exact .refl hm
  | cons k rest ih =>
    have hk := hm.retain (hf k (List.mem_cons_self ..))
    have hstay : ∀ j, (m.retain k).isFreed j = m.isFreed j := fun j => by
      unfold Machine.retain
      split
      · rfl
      · simp only [isFreed, body, cell, heap_onHeap, Heap.update, Heap.get_set]
        split
        next hj => rw [hj.1]
        next => rfl
    have hrest := ih hk.orderly fun j hj => (hstay j).trans (hf j (List.mem_cons_of_mem _ hj))
    exact (hk.trans hrest).perm List.perm_middle

/-- What a body in the heap owns is not freed. -/
theorem Orderly.not_isFreed_of_mem_owned {k : Handle} (hm : m.Orderly held)
    (hk : k ∈ (m.body h).owned) : m.isFreed k = false := by
  refine hm.not_isFreed_of_owned ?_
  have hpos := m.owners_pos_of_mem_owned hk
  omega

theorem body_of_scalar? (hs : m.scalar? h = some s) : m.body h = .scalar s := by
  simp only [scalar?] at hs
  cases hb : m.body h with
  | scalar s' => rw [hb] at hs; cases hs; rfl
  | _ => rw [hb] at hs; cases hs

theorem Orderly.copySlots (hm : m.Orderly held) (hr : copySlots h m = .ok s m') :
    m.Settles m' (s.owned ++ held) := by
  obtain ⟨_, m₁, hhooks, hcopy⟩ := Run.bind_ok hr
  have h₁ := hm.runReadHooks hhooks
  simp only [Run.look_bind] at hcopy
  cases hs : m₁.scalar? h with
  | none => rw [hs] at hcopy; cases hcopy
  | some s' =>
    rw [hs] at hcopy
    cases hcopy
    refine h₁.trans (h₁.orderly.foldl_retain fun k hk => ?_)
    refine h₁.orderly.not_isFreed_of_mem_owned (h := h) ?_
    rw [body_of_scalar? hs]
    exact hk

theorem newScalar_ok {k : Handle} (hr : newScalar s m = .ok k m') :
    k = m.heap.next ∧ m' = (m.alloc (.scalar s)).2 := by
  cases hr
  exact ⟨rfl, rfl⟩

theorem Orderly.newScalar {k : Handle} (hm : m.Orderly (s.owned ++ held))
    (hr : newScalar s m = .ok k m') : m.Settles m' (k :: held) := by
  cases hr
  exact Orderly.alloc (.scalar s) hm rfl

theorem Orderly.newCopy {k : Handle} (hm : m.Orderly held) (hr : newCopy h m = .ok k m') :
    m.Settles m' (k :: held) := by
  obtain ⟨s, m₁, hcopy, halloc⟩ := Run.bind_ok hr
  have h₁ := hm.copySlots hcopy
  exact h₁.trans (h₁.orderly.newScalar halloc)

theorem Orderly.assign {dst src : Handle} (hm : m.Orderly held) (hr : assign dst src m = .ok u m') :
    m.Settles m' held := by
  simp only [Machine.assign] at hr
  split at hr
  next => cases hr; exact .refl hm
  next =>
    obtain ⟨s, m₁, hcopy, hstore⟩ := Run.bind_ok hr
    have h₁ := hm.copySlots hcopy
    exact h₁.trans (h₁.orderly.store hstore)

/-! ### References -/

theorem Orderly.newReference {target k : Handle} (hm : m.Orderly held)
    (ht : m.isFreed target = false) (hr : newReference target m = .ok k m') :
    m.Settles m' (k :: held) := by
  simp only [Machine.newReference, Run.change_bind] at hr
  have hretain := hm.retain ht
  exact hretain.trans (Orderly.newScalar (s := .ofTarget target) hretain.orderly hr)

theorem Orderly.storeReference {target : Handle} (hm : m.Orderly held)
    (ht : m.isFreed target = false) (hr : storeReference h target m = .ok u m') :
    m.Settles m' held := by
  simp only [Machine.storeReference, Run.change_bind] at hr
  have hretain := hm.retain ht
  exact hretain.trans (Orderly.store (s := .ofTarget target) hretain.orderly hr)

theorem Orderly.bless {className : String} (hm : m.Orderly held)
    (hr : bless h className m = .ok u m') : m.Settles m' held := by
  simp only [Machine.bless, Run.look_bind] at hr
  cases ht : m.target? h with
  | some target =>
    rw [ht] at hr
    cases hr
    exact hm.decorate id (fun _ => some className) (hm.harmless target)
  | none => rw [ht] at hr; cases hr

theorem Orderly.storeObject {className : Option String} {n : Int64} (hm : m.Orderly held)
    (hr : storeObject h className n m = .ok u m') : m.Settles m' held := by
  obtain ⟨target, m₁, halloc, hr⟩ := Run.bind_ok hr
  obtain ⟨_, m₂, hstore, hbless⟩ := Run.bind_ok hr
  have h₁ := Orderly.newScalar (s := .ofInt64 n) hm halloc
  have h₂ := Orderly.store (s := .ofTarget target) h₁.orderly hstore
  cases className with
  | none => cases hbless; exact h₁.trans h₂
  | some c => exact h₁.trans (h₂.trans (h₂.orderly.bless hbless))

end ValueMachine.Machine

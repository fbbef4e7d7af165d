import ValueMachine.Host.Scalar
import ValueMachine.Proofs.Ownership.Duplicates
import ValueMachine.Proofs.Ownership.Teardown

/-! Assignment by host code. It gives one value other slots and releases what the former ones owned.
What interpreters or host code own, directly or through other values, keeps its body. -/

namespace ValueMachine

namespace Machine

variable {m m' m₁ m₂ : Machine} {held held₁ : List Handle} {h k : Handle} {s former : Scalar} {u : Unit}

/-! ### What is in use -/

/-- Interpreters or host code own a value, directly or through other values. -/
inductive InUse (m : Machine) (held : List Handle) : Handle → Prop
  | interp {p : InterpId × Interp} {k : Handle} : p ∈ m.interps → k ∈ p.2.owned → InUse m held k
  | held {k : Handle} : k ∈ held → InUse m held k
  | value {h k : Handle} : InUse m held h → m.Owns h k → InUse m held k

theorem InUse.mono {held' : List Handle} (hsub : held ⊆ held') (hk : m.InUse held k) :
    m.InUse held' k := by
  induction hk with
  | interp hp hk => exact .interp hp hk
  | held hk => exact .held (hsub hk)
  | value _ hk ih => exact .value ih hk

/-- What an interpreter owns has an owner. -/
theorem owners_pos_of_interp {p : InterpId × Interp} (hp : p ∈ m.interps) (hk : k ∈ p.2.owned) :
    0 < m.owners k := by
  rcases List.mem_cons.1 hp with rfl | hp
  · have hcount : 0 < m.interp.owned.count k := List.count_pos_iff.2 hk
    simp only [owners]
    omega
  · have hcount := List.count_pos_iff.2
      (List.mem_flatMap (f := fun q : InterpId × Interp => q.2.owned).2 ⟨p, hp, hk⟩)
    simp only [owners]
    omega

/-- What is in use has an owner. -/
theorem InUse.owners_ne_zero (hk : m.InUse held k) : m.owners k + held.count k ≠ 0 := by
  cases hk with
  | interp hp hk =>
    have := owners_pos_of_interp hp hk
    omega
  | held hk =>
    have := List.count_pos_iff.2 hk
    omega
  | value _ hk =>
    have := m.owners_pos_of_mem_owned hk
    omega

theorem Orderly.not_isFreed_of_inUse (hm : m.Orderly held) (hk : m.InUse held k) :
    m.isFreed k = false :=
  hm.not_isFreed_of_owned hk.owners_ne_zero

/-- Which interpreter is in focus is no matter of what is in use. -/
theorem inUse_focus_iff (hm : m.Orderly held₁) (i : InterpId) :
    (m.focus i).InUse held k ↔ m.InUse held k := by
  have hinterps {p : InterpId × Interp} := (perm_interps_focus hm.ids i).mem_iff (a := p)
  have howns {h k : Handle} : (m.focus i).Owns h k ↔ m.Owns h k := by
    rw [Owns, Owns, body, body, cell, cell, heap_focus]
  constructor
  · intro hk
    induction hk with
    | interp hp hk => exact .interp (hinterps.1 hp) hk
    | held hk => exact .held hk
    | value _ hk ih => exact .value ih (howns.1 hk)
  · intro hk
    induction hk with
    | interp hp hk => exact .interp (hinterps.2 hp) hk
    | held hk => exact .held hk
    | value _ hk ih => exact .value ih (howns.2 hk)

/-- Names stay different, and interpreters own what they owned. -/
structure KeepsRoots (m m' : Machine) : Prop where
  names : (m'.interp.symbols.map (·.1)).Nodup
  owned : m.interp.owned ⊆ m'.interp.owned
  others : m'.others = m.others

namespace KeepsRoots

theorem of_eq (hm : m.KeepsRoots m₁) (interp : m₂.interp = m₁.interp) (others : m₂.others = m₁.others) :
    m.KeepsRoots m₂ where
  names := interp ▸ hm.names
  owned := interp ▸ hm.owned
  others := others.trans hm.others

theorem retain (hm : m.KeepsRoots m₁) (k : Handle) : m.KeepsRoots (m₁.retain k) := by
  unfold Machine.retain
  split
  · exact hm
  · exact hm.of_eq rfl rfl

theorem global (hm : m.KeepsRoots m₁) (sigil : Sigil) (name : String) :
    m.KeepsRoots (m₁.global sigil name).2 := by
  cases hg : m₁.global? sigil name with
  | some h =>
    simp only [Machine.global, hg]
    exact hm
  | none =>
    simp only [Machine.global, hg, updateGlob_set]
    refine ⟨nodup_setSymbol _ _ _ _ hm.names, fun k hk => ?_, hm.others⟩
    -- the slot was empty, and so nothing of what the symbols owned is lost
    have hcount := count_owned_setSymbol m₁.interp.symbols (Qualified.qualify name) sigil
      m₁.heap.next k hm.names
    simp only [global?, glob?] at hg
    rw [hg] at hcount
    have hpos := List.count_pos_iff.2 (hm.owned hk)
    refine List.count_pos_iff.1 ?_
    simp only [Interp.owned, Machine.alloc, onInterp, List.count_append] at hpos ⊢
    simp only [Option.toList_none, List.count_nil] at hcount
    omega

theorem keptByRelease (m : Machine) : KeptByRelease m.KeepsRoots fun _ => True where
  records _ _ _ _ _ := trivial
  lower _ _ hm := hm.of_eq rfl rfl
  strip _ _ hm := hm.of_eq rfl rfl
  noteFreed _ _ hm := hm.of_eq rfl rfl
  revive _ name _ hm _ _ := (hm.global .scalar name).of_eq rfl rfl
  unclaim _ _ hm := hm.of_eq rfl rfl
  touch _ k _ hm _ _ := hm.retain k
  vacate _ _ hm := ⟨hm.names, hm.owned, hm.others⟩

theorem replaceScalar (hm : (m.interp.symbols.map (·.1)).Nodup) (h : Handle) (former s : Scalar) :
    m.KeepsRoots (m.replaceScalar h former s) := by
  have hset : m.KeepsRoots (m.setBody h (.scalar s)) := ⟨hm, List.Subset.refl _, rfl⟩
  obtain ⟨log, hlog⟩ := ((m.setBody h (.scalar s)).releaseAll former.owned).noteWrite_eq h
  rw [Machine.replaceScalar, hlog]
  exact ((keptByRelease m).releaseAll former.owned hset).of_eq rfl rfl

/-- What an interpreter owns an interpreter owns afterwards. -/
theorem interps (hm : m.KeepsRoots m') {p : InterpId × Interp} (hp : p ∈ m.interps)
    (hk : k ∈ p.2.owned) : ∃ q ∈ m'.interps, k ∈ q.2.owned := by
  rcases List.mem_cons.1 hp with rfl | hp
  · exact ⟨_, List.mem_cons_self, hm.owned hk⟩
  · exact ⟨p, List.mem_cons_of_mem _ (hm.others ▸ hp), hk⟩

end KeepsRoots

/-- What is in use, whatever host code does with a value that it holds, keeps its body when that value
is assigned to. -/
theorem Orderly.store_keeps (hm : m.Orderly (s.owned ++ h :: held))
    (hr : Machine.store h s m = .ok u m') (huse : ¬ m.InUse held h) (hk : m.InUse held k) :
    m'.isFreed k = false ∧ m'.body k = m.body k := by
  have hm' : m'.Orderly (h :: held) := (hm.store hr).orderly
  obtain ⟨former, -, -, rfl⟩ := store_ok hr
  have hspares := Spares.replaceScalar m h former s
  have hroots := KeepsRoots.replaceScalar hm.names_focus h former s
  have hbody {k : Handle} (hk : m.InUse held k)
      (hf : (m.replaceScalar h former s).isFreed k = false) :
      (m.replaceScalar h former s).body k = m.body k := by
    have hne : k ≠ h := fun e => huse (e ▸ hk)
    have hheld : held ⊆ s.owned ++ h :: held := fun _ hj =>
      List.mem_append_right _ (List.mem_cons_of_mem _ hj)
    have hlive := hm.not_isFreed_of_inUse (hk.mono hheld)
    exact hspares.body_eq hne (index_lt_of_not_isFreed hlive) hf
  suffices hf : (m.replaceScalar h former s).isFreed k = false from ⟨hf, hbody hk hf⟩
  induction hk with
  | interp hp hk =>
    obtain ⟨q, hq, hk⟩ := hroots.interps hp hk
    exact hm'.not_isFreed_of_inUse (.interp hq hk)
  | held hk => exact hm'.not_isFreed_of_mem (List.mem_cons_of_mem _ hk)
  | value hh hk ih =>
    rw [Owns, ← hbody hh ih] at hk
    have hpos := owners_pos_of_mem_owned (m.replaceScalar h former s) hk
    exact hm'.not_isFreed_of_owned (by omega)

/-! ### Assignment by host code -/

/-- An assignment has changed one value only. Where its former slots own nothing the other cells are
what they were; and where they do, what is in use without the value keeps its body. -/
structure Confined (m : Machine) (v : Held) (s : Scalar) (m' : Machine) : Prop where
  spares : Spares v.handle m m'
  cell : (m.body v.handle).owned = [] → ∀ k, k ≠ v.handle → m'.cell k = m.cell k
  inUse : ∀ {held k}, m.Orderly (s.owned ++ v.handle :: held) → m.InUse held k →
    m'.isFreed k = false ∧ m'.body k = m.body k

end Machine

namespace HostScalar

open Machine

variable {m m' : Machine} {v : Held} {s former : Scalar} {u : Unit} {held : List Handle} {k : Handle}

/-- New slots are stored with the interpreter of the value in focus. -/
theorem put_ok (hr : put v s m = .ok u m') :
    ∃ m₁, store v.handle s (m.focus v.owner) = .ok () m₁ ∧ m' = m₁.focus m.here := by
  simp only [put, onInterpreter, Run.look_bind, Run.change_bind, Run.always_apply] at hr
  split at hr
  next _ m₁ hstore =>
    cases hr
    exact ⟨m₁, hstore, rfl⟩
  next => cases hr

/-- Whatever is stored, only the value itself has another body afterwards, and others are gone at
most. -/
theorem put_spares (hr : put v s m = .ok u m') : Spares v.handle m m' := by
  obtain ⟨m₁, hstore, rfl⟩ := put_ok hr
  obtain ⟨former, -, -, rfl⟩ := store_ok hstore
  have hfocus : Spares v.handle m (m.focus v.owner) := .of_heap_eq (heap_focus m v.owner)
  exact hfocus.trans ((Spares.replaceScalar _ _ former s).trans (.of_heap_eq (heap_focus _ _)))

/-- What is in use without the value keeps its body. -/
theorem put_keeps (hm : m.Orderly (s.owned ++ v.handle :: held)) (huse : ¬ m.InUse held v.handle)
    (hr : put v s m = .ok u m') (hk : m.InUse held k) :
    m'.isFreed k = false ∧ m'.body k = m.body k := by
  obtain ⟨m₁, hstore, rfl⟩ := put_ok hr
  have hfocus := hm.focus v.owner
  have huse' : ¬ (m.focus v.owner).InUse held v.handle := fun hv => huse ((inUse_focus_iff hm _).1 hv)
  have hkeeps := hfocus.store_keeps hstore huse' ((inUse_focus_iff hm _).2 hk)
  simpa only [isFreed, body, Machine.cell, heap_focus] using hkeeps

/-- A scalar with one count can be assigned to, and the assignment is confined to it. -/
theorem put_confined (hc : m.cell v.handle = .fresh (.scalar former)) (s : Scalar) :
    ∃ m', put v s m = .ok () m' ∧ m.Confined v s m' := by
  have hstore : store v.handle s (m.focus v.owner)
      = .ok () ((m.focus v.owner).replaceScalar v.handle former s) := by
    rw [store, Run.look_bind, Machine.cell, heap_focus, ← Machine.cell, hc]
    rfl
  have hput : put v s m
      = .ok () (((m.focus v.owner).replaceScalar v.handle former s).focus m.here) := by
    simp only [put, onInterpreter, Run.look_bind, Run.change_bind, Run.always_apply, hstore]
  refine ⟨_, hput, put_spares hput, fun howned k hk => ?_, fun {held k} hm hk => ?_⟩
  · have hformer : former.owned = [] := by
      rwa [Machine.body, hc] at howned
    obtain ⟨log, hlog⟩ := ((m.focus v.owner).setBody v.handle (.scalar s)).noteWrite_eq v.handle
    have hheap : (((m.focus v.owner).replaceScalar v.handle former s).focus m.here).heap
        = m.heap.update v.handle fun c => { c with body := .scalar s } := by
      rw [heap_focus, replaceScalar, hformer]
      show (((m.focus v.owner).setBody v.handle (.scalar s)).noteWrite v.handle).heap = _
      rw [hlog]
      simp [setBody]
    rw [Machine.cell, hheap, Heap.update, Heap.get_set_ne _ _ _ _ hk]
    rfl
  · -- its holder has the one count, and so nothing in use owns it
    have hone := hm.count_eq v.handle (by rw [hc]; rfl)
    rw [hc] at hone
    simp only [Cell.fresh, List.count_append, List.count_cons_self] at hone
    have huse : ¬ m.InUse held v.handle := fun hv => by
      have := hv.owners_ne_zero
      omega
    exact put_keeps hm huse hput hk

end HostScalar

end ValueMachine

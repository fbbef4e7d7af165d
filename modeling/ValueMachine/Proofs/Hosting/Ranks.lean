import ValueMachine.Proofs.Calls.Overall

/-! The ranks of interpreters: which are there, which are alive and which is the current one. Whatever
interpreters do keeps them, calls from host code and into it included, as long as the bodies of subs
keep them. -/

namespace ValueMachine

namespace Machine

variable {m m' m₁ m₂ m₃ : Machine} {i : InterpId}

/-- An interpreter is there, in focus or not. -/
def Knows (m : Machine) (i : InterpId) : Prop := i ∈ m.here :: m.others.map (·.1)

instance (m : Machine) (i : InterpId) : Decidable (m.Knows i) :=
  inferInstanceAs (Decidable (i ∈ _))

theorem knows_here (m : Machine) : m.Knows m.here := List.mem_cons_self

theorem knows_focus (m : Machine) (i j : InterpId) (hj : m.Knows j) : (m.focus i).Knows j := by
  unfold focus
  split
  · exact hj
  next hi =>
    split
    next k other hf =>
      have hk : k = i := by simpa using List.find?_some hf
      rcases List.mem_cons.1 hj with rfl | hj
      · exact List.mem_cons_of_mem _ List.mem_cons_self
      by_cases hji : j = i
      · exact hji ▸ List.mem_cons_self
      · obtain ⟨p, hp, rfl⟩ := List.mem_map.1 hj
        have hp' : p ∈ m.others.filter (·.1 ≠ i) := List.mem_filter.2 ⟨hp, by simpa using hji⟩
        exact List.mem_cons_of_mem _ (List.mem_cons_of_mem _ (List.mem_map_of_mem hp'))
    next => exact hj

theorem here_focus_of_knows (hi : m.Knows i) : (m.focus i).here = i := by
  refine here_focus ?_
  unfold stacksOf
  split
  · rfl
  next hne =>
    obtain ⟨p, hp, rfl⟩ := List.mem_map.1 ((List.mem_cons.1 hi).resolve_left hne)
    rw [Option.isSome_map]
    exact List.find?_isSome.2 ⟨p, hp, by simp⟩

theorem focus_ranks (m : Machine) (i : InterpId) :
    (m.focus i).alive = m.alive ∧ (m.focus i).current = m.current := by
  unfold focus
  split
  · exact ⟨rfl, rfl⟩
  · split <;> exact ⟨rfl, rfl⟩

/-- The interpreters that are there stay, the same are alive and the same one is current. -/
structure KeepsRanks (m m' : Machine) : Prop where
  here : m'.here = m.here
  knows : ∀ i, m.Knows i → m'.Knows i
  alive : m'.alive = m.alive
  current : m'.current = m.current

namespace KeepsRanks

/-- What is done to the values and the interpreter in focus is nothing to ranks. -/
theorem of_eq (here : m'.here = m.here) (others : m'.others = m.others)
    (alive : m'.alive = m.alive) (current : m'.current = m.current) : m.KeepsRanks m' where
  here := here
  knows i hi := by rwa [Knows, here, others]
  alive := alive
  current := current

theorem refl (m : Machine) : m.KeepsRanks m := .of_eq rfl rfl rfl rfl

theorem trans (h : m₁.KeepsRanks m₂) (h' : m₂.KeepsRanks m₃) : m₁.KeepsRanks m₃ where
  here := h'.here.trans h.here
  knows i hi := h'.knows i (h.knows i hi)
  alive := h'.alive.trans h.alive
  current := h'.current.trans h.current

theorem onInterp (m : Machine) (f : Interp → Interp) : m.KeepsRanks (m.onInterp f) :=
  .of_eq rfl rfl rfl rfl

theorem onHeap (m : Machine) (f : Heap → Heap) : m.KeepsRanks (m.onHeap f) :=
  .of_eq rfl rfl rfl rfl

theorem retain (m : Machine) (h : Handle) : m.KeepsRanks (m.retain h) := by
  unfold Machine.retain
  split
  · exact refl m
  · exact onHeap m _

theorem global (m : Machine) (s : Sigil) (name : String) : m.KeepsRanks (m.global s name).2 := by
  unfold Machine.global
  split
  · exact refl m
  · exact .of_eq rfl rfl rfl rfl

theorem keptByRelease (m : Machine) : KeptByRelease m.KeepsRanks fun _ => True where
  records _ _ _ _ _ := trivial
  lower m' _ hm := hm.trans (onHeap m' _)
  strip m' _ hm := hm.trans (onHeap m' _)
  noteFreed _ _ hm := hm.trans (.of_eq rfl rfl rfl rfl)
  revive m' name _ hm _ _ := hm.trans ((global m' .scalar name).trans (onHeap _ _))
  unclaim _ _ hm := hm.trans (.of_eq rfl rfl rfl rfl)
  touch m' h _ hm _ _ := hm.trans (retain m' h)
  vacate m' _ hm := hm.trans ((onHeap m' _).trans (onInterp _ _))

theorem releaseAll (m : Machine) (hs : List Handle) : m.KeepsRanks (m.releaseAll hs) :=
  (keptByRelease m).releaseAll hs (refl m)

/-- With another interpreter in focus for a while. -/
theorem focus (i : InterpId) (h : (m.focus i).KeepsRanks m') : m.KeepsRanks (m'.focus m.here) := by
  have hthere := m.focus_ranks i
  have hback := m'.focus_ranks m.here
  exact {
    here := here_focus_of_knows (h.knows _ (m.knows_focus i _ m.knows_here))
    knows := fun j hj => m'.knows_focus m.here j (h.knows j (m.knows_focus i j hj))
    alive := hback.1.trans (h.alive.trans hthere.1)
    current := hback.2.trans (h.current.trans hthere.2) }

theorem drop (m : Machine) (v : Held) : m.KeepsRanks (m.drop v) := by
  unfold Machine.drop
  split
  · exact focus v.owner (releaseAll _ [v.handle])
  · exact refl m

end KeepsRanks

end Machine

open Machine

namespace Manner

/-- Ranks are kept, however an operation ends. -/
def ranked : Manner := .uniform KeepsRanks.refl KeepsRanks.trans

theorem ranked_overall : ranked.Overall where
  exits := .rfl
  fails := .rfl
  cleans := .rfl
  onInterp := KeepsRanks.onInterp
  alloc _ _ _ := .of_eq rfl rfl rfl rfl
  retain := KeepsRanks.retain
  setBody _ _ _ := .onHeap _ _
  name _ _ _ := .onHeap _ _
  releaseAll := KeepsRanks.releaseAll
  noteAccess _ _ := .of_eq rfl rfl rfl rfl
  tick _ := .of_eq rfl rfl rfl rfl
  claim m i := by
    unfold Machine.claim
    split <;> exact .of_eq rfl rfl rfl rfl
  attach _ _ _ := .onHeap _ _
  drop := KeepsRanks.drop
  cross {α} i x hx m := by
    have hend := hx (m.focus i)
    simp only [onInterpreter, Run.look_bind, Run.change_bind, Run.always_apply]
    cases hr : x (m.focus i) <;> (rw [hr] at hend; exact KeepsRanks.focus i hend)
  noteBoot _ _ := .of_eq rfl rfl rfl rfl

end Manner

end ValueMachine

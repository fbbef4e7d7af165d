import ValueMachine.Proofs.Ownership.Holders
import ValueMachine.Proofs.Ownership.Inspection

/-! The teardown of an interpreter. Without globals, temporaries and modules nothing but values owns
values, and where no value owns itself, directly or through others, there is a first one that nobody
owns. So a teardown frees all that the interpreter and its values own, whatever lay on its stacks. -/

namespace ValueMachine

namespace Machine

variable {m m₁ m₂ m₃ : Machine} {values : Finset Handle} {held held' : List Handle} {h k : Handle}

/-- A value owns a count on another. -/
def Owns (m : Machine) (h k : Handle) : Prop := k ∈ (m.body h).owned

/-- No release hook makes a value. -/
def Barren (m : Machine) : Prop :=
  ∀ h, ∀ g ∈ (m.cell h).magic, ∀ name, FreeAction.revive name ∉ g.table.onFree

/-- What is left of some values. -/
def remaining (m : Machine) (values : Finset Handle) : Finset Handle :=
  values.filter fun h => m.isFreed h = false

/-- Some values belong to the interpreter in focus: none of them is shared, nobody but the
interpreter and they themselves own them, and the interpreter counts no more than are left. -/
structure Encloses (m : Machine) (values : Finset Handle) (held : List Handle) : Prop where
  counted : ∀ h ∈ values, (m.cell h).immortal = false
  unheld : ∀ h ∈ values, h ∉ held
  unshared : ∀ h ∈ values, ∀ p ∈ m.others, h ∉ p.2.owned
  owners : ∀ h k, m.Owns h k → k ∈ values → h ∈ values
  live_le : m.interp.live ≤ (m.remaining values).card

theorem mem_remaining : h ∈ m.remaining values ↔ h ∈ values ∧ m.isFreed h = false :=
  Finset.mem_filter

theorem remaining_congr (hb : ∀ h, m₂.body h = m₁.body h) (values : Finset Handle) :
    m₂.remaining values = m₁.remaining values := by
  ext k
  rw [mem_remaining, mem_remaining, isFreed, isFreed, hb]

theorem body_set (c : Cell) (k : Handle) :
    (m.onHeap (·.set h c)).body k = if k = h ∧ h.index < m.heap.size then c.body else m.body k := by
  simp only [body, cell, heap_onHeap, Heap.get_set]
  split <;> rfl

/-- All counted values. -/
def counts (m : Machine) : Finset Handle :=
  ((Finset.range m.heap.size).image Handle.mk).filter fun h => (m.cell h).immortal = false

/-- A release frees some values and changes nothing else, and counts no value twice. -/
structure Thins (m m' : Machine) (values : Finset Handle) : Prop where
  body : ∀ h, m'.body h = m.body h ∨ m'.body h = .freed
  interp : ∃ live, m'.interp = { m.interp with live := live }
  others : m'.others = m.others
  barren : m'.Barren
  live_le : m'.interp.live ≤ (m'.remaining values).card

namespace Barren

theorem set (hm : m.Barren) (c : Cell)
    (hc : ∀ g ∈ c.magic, ∀ name, FreeAction.revive name ∉ g.table.onFree) :
    (m.onHeap (·.set h c)).Barren := by
  intro k
  simp only [cell, heap_onHeap, Heap.get_set]
  split
  · exact hc
  · exact hm k

theorem thins (hm : m.Barren) (hl : m.interp.live ≤ (m.remaining values).card) :
    m.Thins m values :=
  ⟨fun _ => .inl rfl, ⟨_, rfl⟩, rfl, hm, hl⟩

end Barren

namespace Thins

theorem of_eq (hm : m.Thins m₁ values) (heap : m₂.heap = m₁.heap) (interp : m₂.interp = m₁.interp)
    (others : m₂.others = m₁.others) : m.Thins m₂ values where
  body k := by simpa only [Machine.body, cell, heap] using hm.body k
  interp := by rw [interp]; exact hm.interp
  others := others.trans hm.others
  barren k := by simpa only [cell, heap] using hm.barren k
  live_le := by
    have hbody (k : Handle) : m₂.body k = m₁.body k := by
      rw [Machine.body, Machine.body, cell, cell, heap]
    rw [interp, remaining_congr hbody]
    exact hm.live_le

/-- A cell that keeps its body. -/
theorem set (hm : m.Thins m₁ values) (c : Cell) (hb : c.body = m₁.body h)
    (hc : ∀ g ∈ c.magic, ∀ name, FreeAction.revive name ∉ g.table.onFree) :
    m.Thins (m₁.onHeap (·.set h c)) values := by
  have hbody (k : Handle) : (m₁.onHeap (·.set h c)).body k = m₁.body k := by
    rw [body_set]
    split
    next hk => rw [hk.1, hb]
    next => rfl
  refine ⟨fun k => by rw [hbody]; exact hm.body k, hm.interp, hm.others, hm.barren.set c hc, ?_⟩
  rw [remaining_congr hbody]
  exact hm.live_le

/-- One value goes, and one less is counted. -/
theorem vacate (hm : m.Thins m₁ values) (h : Handle) : m.Thins (m₁.vacate h) values := by
  have hbody (k : Handle) : (m₁.vacate h).body k
      = if k = h ∧ h.index < m₁.heap.size then .freed else m₁.body k := body_set .freed k
  refine ⟨fun k => ?_, ?_, hm.others, hm.barren.set (h := h) .freed (by simp [Cell.freed]), ?_⟩
  · rw [hbody]
    split
    · exact .inr rfl
    · exact hm.body k
  · obtain ⟨live, hlive⟩ := hm.interp
    exact ⟨live - 1, by simp only [Machine.vacate, onHeap, onInterp, hlive]⟩
  · have hrest : (m₁.remaining values).erase h ⊆ (m₁.vacate h).remaining values := by
      intro k hk
      rw [Finset.mem_erase, mem_remaining] at hk
      rw [mem_remaining, isFreed, hbody, if_neg fun hkh => hk.1 hkh.1]
      exact hk.2
    have hcard := Finset.card_le_card hrest
    have hpred := Finset.pred_card_le_card_erase (s := m₁.remaining values) (a := h)
    have hlive := hm.live_le
    show m₁.interp.live - 1 ≤ _
    omega

end Thins

theorem thins_keptByRelease (m : Machine) (values : Finset Handle) :
    KeptByRelease (fun m' => m.Thins m' values)
      fun g => ∀ name, FreeAction.revive name ∉ g.table.onFree where
  records m' h hm := hm.barren h
  lower m' h hm := hm.set _ rfl (hm.barren h)
  strip m' h hm := hm.set _ rfl (by simp)
  noteFreed m' e hm := hm.of_eq rfl rfl rfl
  revive m' name g _ hg ha := absurd ha (hg name)
  unclaim m' w hm := hm.of_eq rfl rfl rfl
  touch m' h g hm _ _ := by
    unfold retain
    split
    · exact hm
    · exact hm.set _ rfl (hm.barren h)
  vacate m' h hm := hm.vacate h

/-! ### The stages of a teardown -/

/-- A teardown on its way: some values are freed, and the others are as they were. -/
structure Declines (m m' : Machine) (values : Finset Handle) (held : List Handle) : Prop where
  orderly : m'.Orderly held
  ages : m.Ages m'
  body : ∀ h, m'.body h = m.body h ∨ m'.body h = .freed
  others : m'.others = m.others
  barren : m'.Barren
  live_le : m'.interp.live ≤ (m'.remaining values).card

namespace Declines

theorem refl (hm : m.Orderly held) (hv : m.Encloses values held) (hb : m.Barren) :
    m.Declines m values held :=
  ⟨hm, .refl m, fun _ => .inl rfl, rfl, hb, hv.live_le⟩

/-- The interpreter lets counts go, or takes others over. -/
theorem onInterp (hd : m.Declines m₁ values held) (f : Interp → Interp)
    (hc : ∀ k, (f m₁.interp).owned.count k + held'.count k
      = m₁.interp.owned.count k + held.count k)
    (hn : ((f m₁.interp).symbols.map (·.1)).Nodup) (hl : (f m₁.interp).live = m₁.interp.live) :
    m.Declines (m₁.onInterp f) values held' := by
  have hsettles := hd.orderly.onInterp f hc hn hl
  exact ⟨hsettles.orderly, hd.ages.trans hsettles.ages, hd.body, hd.others, hd.barren,
    hl.trans_le hd.live_le⟩

theorem releaseAll (hs : List Handle) (hd : m.Declines m₁ values (hs ++ held)) :
    m.Declines (m₁.releaseAll hs) values held ∧
      ∃ live, (m₁.releaseAll hs).interp = { m₁.interp with live := live } := by
  have hsettles := hd.orderly.releaseAll hs
  have hthins := (thins_keptByRelease m₁ values).releaseAll hs (hd.barren.thins hd.live_le)
  refine ⟨⟨hsettles.orderly, hd.ages.trans hsettles.ages, fun k => ?_,
    hthins.others.trans hd.others, hthins.barren, hthins.live_le⟩, hthins.interp⟩
  rcases hthins.body k with hk | hk
  · rw [hk]
    exact hd.body k
  · exact .inr hk

theorem freeTemps (hd : m.Declines m₁ values held) :
    m.Declines m₁.freeTemps values held ∧ ∃ live, m₁.freeTemps.interp
      = { m₁.interp with temps := m₁.interp.temps.cut m₁.interp.floor, live := live } := by
  refine releaseAll _ (hd.onInterp (fun i => { i with temps := i.temps.cut i.floor }) (fun k => ?_)
    hd.orderly.names_focus rfl)
  have := (perm_downTo_cut m₁.interp.temps m₁.interp.floor).count_eq k
  simp only [Interp.owned, List.count_append] at this ⊢
  omega

theorem releaseGlobals (hd : m.Declines m₁ values held) :
    m.Declines m₁.releaseGlobals values held ∧ ∃ live, m₁.releaseGlobals.interp
      = { m₁.interp with
          symbols := [], error := none, temps := m₁.interp.temps.cut m₁.interp.floor
          live := live } := by
  have hemptied : m.Declines (m₁.onInterp ({ · with symbols := [], error := none })) values
      (m₁.interp.symbols.flatMap (·.2.owned) ++ held) := by
    refine hd.onInterp _ (fun k => ?_) List.nodup_nil rfl
    simp only [Interp.owned, List.flatMap_nil, List.nil_append, List.count_append]
    omega
  obtain ⟨hglobals, live, hlive⟩ := hemptied.releaseAll
  obtain ⟨htemps, live', hlive'⟩ := hglobals.freeTemps
  exact ⟨htemps, live', by rw [Machine.releaseGlobals, hlive', hlive]; rfl⟩

/-- No global comes back, so the rounds end after the first. -/
theorem releaseGlobalsWithin (hd : m.Declines m₁ values held) (ht : m₁.interp.temps.toList = [])
    (n : Nat) : m.Declines (releaseGlobalsWithin (n + 1) m₁) values held ∧
      (Machine.releaseGlobalsWithin (n + 1) m₁).interp.symbols = [] ∧
      (Machine.releaseGlobalsWithin (n + 1) m₁).interp.temps.toList = [] := by
  rw [Machine.releaseGlobalsWithin]
  split
  next hs => exact ⟨hd, List.isEmpty_iff.1 hs, ht⟩
  next =>
  obtain ⟨hglobals, live, hlive⟩ := hd.releaseGlobals
  have hsymbols : m₁.releaseGlobals.interp.symbols = [] := by rw [hlive]
  have hround : Machine.releaseGlobalsWithin n m₁.releaseGlobals = m₁.releaseGlobals := by
    cases n with
    | zero => rfl
    | succ n => rw [Machine.releaseGlobalsWithin, hsymbols]; rfl
  rw [hround]
  refine ⟨hglobals, hsymbols, ?_⟩
  rw [hlive, Pile.toList_cut, ht, List.take_nil]

/-- With the modules the last owners go that the interpreter has. -/
theorem releaseModules (hd : m.Declines m₁ values held) (hs : m₁.interp.symbols = [])
    (ht : m₁.interp.temps.toList = []) :
    m.Declines ((m₁.onInterp ({ · with error := none, modules := [] })).releaseAll
        (m₁.interp.modules.flatMap (·.2.captures))) values held ∧
      ((m₁.onInterp ({ · with error := none, modules := [] })).releaseAll
        (m₁.interp.modules.flatMap (·.2.captures))).interp.owned = [] := by
  have hmodules : m.Declines (m₁.onInterp ({ · with error := none, modules := [] })) values
      (m₁.interp.modules.flatMap (·.2.captures) ++ held) := by
    refine hd.onInterp _ (fun k => ?_) hd.orderly.names_focus rfl
    simp only [Interp.owned, List.flatMap_nil, List.append_nil, List.count_append]
    omega
  obtain ⟨hcaptured, live, hlive⟩ := hmodules.releaseAll
  refine ⟨hcaptured, ?_⟩
  rw [hlive]
  simp only [Interp.owned, Machine.onInterp, hs, ht, List.flatMap_nil, List.nil_append]

/-- After a teardown the interpreter owns nothing. -/
theorem destruct (hd : m.Declines m values held) (hlevel : m.interp.destructLevel ≠ 0) :
    m.Declines m.destruct values held ∧ m.destruct.interp.owned = [] := by
  have hcleared : m.Declines (m.onInterp ({ · with
      phase := .destructing
      stack := .empty, marks := .empty, contexts := .empty, scopes := .empty, floor := 0 }))
      values held := hd.onInterp _ (fun _ => rfl) hd.orderly.names_focus rfl
  obtain ⟨htemps, live, hlive⟩ := hcleared.freeTemps
  obtain ⟨hglobals, hsymbols, hnone⟩ := htemps.releaseGlobalsWithin
    (by rw [hlive, Pile.toList_cut]; rfl) 15
  rw [Machine.destruct, if_neg (by rw [hlive]; exact hlevel)]
  exact hglobals.releaseModules hsymbols hnone

end Declines

end Machine

end ValueMachine

import ValueMachine.Proofs.Calls.ErrorVariable
import ValueMachine.Proofs.Hosting.Ranks

/-! What interpreters count. Each counts the values that are made through it, and takes one off for
each that is freed through it, whoever has made it. So the counters of several interpreters are right
just as long as no value is freed through another interpreter than it was made through. -/

namespace ValueMachine

open Machine Manner

namespace Machine

variable {m m' : Machine} {home : Handle → InterpId} {held : List Handle} {i : InterpId}
  {h : Handle}

/-- The living values that were made through an interpreter. -/
def livingOf (m : Machine) (home : Handle → InterpId) (i : InterpId) : Finset Handle :=
  m.living.filter (home · = i)

/-- Each interpreter counts the living values that were made through it. -/
def Apportioned (m : Machine) (home : Handle → InterpId) : Prop :=
  ∀ p ∈ m.interps, (m.livingOf home p.1).card = p.2.live

/-- All that is freed was made through the interpreter in focus. -/
def FreesOwn (m m' : Machine) (home : Handle → InterpId) : Prop :=
  ∀ h ∈ m.living, h ∉ m'.living → home h = m.here

/-- What is made from a machine on is made through its interpreter in focus. -/
def homeFrom (m : Machine) (home : Handle → InterpId) (h : Handle) : InterpId :=
  if h.index < m.heap.size then home h else m.here

theorem mem_livingOf : h ∈ m.livingOf home i ↔ h ∈ m.living ∧ home h = i := Finset.mem_filter

theorem homeFrom_of_mem (hh : h ∈ m.living) : m.homeFrom home h = home h :=
  if_pos (index_lt_of_mem_living hh)

theorem homeFrom_of_not_here (hh : m.homeFrom home h ≠ m.here) : h.index < m.heap.size := by
  by_contra hs
  exact hh (if_neg hs)

/-- What was made through other interpreters and lives, has lived. -/
theorem Ages.mem_livingOf (ha : m.Ages m') (hi : i ≠ m.here)
    (hh : h ∈ m'.livingOf (m.homeFrom home) i) : h ∈ m.livingOf home i := by
  obtain ⟨hliving, rfl⟩ := Machine.mem_livingOf.1 hh
  have hold := ha.mem_living (homeFrom_of_not_here hi) hliving
  exact Machine.mem_livingOf.2 ⟨hold, (homeFrom_of_mem hold).symm⟩

theorem FreesOwn.livingOf_eq (hown : m.FreesOwn m' home) (ha : m.Ages m') (hi : i ≠ m.here) :
    m'.livingOf (m.homeFrom home) i = m.livingOf home i := by
  refine Finset.Subset.antisymm (fun h hh => ha.mem_livingOf hi hh) fun h hh => ?_
  obtain ⟨hold, rfl⟩ := mem_livingOf.1 hh
  refine mem_livingOf.2 ⟨?_, homeFrom_of_mem hold⟩
  by_contra hnot
  exact hi (hown h hold hnot)

/-- The values that were made through other interpreters are the same ones. -/
theorem FreesOwn.foreign_eq (hown : m.FreesOwn m' home) (ha : m.Ages m') :
    m'.living.filter (¬m.homeFrom home · = m.here) = m.living.filter (¬home · = m.here) := by
  ext h
  have hiff {i : InterpId} (hi : i ≠ m.here) := Finset.ext_iff.1 (hown.livingOf_eq ha hi) h
  simp only [mem_livingOf] at hiff
  rw [Finset.mem_filter, Finset.mem_filter]
  constructor
  · rintro ⟨hliving, hne⟩
    obtain ⟨hold, he⟩ := (hiff hne).1 ⟨hliving, rfl⟩
    exact ⟨hold, he ▸ hne⟩
  · rintro ⟨hold, hne⟩
    obtain ⟨hliving, he⟩ := (hiff hne).2 ⟨hold, rfl⟩
    exact ⟨hliving, he ▸ hne⟩

theorem Apportioned.settles (hm : m.Apportioned home) (hids : (m.interps.map (·.1)).Nodup)
    (hs : m.Settles m' held) (hown : m.FreesOwn m' home) : m'.Apportioned (m.homeFrom home) := by
  obtain ⟨hothers, hhere, hliving⟩ := hs.counts
  intro p hp
  rw [interps, hothers, hhere] at hp
  rcases List.mem_cons.1 hp with rfl | hp
  · -- The values of others are there before and after, and so are no fewer than what is kept.
    have hforeign := hown.foreign_eq hs.ages
    have hkept : m.living.filter (¬home · = m.here) ⊆ m.living ∩ m'.living := by
      refine Finset.subset_inter (Finset.filter_subset ..) ?_
      rw [← hforeign]
      exact Finset.filter_subset ..
    have hcard := Finset.card_le_card hkept
    have hlive := hm _ List.mem_cons_self
    have hbefore := Finset.card_filter_add_card_filter_not (s := m.living) (home · = m.here)
    have hafter := Finset.card_filter_add_card_filter_not (s := m'.living)
      (m.homeFrom home · = m.here)
    rw [hforeign] at hafter
    simp only [livingOf] at hlive ⊢
    have := hliving (by omega)
    omega
  · have hne : p.1 ≠ m.here := fun he =>
      (List.nodup_cons.1 hids).1 (he.symm ▸ List.mem_map_of_mem (f := (·.1)) hp)
    rw [hown.livingOf_eq hs.ages hne]
    exact hm p (List.mem_cons_of_mem _ hp)

/-- Where a value of another interpreter is freed, the counter of that interpreter is wrong. -/
theorem Apportioned.freesOwn (hm : m.Apportioned home) (hs : m.Settles m' held)
    (hhome : ∀ h ∈ m.living, m.Knows (home h)) (hm' : m'.Apportioned (m.homeFrom home)) :
    m.FreesOwn m' home := by
  intro h hliving hgone
  by_contra hne
  obtain ⟨p, hp, hhp⟩ := List.mem_map.1 ((List.mem_cons.1 (hhome h hliving)).resolve_left hne)
  rw [← hhp] at hne
  have hp' : p ∈ m'.interps := List.mem_cons_of_mem _ (hs.counts.others ▸ hp)
  have hless : m'.livingOf (m.homeFrom home) p.1 ⊂ m.livingOf home p.1 := by
    refine Finset.ssubset_iff_subset_ne.2 ⟨fun k hk => hs.ages.mem_livingOf hne hk, fun he => ?_⟩
    have hmem : h ∈ m.livingOf home p.1 := mem_livingOf.2 ⟨hliving, hhp.symm⟩
    rw [← he] at hmem
    exact hgone (mem_livingOf.1 hmem).1
  have hcard := Finset.card_lt_card hless
  rw [hm' p hp', hm p (List.mem_cons_of_mem _ hp)] at hcard
  exact Nat.lt_irrefl _ hcard

/-! ### A new interpreter -/

theorem body_construct (hsymbols : m.interp.symbols = []) (hs : h.index < m.heap.size) :
    m.construct.body h = m.body h := by
  have hnone : m.global? .scalar "@" = none := by rw [global?, glob?, hsymbols]; rfl
  have hglobal : m.global .scalar "@" = (m.heap.next, (m.alloc (.scalar .undefined)).2.updateGlob
      (Qualified.qualify "@") (·.set .scalar m.heap.next)) := by
    rw [Machine.global, hnone]
    rfl
  have hslot : ((m.alloc (.scalar .undefined)).2.updateGlob (Qualified.qualify "@")
      (·.set .scalar m.heap.next)).body m.heap.next = .scalar .undefined := by
    simp [updateGlob, Machine.alloc, body, cell, Cell.fresh]
  have hne := ne_next_of_lt hs
  unfold construct
  simp only [hglobal, hslot, replaceScalar]
  obtain ⟨log, hlog⟩ := noteWrite_eq ((((m.alloc (.scalar .undefined)).2.updateGlob
    (Qualified.qualify "@") (·.set .scalar m.heap.next)).setBody m.heap.next
      (.scalar (.ofByteText ⟨[], false⟩))).releaseAll (Scalar.owned .undefined)) m.heap.next
  rw [hlog]
  exact (body_setBody_ne _ hne).trans (body_alloc m _ hne)

/-- A new interpreter frees nothing. -/
theorem living_subset_construct (hm : m.Orderly held) (hsymbols : m.interp.symbols = []) :
    m.living ⊆ m.construct.living := by
  intro h hh
  have hs := index_lt_of_mem_living hh
  rw [mem_living] at hh ⊢
  rwa [hm.construct.ages.immortal h hs, isFreed, body_construct hsymbols hs]

end Machine

namespace Holding

variable {s s' : Holding} {op : Operation}

/-- A new scalar is held by host code. -/
theorem Step.newScalar (s : Holding) (n : Int64) : Step (.onScalar (.newScalar (.ofInt64 n))) s
    ⟨(s.machine.alloc (.scalar (.ofInt64 n))).2, s.machine.heap.next :: s.host⟩ :=
  ⟨fun _ hh => absurd hh List.not_mem_nil, trivial,
    [s.machine.heap.next], s.host, List.Perm.refl _, rfl, rfl⟩

/-- Host code gives up what it holds. -/
theorem Step.release (m : Machine) (h : Handle) (host : List Handle) :
    Step (.onScalar (.release h)) ⟨m, h :: host⟩ ⟨m.release h, host⟩ :=
  ⟨fun _ hh => absurd hh List.not_mem_nil, trivial, [], host, List.Perm.refl _, rfl, rfl⟩

/-- Several interpreters, with the one through which each value was made. They come to vacant places,
take turns and work, and none frees a value of another one. -/
inductive Tended : (Handle → InterpId) → Holding → Prop
  | empty (home : Handle → InterpId) : Tended home ⟨.empty, []⟩
  | joins {home : Handle → InterpId} {s : Holding} (place : InterpId) : Tended home s →
    ¬s.machine.Knows place → Tended ((s.machine.allocInterp place).homeFrom home)
      ⟨(s.machine.allocInterp place).construct, s.host⟩
  | turns {home : Handle → InterpId} {s : Holding} (i : InterpId) : Tended home s →
    Tended home ⟨s.machine.focus i, s.host⟩
  | works {home : Handle → InterpId} {s s' : Holding} {op : Operation} : Tended home s →
    Step op s s' → s.machine.FreesOwn s'.machine home → Tended (s.machine.homeFrom home) s'

/-- The machine is in order, values were made through interpreters that are there, and each counts
those that were made through it. -/
structure Attributed (home : Handle → InterpId) (s : Holding) : Prop where
  orderly : s.machine.Orderly s.host
  knows : ∀ h ∈ s.machine.living, s.machine.Knows (home h)
  apportioned : s.machine.Apportioned home

variable {home : Handle → InterpId}

namespace Attributed

theorem empty (home : Handle → InterpId) : Attributed home ⟨.empty, []⟩ where
  orderly := orderly_empty
  knows := by simp [living, Machine.empty, Heap.empty, Heap.size]
  apportioned p hp := by
    obtain rfl : p = (Machine.empty.here, Machine.empty.interp) := by
      simpa [interps, Machine.empty] using hp
    rfl

/-- The general step: what is made belongs to the interpreter in focus, and what is freed as well. -/
theorem settles {m : Machine} {host : List Handle} (hs : Attributed home s)
    (hm : s.machine.Settles m host) (hown : s.machine.FreesOwn m home) :
    Attributed (s.machine.homeFrom home) ⟨m, host⟩ where
  orderly := hm.orderly
  knows h hh := by
    rw [Knows, hm.counts.here, hm.counts.others, homeFrom]
    split
    next hold => exact hs.knows h (hm.ages.mem_living hold hh)
    next => exact List.mem_cons_self
  apportioned := hs.apportioned.settles hs.orderly.ids hm hown

theorem turns (hs : Attributed home s) (i : InterpId) :
    Attributed home ⟨s.machine.focus i, s.host⟩ := by
  have hperm := perm_interps_focus hs.orderly.ids i
  have hliving : (s.machine.focus i).living = s.machine.living :=
    living_congr (heap_focus s.machine i)
  refine ⟨hs.orderly.focus i, fun h hh => ?_, fun p hp => ?_⟩
  · exact s.machine.knows_focus i _ (hs.knows h (hliving ▸ hh))
  · rw [livingOf, hliving]
    exact hs.apportioned p (hperm.mem_iff.1 hp)

/-- A new interpreter counts nothing yet. -/
theorem allocInterp (hs : Attributed home s) {place : InterpId}
    (hplace : ¬s.machine.Knows place) :
    Attributed home ⟨s.machine.allocInterp place, s.host⟩ := by
  obtain ⟨horderly, hliving⟩ := hs.orderly.allocInterp hplace
  refine ⟨horderly, fun h hh => ?_, fun p hp => ?_⟩
  · exact List.mem_cons_of_mem _ (hs.knows h (hliving ▸ hh))
  · rw [livingOf, hliving]
    rcases List.mem_cons.1 hp with rfl | hp
    · refine Finset.card_eq_zero.2 (Finset.filter_eq_empty_iff.2 fun h hh he => ?_)
      have hknown := hs.knows h hh
      rw [he] at hknown
      exact hplace hknown
    · exact hs.apportioned p hp

theorem joins (hs : Attributed home s) {place : InterpId} (hplace : ¬s.machine.Knows place) :
    Attributed ((s.machine.allocInterp place).homeFrom home)
      ⟨(s.machine.allocInterp place).construct, s.host⟩ := by
  have hnew := hs.allocInterp hplace
  refine hnew.settles hnew.orderly.construct fun h hh hgone => ?_
  exact absurd (living_subset_construct hnew.orderly rfl hh) hgone

end Attributed

theorem Tended.attributed (hs : Tended home s) : Attributed home s := by
  induction hs with
  | empty home => exact .empty home
  | joins place _ hplace ih => exact ih.joins hplace
  | turns i _ ih => exact ih.turns i
  | works _ hstep hown ih => exact ih.settles (hstep.settles ih.orderly) hown

/-- As long as no interpreter frees a value of another one, each counts the values that were made
through it and are not freed. From there an operation leaves the counters of the other interpreters
alone, and all counters are right after it just if it has freed no value of another interpreter. -/
theorem Tended.counters (hs : Tended home s) : s.machine.Apportioned home ∧
    ∀ op s', Step op s s' → s'.machine.others = s.machine.others ∧
      (s'.machine.Apportioned (s.machine.homeFrom home) ↔
        s.machine.FreesOwn s'.machine home) := by
  have h := hs.attributed
  refine ⟨h.apportioned, fun op s' hstep => ?_⟩
  have hsettles := hstep.settles h.orderly
  exact ⟨hsettles.counts.others, h.apportioned.freesOwn hsettles h.knows,
    h.apportioned.settles h.orderly.ids hsettles⟩

/-- An interpreter, of which host code holds one value. -/
def oneHeld : Holding := ⟨(fresh.alloc (.scalar (.ofInt64 7))).2, [fresh.heap.next]⟩

/-- A second interpreter has come. -/
def twoInterpreters : Holding := ⟨(oneHeld.machine.allocInterp ⟨2⟩).construct, oneHeld.host⟩

/-- The second interpreter has freed the value of the first one. -/
def foreignFreed : Holding := ⟨twoInterpreters.machine.release ⟨4⟩, []⟩

/-- Of two interpreters each counts its own values, until the second one frees a value of the first. It
has one value then and counts none, and the first one has one and counts two. -/
theorem counters_of_two : ∃ home, Tended home twoInterpreters ∧
    twoInterpreters.machine.Apportioned home ∧
    Step (.onScalar (.release ⟨4⟩)) twoInterpreters foreignFreed ∧
    ¬foreignFreed.machine.Apportioned (twoInterpreters.machine.homeFrom home) ∧
    foreignFreed.machine.interps.map (·.2.live) = [0, 2, 0] := by
  let home := (Machine.empty.allocInterp .first).homeFrom fun _ => Machine.empty.here
  -- Only in two steps, since unfolding `start` alone would run the new interpreter.
  have hjoined := Tended.joins .first (.empty fun _ => Machine.empty.here) (by decide)
  have hfirst : Tended home start := hjoined
  have hkeeps : fresh.FreesOwn oneHeld.machine home := fun h hh hgone => by
    refine absurd ?_ hgone
    rw [oneHeld, living_alloc fresh rfl]
    exact Finset.mem_insert_of_mem hh
  have htwo := (hfirst.works (Step.newScalar start 7) hkeeps).joins ⟨2⟩ (by decide)
  have hfree := Step.release twoInterpreters.machine ⟨4⟩ []
  obtain ⟨hright, hnext⟩ := htwo.counters
  refine ⟨_, htwo, hright, hfree, fun hstill => ?_, by decide +kernel⟩
  have hown := ((hnext _ _ hfree).2.1 hstill) ⟨4⟩ (by decide +kernel) (by decide +kernel)
  exact absurd hown (by decide +kernel)

end Holding

end ValueMachine

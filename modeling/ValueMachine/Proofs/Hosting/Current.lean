import ValueMachine.Proofs.Hosting.Ranks

/-! Which interpreter is current. A new interpreter becomes current. One that is given up hands over
to the place of the one that was current when it started, if an interpreter is alive there, and does so
even where it was not current itself. So the youngest interpreter stays the current one just as long as
only the youngest and the oldest are given up, and of the oldest only such as remember a place where no
other one has come. -/

namespace ValueMachine

open Machine Manner

namespace Machine

variable {m m' m₁ m₂ : Machine} {i place : InterpId}

/-- A new interpreter has come to a place and is current. -/
structure Admits (m m' : Machine) (place : InterpId) : Prop where
  alive : m'.alive = place :: m.alive
  current : m'.current = some place
  knows : ∀ i, i = place ∨ m.Knows i → m'.Knows i

theorem Admits.ranked (h : m.Admits m₁ place) (h' : m₁.KeepsRanks m₂) : m.Admits m₂ place where
  alive := h'.alive.trans h.alive
  current := h'.current.trans h.current
  knows i hi := h'.knows i (h.knows i hi)

theorem knows_allocInterp (m : Machine) (hi : i = place ∨ m.Knows i) :
    (m.allocInterp place).Knows i := by
  rcases hi with rfl | hi
  · exact List.mem_cons_self
  · exact List.mem_cons_of_mem _ hi

theorem freeInterp_ranks (m : Machine) : m.freeInterp.alive = m.alive ∧
    m.freeInterp.current = m.current.filter (· ≠ m.here) ∧
    ∀ i, m.Knows i → i ≠ m.here → m.freeInterp.Knows i := by
  have hcurrent : (if m.current = some m.here then none else m.current)
      = m.current.filter (· ≠ m.here) := by
    cases hc : m.current with
    | none => rfl
    | some i => by_cases hi : i = m.here <;> simp [Option.filter, hi]
  rw [← hcurrent]
  unfold freeInterp
  cases ho : m.others with
  | nil =>
    refine ⟨rfl, rfl, fun i hi hne => absurd ?_ hne⟩
    simpa [Knows, ho] using hi
  | cons p rest =>
    refine ⟨rfl, rfl, fun i hi hne => ?_⟩
    have := (List.mem_cons.1 hi).resolve_left hne
    rwa [ho] at this

end Machine

namespace Embedded

variable {m m' : Machine} {e : Embedded} {place : InterpId} {s : Settings} {lib : Library}
  {outcome : Except Failure Embedded}

/-- An interpreter that has started is the current one. -/
theorem boot_ok (h : boot place s m = .ok e m') : e = ⟨place, none, s⟩ ∧ m.Admits m' place := by
  obtain ⟨⟨⟩, m₁, halloc, h₁⟩ := Run.bind_ok h
  obtain ⟨⟨⟩, m₂, hconstruct, h₂⟩ := Run.bind_ok h₁
  obtain ⟨⟨⟩, m₃, harguments, h₃⟩ := Run.bind_ok h₂
  obtain ⟨⟨⟩, m₄, halive, h₄⟩ := Run.bind_ok h₃
  obtain ⟨⟨⟩, m₅, hroom, h₅⟩ := Run.bind_ok h₄
  obtain rfl := checkRoom_ok hroom
  cases halloc
  cases hconstruct
  have hranks : (m.allocInterp place).KeepsRanks m₃ :=
    KeepsRanks.trans (ranked_overall.construct _)
      ((ranked_overall.setArguments _).ok harguments)
  cases halive
  cases h₅
  refine ⟨rfl, ?_, rfl, fun i hi => ?_⟩
  · exact congrArg _ hranks.alive
  · exact hranks.knows i (m.knows_allocInterp hi)

/-- An interpreter has gone: if one is alive where the one was that was current when it started, that is
current, and otherwise the same one as before, unless that is the one that has gone. -/
structure Leaves (e : Embedded) (m m' : Machine) : Prop where
  alive : m'.alive = m.alive.filter (· ≠ e.id)
  current : m'.current = (e.previous.filter (· ∈ m'.alive)).or (m.current.filter (· ≠ e.id))
  knows : ∀ i, m.Knows i → i ≠ e.id → m'.Knows i

theorem leaves_drop (hk : m.Knows e.id) : e.Leaves m (e.drop m) := by
  let torn : Machine := { (m.focus e.id).destruct with
    alive := (m.focus e.id).destruct.alive.filter (· ≠ e.id) }
  let freed := torn.freeInterp
  have hranks : (m.focus e.id).KeepsRanks (m.focus e.id).destruct := ranked_overall.destruct _
  obtain ⟨halive, hcurrent⟩ := m.focus_ranks e.id
  obtain ⟨halive', hcurrent', hknows'⟩ := torn.freeInterp_ranks
  have hhere : torn.here = e.id := hranks.here.trans (here_focus_of_knows hk)
  -- Only the last step of a drop makes a difference between the pasts of the one that goes.
  have hdrop : e.drop m
      = { freed with current := (e.previous.filter (· ∈ freed.alive)).or freed.current } := by
    have hpast : e.previous.filter (· ∈ freed.alive) = e.previous.filter freed.isAlive := by
      congr 1
      funext i
      exact (List.contains_eq_mem ..).symm
    rw [hpast, Embedded.drop]
    split
    next previous hp => rw [show e.previous.filter freed.isAlive = some previous from hp]; rfl
    next hp => rw [show e.previous.filter freed.isAlive = none from hp]; rfl
  have hstays : freed.current = m.current.filter (· ≠ e.id) := by
    rw [hcurrent', hhere, ← hcurrent, ← hranks.current]
  rw [hdrop]
  refine ⟨?_, congrArg (Option.or _) hstays, fun i hi hne => ?_⟩
  · exact halive'.trans (by rw [← halive, ← hranks.alive])
  · exact hknows' i (hranks.knows i (m.knows_focus _ i hi)) (by rwa [hhere])

/-- The start of an interpreter: it comes, and goes again at once if a module cannot be loaded. -/
theorem start_ok (hlib : lib.Moves ranked) (h : (start lib place s).run m = .ok outcome m') :
    ∃ m₁, m.Admits m₁ place ∧ (outcome = .ok ⟨place, m.current, s⟩ ∧ m' = m₁ ∨
      ∃ f, outcome = .error f ∧ m' = drop ⟨place, m.current, s⟩ m₁) := by
  have hload (module : String) : (Host.require lib.calls module).Moves ranked :=
    ranked_overall.hostCall (ranked_overall.reentry hlib _) _ [] .void fun _ => .pure ()
  unfold start at h
  rw [Bridge.bind_apply, Bridge.look, Bridge.ofRun_apply, Run.look_apply] at h
  simp only [Bridge.bind_apply, Bridge.ofRun_apply] at h
  cases hb : boot place s m with
  | error e m₁ => rw [hb] at h; cases h
  | ok booted m₁ =>
    rw [hb] at h
    obtain ⟨rfl, hadmits⟩ := boot_ok hb
    obtain ⟨ended, m₂, hl, hend⟩ := Run.bind_ok h
    have hranks : m₁.KeepsRanks m₂ := (ranked_overall.outcome.1 (.forM hload s.preload)).ok hl
    refine ⟨m₂, hadmits.ranked hranks, ?_⟩
    cases ended with
    | ok _ =>
      obtain ⟨rfl, rfl⟩ := Run.pure_ok hend
      exact .inl ⟨rfl, rfl⟩
    | error f =>
      obtain ⟨⟨⟩, m₃, hdrop, hreturn⟩ := Run.bind_ok hend
      cases hdrop
      obtain ⟨rfl, rfl⟩ := Run.pure_ok hreturn
      exact .inr ⟨f, rfl, rfl⟩

theorem admits_of_started (hlib : lib.Moves ranked)
    (h : (start lib place s).run m = .ok (.ok e) m') :
    e = ⟨place, m.current, s⟩ ∧ m.Admits m' place := by
  obtain ⟨m₁, hm, ⟨he, rfl⟩ | ⟨f, hf, -⟩⟩ := start_ok hlib h
  · cases he
    exact ⟨rfl, hm⟩
  · cases hf

theorem admits_of_refused {f : Failure} (hlib : lib.Moves ranked)
    (h : (start lib place s).run m = .ok (.error f) m') :
    ∃ m₁, m.Admits m₁ place ∧ m' = drop ⟨place, m.current, s⟩ m₁ := by
  obtain ⟨m₁, hm, ⟨he, -⟩ | ⟨f, -, rfl⟩⟩ := start_ok hlib h
  · cases he
  · exact ⟨m₁, hm, rfl⟩

/-! ### Histories -/

/-- What is left of some interpreters when one of them is given up. -/
def without (es : List Embedded) (e : Embedded) : List Embedded := es.filter (·.id ≠ e.id)

/-- The youngest of some interpreters, of which the younger come first. -/
def youngest? (es : List Embedded) : Option InterpId := es.head?.map (·.id)

/-- The youngest can go, and so can the oldest, unless another one than the youngest has come to the
place of the one that was current when the oldest started. -/
def CanGo (es : List Embedded) (e : Embedded) : Prop :=
  es.head? = some e ∨ es.getLast? = some e ∧
    ∀ i ∈ e.previous, i ∈ (without es e).map (·.id) → youngest? es = some i

variable {es before after : List Embedded}

theorem without_append (hn : ((before ++ e :: after).map (·.id)).Nodup) :
    without (before ++ e :: after) e = before ++ after := by
  rw [List.map_append, List.map_cons, List.nodup_append, List.nodup_cons] at hn
  obtain ⟨-, ⟨hafter, -⟩, hbefore⟩ := hn
  have hkeep {fs : List Embedded} (hfs : ∀ f ∈ fs, f.id ≠ e.id) :
      fs.filter (·.id ≠ e.id) = fs :=
    List.filter_eq_self.2 fun f hf => by simpa using hfs f hf
  rw [without, List.filter_append, List.filter_cons_of_neg (by simp), hkeep, hkeep]
  · exact fun f hf he => hafter (he ▸ List.mem_map_of_mem hf)
  · exact fun f hf he => hbefore _ (List.mem_map_of_mem hf) _ List.mem_cons_self he

theorem without_cons (hn : ((e :: after).map (·.id)).Nodup) : without (e :: after) e = after :=
  show without ([] ++ e :: after) e = [] ++ after from without_append hn

end Embedded

open Embedded

/-- What happens to the interpreters of a thread, the younger of which come first. They start at vacant
places, also such as others have left, and are given up, in an order that is allowed; in between they and
host code work, and make no other one current. -/
inductive Hosted (lib : Library) (Allowed : List Embedded → Embedded → Prop) :
    List Embedded → Machine → Prop
  | empty : Hosted lib Allowed [] .empty
  | works {es m m'} : Hosted lib Allowed es m → m.KeepsRanks m' → Hosted lib Allowed es m'
  | turns {es m} (i : InterpId) : Hosted lib Allowed es m → Hosted lib Allowed es (m.focus i)
  | starts {es m e m'} (place : InterpId) (s : Settings) : Hosted lib Allowed es m →
    ¬m.Knows place → (start lib place s).run m = .ok (.ok e) m' → Hosted lib Allowed (e :: es) m'
  | refused {es m f m'} (place : InterpId) (s : Settings) : Hosted lib Allowed es m →
    ¬m.Knows place → (start lib place s).run m = .ok (.error f) m' → Hosted lib Allowed es m'
  | drops {es m e} : Hosted lib Allowed es m → e ∈ es → Allowed es e →
    Hosted lib Allowed (without es e) (e.drop m)

/-- The interpreters that have started and have not been given up are those alive. -/
structure Housed (es : List Embedded) (m : Machine) : Prop where
  alive : m.alive = es.map (·.id)
  nodup : (es.map (·.id)).Nodup
  knows : ∀ e ∈ es, m.Knows e.id
  current : ∀ i, m.current = some i → i ∈ m.alive

namespace Housed

variable {es : List Embedded} {m m' : Machine} {e : Embedded}

theorem empty : Housed [] .empty where
  alive := rfl
  nodup := List.nodup_nil
  knows := by simp
  current := by simp [Machine.empty]

theorem congr (h : Housed es m) (alive : m'.alive = m.alive) (current : m'.current = m.current)
    (knows : ∀ i, m.Knows i → m'.Knows i) : Housed es m' where
  alive := alive.trans h.alive
  nodup := h.nodup
  knows e he := knows _ (h.knows e he)
  current i hi := alive ▸ h.current i (current ▸ hi)

theorem starts (h : Housed es m) (hplace : ¬m.Knows e.id) (hm : m.Admits m' e.id) :
    Housed (e :: es) m' where
  alive := hm.alive.trans (congrArg _ h.alive)
  nodup := by
    refine List.nodup_cons.2 ⟨fun hmem => ?_, h.nodup⟩
    obtain ⟨f, hf, hid⟩ := List.mem_map.1 hmem
    have hknown := h.knows f hf
    rw [hid] at hknown
    exact hplace hknown
  knows f hf := by
    refine hm.knows _ ?_
    rcases List.mem_cons.1 hf with rfl | hf
    · exact .inl rfl
    · exact .inr (h.knows f hf)
  current i hi := by
    rw [hm.current] at hi
    cases hi
    rw [hm.alive]
    exact List.mem_cons_self

theorem leaves (h : Housed es m) (he : e ∈ es) : e.Leaves m (e.drop m) :=
  leaves_drop (h.knows e he)

theorem alive_drop (h : Housed es m) (he : e ∈ es) :
    (e.drop m).alive = (without es e).map (·.id) := by
  rw [(h.leaves he).alive, h.alive, without, List.filter_map]
  rfl

theorem drops (h : Housed es m) (he : e ∈ es) : Housed (without es e) (e.drop m) where
  alive := h.alive_drop he
  nodup := h.nodup.sublist (List.filter_sublist.map _)
  knows f hf := by
    obtain ⟨hf, hne⟩ := List.mem_filter.1 hf
    exact (h.leaves he).knows _ (h.knows f hf) (by simpa using hne)
  current i hi := by
    rw [(h.leaves he).current, Option.or_eq_some_iff] at hi
    rcases hi with hi | ⟨-, hi⟩
    · simpa using (Option.filter_eq_some_iff.1 hi).2
    · obtain ⟨hcur, hne⟩ := Option.filter_eq_some_iff.1 hi
      rw [(h.leaves he).alive]
      exact List.mem_filter.2 ⟨h.current i hcur, hne⟩

/-- Whatever the order, this is who is current after one has been given up. -/
theorem current_drop (h : Housed es m) (he : e ∈ es) : (e.drop m).current
    = (e.previous.filter (· ∈ (without es e).map (·.id))).or (m.current.filter (· ≠ e.id)) := by
  rw [(h.leaves he).current, h.alive_drop he]

/-- One that comes and goes at once leaves the current one as it was. -/
theorem refused (h : Housed es m) (hplace : ¬m.Knows e.id) (hm : m.Admits m' e.id)
    (hp : e.previous = m.current) : Housed es (e.drop m') ∧ (e.drop m').current = m.current := by
  have hnew := h.starts hplace hm
  have hdrop := hnew.drops List.mem_cons_self
  have hcurrent := hnew.current_drop List.mem_cons_self
  rw [without_cons hnew.nodup] at hdrop hcurrent
  refine ⟨hdrop, hcurrent.trans ?_⟩
  rw [hm.current, hp]
  cases hc : m.current with
  | none => simp
  | some i =>
    have hi := h.current i hc
    rw [h.alive] at hi
    rw [Option.filter_some, if_pos (by simpa using hi)]
    rfl

end Housed

/-- The youngest is current, and each has started when the next one was current. -/
structure Linked (es : List Embedded) (m : Machine) : Prop where
  housed : Housed es m
  youngest : m.current = youngest? es
  chain : es.IsChain fun e f => e.previous = some f.id

namespace Linked

variable {es before after : List Embedded} {m m' : Machine} {e f : Embedded}

theorem empty : Linked [] .empty := ⟨.empty, rfl, .nil⟩

theorem congr (h : Linked es m) (alive : m'.alive = m.alive) (current : m'.current = m.current)
    (knows : ∀ i, m.Knows i → m'.Knows i) : Linked es m' where
  housed := h.housed.congr alive current knows
  youngest := current.trans h.youngest
  chain := h.chain

theorem starts (h : Linked es m) (hplace : ¬m.Knows e.id) (hm : m.Admits m' e.id)
    (hp : e.previous = m.current) : Linked (e :: es) m' where
  housed := h.housed.starts hplace hm
  youngest := hm.current
  chain := by
    refine List.isChain_cons.2 ⟨fun f hf => ?_, h.chain⟩
    rw [hp, h.youngest, youngest?, hf]
    rfl

/-- Older interpreters are other ones. -/
theorem ne_of_older (h : Linked (before ++ after) m) (he : e ∈ before) (hf : f ∈ after) :
    e.id ≠ f.id := by
  have hn := h.housed.nodup
  rw [List.map_append, List.nodup_append] at hn
  exact hn.2.2 _ (List.mem_map_of_mem he) _ (List.mem_map_of_mem hf)

/-- The youngest goes. -/
theorem current_drop_youngest (h : Linked (e :: after) m) :
    (e.drop m).current = youngest? after := by
  rw [h.housed.current_drop List.mem_cons_self, h.youngest, without_cons h.housed.nodup]
  cases after with
  | nil => cases e.previous <;> simp [youngest?]
  | cons f rest =>
    rw [(List.isChain_cons_cons.1 h.chain).1]
    simp [youngest?]

/-- One that is not the youngest goes. Where it remembers a place that is taken, that becomes current. -/
theorem current_drop_older (h : Linked (f :: before ++ e :: after) m) : (e.drop m).current
    = (e.previous.filter (· ∈ (f :: before ++ after).map (·.id))).or (some f.id) := by
  have hne : f.id ≠ e.id := h.ne_of_older List.mem_cons_self List.mem_cons_self
  have hyoungest : (youngest? (f :: before ++ e :: after)).filter (· ≠ e.id) = some f.id := by
    simp [youngest?, hne]
  rw [h.housed.current_drop (by simp), without_append h.housed.nodup, h.youngest, hyoungest]

/-- One goes that is neither the youngest nor the oldest: the next older one becomes current. -/
theorem current_drop_between {g : Embedded} (h : Linked (f :: before ++ e :: g :: after) m) :
    (e.drop m).current = some g.id := by
  have hmem : g.id ∈ (f :: before ++ g :: after).map (·.id) := List.mem_map_of_mem (by simp)
  rw [h.current_drop_older, (List.isChain_append_cons_cons.1 h.chain).2.1, Option.filter_some,
    if_pos (decide_eq_true hmem), Option.some_or]

/-- The oldest goes. The youngest stays current unless another one is at the place that the oldest
remembers. -/
theorem current_drop_oldest (h : Linked (f :: before ++ [e]) m) : (e.drop m).current = some f.id ↔
    ∀ i ∈ e.previous, i ∈ (f :: before).map (·.id) → some f.id = some i := by
  rw [h.current_drop_older, List.append_nil]
  cases e.previous with
  | none => simp
  | some i =>
    by_cases hi : i ∈ (f :: before).map (·.id)
    · simp only [Option.filter_some, hi, decide_true, if_true, Option.some_or, Option.mem_some]
      exact ⟨fun hif j hj _ => hj ▸ hif.symm, fun hif => (hif i rfl hi).symm⟩
    · simp only [Option.filter_some, hi, decide_false, Option.mem_some]
      exact iff_of_true rfl fun j hj hmem => absurd (hj ▸ hmem) hi

/-- The youngest stays current just if one goes that can. -/
theorem current_drop_iff (h : Linked es m) (he : e ∈ es) :
    (e.drop m).current = youngest? (without es e) ↔ CanGo es e := by
  obtain ⟨before, after, rfl⟩ := List.append_of_mem he
  rw [CanGo, without_append h.housed.nodup]
  cases before with
  | nil => exact iff_of_true h.current_drop_youngest (.inl rfl)
  | cons f before =>
    have holder {k : Embedded} (hk : k ∈ e :: after) : f.id ≠ k.id :=
      h.ne_of_older List.mem_cons_self hk
    have hhead : ¬(f :: before ++ e :: after).head? = some e := fun hhead =>
      holder List.mem_cons_self (congrArg Embedded.id (Option.some.inj hhead))
    rw [or_iff_right hhead]
    cases after with
    | nil =>
      rw [List.append_nil, and_iff_right List.getLast?_concat]
      exact h.current_drop_oldest
    | cons g rest =>
      rw [h.current_drop_between]
      refine iff_of_false (fun hcurrent => ?_) fun ⟨hlast, _⟩ => ?_
      · exact holder (List.mem_cons_of_mem _ List.mem_cons_self) (Option.some.inj hcurrent).symm
      · rw [List.getLast?_append_cons, List.getLast?_cons_cons] at hlast
        have hsplit : f :: before ++ e :: g :: rest = (f :: before ++ [e]) ++ g :: rest := by simp
        exact (hsplit ▸ h).ne_of_older (by simp) (List.mem_of_getLast? hlast) rfl

/-- The links stay where one goes that can. -/
theorem drops (h : Linked es m) (he : e ∈ es) (hgo : CanGo es e) :
    Linked (without es e) (e.drop m) := by
  refine ⟨h.housed.drops he, (h.current_drop_iff he).2 hgo, ?_⟩
  rcases hgo with hhead | ⟨hlast, -⟩
  · obtain ⟨after, rfl⟩ := List.head?_eq_some_iff.1 hhead
    rw [without_cons h.housed.nodup]
    exact (List.isChain_cons.1 h.chain).2
  · obtain ⟨before, rfl⟩ := List.getLast?_eq_some_iff.1 hlast
    rw [without_append h.housed.nodup, List.append_nil]
    exact (List.isChain_append.1 h.chain).1

theorem refused (h : Linked es m) (hplace : ¬m.Knows e.id) (hm : m.Admits m' e.id)
    (hp : e.previous = m.current) : Linked es (e.drop m') := by
  have hnew := h.starts hplace hm hp
  have hgone := hnew.drops List.mem_cons_self (.inl rfl)
  rwa [without_cons hnew.housed.nodup] at hgone

end Linked

namespace Hosted

variable {lib : Library} {Allowed : List Embedded → Embedded → Prop} {es : List Embedded}
  {m : Machine} {e : Embedded}

/-- What is so at the start, asks for no more of a machine than the ranks of its interpreters, and is
kept by each start and each drop, is so always. -/
theorem invariant {P : List Embedded → Machine → Prop} (hlib : lib.Moves ranked)
    (empty : P [] .empty)
    (congr : ∀ {es m m'}, P es m → m'.alive = m.alive → m'.current = m.current →
      (∀ i, m.Knows i → m'.Knows i) → P es m')
    (starts : ∀ {es m m'} {e : Embedded}, P es m → ¬m.Knows e.id → m.Admits m' e.id →
      e.previous = m.current → P (e :: es) m')
    (refused : ∀ {es m m'} {e : Embedded}, P es m → ¬m.Knows e.id → m.Admits m' e.id →
      e.previous = m.current → P es (e.drop m'))
    (drops : ∀ {es m} {e : Embedded}, P es m → e ∈ es → Allowed es e → P (without es e) (e.drop m))
    (h : Hosted lib Allowed es m) : P es m := by
  induction h with
  | empty => exact empty
  | works _ hm ih => exact congr ih hm.alive hm.current hm.knows
  | @turns es m i _ ih =>
    obtain ⟨halive, hcurrent⟩ := m.focus_ranks i
    exact congr ih halive hcurrent (m.knows_focus i)
  | starts place s _ hplace hs ih =>
    obtain ⟨rfl, hm⟩ := admits_of_started hlib hs
    exact starts ih hplace hm rfl
  | refused place s _ hplace hs ih =>
    obtain ⟨m₁, hm, rfl⟩ := admits_of_refused hlib hs
    exact refused ih hplace hm rfl
  | drops _ he hallowed ih => exact drops ih he hallowed

theorem housed (hlib : lib.Moves ranked) (h : Hosted lib Allowed es m) : Housed es m :=
  h.invariant hlib .empty Housed.congr (fun hm hplace hadmits _ => hm.starts hplace hadmits)
    (fun hm hplace hadmits hp => (hm.refused hplace hadmits hp).1) fun hm he _ => hm.drops he

theorem linked (hlib : lib.Moves ranked) (h : Hosted lib Allowed es m)
    (hgo : ∀ es e, Allowed es e → CanGo es e) : Linked es m :=
  h.invariant hlib .empty Linked.congr Linked.starts Linked.refused
    fun hm he hallowed => hm.drops he (hgo _ _ hallowed)

/-- The current interpreter is one that is alive. In whatever order they are given up, one that goes
makes the one current that is at the place of the one that was current when it started, if one is left
there, and changes nothing else but that it is not current itself any more. So as long as only such go
as can, the youngest one alive is current, and that ends just when another one is given up. -/
theorem current_youngest (hlib : lib.Moves ranked) (h : Hosted lib Allowed es m) :
    (∀ i, m.current = some i → i ∈ es.map (·.id)) ∧
    (∀ e ∈ es, (e.drop m).current
      = (e.previous.filter (· ∈ (without es e).map (·.id))).or (m.current.filter (· ≠ e.id))) ∧
    ((∀ es e, Allowed es e → CanGo es e) → m.current = youngest? es ∧
      ∀ e ∈ es, (e.drop m).current = youngest? (without es e) ↔ CanGo es e) := by
  have hm := h.housed hlib
  refine ⟨fun i hi => hm.alive ▸ hm.current i hi, fun e he => hm.current_drop he, fun hgo => ?_⟩
  have hlinked := h.linked hlib hgo
  exact ⟨hlinked.youngest, fun e he => hlinked.current_drop_iff he⟩

/-- An interpreter that starts remembers the one that is current. -/
theorem started (hlib : lib.Moves ranked) (h : Hosted lib Allowed es m) {place : InterpId}
    {previous : Option InterpId} {s : Settings} (hplace : ¬m.Knows place)
    (hcurrent : m.current = previous)
    (hok : (start lib place s).run.Yields m fun r _ => r.isOk = true) :
    Hosted lib Allowed (⟨place, previous, s⟩ :: es) ((start lib place s).run.final m) := by
  obtain ⟨_ | e, m', hrun, hok⟩ := hok.exists_ok
  · cases hok
  · obtain ⟨rfl, -⟩ := admits_of_started hlib hrun
    rw [Run.final, hrun, ← hcurrent]
    exact h.starts place s hplace hrun

/-- A machine on which a standard interpreter has started at a place. -/
def next (place : InterpId) (m : Machine) : Machine :=
  (start Library.relays place .standard).run.final m

/-- Three interpreters, the second and third of which remember the one before. -/
def eldest : Embedded := ⟨⟨1⟩, none, .standard⟩

def second : Embedded := ⟨⟨2⟩, some eldest.id, .standard⟩

def third : Embedded := ⟨⟨3⟩, some second.id, .standard⟩

def ofThree : Machine := next third.id (next second.id (next eldest.id .empty))

/-- One that comes to the place of the eldest, which has gone, and one after it. -/
def heir : Embedded := ⟨eldest.id, some third.id, .standard⟩

def latest : Embedded := ⟨⟨4⟩, some heir.id, .standard⟩

def ofFour : Machine := next latest.id (next heir.id (eldest.drop ofThree))

theorem hosted_ofThree : Hosted Library.relays CanGo [third, second, eldest] ofThree := by
  have hlib := ranked_overall.relays
  have hone : Hosted Library.relays CanGo [eldest] (next eldest.id .empty) :=
    Hosted.empty.started hlib (by decide) rfl (by decide +kernel)
  have htwo : Hosted Library.relays CanGo [second, eldest] (next second.id (next eldest.id .empty)) :=
    hone.started hlib (by decide +kernel) (by decide +kernel) (by decide +kernel)
  exact htwo.started hlib (by decide +kernel) (by decide +kernel) (by decide +kernel)

theorem hosted_ofFour : Hosted Library.relays CanGo [latest, heir, third, second] ofFour := by
  have hlib := ranked_overall.relays
  have hgo : CanGo [third, second, eldest] eldest := .inr ⟨rfl, nofun⟩
  have hleft : Hosted Library.relays CanGo [third, second] (eldest.drop ofThree) :=
    hosted_ofThree.drops (by simp) hgo
  have hheir : Hosted Library.relays CanGo [heir, third, second] (next heir.id (eldest.drop ofThree)) :=
    hleft.started hlib (by decide +kernel) (by decide +kernel) (by decide +kernel)
  exact hheir.started hlib (by decide +kernel) (by decide +kernel) (by decide +kernel)

/-- Of three interpreters the third is current, but not after the second has gone. Nor is the latest
after the second has gone when that is the oldest one, since an heir is at the place of the eldest. -/
theorem current_of_heir : Library.relays.Moves ranked ∧
    Hosted Library.relays CanGo [third, second, eldest] ofThree ∧
    ofThree.current = some third.id ∧ (second.drop ofThree).current = some eldest.id ∧
    Hosted Library.relays CanGo [latest, heir, third, second] ofFour ∧
    ofFour.current = some latest.id ∧ (second.drop ofFour).current = some heir.id ∧
    ¬CanGo [latest, heir, third, second] second := by
  have hlib := ranked_overall.relays
  obtain ⟨-, hthree, hgo₃⟩ := current_youngest hlib hosted_ofThree
  obtain ⟨-, hfour, hgo₄⟩ := current_youngest hlib hosted_ofFour
  obtain ⟨hthird, -⟩ := hgo₃ fun _ _ h => h
  obtain ⟨hlatest, hkept⟩ := hgo₄ fun _ _ h => h
  have heldest := hthree second (by simp)
  have hheir := hfour second (by simp)
  rw [hthird] at heldest
  rw [hlatest] at hheir
  refine ⟨hlib, hosted_ofThree, hthird, heldest, hosted_ofFour, hlatest, hheir, fun hcan => ?_⟩
  have hstays := (hkept second (by simp)).2 hcan
  rw [hheir] at hstays
  exact absurd hstays (by decide)

end Hosted

end ValueMachine

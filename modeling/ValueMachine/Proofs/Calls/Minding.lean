import ValueMachine.Proofs.Calls.ErrorVariable

/-! The manner of operations that mind the error variable. It allows what operations on values and
conversions at the boundary consist of, a raised exception among them. -/

namespace ValueMachine

open Machine

namespace Machine

variable {m m' : Machine} {P : Promise} {h : Handle} {s : Scalar} {α β : Type}

/-! ### Readings -/

theorem drifts_log (hm : m.heap.Tame) (log : Log) : m.Drifts { m with log := log } :=
  .of_heap (.refl _) hm

theorem forM_log {γ : Type} {step : γ → Run PUnit} (m : Machine) (cs : List γ)
    (hstep : ∀ c ∈ cs, ∀ log, ∃ log', step c { m with log := log } = .ok ⟨⟩ { m with log := log' })
    (log : Log) : ∃ log', cs.forM step { m with log := log } = .ok ⟨⟩ { m with log := log' } := by
  induction cs generalizing log with
  | nil => exact ⟨log, rfl⟩
  | cons c rest ih =>
    obtain ⟨log₁, h₁⟩ := hstep c List.mem_cons_self log
    obtain ⟨log₂, h₂⟩ := ih (fun c hc => hstep c (List.mem_cons_of_mem _ hc)) log₁
    refine ⟨log₂, ?_⟩
    show (step c >>= fun _ => rest.forM step) { m with log := log } = _
    rw [Run.bind_apply, h₁]
    exact h₂

/-- Where no read hook of a value writes, its reading is noted at most. -/
theorem runReadHooks_of_tame (hh : ∀ g ∈ (m.cell h).magic, g.Tame) :
    ∃ log, runReadHooks h m = .ok ⟨⟩ { m with log := log } := by
  refine forM_log m (m.cell h).magic (fun g hg => forM_log m g.table.onRead fun a ha log => ?_) m.log
  cases a with
  | record label => exact ⟨_, rfl⟩
  | tick => exact absurd ha (hh g hg)

theorem runReadHooks_eq (hm : m.heap.Tame) (h : Handle) :
    ∃ log, runReadHooks h m = .ok ⟨⟩ { m with log := log } :=
  runReadHooks_of_tame (hm.reads h)

end Machine

namespace Run

variable {α β : Type} {x : Run α} {f : α → Run β}

/-- An operation that notes readings at most. -/
def Reads (x : Run α) : Prop :=
  ∀ m : Machine, m.heap.Tame → ∃ a log, x m = .ok a { m with log := log }

theorem Reads.bind (hx : Reads x) (hf : ∀ a, Reads (f a)) : Reads (x >>= f) := fun m hm => by
  obtain ⟨a, log, ha⟩ := hx m hm
  obtain ⟨b, log', hb⟩ := hf a { m with log := log } hm
  exact ⟨b, log', by rw [Run.bind_apply, ha]; exact hb⟩

theorem Reads.look (g : Machine → α) : Reads (Run.look g) := fun m _ => ⟨g m, m.log, rfl⟩

theorem Reads.pure (a : α) : Reads (Pure.pure a : Run α) := .look fun _ => a

theorem Reads.readHooks (h : Handle) : Reads (runReadHooks h) := fun _ hm =>
  ⟨⟨⟩, runReadHooks_eq hm h⟩

theorem Reads.string (h : Handle) : Reads (string h) :=
  ((Reads.readHooks h).bind fun _ => .look _).bind fun _ => .pure _

theorem Reads.describe (h : Handle) : Reads (describe h) := by
  refine (Reads.look _).bind fun kind => ?_
  cases kind
  case scalar =>
    refine ((Reads.readHooks h).bind fun _ => .look _).bind fun defined => ?_
    cases defined
    · exact .pure _
    · refine (Reads.look _).bind fun quoted => ?_
      cases quoted
      · exact .string h
      · exact (Reads.string h).bind fun _ => .pure _
  all_goals exact .pure _

theorem Reads.mapM {γ : Type} {g : γ → Run α} (hg : ∀ c, Reads (g c)) (cs : List γ) :
    Reads (cs.mapM g) := by
  induction cs with
  | nil => exact .pure []
  | cons c rest ih =>
    rw [List.mapM_cons]
    exact (hg c).bind fun _ => ih.bind fun _ => .pure _

/-- An operation that returns and leaves the heap and the interpreter in focus alone, and who owns
what. -/
def Leaves (x : Run α) : Prop :=
  ∀ m : Machine, m.heap.Tame → ∃ a m', x m = .ok a m' ∧ m'.heap = m.heap ∧ m'.interp = m.interp ∧
    ∀ held, m.Orderly held → m'.Orderly held

theorem Leaves.bind (hx : Leaves x) (hf : ∀ a, Leaves (f a)) : Leaves (x >>= f) := fun m hm => by
  obtain ⟨a, m₁, ha, hheap, hinterp, ho⟩ := hx m hm
  obtain ⟨b, m₂, hb, hheap', hinterp', ho'⟩ := hf a m₁ (hheap ▸ hm)
  refine ⟨b, m₂, ?_, hheap'.trans hheap, hinterp'.trans hinterp, fun held h => ho' held (ho held h)⟩
  rw [Run.bind_apply, ha]
  exact hb

theorem Leaves.pure (a : α) : Leaves (Pure.pure a : Run α) :=
  fun m _ => ⟨a, m, rfl, rfl, rfl, fun _ h => h⟩

/-- A reading with another interpreter in focus. -/
theorem Leaves.onInterpreter (hx : Reads x) (i : InterpId) : Leaves (onInterpreter i x) := by
  intro m hm
  obtain ⟨a, log, ha⟩ := hx (m.focus i) (by rwa [heap_focus])
  let m₁ : Machine := { m.focus i with log := log }
  refine ⟨a, m₁.focus m.here, ?_, (heap_focus m₁ _).trans (heap_focus m i), ?_, fun held ho => ?_⟩
  · simp only [Machine.onInterpreter, Run.look_bind, Run.change_bind, Run.always_apply, ha, m₁]
  · rcases m.focus_cases i with hsame | ⟨hi, hhere, rest, hrest⟩
    · rw [focus_self (m := m₁) (congrArg (·.here) hsame)]
      exact congrArg (·.interp) hsame
    · exact (focus_first (m := m₁) (hhere ▸ hi.symm) hrest).2
  · have hlog : m₁.Orderly held := (ho.focus i).congr rfl rfl rfl rfl rfl
    exact hlog.focus m.here

end Run

/-! ### Copies, stores and exceptions -/

namespace Machine

variable {m m' : Machine} {P : Promise} {h slot : Handle} {s former : Scalar} {α : Type}

theorem drifts_retainAll (hs : List Handle) (hm : m.heap.Tame) :
    m.Drifts (hs.foldl Machine.retain m) := by
  induction hs generalizing m with
  | nil => exact .refl hm
  | cons h rest ih =>
    have hretain := Drifts.retain hm h
    exact hretain.trans (ih hretain.tame)

theorem Sound.raise (hm : m.Sound P) {f : Fault} (hf : f.Telling) :
    (m.setErrorText f.message).Sound P ∧ (m.setErrorText f.message).Loud :=
  ⟨(hm.setErrorText f.message).1, (hm.setErrorText f.message).2.loud hf⟩

/-- A copy has the slots of a scalar as it stands; what is no scalar cannot be copied. -/
theorem copySlots_apply (hm : m.heap.Tame) (h : Handle) : ∃ log, copySlots h m =
    match m.scalar? h with
      | some s => .ok s (s.owned.foldl Machine.retain { m with log := log })
      | none => .error .raised
          (({ m with log := log } : Machine).setErrorText Fault.copyOfNonScalar.message) := by
  obtain ⟨log, hlog⟩ := runReadHooks_eq hm h
  refine ⟨log, ?_⟩
  rw [Machine.copySlots, Run.bind_apply, hlog]
  simp only [Run.look_bind]
  show (match m.scalar? h with | some s => _ | none => _ : Run Scalar) _ = _
  cases m.scalar? h <;> rfl

theorem Sound.copySlots (hm : m.Sound P) (h : Handle) :
    (∃ s m', m.body h = .scalar s ∧ copySlots h m = .ok s m' ∧ m.Drifts m') ∨
      (∀ s, m.body h ≠ .scalar s) ∧
        ∃ m', Machine.copySlots h m = .error .raised m' ∧ m'.Sound P ∧ m'.Loud := by
  obtain ⟨log, hcopy⟩ := copySlots_apply hm.tame h
  have hnoted := drifts_log hm.tame log
  rw [hcopy]
  cases hs : m.scalar? h with
  | some s =>
    exact .inl ⟨s, _, scalar?_eq_some.1 hs, rfl, hnoted.trans (drifts_retainAll _ hnoted.tame)⟩
  | none =>
    refine .inr ⟨fun s hb => ?_, _, rfl, (hm.drifts hnoted).raise (Fault.telling (by simp))⟩
    rw [scalar?_eq_some.2 hb] at hs
    cases hs

/-- A store overwrites a scalar or raises an exception. -/
theorem Sound.store (hm : m.Sound P) (h : Handle) (s : Scalar) :
    (∃ former, m.body h = .scalar former ∧ store h s m = .ok () (m.replaceScalar h former s)) ∨
      ∃ m', Machine.store h s m = .error .raised m' ∧ m'.Sound P ∧ m'.Loud := by
  simp only [Machine.store, Run.look_bind]
  split
  · have hrelease := Drifts.releaseAll hm.tame hm.bounded s.owned
    exact .inr ⟨_, rfl, (hm.drifts hrelease).raise (Fault.telling (by simp))⟩
  · cases hb : (m.cell h).body with
    | scalar former => exact .inl ⟨former, hb, rfl⟩
    | _ => exact .inr ⟨_, rfl, hm.raise (Fault.telling (by simp))⟩

/-- A store into another value leaves the error variable alone. -/
theorem Sound.quiet_replaceScalar (hm : m.Sound P) (hs : s.Formed) (hb : m.body h = .scalar former)
    (hne : m.errorHandle? ≠ some h) (hq : m.errorTrue = false) :
    (m.replaceScalar h former s).errorTrue = false := by
  refine (hm.setBody hs hb).quiet (hm.replaceScalar_drifts hs hb) ?_
  have hsame : (m.setBody h (.scalar s)).errorHandle? = m.errorHandle? := rfl
  rw [errorTrue, hsame]
  cases hh : m.errorHandle? with
  | none => rfl
  | some k =>
    have hk : k ≠ h := fun he => hne (he ▸ hh)
    rw [Option.any_some, truthAt, body_setBody_ne _ hk, ← truthAt, ← errorTrue_of_handle hh, hq]

/-- A value that tells and is raised is there to be read in `$@`. -/
theorem Sound.raiseValue (hm : m.Sound P) (h : Handle) :
    ∃ m', (raiseValue h : Run α) m = .error .raised m' ∧ m'.Sound P ∧ (m.Tells h → m'.Loud) := by
  have hdrift := hm.errorSlot
  have hslot := hm.drifts hdrift
  have hh := hm.errorHandle?_errorSlot
  have hraise : (Machine.raiseValue h : Run α) m = ((assign m.errorSlot.1 h >>= fun _ => throw .raised :
      Run α) m.errorSlot.2) := rfl
  rw [hraise, Machine.assign]
  split
  next he =>
    -- the value of `$@` is raised again as it stands
    refine ⟨_, rfl, hslot, fun ht => ?_⟩
    rcases hslot.slot hh with hb | ⟨s, hb⟩
    · exact .inr ⟨_, hh, hb⟩
    · exact ErrorIs.loud ⟨_, hh, .inr hb⟩ ((ht.drifts hdrift.heap).2 s (he ▸ hb))
  next =>
    rcases hslot.copySlots h with ⟨s, m₂, hb, hcopy, hd⟩ | ⟨-, m₂, hcopy, hm₂, hl⟩
    · have hm₂ := hslot.drifts hd
      rcases hm₂.store m.errorSlot.1 s with ⟨former, hf, hstore⟩ | ⟨m₃, hstore, hm₃, hl⟩
      · have hs : s.Formed := hslot.tame.formed h s hb
        refine ⟨_, ?_, hm₂.replaceScalar hs hf, fun ht => ?_⟩
        · simp only [Run.bind_apply, hcopy, hstore, Run.throw_apply]
        · refine (hm₂.replaceError hs (hd.keeps hh) hf).loud ?_
          exact (ht.drifts hdrift.heap).2 s hb
      · refine ⟨m₃, ?_, hm₃, fun _ => hl⟩
        simp only [Run.bind_apply, hcopy, hstore]
    · refine ⟨m₂, ?_, hm₂, fun _ => hl⟩
      simp only [Run.bind_apply, hcopy]

end Machine

/-! ### The manner -/

namespace Manner

/-- The error variable is minded: what raises keeps the promise of a loud exception, and where
`quiet` is asked for, what returns leaves a false `$@` false. -/
def minding (P : Promise) (quiet : Prop) : Manner where
  returns m m' := m.Sound P →
    m'.Sound P ∧ (quiet → m.errorTrue = false → m'.errorTrue = false)
  exits e m m' := m.Sound P → m'.Sound P ∧ (P.loud → e = .raised → m'.Loud)
  fails f m m' := m.Sound P → m'.Sound P ∧ (P.loud → ∀ v, f = .died v → m'.Tells v.handle)
  cleans m m' := m.Sound P → m.Drifts m'
  refl m hm := ⟨hm, fun _ hq => hq⟩
  trans h h' hm := by
    obtain ⟨hm₂, hq⟩ := h hm
    obtain ⟨hm₃, hq'⟩ := h' hm₂
    exact ⟨hm₃, fun hquiet hfalse => hq' hquiet (hq hquiet hfalse)⟩
  returns_of_cleans h hm := ⟨hm.drifts (h hm), fun _ hq => hm.quiet (h hm) hq⟩
  cleans_refl m hm := .refl hm.tame
  cleans_trans h h' hm := (h hm).trans (h' (hm.drifts (h hm)))
  gives_up m e he hm := ⟨hm, fun _ hraised => absurd hraised he⟩
  exits_of_returns h h' hm := h' (h hm).1
  exits_cleans h h' hm := by
    obtain ⟨hm₂, hl⟩ := h hm
    exact ⟨hm₂.drifts (h' hm₂), fun hloud he => hm₂.loud (h' hm₂) (hl hloud he)⟩
  fails_of_returns h h' hm := h' (h hm).1
  fails_cleans h h' hm := by
    obtain ⟨hm₂, ht⟩ := h hm
    exact ⟨hm₂.drifts (h' hm₂), fun hloud v hv => (ht hloud v hv).drifts (h' hm₂).heap⟩
  fails_atArgument {_ _ f} i h hm := by
    refine ⟨(h hm).1, fun _ v hv => ?_⟩
    cases f <;> cases hv

variable {P : Promise} {quiet : Prop} {m m' : Machine} {α : Type}

/-- Nothing is asked of machines that are not sound. -/
theorem minding_ends {r : EStateM.Result Exit Machine α}
    (h : m.Sound P → (minding P quiet).Ends m r) : (minding P quiet).Ends m r := by
  cases r with
  | ok a m' => exact fun hm => h hm hm
  | error e m' => exact fun hm => h hm hm

theorem minding_returns (hd : m.Sound P → m.Drifts m') : (minding P quiet).returns m m' :=
  (minding P quiet).returns_of_cleans hd

/-- What a step leaves alone that is about neither the heap nor the globals. -/
def holdings (m : Machine) :
    Heap × List (String × Glob) × Option Handle × List (String × Module) :=
  (m.heap, m.interp.symbols, m.interp.error, m.interp.modules)

/-- A step that is about neither the heap nor the globals. -/
theorem drifts_still (h : holdings m' = holdings m) (hm : m.Sound P) : m.Drifts m' := by
  simp only [holdings, Prod.mk.injEq] at h
  obtain ⟨heap, symbols, error, modules⟩ := h
  refine .of_heap (heap ▸ .refl _) (heap ▸ hm.tame) error modules fun name => ?_
  rw [global?, global?, glob?, glob?, symbols]

theorem minding_raises (hm' : m'.Sound P) (hl : P.loud → m'.Loud) :
    (minding P quiet).exits .raised m m' :=
  fun _ => ⟨hm', fun hloud _ => hl hloud⟩

theorem minding_newCopy (h : Handle) : (newCopy h).Moves (minding P quiet) := by
  refine fun m => minding_ends fun hm => ?_
  rw [newCopy, Run.bind_apply]
  rcases hm.copySlots h with ⟨s, m₁, hb, hcopy, hd⟩ | ⟨-, m₁, hcopy, hm₁, hl⟩
  · have hs : s.Formed := hm.tame.formed h s hb
    rw [hcopy]
    exact minding_returns fun _ => hd.trans (.alloc hd.tame (by simpa using hs))
  · rw [hcopy]
    exact minding_raises hm₁ fun _ => hl

theorem minding_readHooks (h : Handle) : (runReadHooks h).Moves (minding P quiet) := by
  refine fun m => minding_ends fun hm => ?_
  obtain ⟨log, hlog⟩ := runReadHooks_eq hm.tame h
  rw [hlog]
  exact minding_returns fun _ => drifts_log hm.tame log

theorem minding_raise (f : Fault) (hf : P.loud → f.Telling) (m : Machine) :
    (minding P quiet).exits .raised m (m.setErrorText f.message) :=
  fun hm => ⟨(hm.setErrorText _).1, fun hloud _ => (hm.raise (hf hloud)).2⟩

theorem minding_plain : (minding P quiet).Plain where
  alloc m _ hb := minding_returns fun hm => .alloc hm.tame hb.formed
  newCopy := minding_newCopy
  retain m h := minding_returns fun hm => .retain hm.tame h
  mortal m h := minding_returns (drifts_still (by rfl))
  global m s name := minding_returns fun hm => .global hm.tame hm.bounded s name
  setArray ys hb := minding_returns fun hm => .setBody hm.tame (hb ▸ .array _ ys)
  setHash u hb := minding_returns fun hm => .setBody hm.tame (hb ▸ .hash _ u)
  name m h c := minding_returns fun hm =>
    Drifts.set hm.tame (c := { m.cell h with className := some c }) (.refl _) (hm.tame.reads h)
  release m h hm := .release hm.tame hm.bounded h
  raise m f hf := minding_raise f (fun _ => hf) m
  readHooks := minding_readHooks

/-- A held value may belong to an interpreter that waits. -/
theorem drifts_drop (hm : m.Sound P) (v : Held) : m.Drifts (m.drop v) := by
  unfold Machine.drop
  split
  · rcases m.focus_cases v.owner with hsame | ⟨hi, hhere, rest, hrest⟩
    · have hback := focus_self (Still.release m v.handle).here
      simp only [Machine.within, hsame, hback]
      exact .release hm.tame hm.bounded v.handle
    · have hstill := Still.release (m.focus v.owner) v.handle
      have hreleased := (keptByRelease_heap (m.focus v.owner)).release v.handle
        ⟨by rw [heap_focus]; exact hm.tame, .refl _⟩
      have hback := focus_first (m := (m.focus v.owner).release v.handle)
        (by rw [hstill.here, hhere]; exact hi.symm) (hstill.others.trans hrest)
      refine .of_heap ?_ ?_ ?_ ?_ fun name => ?_
      · simpa [Machine.within] using hreleased.2
      · simpa [Machine.within] using hreleased.1
      · rw [Machine.within, hback.2]
      · rw [Machine.within, hback.2]
      · rw [Machine.within, global?, glob?, hback.2]; rfl
  · exact .refl hm.tame

theorem minding_drops : (minding P quiet).Drops where
  toPlain := minding_plain
  fail _ hf hm := ⟨hm, fun _ v hv => absurd hv (hf v)⟩
  drop _ v hm := drifts_drop hm v

theorem leaves_message (f : Failure) : Run.Leaves f.message := by
  have hdescribed (v : Held) (text : String → String) :
      Run.Leaves (do return text (← onInterpreter v.owner (Machine.describe v.handle))) :=
    (Run.Leaves.onInterpreter (.describe v.handle) v.owner).bind fun _ => .pure _
  induction f with
  | died v => exact (Run.Leaves.onInterpreter (.string v.handle) v.owner).bind fun _ => .pure _
  | unexpectedKind v _ | notNumber v _ | notStringOrNumber v | notReference v | notObject v
  | notWrapped v | unexpectedClass v _ => exact hdescribed v _
  | argument i source ih => exact ih.bind fun _ => .pure _
  | _ => exact .pure _

/-! ### Stores -/

/-- A store that leaves `$@` alone where quiet is asked for. -/
theorem minding_store {h : Handle} {s : Scalar} (hs : s.Formed)
    (hne : quiet → m.Sound P → m.errorHandle? ≠ some h) :
    (minding P quiet).Ends m (store h s m) := by
  refine minding_ends fun hm => ?_
  rcases hm.store h s with ⟨former, hb, hr⟩ | ⟨m', hr, hm', hl⟩
  · rw [hr]
    exact fun _ => ⟨hm.replaceScalar hs hb,
      fun hquiet hq => hm.quiet_replaceScalar hs hb (hne hquiet hm) hq⟩
  · rw [hr]
    exact minding_raises hm' fun _ => hl

theorem minding_storeObject {h : Handle} (hne : m.errorHandle? ≠ some h)
    (className : Option String) (n : Int64) :
    (minding P quiet).Ends m (storeObject h className n m) := by
  refine (minding P quiet).ends_bind (minding_plain.newScalar _ (by simp) m) fun target m₁ hr => ?_
  cases hr
  refine (minding P quiet).ends_bind (minding_store (by simp) fun _ _ => hne) fun _ m₂ _ => ?_
  cases className with
  | some c => exact minding_plain.bless h c m₂
  | none => exact Run.Moves.pure _ m₂

/-- An object that stands for a host instance is a new value. -/
theorem minding_objectOf (i : InstanceId) : (Datum.objectOf i).Moves (minding P quiet) := by
  refine fun m => minding_ends fun hm => ?_
  have hclaim : m.Drifts (m.claim i) := by
    unfold Machine.claim
    split <;> exact .of_heap (.refl _) hm.tame
  have hne : ((m.claim i).alloc (.scalar .undefined)).2.errorHandle? ≠ some (m.claim i).heap.next :=
    fun hh => lt_irrefl _ ((hm.drifts hclaim).bounded _ _ hh)
  rw [Datum.objectOf, Run.change_bind, Run.look_bind]
  refine (minding P quiet).ends_of_returns (minding_returns fun _ => hclaim) ?_
  refine (minding P quiet).ends_bind (minding_plain.newScalar _ (by simp) _) fun h m₂ hr => ?_
  cases hr
  refine (minding P quiet).ends_bind (minding_storeObject hne _ _) fun _ m₃ _ => ?_
  refine (minding P quiet).ends_bind (Run.Moves.look _ _) fun target m₄ _ => ?_
  cases target with
  | none => exact Run.Moves.pure _ m₄
  | some target =>
    have hattach (m : Machine) : (minding P quiet).returns m
        (m.attach target ⟨Magic.extension, .bridge, i.identity⟩) :=
      minding_returns fun hm => .attach hm.tame target (by simp [Magic.Tame, HookTable.bridge])
    exact ((Run.Moves.change hattach).bind fun _ => Run.Moves.pure _) m₄

theorem minding_gives : (minding P quiet).Gives := ⟨minding_plain, minding_objectOf⟩

end Manner

end ValueMachine

import ValueMachine.Host.Hash
import ValueMachine.Host.Shown
import ValueMachine.Proofs.Calls.Conversions
import ValueMachine.Proofs.Iterations.Walks
import ValueMachine.Proofs.Ownership.Refusals

/-! Inspections of hashes. What reads a hash by a snapshot of its entries does not move its cursor. Hooks
that run may write scalars and release values, so a hash stays as it is or is freed. -/

namespace ValueMachine

open Machine

/-! ### What is left of an iteration -/

namespace Table

/-- The entries that the iteration has still to come to, as the table is. -/
def remaining (t : Table) : List (Bytes × Handle) :=
  t.ahead.filterMap fun key => (t.get? key).map (key, ·)

theorem filterMap_gone {t : Table} {ks : List Bytes} (hks : ∀ k ∈ ks, t.get? k = none) :
    (ks.filterMap fun key => (t.get? key).map (key, ·)) = [] :=
  List.filterMap_eq_nil_iff.2 fun k hk => by rw [hks k hk]; rfl

/-- A step comes to the first of the entries that are left, and leaves the others. -/
theorem step_remaining (t : Table) :
    t.step.1 = t.remaining.head? ∧ t.step.2.remaining = t.remaining.tail := by
  rcases t.step_cases with ⟨hfst, hsnd, hgone⟩ | ⟨passed, key, v, rest, hcursor, hv, hpassed, hstep⟩
  · have hnone : t.remaining = [] := filterMap_gone hgone
    rw [hfst, hsnd, hnone]
    exact ⟨rfl, rfl⟩
  · have hcons : t.remaining
        = (key, v) :: rest.filterMap fun key => (t.get? key).map (key, ·) := by
      rw [remaining, ahead, hcursor, Option.getD_some, List.filterMap_append, filterMap_gone hpassed,
        List.nil_append, List.filterMap_cons_some (b := (key, v)) (by rw [hv]; rfl)]
    rw [hstep, hcons]
    exact ⟨rfl, rfl⟩

theorem remaining_of_cursor_eq_none {t : Table} (ht : t.cursor = none) : t.remaining = [] := by
  rw [remaining, ahead, ht]
  rfl

end Table

/-! ### Hashes under inspection -/

namespace Machine

variable {m m' m₁ m₂ m₃ : Machine} {h : Handle}

/-- Every hash is as it was or has been freed. -/
structure Inspected (m m' : Machine) : Prop where
  size_le : m.heap.size ≤ m'.heap.size
  hash : ∀ k t, m.body k = .hash t → m'.body k = .hash t ∨ m'.body k = .freed
  freed : ∀ k, k.index < m.heap.size → m.body k = .freed → m'.body k = .freed

theorem index_lt_of_hash {t : Table} (hb : m.body h = .hash t) : h.index < m.heap.size :=
  index_lt_of_not_isFreed (by rw [isFreed, hb]; rfl)

namespace Inspected

theorem refl (m : Machine) : m.Inspected m := ⟨le_rfl, fun _ _ hb => .inl hb, fun _ _ hb => hb⟩

theorem trans (h₁ : m₁.Inspected m₂) (h₂ : m₂.Inspected m₃) : m₁.Inspected m₃ where
  size_le := h₁.size_le.trans h₂.size_le
  hash k t hb := by
    rcases h₁.hash k t hb with hb' | hb'
    · exact h₂.hash k t hb'
    · exact .inr (h₂.freed k ((index_lt_of_hash hb).trans_le h₁.size_le) hb')
  freed k hs hb := h₂.freed k (hs.trans_le h₁.size_le) (h₁.freed k hs hb)

/-- Where one body may change at most, it has to be a scalar. -/
theorem of_spares (hs : Spares h m m') (hh : h.index < m.heap.size → ∃ s, m.body h = .scalar s) :
    m.Inspected m' where
  size_le := hs.size_le
  hash k t hb := by
    have hlt := index_lt_of_hash hb
    have hne : k ≠ h := by
      rintro rfl
      obtain ⟨s, hscalar⟩ := hh hlt
      cases hb.symm.trans hscalar
    exact (hs.body k hne hlt).imp_left fun hkept => hkept.trans hb
  freed k hlt hb := by
    have hne : k ≠ h := by
      rintro rfl
      obtain ⟨s, hscalar⟩ := hh hlt
      cases hb.symm.trans hscalar
    exact (hs.body k hne hlt).elim (fun hkept => hkept.trans hb) id

/-- No body changes, though values may come and go. -/
theorem of_spares_next (hs : Spares m.heap.next m m') : m.Inspected m' :=
  of_spares hs fun hlt => absurd rfl (ne_next_of_lt hlt)

theorem of_heap_eq (heap : m'.heap = m.heap) : m.Inspected m' := of_spares_next (.of_heap_eq heap)

theorem alloc (m : Machine) (b : Body) : m.Inspected (m.alloc b).2 :=
  of_spares_next ⟨by simp [Machine.alloc], fun _ _ hs => .inl (body_alloc m b (ne_next_of_lt hs))⟩

theorem releaseAll (m : Machine) (hs : List Handle) : m.Inspected (m.releaseAll hs) :=
  of_spares_next ((spares_keptByRelease m.heap.next m).releaseAll hs (.refl _ m))

theorem replaceScalar {former : Scalar} (hb : m.body h = .scalar former) (s : Scalar) :
    m.Inspected (m.replaceScalar h former s) :=
  of_spares (.replaceScalar m h former s) fun _ => ⟨former, hb⟩

theorem setErrorText (m : Machine) (message : String) : m.Inspected (m.setErrorText message) := by
  have hnew : m.Inspected (m.allocMortal (.scalar (.ofText message))).2 :=
    (alloc m _).trans (of_heap_eq rfl)
  refine hnew.trans ?_
  show (m.allocMortal _).2.Inspected ((m.allocMortal _).2.setError _)
  generalize (m.allocMortal (.scalar (.ofText message))).2 = m₁
  have hslot : m₁.Inspected m₁.errorSlot.2 := of_spares_next (m₁.errorSlot_spares _).2
  refine hslot.trans ?_
  cases hb : m₁.errorSlot.2.body m₁.errorSlot.1 with
  | scalar former =>
    simp only [Machine.setError, hb]
    exact replaceScalar hb _
  | _ =>
    simp only [Machine.setError, hb]
    exact refl _

/-- A hash that is still there has the table that it had. -/
theorem body_eq {t : Table} (hm : m.Inspected m') (hb : m.body h = .hash t)
    (hf : m'.isFreed h = false) : m'.body h = .hash t := by
  refine (hm.hash h t hb).resolve_right fun hfreed => ?_
  rw [isFreed, hfreed] at hf
  cases hf

end Inspected

end Machine

namespace Manner

/-- Hashes are inspected at most. -/
def inspecting : Manner := .uniform Machine.Inspected.refl Machine.Inspected.trans

theorem inspecting_glances : inspecting.Glances where
  alloc m {b} _ := Inspected.alloc m b
  retain m h := Inspected.of_spares_next (.retain m h)
  releaseAll := Inspected.releaseAll
  replaceScalar _ hb := Inspected.replaceScalar hb _
  noteAccess _ _ := Inspected.of_heap_eq rfl
  tick _ := Inspected.of_heap_eq rfl
  raise m f := Inspected.setErrorText m f.message

theorem inspecting_holds : inspecting.Holds where
  toLooks := inspecting_glances.looks
  fail m _ := Inspected.refl m
  drop m v := by
    unfold Machine.drop
    split
    · have hreleased := Inspected.releaseAll (m.focus v.owner) [v.handle]
      exact (Inspected.of_heap_eq (heap_focus m v.owner)).trans
        (hreleased.trans (Inspected.of_heap_eq (heap_focus _ m.here)))
    · exact Inspected.refl m

/-- Where the end makes no difference, a failure is a result. -/
theorem inspecting_run {α : Type} {x : Bridge α} : x.run.Moves inspecting ↔ x.Moves inspecting := by
  refine forall_congr' fun m => ?_
  rcases x.run m with (_ | _) | _ <;> exact Iff.rfl

theorem inspecting_cross {α : Type} {x : Run α} (i : InterpId) (hx : x.Moves inspecting) :
    (onInterpreter i x).Moves inspecting :=
  (Run.Moves.look _).bind fun back =>
    (Run.Moves.change fun m => Inspected.of_heap_eq (heap_focus m i)).bind fun _ =>
      hx.always fun m => Inspected.of_heap_eq (heap_focus m back)

theorem inspecting_onOwner {α : Type} {x : Bridge α} (v : Held) (hx : x.Moves inspecting) :
    (Bridge.onOwner v x).run.Moves inspecting :=
  inspecting_cross v.owner (inspecting_run.2 hx)

end Manner

/-! ### Readers -/

namespace Shown

open Manner Run

theorem scalar_moves (h : Handle) : Moves inspecting (scalar h) :=
  ((inspecting_holds.describe h).bind fun _ => .pure _).bind fun _ => .pure _

theorem object_moves (h : Handle) : Moves inspecting (object h) :=
  ((inspecting_holds.describe h).bind fun _ => .pure _).bind fun _ => .pure _

theorem element_moves (slot : Option Handle) : Moves inspecting (element slot) := by
  have hshown (v : Held) : Moves inspecting ((scalar v.handle).always (·.drop v)) :=
    (scalar_moves v.handle).always fun m => inspecting_holds.drop m v
  cases slot with
  | some h => exact (inspecting_holds.hold h).bind hshown
  | none => exact ((inspecting_holds.newScalar _).bind Holds.adopt).bind hshown

theorem array_moves (h : Handle) : Moves inspecting (array h) :=
  (inspecting_holds.slots h).bind fun _ => (Moves.mapM element_moves _).bind fun _ => .pure _

theorem hash_moves (h : Handle) : Moves inspecting (hash h) :=
  (inspecting_holds.hashEntries h).bind fun _ =>
    (Moves.mapM (fun _ => (element_moves _).bind fun _ => .pure _) _).bind fun _ => .pure _

theorem any_moves (a : Any) : Moves inspecting (any a) := by
  cases a with
  | scalar v => exact (scalar_moves v.handle).bind fun _ => .pure _
  | array v => exact (array_moves v.handle).bind fun _ => .pure _
  | hash v => exact (hash_moves v.handle).bind fun _ => .pure _
  | sub v => exact (Moves.look _).bind fun _ => .pure _
  | object v => exact (object_moves v.handle).bind fun _ => .pure _
  | registered v type => exact (object_moves v.handle).bind fun _ => .pure _
  | bridged v i => exact (Moves.look _).bind fun _ => .pure _
  | other v => exact ((inspecting_holds.describe v.handle).bind fun _ => .pure _).bind fun _ => .pure _

end Shown

/-- A reading of a hash by a snapshot, or the showing of a value. -/
inductive Inspection where
  | keys (v : Held)
  | size (v : Held)
  | get (v : Held) (key : String)
  | getEntry (v key : Held)
  | fetch (t : HostType) (v : Held) (key : String)
  | contains (v : Held) (key : String)
  | containsEntry (v key : Held)
  | toMap (t : HostType) (v : Held)
  | debug (i : InterpId) (a : Any)

namespace Inspection

open Manner Run

/-- The machine after an inspection, whatever its outcome. -/
def final : Inspection → Machine → Machine
  | keys v => (HostHash.keys v).final
  | size v => (HostHash.size v).final
  | get v key => (HostHash.get? v key).final
  | getEntry v key => (HostHash.getEntry? v key).final
  | fetch t v key => (HostHash.fetch t v key).run.final
  | contains v key => (HostHash.contains v key).final
  | containsEntry v key => (HostHash.containsEntry v key).final
  | toMap t v => (HostHash.toMap t v).run.final
  | debug i a => (onInterpreter i (Shown.any a)).final

theorem inspected_final {α : Type} {x : Run α} (hx : x.Moves inspecting) (m : Machine) :
    m.Inspected (x.final m) := by
  have hend := hx m
  rw [Run.final]
  split
  next hr => exact hx.ok hr
  next hr => exact hx.error hr

/-- An inspection leaves every hash as it is, unless it is freed. -/
theorem inspected (i : Inspection) (m : Machine) : m.Inspected (i.final m) := by
  have hM := inspecting_holds
  have hread (t : HostType) (h : Handle) : (t.read .share h).Moves inspecting :=
    hM.readAs hM.keepShared t h
  have hfetch (h : Handle) (key : Bytes) : Moves inspecting (hashFetch? h key) := hM.hashFetch? h key
  have hsome (found : Option Handle) : Moves inspecting (HostArray.holdSome found) := by
    cases found with
    | some h => exact (hM.hold h).bind fun _ => .pure _
    | none => exact .pure _
  cases i with
  | keys v => exact inspected_final (inspecting_cross _ ((hM.hashEntries _).bind fun _ => .pure _)) m
  | size v => exact inspected_final (inspecting_cross _ ((hM.table _).bind fun _ => .pure _)) m
  | get v key => exact inspected_final (inspecting_cross _ ((hfetch _ _).bind hsome)) m
  | getEntry v key =>
    exact inspected_final (inspecting_cross _ ((hM.text _).bind fun _ => (hfetch _ _).bind hsome)) m
  | fetch t v key =>
    refine inspected_final (inspecting_onOwner v ?_) m
    refine (Bridge.Moves.ofRun (hfetch _ _)).bind fun found => ?_
    cases found with
    | some h => exact (hread t h).bind fun _ => .pure _
    | none => exact .pure _
  | contains v key => exact inspected_final (inspecting_cross _ ((hfetch _ _).bind fun _ => .pure _)) m
  | containsEntry v key =>
    exact inspected_final (inspecting_cross _
      ((hM.text _).bind fun _ => (hfetch _ _).bind fun _ => .pure _)) m
  | toMap t v =>
    exact inspected_final (inspecting_onOwner v (hM.textMap (hread t) t.held v.handle)) m
  | debug i a => exact inspected_final (inspecting_cross i (Shown.any_moves a)) m

end Inspection

end ValueMachine

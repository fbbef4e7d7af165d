import ValueMachine.Proofs.Ownership.Assignments
import ValueMachine.Proofs.Ownership.Inspection

/-! Assignments that are refused. The slots are at hand, with the counts that they own, before the
target is looked at. A shared target has them released again, and the exception leaves nothing behind.
What is no scalar leaves them, and their counts stay without an owner. -/

namespace ValueMachine

namespace Machine

variable {m m' m₁ m₂ : Machine} {held : List Handle} {h : Handle} {s : Scalar} {e : Exit}

/-! ### The exception -/

theorem Orderly.allocMortal (hm : m.Orderly held) (hs : s.owned = []) :
    m.Settles (m.allocMortal (.scalar s)).2 held := by
  have halloc := Orderly.alloc (.scalar s) (by rwa [Body.owned, hs, List.nil_append]) rfl
  exact halloc.trans halloc.orderly.mortal

theorem Orderly.setErrorText (hm : m.Orderly held) (message : String) :
    m.Settles (m.setErrorText message) held := by
  have hmortal := hm.allocMortal (s := .ofText message) rfl
  have hslot := hmortal.trans hmortal.orderly.errorSlot
  simp only [Machine.setErrorText, setError]
  split
  next former hb =>
    exact hslot.trans (Orderly.replaceScalar (s := .ofText message) hslot.orderly hb)
  next => exact hslot

theorem errorSlot_spares (m : Machine) (h : Handle) :
    m.errorSlot.2.interp.error = some m.errorSlot.1 ∧ Spares h m m.errorSlot.2 := by
  unfold Machine.errorSlot
  cases he : m.interp.error with
  | some slot => exact ⟨he, .refl h m⟩
  | none =>
    have hglobal : Spares h m (m.global .scalar "@").2 := .of_fades (.global m .scalar "@")
    exact ⟨rfl, hglobal.trans (.of_heap_eq rfl)⟩

theorem Orderly.error_replaceScalar {former : Scalar} (hm : m.Orderly held) :
    (m.replaceScalar h former s).interp.error = m.interp.error := by
  have hset : (m.setBody h (.scalar s)).Harmless := hm.harmless.set _ (hm.harmless h)
  obtain ⟨log, hlog⟩ := ((m.setBody h (.scalar s)).releaseAll former.owned).noteWrite_eq h
  obtain ⟨symbols, live, hinterp⟩ := (hset.fades_releaseAll former.owned).interp
  rw [Machine.replaceScalar, hlog]
  exact congrArg (·.error) hinterp

/-- Of the bodies the exception changes that of the error variable at most, and frees some. -/
theorem Orderly.spares_setErrorText (hm : m.Orderly held) (message : String) :
    ∃ slot, (m.setErrorText message).interp.error = some slot ∧
      Spares slot m (m.setErrorText message) := by
  let m₁ := (m.allocMortal (.scalar (.ofText message))).2
  have hmortal : m.Settles m₁ held := hm.allocMortal rfl
  have hslot := hmortal.trans hmortal.orderly.errorSlot
  obtain ⟨herror, herr⟩ := errorSlot_spares m₁ m₁.errorSlot.1
  have hspares : Spares m₁.errorSlot.1 m m₁.errorSlot.2 :=
    Spares.trans ⟨hmortal.ages.size_le, fun k _ hs => .inl (body_alloc _ _ (ne_next_of_lt hs))⟩ herr
  refine ⟨m₁.errorSlot.1, ?_⟩
  simp only [Machine.setErrorText, setError]
  split
  next former hb =>
    exact ⟨hslot.orderly.error_replaceScalar.trans herror, hspares.trans (.replaceScalar ..)⟩
  next => exact ⟨herror, hspares⟩

/-- Counts outside that nobody holds are in order just if they are counts on shared values. -/
theorem Orderly.drop_iff {hs : List Handle} (hm : m.Orderly (hs ++ held)) :
    m.Orderly held ↔ ∀ k ∈ hs, (m.cell k).immortal = true := by
  constructor
  · intro hm' k hk
    by_contra hi
    rw [Bool.not_eq_true] at hi
    have hboth := (hm.count_eq k hi).symm.trans (hm'.count_eq k hi)
    have hpos := List.count_pos_iff.2 hk
    rw [List.count_append] at hboth
    omega
  · intro hshared
    refine { hm with count_eq := fun k hk => ?_ }
    have hnot : k ∉ hs := fun hmem => by
      rw [hshared k hmem] at hk
      cases hk
    rw [hm.count_eq k hk, List.count_append, List.count_eq_zero.2 hnot, Nat.zero_add]

/-! ### Assignments -/

/-- A store into a shared value gives back what the slots own. -/
theorem store_shared (hi : (m.cell h).immortal = true) (s : Scalar) :
    store h s m = raise .readOnly (m.releaseAll s.owned) := by
  simp only [store, Run.look_bind, hi, if_true, Run.change_bind]

/-- A store into what is no scalar keeps what the slots own. -/
theorem store_notScalar (hi : (m.cell h).immortal = false) (hs : m.scalar? h = none) (s : Scalar) :
    store h s m = raise .notScalar m := by
  simp only [store, Run.look_bind, hi, Bool.false_eq_true, if_false]
  cases hb : (m.cell h).body with
  | scalar former =>
    rw [scalar?, body, hb] at hs
    cases hs
  | _ => rfl

end Machine

/-- What a value is assigned: slots together with the count that they own, a reference to another
value, a reference to a new integer, blessed where a class is given, or the slots of another value. -/
inductive Assignment where
  | slots (s : Scalar)
  | reference (target : Handle)
  | integer (className : Option String) (n : Int64)
  | copy (src : Handle)

namespace Assignment

open Machine

/-- The assignment to a value. -/
def run (h : Handle) : Assignment → Run Unit
  | slots s => store h s
  | reference target => storeReference h target
  | integer className n => storeObject h className n
  | copy src => Machine.assign h src

/-- The slots to be stored, which own a count where they are a reference. -/
def prepare : Assignment → Run Scalar
  | slots s => pure s
  | reference target => do
    Run.change (·.retain target)
    return .ofTarget target
  | integer _ n => do return .ofTarget (← newScalar (.ofInt64 n))
  | copy src => copySlots src

/-- The counts that the assignment adopts from its caller. -/
def adopted : Assignment → List Handle
  | slots s => s.owned
  | _ => []

/-- The values that are there for the assignment to take a count on. -/
def lent : Assignment → List Handle
  | reference target => [target]
  | _ => []

variable {a : Assignment} {m m' m₁ : Machine} {held : List Handle} {h : Handle} {s : Scalar}
  {f : Fault} {e : Exit}

/-- The preparations take a count, or have adopted it. -/
theorem settles_prepare (hm : m.Orderly (a.adopted ++ held))
    (hlent : ∀ k ∈ a.lent, m.isFreed k = false) (hr : a.prepare m = .ok s m₁) :
    m.Settles m₁ (s.owned ++ held) := by
  cases a with
  | slots s =>
    cases hr
    exact .refl hm
  | reference target =>
    cases hr
    exact Orderly.retain hm (hlent target List.mem_cons_self)
  | integer className n =>
    cases hr
    exact Orderly.alloc (.scalar (.ofInt64 n)) hm rfl
  | copy src => exact Orderly.copySlots hm hr

/-- The target keeps its body meanwhile, unless reading the source frees it. -/
theorem body_prepare (hm : m.Orderly (a.adopted ++ held)) (hh : m.isFreed h = false)
    (hne : a ≠ .copy h) (hr : a.prepare m = .ok s m₁) (hh₁ : m₁.isFreed h = false) :
    m₁.body h = m.body h := by
  cases a with
  | slots s =>
    cases hr
    rfl
  | reference target =>
    cases hr
    exact body_retain m target h
  | integer className n =>
    cases hr
    exact body_alloc m _ (ne_next_of_lt (index_lt_of_not_isFreed hh))
  | copy src =>
    have hsrc : h ≠ src := fun hsame => hne (by rw [hsame])
    exact (Orderly.spares_copySlots hm hr).body_eq hsrc (index_lt_of_not_isFreed hh) hh₁

/-- Where the store raises an exception the assignment does. -/
theorem run_error (hne : a ≠ .copy h) (hr : a.prepare m = .ok s m₁)
    (hstore : store h s m₁ = .error e m') : a.run h m = .error e m' := by
  cases a with
  | slots s =>
    cases hr
    exact hstore
  | reference target =>
    cases hr
    exact hstore
  | integer className n =>
    obtain ⟨target, m₂, halloc, hs⟩ := Run.bind_ok hr
    cases hs
    refine (Run.bind_of_ok halloc).trans ?_
    rw [Run.bind_apply, hstore]
  | copy src =>
    rw [run, Machine.assign, if_neg fun hsame => hne (by rw [hsame])]
    exact (Run.bind_of_ok hr).trans hstore

/-- The assignment is refused with a fault. The target stays as it is, unless it is the error variable
itself or goes with the former exception, and the counts outside are given. -/
structure Refused (a : Assignment) (h : Handle) (f : Fault) (held : List Handle) (m m' : Machine) :
    Prop where
  raised : ∃ m₂, a.run h m = raise f m₂ ∧ m₂.setErrorText f.message = m'
  settles : m.Settles m' held
  target : m'.isFreed h = false → m'.interp.error ≠ some h → m'.body h = m.body h

/-- From the state where the exception is raised on it only writes its message. -/
theorem Refused.of_run {m₂ : Machine} (hrun : a.run h m = raise f m₂) (hm₂ : m.Settles m₂ held)
    (hs : h.index < m.heap.size) (hb : m₂.isFreed h = false → m₂.body h = m.body h) :
    a.Refused h f held m (m₂.setErrorText f.message) := by
  have hraise := hm₂.orderly.setErrorText f.message
  refine ⟨⟨m₂, hrun, rfl⟩, hm₂.trans hraise, fun hf hslot => ?_⟩
  obtain ⟨slot, hslot', hspares⟩ := hm₂.orderly.spares_setErrorText f.message
  have hs₂ := hs.trans_le hm₂.ages.size_le
  have hf₂ : m₂.isFreed h = false := by
    by_contra hf₂
    rw [hraise.ages.isFreed h hs₂ (Bool.not_eq_false _ ▸ hf₂)] at hf
    cases hf
  have hne : h ≠ slot := fun hsame => hslot (hsame ▸ hslot')
  exact (hspares.body_eq hne hs₂ hf).trans (hb hf₂)

/-- An assignment is refused by every value that is shared or no scalar, and the value stays as it is.
A shared one leaves no count behind that nobody owns; what is no scalar leaves the counts that the
slots own, and so nothing is lost just if these are references to shared values at most. -/
theorem run_refused (a : Assignment) (hm : m.Orderly (a.adopted ++ held))
    (hlent : ∀ k ∈ a.lent, m.isFreed k = false) (hh : m.isFreed h = false) (hne : a ≠ .copy h)
    (hr : a.prepare m = .ok s m₁) :
    ((m.cell h).immortal = true → ∃ m', a.Refused h .readOnly held m m') ∧
    ((m.cell h).immortal = false → m.scalar? h = none →
      ∃ m', a.Refused h .notScalar (s.owned ++ held) m m' ∧
        (m'.Orderly held ↔ ∀ k ∈ s.owned, (m'.cell k).immortal = true)) := by
  have hs := index_lt_of_not_isFreed hh
  have hprepare := settles_prepare hm hlent hr
  have hbody : m₁.isFreed h = false → m₁.body h = m.body h := body_prepare hm hh hne hr
  constructor
  · intro hi
    have hi₁ := (hprepare.ages.immortal h hs).trans hi
    have hrelease := Orderly.releaseAll s.owned hprepare.orderly
    refine ⟨_, .of_run (run_error hne hr (store_shared hi₁ s)) (hprepare.trans hrelease) hs fun hf => ?_⟩
    have hf₁ := hprepare.orderly.shared h hi₁
    have hfades := hprepare.orderly.harmless.fades_releaseAll s.owned
    rcases hfades.body h (index_lt_of_not_isFreed hf₁) with hb | hb
    · exact hb.trans (hbody hf₁)
    · rw [isFreed, hb] at hf
      cases hf
  · intro hi hnone
    have hi₁ := (hprepare.ages.immortal h hs).trans hi
    have hnone₁ : m₁.scalar? h = none := by
      cases hb : m₁.body h with
      | scalar former =>
        rw [scalar?, ← hbody (by rw [isFreed, hb]; rfl), hb] at hnone
        cases hnone
      | _ => rw [scalar?, hb]; rfl
    have hrefused : a.Refused h .notScalar (s.owned ++ held) m _ :=
      .of_run (run_error hne hr (store_notScalar hi₁ hnone₁ s)) hprepare hs hbody
    exact ⟨_, hrefused, hrefused.settles.orderly.drop_iff⟩

/-- Host code holds an empty array. -/
def holdingArray : Machine := (fresh.alloc (.array [])).2

/-- A reference to a new integer is refused by the shared undefined value, and nothing is left; it is
refused by an array, and the integer is left. -/
theorem integer_refused : holdingArray.Orderly [⟨4⟩] ∧
    (∃ m', (integer none 5).Refused ⟨0⟩ .readOnly [⟨4⟩] holdingArray m') ∧
    ∃ m', (integer none 5).Refused ⟨4⟩ .notScalar [⟨5⟩, ⟨4⟩] holdingArray m' ∧ ¬m'.Orderly [⟨4⟩] := by
  have hm : holdingArray.Orderly [⟨4⟩] := by decide +kernel
  have hlent : ∀ k ∈ (integer none 5).lent, holdingArray.isFreed k = false := nofun
  have hr : (integer none 5).prepare holdingArray
      = .ok (.ofTarget ⟨5⟩) (holdingArray.alloc (.scalar (.ofInt64 5))).2 := rfl
  have hshared := run_refused (h := ⟨0⟩) _ hm hlent (by decide +kernel) nofun hr
  have harray := run_refused (h := ⟨4⟩) _ hm hlent (by decide +kernel) nofun hr
  obtain ⟨m', hrefused, hnone⟩ := harray.2 (by decide +kernel) (by decide +kernel)
  refine ⟨hm, hshared.1 (by decide +kernel), m', hrefused, fun hm' => ?_⟩
  have hcounted : ((integer none 5).run ⟨4⟩).Raises holdingArray fun m' =>
      (m'.cell ⟨5⟩).immortal = false := by decide +kernel
  obtain ⟨m₁, hrun, hi⟩ := hcounted.exists_error
  obtain ⟨m₂, hraise, rfl⟩ := hrefused.raised
  cases hraise.symm.trans hrun
  rw [hnone.1 hm' ⟨5⟩ List.mem_cons_self] at hi
  cases hi

end Assignment

end ValueMachine

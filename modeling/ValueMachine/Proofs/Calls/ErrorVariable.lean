import ValueMachine.Proofs.Calls.Drift
import ValueMachine.Proofs.Calls.Stacks
import ValueMachine.Proofs.Ownership.Holders

/-! The error variable. An exception leaves its value in `$@`, and whoever traps it reads the value
off there again; only its truth tells an exception from success. So the truth of `$@` is followed
through every operation: what returns leaves a false one false, and what raises leaves a true one
true, as far as either has been promised. -/

namespace ValueMachine

open Machine

/-- What the bodies of subs and the initialisers of modules promise of `$@`. -/
structure Promise where
  /-- What returns leaves a false `$@` false. -/
  quiet : Prop
  /-- What raises leaves a true `$@`. -/
  loud : Prop

/-- A step of an initialiser that keeps a promise. The outcome of evaluated source is ignored, which
leaves what it has raised in `$@`. -/
def BootStep.Minds (P : Promise) : BootStep → Prop
  | .define _ _ | .require _ => True
  | .fail message => P.loud → (Fault.said message).Telling
  | .evaluate _ => ¬P.quiet

namespace Machine

variable {m m' : Machine} {P : Promise} {h : Handle} {s : Scalar}

/-- Whether `$@` is true as it stands. -/
def errorTrue (m : Machine) : Bool := m.errorHandle?.any m.truthAt

/-- The value of `$@` has been freed. -/
def ErrorGone (m : Machine) : Prop := ∃ h, m.errorHandle? = some h ∧ m.body h = .freed

/-- An exception is there to be read in `$@`. -/
def Loud (m : Machine) : Prop := m.errorTrue = true ∨ m.ErrorGone

/-- The error variable holds a scalar, unless it has been freed. -/
def ErrorIs (m : Machine) (s : Scalar) : Prop :=
  ∃ h, m.errorHandle? = some h ∧ (m.body h = .freed ∨ m.body h = .scalar s)

/-- A value that is true if it is a scalar. -/
def Tells (m : Machine) (h : Handle) : Prop :=
  h.index < m.heap.size ∧ ∀ s, m.body h = .scalar s → s.truth = true

/-- A machine whose error variable is a scalar of its own, and whose modules keep a promise. -/
structure Sound (m : Machine) (P : Promise) : Prop where
  tame : m.heap.Tame
  bounded : m.Bounded
  error : ∀ {h}, m.interp.error = some h → m.errorHandle? = some h
  apart : ∀ {name h}, m.global? .scalar name = some h → m.errorHandle? = some h →
    Qualified.qualify name = Qualified.qualify "@"
  slot : ∀ {h}, m.errorHandle? = some h → m.body h = .freed ∨ ∃ s, m.body h = .scalar s
  modules : ∀ p ∈ m.interp.modules, ∀ step ∈ p.2.steps, step.Minds P

/-! ### Steps that write no scalar -/

theorem truthAt_of_freed (hb : m.body h = .freed) : m.truthAt h = false := by
  rw [truthAt, hb]

theorem truthAt_of_scalar (hb : m.body h = .scalar s) : m.truthAt h = s.truth := by
  rw [truthAt, hb]

theorem errorTrue_of_handle (hh : m.errorHandle? = some h) : m.errorTrue = m.truthAt h := by
  rw [errorTrue, hh, Option.any_some]

theorem Sound.drifts (hm : m.Sound P) (hd : m.Drifts m') : m'.Sound P where
  tame := hd.tame
  bounded := hm.bounded.drifts hd
  error hh := by
    rcases hd.error hh with hh | hh
    · exact hd.keeps (hm.error hh)
    · exact hh
  apart hk hh := by
    rcases hd.single hh hk with hname | ⟨hh, hk⟩
    · exact hname
    · exact hm.apart hk hh
  slot {h} hh := by
    rcases hd.makes hh with hh | ⟨-, hb⟩
    · have hdrift := body_drifts hd.heap (hm.bounded _ _ hh)
      rcases hm.slot hh with hb | ⟨s, hb⟩
      · exact .inl (Body.Drifts.of_freed (hb ▸ hdrift))
      · exact (Body.Drifts.of_scalar (hb ▸ hdrift)).symm.imp id fun hb => ⟨s, hb⟩
    · exact hb.imp id fun hb => ⟨_, hb⟩
  modules := hd.modules ▸ hm.modules

/-- What was false is false or freed, and what is new is undefined. -/
theorem Sound.quiet (hm : m.Sound P) (hd : m.Drifts m') (hq : m.errorTrue = false) :
    m'.errorTrue = false := by
  cases hh' : m'.errorHandle? with
  | none => rw [errorTrue, hh', Option.any_none]
  | some h =>
    rw [errorTrue_of_handle hh']
    rcases hd.makes hh' with hh | ⟨-, hb | hb⟩
    · rw [errorTrue_of_handle hh] at hq
      have hdrift := body_drifts hd.heap (hm.bounded _ _ hh)
      rcases hm.slot hh with hb | ⟨s, hb⟩
      · exact truthAt_of_freed (Body.Drifts.of_freed (hb ▸ hdrift))
      · rcases Body.Drifts.of_scalar (hb ▸ hdrift) with hb' | hb'
        · rw [truthAt_of_scalar hb', ← truthAt_of_scalar hb, hq]
        · exact truthAt_of_freed hb'
    · exact truthAt_of_freed hb
    · exact truthAt_of_scalar hb

theorem Sound.loud (hm : m.Sound P) (hd : m.Drifts m') (hl : m.Loud) : m'.Loud := by
  obtain ⟨h, hh⟩ : ∃ h, m.errorHandle? = some h := by
    rcases hl with ht | ⟨h, hh, -⟩
    · cases hh : m.errorHandle? with
      | some h => exact ⟨h, rfl⟩
      | none => rw [errorTrue, hh] at ht; cases ht
    · exact ⟨h, hh⟩
  have hh' : m'.errorHandle? = some h := hd.keeps hh
  have hdrift := body_drifts hd.heap (hm.bounded _ _ hh)
  rcases hm.slot hh with hb | ⟨s, hb⟩
  · exact .inr ⟨h, hh', Body.Drifts.of_freed (hb ▸ hdrift)⟩
  · rcases Body.Drifts.of_scalar (hb ▸ hdrift) with hb' | hb'
    · refine .inl ?_
      rw [errorTrue_of_handle hh', truthAt_of_scalar hb', ← truthAt_of_scalar hb,
        ← errorTrue_of_handle hh]
      refine hl.resolve_right fun ⟨k, hk, hgone⟩ => ?_
      cases hh.symm.trans hk
      rw [hb] at hgone
      cases hgone
    · exact .inr ⟨h, hh', hb'⟩

theorem Tells.drifts (ht : m.Tells h) (hd : m.heap.Drifts m'.heap) : m'.Tells h :=
  ⟨ht.1.trans_le hd.size_le, fun s hs => ht.2 s (Body.Drifts.eq_scalar (hs ▸ body_drifts hd ht.1))⟩

/-! ### What is put into the error variable -/

theorem ErrorIs.drifts (hm : m.Bounded) (he : m.ErrorIs s) (hd : m.Drifts m') : m'.ErrorIs s := by
  obtain ⟨h, hh, hb⟩ := he
  have hdrift := body_drifts hd.heap (hm _ _ hh)
  refine ⟨h, hd.keeps hh, ?_⟩
  rcases hb with hb | hb
  · exact .inl (Body.Drifts.of_freed (hb ▸ hdrift))
  · exact (Body.Drifts.of_scalar (hb ▸ hdrift)).symm

theorem ErrorIs.quiet (he : m.ErrorIs s) (hs : s.truth = false) : m.errorTrue = false := by
  obtain ⟨h, hh, hb⟩ := he
  rw [errorTrue_of_handle hh]
  rcases hb with hb | hb
  · exact truthAt_of_freed hb
  · rw [truthAt_of_scalar hb, hs]

theorem ErrorIs.loud (he : m.ErrorIs s) (hs : s.truth = true) : m.Loud := by
  obtain ⟨h, hh, hb⟩ := he
  rcases hb with hb | hb
  · exact .inr ⟨h, hh, hb⟩
  · refine .inl ?_
    rw [errorTrue_of_handle hh, truthAt_of_scalar hb, hs]

theorem scalar?_eq_some : m.scalar? h = some s ↔ m.body h = .scalar s := by
  rw [scalar?]
  cases m.body h <;> simp [Body.scalar?]

theorem index_lt_of_scalar (hb : m.body h = .scalar s) : h.index < m.heap.size := by
  refine index_lt_of_not_isFreed (h := h) ?_
  rw [isFreed, hb]
  rfl

theorem body_setBody (b : Body) (hh : h.index < m.heap.size) : (m.setBody h b).body h = b := by
  simp [setBody, body, cell, Heap.update, Heap.get_set, hh]

theorem body_setBody_ne (b : Body) {k : Handle} (hk : k ≠ h) :
    (m.setBody h b).body k = m.body k := by
  simp [setBody, body, cell, Heap.update, Heap.get_set, hk]

/-- A scalar is overwritten. -/
theorem Sound.setBody (hm : m.Sound P) (hs : s.Formed) {former : Scalar}
    (hb : m.body h = .scalar former) : (m.setBody h (.scalar s)).Sound P where
  tame := hm.tame.set h (hm.tame.reads h) (Body.formed_scalar.2 hs)
  bounded name k hk := by simpa [Machine.setBody, Heap.update] using hm.bounded name k hk
  error := hm.error
  apart := hm.apart
  slot {k} hk := by
    by_cases hkh : k = h
    · subst hkh
      exact .inr ⟨s, body_setBody _ (index_lt_of_scalar hb)⟩
    · rw [body_setBody_ne _ hkh]
      exact hm.slot hk
  modules := hm.modules

theorem Sound.replaceScalar_drifts (hm : m.Sound P) (hs : s.Formed) {former : Scalar}
    (hb : m.body h = .scalar former) :
    (m.setBody h (.scalar s)).Drifts (m.replaceScalar h former s) :=
  .replaceScalar hm.bounded (hm.setBody hs hb).tame

theorem Sound.replaceScalar (hm : m.Sound P) (hs : s.Formed) {former : Scalar}
    (hb : m.body h = .scalar former) : (m.replaceScalar h former s).Sound P :=
  (hm.setBody hs hb).drifts (hm.replaceScalar_drifts hs hb)

theorem Sound.errorSlot (hm : m.Sound P) : m.Drifts m.errorSlot.2 :=
  Drifts.errorSlot hm.tame hm.bounded

theorem Sound.errorHandle?_errorSlot (hm : m.Sound P) :
    m.errorSlot.2.errorHandle? = some m.errorSlot.1 := by
  unfold Machine.errorSlot
  cases he : m.interp.error with
  | some h => exact hm.error he
  | none => exact global_global? m .scalar "@"

/-- The slot of the error variable is written in place. -/
theorem Sound.replaceError (hm : m.Sound P) (hs : s.Formed) (hh : m.errorHandle? = some h)
    {former : Scalar} (hb : m.body h = .scalar former) : (m.replaceScalar h former s).ErrorIs s := by
  refine ErrorIs.drifts (hm.setBody hs hb).bounded ?_ (hm.replaceScalar_drifts hs hb)
  exact ⟨h, hh, .inr (body_setBody _ (index_lt_of_scalar hb))⟩

theorem Sound.setError (hm : m.Sound P) (hs : s.Formed) :
    (m.setError s).Sound P ∧ (m.setError s).ErrorIs s := by
  have hslot := hm.drifts hm.errorSlot
  have hh := hm.errorHandle?_errorSlot
  unfold Machine.setError
  rcases hslot.slot hh with hb | ⟨former, hb⟩
  · simp only [hb]
    exact ⟨hslot, _, hh, .inl hb⟩
  · simp only [hb]
    exact ⟨hslot.replaceScalar hs hb, hslot.replaceError hs hh hb⟩

theorem Sound.setErrorText (hm : m.Sound P) (message : String) :
    (m.setErrorText message).Sound P ∧ (m.setErrorText message).ErrorIs (.ofText message) := by
  have halloc : m.Drifts (m.alloc (.scalar (.ofText message))).2 := .alloc hm.tame (by simp)
  have hmortal : m.Drifts (m.allocMortal (.scalar (.ofText message))).2 :=
    halloc.trans (.of_heap (.refl _) halloc.tame)
  exact (hm.drifts hmortal).setError (by simp)

/-! ### A machine that has just been constructed -/

theorem mem_of_global? {sigil : Sigil} {name : String} {h : Handle}
    (hg : m.global? sigil name = some h) :
    ∃ p ∈ m.interp.symbols, p.1 = Qualified.qualify name ∧ p.2.get sigil = some h := by
  obtain ⟨g, hg, hs⟩ := Option.bind_eq_some_iff.1 hg
  obtain ⟨p, hp, rfl⟩ := Option.map_eq_some_iff.1 hg
  exact ⟨p, List.mem_of_find?_eq_some hp, by simpa using List.find?_some hp, hs⟩

theorem sound_fresh (P : Promise) : fresh.Sound P := by
  have hsymbols : fresh.interp.symbols = [("main::@", ⟨some ⟨3⟩, none, none, none⟩)] := rfl
  have hglobal {name : String} {h : Handle} (hg : fresh.global? .scalar name = some h) :
      Qualified.qualify name = "main::@" ∧ h = ⟨3⟩ := by
    obtain ⟨p, hp, hq, hs⟩ := mem_of_global? hg
    rw [hsymbols, List.mem_singleton] at hp
    subst hp
    exact ⟨hq.symm, (Option.some_inj.1 hs).symm⟩
  exact {
    tame := Heap.tame_of_all rfl
    bounded := fun _ _ hg => (hglobal hg).2 ▸ show 3 < fresh.heap.size by decide
    error := fun hh => hh
    apart := fun hg _ => (hglobal hg).1
    slot := fun hh => .inr ⟨.ofByteText ⟨[], false⟩, (hglobal hh).2 ▸ rfl⟩
    modules := fun _ hp => by cases hp }

end Machine

end ValueMachine

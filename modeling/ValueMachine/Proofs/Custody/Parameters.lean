import ValueMachine.Proofs.Calls.Kinds
import ValueMachine.Proofs.Custody.Copies
import ValueMachine.Proofs.Custody.Readings

/-! The parameters of host closures. A scalar parameter is a copy of an argument that only the closure
knows. Of the values that a closure of any number of arguments is given, those that are scalars are
such copies, and the others stay what they are. -/

namespace ValueMachine

open Machine

variable {m m' m₁ m₂ m₃ : Machine} {floor : Nat} {aside : List (Handle × Cell)}
  {held hs : List Handle} {h k : Handle} {v : Held} {vs : List Held} {args : Arguments}

/-! ### Typed parameters -/

/-- The scalar that a value of a type is, or that an option has. -/
def HostType.scalars : (t : HostType) → t.Value → List Held
  | scalar, v => [v]
  | option t, v => (Option.toList v).flatMap t.scalars
  | _, _ => []

/-- The scalars among some parameters. -/
def Parameters.scalars : (ts : List HostType) → Parameters ts → List Held
  | [], _ => []
  | t :: ts, (v, vs) => t.scalars v ++ Parameters.scalars ts vs

theorem Bridge.atArgument_ok {α : Type} {x : Bridge α} {i : Nat} {a : α}
    (h : (Bridge.atArgument i x).run m = .ok (.ok a) m') : x.run m = .ok (.ok a) m' := by
  obtain ⟨ended, m₁, hx, h⟩ := Run.bind_ok h
  rcases ended with f | a
  · cases h
  · cases h
    exact hx

namespace Machine.Apart

theorem after_read (hm : m.Apart floor aside held) (hh : h ∈ held) {mode : Mode} {t : HostType}
    {v : t.Value} (hr : (t.read mode h).run m = .ok (.ok v) m') : m'.Apart floor aside held := by
  have hL := Custody.apart_liberal floor aside
  have hread := hL.read hh mode t m hm
  rw [hr] at hread
  exact hL.mono (List.subset_append_right _ _) hread

/-- A scalar that an argument is read as is set aside. -/
theorem read (hm : m.Apart floor aside held) (hh : h ∈ held) {t : HostType} {v : t.Value}
    (hr : (t.read .copy h).run m = .ok (.ok v) m') : m'.Collected floor aside held (t.scalars v) := by
  induction t generalizing m with
  | scalar => exact .scalar hm hh hr
  | option t ih =>
    obtain ⟨defined, m₁, hlift, hr⟩ := Bridge.bind_ok hr
    have hdefined : isDefined h m = .ok defined m₁ := Bridge.ofRun_ok hlift
    have hm₁ := (Custody.apart_lawful floor aside).isDefined hh m hm
    rw [hdefined] at hm₁
    split at hr
    next =>
      obtain ⟨w, m₂, hw, hr⟩ := Bridge.bind_ok hr
      cases hr
      simpa [HostType.scalars] using ih hm₁ hw
    next =>
      cases hr
      exact .nil hm₁
  | _ => exact .nil (hm.after_read hh hr)

theorem readAll {ts : List HostType} {position : Nat} {vs : Parameters ts}
    (hm : m.Apart floor aside held) (hargs : args.handles ⊆ held)
    (hr : (args.readAll ts position).run m = .ok (.ok vs) m') :
    m'.Collected floor aside held (Parameters.scalars ts vs) := by
  induction ts generalizing m aside position with
  | nil =>
    cases hr
    exact .nil hm
  | cons t ts ih =>
    obtain ⟨v, m₁, hfirst, hr⟩ := Bridge.bind_ok hr
    obtain ⟨ws, m₂, hrest, hr⟩ := Bridge.bind_ok hr
    cases hr
    have hv : m₁.Collected floor aside held (t.scalars v) := by
      have hfirst := Bridge.atArgument_ok hfirst
      split at hfirst
      next h hat => exact hm.read (hargs (List.mem_of_getElem? hat)) hfirst
      next =>
        cases t
        case option t =>
          cases hfirst
          exact .nil hm
        all_goals cases hfirst
    exact hv.append fun hm₁ => ih hm₁ (Bridge.guarding_ok hrest)

end Machine.Apart

/-! ### Parameters of any number -/

/-- One argument is copied after the other. -/
theorem Arguments.copiesOf_cons_ok (hr : copiesOf (h :: hs) m = .ok vs m') :
    ∃ v ws m₁, holdCopy h m = .ok v m₁ ∧ copiesOf hs m₁ = .ok ws m' ∧ vs = v :: ws := by
  obtain ⟨v, m₁, hfirst, hr⟩ := Run.bind_ok hr
  obtain ⟨ws, m₂, hrest, hr⟩ := Run.bind_ok hr
  cases hr
  rw [Run.otherwise_apply] at hrest
  split at hrest
  next hws => exact ⟨v, ws, m₁, hfirst, hws.trans hrest, rfl⟩
  next => cases hrest

theorem Arguments.copiesOf_unconverted (hr : copiesOf hs m = .ok vs m') : m.Unconverted m' := by
  induction hs generalizing m vs with
  | nil =>
    cases hr
    exact .refl _
  | cons h rest ih =>
    obtain ⟨v, ws, m₁, hfirst, hrest, -⟩ := copiesOf_cons_ok hr
    obtain ⟨k, m₂, hdup, hadopt⟩ := Run.bind_ok hfirst
    cases hadopt
    exact ((Manner.unconverting_stepwise.plain.duplicate h).ok hdup).trans (ih hrest)

/-- The copies that are scalars are set aside. -/
theorem Machine.Apart.copiesOf (hm : m.Apart floor aside held) (hsub : hs ⊆ held)
    (hr : Arguments.copiesOf hs m = .ok vs m') :
    m'.Collected floor aside held (vs.filter fun v => (m'.scalar? v.handle).isSome) := by
  induction hs generalizing m aside vs with
  | nil =>
    cases hr
    exact .nil hm
  | cons h rest ih =>
    obtain ⟨v, ws, m₁, hfirst, hrest, rfl⟩ := Arguments.copiesOf_cons_ok hr
    obtain ⟨hh, hsub⟩ := List.cons_subset.1 hsub
    obtain ⟨k, m₂, hdup, hadopt⟩ := Run.bind_ok hfirst
    cases hadopt
    rcases duplicate_cases hdup with hcopy | hnone
    · have hall := (Collected.newCopy hm hh hcopy m₁.here).append fun hm₁ => ih hm₁ hsub hrest
      obtain ⟨s, hs⟩ := hall.private.cell _ List.mem_cons_self
      rwa [List.filter_cons_of_pos (by rw [scalar?, body, hs]; rfl)]
    · have hheld := (Custody.apart_liberal floor aside).duplicate hh m hm
      rw [hdup] at hheld
      have hk := (hheld.held (List.mem_append_left _ (List.mem_singleton_self k))).1
      have hk' := (Arguments.copiesOf_unconverted hrest).scalar? k hk hnone
      rw [List.filter_cons_of_neg (by simp [hk'])]
      exact ih ((Custody.apart_lawful floor aside).mono (List.subset_append_right _ _) hheld)
        hsub hrest

end ValueMachine

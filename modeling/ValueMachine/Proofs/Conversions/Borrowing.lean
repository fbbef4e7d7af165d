import ValueMachine.Proofs.Conversions.Loans
import ValueMachine.Proofs.Custody.Readings

/-! Conversions that borrow. A value without hooks that leads to none with hooks is read as any type but
one of a class by its name, and the reading returns. What its result or its failure holds is all that it
has borrowed: what it holds in between it has given back, at whatever element it fails. -/

namespace ValueMachine

open Machine

variable {α β : Type} {m m₁ m₂ : Machine} {h k : Handle} {vs : List Held} {v : Held}

/-! ### Values without hooks -/

namespace Machine

/-- A value that is there, that someone owns and that has no hooks. -/
structure Still (m : Machine) (h : Handle) : Prop where
  kept : m.Kept h
  magic : (m.cell h).magic = []

/-- All that a value leads to is without hooks, and the interpreter in focus is alive. -/
structure Plain (m : Machine) (h : Handle) : Prop where
  alive : m.isAlive m.here
  still : ∀ k, m.LeadsTo h k → m.Still k

namespace Still

variable (hs : m.Still h)

include hs

theorem reading (g : Machine → α) :
    (do runReadHooks h; Run.look g : Run α) m = .ok (g m) m := by
  have hhooks : runReadHooks h m = .ok () m := by
    rw [runReadHooks, Run.look_bind, hs.magic]
    rfl
  rw [Run.bind_of_ok hhooks]
  rfl

theorem isDefined : isDefined h m = .ok (m.definedAt h) m := hs.reading _

theorem truth : truth h m = .ok (m.truthAt h) m := hs.reading _

theorem number : number h m = .ok (m.numberAt h) m := hs.reading _

theorem text : text h m = .ok (m.textAt h) m := hs.reading _

end Still

theorem Lends.still (hm : m.Lends vs m₁) (hs : m.Still k) : m₁.Still k where
  kept := hm.kept_of_kept hs.kept
  magic := by rw [hm.old k hs.kept.index_lt, Cell.lent_magic]; exact hs.magic

theorem Lends.plain (hm : m.Lends vs m₁) (hp : m.Plain h) : m₁.Plain h where
  alive := hm.alive hp.alive
  still k hk := by
    have hback : m.LeadsTo h k := by
      induction hk with
      | refl => exact .refl
      | @tail j c _ hlink ih =>
        have hbody : m₁.body j = m.body j := hm.body (hp.still j ih).kept.index_lt
        exact ih.tail (show c ∈ (m.body j).links from hbody ▸ hlink)
    exact hm.still (hp.still k hback)

end Machine

/-! ### Operations across the boundary -/

namespace Bridge

/-- The values that host code holds with an outcome. -/
def heldOf (heldBy : α → List Held) : Except Failure α → List Held
  | .ok a => heldBy a
  | .error e => e.held

/-- An operation returns, and what host code holds with its outcome is what has been lent since a
machine before. -/
def Borrows (m : Machine) (heldBy : α → List Held) (x : Bridge α) (m₁ : Machine) : Prop :=
  ∃ r m₂, x.run m₁ = .ok r m₂ ∧ m.Lends (heldOf heldBy r) m₂

/-- Nothing is held. -/
def nothing (_ : α) : List Held := []

namespace Borrows

variable {heldBy : α → List Held} {heldBy' : β → List Held} {x y : Bridge α} {f : α → Bridge β} {a : α}

theorem pure (hm : m.Lends (heldBy a) m₁) : Borrows m heldBy (Pure.pure a) m₁ :=
  ⟨.ok a, m₁, rfl, hm⟩

theorem fail {e : Failure} (hm : m.Lends e.held m₁) : Borrows m heldBy (Bridge.fail e) m₁ :=
  ⟨.error e, m₁, rfl, hm⟩

theorem bind (hx : Borrows m heldBy x m₁)
    (hf : ∀ a m₂, m.Lends (heldBy a) m₂ → Borrows m heldBy' (f a) m₂) :
    Borrows m heldBy' (x >>= f) m₁ := by
  obtain ⟨r, m₂, hx, hm⟩ := hx
  cases r with
  | ok a =>
    obtain ⟨r, m₃, hf, hm'⟩ := hf a m₂ hm
    exact ⟨r, m₃, (run_bind hx).trans hf, hm'⟩
  | error e => exact ⟨.error e, m₂, by rw [bind_apply, hx], hm⟩

/-- What follows begins anew if nothing is held. -/
theorem andThen (hx : Borrows m nothing x m)
    (hf : ∀ a m₁, m.Lends [] m₁ → Borrows m₁ heldBy' (f a) m₁) :
    Borrows m heldBy' (x >>= f) m :=
  hx.bind fun a m₁ hm => by
    obtain ⟨r, m₂, hf, hm'⟩ := hf a m₁ hm
    exact ⟨r, m₂, hf, hm.trans hm'⟩

theorem ofRun_bind {y : Run α} (hy : y m₁ = .ok a m₂) (hf : Borrows m heldBy' (f a) m₂) :
    Borrows m heldBy' (Bridge.ofRun y >>= f) m₁ := by
  obtain ⟨r, m₃, hf, hm⟩ := hf
  exact ⟨r, m₃, (run_bind (run_ofRun hy)).trans hf, hm⟩

theorem ofRun {y : Run α} (hy : y m₁ = .ok a m₂) (hm : m.Lends (heldBy a) m₂) :
    Borrows m heldBy (Bridge.ofRun y) m₁ :=
  ⟨.ok a, m₂, run_ofRun hy, hm⟩

theorem get_bind {f : Machine → Bridge α} (hf : Borrows m heldBy (f m₁) m₁) :
    Borrows m heldBy (MonadState.get >>= f) m₁ := hf

theorem look_bind {g : Machine → β} {f : β → Bridge α} (hf : Borrows m heldBy (f (g m₁)) m₁) :
    Borrows m heldBy (Bridge.look g >>= f) m₁ := hf

theorem ite {c : Prop} [Decidable c] (hx : Borrows m heldBy x m₁) (hy : Borrows m heldBy y m₁) :
    Borrows m heldBy (if c then x else y) m₁ := by
  split
  · exact hx
  · exact hy

/-- A failure about a value holds it. -/
theorem about {e : Held → Failure} (hk : m.Kept h) (he : ∀ v, (e v).held = [v] := by intro; rfl) :
    Borrows m heldBy (Failure.about h e) m :=
  ofRun_bind (m.hold_apply h) (fail (by rw [he]; exact .retain hk))

theorem hold (hk : m.Kept h) : Borrows m (fun v => [v]) (Bridge.ofRun (hold h)) m :=
  .ofRun (m.hold_apply h) (.retain hk)

/-- What was lent before is given back whatever the outcome. -/
theorem releasing (hm : m.Lends vs m₁) (hlive : m.isAlive m.here) (hx : Borrows m₁ heldBy x m₁) :
    Borrows m heldBy (Bridge.releasing vs x) m₁ := by
  obtain ⟨r, m₂, hx, hm'⟩ := hx
  refine ⟨r, m₂.dropAll vs, ?_, (hm.trans hm').dropAll hlive⟩
  rw [Bridge.releasing, ExceptT.run_mk, Run.always_apply, hx]

/-- What was lent before is given back with a failure. -/
theorem guarding (hm : m.Lends vs m₁) (hlive : m.isAlive m.here) (hx : Borrows m₁ heldBy x m₁) :
    Borrows m (fun a => vs ++ heldBy a) (Bridge.guarding vs x) m₁ := by
  obtain ⟨r, m₂, hx, hm'⟩ := hx
  have hall := hm.trans hm'
  have hrun : (Bridge.guarding vs x).run m₁ = .ok r (if r.isOk then m₂ else m₂.dropAll vs) := by
    rw [Bridge.guarding, ExceptT.run_mk, Run.bind_apply, Run.otherwise_apply, hx]
    cases r <;> rfl
  cases r with
  | ok a => exact ⟨.ok a, m₂, hrun, hall⟩
  | error e => exact ⟨.error e, m₂.dropAll vs, hrun, hall.dropAll hlive⟩

theorem atArgument (i : Nat) (hx : Borrows m heldBy x m₁) :
    Borrows m heldBy (Bridge.atArgument i x) m₁ := by
  obtain ⟨r, m₂, hx, hm⟩ := hx
  have hrun : (Bridge.atArgument i x).run m₁ = .ok (r.mapError (·.atArgument i)) m₂ := by
    rw [Bridge.atArgument, ExceptT.run_mk, Run.bind_apply, hx]
    cases r <;> rfl
  refine ⟨_, m₂, hrun, ?_⟩
  cases r with
  | ok a => exact hm
  | error e =>
    show m.Lends (e.atArgument i).held m₂
    rw [e.held_atArgument]
    exact hm

end Borrows

end Bridge

open Bridge

/-! ### Strict readings -/

namespace Strict

end Strict

/-! ### Parts of readings -/

namespace Machine

theorem leadsTo_target (hr : m.target? h = some k) : m.LeadsTo h k := by
  obtain ⟨s, hs, ht⟩ := Option.bind_eq_some_iff.1 hr
  have hlinks : (m.body h).links = [k] := by
    rw [scalar?_eq_some.1 hs, Body.links, Scalar.owned, ht]
    rfl
  exact .single (show k ∈ (m.body h).links from hlinks ▸ List.mem_singleton_self k)

/-- Without hooks a value stands for no host instance. -/
theorem Plain.bridgedInstance? (hp : m.Plain h) : m.bridgedInstance? h = none := by
  unfold Machine.bridgedInstance?
  cases hr : m.target? h with
  | none => rfl
  | some r =>
    have hmagic := (hp.still r (leadsTo_target hr)).magic
    simp [findMagic, hmagic]

end Machine

namespace Reading

section Containers

variable {read : Handle → Bridge α} {heldBy : α → List Held} {xs : Slots}
  {es : List (Bytes × Handle)} {t : Table}

variable (hread : ∀ {m h}, m.Plain h → Borrows m heldBy (read h) m)

include hread

end Containers

end Reading

/-! ### Types -/

namespace HostType

end HostType

end ValueMachine

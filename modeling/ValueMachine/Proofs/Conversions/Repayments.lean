import ValueMachine.Host.Hash
import ValueMachine.Proofs.Containers.Sequences
import ValueMachine.Proofs.Conversions.Borrowing
import ValueMachine.Proofs.Hosting.Ranks

/-! Repayments. A conversion of a value that leads to no hooks returns, and once host code has given up
what it holds with the result or the failure, in whatever order, each value has the body and the count
that it had, and each interpreter counts as many live values as before. -/

namespace ValueMachine

open Machine Bridge

variable {α : Type} {m m' m₁ m₂ : Machine} {i : InterpId} {held : List Handle} {h : Handle} {v : Held}
  {vs : List Held}

namespace Machine

/-! ### Interpreters in another order -/

/-- The interpreters are there once each. -/
def Distinct (m : Machine) : Prop := (m.here :: m.others.map (·.1)).Nodup

theorem find?_perm {β : Type} {xs ys : List (InterpId × β)} (hn : (xs.map (·.1)).Nodup)
    (hp : ys.Perm xs) (i : InterpId) : ys.find? (·.1 = i) = xs.find? (·.1 = i) := by
  cases hx : xs.find? (·.1 = i) with
  | none =>
    rw [List.find?_eq_none] at hx ⊢
    exact fun p hmem => hx p (hp.mem_iff.1 hmem)
  | some p =>
    have hp₁ := List.mem_of_find?_eq_some hx
    have hkey : p.1 = i := by simpa using List.find?_some hx
    cases hy : ys.find? (·.1 = i) with
    | none => exact absurd (List.find?_eq_none.1 hy p (hp.mem_iff.2 hp₁)) (by simpa using hkey)
    | some q =>
      have hkey' : q.1 = i := by simpa using List.find?_some hy
      have hq := hp.mem_iff.1 (List.mem_of_find?_eq_some hy)
      rw [List.inj_on_of_nodup_map hn hq hp₁ (hkey'.trans hkey.symm)]

namespace Resumes

theorem trans (h₁ : m.Resumes m₁) (h₂ : m₁.Resumes m₂) : m.Resumes m₂ where
  eq := h₂.eq.trans (congrArg (fun x : Machine => { x with others := m₂.others }) h₁.eq)
  others := h₂.others.trans h₁.others

/-- The same interpreter comes into focus. -/
theorem focus (hr : m.Resumes m') (hd : m.Distinct) (i : InterpId) :
    (m.focus i).Resumes (m'.focus i) := by
  have hfind := find?_perm (List.nodup_cons.1 hd).2 hr.others i
  have hfilter := hr.others.filter (·.1 ≠ i)
  have heq := hr.eq
  generalize m'.others = os at hfind hfilter heq
  subst heq
  unfold Machine.focus
  by_cases hi : i = m.here
  · rw [if_pos hi, if_pos hi]
    exact hr
  · rw [if_neg hi, if_neg hi, hfind]
    cases m.others.find? (·.1 = i) with
    | none => exact hr
    | some found => exact ⟨rfl, hfilter.cons _⟩

theorem onHeap (hr : m.Resumes m') (H : Heap) :
    ({ m with heap := H } : Machine).Resumes { m' with heap := H } where
  eq := congrArg (fun x : Machine => { x with heap := H }) hr.eq
  others := hr.others

end Resumes

namespace Lends

theorem distinct (hm : m.Lends vs m₁) (hd : m.Distinct) : m₁.Distinct := by
  unfold Distinct
  rw [hm.here]
  exact ((hm.others.map _).cons _).nodup_iff.2 hd

theorem knows (hm : m.Lends vs m₁) (hi : m.Knows i) : m₁.Knows i := by
  unfold Knows
  rw [hm.here]
  exact ((hm.others.map _).cons _).mem_iff.2 hi

end Lends

end Machine

namespace Bridge

end Bridge

/-! ### Conversions -/

/-- A held value that leads to no hooks. -/
theorem Machine.Orderly.plain (hm : m.Orderly held) (hlive : m.isAlive m.here) (hh : h ∈ held)
    (hmagic : ∀ k, m.LeadsTo h k → (m.cell k).magic = []) : m.Plain h where
  alive := hlive
  still k hk := ⟨(hm.charted hlive hh).kept k hk, hmagic k hk⟩

namespace HostType

variable {t : HostType}

end HostType

namespace Machine

end Machine

end ValueMachine

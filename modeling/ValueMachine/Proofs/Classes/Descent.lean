import Mathlib.Data.List.Basic
import Mathlib.Logic.Relation

/-! The descent of classes. A class graph lists the parents of each class. A search through it goes
depth first and no deeper than a number of links; it visits every class to which a chain of links
leads, once for each chain, and ends at the first visit that ends it. -/

namespace ValueMachine

/-- The parents of each class, in order. -/
abbrev ClassGraph := String → List String

/-- The visit of a class, with the number of links that may follow from there. -/
structure Visit where
  className : String
  left : Nat
  deriving DecidableEq

namespace ClassGraph

variable {G : ClassGraph} {c d e p : String} {n k : Nat} {v : Visit} {stop : String → Bool}

/-! ### Chains of links -/

/-- A chain of `n` links leads from a class to another. -/
inductive Links (G : ClassGraph) : Nat → String → String → Prop
  | none (c : String) : Links G 0 c c
  | more {n : Nat} {c d e : String} : d ∈ G c → Links G n d e → Links G (n + 1) c e

/-- A class is another or is reached from it through its parents. -/
def Inherits (G : ClassGraph) : String → String → Prop := Relation.ReflTransGen fun c d => d ∈ G c

theorem inherits_iff : G.Inherits c p ↔ ∃ n, G.Links n c p := by
  constructor
  · intro h
    induction h using Relation.ReflTransGen.head_induction_on with
    | refl => exact ⟨0, .none p⟩
    | head hd _ ih =>
      obtain ⟨n, hn⟩ := ih
      exact ⟨n + 1, .more hd hn⟩
  · rintro ⟨n, h⟩
    induction h with
    | none c => exact .refl
    | more hd _ ih => exact .head hd ih

/-- A chain is passed through link by link. -/
theorem Links.split (h : G.Links (n + k) c e) : ∃ d, G.Links n c d ∧ G.Links k d e := by
  induction n generalizing c with
  | zero => exact ⟨c, .none c, by rwa [Nat.zero_add] at h⟩
  | succ n ih =>
    rw [Nat.add_right_comm] at h
    cases h with
    | more hd hrest =>
      obtain ⟨b, hb, hk⟩ := ih hrest
      exact ⟨b, .more hd hb, hk⟩

/-! ### Visits -/

/-- The visits of a search from a class, over `n` links at most. -/
def visits (G : ClassGraph) : Nat → String → List Visit
  | 0, c => [⟨c, 0⟩]
  | n + 1, c => ⟨c, n + 1⟩ :: (G c).flatMap (visits G n)

/-- A class is visited over every chain that leads to it. -/
theorem mem_visits : v ∈ G.visits n c ↔ ∃ k, k + v.left = n ∧ G.Links k c v.className := by
  induction n generalizing c with
  | zero =>
    constructor
    · intro hv
      rw [visits, List.mem_singleton] at hv
      subst hv
      exact ⟨0, rfl, .none c⟩
    · rintro ⟨k, hk, hlinks⟩
      obtain ⟨rfl, hleft⟩ := Nat.add_eq_zero_iff.1 hk
      cases hlinks
      rw [visits, List.mem_singleton, ← hleft]
  | succ n ih =>
    rw [visits, List.mem_cons, List.mem_flatMap]
    constructor
    · rintro (rfl | ⟨d, hd, hv⟩)
      · exact ⟨0, Nat.zero_add _, .none c⟩
      · obtain ⟨k, hk, hlinks⟩ := ih.1 hv
        exact ⟨k + 1, by omega, .more hd hlinks⟩
    · rintro ⟨k, hk, hlinks⟩
      cases hlinks with
      | none =>
        left
        rw [← hk, Nat.zero_add]
      | more hd hrest => exact .inr ⟨_, hd, ih.2 ⟨_, by omega, hrest⟩⟩

/-- No chain is longer than `n` links exactly if no visit of a longer search is the last one that it
may make on its way down. -/
theorem links_le_iff :
    (∀ k d, G.Links k c d → k ≤ n) ↔ ∀ v ∈ G.visits (n + 1) c, v.left ≠ 0 := by
  constructor
  · intro hn v hv hleft
    obtain ⟨k, hk, hlinks⟩ := mem_visits.1 hv
    have := hn k _ hlinks
    omega
  · intro hvisits k d hlinks
    by_contra hk
    obtain ⟨j, rfl⟩ := Nat.exists_eq_add_of_lt (Nat.lt_of_not_le hk)
    rw [Nat.add_right_comm] at hlinks
    obtain ⟨b, hb, -⟩ := hlinks.split
    exact hvisits ⟨b, 0⟩ (mem_visits.2 ⟨n + 1, rfl, hb⟩) rfl

/-! ### The end of a search -/

/-- Where a search ends: at the first class at which it may stop, or where no link may follow. -/
def ending (G : ClassGraph) (stop : String → Bool) (n : Nat) (c : String) : Option Visit :=
  (G.visits n c).find? fun v => stop v.className || v.left == 0

theorem ending_zero : G.ending stop 0 c = some ⟨c, 0⟩ := by simp [ending, visits]

theorem ending_succ : G.ending stop (n + 1) c
    = if stop c then some ⟨c, n + 1⟩ else (G c).findSome? (G.ending stop n) := by
  rw [ending, visits, List.find?_cons, List.find?_flatMap]
  cases stop c <;> rfl

/-- A search that finds nothing has come to everything that can be reached, and might stop nowhere. -/
theorem not_stop_of_ending_eq_none (h : G.ending stop n c = none) (hd : G.Inherits c d) :
    stop d = false := by
  have hvisits {v : Visit} (hv : v ∈ G.visits n c) : stop v.className = false ∧ v.left ≠ 0 := by
    simpa using List.find?_eq_none.1 h v hv
  obtain ⟨k, hk⟩ := inherits_iff.1 hd
  have hle : k ≤ n := by
    by_contra hlt
    obtain ⟨j, rfl⟩ := Nat.exists_eq_add_of_le (Nat.le_of_not_le hlt)
    obtain ⟨b, hb, -⟩ := hk.split
    exact (hvisits (v := ⟨b, 0⟩) (mem_visits.2 ⟨n, rfl, hb⟩)).2 rfl
  exact (hvisits (v := ⟨d, n - k⟩) (mem_visits.2 ⟨k, Nat.add_sub_of_le hle, hk⟩)).1

/-- A search ends at a class that it may stop at, or as deep as it goes. -/
theorem of_ending_eq_some (h : G.ending stop n c = some v) :
    (∃ k, k + v.left = n ∧ G.Links k c v.className) ∧ (stop v.className = true ∨ v.left = 0) := by
  refine ⟨mem_visits.1 (List.mem_of_find?_eq_some h), ?_⟩
  simpa using List.find?_some h

/-- Nothing before the end of a search could have ended it. -/
theorem ending_eq_some_iff : G.ending stop n c = some v ↔
    (stop v.className = true ∨ v.left = 0) ∧ ∃ before after, G.visits n c = before ++ v :: after ∧
      ∀ w ∈ before, stop w.className = false ∧ w.left ≠ 0 := by
  simp [ending, List.find?_eq_some_iff_append]

/-- Where links are left at all visits before, a visit at which a search may end is its end, or it may
stop at one of them. -/
theorem ending_of_visits (stop : String → Bool) {before after : List Visit}
    (h : G.visits n c = before ++ v :: after) (hbefore : ∀ w ∈ before, w.left ≠ 0)
    (hv : stop v.className = true ∨ v.left = 0) :
    (∀ w ∈ before, stop w.className = false) ∧ G.ending stop n c = some v ∨
      ∃ w ∈ before, stop w.className = true ∧ G.ending stop n c = some w := by
  rw [ending, h, List.find?_append]
  cases hfirst : before.find? fun w => stop w.className || w.left == 0 with
  | none =>
    refine .inl ⟨fun w hw => ?_, ?_⟩
    · have hpassed := List.find?_eq_none.1 hfirst w hw
      simp only [Bool.or_eq_true, not_or, Bool.not_eq_true] at hpassed
      exact hpassed.1
    · rw [Option.none_or, List.find?_cons_of_pos (by simpa using hv)]
  | some w =>
    have hw := List.mem_of_find?_eq_some hfirst
    have hstop : stop w.className = true ∨ w.left = 0 := by simpa using List.find?_some hfirst
    exact .inr ⟨w, hw, hstop.resolve_right (hbefore w hw), rfl⟩

end ClassGraph

end ValueMachine

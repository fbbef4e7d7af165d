import ValueMachine.Proofs.Calls.Minding
import ValueMachine.Proofs.Classes.Descent

/-! The searches through the classes of a machine. The arrays `ISA` give a class graph, as long as
reading the names in them changes none. Inheritance and the search for methods make the same visits
in this graph: the one ends at the class it asks for, the other at a class with a method of its own,
and both where no link may follow. -/

namespace ValueMachine

/-! ### Readings on the way -/

namespace Run

variable {α β γ : Type} {x y : Run α} {f : α → Run β} {z : Run β} {m : Machine} {a : α}
  {e : Fault}

/-- An operation does what another does, once it has noted some readings. -/
def AmountsTo (x y : Run α) (m : Machine) : Prop :=
  ∀ log, ∃ log', x { m with log := log } = y { m with log := log' }

theorem AmountsTo.refl (x : Run α) (m : Machine) : x.AmountsTo x m := fun log => ⟨log, rfl⟩

theorem AmountsTo.bind (hx : x.AmountsTo (pure a) m) (hf : (f a).AmountsTo z m) :
    (x >>= f).AmountsTo z m := fun log => by
  obtain ⟨log₁, h₁⟩ := hx log
  obtain ⟨log₂, h₂⟩ := hf log₁
  exact ⟨log₂, by rw [bind_of_ok h₁, h₂]⟩

theorem AmountsTo.raises (hx : x.AmountsTo (raise e) m) : (x >>= f).AmountsTo (raise e) m :=
  fun log => by
    obtain ⟨log', h⟩ := hx log
    exact ⟨log', by rw [bind_apply, h]; rfl⟩

theorem AmountsTo.mapM {g : γ → Run α} {v : γ → α} {cs : List γ}
    (hg : ∀ c ∈ cs, (g c).AmountsTo (pure (v c)) m) :
    (cs.mapM g).AmountsTo (pure (cs.map v)) m := by
  induction cs with
  | nil => exact .refl _ m
  | cons c rest ih =>
    rw [List.mapM_cons]
    refine (hg c List.mem_cons_self).bind ?_
    exact (ih fun d hd => hg d (List.mem_cons_of_mem _ hd)).bind (.refl _ m)

/-- A loop that asks each of some things ends where the first of them has found something, if only
that ends it. -/
theorem AmountsTo.anyM {g : γ → Run Bool} {found : γ → Option β} {verdict : Option β → Run Bool}
    (hg : ∀ c, (g c).AmountsTo (verdict (found c)) m) (hnone : verdict none = pure false)
    (hsome : ∀ b, verdict (some b) = pure true ∨ ∃ e, verdict (some b) = raise e) (cs : List γ) :
    (cs.anyM g).AmountsTo (verdict (cs.findSome? found)) m := by
  induction cs with
  | nil =>
    rw [List.findSome?_nil, hnone]
    exact .refl _ m
  | cons c rest ih =>
    have hc := hg c
    rw [List.findSome?_cons]
    cases hfound : found c with
    | none =>
      rw [hfound, hnone] at hc
      exact hc.bind ih
    | some b =>
      rw [hfound] at hc
      rcases hsome b with hb | ⟨e, hb⟩
      · rw [hb] at hc ⊢
        exact hc.bind (.refl _ m)
      · rw [hb] at hc ⊢
        exact hc.raises

theorem AmountsTo.findSomeM? {g : γ → Run (Option α)} {found : γ → Option β}
    {verdict : Option β → Run (Option α)} (hg : ∀ c, (g c).AmountsTo (verdict (found c)) m)
    (hnone : verdict none = pure none)
    (hsome : ∀ c b, found c = some b →
      (∃ a, verdict (some b) = pure (some a)) ∨ ∃ e, verdict (some b) = raise e) (cs : List γ) :
    (cs.findSomeM? g).AmountsTo (verdict (cs.findSome? found)) m := by
  induction cs with
  | nil =>
    rw [List.findSome?_nil, hnone]
    exact .refl _ m
  | cons c rest ih =>
    have hc := hg c
    rw [List.findSome?_cons]
    cases hfound : found c with
    | none =>
      rw [hfound, hnone] at hc
      exact hc.bind ih
    | some b =>
      rw [hfound] at hc
      rcases hsome c b hfound with ⟨a, hb⟩ | ⟨e, hb⟩
      · rw [hb] at hc ⊢
        exact hc.bind (.refl _ m)
      · rw [hb] at hc ⊢
        exact hc.raises

end Run

open Run

namespace Machine

variable {m : Machine} {h sub : Handle} {c p method : String} {n : Nat} {v : Visit}

/-! ### The class graph of a machine -/

/-- The values that the array `ISA` of a class lists. -/
def listed (m : Machine) (className : String) : List Handle :=
  ((m.global? .array (className ++ "::ISA")).bind fun isa => (m.body isa).array?).elim [] Slots.owned

/-- The class graph that the arrays `ISA` give. -/
def classGraph (m : Machine) : ClassGraph := fun className =>
  (m.listed className).map fun h => (m.textAt h).bytes.toText

/-- The arrays `ISA` are arrays, and reading a name in them changes none. -/
structure ListsParents (m : Machine) : Prop where
  array : ∀ {c isa}, m.global? .array (c ++ "::ISA") = some isa → ∃ xs, m.body isa = .array xs
  tame : ∀ {c}, ∀ h ∈ m.listed c, ∀ g ∈ (m.cell h).magic, g.Tame

/-- What the symbol table holds shows it. -/
theorem ListsParents.of_symbols
    (hm : ∀ p ∈ m.interp.symbols, ∀ isa ∈ p.2.array, (m.body isa).array?.isSome = true ∧
      ∀ h ∈ (m.body isa).array?.elim [] Slots.owned, (m.cell h).magic.isEmpty = true) :
    m.ListsParents where
  array {c isa} hg := by
    obtain ⟨p, hp, -, hisa⟩ := mem_of_global? hg
    have hb := (hm p hp isa hisa).1
    cases hbody : m.body isa with
    | array xs => exact ⟨xs, rfl⟩
    | _ =>
      rw [hbody] at hb
      cases hb
  tame {c} h hh := by
    rw [listed] at hh
    cases hg : m.global? .array (c ++ "::ISA") with
    | none =>
      rw [hg] at hh
      cases hh
    | some isa =>
      obtain ⟨p, hp, -, hisa⟩ := mem_of_global? hg
      rw [hg, Option.bind_some] at hh
      rw [List.isEmpty_iff.1 ((hm p hp isa hisa).2 h hh)]
      exact fun g hg => absurd hg List.not_mem_nil

theorem string_amountsTo (hh : ∀ g ∈ (m.cell h).magic, g.Tame) :
    (string h).AmountsTo (pure (m.textAt h).bytes.toText) m := fun log => by
  obtain ⟨log', hhooks⟩ := runReadHooks_of_tame (m := { m with log := log }) hh
  refine ⟨log', ?_⟩
  rw [string, text, bind_assoc, bind_of_ok hhooks]
  rfl

/-- Reading the parents of a class gives those of the graph. -/
theorem ListsParents.parents (hm : m.ListsParents) (c : String) :
    (parents c).AmountsTo (pure (m.classGraph c)) m := by
  have hread := AmountsTo.mapM fun h hh => string_amountsTo (hm.tame (c := c) h hh)
  intro log
  have hglobal : ({ m with log := log } : Machine).global? .array (c ++ "::ISA")
      = m.global? .array (c ++ "::ISA") := rfl
  rw [Machine.parents, look_bind, hglobal]
  cases hg : m.global? .array (c ++ "::ISA") with
  | none =>
    have hnone : m.classGraph c = [] := by rw [classGraph, listed, hg]; rfl
    exact ⟨log, hnone ▸ rfl⟩
  | some isa =>
    obtain ⟨xs, hb⟩ := hm.array hg
    have hlisted : m.listed c = Slots.owned xs := by rw [listed, hg, Option.bind_some, hb]; rfl
    have hslots : slots isa { m with log := log } = .ok xs { m with log := log } :=
      slots_apply (show ({ m with log := log } : Machine).body isa = .array xs from hb)
    rw [hlisted] at hread
    obtain ⟨log', hread⟩ := hread log
    refine ⟨log', ?_⟩
    rw [classGraph, hlisted]
    exact (bind_of_ok hslots).trans hread

/-! ### Inheritance -/

/-- What the search for a class says where it ends. -/
def kinship (p : String) : Option Visit → Run Bool
  | some v => if v.className = p then pure true else raise (.recursiveInheritance v.className)
  | none => pure false

theorem ListsParents.derivesWithin (hm : m.ListsParents) (p : String) (n : Nat) (c : String) :
    (derivesWithin p n c).AmountsTo (kinship p (m.classGraph.ending (· == p) n c)) m := by
  induction n generalizing c with
  | zero =>
    rw [ClassGraph.ending_zero]
    exact .refl _ m
  | succ n ih =>
    rw [Machine.derivesWithin, ClassGraph.ending_succ]
    by_cases hc : c = p
    · rw [if_pos hc, if_pos (beq_iff_eq.2 hc), kinship, if_pos hc]
      exact .refl _ m
    · rw [if_neg hc, if_neg (mt beq_iff_eq.1 hc)]
      refine (hm.parents c).bind (AmountsTo.anyM ih rfl (fun v => ?_) _)
      by_cases hv : v.className = p
      · exact .inl (if_pos hv)
      · exact .inr ⟨_, if_neg hv⟩

/-- Inheritance is answered as the class graph has it, unless a chain of more than a hundred links
is met before. -/
theorem ListsParents.derives (hm : m.ListsParents) (c p : String) : ∃ log,
    (derives c p m = .ok true { m with log := log } ∧ m.classGraph.Inherits c p) ∨
    (derives c p m = .ok false { m with log := log } ∧ ¬ m.classGraph.Inherits c p) ∨
    ∃ d, derives c p m = (raise (.recursiveInheritance d) : Run Bool) { m with log := log } ∧
      m.classGraph.Links (maxLinks + 1) c d := by
  obtain ⟨log, hlog⟩ := hm.derivesWithin p (maxLinks + 1) c m.log
  have hderives : Machine.derives c p m
      = kinship p (m.classGraph.ending (· == p) (maxLinks + 1) c) { m with log := log } := hlog
  refine ⟨log, ?_⟩
  rw [hderives]
  cases hend : m.classGraph.ending (· == p) (maxLinks + 1) c with
  | none =>
    refine .inr (.inl ⟨rfl, fun hp => ?_⟩)
    have hstop := ClassGraph.not_stop_of_ending_eq_none hend hp
    rw [beq_self_eq_true] at hstop
    cases hstop
  | some v =>
    obtain ⟨⟨k, hk, hlinks⟩, hstop⟩ := ClassGraph.of_ending_eq_some hend
    rw [kinship]
    by_cases hv : v.className = p
    · rw [if_pos hv]
      exact .inl ⟨rfl, ClassGraph.inherits_iff.2 ⟨k, hv ▸ hlinks⟩⟩
    · rw [if_neg hv]
      have hleft : v.left = 0 := hstop.resolve_left (mt beq_iff_eq.1 hv)
      rw [hleft, Nat.add_zero] at hk
      exact .inr (.inr ⟨_, rfl, hk ▸ hlinks⟩)

/-- The search for an ancestor ends in every class graph, cyclic ones included: it says yes only of
what the class is or inherits from, no only of what it is not, and raises the exception of recursive
inheritance otherwise, below a chain of too many links. Where no chain has more than a hundred it says
one or the other. -/
theorem ancestry_decided (hm : m.ListsParents) (c p : String) : ∃ log,
    ((∀ n d, m.classGraph.Links n c d → n ≤ maxLinks) → ∃ b,
      Machine.derives c p m = .ok b { m with log := log } ∧
        (b = true ↔ m.classGraph.Inherits c p)) ∧
    ((Machine.derives c p m = .ok true { m with log := log } ∧ m.classGraph.Inherits c p) ∨
      (Machine.derives c p m = .ok false { m with log := log } ∧ ¬ m.classGraph.Inherits c p) ∨
      ∃ d, Machine.derives c p m
          = (raise (.recursiveInheritance d) : Run Bool) { m with log := log } ∧
        m.classGraph.Links (maxLinks + 1) c d) := by
  obtain ⟨log, hends⟩ := hm.derives c p
  refine ⟨log, fun hshort => ?_, hends⟩
  rcases hends with ⟨hyes, hp⟩ | ⟨hno, hp⟩ | ⟨d, -, hlinks⟩
  · exact ⟨true, hyes, by simp [hp]⟩
  · exact ⟨false, hno, by simp [hp]⟩
  · have := hshort _ d hlinks
    omega

/-- Two classes inherit from the third, one of them over the other as well, and the third has a
method. -/
def pedigree : Machine :=
  (Run.final (do setParents "Dog" ["Pet", "Animal"]; setParents "Pet" ["Animal"])
    fresh).newSub (some "Animal::speak") (.routine "speak") "" none |>.2

theorem listsParents_pedigree : pedigree.ListsParents := .of_symbols (by decide +kernel)

/-- No chain is longer than two links, so a dog is found to be an animal. -/
theorem derives_pedigree : pedigree.ListsParents ∧
    (∀ n d, pedigree.classGraph.Links n "Dog" d → n ≤ maxLinks) ∧
    pedigree.classGraph.Inherits "Dog" "Animal" ∧
    ∃ m', Machine.derives "Dog" "Animal" pedigree = .ok true m' := by
  have hshort : ∀ n d, pedigree.classGraph.Links n "Dog" d → n ≤ maxLinks :=
    ClassGraph.links_le_iff.2 (by decide +kernel)
  have hanimal : pedigree.classGraph.Inherits "Dog" "Animal" :=
    .single (show "Animal" ∈ pedigree.classGraph "Dog" by decide +kernel)
  obtain ⟨log, hdecided, -⟩ := ancestry_decided listsParents_pedigree "Dog" "Animal"
  obtain ⟨b, hrun, hb⟩ := hdecided hshort
  exact ⟨listsParents_pedigree, hshort, hanimal, _, hb.2 hanimal ▸ hrun⟩

/-! ### Methods -/

/-- Whether a class has a method of its own. -/
def hasOwn (m : Machine) (method className : String) : Bool := (m.ownMethod? className method).isSome

/-- What the search for a method says where it ends. -/
def methodAt (m : Machine) (method : String) : Option Visit → Run (Option Handle)
  | some v =>
    if v.left = 0 then raise (.recursiveInheritance v.className)
    else pure (m.ownMethod? v.className method)
  | none => pure none

theorem methodAt_of_hasOwn (hown : m.hasOwn method v.className = true) (hleft : v.left ≠ 0) :
    ∃ sub, m.ownMethod? v.className method = some sub ∧
      m.methodAt method (some v) = pure (some sub) := by
  obtain ⟨sub, hsub⟩ := Option.isSome_iff_exists.1 hown
  exact ⟨sub, hsub, by rw [methodAt, if_neg hleft, hsub]⟩

theorem ListsParents.findMethodWithin (hm : m.ListsParents) (method : String) (n : Nat) (c : String) :
    (findMethodWithin method n c).AmountsTo
      (m.methodAt method (m.classGraph.ending (m.hasOwn method) n c)) m := by
  induction n generalizing c with
  | zero =>
    rw [ClassGraph.ending_zero]
    exact .refl _ m
  | succ n ih =>
    have hlook : (Run.look (·.ownMethod? c method)).AmountsTo (pure (m.ownMethod? c method)) m :=
      fun log => ⟨log, rfl⟩
    rw [Machine.findMethodWithin, ClassGraph.ending_succ]
    refine hlook.bind ?_
    rw [hasOwn]
    cases hown : m.ownMethod? c method with
    | some sub =>
      rw [Option.isSome_some, if_pos rfl, methodAt, if_neg (Nat.succ_ne_zero n), hown]
      exact .refl _ m
    | none =>
      rw [Option.isSome_none, if_neg Bool.false_ne_true]
      refine (hm.parents c).bind (AmountsTo.findSomeM? ih rfl (fun d v hend => ?_) _)
      by_cases hv : v.left = 0
      · exact .inr ⟨_, if_pos hv⟩
      · have hstop := (ClassGraph.of_ending_eq_some hend).2.resolve_right hv
        obtain ⟨sub, -, hat⟩ := methodAt_of_hasOwn hstop hv
        exact .inl ⟨sub, hat⟩

theorem ListsParents.findMethod (hm : m.ListsParents) (c method : String) : ∃ log,
    findMethod c method m = m.methodAt method
      (m.classGraph.ending (m.hasOwn method) (maxLinks + 1) c) { m with log := log } :=
  hm.findMethodWithin method (maxLinks + 1) c m.log

theorem kinship_ok {o : Option Visit} {b : Bool} {m' : Machine} (h : kinship p o m = .ok b m') :
    b = true ↔ ∃ v, o = some v ∧ v.className = p := by
  cases o with
  | none => cases h; simp
  | some v =>
    rw [kinship] at h
    split at h
    next hv => cases h; simp [hv]
    next => cases h

theorem methodAt_ok {o : Option Visit} {m₁ m' : Machine}
    (h : m.methodAt method o m₁ = .ok (some sub) m') :
    ∃ v, o = some v ∧ v.left ≠ 0 ∧ m.ownMethod? v.className method = some sub := by
  cases o with
  | none => cases h
  | some v =>
    rw [methodAt] at h
    split at h
    next => cases h
    next hv =>
      obtain ⟨hsub, -⟩ := pure_ok h
      exact ⟨v, rfl, hv, hsub.symm⟩

/-- Two searches make the same visits. Where a class inherits from one with a method, the method or
one of a class before is found, unless the class is met below a hundred links first and none before
has the method: there the search for methods raises the exception of recursive inheritance, where the
search for the class has already ended. And whatever method is found is of a class that is inherited
from. -/
theorem method_searches_agree (hm : m.ListsParents) (c p method : String) :
    (∀ {m₁}, Machine.derives c p m = .ok true m₁ → m.hasOwn method p = true →
      ∃ before left after, m.classGraph.visits (maxLinks + 1) c = before ++ ⟨p, left⟩ :: after ∧
        (∀ w ∈ before, w.className ≠ p) ∧ ∃ log,
          if left = 0 ∧ ∀ w ∈ before, m.hasOwn method w.className = false then
            Machine.findMethod c method m = raise (.recursiveInheritance p) { m with log := log }
          else ∃ q sub, (q = p ∨ ∃ w ∈ before, w.className = q) ∧
            m.ownMethod? q method = some sub ∧
            Machine.findMethod c method m = .ok (some sub) { m with log := log }) ∧
    ∀ {sub m₁}, Machine.findMethod c method m = .ok (some sub) m₁ →
      ∃ q log, m.ownMethod? q method = some sub ∧
        Machine.derives c q m = .ok true { m with log := log } := by
  constructor
  · intro m₁ hyes hp
    obtain ⟨log, hderives⟩ := hm.derivesWithin p (maxLinks + 1) c m.log
    obtain ⟨⟨q, left⟩, hend, rfl⟩ := (kinship_ok (hderives.symm.trans hyes)).1 rfl
    obtain ⟨-, before, after, hvisits, hbefore⟩ := ClassGraph.ending_eq_some_iff.1 hend
    obtain ⟨log, hfind⟩ := hm.findMethod c method
    refine ⟨before, left, after, hvisits, fun w hw => by simpa using (hbefore w hw).1, log, ?_⟩
    rw [hfind]
    rcases ClassGraph.ending_of_visits _ hvisits (fun w hw => (hbefore w hw).2) (.inl hp) with
      ⟨hnone, hends⟩ | ⟨w, hw, hown, hends⟩ <;> rw [hends]
    · by_cases hleft : left = 0
      · rw [if_pos ⟨hleft, hnone⟩, methodAt, if_pos hleft]
      · rw [if_neg fun h => hleft h.1]
        obtain ⟨sub, hsub, hat⟩ := methodAt_of_hasOwn hp hleft
        exact ⟨q, sub, .inl rfl, hsub, by rw [hat]; rfl⟩
    · -- a class before the inherited one has the method
      rw [if_neg fun h => Bool.false_ne_true ((h.2 w hw).symm.trans hown)]
      obtain ⟨sub, hsub, hat⟩ := methodAt_of_hasOwn hown (hbefore w hw).2
      exact ⟨w.className, sub, .inr ⟨w, hw, rfl⟩, hsub, by rw [hat]; rfl⟩
  · intro sub m₁ hfound
    obtain ⟨log, hfind⟩ := hm.findMethod c method
    rw [hfind] at hfound
    obtain ⟨v, hend, hleft, hsub⟩ := methodAt_ok hfound
    obtain ⟨-, before, after, hvisits, hbefore⟩ := ClassGraph.ending_eq_some_iff.1 hend
    obtain ⟨log, hderives⟩ := hm.derivesWithin v.className (maxLinks + 1) c m.log
    refine ⟨v.className, log, hsub, hderives.trans ?_⟩
    rcases ClassGraph.ending_of_visits (· == v.className) hvisits (fun w hw => (hbefore w hw).2)
      (.inl (beq_self_eq_true _)) with ⟨-, hends⟩ | ⟨w, -, hname, hends⟩ <;> rw [hends]
    · rw [kinship, if_pos rfl]
      rfl
    · rw [kinship, if_pos (beq_iff_eq.1 hname)]
      rfl

/-- A dog speaks as an animal does. -/
theorem findMethod_pedigree : pedigree.ListsParents ∧
    (∃ m', Machine.derives "Dog" "Animal" pedigree = .ok true m') ∧
    pedigree.hasOwn "speak" "Animal" = true ∧ ∃ sub m' q m'',
      Machine.findMethod "Dog" "speak" pedigree = .ok (some sub) m' ∧
        pedigree.ownMethod? q "speak" = some sub ∧
        Machine.derives "Dog" q pedigree = .ok true m'' := by
  have hown : pedigree.hasOwn "speak" "Animal" = true := by decide +kernel
  have hyes : (Machine.derives "Dog" "Animal").Yields pedigree fun b _ => b = true := by
    decide +kernel
  have hshallow : ∀ v ∈ pedigree.classGraph.visits (maxLinks + 1) "Dog", v.left ≠ 0 := by
    decide +kernel
  obtain ⟨b, m₁, hderives, rfl⟩ := hyes.exists_ok
  have hagree := method_searches_agree listsParents_pedigree "Dog" "Animal" "speak"
  obtain ⟨before, left, after, hvisits, -, log, hfound⟩ := hagree.1 hderives hown
  have hleft : left ≠ 0 :=
    hshallow ⟨"Animal", left⟩ (hvisits ▸ List.mem_append_right _ List.mem_cons_self)
  rw [if_neg fun h => hleft h.1] at hfound
  obtain ⟨-, sub, -, -, hfind⟩ := hfound
  obtain ⟨q, log', hq, hderives'⟩ := hagree.2 hfind
  exact ⟨listsParents_pedigree, ⟨m₁, hderives⟩, hown, sub, _, q, _, hfind, hq, hderives'⟩

end Machine

end ValueMachine

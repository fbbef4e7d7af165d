import Mathlib
import ValueMachine.Proofs.Calls.Balanced

/-! The floor of the temporaries. Scopes put it aside and traps remember it in their frames, and where
both are opened and closed in order, exceptions included, the floors that are put aside are in order too,
and no temporary below the floor is released. -/

namespace ValueMachine

open Machine

/-- The floors that scopes have put aside rise from the outermost to the innermost, the floor is not
below any of them, and the temporaries reach it. -/
structure Stacks.Ordered (s : Stacks) : Prop where
  saved : s.scopes.reduceOption.Pairwise (· ≤ ·)
  below : ∀ f ∈ s.scopes.reduceOption, f ≤ s.floor
  reached : s.floor ≤ s.temps.length

theorem Stacks.rising_concat {floors : List Nat} {n : Nat} : (floors ++ [n]).Pairwise (· ≤ ·) ↔
    floors.Pairwise (· ≤ ·) ∧ ∀ f ∈ floors, f ≤ n := by
  simp [List.pairwise_append]

/-! ### The newest temporary -/

namespace Machine

variable {m : Machine}

/-- Take the newest temporary off and release it. -/
def freeNewest (m : Machine) : Machine :=
  match m.interp.temps.top? with
  | some h => (m.cutTemps (m.interp.temps.height - 1)).release h
  | none => m

theorem freeNewest_eq {older : List Handle} {h : Handle}
    (hm : m.interp.toStacks.temps = older ++ [h]) :
    m.freeNewest = (m.cutTemps older.length).release h := by
  have htop : m.interp.temps.top? = some h := by
    rw [Pile.top?_eq, show m.interp.temps.toList = _ from hm, List.getLast?_concat]
  have hheight : m.interp.temps.height - 1 = older.length := by
    rw [m.interp.height_temps, hm, List.length_append, List.length_singleton, Nat.add_sub_cancel]
  rw [freeNewest, htop, hheight]

theorem toStacks_freeNewest (m : Machine) : m.freeNewest.interp.toStacks
    = { m.interp.toStacks with temps := m.interp.toStacks.temps.dropLast } := by
  rcases List.eq_nil_or_concat m.interp.toStacks.temps with hm | ⟨older, h, hm⟩
  · have htop : m.interp.temps.top? = none := by
      rw [Pile.top?_eq, show m.interp.temps.toList = _ from hm, List.getLast?_nil]
    rw [freeNewest, htop, hm, List.dropLast_nil, ← hm]
  · rw [List.concat_eq_append] at hm
    rw [freeNewest_eq hm, (Manner.Still.release _ h).same, toStacks_cutTemps, hm, List.take_left,
      List.dropLast_concat]

end Machine

/-! ### What is open -/

/-- What has been opened and not closed. -/
inductive Opening where
  /-- A scope, with the temporaries that there were when the floor was raised in it. -/
  | scope (temps : Option (List Handle))
  /-- A trap of exceptions. -/
  | trap (frame : Frame)
  /-- A freeing of temporaries, whose hooks may run code. -/
  | freeing

namespace Opening

variable {s₀ : Stacks} {inner o : List Opening}

/-- The temporaries below the floor: those that there were when it was last raised. -/
def sheltered (s₀ : Stacks) : List Opening → List Handle
  | [] => s₀.temps.take s₀.floor
  | scope temps :: o => temps.getD (sheltered s₀ o)
  | trap _ :: o => sheltered s₀ o
  | freeing :: o => sheltered s₀ o

/-- The scopes, each with the floor that it has put aside. -/
def saved (s₀ : Stacks) : List Opening → List (Option Nat)
  | [] => s₀.scopes
  | scope temps :: o => saved s₀ o ++ [temps.map fun _ => (sheltered s₀ o).length]
  | trap _ :: o => saved s₀ o
  | freeing :: o => saved s₀ o

/-- The floor was only raised, and frames remember where they were made. -/
def Sound (s₀ : Stacks) : List Opening → Prop
  | [] => True
  | scope temps :: o => sheltered s₀ o <+: temps.getD (sheltered s₀ o) ∧ Sound s₀ o
  | trap frame :: o =>
    frame.floor = (sheltered s₀ o).length ∧ frame.scopes = (saved s₀ o).length ∧ Sound s₀ o
  | freeing :: o => Sound s₀ o

theorem Sound.of_append (h : Sound s₀ (inner ++ o)) : Sound s₀ o := by
  induction inner with
  | nil => exact h
  | cons opening inner ih =>
    cases opening with
    | scope temps => exact ih h.2
    | trap frame => exact ih h.2.2
    | freeing => exact ih h

theorem Sound.sheltered_of_append (h : Sound s₀ (inner ++ o)) :
    sheltered s₀ o <+: sheltered s₀ (inner ++ o) := by
  induction inner with
  | nil => exact List.prefix_rfl
  | cons opening inner ih =>
    cases opening with
    | scope temps => exact (ih h.2).trans h.1
    | trap frame => exact ih h.2.2
    | freeing => exact ih h

theorem saved_of_append (s₀ : Stacks) (inner o : List Opening) :
    saved s₀ o <+: saved s₀ (inner ++ o) := by
  induction inner with
  | nil => exact List.prefix_rfl
  | cons opening inner ih =>
    cases opening with
    | scope temps => exact ih.trans (List.prefix_append _ _)
    | trap frame => exact ih
    | freeing => exact ih

/-- The floors that are put aside rise, up to the floor itself. -/
theorem Sound.rising (h₀ : s₀.Ordered) (h : Sound s₀ o) :
    ((saved s₀ o).reduceOption ++ [(sheltered s₀ o).length]).Pairwise (· ≤ ·) := by
  induction o with
  | nil =>
    have hlength : (s₀.temps.take s₀.floor).length = s₀.floor := List.length_take_of_le h₀.reached
    rw [saved, sheltered, hlength]
    exact Stacks.rising_concat.2 ⟨h₀.saved, h₀.below⟩
  | cons opening o ih =>
    cases opening with
    | trap frame => exact ih h.2.2
    | freeing => exact ih h
    | scope temps =>
      have hrising := ih h.2
      rw [saved, List.reduceOption_append]
      cases temps with
      | none =>
        show ((saved s₀ o).reduceOption ++ [] ++ [(sheltered s₀ o).length]).Pairwise (· ≤ ·)
        rwa [List.append_nil]
      | some temps =>
        have hraised : (sheltered s₀ o).length ≤ temps.length := h.1.length_le
        show ((saved s₀ o).reduceOption ++ [(sheltered s₀ o).length] ++ [temps.length]).Pairwise _
        refine Stacks.rising_concat.2 ⟨hrising, fun f hf => ?_⟩
        rcases List.mem_append.1 hf with hf | hf
        · exact ((Stacks.rising_concat.1 hrising).2 f hf).trans hraised
        · rwa [List.mem_singleton.1 hf]

end Opening

/-! ### Courses -/

/-- A machine in the course of a run, with what is open in the interpreter in focus, innermost first. The
machine itself keeps no list of it. -/
structure Course where
  machine : Machine
  openings : List Opening

namespace Course

open Opening

/-- One step of a run in which scopes and traps are properly nested, and the floor is raised once at most
in a scope. -/
inductive Step : Course → Course → Prop
  | mortal (m : Machine) (o : List Opening) (h : Handle) : Step ⟨m, o⟩ ⟨m.mortal h, o⟩
  | enter (m : Machine) (o : List Opening) : Step ⟨m, o⟩ ⟨m.enter, scope none :: o⟩
  | saveTemps (m : Machine) (o : List Opening) :
      Step ⟨m, scope none :: o⟩ ⟨m.saveTemps, scope (some m.interp.temps.toList) :: o⟩
  | leave (m : Machine) (temps : Option (List Handle)) (o : List Opening) :
      Step ⟨m, scope temps :: o⟩ ⟨m.leave, o⟩
  | free (m : Machine) (o : List Opening) : Step ⟨m, o⟩ ⟨m, freeing :: o⟩
  /-- The newest temporary is released, and then its hooks run. -/
  | next {m : Machine} (o : List Opening) (above : m.interp.floor < m.interp.temps.height) :
      Step ⟨m, freeing :: o⟩ ⟨m.freeNewest, freeing :: o⟩
  | freed {m : Machine} (o : List Opening) (none_above : m.interp.temps.height ≤ m.interp.floor) :
      Step ⟨m, freeing :: o⟩ ⟨m, o⟩
  | trap (m : Machine) (o : List Opening) (root : Nat) :
      Step ⟨m, o⟩ ⟨m, trap (m.frame root) :: o⟩
  | complete (m : Machine) (frame : Frame) (o : List Opening) : Step ⟨m, trap frame :: o⟩ ⟨m, o⟩
  /-- An exception is caught by any of the traps, wherever it has come up. -/
  | unwind (m : Machine) (inner : List Opening) (frame : Frame) (o : List Opening) :
      Step ⟨m, inner ++ trap frame :: o⟩ ⟨m.unwind frame, o⟩
  /-- Whatever else happens, also in a hook. -/
  | work {m m' : Machine} (o : List Opening) (here : m'.here = m.here)
      (scopes : m'.interp.toStacks.scopes = m.interp.toStacks.scopes)
      (temps : m'.interp.toStacks.temps = m.interp.toStacks.temps)
      (floor : m'.interp.floor = m.interp.floor) : Step ⟨m, o⟩ ⟨m', o⟩

def Steps : Course → Course → Prop := Relation.ReflTransGen Step

/-- What is open determines the scopes and the floor, and the temporaries below the floor are there. -/
structure Nested (s₀ : Stacks) (c : Course) : Prop where
  sound : Sound s₀ c.openings
  scopes : c.machine.interp.toStacks.scopes = saved s₀ c.openings
  temps : sheltered s₀ c.openings <+: c.machine.interp.toStacks.temps
  floor : c.machine.interp.floor = (sheltered s₀ c.openings).length

variable {s₀ : Stacks} {c c' : Course} {m m₀ : Machine} {o : List Opening}

theorem Nested.start (h : m.interp.toStacks.Ordered) : Nested m.interp.toStacks ⟨m, []⟩ where
  sound := trivial
  scopes := rfl
  temps := List.take_prefix _ _
  floor := (List.length_take_of_le h.reached).symm

theorem Nested.ordered (h₀ : s₀.Ordered) (h : Nested s₀ c) : c.machine.interp.toStacks.Ordered := by
  obtain ⟨hsaved, hbelow⟩ := Stacks.rising_concat.1 (h.sound.rising h₀)
  have hfloor : c.machine.interp.toStacks.floor = (sheltered s₀ c.openings).length := h.floor
  refine ⟨?_, fun f hf => ?_, ?_⟩
  · rwa [h.scopes]
  · rw [hfloor]
    exact hbelow f (h.scopes ▸ hf)
  · rw [hfloor]
    exact h.temps.length_le

/-! ### One step -/

namespace Nested

theorem of_work {m' : Machine} (h : Nested s₀ ⟨m, o⟩)
    (scopes : m'.interp.toStacks.scopes = m.interp.toStacks.scopes)
    (temps : m.interp.toStacks.temps <+: m'.interp.toStacks.temps)
    (floor : m'.interp.floor = m.interp.floor) : Nested s₀ ⟨m', o⟩ :=
  ⟨h.sound, scopes.trans h.scopes, h.temps.trans temps, floor.trans h.floor⟩

theorem enter (h : Nested s₀ ⟨m, o⟩) : Nested s₀ ⟨m.enter, scope none :: o⟩ where
  sound := ⟨List.prefix_rfl, h.sound⟩
  scopes := by
    show (m.interp.scopes.push none).toList = saved s₀ o ++ [none]
    rw [Pile.toList_push]
    exact congrArg (· ++ [none]) h.scopes
  temps := h.temps
  floor := h.floor

theorem saveTemps (h : Nested s₀ ⟨m, scope none :: o⟩) :
    Nested s₀ ⟨m.saveTemps, scope (some m.interp.temps.toList) :: o⟩ where
  sound := ⟨h.temps, h.sound.2⟩
  scopes := by
    have hscopes : m.interp.scopes.toList = saved s₀ o ++ [none] := h.scopes
    have htop : m.interp.scopes.top? = some none := by
      rw [Pile.top?_eq, hscopes, List.getLast?_concat]
    have hfloor : m.interp.floor = (sheltered s₀ o).length := h.floor
    show (if m.interp.scopes.top? = some none then _ else _ : Pile _).toList
      = saved s₀ o ++ [some (sheltered s₀ o).length]
    rw [if_pos htop, Pile.toList_push, Pile.toList_pop, hscopes, List.dropLast_concat, hfloor]
  temps := List.prefix_rfl
  floor := m.interp.temps.length_toList.symm

theorem leave {temps : Option (List Handle)} (h : Nested s₀ ⟨m, scope temps :: o⟩) :
    Nested s₀ ⟨m.leave, o⟩ where
  sound := h.sound.2
  scopes := by
    have hscopes : m.interp.toStacks.scopes = saved s₀ o ++ [_] := h.scopes
    rw [toStacks_leave, hscopes, List.dropLast_concat]
  temps := by
    rw [toStacks_leave]
    exact h.sound.1.trans h.temps
  floor := by
    have hscopes : m.interp.toStacks.scopes = saved s₀ o ++ [_] := h.scopes
    show m.leave.interp.toStacks.floor = _
    rw [toStacks_leave, hscopes, List.getLast?_concat]
    cases temps with
    | none => exact h.floor
    | some temps => rfl

/-- The newest temporary may go where it lies above the floor. -/
theorem next (h : Nested s₀ ⟨m, freeing :: o⟩) (above : m.interp.floor < m.interp.temps.height) :
    Nested s₀ ⟨m.freeNewest, freeing :: o⟩ where
  sound := h.sound
  scopes := by
    rw [toStacks_freeNewest]
    exact h.scopes
  temps := by
    have hfloor : m.interp.floor = (sheltered s₀ (freeing :: o)).length := h.floor
    rw [toStacks_freeNewest, List.dropLast_eq_take]
    refine List.prefix_take_iff.2 ⟨h.temps, ?_⟩
    rw [m.interp.height_temps, hfloor] at above
    exact Nat.le_sub_one_of_lt above
  floor := by
    show m.freeNewest.interp.toStacks.floor = _
    rw [toStacks_freeNewest]
    exact h.floor

theorem trap (h : Nested s₀ ⟨m, o⟩) (root : Nat) :
    Nested s₀ ⟨m, Opening.trap (m.frame root) :: o⟩ where
  sound := by
    have hscopes : m.interp.scopes.toList = saved s₀ o := h.scopes
    refine ⟨h.floor, ?_, h.sound⟩
    rw [← hscopes, Pile.length_toList]
    rfl
  scopes := h.scopes
  temps := h.temps
  floor := h.floor

/-- What was open within a trap is cut off with its floors. -/
theorem unwind {inner : List Opening} {frame : Frame}
    (h : Nested s₀ ⟨m, inner ++ Opening.trap frame :: o⟩) : Nested s₀ ⟨m.unwind frame, o⟩ := by
  obtain ⟨hfloor, hscopes, hsound⟩ := h.sound.of_append
  have hcut : m.interp.scopes.toList = saved s₀ (inner ++ Opening.trap frame :: o) := h.scopes
  refine ⟨hsound, ?_, h.sound.sheltered_of_append.trans h.temps, hfloor⟩
  show (m.interp.scopes.cut frame.scopes).toList = saved s₀ o
  rw [Pile.toList_cut, hcut, hscopes]
  exact (List.prefix_iff_eq_take.1 (saved_of_append s₀ inner (Opening.trap frame :: o))).symm

end Nested

theorem Step.nested (hstep : Step c c') (h : Nested s₀ c) : Nested s₀ c' := by
  cases hstep with
  | mortal m o k =>
    refine h.of_work ?_ ?_ rfl
    · rw [toStacks_mortal]
    · rw [toStacks_mortal]
      exact List.prefix_append _ _
  | enter m o => exact h.enter
  | saveTemps m o => exact h.saveTemps
  | leave m temps o => exact h.leave
  | free m o => exact ⟨h.sound, h.scopes, h.temps, h.floor⟩
  | next o above => exact h.next above
  | freed o none_above => exact ⟨h.sound, h.scopes, h.temps, h.floor⟩
  | trap m o root => exact h.trap root
  | complete m frame o => exact ⟨h.sound.2.2, h.scopes, h.temps, h.floor⟩
  | unwind m inner frame o => exact h.unwind
  | work o here scopes temps floor => exact h.of_work scopes (temps ▸ List.prefix_rfl) floor

theorem Steps.nested (hsteps : Steps c c') (h : Nested s₀ c) : Nested s₀ c' := by
  induction hsteps with
  | refl => exact h
  | tail _ hstep ih => exact hstep.nested ih

/-! ### What is freed -/

/-- What is freed has come since the floor was raised, whether all of it is freed or the newest. -/
theorem Nested.frees (h : Nested s₀ ⟨m, o⟩) : ∃ made,
    m.interp.toStacks.temps = sheltered s₀ o ++ made ∧
    m.freeTemps = (m.cutTemps (sheltered s₀ o).length).releaseAll made.reverse ∧
    (m.interp.floor < m.interp.temps.height → ∃ older newest, made = older ++ [newest] ∧
      m.freeNewest = (m.cutTemps (sheltered s₀ o ++ older).length).release newest) := by
  obtain ⟨made, hmade⟩ : sheltered s₀ o <+: m.interp.toStacks.temps := h.temps
  have hfloor : m.interp.floor = (sheltered s₀ o).length := h.floor
  refine ⟨made, hmade.symm, freeTemps_eq hmade.symm hfloor, fun above => ?_⟩
  rcases List.eq_nil_or_concat made with rfl | ⟨older, newest, rfl⟩
  · rw [hfloor, m.interp.height_temps, ← hmade, List.append_nil] at above
    exact absurd above (lt_irrefl _)
  · refine ⟨older, newest, List.concat_eq_append, freeNewest_eq ?_⟩
    rw [← hmade, List.concat_eq_append, List.append_assoc]

end Course

end ValueMachine

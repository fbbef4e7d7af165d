import Mathlib.Logic.Relation
import ValueMachine.Proofs.Ownership.Operations

/-! Every state that operations reach from a new interpreter is in order: the count of a value is the
number of its owners, and it is freed when the last of them goes, and never before. A caller hands
over only counts that it holds, and lends only values that are there. -/

namespace ValueMachine

open Machine

/-- An operation of the runtime. -/
inductive Operation where
  | onScalar (op : ScalarOperation)
  | onArray (op : ArrayOperation)
  | onHash (op : HashOperation)
  | onHolder (op : HolderOperation)

namespace Operation

/-- Run an operation. Its result are the handles whose counts it hands over. -/
def run : Operation → Run (List Handle)
  | onScalar op => op.run
  | onArray op => op.run
  | onHash op => op.run
  | onHolder op => op.run

/-- The handles whose counts the caller hands over. -/
def adopts : Operation → List Handle
  | onScalar op => op.adopts
  | onArray op => op.adopts
  | onHash op => op.adopts
  | onHolder op => op.adopts

/-- The handles that the caller lends and the operation takes counts on. -/
def borrows : Operation → List Handle
  | onScalar op => op.borrows
  | _ => []

def Allowed (m : Machine) : Operation → Prop
  | onScalar op => op.Allowed
  | onHolder op => op.Allowed m
  | _ => True

theorem settles (op : Operation) {m m' : Machine} {back held : List Handle}
    (hm : m.Orderly (op.adopts ++ held)) (hb : ∀ h ∈ op.borrows, m.isFreed h = false)
    (ha : op.Allowed m) (hr : op.run m = .ok back m') : m.Settles m' (back ++ held) := by
  cases op with
  | onScalar op => exact op.settles hm hb ha hr
  | onArray op => exact op.settles hm hr
  | onHash op => exact op.settles hm hr
  | onHolder op => exact op.settles hm ha hr

end Operation

/-- A machine, and the counts that host code holds. -/
structure Holding where
  machine : Machine
  host : List Handle

namespace Holding

/-- The places that own a value: in the heap, in interpreters, and in host code. -/
def owners (s : Holding) (h : Handle) : Nat := s.machine.owners h + s.host.count h

/-- A new interpreter, of which host code holds nothing. -/
def start : Holding := ⟨fresh, []⟩

/-- One operation that returns. -/
structure Step (op : Operation) (s s' : Holding) : Prop where
  lends : ∀ h ∈ op.borrows, s.machine.isFreed h = false
  allowed : op.Allowed s.machine
  returns : ∃ back rest, s.host.Perm (op.adopts ++ rest) ∧
    op.run s.machine = .ok back s'.machine ∧ s'.host = back ++ rest

/-- Some operations, one after the other. -/
def Steps : Holding → Holding → Prop := Relation.ReflTransGen fun s s' => ∃ op, Step op s s'

def Reachable (s : Holding) : Prop := Steps start s

/-- The machine is in order and the number of living values is right. -/
structure Accounted (s : Holding) : Prop where
  orderly : s.machine.Orderly s.host
  tally : s.machine.Tally

variable {s s' t : Holding} {op : Operation} {h : Handle}

theorem accounted_start : Accounted start := ⟨orderly_fresh.1, orderly_fresh.2⟩

theorem Step.settles (hstep : Step op s s') (hs : s.machine.Orderly s.host) :
    s.machine.Settles s'.machine s'.host := by
  obtain ⟨hlends, hallowed, back, rest, hhost, hrun, hback⟩ := hstep
  rw [hback]
  exact op.settles (hs.perm hhost) hlends hallowed hrun

theorem Step.accounted (hstep : Step op s s') (hs : Accounted s) :
    Accounted s' ∧ s.machine.Ages s'.machine := by
  have h := hstep.settles hs.orderly
  exact ⟨⟨h.orderly, h.tally hs.tally⟩, h.ages⟩

theorem Steps.accounted (hsteps : Steps s s') (hs : Accounted s) :
    Accounted s' ∧ s.machine.Ages s'.machine := by
  induction hsteps with
  | refl => exact ⟨hs, .refl _⟩
  | tail _ hstep ih =>
    obtain ⟨op, hstep⟩ := hstep
    have h := hstep.accounted ih.1
    exact ⟨h.1, ih.2.trans h.2⟩

theorem Reachable.accounted (hs : Reachable s) : Accounted s :=
  (Steps.accounted hs accounted_start).1

/-- A temporary of a new interpreter. -/
def oneTemporary : Holding := ⟨(fresh.allocMortal (.scalar (.ofInt64 7))).2, []⟩

end Holding

end ValueMachine

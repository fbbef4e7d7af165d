import ValueMachine.Heap.Cell

/-! The slots of an array: a list of places, each with a value or a hole. A negative index counts
from the end. -/

namespace ValueMachine

/-- The slots of an array. -/
abbrev Slots := List (Option Handle)

namespace Slots

/-- The place that an index denotes among `n` slots; a place beyond the end is none yet. -/
def place? (n : Nat) (i : Int) : Option Nat :=
  if 0 ≤ i then some i.toNat
  else if 0 ≤ i + n then some (i + n).toNat
  else none

/-- The value at an index. -/
def fetch? (xs : Slots) (i : Int) : Option Handle := do
  let p ← place? xs.length i
  (xs[p]?).join

/-- Whether a value is at an index. -/
def has (xs : Slots) (i : Int) : Bool := (fetch? xs i).isSome

/-- Put a value at a place, with holes up to it: the former value and the new slots. -/
def put (xs : Slots) (p : Nat) (h : Handle) : Option Handle × Slots :=
  let grown := xs ++ List.replicate (p + 1 - xs.length) none
  ((xs[p]?).join, grown.set p (some h))

@[simp] theorem length_put (xs : Slots) (p : Nat) (h : Handle) :
    (xs.put p h).2.length = max xs.length (p + 1) := by
  simp only [put, List.length_set, List.length_append, List.length_replicate]
  omega

@[simp] theorem getElem?_put_self (xs : Slots) (p : Nat) (h : Handle) :
    (xs.put p h).2[p]? = some (some h) := by
  rw [put, List.getElem?_set_self]
  simp only [List.length_append, List.length_replicate]
  omega

/-- Storing leaves the other slots alone. -/
theorem getElem?_put_ne (xs : Slots) {p q : Nat} (h : Handle) (hq : q < xs.length) (hne : q ≠ p) :
    (xs.put p h).2[q]? = xs[q]? := by
  rw [put, List.getElem?_set_ne (Ne.symm hne), List.getElem?_append_left hq]

/-- The slots without the holes at the end. -/
def trim (xs : Slots) : Slots := (xs.reverse.dropWhile (·.isNone)).reverse

/-- Take the value at an index out: the value and the new slots, trimmed. An index outside changes
nothing. -/
def take (xs : Slots) (i : Int) : Option Handle × Slots :=
  match place? xs.length i with
  | some p =>
    if p < xs.length then ((xs[p]?).join, trim (xs.set p none)) else (none, xs)
  | none => (none, xs)

/-- Take the last slot off. -/
def pop (xs : Slots) : Option Handle × Slots := (xs.getLast?.join, xs.dropLast)

/-- Take the first slot off. -/
def shift (xs : Slots) : Option Handle × Slots := (xs.head?.join, xs.tail)

/-- Holes in front. -/
def unshift (xs : Slots) (n : Nat) : Slots := List.replicate n none ++ xs

end Slots

end ValueMachine

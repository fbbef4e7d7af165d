/-! Piles: sequences that grow and shrink at the top and know their height. Read from the bottom, a
pile is the list of what was put on it. -/

namespace ValueMachine

/-- A pile with its top first. -/
structure Pile (α : Type) where
  items : List α
  height : Nat
  height_eq : height = items.length

namespace Pile

def empty : Pile α := ⟨[], 0, rfl⟩

/-- The pile from the bottom to the top. -/
def toList (p : Pile α) : List α := p.items.reverse

def push (p : Pile α) (a : α) : Pile α := ⟨a :: p.items, p.height + 1, by simp [p.height_eq]⟩

/-- Put things on a pile, the last of them on top. -/
def pushAll (p : Pile α) (xs : List α) : Pile α := xs.foldl push p

def top? (p : Pile α) : Option α := p.items.head?

/-- Take the top off. -/
def pop (p : Pile α) : Pile α := ⟨p.items.drop 1, p.height - 1, by simp [p.height_eq]⟩

/-- What lies above a height, from the top down. -/
def downTo (p : Pile α) (n : Nat) : List α := p.items.take (p.height - n)

/-- What lies above a height, from there to the top. -/
def above (p : Pile α) (n : Nat) : List α := (p.downTo n).reverse

/-- Take off what lies above a height. -/
def cut (p : Pile α) (n : Nat) : Pile α :=
  ⟨p.items.drop (p.height - n), p.height - (p.height - n), by simp [p.height_eq]⟩

/-- What lies at a height. -/
def get? (p : Pile α) (n : Nat) : Option α :=
  if n < p.height then p.items[p.height - 1 - n]? else none

/-- Change what lies at a height. -/
def set (p : Pile α) (n : Nat) (a : α) : Pile α :=
  if n < p.height then ⟨p.items.set (p.height - 1 - n) a, p.height, by simp [p.height_eq]⟩ else p

theorem length_toList (p : Pile α) : p.toList.length = p.height := by
  simp [toList, p.height_eq]

@[simp] theorem toList_empty : (empty : Pile α).toList = [] := rfl

@[simp] theorem toList_push (p : Pile α) (a : α) : (p.push a).toList = p.toList ++ [a] := by
  simp [toList, push]

@[simp] theorem toList_pushAll (p : Pile α) (xs : List α) :
    (p.pushAll xs).toList = p.toList ++ xs := by
  induction xs generalizing p with
  | nil => simp [pushAll]
  | cons a xs ih =>
    have h := ih (p.push a)
    simp only [pushAll, List.foldl_cons] at h ⊢
    simp [h]

@[simp] theorem toList_pop (p : Pile α) : p.pop.toList = p.toList.dropLast := by
  cases p with
  | mk items height h => cases items <;> simp [toList, pop]

theorem toList_cut (p : Pile α) (n : Nat) : (p.cut n).toList = p.toList.take n := by
  simp [toList, cut, List.take_reverse, p.height_eq]

theorem above_eq_drop (p : Pile α) (n : Nat) : p.above n = p.toList.drop n := by
  simp [above, downTo, toList, List.drop_reverse, p.height_eq]

theorem get?_eq (p : Pile α) (n : Nat) : p.get? n = p.toList[n]? := by
  by_cases hn : n < p.height
  · have h := p.height_eq
    rw [get?, if_pos hn, toList, List.getElem?_reverse (by omega), h]
  · have h : p.toList.length ≤ n := by rw [length_toList]; omega
    rw [get?, if_neg hn, List.getElem?_eq_none h]

@[simp] theorem height_push (p : Pile α) (a : α) : (p.push a).height = p.height + 1 := rfl

end Pile

end ValueMachine

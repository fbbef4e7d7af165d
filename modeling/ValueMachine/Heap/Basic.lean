import ValueMachine.Heap.Cell

/-! The heap: cells in the order in which they were made. A place is never used twice, so a handle
denotes one value for good, and what is read at a place is what was last written there. -/

namespace ValueMachine

/-- Cells by place. -/
structure Heap where
  cells : Array Cell

namespace Heap

def empty : Heap := ⟨#[]⟩

def size (H : Heap) : Nat := H.cells.size

/-- The cell at a place; a place that was never made holds a freed cell. -/
def get (H : Heap) (h : Handle) : Cell := H.cells.getD h.index .freed

def set (H : Heap) (h : Handle) (c : Cell) : Heap := ⟨H.cells.setIfInBounds h.index c⟩

def update (H : Heap) (h : Handle) (f : Cell → Cell) : Heap := H.set h (f (H.get h))

/-- The next place. -/
def next (H : Heap) : Handle := ⟨H.cells.size⟩

/-- A new cell at the next place. -/
def push (H : Heap) (c : Cell) : Heap := ⟨H.cells.push c⟩

@[simp] theorem size_set (H : Heap) (h : Handle) (c : Cell) : (H.set h c).size = H.size := by
  simp [set, size]

@[simp] theorem size_push (H : Heap) (c : Cell) : (H.push c).size = H.size + 1 := by
  simp [push, size]

theorem get_set_self (H : Heap) (h : Handle) (c : Cell) (hs : h.index < H.size) :
    (H.set h c).get h = c := by
  simp only [size] at hs
  simp [get, set, Array.getD_eq_getD_getElem?, hs]

theorem get_set_ne (H : Heap) (h k : Handle) (c : Cell) (hk : k ≠ h) :
    (H.set h c).get k = H.get k := by
  have : h.index ≠ k.index := fun e => hk (by cases h; cases k; simp_all)
  simp [get, set, Array.getD_eq_getD_getElem?, this]

@[simp] theorem get_push_next (H : Heap) (c : Cell) : (H.push c).get H.next = c := by
  simp [get, push, next, Array.getD_eq_getD_getElem?]

theorem get_push_ne (H : Heap) (h : Handle) (c : Cell) (hn : h ≠ H.next) :
    (H.push c).get h = H.get h := by
  have : h.index ≠ H.cells.size := fun e => hn (by cases h; simp_all [next])
  simp [get, push, Array.getD_eq_getD_getElem?, Array.getElem?_push, this]

end Heap

end ValueMachine

import ValueMachine.Heap.Cell

/-! The entries of a hash and its cursor. The cursor is a list of keys taken when an iteration
starts; a step passes over the keys that are gone, and an iteration that has ended stays ended. -/

namespace ValueMachine.Table

def empty : Table := ⟨[], none⟩

def size (t : Table) : Nat := t.entries.length

/-- The value under a key. -/
def get? (t : Table) (key : Bytes) : Option Handle := t.entries.lookup key

/-- Entries with a value under a key: in the place of the former one, or at the end. -/
def put (key : Bytes) (h : Handle) : List (Bytes × Handle) → List (Bytes × Handle)
  | [] => [(key, h)]
  | (k, v) :: rest => if k == key then (key, h) :: rest else (k, v) :: put key h rest

/-- The table with a value under a key. -/
def insert (t : Table) (key : Bytes) (h : Handle) : Table :=
  { t with entries := put key h t.entries }

/-- The table without a key. -/
def erase (t : Table) (key : Bytes) : Table :=
  { t with entries := t.entries.filter (·.1 != key) }

theorem lookup_entry (key k : Bytes) (v : Handle) (rest : List (Bytes × Handle)) :
    ((k, v) :: rest).lookup key = if key = k then some v else rest.lookup key := by
  rw [List.lookup_cons]
  by_cases hk : key = k
  · simp [hk]
  · simp [hk, beq_eq_false_iff_ne.2 hk]

theorem lookup_put (key other : Bytes) (h : Handle) (entries : List (Bytes × Handle)) :
    (put key h entries).lookup other = if other = key then some h else entries.lookup other := by
  induction entries with
  | nil => simp [put, lookup_entry]
  | cons entry rest ih =>
    obtain ⟨k, v⟩ := entry
    by_cases hk : k = key
    · subst hk
      by_cases ho : other = k <;> simp [put, lookup_entry, ho]
    · by_cases ho : other = k
      · subst ho
        simp [put, hk]
      · simp [put, lookup_entry, hk, ho, ih]

/-- A key that was stored has the stored value, and the others keep theirs. -/
theorem get?_insert (t : Table) (key other : Bytes) (h : Handle) :
    (t.insert key h).get? other = if other = key then some h else t.get? other :=
  lookup_put key other h t.entries

theorem lookup_filter_ne (key other : Bytes) (entries : List (Bytes × Handle)) :
    (entries.filter (·.1 != key)).lookup other
      = if other = key then none else entries.lookup other := by
  induction entries with
  | nil => simp
  | cons entry rest ih =>
    obtain ⟨k, v⟩ := entry
    by_cases hk : k = key
    · rw [List.filter_cons_of_neg (by simp [hk]), ih]
      by_cases ho : other = key <;> simp [lookup_entry, hk, ho]
    · by_cases ho : other = k
      · subst ho
        simp [hk]
      · simp [lookup_entry, hk, ho, ih]

/-- A key that was taken out has no value, and the others keep theirs. -/
theorem get?_erase (t : Table) (key other : Bytes) :
    (t.erase key).get? other = if other = key then none else t.get? other :=
  lookup_filter_ne key other t.entries

def keys (t : Table) : List Bytes := t.entries.map (·.1)

/-- The table at the start of an iteration. -/
def start (t : Table) : Table := { t with cursor := some t.keys }

/-- The first of some keys that is still there, with its value and the keys after it. -/
def nextIn (t : Table) : List Bytes → Option ((Bytes × Handle) × List Bytes)
  | [] => none
  | key :: rest =>
    match t.get? key with
    | some h => some ((key, h), rest)
    | none => nextIn t rest

/-- One step of the iteration: the entry it comes to, if any, and the table after it. -/
def step (t : Table) : Option (Bytes × Handle) × Table :=
  match t.cursor with
  | none => (none, t)
  | some keys =>
    match t.nextIn keys with
    | some (entry, rest) => (some entry, { t with cursor := some rest })
    | none => (none, { t with cursor := none })

/-- An iteration only looks. -/
@[simp] theorem entries_step (t : Table) : t.step.2.entries = t.entries := by
  unfold step
  split <;> (try split) <;> rfl

/-- An iteration that has ended stays ended. -/
theorem step_of_cursor_eq_none (t : Table) (h : t.cursor = none) : t.step = (none, t) := by
  simp [step, h]

end ValueMachine.Table

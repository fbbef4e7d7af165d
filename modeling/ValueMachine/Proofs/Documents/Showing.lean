import ValueMachine.Host.Document
import ValueMachine.Proofs.Calls.Outcomes
import ValueMachine.Proofs.Documents.Rendering

/-! Values that show a document, and the reading of the document off them. A container lies below
the values in it, so a cursor that a reading moves belongs to no container that is being read. -/

namespace ValueMachine

/-- A cell after a reading: its count has grown at most and, below a bound, its cursor moved. -/
structure Cell.Agrees (below : Prop) (c c' : Cell) : Prop where
  immortal : c'.immortal = c.immortal
  magic : c'.magic = c.magic
  count_le : c.count ≤ c'.count
  body : c'.body = c.body ∨
    below ∧ ∃ t cursor, c.body = .hash t ∧ c'.body = .hash { t with cursor := cursor }

namespace Cell.Agrees

variable {below below' : Prop} {c c₁ c₂ c₃ : Cell}

theorem refl (c : Cell) : c.Agrees below c := ⟨rfl, rfl, le_rfl, .inl rfl⟩

theorem trans (h : c₁.Agrees below c₂) (h' : c₂.Agrees below c₃) : c₁.Agrees below c₃ where
  immortal := h'.immortal.trans h.immortal
  magic := h'.magic.trans h.magic
  count_le := h.count_le.trans h'.count_le
  body := by
    rcases h.body with he | ⟨hk, t, cursor, hb, hb'⟩
    · rw [← he]
      exact h'.body
    · rcases h'.body with he | ⟨-, t', cursor', hb₂, hb₃⟩
      · exact .inr ⟨hk, t, cursor, hb, he.trans hb'⟩
      · cases hb'.symm.trans hb₂
        exact .inr ⟨hk, t, cursor', hb, hb₃⟩

theorem mono (h : c₁.Agrees below c₂) (hle : below → below') : c₁.Agrees below' c₂ :=
  { h with body := h.body.imp_right (And.imp_left hle) }

end Cell.Agrees

namespace Machine

variable {m m₁ m₂ m₃ m' : Machine} {bound bound' : Nat} {h : Handle} {b : Body} {j : Json}

/-- A value that is counted, is there, and has this body. -/
structure Lives (m : Machine) (h : Handle) (b : Body) : Prop where
  body : m.body h = b
  counted : (m.cell h).immortal = false
  count_ne_zero : (m.cell h).count ≠ 0

/-- A value shows a document: a scalar by its only slot, and a container as the referent of one. The
container lies below the bound, and those of its elements lie below it. -/
inductive Shows (m : Machine) : Nat → Json → Handle → Prop where
  | null {bound : Nat} {h : Handle} (hb : m.Lives h (.scalar .undefined)) : Shows m bound .null h
  | int {bound : Nat} {h : Handle} {n : Int} (hb : m.Lives h (.scalar (.ofWide (.ofInt n)))) :
      Shows m bound (.int n) h
  | text {bound : Nat} {h : Handle} {s : String} (hb : m.Lives h (.scalar (.ofText s))) :
      Shows m bound (.text s) h
  | list {bound : Nat} {h array : Handle} {items : List Json} {values : List Handle}
      (hb : m.Lives h (.scalar (.ofTarget array))) (hlt : array.index < bound)
      (harray : m.Lives array (.array (values.map some))) (hlen : items.length = values.length)
      (hitems : ∀ p ∈ items.zip values, Shows m array.index p.1 p.2) : Shows m bound (.list items) h
  | object {bound : Nat} {h table : Handle} {fields : List (String × Json)}
      {entries : List (Bytes × Handle)} {cursor : Option (List Bytes)}
      (hb : m.Lives h (.scalar (.ofTarget table))) (hlt : table.index < bound)
      (htable : m.Lives table (.hash ⟨entries, cursor⟩))
      (hlen : fields.length = entries.length)
      (hkeys : ∀ p ∈ fields.zip entries, p.2.1 = Bytes.ofText p.1.1)
      (hfields : ∀ p ∈ fields.zip entries, Shows m table.index p.1.2 p.2.2) :
      Shows m bound (.object fields) h

/-- A machine after a reading: counts have grown at most, and cursors of hashes below a bound have
moved. -/
structure Agrees (bound : Nat) (m m' : Machine) : Prop where
  here : m'.here = m.here
  cell : ∀ h, (m.cell h).Agrees (h.index < bound) (m'.cell h)

namespace Agrees

theorem refl (m : Machine) : m.Agrees bound m := ⟨rfl, fun _ => .refl _⟩

theorem trans (h : m₁.Agrees bound m₂) (h' : m₂.Agrees bound m₃) : m₁.Agrees bound m₃ :=
  ⟨h'.here.trans h.here, fun k => (h.cell k).trans (h'.cell k)⟩

theorem mono (h : m.Agrees bound m') (hle : bound ≤ bound') : m.Agrees bound' m' :=
  ⟨h.here, fun k => (h.cell k).mono fun hk => hk.trans_le hle⟩

theorem set {c : Cell} (ha : m.Agrees bound m') (hc : (m.cell h).Agrees (h.index < bound) c) :
    m.Agrees bound (m'.onHeap (·.set h c)) := by
  refine ⟨ha.here, fun k => ?_⟩
  simp only [Machine.cell, heap_onHeap, Heap.get_set]
  split
  next hk => rw [hk.1]; exact hc
  next => exact ha.cell k

theorem retain (m : Machine) (h : Handle) (bound : Nat) : m.Agrees bound (m.retain h) := by
  unfold Machine.retain
  split
  · exact refl m
  · exact (refl m).set ⟨rfl, rfl, Nat.le_succ _, .inl rfl⟩

theorem log (m : Machine) (log : Log) (bound : Nat) : m.Agrees bound { m with log := log } :=
  ⟨rfl, fun _ => .refl _⟩

theorem tame (h : m.Agrees bound m') (ht : m.heap.Tame) : m'.heap.Tame where
  reads k g hg := ht.reads k g ((h.cell k).magic ▸ hg)
  formed k s hs := by
    rcases (h.cell k).body with he | ⟨-, t, cursor, -, hb⟩
    · exact ht.formed k s (he ▸ hs)
    · cases hb.symm.trans hs

end Agrees

theorem cell_retain (hi : (m.cell h).immortal = false) (hs : h.index < m.heap.size) :
    (m.retain h).cell h = { m.cell h with count := (m.cell h).count + 1 } := by
  rw [retain, if_neg (by simp [hi])]
  exact Heap.get_set_self _ _ _ hs

/-- The release of a value that has another count. -/
theorem release_of_one_lt (hi : (m.cell h).immortal = false) (hc : 1 < (m.cell h).count) :
    m.release h = m.onHeap (·.set h { m.cell h with count := (m.cell h).count - 1 }) := by
  have hpos : (m.cell h).count ≠ 0 := by omega
  simp only [release, releaseWithin, hi, hpos, Bool.false_or, decide_false, hc, if_true,
    Bool.false_eq_true, if_false]

namespace Lives

theorem of_body (hb : m.Lives h b) (ha : m.Agrees bound m') {b' : Body} (hb' : m'.body h = b') :
    m'.Lives h b' where
  body := hb'
  counted := (ha.cell h).immortal.trans hb.counted
  count_ne_zero h0 := hb.count_ne_zero (Nat.le_zero.1 (h0 ▸ (ha.cell h).count_le))

theorem agrees (hb : m.Lives h b) (ha : m.Agrees bound m') (hhash : ∀ t, b ≠ .hash t) :
    m'.Lives h b := by
  refine hb.of_body ha (((ha.cell h).body.resolve_right ?_).trans hb.body)
  rintro ⟨-, t, -, ht, -⟩
  exact hhash t (hb.body.symm.trans ht)

/-- Of a hash the cursor may move. -/
theorem agrees_hash {t : Table} (hb : m.Lives h (.hash t)) (ha : m.Agrees bound m') :
    ∃ cursor, m'.Lives h (.hash { t with cursor := cursor }) := by
  rcases (ha.cell h).body with he | ⟨-, t', cursor, ht, hb'⟩
  · exact ⟨t.cursor, hb.of_body ha (he.trans hb.body)⟩
  · cases hb.body.symm.trans ht
    exact ⟨cursor, hb.of_body ha hb'⟩

/-- Above the bound no cursor moves. -/
theorem agrees_above (hb : m.Lives h b) (ha : m.Agrees bound m') (hle : bound ≤ h.index) :
    m'.Lives h b :=
  hb.of_body ha (((ha.cell h).body.resolve_right fun hlt =>
    absurd hlt.1 (Nat.not_lt.2 hle)).trans hb.body)

theorem index_lt (hb : m.Lives h b) : h.index < m.heap.size := by
  by_contra hs
  refine hb.count_ne_zero ?_
  rw [cell, m.heap.get_of_size_le (Nat.not_lt.1 hs)]
  rfl

/-- A value that was held for a while and read. -/
theorem dropAll (hb : m.Lives h b) (ha : (m.retain h).Agrees bound m') :
    m.Agrees bound (m'.dropAll [⟨h, m.here⟩]) := by
  have hall := (Agrees.retain m h bound).trans ha
  have hcount : (m.cell h).count + 1 ≤ (m'.cell h).count := by
    have hle := (ha.cell h).count_le
    rwa [cell_retain hb.counted hb.index_lt] at hle
  have hne := hb.count_ne_zero
  have hrelease := release_of_one_lt ((hall.cell h).immortal.trans hb.counted) (by omega)
  have hback (c : Cell) : (m'.onHeap (·.set h c)).focus m'.here = m'.onHeap (·.set h c) :=
    focus_self rfl
  simp only [Machine.dropAll, List.foldl_cons, List.foldl_nil, drop]
  split
  · rw [within, focus_self hall.here, hrelease, hback]
    exact hall.set { hall.cell h with count_le := Nat.le_sub_one_of_lt hcount }
  · exact hall

end Lives

namespace Shows

theorem lives (hs : m.Shows bound j h) : ∃ s, m.Lives h (.scalar s) := by
  cases hs with
  | null hb | int hb | text hb | list hb | object hb => exact ⟨_, hb⟩

theorem mono (hs : m.Shows bound j h) (hle : bound ≤ bound') : m.Shows bound' j h := by
  cases hs with
  | null hb => exact .null hb
  | int hb => exact .int hb
  | text hb => exact .text hb
  | list hb hlt harray hlen hitems => exact .list hb (hlt.trans_le hle) harray hlen hitems
  | object hb hlt htable hlen hkeys hfields =>
    exact .object hb (hlt.trans_le hle) htable hlen hkeys hfields

theorem agrees (hs : m.Shows bound j h) (ha : m.Agrees bound' m') : m'.Shows bound j h := by
  induction hs with
  | null hb => exact .null (hb.agrees ha (by simp))
  | int hb => exact .int (hb.agrees ha (by simp))
  | text hb => exact .text (hb.agrees ha (by simp))
  | list hb hlt harray hlen hitems ih =>
    exact .list (hb.agrees ha (by simp)) hlt (harray.agrees ha (by simp)) hlen ih
  | object hb hlt htable hlen hkeys hfields ih =>
    obtain ⟨cursor, htable'⟩ := htable.agrees_hash ha
    exact .object (hb.agrees ha (by simp)) hlt htable' hlen hkeys ih

end Shows

end Machine

end ValueMachine

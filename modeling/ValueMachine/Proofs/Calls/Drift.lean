import ValueMachine.Proofs.Calls.Values
import ValueMachine.Proofs.Ownership.Release

/-! Machines some steps later. Most steps write no scalar: they make values and globals, change
containers, and release. Such a step ages the machine, which leaves every scalar as it was or frees
it, and makes no global denote a value that another one denotes. -/

namespace ValueMachine

/-- A body some steps later. -/
def Body.Drifts (b b' : Body) : Prop :=
  b' = b ∨ b' = .freed ∨ ((b.array?.isSome ∨ b.hash?.isSome) ∧ (b'.array?.isSome ∨ b'.hash?.isSome))

namespace Body.Drifts

variable {b b₁ b₂ b₃ : Body} {s : Scalar}

theorem refl (b : Body) : b.Drifts b := .inl rfl

theorem freed (b : Body) : b.Drifts .freed := .inr (.inl rfl)

theorem array (xs ys : Slots) : (Body.array xs).Drifts (.array ys) := .inr (.inr ⟨.inl rfl, .inl rfl⟩)

theorem hash (t u : Table) : (Body.hash t).Drifts (.hash u) := .inr (.inr ⟨.inr rfl, .inr rfl⟩)

theorem of_freed (h : Body.freed.Drifts b) : b = .freed := by
  rcases h with h | h | ⟨h, -⟩
  · exact h
  · exact h
  · simp [array?, hash?] at h

theorem of_scalar (h : (Body.scalar s).Drifts b) : b = .scalar s ∨ b = .freed := by
  rcases h with h | h | ⟨h, -⟩
  · exact .inl h
  · exact .inr h
  · simp [array?, hash?] at h

/-- A scalar has been there before. -/
theorem eq_scalar (h : b.Drifts (.scalar s)) : b = .scalar s := by
  rcases h with h | h | ⟨-, h⟩
  · exact h.symm
  · cases h
  · simp [array?, hash?] at h

theorem trans (h : b₁.Drifts b₂) (h' : b₂.Drifts b₃) : b₁.Drifts b₃ := by
  rcases h with rfl | rfl | ⟨h₁, h₂⟩
  · exact h'
  · rw [h'.of_freed]
    exact .freed _
  · rcases h' with rfl | rfl | ⟨-, h₃⟩
    · exact .inr (.inr ⟨h₁, h₂⟩)
    · exact .freed _
    · exact .inr (.inr ⟨h₁, h₃⟩)

theorem formed (h : b.Drifts b₁) (hb : b.Formed) : b₁.Formed := fun s hs => by
  subst hs
  exact hb s h.eq_scalar

end Body.Drifts

/-- A record of hooks none of which writes before a read. -/
def Magic.Tame (g : Magic) : Prop := ReadAction.tick ∉ g.table.onRead

namespace Heap

/-- No read hook writes, and scalars are formed. -/
structure Tame (H : Heap) : Prop where
  reads : ∀ h, ∀ g ∈ (H.get h).magic, g.Tame
  formed : ∀ h, (H.get h).body.Formed

/-- The heap some steps later. -/
structure Drifts (H H' : Heap) : Prop where
  size_le : H.size ≤ H'.size
  body : ∀ {h}, h.index < H.size → (H.get h).body.Drifts (H'.get h).body

variable {H H₁ H₂ H₃ : Heap}

theorem Drifts.refl (H : Heap) : H.Drifts H := ⟨le_rfl, fun _ => .refl _⟩

theorem Drifts.trans (h : H₁.Drifts H₂) (h' : H₂.Drifts H₃) : H₁.Drifts H₃ :=
  ⟨h.size_le.trans h'.size_le, fun hk => (h.body hk).trans (h'.body (hk.trans_le h.size_le))⟩

theorem Drifts.set (H : Heap) (h : Handle) {c : Cell} (hb : (H.get h).body.Drifts c.body) :
    H.Drifts (H.set h c) := by
  refine ⟨by simp, fun {k} _ => ?_⟩
  rw [get_set]
  split
  next hk => rw [hk.1]; exact hb
  next => exact .refl _

theorem Drifts.push (H : Heap) (c : Cell) : H.Drifts (H.push c) := by
  refine ⟨by simp, fun {k} hk => ?_⟩
  have hnext : k ≠ H.next := by
    rintro rfl
    exact lt_irrefl _ hk
  rw [get_push, if_neg hnext]
  exact .refl _

theorem Tame.set (hH : H.Tame) (h : Handle) {c : Cell} (hc : ∀ g ∈ c.magic, g.Tame)
    (hb : c.body.Formed) : (H.set h c).Tame := by
  constructor <;> intro k <;> rw [get_set] <;> split
  · exact hc
  · exact hH.reads k
  · exact hb
  · exact hH.formed k

theorem Tame.push (hH : H.Tame) {b : Body} (hb : b.Formed) : (H.push (.fresh b)).Tame := by
  constructor <;> intro k <;> rw [get_push] <;> split
  · simp [Cell.fresh]
  · exact hH.reads k
  · exact hb
  · exact hH.formed k

theorem tame_of_all {H : Heap}
    (h : H.cells.toList.all (fun c => c.magic.isEmpty && c.body.owned.isEmpty) = true) :
    H.Tame := by
  have hcell (k : Handle) : (H.get k).magic = [] ∧ (H.get k).body.owned = [] := by
    by_cases hk : k.index < H.cells.toList.length
    · rw [get_eq_getElem H hk]
      simpa using List.all_eq_true.1 h _ (List.getElem_mem hk)
    · rw [get_of_size_le H (by simpa [size] using hk)]
      exact ⟨rfl, rfl⟩
  refine ⟨fun k g hg => ?_, fun k s hs => Scalar.formed_of_target ?_⟩
  · rw [(hcell k).1] at hg
    cases hg
  · have howned := (hcell k).2
    rw [hs] at howned
    simpa [Body.owned, Scalar.owned] using howned

end Heap

namespace Machine

/-- The error variable, if it has been created. -/
def errorHandle? (m : Machine) : Option Handle := m.global? .scalar "@"

/-- A global scalar that has been made, and since then freed at most. -/
def Made (m : Machine) (h : Handle) : Prop :=
  h.index < m.heap.size ∧ (m.body h = .freed ∨ m.body h = .scalar .undefined)

/-- The machine after steps that write no scalar. -/
structure Drifts (m m' : Machine) : Prop where
  heap : m.heap.Drifts m'.heap
  tame : m'.heap.Tame
  error : ∀ {h}, m'.interp.error = some h → m.interp.error = some h ∨ m'.errorHandle? = some h
  modules : m'.interp.modules = m.interp.modules
  keeps : ∀ {name h}, m.global? .scalar name = some h → m'.global? .scalar name = some h
  makes : ∀ {name h}, m'.global? .scalar name = some h → m.global? .scalar name = some h ∨ m'.Made h
  /-- A value that two globals denote now they denoted before. -/
  single : ∀ {name name' h}, m'.global? .scalar name = some h →
    m'.global? .scalar name' = some h → Qualified.qualify name' = Qualified.qualify name ∨
      m.global? .scalar name = some h ∧ m.global? .scalar name' = some h

variable {m m' m₁ m₂ m₃ : Machine} {h : Handle}

theorem body_drifts (hH : m.heap.Drifts m'.heap) (hh : h.index < m.heap.size) :
    (m.body h).Drifts (m'.body h) :=
  hH.body hh

theorem Made.drifts (hm : m.Made h) (hH : m.heap.Drifts m'.heap) : m'.Made h := by
  obtain ⟨hlt, hb⟩ := hm
  have hdrift := body_drifts hH hlt
  refine ⟨hlt.trans_le hH.size_le, ?_⟩
  rcases hb with hb | hb
  · exact .inl (Body.Drifts.of_freed (hb ▸ hdrift))
  · exact (Body.Drifts.of_scalar (hb ▸ hdrift)).symm

namespace Drifts

theorem trans (h : m₁.Drifts m₂) (h' : m₂.Drifts m₃) : m₁.Drifts m₃ where
  heap := h.heap.trans h'.heap
  tame := h'.tame
  error hk := by
    rcases h'.error hk with hk | hk
    · exact (h.error hk).imp id h'.keeps
    · exact .inr hk
  modules := h'.modules.trans h.modules
  keeps hk := h'.keeps (h.keeps hk)
  makes hk := by
    rcases h'.makes hk with hk | hmade
    · exact (h.makes hk).imp id fun hmade => hmade.drifts h'.heap
    · exact .inr hmade
  single hk hk' := by
    rcases h'.single hk hk' with hname | ⟨hk, hk'⟩
    · exact .inl hname
    · exact h.single hk hk'

/-- A step that leaves the globals alone. -/
theorem of_heap (heap : m.heap.Drifts m'.heap) (tame : m'.heap.Tame)
    (error : m'.interp.error = m.interp.error := by rfl)
    (modules : m'.interp.modules = m.interp.modules := by rfl)
    (globals : ∀ name, m'.global? .scalar name = m.global? .scalar name := by intro; rfl) :
    m.Drifts m' where
  heap := heap
  tame := tame
  error hk := .inl (error ▸ hk)
  modules := modules
  keeps hk := (globals _).trans hk
  makes hk := .inl ((globals _).symm.trans hk)
  single hk hk' := .inr ⟨(globals _).symm.trans hk, (globals _).symm.trans hk'⟩

theorem refl (hm : m.heap.Tame) : m.Drifts m := of_heap (.refl _) hm

/-- A cell whose value stays, is freed, or is a container with other contents. -/
theorem set (hm : m.heap.Tame) {c : Cell} (hb : (m.body h).Drifts c.body)
    (hc : ∀ g ∈ c.magic, g.Tame) : m.Drifts (m.onHeap (·.set h c)) :=
  of_heap (.set _ h hb) (hm.set h hc (hb.formed (hm.formed h)))

theorem setBody (hm : m.heap.Tame) {b : Body} (hb : (m.body h).Drifts b) :
    m.Drifts (m.setBody h b) :=
  set hm (c := { m.cell h with body := b }) hb (hm.reads h)

theorem alloc (hm : m.heap.Tame) {b : Body} (hb : b.Formed) : m.Drifts (m.alloc b).2 :=
  of_heap (.push _ _) (hm.push hb)

theorem retain (hm : m.heap.Tame) (h : Handle) : m.Drifts (m.retain h) := by
  unfold Machine.retain
  split
  · exact refl hm
  · exact set hm (c := { m.cell h with count := (m.cell h).count + 1 }) (.refl _) (hm.reads h)

theorem attach (hm : m.heap.Tame) (h : Handle) {g : Magic} (hg : g.Tame) :
    m.Drifts (m.attach h g) := by
  refine set hm (c := { m.cell h with magic := (m.cell h).magic ++ [g] }) (.refl _) fun g' hg' => ?_
  rcases List.mem_append.1 hg' with hg' | hg'
  · exact hm.reads h g' hg'
  · rwa [List.mem_singleton.1 hg']

end Drifts

/-! ### Globals -/

theorem global_of_none {s : Sigil} {name : String} (hnone : m.global? s name = none) :
    m.global s name = (m.heap.next, (m.alloc (newGlobalBody s name)).2.updateGlob
      (Qualified.qualify name) (·.set s m.heap.next)) := by
  simp only [global, hnone]
  rfl

/-- A global that was missing is made as the next value. -/
theorem global?_global_of_none (s s' : Sigil) (name name' : String)
    (hnone : m.global? s name = none) : (m.global s name).2.global? s' name' =
      if s' = s ∧ Qualified.qualify name' = Qualified.qualify name then some m.heap.next
      else m.global? s' name' := by
  have halloc (n : String) : (m.alloc (newGlobalBody s name)).2.glob? n = m.glob? n := rfl
  rw [global_of_none hnone]
  simp only [global?, glob?_updateGlob, halloc]
  by_cases hq : Qualified.qualify name' = Qualified.qualify name
  · by_cases hs : s' = s
    · simp [hq, hs, Glob.get_set]
    · rw [if_pos hq, if_neg fun h => hs h.1, hq]
      cases m.glob? (Qualified.qualify name) with
      | some g => simp [Glob.get_set, hs]
      | none =>
        show (Glob.empty.set s m.heap.next).get s' = none
        rw [Glob.get_set, if_neg hs]
        cases s' <;> rfl
  · rw [if_neg hq, if_neg fun h => hq h.2]

/-- The globals denote values that have been made. -/
def Bounded (m : Machine) : Prop :=
  ∀ name h, m.global? .scalar name = some h → h.index < m.heap.size

theorem Bounded.drifts (hm : m.Bounded) (hd : m.Drifts m') : m'.Bounded := fun name h hk => by
  rcases hd.makes hk with hk | hmade
  · exact (hm name h hk).trans_le hd.heap.size_le
  · exact hmade.1

namespace Drifts

/-- A global that is made is a new value. -/
theorem global (hm : m.heap.Tame) (hb : m.Bounded) (s : Sigil) (name : String) :
    m.Drifts (m.global s name).2 := by
  cases hg : m.global? s name with
  | some h =>
    simp only [Machine.global, hg]
    exact refl hm
  | none =>
    have hformed : (newGlobalBody s name).Formed := by cases s <;> simp [newGlobalBody, Body.Formed]
    have hheap : (m.global s name).2.heap = m.heap.push (.fresh (newGlobalBody s name)) := by
      rw [global_of_none hg, updateGlob_set]
      rfl
    have hglobal (s' : Sigil) (name' : String) := global?_global_of_none s s' name name' hg
    have hnew {n : String} {k : Handle} (hk : m.global? .scalar n = some k) : k ≠ m.heap.next := by
      rintro rfl
      exact lt_irrefl _ (hb _ _ hk)
    refine ⟨hheap ▸ .push _ _, hheap ▸ hm.push hformed, fun hk => .inl ?_, ?_,
      global?_global m .scalar s _ name _, fun {n k} hk => ?_, fun {n n' k} hk hk' => ?_⟩
    · rw [← hk, global_of_none hg, updateGlob_set]
      rfl
    · rw [global_of_none hg, updateGlob_set]
      rfl
    · rw [hglobal] at hk
      split at hk
      next hs =>
        cases hk
        obtain ⟨rfl, -⟩ := hs
        refine .inr ⟨by rw [hheap, Heap.size_push]; exact Nat.lt_succ_self _, .inr ?_⟩
        rw [body, cell, hheap, Heap.get_push_next]
        rfl
      next => exact .inl hk
    · rw [hglobal] at hk hk'
      split at hk <;> split at hk'
      next hs hs' => exact .inl (hs'.2.trans hs.2.symm)
      next => cases hk; exact absurd rfl (hnew hk')
      next => cases hk'; exact absurd rfl (hnew hk)
      next => exact .inr ⟨hk, hk'⟩

end Drifts

theorem global_global? (m : Machine) (s : Sigil) (name : String) :
    (m.global s name).2.global? s name = some (m.global s name).1 := by
  cases hg : m.global? s name with
  | some h => simp only [global, hg]
  | none =>
    rw [global?_global_of_none s s name name hg, if_pos ⟨rfl, rfl⟩, global_of_none hg]

namespace Drifts

theorem errorSlot (hm : m.heap.Tame) (hb : m.Bounded) : m.Drifts m.errorSlot.2 := by
  unfold Machine.errorSlot
  cases he : m.interp.error with
  | some h => exact refl hm
  | none =>
    have hglobal := global hm hb .scalar "@"
    refine { hglobal with error := fun hk => ?_ }
    cases hk
    exact .inr (global_global? m .scalar "@")

/-- A new sub leaves the global scalars alone. -/
theorem updateCode (hm : m.heap.Tame) (q : String) (h : Handle) :
    m.Drifts (m.updateGlob q (·.set .code h)) := by
  refine of_heap (.refl _) hm ?_ ?_ fun name => ?_
  · rw [updateGlob_set]; rfl
  · rw [updateGlob_set]; rfl
  · simp only [global?, glob?_updateGlob]
    split
    next hq => rw [hq]; cases m.glob? q <;> rfl
    next => rfl

/-! ### Releases -/

/-- A release frees values, and lets its hooks make globals. -/
theorem keptByRelease (hb : m.Bounded) : KeptByRelease m.Drifts Magic.Tame where
  records _ h hd := hd.tame.reads h
  lower _ h hd := hd.trans (set hd.tame (.refl _) (hd.tame.reads h))
  strip _ h hd := hd.trans (set hd.tame (.refl _) (by simp))
  noteFreed _ _ hd := hd.trans (of_heap (.refl _) hd.tame)
  revive _ name g hd hg _ := by
    have hglobal := global hd.tame (hb.drifts hd) .scalar name
    exact hd.trans (hglobal.trans (attach hglobal.tame _ hg))
  unclaim _ _ hd := hd.trans (of_heap (.refl _) hd.tame)
  touch _ h _ hd _ _ := hd.trans (retain hd.tame h)
  vacate m' h hd := by
    have hset := set hd.tame (h := h) (c := .freed) (.freed _) (by simp [Cell.freed])
    exact hd.trans (hset.trans (of_heap (.refl _) hset.tame))

theorem release (hm : m.heap.Tame) (hb : m.Bounded) (h : Handle) : m.Drifts (m.release h) :=
  (keptByRelease hb).release h (refl hm)

theorem releaseAll (hm : m.heap.Tame) (hb : m.Bounded) (hs : List Handle) :
    m.Drifts (m.releaseAll hs) :=
  (keptByRelease hb).releaseAll hs (refl hm)

/-- After a scalar has been overwritten, the rest of the store writes none. -/
theorem replaceScalar (hb : m.Bounded) {s former : Scalar}
    (hm : (m.setBody h (.scalar s)).heap.Tame) :
    (m.setBody h (.scalar s)).Drifts (m.replaceScalar h former s) := by
  have hbounded : (m.setBody h (.scalar s)).Bounded := fun name k hk => by
    simpa [Machine.setBody, Heap.update] using hb name k hk
  have hrelease := releaseAll hm hbounded former.owned
  obtain ⟨log, hlog⟩ := ((m.setBody h (.scalar s)).releaseAll former.owned).noteWrite_eq h
  rw [Machine.replaceScalar, hlog]
  exact hrelease.trans (of_heap (.refl _) hrelease.tame)

theorem newSub (hm : m.heap.Tame) (hb : m.Bounded) (name : Option String) (entry : Entry)
    (file : String) (payload : Option Payload) :
    m.Drifts (m.newSub name entry file payload).2 := by
  have hcode (c : Code) : m.Drifts (m.alloc (.code c)).2 := alloc hm (by simp [Body.Formed])
  cases name with
  | none => exact hcode _
  | some n =>
    have halloc := hcode ⟨some (Qualified.qualify n), file, some entry, payload⟩
    have hput := halloc.trans (updateCode halloc.tame (Qualified.qualify n) m.heap.next)
    exact hput.trans (releaseAll hput.tame (hb.drifts hput) _)

end Drifts

/-! ### Another interpreter's values -/

/-- A release on another interpreter may make globals there. -/
theorem keptByRelease_heap (m : Machine) :
    KeptByRelease (fun m' => m'.heap.Tame ∧ m.heap.Drifts m'.heap) Magic.Tame where
  records m' h hd := hd.1.reads h
  lower _ h hd := ⟨hd.1.set h (hd.1.reads h) (hd.1.formed h), hd.2.trans (.set _ h (.refl _))⟩
  strip _ h hd := ⟨hd.1.set h (by simp) (hd.1.formed h), hd.2.trans (.set _ h (.refl _))⟩
  noteFreed _ _ hd := hd
  revive m' name g hd hg _ := by
    have hglobal : (m'.global .scalar name).2.heap.Tame ∧
        m'.heap.Drifts (m'.global .scalar name).2.heap := by
      cases hn : m'.global? .scalar name with
      | some h =>
        simp only [global, hn]
        exact ⟨hd.1, .refl _⟩
      | none =>
        rw [global_of_none hn, updateGlob_set]
        exact ⟨hd.1.push (by simp [newGlobalBody]), .push _ _⟩
    have hattach := Drifts.attach hglobal.1 (m'.global .scalar name).1 hg
    exact ⟨hattach.tame, hd.2.trans (hglobal.2.trans hattach.heap)⟩
  unclaim _ _ hd := hd
  touch m' h _ hd _ _ := ⟨(Drifts.retain hd.1 h).tame, hd.2.trans (Drifts.retain hd.1 h).heap⟩
  vacate _ h hd :=
    ⟨hd.1.set h (by simp [Cell.freed]) (by simp [Cell.freed, Body.Formed]),
      hd.2.trans (.set _ h (.freed _))⟩

end Machine

end ValueMachine

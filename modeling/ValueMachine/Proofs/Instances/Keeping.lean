import ValueMachine.Proofs.Calls.Detached
import ValueMachine.Proofs.Calls.Stacks
import ValueMachine.Proofs.Instances.Records

/-! Steps that make no objects. They keep claims and records in step. No value comes to stand for an
instance by them, and one that stood for an instance still does or has been freed. -/

namespace ValueMachine

namespace Machine

/-- Values stand for what they stood for until they are freed. -/
structure Abides (m m' : Machine) : Prop where
  size_le : m.heap.size ≤ m'.heap.size
  freed : ∀ h, h.index < m.heap.size → m.isFreed h = true → m'.isFreed h = true
  words : ∀ h, (m'.cell h).words = (m.cell h).words ∨
    (m'.cell h).words = [] ∧ m'.isFreed h = true

variable {S : Set InstanceId} {m m' m₁ m₂ m₃ : Machine} {owed : List UInt64} {h : Handle} {c : Cell}

theorem index_lt_of_words (hw : (m.cell h).words ≠ []) : h.index < m.heap.size := by
  by_contra hs
  rw [cell, m.heap.get_of_size_le (Nat.le_of_not_lt hs)] at hw
  exact hw rfl

namespace Abides

theorem refl (m : Machine) : m.Abides m := ⟨le_rfl, fun _ _ h => h, fun _ => .inl rfl⟩

theorem trans (h : m₁.Abides m₂) (h' : m₂.Abides m₃) : m₁.Abides m₃ where
  size_le := h.size_le.trans h'.size_le
  freed k hk hf := h'.freed k (hk.trans_le h.size_le) (h.freed k hk hf)
  words k := by
    rcases h'.words k with hw' | hw'
    · rcases h.words k with hw | ⟨hw, hf⟩
      · exact .inl (hw'.trans hw)
      · by_cases hnil : (m₁.cell k).words = []
        · exact .inl (hw'.trans (hw.trans hnil.symm))
        · have hk := (index_lt_of_words hnil).trans_le h.size_le
          exact .inr ⟨hw'.trans hw, h'.freed k hk hf⟩
    · exact .inr hw'

theorem of_heap_eq (heap : m'.heap = m.heap) : m.Abides m' where
  size_le := by rw [heap]
  freed k _ hf := by rwa [isFreed, body, cell, heap]
  words k := .inl (by rw [cell, cell, heap])

theorem set (hw : c.words = (m.cell h).words)
    (hf : (m.cell h).body.isFreed = true → c.body.isFreed = true) :
    m.Abides (m.onHeap (·.set h c)) where
  size_le := by simp
  freed k _ hk := by
    simp only [isFreed, body, cell, heap_onHeap, Heap.get_set] at hk ⊢
    split
    next he => exact hf (by rw [cell, ← he.1]; exact hk)
    next => exact hk
  words k := by
    left
    simp only [cell, heap_onHeap, Heap.get_set]
    split
    next he => rw [hw, he.1]; rfl
    next => rfl

theorem push (hc : c.magic = []) : m.Abides (m.onHeap (·.push c)) where
  size_le := by simp
  freed k hk hf := by
    have hne : k ≠ m.heap.next := by rintro rfl; exact lt_irrefl _ hk
    simpa only [isFreed, body, cell, heap_onHeap, Heap.get_push, if_neg hne] using hf
  words k := by
    left
    simp only [cell, heap_onHeap, Heap.get_push]
    split
    next hk =>
      have hnext : m.heap.get k = .freed :=
        m.heap.get_of_size_le (by rw [hk]; exact le_rfl)
      rw [hnext, Cell.words_of_magic hc]
      rfl
    next => rfl

/-- Before a value is given up its records are taken off, and its hooks run. -/
theorem around (hs : h.index < m.heap.size) (hm : (m.onHeap (·.set h c)).Abides m') :
    m.Abides (m'.vacate h) := by
  have hsize : m.heap.size ≤ m'.heap.size := by simpa using hm.size_le
  have hcell (k : Handle) : (m'.vacate h).cell k = if k = h then .freed else m'.cell k := by
    simp only [vacate, cell, heap_onInterp, heap_onHeap, Heap.get_set]
    by_cases hk : k = h
    · rw [if_pos ⟨hk, hs.trans_le hsize⟩, if_pos hk]
    · rw [if_neg fun he => hk he.1, if_neg hk]
  have hother (k : Handle) (hk : k ≠ h) : (m.onHeap (·.set h c)).cell k = m.cell k := by
    simp only [cell, heap_onHeap, Heap.get_set, hk, false_and, if_false]
  refine ⟨by simpa [vacate] using hsize, fun k hk hf => ?_, fun k => ?_⟩
  · simp only [isFreed, body, hcell]
    split
    · rfl
    next hne =>
      refine hm.freed k (by simpa using hk) ?_
      rwa [isFreed, body, hother k hne]
  · simp only [isFreed, body, hcell]
    split
    · exact .inr ⟨rfl, rfl⟩
    next hne =>
      rw [← hother k hne]
      exact hm.words k

end Abides

/-- Claims and records stay in step, and values stand for what they stood for. -/
def Keeps (S : Set InstanceId) (m m' : Machine) : Prop :=
  ∀ owed, m.Bridged S owed → m'.Bridged S owed ∧ m.Abides m'

namespace Keeps

theorem refl (m : Machine) : m.Keeps S m := fun _ hm => ⟨hm, .refl m⟩

theorem trans (h : m₁.Keeps S m₂) (h' : m₂.Keeps S m₃) : m₁.Keeps S m₃ := fun owed hm =>
  have h₁ := h owed hm
  have h₂ := h' owed h₁.1
  ⟨h₂.1, h₁.2.trans h₂.2⟩

theorem of_eq (heap : m'.heap = m.heap) (claims : m'.claims = m.claims) : m.Keeps S m' :=
  fun _ hm => ⟨hm.congr heap claims, .of_heap_eq heap⟩

theorem onInterp (m : Machine) (f : Interp → Interp) : m.Keeps S (m.onInterp f) := of_eq rfl rfl

/-- A cell that stands for what it stood for. -/
theorem set (hw : c.words = (m.cell h).words) (hp : (m.cell h).Proper → c.Proper)
    (hf : (m.cell h).body.isFreed = true → c.body.isFreed = true) :
    m.Keeps S (m.onHeap (·.set h c)) :=
  fun _ hm => ⟨hm.set_of_eq hw (hp (hm.proper h)), .set hw hf⟩

theorem push (hc : c.magic = []) : m.Keeps S (m.onHeap (·.push c)) :=
  fun _ hm => ⟨Bridged.push (by rwa [Cell.words_of_magic hc]) (Cell.proper_of_magic hc), .push hc⟩

theorem alloc (m : Machine) (b : Body) : m.Keeps S (m.alloc b).2 :=
  trans (push (c := .fresh b) rfl) (of_eq rfl rfl)

/-- A value that is there gets another body. -/
theorem setBody (m : Machine) {b : Body} (hf : m.isFreed h = false) (hb : b.isFreed = false) :
    m.Keeps S (m.setBody h b) := by
  refine set (c := { m.cell h with body := b }) rfl (fun hp => ⟨hp.hooks, fun hfreed => ?_⟩)
    fun hfreed => ?_
  · rw [hb] at hfreed
    cases hfreed
  · rw [isFreed, body] at hf
    rw [hf] at hfreed
    cases hfreed

theorem retain (m : Machine) (h : Handle) : m.Keeps S (m.retain h) := by
  unfold Machine.retain
  split
  · exact refl m
  · exact set (c := { m.cell h with count := (m.cell h).count + 1 }) rfl
      (fun hp => ⟨hp.hooks, hp.freed⟩) id

/-- A record that is not about an instance. -/
theorem attach (m : Machine) (h : Handle) {g : Magic} (hg : FreeAction.unclaim ∉ g.table.onFree) :
    m.Keeps S (m.attach h g) := by
  have hbridge : g.isBridge = false := by
    rw [Bool.eq_false_iff]
    intro hb
    rw [g.table_of_isBridge hb] at hg
    exact hg List.mem_cons_self
  have hwords : Cell.words { m.cell h with magic := (m.cell h).magic ++ [g] } = (m.cell h).words := by
    simp [Cell.words, hbridge]
  refine set hwords (fun hp => ⟨fun g' hg' hu => ?_, fun hf => hwords ▸ hp.freed hf⟩) id
  rcases List.mem_append.1 hg' with hg' | hg'
  · exact hp.hooks g' hg' hu
  · rw [List.mem_singleton.1 hg'] at hu
    exact absurd hu hg

theorem updateGlob (m : Machine) (name : String) (f : Glob → Glob) :
    m.Keeps S (m.updateGlob name f) :=
  onInterp m _

theorem global (m : Machine) (s : Sigil) (name : String) : m.Keeps S (m.global s name).2 := by
  cases hg : m.global? s name with
  | some h => simpa only [Machine.global, hg] using refl m
  | none =>
    simp only [Machine.global, hg]
    exact (alloc m _).trans (updateGlob _ _ _)

/-! ### Releases -/

section Hooks

variable {drop : Handle → Machine → Machine}

/-- A release hook that gives no claim back. -/
theorem runFreeAction (hd : ∀ k m, Keeps S m (drop k m)) (h : Handle) {g : Magic}
    (hg : FreeAction.unclaim ∉ g.table.onFree) (m : Machine) {a : FreeAction}
    (ha : a ∈ g.table.onFree) : m.Keeps S (runFreeAction drop h g m a) := by
  cases a with
  | record label => exact of_eq rfl rfl
  | revive name =>
    have hnote : m.Keeps S (m.noteFreed (event name g)) := of_eq rfl rfl
    exact hnote.trans ((global _ .scalar name).trans (attach _ _ hg))
  | unclaim => exact absurd ha hg
  | touch => exact (retain m h).trans (hd h _)

/-- The release hooks give back the claims that are owed for their records. -/
theorem runFreeHooks (hS : S.InjOn InstanceId.identity) (hd : ∀ k m, Keeps S m (drop k m))
    (h : Handle) {records : List Magic}
    (hr : ∀ g ∈ records, FreeAction.unclaim ∈ g.table.onFree → g.isBridge = true)
    (hm : m.Bridged S ((records.filter (·.isBridge)).map (·.word) ++ owed)) :
    (runFreeHooks drop h records m).Bridged S owed ∧ m.Abides (runFreeHooks drop h records m) := by
  induction records generalizing m with
  | nil => exact ⟨hm, .refl m⟩
  | cons g rest ih =>
    have hrest := fun g' hg' => hr g' (List.mem_cons_of_mem g hg')
    cases hb : g.isBridge with
    | true =>
      rw [List.filter_cons_of_pos hb, List.map_cons, List.cons_append] at hm
      have hhook : g.table.onFree.foldl (Machine.runFreeAction drop h g) m = m.unclaim g.word := by
        rw [g.table_of_isBridge hb]
        rfl
      have hend := ih hrest (hm.unclaim hS)
      rw [← hhook] at hend
      refine ⟨hend.1, Abides.trans (.of_heap_eq ?_) hend.2⟩
      rw [hhook]
      rfl
    | false =>
      have hg : FreeAction.unclaim ∉ g.table.onFree := fun hu => by
        rw [hr g List.mem_cons_self hu] at hb
        cases hb
      rw [List.filter_cons_of_neg (by rw [hb]; exact Bool.false_ne_true)] at hm
      have hhooks : m.Keeps S (g.table.onFree.foldl (Machine.runFreeAction drop h g) m) :=
        List.foldlRecOn (motive := m.Keeps S) g.table.onFree _ (refl m)
          fun m' hm' a ha => hm'.trans (runFreeAction hd h hg m' ha)
      have hfirst := hhooks _ hm
      have hend := ih hrest hfirst.1
      exact ⟨hend.1, hfirst.2.trans hend.2⟩

end Hooks

theorem releaseWithin (hS : S.InjOn InstanceId.identity) (fuel : Nat) (h : Handle) (m : Machine) :
    m.Keeps S (releaseWithin fuel h m) := by
  induction fuel generalizing h m with
  | zero => exact refl m
  | succ fuel ih =>
    simp only [Machine.releaseWithin]
    split
    · exact refl m
    next hcount =>
    split
    · exact set (c := { m.cell h with count := (m.cell h).count - 1 }) rfl
        (fun hp => ⟨hp.hooks, hp.freed⟩) id
    · intro owed hm
      have hs : h.index < m.heap.size := by
        by_contra hs
        rw [cell, m.heap.get_of_size_le (Nat.le_of_not_lt hs)] at hcount
        exact hcount rfl
      have hstrip : (m.onHeap (·.set h { m.cell h with count := 0, magic := [] })).Bridged S
          ((m.cell h).words ++ owed) :=
        hm.set hs (fun w => by simp [Cell.words]) ⟨by simp, fun _ => rfl⟩
      obtain ⟨hhooks, habides⟩ := runFreeHooks hS (fun k m => ih k m) h (hm.proper h).hooks hstrip
      generalize Machine.runFreeHooks (Machine.releaseWithin fuel) h (m.cell h).magic
        (m.onHeap (·.set h { m.cell h with count := 0, magic := [] })) = m₂ at hhooks habides ⊢
      have hbare : (m₂.cell h).words = [] := by
        have hnil : ((m.onHeap (·.set h { m.cell h with count := 0, magic := [] })).cell h).words
            = [] := by
          rw [cell_strip hs]
          rfl
        rcases habides.words h with hw | ⟨hw, -⟩
        · rw [hw, hnil]
        · exact hw
      have hvacate : (m₂.vacate h).Bridged S owed := by
        have hset : (m₂.onHeap (·.set h .freed)).Bridged S owed :=
          hhooks.set_of_eq hbare.symm ⟨by simp [Cell.freed], fun _ => rfl⟩
        exact hset.congr rfl rfl
      refine List.foldlRecOn (motive := fun m' => m'.Bridged S owed ∧ m.Abides m') _ _
        ⟨hvacate, .around hs habides⟩ fun m' hm' k _ => ?_
      have hk := ih k m' owed hm'.1
      exact ⟨hk.1, hm'.2.trans hk.2⟩

theorem release (hS : S.InjOn InstanceId.identity) (m : Machine) (h : Handle) :
    m.Keeps S (m.release h) :=
  releaseWithin hS _ h m

theorem releaseAll (hS : S.InjOn InstanceId.identity) (m : Machine) (hs : List Handle) :
    m.Keeps S (m.releaseAll hs) :=
  List.foldlRecOn (motive := m.Keeps S) hs _ (refl m) fun m' hm' h _ => hm'.trans (release hS m' h)

theorem focus (m : Machine) (i : InterpId) : m.Keeps S (m.focus i) := by
  refine of_eq (heap_focus m i) ?_
  unfold Machine.focus
  split
  · rfl
  · split <;> rfl

theorem drop (hS : S.InjOn InstanceId.identity) (m : Machine) (v : Held) :
    m.Keeps S (m.drop v) := by
  unfold Machine.drop
  split
  · exact (focus m _).trans ((release hS _ _).trans (focus _ _))
  · exact refl m

end Keeps

end Machine

/-! ### The manner of operations that make no objects -/

namespace Manner

open Machine

variable {S : Set InstanceId}

/-- The manner of operations that make no objects. -/
def keeping (S : Set InstanceId) : Manner :=
  .uniform (R := Keeps S) Keeps.refl Keeps.trans

theorem keeping_detached (hS : S.InjOn InstanceId.identity) : (keeping S).Detached where
  exits := Iff.rfl
  fails := Iff.rfl
  cleans := Iff.rfl
  onInterp := Keeps.onInterp
  alloc m {b} _ := Keeps.alloc m b
  retain := Keeps.retain
  setBody {m _ _} _ hf hb := Keeps.setBody m hf hb
  name m h c := Keeps.set (c := { m.cell h with className := some c }) rfl
    (fun hp => ⟨hp.hooks, hp.freed⟩) id
  releaseAll := Keeps.releaseAll hS
  noteAccess _ _ := Keeps.of_eq rfl rfl
  tick _ := Keeps.of_eq rfl rfl

/-- An interpreter comes and goes without an object of its own. -/
theorem keeping_placeless (hS : S.InjOn InstanceId.identity) : (keeping S).Placeless where
  toDetached := keeping_detached hS
  ofHeap := Keeps.of_eq
  allocImmortal _ _ _ := Keeps.push rfl

end Manner

end ValueMachine

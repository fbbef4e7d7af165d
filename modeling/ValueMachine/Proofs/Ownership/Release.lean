import ValueMachine.Proofs.Ownership.Steps

/-! The release of a count. Whatever the elementary steps of a release keep, a release keeps. It
only fades the machine: bodies stay or are freed, counts do not grow, globals stay. It takes exactly
one count from the value, in order, to whatever depth the values below it are freed. -/

namespace ValueMachine.Machine

/-- A property that each step of a release keeps; the hooks on values have another one. -/
structure KeptByRelease (P : Machine → Prop) (Q : Magic → Prop) : Prop where
  records : ∀ m h, P m → ∀ g ∈ (m.cell h).magic, Q g
  lower : ∀ m h, P m → P (m.onHeap (·.set h { m.cell h with count := (m.cell h).count - 1 }))
  strip : ∀ m h, P m → P (m.onHeap (·.set h { m.cell h with count := 0, magic := [] }))
  noteFreed : ∀ m e, P m → P (m.noteFreed e)
  revive : ∀ m name g, P m → Q g → FreeAction.revive name ∈ g.table.onFree →
    P ((m.global .scalar name).2.attach (m.global .scalar name).1 g)
  unclaim : ∀ m w, P m → P (m.unclaim w)
  touch : ∀ m h g, P m → Q g → FreeAction.touch ∈ g.table.onFree → P (m.retain h)
  vacate : ∀ m h, P m → P (m.vacate h)

namespace KeptByRelease

variable {P : Machine → Prop} {Q : Magic → Prop} {drop : Handle → Machine → Machine} {h : Handle}

theorem runFreeAction (K : KeptByRelease P Q) (hd : ∀ k m, P m → P (drop k m)) {g : Magic}
    (hg : Q g) {a : FreeAction} (ha : a ∈ g.table.onFree) {m : Machine} (hm : P m) :
    P (runFreeAction drop h g m a) := by
  cases a with
  | record label => exact K.noteFreed m _ hm
  | revive name => exact K.revive _ name g (K.noteFreed m _ hm) hg ha
  | unclaim => exact K.unclaim m _ hm
  | touch => exact hd h _ (K.touch m h g hm hg ha)

theorem runFreeHooks (K : KeptByRelease P Q) (hd : ∀ k m, P m → P (drop k m))
    (records : List Magic) (hr : ∀ g ∈ records, Q g) {m : Machine} (hm : P m) :
    P (runFreeHooks drop h records m) := by
  refine List.foldlRecOn (motive := P) records _ hm fun m hm g hg => ?_
  exact List.foldlRecOn (motive := P) g.table.onFree _ hm
    fun m hm a ha => K.runFreeAction hd (hr g hg) ha hm

theorem releaseWithin (K : KeptByRelease P Q) (fuel : Nat) (h : Handle) {m : Machine} (hm : P m) :
    P (releaseWithin fuel h m) := by
  induction fuel generalizing h m with
  | zero => exact hm
  | succ fuel ih =>
    simp only [Machine.releaseWithin]
    split
    · exact hm
    split
    · exact K.lower m h hm
    · have hooks := K.runFreeHooks (h := h) (fun k m hm => ih k hm) (m.cell h).magic
        (K.records m h hm) (K.strip m h hm)
      exact List.foldlRecOn (motive := P) _ _ (K.vacate _ h hooks) fun m hm k _ => ih k hm

theorem release (K : KeptByRelease P Q) (h : Handle) {m : Machine} (hm : P m) : P (m.release h) :=
  K.releaseWithin _ h hm

theorem releaseAll (K : KeptByRelease P Q) (hs : List Handle) {m : Machine} (hm : P m) :
    P (m.releaseAll hs) :=
  List.foldlRecOn (motive := P) hs _ hm fun _ hm h _ => K.release h hm

end KeptByRelease

/-- A machine after some releases. -/
structure Fades (m m' : Machine) : Prop where
  size_le : m.heap.size ≤ m'.heap.size
  body : ∀ h, h.index < m.heap.size → m'.body h = m.body h ∨ m'.body h = .freed
  count_le : ∀ h, h.index < m.heap.size → (m'.cell h).count ≤ (m.cell h).count
  /-- Of an interpreter only the symbol table and the number of living values change. -/
  interp : ∃ symbols live, m'.interp = { m.interp with symbols := symbols, live := live }
  global? : ∀ s name h, m.global? s name = some h → m'.global? s name = some h
  others : m'.others = m.others
  here : m'.here = m.here

namespace Fades

variable {m m₁ m₂ m₃ : Machine}

theorem refl (m : Machine) : m.Fades m :=
  ⟨le_rfl, fun _ _ => .inl rfl, fun _ _ => le_rfl, ⟨_, _, rfl⟩, fun _ _ _ h => h, rfl, rfl⟩

theorem trans (h : m₁.Fades m₂) (h' : m₂.Fades m₃) : m₁.Fades m₃ where
  size_le := h.size_le.trans h'.size_le
  body k hk := by
    rcases h'.body k (hk.trans_le h.size_le) with he | he
    · rw [he]
      exact h.body k hk
    · exact .inr he
  count_le k hk := (h'.count_le k (hk.trans_le h.size_le)).trans (h.count_le k hk)
  interp := by
    obtain ⟨symbols, live, hi⟩ := h.interp
    obtain ⟨symbols', live', hi'⟩ := h'.interp
    exact ⟨symbols', live', by rw [hi', hi]⟩
  global? s name k hk := h'.global? s name k (h.global? s name k hk)
  others := h'.others.trans h.others
  here := h'.here.trans h.here

/-- A cell that is emptied or loses counts. -/
theorem set (m : Machine) (h : Handle) (c : Cell)
    (hb : c.body = m.body h ∨ c.body = .freed) (hc : c.count ≤ (m.cell h).count) :
    m.Fades (m.onHeap (·.set h c)) where
  size_le := by simp
  body k _ := by
    simp only [Machine.body, cell, heap_onHeap, Heap.get_set]
    split
    next hk => rw [hk.1]; exact hb
    next => exact .inl rfl
  count_le k _ := by
    simp only [cell, heap_onHeap, Heap.get_set]
    split
    next hk => rw [hk.1]; exact hc
    next => exact le_rfl
  interp := ⟨_, _, rfl⟩
  global? _ _ _ h := h
  others := rfl
  here := rfl

/-- A cell that keeps body and count. -/
theorem update (m : Machine) (h : Handle) (f : Cell → Cell)
    (hb : ∀ c, (f c).body = c.body) (hc : ∀ c, (f c).count = c.count) :
    m.Fades (m.onHeap (·.update h f)) :=
  set m h (f (m.cell h)) (.inl (hb _)) (hc _).le

theorem of_eq {m m' : Machine} (heap : m'.heap = m.heap) (interp : m'.interp = m.interp)
    (others : m'.others = m.others) (here : m'.here = m.here) : m.Fades m' where
  size_le := by rw [heap]
  body k _ := .inl (by rw [Machine.body, Machine.body, cell, cell, heap])
  count_le k _ := by rw [cell, cell, heap]
  interp := ⟨_, _, by rw [interp]⟩
  global? s name k hk := by rwa [Machine.global?, glob?, interp]
  others := others
  here := here

theorem global (m : Machine) (s : Sigil) (name : String) : m.Fades (m.global s name).2 := by
  have keep := fun s' name' h => global?_global m s' s name' name h
  cases hg : m.global? s name with
  | some h =>
    simp only [Machine.global, hg]
    exact refl m
  | none =>
    simp only [Machine.global, hg, updateGlob_set] at keep ⊢
    have old (k : Handle) (hk : k.index < m.heap.size) : k ≠ m.heap.next := by
      rintro rfl
      exact lt_irrefl _ hk
    refine ⟨by simp [Machine.alloc], fun k hk => .inl ?_, fun k hk => ?_, ⟨_, _, rfl⟩, keep, rfl, rfl⟩
    · simp [Machine.alloc, Machine.body, cell, Heap.get_push, old k hk]
    · simp [Machine.alloc, cell, Heap.get_push, old k hk]

end Fades

namespace Harmless

variable {m : Machine} {h : Handle}

theorem set (hm : m.Harmless) (c : Cell) (hc : ∀ g ∈ c.magic, FreeAction.touch ∉ g.table.onFree) :
    (m.onHeap (·.set h c)).Harmless := by
  intro k
  simp only [cell, heap_onHeap, Heap.get_set]
  split
  · exact hc
  · exact hm k

theorem attach (hm : m.Harmless) {g : Magic} (hg : FreeAction.touch ∉ g.table.onFree) :
    (m.attach h g).Harmless := by
  refine hm.set _ fun g' hg' => ?_
  rcases List.mem_append.1 hg' with hg' | hg'
  · exact hm h g' hg'
  · rwa [List.mem_singleton.1 hg']

theorem global (hm : m.Harmless) (s : Sigil) (name : String) : (m.global s name).2.Harmless := by
  unfold Machine.global
  split
  · exact hm
  · intro k
    simp only [updateGlob_set, Machine.alloc, cell, heap_onInterp, Heap.get_push]
    split
    · simp [Cell.fresh]
    · exact hm k

end Harmless

/-- A release only fades the machine. -/
theorem fades_keptByRelease (m : Machine) :
    KeptByRelease (fun m' => m.Fades m' ∧ m'.Harmless)
      fun g => FreeAction.touch ∉ g.table.onFree where
  records m' h hm := hm.2 h
  lower m' h hm := ⟨hm.1.trans (.set m' h _ (.inl rfl) (Nat.sub_le ..)), hm.2.set _ (hm.2 h)⟩
  strip m' h hm := ⟨hm.1.trans (.set m' h _ (.inl rfl) (Nat.zero_le _)), hm.2.set _ (by simp)⟩
  noteFreed m' e hm := ⟨hm.1.trans (.of_eq rfl rfl rfl rfl), hm.2⟩
  revive m' name g hm hg _ :=
    ⟨hm.1.trans ((Fades.global m' .scalar name).trans (.update _ _ _ (fun _ => rfl) fun _ => rfl)),
      (hm.2.global .scalar name).attach hg⟩
  unclaim m' w hm := ⟨hm.1.trans (.of_eq rfl rfl rfl rfl), hm.2⟩
  touch m' h g _ hg ha := absurd ha hg
  vacate m' h hm := by
    refine ⟨hm.1.trans ?_, hm.2.set _ (by simp [Cell.freed])⟩
    have hset := Fades.set m' h .freed (.inr rfl) (Nat.zero_le _)
    exact { hset with interp := ⟨_, _, rfl⟩ }

theorem Harmless.fades_releaseAll {m : Machine} (hm : m.Harmless) (hs : List Handle) :
    m.Fades (m.releaseAll hs) :=
  ((fades_keptByRelease m).releaseAll hs ⟨.refl m, hm⟩).1

/-! ### The hooks of a dying value -/

section Hooks

variable {m : Machine} {held : List Handle} {dying : Option Handle}

/-- What release hooks leave alone: the former cells but for their hooks. -/
structure Hooked (m m' : Machine) : Prop where
  size_le : m.heap.size ≤ m'.heap.size
  cell : ∀ h, h.index < m.heap.size → ∃ magic, m'.cell h = { m.cell h with magic := magic }

namespace Hooked

variable {m₁ m₂ m₃ : Machine}

theorem refl (m : Machine) : m.Hooked m := ⟨le_rfl, fun _ _ => ⟨_, rfl⟩⟩

theorem trans (h : m₁.Hooked m₂) (h' : m₂.Hooked m₃) : m₁.Hooked m₃ where
  size_le := h.size_le.trans h'.size_le
  cell k hk := by
    obtain ⟨magic, hc⟩ := h.cell k hk
    obtain ⟨magic', hc'⟩ := h'.cell k (hk.trans_le h.size_le)
    exact ⟨magic', by rw [hc', hc]⟩

theorem of_heap_eq {m m' : Machine} (heap : m'.heap = m.heap) : m.Hooked m' :=
  ⟨by rw [heap], fun _ _ => ⟨_, by rw [Machine.cell, Machine.cell, heap]⟩⟩

theorem attach (m : Machine) (h : Handle) (g : Magic) : m.Hooked (m.attach h g) where
  size_le := by simp [Machine.attach, Heap.update]
  cell k _ := by
    simp only [Machine.attach, Machine.cell, heap_onHeap, Heap.update, Heap.get_set]
    split
    next hk => rw [hk.1]; exact ⟨_, rfl⟩
    next => exact ⟨_, rfl⟩

theorem global (m : Machine) (s : Sigil) (name : String) : m.Hooked (m.global s name).2 := by
  cases hg : m.global? s name with
  | some h =>
    simp only [Machine.global, hg]
    exact refl m
  | none =>
    simp only [Machine.global, hg, updateGlob_set]
    refine ⟨by simp [Machine.alloc], fun k hk => ⟨(m.cell k).magic, ?_⟩⟩
    have hkn : k ≠ m.heap.next := by
      rintro rfl
      exact lt_irrefl _ hk
    simp [Machine.alloc, Machine.cell, Heap.get_push, hkn]

end Hooked

/-- A release hook that leaves the dying value alone keeps order. -/
theorem Orderly.runFreeAction (drop : Handle → Machine → Machine) (h : Handle) {g : Magic}
    (hg : FreeAction.touch ∉ g.table.onFree) {a : FreeAction} (ha : a ∈ g.table.onFree)
    (hm : m.Orderly held dying) :
    m.Settles (runFreeAction drop h g m a) held dying ∧ m.Hooked (runFreeAction drop h g m a) := by
  cases a with
  | record label => exact ⟨hm.settles_of_eq rfl rfl rfl rfl rfl rfl, .of_heap_eq rfl⟩
  | revive name =>
    have hnote : m.Settles (m.noteFreed (event name g)) held dying :=
      hm.settles_of_eq rfl rfl rfl rfl rfl rfl
    have hglobal := hnote.orderly.global .scalar name
    have hattach := hglobal.orderly.decorate
      (h := ((m.noteFreed (event name g)).global .scalar name).1) (· ++ [g]) id fun g' hg' => by
        rcases List.mem_append.1 hg' with hg' | hg'
        · exact hglobal.orderly.harmless _ g' hg'
        · rwa [List.mem_singleton.1 hg']
    have hnoted : m.Hooked (m.noteFreed (event name g)) := .of_heap_eq rfl
    exact ⟨hnote.trans (hglobal.trans hattach),
      hnoted.trans ((Hooked.global _ .scalar name).trans (.attach ..))⟩
  | unclaim => exact ⟨hm.settles_of_eq rfl rfl rfl rfl rfl rfl, .of_heap_eq rfl⟩
  | touch => exact absurd ha hg

theorem Orderly.runFreeHooks (drop : Handle → Machine → Machine) (h : Handle)
    {records : List Magic} (hr : ∀ g ∈ records, FreeAction.touch ∉ g.table.onFree)
    (hm : m.Orderly held dying) :
    m.Settles (runFreeHooks drop h records m) held dying
      ∧ m.Hooked (runFreeHooks drop h records m) := by
  refine List.foldlRecOn (motive := fun m' => m.Settles m' held dying ∧ m.Hooked m') records _
    ⟨.refl hm, .refl m⟩ fun m₁ h₁ g hg => ?_
  refine List.foldlRecOn (motive := fun m' => m.Settles m' held dying ∧ m.Hooked m') _ _ h₁
    fun m₂ h₂ a ha => ?_
  have hstep := h₂.1.orderly.runFreeAction drop h (hr g hg) ha
  exact ⟨h₂.1.trans hstep.1, h₂.2.trans hstep.2⟩

end Hooks

/-! ### The nesting of releases -/

/-- The values among the first places that have a count. -/
def counted (m : Machine) (n : Nat) : Nat :=
  ((Finset.range n).filter fun i => 0 < (m.cell ⟨i⟩).count).card

/-- The fuel is enough for a release among the first places: a value that is being freed has lost
its count, and no value there owns a later one. -/
structure Fueled (m : Machine) (n fuel : Nat) : Prop where
  size_le : n ≤ m.heap.size
  closed : ∀ h, h.index < n → ∀ k ∈ (m.body h).owned, k.index < n
  counted_lt : m.counted n < fuel

section Nesting

variable {m m' : Machine} {held : List Handle} {h : Handle} {n fuel : Nat}

theorem counted_mono (hc : ∀ h, h.index < n → (m'.cell h).count ≤ (m.cell h).count) :
    m'.counted n ≤ m.counted n := by
  refine Finset.card_le_card fun i hi => ?_
  simp only [Finset.mem_filter, Finset.mem_range] at hi ⊢
  exact ⟨hi.1, hi.2.trans_le (hc ⟨i⟩ hi.1)⟩

theorem counted_lt_counted (hc : ∀ h, h.index < n → (m'.cell h).count ≤ (m.cell h).count)
    (hn : h.index < n) (h0 : (m'.cell h).count = 0) (h1 : (m.cell h).count ≠ 0) :
    m'.counted n < m.counted n := by
  refine Finset.card_lt_card (Finset.ssubset_iff_of_subset (fun i hi => ?_) |>.2
    ⟨h.index, ?_, ?_⟩)
  · simp only [Finset.mem_filter, Finset.mem_range] at hi ⊢
    exact ⟨hi.1, hi.2.trans_le (hc ⟨i⟩ hi.1)⟩
  · simp only [Finset.mem_filter, Finset.mem_range]
    exact ⟨hn, Nat.pos_of_ne_zero h1⟩
  · simp [h0]

theorem Fueled.of_fades (hf : m.Fueled n fuel) (hm : m.Fades m') : m'.Fueled n fuel where
  size_le := hf.size_le.trans hm.size_le
  closed k hk j hj := by
    rcases hm.body k (hk.trans_le hf.size_le) with hb | hb
    · rw [hb] at hj
      exact hf.closed k hk j hj
    · rw [hb] at hj
      cases hj
  counted_lt := (counted_mono fun k hk => hm.count_le k (hk.trans_le hf.size_le)).trans_lt
    hf.counted_lt

/-- A machine in order has fuel for every release. -/
theorem Orderly.fueled (hm : m.Orderly held) : m.Fueled m.heap.size (2 * m.heap.size + 2) where
  size_le := le_rfl
  closed _ _ _ hj := hm.index_lt_of_mem_owned hj
  counted_lt := by
    have := Finset.card_filter_le (Finset.range m.heap.size) fun i => 0 < (m.cell ⟨i⟩).count
    rw [Finset.card_range] at this
    simp only [counted]
    omega

theorem cell_strip (hs : h.index < m.heap.size) :
    (m.onHeap (·.set h { m.cell h with count := 0, magic := [] })).cell h
      = { m.cell h with count := 0, magic := [] } :=
  m.heap.get_set_self h _ hs

theorem count_vacate (m : Machine) (h : Handle) : ((m.vacate h).cell h).count = 0 := by
  simp only [Machine.vacate, cell, heap_onInterp, heap_onHeap, Heap.get_set]
  split
  next => rfl
  next hk =>
    rw [m.heap.get_of_size_le (by simpa using hk)]
    rfl

/-- The last count of a value goes. -/
theorem Orderly.strip (hm : m.Orderly (h :: held)) (hi : (m.cell h).immortal = false)
    (hone : (m.cell h).count = 1) :
    m.Settles (m.onHeap (·.set h { m.cell h with count := 0, magic := [] })) held (some h) := by
  have hs : h.index < m.heap.size := hm.index_lt_of_owners_ne_zero (by simp)
  refine ⟨hm.set _ hs rfl (fun k _ => ?_) (fun _ hd => absurd rfl hd)
    (fun hi' => absurd (hi.symm.trans hi') (by simp)) (fun g hg => by cases hg)
    (hm.keyed h) (fun _ _ _ => by simp), counts_set _ rfl rfl, ages_set _ rfl fun hf => hf⟩
  by_cases hk : k = h
  · subst hk
    simp only [if_true, List.count_cons_self, hone, body]
    omega
  · simp [hk, List.count_cons_of_ne (Ne.symm hk), body]

theorem living_vacate (m : Machine) (h : Handle) : (m.vacate h).living = m.living.erase h := by
  ext k
  simp only [Finset.mem_erase, mem_living, Machine.vacate, isFreed, body, cell, heap_onInterp,
    heap_onHeap, Heap.get_set]
  split
  next hk => simp [hk.1, Cell.freed, Body.isFreed]
  next hk =>
    refine (and_iff_right_of_imp fun hh => ?_).symm
    rintro rfl
    exact hk ⟨rfl, index_lt_of_not_isFreed hh.2⟩

/-- A dying value gives the counts up that it owns. -/
theorem Orderly.vacate (hm : m.Orderly held (some h)) (hi : (m.cell h).immortal = false)
    (hc : (m.cell h).count = 0) (hf : m.isFreed h = false) :
    m.Settles (m.vacate h) ((m.body h).owned ++ held) := by
  have hs := index_lt_of_not_isFreed hf
  have hset : (m.onHeap (·.set h .freed)).Orderly ((m.body h).owned ++ held) := by
    refine hm.set .freed hs hi.symm (fun k _ => ?_) (fun _ _ => ⟨fun _ => rfl, fun _ => rfl⟩)
      (fun hi => by cases hi) (fun g hg => by cases hg) trivial (fun k hk _ => by simpa using hk)
    simp only [hc, Cell.freed, Body.owned, List.count_append, List.count_nil, ite_self]
    omega
  refine ⟨hset.congr rfl rfl rfl rfl rfl, ?_, (ages_set .freed hi.symm fun _ => rfl).trans
    (.of_heap_eq rfl)⟩
  have hmem : h ∈ m.living := mem_living.2 ⟨hi, hf⟩
  have hlive : (m.vacate h).interp.live = m.interp.live - 1 := rfl
  refine ⟨rfl, rfl, fun hle => ?_⟩
  rw [living_vacate, Finset.inter_eq_right.2 (Finset.erase_subset ..)] at hle
  have hcard := Finset.card_erase_add_one hmem
  rw [living_vacate, hlive]
  omega

theorem Orderly.foldl_releaseWithin
    (ih : ∀ (h : Handle) (m : Machine) held, m.Fueled n fuel → h.index < n →
      m.Orderly (h :: held) → m.Settles (releaseWithin fuel h m) held)
    (owned : List Handle) (ho : ∀ k ∈ owned, k.index < n) (hf : m.Fueled n fuel)
    (hm : m.Orderly (owned ++ held)) :
    m.Settles (owned.foldl (fun m k => releaseWithin fuel k m) m) held := by
  induction owned generalizing m with
  | nil => exact .refl hm
  | cons k rest ih' =>
    have hk := ih k m (rest ++ held) hf (ho k (List.mem_cons_self ..)) hm
    have hfades := ((fades_keptByRelease m).releaseWithin fuel k ⟨.refl m, hm.harmless⟩).1
    exact hk.trans
      (ih' (fun j hj => ho j (List.mem_cons_of_mem _ hj)) (hf.of_fades hfades) hk.orderly)

/-- A release takes one count from the outside and gives it to nobody. -/
theorem Orderly.releaseWithin (hf : m.Fueled n fuel) (hn : h.index < n)
    (hm : m.Orderly (h :: held)) : m.Settles (releaseWithin fuel h m) held := by
  induction fuel generalizing h m held with
  | zero => exact absurd hf.counted_lt (Nat.not_lt_zero _)
  | succ fuel ih =>
    have hs : h.index < m.heap.size := hn.trans_le hf.size_le
    have hcount := hm.count_eq h
    rw [List.count_cons_self] at hcount
    simp only [Machine.releaseWithin]
    split
    next hc =>
      have hi : (m.cell h).immortal = true := by
        by_contra hi
        rw [Bool.not_eq_true] at hi
        have := hcount hi
        simp only [hi, Bool.false_or, decide_eq_true_eq] at hc
        omega
      refine .refl { hm with count_eq := fun k hk => ?_ }
      rw [hm.count_eq k hk, List.count_cons_of_ne]
      rintro rfl
      rw [hi] at hk
      cases hk
    next hc =>
    simp only [Bool.or_eq_true, decide_eq_true_eq, not_or, Bool.not_eq_true] at hc
    obtain ⟨hi, hc⟩ := hc
    have hfreed : m.isFreed h = false := by
      by_contra hfreed
      exact hc ((hm.freed_iff h hi (by simp)).1 (by simpa using hfreed))
    have hpass (k : Handle) : (if k = h then (m.cell h).count - 1 else 0) + (h :: held).count k
        = (if k = h then (m.cell h).count else 0) + held.count k := by
      by_cases hk : k = h
      · subst hk
        simp only [if_true, List.count_cons_self]
        omega
      · simp [hk, List.count_cons_of_ne (Ne.symm hk)]
    split
    next hc1 =>
      refine hm.settles_set _ hfreed rfl hfreed (fun k _ => ?_) (fun _ => ?_) (hm.harmless h)
        (hm.keyed h)
      · exact congrArg (· + (m.body h).owned.count k) (hpass k)
      · exact Nat.sub_ne_zero_of_lt hc1
    next hc1 =>
    have hone : (m.cell h).count = 1 := by omega
    have hstrip := hm.strip hi hone
    have hhooks := hstrip.orderly.runFreeHooks (Machine.releaseWithin fuel) h (hm.harmless h)
    obtain ⟨magic, hcell⟩ := hhooks.2.cell h (by simpa using hs)
    rw [cell_strip hs] at hcell
    have hbody := congrArg Cell.body hcell
    have hvacate := hhooks.1.orderly.vacate (by rw [hcell]; exact hi) (by rw [hcell])
      (by rw [isFreed, body, hbody]; exact hfreed)
    have howned := hvacate.orderly
    rw [body, hbody] at howned
    -- with the dying value one count less is there, and all that it owned lies among the first
    have K := fades_keptByRelease m
    have hfades := K.vacate _ h (K.runFreeHooks (h := h)
      (fun k m hm => K.releaseWithin fuel k hm) (m.cell h).magic (hm.harmless h)
      (K.strip m h ⟨.refl m, hm.harmless⟩))
    have hfuel := hf.of_fades hfades.1
    have hlt : counted _ n < m.counted n := counted_lt_counted
      (fun k hk => hfades.1.count_le k (hk.trans_le hf.size_le)) hn (count_vacate _ h)
      (by rw [hone]; exact one_ne_zero)
    have hrest := Orderly.foldl_releaseWithin (fun h m held hf hn hm => ih hf hn hm)
      (m.cell h).body.owned (hf.closed h hn)
      { hfuel with counted_lt := hlt.trans_le (Nat.lt_succ_iff.1 hf.counted_lt) } howned
    rw [body, hbody]
    exact hstrip.trans (hhooks.1.trans (hvacate.trans hrest))

theorem Orderly.release (hm : m.Orderly (h :: held)) : m.Settles (m.release h) held :=
  Orderly.releaseWithin hm.fueled (hm.index_lt_of_owners_ne_zero (by simp)) hm

theorem Orderly.releaseAll (hs : List Handle) (hm : m.Orderly (hs ++ held)) :
    m.Settles (m.releaseAll hs) held := by
  induction hs generalizing m with
  | nil => exact .refl hm
  | cons k rest ih =>
    have hk : m.Settles (m.release k) (rest ++ held) := Orderly.release hm
    exact hk.trans (ih hk.orderly)

end Nesting

end ValueMachine.Machine

import ValueMachine.Proofs.Ownership.Variables

/-! What happens when the last count of a value goes. Each of its release hooks is run once, in order,
and its place is given up with its contents. A hook that takes a count on the dying value and releases
it again has the place given up once more, with the contents that are left: the first time all of them,
then none. So the place is given up once just if no hook does so. -/

namespace ValueMachine

/-- What happens in the course of a release. -/
inductive Deed where
  /-- A hook of a dying value is run. -/
  | hook (h : Handle) (g : Magic) (a : FreeAction)
  /-- A value is created. -/
  | born (h : Handle)
  /-- The place of a value is given up, and with it a count on each of these. -/
  | free (h : Handle) (contents : List Handle)

namespace Deed

/-- The value to which it happens. -/
def subject : Deed → Handle
  | hook h _ _ | born h | free h _ => h

/-- The hook that is run. -/
def hook? : Deed → Option (Magic × FreeAction)
  | hook _ g a => some (g, a)
  | _ => none

/-- The contents that are given up with a place. -/
def free? : Deed → Option (List Handle)
  | free _ contents => some contents
  | _ => none

/-- The live values that are counted after it. -/
def tally (live : Nat) : Deed → Nat
  | hook _ _ _ => live
  | born _ => live + 1
  | free _ _ => live - 1

end Deed

/-! ### Releases with a record of what happens -/

/-- A machine, and what has happened. -/
structure Chronicle where
  machine : Machine
  deeds : List Deed

namespace Chronicle

open Machine

/-- A change that is not noted. -/
def on (t : Chronicle) (f : Machine → Machine) : Chronicle := ⟨f t.machine, t.deeds⟩

/-- A release hook, and the global scalar that it creates where it is missing. -/
def deedsOf (h : Handle) (g : Magic) (m : Machine) : FreeAction → List Deed
  | .revive name =>
    .hook h g (.revive name) :: if (m.global? .scalar name).isSome then [] else [.born m.heap.next]
  | a => [.hook h g a]

/-- One release hook of a dying value. -/
def act (drop : Handle → Chronicle → Chronicle) (h : Handle) (t : Chronicle) (p : Magic × FreeAction) :
    Chronicle :=
  let deeds := t.deeds ++ deedsOf h p.1 t.machine p.2
  if p.2 = .touch then drop h ⟨t.machine.retain h, deeds⟩
  else ⟨runFreeAction (fun _ m => m) h p.1 t.machine p.2, deeds⟩

/-- The release hooks of some records. -/
def actions (records : List Magic) : List (Magic × FreeAction) :=
  records.flatMap fun g => g.table.onFree.map (g, ·)

/-- Release one count, to a nesting of at most `fuel` values. -/
def releaseWithin : Nat → Handle → Chronicle → Chronicle
  | 0, _, t => t
  | fuel + 1, h, t =>
    let c := t.machine.cell h
    if c.immortal || c.count = 0 then t
    else if c.count > 1 then t.on (·.onHeap (·.set h { c with count := c.count - 1 }))
    else
      let t := t.on (·.onHeap (·.set h { c with count := 0, magic := [] }))
      let t := (actions c.magic).foldl (act (releaseWithin fuel) h) t
      let owned := (t.machine.body h).owned
      owned.foldl (fun t k => releaseWithin fuel k t) ⟨t.machine.vacate h, t.deeds ++ [.free h owned]⟩

/-- What happens when one count is released. -/
def ofRelease (m : Machine) (h : Handle) : Chronicle := releaseWithin (2 * m.heap.size + 2) h ⟨m, []⟩

variable {fuel : Nat} {h k : Handle} {t t' : Chronicle} {m : Machine}

/-- The machine is that after the hooks. -/
theorem machine_acts {drop : Handle → Chronicle → Chronicle} {drop' : Handle → Machine → Machine}
    (hdrop : ∀ k t, (drop k t).machine = drop' k t.machine) (h : Handle) (records : List Magic)
    (t : Chronicle) : ((actions records).foldl (act drop h) t).machine
      = runFreeHooks drop' h records t.machine := by
  have hact (t : Chronicle) (g : Magic) (a : FreeAction) :
      (act drop h t (g, a)).machine = runFreeAction drop' h g t.machine a := by
    cases a with
    | touch => exact hdrop _ _
    | _ => rfl
  rw [actions, List.foldl_flatMap, runFreeHooks]
  refine (List.foldl_hom Chronicle.machine fun t g => ?_).symm
  rw [List.foldl_map]
  exact List.foldl_hom Chronicle.machine fun t a => (hact t g a).symm

/-- The machine is that after the release. -/
theorem machine_releaseWithin (fuel : Nat) (h : Handle) (t : Chronicle) :
    (releaseWithin fuel h t).machine = Machine.releaseWithin fuel h t.machine := by
  induction fuel generalizing h t with
  | zero => rfl
  | succ fuel ih =>
    simp only [releaseWithin, Machine.releaseWithin]
    split
    · rfl
    split
    · rfl
    · have hacts := machine_acts ih h (t.machine.cell h).magic
        (t.on (·.onHeap (·.set h { t.machine.cell h with count := 0, magic := [] })))
      have hrest (owned : List Handle) (t : Chronicle) :
          owned.foldl (fun m k => Machine.releaseWithin fuel k m) t.machine
            = (owned.foldl (fun t k => releaseWithin fuel k t) t).machine :=
        List.foldl_hom Chronicle.machine fun t k => (ih k t).symm
      rw [← hrest, hacts]
      rfl

/-! ### What a release keeps -/

/-- A property that each step of a release keeps, as long as only values of some kind are released. -/
structure Kept (P : Chronicle → Prop) (R : Handle → Prop) : Prop where
  lower : ∀ t k, R k → P t →
    P (t.on (·.onHeap (·.set k { t.machine.cell k with count := (t.machine.cell k).count - 1 })))
  strip : ∀ t k, R k → P t →
    P (t.on (·.onHeap (·.set k { t.machine.cell k with count := 0, magic := [] })))
  hook : ∀ t k g a, R k → P t → a ≠ .touch →
    P ⟨runFreeAction (fun _ m => m) k g t.machine a, t.deeds ++ deedsOf k g t.machine a⟩
  touch : ∀ t k g, R k → P t → P ⟨t.machine.retain k, t.deeds ++ [.hook k g .touch]⟩
  free : ∀ t k, R k → P t →
    P ⟨t.machine.vacate k, t.deeds ++ [.free k (t.machine.body k).owned]⟩
  contents : ∀ t k, R k → P t → ∀ j ∈ (t.machine.body k).owned, R j

namespace Kept

variable {P : Chronicle → Prop} {R : Handle → Prop}

theorem releaseWithin (K : Kept P R) (fuel : Nat) (hk : R k) (ht : P t) :
    P (t.releaseWithin fuel k) := by
  induction fuel generalizing k t with
  | zero => exact ht
  | succ fuel ih =>
    simp only [Chronicle.releaseWithin]
    split
    · exact ht
    split
    · exact K.lower t k hk ht
    · let t₁ := t.on (·.onHeap (·.set k { t.machine.cell k with count := 0, magic := [] }))
      have hacts : P ((actions (t.machine.cell k).magic).foldl (act (Chronicle.releaseWithin fuel) k) t₁) := by
        refine List.foldlRecOn (motive := P) _ _ (K.strip t k hk ht) fun t ht p _ => ?_
        rw [act]
        split
        next htouch => exact ih hk (htouch ▸ K.touch t k p.1 hk ht)
        next htouch => exact K.hook t k p.1 p.2 hk ht htouch
      exact List.foldlRecOn (motive := P) _ _ (K.free _ k hk hacts) fun t ht j hj =>
        ih (K.contents _ k hk hacts j hj) ht

end Kept

/-! ### The number of live values -/

/-- The live values that are counted are the tally of what has happened. -/
theorem kept_tally (live : Nat) :
    Kept (fun t => t.machine.interp.live = t.deeds.foldl Deed.tally live) fun _ => True where
  lower t k _ ht := ht
  strip t k _ ht := ht
  hook t k g a _ ht htouch := by
    rw [List.foldl_append, ← ht]
    cases a with
    | record label => rfl
    | unclaim => rfl
    | touch => exact absurd rfl htouch
    | revive name =>
      have hnoted : (t.machine.noteFreed (event name g)).global? .scalar name
          = t.machine.global? .scalar name := rfl
      cases hg : t.machine.global? .scalar name with
      | some reborn =>
        simp only [runFreeAction, Machine.global, hnoted, hg, deedsOf, Option.isSome_some, if_true]
        rfl
      | none =>
        simp only [runFreeAction, global_of_none (hnoted.trans hg), deedsOf, hg, updateGlob_set]
        rfl
  touch t k g _ ht := by
    rw [List.foldl_append, ← ht]
    exact congrArg Interp.live (interp_retainAll t.machine [k])
  free t k _ ht := by
    rw [List.foldl_append, ← ht]
    rfl
  contents _ _ _ _ _ _ := trivial

end Chronicle

/-! ### A value that nobody owns -/

namespace Machine

variable {m m' : Machine} {h k : Handle}

/-- No body and no global owns a value. -/
structure Alone (m : Machine) (h : Handle) : Prop where
  index_lt : h.index < m.heap.size
  unowned : ∀ k, h ∉ (m.body k).owned
  unnamed : ∀ s name, m.global? s name ≠ some h

theorem alone_of_owners (hs : h.index < m.heap.size) (ho : m.owners h = 0) : m.Alone h where
  index_lt := hs
  unowned _ hk := (m.owners_pos_of_mem_owned hk).ne' ho
  unnamed _ _ hg := (owners_pos_of_global hg).ne' ho

namespace Alone

theorem of_heap_eq (hh : m.Alone h) (heap : m'.heap = m.heap)
    (symbols : m'.interp.symbols = m.interp.symbols) : m'.Alone h where
  index_lt := heap ▸ hh.index_lt
  unowned k := by
    rw [body, cell, heap]
    exact hh.unowned k
  unnamed s name := by
    rw [global?, glob?, symbols]
    exact hh.unnamed s name

/-- A cell changes to what owns nothing else. -/
theorem set (hh : m.Alone h) (k : Handle) {c : Cell} (hc : c.body.owned ⊆ (m.body k).owned) :
    (m.onHeap (·.set k c)).Alone h where
  index_lt := by simpa using hh.index_lt
  unowned j := by
    simp only [body, cell, heap_onHeap, Heap.get_set]
    split
    · exact fun hmem => hh.unowned k (hc hmem)
    · exact hh.unowned j
  unnamed := hh.unnamed

theorem retain (hh : m.Alone h) (k : Handle) : (m.retain k).Alone h := by
  unfold Machine.retain
  split
  · exact hh
  · exact hh.set k (List.Subset.refl _)

theorem vacate (hh : m.Alone h) (k : Handle) : (m.vacate k).Alone h :=
  (hh.set k (c := .freed) (List.nil_subset _)).of_heap_eq rfl rfl

theorem global (hh : m.Alone h) (s : Sigil) (name : String) :
    (m.global s name).1 ≠ h ∧ (m.global s name).2.Alone h ∧ (m.global s name).2.cell h = m.cell h := by
  have hne : h ≠ m.heap.next := ne_next_of_lt hh.index_lt
  cases hg : m.global? s name with
  | some reborn =>
    have hreborn : reborn ≠ h := by
      rintro rfl
      exact hh.unnamed s name hg
    simp only [Machine.global, hg]
    exact ⟨hreborn, hh, trivial⟩
  | none =>
    have hcell := cell_global hh.index_lt s name
    refine ⟨by rw [global_of_none hg]; exact hne.symm, ⟨?_, fun k => ?_, fun s' name' => ?_⟩, hcell⟩
    · exact hh.index_lt.trans_le (Fades.global m s name).size_le
    · by_cases hk : k = m.heap.next
      · have hnew : (newGlobalBody s name).owned = [] := by cases s <;> rfl
        have hbody : (m.global s name).2.body k = newGlobalBody s name := by
          rw [global_of_none hg, updateGlob_set, hk]
          exact congrArg Cell.body (Heap.get_push_next m.heap _)
        rw [hbody, hnew]
        exact List.not_mem_nil
      · have hbody : (m.global s name).2.body k = m.body k := by
          rw [global_of_none hg, updateGlob_set]
          exact body_alloc m _ hk
        rw [hbody]
        exact hh.unowned k
    · rw [global?_global_of_none s s' name name' hg]
      split
      · exact fun he => hne (Option.some.inj he).symm
      · exact hh.unnamed s' name'

/-- A release hook leaves it alone, of whichever value it is. -/
theorem hook (hh : m.Alone h) (k : Handle) (g : Magic) {a : FreeAction} (htouch : a ≠ .touch) :
    (runFreeAction (fun _ m => m) k g m a).Alone h ∧
      (runFreeAction (fun _ m => m) k g m a).cell h = m.cell h := by
  cases a with
  | record label => exact ⟨hh.of_heap_eq rfl rfl, rfl⟩
  | unclaim => exact ⟨hh.of_heap_eq rfl rfl, rfl⟩
  | touch => exact absurd rfl htouch
  | revive name =>
    have hnoted : (m.noteFreed (event name g)).Alone h := hh.of_heap_eq rfl rfl
    obtain ⟨hne, halone, hcell⟩ := hnoted.global .scalar name
    exact ⟨halone.set _ (List.Subset.refl _), (Heap.get_set_ne _ _ _ _ hne.symm).trans hcell⟩

end Alone

end Machine

/-! ### The death of a value -/

namespace Chronicle

open Machine

variable {h k : Handle} {t : Chronicle} {m : Machine} {g : Magic} {a : FreeAction}

/-- What has happened to a value. -/
def about (t : Chronicle) (h : Handle) : List Deed := t.deeds.filter (·.subject = h)

theorem about_append (t : Chronicle) (m : Machine) (deeds : List Deed) :
    about ⟨m, t.deeds ++ deeds⟩ h = t.about h ++ deeds.filter (·.subject = h) :=
  List.filter_append ..

theorem filter_deedsOf (hs : h.index < m.heap.size) :
    (deedsOf k g m a).filter (·.subject = h) = if k = h then [.hook k g a] else [] := by
  have hnext : m.heap.next ≠ h := (ne_next_of_lt hs).symm
  have hborn (p : Prop) [Decidable p] :
      (if p then [] else [Deed.born m.heap.next]).filter (·.subject = h) = [] := by
    split <;> simp [Deed.subject, hnext]
  cases a with
  | revive name =>
    rw [deedsOf, List.filter_cons, hborn]
    by_cases hk : k = h <;> simp [Deed.subject, hk]
  | _ => by_cases hk : k = h <;> simp [deedsOf, Deed.subject, hk]

/-- The release of other values happens to them. -/
theorem kept_about (h : Handle) (c : Cell) (story : List Deed) :
    Kept (fun t => t.machine.Alone h ∧ t.machine.cell h = c ∧ t.about h = story) (· ≠ h) where
  lower t k hk ht := ⟨ht.1.set k (List.Subset.refl _), (Heap.get_set_ne _ _ _ _ hk.symm).trans ht.2.1,
    ht.2.2⟩
  strip t k hk ht := ⟨ht.1.set k (List.Subset.refl _), (Heap.get_set_ne _ _ _ _ hk.symm).trans ht.2.1,
    ht.2.2⟩
  hook t k g a hk ht htouch := by
    obtain ⟨halone, hcell⟩ := ht.1.hook k g htouch
    refine ⟨halone, hcell.trans ht.2.1, ?_⟩
    rw [about_append, filter_deedsOf ht.1.index_lt, if_neg hk, List.append_nil, ht.2.2]
  touch t k g hk ht := by
    refine ⟨ht.1.retain k, (cell_retain_of_ne hk.symm).trans ht.2.1, ?_⟩
    rw [about_append, ht.2.2]
    simp [Deed.subject, hk]
  free t k hk ht := by
    refine ⟨ht.1.vacate k, (Heap.get_set_ne _ _ _ _ hk.symm).trans ht.2.1, ?_⟩
    rw [about_append, ht.2.2]
    simp [Deed.subject, hk]
  contents t k _ ht j hj := by
    rintro rfl
    exact ht.1.unowned k hj

/-- A value is dying: its count and its records are gone, and these contents are left. -/
structure Dying (t : Chronicle) (h : Handle) (contents : List Handle) (story : List Deed) : Prop where
  alone : t.machine.Alone h
  count : (t.machine.cell h).count = 0
  immortal : (t.machine.cell h).immortal = false
  magic : (t.machine.cell h).magic = []
  contents : (t.machine.body h).owned = contents
  story : t.about h = story

variable {contents : List Handle} {story : List Deed}

/-- What happens to a dying value: its hooks are run, and its place is given up after each hook that
takes a count on it and at the end. -/
def death (h : Handle) : List (Magic × FreeAction) → List Handle → List Deed
  | [], contents => [.free h contents]
  | (g, .touch) :: rest, contents => .hook h g .touch :: .free h contents :: death h rest []
  | (g, a) :: rest, contents => .hook h g a :: death h rest contents

/-- The place is given up, with what is left, and nothing else happens to the value meanwhile. -/
theorem Dying.rest (ht : t.Dying h contents story) (fuel : Nat) :
    let t' := contents.foldl (fun t k => releaseWithin fuel k t)
      ⟨t.machine.vacate h, t.deeds ++ [.free h contents]⟩
    t'.machine.Alone h ∧ t'.machine.cell h = .freed ∧ t'.about h = story ++ [.free h contents] := by
  have hcell : (t.machine.vacate h).cell h = .freed := Heap.get_set_self _ _ _ ht.alone.index_lt
  have hstory : about ⟨t.machine.vacate h, t.deeds ++ [.free h contents]⟩ h = story ++ [.free h contents] := by
    rw [about_append, ht.story]
    simp [Deed.subject]
  have K := kept_about h .freed (story ++ [.free h contents])
  refine List.foldlRecOn (motive := fun t => t.machine.Alone h ∧ t.machine.cell h = .freed ∧
      t.about h = story ++ [.free h contents]) contents (fun t k => releaseWithin fuel k t)
    ⟨ht.alone.vacate h, hcell, hstory⟩ fun t' ht' k hk => K.releaseWithin fuel ?_ ht'
  rintro rfl
  exact ht.alone.unowned k (ht.contents ▸ hk)

theorem Dying.free (ht : t.Dying h contents story) (fuel : Nat) :
    (contents.foldl (fun t k => releaseWithin fuel k t)
      ⟨t.machine.vacate h, t.deeds ++ [.free h contents]⟩).Dying h [] (story ++ [.free h contents]) := by
  obtain ⟨halone, hcell, hstory⟩ := ht.rest fuel
  exact ⟨halone, by rw [hcell]; rfl, by rw [hcell]; rfl, by rw [hcell]; rfl,
    by rw [body, hcell]; rfl, hstory⟩

/-- The last count and the records of a value go. -/
def stripped (t : Chronicle) (h : Handle) : Chronicle :=
  t.on (·.onHeap (·.set h { t.machine.cell h with count := 0, magic := [] }))

theorem dying_stripped (halone : t.machine.Alone h) (hi : (t.machine.cell h).immortal = false) :
    (t.stripped h).Dying h (t.machine.body h).owned (t.about h) := by
  have hcell : (t.stripped h).machine.cell h = { t.machine.cell h with count := 0, magic := [] } :=
    Heap.get_set_self _ _ _ halone.index_lt
  refine ⟨halone.set h (List.Subset.refl _), by rw [hcell], by rw [hcell, hi], by rw [hcell], ?_, rfl⟩
  rw [body, hcell]
  rfl

/-- The release of the last count. -/
theorem releaseWithin_last {fuel : Nat} {t' : Chronicle} (hi : (t.machine.cell h).immortal = false)
    (hone : (t.machine.cell h).count = 1)
    (hacts : (actions (t.machine.cell h).magic).foldl (act (releaseWithin fuel) h) (t.stripped h) = t')
    (hcontents : (t'.machine.body h).owned = contents) :
    releaseWithin (fuel + 1) h t = contents.foldl (fun t k => releaseWithin fuel k t)
      ⟨t'.machine.vacate h, t'.deeds ++ [.free h contents]⟩ := by
  subst hacts hcontents
  refine (if_neg ?_).trans (if_neg ?_)
  · simp [hi, hone]
  · simp [hone]

/-- A hook that takes a count on the dying value and releases it has the place given up. The records of
the value are gone, and so none of its hooks is run again. -/
theorem Dying.touch (ht : t.Dying h contents story) (fuel : Nat) (g : Magic) :
    (act (releaseWithin (fuel + 1)) h t (g, .touch)).Dying h []
      (story ++ [.hook h g .touch, .free h contents]) := by
  let t₁ : Chronicle := ⟨t.machine.retain h, t.deeds ++ [.hook h g .touch]⟩
  have hcell : t₁.machine.cell h = { t.machine.cell h with count := 1 } := by
    show (t.machine.retain h).cell h = _
    rw [Machine.retain, if_neg (by rw [ht.immortal]; exact Bool.false_ne_true)]
    refine (Heap.get_set_self _ _ _ ht.alone.index_lt).trans ?_
    show ({ t.machine.cell h with count := (t.machine.cell h).count + 1 } : Cell) = _
    rw [ht.count]
  have halone : t₁.machine.Alone h := ht.alone.retain h
  have hi : (t₁.machine.cell h).immortal = false := by rw [hcell, ht.immortal]
  have hmagic : (t₁.machine.cell h).magic = [] := by rw [hcell, ht.magic]
  have hcontents : (t₁.machine.body h).owned = contents := by
    rw [body, hcell]
    exact ht.contents
  have hstory : t₁.about h = story ++ [.hook h g .touch] := by
    rw [about_append, ht.story]
    simp [Deed.subject]
  have ht₁ := dying_stripped halone hi
  rw [hcontents, hstory] at ht₁
  have hrun : act (releaseWithin (fuel + 1)) h t (g, .touch) = releaseWithin (fuel + 1) h t₁ := by
    rw [act, if_pos rfl]
    rfl
  have hacts : (actions (t₁.machine.cell h).magic).foldl (act (releaseWithin fuel) h) (t₁.stripped h)
      = t₁.stripped h := by
    rw [hmagic]
    rfl
  have hfree := ht₁.free fuel
  rw [List.append_assoc, List.singleton_append] at hfree
  rw [hrun, releaseWithin_last hi (by rw [hcell]) hacts ht₁.contents]
  exact hfree

/-- A hook of another kind leaves the dying value alone. -/
theorem Dying.hook (ht : t.Dying h contents story) (drop : Handle → Chronicle → Chronicle) (g : Magic)
    (htouch : a ≠ .touch) :
    (act drop h t (g, a)).Dying h contents (story ++ [.hook h g a]) := by
  obtain ⟨halone, hcell⟩ := ht.alone.hook h g htouch
  rw [act, if_neg htouch]
  refine ⟨halone, by rw [hcell, ht.count], by rw [hcell, ht.immortal], by rw [hcell, ht.magic], ?_, ?_⟩
  · rw [body, hcell]
    exact ht.contents
  · rw [about_append, ht.story, filter_deedsOf ht.alone.index_lt, if_pos rfl]

/-- The hooks are run one after the other. -/
theorem Dying.acts (ht : t.Dying h contents story) (fuel : Nat) (pending : List (Magic × FreeAction)) :
    ∃ left deeds, (pending.foldl (act (releaseWithin (fuel + 1)) h) t).Dying h left (story ++ deeds) ∧
      deeds ++ [.free h left] = death h pending contents := by
  induction pending generalizing t contents story with
  | nil => exact ⟨contents, [], by rwa [List.append_nil], rfl⟩
  | cons p rest ih =>
    obtain ⟨g, a⟩ := p
    by_cases htouch : a = .touch
    · subst htouch
      obtain ⟨left, deeds, hdying, hdeeds⟩ := ih (ht.touch fuel g)
      refine ⟨left, .hook h g .touch :: .free h contents :: deeds, ?_, ?_⟩
      · rwa [List.append_assoc] at hdying
      · rw [death, ← hdeeds]
        rfl
    · obtain ⟨left, deeds, hdying, hdeeds⟩ := ih (ht.hook (releaseWithin (fuel + 1)) g htouch)
      refine ⟨left, .hook h g a :: deeds, ?_, ?_⟩
      · rwa [List.append_assoc] at hdying
      · rw [List.cons_append, hdeeds]
        cases a with
        | touch => exact absurd rfl htouch
        | _ => rfl

/-- What happens to a value whose last count goes, and that it is gone then. -/
theorem about_ofRelease (ho : m.owners h = 0) (hi : (m.cell h).immortal = false)
    (hone : (m.cell h).count = 1) :
    (ofRelease m h).about h = death h (actions (m.cell h).magic) (m.body h).owned ∧
      (ofRelease m h).machine.cell h = .freed := by
  have hs : h.index < m.heap.size := by
    by_contra hs
    rw [cell, m.heap.get_of_size_le (Nat.le_of_not_lt hs)] at hone
    cases hone
  have halone := alone_of_owners hs ho
  obtain ⟨left, deeds, hdying, hdeeds⟩ := Dying.acts (dying_stripped (t := ⟨m, []⟩) halone hi)
    (2 * m.heap.size) (actions (m.cell h).magic)
  have hlast := releaseWithin_last (t := ⟨m, []⟩) hi hone rfl hdying.contents
  obtain ⟨-, hcell, hstory⟩ := hdying.rest (2 * m.heap.size + 1)
  rw [ofRelease, hlast, ← hdeeds]
  exact ⟨hstory, hcell⟩

/-- Each hook is run once. -/
theorem hooks_death (h : Handle) (pending : List (Magic × FreeAction)) (contents : List Handle) :
    (death h pending contents).filterMap Deed.hook? = pending := by
  induction pending generalizing contents with
  | nil => rfl
  | cons p rest ih =>
    obtain ⟨g, a⟩ := p
    cases a with
    | touch => exact congrArg (_ :: ·) (ih [])
    | _ => exact congrArg (_ :: ·) (ih contents)

/-- The place is given up with the contents, and then once more for each hook that takes a count. -/
theorem frees_death (h : Handle) (pending : List (Magic × FreeAction)) (contents : List Handle) :
    (death h pending contents).filterMap Deed.free?
      = contents :: List.replicate (pending.countP (·.2 = .touch)) [] := by
  induction pending generalizing contents with
  | nil => rfl
  | cons p rest ih =>
    obtain ⟨g, a⟩ := p
    cases a with
    | touch =>
      rw [List.countP_cons_of_pos (by simp), List.replicate_succ]
      exact congrArg (contents :: ·) (ih [])
    | _ =>
      rw [List.countP_cons_of_neg (by simp)]
      exact ih contents

theorem countP_actions_eq_zero (records : List Magic) :
    (actions records).countP (·.2 = .touch) = 0 ↔
      ∀ g ∈ records, FreeAction.touch ∉ g.table.onFree := by
  simp only [List.countP_eq_zero, actions, List.mem_flatMap, List.mem_map, decide_eq_true_eq]
  constructor
  · intro hnone g hg htouch
    exact hnone (g, .touch) ⟨g, hg, .touch, htouch, rfl⟩ rfl
  · rintro hnone _ ⟨g, hg, a, ha, rfl⟩ rfl
    exact hnone g hg ha

/-- The death of a value that nobody owns any more when its last count is released. Each of its hooks is
run once, in order. Its place is given up once with its contents and once more, with nothing, for each
hook that takes a count on the dying value and releases it; so it is given up once just if there is no
such hook. The live values are counted down by one for each place that is given up, as long as any are
counted on the interpreter in focus, and up by one for each value that a hook creates. -/
theorem freed_once_iff (ho : m.owners h = 0) (hi : (m.cell h).immortal = false)
    (hone : (m.cell h).count = 1) :
    (ofRelease m h).machine = m.release h ∧ (m.release h).cell h = .freed ∧
      ((ofRelease m h).about h).filterMap Deed.hook? = actions (m.cell h).magic ∧
      ((ofRelease m h).about h).filterMap Deed.free? = (m.body h).owned ::
        List.replicate ((actions (m.cell h).magic).countP (·.2 = .touch)) [] ∧
      ((((ofRelease m h).about h).filterMap Deed.free?).length = 1 ↔
        ∀ g ∈ (m.cell h).magic, FreeAction.touch ∉ g.table.onFree) ∧
      (m.release h).interp.live = (ofRelease m h).deeds.foldl Deed.tally m.interp.live := by
  have hmachine : (ofRelease m h).machine = m.release h := machine_releaseWithin _ h _
  obtain ⟨hstory, hcell⟩ := about_ofRelease ho hi hone
  have hlive := (kept_tally m.interp.live).releaseWithin (t := ⟨m, []⟩) (2 * m.heap.size + 2)
    (k := h) trivial rfl
  refine ⟨hmachine, hmachine ▸ hcell, ?_, ?_, ?_, hmachine ▸ hlive⟩
  · rw [hstory, hooks_death]
  · rw [hstory, frees_death]
  · rw [hstory, frees_death, ← countP_actions_eq_zero, List.length_cons, List.length_replicate]
    omega

/-- Host code holds an array of one value, with a hook that is noted and takes a count on it. -/
def touched : Machine :=
  ((fresh.alloc (.scalar (.ofInt64 1))).2.alloc (.array [some ⟨4⟩])).2.attach ⟨5⟩
    ⟨126, ⟨"touch", [], [], [.record "free", .touch]⟩, 7⟩

/-- The place of that array is given up twice, and its value with it the first time. -/
theorem freed_twice_touched : touched.owners ⟨5⟩ = 0 ∧ (touched.cell ⟨5⟩).count = 1 ∧
    ((ofRelease touched ⟨5⟩).about ⟨5⟩).filterMap Deed.free? = [[⟨4⟩], []] := by
  have ho : touched.owners ⟨5⟩ = 0 := by decide +kernel
  have hone : (touched.cell ⟨5⟩).count = 1 := by decide +kernel
  exact ⟨ho, hone, (freed_once_iff ho (by decide +kernel) hone).2.2.2.1⟩

end Chronicle

end ValueMachine

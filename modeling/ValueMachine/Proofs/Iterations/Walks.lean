import ValueMachine.Proofs.Calls.ErrorVariable
import ValueMachine.Proofs.Ownership.Duplicates
import ValueMachine.Proofs.Ownership.Inspection

/-! Iterations of a hash that changes under them. The cursor is a list of the keys that were there at the
start, and a step passes over those that are gone. So whatever is stored and taken out in between, a key
comes once at most, and each key from the start that is never taken out comes before the end. -/

namespace ValueMachine

/-! ### Tables -/

namespace Table

variable {t u : Table} {key : Bytes} {v : Handle} {ks rest : List Bytes}

theorem get?_isSome_iff : (t.get? key).isSome ↔ key ∈ t.keys := by
  have hnone : t.get? key = none ↔ key ∉ t.keys := by
    rw [get?, List.lookup_eq_none_iff, keys, List.mem_map]
    constructor
    · rintro h ⟨p, hp, hk⟩
      simpa [hk] using h p hp
    · exact fun h p hp => bne_iff_ne.2 fun hk => h ⟨p, hp, hk.symm⟩
  rw [← not_iff_not, Option.not_isSome_iff_eq_none, hnone]

/-- The keys that a search passes over are gone. -/
theorem nextIn_eq_some (h : t.nextIn ks = some ((key, v), rest)) :
    ∃ passed, ks = passed ++ key :: rest ∧ t.get? key = some v ∧ ∀ k ∈ passed, t.get? k = none := by
  induction ks with
  | nil => cases h
  | cons k ks ih =>
    rw [nextIn] at h
    split at h
    next v' hv =>
      cases h
      exact ⟨[], rfl, hv, nofun⟩
    next hk =>
      obtain ⟨passed, rfl, hv, hpassed⟩ := ih h
      exact ⟨k :: passed, rfl, hv, List.forall_mem_cons.2 ⟨hk, hpassed⟩⟩

theorem nextIn_eq_none (h : t.nextIn ks = none) : ∀ k ∈ ks, t.get? k = none := by
  induction ks with
  | nil => exact nofun
  | cons k ks ih =>
    rw [nextIn] at h
    split at h
    next => cases h
    next hk => exact List.forall_mem_cons.2 ⟨hk, ih h⟩

/-- The keys that the iteration has not passed yet. -/
def ahead (t : Table) : List Bytes := t.cursor.getD []

/-- What a step can do: it ends the iteration where no key ahead is there any more, or it passes over
keys that are gone and comes to an entry. -/
theorem step_cases (t : Table) :
    (t.step.1 = none ∧ t.step.2 = { t with cursor := none } ∧ ∀ k ∈ t.ahead, t.get? k = none) ∨
    ∃ passed key v rest, t.cursor = some (passed ++ key :: rest) ∧ t.get? key = some v ∧
      (∀ k ∈ passed, t.get? k = none) ∧
      t.step = (some (key, v), { t with cursor := some rest }) := by
  cases hc : t.cursor with
  | none =>
    left
    rw [step_of_cursor_eq_none t hc, ahead, hc]
    exact ⟨rfl, by rw [← hc], nofun⟩
  | some ks =>
    cases hn : t.nextIn ks with
    | none =>
      left
      rw [step, hc, ahead, hc]
      simp only [hn, true_and]
      exact nextIn_eq_none hn
    | some found =>
      obtain ⟨⟨key, v⟩, rest⟩ := found
      obtain ⟨passed, rfl, hv, hpassed⟩ := nextIn_eq_some hn
      refine .inr ⟨passed, key, v, rest, rfl, hv, hpassed, ?_⟩
      rw [step, hc]
      simp only [hn]

end Table

/-! ### What happens in the course of an iteration -/

/-- What can happen in the course of an iteration: a step of it, a key that was there is taken out, all
of them are, or something else. -/
inductive Event where
  | step (found : Option (Bytes × Handle))
  | remove (key : Bytes)
  | clear
  | other

namespace Event

/-- The entries that the iteration has come to. -/
def yields (es : List Event) : List (Bytes × Handle) :=
  es.filterMap fun
    | step found => found
    | _ => none

/-- The keys that the iteration has come to. -/
def yieldedKeys (es : List Event) : List Bytes := (yields es).map (·.1)

/-- A key has been taken out. -/
def Removed (es : List Event) (key : Bytes) : Prop := remove key ∈ es ∨ clear ∈ es

variable {es : List Event} {e : Event} {key : Bytes}

theorem Removed.append (h : Removed es key) (e : Event) : Removed (es ++ [e]) key :=
  h.imp (List.mem_append_left _) (List.mem_append_left _)

theorem yieldedKeys_append_step (found : Option (Bytes × Handle)) :
    yieldedKeys (es ++ [step found]) = yieldedKeys es ++ (found.map (·.1)).toList := by
  cases found <;> simp [yieldedKeys, yields]

theorem yieldedKeys_append (h : ∀ found, e ≠ step found) :
    yieldedKeys (es ++ [e]) = yieldedKeys es := by
  cases e with
  | step found => exact absurd rfl (h found)
  | _ => simp [yieldedKeys, yields]

end Event

namespace Machine

variable {m m' m₁ m₂ : Machine} {h : Handle} {es : List Event} {e : Event} {t u : Table}

/-- An event in the course of an iteration of a hash. What is not done to the hash itself leaves it
alone, or frees it. -/
inductive Happens (h : Handle) : Event → Machine → Machine → Prop
  | step {found : Option (Bytes × Handle)} {m m' : Machine} :
      hashNext h m = .ok found m' → Happens h (.step found) m m'
  | store {key : Bytes} {v : Handle} {former : Option Handle} {m m' : Machine} :
      hashStore h key v m = .ok former m' → Happens h .other m m'
  | create {key : Bytes} {v : Handle} {m m' : Machine} :
      hashFetchOrNew h key m = .ok v m' → Happens h .other m m'
  | take {key : Bytes} {v : Handle} {m m' : Machine} :
      hashTake h key m = .ok (some v) m' → Happens h (.remove key) m m'
  | miss {key : Bytes} {m m' : Machine} : hashTake h key m = .ok none m' → Happens h .other m m'
  | clear {m m' : Machine} : hashClear h m = .ok () m' → Happens h .clear m m'
  | leave {m m' : Machine} : m'.body h = m.body h ∨ m'.body h = .freed → Happens h .other m m'

/-- The events since the start of an iteration, none of which starts another one. -/
inductive Walk (h : Handle) (m : Machine) : List Event → Machine → Prop
  | start : Walk h m [] m
  | next {es : List Event} {e : Event} {m₁ m₂ : Machine} :
      Walk h m es m₁ → Happens h e m₁ m₂ → Walk h m (es ++ [e]) m₂

end Machine

/-- How far an iteration over some keys has come after some events. The keys that it has come to and
those ahead are keys from the start, in their order, and all the others have been taken out. -/
structure Table.Walked (ks : List Bytes) (es : List Event) (t : Table) : Prop where
  sublist : (Event.yieldedKeys es ++ t.ahead).Sublist ks
  others : ∀ k ∈ ks, k ∈ Event.yieldedKeys es ∨ k ∈ t.ahead ∨ Event.Removed es k
  present : ∀ k ∈ ks, (t.get? k).isSome ∨ Event.Removed es k
  ended : Event.step none ∈ es → t.cursor = none

namespace Table.Walked

variable {ks : List Bytes} {es : List Event} {e : Event} {t u : Table} {key : Bytes} {v : Handle}

/-- At the start all keys are ahead. -/
theorem start (t : Table) : Walked t.keys [] t.start where
  sublist := List.Sublist.refl _
  others k hk := .inr (.inl hk)
  present k hk := .inl (get?_isSome_iff.2 hk)
  ended h := by cases h

/-- The keys that the iteration has come to are keys from the start, in their order. -/
theorem yields (hw : Walked ks es t) : (Event.yieldedKeys es).Sublist ks :=
  (List.sublist_append_left _ _).trans hw.sublist

/-- A key ahead that is gone has been taken out. -/
theorem removed_of_gone (hw : Walked ks es t) (hk : key ∈ ks) (hgone : t.get? key = none) :
    Event.Removed es key :=
  (hw.present key hk).resolve_left (by rw [hgone]; exact nofun)

theorem step (hw : Walked ks es t) : Walked ks (es ++ [.step t.step.1]) t.step.2 := by
  rcases t.step_cases with ⟨hfst, hsnd, hgone⟩ | ⟨passed, key, v, rest, hcursor, -, hpassed, hstep⟩
  · rw [hfst, hsnd]
    have hyields : Event.yieldedKeys (es ++ [.step none]) = Event.yieldedKeys es := by
      rw [Event.yieldedKeys_append_step]
      exact List.append_nil _
    refine { sublist := ?_, others := fun k hk => ?_, present := fun k hk => ?_, ended := fun _ => rfl }
    · rw [hyields]
      exact (List.append_sublist_append_left _).2 (List.nil_sublist _) |>.trans hw.sublist
    · rw [hyields]
      rcases hw.others k hk with hy | ha | hr
      · exact .inl hy
      · exact .inr (.inr ((hw.removed_of_gone hk (hgone k ha)).append _))
      · exact .inr (.inr (hr.append _))
    · exact (hw.present k hk).imp_right (·.append _)
  · rw [hstep]
    have hahead : t.ahead = passed ++ key :: rest := by rw [ahead, hcursor]; rfl
    have hyields : Event.yieldedKeys (es ++ [.step (some (key, v))])
        = Event.yieldedKeys es ++ [key] := Event.yieldedKeys_append_step _
    refine { sublist := ?_, others := fun k hk => ?_, present := fun k hk => ?_, ended := fun h => ?_ }
    · refine List.Sublist.trans ?_ hw.sublist
      rw [hyields, hahead, List.append_assoc]
      exact (List.append_sublist_append_left _).2 (List.sublist_append_right passed _)
    · rw [hyields]
      rcases hw.others k hk with hy | ha | hr
      · exact .inl (List.mem_append_left _ hy)
      · rw [hahead, List.mem_append, List.mem_cons] at ha
        rcases ha with hp | rfl | hrest
        · exact .inr (.inr ((hw.removed_of_gone hk (hpassed k hp)).append _))
        · exact .inl (List.mem_append_right _ List.mem_cons_self)
        · exact .inr (.inl hrest)
      · exact .inr (.inr (hr.append _))
    · exact (hw.present k hk).imp_right (·.append _)
    · -- an iteration that has ended comes to nothing any more
      have hold : Event.step none ∈ es := by simpa using h
      rw [hw.ended hold] at hcursor
      cases hcursor

/-- Something else happens: the cursor stays, and no key goes that does not count as taken out. -/
theorem of_event (hw : Walked ks es t) (he : ∀ found, e ≠ .step found) (hcursor : u.cursor = t.cursor)
    (hget : ∀ k ∈ ks, (t.get? k).isSome → (u.get? k).isSome ∨ Event.Removed (es ++ [e]) k) :
    Walked ks (es ++ [e]) u := by
  have hahead : u.ahead = t.ahead := by rw [ahead, ahead, hcursor]
  refine { sublist := ?_, others := fun k hk => ?_, present := fun k hk => ?_, ended := fun h => ?_ }
  · rw [Event.yieldedKeys_append he, hahead]
    exact hw.sublist
  · rw [Event.yieldedKeys_append he, hahead]
    exact (hw.others k hk).imp_right (·.imp_right (·.append e))
  · rcases hw.present k hk with hs | hr
    · exact hget k hk hs
    · exact .inr (hr.append e)
  · rw [hcursor]
    refine hw.ended ((List.mem_append.1 h).resolve_right fun he' => ?_)
    exact he none (List.mem_singleton.1 he').symm

theorem insert (hw : Walked ks es t) (key : Bytes) (v : Handle) :
    Walked ks (es ++ [.other]) (t.insert key v) := by
  refine hw.of_event nofun rfl fun k _ hs => .inl ?_
  rw [get?_insert]
  split
  · rfl
  · exact hs

theorem unchanged (hw : Walked ks es t) : Walked ks (es ++ [.other]) t :=
  hw.of_event nofun rfl fun _ _ hs => .inl hs

/-- A key goes, or was gone. -/
theorem erase (hw : Walked ks es t) (he : ∀ found, e ≠ .step found)
    (hkey : (t.get? key).isSome → e = .remove key) : Walked ks (es ++ [e]) (t.erase key) := by
  refine hw.of_event he rfl fun k _ hs => ?_
  rw [get?_erase]
  split
  next hk =>
    subst hk
    exact .inr (.inl (List.mem_append_right _ (List.mem_singleton.2 (hkey hs).symm)))
  next => exact .inl hs

theorem clear (hw : Walked ks es t) : Walked ks (es ++ [.clear]) .empty := by
  have hcleared (k : Bytes) : Event.Removed (es ++ [.clear]) k :=
    .inr (List.mem_append_right _ List.mem_cons_self)
  refine { sublist := ?_, others := fun k _ => .inr (.inr (hcleared k)),
           present := fun k _ => .inr (hcleared k), ended := fun _ => rfl }
  rw [Event.yieldedKeys_append (e := .clear) nofun]
  exact ((List.append_sublist_append_left _).2 (List.nil_sublist _)).trans hw.sublist

end Table.Walked

namespace Machine

variable {m m' m₁ m₂ a : Machine} {h : Handle} {es : List Event} {e : Event} {t u : Table}
  {ks : List Bytes}

/-- A hash on which an iteration has come so far, or one that has been freed on the way. -/
structure IsWalked (m : Machine) (h : Handle) (ks : List Bytes) (es : List Event) : Prop where
  yields : (Event.yieldedKeys es).Sublist ks
  hash : m.body h = .freed ∨ ∃ t, m.body h = .hash t
  walked : ∀ t, m.body h = .hash t → t.Walked ks es

theorem IsWalked.of_walked (hw : t.Walked ks es) (hb : m.body h = .hash t ∨ m.body h = .freed) :
    m.IsWalked h ks es where
  yields := hw.yields
  hash := hb.symm.imp_right fun hb => ⟨t, hb⟩
  walked u hu := by
    rcases hb with hb | hf
    · rw [hb] at hu
      cases hu
      exact hw
    · rw [hf] at hu
      cases hu

theorem onTable_apply {α : Type} (hb : m.body h = .hash t) (f : Table → α × Table) :
    onTable h f m = .ok (f t).1 (m.setBody h (.hash (f t).2)) := by
  rw [onTable, Run.look_bind, hb]
  rfl

/-- A hash with another table. -/
theorem body_onTable {α : Type} {f : Table → α × Table} {x : α} (hr : onTable h f m = .ok x m') :
    ∃ t, m.body h = .hash t ∧ x = (f t).1 ∧ m'.body h = .hash (f t).2 := by
  obtain ⟨t, hb, rfl, rfl⟩ := onTable_ok hr
  exact ⟨t, hb, rfl, body_setBody _ (index_lt_of_not_isFreed (by rw [isFreed, hb]; rfl))⟩

/-- Each event carries an iteration on. -/
theorem IsWalked.happens (hm : m.IsWalked h ks es) (hr : Happens h e m m') :
    m'.IsWalked h ks (es ++ [e]) := by
  cases hr with
  | step hr =>
    obtain ⟨t, hb, rfl, hb'⟩ := body_onTable hr
    exact .of_walked (hm.walked t hb).step (.inl hb')
  | store hr =>
    obtain ⟨t, hb, -, hb'⟩ := body_onTable hr
    exact .of_walked ((hm.walked t hb).insert _ _) (.inl hb')
  | create hr =>
    obtain ⟨found, m₁, hfetch, hr₁⟩ := Run.bind_ok hr
    obtain ⟨t, hb, -, rfl⟩ := hashFetch?_ok hfetch
    cases found with
    | some v =>
      cases hr₁
      exact .of_walked (hm.walked t hb).unchanged (.inl hb)
    | none =>
      obtain ⟨v, m₂, hnew, hr₂⟩ := Run.bind_ok hr₁
      obtain ⟨former, m₃, hstore, hr₃⟩ := Run.bind_ok hr₂
      cases hr₃
      obtain ⟨-, rfl⟩ := newScalar_ok hnew
      obtain ⟨u, hu, -, hu'⟩ := body_onTable hstore
      have hlt : h.index < m₁.heap.size := index_lt_of_not_isFreed (by rw [isFreed, hb]; rfl)
      rw [body_alloc _ _ (ne_next_of_lt hlt)] at hu
      exact .of_walked ((hm.walked u hu).insert _ _) (.inl hu')
  | take hr =>
    obtain ⟨t, hb, -, hb'⟩ := body_onTable hr
    exact .of_walked ((hm.walked t hb).erase (by simp) fun _ => rfl) (.inl hb')
  | miss hr =>
    obtain ⟨t, hb, hmiss, hb'⟩ := body_onTable hr
    have hgone : t.get? _ = none := hmiss.symm
    refine .of_walked ((hm.walked t hb).erase (by simp) fun hs => ?_) (.inl hb')
    rw [hgone] at hs
    cases hs
  | clear hr =>
    obtain ⟨former, m₁, htable, hr₁⟩ := Run.bind_ok hr
    cases hr₁
    obtain ⟨t, hb, -, hb'⟩ := body_onTable htable
    have hlt : h.index < m₁.heap.size := index_lt_of_not_isFreed (by rw [isFreed, hb']; rfl)
    have hspares := (spares_keptByRelease m₁.heap.next m₁).releaseAll (former.entries.map (·.2))
      (.refl _ m₁)
    refine .of_walked (hm.walked t hb).clear ?_
    rw [← hb']
    exact hspares.body h (ne_next_of_lt hlt) hlt
  | leave hr =>
    rcases hm.hash with hf | ⟨t, hb⟩
    · have hf' : m'.body h = .freed := hr.elim (·.trans hf) id
      refine ⟨?_, .inl hf', fun u hu => ?_⟩
      · rw [Event.yieldedKeys_append (e := .other) (by simp)]
        exact hm.yields
      · rw [hu] at hf'
        cases hf'
    · refine .of_walked (hm.walked t hb).unchanged ?_
      rwa [← hb]

/-- So does each walk. -/
theorem Walk.isWalked (hwalk : Walk h m es m') (hm : m.IsWalked h ks []) : m'.IsWalked h ks es := by
  induction hwalk with
  | start => exact hm
  | next _ hr ih => exact ih.happens hr

/-- An iteration, whatever is stored and taken out in its course, comes to each key once at most, and
only to keys that were there at its start. As long as the hash is there a step of it returns: it comes to
a key that it has not come to before, with the value that is stored under it then, or it ends. Then it
has come to each key from the start that has not been taken out, and it has ended for good. -/
theorem walk_yields {n : Nat} (hkeyed : (m.body h).Keyed) (hstart : hashStart h m = .ok n m₁)
    (hwalk : Walk h m₁ es a) :
    ∃ t, m.body h = .hash t ∧ (Event.yieldedKeys es).Nodup ∧
      (∀ k ∈ Event.yieldedKeys es, k ∈ t.keys) ∧
      (a.isFreed h = false → ∃ u found a', a.body h = .hash u ∧ hashNext h a = .ok found a' ∧
        (∀ k v, found = some (k, v) →
          u.get? k = some v ∧ k ∈ t.keys ∧ k ∉ Event.yieldedKeys es) ∧
        (found = none → ∀ k ∈ t.keys, ¬ Event.Removed es k → (Event.yieldedKeys es).count k = 1) ∧
        (.step none ∈ es → found = none)) := by
  obtain ⟨t, hb, -, hb₁⟩ := body_onTable hstart
  have hkeys : t.keys.Nodup := by rwa [hb] at hkeyed
  have hwalked := hwalk.isWalked (.of_walked (.start t) (.inl hb₁))
  have hnodup : (Event.yieldedKeys es).Nodup := hwalked.yields.nodup hkeys
  refine ⟨t, hb, hnodup, fun k hk => hwalked.yields.subset hk, fun hlive => ?_⟩
  obtain ⟨u, hu⟩ := hwalked.hash.resolve_left fun hf => by
    rw [isFreed, hf] at hlive
    cases hlive
  have hw := hwalked.walked u hu
  have hnext : hashNext h a = .ok u.step.1 (a.setBody h (.hash u.step.2)) := onTable_apply hu _
  refine ⟨u, u.step.1, _, hu, hnext, fun k v hfound => ?_, fun hfound k hk hkept => ?_, fun hend => ?_⟩
  · rcases u.step_cases with ⟨hnone, -, -⟩ | ⟨passed, k', v', rest, hcursor, hv, -, hstep⟩
    · rw [hnone] at hfound
      cases hfound
    · rw [hstep] at hfound
      cases hfound
      have hahead : k ∈ u.ahead := by
        rw [Table.ahead, hcursor]
        exact List.mem_append_right _ List.mem_cons_self
      refine ⟨hv, hw.sublist.subset (List.mem_append_right _ hahead), fun hy => ?_⟩
      exact (List.disjoint_of_nodup_append (hw.sublist.nodup hkeys)) hy hahead
  · refine List.count_eq_one_of_mem hnodup ?_
    rcases u.step_cases with ⟨-, -, hgone⟩ | ⟨passed, k', v', rest, -, -, -, hstep⟩
    · rcases hw.others k hk with hy | hahead | hr
      · exact hy
      · exact absurd (hw.removed_of_gone hk (hgone k hahead)) hkept
      · exact absurd hr hkept
    · rw [hstep] at hfound
      cases hfound
  · rw [Table.step_of_cursor_eq_none u (hw.ended hend)]

/-- Host code holds a hash of two values. -/
def holdingPair : Machine :=
  let m := ((fresh.alloc (.scalar (.ofInt64 1))).2.alloc (.scalar (.ofInt64 2))).2
  (m.alloc (.hash ⟨[([97], ⟨4⟩), ([98], ⟨5⟩)], none⟩)).2

/-- An iteration has come to the first of two keys, and the value of the second is put under a third one:
it comes to no other key. -/
theorem walk_holdingPair : (holdingPair.body ⟨6⟩).Keyed ∧
    ∃ m₁ a a', hashStart ⟨6⟩ holdingPair = .ok 2 m₁ ∧
      Walk ⟨6⟩ m₁ [.step (some ([97], ⟨4⟩)), .remove [98], .other] a ∧
      hashNext ⟨6⟩ a = .ok none a' ∧
      (Event.yieldedKeys [.step (some ([97], ⟨4⟩)), .remove [98], .other]).count [97] = 1 := by
  have hkeyed : (holdingPair.body ⟨6⟩).Keyed := by decide +kernel
  let m₁ := (hashStart ⟨6⟩).final holdingPair
  let m₂ := (hashNext ⟨6⟩).final m₁
  let m₃ := (hashTake ⟨6⟩ [98]).final m₂
  let m₄ := (hashStore ⟨6⟩ [99] ⟨5⟩).final m₃
  have hstart : hashStart ⟨6⟩ holdingPair = .ok 2 m₁ := rfl
  have hfirst : Happens ⟨6⟩ (.step (some ([97], ⟨4⟩))) m₁ m₂ := .step rfl
  have hsecond : Happens ⟨6⟩ (.remove [98]) m₂ m₃ := .take rfl
  have hthird : Happens ⟨6⟩ .other m₃ m₄ := .store (by rfl : hashStore ⟨6⟩ [99] ⟨5⟩ m₃ = .ok none m₄)
  have hb₄ : m₄.body ⟨6⟩ = .hash ⟨[([97], ⟨4⟩), ([99], ⟨5⟩)], some [[98]]⟩ := rfl
  have hlive : m₄.isFreed ⟨6⟩ = false := by rw [isFreed, hb₄]; rfl
  have hb : holdingPair.body ⟨6⟩ = .hash ⟨[([97], ⟨4⟩), ([98], ⟨5⟩)], none⟩ := rfl
  clear_value m₁ m₂ m₃ m₄
  have hwalk : Walk ⟨6⟩ m₁ [.step (some ([97], ⟨4⟩)), .remove [98], .other] m₄ :=
    ((Walk.start.next hfirst).next hsecond).next hthird
  obtain ⟨t, ht, -, -, hon⟩ := walk_yields hkeyed hstart hwalk
  obtain ⟨u, found, a', -, hnext, -, hcame, -⟩ := hon hlive
  have hend : hashNext ⟨6⟩ m₄ = .ok none _ := onTable_apply hb₄ Table.step
  rw [hend] at hnext
  cases hnext
  refine ⟨hkeyed, m₁, m₄, _, hstart, hwalk, hend, hcame rfl [97] ?_ ?_⟩
  · rw [hb] at ht
    cases ht
    exact List.mem_cons_self
  · simp [Event.Removed]

end Machine

end ValueMachine

import ValueMachine.Proofs.Ownership.Contents
import ValueMachine.Proofs.Ownership.Scalars

/-! The operations on arrays and hashes in the heap. What is stored is adopted, what is displaced or
taken out is handed over, and a look hands nothing over. -/

namespace ValueMachine.Machine

variable {α : Type} {m m' : Machine} {held : List Handle} {h value : Handle} {u : Unit} {a : α}

/-! ### Arrays -/

theorem slots_ok {xs : Slots} (hr : slots h m = .ok xs m') : m.body h = .array xs ∧ m' = m := by
  simp only [slots, Run.look_bind] at hr
  cases hb : m.body h with
  | array ys => rw [hb] at hr; cases hr; exact ⟨rfl, rfl⟩
  | _ => rw [hb] at hr; cases hr

theorem slots_apply {xs : Slots} (hb : m.body h = .array xs) : slots h m = .ok xs m := by
  rw [slots, Run.look_bind, hb]
  rfl

theorem onSlots_apply {xs : Slots} (hb : m.body h = .array xs) (f : Slots → α × Slots) :
    onSlots h f m = .ok (f xs).1 (m.setBody h (.array (f xs).2)) := by
  rw [onSlots, Run.look_bind, hb]
  rfl

theorem onSlots_ok {f : Slots → α × Slots} (hr : onSlots h f m = .ok a m') :
    ∃ xs, m.body h = .array xs ∧ a = (f xs).1 ∧ m' = m.setBody h (.array (f xs).2) := by
  simp only [onSlots, Run.look_bind] at hr
  cases hb : m.body h with
  | array xs => rw [hb] at hr; cases hr; exact ⟨xs, rfl, rfl, rfl⟩
  | _ => rw [hb] at hr; cases hr

theorem checkRoom_ok {n : Nat} (hr : checkRoom n m = .ok u m') : m' = m := by
  unfold checkRoom at hr
  split at hr <;> cases hr
  rfl

theorem checkIndex_ok {n : Nat} (hr : checkIndex n m = .ok u m') : m' = m := by
  unfold checkIndex at hr
  split at hr
  · exact checkRoom_ok hr
  · cases hr

/-- A look at the slots. -/
theorem Orderly.slotsLook {f : Slots → α} (hm : m.Orderly held)
    (hr : (do return f (← slots h) : Run α) m = .ok a m') : m.Settles m' held := by
  obtain ⟨xs, m₁, hslots, hr₁⟩ := Run.bind_ok hr
  obtain ⟨-, rfl⟩ := slots_ok hslots
  cases hr₁
  exact .refl hm

/-- A check that needs an array. -/
theorem Orderly.slotsCheck {x : Run Unit} (hm : m.Orderly held)
    (hx : ∀ u m m', x m = .ok u m' → m' = m)
    (hr : (do let _ ← slots h; x : Run Unit) m = .ok u m') : m.Settles m' held := by
  obtain ⟨xs, m₁, hslots, hr₁⟩ := Run.bind_ok hr
  obtain ⟨-, rfl⟩ := slots_ok hslots
  obtain rfl := hx _ _ _ hr₁
  exact .refl hm

/-- New slots whose values are, with those given back, the former ones and those given. -/
theorem Orderly.onSlots {f : Slots → α × Slots} (given : List Handle) (back : α → List Handle)
    (hm : m.Orderly (given ++ held)) (hr : onSlots h f m = .ok a m')
    (hf : ∀ xs k, (Slots.owned (f xs).2).count k + (back (f xs).1).count k
      = (Slots.owned xs).count k + given.count k) : m.Settles m' (back a ++ held) := by
  obtain ⟨xs, hb, rfl, rfl⟩ := onSlots_ok hr
  refine hm.setBody _ (by rw [isFreed, hb]; rfl) rfl fun k => ?_
  have := hf xs k
  rw [hb]
  simp only [Body.owned, Slots.owned, List.count_append] at this ⊢
  omega

theorem Orderly.arrayPush (hm : m.Orderly (value :: held)) (hr : arrayPush h value m = .ok u m') :
    m.Settles m' held := by
  refine hm.onSlots [value] (fun _ => []) hr fun xs k => ?_
  rw [Slots.count_owned_append, List.count_append]
  rfl

theorem Orderly.arrayPop {o : Option Handle} (hm : m.Orderly held)
    (hr : arrayPop h m = .ok o m') : m.Settles m' (o.toList ++ held) :=
  Orderly.onSlots [] Option.toList hm hr fun xs k => xs.count_owned_pop k

theorem Orderly.arrayShift {o : Option Handle} (hm : m.Orderly held)
    (hr : arrayShift h m = .ok o m') : m.Settles m' (o.toList ++ held) :=
  Orderly.onSlots [] Option.toList hm hr fun xs k => xs.count_owned_shift k

theorem Orderly.arrayTake {i : Int} {o : Option Handle} (hm : m.Orderly held)
    (hr : arrayTake h i m = .ok o m') : m.Settles m' (o.toList ++ held) :=
  Orderly.onSlots [] Option.toList hm hr fun xs k => xs.count_owned_take k i

theorem Orderly.arrayUnshift {n : Nat} (hm : m.Orderly held)
    (hr : arrayUnshift h n m = .ok u m') : m.Settles m' held := by
  obtain ⟨xs, m₁, hslots, hr₁⟩ := Run.bind_ok hr
  obtain ⟨_, m₂, hroom, hr₂⟩ := Run.bind_ok hr₁
  obtain ⟨-, rfl⟩ := slots_ok hslots
  obtain rfl := checkRoom_ok hroom
  refine Orderly.onSlots [] (fun _ => []) hm hr₂ fun xs k => ?_
  rw [Slots.unshift, Slots.count_owned_append, Slots.owned_replicate_none]
  rfl

theorem Orderly.arrayClear (hm : m.Orderly held) (hr : arrayClear h m = .ok u m') :
    m.Settles m' held := by
  obtain ⟨xs, m₁, hslots, hr₁⟩ := Run.bind_ok hr
  cases hr₁
  have h₁ := Orderly.onSlots [] Slots.owned hm hslots fun xs k => by
    rw [Nat.add_comm]
    rfl
  exact h₁.trans (Orderly.releaseAll (Slots.owned xs) h₁.orderly)

/-- What a store at an index that returns has done. -/
theorem arrayStore_ok {i : Int} {o : Option Handle} (hr : arrayStore h i value m = .ok o m') :
    ∃ (xs : Slots) (p : Nat), m.body h = .array xs ∧ Slots.place? xs.length i = some p
      ∧ o = (xs.put p value).1 ∧ m' = m.setBody h (.array (xs.put p value).2) := by
  obtain ⟨xs, m₁, hslots, hr₁⟩ := Run.bind_ok hr
  obtain ⟨hb, rfl⟩ := slots_ok hslots
  cases hp : Slots.place? xs.length i with
  | none => rw [hp] at hr₁; cases hr₁
  | some p =>
    rw [hp] at hr₁
    obtain ⟨_, m₂, hreserve, hr₂⟩ := Run.bind_ok hr₁
    obtain ⟨ys, m₃, hslots', hroom⟩ := Run.bind_ok hreserve
    obtain ⟨-, rfl⟩ := slots_ok hslots'
    obtain rfl := checkRoom_ok hroom
    obtain ⟨zs, hb', ho, hm'⟩ := onSlots_ok hr₂
    rw [hb] at hb'
    cases hb'
    exact ⟨xs, p, hb, hp, ho, hm'⟩

theorem Orderly.arrayStore {i : Int} {o : Option Handle} (hm : m.Orderly (value :: held))
    (hr : arrayStore h i value m = .ok o m') : m.Settles m' (o.toList ++ held) := by
  obtain ⟨xs, p, hb, -, rfl, rfl⟩ := arrayStore_ok hr
  refine hm.setBody _ (by rw [isFreed, hb]; rfl) rfl fun k => ?_
  have := Slots.count_owned_put xs value k p
  rw [hb]
  simp only [Body.owned, Slots.owned, List.count_append, List.count_cons, List.count_nil] at this ⊢
  omega

theorem arrayFetch?_ok {i : Int} {o : Option Handle} (hr : arrayFetch? h i m = .ok o m') :
    m' = m := by
  obtain ⟨xs, m₁, hslots, hr₁⟩ := Run.bind_ok hr
  exact (Run.pure_ok hr₁).2.trans (slots_ok hslots).2

theorem Orderly.arrayFetchOrNew {i : Int} {k : Handle} (hm : m.Orderly held)
    (hr : arrayFetchOrNew h i m = .ok k m') : m.Settles m' held := by
  obtain ⟨found, m₁, hfetch, hr₁⟩ := Run.bind_ok hr
  obtain rfl := arrayFetch?_ok hfetch
  cases found with
  | some found => cases hr₁; exact .refl hm
  | none =>
    obtain ⟨fresh, m₂, halloc, hr₂⟩ := Run.bind_ok hr₁
    obtain ⟨former, m₃, hstore, hr₃⟩ := Run.bind_ok hr₂
    have h₂ := Orderly.newScalar (s := .undefined) hm halloc
    have h₃ := h₂.orderly.arrayStore hstore
    cases former with
    | none => cases hr₃; exact h₂.trans h₃
    | some former => cases hr₃; exact h₂.trans (h₃.trans h₃.orderly.release)

/-! ### Hashes -/

theorem table_ok {t : Table} (hr : table h m = .ok t m') : m.body h = .hash t ∧ m' = m := by
  simp only [table, Run.look_bind] at hr
  cases hb : m.body h with
  | hash t => rw [hb] at hr; cases hr; exact ⟨rfl, rfl⟩
  | _ => rw [hb] at hr; cases hr

theorem onTable_ok {f : Table → α × Table} (hr : onTable h f m = .ok a m') :
    ∃ t, m.body h = .hash t ∧ a = (f t).1 ∧ m' = m.setBody h (.hash (f t).2) := by
  simp only [onTable, Run.look_bind] at hr
  cases hb : m.body h with
  | hash t => rw [hb] at hr; cases hr; exact ⟨t, rfl, rfl, rfl⟩
  | _ => rw [hb] at hr; cases hr

/-- A look at the table. -/
theorem Orderly.tableLook {f : Table → α} (hm : m.Orderly held)
    (hr : (do return f (← table h) : Run α) m = .ok a m') : m.Settles m' held := by
  obtain ⟨t, m₁, htable, hr₁⟩ := Run.bind_ok hr
  obtain ⟨-, rfl⟩ := table_ok htable
  cases hr₁
  exact .refl hm

/-- A new table whose values are, with those given back, the former ones and those given. -/
theorem Orderly.onTable {f : Table → α × Table} (given : List Handle) (back : α → List Handle)
    (hm : m.Orderly (given ++ held)) (hr : onTable h f m = .ok a m')
    (hk : ∀ t, t.keys.Nodup → (f t).2.keys.Nodup)
    (hf : ∀ t k, t.keys.Nodup → ((f t).2.entries.map (·.2)).count k + (back (f t).1).count k
      = (t.entries.map (·.2)).count k + given.count k) : m.Settles m' (back a ++ held) := by
  obtain ⟨t, hb, rfl, rfl⟩ := onTable_ok hr
  have hkeys : t.keys.Nodup := by
    have := hm.keyed h
    rwa [hb] at this
  refine hm.setBody _ (by rw [isFreed, hb]; rfl) rfl (fun k => ?_) (hk t hkeys)
  have := hf t k hkeys
  rw [hb]
  simp only [Body.owned, List.count_append] at this ⊢
  omega

theorem Orderly.hashStore {key : Bytes} {o : Option Handle} (hm : m.Orderly (value :: held))
    (hr : hashStore h key value m = .ok o m') : m.Settles m' (o.toList ++ held) :=
  Orderly.onTable [value] Option.toList hm hr (fun t => Table.keys_put t.entries key value)
    fun t k _ => Table.count_put t.entries key value k

theorem Orderly.hashTake {key : Bytes} {o : Option Handle} (hm : m.Orderly held)
    (hr : hashTake h key m = .ok o m') : m.Settles m' (o.toList ++ held) :=
  Orderly.onTable [] Option.toList hm hr
    (fun _ hn => (List.filter_sublist.map _).nodup hn)
    fun t k hn => Table.count_filter_ne t.entries key k hn

theorem Orderly.hashClear (hm : m.Orderly held) (hr : hashClear h m = .ok u m') :
    m.Settles m' held := by
  obtain ⟨t, m₁, htable, hr₁⟩ := Run.bind_ok hr
  cases hr₁
  have h₁ := Orderly.onTable [] (fun t => t.entries.map (·.2)) hm htable
    (fun _ _ => List.nodup_nil) fun t k _ => by
      rw [Nat.add_comm]
      rfl
  exact h₁.trans (Orderly.releaseAll (t.entries.map (·.2)) h₁.orderly)

theorem Orderly.hashStart {n : Nat} (hm : m.Orderly held) (hr : hashStart h m = .ok n m') :
    m.Settles m' held :=
  Orderly.onTable [] (fun _ => []) hm hr (fun _ hn => hn) fun _ _ _ => rfl

theorem Orderly.hashNext {o : Option (Bytes × Handle)} (hm : m.Orderly held)
    (hr : hashNext h m = .ok o m') : m.Settles m' held := by
  refine Orderly.onTable [] (fun _ => []) hm hr (fun _ hn => ?_) fun _ _ _ => ?_
  · rwa [Table.keys, Table.entries_step]
  · rw [Table.entries_step]

theorem hashFetch?_ok {key : Bytes} {o : Option Handle} (hr : hashFetch? h key m = .ok o m') :
    ∃ t, m.body h = .hash t ∧ o = t.get? key ∧ m' = m := by
  obtain ⟨t, m₁, htable, hr₁⟩ := Run.bind_ok hr
  obtain ⟨hb, rfl⟩ := table_ok htable
  obtain ⟨ho, rfl⟩ := Run.pure_ok hr₁
  exact ⟨t, hb, ho, rfl⟩

theorem Orderly.hashFetchOrNew {key : Bytes} {k : Handle} (hm : m.Orderly held)
    (hr : hashFetchOrNew h key m = .ok k m') : m.Settles m' held := by
  obtain ⟨found, m₁, hfetch, hr₁⟩ := Run.bind_ok hr
  obtain ⟨t, hb, hfound, rfl⟩ := hashFetch?_ok hfetch
  cases found with
  | some found => cases hr₁; exact .refl hm
  | none =>
    obtain ⟨fresh, m₂, halloc, hr₂⟩ := Run.bind_ok hr₁
    obtain ⟨former, m₃, hstore, hr₃⟩ := Run.bind_ok hr₂
    have h₂ := Orderly.newScalar (s := .undefined) hm halloc
    have h₃ := h₂.orderly.hashStore hstore
    -- the new scalar is none of the hash's entries, and so nothing is displaced
    obtain ⟨t', hb', hformer, -⟩ := onTable_ok hstore
    obtain ⟨-, rfl⟩ := newScalar_ok halloc
    have hs : h.index < m₁.heap.size := index_lt_of_not_isFreed (by rw [isFreed, hb]; rfl)
    rw [body_alloc _ _ (ne_next_of_lt hs), hb] at hb'
    cases hb'
    rw [hformer, ← hfound] at h₃
    cases hr₃
    exact h₂.trans h₃

theorem Orderly.hashPut {key : Bytes} (hm : m.Orderly (value :: held))
    (hr : hashPut h key value m = .ok u m') : m.Settles m' held := by
  obtain ⟨former, m₁, hstore, hr₁⟩ := Run.bind_ok hr
  have h₁ := hm.hashStore hstore
  cases former with
  | none => cases hr₁; exact h₁
  | some former => cases hr₁; exact h₁.trans h₁.orderly.release

end ValueMachine.Machine

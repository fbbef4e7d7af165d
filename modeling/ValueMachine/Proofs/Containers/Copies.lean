import ValueMachine.Proofs.Calls.Outcomes
import ValueMachine.Proofs.Ownership.Duplicates
import ValueMachine.Proofs.Ownership.Inspection

/-! Copies of arrays. A copy has a new scalar where the source has a value and a hole where the source
has a hole, up to the last value of the source. The holes behind that are not copied. -/

namespace ValueMachine

/-! ### Holes at the end -/

namespace Slots

variable {xs : Slots} {h : Handle} {p : Nat}

theorem trim_concat_hole : trim (xs ++ [none]) = trim xs := by simp [trim]

theorem trim_concat_value : trim (xs ++ [some h]) = xs ++ [some h] := by simp [trim]

/-- Only holes are trimmed. -/
theorem trim_append_holes (xs : Slots) : ∃ n, xs = trim xs ++ List.replicate n none := by
  induction xs using List.reverseRecOn with
  | nil => exact ⟨0, rfl⟩
  | append_singleton xs o ih =>
    cases o with
    | none =>
      obtain ⟨n, hn⟩ := ih
      refine ⟨n + 1, ?_⟩
      rw [trim_concat_hole, List.replicate_succ', ← List.append_assoc, ← hn]
    | some h => exact ⟨0, by rw [trim_concat_value, List.replicate_zero, List.append_nil]⟩

/-- Nothing is trimmed just if the last slot is no hole. -/
theorem length_trim_eq_iff : (trim xs).length = xs.length ↔ xs.getLast? ≠ some none := by
  rcases List.eq_nil_or_concat' xs with rfl | ⟨rest, o, rfl⟩
  · simp [trim]
  · cases o with
    | none =>
      obtain ⟨n, hn⟩ := trim_append_holes rest
      have hle : (trim rest).length ≤ rest.length := by
        conv_rhs => rw [hn]
        rw [List.length_append]
        exact Nat.le_add_right ..
      rw [trim_concat_hole, List.length_append, List.length_singleton, List.getLast?_concat]
      exact iff_of_false (by omega) fun hne => hne rfl
    | some h => simp [trim_concat_value]

/-- A value is put behind the slots, with holes up to it. -/
theorem put_of_length_le (hp : xs.length ≤ p) :
    (xs.put p h).2 = xs ++ List.replicate (p - xs.length) none ++ [some h] := by
  have hlen : (xs ++ List.replicate (p - xs.length) none).length = p := by
    rw [List.length_append, List.length_replicate, Nat.add_sub_of_le hp]
  rw [put, Nat.sub_add_comm hp, List.replicate_succ', ← List.append_assoc,
    List.set_append_right _ _ hlen.le, hlen, Nat.sub_self, List.set_cons_zero]

/-- What relates slots to other ones, up to the holes at the end, relates them still when a value is
appended to the former and put at their length into the latter. -/
theorem forall₂_put {R : Option Handle → Option Handle → Prop} {k v : Handle} {ys : Slots}
    (hxs : List.Forall₂ R (trim xs) ys) (hhole : R none none) (hvalue : R (some k) (some v)) :
    List.Forall₂ R (trim (xs ++ [some k])) (ys.put xs.length v).2 := by
  obtain ⟨n, hn⟩ := trim_append_holes xs
  have hlen : xs.length = ys.length + n := by
    conv_lhs => rw [hn]
    rw [List.length_append, List.length_replicate, hxs.length_eq]
  have hholes : List.Forall₂ R (List.replicate n none) (List.replicate n none) :=
    List.forall₂_same.2 fun o ho => List.eq_of_mem_replicate ho ▸ hhole
  rw [trim_concat_value, put_of_length_le (by omega), hlen, Nat.add_sub_cancel_left]
  conv in xs ++ [some k] => rw [hn]
  exact List.rel_append (List.rel_append hxs hholes) (.cons hvalue .nil)

end Slots

namespace Machine

variable {m m₁ m₂ : Machine} {held : List Handle} {h k v : Handle} {s : Scalar} {xs ys items : Slots}
  {o : Option Handle} {p : Nat}

/-! ### A value is copied -/

/-- The copy of a scalar whose read hooks do not write is a new scalar with its slots. Of the other
values only counts change, and only those of what the slots own. -/
theorem newCopy_of_scalar (hs : m.body h = .scalar s) (hh : ∀ g ∈ (m.cell h).magic, g.Tame) :
    ∃ m₁, newCopy h m = .ok m.heap.next m₁ ∧ m₁.heap.size = m.heap.size + 1 ∧
      m₁.cell m.heap.next = .fresh (.scalar s) ∧ ∀ k, k ≠ m.heap.next →
        (∃ n, m₁.cell k = { m.cell k with count := n }) ∧
          (k ∉ s.owned → m₁.cell k = m.cell k) := by
  obtain ⟨log, hlog⟩ := runReadHooks_of_tame hh
  let noted : Machine := { m with log := log }
  let counted := s.owned.foldl Machine.retain noted
  have hslots : copySlots h m = .ok s counted := by
    have hs' : noted.scalar? h = some s := scalar?_eq_some.2 hs
    rw [copySlots, Run.bind_of_ok hlog, Run.look_bind, hs']
    rfl
  have hnext : counted.heap.next = m.heap.next := noted.next_retainAll s.owned
  have hcopy : newCopy h m = .ok counted.heap.next (counted.alloc (.scalar s)).2 :=
    (Run.bind_of_ok hslots).trans rfl
  refine ⟨_, hnext ▸ hcopy, ?_, ?_, fun k hk => ?_⟩
  · rw [Machine.alloc, Heap.size_push]
    exact congrArg (·.index + 1) hnext
  · rw [← hnext]
    exact Heap.get_push_next _ _
  · have hcell : (counted.alloc (.scalar s)).2.cell k = counted.cell k :=
      Heap.get_push_ne _ _ _ (hnext ▸ hk)
    rw [hcell]
    exact ⟨noted.exists_cell_retainAll s.owned k, cell_retainAll_of_notMem (m := noted)⟩

/-- A store in a sequence that has room for it. -/
theorem arrayStore_of_lt (hb : m.body h = .array xs) (hp : p < slotLimit) :
    arrayStore h (Int.ofNat p) v m
      = .ok (xs.put p v).1 (m.setBody h (.array (xs.put p v).2)) := by
  have hplace : Slots.place? xs.length (Int.ofNat p) = some p := by simp [Slots.place?]
  have hreserve : arrayReserve h (p + 1) m = .ok () m := by
    rw [arrayReserve, Run.bind_of_ok (slots_apply hb), checkRoom, if_neg (Nat.not_lt.2 hp)]
    rfl
  rw [arrayStore, Run.bind_of_ok (slots_apply hb), hplace]
  exact (Run.bind_of_ok hreserve).trans (onSlots_apply hb fun xs => xs.put p v)

/-! ### An array is copied -/

/-- The steps of the copying: nothing is done for a hole, and a value is copied into its place. -/
theorem copyArray_eq (h : Handle) : ∃ step : Handle → Option Handle × Nat → Run PUnit,
    (copyArray h = newArray >>= fun copy => slots h >>= fun xs =>
      xs.zipIdx.forM (step copy) >>= fun _ => pure copy) ∧
    (∀ copy i, step copy (none, i) = pure ⟨⟩) ∧
    ∀ copy k i, step copy (some k, i) = newCopy k >>= fun v =>
      arrayStore copy (Int.ofNat i) v >>= fun _ => pure ⟨⟩ :=
  ⟨_, rfl, fun _ _ => rfl, fun _ _ _ => rfl⟩

/-- A slot of a copy: a hole for a hole, and for a value a new scalar, made after the copy, with its
body. -/
inductive Copied (m m₁ : Machine) : Option Handle → Option Handle → Prop
  | hole : Copied m m₁ none none
  | value {k c : Handle} : m.heap.size < c.index → c.index < m₁.heap.size →
      m₁.cell c = .fresh (m.body k) → Copied m m₁ (some k) (some c)

/-- What has been copied stays copied, as long as the new values stay. -/
theorem Copied.mono {o o' : Option Handle} (hc : m.Copied m₁ o o')
    (hsize : m₁.heap.size ≤ m₂.heap.size) (hsame : ∀ c : Handle, m.heap.size < c.index →
      c.index < m₁.heap.size → m₂.cell c = m₁.cell c) : m.Copied m₂ o o' := by
  cases hc with
  | hole => exact .hole
  | value hlow hhigh hcell => exact .value hlow (hhigh.trans_le hsize) ((hsame _ hlow hhigh).trans hcell)

/-- The first new value is a copy of some slots, without the holes at their end. The values from before
are what they were but for their counts. -/
structure CopyOf (m : Machine) (items : Slots) (m₁ : Machine) : Prop where
  size_lt : m.heap.size < m₁.heap.size
  former : ∀ k, k.index < m.heap.size → ∃ n, m₁.cell k = { m.cell k with count := n }
  slots : ∃ ys, m₁.cell m.heap.next = .fresh (.array ys) ∧
    List.Forall₂ (m.Copied m₁) (Slots.trim items) ys

/-- A value that can be copied as it stands: a scalar whose read hooks do not write. -/
def Copyable (m : Machine) (k : Handle) : Prop :=
  (∃ s, m.body k = .scalar s) ∧ ∀ g ∈ (m.cell k).magic, g.Tame

namespace CopyOf

theorem hole (hc : CopyOf m items m₁) : CopyOf m (items ++ [none]) m₁ :=
  { hc with slots := by rw [Slots.trim_concat_hole]; exact hc.slots }

/-- The next value is copied. -/
theorem value (hm : m.Orderly held) (hc : CopyOf m items m₁) (hk : m.Copyable k)
    (hroom : items.length < slotLimit) :
    ∃ m₂, (newCopy k >>= fun v => arrayStore m.heap.next (Int.ofNat items.length) v >>= fun _ =>
        pure ()) m₁ = .ok () m₂ ∧ CopyOf m (items ++ [some k]) m₂ := by
  obtain ⟨ys, hcopy, hslots⟩ := hc.slots
  obtain ⟨⟨s, hs⟩, hh⟩ := hk
  obtain ⟨n, hcount⟩ := hc.former k (index_lt_of_scalar hs)
  have hs₁ : m₁.body k = .scalar s := (congrArg Cell.body hcount).trans hs
  have hh₁ : ∀ g ∈ (m₁.cell k).magic, g.Tame := by rwa [hcount]
  obtain ⟨m₂, hnew, hsize, hcell, hkept⟩ := newCopy_of_scalar hs₁ hh₁
  have hnext : m₁.heap.next.index = m₁.heap.size := rfl
  have hsize_lt := hc.size_lt
  -- what is in the copy, or is the copy, does not belong to the slots that are copied
  have hsame : ∀ c : Handle, m.heap.size ≤ c.index → c.index < m₁.heap.size →
      m₂.cell c = m₁.cell c := fun c hlow hhigh => by
    refine (hkept c (ne_next_of_lt hhigh)).2 fun hmem => ?_
    have howned : c ∈ (m.body k).owned := by rwa [hs]
    exact absurd (hm.index_lt_of_mem_owned howned) (Nat.not_lt.2 hlow)
  have hcopy₂ : m₂.cell m.heap.next = .fresh (.array ys) :=
    (hsame m.heap.next le_rfl hsize_lt).trans hcopy
  have hstore := arrayStore_of_lt (v := m₁.heap.next) (congrArg Cell.body hcopy₂) hroom
  let zs : Slots := (Slots.put ys items.length m₁.heap.next).2
  let m₃ := m₂.setBody m.heap.next (.array zs)
  refine ⟨m₃, (Run.bind_of_ok hnew).trans ((Run.bind_of_ok hstore).trans rfl), ?_⟩
  have hothers : ∀ c, c ≠ m.heap.next → m₃.cell c = m₂.cell c :=
    fun c hne => Heap.get_set_ne _ _ _ _ hne
  have hsize₃ : m₃.heap.size = m₁.heap.size + 1 := (Heap.size_set _ _ _).trans hsize
  have hslots₃ : List.Forall₂ (m.Copied m₃) (Slots.trim items) ys := by
    refine hslots.imp fun o o' ho => ho.mono (by omega) fun c hlow hhigh => ?_
    have hne : c ≠ m.heap.next := by
      rintro rfl
      exact lt_irrefl _ hlow
    rw [hothers c hne, hsame c hlow.le hhigh]
  refine { size_lt := by omega, former := fun j hj => ?_, slots := ⟨zs, ?_, ?_⟩ }
  · obtain ⟨n, hn⟩ := hc.former j hj
    obtain ⟨n', hn'⟩ := (hkept j (ne_next_of_lt (hj.trans hsize_lt))).1
    exact ⟨n', by rw [hothers j (ne_next_of_lt hj), hn', hn]⟩
  · have hset := m₂.heap.get_set_self m.heap.next { m₂.cell m.heap.next with body := .array zs }
      (show m.heap.size < m₂.heap.size by omega)
    exact hset.trans (by rw [hcopy₂]; rfl)
  · refine Slots.forall₂_put hslots₃ .hole (.value hsize_lt (by omega) ?_)
    rw [hothers _ (ne_next_of_lt hsize_lt).symm, hcell, hs]

/-- All slots are copied, from left to right. -/
theorem all {step : Option Handle × Nat → Run PUnit} (hhole : ∀ i, step (none, i) = pure ⟨⟩)
    (hvalue : ∀ k i, step (some k, i) = newCopy k >>= fun v =>
      arrayStore m.heap.next (Int.ofNat i) v >>= fun _ => pure ⟨⟩)
    (hm : m.Orderly held) (hc : CopyOf m [] m₁) (hitems : ∀ k ∈ Slots.owned items, m.Copyable k)
    (hroom : items.length ≤ slotLimit) :
    ∃ m₂, items.zipIdx.forM step m₁ = .ok ⟨⟩ m₂ ∧ CopyOf m items m₂ := by
  induction items using List.reverseRecOn with
  | nil => exact ⟨m₁, rfl, hc⟩
  | append_singleton items o ih =>
    rw [List.length_append, List.length_singleton] at hroom
    rw [Slots.count_owned_append] at hitems
    obtain ⟨m₂, hloop, hc₂⟩ := ih (fun k hk => hitems k (List.mem_append_left _ hk)) (by omega)
    have hsplit : (items ++ [o]).zipIdx.forM step m₁ = step (o, items.length) m₂ := by
      rw [List.zipIdx_append, List.zipIdx_singleton, Nat.zero_add, List.forM_eq_forM,
        List.forM_append, ← List.forM_eq_forM, Run.bind_of_ok hloop, List.forM_eq_forM,
        List.forM_cons, List.forM_nil, bind_pure]
    rw [hsplit]
    cases o with
    | none => exact ⟨m₂, by rw [hhole]; rfl, hc₂.hole⟩
    | some k =>
      rw [hvalue]
      exact hc₂.value hm (hitems k (List.mem_append_right _ List.mem_cons_self)) hroom

end CopyOf

/-- A copy of an array is a new array with a new scalar for each value and a hole for each hole before
the last value. It is as long as its source, and then has the same holes, just if the source does not
end with a hole. The source is what it was. -/
theorem duplicate_array (hm : m.Orderly held) (hb : m.body h = .array xs)
    (hxs : ∀ k ∈ Slots.owned xs, m.Copyable k) (hroom : xs.length ≤ slotLimit) :
    ∃ ys m', duplicate h m = .ok m.heap.next m' ∧ m'.cell m.heap.next = .fresh (.array ys) ∧
      List.Forall₂ (m.Copied m') (Slots.trim xs) ys ∧
      (ys.length = xs.length ↔ xs.getLast? ≠ some none) ∧
      (∀ k, k.index < m.heap.size → m'.body k = m.body k) ∧ m.Settles m' (m.heap.next :: held) := by
  have hlive : m.isFreed h = false := by rw [isFreed, hb]; rfl
  let m₁ := (m.alloc (.array [])).2
  have hstart : CopyOf m [] m₁ := {
    size_lt := by simp [m₁, Machine.alloc]
    former := fun k hk => ⟨(m.cell k).count, Heap.get_push_ne _ _ _ (ne_next_of_lt hk)⟩
    slots := ⟨[], Heap.get_push_next _ _, .nil⟩ }
  have hslots : Machine.slots h m₁ = .ok xs m₁ :=
    slots_apply ((body_alloc m _ (ne_next_of_lt (index_lt_of_not_isFreed hlive))).trans hb)
  obtain ⟨step, hcopyArray, hhole, hvalue⟩ := copyArray_eq h
  obtain ⟨m', hloop, hc⟩ := hstart.all (hhole _) (hvalue _) hm hxs hroom
  have hrun : duplicate h m = .ok m.heap.next m' := by
    rw [duplicate, Run.look_bind, kind_of_array hb]
    show copyArray h m = _
    rw [hcopyArray, newArray, Run.modifyGet_bind, Run.bind_of_ok hslots]
    exact Run.bind_of_ok hloop
  obtain ⟨ys, hcell, hys⟩ := hc.slots
  refine ⟨ys, m', hrun, hcell, hys, ?_, fun k hk => ?_, hm.duplicate hlive hrun⟩
  · rw [← hys.length_eq]
    exact Slots.length_trim_eq_iff
  · obtain ⟨n, hn⟩ := hc.former k hk
    rw [body, hn]
    rfl

/-- Host code holds an array of a value and a hole. -/
def holdingHole : Machine :=
  ((fresh.alloc (.scalar (.ofInt64 1))).2.alloc (.array [some ⟨4⟩, none])).2

/-- The copy of a value and a hole has the value only. -/
theorem duplicate_holdingHole : holdingHole.Orderly [⟨5⟩] ∧
    holdingHole.body ⟨5⟩ = .array [some ⟨4⟩, none] ∧ ∃ c m', duplicate ⟨5⟩ holdingHole = .ok ⟨6⟩ m' ∧
      m'.cell ⟨6⟩ = .fresh (.array [some c]) ∧ m'.cell c = .fresh (.scalar (.ofInt64 1)) := by
  have hm : holdingHole.Orderly [⟨5⟩] := by decide +kernel
  have hb : holdingHole.body ⟨5⟩ = .array [some ⟨4⟩, none] := rfl
  have hvalues : ∀ k ∈ Slots.owned [some ⟨4⟩, none], holdingHole.Copyable k := fun k hk => by
    rw [List.mem_singleton.1 hk]
    exact ⟨⟨.ofInt64 1, rfl⟩, nofun⟩
  obtain ⟨ys, m', hrun, hcopy, hys, -⟩ := duplicate_array hm hb hvalues (by decide)
  have htrim : Slots.trim [some ⟨4⟩, none] = [some (⟨4⟩ : Handle)] := rfl
  rw [htrim] at hys
  cases hys with
  | cons hvalue hrest =>
    cases hrest
    cases hvalue with
    | value _ _ hcell => exact ⟨hm, hb, _, m', hrun, hcopy, hcell⟩

end Machine

end ValueMachine

import ValueMachine.Host.Array
import ValueMachine.Proofs.Calls.ErrorVariable
import ValueMachine.Proofs.Containers.Copies
import ValueMachine.Proofs.Ownership.Reachable

/-! Deletions from arrays. A deletion follows the rule, that the last slot goes and another one becomes
a hole, just if no hole is at the end of the array or the index denotes no slot before the last. The
operations that leave a hole at the end are a `pop` of the value behind one and an `unshift` into an
empty array. -/

namespace ValueMachine

/-! ### Slots -/

namespace Slots

variable {xs ys : Slots} {i : Int} {h : Handle} {p n : Nat}

/-- No hole is at the end. -/
def Trimmed (xs : Slots) : Prop := xs.getLast? ≠ some none

theorem trimmed_nil : Trimmed [] := nofun

theorem trimmed_concat_value (xs : Slots) (h : Handle) : Trimmed (xs ++ [some h]) := by
  rw [Trimmed, List.getLast?_concat]
  exact nofun

theorem trimmed_trim (xs : Slots) : Trimmed (trim xs) := by
  induction xs using List.reverseRecOn with
  | nil => exact trimmed_nil
  | append_singleton xs o ih =>
    cases o with
    | none => rwa [trim_concat_hole]
    | some h =>
      rw [trim_concat_value]
      exact trimmed_concat_value xs h

theorem trim_eq_self_iff : trim xs = xs ↔ Trimmed xs := by
  rw [Trimmed, ← length_trim_eq_iff]
  refine ⟨fun h => congrArg List.length h, fun hlen => ?_⟩
  obtain ⟨n, hn⟩ := trim_append_holes xs
  have hzero : n = 0 := by
    have := congrArg List.length hn
    rw [List.length_append, List.length_replicate] at this
    omega
  rwa [hzero, List.replicate_zero, List.append_nil, eq_comm] at hn

theorem trim_append_replicate (xs : Slots) (n : Nat) :
    trim (xs ++ List.replicate n none) = trim xs := by
  induction n with
  | zero => rw [List.replicate_zero, List.append_nil]
  | succ n ih => rw [List.replicate_succ', ← List.append_assoc, trim_concat_hole, ih]

/-- The end of slots is what it was as long as another slot is written. -/
theorem trimmed_set_iff {o : Option Handle} (hp : p + 1 < xs.length) :
    Trimmed (xs.set p o) ↔ Trimmed xs := by
  rw [Trimmed, Trimmed, List.getLast?_eq_getElem?, List.getLast?_eq_getElem?, List.length_set,
    List.getElem?_set_ne (by omega)]

theorem trimmed_put (hxs : Trimmed xs) (p : Nat) (h : Handle) : Trimmed (xs.put p h).2 := by
  rcases lt_trichotomy (p + 1) xs.length with hp | hp | hp
  · rw [put, Nat.sub_eq_zero_of_le hp.le, List.replicate_zero, List.append_nil]
    exact (trimmed_set_iff hp).2 hxs
  · rw [Trimmed, List.getLast?_eq_getElem?, length_put, ← hp, Nat.max_self, Nat.add_sub_cancel,
      getElem?_put_self]
    simp
  · rw [put_of_length_le (Nat.le_of_lt_succ hp)]
    exact trimmed_concat_value _ h

theorem trimmed_tail (hxs : Trimmed xs) : Trimmed xs.tail := by
  rcases xs with _ | ⟨o, _ | ⟨o', rest⟩⟩
  · exact hxs
  · exact trimmed_nil
  · rwa [Trimmed, List.getLast?_cons_cons] at hxs

/-- The end is a hole once the value behind a hole is off. -/
theorem trimmed_dropLast_iff : Trimmed xs.dropLast ↔ ¬ ∃ ys o, xs = ys ++ [none, o] := by
  rw [Trimmed, not_iff_not, List.getLast?_eq_some_iff]
  constructor
  · rintro ⟨ys, hys⟩
    have hxs : xs ≠ [] := by
      rintro rfl
      simp at hys
    refine ⟨ys, xs.getLast hxs, ?_⟩
    conv_lhs => rw [← List.dropLast_append_getLast hxs, hys]
    simp
  · rintro ⟨ys, o, rfl⟩
    exact ⟨ys, by simp⟩

/-- The end is a hole once holes are in front of nothing. -/
theorem trimmed_unshift_iff (hxs : Trimmed xs) :
    Trimmed (xs.unshift n) ↔ ¬ (xs = [] ∧ 0 < n) := by
  rcases List.eq_nil_or_concat' xs with rfl | ⟨rest, o, rfl⟩
  · cases n with
    | zero => simp [unshift, trimmed_nil]
    | succ n => simp [unshift, Trimmed, List.replicate_succ']
  · rw [Trimmed, unshift, ← List.append_assoc, List.getLast?_concat]
    rw [Trimmed, List.getLast?_concat] at hxs
    simp [hxs]

/-! ### The rule of deletions -/

/-- The slot that an index denotes. -/
def slot? (xs : Slots) (i : Int) : Option Nat := (place? xs.length i).filter (· < xs.length)

theorem lt_of_slot? (hp : xs.slot? i = some p) : p < xs.length :=
  of_decide_eq_true (Option.filter_eq_some_iff.1 hp).2

/-- What deletions are said to leave: without the last slot the array ends with its last remaining
value, another slot becomes a hole, and an index outside changes nothing. -/
inductive Deletes (xs : Slots) (i : Int) : Slots → Prop
  | outside : xs.slot? i = none → Deletes xs i xs
  | inner {p : Nat} : xs.slot? i = some p → p + 1 < xs.length → Deletes xs i (xs.set p none)
  | last {p n : Nat} {ys : Slots} : xs.slot? i = some p → p + 1 = xs.length →
      xs.dropLast = ys ++ List.replicate n none → Trimmed ys → Deletes xs i ys

theorem take_of_slot?_eq_none (hi : xs.slot? i = none) : xs.take i = (none, xs) := by
  rw [take]
  rw [slot?, Option.filter_eq_none_iff] at hi
  split
  next p hp => exact if_neg fun hlt => hi p hp (decide_eq_true hlt)
  next => rfl

theorem take_of_slot?_eq_some (hp : xs.slot? i = some p) :
    xs.take i = ((xs[p]?).join, trim (xs.set p none)) := by
  rw [take, (Option.filter_eq_some_iff.1 hp).1]
  exact if_pos (lt_of_slot? hp)

theorem take_fst (xs : Slots) (i : Int) : (xs.take i).1 = xs.fetch? i := by
  rw [take, fetch?]
  cases place? xs.length i with
  | none => rfl
  | some p =>
    rcases lt_or_ge p xs.length with hp | hp
    · rw [Option.bind_eq_bind, Option.bind_some]
      exact congrArg Prod.fst (if_pos hp)
    · rw [Option.bind_eq_bind, Option.bind_some, List.getElem?_eq_none hp]
      exact congrArg Prod.fst (if_neg hp.not_gt)

/-- What is taken out leaves a hole, and all holes at the end go with it. -/
theorem set_eq_take_append_holes (hp : xs.slot? i = some p) :
    Trimmed (xs.take i).2 ∧ ∃ n, xs.set p none = (xs.take i).2 ++ List.replicate n none := by
  rw [take_of_slot?_eq_some hp]
  exact ⟨trimmed_trim _, trim_append_holes _⟩

theorem trimmed_take (hxs : Trimmed xs) (i : Int) : Trimmed (xs.take i).2 := by
  cases hi : xs.slot? i with
  | none => rwa [take_of_slot?_eq_none hi]
  | some p => exact (set_eq_take_append_holes hi).1

/-- A deletion follows the rule just if no hole is at the end or the index denotes no slot before the
last. -/
theorem deletes_take_iff : xs.Deletes i (xs.take i).2 ↔
    Trimmed xs ∨ ∀ p, xs.slot? i = some p → p + 1 = xs.length := by
  cases hi : xs.slot? i with
  | none =>
    rw [take_of_slot?_eq_none hi]
    exact iff_of_true (.outside hi) (.inr nofun)
  | some p =>
    have hlt := lt_of_slot? hi
    obtain hlast | hinner : p + 1 = xs.length ∨ p + 1 < xs.length := by omega
    · have hset : xs.set p none = xs.dropLast ++ [none] := by
        rw [List.dropLast_eq_take, ← hlast, Nat.add_sub_cancel, List.set_eq_take_append_cons_drop,
          if_pos hlt, List.drop_of_length_le hlast.ge]
      obtain ⟨n, hn⟩ := trim_append_holes xs.dropLast
      refine iff_of_true ?_ (.inr fun q hq => ?_)
      · rw [take_of_slot?_eq_some hi, hset, trim_concat_hole]
        exact .last hi hlast hn (trimmed_trim _)
      · rwa [← Option.some.inj hq]
    · have hnotLast : ¬ ∀ q, some p = some q → q + 1 = xs.length :=
        fun h => hinner.ne (h p rfl)
      rw [take_of_slot?_eq_some hi, or_iff_left hnotLast, ← trimmed_set_iff hinner (o := none),
        ← trim_eq_self_iff]
      show xs.Deletes i (trim (xs.set p none)) ↔ _
      generalize trim (xs.set p none) = ys
      refine ⟨fun h => ?_, fun h => h ▸ .inner hi hinner⟩
      cases h with
      | outside hout => rw [hi] at hout; cases hout
      | inner hq _ => rw [hi] at hq; cases hq; rfl
      | last hq hend => rw [hi] at hq; cases hq; exact absurd hend hinner.ne

end Slots

/-! ### Holes at the end along runs -/

/-- An array without a hole at the end, or something else. -/
def Body.Trimmed (b : Body) : Prop := ∀ xs, b = .array xs → Slots.Trimmed xs

@[simp] theorem Body.trimmed_array {xs : Slots} : (Body.array xs).Trimmed ↔ Slots.Trimmed xs := by
  simp [Body.Trimmed]

theorem Body.trimmed_scalar (s : Scalar) : (Body.scalar s).Trimmed := by rintro _ ⟨⟩

namespace Machine

variable {m m' : Machine} {h : Handle} {xs ys : Slots} {b : Body}

/-- No array ends with a hole. -/
def Trimmed (m : Machine) : Prop := ∀ h, (m.body h).Trimmed

namespace Trimmed

theorem set (hm : m.Trimmed) (h : Handle) {c : Cell} (hc : c.body.Trimmed) :
    (m.onHeap (·.set h c)).Trimmed := by
  intro k
  simp only [body, cell, heap_onHeap, Heap.get_set]
  split
  · exact hc
  · exact hm k

theorem alloc (hm : m.Trimmed) (hb : b.Trimmed) : (m.alloc b).2.Trimmed := by
  intro k
  simp only [body, cell, Machine.alloc, Heap.get_push]
  split
  · exact hb
  · exact hm k

theorem global (hm : m.Trimmed) (s : Sigil) (name : String) : (m.global s name).2.Trimmed := by
  unfold Machine.global
  split
  · exact hm
  · have hb : (newGlobalBody s name).Trimmed := by
      cases s <;> rintro _ ⟨⟩
      exact Slots.trimmed_nil
    exact hm.alloc hb

theorem retain (hm : m.Trimmed) (h : Handle) : (m.retain h).Trimmed := by
  intro k
  rw [body_retain]
  exact hm k

/-- Releases write no slots, whatever the hooks. -/
theorem keptByRelease : KeptByRelease Trimmed fun _ => True where
  records _ _ _ _ _ := trivial
  lower _ h hm := hm.set h (hm h)
  strip _ h hm := hm.set h (hm h)
  noteFreed _ _ hm := hm
  revive _ name _ hm _ _ := (hm.global .scalar name).set _ (hm.global .scalar name _)
  unclaim _ _ hm := hm
  touch _ h _ hm _ _ := hm.retain h
  vacate _ h hm := hm.set h (by rintro _ ⟨⟩)

theorem release (hm : m.Trimmed) (h : Handle) : (m.release h).Trimmed :=
  keptByRelease.release h hm

/-- Written slots are the only ones that can now end with a hole. -/
theorem setBody_iff (hm : m.Trimmed) (hb : m.body h = .array xs) :
    (m.setBody h (.array ys)).Trimmed ↔ Slots.Trimmed ys := by
  have hlive : h.index < m.heap.size := index_lt_of_not_isFreed (by rw [isFreed, hb]; rfl)
  refine ⟨fun h' => h' h ys (body_setBody _ hlive), fun hys => hm.set h ?_⟩
  exact Body.trimmed_array.2 hys

theorem arrayStore (hm : m.Trimmed) {i : Int} {v : Handle} {o : Option Handle}
    (hr : arrayStore h i v m = .ok o m') : m'.Trimmed := by
  obtain ⟨xs, p, hb, -, -, rfl⟩ := arrayStore_ok hr
  exact (hm.setBody_iff hb).2 (Slots.trimmed_put (hm h xs hb) p v)

theorem arrayFetchOrNew (hm : m.Trimmed) {i : Int} {k : Handle}
    (hr : arrayFetchOrNew h i m = .ok k m') : m'.Trimmed := by
  obtain ⟨found, m₁, hfetch, hr₁⟩ := Run.bind_ok hr
  obtain rfl := arrayFetch?_ok hfetch
  cases found with
  | some found => cases hr₁; exact hm
  | none =>
    obtain ⟨v, m₂, hnew, hr₂⟩ := Run.bind_ok hr₁
    obtain ⟨former, m₃, hstore, hr₃⟩ := Run.bind_ok hr₂
    obtain ⟨-, rfl⟩ := newScalar_ok hnew
    have h₃ := (hm.alloc (Body.trimmed_scalar _)).arrayStore hstore
    cases former with
    | none => cases hr₃; exact h₃
    | some former => cases hr₃; exact h₃.release former

end Trimmed

/-- What leaves a hole at the end: the value behind a hole is popped, or holes are put in front of
nothing. -/
inductive Uncovers (m : Machine) : ArrayOperation → Prop
  | pop {h : Handle} {xs : Slots} {o : Option Handle} :
      m.body h = .array (xs ++ [none, o]) → m.Uncovers (.pop h)
  | unshift {h : Handle} {n : Nat} : m.body h = .array [] → 0 < n → m.Uncovers (.unshift h n)

/-- The operations on arrays that leave a hole at an end are those. -/
theorem Trimmed.run_iff (hm : m.Trimmed) {op : ArrayOperation} {back : List Handle}
    (hr : op.run m = .ok back m') : m'.Trimmed ↔ ¬ m.Uncovers op := by
  have hlook {α : Type} {f : Slots → α} {h : Handle} {a : α}
      (hx : (do return f (← slots h) : Run α) m = .ok a m') : m'.Trimmed := by
    obtain ⟨xs, m₁, hslots, hr₁⟩ := Run.bind_ok hx
    cases hr₁
    rwa [(slots_ok hslots).2]
  have hcheck {x : Run Unit} {h : Handle} {u : Unit} (hx : ∀ u m m', x m = .ok u m' → m' = m)
      (hx' : (do let _ ← slots h; x : Run Unit) m = .ok u m') : m'.Trimmed := by
    obtain ⟨xs, m₁, hslots, hr₁⟩ := Run.bind_ok hx'
    rwa [hx _ _ _ hr₁, (slots_ok hslots).2]
  have hwrite {α : Type} {f : Slots → α × Slots} {h : Handle} {a : α}
      (hx : onSlots h f m = .ok a m') (hf : ∀ xs, Slots.Trimmed xs → Slots.Trimmed (f xs).2) :
      m'.Trimmed := by
    obtain ⟨xs, hb, -, rfl⟩ := onSlots_ok hx
    exact (hm.setBody_iff hb).2 (hf xs (hm h xs hb))
  cases op <;> obtain ⟨a, hop, rfl⟩ := handing_ok hr
  case newArray =>
    cases hop
    exact iff_of_true (hm.alloc (Body.trimmed_array.2 Slots.trimmed_nil)) nofun
  case length h => exact iff_of_true (hlook hop) nofun
  case reserve h n => exact iff_of_true (hcheck (fun _ _ _ hr => checkRoom_ok hr) hop) nofun
  case extend h index => exact iff_of_true (hcheck (fun _ _ _ hr => checkIndex_ok hr) hop) nofun
  case store h i value => exact iff_of_true (hm.arrayStore hop) nofun
  case fetch h i => exact iff_of_true (hlook hop) nofun
  case fetchOrNew h i => exact iff_of_true (hm.arrayFetchOrNew hop) nofun
  case take h i => exact iff_of_true (hwrite hop fun xs hxs => Slots.trimmed_take hxs i) nofun
  case has h i => exact iff_of_true (hlook hop) nofun
  case push h value =>
    exact iff_of_true (hwrite hop fun xs _ => Slots.trimmed_concat_value xs value) nofun
  case pop h =>
    obtain ⟨xs, hb, -, rfl⟩ := onSlots_ok hop
    rw [hm.setBody_iff hb]
    refine Slots.trimmed_dropLast_iff.trans (not_congr ⟨?_, ?_⟩)
    · rintro ⟨ys, o, rfl⟩
      exact .pop hb
    · rintro (hb' | _)
      rw [hb] at hb'
      cases hb'
      exact ⟨_, _, rfl⟩
  case shift h => exact iff_of_true (hwrite hop fun xs hxs => Slots.trimmed_tail hxs) nofun
  case unshift h n =>
    obtain ⟨xs, m₁, hslots, hr₁⟩ := Run.bind_ok hop
    obtain ⟨_, m₂, hroom, hr₂⟩ := Run.bind_ok hr₁
    obtain ⟨hb, rfl⟩ := slots_ok hslots
    obtain rfl := checkRoom_ok hroom
    obtain ⟨xs', hb', -, rfl⟩ := onSlots_ok hr₂
    rw [hb] at hb'
    cases hb'
    rw [hm.setBody_iff hb]
    refine (Slots.trimmed_unshift_iff (hm h xs hb)).trans (not_congr ⟨?_, ?_⟩)
    · rintro ⟨rfl, hn⟩
      exact .unshift hb hn
    · rintro (_ | ⟨hb', hn⟩)
      rw [hb] at hb'
      cases hb'
      exact ⟨rfl, hn⟩
  case clear h =>
    obtain ⟨xs, m₁, hslots, hr₁⟩ := Run.bind_ok hop
    cases hr₁
    obtain ⟨xs, hb, -, rfl⟩ := onSlots_ok hslots
    have h₁ : (m.setBody h (.array [])).Trimmed := (hm.setBody_iff hb).2 Slots.trimmed_nil
    exact iff_of_true (keptByRelease.releaseAll _ h₁) nofun

/-- An operation on an array that leaves no hole at the end, or something else, which leaves the slots
of arrays alone, frees arrays and makes empty ones. -/
inductive Tidies (m m' : Machine) : Prop
  | operation {op : ArrayOperation} {back : List Handle} :
      op.run m = .ok back m' → ¬ m.Uncovers op → Tidies m m'
  | other : (∀ h xs, m'.body h = .array xs → m.body h = .array xs ∨ xs = []) → Tidies m m'

/-- Without such an operation no array comes to end with a hole. -/
theorem Trimmed.of_steps (hm : m.Trimmed) (hsteps : Relation.ReflTransGen Tidies m m') :
    m'.Trimmed := by
  induction hsteps with
  | refl => exact hm
  | tail _ hstep ih =>
    cases hstep with
    | operation hr hop => exact (ih.run_iff hr).2 hop
    | other hkept =>
      intro h xs hb
      rcases hkept h xs hb with hb' | rfl
      · exact ih h xs hb'
      · exact Slots.trimmed_nil

end Machine

/-! ### Deletions by host code -/

namespace HostArray

open Machine

variable {m : Machine} {a : Held} {xs : Slots}

/-- A deletion hands over the value at the index and changes nothing but the slots. They are what the
rule says just if no hole was at the end or the index denotes no slot before the last; that is so along
runs in which no operation left a hole at an end. In any case the slot becomes a hole and all holes at
the end go. -/
theorem deletion_follows_rule_iff (hb : m.body a.handle = .array xs) (i : Int) :
    ∃ ys m', delete? a i m = .ok ((xs.fetch? i).map (⟨·, (m.focus a.owner).here⟩)) m' ∧
      m'.body a.handle = .array ys ∧ (∀ k, k ≠ a.handle → m'.cell k = m.cell k) ∧
      (xs.Deletes i ys ↔ xs.Trimmed ∨ ∀ p, xs.slot? i = some p → p + 1 = xs.length) ∧
      (∀ p, xs.slot? i = some p →
        Slots.Trimmed ys ∧ ∃ n, xs.set p none = ys ++ List.replicate n none) ∧
      ∀ m₀, m₀.Trimmed → Relation.ReflTransGen Tidies m₀ m → xs.Deletes i ys := by
  have hb₁ : (m.focus a.owner).body a.handle = .array xs := by rwa [body, cell, heap_focus]
  have hlive : a.handle.index < m.heap.size := index_lt_of_not_isFreed (by rw [isFreed, hb]; rfl)
  have htake := onSlots_apply hb₁ (Slots.take · i)
  let m₁ := (m.focus a.owner).setBody a.handle (.array (xs.take i).2)
  have hadopt : adoptSome (xs.take i).1 m₁
      = .ok ((xs.fetch? i).map (⟨·, (m.focus a.owner).here⟩)) m₁ := by
    rw [Slots.take_fst]
    cases xs.fetch? i <;> rfl
  have hrun : delete? a i m = .ok ((xs.fetch? i).map (⟨·, (m.focus a.owner).here⟩))
      (m₁.focus m.here) := by
    rw [delete?, onInterpreter, Run.look_bind, Run.change_bind, Run.always_apply, arrayTake,
      Run.bind_of_ok htake, hadopt]
  have hheap : (m₁.focus m.here).heap = (m.setBody a.handle (.array (xs.take i).2)).heap := by
    simp only [m₁, setBody, heap_onHeap, heap_focus]
  have hbody : (m₁.focus m.here).body a.handle = .array (xs.take i).2 := by
    rw [body, cell, hheap]
    exact body_setBody _ hlive
  have hrule : xs.Deletes i (xs.take i).2 ↔ _ := Slots.deletes_take_iff
  refine ⟨_, _, hrun, hbody, fun k hk => ?_, hrule, fun p hp => Slots.set_eq_take_append_holes hp,
    fun m₀ hm₀ hsteps => hrule.2 (.inl (hm₀.of_steps hsteps _ _ hb))⟩
  rw [cell, hheap]
  exact Heap.get_set_ne _ _ _ _ hk

/-- A value before a hole is deleted: the array is empty then, where the rule keeps its two slots. -/
theorem deletion_holdingHole : holdingHole.body ⟨5⟩ = .array [some ⟨4⟩, none] ∧
    ∃ m', delete? ⟨⟨5⟩, holdingHole.here⟩ 0 holdingHole = .ok (some ⟨⟨4⟩, holdingHole.here⟩) m' ∧
      m'.body ⟨5⟩ = .array [] ∧ ¬ Slots.Deletes [some ⟨4⟩, none] 0 [] := by
  have hb : holdingHole.body ⟨5⟩ = .array [some ⟨4⟩, none] := rfl
  have hslot : Slots.slot? [some ⟨4⟩, none] 0 = some 0 := rfl
  obtain ⟨ys, m', hrun, hbody, -, hrule, hslots, -⟩ :=
    deletion_follows_rule_iff (a := ⟨⟨5⟩, holdingHole.here⟩) hb 0
  obtain ⟨htrimmed, n, hn⟩ := hslots 0 hslot
  have hys : ys = [] := by
    rw [← Slots.trim_eq_self_iff.2 htrimmed, ← Slots.trim_append_replicate ys n, ← hn]
    rfl
  rw [hys] at hbody hrule
  refine ⟨hb, m', hrun, hbody, fun h => ?_⟩
  rcases hrule.1 h with h | h
  · exact h rfl
  · exact absurd (h 0 hslot) (by decide)

end HostArray

end ValueMachine

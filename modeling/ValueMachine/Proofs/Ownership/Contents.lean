import Mathlib.Tactic
import ValueMachine.Heap.Slots
import ValueMachine.Heap.Table

/-! How often a value is in the slots of an array and in the entries of a hash. Each operation on
them gives back what it displaces, so what is inside and what comes out add up. -/

namespace ValueMachine

/-! ### Slots -/

namespace Slots

/-- The values in the slots. -/
def owned (xs : Slots) : List Handle := xs.filterMap id

variable (xs : Slots) (h k : Handle)

theorem count_owned_append (ys : Slots) :
    owned (xs ++ ys) = owned xs ++ owned ys := List.filterMap_append

theorem count_owned_cons (o : Option Handle) :
    (owned (o :: xs)).count k = o.toList.count k + (owned xs).count k := by
  cases o <;> simp [owned, List.count_cons]
  omega

theorem owned_replicate_none (n : Nat) : owned (List.replicate n none) = [] := by
  induction n with
  | zero => rfl
  | succ n ih => exact ih

theorem count_owned_set (o : Option Handle) {p : Nat} (hp : p < xs.length) :
    (owned (xs.set p o)).count k + xs[p].toList.count k
      = (owned xs).count k + o.toList.count k := by
  have hold : (owned xs).count k = (owned (List.take p xs)).count k
      + (xs[p].toList.count k + (owned (List.drop (p + 1) xs)).count k) := by
    conv_lhs => rw [← List.take_append_drop p xs, List.drop_eq_getElem_cons hp]
    rw [count_owned_append, List.count_append, count_owned_cons]
  have hnew : (owned (xs.set p o)).count k = (owned (List.take p xs)).count k
      + (o.toList.count k + (owned (List.drop (p + 1) xs)).count k) := by
    rw [List.set_eq_take_append_cons_drop, if_pos hp, count_owned_append, List.count_append,
      count_owned_cons]
  omega

theorem count_owned_put (p : Nat) :
    (owned (xs.put p h).2).count k + (xs.put p h).1.toList.count k
      = (owned xs).count k + [h].count k := by
  have hp : p < (xs ++ List.replicate (p + 1 - xs.length) none).length := by
    simp only [List.length_append, List.length_replicate]
    omega
  have hset := count_owned_set (xs ++ List.replicate (p + 1 - xs.length) none) k (some h) hp
  have hformer : (xs ++ List.replicate (p + 1 - xs.length) none)[p] = (xs[p]?).join := by
    by_cases hlt : p < xs.length
    · rw [List.getElem_append_left hlt, List.getElem?_eq_getElem hlt]
      rfl
    · rw [List.getElem_append_right (by omega), List.getElem_replicate,
        List.getElem?_eq_none (by omega)]
      rfl
  rw [hformer, count_owned_append, owned_replicate_none, List.append_nil] at hset
  exact hset

theorem owned_trim : owned (trim xs) = owned xs := by
  have hdrop : ∀ ys : Slots, owned (ys.dropWhile (·.isNone)) = owned ys := by
    intro ys
    induction ys with
    | nil => rfl
    | cons o rest ih => cases o <;> simp_all [owned]
  have hreverse : ∀ ys : Slots, owned ys.reverse = (owned ys).reverse :=
    fun ys => List.filterMap_reverse
  rw [trim, hreverse, hdrop, hreverse, List.reverse_reverse]

theorem count_owned_take (i : Int) :
    (owned (xs.take i).2).count k + (xs.take i).1.toList.count k = (owned xs).count k := by
  unfold take
  split
  next p _ =>
    split
    next hp =>
      have hset := count_owned_set xs k none hp
      rw [owned_trim, List.getElem?_eq_getElem hp]
      simpa using hset
    next => simp
  next => simp

theorem count_owned_pop :
    (owned xs.pop.2).count k + xs.pop.1.toList.count k = (owned xs).count k := by
  rcases List.eq_nil_or_concat xs with rfl | ⟨rest, o, rfl⟩
  · rfl
  · simp only [pop, List.concat_eq_append, List.dropLast_concat, List.getLast?_concat,
      count_owned_append, List.count_append, count_owned_cons]
    cases o <;> simp [owned]

theorem count_owned_shift :
    (owned xs.shift.2).count k + xs.shift.1.toList.count k = (owned xs).count k := by
  cases xs with
  | nil => rfl
  | cons o rest =>
    rw [count_owned_cons]
    cases o <;> simp [shift]
    omega

end Slots

/-! ### Entries -/

namespace Table

variable (entries : List (Bytes × Handle)) (key : Bytes) (h k : Handle)

theorem count_put :
    ((put key h entries).map (·.2)).count k + (entries.lookup key).toList.count k
      = (entries.map (·.2)).count k + [h].count k := by
  induction entries with
  | nil => simp [put]
  | cons entry rest ih =>
    obtain ⟨other, v⟩ := entry
    rw [lookup_entry]
    by_cases hk : other = key
    · subst hk
      simp only [put, beq_self_eq_true, if_true, List.map_cons, List.count_cons, List.count_nil,
        Option.toList_some]
      omega
    · simp only [put, beq_iff_eq, hk, Ne.symm hk, if_false, List.map_cons, List.count_cons] at ih ⊢
      omega

theorem keys_put (hn : (entries.map (·.1)).Nodup) : ((put key h entries).map (·.1)).Nodup := by
  induction entries with
  | nil => simp [put]
  | cons entry rest ih =>
    obtain ⟨other, v⟩ := entry
    rw [List.map_cons, List.nodup_cons] at hn
    by_cases hk : other = key
    · subst hk
      simpa [put] using hn
    · have hmem : other ∉ (put key h rest).map (·.1) := by
        intro hmem
        have hsub : ∀ es : List (Bytes × Handle),
            other ∈ (put key h es).map (·.1) → other ∈ es.map (·.1) := by
          intro es
          induction es with
          | nil => simp [put, hk]
          | cons e es ih =>
            by_cases he : e.1 = key
            · simp [put, he, hk]
            · simp only [put, beq_iff_eq, he, if_false, List.map_cons, List.mem_cons]
              rintro (h | h)
              · exact .inl h
              · exact .inr (ih h)
        exact hn.1 (hsub rest hmem)
      simpa [put, hk] using ⟨by simpa using hmem, ih hn.2⟩

theorem count_filter_ne (hn : (entries.map (·.1)).Nodup) :
    ((entries.filter (·.1 != key)).map (·.2)).count k + (entries.lookup key).toList.count k
      = (entries.map (·.2)).count k := by
  induction entries with
  | nil => rfl
  | cons entry rest ih =>
    obtain ⟨other, v⟩ := entry
    rw [List.map_cons, List.nodup_cons] at hn
    rw [lookup_entry]
    by_cases hk : other = key
    · subst hk
      have hrest : rest.filter (·.1 != other) = rest := by
        refine List.filter_eq_self.2 fun e he => ?_
        rw [bne_iff_ne]
        intro hother
        exact hn.1 (List.mem_map.2 ⟨e, he, hother⟩)
      rw [List.filter_cons_of_neg (by simp), hrest]
      simp only [if_true, Option.toList_some, List.map_cons, List.count_cons, List.count_nil]
      omega
    · have := ih hn.2
      rw [List.filter_cons_of_pos (by simpa using hk), if_neg (Ne.symm hk)]
      simp only [List.map_cons, List.count_cons]
      omega

end Table

end ValueMachine

import Mathlib.Data.List.Induction
import Mathlib.Data.List.Nodup
import ValueMachine.Text.Bytes

/-! The pairs that a map keeps. Of some pairs with one key it keeps the last, so it has all of them only
where no key comes twice. -/

namespace ValueMachine.Keyed

variable {α : Type} {pairs : List (String × α)} {p : String × α}

theorem sorted_perm (pairs : List (String × α)) : (sorted pairs).Perm pairs :=
  List.mergeSort_perm _ _

/-- The last pair of each key, in the order of the pairs. -/
def kept (pairs : List (String × α)) : List (String × α) :=
  pairs.foldl (fun kept p => kept.filter (·.1 != p.1) ++ [p]) []

theorem latest_perm (pairs : List (String × α)) : (latest pairs).Perm (kept pairs) := sorted_perm _

/-- A pair takes the place of those with its key. -/
theorem kept_concat (pairs : List (String × α)) (p : String × α) :
    kept (pairs ++ [p]) = (kept pairs).filter (·.1 != p.1) ++ [p] := List.foldl_concat ..

theorem kept_sublist (pairs : List (String × α)) : (kept pairs).Sublist pairs := by
  induction pairs using List.reverseRecOn with
  | nil => exact .refl _
  | append_singleton pairs p ih =>
    rw [kept_concat]
    exact (List.filter_sublist.trans ih).append (.refl _)

theorem nodup_kept (pairs : List (String × α)) : ((kept pairs).map (·.1)).Nodup := by
  induction pairs using List.reverseRecOn with
  | nil => exact List.nodup_nil
  | append_singleton pairs p ih =>
    rw [kept_concat, List.map_append]
    refine (ih.sublist (List.filter_sublist.map _)).append (List.nodup_singleton _) ?_
    simp [List.Disjoint]

theorem mem_map_kept {key : String} : key ∈ (kept pairs).map (·.1) ↔ key ∈ pairs.map (·.1) := by
  induction pairs using List.reverseRecOn with
  | nil => rfl
  | append_singleton pairs p ih =>
    have hothers : key ∈ ((kept pairs).filter (·.1 != p.1)).map (·.1) ↔
        key ∈ (kept pairs).map (·.1) ∧ key ≠ p.1 := by
      simp only [List.mem_map, List.mem_filter, bne_iff_ne]
      constructor
      · rintro ⟨q, ⟨hq, hne⟩, rfl⟩
        exact ⟨⟨q, hq, rfl⟩, hne⟩
      · rintro ⟨⟨q, hq, rfl⟩, hne⟩
        exact ⟨q, ⟨hq, hne⟩, rfl⟩
    rw [kept_concat, List.map_append, List.mem_append, hothers, ih, List.map_append, List.mem_append]
    by_cases hkey : key = p.1 <;> simp [hkey]

/-- No pair with the key comes after one that is kept. -/
theorem mem_kept : p ∈ kept pairs ↔
    ∃ before after, pairs = before ++ p :: after ∧ ∀ q ∈ after, q.1 ≠ p.1 := by
  induction pairs using List.reverseRecOn with
  | nil => simp [kept]
  | append_singleton pairs q ih =>
    rw [kept_concat, List.mem_append, List.mem_filter, List.mem_singleton, ih]
    constructor
    · rintro (⟨⟨before, after, rfl, hafter⟩, hne⟩ | rfl)
      · refine ⟨before, after ++ [q], by simp, List.forall_mem_append.2 ⟨hafter, ?_⟩⟩
        exact List.forall_mem_singleton.2 (bne_iff_ne.1 hne).symm
      · exact ⟨pairs, [], rfl, by simp⟩
    · rintro ⟨before, after, hsplit, hafter⟩
      rcases List.eq_nil_or_concat after with rfl | ⟨after, r, rfl⟩
      · have hlast := (List.append_inj' hsplit rfl).2
        exact .inr (List.singleton_inj.1 hlast).symm
      · rw [List.concat_eq_append, ← List.cons_append, ← List.append_assoc] at hsplit
        obtain ⟨rfl, hlast⟩ := List.append_inj' hsplit rfl
        obtain rfl := List.singleton_inj.1 hlast
        rw [List.concat_eq_append, List.forall_mem_append] at hafter
        exact .inl ⟨⟨before, after, rfl, hafter.1⟩,
          bne_iff_ne.2 (hafter.2 q (List.mem_singleton_self q)).symm⟩

theorem kept_eq (hn : (pairs.map (·.1)).Nodup) : kept pairs = pairs := by
  induction pairs using List.reverseRecOn with
  | nil => rfl
  | append_singleton pairs p ih =>
    rw [List.map_append, List.nodup_append] at hn
    have hother : pairs.filter (·.1 != p.1) = pairs := List.filter_eq_self.2 fun q hq => by
      simpa using hn.2.2 q.1 (List.mem_map_of_mem hq) p.1 (by simp)
    rw [kept_concat, ih hn.1, hother]

theorem nodup_latest (pairs : List (String × α)) : ((latest pairs).map (·.1)).Nodup :=
  ((latest_perm pairs).map _).nodup_iff.2 (nodup_kept pairs)

theorem mem_map_latest {key : String} : key ∈ (latest pairs).map (·.1) ↔ key ∈ pairs.map (·.1) :=
  ((latest_perm pairs).map _).mem_iff.trans mem_map_kept

theorem mem_latest : p ∈ latest pairs ↔
    ∃ before after, pairs = before ++ p :: after ∧ ∀ q ∈ after, q.1 ≠ p.1 :=
  (latest_perm pairs).mem_iff.trans mem_kept

theorem mem_of_mem_latest (hp : p ∈ latest pairs) : p ∈ pairs :=
  (kept_sublist pairs).subset ((latest_perm pairs).mem_iff.1 hp)

/-- Where no key comes twice, every pair is the latest of its key. -/
theorem latest_eq (hn : (pairs.map (·.1)).Nodup) : latest pairs = sorted pairs :=
  congrArg sorted (kept_eq hn)

/-- A map has all the pairs only where no key comes twice. -/
theorem length_latest_iff : (latest pairs).length = pairs.length ↔ (pairs.map (·.1)).Nodup := by
  rw [(latest_perm pairs).length_eq]
  constructor
  · intro hlength
    have hall := (kept_sublist pairs).eq_of_length hlength
    rw [← hall]
    exact nodup_kept pairs
  · exact fun hn => congrArg List.length (kept_eq hn)

/-! ### The pairs that a map does not keep -/

end ValueMachine.Keyed

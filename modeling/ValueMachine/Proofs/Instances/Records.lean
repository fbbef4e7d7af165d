import ValueMachine.Host.Any
import ValueMachine.Proofs.Ownership.Steps

/-! Claims on host instances and the records that account for them. An object that stands for an
instance carries one record of hooks with the word of the instance, and the map of claims counts
these records. While a value is dying its records are gone and the claims are still owed; a claim
that has just been made is owed a record in the same sense. -/

namespace ValueMachine

open Machine

/-- A record of the hooks by which an object stands for a host instance. -/
def Magic.isBridge (g : Magic) : Bool := g.type == Magic.extension && g.table == .bridge

/-- The words of the instances that a value stands for. -/
def Cell.words (c : Cell) : List UInt64 := (c.magic.filter (·.isBridge)).map (·.word)

/-- Only the hooks of objects give claims back, and a freed value stands for nothing. -/
structure Cell.Proper (c : Cell) : Prop where
  hooks : ∀ g ∈ c.magic, FreeAction.unclaim ∈ g.table.onFree → g.isBridge = true
  freed : c.body.isFreed = true → c.words = []

namespace Cell

variable {c : Cell}

theorem words_of_magic (hc : c.magic = []) : c.words = [] := by
  rw [words, hc]
  rfl

theorem proper_of_magic (hc : c.magic = []) : c.Proper :=
  ⟨by simp [hc], fun _ => words_of_magic hc⟩

end Cell

namespace Magic

theorem table_of_isBridge {g : Magic} (hg : g.isBridge = true) : g.table = .bridge := by
  simp only [isBridge, Bool.and_eq_true, beq_iff_eq] at hg
  exact hg.2

end Magic

namespace Heap

/-- The words of all records in the heap. -/
def words (H : Heap) : List UInt64 := H.cells.toList.flatMap (·.words)

/-- Overwriting a cell replaces its words. -/
theorem count_words_set (H : Heap) {h : Handle} (hs : h.index < H.size) (c : Cell) (w : UInt64) :
    (H.set h c).words.count w + (H.get h).words.count w = H.words.count w + c.words.count w := by
  obtain ⟨before, after, hcells, hset⟩ := H.exists_split hs
  simp only [words, hset c]
  rw [hcells]
  simp only [List.flatMap_append, List.flatMap_cons, List.count_append]
  omega

theorem words_push (H : Heap) (c : Cell) : (H.push c).words = H.words ++ c.words := by
  simp [words, push]

theorem mem_words {H : Heap} {h : Handle} {w : UInt64} (hw : w ∈ (H.get h).words) : w ∈ H.words := by
  have hs : h.index < H.cells.toList.length := by
    by_contra hs
    rw [H.get_of_size_le (by simpa [size] using hs)] at hw
    cases hw
  rw [H.get_eq_getElem hs] at hw
  exact List.mem_flatMap.2 ⟨_, List.getElem_mem hs, hw⟩

end Heap

/-! ### The map of claims -/

/-- The claims on an instance in a map. -/
def claimsIn (cs : List (InstanceId × Nat)) (i : InstanceId) : Nat :=
  ((cs.find? (·.1 = i)).map (·.2)).getD 0

section Claims

variable {cs : List (InstanceId × Nat)} {i j : InstanceId} {n : Nat}

@[simp] theorem claimsIn_nil : claimsIn [] i = 0 := rfl

theorem claimsIn_cons : claimsIn ((j, n) :: cs) i = if j = i then n else claimsIn cs i := by
  simp only [claimsIn, List.find?_cons]
  by_cases hj : j = i <;> simp [hj]

theorem claimsIn_append (ds : List (InstanceId × Nat)) :
    claimsIn (cs ++ ds) i = if i ∈ cs.map (·.1) then claimsIn cs i else claimsIn ds i := by
  induction cs with
  | nil => simp
  | cons c rest ih =>
    obtain ⟨k, n⟩ := c
    simp only [List.cons_append, claimsIn_cons, ih, List.map_cons, List.mem_cons]
    by_cases hk : k = i
    · simp [hk]
    · have hik : i ≠ k := Ne.symm hk
      simp only [hk, hik, if_false, false_or]

theorem claimsIn_eq_zero (hi : i ∉ cs.map (·.1)) : claimsIn cs i = 0 := by
  have happend : claimsIn (cs ++ []) i = if i ∈ cs.map (·.1) then claimsIn cs i else claimsIn [] i :=
    claimsIn_append []
  rwa [List.append_nil, if_neg hi] at happend

theorem claimsIn_pos (hpos : ∀ c ∈ cs, 0 < c.2) (hi : i ∈ cs.map (·.1)) : 0 < claimsIn cs i := by
  induction cs with
  | nil => cases hi
  | cons c rest ih =>
    obtain ⟨k, n⟩ := c
    rw [claimsIn_cons]
    split
    next => exact hpos (k, n) List.mem_cons_self
    next hk =>
      refine ih (fun c hc => hpos c (List.mem_cons_of_mem _ hc)) ?_
      simpa [Ne.symm hk] using hi

/-- The map with one claim more. -/
def claimIn (cs : List (InstanceId × Nat)) (i : InstanceId) : List (InstanceId × Nat) :=
  if cs.any (·.1 = i) then cs.map fun (j, n) => if j = i then (j, n + 1) else (j, n)
  else cs ++ [(i, 1)]

theorem any_fst_iff : (cs.any fun c => c.1 = i) = true ↔ i ∈ cs.map (·.1) := by
  simp only [List.any_eq_true, decide_eq_true_eq, List.mem_map]

theorem keys_claimIn : (claimIn cs i).map (·.1) =
    if i ∈ cs.map (·.1) then cs.map (·.1) else cs.map (·.1) ++ [i] := by
  unfold claimIn
  split
  next hi =>
    rw [if_pos (any_fst_iff.1 hi), List.map_map]
    refine List.map_congr_left fun c _ => ?_
    simp only [Function.comp_apply]
    split <;> rfl
  next hi => rw [if_neg fun h => hi (any_fst_iff.2 h), List.map_append, List.map_singleton]

theorem claimsIn_claimIn (j : InstanceId) :
    claimsIn (claimIn cs i) j = claimsIn cs j + if j = i then 1 else 0 := by
  unfold claimIn
  split
  next hi =>
    have hmap (ds : List (InstanceId × Nat)) (hj : j ∈ ds.map (·.1) ∨ j ≠ i) :
        claimsIn (ds.map fun (k, n) => if k = i then (k, n + 1) else (k, n)) j
          = claimsIn ds j + if j = i then 1 else 0 := by
      induction ds with
      | nil => rcases hj with hj | hj <;> simp_all
      | cons c rest ih =>
        obtain ⟨k, n⟩ := c
        by_cases hk : k = i
        · subst hk
          by_cases hj : k = j
          · simp [claimsIn_cons, hj]
          · simpa [claimsIn_cons, hj, Ne.symm hj] using ih (.inr (Ne.symm hj))
        · by_cases hkj : k = j
          · subst hkj
            simp [claimsIn_cons, hk]
          · simpa [claimsIn_cons, hk, hkj] using ih (by simpa [Ne.symm hkj] using hj)
    by_cases hj : j = i
    · exact hmap cs (.inl (hj ▸ any_fst_iff.1 hi))
    · exact hmap cs (.inr hj)
  next hi =>
    have hnot : i ∉ cs.map (·.1) := fun h => hi (any_fst_iff.2 h)
    rw [claimsIn_append, claimsIn_cons, claimsIn_nil]
    by_cases hj : j = i
    · subst hj
      rw [if_neg hnot, claimsIn_eq_zero hnot]
      simp
    · rw [if_neg (Ne.symm hj), if_neg hj]
      split
      · rfl
      next h => rw [claimsIn_eq_zero h]

theorem pos_claimIn (hpos : ∀ c ∈ cs, 0 < c.2) : ∀ c ∈ claimIn cs i, 0 < c.2 := by
  unfold claimIn
  split
  · simp only [List.mem_map]
    rintro _ ⟨c, hc, rfl⟩
    split
    · exact Nat.succ_pos _
    · exact hpos c hc
  · intro c hc
    rcases List.mem_append.1 hc with hc | hc
    · exact hpos c hc
    · rw [List.mem_singleton.1 hc]
      exact Nat.one_pos

/-- The map with one claim less on an instance. -/
def dropClaim (cs : List (InstanceId × Nat)) (i : InstanceId) : List (InstanceId × Nat) :=
  cs.filterMap fun (j, n) =>
    if j = i then (if n > 1 then some (j, n - 1) else none) else some (j, n)

theorem keys_dropClaim : ((dropClaim cs i).map (·.1)).Sublist (cs.map (·.1)) := by
  induction cs with
  | nil => exact .slnil
  | cons c rest ih =>
    obtain ⟨j, n⟩ := c
    by_cases hj : j = i
    · by_cases hn : n > 1
      · simpa [dropClaim, hj, hn] using ih
      · simpa [dropClaim, hj, hn] using ih.cons i
    · simpa [dropClaim, hj] using ih

theorem pos_dropClaim (hpos : ∀ c ∈ cs, 0 < c.2) : ∀ c ∈ dropClaim cs i, 0 < c.2 := by
  intro c hc
  obtain ⟨⟨j, n⟩, hd, heq⟩ := List.mem_filterMap.1 hc
  by_cases hj : j = i
  · by_cases hn : n > 1
    · simp only [hj, hn, if_true, Option.some.injEq] at heq
      rw [← heq]
      exact Nat.sub_pos_of_lt hn
    · simp [hj, hn] at heq
  · simp only [hj, if_false, Option.some.injEq] at heq
    exact heq ▸ hpos _ hd

theorem claimsIn_dropClaim (hn : (cs.map (·.1)).Nodup) (j : InstanceId) :
    claimsIn (dropClaim cs i) j = claimsIn cs j - if j = i then 1 else 0 := by
  induction cs with
  | nil => simp [dropClaim]
  | cons c rest ih =>
    obtain ⟨k, n⟩ := c
    rw [List.map_cons, List.nodup_cons] at hn
    have hrest := ih hn.2
    by_cases hk : k = i
    · subst hk
      have hgone : claimsIn (dropClaim rest k) k = 0 :=
        claimsIn_eq_zero fun h => hn.1 (keys_dropClaim.mem h)
      have hcons : dropClaim ((k, n) :: rest) k
          = (if n > 1 then [(k, n - 1)] else []) ++ dropClaim rest k := by
        by_cases hone : n > 1 <;> simp [dropClaim, hone]
      rw [hcons, claimsIn_cons]
      by_cases hj : k = j
      · subst hj
        by_cases hone : n > 1
        · simp [hone, claimsIn_cons]
        · simp only [hone, if_false, List.nil_append, if_true, hgone]
          omega
      · by_cases hone : n > 1
        · simpa [hone, claimsIn_cons, hj, Ne.symm hj] using hrest
        · simpa [hone, hj, Ne.symm hj] using hrest
    · have hcons : dropClaim ((k, n) :: rest) i = (k, n) :: dropClaim rest i := by
        simp [dropClaim, hk]
      rw [hcons, claimsIn_cons, claimsIn_cons]
      by_cases hj : k = j
      · subst hj
        simp [hk]
      · simpa [hj] using hrest

end Claims

/-! ### Claims and records in step -/

namespace Machine

/-- The claims on the instances of a set are the records in the heap and what is owed. -/
structure Bridged (S : Set InstanceId) (m : Machine) (owed : List UInt64 := []) : Prop where
  /-- An instance is in the map once, -/
  once : (m.claims.map (·.1)).Nodup
  /-- and as long as there are claims on it. -/
  positive : ∀ c ∈ m.claims, 0 < c.2
  known : ∀ c ∈ m.claims, c.1 ∈ S
  /-- Every record and every debt is about an instance. -/
  about : ∀ w ∈ m.heap.words ++ owed, ∃ i ∈ S, w = i.identity
  claims : ∀ i ∈ S, m.claimsOn i = (m.heap.words ++ owed).count i.identity
  proper : ∀ h, (m.cell h).Proper

variable {S : Set InstanceId} {m m' : Machine} {owed owed' : List UInt64} {h : Handle} {c : Cell}
  {i : InstanceId}

theorem claimsOn_eq (m : Machine) (i : InstanceId) : m.claimsOn i = claimsIn m.claims i := rfl

theorem claim_eq (m : Machine) (i : InstanceId) :
    m.claim i = { m with claims := claimIn m.claims i } := by
  unfold claim claimIn
  split <;> rfl

namespace Bridged

theorem mem_of_count {w : UInt64} {xs : List UInt64} (h : 0 < xs.count w) : w ∈ xs :=
  List.count_pos_iff.1 h

/-- Only how often each word occurs matters. -/
theorem of_count (hm : m.Bridged S owed) (hclaims : m'.claims = m.claims)
    (hcount : ∀ w, (m'.heap.words ++ owed').count w = (m.heap.words ++ owed).count w)
    (hproper : ∀ h, (m'.cell h).Proper) : m'.Bridged S owed' where
  once := hclaims ▸ hm.once
  positive := hclaims ▸ hm.positive
  known := hclaims ▸ hm.known
  about w hw := hm.about w (mem_of_count (by rw [← hcount]; exact List.count_pos_iff.2 hw))
  claims j hj := by rw [claimsOn_eq, hclaims, hcount]; exact hm.claims j hj
  proper := hproper

/-- Claims, heap and debts alone matter. -/
theorem congr (hm : m.Bridged S owed) (heap : m'.heap = m.heap) (claims : m'.claims = m.claims) :
    m'.Bridged S owed :=
  hm.of_count claims (fun w => by rw [heap]) fun k => by
    rw [cell, heap]
    exact hm.proper k

/-- A cell is overwritten, and what it loses in words is owed. -/
theorem set (hm : m.Bridged S owed) (hs : h.index < m.heap.size)
    (hw : ∀ w, c.words.count w + owed'.count w = (m.cell h).words.count w + owed.count w)
    (hc : c.Proper) : (m.onHeap (·.set h c)).Bridged S owed' := by
  refine hm.of_count rfl (fun w => ?_) fun k => ?_
  · have hset := m.heap.count_words_set hs c w
    have := hw w
    simp only [List.count_append, cell, onHeap] at this ⊢
    omega
  · simp only [cell, heap_onHeap, Heap.get_set]
    split
    · exact hc
    · exact hm.proper k

/-- A cell that keeps its words. -/
theorem set_of_eq (hm : m.Bridged S owed) (hw : c.words = (m.cell h).words) (hc : c.Proper) :
    (m.onHeap (·.set h c)).Bridged S owed := by
  by_cases hs : h.index < m.heap.size
  · exact hm.set hs (fun w => by rw [hw]) hc
  · refine hm.congr ?_ rfl
    rw [heap_onHeap, Heap.set_of_size_le _ _ (by omega)]

/-- A new value pays what is owed for its records. -/
theorem push (hm : m.Bridged S (c.words ++ owed)) (hc : c.Proper) :
    (m.onHeap (·.push c)).Bridged S owed := by
  refine hm.of_count rfl (fun w => ?_) fun k => ?_
  · simp only [heap_onHeap, Heap.words_push, List.append_assoc]
  · simp only [cell, heap_onHeap, Heap.get_push]
    split
    · exact hc
    · exact hm.proper k

/-- A claim that is made is owed a record. -/
theorem claim (hm : m.Bridged S owed) (hi : i ∈ S) (hS : S.InjOn InstanceId.identity) :
    (m.claim i).Bridged S (i.identity :: owed) := by
  rw [claim_eq]
  refine ⟨?_, pos_claimIn hm.positive, fun c hc => ?_, fun w hw => ?_, fun j hj => ?_, hm.proper⟩
  · rw [keys_claimIn]
    split
    · exact hm.once
    next hnot =>
      refine List.nodup_append.2 ⟨hm.once, List.nodup_singleton i, fun a ha b hb hab => hnot ?_⟩
      rw [← List.mem_singleton.1 hb, ← hab]
      exact ha
  · have hkey := List.mem_map_of_mem (f := (·.1)) hc
    rw [keys_claimIn] at hkey
    have hold : c.1 ∈ m.claims.map (·.1) → c.1 ∈ S := fun h => by
      obtain ⟨d, hd, he⟩ := List.mem_map.1 h
      exact he ▸ hm.known d hd
    split at hkey
    · exact hold hkey
    · rcases List.mem_append.1 hkey with hkey | hkey
      · exact hold hkey
      · exact List.mem_singleton.1 hkey ▸ hi
  · rcases List.mem_append.1 hw with hw | hw
    · exact hm.about w (List.mem_append_left _ hw)
    · rcases List.mem_cons.1 hw with rfl | hw
      · exact ⟨i, hi, rfl⟩
      · exact hm.about w (List.mem_append_right _ hw)
  · have hold := hm.claims j hj
    rw [claimsOn_eq] at hold ⊢
    rw [claimsIn_claimIn, hold]
    simp only [List.count_append, List.count_cons, beq_iff_eq]
    by_cases hji : j = i
    · simp [hji]
      omega
    · have hne : i.identity ≠ j.identity := fun he => hji (hS hi hj he).symm
      simp [hji, hne]

/-- A claim that is owed is given back. -/
theorem unclaim (hm : m.Bridged S (h' :: owed)) (hS : S.InjOn InstanceId.identity) :
    (m.unclaim h').Bridged S owed := by
  obtain ⟨i, hi, rfl⟩ := hm.about h' (List.mem_append_right _ List.mem_cons_self)
  have heq : (m.unclaim i.identity) = { m with claims := dropClaim m.claims i } := by
    simp only [Machine.unclaim, dropClaim]
    congr 1
    refine List.filterMap_congr fun c hc => ?_
    by_cases hci : c.1 = i
    · simp [hci]
    · have hne : c.1.identity ≠ i.identity := fun he => hci (hS (hm.known c hc) hi he)
      simp [hci, hne]
  rw [heq]
  refine ⟨hm.once.sublist keys_dropClaim, pos_dropClaim hm.positive, fun c hc => ?_,
    fun w hw => ?_, fun j hj => ?_, hm.proper⟩
  · obtain ⟨d, hd, he⟩ := List.mem_map.1 (keys_dropClaim.mem (List.mem_map_of_mem (f := (·.1)) hc))
    exact he ▸ hm.known d hd
  · refine hm.about w (List.mem_append.2 ((List.mem_append.1 hw).imp id ?_))
    exact List.mem_cons_of_mem _
  · have hold := hm.claims j hj
    rw [claimsOn_eq] at hold ⊢
    rw [claimsIn_dropClaim hm.once, hold]
    simp only [List.count_append, List.count_cons, beq_iff_eq]
    by_cases hji : j = i
    · simp [hji]
    · have hne : i.identity ≠ j.identity := fun he => hji (hS hi hj he).symm
      simp [hji, hne]

end Bridged

end Machine

end ValueMachine

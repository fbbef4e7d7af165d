import ValueMachine.Proofs.Iterations.Tours

/-! Loans. What host code holds of a conversion has been lent to it: counts on values that were there,
and new undefined values, made where an element is missing. Once all is given back, in whatever order,
each value is as it was. -/

namespace ValueMachine

open Machine

/-! ### Cells -/

namespace Cell

/-- A cell with some counts lent. A shared value is not counted. -/
def lent (c : Cell) (n : Nat) : Cell := if c.immortal then c else { c with count := c.count + n }

/-- The cell of a new undefined value with some counts in all. It is gone with the last one. -/
def standIn : Nat → Cell
  | 0 => .freed
  | n + 1 => { Cell.fresh (.scalar .undefined) with count := n + 1 }

variable {c : Cell}

theorem lent_zero (c : Cell) : c.lent 0 = c := by
  unfold lent
  split <;> rfl

theorem lent_of_immortal (hi : c.immortal = true) (n : Nat) : c.lent n = c := if_pos hi

theorem lent_of_counted (hi : c.immortal = false) (n : Nat) :
    c.lent n = { c with count := c.count + n } := if_neg (by simp [hi])

theorem lent_lent (c : Cell) (n k : Nat) : (c.lent n).lent k = c.lent (n + k) := by
  cases hi : c.immortal with
  | true => rw [lent_of_immortal hi, lent_of_immortal hi, lent_of_immortal hi]
  | false =>
    have hi' : ({ c with count := c.count + n } : Cell).immortal = false := hi
    rw [lent_of_counted hi, lent_of_counted hi', lent_of_counted hi, Nat.add_assoc]

/-- Only what is there is lent. -/
theorem standIn_lent {n k : Nat} (hn : n = 0 → k = 0) : (standIn n).lent k = standIn (n + k) := by
  cases n with
  | zero => rw [hn rfl, lent_zero]
  | succ n =>
    rw [lent_of_counted rfl, Nat.succ_add]
    exact congrArg (fun j => { Cell.fresh (.scalar .undefined) with count := j }) (Nat.succ_add n k)

@[simp] theorem lent_body (c : Cell) (n : Nat) : (c.lent n).body = c.body := by
  unfold lent
  split <;> rfl

@[simp] theorem lent_magic (c : Cell) (n : Nat) : (c.lent n).magic = c.magic := by
  unfold lent
  split <;> rfl

@[simp] theorem lent_immortal (c : Cell) (n : Nat) : (c.lent n).immortal = c.immortal := by
  unfold lent
  split <;> rfl

theorem count_le_lent (c : Cell) (n : Nat) : c.count ≤ (c.lent n).count := by
  unfold lent
  split
  · exact le_rfl
  · exact Nat.le_add_right _ _

end Cell

/-! ### Machines -/

namespace Machine

variable {m m' m₁ m₂ : Machine} {vs ws : List Held} {v : Held} {h k : Handle}

/-- The held values that are at the places from a number on. -/
def heldFrom (n : Nat) (vs : List Held) : Finset Held := vs.toFinset.filter (n ≤ ·.handle.index)

theorem mem_heldFrom {n : Nat} : v ∈ heldFrom n vs ↔ v ∈ vs ∧ n ≤ v.handle.index := by
  simp [heldFrom]

/-- A machine that has lent host code some held values, each as often as it is listed. Those that were
not there before are undefined values. -/
structure Lends (m : Machine) (vs : List Held) (m' : Machine) : Prop where
  rest : m' = { m with
    heap := m'.heap, interp := { m.interp with live := m'.interp.live }, others := m'.others }
  others : m'.others.Perm m.others
  size_le : m.heap.size ≤ m'.heap.size
  owner : ∀ v ∈ vs, v.owner = m.here
  kept : ∀ v ∈ vs, v.handle.index < m.heap.size → m.Kept v.handle
  live : m'.interp.live = m.interp.live + (heldFrom m.heap.size vs).card
  old : ∀ k, k.index < m.heap.size → m'.cell k = (m.cell k).lent (vs.count ⟨k, m.here⟩)
  new : ∀ k, m.heap.size ≤ k.index → m'.cell k = .standIn (vs.count ⟨k, m.here⟩)

namespace Lends

theorem refl (m : Machine) : m.Lends [] m where
  rest := rfl
  others := .refl _
  size_le := le_rfl
  owner := by simp
  kept := by simp
  live := rfl
  old k _ := (Cell.lent_zero _).symm
  new _ hs := cell_of_size_le hs

theorem perm (hm : m.Lends vs m') (hp : vs.Perm ws) : m.Lends ws m' where
  rest := hm.rest
  others := hm.others
  size_le := hm.size_le
  owner v hv := hm.owner v (hp.mem_iff.2 hv)
  kept v hv := hm.kept v (hp.mem_iff.2 hv)
  live := by rw [hm.live, heldFrom, List.toFinset_eq_of_perm _ _ hp, ← heldFrom]
  old k hs := by rw [hm.old k hs, hp.count_eq]
  new k hs := by rw [hm.new k hs, hp.count_eq]

theorem here (hm : m.Lends vs m') : m'.here = m.here := by rw [hm.rest]

theorem isAlive (hm : m.Lends vs m') (i : InterpId) : m'.isAlive i = m.isAlive i := by
  rw [hm.rest]
  rfl

theorem alive (hm : m.Lends vs m') (hlive : m.isAlive m.here) : m'.isAlive m'.here := by
  rwa [hm.isAlive, hm.here]

/-- A held value belongs to the interpreter in focus. -/
theorem eq_of_mem (hm : m.Lends vs m') (hv : v ∈ vs) : (⟨v.handle, m.here⟩ : Held) = v := by
  rw [← hm.owner v hv]

/-- A value that was there is kept. -/
theorem kept_of_kept (hm : m.Lends vs m') (hk : m.Kept k) : m'.Kept k := by
  rw [Kept, hm.old k hk.index_lt, Cell.lent_immortal]
  exact hk.imp_right fun hc h0 => hc (Nat.le_zero.1 (h0 ▸ Cell.count_le_lent _ _))

/-- What is lent is kept. -/
theorem kept_of_mem (hm : m.Lends vs m') (hv : v ∈ vs) : m'.Kept v.handle := by
  rcases Nat.lt_or_ge v.handle.index m.heap.size with hs | hs
  · exact hm.kept_of_kept (hm.kept v hv hs)
  · obtain ⟨n, hn⟩ := Nat.exists_eq_succ_of_ne_zero (List.count_pos_iff.2 hv).ne'
    refine .inr ?_
    rw [hm.new _ hs, hm.eq_of_mem hv, hn]
    exact Nat.succ_ne_zero n

theorem body (hm : m.Lends vs m') (hs : k.index < m.heap.size) : m'.body k = m.body k := by
  rw [Machine.body, hm.old k hs, Cell.lent_body, Machine.body]

/-- A new value that is there is lent. -/
theorem mem_of_kept (hm : m.Lends vs m') (hs : m.heap.size ≤ k.index) (hk : m'.Kept k) :
    (⟨k, m.here⟩ : Held) ∈ vs := by
  by_contra hnot
  rw [Kept, hm.new k hs, List.count_eq_zero.2 hnot] at hk
  rcases hk with hi | hc
  · cases hi
  · exact hc rfl

/-- A value of old that is there was kept before. -/
theorem kept_before (hm : m.Lends vs m') (hs : k.index < m.heap.size) (hk : m'.Kept k) : m.Kept k := by
  by_cases hv : (⟨k, m.here⟩ : Held) ∈ vs
  · exact hm.kept _ hv hs
  · rwa [Kept, hm.old k hs, List.count_eq_zero.2 hv, Cell.lent_zero] at hk

/-- The new values that are lent first or then are those that are new at first and those that are new
then. -/
theorem card_heldFrom (hm : m.Lends vs m₁) (hm₁ : m₁.Lends ws m₂) :
    (heldFrom m.heap.size (vs ++ ws)).card
      = (heldFrom m.heap.size vs).card + (heldFrom m₁.heap.size ws).card := by
  have hunion : heldFrom m.heap.size (vs ++ ws)
      = heldFrom m.heap.size vs ∪ heldFrom m₁.heap.size ws := by
    ext w
    simp only [Finset.mem_union, mem_heldFrom, List.mem_append]
    constructor
    · rintro ⟨hv | hw, hs⟩
      · exact .inl ⟨hv, hs⟩
      · rcases Nat.lt_or_ge w.handle.index m₁.heap.size with hlt | hge
        · have hmem := hm.mem_of_kept hs (hm₁.kept w hw hlt)
          rw [← hm.here, hm₁.eq_of_mem hw] at hmem
          exact .inl ⟨hmem, hs⟩
        · exact .inr ⟨hw, hge⟩
    · rintro (⟨hv, hs⟩ | ⟨hw, hs⟩)
      · exact ⟨.inl hv, hs⟩
      · exact ⟨.inr hw, hm.size_le.trans hs⟩
  have hdisjoint : Disjoint (heldFrom m.heap.size vs) (heldFrom m₁.heap.size ws) := by
    refine Finset.disjoint_left.2 fun v hv hw => ?_
    have hlt := (hm.kept_of_mem (mem_heldFrom.1 hv).1).index_lt
    exact absurd (mem_heldFrom.1 hw).2 (Nat.not_le.2 hlt)
  rw [hunion, Finset.card_union_of_disjoint hdisjoint]

/-- What was lent first and what was lent then. -/
theorem trans (hm : m.Lends vs m₁) (hm₁ : m₁.Lends ws m₂) : m.Lends (vs ++ ws) m₂ where
  rest := hm₁.rest.trans (congrArg (fun x : Machine => { x with
    heap := m₂.heap
    interp := { x.interp with live := m₂.interp.live }
    others := m₂.others }) hm.rest)
  others := hm₁.others.trans hm.others
  size_le := hm.size_le.trans hm₁.size_le
  owner := List.forall_mem_append.2 ⟨hm.owner, fun w hw => (hm₁.owner w hw).trans hm.here⟩
  kept := List.forall_mem_append.2 ⟨hm.kept, fun w hw hs =>
    hm.kept_before hs (hm₁.kept w hw (hs.trans_le hm.size_le))⟩
  live := by rw [hm₁.live, hm.live, card_heldFrom hm hm₁, Nat.add_assoc]
  old k hs := by
    rw [hm₁.old k (hs.trans_le hm.size_le), hm.old k hs, Cell.lent_lent, hm.here, List.count_append]
  new k hs := by
    rw [List.count_append]
    rcases Nat.lt_or_ge k.index m₁.heap.size with hlt | hge
    · rw [hm₁.old k hlt, hm.new k hs, hm.here]
      -- only a new value that is still lent is there to be lent once more
      refine Cell.standIn_lent fun hzero => List.count_eq_zero.2 fun hw => ?_
      rw [← hm.here] at hw
      exact List.count_eq_zero.1 hzero (hm.mem_of_kept hs (hm₁.kept _ hw hlt))
    · have hnot : (⟨k, m.here⟩ : Held) ∉ vs := fun hv =>
        absurd (hm.kept_of_mem hv).index_lt (Nat.not_lt.2 hge)
      rw [hm₁.new k hge, hm.here, List.count_eq_zero.2 hnot, Nat.zero_add]

/-- A count on a value is lent. -/
theorem retain (hk : m.Kept h) : m.Lends [⟨h, m.here⟩] (m.retain h) := by
  have hlt := hk.index_lt
  have hfrom : heldFrom m.heap.size [⟨h, m.here⟩] = ∅ :=
    Finset.filter_false_of_mem (by simpa using hlt)
  have hcell (k : Handle) :
      (m.retain h).cell k = (m.cell k).lent ([⟨h, m.here⟩].count (⟨k, m.here⟩ : Held)) := by
    by_cases hkh : k = h
    · subst hkh
      rw [List.count_singleton_self]
      cases hi : (m.cell k).immortal with
      | true => rw [Cell.lent_of_immortal hi, Machine.retain, if_pos hi]
      | false => rw [Cell.lent_of_counted hi, cell_retain hi hlt]
    · rw [cell_retain_of_ne hkh, List.count_eq_zero.2 (by simpa using hkh), Cell.lent_zero]
  have hrest : m.retain h = { m with heap := (m.retain h).heap } := by
    unfold Machine.retain
    split <;> rfl
  have hlive : (m.retain h).interp.live = m.interp.live := by rw [hrest]
  have hothers : (m.retain h).others = m.others := by rw [hrest]
  have hsize : (m.retain h).heap.size = m.heap.size := by
    unfold Machine.retain
    split
    · rfl
    · exact Heap.size_set ..
  refine ⟨?_, .of_eq hothers, hsize.ge, by simp, by simpa using fun _ => hk, ?_, fun k _ => hcell k,
    fun k hs => ?_⟩
  · rw [hlive, hothers]
    exact hrest
  · rw [hlive, hfrom]
    rfl
  · have hkh : k ≠ h := fun he => absurd hlt (Nat.not_lt.2 (he ▸ hs))
    rw [cell_retain_of_ne hkh, List.count_eq_zero.2 (by simpa using hkh)]
    exact cell_of_size_le hs

/-- A new undefined value is lent. -/
theorem alloc (m : Machine) :
    m.Lends [⟨m.heap.next, m.here⟩] (m.alloc (.scalar .undefined)).2 := by
  have hother {k : Handle} (hk : k ≠ m.heap.next) :
      [(⟨m.heap.next, m.here⟩ : Held)].count ⟨k, m.here⟩ = 0 :=
    List.count_eq_zero.2 (by simpa using hk)
  have hfrom : heldFrom m.heap.size [⟨m.heap.next, m.here⟩] = {⟨m.heap.next, m.here⟩} :=
    Finset.filter_true_of_mem (by simp [Heap.next, Heap.size])
  refine ⟨rfl, .refl _, by simp [Machine.alloc], by simp, ?_, ?_, fun k hs => ?_, fun k hs => ?_⟩
  · exact List.forall_mem_singleton.2 fun hs => absurd hs (lt_irrefl _)
  · rw [hfrom, Finset.card_singleton]
    rfl
  · have hk := ne_next_of_lt hs
    rw [cell_alloc_ne _ hk, hother hk, Cell.lent_zero]
  · by_cases hk : k = m.heap.next
    · subst hk
      rw [cell_alloc, List.count_singleton_self]
      rfl
    · rw [cell_alloc_ne _ hk, hother hk]
      exact cell_of_size_le hs

/-- A held value is given back: its cell has one count less than was lent, and the others stay. -/
theorem giveBack (hm : m.Lends (v :: vs) m₁)
    (hrest : m₂ = { m₁ with
      heap := m₂.heap, interp := { m₁.interp with live := m₂.interp.live } })
    (hsize : m₂.heap.size = m₁.heap.size)
    (hlive : m₂.interp.live + (heldFrom m.heap.size (v :: vs)).card
      = m₁.interp.live + (heldFrom m.heap.size vs).card)
    (hother : ∀ k, k ≠ v.handle → m₂.cell k = m₁.cell k)
    (hold : v.handle.index < m.heap.size →
      m₂.cell v.handle = (m.cell v.handle).lent (vs.count v))
    (hnew : m.heap.size ≤ v.handle.index → m₂.cell v.handle = .standIn (vs.count v)) :
    m.Lends vs m₂ := by
  have hv := hm.eq_of_mem List.mem_cons_self
  have hcount {k : Handle} (hk : k ≠ v.handle) :
      (v :: vs).count ⟨k, m.here⟩ = vs.count ⟨k, m.here⟩ :=
    List.count_cons_of_ne fun he => hk (congrArg Held.handle he).symm
  refine ⟨?_, ?_, hm.size_le.trans_eq hsize.symm, fun w hw => hm.owner w (List.mem_cons_of_mem _ hw),
    fun w hw => hm.kept w (List.mem_cons_of_mem _ hw), ?_, fun k hs => ?_, fun k hs => ?_⟩
  · rw [hrest]
    exact congrArg (fun x : Machine => { x with
      heap := m₂.heap, interp := { x.interp with live := m₂.interp.live } }) hm.rest
  · rw [hrest]
    exact hm.others
  · have := hm.live
    omega
  · by_cases hk : k = v.handle
    · rw [hk, hv]
      exact hold (hk ▸ hs)
    · rw [hother k hk, hm.old k hs, hcount hk]
  · by_cases hk : k = v.handle
    · rw [hk, hv]
      exact hnew (hk ▸ hs)
    · rw [hother k hk, hm.new k hs, hcount hk]

theorem heldFrom_cons {n : Nat} (hv : n ≤ v.handle.index → v ∈ vs) :
    heldFrom n (v :: vs) = heldFrom n vs := by
  ext w
  rw [mem_heldFrom, mem_heldFrom, List.mem_cons]
  refine and_congr_left fun hs => or_iff_right_of_imp ?_
  rintro rfl
  exact hv hs

/-- A count that is not the last one is given back. -/
theorem lower (hm : m.Lends (v :: vs) m') (hi : (m'.cell v.handle).immortal = false)
    (hc : 1 < (m'.cell v.handle).count) : m.Lends vs (m'.release v.handle) := by
  have hv := hm.eq_of_mem List.mem_cons_self
  have hlt := (hm.kept_of_mem List.mem_cons_self).index_lt
  have hself : (v :: vs).count ⟨v.handle, m.here⟩ = vs.count v + 1 := by
    rw [hv, List.count_cons_self]
  have hmem (hs : m.heap.size ≤ v.handle.index) : v ∈ vs := by
    rw [hm.new _ hs, hself] at hc
    exact List.count_pos_iff.1 (Nat.lt_of_succ_lt_succ hc)
  rw [release_of_one_lt hi hc]
  refine hm.giveBack rfl (Heap.size_set ..) (by rw [heldFrom_cons hmem]; rfl)
    (fun k hk => Heap.get_set_ne _ _ _ _ hk) (fun hs => ?_) fun hs => ?_
  · refine (Heap.get_set_self _ _ _ hlt).trans ?_
    rw [hm.old _ hs, Cell.lent_immortal] at hi
    rw [hm.old _ hs, hself, Cell.lent_of_counted hi, Cell.lent_of_counted hi]
    rfl
  · refine (Heap.get_set_self _ _ _ hlt).trans ?_
    obtain ⟨n, hn⟩ := Nat.exists_eq_succ_of_ne_zero (List.count_pos_iff.2 (hmem hs)).ne'
    rw [hm.new _ hs, hself, hn]
    rfl

/-- The last count on a new value is given back, and it is gone. -/
theorem last (hm : m.Lends (v :: vs) m') (hs : m.heap.size ≤ v.handle.index) (hv : v ∉ vs) :
    m.Lends vs (m'.release v.handle) := by
  have hcell : m'.cell v.handle = .fresh (.scalar .undefined) := by
    have hself : (v :: vs).count ⟨v.handle, m.here⟩ = 1 := by
      rw [hm.eq_of_mem List.mem_cons_self, List.count_cons_self, List.count_eq_zero.2 hv]
    rw [hm.new _ hs, hself]
    rfl
  have hlt := (hm.kept_of_mem List.mem_cons_self).index_lt
  have hgrove : m'.Grove [v.handle] [.scalar .undefined] [v.handle] :=
    .scalar (.fresh hcell) rfl .nil
  have hrelease : m'.release v.handle = m'.vacate v.handle :=
    hgrove.release_eq (List.nodup_singleton _) (by simp [hcell, Cell.fresh])
  have hinsert : heldFrom m.heap.size (v :: vs) = insert v (heldFrom m.heap.size vs) := by
    ext w
    rw [Finset.mem_insert, mem_heldFrom, mem_heldFrom, List.mem_cons, or_and_right]
    exact or_congr_left (and_iff_left_of_imp fun he => he ▸ hs)
  have hcard : (heldFrom m.heap.size (v :: vs)).card = (heldFrom m.heap.size vs).card + 1 := by
    rw [hinsert, Finset.card_insert_of_notMem fun hmem => hv (mem_heldFrom.1 hmem).1]
  rw [hrelease]
  refine hm.giveBack rfl (Heap.size_set ..) ?_ (fun k hk => cell_vacate_of_ne hk)
    (fun hlt => absurd hs (Nat.not_le.2 hlt)) fun _ => ?_
  · have := hm.live
    show m'.interp.live - 1 + _ = _
    omega
  · rw [List.count_eq_zero.2 hv]
    exact Heap.get_set_self _ _ _ hlt

/-- A held value is given back. -/
theorem release (hm : m.Lends (v :: vs) m') : m.Lends vs (m'.release v.handle) := by
  have hv := hm.eq_of_mem List.mem_cons_self
  have hself : (v :: vs).count ⟨v.handle, m.here⟩ = vs.count v + 1 := by
    rw [hv, List.count_cons_self]
  rcases Nat.lt_or_ge v.handle.index m.heap.size with hs | hs
  · have hcell := hm.old _ hs
    cases hi : (m.cell v.handle).immortal with
    | true =>
      rw [Cell.lent_of_immortal hi] at hcell
      have hrelease : m'.release v.handle = m' := by
        simp only [Machine.release, releaseWithin, hcell, hi, Bool.true_or, if_true]
      rw [hrelease]
      refine hm.giveBack rfl rfl ?_ (fun _ _ => rfl) (fun _ => ?_) fun hge => absurd hge (Nat.not_le.2 hs)
      · rw [heldFrom_cons fun hge => absurd hge (Nat.not_le.2 hs)]
      · rw [hcell, Cell.lent_of_immortal hi]
    | false =>
      have hne := (hm.kept v List.mem_cons_self hs).resolve_left (by simp [hi])
      rw [hself, Cell.lent_of_counted hi] at hcell
      exact hm.lower (by rw [hcell]; exact hi) (by rw [hcell]; show 1 < _ + (_ + 1); omega)
  · by_cases hmem : v ∈ vs
    · have hcell := hm.new _ hs
      obtain ⟨n, hn⟩ := Nat.exists_eq_succ_of_ne_zero (List.count_pos_iff.2 hmem).ne'
      rw [hself, hn] at hcell
      exact hm.lower (by rw [hcell]; rfl) (by rw [hcell]; exact Nat.succ_lt_succ n.succ_pos)
    · exact hm.last hs hmem

theorem drop (hm : m.Lends (v :: vs) m') (hlive : m.isAlive m.here) : m.Lends vs (m'.drop v) := by
  have hback := hm.release
  rw [drop_eq (hm.alive hlive) ((hm.owner v List.mem_cons_self).trans hm.here.symm)
    (hback.here.trans hm.here.symm)]
  exact hback

/-- Some of what is lent is given back. -/
theorem dropAll (hm : m.Lends (vs ++ ws) m') (hlive : m.isAlive m.here) :
    m.Lends ws (m'.dropAll vs) := by
  induction vs generalizing m' with
  | nil => exact hm
  | cons v vs ih => exact ih (hm.drop hlive)

end Lends

end Machine

end ValueMachine

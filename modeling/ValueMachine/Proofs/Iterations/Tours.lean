import ValueMachine.Proofs.Iterations.Surveys
import ValueMachine.Proofs.Passage.Carrying

/-! Documents and iterations. The document of a value walks each hash that the value leads to by the
hash's own cursor, and leaves that cursor at its end. A document that is made has met no cycle, so no
hash is walked while it is being walked. -/

namespace ValueMachine

open Machine

/-! ### Entries -/

namespace Table

/-- At the start of an iteration all entries are left. -/
theorem remaining_start {t : Table} (hkeys : t.keys.Nodup) : t.start.remaining = t.entries := by
  have hfound : ∀ e ∈ t.entries, (t.get? e.1).map (e.1, ·) = some e := fun e he => by
    obtain ⟨before, after, hsplit⟩ := List.append_of_mem he
    rw [keys, hsplit] at hkeys
    rw [get?, hsplit, Document.lookup_entries hkeys]
    rfl
  calc t.start.remaining
      = t.entries.filterMap fun e => (t.get? e.1).map (e.1, ·) := List.filterMap_map ..
    _ = t.entries := (List.filterMap_congr hfound).trans List.filterMap_some

theorem remaining_subset (t : Table) : t.remaining ⊆ t.entries := fun p hp => by
  obtain ⟨key, -, hkey⟩ := List.mem_filterMap.1 hp
  obtain ⟨v, hv, rfl⟩ := Option.map_eq_some_iff.1 hkey
  obtain ⟨before, after, hentries, -⟩ := List.lookup_eq_some_iff.1 hv
  rw [hentries]
  exact List.mem_append_right _ List.mem_cons_self

end Table

/-! ### Paths -/

section Paths

variable {G : Handle → List Handle} {depth : Nat} {h k c : Handle}

/-- One value leads to another one by some links. -/
def Leads (G : Handle → List Handle) : Handle → Handle → Prop :=
  Relation.ReflTransGen fun a b => b ∈ G a

/-- The paths from a value have fewer links than a depth. -/
def Shallow (G : Handle → List Handle) : Nat → Handle → Prop
  | 0, _ => False
  | depth + 1, h => ∀ k ∈ G h, Shallow G depth k

theorem leads_iff : Leads G h k ↔ k = h ∨ ∃ c ∈ G h, Leads G c k := by
  rw [Leads, Relation.ReflTransGen.cases_head_iff, eq_comm]

/-- A value with short paths only is on no cycle. -/
theorem Shallow.not_leads_back (hs : Shallow G depth c) (hc : c ∈ G h) : ¬ Leads G c h := by
  induction depth generalizing c h with
  | zero => exact hs.elim
  | succ depth ih =>
    intro hback
    rcases leads_iff.1 hback with rfl | ⟨d, hd, hback⟩
    · exact ih (hs h hc) hc .refl
    · exact ih (hs d hd) hd (hback.tail hc)

end Paths

/-! ### Tours -/

namespace Machine

variable {m m' m₁ m₂ : Machine} {among among' : Handle → Prop} {complete complete' : Prop}
  {G : Handle → List Handle} {D : Handle → Prop} {depth : Nat} {h k : Handle} {cs ds : List Handle}

/-- A survey that turns the cursors of some hashes, and where it is complete to their ends. -/
structure Toured (among : Handle → Prop) (complete : Prop) (m m' : Machine) : Prop where
  surveyed : m.Surveyed among m'
  ended : complete → ∀ k t, among k → m.body k = .hash t →
    m'.body k = .hash { t with cursor := none }

namespace Toured

/-- Where no hash is among the values, there is nothing to come to the end of. -/
theorem refl (hnone : ∀ k t, among k → m.body k ≠ .hash t) : m.Toured among complete m :=
  ⟨.refl m, fun _ k t hk hb => absurd hb (hnone k t hk)⟩

theorem stopped (hs : m.Surveyed among m') (hc : ¬ complete) : m.Toured among complete m' :=
  ⟨hs, fun h => absurd h hc⟩

/-- What has been surveyed is toured later. -/
theorem after (hs : m.Surveyed among m₁) (ht : m₁.Toured among' complete m₂)
    (hsub : ∀ k, among k → among' k) : m.Toured among' complete m₂ where
  surveyed := (hs.mono hsub).trans ht.surveyed
  ended hc k t hk hb := by
    obtain ⟨cursor, hb₁⟩ := hs.hash hb
    exact ht.ended hc k { t with cursor := cursor } hk hb₁

/-- Two tours one after the other. The later one is complete only if the earlier one is. -/
theorem trans (h₁ : m.Toured among complete m₁) (h₂ : m₁.Toured among' complete' m₂)
    (hc : complete' → complete) : m.Toured (fun k => among k ∨ among' k) complete' m₂ where
  surveyed := (h₁.surveyed.mono fun _ => .inl).trans (h₂.surveyed.mono fun _ => .inr)
  ended hc' k t hk hb := by
    by_cases hk' : among' k
    · obtain ⟨cursor, hb₁⟩ := h₁.surveyed.hash hb
      exact h₂.ended hc' k { t with cursor := cursor } hk' hb₁
    · exact h₂.surveyed.hash_of_not (h₁.ended (hc hc') k t (hk.resolve_right hk') hb) hk'

theorem congr (ht : m.Toured among complete m') (hiff : ∀ k, among k ↔ among' k) :
    m.Toured among' complete m' :=
  ⟨ht.surveyed.mono fun k => (hiff k).1, fun hc k t hk => ht.ended hc k t ((hiff k).2 hk)⟩

/-- A tour for which a value was held. -/
theorem held (hlive : m.isAlive m.here) (hk : m.Kept h)
    (ht : (m.retain h).Toured among complete m₁) :
    m.Toured among complete (m₁.dropAll [⟨h, m.here⟩]) := by
  obtain ⟨hsurveyed, hbody⟩ := Surveyed.dropAll hlive hk ht.surveyed
  refine ⟨hsurveyed, fun hc k t hk hb => ?_⟩
  rw [hbody]
  exact ht.ended hc k t hk ((body_retain m h k).trans hb)

end Toured

/-- A tour of all that some values lead to. If it is complete, their paths are short. -/
structure TouredFrom (G : Handle → List Handle) (depth : Nat) (cs : List Handle) (complete : Prop)
    (m m' : Machine) : Prop where
  toured : m.Toured (fun k => ∃ c ∈ cs, Leads G c k) complete m'
  shallow : complete → ∀ c ∈ cs, Shallow G depth c

namespace TouredFrom

theorem nil (hs : m.Surveyed nowhere m') : m.TouredFrom G depth [] complete m' where
  toured := ⟨hs.mono fun _ => False.elim, by simp⟩
  shallow := by simp

/-- A tour that was stopped. -/
theorem stopped (ht : m.TouredFrom G depth cs complete m') (hc : ¬ complete') (ds : List Handle) :
    m.TouredFrom G depth (cs ++ ds) complete' m' where
  toured := .stopped (ht.toured.surveyed.mono fun _ => Exists.imp fun _ =>
    And.imp_left (List.mem_append_left ds)) hc
  shallow h := absurd h hc

theorem append (h₁ : m.TouredFrom G depth cs complete m₁) (h₂ : m₁.TouredFrom G depth ds complete' m₂)
    (hc : complete' → complete) : m.TouredFrom G depth (cs ++ ds) complete' m₂ where
  toured := (h₁.toured.trans h₂.toured hc).congr fun k => by
    simp only [List.mem_append, or_and_right, exists_or]
  shallow hc' := List.forall_mem_append.2 ⟨h₁.shallow (hc hc'), h₂.shallow hc'⟩

/-- From the values below a value that is no hash, the value itself is toured. -/
theorem root (hb : ∀ t, m.body h ≠ .hash t) (ht : m.TouredFrom G depth (G h) complete m') :
    m.TouredFrom G (depth + 1) [h] complete m' where
  toured := by
    have hself : m.Toured (· = h) complete m := .refl fun k t hk => hk ▸ hb t
    refine (hself.trans ht.toured id).congr fun k => ?_
    rw [← leads_iff]
    simp
  shallow hc := List.forall_mem_singleton.2 (ht.shallow hc)

/-- The document of the value was made, so the value does not lead back to what it is below. -/
theorem not_leads_back (ht : m.TouredFrom G depth [k] complete m') (hc : complete) (hk : k ∈ G h) :
    ¬ ∃ c ∈ [k], Leads G c h := by
  simpa using (ht.shallow hc k List.mem_cons_self).not_leads_back hk

end TouredFrom

theorem Kept.retain (hk : m.Kept k) (h : Handle) : (m.retain h).Kept k := by
  by_cases hkh : k = h
  · subst hkh
    cases hi : (m.cell k).immortal with
    | true =>
      rw [Machine.retain, if_pos hi]
      exact hk
    | false =>
      rw [Kept, cell_retain hi hk.index_lt]
      exact .inr (Nat.succ_ne_zero _)
  · rwa [Kept, cell_retain_of_ne hkh]

/-- Values with their links: each is there and kept, and so is what it leads to. -/
structure Charted (G : Handle → List Handle) (D : Handle → Prop) (m : Machine) : Prop where
  alive : m.isAlive m.here
  closed : ∀ k, D k → ∀ c ∈ G k, D c
  kept : ∀ k, D k → m.Kept k
  here : ∀ k, D k → m.isFreed k = false
  links : ∀ k, D k → (m.body k).links = G k
  keyed : ∀ k, D k → (m.body k).Keyed

namespace Charted

theorem surveyed (hm : m.Charted G D) (hs : m.Surveyed among m') : m'.Charted G D where
  alive := hs.alive hm.alive
  closed := hm.closed
  kept k hk := hs.kept (hm.kept k hk)
  here k hk := (hs.body k).isFreed_eq.trans (hm.here k hk)
  links k hk := (hs.body k).links_eq.trans (hm.links k hk)
  keyed k hk := (hs.body k).keyed (hm.keyed k hk)

theorem mem_of_remaining (hm : m.Charted G D) (hk : D k) {t : Table} (hb : m.body k = .hash t)
    {e : Bytes × Handle} (he : e ∈ t.remaining) : e.2 ∈ G k := by
  rw [← hm.links k hk, hb]
  exact List.mem_map_of_mem (t.remaining_subset he)

theorem retain (hm : m.Charted G D) (h : Handle) : (m.retain h).Charted G D where
  alive := alive_retain h hm.alive
  closed := hm.closed
  kept k hk := (hm.kept k hk).retain h
  here k hk := by
    rw [isFreed, body_retain]
    exact hm.here k hk
  links k hk := by rw [body_retain, hm.links k hk]
  keyed k hk := by rw [body_retain]; exact hm.keyed k hk

end Charted

theorem target?_of_scalar {s : Scalar} (hb : m.body h = .scalar s) : m.target? h = s.target := by
  rw [target?, scalar?_eq_some.2 hb]
  rfl

/-- A hash whose cursor turns has been surveyed. -/
theorem surveyed_setCursor {t : Table} (hb : m.body h = .hash t) (cursor : Option (List Bytes)) :
    m.Surveyed (· = h) (m.setBody h (.hash { t with cursor := cursor })) :=
  .setBody (index_lt_of_hash hb) (hb ▸ .turned cursor rfl)

/-- A hash whose cursor is at its end has been toured. -/
theorem toured_setCursor {t : Table} (hb : m.body h = .hash t) :
    m.Toured (· = h) complete (m.setBody h (.hash { t with cursor := none })) where
  surveyed := surveyed_setCursor hb none
  ended _ k u hk hu := by
    subst hk
    cases hb.symm.trans hu
    exact body_setBody _ (index_lt_of_hash hb)

end Machine

/-! ### Elements and entries -/

namespace Document

open Bridge

variable {G : Handle → List Handle} {D : Handle → Prop} {convert : Handle → Bridge Json}
  {depth : Nat} {m m' : Machine} {h : Handle}

/-- A conversion tours the values that its argument leads to. -/
def Tours (G : Handle → List Handle) (D : Handle → Prop) (convert : Handle → Bridge Json)
    (depth : Nat) : Prop :=
  ∀ ⦃m h r m'⦄, m.Charted G D → D h → (convert h).run m = .ok r m' →
    m.TouredFrom G depth [h] (r.isOk = true) m'

/-- A conversion finds nothing to do in a new undefined value. -/
def Skips (convert : Handle → Bridge Json) : Prop :=
  ∀ ⦃m : Machine⦄ ⦃h⦄, m.Bare h (.scalar .undefined) → ∃ r, (convert h).run m = .ok r m

/-- What is toured while a value is held is toured once it is given up. -/
theorem releasing_toured {α : Type} {x : Bridge α} {r : Except Failure α} (hm : m.Charted G D)
    (hh : D h) (hr : (Bridge.releasing [⟨h, m.here⟩] x).run (m.retain h) = .ok r m') :
    ∃ m₁, x.run (m.retain h) = .ok r m₁ ∧ ∀ {among : Handle → Prop} {complete : Prop},
      (m.retain h).Toured among complete m₁ → m.Toured among complete m' := by
  obtain ⟨m₁, hx, rfl⟩ := releasing_returned hr
  exact ⟨m₁, hx, .held hm.alive (hm.kept h hh)⟩

/-- A value is held while it is converted. -/
theorem Tours.holding (hc : Tours G D convert depth) (hm : m.Charted G D) (hh : D h)
    {r : Except Failure Json}
    (hr : (Bridge.releasing [⟨h, m.here⟩] (convert h)).run (m.retain h) = .ok r m') :
    m.TouredFrom G depth [h] (r.isOk = true) m' := by
  obtain ⟨m₁, hx, hback⟩ := releasing_toured hm hh hr
  have hinner := hc (hm.retain h) hh hx
  exact ⟨hback hinner.toured, hinner.shallow⟩

theorem Skips.holdingNew (hc : Skips convert) (hlive : m.isAlive m.here) {r : Except Failure Json}
    (hr : (Bridge.releasing [⟨m.heap.next, m.here⟩] (convert m.heap.next)).run
      (m.alloc (.scalar .undefined)).2 = .ok r m') : m.Surveyed nowhere m' := by
  obtain ⟨m₁, hx, rfl⟩ := releasing_returned hr
  obtain ⟨r', hx'⟩ := hc (.fresh (cell_alloc m _))
  cases hx'.symm.trans hx
  exact .dropNew hlive

/-- Hold what is in a slot, or a new undefined value for a hole. -/
def holdSlot : Option Handle → Run Held
  | some h => hold h
  | none => holdNew .undefined

/-- An element is converted, a hole as a new undefined value. -/
theorem ofSlot_tours (hc : Tours G D convert depth) (hskip : Skips convert) (hm : m.Charted G D)
    {slot : Option Handle} (hD : ∀ c ∈ slot, D c) {item : Held} {m₁ : Machine}
    {r : Except Failure Json} (hitem : holdSlot slot m = .ok item m₁)
    (hr : (Bridge.releasing [item] (convert item.handle)).run m₁ = .ok r m') :
    m.TouredFrom G depth slot.toList (r.isOk = true) m' := by
  cases slot with
  | none =>
    cases hitem
    exact .nil (hskip.holdingNew hm.alive hr)
  | some c =>
    cases (m.hold_apply c).symm.trans hitem
    exact hc.holding hm (hD c rfl) hr

/-- The elements from an index on are converted. -/
theorem ofElements_tours (hc : Tours G D convert depth) (hskip : Skips convert) {array : Handle}
    {xs : Slots} (hD : ∀ c ∈ xs.filterMap id, D c) {fuel i : Nat} (hm : m.Charted G D)
    (hb : m.body array = .array xs) (hf : xs.length < i + fuel) {r : Except Failure (List Json)}
    (hr : (ofElements convert array fuel i).run m = .ok r m') :
    m.TouredFrom G depth ((xs.drop i).filterMap id) (r.isOk = true) m' := by
  induction fuel generalizing i m r with
  | zero =>
    cases hr
    rw [List.drop_eq_nil_of_le (by omega)]
    exact .nil (.refl _)
  | succ fuel ih =>
    obtain ⟨xs', m₁, hslots, hr⟩ := ofRun_bind_returned hr
    cases (slots_apply hb).symm.trans hslots
    by_cases hi : i < xs.length
    · rw [if_pos hi, List.getElem?_eq_getElem hi] at hr
      have hcons : (xs.drop i).filterMap id = xs[i].toList ++ (xs.drop (i + 1)).filterMap id := by
        rw [List.drop_eq_getElem_cons hi]
        cases xs[i] <;> rfl
      have hslot : ∀ c ∈ xs[i], D c := fun c hx =>
        hD c (List.mem_filterMap.2 ⟨_, xs.getElem_mem hi, hx⟩)
      obtain ⟨item, m₁, hitem, hr⟩ : ∃ item m₁, holdSlot xs[i] m = .ok item m₁ ∧
          (Bridge.releasing [item] (convert item.handle) >>= fun j =>
            ofElements convert array fuel (i + 1) >>= fun js => Pure.pure (j :: js)).run m₁
              = .ok r m' := by
        cases hx : xs[i] <;> rw [hx] at hr <;> exact ofRun_bind_returned hr
      rw [hcons]
      rcases bind_returned hr with ⟨e, hfirst, rfl⟩ | ⟨j, m₂, hfirst, hr⟩
      · exact (ofSlot_tours hc hskip hm hslot hitem hfirst).stopped Bool.false_ne_true _
      · have ht := ofSlot_tours hc hskip hm hslot hitem hfirst
        have hs := ht.toured.surveyed
        obtain ⟨r', hrest, rfl⟩ := bind_pure_returned hr
        rw [isOk_map]
        exact ht.append (ih (hm.surveyed hs) (hs.array hb) (by omega) hrest) fun _ => rfl
    · rw [if_neg hi] at hr
      cases hr
      rw [List.drop_eq_nil_of_le (Nat.not_lt.1 hi)]
      exact .nil (.refl _)

/-- No entry is left and the cursor comes to its end, or the first one that is left is converted, and
the others after it. -/
theorem ofEntries_returned {hash : Handle} {fuel : Nat} {t : Table}
    {r : Except Failure (List (String × Json))} (hb : m.body hash = .hash t)
    (hr : (ofEntries convert hash (fuel + 1)).run m = .ok r m') :
    (t.remaining = [] ∧ r = .ok [] ∧ m' = m.setBody hash (.hash { t with cursor := none })) ∨
      ∃ key c rest, t.remaining = (key, c) :: Table.remaining { t with cursor := some rest } ∧
        (Bridge.releasing [⟨c, m.here⟩] (convert c) >>= fun j =>
          ofEntries convert hash fuel >>= fun fields => Pure.pure ((key.toText, j) :: fields)).run
          ((m.setBody hash (.hash { t with cursor := some rest })).retain c) = .ok r m' := by
  obtain ⟨found, m₁, hnext, hr⟩ := ofRun_bind_returned hr
  cases (onTable_apply hb Table.step).symm.trans hnext
  have hstep := t.step_remaining
  rcases t.step_cases with ⟨hfst, hsnd, -⟩ | ⟨passed, key, c, rest, -, -, -, heq⟩
  · rw [hfst] at hr hstep
    cases hr
    exact .inl ⟨List.head?_eq_none_iff.1 hstep.1.symm, rfl, by rw [hsnd]⟩
  · rw [heq] at hr hstep
    have hleft := (List.cons_head?_tail hstep.1.symm).symm
    rw [← hstep.2] at hleft
    obtain ⟨item, m₂, hitem, hr⟩ := ofRun_bind_returned hr
    cases (Machine.hold_apply _ c).symm.trans hitem
    exact .inr ⟨key, c, rest, hleft, hr⟩

/-- The entries that are left are converted, and the cursor comes to its end. No value below the hash
leads back to it, so nothing else turns the cursor. -/
theorem ofEntries_tours (hc : Tours G D convert depth) {hash : Handle} (hhash : D hash) {fuel : Nat}
    {t : Table} (hm : m.Charted G D) (hb : m.body hash = .hash t) (hf : t.remaining.length < fuel)
    {r : Except Failure (List (String × Json))}
    (hr : (ofEntries convert hash fuel).run m = .ok r m') :
    m.Toured (fun k => k = hash ∨ ∃ c ∈ t.remaining.map (·.2), Leads G c k) (r.isOk = true) m' ∧
      (r.isOk = true → ∀ c ∈ t.remaining.map (·.2), Shallow G depth c) := by
  induction fuel generalizing t m r with
  | zero => cases hf
  | succ fuel ih =>
    rcases ofEntries_returned hb hr with ⟨hnone, rfl, rfl⟩ | ⟨key, c, rest, hleft, hr⟩
    · rw [hnone]
      exact ⟨(toured_setCursor hb).congr fun k => by simp, by simp⟩
    · have hbelow := hm.mem_of_remaining hhash hb (hleft ▸ List.mem_cons_self)
      have hcursor := surveyed_setCursor hb (some rest)
      have hb₁ := body_setBody (.hash { t with cursor := some rest }) (index_lt_of_hash hb)
      have hm₁ := hm.surveyed hcursor
      rw [hleft] at hf ⊢
      rw [← hcursor.here] at hr
      generalize m.setBody hash _ = m₁ at hr hcursor hb₁ hm₁
      rcases bind_returned hr with ⟨e, hfirst, rfl⟩ | ⟨j, m₃, hfirst, hr⟩
      · have hs := (hc.holding hm₁ (hm.closed hash hhash c hbelow) hfirst).toured.surveyed
        refine ⟨.stopped ((hcursor.mono fun _ => .inl).trans (hs.mono fun k hk => .inr ?_))
          Bool.false_ne_true, fun hok => absurd hok Bool.false_ne_true⟩
        exact hk.imp fun d => And.imp_left (List.mem_append_left _)
      · have ht := hc.holding hm₁ (hm.closed hash hhash c hbelow) hfirst
        have hs := ht.toured.surveyed
        obtain ⟨r', hrest, rfl⟩ := bind_pure_returned hr
        have hback := ht.not_leads_back rfl hbelow
        obtain ⟨hlater, hlater'⟩ := ih (hm₁.surveyed hs) (hs.hash_of_not hb₁ hback)
          (Nat.lt_of_succ_lt_succ hf) hrest
        rw [isOk_map]
        refine ⟨.after hcursor ((ht.toured.trans hlater fun _ => rfl).congr fun k => ?_) fun k => .inl,
          fun hok => List.forall_mem_cons.2 ⟨ht.shallow rfl c List.mem_cons_self, hlater' hok⟩⟩
        rw [List.map_cons, List.exists_mem_cons_iff, or_left_comm]
        simp

theorem skips_ofValueWithin (depth : Nat) : Skips (ofValueWithin depth) := by
  intro m h hb
  cases depth with
  | zero => exact ⟨.error tooDeep, rfl⟩
  | succ depth =>
    refine ⟨.ok .null, ?_⟩
    refine (run_bind (a := m.kind h) rfl).trans ?_
    rw [kind_of_scalar hb.body]
    refine (run_bind (a := m.target? h) rfl).trans ?_
    rw [hb.target?]
    exact ofScalar_bare_undefined hb

/-! ### Documents -/

section

variable {r : Except Failure Json} (hm : m.Charted G D) (hh : D h)
  (hr : (ofValueWithin (depth + 1) h).run m = .ok r m')

include hm hh hr

theorem ofArray_tours (hc : Tours G D (ofValueWithin depth) depth) {xs : Slots}
    (hb : m.body h = .array xs) : m.TouredFrom G (depth + 1) [h] (r.isOk = true) m' := by
  refine .root (by simp [hb]) ?_
  have hbelow : G h = xs.filterMap id := by rw [← hm.links h hh, hb, Body.links]
  have hclosed := hm.closed h hh
  rw [hbelow] at hclosed ⊢
  replace hr := look_bind_returned hr
  rw [kind_of_array hb] at hr
  obtain ⟨array, m₁, harray, hr⟩ := ofRun_bind_returned hr
  cases (m.hold_apply h).symm.trans harray
  obtain ⟨m₂, hx, hback⟩ := releasing_toured hm hh hr
  obtain ⟨xs', m₃, hslots, hx⟩ := ofRun_bind_returned hx
  have hb₁ : (m.retain h).body h = .array xs := (body_retain m h h).trans hb
  cases (slots_apply hb₁).symm.trans hslots
  obtain ⟨r', hall, rfl⟩ := bind_pure_returned hx
  rw [isOk_map]
  have hitems := ofElements_tours hc (skips_ofValueWithin depth) hclosed (hm.retain h) hb₁ (by omega)
    hall
  exact ⟨hback hitems.toured, hitems.shallow⟩

theorem ofHash_tours (hc : Tours G D (ofValueWithin depth) depth) {t : Table}
    (hb : m.body h = .hash t) : m.TouredFrom G (depth + 1) [h] (r.isOk = true) m' := by
  have hkeyed := hm.keyed h hh
  rw [hb] at hkeyed
  have hremaining := Table.remaining_start hkeyed
  have hbelow : t.start.remaining.map (·.2) = G h := by
    rw [hremaining, ← hm.links h hh, hb, Body.links]
  replace hr := look_bind_returned hr
  rw [kind_of_hash hb] at hr
  obtain ⟨hash, m₁, hhash, hr⟩ := ofRun_bind_returned hr
  cases (m.hold_apply h).symm.trans hhash
  obtain ⟨m₂, hx, hback⟩ := releasing_toured hm hh hr
  obtain ⟨n, m₃, hstart, hx⟩ := ofRun_bind_returned hx
  have hb₁ : (m.retain h).body h = .hash t := (body_retain m h h).trans hb
  cases (onTable_apply hb₁ fun t => (t.size, t.start)).symm.trans hstart
  obtain ⟨r', hall, rfl⟩ := bind_pure_returned hx
  have hcursor := surveyed_setCursor hb₁ (some t.keys)
  obtain ⟨ht, hshallow⟩ := ofEntries_tours hc hh ((hm.retain h).surveyed hcursor)
    (body_setBody (.hash t.start) (index_lt_of_hash hb₁))
    (by rw [hremaining]; exact Nat.lt_succ_self _) hall
  rw [hbelow] at ht hshallow
  rw [isOk_map]
  refine ⟨(hback (.after hcursor ht fun k => .inl)).congr fun k => ?_, fun hok => ?_⟩
  · rw [← leads_iff]
    simp
  · exact List.forall_mem_singleton.2 (hshallow hok)

theorem ofScalar_tours (hc : Tours G D (ofValueWithin depth) depth) {s : Scalar}
    (hb : m.body h = .scalar s) : m.TouredFrom G (depth + 1) [h] (r.isOk = true) m' := by
  refine .root (by simp [hb]) ?_
  have hbelow : G h = s.owned := by rw [← hm.links h hh, hb, Body.links]
  have hclosed := hm.closed h hh
  rw [hbelow] at hclosed ⊢
  replace hr := look_bind_returned hr
  rw [kind_of_scalar hb] at hr
  replace hr := look_bind_returned hr
  rw [target?_of_scalar hb] at hr
  unfold Scalar.owned at hclosed ⊢
  cases htarget : s.target with
  | some target =>
    rw [htarget] at hr hclosed
    obtain ⟨item, m₁, hitem, hr⟩ := ofRun_bind_returned hr
    cases (m.hold_apply target).symm.trans hitem
    exact hc.holding hm (hclosed target (by simp)) hr
  | none =>
    rw [htarget] at hr
    exact .nil (ofScalar_surveyed ⟨hm.alive, hm.kept h hh, s, hb, htarget⟩ hr)

/-- A value of another kind is described by its kind and its place. -/
theorem described_tours (hb : m.body h = .format ∨ m.body h = .io ∨ ∃ c, m.body h = .code c) :
    m.TouredFrom G (depth + 1) [h] (r.isOk = true) m' := by
  have hlinks : G h = [] := by
    rw [← hm.links h hh]
    rcases hb with hb | hb | ⟨c, hb⟩ <;> rw [hb] <;> rfl
  have hkind : m.kind h = .format ∨ m.kind h = .io ∨ m.kind h = .code := by
    rw [kind, tag, Cell.tag, show (m.cell h).body = m.body h from rfl]
    rcases hb with hb | hb | ⟨c, hb⟩ <;> rw [hb] <;> simp [Kind.ofTag]
  refine .root (by rcases hb with hb | hb | ⟨c, hb⟩ <;> simp [hb]) ?_
  rw [hlinks]
  replace hr := look_bind_returned hr
  rcases hkind with hkind | hkind | hkind
  all_goals
    rw [hkind] at hr
    obtain ⟨text, m₁, htext, hr⟩ := ofRun_bind_returned hr
    change describe h m = _ at htext
    rw [describe, Run.look_bind, hkind] at htext
    cases htext
    cases hr
    exact .nil (.refl m)

end

/-- The document of a value is a tour of all that the value leads to. -/
theorem ofValueWithin_tours (depth : Nat) : Tours G D (ofValueWithin depth) depth := by
  induction depth with
  | zero =>
    intro m h r m' hm hh hr
    cases hr
    have hnone : m.TouredFrom G 0 [] False m := .nil (.refl m)
    exact hnone.stopped Bool.false_ne_true [h]
  | succ depth ih =>
    intro m h r m' hm hh hr
    cases hb : m.body h with
    | array xs => exact ofArray_tours hm hh hr ih hb
    | hash t => exact ofHash_tours hm hh hr ih hb
    | scalar s => exact ofScalar_tours hm hh hr ih hb
    | format => exact described_tours hm hh hr (.inl hb)
    | io => exact described_tours hm hh hr (.inr (.inl hb))
    | code c => exact described_tours hm hh hr (.inr (.inr ⟨c, hb⟩))
    -- the place of a freed value looks like an undefined scalar, but nothing leads there
    | freed =>
      have hlive := hm.here h hh
      rw [isFreed, hb] at hlive
      cases hlive

end Document

/-! ### Iterations -/

namespace Machine

variable {m m' : Machine} {held : List Handle} {h k : Handle}

/-- One value leads to another one by references and containers. -/
def LeadsTo (m : Machine) : Handle → Handle → Prop := Leads fun k => (m.body k).links

/-- What a held value leads to is there. -/
theorem Orderly.not_isFreed_of_leadsTo (hm : m.Orderly held) (hh : h ∈ held) (hk : m.LeadsTo h k) :
    m.isFreed k = false := by
  induction hk with
  | refl => exact hm.not_isFreed_of_mem hh
  | tail _ hlink => exact hm.not_isFreed_of_mem_owned (Body.links_subset_owned _ hlink)

theorem Orderly.charted (hm : m.Orderly held) (hlive : m.isAlive m.here) (hh : h ∈ held) :
    m.Charted (fun k => (m.body k).links) (m.LeadsTo h) where
  alive := hlive
  closed _ hk _ hc := hk.tail hc
  kept k hk := by
    have hf := hm.not_isFreed_of_leadsTo hh hk
    by_cases hi : (m.cell k).immortal = true
    · exact .inl hi
    · refine .inr fun hzero => ?_
      rw [(hm.freed_iff k (by simpa using hi) (by simp)).2 hzero] at hf
      cases hf
  here _ hk := hm.not_isFreed_of_leadsTo hh hk
  links _ _ := rfl
  keyed k _ := hm.keyed k

/-- What reads a hash by a snapshot of its entries, and what shows a value, leaves the iteration of
each hash as it is. Where the document of a value is made, the iteration of a hash has what it had left
only if the value does not lead to the hash or nothing was left: each hash on the way has been walked by
its own cursor to the end. -/
theorem iteration_kept_iff {t : Table} {r : Except Failure Json} (hm : m.Orderly held)
    (hlive : m.isAlive m.here) (hh : h ∈ held) (hb : m.body k = .hash t)
    (hr : (Document.ofValue h).run m = .ok r m') :
    (∀ i : Inspection, (i.final m).isFreed k = false → (i.final m).body k = .hash t) ∧
      ∃ u, m'.body k = .hash u ∧ u.entries = t.entries ∧ (¬ m.LeadsTo h k → u = t) ∧
        (r.isOk = true →
          (m.LeadsTo h k → u.step = (none, u)) ∧
          (u.remaining = t.remaining ↔ ¬ m.LeadsTo h k ∨ t.remaining = [])) := by
  have hfrom := Document.ofValueWithin_tours _ (hm.charted hlive hh) .refl hr
  have htoured : m.Toured (m.LeadsTo h) (r.isOk = true) m' :=
    hfrom.toured.congr fun k => by rw [LeadsTo]; simp
  refine ⟨fun i hf => (i.inspected m).body_eq hb hf, ?_⟩
  obtain ⟨cursor, hb'⟩ := htoured.surveyed.hash hb
  have hkept (hk : ¬ m.LeadsTo h k) : ({ t with cursor := cursor } : Table) = t := by
    have hb'' := htoured.surveyed.hash_of_not hb hk
    rw [hb'] at hb''
    injection hb''
  have hended (hok : r.isOk = true) (hk : m.LeadsTo h k) : cursor = none := by
    have hb'' := htoured.ended hok k t hk hb
    rw [hb'] at hb''
    injection hb'' with htable
    injection htable
  refine ⟨_, hb', rfl, hkept, fun hok => ⟨fun hk => ?_, fun hsame => ?_, fun hany => ?_⟩⟩
  · exact Table.step_of_cursor_eq_none _ (hended hok hk)
  · refine or_iff_not_imp_left.2 fun hk => ?_
    rw [← hsame, Table.remaining_of_cursor_eq_none (hended hok (not_not.1 hk))]
  · by_cases hk : m.LeadsTo h k
    · rw [hany.resolve_left (not_not.2 hk), Table.remaining_of_cursor_eq_none (hended hok hk)]
    · rw [hkept hk]

/-- Host code holds a hash of one pair, and its iteration has just been started. -/
def iterating : Machine :=
  let m := (fresh.alloc (.scalar (.ofInt64 1))).2
  let m := (m.alloc (.hash ⟨[([107], ⟨4⟩)], some [[107]]⟩)).2
  { m with alive := [m.here] }

/-- With the keys of the hash its pair is still left, but with its document it is not. -/
theorem iteration_iterating : iterating.Orderly [⟨5⟩] ∧
    (⟨[([107], ⟨4⟩)], some [[107]]⟩ : Table).remaining = [([107], ⟨4⟩)] ∧
    ((Inspection.keys ⟨⟨5⟩, iterating.here⟩).final iterating).body ⟨5⟩
      = .hash ⟨[([107], ⟨4⟩)], some [[107]]⟩ ∧
    ∃ r m' u, (Document.ofValue ⟨5⟩).run iterating = .ok r m' ∧ r.isOk = true ∧
      m'.body ⟨5⟩ = .hash u ∧ u.remaining ≠ [([107], ⟨4⟩)] := by
  have horderly : iterating.Orderly [⟨5⟩] := by decide +kernel
  have hyields : Run.Yields (Document.ofValue ⟨5⟩).run iterating fun r _ => r.isOk = true := by
    decide +kernel
  obtain ⟨r, m', hr, hok⟩ := hyields.exists_ok
  have hleft : (⟨[([107], ⟨4⟩)], some [[107]]⟩ : Table).remaining = [([107], ⟨4⟩)] := by decide
  obtain ⟨hkept, u, hb', -, -, hended⟩ :=
    iteration_kept_iff (k := ⟨5⟩) horderly (by decide) (by simp) rfl hr
  refine ⟨horderly, hleft, hkept _ (by decide +kernel), r, m', u, hr, hok, hb', fun hsame => ?_⟩
  rcases (hended hok).2.1 (hsame.trans hleft.symm) with hnot | hnone
  · exact hnot .refl
  · rw [hleft] at hnone
    cases hnone

end Machine

end ValueMachine

import ValueMachine.Proofs.Conversions.Failings
import ValueMachine.Proofs.Iterations.Tours

/-! The map and the document that a hash is converted to. Each entry is converted once and goes under
the text of its key, and of those with one text the last stays. Keys are bytes, and what is no UTF-8 in
them is replaced in their texts: so two keys may have one text, and their entries become one. -/

namespace ValueMachine

open Machine

variable {α : Type} {m m' m₁ m₂ : Machine} {h hash : Handle} {t : Table}

/-! ### Conversions of entries -/

/-- The values of some entries are converted one after the other, and each goes under the text of its
key. In between the machine may change as a relation allows. -/
inductive Converted (between : Machine → Machine → Prop) (convert : Handle → Bridge α) :
    List (Bytes × Handle) → List (String × α) → Machine → Machine → Prop
  | nil {m m' : Machine} : between m m' → Converted between convert [] [] m m'
  | cons {key : Bytes} {h : Handle} {a : α} {es : List (Bytes × Handle)} {ps : List (String × α)}
      {m m₁ m₂ m' : Machine} : between m m₁ → (convert h).run m₁ = .ok (.ok a) m₂ →
      Converted between convert es ps m₂ m' →
      Converted between convert ((key, h) :: es) ((key.toText, a) :: ps) m m'

namespace Converted

variable {between : Machine → Machine → Prop} {convert : Handle → Bridge α}
  {es : List (Bytes × Handle)} {ps : List (String × α)}

theorem texts (hc : Converted between convert es ps m m') :
    ps.map (·.1) = es.map (·.1.toText) := by
  induction hc with
  | nil => rfl
  | cons _ _ _ ih => rw [List.map_cons, List.map_cons, ih]

theorem after (htrans : ∀ {m₁ m₂ m₃}, between m₁ m₂ → between m₂ m₃ → between m₁ m₃)
    (hstep : between m m₁) (hc : Converted between convert es ps m₁ m') :
    Converted between convert es ps m m' := by
  cases hc with
  | nil hend => exact .nil (htrans hstep hend)
  | cons hfirst hx hrest => exact .cons (htrans hstep hfirst) hx hrest

end Converted

/-- The pairs of some entries: one for each text of a key, with what the last entry with that text was
converted to. -/
structure Gathered (es : List (Bytes × Handle)) (converted pairs : List (String × α)) : Prop where
  nodup : (pairs.map (·.1)).Nodup
  mem_map_iff : ∀ key, key ∈ pairs.map (·.1) ↔ key ∈ es.map (·.1.toText)
  mem_iff : ∀ p, p ∈ pairs ↔
    ∃ before after, converted = before ++ p :: after ∧ ∀ q ∈ after, q.1 ≠ p.1
  length_iff : pairs.length = es.length ↔ (es.map (·.1.toText)).Nodup
  perm : (es.map (·.1.toText)).Nodup → pairs.Perm converted

theorem Converted.gathered {between : Machine → Machine → Prop} {convert : Handle → Bridge α}
    {es : List (Bytes × Handle)} {ps : List (String × α)}
    (hc : Converted between convert es ps m m') : Gathered es ps (Keyed.latest ps) where
  nodup := Keyed.nodup_latest ps
  mem_map_iff key := by rw [Keyed.mem_map_latest, hc.texts]
  mem_iff _ := Keyed.mem_latest
  length_iff := by
    have hlength : ps.length = es.length := by
      rw [← List.length_map (f := Prod.fst), hc.texts, List.length_map]
    rw [← hlength, Keyed.length_latest_iff, hc.texts]
  perm hn := by
    rw [Keyed.latest_eq (hc.texts ▸ hn)]
    exact Keyed.sorted_perm ps

/-- Texts have different bytes, so keys that are the bytes of texts have different texts. -/
theorem Table.nodup_texts (hkeys : t.keys.Nodup) (htexts : ∀ e ∈ t.entries, ∃ s, e.1 = Bytes.ofText s) :
    (t.entries.map (·.1.toText)).Nodup := by
  have hinjective : ∀ key ∈ t.keys, ∀ key' ∈ t.keys, key.toText = key'.toText → key = key' := by
    intro key hkey key' hkey' heq
    obtain ⟨e, he, rfl⟩ := List.mem_map.1 hkey
    obtain ⟨e', he', rfl⟩ := List.mem_map.1 hkey'
    obtain ⟨s, hs⟩ := htexts e he
    obtain ⟨s', hs'⟩ := htexts e' he'
    rw [hs, hs', Bytes.toText_ofText, Bytes.toText_ofText] at heq
    rw [hs, hs', heq]
  have hmap : t.entries.map (·.1.toText) = t.keys.map Bytes.toText := by
    rw [Table.keys, List.map_map]
    rfl
  rw [hmap]
  exact hkeys.map_on hinjective

/-! ### Maps -/

theorem Bridge.onOwner_returned {v : Held} {x : Bridge α} {r : Except Failure α}
    (hr : (Bridge.onOwner v x).run m = .ok r m') :
    ∃ m₁, x.run (m.focus v.owner) = .ok r m₁ ∧ m' = m₁.focus m.here := by
  have hrun : Machine.onInterpreter v.owner x.run m = .ok r m' := hr
  simp only [Machine.onInterpreter, Run.look_bind, Run.change_bind, Run.always_apply] at hrun
  cases hx : x.run (m.focus v.owner)
  all_goals rw [hx] at hrun; cases hrun
  exact ⟨_, rfl, rfl⟩

namespace Reading

variable {read : Handle → Bridge α} {heldBy : α → List Held} {es : List (Bytes × Handle)}
  {ps : List (String × α)}

theorem entries_converted (hr : (entries read heldBy es).run m = .ok (.ok ps) m') :
    Converted Eq read es ps m m' := by
  induction es generalizing m ps with
  | nil =>
    cases hr
    exact .nil rfl
  | cons e rest ih =>
    obtain ⟨a, m₁, hx, hr⟩ := Bridge.bind_ok hr
    obtain ⟨ps', m₂, hrest, hreturn⟩ := Bridge.bind_ok hr
    cases hreturn
    exact .cons rfl hx (ih (Bridge.guarding_ok hrest))

theorem textMap_ok (hb : m.body h = .hash t)
    (hr : (textMap read heldBy h).run m = .ok (.ok ps) m') :
    ∃ converted m₁, Converted Eq read t.entries converted m m₁ ∧ ps = Keyed.latest converted := by
  obtain ⟨es, m₁, hentries, hr⟩ := Bridge.ofRun_bind_returned hr
  have hes : hashEntries h m = .ok t.entries m := by
    simp only [hashEntries, Machine.table, bind_assoc, Run.look_bind, hb]
    rfl
  cases hes.symm.trans hentries
  obtain ⟨converted, m₂, hread, hr⟩ := Bridge.bind_ok hr
  cases Bridge.ofRun_ok hr
  exact ⟨converted, _, entries_converted hread, rfl⟩

end Reading

/-! ### Documents -/

namespace Machine

/-- Only the cursor of a hash has changed. -/
structure TurnsCursor (hash : Handle) (m m' : Machine) : Prop where
  turned : ∃ t cursor, m.body hash = .hash t ∧ m'.body hash = .hash { t with cursor := cursor }
  others : ∀ k, k ≠ hash → m'.body k = m.body k

namespace TurnsCursor

theorem trans (h₁ : m.TurnsCursor hash m₁) (h₂ : m₁.TurnsCursor hash m₂) : m.TurnsCursor hash m₂ where
  turned := by
    obtain ⟨t, cursor, hb, hb₁⟩ := h₁.turned
    obtain ⟨t₁, cursor₁, hb₁', hb₂⟩ := h₂.turned
    cases hb₁.symm.trans hb₁'
    exact ⟨t, cursor₁, hb, hb₂⟩
  others k hk := (h₂.others k hk).trans (h₁.others k hk)

theorem of_body_eq (hb : m.body hash = .hash t) (hbody : ∀ k, m'.body k = m.body k) :
    m.TurnsCursor hash m' :=
  ⟨⟨t, t.cursor, hb, (hbody hash).trans hb⟩, fun k _ => hbody k⟩

theorem setCursor (hb : m.body hash = .hash t) (cursor : Option (List Bytes)) :
    m.TurnsCursor hash (m.setBody hash (.hash { t with cursor := cursor })) where
  turned := ⟨t, cursor, hb, body_setBody _ (index_lt_of_hash hb)⟩
  others _ hk := congrArg Cell.body (cell_setBody_ne _ hk)

end TurnsCursor

end Machine

namespace Document

open Bridge

variable {G : Handle → List Handle} {D : Handle → Prop} {convert : Handle → Bridge Json} {depth : Nat}

/-- The entries that are left are converted in their order. -/
theorem ofEntries_converted (hc : Tours G D convert depth) (hhash : D hash) {fuel : Nat}
    (hm : m.Charted G D) (hb : m.body hash = .hash t) (hf : t.remaining.length < fuel)
    {fields : List (String × Json)} (hr : (ofEntries convert hash fuel).run m = .ok (.ok fields) m') :
    Converted (TurnsCursor hash) convert t.remaining fields m m' := by
  induction fuel generalizing t m fields with
  | zero => cases hf
  | succ fuel ih =>
    rcases ofEntries_returned hb hr with ⟨hnone, hdone, rfl⟩ | ⟨key, c, rest, hleft, hr⟩
    · cases hdone
      rw [hnone]
      exact .nil (.setCursor hb none)
    · have hbelow := hm.mem_of_remaining hhash hb (hleft ▸ List.mem_cons_self)
      have hturns := TurnsCursor.setCursor hb (some rest)
      have hcursor := surveyed_setCursor hb (some rest)
      have hb₁ := body_setBody (.hash { t with cursor := some rest }) (index_lt_of_hash hb)
      have hm₁ := hm.surveyed hcursor
      rw [hleft] at hf ⊢
      rw [← hcursor.here] at hr
      generalize m.setBody hash _ = m₁ at hr hturns hb₁ hm₁
      obtain ⟨j, m₃, hfirst, hr⟩ := bind_ok hr
      obtain ⟨fields', m₄, hrest, hreturn⟩ := bind_ok hr
      cases hreturn
      obtain ⟨m₂, hx, rfl⟩ := releasing_returned hfirst
      have hD := hm₁.closed hash hhash c hbelow
      have ht := hc (hm₁.retain c) hD hx
      obtain ⟨hs, hbody⟩ := Surveyed.dropAll hm₁.alive (hm₁.kept c hD) ht.toured.surveyed
      have hb₂ := hs.hash_of_not hb₁ (ht.not_leads_back rfl hbelow)
      have hlater := ih (hm₁.surveyed hs) hb₂ (Nat.lt_of_succ_lt_succ hf) hrest
      have hheld : m.TurnsCursor hash (m₁.retain c) :=
        hturns.trans (.of_body_eq hb₁ (body_retain m₁ c))
      have hreleased : m₂.TurnsCursor hash (m₂.dropAll [⟨c, m₁.here⟩]) :=
        .of_body_eq ((hbody hash).symm.trans hb₂) hbody
      exact .cons hheld hx (hlater.after TurnsCursor.trans hreleased)

/-- The document of a hash is an object, made of the documents of its values. -/
theorem ofHash_converted (hm : m.Charted G D) (hh : D h) (hb : m.body h = .hash t) {j : Json}
    (hr : (ofValueWithin (depth + 1) h).run m = .ok (.ok j) m') :
    ∃ fields m₁, j = .ofFields fields ∧
      Converted (TurnsCursor h) (ofValueWithin depth) t.entries fields m m₁ := by
  have hkeyed := hm.keyed h hh
  rw [hb] at hkeyed
  have hremaining := Table.remaining_start hkeyed
  replace hr := look_bind_returned hr
  rw [kind_of_hash hb] at hr
  obtain ⟨held, m₁, hheld, hr⟩ := ofRun_bind_returned hr
  cases (m.hold_apply h).symm.trans hheld
  obtain ⟨m₂, hx, rfl⟩ := releasing_returned hr
  obtain ⟨n, m₃, hstart, hx⟩ := ofRun_bind_returned hx
  have hb₁ : (m.retain h).body h = .hash t := (body_retain m h h).trans hb
  cases (onTable_apply hb₁ fun t => (t.size, t.start)).symm.trans hstart
  obtain ⟨fields, m₄, hall, hreturn⟩ := bind_ok hx
  cases hreturn
  have hconverted := ofEntries_converted (ofValueWithin_tours depth) hh
    ((hm.retain h).surveyed (surveyed_setCursor hb₁ (some t.keys)))
    (body_setBody (.hash t.start) (index_lt_of_hash hb₁))
    (by rw [hremaining]; exact Nat.lt_succ_self _) hall
  rw [hremaining] at hconverted
  have hstarted : m.TurnsCursor h ((m.retain h).setBody h (.hash t.start)) :=
    .trans (.of_body_eq hb (body_retain m h)) (.setCursor hb₁ (some t.keys))
  exact ⟨fields, _, rfl, hconverted.after TurnsCursor.trans hstarted⟩

end Document

/-! ### Entries with one text -/

/-- A hash is converted to one pair for each text of its keys, with what the last entry with that text
was converted to: to a map as to a document. So it has as many pairs as entries where the keys have
different texts, as keys have that are UTF-8. -/
theorem Table.conversions_gather :
    (∀ (type : HostType) (m m' : Machine) (v : Held) (t : Table) (pairs : List (String × type.Value)),
      m.body v.handle = .hash t → (HostHash.toMap type v).run m = .ok (.ok pairs) m' →
      ∃ converted m₁, Converted Eq (type.read .share) t.entries converted (m.focus v.owner) m₁ ∧
        Gathered t.entries converted pairs) ∧
      (∀ (depth : Nat) (m m' : Machine) (held : List Handle) (h : Handle) (t : Table) (j : Json),
        m.Orderly held → m.isAlive m.here → h ∈ held → m.body h = .hash t →
        (Document.ofValueWithin (depth + 1) h).run m = .ok (.ok j) m' →
        ∃ fields converted m₁, j = .object fields ∧
          Converted (TurnsCursor h) (Document.ofValueWithin depth) t.entries converted m m₁ ∧
          Gathered t.entries converted fields) ∧
      ∀ (m : Machine) (held : List Handle) (h : Handle) (t : Table), m.Orderly held →
        m.body h = .hash t → (∀ e ∈ t.entries, ∃ s, e.1 = Bytes.ofText s) →
        (t.entries.map (·.1.toText)).Nodup := by
  refine ⟨fun type m m' v t pairs hb hr => ?_, fun depth m m' held h t j hm hlive hh hb hr => ?_,
    fun m held h t hm hb htexts => ?_⟩
  · obtain ⟨m₁, hx, -⟩ := Bridge.onOwner_returned hr
    have hb₁ : (m.focus v.owner).body v.handle = .hash t := by rwa [body, cell, heap_focus]
    obtain ⟨converted, m₂, hconverted, rfl⟩ := Reading.textMap_ok hb₁ hx
    exact ⟨converted, m₂, hconverted, hconverted.gathered⟩
  · obtain ⟨converted, m₁, rfl, hconverted⟩ :=
      Document.ofHash_converted (hm.charted hlive hh) .refl hb hr
    exact ⟨_, converted, m₁, rfl, hconverted, hconverted.gathered⟩
  · have hkeyed := hm.keyed h
    rw [hb] at hkeyed
    exact Table.nodup_texts hkeyed htexts

/-- The one pair of a hash is in its map and in its document. -/
theorem Machine.iterating_converted : iterating.Orderly [⟨5⟩] ∧
    (∃ pairs m', (HostHash.toMap (.int .i64) ⟨⟨5⟩, iterating.here⟩).run iterating = .ok (.ok pairs) m' ∧
      pairs.length = 1) ∧
    ∃ fields m', (Document.ofValue ⟨5⟩).run iterating = .ok (.ok (.object fields)) m' ∧
      fields.length = 1 := by
  have horderly : iterating.Orderly [⟨5⟩] := by decide +kernel
  have hmap : Run.Yields (HostHash.toMap (.int .i64) ⟨⟨5⟩, iterating.here⟩).run iterating
      fun r _ => r.isOk = true := by decide +kernel
  have hdocument : Run.Yields (Document.ofValue ⟨5⟩).run iterating fun r _ => r.isOk = true := by
    decide +kernel
  obtain ⟨hgathers, hgathers', hnodup⟩ := Table.conversions_gather
  have htexts := hnodup _ _ ⟨5⟩ _ horderly rfl fun e he =>
    ⟨"k", by rw [List.mem_singleton.1 he]; decide +kernel⟩
  refine ⟨horderly, ?_, ?_⟩
  · obtain ⟨_ | pairs, m', hr, hok⟩ := hmap.exists_ok
    · cases hok
    · obtain ⟨_, _, -, hall⟩ := hgathers _ _ _ _ _ _ rfl hr
      exact ⟨pairs, m', hr, hall.length_iff.2 htexts⟩
  · obtain ⟨_ | j, m', hr, hok⟩ := hdocument.exists_ok
    · cases hok
    · obtain ⟨fields, _, _, rfl, -, hall⟩ :=
        hgathers' _ _ _ _ _ _ _ horderly (by decide) (by simp) rfl hr
      exact ⟨fields, m', hr, hall.length_iff.2 htexts⟩

/-- A hash of two keys that are no UTF-8. -/
def Machine.colliding : Machine :=
  let m := (fresh.alloc (.scalar (.ofInt64 1))).2
  let m := (m.alloc (.scalar (.ofInt64 2))).2
  let m := (m.alloc (.hash ⟨[([255], ⟨4⟩), ([254], ⟨5⟩)], none⟩)).2
  { m with alive := [m.here] }

/-- Both keys have the same text, so the map has one pair for two entries. -/
theorem Machine.colliding_loses : ¬∀ (type : HostType) (m m' : Machine) (held : List Handle) (v : Held)
    (t : Table) (pairs : List (String × type.Value)), m.Orderly held → v.handle ∈ held →
    m.body v.handle = .hash t → (HostHash.toMap type v).run m = .ok (.ok pairs) m' →
    pairs.length = t.entries.length := by
  intro hall
  have horderly : colliding.Orderly [⟨6⟩] := by decide +kernel
  have hmap : Run.Yields (HostHash.toMap (.int .i64) ⟨⟨6⟩, colliding.here⟩).run colliding
      fun r _ => r.isOk = true := by decide +kernel
  obtain ⟨_ | pairs, m', hr, hok⟩ := hmap.exists_ok
  · cases hok
  · have hlength := hall (.int .i64) colliding m' _ _ _ pairs horderly List.mem_cons_self rfl hr
    obtain ⟨m₁, hx, -⟩ := Bridge.onOwner_returned hr
    obtain ⟨converted, _, hconverted, rfl⟩ := Reading.textMap_ok (t := ⟨_, none⟩) rfl hx
    have htexts := hconverted.gathered.length_iff.1 hlength
    exact absurd htexts (by decide +kernel)

end ValueMachine

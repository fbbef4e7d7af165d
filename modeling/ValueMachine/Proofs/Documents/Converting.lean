import ValueMachine.Proofs.Documents.Keyed
import ValueMachine.Proofs.Documents.Showing

/-! The document of a value. A value that shows a plain document is read as just that document, as
long as there are two levels of depth for each container and one for the scalar at the bottom. -/

namespace ValueMachine

open Machine

variable {α β : Type} {m m' : Machine} {bound depth fuel : Nat} {h : Handle} {b : Body} {j : Json}

theorem Machine.here_retain (m : Machine) (h : Handle) : (m.retain h).here = m.here :=
  (Agrees.retain m h 0).here

theorem Machine.hold_apply (m : Machine) (h : Handle) :
    hold h m = .ok ⟨h, m.here⟩ (m.retain h) := by
  rw [← m.here_retain h]
  rfl

namespace Bridge

theorem run_ofRun {y : Run α} {a : α} (hy : y m = .ok a m') :
    (Bridge.ofRun y).run m = .ok (.ok a) m' := by
  show (y >>= fun a => Pure.pure (Except.ok a) : Run _) m = _
  rw [Run.bind_of_ok hy]
  rfl

theorem run_bind {x : Bridge α} {f : α → Bridge β} {a : α} (hx : x.run m = .ok (.ok a) m') :
    (x >>= f).run m = (f a).run m' := by
  show (x.run >>= ExceptT.bindCont f : Run _) m = _
  rw [Run.bind_of_ok hx]
  rfl

/-- An operation finds something where no read hook writes, and its machine agrees with the former
one. -/
def Finds (x : Bridge α) (m : Machine) (bound : Nat) (a : α) : Prop :=
  m.heap.Tame → ∃ m', x.run m = .ok (.ok a) m' ∧ m.Agrees bound m'

namespace Finds

variable {x : Bridge α} {f : α → Bridge β} {a : α} {c : β}

theorem pure (a : α) : (Pure.pure a : Bridge α).Finds m bound a := fun _ => ⟨m, rfl, .refl m⟩

theorem look_bind {g : Machine → α} (hf : (f (g m)).Finds m bound c) :
    (Bridge.look g >>= f).Finds m bound c := hf

theorem get_bind {f : Machine → Bridge β} (hf : (f m).Finds m bound c) :
    (get >>= f).Finds m bound c := hf

theorem after {m₁ : Machine} (hx : x.run m = .ok (.ok a) m₁) (ha : m.Agrees bound m₁)
    (hf : (f a).Finds m₁ bound c) : (x >>= f).Finds m bound c := fun ht => by
  obtain ⟨m₂, hf, ha'⟩ := hf (ha.tame ht)
  exact ⟨m₂, (run_bind hx).trans hf, ha.trans ha'⟩

theorem bind (hx : x.Finds m bound a) (hf : ∀ m', m.Agrees bound m' → (f a).Finds m' bound c) :
    (x >>= f).Finds m bound c := fun ht => by
  obtain ⟨m₁, hx, ha⟩ := hx ht
  exact after hx ha (hf m₁ ha) ht

theorem mono {bound' : Nat} (hx : x.Finds m bound a) (hle : bound ≤ bound') :
    x.Finds m bound' a := fun ht => by
  obtain ⟨m', hx, ha⟩ := hx ht
  exact ⟨m', hx, ha.mono hle⟩

/-- A value is held while it is read, and what follows goes on from there. -/
theorem holding_bind {bound' : Nat} {g : Held → Bridge α} (hb : m.Lives h b) (hle : bound ≤ bound')
    (hg : (g ⟨h, m.here⟩).Finds (m.retain h) bound a)
    (hf : ∀ m', m.Agrees bound m' → (f a).Finds m' bound' c) :
    (Bridge.ofRun (hold h) >>= fun v => Bridge.releasing [v] (g v) >>= f).Finds m bound' c := by
  intro ht
  obtain ⟨m₁, hg, ha⟩ := hg ((Agrees.retain m h bound).tame ht)
  have hdrop := hb.dropAll ha
  obtain ⟨m₂, hf, ha'⟩ := hf _ hdrop (hdrop.tame ht)
  have hheld : (Bridge.releasing [⟨h, m.here⟩] (g ⟨h, m.here⟩)).run (m.retain h)
      = .ok (.ok a) (m₁.dropAll [⟨h, m.here⟩]) := by
    show ((g ⟨h, m.here⟩).run.always (·.dropAll [⟨h, m.here⟩])) (m.retain h) = _
    rw [Run.always_apply, hg]
  exact ⟨m₂, (run_bind (run_ofRun (m.hold_apply h))).trans ((run_bind hheld).trans hf),
    (hdrop.mono hle).trans ha'⟩

theorem holding {g : Held → Bridge α} (hb : m.Lives h b)
    (hg : (g ⟨h, m.here⟩).Finds (m.retain h) bound a) :
    (Bridge.ofRun (hold h) >>= fun v => Bridge.releasing [v] (g v)).Finds m bound a := by
  have hpure := holding_bind (f := Pure.pure) hb le_rfl hg fun m' _ => .pure a
  simpa only [bind_pure] using hpure

/-- A reading notes what its hooks note. -/
theorem noting {y : Run α} (hy : m.heap.Tame → ∃ log, y m = .ok a { m with log := log }) :
    (Bridge.ofRun y).Finds m bound a := fun ht => by
  obtain ⟨log, hy⟩ := hy ht
  exact ⟨_, run_ofRun hy, .log m log bound⟩

end Finds

end Bridge

open Bridge

theorem Machine.reading_apply (ht : m.heap.Tame) (h : Handle) (g : Machine → α) :
    ∃ log, (do runReadHooks h; Run.look g : Run α) m
      = .ok (g { m with log := log }) { m with log := log } := by
  obtain ⟨log, hlog⟩ := runReadHooks_eq ht h
  exact ⟨log, Run.bind_of_ok hlog⟩

namespace Machine.Lives

variable {s : Scalar}

theorem scalar? (hb : m.Lives h (.scalar s)) : m.scalar? h = some s := scalar?_eq_some.2 hb.body

theorem target? (hb : m.Lives h (.scalar s)) : m.target? h = s.target := by
  rw [Machine.target?, hb.scalar?]
  rfl

theorem log (hb : m.Lives h (.scalar s)) (log : Log) :
    ({ m with log := log } : Machine).Lives h (.scalar s) :=
  hb.agrees (.log m log 0) (by simp)

theorem isDefined (hb : m.Lives h (.scalar s)) :
    (Bridge.ofRun (isDefined h)).Finds m bound s.isDefined := .noting fun ht => by
  obtain ⟨log, hread⟩ := reading_apply ht h (·.definedAt h)
  rw [definedAt, (hb.log log).body] at hread
  exact ⟨log, hread⟩

theorem number (hb : m.Lives h (.scalar s)) (ht : m.heap.Tame) :
    ∃ log, number h m = .ok s.number { m with log := log } := by
  obtain ⟨log, hread⟩ := reading_apply ht h (·.numberAt h)
  rw [numberAt, (hb.log log).scalar?] at hread
  exact ⟨log, hread⟩

theorem text {t : ByteText} (hb : m.Lives h (.scalar (.ofByteText t))) (ht : m.heap.Tame) :
    ∃ log, text h m = .ok t { m with log := log } := by
  obtain ⟨log, hread⟩ := reading_apply ht h (·.textAt h)
  rw [textAt, (hb.log log).scalar?] at hread
  exact ⟨log, hread⟩

theorem string {t : ByteText} (hb : m.Lives h (.scalar (.ofByteText t))) :
    (Bridge.ofRun (string h)).Finds m bound t.bytes.toText := .noting fun ht => by
  obtain ⟨log, hread⟩ := hb.text ht
  exact ⟨log, Run.bind_of_ok hread⟩

end Machine.Lives

/-! ### Pairs -/

namespace Keyed

variable {pairs : List (String × α)}

/-- Pairs in the order of their keys are sorted as they are. -/
theorem sorted_eq (hkeys : pairs.Pairwise fun p q => Bytes.Before p.1 q.1) :
    sorted pairs = pairs := by
  have hsorted : pairs.Pairwise fun p q => Bytes.le (Bytes.ofText p.1) (Bytes.ofText q.1) = true :=
    hkeys.imp fun h => decide_eq_true (List.le_of_lt h)
  rw [sorted, List.mergeSort_of_pairwise hsorted]

theorem nodup_of_pairwise (hkeys : pairs.Pairwise fun p q => Bytes.Before p.1 q.1) :
    (pairs.map (·.1)).Nodup :=
  List.pairwise_map.2 (hkeys.imp fun h he => h.ne (congrArg Bytes.ofText he))

end Keyed

namespace Document

/-! ### Scalars -/

theorem ofScalar_undefined (hb : m.Lives h (.scalar .undefined)) :
    (ofScalar h).Finds m bound .null :=
  hb.isDefined.bind fun _ _ => .pure _

theorem ofScalar_text {s : String} (hb : m.Lives h (.scalar (.ofText s))) :
    (ofScalar h).Finds m bound (.text s) := by
  have hdefined : (Scalar.ofText s).isDefined = true := rfl
  refine hb.isDefined.bind fun m₁ ha => ?_
  have hb₁ := hb.agrees ha (by simp)
  have hint : m₁.hasInt h = false := by rw [hasInt, hb₁.scalar?]; rfl
  have hfloat : m₁.hasFloat h = false := by rw [hasFloat, hb₁.scalar?]; rfl
  rw [if_pos hdefined]
  refine Finds.get_bind ?_
  rw [if_neg (by simp [hint]), if_neg (by simp [hfloat])]
  refine hb₁.string.bind fun _ _ => ?_
  rw [ByteText.ofText, Bytes.toText_ofText]
  exact .pure _

/-- The strict reading of an integer as a number. -/
theorem number_ofWide {w : Wide} (hb : m.Lives h (.scalar (.ofWide w))) (want : String) :
    (Strict.number h want).Finds m bound (.whole w) := by
  have hdefined : (Scalar.ofWide w).isDefined = true := rfl
  refine hb.isDefined.bind fun m₁ ha => ?_
  have hb₁ := hb.agrees ha (by simp)
  have hint : m₁.hasInt h = true := by rw [hasInt, hb₁.scalar?]; rfl
  have href : m₁.isReference h = false := by rw [isReference, hb₁.target?]; rfl
  rw [if_pos hdefined]
  refine Finds.get_bind ?_
  rw [if_neg (by simp [kind_of_scalar hb₁.body, href]), if_pos (by simp [hint])]
  exact .noting hb₁.number

theorem ofScalar_int {n : Int} (hb : m.Lives h (.scalar (.ofWide (.ofInt n)))) (hn : Wide.Holds n) :
    (ofScalar h).Finds m bound (.int n) := by
  have hdefined : (Scalar.ofWide (.ofInt n)).isDefined = true := rfl
  refine hb.isDefined.bind fun m₁ ha => ?_
  have hb₁ := hb.agrees ha (by simp)
  have hint : m₁.hasInt h = true := by rw [hasInt, hb₁.scalar?]; rfl
  rw [if_pos hdefined]
  refine Finds.get_bind ?_
  rw [if_pos hint]
  intro ht
  have hfound : (Strict.number h "i64").Finds m₁ bound (.whole (.ofInt n)) := number_ofWide hb₁ "i64"
  obtain ⟨m₂, hnumber, ha₂⟩ := hfound ht
  have hb₂ := hb₁.agrees ha₂ (by simp)
  by_cases hsmall : IntType.i64.contains n
  · have hsigned : (Strict.signed h).run m₁ = .ok (.ok n) m₂ := by
      refine (run_bind hnumber).trans ?_
      rw [Number.toSigned?, Wide.toInt_ofInt hn, if_pos hsmall]
      rfl
    exact ⟨m₂, run_bind (run_ofRun hsigned), ha₂⟩
  · have hsigned : (Strict.signed h).run m₁
        = .ok (.error (.notNumber ⟨h, m₂.here⟩ "i64")) (m₂.retain h) := by
      refine (run_bind hnumber).trans ?_
      rw [Number.toSigned?, Wide.toInt_ofInt hn, if_neg hsmall, ← m₂.here_retain h]
      rfl
    -- the failure holds the value, which is given up before it is read as unsigned
    have hdrop := ha₂.trans (hb₂.dropAll (.refl _))
    obtain ⟨log, hread⟩ := (hb₁.agrees hdrop (by simp)).number (hdrop.tame ht)
    have hlarge : 2 ^ 63 ≤ n := by
      obtain ⟨hlo, hhi⟩ := hn
      simp only [IntType.contains, IntType.least, IntType.greatest, IntType.isSigned, IntType.bits,
        Bool.and_eq_true, decide_eq_true_eq, if_true] at hsmall
      have hpow : Int.ofNat (Nat.pow 2 (64 - 1)) = 2 ^ 63 := rfl
      omega
    have hvalue : ((Scalar.ofWide (.ofInt n)).number.toUInt64.toNat : Int) = n :=
      Wide.toUInt64_ofInt hlarge hn.2
    refine ⟨_, ?_, hdrop.trans (.log _ log bound)⟩
    refine (run_bind (run_ofRun hsigned)).trans ((run_bind (run_ofRun rfl)).trans ?_)
    refine (run_bind (run_ofRun hread)).trans ?_
    rw [hvalue]
    rfl

/-! ### Containers -/

theorem ofElements_finds {convert : Handle → Bridge Json} {array : Handle} {items : List Json}
    (before : List Handle) {after : List Handle}
    (hconvert : ∀ j ∈ items, ∀ m h, m.Shows bound j h → (convert h).Finds m bound j) (fuel : Nat)
    (hb : m.Lives array (.array ((before ++ after).map some)))
    (hitems : List.Forall₂ (m.Shows bound) items after) (hf : after.length < fuel) :
    (ofElements convert array fuel before.length).Finds m bound items := by
  induction items generalizing m before after fuel with
  | nil =>
    cases hitems
    obtain ⟨fuel, rfl⟩ : ∃ k, fuel = k + 1 := ⟨fuel - 1, by omega⟩
    refine .after (run_ofRun (slots_apply hb.body)) (.refl m) ?_
    rw [if_neg (by simp)]
    exact .pure []
  | cons j items ih =>
    cases hitems with
    | @cons _ h _ after hj hrest =>
    obtain ⟨fuel, rfl⟩ : ∃ k, fuel = k + 1 := ⟨fuel - 1, by omega⟩
    refine .after (run_ofRun (slots_apply hb.body)) (.refl m) ?_
    rw [if_pos (by simp)]
    have hget : (((before ++ h :: after).map some)[before.length]?).join = some h := by simp
    rw [hget]
    obtain ⟨b, hlives⟩ := hj.lives
    have hfound := hconvert j List.mem_cons_self _ _ (hj.agrees (.retain m h bound))
    refine Finds.holding_bind hlives le_rfl hfound fun m₁ ha => ?_
    have hb' : m₁.Lives array (.array (((before ++ [h]) ++ after).map some)) := by
      rw [List.append_assoc]
      exact hb.agrees ha (by simp)
    have hnext := ih _ (fun j hj => hconvert j (List.mem_cons_of_mem _ hj)) fuel hb'
      (hrest.imp fun j h hs => hs.agrees ha) (by simpa using hf)
    rw [List.length_append, List.length_singleton] at hnext
    exact hnext.bind fun _ _ => .pure _

theorem lookup_entries {before after : List (Bytes × Handle)} {key : Bytes} {h : Handle}
    (hn : ((before ++ (key, h) :: after).map (·.1)).Nodup) :
    (before ++ (key, h) :: after).lookup key = some h := by
  have hbefore : before.lookup key = none := by
    refine List.lookup_eq_none_iff.2 fun p hp => ?_
    rw [List.map_append, List.nodup_append] at hn
    have hne := hn.2.2 p.1 (List.mem_map_of_mem hp) key (by simp)
    simpa using Ne.symm hne
  rw [List.lookup_append, hbefore]
  simp

/-- The cursor of a hash comes to the next of its keys. -/
theorem hashNext_apply {hash : Handle} {before after : List (Bytes × Handle)} {key : Bytes}
    (hb : m.body hash = .hash ⟨before ++ (key, h) :: after, some (key :: after.map (·.1))⟩)
    (hn : ((before ++ (key, h) :: after).map (·.1)).Nodup) :
    hashNext hash m = .ok (some (key, h))
      (m.setBody hash (.hash ⟨before ++ (key, h) :: after, some (after.map (·.1))⟩)) := by
  have hget : Table.get? ⟨before ++ (key, h) :: after, some (key :: after.map (·.1))⟩ key
      = some h := lookup_entries hn
  rw [hashNext, onTable, Run.look_bind, hb]
  simp only [Body.hash?, Table.step, Table.nextIn, hget]
  rfl

theorem hashNext_end {hash : Handle} {entries : List (Bytes × Handle)}
    (hb : m.body hash = .hash ⟨entries, some []⟩) :
    hashNext hash m = .ok none (m.setBody hash (.hash ⟨entries, none⟩)) := by
  rw [hashNext, onTable, Run.look_bind, hb]
  rfl

theorem agrees_setCursor {hash : Handle} {t : Table} (hb : m.body hash = .hash t)
    (cursor : Option (List Bytes)) (hlt : hash.index < bound) :
    m.Agrees bound (m.setBody hash (.hash { t with cursor := cursor })) :=
  (Agrees.refl m).set (c := { m.cell hash with body := .hash { t with cursor := cursor } })
    ⟨rfl, rfl, le_rfl, .inr ⟨hlt, t, cursor, hb, rfl⟩⟩

theorem ofEntries_finds {convert : Handle → Bridge Json} {hash : Handle}
    {fields : List (String × Json)} (before : List (Bytes × Handle)) {after : List (Bytes × Handle)}
    (hconvert : ∀ f ∈ fields, ∀ m h, m.Shows hash.index f.2 h →
      (convert h).Finds m hash.index f.2) (fuel : Nat)
    (hb : m.Lives hash (.hash ⟨before ++ after, some (after.map (·.1))⟩))
    (hn : ((before ++ after).map (·.1)).Nodup)
    (hfields : List.Forall₂ (fun f e => e.1 = Bytes.ofText f.1 ∧ m.Shows hash.index f.2 e.2)
      fields after) (hf : after.length < fuel) :
    (ofEntries convert hash fuel).Finds m (hash.index + 1) fields := by
  induction fields generalizing m before after fuel with
  | nil =>
    cases hfields
    obtain ⟨fuel, rfl⟩ : ∃ k, fuel = k + 1 := ⟨fuel - 1, by omega⟩
    have hend := hashNext_end hb.body
    exact .after (run_ofRun hend) (agrees_setCursor hb.body _ (Nat.lt_succ_self _)) (.pure [])
  | cons f fields ih =>
    cases hfields with
    | @cons _ e _ after hfield hrest =>
    obtain ⟨key, h⟩ := e
    obtain ⟨rfl, hs⟩ := hfield
    obtain ⟨fuel, rfl⟩ : ∃ k, fuel = k + 1 := ⟨fuel - 1, by omega⟩
    have hnext := hashNext_apply hb.body hn
    have hcursor := agrees_setCursor hb.body (some (after.map (·.1))) (Nat.lt_succ_self _)
    have hb₁ := hb.of_body hcursor (body_setBody _ hb.index_lt)
    have hrest₁ := hrest.imp fun f e hs => hs.imp_right fun hs => hs.agrees hcursor
    have hs₁ := hs.agrees hcursor
    refine .after (run_ofRun hnext) hcursor ?_
    generalize m.setBody hash _ = m₁ at hb₁ hrest₁ hs₁ ⊢
    obtain ⟨b, hlives⟩ := hs₁.lives
    have hfound := hconvert _ List.mem_cons_self _ _
      (hs₁.agrees (.retain m₁ h hash.index))
    refine Finds.holding_bind hlives (Nat.le_succ _) hfound fun m₂ ha => ?_
    have hsplit : before ++ (Bytes.ofText f.1, h) :: after
        = (before ++ [(Bytes.ofText f.1, h)]) ++ after := by simp
    rw [hsplit] at hb₁ hn
    have hall := ih _ (fun f hf => hconvert f (List.mem_cons_of_mem _ hf)) fuel
      (hb₁.agrees_above ha le_rfl) hn
      (hrest₁.imp fun f e hs => hs.imp_right fun hs => hs.agrees ha) (by simpa using hf)
    refine hall.bind fun _ _ => ?_
    rw [Bytes.toText_ofText]
    exact .pure _

/-! ### Documents -/

/-- Fields in the order of their keys are an object as they are. -/
theorem ofFields_eq {fields : List (String × Json)}
    (hkeys : fields.Pairwise fun f g => Bytes.Before f.1 g.1) :
    Json.ofFields fields = .object fields := by
  rw [Json.ofFields, Keyed.latest_eq (Keyed.nodup_of_pairwise hkeys), Keyed.sorted_eq hkeys]

theorem ofValueWithin_scalar {s : Scalar} (hb : m.Lives h (.scalar s)) (hs : s.target = none)
    (hd : depth ≠ 0) (hf : (ofScalar h).Finds m bound j) :
    (ofValueWithin depth h).Finds m bound j := by
  obtain ⟨depth, rfl⟩ := Nat.exists_eq_succ_of_ne_zero hd
  refine Finds.look_bind ?_
  rw [kind_of_scalar hb.body]
  refine Finds.look_bind ?_
  rw [hb.target?, hs]
  exact hf

theorem ofValueWithin_reference {target : Handle} (hb : m.Lives h (.scalar (.ofTarget target)))
    (ht : m.Lives target b) (hf : (ofValueWithin depth target).Finds (m.retain target) bound j) :
    (ofValueWithin (depth + 1) h).Finds m bound j := by
  refine Finds.look_bind ?_
  rw [kind_of_scalar hb.body]
  refine Finds.look_bind ?_
  rw [hb.target?]
  exact Finds.holding ht hf

theorem ofValueWithin_array {values : List Handle} {items : List Json}
    (hb : m.Lives h (.array (values.map some)))
    (hitems : List.Forall₂ (m.Shows bound) items values)
    (hconvert : ∀ j ∈ items, ∀ m k, m.Shows bound j k → (ofValueWithin depth k).Finds m bound j) :
    (ofValueWithin (depth + 1) h).Finds m bound (.list items) := by
  refine Finds.look_bind ?_
  rw [kind_of_array hb.body]
  have hheld := Agrees.retain m h bound
  have hb' := hb.agrees hheld (by simp)
  refine Finds.holding hb (.after (run_ofRun (slots_apply hb'.body)) (.refl _) ?_)
  have hall := ofElements_finds [] hconvert ((values.map some).length + 1) hb'
    (hitems.imp fun j h hs => hs.agrees hheld) (by simp)
  exact hall.bind fun _ _ => .pure _

theorem keys_eq {fields : List (String × Json)} {entries : List (Bytes × Handle)}
    {P : String × Json → Bytes × Handle → Prop}
    (h : List.Forall₂ (fun f e => e.1 = Bytes.ofText f.1 ∧ P f e) fields entries) :
    entries.map (·.1) = fields.map fun f => Bytes.ofText f.1 := by
  induction h with
  | nil => rfl
  | cons hkey _ ih => rw [List.map_cons, List.map_cons, hkey.1, ih]

theorem ofValueWithin_hash {fields : List (String × Json)} {entries : List (Bytes × Handle)}
    {cursor : Option (List Bytes)} (hb : m.Lives h (.hash ⟨entries, cursor⟩))
    (hkeys : fields.Pairwise fun f g => Bytes.Before f.1 g.1)
    (hfields : List.Forall₂ (fun f e => e.1 = Bytes.ofText f.1 ∧ m.Shows h.index f.2 e.2)
      fields entries)
    (hconvert : ∀ f ∈ fields, ∀ m k, m.Shows h.index f.2 k →
      (ofValueWithin depth k).Finds m h.index f.2) :
    (ofValueWithin (depth + 1) h).Finds m (h.index + 1) (.object fields) := by
  have hn : (entries.map (·.1)).Nodup := by
    rw [keys_eq hfields]
    exact List.pairwise_map.2 (hkeys.imp fun hbefore => hbefore.ne)
  refine Finds.look_bind ?_
  rw [kind_of_hash hb.body]
  have hheld := Agrees.retain m h h.index
  have hb₁ := hb.agrees_above hheld le_rfl
  refine Finds.holding hb ?_
  have hfields₁ := hfields.imp fun f e hs => hs.imp_right fun hs => hs.agrees hheld
  generalize m.retain h = m₁ at hb₁ hfields₁ ⊢
  have hstart : hashStart h m₁ = .ok entries.length
      (m₁.setBody h (.hash ⟨entries, some (entries.map (·.1))⟩)) := by
    rw [hashStart, onTable, Run.look_bind, hb₁.body]
    rfl
  have hcursor := agrees_setCursor hb₁.body (some (entries.map (·.1))) (Nat.lt_succ_self _)
  refine .after (run_ofRun hstart) hcursor ?_
  have hall := ofEntries_finds [] hconvert (entries.length + 1)
    (hb₁.of_body hcursor (body_setBody _ hb₁.index_lt)) hn
    (hfields₁.imp fun f e hs => hs.imp_right fun hs => hs.agrees hcursor) (Nat.lt_succ_self _)
  refine hall.bind fun _ _ => ?_
  rw [ofFields_eq hkeys]
  exact .pure _

/-- A value that shows a plain document is read as that document. -/
theorem shows_finds {n : Nat} (hj : j.Plain n) (hs : m.Shows bound j h) (hd : 2 * n < depth) :
    (ofValueWithin depth h).Finds m bound j := by
  induction hj generalizing m bound h depth with
  | null =>
    cases hs with
    | null hb => exact ofValueWithin_scalar hb rfl (by omega) (ofScalar_undefined hb)
  | int hi =>
    cases hs with
    | int hb => exact ofValueWithin_scalar hb rfl (by omega) (ofScalar_int hb hi)
  | text =>
    cases hs with
    | text hb => exact ofValueWithin_scalar hb rfl (by omega) (ofScalar_text hb)
  | list hitems ih =>
    cases hs with
    | @list _ _ array _ values hb hlt harray hlen hshows =>
      obtain ⟨depth, rfl⟩ : ∃ k, depth = k + 2 := ⟨depth - 2, by omega⟩
      have hheld := Agrees.retain m array bound
      have hall : List.Forall₂ ((m.retain array).Shows array.index) _ values :=
        List.forall₂_iff_zip.2 ⟨hlen, fun hp => (hshows _ hp).agrees hheld⟩
      refine ofValueWithin_reference hb harray (Finds.mono ?_ hlt.le)
      exact ofValueWithin_array (harray.agrees hheld (by simp)) hall
        fun j hj m k hs => ih j hj hs (by omega)
  | object hkeys hfields ih =>
    cases hs with
    | @object _ _ table _ entries _ hb hlt htable hlen hentries hshows =>
      obtain ⟨depth, rfl⟩ : ∃ k, depth = k + 2 := ⟨depth - 2, by omega⟩
      have hheld := Agrees.retain m table table.index
      have hall : List.Forall₂ (fun (f : String × Json) e => e.1 = Bytes.ofText f.1 ∧
          (m.retain table).Shows table.index f.2 e.2) _ entries :=
        List.forall₂_iff_zip.2
          ⟨hlen, fun hp => ⟨hentries _ hp, (hshows _ hp).agrees hheld⟩⟩
      refine ofValueWithin_reference hb htable (Finds.mono ?_ hlt)
      exact ofValueWithin_hash (htable.agrees_above hheld le_rfl) hkeys hall
        fun f hf m k hs => ih f hf hs (by omega)

/-- The depth of a reading is enough for 256 levels of containers. -/
theorem shows_ofValue (hj : j.Plain 256) (hs : m.Shows bound j h) (ht : m.heap.Tame) :
    ∃ m', (ofValue h).run m = .ok (.ok j) m' := by
  obtain ⟨m', hrun, -⟩ := shows_finds hj hs (show 2 * 256 < maxDepth + 1 by decide) ht
  exact ⟨m', hrun⟩

end Document

end ValueMachine

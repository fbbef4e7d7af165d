import ValueMachine.Proofs.Passage.Documents

/-! The passage of documents. The tree of a document is read as the document, with the numbers 1 and 0
for its truth values. There is depth for 256 levels of containers, and a document that is nested more
deeply is refused; either way the tree is gone once its root is given up. -/

namespace ValueMachine

open Machine Bridge

variable {m m₁ m₂ m' : Machine} {h k a : Handle} {b : Body} {s : Scalar} {w : Wide}
  {hs ks places : List Handle} {f : Form} {fs gs : List Form} {j : Json} {items : List Json}
  {fields : List (String × Json)} {n : Nat}

namespace Json

/-- Whether the containers of a document are nested to at most so many levels. -/
def isWithin : Nat → Json → Bool
  | 0, .list _ | 0, .object _ => false
  | n + 1, .list items => items.all (isWithin n)
  | n + 1, .object fields => fields.all fun f => isWithin n f.2
  | _, _ => true

mutual

/-- A document with 1 for each true in it and 0 for each false. -/
def numeric : Json → Json
  | .bool b => .int (if b then 1 else 0)
  | .list items => .list (numericItems items)
  | .object fields => .object (numericFields fields)
  | j => j

def numericItems : List Json → List Json
  | [] => []
  | j :: rest => numeric j :: numericItems rest

def numericFields : List (String × Json) → List (String × Json)
  | [] => []
  | (key, j) :: rest => (key, numeric j) :: numericFields rest

end

theorem numericItems_eq (items : List Json) : numericItems items = items.map numeric := by
  induction items with
  | nil => rfl
  | cons j items ih => rw [numericItems, ih, List.map_cons]

theorem numericFields_eq (fields : List (String × Json)) :
    numericFields fields = fields.map fun f => (f.1, numeric f.2) := by
  induction fields with
  | nil => rfl
  | cons f fields ih => rw [numericFields, ih, List.map_cons]

end Json

namespace Document

/-- What a document is read as where there is depth for so many levels of containers. -/
def given (n : Nat) (j : Json) : Except Failure Json :=
  if j.isWithin n then .ok j.numeric else .error tooDeep

/-! ### Scalars -/

theorem ofScalar_bare_undefined (hb : m.Bare h (.scalar .undefined)) :
    (ofScalar h).run m = .ok (.ok .null) m :=
  run_bind (run_ofRun hb.isDefined)

theorem ofScalar_bare_signed (hb : m.Bare h (.scalar s)) (ht : s.target = none)
    (hint : s.int = some w) (hw : IntType.i64.contains w.toInt = true) :
    (ofScalar h).run m = .ok (.ok (.int w.toInt)) m := by
  have hdefined : s.isDefined = true := by simp [Scalar.isDefined, hint]
  have hslot : m.hasInt h = true := by rw [hasInt, hb.scalar?]; simp [hint]
  refine (run_bind (run_ofRun hb.isDefined)).trans ?_
  rw [if_pos hdefined]
  show (if m.hasInt h = true then _ else _ : Bridge Json).run m = _
  rw [if_pos hslot]
  exact run_bind (run_ofRun (Strict.signed_apply hb ht hint hw))

/-- The failure of the signed reading is given up before the integer is read as unsigned. -/
theorem ofScalar_bare_unsigned {i : Int} (hb : m.Bare h (.scalar (.ofWide (.ofInt i))))
    (hlo : 2 ^ 63 ≤ i) (hhi : i < 2 ^ 64) (hlive : m.isAlive m.here) :
    (ofScalar h).run m = .ok (.ok (.int i)) m := by
  have hdefined : (Scalar.ofWide (.ofInt i)).isDefined = true := rfl
  have hslot : m.hasInt h = true := by rw [hasInt, hb.scalar?]; rfl
  have hlarge : IntType.i64.contains (Wide.ofInt i).toInt = false := by
    rw [Wide.toInt_ofInt ⟨by omega, hhi⟩, Bool.eq_false_iff, ne_eq, IntType.contains_i64_iff]
    omega
  have hfails := Strict.signed_fails hb rfl rfl hlarge
  have hback : (Run.change (·.dropAll [⟨h, m.here⟩]) : Run Unit) (m.retain h) = .ok () m :=
    congrArg (EStateM.Result.ok ()) (hb.drop_retain hlive)
  refine (run_bind (run_ofRun hb.isDefined)).trans ?_
  rw [if_pos hdefined]
  show (if m.hasInt h = true then _ else _ : Bridge Json).run m = _
  rw [if_pos hslot]
  refine (run_bind (run_ofRun hfails)).trans ((run_bind (run_ofRun hback)).trans ?_)
  refine (run_bind (run_ofRun hb.number)).trans ?_
  have hvalue : ((Scalar.ofWide (.ofInt i)).number.toUInt64.toNat : Int) = i :=
    Wide.toUInt64_ofInt hlo hhi
  rw [hvalue]
  rfl

theorem ofScalar_bare_float {x : Float} (hx : ∃ negative c e, FloatParts.of x = .finite negative c e)
    (hb : m.Bare h (.scalar (.ofFloat x))) : (ofScalar h).run m = .ok (.ok (.float x)) m := by
  obtain ⟨negative, c, e, hx⟩ := hx
  have hdefined : (Scalar.ofFloat x).isDefined = true := rfl
  have hint : m.hasInt h = false := by rw [hasInt, hb.scalar?]; rfl
  have hfloat : (m.hasFloat h && !m.hasText h) = true := by
    rw [hasFloat, hasText, hb.scalar?]
    rfl
  have hfinite : ofScalar.finite x = .float x := by rw [ofScalar.finite, hx]
  refine (run_bind (run_ofRun hb.isDefined)).trans ?_
  rw [if_pos hdefined]
  show (if m.hasInt h = true then _ else _ : Bridge Json).run m = _
  rw [if_neg (by simp [hint]), if_pos hfloat]
  refine (run_bind (run_ofRun hb.number)).trans ?_
  show (Pure.pure (ofScalar.finite x) : Bridge Json).run m = _
  rw [hfinite]
  rfl

theorem ofScalar_bare_text {t : String} (hb : m.Bare h (.scalar (.ofText t))) :
    (ofScalar h).run m = .ok (.ok (.text t)) m := by
  have hdefined : (Scalar.ofText t).isDefined = true := rfl
  have hint : m.hasInt h = false := by rw [hasInt, hb.scalar?]; rfl
  have hfloat : (m.hasFloat h && !m.hasText h) = false := by
    rw [hasFloat, hb.scalar?]
    rfl
  refine (run_bind (run_ofRun hb.isDefined)).trans ?_
  rw [if_pos hdefined]
  show (if m.hasInt h = true then _ else _ : Bridge Json).run m = _
  rw [if_neg (by simp [hint]), if_neg (by simp [hfloat])]
  refine (run_bind (run_ofRun hb.string)).trans ?_
  rw [ByteText.ofText, Bytes.toText_ofText]
  rfl

/-- The scalar of a document that is no container is read off its slots. -/
theorem ofScalar_given (hj : j.Fair) (hform : j.form = .scalar s) (hb : m.Bare h (.scalar s))
    (hlive : m.isAlive m.here) : (ofScalar h).run m = .ok (.ok j.numeric) m := by
  cases hj with
  | null =>
    cases hform
    exact ofScalar_bare_undefined hb
  | @bool b =>
    cases hform
    cases b <;> exact ofScalar_bare_signed hb rfl rfl (by decide)
  | @int i hi =>
    cases hform
    by_cases hlo : 2 ^ 63 ≤ i
    · exact ofScalar_bare_unsigned hb hlo hi.2 hlive
    · have hvalue := Wide.toInt_ofInt hi
      have hsmall : IntType.i64.contains (Wide.ofInt i).toInt = true := by
        rw [hvalue, IntType.contains_i64_iff]
        exact ⟨hi.1, by omega⟩
      have hread := ofScalar_bare_signed hb rfl rfl hsmall
      rwa [hvalue] at hread
  | float hx =>
    cases hform
    exact ofScalar_bare_float hx hb
  | text =>
    cases hform
    exact ofScalar_bare_text hb
  | list => rw [Json.form] at hform; cases hform
  | object => rw [Json.form] at hform; cases hform

/-! ### Containers -/

/-- What the elements of a list are read as. -/
def givenItems (n : Nat) (items : List Json) : Except Failure (List Json) :=
  if items.all (Json.isWithin n) then .ok (items.map Json.numeric) else .error tooDeep

/-- What the fields of an object are read as. -/
def givenFields (n : Nat) (fields : List (String × Json)) : Except Failure (List (String × Json)) :=
  if fields.all fun f => f.2.isWithin n then .ok (fields.map fun f => (f.1, f.2.numeric))
  else .error tooDeep

theorem givenItems_cons (n : Nat) (j : Json) (items : List Json) : givenItems n (j :: items)
    = (given n j).bind fun i => (givenItems n items).map (i :: ·) := by
  unfold givenItems given
  cases hj : j.isWithin n
  · simp [hj, Except.bind]
  · cases hitems : items.all (Json.isWithin n) <;> simp [hj, hitems, Except.bind, Except.map]

theorem givenFields_cons (n : Nat) (key : String) (j : Json) (fields : List (String × Json)) :
    givenFields n ((key, j) :: fields)
      = (given n j).bind fun i => (givenFields n fields).map ((key, i) :: ·) := by
  unfold givenFields given
  cases hj : j.isWithin n
  · simp [hj, Except.bind]
  · cases hfields : fields.all fun f => f.2.isWithin n <;>
      simp [hj, hfields, Except.bind, Except.map]

theorem given_list (n : Nat) (items : List Json) :
    given (n + 1) (.list items) = (givenItems n items).map Json.list := by
  unfold given givenItems
  rw [Json.isWithin, Json.numeric, Json.numericItems_eq]
  split <;> rfl

theorem given_object (hkeys : fields.Pairwise fun f g => Bytes.Before f.1 g.1) (n : Nat) :
    given (n + 1) (.object fields) = (givenFields n fields).map Json.ofFields := by
  have hnumeric : (fields.map fun f => (f.1, f.2.numeric)).Pairwise
      fun f g : String × Json => Bytes.Before f.1 g.1 := List.pairwise_map.2 hkeys
  unfold given givenFields
  rw [Json.isWithin, Json.numeric, Json.numericFields_eq]
  split
  · exact congrArg Except.ok (ofFields_eq hnumeric).symm
  · rfl

/-- Every tree of a document is read in one way, and at most its own cursors move. -/
def Converts (convert : Handle → Bridge Json) (j : Json) (r : Except Failure Json) : Prop :=
  ∀ ⦃m : Machine⦄ ⦃h : Handle⦄ ⦃places : List Handle⦄, m.Grove [h] [j.form] places →
    places.Nodup → m.isAlive m.here → (convert h).Peruses m places r

/-- A value is held while its document is read. -/
theorem Converts.holding {convert : Handle → Bridge Json} {r : Except Failure Json}
    (hc : Converts convert j r) (hg : m.Grove [h] [j.form] places) (hn : places.Nodup)
    (hlive : m.isAlive m.here) : (Bridge.ofRun (hold h) >>= fun v =>
      Bridge.releasing [v] (convert v.handle)).Peruses m places r := by
  obtain ⟨b, hb⟩ := hg.bare hg.mem_root
  exact .holding (run_ofRun (m.hold_apply h)) hb hlive (hc (hg.retain h) hn (alive_retain h hlive))

theorem ofElements_peruses {convert : Handle → Bridge Json} (before : List Handle)
    {after : List Handle} (hconvert : ∀ j ∈ items, Converts convert j (given n j)) (fuel : Nat)
    (hb : m.Bare a (.array ((before ++ after).map some)))
    (hg : m.Grove after (items.map Json.form) places) (hn : places.Nodup)
    (hlive : m.isAlive m.here) (hf : after.length < fuel) :
    (ofElements convert a fuel before.length).Peruses m places (givenItems n items) := by
  induction items generalizing m before after places fuel with
  | nil =>
    cases hg
    obtain ⟨fuel, rfl⟩ : ∃ k, fuel = k + 1 := ⟨fuel - 1, by omega⟩
    refine .after (run_ofRun (slots_apply hb.body)) (.refl m) ?_
    rw [if_neg (by simp)]
    exact .pure []
  | cons j items ih =>
    cases after with
    | nil => cases hg
    | cons h after =>
    obtain ⟨fuel, rfl⟩ : ∃ k, fuel = k + 1 := ⟨fuel - 1, by omega⟩
    obtain ⟨own, outer, rfl, hfirst, hrest⟩ := Grove.split hg
    obtain ⟨hown, houter, -⟩ := List.nodup_append.1 hn
    refine .after (run_ofRun (slots_apply hb.body)) (.refl m) ?_
    rw [if_pos (by simp)]
    have hget : (((before ++ h :: after).map some)[before.length]?).join = some h := by simp
    rw [hget]
    show (Bridge.ofRun (hold h) >>= fun item => Bridge.releasing [item] (convert item.handle) >>=
      fun j => ofElements convert a fuel (before.length + 1) >>= fun js => pure (j :: js)).Peruses _ _ _
    rw [← bind_assoc]
    have hread := (hconvert j List.mem_cons_self).holding hfirst hown hlive
    rw [givenItems_cons]
    refine hread.bind_of (List.subset_append_left own outer) (fun i m₁ hi hp => ?_)
      fun e he => by rw [he]; rfl
    have hb' : m₁.Bare a (.array (((before ++ [h]) ++ after).map some)) := by
      rw [List.append_assoc]
      exact hb.perused hp (by simp)
    have hnext := ih _ (fun j hj => hconvert j (List.mem_cons_of_mem _ hj)) fuel hb'
      (hrest.perused hp) houter (hp.alive hlive) (by simpa using hf)
    rw [List.length_append, List.length_singleton] at hnext
    rw [hi]
    refine hnext.bind_of (List.subset_append_right own outer) (fun is m₂ his _ => ?_)
      fun e he => by rw [he]; rfl
    rw [his]
    exact .pure _

theorem ofEntries_peruses {convert : Handle → Bridge Json} (before : List (Bytes × Handle))
    {after : List (Bytes × Handle)}
    (hconvert : ∀ f ∈ fields, Converts convert f.2 (given n f.2)) (fuel : Nat)
    (hb : m.Bare a (.hash ⟨before ++ after, some (after.map (·.1))⟩))
    (hkeys : ((before ++ after).map (·.1)).Nodup)
    (hafter : after.map (·.1) = fields.map fun f => Bytes.ofText f.1)
    (hg : m.Grove (after.map (·.2)) (fields.map fun f => f.2.form) places)
    (hn : (a :: places).Nodup) (hlive : m.isAlive m.here) (hf : after.length < fuel) :
    (ofEntries convert a fuel).Peruses m (a :: places) (givenFields n fields) := by
  induction fields generalizing m before after places fuel with
  | nil =>
    obtain rfl := List.map_eq_nil_iff.1 hafter
    obtain ⟨fuel, rfl⟩ : ∃ k, fuel = k + 1 := ⟨fuel - 1, by omega⟩
    exact .after (run_ofRun (hashNext_end hb.body)) (hb.perused_setCursor List.mem_cons_self _) (.pure [])
  | cons f fields ih =>
    obtain ⟨key, j⟩ := f
    cases after with
    | nil => cases hafter
    | cons e after =>
    obtain ⟨bytes, h⟩ := e
    obtain ⟨hbytes, hrestkeys⟩ := List.cons.inj hafter
    obtain rfl : bytes = Bytes.ofText key := hbytes
    obtain ⟨fuel, rfl⟩ : ∃ k, fuel = k + 1 := ⟨fuel - 1, by omega⟩
    obtain ⟨own, outer, rfl, hfirst, hrest⟩ := Grove.split hg
    obtain ⟨ha, hplaces⟩ := List.nodup_cons.1 hn
    obtain ⟨hown, houter, -⟩ := List.nodup_append.1 hplaces
    obtain ⟨haown, haouter⟩ := not_or.1 (List.mem_append.not.1 ha)
    have hcursor : m.Perused (a :: (own ++ outer)) _ :=
      hb.perused_setCursor List.mem_cons_self (some (after.map (·.1)))
    have hb₁ := hb.setBody (.hash ⟨before ++ (Bytes.ofText key, h) :: after, some (after.map (·.1))⟩)
    refine .after (run_ofRun (hashNext_apply hb.body hkeys)) hcursor ?_
    have hfirst₁ := hfirst.perused hcursor
    have hrest₁ := hrest.perused hcursor
    have hlive₁ := hcursor.alive hlive
    generalize m.setBody a _ = m₁ at hb₁ hfirst₁ hrest₁ hlive₁ ⊢
    show (Bridge.ofRun (hold h) >>= fun item => Bridge.releasing [item] (convert item.handle) >>=
      fun j => ofEntries convert a fuel >>= fun js =>
        pure (((Bytes.ofText key).toText, j) :: js)).Peruses _ _ _
    rw [← bind_assoc, givenFields_cons]
    have hread := (hconvert _ List.mem_cons_self).holding hfirst₁ hown hlive₁
    refine hread.bind_of ?_ (fun i m₂ hi hp => ?_) fun e he => by rw [he]; rfl
    · exact fun k hk => List.mem_cons_of_mem a (List.mem_append_left outer hk)
    -- the cursor that has moved is at none of the places of the field
    have hb₂ := hb₁.congr (hp.cell_of_notMem haown)
    rw [List.append_cons] at hb₂ hkeys
    have hnext := ih _ (fun f hf => hconvert f (List.mem_cons_of_mem _ hf)) fuel hb₂ hkeys hrestkeys
      (hrest₁.perused hp) (List.nodup_cons.2 ⟨haouter, houter⟩) (hp.alive hlive₁) (by simpa using hf)
    rw [hi]
    refine hnext.bind_of ?_ (fun is m₃ his _ => ?_) fun e he => by rw [he]; rfl
    · exact List.cons_subset_cons _ (List.subset_append_right own outer)
    rw [his, Bytes.toText_ofText]
    exact .pure _

/-! ### Documents -/

theorem ofValueWithin_bare_scalar {depth : Nat} {r : Except Failure Json} (hb : m.Bare h (.scalar s))
    (hs : s.target = none) (hf : (ofScalar h).Peruses m places r) :
    (ofValueWithin (depth + 1) h).Peruses m places r := by
  refine Peruses.look_bind ?_
  rw [kind_of_scalar hb.body]
  refine Peruses.look_bind ?_
  rw [hb.target?, hs]
  exact hf

theorem ofValueWithin_bare_reference {depth : Nat} {r : Except Failure Json}
    (hb : m.Bare h (.scalar (.ofTarget a))) (ha : m.Bare a b) (hlive : m.isAlive m.here)
    (hf : (ofValueWithin depth a).Peruses (m.retain a) places r) :
    (ofValueWithin (depth + 1) h).Peruses m places r := by
  refine Peruses.look_bind ?_
  rw [kind_of_scalar hb.body]
  refine Peruses.look_bind ?_
  rw [hb.target?]
  exact .holding (run_ofRun (m.hold_apply a)) ha hlive hf

theorem ofValueWithin_bare_array {depth : Nat} (hb : m.Bare a (.array (ks.map some)))
    (hg : m.Grove ks (items.map Json.form) places) (hn : places.Nodup) (hlive : m.isAlive m.here)
    (hconvert : ∀ j ∈ items, Converts (ofValueWithin depth) j (given n j)) :
    (ofValueWithin (depth + 1) a).Peruses m places (given (n + 1) (.list items)) := by
  refine Peruses.look_bind ?_
  rw [kind_of_array hb.body]
  refine .holding (run_ofRun (m.hold_apply a)) hb hlive ?_
  have hb' := hb.retain a
  refine .after (run_ofRun (slots_apply hb'.body)) (.refl _) ?_
  have hall := ofElements_peruses [] hconvert ((ks.map some).length + 1) hb' (hg.retain a) hn
    (alive_retain a hlive) (by simp)
  rw [given_list]
  refine hall.bind_of (List.Subset.refl _) (fun is m₁ his _ => ?_) fun e he => by rw [he]; rfl
  rw [his]
  exact .pure _

theorem ofValueWithin_bare_hash {depth : Nat} {cursor : Option (List Bytes)}
    (hkeys : fields.Pairwise fun f g => Bytes.Before f.1 g.1)
    (hb : m.Bare a (.hash ⟨(fields.map fun f => Bytes.ofText f.1).zip ks, cursor⟩))
    (hlen : fields.length = ks.length) (hg : m.Grove ks (fields.map fun f => f.2.form) places)
    (hn : (a :: places).Nodup) (hlive : m.isAlive m.here)
    (hconvert : ∀ f ∈ fields, Converts (ofValueWithin depth) f.2 (given n f.2)) :
    (ofValueWithin (depth + 1) a).Peruses m (a :: places) (given (n + 1) (.object fields)) := by
  let entries := (fields.map fun f => Bytes.ofText f.1).zip ks
  have hfirst : entries.map (·.1) = fields.map fun f => Bytes.ofText f.1 :=
    List.map_fst_zip (by simp [hlen])
  have hsecond : entries.map (·.2) = ks := List.map_snd_zip (by simp [hlen])
  have hnodup : (entries.map (·.1)).Nodup := by
    rw [hfirst]
    exact List.pairwise_map.2 (hkeys.imp fun hbefore => hbefore.ne)
  rw [← hsecond] at hg
  refine Peruses.look_bind ?_
  rw [kind_of_hash hb.body]
  refine .holding (run_ofRun (m.hold_apply a)) hb hlive ?_
  have hb₁ := hb.retain a
  have hg₁ := hg.retain a
  have hlive₁ := alive_retain a hlive
  generalize m.retain a = m₁ at hb₁ hg₁ hlive₁ ⊢
  have hstart : hashStart a m₁ = .ok entries.length
      (m₁.setBody a (.hash ⟨entries, some (entries.map (·.1))⟩)) := by
    rw [hashStart, onTable, Run.look_bind, hb₁.body]
    rfl
  have hcursor : m₁.Perused (a :: places) _ :=
    hb₁.perused_setCursor List.mem_cons_self (some (entries.map (·.1)))
  refine .after (run_ofRun hstart) hcursor ?_
  have hall := ofEntries_peruses [] hconvert (entries.length + 1) (hb₁.setBody _) hnodup hfirst
    (hg₁.perused hcursor) hn (hcursor.alive hlive₁) (Nat.lt_succ_self _)
  rw [given_object hkeys]
  refine hall.bind_of (List.Subset.refl _) (fun is m₂ his _ => ?_) fun e he => by rw [he]; rfl
  rw [his]
  exact .pure _

theorem converts_scalar {depth : Nat} (hj : j.Fair) (hform : j.form = .scalar s)
    (hgiven : given n j = .ok j.numeric) : Converts (ofValueWithin (depth + 1)) j (given n j) := by
  intro m h places hg hn hlive
  rw [hform] at hg
  cases hg with
  | scalar hb hs hrest =>
    rw [hgiven]
    exact ofValueWithin_bare_scalar hb hs (.of_run (ofScalar_given hj hform hb hlive))

/-- The reading of a document takes two levels of depth for each level of containers, and one for the
scalar at the bottom. -/
theorem converts (hj : j.Fair) (n : Nat) : Converts (ofValueWithin (2 * n + 1)) j (given n j) := by
  induction hj generalizing n with
  | @list items hitems ih =>
    intro m h places hg hn hlive
    rw [Json.form, Json.formItems_eq] at hg
    cases hg with
    | @array _ a ks _ _ _ inner outer hb ha hinner hrest =>
    cases hrest
    rw [List.append_nil] at hn ⊢
    obtain ⟨hh, hn⟩ := List.nodup_cons.1 hn
    have hlive₁ := alive_retain a hlive
    refine ofValueWithin_bare_reference hb ha hlive ?_
    cases n with
    | zero => exact .fail tooDeep
    | succ n =>
      have hall := ofValueWithin_bare_array (ha.retain a) (hinner.retain a) (List.nodup_cons.1 hn).2
        hlive₁ fun j hj => ih j hj n
      exact hall.mono fun k hk => by simp [hk]
  | @object fields hkeys hfields ih =>
    intro m h places hg hn hlive
    rw [Json.form, Json.formFields_eq] at hg
    cases hg with
    | @table _ a _ ks _ _ _ inner outer cursor hb ha hlen hinner hrest =>
    cases hrest
    rw [List.append_nil] at hn ⊢
    obtain ⟨hh, hn⟩ := List.nodup_cons.1 hn
    have hlive₁ := alive_retain a hlive
    refine ofValueWithin_bare_reference hb ha hlive ?_
    cases n with
    | zero => exact .fail tooDeep
    | succ n =>
      have hall := ofValueWithin_bare_hash hkeys (ha.retain a) (by simpa using hlen)
        (hinner.retain a) hn hlive₁ fun f hf => ih f hf n
      exact hall.mono fun k hk => List.mem_cons_of_mem h hk
  | null => exact converts_scalar .null rfl (by cases n <;> rfl)
  | bool => exact converts_scalar .bool rfl (by cases n <;> rfl)
  | int hi => exact converts_scalar (.int hi) rfl (by cases n <;> rfl)
  | float hx => exact converts_scalar (.float hx) rfl (by cases n <;> rfl)
  | text => exact converts_scalar .text rfl (by cases n <;> rfl)

end Document

/-- A document of at most 256 levels of containers comes back with numbers for its truth values, and a
deeper one is refused. Once the scalar that has carried it is given up, every value of the machine is
as it was. -/
theorem Json.Fair.carried (hj : j.Fair) (hlive : m.isAlive m.here) : ∃ v m₁ m₂,
    Document.toHeld j m = .ok v m₁ ∧ (Document.ofValue v.handle).run m₁
      = .ok (if j.isWithin 256 then .ok j.numeric else .error Document.tooDeep) m₂ ∧
    m.Regained (m₂.drop v) ∧ (m₂.drop v).interp.live = m.interp.live := by
  obtain ⟨h, m₁, hmake, hplanted⟩ := Document.plants hj hlive
  have htree := hplanted
  obtain ⟨places, hsprouts, hg⟩ := htree
  obtain ⟨m₂, hread, hp⟩ := Document.converts hj 256 hg hsprouts.nodup (hplanted.alive hlive)
  have hleft : m.Planted m₂ h j.form :=
    ⟨places, hsprouts.perused hp (List.Subset.refl _), hg.perused hp⟩
  have hback := hleft.drop hlive
  exact ⟨⟨h, m.here⟩, m₁, m₂, hmake, hread, hback, hback.live⟩

/-- Lists in lists, one more than the number says. -/
def Json.nested : Nat → Json
  | 0 => .list []
  | n + 1 => .list [nested n]

theorem Json.fair_nested (n : Nat) : (nested n).Fair := by
  induction n with
  | zero => exact .list (by simp)
  | succ n ih => exact .list (by simpa using ih)

/-- A document with a truth value and an integer that only an unsigned one is. -/
def Json.switches : Json :=
  .object [("id", .int 18446744073709551615), ("on", .list [.bool true, .bool false, .null])]

theorem Json.switches_fair : switches.Fair := by
  refine .object (by decide +kernel) ?_
  simp only [List.forall_mem_cons, List.not_mem_nil, false_implies, implies_true, and_true]
  refine ⟨.int ⟨by decide, by decide⟩, .list ?_⟩
  simp only [List.forall_mem_cons, List.not_mem_nil, false_implies, implies_true, and_true]
  exact ⟨.bool, .bool, .null⟩

/-- One document comes back, and another has one level too many. -/
theorem Json.carried_switches_nested : switches.Fair ∧ (nested 256).Fair ∧ ∃ e m,
    (Embedded.start ⟨fun _ => none, fun _ => none⟩ .first .standard).run .empty = .ok (.ok e) m ∧
      m.isAlive m.here = true ∧
      (∃ v m₁ m₂, Document.toHeld switches m = .ok v m₁ ∧ (Document.ofValue v.handle).run m₁
        = .ok (.ok (.object [("id", .int 18446744073709551615),
            ("on", .list [.int 1, .int 0, .null])])) m₂ ∧
        (m₂.drop v).interp.live = m.interp.live) ∧
      ∃ v m₁ m₂, Document.toHeld (nested 256) m = .ok v m₁ ∧
        (Document.ofValue v.handle).run m₁ = .ok (.error Document.tooDeep) m₂ ∧
        (m₂.drop v).interp.live = m.interp.live := by
  obtain ⟨e, m, hstart, hlive⟩ := Embedded.start_isAlive
  obtain ⟨v, m₁, m₂, hmake, hread, -, hback⟩ := switches_fair.carried hlive
  obtain ⟨v', m₁', m₂', hmake', hread', -, hback'⟩ := (fair_nested 256).carried hlive
  have hdeep : (nested 256).isWithin 256 = false := by decide +kernel
  rw [hdeep] at hread'
  exact ⟨switches_fair, fair_nested 256, e, m, hstart, hlive, ⟨v, m₁, m₂, hmake, hread, hback⟩,
    v', m₁', m₂', hmake', hread', hback'⟩

end ValueMachine

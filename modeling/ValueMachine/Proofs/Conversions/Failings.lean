import ValueMachine.Proofs.Custody.Parameters

/-! Conversions that fail. A container fails with the first element that does not convert. The elements
on the way to it are a path, and the failure tells the position in the innermost vector on the path. -/

namespace ValueMachine

open Machine

/-! ### Failures of operations -/

namespace Failure

/-- The position of an argument that a failure tells. -/
def position? : Failure → Option Nat
  | noArgument p => some p
  | argument i _ => some i
  | _ => none

/-- A position is told once. -/
theorem position?_atArgument (f : Failure) (i : Nat) :
    (f.atArgument i).position? = some (f.position?.getD i) := by
  cases f <;> rfl

/-- The failure of a value at the end of a path of positions. -/
def along (path : List Nat) (f : Failure) : Failure := path.foldr atArgument f

/-- Of a path the last position is told. -/
theorem position?_along {f : Failure} (hf : f.position? = none) (path : List Nat) :
    (f.along path).position? = path.getLast? := by
  induction path with
  | nil => exact hf
  | cons i path ih =>
    have hcons : (f.along (i :: path)).position? = some (path.getLast?.getD i) := by
      rw [← ih]
      exact position?_atArgument _ i
    rw [hcons, List.getLast?_cons]

end Failure

namespace Bridge

variable {α β : Type} {x : Bridge α} {y : Bridge β} {f : α → Bridge β} {r : Except Failure β}
  {e : Failure} {m m' : Machine} {vs : List Held}

/-- Of two steps that fail one after the other, the first one fails, or it returns and the second one
does. -/
theorem bind_failed (h : (x >>= f).run m = .ok (.error e) m') :
    x.run m = .ok (.error e) m' ∨
      ∃ a m₁, x.run m = .ok (.ok a) m₁ ∧ (f a).run m₁ = .ok (.error e) m' := by
  rw [bind_apply] at h
  rcases hx : x.run m with (a | a) | a
  · rw [hx] at h
    cases h
    exact .inl rfl
  · rw [hx] at h
    exact .inr ⟨a, _, rfl, h⟩
  · rw [hx] at h
    cases h

theorem ofRun_not_failed {x : Run α} : (Bridge.ofRun x).run m ≠ .ok (.error e) m' := by
  rw [ofRun_apply]
  cases x m <;> exact nofun

/-- Where two steps return, the first one fails or the second one goes on with its value. -/
theorem bind_returned (h : (x >>= f).run m = .ok r m') :
    (∃ e, x.run m = .ok (.error e) m' ∧ r = .error e) ∨
      ∃ a m₁, x.run m = .ok (.ok a) m₁ ∧ (f a).run m₁ = .ok r m' := by
  cases r with
  | ok b => exact .inr (bind_ok h)
  | error e => exact (bind_failed h).imp_left fun hx => ⟨e, hx, rfl⟩

/-- An operation of the machine before another one does not fail. -/
theorem ofRun_bind_returned {x : Run α} (h : (Bridge.ofRun x >>= f).run m = .ok r m') :
    ∃ a m₁, x m = .ok a m₁ ∧ (f a).run m₁ = .ok r m' := by
  rcases bind_returned h with ⟨e, hx, -⟩ | ⟨a, m₁, hx, hf⟩
  · exact absurd hx ofRun_not_failed
  · exact ⟨a, m₁, ofRun_ok hx, hf⟩

theorem isOk_map (g : α → β) (r : Except Failure α) : (r.map g).isOk = r.isOk := by
  cases r <;> rfl

/-- A last step that makes something of a value does not fail. -/
theorem bind_pure_returned {g : α → β} (h : (x >>= fun a => Pure.pure (g a)).run m = .ok r m') :
    ∃ r', x.run m = .ok r' m' ∧ r = r'.map g := by
  rcases bind_returned h with ⟨e, hx, rfl⟩ | ⟨a, m₁, hx, hpure⟩
  · exact ⟨.error e, hx, rfl⟩
  · cases hpure
    exact ⟨.ok a, hx, rfl⟩

theorem atArgument_failed {i : Nat} (h : (Bridge.atArgument i x).run m = .ok (.error e) m') :
    ∃ g, x.run m = .ok (.error g) m' ∧ e = g.atArgument i := by
  rw [Bridge.atArgument, ExceptT.run_mk, Run.bind_apply] at h
  rcases hx : x.run m with (g | a) | e'
  all_goals rw [hx] at h; cases h
  exact ⟨g, rfl, rfl⟩

theorem releasing_returned (h : (Bridge.releasing vs y).run m = .ok r m') :
    ∃ m₁, y.run m = .ok r m₁ ∧ m' = m₁.dropAll vs := by
  change y.run.always (·.dropAll vs) m = _ at h
  rw [Run.always_apply] at h
  cases hy : y.run m
  all_goals rw [hy] at h; cases h
  exact ⟨_, rfl, rfl⟩

theorem guarding_failed (h : (Bridge.guarding vs x).run m = .ok (.error e) m') :
    ∃ m₁, x.run m = .ok (.error e) m₁ ∧ m' = m₁.dropAll vs := by
  rw [Bridge.guarding, ExceptT.run_mk, Run.bind_apply, Run.otherwise_apply] at h
  rcases hx : x.run m with (g | a) | e'
  all_goals rw [hx] at h; cases h
  exact ⟨_, rfl, rfl⟩

/-- The failures of an operation tell no position. -/
def Unplaced (x : Bridge α) : Prop := ∀ m e m', x.run m = .ok (.error e) m' → e.position? = none

namespace Unplaced

theorem ofRun (x : Run α) : Unplaced (Bridge.ofRun x) := fun _ _ _ h => absurd h ofRun_not_failed

theorem get : Unplaced (MonadState.get : Bridge Machine) := ofRun MonadState.get

theorem pure (a : α) : Unplaced (Pure.pure a : Bridge α) := fun _ _ _ h => nomatch h

theorem bind (hx : Unplaced x) (hf : ∀ a, Unplaced (f a)) : Unplaced (x >>= f) := fun m e m' h => by
  rcases bind_failed h with hx' | ⟨a, m₁, -, hf'⟩
  · exact hx m e m' hx'
  · exact hf a m₁ e m' hf'

theorem ite {c : Prop} [Decidable c] {y : Bridge α} (hx : Unplaced x) (hy : Unplaced y) :
    Unplaced (if c then x else y) := by
  split
  · exact hx
  · exact hy

theorem fail (he : e.position? = none) : Unplaced (Bridge.fail e : Bridge α) := fun _ _ _ h => by
  cases h
  exact he

theorem about (h : Handle) {g : Held → Failure} (hg : ∀ v, (g v).position? = none) :
    Unplaced (Failure.about h g : Bridge α) :=
  (ofRun (hold h)).bind fun v => fail (hg v)

end Unplaced

end Bridge

/-! ### Readings of single values -/

section

open Bridge

variable {α : Type} (h : Handle)

theorem Strict.number_unplaced (want : String) : (Strict.number h want).Unplaced := by
  refine (Unplaced.ofRun (isDefined h)).bind fun b => ?_
  cases b
  case' false => refine (Unplaced.about h fun _ => rfl).bind fun _ => ?_
  -- whether or not it is defined, it is read as the number it holds or its text is
  all_goals
    refine Unplaced.get.bind fun m => .ite (.about h fun _ => rfl)
      (.ite (.ofRun (Machine.number h)) (.ite ?_ (.about h fun _ => rfl)))
    refine (Unplaced.ofRun (Machine.text h)).bind fun t => ?_
    cases Number.ofBytes? t.bytes with
    | some n => exact .pure n
    | none => exact .about h fun _ => rfl

theorem Strict.signed_unplaced : (Strict.signed h).Unplaced := by
  refine (Strict.number_unplaced h _).bind fun n => ?_
  cases n.toSigned? with
  | some n => exact .pure n
  | none => exact .about h fun _ => rfl

theorem Strict.unsigned_unplaced : (Strict.unsigned h).Unplaced := by
  refine (Strict.number_unplaced h _).bind fun n => ?_
  cases n.toUnsigned? with
  | some n => exact .pure n
  | none => exact .about h fun _ => rfl

theorem Strict.integer_unplaced (t : IntType) : (Strict.integer t h).Unplaced := by
  have hcheck (n : Int) : Unplaced (if t.contains n then return n
      else Failure.about h (.notNumber · t.name) : Bridge Int) :=
    .ite (.pure n) (.about h fun _ => rfl)
  unfold Strict.integer
  by_cases ht : t.isSigned = true
  · simp only [ht, if_true]
    exact (Strict.signed_unplaced h).bind hcheck
  · simp only [ht]
    exact (Strict.unsigned_unplaced h).bind hcheck

theorem Strict.string_unplaced : (Strict.string h).Unplaced := by
  refine Unplaced.bind ?_ fun _ => .pure _
  refine (Unplaced.ofRun (isDefined h)).bind fun b => ?_
  cases b
  case' false => refine (Unplaced.about h fun _ => rfl).bind fun _ => ?_
  all_goals
    exact Unplaced.get.bind fun m => .ite (.about h fun _ => rfl) (.ofRun (Machine.text h))

theorem Reading.container_unplaced (kind : Kind) : (Reading.container kind h).Unplaced :=
  Unplaced.get.bind fun _ => .ite (.ofRun (hold _)) (.about h fun _ => rfl)

theorem Reading.object_unplaced (mode : Mode) : (Reading.object mode h).Unplaced := by
  refine Unplaced.bind ?_ fun v => ?_
  · exact (Unplaced.ofRun _).bind fun _ => .ite (.ofRun _) (.about h fun _ => rfl)
  · exact (Unplaced.ofRun _).bind fun _ => .ite (.pure v) (.fail rfl)

end

namespace HostType

/-- A type that is not read by way of another one. -/
def Single : HostType → Prop
  | option _ | vec _ | map _ => False
  | _ => True

/-- What reads a single value tells no position. -/
theorem read_unplaced {t : HostType} (ht : t.Single) (mode : Mode) (h : Handle) :
    (t.read mode h).Unplaced := by
  cases t with
  | bool => exact .ofRun _
  | int t => exact Strict.integer_unplaced h t
  | float => exact (Strict.number_unplaced h _).bind fun _ => .pure _
  | single => exact ((Strict.number_unplaced h _).bind fun _ => .pure _).bind fun _ => .pure _
  | string => exact Strict.string_unplaced h
  | option t | vec t | map t => exact ht.elim
  | value => exact .ofRun _
  | scalar => exact (Bridge.Unplaced.ofRun _).bind fun _ => .ite (.ofRun _) (.about h fun _ => rfl)
  | array | hash | sub => exact Reading.container_unplaced h _
  | object => exact Reading.object_unplaced h mode
  | any => exact (Bridge.Unplaced.ofRun _).bind fun v => .ofRun _
  | named c =>
    exact (Reading.object_unplaced h mode).bind fun v =>
      (Bridge.Unplaced.ofRun _).bind fun fits => .ite (.pure v) (.fail rfl)
  | bridged c =>
    refine Bridge.Unplaced.get.bind fun m => .ite (.about h fun _ => rfl) ?_
    cases m.bridgedInstance? h with
    | none => exact .about h fun _ => rfl
    | some i => exact .ite (.pure i) (.about h fun _ => rfl)

end HostType

/-! ### Readings of containers -/

/-- The turns of a loop before one of them have returned, and it starts in a state. -/
inductive Reaches {γ : Type} (returns : γ → Machine → Machine → Prop) :
    List γ → Machine → Nat → γ → Machine → Prop
  | here {c : γ} {cs : List γ} {m : Machine} : Reaches returns (c :: cs) m 0 c m
  | later {c c' : γ} {cs : List γ} {m m₁ m₂ : Machine} {j : Nat} : returns c m m₁ →
      Reaches returns cs m₁ j c' m₂ → Reaches returns (c :: cs) m (j + 1) c' m₂

theorem Reaches.getElem? {γ : Type} {returns : γ → Machine → Machine → Prop} {cs : List γ} {c : γ}
    {m m' : Machine} {j : Nat} (h : Reaches returns cs m j c m') : cs[j]? = some c := by
  induction h with
  | here => rfl
  | later _ _ ih => exact ih

namespace Reading

variable {α : Type} {read : Handle → Bridge α} {heldBy : α → List Held}

/-- The reading of a slot. -/
def slot (read : Handle → Bridge α) : Option Handle → Bridge α
  | some h => read h
  | none => hole read

/-- The first slot that cannot be read makes the reading of all fail, and tells its index. -/
theorem slots_failed {i : Nat} {xs : Slots} {m m' : Machine} {e : Failure}
    (hr : (slots read heldBy i xs).run m = .ok (.error e) m') :
    ∃ j o m₁ g m₂, Reaches (fun o m m' => ∃ a, (slot read o).run m = .ok (.ok a) m') xs m j o m₁ ∧
      (slot read o).run m₁ = .ok (.error g) m₂ ∧ e = g.atArgument (i + j) := by
  induction xs generalizing i m m' with
  | nil => cases hr
  | cons o rest ih =>
    have hslots : slots read heldBy i (o :: rest) = (do
        let a ← Bridge.atArgument i (slot read o)
        let as ← Bridge.guarding (heldBy a) (slots read heldBy (i + 1) rest)
        return a :: as) := by
      cases o <;> rfl
    rw [hslots] at hr
    rcases Bridge.bind_failed hr with hr | ⟨a, m₁, ha, hr⟩
    · obtain ⟨g, hg, rfl⟩ := Bridge.atArgument_failed hr
      exact ⟨0, o, m, g, m', .here, hg, rfl⟩
    · rcases Bridge.bind_failed hr with hr | ⟨as, m₂, -, hr⟩
      · obtain ⟨m₂, hrest, -⟩ := Bridge.guarding_failed hr
        obtain ⟨j, o', m₃, g, m₄, hreaches, hg, rfl⟩ := ih hrest
        exact ⟨j + 1, o', m₃, g, m₄, .later ⟨a, Bridge.atArgument_ok ha⟩ hreaches, hg,
          by rw [Nat.add_assoc, Nat.add_comm 1]⟩
      · cases hr

/-- The first entry that cannot be read makes the reading of all fail. -/
theorem entries_failed {es : List (Bytes × Handle)} {m m' : Machine} {e : Failure}
    (hr : (entries read heldBy es).run m = .ok (.error e) m') :
    ∃ j p m₁ m₂, Reaches (fun p m m' => ∃ a, (read p.2).run m = .ok (.ok a) m') es m j p m₁ ∧
      (read p.2).run m₁ = .ok (.error e) m₂ := by
  induction es generalizing m m' with
  | nil => cases hr
  | cons p rest ih =>
    rw [entries] at hr
    rcases Bridge.bind_failed hr with hr | ⟨a, m₁, ha, hr⟩
    · exact ⟨0, p, m, m', .here, hr⟩
    · rcases Bridge.bind_failed hr with hr | ⟨ps, m₂, -, hr⟩
      · obtain ⟨m₂, hrest, -⟩ := Bridge.guarding_failed hr
        obtain ⟨j, q, m₃, m₄, hreaches, hq⟩ := ih hrest
        exact ⟨j + 1, q, m₃, m₄, .later ⟨a, ha⟩ hreaches, hq⟩
      · cases hr

end Reading

namespace HostType

/-- The reading of a value as a type fails with what lies at the end of a path: the positions of
elements in vectors, from the outside in. All that is read before it returns. A map fails with the value
of one of its entries, and an element that is missing is read as a new undefined value. -/
inductive Fails : HostType → Mode → Handle → Machine → List Nat → Failure → Prop
  | single {t : HostType} {mode : Mode} {h : Handle} {m m' : Machine} {f : Failure} : t.Single →
      (t.read mode h).run m = .ok (.error f) m' → Fails t mode h m [] f
  | option {t : HostType} {mode : Mode} {h : Handle} {m m₁ : Machine} {path : List Nat} {f : Failure} :
      isDefined h m = .ok true m₁ → Fails t mode h m₁ path f → Fails (.option t) mode h m path f
  | noArray {t : HostType} {mode : Mode} {h : Handle} {m m' : Machine} {f : Failure} :
      (Reading.container .array h).run m = .ok (.error f) m' → Fails (.vec t) mode h m [] f
  | element {t : HostType} {mode : Mode} {h k : Handle} {m m₁ m₂ : Machine} {array : Held} {xs : Slots}
      {j : Nat} {path : List Nat} {f : Failure} :
      (Reading.container .array h).run m = .ok (.ok array) m₁ → m₁.body array.handle = .array xs →
      Reaches (fun o m m' => ∃ a, (Reading.slot (t.read .share) o).run m = .ok (.ok a) m')
        xs m₁ j (some k) m₂ →
      Fails t .share k m₂ path f → Fails (.vec t) mode h m (j :: path) f
  | hole {t : HostType} {mode : Mode} {h : Handle} {m m₁ m₂ m₃ : Machine} {array v : Held} {xs : Slots}
      {j : Nat} {path : List Nat} {f : Failure} :
      (Reading.container .array h).run m = .ok (.ok array) m₁ → m₁.body array.handle = .array xs →
      Reaches (fun o m m' => ∃ a, (Reading.slot (t.read .share) o).run m = .ok (.ok a) m')
        xs m₁ j none m₂ →
      holdNew .undefined m₂ = .ok v m₃ → Fails t .share v.handle m₃ path f →
      Fails (.vec t) mode h m (j :: path) f
  | noHash {t : HostType} {mode : Mode} {h : Handle} {m m' : Machine} {f : Failure} :
      (Reading.container .hash h).run m = .ok (.error f) m' → Fails (.map t) mode h m [] f
  | value {t : HostType} {mode : Mode} {h : Handle} {m m₁ m₂ : Machine} {hash : Held} {u : Table}
      {j : Nat} {e : Bytes × Handle} {path : List Nat} {f : Failure} :
      (Reading.container .hash h).run m = .ok (.ok hash) m₁ → m₁.body hash.handle = .hash u →
      Reaches (fun e m m' => ∃ a, (t.read .share e.2).run m = .ok (.ok a) m') u.entries m₁ j e m₂ →
      Fails t .share e.2 m₂ path f → Fails (.map t) mode h m path f

/-- A type that is read without vectors. -/
def Unindexed : HostType → Prop
  | vec _ => False
  | option t | map t => t.Unindexed
  | _ => True

theorem Fails.path_eq_nil {t : HostType} {mode : Mode} {h : Handle} {m : Machine} {path : List Nat}
    {f : Failure} (hf : t.Fails mode h m path f) (ht : t.Unindexed) : path = [] := by
  induction hf with
  | single | noHash => rfl
  | option _ _ ih => exact ih ht
  | value _ _ _ _ ih => exact ih ht
  | noArray => exact ht.elim
  | element => exact ht.elim
  | hole => exact ht.elim

/-- A reading that fails does so with what lies at the end of a path, and tells the last position. -/
theorem read_failed {t : HostType} {mode : Mode} {h : Handle} {m m' : Machine} {e : Failure}
    (hr : (t.read mode h).run m = .ok (.error e) m') :
    ∃ path f, t.Fails mode h m path f ∧ f.position? = none ∧ e = f.along path := by
  induction t generalizing mode h m m' e with
  | option t ih =>
    obtain ⟨defined, m₁, hdefined, hrest⟩ := Bridge.ofRun_bind_returned hr
    cases defined with
    | true =>
      rcases Bridge.bind_failed hrest with hread | ⟨v, m₂, -, hsome⟩
      · obtain ⟨path, f, hf, hnone, rfl⟩ := ih hread
        exact ⟨path, f, .option hdefined hf, hnone, rfl⟩
      · cases hsome
    | false => cases hrest
  | vec t ih =>
    rcases Bridge.bind_failed hr with hcontainer | ⟨array, m₁, harray, hrest⟩
    · exact ⟨[], e, .noArray hcontainer, Reading.container_unplaced h _ _ _ _ hcontainer, rfl⟩
    obtain ⟨m₂, hvector, -⟩ := Bridge.releasing_returned hrest
    obtain ⟨xs, m₃, hslots, hread⟩ := Bridge.ofRun_bind_returned hvector
    obtain ⟨hxs, rfl⟩ := slots_ok hslots
    obtain ⟨j, o, m₄, g, m₅, hreaches, hg, rfl⟩ := Reading.slots_failed hread
    rw [Nat.zero_add]
    cases o with
    | some k =>
      obtain ⟨path, f, hf, hnone, rfl⟩ := ih hg
      exact ⟨j :: path, f, .element harray hxs hreaches hf, hnone, rfl⟩
    | none =>
      obtain ⟨v, m₆, hv, hheld⟩ := Bridge.ofRun_bind_returned hg
      obtain ⟨m₇, hhole, -⟩ := Bridge.releasing_returned hheld
      obtain ⟨path, f, hf, hnone, rfl⟩ := ih hhole
      exact ⟨j :: path, f, .hole harray hxs hreaches hv hf, hnone, rfl⟩
  | map t ih =>
    rcases Bridge.bind_failed hr with hcontainer | ⟨hash, m₁, hhash, hrest⟩
    · exact ⟨[], e, .noHash hcontainer, Reading.container_unplaced h _ _ _ _ hcontainer, rfl⟩
    obtain ⟨m₂, hmap, -⟩ := Bridge.releasing_returned hrest
    obtain ⟨es, m₃, hentries, hread⟩ := Bridge.ofRun_bind_returned hmap
    obtain ⟨u, m₄, htable, hreturn⟩ := Run.bind_ok hentries
    obtain ⟨hu, rfl⟩ := table_ok htable
    cases hreturn
    rcases Bridge.bind_failed hread with hall | ⟨ps, m₅, -, hmapOf⟩
    · obtain ⟨j, p, m₆, m₇, hreaches, hp⟩ := Reading.entries_failed hall
      obtain ⟨path, f, hf, hnone, rfl⟩ := ih hp
      exact ⟨path, f, .value hhash hu hreaches hf, hnone, rfl⟩
    · exact absurd hmapOf Bridge.ofRun_not_failed
  | _ => exact ⟨[], e, .single (by trivial) hr, read_unplaced (by trivial) _ _ _ _ _ hr, rfl⟩

end HostType

end ValueMachine

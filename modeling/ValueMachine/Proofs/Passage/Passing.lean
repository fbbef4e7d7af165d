import ValueMachine.Proofs.Documents.Making
import ValueMachine.Proofs.Passage.HostTypes
import ValueMachine.Proofs.Passage.Readings

/-! The passage of host values. A value of a passable type becomes a new tree; the tree is read as
the same value without a trace, and is gone once its root is given up. -/

namespace ValueMachine

open Machine Bridge

variable {m m₁ m₂ m' : Machine} {h k a : Handle} {b : Body} {s : Scalar}
  {hs ks places : List Handle} {f : Form} {fs gs : List Form}

/-! ### Planting -/

namespace Machine

/-- A container is filled before anything refers to it. -/
theorem filled_apply (fill : Handle → Run Unit) (hfill : fill m.heap.next (m.alloc b).2 = .ok () m₁) :
    (do
      let a ← modifyGet (·.alloc b)
      (fill a).otherwise (·.release a)
      newScalar (.ofTarget a) : Run Handle) m
      = .ok m₁.heap.next (m₁.alloc (.scalar (.ofTarget m.heap.next))).2 := by
  have hkept : (fill m.heap.next).otherwise (·.release m.heap.next) (m.alloc b).2 = .ok () m₁ := by
    rw [Run.otherwise_apply, hfill]
  rw [Run.modifyGet_bind]
  exact Run.bind_of_ok hkept

end Machine

namespace Datum

variable {d : Datum} {ds : List Datum} {pairs : List (String × Datum)} {keys : List Bytes}

/-- A host value becomes a new tree of a form. -/
def Plants (d : Datum) (f : Form) : Prop :=
  ∀ m, ∃ k m', d.toValue m = .ok k m' ∧ m.Planted m' k f

theorem plants_of_scalar (hd : d.toValue = newScalar s) (hs : s.target = none) :
    d.Plants (.scalar s) := fun m => by
  rw [hd]
  exact ⟨_, _, rfl, .alloc m hs⟩

theorem pushItems_plants (hds : List.Forall₂ Plants ds gs)
    (hm : m.Bed m₁ a (.array (ks.map some)) ks fs) : ∃ js m₂, pushItems a ds m₁ = .ok () m₂ ∧
      m.Bed m₂ a (.array ((ks ++ js).map some)) (ks ++ js) (fs ++ gs) := by
  induction hds generalizing m₁ ks fs with
  | nil => exact ⟨[], m₁, rfl, by simpa using hm⟩
  | cons hd _ ih =>
    obtain ⟨k, m₂, hrun, hk⟩ := hd m₁
    have hpush := arrayPush_apply (hm.body_planted hk) k
    have hbed := hm.plant hk (.array ((ks ++ [k]).map some))
    obtain ⟨js, m₃, hrest, hdone⟩ := ih hbed
    refine ⟨k :: js, m₃, ?_, by simpa using hdone⟩
    rw [pushItems, Run.bind_of_ok hrun, Run.bind_of_ok hpush]
    simpa using hrest

theorem plants_list (hds : List.Forall₂ Plants ds gs) : (list ds).Plants (.array gs) := fun m => by
  have hbed : m.Bed (m.alloc (.array [])).2 m.heap.next (.array (([] : List Handle).map some)) [] [] :=
    .alloc m _
  obtain ⟨js, m₁, hrun, hdone⟩ := pushItems_plants hds hbed
  exact ⟨_, _, filled_apply (pushItems · ds) hrun, hdone.array⟩

theorem putPairs_plants (hpairs : List.Forall₂ (fun p => Plants p.2) pairs gs)
    (hn : (keys ++ pairs.map fun p => Bytes.ofText p.1).Nodup) (hlen : keys.length = ks.length)
    (hm : m.Bed m₁ a (.hash ⟨keys.zip ks, none⟩) ks fs) : ∃ js m₂, putPairs a pairs m₁ = .ok () m₂ ∧
      pairs.length = js.length ∧ m.Bed m₂ a (.hash ⟨(keys ++ pairs.map fun p => Bytes.ofText p.1).zip
        (ks ++ js), none⟩) (ks ++ js) (fs ++ gs) := by
  induction hpairs generalizing m₁ keys ks fs with
  | nil => exact ⟨[], m₁, rfl, rfl, by simpa using hm⟩
  | @cons p _ pairs _ hp _ ih =>
    obtain ⟨key, d⟩ := p
    obtain ⟨k, m₂, hrun, hk⟩ := hp m₁
    rw [List.map_cons] at hn
    have hkey : Bytes.ofText key ∉ (keys.zip ks).map (·.1) := by
      intro hmem
      rw [List.map_fst_zip hlen.le] at hmem
      exact (List.nodup_append.1 hn).2.2 _ hmem _ List.mem_cons_self rfl
    have hput := hashPut_apply (hm.body_planted hk) hkey k
    have hentries : keys.zip ks ++ [(Bytes.ofText key, k)]
        = (keys ++ [Bytes.ofText key]).zip (ks ++ [k]) := by
      rw [List.zip_append hlen]
      rfl
    rw [hentries] at hput
    have hn' : ((keys ++ [Bytes.ofText key]) ++ pairs.map fun p => Bytes.ofText p.1).Nodup := by
      simpa using hn
    obtain ⟨js, m₃, hrest, hjs, hdone⟩ := ih hn' (by simpa using hlen) (hm.plant hk _)
    refine ⟨k :: js, m₃, ?_, by simpa using hjs, by simpa using hdone⟩
    rw [putPairs, Run.bind_of_ok hrun, Run.bind_of_ok hput]
    exact hrest

theorem plants_map (hpairs : List.Forall₂ (fun p => Plants p.2) pairs gs)
    (hn : (pairs.map (·.1)).Nodup) :
    (map pairs).Plants (.table (pairs.map fun p => Bytes.ofText p.1) gs) := fun m => by
  have hkeys : (([] : List Bytes) ++ pairs.map fun p => Bytes.ofText p.1).Nodup := by
    have hmap := hn.map fun _ _ => Bytes.ofText_injective
    rwa [List.map_map] at hmap
  have hbed : m.Bed (m.alloc (.hash .empty)).2 m.heap.next
      (.hash ⟨([] : List Bytes).zip ([] : List Handle), none⟩) [] [] := .alloc m _
  obtain ⟨js, m₁, hrun, hjs, hdone⟩ := putPairs_plants hpairs hkeys rfl hbed
  exact ⟨_, _, filled_apply (putPairs · pairs) hrun, hdone.table (by simpa using hjs)⟩

end Datum

/-- A value of a passable type becomes a tree of its form. -/
theorem HostType.Passable.plants {t : HostType} (ht : t.Passable) {v : t.Value} (hv : t.Proper v) :
    (Stock.echoed t v).Plants (t.form v) := by
  induction ht with
  | bool => exact Datum.plants_of_scalar rfl (by cases v <;> rfl)
  | int t =>
    rw [Stock.echoed, Datum.ofInteger, form]
    split <;> exact Datum.plants_of_scalar rfl rfl
  | float => exact Datum.plants_of_scalar rfl rfl
  | string => exact Datum.plants_of_scalar rfl rfl
  | option _ _ ih =>
    cases v with
    | none => exact Datum.plants_of_scalar rfl rfl
    | some v => exact ih (hv v rfl)
  | vec _ ih =>
    refine Datum.plants_list ?_
    rw [List.forall₂_map_left_iff, List.forall₂_map_right_iff]
    exact List.forall₂_same.2 fun v hm => ih (hv v hm)
  | @map t _ ih =>
    obtain ⟨hn, hvalues⟩ := hv
    let pairs : List (String × Datum) := List.map (fun p => (p.1, Stock.echoed t p.2)) v
    have hplants : (Datum.map pairs).Plants (.table (pairs.map fun p => Bytes.ofText p.1)
        (List.map (fun p => t.form p.2) v)) := by
      refine Datum.plants_map ?_ ?_
      · rw [List.forall₂_map_left_iff, List.forall₂_map_right_iff]
        exact List.forall₂_same.2 fun p hm => ih (hvalues p hm)
      · rwa [List.map_map]
    rw [List.map_map] at hplants
    exact hplants

/-! ### Readings -/

/-- Every tree of a form is read as a value, or with a failure, and without a trace. -/
def Form.ReadsAs {α : Type} (f : Form) (read : Handle → Bridge α)
    (r : Except Failure α) : Prop :=
  ∀ ⦃m : Machine⦄ ⦃h : Handle⦄ ⦃places : List Handle⦄, m.Grove [h] [f] places →
    m.isAlive m.here → (read h).Peruses m [] r

namespace Reading

variable {α : Type} {read : Handle → Bridge α} {heldBy : α → List Held} {as : List α}
  {pairs : List (String × α)}

theorem container_apply {kind : Kind} (hb : m.Bare h (.scalar (.ofTarget a)))
    (hkind : m.kind a = kind) :
    (container kind h).run m = .ok (.ok ⟨a, m.here⟩) (m.retain a) := by
  have hinner : (m.target? h).getD h = a := by rw [hb.target?]; rfl
  show (if m.kind ((m.target? h).getD h) = kind then (Bridge.ofRun (hold _)) else _ : Bridge Held).run m = _
  rw [hinner, if_pos hkind]
  exact run_ofRun (m.hold_apply a)

theorem slots_peruses (hreads : List.Forall₂ (fun f a => f.ReadsAs read (.ok a)) fs as)
    (hheld : ∀ a ∈ as, heldBy a = []) (hg : m.Grove ks fs places) (hlive : m.isAlive m.here)
    (i : Nat) : (slots read heldBy i (ks.map some)).Peruses m [] (.ok as) := by
  induction hreads generalizing m ks places i with
  | nil =>
    cases hg
    exact .pure []
  | cons hread _ ih =>
    cases ks with
    | nil => cases hg
    | cons k ks =>
      obtain ⟨own, outer, -, hfirst, hrest⟩ := hg.split
      refine ((hread hfirst hlive).atArgument i).bind fun m₁ hp => ?_
      rw [hheld _ List.mem_cons_self]
      have hnext := ih (fun a ha => hheld a (List.mem_cons_of_mem _ ha)) (hrest.perused hp) (hp.alive hlive) (i + 1)
      exact hnext.guarding_nil.bind fun _ _ => .pure _

theorem entries_peruses
    (hreads : List.Forall₂ (fun f (p : String × α) => f.ReadsAs read (.ok p.2)) fs pairs)
    (hheld : ∀ p ∈ pairs, heldBy p.2 = []) (hg : m.Grove ks fs places) (hlive : m.isAlive m.here) :
    (entries read heldBy ((pairs.map fun p => Bytes.ofText p.1).zip ks)).Peruses m []
      (.ok pairs) := by
  induction hreads generalizing m ks places with
  | nil =>
    cases hg
    exact .pure []
  | @cons _ p _ _ hread _ ih =>
    cases ks with
    | nil => cases hg
    | cons k ks =>
      obtain ⟨own, outer, -, hfirst, hrest⟩ := hg.split
      refine (hread hfirst hlive).bind fun m₁ hp => ?_
      rw [hheld p List.mem_cons_self]
      have hnext := ih (fun p hp => hheld p (List.mem_cons_of_mem _ hp)) (hrest.perused hp) (hp.alive hlive)
      refine hnext.guarding_nil.bind fun _ _ => ?_
      rw [Bytes.toText_ofText]
      exact .pure _

theorem mapOf_apply (hheld : ∀ p ∈ pairs, heldBy p.2 = []) (hn : (pairs.map (·.1)).Nodup) :
    mapOf heldBy pairs m = .ok (Keyed.sorted pairs) m := by
  rw [mapOf, List.flatMap_eq_nil_iff.2 ?_, Run.change_bind, Keyed.latest_eq hn]
  · rfl
  · intro p hp
    have hmem := List.mem_map_of_mem (f := Prod.fst) (List.mem_filter.1 hp).1
    rw [List.zipIdx_map_fst] at hmem
    exact hheld p.1 hmem

/-- The elements of an array are held while they are read. -/
theorem vec_peruses (hreads : List.Forall₂ (fun f a => f.ReadsAs read (.ok a)) fs as)
    (hheld : ∀ a ∈ as, heldBy a = []) (hg : m.Grove [h] [.array fs] places)
    (hlive : m.isAlive m.here) :
    (container .array h >>= fun v =>
      Bridge.releasing [v] (vector read heldBy v.handle)).Peruses m [] (.ok as) := by
  cases hg with
  | @array _ a ks _ _ _ inner outer hb ha hitems hrest =>
    refine .holding (container_apply hb (kind_of_array ha.body)) ha hlive ?_
    refine (Peruses.ofRun (slots_apply (ha.retain a).body)).bind fun m₁ hp => ?_
    have hlive₁ := hp.alive (alive_retain a hlive)
    exact slots_peruses hreads hheld ((hitems.retain a).perused hp) hlive₁ 0

/-- The entries of a hash come in the order of their keys. -/
theorem map_peruses
    (hreads : List.Forall₂ (fun f (p : String × α) => f.ReadsAs read (.ok p.2)) fs pairs)
    (hheld : ∀ p ∈ pairs, heldBy p.2 = []) (hn : (pairs.map (·.1)).Nodup)
    (hg : m.Grove [h] [.table (pairs.map fun p => Bytes.ofText p.1) fs] places)
    (hlive : m.isAlive m.here) :
    (container .hash h >>= fun v =>
      Bridge.releasing [v] (textMap read heldBy v.handle)).Peruses m []
      (.ok (Keyed.sorted pairs)) := by
  cases hg with
  | @table _ a _ ks _ _ _ inner outer cursor hb ha hlen hitems hrest =>
    refine .holding (container_apply hb (kind_of_hash ha.body)) ha hlive ?_
    have hentries : hashEntries a (m.retain a)
        = .ok ((pairs.map fun p => Bytes.ofText p.1).zip ks) (m.retain a) := by
      rw [hashEntries, Machine.table]
      simp only [bind_assoc, Run.look_bind, (ha.retain a).body]
      rfl
    refine (Peruses.ofRun hentries).bind fun m₁ hp => ?_
    have hlive₁ := hp.alive (alive_retain a hlive)
    refine (entries_peruses hreads hheld ((hitems.retain a).perused hp) hlive₁).bind fun m₂ _ => ?_
    exact .ofRun (mapOf_apply hheld hn)

end Reading

/-- Only the tree of an absent value has an undefined root. -/
theorem HostType.Passable.isDefined {t : HostType} (ht : t.Passable) (hflat : ∀ u, t ≠ .option u)
    {v : t.Value} (hg : m.Grove [h] [t.form v] places) : Machine.isDefined h m = .ok true m := by
  cases ht with
  | bool =>
    cases hg with
    | scalar hb _ _ => cases v <;> exact hb.isDefined
  | int t =>
    rw [form] at hg
    cases hg with
    | scalar hb _ _ =>
      split at hb <;> exact hb.isDefined
  | float | string =>
    cases hg with
    | scalar hb _ _ => exact hb.isDefined
  | option => exact absurd rfl (hflat _)
  | vec =>
    cases hg with
    | array hb _ _ _ => exact hb.isDefined
  | map =>
    cases hg with
    | table hb _ _ _ _ => exact hb.isDefined

/-- The tree of a value is read as the value with its maps in order. -/
theorem HostType.Passable.readsAs {t : HostType} (ht : t.Passable) {v : t.Value} (hv : t.Proper v)
    : (t.form v).ReadsAs (t.read .share) (.ok (t.ordered v)) := by
  induction ht with
  | bool =>
    intro m h places hg _
    cases hg with
    | scalar hb _ _ =>
      have htruth := hb.truth
      have hback : (Scalar.ofBool v).truth = v := by cases v <;> rfl
      rw [hback] at htruth
      exact .ofRun htruth
  | int t =>
    intro m h places hg _
    rw [form] at hg
    cases hg with
    | scalar hb _ _ => exact .of_run (Strict.integer_apply hv hb)
  | float =>
    intro m h places hg _
    cases hg with
    | scalar hb _ _ => exact .of_run (Strict.float_apply hb)
  | string =>
    intro m h places hg _
    cases hg with
    | scalar hb _ _ => exact .of_run (Strict.string_apply hb)
  | @option t ht hflat ih =>
    intro m h places hg hlive
    cases v with
    | none =>
      cases hg with
      | scalar hb _ _ => exact (Peruses.ofRun hb.isDefined).bind fun _ _ => .pure none
    | some v =>
      refine (Peruses.ofRun (ht.isDefined hflat hg)).bind fun m₁ hp => ?_
      exact (ih (hv v rfl) (hg.perused hp) (hp.alive hlive)).bind fun _ _ => .pure _
  | @vec t ht ih =>
    intro m h places hg hlive
    refine Reading.vec_peruses ?_ ?_ hg hlive
    · rw [ordered, List.forall₂_map_left_iff, List.forall₂_map_right_iff]
      exact List.forall₂_same.2 fun v hm => ih (hv v hm)
    · intro w _
      exact ht.held_eq_nil w
  | @map t ht ih =>
    intro m h places hg hlive
    obtain ⟨hn, hvalues⟩ := hv
    have hkeys : (List.map (fun p : String × t.Value => (p.1, t.ordered p.2)) v).map
        (fun p => Bytes.ofText p.1) = List.map (fun p => Bytes.ofText p.1) v := by
      rw [List.map_map]
      rfl
    rw [form, ← hkeys] at hg
    refine Reading.map_peruses ?_ ?_ ?_ hg hlive
    · rw [List.forall₂_map_left_iff, List.forall₂_map_right_iff]
      exact List.forall₂_same.2 fun p hm => ih (hvalues p hm)
    · intro p _
      exact ht.held_eq_nil p.2
    · rwa [List.map_map]

/-- A value of a passable type comes back as it was, its maps in order, and once the scalar that has
carried it is given up, every value of the machine is as it was. -/
theorem HostType.Passable.passes {t : HostType} (ht : t.Passable) {v : t.Value} (hv : t.Proper v)
    (hlive : m.isAlive m.here) : ∃ s m₁ m₂ w, HostScalar.make (Stock.echoed t v) m = .ok s m₁ ∧
      (HostScalar.get t s).run m₁ = .ok (.ok w) m₂ ∧ t.Same v w ∧ (t.InOrder v → w = v) ∧
      m.Regained (m₂.drop s) ∧ (m₂.drop s).interp.live = m.interp.live := by
  obtain ⟨h, m₁, hmake, hplanted⟩ := ht.plants hv m
  have htree := hplanted
  obtain ⟨places, hsprouts, hg⟩ := htree
  obtain ⟨m₂, hread, hp⟩ := (ht.readsAs hv hg (hplanted.alive hlive)).onOwner (h := h)
  have hleft : m.Planted m₂ h (t.form v) :=
    ⟨places, hsprouts.perused hp (List.nil_subset _), hg.perused hp⟩
  have hback := hleft.drop hlive
  rw [← hplanted.here] at hback
  exact ⟨⟨h, m₁.here⟩, m₁, m₂, t.ordered v, Run.bind_of_ok hmake, hread, ht.same_ordered v,
    fun horder => ht.ordered_eq horder, hback, hback.live⟩

/-- Lists of small integers and of gaps under texts. -/
def HostType.sheet : HostType := .map (.vec (.option (.int .i8)))

/-- A sheet with the least integer of its type, a gap, and a list without elements. -/
def HostType.sheetSample : sheet.Value := [("low", [some (-128), none]), ("none", [])]

theorem HostType.sheetSample_passes :
    sheet.Passable ∧ sheet.Proper sheetSample ∧ ∃ e m, (Embedded.start ⟨fun _ => none, fun _ => none⟩
      .first .standard).run .empty = .ok (.ok e) m ∧ m.isAlive m.here = true ∧
      ∃ s m₁ m₂, HostScalar.make (Stock.echoed sheet sheetSample) m = .ok s m₁ ∧
        (HostScalar.get sheet s).run m₁ = .ok (.ok sheetSample) m₂ ∧
        (m₂.drop s).interp.live = m.interp.live := by
  have ht : sheet.Passable := .map (.vec (.option (.int .i8) (by simp)))
  have hv : sheet.Proper sheetSample := by
    simp [Proper, sheet, sheetSample]
    decide
  have horder : sheet.InOrder sheetSample := by
    simp [InOrder, sheet, sheetSample]
    decide +kernel
  obtain ⟨e, m, hrun, hlive⟩ := Embedded.start_isAlive
  obtain ⟨s, m₁, m₂, w, hmake, hread, -, heq, -, hback⟩ := ht.passes hv hlive
  rw [heq horder] at hread
  exact ⟨ht, hv, e, m, hrun, hlive, s, m₁, m₂, hmake, hread, hback⟩

end ValueMachine

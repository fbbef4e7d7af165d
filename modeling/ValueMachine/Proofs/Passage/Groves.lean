import ValueMachine.Proofs.Documents.Converting

/-! Groves of values. A host value or a document becomes a tree: a scalar, or a reference to a
container whose elements are trees again. A place belongs to one tree of a grove only, so the release
of the roots vacates just the places of the grove. -/

namespace ValueMachine

open Machine

/-- The form of a tree: a scalar that is no reference, or a container with the forms in it. -/
inductive Form where
  | scalar (s : Scalar)
  | array (items : List Form)
  | table (keys : List Bytes) (items : List Form)

namespace Machine

variable {m m' : Machine} {h k a : Handle} {b b' : Body} {t : Table} {below : Prop}
  {hs ks places places' : List Handle} {f : Form} {fs gs : List Form} {fuel : Nat}

/-- A value that lives and has no hooks. -/
structure Bare (m : Machine) (h : Handle) (b : Body) : Prop extends m.Lives h b where
  magic : (m.cell h).magic = []

namespace Bare

theorem congr (hb : m.Bare h b) (hc : m'.cell h = m.cell h) : m'.Bare h b where
  body := (congrArg Cell.body hc).trans hb.body
  counted := (congrArg Cell.immortal hc).trans hb.counted
  count_ne_zero h0 := hb.count_ne_zero ((congrArg Cell.count hc).symm.trans h0)
  magic := (congrArg Cell.magic hc).trans hb.magic

theorem of_body (hb : m.Bare h b) (ha : (m.cell h).Agrees below (m'.cell h))
    (hb' : m'.body h = b') : m'.Bare h b' where
  body := hb'
  counted := ha.immortal.trans hb.counted
  count_ne_zero h0 := hb.count_ne_zero (Nat.le_zero.1 (h0 ▸ ha.count_le))
  magic := ha.magic.trans hb.magic

theorem agrees (hb : m.Bare h b) (ha : (m.cell h).Agrees below (m'.cell h))
    (hhash : ∀ t, b ≠ .hash t) : m'.Bare h b := by
  refine hb.of_body ha ((ha.body.resolve_right ?_).trans hb.body)
  rintro ⟨-, t, -, ht, -⟩
  exact hhash t (hb.body.symm.trans ht)

theorem agrees_hash (hb : m.Bare h (.hash t)) (ha : (m.cell h).Agrees below (m'.cell h)) :
    ∃ cursor, m'.Bare h (.hash { t with cursor := cursor }) := by
  rcases ha.body with he | ⟨-, t', cursor, ht, ht'⟩
  · exact ⟨t.cursor, hb.of_body ha (he.trans hb.body)⟩
  · cases ht.symm.trans hb.body
    exact ⟨cursor, hb.of_body ha ht'⟩

theorem cell_eq (hb : m.Bare h b) :
    m.cell h = ⟨(m.cell h).count, false, b, [], (m.cell h).className⟩ := by
  rw [← hb.counted, ← hb.magic, ← hb.body]
  rfl

end Bare

/-- The values at some handles are trees of some forms. The places of the grove are listed from each
root down. -/
inductive Grove (m : Machine) : List Handle → List Form → List Handle → Prop where
  | nil : Grove m [] [] []
  | scalar {h : Handle} {s : Scalar} {hs : List Handle} {fs : List Form} {outer : List Handle}
      (hb : m.Bare h (.scalar s)) (ht : s.target = none) (hrest : Grove m hs fs outer) :
      Grove m (h :: hs) (.scalar s :: fs) (h :: outer)
  | array {h a : Handle} {ks hs : List Handle} {items fs : List Form} {inner outer : List Handle}
      (hb : m.Bare h (.scalar (.ofTarget a))) (ha : m.Bare a (.array (ks.map some)))
      (hitems : Grove m ks items inner) (hrest : Grove m hs fs outer) :
      Grove m (h :: hs) (.array items :: fs) (h :: a :: (inner ++ outer))
  | table {h a : Handle} {keys : List Bytes} {ks hs : List Handle} {items fs : List Form}
      {inner outer : List Handle} {cursor : Option (List Bytes)}
      (hb : m.Bare h (.scalar (.ofTarget a))) (ha : m.Bare a (.hash ⟨keys.zip ks, cursor⟩))
      (hlen : keys.length = ks.length) (hitems : Grove m ks items inner)
      (hrest : Grove m hs fs outer) :
      Grove m (h :: hs) (.table keys items :: fs) (h :: a :: (inner ++ outer))

namespace Grove

/-- Only the cells at its places matter to a grove, and neither how often they are counted nor the
cursors of its hashes. -/
theorem congr (hg : m.Grove hs fs places)
    (hcell : ∀ k ∈ places, (m.cell k).Agrees True (m'.cell k)) : m'.Grove hs fs places := by
  induction hg with
  | nil => exact .nil
  | scalar hb ht _ ih =>
    exact .scalar (hb.agrees (hcell _ (by simp)) (by simp)) ht (ih fun k hk => hcell k (by simp [hk]))
  | array hb ha _ _ ih ih' =>
    exact .array (hb.agrees (hcell _ (by simp)) (by simp)) (ha.agrees (hcell _ (by simp)) (by simp))
      (ih fun k hk => hcell k (by simp [hk])) (ih' fun k hk => hcell k (by simp [hk]))
  | table hb ha hlen _ _ ih ih' =>
    obtain ⟨cursor, ha'⟩ := ha.agrees_hash (hcell _ (by simp))
    exact .table (hb.agrees (hcell _ (by simp)) (by simp)) ha' hlen
      (ih fun k hk => hcell k (by simp [hk])) (ih' fun k hk => hcell k (by simp [hk]))

theorem append (hg : m.Grove hs fs places) (hg' : m.Grove ks gs places') :
    m.Grove (hs ++ ks) (fs ++ gs) (places ++ places') := by
  induction hg with
  | nil => exact hg'
  | scalar hb ht _ ih => exact .scalar hb ht ih
  | array hb ha hitems _ _ ih =>
    simpa only [List.cons_append, List.append_assoc] using Grove.array hb ha hitems ih
  | table hb ha hlen hitems _ _ ih =>
    simpa only [List.cons_append, List.append_assoc] using Grove.table hb ha hlen hitems ih

/-- The first tree stands apart from the others. -/
theorem split (hg : m.Grove (h :: hs) (f :: fs) places) : ∃ own outer,
    places = own ++ outer ∧ m.Grove [h] [f] own ∧ m.Grove hs fs outer := by
  cases hg with
  | scalar hb ht hrest => exact ⟨[h], _, rfl, .scalar hb ht .nil, hrest⟩
  | @array _ a _ _ _ _ inner outer hb ha hitems hrest =>
    exact ⟨h :: a :: (inner ++ []), outer, by simp, .array hb ha hitems .nil, hrest⟩
  | @table _ a _ _ _ _ _ inner outer _ hb ha hlen hitems hrest =>
    exact ⟨h :: a :: (inner ++ []), outer, by simp, .table hb ha hlen hitems .nil, hrest⟩

theorem mem_root (hg : m.Grove (h :: hs) (f :: fs) places) : h ∈ places := by
  cases hg <;> exact List.mem_cons_self

theorem bare (hg : m.Grove hs fs places) (hk : k ∈ places) : ∃ b, m.Bare k b := by
  induction hg with
  | nil => cases hk
  | scalar hb _ _ ih =>
    rcases List.mem_cons.1 hk with rfl | hk
    · exact ⟨_, hb⟩
    · exact ih hk
  | array hb ha _ _ ih ih' | table hb ha _ _ _ ih ih' =>
    rw [List.mem_cons, List.mem_cons, List.mem_append] at hk
    obtain rfl | rfl | hk | hk := hk
    · exact ⟨_, hb⟩
    · exact ⟨_, ha⟩
    · exact ih hk
    · exact ih' hk

theorem index_lt (hg : m.Grove hs fs places) (hk : k ∈ places) : k.index < m.heap.size := by
  obtain ⟨b, hb⟩ := hg.bare hk
  exact hb.index_lt

theorem length_le_size (hg : m.Grove hs fs places) (hn : places.Nodup) :
    places.length ≤ m.heap.size := by
  have hinj : Function.Injective Handle.index := fun i j hij => by cases i; cases j; simp_all
  have hsub : places.map Handle.index ⊆ List.range m.heap.size := fun i hi => by
    obtain ⟨k, hk, rfl⟩ := List.mem_map.1 hi
    exact List.mem_range.2 (hg.index_lt hk)
  have hle := ((hn.map hinj).subperm hsub).length_le
  simpa using hle

end Grove

/-! ### Felling -/

theorem cell_vacate_of_ne (hk : k ≠ h) : (m.vacate h).cell k = m.cell k :=
  Heap.get_set_ne _ _ _ _ hk

theorem cell_vacateAll (hk : k ∉ places) : (places.foldl vacate m).cell k = m.cell k := by
  induction places generalizing m with
  | nil => rfl
  | cons h places ih =>
    obtain ⟨hne, hk⟩ := not_or.1 (List.mem_cons.not.1 hk)
    rw [List.foldl_cons, ih hk, cell_vacate_of_ne hne]

/-- The release of a value with one count and no hooks. -/
theorem Bare.releaseWithin_eq (hb : m.Bare h b) (hc : (m.cell h).count = 1) (fuel : Nat) :
    releaseWithin (fuel + 1) h m
      = b.owned.foldl (fun m k => releaseWithin fuel k m) (m.vacate h) := by
  have hcell := hb.cell_eq
  rw [hc] at hcell
  have hdying (c : Cell) : (m.onHeap (·.set h c)).cell h = c :=
    Heap.get_set_self _ _ _ hb.index_lt
  have hvacate (c : Cell) : (m.onHeap (·.set h c)).vacate h = m.vacate h := by
    simp [vacate, onHeap, onInterp, Heap.set]
  rw [releaseWithin, hcell]
  simp only [runFreeHooks, List.foldl_nil, Bool.false_or, Nat.one_ne_zero, decide_false,
    Bool.false_eq_true, if_false, lt_irrefl]
  rw [hvacate, Machine.body, hdying]

/-- Where some places have one count each, the release of the values at some handles vacates just
these places. -/
def Fells (m : Machine) (hs places : List Handle) : Prop :=
  ∀ ⦃m' : Machine⦄ ⦃fuel : Nat⦄, places.Nodup → (∀ k ∈ places, (m.cell k).count = 1) →
    places.length ≤ fuel → (∀ k ∈ places, m'.cell k = m.cell k) →
    hs.foldl (fun m k => releaseWithin fuel k m) m' = places.foldl vacate m'

namespace Fells

variable {inner outer : List Handle} {s : Scalar}

theorem scalar (hb : m.Bare h (.scalar s)) (ht : s.target = none) (hrest : m.Fells hs outer) :
    m.Fells (h :: hs) (h :: outer) := by
  intro m' fuel hn hone hf hcell
  obtain ⟨fuel, rfl⟩ : ∃ n, fuel = n + 1 := ⟨fuel - 1, by simp at hf; omega⟩
  obtain ⟨hh, hn⟩ := List.nodup_cons.1 hn
  have hc := hcell h List.mem_cons_self
  have howned : (Body.scalar s).owned = [] := by simp [Body.owned, Scalar.owned, ht]
  rw [List.foldl_cons, (hb.congr hc).releaseWithin_eq (hc ▸ hone h List.mem_cons_self), howned,
    List.foldl_nil, List.foldl_cons]
  refine hrest hn (fun k hk => hone k (by simp [hk])) (by simp at hf; omega) fun k hk => ?_
  rw [cell_vacate_of_ne (ne_of_mem_of_not_mem hk hh)]
  exact hcell k (by simp [hk])

/-- A reference falls with its container and what is in it, and before the trees beside it. -/
theorem container (hb : m.Bare h (.scalar (.ofTarget a))) (ha : m.Bare a b) (howned : b.owned = ks)
    (hitems : m.Fells ks inner) (hrest : m.Fells hs outer) :
    m.Fells (h :: hs) (h :: a :: (inner ++ outer)) := by
  intro m' fuel hn hone hf hcell
  simp only [List.length_cons, List.length_append] at hf
  obtain ⟨fuel, rfl⟩ : ∃ n, fuel = n + 2 := ⟨fuel - 2, by omega⟩
  obtain ⟨hh, hn⟩ := List.nodup_cons.1 hn
  obtain ⟨ha', hn⟩ := List.nodup_cons.1 hn
  obtain ⟨hni, hno, hdis⟩ := List.nodup_append.1 hn
  have hfirst : releaseWithin (fuel + 2) h m' = (h :: a :: inner).foldl vacate m' := by
    have hc := hcell h (by simp)
    have hc' : (m'.vacate h).cell a = m.cell a := by
      rw [cell_vacate_of_ne (by rintro rfl; simp at hh), hcell a (by simp)]
    have htarget : (Body.scalar (.ofTarget a)).owned = [a] := rfl
    rw [(hb.congr hc).releaseWithin_eq (hc ▸ hone h (by simp)), htarget, List.foldl_cons,
      List.foldl_nil, (ha.congr hc').releaseWithin_eq (hc' ▸ hone a (by simp)), howned]
    refine hitems hni (fun k hk => hone k (by simp [hk])) (by omega) fun k hk => ?_
    rw [cell_vacate_of_ne (by rintro rfl; simp [hk] at ha'),
      cell_vacate_of_ne (by rintro rfl; simp [hk] at hh)]
    exact hcell k (by simp [hk])
  have hall : (h :: a :: (inner ++ outer)).foldl vacate m'
      = outer.foldl vacate ((h :: a :: inner).foldl vacate m') := by simp
  rw [List.foldl_cons, hfirst, hall]
  refine hrest hno (fun k hk => hone k (by simp [hk])) (by omega) fun k hk => ?_
  rw [cell_vacateAll]
  · exact hcell k (by simp [hk])
  · simp only [List.mem_cons, not_or]
    exact ⟨by rintro rfl; simp [hk] at hh, by rintro rfl; simp [hk] at ha',
      fun hi => hdis k hi k hk rfl⟩

end Fells

/-- To release the roots of a grove is to vacate its places. -/
theorem Grove.fells (hg : m.Grove hs fs places) : m.Fells hs places := by
  induction hg with
  | nil => exact fun _ _ _ _ _ _ => rfl
  | scalar hb ht _ ih => exact .scalar hb ht ih
  | array hb ha _ _ ih ih' => exact .container hb ha (by simp [Body.owned]) ih ih'
  | table hb ha hlen _ _ ih ih' => exact .container hb ha (List.map_snd_zip hlen.ge) ih ih'

/-- The release of the root of a tree vacates the places of the tree. -/
theorem Grove.release_eq (hg : m.Grove [h] [f] places) (hn : places.Nodup)
    (hone : ∀ k ∈ places, (m.cell k).count = 1) : m.release h = places.foldl vacate m := by
  have hle := hg.length_le_size hn
  exact hg.fells hn hone (show places.length ≤ 2 * m.heap.size + 2 by omega) fun _ _ => rfl

end Machine

end ValueMachine

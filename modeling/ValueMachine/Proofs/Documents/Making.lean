import ValueMachine.Proofs.Documents.Converting
import ValueMachine.Proofs.Documents.Parsing
import ValueMachine.Proofs.Exceptions.Bearing

/-! The evaluation of a document's expression. It makes new values and leaves the living ones as
they are; a container is filled with copies before anything refers to it. -/

namespace ValueMachine

open Machine Manner Source

variable {α β : Type} {m m' m₁ m₂ m₃ : Machine} {bound bound' : Nat} {h k array hash : Handle}
  {b : Body} {s : Scalar} {P : Promise} {held values : List Handle} {j : Json}

namespace Machine

namespace Lives

theorem congr (hb : m.Lives h b) (hc : m'.cell h = m.cell h) : m'.Lives h b where
  body := (congrArg Cell.body hc).trans hb.body
  counted := (congrArg Cell.immortal hc).trans hb.counted
  count_ne_zero h0 := hb.count_ne_zero ((congrArg Cell.count hc).symm.trans h0)

theorem setBody (hb : m.Lives h b) (b' : Body) : (m.setBody h b').Lives h b' := by
  have hcell : (m.setBody h b').cell h = { m.cell h with body := b' } :=
    Heap.get_set_self _ _ _ hb.index_lt
  exact ⟨congrArg Cell.body hcell, (congrArg Cell.immortal hcell).trans hb.counted,
    fun h0 => hb.count_ne_zero ((congrArg Cell.count hcell).symm.trans h0)⟩

theorem alloc (m : Machine) (b : Body) : (m.alloc b).2.Lives m.heap.next b where
  body := by simp [Machine.alloc, Machine.body, cell, Cell.fresh]
  counted := by simp [Machine.alloc, cell, Cell.fresh]
  count_ne_zero := by simp [Machine.alloc, cell, Cell.fresh]

end Lives

/-- A machine in which values have been made. Living scalars stay as they are, and so do living
containers below a bound. -/
structure Grows (bound : Nat) (m m' : Machine) : Prop where
  drifts : m.Drifts m'
  stack : m'.interp.stack.toList = m.interp.stack.toList
  lives : ∀ {h b}, m.Lives h b → (∃ s, b = .scalar s) ∨ h.index < bound → m'.Lives h b

namespace Grows

theorem refl (ht : m.heap.Tame) : m.Grows bound m := ⟨.refl ht, rfl, fun hb _ => hb⟩

theorem trans (h : m₁.Grows bound m₂) (h' : m₂.Grows bound m₃) : m₁.Grows bound m₃ where
  drifts := h.drifts.trans h'.drifts
  stack := h'.stack.trans h.stack
  lives hb hk := h'.lives (h.lives hb hk) hk

theorem mono (h : m.Grows bound m') (hle : bound' ≤ bound) : m.Grows bound' m' where
  drifts := h.drifts
  stack := h.stack
  lives hb hk := h.lives hb (hk.imp_right fun hlt => hlt.trans_le hle)

theorem size_le (h : m.Grows bound m') : m.heap.size ≤ m'.heap.size := h.drifts.heap.size_le

theorem scalar (h : m.Grows bound m') (hb : m.Lives k (.scalar s)) : m'.Lives k (.scalar s) :=
  h.lives hb (.inl ⟨s, rfl⟩)

theorem below (h : m.Grows bound m') (hb : m.Lives k b) (hlt : k.index < bound) : m'.Lives k b :=
  h.lives hb (.inr hlt)

theorem alloc (ht : m.heap.Tame) (hb : b.Formed) : m.Grows bound (m.alloc b).2 where
  drifts := .alloc ht hb
  stack := rfl
  lives hlives _ := hlives.congr (Heap.get_push_ne _ _ _ (ne_next_of_lt hlives.index_lt))

theorem mortal (hs : m.Sound P) (h : Handle) : m.Grows bound (m.mortal h) where
  drifts := drifts_still (by rfl) hs
  stack := rfl
  lives hb _ := hb.congr rfl

/-- Readings and counts change no value. -/
theorem of_agrees (ha : m.Agrees 0 m') (hd : m.Drifts m') (hstill : Still m m') :
    m.Grows bound m' where
  drifts := hd
  stack := congrArg Stacks.values hstill.same
  lives hb _ := hb.agrees_above ha (Nat.zero_le _)

theorem setBody {b' : Body} (ht : m.heap.Tame) (hb : m.Lives h b) (hs : ∀ s, b ≠ .scalar s)
    (hd : b.Drifts b') : m.Grows h.index (m.setBody h b') where
  drifts := .setBody ht (hb.body.symm ▸ hd)
  stack := rfl
  lives {k c} hk hkeeps := by
    have hne : k ≠ h := by
      rintro rfl
      rcases hkeeps with ⟨s, rfl⟩ | hlt
      · exact hs s (hb.body.symm.trans hk.body)
      · exact lt_irrefl _ hlt
    exact hk.congr (Heap.get_set_ne _ _ _ _ hne)

end Grows

namespace Shows

theorem grows (hs : m.Shows bound j h) (hg : m.Grows bound' m') (hle : bound ≤ bound') :
    m'.Shows bound j h := by
  induction hs with
  | null hb => exact .null (hg.scalar hb)
  | int hb => exact .int (hg.scalar hb)
  | text hb => exact .text (hg.scalar hb)
  | list hb hlt harray hlen hitems ih =>
    have hbelow := hlt.trans_le hle
    exact .list (hg.scalar hb) hlt (hg.below harray hbelow) hlen
      fun p hp => ih p hp hbelow.le
  | object hb hlt htable hlen hkeys hfields ih =>
    have hbelow := hlt.trans_le hle
    exact .object (hg.scalar hb) hlt (hg.below htable hbelow) hlen hkeys
      fun p hp => ih p hp hbelow.le

/-- A copy shows what its original shows. -/
theorem copy (hs : m.Shows bound j h) (hb : m.Lives h (.scalar s)) (hk : m.Lives k (.scalar s)) :
    m.Shows bound j k := by
  cases hs with
  | null hh => cases hb.body.symm.trans hh.body; exact .null hk
  | int hh => cases hb.body.symm.trans hh.body; exact .int hk
  | text hh => cases hb.body.symm.trans hh.body; exact .text hk
  | list hh hlt harray hlen hitems =>
    cases hb.body.symm.trans hh.body
    exact .list hk hlt harray hlen hitems
  | object hh hlt htable hlen hkeys hfields =>
    cases hb.body.symm.trans hh.body
    exact .object hk hlt htable hlen hkeys hfields

end Shows

/-- A key and a value that show a field of an object. -/
def ShowsField (m : Machine) (bound : Nat) (f : String × Json) (p : Handle × Handle) : Prop :=
  m.Lives p.1 (.scalar (.ofText f.1)) ∧ m.Shows bound f.2 p.2

theorem ShowsField.grows {f : String × Json} {p : Handle × Handle} (hs : m.ShowsField bound f p)
    (hg : m.Grows bound' m') (hle : bound ≤ bound') : m'.ShowsField bound f p :=
  ⟨hg.scalar hs.1, hs.2.grows hg hle⟩

end Machine

namespace Run

variable {x : Run α} {f : α → Run β} {Q Q' : α → Machine → Prop} {R : β → Machine → Prop}

/-- An operation returns and makes something. -/
def Makes (x : Run α) (m : Machine) (bound : Nat) (Q : α → Machine → Prop) : Prop :=
  ∃ a m', x m = .ok a m' ∧ m.Grows bound m' ∧ Q a m'

namespace Makes

theorem pure {a : α} (ht : m.heap.Tame) (ha : Q a m) : (Pure.pure a : Run α).Makes m bound Q :=
  ⟨a, m, rfl, .refl ht, ha⟩

theorem imp (hx : x.Makes m bound Q) (hle : bound' ≤ bound)
    (himp : ∀ a m', m.Grows bound m' → Q a m' → Q' a m') : x.Makes m bound' Q' := by
  obtain ⟨a, m', hrun, hg, ha⟩ := hx
  exact ⟨a, m', hrun, hg.mono hle, himp a m' hg ha⟩

theorem bind (hx : x.Makes m bound Q) (hle : bound' ≤ bound)
    (hf : ∀ a m₁, m.Grows bound m₁ → Q a m₁ → (f a).Makes m₁ bound' R) :
    (x >>= f).Makes m bound' R := by
  obtain ⟨a, m₁, hrun, hg, ha⟩ := hx
  obtain ⟨c, m₂, hrun', hg', hc⟩ := hf a m₁ hg ha
  exact ⟨c, m₂, (Run.bind_of_ok hrun).trans hrun', (hg.mono hle).trans hg', hc⟩

end Makes

end Run

open Run

/-! ### New values -/

theorem alloc_makes (hm : m.Fit (b.owned ++ held)) (hb : b.Formed) (hf : b.isFreed = false)
    (bound : Nat) (hk : b.Keyed := by trivial) :
    (modifyGet (·.alloc b) : Run Handle).Makes m bound fun h m' =>
      h = m.heap.next ∧ m'.Fit (h :: held) ∧ m'.Lives h b := by
  refine ⟨_, _, rfl, .alloc hm.sound.tame hb, rfl, ?_, .alloc m b⟩
  refine hm.step (.alloc hm.sound.tame hb) fun lost ho => ?_
  rw [List.append_assoc] at ho
  exact ho.alloc b hf hk

theorem temporary_makes (hm : m.Fit (s.owned ++ held)) (bound : Nat)
    (hs : s.Formed := by simp) : (temporary s).Makes m bound fun h m' => m'.Fit held ∧ m'.Lives h (.scalar s) := by
  obtain ⟨_, _, hrun, hg, rfl, hfit, hlives⟩ :=
    alloc_makes (b := .scalar s) hm (Body.formed_scalar.2 hs) rfl bound
  cases hrun
  have hmortal : Grows bound _ _ := .mortal hfit.sound m.heap.next
  exact ⟨_, _, rfl, hg.trans hmortal,
    hfit.step hmortal.drifts fun _ ho => Orderly.mortal ho, hlives.congr rfl⟩

/-- A copy of a scalar has its slots. -/
theorem newCopy_makes (hm : m.Fit held) (hb : m.Lives h (.scalar s)) (bound : Nat) :
    (newCopy h).Makes m bound fun k m' => m'.Fit (k :: held) ∧ m'.Lives k (.scalar s) := by
  obtain ⟨log, hcopy⟩ := copySlots_apply hm.sound.tame h
  rw [hb.scalar?] at hcopy
  have hnoted := drifts_log hm.sound.tame log
  have hd := hnoted.trans (drifts_retainAll s.owned hnoted.tame)
  have ha : m.Agrees 0 (s.owned.foldl Machine.retain { m with log := log }) := by
    refine List.foldlRecOn (motive := fun m' => m.Agrees 0 m') _ _ (.log m log 0)
      fun m' hm' k _ => ?_
    exact hm'.trans (.retain m' k 0)
  have hstill : Still m (s.owned.foldl Machine.retain { m with log := log }) := by
    refine List.foldlRecOn (motive := fun m' => Still m m') _ _ ⟨rfl, rfl, rfl⟩ fun m' hm' k _ => ?_
    exact hm'.trans (.retain m' k)
  have hfit : (s.owned.foldl Machine.retain { m with log := log }).Fit (s.owned ++ held) := by
    refine hm.step hd fun lost ho => ?_
    rw [List.append_assoc]
    exact ho.copySlots hcopy
  have hslots : (copySlots h).Makes m bound fun s' m' => s' = s ∧ m'.Fit (s.owned ++ held) :=
    ⟨s, _, hcopy, .of_agrees ha hd hstill, rfl, hfit⟩
  refine hslots.bind le_rfl fun s' m₁ hg hcopied => ?_
  obtain ⟨rfl, hfit⟩ := hcopied
  have hformed : (Body.scalar s').Formed := Body.formed_scalar.2 (hm.sound.tame.formed h s' hb.body)
  exact (alloc_makes hfit hformed rfl bound).imp le_rfl fun k m' _ hmade => hmade.2

theorem text_makes {t : ByteText} (hm : m.Fit held) (hb : m.Lives h (.scalar (.ofByteText t)))
    (bound : Nat) :
    (text h).Makes m bound fun t' m' => t' = t ∧ m'.Fit held := by
  obtain ⟨log, hread⟩ := hb.text hm.sound.tame
  exact ⟨t, _, hread, .of_agrees (.log m log 0) (drifts_log hm.sound.tame log) ⟨rfl, rfl, rfl⟩, rfl,
    hm.still rfl rfl⟩

/-! ### Lists -/

theorem arrayPush_apply {xs : Slots} (hb : m.body array = .array xs) (k : Handle) :
    arrayPush array k m = .ok () (m.setBody array (.array (xs ++ [some k]))) :=
  onSlots_apply hb _

theorem arrayPush_makes {xs : Slots} (hm : m.Fit (k :: held)) (hb : m.Lives array (.array xs)) :
    (arrayPush array k).Makes m array.index fun _ m' =>
      m'.Fit held ∧ m'.Lives array (.array (xs ++ [some k])) := by
  have hrun := arrayPush_apply hb.body k
  have hg := Grows.setBody hm.sound.tame hb (by simp) (.array xs (xs ++ [some k]))
  exact ⟨(), _, hrun, hg, hm.step hg.drifts fun _ ho => ho.arrayPush hrun, hb.setBody _⟩

theorem pushCopies_makes {items : List Json} (before : List Handle)
    (hshows : List.Forall₂ (m.Shows array.index) items values) (hm : m.Fit (array :: held))
    (hb : m.Lives array (.array (before.map some))) :
    (values.forM fun h => do arrayPush array (← newCopy h)).Makes m array.index fun _ m' =>
      m'.Fit (array :: held) ∧ ∃ copies, m'.Lives array (.array ((before ++ copies).map some)) ∧
        List.Forall₂ (m'.Shows array.index) items copies := by
  induction items generalizing m values before with
  | nil =>
    cases hshows
    exact .pure hm.sound.tame ⟨hm, [], by rwa [List.append_nil], .nil⟩
  | cons j items ih =>
    cases hshows with
    | @cons _ h _ values hj hrest =>
    obtain ⟨s, hs⟩ := hj.lives
    have hcopy := newCopy_makes hm hs (array.index + 1)
    have hstep : (do arrayPush array (← newCopy h) : Run Unit).Makes m array.index fun _ m' =>
        m'.Fit (array :: held) ∧ ∃ k, m'.Lives array (.array ((before ++ [k]).map some)) ∧
          m'.Shows array.index j k := by
      refine hcopy.bind (Nat.le_succ _) fun k m₁ hg hcopied => ?_
      have hshow := (hj.grows hg (Nat.le_succ _)).copy (hg.scalar hs) hcopied.2
      have hpush := arrayPush_makes hcopied.1 (hg.below hb (Nat.lt_succ_self _))
      refine hpush.imp le_rfl fun _ m₂ hg₂ hpushed => ⟨hpushed.1, k, ?_, hshow.grows hg₂ le_rfl⟩
      rw [List.map_append]
      exact hpushed.2
    refine hstep.bind le_rfl fun _ m₁ hg hpushed => ?_
    obtain ⟨hfit, k, hb₁, hshow⟩ := hpushed
    have hrest₁ := hrest.imp fun j h hs => hs.grows hg le_rfl
    refine (ih _ hrest₁ hfit hb₁).imp le_rfl fun _ m₂ hg₂ hdone => ⟨hdone.1, ?_⟩
    obtain ⟨copies, hb₂, hcopies⟩ := hdone.2
    refine ⟨k :: copies, ?_, .cons (hshow.grows hg₂ le_rfl) hcopies⟩
    rw [List.append_assoc] at hb₂
    exact hb₂

/-- A reference to a new array of copies shows the list of what the originals show. -/
theorem arrayOf_makes {items : List Json} (hm : m.Fit held)
    (hshows : List.Forall₂ (m.Shows m.heap.size) items values) :
    (arrayOf values).Makes m m.heap.size fun h m' =>
      m'.Fit held ∧ m'.Shows m'.heap.size (.list items) h := by
  have hnew := alloc_makes (b := .array []) hm (by simp [Body.Formed]) rfl m.heap.size
  refine hnew.bind le_rfl fun array m₁ hg hmade => ?_
  obtain ⟨rfl, hfit, hb⟩ := hmade
  have hshows₁ := hshows.imp fun j h hs => hs.grows hg le_rfl
  refine (pushCopies_makes [] hshows₁ hfit hb).bind le_rfl fun _ m₂ hg₂ hdone => ?_
  obtain ⟨hfit₂, copies, hb₂, hcopies⟩ := hdone
  refine (temporary_makes (s := .ofTarget m.heap.next) hfit₂ m₂.heap.size).imp
    (hg.size_le.trans hg₂.size_le) fun h m₃ hg₃ hmade => ⟨hmade.1, ?_⟩
  obtain ⟨hlen, hall⟩ := List.forall₂_iff_zip.1 hcopies
  exact .list hmade.2 (hb₂.index_lt.trans_le hg₃.size_le) (hg₃.below hb₂ hb₂.index_lt) hlen
    fun p hp => (hall hp).grows hg₃ hb₂.index_lt.le

/-! ### Objects -/

theorem Table.put_of_notMem {key : Bytes} {entries : List (Bytes × Handle)}
    (hkey : key ∉ entries.map (·.1)) : Table.put key k entries = entries ++ [(key, k)] := by
  induction entries with
  | nil => rfl
  | cons e entries ih =>
    rw [List.map_cons, List.mem_cons, not_or] at hkey
    rw [Table.put, if_neg (by simpa using Ne.symm hkey.1), ih hkey.2]
    rfl

theorem hashPut_apply {key : Bytes} {entries : List (Bytes × Handle)}
    {cursor : Option (List Bytes)} (hb : m.body hash = .hash ⟨entries, cursor⟩)
    (hkey : key ∉ entries.map (·.1)) (k : Handle) :
    hashPut hash key k m = .ok () (m.setBody hash (.hash ⟨entries ++ [(key, k)], cursor⟩)) := by
  have hnone : entries.lookup key = none := by
    refine List.lookup_eq_none_iff.2 fun e he => ?_
    have hne : key ≠ e.1 := fun h => hkey (h ▸ List.mem_map_of_mem he)
    simpa using hne
  have hstore : hashStore hash key k m
      = .ok none (m.setBody hash (.hash ⟨entries ++ [(key, k)], cursor⟩)) := by
    rw [hashStore, onTable, Run.look_bind, hb]
    simp only [Body.hash?, Table.get?, hnone, Table.insert, Table.put_of_notMem hkey]
    rfl
  rw [hashPut, Run.bind_of_ok hstore]
  rfl

theorem hashPut_makes {key : Bytes} {entries : List (Bytes × Handle)}
    {cursor : Option (List Bytes)} (hm : m.Fit (k :: held))
    (hb : m.Lives hash (.hash ⟨entries, cursor⟩)) (hkey : key ∉ entries.map (·.1)) :
    (hashPut hash key k).Makes m hash.index fun _ m' =>
      m'.Fit held ∧ m'.Lives hash (.hash ⟨entries ++ [(key, k)], cursor⟩) := by
  have hrun := hashPut_apply hb.body hkey k
  have hg := Grows.setBody hm.sound.tame hb (by simp)
    (.hash ⟨entries, cursor⟩ ⟨entries ++ [(key, k)], cursor⟩)
  exact ⟨(), _, hrun, hg, hm.step hg.drifts fun _ ho => ho.hashPut hrun, hb.setBody _⟩

theorem putPairs_makes {pairs : List (Handle × Handle)} {fields : List (String × Json)}
    (before : List (Bytes × Handle))
    (hpairs : List.Forall₂ (m.ShowsField hash.index) fields pairs)
    (hn : (before.map (·.1) ++ fields.map fun f => Bytes.ofText f.1).Nodup)
    (hm : m.Fit (hash :: held)) (hb : m.Lives hash (.hash ⟨before, none⟩)) :
    (putPairs hash (pairs.flatMap fun p => [p.1, p.2])).Makes m hash.index fun _ m' =>
      m'.Fit (hash :: held) ∧ ∃ entries, m'.Lives hash (.hash ⟨before ++ entries, none⟩) ∧
        List.Forall₂ (fun f e => e.1 = Bytes.ofText f.1 ∧ m'.Shows hash.index f.2 e.2)
          fields entries := by
  induction fields generalizing m pairs before with
  | nil =>
    cases hpairs
    exact .pure hm.sound.tame ⟨hm, [], by rwa [List.append_nil], .nil⟩
  | cons f fields ih =>
    cases hpairs with
    | @cons _ p _ pairs hp hrest =>
    obtain ⟨key, value⟩ := p
    obtain ⟨hkey, hj⟩ := hp
    refine (text_makes hm hkey (hash.index + 1)).bind (Nat.le_succ _) fun t m₁ hg ht => ?_
    obtain ⟨rfl, hfit⟩ := ht
    obtain ⟨s, hs⟩ := hj.lives
    refine (newCopy_makes hfit (hg.scalar hs) (hash.index + 1)).bind
      (Nat.le_succ _) fun k m₂ hg₂ hcopied => ?_
    have hg₁ := hg.trans hg₂
    have hshow := (hj.grows hg₁ (Nat.le_succ _)).copy (hg₁.scalar hs) hcopied.2
    have hnew : Bytes.ofText f.1 ∉ before.map (·.1) := fun hmem =>
      (List.nodup_append.1 hn).2.2 _ hmem _ List.mem_cons_self rfl
    refine (hashPut_makes hcopied.1 (hg₁.below hb (Nat.lt_succ_self _)) hnew).bind le_rfl
      fun _ m₃ hg₃ hput => ?_
    have hrest₃ := hrest.imp fun f p hs => (hs.grows hg₁ (Nat.le_succ _)).grows hg₃ le_rfl
    have hn₃ : ((before ++ [(Bytes.ofText f.1, k)]).map (·.1)
        ++ fields.map fun f => Bytes.ofText f.1).Nodup := by simpa using hn
    refine (ih _ hrest₃ hn₃ hput.1 hput.2).imp le_rfl fun _ m₄ hg₄ hdone => ⟨hdone.1, ?_⟩
    obtain ⟨entries, hb₄, hentries⟩ := hdone.2
    refine ⟨(Bytes.ofText f.1, k) :: entries, ?_,
      .cons ⟨rfl, (hshow.grows hg₃ le_rfl).grows hg₄ le_rfl⟩ hentries⟩
    rw [List.append_assoc] at hb₄
    exact hb₄

/-- A reference to a new hash of copies shows the object of what the originals show. -/
theorem hashOf_makes {pairs : List (Handle × Handle)} {fields : List (String × Json)}
    (hm : m.Fit held)
    (hpairs : List.Forall₂ (m.ShowsField m.heap.size) fields pairs)
    (hn : (fields.map fun f => Bytes.ofText f.1).Nodup) :
    (hashOf (pairs.flatMap fun p => [p.1, p.2])).Makes m m.heap.size fun h m' =>
      m'.Fit held ∧ m'.Shows m'.heap.size (.object fields) h := by
  have hnew := alloc_makes (b := .hash .empty) hm (by simp [Body.Formed]) rfl m.heap.size
    List.nodup_nil
  refine hnew.bind le_rfl fun hash m₁ hg hmade => ?_
  obtain ⟨rfl, hfit, hb⟩ := hmade
  have hpairs₁ := hpairs.imp fun f p hs => hs.grows hg le_rfl
  refine (putPairs_makes [] hpairs₁ hn hfit hb).bind le_rfl fun _ m₂ hg₂ hdone => ?_
  obtain ⟨hfit₂, entries, hb₂, hentries⟩ := hdone
  refine (temporary_makes (s := .ofTarget m.heap.next) hfit₂ m₂.heap.size).imp
    (hg.size_le.trans hg₂.size_le) fun h m₃ hg₃ hmade => ⟨hmade.1, ?_⟩
  obtain ⟨hlen, hall⟩ := List.forall₂_iff_zip.1 hentries
  exact .object hmade.2 (hb₂.index_lt.trans_le hg₃.size_le) (hg₃.below hb₂ hb₂.index_lt) hlen
    (fun p hp => (hall hp).1) fun p hp => (hall hp).2.grows hg₃ hb₂.index_lt.le

/-! ### Documents -/

namespace Json

/-- The evaluation of a document's expression makes a value that shows the document. -/
def Made (j : Json) : Prop :=
  ∀ ⦃m : Machine⦄ ⦃held⦄ (r : Reentry) (want : Want), m.Fit held →
    (j.expr.eval r want).Makes m m.heap.size fun values m' =>
      m'.Fit held ∧ ∃ h, values = [h] ∧ m'.Shows m'.heap.size j h

variable {n : Nat} {r : Reentry}

/-- The items of a list are made one after the other, and those made before stay. -/
theorem cons_makes {rest : Items} {Q : List Handle → Machine → Prop} (hj : j.Made)
    (hm : m.Fit held) (hrest : ∀ m₁ h, m.Grows m.heap.size m₁ → m₁.Fit held →
      m₁.Shows m₁.heap.size j h →
        (rest.eval r).Makes m₁ m₁.heap.size fun values m' => Q (h :: values) m') :
    ((Items.cons j.expr rest).eval r).Makes m m.heap.size Q := by
  refine (hj r .list hm).bind le_rfl fun _ m₁ hg hmade => ?_
  obtain ⟨hfit, h, rfl, hs⟩ := hmade
  refine (hrest m₁ h hg hfit hs).bind hg.size_le fun values m₂ hg₂ hmade => ?_
  exact .pure hg₂.drifts.tame hmade

theorem exprItems_makes {items : List Json} (hitems : ∀ j ∈ items, j.Made) (hm : m.Fit held) :
    ((exprItems items).eval r).Makes m m.heap.size fun values m' =>
      m'.Fit held ∧ List.Forall₂ (m'.Shows m'.heap.size) items values := by
  induction items generalizing m with
  | nil => exact .pure hm.sound.tame ⟨hm, .nil⟩
  | cons j items ih =>
    refine cons_makes (hitems j List.mem_cons_self) hm fun m₁ h hg hfit hs => ?_
    refine (ih (fun j hj => hitems j (List.mem_cons_of_mem _ hj)) hfit).imp le_rfl
      fun values m₂ hg₂ hmade => ⟨hmade.1, .cons ?_ hmade.2⟩
    exact (hs.grows hg₂ le_rfl).mono hg₂.size_le

/-- A new temporary shows a scalar. -/
theorem made_of_temporary (hs : s.owned = []) (hformed : s.Formed)
    (heval : ∀ r want, j.expr.eval r want = (do return [← temporary s]))
    (hshows : ∀ ⦃m : Machine⦄ ⦃bound h⦄, m.Lives h (.scalar s) → m.Shows bound j h) : j.Made := by
  intro m held r want hm
  rw [heval]
  have hmake := temporary_makes (s := s) (by rwa [hs]) m.heap.size hformed
  refine hmake.bind le_rfl fun h m₁ hg hmade => ?_
  exact .pure hg.drifts.tame ⟨hmade.1, h, rfl, hshows hmade.2⟩

theorem made_null : Json.null.Made :=
  made_of_temporary rfl (by simp) (fun _ _ => by rw [expr, Expr.eval]) fun _ _ _ => .null

theorem made_int (i : Int) : (Json.int i).Made :=
  made_of_temporary (s := .ofWide (.ofInt i)) rfl (Scalar.formed_of_target rfl)
    (fun _ _ => by rw [expr, Expr.eval, Scalar.ofNumber_ofInt]) fun _ _ _ => .int

theorem made_text (s : String) : (Json.text s).Made :=
  made_of_temporary rfl (by simp) (fun _ _ => by rw [expr, Expr.eval]) fun _ _ _ => .text

theorem exprFields_makes {fields : List (String × Json)} (hfields : ∀ f ∈ fields, f.2.Made)
    (hm : m.Fit held) :
    ((exprFields fields).eval r).Makes m m.heap.size fun values m' =>
      m'.Fit held ∧ ∃ pairs : List (Handle × Handle), values = pairs.flatMap (fun p => [p.1, p.2]) ∧
        List.Forall₂ (m'.ShowsField m'.heap.size) fields pairs := by
  induction fields generalizing m with
  | nil => exact .pure hm.sound.tame ⟨hm, [], rfl, .nil⟩
  | cons f fields ih =>
    obtain ⟨key, j⟩ := f
    refine cons_makes (made_text key) hm fun m₁ k hg hfit hk => ?_
    refine cons_makes (hfields _ List.mem_cons_self) hfit fun m₂ h hg₂ hfit₂ hs => ?_
    refine (ih (fun f hf => hfields f (List.mem_cons_of_mem _ hf)) hfit₂).imp le_rfl
      fun values m₃ hg₃ hmade => ⟨hmade.1, ?_⟩
    obtain ⟨pairs, rfl, hpairs⟩ := hmade.2
    refine ⟨(k, h) :: pairs, rfl, .cons ⟨?_, (hs.grows hg₃ le_rfl).mono hg₃.size_le⟩ hpairs⟩
    cases hk with
    | text hb => exact hg₃.scalar (hg₂.scalar hb)

/-- The expression of a plain document makes the document. -/
theorem Plain.made (hj : j.Plain n) : j.Made := by
  induction hj with
  | null => exact made_null
  | int => exact made_int _
  | text => exact made_text _
  | @list n items hitems ih =>
    intro m held r want hm
    rw [expr, Expr.eval]
    refine (exprItems_makes ih hm).bind le_rfl fun values m₁ hg hmade => ?_
    refine (arrayOf_makes hmade.1 hmade.2).bind hg.size_le fun h m₂ hg₂ hlist => ?_
    exact .pure hg₂.drifts.tame ⟨hlist.1, h, rfl, hlist.2⟩
  | @object n fields hkeys hfields ih =>
    intro m held r want hm
    rw [expr, Expr.eval]
    refine (exprFields_makes ih hm).bind le_rfl fun values m₁ hg hmade => ?_
    obtain ⟨hfit, pairs, rfl, hpairs⟩ := hmade
    have hn : (fields.map fun f => Bytes.ofText f.1).Nodup :=
      List.pairwise_map.2 (hkeys.imp fun hbefore => hbefore.ne)
    refine (hashOf_makes hfit hpairs hn).bind hg.size_le fun h m₂ hg₂ hobject => ?_
    exact .pure hg₂.drifts.tame ⟨hobject.1, h, rfl, hobject.2⟩

end Json

end ValueMachine

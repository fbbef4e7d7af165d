import ValueMachine.Host.Stock
import ValueMachine.Proofs.Instances.Operations

/-! Host instances as objects. Every conversion makes a new object with one claim on its instance.
The claim is given back when the object is freed: whatever is done in between, on however many
interpreters, the claims on an instance are the objects that were made from it and are not freed,
and each of them is known by the instance that it was made from. -/

namespace ValueMachine

open Machine

/-- The instances that have room in 64-bit memory. -/
def InstanceId.Addressable : Set InstanceId := {i | i.number < 1152921504606846976}

/-- Instances are told apart by their words. -/
theorem InstanceId.identity_injOn : Addressable.InjOn identity := by
  rintro ⟨i⟩ hi ⟨j⟩ hj he
  simp only [Addressable, Set.mem_ofPred_eq] at hi hj
  have hnat := congrArg UInt64.toNat he
  simp only [identity, UInt64.toNat_ofNat'] at hnat
  congr 1
  omega

/-! ### The conversion of an instance -/

theorem count_flatMap_of_ite {α β : Type} [BEq β] {xs : List α} {f : α → List β}
    {p : α → Bool} {b : β} (h : ∀ a ∈ xs, (f a).count b = if p a then 1 else 0) :
    (xs.flatMap f).count b = xs.countP p := by
  induction xs with
  | nil => rfl
  | cons a rest ih =>
    rw [List.flatMap_cons, List.count_append, h a List.mem_cons_self,
      ih fun a' ha => h a' (List.mem_cons_of_mem a ha), List.countP_cons]
    omega

/-- The referent of a new object. -/
def Cell.standing (i : InstanceId) (className : String) : Cell :=
  ⟨1, false, .scalar (.ofInt64 i.identity.toInt64), [⟨Magic.extension, .bridge, i.identity⟩],
    some className⟩

theorem Cell.words_standing (i : InstanceId) (className : String) :
    (standing i className).words = [i.identity] := by
  simp [words, standing, Magic.isBridge]

theorem Cell.proper_standing (i : InstanceId) (className : String) :
    (standing i className).Proper where
  hooks g hg _ := by rw [List.mem_singleton.1 hg]; rfl
  freed hf := by cases hf

namespace Heap

theorem set_push_next (H : Heap) (b c : Cell) : (H.push b).set H.next c = H.push c := by
  simp only [push, set, next, mk.injEq]
  apply Array.ext'
  simp

theorem set_push_push (H : Heap) (b c d : Cell) :
    ((H.push b).push d).set H.next c = (H.push c).push d := by
  simp only [push, set, next, mk.injEq]
  apply Array.ext'
  simp

/-- The words of a heap, place by place. -/
theorem words_eq (H : Heap) :
    H.words = (List.range H.size).flatMap fun k => (H.get ⟨k⟩).words := by
  have hcells : H.cells.toList = (List.range H.size).map fun k => H.get ⟨k⟩ := by
    refine List.ext_getElem (by simp [size]) fun k hk _ => ?_
    simp [H.get_eq_getElem (h := ⟨k⟩) hk]
  rw [words, hcells, List.flatMap_map]

/-- Two new values: a reference, and a referent that stands for an instance. -/
def withObject (H : Heap) (i : InstanceId) (className : String) : Heap :=
  (H.push (.fresh (.scalar (.ofTarget ⟨H.size + 1⟩)))).push (.standing i className)

@[simp] theorem size_withObject (H : Heap) (i : InstanceId) (className : String) :
    (H.withObject i className).size = H.size + 2 := by
  simp [withObject]

theorem next_push (H : Heap) (c : Cell) : (H.push c).next = ⟨H.size + 1⟩ := by
  simp [next, push, size]

theorem get_withObject (H : Heap) (i : InstanceId) (className : String) (k : Handle) :
    (H.withObject i className).get k =
      if k = ⟨H.size + 1⟩ then .standing i className
      else if k = H.next then .fresh (.scalar (.ofTarget ⟨H.size + 1⟩))
      else H.get k := by
  rw [withObject, get_push, next_push, get_push]

end Heap

theorem heap_claim (m : Machine) (i : InstanceId) : (m.claim i).heap = m.heap := by
  rw [claim_eq]

/-- A store into an undefined scalar without hooks replaces its slots, and nothing else. -/
theorem store_undefined {m : Machine} {h : Handle} (hi : (m.cell h).immortal = false)
    (hb : m.body h = .scalar .undefined) (s : Scalar) :
    ∃ log, store h s m = .ok () { m.setBody h (.scalar s) with log := log } := by
  obtain ⟨log, hlog⟩ := (m.setBody h (.scalar s)).noteWrite_eq h
  refine ⟨log, ?_⟩
  rw [body] at hb
  simp only [Machine.store, Run.look_bind, hi, hb, Bool.false_eq_true, if_false, Run.change_apply]
  rw [← hlog]
  rfl

/-- The conversion always makes an object. -/
theorem objectOf_apply (m : Machine) (i : InstanceId) : ∃ m',
    Datum.objectOf i m = .ok m.heap.next m' ∧
      m'.heap = m.heap.withObject i (m.instanceClass i) ∧ m'.claims = (m.claim i).claims := by
  have hclass : (m.claim i).instanceClass i = m.instanceClass i := by rw [claim_eq]; rfl
  let h := m.heap.next
  let t : Handle := ⟨m.heap.size + 1⟩
  let ref := Cell.fresh (.scalar (.ofTarget t))
  let int := Cell.fresh (.scalar (.ofInt64 i.identity.toInt64))
  have hnext (c : Cell) : (m.heap.push c).next = t := m.heap.next_push c
  -- The two new values, before the reference is stored.
  let m₁ := ((m.claim i).alloc (.scalar .undefined)).2
  let m₂ := (m₁.alloc (.scalar (.ofInt64 i.identity.toInt64))).2
  have hheap₂ : m₂.heap = (m.heap.push (.fresh (.scalar .undefined))).push int := by
    rw [← heap_claim m i]
    rfl
  have hcell : m₂.cell h = .fresh (.scalar .undefined) := by
    rw [cell, hheap₂, Heap.get_push_ne _ _ _ (by simp [h, Heap.next, Heap.push]),
      Heap.get_push_next]
  obtain ⟨log, hstore⟩ := store_undefined (m := m₂) (h := h) (by rw [hcell]; rfl)
    (by rw [body, hcell]; rfl) (.ofTarget t)
  let m₃ : Machine := { m₂.setBody h (.scalar (.ofTarget t)) with log := log }
  have hheap₃ : m₃.heap = (m.heap.push ref).push int := by
    show m₂.heap.set h { m₂.cell h with body := .scalar (.ofTarget t) } = _
    rw [hcell, hheap₂]
    exact Heap.set_push_push _ _ _ _
  have htarget (m' : Machine) (c : Cell) (hm' : m'.heap = (m.heap.push ref).push c) :
      m'.target? h = some t := by
    rw [target?, scalar?, body, cell, hm', Heap.get_push_ne _ _ _ (by simp [h, Heap.next, Heap.push]),
      Heap.get_push_next]
    rfl
  -- The class and the record on the referent.
  let m₄ := m₃.onHeap (·.update t ({ · with className := some (m.instanceClass i) }))
  have hheap₄ : m₄.heap = (m.heap.push ref).push
      { int with className := some (m.instanceClass i) } := by
    show m₃.heap.set t { m₃.heap.get t with className := some (m.instanceClass i) } = _
    rw [hheap₃, ← hnext ref, Heap.get_push_next, Heap.set_push_next]
  have hobject : storeObject h (some (m.instanceClass i)) i.identity.toInt64 m₁ = .ok () m₄ := by
    have ht : m₁.heap.next = t := by
      rw [← hnext (.fresh (.scalar .undefined)), ← heap_claim m i]
      rfl
    show (store h (.ofTarget m₁.heap.next) >>= fun _ => bless h (m.instanceClass i)) m₂ = _
    rw [ht, Run.bind_apply, hstore]
    show bless h (m.instanceClass i) m₃ = _
    simp only [bless, Run.look_bind, htarget m₃ int hheap₃]
    rfl
  refine ⟨m₄.attach t ⟨Magic.extension, .bridge, i.identity⟩, ?_, ?_, rfl⟩
  · have hh : ((m.claim i).alloc (.scalar .undefined)).1 = h := by
      rw [Machine.alloc, heap_claim]
    simp only [Datum.objectOf, Run.change_bind, Run.look_bind, hclass, Machine.newScalar,
      Run.modifyGet_bind, hh]
    rw [Run.bind_apply, hobject]
    simp only [Run.look_bind, htarget m₄ _ hheap₄]
    rfl
  · show m₄.heap.set t { m₄.heap.get t with magic := (m₄.heap.get t).magic ++ [_] } = _
    rw [hheap₄, ← hnext ref, Heap.get_push_next, Heap.set_push_next]
    rfl

namespace Machine

variable {S : Set InstanceId} {m m' : Machine} {i : InstanceId} {h t : Handle}

/-- The new object carries the record that its claim is owed. -/
theorem Bridged.objectOf (hm : m.Bridged S) (hS : S.InjOn InstanceId.identity) (hi : i ∈ S)
    {className : String} (hheap : m'.heap = m.heap.withObject i className)
    (hclaims : m'.claims = (m.claim i).claims) : m'.Bridged S := by
  have hclaim : (m.claim i).Bridged S [i.identity] := hm.claim hi hS
  have href := hclaim.push (c := .fresh (.scalar (.ofTarget ⟨m.heap.size + 1⟩)))
    (Cell.proper_of_magic rfl)
  have hobject : Bridged S _ [] := href.push (Cell.proper_standing i className)
  refine hobject.congr ?_ hclaims
  rw [hheap, ← heap_claim m i]
  rfl

end Machine

/-! ### Every course of dealings -/

/-- What host code and programs do with objects, on any interpreter. -/
inductive Dealing where
  /-- Convert an instance to a new object. -/
  | convert (i : InstanceId)
  /-- Any other operation of the runtime. -/
  | operate (op : Operation)
  /-- Give a held handle up. -/
  | drop (v : Held)
  /-- Start an interpreter at a place. -/
  | boot (place : InterpId) (s : Settings)
  /-- Turn to another interpreter. -/
  | focus (i : InterpId)
  /-- Give an interpreter up. -/
  | giveUp (e : Embedded)
  /-- The host's own dealings with its instances. -/
  | onInstances (f : List Instance → List Instance)

namespace Dealing

/-- The machine after a dealing. -/
def leaves : Dealing → Machine → Machine
  | convert i, m => (Datum.objectOf i).final m
  | operate op, m => op.run.final m
  | drop v, m => m.drop v
  | boot place s, m => (Embedded.boot place s).final m
  | focus i, m => m.focus i
  | giveUp e, m => e.drop m
  | onInstances f, m => { m with instances := f m.instances }

/-- The objects that a dealing makes: what the reference refers to, with the instance. -/
def makes : Dealing → Machine → List (Handle × InstanceId)
  | convert i, m =>
    match Datum.objectOf i m with
    | .ok h m' => ((m'.target? h).map (·, i)).toList
    | .error _ _ => []
  | _, _ => []

/-- Instances of a set are converted, and nobody meddles with the records of their objects. -/
def Allowed (S : Set InstanceId) : Dealing → Prop
  | convert i => i ∈ S
  | operate op => op.Apart
  | _ => True

theorem convert_apply (i : InstanceId) (m : Machine) :
    (convert i).makes m = [(⟨m.heap.size + 1⟩, i)] ∧
      ((convert i).leaves m).heap = m.heap.withObject i (m.instanceClass i) ∧
      ((convert i).leaves m).claims = (m.claim i).claims := by
  obtain ⟨m', hr, hheap, hclaims⟩ := objectOf_apply m i
  have htarget : m'.target? m.heap.next = some ⟨m.heap.size + 1⟩ := by
    have hne : m.heap.next ≠ ⟨m.heap.size + 1⟩ := by simp [Heap.next, Heap.size]
    rw [target?, scalar?, body, cell, hheap, Heap.get_withObject, if_neg hne, if_pos rfl]
    rfl
  simp only [makes, leaves, Run.final, hr, htarget]
  exact ⟨rfl, hheap, hclaims⟩

end Dealing

/-- A machine, and the objects that have been made in it: the referent of each, and the instance
that it was made from. -/
structure Census where
  machine : Machine
  objects : List (Handle × InstanceId)

namespace Census

/-- Nothing has been made yet. -/
def start : Census := ⟨.empty, []⟩

def after (s : Census) (d : Dealing) : Census :=
  ⟨d.leaves s.machine, d.makes s.machine ++ s.objects⟩

/-- Some dealings with the instances of a set, one after the other. -/
def Steps (S : Set InstanceId) : Census → Census → Prop :=
  Relation.ReflTransGen fun s s' => ∃ d : Dealing, d.Allowed S ∧ s' = s.after d

def Reachable (S : Set InstanceId) (s : Census) : Prop := Steps S start s

/-- The objects that were made from an instance. -/
def made (s : Census) (i : InstanceId) : Nat := s.objects.countP (·.2 = i)

/-- The objects of an instance that are not freed. -/
def living (s : Census) (i : InstanceId) : Nat :=
  s.objects.countP fun o => o.2 = i ∧ s.machine.isFreed o.1 = false

/-- The objects of an instance that are freed. -/
def gone (s : Census) (i : InstanceId) : Nat :=
  s.objects.countP fun o => o.2 = i ∧ s.machine.isFreed o.1 = true

/-- The objects are the values that stand for instances, until they are freed. -/
structure Matched (S : Set InstanceId) (s : Census) : Prop where
  bridged : s.machine.Bridged S
  distinct : (s.objects.map (·.1)).Nodup
  known : ∀ o ∈ s.objects, o.2 ∈ S ∧ o.1.index < s.machine.heap.size
  stands : ∀ o ∈ s.objects, s.machine.isFreed o.1 = false →
    (s.machine.cell o.1).words = [o.2.identity]
  made : ∀ h, (s.machine.cell h).words ≠ [] → h ∈ s.objects.map (·.1)

variable {S : Set InstanceId} {s s' : Census} {m : Machine} {d : Dealing} {i : InstanceId}

theorem matched_start : Matched S start where
  bridged := ⟨.nil, by simp [start, Machine.empty], by simp [start, Machine.empty],
    by simp [start, Machine.empty, Heap.words, Heap.empty],
    fun _ _ => by simp [start, Machine.empty, Heap.words, Heap.empty, claimsOn],
    fun _ => Cell.proper_of_magic rfl⟩
  distinct := .nil
  known _ ho := by cases ho
  stands _ ho := by cases ho
  made _ hw := absurd rfl hw

/-- A dealing that makes no object. -/
theorem Matched.keeps (hs : Matched S s) (hm : s.machine.Keeps S m) :
    Matched S ⟨m, s.objects⟩ ∧ s.machine.Abides m := by
  obtain ⟨hbridged, habides⟩ := hm _ hs.bridged
  refine ⟨⟨hbridged, hs.distinct, fun o ho => ?_, fun o ho hf => ?_, fun h hw => ?_⟩, habides⟩
  · exact ⟨(hs.known o ho).1, (hs.known o ho).2.trans_le habides.size_le⟩
  · have hbefore : s.machine.isFreed o.1 = false := by
      by_contra hne
      have hfreed := habides.freed o.1 (hs.known o ho).2 (Bool.not_eq_false _ ▸ hne)
      rw [hf] at hfreed
      cases hfreed
    rcases habides.words o.1 with hw | ⟨-, hfreed⟩
    · rw [hw, hs.stands o ho hbefore]
    · rw [hf] at hfreed
      cases hfreed
  · rcases habides.words h with hsame | ⟨hnil, -⟩
    · exact hs.made h (hsame ▸ hw)
    · exact absurd hnil hw

theorem cell_withObject {m' : Machine} {className : String}
    (hheap : m'.heap = m.heap.withObject i className) {h : Handle} (hh : h.index < m.heap.size) :
    m'.cell h = m.cell h := by
  have hreferent : h ≠ ⟨m.heap.size + 1⟩ := by rintro rfl; simp at hh
  have href : h ≠ m.heap.next := by rintro rfl; exact lt_irrefl _ hh
  rw [cell, hheap, Heap.get_withObject, if_neg hreferent, if_neg href, cell]

/-- A conversion makes one object more. -/
theorem Matched.convert (hs : Matched S s) (hS : S.InjOn InstanceId.identity) (hi : i ∈ S) :
    Matched S (s.after (.convert i)) := by
  obtain ⟨hmakes, hheap, hclaims⟩ := Dealing.convert_apply i s.machine
  have hbridged := hs.bridged.objectOf hS hi hheap hclaims
  rw [after, hmakes, List.singleton_append]
  generalize (Dealing.convert i).leaves s.machine = m' at hheap hbridged ⊢
  refine ⟨hbridged, ?_, fun o ho => ?_, fun o ho hf => ?_, fun h hw => ?_⟩
  · refine List.nodup_cons.2 ⟨fun hmem => ?_, hs.distinct⟩
    obtain ⟨o, ho, he⟩ := List.mem_map.1 hmem
    have hlt := (hs.known o ho).2
    rw [he] at hlt
    simp at hlt
  · simp only [hheap, Heap.size_withObject]
    rcases List.mem_cons.1 ho with rfl | ho
    · exact ⟨hi, Nat.lt_succ_self _⟩
    · exact ⟨(hs.known o ho).1, (hs.known o ho).2.trans_le (Nat.le_add_right _ _)⟩
  · rcases List.mem_cons.1 ho with rfl | ho
    · rw [cell, hheap, Heap.get_withObject, if_pos rfl, Cell.words_standing]
    · have hcell := cell_withObject hheap (hs.known o ho).2
      rw [isFreed, body, hcell] at hf
      rw [hcell]
      exact hs.stands o ho hf
  · rw [cell, hheap, Heap.get_withObject] at hw
    split at hw
    next he => exact he ▸ List.mem_cons_self
    next =>
      split at hw
      · exact absurd rfl hw
      · exact List.mem_cons_of_mem _ (hs.made h hw)

/-- What a dealing makes is added, and what is freed stays freed. -/
structure Ages (s s' : Census) : Prop where
  objects : s.objects ⊆ s'.objects
  freed : ∀ o ∈ s.objects, s.machine.isFreed o.1 = true → s'.machine.isFreed o.1 = true

/-- One dealing. -/
theorem Matched.after (hs : Matched S s) (hS : S.InjOn InstanceId.identity) (hd : d.Allowed S) :
    Matched S (s.after d) ∧ s.Ages (s.after d) := by
  have hkeeps {m : Machine} (hm : s.machine.Keeps S m) :
      Matched S ⟨m, s.objects⟩ ∧ s.Ages ⟨m, s.objects⟩ := by
    obtain ⟨hmatched, habides⟩ := hs.keeps hm
    exact ⟨hmatched, List.Subset.refl _, fun o ho => habides.freed o.1 (hs.known o ho).2⟩
  cases d with
  | convert i =>
    refine ⟨hs.convert hS hd, List.subset_append_right _ _, fun o ho hf => ?_⟩
    obtain ⟨-, hheap, -⟩ := Dealing.convert_apply i s.machine
    show ((Dealing.convert i).leaves s.machine).isFreed o.1 = true
    rwa [isFreed, body, cell_withObject hheap (hs.known o ho).2]
  | operate op =>
    exact hkeeps ((Manner.keeping_detached hS).final (Manner.keeping_operation hS op hd) _)
  | drop v => exact hkeeps (.drop hS _ v)
  | boot place settings =>
    have hM := Manner.keeping_placeless hS
    exact hkeeps (hM.final (hM.boot place settings) _)
  | focus i => exact hkeeps (.focus _ i)
  | giveUp e => exact hkeeps ((Manner.keeping_placeless hS).giveUp e _)
  | onInstances f => exact hkeeps (.of_eq rfl rfl)

/-- A course of dealings. -/
theorem Steps.matched (hsteps : Steps S s s') (hS : S.InjOn InstanceId.identity)
    (hs : Matched S s) : Matched S s' ∧ s.Ages s' := by
  induction hsteps with
  | refl => exact ⟨hs, List.Subset.refl _, fun _ _ hf => hf⟩
  | tail _ hstep ih =>
    obtain ⟨d, hd, rfl⟩ := hstep
    obtain ⟨hmatched, hages⟩ := ih.1.after hS hd
    exact ⟨hmatched, List.Subset.trans ih.2.objects hages.objects,
      fun o ho hf => hages.freed o (ih.2.objects ho) (ih.2.freed o ho hf)⟩

/-! ### Claims and objects -/

theorem Matched.freed_iff (hs : Matched S s) {o : Handle × InstanceId} (ho : o ∈ s.objects) :
    s.machine.isFreed o.1 = true ↔ (s.machine.cell o.1).words = [] := by
  constructor
  · exact (hs.bridged.proper o.1).freed
  · intro hw
    by_contra hf
    rw [hs.stands o ho (Bool.eq_false_iff.2 hf)] at hw
    cases hw

/-- The records about an instance are those of its objects that are not freed. -/
theorem Matched.count_words (hs : Matched S s) (hS : S.InjOn InstanceId.identity) (hi : i ∈ S) :
    s.machine.heap.words.count i.identity = s.living i := by
  let stands (k : Nat) : Bool := (s.machine.heap.get ⟨k⟩).words = [i.identity]
  let lives (o : Handle × InstanceId) : Bool := o.2 = i ∧ s.machine.isFreed o.1 = false
  have hcount : s.machine.heap.words.count i.identity
      = ((List.range s.machine.heap.size).filter stands).length := by
    rw [Heap.words_eq, ← List.countP_eq_length_filter]
    refine count_flatMap_of_ite fun k _ => ?_
    by_cases hnil : (s.machine.heap.get ⟨k⟩).words = []
    · simp [stands, hnil]
    · obtain ⟨o, ho, he⟩ := List.mem_map.1 (hs.made ⟨k⟩ hnil)
      have hf : s.machine.isFreed o.1 = false := by
        rw [Bool.eq_false_iff, ne_eq, hs.freed_iff ho, he]
        exact hnil
      have hwords := hs.stands o ho hf
      rw [he, cell] at hwords
      simp [stands, hwords, List.count_singleton]
  have hsame : ((List.range s.machine.heap.size).filter stands).Perm
      ((s.objects.filter lives).map (·.1.index)) := by
    have hnodup : ((s.objects.filter lives).map (·.1.index)).Nodup := by
      have hkeys : ((s.objects.filter lives).map (·.1)).Nodup :=
        hs.distinct.sublist (List.filter_sublist.map _)
      have hindex := hkeys.map (f := Handle.index) fun h k he => by cases h; cases k; simp_all
      rwa [List.map_map] at hindex
    refine (List.perm_ext_iff_of_nodup (List.nodup_range.filter _) hnodup).2 fun k => ?_
    simp only [List.mem_filter, List.mem_range, List.mem_map, stands, lives, decide_eq_true_eq]
    constructor
    · rintro ⟨-, hwords⟩
      obtain ⟨o, ho, he⟩ := List.mem_map.1 (hs.made ⟨k⟩ (by rw [cell, hwords]; simp))
      have hf : s.machine.isFreed o.1 = false := by
        rw [Bool.eq_false_iff, ne_eq, hs.freed_iff ho, he, cell, hwords]
        simp
      have hown := hs.stands o ho hf
      rw [he, cell, hwords, List.singleton_inj] at hown
      exact ⟨o, ⟨ho, (hS hi (hs.known o ho).1 hown).symm, hf⟩, by rw [he]⟩
    · rintro ⟨o, ⟨ho, rfl, hf⟩, rfl⟩
      exact ⟨(hs.known o ho).2, hs.stands o ho hf⟩
  rw [hcount, hsame.length_eq, List.length_map, ← List.countP_eq_length_filter]
  rfl

theorem Matched.claimsOn (hs : Matched S s) (hS : S.InjOn InstanceId.identity) (hi : i ∈ S) :
    s.machine.claimsOn i = s.living i := by
  rw [hs.bridged.claims i hi, List.append_nil, hs.count_words hS hi]

theorem living_add_gone (s : Census) (i : InstanceId) : s.living i + s.gone i = s.made i := by
  unfold living gone made
  induction s.objects with
  | nil => rfl
  | cons o rest ih =>
    have hone : ((if o.2 = i ∧ s.machine.isFreed o.1 = false then 1 else 0)
        + if o.2 = i ∧ s.machine.isFreed o.1 = true then 1 else 0) = if o.2 = i then 1 else 0 := by
      cases s.machine.isFreed o.1 <;> simp
    simp only [List.countP_cons, decide_eq_true_eq]
    omega

/-- An instance is in the map of claims while there are claims on it. -/
theorem count_claims (hs : Matched S s) : (s.machine.claims.map (·.1)).count i
    = if 0 < s.machine.claimsOn i then 1 else 0 := by
  split
  next hpos =>
    refine List.count_eq_one_of_mem hs.bridged.once ?_
    by_contra hnot
    rw [claimsOn_eq, claimsIn_eq_zero hnot] at hpos
    exact lt_irrefl _ hpos
  next hzero =>
    refine List.count_eq_zero.2 fun hmem => hzero ?_
    rw [claimsOn_eq]
    exact claimsIn_pos hs.bridged.positive hmem

/-- An object is known by the instance that it was made from. -/
theorem Matched.bridgedInstance? (hs : Matched S s) (hS : S.InjOn InstanceId.identity)
    {o : Handle × InstanceId} (ho : o ∈ s.objects) (hf : s.machine.isFreed o.1 = false)
    {ref : Handle} (href : s.machine.target? ref = some o.1) :
    s.machine.bridgedInstance? ref = some o.2 := by
  obtain ⟨g, hg, hword⟩ := List.map_eq_singleton_iff.1 (hs.stands o ho hf)
  have hrecord : s.machine.findMagic o.1 Magic.extension .bridge = some g := by
    rw [findMagic, ← List.head?_filter]
    exact congrArg List.head? hg
  have hknown : o.2 ∈ s.machine.claims.map (·.1) := by
    by_contra hnot
    have hnone := hs.bridged.claims o.2 (hs.known o ho).1
    rw [claimsOn_eq, claimsIn_eq_zero hnot, List.append_nil] at hnone
    have hmem : o.2.identity ∈ s.machine.heap.words :=
      Heap.mem_words (h := o.1) (by rw [← cell, hs.stands o ho hf]; exact List.mem_cons_self)
    exact absurd (List.count_pos_iff.2 hmem) (by omega)
  have hclaimed : s.machine.claimed? g.word = some o.2 := by
    obtain ⟨c, hc, hkey⟩ := List.mem_map.1 hknown
    rw [claimed?, hword]
    cases hfind : s.machine.claims.find? (·.1.identity = o.2.identity) with
    | none =>
      rw [List.find?_eq_none] at hfind
      exact absurd (by rw [hkey]; simp) (hfind c hc)
    | some d =>
      have hid : d.1.identity = o.2.identity := by simpa using List.find?_some hfind
      have hd := hs.bridged.known d (List.mem_of_find?_eq_some hfind)
      rw [Option.map_some, hS hd (hs.known o ho).1 hid]
  simp only [Machine.bridgedInstance?, href, Option.bind_eq_bind, Option.bind_some, hrecord,
    hclaimed]

/-- However instances are converted and their objects passed around, blessed again, overwritten and
released, and interpreters started and given up: the claims on an instance are its objects that
are not freed. The instance is in the map, once, while there are any. Every object that is freed
has given back one claim, and stays freed. Every other one is known by its instance. -/
theorem reachable_claims (hS : S.InjOn InstanceId.identity) (hs : Reachable S s) :
    (∀ i ∈ S, s.machine.claimsOn i = s.living i ∧
      (s.machine.claims.map (·.1)).count i = (if 0 < s.living i then 1 else 0) ∧
      s.machine.claimsOn i + s.gone i = s.made i) ∧
    (∀ o ∈ s.objects, s.machine.isFreed o.1 = true →
      ∀ s', Steps S s s' → o ∈ s'.objects ∧ s'.machine.isFreed o.1 = true) ∧
    (s.objects.map (·.1)).Nodup ∧
    ∀ o ∈ s.objects, s.machine.isFreed o.1 = false →
      ∀ ref, s.machine.target? ref = some o.1 → s.machine.bridgedInstance? ref = some o.2 := by
  have hmatched := (Steps.matched hs hS matched_start).1
  refine ⟨fun i hi => ?_, fun o ho hf s' hsteps => ?_, hmatched.distinct,
    fun o ho hf ref href => hmatched.bridgedInstance? hS ho hf href⟩
  · have hclaims := hmatched.claimsOn hS hi
    refine ⟨hclaims, ?_, ?_⟩
    · rw [count_claims hmatched, hclaims]
    · rw [hclaims, living_add_gone]
  · have hages := (hsteps.matched hS hmatched).2
    exact ⟨hages.objects ho, hages.freed o ho hf⟩

/-- An instance is converted twice on a new interpreter, and the first reference is released. -/
def oneOfTwo : Census :=
  (((start.after (.boot .first .standard)).after (.convert ⟨0⟩)).after (.convert ⟨0⟩)).after
    (.operate (.onScalar (.release ⟨6⟩)))

/-- The object of the first reference is freed for good, and its claim is given back. The one of
the second holds the other claim. -/
theorem claims_of_oneOfTwo :
    Reachable InstanceId.Addressable oneOfTwo ∧ oneOfTwo.machine.claimsOn ⟨0⟩ = 1 ∧
      (oneOfTwo.machine.claims.map (·.1)).count ⟨0⟩ = 1 ∧
      oneOfTwo.machine.bridgedInstance? ⟨8⟩ = some ⟨0⟩ ∧
      ∀ s', Steps InstanceId.Addressable oneOfTwo s' → s'.machine.isFreed ⟨7⟩ = true := by
  have hzero : (⟨0⟩ : InstanceId) ∈ InstanceId.Addressable := by
    simp [InstanceId.Addressable]
  have hreach : Reachable InstanceId.Addressable oneOfTwo :=
    (((Relation.ReflTransGen.single ⟨.boot .first .standard, trivial, rfl⟩).tail
      ⟨.convert ⟨0⟩, hzero, rfl⟩).tail ⟨.convert ⟨0⟩, hzero, rfl⟩).tail
      ⟨.operate (.onScalar (.release ⟨6⟩)), trivial, rfl⟩
  obtain ⟨hclaims, hgone, -, hknown⟩ := reachable_claims InstanceId.identity_injOn hreach
  obtain ⟨hcount, honce, -⟩ := hclaims ⟨0⟩ hzero
  have hone : oneOfTwo.living ⟨0⟩ = 1 := by decide +kernel
  have hobjects : oneOfTwo.objects = [(⟨9⟩, ⟨0⟩), (⟨7⟩, ⟨0⟩)] := by decide +kernel
  refine ⟨hreach, hcount.trans hone, ?_, ?_, fun s' hsteps => ?_⟩
  · rw [honce, hone]
    rfl
  · exact hknown (⟨9⟩, ⟨0⟩) (by rw [hobjects]; simp) (by decide +kernel) _ (by decide +kernel)
  · exact (hgone (⟨7⟩, ⟨0⟩) (by rw [hobjects]; simp) (by decide +kernel) s' hsteps).2

end Census

end ValueMachine

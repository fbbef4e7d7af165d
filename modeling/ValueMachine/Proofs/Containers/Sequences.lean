import ValueMachine.Proofs.Containers.Deletions
import ValueMachine.Proofs.Containers.Gifts
import ValueMachine.Proofs.Documents.Converting

/-! Sequences of operations on an array in the hands of host code. The array behaves as a list of slots
that hold a value or nothing: an index before zero counts from the end, a write past the end leaves
holes, and an operation that needs a slot before the first is refused and changes nothing. An operation
ends without an answer only where the list would become too long, or where the value to be stored
cannot be made. -/

namespace ValueMachine

/-! ### Lists of slots -/

namespace Slots

variable {xs ys : Slots} {i : Int} {n p q : Nat} {v : Handle} {o : Option Handle}

/-- The position that an index denotes among `n` slots: an index before zero counts from the end. -/
def Denotes (n : Nat) (i : Int) (p : Nat) : Prop := (p : Int) = if i < 0 then n + i else i

theorem Denotes.unique (hp : Denotes n i p) (hq : Denotes n i q) : p = q := by
  unfold Denotes at hp hq
  omega

theorem exists_denotes (hi : ¬n + i < 0) : ∃ p, Denotes n i p := by
  refine ⟨(if i < 0 then n + i else i).toNat, ?_⟩
  unfold Denotes
  split <;> omega

theorem place?_eq_some_iff : place? n i = some p ↔ Denotes n i p := by
  unfold place? Denotes
  split
  next hi =>
    rw [if_neg hi.not_gt, Option.some.injEq]
    omega
  next hi =>
    rw [if_pos (lt_of_not_ge hi)]
    split
    next => rw [Option.some.injEq]; omega
    next hn =>
      refine iff_of_false nofun fun hp => hn ?_
      omega

/-- What is found at an index: the value of the slot that it denotes, if there is one. -/
def Finds (xs : Slots) (i : Int) (o : Option Handle) : Prop :=
  ∀ h, o = some h ↔ ∃ p, Denotes xs.length i p ∧ xs[p]? = some (some h)

theorem mem_owned_of_getElem? (hv : xs[p]? = some (some v)) : v ∈ owned xs :=
  List.mem_filterMap.2 ⟨_, List.mem_of_getElem? hv, rfl⟩

theorem Finds.mem_owned (hf : xs.Finds i (some v)) : v ∈ owned xs := by
  obtain ⟨p, -, hv⟩ := (hf v).1 rfl
  exact mem_owned_of_getElem? hv

theorem finds_fetch? (xs : Slots) (i : Int) : xs.Finds i (xs.fetch? i) := by
  intro h
  simp only [fetch?, Option.bind_eq_bind, Option.bind_eq_some_iff, place?_eq_some_iff,
    Option.join_eq_some_iff]

/-- A value is written at a position: the other slots stay, and holes are before it if it is past the
end. -/
structure Writes (xs : Slots) (p : Nat) (v : Handle) (ys : Slots) : Prop where
  length : ys.length = max xs.length (p + 1)
  value : ys[p]? = some (some v)
  other : ∀ q, q < xs.length → q ≠ p → ys[q]? = xs[q]?
  hole : ∀ q, xs.length ≤ q → q < p → ys[q]? = some none

theorem writes_put (xs : Slots) (p : Nat) (v : Handle) : xs.Writes p v (xs.put p v).2 where
  length := length_put xs p v
  value := getElem?_put_self xs p v
  other q hq hne := getElem?_put_ne xs v hq hne
  hole q hq hp := by
    rw [put, List.getElem?_set_ne hp.ne', List.getElem?_append_right hq, List.getElem?_replicate,
      if_pos (by omega)]

/-- What is written at an index is found there. -/
theorem Writes.finds (hw : xs.Writes p v ys) (hp : Denotes xs.length i p) : ys.Finds i (some v) := by
  -- an index before zero denotes a slot that is there, and so the length stays
  have hp' : Denotes ys.length i p := by
    unfold Denotes at hp ⊢
    rw [hw.length]
    split at hp <;> omega
  intro h
  rw [Option.some.injEq]
  constructor
  · rintro rfl
    exact ⟨p, hp', hw.value⟩
  · rintro ⟨q, hq, hv⟩
    obtain rfl := hp'.unique hq
    rw [hw.value, Option.some.injEq, Option.some.injEq] at hv
    exact hv

end Slots

/-! ### An interpreter in focus for a while -/

namespace Machine

variable {m : Machine} {held : List Handle}

/-- Another interpreter has been in focus. -/
def revisit (m : Machine) (i : InterpId) : Machine := (m.focus i).focus m.here

/-- A machine is another one but for the order in which the other interpreters wait. -/
structure Resumes (m m' : Machine) : Prop where
  eq : m' = { m with others := m'.others }
  others : m'.others.Perm m.others

/-- To have another interpreter in focus for a while changes nothing, and it may come again. -/
theorem resumes_revisit (hids : (m.here :: m.others.map (·.1)).Nodup) (i : InterpId) :
    m.Resumes (m.revisit i) ∧ (m.revisit i).focus i = m.focus i := by
  unfold Machine.revisit
  by_cases hi : i = m.here
  · have hfocus : m.focus i = m := if_pos hi
    have hself : m.focus m.here = m := if_pos rfl
    rw [hfocus, hself, hfocus]
    exact ⟨⟨rfl, .refl _⟩, rfl⟩
  · cases hfind : m.others.find? (·.1 = i) with
    | none =>
      have hfocus : m.focus i = m := by rw [Machine.focus, if_neg hi, hfind]
      have hself : m.focus m.here = m := if_pos rfl
      rw [hfocus, hself, hfocus]
      exact ⟨⟨rfl, .refl _⟩, rfl⟩
    | some found =>
      obtain ⟨j, other⟩ := found
      obtain rfl : j = i := by simpa using List.find?_some hfind
      replace hids := List.nodup_cons.1 hids
      have hperm := perm_cons_filter hids.2 (List.mem_of_find?_eq_some hfind)
      -- the interpreter in focus is not among those that wait
      have hrest : (m.others.filter (·.1 ≠ j)).filter (·.1 ≠ m.here) = m.others.filter (·.1 ≠ j) := by
        refine List.filter_eq_self.2 fun p hp => ?_
        have hne : p.1 ≠ m.here := fun he =>
          hids.1 (he ▸ List.mem_map_of_mem (List.mem_of_mem_filter hp))
        simpa using hne
      have hfocus : m.focus j = { m with
          interp := other
          here := j
          others := (m.here, m.interp) :: m.others.filter (·.1 ≠ j) } := by
        rw [Machine.focus, if_neg hi, hfind]
      have hback : (m.focus j).focus m.here
          = { m with others := (j, other) :: m.others.filter (·.1 ≠ j) } := by
        rw [hfocus, Machine.focus, if_neg (Ne.symm hi), List.find?_cons_of_pos (by simp),
          List.filter_cons_of_neg (by simp), hrest]
      rw [hback, hfocus]
      refine ⟨⟨rfl, hperm.symm⟩, ?_⟩
      rw [Machine.focus, if_neg hi, List.find?_cons_of_pos (by simp),
        List.filter_cons_of_neg (by simp), List.filter_filter]
      simp only [Bool.and_self]

theorem Orderly.revisit (hm : m.Orderly held) (i : InterpId) :
    m.Resumes (m.revisit i) ∧ (m.revisit i).focus i = m.focus i :=
  resumes_revisit hm.ids i

end Machine

/-! ### Operations -/

namespace HostArray

open Machine

/-- An operation on an array. -/
inductive Operation where
  | set (i : Int) (d : Datum)
  | get (i : Int)
  | lvalue (i : Int)
  | push (d : Datum)
  | pop
  | shift
  | unshift (d : Datum)
  | contains (i : Int)
  | clear

/-- What an operation answers: nothing, the value that it has found, or whether there is one. -/
inductive Answer where
  | done
  | found (o : Option Held)
  | present (b : Bool)

/-- How an operation ends. -/
inductive Ending where
  | answers (w : Answer)
  | fails (f : Failure)
  | exits (e : Exit)

/-- The values that are held with an answer. -/
def Answer.handles : Answer → List Handle
  | found (some v) => [v.handle]
  | _ => []

/-- The end of an operation, and the machine then. -/
def Ending.of (x : Bridge Answer) (m : Machine) : Ending × Machine :=
  match x.run m with
  | .ok (.ok w) m' => (answers w, m')
  | .ok (.error f) m' => (fails f, m')
  | .error e m' => (exits e, m')

namespace Operation

/-- The operation on an array. -/
def run (a : Held) : Operation → Bridge Answer
  | set i d => (fun _ => .done) <$> HostArray.set a i d
  | get i => .found <$> Bridge.ofRun (get? a i)
  | lvalue i => (.found ∘ some) <$> HostArray.lvalue a i
  | push d => (fun _ => .done) <$> Bridge.ofRun (HostArray.push a d)
  | pop => .found <$> Bridge.ofRun (pop? a)
  | shift => .found <$> Bridge.ofRun (shift? a)
  | unshift d => (fun _ => .done) <$> Bridge.ofRun (HostArray.unshift a d)
  | contains i => .present <$> Bridge.ofRun (HostArray.contains a i)
  | clear => (fun _ => .done) <$> Bridge.ofRun (HostArray.clear a)

/-- The index at which the operation needs a slot. -/
def created? : Operation → Option Int
  | set i _ | lvalue i => some i
  | _ => none

/-- The host value that the operation stores. -/
def datum? : Operation → Option Datum
  | set _ d | push d | unshift d => some d
  | _ => none

/-- The values that go into the operation. -/
def handles (op : Operation) : List Handle := (op.datum?.map Datum.handles).getD []

/-- The operation needs a slot before the first. -/
def Refused (op : Operation) (xs : Slots) : Prop := ∃ i, op.created? = some i ∧ xs.length + i < 0

/-- The operation needs more slots than a sequence can have. -/
inductive Overflows (xs : Slots) : Operation → Prop
  | set {i : Int} {p : Nat} (d : Datum) : Slots.Denotes xs.length i p → slotLimit < p + 1 →
      Overflows xs (.set i d)
  | lvalue {i : Int} {p : Nat} : xs.Finds i none → Slots.Denotes xs.length i p →
      slotLimit < p + 1 → Overflows xs (.lvalue i)
  | unshift (d : Datum) : slotLimit < xs.length + 1 → Overflows xs (.unshift d)

end Operation

/-- A new value has been made for a host value, and is as it was made. -/
structure Stored (m m' : Machine) (d : Datum) (v : Handle) : Prop where
  is_new : m.heap.size ≤ v.index
  made : ∃ m₁, d.toValue m = .ok v m₁ ∧ m'.body v = m₁.body v

/-- What an operation does to the list, and what it answers. The machines are those before and after
it with the interpreter of the array in focus. -/
inductive Acts (m m' : Machine) (xs : Slots) : Operation → Answer → Slots → Prop
  | set {i : Int} {p : Nat} {d : Datum} {v : Handle} {ys : Slots} :
      Slots.Denotes xs.length i p → xs.Writes p v ys → ys.Finds i (some v) → Stored m m' d v →
      Acts m m' xs (.set i d) .done ys
  | get {i : Int} {o : Option Handle} : xs.Finds i o →
      Acts m m' xs (.get i) (.found (o.map (⟨·, m.here⟩))) xs
  | lvalue {i : Int} {h : Handle} : xs.Finds i (some h) →
      Acts m m' xs (.lvalue i) (.found (some ⟨h, m.here⟩)) xs
  /-- Where there is no value a new undefined one is written. -/
  | lvalueNew {i : Int} {p : Nat} {v : Handle} {ys : Slots} : xs.Finds i none →
      Slots.Denotes xs.length i p → xs.Writes p v ys → ys.Finds i (some v) →
      m.heap.size ≤ v.index → m'.body v = .scalar .undefined → Acts m m' xs (.lvalue i) (.found (some ⟨v, m.here⟩)) ys
  | push {d : Datum} {v : Handle} : Stored m m' d v →
      Acts m m' xs (.push d) .done (xs ++ [some v])
  | pop : Acts m m' xs .pop (.found (xs.getLast?.join.map (⟨·, m.here⟩))) xs.dropLast
  | shift : Acts m m' xs .shift (.found (xs.head?.join.map (⟨·, m.here⟩))) xs.tail
  | unshift {d : Datum} {v : Handle} : Stored m m' d v →
      Acts m m' xs (.unshift d) .done (some v :: xs)
  | contains {i : Int} {o : Option Handle} : xs.Finds i o →
      Acts m m' xs (.contains i) (.present o.isSome) xs
  | clear : Acts m m' xs .clear .done []

/-- What an operation does shows in the bodies alone. -/
theorem Acts.congr {m m' m₁ : Machine} {xs ys : Slots} {op : Operation} {w : Answer}
    (hacts : Acts m m' xs op w ys) (hbody : m₁.body = m'.body) : Acts m m₁ xs op w ys := by
  have hstored {d : Datum} {v : Handle} (hv : Stored m m' d v) : Stored m m₁ d v := by
    obtain ⟨m₂, hr, hmade⟩ := hv.made
    exact ⟨hv.is_new, m₂, hr, (congrFun hbody v).trans hmade⟩
  cases hacts with
  | set hp hwrites hfinds hv => exact .set hp hwrites hfinds (hstored hv)
  | get hfinds => exact .get hfinds
  | lvalue hfinds => exact .lvalue hfinds
  | lvalueNew hnone hp hwrites hfinds hnew hv =>
    exact .lvalueNew hnone hp hwrites hfinds hnew ((congrFun hbody _).trans hv)
  | push hv => exact .push (hstored hv)
  | pop => exact .pop
  | shift => exact .shift
  | unshift hv => exact .unshift (hstored hv)
  | contains hfinds => exact .contains hfinds
  | clear => exact .clear

/-- Why an operation ends without an answer: the list would become too long, or the making of the value
to be stored ends so. -/
inductive Stops (m : Machine) (xs : Slots) (op : Operation) : Exit → Prop
  | overflow : op.Overflows xs → Stops m xs op (.aborted (some "capacity overflow"))
  | unmade {d : Datum} {e : Exit} {m₁ : Machine} : op.datum? = some d → d.toValue m = .error e m₁ →
      Stops m xs op e

/-- What an operation may write: the array, and the values that go into it. -/
def Operation.writable (op : Operation) (h : Handle) : Writable := ⟨op.handles, [h]⟩

/-- How an operation on an array with these slots ends, and with which slots. Beside the array it writes
at most what goes into it, and where it ends without an answer other scalars at most. -/
inductive Ends (a : Held) (m : Machine) (xs : Slots) (op : Operation) :
    Ending → Machine → Slots → Prop
  | answers {w : Answer} {m' : Machine} {ys : Slots} : ¬op.Refused xs → ¬op.Overflows xs →
      Acts (m.focus a.owner) m' xs op w ys → m.Leaves (op.writable a.handle).Bars m' →
      Ends a m xs op (.answers w) m' ys
  | fails {i : Int} {m' : Machine} : op.created? = some i → xs.length + i < 0 → m.Resumes m' →
      Ends a m xs op (.fails (.elementMissing i)) m' xs
  | exits {e : Exit} {m' : Machine} : ¬op.Refused xs → Stops (m.focus a.owner) xs op e →
      m.Leaves (op.writable a.handle).BarsAll m' → Ends a m xs op (.exits e) m' xs

/-! ### The operation with the interpreter of the array in focus -/

/-- The interpreter in focus before comes back. -/
def Ending.back (i : InterpId) : EStateM.Result Exit Machine Answer → Ending × Machine
  | .ok w m => (answers w, m.focus i)
  | .error e m => (exits e, m.focus i)

section Focus

variable {α : Type} {m : Machine} {held : List Handle} {xs : Slots} {a : Held} {f : α → Answer}

theorem Ending.of_ofRun (y : Run α) (i : InterpId) :
    Ending.of (f <$> Bridge.ofRun (onInterpreter i y)) m = back m.here ((f <$> y) (m.focus i)) := by
  rw [Ending.of, ExceptT.run_map, map_eq_pure_bind, Run.bind_apply, Bridge.ofRun_apply, onInterpreter,
    Run.look_bind, Run.change_bind, Run.always_apply, map_eq_pure_bind, Run.bind_apply]
  cases y (m.focus i) <;> rfl

theorem size_apply (hb : m.body a.handle = .array xs) :
    size a m = .ok xs.length (m.revisit a.owner) := by
  have hb' : (m.focus a.owner).body a.handle = .array xs := by rwa [body, cell, heap_focus]
  rw [size, onInterpreter, Run.look_bind, Run.change_bind, Run.always_apply, arrayLength,
    Run.bind_of_ok (slots_apply hb')]
  rfl

/-- The check of the index comes first, with the interpreter of the array in focus as well. -/
theorem Ending.of_checked (hm : m.Orderly held) (hb : m.body a.handle = .array xs) (i : Int)
    (y : Run α) : Ending.of (f <$> (do
        checkCreatable a i
        Bridge.ofRun (onInterpreter a.owner y))) m
      = if xs.length + i < 0 then (fails (.elementMissing i), m.revisit a.owner)
        else back m.here ((f <$> y) (m.focus a.owner)) := by
  have hsize : (Bridge.ofRun (size a)).run m = .ok (.ok xs.length) (m.revisit a.owner) := by
    rw [Bridge.ofRun_apply, size_apply hb]
  have hcheck : (checkCreatable a i).run m
      = .ok (if xs.length + i < 0 then .error (.elementMissing i) else .ok ()) (m.revisit a.owner) := by
    rw [checkCreatable, Bridge.bind_apply, hsize]
    by_cases hi : xs.length + i < 0
    · have hcond : (decide (i < 0) && decide (i.natAbs > xs.length)) = true := by
        rw [Bool.and_eq_true, decide_eq_true_iff, decide_eq_true_iff]
        omega
      rw [if_pos hi]
      exact congrArg (fun x : Bridge Unit => x.run (m.revisit a.owner)) (if_pos hcond)
    · have hcond : ¬(decide (i < 0) && decide (i.natAbs > xs.length)) = true := by
        rw [Bool.and_eq_true, decide_eq_true_iff, decide_eq_true_iff]
        omega
      rw [if_neg hi]
      exact congrArg (fun x : Bridge Unit => x.run (m.revisit a.owner)) (if_neg hcond)
  rw [Ending.of, ExceptT.run_map, map_eq_pure_bind, Run.bind_apply, Bridge.bind_apply, hcheck]
  by_cases hi : xs.length + i < 0
  · rw [if_pos hi, if_pos hi]
    rfl
  · obtain ⟨⟨hresumed, -⟩, hfocus⟩ := hm.revisit a.owner
    have hhere : (m.revisit a.owner).here = m.here := by rw [hresumed]
    rw [if_neg hi, if_neg hi, ← hhere, ← hfocus, ← of_ofRun, Ending.of, ExceptT.run_map,
      map_eq_pure_bind, Run.bind_apply]

/-- The operation once the interpreter of the array is in focus. -/
def Operation.inner (h : Handle) : Operation → Run Answer
  | set i d => (fun _ => .done) <$> (do
    match ← arrayStore h i (← d.toValue) with
    | some former => Run.change (·.release former)
    | none => pure ())
  | get i => .found <$> (do holdSome (← arrayFetch? h i))
  | lvalue i => (.found ∘ some) <$> (do hold (← arrayFetchOrNew h i))
  | push d => (fun _ => .done) <$> (do arrayPush h (← d.toValue))
  | pop => .found <$> (do adoptSome (← arrayPop h))
  | shift => .found <$> (do adoptSome (← arrayShift h))
  | unshift d => (fun _ => .done) <$> (do
    let fresh ← d.toValue
    arrayUnshift h 1
    let _ ← arrayStore h 0 fresh)
  | contains i => .present <$> arrayHas h i
  | clear => (fun _ => .done) <$> arrayClear h

variable {op : Operation}

theorem Ending.of_refused (hm : m.Orderly held) (hb : m.body a.handle = .array xs) {i : Int}
    (hop : op.created? = some i) (hi : xs.length + i < 0) :
    Ending.of (op.run a) m = (fails (.elementMissing i), m.revisit a.owner) := by
  cases op with
  | set j d | lvalue j =>
    cases hop
    exact (of_checked hm hb _ _).trans (if_pos hi)
  | _ => cases hop

theorem Ending.of_inner (hm : m.Orderly held) (hb : m.body a.handle = .array xs)
    (hop : ¬op.Refused xs) :
    Ending.of (op.run a) m = back m.here (op.inner a.handle (m.focus a.owner)) := by
  cases op with
  | set i d | lvalue i => exact (of_checked hm hb _ _).trans (if_neg fun hi => hop ⟨_, rfl, hi⟩)
  | _ => exact of_ofRun _ _

end Focus

/-! ### Each operation -/

section Serve

variable {m m' : Machine} {held : List Handle} {xs ys : Slots} {h v : Handle} {op : Operation} {d : Datum}
  {i : Int} {p : Nat} {W : Writable}

/-- The end of an operation with the interpreter of the array in focus. -/
def Operation.Serves (op : Operation) (h : Handle) (m : Machine) (held : List Handle) (xs : Slots) :
    EStateM.Result Exit Machine Answer → Prop
  | .ok w m' => ¬op.Overflows xs ∧ (∃ ys, Acts m m' xs op w ys ∧ m'.body h = .array ys) ∧
      m'.Orderly (w.handles ++ h :: held) ∧ m.Leaves (op.writable h).Bars m'
  | .error e m' => Stops m xs op e ∧ m'.body h = .array xs ∧
      (∃ lost, m'.Orderly (lost ++ h :: held)) ∧ m.Leaves (op.writable h).BarsAll m'

/-- A value has been made for an operation on an array, which is as it was. -/
structure Makes (op : Operation) (h : Handle) (m : Machine) (held : List Handle) (xs : Slots)
    (d : Datum) (v : Handle) (m' : Machine) : Prop where
  run : d.toValue m = .ok v m'
  is_new : m.heap.size ≤ v.index
  orderly : m'.Orderly (v :: h :: held)
  body : m'.body h = .array xs
  leaves : m.Leaves (op.writable h).Bars m'

theorem index_lt_of_array (hb : m.body h = .array xs) : h.index < m.heap.size :=
  index_lt_of_not_isFreed (by rw [isFreed, hb]; rfl)

theorem Makes.ne (hv : Makes op h m held xs d v m') (hb : m.body h = .array xs) : v ≠ h := by
  have hh := index_lt_of_array hb
  rintro rfl
  have := hv.is_new
  omega

/-- The value that an operation stores is made, or the operation ends as the making does. -/
theorem serves_or_makes (op : Operation) (hm : m.Orderly (h :: held)) (hb : m.body h = .array xs)
    (hop : op.datum? = some d) (hd : op.handles ⊆ h :: held) :
    (∃ v m', Makes op h m held xs d v m') ∨
      ∃ e m', d.toValue m = .error e m' ∧ op.Serves h m held xs (.error e m') := by
  have hhandles : op.handles = d.handles := by rw [Operation.handles, hop]; rfl
  rw [hhandles] at hd
  have hw : (Writable.mk d.handles []).handles ⊆ h :: held := by
    rwa [Writable.handles, List.append_nil]
  have htrades := Datum.toValue_trades (W := ⟨d.handles, []⟩) d (List.Subset.refl _)
  have hf : m.isFreed h = false := by rw [isFreed, hb]; rfl
  cases hr : d.toValue m with
  | ok v m' =>
    obtain ⟨hs, hl⟩ := htrades.ok hw hm hr
    have hf' : m'.isFreed h = false :=
      hs.orderly.not_isFreed_of_mem (List.mem_cons_of_mem _ List.mem_cons_self)
    have hbody := hl.body_eq hf ⟨List.not_mem_nil, fun _ => by rw [hb]; rfl⟩ hf'
    refine .inl ⟨v, m', hr, Datum.toValue_is_new hw hm (List.Subset.refl _) hr, hs.orderly,
      hbody.trans hb, hl.mono fun k b _ hbars => ⟨List.not_mem_nil, ?_⟩⟩
    rw [← hhandles]
    exact hbars.2
  | error e m' =>
    obtain ⟨⟨lost, hlost⟩, hl⟩ := htrades.error hw hm hr
    have hf' : m'.isFreed h = false :=
      hlost.not_isFreed_of_mem (List.mem_append_right _ List.mem_cons_self)
    have hbody := hl.body_eq hf ⟨List.not_mem_nil, by rw [hb]; rfl⟩ hf'
    exact .inr ⟨e, m', rfl, .unmade hop hr, hbody.trans hb, ⟨lost, hlost⟩,
      hl.mono fun k b _ hbars => ⟨List.not_mem_nil, hbars.2⟩⟩

/-! ### Stores -/

theorem arrayStore_apply (hb : m.body h = .array xs) (hp : Slots.Denotes xs.length i p) (v : Handle) :
    arrayStore h i v m = if slotLimit < p + 1 then .error (.aborted (some "capacity overflow")) m
      else .ok (xs.put p v).1 (m.setBody h (.array (xs.put p v).2)) := by
  rw [arrayStore, Run.bind_of_ok (slots_apply hb), Slots.place?_eq_some_iff.2 hp]
  have hreserve : arrayReserve h (p + 1) m = checkRoom (p + 1) m := by
    rw [arrayReserve, Run.bind_of_ok (slots_apply hb)]
  show (arrayReserve h (p + 1) >>= fun _ => onSlots h (Slots.put · p v)) m = _
  rw [Run.bind_apply, hreserve, checkRoom]
  by_cases hroom : p + 1 > slotLimit
  · rw [if_pos hroom, if_pos hroom]
    rfl
  · rw [if_neg hroom, if_neg hroom]
    exact onSlots_apply hb _

/-- What was at the position is given back. -/
theorem release_former (o : Option Handle) (m : Machine) :
    (match o with
      | some former => Run.change (·.release former)
      | none => pure () : Run Unit) m = .ok () (m.releaseAll o.toList) := by
  cases o <;> rfl

/-- The slots are written. -/
theorem leaves_setBody (hh : h ∈ W.containers) (b : Body) : m.Leaves W.Bars (m.setBody h b) :=
  .of_spares (.setBody m h b) fun hbars => hbars.1 hh

/-- A value is stored, and what it displaces is given back. -/
theorem settles_store {o : Option Handle} (hh : h ∈ W.containers) (hm : m.Orderly (v :: h :: held))
    (hb : m.body h = .array xs) (hne : v ≠ h) (hp : Slots.Denotes xs.length i p)
    (hr : arrayStore h i v m = .ok o m') :
    m.Settles (m'.releaseAll o.toList) (h :: held) ∧
      (m'.releaseAll o.toList).body h = .array (xs.put p v).2 ∧
      (m'.releaseAll o.toList).body v = m.body v ∧
      m.Leaves W.Bars (m'.releaseAll o.toList) := by
  obtain ⟨ys, q, hb', hq, -, hm'⟩ := arrayStore_ok hr
  obtain rfl : xs = ys := by simpa [hb] using hb'
  rw [Slots.place?_eq_some_iff] at hq
  obtain rfl := hp.unique hq
  have hlive := index_lt_of_array hb
  have hstore := hm.arrayStore hr
  have hreleased := hstore.orderly.releaseAll o.toList
  have hkept : m'.Leaves (fun _ _ => True) (m'.releaseAll o.toList) := .releaseAll m' _
  have hbody' : m'.body h = .array (xs.put p v).2 := by rw [hm', body_setBody _ hlive]
  have hbody : (m'.releaseAll o.toList).body h = .array (xs.put p v).2 := by
    refine (hkept.body_eq ?_ trivial ?_).trans hbody'
    · rw [isFreed, hbody']
      rfl
    · exact hreleased.orderly.not_isFreed_of_mem List.mem_cons_self
  have hmem := Slots.mem_owned_of_getElem? (Slots.getElem?_put_self xs p v)
  refine ⟨hstore.trans hreleased, hbody, ?_, ?_⟩
  · have hv : m'.body v = m.body v := by rw [hm', body_setBody_ne _ hne]
    refine (hkept.body_eq ?_ trivial ?_).trans hv
    · rw [isFreed, hv]
      exact hm.not_isFreed_of_mem List.mem_cons_self
    · refine hreleased.orderly.not_isFreed_of_mem_owned (h := h) ?_
      rw [hbody]
      exact hmem
  · have hset : m.Leaves W.Bars m' := hm' ▸ leaves_setBody hh _
    exact hset.trans (.releaseAll m' _) Writable.Bars.freed

theorem serves_set (hm : m.Orderly (h :: held)) (hb : m.body h = .array xs)
    (hd : d.handles ⊆ h :: held) (hp : Slots.Denotes xs.length i p) :
    (Operation.set i d).Serves h m held xs ((Operation.set i d).inner h m) := by
  rw [Operation.inner, map_eq_pure_bind, Run.bind_apply, Run.bind_apply]
  rcases serves_or_makes (.set i d) hm hb rfl hd with ⟨v, m₁, hv⟩ | ⟨e, m₁, hr, hserves⟩
  · have hstore := arrayStore_apply hv.body hp v
    simp only [hv.run, Run.bind_apply]
    by_cases hover : slotLimit < p + 1
    · rw [if_pos hover] at hstore
      simp only [hstore]
      exact ⟨.overflow (.set d hp hover), hv.body, ⟨[v], hv.orderly⟩,
        hv.leaves.mono fun _ _ _ => Writable.bars_of_barsAll⟩
    · rw [if_neg hover] at hstore
      simp only [hstore, release_former]
      obtain ⟨hm', hb', hv', hl⟩ := settles_store (W := (Operation.set i d).writable h)
        List.mem_cons_self hv.orderly hv.body (hv.ne hb) hp hstore
      have hfits : ¬(Operation.set i d).Overflows xs := by
        rintro (⟨_, hq, hover'⟩ | _ | _)
        obtain rfl := hp.unique hq
        exact hover hover'
      have hwrites := Slots.writes_put xs p v
      exact ⟨hfits, ⟨_, .set hp hwrites (hwrites.finds hp) ⟨hv.is_new, _, hv.run, hv'⟩, hb'⟩,
        hm'.orderly, hv.leaves.trans hl Writable.Bars.freed⟩
  · simp only [hr]
    exact hserves

/-! ### Looks, and values that are held -/

/-- A value of the array is held. -/
theorem settles_hold {k : Handle} (hm : m.Orderly (h :: held)) (hb : m.body h = .array xs)
    (hk : k ∈ Slots.owned xs) : (m.retain k).Orderly (k :: h :: held) := by
  refine (Orderly.retain hm (hm.not_isFreed_of_mem_owned (h := h) ?_)).orderly
  rw [hb]
  exact hk

theorem arrayFetch?_apply (hb : m.body h = .array xs) (i : Int) :
    arrayFetch? h i m = .ok (xs.fetch? i) m := by
  rw [arrayFetch?, Run.bind_of_ok (slots_apply hb)]
  rfl

theorem serves_get (hm : m.Orderly (h :: held)) (hb : m.body h = .array xs) (i : Int) :
    (Operation.get i).Serves h m held xs ((Operation.get i).inner h m) := by
  have hfinds := xs.finds_fetch? i
  rw [Operation.inner, map_eq_pure_bind, Run.bind_apply, Run.bind_of_ok (arrayFetch?_apply hb i)]
  cases hfound : xs.fetch? i with
  | none =>
    rw [hfound] at hfinds
    exact ⟨by rintro ⟨⟩, ⟨_, .get hfinds, hb⟩, hm, .refl m⟩
  | some k =>
    rw [hfound] at hfinds
    simp only [holdSome, map_eq_pure_bind, Run.bind_apply, hold_apply]
    exact ⟨by rintro ⟨⟩, ⟨_, .get hfinds, (body_retain m k h).trans hb⟩, settles_hold hm hb hfinds.mem_owned,
      .retain m k⟩

theorem serves_contains (hm : m.Orderly (h :: held)) (hb : m.body h = .array xs) (i : Int) :
    (Operation.contains i).Serves h m held xs ((Operation.contains i).inner h m) := by
  have hhas : arrayHas h i m = .ok (xs.has i) m := by
    rw [arrayHas, Run.bind_of_ok (slots_apply hb)]
    rfl
  rw [Operation.inner, map_eq_pure_bind, Run.bind_of_ok hhas]
  exact ⟨by rintro ⟨⟩, ⟨_, .contains (xs.finds_fetch? i), hb⟩, hm, .refl m⟩

/-- A new undefined scalar is stored where there is no value. -/
theorem arrayFetchOrNew_apply (hb : m.body h = .array xs) (hfound : xs.fetch? i = none) :
    arrayFetchOrNew h i m = match arrayStore h i m.heap.next (m.alloc (.scalar .undefined)).2 with
      | .ok o m' => .ok m.heap.next (m'.releaseAll o.toList)
      | .error e m' => .error e m' := by
  have hnew : newScalar .undefined m = .ok m.heap.next (m.alloc (.scalar .undefined)).2 := rfl
  rw [arrayFetchOrNew, Run.bind_of_ok (arrayFetch?_apply hb i), hfound]
  refine (Run.bind_of_ok hnew).trans ?_
  rw [Run.bind_apply]
  rcases arrayStore h i m.heap.next (m.alloc (.scalar .undefined)).2 with ⟨_ | former, m'⟩ | ⟨e, m'⟩ <;>
    rfl

/-- A new undefined scalar is written where there is no value, and held. -/
theorem serves_lvalueNew (hm : m.Orderly (h :: held)) (hb : m.body h = .array xs)
    (hp : Slots.Denotes xs.length i p) (hfound : xs.fetch? i = none) :
    (Operation.lvalue i).Serves h m held xs ((Operation.lvalue i).inner h m) := by
  let m₁ := (m.alloc (.scalar .undefined)).2
  have hfinds : xs.Finds i none := hfound ▸ xs.finds_fetch? i
  have hlive := index_lt_of_array hb
  have hm₁ : m₁.Orderly (m.heap.next :: h :: held) :=
    (Orderly.newScalar (s := .undefined) hm rfl).orderly
  have hb₁ : m₁.body h = .array xs := (body_alloc m _ (ne_next_of_lt hlive)).trans hb
  have hstore : arrayStore h i m.heap.next m₁ = _ := arrayStore_apply hb₁ hp m.heap.next
  rw [Operation.inner, map_eq_pure_bind, Run.bind_apply, Run.bind_apply,
    arrayFetchOrNew_apply hb hfound]
  by_cases hover : slotLimit < p + 1
  · rw [if_pos hover] at hstore
    simp only [m₁] at hstore
    simp only [hstore]
    exact ⟨.overflow (.lvalue hfinds hp hover), hb₁, ⟨[m.heap.next], hm₁⟩, .alloc m _⟩
  · rw [if_neg hover] at hstore
    obtain ⟨hm', hb', hv', hl⟩ := settles_store (W := (Operation.lvalue i).writable h)
      List.mem_cons_self hm₁ hb₁ (ne_next_of_lt hlive).symm hp hstore
    have hmem := Slots.mem_owned_of_getElem? (Slots.getElem?_put_self xs p m.heap.next)
    have hfits : ¬(Operation.lvalue i).Overflows xs := by
      rintro (_ | ⟨-, hq, hover'⟩ | _)
      obtain rfl := hp.unique hq
      exact hover hover'
    have hundefined : m₁.body m.heap.next = .scalar .undefined :=
      congrArg Cell.body (Heap.get_push_next m.heap _)
    have hhere := hm'.counts.here
    generalize ho : (xs.put p m.heap.next).1.toList = former at hm' hb' hv' hl hhere
    generalize hafter : (m₁.setBody h _).releaseAll former = m' at hm' hb' hv' hl hhere
    have hhold : hold m.heap.next m' = .ok ⟨m.heap.next, m.here⟩ (m'.retain m.heap.next) := by
      rw [hold_apply, hhere]
      rfl
    simp only [m₁] at hstore hafter
    simp only [hstore, ho, hafter, hhold]
    have hwrites := Slots.writes_put xs p m.heap.next
    refine ⟨hfits, ⟨_, .lvalueNew hfinds hp hwrites (hwrites.finds hp) le_rfl ?_,
      (body_retain m' _ h).trans hb'⟩, settles_hold hm'.orderly hb' hmem, ?_⟩
    · exact (body_retain m' _ _).trans (hv'.trans hundefined)
    · exact ((Leaves.alloc m _).trans hl Writable.Bars.freed).trans (.retain m' _)
        Writable.Bars.freed

theorem serves_lvalue (hm : m.Orderly (h :: held)) (hb : m.body h = .array xs)
    (hp : Slots.Denotes xs.length i p) :
    (Operation.lvalue i).Serves h m held xs ((Operation.lvalue i).inner h m) := by
  cases hfound : xs.fetch? i with
  | none => exact serves_lvalueNew hm hb hp hfound
  | some k =>
    have hfinds : xs.Finds i (some k) := hfound ▸ xs.finds_fetch? i
    rw [Operation.inner, map_eq_pure_bind, Run.bind_apply, Run.bind_apply, arrayFetchOrNew,
      Run.bind_of_ok (arrayFetch?_apply hb i), hfound]
    simp only [Run.pure_apply, hold_apply]
    refine ⟨?_, ⟨_, .lvalue hfinds, (body_retain m k h).trans hb⟩,
      settles_hold hm hb hfinds.mem_owned, .retain m k⟩
    rintro (_ | ⟨hnone, -, -⟩ | _)
    cases (hnone k).2 ((hfinds k).1 rfl)

/-! ### Both ends, and all elements -/

theorem serves_push (hm : m.Orderly (h :: held)) (hb : m.body h = .array xs)
    (hd : d.handles ⊆ h :: held) :
    (Operation.push d).Serves h m held xs ((Operation.push d).inner h m) := by
  rw [Operation.inner, map_eq_pure_bind, Run.bind_apply, Run.bind_apply]
  rcases serves_or_makes (.push d) hm hb rfl hd with ⟨v, m₁, hv⟩ | ⟨e, m₁, hr, hserves⟩
  · have hlive := index_lt_of_array hv.body
    have hpush : arrayPush h v m₁ = .ok () (m₁.setBody h (.array (xs ++ [some v]))) :=
      onSlots_apply hv.body _
    simp only [hv.run, hpush]
    exact ⟨by rintro ⟨⟩, ⟨_, .push ⟨hv.is_new, _, hv.run, body_setBody_ne _ (hv.ne hb)⟩,
      body_setBody _ hlive⟩, (hv.orderly.arrayPush hpush).orderly,
      hv.leaves.trans (leaves_setBody List.mem_cons_self _) Writable.Bars.freed⟩
  · simp only [hr]
    exact hserves

/-- The values taken out are held. -/
theorem adoptSome_apply (o : Option Handle) (m : Machine) :
    adoptSome o m = .ok (o.map (⟨·, m.here⟩)) m := by
  cases o <;> rfl

theorem serves_take {f : Slots → Option Handle × Slots} (hm : m.Orderly (h :: held))
    (hb : m.body h = .array xs) (hacts : ∀ m', Acts m m' xs op
      (.found ((f xs).1.map (⟨·, m.here⟩))) (f xs).2) (hop : ¬op.Overflows xs)
    (hf : ∀ ys k, (Slots.owned (f ys).2).count k + (f ys).1.toList.count k
      = (Slots.owned ys).count k + List.count k []) :
    op.Serves h m held xs ((Answer.found <$> (do adoptSome (← onSlots h f) : Run _)) m) := by
  have hlive := index_lt_of_array hb
  have htake := onSlots_apply hb f
  have hm' := Orderly.onSlots [] Option.toList hm htake hf
  rw [map_eq_pure_bind, Run.bind_apply, Run.bind_of_ok htake, adoptSome_apply]
  refine ⟨hop, ⟨_, hacts _, body_setBody _ hlive⟩, ?_, leaves_setBody List.mem_cons_self _⟩
  have hheld := hm'.orderly
  revert hheld
  cases (f xs).1 <;> exact id

theorem serves_pop (hm : m.Orderly (h :: held)) (hb : m.body h = .array xs) :
    Operation.pop.Serves h m held xs (Operation.pop.inner h m) :=
  serves_take hm hb (fun _ => .pop) (by rintro ⟨⟩) fun ys k => ys.count_owned_pop k

theorem serves_shift (hm : m.Orderly (h :: held)) (hb : m.body h = .array xs) :
    Operation.shift.Serves h m held xs (Operation.shift.inner h m) :=
  serves_take hm hb (fun _ => .shift) (by rintro ⟨⟩) fun ys k => ys.count_owned_shift k

/-- A hole is put in front. -/
theorem arrayUnshift_apply (hb : m.body h = .array xs) :
    arrayUnshift h 1 m = if slotLimit < xs.length + 1
      then .error (.aborted (some "capacity overflow")) m
      else .ok () (m.setBody h (.array (xs.unshift 1))) := by
  rw [arrayUnshift, Run.bind_of_ok (slots_apply hb), Run.bind_apply, checkRoom]
  by_cases hroom : xs.length + 1 > slotLimit
  · rw [if_pos hroom, if_pos hroom]
    rfl
  · rw [if_neg hroom, if_neg hroom]
    exact onSlots_apply hb _

theorem serves_unshift (hm : m.Orderly (h :: held)) (hb : m.body h = .array xs)
    (hd : d.handles ⊆ h :: held) :
    (Operation.unshift d).Serves h m held xs ((Operation.unshift d).inner h m) := by
  rw [Operation.inner, map_eq_pure_bind, Run.bind_apply, Run.bind_apply]
  rcases serves_or_makes (.unshift d) hm hb rfl hd with ⟨v, m₁, hv⟩ | ⟨e, m₁, hr, hserves⟩
  · have hlive := index_lt_of_array hv.body
    have hunshift := arrayUnshift_apply hv.body
    simp only [hv.run, Run.bind_apply]
    by_cases hover : slotLimit < xs.length + 1
    · rw [if_pos hover] at hunshift
      simp only [hunshift]
      exact ⟨.overflow (.unshift d hover), hv.body, ⟨[v], hv.orderly⟩,
        hv.leaves.mono fun _ _ _ => Writable.bars_of_barsAll⟩
    · rw [if_neg hover] at hunshift
      -- the hole in front is written
      have hhole := body_setBody (.array (xs.unshift 1)) hlive
      have hm₂ := Orderly.arrayUnshift (m := m₁) (h := h) (n := 1) hv.orderly hunshift
      have hfront : Slots.Denotes (xs.unshift 1).length 0 0 := rfl
      have hstore := arrayStore_apply hhole hfront v
      have hput : (xs.unshift 1).put 0 v = (none, some v :: xs) := by simp [Slots.put, Slots.unshift]
      rw [if_neg (by decide), hput] at hstore
      obtain ⟨hm', hb', hv', hl⟩ := settles_store (W := (Operation.unshift d).writable h)
        List.mem_cons_self hm₂.orderly hhole (hv.ne hb) hfront hstore
      rw [hput] at hb'
      have hset : m₁.Leaves ((Operation.unshift d).writable h).Bars _ :=
        leaves_setBody List.mem_cons_self (.array (xs.unshift 1))
      have hkept := hv'.trans (body_setBody_ne (.array (xs.unshift 1)) (hv.ne hb))
      have hfits : ¬(Operation.unshift d).Overflows xs := by
        rintro (_ | _ | ⟨_, hover'⟩)
        exact hover hover'
      simp only [hunshift, hstore]
      exact ⟨hfits, ⟨_, .unshift ⟨hv.is_new, _, hv.run, hkept⟩, hb'⟩, hm'.orderly,
        hv.leaves.trans (hset.trans hl Writable.Bars.freed) Writable.Bars.freed⟩
  · simp only [hr]
    exact hserves

theorem serves_clear (hm : m.Orderly (h :: held)) (hb : m.body h = .array xs) :
    Operation.clear.Serves h m held xs (Operation.clear.inner h m) := by
  have hlive := index_lt_of_array hb
  let m₁ := m.setBody h (.array [])
  have hclear : arrayClear h m = .ok () (m₁.releaseAll (Slots.owned xs)) := by
    rw [arrayClear, Run.bind_of_ok (onSlots_apply hb fun ys => (ys, []))]
    rfl
  have hm' := (hm.arrayClear hclear).orderly
  have hb₁ : m₁.body h = .array [] := body_setBody _ hlive
  have hkept : m₁.Leaves (fun _ _ => True) (m₁.releaseAll (Slots.owned xs)) := .releaseAll m₁ _
  have hb' := hkept.body_eq (by rw [isFreed, hb₁]; rfl) trivial (hm'.not_isFreed_of_mem List.mem_cons_self)
  have hset : m.Leaves (Operation.clear.writable h).Bars m₁ := leaves_setBody List.mem_cons_self _
  rw [Operation.inner, map_eq_pure_bind, Run.bind_of_ok hclear]
  exact ⟨by rintro ⟨⟩, ⟨_, .clear, hb'.trans hb₁⟩, hm', hset.trans (.releaseAll m₁ _) Writable.Bars.freed⟩

/-- Each operation with the interpreter of the array in focus. -/
theorem serves (hm : m.Orderly (h :: held)) (hb : m.body h = .array xs)
    (hd : op.handles ⊆ h :: held) (hop : ¬op.Refused xs) :
    op.Serves h m held xs (op.inner h m) := by
  have hplace {i : Int} (hi : op.created? = some i) : ∃ p, Slots.Denotes xs.length i p :=
    Slots.exists_denotes fun hlt => hop ⟨i, hi, hlt⟩
  cases op with
  | set i d => exact serves_set hm hb hd (hplace rfl).choose_spec
  | get i => exact serves_get hm hb i
  | lvalue i => exact serves_lvalue hm hb (hplace rfl).choose_spec
  | push d => exact serves_push hm hb hd
  | pop => exact serves_pop hm hb
  | shift => exact serves_shift hm hb
  | unshift d => exact serves_unshift hm hb hd
  | contains i => exact serves_contains hm hb i
  | clear => exact serves_clear hm hb

end Serve

/-! ### Sequences of operations -/

/-- The values that are held with the end of an operation. -/
def Ending.handles : Ending → List Handle
  | answers w => w.handles
  | _ => []

/-- What happens while host code holds an array: an operation on it, or something else. -/
inductive Event where
  | operation (op : Operation) (e : Ending)
  | other

/-- An event, with what host code holds beside the array before and after it. The values that go into an
operation are held, and so is what it answers. Something else leaves the slots of the array alone and
the counts in order. -/
inductive Happens (a : Held) (m : Machine) (held : List Handle) : Event → Machine → List Handle → Prop
  | operation {op : Operation} {e : Ending} {m' : Machine} : op.handles ⊆ a.handle :: held →
      Ending.of (op.run a) m = (e, m') → Happens a m held (.operation op e) m' (e.handles ++ held)
  | other {m' : Machine} {held' lost : List Handle} : m'.body a.handle = m.body a.handle →
      m'.Orderly (a.handle :: (held' ++ lost)) → Happens a m held .other m' held'

/-- Events one after the other. -/
inductive Runs (a : Held) : Machine → List Handle → List Event → Machine → List Handle → Prop
  | nil {m : Machine} {held : List Handle} : Runs a m held [] m held
  | cons {m m₁ m' : Machine} {held held₁ held' : List Handle} {event : Event} {events : List Event} :
      Happens a m held event m₁ held₁ → Runs a m₁ held₁ events m' held' →
      Runs a m held (event :: events) m' held'

/-- The array behaves as a list along events. -/
inductive Behaves (a : Held) : Machine → Slots → List Event → Machine → Slots → Prop
  | nil {m : Machine} {xs : Slots} : Behaves a m xs [] m xs
  | operation {m m₁ m' : Machine} {xs ys zs : Slots} {op : Operation} {e : Ending}
      {events : List Event} : Ends a m xs op e m₁ ys → Behaves a m₁ ys events m' zs →
      Behaves a m xs (.operation op e :: events) m' zs
  | other {m m₁ m' : Machine} {xs zs : Slots} {events : List Event} :
      Behaves a m₁ xs events m' zs → Behaves a m xs (.other :: events) m' zs

section Sequences

variable {a : Held} {m m' : Machine} {held held' lost : List Handle} {xs : Slots} {op : Operation}

/-- One operation. It may leave counts that nobody holds. -/
theorem ends (hm : m.Orderly (a.handle :: held)) (hb : m.body a.handle = .array xs)
    (hd : op.handles ⊆ a.handle :: held) {e : Ending} (hr : Ending.of (op.run a) m = (e, m')) :
    ∃ ys lost, Ends a m xs op e m' ys ∧ m'.body a.handle = .array ys ∧
      m'.Orderly (lost ++ (e.handles ++ a.handle :: held)) := by
  have hbodies (m : Machine) (i : InterpId) : (m.focus i).body = m.body := by
    funext k
    rw [body, body, cell, cell, heap_focus]
  by_cases hop : op.Refused xs
  · obtain ⟨i, hi, hlt⟩ := hop
    rw [Ending.of_refused hm hb hi hlt] at hr
    obtain ⟨rfl, rfl⟩ := hr
    refine ⟨xs, [], .fails hi hlt (hm.revisit a.owner).1, ?_, (hm.focus a.owner).focus m.here⟩
    rwa [Machine.revisit, hbodies, hbodies]
  · have hserves := serves (hm.focus a.owner) ((congrFun (hbodies m a.owner) _).trans hb) hd hop
    have hleaves {Q : Handle → Body → Prop} {m₁ : Machine} (hl : (m.focus a.owner).Leaves Q m₁) :
        m.Leaves Q (m₁.focus m.here) := by
      have hsize := hl.size_le
      have hbody := hl.body
      rw [heap_focus, hbodies] at hbody
      rw [heap_focus] at hsize
      refine ⟨by rwa [heap_focus], ?_⟩
      rwa [hbodies]
    rw [Ending.of_inner hm hb hop] at hr
    cases hinner : op.inner a.handle (m.focus a.owner) with
    | ok w m₁ =>
      rw [hinner] at hserves hr
      obtain ⟨rfl, rfl⟩ := hr
      obtain ⟨hfits, ⟨ys, hacts, hb'⟩, hm', hl⟩ := hserves
      refine ⟨ys, [], .answers hop hfits (hacts.congr (hbodies _ _)) (hleaves hl), ?_,
        hm'.focus m.here⟩
      rwa [hbodies]
    | error e m₁ =>
      rw [hinner] at hserves hr
      obtain ⟨rfl, rfl⟩ := hr
      obtain ⟨hstops, hb', ⟨lost, hm'⟩, hl⟩ := hserves
      refine ⟨xs, lost, .exits hop hstops (hleaves hl), ?_, hm'.focus m.here⟩
      rwa [hbodies]

/-- Along every sequence of operations the array behaves as a list. -/
theorem behaves_as_list {events : List Event} (hruns : Runs a m held events m' held')
    (hm : m.Orderly (a.handle :: (held ++ lost))) (hb : m.body a.handle = .array xs) :
    ∃ ys lost', Behaves a m xs events m' ys ∧ m'.body a.handle = .array ys ∧
      m'.Orderly (a.handle :: (held' ++ lost')) := by
  induction hruns generalizing xs lost with
  | nil => exact ⟨xs, lost, .nil, hb, hm⟩
  | @cons _ m₁ _ held₀ _ _ _ _ hevent _ ih =>
    cases hevent with
    | @operation op e _ hd hr =>
      have hd' : op.handles ⊆ a.handle :: (held₀ ++ lost) :=
        List.Subset.trans hd (List.cons_subset_cons _ (List.subset_append_left _ _))
      obtain ⟨ys, more, hends, hb₁, hm₁⟩ := ends hm hb hd' hr
      have hm₂ : m₁.Orderly (a.handle :: (e.handles ++ held₀ ++ (lost ++ more))) := by
        refine hm₁.perm (List.perm_iff_count.2 fun k => ?_)
        simp only [List.count_append, List.count_cons]
        omega
      obtain ⟨zs, lost', hbehaves, hb', hm'⟩ := ih hm₂ hb₁
      exact ⟨zs, lost', .operation hends hbehaves, hb', hm'⟩
    | other hkept hm₁ =>
      obtain ⟨zs, lost', hbehaves, hb', hm'⟩ := ih hm₁ (hkept.trans hb)
      exact ⟨zs, lost', .other hbehaves, hb', hm'⟩

/-- An undefined value is stored into the hole of an array, and a slot before the first is refused. -/
theorem behaves_holdingHole : holdingHole.Orderly [⟨5⟩] ∧
    holdingHole.body ⟨5⟩ = .array [some ⟨4⟩, none] ∧ ∃ m' ys,
      Behaves ⟨⟨5⟩, holdingHole.here⟩ holdingHole [some ⟨4⟩, none]
        [.operation (.set (-1) .absent) (.answers .done),
          .operation (.lvalue (-3)) (.fails (.elementMissing (-3)))] m' ys := by
  have hm : holdingHole.Orderly [⟨5⟩] := by decide +kernel
  have hb : holdingHole.body ⟨5⟩ = .array [some ⟨4⟩, none] := rfl
  let a : Held := ⟨⟨5⟩, holdingHole.here⟩
  let m₁ := (Ending.of ((Operation.set (-1) .absent).run a) holdingHole).2
  let m₂ := (Ending.of ((Operation.lvalue (-3)).run a) m₁).2
  have hset : Ending.of ((Operation.set (-1) .absent).run a) holdingHole = (.answers .done, m₁) :=
    Prod.ext rfl rfl
  have hlvalue : Ending.of ((Operation.lvalue (-3)).run a) m₁
      = (.fails (.elementMissing (-3)), m₂) := Prod.ext rfl rfl
  have hruns : Runs a holdingHole [] [.operation (.set (-1) .absent) (.answers .done),
      .operation (.lvalue (-3)) (.fails (.elementMissing (-3)))] m₂ [] :=
    .cons (.operation (List.nil_subset _) hset) (.cons (.operation (List.nil_subset _) hlvalue) .nil)
  have hm₀ : holdingHole.Orderly (a.handle :: ([] ++ [])) := hm
  obtain ⟨ys, -, hbehaves, -⟩ := behaves_as_list hruns hm₀ hb
  exact ⟨hm, hb, m₂, ys, hbehaves⟩

/-- The shared true value is written whenever it is read. -/
def ticking : Machine :=
  holdingHole.attach ⟨1⟩ ⟨Magic.extension, ⟨"tick", [.tick], [], []⟩, 0⟩

/-- A slot that is neither there nor before the first is not always made: at an index beyond all
sequences the operation is aborted. A value is not always stored: its copy raises an exception where the
read hook of a shared value is to write it. -/
theorem operations_without_answer : ticking.Orderly [⟨5⟩, ⟨1⟩] ∧
    ticking.body ⟨5⟩ = .array [some ⟨4⟩, none] ∧
    (¬(Operation.lvalue (2 ^ 62)).Refused [some ⟨4⟩, none] ∧
      (Ending.of ((Operation.lvalue (2 ^ 62)).run ⟨⟨5⟩, ticking.here⟩) ticking).1
        = .exits (.aborted (some "capacity overflow"))) ∧
    ¬(Operation.set 0 (.scalar ⟨⟨1⟩, ticking.here⟩)).Refused [some ⟨4⟩, none] ∧
      (Ending.of ((Operation.set 0 (.scalar ⟨⟨1⟩, ticking.here⟩)).run ⟨⟨5⟩, ticking.here⟩) ticking).1
        = .exits .raised := by
  refine ⟨by decide +kernel, rfl, ⟨?_, ?_⟩, ?_, ?_⟩
  · rintro ⟨i, hi, hlt⟩
    cases hi
    exact absurd hlt (by decide)
  · rfl
  · rintro ⟨i, hi, hlt⟩
    cases hi
    exact absurd hlt (by decide)
  · rfl

end Sequences

end HostArray

end ValueMachine

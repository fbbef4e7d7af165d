import ValueMachine.Proofs.Calls.Detached
import ValueMachine.Proofs.Calls.ErrorVariable
import ValueMachine.Proofs.Exceptions.Bearing
import ValueMachine.Proofs.Numbers.Slots
import ValueMachine.Proofs.Ownership.Duplicates

/-! Global scalars as variables. The name of a scalar denotes a scalar of its own and none of the
shared ones, for as long as it is there: it is made so, and no operation makes something else of it
or puts another value in its place. What a glob owns is not freed, and so a variable can be assigned
to in every state that operations reach. -/

namespace ValueMachine

open Machine

/-- A scalar, or what is left of one. -/
def Body.Written (b : Body) : Prop := b = .freed ∨ ∃ s, b = .scalar s

namespace Machine

variable {m m' : Machine} {h k : Handle} {c : Cell}

/-- A place for a scalar that is not shared. -/
structure Variable (m : Machine) (h : Handle) : Prop where
  index_lt : h.index < m.heap.size
  counted : (m.cell h).immortal = false
  written : (m.body h).Written

/-- The names of scalars denote variables. -/
def Declares (m : Machine) : Prop := ∀ ⦃name h⦄, m.global? .scalar name = some h → m.Variable h

namespace Variable

theorem congr (hv : m.Variable h) (heap : m'.heap = m.heap) : m'.Variable h where
  index_lt := heap ▸ hv.index_lt
  counted := by rw [cell, heap]; exact hv.counted
  written := by rw [body, cell, heap]; exact hv.written

/-- A scalar may be overwritten by a scalar and freed, and what is none may become anything. -/
theorem set (hv : m.Variable k) (hi : (m.cell h).immortal = false → c.immortal = false)
    (hb : (m.body h).Written → c.body.Written) :
    (m.onHeap (·.set h c)).Variable k := by
  obtain ⟨hlt, hcounted, hwritten⟩ := hv
  refine ⟨by simpa using hlt, ?_, ?_⟩
  · rw [cell, heap_onHeap, Heap.get_set]
    split
    next hk => exact hi (hk.1 ▸ hcounted)
    next => exact hcounted
  · rw [body, cell, heap_onHeap, Heap.get_set]
    split
    next hk => exact hb (hk.1 ▸ hwritten)
    next => exact hwritten

theorem setBody {b : Body} (hv : m.Variable k) (hb : (m.body h).Written → b.Written) :
    (m.setBody h b).Variable k :=
  hv.set id hb

theorem push (hv : m.Variable k) (heap : m'.heap = m.heap.push c) : m'.Variable k := by
  obtain ⟨hlt, hcounted, hwritten⟩ := hv
  have hget : m'.heap.get k = m.heap.get k := heap ▸ Heap.get_push_ne _ _ _ (ne_next_of_lt hlt)
  refine ⟨?_, (congrArg Cell.immortal hget).trans hcounted, ?_⟩
  · rw [heap, Heap.size_push]
    exact Nat.lt_succ_of_lt hlt
  · rw [body, cell, hget]
    exact hwritten

theorem retain (hv : m.Variable k) (h : Handle) : (m.retain h).Variable k := by
  unfold Machine.retain
  split
  · exact hv
  · exact hv.set id id

/-- A variable that is not gone is a scalar. -/
theorem exists_scalar (hv : m.Variable h) (hf : m.isFreed h = false) : ∃ s, m.body h = .scalar s := by
  refine hv.written.resolve_left fun hb => ?_
  rw [isFreed, hb] at hf
  cases hf

end Variable

namespace Declares

/-- A step that leaves the globals alone. -/
theorem keep (hm : m.Declares)
    (globals : ∀ name, m'.global? .scalar name = m.global? .scalar name)
    (hv : ∀ h, m.Variable h → m'.Variable h) : m'.Declares :=
  fun _ _ hg => hv _ (hm ((globals _).symm.trans hg))

theorem congr (hm : m.Declares)
    (globals : ∀ name, m'.global? .scalar name = m.global? .scalar name)
    (heap : m'.heap = m.heap) : m'.Declares :=
  hm.keep globals fun _ hv => hv.congr heap

theorem alloc (hm : m.Declares) (b : Body) : (m.alloc b).2.Declares :=
  hm.keep (fun _ => rfl) fun _ hv => hv.push rfl

theorem setBody {b : Body} (hm : m.Declares)
    (hb : (m.body h).Written → b.Written) : (m.setBody h b).Declares :=
  hm.keep (fun _ => rfl) fun _ hv => hv.setBody hb

/-- A step that changes the count or the records of a value. -/
theorem update (hm : m.Declares) (f : Cell → Cell) (hi : ∀ c, (f c).immortal = c.immortal)
    (hb : ∀ c, (f c).body = c.body) : (m.onHeap (·.update h f)).Declares :=
  hm.keep (fun _ => rfl) fun _ hv => hv.set (fun himm => (hi _).trans himm) fun hw => (hb _).symm ▸ hw

theorem retain (hm : m.Declares) (h : Handle) : (m.retain h).Declares := by
  unfold Machine.retain
  split
  · exact hm
  · exact hm.update _ (fun _ => rfl) fun _ => rfl

/-- A global that is made is a new value, and a scalar if it has the name of one. -/
theorem global (hm : m.Declares) (s : Sigil) (name : String) : (m.global s name).2.Declares := by
  cases hg : m.global? s name with
  | some h =>
    simp only [Machine.global, hg]
    exact hm
  | none =>
    have hheap : (m.global s name).2.heap = m.heap.push (.fresh (newGlobalBody s name)) := by
      rw [global_of_none hg, updateGlob_set]
      rfl
    intro name' h hname
    rw [global?_global_of_none s .scalar name name' hg] at hname
    split at hname
    next hsame =>
      obtain ⟨rfl, -⟩ := hsame
      cases hname
      have hget : (m.global .scalar name).2.heap.get m.heap.next = .fresh (.scalar .undefined) := by
        rw [hheap, Heap.get_push_next]
        rfl
      refine ⟨?_, congrArg Cell.immortal hget, .inr ⟨.undefined, congrArg Cell.body hget⟩⟩
      rw [hheap, Heap.size_push]
      exact Nat.lt_succ_self _
    next => exact (hm hname).push hheap

theorem keptByRelease : KeptByRelease Declares fun _ => True where
  records _ _ _ _ _ := trivial
  lower _ _ hm := hm.keep (fun _ => rfl) fun _ hv => hv.set id id
  strip _ _ hm := hm.keep (fun _ => rfl) fun _ hv => hv.set id id
  noteFreed _ _ hm := hm.congr (fun _ => rfl) rfl
  revive _ name _ hm _ _ := (hm.global .scalar name).update _ (fun _ => rfl) fun _ => rfl
  unclaim _ _ hm := hm.congr (fun _ => rfl) rfl
  touch _ h _ hm _ _ := hm.retain h
  vacate _ _ hm := hm.keep (fun _ => rfl) fun _ hv =>
    (hv.set (c := .freed) (fun _ => rfl) fun _ => .inl rfl).congr rfl

theorem releaseAll (hm : m.Declares) (hs : List Handle) : (m.releaseAll hs).Declares :=
  keptByRelease.releaseAll hs hm

theorem errorSlot (hm : m.Declares) : m.errorSlot.2.Declares := by
  unfold Machine.errorSlot
  split
  · exact hm
  · exact (hm.global .scalar "@").congr (fun _ => rfl) rfl

end Declares

end Machine

/-! ### Assignments -/

namespace Machine

variable {m m' : Machine} {dst src : Handle} {s former : Scalar} {held : List Handle}

theorem ReadsAs.copySlots (hs : m.ReadsAs h s) :
    Machine.copySlots h m = .ok s (s.owned.foldl retain m) := by
  rw [Machine.copySlots, Run.bind_of_ok hs.readHooks, Run.look_bind, hs.scalar?]
  rfl

theorem ReadsAs.newCopy (hs : m.ReadsAs h s) :
    Machine.newCopy h m = .ok m.heap.next ((s.owned.foldl retain m).alloc (.scalar s)).2 := by
  rw [Machine.newCopy, Run.bind_of_ok hs.copySlots, ← next_retainAll m s.owned]
  rfl

/-- A scalar has been assigned to. Of the other values some are gone at most, and the globals stay. -/
structure Assigned (m m' : Machine) (dst : Handle) (s : Scalar) : Prop where
  target : m'.isFreed dst = false → m'.body dst = .scalar s
  body : ∀ ⦃k⦄, k ≠ dst → k.index < m.heap.size → m'.isFreed k = false → m'.body k = m.body k
  global? : ∀ ⦃name h⦄, m.global? .scalar name = some h → m'.global? .scalar name = some h

theorem replaceScalar_assigned (hm : m.Harmless) (hb : m.body dst = .scalar former) (s : Scalar) :
    m.Assigned (m.replaceScalar dst former s) dst s := by
  have hset : (m.setBody dst (.scalar s)).Harmless := hm.set _ (hm dst)
  have hfades := hset.fades_releaseAll former.owned
  obtain ⟨log, hlog⟩ := ((m.setBody dst (.scalar s)).releaseAll former.owned).noteWrite_eq dst
  have hlt := index_lt_of_scalar hb
  refine ⟨fun hf => ?_, fun k hk hs hf => (Spares.replaceScalar m dst former s).body_eq hk hs hf,
    fun name h hg => ?_⟩
  · rw [Machine.replaceScalar, hlog] at hf ⊢
    have hlt' : dst.index < (m.setBody dst (.scalar s)).heap.size := by
      simpa [Machine.setBody, Heap.update] using hlt
    rcases hfades.body dst hlt' with hb' | hb'
    · exact hb'.trans (body_setBody _ hlt)
    · have hfreed : (Body.freed).isFreed = false := hb' ▸ hf
      cases hfreed
  · rw [Machine.replaceScalar, hlog]
    exact hfades.global? .scalar name h hg

theorem interp_retainAll (m : Machine) (hs : List Handle) : (hs.foldl retain m).interp = m.interp :=
  List.foldlRecOn (motive := fun m' : Machine => m'.interp = m.interp) hs _ rfl fun m' hm' k _ => by
    rw [← hm', retain]
    split <;> rfl

/-- A variable takes the slots of a value without hooks. -/
theorem assign_variable (ho : m.Orderly held) (hv : m.Variable dst) (hf : m.isFreed dst = false)
    (hs : m.ReadsAs src s) (hne : dst ≠ src) :
    ∃ m', assign dst src m = .ok () m' ∧ m'.Orderly held ∧ m.Assigned m' dst s := by
  obtain ⟨former, hb⟩ := hv.exists_scalar hf
  let m₁ := s.owned.foldl retain m
  have hcopy : copySlots src m = .ok s m₁ := hs.copySlots
  have ho₁ := ho.copySlots hcopy
  have hb₁ : m₁.body dst = .scalar former := (body_retainAll m s.owned dst).trans hb
  have hstore : store dst s m₁ = .ok () (m₁.replaceScalar dst former s) := by
    obtain ⟨n, hcell⟩ := exists_cell_retainAll m s.owned dst
    have hcounted : (m₁.cell dst).immortal = false := by rw [hcell]; exact hv.counted
    have hbody : (m₁.cell dst).body = .scalar former := hb₁
    rw [store, Run.look_bind, if_neg (by simp [hcounted]), hbody]
    rfl
  have hrun : assign dst src m = .ok () (m₁.replaceScalar dst former s) := by
    rw [assign, if_neg hne]
    exact (Run.bind_of_ok hcopy).trans hstore
  have hassigned := replaceScalar_assigned ho₁.orderly.harmless hb₁ s
  refine ⟨_, hrun, (ho.assign hrun).orderly, hassigned.target, fun k hk hlt hf => ?_,
    fun name h hg => ?_⟩
  · exact (hassigned.body hk (hlt.trans_le ho₁.ages.size_le) hf).trans (body_retainAll m _ k)
  · refine hassigned.global? ?_
    rwa [Machine.global?, glob?, interp_retainAll]

/-- A global that is made leaves the values that are there. -/
theorem cell_global (hk : k.index < m.heap.size) (s : Sigil) (name : String) :
    (m.global s name).2.cell k = m.cell k := by
  cases hg : m.global? s name with
  | some h => simp only [global, hg]
  | none =>
    rw [global_of_none hg, updateGlob_set]
    exact Heap.get_push_ne _ _ _ (ne_next_of_lt hk)

/-- A variable is made where it is missing, and takes the slots of a value without hooks. -/
theorem assign_global (ho : m.Orderly held) (hd : m.Declares) (hs : m.ReadsAs src s) (name : String)
    (hne : (m.global .scalar name).1 ≠ src) : ∃ m',
      assign (m.global .scalar name).1 src (m.global .scalar name).2 = .ok () m' ∧ m'.Orderly held ∧
      m'.global? .scalar name = some (m.global .scalar name).1 ∧
      m'.body (m.global .scalar name).1 = .scalar s ∧
      ∀ ⦃k⦄, k ≠ (m.global .scalar name).1 → k.index < m.heap.size → m'.isFreed k = false →
        m'.body k = m.body k := by
  let slot := (m.global .scalar name).1
  let m₁ := (m.global .scalar name).2
  have hglobal : m₁.global? .scalar name = some slot := global_global? m .scalar name
  have hthere {m' : Machine} (ho' : m'.Orderly held) (hg : m'.global? .scalar name = some slot) :
      m'.isFreed slot = false :=
    ho'.not_isFreed_of_owned (by have := owners_pos_of_global hg; omega)
  have ho₁ : m₁.Orderly held := (ho.global .scalar name).orderly
  have hs₁ : m₁.ReadsAs src s := by
    have hcell : m₁.cell src = m.cell src := cell_global (index_lt_of_scalar hs.body) .scalar name
    exact ⟨(congrArg Cell.body hcell).trans hs.body, hcell ▸ hs.unhooked⟩
  obtain ⟨m₂, hrun, ho₂, hm₂⟩ :=
    assign_variable ho₁ (hd.global .scalar name hglobal) (hthere ho₁ hglobal) hs₁ hne
  have hglobal₂ := hm₂.global? hglobal
  refine ⟨m₂, hrun, ho₂, hglobal₂, hm₂.target (hthere ho₂ hglobal₂), fun k hk hlt hf => ?_⟩
  have hsize : m.heap.size ≤ m₁.heap.size := (Fades.global m .scalar name).size_le
  exact (hm₂.body hk (hlt.trans_le hsize) hf).trans
    (congrArg Cell.body (cell_global hlt .scalar name))

end Machine

/-! ### Operations -/

namespace Manner

/-- The names of scalars keep denoting variables. -/
def declaring : Manner :=
  .uniform (R := fun m m' => m.Declares → m'.Declares) (fun _ => id) fun h h' hm => h' (h hm)

variable {m : Machine} {h : Handle} {former new : Scalar}

theorem declaring_replaceScalar : declaring.returns m (m.replaceScalar h former new) :=
  declaring.replaceBody (fun _ hs hm => hm.releaseAll hs)
    (fun _ _ hm => hm.congr (fun _ => rfl) rfl) fun hm => hm.setBody fun _ => .inr ⟨new, rfl⟩

theorem declaring_setErrorText (m : Machine) (message : String) :
    declaring.returns m (m.setErrorText message) := by
  intro hm
  have hmade : (m.allocMortal (.scalar (.ofText message))).2.Declares :=
    (hm.alloc _).congr (fun _ => rfl) rfl
  have hslot := hmade.errorSlot
  simp only [Machine.setErrorText, Machine.setError]
  split
  · exact declaring_replaceScalar hslot
  · exact hslot

theorem declaring_stepwise : declaring.Stepwise where
  alloc _ _ _ hm := hm.alloc _
  retain _ h hm := hm.retain h
  mortal _ _ hm := hm.congr (fun _ => rfl) rfl
  global _ s name hm := hm.global s name
  setArray ys hb hm := hm.setBody fun hw => absurd hw (by simp [hb, Body.Written])
  setHash u hb hm := hm.setBody fun hw => absurd hw (by simp [hb, Body.Written])
  name _ _ _ hm := hm.update _ (fun _ => rfl) fun _ => rfl
  releaseAll _ hs hm := hm.releaseAll hs
  replaceScalar _ _ := declaring_replaceScalar
  noteAccess _ _ hm := hm.congr (fun _ => rfl) rfl
  tick _ hm := hm.congr (fun _ => rfl) rfl
  raise m f := declaring_setErrorText m f.message

/-- A sub takes the place of a sub. -/
theorem declaring_installSub (m : Machine) (name : String) (h : Handle) :
    declaring.returns m (m.installSub name h) := by
  intro hm
  refine Declares.releaseAll (hm.congr (fun name' => ?_) (by rw [updateGlob_set]; rfl)) _
  simp only [global?, glob?_updateGlob]
  split
  next hq => rw [hq]; cases m.glob? (Qualified.qualify name) <;> rfl
  next => rfl

theorem declaring_setPayload (m : Machine) (h : Handle) (p : Payload) :
    declaring.returns m (m.setPayload h p) := by
  intro hm
  unfold Machine.setPayload
  split
  next c hc =>
    refine Declares.releaseAll (hm.setBody fun hw => ?_) _
    rcases hw with hb | ⟨s, hb⟩ <;> (rw [code?, hb] at hc; cases hc)
  next => exact hm

theorem declaring_holderOperation (op : HolderOperation) : op.run.Moves declaring := by
  cases op with
  | global s name => exact .handing (.modifyGet fun _ hm => hm.global s name) _
  | errorSlot => exact .handing (.modifyGet fun _ hm => hm.errorSlot) _
  | newSub name entry file payload =>
    refine .handing (.modifyGet fun m hm => ?_) _
    cases name with
    | none => exact hm.alloc _
    | some n => exact declaring_installSub _ n _ (hm.alloc _)
  | installSub name h => exact .handing (.change fun m => declaring_installSub m name h) _
  | setPayload h p => exact .handing (.change fun m => declaring_setPayload m h p) _
  | mortal h => exact .handing (.change fun _ hm => hm.congr (fun _ => rfl) rfl) _
  | enter => exact .handing (.change fun _ hm => hm.congr (fun _ => rfl) rfl) _
  | saveTemps => exact .handing (.change fun _ hm => hm.congr (fun _ => rfl) rfl) _
  | freeTemps =>
    refine .handing (.change fun m hm => Declares.releaseAll ?_ _) _
    exact hm.congr (fun _ => rfl) rfl
  | leave => exact .handing (.change fun _ hm => hm.congr (fun _ => rfl) rfl) _

/-- No operation of the runtime makes something else of a variable. -/
theorem declaring_operation (op : Operation) : op.run.Moves declaring := by
  cases op with
  | onArray op => exact declaring_stepwise.plain.arrayOperation op
  | onHash op => exact declaring_stepwise.plain.hashOperation op
  | onHolder op => exact declaring_holderOperation op
  | onScalar op =>
    refine declaring_stepwise.scalarOperation op ?_
    cases op with
    | newScalar s => exact fun _ hm => hm.alloc _
    | store h s => exact fun _ hm => hm.setBody fun _ => .inr ⟨s, rfl⟩
    | attach h g => exact fun _ hm => hm.update _ (fun _ => rfl) fun _ => rfl
    | detach h type table => exact fun _ hm => hm.update _ (fun _ => rfl) fun _ => rfl
    | _ => trivial

end Manner

/-! ### Reachable states -/

theorem Machine.declares_fresh : fresh.Declares := by
  have hempty : (Machine.empty.allocInterp .first).Declares := nofun
  have hglobal := hempty.global .scalar "@"
  have hconstructed {m : Machine} (hm : m.Declares) : (m.onInterp fun i => { i with
      error := some ((Machine.empty.allocInterp .first).global .scalar "@").1
      phase := .constructed }).Declares := hm.congr (fun _ => rfl) rfl
  refine hconstructed ?_
  split
  · exact Manner.declaring_replaceScalar hglobal
  · exact hglobal

/-- In every reachable state the name of a scalar denotes a scalar that can be assigned to, if it
denotes anything. -/
theorem Holding.Reachable.declares {s : Holding} (hs : Holding.Reachable s) : s.machine.Declares := by
  induction hs with
  | refl => exact declares_fresh
  | tail _ hstep ih =>
    obtain ⟨op, -, -, back, rest, -, hrun, -⟩ := hstep
    exact (Manner.declaring_operation op).ok hrun ih

end ValueMachine

import ValueMachine.Proofs.Calls.Disciplined
import ValueMachine.Proofs.Custody.Parameters

/-! Values cross the boundary by copy. The results of a call and the scalar parameters of a closure
are new values of one count each that nothing else refers to, so that assigning to one of them
changes nothing else. -/

namespace ValueMachine

open Machine Run

variable {C : Custody} {held hs : List Handle} {m m' : Machine} {floor : Nat} {v : Held}
  {vs : List Held} {lib : Library} {r : Reentry}

/-! ### A library in every custody -/

namespace Custody.Liberal

variable (hL : C.Liberal)

include hL

/-- The native routines use their arguments only. -/
theorem named {name : String} {body : Reentry → Handle → Run Unit}
    (hb : Routine.named.lookup name = some body) (sub : Handle) :
    (body r sub).Honours C held noHandles := by
  have hC := hL.toLawful
  have htake {f : Nat → Run Unit} (hf : ∀ mark, (f mark).Honours C held noHandles) :
      (Routine.takeMark >>= f).Honours C held noHandles := by
    have hmark : Routine.takeMark.Honours C held noHandles :=
      .andThen hC (.look _) fun _ => .andThen hC (.change (hC.aloof fun _ => rfl)) fun _ =>
        .pure hC (List.nil_subset _)
    exact .andThen hC hmark hf
  have hanswer (mark : Nat) (results : List Scalar) (hs : ∀ s ∈ results, s.owned = []) :
      (Routine.answer mark results).Honours C held noHandles := by
    refine .andThen hC (.change fun hm => hC.truncate mark hm) fun _ => ?_
    refine .forM_mem hC fun s hmem => .change fun {m} hm => ?_
    have hnew := hC.allocMortal (b := .scalar s) (by simp [Body.owned, hs s hmem]) hm
    exact hC.of_mem (hC.push List.mem_cons_self hnew)
  rcases Routine.named_cases hb with rfl | rfl | rfl | rfl | rfl | rfl | rfl
  · exact htake fun mark => hanswer mark _ (by decide)
  · exact htake fun _ => .raise hC _
  · exact htake fun mark => .get fun m => hanswer mark _ (by simpa using ⟨rfl, rfl, rfl⟩)
  · refine htake fun mark => .bind hC (o := id) (.lookUp hC (·.above_subset_places _)) fun args => ?_
    cases args with
    | nil => exact .pure hC (List.nil_subset _)
    | cons h rest => exact hC.store List.mem_cons_self (List.nil_subset _)
  · exact htake fun _ => .pure hC (List.nil_subset _)
  · exact htake fun mark => hanswer mark _ (by simp)
  · exact htake fun _ => hL.throw _

theorem collectScalar (t : HostType) (hsub : hs ⊆ held) :
    (Host.collectScalar t hs).Honours C held fun v => (t.held v).map (·.handle) := by
  unfold Host.collectScalar
  split
  next h hlast => exact hL.read (hsub (List.mem_of_getLast? hlast)) .copy t
  next => exact .fail hL (List.nil_subset _)

theorem relay (hr : C.Attends r) {args : Arguments} (hargs : args.handles ⊆ held) :
    (Closure.relay r args).Honours C held id := by
  refine hL.typed _ (fun {vs held} _ => ?_) hargs
  refine .andThen hL ?_ fun s => .pure hL (by simp [Datum.handles])
  exact hL.hostCall hr (List.nil_subset _) (by simp) .scalar fun hsub => hL.collectScalar .string hsub

theorem rescue (hr : C.Attends r) {args : Arguments} (hargs : args.handles ⊆ held) :
    (Closure.rescue r args).Honours C held id := by
  refine hL.typed _ (fun {vs held} _ => ?_) hargs
  have hcall : (Host.callVoid r (.source vs.1) []).Honours C held noHandles :=
    hL.hostCall hr (List.nil_subset _) (by simp) .void fun _ => Bridge.Honours.pure hL (List.nil_subset _)
  refine .bind hL (.ofRun hL hcall) fun ended => ?_
  cases ended with
  | ok u => exact .pure hL (by simp [Datum.handles])
  | error f =>
    refine .andThen hL (.ofRun hL (.change fun hm => ?_)) fun _ => .pure hL (by simp [Datum.handles])
    exact hL.dropAll (List.subset_append_left _ _) hm

end Custody.Liberal

theorem Library.relays_careful (hL : C.Liberal) : relays.Careful C where
  routines hb _ _ sub _ _ := hL.named hb sub
  closures hc r hr args held hargs := by
    rcases closures_relays hc with rfl | rfl
    · exact hL.relay hr hargs
    · exact hL.rescue hr hargs

/-! ### Assignments to copies -/

/-- Values that only their holder knows. An assignment to one of them goes through and changes nothing
else. -/
structure Machine.Separate (m : Machine) (floor : Nat) (vs : List Held) : Prop
    extends m.Private floor vs where
  assign : ∀ v ∈ vs, ∀ s, ∃ m', HostScalar.put v s m = .ok () m' ∧ m.Confined v s m'

theorem Machine.Private.separate (hm : m.Private floor vs) : m.Separate floor vs := by
  refine { hm with assign := fun v hv s => ?_ }
  obtain ⟨former, hc⟩ := hm.cell v hv
  exact HostScalar.put_confined hc s

/-- What is no scalar cannot be assigned to. -/
theorem HostScalar.put_raises (hv : m.scalar? v.handle = none) (s : Scalar) :
    ∃ m', HostScalar.put v s m = .error .raised m' := by
  have hstore : ∃ m₁, store v.handle s (m.focus v.owner) = .error .raised m₁ := by
    rw [store, Run.look_bind]
    split
    · exact ⟨_, rfl⟩
    · cases hb : ((m.focus v.owner).cell v.handle).body with
      | scalar former =>
        rw [cell, heap_focus] at hb
        rw [scalar?, body, cell, hb] at hv
        cases hv
      | _ => exact ⟨_, rfl⟩
  obtain ⟨m₁, hstore⟩ := hstore
  refine ⟨m₁.focus m.here, ?_⟩
  simp only [put, onInterpreter, Run.look_bind, Run.change_bind, Run.always_apply, hstore]

namespace Library

/-- The scalars that a call returns, the scalar parameters of a typed closure and the scalars among
those of any other closure are copies: new, different, with one count each, and nothing in the
machine refers to them. So an assignment to one of them changes nothing else. Whenever else host code
assigns to a value, other values keep their bodies or are gone, and those that are in use without it
stay. -/
theorem copies_separate (hlib : ∀ floor, lib.Careful (Custody.apart floor [])) (hm : m.Closed) :
    (∀ {depth target args want vs m'}, (∀ h ∈ Host.given target args, h.index < m.heap.size) →
      (Host.callList (lib.reentry depth) target args want).run m = .ok (.ok vs) m' →
      m'.Separate m.heap.size vs ∧ m'.Closed) ∧
    (∀ {depth target args v m'}, (∀ h ∈ Host.given target args, h.index < m.heap.size) →
      (Host.callScalar (lib.reentry depth) .scalar target args).run m = .ok (.ok v) m' →
      m'.Separate m.heap.size [v] ∧ m'.Closed) ∧
    (∀ {ts vs m'} {args : Arguments}, (∀ h ∈ args.handles, h.index < m.heap.size) →
      (args.readAll ts 0).run m = .ok (.ok vs) m' →
      m'.Separate m.heap.size (Parameters.scalars ts vs)) ∧
    (∀ {hs vs m'}, (∀ h ∈ hs, h.index < m.heap.size) → Arguments.copiesOf hs m = .ok vs m' →
      m'.Separate m.heap.size (vs.filter fun v => (m'.scalar? v.handle).isSome) ∧
      ∀ v ∈ vs, m'.scalar? v.handle = none → ∀ s, ∃ m₁, HostScalar.put v s m' = .error .raised m₁) ∧
    ∀ {v s u m₁ m₂}, HostScalar.put v s m₁ = .ok u m₂ → Spares v.handle m₁ m₂ ∧
      ∀ {held k}, m₁.Orderly (s.owned ++ v.handle :: held) → ¬ m₁.InUse held v.handle →
        m₁.InUse held k → m₂.isFreed k = false ∧ m₂.body k = m₁.body k := by
  refine ⟨fun hgiven hr => ?_, fun hgiven hr => ?_, fun hargs hr => ?_, fun hhs hr => ?_,
    fun hr => ⟨HostScalar.put_spares hr, fun hm huse hk => HostScalar.put_keeps hm huse hr hk⟩⟩
  · have hcall := call_private (o := id) hlib (fun hm hsub hr => hm.collectList hsub hr) hm hgiven hr
    exact ⟨hcall.1.separate, hcall.2⟩
  · have hcall := call_private (o := ([·])) hlib (fun hm hsub hr => hm.collectScalar hsub hr)
      hm hgiven hr
    exact ⟨hcall.1.separate, hcall.2⟩
  · exact ((hm.apart hargs).readAll (List.Subset.refl _) hr).private.separate
  · refine ⟨((hm.apart hhs).copiesOf (List.Subset.refl _) hr).private.separate, ?_⟩
    exact fun v _ hv s => HostScalar.put_raises hv s

/-- A machine is closed if its handles, as they are listed, are all of places. -/
theorem closed_of_all (h : (m.heap.cells.toList.flatMap (·.body.owned) ++ m.interp.places
    ++ m.others.flatMap (·.2.places)).all (fun k => k.index < m.heap.size) = true) : m.Closed := by
  intro k hk
  refine of_decide_eq_true (List.all_eq_true.1 h k ?_)
  rcases hk with ⟨j, hk⟩ | hk | ⟨p, hp, hk⟩
  · have howned := List.count_pos_iff.1 (m.heap.owners_pos hk)
    exact List.mem_append_left _ (List.mem_append_left _ howned)
  · exact List.mem_append_left _ (List.mem_append_right _ hk)
  · exact List.mem_append_right _ (List.mem_flatMap.2 ⟨p, hp, hk⟩)

/-- The result of a call of a closure that runs source text. -/
theorem relaying_copies : (∀ floor, relays.Careful (Custody.apart floor [])) ∧ relaying.Closed ∧
    ∃ vs m', (Host.callList (relays.reentry 4) (.name "relay") [.signed 3] .list).run relaying
      = .ok (.ok vs) m' ∧ vs.length = 1 ∧ m'.Separate relaying.heap.size vs := by
  have hlib (floor : Nat) : relays.Careful (Custody.apart floor []) :=
    relays_careful (Custody.apart_liberal floor [])
  have hclosed : relaying.Closed := closed_of_all (by decide +kernel)
  have hone : (Host.callList (relays.reentry 4) (.name "relay") [.signed 3] .list).run.Yields relaying
      fun r _ => (r.map List.length).toOption = some 1 := by decide +kernel
  obtain ⟨_ | vs, m', hrun, hlen⟩ := hone.exists_ok
  · cases hlen
  · have hcopies := (copies_separate hlib hclosed).1 (by decide) hrun
    exact ⟨hlib, hclosed, vs, m', hrun, Option.some.inj hlen, hcopies.1⟩

end Library

end ValueMachine

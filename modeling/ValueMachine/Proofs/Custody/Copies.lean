import ValueMachine.Proofs.Custody.Apart
import ValueMachine.Proofs.Custody.Libraries

/-! The results of calls from host code. Each is a copy in a new scalar with one count: nothing in
the machine refers to it, and it is none of the other results. -/

namespace ValueMachine

open Machine Run

variable {α β : Type} {m m' : Machine} {floor : Nat} {aside : List (Handle × Cell)}
  {held hs : List Handle} {h : Handle} {v : Held} {vs : List Held} {lib : Library}

namespace Bridge

theorem bind_ok {x : Bridge α} {f : α → Bridge β} {b : β} (h : (x >>= f).run m = .ok (.ok b) m') :
    ∃ a m₁, x.run m = .ok (.ok a) m₁ ∧ (f a).run m₁ = .ok (.ok b) m' := by
  rw [bind_apply] at h
  split at h
  next a m₁ hx => exact ⟨a, m₁, hx, h⟩
  next => cases h
  next => cases h

theorem ofRun_ok {x : Run α} {a : α} (h : (Bridge.ofRun x).run m = .ok (.ok a) m') :
    x m = .ok a m' := by
  rw [ofRun_apply] at h
  split at h
  next hx => cases h; exact hx
  next => cases h

theorem guarding_ok {x : Bridge α} {a : α} (h : (Bridge.guarding vs x).run m = .ok (.ok a) m') :
    x.run m = .ok (.ok a) m' := by
  rw [guarding, ExceptT.run_mk] at h
  obtain ⟨ended, m₁, hx, h⟩ := Run.bind_ok h
  rw [otherwise_apply] at hx
  cases hr : x.run m with
  | error e m₂ => rw [hr] at hx; cases hx
  | ok ended' m₂ =>
    rw [hr] at hx
    cases hx
    rcases ended with f | a'
    · cases h
    · cases h
      rfl

end Bridge

/-- A scalar that is read by copy comes as a new copy. -/
theorem Reading.scalar_ok (hr : (Reading.scalar .copy h).run m = .ok (.ok v) m') :
    newCopy h m = .ok v.handle m' := by
  obtain ⟨kind, m₁, hkind, hr⟩ := Bridge.bind_ok hr
  cases hkind
  split at hr
  next hscalar =>
    obtain ⟨k, m₂, hdup, hadopt⟩ := Run.bind_ok (Bridge.ofRun_ok hr)
    cases hadopt
    have hkind : m.kind h = .scalar := hscalar
    rwa [duplicate, Run.look_bind, hkind] at hdup
  next =>
    obtain ⟨w, m₂, -, hfail⟩ := Bridge.bind_ok hr
    cases hfail

theorem Custody.apart_liberal (floor : Nat) (aside : List (Handle × Cell)) :
    (Custody.apart floor aside).Liberal :=
  { Custody.apart_lawful floor aside with stops := fun _ _ => trivial }

/-! ### Copies that are set aside -/

/-- A copy of a value in hand is set aside. -/
theorem Machine.Apart.newCopy {k : Handle} (hm : m.Apart floor aside held) (hh : h ∈ held)
    (hr : newCopy h m = .ok k m') :
    ∃ s, m'.Apart floor ((k, .fresh (.scalar s)) :: aside) held := by
  have hC := Custody.apart_lawful floor aside
  obtain ⟨s, m₁, hslots, halloc⟩ := Run.bind_ok hr
  cases halloc
  have hend := hC.copySlots hh m hm
  rw [hslots] at hend
  have hnew := hend.allocAside (b := .scalar s) (List.subset_append_left _ _)
  exact ⟨s, (Custody.apart_lawful _ _).mono (List.subset_append_right _ _) hnew⟩

/-- Some values are set aside, each in a new scalar. -/
def Machine.Collected (m : Machine) (floor : Nat) (aside : List (Handle × Cell))
    (held : List Handle) (vs : List Held) : Prop :=
  ∃ made, m.Apart floor (made ++ aside) held ∧ made.map (·.1) = (vs.map (·.handle)).reverse ∧
    ∀ p ∈ made, ∃ s, p.2 = .fresh (.scalar s)

namespace Machine.Collected

theorem nil (hm : m.Apart floor aside held) : m.Collected floor aside held [] :=
  ⟨[], hm, rfl, by simp⟩

theorem newCopy {k : Handle} (hm : m.Apart floor aside held) (hh : h ∈ held)
    (hr : Machine.newCopy h m = .ok k m') (i : InterpId) :
    m'.Collected floor aside held [⟨k, i⟩] := by
  obtain ⟨s, hm'⟩ := hm.newCopy hh hr
  refine ⟨[(k, .fresh (.scalar s))], hm', rfl, fun p hp => ⟨s, ?_⟩⟩
  rw [List.mem_singleton.1 hp]

theorem scalar (hm : m.Apart floor aside held) (hh : h ∈ held)
    (hr : (Reading.scalar .copy h).run m = .ok (.ok v) m') : m'.Collected floor aside held [v] :=
  newCopy hm hh (Reading.scalar_ok hr) v.owner

/-- More values are set aside beside the former ones. -/
theorem append {m₁ : Machine} {ws : List Held} (hm : m₁.Collected floor aside held vs)
    (hnext : ∀ {aside}, m₁.Apart floor aside held → m'.Collected floor aside held ws) :
    m'.Collected floor aside held (vs ++ ws) := by
  obtain ⟨made, hmade, hhandles, hcells⟩ := hm
  obtain ⟨more, hmore, hhandles', hcells'⟩ := hnext hmade
  refine ⟨more ++ made, by rwa [List.append_assoc], by simp [hhandles, hhandles'], ?_⟩
  intro p hp
  exact (List.mem_append.1 hp).elim (hcells' p) (hcells p)

end Machine.Collected

theorem Machine.Apart.collectList (hm : m.Apart floor aside held) (hsub : hs ⊆ held)
    (hr : (Host.collectList hs).run m = .ok (.ok vs) m') : m'.Collected floor aside held vs := by
  induction hs generalizing m aside vs with
  | nil =>
    cases hr
    exact .nil hm
  | cons h rest ih =>
    obtain ⟨v, m₁, hfirst, hr⟩ := Bridge.bind_ok hr
    obtain ⟨ws, m₂, hrest, hr⟩ := Bridge.bind_ok hr
    cases hr
    exact (Collected.scalar hm (hsub List.mem_cons_self) hfirst).append fun hm₁ =>
      ih hm₁ (List.subset_of_cons_subset hsub) (Bridge.guarding_ok hrest)

theorem Machine.Apart.collectScalar (hm : m.Apart floor aside held) (hsub : hs ⊆ held)
    (hr : (Host.collectScalar .scalar hs).run m = .ok (.ok v) m') :
    m'.Collected floor aside held [v] := by
  unfold Host.collectScalar at hr
  split at hr
  next h hlast => exact .scalar hm (hsub (List.mem_of_getLast? hlast)) hr
  next => cases hr

/-! ### Results of calls -/

/-- Values that only host code knows: they are new, of one count each, and different. -/
structure Machine.Private (m : Machine) (floor : Nat) (vs : List Held) : Prop where
  nodup : (vs.map (·.handle)).Nodup
  floor_le : ∀ v ∈ vs, floor ≤ v.handle.index
  cell : ∀ v ∈ vs, ∃ s, m.cell v.handle = .fresh (.scalar s)
  not_refers : ∀ v ∈ vs, ¬ m.Refers v.handle

theorem Machine.Collected.private (hm : m.Collected floor aside held vs) : m.Private floor vs := by
  obtain ⟨made, hapart, hhandles, hcells⟩ := hm
  have hmade {v : Held} (hv : v ∈ vs) : ∃ c, (v.handle, c) ∈ made := by
    have hmem : v.handle ∈ made.map (·.1) := by
      rw [hhandles, List.mem_reverse]
      exact List.mem_map_of_mem hv
    obtain ⟨⟨_, c⟩, hp, rfl⟩ := List.mem_map.1 hmem
    exact ⟨c, hp⟩
  constructor
  · have hnodup := hapart.nodup
    rw [List.map_append, hhandles] at hnodup
    exact List.nodup_reverse.1 (List.nodup_append.1 hnodup).1
  · intro v hv
    obtain ⟨c, hp⟩ := hmade hv
    exact hapart.above (List.mem_append_left _ hp)
  · intro v hv
    obtain ⟨c, hp⟩ := hmade hv
    obtain ⟨s, rfl⟩ := hcells _ hp
    exact ⟨s, hapart.kept (List.mem_append_left _ hp)⟩
  · intro v hv
    obtain ⟨c, hp⟩ := hmade hv
    exact hapart.not_refers (List.mem_append_left _ hp)

/-- The handles that a call is given. -/
def Host.given (target : Target) (args : List Datum) : List Handle :=
  target.handles ++ args.flatMap Datum.handles

theorem Host.handles_subset_given (target : Target) {args : List Datum} {d : Datum} (hd : d ∈ args) :
    d.handles ⊆ Host.given target args := fun _ hh =>
  List.mem_append_right _ (List.mem_flatMap.2 ⟨d, hd, hh⟩)

namespace Library

variable {depth : Nat} {target : Target} {args : List Datum} {want : Want}
  {collect : List Handle → Bridge α} {o : α → List Held} {a : α}

/-- A collector that sets aside what it collects. -/
def SetsAside (collect : List Handle → Bridge α) (o : α → List Held) : Prop :=
  ∀ {floor hs held a m m'}, m.Apart floor [] held → hs ⊆ held →
    (collect hs).run m = .ok (.ok a) m' → m'.Collected floor [] held (o a)

/-- What a call returns only its caller knows, if its collector sets it aside. -/
theorem call_private (hlib : ∀ floor, lib.Careful (Custody.apart floor []))
    (hcollect : SetsAside collect o) (hm : m.Closed)
    (hgiven : ∀ h ∈ Host.given target args, h.index < m.heap.size)
    (hr : (Host.call (lib.reentry depth) target args want collect).run m = .ok (.ok a) m') :
    m'.Private m.heap.size (o a) ∧ m'.Closed := by
  have hL := Custody.apart_liberal m.heap.size []
  have hC := hL.toLawful
  have hstart := hL.start (hL.reentry (hlib m.heap.size) depth) (List.subset_append_left _ _)
    (fun d hd => Host.handles_subset_given target hd) want _ (hC.enter (hm.apart hgiven))
  rw [Host.call_apply] at hr
  split at hr
  next result m₄ hscope =>
    cases hr
    obtain ⟨count, m₁, hcount, houtcome⟩ := Run.bind_ok hscope
    rw [hcount] at hstart
    rw [Host.outcome, Run.modifyGet_bind] at houtcome
    obtain ⟨t, m₃, ht, houtcome⟩ := Run.bind_ok houtcome
    have htruth := hC.truth List.mem_cons_self m₁.errorSlot.2 (hC.errorSlot hstart)
    rw [ht] at htruth
    split at houtcome
    next =>
      obtain ⟨v, m₅, -, hdied⟩ := Run.bind_ok houtcome
      cases hdied
    next =>
      obtain ⟨made, hmade, hcells⟩ := hcollect (hC.places htruth)
        (List.subset_append_of_subset_left _ (m₃.above_subset_places _)) houtcome
      have hclose := (Custody.apart_lawful _ _).close m.height hmade
      exact ⟨Machine.Collected.private ⟨made, hclose, hcells⟩, hclose.closed⟩
  next => cases hr

end Library

end ValueMachine

import ValueMachine.Proofs.Calls.ErrorVariable
import ValueMachine.Proofs.Custody.Boundary
import ValueMachine.Proofs.Ownership.Refusals

/-! Host values given to the machine. To make a value for one takes counts on what the host holds and
hands over one count, on the new value. Of the values that were there before it writes those that the
host gives, where a read hook says so, and no container. An exception on the way may lose counts and
is noted in `$@`, but it leaves everything else as it was. -/

namespace ValueMachine

open Machine

/-- The values that an operation may write: scalars, and containers. -/
structure Writable where
  scalars : List Handle
  containers : List Handle

namespace Writable

def handles (W : Writable) : List Handle := W.scalars ++ W.containers

/-- One more value may be written, whatever it is. -/
def add (W : Writable) (h : Handle) : Writable := ⟨h :: W.scalars, h :: W.containers⟩

/-- A value with this body is not to be written. -/
def Bars (W : Writable) (h : Handle) (b : Body) : Prop :=
  h ∉ W.containers ∧ (h ∈ W.scalars → b.scalar? = none)

/-- A value with this body is not to be written by an exception either, which may end up in any
scalar. -/
def BarsAll (W : Writable) (h : Handle) (b : Body) : Prop := h ∉ W.containers ∧ b.scalar? = none

variable {W : Writable} {h k : Handle} {b : Body}

theorem handles_add {held : List Handle} (hw : W.handles ⊆ held) : (W.add h).handles ⊆ h :: held :=
  List.append_subset.2 ⟨List.cons_subset_cons h (List.append_subset.1 hw).1,
    List.cons_subset_cons h (List.append_subset.1 hw).2⟩

theorem not_bars {s : Scalar} (hh : h ∈ W.scalars) (hb : b = .scalar s) : ¬W.Bars h b := by
  subst hb
  intro hbars
  cases hbars.2 hh

theorem bars_of_barsAll (hb : W.BarsAll h b) : W.Bars h b := ⟨hb.1, fun _ => hb.2⟩

theorem Bars.freed (hb : W.Bars h b) : W.Bars h .freed := ⟨hb.1, fun _ => rfl⟩

theorem BarsAll.freed (hb : W.BarsAll h b) : W.BarsAll h .freed := ⟨hb.1, rfl⟩

theorem Bars.add (hb : W.Bars h b) (hne : h ≠ k) : (W.add k).Bars h b :=
  ⟨fun hmem => hb.1 (List.mem_of_ne_of_mem hne hmem),
    fun hmem => hb.2 (List.mem_of_ne_of_mem hne hmem)⟩

theorem BarsAll.add (hb : W.BarsAll h b) (hne : h ≠ k) : (W.add k).BarsAll h b :=
  ⟨fun hmem => hb.1 (List.mem_of_ne_of_mem hne hmem), hb.2⟩

end Writable

namespace Machine

variable {Q : Handle → Body → Prop} {W : Writable} {m m' m₁ m₂ m₃ : Machine} {h k : Handle}

/-- Of the values that were there, those of a kind have the bodies that they had or are freed. -/
structure Leaves (Q : Handle → Body → Prop) (m m' : Machine) : Prop where
  size_le : m.heap.size ≤ m'.heap.size
  body : ∀ k, k.index < m.heap.size → Q k (m.body k) → m'.body k = m.body k ∨ m'.body k = .freed

namespace Leaves

theorem refl (m : Machine) : Leaves Q m m := ⟨le_rfl, fun _ _ _ => .inl rfl⟩

theorem trans (h₁ : Leaves Q m₁ m₂) (h₂ : Leaves Q m₂ m₃) (hQ : ∀ {k b}, Q k b → Q k .freed) :
    Leaves Q m₁ m₃ where
  size_le := h₁.size_le.trans h₂.size_le
  body k hs hq := by
    have hs₂ := hs.trans_le h₁.size_le
    rcases h₁.body k hs hq with hb | hb
    · rw [← hb] at hq ⊢
      exact h₂.body k hs₂ hq
    · rcases h₂.body k hs₂ (hb ▸ hQ hq) with hb' | hb'
      · exact .inr (hb'.trans hb)
      · exact .inr hb'

theorem mono {Q' : Handle → Body → Prop} (h : Leaves Q m m')
    (hQ : ∀ k b, k.index < m.heap.size → Q' k b → Q k b) : Leaves Q' m m' :=
  ⟨h.size_le, fun k hs hq => h.body k hs (hQ k _ hs hq)⟩

/-- Only what is not of the kind is written. -/
theorem of_spares (hspares : Spares h m m') (hh : ¬Q h (m.body h)) : Leaves Q m m' := by
  refine ⟨hspares.size_le, fun k hs hq => hspares.body k ?_ hs⟩
  rintro rfl
  exact hh hq

/-- A value that was not there may be written. -/
theorem of_spares_next (hspares : Spares h m m') (hh : m.heap.size ≤ h.index) : Leaves Q m m' := by
  refine ⟨hspares.size_le, fun k hs _ => hspares.body k ?_ hs⟩
  rintro rfl
  omega

theorem of_fades (hfades : m.Fades m') : Leaves Q m m' :=
  ⟨hfades.size_le, fun k hs _ => hfades.body k hs⟩

theorem of_heap_eq (heap : m'.heap = m.heap) : Leaves Q m m' :=
  ⟨by rw [heap], fun k _ _ => .inl (by rw [Machine.body, Machine.body, cell, cell, heap])⟩

theorem alloc (m : Machine) (b : Body) : Leaves Q m (m.alloc b).2 :=
  ⟨by simp [Machine.alloc], fun _ hs _ => .inl (body_alloc m b (ne_next_of_lt hs))⟩

theorem retain (m : Machine) (h : Handle) : Leaves Q m (m.retain h) :=
  .of_spares_next (.retain m h) (le_refl m.heap.next.index)

theorem releaseAll (m : Machine) (hs : List Handle) : Leaves Q m (m.releaseAll hs) :=
  .of_spares_next ((spares_keptByRelease m.heap.next m).releaseAll hs (.refl _ m)) le_rfl

/-- A value that is still there has its body. -/
theorem body_eq (hm : Leaves Q m m') (hs : m.isFreed k = false) (hq : Q k (m.body k))
    (hf : m'.isFreed k = false) : m'.body k = m.body k := by
  rcases hm.body k (index_lt_of_not_isFreed hs) hq with hb | hb
  · exact hb
  · rw [isFreed, hb] at hf
    cases hf

/-- A message in `$@` overwrites a scalar at most. -/
theorem setErrorText (m : Machine) (message : String) :
    Leaves W.BarsAll m (m.setErrorText message) := by
  let m₁ := (m.allocMortal (.scalar (.ofText message))).2
  have hnew : Leaves W.BarsAll m m₁ := (alloc m _).trans (.of_heap_eq rfl) Writable.BarsAll.freed
  have hslot : Leaves W.BarsAll m₁ m₁.errorSlot.2 := by
    unfold Machine.errorSlot
    cases m₁.interp.error with
    | some h => exact refl m₁
    | none =>
      exact (of_fades (Fades.global m₁ .scalar "@")).trans (.of_heap_eq rfl) Writable.BarsAll.freed
  refine (hnew.trans hslot Writable.BarsAll.freed).trans ?_ Writable.BarsAll.freed
  show Leaves _ _ (m₁.setError _)
  unfold Machine.setError
  cases hb : m₁.errorSlot.2.body m₁.errorSlot.1 with
  | scalar former =>
    simp only [hb]
    refine .of_spares (.replaceScalar m₁.errorSlot.2 m₁.errorSlot.1 former _) fun hbars => ?_
    rw [hb] at hbars
    cases hbars.2
  | _ => simp only [hb]; exact refl _

end Leaves

end Machine

/-! ### Operations that take counts over and hand some over -/

/-- The end of an operation with these counts outside: a result hands over counts, and an exit may lose
some. -/
def Machine.Trade {α : Type} (m : Machine) (W : Writable) (held : List Handle)
    (out : α → List Handle) : EStateM.Result Exit Machine α → Prop
  | .ok a m' => m.Settles m' (out a ++ held) ∧ m.Leaves W.Bars m'
  | .error _ m' => (∃ lost, m'.Orderly (lost ++ held)) ∧ m.Leaves W.BarsAll m'

/-- An operation takes over the counts that are given and hands some over. It writes values that are
held, and no other one. -/
def Run.Trades {α : Type} (x : Run α) (W : Writable) (given : List Handle) (out : α → List Handle) : Prop :=
  ∀ ⦃m : Machine⦄ ⦃held : List Handle⦄, W.handles ⊆ held → m.Orderly (given ++ held) →
    m.Trade W held out (x m)

/-- A value is at work with a count in hand, which is lost where the work exits. -/
def Run.Works {α : Type} (x : Run α) (h : Handle) (W : Writable) : Prop :=
  ∀ ⦃m : Machine⦄ ⦃held : List Handle⦄, W.handles ⊆ held → m.Orderly (h :: held) →
    m.Trade (W.add h) held (fun _ => [h]) (x m)

namespace Run.Trades

variable {α β γ : Type} {W : Writable} {given : List Handle} {out : α → List Handle} {x : Run α}
  {m m' : Machine} {held : List Handle}

theorem ok {a : α} (hx : x.Trades W given out) (hw : W.handles ⊆ held)
    (hm : m.Orderly (given ++ held)) (hr : x m = .ok a m') :
    m.Settles m' (out a ++ held) ∧ m.Leaves W.Bars m' := by
  have hend := hx hw hm
  rwa [hr] at hend

theorem error {e : Exit} (hx : x.Trades W given out) (hw : W.handles ⊆ held)
    (hm : m.Orderly (given ++ held)) (hr : x m = .error e m') :
    (∃ lost, m'.Orderly (lost ++ held)) ∧ m.Leaves W.BarsAll m' := by
  have hend := hx hw hm
  rwa [hr] at hend

theorem pure (a : α) (ha : out a = given) : (Pure.pure a : Run α).Trades W given out :=
  fun _ _ _ hm => ⟨ha ▸ .refl hm, .refl _⟩

theorem bind {mid : α → List Handle} {out : β → List Handle} {f : α → Run β}
    (hx : x.Trades W given mid) (hf : ∀ a, (f a).Trades W (mid a) out) :
    (x >>= f).Trades W given out := by
  intro m held hw hm
  rw [Run.bind_apply]
  cases hr : x m with
  | error e m₁ => exact hx.error hw hm hr
  | ok a m₁ =>
    obtain ⟨hs, hl⟩ := hx.ok hw hm hr
    have hend := hf a hw hs.orderly
    show m.Trade W held out (f a m₁)
    cases hr' : f a m₁ with
    | ok b m₂ =>
      rw [hr'] at hend
      exact ⟨hs.trans hend.1, hl.trans hend.2 Writable.Bars.freed⟩
    | error e m₂ =>
      rw [hr'] at hend
      exact ⟨hend.1, (hl.mono fun _ _ _ => Writable.bars_of_barsAll).trans hend.2
        Writable.BarsAll.freed⟩

theorem look (f : Machine → α) : (Run.look f).Trades W [] fun _ => [] := fun _ _ _ hm =>
  ⟨.refl hm, .refl _⟩

theorem change {f : Machine → Machine} {back : List Handle}
    (hf : ∀ ⦃m : Machine⦄ ⦃held : List Handle⦄, W.handles ⊆ held → m.Orderly (given ++ held) →
      m.Settles (f m) (back ++ held) ∧ m.Leaves W.Bars (f m)) :
    (Run.change f).Trades W given fun _ => back := fun _ _ hw hm => hf hw hm

theorem raise (f : Fault) : (ValueMachine.raise f : Run α).Trades W given out :=
  fun _ _ _ hm => ⟨⟨given, (hm.setErrorText f.message).orderly⟩, .setErrorText _ _⟩

theorem forM {step : γ → Run PUnit} {cs : List γ}
    (h : ∀ c ∈ cs, (step c).Trades W [] fun _ => []) :
    (cs.forM step).Trades W [] fun _ => [] := by
  induction cs with
  | nil => exact pure _ rfl
  | cons c rest ih =>
    exact bind (h c List.mem_cons_self) fun _ => ih fun c hc => h c (List.mem_cons_of_mem _ hc)

/-- What is not taken over stays with the caller. -/
theorem keep (hx : x.Trades W given out) (more : List Handle) :
    x.Trades W (given ++ more) fun a => out a ++ more := by
  intro m held hw hm
  have hend := hx (List.subset_append_of_subset_right more hw) (List.append_assoc .. ▸ hm)
  cases hr : x m with
  | ok a m₁ =>
    rw [hr] at hend
    exact ⟨List.append_assoc .. ▸ hend.1, hend.2⟩
  | error e m₁ =>
    rw [hr] at hend
    obtain ⟨⟨lost, hlost⟩, hl⟩ := hend
    exact ⟨⟨lost ++ more, List.append_assoc .. ▸ hlost⟩, hl⟩

variable {h : Handle}

theorem works (hx : x.Trades (W.add h) [] fun _ => []) : x.Works h W := by
  intro m held hw hm
  have hend := hx (Writable.handles_add hw) hm
  cases hr : x m with
  | ok a m₁ =>
    rw [hr] at hend
    exact hend
  | error e m₁ =>
    rw [hr] at hend
    obtain ⟨⟨lost, hlost⟩, hl⟩ := hend
    exact ⟨⟨lost ++ [h], by rwa [List.append_assoc]⟩, hl⟩

/-- The count may be given back on the way out. -/
theorem works_otherwise (hx : x.Trades (W.add h) [] fun _ => []) :
    (x.otherwise (·.release h)).Works h W := by
  intro m held hw hm
  have hend := hx (Writable.handles_add hw) hm
  rw [otherwise_apply]
  cases hr : x m with
  | ok a m₁ =>
    rw [hr] at hend
    exact hend
  | error e m₁ =>
    rw [hr] at hend
    obtain ⟨⟨lost, hlost⟩, hl⟩ := hend
    have hreleased := Orderly.release (hlost.perm List.perm_middle)
    exact ⟨⟨lost, hreleased.orderly⟩, hl.trans (.releaseAll m₁ [h]) Writable.BarsAll.freed⟩

/-- A new value is worked on before it is used. -/
theorem new {β : Type} {b : Body} {y : Handle → Run β} {f : Handle → β → Run α} (hb : b.owned = [])
    (hfreed : b.isFreed = false) (hkeyed : b.Keyed) (hy : ∀ h, (y h).Works h W)
    (hf : ∀ h c, (f h c).Trades W [h] out) :
    ((MonadStateOf.modifyGet fun m : Machine => m.alloc b : Run Handle) >>= fun h =>
      y h >>= f h).Trades W [] out := by
  intro m held hw hm
  have halloc : m.Settles (m.alloc b).2 (m.heap.next :: held) :=
    Orderly.alloc b (by rwa [hb]) hfreed hkeyed
  -- the new value is none of those that were there, so that it may be written
  have hleaves {Q Q' : Handle → Body → Prop} {m' : Machine} (hl : (m.alloc b).2.Leaves Q' m')
      (hQ : ∀ {k c}, k ≠ m.heap.next → Q k c → Q' k c) : m.Leaves Q m' := by
    refine ⟨halloc.ages.size_le.trans hl.size_le, fun k hs hq => ?_⟩
    have hne : k ≠ m.heap.next := ne_next_of_lt hs
    have hold := body_alloc m b hne
    rw [← hold]
    exact hl.body k (hs.trans_le halloc.ages.size_le) (hQ hne (hold ▸ hq))
  have hend := hy m.heap.next hw halloc.orderly
  show m.Trade W held out ((y m.heap.next >>= f m.heap.next) (m.alloc b).2)
  rw [Run.bind_apply]
  cases hr : y m.heap.next (m.alloc b).2 with
  | error e m₁ =>
    rw [hr] at hend
    exact ⟨hend.1, hleaves hend.2 fun hne hq => hq.add hne⟩
  | ok c m₁ =>
    rw [hr] at hend
    have hend' := hf m.heap.next c hw hend.1.orderly
    show m.Trade W held out (f m.heap.next c m₁)
    cases hr' : f m.heap.next c m₁ with
    | ok a m₂ =>
      rw [hr'] at hend'
      exact ⟨halloc.trans (hend.1.trans hend'.1),
        (hleaves hend.2 fun hne hq => hq.add hne).trans hend'.2 Writable.Bars.freed⟩
    | error e m₂ =>
      rw [hr'] at hend'
      refine ⟨hend'.1, Leaves.trans ?_ hend'.2 Writable.BarsAll.freed⟩
      exact hleaves hend.2 fun hne hq => (Writable.bars_of_barsAll hq).add hne

end Run.Trades

namespace Machine

open Run

variable {W : Writable} {given : List Handle} {h : Handle} {s : Scalar} {m : Machine} {held : List Handle}

/-! ### Scalars -/

theorem newScalar_trades (s : Scalar) : (newScalar s).Trades W s.owned ([·]) :=
  fun _ _ _ hm => ⟨Orderly.newScalar hm rfl, .alloc _ _⟩

theorem store_trades (hh : h ∈ W.scalars) : (store h s).Trades W s.owned fun _ => [] := by
  intro m held _ hm
  rw [store, Run.look_bind]
  split
  next =>
    have hreleased := Orderly.releaseAll s.owned hm
    refine ⟨⟨[], (hreleased.orderly.setErrorText _).orderly⟩, ?_⟩
    exact (Leaves.releaseAll m s.owned).trans (.setErrorText _ _) Writable.BarsAll.freed
  next =>
    cases hb : (m.cell h).body with
    | scalar former =>
      exact ⟨hm.replaceScalar hb,
        .of_spares (.replaceScalar m h former s) (Writable.not_bars hh hb)⟩
    | _ => exact ⟨⟨s.owned, (hm.setErrorText _).orderly⟩, .setErrorText _ _⟩

theorem runReadAction_trades (hh : h ∈ W.scalars) (g : Magic) (a : ReadAction) :
    (runReadAction h g a).Trades W [] fun _ => [] := by
  have hnote (f : Machine → Machine) (hf : ∀ m, (f m).heap = m.heap ∧ (f m).interp = m.interp ∧
      (f m).here = m.here ∧ (f m).others = m.others) :
      (Run.change f).Trades W [] fun _ => [] := .change fun m held _ hm => by
    obtain ⟨heap, interp, here, others⟩ := hf m
    exact ⟨hm.settles_of_eq heap (by rw [interp]) (by rw [interp]) (by rw [interp]) others here,
      .of_heap_eq heap⟩
  cases a with
  | record label => exact hnote _ fun m => ⟨rfl, rfl, rfl, rfl⟩
  | tick =>
    refine .bind (hnote _ fun m => ⟨rfl, rfl, rfl, rfl⟩) fun _ => .bind (.look _) fun n => ?_
    exact store_trades (s := .ofInt64 _) hh

theorem runReadHooks_trades (hh : h ∈ W.scalars) :
    (runReadHooks h).Trades W [] fun _ => [] :=
  .bind (.look _) fun _ => .forM fun g _ => .forM fun a _ => runReadAction_trades hh g a

theorem copySlots_trades (hh : h ∈ W.scalars) : (copySlots h).Trades W [] Scalar.owned := by
  refine .bind (runReadHooks_trades hh) fun _ => ?_
  intro m held hw hm
  rw [Run.look_bind]
  cases hs : m.scalar? h with
  | none => exact Trades.raise .copyOfNonScalar hw hm
  | some s =>
    have hb := body_of_scalar? hs
    refine ⟨Orderly.foldl_retain hm fun k hk => ?_, .of_spares (spares_retainAll s.owned) (Writable.not_bars hh hb)⟩
    exact hm.not_isFreed_of_mem_owned (h := h) (by rw [hb]; exact hk)

theorem newCopy_trades (hh : h ∈ W.scalars) : (newCopy h).Trades W [] ([·]) :=
  .bind (copySlots_trades hh) fun s => newScalar_trades s

theorem retain_trades {target : Handle} (hh : target ∈ W.handles) :
    (Run.change (·.retain target)).Trades W [] fun _ => [target] := .change fun m _ hw hm =>
  ⟨Orderly.retain hm (hm.not_isFreed_of_mem (hw hh)), .retain m target⟩

theorem newReference_trades {target : Handle} (hh : target ∈ W.handles) :
    (newReference target).Trades W [] ([·]) :=
  .bind (retain_trades hh) fun _ => newScalar_trades (.ofTarget target)

/-! ### Containers -/

theorem onSlots_trades {α : Type} {f : Slots → α × Slots} {out : α → List Handle} (hh : h ∈ W.containers)
    (hf : ∀ xs k, (Slots.owned (f xs).2).count k + (out (f xs).1).count k
      = (Slots.owned xs).count k + given.count k) : (onSlots h f).Trades W given out := by
  intro m held hw hm
  cases hb : m.body h with
  | array xs =>
    rw [onSlots_apply hb]
    exact ⟨hm.onSlots given out (onSlots_apply hb f) hf, .of_spares (.setBody m h _) fun hbars => hbars.1 hh⟩
  | _ =>
    rw [onSlots, Run.look_bind, hb]
    exact Trades.raise .notArray hw hm

theorem arrayPush_trades (hh : h ∈ W.containers) (value : Handle) :
    (arrayPush h value).Trades W [value] fun _ => [] :=
  onSlots_trades hh fun xs k => by
    rw [Slots.count_owned_append, List.count_append]
    rfl

theorem hashPut_trades (hh : h ∈ W.containers) (key : Bytes) (value : Handle) :
    (hashPut h key value).Trades W [value] fun _ => [] := by
  intro m held hw hm
  cases hb : m.body h with
  | hash t =>
    let m₁ := m.setBody h (.hash (t.insert key value))
    have hset : Leaves W.Bars m m₁ := .of_spares (.setBody m h _) fun hbars => hbars.1 hh
    have hstore : hashStore h key value m = .ok (t.get? key) m₁ := by
      rw [hashStore, onTable, Run.look_bind, hb]
      rfl
    cases hg : t.get? key with
    | none =>
      have hrun : hashPut h key value m = .ok () m₁ := by
        rw [hashPut, Run.bind_of_ok hstore, hg]
        rfl
      rw [hrun]
      exact ⟨hm.hashPut hrun, hset⟩
    | some former =>
      have hrun : hashPut h key value m = .ok () (m₁.release former) := by
        rw [hashPut, Run.bind_of_ok hstore, hg]
        rfl
      rw [hrun]
      exact ⟨hm.hashPut hrun, hset.trans (.releaseAll m₁ [former]) Writable.Bars.freed⟩
  | _ =>
    have hrun : hashPut h key value m = ValueMachine.raise .notHash m := by
      rw [hashPut, hashStore, Run.bind_apply, onTable, Run.look_bind, hb]
      rfl
    rw [hrun]
    exact Trades.raise .notHash hw hm

/-! ### Objects -/

theorem bless_trades (h : Handle) (className : String) :
    (bless h className).Trades W [] fun _ => [] := by
  intro m held hw hm
  rw [bless, Run.look_bind]
  cases m.target? h with
  | none => exact Trades.raise .blessOfNonReference hw hm
  | some target =>
    exact ⟨Orderly.decorate hm id (fun _ => some className) (hm.harmless target),
      .of_fades (.update m target _ (fun _ => rfl) fun _ => rfl)⟩

theorem storeObject_trades (hh : h ∈ W.scalars) (className : Option String) (n : Int64) :
    (storeObject h className n).Trades W [] fun _ => [] := by
  refine .bind (newScalar_trades (.ofInt64 n)) fun target =>
    .bind (store_trades (s := .ofTarget target) hh) fun _ => ?_
  cases className with
  | none => exact .pure _ rfl
  | some c => exact bless_trades h c

end Machine

namespace Datum

open Machine Run

theorem freshOf_trades {W : Writable} {v : Held} (hv : v.handle ∈ W.scalars) :
    (freshOf v).Trades W [] ([·]) := by
  refine .bind (.look _) fun kind => ?_
  split
  · exact newCopy_trades hv
  · exact newReference_trades (List.mem_append_left _ hv)

theorem claim_trades {W : Writable} (i : InstanceId) :
    (Run.change (·.claim i)).Trades W [] fun _ => [] := .change fun m held _ hm => by
  unfold Machine.claim
  split <;> exact ⟨hm.settles_of_eq rfl rfl rfl rfl rfl rfl, .of_heap_eq rfl⟩

theorem attach_trades {W : Writable} (h : Handle) {g : Magic}
    (hg : FreeAction.touch ∉ g.table.onFree) :
    (Run.change (·.attach h g)).Trades W [] fun _ => [] := .change fun m held _ hm => by
  refine ⟨Orderly.decorate hm (· ++ [g]) id fun g' hg' => ?_,
    .of_fades (.update m h _ (fun _ => rfl) fun _ => rfl)⟩
  rcases List.mem_append.1 hg' with hg' | hg'
  · exact hm.harmless h g' hg'
  · rwa [List.mem_singleton.1 hg']

theorem objectOf_trades {W : Writable} (i : InstanceId) :
    (objectOf i).Trades W [] ([·]) := by
  refine .bind (claim_trades i) fun _ => .bind (.look _) fun className => ?_
  refine Trades.new (b := .scalar .undefined) rfl rfl trivial (fun h => Trades.works
    (storeObject_trades List.mem_cons_self _ _)) fun h _ => ?_
  refine .bind ((Trades.look _).keep [h]) fun target => ?_
  cases target with
  | none => exact .pure _ rfl
  | some target =>
    have hattach := (attach_trades (W := W) target (g := ⟨Magic.extension, .bridge,
      i.identity⟩) (by simp [HookTable.bridge])).keep [h]
    exact .bind hattach fun _ => .pure _ rfl

end Datum

mutual

/-- The value that is made for a host value belongs to the caller. -/
theorem Datum.toValue_trades {W : Writable} :
    (d : Datum) → d.handles ⊆ W.scalars → d.toValue.Trades W [] ([·])
  | .absent, _ | .signed _, _ | .unsigned _, _ | .float _, _ | .text _, _ => by
    rw [Datum.toValue]
    exact newScalar_trades _
  | .bool b, _ => by
    rw [Datum.toValue]
    have hs : (Scalar.ofBool b).owned = [] := by cases b <;> rfl
    have hnew := newScalar_trades (W := W) (.ofBool b)
    rwa [hs] at hnew
  | .list items, hd => by
    rw [Datum.handles] at hd
    rw [Datum.toValue]
    exact Run.Trades.new (b := .array []) rfl rfl trivial (fun array => Run.Trades.works_otherwise
      (Datum.pushItems_trades List.mem_cons_self items (List.subset_cons_of_subset _ hd)))
      fun array _ => newScalar_trades (.ofTarget array)
  | .map pairs, hd => by
    rw [Datum.handles] at hd
    rw [Datum.toValue]
    exact Run.Trades.new (b := .hash .empty) rfl rfl List.nodup_nil (fun hash =>
      Run.Trades.works_otherwise (Datum.putPairs_trades List.mem_cons_self pairs
        (List.subset_cons_of_subset _ hd))) fun hash _ => newScalar_trades (.ofTarget hash)
  | .held v, hd | .scalar v, hd => by
    rw [Datum.toValue]
    exact Datum.freshOf_trades (hd (by simp [Datum.handles]))
  | .shared i, _ => by
    rw [Datum.toValue]
    exact Datum.objectOf_trades i

theorem Datum.pushItems_trades {W : Writable} {array : Handle} (ha : array ∈ W.containers) :
    (items : List Datum) → Datum.handlesOfItems items ⊆ W.scalars →
      (Datum.pushItems array items).Trades W [] fun _ => []
  | [], _ => .pure _ rfl
  | d :: rest, hd => by
    rw [Datum.handlesOfItems] at hd
    rw [Datum.pushItems]
    exact .bind (Datum.toValue_trades d (List.append_subset.1 hd).1) fun v =>
      .bind (arrayPush_trades ha v) fun _ =>
        Datum.pushItems_trades ha rest (List.append_subset.1 hd).2

theorem Datum.putPairs_trades {W : Writable} {hash : Handle} (hh : hash ∈ W.containers) :
    (pairs : List (String × Datum)) → Datum.handlesOfPairs pairs ⊆ W.scalars →
      (Datum.putPairs hash pairs).Trades W [] fun _ => []
  | [], _ => .pure _ rfl
  | (key, d) :: rest, hd => by
    rw [Datum.handlesOfPairs] at hd
    rw [Datum.putPairs]
    exact .bind (Datum.toValue_trades d (List.append_subset.1 hd).1) fun v =>
      .bind (hashPut_trades hh _ v) fun _ =>
        Datum.putPairs_trades hh rest (List.append_subset.1 hd).2

end

/-! ### New values -/

section New

variable {α β : Type} {W : Writable} {m m' : Machine} {held : List Handle} {v : Handle}

/-- What is made at last is new. -/
theorem Run.Trades.last_is_new {x : Run α} {f : α → Scalar} {out : α → List Handle}
    (hx : x.Trades W [] out) (hw : W.handles ⊆ held) (hm : m.Orderly held)
    (hr : (x >>= fun a => newScalar (f a)) m = .ok v m') : m.heap.size ≤ v.index := by
  obtain ⟨a, m₁, hx₁, hnew⟩ := Run.bind_ok hr
  obtain ⟨rfl, -⟩ := newScalar_ok hnew
  exact (hx.ok hw hm hx₁).2.size_le

/-- What is made after work on another new value is new as well. -/
theorem Run.Trades.last_is_new_of_works {b : Body} {y : Handle → Run β} {f : Handle → Scalar}
    (hb : b.owned = []) (hfreed : b.isFreed = false) (hkeyed : b.Keyed) (hy : ∀ h, (y h).Works h W)
    (hw : W.handles ⊆ held) (hm : m.Orderly held)
    (hr : ((MonadStateOf.modifyGet fun m : Machine => m.alloc b : Run Handle) >>= fun h =>
      y h >>= fun _ => newScalar (f h)) m = .ok v m') : m.heap.size ≤ v.index := by
  have hpure (h : Handle) : (Pure.pure h : Run Handle).Trades W [h] ([·]) := .pure h rfl
  have hx := Run.Trades.new hb hfreed hkeyed hy fun h _ => hpure h
  refine hx.last_is_new (f := f) (v := v) hw hm (Eq.trans ?_ hr)
  simp only [bind_assoc, pure_bind]

/-- The duplicate of a scalar is new, and so is a reference to something else. -/
theorem Datum.freshOf_is_new {u : Held} (hw : W.handles ⊆ held) (hm : m.Orderly held)
    (hu : u.handle ∈ W.scalars) (hr : Datum.freshOf u m = .ok v m') : m.heap.size ≤ v.index := by
  rw [Datum.freshOf, Run.look_bind] at hr
  by_cases hkind : m.kind u.handle = .scalar
  · rw [if_pos hkind] at hr
    exact (copySlots_trades hu).last_is_new (f := id) hw hm hr
  · rw [if_neg hkind] at hr
    have hretain : (Run.change (·.retain u.handle)).Trades W [] fun _ => [u.handle] :=
      retain_trades (List.mem_append_left _ hu)
    exact hretain.last_is_new (f := fun _ => .ofTarget u.handle) hw hm hr

/-- The object that stands for a host instance is new. -/
theorem Datum.objectOf_is_new {i : InstanceId} (hm : m.Orderly held)
    (hr : Datum.objectOf i m = .ok v m') : m.heap.size ≤ v.index := by
  obtain ⟨_, m₁, hclaim, hr₁⟩ := Run.bind_ok hr
  rw [Run.look_bind] at hr₁
  obtain ⟨h, m₂, hnew, hr₂⟩ := Run.bind_ok hr₁
  obtain ⟨rfl, -⟩ := newScalar_ok hnew
  obtain ⟨_, m₃, -, hr₃⟩ := Run.bind_ok hr₂
  rw [Run.look_bind] at hr₃
  have hv : v = m₁.heap.next := by
    cases ht : m₃.target? m₁.heap.next with
    | none =>
      rw [ht] at hr₃
      exact (Run.pure_ok hr₃).1
    | some target =>
      rw [ht] at hr₃
      obtain ⟨_, m₄, -, hr₄⟩ := Run.bind_ok hr₃
      exact (Run.pure_ok hr₄).1
  rw [hv]
  exact ((Datum.claim_trades (W := ⟨[], []⟩) i).ok (List.nil_subset _) hm hclaim).2.size_le

/-- The value that is made for a host value is new. -/
theorem Datum.toValue_is_new {d : Datum} (hw : W.handles ⊆ held) (hm : m.Orderly held)
    (hd : d.handles ⊆ W.scalars) (hr : d.toValue m = .ok v m') : m.heap.size ≤ v.index := by
  cases d with
  | absent | bool b | signed n | unsigned n | float x | text s =>
    rw [Datum.toValue] at hr
    obtain ⟨rfl, -⟩ := newScalar_ok hr
    exact le_rfl
  | list items =>
    rw [Datum.handles] at hd
    rw [Datum.toValue] at hr
    exact Run.Trades.last_is_new_of_works (b := .array []) (f := .ofTarget) rfl rfl trivial
      (fun array => Run.Trades.works_otherwise (Datum.pushItems_trades List.mem_cons_self items
        (List.subset_cons_of_subset _ hd))) hw hm hr
  | map pairs =>
    rw [Datum.handles] at hd
    rw [Datum.toValue] at hr
    exact Run.Trades.last_is_new_of_works (b := .hash .empty) (f := .ofTarget) rfl rfl List.nodup_nil
      (fun hash => Run.Trades.works_otherwise (Datum.putPairs_trades List.mem_cons_self pairs
        (List.subset_cons_of_subset _ hd))) hw hm hr
  | held u | scalar u =>
    rw [Datum.toValue] at hr
    exact Datum.freshOf_is_new hw hm (hd (by simp [Datum.handles])) hr
  | shared i =>
    rw [Datum.toValue] at hr
    exact Datum.objectOf_is_new hm hr

end New

end ValueMachine

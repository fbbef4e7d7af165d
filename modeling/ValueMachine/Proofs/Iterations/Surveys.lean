import ValueMachine.Proofs.Conversions.Failings
import ValueMachine.Proofs.Documents.Converting
import ValueMachine.Proofs.Iterations.Inspections
import ValueMachine.Proofs.Passage.Perusals

/-! Surveys of values. Every value keeps its count and what it refers to: only hooks write a scalar that
refers to nothing, and only the cursors of some hashes turn. The readings of which the document of a
scalar consists are surveys that turn no cursor. -/

namespace ValueMachine

open Machine

/-! ### What a survey may change -/

/-- The values that a body leads to. What a code value has captured is not looked at. -/
def Body.links : Body → List Handle
  | .scalar s => s.owned
  | .array xs => xs.filterMap id
  | .hash t => t.entries.map (·.2)
  | _ => []

theorem Body.links_subset_owned (b : Body) : b.links ⊆ b.owned := by
  cases b <;> first | exact List.Subset.refl _ | exact List.nil_subset _

/-- A body after a survey, which turns cursors where it may. -/
inductive Body.Surveyed (turns : Prop) : Body → Body → Prop
  | same (b : Body) : Surveyed turns b b
  | written {s s' : Scalar} : s.target = none → s'.target = none →
      Surveyed turns (.scalar s) (.scalar s')
  | turned {t : Table} (cursor : Option (List Bytes)) : turns →
      Surveyed turns (.hash t) (.hash { t with cursor := cursor })

namespace Body.Surveyed

variable {turns turns' : Prop} {b b₁ b₂ b₃ : Body}

theorem trans (h : b₁.Surveyed turns b₂) (h' : b₂.Surveyed turns b₃) : b₁.Surveyed turns b₃ := by
  cases h with
  | same => exact h'
  | written hs =>
    cases h' with
    | same => exact .written hs ‹_›
    | written _ hs' => exact .written hs hs'
  | turned _ hturns =>
    cases h' with
    | same => exact .turned _ hturns
    | turned cursor => exact .turned cursor hturns

theorem mono (h : b₁.Surveyed turns b₂) (hle : turns → turns') : b₁.Surveyed turns' b₂ := by
  cases h with
  | same => exact .same _
  | written hs hs' => exact .written hs hs'
  | turned cursor hturns => exact .turned cursor (hle hturns)

theorem links_eq (h : b₁.Surveyed turns b₂) : b₂.links = b₁.links := by
  cases h with
  | same | turned => rfl
  | written hs hs' => simp [links, Scalar.owned, hs, hs']

theorem isFreed_eq (h : b₁.Surveyed turns b₂) : b₂.isFreed = b₁.isFreed := by
  cases h <;> rfl

theorem keyed (h : b₁.Surveyed turns b₂) (hb : b₁.Keyed) : b₂.Keyed := by
  cases h with
  | same => exact hb
  | written => trivial
  | turned => exact hb

end Body.Surveyed

/-- A cell after a survey. -/
structure Cell.Surveyed (turns : Prop) (c c' : Cell) : Prop where
  count : c'.count = c.count
  immortal : c'.immortal = c.immortal
  body : c.body.Surveyed turns c'.body

namespace Machine

variable {m m' m₁ m₂ m₃ : Machine} {among among' : Handle → Prop} {h k : Handle}

/-- A machine after a survey that turns the cursors of some hashes. -/
structure Surveyed (among : Handle → Prop) (m m' : Machine) : Prop where
  here : m'.here = m.here
  isAlive : ∀ i, m'.isAlive i = m.isAlive i
  cell : ∀ k, (m.cell k).Surveyed (among k) (m'.cell k)

/-- Someone owns a value, or it is shared. -/
def Kept (m : Machine) (h : Handle) : Prop := (m.cell h).immortal = true ∨ (m.cell h).count ≠ 0

theorem Kept.index_lt (hk : m.Kept h) : h.index < m.heap.size := by
  by_contra hs
  rw [Kept, cell_of_size_le (Nat.not_lt.1 hs)] at hk
  rcases hk with hi | hc
  · cases hi
  · exact hc rfl

namespace Surveyed

theorem refl (m : Machine) : m.Surveyed among m := ⟨rfl, fun _ => rfl, fun _ => ⟨rfl, rfl, .same _⟩⟩

theorem trans (h : m₁.Surveyed among m₂) (h' : m₂.Surveyed among m₃) : m₁.Surveyed among m₃ where
  here := h'.here.trans h.here
  isAlive i := (h'.isAlive i).trans (h.isAlive i)
  cell k :=
    have h₁ := h.cell k
    have h₂ := h'.cell k
    ⟨h₂.count.trans h₁.count, h₂.immortal.trans h₁.immortal, h₁.body.trans h₂.body⟩

theorem mono (h : m.Surveyed among m') (hsub : ∀ k, among k → among' k) : m.Surveyed among' m' :=
  { h with cell := fun k => { h.cell k with body := (h.cell k).body.mono (hsub k) } }

/-- A step that is not about the values. -/
theorem of_heap_eq (here : m'.here = m.here) (alive : m'.alive = m.alive) (heap : m'.heap = m.heap) :
    m.Surveyed among m' :=
  ⟨here, fun i => by rw [Machine.isAlive, Machine.isAlive, alive], fun _ => by
    rw [Machine.cell, Machine.cell, heap]
    exact ⟨rfl, rfl, .same _⟩⟩

theorem setBody {b : Body} (hlt : h.index < m.heap.size) (hb : (m.body h).Surveyed (among h) b) :
    m.Surveyed among (m.setBody h b) where
  here := rfl
  isAlive _ := rfl
  cell k := by
    by_cases hk : k = h
    · subst hk
      rw [cell_setBody b hlt]
      exact ⟨rfl, rfl, hb⟩
    · rw [cell_setBody_ne b hk]
      exact ⟨rfl, rfl, .same _⟩

theorem alive (h : m.Surveyed among m') (hlive : m.isAlive m.here) : m'.isAlive m'.here := by
  rwa [h.isAlive, h.here]

theorem kept (h : m.Surveyed among m') (hk : m.Kept k) : m'.Kept k := by
  rwa [Kept, (h.cell k).immortal, (h.cell k).count]

theorem body (h : m.Surveyed among m') (k : Handle) :
    (m.body k).Surveyed (among k) (m'.body k) :=
  (h.cell k).body

theorem array {xs : Slots} (h : m.Surveyed among m') (hb : m.body k = .array xs) :
    m'.body k = .array xs := by
  have hs := h.body k
  rw [hb] at hs
  generalize m'.body k = b at hs ⊢
  cases hs
  rfl

/-- A hash keeps its entries. -/
theorem hash {t : Table} (h : m.Surveyed among m') (hb : m.body k = .hash t) :
    ∃ cursor, m'.body k = .hash { t with cursor := cursor } := by
  have hs := h.body k
  rw [hb] at hs
  generalize m'.body k = b at hs ⊢
  cases hs with
  | same => exact ⟨t.cursor, rfl⟩
  | turned cursor => exact ⟨cursor, rfl⟩

/-- A hash whose cursor may not be turned stays as it is. -/
theorem hash_of_not {t : Table} (h : m.Surveyed among m') (hb : m.body k = .hash t)
    (hk : ¬ among k) : m'.body k = .hash t := by
  have hs := h.body k
  rw [hb] at hs
  generalize m'.body k = b at hs ⊢
  cases hs with
  | same => rfl
  | turned _ hturns => exact absurd hturns hk

/-- A shared value is held without a count. -/
theorem dropAll_shared (hlive : m.isAlive m.here) (hi : (m.cell h).immortal = true)
    (hs : m.Surveyed among m₁) : m₁.dropAll [⟨h, m.here⟩] = m₁ := by
  have hrelease : m₁.release h = m₁ := by
    simp only [release, releaseWithin, (hs.cell h).immortal, hi, Bool.true_or, if_true]
  show m₁.drop ⟨h, m.here⟩ = m₁
  rw [drop_eq (hs.alive hlive) hs.here.symm (by rw [hrelease]), hrelease]

/-- A value that was held for a survey is given back with the count that it had. -/
theorem dropAll (hlive : m.isAlive m.here) (hk : m.Kept h)
    (hs : (m.retain h).Surveyed among m₁) :
    m.Surveyed among (m₁.dropAll [⟨h, m.here⟩]) ∧
      ∀ k, (m₁.dropAll [⟨h, m.here⟩]).body k = m₁.body k := by
  cases hi : (m.cell h).immortal with
  | true =>
    have hretain : m.retain h = m := by rw [retain, if_pos hi]
    rw [hretain] at hs
    rw [dropAll_shared hlive hi hs]
    exact ⟨hs, fun _ => rfl⟩
  | false =>
    have hcount : (m.cell h).count ≠ 0 := hk.resolve_left (by simp [hi])
    have hhere : m₁.here = m.here := hs.here.trans (m.here_retain h)
    have hcell := hs.cell h
    rw [cell_retain hi hk.index_lt] at hcell
    have hcount₁ : (m₁.cell h).count = (m.cell h).count + 1 := hcell.count
    have hlt : h.index < m₁.heap.size := Kept.index_lt (m := m₁) (.inr (by omega))
    have hrelease := release_of_one_lt (hcell.immortal.trans hi) (by omega)
    have hdrop : m₁.dropAll [⟨h, m.here⟩]
        = m₁.onHeap (·.set h { m₁.cell h with count := (m₁.cell h).count - 1 }) := by
      show m₁.drop ⟨h, m.here⟩ = _
      rw [drop_eq (hs.alive (alive_retain h hlive)) hhere.symm (by rw [hrelease]; rfl), hrelease]
    have hself (c : Cell) : (m₁.onHeap (·.set h c)).cell h = c := Heap.get_set_self _ _ _ hlt
    have hother {k : Handle} (hkh : k ≠ h) (c : Cell) :
        (m₁.onHeap (·.set h c)).cell k = m₁.cell k := Heap.get_set_ne _ _ _ _ hkh
    rw [hdrop]
    refine ⟨⟨hhere, fun i => (hs.isAlive i).trans (m.isAlive_retain h i), fun k => ?_⟩, fun k => ?_⟩
    · by_cases hkh : k = h
      · subst hkh
        rw [hself]
        refine ⟨?_, hcell.immortal.trans rfl, hcell.body⟩
        show (m₁.cell k).count - 1 = _
        omega
      · rw [hother hkh]
        have hc := hs.cell k
        rwa [cell_retain_of_ne hkh] at hc
    · by_cases hkh : k = h
      · subst hkh
        rw [Machine.body, hself]
        rfl
      · rw [Machine.body, hother hkh]
        rfl

/-- A new undefined value that is given up leaves nothing. -/
theorem dropNew (hlive : m.isAlive m.here) :
    m.Surveyed among ((m.alloc (.scalar .undefined)).2.dropAll [⟨m.heap.next, m.here⟩]) := by
  have hback := (Planted.alloc m (s := .undefined) rfl).drop hlive
  show m.Surveyed among ((m.alloc (.scalar .undefined)).2.drop ⟨m.heap.next, m.here⟩)
  generalize (m.alloc (.scalar .undefined)).2.drop ⟨m.heap.next, m.here⟩ = m' at hback ⊢
  refine ⟨by rw [hback.rest], fun i => by rw [hback.rest]; rfl, fun k => ?_⟩
  rw [hback.cell k]
  exact ⟨rfl, rfl, .same _⟩

end Surveyed

end Machine

/-! ### Readings of scalars -/

namespace Machine

variable {m m' : Machine} {among : Handle → Prop} {h : Handle}

/-- A scalar that refers to nothing and that someone owns. -/
structure Leaf (m : Machine) (h : Handle) : Prop where
  alive : m.isAlive m.here
  kept : m.Kept h
  body : ∃ s, m.body h = .scalar s ∧ s.target = none

theorem Leaf.surveyed (hl : m.Leaf h) (hs : m.Surveyed among m') : m'.Leaf h where
  alive := hs.alive hl.alive
  kept := hs.kept hl.kept
  body := by
    obtain ⟨s, hb, hnone⟩ := hl.body
    have hbody := hs.body h
    rw [hb] at hbody
    generalize m'.body h = b at hbody ⊢
    cases hbody with
    | same => exact ⟨s, rfl, hnone⟩
    | written _ hs' => exact ⟨_, rfl, hs'⟩

end Machine

/-- No cursor. -/
def nowhere (_ : Handle) : Prop := False

/-- What returns has surveyed a scalar and has turned no cursor. -/
def Run.Surveys {α : Type} (x : Run α) (h : Handle) : Prop :=
  ∀ ⦃m a m'⦄, m.Leaf h → x m = .ok a m' → m.Surveyed nowhere m'

namespace Run.Surveys

variable {α β γ : Type} {x : Run α} {f : α → Run β} {h : Handle}

theorem pure (a : α) : Surveys (Pure.pure a : Run α) h := fun m _ _ _ hr => by
  cases hr
  exact .refl m

theorem look (g : Machine → α) : Surveys (Run.look g) h := fun m _ _ _ hr => by
  cases hr
  exact .refl m

theorem change {g : Machine → Machine} (hg : ∀ m : Machine, m.Leaf h → m.Surveyed nowhere (g m)) :
    Surveys (Run.change g) h := fun m _ _ hm hr => by
  cases hr
  exact hg m hm

theorem bind (hx : Surveys x h) (hf : ∀ a, Surveys (f a) h) : Surveys (x >>= f) h := by
  intro m b m' hm hr
  obtain ⟨a, m₁, hr₁, hr₂⟩ := bind_ok hr
  have hs := hx hm hr₁
  exact hs.trans (hf a (hm.surveyed hs) hr₂)

theorem forM {step : γ → Run PUnit} (hstep : ∀ c, Surveys (step c) h) (cs : List γ) :
    Surveys (cs.forM step) h := by
  induction cs with
  | nil => exact pure _
  | cons c rest ih => exact bind (hstep c) fun _ => ih

/-- A scalar that refers to nothing is written. -/
theorem store {s : Scalar} (hs : s.target = none) : Surveys (store h s) h := fun m _ _ hm hr => by
  obtain ⟨former, hb, -, rfl⟩ := store_ok hr
  obtain ⟨s₀, hb₀, hnone⟩ := hm.body
  cases hb.symm.trans hb₀
  have hreplaced : m.replaceScalar h former s = (m.setBody h (.scalar s)).noteWrite h := by
    rw [Machine.replaceScalar, Scalar.owned, hnone]
    rfl
  obtain ⟨log, hlog⟩ := (m.setBody h (.scalar s)).noteWrite_eq h
  rw [hreplaced, hlog]
  have hset : m.Surveyed nowhere (m.setBody h (.scalar s)) :=
    .setBody hm.kept.index_lt (hb ▸ .written hnone hs)
  exact hset.trans (.of_heap_eq rfl rfl rfl)

theorem readHooks : Surveys (runReadHooks h) h := by
  refine bind (look _) fun c => .forM (fun g => .forM (fun a => ?_) _) c.magic
  cases a with
  | record label => exact .change fun _ _ => .of_heap_eq rfl rfl rfl
  | tick =>
    exact bind (.change fun _ _ => .of_heap_eq rfl rfl rfl) fun _ => bind (look _) fun _ => store rfl

theorem reading (g : Machine → α) : Surveys (do runReadHooks h; Run.look g : Run α) h :=
  readHooks.bind fun _ => .look g

theorem isDefined : Surveys (isDefined h) h := .reading _

theorem number : Surveys (number h) h := .reading _

theorem text : Surveys (text h) h := .reading _

theorem string : Surveys (string h) h := .bind text fun _ => .pure _

end Run.Surveys

namespace Bridge

variable {α β : Type} {x : Bridge α} {f : α → Bridge β} {h : Handle} {m m' : Machine}
  {r : Except Failure β}

theorem get_bind_returned {f : Machine → Bridge β} (hr : (MonadState.get >>= f).run m = .ok r m') :
    (f m).run m = .ok r m' := hr

theorem look_bind_returned {g : Machine → α} (hr : (Bridge.look g >>= f).run m = .ok r m') :
    (f (g m)).run m = .ok r m' := hr

/-- What returns has surveyed a scalar. A failure holds it. -/
def Surveys (x : Bridge α) (h : Handle) : Prop :=
  ∀ ⦃m r m'⦄, m.Leaf h → x.run m = .ok r m' → match r with
    | .ok _ => m.Surveyed nowhere m'
    | .error e => ∃ m₁, m.Surveyed nowhere m₁ ∧ e.held = [⟨h, m₁.here⟩] ∧ m' = m₁.retain h

namespace Surveys

theorem pure (a : α) : Surveys (Pure.pure a : Bridge α) h := fun m _ _ _ hr => by
  cases hr
  exact .refl m

theorem bind (hx : Surveys x h) (hf : ∀ a, Surveys (f a) h) : Surveys (x >>= f) h := by
  intro m r m' hm hr
  rcases bind_returned hr with ⟨e, hx', rfl⟩ | ⟨a, m₁, hx', hf'⟩
  · exact hx hm hx'
  · have hs : m.Surveyed nowhere m₁ := hx hm hx'
    have hend := hf a (hm.surveyed hs) hf'
    cases r with
    | ok b => exact hs.trans hend
    | error e =>
      obtain ⟨m₂, hs₂, hheld, rfl⟩ := hend
      exact ⟨m₂, hs.trans hs₂, hheld, rfl⟩

theorem ofRun {x : Run α} (hx : x.Surveys h) : Surveys (Bridge.ofRun x) h := fun m r m' hm hr => by
  cases r with
  | ok a => exact hx hm (ofRun_ok hr)
  | error e => exact absurd hr ofRun_not_failed

theorem get : Surveys (MonadState.get : Bridge Machine) h := ofRun (.look id)

theorem ite {c : Prop} [Decidable c] {y : Bridge α} (hx : Surveys x h) (hy : Surveys y h) :
    Surveys (if c then x else y) h := by
  split
  · exact hx
  · exact hy

theorem about {g : Held → Failure} (hg : ∀ v, (g v).held = [v] := by intro; rfl) :
    Surveys (Failure.about h g : Bridge α) h := fun m r m' _ hr => by
  obtain ⟨v, m₁, hhold, hfail⟩ := ofRun_bind_returned hr
  cases (m.hold_apply h).symm.trans hhold
  cases hfail
  exact ⟨m, .refl m, hg _, rfl⟩

end Surveys

end Bridge

namespace Strict

open Bridge

variable {h : Handle}

theorem number_surveys (want : String) : (number h want).Surveys h := by
  refine (Surveys.ofRun .isDefined).bind fun b => ?_
  cases b
  case' false => refine Surveys.bind .about fun _ => ?_
  -- whether or not it is defined, it is read as the number it holds or its text is
  all_goals
    refine Surveys.get.bind fun m => .ite .about (.ite (.ofRun .number) (.ite ?_ .about))
    refine (Surveys.ofRun .text).bind fun t => ?_
    cases Number.ofBytes? t.bytes with
    | some n => exact .pure n
    | none => exact .about

theorem signed_surveys : (signed h).Surveys h := by
  refine (number_surveys _).bind fun n => ?_
  cases n.toSigned? with
  | some n => exact .pure n
  | none => exact .about

end Strict

namespace Document

open Bridge

variable {h : Handle} {m m' : Machine} {r : Except Failure Json}

/-- The document of a scalar is taken by a survey. -/
theorem ofScalar_surveyed (hm : m.Leaf h) (hr : (ofScalar h).run m = .ok r m') :
    m.Surveyed nowhere m' := by
  obtain ⟨defined, m₁, hdefined, hr⟩ := ofRun_bind_returned hr
  have hs₁ := Run.Surveys.isDefined hm hdefined
  have hm₁ := hm.surveyed hs₁
  refine hs₁.trans ?_
  cases defined with
  | false =>
    cases hr
    exact .refl _
  | true =>
    rw [if_pos rfl] at hr
    replace hr := get_bind_returned hr
    split at hr
    · obtain ⟨ended, m₂, hsigned, hr⟩ := ofRun_bind_returned hr
      have hend := Strict.signed_surveys hm₁ hsigned
      cases ended with
      | ok n =>
        cases hr
        exact hend
      | error f =>
        obtain ⟨m₃, hs₃, hheld, rfl⟩ := hend
        obtain ⟨⟨⟩, m₄, hdrop, hr⟩ := ofRun_bind_returned hr
        obtain ⟨n, m₅, hnumber, hr⟩ := ofRun_bind_returned hr
        cases hr
        cases hdrop
        have hm₃ := hm₁.surveyed hs₃
        have hback : m₃.Surveyed nowhere ((m₃.retain h).dropAll _) :=
          (Surveyed.dropAll hm₃.alive hm₃.kept (.refl _)).1
        rw [hheld] at hnumber
        exact hs₃.trans (hback.trans (Run.Surveys.number (hm₃.surveyed hback) hnumber))
    · split at hr
      · obtain ⟨n, m₂, hnumber, hr⟩ := ofRun_bind_returned hr
        cases hr
        exact Run.Surveys.number hm₁ hnumber
      · obtain ⟨t, m₂, hstring, hr⟩ := ofRun_bind_returned hr
        cases hr
        exact Run.Surveys.string hm₁ hstring

end Document

end ValueMachine

import ValueMachine.Proofs.Ownership.Duplicates
import ValueMachine.Proofs.Passage.Sprouts

/-! Perusals. A value without hooks is read without a trace: what is held for the time of a reading
is given back, and only the cursors of the hashes that were read may have moved. A perusal may also
end by a failure. -/

namespace ValueMachine

open Machine

variable {α β : Type} {m m₁ m₂ m' : Machine} {h k : Handle} {b : Body}
  {s : Scalar} {hs places among among' : List Handle} {fs : List Form}

namespace Machine

/-- A machine after a perusal: all is as it was, but for the cursors of hashes at some places. -/
structure Perused (among : List Handle) (m m' : Machine) : Prop where
  rest : m' = { m with heap := m'.heap }
  size_eq : m'.heap.size = m.heap.size
  cell : ∀ k, m'.cell k = m.cell k ∨ k ∈ among ∧ ∃ t cursor,
    m.body k = .hash t ∧ m'.cell k = { m.cell k with body := .hash { t with cursor := cursor } }

namespace Perused

theorem refl (m : Machine) : m.Perused among m := ⟨rfl, rfl, fun _ => .inl rfl⟩

theorem here (hp : m.Perused among m') : m'.here = m.here := by rw [hp.rest]

theorem isAlive (hp : m.Perused among m') (i : InterpId) : m'.isAlive i = m.isAlive i := by
  rw [hp.rest]
  rfl

/-- The interpreter in focus lives on. -/
theorem alive (hp : m.Perused among m') (hlive : m.isAlive m.here) : m'.isAlive m'.here := by
  rwa [hp.isAlive, hp.here]

theorem live (hp : m.Perused among m') : m'.interp.live = m.interp.live := by rw [hp.rest]

theorem count (hp : m.Perused among m') (k : Handle) : (m'.cell k).count = (m.cell k).count := by
  rcases hp.cell k with he | ⟨-, t, cursor, -, he⟩ <;> rw [he]

theorem cell_of_notMem (hp : m.Perused among m') (hk : k ∉ among) : m'.cell k = m.cell k :=
  (hp.cell k).resolve_right fun hmoved => hk hmoved.1

theorem mono (hp : m.Perused among m') (hsub : among ⊆ among') : m.Perused among' m' :=
  ⟨hp.rest, hp.size_eq, fun k => (hp.cell k).imp_right (.imp_left (@hsub k))⟩

theorem agrees (hp : m.Perused among m') (k : Handle) : (m.cell k).Agrees True (m'.cell k) := by
  rcases hp.cell k with he | ⟨-, t, cursor, hb, he⟩
  · rw [he]
    exact .refl _
  · rw [he]
    exact ⟨rfl, rfl, le_rfl, .inr ⟨trivial, t, cursor, hb, rfl⟩⟩

theorem trans (hp : m.Perused among m₁) (hp₁ : m₁.Perused among m₂) : m.Perused among m₂ where
  rest := hp₁.rest.trans (congrArg (fun x : Machine => { x with heap := m₂.heap }) hp.rest)
  size_eq := hp₁.size_eq.trans hp.size_eq
  cell k := by
    rcases hp.cell k with he | ⟨hmem, t, cursor, hb, he⟩
    · rcases hp₁.cell k with he' | ⟨hmem, t, cursor, hb, he'⟩
      · exact .inl (he'.trans he)
      · exact .inr ⟨hmem, t, cursor, (congrArg Cell.body he).symm.trans hb, by rw [he', he]⟩
    · refine .inr ⟨hmem, t, ?_⟩
      rcases hp₁.cell k with he' | ⟨-, t', cursor', hb', he'⟩
      · exact ⟨cursor, hb, he'.trans he⟩
      · cases (congrArg Cell.body he).symm.trans hb'
        exact ⟨cursor', hb, by rw [he', he]⟩

end Perused

theorem Bare.perused (hb : m.Bare h b) (hp : m.Perused among m') (hhash : ∀ t, b ≠ .hash t) :
    m'.Bare h b :=
  hb.agrees (hp.agrees h) hhash

/-- The cursor of a hash moves. -/
theorem Bare.perused_setCursor {t : Table} (hb : m.Bare h (.hash t)) (hmem : h ∈ among)
    (cursor : Option (List Bytes)) :
    m.Perused among (m.setBody h (.hash { t with cursor := cursor })) where
  rest := rfl
  size_eq := Heap.size_set ..
  cell k := by
    by_cases hk : k = h
    · subst hk
      exact .inr ⟨hmem, t, cursor, hb.body, cell_setBody _ hb.index_lt⟩
    · exact .inl (cell_setBody_ne _ hk)

theorem Grove.perused (hg : m.Grove hs fs places) (hp : m.Perused among m') :
    m'.Grove hs fs places :=
  hg.congr fun k _ => hp.agrees k

/-- What has been made is still new after a perusal. -/
theorem Sprouts.perused (hm : m.Sprouts m₁ places) (hp : m₁.Perused among m')
    (hsub : among ⊆ places) : m.Sprouts m' places where
  rest := by
    refine hp.rest.trans ?_
    rw [hp.live]
    exact congrArg (fun x : Machine => { x with heap := m'.heap }) hm.rest
  live := hp.live.trans hm.live
  size_le := hm.size_le.trans_eq hp.size_eq.symm
  cell k hk := (hp.cell_of_notMem fun hmem => hk (hsub hmem)).trans (hm.cell k hk)
  new := hm.new
  one k hk := (hp.count k).trans (hm.one k hk)
  nodup := hm.nodup

/-! ### Holding for a while -/

theorem Bare.cell_retain (hb : m.Bare h b) :
    (m.retain h).cell h = { m.cell h with count := (m.cell h).count + 1 } :=
  Machine.cell_retain hb.counted hb.index_lt

theorem Bare.retain_eq (hb : m.Bare h b) :
    m.retain h = m.onHeap (·.update h fun c => { c with count := c.count + 1 }) := by
  rw [retain, if_neg (by simp [hb.counted])]

theorem isAlive_retain (m : Machine) (h : Handle) (i : InterpId) :
    (m.retain h).isAlive i = m.isAlive i := by
  unfold retain
  split <;> rfl

theorem alive_retain (h : Handle) (hlive : m.isAlive m.here) :
    (m.retain h).isAlive (m.retain h).here := by
  rwa [isAlive_retain, m.here_retain]

/-- A value may be held. -/
theorem Bare.retain (hb : m.Bare h b) (k : Handle) : (m.retain k).Bare h b := by
  by_cases hk : h = k
  · subst hk
    refine ⟨⟨?_, ?_, ?_⟩, ?_⟩ <;> simp only [body, hb.cell_retain]
    · exact hb.body
    · exact hb.counted
    · exact Nat.succ_ne_zero _
    · exact hb.magic
  · exact hb.congr (cell_retain_of_ne hk)

theorem Grove.retain (hg : m.Grove hs fs places) (k : Handle) : (m.retain k).Grove hs fs places :=
  hg.congr fun j _ => ((Agrees.retain m k 0).cell j).mono fun _ => trivial

theorem rest_onHeap (hrest : m' = { m with heap := m'.heap }) (f : Heap → Heap) :
    m'.onHeap f = { m with heap := (m'.onHeap f).heap } :=
  congrArg (fun x : Machine => { x with heap := f m'.heap }) hrest

/-- A value that was held for a while is given back as it was. -/
theorem Perused.dropAll (hb : m.Bare h b) (hlive : m.isAlive m.here)
    (hp : (m.retain h).Perused among m₁) : m.Perused among (m₁.dropAll [⟨h, m.here⟩]) := by
  have hhere : m₁.here = m.here := hp.here.trans (m.here_retain h)
  have halive : m₁.isAlive m₁.here := by
    rw [hhere, hp.isAlive, isAlive_retain]
    exact hlive
  have hb₁ := hb.retain h
  have hcount : (m₁.cell h).count = (m.cell h).count + 1 := by rw [hp.count, hb.cell_retain]
  have hne := hb.count_ne_zero
  have hrelease := release_of_one_lt ((hp.agrees h).immortal.trans hb₁.counted) (by omega)
  have hdrop : m₁.dropAll [⟨h, m.here⟩]
      = m₁.onHeap (·.set h { m₁.cell h with count := (m₁.cell h).count - 1 }) := by
    show m₁.drop ⟨h, m.here⟩ = _
    rw [drop_eq halive hhere.symm (by rw [hrelease]; rfl), hrelease]
  have hrest : m₁ = { m with heap := m₁.heap } := by
    refine hp.rest.trans ?_
    rw [hb.retain_eq]
    rfl
  have hindex : h.index < m₁.heap.size := by
    rw [hp.size_eq]
    exact hb₁.index_lt
  rw [hdrop]
  refine ⟨rest_onHeap hrest _, ?_, fun k => ?_⟩
  · show (m₁.heap.set h _).size = _
    rw [Heap.size_set, hp.size_eq, hb.retain_eq]
    exact Heap.size_set ..
  · by_cases hk : k = h
    · subst hk
      have hself (c : Cell) : (m₁.onHeap (·.set k c)).cell k = c :=
        Heap.get_set_self _ _ _ hindex
      rw [hself, hcount]
      rcases hp.cell k with he | ⟨hmem, t, cursor, hbody, he⟩
      · exact .inl (by rw [he, hb.cell_retain]; rfl)
      · refine .inr ⟨hmem, t, cursor, ?_, by rw [he, hb.cell_retain]; rfl⟩
        exact hb.body.trans (hb₁.body.symm.trans hbody)
    · have hother (c : Cell) : (m₁.onHeap (·.set h c)).cell k = m₁.cell k :=
        Heap.get_set_ne _ _ _ _ hk
      have hbefore : (m.retain h).cell k = m.cell k := cell_retain_of_ne hk
      have hp := hp.cell k
      rw [body, hbefore] at hp
      rwa [hother]

end Machine

namespace Bridge

/-- An operation ends in this way and leaves no trace but moved cursors at some places. -/
def Peruses (x : Bridge α) (m : Machine) (among : List Handle) (r : Except Failure α) : Prop :=
  ∃ m', x.run m = .ok r m' ∧ m.Perused among m'

namespace Peruses

variable {x : Bridge α} {f : α → Bridge β} {a : α} {r : Except Failure α} {r' : Except Failure β}
  {e : Failure}

theorem of_run (hx : x.run m = .ok r m) : x.Peruses m among r := ⟨m, hx, .refl m⟩

theorem pure (a : α) : (Pure.pure a : Bridge α).Peruses m among (.ok a) := .of_run rfl

theorem fail (e : Failure) : (Bridge.fail e : Bridge α).Peruses m among (.error e) := .of_run rfl

theorem bind (hx : x.Peruses m among (.ok a))
    (hf : ∀ m', m.Perused among m' → (f a).Peruses m' among r') :
    (x >>= f).Peruses m among r' := by
  obtain ⟨m₁, hx, hp⟩ := hx
  obtain ⟨m₂, hf, hp'⟩ := hf m₁ hp
  exact ⟨m₂, (run_bind hx).trans hf, hp.trans hp'⟩

/-- A failure ends what follows as well. -/
theorem bind_error (hx : x.Peruses m among (.error e)) :
    (x >>= f).Peruses m among (.error e) := by
  obtain ⟨m₁, hx, hp⟩ := hx
  exact ⟨m₁, by rw [Bridge.bind_apply, hx], hp⟩

theorem after (hx : x.run m = .ok (.ok a) m₁) (hp : m.Perused among m₁)
    (hf : (f a).Peruses m₁ among r') : (x >>= f).Peruses m among r' := by
  obtain ⟨m₂, hf, hp'⟩ := hf
  exact ⟨m₂, (run_bind hx).trans hf, hp.trans hp'⟩

theorem mono (hx : x.Peruses m among r) (hsub : among ⊆ among') : x.Peruses m among' r := by
  obtain ⟨m', hx, hp⟩ := hx
  exact ⟨m', hx, hp.mono hsub⟩

/-- What follows a perusal goes on from its result, or takes its failure over. -/
theorem bind_of (hx : x.Peruses m among r) (hsub : among ⊆ among')
    (hok : ∀ a m', r = .ok a → m.Perused among m' → (f a).Peruses m' among' r')
    (herror : ∀ e, r = .error e → r' = .error e) : (x >>= f).Peruses m among' r' := by
  cases hr : r with
  | ok a =>
    rw [hr] at hx
    obtain ⟨m₁, hx, hp⟩ := hx
    exact .after hx (hp.mono hsub) (hok a m₁ hr hp)
  | error e =>
    rw [hr] at hx
    rw [herror e hr]
    exact (hx.mono hsub).bind_error

theorem look_bind {g : Machine → α} (hf : (f (g m)).Peruses m among r') :
    (Bridge.look g >>= f).Peruses m among r' := hf

theorem ofRun {y : Run α} (hy : y m = .ok a m) : (Bridge.ofRun y).Peruses m among (.ok a) :=
  .of_run (run_ofRun hy)

/-- A value is held while it is read. -/
theorem holding {y : Bridge Held} {g : Held → Bridge α}
    (hy : y.run m = .ok (.ok ⟨h, m.here⟩) (m.retain h)) (hb : m.Bare h b)
    (hlive : m.isAlive m.here) (hg : (g ⟨h, m.here⟩).Peruses (m.retain h) among r) :
    (y >>= fun v => Bridge.releasing [v] (g v)).Peruses m among r := by
  obtain ⟨m₁, hg, hp⟩ := hg
  refine ⟨_, (run_bind hy).trans ?_, .dropAll hb hlive hp⟩
  show ((g ⟨h, m.here⟩).run.always (·.dropAll [⟨h, m.here⟩])) (m.retain h) = _
  rw [Run.always_apply, hg]

/-- What has been read before holds no counts to give back. -/
theorem guarding_nil (hx : x.Peruses m among r) : (Bridge.guarding [] x).Peruses m among r := by
  obtain ⟨m', hx, hp⟩ := hx
  refine ⟨m', ?_, hp⟩
  rw [Bridge.guarding, ExceptT.run_mk, Run.bind_apply, Run.otherwise_apply, hx]
  cases r <;> rfl

theorem atArgument (i : Nat) (hx : x.Peruses m among (.ok a)) :
    (Bridge.atArgument i x).Peruses m among (.ok a) := by
  obtain ⟨m', hx, hp⟩ := hx
  refine ⟨m', ?_, hp⟩
  rw [Bridge.atArgument, ExceptT.run_mk, Run.bind_apply, hx]
  rfl

/-- A value is read with its own interpreter in focus. -/
theorem onOwner (hx : x.Peruses m among r) : (Bridge.onOwner ⟨h, m.here⟩ x).Peruses m among r := by
  obtain ⟨m', hx, hp⟩ := hx
  refine ⟨m', ?_, hp⟩
  have hfocus : m.focus m.here = m := focus_self rfl
  have hback : m'.focus m.here = m' := focus_self hp.here
  show (x.run.always (·.focus m.here)) (m.focus m.here) = _
  rw [hfocus, Run.always_apply, hx]
  show EStateM.Result.ok r (m'.focus m.here) = _
  rw [hback]

end Peruses

end Bridge

end ValueMachine

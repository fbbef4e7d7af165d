import ValueMachine.Proofs.Documents.Making
import ValueMachine.Proofs.Exceptions.Crossing

/-! The round trip of a document. Its source text is evaluated in a scope of its own; the value is
copied out before the scope is closed, and what the copy refers to outlives the temporaries. -/

namespace ValueMachine

open Machine Manner Source

variable {α : Type} {m m' : Machine} {bound : Nat} {h k : Handle} {b : Body} {s : Scalar}
  {held : List Handle} {j : Json}

namespace Machine

theorem mem_owned_ofTarget (h : Handle) : h ∈ (Body.scalar (.ofTarget h)).owned :=
  List.mem_singleton_self h

/-! ### What is left when a scope is closed -/

/-- Of a machine some values are freed, and the others are as they were. -/
structure Recedes (m m' : Machine) (held : List Handle) : Prop where
  orderly : m'.Orderly held
  ages : m.Ages m'
  body : ∀ h, h.index < m.heap.size → m'.body h = m.body h ∨ m'.body h = .freed

theorem Orderly.recedes_close (hm : m.Orderly held) (n : Nat) :
    m.Recedes (m.truncate n).freeTemps.leave held := by
  have hclose := hm.close n
  have hcut : ((m.truncate n).onInterp fun i => { i with temps := i.temps.cut i.floor }).Harmless :=
    hm.harmless
  exact ⟨hclose.orderly, hclose.ages, (hcut.fades_releaseAll _).body⟩

namespace Recedes

variable (hr : m.Recedes m' held)

include hr

/-- A value that is not freed lives on. -/
theorem lives (hb : m.Lives h b) (hf : m'.isFreed h = false) : m'.Lives h b := by
  have hcounted : (m'.cell h).immortal = false :=
    (hr.ages.immortal h hb.index_lt).trans hb.counted
  refine ⟨?_, hcounted, hr.orderly.count_ne_zero hf hcounted⟩
  rcases hr.body h hb.index_lt with he | hfreed
  · exact he.trans hb.body
  · rw [isFreed, hfreed] at hf
    cases hf

/-- What a value owns that lives on is not freed. -/
theorem not_isFreed (hb : m'.Lives h b) (hk : k ∈ b.owned) : m'.isFreed k = false :=
  hr.orderly.not_isFreed_of_mem_owned (hb.body.symm ▸ hk)

/-- A value that is not freed shows what it has shown. -/
theorem shows (hs : m.Shows bound j h) (hf : m'.isFreed h = false) : m'.Shows bound j h := by
  induction hs with
  | null hb => exact .null (hr.lives hb hf)
  | int hb => exact .int (hr.lives hb hf)
  | text hb => exact .text (hr.lives hb hf)
  | list hb hlt harray hlen hitems ih =>
    have hb' := hr.lives hb hf
    have harray' := hr.lives harray (hr.not_isFreed hb' (mem_owned_ofTarget _))
    refine .list hb' hlt harray' hlen fun p hp => ih p hp (hr.not_isFreed harray' ?_)
    have hmem := (List.of_mem_zip hp).2
    simpa [Body.owned] using hmem
  | object hb hlt htable hlen hkeys hfields ih =>
    have hb' := hr.lives hb hf
    have htable' := hr.lives htable (hr.not_isFreed hb' (mem_owned_ofTarget _))
    refine .object hb' hlt htable' hlen hkeys fun p hp => ih p hp (hr.not_isFreed htable' ?_)
    exact List.mem_map_of_mem (List.of_mem_zip hp).2

end Recedes

/-! ### The stages of an evaluation -/

theorem height_eq_length (m : Machine) : m.height = m.interp.stack.toList.length :=
  (Pile.length_toList _).symm

theorem top_eq_drop (m : Machine) (n : Nat) :
    m.top n = m.interp.stack.toList.drop (m.interp.stack.toList.length - n) := by
  rw [top, above, Pile.above_eq_drop, height_eq_length]

/-- One value is settled in scalar context. -/
theorem top_settle (m : Machine) (h : Handle) :
    ((m.pushAll [h]).settle m.height .scalar).2.top 1 = [h] := by
  rw [top_eq_drop, height_eq_length]
  simp [settle, above, Machine.pushAll, truncate, push, onInterp, Pile.above_eq_drop,
    Pile.toList_cut]

theorem Fit.errorSlot_grows (hm : m.Fit held) (log : Log) (bound : Nat) :
    m.Grows bound { m.errorSlot.2 with log := log } where
  drifts := hm.sound.errorSlot.trans (drifts_log hm.sound.errorSlot.tame log)
  stack := congrArg Stacks.values (Still.errorSlot m).same
  lives hb _ := hb.congr (congrArg (Heap.get · _) hm.heap_errorSlot)

/-- A copy of a scalar, held. -/
theorem holdCopy_makes (hm : m.Fit held) (hb : m.Lives h (.scalar s)) (bound : Nat) :
    (holdCopy h).Makes m bound fun v m' =>
      m'.Fit (v.handle :: held) ∧ m'.Lives v.handle (.scalar s) := by
  have hdup : duplicate h m = newCopy h m := by
    rw [duplicate, Run.look_bind, kind_of_scalar hb.body]
  obtain ⟨k, m₁, hcopy, hg, hcopied⟩ := newCopy_makes hm hb bound
  refine ⟨⟨k, m₁.here⟩, m₁, ?_, hg, hcopied⟩
  rw [holdCopy, Run.bind_of_ok (hdup.trans hcopy)]
  rfl

end Machine

theorem Reading.scalar_apply {v : Held} (hb : m.Lives h (.scalar s))
    (hcopy : holdCopy h m = .ok v m') : (Reading.scalar .copy h).run m = .ok (.ok v) m' := by
  show (if m.kind h = .scalar then Bridge.ofRun (holdCopy h) else _ : Bridge Held).run m = _
  rw [if_pos (kind_of_scalar hb.body)]
  exact Bridge.run_ofRun hcopy

namespace Json.Plain

variable {n : Nat} (hj : j.Plain n) (hm : m.Fit held)

include hj hm

/-- The source text of a plain document has one value, which shows the document. -/
theorem values_makes (r : Reentry) (want : Want) :
    (Source.values r (String.ofList j.source) want).Makes m m.heap.size fun values m' =>
      m'.Fit held ∧ ∃ h, values = [h] ∧ m'.Shows m'.heap.size j h := by
  have hvalues : Source.values r (String.ofList j.source) want = j.expr.eval r want := by
    have hstatement : (Statement.mk j.expr .done).eval r want
        = (j.expr.eval r want >>= fun values => pure (values ++ [])) := rfl
    rw [Source.values, hj.tokens_source]
    show evalStatements r want (statements j.tokens) = _
    rw [hj.statements_tokens, evalStatements, hstatement]
    simp
  rw [hvalues]
  exact hj.made r want hm

/-- The body of an evaluation leaves the value on top of the stack. -/
theorem bodyEnds (lib : Library) (depth : Nat) (args : List Datum) : ∃ h m',
    lib.BodyEnds depth (.source (String.ofList j.source)) args .scalar m (.ok 1 m') ∧
      m'.Bears (.ofByteText ⟨[], false⟩) held ∧ m'.top 1 = [h] ∧ m'.Shows m'.heap.size j h := by
  have hopened : m.enter.saveTemps.Fit held := hm.still rfl rfl
  have hcleared : m.enter.saveTemps.cleared.Bears (.ofByteText ⟨[], false⟩) held :=
    hopened.setError (by simp)
  obtain ⟨values, m₁, hrun, hg, hfit, h, rfl, hs⟩ :=
    hj.values_makes hcleared.toFit (lib.reentry depth) .scalar
  have hheight : m₁.height = m.enter.saveTemps.height := by
    rw [height_eq_length, height_eq_length, hg.stack]
    exact congrArg (·.values.length) (Still.setError m.enter.saveTemps _).same
  let m₂ := ((m₁.pushAll [h]).settle m₁.height .scalar).2
  have hbears : m₂.Bears (.ofByteText ⟨[], false⟩) held :=
    (hcleared.of_fit hg.drifts hfit).still rfl rfl
  have hagrees : m₁.Agrees 0 m₂ := ⟨rfl, fun _ => .refl _⟩
  refine ⟨h, m₂, ⟨_, _, m.enter.saveTemps, rfl, ?_⟩, hbears, top_settle m₁ h, hs.agrees hagrees⟩
  show Source.results _ _ m.enter.saveTemps.height _ m.enter.saveTemps.cleared = _
  rw [Source.results, Run.bind_of_ok hrun, ← hheight]
  rfl

/-- The evaluation of a plain document's source text returns a value that shows the document. -/
theorem evaluated (lib : Library) (depth : Nat) : ∃ v m',
    (Host.callScalar (lib.reentry (depth + 1)) .scalar (.source (String.ofList j.source)) []).run m
      = .ok (.ok v) m' ∧ m'.Fit (v.handle :: held) ∧ m'.Shows m'.heap.size j v.handle := by
  obtain ⟨h, m₁, hbody, hm₁, htop, hs⟩ := hj.bodyEnds hm lib depth []
  obtain ⟨log, hout⟩ := hm₁.sound.outcome_apply 1 (Host.collectScalar .scalar)
  have hg := hm₁.toFit.errorSlot_grows log m₁.heap.size
  have hm₂ : ({ m₁.errorSlot.2 with log := log } : Machine).Bears (.ofByteText ⟨[], false⟩) held :=
    (hm₁.of_fit hm₁.sound.errorSlot hm₁.errorSlot.1).still rfl rfl
  rw [if_neg (by rw [hm₁.errorTrue_eq]; decide)] at hout
  generalize ({ m₁.errorSlot.2 with log := log } : Machine) = m₂ at hout hg hm₂
  have hs₂ := hs.grows hg le_rfl
  obtain ⟨s, hb⟩ := hs₂.lives
  obtain ⟨v, m₃, hcopy, hg₃, hfit, hv⟩ := holdCopy_makes hm₂.toFit hb m₁.heap.size
  have hcollect : (Host.collectScalar .scalar (m₂.top 1)).run m₂ = .ok (.ok v) m₃ := by
    rw [top_eq_drop, hg.stack, ← top_eq_drop, htop]
    exact Reading.scalar_apply hb hcopy
  have hscope := (hbody.inScope_of_ok (Host.collectScalar .scalar)).trans (hout.trans hcollect)
  have hs₃ := (hs₂.grows hg₃ le_rfl).copy (hg₃.scalar hb) hv
  have hclose := (hm₂.of_fit hg₃.drifts hfit).close m.height
  obtain ⟨lost, horderly⟩ := hfit.orderly
  have hrecedes := horderly.recedes_close m.height
  refine ⟨v, _, ?_, hclose.toFit, ?_⟩
  · rw [Host.callScalar, Host.call_apply, hscope]
  · refine (hrecedes.shows hs₃ (hclose.not_isFreed List.mem_cons_self)).mono ?_
    exact (hg.size_le.trans hg₃.size_le).trans hrecedes.ages.size_le

end Json.Plain

/-- A plain document of at most 256 levels comes back as it was when its source text is evaluated in
scalar context and the document of the result is read. -/
theorem Json.Plain.round_trip (hj : j.Plain 256) (hm : m.Fit held) (lib : Library) (depth : Nat) :
    ∃ v m₁ m₂, (Host.callScalar (lib.reentry (depth + 1)) .scalar
        (.source (String.ofList j.source)) []).run m = .ok (.ok v) m₁ ∧
      m₁.Fit (v.handle :: held) ∧ (Document.ofValue v.handle).run m₁ = .ok (.ok j) m₂ := by
  obtain ⟨v, m₁, hcall, hfit, hs⟩ := hj.evaluated hm lib depth
  obtain ⟨m₂, hread⟩ := Document.shows_ofValue hj hs hfit.sound.tame
  exact ⟨v, m₁, m₂, hcall, hfit, hread⟩

theorem Machine.fit_fresh : fresh.Fit [] :=
  ⟨sound_fresh _, ⟨[], orderly_fresh.1⟩, ⟨3⟩, rfl, rfl⟩

/-- A document with escapes in a key and in a text, and with both bounds of the integers. -/
def Json.sample : Json :=
  .object [("id", .int 18446744073709551615),
    ("it's", .list [.null, .int (-9223372036854775808), .text "a\\b", .list []])]

theorem Json.sample_plain : sample.Plain 256 := by
  refine .object (by decide +kernel) ?_
  simp only [List.forall_mem_cons, List.not_mem_nil, false_implies, implies_true, and_true]
  refine ⟨.int ⟨by decide, by decide⟩, .list ?_⟩
  simp only [List.forall_mem_cons, List.not_mem_nil, false_implies, implies_true, and_true]
  exact ⟨.null, .int ⟨by decide, by decide⟩, .text, .list (by simp)⟩

theorem Json.sample_round_trip :
    String.ofList sample.source = "\x7b'id' => 18446744073709551615, " ++
      "'it\\'s' => [undef, -9223372036854775808, 'a\\\\b', []]\x7d" ∧
    sample.Plain 256 ∧ fresh.Fit [] ∧
    ∃ v m₁ m₂, (Host.callScalar ((Library.mk (fun _ => none) fun _ => none).reentry 1) .scalar
        (.source (String.ofList sample.source)) []).run fresh = .ok (.ok v) m₁ ∧
      m₁.Fit [v.handle] ∧ (Document.ofValue v.handle).run m₁ = .ok (.ok sample) m₂ :=
  ⟨by decide +kernel, sample_plain, fit_fresh, sample_plain.round_trip fit_fresh _ 0⟩

end ValueMachine

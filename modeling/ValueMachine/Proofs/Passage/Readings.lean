import ValueMachine.Host.Embedded
import ValueMachine.Host.Scalar
import ValueMachine.Proofs.Numbers.Slots
import ValueMachine.Proofs.Passage.Perusals

/-! Readings of a new scalar. A scalar without hooks is read off its slots, and the machine stays as
it is. An integer that a type has comes back through the strict reading as that type. -/

namespace ValueMachine

open Machine Bridge

variable {α : Type} {m : Machine} {h : Handle} {b : Body} {s : Scalar}

namespace Machine.Bare

theorem readsAs (hb : m.Bare h (.scalar s)) : m.ReadsAs h s :=
  ⟨hb.body, by simp [hb.magic]⟩

theorem readHooks (hb : m.Bare h b) : runReadHooks h m = .ok () m := by
  rw [runReadHooks, Run.look_bind, hb.magic]
  rfl

theorem isDefined (hb : m.Bare h (.scalar s)) : isDefined h m = .ok s.isDefined m :=
  hb.readsAs.isDefined

theorem number (hb : m.Bare h (.scalar s)) : number h m = .ok s.number m := hb.readsAs.number

theorem truth (hb : m.Bare h (.scalar s)) : truth h m = .ok s.truth m := hb.readsAs.truth

theorem string {t : ByteText} (hb : m.Bare h (.scalar (.ofByteText t))) :
    string h m = .ok t.bytes.toText m := by
  rw [hb.readsAs.string, textAt, hb.scalar?]
  rfl

end Machine.Bare

namespace Strict

theorem signed_apply {w : Wide} (hb : m.Bare h (.scalar s)) (ht : s.target = none)
    (hint : s.int = some w) (hw : IntType.i64.contains w.toInt = true) :
    (Strict.signed h).run m = .ok (.ok w.toInt) m := by
  rw [hb.readsAs.signed, Scalar.strict?_of_int ht hint, Option.bind_some, Number.toSigned?, if_pos hw]
  rfl

/-- A value is held by the failure that it is no signed integer. -/
theorem signed_fails {w : Wide} (hb : m.Bare h (.scalar s)) (ht : s.target = none)
    (hint : s.int = some w) (hw : IntType.i64.contains w.toInt = false) :
    (Strict.signed h).run m = .ok (.error (.notNumber ⟨h, m.here⟩ "i64")) (m.retain h) := by
  have hstrict := Scalar.strict?_of_int ht hint
  rw [hb.readsAs.signed, hstrict, Scalar.refusal_of_strict? hstrict, Option.bind_some,
    Number.toSigned?, if_neg (Bool.eq_false_iff.1 hw)]
  rfl

/-- An integer that a type has is read from its slot. -/
theorem integer_apply {t : IntType} {n : Int} (hn : t.contains n = true)
    (hb : m.Bare h (.scalar (if t.isSigned then .ofInt64 (Int64.ofInt n)
      else .ofUInt64 (UInt64.ofNat n.toNat)))) : (Strict.integer t h).run m = .ok (.ok n) m := by
  have hread {w : Wide} (hs : m.ReadsAs h (.ofWide w)) (hw : w.toInt = n) :
      (Strict.integer t h).run m = .ok (.ok n) m := by
    rw [hs.integer_of_whole rfl, hw, if_pos hn]
    rfl
  split at hb
  next hsigned => exact hread hb.readsAs (Wide.toInt_signed (IntType.contains_i64 hsigned hn))
  next hsigned => exact hread hb.readsAs (Wide.toInt_unsigned (IntType.contains_u64 hsigned hn))

theorem float_apply {x : Float} (hb : m.Bare h (.scalar (.ofFloat x))) :
    (Strict.float h).run m = .ok (.ok x) m := hb.readsAs.float

theorem string_apply {s : String} (hb : m.Bare h (.scalar (.ofText s))) :
    (Strict.string h).run m = .ok (.ok s) m := by
  have htext : m.textAt h = .ofText s := by
    rw [textAt, hb.scalar?]
    rfl
  refine (run_bind hb.readsAs.strictText).trans ?_
  rw [htext, ByteText.ofText, Bytes.toText_ofText]
  rfl

end Strict

/-- The interpreter that has started is alive and in focus. -/
theorem Embedded.start_isAlive : ∃ e m, (start ⟨fun _ => none, fun _ => none⟩ .first .standard).run
    .empty = .ok (.ok e) m ∧ m.isAlive m.here = true := by
  have hstart : (start ⟨fun _ => none, fun _ => none⟩ .first .standard).run.Yields .empty fun r m =>
      r.isOk = true ∧ m.isAlive m.here = true := by decide +kernel
  obtain ⟨_ | e, m, hrun, hok, hlive⟩ := hstart.exists_ok
  · cases hok
  · exact ⟨e, m, hrun, hlive⟩

end ValueMachine

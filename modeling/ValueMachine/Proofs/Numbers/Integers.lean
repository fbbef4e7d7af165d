import ValueMachine.Proofs.Numbers.Agreement
import ValueMachine.Proofs.Numbers.Normality

/-! Integers across the boundary. A scalar that was given an integer of 64 bits, signed or unsigned, and
one that was given the decimal text of it are read by each integer type of host code as the integer
itself where the type has it, and as nothing else. -/

namespace ValueMachine

open Machine Bridge

variable {m : Machine} {h : Handle} {s : Scalar} {n : Int} {t : IntType}

/-- The decimal text of an integer has a minus sign where it is negative. -/
theorem toString_eq_decimal (n : Int) : toString n =
    if n < 0 then "-" ++ String.ofList (decimal n) else String.ofList (decimal n) := by
  cases n with
  | ofNat k => rfl
  | negSucc k => exact (if_pos (Int.negSucc_lt_zero k)).symm

namespace Scalar

/-- The slots of a scalar that is given an integer, by host code or by a numeral of a program. -/
inductive Given : Int → Scalar → Prop
  | signed (k : Int64) : Given k.toInt (.ofInt64 k)
  | unsigned (k : UInt64) : Given k.toNat (.ofUInt64 k)
  | numeral {n : Int} : Wide.Holds n → Given n (.ofNumber (.whole (.ofInt n)))

/-- The slots of a scalar that is given the decimal text of an integer. -/
def GivenText (n : Int) (s : Scalar) : Prop :=
  ∃ text : ByteText, text.bytes = Bytes.ofText (toString n) ∧ s = .ofByteText text

theorem Given.exists_wide (hs : Given n s) : ∃ w : Wide, w.toInt = n ∧ s = .ofWide w := by
  cases hs with
  | signed k => exact ⟨.signed k, rfl, rfl⟩
  | unsigned k =>
    have hbound : IntType.u64.contains k.toNat = true :=
      IntType.contains_u64_iff.2 ⟨Int.natCast_nonneg _, by exact_mod_cast k.toNat_lt⟩
    refine ⟨.ofUInt64 k, ?_, rfl⟩
    simpa using Wide.toInt_unsigned hbound
  | numeral hn => exact ⟨.ofInt n, Wide.toInt_ofInt hn, Scalar.ofNumber_ofInt n⟩

theorem exists_given (hn : Wide.Holds n) : ∃ s, Given n s := ⟨_, .numeral hn⟩

theorem Given.strict? (hs : Given n s) : ∃ w : Wide, w.toInt = n ∧ s.strict? = some (.whole w) := by
  obtain ⟨w, hw, rfl⟩ := hs.exists_wide
  exact ⟨w, hw, rfl⟩

theorem GivenText.strict? (hn : Wide.Holds n) (hs : GivenText n s) :
    ∃ w : Wide, w.toInt = n ∧ s.strict? = some (.whole w) := by
  obtain ⟨text, htext, rfl⟩ := hs
  refine ⟨.ofInt n, Wide.toInt_ofInt hn, ?_⟩
  show Number.ofBytes? text.bytes = _
  rw [htext, toString_eq_decimal]
  exact Number.ofBytes?_decimal hn

end Scalar

namespace Machine.ReadsAs

theorem string_of_given (hs : m.ReadsAs h s) (hn : Scalar.Given n s) :
    Machine.string h m = .ok (toString n) m := by
  obtain ⟨w, rfl, rfl⟩ := hn.exists_wide
  have htext : m.textAt h = ⟨Bytes.ofText w.text, false⟩ := by
    rw [textAt, hs.scalar?]
    rfl
  rw [hs.string, htext, Bytes.toText_ofText]
  rfl

end Machine.ReadsAs

/-- An integer that 64 bits hold is read as it is from the scalar that was given it and from one that
was given its text, by the types that have it and by no other. What is kept as an unsigned integer
is no signed one, whatever host code and programs have done. -/
theorem Wide.Holds.integers_convert (hn : Wide.Holds n) {lib : Library} (hlib : lib.Moves .normal) :
    (∃ s, Scalar.Given n s) ∧
      (∀ m h s, Scalar.Given n s → m.ReadsAs h s → Machine.string h m = .ok (toString n) m) ∧
      (∀ m h s, Scalar.Given n s ∨ Scalar.GivenText n s → m.ReadsAs h s → ∀ mode t,
        (t.contains n = true → ((HostType.int t).read mode h).run m = .ok (.ok n) m) ∧
        (t.contains n = false → ((HostType.int t).read mode h).run m =
          .ok (.error (.notNumber ⟨h, m.here⟩ (t.blamed n).name)) (m.retain h))) ∧
      ∀ m : Machine, m.Reached lib → ∀ h s k, m.body h = .scalar s → s.int = some (.unsigned k) →
        2 ^ 63 ≤ k.toNat := by
  refine ⟨Scalar.exists_given hn, fun m h s hs hm => hm.string_of_given hs,
    fun m h s hs hm mode t => ?_, fun m hm h s k hb => hm.normal hlib hb k⟩
  obtain ⟨w, rfl, hw⟩ := hs.elim (·.strict?) (·.strict? hn)
  have hread : ((HostType.int t).read mode h).run m = _ := hm.integer_of_whole hw t
  constructor
  · intro hcontains
    rw [hread, if_pos hcontains]
    rfl
  · intro hbeyond
    rw [hread, if_neg (Bool.eq_false_iff.1 hbeyond)]
    rfl

/-- A machine with a scalar that holds the least integer beyond the signed ones. -/
def Machine.beyondSigned : Machine := holdingScalar (.ofUInt64 9223372036854775808)

/-- It is read as an unsigned integer, and as no signed one. -/
theorem Machine.beyondSigned_reads :
    Wide.Holds (2 ^ 63) ∧ Library.relays.Moves .normal ∧
      ((HostType.int .u64).read .share fresh.heap.next).run beyondSigned =
        .ok (.ok (2 ^ 63)) beyondSigned ∧
      ((HostType.int .i64).read .share fresh.heap.next).run beyondSigned =
        .ok (.error (.notNumber ⟨fresh.heap.next, beyondSigned.here⟩ "i64"))
          (beyondSigned.retain fresh.heap.next) := by
  have hholds : Wide.Holds (2 ^ 63) := ⟨by omega, by omega⟩
  have hlib := Manner.normal_overall.relays
  have hvalue : ((9223372036854775808 : UInt64).toNat : Int) = 2 ^ 63 := rfl
  have hgiven : Scalar.Given (2 ^ 63) (.ofUInt64 9223372036854775808) := hvalue ▸ .unsigned _
  obtain ⟨-, -, hreads, -⟩ := hholds.integers_convert hlib
  have hread := hreads beyondSigned _ _ (.inl hgiven) (readsAs_holdingScalar _) .share
  have hfits : IntType.u64.contains (2 ^ 63) = true :=
    IntType.contains_u64_iff.2 ⟨by omega, by omega⟩
  have hbeyond : IntType.i64.contains (2 ^ 63) = false :=
    Bool.eq_false_iff.2 fun h => absurd (IntType.contains_i64_iff.1 h).2 (lt_irrefl _)
  exact ⟨hholds, hlib, (hread .u64).1 hfits, (hread .i64).2 hbeyond⟩

end ValueMachine

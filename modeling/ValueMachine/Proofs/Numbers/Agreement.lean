import ValueMachine.Proofs.Numbers.Reading
import ValueMachine.Proofs.Numbers.Slots

/-! Strict and permissive readings of one scalar. The permissive casts wrap and clamp, and a text is
read by its longest prefix; where the strict reading finds a value, all this makes no difference. -/

namespace ValueMachine

open Machine

variable {n : Number} {x : Float} {k : Int}

/-! ### Casts -/

namespace Wide

theorem toInt_toInt64 {w : Wide} (hw : w.toInt < 2 ^ 63) : w.toInt64.toInt = w.toInt := by
  cases w with
  | signed i => rfl
  | unsigned u =>
    have hu : (u.toNat : Int) < 2 ^ 63 := hw
    exact BitVec.toInt_eq_toNat_of_lt (x := u.toBitVec) (by show 2 * u.toNat < 2 ^ 64; omega)

theorem toNat_toUInt64 {w : Wide} (hw : 0 ≤ w.toInt) : (w.toUInt64.toNat : Int) = w.toInt := by
  cases w with
  | signed i =>
    have hi : 0 ≤ i.toBitVec.toInt := hw
    show (i.toBitVec.toNat : Int) = i.toBitVec.toInt
    rw [BitVec.toInt_eq_toNat_cond] at hi ⊢
    split at hi
    next hsmall => rw [if_pos hsmall]
    next => omega
  | unsigned u => rfl

end Wide

namespace Number

theorem castSigned_of_truncate? (hk : Binary64.truncate? x = some k) (hlo : -2 ^ 63 ≤ k)
    (hhi : k < 2 ^ 63) : (castSigned x).toInt = k := by
  have hmin : Int64.minValue.toInt = -2 ^ 63 := rfl
  have hsize : (UInt64.size : Int) = 2 ^ 64 := rfl
  rw [castSigned]
  cases hparts : FloatParts.of x with
  | nan => simp [Binary64.truncate?, hparts] at hk
  | infinite negative => simp [Binary64.truncate?, hparts] at hk
  | finite negative mantissa exponent =>
    simp only [hk]
    rw [if_neg (by omega), if_pos (by omega)]
    exact Int64.toInt_ofInt_of_le hlo hhi

theorem castUnsigned_of_truncate? (hk : Binary64.truncate? x = some k) (hlo : 0 ≤ k)
    (hhi : k < 2 ^ 64) : ((castUnsigned x).toNat : Int) = k := by
  have hsize : (UInt64.size : Int) = 2 ^ 64 := rfl
  rw [castUnsigned]
  cases hparts : FloatParts.of x with
  | nan => simp [Binary64.truncate?, hparts] at hk
  | infinite negative => simp [Binary64.truncate?, hparts] at hk
  | finite negative mantissa exponent =>
    simp only [hk]
    have hmin : min k.toNat (UInt64.size - 1) = k.toNat := by omega
    rw [if_neg (by omega), hmin, UInt64.toNat_ofNat']
    omega

/-- A signed integer that a number is comes out of the cast as well. -/
theorem toInt64_of_toSigned? (hk : n.toSigned? = some k) : n.toInt64.toInt = k := by
  cases n with
  | whole w =>
    rw [toSigned?, Option.ite_none_right_eq_some] at hk
    obtain ⟨hcontains, hk⟩ := hk
    cases hk
    exact Wide.toInt_toInt64 (IntType.contains_i64_iff.1 hcontains).2
  | float x =>
    obtain ⟨hx, hcontains⟩ := Option.filter_eq_some_iff.1 hk
    obtain ⟨hlo, hhi⟩ := IntType.contains_i64_iff.1 hcontains
    exact castSigned_of_truncate? hx hlo hhi

/-- So does an unsigned one. -/
theorem toUInt64_of_toUnsigned? (hk : n.toUnsigned? = some k) : (n.toUInt64.toNat : Int) = k := by
  cases n with
  | whole w =>
    rw [toUnsigned?, Option.ite_none_right_eq_some] at hk
    obtain ⟨hcontains, hk⟩ := hk
    cases hk
    exact Wide.toNat_toUInt64 (IntType.contains_u64_iff.1 hcontains).1
  | float x =>
    rw [toUnsigned?, Option.ite_none_right_eq_some] at hk
    obtain ⟨hx, hcontains⟩ := Option.filter_eq_some_iff.1 hk.2
    obtain ⟨hlo, hhi⟩ := IntType.contains_u64_iff.1 hcontains
    exact castUnsigned_of_truncate? hx hlo hhi

/-! ### Numbers that fit -/

/-- A number is within the signed integers of 64 bits once its fraction is cut off. -/
def FitsSigned : Number → Prop
  | whole w => -2 ^ 63 ≤ w.toInt ∧ w.toInt < 2 ^ 63
  | float x => ∃ k, Binary64.truncate? x = some k ∧ -2 ^ 63 ≤ k ∧ k < 2 ^ 63

/-- A number is not negative, and within the unsigned integers of 64 bits once its fraction is cut
off. -/
def FitsUnsigned : Number → Prop
  | whole w => 0 ≤ w.toInt ∧ w.toInt < 2 ^ 64
  | float x => x ≥ 0 ∧ ∃ k, Binary64.truncate? x = some k ∧ 0 ≤ k ∧ k < 2 ^ 64

theorem isSome_toSigned? : n.toSigned?.isSome = true ↔ n.FitsSigned := by
  cases n with
  | whole w => simp [toSigned?, FitsSigned, IntType.contains_i64_iff]
  | float x => simp [toSigned?, FitsSigned, Option.any_eq_true, IntType.contains_i64_iff]

theorem isSome_toUnsigned? : n.toUnsigned?.isSome = true ↔ n.FitsUnsigned := by
  cases n with
  | whole w => simp [toUnsigned?, FitsUnsigned, IntType.contains_u64_iff]
  | float x =>
    by_cases hx : x ≥ 0 <;>
      simp [toUnsigned?, FitsUnsigned, Option.any_eq_true, IntType.contains_u64_iff, hx]

end Number

/-! ### Readings of one scalar -/

/-- A text that is a number as a whole is this number at its front. -/
theorem Number.ofPrefix_of_ofBytes? {bs : Bytes} (hn : ofBytes? bs = some n) : ofPrefix bs = n := by
  rw [ofBytes?] at hn
  rw [ofPrefix]
  split at hn
  next x rest hread =>
    split at hn
    next => simpa [hread] using hn
    next => cases hn
  next => cases hn

/-- The strict number of a scalar is its permissive one. -/
theorem Scalar.number_of_strict? {s : Scalar} (hn : s.strict? = some n) : s.number = n := by
  rw [strict?] at hn
  split at hn
  next => cases hn
  next htarget =>
    split at hn
    next => exact Option.some_inj.1 hn
    next hslot =>
      obtain ⟨t, ht, hbytes⟩ := Option.bind_eq_some_iff.1 hn
      obtain ⟨hint, hfloat⟩ : s.int = none ∧ s.float = none := by simpa using hslot
      rw [number, hint, hfloat, ht, ← Number.ofPrefix_of_ofBytes? hbytes]

/-- An operation across the boundary returns a value. -/
def Bridge.Succeeds {α : Type} (x : Bridge α) (m : Machine) : Prop := ∃ a m', x.run m = .ok (.ok a) m'

namespace Machine.ReadsAs

variable {m : Machine} {h : Handle} {s : Scalar}

theorem succeeds_reads {α : Type} {y : Bridge α} {o : Option α} {f : Held → Failure}
    (hy : y.run m = m.reads h o f) : y.Succeeds m ↔ o.isSome = true := by
  simp only [Bridge.Succeeds, hy, reads_eq_ok_iff, Option.isSome_iff_exists]
  exact ⟨fun ⟨a, _, ha, _⟩ => ⟨a, ha⟩, fun ⟨a, ha⟩ => ⟨a, m, ha, rfl⟩⟩

theorem signed_succeeds_iff (hs : m.ReadsAs h s) :
    (Strict.signed h).Succeeds m ↔ ∃ n, s.strict? = some n ∧ n.FitsSigned := by
  rw [succeeds_reads hs.signed]
  cases s.strict? <;> simp [Number.isSome_toSigned?]

theorem unsigned_succeeds_iff (hs : m.ReadsAs h s) :
    (Strict.unsigned h).Succeeds m ↔ ∃ n, s.strict? = some n ∧ n.FitsUnsigned := by
  rw [succeeds_reads hs.unsigned]
  cases s.strict? <;> simp [Number.isSome_toUnsigned?]

theorem float_succeeds_iff (hs : m.ReadsAs h s) :
    (Strict.float h).Succeeds m ↔ s.strict?.isSome = true := by
  rw [succeeds_reads hs.float, Option.isSome_map]

/-- Strict readings are permissive ones that have not failed, and they fail by what the scalar holds:
the number in a slot is read, and a text without one only as a whole. -/
theorem strict_agrees (hs : m.ReadsAs h s) :
    (∀ v m', (Strict.signed h).run m = .ok (.ok v) m' →
      ∃ n, Machine.number h m = .ok n m' ∧ n.toInt64.toInt = v) ∧
    (∀ v m', (Strict.unsigned h).run m = .ok (.ok v) m' →
      ∃ n, Machine.number h m = .ok n m' ∧ (n.toUInt64.toNat : Int) = v) ∧
    (∀ v m', (Strict.float h).run m = .ok (.ok v) m' →
      ∃ n, Machine.number h m = .ok n m' ∧ n.toFloat = v) ∧
    (∀ v m', (Strict.string h).run m = .ok (.ok v) m' → Machine.string h m = .ok v m') ∧
    (s.target = none → ∀ t, s.text = some t → s.int = none → s.float = none →
      ((Strict.signed h).Succeeds m ↔ ∃ n, Number.ofBytes? t.bytes = some n ∧ n.FitsSigned) ∧
      ((Strict.unsigned h).Succeeds m ↔ ∃ n, Number.ofBytes? t.bytes = some n ∧ n.FitsUnsigned) ∧
      ((Strict.float h).Succeeds m ↔ ∃ n, Number.ofBytes? t.bytes = some n)) ∧
    (s.target = none → s.int.isSome ∨ s.float.isSome →
      ((Strict.signed h).Succeeds m ↔ s.number.FitsSigned) ∧
      ((Strict.unsigned h).Succeeds m ↔ s.number.FitsUnsigned) ∧ (Strict.float h).Succeeds m) := by
  refine ⟨fun v m' hr => ?_, fun v m' hr => ?_, fun v m' hr => ?_, fun v m' hr => hs.string_ok hr,
    fun htarget t ht hint hfloat => ?_, fun htarget hslot => ?_⟩
  · obtain ⟨hread, rfl⟩ := reads_eq_ok_iff.1 (hs.signed.symm.trans hr)
    obtain ⟨n, hn, hk⟩ := Option.bind_eq_some_iff.1 hread
    exact ⟨n, Scalar.number_of_strict? hn ▸ hs.number, Number.toInt64_of_toSigned? hk⟩
  · obtain ⟨hread, rfl⟩ := reads_eq_ok_iff.1 (hs.unsigned.symm.trans hr)
    obtain ⟨n, hn, hk⟩ := Option.bind_eq_some_iff.1 hread
    exact ⟨n, Scalar.number_of_strict? hn ▸ hs.number, Number.toUInt64_of_toUnsigned? hk⟩
  · obtain ⟨hread, rfl⟩ := reads_eq_ok_iff.1 (hs.float.symm.trans hr)
    obtain ⟨n, hn, hk⟩ := Option.map_eq_some_iff.1 hread
    exact ⟨n, Scalar.number_of_strict? hn ▸ hs.number, hk⟩
  · have hstrict : s.strict? = Number.ofBytes? t.bytes := by
      simp [Scalar.strict?, htarget, ht, hint, hfloat]
    rw [hs.signed_succeeds_iff, hs.unsigned_succeeds_iff, hs.float_succeeds_iff, hstrict,
      Option.isSome_iff_exists]
    exact ⟨Iff.rfl, Iff.rfl, Iff.rfl⟩
  · have hstrict : s.strict? = some s.number := by
      simp [Scalar.strict?, htarget, hslot]
    rw [hs.signed_succeeds_iff, hs.unsigned_succeeds_iff, hs.float_succeeds_iff, hstrict]
    simp

end Machine.ReadsAs

namespace Machine

/-- A new interpreter with one scalar more. -/
def holdingScalar (s : Scalar) : Machine := (fresh.alloc (.scalar s)).2

theorem readsAs_holdingScalar (s : Scalar) : (holdingScalar s).ReadsAs fresh.heap.next s := by
  have hcell : (holdingScalar s).cell fresh.heap.next = .fresh (.scalar s) := Heap.get_push_next _ _
  exact ⟨congrArg Cell.body hcell, fun g hg => by rw [hcell] at hg; cases hg⟩

/-- The text `-7` is read as a signed integer and as a float, and is no unsigned integer. -/
theorem strict_agrees_minusSeven :
    (holdingScalar (.ofByteText ⟨[45, 55], false⟩)).ReadsAs fresh.heap.next
      (.ofByteText ⟨[45, 55], false⟩) ∧
    (Strict.signed fresh.heap.next).Succeeds (holdingScalar (.ofByteText ⟨[45, 55], false⟩)) ∧
    ¬(Strict.unsigned fresh.heap.next).Succeeds (holdingScalar (.ofByteText ⟨[45, 55], false⟩)) := by
  have hs := readsAs_holdingScalar (.ofByteText ⟨[45, 55], false⟩)
  let minusSeven : Numeral :=
    ⟨[], some .minus, .decimal ⟨[55], none, none, by decide, nofun, by decide⟩, by decide⟩
  have hread : Number.ofBytes? [45, 55] = some (.whole (.signed (-7))) :=
    minusSeven.ofBytes?_append (s := []) nofun
  obtain ⟨hsigned, hunsigned, -⟩ := hs.strict_agrees.2.2.2.2.1 rfl _ rfl rfl rfl
  refine ⟨hs, hsigned.2 ⟨_, hread, by decide, by decide⟩, fun hsuccess => ?_⟩
  obtain ⟨n, hn, hfits⟩ := hunsigned.1 hsuccess
  rw [hread] at hn
  cases hn
  exact absurd hfits.1 (by decide)

/-- The canonical false has an empty text, which is no number, and is read as zero all the same. -/
theorem canonicalFalse_reads : ¬∀ m h s t, m.ReadsAs h s → s.target = none → s.text = some t →
    ((Strict.signed h).Succeeds m ↔ ∃ n, Number.ofBytes? t.bytes = some n ∧ n.FitsSigned) := by
  intro hall
  have hs := readsAs_holdingScalar (.ofBool false)
  have hzero : (Scalar.ofBool false).strict? = some (.whole (.signed 0)) := rfl
  have hsuccess := hs.signed_succeeds_iff.2 ⟨_, hzero, by decide, by decide⟩
  obtain ⟨n, hn, -⟩ := (hall _ _ _ ⟨[], false⟩ hs rfl rfl).1 hsuccess
  have hnone : Number.ofBytes? [] = none := by
    simp [Number.ofBytes?, Scan.number?_eq, Scan.sign, Scan.magnitude?, Scan.special_eq, Scan.letters,
      Scan.decimal?, Scan.fraction]
  rw [hnone] at hn
  cases hn

end Machine

end ValueMachine

import ValueMachine.Proofs.Numbers.Integers

/-! The texts of numbers. The writer of floats has two notations and three words, and trims zeros and
the point; the reader of numbers has a grammar of its own. What the writer makes is in the grammar, so
every number comes back from its text, and an integer as itself. -/

namespace ValueMachine

open Machine Bridge

/-- Texts that follow one another. -/
theorem Bytes.ofText_append (cs ds : List Char) : ofText (String.ofList (cs ++ ds)) =
    ofText (String.ofList cs) ++ ofText (String.ofList ds) := by
  simp only [ofText_ofList, List.flatMap_append]

theorem Bytes.ofText_cons (c : Char) (cs : List Char) : ofText (String.ofList (c :: cs)) =
    String.utf8EncodeChar c ++ ofText (String.ofList cs) := by
  simp only [ofText_ofList, List.flatMap_cons]

/-! ### Runs of digits -/

namespace FloatText

variable {ds : List Char} {places num den : Nat} {style : FloatStyle}

/-- Characters that are all decimal digits. -/
def AreDigits (cs : List Char) : Prop := ∀ c ∈ cs, c.isDigit = true

theorem areDigits_toDigits (n : Nat) : AreDigits (Nat.toDigits 10 n) := fun _ hc =>
  Nat.isDigit_of_mem_toDigits (by decide) (by decide) hc

theorem areDigits_padded (n k : Nat) : AreDigits (padded n k) := by
  intro c hc
  rcases List.mem_append.1 hc with hzero | hdigit
  · rw [List.eq_of_mem_replicate hzero]
    rfl
  · exact areDigits_toDigits k c hdigit

theorem padded_ne_nil (n k : Nat) : padded n k ≠ [] := by
  simp [padded, Nat.toDigits_ne_nil]

theorem AreDigits.take (hds : AreDigits ds) (n : Nat) : AreDigits (ds.take n) := fun c hc =>
  hds c (List.mem_of_mem_take hc)

theorem AreDigits.drop (hds : AreDigits ds) (n : Nat) : AreDigits (ds.drop n) := fun c hc =>
  hds c (List.mem_of_mem_drop hc)

/-- Digits are written by bytes that are digits, at least one if there is a digit. -/
theorem AreDigits.ofText (hds : AreDigits ds) : Scan.AreDigits (Bytes.ofText (String.ofList ds)) := by
  rw [Scan.ofText_digits hds]
  intro b hb
  obtain ⟨c, hc, rfl⟩ := List.mem_map.1 hb
  exact Scan.isDigit_digit (hds c hc)

theorem AreDigits.ofText_ne_nil (hds : AreDigits ds) (hne : ds ≠ []) :
    Bytes.ofText (String.ofList ds) ≠ [] := by
  rw [Scan.ofText_digits hds]
  simpa using hne

/-! ### The two notations -/

/-- Decimals are a fraction, or nothing at all. -/
theorem exists_pointed (hds : AreDigits ds) : ∃ f : Option Bytes,
    (∀ b ∈ f, Scan.AreDigits b) ∧ Bytes.ofText (String.ofList (decimals ds)) = Decimal.pointed f := by
  have hkept : AreDigits (ds.reverse.dropWhile (· == '0')).reverse := fun c hc =>
    hds c (List.mem_reverse.1 ((List.dropWhile_sublist _).subset (List.mem_reverse.1 hc)))
  unfold decimals
  split
  next => exact ⟨none, nofun, Bytes.ofText_ofList []⟩
  next kept _ =>
    refine ⟨some (Bytes.ofText (String.ofList (ds.reverse.dropWhile (· == '0')).reverse)), ?_, ?_⟩
    · rintro b ⟨⟩
      exact hkept.ofText
    · exact Bytes.ofText_cons '.' _

/-- One digit, its decimals and a power of ten are a number in digits. -/
theorem exists_decimal_scientific (style : FloatStyle) (d : Nat) (k : Int) :
    ∃ w : Decimal, Bytes.ofText (String.ofList (scientific style d k)) = w.bytes := by
  have hdigits := areDigits_padded style.digits d
  have hpower := areDigits_padded style.exponentDigits k.natAbs
  have hfirst : (padded style.digits d).take 1 ≠ [] := by
    simpa using padded_ne_nil style.digits d
  obtain ⟨f, hf, hdecimals⟩ := exists_pointed (hdigits.drop 1)
  let sign : Sign := if k < 0 then .minus else .plus
  let power : Exponent := ⟨false, some sign, _, hpower.ofText,
    hpower.ofText_ne_nil (padded_ne_nil _ _)⟩
  have hletter : Bytes.ofText (String.ofList ['e', if k < 0 then '-' else '+']) = [101, sign.byte] := by
    simp only [sign]
    split <;> (rw [Bytes.ofText_ofList]; rfl)
  have hne := (hdigits.take 1).ofText_ne_nil hfirst
  refine ⟨⟨_, f, some power, (hdigits.take 1).ofText, hf,
    List.append_ne_nil_of_left_ne_nil hne _⟩, ?_⟩
  rw [scientific, Bytes.ofText_append, Bytes.ofText_append, Bytes.ofText_append, hdecimals, hletter,
    List.append_assoc]
  rfl

/-- Digits with their decimals are a number in digits. -/
theorem exists_decimal_positional (places d : Nat) :
    ∃ w : Decimal, Bytes.ofText (String.ofList (positional places d)) = w.bytes := by
  have hwhole := areDigits_toDigits (d / Nat.pow 10 places)
  have hplaces : AreDigits (if places == 0 then [] else padded places (d % Nat.pow 10 places)) := by
    split
    · exact nofun
    · exact areDigits_padded _ _
  obtain ⟨f, hf, hdecimals⟩ := exists_pointed hplaces
  have hne := hwhole.ofText_ne_nil Nat.toDigits_ne_nil
  refine ⟨⟨_, f, none, hwhole.ofText, hf, List.append_ne_nil_of_left_ne_nil hne _⟩, ?_⟩
  rw [positional, Bytes.ofText_append, hdecimals, Decimal.bytes, Decimal.scaled, List.append_nil]

theorem exists_decimal_magnitude (style : FloatStyle) (num den : Nat) :
    ∃ w : Decimal, Bytes.ofText (String.ofList (magnitude style num den)) = w.bytes := by
  rw [magnitude]
  split
  next d k _ =>
    split
    · exact exists_decimal_positional _ _
    · exact exists_decimal_scientific _ _ _

end FloatText

/-! ### Every number is read from its text -/

/-- The text of a float is a numeral: a word, the digit zero, or a number in digits, with a minus sign
before it if there is one. -/
theorem exists_numeral_floatText (x : Float) :
    ∃ w : Numeral, Bytes.ofText (floatText .machine x) = w.bytes := by
  have hminus (negative : Bool) (cs : List Char) :
      Bytes.ofText (String.ofList (if negative then '-' :: cs else cs)) =
        Sign.bytes (if negative then some .minus else none) ++ Bytes.ofText (String.ofList cs) := by
    cases negative
    · rfl
    · exact Bytes.ofText_cons '-' cs
  rw [floatText]
  cases FloatParts.of x with
  | nan =>
    refine ⟨⟨[], none, .special .nan [78, 97, 78] ?_, nofun⟩, ?_⟩
    · exact Scan.isSpelled_iff.2 rfl
    · rw [Bytes.ofText_eq]
      rfl
  | infinite negative =>
    refine ⟨⟨[], if negative then some .minus else none, .special .inf [73, 110, 102] ?_, nofun⟩, ?_⟩
    · exact Scan.isSpelled_iff.2 rfl
    · rw [hminus, Bytes.ofText_eq (String.ofList _)]
      rfl
  | finite negative m e =>
    by_cases hzero : m = 0
    · refine ⟨⟨[], none, .decimal ⟨[48], none, none, by decide, nofun, by decide⟩, nofun⟩, ?_⟩
      rw [hzero, Bytes.ofText_eq]
      rfl
    · obtain ⟨w, hw⟩ := FloatText.exists_decimal_magnitude .machine (ratio m e).1 (ratio m e).2
      refine ⟨⟨[], if negative then some .minus else none, .decimal w, nofun⟩, ?_⟩
      simp only [beq_iff_eq, if_neg hzero, hminus, hw]
      rfl

theorem Wide.holds_toInt (w : Wide) : Wide.Holds w.toInt := by
  cases w with
  | signed n =>
    have hlo : -2 ^ 63 ≤ n.toInt := n.le_toInt
    have hhi : n.toInt < 2 ^ 63 := n.toInt_lt
    exact ⟨hlo, hhi.trans (by decide)⟩
  | unsigned n =>
    have hhi : n.toNat < 2 ^ 64 := n.toNat_lt
    have hcast : (n.toNat : Int) < 2 ^ 64 := by exact_mod_cast hhi
    exact ⟨(by decide : (-2 ^ 63 : Int) ≤ 0).trans (Int.natCast_nonneg _), hcast⟩

namespace Scalar

variable {s : Scalar}

/-- A scalar with a number in a slot, and no text beside it. -/
structure Numeric (s : Scalar) : Prop where
  text : s.text = none
  number : s.int.isSome ∨ s.float.isSome

/-- The text of a numeric scalar is a number as a whole, and that of an integer is the same integer. -/
theorem Numeric.plainText? (hs : s.Numeric) : ∃ t n, s.plainText? = some t ∧
    Number.ofBytes? t.bytes = some n ∧ ∀ w, s.int = some w → n = .whole (.ofInt w.toInt) := by
  obtain ⟨int, float, text, target⟩ := s
  obtain ⟨rfl, hnumber⟩ := hs
  cases int with
  | some w =>
    refine ⟨⟨Bytes.ofText w.text, false⟩, .whole (.ofInt w.toInt), rfl, ?_, ?_⟩
    · rw [Wide.text, toString_eq_decimal]
      exact Number.ofBytes?_decimal w.holds_toInt
    · rintro _ ⟨⟩
      rfl
  | none =>
    obtain ⟨x, rfl⟩ := Option.isSome_iff_exists.1 (hnumber.resolve_left nofun)
    obtain ⟨w, hw⟩ := exists_numeral_floatText x
    have hread := w.ofBytes?_append (s := []) nofun
    rw [List.append_nil] at hread
    exact ⟨⟨w.bytes, false⟩, w.value, by rw [← hw]; rfl, hread, nofun⟩

end Scalar

namespace Machine

/-- A new scalar has no hooks. -/
theorem readsAs_alloc (m : Machine) (s : Scalar) :
    (m.alloc (.scalar s)).2.ReadsAs m.heap.next s := by
  have hcell : (m.alloc (.scalar s)).2.cell m.heap.next = .fresh (.scalar s) :=
    Heap.get_push_next _ _
  exact ⟨congrArg Cell.body hcell, fun g hg => by rw [hcell] at hg; cases hg⟩

theorem readsAs_allocMortal (m : Machine) (s : Scalar) :
    (m.allocMortal (.scalar s)).2.ReadsAs m.heap.next s :=
  ⟨(readsAs_alloc m s).body, (readsAs_alloc m s).unhooked⟩

variable {m m' : Machine} {h : Handle} {s : Scalar}

/-- Every number survives a trip through its own text: what a scalar without a text reads as is a
number as a whole, and a new scalar with this text is strictly read as that number. An integer
comes back as the same integer. The slots are those that the hooks before the read have left. -/
theorem numeric_text_is_read (hs : s.Numeric) (hhooks : runReadHooks h m = .ok () m')
    (hbody : m'.body h = .scalar s) : ∃ t n, text h m = .ok t m' ∧
      Number.ofBytes? t.bytes = some n ∧
      (∀ w, s.int = some w → ∃ v, n = .whole v ∧ v.toInt = w.toInt) ∧
      ∀ m₁ : Machine, ∃ copy m₂, newScalar (.ofByteText t) m₁ = .ok copy m₂ ∧
        (Strict.float copy).run m₂ = .ok (.ok n.toFloat) m₂ ∧
        ∀ w, s.int = some w → ∀ mode type, IntType.contains type w.toInt = true →
          ((HostType.int type).read mode copy).run m₂ = .ok (.ok w.toInt) m₂ := by
  obtain ⟨t, n, htext, hread, hwhole⟩ := hs.plainText?
  have hat : m'.textAt h = t := by
    rw [textAt, scalar?_eq_some.2 hbody]
    simp only [htext]
  have hint (w : Wide) (hw : s.int = some w) : ∃ v, n = .whole v ∧ v.toInt = w.toInt :=
    ⟨_, hwhole w hw, Wide.toInt_ofInt w.holds_toInt⟩
  refine ⟨t, n, hat ▸ Run.bind_of_ok hhooks, hread, hint, fun m₁ => ?_⟩
  have hcopy := readsAs_alloc m₁ (.ofByteText t)
  have hstrict : (Scalar.ofByteText t).strict? = some n := hread
  refine ⟨_, _, rfl, ?_, fun w hw mode type hcontains => ?_⟩
  · exact hcopy.float.trans (by rw [hstrict]; rfl)
  · obtain ⟨v, rfl, hv⟩ := hint w hw
    refine (hcopy.integer_of_whole hstrict type).trans ?_
    rw [hv, if_pos hcontains]
    rfl

/-- The least integer comes back from its text, out of a new interpreter with this integer alone. -/
theorem leastInteger_text_is_read :
    (Scalar.ofInt64 Int64.minValue).Numeric ∧ ∃ t n,
      text fresh.heap.next (holdingScalar (.ofInt64 Int64.minValue)) =
        .ok t (holdingScalar (.ofInt64 Int64.minValue)) ∧
      Number.ofBytes? t.bytes = some n ∧ ∃ v, n = .whole v ∧ v.toInt = -2 ^ 63 := by
  have hs : (Scalar.ofInt64 Int64.minValue).Numeric := ⟨rfl, .inl rfl⟩
  have hreads := readsAs_holdingScalar (.ofInt64 Int64.minValue)
  obtain ⟨t, n, htext, hread, hwhole, -⟩ := numeric_text_is_read hs hreads.readHooks hreads.body
  exact ⟨hs, t, n, htext, hread, hwhole _ rfl⟩

end Machine

end ValueMachine

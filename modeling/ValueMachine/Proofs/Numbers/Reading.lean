import ValueMachine.Proofs.Numbers.Scanning

/-! The longest number at the front of a byte string. Reading takes the number stage by stage; each stage
takes at least what the same stage of a numeral there takes, and no more than a numeral in all. -/

namespace ValueMachine

namespace Scan

variable {negative : Bool} {b : UInt8} {bs u r rest : Bytes} {v : Number} {x : Float} {n : Nat}

/-- A reading at the front of bytes where a number of value `v` stands before `r`: it takes this number
or a longer one, and exactly this one where `r` ends every number. -/
def Reaches (v : Number) (r : Bytes) (o : Option (Number × Bytes)) : Prop :=
  ∃ p, o = some p ∧ p.2 <:+ r ∧ (Halts r → p = (v, r))

/-! ### Numbers in digits -/

/-- The value of the three parts of a number in digits. -/
def decimalValue (negative : Bool) (whole : Bytes) (frac : Option Bytes) (exp : Option Int) : Number :=
  if frac.isNone && exp.isNone then integer negative (digitsValue whole)
  else .float (Binary64.ofDecimal negative (digitsValue (whole ++ frac.getD []))
    (exp.getD 0 - Int.ofNat (frac.getD []).length))

/-- A number in digits at the front of the bytes, and what follows it. -/
def decimal? (negative : Bool) (unsigned : Bytes) : Option (Number × Bytes) :=
  let whole := unsigned.takeWhile isDigit
  let frac := fraction whole (unsigned.dropWhile isDigit)
  if whole.isEmpty && frac.1.isNone then none
  else
    let exp := exponent frac.2
    some (decimalValue negative whole frac.1 exp.1, exp.2)

/-- A number at the front of the bytes without its sign, and what follows it. -/
def magnitude? (negative : Bool) (unsigned : Bytes) : Option (Number × Bytes) :=
  match special unsigned with
  | some (x, n) => some (.float (if negative then -x else x), unsigned.drop n)
  | none => decimal? negative unsigned

theorem number?_eq (bs : Bytes) :
    number? bs = magnitude? (sign (bs.dropWhile isSpace)).1 (sign (bs.dropWhile isSpace)).2 := by
  rw [number?, magnitude?]
  generalize sign (bs.dropWhile isSpace) = p
  obtain ⟨negative, unsigned⟩ := p
  dsimp only
  cases special unsigned with
  | some p => rfl
  | none =>
    simp only [decimal?, decimalValue]
    refine ite_congr rfl (fun _ => rfl) fun _ => ?_
    rw [apply_ite (fun v => some (v, _))]

theorem integer_eq (negative : Bool) (m : Nat) (n : Int) (hn : n = if negative then -(m : Int) else m) :
    integer negative m = .exactOr (some n) (Binary64.ofDecimal negative m 0) := by
  have hsize : UInt64.size = 2 ^ 64 := rfl
  have hpow : Nat.pow 2 63 = 2 ^ 63 := rfl
  cases negative with
  | false =>
    obtain rfl : n = m := hn
    simp only [integer, Number.exactOr, Wide.ofInt, Wide.Holds, Bool.false_eq_true, if_false, hsize]
    rw [if_neg (by omega : ¬(m : Int) < 0)]
    exact ite_congr (propext (by omega)) (fun _ => rfl) fun _ => rfl
  | true =>
    obtain rfl : n = -(m : Int) := hn
    simp only [integer, Number.exactOr, Wide.ofInt, Wide.Holds, if_true, hpow]
    refine ite_congr (propext (by omega)) (fun _ => ?_) fun _ => rfl
    split
    · rfl
    · obtain rfl : m = 0 := by omega
      rfl

theorem decimalValue_eq (negative : Bool) (d : Decimal) :
    decimalValue negative d.whole d.fraction (d.exponent.map (·.value)) = d.value negative := by
  obtain ⟨whole, fraction, exponent, _, _, _⟩ := d
  cases fraction with
  | none =>
    cases exponent with
    | none =>
      rw [decimalValue]
      simp only [Option.isNone_none, Option.map_none, Bool.and_self, if_true, integer_eq negative _ _ rfl]
      simp [Decimal.value, Decimal.integer?, Decimal.float]
    | some e => rfl
  | some f => cases exponent <;> rfl

theorem fraction_suffix (whole r : Bytes) : (fraction whole r).2 <:+ r := by
  obtain ⟨o, hbytes, -⟩ := exists_fraction whole r
  exact ⟨_, hbytes.symm⟩

theorem exponent_suffix (r : Bytes) : (exponent r).2 <:+ r := by
  obtain ⟨o, hbytes, -⟩ := exists_exponent r
  exact ⟨_, hbytes.symm⟩

theorem isDigit_letter (e : Exponent) : isDigit e.letter = false := by
  rw [Exponent.letter]
  cases e.capital <;> rfl

theorem letter_ne_point (e : Exponent) : e.letter ≠ 46 := by
  rw [Exponent.letter]
  cases e.capital <;> decide

/-- What an exponent, if there is one, leaves to the stages: no digit and no point before it, and all of
it where its end ends every number. -/
theorem scaled_halts (o : Option Exponent) (hr : Halts r) (whole : Bytes) :
    (Decimal.scaled o ++ r).takeWhile isDigit = [] ∧
      (Decimal.scaled o ++ r).dropWhile isDigit = Decimal.scaled o ++ r ∧
      fraction whole (Decimal.scaled o ++ r) = (none, Decimal.scaled o ++ r) ∧
      exponent (Decimal.scaled o ++ r) = (o.map (·.value), r) := by
  cases o with
  | none => exact ⟨hr.takeWhile, hr.dropWhile, hr.fraction whole, hr.exponent⟩
  | some e =>
    refine ⟨takeWhile_of_head (isDigit_letter e), dropWhile_of_head (isDigit_letter e),
      fraction_of_ne whole (letter_ne_point e), ?_⟩
    rw [Decimal.scaled, exponent_bytes, hr.takeWhile, hr.dropWhile, List.append_nil]
    rfl

/-- Whatever follows an exponent, if there is one, the stages leave no more than that. -/
theorem scaled_suffix (o : Option Exponent) (r whole : Bytes) :
    (exponent ((Decimal.scaled o ++ r).dropWhile isDigit)).2 <:+ r ∧
      (exponent (fraction whole ((Decimal.scaled o ++ r).dropWhile isDigit)).2).2 <:+ r := by
  have hdrop : r.dropWhile isDigit <:+ r := List.dropWhile_suffix _
  cases o with
  | none =>
    exact ⟨(exponent_suffix _).trans hdrop,
      (exponent_suffix _).trans ((fraction_suffix whole _).trans hdrop)⟩
  | some e =>
    have hhead : (e.bytes ++ r).dropWhile isDigit = e.bytes ++ r := dropWhile_of_head (isDigit_letter e)
    have hfraction : fraction whole (e.bytes ++ r) = (none, e.bytes ++ r) :=
      fraction_of_ne whole (letter_ne_point e)
    rw [Decimal.scaled, hhead, hfraction, exponent_bytes]
    exact ⟨hdrop, hdrop⟩

/-- The three stages on a number in digits: each takes its part, or more where that part is open at its
end. -/
theorem decimal?_bytes (negative : Bool) (d : Decimal) (r : Bytes) :
    Reaches (d.value negative) r (decimal? negative (d.bytes ++ r)) := by
  rw [← decimalValue_eq]
  obtain ⟨whole, frac, exp, hwhole, hfrac, hne⟩ := d
  cases frac with
  | some f =>
    have hpoint : isDigit 46 = false := rfl
    have hread : decimal? negative (whole ++ 46 :: (f ++ (Decimal.scaled exp ++ r))) =
        some (decimalValue negative whole (some (f ++ (Decimal.scaled exp ++ r).takeWhile isDigit))
          (exponent ((Decimal.scaled exp ++ r).dropWhile isDigit)).1,
          (exponent ((Decimal.scaled exp ++ r).dropWhile isDigit)).2) := by
      rw [decimal?, hwhole.takeWhile_append, hwhole.dropWhile_append, takeWhile_of_head hpoint,
        dropWhile_of_head hpoint, List.append_nil, fraction_pointed (hfrac f rfl) hne]
      simp
    refine ⟨_, by simpa [Decimal.bytes, Decimal.pointed] using hread, (scaled_suffix exp r whole).1, ?_⟩
    intro hr
    obtain ⟨htake, hdrop, -, hexp⟩ := scaled_halts exp hr whole
    rw [htake, hdrop, hexp, List.append_nil]
  | none =>
    have hread : decimal? negative (whole ++ (Decimal.scaled exp ++ r)) =
        (fun w p => some (decimalValue negative w p.1 (exponent p.2).1, (exponent p.2).2))
          (whole ++ (Decimal.scaled exp ++ r).takeWhile isDigit)
          (fraction (whole ++ (Decimal.scaled exp ++ r).takeWhile isDigit)
            ((Decimal.scaled exp ++ r).dropWhile isDigit)) := by
      rw [decimal?, hwhole.takeWhile_append, hwhole.dropWhile_append, if_neg (by simp_all)]
    refine ⟨_, by simpa [Decimal.bytes, Decimal.pointed] using hread, (scaled_suffix exp r _).2, ?_⟩
    intro hr
    obtain ⟨htake, hdrop, hfraction, hexp⟩ := scaled_halts exp hr whole
    rw [htake, hdrop, List.append_nil, hfraction, hexp]

/-- What is read as a number in digits is one, with its value. -/
theorem exists_decimal (h : decimal? negative u = some (v, rest)) :
    ∃ d : Decimal, u = d.bytes ++ rest ∧ v = d.value negative := by
  obtain ⟨frac, hfrac, hfirst, hfracDigits, hfracSome⟩ :=
    exists_fraction (u.takeWhile isDigit) (u.dropWhile isDigit)
  obtain ⟨exp, hexp, hvalue⟩ := exists_exponent (fraction (u.takeWhile isDigit) (u.dropWhile isDigit)).2
  rw [decimal?] at h
  split at h
  next => cases h
  next hsome =>
    cases h
    have hne : u.takeWhile isDigit ++ frac.getD [] ≠ [] := by
      cases frac with
      | none => simpa [hfirst] using hsome
      | some f => exact hfracSome nofun
    refine ⟨⟨_, frac, exp, areDigits_takeWhile u, hfracDigits, hne⟩, ?_, ?_⟩
    · rw [Decimal.bytes, List.append_assoc, List.append_assoc, ← hexp, ← hfrac,
        List.takeWhile_append_dropWhile]
    · rw [← decimalValue_eq, hfirst, hvalue]

/-! ### Special words -/

/-- The bytes of a special word in small letters. -/
def letters : Special → Bytes
  | .inf => [105, 110, 102]
  | .infinity => [105, 110, 102, 105, 110, 105, 116, 121]
  | .nan => [110, 97, 110]

theorem ofText_special (s : Special) : Bytes.ofText s.text = letters s := by
  cases s <;> rw [Bytes.ofText_eq] <;> rfl

theorem isSpelled_iff {s : Special} : s.IsSpelled bs ↔ bs.map lower = letters s := by
  rw [Special.IsSpelled, ofText_special]

theorem isPrefixOf_word (s : Special) (u : Bytes) :
    (Bytes.ofText s.text).isPrefixOf ((u.take 8).map lower) = true ↔ letters s <+: u.map lower := by
  have hle : (letters s).length ≤ 8 := by cases s <;> decide
  rw [ofText_special, List.isPrefixOf_iff_prefix, List.map_take, List.prefix_take_iff,
    and_iff_left hle]

/-- The word that is read at the front of the bytes: the longer of two that stand there. -/
theorem special_eq (u : Bytes) : special u =
    open Classical in
    if letters .infinity <+: u.map lower then some (Special.infinity.float, 8)
    else if letters .inf <+: u.map lower then some (Special.inf.float, 3)
    else if letters .nan <+: u.map lower then some (Special.nan.float, 3)
    else none := by
  rw [special]
  refine ite_congr (propext (isPrefixOf_word .infinity u)) (fun _ => rfl) fun _ => ?_
  refine ite_congr (propext (isPrefixOf_word .inf u)) (fun _ => rfl) fun _ => ?_
  exact ite_congr (propext (isPrefixOf_word .nan u)) (fun _ => rfl) fun _ => rfl

theorem isSpelled_take {s : Special} (h : letters s <+: u.map lower) :
    s.IsSpelled (u.take (letters s).length) := by
  rw [isSpelled_iff, List.map_take, ← List.prefix_iff_eq_take.1 h]

/-- A special word that is read is one of the bytes, with its value. -/
theorem exists_special (h : special u = some (x, n)) :
    ∃ s : Special, s.IsSpelled (u.take n) ∧ x = s.float := by
  rw [special_eq] at h
  split at h
  next hword =>
    cases h
    exact ⟨.infinity, isSpelled_take hword, rfl⟩
  next =>
    split at h
    next hword =>
      cases h
      exact ⟨.inf, isSpelled_take hword, rfl⟩
    next =>
      split at h
      next hword =>
        cases h
        exact ⟨.nan, isSpelled_take hword, rfl⟩
      next => cases h

/-- A spelled word is read, or a longer one of the same value. -/
theorem special_spelled {s : Special} (hs : s.IsSpelled bs) (r : Bytes) :
    ∃ n, special (bs ++ r) = some (s.float, n) ∧ bs.length ≤ n ∧ (Halts r → n = bs.length) := by
  have hlength : bs.length = (letters s).length := by rw [← isSpelled_iff.1 hs, List.length_map]
  have hword (t : Special) : letters t <+: (bs ++ r).map lower ↔ letters t <+: letters s ++ r.map lower := by
    rw [List.map_append, isSpelled_iff.1 hs]
  rw [special_eq, hlength]
  simp only [hword]
  cases s with
  | infinity => exact ⟨8, if_pos (List.prefix_append _ _), le_refl 8, fun _ => rfl⟩
  | nan =>
    refine ⟨3, ?_, le_refl 3, fun _ => rfl⟩
    rw [if_neg (by simp [letters]), if_neg (by simp [letters]), if_pos (List.prefix_append _ _)]
  | inf =>
    by_cases hmore : letters .infinity <+: letters .inf ++ r.map lower
    · refine ⟨8, if_pos hmore, by decide, fun hr => ?_⟩
      cases r with
      | nil => simp [letters] at hmore
      | cons b r =>
        have hb : 105 = lower b := by
          have hrest : [105, 110, 105, 116, 121] <+: lower b :: r.map lower :=
            (List.prefix_append_right_inj (letters .inf)).1 hmore
          exact (List.cons_prefix_cons.1 hrest).1
        rcases eq_of_isSpace (hr b rfl) with rfl | rfl | rfl | rfl | rfl <;> cases hb
    · exact ⟨3, by rw [if_neg hmore, if_pos (List.prefix_append _ _)], le_refl 3, fun _ => rfl⟩

/-- No special word begins below the letters. -/
theorem special_of_lt (hb : b < 65) : special (b :: bs) = none := by
  have hlower : lower b = b := by
    rw [lower, if_neg]
    simp only [Bool.and_eq_true, decide_eq_true_eq, not_and]
    exact fun h => absurd h (UInt8.not_le.2 hb)
  have hword (s : Special) : ¬letters s <+: (b :: bs).map lower := by
    rw [List.map_cons, hlower]
    rintro h
    cases s <;> (rw [← (List.cons_prefix_cons.1 h).1] at hb; exact absurd hb (by decide))
  rw [special_eq, if_neg (hword _), if_neg (hword _), if_neg (hword _)]

/-! ### Magnitudes and numerals -/

theorem lt_of_isDigit (hb : isDigit b = true) : b < 65 := by
  simp only [isDigit, Bool.and_eq_true, decide_eq_true_eq] at hb
  exact UInt8.lt_of_le_of_lt hb.2 (by decide)

theorem decimal_head (d : Decimal) : ∃ b bs, d.bytes = b :: bs ∧ b < 65 ∧ Begins b := by
  obtain ⟨whole, frac, exp, hwhole, hfrac, hne⟩ := d
  cases whole with
  | cons b whole =>
    have hb := hwhole b List.mem_cons_self
    exact ⟨b, _, rfl, lt_of_isDigit hb, begins_of_isDigit hb⟩
  | nil =>
    cases frac with
    | none => exact absurd rfl hne
    | some f => exact ⟨46, _, rfl, by decide, rfl, by decide, by decide⟩

theorem spelled_head {s : Special} (hs : s.IsSpelled bs) : ∃ b cs, bs = b :: cs ∧ Begins b := by
  rw [isSpelled_iff] at hs
  cases bs with
  | nil => cases s <;> cases hs
  | cons b cs =>
    refine ⟨b, cs, rfl, ?_⟩
    have hb : lower b = 105 ∨ lower b = 110 := by
      cases s
      · exact .inl (List.cons.inj hs).1
      · exact .inl (List.cons.inj hs).1
      · exact .inr (List.cons.inj hs).1
    refine ⟨?_, ?_, ?_⟩
    · rw [← Bool.not_eq_true]
      intro hspace
      rcases eq_of_isSpace hspace with rfl | rfl | rfl | rfl | rfl <;> revert hb <;> decide
    · rintro rfl
      revert hb
      decide
    · rintro rfl
      revert hb
      decide

theorem magnitude_head (m : Magnitude) : ∃ b bs, m.bytes = b :: bs ∧ Begins b := by
  cases m with
  | special s spelling hs => exact spelled_head hs
  | decimal d =>
    obtain ⟨b, bs, hbytes, -, hb⟩ := decimal_head d
    exact ⟨b, bs, hbytes, hb⟩

theorem magnitude?_bytes (negative : Bool) (m : Magnitude) (r : Bytes) :
    Reaches (m.value negative) r (magnitude? negative (m.bytes ++ r)) := by
  cases m with
  | special s spelling hs =>
    obtain ⟨n, hread, hle, hhalts⟩ := special_spelled hs r
    have hdrop : (spelling ++ r).drop n = r.drop (n - spelling.length) := by
      rw [List.drop_append, List.drop_eq_nil_of_le hle, List.nil_append]
    refine ⟨((Magnitude.special s spelling hs).value negative, r.drop (n - spelling.length)), ?_,
      List.drop_suffix _ r, fun hr => ?_⟩
    · rw [Magnitude.bytes, magnitude?, hread, ← hdrop]
      rfl
    · rw [hhalts hr, Nat.sub_self, List.drop_zero]
  | decimal d =>
    obtain ⟨b, bs, hbytes, hb, -⟩ := decimal_head d
    have hnone : special (d.bytes ++ r) = none := by
      rw [hbytes]
      exact special_of_lt hb
    rw [Magnitude.bytes, magnitude?, hnone]
    exact decimal?_bytes negative d r

theorem exists_magnitude (h : magnitude? negative u = some (v, rest)) :
    ∃ m : Magnitude, u = m.bytes ++ rest ∧ v = m.value negative := by
  rw [magnitude?] at h
  split at h
  next x n hspecial =>
    cases h
    obtain ⟨s, hs, rfl⟩ := exists_special hspecial
    exact ⟨.special s _ hs, (List.take_append_drop n u).symm, rfl⟩
  next =>
    obtain ⟨d, hbytes, hvalue⟩ := exists_decimal h
    exact ⟨.decimal d, hbytes, hvalue⟩

/-- A numeral at the front of the bytes is read, or a longer one. -/
theorem number?_bytes (w : Numeral) (r : Bytes) : Reaches w.value r (number? (w.bytes ++ r)) := by
  obtain ⟨b, bs, hbytes, hb⟩ := magnitude_head w.magnitude
  have hsign : (Sign.bytes w.sign ++ b :: (bs ++ r)).dropWhile isSpace =
      Sign.bytes w.sign ++ b :: (bs ++ r) := by
    rcases w.sign with _ | _ | _
    · exact List.dropWhile_cons_of_neg (by simp [hb.1])
    · rfl
    · rfl
  have hdrop : (w.bytes ++ r).dropWhile isSpace = Sign.bytes w.sign ++ b :: (bs ++ r) := by
    rw [Numeral.bytes, hbytes, List.append_assoc, List.append_assoc, List.cons_append,
      List.dropWhile_append_of_pos w.areSpaces, hsign]
  rw [number?_eq, hdrop, sign_bytes w.sign hb.2, ← List.cons_append, ← hbytes]
  exact magnitude?_bytes _ w.magnitude r

/-- What is read at the front of the bytes is a numeral there, with its value. -/
theorem exists_numeral (h : number? bs = some (v, rest)) :
    ∃ w : Numeral, bs = w.bytes ++ rest ∧ v = w.value := by
  obtain ⟨s, hbytes, hnegates⟩ := exists_sign (bs.dropWhile isSpace)
  rw [number?_eq, hnegates] at h
  obtain ⟨m, hrest, hvalue⟩ := exists_magnitude h
  refine ⟨⟨bs.takeWhile isSpace, s, m, fun _ hb => List.mem_takeWhile_imp hb⟩, ?_, hvalue⟩
  rw [Numeral.bytes, List.append_assoc, List.append_assoc, ← hrest, ← hbytes,
    List.takeWhile_append_dropWhile]

end Scan

namespace Numeral

variable {b r : Bytes} {v w : Numeral}

/-- The bytes of a numeral have one value. -/
theorem value_eq_of_bytes_eq (h : v.bytes = w.bytes) : v.value = w.value := by
  obtain ⟨p, hread, -, hp⟩ := Scan.number?_bytes v []
  obtain ⟨q, hread', -, hq⟩ := Scan.number?_bytes w []
  rw [h, hread', Option.some_inj] at hread
  have hpq : (w.value, ([] : Bytes)) = (v.value, []) := by
    rw [← hp Scan.halts_nil, ← hq Scan.halts_nil, hread]
  exact (congrArg Prod.fst hpq).symm

/-- A numeral that is read off the front of the bytes is a longest one. -/
theorem longest_of_number? (h : Scan.number? (w.bytes ++ r) = some (w.value, r)) :
    w.Longest (w.bytes ++ r) := by
  refine ⟨List.prefix_append _ _, ?_⟩
  rintro v ⟨t, ht⟩
  obtain ⟨p, hread, hsuffix, -⟩ := Scan.number?_bytes v t
  rw [ht, h, Option.some_inj] at hread
  have hle : r.length ≤ t.length := by
    rw [← hread] at hsuffix
    exact hsuffix.length_le
  have hlength : v.bytes.length + t.length = w.bytes.length + r.length := by
    rw [← List.length_append, ht, List.length_append]
  omega

/-- Two longest numerals of the same bytes are spelled alike. -/
theorem Longest.bytes_eq (hv : v.Longest b) (hw : w.Longest b) : v.bytes = w.bytes := by
  have hlength : v.bytes.length = w.bytes.length :=
    le_antisymm (hw.length_le v hv.isPrefix) (hv.length_le w hw.isPrefix)
  exact (List.prefix_of_prefix_length_le hv.isPrefix hw.isPrefix hlength.le).eq_of_length hlength

/-- Some numeral at the front of the bytes is a longest one, and it is the one that is read. -/
theorem exists_longest (h : w.bytes <+: b) :
    ∃ v : Numeral, v.Longest b ∧ Number.ofPrefix b = v.value := by
  obtain ⟨r, rfl⟩ := h
  obtain ⟨⟨x, rest⟩, hread, -⟩ := Scan.number?_bytes w r
  obtain ⟨v, hbytes, rfl⟩ := Scan.exists_numeral hread
  rw [hbytes] at hread ⊢
  exact ⟨v, longest_of_number? hread, by rw [Number.ofPrefix, hread]⟩

theorem ofBytes?_append {s : Bytes} (hs : Scan.AreSpaces s) :
    Number.ofBytes? (w.bytes ++ s) = some w.value := by
  obtain ⟨p, hread, -, hp⟩ := Scan.number?_bytes w s
  obtain rfl := hp hs.halts
  have hall : s.all Scan.isSpace = true := List.all_eq_true.2 hs
  simp only [Number.ofBytes?, hread, if_pos hall]

theorem exists_of_isSome (h : (Number.ofBytes? b).isSome) :
    ∃ w : Numeral, ∃ s, Scan.AreSpaces s ∧ b = w.bytes ++ s := by
  rw [Number.ofBytes?] at h
  split at h
  next x rest hread =>
    obtain ⟨w, hbytes, -⟩ := Scan.exists_numeral hread
    split at h
    next hall => exact ⟨w, rest, List.all_eq_true.1 hall, hbytes⟩
    next => cases h
  next => cases h

end Numeral

/-- Numbers in text are read as the language of numerals says. A whole text is a number when it is a
numeral and white space. At the front of a text the longest numeral is read, and zero where there is
none. The value is the integer itself where one is written that 64 bits hold. -/
theorem Number.reads_longest_numeral (b : Bytes) :
    ((Number.ofBytes? b).isSome ↔ ∃ w : Numeral, ∃ s, Scan.AreSpaces s ∧ b = w.bytes ++ s) ∧
      (∀ (w : Numeral) (s : Bytes), Scan.AreSpaces s → b = w.bytes ++ s →
        Number.ofBytes? b = some w.value) ∧
      (∀ w : Numeral, w.Longest b → Number.ofPrefix b = w.value) ∧
      ((∃ w : Numeral, w.bytes <+: b) → ∃ w : Numeral, w.Longest b) ∧
      ((¬∃ w : Numeral, w.bytes <+: b) → Number.ofPrefix b = .whole (.signed 0)) ∧
      (∀ (w : Numeral) (n : Int), w.integer? = some n → Wide.Holds n →
        ∃ x, w.value = .whole x ∧ x.toInt = n ∧ (x.isUnsigned = true ↔ 2 ^ 63 ≤ n)) ∧
      (∀ w : Numeral, (∀ n, w.integer? = some n → ¬Wide.Holds n) → w.value = .float w.float) := by
  refine ⟨⟨Numeral.exists_of_isSome, ?_⟩, ?_, fun w hw => ?_, ?_, fun hnone => ?_, ?_, ?_⟩
  · rintro ⟨w, s, hs, rfl⟩
    rw [Numeral.ofBytes?_append hs]
    rfl
  · rintro w s hs rfl
    exact Numeral.ofBytes?_append hs
  · obtain ⟨v, hv, hvalue⟩ := Numeral.exists_longest hw.isPrefix
    rw [hvalue, Numeral.value_eq_of_bytes_eq (hv.bytes_eq hw)]
  · rintro ⟨w, hw⟩
    obtain ⟨v, hv, -⟩ := Numeral.exists_longest hw
    exact ⟨v, hv⟩
  · rw [Number.ofPrefix]
    split
    next x rest hread =>
      obtain ⟨w, hbytes, -⟩ := Scan.exists_numeral hread
      exact absurd ⟨w, rest, hbytes.symm⟩ hnone
    next => rfl
  · intro w n hinteger hn
    refine ⟨.ofInt n, ?_, Wide.toInt_ofInt hn, Wide.isUnsigned_ofInt hn⟩
    rw [Numeral.value, hinteger, Number.exactOr_of_holds hn]
  · exact fun w hbeyond => Number.exactOr_of_beyond hbeyond

end ValueMachine

import ValueMachine.Proofs.Numbers.Spellings
import ValueMachine.Proofs.Sources.Callings

/-! Number literals. The reader of tokens spells a literal anew, without its underscores and in decimal
digits, and the reader of numbers in text takes what it has spelled. Each literal comes through: it is
never refused, and it has the value that is written in the source, with or without a minus sign. -/

namespace ValueMachine

open Machine

open Source.Lexer Source.Parser FloatText

/-- The same power of ten with a small letter. -/
def Exponent.small (e : Exponent) : Exponent := { e with capital := false }

namespace Decimal

/-- The same number with a small letter before its exponent. -/
def small (d : Decimal) : Decimal := { d with exponent := d.exponent.map (·.small) }

theorem value_small (d : Decimal) (negative : Bool) : d.small.value negative = d.value negative := by
  obtain ⟨whole, fraction, exponent, hwhole, hfraction, hne⟩ := d
  cases fraction <;> cases exponent <;> rfl

end Decimal

namespace Source

variable {cs r rest run : List Char} {c : Char} {source spelling : String} {negative : Bool}

/-! ### What the reader of tokens takes -/

namespace Lexer

/-- The characters of a literal without its underscores. -/
def plain (cs : List Char) : List Char := cs.filter (· != '_')

@[simp] theorem plain_append (cs ds : List Char) : plain (cs ++ ds) = plain cs ++ plain ds :=
  List.filter_append ..

theorem plain_cons (hc : c ≠ '_') (cs : List Char) : plain (c :: cs) = c :: plain cs :=
  List.filter_cons_of_pos (by simpa using hc)

/-- Digits are taken off the front of the characters, and underscores with them. -/
theorem exists_digits (isDigit : Char → Bool) (cs : List Char) : ∃ run,
    cs = run ++ (digits isDigit cs).2 ∧ (digits isDigit cs).1 = plain run ∧
      ∀ c ∈ plain run, isDigit c = true := by
  fun_induction digits isDigit cs with
  | case1 c r hunderscore ih =>
    obtain ⟨run, hread, hplain, hdigits⟩ := ih
    have hdrop : plain (c :: run) = plain run := by
      rw [beq_iff_eq.1 hunderscore]
      rfl
    exact ⟨c :: run, congrArg (c :: ·) hread, hplain.trans hdrop.symm, hdrop.symm ▸ hdigits⟩
  | case2 c r hunderscore hdigit ds rest hread ih =>
    rw [hread] at ih
    obtain ⟨run, hrun, hplain, hdigits⟩ := ih
    have hkeep : plain (c :: run) = c :: plain run := plain_cons (by simpa using hunderscore) run
    refine ⟨c :: run, congrArg (c :: ·) hrun, ?_, ?_⟩
    · rw [hkeep]
      exact congrArg (c :: ·) hplain
    · rw [hkeep]
      exact List.forall_mem_cons.2 ⟨hdigit, hdigits⟩
  | case3 => exact ⟨[], rfl, rfl, List.forall_mem_nil _⟩
  | case4 => exact ⟨[], rfl, rfl, List.forall_mem_nil _⟩

theorem ne_underscore_of_isDigit (hc : c.isDigit = true) : c ≠ '_' := by
  rintro rfl
  cases hc

theorem digits_ne_nil (hc : c.isDigit = true) (r : List Char) :
    (digits (·.isDigit) (c :: r)).1 ≠ [] := by
  rw [digits, if_neg (by simpa using ne_underscore_of_isDigit hc), if_pos hc]
  exact List.cons_ne_nil _ _

/-- A fraction is taken off the front of the characters, with a digit at least. -/
theorem exists_fraction (cs : List Char) : ∃ run o, cs = run ++ (fraction cs).2 ∧
    (fraction cs).1 = plain run ∧ Bytes.ofText (String.ofList (plain run)) = Decimal.pointed o ∧
      ∀ f ∈ o, Scan.AreDigits f ∧ f ≠ [] := by
  fun_cases fraction cs with
  | case1 c r hdigit ds rest hread =>
    obtain ⟨run, hrun, hplain, hdigits⟩ := exists_digits (·.isDigit) (c :: r)
    have hne := digits_ne_nil hdigit r
    rw [hplain] at hne
    have hpoint : plain ('.' :: run) = '.' :: plain run := plain_cons (by decide) run
    rw [hread] at hrun hplain
    refine ⟨'.' :: run, some (Bytes.ofText (String.ofList (plain run))), ?_, ?_, ?_, ?_⟩
    · exact congrArg ('.' :: ·) hrun
    · rw [hpoint]
      exact congrArg ('.' :: ·) hplain
    · rw [hpoint]
      exact Bytes.ofText_cons '.' _
    · rintro f ⟨⟩
      exact ⟨AreDigits.ofText hdigits, AreDigits.ofText_ne_nil hdigits hne⟩
  | case2 => exact ⟨[], none, rfl, rfl, Bytes.ofText_ofList [], nofun⟩
  | case3 => exact ⟨[], none, rfl, rfl, Bytes.ofText_ofList [], nofun⟩

/-- An exponent is taken off the front of the characters, and spelled with a small letter. -/
theorem exists_exponent (cs : List Char) : ∃ run o, cs = run ++ (exponent cs).2 ∧
    Bytes.ofText (String.ofList (plain run)) = Decimal.scaled o ∧
      Bytes.ofText (String.ofList (exponent cs).1) = Decimal.scaled (o.map (·.small)) := by
  fun_cases exponent cs with
  | case1 e r sign after hsign hfront ds rest hread =>
    obtain ⟨hletter, hdigit⟩ := Bool.and_eq_true_iff.1 hfront
    have he : e = 'e' ∨ e = 'E' := by simpa using hletter
    obtain ⟨run, hrun, hplain, hdigits⟩ := exists_digits (·.isDigit) after
    have hne : (digits (·.isDigit) after).1 ≠ [] := by
      cases after with
      | nil => cases hdigit
      | cons c after => exact digits_ne_nil hdigit after
    rw [hplain] at hne
    rw [hread] at hrun hplain
    obtain rfl : ds = plain run := hplain
    obtain ⟨s, hr, hkeep, hs⟩ : ∃ s : Option Sign, r = sign ++ after ∧ plain sign = sign ∧
        Bytes.ofText (String.ofList sign) = Sign.bytes s := by
      split at hsign <;> cases hsign
      · exact ⟨some .plus, rfl, rfl, Bytes.ofText_eq "+"⟩
      · exact ⟨some .minus, rfl, rfl, Bytes.ofText_eq "-"⟩
      · exact ⟨none, rfl, rfl, Bytes.ofText_ofList []⟩
    let power : Exponent := ⟨e == 'E', s, _, AreDigits.ofText hdigits,
      AreDigits.ofText_ne_nil hdigits hne⟩
    have hbytes (letter : Char) : Bytes.ofText (String.ofList (letter :: (sign ++ plain run))) =
        String.utf8EncodeChar letter ++ (Sign.bytes s ++ power.digits) := by
      rw [Bytes.ofText_cons, Bytes.ofText_append, hs]
    refine ⟨e :: (sign ++ run), some power, ?_, ?_, ?_⟩
    · rw [hr, hrun, List.cons_append, List.append_assoc]
    · have hwritten : plain (e :: (sign ++ run)) = e :: (sign ++ plain run) := by
        rw [plain_cons (by rcases he with rfl | rfl <;> decide), plain_append, hkeep]
      rw [hwritten, hbytes]
      rcases he with rfl | rfl <;> rfl
    · exact hbytes 'e'
  | case2 => exact ⟨[], none, rfl, Bytes.ofText_ofList [], Bytes.ofText_ofList []⟩
  | case3 => exact ⟨[], none, rfl, Bytes.ofText_ofList [], Bytes.ofText_ofList []⟩

/-- A literal in decimal digits is a number in digits, and spelled as one. -/
theorem exists_decimal (hat : atNumber cs = true)
    (hdecimal : ∀ x r, cs = '0' :: x :: r → x ≠ 'x' ∧ x ≠ 'X') : ∃ run d,
    cs = run ++ (number cs).2 ∧ Bytes.ofText (String.ofList (plain run)) = Decimal.bytes d ∧
      Bytes.ofText (number cs).1 = d.small.bytes := by
  obtain ⟨whole, hwhole, hdigits, hareDigits⟩ := exists_digits (·.isDigit) cs
  obtain ⟨frac, f, hfrac, hpoint, hf, hfracDigits⟩ := exists_fraction (digits (·.isDigit) cs).2
  obtain ⟨exp, e, hexp, he, hsmall⟩ := exists_exponent (fraction (digits (·.isDigit) cs).2).2
  have hread : number cs = (String.ofList ((digits (·.isDigit) cs).1 ++
      (fraction (digits (·.isDigit) cs).2).1 ++
      (exponent (fraction (digits (·.isDigit) cs).2).2).1),
      (exponent (fraction (digits (·.isDigit) cs).2).2).2) := by
    rw [number]
    · exact fun r hcs => (hdecimal 'x' r hcs).1 rfl
    · exact fun r hcs => (hdecimal 'X' r hcs).2 rfl
  have hne : Bytes.ofText (String.ofList (plain whole)) ++ f.getD [] ≠ [] := by
    intro hnil
    obtain ⟨hnoWhole, hnoFraction⟩ := List.append_eq_nil_iff.1 hnil
    rcases atNumber_cases hat with ⟨c, r, rfl, hc⟩ | ⟨d, r, rfl, hd⟩
    · refine AreDigits.ofText_ne_nil hareDigits ?_ hnoWhole
      rw [← hdigits]
      exact digits_ne_nil hc r
    · have hsome : fraction ('.' :: d :: r) =
          ('.' :: (digits (·.isDigit) (d :: r)).1, (digits (·.isDigit) (d :: r)).2) := if_pos hd
      have hstays : digits (·.isDigit) ('.' :: d :: r) = ([], '.' :: d :: r) := rfl
      rw [hstays, hsome] at hpoint
      cases f with
      | none =>
        rw [← hpoint, Bytes.ofText_cons] at hf
        exact absurd hf (List.cons_ne_nil _ _)
      | some f => exact (hfracDigits f rfl).2 hnoFraction
  refine ⟨whole ++ frac ++ exp, ⟨_, f, e, AreDigits.ofText hareDigits,
    fun b hb => (hfracDigits b hb).1, hne⟩, ?_, ?_, ?_⟩
  · rw [hread, List.append_assoc, List.append_assoc, ← hexp, ← hfrac, ← hwhole]
  · rw [plain_append, plain_append, Bytes.ofText_append, Bytes.ofText_append, hf, he]
    rfl
  · rw [hread, Bytes.ofText_append, Bytes.ofText_append, hdigits, hpoint, hf, hsmall]
    rfl

/-- A literal in hexadecimal digits is spelled in decimal ones. -/
theorem exists_hexadecimal (cs : List Char) : ∃ run, cs = run ++ (hexNumber cs).2 ∧
    (hexNumber cs).1 = toString (if plain run = [] ∨ 2 ^ 64 ≤ hexValue (plain run) then 2 ^ 64 - 1
      else hexValue (plain run)) := by
  obtain ⟨run, hrun, hplain, -⟩ := exists_digits (fun c => (hexValue? c).isSome) cs
  refine ⟨run, hrun, ?_⟩
  rw [hexNumber]
  simp only [hplain, Bool.or_eq_true, List.isEmpty_iff, decide_eq_true_eq]
  rfl

/-- Each token of a text stands at a place that the reading comes to. -/
theorem exists_place {text : List Char} {fuel : Nat} {ts : List Token} {t : Token}
    (hcomes : Comes text cs) (hread : tokensWithin fuel cs = .ok ts) (ht : t ∈ ts) :
    ∃ place rest, Comes text place ∧ token place = .ok (t, rest) := by
  induction fuel generalizing cs ts with
  | zero => cases hread; cases ht
  | succ fuel ih =>
    cases cs with
    | nil => cases hread; cases ht
    | cons c r =>
      rw [tokensWithin] at hread
      split at hread
      next hblank => exact ih (hcomes.blank hblank) hread ht
      next =>
        split at hread
        next hcomment =>
          rw [beq_iff_eq.1 hcomment] at hcomes
          exact ih hcomes.comment hread ht
        next =>
          cases htoken : token (c :: r) with
          | error f => rw [htoken] at hread; cases hread
          | ok p =>
            cases hrest : tokensWithin fuel p.2 with
            | error f => simp [htoken, hrest, bind, Except.bind] at hread
            | ok us =>
              have hall : p.1 :: us = ts := by
                simpa [htoken, hrest, bind, Except.bind, pure, Except.pure] using hread
              rw [← hall, List.mem_cons] at ht
              rcases ht with rfl | ht
              · exact ⟨c :: r, p.2, hcomes, htoken⟩
              · exact ih (hcomes.token htoken) hrest ht

/-- A number token is a number literal that has been taken. -/
theorem number_of_token (h : token cs = .ok (.number spelling, rest)) :
    atNumber cs = true ∧ number cs = (spelling, rest) := by
  cases cs with
  | nil => cases h
  | cons c r =>
    simp only [token] at h
    split at h
    next =>
      split at h
      · split at h <;> cases h
      · cases h
    next =>
      split at h
      next =>
        split at h
        next => split at h <;> cases h
        next => cases h
      next =>
        split at h
        next hat =>
          cases h
          exact ⟨hat, rfl⟩
        next =>
          split at h
          next => split at h <;> cases h
          next => split at h <;> cases h

end Lexer

/-! ### What the reader of numbers makes of it -/

/-- A natural number with or without a minus sign. -/
def signed (negative : Bool) (n : Nat) : Int := if negative then -n else n

/-- A number in digits with or without a minus sign. -/
def numeral (negative : Bool) (d : Decimal) : Numeral :=
  ⟨[], if negative then some .minus else none, .decimal d, nofun⟩

theorem bytes_numeral (negative : Bool) (d : Decimal) :
    (numeral negative d).bytes = if negative then 45 :: d.bytes else d.bytes := by
  cases negative <;> rfl

theorem value_numeral (negative : Bool) (d : Decimal) :
    (numeral negative d).value = d.value negative := by
  cases negative <;> rfl

/-- A literal that is spelled as a number in digits is this number. -/
theorem numberLiteral_of_decimal {d : Decimal} (hd : Bytes.ofText spelling = d.bytes)
    (negative : Bool) : numberLiteral negative spelling = .number (d.value negative) := by
  have hbytes : Bytes.ofText (if negative then "-" ++ spelling else spelling) =
      (numeral negative d).bytes := by
    rw [bytes_numeral, ← hd]
    cases negative
    · rfl
    · exact Bytes.ofText_minus spelling
  have hread := (numeral negative d).ofBytes?_append (s := []) nofun
  rw [List.append_nil] at hread
  rw [numberLiteral, hbytes, hread, value_numeral]

/-- Digits alone are an integer, as long as 64 bits hold it. -/
theorem value_of_digits {ds : List Char} (hds : AreDigits ds) {d : Decimal}
    (hd : Bytes.ofText (String.ofList ds) = d.bytes)
    (hholds : Wide.Holds (signed negative (Nat.ofDigitChars 10 ds 0))) :
    d.value negative = .whole (.ofInt (signed negative (Nat.ofDigitChars 10 ds 0))) := by
  have hne : Bytes.ofText (String.ofList ds) ≠ [] := by
    obtain ⟨b, bs, hbytes, -⟩ := Scan.decimal_head d
    rw [hd, hbytes]
    exact List.cons_ne_nil b bs
  let whole : Decimal := ⟨_, none, none, hds.ofText, nofun, by simpa using hne⟩
  have hbytes : d.bytes = whole.bytes := by
    rw [← hd]
    simp [whole, Decimal.bytes, Decimal.pointed, Decimal.scaled]
  have hvalue : Scan.digitsValue (Bytes.ofText (String.ofList ds)) = Nat.ofDigitChars 10 ds 0 := by
    rw [Scan.ofText_digits hds, Scan.digitsValue_digits hds]
  have hsame : d.value negative = whole.value negative := by
    rw [← value_numeral, ← value_numeral]
    exact Numeral.value_eq_of_bytes_eq (by rw [bytes_numeral, bytes_numeral, hbytes])
  have hinteger : whole.integer? negative = some (signed negative (Nat.ofDigitChars 10 ds 0)) := by
    rw [← hvalue]
    rfl
  rw [hsame, Decimal.value, hinteger, Number.exactOr_of_holds hholds]

/-! ### Terms and their values -/

/-- The tokens of a literal with or without a minus sign. -/
def literal (negative : Bool) (spelling : String) : List Token :=
  if negative then [.mark .minus, .number spelling] else [.number spelling]

/-- A literal denotes a number. Wherever a term begins with it the term is this number, whatever
follows. The number is a new scalar with this value in every machine, and so it is as the value of
a source text of the literal alone. -/
structure Denotes (negative : Bool) (spelling : String) (v : Number) : Prop where
  isTerm : ∀ fuel ts, term (fuel + 1) (literal negative spelling ++ ts) = (.number v, ts)
  evaluates : ∀ r want m, ∃ h m', (Expr.number v).eval r want m = .ok [h] m' ∧
    m'.ReadsAs h (.ofNumber v)
  alone : ∀ source, tokens source = .ok (literal negative spelling) → ∀ r want m, ∃ h m',
    values r source want m = .ok [h] m' ∧ m'.ReadsAs h (.ofNumber v)

theorem eval_number (v : Number) (r : Reentry) (want : Want) (m : Machine) : ∃ h m',
    (Expr.number v).eval r want m = .ok [h] m' ∧ m'.ReadsAs h (.ofNumber v) := by
  refine ⟨m.heap.next, (m.allocMortal (.scalar (.ofNumber v))).2, ?_, readsAs_allocMortal m _⟩
  rw [Expr.eval]
  rfl

theorem denotes_of_numberLiteral {v : Number} (h : numberLiteral negative spelling = .number v) :
    Denotes negative spelling v where
  isTerm fuel ts := by
    cases negative <;> (rw [← h]; rfl)
  evaluates := eval_number v
  alone source hsource r want m := by
    obtain ⟨k, m', heval, hreads⟩ := eval_number v r want m
    refine ⟨k, m', ?_, hreads⟩
    have hstatements : statements (literal negative spelling) = [⟨.number v, .done⟩] := by
      cases negative <;> (rw [← h]; rfl)
    rw [Reads.values_eq ⟨_, hsource, hstatements⟩, heval]

/-- A literal denotes a natural number: the number itself where 64 bits hold it, and with a minus
sign its negation where they hold this. -/
def Yields (spelling : String) (n : Nat) : Prop :=
  (n < 2 ^ 64 → Denotes false spelling (.whole (.ofInt n))) ∧
    (n ≤ 2 ^ 63 → Denotes true spelling (.whole (.ofInt (-n))))

/-- A spelling in digits yields the number that they write. -/
theorem yields_of_digits {ds : List Char} (hds : AreDigits ds) {d : Decimal}
    (hd : Bytes.ofText (String.ofList ds) = d.bytes)
    (hnumber : ∀ negative, numberLiteral negative spelling = .number (d.value negative)) :
    Yields spelling (Nat.ofDigitChars 10 ds 0) := by
  have hdenotes (negative : Bool) (hholds : Wide.Holds (signed negative (Nat.ofDigitChars 10 ds 0))) :
      Denotes negative spelling (.whole (.ofInt (signed negative (Nat.ofDigitChars 10 ds 0)))) := by
    refine denotes_of_numberLiteral ?_
    rw [hnumber, value_of_digits hds hd hholds]
  constructor
  · intro hn
    refine hdenotes false ?_
    show -2 ^ 63 ≤ (Nat.ofDigitChars 10 ds 0 : Int) ∧ (Nat.ofDigitChars 10 ds 0 : Int) < 2 ^ 64
    omega
  · intro hn
    refine hdenotes true ?_
    show -2 ^ 63 ≤ -(Nat.ofDigitChars 10 ds 0 : Int) ∧ -(Nat.ofDigitChars 10 ds 0 : Int) < 2 ^ 64
    omega

/-- The decimal text of a natural number is a number in digits, and yields the natural number. -/
theorem yields_toString (n : Nat) : (∀ negative, ∃ v, Denotes negative (toString n) v) ∧
    Yields (toString n) n := by
  have hdigits := areDigits_toDigits n
  have hne := hdigits.ofText_ne_nil Nat.toDigits_ne_nil
  let d : Decimal := ⟨_, none, none, hdigits.ofText, nofun, by simpa using hne⟩
  have htext : toString n = String.ofList (Nat.toDigits 10 n) := Nat.toString_eq_ofList_toDigits
  have hd : Bytes.ofText (String.ofList (Nat.toDigits 10 n)) = d.bytes := by
    simp [d, Decimal.bytes, Decimal.pointed, Decimal.scaled]
  have hnumber := numberLiteral_of_decimal (htext ▸ hd)
  refine ⟨fun negative => ⟨_, denotes_of_numberLiteral (hnumber negative)⟩, ?_⟩
  have hyields := yields_of_digits hdigits hd hnumber
  rwa [Nat.ofDigitChars_ten_toDigits] at hyields

/-- Number literals have the values that are written. Each number token of a source text has been
taken from a place there; it is never refused. In decimal digits alone it yields the number of these
digits, and in hexadecimal ones after `0x` the number of these, without the underscores; more than 64
bits and no digits at all are the greatest number of 64 bits. With a point or an exponent it is the
float nearest to the number. -/
theorem number_literals_denote {ts : List Token} (hts : tokens source = .ok ts)
    (hnumber : .number spelling ∈ ts) : ∃ written rest,
      Comes source.toList (written ++ rest) ∧
      token (written ++ rest) = .ok (.number spelling, rest) ∧
      (∀ negative, ∃ v, Denotes negative spelling v) ∧
      ((∀ c ∈ written, c.isDigit = true ∨ c = '_') →
        Yields spelling (Nat.ofDigitChars 10 (plain written) 0)) ∧
      (∀ x ds, written = '0' :: x :: ds → x = 'x' ∨ x = 'X' →
        Yields spelling (if plain ds = [] ∨ 2 ^ 64 ≤ hexValue (plain ds) then 2 ^ 64 - 1
          else hexValue (plain ds))) ∧
      ((∀ x ds, written = '0' :: x :: ds → x ≠ 'x' ∧ x ≠ 'X') →
        ∃ d : Decimal, Bytes.ofText (String.ofList (plain written)) = d.bytes ∧
          ∀ negative, Denotes negative spelling (d.value negative)) := by
  obtain ⟨place, rest, hcomes, htoken⟩ := exists_place .start hts hnumber
  obtain ⟨hat, hread⟩ := number_of_token htoken
  by_cases hhex : ∃ x r, place = '0' :: x :: r ∧ (x = 'x' ∨ x = 'X')
  · obtain ⟨x, r, rfl, hx⟩ := hhex
    have hnumber : hexNumber r = (spelling, rest) := by rcases hx with rfl | rfl <;> exact hread
    obtain ⟨run, hrun, htext⟩ := exists_hexadecimal r
    rw [hnumber] at hrun htext
    obtain rfl : r = run ++ rest := hrun
    obtain ⟨hdenotes, hyields⟩ := yields_toString (if plain run = [] ∨ 2 ^ 64 ≤ hexValue (plain run)
      then 2 ^ 64 - 1 else hexValue (plain run))
    rw [← htext] at hdenotes hyields
    refine ⟨'0' :: x :: run, rest, hcomes, htoken, hdenotes, fun hall => ?_, ?_, fun hno => ?_⟩
    · refine absurd (hall x (by simp)) ?_
      rcases hx with rfl | rfl <;> decide
    · rintro y ds ⟨⟩ -
      exact hyields
    · obtain ⟨hlower, hupper⟩ := hno x run rfl
      exact absurd hx (by tauto)
  · have hdecimal (x : Char) (r : List Char) (hplace : place = '0' :: x :: r) : x ≠ 'x' ∧ x ≠ 'X' := by
      constructor
      · exact fun hx => hhex ⟨x, r, hplace, .inl hx⟩
      · exact fun hx => hhex ⟨x, r, hplace, .inr hx⟩
    obtain ⟨run, d, hrun, hd, hsmall⟩ := exists_decimal hat hdecimal
    rw [hread] at hrun hsmall
    obtain rfl : place = run ++ rest := hrun
    have hnumber (negative : Bool) : numberLiteral negative spelling = .number (d.value negative) := by
      rw [numberLiteral_of_decimal hsmall, Decimal.value_small]
    have hdenotes (negative : Bool) := denotes_of_numberLiteral (hnumber negative)
    refine ⟨run, rest, hcomes, htoken, fun negative => ⟨_, hdenotes negative⟩, fun hall => ?_, ?_,
      fun _ => ⟨d, hd, hdenotes⟩⟩
    · refine yields_of_digits (fun c hc => ?_) hd hnumber
      obtain ⟨hc, hkept⟩ := List.mem_filter.1 hc
      exact (hall c hc).resolve_right (by simpa using hkept)
    · rintro x ds rfl hx
      obtain ⟨hlower, hupper⟩ := hdecimal x (ds ++ rest) rfl
      exact absurd hx (by tauto)

/-- A hexadecimal literal after a minus sign, with an underscore before its digits. -/
theorem minusHexadecimal_denotes : tokens "-0x_fF" = .ok [.mark .minus, .number "255"] ∧
    ∃ written rest, Comes "-0x_fF".toList (written ++ rest) ∧
      token (written ++ rest) = .ok (.number "255", rest) ∧ ∃ v, Denotes true "255" v := by
  have htokens : tokens "-0x_fF" = .ok [.mark .minus, .number "255"] := by rfl
  obtain ⟨written, rest, hcomes, htoken, hdenotes, -⟩ :=
    number_literals_denote htokens (List.mem_cons_of_mem _ (List.mem_singleton_self _))
  exact ⟨htokens, written, rest, hcomes, htoken, hdenotes true⟩

example : tokens "0x" = .ok [.number "18446744073709551615"] := by rfl

end Source

end ValueMachine

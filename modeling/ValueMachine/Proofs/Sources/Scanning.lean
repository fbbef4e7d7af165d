import Mathlib.Data.List.TakeWhile
import Mathlib.Tactic
import ValueMachine.Source.Token

/-! The reading of tokens. Every scanner leaves an end of the characters that it was given, and a
token takes one character at least, so that the reading of a text comes to an end within as many
steps as it has characters. -/

namespace ValueMachine.Source

namespace Mark

variable {m : Mark} {c : Char} {r rest : List Char}

theorem read?_suffix (h : read? (c :: r) = some (m, rest)) : rest <:+ r := by
  unfold read? at h
  split at h
  case h_1 heq | h_2 heq =>
    cases h
    cases heq
    exact List.suffix_cons _ _
  case h_14 => cases h
  all_goals
    rename_i heq
    cases h
    cases heq
    exact List.suffix_refl _

end Mark

namespace Lexer

variable {cs r rest : List Char} {c : Char}

/-! ### Words and numbers -/

theorem word_suffix (cs : List Char) : (word cs).2 <:+ cs := by
  fun_induction word cs with
  | case1 c r hstart w rest hword ih =>
    rw [hword] at ih
    exact ih.trans ((List.suffix_cons c r).trans ((List.suffix_cons ':' _).trans
      (List.suffix_cons ':' _)))
  | case2 => exact List.suffix_refl _
  | case3 c r hno hpart w rest hword ih =>
    rw [hword] at ih
    exact ih.trans (List.suffix_cons c r)
  | case4 => exact List.suffix_refl _
  | case5 => exact List.suffix_refl _

theorem isWordPart_of_isWordStart (hc : isWordStart c = true) : isWordPart c = true := by
  simp only [isWordStart, isWordPart, Text.isAlphanumeric, Bool.or_eq_true] at hc ⊢
  tauto

/-- A word takes its first character. -/
theorem word_suffix_of_start (hc : isWordStart c = true) : (word (c :: r)).2 <:+ r := by
  have hpart := isWordPart_of_isWordStart hc
  have hcolon : c ≠ ':' := by
    rintro rfl
    revert hc
    decide
  rw [word, if_pos hpart]
  · exact word_suffix r
  · rintro d s rfl rfl
    exact absurd rfl hcolon

theorem digits_suffix (isDigit : Char → Bool) (cs : List Char) : (digits isDigit cs).2 <:+ cs := by
  fun_induction digits isDigit cs with
  | case1 c r _ ih => exact ih.trans (List.suffix_cons c r)
  | case2 c r _ _ ds rest hdigits ih =>
    rw [hdigits] at ih
    exact ih.trans (List.suffix_cons c r)
  | case3 => exact List.suffix_refl _
  | case4 => exact List.suffix_refl _

/-- Digits take their first character. -/
theorem digits_suffix_of_digit {isDigit : Char → Bool} (hc : isDigit c = true) :
    (digits isDigit (c :: r)).2 <:+ r := by
  rw [digits, if_pos hc]
  split
  · exact digits_suffix isDigit r
  · exact digits_suffix isDigit r

theorem fraction_suffix (cs : List Char) : (fraction cs).2 <:+ cs := by
  unfold fraction
  split
  next c r =>
    split
    · exact (digits_suffix _ _).trans (List.suffix_cons '.' _)
    · exact List.suffix_refl _
  next => exact List.suffix_refl _

/-- A fraction takes its point. -/
theorem fraction_suffix_of_digit {d : Char} (hd : d.isDigit = true) :
    (fraction ('.' :: d :: r)).2 <:+ d :: r := by
  rw [fraction, if_pos hd]
  exact digits_suffix _ _

theorem exponent_suffix (cs : List Char) : (exponent cs).2 <:+ cs := by
  fun_cases exponent cs with
  | case1 e r sign after hsign hdigit ds rest hdigits =>
    have hafter : after <:+ r := by
      split at hsign <;> cases hsign
      · exact List.suffix_cons _ _
      · exact List.suffix_cons _ _
      · exact List.suffix_refl _
    have hrest := digits_suffix (·.isDigit) after
    rw [hdigits] at hrest
    exact hrest.trans (hafter.trans (List.suffix_cons e r))
  | case2 => exact List.suffix_refl _
  | case3 => exact List.suffix_refl _

/-- A number literal begins with a digit, or with a point and a digit. -/
theorem atNumber_cases (h : atNumber cs = true) : (∃ d r, cs = d :: r ∧ d.isDigit = true) ∨
    ∃ d r, cs = '.' :: d :: r ∧ d.isDigit = true := by
  unfold atNumber at h
  split at h
  next d r => exact .inr ⟨d, r, rfl, h⟩
  next d r _ => exact .inl ⟨d, r, rfl, h⟩
  next => cases h

theorem number_suffix (h : atNumber (c :: r) = true) : (number (c :: r)).2 <:+ r := by
  unfold number
  split
  next s heq =>
    cases heq
    exact (digits_suffix _ s).trans (List.suffix_cons _ s)
  next s heq =>
    cases heq
    exact (digits_suffix _ s).trans (List.suffix_cons _ s)
  next =>
    refine (exponent_suffix _).trans ?_
    rcases atNumber_cases h with ⟨d, s, heq, hd⟩ | ⟨d, s, heq, hd⟩
    · cases heq
      exact (fraction_suffix _).trans (digits_suffix_of_digit hd)
    · cases heq
      exact fraction_suffix_of_digit hd

/-! ### Strings, word lists and variables -/

/-- An escape jumps at most one character beyond the end, where its closing brace is missing. -/
theorem hexEscape_le (cs : List Char) : (hexEscape cs).2 ≤ cs.length + 1 := by
  unfold hexEscape
  split
  next r =>
    simp only [List.length_cons]
    split
    next hclose =>
      have hclose : '\x7d' ∈ r := by simpa using hclose
      have hlt : (r.takeWhile (· != '\x7d')).length < r.length := by
        refine lt_of_le_of_ne (List.takeWhile_prefix _).length_le fun heq => ?_
        have hall := List.takeWhile_eq_self_iff.1 ((List.takeWhile_prefix _).eq_of_length heq)
        simpa using hall '\x7d' hclose
      omega
    next => simp
  next =>
    have htake := (List.takeWhile_prefix (l := cs.take 2)
      fun c : Char => (hexValue? c).isSome).length_le
    have hlen := List.length_take_le 2 cs
    dsimp only
    have := List.length_take_le' 2 cs
    omega

theorem stringFrom_suffix {quote : Char} {skip : Nat} {text : List Char}
    (h : stringFrom quote skip cs = some (text, rest)) : rest <:+ cs := by
  fun_induction stringFrom quote skip cs generalizing text with
  | case1 => cases h
  | case2 skip c r ih => exact (ih h).trans (List.suffix_cons c r)
  | case3 c r =>
    cases h
    exact List.suffix_cons c _
  | case4 =>
    rename_i ih
    obtain ⟨⟨t', rest'⟩, hrec, heq⟩ := Option.map_eq_some_iff.1 h
    cases heq
    exact (ih hrec).trans (List.suffix_cons _ _)
  | case5 c r hquote hno ih =>
    obtain ⟨⟨t', rest'⟩, hrec, heq⟩ := Option.map_eq_some_iff.1 h
    cases heq
    exact (ih hrec).trans (List.suffix_cons _ _)

theorem wordList?_suffix {ws : List String} (h : wordList? cs = some (.ok (ws, rest))) :
    rest <:+ cs := by
  have hblank := List.dropWhile_suffix (l := cs) Text.isBlank
  unfold wordList? at h
  split at h
  next opening r heq =>
    rw [heq] at hblank
    obtain ⟨close, -, h⟩ := Option.bind_eq_some_iff.1 h
    split at h
    next =>
      cases h
      exact ((List.drop_suffix 1 _).trans (List.dropWhile_suffix _)).trans
        ((List.suffix_cons opening r).trans hblank)
    next => cases h
  next => cases h

theorem variableName?_suffix {sigil : Char} {name : String}
    (h : variableName? sigil cs = some (name, rest)) : rest <:+ cs := by
  unfold variableName? at h
  split at h
  next c r =>
    split at h
    · cases h
      exact List.suffix_cons c _
    · split at h
      · cases h
        exact List.suffix_cons c _
      · split at h
        · cases h
          exact word_suffix _
        · cases h
  next => cases h

/-! ### Tokens -/

/-- A token takes its first character, and leaves an end of the others. -/
theorem token_suffix {t : Token} (h : token (c :: r) = .ok (t, rest)) : rest <:+ r := by
  simp only [token] at h
  split at h
  next hstart =>
    have hword := word_suffix_of_start (r := r) hstart
    split at h
    · split at h
      next hwords =>
        cases h
        exact (wordList?_suffix hwords).trans hword
      next => cases h
      next =>
        cases h
        exact hword
    · cases h
      exact hword
  next =>
    split at h
    next =>
      split at h
      next hname =>
        cases h
        exact variableName?_suffix hname
      next => cases h
    next =>
      split at h
      next hnumber =>
        cases h
        exact number_suffix hnumber
      next =>
        split at h
        next =>
          split at h
          next htext =>
            cases h
            exact stringFrom_suffix htext
          next => cases h
        next =>
          split at h
          next hmark =>
            cases h
            exact Mark.read?_suffix hmark
          next => cases h

/-- The places that the reading of the tokens comes to. -/
inductive Comes (cs : List Char) : List Char → Prop
  | start : Comes cs cs
  | blank {c : Char} {r : List Char} : Comes cs (c :: r) → Text.isBlank c = true → Comes cs r
  | comment {r : List Char} : Comes cs ('#' :: r) → Comes cs (r.dropWhile (· != '\n'))
  | token {c : Char} {r rest : List Char} {t : Token} :
    Comes cs (c :: r) → Lexer.token (c :: r) = .ok (t, rest) → Comes cs rest

/-- They are all within the text. -/
theorem Comes.suffix (h : Comes cs rest) : rest <:+ cs := by
  induction h with
  | start => exact List.suffix_refl _
  | blank _ _ ih => exact (List.suffix_cons _ _).trans ih
  | comment _ ih => exact (List.dropWhile_suffix _).trans ((List.suffix_cons _ _).trans ih)
  | token _ ht ih => exact (token_suffix ht).trans ((List.suffix_cons _ _).trans ih)

/-- Steps beyond the number of characters change nothing: the reading of the tokens has come to its
end before. -/
theorem tokensWithin_eq {fuel fuel' : Nat} (hfuel : cs.length ≤ fuel) (hfuel' : cs.length ≤ fuel') :
    tokensWithin fuel cs = tokensWithin fuel' cs := by
  induction fuel generalizing cs fuel' with
  | zero =>
    obtain rfl : cs = [] := List.length_eq_zero_iff.1 (by omega)
    cases fuel' <;> rfl
  | succ fuel ih =>
    cases cs with
    | nil => cases fuel' <;> rfl
    | cons c r =>
      obtain ⟨n, rfl⟩ : ∃ n, fuel' = n + 1 := ⟨fuel' - 1, by simp at hfuel'; omega⟩
      rw [List.length_cons] at hfuel hfuel'
      have hend {rest : List Char} (hrest : rest <:+ r) :
          tokensWithin fuel rest = tokensWithin n rest :=
        ih (by have := hrest.length_le; omega) (by have := hrest.length_le; omega)
      rw [tokensWithin, tokensWithin, hend (List.suffix_refl r), hend (List.dropWhile_suffix _)]
      split
      · rfl
      · split
        · rfl
        · cases ht : token (c :: r) with
          | error f => rfl
          | ok p =>
            simp only [bind, Except.bind]
            rw [hend (token_suffix ht)]

end Lexer

end ValueMachine.Source

import ValueMachine.Json.Basic
import ValueMachine.Proofs.Documents.Numerals

/-! Documents as source text: `undef`, decimal integers, texts in single quotes, lists in brackets
and objects in braces. The text of a document lexes to its tokens in front of whatever closes or
goes on with the list that it stands in. -/

namespace ValueMachine

open Source

/-- The first text comes before the second in the order of their bytes. -/
def Bytes.Before (s t : String) : Prop := ofText s < ofText t

instance (s t : String) : Decidable (Bytes.Before s t) :=
  inferInstanceAs (Decidable (Bytes.ofText s < Bytes.ofText t))

theorem Bytes.Before.ne {s t : String} (h : Bytes.Before s t) : ofText s ≠ ofText t := by
  intro he
  rw [Bytes.Before, he] at h
  exact List.lt_irrefl _ h

namespace Json

/-- A document of null, integers of 64 bits, texts, lists and objects, with at most so many levels
of containers. An object has a key once, and its fields in the order of their keys. -/
inductive Plain : Nat → Json → Prop where
  | null {n : Nat} : Plain n .null
  | int {n : Nat} {i : Int} (hi : Wide.Holds i) : Plain n (.int i)
  | text {n : Nat} {s : String} : Plain n (.text s)
  | list {n : Nat} {items : List Json} (hitems : ∀ j ∈ items, Plain n j) :
      Plain (n + 1) (.list items)
  | object {n : Nat} {fields : List (String × Json)}
      (hkeys : fields.Pairwise fun f g => Bytes.Before f.1 g.1)
      (hfields : ∀ f ∈ fields, Plain n f.2) : Plain (n + 1) (.object fields)

/-- A character in single quotes. -/
def escaped (c : Char) : List Char := if c = '\\' ∨ c = '\'' then ['\\', c] else [c]

/-- A text in single quotes. -/
def literal (s : String) : List Char := '\'' :: (s.toList.flatMap escaped ++ ['\''])

mutual

/-- The source text of a document. Truth values and floats, which plain documents have none of, are
left undefined. -/
def source : Json → List Char
  | .null | .bool _ | .float _ => ['u', 'n', 'd', 'e', 'f']
  | .int n => if n < 0 then '-' :: decimal n else decimal n
  | .text s => literal s
  | .list items => '[' :: (sourceItems items ++ [']'])
  | .object fields => '\x7b' :: (sourceFields fields ++ ['\x7d'])

def sourceItems : List Json → List Char
  | [] => []
  | [j] => j.source
  | j :: rest => j.source ++ ',' :: ' ' :: sourceItems rest

def sourceFields : List (String × Json) → List Char
  | [] => []
  | [(key, j)] => literal key ++ ' ' :: '=' :: '>' :: ' ' :: j.source
  | (key, j) :: rest =>
    literal key ++ ' ' :: '=' :: '>' :: ' ' :: (j.source ++ ',' :: ' ' :: sourceFields rest)

end

mutual

/-- The tokens of the source text of a document. -/
def tokens : Json → List Token
  | .null | .bool _ | .float _ => [.word "undef"]
  | .int n =>
    if n < 0 then [.mark .minus, .number (String.ofList (decimal n))]
    else [.number (String.ofList (decimal n))]
  | .text s => [.string s]
  | .list items => .mark .openBracket :: (tokensItems items ++ [.mark .closeBracket])
  | .object fields => .mark .openBrace :: (tokensFields fields ++ [.mark .closeBrace])

def tokensItems : List Json → List Token
  | [] => []
  | [j] => j.tokens
  | j :: rest => j.tokens ++ .mark .comma :: tokensItems rest

def tokensFields : List (String × Json) → List Token
  | [] => []
  | [(key, j)] => .string key :: .mark .fatComma :: j.tokens
  | (key, j) :: rest =>
    .string key :: .mark .fatComma :: (j.tokens ++ .mark .comma :: tokensFields rest)

end

end Json

namespace Source.Lexer

variable {c : Char} {cs rest : List Char} {t : Token} {ts : List Token}

/-- Characters lex to tokens, in as many steps as there are characters at most. -/
def Lexes (cs : List Char) (ts : List Token) : Prop :=
  ∀ fuel, cs.length ≤ fuel → Lexer.tokensWithin fuel cs = .ok ts

/-- What closes a container or goes on with it, or nothing. -/
def Closes : List Char → Prop
  | [] => True
  | c :: _ => c = ',' ∨ c = ']' ∨ c = '\x7d' ∨ c = ')'

theorem closes_comma : Closes (',' :: cs) := .inl rfl

theorem closes_bracket : Closes (']' :: cs) := .inr (.inl rfl)

theorem closes_brace : Closes ('\x7d' :: cs) := .inr (.inr (.inl rfl))

theorem closes_paren : Closes (')' :: cs) := .inr (.inr (.inr rfl))

namespace Lexes

theorem nil : Lexes [] [] := fun fuel _ => by cases fuel <;> rfl

theorem blank (hc : Text.isBlank c = true) (h : Lexes cs ts) : Lexes (c :: cs) ts
  | 0, hf => by simp at hf
  | fuel + 1, hf => by
    rw [Lexer.tokensWithin, if_pos hc]
    exact h fuel (by simpa using hf)

theorem token (hblank : Text.isBlank c = false) (hcomment : c ≠ '#')
    (ht : Lexer.token (c :: cs) = .ok (t, rest)) (hlen : rest.length ≤ cs.length)
    (h : Lexes rest ts) : Lexes (c :: cs) (t :: ts)
  | 0, hf => by simp at hf
  | fuel + 1, hf => by
    rw [Lexer.tokensWithin, if_neg (by simp [hblank]), if_neg (by simpa using hcomment), ht]
    have hrest := h fuel (hlen.trans (by simpa using hf))
    simp only [bind, Except.bind, hrest]
    rfl

end Lexes

/-! ### Marks -/

/-- The first characters of the marks in a document and in a call. -/
def opening : List Char := ['[', ']', '\x7b', '\x7d', '(', ')', ',', '=', '-']

theorem of_mem_opening (hc : c ∈ opening) : (Text.isBlank c = false ∧ c ≠ '#') ∧
    isWordStart c = false ∧ c ≠ '$' ∧ c ≠ '@' ∧ c ≠ '\'' ∧ c ≠ '"' ∧ c ≠ '.' ∧
      c.isDigit = false := by
  simp only [opening, List.mem_cons, List.not_mem_nil, or_false] at hc
  rcases hc with rfl | rfl | rfl | rfl | rfl | rfl | rfl | rfl | rfl <;> decide

theorem token_mark {m : Mark} (hc : c ∈ opening) (hm : Mark.read? (c :: cs) = some (m, rest)) :
    Lexer.token (c :: cs) = .ok (.mark m, rest) := by
  obtain ⟨-, hword, hscalar, harray, hquote, hdouble, hpoint, hdigit⟩ := of_mem_opening hc
  have hnumber : atNumber (c :: cs) = false := by
    rw [atNumber]
    · exact hdigit
    · exact fun _ _ he _ => hpoint he
  simp [Lexer.token, hword, hscalar, harray, hquote, hdouble, hnumber, hm]

theorem Lexes.mark {m : Mark} (hc : c ∈ opening) (hm : Mark.read? (c :: cs) = some (m, rest))
    (hlen : rest.length ≤ cs.length) (h : Lexes rest ts) : Lexes (c :: cs) (.mark m :: ts) := by
  obtain ⟨⟨hblank, hcomment⟩, -⟩ := of_mem_opening hc
  exact .token hblank hcomment (token_mark hc hm) hlen h

theorem Lexes.comma (h : Lexes cs ts) : Lexes (',' :: ' ' :: cs) (.mark .comma :: ts) :=
  .mark (by decide) rfl le_rfl (.blank (by decide) h)

theorem Lexes.fatComma (h : Lexes cs ts) :
    Lexes (' ' :: '=' :: '>' :: ' ' :: cs) (.mark .fatComma :: ts) :=
  .blank (by decide) (.mark (by decide) rfl (by simp) (.blank (by decide) h))

/-! ### Texts -/

theorem stringFrom_escaped (s rest : List Char) :
    stringFrom '\'' 0 (s.flatMap Json.escaped ++ '\'' :: rest) = some (s, rest) := by
  induction s with
  | nil => simp [stringFrom]
  | cons c s ih =>
    rw [List.flatMap_cons]
    by_cases hc : c = '\\' ∨ c = '\''
    · have hskip : escape '\'' c (s.flatMap Json.escaped ++ '\'' :: rest) = ([c], 0) := by
        rcases hc with rfl | rfl <;> rfl
      simp [Json.escaped, hc, stringFrom, hskip, ih]
    · obtain ⟨hback, hquote⟩ := not_or.1 hc
      simp [Json.escaped, hback, hquote, stringFrom, ih]

theorem Lexes.literal (s : String) (h : Lexes rest ts) :
    Lexes (Json.literal s ++ rest) (.string s :: ts) := by
  have hread := stringFrom_escaped s.toList rest
  show Lexes ('\'' :: (s.toList.flatMap Json.escaped ++ ['\''] ++ rest)) _
  refine .token (by decide) (by decide) ?_ (by rw [List.length_append]; omega) h
  rw [List.append_assoc, List.singleton_append]
  have hword : isWordStart '\'' = false := by decide
  have hnumber (r : List Char) : atNumber ('\'' :: r) = false := rfl
  simp [Lexer.token, hword, hnumber, hread]

/-! ### Integers and `undef` -/

theorem of_isDigit (hc : c.isDigit = true) : (Text.isBlank c = false ∧ c ≠ '#') ∧
    isWordStart c = false ∧ c ≠ '$' ∧ c ≠ '@' ∧ c ≠ '.' ∧ c ≠ '_' ∧ c ≠ '>' ∧ c ≠ 'x' ∧
      c ≠ 'X' := by
  obtain ⟨hlo, hhi⟩ := Char.toNat_of_isDigit hc
  rw [← Char.ofNat_toNat c]
  generalize c.toNat = n at hlo hhi
  interval_cases n <;> decide

theorem digits_append (hcs : ∀ c ∈ cs, c.isDigit = true) (hr : Closes rest) :
    digits (·.isDigit) (cs ++ rest) = (cs, rest) := by
  induction cs with
  | nil =>
    cases rest with
    | nil => rfl
    | cons c r => rcases hr with rfl | rfl | rfl | rfl <;> rfl
  | cons c cs ih =>
    have hc := hcs c List.mem_cons_self
    obtain ⟨-, -, -, -, -, hunderscore, -⟩ := of_isDigit hc
    rw [List.cons_append, digits, if_neg (by simpa using hunderscore), if_pos hc,
      ih fun c hc => hcs c (List.mem_cons_of_mem _ hc)]

theorem number_append (hcs : ∀ c ∈ cs, c.isDigit = true) (hr : Closes rest) :
    number (cs ++ rest) = (String.ofList cs, rest) := by
  have hfraction : fraction rest = ([], rest) := by
    cases rest with
    | nil => rfl
    | cons c r => rcases hr with rfl | rfl | rfl | rfl <;> rfl
  have hexponent : exponent rest = ([], rest) := by
    cases rest with
    | nil => rfl
    | cons c r => rcases hr with rfl | rfl | rfl | rfl <;> simp [exponent]
  have hhex (x : Char) (hx : x = 'x' ∨ x = 'X') (r : List Char) : cs ++ rest ≠ '0' :: x :: r := by
    intro he
    rcases cs with _ | ⟨c, _ | ⟨d, cs⟩⟩
    · rw [List.nil_append] at he
      rw [he] at hr
      rcases hr with h | h | h | h <;> cases h
    · obtain rfl := (List.cons.inj he).2
      rcases hx with rfl | rfl <;> rcases hr with h | h | h | h <;> cases h
    · obtain ⟨-, -, -, -, -, -, -, hlower, hupper⟩ := of_isDigit (hcs d (by simp))
      obtain rfl := (List.cons.inj (List.cons.inj he).2).1
      rcases hx with hx | hx
      · exact hlower hx
      · exact hupper hx
  rw [number]
  · simp [digits_append hcs hr, hfraction, hexponent]
  · exact hhex 'x' (.inl rfl)
  · exact hhex 'X' (.inr rfl)

theorem Lexes.number (hcs : ∀ c ∈ cs, c.isDigit = true) (hne : cs ≠ []) (hr : Closes rest)
    (h : Lexes rest ts) : Lexes (cs ++ rest) (.number (String.ofList cs) :: ts) := by
  have hread := number_append hcs hr
  cases cs with
  | nil => exact absurd rfl hne
  | cons c cs =>
    obtain ⟨⟨hblank, hcomment⟩, hword, hscalar, harray, hpoint, -⟩ :=
      of_isDigit (hcs c List.mem_cons_self)
    have hnumber : atNumber (c :: (cs ++ rest)) = true := by
      rw [atNumber]
      · exact hcs c List.mem_cons_self
      · exact fun _ _ he _ => hpoint he
    refine .token hblank hcomment ?_ (by simp) h
    rw [List.cons_append] at hread
    simp [Lexer.token, hword, hscalar, harray, hnumber, hread]

theorem Lexes.minus {n : Int} (h : Lexes (decimal n ++ rest) ts) :
    Lexes ('-' :: (decimal n ++ rest)) (.mark .minus :: ts) := by
  obtain ⟨d, ds, hds⟩ := List.exists_cons_of_ne_nil (decimal_ne_nil n)
  have hd : d.isDigit = true := isDigit_of_mem_decimal (hds ▸ List.mem_cons_self)
  refine .mark (by decide) ?_ le_rfl h
  rw [hds, List.cons_append, Mark.read?]
  rintro r ⟨⟩
  cases hd

theorem word_append (hcs : ∀ c ∈ cs, isWordPart c = true ∧ c ≠ ':') (hr : Closes rest) :
    word (cs ++ rest) = (cs, rest) := by
  induction cs with
  | nil =>
    cases rest with
    | nil => rfl
    | cons c r =>
      have hpart : isWordPart c = false ∧ c ≠ ':' := by rcases hr with rfl | rfl | rfl | rfl <;> decide
      rw [List.nil_append, word]
      · simp [hpart.1]
      · exact fun _ _ he _ => hpart.2 he
  | cons c cs ih =>
    obtain ⟨hpart, hcolon⟩ := hcs c List.mem_cons_self
    rw [List.cons_append, word]
    · simp [hpart, ih fun c hc => hcs c (List.mem_cons_of_mem _ hc)]
    · exact fun _ _ he _ => hcolon he

theorem Lexes.undef (hr : Closes rest) (h : Lexes rest ts) :
    Lexes ('u' :: 'n' :: 'd' :: 'e' :: 'f' :: rest) (.word "undef" :: ts) := by
  have hword : word (['u', 'n', 'd', 'e', 'f'] ++ rest) = (['u', 'n', 'd', 'e', 'f'], rest) := by
    refine word_append (fun c hc => ?_) hr
    simp only [List.mem_cons, List.not_mem_nil, or_false] at hc
    rcases hc with rfl | rfl | rfl | rfl | rfl <;> decide
  have hstart : isWordStart 'u' = true := by decide
  refine .token (by decide) (by decide) ?_ (by simp; omega) h
  simp only [List.cons_append, List.nil_append] at hword
  simp [Lexer.token, hstart, hword]

end Source.Lexer

/-! ### Documents -/

namespace Json

open Lexer

variable {n : Nat} {j : Json} {rest : List Char} {ts : List Token}

/-- The source text of a document lexes to its tokens, in front of what may follow it. -/
def Lexable (j : Json) : Prop :=
  ∀ {rest ts}, Closes rest → Lexes rest ts → Lexes (j.source ++ rest) (j.tokens ++ ts)

theorem lexes_items {items : List Json} (hitems : ∀ j ∈ items, j.Lexable) (hr : Closes rest)
    (h : Lexes rest ts) : Lexes (sourceItems items ++ rest) (tokensItems items ++ ts) := by
  induction items with
  | nil => exact h
  | cons j items ih =>
    have hrest := ih fun j hj => hitems j (List.mem_cons_of_mem _ hj)
    cases items with
    | nil => exact hitems j List.mem_cons_self hr h
    | cons k items =>
      simp only [sourceItems, tokensItems, List.append_assoc, List.cons_append] at hrest ⊢
      exact hitems j List.mem_cons_self closes_comma hrest.comma

theorem lexes_fields {fields : List (String × Json)} (hfields : ∀ f ∈ fields, f.2.Lexable)
    (h : Lexes ('\x7d' :: rest) ts) :
    Lexes (sourceFields fields ++ '\x7d' :: rest) (tokensFields fields ++ ts) := by
  induction fields with
  | nil => exact h
  | cons f fields ih =>
    obtain ⟨key, j⟩ := f
    have hrest := ih fun f hf => hfields f (List.mem_cons_of_mem _ hf)
    cases fields with
    | nil =>
      rw [sourceFields, tokensFields, List.append_assoc]
      exact (hfields (key, j) List.mem_cons_self closes_brace h).fatComma.literal key
    | cons g fields =>
      have hvalue := hfields (key, j) List.mem_cons_self closes_comma hrest.comma
      simp only [sourceFields, tokensFields, List.append_assoc, List.cons_append]
      exact hvalue.fatComma.literal key

theorem Plain.lexable (hj : j.Plain n) : j.Lexable := by
  induction hj with
  | null => exact fun hr h => .undef hr h
  | @int n i hi =>
    intro rest ts hr h
    have hnumber := h.number (fun c hc => isDigit_of_mem_decimal hc) (decimal_ne_nil i) hr
    rw [source, Json.tokens]
    split
    · exact hnumber.minus
    · exact hnumber
  | text => exact fun _ h => h.literal _
  | list hitems ih =>
    intro rest ts _ h
    have hall := lexes_items ih closes_bracket (.mark (m := .closeBracket) (by decide) rfl le_rfl h)
    simp only [source, Json.tokens, List.cons_append, List.append_assoc, List.nil_append]
    exact .mark (by decide) rfl le_rfl hall
  | object hkeys hfields ih =>
    intro rest ts _ h
    have hall := lexes_fields ih (.mark (m := .closeBrace) (by decide) rfl le_rfl h)
    simp only [source, Json.tokens, List.cons_append, List.append_assoc, List.nil_append]
    exact .mark (by decide) rfl le_rfl hall

/-- The source text of a plain document lexes to its tokens. -/
theorem Plain.tokens_source (hj : j.Plain n) :
    Source.tokens (String.ofList j.source) = .ok j.tokens := by
  have hlexes : Lexes (j.source ++ []) (j.tokens ++ []) := hj.lexable trivial .nil
  simp only [List.append_nil] at hlexes
  rw [Source.tokens, String.toList_ofList]
  exact hlexes _ (by rw [String.length_ofList])

end Json

end ValueMachine

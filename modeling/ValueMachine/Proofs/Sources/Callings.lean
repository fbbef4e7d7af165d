import ValueMachine.Proofs.Documents.Parsing
import ValueMachine.Proofs.Sources.Scanning
import ValueMachine.Source.Eval

/-! Source texts that are calls: the name of a sub, or the name of a class with an arrow and the name
of a method, and plain documents in parentheses. Unless the evaluator has a meaning of its own for the
name, such a text is one statement, which is the call. -/

namespace ValueMachine

open Source.Lexer Source.Parser Json

namespace Source

variable {cs rest : List Char} {c : Char} {ts : List Token} {name className : String}
  {args : List Json} {fuel n : Nat}

/-! ### Words -/

/-- A text that is one word. -/
def IsWord (name : String) : Prop :=
  name.toList.head?.any isWordStart = true ∧ word name.toList = (name.toList, [])

instance (name : String) : Decidable (IsWord name) :=
  inferInstanceAs (Decidable (_ ∧ _))

/-- The words that mean something else than the call of a sub. -/
def ownWords : List String := ["undef", "die", "bless", "ref", "defined", "require", "my", "qw"]

/-- A word ends here. -/
def Breaks : List Char → Prop
  | [] => True
  | c :: _ => isWordPart c = false ∧ c ≠ ':'

theorem breaks_paren : Breaks ('(' :: cs) := ⟨by decide, by decide⟩

theorem breaks_arrow : Breaks ('-' :: cs) := ⟨by decide, by decide⟩

theorem word_of_breaks (hr : Breaks rest) : word rest = ([], rest) := by
  cases rest with
  | nil => rfl
  | cons c r =>
    rw [word]
    · simp [hr.1]
    · exact fun _ _ he _ => hr.2 he

theorem word_append_of_breaks (hw : word cs = (cs, [])) (hr : Breaks rest) :
    word (cs ++ rest) = (cs, rest) := by
  fun_induction word cs with
  | case1 c r hstart w after hword ih =>
    obtain ⟨rfl, rfl⟩ : w = r ∧ after = [] := by simpa using hw
    simp only [List.cons_append, word, hstart, if_true, ih hword]
  | case2 => cases hw
  | case3 c r hno hpart w after hword ih =>
    obtain ⟨rfl, rfl⟩ : w = r ∧ after = [] := by simpa using hw
    rw [List.cons_append, word, if_pos hpart, ih hword]
    intro d s he _
    rw [he] at hpart
    revert hpart
    decide
  | case4 => cases hw
  | case5 => exact word_of_breaks hr

/-- The blank characters. -/
def blanks : List Nat :=
  [0x20, 9, 10, 11, 12, 13, 0x85, 0xa0, 0x1680, 0x2000, 0x2001, 0x2002, 0x2003, 0x2004, 0x2005,
    0x2006, 0x2007, 0x2008, 0x2009, 0x200a, 0x2028, 0x2029, 0x202f, 0x205f, 0x3000]

theorem mem_blanks (hc : Text.isBlank c = true) : c.toNat ∈ blanks := by
  have hranges : Text.inRanges Text.blankRanges c = true → c.toNat ∈ blanks := by
    simp only [Text.inRanges, Text.blankRanges, List.any_cons, List.any_nil, Bool.or_false,
      Bool.or_eq_true, Bool.and_eq_true, decide_eq_true_eq, blanks, List.mem_cons,
      List.not_mem_nil, or_false]
    omega
  unfold Text.isBlank at hc
  split at hc
  · simp only [Bool.or_eq_true, Bool.and_eq_true, beq_iff_eq, decide_eq_true_eq] at hc
    simp only [blanks, List.mem_cons, List.not_mem_nil, or_false]
    omega
  · exact hranges hc

theorem not_isWordStart_of_mem_blanks :
    blanks.all (fun n => !isWordStart (Char.ofNat n)) = true := by
  decide +kernel

/-- What begins a word is passed over neither as a blank nor as a comment. -/
theorem isBlank_of_isWordStart (hc : isWordStart c = true) : Text.isBlank c = false ∧ c ≠ '#' := by
  constructor
  · by_contra hblank
    have hmem := mem_blanks (Bool.not_eq_false _ ▸ hblank : Text.isBlank c = true)
    have hno := List.all_eq_true.1 not_isWordStart_of_mem_blanks _ hmem
    rw [Char.ofNat_toNat, hc] at hno
    cases hno
  · rintro rfl
    revert hc
    decide

theorem Lexer.Lexes.word (hw : IsWord name) (hq : name ≠ "qw") (hr : Breaks rest) (h : Lexes rest ts) :
    Lexes (name.toList ++ rest) (.word name :: ts) := by
  obtain ⟨hstart, hword⟩ := hw
  have hread := word_append_of_breaks hword hr
  have hne : name.toList ≠ ['q', 'w'] := fun he => hq (String.toList_injective he)
  have hname : String.ofList name.toList = name := String.ofList_toList
  generalize name.toList = cs at *
  cases cs with
  | nil => cases hstart
  | cons c cs =>
    have hc : isWordStart c = true := by simpa using hstart
    obtain ⟨hblank, hcomment⟩ := isBlank_of_isWordStart hc
    refine .token hblank hcomment ?_ (by simp) h
    have htoken : Lexer.token (c :: cs ++ rest) = .ok (.word name, rest) := by
      rw [List.cons_append] at hread ⊢
      simp only [Lexer.token, hc, if_true, hread, beq_iff_eq, hne, if_false, hname]
    exact htoken

/-! ### The tokens of a call -/

/-- Documents in parentheses. -/
def argumentText (args : List Json) : List Char := '(' :: (sourceItems args ++ [')'])

def argumentTokens (args : List Json) : List Token :=
  .mark .openParen :: (tokensItems args ++ [.mark .closeParen])

/-- The call of a sub by name. -/
def callText (name : String) (args : List Json) : String :=
  String.ofList (name.toList ++ argumentText args)

/-- The call of a method of a class. -/
def methodText (className name : String) (args : List Json) : String :=
  String.ofList (className.toList ++ '-' :: '>' :: (name.toList ++ argumentText args))

theorem of_plain_list (hargs : (Json.list args).Plain n) : ∃ n, ∀ j ∈ args, j.Plain n := by
  cases hargs with
  | list hitems => exact ⟨_, hitems⟩

theorem lexes_arguments (hargs : (Json.list args).Plain n) :
    Lexes (argumentText args) (argumentTokens args) := by
  obtain ⟨k, hitems⟩ := of_plain_list hargs
  have hclose : Lexes [')'] [.mark .closeParen] := .mark (by decide) rfl le_rfl .nil
  exact .mark (by decide) rfl le_rfl
    (lexes_items (fun j hj => (hitems j hj).lexable) closes_paren hclose)

theorem tokens_callText (hw : IsWord name) (hq : name ≠ "qw") (hargs : (Json.list args).Plain n) :
    tokens (callText name args) = .ok (.word name :: argumentTokens args) := by
  have hlexes : Lexes (name.toList ++ argumentText args) _ :=
    .word hw hq breaks_paren (lexes_arguments hargs)
  rw [tokens, callText, String.toList_ofList]
  exact hlexes _ (by rw [String.length_ofList])

theorem tokens_methodText (hc : IsWord className) (hcq : className ≠ "qw") (hw : IsWord name)
    (hq : name ≠ "qw") (hargs : (Json.list args).Plain n) :
    tokens (methodText className name args)
      = .ok (.word className :: .mark .arrow :: .word name :: argumentTokens args) := by
  have hname : Lexes (name.toList ++ argumentText args) _ :=
    .word hw hq breaks_paren (lexes_arguments hargs)
  have harrow : Lexes ('-' :: '>' :: (name.toList ++ argumentText args))
      (.mark .arrow :: .word name :: argumentTokens args) :=
    .mark (by decide) rfl (by simp) hname
  have hlexes := Lexes.word hc hcq breaks_arrow harrow
  rw [tokens, methodText, String.toList_ofList]
  exact hlexes _ (by rw [String.length_ofList])

/-! ### The expression of a call -/

theorem items_arguments (hargs : (Json.list args).Plain n)
    (hf : 3 * ((tokensItems args).length + 1) ≤ fuel) :
    items fuel (.closing .closeParen) (tokensItems args ++ [.mark .closeParen])
      = (exprItems args, []) := by
  obtain ⟨k, hitems⟩ := of_plain_list hargs
  exact items_tokensItems (.inr rfl) (fun j hj => (hitems j hj).readable) hf

theorem semicolon_notMem_arguments (hargs : (Json.list args).Plain n) :
    Token.mark .semicolon ∉ argumentTokens args := by
  have hlist := hargs.semicolon_notMem
  simp only [Json.tokens, argumentTokens, List.mem_cons, List.mem_append, not_or] at hlist ⊢
  simp [hlist.2.1]

/-- A word as an item: what it means before the tokens that follow it, and the arrows after that. -/
theorem item_word {ts rest : List Token} {e : Expr} {out : Expr × List Token} (hmy : name ≠ "my")
    (hterm : wordTerm fuel name ts = (e, rest)) (harrows : arrows (fuel + 1) e rest = out) :
    item (fuel + 2) (.word name :: ts) = out := by
  have hskip : skipMy (.word name :: ts) = .word name :: ts := by simp [skipMy, hmy]
  rw [item, hskip]
  simp only [term, hterm, harrows]

theorem length_argumentTokens (args : List Json) :
    (argumentTokens args).length = (tokensItems args).length + 2 := by
  simp [argumentTokens]

/-- A word that the evaluator has no meaning of its own for is the name of a sub. -/
theorem item_call (hname : name ∉ ownWords) (hargs : (Json.list args).Plain n)
    (hf : 3 * (argumentTokens args).length ≤ fuel) :
    item fuel (.word name :: argumentTokens args) = (.call name (exprItems args), []) := by
  rw [length_argumentTokens] at hf
  obtain ⟨fuel, rfl⟩ : ∃ k, fuel = k + 3 := ⟨fuel - 3, by omega⟩
  have hall : items fuel _ _ = _ := items_arguments hargs (by omega)
  simp only [ownWords, List.mem_cons, List.not_mem_nil, or_false, not_or] at hname
  have hterm : wordTerm (fuel + 1) name (argumentTokens args) = (.call name (exprItems args), []) := by
    simp [wordTerm, argumentTokens, hname, hall]
  exact item_word hname.2.2.2.2.2.2.1 hterm (arrows_ends trivial)

/-- A word before an arrow is the name of a class. -/
theorem item_method (hmy : className ≠ "my") (hargs : (Json.list args).Plain n)
    (hf : 3 * (argumentTokens args).length ≤ fuel) :
    item fuel (.word className :: .mark .arrow :: .word name :: argumentTokens args)
      = (.method (.string className) name (exprItems args), []) := by
  rw [length_argumentTokens] at hf
  obtain ⟨fuel, rfl⟩ : ∃ k, fuel = k + 4 := ⟨fuel - 4, by omega⟩
  have hall : items (fuel + 2) _ _ = _ := items_arguments hargs (by omega)
  have hterm : wordTerm (fuel + 2) className (.mark .arrow :: .word name :: argumentTokens args)
      = (.string className, .mark .arrow :: .word name :: argumentTokens args) := rfl
  refine item_word hmy hterm ?_
  rw [argumentTokens, arrows]
  simp only [hall]
  exact arrows_ends trivial

theorem statement_of_item {ts : List Token} {e : Expr}
    (hitem : item (5 * ts.length + 5) ts = (e, [])) : statement ts = ⟨e, .done⟩ := by
  simp only [statement, hitem, finish]

theorem statements_of_item {ts : List Token} {e : Expr} (hne : ts ≠ [])
    (hts : Token.mark .semicolon ∉ ts) (hitem : item (5 * ts.length + 5) ts = (e, [])) :
    statements ts = [⟨e, .done⟩] := by
  rw [statements, split_eq hts, List.filter_cons_of_pos (by simp [hne])]
  simp [statement_of_item hitem]

/-- A source text is one statement, of one expression. -/
def Reads (text : String) (e : Expr) : Prop :=
  ∃ ts, tokens text = .ok ts ∧ statements ts = [⟨e, .done⟩]

theorem eval_statement (e : Expr) (r : Reentry) (want : Want) :
    (Statement.mk e .done).eval r want = e.eval r want := by
  show (e.eval r want >>= fun values => pure (values ++ [])) = _
  simp only [List.append_nil, bind_pure]

/-- The values of such a text are those of the expression. -/
theorem Reads.values_eq {text : String} {e : Expr} (h : Reads text e) (r : Reentry) (want : Want) :
    values r text want = e.eval r want := by
  obtain ⟨ts, htokens, hstatements⟩ := h
  rw [values, htokens]
  show evalStatements r want (statements ts) = _
  rw [hstatements, evalStatements, eval_statement]

/-- The name of a sub and documents in parentheses are a call of the sub. -/
theorem reads_callText (hw : IsWord name) (hname : name ∉ ownWords)
    (hargs : (Json.list args).Plain n) :
    Reads (callText name args) (.call name (exprItems args)) := by
  have hq : name ≠ "qw" := by
    rintro rfl
    exact hname (by decide)
  refine ⟨_, tokens_callText hw hq hargs, statements_of_item (by simp) ?_ ?_⟩
  · simp [semicolon_notMem_arguments hargs]
  · exact item_call hname hargs (by rw [List.length_cons]; omega)

/-- The name of a class, an arrow, the name of a method and documents in parentheses are a call of
the method. -/
theorem reads_methodText (hc : IsWord className) (hcq : className ≠ "qw") (hmy : className ≠ "my")
    (hw : IsWord name) (hq : name ≠ "qw") (hargs : (Json.list args).Plain n) :
    Reads (methodText className name args)
      (.method (.string className) name (exprItems args)) := by
  refine ⟨_, tokens_methodText hc hcq hw hq hargs, statements_of_item (by simp) ?_ ?_⟩
  · simp [semicolon_notMem_arguments hargs]
  · exact item_method hmy hargs (by simp only [List.length_cons]; omega)

end Source

end ValueMachine

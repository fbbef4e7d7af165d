import Mathlib.Tactic
import ValueMachine.Source.Expr

/-! The reading of expressions from tokens. Every part of the reader leaves an end of the tokens that
it was given, and five nested steps for a token are always enough, so that the reading of a
statement comes to an end whatever its tokens are. -/

namespace ValueMachine.Source.Parser

variable {fuel fuel' : Nat} {ts rest : List Token} {e : Expr}

/-! ### What is left -/

theorem skipMy_suffix (ts : List Token) : skipMy ts <:+ ts := by
  unfold skipMy
  split
  · exact List.suffix_cons _ _
  · exact List.suffix_refl _

theorem finish_suffix (stop : Stop) (ts : List Token) : (finish stop ts).2 <:+ ts := by
  unfold finish
  split
  · split
    · exact List.suffix_cons _ _
    · exact List.nil_suffix
  · exact List.nil_suffix
  · exact List.suffix_refl _
  · exact List.suffix_refl _
  · exact List.nil_suffix

/-- With so many steps, every part of the reader leaves an end of its tokens. -/
structure Leaves (fuel : Nat) : Prop where
  item : ∀ ts, (Parser.item fuel ts).2 <:+ ts
  arrows : ∀ base ts, (Parser.arrows fuel base ts).2 <:+ ts
  items : ∀ stop ts, (Parser.items fuel stop ts).2 <:+ ts
  arguments : ∀ ts, (Parser.arguments fuel ts).2 <:+ ts
  wordTerm : ∀ name ts, (Parser.wordTerm fuel name ts).2 <:+ ts
  term : ∀ ts, (Parser.term fuel ts).2 <:+ ts

namespace Leaves

theorem zero : Leaves 0 where
  item _ := List.nil_suffix
  arrows _ _ := List.nil_suffix
  items _ _ := List.nil_suffix
  arguments _ := List.nil_suffix
  wordTerm _ _ := List.nil_suffix
  term _ := List.nil_suffix

variable (ih : Leaves fuel)

include ih

theorem item_succ (ts : List Token) : (Parser.item (fuel + 1) ts).2 <:+ ts := by
  have hskip := skipMy_suffix ts
  rw [Parser.item]
  split
  next name rest heq =>
    rw [heq] at hskip
    exact (ih.item rest).trans (((List.suffix_cons _ _).trans (List.suffix_cons _ _)).trans hskip)
  next => exact (ih.arrows _ _).trans ((ih.term _).trans hskip)

theorem arrows_succ (base : Expr) (ts : List Token) :
    (Parser.arrows (fuel + 1) base ts).2 <:+ ts := by
  unfold Parser.arrows
  simp only []
  split
  next rest =>
    exact (ih.arrows _ _).trans ((ih.items _ _).trans ⟨[_, _], rfl⟩)
  next key rest => exact (ih.arrows _ _).trans ⟨[_, _, _, _], rfl⟩
  next rest _ => exact (ih.arrows _ _).trans ((ih.items _ _).trans ⟨[_, _], rfl⟩)
  next name rest => exact (ih.arrows _ _).trans ((ih.items _ _).trans ⟨[_, _, _], rfl⟩)
  next name rest _ => exact (ih.arrows _ _).trans ⟨[_, _], rfl⟩
  next => exact List.nil_suffix
  next => exact List.suffix_refl _

theorem items_succ (stop : Stop) (ts : List Token) :
    (Parser.items (fuel + 1) stop ts).2 <:+ ts := by
  have hitem := ih.item ts
  rw [Parser.items]
  split
  · exact finish_suffix stop ts
  · split
    next e rest heq =>
      rw [heq] at hitem
      split
      · exact (ih.items _ _).trans ((List.suffix_cons _ _).trans hitem)
      · exact (ih.items _ _).trans ((List.suffix_cons _ _).trans hitem)
      · exact (finish_suffix _ _).trans hitem

theorem arguments_succ (ts : List Token) : (Parser.arguments (fuel + 1) ts).2 <:+ ts := by
  unfold Parser.arguments
  split
  · exact (ih.items _ _).trans (List.suffix_cons _ _)
  · exact ih.items _ _

theorem wordTerm_succ (name : String) (ts : List Token) :
    (Parser.wordTerm (fuel + 1) name ts).2 <:+ ts := by
  unfold Parser.wordTerm
  simp only []
  split
  · exact List.suffix_refl _
  · exact List.suffix_refl _
  · split
    next =>
      split
      · exact ⟨[_, _], rfl⟩
      · exact List.nil_suffix
      · exact List.suffix_refl _
    next => exact ih.arguments _
    next => exact ih.arguments _
    next => exact ih.arguments _
    next => exact ih.arguments _
    next =>
      split
      · exact List.suffix_cons _ _
      · exact List.suffix_cons _ _
      · exact List.nil_suffix
    next =>
      split
      · exact (ih.items _ _).trans (List.suffix_cons _ _)
      · exact List.suffix_refl _

theorem term_succ (ts : List Token) : (Parser.term (fuel + 1) ts).2 <:+ ts := by
  unfold Parser.term
  simp only []
  split
  case h_1 | h_4 | h_15 => exact List.nil_suffix
  case h_3 | h_7 => exact ⟨[_, _], rfl⟩
  case h_8 => exact (ih.term _).trans (List.suffix_cons _ _)
  case h_9 | h_10 | h_11 => exact (ih.items _ _).trans (List.suffix_cons _ _)
  case h_14 => exact (ih.wordTerm _ _).trans (List.suffix_cons _ _)
  all_goals exact List.suffix_cons _ _

end Leaves

theorem leaves (fuel : Nat) : Leaves fuel := by
  induction fuel with
  | zero => exact .zero
  | succ fuel ih =>
    exact ⟨ih.item_succ, ih.arrows_succ, ih.items_succ, ih.arguments_succ, ih.wordTerm_succ,
      ih.term_succ⟩

/-! ### How many steps are enough -/

/-- Two numbers of steps give the same where both are enough. -/
structure Agrees (fuel fuel' : Nat) : Prop where
  item : ∀ ts, 5 * ts.length + 2 ≤ min fuel fuel' → Parser.item fuel ts = Parser.item fuel' ts
  arrows : ∀ base ts, 5 * ts.length + 1 ≤ min fuel fuel' →
    Parser.arrows fuel base ts = Parser.arrows fuel' base ts
  items : ∀ stop ts, 5 * ts.length + 3 ≤ min fuel fuel' →
    Parser.items fuel stop ts = Parser.items fuel' stop ts
  arguments : ∀ ts, 5 * ts.length + 4 ≤ min fuel fuel' →
    Parser.arguments fuel ts = Parser.arguments fuel' ts
  wordTerm : ∀ name ts, 5 * ts.length + 5 ≤ min fuel fuel' →
    Parser.wordTerm fuel name ts = Parser.wordTerm fuel' name ts
  term : ∀ ts, 5 * ts.length + 1 ≤ min fuel fuel' → Parser.term fuel ts = Parser.term fuel' ts

namespace Agrees

variable (ih : Agrees fuel fuel')

include ih

theorem item_succ (ts : List Token) (hle : 5 * ts.length + 2 ≤ min fuel fuel' + 1) :
    Parser.item (fuel + 1) ts = Parser.item (fuel' + 1) ts := by
  have hskip := (skipMy_suffix ts).length_le
  rw [Parser.item, Parser.item]
  split
  next name rest heq =>
    rw [heq, List.length_cons, List.length_cons] at hskip
    rw [ih.item rest (by omega)]
  next =>
    rw [ih.term _ (by omega)]
    have hterm := ((leaves fuel').term (skipMy ts)).length_le
    exact ih.arrows _ _ (by omega)

theorem arrows_succ (base : Expr) (ts : List Token)
    (hle : 5 * ts.length + 1 ≤ min fuel fuel' + 1) :
    Parser.arrows (fuel + 1) base ts = Parser.arrows (fuel' + 1) base ts := by
  have hitems (stop : Stop) (rest : List Token) := ((leaves fuel').items stop rest).length_le
  unfold Parser.arrows
  simp only []
  split
  next rest =>
    simp only [List.length_cons] at hle
    rw [ih.items _ rest (by omega)]
    exact ih.arrows _ _ (by have := hitems (.closing .closeBracket) rest; omega)
  next key rest =>
    simp only [List.length_cons] at hle
    exact ih.arrows _ rest (by omega)
  next rest _ =>
    simp only [List.length_cons] at hle
    rw [ih.items _ rest (by omega)]
    exact ih.arrows _ _ (by have := hitems (.closing .closeBrace) rest; omega)
  next name rest =>
    simp only [List.length_cons] at hle
    rw [ih.items _ rest (by omega)]
    exact ih.arrows _ _ (by have := hitems (.closing .closeParen) rest; omega)
  next name rest _ =>
    simp only [List.length_cons] at hle
    exact ih.arrows _ rest (by omega)
  next => rfl
  next => rfl

theorem items_succ (stop : Stop) (ts : List Token) (hle : 5 * ts.length + 3 ≤ min fuel fuel' + 1) :
    Parser.items (fuel + 1) stop ts = Parser.items (fuel' + 1) stop ts := by
  have hitem := ((leaves fuel').item ts).length_le
  rw [Parser.items, Parser.items, ih.item ts (by omega)]
  split
  · rfl
  · split
    next e rest heq =>
      rw [heq] at hitem
      split
      next rest =>
        simp only [List.length_cons] at hitem
        rw [ih.items stop rest (by omega)]
      next rest =>
        simp only [List.length_cons] at hitem
        rw [ih.items stop rest (by omega)]
      next => rfl

theorem arguments_succ (ts : List Token) (hle : 5 * ts.length + 4 ≤ min fuel fuel' + 1) :
    Parser.arguments (fuel + 1) ts = Parser.arguments (fuel' + 1) ts := by
  unfold Parser.arguments
  split
  next rest =>
    simp only [List.length_cons] at hle
    exact ih.items _ rest (by omega)
  next => exact ih.items _ ts (by omega)

theorem wordTerm_succ (name : String) (ts : List Token)
    (hle : 5 * ts.length + 5 ≤ min fuel fuel' + 1) :
    Parser.wordTerm (fuel + 1) name ts = Parser.wordTerm (fuel' + 1) name ts := by
  have harguments := ih.arguments ts (by omega)
  unfold Parser.wordTerm
  simp only []
  split
  next => rfl
  next => rfl
  next =>
    split
    case h_1 | h_6 => rfl
    case h_7 =>
      split
      next rest _ _ =>
        simp only [List.length_cons] at hle
        rw [ih.items _ rest (by omega)]
      next => rfl
    all_goals rw [harguments]

theorem term_succ (ts : List Token) (hle : 5 * ts.length + 1 ≤ min fuel fuel' + 1) :
    Parser.term (fuel + 1) ts = Parser.term (fuel' + 1) ts := by
  unfold Parser.term
  simp only []
  split
  case h_8 rest _ =>
    simp only [List.length_cons] at hle
    rw [ih.term rest (by omega)]
  case h_9 rest | h_10 rest | h_11 rest =>
    simp only [List.length_cons] at hle
    rw [ih.items _ rest (by omega)]
  case h_14 name rest =>
    simp only [List.length_cons] at hle
    exact ih.wordTerm name rest (by omega)
  all_goals rfl

end Agrees

theorem agrees (fuel fuel' : Nat) : Agrees fuel fuel' := by
  induction fuel generalizing fuel' with
  | zero => constructor <;> intros <;> omega
  | succ fuel ih =>
    cases fuel' with
    | zero => constructor <;> intros <;> omega
    | succ fuel' =>
      have hfuel := ih fuel'
      constructor <;> intros
      · exact hfuel.item_succ _ (by omega)
      · exact hfuel.arrows_succ _ _ (by omega)
      · exact hfuel.items_succ _ _ (by omega)
      · exact hfuel.arguments_succ _ (by omega)
      · exact hfuel.wordTerm_succ _ _ (by omega)
      · exact hfuel.term_succ _ (by omega)

/-- A statement of which each part is read with so many steps. -/
def statementWithin (fuel : Nat) (ts : List Token) : Statement :=
  let (head, rest) := item fuel ts
  match rest with
  | .mark .comma :: rest | .mark .fatComma :: rest => ⟨head, (items fuel .ending rest).1⟩
  | rest => ⟨head, (finish .ending rest).1⟩

/-- More steps change nothing: the reading of the statement has come to its end before. -/
theorem statementWithin_eq (hfuel : 5 * ts.length + 5 ≤ fuel) :
    statementWithin fuel ts = statement ts := by
  have hagrees := agrees fuel (5 * ts.length + 5)
  have hleft := ((leaves (5 * ts.length + 5)).item ts).length_le
  rw [statementWithin, statement, hagrees.item ts (by omega)]
  generalize item (5 * ts.length + 5) ts = p at hleft
  obtain ⟨head, rest⟩ := p
  dsimp only at hleft ⊢
  split
  next =>
    rw [List.length_cons] at hleft
    rw [hagrees.items _ _ (by omega)]
  next =>
    rw [List.length_cons] at hleft
    rw [hagrees.items _ _ (by omega)]
  next => simp only

end ValueMachine.Source.Parser

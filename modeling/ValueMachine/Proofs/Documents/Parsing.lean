import ValueMachine.Proofs.Documents.Rendering

/-! The tokens of a document as one expression. A token takes three nested steps at most: a list
opens an item, an item its term, and a term its list or its word. -/

namespace ValueMachine

open Source

namespace Json

mutual

/-- A document as an expression. -/
def expr : Json → Expr
  | .null | .bool _ | .float _ => .undefined
  | .int n => .number (.whole (Wide.ofInt n))
  | .text s => .string s
  | .list items => .newArray (exprItems items)
  | .object fields => .newHash (exprFields fields)

def exprItems : List Json → Items
  | [] => .done
  | j :: rest => .cons j.expr (exprItems rest)

def exprFields : List (String × Json) → Items
  | [] => .done
  | (key, j) :: rest => .cons (.string key) (.cons j.expr (exprFields rest))

end

end Json

namespace Source.Parser

variable {fuel : Nat} {ts rest out : List Token} {e : Expr} {es : Items} {m : Mark} {stop : Stop}

/-- Tokens that begin with one that opens a document. -/
def Opens : List Token → Prop
  | .word name :: _ => name = "undef"
  | .number _ :: _ | .string _ :: _ => True
  | .mark m :: _ => m = .minus ∨ m = .openBracket ∨ m = .openBrace
  | _ => False

/-- Tokens that close a container or go on with it, or none. -/
def Ends : List Token → Prop
  | [] => True
  | .mark m :: _ => m = .comma ∨ m = .closeBracket ∨ m = .closeBrace ∨ m = .closeParen
  | _ => False

theorem Opens.atClose (h : Opens ts) : atClose ts = false := by
  rcases ts with _ | ⟨t, ts⟩
  · cases h
  · cases t with
    | mark m => rcases h with rfl | rfl | rfl <;> rfl
    | _ => rfl

theorem arrows_mark (hm : m ≠ .arrow) :
    arrows (fuel + 1) e (.mark m :: rest) = (e, .mark m :: rest) := by
  cases m <;> first | rfl | exact absurd rfl hm

theorem arrows_ends (h : Ends rest) : arrows (fuel + 1) e rest = (e, rest) := by
  rcases rest with _ | ⟨t, rest⟩
  · rfl
  · cases t with
    | mark m => exact arrows_mark (by rcases h with rfl | rfl | rfl | rfl <;> decide)
    | _ => cases h

/-- A term without arrows is an item. -/
theorem item_term (h : Opens ts) (hterm : term fuel ts = (e, rest))
    (harrows : arrows fuel e rest = (e, rest)) : item (fuel + 1) ts = (e, rest) := by
  have hskip : skipMy ts = ts := by
    rcases ts with _ | ⟨t, ts⟩
    · rfl
    · cases t with
      | word name => obtain rfl : name = "undef" := h; rfl
      | _ => rfl
  rw [item, hskip]
  split
  · cases h
  · rw [hterm]
    exact harrows

/-- An item and the others after a comma. -/
theorem items_cons (h : Opens ts) (hitem : item fuel ts = (e, .mark m :: rest))
    (hm : m = .comma ∨ m = .fatComma) (hrest : items fuel stop rest = (es, out)) :
    items (fuel + 1) stop ts = (.cons e es, out) := by
  rw [items, if_neg (by simp [h.atClose]), hitem]
  rcases hm with rfl | rfl <;> simp [hrest]

/-- The last item of a list. -/
theorem items_last (h : Opens ts) (hitem : item fuel ts = (e, .mark m :: rest))
    (hm : m = .closeBracket ∨ m = .closeBrace ∨ m = .closeParen) :
    items (fuel + 1) (.closing m) ts = (.cons e .done, rest) := by
  rw [items, if_neg (by simp [h.atClose]), hitem]
  rcases hm with rfl | rfl | rfl <;> simp [finish]

theorem split_eq (hts : Token.mark .semicolon ∉ ts) (depth : Nat) : split depth ts = [ts] := by
  induction ts generalizing depth with
  | nil => rfl
  | cons t ts ih =>
    rw [List.mem_cons, not_or] at hts
    rw [split, if_neg (by simp [Ne.symm hts.1]), ih hts.2]

end Source.Parser

namespace Json

open Parser

variable {n fuel : Nat} {j : Json} {rest : List Token}

theorem opens_tokens (j : Json) (rest : List Token) : Opens (j.tokens ++ rest) := by
  cases j with
  | int n => rw [tokens]; split; exacts [.inl rfl, trivial]
  | list items => exact .inr (.inl rfl)
  | object fields => exact .inr (.inr rfl)
  | text s => exact trivial
  | _ => exact rfl

/-- The tokens of a document are a term, in front of what may follow it. -/
def Readable (j : Json) : Prop :=
  ∀ ⦃fuel rest⦄, Ends rest → 3 * j.tokens.length ≤ fuel →
    term fuel (j.tokens ++ rest) = (j.expr, rest)

theorem Readable.item (hj : j.Readable) (hr : Ends rest) (hf : 3 * j.tokens.length + 1 ≤ fuel) :
    item fuel (j.tokens ++ rest) = (j.expr, rest) := by
  obtain ⟨fuel, rfl⟩ : ∃ k, fuel = k + 2 := by
    have hne : j.tokens ≠ [] := fun he => by
      have := j.opens_tokens []
      rw [he] at this
      cases this
    have := List.length_pos_iff.2 hne
    exact ⟨fuel - 2, by omega⟩
  exact item_term (j.opens_tokens rest) (hj hr (by omega)) (arrows_ends hr)

theorem item_key (key : String) (rest : List Token) :
    item (fuel + 2) (.string key :: .mark .fatComma :: rest)
      = (.string key, .mark .fatComma :: rest) := by
  have hterm : term (fuel + 1) (.string key :: .mark .fatComma :: rest)
      = (.string key, .mark .fatComma :: rest) := rfl
  exact item_term trivial hterm (arrows_mark (by decide))

theorem items_tokensItems {m : Mark} (hm : m = .closeBracket ∨ m = .closeParen) {items : List Json}
    (hitems : ∀ j ∈ items, j.Readable) (hf : 3 * ((tokensItems items).length + 1) ≤ fuel) :
    Parser.items fuel (.closing m) (tokensItems items ++ .mark m :: rest)
      = (exprItems items, rest) := by
  induction items generalizing fuel with
  | nil =>
    obtain ⟨fuel, rfl⟩ : ∃ k, fuel = k + 1 := ⟨fuel - 1, by omega⟩
    rcases hm with rfl | rfl <;> rfl
  | cons j items ih =>
    obtain ⟨fuel, rfl⟩ : ∃ k, fuel = k + 1 := ⟨fuel - 1, by omega⟩
    have hj := hitems j List.mem_cons_self
    cases items with
    | nil =>
      rw [tokensItems] at hf ⊢
      have hends : Ends (.mark m :: rest) := .inr (hm.imp id .inr)
      exact items_last (j.opens_tokens _) (hj.item hends (by omega)) (hm.imp id .inr)
    | cons k items =>
      simp only [tokensItems, List.append_assoc, List.cons_append, List.length_append,
        List.length_cons] at hf ⊢
      exact items_cons (j.opens_tokens _) (hj.item (.inl rfl) (by omega)) (.inl rfl)
        (ih (fun j hj => hitems j (List.mem_cons_of_mem _ hj)) (by omega))

theorem items_tokensFields {fields : List (String × Json)} (hfields : ∀ f ∈ fields, f.2.Readable)
    (hf : 3 * ((tokensFields fields).length + 1) ≤ fuel) :
    Parser.items fuel (.closing .closeBrace) (tokensFields fields ++ .mark .closeBrace :: rest)
      = (exprFields fields, rest) := by
  induction fields generalizing fuel with
  | nil =>
    obtain ⟨fuel, rfl⟩ : ∃ k, fuel = k + 1 := ⟨fuel - 1, by omega⟩
    rfl
  | cons f fields ih =>
    obtain ⟨key, j⟩ := f
    obtain ⟨fuel, rfl⟩ : ∃ k, fuel = k + 4 := ⟨fuel - 4, by
      rcases fields with _ | ⟨g, fields⟩ <;> simp [tokensFields] at hf <;> omega⟩
    have hj : j.Readable := hfields (key, j) List.mem_cons_self
    cases fields with
    | nil =>
      simp only [tokensFields, List.cons_append, List.length_cons] at hf ⊢
      exact items_cons trivial (item_key key _) (.inr rfl)
        (items_last (j.opens_tokens _) (hj.item (.inr (.inr (.inl rfl))) (by omega))
          (.inr (.inl rfl)))
    | cons g fields =>
      simp only [tokensFields, List.append_assoc, List.cons_append, List.length_append,
        List.length_cons] at hf ⊢
      exact items_cons trivial (item_key key _) (.inr rfl)
        (items_cons (j.opens_tokens _) (hj.item (.inl rfl) (by omega)) (.inl rfl)
          (ih (fun f hf => hfields f (List.mem_cons_of_mem _ hf)) (by omega)))

theorem term_undef (hr : Ends rest) :
    term (fuel + 2) (.word "undef" :: rest) = (.undefined, rest) := by
  rw [term, wordTerm.eq_def]
  rcases rest with _ | ⟨t, rest⟩
  · rfl
  · cases t with
    | mark m => rcases hr with rfl | rfl | rfl | rfl <;> rfl
    | _ => cases hr

theorem numberLiteral_decimal {i : Int} (hi : Wide.Holds i) :
    numberLiteral (decide (i < 0)) (String.ofList (decimal i))
      = .number (.whole (Wide.ofInt i)) := by
  have hread := Number.ofBytes?_decimal hi
  rw [numberLiteral]
  simp only [decide_eq_true_eq]
  rw [hread]

theorem Plain.readable (hj : j.Plain n) : j.Readable := by
  induction hj with
  | null =>
    intro fuel rest hr hf
    obtain ⟨fuel, rfl⟩ := Nat.exists_eq_add_of_le hf
    rw [Nat.add_comm]
    exact term_undef hr
  | @int n i hi =>
    intro fuel rest hr hf
    have hnumber := numberLiteral_decimal hi
    by_cases hneg : i < 0
    · simp only [Json.tokens, if_pos hneg] at hf ⊢
      obtain ⟨fuel, rfl⟩ := Nat.exists_eq_add_of_le' hf
      simp only [hneg, decide_true] at hnumber
      rw [expr, ← hnumber]
      rfl
    · simp only [Json.tokens, if_neg hneg] at hf ⊢
      obtain ⟨fuel, rfl⟩ := Nat.exists_eq_add_of_le' hf
      simp only [hneg, decide_false] at hnumber
      rw [expr, ← hnumber]
      rfl
  | text =>
    intro fuel rest hr hf
    obtain ⟨fuel, rfl⟩ := Nat.exists_eq_add_of_le' hf
    rfl
  | list hitems ih =>
    intro fuel rest hr hf
    obtain ⟨fuel, rfl⟩ : ∃ k, fuel = k + 1 := ⟨fuel - 1, by simp [Json.tokens] at hf; omega⟩
    have hall : Parser.items fuel _ (_ ++ .mark .closeBracket :: rest) = _ :=
      items_tokensItems (.inl rfl) ih (by simp [Json.tokens] at hf; omega)
    simp only [Json.tokens, List.cons_append, List.append_assoc, List.nil_append, term, hall, expr]
  | object hkeys hfields ih =>
    intro fuel rest hr hf
    obtain ⟨fuel, rfl⟩ : ∃ k, fuel = k + 1 := ⟨fuel - 1, by simp [Json.tokens] at hf; omega⟩
    have hall : Parser.items fuel _ (_ ++ .mark .closeBrace :: rest) = _ :=
      items_tokensFields ih (by simp [Json.tokens] at hf; omega)
    simp only [Json.tokens, List.cons_append, List.append_assoc, List.nil_append, term, hall, expr]

theorem statement_tokens (hj : j.Readable) : statement j.tokens = ⟨j.expr, .done⟩ := by
  have hitem : item (5 * j.tokens.length + 5) (j.tokens ++ []) = (j.expr, []) :=
    hj.item trivial (by omega)
  rw [List.append_nil] at hitem
  simp only [statement, hitem, finish]

/-! ### One statement -/

theorem Plain.semicolon_notMem (hj : j.Plain n) : Token.mark .semicolon ∉ j.tokens := by
  induction hj with
  | null => simp [Json.tokens]
  | @int n i hi => rw [Json.tokens]; split <;> simp
  | text => simp [Json.tokens]
  | @list n items hitems ih =>
    have hall : Token.mark .semicolon ∉ tokensItems items := by
      clear hitems
      induction items with
      | nil => simp [tokensItems]
      | cons j items ihitems =>
        have hj := ih j List.mem_cons_self
        have hrest := ihitems fun j hj => ih j (List.mem_cons_of_mem _ hj)
        cases items with
        | nil => exact hj
        | cons k items =>
          simp only [tokensItems, List.mem_append, List.mem_cons] at hrest ⊢
          simp [hj, hrest]
    simp [Json.tokens, hall]
  | @object n fields hkeys hfields ih =>
    have hall : Token.mark .semicolon ∉ tokensFields fields := by
      clear hkeys hfields
      induction fields with
      | nil => simp [tokensFields]
      | cons f fields ihfields =>
        obtain ⟨key, j⟩ := f
        have hj := ih (key, j) List.mem_cons_self
        have hrest := ihfields fun f hf => ih f (List.mem_cons_of_mem _ hf)
        cases fields with
        | nil => simpa [tokensFields] using hj
        | cons g fields =>
          simp only [tokensFields, List.mem_append, List.mem_cons] at hrest ⊢
          simp [hj, hrest]
    simp [Json.tokens, hall]

/-- The tokens of a document are one statement, which is its expression. -/
theorem Plain.statements_tokens (hj : j.Plain n) : statements j.tokens = [⟨j.expr, .done⟩] := by
  have hne : j.tokens.isEmpty = false := by
    have hopens := j.opens_tokens []
    cases ht : j.tokens with
    | nil => rw [ht] at hopens; cases hopens
    | cons t ts => rfl
  rw [statements, split_eq hj.semicolon_notMem, List.filter_cons_of_pos (by simp [hne])]
  simp [statement_tokens hj.readable]

end Json

end ValueMachine

import Mathlib.Tactic
import ValueMachine.Machine.Exception
import ValueMachine.Source.Token

/-! Texts of exceptions. A text is false if it is empty or the digit zero, and an exception with such
a text cannot be told from success. None of the machine's own faults has such a text. -/

namespace ValueMachine

namespace Bytes

theorem toList_loop (bs : ByteArray) (i : Nat) (r : List UInt8) :
    ByteArray.toList.loop bs i r = r.reverse ++ bs.data.toList.drop i := by
  fun_induction ByteArray.toList.loop bs i r with
  | case1 i r hi ih =>
    have hi' : i < bs.data.toList.length := by simpa using hi
    rw [ih, List.drop_eq_getElem_cons hi']
    simp [ByteArray.get!, hi]
  | case2 i r hi =>
    rw [List.drop_eq_nil_of_le (by simpa using Nat.le_of_not_lt hi), List.append_nil]

theorem ofText_eq (s : String) : ofText s = s.toByteArray.data.toList := by
  rw [ofText, ByteArray.toList, toList_loop]
  rfl

theorem ofText_injective {s t : String} (h : ofText s = ofText t) : s = t := by
  rw [ofText_eq, ofText_eq] at h
  exact String.toByteArray_inj.1 (ByteArray.ext (Array.toList_inj.1 h))

end Bytes

theorem Scalar.truth_ofText {s : String} (hempty : s ≠ "") (hzero : s ≠ "0") :
    (Scalar.ofText s).truth = true := by
  have hnil : Bytes.ofText s ≠ [] := fun h =>
    hempty (Bytes.ofText_injective (h.trans (Bytes.ofText_eq "").symm))
  have hdigit : Bytes.ofText s ≠ [48] := fun h =>
    hzero (Bytes.ofText_injective (h.trans (Bytes.ofText_eq "0").symm))
  show (!((Bytes.ofText s).isEmpty || Bytes.ofText s == [48])) = true
  simp [hnil, hdigit]

/-- A text of two bytes is true. -/
theorem Scalar.truth_ofText_of_two_le {s : String} (hs : 2 ≤ s.utf8ByteSize) :
    (Scalar.ofText s).truth = true := by
  refine truth_ofText ?_ ?_
  · rintro rfl
    exact absurd hs (by decide)
  · rintro rfl
    exact absurd hs (by decide)

/-- A text that ends a line is true. -/
theorem Scalar.truth_ofText_of_endsWith {s : String} (hs : s.endsWith "\n" = true) :
    (Scalar.ofText s).truth = true := by
  refine truth_ofText ?_ ?_
  · rintro rfl
    exact absurd hs (by decide)
  · rintro rfl
    exact absurd hs (by decide +kernel)

theorem le_size_append {a : String} {n : Nat} (ha : n ≤ a.utf8ByteSize) (b : String) :
    n ≤ (a ++ b).utf8ByteSize := by
  rw [String.utf8ByteSize_append]
  omega

/-- A fault whose text is true. -/
def Fault.Telling (f : Fault) : Prop := (Scalar.ofText f.message).truth = true

/-- The machine's own faults are telling. -/
theorem Fault.telling {f : Fault} (hf : ∀ t, f ≠ .said t) : f.Telling := by
  refine Scalar.truth_ofText_of_two_le ?_
  cases f
  case said t => exact absurd rfl (hf t)
  case notReferenceTo | recursiveInheritance | undefinedSub | methodWithoutInvocant
      | methodOnUnblessed | syntaxError | withoutBody =>
    exact le_size_append (le_size_append (by decide) _) _
  case noMethod | noModule =>
    exact le_size_append (le_size_append (le_size_append (le_size_append (by decide) _) _)
      _) _
  all_goals decide

/-! ### Faults of source text -/

namespace Source.Lexer

/-- A fault that is about the text itself. -/
def AboutText (f : Fault) : Prop :=
  (∃ near, f = .syntaxError near) ∨ f = .unterminatedString ∨ f = .unterminatedWords

theorem aboutText_wordList? {cs : List Char} {f : Fault}
    (h : wordList? cs = some (.error f)) : AboutText f := by
  unfold wordList? at h
  split at h
  next opening r _ =>
    cases hc : closing? opening with
    | none => rw [hc] at h; cases h
    | some close =>
      rw [hc] at h
      simp only [Option.bind_eq_bind, Option.bind_some] at h
      split at h
      · cases h
      · cases h
        exact .inr (.inr rfl)
  next => cases h

theorem aboutText_token {cs : List Char} {f : Fault} (h : token cs = .error f) : AboutText f := by
  have hcomplaint : ∀ cs, AboutText (complaint cs) := fun cs => .inl ⟨_, rfl⟩
  unfold token at h
  split at h
  · cases h
    exact hcomplaint _
  next c r =>
    split at h
    · split at h
      split at h
      · split at h
        · cases h
        next hw => cases h; exact aboutText_wordList? hw
        · cases h
      · cases h
    split at h
    · split at h
      · cases h
      · cases h; exact hcomplaint _
    split at h
    · cases h
    split at h
    · split at h
      · cases h
      · cases h; exact .inr (.inl rfl)
    · split at h
      · cases h
      · cases h; exact hcomplaint _

theorem aboutText_tokensWithin (fuel : Nat) (cs : List Char) {f : Fault}
    (h : tokensWithin fuel cs = .error f) : AboutText f := by
  fun_induction tokensWithin fuel cs with
  | case1 | case2 => cases h
  | case3 _ _ _ _ ih => exact ih h
  | case4 _ _ _ _ _ ih => exact ih h
  | case5 fuel c r _ _ ih =>
    cases ht : token (c :: r) with
    | error f' =>
      rw [ht] at h
      cases h
      exact aboutText_token ht
    | ok p =>
      rw [ht] at h
      cases hts : tokensWithin fuel p.2 with
      | error f' =>
        simp only [bind, Except.bind, hts] at h
        cases h
        exact ih p.2 hts
      | ok ts => simp only [bind, Except.bind, hts] at h; cases h

end Source.Lexer

theorem Source.telling_of_tokens {source : String} {f : Fault} (h : tokens source = .error f) :
    f.Telling := by
  refine Fault.telling fun t => ?_
  rcases Lexer.aboutText_tokensWithin _ _ h with ⟨near, rfl⟩ | rfl | rfl <;> simp

end ValueMachine

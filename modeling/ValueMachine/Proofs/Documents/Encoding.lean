import Mathlib.Tactic
import ValueMachine.Proofs.Calls.Telling

/-! The lenient reading of bytes gives back the text that they are the UTF-8 form of. A character
has one to four bytes: the first tells how many follow and which ones may come next. -/

namespace ValueMachine.Bytes

variable {b : UInt8} {p : Unfinished} {rest : Bytes}

theorem ofText_ofList (cs : List Char) :
    ofText (String.ofList cs) = cs.flatMap String.utf8EncodeChar := by
  rw [ofText_eq, String.toByteArray_ofList, List.utf8Encode]
  simp

theorem scanFrom_char {c : Char} (hb : lead b = .char c) :
    scanFrom none (b :: rest) = some c :: scanFrom none rest := by
  simp only [scanFrom, hb, List.nil_append]

theorem scanFrom_lead (hb : lead b = .more p) :
    scanFrom none (b :: rest) = scanFrom (some p) rest := by
  simp only [scanFrom, hb, List.nil_append]

/-- A byte that an unfinished character was waiting for, as long as more are missing. -/
theorem scanFrom_more (hlo : p.lo ≤ b) (hhi : b ≤ p.hi) (hm : 1 < p.missing) :
    scanFrom (some p) (b :: rest)
      = scanFrom (some ⟨p.missing - 1, 0x80, 0xBF, p.bits * 64 + b.toNat % 64⟩) rest := by
  simp only [scanFrom, hlo, hhi, decide_true, Bool.and_self, if_true, if_neg (Nat.not_le.2 hm)]

/-- The last byte of a character. -/
theorem scanFrom_last (hlo : p.lo ≤ b) (hhi : b ≤ p.hi) (hm : p.missing = 1) :
    scanFrom (some p) (b :: rest)
      = some (Char.ofNat (p.bits * 64 + b.toNat % 64)) :: scanFrom none rest := by
  simp only [scanFrom, hlo, hhi, decide_true, Bool.and_self, if_true, hm, le_refl]

/-! ### The bytes of a character -/

theorem lead_ascii {v : Nat} (hv : v ≤ 127) : lead (UInt8.ofNat v) = .char (Char.ofNat v) := by
  interval_cases v <;> rfl

theorem lead_two {a : Nat} (hlo : 2 ≤ a) (hhi : a < 32) :
    lead (UInt8.ofNat (a + 192)) = .more ⟨1, 0x80, 0xBF, a⟩ := by
  interval_cases a <;> rfl

theorem lead_three {a : Nat} (ha : a < 16) : lead (UInt8.ofNat (a + 224))
    = .more ⟨2, if a = 0 then 0xA0 else 0x80, if a = 13 then 0x9F else 0xBF, a⟩ := by
  interval_cases a <;> rfl

theorem lead_four {a : Nat} (ha : a < 5) : lead (UInt8.ofNat (a + 240))
    = .more ⟨3, if a = 0 then 0x90 else 0x80, if a = 4 then 0x8F else 0xBF, a⟩ := by
  interval_cases a <;> rfl

theorem toNat_tail (n : Nat) : (UInt8.ofNat (n % 64 + 128)).toNat = n % 64 + 128 := by
  rw [UInt8.toNat_ofNat']
  omega

/-- Six bits in a byte that continues a character. -/
theorem le_tail {lo : UInt8} {n : Nat} (h : lo.toNat ≤ n % 64 + 128) :
    lo ≤ UInt8.ofNat (n % 64 + 128) := by
  rw [UInt8.le_iff_toNat_le, toNat_tail]
  exact h

theorem tail_le {hi : UInt8} {n : Nat} (h : n % 64 + 128 ≤ hi.toNat) :
    UInt8.ofNat (n % 64 + 128) ≤ hi := by
  rw [UInt8.le_iff_toNat_le, toNat_tail]
  exact h

theorem scanFrom_encodeChar (c : Char) (rest : Bytes) :
    scanFrom none (String.utf8EncodeChar c ++ rest) = some c :: scanFrom none rest := by
  obtain ⟨v, hv⟩ : ∃ v, v = c.val.toNat := ⟨_, rfl⟩
  have hc : Char.ofNat v = c := hv ▸ Char.ofNat_toNat c
  have hvalid : v < 0xD800 ∨ 0xDFFF < v ∧ v < 0x110000 := hv ▸ c.valid
  simp only [String.utf8EncodeChar, ← hv]
  split
  next h1 => rw [List.singleton_append, scanFrom_char (lead_ascii h1), hc]
  split
  next h1 h2 =>
    rw [Nat.mod_eq_of_lt (a := v / 64) (by omega)]
    simp only [List.cons_append, List.nil_append]
    rw [scanFrom_lead (lead_two (by omega) (by omega)),
      scanFrom_last (le_tail (by simp)) (tail_le (by simp; omega)) rfl, toNat_tail]
    have hbits : v / 64 * 64 + (v % 64 + 128) % 64 = v := by omega
    rw [hbits, hc]
  split
  next h1 h2 h3 =>
    rw [Nat.mod_eq_of_lt (a := v / 4096) (by omega)]
    simp only [List.cons_append, List.nil_append]
    rw [scanFrom_lead (lead_three (by omega)),
      scanFrom_more (le_tail (by dsimp only; split; all_goals (simp; try omega)))
        (tail_le (by dsimp only; split; all_goals (simp; omega))) (by simp),
      scanFrom_last (le_tail (by simp)) (tail_le (by simp; omega)) rfl, toNat_tail, toNat_tail]
    have hbits : (v / 4096 * 64 + (v / 64 % 64 + 128) % 64) * 64 + (v % 64 + 128) % 64 = v := by
      omega
    rw [hbits, hc]
  next h1 h2 h3 =>
    rw [Nat.mod_eq_of_lt (a := v / 262144) (by omega)]
    simp only [List.cons_append, List.nil_append]
    rw [scanFrom_lead (lead_four (by omega)),
      scanFrom_more (le_tail (by dsimp only; split; all_goals (simp; try omega)))
        (tail_le (by dsimp only; split; all_goals (simp; omega))) (by simp),
      scanFrom_more (le_tail (by simp)) (tail_le (by simp; omega)) (by simp),
      scanFrom_last (le_tail (by simp)) (tail_le (by simp; omega)) rfl, toNat_tail, toNat_tail,
      toNat_tail]
    have hbits : ((v / 262144 * 64 + (v / 4096 % 64 + 128) % 64) * 64 + (v / 64 % 64 + 128) % 64) * 64
        + (v % 64 + 128) % 64 = v := by
      omega
    rw [hbits, hc]

theorem scanFrom_flatMap (cs : List Char) :
    scanFrom none (cs.flatMap String.utf8EncodeChar) = cs.map some := by
  induction cs with
  | nil => rfl
  | cons c cs ih => rw [List.flatMap_cons, scanFrom_encodeChar, ih, List.map_cons]

/-- A text is read back from its bytes. -/
theorem toText_ofText (s : String) : toText (ofText s) = s := by
  have hs : s = String.ofList s.toList := String.ofList_toList.symm
  rw [hs, ofText_ofList, toText, scan, scanFrom_flatMap, List.map_map]
  congr 1
  exact List.map_id _

end ValueMachine.Bytes

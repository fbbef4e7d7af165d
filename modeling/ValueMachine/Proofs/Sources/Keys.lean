import ValueMachine.Proofs.Documents.Making
import ValueMachine.Proofs.Ownership.Refusals
import ValueMachine.Proofs.Ownership.Variables
import ValueMachine.Proofs.Passage.Sprouts
import ValueMachine.Proofs.Sources.Callings
import ValueMachine.Proofs.Sources.Literals

/-! Words as keys of hashes. The readers of tokens and of terms have meanings of their own for some
words, and a sub can have any name. All of them give way where a word is a key: before a fat comma and
alone in braces after an arrow a word is its own text. What is written under a word is found under it.
The one exception is `my`, which is passed over before a fat comma too. -/

namespace ValueMachine

open Machine Source.Lexer Source.Parser

namespace Machine

variable {m m' m₁ m₂ m₃ : Machine} {h k : Handle} {s : Scalar}

/-! ### New values -/

/-- A machine with some new values. Those that were there and the globals are as they were. -/
structure Gains (m m' : Machine) : Prop where
  size_le : m.heap.size ≤ m'.heap.size
  cell : ∀ ⦃k⦄, k.index < m.heap.size → m'.cell k = m.cell k
  symbols : m'.interp.symbols = m.interp.symbols

namespace Gains

theorem trans (h : m₁.Gains m₂) (h' : m₂.Gains m₃) : m₁.Gains m₃ where
  size_le := h.size_le.trans h'.size_le
  cell _ hk := (h'.cell (hk.trans_le h.size_le)).trans (h.cell hk)
  symbols := h'.symbols.trans h.symbols

theorem alloc (m : Machine) (b : Body) : m.Gains (m.alloc b).2 where
  size_le := by simp [Machine.alloc]
  cell _ hk := cell_alloc_ne b (ne_next_of_lt hk)
  symbols := rfl

theorem allocMortal (m : Machine) (b : Body) : m.Gains (m.allocMortal b).2 :=
  (alloc m b).trans ⟨le_rfl, fun _ _ => rfl, rfl⟩

/-- A new value may be filled. -/
theorem setBody (hm : m.Gains m') (hnew : m.heap.size ≤ h.index) (b : Body) :
    m.Gains (m'.setBody h b) where
  size_le := by simpa [Machine.setBody, Heap.update] using hm.size_le
  cell k hk := by
    have hne : k ≠ h := by
      rintro rfl
      omega
    exact (cell_setBody_ne b hne).trans (hm.cell hk)
  symbols := hm.symbols

theorem body (hm : m.Gains m') (hk : k.index < m.heap.size) : m'.body k = m.body k :=
  congrArg Cell.body (hm.cell hk)

theorem readsAs (hm : m.Gains m') (hs : m.ReadsAs h s) : m'.ReadsAs h s := by
  have hk := index_lt_of_scalar hs.body
  exact ⟨(hm.body hk).trans hs.body, hm.cell hk ▸ hs.unhooked⟩

theorem declares (hg : m.Gains m') (hm : m.Declares) : m'.Declares := by
  refine hm.keep (fun name => ?_) fun k hv => ?_
  · rw [global?, glob?, hg.symbols]
    rfl
  · have hcell := hg.cell hv.index_lt
    exact ⟨hv.index_lt.trans_le hg.size_le, hcell ▸ hv.counted,
      (hg.body hv.index_lt).symm ▸ hv.written⟩

end Gains

/-- A machine with a new reference to a new hash, whose only entry is a new scalar. -/
structure Singles (m m' : Machine) (ref hash one : Handle) (key : Bytes) (s : Scalar) : Prop
    extends m.Gains m' where
  new : ∀ k ∈ [ref, hash, one], m.heap.size ≤ k.index
  reference : m'.ReadsAs ref (.ofTarget hash)
  table : m'.body hash = .hash ⟨[(key, one)], none⟩
  value : m'.body one = .scalar s
  orderly : ∀ held, m.Orderly held → m'.Orderly held

end Machine

namespace Source

variable {w : String} {rest : List Char} {ts : List Token} {fuel : Nat}

/-! ### The tokens -/

/-- A new hash with one word as its key. -/
def hashText (w : String) : String := "\x7b " ++ w ++ " => 1 \x7d"

/-- The entry of a variable's hash under a word. -/
def entryText (w : String) : String := "$h->\x7b" ++ w ++ "\x7d"

/-- A hash in a variable and its entry, both with the same word. -/
def storeText (w : String) : String := "$h = " ++ hashText w ++ "; " ++ entryText w

def hashTokens (w : String) : List Token :=
  [.mark .openBrace, .word w, .mark .fatComma, .number "1", .mark .closeBrace]

def entryTokens (w : String) : List Token :=
  [.scalar "h", .mark .arrow, .mark .openBrace, .word w, .mark .closeBrace]

/-- A word stays a word in front of what no word list begins with. -/
theorem Lexer.Lexes.bareword (hw : IsWord w) (hr : Breaks rest) (hlist : wordList? rest = none)
    (h : Lexes rest ts) : Lexes (w.toList ++ rest) (.word w :: ts) := by
  by_cases hq : w = "qw"
  · subst hq
    have hread : Lexer.word ('q' :: 'w' :: rest) = (['q', 'w'], rest) := word_append_of_breaks hw.2 hr
    have hstart : isWordStart 'q' = true := by decide
    refine .token (by decide) (by decide) ?_ (by simp) h
    show Lexer.token ('q' :: 'w' :: rest) = _
    simp [Lexer.token, hstart, hread, hlist]
  · exact .word hw hq hr h

theorem lexes_hashText (hw : IsWord w) (h : Lexes rest ts) :
    Lexes ((hashText w).toList ++ rest) (hashTokens w ++ ts) := by
  have hclose : Lexes (' ' :: '\x7d' :: rest) (.mark .closeBrace :: ts) :=
    .blank (by decide) (.mark (by decide) rfl le_rfl h)
  have hnumber : Lexes ('1' :: ' ' :: '\x7d' :: rest) (.number "1" :: .mark .closeBrace :: ts) :=
    .token (by decide) (by decide) rfl le_rfl hclose
  have hword : Lexes (w.toList ++ ' ' :: '=' :: '>' :: ' ' :: '1' :: ' ' :: '\x7d' :: rest)
      (.word w :: .mark .fatComma :: .number "1" :: .mark .closeBrace :: ts) :=
    .bareword hw ⟨by decide, by decide⟩ rfl (.fatComma hnumber)
  have hall : Lexes ('\x7b' :: ' ' :: (w.toList ++ _)) _ :=
    .mark (m := .openBrace) (by decide) rfl le_rfl (.blank (by decide) hword)
  simpa [hashText, hashTokens] using hall

theorem Lexer.Lexes.dollar (hr : Breaks rest) (h : Lexes rest ts) :
    Lexes ('$' :: 'h' :: rest) (.scalar "h" :: ts) := by
  have hname : Lexer.word ['h'] = (['h'], []) := rfl
  have hread : Lexer.word ('h' :: rest) = (['h'], rest) := word_append_of_breaks hname hr
  have hstart : isWordStart 'h' = true ∧ isWordStart '$' = false := by decide
  refine .token (by decide) (by decide) ?_ (by simp) h
  simp [Lexer.token, variableName?, hstart, hread]

theorem lexes_entryText (hw : IsWord w) : Lexes (entryText w).toList (entryTokens w) := by
  have hclose : Lexes ['\x7d'] [.mark .closeBrace] := .mark (by decide) rfl le_rfl .nil
  have hword : Lexes (w.toList ++ ['\x7d']) [.word w, .mark .closeBrace] :=
    .bareword hw ⟨by decide, by decide⟩ rfl hclose
  have harrow : Lexes ('-' :: '>' :: '\x7b' :: (w.toList ++ ['\x7d'])) _ :=
    .mark (m := .arrow) (by decide) rfl (by simp)
      (.mark (m := .openBrace) (by decide) rfl le_rfl hword)
  simpa [entryText, entryTokens] using harrow.dollar breaks_arrow

theorem lexes_storeText (hw : IsWord w) : Lexes (storeText w).toList
    (.scalar "h" :: .mark .equals :: (hashTokens w ++ .mark .semicolon :: entryTokens w)) := by
  have hentry := Lexes.blank (c := ' ') (by decide) (lexes_entryText hw)
  have hsemicolon : Lexes (';' :: ' ' :: (entryText w).toList) (.mark .semicolon :: entryTokens w) :=
    .token (by decide) (by decide) rfl le_rfl hentry
  have hhash := Lexes.blank (c := ' ') (by decide) (lexes_hashText hw hsemicolon)
  have hequals : Lexes ('=' :: ' ' :: ((hashText w).toList ++ _)) (.mark .equals :: _) :=
    .mark (by decide) rfl le_rfl hhash
  have hbreaks : Breaks (' ' :: '=' :: ' ' ::
      ((hashText w).toList ++ ';' :: ' ' :: (entryText w).toList)) := ⟨by decide, by decide⟩
  simpa [storeText] using (Lexes.blank (by decide) hequals).dollar hbreaks

/-! ### The expressions -/

/-- The expression of a new hash with one key. -/
def oneEntry (w : String) : Expr :=
  .newHash (.cons (.string w) (.cons (.number (.whole (.signed 1))) .done))

theorem numberLiteral_one : numberLiteral false "1" = .number (.whole (.signed 1)) :=
  Json.numberLiteral_decimal (i := 1) ⟨by decide, by decide⟩

/-- Before a fat comma a word is a key. -/
theorem items_key (hmy : w ≠ "my") :
    items (fuel + 5) (.closing .closeBrace)
        (.word w :: .mark .fatComma :: .number "1" :: .mark .closeBrace :: ts)
      = (.cons (.string w) (.cons (.number (.whole (.signed 1))) .done), ts) := by
  have hterm : term (fuel + 2) (.number "1" :: .mark .closeBrace :: ts)
      = (.number (.whole (.signed 1)), .mark .closeBrace :: ts) := by
    rw [← numberLiteral_one]
    rfl
  have hvalue : items (fuel + 4) (.closing .closeBrace) (.number "1" :: .mark .closeBrace :: ts)
      = (.cons (.number (.whole (.signed 1))) .done, ts) :=
    items_last trivial (item_term trivial hterm (arrows_mark (by decide))) (.inr (.inl rfl))
  have hword : wordTerm (fuel + 2) w (.mark .fatComma :: .number "1" :: .mark .closeBrace :: ts)
      = (.string w, .mark .fatComma :: .number "1" :: .mark .closeBrace :: ts) := rfl
  have hkey : item (fuel + 4) (.word w :: .mark .fatComma :: .number "1" :: .mark .closeBrace :: ts)
      = (.string w, .mark .fatComma :: .number "1" :: .mark .closeBrace :: ts) :=
    item_word hmy hword (arrows_mark (by decide))
  rw [items, if_neg (by simp [atClose]), hkey]
  simp only [hvalue]

theorem term_hashTokens (hmy : w ≠ "my") (ts : List Token) :
    term (fuel + 6) (hashTokens w ++ ts) = (oneEntry w, ts) := by
  simp only [hashTokens, List.cons_append, List.nil_append, term, items_key hmy]
  rfl

theorem statement_hashTokens (hmy : w ≠ "my") : statement (hashTokens w) = ⟨oneEntry w, .done⟩ := by
  have hterm : term 29 (hashTokens w) = (oneEntry w, []) := term_hashTokens hmy []
  exact statement_of_item (item_term (.inr (.inr rfl)) hterm (arrows_ends trivial))

theorem statement_assign (hmy : w ≠ "my") :
    statement (.scalar "h" :: .mark .equals :: hashTokens w) = ⟨.assign "h" (oneEntry w), .done⟩ := by
  have hterm : term 38 (hashTokens w) = (oneEntry w, []) := term_hashTokens hmy []
  have hvalue : item 39 (hashTokens w) = (oneEntry w, []) :=
    item_term (.inr (.inr rfl)) hterm (arrows_ends trivial)
  refine statement_of_item ?_
  show item 40 _ = _
  rw [item]
  simp only [skipMy, hvalue]

/-- In braces after an arrow every word is a key. -/
theorem statement_entryTokens : statement (entryTokens w) = ⟨.namedEntry (.scalar "h") w, .done⟩ := rfl

theorem statements_storeText :
    statements (.scalar "h" :: .mark .equals :: (hashTokens w ++ .mark .semicolon :: entryTokens w))
      = [statement (.scalar "h" :: .mark .equals :: hashTokens w), statement (entryTokens w)] := rfl

/-! ### A new hash -/

/-- One key and a copy of its value are put into an empty hash. -/
theorem putPairs_pair {m : Machine} {hash k v : Handle} {t : ByteText} {s : Scalar}
    (hk : m.ReadsAs k (.ofByteText t)) (hv : m.ReadsAs v s) (hs : s.owned = [])
    (hempty : m.body hash = .hash ⟨[], none⟩) :
    let m' := (m.alloc (.scalar s)).2.setBody hash (.hash ⟨[(t.bytes, m.heap.next)], none⟩)
    putPairs hash [k, v] m = .ok () m' ∧ ∀ held, m.Orderly held → m'.Orderly held := by
  have hlt : hash.index < m.heap.size := index_lt_of_not_isFreed (by rw [isFreed, hempty]; rfl)
  have htext : text k m = .ok t m := by
    rw [hk.text, textAt, hk.scalar?]
    rfl
  have hcopy : newCopy v m = .ok m.heap.next (m.alloc (.scalar s)).2 := by
    rw [hv.newCopy, hs]
    rfl
  have hput : hashPut hash t.bytes m.heap.next (m.alloc (.scalar s)).2
      = .ok () ((m.alloc (.scalar s)).2.setBody hash (.hash ⟨[(t.bytes, m.heap.next)], none⟩)) :=
    hashPut_apply (((Gains.alloc m (.scalar s)).body hlt).trans hempty) (by simp) _
  refine ⟨?_, fun held hm => ?_⟩
  · rw [putPairs, Run.bind_of_ok htext, Run.bind_of_ok hcopy]
    exact Run.bind_of_ok hput
  · exact (Orderly.hashPut (Orderly.newCopy hm hcopy).orderly hput).orderly

/-- A key and a value that owns nothing make a new hash with this key alone. -/
theorem hashOf_singles {m : Machine} {k v : Handle} {t : ByteText} {s : Scalar}
    (hk : m.ReadsAs k (.ofByteText t)) (hv : m.ReadsAs v s) (hs : s.owned = []) :
    ∃ ref hash one m', hashOf [k, v] m = .ok ref m' ∧ m.Singles m' ref hash one t.bytes s := by
  let m₁ := (m.alloc (.hash .empty)).2
  let m₂ := (m₁.alloc (.scalar s)).2
  let m₃ := m₂.setBody m.heap.next (.hash ⟨[(t.bytes, m₁.heap.next)], none⟩)
  let m₄ := (m₃.allocMortal (.scalar (.ofTarget m.heap.next))).2
  have h₁ : m.Gains m₁ := .alloc m _
  have h₃ : m.Gains m₃ := (h₁.trans (.alloc m₁ _)).setBody le_rfl _
  have h₄ : m₃.Gains m₄ := .allocMortal m₃ _
  have hempty : m₁.body m.heap.next = .hash ⟨[], none⟩ := congrArg Cell.body (cell_alloc m _)
  obtain ⟨hpairs, horderly⟩ := putPairs_pair (h₁.readsAs hk) (h₁.readsAs hv) hs hempty
  have hhash : m.heap.next.index = m.heap.size := rfl
  have hone : m₁.heap.next.index = m.heap.size + 1 := Heap.size_push _ _
  have hsize₂ : m₂.heap.size = m.heap.size + 2 := (Heap.size_push _ _).trans (congrArg (· + 1) hone)
  have href : m₃.heap.next.index = m.heap.size + 2 := (Heap.size_set _ _ _).trans hsize₂
  have hsize₃ : m₃.heap.size = m.heap.size + 2 := href
  have hne : m₁.heap.next ≠ m.heap.next := fun he => by
    have hindex := congrArg Handle.index he
    omega
  refine ⟨m₃.heap.next, m.heap.next, m₁.heap.next, m₄, ?_, h₃.trans h₄, ?_, ?_, ?_, ?_, ?_⟩
  · have hnew : newHash m = .ok m.heap.next m₁ := rfl
    rw [hashOf, Run.bind_of_ok hnew, Run.bind_of_ok hpairs]
    rfl
  · simp only [List.mem_cons, List.not_mem_nil, or_false]
    rintro j (rfl | rfl | rfl) <;> omega
  · exact readsAs_allocMortal m₃ _
  · exact (h₄.body (by omega)).trans (body_setBody _ (by omega))
  · refine (h₄.body (by omega)).trans ((body_setBody_ne _ hne).trans ?_)
    exact (readsAs_alloc m₁ s).body
  · intro held hm
    have ho₁ : m.Settles m₁ (m.heap.next :: held) := Orderly.alloc _ hm rfl List.nodup_nil
    have ho₃ := horderly _ ho₁.orderly
    exact (ho₃.alloc (.scalar (.ofTarget m.heap.next)) rfl).orderly.mortal.orderly

/-- The expression of a new hash with one key has a reference to such a hash as its value. -/
theorem eval_oneEntry (w : String) (r : Reentry) (want : Want) (m : Machine) :
    ∃ ref hash one m', (oneEntry w).eval r want m = .ok [ref] m' ∧
      m.Singles m' ref hash one (Bytes.ofText w) (.ofInt64 1) := by
  let m₁ := (m.allocMortal (.scalar (.ofText w))).2
  let m₂ := (m₁.allocMortal (.scalar (.ofInt64 1))).2
  have hkey : m₁.ReadsAs m.heap.next (.ofText w) := readsAs_allocMortal m _
  have hvalue : m₂.ReadsAs m₁.heap.next (.ofInt64 1) := readsAs_allocMortal m₁ _
  have hgains : m.Gains m₂ := (Gains.allocMortal m _).trans (.allocMortal m₁ _)
  obtain ⟨ref, hash, one, m', hrun, hm'⟩ :=
    hashOf_singles (Gains.readsAs (.allocMortal m₁ _) hkey) hvalue rfl
  refine ⟨ref, hash, one, m', ?_, ?_⟩
  · have hitems : (Items.cons (.string w) (.cons (.number (.whole (.signed 1))) .done)).eval r m
        = .ok [m.heap.next, m₁.heap.next] m₂ := by
      simp only [Items.eval, Expr.eval]
      rfl
    rw [oneEntry, Expr.eval, Run.bind_of_ok hitems, Run.bind_of_ok hrun]
    rfl
  · refine { hm' with
      toGains := hgains.trans hm'.toGains
      new := fun k hk => hgains.size_le.trans (hm'.new k hk)
      orderly := fun held hm => hm'.orderly held ?_ }
    have ho := hm.allocMortal (s := .ofText w) rfl
    exact (ho.orderly.allocMortal (s := .ofInt64 1) rfl).orderly

/-! ### The entry of a hash in a variable -/

theorem eval_namedEntry {m : Machine} {slot hash one : Handle} {t : Table}
    (hglobal : m.global? .scalar "h" = some slot) (hslot : m.body slot = .scalar (.ofTarget hash))
    (hhash : m.body hash = .hash t) (hone : t.get? (Bytes.ofText w) = some one) (r : Reentry)
    (want : Want) : (Expr.namedEntry (.scalar "h") w).eval r want m = .ok [one] m := by
  have hbase : (Expr.scalar "h").eval r want m = .ok [slot] m := by
    rw [Expr.eval, Run.modifyGet_bind]
    simp only [global, hglobal]
    rfl
  have hreferent : referentOf .hash slot m = .ok hash m := by
    have htarget : m.target? slot = some hash := by rw [target?, scalar?, hslot]; rfl
    rw [referentOf, Run.look_bind, htarget]
    simp only [Run.look_bind, kind_of_hash hhash, if_true]
    rfl
  have hfetch : hashFetch? hash (Bytes.ofText w) m = .ok (some one) m := by
    have htable : table hash m = .ok t m := by
      rw [table, Run.look_bind, hhash]
      rfl
    rw [hashFetch?, Run.bind_of_ok htable, hone]
    rfl
  have hentry : entryOf slot (Bytes.ofText w) m = .ok one m := by
    rw [entryOf, Run.bind_of_ok hreferent, Run.bind_of_ok hfetch]
    rfl
  have hlast : lastOrUndefined [slot] m = .ok slot m := rfl
  rw [Expr.eval, Run.bind_of_ok hbase, Run.bind_of_ok hlast, Run.bind_of_ok hentry]
  rfl

/-- A new value is not what a variable denotes. -/
theorem ne_global {m m' : Machine} {k : Handle} {name : String} (hm : m.Gains m') (hd : m.Declares)
    (hnew : m.heap.size ≤ k.index) (hlt : k.index < m'.heap.size) :
    (m'.global .scalar name).1 ≠ k := by
  rintro rfl
  cases hg : m'.global? .scalar name with
  | some h =>
    simp only [global, hg] at hnew
    rw [global?, glob?, hm.symbols] at hg
    exact absurd (hd hg).index_lt (by omega)
  | none =>
    rw [global_of_none hg] at hlt
    exact lt_irrefl _ hlt

/-- A new hash with one key is assigned to a variable. The variable refers to it afterwards, and the
value under the key is there. -/
theorem eval_assign (w : String) (r : Reentry) (want : Want) {m : Machine} {held : List Handle}
    (ho : m.Orderly held) (hd : m.Declares) : ∃ slot hash one m',
      (Expr.assign "h" (oneEntry w)).eval r want m = .ok [slot] m' ∧
      m'.global? .scalar "h" = some slot ∧ m'.body slot = .scalar (.ofTarget hash) ∧
      m'.body hash = .hash ⟨[(Bytes.ofText w, one)], none⟩ ∧ m'.body one = .scalar (.ofInt64 1) := by
  obtain ⟨ref, hash, one, m₁, hrun, hm₁⟩ := eval_oneEntry w r .scalar m
  have hlt {k : Handle} {b : Body} (hb : m₁.body k = b) (hf : b.isFreed = false) :
      k.index < m₁.heap.size := index_lt_of_not_isFreed (by rw [isFreed, hb, hf])
  have hne {k : Handle} (hk : k ∈ [ref, hash, one]) (hk' : k.index < m₁.heap.size) :
      (m₁.global .scalar "h").1 ≠ k := ne_global hm₁.toGains hd (hm₁.new k hk) hk'
  obtain ⟨m₂, hassign, ho₂, hglobal, hslot, hbody⟩ := assign_global (hm₁.orderly held ho)
    (hm₁.declares hd) hm₁.reference "h" (hne (by simp) (hlt hm₁.reference.body rfl))
  -- the variable owns the hash and the hash its value, so that both are still there
  have hhash : m₂.body hash = .hash ⟨[(Bytes.ofText w, one)], none⟩ := by
    have hindex := hlt hm₁.table rfl
    refine (hbody (hne (by simp) hindex).symm hindex ?_).trans hm₁.table
    exact ho₂.not_isFreed_of_mem_owned (by rw [hslot]; exact List.mem_singleton_self _)
  have hone : m₂.body one = .scalar (.ofInt64 1) := by
    have hindex := hlt hm₁.value rfl
    refine (hbody (hne (by simp) hindex).symm hindex ?_).trans hm₁.value
    exact ho₂.not_isFreed_of_mem_owned (by rw [hhash]; exact List.mem_singleton_self _)
  refine ⟨(m₁.global .scalar "h").1, hash, one, m₂, ?_, hglobal, hslot, hhash, hone⟩
  rw [Expr.eval, Run.bind_of_ok hrun, Run.modifyGet_bind]
  exact Run.bind_of_ok hassign

/-! ### The values of the texts -/

theorem tokens_of_lexes {source : String} (h : Lexes source.toList ts) : tokens source = .ok ts :=
  h _ (by rw [String.length_toList])

theorem tokens_hashText (hw : IsWord w) : tokens (hashText w) = .ok (hashTokens w) := by
  have hlexes : Lexes ((hashText w).toList ++ []) (hashTokens w ++ []) := lexes_hashText hw .nil
  rw [List.append_nil, List.append_nil] at hlexes
  exact tokens_of_lexes hlexes

theorem reads_hashText (hw : IsWord w) (hmy : w ≠ "my") : Reads (hashText w) (oneEntry w) := by
  refine ⟨hashTokens w, tokens_hashText hw, ?_⟩
  show [statement (hashTokens w)] = _
  rw [statement_hashTokens hmy]

theorem reads_entryText (hw : IsWord w) : Reads (entryText w) (.namedEntry (.scalar "h") w) :=
  ⟨entryTokens w, tokens_of_lexes (lexes_entryText hw), rfl⟩

theorem values_storeText (hw : IsWord w) (hmy : w ≠ "my") (r : Reentry) (want : Want) :
    values r (storeText w) want = ((Expr.assign "h" (oneEntry w)).eval r .void >>= fun _ =>
      (Expr.namedEntry (.scalar "h") w).eval r want) := by
  rw [values, tokens_of_lexes (lexes_storeText hw)]
  show evalStatements r want (statements _) = _
  rw [statements_storeText, statement_assign hmy, statement_entryTokens, evalStatements,
    eval_statement, evalStatements, eval_statement]
  exact List.cons_ne_nil _ _

/-- `my` is passed over as a declaration, and a term is missing before the fat comma then. -/
theorem values_my (r : Reentry) (want : Want) (m : Machine) :
    values r (hashText "my") want m = raise (.syntaxError "=>") m ∧
      values r (storeText "my") want m = raise (.syntaxError "=>") m := by
  have hmy : IsWord "my" := by decide
  constructor
  · rw [values, tokens_hashText hmy]
    rfl
  · rw [values, tokens_of_lexes (lexes_storeText hmy)]
    rfl

/-- Words can be keys: a new hash has the word itself as its key, and a word in braces after an arrow
finds the value again, whatever the word means elsewhere and whatever subs there are. The variable can
be assigned to in every reachable state, since its owners are in order there and the names of scalars
denote variables. Before a fat comma `my` is not a key, but refused. -/
theorem words_are_keys (hw : IsWord w) (r : Reentry) (want : Want) :
    (w ≠ "my" → ∀ m : Machine,
      (∃ ref hash one m', values r (hashText w) want m = .ok [ref] m' ∧
        m'.body ref = .scalar (.ofTarget hash) ∧
        m'.body hash = .hash ⟨[(Bytes.ofText w, one)], none⟩ ∧
        m'.body one = .scalar (.ofInt64 1)) ∧
      ∀ held, m.Orderly held → m.Declares → ∃ one m',
        values r (storeText w) want m = .ok [one] m' ∧ m'.body one = .scalar (.ofInt64 1)) ∧
    (w = "my" → ∀ m : Machine,
      values r (hashText w) want m = raise (.syntaxError "=>") m ∧
      values r (storeText w) want m = raise (.syntaxError "=>") m) ∧
    ∀ (m : Machine) {slot hash one : Handle} {t : Table}, m.global? .scalar "h" = some slot →
      m.body slot = .scalar (.ofTarget hash) → m.body hash = .hash t →
      t.get? (Bytes.ofText w) = some one → values r (entryText w) want m = .ok [one] m := by
  refine ⟨fun hmy m => ⟨?_, fun held ho hd => ?_⟩, ?_,
    fun m slot hash one t hslot href hhash hone => ?_⟩
  · obtain ⟨ref, hash, one, m', hrun, hm'⟩ := eval_oneEntry w r want m
    refine ⟨ref, hash, one, m', ?_, hm'.reference.body, hm'.table, hm'.value⟩
    rw [(reads_hashText hw hmy).values_eq, hrun]
  · obtain ⟨slot, hash, one, m', hrun, hglobal, hslot, hhash, hone⟩ := eval_assign w r .void ho hd
    refine ⟨one, m', ?_, hone⟩
    have hentry := eval_namedEntry hglobal hslot hhash (List.lookup_cons_self ..) r want
    rw [values_storeText hw hmy, Run.bind_of_ok hrun, hentry]
  · rintro rfl m
    exact values_my r want m
  · rw [(reads_entryText hw).values_eq, eval_namedEntry hslot href hhash hone]

/-- The word that begins a list of words is a key in a new interpreter, and it is found again there
once the hash is assigned. -/
theorem quoteWord_is_key : IsWord "qw" ∧ fresh.Orderly [] ∧ fresh.Declares ∧
    (∃ one m', values (Library.relays.reentry 0) (storeText "qw") .scalar fresh = .ok [one] m' ∧
      m'.body one = .scalar (.ofInt64 1)) ∧
    ∃ slot hash one m', m'.global? .scalar "h" = some slot ∧
      m'.body slot = .scalar (.ofTarget hash) ∧
      m'.body hash = .hash ⟨[(Bytes.ofText "qw", one)], none⟩ ∧
      values (Library.relays.reentry 0) (entryText "qw") .scalar m' = .ok [one] m' := by
  have hw : IsWord "qw" := by decide
  obtain ⟨hwritten, -, hread⟩ := words_are_keys hw (Library.relays.reentry 0) .scalar
  obtain ⟨slot, hash, one, m', -, hglobal, hslot, hhash, -⟩ :=
    eval_assign "qw" (Library.relays.reentry 0) .void orderly_fresh.1 declares_fresh
  refine ⟨hw, orderly_fresh.1, declares_fresh, ?_, slot, hash, one, m', hglobal, hslot, hhash, ?_⟩
  · exact (hwritten (by decide) fresh).2 [] orderly_fresh.1 declares_fresh
  · exact hread m' hglobal hslot hhash (List.lookup_cons_self ..)

end Source

end ValueMachine

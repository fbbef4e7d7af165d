import ValueMachine.Host.Embedded
import ValueMachine.Proofs.Custody.Copies
import ValueMachine.Proofs.Documents.RoundTrip
import ValueMachine.Proofs.Exceptions.Crossing
import ValueMachine.Proofs.Sources.Keys

/-! Modules that the host loads by source text. What settings accept as the name of a module is one
word to the reader of tokens, and the text that the name is put in is the load of this module and of
no other. Whether the host takes the load for a success is decided as for any other call, by the truth
of `$@` afterwards. -/

namespace ValueMachine

open Machine Manner Source.Lexer Source.Parser

namespace Source

variable {c : Char} {cs rest first : List Char} {more : List (List Char)} {name : String}

/-! ### Names of modules -/

/-- A character of a module's name, separators apart. -/
def isPlainPart (c : Char) : Bool := c.isAlpha || c == '_' || c.isDigit

theorem toNat_lt_of_isAlphanum (hc : c.isAlpha = true ∨ c.isDigit = true) : c.toNat < 0x80 := by
  have hle {d : Char} (h : c.val ≤ d.val) (hd : d.toNat < 0x80) : c.toNat < 0x80 :=
    (UInt32.le_iff_toNat_le.1 h).trans_lt hd
  rcases hc with hletter | hdigit
  · rcases Bool.or_eq_true_iff.1 hletter with hupper | hlower
    · exact hle (d := 'Z') (of_decide_eq_true hupper).2 (by decide)
    · exact hle (d := 'z') (of_decide_eq_true (Bool.and_eq_true_iff.1 hlower).2) (by decide)
  · exact hle (d := '9') (of_decide_eq_true (Bool.and_eq_true_iff.1 hdigit).2) (by decide)

theorem isWordStart_of_isAlpha (hc : c.isAlpha = true ∨ c = '_') : isWordStart c = true := by
  rcases hc with hc | rfl
  · simp [isWordStart, Text.isAlphabetic, toNat_lt_of_isAlphanum (.inl hc), hc]
  · decide

theorem isWordPart_of_isPlainPart (hc : isPlainPart c = true) : isWordPart c = true := by
  simp only [isPlainPart, Bool.or_eq_true, beq_iff_eq] at hc
  rcases hc with hc | hc
  · exact isWordPart_of_isWordStart (isWordStart_of_isAlpha hc)
  · simp [isWordPart, Text.isAlphanumeric, Text.isNumeric, toNat_lt_of_isAlphanum (.inr hc), hc]

/-- A part of a module's name begins as a word does. -/
theorem exists_cons_of_isWord (h : Qualified.isWord cs = true) :
    ∃ c r, cs = c :: r ∧ isWordStart c = true ∧ (c :: r).all isPlainPart = true := by
  cases cs with
  | nil => cases h
  | cons c r =>
    obtain ⟨hstart, hrest⟩ := Bool.and_eq_true_iff.1 h
    have hc : (c.isAlpha || c == '_') = true := hstart
    have hr : r.all isPlainPart = true := hrest
    refine ⟨c, r, rfl, isWordStart_of_isAlpha (by simpa using hc), ?_⟩
    rw [List.all_cons, hr, isPlainPart, hc]
    rfl

theorem parts_ne_nil (cs : List Char) : Qualified.parts cs ≠ [] := by
  fun_cases Qualified.parts cs <;> simp

/-- The first part begins as the name does. -/
theorem exists_of_parts_eq_cons {s : List Char} (hparts : Qualified.parts cs = (c :: s) :: more) :
    ∃ r, cs = c :: r := by
  fun_cases Qualified.parts cs with
  | case1 => simp [Qualified.parts] at hparts
  | case2 d r hno next others hnext =>
    rw [Qualified.parts, hnext] at hparts
    · exact ⟨r, by rw [(List.cons.inj (List.cons.inj hparts).1).1]⟩
    · exact hno
  | case3 d r hno hnext => exact absurd hnext (parts_ne_nil r)
  | case4 => simp [Qualified.parts] at hparts

/-- The reader of words passes over a plain character, and over nothing before it. -/
theorem word_cons (hc : isPlainPart c = true) :
    Lexer.word (c :: cs) = (c :: cs, []) ↔ Lexer.word cs = (cs, []) := by
  have hpart := isWordPart_of_isPlainPart hc
  rw [Lexer.word, if_pos hpart]
  · simp [Prod.ext_iff]
  · rintro d r rfl -
    revert hc
    decide

/-- Where plain characters stand up to the first separator and words between the others, the reader of
words comes to the end. -/
theorem word_of_parts (hparts : Qualified.parts cs = first :: more)
    (hfirst : first.all isPlainPart = true) (hmore : more.all Qualified.isWord = true) :
    Lexer.word cs = (cs, []) := by
  fun_induction Qualified.parts cs generalizing first more with
  | case1 rest ih =>
    -- a separator: the word after it begins with the character that the reader looks ahead for
    obtain ⟨rfl, rfl⟩ := List.cons.inj hparts
    obtain ⟨next, others, hrest⟩ := List.exists_cons_of_ne_nil (parts_ne_nil rest)
    rw [hrest, List.all_cons, Bool.and_eq_true] at hmore
    obtain ⟨d, s, rfl, hstart, hplain⟩ := exists_cons_of_isWord hmore.1
    obtain ⟨r, rfl⟩ := exists_of_parts_eq_cons hrest
    have hd : isPlainPart d = true := by
      rw [List.all_cons, Bool.and_eq_true] at hplain
      exact hplain.1
    rw [Lexer.word, if_pos hstart, (word_cons hd).1 (ih hrest hplain hmore.2)]
  | case2 c r hno next others hnext ih =>
    obtain ⟨rfl, rfl⟩ := List.cons.inj hparts
    rw [List.all_cons, Bool.and_eq_true] at hfirst
    exact (word_cons hfirst.1).2 (ih hnext hfirst.2 hmore)
  | case3 c r hno hnext => exact absurd hnext (parts_ne_nil r)
  | case4 => rfl

/-- The name of a module is one word to the reader of tokens. -/
theorem isWord_of_isModuleName (hname : Qualified.isModuleName name = true) : IsWord name := by
  obtain ⟨first, more, hparts⟩ := List.exists_cons_of_ne_nil (parts_ne_nil name.toList)
  rw [Qualified.isModuleName, hparts, List.all_cons, Bool.and_eq_true] at hname
  obtain ⟨c, s, rfl, hstart, hplain⟩ := exists_cons_of_isWord hname.1
  refine ⟨?_, word_of_parts hparts hplain hname.2⟩
  obtain ⟨r, hcs⟩ := exists_of_parts_eq_cons hparts
  rw [hcs]
  exact hstart

/-! ### The text that loads a module -/

/-- The text that the host puts the name of a module in. -/
def requireText (name : String) : String := "require " ++ name

/-- Load a module; the value is true. -/
def requiring (r : Reentry) (name : String) : Run (List Handle) := do
  r.require name
  return [← temporary (.ofBool true)]

theorem tokens_requireText (hw : IsWord name) :
    tokens (requireText name) = .ok [.word "require", .word name] := by
  have hname : Lexes (name.toList ++ []) [.word name] := .bareword hw trivial rfl .nil
  have hbreaks : Breaks (' ' :: (name.toList ++ [])) := ⟨by decide, by decide⟩
  have hall : Lexes ("require".toList ++ ' ' :: (name.toList ++ [])) _ :=
    .word (by decide) (by decide) hbreaks (.blank (by decide) hname)
  exact tokens_of_lexes (by simpa [requireText] using hall)

/-- Whatever a word means elsewhere, after `require` it is the name of a module. -/
theorem reads_requireText (hw : IsWord name) : Reads (requireText name) (.require name) :=
  ⟨_, tokens_requireText hw, rfl⟩

/-- The values of the text are those of a single load. -/
theorem values_requireText (hw : IsWord name) (r : Reentry) (want : Want) :
    values r (requireText name) want = requiring r name :=
  (reads_requireText hw).values_eq r want

end Source

/-! ### How the load ends -/

variable {lib : Library} {P : Promise} {depth : Nat} {name : String} {m m' m₁ : Machine} {e : Exit}

theorem Machine.Gains.errorTrue (hg : m.Gains m') (hm : m.Sound P) : m'.errorTrue = m.errorTrue := by
  have hglobal : m'.errorHandle? = m.errorHandle? := by
    rw [errorHandle?, errorHandle?, global?, global?, glob?, glob?, hg.symbols]
  cases hh : m.errorHandle? with
  | none => simp only [Machine.errorTrue, hglobal, hh, Option.any_none]
  | some h =>
    rw [errorTrue_of_handle hh, errorTrue_of_handle (hglobal.trans hh), truthAt, truthAt,
      hg.body (hm.bounded _ _ hh)]

namespace Library

/-- The load of a module in the scope of a call from host code, where `$@` is false. -/
def load (lib : Library) (depth : Nat) (name : String) (m : Machine) :
    EStateM.Result Exit Machine Unit :=
  (lib.reentry depth).require name m.enter.saveTemps.cleared

/-- The host has loaded a module. -/
def Requires (lib : Library) (depth : Nat) (name : String) (m : Machine) : Prop :=
  ∃ m', (Host.require (lib.reentry (depth + 1)) name).run m = .ok (.ok ()) m'

/-- The host has failed to load a module, with an exception. -/
def Refuses (lib : Library) (depth : Nat) (name : String) (m : Machine) : Prop :=
  Host.Dies (lib.reentry (depth + 1)) (.source (Source.requireText name)) [] .void
    Host.collectNothing m

/-- The load leaves a sound machine, however it ends. -/
theorem load_minds (hlib : lib.Minds P) (depth : Nat) (hm : m.Sound P) (name : String) :
    (minding P P.quiet).Ends m.enter.saveTemps.cleared (lib.load depth name m) ∧
      m.enter.saveTemps.cleared.Sound P ∧ m.enter.saveTemps.cleared.errorTrue = false := by
  have hopened : m.enter.saveTemps.Sound P := hm.drifts (drifts_still (by rfl) hm)
  exact ⟨(reentry_minds hlib depth).require name _, hopened.clear⟩

/-- What returns from the load is the body of the call, but for the value that it leaves. -/
theorem bodyEnds_of_load (hw : Source.IsWord name) (hm₁ : m₁.Sound P)
    (hload : lib.load depth name m = .ok () m₁) :
    ∃ n m₂, lib.BodyEnds depth (.source (Source.requireText name)) [] .void m (.ok n m₂) ∧
      m₂.Sound P ∧ m₂.errorTrue = m₁.errorTrue := by
  let m₂ := (m₁.allocMortal (.scalar (.ofBool true))).2
  have halloc : m₁.Drifts (m₁.alloc (.scalar (.ofBool true))).2 :=
    .alloc hm₁.tame (Body.formed_scalar.2 (Scalar.formed_ofBool true))
  have hm₂ : (m₁.alloc (.scalar (.ofBool true))).2.Sound P := hm₁.drifts halloc
  have hvalues : Source.values (lib.reentry depth) (Source.requireText name) .void
      m.enter.saveTemps.cleared = .ok [m₁.heap.next] m₂ := by
    have hrun : (lib.reentry depth).require name m.enter.saveTemps.cleared = .ok () m₁ := hload
    rw [Source.values_requireText hw, Source.requiring, Run.bind_of_ok hrun]
    rfl
  refine ⟨0, (m₂.pushAll [m₁.heap.next]).truncate m.enter.saveTemps.height,
    ⟨_, _, m.enter.saveTemps, rfl, ?_⟩, hm₂.drifts (drifts_still (by rfl) hm₂), ?_⟩
  · show Source.results _ _ _ _ m.enter.saveTemps.cleared = _
    rw [Source.results, Run.bind_of_ok hvalues]
    rfl
  · exact (Gains.allocMortal m₁ _).errorTrue hm₁

theorem bodyEnds_of_load_error (hw : Source.IsWord name)
    (hload : lib.load depth name m = .error e m₁) :
    lib.BodyEnds depth (.source (Source.requireText name)) [] .void m (.error e m₁) := by
  refine bodyEnds_of_source ?_
  rw [Source.values_requireText hw, Source.requiring, Run.bind_apply]
  rw [load] at hload
  rw [hload]

/-- A load that returns or raises is a success for the host where `$@` is false at its end, and a
failure where `$@` is true. -/
theorem load_decides {n : Nat} {m₂ : Machine} (hm₂ : m₂.Sound P)
    (hscope : Host.inScope (lib.reentry (depth + 1)) (.source (Source.requireText name)) [] .void
      Host.collectNothing m.enter.saveTemps = Host.outcome n Host.collectNothing m₂) :
    (lib.Requires depth name m ↔ m₂.errorTrue = false) ∧
      (lib.Refuses depth name m ↔ m₂.errorTrue = true) := by
  have hdies : lib.Refuses depth name m ↔ m₂.errorTrue = true :=
    Host.dies_iff Manner.Drops.collectNothing hm₂ hscope
  refine ⟨⟨fun ⟨m', hrun⟩ => ?_, fun hq => Host.returns_of_not_true hm₂ hscope hq⟩, hdies⟩
  by_contra hq
  obtain ⟨v, m'', hfail⟩ := hdies.2 (by simpa using hq)
  have hrun' : (Host.call (lib.reentry (depth + 1)) (.source (Source.requireText name)) [] .void
      Host.collectNothing).run m = .ok (.ok ()) m' := hrun
  rw [hrun'] at hfail
  cases hfail

/-- The verdict of the host on a load: it goes by `$@` at the end, which is false in modules that leave
a false one so and true after what raises true values, and other exits pass. -/
def Judges (lib : Library) (P : Promise) (depth : Nat) (name : String) (m : Machine) : Prop :=
  match lib.load depth name m with
  | .ok () m₁ =>
    (lib.Requires depth name m ↔ m₁.errorTrue = false) ∧
    (lib.Refuses depth name m ↔ m₁.errorTrue = true) ∧ (P.quiet → m₁.errorTrue = false)
  | .error .raised m₁ =>
    (lib.Requires depth name m ↔ m₁.errorTrue = false) ∧
    (lib.Refuses depth name m ↔ m₁.errorTrue = true) ∧ (P.loud → m₁.Loud)
  | .error e m₁ => (Host.require (lib.reentry (depth + 1)) name).run m = .error e m₁

theorem judges (hlib : lib.Minds P) (depth : Nat) (hw : Source.IsWord name) (hm : m.Sound P) :
    lib.Judges P depth name m := by
  obtain ⟨hend, hcleared, hfalse⟩ := load_minds hlib depth hm name
  unfold Judges
  cases hload : lib.load depth name m with
  | ok u m₁ =>
    rw [hload] at hend
    obtain ⟨hm₁, hquiet⟩ := hend hcleared
    obtain ⟨n, m₂, hbody, hm₂, hsame⟩ := bodyEnds_of_load hw hm₁ hload
    obtain ⟨hrequires, hrefuses⟩ := load_decides hm₂ (hbody.inScope_of_ok _)
    rw [hsame] at hrequires hrefuses
    exact ⟨hrequires, hrefuses, fun hq => hquiet hq hfalse⟩
  | error e m₁ =>
    rw [hload] at hend
    have hbody := bodyEnds_of_load_error hw hload
    obtain ⟨hm₁, hloud⟩ := hend hcleared
    have hexit (he : e ≠ .raised) :
        (Host.require (lib.reentry (depth + 1)) name).run m = .error e m₁ := by
      have hscope := hbody.inScope_of_error he Host.collectNothing
      show (Host.call _ (.source (Source.requireText name)) _ _ _).run m = _
      rw [Host.call_apply, hscope]
    cases e with
    | raised =>
      obtain ⟨n, m₂, hscope, hm₂, hsame⟩ := hbody.inScope_of_raised hm₁ Host.collectNothing
      obtain ⟨hrequires, hrefuses⟩ := load_decides hm₂ hscope
      rw [hsame] at hrequires hrefuses
      exact ⟨hrequires, hrefuses, fun hl => hloud hl rfl⟩
    | aborted message => exact hexit (by simp)
    | exhausted => exact hexit (by simp)

/-- A load that returns or raises and leaves a false `$@`. -/
def LoadsQuietly (lib : Library) (depth : Nat) (name : String) (m : Machine) : Prop :=
  ∃ m₁, m₁.errorTrue = false ∧
    (lib.load depth name m = .ok () m₁ ∨ lib.load depth name m = .error .raised m₁)

theorem Judges.requires_iff (h : lib.Judges P depth name m) :
    lib.Requires depth name m ↔ lib.LoadsQuietly depth name m := by
  unfold Judges at h
  unfold LoadsQuietly
  split at h
  next m₁ hload => simp [h.1, hload]
  next m₁ hload => simp [h.1, hload]
  next e m₁ he hload =>
    have hno : ¬lib.Requires depth name m := fun ⟨m', hrun⟩ => by
      rw [h] at hrun
      cases hrun
    simp only [hno, hload, false_iff]
    rintro ⟨m₂, -, hend | hend⟩
    · cases hend
    · cases hend
      exact he rfl

/-! ### Modules that run nothing -/

/-- The modules of the interpreter in use, and which of them are loaded. -/
def shelf (m : Machine) : List String × List (String × Module) := (m.interp.loaded, m.interp.modules)

theorem shelf_global (m : Machine) (sigil : Sigil) (n : String) :
    shelf (m.global sigil n).2 = shelf m := by
  obtain ⟨symbols, live, hi⟩ := (Fades.global m sigil n).interp
  rw [shelf, hi]
  rfl

theorem shelf_keptByRelease (m : Machine) : KeptByRelease (fun m' => shelf m' = shelf m) fun _ => True where
  records _ _ _ _ _ := trivial
  lower _ _ hm := hm
  strip _ _ hm := hm
  noteFreed _ _ hm := hm
  revive m' n g hm _ _ := (shelf_global m' .scalar n).trans hm
  unclaim _ _ hm := hm
  touch m' h g hm _ _ := by
    unfold Machine.retain
    split <;> exact hm
  vacate _ _ hm := hm

theorem shelf_cleared (m : Machine) : shelf m.cleared = shelf m := by
  have hslot : shelf m.errorSlot.2 = shelf m := by
    unfold Machine.errorSlot
    cases m.interp.error with
    | some h => rfl
    | none => exact shelf_global m .scalar "@"
  unfold Machine.cleared Machine.setError
  cases hb : m.errorSlot.2.body m.errorSlot.1 with
  | scalar former =>
    simp only [hb]
    let m₁ := m.errorSlot.2.setBody m.errorSlot.1 (.scalar (.ofByteText ⟨[], false⟩))
    have hreleased : shelf (m₁.releaseAll former.owned) = shelf m₁ :=
      (shelf_keptByRelease m₁).releaseAll former.owned rfl
    obtain ⟨log, hlog⟩ := (m₁.releaseAll former.owned).noteWrite_eq m.errorSlot.1
    rw [Machine.replaceScalar, hlog]
    exact hreleased.trans hslot
  | _ => simp only [hb]; exact hslot

/-- What is loaded is not loaded again, and the host takes that for a success. -/
theorem requires_of_loaded (hlib : lib.Minds P) (hw : Source.IsWord name) (hm : m.Sound P)
    (hloaded : name ∈ m.interp.loaded) : lib.Requires (depth + 1) name m := by
  let m₀ := m.enter.saveTemps.cleared
  have hshelf : m₀.interp.loaded = m.interp.loaded :=
    congrArg Prod.fst (shelf_cleared m.enter.saveTemps)
  have hload : lib.load (depth + 1) name m = .ok () m₀ := by
    show requireWith _ name m₀ = _
    rw [requireWith, Run.look_bind, hshelf, if_pos (by simpa using hloaded)]
    rfl
  obtain ⟨-, -, hfalse⟩ := load_minds hlib depth hm name
  exact (judges hlib (depth + 1) hw hm).requires_iff.2 ⟨m₀, hfalse, .inl hload⟩

/-- The host fails to load a module that is not there. -/
theorem refuses_of_unknown {held : List Handle} (hlib : lib.Minds P) (hw : Source.IsWord name)
    (hm : m.Sound P) (hfit : m.Fit held) (hloaded : name ∉ m.interp.loaded)
    (hmodules : m.interp.modules.find? (·.1 == name) = none) :
    lib.Refuses (depth + 1) name m := by
  let m₀ := m.enter.saveTemps.cleared
  have hshelf : shelf m₀ = shelf m := shelf_cleared m.enter.saveTemps
  have hload : lib.load (depth + 1) name m
      = .error .raised (m₀.setErrorText (Fault.noModule name).message) := by
    show requireWith _ name m₀ = _
    have hno : m₀.interp.loaded.contains name = false := by
      rw [show m₀.interp.loaded = m.interp.loaded from congrArg Prod.fst hshelf]
      simpa using hloaded
    have hfind : m₀.interp.modules.find? (·.1 == name) = none := by
      rw [show m₀.interp.modules = m.interp.modules from congrArg Prod.snd hshelf, hmodules]
    simp only [requireWith, Run.look_bind, hno, hfind, Bool.false_eq_true, if_false, Run.raise_apply]
  have hopened : m.enter.saveTemps.Fit held := hfit.still rfl rfl
  have hcleared : m₀.Bears (.ofByteText ⟨[], false⟩) held := hopened.setError (by simp)
  have hraised := hcleared.toFit.setErrorText (Fault.noModule name).message
  have hjudged := judges hlib (depth + 1) hw hm
  unfold Judges at hjudged
  rw [hload] at hjudged
  exact hjudged.2.1.2 (hraised.errorTrue_eq.trans (Fault.telling (by simp)))

/-! ### The modules of an interpreter that starts -/

/-- Modules are loaded one after the other, each of them quietly. -/
def LoadsAll (lib : Library) (depth : Nat) : List String → Machine → Prop
  | [], _ => True
  | name :: rest, m => lib.LoadsQuietly depth name m ∧
    ∀ m₁, (Host.require (lib.reentry (depth + 1)) name).run m = .ok (.ok ()) m₁ →
      LoadsAll lib depth rest m₁

/-- The modules that an interpreter loads when it starts. -/
def preload (lib : Library) (depth : Nat) (names : List String) : Bridge Unit :=
  names.forM fun name => Host.require (lib.reentry (depth + 1)) name

theorem sound_of_require (hlib : lib.Minds P) (hm : m.Sound P)
    (h : (Host.require (lib.reentry (depth + 1)) name).run m = .ok (.ok ()) m') : m'.Sound P := by
  have hcall : (Host.require (lib.reentry (depth + 1)) name).Moves (minding P False) :=
    (reentry_minds hlib (depth + 1)).hostCall (.source (Source.requireText name)) [] .void
      Manner.Drops.collectNothing
  have hend := hcall m
  rw [h] at hend
  exact (hend hm).1

theorem preload_iff (hlib : lib.Minds P) (depth : Nat) {names : List String}
    (hnames : ∀ name ∈ names, Source.IsWord name) (hm : m.Sound P) :
    (∃ m', (lib.preload depth names).run m = .ok (.ok ()) m') ↔ lib.LoadsAll depth names m := by
  induction names generalizing m with
  | nil => exact ⟨fun _ => trivial, fun _ => ⟨m, rfl⟩⟩
  | cons name rest ih =>
    have hname := (judges hlib depth (hnames name List.mem_cons_self) hm).requires_iff
    have hrest {m₁ : Machine} (hm₁ : m₁.Sound P) :=
      ih (fun n hn => hnames n (List.mem_cons_of_mem _ hn)) hm₁
    have hcons : (lib.preload depth (name :: rest)).run m
        = (Host.require (lib.reentry (depth + 1)) name >>= fun _ => lib.preload depth rest).run m := rfl
    rw [hcons]
    constructor
    · rintro ⟨m', hrun⟩
      obtain ⟨_, m₁, hfirst, hothers⟩ := Bridge.bind_ok hrun
      refine ⟨hname.1 ⟨m₁, hfirst⟩, fun m₂ hsecond => ?_⟩
      cases hfirst.symm.trans hsecond
      exact (hrest (sound_of_require hlib hm hfirst)).1 ⟨m', hothers⟩
    · rintro ⟨hquiet, hall⟩
      obtain ⟨m₁, hrun⟩ := hname.2 hquiet
      obtain ⟨m', hrun'⟩ := (hrest (sound_of_require hlib hm hrun)).2 (hall m₁ hrun)
      exact ⟨m', (Bridge.run_bind hrun).trans hrun'⟩

end Library

theorem Settings.isModuleName_of_valid {s : Settings} (hs : s.error? = none)
    (hname : name ∈ s.preload) : Qualified.isModuleName name = true := by
  unfold Settings.error? at hs
  split at hs
  · cases hs
  split at hs
  · cases hs
  rw [Option.map_eq_none_iff, List.find?_eq_none] at hs
  simpa using hs name hname

namespace Library

/-- The host and the evaluator have the same notion of a module's name. For each name that settings
accept, the text that the host evaluates is two words, the second of them the name, whatever it means
elsewhere, and its value is that of a single load of just this module. The host takes the load for a
success exactly where `$@` is false at its end, and for a failure where it is true, whether the load
has returned or raised. What is loaded already is a success and what is not there a failure. An
interpreter that starts with valid settings gets its modules exactly where each is loaded quietly. -/
theorem modules_load_as_named (hlib : lib.Minds P) (depth : Nat) :
    (∀ name, Qualified.isModuleName name = true →
      Source.tokens (Source.requireText name) = .ok [.word "require", .word name] ∧
      (∀ r want, Source.values r (Source.requireText name) want = Source.requiring r name) ∧
      ∀ m : Machine, m.Sound P → lib.Judges P depth name m ∧
        (lib.Requires depth name m ↔ lib.LoadsQuietly depth name m) ∧
        (name ∈ m.interp.loaded → lib.Requires (depth + 1) name m) ∧
        ∀ held, m.Fit held → name ∉ m.interp.loaded →
          m.interp.modules.find? (·.1 == name) = none → lib.Refuses (depth + 1) name m) ∧
    ∀ s : Settings, s.error? = none → ∀ m : Machine, m.Sound P →
      ((∃ m', (lib.preload depth s.preload).run m = .ok (.ok ()) m')
        ↔ lib.LoadsAll depth s.preload m) := by
  refine ⟨fun name hname => ?_, fun s hs m hm => ?_⟩
  · have hw := Source.isWord_of_isModuleName hname
    refine ⟨Source.tokens_requireText hw, Source.values_requireText hw, fun m hm => ?_⟩
    have hjudges := judges hlib depth hw hm
    exact ⟨hjudges, hjudges.requires_iff, requires_of_loaded hlib hw hm,
      fun held hfit => refuses_of_unknown hlib hw hm hfit⟩
  · refine preload_iff hlib depth (fun name hname => ?_) hm
    exact Source.isWord_of_isModuleName (Settings.isModuleName_of_valid hs hname)

/-- A name with parts that the evaluator has meanings of its own for is not there to be loaded, and
settings that ask for it are valid. -/
theorem relaying_refuses : relayer.Minds ⟨True, False⟩ ∧ fresh.Sound ⟨True, False⟩ ∧
    ({ Settings.standard with preload := ["my::qw"] } : Settings).error? = none ∧
    relayer.Refuses 4 "my::qw" fresh ∧
    ¬∃ m', (relayer.preload 4 ["my::qw"]).run fresh = .ok (.ok ()) m' := by
  have hlib := relayer_minds ⟨True, False⟩
  have hm := sound_fresh ⟨True, False⟩
  have hname : Qualified.isModuleName "my::qw" = true := by decide +kernel
  have hvalid : ({ Settings.standard with preload := ["my::qw"] } : Settings).error? = none := by
    decide +kernel
  obtain ⟨-, -, hnamed⟩ := (modules_load_as_named hlib 3).1 "my::qw" hname
  have hrefuses : relayer.Refuses 4 "my::qw" fresh :=
    (hnamed fresh hm).2.2.2 [] fit_fresh (by decide +kernel) (by decide +kernel)
  obtain ⟨hnames, hsettings⟩ := modules_load_as_named hlib 4
  refine ⟨hlib, hm, hvalid, hrefuses, fun hstarts => ?_⟩
  obtain ⟨hquiet, -⟩ := (hsettings _ hvalid fresh hm).1 hstarts
  obtain ⟨m', hrun⟩ := ((hnames "my::qw" hname).2.2 fresh hm).2.1.2 hquiet
  obtain ⟨v, m'', hfail⟩ := hrefuses
  cases hrun.symm.trans hfail

end Library

end ValueMachine

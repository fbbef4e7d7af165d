import ValueMachine.Proofs.Conversions.Failings
import ValueMachine.Proofs.Exceptions.Crossing
import ValueMachine.Host.Stock

/-! Parameters that do not convert. The call of a sub with typed parameters fails with the first
parameter that does not convert, and its body is not run. The exception tells the position of that
parameter, unless the failure lies in an element of a vector: then it tells the position of the
element in the innermost vector. -/

namespace ValueMachine

open Machine Manner

/-! ### Texts -/

namespace Failure

/-- Nothing is trimmed before the last character that ends no line. -/
theorem trimLines_append {s : String} (hs : s.toList.getLast? ≠ some '\n') (t : String) :
    trimLines (s ++ t) = s ++ trimLines t := by
  have hkeep : s.toList.reverse.dropWhile (· == '\n') = s.toList.reverse := by
    rw [← List.head?_reverse] at hs
    cases hr : s.toList.reverse with
    | nil => rfl
    | cons c cs =>
      rw [hr] at hs
      exact List.dropWhile_cons_of_neg fun hc => hs (congrArg some (eq_of_beq hc))
  apply String.toList_inj.1
  rw [trimLines, trimLines, String.toList_ofList, String.toList_append, String.toList_append,
    List.reverse_append, List.dropWhile_append, String.toList_ofList]
  split
  case isTrue h =>
    rw [List.isEmpty_iff.1 h, hkeep, List.reverse_reverse]
    exact (List.append_nil _).symm
  case isFalse => rw [List.reverse_append, List.reverse_reverse]

theorem getLast?_append_ne {t : String} (s : String) (ht : t.toList ≠ [])
    (hline : '\n' ∉ t.toList) : (s ++ t).toList.getLast? ≠ some '\n' := by
  rw [String.toList_append, List.getLast?_append_of_ne_nil _ ht]
  exact fun h => hline (List.mem_of_getLast? h)

theorem toList_numeral (n : Nat) : (toString n).toList = Nat.toDigits 10 n := by
  simp [Nat.repr]

/-- A text that ends with a number is not trimmed. -/
theorem trimLines_numeral (s : String) (n : Nat) : trimLines (s ++ toString n) = s ++ toString n := by
  have hne : (toString n).toList ≠ [] := by
    rw [toList_numeral]
    exact Nat.toDigits_ne_nil
  have hline : '\n' ∉ (toString n).toList := by
    rw [toList_numeral]
    exact fun h => absurd (Nat.isDigit_of_mem_toDigits (by decide) (by decide) h) (by decide)
  have htrim := trimLines_append (getLast?_append_ne s hne hline) ""
  rwa [String.append_empty, show trimLines "" = "" from rfl, String.append_empty] at htrim

/-- What tells a position is a missing argument, or a failure of an argument. -/
theorem of_position? {f : Failure} {n : Nat} (hf : f.position? = some n) :
    f = noArgument n ∨ ∃ source, f = argument n source := by
  cases f with
  | noArgument p => cases hf; exact .inl rfl
  | argument i source => cases hf; exact .inr ⟨source, rfl⟩
  | _ => cases hf

end Failure

/-! ### Parameters -/

namespace Arguments

variable {args : Arguments} {m m' : Machine} {e : Failure}

/-- The reading of an argument, apart from its position in the failure. -/
def convert (args : Arguments) (t : HostType) (position : Nat) : Bridge t.Value :=
  match args.handles[position]? with
  | some h => t.read .copy h
  | none => HostType.missing position t

/-- The first of some parameters that does not convert is at a position; what fails is at the end of a
path in it. A missing argument only converts to an option. -/
def Misfits (args : Arguments) (ts : List HostType) (m : Machine) (position : Nat) (path : List Nat)
    (f : Failure) : Prop :=
  ∃ t m₁, Reaches (fun p m m' => ∃ v : p.1.Value, (args.convert p.1 p.2).run m = .ok (.ok v) m')
      ts.zipIdx m position (t, position) m₁ ∧
    match args.handles[position]? with
    | some h => t.Fails .copy h m₁ path f ∧ f.position? = none
    | none => (∀ u, t ≠ .option u) ∧ path = [] ∧ f = .noArgument position

theorem missing_failed {t : HostType} {position : Nat}
    (hr : (HostType.missing position t).run m = .ok (.error e) m') :
    (∀ u, t ≠ .option u) ∧ e = .noArgument position := by
  cases t with
  | option t => cases hr
  | _ => cases hr; exact ⟨nofun, rfl⟩

/-- Parameters from a position on that cannot be read fail with the first one that cannot. -/
theorem readAll_failed {ts : List HostType} {start : Nat}
    (hr : (args.readAll ts start).run m = .ok (.error e) m') :
    ∃ j t m₁ g m₂, Reaches (fun p m m' => ∃ v : p.1.Value, (args.convert p.1 p.2).run m
        = .ok (.ok v) m') (ts.zipIdx start) m j (t, start + j) m₁ ∧
      (args.convert t (start + j)).run m₁ = .ok (.error g) m₂ ∧ e = g.atArgument (start + j) := by
  induction ts generalizing start m m' with
  | nil => cases hr
  | cons t ts ih =>
    rw [List.zipIdx_cons]
    rcases Bridge.bind_failed hr with hread | ⟨v, m₁, hread, hrest⟩
    · obtain ⟨g, hg, rfl⟩ := Bridge.atArgument_failed hread
      exact ⟨0, t, m, g, m', .here, hg, rfl⟩
    · rcases Bridge.bind_failed hrest with hguarded | ⟨vs, m₂, -, hpair⟩
      · obtain ⟨m₂, htail, -⟩ := Bridge.guarding_failed hguarded
        obtain ⟨j, t', m₃, g, m₄, hreaches, hg, rfl⟩ := ih htail
        rw [Nat.add_assoc, Nat.add_comm 1] at hreaches hg
        refine ⟨j + 1, t', m₃, g, m₄, .later ⟨v, Bridge.atArgument_ok hread⟩ hreaches, hg, ?_⟩
        rw [Nat.add_assoc, Nat.add_comm 1]
      · cases hpair

/-- The failure of parameters tells the last position on the way to what does not convert. -/
theorem readAll_misfits {ts : List HostType} (hr : (args.readAll ts 0).run m = .ok (.error e) m') :
    ∃ position path f, args.Misfits ts m position path f ∧
      e = (f.along path).atArgument position ∧
      e.position? = some (path.getLast?.getD position) := by
  obtain ⟨j, t, m₁, g, m₂, hreaches, hg, rfl⟩ := readAll_failed hr
  rw [Nat.zero_add] at hreaches hg ⊢
  rw [convert] at hg
  cases hat : args.handles[j]? with
  | some h =>
    rw [hat] at hg
    obtain ⟨path, f, hf, hnone, rfl⟩ := HostType.read_failed hg
    refine ⟨j, path, f, ⟨t, m₁, hreaches, ?_⟩, rfl, ?_⟩
    · rw [hat]
      exact ⟨hf, hnone⟩
    · rw [Failure.position?_atArgument, Failure.position?_along hnone]
  | none =>
    rw [hat] at hg
    obtain ⟨ht, rfl⟩ := missing_failed hg
    refine ⟨j, [], .noArgument j, ⟨t, m₁, hreaches, ?_⟩, rfl, rfl⟩
    rw [hat]
    exact ⟨ht, rfl, rfl⟩

theorem Misfits.position_lt {ts : List HostType} {position : Nat} {path : List Nat} {f : Failure}
    (h : args.Misfits ts m position path f) : position < ts.length := by
  obtain ⟨t, m₁, hreaches, -⟩ := h
  simpa using (List.getElem?_eq_some_iff.1 hreaches.getElem?).1

/-- A parameter of a type without vectors fails with itself. -/
theorem Misfits.path_eq_nil {ts : List HostType} {position : Nat} {path : List Nat} {f : Failure}
    (h : args.Misfits ts m position path f) (ht : ∀ t, ts[position]? = some t → t.Unindexed) :
    path = [] := by
  obtain ⟨t, m₁, hreaches, h⟩ := h
  have htype : ts[position]? = some t := by
    have := hreaches.getElem?
    rw [List.getElem?_zipIdx] at this
    simpa using this
  split at h
  · exact h.1.path_eq_nil (ht t htype)
  · exact h.2.1

end Arguments

/-! ### Calls -/

namespace Failure

/-- A text that names a sub and tells a position. -/
def Tells (name : String) (position : Nat) (text : String) : Prop :=
  text = name ++ ": " ++ ("no argument on the stack at position " ++ toString position) ++ "\n" ∨
    ∃ rest, text = name ++ ": " ++ ("argument " ++ toString position ++ ": " ++ rest) ++ "\n"

/-- The text that is raised for a failure tells the position that the failure tells. -/
theorem tells_of_position? {e : Failure} {n : Nat} {name message : String} {m m₁ : Machine}
    (he : e.position? = some n) (hmessage : e.message m = .ok message m₁) :
    Tells name n (trimLines (name ++ ": " ++ message) ++ "\n") := by
  rcases of_position? he with rfl | ⟨source, rfl⟩
  · cases hmessage
    refine .inl ?_
    rw [← String.append_assoc, trimLines_numeral]
  · obtain ⟨told, m₂, -, hreturn⟩ := Run.bind_ok hmessage
    cases hreturn
    have hlast := getLast?_append_ne (t := ": ") (name ++ ": " ++ ("argument " ++ toString n))
      (by decide) (by decide)
    refine .inr ⟨trimLines told, ?_⟩
    rw [← String.append_assoc, ← String.append_assoc, trimLines_append hlast]
    simp only [String.append_assoc]

end Failure

namespace Closure

/-- A closure whose parameters do not convert ends before its body. -/
theorem typed_misfits {ts : List HostType} (body : Reentry → Parameters ts → Bridge (List Datum))
    {r : Reentry} {args : Arguments} {e : Failure} {m m' : Machine}
    (harity : args.handles.length ≤ ts.length)
    (hread : (args.readAll ts 0).run m = .ok (.error e) m') :
    (typed ts body r args).run m = .ok (.error e) m' := by
  rw [typed, Arguments.checkArity, if_neg (by omega), pure_bind, Bridge.bind_apply, hread]

end Closure

namespace Library

variable {lib : Library} {r : Reentry} {sub : Handle} {m m₁ : Machine} {ts : List HostType}
  {body : Reentry → Parameters ts → Bridge (List Datum)} {e : Failure} {P : Promise}

theorem sound_of_readAll {ended : Except Failure (Parameters ts)} (hm : m.Sound P)
    (hread : (m.arguments.readAll ts 0).run m.dropMark = .ok ended m₁) : m₁.Sound P := by
  have hdrops : (minding P False).Drops := minding_drops
  have hend := hdrops.readAll m.arguments ts 0 m.dropMark
  rw [hread] at hend
  have hmark : m.dropMark.Sound P := hm.drifts (drifts_still (by rfl) hm)
  cases ended with
  | ok vs => exact (hend hmark).1
  | error e => exact (hend hmark).1

/-- Where the parameters of a sub do not convert, its call raises an exception, whatever its body is.
The exception names the position of the first parameter that does not convert, unless what fails in it
is an element of a vector: then it names the position of the element in the innermost vector. -/
theorem misfit_raised (hm : m.Sound P) (hclosure : lib.closure? m sub = some (Closure.typed ts body))
    (harity : m.arguments.handles.length ≤ ts.length)
    (hread : (m.arguments.readAll ts 0).run m.dropMark = .ok (.error e) m₁) :
    ∃ position path f text m', m.arguments.Misfits ts m.dropMark position path f ∧
      (∀ t, ts[position]? = some t → t.Unindexed → path = []) ∧
      e.position? = some (path.getLast?.getD position) ∧
      Failure.Tells (subName m sub) (path.getLast?.getD position) text ∧
      (∀ (lib' : Library) body', lib'.closure? m sub = some (Closure.typed ts body') →
        lib'.enterClosure r sub m = .error .raised m') ∧
      ∀ held, m₁.Fit (e.held.map (·.handle) ++ held) → m'.Bears (.ofText text) held := by
  obtain ⟨position, path, f, hmisfits, -, hposition⟩ := Arguments.readAll_misfits hread
  obtain ⟨message, m₂, hmessage, -⟩ := leaves_message e m₁ (sound_of_readAll hm hread).tame
  have hdied : ∀ v, e ≠ .died v := by
    rintro v rfl
    cases hposition
  have hends (lib' : Library) body'
      (hclosure' : lib'.closure? m sub = some (Closure.typed ts body')) :
      lib'.ClosureEnds r sub m (.ok (.error e) m₁) :=
    ⟨_, hclosure', Closure.typed_misfits body' harity hread⟩
  have hraises (lib' : Library) body'
      (hclosure' : lib'.closure? m sub = some (Closure.typed ts body')) :
      lib'.enterClosure r sub m = .error .raised ((m₂.setErrorText
        (Failure.trimLines (subName m sub ++ ": " ++ message) ++ "\n")).dropAll e.held) := by
    rw [(hends lib' body' hclosure').enterClosure_apply (.ok (.error e))]
    exact raiseFailure_apply hdied hmessage
  refine ⟨position, path, f, _, _, hmisfits, fun t ht hi => hmisfits.path_eq_nil fun u hu => ?_,
    hposition, Failure.tells_of_position? hposition hmessage, hraises, fun held hfit => ?_⟩
  · cases ht.symm.trans hu
    exact hi
  · obtain ⟨m', hraise, hbears⟩ := (hends lib body hclosure).raises_of_failed hdied hfit hmessage
    cases (hraises lib body hclosure).symm.trans hraise
    exact hbears

/-- A sub of one vector is about to be called with an array of a number and an undefined value. -/
def echoing : Machine :=
  let m := (fresh.newSub (some "echo_vec") .closure "host" (some (.closure "echo_vec" []))).2
  let m := ((m.alloc (.scalar (.ofInt64 1))).2.alloc (.scalar .undefined)).2
  let m := (m.alloc (.array [some ⟨5⟩, some ⟨6⟩])).2
  let m := (m.alloc (.scalar (.ofTarget ⟨7⟩))).2
  { m.pushMark.push ⟨8⟩ with alive := [m.here] }

theorem echoing_sound (P : Promise) : echoing.Sound P := by
  have halloc {m : Machine} {b : Body} (hm : m.Sound P) (hb : b.Formed) : (m.alloc b).2.Sound P :=
    hm.drifts (.alloc hm.tame hb)
  have hsub : ((fresh.newSub (some "echo_vec") .closure "host"
      (some (.closure "echo_vec" []))).2).Sound P :=
    (sound_fresh P).drifts (.newSub (sound_fresh P).tame (sound_fresh P).bounded _ _ _ _)
  have hone := halloc (b := .scalar (.ofInt64 1)) hsub (by simp [Body.Formed])
  have hvalues := halloc (b := .scalar .undefined) hone (by simp [Body.Formed])
  have harray := halloc (b := .array [some ⟨5⟩, some ⟨6⟩]) hvalues (by simp [Body.Formed])
  have hreference := halloc (b := .scalar (.ofTarget ⟨7⟩)) harray (by simp [Body.Formed])
  exact hreference.drifts (drifts_still (by rfl) hreference)

/-- A failure that tells a position, and leaves all in order. -/
def FailsAt (position : Nat) (held : List Handle) (m : Machine) : Except Failure α → Prop
  | .ok _ => False
  | .error e => e.position? = some position ∧ m.Orderly (e.held.map (·.handle) ++ held) ∧
      m.errorHandle?.any (fun h => !(m.cell h).immortal) = true

instance (position : Nat) (held : List Handle) (m : Machine) (ended : Except Failure α) :
    Decidable (FailsAt position held m ended) := by
  cases ended <;> unfold FailsAt <;> infer_instance

/-- The vector is the first parameter, but the exception names the position of its second element. -/
theorem misfit_echoing : echoing.Sound ⟨False, False⟩ ∧ ∃ e m₁ path f text m',
    Stock.library.closure? echoing ⟨4⟩ = some (Stock.echo (.vec Stock.integer)) ∧
    (echoing.arguments.readAll [.vec Stock.integer] 0).run echoing.dropMark = .ok (.error e) m₁ ∧
    echoing.arguments.Misfits [.vec Stock.integer] echoing.dropMark 0 path f ∧
    Stock.library.enterClosure (Stock.library.reentry 1) ⟨4⟩ echoing = .error .raised m' ∧
    Failure.Tells "main::echo_vec" 1 text ∧ m'.Bears (.ofText text) [⟨8⟩] := by
  have hsound := echoing_sound ⟨False, False⟩
  have hclosure : Stock.library.closure? echoing ⟨4⟩ = some (Stock.echo (.vec Stock.integer)) := by
    rfl
  have hyields : Run.Yields (echoing.arguments.readAll [.vec Stock.integer] 0).run echoing.dropMark
      fun ended m₁ => FailsAt 1 [⟨8⟩] m₁ ended := by decide +kernel
  obtain ⟨ended, m₁, hread, hfails⟩ := hyields.exists_ok
  cases ended with
  | ok vs => cases hfails
  | error e =>
    obtain ⟨hposition, horderly, hslot⟩ := hfails
    obtain ⟨position, path, f, text, m', hmisfits, -, htold, htells, hraises, hbears⟩ :=
      misfit_raised (r := Stock.library.reentry 1) hsound hclosure (by decide) hread
    have hzero : position = 0 := by simpa using hmisfits.position_lt
    subst hzero
    rw [Option.some_inj.1 (htold.symm.trans hposition)] at htells
    have hfit : m₁.Fit (e.held.map (·.handle) ++ [⟨8⟩]) := by
      obtain ⟨k, hk, hi⟩ := (Option.any_eq_true _ _).1 hslot
      exact ⟨sound_of_readAll hsound hread, ⟨[], by simpa using horderly⟩, k, hk, by simpa using hi⟩
    exact ⟨hsound, e, m₁, path, f, text, m', hclosure, hread, hmisfits, hraises _ _ hclosure, htells,
      hbears _ hfit⟩

end Library

end ValueMachine

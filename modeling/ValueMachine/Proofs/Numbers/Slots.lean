import ValueMachine.Proofs.Documents.Converting
import ValueMachine.Proofs.Documents.Numerals

/-! Strict readings of a scalar. Where no hook runs before a read, what a strict reading gives depends on
the slots of the scalar alone: the number that it holds, or that its text is as a whole. The machine
stays as it is, or the failure holds the scalar. -/

namespace ValueMachine

open Machine Bridge

variable {α β : Type} {m : Machine} {h : Handle} {s : Scalar} {want : String}

/-- The number that a scalar is. A reference is none, and a text without a number beside it is one only
as a whole. -/
def Scalar.strict? (s : Scalar) : Option Number :=
  if s.target.isSome then none
  else if s.int.isSome || s.float.isSome then some s.number
  else s.text.bind fun t => Number.ofBytes? t.bytes

namespace IntType

/-- The widest type with the same signs. -/
def widest (t : IntType) : IntType := if t.isSigned then .i64 else .u64

/-- The integer of the widest type that a number is. -/
def wide? (t : IntType) (n : Number) : Option Int := if t.isSigned then n.toSigned? else n.toUnsigned?

variable {t : IntType} {n : Int}

theorem contains_i64_iff : i64.contains n = true ↔ -2 ^ 63 ≤ n ∧ n < 2 ^ 63 := by
  have hpow : Int.ofNat (Nat.pow 2 63) = 2 ^ 63 := rfl
  simp only [contains, least, greatest, isSigned, bits, if_true, Bool.and_eq_true, decide_eq_true_eq]
  rw [hpow]
  omega

theorem contains_u64_iff : u64.contains n = true ↔ 0 ≤ n ∧ n < 2 ^ 64 := by
  have hpow : Int.ofNat (Nat.pow 2 64) = 2 ^ 64 := rfl
  simp only [contains, least, greatest, isSigned, bits, Bool.false_eq_true, if_false,
    Bool.and_eq_true, decide_eq_true_eq]
  rw [hpow]
  omega

/-- The widest signed type has what any signed type has. -/
theorem contains_i64 (ht : t.isSigned = true) (hn : t.contains n = true) : i64.contains n = true := by
  rw [contains_i64_iff]
  cases t with
  | i8 | i16 | i32 | i64 | isize =>
    simp [contains, least, greatest, isSigned, bits] at hn
    omega
  | u8 | u16 | u32 | u64 | usize => cases ht

theorem contains_u64 (ht : ¬t.isSigned = true) (hn : t.contains n = true) :
    u64.contains n = true := by
  rw [contains_u64_iff]
  cases t with
  | i8 | i16 | i32 | i64 | isize => exact absurd rfl ht
  | u8 | u16 | u32 | u64 | usize =>
    simp [contains, least, greatest, isSigned, bits] at hn
    omega

theorem contains_widest (hn : t.contains n = true) : t.widest.contains n = true := by
  unfold widest
  split
  next ht => exact contains_i64 ht hn
  next ht => exact contains_u64 ht hn

theorem wide?_whole (w : Wide) : t.wide? (.whole w) =
    if t.widest.contains w.toInt then some w.toInt else none := by
  unfold wide? widest
  split <;> rfl

/-- The type that a failure to read an integer names: the widest one with the same signs, if not even
that one has the integer. -/
def blamed (t : IntType) (n : Int) : IntType := if t.widest.contains n then t else t.widest

end IntType

theorem Wide.toInt_signed {n : Int} (hn : IntType.i64.contains n = true) :
    (Wide.signed (Int64.ofInt n)).toInt = n := by
  obtain ⟨hlo, hhi⟩ := IntType.contains_i64_iff.1 hn
  exact Int64.toInt_ofInt_of_le hlo hhi

theorem Wide.toInt_unsigned {n : Int} (hn : IntType.u64.contains n = true) :
    (Wide.ofUInt64 (UInt64.ofNat n.toNat)).toInt = n := by
  obtain ⟨hlo, hhi⟩ := IntType.contains_u64_iff.1 hn
  have hwide : Wide.ofInt n = .ofUInt64 (UInt64.ofNat n.toNat) := if_neg (by omega)
  rw [← hwide]
  exact toInt_ofInt ⟨by omega, hhi⟩

namespace Machine

/-- A value is a scalar, and no hook runs before it is read. -/
structure ReadsAs (m : Machine) (h : Handle) (s : Scalar) : Prop where
  body : m.body h = .scalar s
  unhooked : ∀ g ∈ (m.cell h).magic, g.table.onRead = []

namespace ReadsAs

theorem readHooks (hs : m.ReadsAs h s) : runReadHooks h m = .ok () m := by
  rw [runReadHooks, Run.look_bind]
  have hnone := hs.unhooked
  generalize (m.cell h).magic = gs at hnone ⊢
  induction gs with
  | nil => rfl
  | cons g rest ih =>
    obtain ⟨hg, hrest⟩ := List.forall_mem_cons.1 hnone
    show (g.table.onRead.forM (runReadAction h g) >>= fun _ => rest.forM _ : Run PUnit) m = _
    rw [hg]
    exact ih hrest

theorem reading (hs : m.ReadsAs h s) (f : Machine → α) :
    (do runReadHooks h; Run.look f : Run α) m = .ok (f m) m := Run.bind_of_ok hs.readHooks

theorem scalar? (hs : m.ReadsAs h s) : m.scalar? h = some s := scalar?_eq_some.2 hs.body

theorem isDefined (hs : m.ReadsAs h s) : isDefined h m = .ok s.isDefined m := by
  have hread := hs.reading (·.definedAt h)
  rwa [definedAt, hs.body] at hread

theorem number (hs : m.ReadsAs h s) : number h m = .ok s.number m := by
  have hread := hs.reading (·.numberAt h)
  rwa [numberAt, hs.scalar?] at hread

theorem truth (hs : m.ReadsAs h s) : truth h m = .ok s.truth m := by
  have hread := hs.reading (·.truthAt h)
  rwa [truthAt, hs.body] at hread

theorem text (hs : m.ReadsAs h s) : text h m = .ok (m.textAt h) m := hs.reading (·.textAt h)

theorem string (hs : m.ReadsAs h s) : string h m = .ok (m.textAt h).bytes.toText m :=
  Run.bind_of_ok hs.text

end ReadsAs

/-- What a reading across the boundary gives: what it has found, or a failure that holds the value. -/
def reads (m : Machine) (h : Handle) (o : Option α) (f : Held → Failure) :
    EStateM.Result Exit Machine (Except Failure α) :=
  match o with
  | some a => .ok (.ok a) m
  | none => .ok (.error (f ⟨h, m.here⟩)) (m.retain h)

theorem about_run (m : Machine) (h : Handle) (f : Held → Failure) :
    (Failure.about h f : Bridge α).run m = m.reads h none f :=
  run_bind (run_ofRun (hold_apply m h))

theorem reads_eq_ok_iff {o : Option α} {f : Held → Failure} {a : α} {m' : Machine} :
    m.reads h o f = .ok (.ok a) m' ↔ o = some a ∧ m = m' := by
  cases o with
  | some a' => simp [reads]
  | none => simp [reads]

end Machine

/-- A reading that asks for more of what another one has found. -/
theorem Bridge.reads_bind {x : Bridge α} {f : α → Bridge β} {o : Option α} {g : α → Option β}
    {fail fail' : Held → Failure} (hx : x.run m = m.reads h o fail)
    (hfail : o = none → fail' = fail)
    (hf : ∀ a, o = some a → (f a).run m = m.reads h (g a) fail') :
    (x >>= f).run m = m.reads h (o.bind g) fail' := by
  cases o with
  | some a => exact (run_bind hx).trans (hf a rfl)
  | none =>
    rw [Bridge.bind_apply, hx, hfail rfl]
    rfl

namespace Scalar

theorem strict?_of_int {w : Wide} (htarget : s.target = none) (hint : s.int = some w) :
    s.strict? = some (.whole w) := by
  simp [strict?, number, htarget, hint]

/-- Why a scalar is not read as a number. -/
def refusal (s : Scalar) (want : String) (v : Held) : Failure :=
  if s.isDefined then .notNumber v want else .unexpectedUndefined v

theorem isDefined_of_strict? {n : Number} (hn : s.strict? = some n) : s.isDefined = true := by
  obtain ⟨_ | w, _ | x, _ | t, _ | target⟩ := s
  all_goals first | rfl | cases hn

theorem refusal_of_strict? {n : Number} (hn : s.strict? = some n) :
    s.refusal want = (.notNumber · want) := by
  funext v
  rw [refusal, if_pos (isDefined_of_strict? hn)]

end Scalar

namespace Machine.ReadsAs

theorem strictNumber (hs : m.ReadsAs h s) (want : String) :
    (Strict.number h want).run m = m.reads h s.strict? (s.refusal want) := by
  refine (run_bind (run_ofRun hs.isDefined)).trans ?_
  cases hdefined : s.isDefined with
  | false =>
    have hnone : s.strict? = none := by
      by_contra hsome
      obtain ⟨n, hn⟩ := Option.ne_none_iff_exists'.1 hsome
      rw [Scalar.isDefined_of_strict? hn] at hdefined
      cases hdefined
    have hrefusal : s.refusal want = .unexpectedUndefined := by
      funext v
      rw [Scalar.refusal, if_neg (by simp [hdefined])]
    rw [hnone, hrefusal]
    exact (Bridge.bind_apply ..).trans (by rw [about_run]; rfl)
  | true =>
    have hkind : m.kind h = .scalar := kind_of_scalar hs.body
    have hrefusal : s.refusal want = (.notNumber · want) := by
      funext v
      rw [Scalar.refusal, if_pos hdefined]
    have href : m.isReference h = s.target.isSome := by rw [isReference, target?, hs.scalar?]; rfl
    have hslot : (m.hasInt h || m.hasFloat h) = (s.int.isSome || s.float.isSome) := by
      rw [hasInt, hasFloat, hs.scalar?]
      rfl
    have htext : m.hasText h = s.text.isSome := by rw [hasText, hs.scalar?]; rfl
    show ((if (m.kind h ≠ .scalar || m.isReference h) = true then _ else _ : Bridge Number)).run m = _
    rw [hkind, href, hslot, htext, hrefusal, Scalar.strict?]
    by_cases htarget : s.target.isSome = true
    · rw [if_pos htarget, if_pos (by simp [htarget])]
      exact about_run m h _
    rw [if_neg htarget, if_neg (by simp [htarget])]
    by_cases hnumeric : (s.int.isSome || s.float.isSome) = true
    · rw [if_pos hnumeric, if_pos hnumeric]
      exact run_ofRun hs.number
    rw [if_neg hnumeric, if_neg hnumeric]
    cases ht : s.text with
    | none => exact about_run m h _
    | some t =>
      have hread : m.textAt h = t := by rw [textAt, hs.scalar?]; simp [Scalar.plainText?, ht]
      rw [if_pos Option.isSome_some]
      refine (run_bind (run_ofRun hs.text)).trans ?_
      rw [hread, Option.bind_some]
      cases Number.ofBytes? t.bytes with
      | some n => rfl
      | none => exact about_run m h _

theorem signed (hs : m.ReadsAs h s) : (Strict.signed h).run m =
    m.reads h (s.strict?.bind Number.toSigned?) (s.refusal "i64") := by
  refine Bridge.reads_bind (hs.strictNumber "i64") (fun _ => rfl) fun n hn => ?_
  cases hsigned : n.toSigned? with
  | some k => rfl
  | none =>
    rw [Scalar.refusal_of_strict? hn]
    exact about_run m h _

theorem unsigned (hs : m.ReadsAs h s) : (Strict.unsigned h).run m =
    m.reads h (s.strict?.bind Number.toUnsigned?) (s.refusal "u64") := by
  refine Bridge.reads_bind (hs.strictNumber "u64") (fun _ => rfl) fun n hn => ?_
  cases hunsigned : n.toUnsigned? with
  | some k => rfl
  | none =>
    rw [Scalar.refusal_of_strict? hn]
    exact about_run m h _

theorem float (hs : m.ReadsAs h s) : (Strict.float h).run m =
    m.reads h (s.strict?.map Number.toFloat) (s.refusal "f64") := by
  rw [Option.map_eq_bind]
  exact Bridge.reads_bind (hs.strictNumber "f64") (fun _ => rfl) fun n _ => rfl

/-- An integer is asked for twice: in 64 bits, and within its type. -/
theorem integer (hs : m.ReadsAs h s) (t : IntType) : (Strict.integer t h).run m =
    m.reads h ((s.strict?.bind t.wide?).filter t.contains)
      (s.refusal (if (s.strict?.bind t.wide?).isSome then t else t.widest).name) := by
  have hwide : (if t.isSigned then Strict.signed h else Strict.unsigned h : Bridge Int).run m =
      m.reads h (s.strict?.bind t.wide?) (s.refusal t.widest.name) := by
    unfold IntType.wide? IntType.widest
    split
    · exact hs.signed
    · exact hs.unsigned
  have hsteps : Strict.integer t h = (if t.isSigned then Strict.signed h else Strict.unsigned h) >>=
      fun n => if t.contains n then return n else Failure.about h (.notNumber · t.name) := by
    unfold Strict.integer
    split <;> rfl
  have hfilter : (s.strict?.bind t.wide?).filter t.contains =
      (s.strict?.bind t.wide?).bind fun n => if t.contains n then some n else none := by
    cases s.strict?.bind t.wide? <;> rfl
  rw [hsteps, hfilter]
  refine Bridge.reads_bind hwide (fun hnone => congrArg (fun o : Option Int =>
    s.refusal (if o.isSome then t else t.widest).name) hnone) fun n hn => ?_
  obtain ⟨x, hx, -⟩ := Option.bind_eq_some_iff.1 hn
  rw [hn, Scalar.refusal_of_strict? hx]
  dsimp only [Option.isSome_some, if_true]
  split
  · rfl
  · exact about_run m h _

/-- A scalar that is an integer is read by the types that have it. -/
theorem integer_of_whole {w : Wide} (hs : m.ReadsAs h s) (hw : s.strict? = some (.whole w))
    (t : IntType) : (Strict.integer t h).run m =
      m.reads h (if t.contains w.toInt then some w.toInt else none)
        (.notNumber · (t.blamed w.toInt).name) := by
  have hwide : s.strict?.bind t.wide? = if t.widest.contains w.toInt then some w.toInt else none := by
    rw [hw]
    exact IntType.wide?_whole w
  rw [hs.integer, hwide, Scalar.refusal_of_strict? hw]
  unfold IntType.blamed
  cases hwidest : t.widest.contains w.toInt with
  | true => cases hcontains : t.contains w.toInt <;> simp [Option.filter, hcontains]
  | false =>
    have hbeyond : t.contains w.toInt = false :=
      Bool.eq_false_iff.2 fun h => Bool.eq_false_iff.1 hwidest (IntType.contains_widest h)
    simp [hbeyond]

/-- The text of a defined scalar that is no reference is the one that is there. -/
theorem strictText (hs : m.ReadsAs h s) : (Strict.text h).run m =
    m.reads h (if s.isDefined && s.target.isNone then some (m.textAt h) else none)
      (if s.isDefined then .notStringOrNumber else .unexpectedUndefined) := by
  refine (run_bind (run_ofRun hs.isDefined)).trans ?_
  have hkind : m.kind h = .scalar := kind_of_scalar hs.body
  have href : m.isReference h = s.target.isSome := by rw [isReference, target?, hs.scalar?]; rfl
  cases s.isDefined with
  | false => exact (Bridge.bind_apply ..).trans (by rw [about_run]; rfl)
  | true =>
    show ((if (m.kind h ≠ .scalar || m.isReference h) = true then _ else _ : Bridge ByteText)).run m = _
    rw [hkind, href]
    cases s.target with
    | some target => exact about_run m h _
    | none => exact run_ofRun hs.text

theorem string_ok (hs : m.ReadsAs h s) {v : String} {m' : Machine}
    (hr : (Strict.string h).run m = .ok (.ok v) m') : Machine.string h m = .ok v m' := by
  rw [Strict.string, Bridge.bind_apply, hs.strictText] at hr
  split at hr
  next hread =>
    obtain ⟨hfound, rfl⟩ := reads_eq_ok_iff.1 hread
    cases hr
    rw [hs.string]
    split at hfound
    next => cases hfound; rfl
    next => cases hfound
  next => cases hr
  next => cases hr

end Machine.ReadsAs

end ValueMachine

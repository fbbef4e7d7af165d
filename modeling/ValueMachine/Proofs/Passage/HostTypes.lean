import ValueMachine.Host.Stock
import ValueMachine.Proofs.Passage.Sprouts

/-! Values of host types. A type is passable if it is built from truth values, integers, floats,
texts, options, lists and maps, with no option directly in an option; nothing else tells an absent
value from one that is there. A map that has passed comes back in the order of its keys. -/

namespace ValueMachine

/-- Pairs are sorted by their keys, whatever is done to their values. -/
theorem Keyed.sorted_map {α β : Type} (f : α → β) (pairs : List (String × α)) :
    sorted (pairs.map fun p => (p.1, f p.2)) = (sorted pairs).map fun p => (p.1, f p.2) :=
  Eq.symm <| List.map_mergeSort (f := fun p : String × α => (p.1, f p.2)) fun _ _ _ _ => rfl

namespace HostType

/-- The types whose values pass through the machine. -/
inductive Passable : HostType → Prop where
  | bool : Passable .bool
  | int (t : IntType) : Passable (.int t)
  | float : Passable .float
  | string : Passable .string
  | option {t : HostType} (ht : t.Passable) (hflat : ∀ u, t ≠ .option u) : Passable (.option t)
  | vec {t : HostType} (ht : t.Passable) : Passable (.vec t)
  | map {t : HostType} (ht : t.Passable) : Passable (.map t)

/-- The values that a type has: integers within its bounds, and maps with one value for a key. -/
def Proper : (t : HostType) → t.Value → Prop
  | .int t, n => t.contains n
  | .option t, v => ∀ w ∈ (v : Option t.Value), t.Proper w
  | .vec t, vs => ∀ v ∈ (vs : List t.Value), t.Proper v
  | .map t, ps =>
    (List.map (·.1) (ps : List (String × t.Value))).Nodup ∧
      ∀ p ∈ (ps : List (String × t.Value)), t.Proper p.2
  | _, _ => True

/-- The same value: lists element by element, and maps in any order of their keys. -/
def Same : (t : HostType) → t.Value → t.Value → Prop
  | .option t, v, w => Option.Rel t.Same v w
  | .vec t, vs, ws => List.Forall₂ t.Same vs ws
  | .map t, ps, qs => ∃ rs : List (String × t.Value), List.Perm ps rs ∧
      List.Forall₂ (fun p q => p.1 = q.1 ∧ t.Same p.2 q.2) rs qs
  | _, v, w => v = w

/-- Every map in a value is in the order of its keys. -/
def InOrder : (t : HostType) → t.Value → Prop
  | .option t, v => ∀ w ∈ (v : Option t.Value), t.InOrder w
  | .vec t, vs => ∀ v ∈ (vs : List t.Value), t.InOrder v
  | .map t, ps =>
    List.Pairwise (fun p q : String × t.Value => Bytes.Before p.1 q.1) ps ∧
      ∀ p ∈ (ps : List (String × t.Value)), t.InOrder p.2
  | _, _ => True

/-- A value with all its maps in the order of their keys. -/
def ordered : (t : HostType) → t.Value → t.Value
  | .option t, v => Option.map t.ordered v
  | .vec t, vs => List.map t.ordered vs
  | .map t, ps => Keyed.sorted (List.map (fun p : String × t.Value => (p.1, t.ordered p.2)) ps)
  | _, v => v

/-- The form of the tree that a value of a passable type becomes. -/
def form : (t : HostType) → t.Value → Form
  | .bool, b => .scalar (.ofBool b)
  | .int t, n =>
    .scalar (if t.isSigned then .ofInt64 (Int64.ofInt n) else .ofUInt64 (UInt64.ofNat n.toNat))
  | .float, x => .scalar (.ofFloat x)
  | .string, s => .scalar (.ofText s)
  | .option t, v => (Option.map t.form v).getD (.scalar .undefined)
  | .vec t, vs => .array (List.map t.form vs)
  | .map t, ps => .table (List.map (fun p : String × t.Value => Bytes.ofText p.1) ps)
      (List.map (fun p : String × t.Value => t.form p.2) ps)
  | _, _ => .scalar .undefined

variable {t : HostType}

/-- A value of a passable type holds no count. -/
theorem Passable.held_eq_nil (ht : t.Passable) (v : t.Value) : t.held v = [] := by
  induction ht with
  | bool | int | float | string => rfl
  | option _ _ ih => cases v <;> simp [held, ih]
  | vec _ ih => simp [held, ih]
  | map _ ih => simp [held, ih]

/-- To order its maps does not change a value. -/
theorem Passable.same_ordered (ht : t.Passable) (v : t.Value) : t.Same v (t.ordered v) := by
  induction ht with
  | bool | int | float | string => rfl
  | option _ _ ih =>
    cases v with
    | none => exact .none
    | some v => exact .some (ih v)
  | vec _ ih =>
    rw [Same, ordered, List.forall₂_map_right_iff]
    exact List.forall₂_same.2 fun v _ => ih v
  | @map t _ ih =>
    -- the order looks at the keys only, so the values may as well be ordered afterwards
    refine ⟨Keyed.sorted v, (Keyed.sorted_perm v).symm, ?_⟩
    rw [ordered, Keyed.sorted_map, List.forall₂_map_right_iff]
    exact List.forall₂_same.2 fun p _ => ⟨rfl, ih p.2⟩

/-- A value whose maps are in order is ordered as it is. -/
theorem Passable.ordered_eq (ht : t.Passable) {v : t.Value} (hv : t.InOrder v) :
    t.ordered v = v := by
  induction ht with
  | bool | int | float | string => rfl
  | option _ _ ih =>
    cases v with
    | none => rfl
    | some v => exact congrArg some (ih (hv v rfl))
  | vec _ ih => exact (List.map_congr_left fun v hm => ih (hv v hm)).trans (List.map_id _)
  | map _ ih =>
    obtain ⟨hkeys, hvalues⟩ := hv
    rw [ordered, Keyed.sorted_map, Keyed.sorted_eq hkeys]
    exact (List.map_congr_left fun p hp => congrArg (Prod.mk p.1) (ih (hvalues p hp))).trans
      (List.map_id _)

end HostType

end ValueMachine

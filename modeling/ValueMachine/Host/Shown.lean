import ValueMachine.Host.Any

/-! How held values are shown for debugging. -/

namespace ValueMachine.Shown

open Machine

/-- A value in its wrapper. -/
def value (h : Handle) : Run String := do return "PerlValue(" ++ (← describe h) ++ ")"

/-- A scalar in its wrapper. -/
def scalar (h : Handle) : Run String := do return "PerlScalar(" ++ (← value h) ++ ")"

/-- An object in its wrapper. -/
def object (h : Handle) : Run String := do return "PerlObject(" ++ (← value h) ++ ")"

/-- A sub in its wrapper. -/
def sub (m : Machine) (h : Handle) : String :=
  match m.subName h with
  | some name => "PerlSub(&" ++ name ++ ")"
  | none => "PerlSub(__ANON__)"

/-- An element of an array, a new undefined value for a hole. -/
def element (slot : Option Handle) : Run String := do
  let v ← match slot with
    | some h => hold h
    | none => holdNew .undefined
  (scalar v.handle).always (·.drop v)

/-- An array as the list of its elements. -/
def array (h : Handle) : Run String := do
  return "[" ++ ", ".intercalate (← (← slots h).mapM element) ++ "]"

/-- A hash as the map of its entries. -/
def hash (h : Handle) : Run String := do
  let entries ← (← hashEntries h).mapM fun (key, item) => do
    return Text.quote key.toText ++ ": " ++ (← element (some item))
  return "\x7b" ++ ", ".intercalate entries ++ "\x7d"

/-- A classified value. -/
def any : Any → Run String
  | .scalar v => do return "Scalar(" ++ (← scalar v.handle) ++ ")"
  | .array v => do return "Array(" ++ (← array v.handle) ++ ")"
  | .hash v => do return "Hash(" ++ (← hash v.handle) ++ ")"
  | .sub v => do return "Sub(" ++ (← Run.look fun m => sub m v.handle) ++ ")"
  | .object v => do return "Object(" ++ (← object v.handle) ++ ")"
  | .registered v type => do
    return "Registered(RegisteredObject \x7b class: " ++ Text.quote type.className ++ ", type: "
      ++ Text.quote type.name ++ ", object: " ++ (← object v.handle) ++ " \x7d)"
  | .bridged v i => do
    let className := (← Run.look (·.objectClass v.handle)).getD ""
    return "Bridged(BridgedObject \x7b class: " ++ Text.quote className ++ ", identity: "
      ++ toString i.identity.toNat ++ " \x7d)"
  | .other v => do return "Other(" ++ (← value v.handle) ++ ")"

end ValueMachine.Shown

/-! Names of globals and modules. A name belongs to a package where `::` separates its parts; one
without a package, or with an empty first part, belongs to the package `main`. -/

namespace ValueMachine.Qualified

/-- Whether a separator stands anywhere in the characters. -/
def hasPackage : List Char → Bool
  | ':' :: ':' :: _ => true
  | _ :: rest => hasPackage rest
  | [] => false

/-- The full name of a global. -/
def qualify (name : String) : String :=
  match name.toList with
  | ':' :: ':' :: rest => "main::" ++ String.ofList rest
  | cs => if hasPackage cs then name else "main::" ++ name

/-- The characters with a slash for each separator. -/
def slashed : List Char → List Char
  | ':' :: ':' :: rest => '/' :: slashed rest
  | c :: rest => c :: slashed rest
  | [] => []

/-- The path of a module. -/
def path (name : String) : String := String.ofList (slashed name.toList)

/-- The parts between separators. -/
def parts : List Char → List (List Char)
  | ':' :: ':' :: rest => [] :: parts rest
  | c :: rest =>
    match parts rest with
    | first :: more => (c :: first) :: more
    | [] => [[c]]
  | [] => [[]]

private def isWordStart (c : Char) : Bool := c.isAlpha || c == '_'

/-- A part of a module's name: ASCII letters, digits and underscores, no digit first. -/
def isWord : List Char → Bool
  | c :: rest => isWordStart c && rest.all fun d => isWordStart d || d.isDigit
  | [] => false

/-- Whether a name is a sequence of words. -/
def isModuleName (name : String) : Bool := (parts name.toList).all isWord

end ValueMachine.Qualified

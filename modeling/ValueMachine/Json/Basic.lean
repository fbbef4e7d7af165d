import ValueMachine.Number.Shortest
import ValueMachine.Text.Bytes

/-! JSON documents and their text: compact, or indented by two spaces for each level with one
element or field a line and empty containers on one line. -/

namespace ValueMachine

/-- A JSON document. -/
inductive Json where
  | null
  | bool (b : Bool)
  | int (n : Int)
  | float (x : Float)
  | text (s : String)
  | list (items : List Json)
  | object (fields : List (String × Json))
  deriving Inhabited

namespace Json

/-- Digits with a point after the first `point` of them: positional from `1e-5` to `1e16`, and with
a signed exponent beyond. -/
def layout (ds : List Char) (point : Int) : List Char :=
  let n := Int.ofNat ds.length
  if n ≤ point && point ≤ 16 then ds ++ List.replicate (point - n).toNat '0' ++ ['.', '0']
  else if 0 < point && point ≤ 16 then ds.take point.toNat ++ '.' :: ds.drop point.toNat
  else if -5 < point && point ≤ 0 then '0' :: '.' :: List.replicate (-point).toNat '0' ++ ds
  else
    let fraction := if ds.length > 1 then '.' :: ds.drop 1 else []
    let sign := if point > 0 then ['+'] else []
    ds.take 1 ++ fraction ++ 'e' :: sign ++ (toString (point - 1)).toList

/-- The text of a float: the fewest digits that read back. What is no finite number is null. -/
def floatText (x : Float) : String :=
  match FloatParts.of x with
  | .finite negative m e =>
    let magnitude :=
      if m == 0 then ['0', '.', '0']
      else
        let (d, k) := shortestDecimal m e
        let (d, k) := stripZeros 17 d k
        let ds := Nat.toDigits 10 d
        layout ds (Int.ofNat ds.length + k)
    String.ofList (if negative then '-' :: magnitude else magnitude)
  | _ => "null"

/-- One character of a string literal: quote, backslash and controls are escaped. -/
def escapeChar (c : Char) : String :=
  if c == '"' then "\\\""
  else if c == '\\' then "\\\\"
  else if c == '\x08' then "\\b"
  else if c == '\x0c' then "\\f"
  else if c == '\n' then "\\n"
  else if c == '\r' then "\\r"
  else if c == '\t' then "\\t"
  else if c.toNat < 32 then "\\u" ++ hexText 4 c.toNat
  else String.singleton c

def quoted (s : String) : String := "\"" ++ String.join (s.toList.map escapeChar) ++ "\""

def spaces (level : Nat) : String := String.ofList (List.replicate (2 * level) ' ')

mutual

/-- The indented text of a document whose containers lie `level` deep. -/
def render (level : Nat) : Json → String
  | null => "null"
  | bool b => if b then "true" else "false"
  | int n => toString n
  | float x => floatText x
  | text s => quoted s
  | list [] => "[]"
  | list items => "[\n" ++ renderItems (level + 1) items ++ "\n" ++ spaces level ++ "]"
  | object [] => "\x7b\x7d"
  | object fields => "\x7b\n" ++ renderFields (level + 1) fields ++ "\n" ++ spaces level ++ "\x7d"

def renderItems (level : Nat) : List Json → String
  | [] => ""
  | [j] => spaces level ++ render level j
  | j :: rest => spaces level ++ render level j ++ ",\n" ++ renderItems level rest

def renderFields (level : Nat) : List (String × Json) → String
  | [] => ""
  | [(key, j)] => spaces level ++ quoted key ++ ": " ++ render level j
  | (key, j) :: rest =>
    spaces level ++ quoted key ++ ": " ++ render level j ++ ",\n" ++ renderFields level rest

end

/-- The indented text of a document. -/
def pretty (j : Json) : String := render 0 j

mutual

/-- The text of a document on one line, without blanks. -/
def compact : Json → String
  | null => "null"
  | bool b => if b then "true" else "false"
  | int n => toString n
  | float x => floatText x
  | text s => quoted s
  | list items => "[" ++ ",".intercalate (compactItems items) ++ "]"
  | object fields => "\x7b" ++ ",".intercalate (compactFields fields) ++ "\x7d"

def compactItems : List Json → List String
  | [] => []
  | j :: rest => compact j :: compactItems rest

def compactFields : List (String × Json) → List String
  | [] => []
  | (key, j) :: rest => (quoted key ++ ":" ++ compact j) :: compactFields rest

end

/-- An object of some fields: the last value of each key, in the order of the keys' bytes. -/
def ofFields (fields : List (String × Json)) : Json := object (Keyed.latest fields)

end Json

end ValueMachine

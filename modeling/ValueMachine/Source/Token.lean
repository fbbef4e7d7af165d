import ValueMachine.Machine.Exception
import ValueMachine.Text.Property

/-! Source text as tokens: words, variables, numbers, strings, quoted word lists and marks. Blank
characters and comments separate tokens. -/

namespace ValueMachine.Source

/-- The marks of the language. -/
inductive Mark where
  | fatComma
  | arrow
  | openParen
  | closeParen
  | openBracket
  | closeBracket
  | openBrace
  | closeBrace
  | comma
  | semicolon
  | equals
  | backslash
  | minus
  deriving DecidableEq, Repr

namespace Mark

def text : Mark → String
  | fatComma => "=>"
  | arrow => "->"
  | openParen => "("
  | closeParen => ")"
  | openBracket => "["
  | closeBracket => "]"
  | openBrace => "\x7b"
  | closeBrace => "\x7d"
  | comma => ","
  | semicolon => ";"
  | equals => "="
  | backslash => "\\"
  | minus => "-"

/-- The mark at the front of the characters, a longer one before its beginning, and the rest. -/
def read? : List Char → Option (Mark × List Char)
  | '=' :: '>' :: r => some (fatComma, r)
  | '-' :: '>' :: r => some (arrow, r)
  | '(' :: r => some (openParen, r)
  | ')' :: r => some (closeParen, r)
  | '[' :: r => some (openBracket, r)
  | ']' :: r => some (closeBracket, r)
  | '\x7b' :: r => some (openBrace, r)
  | '\x7d' :: r => some (closeBrace, r)
  | ',' :: r => some (comma, r)
  | ';' :: r => some (semicolon, r)
  | '=' :: r => some (equals, r)
  | '\\' :: r => some (backslash, r)
  | '-' :: r => some (minus, r)
  | _ => none

end Mark

/-- A token. -/
inductive Token where
  | word (name : String)
  | scalar (name : String)
  | array (name : String)
  | number (digits : String)
  | string (text : String)
  | words (list : List String)
  | mark (m : Mark)
  deriving DecidableEq, Repr

/-- The text of a token in a complaint about it. -/
def Token.near : Token → String
  | word name => name
  | scalar name => "$" ++ name
  | array name => "@" ++ name
  | number digits => digits
  | string text => "'" ++ text ++ "'"
  | words _ => "qw"
  | mark m => m.text

namespace Lexer

def isWordStart (c : Char) : Bool := Text.isAlphabetic c || c == '_'

def isWordPart (c : Char) : Bool := Text.isAlphanumeric c || c == '_'

/-- Split at the end of a word: its parts are joined by separators that a letter or an underscore
follows. -/
def word : List Char → List Char × List Char
  | ':' :: ':' :: c :: r =>
    if isWordStart c then
      let (w, rest) := word r
      (':' :: ':' :: c :: w, rest)
    else ([], ':' :: ':' :: c :: r)
  | c :: r =>
    if isWordPart c then
      let (w, rest) := word r
      (c :: w, rest)
    else ([], c :: r)
  | [] => ([], [])

/-- Digits of a kind with underscores between them, which are dropped, and the rest. -/
def digits (isDigit : Char → Bool) : List Char → List Char × List Char
  | c :: r =>
    if c == '_' then digits isDigit r
    else if isDigit c then
      let (ds, rest) := digits isDigit r
      (c :: ds, rest)
    else ([], c :: r)
  | [] => ([], [])

/-- A hexadecimal literal after its `0x`, in decimal. No digits, and more than 64 bits, give the
largest number. -/
def hexNumber (cs : List Char) : String × List Char :=
  let (ds, rest) := digits (fun c => (hexValue? c).isSome) cs
  let n := hexValue ds
  (toString (if ds.isEmpty || n ≥ UInt64.size then UInt64.size - 1 else n), rest)

/-- A point and the digits after it, where a digit follows the point. -/
def fraction : List Char → List Char × List Char
  | '.' :: c :: r =>
    if c.isDigit then
      let (ds, rest) := digits (·.isDigit) (c :: r)
      ('.' :: ds, rest)
    else ([], '.' :: c :: r)
  | cs => ([], cs)

/-- An exponent, where a digit follows the letter and the sign. -/
def exponent : List Char → List Char × List Char
  | e :: r =>
    let (sign, after) := match r with
      | '+' :: s => (['+'], s)
      | '-' :: s => (['-'], s)
      | _ => ([], r)
    if (e == 'e' || e == 'E') && (after.head?.map (·.isDigit)).getD false then
      let (ds, rest) := digits (·.isDigit) after
      ('e' :: sign ++ ds, rest)
    else ([], e :: r)
  | [] => ([], [])

/-- A number literal without its underscores. -/
def number : List Char → String × List Char
  | '0' :: 'x' :: r => hexNumber r
  | '0' :: 'X' :: r => hexNumber r
  | cs =>
    let (whole, afterWhole) := digits (·.isDigit) cs
    let (frac, afterFraction) := fraction afterWhole
    let (exp, rest) := exponent afterFraction
    (String.ofList (whole ++ frac ++ exp), rest)

/-- The character with this code, the replacement character where there is none. -/
def charOf (n : Nat) : Char :=
  if h : n.isValidChar then Char.ofNatAux n h else Bytes.replacement

/-- The number written by hexadecimal digits with an optional plus sign; zero where it is none of 32
bits. -/
def hexCode (cs : List Char) : Nat :=
  let ds := match cs with
    | '+' :: r => r
    | _ => cs
  let written := !ds.isEmpty && ds.all fun c => (hexValue? c).isSome
  if written && hexValue ds < UInt32.size then hexValue ds else 0

/-- The character that `\x` stands for, and how many characters its code takes. A code in braces
ends at the next closing brace; where there is none it is empty. -/
def hexEscape (cs : List Char) : Char × Nat :=
  match cs with
  | '\x7b' :: r =>
    let code := if r.contains '\x7d' then r.takeWhile (· != '\x7d') else []
    (charOf (hexCode code), code.length + 2)
  | _ =>
    let code := (cs.take 2).takeWhile fun c => (hexValue? c).isSome
    (charOf (hexCode code), code.length)

/-- The character that a letter after a backslash stands for in a double-quoted string. -/
def simpleEscape : Char → Char
  | 'n' => '\n'
  | 't' => '\t'
  | 'r' => '\r'
  | '0' => '\x00'
  | 'a' => '\x07'
  | 'e' => '\x1b'
  | c => c

/-- The characters that an escape in a string stands for. In single quotes only the backslash and
the quote are escaped, and any other backslash stands for itself. -/
def escape (quote escaped : Char) (rest : List Char) : List Char × Nat :=
  if quote == '\'' then
    (if escaped == '\\' || escaped == '\'' then [escaped] else ['\\', escaped], 0)
  else if escaped == 'x' then
    let (c, n) := hexEscape rest
    ([c], n)
  else ([simpleEscape escaped], 0)

/-- The text up to the closing quote, after `skip` characters that an escape has taken, and the
rest. -/
def stringFrom (quote : Char) : Nat → List Char → Option (List Char × List Char)
  | _, [] => none
  | skip + 1, _ :: r => stringFrom quote skip r
  | 0, c :: r =>
    if c == quote then some ([], r)
    else match c, r with
      | '\\', escaped :: after =>
        let (text, n) := escape quote escaped after
        (stringFrom quote (n + 1) r).map fun (t, rest) => (text ++ t, rest)
      | _, _ => (stringFrom quote 0 r).map fun (t, rest) => (c :: t, rest)

/-- The delimiter that closes a word list. -/
def closing? : Char → Option Char
  | '(' => some ')'
  | '[' => some ']'
  | '\x7b' => some '\x7d'
  | '<' => some '>'
  | '/' => some '/'
  | '|' => some '|'
  | '!' => some '!'
  | _ => none

/-- The words between blanks. -/
def splitBlanks : List Char → List (List Char)
  | [] => []
  | c :: r =>
    if Text.isBlank c then splitBlanks r
    else match r with
      | [] => [[c]]
      | d :: _ =>
        if Text.isBlank d then [c] :: splitBlanks r
        else match splitBlanks r with
          | w :: ws => (c :: w) :: ws
          | [] => [[c]]

/-- A word list after `qw`: nothing where no opening delimiter follows. -/
def wordList? (cs : List Char) : Option (Except Fault (List String × List Char)) := do
  match cs.dropWhile Text.isBlank with
  | opening :: r =>
    let close ← closing? opening
    if r.contains close then
      some (.ok ((splitBlanks (r.takeWhile (· != close))).map String.ofList,
        (r.dropWhile (· != close)).drop 1))
    else some (.error .unterminatedWords)
  | [] => none

/-- The first characters of what cannot be read. -/
def complaint (cs : List Char) : Fault := .syntaxError (String.ofList (cs.take 12))

/-- The name of a variable after its sigil. `$@` and the digits are names of scalars. -/
def variableName? (sigil : Char) (cs : List Char) : Option (String × List Char) :=
  match cs with
  | c :: r =>
    if sigil == '$' && c == '@' then some ("@", r)
    else if sigil == '$' && c.isDigit then some (String.singleton c, r)
    else if isWordStart c || c == ':' then
      let (w, rest) := word (c :: r)
      some (String.ofList w, rest)
    else none
  | [] => none

/-- Whether a number literal is at the front. -/
def atNumber : List Char → Bool
  | '.' :: d :: _ => d.isDigit
  | c :: _ => c.isDigit
  | [] => false

/-- The token at the front of characters that start neither with a blank nor with a comment, and the
rest. -/
def token (cs : List Char) : Except Fault (Token × List Char) :=
  match cs with
  | [] => .error (complaint cs)
  | c :: r =>
    if isWordStart c then
      let (w, rest) := word cs
      if w == ['q', 'w'] then
        match wordList? rest with
        | some (.ok (ws, after)) => .ok (.words ws, after)
        | some (.error f) => .error f
        | none => .ok (.word "qw", rest)
      else .ok (.word (String.ofList w), rest)
    else if c == '$' || c == '@' then
      match variableName? c r with
      | some (name, rest) => .ok (if c == '$' then .scalar name else .array name, rest)
      | none => .error (complaint cs)
    else if atNumber cs then
      let (digits, rest) := number cs
      .ok (.number digits, rest)
    else if c == '\'' || c == '"' then
      match stringFrom c 0 r with
      | some (text, rest) => .ok (.string (String.ofList text), rest)
      | none => .error .unterminatedString
    else match Mark.read? cs with
      | some (m, rest) => .ok (.mark m, rest)
      | none => .error (complaint cs)

/-- The tokens of at most `fuel` steps; each step passes over a character at least. -/
def tokensWithin : Nat → List Char → Except Fault (List Token)
  | 0, _ => .ok []
  | _, [] => .ok []
  | fuel + 1, c :: r =>
    if Text.isBlank c then tokensWithin fuel r
    else if c == '#' then tokensWithin fuel (r.dropWhile (· != '\n'))
    else do
      let (t, rest) ← token (c :: r)
      let ts ← tokensWithin fuel rest
      return t :: ts

end Lexer

/-- The tokens of a source text. -/
def tokens (source : String) : Except Fault (List Token) :=
  Lexer.tokensWithin source.length source.toList

end ValueMachine.Source

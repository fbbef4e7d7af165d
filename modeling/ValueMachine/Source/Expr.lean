import ValueMachine.Source.Token

/-! Source text as expressions. Statements are separated by semicolons outside brackets. What
cannot be read stays in the expression as a fault at its place, since all that comes before it is
still evaluated. -/

namespace ValueMachine.Source

mutual

/-- An expression. -/
inductive Expr where
  | number (n : Number)
  | string (text : String)
  | words (list : List String)
  | scalar (name : String)
  | array (name : String)
  | arrayReference (name : String)
  | reference (e : Expr)
  | newArray (items : Items)
  | newHash (items : Items)
  | group (items : Items)
  | assign (name : String) (value : Expr)
  | element (base : Expr) (index : Items)
  | entry (base : Expr) (key : Items)
  | namedEntry (base : Expr) (key : String)
  | method (base : Expr) (name : String) (args : Items)
  | badArrow (base : Expr) (near : String)
  | undefined
  | die (args : Items)
  | bless (args : Items)
  | refType (args : Items)
  | isDefined (args : Items)
  | require (name : String)
  | call (name : String) (args : Items)
  /-- A word without arguments: a call where there is such a sub, and its own text otherwise. -/
  | bareword (name : String)
  | fault (near : String)

/-- A list of expressions, complete or broken off by a fault. -/
inductive Items where
  | done
  | cons (e : Expr) (rest : Items)
  | fault (near : String)

end

/-- A statement: its first expression, and the others of its list. -/
structure Statement where
  head : Expr
  tail : Items

/-- What ends a list: a closing mark that is taken off, any closing mark, which stays, or the end of
the statement. -/
inductive Stop where
  | closing (m : Mark)
  | anyClosing
  | ending

namespace Parser

/-- The text of the next token in a complaint. -/
def near : List Token → String
  | t :: _ => t.near
  | [] => "end of input"

/-- Whether a list ends here. -/
def atClose : List Token → Bool
  | [] => true
  | .mark .closeParen :: _ | .mark .closeBracket :: _ | .mark .closeBrace :: _
  | .mark .semicolon :: _ => true
  | _ => false

/-- The end of a list. -/
def finish (stop : Stop) (ts : List Token) : Items × List Token :=
  match stop, ts with
  | .closing m, .mark k :: rest => if k = m then (.done, rest) else (.fault (near ts), [])
  | .closing _, ts => (.fault (near ts), [])
  | .anyClosing, ts => (.done, ts)
  | .ending, [] => (.done, [])
  | .ending, ts => (.fault (near ts), [])

/-- A number literal, negated or not. -/
def numberLiteral (negative : Bool) (digits : String) : Expr :=
  match Number.ofBytes? (Bytes.ofText (if negative then "-" ++ digits else digits)) with
  | some n => .number n
  | none => .fault digits

/-- The tokens after a declaring `my`, which has no meaning of its own. -/
def skipMy : List Token → List Token
  | .word "my" :: rest => rest
  | ts => ts

mutual

/-- An expression with its assignment, or a term with its arrows. -/
def item : Nat → List Token → Expr × List Token
  | 0, ts => (.fault (near ts), [])
  | fuel + 1, ts =>
    match skipMy ts with
    | .scalar name :: .mark .equals :: rest =>
      let (value, rest) := item fuel rest
      (.assign name value, rest)
    | ts =>
      let (base, rest) := term fuel ts
      arrows fuel base rest

/-- The arrows after a term. -/
def arrows : Nat → Expr → List Token → Expr × List Token
  | 0, base, ts => (.badArrow base (near ts), [])
  | fuel + 1, base, ts =>
    match ts with
    | .mark .arrow :: .mark .openBracket :: rest =>
      let (index, rest) := items fuel (.closing .closeBracket) rest
      arrows fuel (.element base index) rest
    | .mark .arrow :: .mark .openBrace :: .word key :: .mark .closeBrace :: rest =>
      arrows fuel (.namedEntry base key) rest
    | .mark .arrow :: .mark .openBrace :: rest =>
      let (key, rest) := items fuel (.closing .closeBrace) rest
      arrows fuel (.entry base key) rest
    | .mark .arrow :: .word name :: .mark .openParen :: rest =>
      let (args, rest) := items fuel (.closing .closeParen) rest
      arrows fuel (.method base name args) rest
    | .mark .arrow :: .word name :: rest => arrows fuel (.method base name .done) rest
    | .mark .arrow :: rest => (.badArrow base (near rest), [])
    | ts => (base, ts)

/-- A list up to its end. -/
def items : Nat → Stop → List Token → Items × List Token
  | 0, _, ts => (.fault (near ts), [])
  | fuel + 1, stop, ts =>
    if atClose ts then finish stop ts
    else
      let (e, rest) := item fuel ts
      match rest with
      | .mark .comma :: rest | .mark .fatComma :: rest =>
        let (es, rest) := items fuel stop rest
        (.cons e es, rest)
      | rest =>
        let (es, rest) := finish stop rest
        (.cons e es, rest)

/-- The arguments of a word, in parentheses or up to the end of the list. -/
def arguments : Nat → List Token → Items × List Token
  | 0, ts => (.fault (near ts), [])
  | fuel + 1, ts =>
    match ts with
    | .mark .openParen :: rest => items fuel (.closing .closeParen) rest
    | ts => items fuel .anyClosing ts

/-- What a word means before the tokens that follow it. -/
def wordTerm : Nat → String → List Token → Expr × List Token
  | 0, _, ts => (.fault (near ts), [])
  | fuel + 1, name, ts =>
    match ts with
    | .mark .fatComma :: _ | .mark .arrow :: _ => (.string name, ts)
    | ts =>
      match name with
      | "undef" =>
        match ts with
        | .mark .openParen :: .mark .closeParen :: rest => (.undefined, rest)
        | .mark .openParen :: rest => (.fault (near rest), [])
        | ts => (.undefined, ts)
      | "die" =>
        let (args, rest) := arguments fuel ts
        (.die args, rest)
      | "bless" =>
        let (args, rest) := arguments fuel ts
        (.bless args, rest)
      | "ref" =>
        let (args, rest) := arguments fuel ts
        (.refType args, rest)
      | "defined" =>
        let (args, rest) := arguments fuel ts
        (.isDefined args, rest)
      | "require" =>
        match ts with
        | .word module :: rest | .string module :: rest => (.require module, rest)
        | ts => (.fault (near ts), [])
      | name =>
        match ts with
        | .mark .openParen :: rest =>
          let (args, rest) := items fuel (.closing .closeParen) rest
          (.call name args, rest)
        | ts => (.bareword name, ts)

/-- A term. -/
def term : Nat → List Token → Expr × List Token
  | 0, ts => (.fault (near ts), [])
  | fuel + 1, ts =>
    match ts with
    | [] => (.fault (near ts), [])
    | .number digits :: rest => (numberLiteral false digits, rest)
    | .mark .minus :: .number digits :: rest => (numberLiteral true digits, rest)
    | .mark .minus :: rest => (.fault (near rest), [])
    | .string text :: rest => (.string text, rest)
    | .words list :: rest => (.words list, rest)
    | .mark .backslash :: .array name :: rest => (.arrayReference name, rest)
    | .mark .backslash :: rest =>
      let (e, rest) := term fuel rest
      (.reference e, rest)
    | .mark .openBracket :: rest =>
      let (es, rest) := items fuel (.closing .closeBracket) rest
      (.newArray es, rest)
    | .mark .openBrace :: rest =>
      let (es, rest) := items fuel (.closing .closeBrace) rest
      (.newHash es, rest)
    | .mark .openParen :: rest =>
      let (es, rest) := items fuel (.closing .closeParen) rest
      (.group es, rest)
    | .scalar name :: rest => (.scalar name, rest)
    | .array name :: rest => (.array name, rest)
    | .word name :: rest => wordTerm fuel name rest
    | .mark m :: _ => (.fault m.text, [])

end

/-- The tokens of a statement as a statement. At most five nested steps are taken for each token: a
word opens an item, its term, its meaning, its arguments and their list. -/
def statement (ts : List Token) : Statement :=
  let fuel := 5 * ts.length + 5
  let (head, rest) := item fuel ts
  match rest with
  | .mark .comma :: rest | .mark .fatComma :: rest => ⟨head, (items fuel .ending rest).1⟩
  | rest => ⟨head, (finish .ending rest).1⟩

/-- How many brackets are open after a token. -/
def depthAfter (depth : Nat) : Token → Nat
  | .mark .openParen | .mark .openBracket | .mark .openBrace => depth + 1
  | .mark .closeParen | .mark .closeBracket | .mark .closeBrace => depth - 1
  | _ => depth

/-- The tokens of each statement. -/
def split : Nat → List Token → List (List Token)
  | _, [] => [[]]
  | depth, t :: rest =>
    if t = .mark .semicolon && depth = 0 then [] :: split depth rest
    else match split (depthAfter depth t) rest with
      | first :: more => (t :: first) :: more
      | [] => [[t]]

end Parser

/-- The statements of a source text; empty ones are dropped. -/
def statements (ts : List Token) : List Statement :=
  ((Parser.split 0 ts).filter (!·.isEmpty)).map Parser.statement

end ValueMachine.Source

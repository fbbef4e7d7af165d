import ValueMachine.Text.Bytes

/-! JSON text as a document for decoding. Strings that are written correctly but are no text, by
their bytes or by a lone surrogate, are kept as such: they do no harm where nobody asks for them.
-/

namespace ValueMachine

/-- A document as it was read. A number is kept where it is an unsigned 64-bit integer. -/
inductive RawJson where
  | null
  | bool (b : Bool)
  | number (n : Option Nat)
  | text (s : Option String)
  | list (items : List RawJson)
  | object (fields : List (Option String × RawJson))

namespace RawJson

def isSpace (b : UInt8) : Bool := b == 32 || b == 9 || b == 10 || b == 13

def skipSpace (bs : Bytes) : Bytes := bs.dropWhile isSpace

def isDigit (b : UInt8) : Bool := 48 ≤ b && b ≤ 57

/-- Four hexadecimal digits and the rest. -/
def hex4? (bs : Bytes) : Option (Nat × Bytes) :=
  match bs with
  | a :: b :: c :: d :: rest => do
    let digit (x : UInt8) : Option Nat := hexValue? (Char.ofNat x.toNat)
    let a ← digit a
    let b ← digit b
    let c ← digit c
    let d ← digit d
    return (((a * 16 + b) * 16 + c) * 16 + d, rest)
  | _ => none

/-- A piece of a string: a byte, or a 16-bit code. -/
inductive Piece where
  | byte (b : UInt8)
  | unit (n : Nat)

/-- The byte that an escaped letter stands for. -/
def escaped? (b : UInt8) : Option UInt8 :=
  match Char.ofNat b.toNat with
  | '"' => some 34
  | '\\' => some 92
  | '/' => some 47
  | 'b' => some 8
  | 'f' => some 12
  | 'n' => some 10
  | 'r' => some 13
  | 't' => some 9
  | _ => none

/-- The pieces of a string up to its closing quote, and the rest. -/
def pieces? : Nat → Bytes → Option (List Piece × Bytes)
  | 0, _ => none
  | _, [] => none
  | fuel + 1, b :: rest =>
    if b == 34 then some ([], rest)
    else if b < 32 then none
    else if b == 92 then
      match rest with
      | [] => none
      | c :: after =>
        if c == 117 then do
          let (n, after) ← hex4? after
          let (ps, end_) ← pieces? fuel after
          return (.unit n :: ps, end_)
        else do
          let e ← escaped? c
          let (ps, end_) ← pieces? fuel after
          return (.byte e :: ps, end_)
    else do
      let (ps, end_) ← pieces? fuel rest
      return (.byte b :: ps, end_)

/-- The bytes of a character. -/
def bytesOf (n : Nat) : Option Bytes :=
  if h : n.isValidChar then some (Bytes.ofText (String.singleton (Char.ofNatAux n h))) else none

/-- The bytes of pieces, if every surrogate has its partner. -/
def bytes? : List Piece → Option Bytes
  | [] => some []
  | .byte b :: rest => (bytes? rest).map (b :: ·)
  | .unit n :: .unit k :: rest =>
    if 0xD800 ≤ n && n < 0xDC00 then
      if 0xDC00 ≤ k && k < 0xE000 then do
        let c ← bytesOf (0x10000 + (n - 0xD800) * 1024 + (k - 0xDC00))
        return c ++ (← bytes? rest)
      else none
    else do
      let c ← bytesOf n
      return c ++ (← bytes? (.unit k :: rest))
  | .unit n :: rest => do
    let c ← bytesOf n
    return c ++ (← bytes? rest)

/-- A string after its opening quote. -/
def string? (bs : Bytes) : Option (Option String × Bytes) := do
  let (ps, rest) ← pieces? (bs.length + 1) bs
  return ((bytes? ps).bind Bytes.toText?, rest)

/-- Digits, one at least, and the rest. -/
def digits? (bs : Bytes) : Option (Bytes × Bytes) :=
  match bs.takeWhile isDigit with
  | [] => none
  | ds => some (ds, bs.dropWhile isDigit)

/-- The digits of a whole part: no zero stands in front of others. -/
def whole? (bs : Bytes) : Option (Bytes × Bytes) := do
  let (ds, rest) ← digits? bs
  if ds.head? == some 48 && ds.length > 1 then none else some (ds, rest)

/-- A number, and the rest. -/
def number? (bs : Bytes) : Option (Option Nat × Bytes) := do
  let (negative, unsigned) := match bs with
    | 45 :: r => (true, r)
    | r => (false, r)
  let (ds, rest) ← whole? unsigned
  let (hasFraction, rest) ← match rest with
    | 46 :: r => (digits? r).map fun (_, r) => (true, r)
    | r => some (false, r)
  let (hasExponent, rest) ← match rest with
    | e :: r =>
      if e == 101 || e == 69 then
        let r := match r with
          | 43 :: s => s
          | 45 :: s => s
          | s => s
        (digits? r).map fun (_, r) => (true, r)
      else some (false, e :: r)
    | [] => some (false, [])
  let n := ds.foldl (fun n d => n * 10 + (d.toNat - 48)) 0
  return (if negative || hasFraction || hasExponent || n ≥ UInt64.size then none else some n, rest)

/-- A word and what it stands for. -/
def word? (word : String) (value : RawJson) (bs : Bytes) : Option (RawJson × Bytes) :=
  let w := Bytes.ofText word
  if w.isPrefixOf bs then some (value, bs.drop w.length) else none

mutual

/-- A value after white space, and the rest. -/
def value? : Nat → Bytes → Option (RawJson × Bytes)
  | 0, _ => none
  | fuel + 1, bs =>
    match skipSpace bs with
    | [] => none
    | b :: rest =>
      if b == 123 then
        match skipSpace rest with
        | 125 :: after => some (.object [], after)
        | _ => do
          let (fields, after) ← fields? fuel rest
          return (.object fields, after)
      else if b == 91 then
        match skipSpace rest with
        | 93 :: after => some (.list [], after)
        | _ => do
          let (items, after) ← items? fuel rest
          return (.list items, after)
      else if b == 34 then do
        let (s, after) ← string? rest
        return (.text s, after)
      else if b == 116 then word? "true" (.bool true) (b :: rest)
      else if b == 102 then word? "false" (.bool false) (b :: rest)
      else if b == 110 then word? "null" .null (b :: rest)
      else do
        let (n, after) ← number? (b :: rest)
        return (.number n, after)

/-- The items of a list up to its closing bracket, and the rest. -/
def items? : Nat → Bytes → Option (List RawJson × Bytes)
  | 0, _ => none
  | fuel + 1, bs => do
    let (item, rest) ← value? fuel bs
    match skipSpace rest with
    | 93 :: after => some ([item], after)
    | 44 :: after => do
      let (items, after) ← items? fuel after
      return (item :: items, after)
    | _ => none

/-- The fields of an object up to its closing brace, and the rest. -/
def fields? : Nat → Bytes → Option (List (Option String × RawJson) × Bytes)
  | 0, _ => none
  | fuel + 1, bs =>
    match skipSpace bs with
    | 34 :: rest => do
      let (key, rest) ← string? rest
      match skipSpace rest with
      | 58 :: rest => do
        let (item, rest) ← value? fuel rest
        match skipSpace rest with
        | 125 :: after => some ([(key, item)], after)
        | 44 :: after => do
          let (fields, after) ← fields? fuel after
          return ((key, item) :: fields, after)
        | _ => none
      | _ => none
    | _ => none

end

/-- The document that a byte string is, with nothing but white space around it. -/
def ofBytes? (bs : Bytes) : Option RawJson := do
  let (j, rest) ← value? (2 * bs.length + 2) bs
  if (skipSpace rest).isEmpty then some j else none

end RawJson

end ValueMachine

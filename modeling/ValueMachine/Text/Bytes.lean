/-! Byte strings and their reading as text. A byte string is UTF-8 or it is not; the lenient
reading puts one replacement character for each longest stretch that cannot begin or continue
a character, and the strict reading refuses the string.

Hexadecimal numerals come first, and what bytes are used for comes last: the hash of a key, and
the order in which values under texts are listed. -/

namespace ValueMachine

/-! ### Hexadecimal numerals

Lower-case digits are written, and both cases are read. -/

/-- The value of a hexadecimal digit. -/
def hexValue? (c : Char) : Option Nat :=
  if c.isDigit then some (c.toNat - 48)
  else if 'a' ≤ c && c ≤ 'f' then some (c.toNat - 87)
  else if 'A' ≤ c && c ≤ 'F' then some (c.toNat - 55)
  else none

/-- The number that digits stand for. -/
def hexValue (ds : List Char) : Nat := ds.foldl (fun n c => n * 16 + (hexValue? c).getD 0) 0

/-- The digits of a number, at least `width` of them. -/
def hexText (width n : Nat) : String :=
  let ds := Nat.toDigits 16 n
  String.ofList (List.replicate (width - ds.length) '0' ++ ds)

/-- The text of an address. -/
def addressText (n : Nat) : String := "0x" ++ hexText 1 n

/-! ### Byte strings -/

/-- A byte string. -/
abbrev Bytes := List UInt8

namespace Bytes

/-- The UTF-8 form of a text. -/
def ofText (s : String) : Bytes := s.toUTF8.toList

/-- Whether every byte is ASCII. -/
def isAscii (bs : Bytes) : Bool := bs.all (· < 0x80)

/-- What an unfinished character still needs: how many bytes, the range of the next one, and the
bits read so far. -/
structure Unfinished where
  missing : Nat
  lo : UInt8
  hi : UInt8
  bits : Nat

/-- The first byte of a character: the character itself, a demand for more bytes, or neither. -/
inductive Lead where
  | char (c : Char)
  | more (p : Unfinished)
  | bad

def lead (b : UInt8) : Lead :=
  if b < 0x80 then .char (Char.ofNat b.toNat)
  else if b < 0xC2 then .bad
  else if b < 0xE0 then .more ⟨1, 0x80, 0xBF, b.toNat % 32⟩
  else if b == 0xE0 then .more ⟨2, 0xA0, 0xBF, 0⟩
  else if b == 0xED then .more ⟨2, 0x80, 0x9F, 13⟩
  else if b < 0xF0 then .more ⟨2, 0x80, 0xBF, b.toNat % 16⟩
  else if b == 0xF0 then .more ⟨3, 0x90, 0xBF, 0⟩
  else if b < 0xF4 then .more ⟨3, 0x80, 0xBF, b.toNat % 8⟩
  else if b == 0xF4 then .more ⟨3, 0x80, 0x8F, 4⟩
  else .bad

/-- The characters of a byte string from inside an unfinished character; `none` stands for a
stretch that is no character. -/
def scanFrom : Option Unfinished → Bytes → List (Option Char)
  | none, [] => []
  | some _, [] => [none]
  | pending, b :: rest =>
    let fresh (out : List (Option Char)) : List (Option Char) :=
      out ++ match lead b with
        | .char c => some c :: scanFrom none rest
        | .more p => scanFrom (some p) rest
        | .bad => none :: scanFrom none rest
    match pending with
    | none => fresh []
    | some p =>
      if p.lo ≤ b && b ≤ p.hi then
        let bits := p.bits * 64 + b.toNat % 64
        if p.missing ≤ 1 then some (Char.ofNat bits) :: scanFrom none rest
        else scanFrom (some ⟨p.missing - 1, 0x80, 0xBF, bits⟩) rest
      else fresh [none]

/-- The characters of a byte string, `none` for each stretch that is no character. -/
def scan (bs : Bytes) : List (Option Char) := scanFrom none bs

/-- The replacement character. -/
def replacement : Char := '\uFFFD'

/-- The lenient reading. -/
def toText (bs : Bytes) : String :=
  String.ofList ((scan bs).map (·.getD replacement))

/-- The strict reading. -/
def toText? (bs : Bytes) : Option String :=
  ((scan bs).mapM id).map String.ofList

/-- Two hexadecimal digits for each byte. -/
def toHex (bs : Bytes) : String := String.join (bs.map fun b => hexText 2 b.toNat)

/-- The bytes written by an even number of hexadecimal digits. -/
def ofHex? : List Char → Option Bytes
  | [] => some []
  | [_] => none
  | a :: b :: rest => do
    let hi ← hexValue? a
    let lo ← hexValue? b
    let tail ← ofHex? rest
    return UInt8.ofNat (hi * 16 + lo) :: tail

/-- Bytes compare by their first difference, a string before its extensions. -/
def le (a b : Bytes) : Bool := a ≤ b

/-! ### The hash of a key

It takes one byte at a time: each byte is added and mixed in, and the last three steps spread what
is left over all 32 bits. -/

/-- One byte added to a hash. -/
def hashStep (h : UInt32) (b : UInt8) : UInt32 :=
  let h := h + b.toUInt32
  let h := h + (h <<< 10)
  h ^^^ (h >>> 6)

/-- The hash of a key. -/
def keyHash (bs : Bytes) : UInt32 :=
  let h := bs.foldl hashStep 0
  let h := h + (h <<< 3)
  let h := h ^^^ (h >>> 11)
  h + (h <<< 15)

end Bytes

/-! ### Values under texts, in the order of the bytes of the texts -/

namespace Keyed

/-- The pairs in the order of their keys. -/
def sorted (pairs : List (String × α)) : List (String × α) :=
  pairs.mergeSort fun a b => Bytes.le (Bytes.ofText a.1) (Bytes.ofText b.1)

/-- The last pair of each key, in the order of the keys. -/
def latest (pairs : List (String × α)) : List (String × α) :=
  sorted (pairs.foldl (fun kept p => kept.filter (·.1 != p.1) ++ [p]) [])

end Keyed

end ValueMachine

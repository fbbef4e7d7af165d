import ValueMachine.Json.Basic
import ValueMachine.Number.Basic

/-! Reports are documents for tests and diagnostics. They name no addresses, so that equal runs
give equal reports; integers of 64 bits and the bits of floats are texts. -/

namespace ValueMachine.Report

/-- How many characters an address in parentheses takes at the start of a text. -/
def addressLength? : List Char → Option Nat
  | '(' :: '0' :: 'x' :: rest =>
    let digits := rest.takeWhile fun c => (hexValue? c).isSome
    if !digits.isEmpty && (rest.drop digits.length).head? == some ')' then some (digits.length + 4)
    else none
  | _ => none

/-- The characters after some to be passed over, each address hidden. -/
def hideFrom : Nat → List Char → List Char
  | _, [] => []
  | skip + 1, _ :: rest => hideFrom skip rest
  | 0, c :: rest =>
    match addressLength? (c :: rest) with
    | some n => ['(', '0', 'x', '*', ')'] ++ hideFrom (n - 1) rest
    | none => c :: hideFrom 0 rest

/-- A text, its addresses hidden. -/
def text (s : String) : Json := .text (String.ofList (hideFrom 0 s.toList))

/-- Bytes as a text where they are one. -/
def bytes (bs : Bytes) : Json :=
  match bs.toText? with
  | some s => text s
  | none => .object [("x", .text bs.toHex)]

def count (n : Nat) : Json := .int n

def integer (n : Int) : Json := .text (toString n)

def float (x : Float) : Json := .text (if x.isNaN then "nan" else hexText 16 x.toBits.toNat)

def single (x : Float32) : Json := .text (if x.isNaN then "nan" else hexText 8 x.toBits.toNat)

def number : Number → Json
  | .whole (.signed n) => .object [("int", integer n.toInt)]
  | .whole (.unsigned n) => .object [("uint", integer n.toNat)]
  | .float x => .object [("float", float x)]

def bools (bs : List Bool) : Json := .list (bs.map .bool)

/-- What may be missing is null. -/
def optional (f : α → Json) : Option α → Json
  | some a => f a
  | none => .null

mutual

/-- A document with the types of its numbers and containers. -/
def document : Json → Json
  | .null => .null
  | .bool b => .bool b
  | .int n => .object [("i", integer n)]
  | .float x => .object [("f", float x)]
  | .text s => text s
  | .list items => .object [("a", .list (documents items))]
  | .object fields => .object [("o", .list (documentFields fields))]

def documents : List Json → List Json
  | [] => []
  | j :: rest => document j :: documents rest

def documentFields : List (String × Json) → List Json
  | [] => []
  | (key, j) :: rest => .list [text key, document j] :: documentFields rest

end

/-- Texts in order. -/
def sorted (ss : List String) : List String := (Keyed.sorted (ss.map (·, ()))).map (·.1)

end ValueMachine.Report

import ValueMachine.Text.Bytes

/-! Where paths lead. There is one directory that holds files and nothing else; the directories above
it hold nothing but the way down. A path is walked part by part: nothing lies beneath a file. -/

namespace ValueMachine

/-- Where a path leads. -/
inductive Place where
  /-- A directory: the given one, or one above it. -/
  | directory (given : Bool)
  /-- A name in a directory. A mark says that the path asks for a directory of that name. -/
  | entry (given : Bool) (name : String) (marked : Bool)
  /-- Into what is no directory. -/
  | nowhere
  deriving DecidableEq, Repr

namespace Place

/-- Where one more part of a path leads. -/
def step : Place → List Char → Place
  | directory given, [] | directory given, ['.'] => directory given
  | directory _, ['.', '.'] => directory false
  | directory given, name => entry given (String.ofList name) false
  | entry given name _, [] | entry given name _, ['.'] => entry given name true
  | entry .., _ => nowhere
  | nowhere, _ => nowhere

/-- The parts of a path between slashes. -/
def parts : List Char → List (List Char)
  | '/' :: rest => [] :: parts rest
  | c :: rest =>
    match parts rest with
    | first :: more => (c :: first) :: more
    | [] => [[c]]
  | [] => [[]]

/-- How many bytes a name can have. -/
def nameLimit : Nat := 255

/-- How many bytes a path can have. -/
def pathLimit : Nat := 4095

/-- Where a path leads. A path in front of which a slash stands starts above the given directory. -/
def ofPath (path : String) : Place :=
  let cs := path.toList
  if cs.isEmpty || cs.contains '\x00' || path.utf8ByteSize > pathLimit then nowhere
  else (parts cs).foldl step (directory (cs.head? != some '/'))

end Place

/-! ### File names -/

namespace FileName

/-- A file name without its extension; a point in front belongs to the name. -/
def stem (name : List Char) : List Char :=
  let reversed := name.reverse
  match reversed.dropWhile (· != '.') with
  | '.' :: before => if before.isEmpty then name else before.reverse
  | _ => name

/-- The name of the second file, to which a file's new content is written first. -/
def temporary (name : String) : String := String.ofList (stem name.toList) ++ ".tmp"

/-- The end of a path, reversed, without the marks of a directory. -/
def unmarked : List Char → List Char
  | '/' :: rest => unmarked rest
  | '.' :: '/' :: rest => unmarked rest
  | cs => cs

/-- The path of the second file. A path that ends in no name is its own. -/
def temporaryPath (path : String) : String :=
  let reversed := unmarked path.toList.reverse
  let name := (reversed.takeWhile (· != '/')).reverse
  if name.isEmpty || name == ['.'] || name == ['.', '.'] then path
  else
    String.ofList (reversed.dropWhile (· != '/')).reverse ++ temporary (String.ofList name)

end FileName

end ValueMachine

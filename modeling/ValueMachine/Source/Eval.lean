import ValueMachine.Machine.Calls
import ValueMachine.Source.Expr

/-! The evaluation of source text. Values are borrowed or belong to the temporaries; the last
statement's values are the results. -/

namespace ValueMachine.Source

open Machine

/-- A new scalar that belongs to the temporaries. -/
def temporary (s : Scalar) : Run Handle := modifyGet (·.allocMortal (.scalar s))

/-- The last value of a list, a new undefined one where there is none. -/
def lastOrUndefined (values : List Handle) : Run Handle :=
  match values.getLast? with
  | some h => pure h
  | none => temporary .undefined

/-- What a reference refers to, if it is of the wanted kind. -/
def referentOf (kind : Kind) (h : Handle) : Run Handle := do
  match ← Run.look (·.target? h) with
  | some target =>
    if (← Run.look (·.kind target)) = kind then return target else raise (.notReferenceTo kind.name)
  | none => raise (.notReferenceTo kind.name)

/-- A value, a new undefined one where there is none. -/
def orUndefined : Option Handle → Run Handle
  | some h => pure h
  | none => temporary .undefined

/-- The element at an index of the array that a value refers to. -/
def elementOf (base : Handle) (index : List Handle) : Run Handle := do
  let i : Int ← match index with
    | h :: _ => (·.toInt64.toInt) <$> number h
    | [] => pure 0
  let array ← referentOf .array base
  orUndefined (← arrayFetch? array i)

/-- The entry under a key of the hash that a value refers to. -/
def entryOf (base : Handle) (key : Bytes) : Run Handle := do
  let hash ← referentOf .hash base
  orUndefined (← hashFetch? hash key)

/-- The bytes of a key, empty where there is none. -/
def keyOf : List Handle → Run Bytes
  | h :: _ => do return (← text h).bytes
  | [] => pure []

/-- A reference to a new array of copies. -/
def arrayOf (values : List Handle) : Run Handle := do
  let array ← newArray
  values.forM fun h => do arrayPush array (← newCopy h)
  temporary (.ofTarget array)

/-- The entries of a list of keys and values; the last value may be missing. -/
def putPairs (hash : Handle) : List Handle → Run Unit
  | key :: value :: rest => do
    let key ← text key
    hashPut hash key.bytes (← newCopy value)
    putPairs hash rest
  | [key] => do
    let key ← text key
    hashPut hash key.bytes (← newScalar .undefined)
  | [] => pure ()

/-- A reference to a new hash of copies. -/
def hashOf (values : List Handle) : Run Handle := do
  let hash ← newHash
  putPairs hash values
  temporary (.ofTarget hash)

/-- The elements of a global array, new undefined ones for the holes; in scalar context their
number. -/
def elementsOf (name : String) (want : Want) : Run (List Handle) := do
  let elements ← match ← Run.look (·.global? .array name) with
    | some array => do (← slots array).mapM orUndefined
    | none => pure []
  if want = .scalar then return [← temporary (.ofInt64 (Int64.ofNat elements.length))]
  else return elements

/-- Raise the arguments of `die`: a single reference as it is, and otherwise their joined text,
which is completed by the place unless it ends a line. -/
def die (args : List Handle) : Run α := do
  match args with
  | [single] => if ← Run.look (·.isReference single) then raiseValue single
  | _ => pure ()
  let message := String.join (← args.mapM string)
  let message := if message.isEmpty then "Died" else message
  raise (.said (if message.endsWith "\n" then message else message ++ " at (eval) line 1.\n"))

/-- Call a sub or a method, and take the results off the stack. -/
def call (r : Reentry) (name : String) (args : List Handle) (want : Want) (isMethod : Bool) :
    Run (List Handle) := do
  let mark ← Run.look (·.height)
  Run.change fun m => m.pushMark.pushAll args
  let flags := CallFlags.plain want
  let count ← if isMethod then r.callMethod name flags else r.callName name flags
  let results ← Run.look (·.top count)
  Run.change (·.truncate mark)
  return results

/-- Bless the first argument into the class that the second names. -/
def blessArguments (args : List Handle) : Run (List Handle) := do
  match args with
  | [] => raise .blessWithoutArguments
  | target :: rest =>
    let className ← match rest with
      | c :: _ => string c
      | [] => pure "main"
    bless target className
    return [target]

/-- The type of what the first argument refers to, empty for no reference. -/
def typeOfFirst (args : List Handle) : Run Handle := do
  let type ← Run.look fun m => ((args.head?.bind m.target?).map m.objectType).getD ""
  temporary (.ofText type)

mutual

/-- The values of an expression in a context. -/
def Expr.eval (r : Reentry) : Expr → Want → Run (List Handle)
  | .number n, _ => do return [← temporary (.ofNumber n)]
  | .string s, _ => do return [← temporary (.ofText s)]
  | .words list, _ => list.mapM fun w => temporary (.ofText w)
  | .scalar name, _ => do return [← modifyGet (·.global .scalar name)]
  | .array name, want => elementsOf name want
  | .arrayReference name, _ => do
    let array ← modifyGet (·.global .array name)
    Run.change (·.retain array)
    return [← temporary (.ofTarget array)]
  | .reference e, _ => do
    (← e.eval r .list).mapM fun h => do
      Run.change (·.retain h)
      temporary (.ofTarget h)
  | .newArray es, _ => do return [← arrayOf (← es.eval r)]
  | .newHash es, _ => do return [← hashOf (← es.eval r)]
  | .group es, _ => es.eval r
  | .assign name e, _ => do
    let value := (← e.eval r .scalar).getLast?
    let slot ← modifyGet (·.global .scalar name)
    match value with
    | some h => assign slot h
    | none => store slot .undefined
    return [slot]
  | .element base index, want => do
    let target ← lastOrUndefined (← base.eval r want)
    return [← elementOf target (← index.eval r)]
  | .entry base key, want => do
    let target ← lastOrUndefined (← base.eval r want)
    let key ← keyOf (← key.eval r)
    return [← entryOf target key]
  | .namedEntry base key, want => do
    let target ← lastOrUndefined (← base.eval r want)
    return [← entryOf target (Bytes.ofText key)]
  | .method base name args, want => do
    let invocant ← lastOrUndefined (← base.eval r want)
    let args ← args.eval r
    call r name (invocant :: args) want true
  | .badArrow base near, want => do
    let _ ← lastOrUndefined (← base.eval r want)
    raise (.syntaxError near)
  | .undefined, _ => do return [← temporary .undefined]
  | .die args, _ => do die (← args.eval r)
  | .bless args, _ => do blessArguments (← args.eval r)
  | .refType args, _ => do return [← typeOfFirst (← args.eval r)]
  | .isDefined args, _ => do
    let defined ← match ← args.eval r with
      | h :: _ => isDefined h
      | [] => pure false
    return [← temporary (.ofBool defined)]
  | .require name, _ => do
    r.require name
    return [← temporary (.ofBool true)]
  | .call name args, want => do call r name (← args.eval r) want false
  | .bareword name, want => do
    if (← Run.look (·.global? .code name)).isSome then call r name [] want false
    else return [← temporary (.ofText name)]
  | .fault near, _ => raise (.syntaxError near)

/-- The values of a list, each expression in list context. -/
def Items.eval (r : Reentry) : Items → Run (List Handle)
  | .done => pure []
  | .cons e rest => do
    let values ← e.eval r .list
    return values ++ (← rest.eval r)
  | .fault near => raise (.syntaxError near)

end

/-- The values of a statement. -/
def Statement.eval (r : Reentry) (s : Statement) (want : Want) : Run (List Handle) := do
  let values ← s.head.eval r want
  return values ++ (← s.tail.eval r)

/-- The values of the last of some statements; those before it are evaluated in void context. -/
def evalStatements (r : Reentry) (want : Want) : List Statement → Run (List Handle)
  | [] => pure []
  | [last] => last.eval r want
  | s :: rest => do
    let _ ← s.eval r .void
    evalStatements r want rest

/-- The values of a source text. -/
def values (r : Reentry) (source : String) (want : Want) : Run (List Handle) :=
  match tokens source with
  | .error f => raise f
  | .ok ts => evalStatements r want (statements ts)

/-- Evaluate source text as a trap: the results are left on the stack, and an exception in `$@`. -/
def evaluate (r : Reentry) (source : String) (want : Want) : Run Nat := do
  let root ← Run.look (·.height)
  trapped root want do
    let results ← values r source want
    Run.change (·.pushAll results)
    modifyGet (·.settle root want)

end ValueMachine.Source

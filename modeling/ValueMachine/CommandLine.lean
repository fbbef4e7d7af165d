import ValueMachine.Host.Embedded

/-! The command line: source text is evaluated and its results printed, or the file of settings is
written or shown. A command works on a directory of files and answers with texts and an exit code.
-/

namespace ValueMachine.CommandLine

/-- What is explained by a help text. -/
inductive Topic where
  | root
  | eval
  | config
  | init
  | show_
  /-- The help command of the root, or of `config`. -/
  | help (ofConfig : Bool)
  deriving DecidableEq, Repr

/-- A command, with the path of the settings' file. -/
inductive Command where
  | eval (path source : String) (want : Want) (json : Bool)
  | init (path : String) (force : Bool)
  | show_ (path : String)
  | help (topic : Topic)
  deriving DecidableEq, Repr

/-- The path of the settings' file of a command. -/
def Command.path? : Command → Option String
  | eval path _ _ _ | init path _ | show_ path => some path
  | help _ => none

/-- What a command leaves behind. -/
structure Answer where
  code : Nat
  out : String
  err : String
  files : Directory

/-! ### Arguments -/

def defaultPath : String := "perlbridge.json"

/-- What an argument looks like before `--`. -/
inductive Shape where
  /-- The mark that ends the options. -/
  | ending
  /-- A long option with the value after its equals sign. -/
  | long (name : String) (value : Option String)
  /-- Letters after a dash. -/
  | short (letters : List Char)
  | plain (text : String)

/-- The shape of an argument. A dash alone is plain. -/
def shape (arg : String) : Shape :=
  match arg.toList with
  | ['-', '-'] => .ending
  | '-' :: '-' :: cs =>
    .long (String.ofList (cs.takeWhile (· != '=')))
      (match cs.dropWhile (· != '=') with
        | '=' :: value => some (String.ofList value)
        | _ => none)
  | '-' :: c :: cs => .short (c :: cs)
  | _ => .plain arg

/-- The value of an option: after its equals sign, or the next argument if that is plain. -/
def optionValue (given : Option String) (rest : List String) : Option (String × List String) :=
  match given, rest with
  | some v, rest => some (v, rest)
  | none, next :: rest =>
    match shape next with
    | .plain v => some (v, rest)
    | _ => none
  | none, [] => none

/-- A context by its name. -/
def want? : String → Option Want
  | "scalar" => some .scalar
  | "list" => some .list
  | "void" => some .void
  | _ => none

/-- The options and the source given to `eval` so far. -/
structure EvalArgs where
  source : Option String
  want : Option Want
  json : Bool

/-- The one plain argument of `eval`. -/
def EvalArgs.addSource (a : EvalArgs) (s : String) : Option EvalArgs :=
  if a.source.isSome then none else some { a with source := some s }

/-- The command of complete arguments of `eval`. -/
def EvalArgs.finish (path : String) (a : EvalArgs) : Option Command :=
  a.source.map fun s => .eval path s (a.want.getD .scalar) a.json

/-- Read the arguments of `eval`. -/
def parseEval (path : String) : Nat → EvalArgs → List String → Option Command
  | 0, _, _ => none
  | _, a, [] => a.finish path
  | fuel + 1, a, arg :: rest =>
    match shape arg with
    | .ending => (rest.foldlM EvalArgs.addSource a).bind (EvalArgs.finish path)
    | .long "help" none => some (.help .eval)
    | .long "json" none => if a.json then none else parseEval path fuel { a with json := true } rest
    | .long "context" given => do
      let (v, rest) ← optionValue given rest
      let w ← want? v
      if a.want.isSome then none else parseEval path fuel { a with want := some w } rest
    | .long _ _ => none
    | .short ('h' :: _) => some (.help .eval)
    | .short _ => none
    | .plain s => (a.addSource s).bind fun a => parseEval path fuel a rest

/-- Read the arguments of `config init`. -/
def parseInit (path : String) : Bool → List String → Option Command
  | force, [] => some (.init path force)
  | force, arg :: rest =>
    match shape arg with
    | .long "force" none => if force then none else parseInit path true rest
    | .long "help" none | .short ('h' :: _) => some (.help .init)
    | .ending => if rest.isEmpty then some (.init path force) else none
    | _ => none

/-- Read the arguments of `config show`. -/
def parseShow (path : String) : List String → Option Command
  | [] => some (.show_ path)
  | arg :: rest =>
    match shape arg with
    | .long "help" none | .short ('h' :: _) => some (.help .show_)
    | .ending => if rest.isEmpty then some (.show_ path) else none
    | _ => none

/-- What `config help` explains. -/
def configTopic? : List String → Option Topic
  | [] => some .config
  | ["init"] => some .init
  | ["show"] => some .show_
  | ["help"] => some (.help true)
  | _ => none

/-- Read the arguments of `config`. -/
def parseConfig (path : String) : List String → Option Command
  | "init" :: rest => parseInit path false rest
  | "show" :: rest => parseShow path rest
  | "help" :: rest => (configTopic? rest).map .help
  | arg :: _ =>
    match shape arg with
    | .long "help" none | .short ('h' :: _) => some (.help .config)
    | _ => none
  | [] => none

/-- What `help` explains. -/
def topic? : List String → Option Topic
  | [] => some .root
  | ["eval"] => some .eval
  | ["help"] => some (.help false)
  | "config" :: rest => configTopic? rest
  | _ => none

/-- Read all arguments. The path of the settings stands before the command, once at most, and is not
empty. -/
def parseRoot : Nat → Option String → List String → Option Command
  | 0, _, _ => none
  | _, _, [] => none
  | fuel + 1, path, arg :: rest =>
    let withPath (given : Option String) : Option Command := do
      let (v, rest) ← optionValue given rest
      if path.isSome || v.isEmpty then none else parseRoot fuel (some v) rest
    match shape arg with
    | .ending => none
    | .long "config" given => withPath given
    | .long "help" none => some (.help .root)
    | .long _ _ => none
    | .short ('c' :: '=' :: value) => withPath (some (String.ofList value))
    | .short ['c'] => withPath none
    | .short ('c' :: value) => withPath (some (String.ofList value))
    | .short ('h' :: _) => some (.help .root)
    | .short _ => none
    | .plain "eval" =>
      parseEval (path.getD defaultPath) (rest.length + 1) ⟨none, none, false⟩ rest
    | .plain "config" => parseConfig (path.getD defaultPath) rest
    | .plain "help" => (topic? rest).map .help
    | .plain _ => none

/-- The command that arguments stand for, if they are used correctly. -/
def parse (args : List String) : Option Command := parseRoot (args.length + 1) none args

/-! ### Help -/

/-- Lines of text, each with its end. -/
def lines (ls : List String) : String := String.join (ls.map (· ++ "\n"))

def Topic.text : Topic → String
  | .root => lines
    ["Evaluate source in an embedded interpreter", "",
      "Usage: perlbridge-cli [OPTIONS] <COMMAND>", "",
      "Commands:",
      "  eval    Evaluate source and print the result",
      "  config  Manage the configuration file",
      "  help    Print this message or the help of the given subcommand(s)", "",
      "Options:",
      "  -c, --config <CONFIG>  Interpreter configuration file [default: perlbridge.json]",
      "  -h, --help             Print help"]
  | .eval => lines
    ["Evaluate source and print the result", "",
      "Usage: perlbridge-cli eval [OPTIONS] <SOURCE>", "",
      "Arguments:",
      "  <SOURCE>  Source text", "",
      "Options:",
      "      --context <CONTEXT>  Context to evaluate in [default: scalar] "
        ++ "[possible values: scalar, list, void]",
      "      --json               Print results as JSON",
      "  -h, --help               Print help"]
  | .config => lines
    ["Manage the configuration file", "",
      "Usage: perlbridge-cli config <COMMAND>", "",
      "Commands:",
      "  init  Write a default configuration",
      "  show  Print the effective configuration",
      "  help  Print this message or the help of the given subcommand(s)", "",
      "Options:",
      "  -h, --help  Print help"]
  | .init => lines
    ["Write a default configuration", "",
      "Usage: perlbridge-cli config init [OPTIONS]", "",
      "Options:",
      "      --force  Overwrite an existing file",
      "  -h, --help   Print help"]
  | .show_ => lines
    ["Print the effective configuration", "",
      "Usage: perlbridge-cli config show", "",
      "Options:",
      "  -h, --help  Print help"]
  | .help ofConfig => lines
    ["Print this message or the help of the given subcommand(s)", "",
      "Usage: perlbridge-cli " ++ (if ofConfig then "config " else "") ++ "help [COMMAND]...", "",
      "Arguments:",
      "  [COMMAND]...  Print help for the subcommand(s)"]

/-! ### Commands -/

/-- The answer of a command that went wrong after it had printed something. -/
def failed (files : Directory) (out message : String) : Answer :=
  ⟨1, out, "Error: " ++ message ++ "\n", files⟩

/-- Print values one after the other, each on lines of its own. A value that cannot be printed ends
it. -/
def printAll (json : Bool) : List Held → Run (String × Option Failure)
  | [] => return ("", none)
  | v :: rest => do
    let printed : Bridge String := do
      if json then return (← Document.ofValue v.handle).pretty
      else Machine.string v.handle
    match ← printed.run with
    | .error f => return ("", some f)
    | .ok s =>
      let (out, failure) ← printAll json rest
      return (s ++ "\n" ++ out, failure)

/-- Evaluate source text in a new interpreter and print the results. -/
def evaluate (lib : Library) (s : Settings) (source : String) (want : Want) (json : Bool) :
    Run (String × Option String) := do
  let results : Bridge (List Held) := do
    let _ ← Embedded.start lib .first s
    match want with
    | .scalar => return [← Host.callScalar lib.calls .scalar (.source source) []]
    | .list => Host.callList lib.calls (.source source) [] .list
    | .void =>
      Host.callVoid lib.calls (.source source) []
      return []
  match ← results.run with
  | .error f => return ("", some (← f.message))
  | .ok vs =>
    let (out, failure) ← printAll json vs
    match failure with
    | some f => return (out, some (← f.message))
    | none => return (out, none)

/-- Run a command on a directory. -/
def Command.run (lib : Library) (files : Directory) : Command → Answer
  | .eval path source want json =>
    match Settings.effective files path with
    | .error e => failed files "" e.message
    | .ok s =>
      match evaluate lib s source want json Machine.empty with
      | .ok (out, none) _ => ⟨0, out, "", files⟩
      | .ok (out, some message) _ => failed files out message
      | .error _ _ => ⟨101, "", "\nevaluation was given up\n", files⟩
  | .init path force =>
    if files.has path && !force then
      failed files "" (Text.quote path ++ " already exists; pass --force to overwrite")
    else match Settings.standard.write files path with
      | (.ok (), files) =>
        ⟨0, "Wrote default configuration to " ++ Text.quote path ++ "\n", "", files⟩
      | (.error _, files) => failed files "" ("Failed to write " ++ Text.quote path)
  | .show_ path =>
    match Settings.effective files path with
    | .error e => failed files "" e.message
    | .ok s => ⟨0, s.toJson.pretty ++ "\n", "", files⟩
  | .help topic => ⟨0, topic.text, "", files⟩

/-- Run a command line on a directory. Arguments that are no command are answered by code 2. -/
def run (lib : Library) (files : Directory) (args : List String) : Answer :=
  match parse args with
  | some command => command.run lib files
  | none => ⟨2, "", "error: the arguments are no command; try --help\n", files⟩

end ValueMachine.CommandLine

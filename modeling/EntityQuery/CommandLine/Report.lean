import EntityQuery.CommandLine.Arguments
import EntityQuery.Compilation
import EntityQuery.Description.Select
import EntityQuery.Settings.Reading

/-!
# Running a command

A run is a function of the arguments and of what the host holds, files and variables. Its outcome
is what is printed and the exit code: zero, one after an error, two after a mistake in the
arguments.
-/

namespace EntityQuery.CommandLine

open EntityQuery

structure Host where
  file : String → File
  env : Environment

structure Outcome where
  exit : Nat
  out : String
  err : String
  deriving DecidableEq

def Outcome.success (out : String) : Outcome := ⟨0, out, ""⟩

def Outcome.failure (err : String) : Outcome := ⟨1, "", err ++ "\n"⟩

def unlines (lines : List String) : String := String.join (lines.map (· ++ "\n"))

/-! ## Texts -/

def parameterLine (p : Sql.Parameter) : String :=
  match p.type with
  | some type => s!"-- {p.name} = {p.value.display} ({type})"
  | none => s!"-- {p.name} = {p.value.display}"

/-- A statement and its parameters as comments. -/
def statementLines (s : Sql.Statement) : List String :=
  (s.sql ++ ";") :: s.params.map parameterLine

def statementDocument (s : Sql.Statement) : Document :=
  let parameter (p : Sql.Parameter) : Document :=
    .table [("name", .text p.name), ("value", p.value.document),
      ("sql_type", .ofOption .text p.type)]
  .table [("sql", .text s.sql), ("params", .ofList parameter s.params)]

def compiledText (c : CompiledQuery) (count : Bool) : OutputFormat → String
  | .sql =>
    unlines (statementLines c.statement ++
      if count then ["", "-- count"] ++ statementLines c.countStatement else [])
  | .json =>
    let document := Document.table [("dialect", .text c.dialect.name),
      ("statement", statementDocument c.statement),
      ("count", if count then statementDocument c.countStatement else .null),
      ("shape", c.shape.document)]
    unlines [document.pretty]

def entityLine (e : EntityDecl) : String :=
  s!"  - {e.name} (table: \"{e.table}\", {e.columns.length} columns, " ++
    s!"{e.relations.length} relationships)"

/-- The entities of a model and its fingerprint. -/
def modelText (path : String) (m : Model) : String :=
  unlines (["File: " ++ path, "", "Entities:"] ++ m.declarations.map entityLine ++
    ["", "Fingerprint: " ++ m.fingerprint])

def optionLines : Topic → List String
  | .program =>
    ["  -c, --config <CONFIG>  Settings file (TOML)", "  -h, --help             Print help",
      "  -V, --version          Print version"]
  | .compile =>
    ["  -c, --config <CONFIG>    Settings file (TOML)",
      "  -m, --model <MODEL>      Path to the model file",
      "  -q, --query <QUERY>      Path to the query file",
      "  -d, --dialect <DIALECT>  SQL dialect to generate (defaults to the configured dialect) " ++
        "[possible values: postgresql, mysql, sqlserver]",
      "      --count              Also print the count statement",
      "  -f, --format <FORMAT>    Output format [default: sql] [possible values: sql, json]",
      "  -h, --help               Print help"]
  | .check =>
    ["  -c, --config <CONFIG>  Settings file (TOML)",
      "  -m, --model <MODEL>    Path to the model file", "  -h, --help             Print help"]
  | .help => []

def helpText (topic : Topic) : String :=
  let (about, usage) := match topic with
    | .program => ("Compile relational queries over an entity model to SQL",
        "relquery [OPTIONS] <COMMAND>")
    | .compile => ("Compile a query file to SQL",
        "relquery compile [OPTIONS] --model <MODEL> --query <QUERY>")
    | .check => ("Validate a model file and list its entities",
        "relquery check [OPTIONS] --model <MODEL>")
    | .help => ("Print this message or the help of the given subcommand(s)",
        "relquery help [COMMAND]")
  let commands := if topic = .program then
      ["", "Commands:", "  compile  Compile a query file to SQL",
        "  check    Validate a model file and list its entities",
        "  help     Print this message or the help of the given subcommand(s)"]
    else []
  let options := match optionLines topic with
    | [] => []
    | lines => ["", "Options:"] ++ lines
  unlines ([about, "", "Usage: " ++ usage] ++ commands ++ options)

/-! ## Runs -/

/-- The instant at which a run takes place; nothing of it is kept for a later one. -/
def instant : Nat := 0

def Command.run (host : Host) (settings : Settings) : Command → Outcome
  | compile model query dialect count format =>
    match Session.ofFile settings model (host.file model) with
    | .error e => .failure ("Model error: " ++ e.message)
    | .ok session =>
      match session.compileFile instant (dialect.getD settings.dialect) query (host.file query) with
      | .error e => .failure ("Compilation error: " ++ e.message)
      | .ok c => .success (compiledText c count format)
  | check model =>
    match Session.ofFile settings model (host.file model) with
    | .error e => .failure ("Model error: " ++ e.message)
    | .ok session => .success (modelText model session.model)

def Invocation.run (host : Host) (i : Invocation) : Outcome :=
  match i.config with
  | none => i.command.run host .default
  | some path =>
    match Settings.ofFile host.env path (host.file path) with
    | .ok settings => i.command.run host settings
    | .error e => .failure s!"Error loading settings '{path}': {e.message}"

def Stop.outcome : Stop → Outcome
  | usage =>
    ⟨2, "", unlines ["error: invalid arguments", "", "For more information, try '--help'."]⟩
  | help topic => .success (helpText topic)
  | version => .success (unlines ["relquery 0.1.0"])

/-- The outcome of the program. -/
def run (host : Host) (args : List String) : Outcome :=
  match parse args with
  | .ok invocation => invocation.run host
  | .error stop => stop.outcome

end EntityQuery.CommandLine

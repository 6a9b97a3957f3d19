import EntityQuery.Sql.Dialect

/-!
# Command line arguments

Arguments are read from left to right. A request for help or for the version ends the reading at
once, and so does a mistake. Options may be written `--name value`, `--name=value`, `-n value`,
`-nvalue` and `-n=value`, each at most once; the settings file may be given before or after the
command, and counts after it if both are there.
-/

namespace EntityQuery.CommandLine

open EntityQuery

inductive OutputFormat where
  | sql | json
  deriving DecidableEq

inductive Command where
  | compile (model query : String) (dialect : Option Sql.Dialect) (count : Bool)
    (format : OutputFormat)
  | check (model : String)
  deriving DecidableEq

structure Invocation where
  /-- The settings file. -/
  config : Option String
  command : Command
  deriving DecidableEq

/-- The files that a command may read. -/
def Command.files : Command → List String
  | compile model query .. => [model, query]
  | check model => [model]

inductive Topic where
  | program | compile | check | help
  deriving DecidableEq

/-- Why no command is run. -/
inductive Stop where
  | usage
  | help (topic : Topic)
  | version
  deriving DecidableEq

/-! ## Options -/

inductive Opt where
  | config | model | query | dialect | count | format | help | version
  deriving DecidableEq

namespace Opt

def long : Opt → String
  | config => "config"
  | model => "model"
  | query => "query"
  | dialect => "dialect"
  | count => "count"
  | format => "format"
  | help => "help"
  | version => "version"

def short? : Opt → Option Char
  | config => some 'c'
  | model => some 'm'
  | query => some 'q'
  | dialect => some 'd'
  | count => none
  | format => some 'f'
  | help => some 'h'
  | version => some 'V'

def takesValue : Opt → Bool
  | count | help | version => false
  | _ => true

end Opt

/-- The options of the program, of `compile` and of `check`. -/
def Topic.options : Topic → List Opt
  | program => [.config, .help, .version]
  | compile => [.model, .query, .dialect, .count, .format, .config, .help]
  | check => [.model, .config, .help]
  | help => []

/-- The options given so far. -/
structure Given where
  config : Option String
  model : Option String
  query : Option String
  dialect : Option Sql.Dialect
  count : Bool
  format : Option OutputFormat

def Given.nothing : Given := ⟨none, none, none, none, false, none⟩

/-- The name of a file is not empty. -/
def fileName? (s : String) : Option String := if s.isEmpty then none else some s

def dialect? : String → Option Sql.Dialect
  | "postgresql" => some .postgreSql
  | "mysql" => some .mySql
  | "sqlserver" => some .sqlServer
  | _ => none

def format? : String → Option OutputFormat
  | "sql" => some .sql
  | "json" => some .json
  | _ => none

/-- Reads a value for an option that has none yet. -/
def once {α : Type} (current : Option α) (value : Option α) : Except Stop (Option α) :=
  match current, value with
  | none, some a => .ok (some a)
  | _, _ => .error .usage

namespace Given

/-- Sets an option that takes a value. -/
def set (g : Given) (o : Opt) (value : String) : Except Stop Given := do
  match o with
  | .config => return { g with config := ← once g.config (fileName? value) }
  | .model => return { g with model := ← once g.model (fileName? value) }
  | .query => return { g with query := ← once g.query (fileName? value) }
  | .dialect => return { g with dialect := ← once g.dialect (dialect? value) }
  | .format => return { g with format := ← once g.format (format? value) }
  | .count | .help | .version => throw .usage

/-- Raises an option that takes no value; none if the option takes one. -/
def raise? (g : Given) (topic : Topic) : Opt → Option (Except Stop Given)
  | .help => some (.error (.help topic))
  | .version => some (.error .version)
  | .count => some (if g.count then .error .usage else .ok { g with count := true })
  | _ => none

end Given

/-! ## Reading -/

/-- An argument by its form. -/
inductive Argument where
  | word
  | long (name : String) (value : Option String)
  /-- A short option and what follows it in the same argument. -/
  | short (name : Char) (rest : List Char)

def Argument.ofText (s : String) : Argument :=
  match s.toList with
  | '-' :: '-' :: cs =>
    match cs.span (· ≠ '=') with
    | (name, _ :: value) => .long (String.ofList name) (some (String.ofList value))
    | (name, []) => .long (String.ofList name) none
  | '-' :: c :: cs => .short c cs
  | _ => .word

/-- Whether an argument can be the value of the option before it. -/
def isValue (s : String) : Bool :=
  match Argument.ofText s with
  | .word => true
  | _ => false

/-- The value attached to a short option. -/
def attached? : List Char → Option String
  | [] => none
  | '=' :: cs => some (String.ofList cs)
  | cs => some (String.ofList cs)

/-- The option that an argument names and the value attached to it. Short options that take no
value end the reading, so what follows them does not matter. -/
def Argument.option? (topic : Topic) : Argument → Option (Opt × Option String)
  | word => none
  | long name value => do return (← topic.options.find? (·.long = name), value)
  | short name rest => do
    let o ← topic.options.find? (·.short? = some name)
    return (o, if o.takesValue then attached? rest else none)

/-- Reads options up to the first word, and returns what is left. Two dashes end the options; no
word may follow them. -/
def readOptions (topic : Topic) : Given → List String → Except Stop (Given × List String)
  | g, [] => .ok (g, [])
  | g, arg :: args =>
    if arg = "--" then if args.isEmpty then .ok (g, []) else .error .usage
    else if isValue arg then .ok (g, arg :: args)
    else
      match (Argument.ofText arg).option? topic with
      | none => .error .usage
      | some (o, value) =>
        match g.raise? topic o, value with
        | some raised, none => do readOptions topic (← raised) args
        | some _, some _ => .error .usage
        | none, some value => do readOptions topic (← g.set o value) args
        | none, none =>
          match args with
          | [] => .error .usage
          | next :: args =>
            if isValue next then do readOptions topic (← g.set o next) args
            else .error .usage

/-- The options of a command that takes no words. -/
def onlyOptions (topic : Topic) (args : List String) : Except Stop Given := do
  match ← readOptions topic .nothing args with
  | (g, []) => return g
  | _ => throw .usage

def required {α : Type} : Option α → Except Stop α
  | some a => .ok a
  | none => .error .usage

def topic? : List String → Option Topic
  | [] => some .program
  | ["compile"] => some .compile
  | ["check"] => some .check
  | ["help"] => some .help
  | _ => none

/-- Reads the arguments of the program. -/
def parse (args : List String) : Except Stop Invocation := do
  let (outer, rest) ← readOptions .program .nothing args
  match rest with
  | "compile" :: rest =>
    let g ← onlyOptions .compile rest
    let model ← required g.model
    let query ← required g.query
    return ⟨g.config.or outer.config,
      .compile model query g.dialect g.count (g.format.getD .sql)⟩
  | "check" :: rest =>
    let g ← onlyOptions .check rest
    return ⟨g.config.or outer.config, .check (← required g.model)⟩
  | "help" :: names =>
    match topic? names with
    | some topic => throw (.help topic)
    | none => throw .usage
  | _ => throw .usage

end EntityQuery.CommandLine

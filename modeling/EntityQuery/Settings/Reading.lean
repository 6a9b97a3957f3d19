import EntityQuery.Document.Toml.Reader
import EntityQuery.Environment
import EntityQuery.File
import EntityQuery.Settings

/-!
# Settings files

Settings are read from the tables `compiler` and `cache` of a TOML text. What is missing has its
default value, and other fields are left aside. The default schema may refer to environment
variables; an empty one counts as none.
-/

namespace EntityQuery

open Document (optional? withDefault?)

inductive SettingsError where
  | fileNotFound (path : String)
  | unreadable (reason : FileError)
  | malformed
  | missingVariable (name : String)
  | zeroTtl
  deriving DecidableEq

def SettingsError.message : SettingsError → String
  | fileNotFound path => s!"Config file not found: {path}"
  | unreadable reason => s!"Failed to read config file: {reason.message}"
  | malformed => s!"Failed to parse config file: {EntityQuery.malformed}"
  | missingVariable name => s!"Missing environment variable: {name}"
  | zeroTtl => "Invalid configuration: cache.ttl_seconds must be greater than zero"

namespace Settings

def dialectOf? (d : Document) : Option Sql.Dialect := (d.name? .toml).bind Sql.Dialect.ofName?

/-- The settings as they are written, with the variables in place. -/
def ofDocument? (d : Document) : Option Settings := do
  let empty := Document.table []
  let field ← d.record? .toml ["compiler", "cache"]
  let compiler ← ((field "compiler").getD empty).record? .toml
    ["dialect", "default_schema", "eager_depth"]
  let cache ← ((field "cache").getD empty).record? .toml ["ttl_seconds"]
  return {
    dialect := ← withDefault? dialectOf? Settings.default.dialect (compiler "dialect")
    defaultSchema := ← optional? Document.text? (compiler "default_schema")
    eagerDepth :=
      ← withDefault? Document.count? Settings.default.eagerDepth (compiler "eager_depth")
    ttlSeconds := ← withDefault? Document.count? Settings.default.ttlSeconds (cache "ttl_seconds") }

/-- Puts in the variables. -/
def expand (env : Environment) (s : Settings) : Except SettingsError Settings :=
  match s.defaultSchema with
  | none => .ok s
  | some text =>
    match env.expand text with
    | .ok schema => .ok { s with defaultSchema := if schema.isEmpty then none else some schema }
    | .error name => .error (.missingVariable name)

/-- Shared roots must be kept for some time. -/
def validate (s : Settings) : Except SettingsError Settings :=
  if s.ttlSeconds = 0 then .error .zeroTtl else .ok s

def ofText (env : Environment) (text : String) : Except SettingsError Settings :=
  match (Document.Toml.read? text).bind ofDocument? with
  | none => .error .malformed
  | some s => do (← s.expand env).validate

def ofFile (env : Environment) (path : String) : File → Except SettingsError Settings
  | .ok text => ofText env text
  | .error reason => .error (if reason.isAbsent then .fileNotFound path else .unreadable reason)

/-- The variables that a settings text refers to. -/
def variablesOf (text : String) : List String :=
  match ((Document.Toml.read? text).bind ofDocument?).bind (·.defaultSchema) with
  | some schema => Environment.mentioned schema
  | none => []

end Settings

end EntityQuery

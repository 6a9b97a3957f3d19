import EntityQuery.Document.Toml.Reader
import EntityQuery.File
import EntityQuery.QueryFile
import EntityQuery.Select.Assembly

/-!
# Compiling files

From the texts of a model file and a query file to a compiled query.
-/

namespace EntityQuery

inductive CompileError where
  | unreadable (path : String) (reason : FileError)
  | malformed
  | query (e : QueryError)

def CompileError.message : CompileError → String
  | unreadable path reason => s!"failed to read {path}: {reason.message}"
  | malformed => s!"invalid query file: {EntityQuery.malformed}"
  | query e => e.message

namespace Session

/-- A session over the model of a TOML text. -/
def ofText (settings : Settings) (text : String) : Except QueryError Session :=
  match (Document.Toml.read? text).bind EntityDecl.listOfFile? with
  | some declarations => Session.build settings declarations
  | none => .error (.invalidModel malformed)

def ofFile (settings : Settings) (path : String) : File → Except QueryError Session
  | .ok text => ofText settings text
  | .error reason => .error (.invalidModel s!"{path}: {reason.message}")

/-- Compiles the query of a TOML text. -/
def compileText (s : Session) (now : Nat) (dialect : Sql.Dialect) (text : String) :
    Except CompileError CompiledQuery :=
  match (Document.Toml.read? text).bind (QueryFile.ofDocument? .toml) with
  | none => .error .malformed
  | some file =>
    Except.mapError .query do
      let (q, s) ← file.build s now
      q.compile s.model dialect

def compileFile (s : Session) (now : Nat) (dialect : Sql.Dialect) (path : String) :
    File → Except CompileError CompiledQuery
  | .ok text => s.compileText now dialect text
  | .error reason => .error (.unreadable path reason)

end Session

end EntityQuery

import EntityQuery.Sql.Dialect

/-!
# Settings
-/

namespace EntityQuery

structure Settings where
  /-- The dialect of a query that names none. -/
  dialect : Sql.Dialect
  /-- The schema of the tables that declare none. -/
  defaultSchema : Option String
  /-- How many one-to-one relationships a selection of all columns follows. -/
  eagerDepth : Nat
  /-- How long a shared root is kept. -/
  ttlSeconds : Nat
  deriving DecidableEq

def Settings.default : Settings := ⟨.postgreSql, none, 2, 3600⟩

instance : Inhabited Settings := ⟨.default⟩

end EntityQuery

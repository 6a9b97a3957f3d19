import EntityQuery.Description.Graph
import EntityQuery.Document.JsonReader
import EntityQuery.FileTree
import EntityQuery.Main
import EntityQuery.Proofs.Graph.Collisions
import EntityQuery.Proofs.Graph.Outcomes
import EntityQuery.Proofs.Graph.Positions
import EntityQuery.Proofs.Graph.Registration
import EntityQuery.Proofs.Predicate.ColumnPaths
import EntityQuery.Proofs.Predicate.Containment
import EntityQuery.Proofs.Predicate.NormalForm
import EntityQuery.Proofs.Predicate.Unlike
import EntityQuery.Proofs.Predicate.Words
import EntityQuery.Proofs.Scope.Directions
import EntityQuery.Proofs.Scope.Tally
import EntityQuery.Proofs.Select.AllColumns
import EntityQuery.Proofs.Select.Conditions
import EntityQuery.Proofs.Select.Documents
import EntityQuery.Proofs.Select.Labels
import EntityQuery.Proofs.Select.Paging
import EntityQuery.Proofs.Select.Requests
import EntityQuery.Proofs.Select.Windows
import EntityQuery.Proofs.Sql.Quoting
import EntityQuery.Proofs.Text.Expansion

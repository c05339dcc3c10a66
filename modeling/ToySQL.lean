import ToySQL.Main.Shape
import ToySQL.Main.Statements
import ToySQL.Main.Layouts
import ToySQL.Main.WorkQueue
import ToySQL.Main.Connection
import ToySQL.Main.Repl
import ToySQL.Main.LeafSplit
import ToySQL.Main.NodeSplit
import ToySQL.Main.Paging
import ToySQL.Main.FreshTable
import ToySQL.Main.Rows
import ToySQL.Main.Spans
import ToySQL.Main.MaxKey
import ToySQL.Main.RootSplit
import ToySQL.Main.LeafInsert
import ToySQL.Main.NodeInsert
import ToySQL.Main.RowsKept
import ToySQL.Main.Accesses
import ToySQL.Main.Exits
import ToySQL.Spec.Requests
import ToySQL.Proof.Asking
import ToySQL.Main.Termination
import ToySQL.Proof.FindChild
import ToySQL.Main.Characters
import ToySQL.Main.LowerBound
import ToySQL.Spec.Flushing
import ToySQL.Main.Durability
import ToySQL.Spec.BTree
import ToySQL.Proof.Lookup
import ToySQL.Proof.Aside
import ToySQL.Main.OutOfPages
import ToySQL.Proof.LeafSplit
import ToySQL.Proof.RootSplit
import ToySQL.Proof.InOrder
import ToySQL.Spec.Queries
import ToySQL.Proof.Prefixes
import ToySQL.Main.Lookups
import ToySQL.Proof.Scan
import ToySQL.Main.Scans
import ToySQL.Spec.Reading
import ToySQL.Proof.Reading
import ToySQL.Main.Reading
import ToySQL.Main.Selects
import ToySQL.Lib.Layers
import ToySQL.Main.Height
import ToySQL.Spec.Printing
import ToySQL.Main.Printing
import ToySQL.Spec.Server
import ToySQL.Main.Server
import ToySQL.Spec.Writing
import ToySQL.Main.Writing
import ToySQL.Main.Clients
import ToySQL.Spec.Visits
import ToySQL.Proof.Visits
import ToySQL.Main.Visits
import ToySQL.Lib.Versions
import ToySQL.Lib.Moments
import ToySQL.Spec.Crash
import ToySQL.Main.Crash
import ToySQL.Main.Recovery
import ToySQL.Lib.Deepening
import ToySQL.Main.Recursion

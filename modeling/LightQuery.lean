import LightQuery.Lib.CommonPrefix
import LightQuery.Lib.CArray
import LightQuery.Lib.PrefixFamily
import LightQuery.Memory
import LightQuery.Art.Node
import LightQuery.Art.Layout
import LightQuery.Art.AddChild
import LightQuery.Art.RemoveChild
import LightQuery.Art.Tree
import LightQuery.Art.Search
import LightQuery.Art.Graft
import LightQuery.Art.Insert
import LightQuery.Art.Disable
import LightQuery.Art.Delete
import LightQuery.Art.Split
import LightQuery.Art.Overrun
import LightQuery.Art.Iterate
import LightQuery.Art.Ordered
import LightQuery.Art.Iter
import LightQuery.Art.DeletePrefix
import LightQuery.Art.Canonical
import LightQuery.Index.Map
import LightQuery.Index.Refine
import LightQuery.Index.Runs
import LightQuery.Index.Stored
import LightQuery.Index.Ordered
import LightQuery.Index.Scopes
import LightQuery.Index.Shape
import LightQuery.Index.Canonical
import LightQuery.Lib.Machine
import LightQuery.Lib.Merge
import LightQuery.Dataflow.Message
import LightQuery.Dataflow.OpCode
import LightQuery.Dataflow.Operators
import LightQuery.Dataflow.State
import LightQuery.Dataflow.Work
import LightQuery.Dataflow.OperatorRuns
import LightQuery.Dataflow.Addresses
import LightQuery.Dataflow.Parameter
import LightQuery.Dataflow.Field
import LightQuery.Dataflow.Effects
import LightQuery.Dataflow.Frame
import LightQuery.Dataflow.Accounting
import LightQuery.Dataflow.Cases
import LightQuery.Dataflow.Schedule
import LightQuery.Dataflow.Termination
import LightQuery.Dataflow.Serve
import LightQuery.Dataflow.Delivery
import LightQuery.Dataflow.Simulation
import LightQuery.Dataflow.Query
import LightQuery.Dataflow.Cancellation
import LightQuery.Dataflow.Sound
import LightQuery.Dataflow.Sequence
import LightQuery.Dataflow.Dispatch
import LightQuery.Dataflow.Fed
import LightQuery.Dataflow.Service
import LightQuery.Dataflow.Shutdown
import LightQuery.Art.IterPrefix
import LightQuery.Lib.Heap
import LightQuery.Ledger.Blocks
import LightQuery.Ledger.Actions
import LightQuery.Ledger.Trees
import LightQuery.Ledger.Removal
import LightQuery.Ledger.Session
import LightQuery.Ledger.Rest
import LightQuery.Ledger.Messages
import LightQuery.Ledger.Destruct
import LightQuery.Lib.Lanes
import LightQuery.Index.Vector

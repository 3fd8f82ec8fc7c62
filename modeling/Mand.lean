import Mand.Msg.RoundTrip
import Mand.Index.Insert
import Mand.Index.Remove
import Mand.Index.Walk
import Mand.Store.Value
import Mand.Index.Tree
import Mand.Index.Run
import Mand.Index.Order
import Mand.Index.Find
import Mand.Lib.Decimal
import Mand.Store.Heap
import Mand.Store.Instance
import Mand.Lib.Inet
import Mand.Store.Set
import Mand.Server.Cache
import Mand.Server.Session
import Mand.Server.Exclusive
import Mand.Server.Discard
import Mand.Index.Inst
import Mand.Server.Commit
import Mand.Server.Authority
import Mand.Server.Slots
import Mand.Store.Wf
import Mand.Net.Context
import Mand.Net.Requests
import Mand.Net.Sending
import Mand.Net.Framing
import Mand.Store.Alloc
import Mand.Store.Paths
import Mand.Store.Keeps
import Mand.Store.Rows
import Mand.Store.Add
import Mand.Store.Delete
import Mand.Store.Write
import Mand.Server.Keeping
import Mand.Server.Dangling
import Mand.Server.Accounting
import Mand.Server.Deletion
import Mand.Save.Walk
import Mand.Lib.Base64
import Mand.Save.Serialize
import Mand.Save.Within
import Mand.Save.Flags
import Mand.Save.Document
import Mand.Server.Isolation
import Mand.Store.Marks
import Mand.Server.ReadBack
import Mand.Action.Table
import Mand.Action.Chain
import Mand.Action.Reach
import Mand.Notify.Pending
import Mand.Msg.Short
import Mand.Notify.Events
import Mand.Notify.Delivery
import Mand.Notify.Levels
import Mand.Store.MapAt
import Mand.Notify.Walks
import Mand.Notify.Forget
import Mand.Notify.Recursive
import Mand.Signal.Emit
import Mand.Signal.Project
import Mand.Signal.Written
import Mand.Signal.Report
import Mand.Signal.Phases
import Mand.Signal.Order
import Mand.Rpc.Expect
import Mand.Rpc.Bounds
import Mand.Rpc.Malformed
import Mand.Rpc.Agree
import Mand.Rpc.Reply
import Mand.Rpc.Fidelity
import Mand.Rpc.Sync
import Mand.Net.Lifetime
import Mand.Rpc.Get
import Mand.Interface.Live
import Mand.Interface.Writes
import Mand.Interface.Reentry
import Mand.Store.Spelling
import Mand.Rpc.Value
import Mand.Store.Grammar
import Mand.Msg.Reads
import Mand.Store.Buffer
import Mand.Rpc.Width
import Mand.Net.Progress
import Mand.Net.Nesting
import Mand.Server.Array
import Mand.Signal.Failure
import Mand.Lib.Scan
import Mand.Rpc.Text
import Mand.Rpc.TextTrip
import Mand.Server.Fresh
import Mand.Rpc.Forms
import Mand.Store.Relabel
import Mand.Store.Same
import Mand.Index.Compare
import Mand.Index.Back
import Mand.Store.Number
import Mand.Action.Schedule
import Mand.Msg.Buffer
import Mand.Msg.Length
import Mand.Store.SmallId
import Mand.Lib.Bracket
import Mand.Save.Depth
import Mand.Save.Select
import Mand.Rpc.Listing
import Mand.Load.Chars
import Mand.Load.Escape
import Mand.Lib.Numeral
import Mand.Load.Convert
import Mand.Load.Integers
import Mand.Load.Changed
import Mand.Load.Clock
import Mand.Load.Zone
import Mand.Lib.Digraph
import Mand.Yang.Chains
import Mand.Yang.Warshall
import Mand.Yang.Depths
import Mand.Yang.Reduce
import Mand.Load.Deserialize
import Mand.Load.Stack
import Mand.Store.Shape
import Mand.Store.Grow
import Mand.Load.Enter
import Mand.Load.Containers
import Mand.Binary.Base64
import Mand.Binary.Escape
import Mand.Lib.CString
import Mand.Lib.Words
import Mand.Store.Lists
import Mand.Store.Selector
import Mand.Lib.InPlace
import Mand.Store.Normalize
import Mand.Lib.Shell
import Mand.Store.Netmask
import Mand.Validate.Url
import Mand.Lib.Updates
import Mand.Net.Answers
import Mand.Net.Connection
import Mand.Server.Publish
import Mand.Load.Loaded
import Mand.Load.Content
import Mand.Load.LeafTrip
import Mand.Load.Restore
import Mand.Server.Roles

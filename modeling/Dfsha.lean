import Dfsha.Control.Service
import Dfsha.Protocol.Preserve
import Dfsha.Refine.Steps
import Dfsha.Safety.Leases
import Dfsha.Control.Script
import Dfsha.Protocol.History
import Dfsha.Safety.Fencing
import Dfsha.Safety.Sessions
import Dfsha.Safety.Snapshots
import Dfsha.Refine.Frame
import Dfsha.Safety.Durability
import Dfsha.Safety.Retirement
import Dfsha.Lib.KeyValue
import Dfsha.Etcd.Unit
import Dfsha.Etcd.Transaction
import Dfsha.Etcd.Shape
import Dfsha.Etcd.Invariant
import Dfsha.Etcd.Reach
import Dfsha.Etcd.Serial
import Dfsha.Safety.Handles
import Dfsha.Lib.Forest
import Dfsha.Protocol.Tree
import Dfsha.Refine.Tree
import Dfsha.Safety.Tree
import Dfsha.Safety.Reservation
import Dfsha.Refine.Policies
import Dfsha.Safety.Promotion
import Dfsha.Safety.Versions
import Dfsha.Control.Queries
import Dfsha.Lib.Pages
import Dfsha.Safety.Listing
import Dfsha.Lib.Encoding
import Dfsha.Lib.Json
import Dfsha.Datanode.Blocks
import Dfsha.Datanode.Container
import Dfsha.Lib.Document
import Dfsha.Lib.Addressed
import Dfsha.Lib.Collections
import Dfsha.Lib.Program
import Dfsha.Pages.Store
import Dfsha.Pages.Unit
import Dfsha.Pages.Reading
import Dfsha.Pages.Browse
import Dfsha.Pages.Writing
import Dfsha.Pages.Flush
import Dfsha.Pages.Publication
import Dfsha.Pages.Map
import Dfsha.Pages.Simulation
import Dfsha.Client.Write
import Dfsha.Control.Resolve
import Dfsha.Control.Authority
import Dfsha.Safety.Ranges
import Dfsha.Client.Read
import Dfsha.Client.Failover
import Dfsha.Safety.Addressing
import Dfsha.Client.Directory
import Dfsha.Datanode.Recovery
import Dfsha.Safety.Bases
import Dfsha.Safety.Capabilities
import Dfsha.Client.Download
import Dfsha.Datanode.Pins
import Dfsha.Datanode.Patch
import Dfsha.Pages.Blob
import Dfsha.Datanode.Archive
import Dfsha.Lib.Totals
import Dfsha.Control.Monolith
import Dfsha.Protocol.Reserves
import Dfsha.Safety.Capacity
import Dfsha.Protocol.Contents
import Dfsha.Safety.Ledger
import Dfsha.Safety.Contents
import Dfsha.Lib.Edits
import Dfsha.Safety.Files
import Dfsha.Datanode.Quota
import Dfsha.Protocol.Staging
import Dfsha.Safety.Staging
import Dfsha.Client.Send

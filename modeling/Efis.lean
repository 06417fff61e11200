import Efis.Consensus.Node
import Efis.Consensus.Handlers
import Efis.Consensus.Cluster
import Efis.Consensus.Persist
import Efis.Consensus.Steps
import Efis.Consensus.Election
import Efis.Raft.Quorum
import Efis.Raft.Replication
import Efis.Raft.Step
import Efis.Consensus.Refinement
import Efis.Consensus.Commit
import Efis.Consensus.Leadership
import Efis.Consensus.Origin
import Efis.Consensus.Emission
import Efis.Consensus.Following
import Efis.Consensus.Records
import Efis.Consensus.Safety
import Efis.Consensus.Conflict
import Efis.Consensus.Campaign
import Efis.Consensus.Recovery
import Efis.Consensus.Stream
import Efis.Consensus.Availability
import Efis.Consensus.Restart
import Efis.Consensus.Mailbox
import Efis.Consensus.Bounds
import Efis.Consensus.Peers
import Efis.Server.Replies
import Efis.Channel.Ring
import Efis.Server.Relay
import Efis.Transition.Reach
import Efis.Bytes.Frames
import Efis.Bytes.Lines
import Efis.Bytes.Queue
import Efis.Storage.ConFile
import Efis.Storage.Durable
import Efis.Storage.Writer
import Efis.Storage.LogFile
import Efis.Storage.Flushers
import Efis.Storage.Metadata
import Efis.Transition.Prog
import Efis.Store.Command
import Efis.Store.Datastore
import Efis.Store.Apply
import Efis.Store.Replica
import Efis.Store.Progress
import Efis.Store.Collections
import Efis.Transition.Guards
import Efis.Store.Guards
import Efis.Store.Expiry
import Efis.Store.Backup
import Efis.Server.Service
import Efis.Server.PubSub
import Efis.Server.Reads
import Efis.Server.Pipeline
import Efis.Server.Recovery
import Efis.Transition.Compare
import Efis.Table.Rows
import Efis.Vector.Flat
import Efis.Vector.Search
import Efis.Vector.Commands
import Efis.Text.Scan
import Efis.Rpc.Codec
import Efis.Rpc.RoundTrip
import Efis.Rpc.Grammar
import Efis.Rpc.Exact
import Efis.Rpc.Message
import Efis.Rpc.Pieces
import Efis.Rpc.Schema
import Efis.Rpc.Client
import Efis.Rpc.Server
import Efis.Rpc.Listener
import Efis.Server.Gate
import Efis.Server.Methods
import Efis.Server.Standalone
import Efis.Server.Wire
import Efis.Server.Ranges
import Efis.Rpc.Outcome
import Efis.Rpc.Framing
import Efis.Rpc.Redirect
import Efis.Rpc.Connection
import Efis.Rpc.Subscription

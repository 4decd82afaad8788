import B4n.Node.SyncFlag
import B4n.Node.SeenBlocks
import B4n.Node.Checked
import B4n.Blockchain.Commitment
import B4n.Node.Convergence
import B4n.Network.CatchUp
import B4n.Network.Inclusion
import B4n.Node.History
import B4n.Node.Caches
import B4n.Node.Relay
import B4n.Node.Proposing
import B4n.Node.Registry
import B4n.Transport.Connector
import B4n.Blockchain.PoolHistory
import B4n.Node.OrphanPool
import B4n.Node.OrphanCount
import B4n.Node.Cleaning
import B4n.Node.SyncProgress
import B4n.Webapp.Snapshot
import B4n.Webapp.DebugString
import B4n.Cli.Args
import B4n.Node.Windows
import B4n.Node.Admin
import B4n.Webapp.SendMessage
import B4n.Webapp.Refresh
import B4n.Webapp.NodeId
import B4n.Network.Gossip
import B4n.Webapp.RunLog
import B4n.Webapp.TornLog
import B4n.Webapp.Pages
import B4n.Lib.Separators
import B4n.Node.Kept
import B4n.Webapp.Chat
import B4n.Webapp.Answers
import B4n.Node.AdminListener
import B4n.Cli.Entrypoint
import B4n.Node.RunLoop
import B4n.Transport.Link
import B4n.Webapp.Conversation

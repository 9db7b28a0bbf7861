import IpfsShard.Codec.Progress
import IpfsShard.Codec.RoundTrip
import IpfsShard.Codec.Ignored
import IpfsShard.Bitswap.Framing
import IpfsShard.Bitswap.Segments
import IpfsShard.Bitswap.LostWants
import IpfsShard.Bitswap.Accepted
import IpfsShard.Bitswap.Governed
import IpfsShard.Bitswap.Streams
import IpfsShard.Bitswap.Cleanup
import IpfsShard.Bitswap.Serve
import IpfsShard.Bitswap.Reached
import IpfsShard.Bitswap.Duplicates
import IpfsShard.Bitswap.Leaks
import IpfsShard.Blockstore.Network
import IpfsShard.Blockstore.Race
import IpfsShard.Blockstore.Cache
import IpfsShard.Blockstore.Coherence
import IpfsShard.Blockstore.Chunks
import IpfsShard.Backup.SaveRounds
import IpfsShard.Pins.Gauge
import IpfsShard.Dht.Stats
import IpfsShard.DagPb.Termination
import IpfsShard.Codec.Wantlists
import IpfsShard.Codec.Payloads
import IpfsShard.DagPb.Sizes
import IpfsShard.Bitswap.Unsupported
import IpfsShard.Backup.Selected
import IpfsShard.Loops.ReprovideRun
import IpfsShard.Loops.Overlap
import IpfsShard.Api.PeerStats
import IpfsShard.Api.DagStat
import IpfsShard.Metrics.Connections
import IpfsShard.Api.Router
import IpfsShard.Api.Body
import IpfsShard.Node.Records
import IpfsShard.Bitswap.Timeouts
import IpfsShard.Bitswap.Sends
import IpfsShard.Bitswap.Swarm
import IpfsShard.Loops.Rounds
import IpfsShard.Loops.Restarts
import IpfsShard.Api.Server
import IpfsShard.Api.Arguments
import IpfsShard.Api.Blocks
import IpfsShard.Api.Retrieval
import IpfsShard.Api.PinRequests
import IpfsShard.Api.Peers
import IpfsShard.Api.Providers
import IpfsShard.Api.Fetched
import IpfsShard.Blockstore.Provenance

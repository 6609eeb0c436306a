import P2PFileTransfer.Block
import P2PFileTransfer.NetOrder
import P2PFileTransfer.IteratedHash
import P2PFileTransfer.SecureHash
import P2PFileTransfer.Machine
import P2PFileTransfer.CumulativeAck
import P2PFileTransfer.Heap
import P2PFileTransfer.FileImage
import P2PFileTransfer.Scan
import P2PFileTransfer.Chunk
import P2PFileTransfer.Sha1
import P2PFileTransfer.Collision
import P2PFileTransfer.Packet
import P2PFileTransfer.PacketRoundTrip
import P2PFileTransfer.Transfer
import P2PFileTransfer.Congestion
import P2PFileTransfer.Reassembly
import P2PFileTransfer.Sending
import P2PFileTransfer.Pieces
import P2PFileTransfer.Publish
import P2PFileTransfer.Window
import P2PFileTransfer.State
import P2PFileTransfer.Server
import P2PFileTransfer.Client
import P2PFileTransfer.Peer
import P2PFileTransfer.HasChunks
import P2PFileTransfer.Answers
import P2PFileTransfer.PacketSafety
import P2PFileTransfer.Senders
import P2PFileTransfer.Moves
import P2PFileTransfer.Handlers
import P2PFileTransfer.Arrival
import P2PFileTransfer.HaveIntegrity
import P2PFileTransfer.Output
import P2PFileTransfer.Availability
import P2PFileTransfer.Placement
import P2PFileTransfer.Reactions
import P2PFileTransfer.ServerList
import P2PFileTransfer.ClientList
import P2PFileTransfer.Missing
import P2PFileTransfer.Timeouts
import P2PFileTransfer.Provenance
import P2PFileTransfer.Silence
import P2PFileTransfer.GoBackN
import P2PFileTransfer.Discovery
import P2PFileTransfer.Ends
import P2PFileTransfer.Isolation
import P2PFileTransfer.InOrder
import P2PFileTransfer.Elapsed
import P2PFileTransfer.Sources
import P2PFileTransfer.Wire
import P2PFileTransfer.Honesty
import P2PFileTransfer.Swarm
import P2PFileTransfer.Queries
import P2PFileTransfer.Spelling
import P2PFileTransfer.Faultless
import P2PFileTransfer.Readiness
import P2PFileTransfer.Continuation
import P2PFileTransfer.Resumption
import P2PFileTransfer.ChunkFiles
import P2PFileTransfer.Framing
import P2PFileTransfer.InputBuffer
import P2PFileTransfer.Marks
import P2PFileTransfer.HexCodec
import P2PFileTransfer.NodeList
import P2PFileTransfer.Search
import P2PFileTransfer.HttpBuffer
import P2PFileTransfer.Download
import P2PFileTransfer.HttpFraming
import P2PFileTransfer.Bitrate
import P2PFileTransfer.Rewriting
import P2PFileTransfer.Manifest

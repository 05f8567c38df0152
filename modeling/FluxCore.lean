import FluxCore.Lib.OrderedMap
import FluxCore.Lib.Run
import FluxCore.Lib.Serial
import FluxCore.Lib.Binary64
import FluxCore.Utp.Packet
import FluxCore.Utp.Connection
import FluxCore.Utp.ConnectionLemmas
import FluxCore.Utp.Reassembly
import FluxCore.Utp.Receive
import FluxCore.Utp.Tick
import FluxCore.Utp.Close
import FluxCore.Utp.Output
import FluxCore.Utp.System
import FluxCore.Utp.Handshake
import FluxCore.Utp.Truthful
import FluxCore.Utp.FlowControl
import FluxCore.Utp.Context
import FluxCore.Ed2k.Framing
import FluxCore.Lib.Interval
import FluxCore.Storage.BitfieldMan
import FluxCore.Storage.Piece
import FluxCore.Storage.PieceStorage
import FluxCore.Ed2k.DownloadCommand
import FluxCore.Ed2k.ScheduleRuns
import FluxCore.Bt.PeerConnection
import FluxCore.Bt.WireFraming
import FluxCore.Bitfield.BitfieldMan
import FluxCore.Bitfield.Answers
import FluxCore.Bitfield.Refinement
import FluxCore.Udp.TrackerClient
import FluxCore.Udp.Queues
import FluxCore.Udp.NoneStranded
import FluxCore.Bencode.Value
import FluxCore.Dht.Messaging
import FluxCore.Dht.Settlement
import FluxCore.Dht.Lookup
import FluxCore.Dht.LookupRuns
import FluxCore.Dht.Bucket
import FluxCore.Dht.RoutingTable
import FluxCore.Dht.RoutingRuns
import FluxCore.Peers.PeerStorage
import FluxCore.Peers.Bookkeeping
import FluxCore.Peers.ListLimit
import FluxCore.Request.IndexedList
import FluxCore.Request.RequestGroup
import FluxCore.Request.RequestGroupMan
import FluxCore.Bt.EndGame
import FluxCore.Request.Operations
import FluxCore.Request.FillLoop
import FluxCore.Request.Accounting
import FluxCore.Request.Waiting
import FluxCore.Disk.DiskWriterEntry
import FluxCore.Disk.MultiDiskAdaptor
import FluxCore.Disk.OpenFiles
import FluxCore.Disk.SharedPieces
import FluxCore.Lib.Memory
import FluxCore.Disk.Layout
import FluxCore.Disk.FlatArray
import FluxCore.Disk.FlatRuns
import FluxCore.Disk.FlatCalls
import FluxCore.Struct.StateMachine
import FluxCore.Lib.Scanner
import FluxCore.Json.JsonParser
import FluxCore.Json.Streaming
import FluxCore.Json.Balanced
import FluxCore.Json.Pieces
import FluxCore.Bencode.BencodeParser
import FluxCore.Bencode.Grammar
import FluxCore.Bencode.Reads
import FluxCore.Bencode.Expects
import FluxCore.Bencode.Pieces
import FluxCore.Cache.WrDiskCache
import FluxCore.Cache.Accounting
import FluxCore.Lib.Octets
import FluxCore.Progress.ControlFile
import FluxCore.Progress.Saving
import FluxCore.Progress.Loading
import FluxCore.Progress.Format
import FluxCore.Progress.RoundTrip
import FluxCore.Progress.FailedLoad
import FluxCore.Utp.Calls
import FluxCore.Utp.ReceiveMemory
import FluxCore.Utp.Sack
import FluxCore.Utp.Flight
import FluxCore.Utp.SendSide
import FluxCore.Utp.WindowGrowth
import FluxCore.Utp.Retransmission
import FluxCore.Swarm.PieceStatMan
import FluxCore.Swarm.Counts
import FluxCore.Metadata.Download
import FluxCore.Metadata.BadPieces
import FluxCore.Lib.Components
import FluxCore.Torrent.Names
import FluxCore.Torrent.FileEntries
import FluxCore.Torrent.PathSafety
import FluxCore.Lib.LabelTree
import FluxCore.Cookies.Cookie
import FluxCore.Cookies.CookieStorage
import FluxCore.Cookies.Structure
import FluxCore.Ed2k.SourceExchange
import FluxCore.Ed2k.Execute
import FluxCore.Ed2k.Moves
import FluxCore.Ed2k.WrittenRanges
import FluxCore.Ed2k.PartChoice
import FluxCore.Ed2k.WriteSafety
import FluxCore.Ed2k.Availability
import FluxCore.Ed2k.ServerRounds
import FluxCore.Ed2k.SourceLifecycle
import FluxCore.Ed2k.Md4
import FluxCore.Peers.IncomingPeer
import FluxCore.Lib.TextStream
import FluxCore.Peers.BanList
import FluxCore.Udp.ReplyBytes
import FluxCore.Bitfield.OffsetLength
import FluxCore.Bitfield.SparseIndex
import FluxCore.Dht.ClosestNodes
import FluxCore.Net.SocketBuffer
import FluxCore.Http.ChunkedDecoding
import FluxCore.Http.ChunkedMessage
import FluxCore.Lib.Digits
import FluxCore.Lib.Loops
import FluxCore.Bignum.Bytes
import FluxCore.Bignum.LongDivision
import FluxCore.Lib.Utf8
import FluxCore.Util.Utf8
import FluxCore.Disk.PieceDigest
import FluxCore.Util.Base32
import FluxCore.Util.Base64
import FluxCore.Request.FileFilter
import FluxCore.Uri.UriSplit
import FluxCore.Uri.Authority
import FluxCore.Uri.Parts
import FluxCore.Uri.Uri
import FluxCore.Uri.Reported
import FluxCore.Uri.RoundTrip
import FluxCore.Uri.DotSegments
import FluxCore.Uri.NormalizePath
import FluxCore.Uri.JoinUri
import FluxCore.Request.MultiMirrorURISelector
import FluxCore.Http.ContentDisposition
import FluxCore.Http.DispositionParm
import FluxCore.Http.DispositionList
import FluxCore.Http.AcceptedDisposition
import FluxCore.Http.DispositionName
import FluxCore.Http.ExtraParameters
import FluxCore.Progress.Resumption
import FluxCore.Ed2k.KadTags
import FluxCore.Ed2k.KadResponse
import FluxCore.Http.ContentRange
import FluxCore.Util.ParamedString
import FluxCore.Util.PatternExpansion
import FluxCore.Utp.Estimation
import FluxCore.Utp.PacketChains
import FluxCore.Ed2k.Md4Stream
import FluxCore.Metadata.Exchange
import FluxCore.Servers.SavedLine
import FluxCore.Servers.SavedNumbers
import FluxCore.Servers.SavedEntry
import FluxCore.Servers.Persistence
import FluxCore.Indexed.IndexedList
import FluxCore.Indexed.Refinement
import FluxCore.Request.DownloadStat
import FluxCore.Bignum.Operators
import FluxCore.Bignum.Arithmetic
import FluxCore.Bignum.ModularPower
import FluxCore.Bignum.KeyExchange
import FluxCore.Ed2k.Verification
import FluxCore.Net.CompactAddress
import FluxCore.Bencode.Dict
import FluxCore.Bt.PeerExchange
import FluxCore.Dht.Krpc
import FluxCore.Lib.Decoder
import FluxCore.Dht.SavedTable
import FluxCore.Bt.Choking
import FluxCore.Bt.ChokeRounds

import NsPixels.Lib.FixedCap
import NsPixels.Lib.Coalesce
import NsPixels.Lib.Machine
import NsPixels.Lib.Tokens
import NsPixels.Lib.QuarterTurn
import NsPixels.Lib.BigEndian
import NsPixels.Lib.ByteStream
import NsPixels.Time
import NsPixels.Projection
import NsPixels.Train
import NsPixels.MapMode
import NsPixels.Registry
import NsPixels.Registry.Sweep
import NsPixels.Registry.Trace
import NsPixels.Registry.Cooldown
import NsPixels.Registry.Attempts
import NsPixels.Registry.Clusters
import NsPixels.NsApi
import NsPixels.NsApi.Stamping
import NsPixels.Enrichment
import NsPixels.Display
import NsPixels.ClusterExchange
import NsPixels.Zmq
import NsPixels.Zmq.Frame
import NsPixels.Zmq.Message
import NsPixels.Lib.Transducer
import NsPixels.Lib.Xml
import NsPixels.XmlParser
import NsPixels.XmlParser.Documents
import NsPixels.Enrichment.Erasure
import NsPixels.Enrichment.Offers
import NsPixels.MapMode.Controller
import NsPixels.FrameBufferExchange
import NsPixels.DisplayConfig
import NsPixels.Persist
import NsPixels.Zmq.Handshake
import NsPixels.Registry.Refreshes
import NsPixels.NsApi.Records
import NsPixels.Projection.Wgs84
import NsPixels.Registry.Eviction
import NsPixels.Decompress
import NsPixels.Decompress.Inflate
import NsPixels.Registry.Drift
import NsPixels.Enrichment.OffsetRange
import NsPixels.Enrichment.Requests
import NsPixels.XmlParser.Provenance
import NsPixels.Display.Colors
import NsPixels.Lib.History
import NsPixels.Lib.Hex
import NsPixels.Lib.Slice
import NsPixels.Lib.Source
import NsPixels.Reqwless
import NsPixels.Reqwless.Chunked
import NsPixels.Reqwless.InPlace
import NsPixels.Reqwless.Truncated
import NsPixels.Reqwless.BodyReader
import NsPixels.Reqwless.Response
import NsPixels.Reqwless.Request
import NsPixels.NsApi.Session
import NsPixels.Lib.PrefixCode
import NsPixels.NsApi.RequestCode
import NsPixels.Lib.Painting
import NsPixels.Display.Panel
import NsPixels.Accel
import NsPixels.Decompress.Independence
import NsPixels.Feed
import NsPixels.Enrichment.Reports
import NsPixels.Enrichment.Answers
import NsPixels.Feed.Visible
import NsPixels.Input
import NsPixels.Lib.Waiting
import NsPixels.Registry.Progress
import NsPixels.Lib.Recovery
import NsPixels.Persist.Restarts
import NsPixels.Lib.Congruential
import NsPixels.Enrichment.Seeds
import NsPixels.FrameBufferExchange.Transfers
import NsPixels.ClusterExchange.Convergence
import NsPixels.Decompress.Decoding
import NsPixels.Feed.Published
import NsPixels.System
import NsPixels.Enrichment.Ghosts

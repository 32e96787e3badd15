import Doormat.Library.Bytes
import Doormat.Library.Multimap
import Doormat.Library.Combine
import Doormat.Library.Displace
import Doormat.Library.Transducer
import Doormat.Library.Runs
import Doormat.Parser.Basic
import Doormat.Parser.Characters
import Doormat.Parser.Url
import Doormat.Parser.OriginForm
import Doormat.Parser.Step
import Doormat.Parser.Execute
import Doormat.Parser.Stream
import Doormat.Parser.Marks
import Doormat.Parser.Abreast
import Doormat.Parser.Cut
import Doormat.Parser.Assertions
import Doormat.Parser.Budget
import Doormat.Parser.Course
import Doormat.Parser.Refusal
import Doormat.Parser.Restart
import Doormat.Parser.Logic
import Doormat.Parser.Gathering
import Doormat.Parser.Chunks
import Doormat.Http.Commons
import Doormat.Http.StructuredData
import Doormat.Http.Mutation
import Doormat.Http.HeaderModel
import Doormat.Http.Lines
import Doormat.Http.Message
import Doormat.Http.Codec
import Doormat.Http.Replay
import Doormat.Http.Decode
import Doormat.Http.Invariant
import Doormat.Http.Assembly
import Doormat.Http.Tracking
import Doormat.Http.Grammar
import Doormat.Http.Boundary
import Doormat.Http.Reuse
import Doormat.Http.Messages
import Doormat.Http.Version
import Doormat.Http.Beside
import Doormat.Http.Framing
import Doormat.Http.Encoder
import Doormat.Http.ChunkedMessage
import Doormat.Http.HeaderLine
import Doormat.Http.TrailerSection
import Doormat.Http.Independence
import Doormat.Http.Decodable
import Doormat.Http.Pieces
import Doormat.Http.Transcript
import Doormat.Http.MessageOrder
import Doormat.Http.LineRun
import Doormat.Http.LineEffect
import Doormat.Http.Coding
import Doormat.Http.MessageRun
import Doormat.Http.HeaderSection
import Doormat.Http.Received
import Doormat.Http.RoundTrip
import Doormat.Http.Opening
import Doormat.Http.WrittenHeaders
import Doormat.Http.HeaderTrip
import Doormat.Http.ResponseTrip
import Doormat.Http.RequestTrip
import Doormat.Http.ChunkedTrip
import Doormat.Http.Authority
import Doormat.Http.StatusLine
import Doormat.Http.Direction
import Doormat.Http.Faults
import Doormat.Http.ContentLength
import Doormat.Http.ParsedFraming
import Doormat.Http.DeclaredFraming
import Doormat.Http.Progress
import Doormat.Protocol.Handler
import Doormat.Protocol.Frame
import Doormat.Protocol.Kept
import Doormat.Protocol.Stable
import Doormat.Protocol.Queues
import Doormat.Protocol.Silence
import Doormat.Protocol.WritePath
import Doormat.Protocol.Persistence
import Doormat.Protocol.Pipeline
import Doormat.Protocol.Connection
import Doormat.Protocol.Delivery
import Doormat.Protocol.Contract
import Doormat.Protocol.Pairing
import Doormat.Protocol.Bodiless
import Doormat.Protocol.Polling
import Doormat.Protocol.Reentrancy
import Doormat.Protocol.Feedback
import Doormat.Protocol.ClientQueue
import Doormat.Protocol.Emission
import Doormat.Protocol.Lifetime
import Doormat.Protocol.TerminalEvents
import Doormat.Http2.Stream
import Doormat.Http2.StreamBody
import Doormat.Http2.StreamTrailers
import Doormat.Http2.StreamClient
import Doormat.Http2.BodyCallbacks
import Doormat.Http2.Fields
import Doormat.Http2.ResponseEvents
import Doormat.Http2.Lifecycle
import Doormat.Http2.Session
import Doormat.Http2.SessionReports
import Doormat.Http2.RequestPath
import Doormat.Http2.RequestEvents
import Doormat.Http2.HeaderBlock
import Doormat.Http2.HeaderArrays
import Doormat.Client.Multiplexer
import Doormat.Client.TimerArithmetic
import Doormat.Network.DnsConnectorFactory
import Doormat.Network.ProtocolSelection
import Doormat.Utils.ReusableBuffer
import Doormat.Utils.ReadLoop

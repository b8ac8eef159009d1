import Rsteria.Lib.Buffer
import Rsteria.Lib.Fallible
import Rsteria.Lib.Mealy
import Rsteria.Lib.Pieces
import Rsteria.Lib.SlidingWindow
import Rsteria.Lib.Slots
import Rsteria.Lib.Text
import Rsteria.Lib.TimeSpan
import Rsteria.Lib.Utf8
import Rsteria.Poll
import Rsteria.Error
import Rsteria.Config
import Rsteria.Config.Ports
import Rsteria.Protocol.Varint
import Rsteria.Protocol.TcpResponse
import Rsteria.Protocol.TcpRequest
import Rsteria.Protocol.UdpMessage
import Rsteria.Protocol.Fragment
import Rsteria.Protocol.Defragger
import Rsteria.Protocol.Provenance
import Rsteria.Protocol.Reassembly
import Rsteria.Stream
import Rsteria.Stream.Refusal
import Rsteria.Stream.Bounds
import Rsteria.Stream.Progress
import Rsteria.Stream.Duplex
import Rsteria.Udp.Session
import Rsteria.Udp.Channel
import Rsteria.Udp.Relay
import Rsteria.Udp.Identity
import Rsteria.Udp.Solo
import Rsteria.Udp.Isolation
import Rsteria.Udp.Network
import Rsteria.Udp.Link
import Rsteria.Udp.Resources
import Rsteria.Client
import Rsteria.Transport.Obfs
import Rsteria.Transport.Socket
import Rsteria.Transport.Compaction
import Rsteria.Transport.Hop
import Rsteria.Transport.Hopping
import Rsteria.Transport.Tunnel
import Rsteria.Transport.Tls
import Rsteria.Transport.Pin
import Rsteria.Congestion
import Rsteria.Congestion.Window
import Rsteria.Connect
import Rsteria.Connect.Address
import Rsteria.Connect.Endpoint
import Rsteria.Connect.Interval
import Rsteria.Connect.HopTask
import Rsteria.Connect.Rate
import Rsteria.Connect.Auth
import Rsteria.Connect.Dial
import Rsteria.Reconnect
import Rsteria.Reconnect.Lifecycle
import Rsteria.Reconnect.Progress
import Rsteria.Reconnect.Connections

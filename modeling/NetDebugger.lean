import NetDebugger.Lib.LittleEndian
import NetDebugger.Lib.Stores
import NetDebugger.Lib.Runs
import NetDebugger.Lib.Fifo
import NetDebugger.Protocol
import NetDebugger.Lib.Circular
import NetDebugger.Ring.Bounds
import NetDebugger.Ring.Hostile
import NetDebugger.Ring.Pieces
import NetDebugger.Ring.Exactness
import NetDebugger.Lib.Indexed
import NetDebugger.Model
import NetDebugger.Redirect
import NetDebugger.Capture
import NetDebugger.Model.Records
import NetDebugger.Pipeline
import NetDebugger.Ring.Progress
import NetDebugger.Pipeline.Delivery
import NetDebugger.Pipeline.Loss
import NetDebugger.Model.Accounting
import NetDebugger.Capture.Flows
import NetDebugger.Lib.Frames
import NetDebugger.Tls.Decrypt
import NetDebugger.Tls.RoundTrip
import NetDebugger.Http.Text
import NetDebugger.Http.Parse
import NetDebugger.Http.Message
import NetDebugger.Http.Body
import NetDebugger.Http.RoundTrip
import NetDebugger.Http.Total
import NetDebugger.Http.Bodyless
import NetDebugger.Http.Growth
import NetDebugger.Proxy.Dispatch
import NetDebugger.Redirect.Session
import NetDebugger.Ring.Containment
import NetDebugger.Driver.Lifetime
import NetDebugger.Ca
import NetDebugger.Ca.Serial
import NetDebugger.Tls.Fragments
import NetDebugger.Tls.Refragmented
import NetDebugger.Lib.Recent
import NetDebugger.Model.Replay
import NetDebugger.Tls.Keylog
import NetDebugger.Tls.Complete
import NetDebugger.Inspector
import NetDebugger.Inspector.Caches
import NetDebugger.Ring.Calls
import NetDebugger.Ring.Oversize
import NetDebugger.Ring.Burst
import NetDebugger.Ring.Counters
import NetDebugger.Lib.Capped
import NetDebugger.Model.Payload
import NetDebugger.Http.Truncation
import NetDebugger.Proxy.ServerName
import NetDebugger.Lib.Paging
import NetDebugger.Driver.Phys
import NetDebugger.Proxy.Relay
import NetDebugger.Lib.Pool
import NetDebugger.Proxy.Queue
import NetDebugger.Http.Trailers
import NetDebugger.Http.Numerals
import NetDebugger.Lib.Checked
import NetDebugger.Http.Safety
import NetDebugger.Pipeline.Clock
import NetDebugger.Pipeline.Overtaking
import NetDebugger.Http.Opening
import NetDebugger.Tls.Hellos
import NetDebugger.Inspector.Sides
import NetDebugger.Lib.Meter
import NetDebugger.Model.Throughput
import NetDebugger.Lib.Masked
import NetDebugger.Proxy.Encoder
import NetDebugger.Proxy.Connect
import NetDebugger.Lib.Window
import NetDebugger.Tls.Safety
import NetDebugger.Proxy.Safety
import NetDebugger.Capture.Session
import NetDebugger.Driver.Client
import NetDebugger.Driver.Clients
import NetDebugger.Inspector.Flows
import NetDebugger.Inspector.Https
import NetDebugger.Inspector.Proxied
import NetDebugger.Lib.Lines
import NetDebugger.Proxy.Stopped
import NetDebugger.Proxy.Stopping
import NetDebugger.Settings
import NetDebugger.Tls.Critical
import NetDebugger.Tls.ReadBack
import NetDebugger.Inspector.Transactions
import NetDebugger.Mock

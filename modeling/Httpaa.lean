import Httpaa.Foundation.Transition
import Httpaa.Foundation.Fifo
import Httpaa.Foundation.Ensures
import Httpaa.Pool.Bounds
import Httpaa.Pool.Capacity
import Httpaa.Pool.Queue
import Httpaa.Pool.Isolation
import Httpaa.Pool.Wakeup
import Httpaa.Strings.Cursors
import Httpaa.Uri.Completeness
import Httpaa.Uri.EscapedText
import Httpaa.Uri.Unescape
import Httpaa.Uri.Failure
import Httpaa.Uri.HostEnd
import Httpaa.Uri.Refinement
import Httpaa.Uri.Relative
import Httpaa.Uri.ResolveFootprint
import Httpaa.Pool.Distance
import Httpaa.Strings.Find
import Httpaa.Strings.Append
import Httpaa.Strings.Duplicate
import Httpaa.Strings.CopyOnWrite
import Httpaa.Worker.Transmission
import Httpaa.Http.Seeking
import Httpaa.Http.DateFormat
import Httpaa.Worker.Termination
import Httpaa.Http.Safety
import Httpaa.Http.Method
import Httpaa.Http.Directives
import Httpaa.Http.DocumentRoot
import Httpaa.Worker.Socket
import Httpaa.Http.Version
import Httpaa.Http.ContentRange
import Httpaa.Http.Quoted
import Httpaa.Worker.Chunks
import Httpaa.Worker.Reuse
import Httpaa.Worker.Server
import Httpaa.Worker.Places
import Httpaa.Http.Composition
import Httpaa.Strings.Ownership
import Httpaa.Worker.Client
import Httpaa.Foundation.Simulation
import Httpaa.Strings.Texts
import Httpaa.Worker.Alone
import Httpaa.Worker.Defined

import Sdbusplus.Proofs.WaitProcess
import Sdbusplus.Proofs.SpawnWatcher
import Sdbusplus.Proofs.CallerWait
import Sdbusplus.EventLoop.Locking
import Sdbusplus.Proofs.Locking
import Sdbusplus.Async.Mutex
import Sdbusplus.Proofs.Mutex
import Sdbusplus.Async.LockGuard
import Sdbusplus.Async.Fdio
import Sdbusplus.Proofs.Fdio
import Sdbusplus.Proofs.LockGuard
import Sdbusplus.Message.Bus
import Sdbusplus.Message.Types
import Sdbusplus.Message.Append
import Sdbusplus.Message.Containers
import Sdbusplus.Message.Read
import Sdbusplus.Message.Encoding
import Sdbusplus.Proofs.Append
import Sdbusplus.Proofs.Read
import Sdbusplus.Proofs.Containers
import Sdbusplus.Proofs.NativeTypes
import Sdbusplus.Message.Meaning
import Sdbusplus.Proofs.RoundTrip
import Sdbusplus.Proofs.Resync
import Sdbusplus.Proofs.Barrier
import Sdbusplus.Proofs.Match
import Sdbusplus.Proofs.Timer
import Sdbusplus.Proofs.ObjectPath
import Sdbusplus.Asio.DbusInterface
import Sdbusplus.Proofs.DbusInterface
import Sdbusplus.Proofs.Announcements
import Sdbusplus.Base.Throwing
import Sdbusplus.Asio.CoroutineMethod
import Sdbusplus.Proofs.CoroutineMethod
import Sdbusplus.Asio.Connection
import Sdbusplus.Proofs.Connection
import Sdbusplus.Base.SortedMap
import Sdbusplus.Tools.Json
import Sdbusplus.Tools.Event
import Sdbusplus.Proofs.Event
import Sdbusplus.Message.Limits
import Sdbusplus.Message.Structure
import Sdbusplus.Proofs.Structure
import Sdbusplus.Proofs.SharedTypes
import Sdbusplus.Proofs.Agreement
import Sdbusplus.Server.Object
import Sdbusplus.Proofs.Object
import Sdbusplus.Proofs.VariantString
import Sdbusplus.Base.Words
import Sdbusplus.Message.Signature
import Sdbusplus.Proofs.Signature
import Sdbusplus.Base.Layout
import Sdbusplus.Proofs.ArrayPaths
import Sdbusplus.Asio.SetProperty
import Sdbusplus.Asio.YieldMethodCall
import Sdbusplus.Proofs.SetProperty
import Sdbusplus.Proofs.YieldMethodCall
import Sdbusplus.Proofs.Deadline
import Sdbusplus.Proofs.UnpackProperties
import Sdbusplus.Base.FlowSequence
import Sdbusplus.Tools.Property
import Sdbusplus.Proofs.TypeNames
import Sdbusplus.Proofs.Property
import Sdbusplus.Base.Replacement
import Sdbusplus.Base.Traverse
import Sdbusplus.Tools.Interface
import Sdbusplus.Proofs.Replace
import Sdbusplus.Proofs.EnumHeaders
import Sdbusplus.Proofs.ErrorReferences
import Sdbusplus.Base.Distinct
import Sdbusplus.Utility.MergeVariants
import Sdbusplus.Proofs.MergeVariants
import Sdbusplus.Message.Filename
import Sdbusplus.Proofs.Filename
import Sdbusplus.Tools.NamedElement
import Sdbusplus.Tools.Path
import Sdbusplus.Proofs.Path
import Sdbusplus.Server.Properties
import Sdbusplus.Proofs.PropertiesByName
import Sdbusplus.Message.AppendRun
import Sdbusplus.Proofs.AppendRun
import Sdbusplus.Tools.EventRegistry
import Sdbusplus.Proofs.EventRegistry
import Sdbusplus.Base.Exchange
import Sdbusplus.Base.Holders
import Sdbusplus.Message.Ownership
import Sdbusplus.Proofs.Ownership
import Sdbusplus.Server.Transaction
import Sdbusplus.Proofs.Transaction
import Sdbusplus.Server.MethodCallback
import Sdbusplus.Message.Equality
import Sdbusplus.Proofs.MethodCallback
import Sdbusplus.Async.Proxy
import Sdbusplus.Proofs.RemoteCall
import Sdbusplus.Async.Calls
import Sdbusplus.Proofs.AsyncCalls
import Sdbusplus.Server.PropertyCallback
import Sdbusplus.Async.PropertyMirror
import Sdbusplus.Proofs.RemoteProperty
import Sdbusplus.Asio.AsyncSend
import Sdbusplus.Proofs.AsyncSend
import Sdbusplus.Async.Properties
import Sdbusplus.Proofs.RemoteProperties

import ArqmaMQ.Decimal
import ArqmaMQ.BitGroups
import ArqmaMQ.SortedMap
import ArqmaMQ.Transition
import ArqmaMQ.Reservation
import ArqmaMQ.Custody
import ArqmaMQ.Renumber
import ArqmaMQ.Sweep
import ArqmaMQ.InPlace
import ArqmaMQ.BtRoundTrip
import ArqmaMQ.BtAgreement
import ArqmaMQ.BtConsumer
import ArqmaMQ.BtDictConsumer
import ArqmaMQ.BtDictWalk
import ArqmaMQ.BtExact
import ArqmaMQ.BtCanonical
import ArqmaMQ.BtTyped
import ArqmaMQ.BtExtract
import ArqmaMQ.BtTuples
import ArqmaMQ.BtDictField
import ArqmaMQ.BtSkip
import ArqmaMQ.BtCalls
import ArqmaMQ.BtGrammar
import ArqmaMQ.BtReads
import ArqmaMQ.BtTypeErrors
import ArqmaMQ.BtSkipErrors
import ArqmaMQ.BtAdvances
import ArqmaMQ.BtCallErrors
import ArqmaMQ.BtBounds
import ArqmaMQ.BtValues
import ArqmaMQ.BtWellFormed
import ArqmaMQ.Hex
import ArqmaMQ.Base32z
import ArqmaMQ.Base64
import ArqmaMQ.Base64Rfc
import ArqmaMQ.Address
import ArqmaMQ.AddressGrammar
import ArqmaMQ.AddressParse
import ArqmaMQ.AddressRoundTrip
import ArqmaMQ.AddressQr
import ArqmaMQ.Decoding
import ArqmaMQ.DecodeInPlace
import ArqmaMQ.AddressErrors
import ArqmaMQ.AddressPubkey
import ArqmaMQ.Connections
import ArqmaMQ.ConnectionIndices
import ArqmaMQ.Send
import ArqmaMQ.SendFailover
import ArqmaMQ.ControlMessages
import ArqmaMQ.ControlEntries
import ArqmaMQ.ControlSend
import ArqmaMQ.ControlConnect
import ArqmaMQ.Dispatch
import ArqmaMQ.DispatchLoop
import ArqmaMQ.HandOff
import ArqmaMQ.HandOffRuns
import ArqmaMQ.ThreadReservation
import ArqmaMQ.Shutdown
import ArqmaMQ.CommandOrder
import ArqmaMQ.QueueAccounting
import ArqmaMQ.WorkConservation
import ArqmaMQ.WorkerMessage
import ArqmaMQ.BatchLife
import ArqmaMQ.BatchQueues
import ArqmaMQ.BatchView
import ArqmaMQ.BatchLifecycle
import ArqmaMQ.TimerJobs
import ArqmaMQ.TimerRan
import ArqmaMQ.Zap
import ArqmaMQ.Incoming
import ArqmaMQ.Registry
import ArqmaMQ.RegistryLookup
import ArqmaMQ.Proxy
import ArqmaMQ.ProxySteps
import ArqmaMQ.TimerSquelch
import ArqmaMQ.ProxyConnections
import ArqmaMQ.ProxyAccess
import ArqmaMQ.Refusals
import ArqmaMQ.Closures
import ArqmaMQ.SendNotices
import ArqmaMQ.SendErrors
import ArqmaMQ.ProxyRequests
import ArqmaMQ.RequestTimeouts
import ArqmaMQ.ServiceNodes
import ArqmaMQ.ConnectionChanges
import ArqmaMQ.ConnectionIds
import ArqmaMQ.ConnectOutcomes
import ArqmaMQ.DispatchPaths
import ArqmaMQ.CommandRuns
import ArqmaMQ.Variant
import ArqmaMQ.ShutdownRuns
import ArqmaMQ.ProxyShutdown
import ArqmaMQ.IncomingLoop
import ArqmaMQ.Listeners
import ArqmaMQ.ReplyRoutes
import ArqmaMQ.Replies
import ArqmaMQ.TaggedStartup
import ArqmaMQ.StartupRuns
import ArqmaMQ.ControlSockets
import ArqmaMQ.ConnCleanup

import FileStorage.Threads.Prog
import FileStorage.Threads.Conf
import FileStorage.Threads.Undefined
import FileStorage.CTypes
import FileStorage.Queue
import FileStorage.Store
import FileStorage.Actions
import FileStorage.Controllers
import FileStorage.Lib.Keyed
import FileStorage.StoreFacts
import FileStorage.Effects
import FileStorage.Capacity
import FileStorage.Expulsion
import FileStorage.Failure
import FileStorage.Room
import FileStorage.Lib.History
import FileStorage.Refinement
import FileStorage.Append
import FileStorage.Opening
import FileStorage.Holding
import FileStorage.Target
import FileStorage.Locking
import FileStorage.Release
import FileStorage.Waiters
import FileStorage.Connection
import FileStorage.Threads.Reliance
import FileStorage.Authority
import FileStorage.Lib.Duplex
import FileStorage.Threads.Dialogue
import FileStorage.Client
import FileStorage.InStep
import FileStorage.Reply
import FileStorage.Conservation
import FileStorage.Lib.Tokens
import FileStorage.Listing
import FileStorage.Threads.Expand
import FileStorage.Logger
import FileStorage.Daemon
import FileStorage.Shutdown
import FileStorage.Threads.Run
import FileStorage.Threads.Order
import FileStorage.Threads.Potential
import FileStorage.Threads.Serial
import FileStorage.Threads.Typestate
import FileStorage.Threads.Passage
import FileStorage.Sighup
import FileStorage.Socket
import FileStorage.Reception
import FileStorage.Arithmetic
import FileStorage.Lib.LinkedList
import FileStorage.LinkedQueue
import FileStorage.Lib.Footprint
import FileStorage.Teardown
import FileStorage.Memory
import FileStorage.Ownership
import FileStorage.Buffers
import FileStorage.Lifetime
import FileStorage.Decimal
import FileStorage.HighWater
import FileStorage.Records
import FileStorage.Replacement
import FileStorage.Audit
import FileStorage.ConfigFile
import FileStorage.Settings
import FileStorage.SaveDir
import FileStorage.DirList
import FileStorage.Statistiche
import FileStorage.FullRead
import FileStorage.Counter
import FileStorage.Progress
import FileStorage.Serial
import FileStorage.Closing
import FileStorage.Lib.Protocol
import FileStorage.Threads.Network
import FileStorage.Session
import FileStorage.Conversation
import FileStorage.Service
import FileStorage.Clients
import FileStorage.Threads.Completion
import FileStorage.Completion

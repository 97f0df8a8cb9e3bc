import Shuttlesock.Core.Runs
import Shuttlesock.Core.Links
import Shuttlesock.Core.LuaStack
import Shuttlesock.Core.Procs
import Shuttlesock.Core.Glob
import Shuttlesock.Io.Vectored
import Shuttlesock.LList
import Shuttlesock.Buffer
import Shuttlesock.Config.MatchPath
import Shuttlesock.Config.MatchPathExact
import Shuttlesock.Ipc.Ring
import Shuttlesock.Ipc.RingInv
import Shuttlesock.Ipc.RingDelivery
import Shuttlesock.Ipc.RingStuck
import Shuttlesock.Ipc.RingSolo
import Shuttlesock.Ipc.Outbox
import Shuttlesock.Ipc.OutboxFifo
import Shuttlesock.Core.GraphCopy
import Shuttlesock.Lua.Value
import Shuttlesock.Lua.IpcData
import Shuttlesock.Lua.IpcPack
import Shuttlesock.Lua.IpcUnpack
import Shuttlesock.Lua.IpcRoundTrip
import Shuttlesock.Lua.IpcSlab
import Shuttlesock.Core.Memo
import Shuttlesock.Core.Refs
import Shuttlesock.Instring.Value
import Shuttlesock.Instring.Coherence
import Shuttlesock.Core.Blocks
import Shuttlesock.Pool.Palloc
import Shuttlesock.Pool.Safety
import Shuttlesock.Server.Start
import Shuttlesock.Process.StopEvent
import Shuttlesock.Process.StopOrder
import Shuttlesock.Process.StopSend
import Shuttlesock.Process.StopPath
import Shuttlesock.Process.StopLive
import Shuttlesock.Event.Delay
import Shuttlesock.Module.Offsets
import Shuttlesock.Config.Parser
import Shuttlesock.Config.ParserTotal
import Shuttlesock.Config.ParserPrint
import Shuttlesock.Config.Tree
import Shuttlesock.Config.Handle
import Shuttlesock.Config.Resolve
import Shuttlesock.Process.Started
import Shuttlesock.Instring.Interpolation
import Shuttlesock.Lua.LazyAtomics
import Shuttlesock.Pool.Sizes
import Shuttlesock.Pool.Rollback
import Shuttlesock.Ipc.SendFd
import Shuttlesock.Instring.Parse
import Shuttlesock.Io.Watch
import Shuttlesock.Lua.Gxcopy
import Shuttlesock.Lua.GxcopyGraph
import Shuttlesock.Core.Search
import Shuttlesock.Lua.GxcopyCheck
import Shuttlesock.Lua.GxcopyAlike
import Shuttlesock.Lua.GxcopyAgree
import Shuttlesock.Config.Register
import Shuttlesock.Config.Alias
import Shuttlesock.Core.First
import Shuttlesock.Config.Lookup
import Shuttlesock.Core.Sweep
import Shuttlesock.Config.Variables
import Shuttlesock.Core.Expand
import Shuttlesock.Config.Substitution
import Shuttlesock.Config.InstringHeap
import Shuttlesock.Config.Expansion
import Shuttlesock.Config.Heredoc
import Shuttlesock.Config.Dedent
import Shuttlesock.Instring.Quoting
import Shuttlesock.Module.Freeze
import Shuttlesock.Event.Subscribe
import Shuttlesock.Event.Listeners
import Shuttlesock.Event.Stack
import Shuttlesock.Lua.Broadcast
import Shuttlesock.Lua.BroadcastDone
import Shuttlesock.Core.Sparse
import Shuttlesock.Lua.BufferedReceiver
import Shuttlesock.Lua.Receive
import Shuttlesock.Event.Interrupt
import Shuttlesock.Config.Include
import Shuttlesock.Config.Reader
import Shuttlesock.Config.ReaderLocal
import Shuttlesock.Config.ReaderRefines
import Shuttlesock.Config.Comments
import Shuttlesock.Config.Quantity
import Shuttlesock.Config.Time
import Shuttlesock.Config.Size
import Shuttlesock.Lua.LazyRecord
import Shuttlesock.Ipc.Send
import Shuttlesock.Ipc.Handlers
import Shuttlesock.Ipc.Proxy
import Shuttlesock.Lua.IpcCancel
import Shuttlesock.Ipc.Flight
import Shuttlesock.Lua.IpcSend
import Shuttlesock.Lua.IpcAccount
import Shuttlesock.Ipc.FdReceivers
import Shuttlesock.Io.Message
import Shuttlesock.Io.Transfer
import Shuttlesock.Lua.ParseHost
import Shuttlesock.Lua.Sockaddr
import Shuttlesock.Core.Buffer
import Shuttlesock.Log
import Shuttlesock.Core.Ancestors
import Shuttlesock.Server.CommonParent
import Shuttlesock.Module.Registry
import Shuttlesock.Module.Parents
import Shuttlesock.Core.Cells
import Shuttlesock.Core.LuaMatch
import Shuttlesock.Core.LuaNumber
import Shuttlesock.Core.Double
import Shuttlesock.Core.LuaNumeral
import Shuttlesock.Instring.Params
import Shuttlesock.Instring.Sizes
import Shuttlesock.Instring.Exact
import Shuttlesock.Pool.Space
import Shuttlesock.Pool.SpaceExact
import Shuttlesock.Core.HeadedRing
import Shuttlesock.Core.Tiling
import Shuttlesock.Slab.Pool
import Shuttlesock.Slab.Sizes
import Shuttlesock.Slab.Layout
import Shuttlesock.Slab.Represents
import Shuttlesock.Slab.Pages
import Shuttlesock.Slab.Chunks
import Shuttlesock.Slab.Calls
import Shuttlesock.Slab.Refine
import Shuttlesock.Core.WordBytes
import Shuttlesock.Slab.Bytes
import Shuttlesock.Slab.Client
import Shuttlesock.Slab.Refuse
import Shuttlesock.Slab.Create
import Shuttlesock.Lua.Watchers

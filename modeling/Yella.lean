import Yella.Agent.Addresses
import Yella.Agent.Completed
import Yella.Agent.Heartbeat
import Yella.Agent.Identity
import Yella.Agent.Incoming
import Yella.Agent.Model
import Yella.Agent.Plugins
import Yella.Agent.SavedState
import Yella.Agent.SecondSignal
import Yella.Agent.Senders
import Yella.Agent.Shutdown
import Yella.Agent.Signals
import Yella.Agent.Termination
import Yella.AgentFace.Progress
import Yella.AgentFace.Tokens
import Yella.AgentFace.Traffic
import Yella.AgentFace.Workers
import Yella.CInt
import Yella.Compression
import Yella.Console.Agent
import Yella.Console.Heartbeats
import Yella.Console.Kept
import Yella.Console.Reports
import Yella.Console.Store
import Yella.Element.AclOrder
import Yella.Element.Attribute
import Yella.Element.Compare
import Yella.Element.Diff
import Yella.Element.Element
import Yella.Element.Equal
import Yella.Element.Exact
import Yella.Element.Pack
import Yella.Element.RoundTrip
import Yella.File.Checked
import Yella.File.Contents
import Yella.File.EnsureDir
import Yella.File.Links
import Yella.File.Removal
import Yella.File.RemoveAll
import Yella.File.Split
import Yella.File.Tree
import Yella.FileName
import Yella.Glob.Checked
import Yella.Glob.Correct
import Yella.Glob.Escape
import Yella.Glob.Language
import Yella.Glob.Literal
import Yella.Glob.Matcher
import Yella.Glob.Special
import Yella.Job.ChangeLog
import Yella.Job.Collected
import Yella.Job.Crawl
import Yella.Job.JobQueue
import Yella.Job.LinkedQueue
import Yella.Job.ProcessElement
import Yella.Job.QueueStats
import Yella.Job.Replica
import Yella.Job.Rescan
import Yella.Job.RunJob
import Yella.Job.Shielded
import Yella.Lib.Balance
import Yella.Lib.Buffer
import Yella.Lib.Calendar
import Yella.Lib.Cells
import Yella.Lib.Comparator
import Yella.Lib.Depth
import Yella.Lib.DoublyLinked
import Yella.Lib.Fallible
import Yella.Lib.Gate
import Yella.Lib.Handover
import Yella.Lib.Lanes
import Yella.Lib.Leaves
import Yella.Lib.LinkedList
import Yella.Lib.LittleEndian
import Yella.Lib.Loop
import Yella.Lib.Machine
import Yella.Lib.OrderedSet
import Yella.Lib.Prefixes
import Yella.Lib.RedBlack
import Yella.Lib.Rounding
import Yella.Lib.Scan
import Yella.Lib.SortedList
import Yella.Lib.Terminated
import Yella.Lib.Unicode
import Yella.Parcel.Console
import Yella.Parcel.Pack
import Yella.Plugin.Accumulator
import Yella.Plugin.Advertised
import Yella.Plugin.Agree
import Yella.Plugin.Asked
import Yella.Plugin.Batches
import Yella.Plugin.Cleanse
import Yella.Plugin.Config
import Yella.Plugin.ConfigMap
import Yella.Plugin.DbPool
import Yella.Plugin.Deadlock
import Yella.Plugin.EventSource
import Yella.Plugin.FileEvent
import Yella.Plugin.Follows
import Yella.Plugin.Monitor
import Yella.Plugin.Removal
import Yella.Plugin.Request
import Yella.Plugin.Saved
import Yella.Plugin.Stale
import Yella.Plugin.StateDbPool
import Yella.Plugin.Threads
import Yella.Plugin.UpToDate
import Yella.Plugin.WatchPaths
import Yella.PtrVector.Model
import Yella.PtrVector.Owned
import Yella.PtrVector.Refine
import Yella.ReturnCode
import Yella.Router.Buffers
import Yella.Router.Delivery
import Yella.Router.Drain
import Yella.Router.Model
import Yella.Router.Order
import Yella.Scans
import Yella.Settings.AgentSizes
import Yella.Settings.ByteSize
import Yella.Settings.Described
import Yella.Settings.Kinds
import Yella.Settings.Model
import Yella.Settings.OwnPart
import Yella.Settings.View
import Yella.Settings.Yaml
import Yella.Sglib.Deletion
import Yella.Sglib.DlList
import Yella.Sglib.Iterator
import Yella.Sglib.Map
import Yella.Spool.Account
import Yella.Spool.Bytes
import Yella.Spool.Capacity
import Yella.Spool.Carried
import Yella.Spool.Compare
import Yella.Spool.Contents
import Yella.Spool.Culling
import Yella.Spool.Empty
import Yella.Spool.Failure
import Yella.Spool.Fifo
import Yella.Spool.Filled
import Yella.Spool.Find
import Yella.Spool.Format
import Yella.Spool.Layout
import Yella.Spool.Live
import Yella.Spool.Model
import Yella.Spool.Name
import Yella.Spool.Opened
import Yella.Spool.Pop
import Yella.Spool.Reading
import Yella.Spool.Refine
import Yella.Spool.Restart
import Yella.Spool.Run
import Yella.Spool.Search
import Yella.Spool.Shelf
import Yella.Spool.Stdio
import Yella.Spool.Stranded
import Yella.Spool.Writing
import Yella.Text
import Yella.TextUtil
import Yella.Uds.Content
import Yella.Uds.Cut
import Yella.Uds.Model
import Yella.Uds.Printf
import Yella.Uds.Run

import Whatsup.CLib.MachineInt
import Whatsup.CLib.Numeral
import Whatsup.CLib.Buffer
import Whatsup.CLib.Loop
import Whatsup.CLib.ComparisonSort
import Whatsup.CLib.HashTable
import Whatsup.CLib.IntConstant
import Whatsup.CLib.Outcome
import Whatsup.Hostlist.Range
import Whatsup.Hostlist.Search
import Whatsup.Hostlist.Order
import Whatsup.Hostlist.Push
import Whatsup.Hostlist.Parse
import Whatsup.Hostlist.NodeList
import Whatsup.Hostlist.Print
import Whatsup.Hostlist.Fits
import Whatsup.Hostlist.RoundTrip
import Whatsup.Hostlist.Sort
import Whatsup.Hostlist.Overlap
import Whatsup.Hostlist.SortRun
import Whatsup.Hostlist.Collected
import Whatsup.Hostlist.Join
import Whatsup.Hostlist.Uniq
import Whatsup.Common.Fd
import Whatsup.Common.Timeval
import Whatsup.Pingd.Nodes
import Whatsup.Pingd.Loop
import Whatsup.Nodeupdown.BackendPingd
import Whatsup.Pingd.EndToEnd
import Whatsup.Nodeupdown.Handle
import Whatsup.Nodeupdown.Module
import Whatsup.Nodeupdown.Hostsfile
import Whatsup.Nodeupdown.Devel
import Whatsup.Nodeupdown.Load
import Whatsup.Nodeupdown.Preserved
import Whatsup.Hostlist.Iterator
import Whatsup.Nodeupdown.Query
import Whatsup.Nodeupdown.Calls
import Whatsup.Nodeupdown.EntryCheck
import Whatsup.Nodeupdown.Teardown
import Whatsup.Nodeupdown.Independence
import Whatsup.Nodeupdown.Errnum
import Whatsup.Nodeupdown.Undo
import Whatsup.Pingd.Cut
import Whatsup.Hostlist.Filled
import Whatsup.Hostlist.Notation
import Whatsup.Nodeupdown.Listing
import Whatsup.Command.GetNodes
import Whatsup.Command.LogMode
import Whatsup.Command.OptionTables
import Whatsup.Hostlist.LooseNotation
import Whatsup.Hostlist.Grammar
import Whatsup.Nodeupdown.Reports
import Whatsup.Nodeupdown.LoadedLists
import Whatsup.Nodeupdown.Answers
import Whatsup.Nodeupdown.Capacity
import Whatsup.Nodeupdown.LastUp
import Whatsup.Nodeupdown.ModuleChoice
import Whatsup.Nodeupdown.BackendGanglia
import Whatsup.Hostlist.Deranged
import Whatsup.Hostlist.Truncation
import Whatsup.Nodeupdown.Overflow
import Whatsup.Hostlist.Termination
import Whatsup.Hostlist.Tally
import Whatsup.Hostlist.NodeStrings
import Whatsup.Common.Lines
import Whatsup.Nodeupdown.HostsfileLines
import Whatsup.Pingd.Hostsfile
import Whatsup.Common.Conffile
import Whatsup.Common.ConffileLines
import Whatsup.Common.ConffileCounts
import Whatsup.Common.ConffileNumbers
import Whatsup.Common.ConffileQuoting
import Whatsup.Nodeupdown.Classified
import Whatsup.Nodeupdown.Nodenames
import Whatsup.Hostlist.Comparisons
import Whatsup.Pingd.Schedule
import Whatsup.Pingd.Modules
import Whatsup.Nodeupdown.Failover
import Whatsup.Hostlist.PushOrder
import Whatsup.Nodeupdown.ReportOrder
import Whatsup.CLib.Cursor
import Whatsup.Common.List
import Whatsup.Common.ListItems
import Whatsup.Common.ListWiring
import Whatsup.Common.ListNodes
import Whatsup.Common.ListSort
import Whatsup.Common.ListCalls
import Whatsup.Common.ListTraversal
import Whatsup.Command.InputNodes
import Whatsup.Command.Output
import Whatsup.Command.OutputReading
import Whatsup.Command.Cmdline
import Whatsup.Command.LogFile
import Whatsup.Hostlist.Delete
import Whatsup.Hostlist.NameCalls
import Whatsup.Hostlist.Iterators
import Whatsup.CLib.EndAround
import Whatsup.Pingd.Packets
import Whatsup.Hostlist.Found
import Whatsup.Hostlist.SortKeeps

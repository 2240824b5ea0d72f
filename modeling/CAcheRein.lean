import CAcheRein.Transition.Machine
import CAcheRein.Transition.Console
import CAcheRein.Transition.System
import CAcheRein.Transition.Ranking
import CAcheRein.Calls.Basic
import CAcheRein.Calls.Blocks
import CAcheRein.Calls.Handles
import CAcheRein.Bits.Register
import CAcheRein.Bits.Trace
import CAcheRein.Bits.Byte
import CAcheRein.Bits.Checked
import CAcheRein.FloatingPoint.Round
import CAcheRein.Memory.Block
import CAcheRein.Memory.Flat
import CAcheRein.Heap.Basic
import CAcheRein.Heap.Chain
import CAcheRein.Heap.Tree
import CAcheRein.Heap.Place
import CAcheRein.SearchTree.Basic
import CAcheRein.SearchTree.Height
import CAcheRein.Fifo.Bounded
import CAcheRein.Fifo.Window
import CAcheRein.Fifo.Counted
import CAcheRein.Fifo.Overrun
import CAcheRein.Lifo.Matching
import CAcheRein.Text.Numeral
import CAcheRein.Text.Scan
import CAcheRein.Text.Lines
import CAcheRein.Text.Extend
import CAcheRein.Text.Signed
import CAcheRein.Text.Template
import CAcheRein.Cbuf.Basic
import CAcheRein.Cbuf.Refinement
import CAcheRein.Cbuf.Bulk
import CAcheRein.Cbuf.Isr
import CAcheRein.Cbuf.Overrun
import CAcheRein.CircBuf.Basic
import CAcheRein.CircBuf.Equivalence
import CAcheRein.Queue.Basic
import CAcheRein.Queue.Refinement
import CAcheRein.Stack.Basic
import CAcheRein.Stack.Matching
import CAcheRein.LinkedList.Basic
import CAcheRein.LinkedList.Safety
import CAcheRein.Bst.Basic
import CAcheRein.Bst.Heap
import CAcheRein.Bst.Represents
import CAcheRein.Bst.Height
import CAcheRein.Bst.Insert
import CAcheRein.Bst.Observe
import CAcheRein.Parser.Basic
import CAcheRein.Parser.Accounting
import CAcheRein.Parser.Pending
import CAcheRein.Parser.Frame
import CAcheRein.Parser.Checksum
import CAcheRein.Parser.Console
import CAcheRein.Parser.History
import CAcheRein.Parser.Session
import CAcheRein.Sensor.Basic
import CAcheRein.Sensor.Console
import CAcheRein.Sensor.History
import CAcheRein.Mmio.Basic
import CAcheRein.Mmio.Invariant
import CAcheRein.Mmio.Bits
import CAcheRein.FixedPoint.Basic
import CAcheRein.FixedPoint.Exact
import CAcheRein.FixedPoint.Pipeline
import CAcheRein.Arrays.Reverse
import CAcheRein.CString.Basic
import CAcheRein.CString.Compare
import CAcheRein.CString.Copy
import CAcheRein.CString.Compose
import CAcheRein.MallocFree.Basic
import CAcheRein.SensorRegs.Basic
import CAcheRein.SensorRegs.Name
import CAcheRein.SensorRegs.Bounds
import CAcheRein.SensorRegs.Lifetime
import CAcheRein.SensorLog.Basic
import CAcheRein.SensorLog.RoundTrip
import CAcheRein.SensorLog.Append
import CAcheRein.Thermal.Basic
import CAcheRein.Posix.Basic
import CAcheRein.Posix.Handles
import CAcheRein.Posix.Files
import CAcheRein.Posix.Prints
import CAcheRein.Posix.Refinement
import CAcheRein.Posix.Output
import CAcheRein.Signals.Reload
import CAcheRein.Signals.Loop
import CAcheRein.Signals.Prints
import CAcheRein.Threads.Counter
import CAcheRein.Threads.Race
import CAcheRein.Monitor.Basic
import CAcheRein.Monitor.Collector
import CAcheRein.Monitor.Snapshot
import CAcheRein.Monitor.Shutdown
import CAcheRein.Monitor.Dashboard
import CAcheRein.Monitor.MemInfo
import CAcheRein.Monitor.Kernel

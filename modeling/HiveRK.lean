import HiveRK.Bees.Memory.Basic
import HiveRK.FirstFit.Basic
import HiveRK.Bees.Memory.Refinement
import HiveRK.Bees.Memory.Heap
import HiveRK.Bees.Memory.Runs
import HiveRK.Bees.Memory.Isolation
import HiveRK.Bees.Memory.Commands
import HiveRK.Bees.Memory.Placement
import HiveRK.Bees.Memory.Frees
import HiveRK.Bees.Memory.Stale
import HiveRK.Queen.Basic
import HiveRK.Queen.Dispatcher
import HiveRK.Queen.Loader
import HiveRK.Queen.Registry
import HiveRK.Queen.Node
import HiveRK.Queen.Setup
import HiveRK.Queen.Dispatch
import HiveRK.Queen.Walkers
import HiveRK.Queen.Agreement
import HiveRK.BucketSort.Basic
import HiveRK.Queen.Inits
import HiveRK.Queen.Discovery
import HiveRK.Queen.Search
import HiveRK.Queen.Unknown
import HiveRK.Queen.Unnamed
import HiveRK.Machine.Bytes
import HiveRK.Queen.Encoding
import HiveRK.Bump.Basic
import HiveRK.Queen.BeeData
import HiveRK.Queen.Carving
import HiveRK.Bees.Memory.Requests
import HiveRK.Bees.Syscall
import HiveRK.Bees.Memory.Manager
import HiveRK.System.Basic
import HiveRK.System.Invariant
import HiveRK.Queen.Alloc
import HiveRK.System.Steps
import HiveRK.System.Calls
import HiveRK.System.Allocate
import HiveRK.System.Switch
import HiveRK.System.Boot
import HiveRK.System.WriteOnce
import HiveRK.System.Zeroed
import HiveRK.Terminal.Basic
import HiveRK.Bees.Display.Basic
import HiveRK.Bees.Display.Screen
import HiveRK.Bees.Display.Refinement
import HiveRK.Bees.Display.OnScreen
import HiveRK.Bees.Display.Format
import HiveRK.Polling.Basic
import HiveRK.RingBuffer.Basic
import HiveRK.Bees.Keyboard.Basic
import HiveRK.Bees.Keyboard.Queue
import HiveRK.Bees.Keyboard.Overrun
import HiveRK.Bees.Keyboard.Shift
import HiveRK.Bees.Interrupt.Basic
import HiveRK.Bees.Interrupt.Routing
import HiveRK.Numeral.Basic
import HiveRK.Bees.Util.Basic
import HiveRK.Bees.Util.Strings
import HiveRK.Bees.Util.Decimal
import HiveRK.Bees.Util.FixedWidth
import HiveRK.Bees.Util.Power
import HiveRK.Bees.Display.Print
import HiveRK.Bees.Display.Conversions
import HiveRK.Bees.Display.Meaning
import HiveRK.Bees.PIT.Basic
import HiveRK.Bees.PIT.Sleep
import HiveRK.Bees.PIT.Frequency
import HiveRK.Queen.Nested
import HiveRK.Queen.Images
import HiveRK.Queen.Integrity
import HiveRK.Queen.CoreGlobal
import HiveRK.Queen.Placement
import HiveRK.Queen.Control.Basic
import HiveRK.Queen.Control.Decimal
import HiveRK.Words.Basic
import HiveRK.Queen.Control.Arguments
import HiveRK.LineEditor.Basic
import HiveRK.Queen.Control.Editor
import HiveRK.PIC.Basic
import HiveRK.Bees.Interrupt.Controller
import HiveRK.Bees.Interrupt.Frame
import HiveRK.Bees.Drivers
import HiveRK.Bees.Delivery
import HiveRK.Queen.Control.Commands
import HiveRK.Queen.Drive
import HiveRK.Queen.Ports
import HiveRK.Machine.Blocks
import HiveRK.Bees.Util.Blocks
import HiveRK.Canvas.Basic
import HiveRK.Queen.Control.Screen
import HiveRK.Queen.Control.Listing
import HiveRK.Queen.Control.Pictures
import HiveRK.Queen.Control.Comb
import HiveRK.Queen.Startup
import HiveRK.Bees.Interrupt.Screens
import HiveRK.System.Kept

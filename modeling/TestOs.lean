import TestOs.Library.LinkedList
import TestOs.Library.Slots
import TestOs.Boot.Segments
import TestOs.Console.LineEditor
import TestOs.Threads.Suspension
import TestOs.Threads.Waiting
import TestOs.Threads.Sleepers
import TestOs.Threads.Rounds
import TestOs.Devices.Keyboard
import TestOs.Devices.Interrupts
import TestOs.Memory.Ards
import TestOs.Memory.Heap
import TestOs.Memory.LinearMap
import TestOs.Memory.Safety
import TestOs.Threads.DeadThreads
import TestOs.Fat32.WriteBack
import TestOs.Fat32.Transfer
import TestOs.Fat32.FileSteps
import TestOs.Fat32.Claiming
import TestOs.Fat32.EmptyVolume
import TestOs.Fat32.Opening
import TestOs.Library.Descents
import TestOs.Fat32.Names
import TestOs.Fat32.Growing
import TestOs.Fat32.Truncating
import TestOs.Fat32.Renaming
import TestOs.Fat32.Serving
import TestOs.Fat32.Descending
import TestOs.Fat32.Listing
import TestOs.Fat32.Editing
import TestOs.Fat32.FileStore
import TestOs.Fat32.Persistence
import TestOs.Fat32.Creating
import TestOs.Fat32.Requests
import TestOs.Fat32.Cycles
import TestOs.Fat32.Ownership
import TestOs.Fat32.Interference
import TestOs.Console.Rendering
import TestOs.Console.Tokenizer
import TestOs.Console.Commands
import TestOs.Console.Paths
import TestOs.Console.Popf
import TestOs.Devices.Clock
import TestOs.Library.Snapshots
import TestOs.Devices.Rtc
import TestOs.Devices.Ide
import TestOs.Strings.Copying
import TestOs.Strings.Search
import TestOs.Strings.Tokens
import TestOs.Fat32.Mounting
import TestOs.Graphics.Vbe
import TestOs.Console.Output
import TestOs.Console.Cursor
import TestOs.Console.Scrolling
import TestOs.Graphics.Lines
import TestOs.Graphics.Circles

import UoDOS.Process.ContextRuns
import UoDOS.Process.InterruptRuns
import UoDOS.Process.Killing
import UoDOS.Process.Reaping
import UoDOS.Process.SchedulingRuns
import UoDOS.Process.SleepWakeupRules
import UoDOS.Process.Sleeplock
import UoDOS.Process.Timer
import UoDOS.Pipe.PipeLifetimeRuns
import UoDOS.Pipe.PipeWakeup
import UoDOS.Buffer.BufferDemand
import UoDOS.Buffer.BufferErrors
import UoDOS.Buffer.DiskQueue
import UoDOS.FileSystem.OpenFailures
import UoDOS.FileSystem.ParentDirectory
import UoDOS.FileSystem.PathCopies
import UoDOS.FileSystem.PositionedReads
import UoDOS.FileSystem.SharedReads
import UoDOS.FileSystem.TableBounds
import UoDOS.Kernel.DirectoryPaths
import UoDOS.Kernel.ExecFailures
import UoDOS.Kernel.MemorySizes
import UoDOS.Kernel.Multiprocessor
import UoDOS.Kernel.PipeCreation
import UoDOS.Kernel.SharedHeader
import UoDOS.Kernel.SpaceRuns
import UoDOS.Kernel.StartedPrograms
import UoDOS.Allocator.GrantedMemory
import UoDOS.Boot.LoadedFile
import UoDOS.Console.Keyboard
import UoDOS.Console.LineEditor
import UoDOS.Console.Numerals
import UoDOS.Console.Screen
import UoDOS.Shell.RedirectionOrder
import UoDOS.Strings.SafeCopies

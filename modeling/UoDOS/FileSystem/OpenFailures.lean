import UoDOS.FileSystem.ObservedResults
import UoDOS.FileSystem.Paths
import UoDOS.FileSystem.SubDirectory

/-! # Opening with no File left

Every search of a sub-directory and every open of a directory takes a File, and fs.c does not
look whether it got one.
-/
namespace UoDOS.FileSystem
open ByteMemory Strings Results Traces

variable {M : Mounted} {t t' : FileTable} {cwd filename : CString} {directory : Bool} {junk : Bytes}

end UoDOS.FileSystem

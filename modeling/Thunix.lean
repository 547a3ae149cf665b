import Thunix.Lib.Run
import Thunix.Mm.NextStart
import Thunix.Mm.WalkInvariant
import Thunix.Mm.Coalesce
import Thunix.Mm.AnySize
import Thunix.Mm.OutOfMemory
import Thunix.Fs.CoherentRuns
import Thunix.Fs.LifetimeRuns
import Thunix.Fs.BitmapBounds
import Thunix.Fs.BitmapErrors
import Thunix.Fs.StrayRecord
import Thunix.Fs.SuperBlock
import Thunix.Fs.ListDir
import Thunix.Fs.LongNames
import Thunix.Fs.WriteRuns
import Thunix.Fs.Paths
import Thunix.Fs.LookupKernel
import Thunix.Fs.ParentDir
import Thunix.Fs.OpenCreate
import Thunix.Fs.BaseName
import Thunix.Fs.HeldEntries
import Thunix.Fs.NameMap
import Thunix.Fs.FullDirs
import Thunix.Fs.DirSize
import Thunix.Fs.NameCalls
import Thunix.Fs.FailedInsert
import Thunix.Fs.FailedWrite
import Thunix.Fs.ReadErrors
import Thunix.Fs.VolumeRuns
import Thunix.Fs.DiskGeometry
import Thunix.Fs.FirstZero
import Thunix.Fs.BlockLoops
import Thunix.Kernel.SystemCall
import Thunix.Kernel.Exceptions
import Thunix.Kernel.Mktime
import Thunix.Kernel.Memmove
import Thunix.Kernel.Printed
import Thunix.Kernel.Hexdump
import Thunix.Shell.Commands
import Thunix.Shell.Numbers
import Thunix.Shell.CommandLine
import Thunix.Shell.LineEditor
import Thunix.Shell.Cat
import Thunix.Shell.Dialog
import Thunix.Shell.Copy
import Thunix.Drivers.Timer
import Thunix.Drivers.GetKey
import Thunix.Drivers.Typeahead
import Thunix.Drivers.Cursor
import Thunix.Ext2.Groups
import Thunix.Ext2.BlockMap

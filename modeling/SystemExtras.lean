import SystemExtras.Lib.Bytes
import SystemExtras.Ext4.Geometry
import SystemExtras.Ext4.SuperBlock
import SystemExtras.Ext4.Allocate
import SystemExtras.Ext4.GroupInvariant
import SystemExtras.Ext4.Takes
import SystemExtras.Ext4.AllocatorRuns
import SystemExtras.Ext4.ExtentFormat
import SystemExtras.Ext4.Extents
import SystemExtras.Ext4.ExtentsAgree
import SystemExtras.Ext4.Indirect
import SystemExtras.Ext4.IndirectMap
import SystemExtras.Ext4.Fixup
import SystemExtras.Ext4.FixupImage
import SystemExtras.Ext4.Renumber
import SystemExtras.Ext4.FixupPasses
import SystemExtras.Ext4.FixupStages
import SystemExtras.Ext4.FixupRestart
import SystemExtras.Ext4.FixupSuperblocks
import SystemExtras.Ext4.FixupUpdate
import SystemExtras.Ext4.FixupFinish
import SystemExtras.Ext4.FixupAgain
import SystemExtras.Ext4.FixupRuns
import SystemExtras.Lib.Lockstep
import SystemExtras.Ext4.FixupSearch
import SystemExtras.Ext4.FixupOverlay
import SystemExtras.Ext4.FixupLockstep
import SystemExtras.Ext4.FixupShadow
import SystemExtras.Ext4.FixupClean
import SystemExtras.Ext4.FixupStray
import SystemExtras.Ext4.FixupSanity
import SystemExtras.Fat.Volume
import SystemExtras.Wrapper.Marshal
import SystemExtras.Wrapper.StaticCalls
import SystemExtras.Ext4.SuperblockCopies
import SystemExtras.Wrapper.JniRuns
import SystemExtras.Pagemap.Usage
import SystemExtras.Ublock.Replies
import SystemExtras.Ublock.Runs
import SystemExtras.Ext4.AllocateOutcomes
import SystemExtras.Ext4.Directory
import SystemExtras.Lib.Stacks
import SystemExtras.Fat.Import
import SystemExtras.Fat.ImportPlan
import SystemExtras.Fat.ImportRuns
import SystemExtras.Fat.ImportTables
import SystemExtras.Fat.ImportListing
import SystemExtras.Fat.ImportLinks
import SystemExtras.Lib.Crc
import SystemExtras.Ext4.FixupComplete
import SystemExtras.Ext4.FixupPaths
import SystemExtras.Ext4.FixupChecksums
import SystemExtras.Ext4.Reduce
import SystemExtras.Ext4.ExtentLimits
import SystemExtras.Ext4.DirectoryBlocks
import SystemExtras.Ext4.Resize
import SystemExtras.Ext4.Xattr
import SystemExtras.Ext4.SparseExport
import SystemExtras.Ext4.FixupHoles
import SystemExtras.Ext4.DirectoryScan
import SystemExtras.Ext4.SourceListing
import SystemExtras.Ext4.FixupCrash
import SystemExtras.Lib.LinkedRing
import SystemExtras.Fat.FdPool
import SystemExtras.Ext4.IndirectCount
import SystemExtras.Ext4.ZeroDivisors
import SystemExtras.Fat.Read
import SystemExtras.Fat.FileRead
import SystemExtras.Fat.ImportFailures
import SystemExtras.Ext4.XattrBlocks
import SystemExtras.Lib.Records
import SystemExtras.Wrapper.Results
import SystemExtras.Wrapper.StaticFields
import SystemExtras.Wrapper.Registration
import SystemExtras.Wrapper.CharsRegistry
import SystemExtras.Wrapper.Critical
import SystemExtras.Wrapper.Signatures
import SystemExtras.Lib.StableInsertion
import SystemExtras.Showmap.Maps
import SystemExtras.Pagemap.WorkingSetBound
import SystemExtras.Lib.Threads
import SystemExtras.Ext4.ReserveOob
import SystemExtras.Ext4.SparseSuper
import SystemExtras.Ext4.ReserveBlocks
import SystemExtras.Ext4.Advance
import SystemExtras.Ext4.AppendOob
import SystemExtras.Ext4.Image
import SystemExtras.Lib.Windows
import SystemExtras.Ext4.ImageExport
import SystemExtras.Ext4.MakeExt4fs
import SystemExtras.Ext4.Defaults
import SystemExtras.Lib.Sha1
import SystemExtras.Ext4.Uuid

import Libhybris.BionicSyncSafety
import Libhybris.GrallocBalance
import Libhybris.SwapchainOwnership
import Libhybris.WleglSafety
import Libhybris.LinkerIntegritySound
import Libhybris.TlsPatchSound
import Libhybris.NullUpdates
import Libhybris.BcJournalRestore
import Libhybris.Shm
import Libhybris.StaticTlsReplay
import Libhybris.BcCopy
import Libhybris.X11WindowSafety
import Libhybris.UploadFlush
import Libhybris.ReadbackVisibility
import Libhybris.BcProgress
import Libhybris.BcPacking
import Libhybris.PolygonHoist
import Libhybris.SpirvEntrySlice
import Libhybris.DualSource
import Libhybris.SpirvMali
import Libhybris.PropertyFile
import Libhybris.RuntimeCache
import Libhybris.BionicCond
import Libhybris.DsoHandles
import Libhybris.ScanDir
import Libhybris.TlsModules
import Libhybris.WaylandWindowCount
import Libhybris.EglAttribs
import Libhybris.EglOverrides
import Libhybris.FbdevWindow

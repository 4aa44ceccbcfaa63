import SakUtility.Path
import SakUtility.PathText
import SakUtility.Dict
import SakUtility.Scan.Walker
import SakUtility.Scan.Spec
import SakUtility.Backup.Plan
import SakUtility.Backup.Pool
import SakUtility.Backup.Run
import SakUtility.Backup.Finish
import SakUtility.Backup.Sources
import SakUtility.Backup.Flow
import SakUtility.Dedupe.Find
import SakUtility.Posix.Inode
import SakUtility.Posix.Resolve
import SakUtility.Posix.Unlink
import SakUtility.Posix.Write
import SakUtility.Posix.Keeps
import SakUtility.Posix.Retains
import SakUtility.Organize.Suffix
import SakUtility.Organize.Run
import SakUtility.Organize.Safety
import SakUtility.Dedupe.Delete
import SakUtility.Dedupe.Hash
import SakUtility.Dedupe.Move
import SakUtility.License.Scan
import SakUtility.License.Registry
import SakUtility.License.Plist
import SakUtility.Permission.Worker
import SakUtility.Permission.Modes
import SakUtility.Permission.Signals

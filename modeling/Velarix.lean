import Velarix.Bytes
import Velarix.SkipMap
import Velarix.Fs
import Velarix.SSTable.Write
import Velarix.SSTable.Read
import Velarix.SSTable.Layout
import Velarix.SSTable.Scan
import Velarix.SSTable.Records
import Velarix.ValueLog
import Velarix.ValueLog.Faults
import Velarix.Bucket.Coordinator
import Velarix.Bucket.Runs
import Velarix.Bucket.Averages
import Velarix.Bucket.Hotness
import Velarix.Flusher
import Velarix.Bucket.Failure
import Velarix.Bucket.Faults
import Velarix.Flusher.Faults
import Velarix.Flusher.Hotness

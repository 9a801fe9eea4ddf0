import Joedb.Interpreted.Database
import Joedb.Interpreted.FreedomRuns
import Joedb.Interpreted.Ranges
import Joedb.Journal.BufferSpec
import Joedb.Journal.Writers
import Joedb.Journal.Readers
import Joedb.Journal.RoundTrip
import Joedb.Journal.ProcessCrash
import Joedb.Journal.PowerFailure
import Joedb.Journal.Sharing
import Joedb.Journal.Monotone
import Joedb.Journal.StaleWords
import Joedb.Journal.Reencoding
import Joedb.Journal.FlatFile
import Joedb.Journal.RangeHash
import Joedb.Journal.FailedDecode
import Joedb.Journal.Allocations
import Joedb.Journal.ByteStream
import Joedb.Journal.FastHash
import Joedb.Journal.ShortReads
import Joedb.Journal.CompactRead
import Joedb.Journal.FilebufRuns
import Joedb.Compiled.SameContent
import Joedb.Compiled.Throwing
import Joedb.Compiled.IndexRuns
import Joedb.Concurrency.RobustRuns
import Joedb.Concurrency.WritableClientRuns
import Joedb.Concurrency.ServerFile
import Joedb.Ui.Rows
import Joedb.Ui.Copies
import Joedb.Ui.Strings
import Joedb.Ui.Base64
import Joedb.Ui.SqlDumpRuns
import Joedb.Packing.PackedFile
import Joedb.Multiplexer.InStep
import Joedb.Concurrency.ServedPushes
import Joedb.Concurrency.Serial
import Joedb.Ui.InterpretedRuns

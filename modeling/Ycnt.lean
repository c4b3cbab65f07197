import Ycnt.Lib.Lts
import Ycnt.Lib.Linux
import Ycnt.Lib.Mutex
import Ycnt.Lib.Variant
import Ycnt.Lib.Total
import Ycnt.Lib.Bits
import Ycnt.Lib.Numeral
import Ycnt.Lib.Calendar
import Ycnt.Lib.Lexicographic
import Ycnt.Lib.CalendarText
import Ycnt.Lib.Rounding
import Ycnt.Lib.Binary
import Ycnt.Lib.Decimal
import Ycnt.Base.Timestamp
import Ycnt.Base.Buffer
import Ycnt.Base.AsyncLogging
import Ycnt.Base.Utils
import Ycnt.Base.Utils.Text
import Ycnt.Base.Utils.Convert
import Ycnt.Base.Utils.DiyFp
import Ycnt.Base.Utils.Grisu
import Ycnt.Base.Utils.DigitGen
import Ycnt.Base.Utils.Layout
import Ycnt.Base.Utils.Shortest
import Ycnt.Base.Utils.RoundTrip
import Ycnt.Base.Utils.Tables
import Ycnt.Base.File
import Ycnt.Base.File.ShortWrites
import Ycnt.Base.File.InTime
import Ycnt.Base.File.Names
import Ycnt.Base.File.Buffered
import Ycnt.Base.LogStream
import Ycnt.Base.LogStream.Contents
import Ycnt.Base.LogStream.Double
import Ycnt.Base.AsyncLogging.Steps
import Ycnt.Base.AsyncLogging.Locks
import Ycnt.Base.AsyncLogging.Conserve
import Ycnt.Base.AsyncLogging.Stop
import Ycnt.Base.AsyncLogging.Deadlock
import Ycnt.Base.AsyncLogging.Pool
import Ycnt.Base.AsyncLogging.Return
import Ycnt.Base.AsyncLogging.Order
import Ycnt.Base.AsyncLogging.Round
import Ycnt.Base.AsyncLogging.Files
import Ycnt.Base.ThreadSafeContainer
import Ycnt.Base.CountDownLatch
import Ycnt.Base.Thread
import Ycnt.Base.Thread.Life
import Ycnt.Base.Schedule
import Ycnt.Base.Logger
import Ycnt.Base.Logger.Header
import Ycnt.Base.Logger.Record
import Ycnt.Base.Logger.Read
import Ycnt.Base.Logger.Files
import Ycnt.Base.ThreadPool
import Ycnt.Base.ThreadPool.Stop
import Ycnt.Base.ThreadPool.Rest
import Ycnt.Base.ThreadPool.Load
import Ycnt.Net.EpollPoller
import Ycnt.Net.EpollPoller.Mapped
import Ycnt.Net.EpollPoller.Failures
import Ycnt.Net.EpollPoller.Disable
import Ycnt.Net.EpollPoller.Settled
import Ycnt.Net.Acceptor
import Ycnt.Net.Acceptor.TearDown
import Ycnt.Net.HandleEvent
import Ycnt.Net.HandleEvent.Lifetime
import Ycnt.Net.EventLoop
import Ycnt.Net.EventLoop.Iterations
import Ycnt.Net.LoopThread

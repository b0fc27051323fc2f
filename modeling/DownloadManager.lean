import DownloadManager.Library.Machine
import DownloadManager.Scheduler.Lifecycle
import DownloadManager.Scheduler.Acks
import DownloadManager.Scheduler.Dispatch
import DownloadManager.Scheduler.Retries
import DownloadManager.Async
import DownloadManager.Library.Channel
import DownloadManager.Library.Format
import DownloadManager.Manager
import DownloadManager.Storage.Ranges
import DownloadManager.Resume.Attempt
import DownloadManager.Resume.Course
import DownloadManager.Resume.Crash
import DownloadManager.Resume.Equivalence
import DownloadManager.Resume.Total
import DownloadManager.Resume.Bookkeeping
import DownloadManager.Resume.Progress
import DownloadManager.Rates
import DownloadManager.Shutdown
import DownloadManager.System.Overwrite
import DownloadManager.System.Length
import DownloadManager.System.Atomic
import DownloadManager.System.Spared
import DownloadManager.System.Cancelling
import DownloadManager.System.Isolation
import DownloadManager.System.CancelAll
import DownloadManager.Scheduler.Budget
import DownloadManager.Scheduler.Paused
import DownloadManager.Scheduler.Frame
import DownloadManager.Scheduler.Order
import DownloadManager.Library.Bounded
import DownloadManager.Library.Broadcast
import DownloadManager.Library.Telling
import DownloadManager.System.Stopping
import DownloadManager.System.Halting
import DownloadManager.Streams
import DownloadManager.Latest
import DownloadManager.Reporting
import DownloadManager.System.Reports
import DownloadManager.Scheduler.Pass
import DownloadManager.Scheduler.Waiting
import DownloadManager.Scheduler.Completion
import DownloadManager.Scheduler.Delays
import DownloadManager.Library.Slots
import DownloadManager.Scheduler.Refinement
import DownloadManager.Watching
import DownloadManager.System.Destinations
import DownloadManager.Scheduler.Attempts
import DownloadManager.System.Requests
import DownloadManager.System.Answers
import DownloadManager.System.Delivery

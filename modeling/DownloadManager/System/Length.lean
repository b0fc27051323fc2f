import DownloadManager.System.Ending

/-!
# How long a finished download is

A transfer ends when a read of the body returns `Ok(0)`. The announced length is only
recorded: nobody compares it with the number of bytes that were read.
-/

namespace DownloadManager

open FileSystem Worker

end DownloadManager

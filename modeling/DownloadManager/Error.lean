import DownloadManager.Path

/-!
# Errors

`src/error.rs`: the error type, its texts, and which errors the scheduler
retries. The text of a status code, of an I/O error and of an invalid header
value comes from other crates; such a value carries the text it prints.
-/

namespace DownloadManager

/-- `http::StatusCode`: the code, and the text the `http` crate prints for it. -/
structure StatusCode where
  /-- The three-digit code. -/
  code : ℕ
  /-- What `Display` prints, such as `404 Not Found`. -/
  display : String
  deriving DecidableEq, Repr

namespace StatusCode

/-- `StatusCode::is_success`. -/
def isSuccess (status : StatusCode) : Bool := 200 ≤ status.code && status.code < 300

/-- `StatusCode::is_server_error`. -/
def isServerError (status : StatusCode) : Bool := 500 ≤ status.code && status.code < 600

end StatusCode

/-- `std::io::Error`: whether its kind is `NotFound`, and its text. -/
structure IoError where
  /-- `error.kind() == ErrorKind::NotFound`. -/
  notFound : Bool
  /-- What `Display` prints. -/
  display : String
  deriving DecidableEq, Repr

/-- `Error`. -/
inductive Error where
  /-- A transport error. -/
  | network (message : String)
  /-- A response whose status is not a success. -/
  | httpStatus (status : StatusCode)
  /-- A failed file operation. -/
  | io (error : IoError)
  /-- The download was cancelled. -/
  | cancelled
  /-- Retries used up. -/
  | retriesExhausted (lastError : Error)
  /-- The manager has been shut down. -/
  | managerShutdown
  /-- The destination exists and may not be overwritten. -/
  | fileExists (path : PathBuf)
  /-- A header value that cannot be sent. -/
  | invalidHeaderValue (value : String) (source : String)
  /-- A request that cannot be served. -/
  | invalidRequest (message : String)
  /-- A configuration that cannot be built. -/
  | invalidConfig (message : String)
  /-- No room in the command queue. -/
  | commandQueueFull
  /-- The command channel is closed. -/
  | commandChannelClosed
  /-- A URL that does not parse. -/
  | invalidUrl (message : String)
  /-- Anything else. -/
  | unknown (message : String)
  deriving DecidableEq, Repr

/-- `Result`. -/
abbrev Result (α : Type*) := Except Error α

namespace Error

/-- `Error::is_retryable`: transport errors and HTTP 5xx. -/
def isRetryable : Error → Bool
  | network _ => true
  | httpStatus status => status.isServerError
  | cancelled | io _ => false
  | _ => false

/-- `Error::to_string`. -/
def display : Error → String
  | network message => "Network error: " ++ message
  | httpStatus status => "HTTP request failed with status " ++ status.display
  | io error => "I/O error: " ++ error.display
  | cancelled => "Download was cancelled"
  | retriesExhausted lastError => "Retry limit exceeded: " ++ lastError.display
  | managerShutdown => "Download manager has been shut down"
  | fileExists path => "File already exists: " ++ path.display
  | invalidHeaderValue value source => "Invalid header value `" ++ value ++ "`: " ++ source
  | invalidRequest message => "Invalid request: " ++ message
  | invalidConfig message => "Invalid configuration: " ++ message
  | commandQueueFull => "Download manager command queue is full"
  | commandChannelClosed => "Download manager command channel is closed"
  | invalidUrl message => "Invalid URL: " ++ message
  | unknown message => "Unknown error: " ++ message

end Error

end DownloadManager

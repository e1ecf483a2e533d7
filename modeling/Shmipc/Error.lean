import Mathlib.Tactic

namespace Shmipc

inductive Err
  | invalidVersion | invalidMsgType | sessionShutdown | streamsExhausted | duplicateStream
  | timeout | streamClosed | streamReset | connectionWriteTimeout | connectionTimeout
  | keepAliveTimeout | endOfStream | sessionUnhealthy | notEnoughData | noMoreBuffer
  | sizeTooLarge | brokenBuffer | shareMemoryHadNotLeftSpace | streamCallbackHadExisted
  | exchangeConfig | exchangeConfigTimeout | osNonSupported | archNonSupported
  | hotRestartInProgress | inHandshakeStage | fileNameTooLong | queueEmpty | queueFull
  | streamPoolFull | streamHasUnreadData | streamHasPendingData | io | other
deriving DecidableEq

/-- `message` is empty except for the kinds `io` and `other`. -/
structure Error where
  kind : Err
  message : String := ""
  sizePayload : ℕ := 0
deriving DecidableEq

def errMessage : Err → String
  | .invalidVersion => "invalid protocol version"
  | .invalidMsgType => "invalid msg type"
  | .sessionShutdown => "session shutdown"
  | .streamsExhausted => "streams exhausted"
  | .duplicateStream => "duplicate stream initiated"
  | .timeout => "i/o deadline reached"
  | .streamClosed => "stream closed"
  | .streamReset => "stream reset by peer"
  | .connectionWriteTimeout => "connection write timeout"
  | .connectionTimeout => "connection timeout"
  | .keepAliveTimeout => "keepalive timeout"
  | .endOfStream => "end of stream"
  | .sessionUnhealthy => "now the session is unhealthy, please retry later"
  | .notEnoughData => "current buffer is not enough data to read"
  | .noMoreBuffer => "share memory no more buffer"
  | .sizeTooLarge => "alloc size exceed"
  | .brokenBuffer => "share memory's buffer had broken"
  | .shareMemoryHadNotLeftSpace => "share memory had not left space"
  | .streamCallbackHadExisted => "stream callbacks had existed"
  | .exchangeConfig => "exchange config protocol invalid"
  | .exchangeConfigTimeout => "exchange config timeout"
  | .osNonSupported => "shmipc just support linux OS now"
  | .archNonSupported => "shmipc just support amd64 or arm64 arch"
  | .hotRestartInProgress => "hot restart in progress, try again later"
  | .inHandshakeStage => "session in handshake stage, try again later"
  | .fileNameTooLong => "share memory path prefix too long"
  | .queueEmpty => "the queue is empty"
  | .queueFull => "the queue is full"
  | .streamPoolFull => "stream pool is full"
  | .streamHasUnreadData => "stream had unread data"
  | .streamHasPendingData => "stream had pending data"
  | .io => "io error"
  | .other => "other error"

def snprintf (size : ℕ) (text : String) : String := String.ofList (text.toList.take (size - 1))

namespace Error

def display (err : Error) : String :=
  match err.kind with
  | .streamHasUnreadData => snprintf 64 ("stream had unread data, size: " ++ toString err.sizePayload)
  | .streamHasPendingData => snprintf 64 ("stream had pending data, pending slice len: " ++ toString err.sizePayload)
  | .io | .other => if err.message = "" then errMessage err.kind else err.message
  | kind => errMessage kind

def ofKind (kind : Err) : Error where kind := kind

def io (message : String) : Error where
  kind := .io
  message := message

def other (message : String) : Error where
  kind := .other
  message := message

end Error

abbrev Result (α : Type) := Except Error α

end Shmipc

import Shmipc.LinkedBuffer
import Shmipc.StreamRead
import Shmipc.Queue
import Shmipc.Event

namespace Shmipc

open ByteMemory

open StreamRead (StreamState)

inductive Pending
  | fallback (slice : BufferSlice)
  | chain (offset : ℕ)
deriving DecidableEq

structure Stream where
  id : ℕ
  state : StreamState
  inFallbackState : Bool
  recvBuf : LinkedBuffer
  sendBuf : LinkedBuffer
  pendingData : List Pending
deriving DecidableEq

def streamCode : StreamState → ℕ
  | .opened => 0
  | .closed => 1
  | .halfClosed => 2

inductive Sent
  | element (e : QueueElement)
  | frame (f : Frame)

/-- The answers of the ring and of the socket to one call, and the state of the session it sees. -/
structure Answers where
  version : ℕ
  shutdown : Bool
  put : ℕ → Result Unit
  closed : ℕ → Bool
  waitForSend : Result Unit

namespace Stream

def empty (id : ℕ) : Stream where
  id := id
  state := .opened
  inFallbackState := false
  recvBuf := .empty
  sendBuf := .empty
  pendingData := []

variable (bm : BufferManager)

-- the header of the last slice, when the chain ends in an empty slot
def clearBack (m : Mem) (buf : LinkedBuffer) : Mem :=
  match buf.sliceList.getLast?.bind fun n => n.slice.bufferHeader with
  | some h => BufferHeader.setInUsed (BufferHeader.clearFlag m h) h
  | none => m

def moveSlot (rest : Mem → LinkedBuffer → ℕ → Option (Mem × LinkedBuffer)) (m : Mem) (buf : LinkedBuffer) :
    Result BufferSlice → Option (Mem × LinkedBuffer)
  | .error _ => some (m, buf)
  | .ok slice =>
    let hasNext := slice.bufferHeader.any (BufferHeader.hasNext m)
    let nextOffset := (slice.bufferHeader.map (BufferHeader.nextBufferOffset m)).getD 0
    if slice.size = 0 then
      let m := bm.recycleBuffer m slice
      if hasNext then rest m buf nextOffset else some (clearBack m buf, buf)
    else if hasNext then rest m (buf.appendBufferSlice slice) nextOffset
    else some (m, buf.appendBufferSlice slice)

def moveChain : ℕ → Mem → LinkedBuffer → ℕ → Option (Mem × LinkedBuffer)
  | 0, _, _, _ => none
  | fuel + 1, m, buf, offset => moveSlot bm (moveChain fuel) m buf (bm.readBufferSlice m offset)

def moveAll (fuel : ℕ) : List Pending → Mem → LinkedBuffer → Bool → Option (Mem × LinkedBuffer × Bool)
  | [], m, buf, fallback => some (m, buf, fallback)
  | .fallback slice :: rest, m, buf, _ => moveAll fuel rest m (buf.appendBufferSlice slice) true
  | .chain offset :: rest, m, buf, fallback =>
    (moveChain bm fuel m buf offset).bind fun r => moveAll fuel rest r.1 r.2 fallback

-- a chain without a cycle has fewer slots than the region has bytes
def movePendingData (m : Mem) (s : Stream) : Option (Mem × Stream) :=
  (moveAll bm bm.memSize s.pendingData m s.recvBuf s.inFallbackState).map fun r =>
    (r.1, { s with recvBuf := r.2.1, inFallbackState := r.2.2, pendingData := [] })

/-- `read_more` as far as it gets without new messages: `none` as its answer when it has to wait. -/
def readMore (m : Mem) (s : Stream) (minSize : ℕ) : Option (Mem × Stream × Option (Result Unit)) :=
  (movePendingData bm m s).map fun r =>
    (r.1, r.2,
      if minSize ≤ r.2.recvBuf.len then some (.ok ())
      else if r.2.recvBuf.len = 0 ∧ r.2.state ≠ .opened then some (.error (.ofKind .endOfStream))
      else match r.2.state with
        | .opened => none
        | .halfClosed => some (.error (.ofKind .endOfStream))
        | .closed => some (.error (.ofKind .streamClosed)))

def andThen {α : Type} (r : Option (Mem × Stream × Option (Result Unit))) (f : Mem → Stream → Mem × Stream × Result α) :
    Option (Mem × Stream × Option (Result α)) :=
  r.map fun r =>
    match r.2.2 with
    | some (.ok _) =>
      let (m, s, x) := f r.1 r.2.1
      (m, s, some x)
    | some (.error err) => (r.1, r.2.1, some (.error err))
    | none => (r.1, r.2.1, none)

def onRecv {α : Type} (s : Stream) (r : Mem × LinkedBuffer × α) : Mem × Stream × α :=
  (r.1, { s with recvBuf := r.2.1 }, r.2.2)

def reading {α : Type} (m : Mem) (s : Stream) (size : ℕ) (f : Mem → LinkedBuffer → Mem × LinkedBuffer × Result α) :
    Option (Mem × Stream × Option (Result α)) :=
  andThen (if s.recvBuf.len < size then readMore bm m s size else some (m, s, some (.ok ())))
    fun m s => s.onRecv (f m s.recvBuf)

def read (m : Mem) (s : Stream) : Option (Mem × Stream × Option (Result Buf)) :=
  reading bm m s 1 fun m b => b.readBytes bm m b.len

def readBytes (m : Mem) (s : Stream) (size : ℕ) : Option (Mem × Stream × Option (Result Buf)) :=
  reading bm m s size fun m b => b.readBytes bm m size

def peek (m : Mem) (s : Stream) (size : ℕ) : Option (Mem × Stream × Option (Result Buf)) :=
  reading bm m s size fun m b => (m, b.peek m size)

def discard (m : Mem) (s : Stream) (size : ℕ) : Option (Mem × Stream × Option (Result ℕ)) :=
  reading bm m s size fun m b => b.discard bm m size

def writeBytes (m : Mem) (s : Stream) (bytes : List UInt8) : Option (Mem × Stream) :=
  (s.sendBuf.writeBytes bm m bytes).map fun r => (r.1, { s with sendBuf := r.2 })

def reserve (m : Mem) (s : Stream) (size : ℕ) : Option (Mem × Stream × Result (ℕ × ℕ)) :=
  (s.sendBuf.reserve bm m size).map fun r => (r.1, { s with sendBuf := r.2.1 }, r.2.2)

/-- The bytes that `write_fallback` copies: each slice from the start of its storage, up to the write
cursor. -/
def fallbackPayload (m : Mem) (write : Option ℕ) : List Node → List UInt8
  | [] => []
  | n :: rest =>
    n.slice.data.load m 0 n.slice.size ++ if write = some n.id then [] else fallbackPayload m write rest

def recycleSend (m : Mem) (s : Stream) : Mem × Stream :=
  let (m, b) := s.sendBuf.recycle bm m
  (m, { s with sendBuf := b })

def writeFallback (ans : Answers) (m : Mem) (s : Stream) (status : ℕ) : Mem × Stream × Result Unit × List Sent :=
  if s.sendBuf.len > 4294967295 - 16 then
    let (m, s) := recycleSend bm m s
    (m, s, .error (.ofKind .noMoreBuffer), [])
  else
    let frame : Frame := .fallbackData ans.version s.id status (fallbackPayload m s.sendBuf.write s.sendBuf.sliceList)
    let (m, s) := recycleSend bm m s
    match ans.waitForSend with
    | .ok _ => (m, s, .ok (), [.frame frame])
    | .error err => (m, s, .error err, [])

def cleanSend (s : Stream) : Stream := { s with sendBuf := s.sendBuf.clean }

def element (s : Stream) (status : ℕ) : QueueElement := ⟨s.id, s.sendBuf.rootBufOffset, status⟩

def flushRetry (ans : Answers) (status : ℕ) : ℕ → ℕ → Mem → Stream → Mem × Stream × Result Unit × List Sent
  | 0, _, m, s =>
    let (m, s) := recycleSend bm m s
    (m, s, .error (.ofKind .queueFull), [])
  | left + 1, retry, m, s =>
    if ans.closed retry then
      let (m, s) := recycleSend bm m s
      (m, s, .error (.ofKind .streamClosed), [])
    else
      match ans.put (retry + 1) with
      | .ok _ => (m, s.cleanSend, .ok (), [.element (s.element status)])
      | .error err =>
        if err.kind = .queueFull then flushRetry ans status left (retry + 1) m s
        else
          let (m, s) := recycleSend bm m s
          (m, s, .error err, [])

/-- The ring part of `flush`. `wake_up_peer` has no other answer than `ok`. -/
def flushRing (ans : Answers) (m : Mem) (s : Stream) (status : ℕ) : Mem × Stream × Result Unit × List Sent :=
  match ans.put 0 with
  | .ok _ => (m, s.cleanSend, .ok (), [.element (s.element status)])
  | .error err =>
    if err.kind = .queueFull then flushRetry bm ans status 10 0 m s
    else
      let (m, s) := recycleSend bm m s
      (m, s, .error err, [])

def flushDone (ans : Answers) (m : Mem) (s : Stream) (status : ℕ) : Mem × Stream × Result Unit × List Sent :=
  let s := if s.sendBuf.isFromShm then s else { s with inFallbackState := true }
  if s.inFallbackState then
    let (m, s, ret, sent) := writeFallback bm ans m s status
    (m, s.cleanSend, ret, sent)
  else flushRing bm ans m s status

def flush (ans : Answers) (m : Mem) (s : Stream) : Option (Mem × Stream × Result Unit × List Sent) :=
  if s.sendBuf.len = 0 then some (m, s, .ok (), [])
  else if s.state ≠ .opened then
    let (m, s) := recycleSend bm m s
    some (m, s, .error (.ofKind .streamClosed), [])
  else
    (s.sendBuf.done bm m).map fun r => flushDone bm ans r.1 { s with sendBuf := r.2 } (streamCode s.state)

-- the loop of `clean_pending_data` ends at an offset that cannot be read
def cleanChain (fuel : ℕ) (rest : Mem → Option Mem) (m : Mem) : Result BufferSlice → Option Mem
  | .error _ => some m
  | .ok slice => (bm.recycleBuffers fuel m slice).bind rest

def cleanAll (fuel : ℕ) : List Pending → Mem → Option Mem
  | [], m => some m
  | .fallback _ :: rest, m => cleanAll fuel rest m
  | .chain offset :: rest, m => cleanChain bm fuel (cleanAll fuel rest) m (bm.readBufferSlice m offset)

def cleanPendingData (m : Mem) (s : Stream) : Option (Mem × Stream) :=
  (cleanAll bm bm.memSize s.pendingData m).map fun m => (m, { s with pendingData := [] })

def recycleRecv (m : Mem) (s : Stream) : Mem × Stream :=
  let (m, b) := s.recvBuf.recycle bm m
  (m, { s with recvBuf := b })

def clean (m : Mem) (s : Stream) : Option (Mem × Stream) :=
  (cleanPendingData bm m s).map fun r =>
    let (m, s) := recycleRecv bm r.1 r.2
    recycleSend bm m s

def close (ans : Answers) (m : Mem) (s : Stream) : Option (Mem × Stream × Result Unit × List Sent) :=
  if s.state = .closed then some (m, s, .ok (), [])
  else
    (clean bm m { s with state := .closed }).map fun r =>
      if s.state ≠ .opened ∨ ans.shutdown then (r.1, r.2, .ok (), [])
      else
        let frame : Frame := .streamClose ans.version s.id
        match s.inFallbackState, ans.put 0, ans.waitForSend with
        | false, .ok _, _ => (r.1, r.2, .ok (), [.element ⟨s.id, 0, streamCode .closed⟩])
        | _, _, .ok _ => (r.1, r.2, .ok (), [.frame frame])
        | _, _, .error err => (r.1, r.2, .error err, [])

def reset (s : Stream) : Result Stream :=
  if s.state ≠ .opened then .error (.ofKind .streamClosed)
  else if s.recvBuf.len > 0 then .error { kind := .streamHasUnreadData, sizePayload := s.recvBuf.len }
  else if s.pendingData.length > 0 then .error { kind := .streamHasPendingData, sizePayload := s.pendingData.length }
  else .ok { s with inFallbackState := false }

def releaseReadAndReuse (m : Mem) (s : Stream) : Mem × Stream :=
  let (m, recv) := s.recvBuf.releasePreviousReadAndReserve bm m
  if recv.len = 0 ∧ recv.sliceList.length = 1 then (m, { s with recvBuf := s.sendBuf, sendBuf := recv })
  else (m, { s with recvBuf := recv })

def fillDataToReadBuffer (m : Mem) (s : Stream) (wrapper : Pending) : Option (Mem × Stream) :=
  let s := { s with pendingData := s.pendingData ++ [wrapper] }
  if s.state = .closed then (cleanPendingData bm m s).map fun r => recycleRecv bm r.1 r.2
  else some (m, s)

def halfClose (s : Stream) : Stream := if s.state = .opened then { s with state := .halfClosed } else s

end Stream

inductive Placed
  | pooled
  | closed
deriving DecidableEq

/-- `put_or_close_stream`, with `StreamPool::push`: `room` says whether the pool takes the stream.
Errors are only logged. -/
def putOrCloseStream (bm : BufferManager) (ans : Answers) (room : Bool) (m : Mem) (s : Stream) :
    Option (Mem × Stream × Placed × List Sent) :=
  let closing (m : Mem) (s : Stream) := (s.close bm ans m).map fun r => (r.1, r.2.1, Placed.closed, r.2.2.2)
  if s.inFallbackState then closing m s
  else
    match s.reset with
    | .error _ => closing m s
    | .ok s =>
      let (m, s) := s.releaseReadAndReuse bm m
      if room then some (m, s, .pooled, []) else closing m s

end Shmipc

import Shmipc.Library.Transition
import Shmipc.Queue

namespace Shmipc.Delivery

open Transition

def kStreamOpened : ℕ := 0
def kStreamClosed : ℕ := 1

inductive Payload
  | shm (offset : ℕ)
  | fallback (bytes : List UInt8)
deriving DecidableEq

inductive Item
  | data (payload : Payload)
  | close
deriving DecidableEq

inductive Frame
  | polling
  | fallbackData (seqId : ℕ) (payload : List UInt8)
  | streamClose (id : ℕ)
deriving DecidableEq

/-- The thread that flushes or closes a stream: after its put it tries to set the working flag,
and after setting it it owes a polling frame. -/
inductive SenderPc
  | idle
  | marking
  | waking
deriving DecidableEq

/-- `handle_polling` empties the ring, then `mark_not_working` stores 0, loads the size and,
unless that is 0, stores 1. -/
inductive ReaderPc
  | idle
  | draining
  | unmarking
  | checking
  | remarking
deriving DecidableEq

structure State where
  queue : Queue
  channel : List Frame
  pc : ℕ → SenderPc
  inFallbackState : ℕ → Bool
  closed : ℕ → Bool
  sent : ℕ → List Item
  reader : ReaderPc
  known : ℕ → Bool
  log : ℕ → List Item

inductive Act
  | put (id offset : ℕ)
  | closePut (id : ℕ)
  | mark (id : ℕ)
  | wake (id : ℕ)
  | enterFallback (id : ℕ)
  | reset (id : ℕ)
  | sendFallback (id : ℕ) (payload : List UInt8)
  | sendClose (id : ℕ)
  | receive
  | pop
  | unmark
  | check
  | remark
deriving DecidableEq

/-- `get_stream` and `handle_stream_message`; a close that finds no stream is only read. -/
def handleMessage (isClient : Bool) (s : State) (id status : ℕ) (payload : Payload) : State :=
  if s.known id ∨ (isClient = false ∧ status = kStreamOpened) then
    { s with
      known := Function.update s.known id true
      log := Function.update s.log id
        (s.log id ++ [if status = kStreamClosed then .close else .data payload]) }
  else if status = kStreamClosed then { s with log := Function.update s.log id (s.log id ++ [.close]) }
  else s

def handleFrame (isClient : Bool) (s : State) : Frame → State
  | .polling => { s with reader := .draining }
  | .fallbackData seqId payload => handleMessage isClient s seqId kStreamOpened (.fallback payload)
  | .streamClose id =>
    { s with known := Function.update s.known id false, log := Function.update s.log id (s.log id ++ [.close]) }

def enqueue (s : State) (id : ℕ) (element : QueueElement) (item : Item) : Option State :=
  match s.queue.put element with
  | .error _ => none
  | .ok queue => some { s with
      queue := queue
      pc := Function.update s.pc id .marking
      sent := Function.update s.sent id (s.sent id ++ [item]) }

def transmit (s : State) (id : ℕ) (frame : Frame) (item : Item) : State :=
  { s with channel := s.channel ++ [frame], sent := Function.update s.sent id (s.sent id ++ [item]) }

def ready (s : State) (id : ℕ) : Bool := s.pc id = .idle && !s.closed id

def close (s : State) (id : ℕ) : State := { s with closed := Function.update s.closed id true }

def closeElement (id : ℕ) : QueueElement := ⟨id, 0, kStreamClosed⟩

def isFull (s : State) (element : QueueElement) : Bool := (enqueue s 0 element .close).isNone

def step (isClient : Bool) (s : State) : Act → Option State
  | .put id offset =>
    if ready s id ∧ s.inFallbackState id = false then
      enqueue s id ⟨id, offset, kStreamOpened⟩ (.data (.shm offset))
    else none
  | .closePut id =>
    if ready s id ∧ s.inFallbackState id = false then enqueue (close s id) id (closeElement id) .close
    else none
  | .mark id =>
    if s.pc id = .marking then
      let (won, queue) := s.queue.markWorking
      some { s with queue := queue, pc := Function.update s.pc id (if won then .waking else .idle) }
    else none
  | .wake id =>
    if s.pc id = .waking then
      some { s with channel := s.channel ++ [.polling], pc := Function.update s.pc id .idle }
    else none
  | .enterFallback id => some { s with inFallbackState := Function.update s.inFallbackState id true }
  | .reset id =>
    if ready s id then some { s with inFallbackState := Function.update s.inFallbackState id false }
    else none
  | .sendFallback id payload =>
    if ready s id ∧ s.inFallbackState id = true then
      some (transmit s id (.fallbackData id payload) (.data (.fallback payload)))
    else none
  | .sendClose id =>
    if ready s id ∧ (s.inFallbackState id = true ∨ isFull s (closeElement id) = true) then
      some (transmit (close s id) id (.streamClose id) .close)
    else none
  | .receive =>
    match s.reader, s.channel with
    | .idle, frame :: channel => some (handleFrame isClient { s with channel := channel } frame)
    | _, _ => none
  | .pop =>
    if s.reader = .draining then
      match s.queue.pop with
      | .error _ => some { s with reader := .unmarking }
      | .ok (e, queue) =>
        some (handleMessage isClient { s with queue := queue } e.seqId e.status (.shm e.offsetInShmBuf))
    else none
  | .unmark =>
    if s.reader = .unmarking then
      some { s with queue := { s.queue with workingFlag := 0 }, reader := .checking }
    else none
  | .check =>
    if s.reader = .checking then
      some { s with reader := if s.queue.size = 0 then .idle else .remarking }
    else none
  | .remark =>
    if s.reader = .remarking then
      some { s with queue := { s.queue with workingFlag := 1 }, reader := .draining }
    else none

def initial (cap : ℕ) (known : ℕ → Bool) : State where
  queue := .create cap
  channel := []
  pc := fun _ => .idle
  inFallbackState := fun _ => false
  closed := fun _ => false
  sent := fun _ => []
  reader := .idle
  known := known
  log := fun _ => []

/-- A client has registered every stream on which its server sends. -/
def system (isClient : Bool) (cap : ℕ) : System State Act where
  initial s := ∃ known : ℕ → Bool, (isClient = true → ∀ id, known id = true) ∧ s = initial cap known
  step := step isClient

end Shmipc.Delivery

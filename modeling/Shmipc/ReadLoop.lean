import Shmipc.Event
import Shmipc.BufReader

/-!
The read loop of a session over the bytes of its socket. What an event does to the session is left
to `Handlers`; the loop sees from it only an error and whether the session has been shut down.
-/

namespace Shmipc.ReadLoop

variable {σ : Type}

structure Handlers (σ : Type) where
  polling : σ → Option Error × σ
  fallbackData : (seqId status : ℕ) → (data : List UInt8) → σ → Option Error × σ
  streamClose : (id : ℕ) → σ → σ
  isClosed : σ → Bool

/-- `lengths` are the event lengths that `handle_fallback_data` has been given. -/
structure HandlerResult (σ : Type) where
  consumed : ℕ
  required : ℕ
  stop : Bool
  err : Option Error
  state : σ
  lengths : List ℕ := []

def handlePolling (H : Handlers σ) (s : σ) : HandlerResult σ where
  consumed := kHeaderSize
  required := kHeaderSize
  stop := false
  err := (H.polling s).1
  state := (H.polling s).2

def kFallbackDataHeader : ℕ := 8

-- `event_len - kHeaderSize` in 64 bits
@[irreducible] def payloadLen (eventLen : ℕ) : ℕ := (eventLen + 2 ^ 64 - kHeaderSize) % 2 ^ 64

theorem payloadLen_eq {l : ℕ} (h8 : 8 ≤ l) (hl : l < 2 ^ 32) : payloadLen l = l - 8 := by
  unfold payloadLen kHeaderSize
  omega

-- `none`: the range of the payload ends before it starts
def handleFallbackData (H : Handlers σ) (eventLen : ℕ) (buf : List UInt8) (s : σ) : Option (HandlerResult σ) :=
  if buf.length < payloadLen eventLen then
    some { consumed := 0, required := eventLen, stop := true, err := none, state := s, lengths := [eventLen] }
  else if payloadLen eventLen < kFallbackDataHeader then none
  else
    let r := H.fallbackData (loadBe32 buf) (loadBe32 (buf.drop 4) % 2 ^ 8)
      ((buf.take (payloadLen eventLen)).drop kFallbackDataHeader) s
    some { consumed := eventLen, required := kHeaderSize, stop := false, err := r.1, state := r.2, lengths := [eventLen] }

def kIdLen : ℕ := 4

def handleStreamClose (H : Handlers σ) (buf : List UInt8) (s : σ) : HandlerResult σ :=
  if buf.length < kIdLen then
    { consumed := 0, required := kHeaderSize + kIdLen, stop := true, err := none, state := s }
  else
    { consumed := kHeaderSize + kIdLen, required := kHeaderSize, stop := false, err := none,
      state := H.streamClose (loadBe32 buf) s }

def invalidEvent (err : Error) (s : σ) : HandlerResult σ where
  consumed := kHeaderSize
  required := kHeaderSize
  stop := false
  err := some err
  state := s

def handleEvent (H : Handlers σ) (p : List UInt8) (s : σ) : Option (HandlerResult σ) :=
  match checkEventValid p with
  | .error err => some (invalidEvent err s)
  | .ok () =>
    match Header.msgType p with
    | some .polling => some (handlePolling H s)
    | some .streamClose => some (handleStreamClose H (p.drop kHeaderSize) s)
    | some .fallbackData => handleFallbackData H (Header.length p) (p.drop kHeaderSize) s
    | _ => some (invalidEvent (.ofKind .invalidMsgType) s)

structure EventResult (σ : Type) where
  consumed : ℕ
  required : ℕ
  err : Option Error
  state : σ
  lengths : List ℕ

-- an event that does not stop the loop takes at least a header, so `fuel` bounds the events in `buf`
def handleEvents (H : Handlers σ) : ℕ → List UInt8 → ℕ → σ → List ℕ → Option (EventResult σ)
  | 0, _, consumed, s, ls => some ⟨consumed, kHeaderSize, none, s, ls⟩
  | fuel + 1, buf, consumed, s, ls =>
    if buf.length - consumed ≥ kHeaderSize then
      match handleEvent H (buf.drop consumed) s with
      | none => none
      | some hr =>
        match hr.err with
        | some err => some ⟨consumed + hr.consumed, kHeaderSize, some err, hr.state, ls ++ hr.lengths⟩
        | none =>
          if hr.stop then some ⟨consumed + hr.consumed, hr.required, none, hr.state, ls ++ hr.lengths⟩
          else handleEvents H fuel buf (consumed + hr.consumed) hr.state (ls ++ hr.lengths)
    else some ⟨consumed, kHeaderSize, none, s, ls⟩

structure LoopState (σ : Type) where
  reader : BufReader
  fd : List Chunk
  len : ℕ
  state : σ
deriving DecidableEq

inductive Outcome (σ : Type)
  | invalid
  | returned (s : σ)
  | failed (err : Error) (s : σ)
  | next (st : LoopState σ)
deriving DecidableEq

def afterEvents (H : Handlers σ) (reader : BufReader) (fd : List Chunk) : Option (EventResult σ) → Outcome σ
  | none => .invalid
  | some res =>
    let st := ⟨reader.consume res.consumed, fd, res.required, res.state⟩
    match res.err with
    | none => .next st
    | some err => if H.isClosed res.state then .next st else .failed err res.state

def turn (H : Handlers σ) (st : LoopState σ) : Outcome σ :=
  match BufReader.fillBufAtLeast st.reader st.fd st.len with
  | (buf, reader, fd) =>
    if H.isClosed st.state then .returned st.state
    else
      match buf with
      | .error err => .failed err st.state
      | .ok buf => afterEvents H reader fd (handleEvents H buf.length buf 0 st.state [])

def start (cap : ℕ) (fd : List Chunk) (s : σ) : LoopState σ where
  reader := .new cap
  fd := fd
  len := kHeaderSize
  state := s

def readLoop (H : Handlers σ) : ℕ → LoopState σ → Option (Outcome σ)
  | 0, _ => none
  | fuel + 1, st =>
    match turn H st with
    | .next st => readLoop H fuel st
    | o => some o

theorem start_ok (cap : ℕ) : (BufReader.new cap).Ok where
  pos_le := le_rfl
  len_le := Nat.zero_le cap

end Shmipc.ReadLoop

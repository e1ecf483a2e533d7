import Shmipc.Error

namespace Shmipc

def kHeaderSize : ℕ := 8

def kMagicNumber : ℕ := 0x7758

def kMaxSupportProtoVersion : ℕ := 3

inductive EventType
  | shareMemoryByFilePath | polling | streamClose | fallbackData | exchangeProtoVersion
  | shareMemoryByMemfd | ackShareMemory | ackReadyRecvFd | hotRestart | hotRestartAck
deriving DecidableEq

namespace EventType

def toNat : EventType → ℕ
  | shareMemoryByFilePath => 0
  | polling => 1
  | streamClose => 2
  | fallbackData => 3
  | exchangeProtoVersion => 4
  | shareMemoryByMemfd => 5
  | ackShareMemory => 6
  | ackReadyRecvFd => 7
  | hotRestart => 8
  | hotRestartAck => 9

-- values above `kMaxEventType` are no event type
def ofNat? : ℕ → Option EventType
  | 0 => some shareMemoryByFilePath
  | 1 => some polling
  | 2 => some streamClose
  | 3 => some fallbackData
  | 4 => some exchangeProtoVersion
  | 5 => some shareMemoryByMemfd
  | 6 => some ackShareMemory
  | 7 => some ackReadyRecvFd
  | 8 => some hotRestart
  | 9 => some hotRestartAck
  | _ => none

def name : EventType → String
  | shareMemoryByFilePath => "ShareMemoryByFilePath"
  | polling => "Polling"
  | streamClose => "StreamClose"
  | fallbackData => "FallbackData"
  | exchangeProtoVersion => "ExchangeProtoVersion"
  | shareMemoryByMemfd => "ShareMemoryByMemfd"
  | ackShareMemory => "AckShareMemory"
  | ackReadyRecvFd => "AckReadyRecvFD"
  | hotRestart => "HotRestart"
  | hotRestartAck => "HotRestartAck"

end EventType

def storeBe16 (v : ℕ) : List UInt8 := [UInt8.ofNat (v / 2 ^ 8), UInt8.ofNat v]

def storeBe32 (v : ℕ) : List UInt8 :=
  [UInt8.ofNat (v / 2 ^ 24), UInt8.ofNat (v / 2 ^ 16), UInt8.ofNat (v / 2 ^ 8), UInt8.ofNat v]

def loadBe16 (p : List UInt8) : ℕ := (p.getD 0 0).toNat * 2 ^ 8 + (p.getD 1 0).toNat

def loadBe32 (p : List UInt8) : ℕ :=
  (p.getD 0 0).toNat * 2 ^ 24 + (p.getD 1 0).toNat * 2 ^ 16 + (p.getD 2 0).toNat * 2 ^ 8 + (p.getD 3 0).toNat

namespace Header

def length (p : List UInt8) : ℕ := loadBe32 p

def magic (p : List UInt8) : ℕ := loadBe16 (p.drop 4)

def version (p : List UInt8) : ℕ := (p.getD 6 0).toNat

def msgType (p : List UInt8) : Option EventType := EventType.ofNat? (p.getD 7 0).toNat

def encode (length version : ℕ) (msgType : EventType) : List UInt8 :=
  storeBe32 length ++ storeBe16 kMagicNumber ++ [UInt8.ofNat version, UInt8.ofNat msgType.toNat]

end Header

def checkEventValid (p : List UInt8) : Result Unit :=
  if Header.magic p ≠ kMagicNumber ∨ Header.version p = 0 then .error (.ofKind .invalidVersion)
  else if Header.msgType p = none then .error (.ofKind .invalidMsgType)
  else .ok ()

inductive Frame
  | polling (version : ℕ)
  | streamClose (version id : ℕ)
  | fallbackData (version seqId status : ℕ) (payload : List UInt8)

namespace Frame

def version : Frame → ℕ
  | polling v | streamClose v _ | fallbackData v _ _ _ => v

def size : Frame → ℕ
  | polling _ => 8
  | streamClose _ _ => 12
  | fallbackData _ _ _ payload => payload.length + 16

def encode : Frame → List UInt8
  | polling v => Header.encode kHeaderSize v .polling
  | streamClose v id => Header.encode 12 v .streamClose ++ storeBe32 id
  | fallbackData v seqId status payload =>
    Header.encode (payload.length + 16) v .fallbackData ++ storeBe32 seqId ++ storeBe32 status ++ payload

def Valid : Frame → Prop
  | polling v => v = 2 ∨ v = 3
  | streamClose v id => (v = 2 ∨ v = 3) ∧ id < 2 ^ 32
  | fallbackData v seqId status payload =>
    (v = 2 ∨ v = 3) ∧ seqId < 2 ^ 32 ∧ status < 2 ^ 32 ∧ payload.length + 16 < 2 ^ 32

end Frame

theorem loadBe32_storeBe32 (v : ℕ) (h : v < 2 ^ 32) (rest : List UInt8) : loadBe32 (storeBe32 v ++ rest) = v := by
  simp [loadBe32, storeBe32]
  omega

theorem storeBe32_length (v : ℕ) : (storeBe32 v).length = 4 := rfl

namespace Header

variable {l v : ℕ} {t : EventType} {rest : List UInt8}

theorem encode_length (l v : ℕ) (t : EventType) : (encode l v t).length = 8 := rfl

theorem length_encode (h : l < 2 ^ 32) : length (encode l v t ++ rest) = l := by
  rw [length, encode, List.append_assoc, List.append_assoc, loadBe32_storeBe32 l h]

theorem magic_encode : magic (encode l v t ++ rest) = kMagicNumber := by
  simp [magic, encode, storeBe32, storeBe16, loadBe16, kMagicNumber]

theorem version_encode (h : v < 256) : version (encode l v t ++ rest) = v := by
  simp [version, encode, storeBe32, storeBe16]
  omega

theorem msgType_encode : msgType (encode l v t ++ rest) = some t := by
  cases t <;> rfl

theorem checkEventValid_encode (h0 : v ≠ 0) (h : v < 256) : checkEventValid (encode l v t ++ rest) = .ok () := by
  simp [checkEventValid, magic_encode, version_encode h, msgType_encode, h0]

end Header

theorem Frame.encode_length (f : Frame) : f.encode.length = f.size := by
  cases f with
  | polling v => rfl
  | streamClose v id => rfl
  | fallbackData v seqId status payload =>
    simp only [encode, List.length_append, Header.encode_length, storeBe32_length, size]
    omega

end Shmipc

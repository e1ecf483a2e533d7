import Shmipc.Library.Dialogue
import Shmipc.Layout
import Shmipc.SessionCreate

namespace Shmipc.Handshake

open Dialogue SessionCreate

variable {φ : Type}

abbrev Path := List UInt8

/-- A byte on the socket, with the descriptors that `sendmsg` has attached to it. -/
structure Item (φ : Type) where
  byte : UInt8
  fds : List φ
deriving DecidableEq

inductive Effect (φ : Type)
  | mapQueue (path : Path) (memfd : Option φ)
  | mapBuffer (path : Path) (memfd : Option φ)
  | unmapQueue
deriving DecidableEq

abbrev Conn (φ : Type) := Prog (Item φ) (Effect φ) Error

structure Mapping (φ : Type) where
  path : Path
  memfd : Option φ
deriving DecidableEq

structure Managers (φ : Type) where
  bufferManager : Mapping φ
  queueManager : Mapping φ
deriving DecidableEq

def send (x : Item φ) : Conn φ Unit := .send x .ret

def recv : Conn φ (Item φ) := .recv .ret

def effect (e : Effect φ) : Conn φ Unit := .effect e .ret

-- `read` and `write` may move any part of what is asked for, so both loops go byte by byte
def blockReadFull : ℕ → Conn φ (List UInt8)
  | 0 => pure []
  | n + 1 => do
    let x ← recv
    let data ← blockReadFull n
    return x.byte :: data

def blockWriteFull : List UInt8 → Conn φ Unit
  | [] => pure ()
  | b :: data => do
    send ⟨b, []⟩
    blockWriteFull data

def sendFd (fds : List φ) : Conn φ Unit := send ⟨0, fds⟩

def blockReadOutOfBoundForFd : Conn φ (List φ) := do
  let x ← recv
  if x.fds.isEmpty then throw (.other "parse socket control message ret is nil")
  else return x.fds.take kMemfdCount

def blockReadEventHeader : Conn φ (List UInt8) := do
  let h ← blockReadFull kHeaderSize
  match checkEventValid h with
  | .error err => throw err
  | .ok () => return h

def typeName (h : List UInt8) : String := ((Header.msgType h).map EventType.name).getD ""

def waitEventHeader (expected : EventType) : Conn φ (List UInt8) := do
  let h ← blockReadEventHeader
  if Header.msgType h = some expected then return h
  else throw (.other (snprintf 160 ("expect event_type:" ++ toString expected.toNat ++ " " ++ expected.name ++
    ", but:" ++ typeName h)))

def extractShmMetadata (body : List UInt8) : Path × Path :=
  let queuePathLen := loadBe16 body
  let queuePath := (body.drop 2).take queuePathLen
  let bufferPathLen := loadBe16 (body.drop (2 + queuePathLen))
  let bufferPath := (body.drop (2 + queuePathLen + 2)).take bufferPathLen
  (bufferPath, queuePath)

def generateShmMetadata (eventType : EventType) (bufferPath queuePath : Path) (version : ℕ) : List UInt8 :=
  Header.encode (kHeaderSize + 2 + bufferPath.length + 2 + queuePath.length) version eventType ++
    storeBe16 queuePath.length ++ queuePath ++ storeBe16 bufferPath.length ++ bufferPath

/-- The length of the body, a difference of unsigned numbers of 64 bits. -/
def bodyLen (h : List UInt8) : ℕ := u64 (Header.length h + (18446744073709551616 - kHeaderSize))

structure Client (φ : Type) where
  memMapType : MemMapType
  bufferPath : Path
  queuePath : Path
  bufferFd : φ
  queueFd : φ

namespace Client

variable (c : Client φ)

def getInitializer : Conn φ Version :=
  match c.memMapType with
  | .devShmFile => pure .v2
  | .memFd => do
    blockWriteFull (Header.encode kHeaderSize kMaxSupportProtoVersion .exchangeProtoVersion)
    let h ← try waitEventHeader .exchangeProtoVersion
      catch err => throw (.other ("protrocol_initializer_v3 client_init failed, reason:" ++ err.display))
    match selectVersion (min kMaxSupportProtoVersion (Header.version h)) with
    | .error err => throw err
    | .ok initializer => return initializer

def sendShareMemoryByFilePath (version : ℕ) : Conn φ Unit :=
  blockWriteFull (generateShmMetadata .shareMemoryByFilePath c.bufferPath c.queuePath version)

def sendMemfdToPeer (version : ℕ) : Conn φ Unit := do
  blockWriteFull (generateShmMetadata .shareMemoryByMemfd c.bufferPath c.queuePath version)
  let _ ← waitEventHeader .ackReadyRecvFd
  sendFd [c.bufferFd, c.queueFd]

def init : Version → Conn φ Unit
  | .v2 => c.sendShareMemoryByFilePath 2
  | .v3 => do
    match c.memMapType with
    | .devShmFile => c.sendShareMemoryByFilePath 3
    | .memFd => c.sendMemfdToPeer 3
    let _ ← waitEventHeader .ackShareMemory
    return ()

def initClientProtocol : Conn φ ℕ := do
  let initializer ← c.getInitializer
  c.init initializer
  return initializer.toNat

end Client

namespace Server

-- what the process has under a path before the handshake
variable (registry : Path → Option (Mapping φ))

def mappingWith (path : Path) (memfd : Option φ) : Conn φ (Mapping φ) := do
  effect (.mapQueue path memfd)
  return ⟨path, memfd⟩

def getWith (path : Path) (memfd : Option φ) : Conn φ (Mapping φ) :=
  match registry path with
  | some bm => pure bm
  | none => do
    effect (.mapBuffer path memfd)
    return ⟨path, memfd⟩

def unmap : Conn φ Unit := effect .unmapQueue

def text (path : Path) : String := String.ofList (path.map fun b => Char.ofNat b.toNat)

def handleExchangeVersion : Conn φ Unit :=
  blockWriteFull (Header.encode kHeaderSize kMaxSupportProtoVersion .exchangeProtoVersion)

def handleShareMemoryByFilePath (h : List UInt8) : Conn φ (Managers φ) := do
  let body ← blockReadFull (bodyLen h)
  let paths := extractShmMetadata body
  let qm ← try mappingWith paths.2 none
    catch err => throw (.other (snprintf 512 ("handle_share_memory_by_file_path mappingQueueManager failed,queuePathLen:" ++
      toString paths.2.length ++ " path:" ++ text paths.2 ++ " err=" ++ err.display)))
  let bm ← try getWith registry paths.1 none
    catch err => do
      unmap
      throw (.other (snprintf 512 ("handle_share_memory_by_file_path mapping_buffer_manager failed, buffer_path_len:" ++
        toString paths.1.length ++ " path:" ++ text paths.1 ++ " err=" ++ err.display)))
  return ⟨bm, qm⟩

def handleShareMemoryByMemfd (h : List UInt8) (version : ℕ) : Conn φ (Managers φ) := do
  let body ← try blockReadFull (bodyLen h)
    catch err => throw (.other ("read shm metadata failed, reason:" ++ err.display))
  let paths := extractShmMetadata body
  try blockWriteFull (Header.encode kHeaderSize version .ackReadyRecvFd)
    catch err => throw (.other ("send ack TypeAckReadyRecvFD failed reason:" ++ err.display))
  let fds ← blockReadOutOfBoundForFd
  match fds with
  | bufferFd :: queueFd :: _ => do
    let qm ← mappingWith paths.2 (some queueFd)
    let bm ← try getWith registry paths.1 (some bufferFd)
      catch err => do
        unmap
        throw err
    return ⟨bm, qm⟩
  | _ => throw (.other "the number of memfd received is wrong")

def unexpectedFirst (initializer : String) (expected : EventType) (h : List UInt8) : Error :=
  .other (snprintf 192 (initializer ++ " expect first event is:" ++ toString expected.toNat ++ "(" ++ expected.name ++
    "),but:" ++ typeName h))

def shareMemory (h : List UInt8) : Conn φ (Managers φ) :=
  match Header.msgType h with
  | some .shareMemoryByFilePath => handleShareMemoryByFilePath registry h
  | some .shareMemoryByMemfd => handleShareMemoryByMemfd registry h 3
  | _ => throw (.other (snprintf 220 ("expect event type is TypeShareMemoryByFilePath or TypeShareMemoryByMemfd, but:" ++
      toString (((Header.msgType h).map EventType.toNat).getD 0) ++ "(" ++ typeName h ++ ")")))

def init (firstEvent : List UInt8) : Version → Conn φ (Managers φ)
  | .v2 =>
    if Header.msgType firstEvent = some .shareMemoryByFilePath then handleShareMemoryByFilePath registry firstEvent
    else throw (unexpectedFirst "ProtocolInitializerV2" .shareMemoryByFilePath firstEvent)
  | .v3 =>
    if Header.msgType firstEvent = some .exchangeProtoVersion then do
      try handleExchangeVersion
        catch err => throw (.other ("ProtocolInitializerV3 exchange_version failed, reason:" ++ err.display))
      let h ← try blockReadEventHeader
        catch err => throw (.other ("ProtocolInitializerV3 block_read_event_header failed, reason:" ++ err.display))
      let managers ← shareMemory registry h
      blockWriteFull (Header.encode kHeaderSize 3 .ackShareMemory)
      return managers
    else throw (unexpectedFirst "ProtocolInitializerV3" .exchangeProtoVersion firstEvent)

def initServerProtocol : Conn φ (Managers φ × ℕ) := do
  let firstEvent ← blockReadEventHeader
  match selectVersion (Header.version firstEvent) with
  | .error err => throw err
  | .ok initializer => do
    let managers ← init registry firstEvent initializer
    return (managers, initializer.toNat)

end Server

def sending (data : List UInt8) : List (Dialogue.Event (Item φ) (Effect φ)) := data.map fun b => .sent ⟨b, []⟩

def receiving (data : List UInt8) : List (Dialogue.Event (Item φ) (Effect φ)) := data.map fun b => .received ⟨b, []⟩

theorem send_follows (x : Item φ) : Follows (send x) [.sent x] () := .send (fun err => .ret err) (.ret ())

theorem recv_follows (x : Item φ) : Follows recv [.received x] x := .recv (fun err => .ret err) (.ret x)

theorem effect_follows (e : Effect φ) : Follows (effect e) [.done e] () := .effect (fun err => .ret err) (.ret ())

theorem blockReadFull_follows (data : List UInt8) : Follows (blockReadFull data.length : Conn φ _) (receiving data) data := by
  induction data with
  | nil => exact .ret []
  | cons b data ih =>
    have hrest : Follows (do let rest ← blockReadFull data.length; return b :: rest : Conn φ _) (receiving data ++ []) (b :: data) :=
      ih.bind (.ret _)
    rw [List.append_nil] at hrest
    exact (recv_follows ⟨b, []⟩).bind hrest

theorem blockWriteFull_follows (data : List UInt8) : Follows (blockWriteFull data : Conn φ _) (sending data) () := by
  induction data with
  | nil => exact .ret ()
  | cons b data ih => exact (send_follows ⟨b, []⟩).bind ih

section Header

variable {l v : ℕ} {t : EventType}

theorem blockReadEventHeader_follows (h0 : v ≠ 0) (h : v < 256) :
    Follows (blockReadEventHeader : Conn φ _) (receiving (Header.encode l v t)) (Header.encode l v t) := by
  have hvalid : checkEventValid (Header.encode l v t) = .ok () := by
    have happend := @Header.checkEventValid_encode l v t [] h0 h
    rwa [List.append_nil] at happend
  rw [← List.append_nil (receiving _)]
  refine (blockReadFull_follows (Header.encode l v t)).bind ?_
  rw [hvalid]
  exact .ret _

theorem msgType_encode : Header.msgType (Header.encode l v t) = some t := by
  have happend := @Header.msgType_encode l v t []
  rwa [List.append_nil] at happend

theorem version_encode (h : v < 256) : Header.version (Header.encode l v t) = v := by
  have happend := @Header.version_encode l v t [] h
  rwa [List.append_nil] at happend

theorem waitEventHeader_follows (h0 : v ≠ 0) (h : v < 256) :
    Follows (waitEventHeader t : Conn φ _) (receiving (Header.encode l v t)) (Header.encode l v t) := by
  rw [← List.append_nil (receiving _)]
  refine (blockReadEventHeader_follows h0 h).bind ?_
  rw [if_pos msgType_encode]
  exact .ret _

end Header

section Metadata

variable {bufferPath queuePath : Path}

def metadataBody (bufferPath queuePath : Path) : List UInt8 :=
  storeBe16 queuePath.length ++ (queuePath ++ (storeBe16 bufferPath.length ++ bufferPath))

def metadataLen (bufferPath queuePath : Path) : ℕ := kHeaderSize + 2 + bufferPath.length + 2 + queuePath.length

theorem generateShmMetadata_eq (t : EventType) (v : ℕ) : generateShmMetadata t bufferPath queuePath v =
    Header.encode (metadataLen bufferPath queuePath) v t ++ metadataBody bufferPath queuePath := by
  simp only [generateShmMetadata, metadataBody, metadataLen, List.append_assoc]

theorem loadBe16_storeBe16 {n : ℕ} (h : n < 2 ^ 16) (rest : List UInt8) : loadBe16 (storeBe16 n ++ rest) = n := by
  simp [loadBe16, storeBe16]
  omega

variable (hb : bufferPath.length < 2 ^ 16) (hq : queuePath.length < 2 ^ 16)
include hb hq

theorem extractShmMetadata_body : extractShmMetadata (metadataBody bufferPath queuePath) = (bufferPath, queuePath) := by
  have hqueue : loadBe16 (metadataBody bufferPath queuePath) = queuePath.length := loadBe16_storeBe16 hq _
  have hbehind : (metadataBody bufferPath queuePath).drop 2 = queuePath ++ (storeBe16 bufferPath.length ++ bufferPath) := rfl
  have hrest : (metadataBody bufferPath queuePath).drop (2 + queuePath.length) = storeBe16 bufferPath.length ++ bufferPath := by
    rw [← List.drop_drop, hbehind, List.drop_left]
  have hlast : (metadataBody bufferPath queuePath).drop (2 + queuePath.length + 2) = bufferPath := by
    rw [← List.drop_drop, hrest]
    rfl
  rw [extractShmMetadata]
  simp only [hqueue]
  rw [hrest, hlast, loadBe16_storeBe16 hb, hbehind, List.take_left, List.take_length]

theorem bodyLen_metadata (t : EventType) (v : ℕ) :
    bodyLen (Header.encode (metadataLen bufferPath queuePath) v t) = (metadataBody bufferPath queuePath).length := by
  have hlen : metadataLen bufferPath queuePath = 12 + bufferPath.length + queuePath.length := by
    rw [metadataLen, kHeaderSize]
    omega
  have hlength : Header.length (Header.encode (metadataLen bufferPath queuePath) v t) = metadataLen bufferPath queuePath := by
    have happend := @Header.length_encode (metadataLen bufferPath queuePath) v t [] (by omega)
    rwa [List.append_nil] at happend
  have hbody : (metadataBody bufferPath queuePath).length = 2 + (queuePath.length + (2 + bufferPath.length)) := by
    simp only [metadataBody, List.length_append]
    rfl
  rw [bodyLen, hlength, hlen, hbody, u64, kHeaderSize]
  omega

end Metadata

def exchange : List UInt8 := Header.encode kHeaderSize kMaxSupportProtoVersion .exchangeProtoVersion

def readyRecvFd : List UInt8 := Header.encode kHeaderSize 3 .ackReadyRecvFd

def ackShareMemory : List UInt8 := Header.encode kHeaderSize 3 .ackShareMemory

namespace Client

variable (c : Client φ)

def version : ℕ :=
  match c.memMapType with
  | .devShmFile => 2
  | .memFd => 3

def header : List UInt8 :=
  match c.memMapType with
  | .devShmFile => Header.encode (metadataLen c.bufferPath c.queuePath) 2 .shareMemoryByFilePath
  | .memFd => Header.encode (metadataLen c.bufferPath c.queuePath) 3 .shareMemoryByMemfd

def body : List UInt8 := metadataBody c.bufferPath c.queuePath

def fds : Item φ := ⟨0, [c.bufferFd, c.queueFd]⟩

def managers : Managers φ :=
  match c.memMapType with
  | .devShmFile => ⟨⟨c.bufferPath, none⟩, ⟨c.queuePath, none⟩⟩
  | .memFd => ⟨⟨c.bufferPath, some c.bufferFd⟩, ⟨c.queuePath, some c.queueFd⟩⟩

def maps : List (Dialogue.Event (Item φ) (Effect φ)) :=
  [.done (.mapQueue c.queuePath c.managers.queueManager.memfd), .done (.mapBuffer c.bufferPath c.managers.bufferManager.memfd)]

def script : List (Dialogue.Event (Item φ) (Effect φ)) :=
  match c.memMapType with
  | .devShmFile => sending (c.header ++ c.body)
  | .memFd => sending exchange ++ (receiving exchange ++ (sending (c.header ++ c.body) ++ (receiving readyRecvFd ++
      ([.sent c.fds] ++ receiving ackShareMemory))))

def serverScript : List (Dialogue.Event (Item φ) (Effect φ)) :=
  match c.memMapType with
  | .devShmFile => receiving c.header ++ (receiving c.body ++ c.maps)
  | .memFd => receiving exchange ++ (sending exchange ++ (receiving c.header ++ (receiving c.body ++ (sending readyRecvFd ++
      ([.received c.fds] ++ (c.maps ++ sending ackShareMemory))))))

end Client

theorem throw_stops {α : Type} (err : Error) : Stops (throw err : Conn φ α) := .ret err

theorem unmap_stops {α : Type} (err : Error) : Stops (do Server.unmap; throw err : Conn φ α) :=
  .effect _ fun r => by
    cases r with
    | error err => exact .ret err
    | ok _ => exact .ret err

section Client

variable {c : Client φ}

theorem client_follows_file (h : c.memMapType = .devShmFile) : Follows c.initClientProtocol c.script c.version := by
  have hinit : c.getInitializer = pure .v2 := by
    rw [Client.getInitializer, h]
  have hwrite : Follows (c.init .v2) (sending (c.header ++ c.body)) () := by
    rw [Client.init, Client.sendShareMemoryByFilePath, generateShmMetadata_eq, Client.header, h]
    exact blockWriteFull_follows _
  rw [Client.initClientProtocol, hinit, Client.script, Client.version, h, ← List.append_nil (sending _)]
  exact hwrite.bind (.ret 2)

theorem getInitializer_follows (h : c.memMapType = .memFd) :
    Follows c.getInitializer (sending exchange ++ receiving exchange) .v3 := by
  have hwait : Follows (waitEventHeader .exchangeProtoVersion : Conn φ _) (receiving exchange) exchange :=
    waitEventHeader_follows (by decide) (by decide)
  have hversion : selectVersion (min kMaxSupportProtoVersion (Header.version exchange)) = .ok .v3 := rfl
  rw [Client.getInitializer, h]
  refine (blockWriteFull_follows exchange).bind ?_
  rw [← List.append_nil (receiving exchange)]
  refine (hwait.handle fun err => throw_stops _).bind ?_
  rw [hversion]
  exact .ret _

theorem sendMemfdToPeer_follows (h : c.memMapType = .memFd) :
    Follows (c.sendMemfdToPeer 3) (sending (c.header ++ c.body) ++ (receiving readyRecvFd ++ [.sent c.fds])) () := by
  rw [Client.sendMemfdToPeer, generateShmMetadata_eq, Client.header, h]
  refine (blockWriteFull_follows _).bind ?_
  exact (waitEventHeader_follows (by decide) (by decide)).bind (send_follows _)

theorem client_follows_memfd (h : c.memMapType = .memFd) : Follows c.initClientProtocol c.script c.version := by
  have hack : Follows (do let _ ← waitEventHeader .ackShareMemory; return () : Conn φ Unit) (receiving ackShareMemory ++ []) () :=
    (waitEventHeader_follows (by decide) (by decide)).bind (.ret ())
  have hinit : Follows (c.init .v3) ((sending (c.header ++ c.body) ++ (receiving readyRecvFd ++ [.sent c.fds])) ++
      (receiving ackShareMemory ++ [])) () := by
    rw [Client.init, h]
    exact (sendMemfdToPeer_follows h).bind hack
  have hall : Follows c.initClientProtocol _ 3 := (getInitializer_follows h).bind (hinit.bind (.ret _))
  rw [Client.script, Client.version, h]
  simp only [List.append_assoc, List.append_nil] at hall
  exact hall

theorem client_follows : Follows c.initClientProtocol c.script c.version := by
  cases h : c.memMapType with
  | devShmFile => exact client_follows_file h
  | memFd => exact client_follows_memfd h

end Client

section Server

variable {c : Client φ} {registry : Path → Option (Mapping φ)} {t : EventType} {v : ℕ}
  (hb : c.bufferPath.length < 2 ^ 16) (hq : c.queuePath.length < 2 ^ 16) (hregistry : registry c.bufferPath = none)

theorem mappingWith_follows (path : Path) (memfd : Option φ) :
    Follows (Server.mappingWith path memfd) [.done (.mapQueue path memfd)] ⟨path, memfd⟩ :=
  (effect_follows _).bind (.ret _)

include hregistry

theorem getWith_follows (memfd : Option φ) :
    Follows (Server.getWith registry c.bufferPath memfd) [.done (.mapBuffer c.bufferPath memfd)] ⟨c.bufferPath, memfd⟩ := by
  rw [Server.getWith, hregistry]
  exact (effect_follows _).bind (.ret _)

include hb hq

theorem handleShareMemoryByFilePath_follows (h : c.memMapType = .devShmFile) :
    Follows (Server.handleShareMemoryByFilePath registry (Header.encode (metadataLen c.bufferPath c.queuePath) v t))
      (receiving c.body ++ c.maps) c.managers := by
  rw [Server.handleShareMemoryByFilePath, bodyLen_metadata hb hq, Client.maps, Client.managers, h]
  refine (blockReadFull_follows c.body).bind ?_
  rw [Client.body, extractShmMetadata_body hb hq]
  refine ((mappingWith_follows c.queuePath none).handle fun err => throw_stops _).bind ?_
  exact ((getWith_follows hregistry none).handle fun err => unmap_stops _).bind (.ret _)

theorem handleShareMemoryByMemfd_follows (h : c.memMapType = .memFd) :
    Follows (Server.handleShareMemoryByMemfd registry (Header.encode (metadataLen c.bufferPath c.queuePath) v t) 3)
      (receiving c.body ++ (sending readyRecvFd ++ ([.received c.fds] ++ c.maps))) c.managers := by
  have hfds : Follows (blockReadOutOfBoundForFd : Conn φ _) [.received c.fds] [c.bufferFd, c.queueFd] :=
    (recv_follows c.fds).bind (.ret _)
  rw [Server.handleShareMemoryByMemfd, bodyLen_metadata hb hq, Client.maps, Client.managers, h]
  refine ((blockReadFull_follows c.body).handle fun err => throw_stops _).bind ?_
  rw [Client.body, extractShmMetadata_body hb hq]
  refine ((blockWriteFull_follows readyRecvFd).handle fun err => throw_stops _).bind (hfds.bind ?_)
  refine (mappingWith_follows c.queuePath (some c.queueFd)).bind ?_
  exact ((getWith_follows hregistry (some c.bufferFd)).handle fun err => unmap_stops _).bind (.ret _)

theorem server_follows_file (h : c.memMapType = .devShmFile) :
    Follows (Server.initServerProtocol registry) c.serverScript (c.managers, c.version) := by
  have hheader : c.header = Header.encode (metadataLen c.bufferPath c.queuePath) 2 .shareMemoryByFilePath := by
    rw [Client.header, h]
  have hversion : selectVersion (Header.version c.header) = .ok .v2 := by
    rw [hheader, version_encode (by decide)]
    rfl
  have hinit : Follows (Server.init registry c.header .v2) (receiving c.body ++ c.maps) c.managers := by
    rw [Server.init, hheader, if_pos msgType_encode]
    exact handleShareMemoryByFilePath_follows hb hq hregistry h
  have hread : Follows (blockReadEventHeader : Conn φ _) (receiving c.header) c.header := by
    rw [hheader]
    exact blockReadEventHeader_follows (by decide) (by decide)
  rw [Client.serverScript, Client.version, h]
  refine hread.bind ?_
  rw [hversion, ← List.append_nil (receiving c.body ++ c.maps)]
  exact hinit.bind (.ret _)

theorem server_follows_memfd (h : c.memMapType = .memFd) :
    Follows (Server.initServerProtocol registry) c.serverScript (c.managers, c.version) := by
  have hheader : c.header = Header.encode (metadataLen c.bufferPath c.queuePath) 3 .shareMemoryByMemfd := by
    rw [Client.header, h]
  have hfirst : Follows (blockReadEventHeader : Conn φ _) (receiving exchange) exchange :=
    blockReadEventHeader_follows (by decide) (by decide)
  have hread : Follows (blockReadEventHeader : Conn φ _) (receiving c.header) c.header := by
    rw [hheader]
    exact blockReadEventHeader_follows (by decide) (by decide)
  have hshare : Follows (Server.shareMemory registry c.header)
      (receiving c.body ++ (sending readyRecvFd ++ ([.received c.fds] ++ c.maps))) c.managers := by
    rw [Server.shareMemory, hheader, msgType_encode]
    exact handleShareMemoryByMemfd_follows hb hq hregistry h
  have hinit : Follows (Server.init registry exchange .v3) (sending exchange ++ (receiving c.header ++
      ((receiving c.body ++ (sending readyRecvFd ++ ([.received c.fds] ++ c.maps))) ++ (sending ackShareMemory ++ [])))) c.managers := by
    rw [Server.init, if_pos (show Header.msgType exchange = some .exchangeProtoVersion from rfl)]
    refine ((blockWriteFull_follows exchange).handle fun err => throw_stops _).bind ?_
    refine (hread.handle fun err => throw_stops _).bind (hshare.bind ?_)
    exact (blockWriteFull_follows ackShareMemory).bind (.ret _)
  have hall : Follows (Server.initServerProtocol registry) _ (c.managers, 3) := hfirst.bind (hinit.bind (.ret _))
  rw [Client.serverScript, Client.version, h]
  simp only [List.append_assoc, List.append_nil] at hall
  exact hall

theorem server_follows : Follows (Server.initServerProtocol registry) c.serverScript (c.managers, c.version) := by
  cases h : c.memMapType with
  | devShmFile => exact server_follows_file hb hq hregistry h
  | memFd => exact server_follows_memfd hb hq hregistry h

end Server

section Fit

variable (data : List UInt8) (c : Client φ)

@[simp] theorem sents_sending : sents (sending data : List (Dialogue.Event (Item φ) (Effect φ))) = data.map (⟨·, []⟩) := by
  simp [sents, sending, List.filterMap_map]

@[simp] theorem sents_receiving : sents (receiving data : List (Dialogue.Event (Item φ) (Effect φ))) = [] := by
  simp [sents, receiving]

@[simp] theorem receiveds_sending : receiveds (sending data : List (Dialogue.Event (Item φ) (Effect φ))) = [] := by
  simp [receiveds, sending]

@[simp] theorem receiveds_receiving :
    receiveds (receiving data : List (Dialogue.Event (Item φ) (Effect φ))) = data.map (⟨·, []⟩) := by
  simp [receiveds, receiving, List.filterMap_map]

@[simp] theorem sents_maps : sents c.maps = [] := rfl

@[simp] theorem receiveds_maps : receiveds c.maps = [] := rfl

theorem scripts_fit : receiveds c.script <+: sents c.serverScript ∧ receiveds c.serverScript <+: sents c.script := by
  cases h : c.memMapType <;> simp [Client.script, Client.serverScript, h]

end Fit

theorem client_completed {c : Client φ} {s : Dialogue.State (Item φ) (Effect φ) Error ℕ (Managers φ × ℕ)}
    (h : Agrees c.script c.serverScript c.version (c.managers, c.version) s) (hmap : c.memMapType = .memFd)
    (hret : s.client.prog = .ret (.ok 3)) : ∀ e ∈ c.maps, e ∈ s.server.history := by
  obtain ⟨hhistory, -⟩ := h.client.completed hret
  set before : List (Dialogue.Event (Item φ) (Effect φ)) := receiving exchange ++ (sending exchange ++ (receiving c.header ++
    (receiving c.body ++ (sending readyRecvFd ++ (.received c.fds :: c.maps)))))
  have hsplit : c.serverScript = before ++ .sent ⟨ackShareMemory.head (by decide), []⟩ :: sending ackShareMemory.tail := by
    simp only [Client.serverScript, hmap, before, List.append_assoc, List.cons_append]
    rfl
  have hlength : (sents before).length < (sents s.server.history).length := by
    rw [h.toClient, hhistory]
    simp [before, Client.script, hmap, exchange, readyRecvFd, ackShareMemory, Header.encode_length]
    omega
  intro e he
  have hserver := h.server
  rw [hsplit] at hserver
  refine hserver.mem_of_sents hlength ?_
  simp [before, he]

theorem handshake_agrees {c : Client φ} {registry : Path → Option (Mapping φ)} (hb : c.bufferPath.length < 2 ^ 16)
    (hq : c.queuePath.length < 2 ^ 16) (hregistry : registry c.bufferPath = none)
    {s : Dialogue.State (Item φ) (Effect φ) Error ℕ (Managers φ × ℕ)}
    (hrun : (system c.initClientProtocol (Server.initServerProtocol registry)).Run s) :
    (∀ v managers w, s.client.prog = .ret (.ok v) → s.server.prog = .ret (.ok (managers, w)) → v = w) ∧
    (∀ managers w, s.server.prog = .ret (.ok (managers, w)) →
      managers.bufferManager.path = c.bufferPath ∧ managers.queueManager.path = c.queuePath ∧
      (c.memMapType = .memFd → managers.bufferManager.memfd = some c.bufferFd ∧ managers.queueManager.memfd = some c.queueFd)) ∧
    (s.client.prog = .ret (.ok 3) → c.memMapType = .memFd ∧
      .done (.mapQueue c.queuePath (some c.queueFd)) ∈ s.server.history ∧
      .done (.mapBuffer c.bufferPath (some c.bufferFd)) ∈ s.server.history) := by
  obtain ⟨hclient, hserver⟩ := scripts_fit c
  have hagrees := agrees_of_run hclient hserver client_follows (server_follows hb hq hregistry) hrun
  refine ⟨?_, ?_, ?_⟩
  · intro v managers w hv hw
    have hversion := (hagrees.client.completed hv).2
    have hresult := (hagrees.server.completed hw).2
    rw [← hversion, (Prod.mk.inj hresult).2]
  · intro managers w hw
    have hresult := (hagrees.server.completed hw).2
    rw [← (Prod.mk.inj hresult).1, Client.managers]
    cases c.memMapType with
    | devShmFile => exact ⟨rfl, rfl, nofun⟩
    | memFd => exact ⟨rfl, rfl, fun _ => ⟨rfl, rfl⟩⟩
  · intro hv
    have hversion := (hagrees.client.completed hv).2
    have hmap : c.memMapType = .memFd := by
      cases h : c.memMapType with
      | devShmFile =>
        rw [Client.version, h] at hversion
        cases hversion
      | memFd => rfl
    have hmaps := client_completed hagrees hmap hv
    rw [Client.maps, Client.managers, hmap] at hmaps
    exact ⟨hmap, hmaps _ List.mem_cons_self, hmaps _ (List.mem_cons_of_mem _ List.mem_cons_self)⟩

def memfdClient : Client ℕ := ⟨.memFd, [98], [113], 5, 6⟩

def turns : List (Party × Option Error) :=
  List.replicate 8 (.client, none) ++ List.replicate 16 (.server, none) ++ List.replicate 22 (.client, none) ++
    List.replicate 22 (.server, none) ++ List.replicate 9 (.client, none) ++ List.replicate 11 (.server, none) ++
    List.replicate 8 (.client, none)

theorem handshake_memfd_agrees : ∃ s, (system memfdClient.initClientProtocol (Server.initServerProtocol fun _ => none)).Run s ∧
    s.client.prog = .ret (.ok 3) ∧ s.server.prog = .ret (.ok (⟨⟨[98], some 5⟩, ⟨[113], some 6⟩⟩, 3)) ∧
    .done (.mapQueue [113] (some 6)) ∈ s.server.history ∧ .done (.mapBuffer [98] (some 5)) ∈ s.server.history := by
  set S := system memfdClient.initClientProtocol (Server.initServerProtocol fun _ => none)
  have hrun : (S.runFrom ⟨⟨memfdClient.initClientProtocol, []⟩, ⟨Server.initServerProtocol fun _ => none, []⟩, [], []⟩ turns).map
      (fun s => (s.client.prog, s.server.prog)) = some (.ret (.ok 3), .ret (.ok (⟨⟨[98], some 5⟩, ⟨[113], some 6⟩⟩, 3))) := rfl
  obtain ⟨s, hs, hprogs⟩ := Option.map_eq_some_iff.mp hrun
  rw [Prod.mk.injEq] at hprogs
  have hreached : S.Run s := Transition.System.Reachable.runFrom (fun _ _ _ => trivial) (.initial rfl) hs
  have hmapped := (handshake_agrees (by decide) (by decide) rfl hreached).2.2 hprogs.1
  exact ⟨s, hreached, hprogs.1, hprogs.2, hmapped.2⟩

end Shmipc.Handshake

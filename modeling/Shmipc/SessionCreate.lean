import Shmipc.Event
import Shmipc.Registry

/-!
`Session::create` up to the start of its threads, and what it does to the registry of buffer
managers. What the system calls return (on the socket, and when shared memory is created or mapped)
are the data of an `Attempt`.
-/

namespace Shmipc.SessionCreate

open Registry

variable {ρ : Type}

abbrev Managers (ρ : Type) := String → Entry ρ

def kBufferPathSuffix : String := "_buffer"

def kMemfdCount : ℕ := 2

inductive MemMapType
  | devShmFile
  | memFd
deriving DecidableEq

structure EventHeader where
  version : ℕ
  msgType : EventType

structure Memory (ρ : Type) where
  buffer : Result ρ
  queue : Result Unit

structure ClientConn where
  sendVersion : Result Unit
  serverVersion : Result EventHeader
  sendMetadata : Result Unit
  readyRecvFd : Result EventHeader
  sendFd : Result Unit
  ackShareMemory : Result EventHeader

-- `metadata` holds the path of the buffers and the path of the queues
structure ServerConn where
  firstEvent : Result EventHeader
  sendVersion : Result Unit
  shareMemory : Result EventHeader
  metadata : Result (String × String)
  sendReady : Result Unit
  recvFds : Result ℕ
  sendAck : Result Unit

inductive Side
  | client (pathPrefix : String) (memMapType : MemMapType) (conn : ClientConn)
  | server (conn : ServerConn)

structure Attempt (ρ : Type) where
  verify : Result Unit
  intoSplit : Result Unit
  memory : Memory ρ
  side : Side

def getWith (reg : Managers ρ) (path : String) (src : Result ρ) : Result ℕ × Managers ρ :=
  (((reg path).get src).1, Function.update reg path ((reg path).get src).2)

def initManager (pathPrefix : String) (memory : Memory ρ) (reg : Managers ρ) : Result ℕ × Managers ρ :=
  match getWith reg (pathPrefix ++ kBufferPathSuffix) memory.buffer with
  | (.error err, reg) => (.error (.other ("create share memory buffer manager failed, error=" ++ err.display)), reg)
  | (.ok bm, reg) =>
    match memory.queue with
    | .error err => (.error (.other ("create share memory queue manager failed, error=" ++ err.display)), reg)
    | .ok () => (.ok bm, reg)

def waitEventHeader (expected : EventType) (read : Result EventHeader) : Result EventHeader := do
  let h ← read
  if h.msgType = expected then return h
  else throw (.other (snprintf 160 ("expect event_type:" ++ toString expected.toNat ++ " " ++ expected.name ++
    ", but:" ++ h.msgType.name)))

inductive Version
  | v2
  | v3
deriving DecidableEq

def Version.toNat : Version → ℕ
  | v2 => 2
  | v3 => 3

def selectVersion (version : ℕ) : Result Version :=
  match version with
  | 2 => .ok .v2
  | 3 => .ok .v3
  | v => .error (.other (snprintf 160 ("not support the protocol version:" ++ toString v ++
      ", max_support_version is " ++ toString kMaxSupportProtoVersion)))

namespace ClientConn

def getInitializer (conn : ClientConn) (memMapType : MemMapType) : Result Version :=
  match memMapType with
  | .devShmFile => .ok .v2
  | .memFd => do
    conn.sendVersion
    match waitEventHeader .exchangeProtoVersion conn.serverVersion with
    | .error err => throw (.other ("protrocol_initializer_v3 client_init failed, reason:" ++ err.display))
    | .ok h => selectVersion (min kMaxSupportProtoVersion h.version)

def sendMemfdToPeer (conn : ClientConn) : Result Unit := do
  conn.sendMetadata
  let _ ← waitEventHeader .ackReadyRecvFd conn.readyRecvFd
  conn.sendFd

def init (conn : ClientConn) (memMapType : MemMapType) : Version → Result Unit
  | .v2 => conn.sendMetadata
  | .v3 => do
    match memMapType with
    | .devShmFile => conn.sendMetadata
    | .memFd => conn.sendMemfdToPeer
    let _ ← waitEventHeader .ackShareMemory conn.ackShareMemory
    return ()

def initClientProtocol (conn : ClientConn) (memMapType : MemMapType) : Result ℕ := do
  let initializer ← conn.getInitializer memMapType
  conn.init memMapType initializer
  return initializer.toNat

end ClientConn

namespace ServerConn

def handleShareMemoryByFilePath (conn : ServerConn) (memory : Memory ρ) (reg : Managers ρ) :
    Result ℕ × Managers ρ :=
  match conn.metadata with
  | .error err => (.error err, reg)
  | .ok (bufferPath, queuePath) =>
    match memory.queue with
    | .error err =>
      (.error (.other (snprintf 512 ("handle_share_memory_by_file_path mappingQueueManager failed,queuePathLen:" ++
        toString queuePath.utf8ByteSize ++ " path:" ++ queuePath ++ " err=" ++ err.display))), reg)
    | .ok () =>
      match getWith reg bufferPath memory.buffer with
      | (.error err, reg) =>
        (.error (.other (snprintf 512 ("handle_share_memory_by_file_path mapping_buffer_manager failed, " ++
          "buffer_path_len:" ++ toString bufferPath.utf8ByteSize ++ " path:" ++ bufferPath ++ " err=" ++
          err.display))), reg)
      | (.ok bm, reg) => (.ok bm, reg)

def handleShareMemoryByMemfd (conn : ServerConn) (memory : Memory ρ) (reg : Managers ρ) :
    Result ℕ × Managers ρ :=
  match conn.metadata with
  | .error err => (.error (.other ("read shm metadata failed, reason:" ++ err.display)), reg)
  | .ok (bufferPath, _) =>
    match conn.sendReady with
    | .error err => (.error (.other ("send ack TypeAckReadyRecvFD failed reason:" ++ err.display)), reg)
    | .ok () =>
      match conn.recvFds with
      | .error err => (.error err, reg)
      | .ok fds =>
        if fds < kMemfdCount then (.error (.other "the number of memfd received is wrong"), reg)
        else
          match memory.queue with
          | .error err => (.error err, reg)
          | .ok () => getWith reg bufferPath memory.buffer

def unexpectedFirst (initializer : String) (expected actual : EventType) : Error :=
  .other (snprintf 192 (initializer ++ " expect first event is:" ++ toString expected.toNat ++ "(" ++
    expected.name ++ "),but:" ++ actual.name))

def shareMemoryAndAck (conn : ServerConn) (memory : Memory ρ) (reg : Managers ρ) (h : EventHeader) :
    Result ℕ × Managers ρ :=
  let mapped :=
    match h.msgType with
    | .shareMemoryByFilePath => conn.handleShareMemoryByFilePath memory reg
    | .shareMemoryByMemfd => conn.handleShareMemoryByMemfd memory reg
    | t => (.error (.other (snprintf 220 ("expect event type is TypeShareMemoryByFilePath or " ++
        "TypeShareMemoryByMemfd, but:" ++ toString t.toNat ++ "(" ++ t.name ++ ")"))), reg)
  match mapped with
  | (.error err, reg) => (.error err, reg)
  | (.ok bm, reg) =>
    match conn.sendAck with
    | .error err => (.error err, reg)
    | .ok () => (.ok bm, reg)

def init (conn : ServerConn) (memory : Memory ρ) (reg : Managers ρ) (first : EventHeader) :
    Version → Result ℕ × Managers ρ
  | .v2 =>
    if first.msgType = .shareMemoryByFilePath then conn.handleShareMemoryByFilePath memory reg
    else (.error (unexpectedFirst "ProtocolInitializerV2" .shareMemoryByFilePath first.msgType), reg)
  | .v3 =>
    if first.msgType = .exchangeProtoVersion then
      match conn.sendVersion with
      | .error err =>
        (.error (.other ("ProtocolInitializerV3 exchange_version failed, reason:" ++ err.display)), reg)
      | .ok () =>
        match conn.shareMemory with
        | .error err =>
          (.error (.other ("ProtocolInitializerV3 block_read_event_header failed, reason:" ++ err.display)), reg)
        | .ok h => conn.shareMemoryAndAck memory reg h
    else (.error (unexpectedFirst "ProtocolInitializerV3" .exchangeProtoVersion first.msgType), reg)

def initServerProtocol (conn : ServerConn) (memory : Memory ρ) (reg : Managers ρ) : Result (ℕ × ℕ) × Managers ρ :=
  match conn.firstEvent with
  | .error err => (.error err, reg)
  | .ok first =>
    match selectVersion first.version with
    | .error err => (.error err, reg)
    | .ok initializer =>
      match conn.init memory reg first initializer with
      | (.error err, reg) => (.error err, reg)
      | (.ok bm, reg) => (.ok (bm, initializer.toNat), reg)

end ServerConn

def create (a : Attempt ρ) (reg : Managers ρ) : Result (ℕ × ℕ) × Managers ρ :=
  match a.verify with
  | .error err => (.error (.other ("verify config failed: " ++ err.display)), reg)
  | .ok () =>
    match a.intoSplit with
    | .error err => (.error err, reg)
    | .ok () =>
      match a.side with
      | .client pathPrefix memMapType conn =>
        match initManager pathPrefix a.memory reg with
        | (.error err, reg) =>
          (.error (.other ("create share memory buffer manager failed, error=" ++ err.display)), reg)
        | (.ok bm, reg) =>
          match conn.initClientProtocol memMapType with
          | .error err => (.error err, reg)
          | .ok version => (.ok (bm, version), reg)
      | .server conn => conn.initServerProtocol a.memory reg

def retry (as : List (Attempt ρ)) (reg : Managers ρ) : Managers ρ := as.foldl (fun reg a => (create a reg).2) reg

structure Unchanged (e e' : Entry ρ) : Prop where
  registered : e'.registered = e.registered
  refCount : ∀ m, e.registered = some m → e'.refCount m = e.refCount m
  unmapped : ∀ m, e.next ≤ m → m < e'.next → e'.unmapped m = true

def filePath (conn : ServerConn) (memory : Memory ρ) : Option String :=
  match conn.metadata, memory.queue with
  | .ok (bufferPath, _), .ok () => some bufferPath
  | _, _ => none

def memfdPath (conn : ServerConn) (memory : Memory ρ) : Option String :=
  match conn.sendReady, conn.recvFds with
  | .ok (), .ok fds => if fds < kMemfdCount then none else filePath conn memory
  | _, _ => none

def sharedPath (conn : ServerConn) (memory : Memory ρ) : EventType → Option String
  | .shareMemoryByFilePath => filePath conn memory
  | .shareMemoryByMemfd => memfdPath conn memory
  | _ => none

def serverPath (conn : ServerConn) (memory : Memory ρ) : Option String :=
  match conn.firstEvent with
  | .ok ⟨2, .shareMemoryByFilePath⟩ => filePath conn memory
  | .ok ⟨3, .exchangeProtoVersion⟩ =>
    match conn.sendVersion, conn.shareMemory with
    | .ok (), .ok h => sharedPath conn memory h.msgType
    | _, _ => none
  | _ => none

def managerPath (a : Attempt ρ) : Option String :=
  match a.verify, a.intoSplit, a.side with
  | .ok (), .ok (), .client pathPrefix _ _ => some (pathPrefix ++ kBufferPathSuffix)
  | .ok (), .ok (), .server conn => serverPath conn a.memory
  | _, _, _ => none

/-- The attempt fails before it has a manager: it does not ask for one, or the path has none and
creating or mapping its memory fails. -/
def NoManager (a : Attempt ρ) (reg : Managers ρ) : Prop :=
  ∀ path, managerPath a = some path → (reg path).registered = none ∧ ∃ err, a.memory.buffer = .error err

def FailEarly : List (Attempt ρ) → Managers ρ → Prop
  | [], _ => True
  | a :: as, reg => (∃ err, (create a reg).1 = .error err) ∧ NoManager a reg ∧ FailEarly as (create a reg).2

inductive Acquires {α : Type} (manager : α → ℕ) (src : Result ρ) (reg : Managers ρ) :
    Option String → Result α × Managers ρ → Prop
  | unasked (err : Error) : Acquires manager src reg none (.error err, reg)
  | refused (path : String) (err err' : Error) : ((reg path).get src).1 = .error err' →
      Acquires manager src reg (some path) (.error err, Function.update reg path ((reg path).get src).2)
  | failed (path : String) (err : Error) (m : ℕ) : ((reg path).get src).1 = .ok m →
      Acquires manager src reg (some path) (.error err, Function.update reg path ((reg path).get src).2)
  | succeeded (path : String) (x : α) : ((reg path).get src).1 = .ok (manager x) →
      Acquires manager src reg (some path) (.ok x, Function.update reg path ((reg path).get src).2)

variable {reg : Managers ρ} {memory : Memory ρ} {conn : ServerConn} {path : String} {src : Result ρ}

theorem getWith_error {err : Error} {reg' : Managers ρ} (h : getWith reg path src = (.error err, reg')) :
    ((reg path).get src).1 = .error err ∧ Function.update reg path ((reg path).get src).2 = reg' := by
  simpa only [getWith, Prod.mk.injEq] using h

theorem getWith_ok {m : ℕ} {reg' : Managers ρ} (h : getWith reg path src = (.ok m, reg')) :
    ((reg path).get src).1 = .ok m ∧ Function.update reg path ((reg path).get src).2 = reg' := by
  simpa only [getWith, Prod.mk.injEq] using h

theorem getWith_acquires : Acquires id src reg (some path) (getWith reg path src) := by
  unfold getWith
  cases h : ((reg path).get src).1 with
  | error err => exact .refused path err err h
  | ok m => exact .succeeded path m h

theorem initManager_acquires (pathPrefix : String) :
    Acquires id memory.buffer reg (some (pathPrefix ++ kBufferPathSuffix)) (initManager pathPrefix memory reg) := by
  unfold initManager
  split
  · next err reg' h =>
    obtain ⟨hm, rfl⟩ := getWith_error h
    exact .refused _ _ _ hm
  · next m reg' h =>
    obtain ⟨hm, rfl⟩ := getWith_ok h
    split
    · exact .failed _ _ _ hm
    · exact .succeeded _ _ hm

theorem filePath_acquires :
    Acquires id memory.buffer reg (filePath conn memory) (conn.handleShareMemoryByFilePath memory reg) := by
  unfold filePath ServerConn.handleShareMemoryByFilePath
  cases conn.metadata with
  | error err => exact .unasked _
  | ok paths =>
    cases memory.queue with
    | error err => exact .unasked _
    | ok =>
      dsimp only
      split
      · next err reg' h =>
        obtain ⟨hm, rfl⟩ := getWith_error h
        exact .refused _ _ _ hm
      · next m reg' h =>
        obtain ⟨hm, rfl⟩ := getWith_ok h
        exact .succeeded _ _ hm

theorem memfdPath_acquires :
    Acquires id memory.buffer reg (memfdPath conn memory) (conn.handleShareMemoryByMemfd memory reg) := by
  unfold memfdPath filePath ServerConn.handleShareMemoryByMemfd
  cases conn.metadata with
  | error err =>
    have hnone : ∀ c : Prop, [Decidable c] → (if c then none else none : Option String) = none := by simp
    cases conn.sendReady <;> cases conn.recvFds <;> simp only [hnone] <;> exact .unasked _
  | ok paths =>
    cases conn.sendReady with
    | error err => exact .unasked _
    | ok =>
      cases conn.recvFds with
      | error err => exact .unasked _
      | ok fds =>
        dsimp only
        split
        · exact .unasked _
        · cases memory.queue with
          | error err => exact .unasked _
          | ok => exact getWith_acquires

-- what follows a part that has given a manager can only turn its success into a failure
theorem Acquires.andThen {α β : Type} {f : α → ℕ} {g : β → ℕ} {asked : Option String} {out : Result α × Managers ρ}
    {out' : Result β × Managers ρ} (h : Acquires f src reg asked out)
    (herr : ∀ err, out.1 = .error err → ∃ err', out' = (.error err', out.2))
    (hok : ∀ x, out.1 = .ok x → (∃ err, out' = (.error err, out.2)) ∨ ∃ y, g y = f x ∧ out' = (.ok y, out.2)) :
    Acquires g src reg asked out' := by
  cases h with
  | unasked err =>
    obtain ⟨err', rfl⟩ := herr err rfl
    exact .unasked err'
  | refused path err err' hm =>
    obtain ⟨err'', rfl⟩ := herr err rfl
    exact .refused path _ _ hm
  | failed path err m hm =>
    obtain ⟨err', rfl⟩ := herr err rfl
    exact .failed path _ m hm
  | succeeded path x hm =>
    obtain ⟨err, rfl⟩ | ⟨y, hy, rfl⟩ := hok x rfl
    · exact .failed path err _ hm
    · exact .succeeded path y (hy ▸ hm)

theorem sharedPath_acquires (h : EventHeader) :
    Acquires id memory.buffer reg (sharedPath conn memory h.msgType) (conn.shareMemoryAndAck memory reg h) := by
  obtain ⟨version, msgType⟩ := h
  have mapped : ∀ {asked out}, Acquires id memory.buffer reg asked out →
      Acquires id memory.buffer reg asked (match (out : Result ℕ × Managers ρ) with
        | (.error err, reg) => (.error err, reg)
        | (.ok bm, reg) =>
          match conn.sendAck with
          | .error err => (.error err, reg)
          | .ok () => (.ok bm, reg)) := by
    rintro asked ⟨r, reg'⟩ h
    refine h.andThen ?_ ?_
    · rintro err rfl
      exact ⟨err, rfl⟩
    · rintro bm rfl
      cases conn.sendAck with
      | error err => exact .inl ⟨err, rfl⟩
      | ok => exact .inr ⟨bm, rfl, rfl⟩
  cases msgType with
  | shareMemoryByFilePath => exact mapped filePath_acquires
  | shareMemoryByMemfd => exact mapped memfdPath_acquires
  | _ => exact mapped (.unasked _)

theorem init_acquires (first : EventHeader) (v : Version) (hf : conn.firstEvent = .ok first)
    (hv : selectVersion first.version = .ok v) :
    Acquires id memory.buffer reg (serverPath conn memory) (conn.init memory reg first v) := by
  obtain ⟨version, msgType⟩ := first
  unfold selectVersion at hv
  split at hv
  · next hversion =>
    cases hv
    simp only at hversion
    subst hversion
    simp only [serverPath, hf, ServerConn.init]
    by_cases ht : msgType = .shareMemoryByFilePath
    · subst ht
      exact filePath_acquires
    · rw [if_neg ht]
      cases msgType <;> first | exact absurd rfl ht | exact .unasked _
  · next hversion =>
    cases hv
    simp only at hversion
    subst hversion
    simp only [serverPath, hf, ServerConn.init]
    by_cases ht : msgType = .exchangeProtoVersion
    · subst ht
      cases conn.sendVersion with
      | error err => exact .unasked _
      | ok =>
        cases conn.shareMemory with
        | error err => exact .unasked _
        | ok h => exact sharedPath_acquires h
    · rw [if_neg ht]
      cases msgType <;> first | exact absurd rfl ht | exact .unasked _
  · cases hv

theorem serverPath_eq_none {first : EventHeader} {err : Error} (hf : conn.firstEvent = .ok first)
    (hv : selectVersion first.version = .error err) : serverPath conn memory = none := by
  unfold serverPath
  rw [hf]
  split
  · next h =>
    cases h
    cases hv
  · next h =>
    cases h
    cases hv
  · rfl

theorem initServerProtocol_acquires :
    Acquires Prod.fst memory.buffer reg (serverPath conn memory) (conn.initServerProtocol memory reg) := by
  unfold ServerConn.initServerProtocol
  cases hf : conn.firstEvent with
  | error err =>
    simp only [serverPath, hf]
    exact .unasked _
  | ok first =>
    dsimp only
    cases hv : selectVersion first.version with
    | error err =>
      rw [serverPath_eq_none hf hv]
      exact .unasked _
    | ok v =>
      refine (init_acquires first v hf hv).andThen ?_ ?_
      · intro err herr
        dsimp only
        split
        · next err' reg' h => exact ⟨err', by rw [h]⟩
        · next h => simp [h] at herr
      · intro bm hbm
        dsimp only
        split
        · next h => simp [h] at hbm
        · next bm' reg' h =>
          rw [h] at hbm ⊢
          cases hbm
          exact .inr ⟨(bm, v.toNat), rfl, rfl⟩

theorem create_acquires (a : Attempt ρ) (reg : Managers ρ) :
    Acquires Prod.fst a.memory.buffer reg (managerPath a) (create a reg) := by
  obtain ⟨verify, intoSplit, memory, side⟩ := a
  unfold create managerPath
  cases verify with
  | error err => exact .unasked _
  | ok =>
    cases intoSplit with
    | error err => exact .unasked _
    | ok =>
      cases side with
      | server conn => exact initServerProtocol_acquires
      | client pathPrefix memMapType conn =>
        refine (initManager_acquires pathPrefix).andThen ?_ ?_
        · intro err herr
          dsimp only
          split
          · next h => exact ⟨_, by rw [h]⟩
          · next h => simp [h] at herr
        · intro bm hbm
          dsimp only
          split
          · next h => simp [h] at hbm
          · next bm' reg' h =>
            rw [h] at hbm ⊢
            cases hbm
            cases conn.initClientProtocol memMapType with
            | error err => exact .inl ⟨err, rfl⟩
            | ok version => exact .inr ⟨(bm, version), rfl, rfl⟩

theorem get_error {e : Entry ρ} {err : Error} (h : (e.get src).1 = .error err) :
    e.registered = none ∧ src = .error err ∧ (e.get src).2 = e := by
  unfold Entry.get at h ⊢
  cases hr : e.registered with
  | some m => simp [hr] at h
  | none =>
    cases src with
    | error err' => simpa [hr] using h
    | ok r => simp [hr] at h

theorem wrap32_succ_ne (c : ℤ) : wrap32 (c + 1) ≠ c := by
  intro h
  have hmod : (wrap32 (c + 1)) % 2 ^ 32 = (c + 1) % 2 ^ 32 := Int.bmod_emod
  rw [h] at hmod
  omega

theorem get_ok_changed {e : Entry ρ} {m : ℕ} (h : (e.get src).1 = .ok m) : ¬ Unchanged e (e.get src).2 := by
  intro hu
  unfold Entry.get at h hu
  cases hr : e.registered with
  | some k =>
    have hc := hu.refCount k hr
    simp only [hr, Entry.addRef, Function.update_self] at hc
    exact wrap32_succ_ne _ hc
  | none =>
    cases src with
    | error err => simp [hr] at h
    | ok r =>
      have hc := hu.registered
      simp [hr, Entry.emplace] at hc

theorem get_ok_new {e : Entry ρ} {m : ℕ} (hr : e.registered = none) (h : (e.get src).1 = .ok m) :
    (e.get src).2.registered = some m ∧ (e.get src).2.refCount m = 1 := by
  unfold Entry.get at h ⊢
  cases src with
  | error err => simp [hr] at h
  | ok r =>
    simp only [hr, Except.ok.injEq] at h ⊢
    subst h
    simp [Entry.emplace, Entry.create, hr]

theorem Unchanged.refl (e : Entry ρ) : Unchanged e e where
  registered := rfl
  refCount _ _ := rfl
  unmapped m h h' := absurd h' (by omega)

theorem create_noManager {a : Attempt ρ} {err : Error} (h : (create a reg).1 = .error err) (hn : NoManager a reg) :
    (create a reg).2 = reg := by
  have hacq := create_acquires a reg
  revert hacq h
  cases hp : managerPath a with
  | none =>
    generalize create a reg = out
    intro h hacq
    cases hacq
    rfl
  | some path =>
    obtain ⟨hr, err', hsrc⟩ := hn path hp
    have hget : (reg path).get a.memory.buffer = (.error err', reg path) := by simp [Entry.get, hr, hsrc]
    generalize create a reg = out
    intro h hacq
    cases hacq with
    | refused => rw [hget, Function.update_eq_self]
    | failed => rw [hget, Function.update_eq_self]
    | succeeded => cases h

theorem create_unchanged_iff {a : Attempt ρ} {err : Error} (h : (create a reg).1 = .error err) :
    (∀ path, Unchanged (reg path) ((create a reg).2 path)) ↔ NoManager a reg := by
  constructor
  · intro hu path hp
    have hacq := create_acquires a reg
    rw [hp] at hacq
    have hpath := hu path
    revert hacq hpath h
    generalize create a reg = out
    intro h hacq hpath
    cases hacq with
    | refused path err err' hm =>
      obtain ⟨hr, hsrc, _⟩ := get_error hm
      exact ⟨hr, err', hsrc⟩
    | failed path err m hm =>
      simp only [Function.update_self] at hpath
      exact absurd hpath (get_ok_changed hm)
    | succeeded => cases h
  · intro hn path
    rw [create_noManager h hn]
    exact .refl _

theorem retry_failEarly (as : List (Attempt ρ)) (reg : Managers ρ) (h : FailEarly as reg) : retry as reg = reg := by
  induction as with
  | nil => rfl
  | cons a as ih =>
    obtain ⟨⟨err, herr⟩, hn, has⟩ := h
    have hreg := create_noManager herr hn
    rw [hreg] at has
    rw [retry, List.foldl_cons, hreg]
    exact ih has

theorem failed_create_unchanged (reg : Managers ρ) :
    (∀ a err, (create a reg).1 = .error err →
      ((∀ path, Unchanged (reg path) ((create a reg).2 path)) ↔ NoManager a reg)) ∧
    ∀ as a path session, FailEarly as reg → managerPath a = some path → (reg path).registered = none →
      (create a (retry as reg)).1 = .ok session →
      ((create a (retry as reg)).2 path).registered = some session.1 ∧
        ((create a (retry as reg)).2 path).refCount session.1 = 1 := by
  constructor
  · intro a err h
    exact create_unchanged_iff h
  · intro as a path session has hp hr hok
    rw [retry_failEarly as reg has] at hok ⊢
    have hacq := create_acquires a reg
    rw [hp] at hacq
    revert hacq hok
    generalize create a reg = out
    intro hok hacq
    cases hacq with
    | refused => cases hok
    | failed => cases hok
    | succeeded path x hm =>
      cases hok
      simp only [Function.update_self]
      exact get_ok_new hr hm

-- the error of `block_read_full` for a failed `read`
def readFullFailed (readSize : ℕ) (reason : String) : Error :=
  .io (snprintf 128 ("read_full failed, had read_size:" ++ toString readSize ++ ", reason:" ++ reason))

-- the server resets the connection instead of answering the version
def brokenConn : ClientConn where
  sendVersion := .ok ()
  serverVersion := .error (readFullFailed 0 "Connection reset by peer")
  sendMetadata := .error (.io "Broken pipe")
  readyRecvFd := .error (readFullFailed 0 "Connection reset by peer")
  sendFd := .error (.io "Broken pipe")
  ackShareMemory := .error (readFullFailed 0 "Connection reset by peer")

def goodConn : ClientConn where
  sendVersion := .ok ()
  serverVersion := .ok ⟨3, .exchangeProtoVersion⟩
  sendMetadata := .ok ()
  readyRecvFd := .ok ⟨3, .ackReadyRecvFd⟩
  sendFd := .ok ()
  ackShareMemory := .ok ⟨3, .ackShareMemory⟩

def attempt (buffer : Result ℕ) (conn : ClientConn) : Attempt ℕ where
  verify := .ok ()
  intoSplit := .ok ()
  memory := ⟨buffer, .ok ()⟩
  side := .client "/dev/shm/p" .memFd conn

theorem failed_create_unchanged_retry :
    let early := attempt (.error (.other "BufferManager get_with_memfd memfd_create failed: Too many open files")) goodConn
    let reg := retry [early, early] fun _ => .empty
    ((create (attempt (.ok 7) goodConn) reg).2 ("/dev/shm/p" ++ kBufferPathSuffix)).refCount 0 = 1 := by
  intro early reg
  have hn : NoManager early fun _ => .empty := by
    intro path _
    exact ⟨rfl, _, rfl⟩
  have hfail : FailEarly [early, early] fun _ => .empty := by
    refine ⟨⟨_, rfl⟩, hn, ?_⟩
    rw [create_noManager rfl hn]
    exact ⟨⟨_, rfl⟩, hn, trivial⟩
  exact ((failed_create_unchanged fun _ => .empty).2 [early, early] (attempt (.ok 7) goodConn) _ (0, 3) hfail rfl rfl
    rfl).2

theorem failed_create_counted :
    let late := attempt (.ok 7) brokenConn
    let reg := retry [late, late] fun _ => .empty
    (create late fun _ => .empty).1 = .error (.other ("protrocol_initializer_v3 client_init failed, reason:" ++
        "read_full failed, had read_size:0, reason:Connection reset by peer")) ∧
      ((create late fun _ => .empty).2 ("/dev/shm/p" ++ kBufferPathSuffix)).registered = some 0 ∧
      ((create (attempt (.ok 8) goodConn) reg).2 ("/dev/shm/p" ++ kBufferPathSuffix)).refCount 0 = 3 := by
  intro late reg
  have htext : (readFullFailed 0 "Connection reset by peer").display =
      "read_full failed, had read_size:0, reason:Connection reset by peer" := by
    decide +kernel
  rw [← htext]
  exact ⟨rfl, rfl, rfl⟩

end Shmipc.SessionCreate

import Shmipc.Queue
import Shmipc.Library.MemoryAccess
import Shmipc.Library.Transition

/-!
The two rings of a session in the bytes that both processes map. A thread takes one load or store at
a time; `put` and `got` are the elements published and taken so far, `atHead` how many were in the
ring when a put last read the head.
-/

namespace Shmipc.SharedQueue

open ByteMemory Transition

def kQueueHeaderLength : ℕ := 24

def kQueueElementLen : ℕ := 12

def kQueueCount : ℕ := 2

inductive Arch
  | x86
  | aarch64
deriving DecidableEq

def Arch.workingFlag : Arch → ℕ
  | x86 => 20
  | aarch64 => 4

def Arch.head : Arch → ℕ
  | x86 => 4
  | aarch64 => 8

def Arch.tail : Arch → ℕ
  | x86 => 12
  | aarch64 => 16

structure View where
  data : ℕ
  cap : ℤ
deriving DecidableEq

def countQueueMemSize (cap : ℕ) : ℕ := kQueueHeaderLength + kQueueElementLen * cap

def mappingFromBytes (m : Mem) (data : ℕ) : View := ⟨data, load32 m data⟩

def createFromBytes (arch : Arch) (m : Mem) (data cap : ℕ) : Mem × View :=
  let m := store32 m data cap
  let q := mappingFromBytes m data
  let m := storeI64 m (data + arch.head) 0
  let m := storeI64 m (data + arch.tail) 0
  (store32 m (data + arch.workingFlag) 0, q)

structure QueueManager where
  sendQueue : View
  recvQueue : View
deriving DecidableEq

def memset (m : Mem) (size : ℕ) : Mem := ⟨fun x => if x < size then 0 else m x⟩

def create (arch : Arch) (m : Mem) (cap : ℕ) : Mem × QueueManager :=
  let memSize := countQueueMemSize cap * kQueueCount
  let send := createFromBytes arch (memset m memSize) 0 cap
  let recv := createFromBytes arch send.1 (memSize / 2) cap
  (recv.1, ⟨send.2, recv.2⟩)

def mapping (arch : Arch) (m : Mem) (mappingSize : ℕ) : Result QueueManager :=
  if arch = .aarch64 ∧ mappingSize % 16 ≠ 0 then
    .error (.other "the memory size of queue should be a multiple of 16")
  else .ok ⟨mappingFromBytes m (mappingSize / 2), mappingFromBytes m 0⟩

def queueOffset (counter cap : ℤ) : ℕ := (counter.tmod cap * kQueueElementLen).toNat

-- the two operands of a comparison are loaded in an order that the language leaves open
inductive Put
  | idle
  | compare (tailFirst : Bool) (e : QueueElement)
  | compared (tailFirst : Bool) (e : QueueElement) (v : ℤ)
  | offset (e : QueueElement)
  | seqId (e : QueueElement) (off : ℕ)
  | shmOffset (e : QueueElement) (off : ℕ)
  | status (e : QueueElement) (off : ℕ)
  | loadTail (e : QueueElement)
  | storeTail (e : QueueElement) (tail : ℤ)
  | returned (r : Result Unit)
deriving DecidableEq

inductive Pop
  | idle
  | compare (headFirst : Bool)
  | compared (headFirst : Bool) (v : ℤ)
  | offset
  | seqId (off : ℕ)
  | shmOffset (off seqId : ℕ)
  | status (off seqId shmOffset : ℕ)
  | loadHead (e : QueueElement)
  | storeHead (e : QueueElement) (head : ℤ)
  | returned (r : Result QueueElement)
deriving DecidableEq

variable {ι : Type} {arch : Arch}

def Put.decide (q : View) (e : QueueElement) (tail head : ℤ) : Put :=
  if tail - head ≥ q.cap then .returned (.error (.ofKind .queueFull)) else .offset e

def Put.access (arch : Arch) (q : View) : Put → Option (Access Put)
  | .idle => none
  | .compare true e => some (.load64 (q.data + arch.tail) (.compared true e))
  | .compare false e => some (.load64 (q.data + arch.head) (.compared false e))
  | .compared true e tail => some (.load64 (q.data + arch.head) fun head => decide q e tail head)
  | .compared false e head => some (.load64 (q.data + arch.tail) fun tail => decide q e tail head)
  | .offset e => some (.load64 (q.data + arch.tail) fun tail => .seqId e (queueOffset tail q.cap))
  | .seqId e off => some (.store32 (q.data + kQueueHeaderLength + off) e.seqId (.shmOffset e off))
  | .shmOffset e off => some (.store32 (q.data + kQueueHeaderLength + (off + 4)) e.offsetInShmBuf (.status e off))
  | .status e off => some (.store32 (q.data + kQueueHeaderLength + (off + 8)) e.status (.loadTail e))
  | .loadTail e => some (.load64 (q.data + arch.tail) (.storeTail e))
  | .storeTail _ tail => some (.store64 (q.data + arch.tail) (tail + 1) (.returned (.ok ())))
  | .returned _ => none

def Pop.decide (head tail : ℤ) : Pop :=
  if head ≥ tail then .returned (.error (.ofKind .queueEmpty)) else .offset

def Pop.access (arch : Arch) (q : View) : Pop → Option (Access Pop)
  | .idle => none
  | .compare true => some (.load64 (q.data + arch.head) (.compared true))
  | .compare false => some (.load64 (q.data + arch.tail) (.compared false))
  | .compared true head => some (.load64 (q.data + arch.tail) fun tail => decide head tail)
  | .compared false tail => some (.load64 (q.data + arch.head) fun head => decide head tail)
  | .offset => some (.load64 (q.data + arch.head) fun head => .seqId (queueOffset head q.cap))
  | .seqId off => some (.load32 (q.data + kQueueHeaderLength + off) (.shmOffset off))
  | .shmOffset off x => some (.load32 (q.data + kQueueHeaderLength + (off + 4)) (.status off x))
  | .status off x y => some (.load32 (q.data + kQueueHeaderLength + (off + 8)) fun z => .loadHead ⟨x, y, z⟩)
  | .loadHead e => some (.load64 (q.data + arch.head) (.storeHead e))
  | .storeHead e head => some (.store64 (q.data + arch.head) (head + 1) (.returned (.ok e)))
  | .returned _ => none

def Put.readsHead : Put → Bool
  | .compare false _ | .compared true _ _ => true
  | _ => false

def Put.publishes : Put → List QueueElement
  | .storeTail e _ => [e]
  | _ => []

def Pop.takes : Pop → List QueueElement
  | .storeHead e _ => [e]
  | _ => []

structure Direction (ι : Type) where
  sendQueue : View
  recvQueue : View
  lock : Option ι
  producer : ι → Put
  consumer : Pop
  put : List QueueElement
  got : List QueueElement
  atHead : ℕ

def Direction.start (sendQueue recvQueue : View) : Direction ι where
  sendQueue := sendQueue
  recvQueue := recvQueue
  lock := none
  producer _ := .idle
  consumer := .idle
  put := []
  got := []
  atHead := 0

inductive Way
  | there
  | back
deriving DecidableEq

structure State (ι : Type) where
  mem : Mem
  dir : Way → Direction ι

inductive Act (ι : Type)
  | put (i : ι) (tailFirst : Bool) (e : QueueElement)
  | producer (i : ι)
  | pop (headFirst : Bool)
  | consumer

def Fits (e : QueueElement) : Prop := e.seqId < 2 ^ 32 ∧ e.offsetInShmBuf < 2 ^ 32 ∧ e.status < 2 ^ 32

instance (e : QueueElement) : Decidable (Fits e) := inferInstanceAs (Decidable (_ ∧ _))

namespace Direction

variable [DecidableEq ι]

def produce (d : Direction ι) (i : ι) (next : Put) : Direction ι :=
  { d with
    producer := Function.update d.producer i next
    put := d.put ++ (d.producer i).publishes
    atHead := if (d.producer i).readsHead then d.put.length - d.got.length else d.atHead }

def consume (d : Direction ι) (next : Pop) : Direction ι :=
  { d with consumer := next, got := d.got ++ d.consumer.takes }

def step (arch : Arch) (m : Mem) (d : Direction ι) : Act ι → Option (Mem × Direction ι)
  | .put i tailFirst e =>
    match d.lock, d.producer i with
    | none, .idle =>
      if Fits e then
        some (m, { d with lock := some i, producer := Function.update d.producer i (.compare tailFirst e) })
      else none
    | _, _ => none
  | .producer i =>
    match d.producer i, (d.producer i).access arch d.sendQueue with
    | .returned _, _ => some (m, { d with lock := none, producer := Function.update d.producer i .idle })
    | _, some x => some ((x.exec m).1, d.produce i (x.exec m).2)
    | _, none => none
  | .pop headFirst =>
    match d.consumer with
    | .idle => some (m, { d with consumer := .compare headFirst })
    | _ => none
  | .consumer =>
    match d.consumer, d.consumer.access arch d.recvQueue with
    | .returned _, _ => some (m, { d with consumer := .idle })
    | _, some x => some ((x.exec m).1, d.consume (x.exec m).2)
    | _, none => none

end Direction

def Starts (arch : Arch) (cap : ℕ) (s : State ι) : Prop :=
  ∃ m peer, mapping arch (create arch m cap).1 (countQueueMemSize cap * kQueueCount) = .ok peer ∧
    s = ⟨(create arch m cap).1, fun
      | .there => .start (create arch m cap).2.sendQueue peer.recvQueue
      | .back => .start peer.sendQueue (create arch m cap).2.recvQueue⟩

def system (arch : Arch) (cap : ℕ) (ι : Type) [DecidableEq ι] : System (State ι) (Way × Act ι) where
  initial := Starts arch cap
  step s a := ((s.dir a.1).step arch s.mem a.2).map fun r => ⟨r.1, Function.update s.dir a.1 r.2⟩

def Small (s : State ι) (_ : Way × Act ι) : Prop := ∀ w, (s.dir w).put.length + 1 < 2 ^ 63

instance (s : State ι) (a : Way × Act ι) : Decidable (Small s a) :=
  decidable_of_iff ((s.dir .there).put.length + 1 < 2 ^ 63 ∧ (s.dir .back).put.length + 1 < 2 ^ 63)
    ⟨fun h w => Way.casesOn w h.1 h.2, fun h => ⟨h .there, h .back⟩⟩

def base (cap : ℕ) : Way → ℕ
  | .there => 0
  | .back => countQueueMemSize cap

end Shmipc.SharedQueue

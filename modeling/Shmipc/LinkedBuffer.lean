import Shmipc.BufferManager

/-!
`LinkedBuffer` and the `SliceList` it keeps. A node of a slice list has an identity of its own: the
write cursor is a raw pointer to a node, and a step that follows a pointer to a node that is gone
has no result.
-/

namespace Shmipc

open ByteMemory

def kDefaultSingleBufferSize : ℕ := 4096

structure Node where
  id : ℕ
  slice : BufferSlice
deriving DecidableEq

inductive Buf
  | shm (id : ℕ) (data : Storage) (offset len : ℕ)
  | exm (bytes : List UInt8)
deriving DecidableEq

def Buf.load (m : Mem) : Buf → List UInt8
  | .shm _ data offset len => data.load m offset len
  | .exm bytes => bytes

structure LinkedBuffer where
  sliceList : List Node
  write : Option ℕ
  pinnedList : List Node
  currentPinned : Bool
  isFromShm : Bool
  len : ℕ
  nextId : ℕ
deriving DecidableEq

namespace LinkedBuffer

def empty : LinkedBuffer where
  sliceList := []
  write := none
  pinnedList := []
  currentPinned := false
  isFromShm := true
  len := 0
  nextId := 0

def pushBack (b : LinkedBuffer) (slice : BufferSlice) : LinkedBuffer :=
  { b with sliceList := b.sliceList ++ [⟨b.nextId, slice⟩], nextId := b.nextId + 1 }

def front (b : LinkedBuffer) : Option ℕ := b.sliceList.head?.map Node.id

def back (b : LinkedBuffer) : Option ℕ := b.sliceList.getLast?.map Node.id

def nodeAt (b : LinkedBuffer) (id : ℕ) : Option Node := b.sliceList.find? (fun n => n.id = id)

def nextOf (b : LinkedBuffer) (id : ℕ) : List Node := (b.sliceList.dropWhile (fun n => n.id ≠ id)).tail

def setSlice (b : LinkedBuffer) (id : ℕ) (slice : BufferSlice) : LinkedBuffer :=
  { b with sliceList := b.sliceList.map (fun n => if n.id = id then ⟨id, slice⟩ else n) }

def heapSlice (b : LinkedBuffer) (size : ℕ) : LinkedBuffer :=
  { b.pushBack (.fromHeap (List.replicate (max size kDefaultSingleBufferSize) 0)) with isFromShm := false }

variable (bm : BufferManager)

/-- The part of `alloc` behind `alloc_shm_buffers`. -/
def allocRest (b : LinkedBuffer) (size : ℕ) : Mem × ℤ × List BufferSlice → Mem × LinkedBuffer
  | (m, allocSize, slices) =>
    let b := slices.foldl pushBack b
    let remain := (size : ℤ) - allocSize
    (m, if remain > 0 then b.heapSlice remain.toNat else b)

def allocFrom (b : LinkedBuffer) (size : ℕ) : Mem × Result BufferSlice → Mem × LinkedBuffer
  | (m, .ok buf) => (m, b.pushBack buf)
  | (m, .error _) => allocRest b size (bm.allocShmBuffers m size)

def alloc (m : Mem) (b : LinkedBuffer) (size : ℕ) : Mem × LinkedBuffer :=
  allocFrom bm b size (bm.allocShmBuffer m size)

def setWrite (write : LinkedBuffer → Option ℕ) (r : Mem × LinkedBuffer) : Mem × LinkedBuffer :=
  (r.1, { r.2 with write := write r.2 })

/-- The first lines of `reserve` and `write_bytes`: without a write cursor, allocate and start at
the front. -/
def openWrite (m : Mem) (b : LinkedBuffer) (size : ℕ) : Mem × LinkedBuffer :=
  if b.write = none then setWrite front (alloc bm m b (u32 size)) else (m, b)

def writeRound (m : Mem) (b : LinkedBuffer) (bytes : List UInt8) : Option (ℕ × Mem × LinkedBuffer) :=
  b.write.bind fun id => (b.nodeAt id).map fun node =>
    let (m, slice, n) := node.slice.append m bytes
    let b := b.setSlice id slice
    if n < bytes.length then
      (n, setWrite (fun b => (b.nextOf id).head?.map Node.id)
        (if b.nextOf id = [] then alloc bm m b (u32 (bytes.length - n)) else (m, b)))
    else (n, m, b)

def writeLoop : ℕ → Mem → LinkedBuffer → List UInt8 → Option (Mem × LinkedBuffer)
  | 0, _, _, _ => none
  | fuel + 1, m, b, bytes =>
    (writeRound bm m b bytes).bind fun r =>
      if r.1 < bytes.length then writeLoop fuel r.2.1 r.2.2 (bytes.drop r.1) else some r.2

/-- Every round but the first writes a byte, so one round more than there are bytes is enough. -/
def writeBytes (m : Mem) (b : LinkedBuffer) (bytes : List UInt8) : Option (Mem × LinkedBuffer) :=
  if bytes.isEmpty then some (m, b)
  else
    let (m, b) := openWrite bm m b bytes.length
    (writeLoop bm (bytes.length + 1) m b bytes).map fun r =>
      (r.1, { r.2 with len := r.2.len + bytes.length })

/-- The third case of `reserve`, behind `alloc_shm_buffer`. -/
def reserveNew (b : LinkedBuffer) (size : ℕ) : Mem × Result BufferSlice → Mem × LinkedBuffer
  | (m, .ok buf) => setWrite back (m, b.pushBack buf)
  | (m, .error _) => setWrite back (m, b.heapSlice size)

/-- The span handed out is named by its node and its offset in the storage of the slice. -/
def reserveAt (m : Mem) (b : LinkedBuffer) (node : Node) (size : ℕ) :
    Option (Mem × LinkedBuffer × Result (ℕ × ℕ)) :=
  match node.slice.reserve size with
  | .ok (pos, slice) =>
    some (m, { b.setSlice node.id slice with write := some node.id, len := b.len + size }, .ok (node.id, pos))
  | .error _ => none

def reserve (m : Mem) (b : LinkedBuffer) (size : ℕ) : Option (Mem × LinkedBuffer × Result (ℕ × ℕ)) :=
  let (m, b) := openWrite bm m b size
  b.write.bind fun id => (b.nodeAt id).bind fun node =>
    (reserveAt m b node size).or <|
    ((b.nextOf id).head?.bind fun next => reserveAt m b next size).or <|
    let (m, b) := reserveNew b size (bm.allocShmBuffer m (u32 size))
    b.write.bind fun id => (b.nodeAt id).bind fun node =>
      (reserveAt m b node size).or
        (some (m, { b with len := b.len + size }, .error (.ofKind .noMoreBuffer)))

def readNextSlice (m : Mem) (b : LinkedBuffer) : Mem × LinkedBuffer :=
  match b.sliceList with
  | [] => (m, { b with currentPinned := false })
  | node :: rest =>
    if node.slice.isFromShm then
      if b.currentPinned then
        (m, { b with sliceList := rest, pinnedList := b.pinnedList ++ [node], currentPinned := false })
      else (bm.recycleBuffer m node.slice, { b with sliceList := rest, currentPinned := false })
    else (m, { b with sliceList := rest, currentPinned := false })

def recycleNodes (m : Mem) (nodes : List Node) : Mem :=
  nodes.foldl (fun m n => bm.recycleBuffer m n.slice) m

def cleanPinnedList (m : Mem) (b : LinkedBuffer) : Mem × LinkedBuffer :=
  if b.pinnedList = [] then (m, b)
  else (recycleNodes bm m b.pinnedList, { b with pinnedList := [], currentPinned := false })

def readLoop : List Node → Mem → LinkedBuffer → ℕ → Mem × LinkedBuffer × List UInt8
  | [], m, b, _ => (m, { b with sliceList := [] }, [])
  | node :: rest, m, b, size =>
    if size = 0 then (m, { b with sliceList := node :: rest }, [])
    else
      let (span, slice) := node.slice.read size
      let data := slice.data.load m span.1 span.2
      let b := { b with sliceList := ⟨node.id, slice⟩ :: rest }
      if span.2 ≠ size then
        let (m, b) := readNextSlice bm m b
        let (m, b, more) := readLoop rest m b (size - span.2)
        (m, b, data ++ more)
      else (m, b, data)

def skipEmptyFront (m : Mem) (b : LinkedBuffer) : Mem × LinkedBuffer :=
  match b.sliceList with
  | [] => (m, b)
  | node :: _ => if node.slice.size = 0 then readNextSlice bm m b else (m, b)

def readFront (m : Mem) (b : LinkedBuffer) (size : ℕ) : Mem × LinkedBuffer × Result Buf :=
  match b.sliceList with
  | node :: rest =>
    if node.slice.size ≥ size then
      let (span, slice) := node.slice.read size
      (m, { b with sliceList := ⟨node.id, slice⟩ :: rest, currentPinned := true, len := b.len - size },
        .ok (.shm node.id slice.data span.1 span.2))
    else
      let (m, b, bytes) := readLoop bm b.sliceList m { b with len := b.len - size } size
      (m, b, .ok (.exm bytes))
  | [] => (m, { b with len := b.len - size }, .ok (.exm []))

def readBytes (m : Mem) (b : LinkedBuffer) (size : ℕ) : Mem × LinkedBuffer × Result Buf :=
  if size = 0 then (m, b, .ok (.exm []))
  else if b.len < size then (m, b, .error (.ofKind .notEnoughData))
  else
    let (m, b) := skipEmptyFront bm m b
    readFront bm m b size

def peekLoop (m : Mem) : List Node → ℕ → List UInt8
  | [], _ => []
  | node :: rest, size =>
    if size = 0 then []
    else
      let span := node.slice.peek size
      node.slice.data.load m span.1 span.2 ++ peekLoop m rest (size - span.2)

def peek (m : Mem) (b : LinkedBuffer) (size : ℕ) : LinkedBuffer × Result Buf :=
  if size = 0 then (b, .ok (.exm []))
  else if b.len < size then (b, .error (.ofKind .notEnoughData))
  else
    match b.sliceList with
    | node :: rest =>
      let span := node.slice.peek size
      if span.2 = size then
        ({ b with currentPinned := true }, .ok (.shm node.id node.slice.data span.1 span.2))
      else (b, .ok (.exm (peekLoop m (node :: rest) size)))
    | [] => (b, .ok (.exm []))

def discardLoop : List Node → Mem → LinkedBuffer → ℕ → Mem × LinkedBuffer × ℕ
  | [], m, b, _ => (m, { b with sliceList := [] }, 0)
  | node :: rest, m, b, size =>
    let (skip, slice) := node.slice.skip size
    let b := { b with sliceList := ⟨node.id, slice⟩ :: rest }
    if size - skip = 0 then (m, b, skip)
    else
      let (m, b) := readNextSlice bm m b
      let (m, b, n) := discardLoop rest m b (size - skip)
      (m, b, skip + n)

def discard (m : Mem) (b : LinkedBuffer) (size : ℕ) : Mem × LinkedBuffer × Result ℕ :=
  if b.len < size then (m, b, .error (.ofKind .notEnoughData))
  else
    let (m, b, n) := discardLoop bm b.sliceList m b size
    (m, { b with len := b.len - n }, .ok n)

def releaseFront (m : Mem) (b : LinkedBuffer) : Mem × LinkedBuffer :=
  match b.sliceList with
  | [] => (m, b)
  | node :: rest =>
    if node.slice.size = 0 ∧ b.write = some node.id then
      (bm.recycleBuffer m node.slice, { b with sliceList := rest, write := none })
    else (m, b)

def releasePreviousRead (m : Mem) (b : LinkedBuffer) : Mem × LinkedBuffer :=
  let (m, b) := cleanPinnedList bm m b
  releaseFront bm m b

def reserveFront (m : Mem) (b : LinkedBuffer) : Mem × LinkedBuffer :=
  match b.sliceList with
  | [node] =>
    if b.len = 0 then
      if node.slice.isFromShm then
        let (m, slice) := node.slice.reset m
        (m, { b with sliceList := [⟨node.id, slice⟩] })
      else (m, { b with sliceList := [], write := none })
    else (m, b)
  | _ => (m, b)

def releasePreviousReadAndReserve (m : Mem) (b : LinkedBuffer) : Mem × LinkedBuffer :=
  let (m, b) := cleanPinnedList bm m b
  reserveFront m b

def updateLoop (write : Option ℕ) : List Node → Mem → Mem
  | [], m => m
  | node :: rest, m =>
    let m := node.slice.update m (rest.head?.map fun n => n.slice.offsetInShm)
    if write = some node.id then m else updateLoop write rest m

/-- `split_from_write` and the recycling of the slices behind the write cursor. -/
def dropUnused (m : Mem) (b : LinkedBuffer) (id : ℕ) : Option (Mem × LinkedBuffer) :=
  (b.nodeAt id).map fun node =>
    (recycleNodes bm m (b.nextOf id),
      { b with sliceList := b.sliceList.takeWhile (fun n => n.id ≠ id) ++ [node] })

def done (m : Mem) (b : LinkedBuffer) : Option (Mem × LinkedBuffer) :=
  if b.isFromShm then
    let m := updateLoop b.write b.sliceList m
    match b.write with
    | none => some (m, b)
    | some id => dropUnused bm m b id
  else some (m, b)

def appendBufferSlice (b : LinkedBuffer) (slice : BufferSlice) : LinkedBuffer :=
  let b := if slice.isFromShm then b else { b with isFromShm := false }
  let b := { b with len := b.len + slice.size }.pushBack slice
  { b with write := b.back }

def cleared (b : LinkedBuffer) : LinkedBuffer :=
  { b with sliceList := [], write := none, isFromShm := true, currentPinned := false, len := 0 }

def recycle (m : Mem) (b : LinkedBuffer) : Mem × LinkedBuffer := (recycleNodes bm m b.sliceList, b.cleared)

def clean (b : LinkedBuffer) : LinkedBuffer := b.cleared

def rootBufOffset (b : LinkedBuffer) : ℕ := (b.sliceList.head?.map fun n => n.slice.offsetInShm).getD 0

end LinkedBuffer

end Shmipc

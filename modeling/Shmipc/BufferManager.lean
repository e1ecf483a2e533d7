import Shmipc.BufferList

namespace Shmipc

open ByteMemory

structure BufferManager where
  lists : List BufferList
  maxSliceSize : ℕ
  memSize : ℕ
deriving DecidableEq

namespace BufferManager

variable (bm : BufferManager)

def allocShmBuffer (m : Mem) (size : ℕ) : Mem × Result BufferSlice :=
  if size ≤ bm.maxSliceSize then
    match bm.lists.find? (fun l => size ≤ l.capPerBuffer m) with
    | some l => l.pop m
    | none => (m, .error (.ofKind .noMoreBuffer))
  else (m, .error (.ofKind .noMoreBuffer))

def allocRound (rest : Mem → ℤ → Mem × ℤ × List BufferSlice) (remain : ℤ) :
    Mem × Result BufferSlice → Mem × ℤ × List BufferSlice
  | (m, .error _) => (m, remain, [])
  | (m, .ok buf) =>
    let (m, remain, slices) := rest m (remain - buf.cap)
    (m, remain, buf :: slices)

/-- The inner loop of `alloc_shm_buffers`. Every slot taken lowers `remain`, so `remain` rounds
are enough. -/
def allocLoop (l : BufferList) : ℕ → Mem → ℤ → Mem × ℤ × List BufferSlice
  | 0, m, remain => (m, remain, [])
  | rounds + 1, m, remain =>
    if remain > 0 then allocRound (allocLoop l rounds) remain (l.pop m) else (m, remain, [])

def allocLists : List BufferList → Mem → ℤ → Mem × ℤ × List BufferSlice
  | [], m, remain => (m, remain, [])
  | l :: ls, m, remain =>
    if remain > 0 then
      let (m, remain, slices) := allocLoop l remain.toNat m remain
      let (m, remain, more) := allocLists ls m remain
      (m, remain, slices ++ more)
    else (m, remain, [])

def allocShmBuffers (m : Mem) (size : ℕ) : Mem × ℤ × List BufferSlice :=
  let (m, remain, slices) := allocLists bm.lists.reverse m size
  (m, size - remain, slices)

def recycleBuffer (m : Mem) (slice : BufferSlice) : Mem :=
  if slice.isFromShm then
    match slice.bufferHeader with
    | none => m
    | some h =>
      if BufferHeader.isInUsed m h then
        match bm.lists.find? (fun l => slice.cap = l.capPerBuffer m) with
        | some l => l.push m slice
        | none => m
      else m
  else m

def readBufferSlice (m : Mem) (offset : ℕ) : Result BufferSlice :=
  if offset + kBufferHeaderSize ≥ bm.memSize then
    .error (.other ("broken share memory. readBufferSlice unexpect offset:" ++ toString offset ++
      " buffers cap:" ++ toString bm.memSize))
  else
    let bufCap := load32 m (offset + kBufferCapOffset)
    let bufEndOffset := u32 (offset + kBufferHeaderSize + bufCap)
    if bufEndOffset > bm.memSize then
      .error (.other ("broken share memory. readBufferSlice unexpect buffer_end_offset:" ++
        toString bufEndOffset ++ " buffer_start_offset:" ++ toString offset ++ " buffers cap:" ++
        toString bm.memSize))
    else
      .ok (BufferSlice.new m (some offset) (offset + kBufferHeaderSize)
        (u32sub bufEndOffset (offset + kBufferHeaderSize)) offset true)

/-- The walk of `recycle_buffers` along the chain of a slice; `none` when it is not finished
after `fuel` slots. -/
def recycleBuffers : ℕ → Mem → BufferSlice → Option Mem
  | 0, _, _ => none
  | fuel + 1, m, slice =>
    if slice.isFromShm then
      slice.bufferHeader.bind (fun h =>
        if BufferHeader.hasNext m h then
          let nextSliceOffset := BufferHeader.nextBufferOffset m h
          let m := bm.recycleBuffer m slice
          match bm.readBufferSlice m nextSliceOffset with
          | .error _ => some m
          | .ok next => recycleBuffers fuel m next
        else some (bm.recycleBuffer m slice))
    else some m

def checkBufferReturned (m : Mem) : Bool :=
  bm.lists.all (fun l => decide (l.sizeLoad m = signed32 (l.capLoad m)) && decide (l.counterLoad m = 0))

end BufferManager

end Shmipc

import Shmipc.Layout
import Shmipc.Error

namespace Shmipc

open ByteMemory

def usub (a b : ℕ) : ℕ := if b ≤ a then a - b else a + 18446744073709551616 - b

theorem usub_of_le {a b : ℕ} (h : b ≤ a) : usub a b = a - b := by simp [usub, h]

/-- What the `data` pointer of a slice points to: an address of the mapped region, or the
heap vector that the slice owns. -/
inductive Storage
  | shm (addr : ℕ)
  | heap (bytes : List UInt8)
deriving DecidableEq

namespace Storage

def load (m : Mem) : Storage → ℕ → ℕ → List UInt8
  | .shm a, off, n => loadBytes m (a + off) n
  | .heap bs, off, n => (bs.drop off).take n

def store (m : Mem) : Storage → ℕ → List UInt8 → Mem × Storage
  | .shm a, off, new => (storeBytes m (a + off) new, .shm a)
  | .heap bs, off, new => (m, .heap (bs.take off ++ new ++ bs.drop (off + new.length)))

end Storage

structure BufferSlice where
  bufferHeader : Option ℕ
  data : Storage
  cap : ℕ
  start : ℕ
  offsetInShm : ℕ
  readIndex : ℕ
  writeIndex : ℕ
  isFromShm : Bool
deriving DecidableEq

namespace BufferSlice

def new (m : Mem) (header : Option ℕ) (data len offsetInShm : ℕ) (isFromShm : Bool) : BufferSlice :=
  match isFromShm, header with
  | true, some h =>
    { bufferHeader := some h, data := .shm data, cap := BufferHeader.cap m h,
      start := BufferHeader.start m h, offsetInShm := offsetInShm,
      readIndex := BufferHeader.start m h,
      writeIndex := u32 (BufferHeader.start m h + BufferHeader.size m h), isFromShm := true }
  | _, _ =>
    { bufferHeader := none, data := .shm data, cap := u32 len, start := 0,
      offsetInShm := offsetInShm, readIndex := 0, writeIndex := 0, isFromShm := isFromShm }

def fromHeap (storage : List UInt8) : BufferSlice where
  bufferHeader := none
  data := .heap storage
  cap := u32 storage.length
  start := 0
  offsetInShm := 0
  readIndex := 0
  writeIndex := 0
  isFromShm := false

def size (s : BufferSlice) : ℕ := usub s.writeIndex s.readIndex

def remain (s : BufferSlice) : ℕ := usub s.cap s.writeIndex

/-- `next` is the `offset_in_shm` of the successor in the slice list, if there is one. -/
def update (m : Mem) (s : BufferSlice) (next : Option ℕ) : Mem :=
  match s.bufferHeader with
  | none => m
  | some h =>
    let m := BufferHeader.setSize m h s.size
    let m := BufferHeader.setStart m h s.start
    match next with
    | none => m
    | some off => BufferHeader.linkNext m h off

def reset (m : Mem) (s : BufferSlice) : Mem × BufferSlice :=
  let m := match s.bufferHeader with
    | none => m
    | some h => BufferHeader.clearFlag (BufferHeader.setStart (BufferHeader.setSize m h 0) h 0) h
  (m, { s with start := 0, writeIndex := 0, readIndex := 0 })

/-- The span handed out is named by its offset in the slice's storage. -/
def reserve (s : BufferSlice) (size : ℕ) : Result (ℕ × BufferSlice) :=
  if size ≤ s.remain then .ok (s.writeIndex, { s with writeIndex := s.writeIndex + size })
  else .error (.ofKind .noMoreBuffer)

def append (m : Mem) (s : BufferSlice) (bytes : List UInt8) : Mem × BufferSlice × ℕ :=
  if bytes.isEmpty then (m, s, 0)
  else
    let copySize := min bytes.length s.remain
    let (m, data) := s.data.store m s.writeIndex (bytes.take copySize)
    (m, { s with data := data, writeIndex := s.writeIndex + copySize }, copySize)

def read (s : BufferSlice) (size : ℕ) : (ℕ × ℕ) × BufferSlice :=
  let size := min size s.size
  ((s.readIndex, size), { s with readIndex := s.readIndex + size })

def peek (s : BufferSlice) (size : ℕ) : ℕ × ℕ := (s.readIndex, min size s.size)

def skip (s : BufferSlice) (size : ℕ) : ℕ × BufferSlice :=
  let unRead := s.size
  if unRead > size then (size, { s with readIndex := s.readIndex + size })
  else (unRead, { s with readIndex := s.readIndex + unRead })

end BufferSlice

end Shmipc

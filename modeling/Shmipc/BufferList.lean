import Shmipc.Slice

namespace Shmipc

open ByteMemory

def kBufferListHeaderSize : ℕ := 36
def kCounterListOffset : ℕ := 20

/-- The atomics of a list live in the mapped region at `offsetInShm`: size, cap, head, tail,
cap_per_buffer, counter, then the slots at `offsetInShm + kBufferListHeaderSize`. -/
structure BufferList where
  offsetInShm : ℕ
  bufferRegionLen : ℕ
  bufferRegionOffsetInShm : ℕ
deriving DecidableEq

def countBufferListMemSize (bufferNum capPerBuffer : ℕ) : ℕ :=
  u32 (kBufferListHeaderSize + bufferNum * u32 (capPerBuffer + kBufferHeaderSize))

namespace BufferList

variable (l : BufferList)

def bufferRegion : ℕ := l.offsetInShm + kBufferListHeaderSize

def sizeLoad (m : Mem) : ℤ := loadI32 m l.offsetInShm

def capLoad (m : Mem) : ℕ := load32 m (l.offsetInShm + 4)

def headLoad (m : Mem) : ℕ := load32 m (l.offsetInShm + 8)

def tailLoad (m : Mem) : ℕ := load32 m (l.offsetInShm + 12)

def capPerBuffer (m : Mem) : ℕ := load32 m (l.offsetInShm + 16)

def counterLoad (m : Mem) : ℤ := loadI32 m (l.offsetInShm + kCounterListOffset)

def sizeAdd (m : Mem) (d : ℤ) : Mem := storeI32 m l.offsetInShm (l.sizeLoad m + d)

def counterAdd (m : Mem) (d : ℤ) : Mem :=
  storeI32 m (l.offsetInShm + kCounterListOffset) (l.counterLoad m + d)

def headStore (m : Mem) (v : ℕ) : Mem := store32 m (l.offsetInShm + 8) v

def tailStore (m : Mem) (v : ℕ) : Mem := store32 m (l.offsetInShm + 12) v

def createLoop (region bufferNum capPerBuffer : ℕ) : ℕ → ℕ → ℕ → Mem → Mem
  | 0, _, _, m => m
  | k + 1, i, current, m =>
    let next := u32 (current + capPerBuffer + kBufferHeaderSize)
    let m := store32 m (region + current) capPerBuffer
    let m := store32 m (region + current + kBufferSizeOffset) 0
    let m := store32 m (region + current + kBufferDataStartOffset) 0
    let m :=
      if i < bufferNum - 1 then
        let m := store32 m (region + current + kNextBufferOffset) next
        let m := store32 m (region + current + kBufferFlagOffset) 0
        store8 m (region + u32 (current + kBufferFlagOffset))
          (m (region + u32 (current + kBufferFlagOffset)) ||| kHasNextBufferFlag)
      else m
    createLoop region bufferNum capPerBuffer k (i + 1) next m

def create (bufferNum capPerBuffer : ℕ) (m : Mem) (memLen offsetInMem : ℕ) :
    Result (BufferList × Mem) :=
  if bufferNum = 0 ∨ capPerBuffer = 0 then
    .error (.other ("buffer_num:" ++ toString bufferNum ++ " and cap_per_buffer:" ++
      toString capPerBuffer ++ " could not be 0"))
  else
    let atLeastSize :=
      u64 (kBufferListHeaderSize + bufferNum * (capPerBuffer + kBufferHeaderSize))
    if atLeastSize > 4294967295 then
      .error (.other "buffer list size overflow: buffer_num/cap_per_buffer too large")
    else if memLen < offsetInMem + atLeastSize ∨ offsetInMem > u32 memLen ∨
        atLeastSize > u32 memLen then
      .error (.other ("mem's size is at least:" ++ toString (u32 (offsetInMem + atLeastSize)) ++
        " but:" ++ toString memLen ++ " offset_in_mem:" ++ toString offsetInMem ++
        " at_least_size:" ++ toString atLeastSize))
    else
      let bufferRegionStart := u32 (offsetInMem + kBufferListHeaderSize)
      let bufferRegionEnd := u32 (offsetInMem + atLeastSize)
      if bufferRegionEnd ≤ bufferRegionStart then
        .error (.other ("buffer_region_start:" ++ toString bufferRegionStart ++
          " buffer_region_end:" ++ toString bufferRegionEnd ++ " slice bounds out of range"))
      else
        let b : BufferList :=
          { offsetInShm := offsetInMem, bufferRegionLen := u32sub atLeastSize kBufferListHeaderSize,
            bufferRegionOffsetInShm := u32 (offsetInMem + kBufferListHeaderSize) }
        let m := store32 m b.offsetInShm bufferNum
        let m := store32 m (b.offsetInShm + 4) bufferNum
        let m := b.headStore m 0
        let m := b.tailStore m (u32 ((bufferNum - 1) * u32 (capPerBuffer + kBufferHeaderSize)))
        let m := store32 m (b.offsetInShm + 16) capPerBuffer
        let m := store32 m (b.offsetInShm + kCounterListOffset) 0
        let m := createLoop b.bufferRegion bufferNum capPerBuffer bufferNum 0 0 m
        .ok (b, store32 m (b.bufferRegion + b.tailLoad m + kBufferFlagOffset) 0)

/-- Run alone, the compare-exchange of the tail just loaded succeeds. -/
def push (m : Mem) (buffer : BufferSlice) : Mem :=
  let (m, buffer) := buffer.reset m
  let oldTail := l.tailLoad m
  let newTail := u32sub buffer.offsetInShm l.bufferRegionOffsetInShm
  let m := l.tailStore m newTail
  let m := BufferHeader.linkNext m (l.bufferRegion + oldTail) newTail
  l.counterAdd (l.sizeAdd m 1) (-1)

def popLoop : ℕ → Mem → ℕ → Mem × Result BufferSlice
  | 0, m, _ => (l.sizeAdd m 1, .error (.ofKind .noMoreBuffer))
  | retry + 1, m, oldHead =>
    let bh := l.bufferRegion + oldHead
    if BufferHeader.hasNext m bh then
      let next := BufferHeader.nextBufferOffset m bh
      if l.headLoad m = oldHead then
        let m := l.headStore m next
        let m := BufferHeader.setInUsed (BufferHeader.clearFlag m bh) bh
        let m := l.counterAdd m 1
        (m, .ok (BufferSlice.new m (some bh) (bh + kBufferHeaderSize) (l.capPerBuffer m)
          (u32 (oldHead + l.bufferRegionOffsetInShm)) true))
      else popLoop retry m (l.headLoad m)
    else if l.sizeLoad m ≤ 1 then (l.sizeAdd m 1, .error (.ofKind .noMoreBuffer))
    else popLoop retry m (l.headLoad m)

def pop (m : Mem) : Mem × Result BufferSlice :=
  let oldHead := l.headLoad m
  let remain := l.sizeLoad m
  let m := l.sizeAdd m (-1)
  if remain ≤ 1 ∨ u32 (oldHead + kBufferHeaderSize + l.capPerBuffer m) > l.bufferRegionLen then
    (l.sizeAdd m 1, .error (.ofKind .noMoreBuffer))
  else l.popLoop 200 m oldHead

section Words

variable (m : Mem) (v : ℕ) (d : ℤ)

@[simp] theorem sizeAdd_words :
    l.capLoad (l.sizeAdd m d) = l.capLoad m ∧ l.headLoad (l.sizeAdd m d) = l.headLoad m ∧
    l.tailLoad (l.sizeAdd m d) = l.tailLoad m ∧ l.capPerBuffer (l.sizeAdd m d) = l.capPerBuffer m ∧
    l.counterLoad (l.sizeAdd m d) = l.counterLoad m := by
  refine ⟨?_, ?_, ?_, ?_, ?_⟩
  iterate 4 exact load32_congr (sameOn_storeI32 m _ _ (by omega))
  exact loadI32_congr (sameOn_storeI32 m _ _ (by simp only [kCounterListOffset]; omega))

@[simp] theorem headStore_words :
    l.sizeLoad (l.headStore m v) = l.sizeLoad m ∧ l.capLoad (l.headStore m v) = l.capLoad m ∧
    l.headLoad (l.headStore m v) = v % 4294967296 ∧
    l.tailLoad (l.headStore m v) = l.tailLoad m ∧
    l.capPerBuffer (l.headStore m v) = l.capPerBuffer m ∧
    l.counterLoad (l.headStore m v) = l.counterLoad m := by
  refine ⟨?_, ?_, load32_store32_same m _ v, ?_, ?_, ?_⟩
  · exact loadI32_congr (sameOn_store32 m _ _ (by omega))
  iterate 3 exact load32_congr (sameOn_store32 m _ _ (by omega))
  exact loadI32_congr (sameOn_store32 m _ _ (by simp only [kCounterListOffset]; omega))

@[simp] theorem tailStore_words :
    l.sizeLoad (l.tailStore m v) = l.sizeLoad m ∧ l.capLoad (l.tailStore m v) = l.capLoad m ∧
    l.headLoad (l.tailStore m v) = l.headLoad m ∧
    l.tailLoad (l.tailStore m v) = v % 4294967296 ∧
    l.capPerBuffer (l.tailStore m v) = l.capPerBuffer m ∧
    l.counterLoad (l.tailStore m v) = l.counterLoad m := by
  refine ⟨?_, ?_, ?_, load32_store32_same m _ v, ?_, ?_⟩
  · exact loadI32_congr (sameOn_store32 m _ _ (by omega))
  iterate 3 exact load32_congr (sameOn_store32 m _ _ (by omega))
  exact loadI32_congr (sameOn_store32 m _ _ (by simp only [kCounterListOffset]; omega))

@[simp] theorem counterAdd_words :
    l.sizeLoad (l.counterAdd m d) = l.sizeLoad m ∧ l.capLoad (l.counterAdd m d) = l.capLoad m ∧
    l.headLoad (l.counterAdd m d) = l.headLoad m ∧ l.tailLoad (l.counterAdd m d) = l.tailLoad m ∧
    l.capPerBuffer (l.counterAdd m d) = l.capPerBuffer m := by
  refine ⟨?_, ?_, ?_, ?_, ?_⟩
  · exact loadI32_congr (sameOn_storeI32 m _ _ (by simp only [kCounterListOffset]; omega))
  iterate 4 exact load32_congr (sameOn_storeI32 m _ _ (by simp only [kCounterListOffset]; omega))

variable {m} {d}

theorem sizeLoad_sizeAdd (hl : -2147483648 ≤ l.sizeLoad m + d) (hh : l.sizeLoad m + d < 2147483648) :
    l.sizeLoad (l.sizeAdd m d) = l.sizeLoad m + d := loadI32_storeI32_same m _ hl hh

theorem counterLoad_counterAdd (hl : -2147483648 ≤ l.counterLoad m + d)
    (hh : l.counterLoad m + d < 2147483648) :
    l.counterLoad (l.counterAdd m d) = l.counterLoad m + d := loadI32_storeI32_same m _ hl hh

variable (m) (d) {lo hi : ℕ}

theorem sameOn_sizeAdd (h : l.offsetInShm + 36 ≤ lo ∨ hi ≤ l.offsetInShm) :
    SameOn m (l.sizeAdd m d) lo hi := sameOn_storeI32 m _ _ (by omega)

theorem sameOn_counterAdd (h : l.offsetInShm + 36 ≤ lo ∨ hi ≤ l.offsetInShm) :
    SameOn m (l.counterAdd m d) lo hi :=
  sameOn_storeI32 m _ _ (by simp only [kCounterListOffset]; omega)

theorem sameOn_headStore (h : l.offsetInShm + 36 ≤ lo ∨ hi ≤ l.offsetInShm) :
    SameOn m (l.headStore m v) lo hi := sameOn_store32 m _ _ (by omega)

theorem sameOn_tailStore (h : l.offsetInShm + 36 ≤ lo ∨ hi ≤ l.offsetInShm) :
    SameOn m (l.tailStore m v) lo hi := sameOn_store32 m _ _ (by omega)

end Words

section Congr

variable {m m' : Mem} (h : SameOn m m' l.offsetInShm (l.offsetInShm + 36))
include h

theorem words_congr :
    l.sizeLoad m' = l.sizeLoad m ∧ l.capLoad m' = l.capLoad m ∧ l.headLoad m' = l.headLoad m ∧
    l.tailLoad m' = l.tailLoad m ∧ l.capPerBuffer m' = l.capPerBuffer m ∧
    l.counterLoad m' = l.counterLoad m := by
  refine ⟨?_, ?_, ?_, ?_, ?_, ?_⟩
  · exact loadI32_congr (h.mono (by omega) (by omega))
  iterate 4 exact load32_congr (h.mono (by omega) (by omega))
  exact loadI32_congr (h.mono (by simp only [kCounterListOffset]; omega)
    (by simp only [kCounterListOffset]; omega))

end Congr

end BufferList

end Shmipc

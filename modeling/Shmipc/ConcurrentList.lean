import Shmipc.Library.Transition
import Shmipc.ListCreate

/-!
`BufferList::push` and `BufferList::pop` cut at every access to shared memory, run by any number
of threads. A slot is named by its offset in the buffer region, as in the head and tail words.
-/

namespace Shmipc.ConcurrentList

open ByteMemory Transition

/-- Where a thread stands: the constructor names the access it makes next. `retry` counts the
rounds of the loop of `pop` that are left, the present one included. -/
inductive Pc
  | idle
  | popFetch (oldHead : ℕ)
  | popFlag (retry oldHead : ℕ)
  | popNext (retry oldHead : ℕ)
  | popCas (retry oldHead next : ℕ)
  | popSize (retry : ℕ)
  | popReload (retry : ℕ)
  | popUndo
  | popClear (slot : ℕ)
  | popUse (slot : ℕ)
  | popCount (slot : ℕ)
  | pushLoad (slot : ℕ)
  | pushCas (slot oldTail : ℕ)
  | pushLink (oldTail newTail : ℕ)
  | pushFlag (oldTail newTail : ℕ)
  | pushSize
  | pushCount
  | updateFlag (slot : ℕ)
deriving DecidableEq

inductive Cmd
  | pop
  | push (slot : ℕ)
  | update (slot next size start : ℕ)
  | give (slot taker : ℕ)
  | go
deriving DecidableEq

structure State where
  mem : Mem
  pc : ℕ → Pc
  held : ℕ → List ℕ

variable (l : BufferList)

def offsetOf (slot : ℕ) : ℕ := u32 (slot + l.bufferRegionOffsetInShm)

def resetSlot (m : Mem) (slot : ℕ) : Mem :=
  let p := l.bufferRegion + slot
  BufferHeader.clearFlag (BufferHeader.setStart (BufferHeader.setSize m p 0) p 0) p

def advance (m : Mem) (held : List ℕ) : Pc → Option (Mem × Pc × List ℕ)
  | .idle => none
  | .popFetch oldHead =>
    if l.sizeLoad m ≤ 1 ∨
        u32 (oldHead + kBufferHeaderSize + l.capPerBuffer m) > l.bufferRegionLen then
      some (l.sizeAdd m (-1), .popUndo, held)
    else some (l.sizeAdd m (-1), .popFlag 200 oldHead, held)
  | .popFlag retry oldHead =>
    if BufferHeader.hasNext m (l.bufferRegion + oldHead) then some (m, .popNext retry oldHead, held)
    else some (m, .popSize retry, held)
  | .popNext retry oldHead =>
    some (m, .popCas retry oldHead (BufferHeader.nextBufferOffset m (l.bufferRegion + oldHead)), held)
  | .popCas retry oldHead next =>
    if l.headLoad m = oldHead then some (l.headStore m next, .popClear oldHead, held)
    else some (m, .popReload retry, held)
  | .popSize retry =>
    if l.sizeLoad m ≤ 1 then some (m, .popUndo, held) else some (m, .popReload retry, held)
  | .popReload retry =>
    if retry ≤ 1 then some (m, .popUndo, held) else some (m, .popFlag (retry - 1) (l.headLoad m), held)
  | .popUndo => some (l.sizeAdd m 1, .idle, held)
  | .popClear slot => some (BufferHeader.clearFlag m (l.bufferRegion + slot), .popUse slot, held)
  | .popUse slot => some (BufferHeader.setInUsed m (l.bufferRegion + slot), .popCount slot, held)
  | .popCount slot => some (l.counterAdd m 1, .idle, slot :: held)
  | .pushLoad slot => some (m, .pushCas slot (l.tailLoad m), held)
  | .pushCas slot oldTail =>
    let newTail := u32sub (offsetOf l slot) l.bufferRegionOffsetInShm
    if l.tailLoad m = oldTail then some (l.tailStore m newTail, .pushLink oldTail newTail, held)
    else some (m, .pushLoad slot, held)
  | .pushLink oldTail newTail =>
    some (BufferHeader.setNext m (l.bufferRegion + oldTail) newTail, .pushFlag oldTail newTail, held)
  | .pushFlag oldTail _ => some (BufferHeader.setHasNext m (l.bufferRegion + oldTail), .pushSize, held)
  | .pushSize => some (l.sizeAdd m 1, .pushCount, held)
  | .pushCount => some (l.counterAdd m (-1), .idle, held)
  | .updateFlag slot => some (BufferHeader.setHasNext m (l.bufferRegion + slot), .idle, held)

def step (s : State) : ℕ × Cmd → Option State
  | (t, .go) => (advance l s.mem (s.held t) (s.pc t)).map (fun r =>
      ⟨r.1, Function.update s.pc t r.2.1, Function.update s.held t r.2.2⟩)
  | (t, .pop) =>
    if s.pc t = .idle then some ⟨s.mem, Function.update s.pc t (.popFetch (l.headLoad s.mem)), s.held⟩
    else none
  | (t, .push slot) =>
    if s.pc t = .idle ∧ slot ∈ s.held t then
      some ⟨resetSlot l s.mem slot, Function.update s.pc t (.pushLoad slot),
        Function.update s.held t ((s.held t).erase slot)⟩
    else none
  | (t, .update slot next size start) =>
    if s.pc t = .idle ∧ slot ∈ s.held t ∧ next ∈ s.held t ∧ slot ≠ next then
      let p := l.bufferRegion + slot
      some ⟨BufferHeader.setNext (BufferHeader.setStart (BufferHeader.setSize s.mem p size) p start) p
        (offsetOf l next), Function.update s.pc t (.updateFlag slot), s.held⟩
    else none
  | (t, .give slot taker) =>
    if s.pc t = .idle ∧ slot ∈ s.held t then
      let held := Function.update s.held t ((s.held t).erase slot)
      some ⟨s.mem, s.pc, Function.update held taker (slot :: held taker)⟩
    else none

def system (m : Mem) : System State (ℕ × Cmd) where
  initial s := s = ⟨m, fun _ => .idle, fun _ => []⟩
  step := step l

end Shmipc.ConcurrentList

import Shmipc.Library.CircularQueue
import Shmipc.Error

namespace Shmipc

structure QueueElement where
  seqId : ℕ
  offsetInShmBuf : ℕ
  status : ℕ
deriving DecidableEq

/-- One of the two rings of a session. The put mutex and the single consumer make `put` and
`pop` atomic. -/
structure Queue where
  ring : CircularQueue QueueElement
  workingFlag : ℕ

namespace Queue

def create (cap : ℕ) : Queue := ⟨.empty cap ⟨0, 0, 0⟩, 0⟩

def size (q : Queue) : ℤ := (q.ring.tail : ℤ) - q.ring.head

def put (q : Queue) (element : QueueElement) : Result Queue :=
  match q.ring.put? element with
  | none => .error (.ofKind .queueFull)
  | some ring => .ok { q with ring := ring }

def pop (q : Queue) : Result (QueueElement × Queue) :=
  match q.ring.pop? with
  | none => .error (.ofKind .queueEmpty)
  | some (element, ring) => .ok (element, { q with ring := ring })

def markWorking (q : Queue) : Bool × Queue :=
  if q.workingFlag = 0 then (true, { q with workingFlag := 1 }) else (false, q)

abbrev contents (q : Queue) : List QueueElement := q.ring.contents

variable {q q' : Queue} {e : QueueElement}

theorem put_ok (h : q.put e = .ok q') :
    q'.contents = q.contents ++ [e] ∧ q'.workingFlag = q.workingFlag := by
  unfold put at h
  split at h
  · cases h
  · next ring hring =>
    obtain rfl := Except.ok.inj h
    exact ⟨CircularQueue.contents_put hring, rfl⟩

theorem pop_ok (h : q.pop = .ok (e, q')) :
    q.contents = e :: q'.contents ∧ q'.workingFlag = q.workingFlag := by
  unfold pop at h
  split at h
  · cases h
  · next element ring hring =>
    obtain ⟨rfl, rfl⟩ := Prod.mk.inj (Except.ok.inj h)
    exact ⟨CircularQueue.contents_pop hring, rfl⟩

theorem size_eq_zero : q.size = 0 ↔ q.contents = [] := by
  rw [CircularQueue.contents_eq_nil, size]
  omega

end Queue

end Shmipc

import Shmipc.CloseReturns

/-!
The calls of the user on a stream, and which of them can do without the region.
-/

namespace Shmipc.LateCalls

open ByteMemory LinkedBuffer

inductive Op
  | read
  | readBytes (size : ℕ)
  | peek (size : ℕ)
  | discard (size : ℕ)
  | writeBytes (bytes : List UInt8)
  | reserve (size : ℕ)
  | flush (ans : Answers)
  | close (ans : Answers)
  | reset
  | releaseReadAndReuse
  | putOrCloseStream (ans : Answers) (room : Bool)

inductive Answer
  | buf (ret : Option (Result Buf))
  | discarded (ret : Option (Result ℕ))
  | written
  | span (ret : Result (ℕ × ℕ))
  | sent (ret : Result Unit) (sent : List Sent)
  | reset (ret : Result Stream)
  | released
  | placed (placed : Placed) (sent : List Sent)

def Op.call (bm : BufferManager) (m : Mem) (s : Stream) : Op → Option (Mem × Stream × Answer)
  | .read => (s.read bm m).map fun r => (r.1, r.2.1, .buf r.2.2)
  | .readBytes size => (s.readBytes bm m size).map fun r => (r.1, r.2.1, .buf r.2.2)
  | .peek size => (s.peek bm m size).map fun r => (r.1, r.2.1, .buf r.2.2)
  | .discard size => (s.discard bm m size).map fun r => (r.1, r.2.1, .discarded r.2.2)
  | .writeBytes bytes => (s.writeBytes bm m bytes).map fun r => (r.1, r.2, .written)
  | .reserve size => (s.reserve bm m size).map fun r => (r.1, r.2.1, .span r.2.2)
  | .flush ans => (s.flush bm ans m).map fun r => (r.1, r.2.1, .sent r.2.2.1 r.2.2.2)
  | .close ans => (s.close bm ans m).map fun r => (r.1, r.2.1, .sent r.2.2.1 r.2.2.2)
  | .reset => some (m, s.reset.toOption.getD s, .reset s.reset)
  | .releaseReadAndReuse => some ((s.releaseReadAndReuse bm m).1, (s.releaseReadAndReuse bm m).2, .released)
  | .putOrCloseStream ans room => (Shmipc.putOrCloseStream bm ans room m s).map fun r => (r.1, r.2.1, .placed r.2.2.1 r.2.2.2)

/-- The outcome is the same whatever is in the region, and the region stays as it is. -/
def Spares {α : Type} (f : Mem → Option (Mem × α)) : Prop := ∃ r, ∀ m, f m = some (m, r)

-- the slices that `recycle_buffer` does not return at once
def InRegion (ns : List Node) : Prop := ∃ n ∈ ns, n.slice.isFromShm = true ∧ n.slice.bufferHeader.isSome = true

/-- Nothing was received that is not read. -/
def Drained (s : Stream) : Prop := s.recvBuf.sliceList = [] ∧ s.recvBuf.len = 0 ∧ s.pendingData = []

def cursor (b : LinkedBuffer) : Option Node := b.write.bind b.nodeAt

def Disposable (s : Stream) : Prop :=
  s.state = .closed ∨ s.pendingData = [] ∧ ¬ InRegion s.recvBuf.sliceList ∧ ¬ InRegion s.sendBuf.sliceList

/-- A call that can do without the region. A write stays in the heap slice at the write cursor. -/
def Op.Quiet (s : Stream) : Op → Prop
  | .read | .readBytes _ | .peek _ | .discard _ => s.state = .closed ∨ Drained s
  | .writeBytes bytes => bytes = [] ∨
      ∃ n ∈ cursor s.sendBuf, (∃ old, n.slice.data = .heap old) ∧ bytes.length ≤ n.slice.remain
  | .reserve size => ∃ n ∈ cursor s.sendBuf, size ≤ n.slice.remain
  | .flush _ => s.sendBuf.len = 0 ∨ s.state ≠ .opened ∧ ¬ InRegion s.sendBuf.sliceList
  | .close _ => Disposable s
  | .reset => True
  | .releaseReadAndReuse => (s.state = .closed ∨ Drained s) ∧ ¬ InRegion s.recvBuf.pinnedList
  | .putOrCloseStream _ _ => s.state ≠ .opened ∧ Disposable s

def Settled (s : Stream) : Prop := s.state = .closed → Drained s

variable {bm : BufferManager} {b : LinkedBuffer} {n : Node} {ns : List Node} {bytes : List UInt8} {size : ℕ} {m m' : Mem}
  {s s' : Stream} {ans : Answers} {ret : Result Unit} {sent : List Sent} {op : Op}

section Quiet

theorem Spares.map {α β : Type} {f : Mem → Option (Mem × α)} (h : Spares f) (g : α → β) :
    Spares fun m => (f m).map fun r => (r.1, g r.2) := by
  obtain ⟨r, hr⟩ := h
  refine ⟨g r, fun m => ?_⟩
  beta_reduce
  rw [hr, Option.map_some]

theorem reading_spares {α : Type} (bm : BufferManager) (size : ℕ) (hs : Drained s) (f : Mem → LinkedBuffer → Mem × LinkedBuffer × Result α)
    (hf : ∃ ret, ∀ m, f m s.recvBuf = (m, s.recvBuf, ret)) : ∃ ret, ∀ m, Stream.reading bm m s size f = some (m, s, ret) := by
  obtain ⟨ret, hf⟩ := hf
  have hmove (m : Mem) : Stream.movePendingData bm m s = some (m, s) := by
    rw [Stream.movePendingData, hs.2.2, Stream.moveAll, Option.map_some]
    simp only
    rw [← hs.2.2]
  obtain ⟨first, hfirst⟩ : ∃ first, ∀ m, (if s.recvBuf.len < size then Stream.readMore bm m s size else some (m, s, some (.ok ()))) =
      some (m, s, first) := by
    split_ifs
    · exact ⟨_, fun m => by simp only [Stream.readMore, hmove m, Option.map_some]; rfl⟩
    · exact ⟨_, fun m => rfl⟩
  rcases first with - | (err | u)
  · exact ⟨none, fun m => by rw [Stream.reading, hfirst m]; rfl⟩
  · exact ⟨some (.error err), fun m => by rw [Stream.reading, hfirst m]; rfl⟩
  · refine ⟨some ret, fun m => ?_⟩
    rw [Stream.reading, hfirst m, Stream.andThen, Option.map_some]
    simp only [hf, Stream.onRecv]

theorem readBytes_drained (bm : BufferManager) (size : ℕ) (hs : Drained s) :
    ∃ ret, ∀ m, s.recvBuf.readBytes bm m size = (m, s.recvBuf, ret) := by
  by_cases hzero : size = 0
  · exact ⟨_, fun m => if_pos hzero⟩
  · have hlen : s.recvBuf.len < size := by rw [hs.2.1]; exact Nat.pos_of_ne_zero hzero
    exact ⟨_, fun m => (if_neg hzero).trans (if_pos hlen)⟩

theorem peek_drained (size : ℕ) (hs : Drained s) : ∃ ret, ∀ m, (m, s.recvBuf.peek m size) = (m, s.recvBuf, ret) := by
  by_cases hzero : size = 0
  · exact ⟨_, fun m => congrArg (Prod.mk m) (if_pos hzero)⟩
  · have hlen : s.recvBuf.len < size := by rw [hs.2.1]; exact Nat.pos_of_ne_zero hzero
    exact ⟨_, fun m => congrArg (Prod.mk m) ((if_neg hzero).trans (if_pos hlen))⟩

theorem discard_drained (bm : BufferManager) (size : ℕ) (hs : Drained s) :
    ∃ ret, ∀ m, s.recvBuf.discard bm m size = (m, s.recvBuf, ret) := by
  by_cases hlen : s.recvBuf.len < size
  · exact ⟨_, fun m => if_pos hlen⟩
  · refine ⟨.ok 0, fun m => ?_⟩
    rw [LinkedBuffer.discard, if_neg hlen, hs.1, discardLoop]
    simp only [Nat.sub_zero, ← hs.1]

theorem close_closed (bm : BufferManager) (ans : Answers) (m : Mem) (hclosed : s.state = .closed) : s.close bm ans m = some (m, s, .ok (), []) :=
  if_pos hclosed

end Quiet

section Settled

theorem Settled.of_recv (hs : Settled s) (hstate : s'.state = s.state) (hrecv : s'.recvBuf = s.recvBuf)
    (hpending : s'.pendingData = s.pendingData) : Settled s' := by
  intro hclosed
  rw [Drained, hrecv, hpending]
  exact hs (hstate ▸ hclosed)

theorem Settled.of_open (hopen : s.state ≠ .closed) (hstate : s'.state = s.state) : Settled s' := fun hclosed =>
  absurd (hstate ▸ hclosed) hopen

theorem clean_drained (h : Stream.clean bm m s = some (m', s')) : Drained s' := by
  rw [Stream.clean, Stream.cleanPendingData, Option.map_map] at h
  obtain ⟨m₁, -, h⟩ := Option.map_eq_some_iff.mp h
  cases h
  exact ⟨rfl, rfl, rfl⟩

theorem close_cleans (hopen : s.state ≠ .closed) (h : s.close bm ans m = some (m', s', ret, sent)) :
    Stream.clean bm m { s with state := .closed } = some (m', s') := by
  rw [Stream.close, if_neg hopen] at h
  obtain ⟨⟨m₁, s₁⟩, hclean, h⟩ := Option.map_eq_some_iff.mp h
  rw [hclean]
  split_ifs at h
  · cases h
    rfl
  · split at h
    all_goals
      cases h
      rfl

theorem close_settled (hs : Settled s) (h : s.close bm ans m = some (m', s', ret, sent)) : Settled s' := by
  by_cases hclosed : s.state = .closed
  · rw [close_closed bm ans m hclosed] at h
    cases h
    exact hs
  · exact fun _ => clean_drained (close_cleans hclosed h)

theorem reading_settled {α : Type} {f : Mem → LinkedBuffer → Mem × LinkedBuffer × Result α} {ret : Option (Result α)} (hs : Settled s)
    (hf : Drained s → ∃ ret, ∀ m, f m s.recvBuf = (m, s.recvBuf, ret)) (h : Stream.reading bm m s size f = some (m', s', ret)) :
    Settled s' := by
  by_cases hclosed : s.state = .closed
  · obtain ⟨ret', hsame⟩ := reading_spares bm size (hs hclosed) f (hf (hs hclosed))
    rw [hsame] at h
    cases h
    exact hs
  · obtain ⟨m₁, s₁, hmove, hread⟩ := Stream.reading_cases h
    have hstate : s₁.state = s.state := by
      rcases hmove with ⟨-, rfl⟩ | hmove
      · rfl
      · obtain ⟨r, -, hmove⟩ := Option.map_eq_some_iff.mp hmove
        cases hmove
        rfl
    rcases hread with ⟨-, rfl⟩ | ⟨b', r, -, rfl⟩
    · exact .of_open hclosed hstate
    · exact .of_open hclosed hstate

theorem flush_settled (hs : Settled s) (h : s.flush bm ans m = some (m', s', ret, sent)) : Settled s' := by
  cases Stream.flush_outcome h with
  | idle _ => exact hs.of_recv rfl rfl rfl
  | closed _ _ => exact hs.of_recv rfl rfl rfl
  | ended _ _ _ hended => cases hended <;> exact hs.of_recv rfl rfl rfl

theorem releaseReadAndReuse_settled (hs : Settled s) (h : s.releaseReadAndReuse bm m = (m', s')) : Settled s' := by
  obtain ⟨m₁, b₁, hrel, hlen, hcases⟩ := Stream.releaseReadAndReuse_cases bm m s
  by_cases hclosed : s.state = .closed
  · obtain ⟨hnil, hzero, hpending⟩ := hs hclosed
    obtain ⟨m₂, b₂, hclean⟩ : ∃ m₂ b₂, s.recvBuf.cleanPinnedList bm m = (m₂, b₂) := ⟨_, _, rfl⟩
    have hb₂ : b₂.sliceList = [] := by
      obtain ⟨-, hlist⟩ := cleanPinnedList_list bm m s.recvBuf
      rw [hclean] at hlist
      exact hlist.trans hnil
    have hb₁ : b₁.sliceList = [] := by
      rw [releasePreviousReadAndReserve, hclean] at hrel
      simp only [reserveFront, hb₂] at hrel
      cases hrel
      exact hb₂
    rcases hcases with ⟨⟨-, n, hn, -⟩, -⟩ | ⟨-, heq⟩
    · rw [hnil] at hn
      cases hn
    · cases heq.symm.trans h
      exact fun _ => ⟨hb₁, hlen.trans hzero, hpending⟩
  · rcases hcases with ⟨-, heq⟩ | ⟨-, heq⟩
    · cases heq.symm.trans h
      exact .of_open hclosed rfl
    · cases heq.symm.trans h
      exact .of_open hclosed rfl

theorem putOrCloseStream_settled {room : Bool} {placed : Placed} (hs : Settled s)
    (h : putOrCloseStream bm ans room m s = some (m', s', placed, sent)) : Settled s' := by
  have hclosing {m₁ : Mem} {s₁ : Stream} (hs₁ : Settled s₁)
      (h : (s₁.close bm ans m₁).map (fun r => (r.1, r.2.1, Placed.closed, r.2.2.2)) = some (m', s', placed, sent)) : Settled s' := by
    obtain ⟨r, hclose, hr⟩ := Option.map_eq_some_iff.mp h
    cases hr
    exact close_settled hs₁ hclose
  rw [putOrCloseStream] at h
  by_cases hfallback : s.inFallbackState = true
  · rw [if_pos hfallback] at h
    exact hclosing hs h
  · rw [if_neg hfallback] at h
    rcases Stream.reset_cases s with ⟨⟨err, herr⟩, -⟩ | ⟨hok, -⟩
    · rw [herr] at h
      exact hclosing hs h
    · rw [hok] at h
      obtain ⟨m₁, s₁, hrel⟩ : ∃ m₁ s₁, Stream.releaseReadAndReuse bm m { s with inFallbackState := false } = (m₁, s₁) := ⟨_, _, rfl⟩
      have hs₁ : Settled s₁ := releaseReadAndReuse_settled (s := { s with inFallbackState := false }) hs hrel
      simp only [hrel] at h
      split_ifs at h
      · cases h
        exact hs₁
      · exact hclosing hs₁ h

theorem call_settled {answer : Answer} (hs : Settled s) (h : op.call bm m s = some (m', s', answer)) : Settled s' := by
  cases op with
  | read =>
    obtain ⟨r, hread, h⟩ := Option.map_eq_some_iff.mp h
    cases h
    exact reading_settled hs (readBytes_drained bm _) hread
  | readBytes size =>
    obtain ⟨r, hread, h⟩ := Option.map_eq_some_iff.mp h
    cases h
    exact reading_settled hs (readBytes_drained bm size) hread
  | peek size =>
    obtain ⟨r, hread, h⟩ := Option.map_eq_some_iff.mp h
    cases h
    exact reading_settled hs (peek_drained size) hread
  | discard size =>
    obtain ⟨r, hread, h⟩ := Option.map_eq_some_iff.mp h
    cases h
    exact reading_settled hs (discard_drained bm size) hread
  | writeBytes bytes =>
    rw [Op.call, Stream.writeBytes, Option.map_map] at h
    obtain ⟨r, -, h⟩ := Option.map_eq_some_iff.mp h
    cases h
    exact hs.of_recv rfl rfl rfl
  | reserve size =>
    rw [Op.call, Stream.reserve, Option.map_map] at h
    obtain ⟨r, -, h⟩ := Option.map_eq_some_iff.mp h
    cases h
    exact hs.of_recv rfl rfl rfl
  | flush ans =>
    obtain ⟨r, hflush, h⟩ := Option.map_eq_some_iff.mp h
    cases h
    exact flush_settled hs hflush
  | close ans =>
    obtain ⟨r, hclose, h⟩ := Option.map_eq_some_iff.mp h
    cases h
    exact close_settled hs hclose
  | reset =>
    cases h
    rcases Stream.reset_cases s with ⟨⟨err, herr⟩, -⟩ | ⟨hok, -⟩
    · rw [herr]
      exact hs
    · rw [hok]
      exact hs.of_recv rfl rfl rfl
  | releaseReadAndReuse =>
    cases h
    exact releaseReadAndReuse_settled hs rfl
  | putOrCloseStream ans room =>
    obtain ⟨r, hput, h⟩ := Option.map_eq_some_iff.mp h
    cases h
    exact putOrCloseStream_settled hs hput

theorem fill_settled {item : Pending} (h : s.fillDataToReadBuffer bm m item = some (m', s')) : Settled s' := by
  rw [Stream.fillDataToReadBuffer] at h
  split_ifs at h with hclosed
  · rw [Stream.cleanPendingData, Option.map_map] at h
    obtain ⟨m₁, -, h⟩ := Option.map_eq_some_iff.mp h
    cases h
    exact fun _ => ⟨rfl, rfl, rfl⟩
  · cases h
    exact .of_open hclosed rfl

theorem halfClose_settled (hs : Settled s) : Settled s.halfClose := by
  rw [Stream.halfClose]
  split_ifs
  · rintro ⟨⟩
  · exact hs

end Settled

end Shmipc.LateCalls

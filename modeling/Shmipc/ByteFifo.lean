import Shmipc.LinkedBufferRelease

namespace Shmipc

open ByteMemory LinkedBuffer

namespace ByteFifo

inductive Call
  | writeBytes (bytes : List UInt8)
  /-- `reserve(bytes.size())`, and `bytes` put into the span. -/
  | reserve (bytes : List UInt8)
  | appendBufferSlice (slice : BufferSlice)
  | readBytes (size : ℕ)
  | peek (size : ℕ)
  | discard (size : ℕ)
  | done
  | releasePreviousRead
  | releasePreviousReadAndReserve

structure State where
  mem : Mem
  buffer : LinkedBuffer
  written : List UInt8
  consumed : ℕ

def State.put (s : State) (bytes : List UInt8) (r : Mem × LinkedBuffer) : State :=
  { s with mem := r.1, buffer := r.2, written := s.written ++ bytes }

def State.take (s : State) (n : ℕ) (r : Mem × LinkedBuffer) : State :=
  { s with mem := r.1, buffer := r.2, consumed := s.consumed + n }

def count (size : ℕ) : Result Buf → ℕ
  | .ok _ => size
  | .error _ => 0

def call (bm : BufferManager) (s : State) : Call → Option State
  | .writeBytes bytes => (writeBytes bm s.mem s.buffer bytes).map (s.put bytes)
  | .reserve bytes => (reserveFill bytes (reserve bm s.mem s.buffer bytes.length)).map (s.put bytes)
  | .appendBufferSlice slice => some (s.put (slice.unread s.mem) (s.mem, s.buffer.appendBufferSlice slice))
  | .readBytes size =>
    let (m, b, r) := readBytes bm s.mem s.buffer size
    some (s.take (count size r) (m, b))
  | .peek size => some (s.take 0 (s.mem, (peek s.mem s.buffer size).1))
  | .discard size =>
    let (m, b, r) := discard bm s.mem s.buffer size
    some (s.take (r.toOption.getD 0) (m, b))
  | .done => (done bm s.mem s.buffer).map (s.take 0)
  | .releasePreviousRead => some (s.take 0 (releasePreviousRead bm s.mem s.buffer))
  | .releasePreviousReadAndReserve => some (s.take 0 (releasePreviousReadAndReserve bm s.mem s.buffer))

def Foreign (P : Pool) (e : Bool) (m : Mem) (held : List ℕ) (slice : BufferSlice) : Prop :=
  ∃ free, P.Free e m free ∧ (∀ a ∈ held, ¬ free a) ∧ ∀ a, slice.bufferHeader = some a → ¬ free a ∧ a ∉ held

def Legal (P : Pool) (e : Bool) (s : State) : Call → Prop
  | .writeBytes bytes => bytes.length < 4294967296
  | .reserve bytes => 1 ≤ bytes.length ∧ bytes.length < 4294967296
  | .appendBufferSlice slice => SliceOk P slice ∧ Foreign P e s.mem s.buffer.held slice
  | _ => True

/-- A step of others is any change of the memory that leaves the slots of the buffer alone and gives
none of them to the pool. -/
inductive Run (P : Pool) (e : Bool) : State → Prop
  | start {m : Mem} {free : ℕ → Prop} : P.Free e m free → Run P e ⟨m, .empty, [], 0⟩
  | call {s s' : State} {c : Call} : Run P e s → Legal P e s c → call P.manager s c = some s' → Run P e s'
  | others {s : State} {m' : Mem} {free' : ℕ → Prop} : Run P e s → P.Free e m' free' →
      (∀ a ∈ s.buffer.held, ¬ free' a) → Untouched P s.mem m' s.buffer.held → Run P e { s with mem := m' }

-- what other holders of slots of the pool do is such a step
structure Inv (P : Pool) (e : Bool) (s : State) : Prop where
  valid : ∃ free, Valid P e s.mem free s.buffer
  unread : unreadOf s.mem s.buffer.sliceList = s.written.drop s.consumed
  consumed_le : s.consumed ≤ s.written.length

variable {P : Pool} {e : Bool} {s s' : State} {m m' : Mem} {free free' : ℕ → Prop} {b' : LinkedBuffer}
  {bytes : List UInt8} {size : ℕ} {c : Call}

namespace Inv

theorem start (h : P.Free e m free) : Inv P e ⟨m, .empty, [], 0⟩ :=
  ⟨⟨free, .empty h⟩, rfl, le_rfl⟩

theorem others (h : Inv P e s) (hf : P.Free e m' free') (hown : ∀ a ∈ s.buffer.held, ¬ free' a)
    (hsame : Untouched P s.mem m' s.buffer.held) : Inv P e { s with mem := m' } := by
  obtain ⟨free, hv⟩ := h.valid
  refine ⟨⟨free', hv.others hf hown⟩, ?_, h.consumed_le⟩
  rw [← h.unread]
  exact hv.unread_untouched hsame

theorem len_eq (h : Inv P e s) : s.buffer.len = s.written.length - s.consumed := by
  obtain ⟨free, hv⟩ := h.valid
  rw [← hv.unread_length, h.unread, List.length_drop]

theorem put (h : Inv P e s) (hv : Valid P e s.mem free s.buffer) {r : Option (Mem × LinkedBuffer)}
    (hr : Puts P e s.mem free s.buffer bytes r) : ∃ s', r.map (s.put bytes) = some s' ∧ Inv P e s' := by
  obtain ⟨m', free', b', hr, hwrote, hback, hlen⟩ := hr
  refine ⟨_, by rw [hr, Option.map_some], ⟨free', hv.of_wrote hwrote hback hlen⟩, ?_, ?_⟩
  · change unreadOf m' b'.sliceList = (s.written ++ bytes).drop s.consumed
    rw [hwrote.unread, h.unread, List.drop_append_of_le_length h.consumed_le]
  · change s.consumed ≤ (s.written ++ bytes).length
    rw [List.length_append]
    exact Nat.le_add_right_of_le h.consumed_le

theorem take (h : Inv P e s) (hle : size ≤ s.buffer.len) (ht : Takes P e s.mem free s.buffer size m' b') :
    Inv P e (s.take size (m', b')) := by
  obtain ⟨free', hcons, hv⟩ := ht
  have hlen := h.len_eq
  have hc := h.consumed_le
  refine ⟨⟨free', hv⟩, ?_, ?_⟩
  · change unreadOf m' b'.sliceList = s.written.drop (s.consumed + size)
    rw [hcons.unread, h.unread, List.drop_drop]
  · change s.consumed + size ≤ s.written.length
    omega

theorem keep (h : Inv P e s) (hk : Keeps P e s.mem free s.buffer m' free' b') : Inv P e (s.take 0 (m', b')) :=
  ⟨⟨free', hk.valid⟩, hk.unread.trans h.unread, h.consumed_le⟩

theorem same (h : Inv P e s) {pinned : Bool} : Inv P e (s.take 0 (s.mem, { s.buffer with currentPinned := pinned })) := by
  obtain ⟨free, hv⟩ := h.valid
  exact ⟨⟨free, hv.toBase.congr rfl rfl rfl rfl, hv.cursor, hv.len⟩, h.unread, h.consumed_le⟩

theorem call (h : Inv P e s) (hc : Legal P e s c) : ∃ s', call P.manager s c = some s' ∧ Inv P e s' := by
  obtain ⟨free, hv⟩ := h.valid
  cases c with
  | writeBytes bytes => exact h.put hv (writeBytes_puts hv hc)
  | reserve bytes => exact h.put hv (reserve_puts hv (List.length_pos_iff.mp hc.1) hc.2)
  | appendBufferSlice slice =>
    obtain ⟨hok, free', hf, hown, hnew⟩ := hc
    obtain ⟨hv', hunread, -⟩ := appendBufferSlice_valid (hv.others hf hown) hok hnew
    refine ⟨_, rfl, ⟨free', hv'⟩, ?_, ?_⟩
    · change unreadOf s.mem (s.buffer.appendBufferSlice slice).sliceList = (s.written ++ _).drop s.consumed
      rw [hunread, h.unread, List.drop_append_of_le_length h.consumed_le]
    · change s.consumed ≤ (s.written ++ _).length
      rw [List.length_append]
      exact Nat.le_add_right_of_le h.consumed_le
  | readBytes size =>
    by_cases hz : size = 0
    · refine ⟨s, ?_, h⟩
      rw [ByteFifo.call, LinkedBuffer.readBytes, if_pos hz, hz]
      rfl
    · by_cases hle : size ≤ s.buffer.len
      · obtain ⟨m', b', buf, hread, ht, -⟩ := readBytes_takes hv (Nat.pos_of_ne_zero hz) hle
        refine ⟨s.take size (m', b'), ?_, h.take hle ht⟩
        rw [ByteFifo.call, hread]
        rfl
      · refine ⟨s, ?_, h⟩
        rw [ByteFifo.call, (calls_fail s.mem (Nat.lt_of_not_le hle) P.manager).1]
        rfl
  | peek size =>
    by_cases hz : size = 0
    · refine ⟨s, ?_, h⟩
      rw [ByteFifo.call, LinkedBuffer.peek, if_pos hz]
      rfl
    · by_cases hle : size ≤ s.buffer.len
      · obtain ⟨pinned, buf, hpeek, -⟩ := peek_eq hv (Nat.pos_of_ne_zero hz) hle
        refine ⟨s.take 0 (s.mem, { s.buffer with currentPinned := pinned }), ?_, h.same⟩
        rw [ByteFifo.call, hpeek]
      · refine ⟨s, ?_, h⟩
        rw [ByteFifo.call, (calls_fail s.mem (Nat.lt_of_not_le hle) P.manager).2.1]
        rfl
  | discard size =>
    by_cases hle : size ≤ s.buffer.len
    · obtain ⟨m', b', hdisc, ht⟩ := discard_takes hv hle
      refine ⟨s.take size (m', b'), ?_, h.take hle ht⟩
      rw [ByteFifo.call, hdisc]
      rfl
    · refine ⟨s, ?_, h⟩
      rw [ByteFifo.call, (calls_fail s.mem (Nat.lt_of_not_le hle) P.manager).2.2]
      rfl
  | done =>
    obtain ⟨m', hdone, hup⟩ := done_updates hv
    refine ⟨s.take 0 (m', s.buffer), ?_, h.keep (hup.keeps hv)⟩
    rw [ByteFifo.call, hdone, Option.map_some]
  | releasePreviousRead =>
    obtain ⟨m', free', b', hrel, hk, -⟩ := releasePreviousRead_keeps hv
    refine ⟨s.take 0 (m', b'), ?_, h.keep hk⟩
    rw [ByteFifo.call, hrel]
  | releasePreviousReadAndReserve =>
    obtain ⟨m', free', b', hrel, hk⟩ := releasePreviousReadAndReserve_keeps hv
    refine ⟨s.take 0 (m', b'), ?_, h.keep hk⟩
    rw [ByteFifo.call, hrel]

end Inv

theorem inv_of_run (h : Run P e s) : Inv P e s := by
  induction h with
  | start hf => exact .start hf
  | call _ hc hcall ih =>
    obtain ⟨s', hs', hinv⟩ := ih.call hc
    rw [hcall, Option.some.injEq] at hs'
    exact hs' ▸ hinv
  | others _ hf hown hsame ih => exact ih.others hf hown hsame

def CursorOk (b : LinkedBuffer) : Prop :=
  b.write = none ∨ ∃ pre n behind, b.sliceList = pre ++ n :: behind ∧ b.write = some n.id ∧
    ∀ x ∈ behind, x.slice.size = 0

theorem cursorOk_of_valid (h : Valid P e m free b') : CursorOk b' := by
  rcases List.eq_nil_or_concat' b'.sliceList with hnil | ⟨pre, n, hsplit⟩
  · left
    rw [h.cursor, back, hnil]
    rfl
  · right
    refine ⟨pre, n, [], hsplit, ?_, by simp⟩
    rw [h.cursor, back, hsplit, List.getLast?_concat, Option.map_some]

theorem linked_buffer_fifo (h : Run P e s) :
    s.consumed ≤ s.written.length ∧ s.buffer.len = s.written.length - s.consumed ∧ CursorOk s.buffer ∧
    (∀ c, Legal P e s c → ∃ s', call P.manager s c = some s') ∧
    ∀ size, 0 < size →
      (size ≤ s.buffer.len →
        (∃ m' b' buf, readBytes P.manager s.mem s.buffer size = (m', b', .ok buf) ∧
          buf.load m' = (s.written.drop s.consumed).take size) ∧
        (∃ b' buf, peek s.mem s.buffer size = (b', .ok buf) ∧
          buf.load s.mem = (s.written.drop s.consumed).take size) ∧
        ∃ m' b', discard P.manager s.mem s.buffer size = (m', b', .ok size)) ∧
      (s.buffer.len < size →
        readBytes P.manager s.mem s.buffer size = (s.mem, s.buffer, .error (.ofKind .notEnoughData)) ∧
        peek s.mem s.buffer size = (s.buffer, .error (.ofKind .notEnoughData)) ∧
        discard P.manager s.mem s.buffer size = (s.mem, s.buffer, .error (.ofKind .notEnoughData))) := by
  have hinv := inv_of_run h
  obtain ⟨free, hv⟩ := hinv.valid
  refine ⟨hinv.consumed_le, hinv.len_eq, cursorOk_of_valid hv, ?_, ?_⟩
  · intro c hc
    obtain ⟨s', hs', -⟩ := hinv.call hc
    exact ⟨s', hs'⟩
  · intro size hpos
    refine ⟨fun hle => ?_, fun hlt => calls_fail s.mem hlt P.manager⟩
    obtain ⟨m', b', buf, hread, -, hbuf⟩ := readBytes_takes hv hpos hle
    obtain ⟨pinned, buf', hpeek, hbuf'⟩ := peek_eq hv hpos hle
    obtain ⟨m'', b'', hdisc, -⟩ := discard_takes hv hle
    rw [← hinv.unread]
    exact ⟨⟨m', b', buf, hread, hbuf⟩, ⟨_, buf', hpeek, hbuf'⟩, m'', b'', hdisc⟩

def smallPool : Pool := Pool.single (n := 2) (by decide) (show _ ≤ 84 by decide) (by decide)

theorem linked_buffer_fifo_small : ∃ s, Run smallPool true s ∧ s.written = [1, 2, 3, 4, 5] ∧ s.buffer.len = 5 ∧
    ∃ m' b' buf, readBytes smallPool.manager s.mem s.buffer 2 = (m', b', .ok buf) ∧ buf.load m' = [1, 2] := by
  obtain ⟨m, hstart⟩ : ∃ m, Run smallPool true ⟨m, .empty, [], 0⟩ := ⟨_, .start (Pool.single_free _ _ _ ⟨fun _ => 0⟩)⟩
  have hlegal : ∀ s, Legal smallPool true s (.writeBytes [1, 2, 3, 4, 5]) := by
    intro s
    rw [Legal]
    decide
  obtain ⟨s, hs⟩ := (linked_buffer_fifo hstart).2.2.2.1 (.writeBytes [1, 2, 3, 4, 5]) (hlegal _)
  have hrun := hstart.call (hlegal _) hs
  obtain ⟨r, -, hr⟩ := Option.map_eq_some_iff.mp hs
  have hw : s.written = [1, 2, 3, 4, 5] := (congrArg State.written hr).symm
  have hc : s.consumed = 0 := (congrArg State.consumed hr).symm
  obtain ⟨-, hlen, -, -, hread⟩ := linked_buffer_fifo hrun
  rw [hw, hc] at hlen
  have hfront := ((hread 2 (by decide)).1 (by rw [hlen]; decide)).1
  rw [hw, hc] at hfront
  exact ⟨s, hrun, hw, hlen, hfront⟩

end ByteFifo

end Shmipc

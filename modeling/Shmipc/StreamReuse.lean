import Shmipc.StreamRun
import Shmipc.SlotHoard

namespace Shmipc

open ByteMemory LinkedBuffer

namespace LinkedBuffer

def KeepsSlot (b : LinkedBuffer) : Prop := b.len = 0 ∧ ∃ n, b.sliceList = [n] ∧ n.slice.isFromShm = true

theorem cleanPinnedList_list (bm : BufferManager) (m : Mem) (b : LinkedBuffer) :
    (cleanPinnedList bm m b).2.len = b.len ∧ (cleanPinnedList bm m b).2.sliceList = b.sliceList := by
  rw [cleanPinnedList]
  split_ifs
  · exact ⟨rfl, rfl⟩
  · exact ⟨rfl, rfl⟩

theorem reserveFront_list (m : Mem) (b : LinkedBuffer) :
    (reserveFront m b).2.len = b.len ∧
      ((reserveFront m b).2.len = 0 ∧ (reserveFront m b).2.sliceList.length = 1 ↔ b.KeepsSlot) := by
  rw [KeepsSlot, reserveFront]
  split
  · next n hs =>
    rw [hs]
    split_ifs with hlen hshm
    · exact ⟨rfl, fun _ => ⟨hlen, n, rfl, hshm⟩, fun _ => ⟨hlen, rfl⟩⟩
    · refine ⟨rfl, by rintro ⟨-, ⟨⟩⟩, ?_⟩
      rintro ⟨-, n', hn, hshm'⟩
      cases hn
      exact absurd hshm' hshm
    · exact ⟨rfl, fun h => absurd h.1 hlen, fun h => absurd h.1 hlen⟩
  · next hs =>
    refine ⟨rfl, ?_, ?_⟩
    · rintro ⟨-, hone⟩
      obtain ⟨n, hn⟩ := List.length_eq_one_iff.mp hone
      exact absurd hn (hs n)
    · rintro ⟨-, n, hn, -⟩
      exact absurd hn (hs n)

theorem releasePreviousReadAndReserve_list (bm : BufferManager) (m : Mem) (b : LinkedBuffer) :
    ∃ m' b', releasePreviousReadAndReserve bm m b = (m', b') ∧ b'.len = b.len ∧
      (b'.len = 0 ∧ b'.sliceList.length = 1 ↔ b.KeepsSlot) := by
  obtain ⟨hlen, hlist⟩ := cleanPinnedList_list bm m b
  obtain ⟨hlen', hkeeps⟩ := reserveFront_list (cleanPinnedList bm m b).1 (cleanPinnedList bm m b).2
  refine ⟨_, _, rfl, hlen'.trans hlen, hkeeps.trans ?_⟩
  rw [KeepsSlot, KeepsSlot, hlen, hlist]

end LinkedBuffer

namespace Stream

variable {bm : BufferManager} {ans : Answers} {P : Pool} {e room : Bool} {m m' : Mem} {free : ℕ → Prop} {s s' : Stream}
  {items : List Pending} {A : List ℕ}

theorem releaseReadAndReuse_cases (bm : BufferManager) (m : Mem) (s : Stream) :
    ∃ m' b', s.recvBuf.releasePreviousReadAndReserve bm m = (m', b') ∧ b'.len = s.recvBuf.len ∧
      (s.recvBuf.KeepsSlot ∧ s.releaseReadAndReuse bm m = (m', { s with recvBuf := s.sendBuf, sendBuf := b' }) ∨
        ¬ s.recvBuf.KeepsSlot ∧ s.releaseReadAndReuse bm m = (m', { s with recvBuf := b' })) := by
  obtain ⟨m', b', hrel, hlen, hkeeps⟩ := releasePreviousReadAndReserve_list bm m s.recvBuf
  refine ⟨m', b', hrel, hlen, ?_⟩
  rw [releaseReadAndReuse, hrel, ← hkeeps]
  by_cases hswap : b'.len = 0 ∧ b'.sliceList.length = 1
  · exact .inl ⟨hswap, if_pos hswap⟩
  · exact .inr ⟨hswap, if_neg hswap⟩

def Vacant (s : Stream) : Prop := s.sendBuf.len = 0 ∧ s.recvBuf.len = 0 ∧ s.pendingData = []

-- what `put_or_close_stream` and `reset` ask for, and room in the pool
def Reusable (room : Bool) (s : Stream) : Prop :=
  s.inFallbackState = false ∧ s.state = .opened ∧ s.recvBuf.len = 0 ∧ s.pendingData = [] ∧ room = true

theorem reset_cases (s : Stream) :
    (∃ err, s.reset = .error err) ∧ ¬ (s.state = .opened ∧ s.recvBuf.len = 0 ∧ s.pendingData = []) ∨
      s.reset = .ok { s with inFallbackState := false } ∧ s.state = .opened ∧ s.recvBuf.len = 0 ∧ s.pendingData = [] := by
  rw [reset]
  split_ifs with hstate hlen hpending
  · exact .inl ⟨⟨_, rfl⟩, fun h => hstate h.1⟩
  · exact .inl ⟨⟨_, rfl⟩, fun h => hlen.ne' h.2.1⟩
  · exact .inl ⟨⟨_, rfl⟩, fun h => List.ne_nil_of_length_pos hpending h.2.2⟩
  · exact .inr ⟨rfl, not_not.mp hstate, Nat.eq_zero_of_not_pos hlen, List.eq_nil_of_length_eq_zero (Nat.eq_zero_of_not_pos hpending)⟩

theorem putOrCloseStream_cases {placed : Placed} {sent : List Sent}
    (h : putOrCloseStream bm ans room m s = some (m', s', placed, sent)) :
    ¬ s.Reusable room ∧ placed = .closed ∨
      s.Reusable room ∧ placed = .pooled ∧ releaseReadAndReuse bm m { s with inFallbackState := false } = (m', s') := by
  have hclosed {m₁ : Mem} {s₁ : Stream}
      (h : (s₁.close bm ans m₁).map (fun r => (r.1, r.2.1, Placed.closed, r.2.2.2)) = some (m', s', placed, sent)) :
      placed = .closed := by
    obtain ⟨r, -, hr⟩ := Option.map_eq_some_iff.mp h
    cases hr
    rfl
  rw [putOrCloseStream] at h
  by_cases hfallback : s.inFallbackState = true
  · rw [if_pos hfallback] at h
    refine .inl ⟨fun hr => ?_, hclosed h⟩
    rw [hr.1] at hfallback
    cases hfallback
  rw [if_neg hfallback] at h
  rcases reset_cases s with ⟨⟨err, herr⟩, hnot⟩ | ⟨hok, hready⟩
  · rw [herr] at h
    exact .inl ⟨fun hr => hnot ⟨hr.2.1, hr.2.2.1, hr.2.2.2.1⟩, hclosed h⟩
  · rw [hok] at h
    simp only at h
    cases room with
    | true =>
      cases h
      exact .inr ⟨⟨Bool.eq_false_iff.mpr hfallback, hready.1, hready.2.1, hready.2.2, rfl⟩, rfl, rfl⟩
    | false =>
      refine .inl ⟨fun hr => ?_, hclosed h⟩
      cases hr.2.2.2.2

/-- Neither `reset` nor `release_read_and_reuse` looks at the bytes that wait in the send buffer. -/
theorem pooled_vacant_iff {placed : Placed} {sent : List Sent}
    (h : putOrCloseStream bm ans room m s = some (m', s', placed, sent)) :
    (placed = .pooled → s'.Vacant) ↔ (s.Reusable room → s.sendBuf.len = 0) := by
  rcases putOrCloseStream_cases h with ⟨hnot, rfl⟩ | ⟨hready, rfl, hrel⟩
  · exact ⟨fun _ hr => absurd hr hnot, by rintro - ⟨⟩⟩
  have hrecv : s.recvBuf.len = 0 := hready.2.2.1
  have hpending : s.pendingData = [] := hready.2.2.2.1
  obtain ⟨m₁, b₁, -, hlen, hcase⟩ := releaseReadAndReuse_cases bm m { s with inFallbackState := false }
  have hzero : b₁.len = 0 := hlen.trans hrecv
  rcases hcase with ⟨-, hcase⟩ | ⟨-, hcase⟩
  · cases hrel.symm.trans hcase
    exact ⟨fun hv _ => (hv rfl).2.1, fun hs _ => ⟨hzero, hs hready, hpending⟩⟩
  · cases hrel.symm.trans hcase
    exact ⟨fun hv _ => (hv rfl).1, fun hs _ => ⟨hs hready, hzero, hpending⟩⟩

theorem putOrCloseStream_empty (bm : BufferManager) (ans : Answers) (m : Mem) (s : Stream) (hrecv : s.recvBuf = .empty)
    (hring : s.inFallbackState = false) (hopen : s.state = .opened) (hpending : s.pendingData = []) :
    putOrCloseStream bm ans true m s = some (m, s, .pooled, []) := by
  obtain ⟨id, state, flag, recv, send, items⟩ := s
  obtain ⟨rfl, rfl, rfl, rfl⟩ : recv = .empty ∧ flag = false ∧ state = .opened ∧ items = [] := ⟨hrecv, hring, hopen, hpending⟩
  rfl

open Built (threeSlots threeMem)

-- three bytes are flushed, and the two of the peer, in the second slot, are read
def usedStream : Option (Mem × Stream) :=
  ((empty 1).writeBytes threeSlots.manager threeMem [1, 2, 3]).bind fun r =>
  (flush threeSlots.manager sending r.1 r.2).bind fun mine =>
  ((empty 1).writeBytes threeSlots.manager mine.1 [7, 8]).bind fun r =>
  (flush threeSlots.manager sending r.1 r.2).bind fun peer =>
  (fillDataToReadBuffer threeSlots.manager peer.1 mine.2.1 (.chain 60)).bind fun r =>
  (readBytes threeSlots.manager r.1 r.2 2).map fun r => (r.1, r.2.1)

theorem pooled_vacant_used : ∃ m s m' s' sent, usedStream = some (m, s) ∧ s.recvBuf.held = [60] ∧
    putOrCloseStream threeSlots.manager sending true m s = some (m', s', .pooled, sent) ∧ s'.sendBuf.held = [60] ∧ s'.Vacant := by
  have hcalls : usedStream.map (fun r => (r.2.recvBuf.held, r.2.sendBuf.len,
      (putOrCloseStream threeSlots.manager sending true r.1 r.2).map fun q => (q.2.2.1, q.2.1.sendBuf.held))) =
      some ([60], 0, some (.pooled, [60])) := by
    decide +kernel
  obtain ⟨⟨m, s⟩, hrun, hcalls⟩ := Option.map_eq_some_iff.mp hcalls
  obtain ⟨hrecv, hcalls⟩ := Prod.mk.inj hcalls
  obtain ⟨hsend, hcalls⟩ := Prod.mk.inj hcalls
  obtain ⟨⟨m', s', placed, sent⟩, hput, hcalls⟩ := Option.map_eq_some_iff.mp hcalls
  obtain ⟨rfl, hheld⟩ := Prod.mk.inj hcalls
  exact ⟨m, s, m', s', sent, hrun, hrecv, hput, hheld, (pooled_vacant_iff hput).mpr (fun _ => hsend) rfl⟩

theorem pooled_with_bytes : ∃ m s, Sending Built.threeSlots true m s [1, 2, 3] [] ∧
    putOrCloseStream Built.threeSlots.manager sending true m s = some (m, s, .pooled, []) ∧ s.sendBuf.len = 3 ∧
    ∃ m' s' sent A, flush Built.threeSlots.manager sending m s = some (m', s', .ok (), sent) ∧
      Conveys Built.threeSlots m' s.id sent A [1, 2, 3] := by
  obtain ⟨m₀, m, s, free₀, hfree, hwrite, -, hlen, hshm, hring, hopen⟩ := three_stream
  have hrun : Sending Built.threeSlots true m s _ [] := (Sending.start hfree rfl rfl).writeBytes hwrite
  obtain ⟨r, -, hr⟩ := Option.map_eq_some_iff.mp hwrite
  have hs : s = { Stream.empty 1 with sendBuf := r.2 } := (congrArg Prod.snd hr).symm
  have hput := putOrCloseStream_empty Built.threeSlots.manager sending m s (by rw [hs]; rfl) hring hopen (by rw [hs]; rfl)
  obtain ⟨-, free, data, hsend, hdata⟩ := sendable_of_sending hrun
  have hdata : [1, 2, 3] = data := hdata
  subst hdata
  have hpos : s.sendBuf.len ≠ 0 := by rw [hlen]; decide
  obtain ⟨m₁, hdone, -⟩ := hsend.done hpos
  have hflush : flush Built.threeSlots.manager sending m s = some (m₁, s.cleanSend, .ok (), [.element (s.element (streamCode s.state))]) :=
    flush_shared sending hpos hopen hdone hshm hring
  refine ⟨m, s, hrun, hput, hlen, ?_⟩
  cases flush_flushed hsend hopen hflush with
  | sent _ _ hmessage _ _ _ _ => exact ⟨m₁, _, _, _, hflush, hmessage.conveys⟩

-- what was in the send buffer is behind the call in the receive buffer, when the two change places
theorem Sound.reuse (h : Sound P e false m free s.recvBuf s.sendBuf s.pendingData A) :
    ∃ m' s', s.releaseReadAndReuse P.manager m = (m', s') ∧
      (s.recvBuf.KeepsSlot ∧ unreadOf m' s'.sendBuf.sliceList = [] ∧ unreadOf m s.recvBuf.sliceList = [] ∧
          unreadOf m' s'.recvBuf.sliceList = unreadOf m s.sendBuf.sliceList ∨
        ¬ s.recvBuf.KeepsSlot ∧ unreadOf m' s'.sendBuf.sliceList = unreadOf m s.sendBuf.sliceList ∧
          unreadOf m' s'.recvBuf.sliceList = unreadOf m s.recvBuf.sliceList) := by
  obtain ⟨m₁, free₁, b₁, hrel, -, hret⟩ := h.recvOpen.releasePreviousReadAndReserve
  have hC : ∀ a ∈ s.sendBuf.held, ¬ free a ∧ a ∉ s.recvBuf.held :=
    fun a ha => ⟨h.sendOpen.holds.owned a ha, fun hx => h.apart a hx ha⟩
  have hsend := h.sendOpen.toBase.unread_untouched (hret.frame.others hC).2
  obtain ⟨m', b', hrel', hlen, hcase⟩ := releaseReadAndReuse_cases P.manager m s
  cases hrel.symm.trans hrel'
  rcases hcase with ⟨hkeeps, hcase⟩ | ⟨hkeeps, hcase⟩
  · have hnil : unreadOf m s.recvBuf.sliceList = [] := by
      rw [← List.length_eq_zero_iff, unreadOf_length fun x hx => h.recvOpen.mem_slice hx, ← h.recvOpen.len]
      exact hkeeps.1
    exact ⟨_, _, hcase, .inl ⟨hkeeps, hret.unread.trans hnil, hnil, hsend⟩⟩
  · exact ⟨_, _, hcase, .inr ⟨hkeeps, hsend, hret.unread⟩⟩

theorem reuse_keeps_iff (h : Run P e false m s) (hcall : s.releaseReadAndReuse P.manager m = (m', s')) :
    unreadOf m' s'.sendBuf.sliceList = unreadOf m s.sendBuf.sliceList ∧
        unreadOf m' s'.recvBuf.sliceList = unreadOf m s.recvBuf.sliceList ↔
      (s.recvBuf.KeepsSlot → s.sendBuf.len = 0) := by
  obtain ⟨free, A, hs⟩ := soundAt_of_run h
  obtain ⟨m₁, s₁, hrel, hcase⟩ := hs.reuse
  cases hcall.symm.trans hrel
  rcases hcase with ⟨hkeeps, hsend', hrecv, hrecv'⟩ | ⟨hkeeps, hsend, hrecv⟩
  · rw [hsend', hrecv, hrecv', hs.sendOpen.len, ← unreadOf_length (fun x hx => hs.sendOpen.mem_slice hx) m,
      List.length_eq_zero_iff]
    exact ⟨fun h _ => h.2, fun h => ⟨(h hkeeps).symm, h hkeeps⟩⟩
  · exact ⟨fun _ hx => absurd hx hkeeps, fun _ => ⟨hsend, hrecv⟩⟩

theorem reuse_keeps_written : ∃ m s m' s', Run Built.threeSlots true false m s ∧ s.sendBuf.len = 3 ∧
    s.releaseReadAndReuse Built.threeSlots.manager m = (m', s') ∧
    unreadOf m' s'.sendBuf.sliceList = unreadOf m s.sendBuf.sliceList := by
  obtain ⟨m₀, m, s, free, hfree, hwrite, -, hlen, -, -, -⟩ := three_stream
  have hrun : Run Built.threeSlots true false m s := (Run.start 1 hfree).call (c := .writeBytes [1, 2, 3]) trivial hwrite
  obtain ⟨r, -, hr⟩ := Option.map_eq_some_iff.mp hwrite
  have hrecv : s.recvBuf = .empty := congrArg (fun r => r.2.recvBuf) hr.symm
  refine ⟨m, s, _, _, hrun, hlen, rfl, ((reuse_keeps_iff hrun rfl).mpr fun hkeeps => ?_).1⟩
  obtain ⟨-, n, hn, -⟩ := hkeeps
  rw [hrecv] at hn
  cases hn

theorem owns_empty {id : ℕ} {a : ℕ} : ¬ Owns P m (.empty id) a := by
  rintro (h | h | ⟨A, data, harrived, h⟩)
  · cases h
  · cases h
  · cases harrived
    cases h

section OneByte

open StreamExt (OneByte oneByte_start firstBuf)

open Built (threeSlots)

-- a message of one byte comes in and is read
theorem run_first {strict : Bool} (hfree : threeSlots.Free true m free) (h36 : ¬ free 36) (hfirst : OneByte m 36)
    (hused : strict = true → BufferHeader.isInUsed m 36 = true) :
    Run threeSlots true strict m { Stream.empty 1 with recvBuf := firstBuf } := by
  have harrived := Arrived.chain hfirst.chain .nil
  have hfilled : Run threeSlots true strict m { Stream.empty 1 with pendingData := [.chain 36] } :=
    (Run.start 1 hfree).fill hfree (fun a ha => absurd ha owns_empty) harrived (List.nodup_singleton 36)
      (fun a ha => ⟨List.mem_singleton.mp ha ▸ h36, owns_empty⟩) (fun hs a ha => List.mem_singleton.mp ha ▸ hused hs) rfl
  have hread : call threeSlots.manager m { Stream.empty 1 with pendingData := [.chain 36] } .read =
      some (m, { Stream.empty 1 with recvBuf := firstBuf }) := by
    rw [call, Stream.read, Stream.reading, if_pos (by decide), readMore, hfirst.moved hfree rfl]
    rfl
  exact hfilled.call (c := .read) trivial hread

theorem reuse_returns_written : ∃ m s m' s', Run threeSlots true false m s ∧ unreadOf m s.sendBuf.sliceList = [7] ∧
    s.releaseReadAndReuse threeSlots.manager m = (m', s') ∧ unreadOf m' s'.sendBuf.sliceList = [] ∧
    unreadOf m' s'.recvBuf.sliceList = [7] := by
  obtain ⟨m, free, hfree, ⟨h36, hfirst, -⟩, -⟩ := oneByte_start
  have hrun : Run threeSlots true false m _ := run_first hfree h36 hfirst (by rintro ⟨⟩)
  obtain ⟨m₁, free₁, b₁, hwrite, hwrote, -, -⟩ := writeBytes_puts (.empty hfree) (show ([7] : List UInt8).length < 4294967296 by decide)
  have hcall : call threeSlots.manager m { Stream.empty 1 with recvBuf := firstBuf } (.writeBytes [7]) =
      some (m₁, { Stream.empty 1 with recvBuf := firstBuf, sendBuf := b₁ }) := by
    change (LinkedBuffer.writeBytes threeSlots.manager m .empty [7]).map _ = _
    rw [hwrite]
    rfl
  have hrun := hrun.call (c := .writeBytes [7]) trivial hcall
  obtain ⟨free₂, A, hs⟩ := soundAt_of_run hrun
  obtain ⟨m₂, s₂, hrel, hcase⟩ := hs.reuse
  have hkeeps : firstBuf.KeepsSlot := ⟨rfl, _, rfl, rfl⟩
  rcases hcase with ⟨-, hsend, -, hrecv⟩ | ⟨hnot, -⟩
  · exact ⟨m₁, _, m₂, s₂, hrun, hwrote.unread, hrel, hsend, hrecv.trans hwrote.unread⟩
  · exact absurd hkeeps hnot

end OneByte

end Stream

end Shmipc

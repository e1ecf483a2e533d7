import Shmipc.FlushSends

namespace Shmipc

open ByteMemory LinkedBuffer

namespace Stream

def handleStreamMessage (bm : BufferManager) (m : Mem) (s : Stream) (wrapper : Pending) (state : ℕ) : Option (Mem × Stream) :=
  if state = streamCode .closed then some (m, s.halfClose) else s.fillDataToReadBuffer bm m wrapper

def handleElement (bm : BufferManager) (e : QueueElement) (m : Mem) (s : Stream) : Option (Mem × Stream) :=
  if e.seqId = s.id then s.handleStreamMessage bm m (.chain e.offsetInShmBuf) (e.status % 2 ^ 8) else some (m, s)

def receiver (bm : BufferManager) : ReadLoop.Handlers (Option (Mem × Stream)) where
  polling r := (none, r)
  fallbackData seqId status data r := (none, r.bind fun (m, s) =>
    if seqId = s.id then s.handleStreamMessage bm m (.fallback (fallbackSlice data)) status else some (m, s))
  streamClose id r := r.map fun (m, s) => (m, if id = s.id then s.halfClose else s)
  isClosed _ := false

def handleFrame (bm : BufferManager) (f : Frame) (m : Mem) (s : Stream) : Option (Mem × Stream) :=
  (ReadLoop.handleFrame (receiver bm) f (some (m, s))).2

variable {P : Pool} {e : Bool} {m m' : Mem} {free : ℕ → Prop} {s s' : Stream} {b : LinkedBuffer} {items : List Pending}
  {item : Pending} {A B : List ℕ} {data pend W : List UInt8} {ans : Answers} {ret : Result Unit} {sent : List Sent} {id cap : ℕ}

structure Stocked (P : Pool) (e : Bool) (m : Mem) (free : ℕ → Prop) (b : LinkedBuffer) (items : List Pending) (A : List ℕ)
    (data : List UInt8) : Prop where
  base : Base P e m free b
  len : b.len = sizeOf b.sliceList
  arrived : Arrived P m items A data
  distinct : A.Nodup
  owned : ∀ a ∈ A, ¬ free a ∧ a ∉ b.held

theorem Stocked.deliver (h : Stocked P e m free b items A data) (ha : Arrived P m [item] B pend) (hnd : B.Nodup)
    (hnew : ∀ a ∈ B, ¬ free a ∧ a ∉ b.held ∧ a ∉ A) : Stocked P e m free b (items ++ [item]) (A ++ B) (data ++ pend) where
  base := h.base
  len := h.len
  arrived := h.arrived.append ha
  distinct := h.distinct.append hnd fun a haA haB => (hnew a haB).2.2 haA
  owned a ha := by
    rcases List.mem_append.mp ha with ha | ha
    · exact h.owned a ha
    · exact ⟨(hnew a ha).1, (hnew a ha).2.1⟩

theorem Stocked.movePendingData (h : Stocked P e m free s.recvBuf s.pendingData A data) :
    ∃ m' s', movePendingData P.manager m s = some (m', s') ∧ s'.id = s.id ∧ s'.pendingData = [] ∧
      unreadOf m' s'.recvBuf.sliceList = unreadOf m s.recvBuf.sliceList ++ data := by
  obtain ⟨m', free', b', flag', hmove, hmoved, -⟩ :=
    moveAll_moves h.base h.len h.arrived h.distinct h.owned le_rfl s.inFallbackState
  refine ⟨m', { s with recvBuf := b', inFallbackState := flag', pendingData := [] }, ?_, rfl, rfl, hmoved.unread⟩
  rw [Stream.movePendingData, hmove]
  rfl

/-- Whatever the stream `id` of the peer holds by then, once the message is handled and moved it holds `data` behind that. -/
def Brings (P : Pool) (e : Bool) (m : Mem) (A : List ℕ) (id : ℕ) (handle : Mem → Stream → Option (Mem × Stream))
    (data : List UInt8) : Prop :=
  ∀ m₁ free r B pend, Stocked P e m₁ free r.recvBuf r.pendingData B pend → r.id = id → r.state ≠ .closed →
    Untouched P m m₁ A → (∀ a ∈ A, ¬ free a ∧ a ∉ r.recvBuf.held ∧ a ∉ B) →
    ∃ m₂ r₂ m₃ r₃, handle m₁ r = some (m₂, r₂) ∧ movePendingData P.manager m₂ r₂ = some (m₃, r₃) ∧ r₃.id = id ∧
      r₃.pendingData = [] ∧ unreadOf m₃ r₃.recvBuf.sliceList = unreadOf m₁ r.recvBuf.sliceList ++ (pend ++ data)

theorem brings_of_arrived {handle : Mem → Stream → Option (Mem × Stream)} (hf : P.Free e m free) (ha : Arrived P m [item] A data)
    (hnd : A.Nodup) (hhandle : ∀ m r, r.id = id → handle m r = r.fillDataToReadBuffer P.manager m item) : Brings P e m A id handle data := by
  intro m₁ free r B pend hr hid hstate hsame hown
  have ha₁ := ha.congr hf hsame
  have hr₁ := hr.deliver ha₁ hnd hown
  have hfill : r.fillDataToReadBuffer P.manager m₁ item = some (m₁, { r with pendingData := r.pendingData ++ [item] }) := by
    rw [fillDataToReadBuffer, if_neg hstate]
  obtain ⟨m₃, r₃, hmove, hid₃, hpending, hunread⟩ :=
    Stocked.movePendingData (s := { r with pendingData := r.pendingData ++ [item] }) hr₁
  exact ⟨m₁, _, m₃, r₃, (hhandle m₁ r hid).trans hfill, hmove, hid₃.trans hid, hpending, hunread⟩

/-- Messages of the stream `id` with the bytes `W`: a chain over the slots `H` of the send buffer, which are not free, or a
frame that fits the reader of the peer. -/
inductive Delivered (P : Pool) (e : Bool) (m : Mem) (free : ℕ → Prop) (id cap : ℕ) (H : List ℕ) (W : List UInt8) : List Sent → Prop
  | nothing : W = [] → Delivered P e m free id cap H W []
  | chain {el : QueueElement} : Chain P m el.offsetInShmBuf H → (∀ a ∈ H, ¬ free a) →
      Brings P e m H id (handleElement P.manager el) W → Delivered P e m free id cap H W [.element el]
  | frame {f : Frame} : (f.size ≤ cap → ReadLoop.Received cap f) → Brings P e m [] id (handleFrame P.manager f) W →
      Delivered P e m free id cap H W [.frame f]

def handleSent (bm : BufferManager) : Sent → Mem → Stream → Option (Mem × Stream)
  | .element el => handleElement bm el
  | .frame f => handleFrame bm f

def receive (bm : BufferManager) (sent : List Sent) (m : Mem) (s : Stream) : Option (Mem × Stream) :=
  (sent.foldlM (fun r x => handleSent bm x r.1 r.2) (m, s)).bind fun r => movePendingData bm r.1 r.2

theorem Brings.receive {H : List ℕ} {x : Sent} (h : Brings P e m H id (handleSent P.manager x) W) (hf : P.Free e m free)
    (hown : ∀ a ∈ H, ¬ free a) (hid : s.id = id) (hstate : s.state ≠ .closed) (hrecv : s.recvBuf = .empty)
    (hpending : s.pendingData = []) : ∃ m' s', receive P.manager [x] m s = some (m', s') ∧ s'.id = id ∧
      unreadOf m' s'.recvBuf.sliceList = W := by
  have hstocked : Stocked P e m free s.recvBuf s.pendingData [] [] := by
    rw [hrecv, hpending]
    exact ⟨(Sendable.start hf).toBase, rfl, .nil, List.nodup_nil, List.forall_mem_nil _⟩
  have hheld : s.recvBuf.held = [] := by
    rw [hrecv]
    rfl
  obtain ⟨m₂, r₂, m₃, r₃, hhandle, hmove, hid₃, -, hunread⟩ := h m free s [] [] hstocked hid hstate (fun _ _ _ _ => .refl m _ _) (by
    intro a ha
    exact ⟨hown a ha, by rw [hheld]; exact List.not_mem_nil, List.not_mem_nil⟩)
  refine ⟨m₃, r₃, ?_, hid₃, ?_⟩
  · rw [Stream.receive, List.foldlM_cons, hhandle]
    exact hmove
  · rw [hunread, hrecv]
    rfl

theorem Delivered.receive {H : List ℕ} (h : Delivered P e m free id cap H W sent) (hf : P.Free e m free) (hid : s.id = id)
    (hstate : s.state ≠ .closed) (hrecv : s.recvBuf = .empty) (hpending : s.pendingData = []) :
    ∃ m' s', receive P.manager sent m s = some (m', s') ∧ s'.id = id ∧ unreadOf m' s'.recvBuf.sliceList = W := by
  cases h with
  | nothing hW =>
    refine ⟨m, { s with pendingData := [] }, ?_, hid, ?_⟩
    · rw [Stream.receive, List.foldlM_nil]
      change Stream.movePendingData P.manager m s = _
      rw [Stream.movePendingData, hpending]
      rfl
    · rw [hrecv, hW]
      rfl
  | chain _ hown hbrings => exact hbrings.receive hf hown hid hstate hrecv hpending
  | frame _ hbrings => exact hbrings.receive hf (List.forall_mem_nil _) hid hstate hrecv hpending

theorem handleElement_fills {el : QueueElement} (h : Sent.filled id (.element el) = some item) (m : Mem) (hid : s.id = id) :
    handleElement P.manager el m s = s.fillDataToReadBuffer P.manager m item := by
  rw [Sent.filled] at h
  split_ifs at h with hfor
  cases h
  rw [handleElement, if_pos (hfor.1.trans hid.symm), handleStreamMessage, if_neg hfor.2]

theorem handleFrame_fills {f : Frame} (h : Sent.filled id (.frame f) = some item) (m : Mem) (hid : s.id = id) :
    handleFrame P.manager f m s = s.fillDataToReadBuffer P.manager m item := by
  cases f with
  | polling version => cases h
  | streamClose version k => cases h
  | fallbackData version seqId status payload =>
    rw [Sent.filled] at h
    split_ifs at h with hfor
    cases h
    change (if seqId = s.id then handleStreamMessage P.manager m s _ (status % 2 ^ 8) else some (m, s)) = _
    rw [if_pos (hfor.1.trans hid.symm), handleStreamMessage, if_neg hfor.2]

theorem Message.delivered {version : ℕ} {H : List ℕ} (h : Message P m version id sent A W) (hslots : A = [] ∨ A = H)
    (hf : P.Free e m free) (hown : ∀ a ∈ A, ¬ free a) (hnd : A.Nodup) (hver : version = 2 ∨ version = 3) (hid : id < 2 ^ 32)
    (cap : ℕ) : Delivered P e m free id cap H W sent := by
  have hconveys := h.conveys
  cases h with
  | nothing => exact .nothing rfl
  | @chain off A hchain =>
    have hne : A ≠ [] := by
      rintro rfl
      cases hchain
    obtain rfl := hslots.resolve_left hne
    have hfill : Sent.filled id (.element ⟨id, off, streamCode .opened⟩) = some (.chain off) := if_pos ⟨rfl, opened_status⟩
    rw [Conveys, List.filterMap_cons, hfill] at hconveys
    exact .chain hchain hown (brings_of_arrived hf hconveys hnd fun m r hr => handleElement_fills hfill m hr)
  | frame hlen =>
    have hfill : Sent.filled id (.frame (.fallbackData version id (streamCode .opened) W)) =
        some (.fallback (fallbackSlice W)) := if_pos ⟨rfl, opened_status⟩
    rw [Conveys, List.filterMap_cons, hfill] at hconveys
    exact .frame (ReadLoop.received_of_le ⟨hver, hid, by decide, by omega⟩)
      (brings_of_arrived hf hconveys hnd fun m r hr => handleFrame_fills hfill m hr)

inductive Composed (P : Pool) (e : Bool) : Mem → Stream → List UInt8 → Prop
  | start {m : Mem} {free : ℕ → Prop} {s : Stream} : P.Free e m free → s.sendBuf = .empty → s.state = .opened →
      Composed P e m s []
  | writeBytes {m m' : Mem} {s s' : Stream} {bytes W : List UInt8} : Composed P e m s W → 1 ≤ bytes.length →
      bytes.length < 4294967296 → s.writeBytes P.manager m bytes = some (m', s') → Composed P e m' s' (W ++ bytes)
  | reserve {m m' : Mem} {s : Stream} {b' : LinkedBuffer} {bytes W : List UInt8} : Composed P e m s W → 1 ≤ bytes.length →
      bytes.length < 4294967296 → reserveFill bytes (s.sendBuf.reserve P.manager m bytes.length) = some (m', b') →
      Composed P e m' { s with sendBuf := b' } (W ++ bytes)
  | flush {m m' : Mem} {s s' : Stream} {ans : Answers} {ret : Result Unit} {sent : List Sent} {W : List UInt8} :
      Composed P e m s W → s.flush P.manager ans m = some (m', s', ret, sent) → Composed P e m' s' []
  | others {m m' : Mem} {s : Stream} {free' : ℕ → Prop} {W : List UInt8} : Composed P e m s W → P.Free e m' free' →
      (∀ a ∈ s.sendBuf.held, ¬ free' a) → Untouched P m m' s.sendBuf.held → Composed P e m' s W

theorem sendable_of_composed (h : Composed P e m s W) : s.state = .opened ∧ ∃ free, Sendable P e m free s.sendBuf W := by
  induction h with
  | @start m free s hf hbuf hopen =>
    refine ⟨hopen, free, ?_⟩
    rw [hbuf]
    exact .start hf
  | writeBytes _ _ _ hcall ih =>
    obtain ⟨hopen, free, hs⟩ := ih
    obtain ⟨⟨m₁, b₁⟩, hwrite, hcall⟩ := Option.map_eq_some_iff.mp hcall
    cases hcall
    exact ⟨hopen, hs.writeBytes hwrite⟩
  | reserve _ hpos hlt hcall ih =>
    obtain ⟨hopen, free, hs⟩ := ih
    exact ⟨hopen, hs.reserve ⟨hlt, .inl hpos⟩ hcall⟩
  | flush _ hcall ih =>
    obtain ⟨hopen, free, hs⟩ := ih
    cases flush_flushed hs hopen hcall with
    | sent _ hstate _ _ _ _ hs' => exact ⟨hstate.trans hopen, _, hs'⟩
    | lost _ hstate hs' => exact ⟨hstate.trans hopen, _, hs'⟩
  | others _ hf hown hsame ih =>
    obtain ⟨hopen, free, hs⟩ := ih
    exact ⟨hopen, _, hs.others hf hown hsame⟩

theorem same_data (h : Composed P e m s W) (hver : ans.version = 2 ∨ ans.version = 3) (hid : s.id < 2 ^ 32)
    (hcall : flush P.manager ans m s = some (m', s', .ok (), sent)) (cap : ℕ) :
    ∃ free, P.Free e m' free ∧ Delivered P e m' free s.id cap s.sendBuf.held W sent ∧
      ∀ r : Stream, r.id = s.id → r.state ≠ .closed → r.recvBuf = .empty → r.pendingData = [] →
        ∃ m₁ r₁, receive P.manager sent m' r = some (m₁, r₁) ∧ r₁.id = s.id ∧ unreadOf m₁ r₁.recvBuf.sliceList = W := by
  obtain ⟨hopen, free, hs⟩ := sendable_of_composed h
  cases flush_flushed hs hopen hcall with
  | @sent _ free' _ _ _ _ _ hmessage hslots hown hnd hs' =>
    have hpool := hs'.holds.pool
    have hdelivered := hmessage.delivered hslots hpool hown hnd hver hid cap
    exact ⟨free', hpool, hdelivered, fun r => hdelivered.receive hpool⟩

open Built (threeSlots)

theorem same_data_three : ∃ m s m' s' sent free, s.sendBuf.len = 3 ∧
    flush threeSlots.manager sending m s = some (m', s', .ok (), sent) ∧
    Delivered threeSlots true m' free s.id 100 s.sendBuf.held [1, 2, 3] sent ∧
    ∃ m₁ r₁, receive threeSlots.manager sent m' (.empty 1) = some (m₁, r₁) ∧ unreadOf m₁ r₁.recvBuf.sliceList = [1, 2, 3] := by
  obtain ⟨m₀, m, s, free₀, hfree, hwrite, hid, hlen, hshm, hring, hopen⟩ := three_stream
  have hrun := (Composed.start hfree rfl rfl).writeBytes (by decide) (by decide) hwrite
  obtain ⟨-, free, hs⟩ := sendable_of_composed hrun
  have hpos : s.sendBuf.len ≠ 0 := by rw [hlen]; decide
  obtain ⟨m', hdone, -⟩ := hs.done hpos
  have hflush := flush_shared sending hpos hopen hdone hshm hring
  have hid' : s.id < 2 ^ 32 := by rw [hid]; decide
  obtain ⟨free, -, hdelivered, hreceive⟩ := same_data hrun (.inr rfl) hid' hflush 100
  obtain ⟨m₁, r₁, hr, -, hbytes⟩ := hreceive (.empty 1) hid.symm (by decide) rfl rfl
  exact ⟨m, s, m', _, _, free, hlen, hflush, hdelivered, m₁, r₁, hr, hbytes⟩

end Stream

end Shmipc

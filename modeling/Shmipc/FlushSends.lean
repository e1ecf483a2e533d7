import Shmipc.StreamReceive
import Shmipc.UnreadRemainder

namespace Shmipc

open ByteMemory LinkedBuffer

namespace Answers

def Full (ans : Answers) (i : ℕ) : Prop := ∃ err, ans.put i = .error err ∧ err.kind = .queueFull

/-- From the put number `i` on, the ring does not take the element within the ten retries, and the stream stays open. -/
def Refuses (ans : Answers) (k : ℕ) : Prop :=
  ∃ i, k ≤ i ∧ i ≤ 10 ∧ (∀ j, k ≤ j → j < i → ans.Full j ∧ ans.closed j = false) ∧
    ∃ err, ans.put i = .error err ∧ err.kind ≠ .streamClosed ∧ (i = 10 ∨ err.kind ≠ .queueFull)

variable {ans : Answers} {k : ℕ} {err : Error}

theorem not_refuses_of_ok {u : Unit} (h : ans.put k = .ok u) : ¬ ans.Refuses k := by
  rintro ⟨i, hle, -, hbefore, err, herr, -⟩
  rcases hle.eq_or_lt with rfl | hlt
  · rw [h] at herr
    cases herr
  · obtain ⟨⟨err', herr', -⟩, -⟩ := hbefore k le_rfl hlt
    rw [h] at herr'
    cases herr'

theorem refuses_of_error (h : ans.put k = .error err) (hfull : err.kind ≠ .queueFull) (hk : k ≤ 10) :
    ans.Refuses k ↔ err.kind ≠ .streamClosed := by
  constructor
  · rintro ⟨i, hle, -, hbefore, err', herr', hclosed, -⟩
    rcases hle.eq_or_lt with rfl | hlt
    · rw [h] at herr'
      cases herr'
      exact hclosed
    · obtain ⟨⟨err₁, herr₁, hfull₁⟩, -⟩ := hbefore k le_rfl hlt
      rw [h] at herr₁
      cases herr₁
      exact absurd hfull₁ hfull
  · intro hclosed
    exact ⟨k, le_rfl, hk, fun j hj hlt => absurd hj (not_le.mpr hlt), err, h, hclosed, .inr hfull⟩

theorem refuses_of_full (h : ans.put k = .error err) (hfull : err.kind = .queueFull) (hk : k ≤ 10) :
    ans.Refuses k ↔ k = 10 ∨ ans.closed k = false ∧ ans.Refuses (k + 1) := by
  constructor
  · rintro ⟨i, hle, hi, hbefore, hlast⟩
    rcases hle.eq_or_lt with rfl | hlt
    · obtain ⟨err', herr', -, hend⟩ := hlast
      rw [h] at herr'
      cases herr'
      rcases hend with hend | hend
      · exact .inl hend
      · exact absurd hfull hend
    · exact .inr ⟨(hbefore k le_rfl hlt).2, i, hlt, hi, fun j hj hji => hbefore j (by omega) hji, hlast⟩
  · rintro (rfl | ⟨hopen, i, hle, hi, hbefore, hlast⟩)
    · exact ⟨10, le_rfl, le_rfl, fun j hj hlt => absurd hj (not_le.mpr hlt), err, h, by rw [hfull]; rintro ⟨⟩, .inl rfl⟩
    · refine ⟨i, by omega, hi, fun j hj hji => ?_, hlast⟩
      rcases hj.eq_or_lt with rfl | hlt
      · exact ⟨⟨err, h, hfull⟩, hopen⟩
      · exact hbefore j hlt hji

end Answers

namespace Stream

variable {bm : BufferManager} {ans : Answers} {m m' : Mem} {s s' : Stream} {status : ℕ} {ret : Result Unit} {sent : List Sent}

inductive Ended (bm : BufferManager) (ans : Answers) (m : Mem) (s : Stream) (status : ℕ) (refused : Prop) :
    Mem × Stream × Result Unit × List Sent → Prop
  | put : ¬ refused → s.sendBuf.isFromShm = true →
      Ended bm ans m s status refused (m, s.cleanSend, .ok (), [.element (s.element status)])
  | sent : ¬ refused → s.sendBuf.len ≤ 4294967295 - 16 →
      Ended bm ans m s status refused
        ((recycleSend bm m s).1, s.cleanSend, .ok (), [.frame (fallbackFrame ans.version m s status)])
  | dropped {err : Error} : (err.kind ≠ .streamClosed ↔ refused) →
      Ended bm ans m s status refused ((recycleSend bm m s).1, s.cleanSend, .error err, [])

theorem flushRetry_ended {err : Error} {left retry : ℕ} (hshm : s.sendBuf.isFromShm = true) (hsum : retry + left = 10)
    (hput : ans.put retry = .error err) (hfull : err.kind = .queueFull) :
    Ended bm ans m s status (ans.Refuses retry) (flushRetry bm ans status left retry m s) := by
  induction left generalizing retry err with
  | zero =>
    rw [flushRetry]
    refine .dropped (iff_of_true (by rintro ⟨⟩) ?_)
    rw [Answers.refuses_of_full hput hfull (by omega)]
    exact .inl (by omega)
  | succ left ih =>
    have hiff := Answers.refuses_of_full hput hfull (show retry ≤ 10 by omega)
    have hne : ¬ retry = 10 := by omega
    rw [or_iff_right hne] at hiff
    rw [flushRetry]
    cases hclosed : ans.closed retry with
    | true =>
      rw [if_pos rfl]
      refine .dropped (iff_of_false (fun h => h rfl) ?_)
      rw [hiff, hclosed]
      rintro ⟨⟨⟩, -⟩
    | false =>
      rw [if_neg Bool.false_ne_true]
      rw [hclosed, eq_self, true_and] at hiff
      rw [hiff]
      cases hnext : ans.put (retry + 1) with
      | ok u => exact .put (Answers.not_refuses_of_ok hnext) hshm
      | error err' =>
        simp only
        split_ifs with hfull'
        · exact ih (by omega) hnext hfull'
        · exact .dropped (Answers.refuses_of_error hnext hfull' (by omega)).symm

theorem flushRing_ended (hshm : s.sendBuf.isFromShm = true) :
    Ended bm ans m s status (ans.Refuses 0) (flushRing bm ans m s status) := by
  rw [flushRing]
  cases hput : ans.put 0 with
  | ok u => exact .put (Answers.not_refuses_of_ok hput) hshm
  | error err =>
    simp only
    split_ifs with hfull
    · exact flushRetry_ended hshm rfl hput hfull
    · exact .dropped (Answers.refuses_of_error hput hfull (Nat.zero_le _)).symm

def Unsent (ans : Answers) (len : ℕ) : Prop :=
  len > 4294967295 - 16 ∨ ∃ err, ans.waitForSend = .error err ∧ err.kind ≠ .streamClosed

theorem writeFallback_ended (h : writeFallback bm ans m s status = (m', s', ret, sent)) :
    Ended bm ans m s status (Unsent ans s.sendBuf.len) (m', s'.cleanSend, ret, sent) := by
  rw [writeFallback] at h
  split_ifs at h with hlen
  · cases h
    exact .dropped (iff_of_true (by rintro ⟨⟩) (.inl hlen))
  · cases hsend : ans.waitForSend with
    | ok u =>
      simp only [hsend] at h
      cases h
      refine .sent ?_ (not_lt.mp hlen)
      rintro (hlong | ⟨err, herr, -⟩)
      · exact hlen hlong
      · rw [hsend] at herr
        cases herr
    | error err =>
      simp only [hsend] at h
      cases h
      refine .dropped ⟨fun hne => .inr ⟨err, hsend, hne⟩, ?_⟩
      rintro (hlong | ⟨err', herr, hne⟩)
      · exact absurd hlong hlen
      · rw [hsend] at herr
        cases herr
        exact hne

theorem flushDone_ended {refused : Prop}
    (href : refused ↔ if s.inFallbackState = true ∨ s.sendBuf.isFromShm = false then Unsent ans s.sendBuf.len
      else ans.Refuses 0) :
    ∃ flag, Ended bm ans m { s with inFallbackState := flag } status refused (flushDone bm ans m s status) := by
  rw [flushDone]
  by_cases hshm : s.sendBuf.isFromShm = true
  · rw [if_pos hshm]
    refine ⟨s.inFallbackState, ?_⟩
    by_cases hback : s.inFallbackState = true
    · rw [if_pos hback]
      rw [if_pos (.inl hback)] at href
      rw [href]
      exact writeFallback_ended rfl
    · rw [if_neg hback]
      rw [if_neg (by rw [hshm]; simpa using hback)] at href
      rw [href]
      exact flushRing_ended hshm
  · rw [if_neg hshm, if_pos rfl]
    rw [if_pos (.inr (Bool.eq_false_iff.mpr hshm))] at href
    rw [href]
    exact ⟨true, writeFallback_ended rfl⟩

def Failing (ans : Answers) (s : Stream) : Prop :=
  s.sendBuf.len ≠ 0 ∧ s.state = .opened ∧
    if s.inFallbackState = true ∨ s.sendBuf.isFromShm = false then Unsent ans s.sendBuf.len else ans.Refuses 0

theorem done_fields {b b' : LinkedBuffer} (h : b.done bm m = some (m', b')) : b'.len = b.len ∧ b'.isFromShm = b.isFromShm ∧
    b'.pinnedList = b.pinnedList := by
  rw [LinkedBuffer.done] at h
  split_ifs at h
  · split at h
    · cases h
      exact ⟨rfl, rfl, rfl⟩
    · rw [dropUnused] at h
      obtain ⟨node, -, h⟩ := Option.map_eq_some_iff.mp h
      cases h
      exact ⟨rfl, rfl, rfl⟩
  · cases h
    exact ⟨rfl, rfl, rfl⟩

inductive Outcome (bm : BufferManager) (ans : Answers) (m : Mem) (s : Stream) : Mem × Stream × Result Unit × List Sent → Prop
  | idle : s.sendBuf.len = 0 → Outcome bm ans m s (m, s, .ok (), [])
  | closed {err : Error} : s.state ≠ .opened → err.kind = .streamClosed →
      Outcome bm ans m s ((recycleSend bm m s).1, s.cleanSend, .error err, [])
  | ended {m₁ : Mem} {b₁ : LinkedBuffer} {flag : Bool} {r : Mem × Stream × Result Unit × List Sent} : s.sendBuf.len ≠ 0 →
      s.state = .opened → s.sendBuf.done bm m = some (m₁, b₁) →
      Ended bm ans m₁ { s with sendBuf := b₁, inFallbackState := flag } (streamCode .opened) (Failing ans s) r →
      Outcome bm ans m s r

theorem flush_outcome {r : Mem × Stream × Result Unit × List Sent} (h : flush bm ans m s = some r) : Outcome bm ans m s r := by
  rw [flush] at h
  split_ifs at h with hzero hstate
  · cases h
    exact .idle hzero
  · cases h
    exact .closed hstate rfl
  · rw [not_not] at hstate
    obtain ⟨⟨m₁, b₁⟩, hdone, h⟩ := Option.map_eq_some_iff.mp h
    obtain ⟨hlen, hshm, -⟩ := done_fields hdone
    have hfailing : Failing ans s ↔
        if s.inFallbackState = true ∨ s.sendBuf.isFromShm = false then Unsent ans s.sendBuf.len else ans.Refuses 0 :=
      ⟨fun hf => hf.2.2, fun hf => ⟨hzero, hstate, hf⟩⟩
    have hcode : streamCode s.state = streamCode .opened := congrArg streamCode hstate
    rw [← h, hcode]
    rw [← hlen, ← hshm] at hfailing
    obtain ⟨flag, hended⟩ := flushDone_ended (s := { s with sendBuf := b₁ }) hfailing
    exact .ended hzero hstate hdone hended

end Stream

namespace LinkedBuffer

variable {P : Pool} {e : Bool} {m m' : Mem} {free free' : ℕ → Prop} {b b' : LinkedBuffer} {data bytes : List UInt8}

structure Sendable (P : Pool) (e : Bool) (m : Mem) (free : ℕ → Prop) (b : LinkedBuffer) (data : List UInt8) : Prop
    extends Partly P e m free b where
  fresh : ∀ x ∈ b.sliceList, AtStart x.slice
  unpinned : b.pinnedList = []
  unread : unreadOf m b.sliceList = data

namespace Sendable

theorem cleared (h : Open P e m free b.cleared) (hpinned : b.pinnedList = []) : Sendable P e m free b.cleared [] where
  toOpen := h
  starts := List.forall_mem_nil _
  tail := List.forall_mem_nil _
  unlinked := by
    rw [held, nodes, LinkedBuffer.cleared, hpinned]
    exact List.forall_mem_nil _
  back _ := rfl
  fresh := List.forall_mem_nil _
  unpinned := hpinned
  unread := rfl

theorem start (h : P.Free e m free) : Sendable P e m free .empty [] :=
  cleared (b := .empty) (Reserving.open_start h) rfl

theorem wrote (h : Sendable P e m free b data) (hb : Partly P e m' free' b') (hw : Wrote P e m free b bytes m' free' b') :
    Sendable P e m' free' b' (data ++ bytes) where
  toPartly := hb
  fresh := hw.starts h.fresh
  unpinned := hw.pinned.1.trans h.unpinned
  unread := by rw [hw.unread, h.unread]

theorem writeBytes (h : Sendable P e m free b data) (hcall : LinkedBuffer.writeBytes P.manager m b bytes = some (m', b')) :
    ∃ free', Sendable P e m' free' b' (data ++ bytes) := by
  obtain ⟨free', hb, hw⟩ := h.toPartly.writeBytes hcall
  exact ⟨free', h.wrote hb hw⟩

theorem reserve (h : Sendable P e m free b data) (hfits : Fits P.manager m b bytes.length)
    (hcall : reserveFill bytes (LinkedBuffer.reserve P.manager m b bytes.length) = some (m', b')) :
    ∃ free', Sendable P e m' free' b' (data ++ bytes) := by
  obtain ⟨free', hb, hw⟩ := h.toPartly.reserve hfits hcall
  exact ⟨free', h.wrote hb hw⟩

theorem others (h : Sendable P e m free b data) (hf : P.Free e m' free') (hown : ∀ a ∈ b.held, ¬ free' a)
    (hsame : Untouched P m m' b.held) : Sendable P e m' free' b data where
  toPartly := h.toPartly.others hf hown hsame
  fresh := h.fresh
  unpinned := h.unpinned
  unread := by rw [h.toBase.unread_untouched hsame, h.unread]

theorem length (h : Sendable P e m free b data) : data.length = b.len := by
  rw [← h.unread, unreadOf_length fun x hx => h.mem_slice hx, h.len]

theorem done (h : Sendable P e m free b data) (hpos : b.len ≠ 0) :
    ∃ m₁, LinkedBuffer.done P.manager m b = some (m₁, b) ∧ Open P e m₁ free b ∧
      Stream.fallbackPayload m₁ b.write b.sliceList = data ∧
      (b.isFromShm = true → Chain P m₁ b.rootBufOffset b.held ∧ chainBytes m₁ b.held = data) := by
  have hheld : b.held = heldBy b.sliceList := by rw [held, nodes, h.unpinned, List.append_nil]
  obtain ⟨m₁, hdone, hopen, hsent, hchain⟩ := h.toPartly.done hpos
  replace hsent := (hsent.trans (sentOf_unread (fun x hx => (h.fresh x hx).2) m)).trans h.unread
  refine ⟨m₁, hdone, hopen, ?_, fun hshm => ?_⟩
  · rw [hopen.fallbackPayload, hsent]
  · obtain ⟨hlinks, hbytes⟩ := hchain hshm
    rw [hheld]
    exact ⟨hlinks, hbytes.trans hsent⟩

end Sendable

end LinkedBuffer

theorem opened_status : streamCode .opened % 2 ^ 8 ≠ streamCode .closed := by decide

def Sent.filled (id : ℕ) : Sent → Option Pending
  | .element e => if e.seqId = id ∧ e.status % 2 ^ 8 ≠ streamCode .closed then some (.chain e.offsetInShmBuf) else none
  | .frame (.fallbackData _ seqId status payload) =>
    if seqId = id ∧ status % 2 ^ 8 ≠ streamCode .closed then some (.fallback (fallbackSlice payload)) else none
  | .frame _ => none

def Conveys (P : Pool) (m : Mem) (id : ℕ) (sent : List Sent) (A : List ℕ) (data : List UInt8) : Prop :=
  Arrived P m (sent.filterMap (Sent.filled id)) A data

namespace Stream

variable {P : Pool} {e : Bool} {ans : Answers} {m m' : Mem} {free : ℕ → Prop} {s s' : Stream} {ret : Result Unit}
  {sent : List Sent} {data bytes W S : List UInt8} {A : List ℕ}

inductive Message (P : Pool) (m : Mem) (version id : ℕ) : List Sent → List ℕ → List UInt8 → Prop
  | nothing : Message P m version id [] [] []
  | chain {off : ℕ} {A : List ℕ} : Chain P m off A →
      Message P m version id [.element ⟨id, off, streamCode .opened⟩] A (chainBytes m A)
  | frame {data : List UInt8} : data.length ≤ 4294967295 - 16 →
      Message P m version id [.frame (.fallbackData version id (streamCode .opened) data)] [] data

theorem Message.conveys {version id : ℕ} (h : Message P m version id sent A data) : Conveys P m id sent A data := by
  cases h with
  | nothing => exact .nil
  | chain hchain =>
    have hone := Arrived.chain hchain .nil
    rw [List.append_nil, List.append_nil] at hone
    rw [Conveys, List.filterMap_cons, Sent.filled, if_pos ⟨rfl, opened_status⟩]
    exact hone
  | frame hlen =>
    have hone : Arrived P m [.fallback (fallbackSlice data)] [] (data ++ []) := .fallback (by omega) .nil
    rw [List.append_nil] at hone
    rw [Conveys, List.filterMap_cons, Sent.filled, if_pos ⟨rfl, opened_status⟩]
    exact hone

inductive Flushed (P : Pool) (e : Bool) (ans : Answers) (s : Stream) (data : List UInt8) :
    Mem × Stream × Result Unit × List Sent → Prop
  | sent {m : Mem} {free : ℕ → Prop} {s' : Stream} {sent : List Sent} {A : List ℕ} : ¬ Failing ans s → s'.state = s.state →
      Message P m ans.version s.id sent A data → A = [] ∨ A = s.sendBuf.held → (∀ a ∈ A, ¬ free a) → A.Nodup →
      Sendable P e m free s'.sendBuf [] → Flushed P e ans s data (m, s', .ok (), sent)
  | lost {m : Mem} {free : ℕ → Prop} {s' : Stream} {err : Error} : (err.kind ≠ .streamClosed ↔ Failing ans s) →
      s'.state = s.state → Sendable P e m free s'.sendBuf [] → Flushed P e ans s data (m, s', .error err, [])

theorem flush_flushed (h : Sendable P e m free s.sendBuf data) (hopen : s.state = .opened)
    (hcall : flush P.manager ans m s = some (m', s', ret, sent)) : Flushed P e ans s data (m', s', ret, sent) := by
  cases flush_outcome hcall with
  | idle hzero =>
    have hnil : data = [] := List.eq_nil_of_length_eq_zero (h.length.trans hzero)
    rw [hnil] at h ⊢
    exact .sent (fun hf => hf.1 hzero) rfl .nothing (.inl rfl) (List.forall_mem_nil _) List.nodup_nil h
  | closed hstate _ => exact absurd hopen hstate
  | ended hpos _ hdone hended =>
    obtain ⟨m₁, hdone₁, hb, hpayload, hchain⟩ := h.done hpos
    cases hdone.symm.trans hdone₁
    obtain ⟨m₂, free₂, hrec, hvalid, -⟩ := recycle_spec hb.toBase
    have hrecycled : Sendable P e m₂ free₂ s.sendBuf.cleared [] := .cleared (.of_valid hvalid) h.unpinned
    cases hended with
    | put hok hshm =>
      obtain ⟨hlinks, hbytes⟩ := hchain hshm
      have hmessage := @Message.chain P _ ans.version s.id _ _ hlinks
      rw [hbytes] at hmessage
      exact .sent hok rfl hmessage (.inr rfl) hb.holds.owned hb.holds.distinct (.cleared hb.clean h.unpinned)
    | sent hok hle =>
      have hlen : data.length ≤ 4294967295 - 16 := h.length.trans_le hle
      rw [recycleSend, hrec, fallbackFrame, hpayload]
      exact .sent hok rfl (.frame hlen) (.inl rfl) (List.forall_mem_nil _) List.nodup_nil hrecycled
    | dropped hiff =>
      rw [recycleSend, hrec]
      exact .lost hiff rfl hrecycled

theorem flush_returns (h : Sendable P e m free s.sendBuf data) (ans : Answers) : ∃ r, flush P.manager ans m s = some r := by
  rw [flush]
  split_ifs with hzero
  · exact ⟨_, rfl⟩
  · exact ⟨_, rfl⟩
  · obtain ⟨m₁, hdone, -⟩ := h.done hzero
    rw [hdone]
    exact ⟨_, rfl⟩

inductive Sending (P : Pool) (e : Bool) : Mem → Stream → List UInt8 → List UInt8 → Prop
  | start {m : Mem} {free : ℕ → Prop} {s : Stream} : P.Free e m free → s.sendBuf = .empty → s.state = .opened →
      Sending P e m s [] []
  | writeBytes {m m' : Mem} {s s' : Stream} {bytes W S : List UInt8} : Sending P e m s W S →
      s.writeBytes P.manager m bytes = some (m', s') → Sending P e m' s' (W ++ bytes) S
  | flush {m m' : Mem} {s s' : Stream} {ans : Answers} {ret : Result Unit} {sent : List Sent} {A : List ℕ}
      {data W S : List UInt8} : Sending P e m s W S → ¬ Failing ans s → s.flush P.manager ans m = some (m', s', ret, sent) →
      (∀ err, ret = .error err → err.kind ≠ .streamClosed) → Conveys P m' s.id sent A data → Sending P e m' s' W (S ++ data)
  | others {m m' : Mem} {s : Stream} {free' : ℕ → Prop} {W S : List UInt8} : Sending P e m s W S → P.Free e m' free' →
      (∀ a ∈ s.sendBuf.held, ¬ free' a) → Untouched P m m' s.sendBuf.held → Sending P e m' s W S

theorem sendable_of_sending (h : Sending P e m s W S) :
    s.state = .opened ∧ ∃ free data, Sendable P e m free s.sendBuf data ∧ W = S ++ data := by
  induction h with
  | @start m free s hf hbuf hopen =>
    refine ⟨hopen, free, [], ?_, rfl⟩
    rw [hbuf]
    exact .start hf
  | writeBytes _ hcall ih =>
    obtain ⟨hopen, free, data, hs, rfl⟩ := ih
    obtain ⟨⟨m₁, b₁⟩, hwrite, hcall⟩ := Option.map_eq_some_iff.mp hcall
    cases hcall
    obtain ⟨free', hs'⟩ := hs.writeBytes hwrite
    exact ⟨hopen, free', _, hs', List.append_assoc _ _ _⟩
  | flush _ hok hcall hret hconveys ih =>
    obtain ⟨hopen, free, data, hs, rfl⟩ := ih
    cases flush_flushed hs hopen hcall with
    | sent _ hstate hmessage _ _ _ hs' =>
      obtain ⟨-, rfl⟩ := hconveys.unique hmessage.conveys
      exact ⟨hstate.trans hopen, _, [], hs', (List.append_nil _).symm⟩
    | lost hiff => exact absurd (hiff.mp (hret _ rfl)) hok
  | others _ hf hown hsame ih =>
    obtain ⟨hopen, free, data, hs, rfl⟩ := ih
    exact ⟨hopen, _, data, hs.others hf hown hsame, rfl⟩

def KeepsUnsent (m : Mem) (s : Stream) : Mem × Stream × Result Unit × List Sent → Prop
  | (m', s', ret, _) => ∀ err, ret = .error err → err.kind ≠ .streamClosed →
      s'.sendBuf.len = s.sendBuf.len ∧ unreadOf m' s'.sendBuf.sliceList = unreadOf m s.sendBuf.sliceList

theorem keepsUnsent_iff {bm : BufferManager} {r : Mem × Stream × Result Unit × List Sent} (h : Outcome bm ans m s r) :
    KeepsUnsent m s r ↔ ¬ Failing ans s := by
  cases h with
  | idle hzero => exact iff_of_true (by rintro _ ⟨⟩) fun hf => hf.1 hzero
  | closed hstate hkind =>
    refine iff_of_true ?_ fun hf => hstate hf.2.1
    rintro _ ⟨⟩ hne
    exact absurd hkind hne
  | ended hpos _ _ hended =>
    cases hended with
    | put hok _ => exact iff_of_true (by rintro _ ⟨⟩) hok
    | sent hok _ => exact iff_of_true (by rintro _ ⟨⟩) hok
    | dropped hiff =>
      rw [← hiff]
      constructor
      · intro hkeeps hne
        exact hpos (hkeeps _ rfl hne).1.symm
      · rintro hclosed _ ⟨⟩ hne
        exact absurd hne hclosed

/-- Every error of an open stream empties the send buffer. A flush that follows says `ok` and sends nothing. -/
theorem flush_keeps_iff (bm : BufferManager) (ans : Answers) (m : Mem) (s : Stream) :
    (∀ r, flush bm ans m s = some r → (KeepsUnsent m s r ↔ ¬ Failing ans s)) ∧
    ∀ (P : Pool) (e : Bool) (W S : List UInt8), P.manager = bm → Sending P e m s W S →
      ∃ m' s' ret sent, flush bm ans m s = some (m', s', ret, sent) ∧
        (ret = .ok () → s'.sendBuf.len = 0 ∧ ∃ A data, Conveys P m' s.id sent A data ∧ W = S ++ data) ∧
        (Failing ans s → sent = [] ∧ W ≠ S ∧ ∀ ans', flush bm ans' m' s' = some (m', s', .ok (), [])) := by
  refine ⟨fun r hr => keepsUnsent_iff (flush_outcome hr), ?_⟩
  rintro P e W S rfl hrun
  obtain ⟨hopen, free, data, hs, rfl⟩ := sendable_of_sending hrun
  obtain ⟨⟨m', s', ret, sent⟩, hcall⟩ := flush_returns hs ans
  refine ⟨m', s', ret, sent, hcall, ?_⟩
  cases flush_flushed hs hopen hcall with
  | sent hok _ hmessage _ _ _ hs' =>
    exact ⟨fun _ => ⟨hs'.length.symm, _, data, hmessage.conveys, rfl⟩, fun hf => absurd hf hok⟩
  | lost _ _ hs' =>
    refine ⟨by rintro ⟨⟩, fun hf => ⟨rfl, fun hW => hf.1 ?_, fun ans' => ?_⟩⟩
    · rw [← hs.length, List.append_right_eq_self.mp hW]
      rfl
    · have hzero : s'.sendBuf.len = 0 := hs'.length.symm
      rw [flush, if_pos hzero]

-- a buffer of shared slots goes to the ring
theorem flush_shared {bm : BufferManager} {m₁ : Mem} (ans : Answers) (hpos : s.sendBuf.len ≠ 0) (hopen : s.state = .opened)
    (hdone : s.sendBuf.done bm m = some (m₁, s.sendBuf)) (hshm : s.sendBuf.isFromShm = true) (hring : s.inFallbackState = false) :
    flush bm ans m s = some (flushRing bm ans m₁ s (streamCode s.state)) := by
  rw [flush, if_neg hpos, if_neg (not_not.mpr hopen), hdone, Option.map_some, flushDone, if_pos hshm]
  exact congrArg some (if_neg (Bool.eq_false_iff.mp hring))

open Built (threeSlots)

theorem three_stream : ∃ m m₁ s free, threeSlots.Free true m free ∧
    (Stream.empty 1).writeBytes threeSlots.manager m [1, 2, 3] = some (m₁, s) ∧ s.id = 1 ∧ s.sendBuf.len = 3 ∧
    s.sendBuf.isFromShm = true ∧ s.inFallbackState = false ∧ s.state = .opened := by
  obtain ⟨m, hwrite, -⟩ := three_written
  have hcall := congrArg (Option.map fun r => (r.1, { Stream.empty 1 with sendBuf := r.2 })) hwrite
  exact ⟨_, m, _, _, Built.threeMem_free, hcall, rfl, rfl, rfl, rfl, rfl⟩

theorem flush_keeps_sent : ∃ m s r, s.sendBuf.len = 3 ∧ flush threeSlots.manager sending m s = some r ∧ KeepsUnsent m s r := by
  obtain ⟨m, m₁, s, free, hfree, hwrite, -, hlen, hshm, hring, -⟩ := three_stream
  have hrun : Sending threeSlots true m₁ s _ [] := (Sending.start hfree rfl rfl).writeBytes hwrite
  obtain ⟨-, free', data, hs, -⟩ := sendable_of_sending hrun
  obtain ⟨r, hr⟩ := flush_returns hs sending
  refine ⟨m₁, s, r, hlen, hr, ((flush_keeps_iff threeSlots.manager sending m₁ s).1 r hr).mpr fun hf => ?_⟩
  have hrefuses := hf.2.2
  rw [hring, hshm, if_neg (by decide)] at hrefuses
  exact Answers.not_refuses_of_ok rfl hrefuses

def ringFull : Answers := { sending with put := fun _ => .error (.ofKind .queueFull) }

theorem flush_loses : ∃ m s m' s' err, Sending threeSlots true m s [1, 2, 3] [] ∧
    flush threeSlots.manager ringFull m s = some (m', s', .error err, []) ∧ err.kind = .queueFull ∧ s'.sendBuf.len = 0 ∧
    flush threeSlots.manager sending m' s' = some (m', s', .ok (), []) := by
  obtain ⟨m₀, m, s, free₀, hfree, hwrite, -, hlen, hshm, hring, hopen⟩ := three_stream
  have hrun : Sending threeSlots true m s _ [] := (Sending.start hfree rfl rfl).writeBytes hwrite
  obtain ⟨-, free, data, hs, -⟩ := sendable_of_sending hrun
  have hpos : s.sendBuf.len ≠ 0 := by rw [hlen]; decide
  obtain ⟨m₁, hdone, -⟩ := hs.done hpos
  have hfull : flush threeSlots.manager ringFull m s = some ((recycleSend threeSlots.manager m₁ s).1, s.cleanSend,
      .error (.ofKind .queueFull), []) := flush_shared ringFull hpos hopen hdone hshm hring
  exact ⟨m, s, _, _, _, hrun, hfull, rfl, rfl, rfl⟩

end Stream

end Shmipc

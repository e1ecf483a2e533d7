import Shmipc.ReadLoop

namespace Shmipc

namespace Frame

def msgType : Frame → EventType
  | polling _ => .polling
  | streamClose _ _ => .streamClose
  | fallbackData _ _ _ _ => .fallbackData

def body : Frame → List UInt8
  | polling _ => []
  | streamClose _ id => storeBe32 id
  | fallbackData _ seqId status payload => storeBe32 seqId ++ storeBe32 status ++ payload

theorem encode_eq (f : Frame) : f.encode = Header.encode f.size f.version f.msgType ++ f.body := by
  cases f with
  | polling v => rfl
  | streamClose v id => rfl
  | fallbackData v seqId status payload => simp only [encode, size, version, msgType, body, List.append_assoc]

theorem size_eq (f : Frame) : f.size = 8 + f.body.length := by
  rw [← encode_length, encode_eq, List.length_append, Header.encode_length]

variable {f : Frame}

theorem Valid.version_lt (h : f.Valid) : f.version ≠ 0 ∧ f.version < 256 := by
  cases f <;> simp only [Valid] at h <;> simp only [version] <;> omega

theorem Valid.size_lt (h : f.Valid) : f.size < 2 ^ 32 := by
  cases f <;> simp only [Valid, size] at h ⊢ <;> omega

end Frame

namespace ReadLoop

variable {σ : Type} {H : Handlers σ} {f : Frame} {fs : List Frame} {s : σ} {fuel c : ℕ} {buf tail : List UInt8}
  {ls : List ℕ}

def handleFrame (H : Handlers σ) : Frame → σ → Option Error × σ
  | .polling _, s => H.polling s
  | .streamClose _ id, s => (none, H.streamClose id s)
  | .fallbackData _ seqId status payload, s => H.fallbackData seqId (status % 2 ^ 8) payload s

def handleAll (H : Handlers σ) : List Frame → σ → Outcome σ
  | [], s => .failed BufReader.invalidEof s
  | f :: fs, s =>
    match handleFrame H f s with
    | (some err, s) => .failed err s
    | (none, s) => handleAll H fs s

def encodeAll (fs : List Frame) : List UInt8 := fs.flatMap Frame.encode

theorem handleAll_ne_next (fs : List Frame) (s : σ) (st : LoopState σ) : handleAll H fs s ≠ .next st := by
  induction fs generalizing s with
  | nil => simp [handleAll]
  | cons f fs ih =>
    rw [handleAll]
    split
    · simp
    · exact ih _

theorem handleEvent_header {l v : ℕ} {t : EventType} (hl : l < 2 ^ 32) (hv : v ≠ 0 ∧ v < 256) (b : List UInt8) :
    handleEvent H (Header.encode l v t ++ b) s =
      match some t with
      | some .polling => some (handlePolling H s)
      | some .streamClose => some (handleStreamClose H b s)
      | some .fallbackData => handleFallbackData H l b s
      | _ => some (invalidEvent (.ofKind .invalidMsgType) s) := by
  rw [handleEvent, Header.checkEventValid_encode hv.1 hv.2, Header.msgType_encode, Header.length_encode hl]
  rfl

theorem payloadLen_payload {payload : List UInt8} (h : payload.length + 16 < 2 ^ 32) :
    payloadLen (payload.length + 16) = payload.length + 8 := by
  rw [payloadLen_eq (by omega) h]
  omega

theorem handleEvent_complete (hf : f.Valid) (rest : List UInt8) :
    ∃ ls, handleEvent H (f.encode ++ rest) s =
      some ⟨f.size, kHeaderSize, false, (handleFrame H f s).1, (handleFrame H f s).2, ls⟩ := by
  rw [Frame.encode_eq, List.append_assoc, handleEvent_header hf.size_lt hf.version_lt]
  cases f with
  | polling v => exact ⟨[], rfl⟩
  | streamClose v id =>
    refine ⟨[], ?_⟩
    simp only [Frame.msgType, Frame.body, handleStreamClose, List.length_append, storeBe32_length]
    rw [if_neg (by rw [kIdLen]; omega), loadBe32_storeBe32 id hf.2]
    rfl
  | fallbackData v seqId status payload =>
    refine ⟨[payload.length + 16], ?_⟩
    have hlen := payloadLen_payload hf.2.2.2
    simp only [Frame.msgType, Frame.body, Frame.size, handleFallbackData, hlen, List.length_append, storeBe32_length,
      List.append_assoc]
    rw [if_neg (by omega), if_neg (by rw [kFallbackDataHeader]; omega), loadBe32_storeBe32 seqId hf.2.1]
    have hstatus : (storeBe32 seqId ++ (storeBe32 status ++ (payload ++ rest))).drop 4 =
        storeBe32 status ++ (payload ++ rest) := rfl
    have hdata : ((storeBe32 seqId ++ (storeBe32 status ++ (payload ++ rest))).take (payload.length + 8)).drop
        kFallbackDataHeader = payload := by
      rw [List.drop_take]
      have hdrop : (storeBe32 seqId ++ (storeBe32 status ++ (payload ++ rest))).drop kFallbackDataHeader =
          payload ++ rest := rfl
      rw [hdrop, kFallbackDataHeader, Nat.add_sub_cancel, List.take_left]
    rw [hstatus, loadBe32_storeBe32 status hf.2.2.1, hdata]
    rfl

theorem handleEvent_partial (hf : f.Valid) {p q : List UInt8} (hp : p ++ q = f.encode) (h8 : 8 ≤ p.length)
    (hlt : p.length < f.size) : ∃ ls, handleEvent H p s = some ⟨0, f.size, true, none, s, ls⟩ := by
  obtain ⟨b, rfl⟩ : ∃ b, p = Header.encode f.size f.version f.msgType ++ b := by
    rw [Frame.encode_eq] at hp
    refine ⟨p.drop 8, ?_⟩
    have htake := congrArg (List.take 8) hp
    rw [List.take_append_of_le_length h8, List.take_left' (Header.encode_length _ _ _)] at htake
    rw [← htake, List.take_append_drop]
  rw [handleEvent_header hf.size_lt hf.version_lt]
  rw [List.length_append, Header.encode_length] at hlt
  cases f with
  | polling v =>
    simp only [Frame.size] at hlt
    omega
  | streamClose v id =>
    refine ⟨[], ?_⟩
    simp only [Frame.msgType, Frame.size, handleStreamClose] at hlt ⊢
    rw [if_pos (by rw [kIdLen]; omega)]
    rfl
  | fallbackData v seqId status payload =>
    refine ⟨[payload.length + 16], ?_⟩
    have hlen := payloadLen_payload hf.2.2.2
    simp only [Frame.msgType, Frame.size, handleFallbackData, hlen] at hlt ⊢
    rw [if_pos (by omega)]

inductive Decoded (H : Handlers σ) (fs : List Frame) (s : σ) (buf tail : List UInt8) (res : EventResult σ) : Prop
  | failed (err : Error) : res.err = some err → handleAll H fs s = .failed err res.state → Decoded H fs s buf tail res
  | stopped (rest : List Frame) : res.err = none → handleAll H fs s = handleAll H rest res.state →
      (∀ f ∈ rest, f ∈ fs) → res.consumed ≤ buf.length → buf.drop res.consumed ++ tail = encodeAll rest →
      buf.length - res.consumed < res.required → (∀ g gs, rest = g :: gs → res.required ≤ g.size) →
      Decoded H fs s buf tail res

theorem encode_split {more : List UInt8} (hpre : buf.drop c ++ tail = f.encode ++ more) (hlt : buf.length - c < f.size) :
    ∃ q, buf.drop c ++ q = f.encode := by
  refine ⟨f.encode.drop (buf.length - c), ?_⟩
  have htake := congrArg (List.take (buf.length - c)) hpre
  rw [List.take_left' List.length_drop, List.take_append_of_le_length (by rw [f.encode_length]; omega)] at htake
  rw [htake, List.take_append_drop]

theorem handleEvents_short (hf : f.Valid) {more : List UInt8} (hpre : buf.drop c ++ tail = f.encode ++ more)
    (hlt : buf.length - c < f.size) (hfuel : buf.length - c ≤ fuel) (s : σ) (ls : List ℕ) :
    ∃ res, handleEvents H fuel buf c s ls = some res ∧ res.err = none ∧ res.consumed = c ∧ res.state = s ∧
      buf.length - c < res.required ∧ res.required ≤ f.size := by
  have hsize := f.size_eq
  by_cases hshort : buf.length - c < 8
  · refine ⟨⟨c, kHeaderSize, none, s, ls⟩, ?_, rfl, rfl, rfl, hshort, ?_⟩
    · cases fuel with
      | zero => rfl
      | succ fuel => rw [handleEvents, if_neg (by rw [kHeaderSize]; omega)]
    · change 8 ≤ f.size
      omega
  obtain ⟨fuel, rfl⟩ : ∃ n, fuel = n + 1 := Nat.exists_eq_succ_of_ne_zero (by omega)
  have hlen : (buf.drop c).length = buf.length - c := List.length_drop
  obtain ⟨q, hq⟩ := encode_split hpre hlt
  obtain ⟨ls', hev⟩ := handleEvent_partial (H := H) (s := s) hf hq (by omega) (by omega)
  rw [handleEvents, if_pos (by rw [kHeaderSize]; omega), hev]
  exact ⟨⟨c, f.size, none, s, ls ++ ls'⟩, rfl, rfl, rfl, rfl, hlt, le_rfl⟩

theorem handleEvents_frames (hv : ∀ f ∈ fs, f.Valid) (hpre : buf.drop c ++ tail = encodeAll fs) (hc : c ≤ buf.length)
    (hfuel : buf.length - c ≤ fuel) :
    ∃ res, handleEvents H fuel buf c s ls = some res ∧ Decoded H fs s buf tail res := by
  induction fs generalizing c s ls fuel with
  | nil =>
    have hnil : buf.drop c = [] := (List.append_eq_nil_iff.mp hpre).1
    have hlen : buf.length - c = 0 := by rw [← List.length_drop, hnil, List.length_nil]
    refine ⟨⟨c, kHeaderSize, none, s, ls⟩, ?_, .stopped [] rfl rfl (by simp) hc hpre ?_ (by simp)⟩
    · cases fuel with
      | zero => rfl
      | succ fuel => rw [handleEvents, if_neg (by rw [kHeaderSize]; omega)]
    · rw [kHeaderSize]
      simp only
      omega
  | cons f fs ih =>
    have hf := hv f List.mem_cons_self
    have hsize := f.size_eq
    have hlen : (buf.drop c).length = buf.length - c := List.length_drop
    have hpre' : buf.drop c ++ tail = f.encode ++ encodeAll fs := hpre
    by_cases hall : f.size ≤ buf.length - c
    · -- the whole frame is in the buffer
      obtain ⟨fuel, rfl⟩ : ∃ n, fuel = n + 1 := Nat.exists_eq_succ_of_ne_zero (by omega)
      rw [handleEvents, if_pos (by rw [kHeaderSize]; omega)]
      obtain ⟨rest, hrest⟩ : ∃ rest, buf.drop c = f.encode ++ rest := by
        refine ⟨(buf.drop c).drop f.size, ?_⟩
        have htake := congrArg (List.take f.size) hpre'
        rw [List.take_append_of_le_length (hlen ▸ hall), List.take_left' f.encode_length] at htake
        rw [← htake, List.take_append_drop]
      obtain ⟨ls', hev⟩ := handleEvent_complete (H := H) (s := s) hf rest
      rw [hrest, hev]
      have hnext : buf.drop (c + f.size) = rest := by
        rw [← List.drop_drop, hrest, List.drop_left' f.encode_length]
      have hall' : handleAll H (f :: fs) s = match handleFrame H f s with
        | (some err, s) => .failed err s
        | (none, s) => handleAll H fs s := rfl
      cases hfr : handleFrame H f s with
      | mk err s' =>
        rw [hfr] at hall'
        cases err with
        | some err => exact ⟨_, rfl, .failed err rfl hall'⟩
        | none =>
          have htail : rest ++ tail = encodeAll fs := by
            rw [hrest, List.append_assoc] at hpre'
            exact List.append_cancel_left hpre'
          have hfuel' : buf.length - (c + f.size) ≤ fuel := by omega
          obtain ⟨res, hres, hdec⟩ := ih (fun g hg => hv g (List.mem_cons_of_mem f hg)) (hnext ▸ htail) (by omega) hfuel'
          refine ⟨res, hres, ?_⟩
          cases hdec with
          | failed err he ha => exact .failed err he (hall'.trans ha)
          | stopped rest he ha hsub hle hdrop hreq hg =>
            exact .stopped rest he (hall'.trans ha) (fun g hg => List.mem_cons_of_mem f (hsub g hg)) hle hdrop hreq hg
    · obtain ⟨res, hres, herr, hcons, hstate, hreq, hle⟩ := handleEvents_short hf hpre' (not_le.mp hall) hfuel s ls
      refine ⟨res, hres, .stopped (f :: fs) herr (by rw [hstate]) (fun _ h => h) ?_ ?_ ?_ ?_⟩
      · rw [hcons]
        exact hc
      · rw [hcons]
        exact hpre
      · rw [hcons]
        exact hreq
      · rintro g gs hg
        obtain ⟨rfl, -⟩ := List.cons.inj hg
        exact hle

/-- At the start of a turn the unread bytes are those of `fs`, and the loop asks for more than it has
but not for more than the first frame. -/
structure AtFrames (cap : ℕ) (fs : List Frame) (st : LoopState σ) : Prop where
  ok : st.reader.Ok
  cap_eq : st.reader.cap = cap
  clean : Fd.Clean st.fd
  stream : st.reader.buffer ++ Fd.bytes st.fd = encodeAll fs
  short : st.reader.buffer.length < st.len
  first : ∀ g gs, fs = g :: gs → st.len ≤ g.size

variable {cap : ℕ} {st : LoopState σ}

theorem AtFrames.turn (h : AtFrames cap fs st) (hopen : ∀ s, H.isClosed s = false)
    (hv : ∀ f ∈ fs, f.Valid ∧ f.size ≤ cap) :
    turn H st = handleAll H fs st.state ∨
      ∃ rest st', turn H st = .next st' ∧ AtFrames cap rest st' ∧ (∀ f ∈ rest, f ∈ fs) ∧
        handleAll H fs st.state = handleAll H rest st'.state ∧ (Fd.bytes st'.fd).length < (Fd.bytes st.fd).length := by
  have hfill := BufReader.fillBufAtLeast_fills h.ok st.fd (Nat.zero_lt_of_lt h.short)
  rw [ReadLoop.turn]
  revert hfill
  generalize BufReader.fillBufAtLeast st.reader st.fd st.len = res
  obtain ⟨res, r, fd⟩ := res
  intro hfill
  simp only [hopen, Bool.false_eq_true, if_false]
  cases res with
  | error err =>
    left
    cases fs with
    | nil => rw [hfill.eof h.clean err rfl, handleAll]
    | cons f fs =>
      have hsize := h.first f fs rfl
      have hmany : f.size ≤ (encodeAll (f :: fs)).length := by
        rw [encodeAll, List.flatMap_cons, List.length_append, f.encode_length]
        omega
      have hcap : st.len ≤ st.reader.cap := by
        rw [h.cap_eq]
        exact hsize.trans (hv f List.mem_cons_self).2
      obtain ⟨v, hok⟩ := hfill.succeeds h.clean hcap (by rw [h.stream]; omega)
      cases hok
  | ok view =>
    obtain ⟨hview, hlen⟩ := hfill.view view rfl
    have hstream : view.drop 0 ++ Fd.bytes fd = encodeAll fs := by
      rw [List.drop_zero, hview, hfill.conserve, h.stream]
    obtain ⟨ev, hev, hdec⟩ : ∃ ev, handleEvents H view.length view 0 st.state [] = some ev ∧
        Decoded H fs st.state view (Fd.bytes fd) ev :=
      handleEvents_frames (fun f hf => (hv f hf).1) hstream (Nat.zero_le _) le_rfl
    simp only [hev]
    cases hdec with
    | failed err he ha =>
      left
      rw [ha]
      simp only [afterEvents, he, hopen, Bool.false_eq_true, if_false]
    | stopped rest he ha hsub hle hdrop hreq hfirst =>
      right
      refine ⟨rest, _, by simp only [afterEvents, he]; rfl, ⟨hfill.ok.consume _, hfill.cap.trans h.cap_eq,
        hfill.clean h.clean, ?_, ?_, hfirst⟩, hsub, ha, hfill.took h.short⟩
      · rw [BufReader.consume_buffer, ← hview]
        exact hdrop
      · rw [BufReader.consume_buffer, ← hview, List.length_drop]
        exact hreq

theorem AtFrames.readLoop (h : AtFrames cap fs st) (hopen : ∀ s, H.isClosed s = false)
    (hv : ∀ f ∈ fs, f.Valid ∧ f.size ≤ cap) (hfuel : (Fd.bytes st.fd).length < fuel) :
    readLoop H fuel st = some (handleAll H fs st.state) := by
  induction fuel generalizing fs st with
  | zero => cases hfuel
  | succ fuel ih =>
    rw [ReadLoop.readLoop]
    rcases h.turn hopen hv with hend | ⟨rest, st', hnext, hat, hsub, hsame, hless⟩
    · rw [hend]
      cases hall : handleAll H fs st.state with
      | next st' => exact absurd hall (handleAll_ne_next fs st.state st')
      | _ => rfl
    · rw [hnext, hsame]
      exact ih hat (fun f hf => hv f (hsub f hf)) (by omega)

theorem AtFrames.oversize (h : AtFrames cap (f :: fs) st) (hopen : ∀ s, H.isClosed s = false) (hf : f.Valid) (hbig : cap < f.size)
    (hfuel : (Fd.bytes st.fd).length < fuel) : ReadLoop.readLoop H fuel st = some (.failed BufReader.invalidEof st.state) := by
  induction fuel generalizing st with
  | zero => cases hfuel
  | succ fuel ih =>
    have hfill := BufReader.fillBufAtLeast_fills h.ok st.fd (Nat.zero_lt_of_lt h.short)
    rw [ReadLoop.readLoop, ReadLoop.turn]
    revert hfill
    generalize BufReader.fillBufAtLeast st.reader st.fd st.len = res
    obtain ⟨res, r, fd⟩ := res
    intro hfill
    simp only [hopen, Bool.false_eq_true, if_false]
    cases res with
    | error err => rw [hfill.eof h.clean err rfl]
    | ok view =>
      obtain ⟨hview, hlen⟩ := hfill.view view rfl
      have hstream : view.drop 0 ++ Fd.bytes fd = f.encode ++ encodeAll fs := by
        rw [List.drop_zero, hview, hfill.conserve, h.stream]
        rfl
      have hroom : view.length ≤ cap := by
        have hle := hfill.ok.len_le
        rw [hfill.cap, h.cap_eq] at hle
        rw [hview, BufReader.buffer, List.length_drop]
        simp only at hle ⊢
        omega
      obtain ⟨ev, hev, herr, hcons, hstate, hreq, hle⟩ := handleEvents_short (H := H) hf hstream (by omega)
        (show view.length - 0 ≤ view.length by omega) st.state []
      simp only [hev, afterEvents, herr]
      rw [← hstate]
      refine ih ⟨hfill.ok.consume _, hfill.cap.trans h.cap_eq, hfill.clean h.clean, ?_, ?_, ?_⟩ ?_
      · rw [BufReader.consume_buffer, hcons, ← hview]
        exact hstream
      · rw [BufReader.consume_buffer, hcons, ← hview, List.length_drop]
        exact hreq
      · intro g gs hg
        obtain ⟨rfl, -⟩ := List.cons.inj hg
        exact hle
      · have htook := hfill.took h.short
        simp only at htook ⊢
        omega

section Pieces

variable {pieces : List (List UInt8)} (hp : pieces.flatten = encodeAll fs)
include hp

theorem bytes_pieces : Fd.bytes (pieces.map .bytes) = encodeAll fs := by
  rw [← hp, Fd.bytes, List.flatMap_map, List.flatten_eq_flatMap]
  rfl

theorem start_atFrames (hne : ∀ p ∈ pieces, p ≠ []) (s : σ) : AtFrames cap fs (start cap (pieces.map .bytes) s) := by
  refine ⟨start_ok cap, rfl, ?_, bytes_pieces hp, ?_, ?_⟩
  · intro c hc
    obtain ⟨p, hpm, rfl⟩ := List.mem_map.mp hc
    cases p with
    | nil => exact absurd rfl (hne [] hpm)
    | cons b bs => exact ⟨b, bs, rfl⟩
  · change 0 < 8
    omega
  · intro g gs _
    change 8 ≤ g.size
    rw [g.size_eq]
    omega

end Pieces

theorem frames_decoded (H : Handlers σ) (hopen : ∀ s, H.isClosed s = false) (cap : ℕ) (fs : List Frame)
    (hv : ∀ f ∈ fs, f.Valid ∧ f.size ≤ cap) (pieces : List (List UInt8)) (hne : ∀ p ∈ pieces, p ≠ [])
    (hp : pieces.flatten = encodeAll fs) (s : σ) (fuel : ℕ) (hfuel : (encodeAll fs).length < fuel) :
    readLoop H fuel (start cap (pieces.map .bytes) s) = some (handleAll H fs s) := by
  apply (start_atFrames hp hne s).readLoop hopen hv
  change (Fd.bytes (pieces.map .bytes)).length < fuel
  rw [bytes_pieces hp]
  exact hfuel

def recorder : Handlers (List (ℕ × ℕ × List UInt8)) where
  polling s := (none, s ++ [(0, 0, [])])
  fallbackData seqId status data s := (none, s ++ [(seqId, status, data)])
  streamClose id s := s ++ [(id, 0, [])]
  isClosed _ := false

theorem frames_decoded_split :
    readLoop recorder 48 (start 32 ([[0, 0, 0, 8, 0x77], [0x58, 3, 1, 0, 0, 0, 18, 0x77, 0x58, 3, 3, 0, 0, 0, 5, 0, 0, 1],
      [0, 65, 66, 0, 0, 0, 12, 0x77, 0x58, 3, 2, 0, 0, 1], [7]].map .bytes) []) =
      some (.failed BufReader.invalidEof [(0, 0, []), (5, 0, [65, 66]), (263, 0, [])]) := by
  refine frames_decoded recorder (fun _ => rfl) 32 [.polling 3, .fallbackData 3 5 256 [65, 66], .streamClose 3 263] ?_ _
    ?_ ?_ [] 48 ?_
  · simp [Frame.Valid, Frame.size]
  · decide
  · decide
  · decide

end ReadLoop

end Shmipc

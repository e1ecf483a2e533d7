import Shmipc.ReadLoop

namespace Shmipc.ReadLoop

variable {σ : Type} {H : Handlers σ} {cap fuel c k : ℕ} {s : σ} {p q buf tail : List UInt8} {ls : List ℕ}

inductive Event
  | polling
  | streamClose
  | fallbackData (length : ℕ)
deriving DecidableEq

def Event.size : Event → ℕ
  | polling => 8
  | streamClose => 12
  | fallbackData length => length

def eventAt (p : List UInt8) : Result Event :=
  match checkEventValid p with
  | .error err => .error err
  | .ok () =>
    match Header.msgType p with
    | some .polling => .ok .polling
    | some .streamClose => .ok .streamClose
    | some .fallbackData => .ok (.fallbackData (Header.length p))
    | _ => .error (.ofKind .invalidMsgType)

def Event.Sound : Event → Prop
  | polling | streamClose => True
  | fallbackData length => 16 ≤ length

inductive Malformed (cap : ℕ) : List UInt8 → Prop
  | underflow {p : List UInt8} {l : ℕ} : 8 ≤ cap → 8 ≤ p.length → eventAt p = .ok (.fallbackData l) → l < 8 →
      Malformed cap p
  | inverted {p : List UInt8} {l : ℕ} : eventAt p = .ok (.fallbackData l) → 8 ≤ l → l < 16 → l ≤ cap →
      l ≤ p.length → Malformed cap p
  | later {p : List UInt8} {e : Event} : eventAt p = .ok e → 8 ≤ e.size → e.size ≤ cap → e.size ≤ p.length →
      Malformed cap (p.drop e.size) → Malformed cap p

def Reports (H : Handlers σ) (err : Error) : Prop :=
  ∃ s, (H.polling s).1 = some err ∨ ∃ seqId status data, (H.fallbackData seqId status data s).1 = some err

inductive Walk : List UInt8 → ℕ → Prop
  | done (p : List UInt8) : Walk p 0
  | frame {p : List UInt8} {e : Event} {k : ℕ} : eventAt p = .ok e → 8 ≤ e.size → e.Sound → e.size ≤ p.length →
      Walk (p.drop e.size) k → Walk p (e.size + k)

inductive Halts (H : Handlers σ) (c : ℕ) (q : List UInt8) : Option (EventResult σ) → Prop
  | waits (res : EventResult σ) : res.err = none → res.consumed = c → q.length < res.required →
      (∀ e, eventAt q = .ok e → 8 ≤ q.length → res.required = e.size) → (q.length < 8 → res.required = 8) →
      (∀ l ∈ res.lengths, 8 ≤ l) → Halts H c q (some res)
  | errs (res : EventResult σ) (err : Error) : res.err = some err → c + 8 ≤ res.consumed →
      res.consumed ≤ c + q.length → (eventAt q = .error err ∨ Reports H err) → (∀ l ∈ res.lengths, 8 ≤ l) →
      Halts H c q (some res)
  | underflow (l : ℕ) (o : Option (EventResult σ)) : 8 ≤ q.length → eventAt q = .ok (.fallbackData l) → l < 8 →
      (∀ res, o = some res → l ∈ res.lengths) → Halts H c q o
  | inverted (l : ℕ) : eventAt q = .ok (.fallbackData l) → 8 ≤ l → l < 16 → l ≤ q.length → Halts H c q none

theorem loadBe32_lt (p : List UInt8) : loadBe32 p < 2 ^ 32 := by
  have h0 := (p.getD 0 0).toNat_lt
  have h1 := (p.getD 1 0).toNat_lt
  have h2 := (p.getD 2 0).toNat_lt
  have h3 := (p.getD 3 0).toNat_lt
  simp only [loadBe32]
  omega

theorem eventAt_length_lt {l : ℕ} (h : eventAt p = .ok (.fallbackData l)) : l < 2 ^ 32 := by
  unfold eventAt at h
  split at h
  · cases h
  · split at h <;> simp only [Except.ok.injEq, reduceCtorEq, Event.fallbackData.injEq] at h
    rw [← h]
    exact loadBe32_lt p

-- the header decides
theorem eventAt_append (h : 8 ≤ p.length) (q : List UInt8) : eventAt (p ++ q) = eventAt p := by
  have hget : ∀ i, i < 8 → (p ++ q).getD i 0 = p.getD i 0 := by
    intro i hi
    simp only [List.getD_eq_getElem?_getD]
    rw [List.getElem?_append_left (by omega)]
  have hlen : Header.length (p ++ q) = Header.length p := by
    simp only [Header.length, loadBe32, hget 0 (by omega), hget 1 (by omega), hget 2 (by omega), hget 3 (by omega)]
  have hmagic : Header.magic (p ++ q) = Header.magic p := by
    simp only [Header.magic, loadBe16, List.getD_eq_getElem?_getD, List.getElem?_drop]
    rw [List.getElem?_append_left (by omega), List.getElem?_append_left (by omega)]
  have hversion : Header.version (p ++ q) = Header.version p := by
    simp only [Header.version, hget 6 (by omega)]
  have htype : Header.msgType (p ++ q) = Header.msgType p := by
    simp only [Header.msgType, hget 7 (by omega)]
  simp only [eventAt, checkEventValid, hlen, hmagic, hversion, htype]

theorem handleEvent_eq (H : Handlers σ) (p : List UInt8) (s : σ) :
    handleEvent H p s = match eventAt p with
      | .error err => some (invalidEvent err s)
      | .ok .polling => some (handlePolling H s)
      | .ok .streamClose => some (handleStreamClose H (p.drop kHeaderSize) s)
      | .ok (.fallbackData l) => handleFallbackData H l (p.drop kHeaderSize) s := by
  rw [handleEvent, eventAt]
  cases checkEventValid p with
  | error err => rfl
  | ok u =>
    cases Header.msgType p with
    | none => rfl
    | some t => cases t <;> rfl

theorem walk_malformed (hw : Walk p k) (hcap : p.length ≤ cap) (tail : List UInt8) :
    Malformed cap (p ++ tail) ↔ Malformed cap (p.drop k ++ tail) := by
  induction hw with
  | done p => rw [List.drop_zero]
  | @frame p e k he h8 hsound hsize hw ih =>
    have happ : eventAt (p ++ tail) = .ok e := by rw [eventAt_append (by omega), he]
    have hlen : p.length ≤ (p ++ tail).length := by simp
    have hdrop : (p ++ tail).drop e.size = p.drop e.size ++ tail := List.drop_append_of_le_length hsize
    have hrest : (p.drop e.size).length ≤ cap := by
      rw [List.length_drop]
      omega
    rw [← List.drop_drop, ← ih hrest, ← hdrop]
    constructor
    · intro hm
      cases hm with
      | @underflow _ l _ _ hev hl =>
        rw [happ] at hev
        cases hev
        simp only [Event.size] at h8
        omega
      | @inverted _ l hev _ hl _ _ =>
        rw [happ] at hev
        cases hev
        simp only [Event.Sound] at hsound
        omega
      | later hev _ _ _ hm =>
        rw [happ] at hev
        cases hev
        exact hm
    · intro hm
      exact .later happ h8 (hsize.trans hcap) (hsize.trans hlen) hm

def proceed (H : Handlers σ) (fuel : ℕ) (buf : List UInt8) (c : ℕ) (ls : List ℕ) :
    Option (HandlerResult σ) → Option (EventResult σ)
  | none => none
  | some hr =>
    match hr.err with
    | some err => some ⟨c + hr.consumed, kHeaderSize, some err, hr.state, ls ++ hr.lengths⟩
    | none =>
      if hr.stop then some ⟨c + hr.consumed, hr.required, none, hr.state, ls ++ hr.lengths⟩
      else handleEvents H fuel buf (c + hr.consumed) hr.state (ls ++ hr.lengths)

theorem handleEvents_succ (H : Handlers σ) (fuel : ℕ) (buf : List UInt8) (c : ℕ) (s : σ) (ls : List ℕ) :
    handleEvents H (fuel + 1) buf c s ls =
      if buf.length - c ≥ kHeaderSize then proceed H fuel buf c ls (handleEvent H (buf.drop c) s)
      else some ⟨c, kHeaderSize, none, s, ls⟩ := by
  rw [handleEvents]
  cases handleEvent H (buf.drop c) s <;> rfl

theorem handleEvents_lengths {res : EventResult σ} (h : handleEvents H fuel buf c s ls = some res) {l : ℕ}
    (hl : l ∈ ls) : l ∈ res.lengths := by
  induction fuel generalizing c s ls with
  | zero =>
    simp only [handleEvents, Option.some.injEq] at h
    rw [← h]
    exact hl
  | succ fuel ih =>
    rw [handleEvents] at h
    split at h
    · split at h
      · cases h
      · split at h
        · obtain rfl := Option.some.inj h
          exact List.mem_append_left _ hl
        · split at h
          · obtain rfl := Option.some.inj h
            exact List.mem_append_left _ hl
          · exact ih h (List.mem_append_left _ hl)
    · obtain rfl := Option.some.inj h
      exact hl

def HaltsFrom (H : Handlers σ) (buf : List UInt8) (c : ℕ) (o : Option (EventResult σ)) : Prop :=
  ∃ k, Walk (buf.drop c) k ∧ c + k ≤ buf.length ∧ Halts H (c + k) (buf.drop (c + k)) o

theorem HaltsFrom.here {o : Option (EventResult σ)} (hc : c ≤ buf.length) (h : Halts H c (buf.drop c) o) :
    HaltsFrom H buf c o := ⟨0, .done _, hc, h⟩

theorem HaltsFrom.frame {e : Event} {o : Option (EventResult σ)} (he : eventAt (buf.drop c) = .ok e) (h8 : 8 ≤ e.size)
    (hs : e.Sound) (hsize : e.size ≤ (buf.drop c).length) (h : HaltsFrom H buf (c + e.size) o) :
    HaltsFrom H buf c o := by
  obtain ⟨k, hw, hle, hh⟩ := h
  rw [← List.drop_drop] at hw
  rw [Nat.add_assoc] at hle hh
  exact ⟨e.size + k, .frame he h8 hs hsize hw, hle, hh⟩

theorem halts_short (hls : ∀ l ∈ ls, 8 ≤ l) (hc : c ≤ buf.length) (h : buf.length - c < 8) :
    HaltsFrom H buf c (some ⟨c, kHeaderSize, none, s, ls⟩) := by
  rw [← List.length_drop] at h
  refine .here hc (.waits _ rfl rfl h (fun e _ h8 => ?_) (fun _ => rfl) hls)
  omega

theorem handleFallbackData_lengths (H : Handlers σ) (l : ℕ) (b : List UInt8) (s : σ) :
    handleFallbackData H l b s = none ∨ ∃ hr, handleFallbackData H l b s = some hr ∧ hr.lengths = [l] := by
  unfold handleFallbackData
  split
  · exact .inr ⟨_, rfl, rfl⟩
  · split
    · exact .inl rfl
    · exact .inr ⟨_, rfl, rfl⟩

theorem handleFallbackData_cases {l : ℕ} (h8 : 8 ≤ l) (hl : l < 2 ^ 32) (b : List UInt8) (s : σ) :
    (b.length < l - 8 ∧ handleFallbackData H l b s = some ⟨0, l, true, none, s, [l]⟩) ∨
      (l < 16 ∧ l - 8 ≤ b.length ∧ handleFallbackData H l b s = none) ∨
      (16 ≤ l ∧ l - 8 ≤ b.length ∧ ∃ r : Option Error × σ, (∀ err, r.1 = some err → Reports H err) ∧
        handleFallbackData H l b s = some ⟨l, kHeaderSize, false, r.1, r.2, [l]⟩) := by
  unfold handleFallbackData
  rw [payloadLen_eq h8 hl]
  split
  · next hlt => exact .inl ⟨hlt, rfl⟩
  · next hge =>
    split
    · next hinv =>
      rw [kFallbackDataHeader] at hinv
      exact .inr (.inl ⟨by omega, by omega, rfl⟩)
    · next hinv =>
      rw [kFallbackDataHeader] at hinv
      exact .inr (.inr ⟨by omega, by omega, _, fun err herr => ⟨s, .inr ⟨_, _, _, herr⟩⟩, rfl⟩)

theorem halts_fallbackData {l : ℕ} (ih : ∀ {c : ℕ} {s : σ} {ls : List ℕ}, (∀ l ∈ ls, 8 ≤ l) → c ≤ buf.length →
      buf.length - c ≤ fuel → HaltsFrom H buf c (handleEvents H fuel buf c s ls))
    (hls : ∀ l ∈ ls, 8 ≤ l) (hc : c ≤ buf.length) (hfuel : buf.length - c ≤ fuel + 1) (h8 : 8 ≤ (buf.drop c).length)
    (hev : eventAt (buf.drop c) = .ok (.fallbackData l)) :
    HaltsFrom H buf c (proceed H fuel buf c ls (handleFallbackData H l ((buf.drop c).drop kHeaderSize) s)) := by
  have hq : (buf.drop c).length = buf.length - c := List.length_drop
  have hq8 : ((buf.drop c).drop kHeaderSize).length = buf.length - c - 8 := by
    rw [List.length_drop, hq, kHeaderSize]
  by_cases hl : l < 8
  · refine .here hc (.underflow l _ h8 hev hl fun res hres => ?_)
    rcases handleFallbackData_lengths H l ((buf.drop c).drop kHeaderSize) s with hnone | ⟨hr, hsome, hlen⟩
    · rw [hnone] at hres
      cases hres
    · rw [hsome, proceed] at hres
      have hmem : l ∈ ls ++ hr.lengths := by simp [hlen]
      split at hres
      · obtain rfl := Option.some.inj hres
        exact hmem
      · split at hres
        · obtain rfl := Option.some.inj hres
          exact hmem
        · exact handleEvents_lengths hres hmem
  · have hls' : ∀ l' ∈ ls ++ [l], 8 ≤ l' := by
      intro l' hl'
      rcases List.mem_append.mp hl' with h | h
      · exact hls l' h
      · rw [List.mem_singleton.mp h]
        omega
    rcases handleFallbackData_cases (H := H) (by omega) (eventAt_length_lt hev) ((buf.drop c).drop kHeaderSize) s with
      ⟨hlt, heq⟩ | ⟨hlt, hle, heq⟩ | ⟨hge, hle, r, hr, heq⟩
    · rw [heq]
      refine .here hc (.waits _ rfl rfl ?_ (fun e he _ => ?_) (fun hlt => absurd h8 (by omega)) hls')
      · change (buf.drop c).length < l
        omega
      · rw [hev] at he
        cases he
        rfl
    · rw [heq]
      exact .here hc (.inverted l hev (by omega) hlt (by omega))
    · rw [heq]
      have hsize : l ≤ (buf.drop c).length := by omega
      obtain ⟨err, s'⟩ := r
      cases err with
      | some err =>
        exact .here hc (.errs _ err rfl (Nat.add_le_add_left (by omega : 8 ≤ l) c) (Nat.add_le_add_left hsize c)
          (.inr (hr err rfl)) hls')
      | none =>
        refine HaltsFrom.frame hev (by omega : 8 ≤ l) hge hsize ?_
        exact ih hls' (by simp only [Event.size]; omega) (by simp only [Event.size]; omega)

theorem handleEvents_halts (hls : ∀ l ∈ ls, 8 ≤ l) (hc : c ≤ buf.length) (hfuel : buf.length - c ≤ fuel) :
    HaltsFrom H buf c (handleEvents H fuel buf c s ls) := by
  induction fuel generalizing c s ls with
  | zero => exact halts_short hls hc (by omega)
  | succ fuel ih =>
    rw [handleEvents_succ]
    split_ifs with hlong
    swap
    · exact halts_short hls hc (by simpa [kHeaderSize] using hlong)
    have hq : (buf.drop c).length = buf.length - c := List.length_drop
    have h8 : 8 ≤ (buf.drop c).length := by rw [hq]; exact hlong
    have hls' : ∀ l ∈ ls ++ [], 8 ≤ l := by simpa using hls
    rw [handleEvent_eq]
    cases hev : eventAt (buf.drop c) with
    | error err =>
      exact .here hc (.errs _ err rfl le_rfl (Nat.add_le_add_left h8 c) (.inl hev) hls')
    | ok e =>
      cases e with
      | polling =>
        cases herr : (H.polling s).1 with
        | some err =>
          simp only [handlePolling, herr, proceed]
          exact .here hc (.errs _ err rfl le_rfl (Nat.add_le_add_left h8 c) (.inr ⟨s, .inl herr⟩) hls')
        | none =>
          simp only [handlePolling, herr, proceed, Bool.false_eq_true, if_false]
          refine HaltsFrom.frame hev le_rfl trivial h8 ?_
          exact ih hls' (by simp only [Event.size]; omega) (by simp only [Event.size]; omega)
      | streamClose =>
        have hq8 : ((buf.drop c).drop kHeaderSize).length = buf.length - c - 8 := by
          rw [List.length_drop, hq, kHeaderSize]
        by_cases hid : ((buf.drop c).drop kHeaderSize).length < kIdLen
        · simp only [handleStreamClose, if_pos hid, proceed, if_true]
          rw [hq8, kIdLen] at hid
          refine .here hc (.waits _ rfl rfl ?_ (fun e he _ => ?_) (fun hlt => absurd h8 (by omega)) hls')
          · change (buf.drop c).length < 12
            omega
          · rw [hev] at he
            cases he
            rfl
        · simp only [handleStreamClose, if_neg hid, proceed, Bool.false_eq_true, if_false]
          rw [hq8, kIdLen] at hid
          have h12 : 12 ≤ (buf.drop c).length := by omega
          refine HaltsFrom.frame hev (by simp [Event.size]) trivial h12 ?_
          exact ih hls' (by simp only [Event.size]; omega) (by simp only [Event.size]; omega)
      | fallbackData l => exact halts_fallbackData ih hls hc hfuel h8 hev

/-- A turn ends the session, consumes a byte or asks for more bytes than are buffered; no payload
length underflows and no payload range is inverted. -/
def TurnOk (H : Handlers σ) (st : LoopState σ) : Prop :=
  match BufReader.fillBufAtLeast st.reader st.fd st.len with
  | (.error _, _, _) => True
  | (.ok buf, reader, _) => H.isClosed st.state = false →
      ∃ res, handleEvents H buf.length buf 0 st.state [] = some res ∧ (∀ l ∈ res.lengths, kHeaderSize ≤ l) ∧
        (res.err ≠ none ∨ 1 ≤ res.consumed ∨ (reader.consume res.consumed).buffer.length < res.required)

def Next (H : Handlers σ) (st st' : LoopState σ) : Prop := turn H st = .next st'

structure Progresses (H : Handlers σ) (st : LoopState σ) : Prop where
  turns : ∀ st', Relation.ReflTransGen (Next H) st st' → TurnOk H st'
  ends : ∃ fuel o, readLoop H fuel st = some o

variable {st : LoopState σ}

def stream (st : LoopState σ) : List UInt8 := st.reader.buffer ++ Fd.bytes st.fd

theorem buffer_length_le {r : BufReader} (h : r.Ok) : r.buffer.length ≤ r.cap := by
  have := h.len_le
  rw [r.buffer_length]
  omega

structure Reads (H : Handlers σ) (st : LoopState σ) (r : BufReader) (fd : List Chunk) (k : ℕ)
    (o : Option (EventResult σ)) : Prop where
  ok : r.Ok
  cap_eq : r.cap = st.reader.cap
  clean : Fd.Clean st.fd → Fd.Clean fd
  took : (Fd.bytes fd).length < (Fd.bytes st.fd).length
  conserve : r.buffer ++ Fd.bytes fd = stream st
  walk : Walk r.buffer k
  halts : Halts H k (r.buffer.drop k) o
  turn_eq : turn H st = afterEvents H r fd o
  turnOk_iff : TurnOk H st ↔ ∃ res, o = some res ∧ (∀ l ∈ res.lengths, kHeaderSize ≤ l) ∧
    (res.err ≠ none ∨ 1 ≤ res.consumed ∨ (r.consume res.consumed).buffer.length < res.required)

theorem turn_reads (hok : st.reader.Ok) (hshort : st.reader.buffer.length < st.len)
    (hopen : H.isClosed st.state = false) :
    (TurnOk H st ∧ (∃ err, turn H st = .failed err st.state) ∧
      ¬ (Fd.Clean st.fd ∧ st.len ≤ st.reader.cap ∧ st.len ≤ (stream st).length)) ∨
      ∃ r fd k o, Reads H st r fd k o := by
  have hfill := BufReader.fillBufAtLeast_fills hok st.fd (Nat.zero_lt_of_lt hshort)
  have hturn : turn H st = match BufReader.fillBufAtLeast st.reader st.fd st.len with
      | (.error err, _, _) => .failed err st.state
      | (.ok buf, r, fd) => afterEvents H r fd (handleEvents H buf.length buf 0 st.state []) := by
    rw [turn]
    generalize BufReader.fillBufAtLeast st.reader st.fd st.len = res
    obtain ⟨res, r, fd⟩ := res
    simp only [hopen, Bool.false_eq_true, if_false]
    cases res <;> rfl
  have hok' : TurnOk H st ↔ match BufReader.fillBufAtLeast st.reader st.fd st.len with
      | (.error _, _, _) => True
      | (.ok buf, r, _) => ∃ res, handleEvents H buf.length buf 0 st.state [] = some res ∧
        (∀ l ∈ res.lengths, kHeaderSize ≤ l) ∧
        (res.err ≠ none ∨ 1 ≤ res.consumed ∨ (r.consume res.consumed).buffer.length < res.required) := by
    rw [TurnOk]
    generalize BufReader.fillBufAtLeast st.reader st.fd st.len = res
    obtain ⟨res, r, fd⟩ := res
    cases res <;> simp only [hopen, true_imp_iff]
  revert hfill hturn hok'
  generalize BufReader.fillBufAtLeast st.reader st.fd st.len = res
  obtain ⟨res, r, fd⟩ := res
  intro hfill hturn hok'
  cases res with
  | error err =>
    refine .inl ⟨hok'.mpr trivial, ⟨err, hturn⟩, fun hneed => ?_⟩
    obtain ⟨v, hv⟩ := hfill.succeeds hneed.1 hneed.2.1 hneed.2.2
    cases hv
  | ok view =>
    have hview : view = r.buffer := (hfill.view view rfl).1
    subst hview
    obtain ⟨k, hw, -, hh⟩ : HaltsFrom H r.buffer 0 (handleEvents H r.buffer.length r.buffer 0 st.state []) :=
      handleEvents_halts (by simp) (Nat.zero_le _) le_rfl
    rw [Nat.zero_add] at hh
    rw [List.drop_zero] at hw
    exact .inr ⟨r, fd, k, _, hfill.ok, hfill.cap, hfill.clean, hfill.took hshort, hfill.conserve, hw, hh, hturn, hok'⟩

structure Sane (H : Handlers σ) (cap : ℕ) (st : LoopState σ) : Prop where
  ok : st.reader.Ok
  cap_eq : st.reader.cap = cap
  sound : H.isClosed st.state = true ∨ (¬ Malformed cap (stream st) ∧ st.reader.buffer.length < st.len)

theorem Sane.turn_closed (hclosed : H.isClosed st.state = true) :
    TurnOk H st ∧ turn H st = .returned st.state := by
  rw [TurnOk, ReadLoop.turn]
  generalize BufReader.fillBufAtLeast st.reader st.fd st.len = res
  obtain ⟨res, r, fd⟩ := res
  cases res <;> simp [hclosed]

theorem Sane.turn (h : Sane H cap st) : TurnOk H st ∧ ∀ st', turn H st = .next st' →
    Sane H cap st' ∧ (H.isClosed st'.state = true ∨ (Fd.bytes st'.fd).length < (Fd.bytes st.fd).length) := by
  cases hclosed : H.isClosed st.state with
  | true =>
    obtain ⟨hok, hret⟩ := Sane.turn_closed hclosed
    refine ⟨hok, fun st' hst' => ?_⟩
    rw [hret] at hst'
    cases hst'
  | false =>
    obtain ⟨hwell, hshort⟩ := h.sound.resolve_left (by simp [hclosed])
    rcases turn_reads h.ok hshort hclosed with ⟨hok, ⟨err, hfail⟩, -⟩ | ⟨r, fd, k, o, hr⟩
    · refine ⟨hok, fun st' hst' => ?_⟩
      rw [hfail] at hst'
      cases hst'
    have hcap : r.buffer.length ≤ cap := by
      rw [← h.cap_eq, ← hr.cap_eq]
      exact buffer_length_le hr.ok
    have hq : (r.buffer.drop k).length ≤ cap := by
      rw [List.length_drop]
      omega
    have hlen : (r.buffer.drop k).length ≤ (r.buffer.drop k ++ Fd.bytes fd).length := by simp
    have hsound : ¬ Malformed cap (r.buffer.drop k ++ Fd.bytes fd) := by
      rw [← walk_malformed hr.walk hcap, hr.conserve]
      exact hwell
    rw [hr.turnOk_iff, hr.turn_eq]
    cases hr.halts with
    | waits res herr hcons hreq _ _ hls =>
      have hbuf : (r.consume res.consumed).buffer = r.buffer.drop k := by rw [BufReader.consume_buffer, hcons]
      refine ⟨⟨res, rfl, hls, .inr (.inr (hbuf ▸ hreq))⟩, fun st' hst' => ?_⟩
      simp only [afterEvents, herr, Outcome.next.injEq] at hst'
      subst hst'
      refine ⟨⟨hr.ok.consume _, hr.cap_eq.trans h.cap_eq, .inr ⟨?_, hbuf ▸ hreq⟩⟩, .inr hr.took⟩
      rw [stream, hbuf]
      exact hsound
    | errs res err herr hcons _ _ hls =>
      refine ⟨⟨res, rfl, hls, .inl (by simp [herr])⟩, fun st' hst' => ?_⟩
      simp only [afterEvents, herr] at hst'
      split_ifs at hst' with hcl
      obtain rfl := Outcome.next.inj hst'
      exact ⟨⟨hr.ok.consume _, hr.cap_eq.trans h.cap_eq, .inl hcl⟩, .inl hcl⟩
    | underflow l o h8 hev hl _ =>
      exact absurd (.underflow (h8.trans hq) (h8.trans hlen) ((eventAt_append h8 _).trans hev) hl) hsound
    | inverted l hev h8 hl hle =>
      exact absurd (.inverted ((eventAt_append (h8.trans hle) _).trans hev) h8 hl (hle.trans hq) (hle.trans hlen)) hsound

theorem Sane.readLoop (h : Sane H cap st)
    (hfuel : (H.isClosed st.state = true ∧ 0 < fuel) ∨ (Fd.bytes st.fd).length + 1 < fuel) :
    ∃ o, readLoop H fuel st = some o := by
  induction fuel generalizing st with
  | zero => omega
  | succ fuel ih =>
    rw [ReadLoop.readLoop]
    cases hturn : ReadLoop.turn H st with
    | next st' =>
      obtain ⟨hsane, hless⟩ := h.turn.2 st' hturn
      apply ih hsane
      by_cases hclosed : H.isClosed st.state = true
      · rw [(Sane.turn_closed hclosed).2] at hturn
        cases hturn
      · have hfuel' := hfuel.resolve_left (fun hc => hclosed hc.1)
        rcases hless with hcl | hlt
        · exact .inl ⟨hcl, by omega⟩
        · exact .inr (by omega)
    | _ => exact ⟨_, rfl⟩

theorem Sane.progresses (h : Sane H cap st) : Progresses H st where
  turns st' hrun := by
    have hsane : Sane H cap st' := by
      induction hrun with
      | refl => exact h
      | tail _ hnext ih => exact (ih.turn.2 _ hnext).1
    exact hsane.turn.1
  ends := ⟨(Fd.bytes st.fd).length + 2, h.readLoop (.inr (by omega))⟩

theorem Malformed.head (h : Malformed cap p) :
    ∃ e, eventAt p = .ok e ∧ max 8 e.size ≤ cap ∧ max 8 e.size ≤ p.length := by
  cases h with
  | underflow hcap hlen hev hl => exact ⟨_, hev, by simp only [Event.size]; omega, by simp only [Event.size]; omega⟩
  | inverted hev h8 _ hcap hlen => exact ⟨_, hev, by simp only [Event.size]; omega, by simp only [Event.size]; omega⟩
  | later hev h8 hcap hlen _ => exact ⟨_, hev, by omega, by omega⟩

def silent : Handlers Unit where
  polling s := (none, s)
  fallbackData _ _ _ s := (none, s)
  streamClose _ s := s
  isClosed _ := false

structure Doomed (cap : ℕ) (st : LoopState Unit) : Prop where
  ok : st.reader.Ok
  cap_eq : st.reader.cap = cap
  clean : Fd.Clean st.fd
  bad : Malformed cap (stream st)
  short : st.reader.buffer.length < st.len
  need : ∀ e, eventAt (stream st) = .ok e → st.len ≤ max 8 e.size

theorem Doomed.turn {st : LoopState Unit} (h : Doomed cap st) : ¬ TurnOk silent st ∨
    ∃ st', Next silent st st' ∧ Doomed cap st' ∧ (Fd.bytes st'.fd).length < (Fd.bytes st.fd).length := by
  obtain ⟨e, he, hecap, helen⟩ := h.bad.head
  have hneed := h.need e he
  rcases turn_reads (H := silent) h.ok h.short rfl with ⟨-, -, hfail⟩ | ⟨r, fd, k, o, hr⟩
  · exact absurd ⟨h.clean, by rw [h.cap_eq]; omega, by omega⟩ hfail
  have hcap : r.buffer.length ≤ cap := by
    rw [← h.cap_eq, ← hr.cap_eq]
    exact buffer_length_le hr.ok
  have hbad : Malformed cap (r.buffer.drop k ++ Fd.bytes fd) := by
    rw [← walk_malformed hr.walk hcap, hr.conserve]
    exact h.bad
  have hturn := hr.turn_eq
  have hiff := hr.turnOk_iff
  cases hr.halts with
  | waits res herr hcons hreq hfull hpart hls =>
    have hbuf : (r.consume res.consumed).buffer = r.buffer.drop k := by rw [BufReader.consume_buffer, hcons]
    simp only [afterEvents, herr] at hturn
    refine .inr ⟨_, hturn, ⟨hr.ok.consume _, hr.cap_eq.trans h.cap_eq, hr.clean h.clean, ?_, hbuf ▸ hreq, ?_⟩, hr.took⟩
    · rw [stream, hbuf]
      exact hbad
    · intro e he
      rw [stream, hbuf] at he
      change res.required ≤ max 8 e.size
      by_cases h8 : 8 ≤ (r.buffer.drop k).length
      · rw [eventAt_append h8] at he
        rw [hfull e he h8]
        exact le_max_right 8 e.size
      · rw [hpart (by omega)]
        exact le_max_left 8 e.size
  | errs res err _ hge hle hwhy _ =>
    exfalso
    rcases hwhy with hev | ⟨s, hs | ⟨_, _, _, hs⟩⟩
    · obtain ⟨e', he', -⟩ := hbad.head
      rw [eventAt_append (by omega), hev] at he'
      cases he'
    · cases hs
    · cases hs
  | underflow l o _ _ hl hmem =>
    left
    rw [hiff]
    rintro ⟨res, hres, hls, -⟩
    have := hls l (hmem res hres)
    rw [kHeaderSize] at this
    omega
  | inverted l =>
    left
    rw [hiff]
    rintro ⟨res, hres, -⟩
    cases hres

theorem Doomed.fails {st : LoopState Unit} (h : Doomed cap st) :
    ∃ st', Relation.ReflTransGen (Next silent) st st' ∧ ¬ TurnOk silent st' := by
  induction hn : (Fd.bytes st.fd).length using Nat.strong_induction_on generalizing st with
  | _ n ih =>
    rcases h.turn with hnot | ⟨st', hnext, hdoomed, hless⟩
    · exact ⟨st, .refl, hnot⟩
    · obtain ⟨st'', hrun, hnot⟩ := ih _ (hn ▸ hless) hdoomed rfl
      exact ⟨st'', .head hnext hrun, hnot⟩

theorem parser_progresses_iff (cap : ℕ) (input : List UInt8) :
    (∀ (σ : Type) (H : Handlers σ) (s : σ) (fd : List Chunk), Fd.bytes fd = input → Progresses H (start cap fd s)) ↔
      ¬ Malformed cap input := by
  constructor
  · intro hall hbad
    obtain ⟨e, he, hcap, hlen⟩ := hbad.head
    have hbytes : Fd.bytes [.bytes input] = input := by rw [Fd.bytes_cons, Fd.bytes_nil, List.append_nil]
    have hdoomed : Doomed cap (start cap [.bytes input] ()) := by
      refine ⟨start_ok cap, rfl, ?_, ?_, ?_, fun e _ => le_max_left 8 e.size⟩
      · intro c hc
        rw [List.mem_singleton.mp hc]
        cases input with
        | nil => simp at hlen
        | cons b bs => exact ⟨b, bs, rfl⟩
      · change Malformed cap (Fd.bytes [.bytes input])
        rw [hbytes]
        exact hbad
      · change 0 < 8
        omega
    obtain ⟨st, hrun, hnot⟩ := hdoomed.fails
    exact hnot ((hall Unit silent () _ hbytes).turns st hrun)
  · intro hgood σ H s fd hfd
    have hsane : Sane H cap (start cap fd s) := by
      refine ⟨start_ok cap, rfl, .inr ⟨?_, ?_⟩⟩
      · change ¬ Malformed cap (Fd.bytes fd)
        rw [hfd]
        exact hgood
      · change 0 < 8
        omega
    exact hsane.progresses

/-- A `FallbackData` header with length 7: the loop asks for seven bytes, has eight, and goes round. -/
theorem parser_spins : ∃ st, turn silent (start 4096 [.bytes [0, 0, 0, 7, 0x77, 0x58, 3, 3]] ()) = .next st ∧
    turn silent st = .next st := by
  refine ⟨⟨⟨4096, 0, [0, 0, 0, 7, 0x77, 0x58, 3, 3]⟩, [], 7, ()⟩, ?_, ?_⟩
  · decide +kernel
  · decide +kernel

end Shmipc.ReadLoop

import Shmipc.Error

/-!
The buffered reader of the session's socket. The bytes up to `len_` are a list, so that `len_` is its
length; what lies behind them is never looked at.
-/

namespace Shmipc

/-- What the calls of `read(2)` find: data, an interrupted call, or an error. At the end of the list the
peer has closed the connection. -/
inductive Chunk
  | bytes (data : List UInt8)
  | interrupted
  | failed (err : Error)
deriving DecidableEq

namespace Fd

def bytes (fd : List Chunk) : List UInt8 :=
  fd.flatMap fun
    | .bytes data => data
    | .interrupted | .failed _ => []

-- a piece longer than the room in the buffer is read in several calls
def read (fd : List Chunk) (n : ℕ) : Chunk × List Chunk :=
  match fd with
  | [] => (.bytes [], [])
  | .bytes data :: rest => (.bytes (data.take n), if data.length ≤ n then rest else .bytes (data.drop n) :: rest)
  | .interrupted :: rest => (.interrupted, rest)
  | .failed err :: rest => (.failed err, rest)

end Fd

structure BufReader where
  cap : ℕ
  pos : ℕ
  data : List UInt8
deriving DecidableEq

namespace BufReader

def new (cap : ℕ) : BufReader where
  cap := cap
  pos := 0
  data := []

def buffer (r : BufReader) : List UInt8 := r.data.drop r.pos

def consume (r : BufReader) (amt : ℕ) : BufReader :=
  { r with pos := if r.pos + amt < r.data.length then r.pos + amt else r.data.length }

def compact (r : BufReader) : BufReader := { r with pos := 0, data := r.data.drop r.pos }

def invalidEof : Error := .io "invalid eof"

-- each turn takes a chunk off `fd` or puts a byte into the buffer, so `fuel` bounds the turns
def fillLoop (len : ℕ) : ℕ → BufReader → List Chunk → Result Unit × BufReader × List Chunk
  | 0, r, fd => (.ok (), r, fd)
  | fuel + 1, r, fd =>
    if r.data.length - r.pos < len then
      match Fd.read fd (r.cap - r.data.length) with
      | (.interrupted, rest) => fillLoop len fuel r rest
      | (.failed err, rest) => (.error err, r, rest)
      | (.bytes [], rest) => (.error invalidEof, r, rest)
      | (.bytes (b :: bs), rest) => fillLoop len fuel { r with data := r.data ++ b :: bs } rest
    else (.ok (), r, fd)

def fillFrom (r : BufReader) (fd : List Chunk) (len : ℕ) : Result (List UInt8) × BufReader × List Chunk :=
  match fillLoop len (fd.length + len) r fd with
  | (.ok (), r, fd) => (.ok r.buffer, r, fd)
  | (.error err, r, fd) => (.error err, r, fd)

def fillBufAtLeast (r : BufReader) (fd : List Chunk) (len : ℕ) : Result (List UInt8) × BufReader × List Chunk :=
  if len = 0 then (.ok [], r, fd)
  else if r.data.length - r.pos ≥ len then (.ok r.buffer, r, fd)
  -- the requested length does not fit behind `pos`
  else if len > r.cap - r.pos then fillFrom r.compact fd len
  else fillFrom r fd len

structure Ok (r : BufReader) : Prop where
  pos_le : r.pos ≤ r.data.length
  len_le : r.data.length ≤ r.cap

end BufReader

namespace Fd

def Clean (fd : List Chunk) : Prop := ∀ c ∈ fd, ∃ b bs, c = .bytes (b :: bs)

variable {fd : List Chunk} {n : ℕ}

theorem bytes_nil : bytes [] = [] := rfl

theorem bytes_cons (data : List UInt8) (fd : List Chunk) : bytes (.bytes data :: fd) = data ++ bytes fd := rfl

theorem Clean.of_cons {c : Chunk} (h : Clean (c :: fd)) : Clean fd := fun d hd => h d (List.mem_cons_of_mem c hd)

theorem read_bytes {got : List UInt8} {rest : List Chunk} (h : read fd n = (.bytes got, rest)) :
    got ++ bytes rest = bytes fd ∧ got.length ≤ n ∧ (Clean fd → Clean rest) ∧
      (Clean fd → 0 < n → got = [] → bytes fd = []) ∧ rest.length ≤ fd.length := by
  cases fd with
  | nil =>
    simp only [read, Prod.mk.injEq, Chunk.bytes.injEq] at h
    obtain ⟨rfl, rfl⟩ := h
    exact ⟨rfl, Nat.zero_le _, id, fun _ _ _ => rfl, le_rfl⟩
  | cons c fd =>
    cases c with
    | interrupted => simp [read] at h
    | failed err => simp [read] at h
    | bytes data =>
      simp only [read, Prod.mk.injEq, Chunk.bytes.injEq] at h
      obtain ⟨rfl, rfl⟩ := h
      split_ifs with hle
      · rw [List.take_of_length_le hle, bytes_cons]
        refine ⟨rfl, hle, Clean.of_cons, fun hc _ hnil => ?_, Nat.le_succ _⟩
        obtain ⟨b, bs, hb⟩ := hc _ List.mem_cons_self
        rw [Chunk.bytes.injEq, hnil] at hb
        cases hb
      · rw [bytes_cons, bytes_cons, ← List.append_assoc, List.take_append_drop]
        refine ⟨rfl, List.length_take_le _ _, fun hc => ?_, fun _ hn hnil => ?_, le_rfl⟩
        · intro d hd
          rcases List.mem_cons.mp hd with rfl | hd
          · cases hdrop : data.drop n with
            | nil =>
              rw [List.drop_eq_nil_iff] at hdrop
              exact absurd hdrop hle
            | cons b bs => exact ⟨b, bs, rfl⟩
          · exact hc d (List.mem_cons_of_mem _ hd)
        · rw [List.take_eq_nil_iff] at hnil
          rcases hnil with h0 | rfl
          · exact absurd h0 hn.ne'
          · exact absurd (Nat.zero_le n) hle

theorem read_interrupted {rest : List Chunk} (h : read fd n = (.interrupted, rest)) : fd = .interrupted :: rest := by
  cases fd with
  | nil => simp [read] at h
  | cons c fd => cases c <;> simp [read] at h ⊢; exact h

theorem read_failed {rest : List Chunk} {err : Error} (h : read fd n = (.failed err, rest)) :
    fd = .failed err :: rest := by
  cases fd with
  | nil => simp [read] at h
  | cons c fd => cases c <;> simp [read] at h ⊢; exact h

end Fd

namespace BufReader

variable {r r' : BufReader} {fd fd' : List Chunk} {len fuel : ℕ}

structure Filled (len : ℕ) (r : BufReader) (fd : List Chunk) (res : Option Error) (r' : BufReader) (fd' : List Chunk) :
    Prop where
  ok : r'.Ok
  cap : r'.cap = r.cap
  conserve : r'.buffer ++ Fd.bytes fd' = r.buffer ++ Fd.bytes fd
  enough : res = none → len ≤ r'.buffer.length
  clean : Fd.Clean fd → Fd.Clean fd'
  eof : Fd.Clean fd → ∀ err, res = some err → err = invalidEof
  succeeds : Fd.Clean fd → len + r.pos ≤ r.cap → len ≤ (r.buffer ++ Fd.bytes fd).length → res = none

theorem buffer_length (r : BufReader) : r.buffer.length = r.data.length - r.pos := List.length_drop

theorem buffer_append (h : r.Ok) (got : List UInt8) :
    ({ r with data := r.data ++ got } : BufReader).buffer = r.buffer ++ got := by
  simp only [buffer, List.drop_append_of_le_length h.pos_le]

theorem Ok.append (h : r.Ok) {got : List UInt8} (hg : got.length ≤ r.cap - r.data.length) :
    ({ r with data := r.data ++ got } : BufReader).Ok := by
  have := h.pos_le
  have := h.len_le
  constructor <;> simp only [List.length_append] <;> omega

def outcome : Result Unit → Option Error
  | .ok () => none
  | .error err => some err

theorem filled_of_enough (hr : r.Ok) (h : len ≤ r.buffer.length) : Filled len r fd none r fd where
  ok := hr
  cap := rfl
  conserve := rfl
  enough _ := h
  clean := id
  eof _ _ h := by cases h
  succeeds _ _ _ := rfl

theorem fillLoop_filled (hr : r.Ok) (hf : fd.length + (len - r.buffer.length) ≤ fuel) :
    Filled len r fd (outcome (fillLoop len fuel r fd).1) (fillLoop len fuel r fd).2.1 (fillLoop len fuel r fd).2.2 := by
  induction fuel generalizing r fd with
  | zero => exact filled_of_enough hr (by omega)
  | succ fuel ih =>
    rw [fillLoop]
    rw [buffer_length] at hf
    split_ifs with hlt
    · split
      · next rest hread =>
        have hfd := Fd.read_interrupted hread
        subst hfd
        have hless : rest.length + (len - r.buffer.length) ≤ fuel := by
          rw [buffer_length]
          simp only [List.length_cons] at hf
          omega
        have h := ih hr hless
        exact ⟨h.ok, h.cap, h.conserve, h.enough, fun hc => h.clean hc.of_cons, fun hc => h.eof hc.of_cons,
          fun hc => h.succeeds hc.of_cons⟩
      · next err rest hread =>
        have hfd := Fd.read_failed hread
        subst hfd
        have hnot : ¬ Fd.Clean (.failed err :: rest) := by
          intro hc
          obtain ⟨b, bs, hb⟩ := hc _ List.mem_cons_self
          cases hb
        exact ⟨hr, rfl, rfl, fun h => (by cases h), fun hc => absurd hc hnot, fun hc => absurd hc hnot,
          fun hc => absurd hc hnot⟩
      · next rest hread =>
        obtain ⟨hcons, -, hclean, hempty, -⟩ := Fd.read_bytes hread
        rw [List.nil_append] at hcons
        refine ⟨hr, rfl, by rw [hcons], fun h => (by cases h), hclean, fun _ err h => (Option.some.inj h).symm,
          fun hc hcap hlen => ?_⟩
        -- there is room for a byte, so the call returns nothing only at the end of the input
        have hroom : 0 < r.cap - r.data.length := by omega
        rw [hempty hc hroom rfl, List.append_nil, buffer_length] at hlen
        omega
      · next b bs rest hread =>
        obtain ⟨hcons, hle, hclean, -, hrest⟩ := Fd.read_bytes hread
        have hbuf := buffer_append hr (b :: bs)
        have hpos := hr.pos_le
        have hless : rest.length + (len - (r.buffer ++ b :: bs).length) ≤ fuel := by
          rw [List.length_append, buffer_length, List.length_cons]
          omega
        have h := ih (hr.append hle) (hbuf ▸ hless)
        refine ⟨h.ok, h.cap, ?_, h.enough, fun hc => h.clean (hclean hc), fun hc => h.eof (hclean hc),
          fun hc hcap hlen => h.succeeds (hclean hc) hcap ?_⟩
        · rw [h.conserve, hbuf, List.append_assoc, hcons]
        · rw [hbuf, List.append_assoc, hcons]
          exact hlen
    · exact filled_of_enough hr (by rw [buffer_length]; omega)

theorem compact_ok (h : r.Ok) : r.compact.Ok where
  pos_le := Nat.zero_le _
  len_le := by
    rw [compact, List.length_drop]
    exact (Nat.sub_le _ _).trans h.len_le

theorem compact_buffer (r : BufReader) : r.compact.buffer = r.buffer := by
  rw [buffer, compact, List.drop_zero, buffer]

structure Fills (len : ℕ) (r : BufReader) (fd : List Chunk) (res : Result (List UInt8)) (r' : BufReader)
    (fd' : List Chunk) : Prop where
  ok : r'.Ok
  cap : r'.cap = r.cap
  conserve : r'.buffer ++ Fd.bytes fd' = r.buffer ++ Fd.bytes fd
  view : ∀ v, res = .ok v → v = r'.buffer ∧ len ≤ v.length
  clean : Fd.Clean fd → Fd.Clean fd'
  eof : Fd.Clean fd → ∀ err, res = .error err → err = invalidEof
  succeeds : Fd.Clean fd → len ≤ r.cap → len ≤ (r.buffer ++ Fd.bytes fd).length → ∃ v, res = .ok v

theorem fillFrom_fills (hr : r.Ok) (fd : List Chunk) (hroom : len ≤ r.cap → len + r.pos ≤ r.cap) :
    Fills len r fd (fillFrom r fd len).1 (fillFrom r fd len).2.1 (fillFrom r fd len).2.2 := by
  have hfuel : fd.length + (len - r.buffer.length) ≤ fd.length + len := by omega
  have h := fillLoop_filled hr hfuel
  revert h
  rw [fillFrom]
  generalize fillLoop len (fd.length + len) r fd = res
  obtain ⟨res, r', fd'⟩ := res
  intro h
  cases res with
  | ok u =>
    refine ⟨h.ok, h.cap, h.conserve, fun v hv => ?_, h.clean, fun _ _ he => (by cases he), fun _ _ _ => ⟨_, rfl⟩⟩
    obtain rfl := Except.ok.inj hv
    exact ⟨rfl, h.enough rfl⟩
  | error err =>
    refine ⟨h.ok, h.cap, h.conserve, fun v hv => (by cases hv), h.clean, fun hc e he => ?_, fun hc hle hmany => ?_⟩
    · obtain rfl := Except.error.inj he
      exact h.eof hc _ rfl
    · have hnone := h.succeeds hc (hroom hle) hmany
      cases hnone

theorem fillBufAtLeast_fills (hr : r.Ok) (fd : List Chunk) (hlen : 0 < len) :
    Fills len r fd (fillBufAtLeast r fd len).1 (fillBufAtLeast r fd len).2.1 (fillBufAtLeast r fd len).2.2 := by
  rw [fillBufAtLeast, if_neg hlen.ne']
  split_ifs with hhave hfit
  · refine ⟨hr, rfl, rfl, fun v hv => ?_, id, fun _ _ h => (by cases h), fun _ _ _ => ⟨_, rfl⟩⟩
    obtain rfl := Except.ok.inj hv
    exact ⟨rfl, by rw [buffer_length]; exact hhave⟩
  · have h := fillFrom_fills (compact_ok hr) fd (fun hle : len ≤ r.cap => hle)
    refine ⟨h.ok, h.cap, ?_, h.view, h.clean, h.eof, ?_⟩
    · rw [h.conserve, compact_buffer]
    · rw [← compact_buffer r]
      exact h.succeeds
  · have hpos := hr.pos_le
    have hcap := hr.len_le
    exact fillFrom_fills hr fd (fun hle => by omega)

theorem Fills.took {v : List UInt8} (h : Fills len r fd (.ok v) r' fd') (hlt : r.buffer.length < len) :
    (Fd.bytes fd').length < (Fd.bytes fd).length := by
  have hlen := congrArg List.length h.conserve
  obtain ⟨rfl, henough⟩ := h.view v rfl
  rw [List.length_append, List.length_append] at hlen
  omega

theorem consume_buffer (r : BufReader) (k : ℕ) : (r.consume k).buffer = r.buffer.drop k := by
  rw [consume, buffer, buffer, List.drop_drop]
  split_ifs with h
  · rfl
  · rw [List.drop_eq_nil_of_le le_rfl, List.drop_eq_nil_of_le (by omega)]

theorem Ok.consume (h : r.Ok) (k : ℕ) : (r.consume k).Ok where
  pos_le := by
    rw [BufReader.consume]
    dsimp only
    split_ifs with hk
    · exact hk.le
    · exact le_rfl
  len_le := h.len_le

end BufReader

end Shmipc

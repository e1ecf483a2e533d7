import Shmipc.PublishedChain
import Shmipc.StreamReceive

namespace Shmipc

open ByteMemory LinkedBuffer

inductive Errc
  | invalidArgument | connectionReset | resourceUnavailableTryAgain | alreadyConnected | timedOut | connectionAborted
  | brokenPipe | notEnoughMemory | notSupported | ioError
deriving DecidableEq

def toIoErrorCode (err : Error) : Errc :=
  match err.kind with
  | .invalidVersion | .invalidMsgType | .connectionWriteTimeout => .invalidArgument
  | .sessionShutdown | .streamReset => .connectionReset
  | .streamsExhausted | .sessionUnhealthy | .notEnoughData | .noMoreBuffer | .shareMemoryHadNotLeftSpace | .queueEmpty
  | .queueFull | .streamPoolFull | .hotRestartInProgress | .inHandshakeStage => .resourceUnavailableTryAgain
  | .duplicateStream | .streamCallbackHadExisted => .alreadyConnected
  | .timeout | .connectionTimeout | .keepAliveTimeout | .exchangeConfigTimeout => .timedOut
  | .streamClosed => .connectionAborted
  | .endOfStream => .brokenPipe
  | .sizeTooLarge => .notEnoughMemory
  | .brokenBuffer => .brokenPipe
  | .osNonSupported | .archNonSupported => .notSupported
  | .fileNameTooLong => .invalidArgument
  | _ => .ioError

abbrev IoResult (α : Type) := Except Errc α

structure ShmBufReader where
  buf : Buf
  consumed : ℕ
deriving DecidableEq

def ShmBufReader.read (m : Mem) (r : ShmBufReader) (n : ℕ) : List UInt8 × ShmBufReader × Bool :=
  if r.consumed ≥ r.buf.size then ([], r, true)
  else
    let inner := (r.buf.load m).drop r.consumed
    if inner.length ≤ n then (inner, { r with consumed := r.consumed + inner.length }, true)
    else (inner.take n, { r with consumed := r.consumed + n }, false)

structure StreamExt where
  inner : Stream
  reader : Option ShmBufReader
deriving DecidableEq

namespace StreamExt

def fromReader (m : Mem) (x : StreamExt) (r : ShmBufReader) (n : ℕ) :
    Mem × StreamExt × List UInt8 × Option (IoResult ℕ) :=
  let (out, r, all) := r.read m n
  (m, { x with reader := if all then none else some r }, out, some (.ok out.length))

/-- The memory, the reader, the bytes copied, and the result: `none` while the call waits for a message. The second
round of the loop always has a reader. -/
def read (bm : BufferManager) (m : Mem) (x : StreamExt) (n : ℕ) :
    Option (Mem × StreamExt × List UInt8 × Option (IoResult ℕ)) :=
  if n = 0 then some (m, x, [], some (.ok 0))
  else
    match x.reader with
    | some r => some (fromReader m x r n)
    | none => (x.inner.read bm m).map fun
      | (m, s, some (.ok buf)) => fromReader m { x with inner := s } ⟨buf, 0⟩ n
      | (m, s, some (.error err)) => (m, { x with inner := s }, [], some (.error (toIoErrorCode err)))
      | (m, s, none) => (m, { x with inner := s }, [], none)

/-- The loop of `read_exact` over a destination of `size` bytes, `filled` of which are there; `none` when it is not
finished after `fuel` rounds. A call that waits goes on with what is filled then. -/
def readExactLoop (bm : BufferManager) (size : ℕ) :
    ℕ → Mem → StreamExt → ℕ → Option (Mem × StreamExt × List UInt8 × Option (IoResult ℕ))
  | 0, _, _, _ => none
  | fuel + 1, m, x, filled =>
    if filled < size then
      (x.read bm m (size - filled)).bind fun
        | (m, x, out, some (.ok n)) =>
          if n = 0 then some (m, x, out, some (.error .brokenPipe))
          else (readExactLoop bm size fuel m x (filled + n)).map fun (m, x, more, ret) => (m, x, out ++ more, ret)
        | r => some r
    else some (m, x, [], some (.ok filled))

def readExact (bm : BufferManager) (m : Mem) (x : StreamExt) (size filled : ℕ) :
    Option (Mem × StreamExt × List UInt8 × Option (IoResult ℕ)) := readExactLoop bm size (size - filled + 1) m x filled

def unconsumed (m : Mem) (x : StreamExt) : List UInt8 :=
  match x.reader with
  | some r => (r.buf.load m).drop r.consumed
  | none => []

variable {P : Pool} {e : Bool} {m m' : Mem} {free free' : ℕ → Prop} {x x' : StreamExt} {A B : List ℕ}
  {data rest out delivered copied : List UInt8} {n size filled fuel : ℕ} {r : ShmBufReader}

structure Holds (P : Pool) (e : Bool) (m : Mem) (free : ℕ → Prop) (x : StreamExt) (A : List ℕ) (data rest : List UInt8) :
    Prop where
  incoming : Incoming P e m free x.inner.recvBuf x.inner.pendingData A data
  state : x.inner.state ≠ .closed
  shows : ∀ r, x.reader = some r → Shows x.inner.recvBuf r.buf ∧ r.consumed < r.buf.size
  rest : rest = x.unconsumed m ++ unreadOf m x.inner.recvBuf.sliceList ++ data

inductive Outcome (P : Pool) (e : Bool) (n : ℕ) (rest : List UInt8) :
    Option (Mem × StreamExt × List UInt8 × Option (IoResult ℕ)) → Prop
  | copied {m : Mem} {free : ℕ → Prop} {x : StreamExt} {A : List ℕ} {data out rest' : List UInt8} :
      Holds P e m free x A data rest' → rest = out ++ rest' → 0 < out.length → out.length ≤ n →
      Outcome P e n rest (some (m, x, out, some (.ok out.length)))
  | empty {m : Mem} {free : ℕ → Prop} {x : StreamExt} {A : List ℕ} {data : List UInt8} {ret : Option (IoResult ℕ)} :
      Holds P e m free x A data [] → rest = [] → (∀ k, ret ≠ some (.ok k)) → Outcome P e n rest (some (m, x, [], ret))

theorem fromReader_outcome (hin : Incoming P e m free x.inner.recvBuf x.inner.pendingData A data)
    (hstate : x.inner.state ≠ .closed) (hshows : Shows x.inner.recvBuf r.buf) (hlt : r.consumed < r.buf.size) (hn : 0 < n) :
    Outcome P e n ((r.buf.load m).drop r.consumed ++ unreadOf m x.inner.recvBuf.sliceList ++ data)
      (some (fromReader m x r n)) := by
  have hlen := hshows.load_length hin.valid.toBase
  rw [fromReader, ShmBufReader.read, if_neg (not_le.mpr hlt)]
  by_cases hfit : ((r.buf.load m).drop r.consumed).length ≤ n
  · simp only [if_pos hfit, if_true]
    refine .copied ⟨hin, hstate, nofun, rfl⟩ ?_ ?_ hfit
    · rw [unconsumed, List.nil_append, List.append_assoc]
    · rw [List.length_drop]
      omega
  · simp only [if_neg hfit, Bool.false_eq_true, if_false]
    rw [List.length_drop] at hfit
    refine .copied ⟨hin, hstate, ?_, rfl⟩ ?_ ?_ (List.length_take_le _ _)
    · rintro _ ⟨⟩
      refine ⟨hshows, ?_⟩
      change r.consumed + n < r.buf.size
      omega
    · change _ = _ ++ ((r.buf.load m).drop (r.consumed + n) ++ unreadOf m x.inner.recvBuf.sliceList ++ data)
      rw [← List.append_assoc, ← List.append_assoc, ← List.drop_drop, List.take_append_drop]
    · rw [List.length_take, List.length_drop]
      omega

theorem read_outcome (h : Holds P e m free x A data rest) (hn : 0 < n) : Outcome P e n rest (x.read P.manager m n) := by
  rw [read, if_neg (by omega)]
  cases hr : x.reader with
  | some r =>
    obtain ⟨hshows, hlt⟩ := h.shows r hr
    have hrest := h.rest
    rw [unconsumed, hr] at hrest
    rw [hrest]
    exact fromReader_outcome h.incoming h.state hshows hlt hn
  | none =>
    have hrest := h.rest
    rw [unconsumed, hr, List.nil_append] at hrest
    have hread := Stream.read_outcome h.incoming
    rw [← hrest] at hread
    generalize x.inner.read P.manager m = res at hread
    cases hread with
    | @got m' free' s A' data' buf hin hstate hshows hpos hbytes =>
      rw [hbytes]
      exact fromReader_outcome (x := { x with inner := s }) (r := ⟨buf, 0⟩) hin (hstate ▸ h.state) hshows hpos hn
    | @none m' free' s ret hin hstate hnil hunread hret =>
      have hholds : Holds P e m' free' ⟨s, none⟩ [] [] [] := by
        refine ⟨hin, hstate ▸ h.state, nofun, ?_⟩
        rw [unconsumed, hunread]
        rfl
      match ret with
      | Option.none => exact .empty hholds hnil nofun
      | some (.error err) => exact .empty hholds hnil nofun
      | some (.ok buf) => exact absurd rfl (hret buf)

inductive Filled (P : Pool) (e : Bool) (size filled : ℕ) (rest : List UInt8) :
    Option (Mem × StreamExt × List UInt8 × Option (IoResult ℕ)) → Prop
  | full {m : Mem} {free : ℕ → Prop} {x : StreamExt} {A : List ℕ} {data out rest' : List UInt8} :
      Holds P e m free x A data rest' → rest = out ++ rest' → filled + out.length = size →
      Filled P e size filled rest (some (m, x, out, some (.ok size)))
  | short {m : Mem} {free : ℕ → Prop} {x : StreamExt} {A : List ℕ} {data : List UInt8} {ret : Option (IoResult ℕ)} :
      Holds P e m free x A data [] → filled + rest.length < size → (∀ k, ret ≠ some (.ok k)) →
      Filled P e size filled rest (some (m, x, rest, ret))

theorem readExactLoop_filled (h : Holds P e m free x A data rest) (hle : filled ≤ size) (hfuel : size - filled < fuel) :
    Filled P e size filled rest (readExactLoop P.manager size fuel m x filled) := by
  induction fuel generalizing m free x A data rest filled with
  | zero => omega
  | succ fuel ih =>
    rw [readExactLoop]
    by_cases hlt : filled < size
    · rw [if_pos hlt]
      have hread := read_outcome h (show 0 < size - filled by omega)
      generalize x.read P.manager m (size - filled) = res at hread
      cases hread with
      | @copied m₁ free₁ x₁ A₁ data₁ out rest₁ hholds hrest hpos hfit =>
        have hloop := ih hholds (show filled + out.length ≤ size by omega) (by omega)
        simp only [Option.bind_some, if_neg hpos.ne']
        generalize readExactLoop P.manager size fuel m₁ x₁ (filled + out.length) = res at hloop
        subst hrest
        cases hloop with
        | @full _ _ _ _ _ more _ hholds' hrest' hsize =>
          subst hrest'
          refine .full hholds' (List.append_assoc _ _ _).symm ?_
          change filled + (out ++ more).length = size
          rw [List.length_append]
          omega
        | short hholds' hsize hret =>
          refine .short hholds' ?_ hret
          rw [List.length_append]
          omega
      | @empty m₁ free₁ x₁ A₁ data₁ ret hholds hrest hret =>
        subst hrest
        match ret with
        | none => exact .short hholds hlt nofun
        | some (.error err) => exact .short hholds hlt nofun
        | some (.ok k) => exact absurd rfl (hret k)
    · obtain rfl : filled = size := by omega
      rw [if_neg hlt]
      exact .full h rfl rfl

theorem readExact_filled (h : Holds P e m free x A data rest) (hle : filled ≤ size) :
    Filled P e size filled rest (x.readExact P.manager m size filled) := readExactLoop_filled h hle (Nat.lt_succ_self _)

def Owns (P : Pool) (m : Mem) (x : StreamExt) (a : ℕ) : Prop :=
  a ∈ x.inner.recvBuf.held ∨ ∃ A data, Arrived P m x.inner.pendingData A data ∧ a ∈ A

/-- A stream with its reader. `busy` is a `read_exact` that is under way, with its size and what it has filled;
`delivered` are the bytes of all messages, `copied` those that the calls have copied out. -/
inductive Run (P : Pool) (e : Bool) : Mem → StreamExt → Option (ℕ × List UInt8) → List UInt8 → List UInt8 → Prop
  | start {m : Mem} {free : ℕ → Prop} (id : ℕ) : P.Free e m free → Run P e m ⟨.empty id, none⟩ none [] []
  | deliver {m m' : Mem} {free : ℕ → Prop} {x : StreamExt} {busy : Option (ℕ × List UInt8)} {delivered copied data : List UInt8}
      {item : Pending} {B : List ℕ} {s : Stream} : Run P e m x busy delivered copied →
      P.Free e m free → (∀ a, Owns P m x a → ¬ free a) → Arrived P m [item] B data → B.Nodup →
      (∀ a ∈ B, ¬ free a ∧ ¬ Owns P m x a) → x.inner.fillDataToReadBuffer P.manager m item = some (m', s) →
      Run P e m' { x with inner := s } busy (delivered ++ data) copied
  | others {m m' : Mem} {free' : ℕ → Prop} {x x' : StreamExt} {busy : Option (ℕ × List UInt8)}
      {delivered copied : List UInt8} : Run P e m x busy delivered copied → P.Free e m' free' →
      (∀ a, Owns P m x a → ¬ free' a) → (∀ d a, P.Slot d a → Owns P m x a → SameOn m m' a (a + (d + 20))) →
      x'.inner.recvBuf = x.inner.recvBuf → x'.inner.pendingData = x.inner.pendingData → x'.inner.state ≠ .closed →
      x'.reader = x.reader → Run P e m' x' busy delivered copied
  | read {m m' : Mem} {x x' : StreamExt} {delivered copied out : List UInt8} {n : ℕ} {ret : Option (IoResult ℕ)} :
      Run P e m x none delivered copied → 0 < n → x.read P.manager m n = some (m', x', out, ret) →
      Run P e m' x' none delivered (copied ++ out)
  | begin {m : Mem} {x : StreamExt} {delivered copied : List UInt8} {size : ℕ} : Run P e m x none delivered copied →
      0 < size → Run P e m x (some (size, [])) delivered copied
  | readExact {m m' : Mem} {x x' : StreamExt} {delivered copied dest out : List UInt8} {size : ℕ}
      {ret : Option (IoResult ℕ)} : Run P e m x (some (size, dest)) delivered copied →
      x.readExact P.manager m size dest.length = some (m', x', out, ret) →
      Run P e m' x' (if ret = none then some (size, dest ++ out) else none) delivered (copied ++ out)

structure Inv (P : Pool) (e : Bool) (m : Mem) (x : StreamExt) (busy : Option (ℕ × List UInt8)) (delivered copied : List UInt8) :
    Prop where
  holds : ∃ free A data rest, Holds P e m free x A data rest ∧ delivered = copied ++ rest
  busy : ∀ size dest, busy = some (size, dest) → dest.length < size ∧ dest <:+ copied

theorem Holds.owns (h : Holds P e m free x A data rest) : ∀ a ∈ x.inner.recvBuf.held ++ A, Owns P m x a := by
  intro a ha
  rcases List.mem_append.mp ha with ha | ha
  · exact .inl ha
  · exact .inr ⟨A, data, h.incoming.arrived, ha⟩

theorem Holds.others (h : Holds P e m free x A data rest) (hf : P.Free e m' free') (hown : ∀ a, Owns P m x a → ¬ free' a)
    (hsame : ∀ d a, P.Slot d a → Owns P m x a → SameOn m m' a (a + (d + 20))) (hrecv : x'.inner.recvBuf = x.inner.recvBuf)
    (hpending : x'.inner.pendingData = x.inner.pendingData) (hstate : x'.inner.state ≠ .closed)
    (hreader : x'.reader = x.reader) : Holds P e m' free' x' A data rest := by
  have huntouched : Untouched P m m' (x.inner.recvBuf.held ++ A) := fun d a hd ha => hsame d a hd (h.owns a ha)
  have hrecvSame := huntouched.mono fun a (ha : a ∈ x.inner.recvBuf.held) => List.mem_append_left _ ha
  have hin := h.incoming.others hf (fun a ha => hown a (h.owns a ha)) (huntouched.mono fun a ha => List.mem_append_right _ ha)
  refine ⟨by rw [hrecv, hpending]; exact hin, hstate, by rw [hrecv, hreader]; exact h.shows, ?_⟩
  rw [h.rest, hrecv, h.incoming.valid.toBase.unread_untouched hrecvSame, unconsumed, unconsumed, hreader]
  cases hr : x.reader with
  | none => rfl
  | some r => simp only [(h.shows r hr).1.load_untouched h.incoming.valid.toBase hrecvSame]

theorem Holds.deliver {item : Pending} {new : List UInt8} (h : Holds P e m free x A data rest) (hf : P.Free e m free')
    (hown : ∀ a, Owns P m x a → ¬ free' a) (ha : Arrived P m [item] B new) (hnd : B.Nodup)
    (hnew : ∀ a ∈ B, ¬ free' a ∧ ¬ Owns P m x a) (hrecv : x'.inner.recvBuf = x.inner.recvBuf)
    (hpending : x'.inner.pendingData = x.inner.pendingData ++ [item]) (hstate : x'.inner.state ≠ .closed)
    (hreader : x'.reader = x.reader) : Holds P e m free' x' (A ++ B) (data ++ new) (rest ++ new) := by
  have hin := h.incoming.others hf (fun a ha => hown a (h.owns a ha)) fun _ _ _ _ => SameOn.refl _ _ _
  refine ⟨?_, hstate, by rw [hrecv, hreader]; exact h.shows, ?_⟩
  · rw [hrecv, hpending]
    apply hin.deliver ha hnd
    intro a ha
    exact ⟨(hnew a ha).1, fun hx => (hnew a ha).2 (.inl hx), fun hx => (hnew a ha).2 (.inr ⟨A, data, h.incoming.arrived, hx⟩)⟩
  · rw [h.rest, hrecv, unconsumed, unconsumed, hreader, List.append_assoc]

theorem inv_of_run {busy : Option (ℕ × List UInt8)} (h : Run P e m x busy delivered copied) :
    Inv P e m x busy delivered copied := by
  induction h with
  | start id hf =>
    exact ⟨⟨_, [], [], [], ⟨⟨.empty hf, .nil, List.nodup_nil, nofun⟩, nofun, nofun, rfl⟩, rfl⟩, nofun⟩
  | @deliver m m' free x busy delivered copied data item B s _ hf hown ha hnd hnew hfill ih =>
    obtain ⟨⟨free₀, A, data₀, rest, hholds, hdel⟩, hbusy⟩ := ih
    rw [Stream.fillDataToReadBuffer, if_neg hholds.state] at hfill
    cases hfill
    refine ⟨⟨free, A ++ B, _, rest ++ data, hholds.deliver hf hown ha hnd hnew rfl rfl hholds.state rfl, ?_⟩, hbusy⟩
    rw [hdel, List.append_assoc]
  | others _ hf hown hsame hrecv hpending hstate hreader ih =>
    obtain ⟨⟨free, A, data, rest, hholds, hdel⟩, hbusy⟩ := ih
    exact ⟨⟨_, A, data, rest, hholds.others hf hown hsame hrecv hpending hstate hreader, hdel⟩, hbusy⟩
  | read _ hn hread ih =>
    obtain ⟨⟨free, A, data, rest, hholds, hdel⟩, -⟩ := ih
    have hout := read_outcome hholds hn
    rw [hread] at hout
    cases hout with
    | copied hholds' hrest _ _ => exact ⟨⟨_, _, _, _, hholds', by rw [hdel, hrest, List.append_assoc]⟩, nofun⟩
    | empty hholds' hrest _ => exact ⟨⟨_, _, _, _, hholds', by rw [hdel, hrest, List.append_nil, List.append_nil]⟩, nofun⟩
  | begin _ hpos ih =>
    refine ⟨ih.holds, ?_⟩
    rintro size dest ⟨⟩
    exact ⟨hpos, List.nil_suffix⟩
  | @readExact m m' x x' delivered copied dest out size ret _ hcall ih =>
    obtain ⟨⟨free, A, data, rest, hholds, hdel⟩, hbusy⟩ := ih
    obtain ⟨hlt, hsuffix⟩ := hbusy size dest rfl
    have hout := readExact_filled hholds hlt.le
    rw [hcall] at hout
    cases hout with
    | full hholds' hrest hsize =>
      refine ⟨⟨_, _, _, _, hholds', by rw [hdel, hrest, List.append_assoc]⟩, ?_⟩
      rw [if_neg nofun]
      exact nofun
    | short hholds' hsize _ =>
      refine ⟨⟨_, _, _, _, hholds', by rw [hdel, List.append_nil]⟩, ?_⟩
      split_ifs
      · rintro size' dest' ⟨⟩
        refine ⟨by rw [List.length_append]; exact hsize, ?_⟩
        obtain ⟨before, rfl⟩ := hsuffix
        exact ⟨before, (List.append_assoc _ _ _).symm⟩
      · exact nofun

theorem read_faithful {busy : Option (ℕ × List UInt8)} (h : Run P e m x busy delivered copied) :
    (∃ A data, Arrived P m x.inner.pendingData A data ∧
      delivered = copied ++ (x.unconsumed m ++ unreadOf m x.inner.recvBuf.sliceList ++ data)) ∧
    (∀ n, 0 < n → ∃ m' x' out ret, x.read P.manager m n = some (m', x', out, ret) ∧
      (∀ k, ret = some (.ok k) → 0 < k ∧ k = out.length ∧ k ≤ n) ∧ (copied ≠ delivered → ∃ k, ret = some (.ok k))) ∧
    ∀ size dest, busy = some (size, dest) → dest <:+ copied ∧
      ∃ m' x' out ret, x.readExact P.manager m size dest.length = some (m', x', out, ret) ∧
        (∀ k, ret = some (.ok k) → k = size ∧ (dest ++ out).length = size) ∧
        (size - dest.length ≤ delivered.length - copied.length → ret = some (.ok size)) := by
  obtain ⟨⟨free, A, data, rest, hholds, hdel⟩, hbusy⟩ := inv_of_run h
  refine ⟨⟨A, data, hholds.incoming.arrived, by rw [hdel, hholds.rest]⟩, ?_, ?_⟩
  · intro n hn
    have hout := read_outcome hholds hn
    generalize x.read P.manager m n = res at hout
    cases hout with
    | copied _ _ hpos hle =>
      refine ⟨_, _, _, _, rfl, ?_, fun _ => ⟨_, rfl⟩⟩
      rintro k ⟨⟩
      exact ⟨hpos, rfl, hle⟩
    | empty _ hrest hret =>
      refine ⟨_, _, _, _, rfl, fun k hk => absurd hk (hret k), fun hne => ?_⟩
      rw [hdel, hrest, List.append_nil] at hne
      exact absurd rfl hne
  · intro size dest hb
    obtain ⟨hlt, hsuffix⟩ := hbusy size dest hb
    refine ⟨hsuffix, ?_⟩
    have hout := readExact_filled hholds hlt.le
    generalize x.readExact P.manager m size dest.length = res at hout
    cases hout with
    | full _ _ hsize =>
      refine ⟨_, _, _, _, rfl, ?_, fun _ => rfl⟩
      rintro k ⟨⟩
      exact ⟨rfl, by rw [List.length_append]; exact hsize⟩
    | short _ hsize hret =>
      refine ⟨_, _, _, _, rfl, fun k hk => absurd hk (hret k), fun hle => ?_⟩
      rw [hdel, List.length_append] at hle
      omega

open Built (threeSlots threeMem published)

-- five bytes are in the first two slots
def fiveSent : Mem := (published threeSlots.manager threeMem [1, 2, 3, 4, 5]).getD threeMem

theorem fiveSent_free : threeSlots.Free true fiveSent (· ∈ [84]) :=
  Pool.single_free_of _ _ _ (by decide +kernel) (by decide +kernel)

theorem mem_of_owns {a : ℕ} (hpending : x.inner.pendingData = []) (h : Owns P m x a) : a ∈ x.inner.recvBuf.held := by
  rcases h with h | ⟨A, data, harrived, h⟩
  · exact h
  · rw [hpending] at harrived
    cases harrived
    cases h

theorem owns_empty {a : ℕ} : ¬ Owns P m ⟨.empty 1, none⟩ a := fun h => absurd (mem_of_owns rfl h) List.not_mem_nil

theorem read_faithful_both : ∃ x m' x' out, Run threeSlots true fiveSent x none [1, 2, 3, 4, 5, 7, 8, 9] [] ∧
    x.inner.pendingData = [.chain 36, .fallback (fallbackSlice [7, 8, 9])] ∧
    readExact threeSlots.manager fiveSent x 7 0 = some (m', x', out, some (.ok 7)) ∧ out = [1, 2, 3, 4, 5, 7, 8] := by
  have hfree := fiveSent_free
  have hchain : Chain threeSlots fiveSent 36 [36, 60] := by decide +kernel
  have hbytes : chainBytes fiveSent [36, 60] = [1, 2, 3, 4, 5] := by decide +kernel
  have harrived : Arrived threeSlots fiveSent [.chain 36] [36, 60] ([1, 2, 3, 4, 5] ++ []) := hbytes ▸ Arrived.chain hchain .nil
  have hitem : Arrived threeSlots fiveSent [.fallback (fallbackSlice [7, 8, 9])] [] ([7, 8, 9] ++ []) := .fallback (by decide) .nil
  have htaken : ∀ a ∈ [36, 60], a ∉ [84] := by decide
  have hfirst := (Run.start 1 hfree).deliver hfree (fun a ha => absurd ha owns_empty) harrived (by decide)
    (fun a ha => ⟨htaken a ha, owns_empty⟩) rfl
  have howned : ∀ a, Owns threeSlots fiveSent ⟨{ Stream.empty 1 with pendingData := [.chain 36] }, none⟩ a → a ∈ [36, 60] := by
    rintro a (ha | ⟨A, data, hA, ha⟩)
    · cases ha
    · rwa [(hA.unique harrived).1] at ha
  have hboth := hfirst.deliver hfree (fun a ha => htaken a (howned a ha)) hitem List.nodup_nil (List.forall_mem_nil _) rfl
  have hbusy := hboth.begin (show 0 < 7 by decide)
  obtain ⟨-, -, hexact⟩ := read_faithful hbusy
  obtain ⟨-, m', x', out, ret, hcall, hfull, hok⟩ := hexact 7 [] rfl
  obtain rfl := hok (by decide)
  obtain ⟨⟨A, data, -, hdel⟩, -⟩ := read_faithful (hbusy.readExact hcall)
  have hout := congrArg (List.take 7) hdel
  rw [List.take_left' (hfull 7 rfl).2] at hout
  exact ⟨_, m', x', out, hboth, rfl, hcall, hout.symm⟩

end StreamExt

end Shmipc

import Shmipc.ReserveDelivers
import Shmipc.Stream
import Shmipc.FrameStream

namespace Shmipc

open ByteMemory LinkedBuffer

namespace ReadLoop

def kBufReaderCapacity : ℕ := 32 * 1024 * 1024

def Received (cap : ℕ) (f : Frame) : Prop :=
  ∀ (σ : Type) (H : Handlers σ) (s : σ) (before after : List Frame) (pieces : List (List UInt8)) (fuel : ℕ),
    (∀ s, H.isClosed s = false) → (∀ g ∈ before ++ after, g.Valid ∧ g.size ≤ cap) → (∀ p ∈ pieces, p ≠ []) →
    pieces.flatten = encodeAll (before ++ f :: after) → (encodeAll (before ++ f :: after)).length < fuel →
    readLoop H fuel (start cap (pieces.map .bytes) s) = some (handleAll H (before ++ f :: after) s)

variable {cap : ℕ} {f : Frame}

theorem received_of_le (hf : f.Valid) (hle : f.size ≤ cap) : Received cap f := by
  intro σ H s before after pieces fuel hopen hv hne hp hfuel
  apply (start_atFrames hp hne s).readLoop hopen
  · intro g hg
    rcases List.mem_append.mp hg with hg | hg
    · exact hv g (List.mem_append_left _ hg)
    · rcases List.mem_cons.mp hg with rfl | hg
      · exact ⟨hf, hle⟩
      · exact hv g (List.mem_append_right _ hg)
  · change (Fd.bytes (pieces.map .bytes)).length < fuel
    rw [bytes_pieces hp]
    exact hfuel

def counter : Handlers ℕ where
  polling s := (none, s + 1)
  fallbackData _ _ _ s := (none, s + 1)
  streamClose _ s := s + 1
  isClosed _ := false

theorem handleAll_counter (fs : List Frame) (s : ℕ) :
    handleAll counter fs s = .failed BufReader.invalidEof (s + fs.length) := by
  induction fs generalizing s with
  | nil => rfl
  | cons f fs ih =>
    have hone : handleFrame counter f s = (none, s + 1) := by cases f <;> rfl
    rw [handleAll, hone]
    change handleAll counter fs (s + 1) = _
    rw [ih, List.length_cons, Nat.add_assoc, Nat.add_comm 1]

theorem not_received_of_lt (hf : f.Valid) (hbig : cap < f.size) : ¬ Received cap f := by
  intro h
  have hp : [f.encode].flatten = encodeAll [f] := by
    rw [List.flatten_singleton, encodeAll, List.flatMap_singleton]
  have hne : ∀ p ∈ [f.encode], p ≠ [] := by
    intro p hmem
    rw [List.mem_singleton.mp hmem, ← List.length_pos_iff, f.encode_length]
    omega
  have hcalled := h ℕ counter 0 [] [] [f.encode] _ (fun _ => rfl) (List.forall_mem_nil _) hne hp (Nat.lt_succ_self _)
  have hstart : AtFrames cap [f] (start cap ([f.encode].map .bytes) 0) := start_atFrames hp hne 0
  have hended := hstart.oversize (H := counter) (fun _ => rfl) hf hbig (Nat.lt_succ_self _)
  rw [handleAll_counter] at hcalled
  change readLoop counter (Fd.bytes ([f.encode].map .bytes)).length.succ _ = _ at hended
  rw [bytes_pieces hp] at hended
  cases hcalled.symm.trans hended

theorem received_iff (hf : f.Valid) : Received cap f ↔ f.size ≤ cap := by
  constructor
  · intro h
    by_contra hbig
    exact not_received_of_lt hf (not_le.mp hbig) h
  · exact received_of_le hf

end ReadLoop

namespace LinkedBuffer

variable {P : Pool} {e : Bool} {m : Mem} {free : ℕ → Prop} {b : LinkedBuffer} {ns pre behind : List Node} {n : Node}

def sentOf (m : Mem) (ns : List Node) : List UInt8 := ns.flatMap fun n => n.slice.data.load m 0 n.slice.size

theorem sentOf_length (hok : ∀ x ∈ ns, SliceOk P x.slice) (m : Mem) : (sentOf m ns).length = sizeOf ns := by
  rw [sentOf, List.length_flatMap, sizeOf]
  congr 1
  apply List.map_congr_left
  intro x hx
  have hle := (hok x hx).size_le
  exact (hok x hx).load_length m (by omega)

theorem sentOf_append (m : Mem) (ns ns' : List Node) : sentOf m (ns ++ ns') = sentOf m ns ++ sentOf m ns' :=
  List.flatMap_append

theorem sentOf_blank (h : ∀ x ∈ ns, Blank x.slice) (m : Mem) : sentOf m ns = [] := by
  rw [sentOf, List.flatMap_eq_nil_iff]
  intro x hx
  rw [(h x hx).size, Storage.load_zero]

theorem fallbackPayload_none (m : Mem) (ns : List Node) : Stream.fallbackPayload m none ns = sentOf m ns := by
  induction ns with
  | nil => rfl
  | cons n ns ih =>
    rw [Stream.fallbackPayload, if_neg nofun, ih]
    rfl

theorem fallbackPayload_split (m : Mem) (behind : List Node) (hpre : ∀ x ∈ pre, x.id ≠ n.id) :
    Stream.fallbackPayload m (some n.id) (pre ++ n :: behind) = sentOf m (pre ++ [n]) := by
  induction pre with
  | nil =>
    rw [List.nil_append, Stream.fallbackPayload, if_pos rfl]
    rfl
  | cons x pre ih =>
    have hx : ¬ some n.id = some x.id := fun h => hpre x List.mem_cons_self (Option.some.inj h).symm
    rw [List.cons_append, Stream.fallbackPayload, if_neg hx, ih fun y hy => hpre y (List.mem_cons_of_mem x hy)]
    rfl

theorem Open.fallbackPayload (h : Open P e m free b) : Stream.fallbackPayload m b.write b.sliceList = sentOf m b.sliceList := by
  rcases h.ready with ⟨hnone, -⟩ | ⟨pre, n, behind, hc⟩
  · rw [hnone, fallbackPayload_none]
  · have hsplit : b.sliceList = (pre ++ [n]) ++ behind := by rw [hc.split, List.append_assoc, List.singleton_append]
    rw [hc.write, hc.split, fallbackPayload_split m behind (split_ids hc.split h.toBase).1, ← hc.split, hsplit,
      sentOf_append m (pre ++ [n]) behind, sentOf_blank hc.blank, List.append_nil]

theorem Open.fallbackPayload_length (h : Open P e m free b) :
    (Stream.fallbackPayload m b.write b.sliceList).length = b.len := by
  rw [h.fallbackPayload, sentOf_length (fun x hx => h.mem_slice hx), h.len]

end LinkedBuffer

namespace Stream

variable {P : Pool} {e : Bool} {m : Mem} {free : ℕ → Prop} {s : Stream} {status : ℕ}

/-- The bytes that `write_fallback` builds: the length field is taken from `len`, not from what was copied. -/
def fallbackBytes (version : ℕ) (m : Mem) (s : Stream) (status : ℕ) : List UInt8 :=
  Header.encode (u32 (u32 s.sendBuf.len + 16)) version .fallbackData ++ storeBe32 s.id ++ storeBe32 status ++
    fallbackPayload m s.sendBuf.write s.sendBuf.sliceList

def fallbackFrame (version : ℕ) (m : Mem) (s : Stream) (status : ℕ) : Frame :=
  .fallbackData version s.id status (fallbackPayload m s.sendBuf.write s.sendBuf.sliceList)

theorem encode_fallbackFrame (h : Open P e m free s.sendBuf) (hlen : s.sendBuf.len ≤ 4294967295 - 16) (version : ℕ) :
    (fallbackFrame version m s status).encode = fallbackBytes version m s status := by
  have hfield : u32 (u32 s.sendBuf.len + 16) = s.sendBuf.len + 16 := by
    rw [u32_of_lt (show s.sendBuf.len < 4294967296 by omega), u32_of_lt (by omega)]
  rw [fallbackFrame, Frame.encode, fallbackBytes, hfield, h.fallbackPayload_length]

theorem writeFallback_sent (ans : Answers) (hlen : s.sendBuf.len ≤ 4294967295 - 16) (hsend : ans.waitForSend = .ok ()) :
    (writeFallback P.manager ans m s status).2.2 = (.ok (), [.frame (fallbackFrame ans.version m s status)]) := by
  rw [writeFallback, if_neg (not_lt.mpr hlen), hsend]
  rfl

theorem writeFallback_received (ans : Answers) (s : Stream) (status : ℕ) (hrun : Reserving.Run P e m s.sendBuf)
    (hlen : s.sendBuf.len ≤ 4294967295 - 16) (hver : ans.version = 2 ∨ ans.version = 3) (hid : s.id < 2 ^ 32)
    (hstatus : status < 2 ^ 32) (hsend : ans.waitForSend = .ok ()) :
    ∃ f, (writeFallback P.manager ans m s status).2.2 = (.ok (), [.frame f]) ∧
      f.encode = fallbackBytes ans.version m s status ∧
      (ReadLoop.Received ReadLoop.kBufReaderCapacity f ↔ s.sendBuf.len + 16 ≤ ReadLoop.kBufReaderCapacity) := by
  obtain ⟨free, hopen⟩ := Reserving.open_of_run hrun
  refine ⟨fallbackFrame ans.version m s status, writeFallback_sent ans hlen hsend, encode_fallbackFrame hopen hlen _, ?_⟩
  have hpayload := hopen.fallbackPayload_length
  have hvalid : (fallbackFrame ans.version m s status).Valid := by
    refine ⟨hver, hid, hstatus, ?_⟩
    rw [hpayload]
    omega
  rw [ReadLoop.received_iff hvalid, fallbackFrame, Frame.size, hpayload]

-- over the two slots of four bytes
theorem small_written (bytes : List UInt8) (hlt : bytes.length < 4294967296) :
    ∃ m b, Reserving.Run ByteFifo.smallPool true m b ∧ b.len = bytes.length := by
  obtain ⟨m, hfree⟩ : ∃ m, ByteFifo.smallPool.Free true m _ := ⟨_, Pool.single_free _ _ _ ⟨fun _ => 0⟩⟩
  obtain ⟨m', -, b', hcall, -, -, hlen⟩ := writeBytes_puts (Valid.empty hfree) hlt
  exact ⟨m', b', .call (c := .writeBytes bytes) (.start hfree) trivial hcall, hlen.trans (Nat.zero_add _)⟩

def sending : Answers where
  version := 3
  shutdown := false
  put _ := .ok ()
  closed _ := false
  waitForSend := .ok ()

theorem writeFallback_received_hundred : ∃ m s f, s.sendBuf.len = 100 ∧
    (writeFallback ByteFifo.smallPool.manager sending m s 0).2.2 = (.ok (), [.frame f]) ∧
    ReadLoop.Received ReadLoop.kBufReaderCapacity f := by
  obtain ⟨m, b, hrun, hlen⟩ := small_written (List.replicate 100 7) (by rw [List.length_replicate]; decide)
  rw [List.length_replicate] at hlen
  obtain ⟨f, hsent, -, hiff⟩ := writeFallback_received sending { Stream.empty 1 with sendBuf := b } 0 hrun
    (by rw [hlen]; decide) (.inr rfl) (show 1 < _ by decide) (by decide) rfl
  exact ⟨m, _, f, hlen, hsent, hiff.mpr (by rw [hlen]; decide)⟩

theorem writeFallback_not_received : ∃ m s f, Reserving.Run ByteFifo.smallPool true m s.sendBuf ∧ s.sendBuf.len = 33554417 ∧
    (writeFallback ByteFifo.smallPool.manager sending m s 0).2.2 = (.ok (), [.frame f]) ∧
    f.encode = fallbackBytes 3 m s 0 ∧ ¬ ReadLoop.Received ReadLoop.kBufReaderCapacity f := by
  obtain ⟨m, b, hrun, hlen⟩ := small_written (List.replicate 33554417 7) (by rw [List.length_replicate]; decide)
  rw [List.length_replicate] at hlen
  obtain ⟨free, hopen⟩ := Reserving.open_of_run hrun
  have hpayload := hopen.fallbackPayload_length
  rw [hlen] at hpayload
  have hle : b.len ≤ 4294967295 - 16 := by
    rw [hlen]
    decide
  refine ⟨m, { Stream.empty 1 with sendBuf := b }, fallbackFrame 3 m { Stream.empty 1 with sendBuf := b } 0, hrun, hlen,
    writeFallback_sent sending hle rfl, encode_fallbackFrame hopen hle 3, ?_⟩
  apply ReadLoop.not_received_of_lt
  · refine ⟨.inr rfl, show 1 < _ by decide, by decide, ?_⟩
    rw [hpayload]
    decide
  · change _ < (fallbackPayload m b.write b.sliceList).length + 16
    rw [hpayload]
    decide

end Stream

end Shmipc

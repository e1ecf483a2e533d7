import Shmipc.StreamChain

namespace Shmipc

open ByteMemory LinkedBuffer

open StreamRead (StreamState)

def fallbackSlice (payload : List UInt8) : BufferSlice :=
  { BufferSlice.fromHeap payload with writeIndex := (BufferSlice.fromHeap payload).cap }

inductive Arrived (P : Pool) (m : Mem) : List Pending → List ℕ → List UInt8 → Prop
  | nil : Arrived P m [] [] []
  | fallback {payload data : List UInt8} {items : List Pending} {A : List ℕ} : payload.length < 4294967296 →
      Arrived P m items A data → Arrived P m (.fallback (fallbackSlice payload) :: items) A (payload ++ data)
  | chain {off : ℕ} {data : List UInt8} {items : List Pending} {A B : List ℕ} : Chain P m off A → Arrived P m items B data →
      Arrived P m (.chain off :: items) (A ++ B) (chainBytes m A ++ data)

variable {P : Pool} {e : Bool} {m m' : Mem} {free free' : ℕ → Prop} {b b' : LinkedBuffer} {items items' : List Pending}
  {A B : List ℕ} {payload data data' : List UInt8} {a : ℕ}

theorem fallbackSlice_ok (h : payload.length < 4294967296) :
    SliceOk P (fallbackSlice payload) ∧ (fallbackSlice payload).unread m = payload := by
  have hcap : u32 payload.length = payload.length := Nat.mod_eq_of_lt h
  constructor
  · refine ⟨Nat.zero_le _, le_rfl, .inr ⟨rfl, rfl, payload, rfl, hcap.symm⟩⟩
  · change (payload.drop 0).take (usub (u32 payload.length) 0) = payload
    rw [hcap, usub_of_le (Nat.zero_le _), Nat.sub_zero, List.drop_zero, List.take_length]

namespace Arrived

theorem append (h : Arrived P m items A data) (h' : Arrived P m items' B data') :
    Arrived P m (items ++ items') (A ++ B) (data ++ data') := by
  induction h with
  | nil => exact h'
  | fallback hlen _ ih =>
    rw [List.cons_append, List.append_assoc]
    exact .fallback hlen ih
  | chain hc _ ih =>
    rw [List.cons_append, List.append_assoc, List.append_assoc]
    exact .chain hc ih

theorem readable (h : Arrived P m items A data) (ha : a ∈ A) : Readable P m a := by
  induction h with
  | nil => cases ha
  | fallback _ _ ih => exact ih ha
  | chain hc _ ih =>
    rcases List.mem_append.mp ha with ha | ha
    · exact hc.readable ha
    · exact ih ha

theorem slots (h : Arrived P m items A data) (ha : a ∈ A) : ∃ d, P.Slot d a := by
  obtain ⟨d, hd, -⟩ := h.readable ha
  exact ⟨d, hd⟩

theorem unique (h : Arrived P m items A data) (h' : Arrived P m items B data') : A = B ∧ data = data' := by
  induction h generalizing B data' with
  | nil =>
    cases h'
    exact ⟨rfl, rfl⟩
  | @fallback payload data items A _ _ ih =>
    generalize hitems : Pending.fallback (fallbackSlice payload) :: items = l at h'
    cases h' with
    | nil => cases hitems
    | fallback _ hrest =>
      obtain ⟨hitem, rfl⟩ := List.cons.inj hitems
      have hdata := congrArg BufferSlice.data (Pending.fallback.inj hitem)
      obtain ⟨hA, hdata'⟩ := ih hrest
      rw [Storage.heap.inj hdata, hdata']
      exact ⟨hA, rfl⟩
    | chain _ _ => cases (List.cons.inj hitems).1
  | chain hc _ ih =>
    cases h' with
    | chain hc' hrest =>
      obtain ⟨hA, hdata⟩ := ih hrest
      rw [hc.unique hc', hA, hdata]
      exact ⟨rfl, rfl⟩

theorem chainBytes_eq (h : Arrived P m items A data) (hall : ∀ item ∈ items, ∃ off, item = .chain off) :
    data = chainBytes m A := by
  induction h with
  | nil => rfl
  | fallback _ _ _ =>
    obtain ⟨off, hoff⟩ := hall _ List.mem_cons_self
    cases hoff
  | chain _ _ ih =>
    rw [ih fun item hitem => hall item (List.mem_cons_of_mem _ hitem), chainBytes, chainBytes, chainBytes, List.flatMap_append]

theorem congr (h : Arrived P m items A data) (hf : P.Free e m free) (hsame : Untouched P m m' A) : Arrived P m' items A data := by
  induction h with
  | nil => exact .nil
  | fallback hlen _ ih => exact .fallback hlen (ih hsame)
  | chain hc _ ih =>
    have hchain := hsame.mono fun a ha => List.mem_append_left _ ha
    rw [← chainBytes_congr hf (fun a ha => hc.readable ha) hchain]
    exact .chain (hc.congr hchain) (ih (hsame.mono fun a ha => List.mem_append_right _ ha))

end Arrived

theorem slots_length (hnd : A.Nodup) (hs : ∀ a ∈ A, ∃ d, P.Slot d a) : A.length ≤ P.manager.memSize := by
  have hsub : A ⊆ List.range P.manager.memSize := by
    intro a ha
    obtain ⟨d, hd⟩ := hs a ha
    have hfits := hd.fits
    rw [List.mem_range]
    omega
  simpa only [List.length_range] using (List.subperm_of_subset hnd hsub).length_le

structure Incoming (P : Pool) (e : Bool) (m : Mem) (free : ℕ → Prop) (b : LinkedBuffer) (items : List Pending) (A : List ℕ)
    (data : List UInt8) : Prop where
  valid : Valid P e m free b
  arrived : Arrived P m items A data
  distinct : A.Nodup
  owned : ∀ a ∈ A, ¬ free a ∧ a ∉ b.held

namespace Incoming

theorem others (h : Incoming P e m free b items A data) (hf : P.Free e m' free') (hown : ∀ a ∈ b.held ++ A, ¬ free' a)
    (hsame : Untouched P m m' A) : Incoming P e m' free' b items A data where
  valid := h.valid.others hf fun a ha => hown a (List.mem_append_left _ ha)
  arrived := h.arrived.congr h.valid.holds.pool hsame
  distinct := h.distinct
  owned a ha := ⟨hown a (List.mem_append_right _ ha), (h.owned a ha).2⟩

theorem used (h : Incoming P e m free b items A data) (hv : Valid P e m' free' b')
    (hframe : SlotFrame P m free b.held m' free' b'.held) : Incoming P e m' free' b' items A data := by
  obtain ⟨hown, hsame⟩ := hframe.others h.owned
  exact ⟨hv, h.arrived.congr h.valid.holds.pool hsame, h.distinct, hown⟩

theorem deliver (h : Incoming P e m free b items A data) (ha : Arrived P m items' B data') (hnd : B.Nodup)
    (hnew : ∀ a ∈ B, ¬ free a ∧ a ∉ b.held ∧ a ∉ A) : Incoming P e m free b (items ++ items') (A ++ B) (data ++ data') := by
  refine ⟨h.valid, h.arrived.append ha, ?_, ?_⟩
  · apply h.distinct.append hnd
    intro a haA haB
    exact (hnew a haB).2.2 haA
  · intro a ha
    rcases List.mem_append.mp ha with ha | ha
    · exact h.owned a ha
    · exact ⟨(hnew a ha).1, (hnew a ha).2.1⟩

end Incoming

def Buf.size : Buf → ℕ
  | .shm _ _ _ len => len
  | .exm bytes => bytes.length

def Shows (b : LinkedBuffer) : Buf → Prop
  | .shm _ data offset len => ∃ n ∈ b.sliceList, n.slice.data = data ∧ offset + len ≤ n.slice.cap
  | .exm _ => True

namespace Shows

variable {buf : Buf}

theorem load_length (h : Shows b buf) (hb : Base P e m free b) : (buf.load m).length = buf.size := by
  cases buf with
  | shm id data offset len =>
    obtain ⟨n, hn, rfl, hle⟩ := h
    exact (hb.mem_slice hn).load_length m hle
  | exm bytes => rfl

theorem load_untouched (h : Shows b buf) (hb : Base P e m free b) (hsame : Untouched P m m' b.held) :
    buf.load m' = buf.load m := by
  cases buf with
  | shm id data offset len =>
    obtain ⟨n, hn, rfl, hle⟩ := h
    apply (hb.mem_slice hn).load_of_data hle
    intro a ha
    have hheld : a ∈ b.held := List.mem_filterMap.mpr ⟨n, List.mem_append_left _ hn, ha⟩
    exact (hsame _ a ((hb.mem_slice hn).refers ha).1.slot hheld).mono (by omega) le_rfl
  | exm bytes => rfl

theorem of_readFront {bm : BufferManager} {size : ℕ} (hb : Base P e m' free' b') (h : readFront bm m b size = (m', b', .ok buf)) :
    Shows b' buf := by
  rw [readFront] at h
  split at h
  · rename_i n ns hs
    split_ifs at h
    · cases h
      have hmem := List.mem_cons_self (a := (⟨n.id, (n.slice.read size).2⟩ : Node)) (l := ns)
      have hok := hb.mem_slice hmem
      exact ⟨_, hmem, rfl, hok.read_le.trans hok.write_le⟩
    · cases h
      trivial
  · cases h
    trivial

theorem of_readBytes {bm : BufferManager} {size : ℕ} (hb : Base P e m' free' b')
    (h : LinkedBuffer.readBytes bm m b size = (m', b', .ok buf)) : Shows b' buf := by
  rw [LinkedBuffer.readBytes] at h
  split_ifs at h
  · cases h
    trivial
  · cases h
  · exact of_readFront hb h

end Shows

theorem readBytes_all (h : Valid P e m free b) (hpos : 0 < b.len) :
    ∃ m' free' b' buf, LinkedBuffer.readBytes P.manager m b b.len = (m', b', .ok buf) ∧ Valid P e m' free' b' ∧
      SlotFrame P m free b.held m' free' b'.held ∧ buf.load m' = unreadOf m b.sliceList ∧ unreadOf m' b'.sliceList = [] ∧
      Shows b' buf := by
  obtain ⟨m', b', buf, hread, ⟨free', hcons, hv⟩, hbuf⟩ := readBytes_takes h hpos le_rfl
  refine ⟨m', free', b', buf, hread, hv, hcons.exchange.frame, ?_, ?_, .of_readBytes hv.toBase hread⟩
  · rw [hbuf, List.take_of_length_le h.unread_length.le]
  · rw [hcons.unread, List.drop_of_length_le h.unread_length.le]

namespace Stream

theorem moveAll_moves {fuel : ℕ} (hb : Base P e m free b) (hlen : b.len = sizeOf b.sliceList) (ha : Arrived P m items A data)
    (hnd : A.Nodup) (hown : ∀ a ∈ A, ¬ free a ∧ a ∉ b.held) (hfuel : P.manager.memSize ≤ fuel) (flag : Bool) :
    ∃ m' free' b' flag', moveAll P.manager fuel items m b flag = some (m', b', flag') ∧
      Moved P e m free b A data m' free' b' ∧
      ((∀ item ∈ items, ∃ off, item = .chain off) → Grown b b' (dataViews m A)) := by
  induction items generalizing m free b A data flag with
  | nil =>
    cases ha
    refine ⟨m, free, b, flag, rfl, ⟨hb, hlen, .inl rfl, (List.append_nil _).symm, ?_⟩, fun _ => .refl b⟩
    rw [List.append_nil]
    exact (Exchange.refl _ _ _ _).trade hb.holds.owned
  | cons item items ih =>
    cases ha with
    | @fallback payload data _ _ hpayload hrest =>
      obtain ⟨hok, hbytes⟩ := fallbackSlice_ok (P := P) (m := m) hpayload
      obtain ⟨hb₁, hunread, hheld⟩ := appendBufferSlice_base hb hok nofun
      have hmem : ∀ a, a ∈ (b.appendBufferSlice (fallbackSlice payload)).held ↔ a ∈ b.held := by
        intro a
        rw [hheld.mem_iff]
        simp [fallbackSlice, BufferSlice.fromHeap]
      obtain ⟨m', free', b', flag', hmove, hmoved, -⟩ := ih hb₁ (appendBufferSlice_len hlen) hrest hnd
        (fun a ha => ⟨(hown a ha).1, fun hx => (hown a ha).2 ((hmem a).mp hx)⟩) true
      rw [hbytes] at hunread
      have hslots : ∀ a ∈ b.held ++ A, ¬ free a := by
        intro a ha
        rcases List.mem_append.mp ha with ha | ha
        · exact hb.holds.owned a ha
        · exact (hown a ha).1
      refine ⟨m', free', b', flag', hmove, hmoved.step (.inr rfl) hunread ?_, fun hall => ?_⟩
      · apply ((Exchange.refl P m free (b.held ++ A)).trade hslots).congr fun a => Iff.rfl
        intro a
        rw [List.mem_append, List.mem_append, hmem]
      · obtain ⟨off, hoff⟩ := hall _ List.mem_cons_self
        cases hoff
    | @chain off data _ A B hc hrest =>
      obtain ⟨hndA, hndB, hdisj⟩ := List.nodup_append.mp hnd
      have hlenA : A.length ≤ fuel := by
        apply (slots_length hndA fun a ha => ?_).trans hfuel
        obtain ⟨d, hd, -⟩ := hc.readable ha
        exact ⟨d, hd⟩
      obtain ⟨m₁, free₁, b₁, hmove₁, hmoved₁, hgrown₁, -⟩ :=
        moveChain_moves hb hlen hc hndA (fun a ha => hown a (List.mem_append_left _ ha)) hlenA
      -- the slots of the messages behind it stay
      have hB : ∀ a ∈ B, ¬ free a ∧ a ∉ b.held ++ A := by
        intro a ha
        obtain ⟨hf, hb⟩ := hown a (List.mem_append_right _ ha)
        refine ⟨hf, fun hx => ?_⟩
        rcases List.mem_append.mp hx with hx | hx
        · exact hb hx
        · exact hdisj a hx a ha rfl
      obtain ⟨hown₁, hsame⟩ := hmoved₁.trade.toSlotFrame.others hB
      obtain ⟨m', free', b', flag', hmove, hmoved, hgrown⟩ :=
        ih hmoved₁.base hmoved₁.len (hrest.congr hb.holds.pool hsame) hndB hown₁ flag
      refine ⟨m', free', b', flag', ?_, hmoved.step hmoved₁.cursor hmoved₁.unread ?_, fun hall => ?_⟩
      · rw [moveAll, hmove₁]
        exact hmove
      · rw [← List.append_assoc]
        exact hmoved₁.trade.more hB fun a ha => hrest.slots ha
      · rw [dataViews_append, ← dataViews_congr (fun a ha => hrest.readable ha) hsame]
        exact hgrown₁.trans (hgrown fun item hitem => hall item (List.mem_cons_of_mem _ hitem))

variable {s s' : Stream}

theorem movePendingData_incoming (h : Incoming P e m free s.recvBuf s.pendingData A data) :
    ∃ m' free' s', movePendingData P.manager m s = some (m', s') ∧ s'.state = s.state ∧
      Incoming P e m' free' s'.recvBuf s'.pendingData [] [] ∧
      unreadOf m' s'.recvBuf.sliceList = unreadOf m s.recvBuf.sliceList ++ data := by
  obtain ⟨m', free', b', flag', hmove, hmoved, -⟩ :=
    moveAll_moves h.valid.toBase h.valid.len h.arrived h.distinct h.owned le_rfl s.inFallbackState
  refine ⟨m', free', { s with recvBuf := b', inFallbackState := flag', pendingData := [] }, ?_, rfl,
    ⟨hmoved.valid h.valid, .nil, List.nodup_nil, nofun⟩, hmoved.unread⟩
  rw [movePendingData, hmove]
  rfl

inductive ReadOutcome (P : Pool) (e : Bool) (state : StreamState) (bytes : List UInt8) :
    Option (Mem × Stream × Option (Result Buf)) → Prop
  | got {m : Mem} {free : ℕ → Prop} {s : Stream} {A : List ℕ} {data : List UInt8} {buf : Buf} :
      Incoming P e m free s.recvBuf s.pendingData A data → s.state = state → Shows s.recvBuf buf → 0 < buf.size →
      bytes = buf.load m ++ unreadOf m s.recvBuf.sliceList ++ data → ReadOutcome P e state bytes (some (m, s, some (.ok buf)))
  | none {m : Mem} {free : ℕ → Prop} {s : Stream} {ret : Option (Result Buf)} :
      Incoming P e m free s.recvBuf s.pendingData [] [] → s.state = state → bytes = [] →
      unreadOf m s.recvBuf.sliceList = [] → (∀ buf, ret ≠ some (.ok buf)) → ReadOutcome P e state bytes (some (m, s, ret))

theorem read_nonempty (h : Incoming P e m free s.recvBuf s.pendingData A data) (hpos : 0 < s.recvBuf.len) :
    ∃ r, s.onRecv (s.recvBuf.readBytes P.manager m s.recvBuf.len) = r ∧
      ReadOutcome P e s.state (unreadOf m s.recvBuf.sliceList ++ data) (some (r.1, r.2.1, some r.2.2)) := by
  obtain ⟨m', free', b', buf, hread, hv, hframe, hbuf, hnil, hshows⟩ := readBytes_all h.valid hpos
  refine ⟨_, rfl, ?_⟩
  rw [hread]
  refine .got (h.used hv hframe) rfl hshows ?_ ?_
  · rw [← hshows.load_length hv.toBase, hbuf, h.valid.unread_length]
    exact hpos
  · change _ = buf.load m' ++ unreadOf m' b'.sliceList ++ data
    rw [hbuf, hnil, List.append_nil]

theorem andThen_refused {α : Type} {ret : Option (Result Unit)} (hret : ∀ u, ret ≠ some (.ok u))
    (f : Mem → Stream → Mem × Stream × Result α) :
    ∃ ret', andThen (some (m, s, ret)) f = some (m, s, ret') ∧ ∀ x, ret' ≠ some (.ok x) := by
  match ret with
  | none => exact ⟨none, rfl, nofun⟩
  | some (.error err) => exact ⟨some (.error err), rfl, nofun⟩
  | some (.ok u) => exact absurd rfl (hret u)

theorem readMore_of_move {bm : BufferManager} {k : ℕ} (hmove : movePendingData bm m s = some (m', s')) :
    ∃ ret, readMore bm m s k = some (m', s', ret) ∧ (k ≤ s'.recvBuf.len → ret = some (.ok ())) ∧
      (¬ k ≤ s'.recvBuf.len → ∀ u, ret ≠ some (.ok u)) := by
  rw [readMore, hmove, Option.map_some]
  refine ⟨_, rfl, fun hgot => if_pos hgot, fun hgot u => ?_⟩
  rw [if_neg hgot]
  split_ifs
  · exact nofun
  · cases s'.state <;> exact nofun

theorem read_outcome (h : Incoming P e m free s.recvBuf s.pendingData A data) :
    ReadOutcome P e s.state (unreadOf m s.recvBuf.sliceList ++ data) (s.read P.manager m) := by
  by_cases hlen : s.recvBuf.len < 1
  · obtain ⟨m₁, free₁, s₁, hmove, hstate, hin, hunread⟩ := movePendingData_incoming h
    obtain ⟨ret, hmore, hok, hrefused⟩ := readMore_of_move (k := 1) hmove
    rw [read, reading, if_pos hlen, hmore, ← hunread, ← hstate]
    by_cases hgot : 1 ≤ s₁.recvBuf.len
    · obtain ⟨r, hr, hout⟩ := read_nonempty hin hgot
      rw [List.append_nil] at hout
      simp only [hok hgot, andThen, Option.map_some, hr]
      exact hout
    · have hnil : unreadOf m₁ s₁.recvBuf.sliceList = [] := by
        rw [← List.length_eq_zero_iff, hin.valid.unread_length]
        omega
      obtain ⟨ret', hthen, hnone⟩ := andThen_refused (hrefused hgot) _
      rw [hthen]
      exact .none hin rfl hnil hnil hnone
  · obtain ⟨r, hr, hout⟩ := read_nonempty h (by omega)
    rw [read, reading, if_neg hlen, andThen, Option.map_some]
    simp only [hr]
    exact hout

end Stream

end Shmipc
